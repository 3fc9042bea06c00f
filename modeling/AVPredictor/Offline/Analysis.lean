import AVPredictor.Offline.LockLine
import AVPredictor.Offline.SyncTrace

/-!
# AVPredictor.Offline.Analysis — the whole run of `offline_modules.py`

The monitor's buffers are written to the memory log whenever one is full, so two executions with the
same accesses can leave the records of different threads in another order.  The report does not
depend on it.  The candidates are the violations of the log, whichever way its threads are interleaved
(`Violation.keepsOrder`), so the same results reach `grouper`, in another order; it keeps one line of
each triple of intervals, and lines with the same triple are equal (`identifier_eq_of_key`).  Only
which group a line goes to depends on the order.
-/

namespace AVPredictor
namespace Offline

open Base

/-! ## The code -/

/-- The calls at the end of the script.  `enum` is the order in which the loop over `mem_trace` goes
through the addresses. -/
def analyse (enum : MemTrace → List ℕ) (memLog lockLog syncLog : List UInt8) : Except PyErr GroupState := do
  let memTrace ← loadMemTraces memLog
  let csList ← loadLockTraces lockLog
  let syncList ← loadSyncTraces syncLog
  let ciList ← predictor (enum memTrace) memTrace
  let resultList ← pruner csList syncList ciList
  findIdentifier .init resultList

/-- The lines of all group files. -/
def report (s : GroupState) : List (List Char) :=
  (List.range s.groupNum).flatMap fun i => lines ((s.files i).getD [])

/-! ## The lines that `grouper` writes -/

section Report

variable {calls calls₁ calls₂ : List Entry} {s : GroupState}

theorem groupSet_eq_map (h : GroupInv calls s) :
    s.groupSet = (List.range s.groupNum).map fun i => s.groupSet[i]?.getD [] := by
  apply List.ext_getElem
  · rw [List.length_map, List.length_range, h.num]
  · intro i h1 h2
    simp [h1]

/-- The files hold the messages of the entries, one line each. -/
theorem report_perm (h : GroupInv calls s) (hf : FilesInv s) (hline : ∀ e ∈ calls, IsLine e.msg) :
    (report s).Perm (s.groupSet.flatten.map Entry.msg) := by
  have hfile : ∀ i ∈ List.range s.groupNum,
      (lines ((s.files i).getD [])).Perm ((s.groupSet[i]?.getD []).map Entry.msg) := by
    intro i hi
    rw [List.mem_range, h.num] at hi
    have hget := List.getElem?_eq_getElem hi
    obtain ⟨r, hperm, -, hr⟩ := hf.written i _ hget
    have hlines : ∀ e ∈ r, IsLine e.msg := fun e he =>
      hline e (h.submitted e (List.mem_flatten_of_mem (List.getElem_mem hi) (hperm.mem_iff.mp he)))
    rw [hr, hget, Option.getD_some, Option.getD_some, lines_flatMap hlines]
    exact hperm.map Entry.msg
  have hall : s.groupSet.flatten.map Entry.msg =
      (List.range s.groupNum).flatMap fun i => (s.groupSet[i]?.getD []).map Entry.msg := by
    conv_lhs => rw [groupSet_eq_map h, ← List.flatMap_def, List.map_flatMap]
  rw [hall]
  exact List.Perm.flatMap_left _ hfile

/-- **The lines depend on the calls as a set only**, when calls with the same triple of intervals
have the same message. -/
theorem report_perm_of_mem (hwf : ∀ e ∈ calls₁, e.WellFormed) (hline : ∀ e ∈ calls₁, IsLine e.msg)
    (hmsg : ∀ a ∈ calls₁, ∀ b ∈ calls₁, a.key = b.key → a.msg = b.msg)
    (hmem : ∀ e, e ∈ calls₁ ↔ e ∈ calls₂) :
    ∃ s₁ s₂, grouperRun calls₁ = .ok s₁ ∧ grouperRun calls₂ = .ok s₂ ∧ (report s₁).Perm (report s₂) := by
  obtain ⟨s₁, hrun₁, h₁, hf₁⟩ := groupInv_run hwf
  obtain ⟨s₂, hrun₂, h₂, hf₂⟩ := groupInv_run fun e he => hwf e ((hmem e).mpr he)
  refine ⟨s₁, s₂, hrun₁, hrun₂, ?_⟩
  have hkeys : ∀ k, k ∈ s₁.groupSet.flatten.map Entry.key ↔ k ∈ s₂.groupSet.flatten.map Entry.key := by
    intro k
    rw [← h₁.mem_keys, ← h₂.mem_keys, List.mem_map, List.mem_map]
    exact exists_congr fun e => and_congr_left fun _ => hmem e
  have hmsgs : (s₁.groupSet.flatten.map Entry.msg).Perm (s₂.groupSet.flatten.map Entry.msg) := by
    refine perm_map_of_keys h₁.nodup h₂.nodup hkeys fun a ha b hb => ?_
    exact hmsg a (h₁.submitted a ha) b ((hmem b).mpr (h₂.submitted b hb))
  have hreport₁ := report_perm h₁ hf₁ hline
  have hreport₂ := report_perm h₂ hf₂ fun e he => hline e ((hmem e).mpr he)
  exact hreport₁.trans (hmsgs.trans hreport₂.symm)

end Report

/-! ## What is reported -/

section Reported

variable {log : List Trace} {css : List CS} {re re' : Result}

/-- The result of a violation that no pair of sections rules out. -/
def Reported (log : List Trace) (css : List CS) (re : Result) : Prop :=
  ∃ ci, Violation log ci ∧ lockFound css ci = false ∧ re = saveResult css ci

/-- A violation of the log is one of the log rescheduled. -/
theorem Violation.keepsOrder {log' : List Trace} (h : KeepsOrder Trace.tid log log') {ci : CI}
    (hci : Violation log ci) : Violation log' ci := by
  refine ⟨?_, h.mem_iff.mpr hci.mem, hci.addr, hci.tid, hci.outside, hci.pattern⟩
  have hacc : accesses log' ci.first.addr ci.first.tid = accesses log ci.first.addr ci.first.tid := by
    rw [accesses_eq_filter, accesses_eq_filter]
    exact h.filter_eq fun x hx => (of_decide_eq_true hx).2
  rw [nextAccess_iff, hacc]
  exact nextAccess_iff.mp hci.next

theorem reported_keepsOrder {log' : List Trace} (h : KeepsOrder Trace.tid log log') :
    Reported log css re ↔ Reported log' css re := by
  constructor
  · rintro ⟨ci, hci, hrest⟩
    exact ⟨ci, hci.keepsOrder h, hrest⟩
  · rintro ⟨ci, hci, hrest⟩
    exact ⟨ci, hci.keepsOrder fun t => (h t).symm, hrest⟩

/-- The three sections of a line of type 1 are sections of the log that begin before they end. -/
theorem mem_commonSections (h : Attached css re) {f s i : CS} (hc : commonSections re = some (f, s, i)) :
    ∀ cs ∈ [f, s, i], cs ∈ css ∧ cs.stime < cs.ftime := by
  obtain ⟨hf, hs, hi, -, -⟩ := commonSections_eq_some hc
  have hproper : ∀ {x : Trace} {cs : CS}, cs ∈ css ∧ inSection x cs = true →
      cs ∈ css ∧ cs.stime < cs.ftime := by
    rintro x cs ⟨hmem, hin⟩
    obtain ⟨-, hstart, hfinish⟩ := inSection_iff_encloses.mp hin
    exact ⟨hmem, hstart.trans hfinish⟩
  intro cs hcs
  simp only [List.mem_cons, List.not_mem_nil, or_false] at hcs
  rcases hcs with rfl | rfl | rfl
  · exact hproper (h.first _ hf)
  · exact hproper (h.second _ hs)
  · exact hproper (h.inter _ hi)

theorem key_of_sections {f s i : CS} (hc : commonSections re = some (f, s, i)) :
    (identifierEntry re).key = ((f.stime, f.ftime), (s.stime, s.ftime), (i.stime, i.ftime)) := by
  unfold identifierEntry
  rw [hc]
  rfl

theorem key_of_accesses (hc : commonSections re = none) :
    (identifierEntry re).key = ((re.first.time, re.first.time), (re.second.time, re.second.time),
      (re.inter.time, re.inter.time)) := by
  unfold identifierEntry
  rw [hc]
  rfl

theorem wellFormed_identifierEntry (h : Attached css re) : (identifierEntry re).WellFormed := by
  cases hc : commonSections re with
  | none => exact Entry.wellFormed_of_key (key_of_accesses hc) le_rfl le_rfl le_rfl
  | some c =>
    obtain ⟨f, s, i⟩ := c
    have hmem := mem_commonSections h hc
    exact Entry.wellFormed_of_key (key_of_sections hc) (hmem f (by simp)).2.le (hmem s (by simp)).2.le
      (hmem i (by simp)).2.le

/-- A line of type 1 and a line of type 0 have different intervals. -/
theorem commonSections_of_key (h : Attached css re) {f s i : CS} (hc : commonSections re = some (f, s, i))
    (hkey : (identifierEntry re).key = (identifierEntry re').key) : commonSections re' ≠ none := by
  intro hc'
  have hlt := (mem_commonSections h hc f (by simp)).2
  rw [key_of_sections hc, key_of_accesses hc'] at hkey
  obtain ⟨hs, hf⟩ := Prod.mk.inj (Prod.mk.inj hkey).1
  omega

/-- **The intervals determine the line**, where a time belongs to one access and one lock record
only. -/
theorem identifier_eq_of_key (hlog : ∀ a ∈ log, ∀ b ∈ log, a.time = b.time → a = b)
    (hcss : ∀ a ∈ css, ∀ b ∈ css, a.stime = b.stime → a = b) (h : Reported log css re)
    (h' : Reported log css re') (hkey : (identifierEntry re).key = (identifierEntry re').key) :
    identifier re = identifier re' := by
  obtain ⟨ci, hci, -, rfl⟩ := h
  obtain ⟨ci', hci', -, rfl⟩ := h'
  obtain ⟨hatt, h1, h2, h3⟩ := saveResult_attached css ci
  obtain ⟨hatt', h1', h2', h3'⟩ := saveResult_attached css ci'
  generalize saveResult css ci = re at *
  generalize saveResult css ci' = re' at *
  cases hc : commonSections re with
  | none =>
    cases hc' : commonSections re' with
    | some c => exact absurd hc (commonSections_of_key hatt' hc' hkey.symm)
    | none =>
      rw [key_of_accesses hc, key_of_accesses hc', h1, h2, h3, h1', h2', h3'] at hkey
      simp only [Prod.mk.injEq, and_self] at hkey
      have hfirst := hlog _ hci.next.left_mem _ hci'.next.left_mem hkey.1
      have hsecond := hlog _ hci.next.right_mem _ hci'.next.right_mem hkey.2.1
      have hinter := hlog _ hci.mem _ hci'.mem hkey.2.2
      unfold identifier
      rw [hc, hc']
      simp only [accessNumbers, h1, h2, h3, h1', h2', h3', hfirst, hsecond, hinter]
  | some c =>
    obtain ⟨f, s, i⟩ := c
    cases hc' : commonSections re' with
    | none => exact absurd hc' (commonSections_of_key hatt hc hkey)
    | some c' =>
      obtain ⟨f', s', i'⟩ := c'
      have hmem := mem_commonSections hatt hc
      have hmem' := mem_commonSections hatt' hc'
      rw [key_of_sections hc, key_of_sections hc'] at hkey
      simp only [Prod.mk.injEq] at hkey
      have hf := hcss f (hmem f (by simp)).1 f' (hmem' f' (by simp)).1 hkey.1.1
      have hs := hcss s (hmem s (by simp)).1 s' (hmem' s' (by simp)).1 hkey.2.1.1
      have hi := hcss i (hmem i (by simp)).1 i' (hmem' i' (by simp)).1 hkey.2.2.1
      unfold identifier
      rw [hc, hc']
      simp only [hf, hs, hi]

end Reported

/-! ## The whole run -/

section Analyse

variable {log log₁ log₂ : List MemRef} {locks : List LockRef} {enum enum₁ enum₂ : MemTrace → List ℕ}

/-- **One run** on an empty sync log calls `grouper` for the reported results, in some order. -/
theorem analyse_ok (hops : OpsOk (log.map traceOf)) (htime : TimesIncrease (log.map traceOf))
    (hnonzero : ∀ r ∈ locks, r.ts ≠ 0) (henum : ∀ mt, (enum mt).Perm mt.keys) :
    ∃ results : List Result,
      analyse enum (memFile log) (lockFile locks) [] = grouperRun (results.map identifierEntry) ∧
        ∀ re, re ∈ results ↔ Reported (log.map traceOf) (sections (locks.map lockOf)) re := by
  obtain ⟨mt, hload, hrep⟩ := loadMemTraces_rep log
  obtain ⟨cis, hpred, -, hcis⟩ := predictor_spec hrep hops htime (henum mt)
  have hbody : ∀ ci ∈ cis, ∃ rs, pruneCi (sections (locks.map lockOf)) [] ci = .ok rs := by
    intro ci hci
    have hcand := candidate_of_predictor hrep hpred hci
    refine (pruneCi_ok_iff hcand.next.tid_eq hcand.time).mpr fun _ => ?_
    simp [Restricted]
  obtain ⟨results, hprune⟩ := appendAll_ok_iff.mpr hbody
  refine ⟨results, ?_, ?_⟩
  · have hsync : loadSyncTraces [] = .ok [] := rfl
    rw [analyse, hload, loadLockTraces_sections hnonzero, hsync]
    show (predictor (enum mt) mt >>= _) = _
    rw [hpred]
    show (pruner (sections (locks.map lockOf)) [] cis >>= _) = _
    rw [pruner, hprune, grouperRun, List.foldlM_map]
    rfl
  · intro re
    rw [mem_pruner hprune]
    exact exists_congr fun ci => and_congr_left fun _ => hcis ci

theorem timesIncrease_of_timeOrdered (h : TimeOrdered MemRef.tid (fun r => r.ts.toNat) log) :
    TimesIncrease (log.map traceOf) := by
  refine List.pairwise_map.mpr (h.imp ?_)
  intro a b hab _ htid
  exact hab (UInt32.toNat_inj.mp htid)

/-- With distinct times a time belongs to one access. -/
theorem eq_of_time (h : (log.map MemRef.ts).Nodup) :
    ∀ a ∈ log.map traceOf, ∀ b ∈ log.map traceOf, a.time = b.time → a = b := by
  intro a ha b hb hab
  obtain ⟨x, hx, rfl⟩ := List.mem_map.mp ha
  obtain ⟨y, hy, rfl⟩ := List.mem_map.mp hb
  rw [List.inj_on_of_nodup_map h hx hy (UInt64.toNat_inj.mp hab)]

/-- With distinct times a time begins one section. -/
theorem eq_of_stime (h : (locks.map LockRef.ts).Nodup) :
    ∀ a ∈ sections (locks.map lockOf), ∀ b ∈ sections (locks.map lockOf), a.stime = b.stime → a = b := by
  have htimes : ((locks.map lockOf).map LockTrace.time).Nodup := by
    have hmap : (locks.map lockOf).map LockTrace.time = (locks.map LockRef.ts).map UInt64.toNat := by
      rw [List.map_map, List.map_map]
      rfl
    rw [hmap]
    exact h.map fun x y => UInt64.toNat_inj.mp
  intro a ha b hb hab
  exact List.inj_on_of_nodup_map ((stimes_sublist _).nodup htimes) ha hb hab

/-- **The report does not depend on the order in which buffers were flushed**, nor on the order of
the dictionary: two runs on interleavings of the same threads' records write the same lines. -/
theorem analyse_perm (hreorder : KeepsOrder MemRef.tid log₁ log₂) (hops : OpsOk (log₁.map traceOf))
    (hdistinct : (log₁.map MemRef.ts).Nodup) (htime : TimeOrdered MemRef.tid (fun r => r.ts.toNat) log₁)
    (hnonzero : ∀ r ∈ locks, r.ts ≠ 0) (hlocks : (locks.map LockRef.ts).Nodup)
    (henum₁ : ∀ mt, (enum₁ mt).Perm mt.keys) (henum₂ : ∀ mt, (enum₂ mt).Perm mt.keys) :
    ∃ s₁ s₂, analyse enum₁ (memFile log₁) (lockFile locks) [] = .ok s₁ ∧
      analyse enum₂ (memFile log₂) (lockFile locks) [] = .ok s₂ ∧ (report s₁).Perm (report s₂) := by
  have htraces : KeepsOrder Trace.tid (log₁.map traceOf) (log₂.map traceOf) :=
    hreorder.map (g := UInt32.toNat) (fun _ _ => UInt32.toNat_inj.mp) fun _ => rfl
  have hops₂ : OpsOk (log₂.map traceOf) := fun x hx => hops x (htraces.mem_iff.mp hx)
  have htime₁ := timesIncrease_of_timeOrdered htime
  have htime₂ := timesIncrease_of_timeOrdered (hreorder.timeOrdered htime)
  obtain ⟨results₁, hrun₁, hmem₁⟩ := analyse_ok hops htime₁ hnonzero henum₁
  obtain ⟨results₂, hrun₂, hmem₂⟩ := analyse_ok hops₂ htime₂ hnonzero henum₂
  have hsame : ∀ re, re ∈ results₁ ↔ re ∈ results₂ := fun re => by
    rw [hmem₁, hmem₂, reported_keepsOrder htraces]
  rw [hrun₁, hrun₂]
  refine report_perm_of_mem ?_ ?_ ?_ fun e => by simp only [List.mem_map, hsame]
  · intro e he
    obtain ⟨re, hre, rfl⟩ := List.mem_map.mp he
    obtain ⟨ci, -, -, rfl⟩ := (hmem₁ re).mp hre
    exact wellFormed_identifierEntry (saveResult_attached _ ci).1
  · intro e he
    obtain ⟨re, -, rfl⟩ := List.mem_map.mp he
    rw [msg_identifierEntry]
    exact isLine_msgStr _
  · intro a ha b hb hkey
    obtain ⟨re, hre, rfl⟩ := List.mem_map.mp ha
    obtain ⟨re', hre', rfl⟩ := List.mem_map.mp hb
    have hline := identifier_eq_of_key (eq_of_time hdistinct) (eq_of_stime hlocks) ((hmem₁ re).mp hre)
      ((hmem₁ re').mp hre') hkey
    rw [msg_identifierEntry, msg_identifierEntry, hline]

end Analyse

/-- Thread 1 reads a word in one section and writes it in the next. -/
def localAccesses : List MemRef := [⟨10, 64, 2, 1, 1⟩, ⟨11, 64, 6, 1, 0⟩]

/-- Thread 2 writes it in a third one. -/
def remoteAccesses : List MemRef := [⟨12, 64, 10, 2, 0⟩]

theorem analyse_perm_section :
    ∃ s₁ s₂,
      analyse (fun mt => mt.keys) (memFile (localAccesses ++ remoteAccesses)) (lockFile sectionLocks) [] =
        .ok s₁ ∧
      analyse (fun mt => mt.keys.reverse) (memFile (remoteAccesses ++ localAccesses))
        (lockFile sectionLocks) [] = .ok s₂ ∧
      (report s₁).Perm (report s₂) :=
  analyse_perm (keepsOrder_append_comm (by decide))
    (by simp [OpsOk, localAccesses, remoteAccesses, traceOf, opRead, opWrite]) (by decide) (by decide)
    (by decide) (by decide) (fun _ => List.Perm.refl _) fun _ => List.reverse_perm _

end Offline
end AVPredictor
