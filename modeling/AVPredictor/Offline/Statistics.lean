import Mathlib.Algebra.BigOperators.Group.List.Lemmas
import Mathlib.Data.Set.Card
import AVPredictor.Offline.Outcome

/-!
# AVPredictor.Offline.Statistics — `show_statistics`

The last call of the script counts through the dictionaries and lists that the run has filled.  Its
numbers are those of the logs (`statistics_exact`): no record is counted twice or left out, whichever
address and thread it went to (`totalAccess_eq`); a candidate is counted once; and the lines of the
group files are at most as many as the results, since `grouper` keeps one of each triple of intervals.
-/

namespace AVPredictor
namespace Offline

open Base

/-! ## The code -/

/-- The numbers printed. -/
structure Statistics where
  /-- total accesses -/
  totalAccess : ℕ
  /-- visited addresses num -/
  visited : ℕ
  /-- total CI num -/
  totalCI : ℕ
  /-- result CI num after prunning -/
  resultCI : ℕ
  /-- group num -/
  groupNum : ℕ
deriving DecidableEq, Repr

/-- The inner loop: the lengths of the trace lists of one address. -/
def addAccesses (memTrace : MemTrace) (totalAccess addr : ℕ) : Except PyErr ℕ :=
  match memTrace.lookup addr with
  | none => .error .keyError
  | some ad =>
    ad.tidList.foldlM (fun totalAccess tid =>
      match ad.tids.lookup tid with
      | none => .error .keyError
      | some td => .ok (totalAccess + td.traceList.length)) totalAccess

/-- `show_statistics`, with `order` the order in which `for addr in mem_trace` meets the keys. -/
def showStatistics (order : List ℕ) (memTrace : MemTrace) (ciList : List CI) (resultList : List Result)
    (groupNum : ℕ) : Except PyErr Statistics := do
  let totalAccess ← order.foldlM (addAccesses memTrace) 0
  .ok ⟨totalAccess, memTrace.keys.length, ciList.length, resultList.length, groupNum⟩

/-- All calls of the script: what it writes and what it prints. -/
def script (enum : MemTrace → List ℕ) (memLog lockLog syncLog : List UInt8) :
    Except PyErr (GroupState × Statistics) := do
  let memTrace ← loadMemTraces memLog
  let csList ← loadLockTraces lockLog
  let syncList ← loadSyncTraces syncLog
  let ciList ← predictor (enum memTrace) memTrace
  let resultList ← pruner csList syncList ciList
  let s ← findIdentifier .init resultList
  let statistics ← showStatistics (enum memTrace) memTrace ciList resultList s.groupNum
  .ok (s, statistics)

/-! ## Counting by classes -/

section Count

variable {α : Type} {log : List α} {f : α → ℕ} {keys : List ℕ}

/-- The elements of each class together are all of them. -/
theorem sum_length_filter (hnodup : keys.Nodup) (hmem : ∀ k, k ∈ keys ↔ k ∈ log.map f) :
    (keys.map fun k => (log.filter fun x => f x = k).length).sum = log.length := by
  have hcount : ∀ k, (log.filter fun x => f x = k).length = (log.map f).count k := by
    intro k
    rw [List.count, List.countP_map, List.countP_eq_length_filter]
    rfl
  have hperm : keys.Perm (log.map f).dedup := by
    refine (List.perm_ext_iff_of_nodup hnodup (List.nodup_dedup _)).mpr fun k => ?_
    rw [hmem, List.mem_dedup]
  simp only [hcount]
  rw [(hperm.map _).sum_eq, List.sum_map_count_dedup_eq_length, List.length_map]

theorem ncard_eq_length {l : List α} (hnodup : l.Nodup) {p : α → Prop} (hmem : ∀ a, a ∈ l ↔ p a) :
    {a | p a}.ncard = l.length := by
  classical
  have hset : {a | p a} = (l.toFinset : Set α) := by
    ext a
    simp [hmem]
  rw [hset, Set.ncard_coe_finset, List.toFinset_card_of_nodup hnodup]

theorem length_le_length_flatten {gs : List (List α)} (h : ∀ g ∈ gs, g ≠ []) : gs.length ≤ gs.flatten.length := by
  induction gs with
  | nil => exact le_rfl
  | cons g gs ih =>
    obtain ⟨hg, hgs⟩ := List.forall_mem_cons.mp h
    have hpos := List.length_pos_iff.mpr hg
    have hrest := ih hgs
    rw [List.length_cons, List.flatten_cons, List.length_append]
    omega

end Count

/-! ## The loops -/

section Loops

variable {log : List Trace} {mt : MemTrace} {order : List ℕ}

theorem addAccesses_eq (h : MemRep log mt) {a : ℕ} (ha : a ∈ mt.keys) (n : ℕ) :
    addAccesses mt n a = .ok (n + (ofAddr log a).length) := by
  obtain ⟨ad, had⟩ := Option.isSome_iff_exists.mp (AList.lookup_isSome.mpr (AList.mem_keys.mpr ha))
  have hrep := h a
  rw [had] at hrep
  obtain ⟨-, hrep⟩ := hrep
  have hmem : ∀ t, t ∈ ad.tidList ↔ t ∈ (ofAddr log a).map Trace.tid := by
    intro t
    rw [hrep.tidList, List.mem_eraseDups]
  have hnodup : ad.tidList.Nodup := by
    rw [hrep.tidList]
    exact nodup_eraseDups _
  have hsum : (ad.tidList.map fun t => (ofTid (ofAddr log a) t).length).sum = (ofAddr log a).length :=
    sum_length_filter hnodup hmem
  rw [addAccesses, had, ← hsum]
  refine foldlM_add_eq_ok (fun t ht total => ?_) n
  cases htd : ad.tids.lookup t with
  | none => exact absurd ((hmem t).mp ht) (hrep.lookup_none.mp htd)
  | some td =>
    rw [← (hrep.ne_nil htd).2]

theorem mem_keys_iff (h : MemRep log mt) (a : ℕ) : a ∈ mt.keys ↔ a ∈ log.map Trace.addr := by
  have hrep := h a
  rw [← AList.mem_keys, ← AList.lookup_isSome]
  cases had : mt.lookup a with
  | none =>
    rw [had] at hrep
    refine iff_of_false (by simp) fun ha => ?_
    obtain ⟨x, hx, rfl⟩ := List.mem_map.mp ha
    exact List.not_mem_nil (hrep ▸ mem_ofAddr.mpr ⟨hx, rfl⟩)
  | some ad =>
    rw [had] at hrep
    obtain ⟨x, hx⟩ := List.exists_mem_of_ne_nil _ hrep.1
    obtain ⟨hlog, haddr⟩ := mem_ofAddr.mp hx
    exact iff_of_true rfl (List.mem_map.mpr ⟨x, hlog, haddr⟩)

/-- The two loops count every record once. -/
theorem totalAccess_eq (h : MemRep log mt) (horder : order.Perm mt.keys) :
    order.foldlM (addAccesses mt) 0 = .ok log.length := by
  have hsum : (order.map fun a => (ofAddr log a).length).sum = log.length :=
    sum_length_filter (horder.nodup_iff.mpr (AList.keys_nodup mt)) fun a => horder.mem_iff.trans (mem_keys_iff h a)
  have hloop := foldlM_add_eq_ok (fun a ha => addAccesses_eq h (horder.mem_iff.mp ha)) 0
  rw [hloop, Nat.zero_add, hsum]

theorem length_keys (h : MemRep log mt) : mt.keys.length = {a | ∃ x ∈ log, x.addr = a}.ncard := by
  refine (ncard_eq_length (AList.keys_nodup mt) fun a => ?_).symm
  rw [mem_keys_iff h, List.mem_map]

end Loops

/-! ## The groups -/

section Groups

variable {results : List Result} {s : GroupState}

/-- A group has a line, and a line a result. -/
theorem groupNum_le_report (h : GroupInv (results.map identifierEntry) s) (hf : FilesInv s) :
    s.groupNum ≤ (report s).length ∧ (report s).length ≤ results.length ∧ (s.groupNum = 0 ↔ results = []) := by
  have hline : ∀ e ∈ results.map identifierEntry, IsLine e.msg := by
    intro e he
    obtain ⟨re, -, rfl⟩ := List.mem_map.mp he
    rw [msg_identifierEntry]
    exact isLine_msgStr _
  have hreport : (report s).length = s.groupSet.flatten.length := by
    rw [(report_perm h hf hline).length_eq, List.length_map]
  refine ⟨?_, ?_, ?_⟩
  · rw [h.num, hreport]
    exact length_le_length_flatten h.nonempty
  · have hsub : (s.groupSet.flatten.map Entry.key).Subperm ((results.map identifierEntry).map Entry.key) :=
      List.subperm_of_subset h.nodup fun k hk => by
        obtain ⟨e, he, rfl⟩ := List.mem_map.mp hk
        exact List.mem_map_of_mem (h.submitted e he)
    have hle := hsub.length_le
    rwa [List.length_map, List.length_map, List.length_map, ← hreport] at hle
  · constructor
    · intro hzero
      have hnil : s.groupSet = [] := List.length_eq_zero_iff.mp (h.num.symm.trans hzero)
      by_contra hne
      obtain ⟨re, hre⟩ := List.exists_mem_of_ne_nil _ hne
      have hheld := h.held _ (List.mem_map_of_mem hre)
      rw [hnil] at hheld
      exact absurd hheld (by simp)
    · rintro rfl
      by_contra hne
      rw [h.num, List.length_eq_zero_iff] at hne
      obtain ⟨g, hg⟩ := List.exists_mem_of_ne_nil _ hne
      obtain ⟨e, he⟩ := List.exists_mem_of_ne_nil _ (h.nonempty g hg)
      exact absurd (h.submitted e (List.mem_flatten_of_mem hg he)) (by simp)

end Groups

/-! ## The numbers -/

/-- What the numbers printed after a run say of its logs. -/
structure StatisticsOk (log : List Trace) (css : List CS) (s : GroupState) (st : Statistics) : Prop where
  totalAccess : st.totalAccess = log.length
  visited : st.visited = {a | ∃ x ∈ log, x.addr = a}.ncard
  totalCI : st.totalCI = {ci | Violation log ci}.ncard
  resultCI : st.resultCI = {ci | Violation log ci ∧ lockFound css ci = false}.ncard
  groupNum : st.groupNum = s.groupNum
  lines : st.groupNum ≤ (report s).length ∧ (report s).length ≤ st.resultCI
  noGroup : st.groupNum = 0 ↔ st.resultCI = 0

section Statistics

variable {log : List MemRef} {locks : List LockRef} {enum : MemTrace → List ℕ} {syncLog : List UInt8}
  {s : GroupState}

/-- **The statistics are right**: after a run that returned they are printed without an exception, and
count the records, the addresses, the violations and those that no pair of sections rules out. -/
theorem statistics_exact (hlogs : LogsOk log locks) (henum : DictOrder enum)
    (hok : analyse enum (memFile log) (lockFile locks) syncLog = .ok s) :
    ∃ st, script enum (memFile log) (lockFile locks) syncLog = .ok (s, st) ∧
      StatisticsOk (log.map traceOf) (sections (locks.map lockOf)) s st := by
  obtain ⟨mt, hmt, hrest⟩ := bind_eq_ok.mp hok
  obtain ⟨css, hcss, hrest⟩ := bind_eq_ok.mp hrest
  obtain ⟨syncs, hsyncs, hrest⟩ := bind_eq_ok.mp hrest
  obtain ⟨cis, hcis, hrest⟩ := bind_eq_ok.mp hrest
  obtain ⟨results, hresults, hs⟩ := bind_eq_ok.mp hrest
  have hrep := memRep_of_load hmt
  have htimes := timesIncrease_of_timeOrdered hlogs.times
  obtain ⟨cis', hcis', hnodup, hmem⟩ := predictor_spec hrep hlogs.ops htimes (henum mt)
  obtain rfl : cis' = cis := Except.ok.inj (hcis'.symm.trans hcis)
  obtain rfl : sections (locks.map lockOf) = css :=
    Except.ok.inj ((loadLockTraces_sections hlogs.nonzero).symm.trans hcss)
  let st : Statistics := ⟨(log.map traceOf).length, mt.keys.length, cis'.length, results.length, s.groupNum⟩
  have hstat : showStatistics (enum mt) mt cis' results s.groupNum = .ok st := by
    rw [showStatistics, totalAccess_eq hrep (henum mt)]
    rfl
  have hscript : script enum (memFile log) (lockFile locks) syncLog = .ok (s, st) := by
    rw [script, hmt]
    refine bind_eq_ok.mpr ⟨mt, rfl, bind_eq_ok.mpr ⟨_, hcss,
      bind_eq_ok.mpr ⟨syncs, hsyncs, bind_eq_ok.mpr ⟨cis', hcis, ?_⟩⟩⟩⟩
    exact bind_eq_ok.mpr ⟨results, hresults, bind_eq_ok.mpr ⟨s, hs, bind_eq_ok.mpr ⟨st, hstat, rfl⟩⟩⟩
  have hkept : results.length =
      {ci | Violation (log.map traceOf) ci ∧ lockFound (sections (locks.map lockOf)) ci = false}.ncard := by
    rw [pruner_eq_map hresults, List.length_map]
    refine (ncard_eq_length (hnodup.filter _) fun ci => ?_).symm
    rw [List.mem_filter, hmem, Bool.not_eq_true']
  have hwf : ∀ e ∈ results.map identifierEntry, e.WellFormed := by
    intro e he
    obtain ⟨re, hre, rfl⟩ := List.mem_map.mp he
    obtain ⟨ci, hci, hfound, rfl⟩ := (mem_pruner hresults).mp hre
    exact wellFormed_of_reported ⟨ci, (hmem ci).mp hci, hfound, rfl⟩
  obtain ⟨s', hs', h, hf⟩ := groupInv_run hwf
  have hrun : grouperRun (results.map identifierEntry) = .ok s := by
    rw [grouperRun, List.foldlM_map]
    exact hs
  obtain rfl : s' = s := Except.ok.inj (hs'.symm.trans hrun)
  obtain ⟨hgroups, hlines, hnone⟩ := groupNum_le_report h hf
  refine ⟨st, hscript, ⟨rfl, length_keys hrep, (ncard_eq_length hnodup hmem).symm, hkept, rfl, ⟨hgroups, hlines⟩, ?_⟩⟩
  rw [hnone, List.length_eq_zero_iff]

theorem statistics_exact_section :
    ∃ s, analyse (fun mt => mt.keys) (memFile sectionMem) (lockFile sectionLocks) [] = .ok s ∧
      ∃ st, script (fun mt => mt.keys) (memFile sectionMem) (lockFile sectionLocks) [] = .ok (s, st) ∧
        StatisticsOk (sectionMem.map traceOf) (sections (sectionLocks.map lockOf)) s st := by
  obtain ⟨s, hok⟩ := analyse_ok_nil logsOk_section dictOrder_keys
  exact ⟨s, hok, statistics_exact logsOk_section dictOrder_keys hok⟩

end Statistics

end Offline
end AVPredictor
