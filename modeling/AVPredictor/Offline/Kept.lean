import AVPredictor.Base.Reorder
import AVPredictor.Offline.Pruner

/-!
# AVPredictor.Offline.Kept — what `pruner` keeps

`Kept` says of one candidate, without the flags and loops of `pruner`, that no common mutex and no
sync record rules it out.  The flag `found` is set anew for each test of each candidate, so what is
kept of one candidate does not depend on the others (`pruneCi` takes one candidate only), and the
loop that attaches sections ends with the last one in `cs_list` around the access, if there is one
(`saveResult_eq`, `lastSection_attached`).
-/

namespace AVPredictor
namespace Offline

open Base

/-- `cs` is a section of the thread of `x` that strictly contains it. -/
def Encloses (cs : CS) (x : Trace) : Prop := cs.tid = x.tid ∧ cs.stime < x.time ∧ x.time < cs.ftime

instance (cs : CS) (x : Trace) : Decidable (Encloses cs x) := inferInstanceAs (Decidable (_ ∧ _ ∧ _))

/-- Nothing rules the candidate out: no section around first and second while inter is in one of the
same mutex, no sync record of first's thread between inter and first, none of inter's thread between
second and inter. -/
structure Kept (csList : List CS) (syncList : List Sync) (ci : CI) : Prop where
  locks : ¬ ∃ cs ∈ csList, (Encloses cs ci.first ∧ cs.stime < ci.second.time ∧ ci.second.time < cs.ftime) ∧
    ∃ cs2 ∈ csList, Encloses cs2 ci.inter ∧ cs2.lEv = cs.lEv
  before : ci.inter.time < ci.first.time →
    ¬ ∃ syn ∈ syncList, syn.tid = ci.first.tid ∧ ci.inter.time < syn.time ∧ syn.time < ci.first.time
  after : ci.second.time < ci.inter.time →
    ¬ ∃ syn ∈ syncList, syn.tid = ci.inter.tid ∧ ci.second.time < syn.time ∧ syn.time < ci.inter.time

section Candidates

variable {csList : List CS} {syncList : List Sync} {ci : CI} {cs : CS}

theorem inSection_iff_encloses {x : Trace} : inSection x cs = true ↔ Encloses cs x := by
  rw [inSection, decide_eq_true_eq, Encloses, eq_comm]

theorem sameSection_iff {first second : Trace} : sameSection first second cs = true ↔
    Encloses cs first ∧ cs.stime < second.time ∧ second.time < cs.ftime := by
  rw [sameSection, decide_eq_true_eq, Encloses, eq_comm, and_assoc, and_assoc]

theorem lockFound_iff : lockFound csList ci = true ↔
    ∃ cs ∈ csList, (Encloses cs ci.first ∧ cs.stime < ci.second.time ∧ ci.second.time < cs.ftime) ∧
      ∃ cs2 ∈ csList, Encloses cs2 ci.inter ∧ cs2.lEv = cs.lEv := by
  simp only [lockFound, List.any_eq_true, Bool.and_eq_true, sameSection_iff, inSection_iff_encloses,
    beq_iff_eq]

theorem kept_iff : Kept csList syncList ci ↔ lockFound csList ci = false ∧ ¬ Restricted syncList ci := by
  have hlocks : lockFound csList ci = false ↔ ¬ lockFound csList ci = true := by simp
  have hfci : ∀ syn, fciSync ci syn = true ↔
      syn.tid = ci.first.tid ∧ ci.inter.time < syn.time ∧ syn.time < ci.first.time := by simp [fciSync]
  have hbci : ∀ syn, bciSync ci syn = true ↔
      syn.tid = ci.inter.tid ∧ ci.second.time < syn.time ∧ syn.time < ci.inter.time := by simp [bciSync]
  rw [hlocks, lockFound_iff, Restricted, not_or, not_and, not_and]
  simp only [hfci, hbci]
  exact ⟨fun h => ⟨h.locks, h.before, h.after⟩, fun h => ⟨h.1, h.2.1, h.2.2⟩⟩

instance : Decidable (Restricted syncList ci) := inferInstanceAs (Decidable (_ ∨ _))

instance : Decidable (Kept csList syncList ci) := decidable_of_iff _ kept_iff.symm

end Candidates

/-! ## The attached sections -/

/-- `o` is the last section of `csList` around `x`, if there is one. -/
def LastSection (csList : List CS) (x : Trace) (o : Option CS) : Prop :=
  LastMatch (fun cs => Encloses cs x) csList o

/-- The last loop over `cs_list`, for one of the three accesses. -/
def attached (csList : List CS) (x : Trace) : Option CS :=
  csList.foldl (fun o cs => if inSection x cs then some cs else o) none

/-- The three accesses of a result with their sections. -/
def Result.accesses (re : Result) : List (Trace × Option CS) :=
  [(re.first, re.firstCs), (re.second, re.secondCs), (re.inter, re.interCs)]

/-- The candidate of a result. -/
def Result.candidate (re : Result) : CI := ⟨re.first, re.second, re.inter⟩

theorem attached_concat (csList : List CS) (cs : CS) (x : Trace) :
    attached (csList ++ [cs]) x = if inSection x cs then some cs else attached csList x := by
  simp [attached, List.foldl_append]

theorem lastSection_attached (csList : List CS) (x : Trace) : LastSection csList x (attached csList x) := by
  have hiff : (fun cs => Encloses cs x) = fun cs => inSection x cs = true :=
    funext fun cs => propext inSection_iff_encloses.symm
  rw [LastSection, hiff]
  exact lastMatch_foldl (inSection x) csList

/-- The three accesses do not influence each other's sections. -/
theorem saveResult_eq (csList : List CS) (ci : CI) :
    saveResult csList ci =
      { first := ci.first
        second := ci.second
        inter := ci.inter
        firstCs := attached csList ci.first
        secondCs := attached csList ci.second
        interCs := attached csList ci.inter } := by
  induction csList using List.reverseRecOn with
  | nil => rfl
  | append_singleton csList cs ih =>
    have hstep : saveResult (csList ++ [cs]) ci = attachCs (saveResult csList ci) cs := by
      simp [saveResult, List.foldl_append]
    rw [hstep, ih, attached_concat, attached_concat, attached_concat]
    rfl

theorem lastSection_saveResult (csList : List CS) (ci : CI) :
    ∀ p ∈ (saveResult csList ci).accesses, LastSection csList p.1 p.2 := by
  rw [saveResult_eq]
  simp only [Result.accesses, List.forall_mem_cons]
  exact ⟨lastSection_attached _ _, lastSection_attached _ _, lastSection_attached _ _, by simp⟩

/-! ## The result list -/

/-- The results are those of the candidates that pass the lock check, in order. -/
theorem pruner_eq_map {csList : List CS} {syncList : List Sync} {cis : List CI} {rs : List Result}
    (h : pruner csList syncList cis = .ok rs) :
    rs = (cis.filter fun ci => !lockFound csList ci).map (saveResult csList) := by
  have hbody : ∀ ci ∈ cis, pruneCi csList syncList ci =
      .ok (if lockFound csList ci then [] else [saveResult csList ci]) := by
    intro ci hci
    obtain ⟨rs', hok⟩ := appendAll_ok_iff.mp ⟨rs, h⟩ ci hci
    rw [hok, pruneCi_ok hok]
  have hrs : rs = cis.flatMap fun ci => if lockFound csList ci then [] else [saveResult csList ci] :=
    Except.ok.inj (h.symm.trans (appendAll_eq_ok hbody))
  rw [hrs]
  clear hrs hbody h
  induction cis with
  | nil => rfl
  | cons ci cis ih =>
    rw [List.flatMap_cons, ih]
    cases hl : lockFound csList ci with
    | true => simp [hl]
    | false => simp [hl]

/-- Sections of one thread that are opened later in the log begin later. -/
theorem stime_lt_of_later {log : List LockTrace} (htimes : TimeOrdered LockTrace.tid LockTrace.time log) :
    (log.foldl storeLock []).Pairwise fun a b => a.tid = b.tid → a.stime < b.stime := by
  have hlog : ((log.filter isLock).map LockTrace.opening).Pairwise fun a b => a.1 = b.1 → a.2.1 < b.2.1 :=
    List.pairwise_map.mpr (htimes.sublist List.filter_sublist)
  have hopen := openings_foldl log []
  rw [List.map_nil, List.nil_append] at hopen
  rw [← hopen] at hlog
  exact List.pairwise_map.mp hlog

/-- When times increase, the last section around an access is the innermost one. -/
theorem LastSection.innermost {log : List LockTrace} (htimes : TimeOrdered LockTrace.tid LockTrace.time log)
    {x : Trace} {cs : CS} (h : LastSection (log.foldl storeLock []) x (some cs)) {c : CS}
    (hc : c ∈ log.foldl storeLock []) (hx : Encloses c x) : c.stime ≤ cs.stime := by
  have hsorted := stime_lt_of_later htimes
  obtain ⟨l₁, l₂, hl, hcs, hno⟩ := h
  rw [hl] at hc hsorted
  rcases List.mem_append.mp hc with hc | hc
  · have hlt := (List.pairwise_append.mp hsorted).2.2 c hc cs List.mem_cons_self (hx.1.trans hcs.1.symm)
    omega
  · rcases List.mem_cons.mp hc with rfl | hc
    · exact le_rfl
    · exact absurd hx (hno c hc)

/-- **Pruner keeps exactly what it should**: when it returns, the results are, in order, the
candidates that nothing rules out, and each access carries the section whose lock record comes last
among those around it; the sections are in the order of their lock records, so this is the innermost
one when times increase. -/
theorem pruner_exact {memLog : List MemRef} {lockLog : List LockRef} {mt : MemTrace} {css : List CS}
    {syncList : List Sync} {order : List ℕ} {cis : List CI} {rs : List Result}
    (hmem : loadMemTraces (memFile memLog) = .ok mt) (hlocks : loadLockTraces (lockFile lockLog) = .ok css)
    (hpred : predictor order mt = .ok cis) (hprune : pruner css syncList cis = .ok rs) :
    rs.map Result.candidate = cis.filter (fun ci => Kept css syncList ci) ∧
      (∀ re ∈ rs, ∀ p ∈ re.accesses, LastSection css p.1 p.2) ∧
      css.map CS.opening = ((lockLog.map lockOf).filter isLock).map LockTrace.opening ∧
      (TimeOrdered LockTrace.tid LockTrace.time (lockLog.map lockOf) →
        ∀ re ∈ rs, ∀ p ∈ re.accesses, ∀ cs, p.2 = some cs → ∀ c ∈ css, Encloses c p.1 → c.stime ≤ cs.stime) := by
  rw [loadLockTraces_lockFile, Except.ok.injEq] at hlocks
  have hrs := pruner_eq_map hprune
  have hlast : ∀ re ∈ rs, ∀ p ∈ re.accesses, LastSection css p.1 p.2 := by
    rw [hrs]
    exact List.forall_mem_map.mpr fun ci _ => lastSection_saveResult css ci
  refine ⟨?_, hlast, ?_, ?_⟩
  · have hcand : Result.candidate ∘ saveResult css = id := by
      funext ci
      rw [Function.comp_apply, saveResult_eq]
      rfl
    rw [hrs, List.map_map, hcand, List.map_id]
    refine List.filter_congr fun ci hci => ?_
    -- no candidate that passes the lock check is restricted, or `pruner` would not have returned
    have hc := candidate_of_predictor (memRep_of_load hmem) hpred hci
    have hnot := (pruneCi_ok_iff hc.next.tid_eq hc.time).mp (appendAll_ok_iff.mp ⟨rs, hprune⟩ ci hci)
    rw [Bool.eq_iff_iff, decide_eq_true_eq, kept_iff, Bool.not_eq_true']
    exact ⟨fun hl => ⟨hl, hnot hl⟩, fun hk => hk.1⟩
  · have hopen := openings_foldl (lockLog.map lockOf) []
    rwa [List.map_nil, List.nil_append, hlocks] at hopen
  · intro htimes re hre p hp cs hcs c hc hx
    have hl := hlast re hre p hp
    rw [hcs, ← hlocks] at hl
    exact hl.innermost htimes (hlocks ▸ hc) hx

/-- Thread 1 reads a word under mutexes 7 and 8 and writes it under 7; thread 2 writes it under 7. -/
def nestedMem : List MemRef := [⟨10, 64, 3, 1, 1⟩, ⟨11, 64, 7, 1, 0⟩, ⟨12, 64, 10, 2, 0⟩]

def nestedLocks : List LockRef :=
  [⟨1, 1, 100, 7, 1⟩, ⟨1, 2, 101, 8, 1⟩, ⟨1, 4, 102, 8, 0⟩, ⟨1, 5, 103, 7, 0⟩, ⟨1, 6, 104, 7, 1⟩, ⟨1, 8, 105, 7, 0⟩,
    ⟨2, 9, 106, 7, 1⟩, ⟨2, 11, 107, 7, 0⟩]

def nestedTrace : MemTrace := (nestedMem.map traceOf).foldl storeTrace ∅

def nestedCs : List CS := (nestedLocks.map lockOf).foldl storeLock []

def nestedCi : CI := ⟨⟨1, 3, 10, 64, 1⟩, ⟨1, 7, 11, 64, 0⟩, ⟨2, 10, 12, 64, 0⟩⟩

def nestedResult : Result :=
  { first := nestedCi.first
    second := nestedCi.second
    inter := nestedCi.inter
    firstCs := some ⟨1, 2, 4, 101, 8, 102, 8⟩
    secondCs := some ⟨1, 6, 8, 104, 7, 105, 7⟩
    interCs := some ⟨2, 9, 11, 106, 7, 107, 7⟩ }

theorem loadMemTraces_nestedMem : loadMemTraces (memFile nestedMem) = .ok nestedTrace :=
  loadMemTraces_memFile nestedMem

theorem loadLockTraces_nestedLocks : loadLockTraces (lockFile nestedLocks) = .ok nestedCs :=
  loadLockTraces_lockFile nestedLocks

theorem predictor_nestedMem : predictor [64] nestedTrace = .ok [nestedCi] := by decide

theorem pruner_nestedMem : pruner nestedCs [] [nestedCi] = .ok [nestedResult] := by decide

theorem pruner_exact_nested :
    [nestedResult].map Result.candidate = [nestedCi].filter (fun ci => Kept nestedCs [] ci) ∧
      (∀ re ∈ [nestedResult], ∀ p ∈ re.accesses, LastSection nestedCs p.1 p.2) ∧
      nestedCs.map CS.opening = ((nestedLocks.map lockOf).filter isLock).map LockTrace.opening ∧
      (TimeOrdered LockTrace.tid LockTrace.time (nestedLocks.map lockOf) →
        ∀ re ∈ [nestedResult], ∀ p ∈ re.accesses, ∀ cs, p.2 = some cs → ∀ c ∈ nestedCs, Encloses c p.1 →
          c.stime ≤ cs.stime) :=
  pruner_exact loadMemTraces_nestedMem loadLockTraces_nestedLocks predictor_nestedMem pruner_nestedMem

end Offline
end AVPredictor
