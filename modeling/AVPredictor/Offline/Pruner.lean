import AVPredictor.Offline.LockTrace
import AVPredictor.Offline.Predictor

/-!
# AVPredictor.Offline.Pruner — `pruner`

A candidate is abandoned when first and second lie in one section and inter in a section of the same
mutex (`lockFound`), or when a sync record lies between inter and first (FCI) or between second and
inter (BCI); every other candidate is saved with the sections of its three accesses.

The two sync branches print the name `sync`, which is bound neither in `pruner` nor in the module,
so they raise `NameError` instead of abandoning.  `pruneCi_ok_iff` says when the body of the loop
returns.
-/

namespace AVPredictor
namespace Offline

open Base

/-- The dictionary `result`. -/
structure Result where
  first : Trace
  second : Trace
  inter : Trace
  firstCs : Option CS
  secondCs : Option CS
  interCs : Option CS
deriving DecidableEq, Repr

/-! ## The code -/

/-- The names that a statement of `pruner` can evaluate: its own variables and the module's
globals. -/
def prunerNames : List String :=
  ["ci", "first", "second", "inter", "found", "cs", "entry_v", "cs2", "syn", "result",
    "struct", "tool", "mem_trace", "ci_list", "cs_list", "sync_list", "result_list", "group_num",
    "group_set", "DISTANCE", "path_sync", "path_lock", "path_mem", "READ", "WRITE", "LOCK", "UNLOCK",
    "BARRIER", "CONDWAIT", "CONDTIMEWAIT", "SLEEP", "load_sync_traces", "load_lock_traces",
    "load_mem_traces", "find_write_trace", "find_read_trace", "find_ci_from_thread_pair", "predictor",
    "pruner", "grouper", "find_identifier"]

/-- `print text, name` -/
def printName (name : String) : Except PyErr Unit :=
  if name ∈ prunerNames then .ok () else .error (.nameError name)

/-- `cs` is a section of first's thread that contains first and second. -/
def sameSection (first second : Trace) (cs : CS) : Bool :=
  first.tid = cs.tid ∧ first.time > cs.stime ∧ first.time < cs.ftime ∧ second.time > cs.stime ∧
    second.time < cs.ftime

/-- `cs` is a section of the access's thread that contains it. -/
def inSection (x : Trace) (cs : CS) : Bool := x.tid = cs.tid ∧ x.time > cs.stime ∧ x.time < cs.ftime

/-- The flag `found` after the nested loops over `cs_list`. -/
def lockFound (csList : List CS) (ci : CI) : Bool :=
  csList.any fun cs => sameSection ci.first ci.second cs &&
    csList.any fun cs2 => inSection ci.inter cs2 && cs2.lEv == cs.lEv

/-- The test of the FCI loop. -/
def fciSync (ci : CI) (syn : Sync) : Bool :=
  syn.tid = ci.first.tid ∧ syn.time > ci.inter.time ∧ syn.time < ci.first.time

/-- The test of the BCI loop. -/
def bciSync (ci : CI) (syn : Sync) : Bool :=
  syn.tid = ci.inter.tid ∧ syn.time > ci.second.time ∧ syn.time < ci.inter.time

/-- The body of the last loop over `cs_list`: a later section replaces an earlier one. -/
def attachCs (re : Result) (cs : CS) : Result :=
  { re with
    firstCs := if inSection re.first cs then some cs else re.firstCs
    secondCs := if inSection re.second cs then some cs else re.secondCs
    interCs := if inSection re.inter cs then some cs else re.interCs }

/-- The saved result of a candidate. -/
def saveResult (csList : List CS) (ci : CI) : Result :=
  csList.foldl attachCs ⟨ci.first, ci.second, ci.inter, none, none, none⟩

/-- The body of the loop over `ci_list`: what it appends to `result_list`. -/
def pruneCi (csList : List CS) (syncList : List Sync) (ci : CI) : Except PyErr (List Result) :=
  if ci.first.tid ≠ ci.second.tid then .error .assertionError
  else if lockFound csList ci then .ok []
  else if ci.inter.time < ci.first.time then
    match syncList.find? (fciSync ci) with
    | some _ => do
      printName "sync"
      .ok []
    | none => .ok [saveResult csList ci]
  else if ci.inter.time > ci.second.time then
    match syncList.find? (bciSync ci) with
    | some _ => do
      printName "sync"
      .ok []
    | none => .ok [saveResult csList ci]
  else .ok [saveResult csList ci]

/-- `pruner`: the final `result_list`. -/
def pruner (csList : List CS) (syncList : List Sync) (ciList : List CI) : Except PyErr (List Result) :=
  appendAll (pruneCi csList syncList) ciList

/-! ## When it returns -/

/-- A sync record restricts the candidate: of first's thread between inter and first, or of inter's
thread between second and inter. -/
def Restricted (syncList : List Sync) (ci : CI) : Prop :=
  (ci.inter.time < ci.first.time ∧ ∃ syn ∈ syncList, fciSync ci syn) ∨
    (ci.second.time < ci.inter.time ∧ ∃ syn ∈ syncList, bciSync ci syn)

theorem printName_sync : printName "sync" = .error (.nameError "sync") := by
  simp [printName, prunerNames]

/-- The two print statements do not return. -/
theorem print_sync_ne_ok (rs : List Result) :
    (printName "sync" >>= fun _ => (.ok [] : Except PyErr (List Result))) ≠ .ok rs := by
  rw [printName_sync]
  exact fun h => nomatch h

/-- What the body appends when it returns: nothing for an abandoned candidate, and else one
result. -/
theorem pruneCi_ok {csList : List CS} {syncList : List Sync} {ci : CI} {rs : List Result}
    (h : pruneCi csList syncList ci = .ok rs) :
    rs = if lockFound csList ci then [] else [saveResult csList ci] := by
  unfold pruneCi at h
  split_ifs at h with htid hl hf hb
  · rw [if_pos hl]
    exact (Except.ok.inj h).symm
  · rw [if_neg hl]
    cases hs : syncList.find? (fciSync ci) with
    | none =>
      rw [hs] at h
      exact (Except.ok.inj h).symm
    | some syn =>
      rw [hs] at h
      exact absurd h (print_sync_ne_ok rs)
  · rw [if_neg hl]
    cases hs : syncList.find? (bciSync ci) with
    | none =>
      rw [hs] at h
      exact (Except.ok.inj h).symm
    | some syn =>
      rw [hs] at h
      exact absurd h (print_sync_ne_ok rs)
  · rw [if_neg hl]
    exact (Except.ok.inj h).symm

/-- The body returns unless it reaches one of the two print statements. -/
theorem pruneCi_ok_iff {csList : List CS} {syncList : List Sync} {ci : CI}
    (htid : ci.second.tid = ci.first.tid) (htime : ci.first.time < ci.second.time) :
    (∃ rs, pruneCi csList syncList ci = .ok rs) ↔
      (lockFound csList ci = false → ¬ Restricted syncList ci) := by
  unfold pruneCi Restricted
  rw [if_neg (not_not_intro htid.symm)]
  cases hl : lockFound csList ci with
  | true => simp
  | false =>
    simp only [Bool.false_eq_true, if_false, forall_const]
    by_cases hf : ci.inter.time < ci.first.time
    · have hb : ¬ ci.second.time < ci.inter.time := by omega
      rw [if_pos hf]
      cases hs : syncList.find? (fciSync ci) with
      | none =>
        have hno : ¬ ∃ syn ∈ syncList, fciSync ci syn := by simpa using hs
        simp [hb, hno]
      | some syn =>
        have hyes : ∃ syn ∈ syncList, fciSync ci syn :=
          ⟨syn, List.mem_of_find?_eq_some hs, List.find?_some hs⟩
        simp only [print_sync_ne_ok, exists_false, hf, hyes, true_and, true_or, not_true]
    · rw [if_neg hf]
      by_cases hb : ci.second.time < ci.inter.time
      · rw [if_pos hb]
        cases hs : syncList.find? (bciSync ci) with
        | none =>
          have hno : ¬ ∃ syn ∈ syncList, bciSync ci syn := by simpa using hs
          simp [hf, hno]
        | some syn =>
          have hyes : ∃ syn ∈ syncList, bciSync ci syn :=
            ⟨syn, List.mem_of_find?_eq_some hs, List.find?_some hs⟩
          simp only [print_sync_ne_ok, exists_false, hb, hyes, true_and, or_true, not_true]
      · rw [if_neg hb]
        simp [hf, hb]

/-- **When pruning aborts**: on the candidates of any memory log, `pruner` returns exactly when no
candidate that passes the lock check is restricted by a sync record. -/
theorem pruner_ok_iff {log : List MemRef} {mt : MemTrace} {order : List ℕ} {cis : List CI}
    (hload : loadMemTraces (memFile log) = .ok mt) (hpred : predictor order mt = .ok cis)
    (csList : List CS) (syncList : List Sync) :
    (∃ rs, pruner csList syncList cis = .ok rs) ↔
      ∀ ci ∈ cis, lockFound csList ci = false → ¬ Restricted syncList ci := by
  rw [pruner, appendAll_ok_iff]
  refine forall₂_congr fun ci hci => ?_
  have hc := candidate_of_predictor (memRep_of_load hload) hpred hci
  exact pruneCi_ok_iff hc.next.tid_eq hc.time

/-- Thread 2 writes a word, thread 1 passes a barrier and then reads and writes it. -/
def barrierLog : List MemRef := [⟨10, 64, 1, 2, 0⟩, ⟨11, 64, 5, 1, 1⟩, ⟨12, 64, 6, 1, 0⟩]

def barrierCi : CI := ⟨⟨1, 5, 11, 64, 1⟩, ⟨1, 6, 12, 64, 0⟩, ⟨2, 1, 10, 64, 0⟩⟩

def barrierTrace : MemTrace := (barrierLog.map traceOf).foldl storeTrace ∅

theorem loadMemTraces_barrierLog : loadMemTraces (memFile barrierLog) = .ok barrierTrace :=
  loadMemTraces_memFile barrierLog

theorem predictor_barrierLog : predictor [64] barrierTrace = .ok [barrierCi] := by decide

theorem pruner_ok_iff_barrierLog :
    (∃ rs, pruner [] [⟨1, 3, 1⟩] [barrierCi] = .ok rs) ↔
      ∀ ci ∈ [barrierCi], lockFound [] ci = false → ¬ Restricted [⟨1, 3, 1⟩] ci :=
  pruner_ok_iff loadMemTraces_barrierLog predictor_barrierLog [] [⟨1, 3, 1⟩]

/-- The barrier return of thread 1 at time 3 makes the pruner fail. -/
theorem pruner_barrierLog :
    loadMemTraces (memFile barrierLog) = .ok barrierTrace ∧ [64].Perm barrierTrace.keys ∧
      predictor [64] barrierTrace = .ok [barrierCi] ∧
      pruner [] [⟨1, 3, 1⟩] [barrierCi] = .error (.nameError "sync") := by
  refine ⟨loadMemTraces_barrierLog, by decide, predictor_barrierLog, ?_⟩
  show (do let bs ← (printName "sync" >>= fun _ => .ok []); let rest ← .ok []; .ok (bs ++ rest)) =
    (.error (.nameError "sync") : Except PyErr (List Result))
  rw [printName_sync]
  rfl

end Offline
end AVPredictor
