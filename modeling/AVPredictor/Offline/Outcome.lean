import AVPredictor.Offline.Analysis

/-!
# AVPredictor.Offline.Outcome — how a run of `offline_modules.py` ends, and what it leaves

A run on the logs of the monitor ends in one of two ways (`analyse_outcome`): the loaders and `predictor`
return, and then either `pruner` ends the run with the `NameError` of its two print statements, so that
`find_identifier` is not called and no group file is written, or there is no exception.  In the second case
the sync log has ruled nothing out, and the files hold one line for each triple of intervals of the reported
results (`report_exact`), in each file in the order of the intervals (`file_results`).
-/

namespace AVPredictor
namespace Offline

open Base

/-- Two logs as the monitor writes them: ops `READ` or `WRITE`, each thread's records in the order of
their times, no lock record at time `0`. -/
structure LogsOk (log : List MemRef) (locks : List LockRef) : Prop where
  ops : OpsOk (log.map traceOf)
  times : TimeOrdered MemRef.tid (fun r => r.ts.toNat) log
  nonzero : ∀ r ∈ locks, r.ts ≠ 0

/-- The dictionary's keys in some order. -/
def DictOrder (enum : MemTrace → List ℕ) : Prop := ∀ mt, (enum mt).Perm mt.keys

/-- A violation that passes the lock check is restricted by a sync record. -/
def Stopped (log : List Trace) (css : List CS) (syncs : List Sync) : Prop :=
  ∃ ci, Violation log ci ∧ lockFound css ci = false ∧ Restricted syncs ci

/-- The line of a result. -/
def Result.line (re : Result) : List Char := (identifier re).msgStr

/-- The three intervals that a result is grouped by. -/
def Result.triple (re : Result) : Interval × Interval × Interval := (identifierEntry re).key

/-! ## How the run ends -/

section Ends

variable {log : List MemRef} {locks : List LockRef} {enum : MemTrace → List ℕ} {syncLog : List UInt8}
  {syncs : List Sync} {s : GroupState}

/-- The only exception of the body of `pruner` is that of the print statements. -/
theorem pruneCi_error {csList : List CS} {ci : CI} {e : PyErr} (htid : ci.second.tid = ci.first.tid)
    (h : pruneCi csList syncs ci = .error e) : e = .nameError "sync" := by
  have hprint : (printName "sync" >>= fun _ => (.ok [] : Except PyErr (List Result))) =
      .error (.nameError "sync") := by
    rw [printName_sync]
    rfl
  unfold pruneCi at h
  rw [if_neg (not_not_intro htid.symm)] at h
  split_ifs at h
  · split at h
    · exact (Except.error.inj (hprint.symm.trans h)).symm
    · exact absurd h (by simp)
  · split at h
    · exact (Except.error.inj (hprint.symm.trans h)).symm
    · exact absurd h (by simp)

/-- The loaders and `predictor` return, and the rest of the run is `pruner` and `find_identifier`. -/
theorem analyse_eq (hlogs : LogsOk log locks) (henum : DictOrder enum) (hsync : loadSyncTraces syncLog = .ok syncs) :
    ∃ mt cis, loadMemTraces (memFile log) = .ok mt ∧ predictor (enum mt) mt = .ok cis ∧
      (∀ ci, ci ∈ cis ↔ Violation (log.map traceOf) ci) ∧
      analyse enum (memFile log) (lockFile locks) syncLog =
        (pruner (sections (locks.map lockOf)) syncs cis >>= findIdentifier .init) := by
  obtain ⟨mt, hload, hrep⟩ := loadMemTraces_rep log
  obtain ⟨cis, hpred, -, hcis⟩ := predictor_spec hrep hlogs.ops (timesIncrease_of_timeOrdered hlogs.times) (henum mt)
  refine ⟨mt, cis, hload, hpred, hcis, ?_⟩
  rw [analyse, hload, loadLockTraces_sections hlogs.nonzero, hsync]
  show (predictor (enum mt) mt >>= _) = _
  rw [hpred]
  rfl

theorem Violation.time_lt (htimes : TimesIncrease (log.map traceOf)) {ci : CI}
    (hci : Violation (log.map traceOf) ci) : ci.first.time < ci.second.time :=
  rel_of_consecutive (htimes.accesses _ _) (nextAccess_iff.mp hci.next)

/-- `pruner` returns on the violations exactly when none of them stops it. -/
theorem pruner_violations (hlogs : LogsOk log locks) {css : List CS} {cis : List CI}
    (hcis : ∀ ci, ci ∈ cis ↔ Violation (log.map traceOf) ci) :
    (∃ rs, pruner css syncs cis = .ok rs) ↔ ¬ Stopped (log.map traceOf) css syncs := by
  rw [pruner, appendAll_ok_iff, Stopped]
  push Not
  constructor
  · intro h ci hci hfound
    exact (pruneCi_ok_iff hci.next.tid_eq (hci.time_lt (timesIncrease_of_timeOrdered hlogs.times))).mp
      (h ci ((hcis ci).mpr hci)) hfound
  · intro h ci hmem
    have hci := (hcis ci).mp hmem
    exact (pruneCi_ok_iff hci.next.tid_eq (hci.time_lt (timesIncrease_of_timeOrdered hlogs.times))).mpr (h ci hci)

/-- On the violations `pruner` ends with the exception exactly when one of them stops it. -/
theorem pruner_stopped_iff (hlogs : LogsOk log locks) {css : List CS} {cis : List CI}
    (hcis : ∀ ci, ci ∈ cis ↔ Violation (log.map traceOf) ci) :
    pruner css syncs cis = .error (.nameError "sync") ↔ Stopped (log.map traceOf) css syncs := by
  have hok : (∃ rs, pruner css syncs cis = .ok rs) ↔ _ := pruner_violations hlogs hcis
  constructor
  · intro herr
    by_contra hgo
    obtain ⟨rs, hrs⟩ := hok.mpr hgo
    exact absurd (hrs.symm.trans herr) (by simp)
  · intro hstop
    cases hprune : pruner css syncs cis with
    | ok rs => exact absurd hstop (hok.mp ⟨rs, hprune⟩)
    | error e =>
      obtain ⟨ci, hmem, herr⟩ := appendAll_error hprune
      rw [pruneCi_error ((hcis ci).mp hmem).next.tid_eq herr]

/-- Without a stop `grouper` is called for the reported results. -/
theorem analyse_results (hlogs : LogsOk log locks) (henum : DictOrder enum)
    (hsync : loadSyncTraces syncLog = .ok syncs)
    (hgo : ¬ Stopped (log.map traceOf) (sections (locks.map lockOf)) syncs) :
    ∃ results : List Result,
      analyse enum (memFile log) (lockFile locks) syncLog = grouperRun (results.map identifierEntry) ∧
        ∀ re, re ∈ results ↔ Reported (log.map traceOf) (sections (locks.map lockOf)) re := by
  obtain ⟨-, cis, -, -, hcis, hrun⟩ := analyse_eq hlogs henum hsync
  obtain ⟨results, hprune⟩ := (pruner_violations hlogs hcis).mpr hgo
  refine ⟨results, ?_, fun re => ?_⟩
  · rw [hrun, hprune, grouperRun, List.foldlM_map]
    rfl
  · rw [mem_pruner hprune]
    exact exists_congr fun ci => and_congr_left fun _ => hcis ci

theorem wellFormed_of_reported {log : List Trace} {css : List CS} {re : Result} (h : Reported log css re) :
    (identifierEntry re).WellFormed := by
  obtain ⟨ci, -, -, rfl⟩ := h
  exact wellFormed_identifierEntry (saveResult_attached css ci).1

/-- With a stop the print statement ends the run. -/
theorem analyse_stopped (hlogs : LogsOk log locks) (henum : DictOrder enum)
    (hsync : loadSyncTraces syncLog = .ok syncs)
    (hstop : Stopped (log.map traceOf) (sections (locks.map lockOf)) syncs) :
    analyse enum (memFile log) (lockFile locks) syncLog = .error (.nameError "sync") := by
  obtain ⟨-, cis, -, -, hcis, hrun⟩ := analyse_eq hlogs henum hsync
  rw [hrun, (pruner_stopped_iff hlogs hcis).mpr hstop]
  rfl

/-- Without a stop nothing raises an exception. -/
theorem analyse_ok_of_not_stopped (hlogs : LogsOk log locks) (henum : DictOrder enum)
    (hsync : loadSyncTraces syncLog = .ok syncs)
    (hgo : ¬ Stopped (log.map traceOf) (sections (locks.map lockOf)) syncs) :
    ∃ s, analyse enum (memFile log) (lockFile locks) syncLog = .ok s := by
  obtain ⟨results, hrun, hres⟩ := analyse_results hlogs henum hsync hgo
  have hwf : ∀ e ∈ results.map identifierEntry, e.WellFormed := by
    intro e he
    obtain ⟨re, hre, rfl⟩ := List.mem_map.mp he
    exact wellFormed_of_reported ((hres re).mp hre)
  obtain ⟨s, hs, -, -⟩ := groupInv_run hwf
  exact ⟨s, hrun.trans hs⟩

/-- **How a run ends**: the loaders and `predictor` return; `pruner` ends the run with the `NameError` of
its print statements, before `find_identifier` is called, if a violation that passes the lock check is
restricted by a sync record; and else there is no exception. -/
theorem analyse_outcome (hlogs : LogsOk log locks) (henum : DictOrder enum)
    (hsync : loadSyncTraces syncLog = .ok syncs) :
    ∃ mt css cis, loadMemTraces (memFile log) = .ok mt ∧ loadLockTraces (lockFile locks) = .ok css ∧
      predictor (enum mt) mt = .ok cis ∧
      analyse enum (memFile log) (lockFile locks) syncLog = (pruner css syncs cis >>= findIdentifier .init) ∧
      (pruner css syncs cis = .error (.nameError "sync") ↔ Stopped (log.map traceOf) css syncs) ∧
      (analyse enum (memFile log) (lockFile locks) syncLog = .error (.nameError "sync") ↔
        Stopped (log.map traceOf) css syncs) ∧
      ((∃ s, analyse enum (memFile log) (lockFile locks) syncLog = .ok s) ↔
        ¬ Stopped (log.map traceOf) css syncs) := by
  obtain ⟨mt, cis, hmem, hpred, hcis, hrun⟩ := analyse_eq hlogs henum hsync
  have herror := analyse_stopped hlogs henum hsync
  have hok := analyse_ok_of_not_stopped hlogs henum hsync
  refine ⟨mt, _, cis, hmem, loadLockTraces_sections hlogs.nonzero, hpred, hrun, pruner_stopped_iff hlogs hcis,
    ⟨fun herr => ?_, herror⟩, ⟨fun hs hstop => ?_, hok⟩⟩
  · by_contra hgo
    obtain ⟨s, hs⟩ := hok hgo
    exact absurd (hs.symm.trans herr) (by simp)
  · obtain ⟨s, hs⟩ := hs
    exact absurd (hs.symm.trans (herror hstop)) (by simp)

end Ends

theorem logsOk_section : LogsOk sectionMem sectionLocks where
  ops := by simp [OpsOk, sectionMem, traceOf, opRead, opWrite]
  times := by decide
  nonzero := by decide

theorem dictOrder_keys : DictOrder fun mt => mt.keys := fun _ => List.Perm.refl _

/-- A barrier of thread 2 before its access. -/
def sectionSyncs : List SyncRef := [⟨2, 8, 1⟩]

theorem analyse_outcome_section :
    ∃ mt css cis, loadMemTraces (memFile sectionMem) = .ok mt ∧ loadLockTraces (lockFile sectionLocks) = .ok css ∧
      predictor mt.keys mt = .ok cis ∧
      analyse (fun mt => mt.keys) (memFile sectionMem) (lockFile sectionLocks) (fwrite SyncRef.bytes sectionSyncs) =
        (pruner css (sectionSyncs.map syncRead) cis >>= findIdentifier .init) ∧
      (pruner css (sectionSyncs.map syncRead) cis = .error (.nameError "sync") ↔
        Stopped (sectionMem.map traceOf) css (sectionSyncs.map syncRead)) ∧
      (analyse (fun mt => mt.keys) (memFile sectionMem) (lockFile sectionLocks) (fwrite SyncRef.bytes sectionSyncs) =
          .error (.nameError "sync") ↔
        Stopped (sectionMem.map traceOf) css (sectionSyncs.map syncRead)) ∧
      ((∃ s, analyse (fun mt => mt.keys) (memFile sectionMem) (lockFile sectionLocks)
          (fwrite SyncRef.bytes sectionSyncs) = .ok s) ↔
        ¬ Stopped (sectionMem.map traceOf) css (sectionSyncs.map syncRead)) :=
  analyse_outcome logsOk_section dictOrder_keys (loadSyncTraces_fwrite sectionSyncs)

theorem not_stopped_nil (log : List Trace) (css : List CS) : ¬ Stopped log css [] := by
  rintro ⟨ci, -, -, h⟩
  simp [Restricted] at h

/-- An empty sync log stops nothing. -/
theorem analyse_ok_nil {log : List MemRef} {locks : List LockRef} {enum : MemTrace → List ℕ}
    (hlogs : LogsOk log locks) (henum : DictOrder enum) :
    ∃ s, analyse enum (memFile log) (lockFile locks) [] = .ok s :=
  analyse_ok_of_not_stopped hlogs henum (show loadSyncTraces [] = .ok [] from rfl) (not_stopped_nil _ _)

/-! ## What the files hold -/

section Files

variable {results : List Result} {s : GroupState}

/-- A list of images is the image of a list. -/
theorem exists_map_eq {α β : Type} {f : α → β} {p : α → Prop} {l : List β} (h : ∀ b ∈ l, ∃ a, p a ∧ f a = b) :
    ∃ k : List α, k.map f = l ∧ ∀ a ∈ k, p a := by
  induction l with
  | nil => exact ⟨[], rfl, by simp⟩
  | cons b l ih =>
    obtain ⟨⟨a, ha, rfl⟩, hl⟩ := List.forall_mem_cons.mp h
    obtain ⟨k, rfl, hk⟩ := ih hl
    exact ⟨a :: k, rfl, List.forall_mem_cons.mpr ⟨ha, hk⟩⟩

/-- Every entry of a group is that of a result. -/
theorem GroupInv.exists_result (h : GroupInv (results.map identifierEntry) s) :
    ∀ e ∈ s.groupSet.flatten, ∃ re, re ∈ results ∧ identifierEntry re = e :=
  fun e he => List.mem_map.mp (h.submitted e he)

/-- The file of a group: the lines of results with the entries of the group, each over in all three
intervals before the next one begins. -/
theorem file_results (h : GroupInv (results.map identifierEntry) s) (hf : FilesInv s)
    (hwf : ∀ re ∈ results, (identifierEntry re).WellFormed) {i : ℕ} (hi : i < s.groupNum) :
    ∃ rs : List Result, (∀ re ∈ rs, re ∈ results) ∧ (rs.map identifierEntry).Perm (s.groupSet[i]?.getD []) ∧
      (rs.map identifierEntry).Pairwise EndsBefore ∧ s.files i = some (rs.flatMap Result.line) := by
  rw [h.num] at hi
  have hget := List.getElem?_eq_getElem hi
  have hmem : s.groupSet[i] ∈ s.groupSet := List.getElem_mem hi
  obtain ⟨r, hperm, hsorted, hfile⟩ := hf.written i _ hget
  have hresult : ∀ e ∈ s.groupSet[i], ∃ re, re ∈ results ∧ identifierEntry re = e :=
    fun e he => h.exists_result e (List.mem_flatten_of_mem hmem he)
  obtain ⟨rs, rfl, hrs⟩ := exists_map_eq fun e he => hresult e (hperm.mem_iff.mp he)
  refine ⟨rs, hrs, by rwa [hget], ?_, ?_⟩
  · refine hsorted.endsBefore hperm (h.separated _ hmem) ?_
    intro e he
    obtain ⟨re, hre, rfl⟩ := hresult e he
    exact hwf re hre
  · rw [hfile, List.flatMap_map]
    exact congrArg some (List.flatMap_congr fun re _ => msg_identifierEntry re)

/-- The lines of all files: one for each triple of the results. -/
theorem report_results (h : GroupInv (results.map identifierEntry) s) (hf : FilesInv s) :
    ∃ kept : List Result, (∀ re ∈ kept, re ∈ results) ∧ (kept.map Result.triple).Nodup ∧
      (∀ re ∈ results, re.triple ∈ kept.map Result.triple) ∧ (report s).Perm (kept.map Result.line) := by
  obtain ⟨kept, hkept, hmem⟩ := exists_map_eq h.exists_result
  have htriple : kept.map Result.triple = s.groupSet.flatten.map Entry.key := by
    rw [← hkept, List.map_map]
    rfl
  have hline : kept.map Result.line = s.groupSet.flatten.map Entry.msg := by
    rw [← hkept, List.map_map]
    exact List.map_congr_left fun re _ => (msg_identifierEntry re).symm
  refine ⟨kept, hmem, ?_, ?_, ?_⟩
  · rw [htriple]
    exact h.nodup
  · intro re hre
    rw [htriple]
    exact h.held _ (List.mem_map_of_mem hre)
  · rw [hline]
    refine report_perm h hf fun e he => ?_
    obtain ⟨re, -, rfl⟩ := List.mem_map.mp he
    rw [msg_identifierEntry]
    exact isLine_msgStr _

end Files

section Report

variable {log : List MemRef} {locks : List LockRef} {enum : MemTrace → List ℕ} {syncLog : List UInt8}
  {syncs : List Sync} {s : GroupState}

/-- What a run that returned has done. -/
theorem analyse_groups (hlogs : LogsOk log locks) (henum : DictOrder enum)
    (hok : analyse enum (memFile log) (lockFile locks) syncLog = .ok s) :
    ∃ results : List Result,
      (∀ re, re ∈ results ↔ Reported (log.map traceOf) (sections (locks.map lockOf)) re) ∧
        (∀ re ∈ results, (identifierEntry re).WellFormed) ∧
        GroupInv (results.map identifierEntry) s ∧ FilesInv s := by
  obtain ⟨syncs, hsync⟩ : ∃ syncs, loadSyncTraces syncLog = .ok syncs := by
    obtain ⟨mt, -, h⟩ := bind_eq_ok.mp hok
    obtain ⟨css, -, h⟩ := bind_eq_ok.mp h
    obtain ⟨syncs, hsync, -⟩ := bind_eq_ok.mp h
    exact ⟨syncs, hsync⟩
  have hgo : ¬ Stopped (log.map traceOf) (sections (locks.map lockOf)) syncs := fun hstop =>
    absurd (hok.symm.trans (analyse_stopped hlogs henum hsync hstop)) (by simp)
  obtain ⟨results, hrun, hres⟩ := analyse_results hlogs henum hsync hgo
  have hwf : ∀ re ∈ results, (identifierEntry re).WellFormed := fun re hre =>
    wellFormed_of_reported ((hres re).mp hre)
  have hentries : ∀ e ∈ results.map identifierEntry, e.WellFormed := by
    intro e he
    obtain ⟨re, hre, rfl⟩ := List.mem_map.mp he
    exact hwf re hre
  obtain ⟨s', hs', h, hf⟩ := groupInv_run hentries
  obtain rfl : s' = s := Except.ok.inj (hs'.symm.trans (hrun.symm.trans hok))
  exact ⟨results, hres, hwf, h, hf⟩

/-- **Nothing is invented and nothing is lost**: whatever the sync log, when a run returns its files
hold exactly one line for each triple of intervals of the violations that no pair of sections rules
out. -/
theorem report_exact (hlogs : LogsOk log locks) (henum : DictOrder enum)
    (hok : analyse enum (memFile log) (lockFile locks) syncLog = .ok s) :
    ∃ kept : List Result,
      (∀ re ∈ kept, Reported (log.map traceOf) (sections (locks.map lockOf)) re) ∧
        (kept.map Result.triple).Nodup ∧
        (∀ re, Reported (log.map traceOf) (sections (locks.map lockOf)) re →
          re.triple ∈ kept.map Result.triple) ∧
        (report s).Perm (kept.map Result.line) := by
  obtain ⟨results, hres, -, h, hf⟩ := analyse_groups hlogs henum hok
  obtain ⟨kept, hkept, hnodup, hall, hperm⟩ := report_results h hf
  exact ⟨kept, fun re hre => (hres re).mp (hkept re hre), hnodup, fun re hre => hall re ((hres re).mpr hre), hperm⟩

theorem report_exact_section :
    ∃ s, analyse (fun mt => mt.keys) (memFile sectionMem) (lockFile sectionLocks) [] = .ok s ∧
      ∃ kept : List Result,
        (∀ re ∈ kept, Reported (sectionMem.map traceOf) (sections (sectionLocks.map lockOf)) re) ∧
          (kept.map Result.triple).Nodup ∧
          (∀ re, Reported (sectionMem.map traceOf) (sections (sectionLocks.map lockOf)) re →
            re.triple ∈ kept.map Result.triple) ∧
          (report s).Perm (kept.map Result.line) := by
  obtain ⟨s, hok⟩ := analyse_ok_nil logsOk_section dictOrder_keys
  exact ⟨s, hok, report_exact logsOk_section dictOrder_keys hok⟩

/-- With distinct times the line of every reported result is in a file. -/
theorem line_mem_report (hlogs : LogsOk log locks) (henum : DictOrder enum)
    (hdistinct : (log.map MemRef.ts).Nodup) (hlocks : (locks.map LockRef.ts).Nodup)
    (hok : analyse enum (memFile log) (lockFile locks) syncLog = .ok s) {re : Result}
    (hre : Reported (log.map traceOf) (sections (locks.map lockOf)) re) : re.line ∈ report s := by
  obtain ⟨results, hres, -, h, hf⟩ := analyse_groups hlogs henum hok
  obtain ⟨kept, hkept, -, hall, hperm⟩ := report_results h hf
  obtain ⟨re', hre', htriple⟩ := List.mem_map.mp (hall re ((hres re).mpr hre))
  have hline := identifier_eq_of_key (eq_of_time hdistinct) (eq_of_stime hlocks) ((hres re').mp (hkept re' hre')) hre
    htriple
  rw [hperm.mem_iff, Result.line, ← hline]
  exact List.mem_map_of_mem hre'

end Report

/-- What the monitor records when thread 1 writes a word at two places and thread 2 reads it later. -/
def writeReadLog : List MemRef := [⟨0x8048100, 64, 1, 1, 1⟩, ⟨0x8048200, 64, 2, 1, 1⟩, ⟨0x8048300, 64, 3, 2, 0⟩]

def writeReadCi : CI :=
  ⟨⟨1, 1, 0x8048100, 64, 1⟩, ⟨1, 2, 0x8048200, 64, 1⟩, ⟨2, 3, 0x8048300, 64, 0⟩⟩

def writeReadResult : Result := ⟨writeReadCi.first, writeReadCi.second, writeReadCi.inter, none, none, none⟩

theorem logsOk_writeRead : LogsOk writeReadLog [] where
  ops := by simp [OpsOk, writeReadLog, traceOf, opRead, opWrite]
  times := by decide
  nonzero := by simp

/-- With locks and sync records that do not stop it, the run reports this one violation. -/
theorem analyse_writeRead {locks : List LockRef} {syncLog : List UInt8} {syncs : List Sync}
    (hnonzero : ∀ r ∈ locks, r.ts ≠ 0) (hsync : loadSyncTraces syncLog = .ok syncs)
    (hprune : pruner (sections (locks.map lockOf)) syncs [writeReadCi] = .ok [writeReadResult]) :
    ∃ s, analyse (fun mt => mt.keys) (memFile writeReadLog) (lockFile locks) syncLog = .ok s ∧ s.groupNum = 1 ∧
      s.files 0 = some writeReadResult.line := by
  obtain ⟨s, hs, hnum, hfile⟩ : ∃ s, findIdentifier .init [writeReadResult] = .ok s ∧ s.groupNum = 1 ∧
      s.files 0 = some writeReadResult.line := ⟨_, rfl, rfl, rfl⟩
  have hpred : predictor [64] ((writeReadLog.map traceOf).foldl storeTrace ∅) = .ok [writeReadCi] := by decide
  have hlocks : loadLockTraces (lockFile locks) = _ := loadLockTraces_sections hnonzero
  refine ⟨s, ?_, hnum, hfile⟩
  refine bind_eq_ok.mpr ⟨_, loadMemTraces_memFile _, bind_eq_ok.mpr ⟨_, hlocks, bind_eq_ok.mpr ⟨_, hsync, ?_⟩⟩⟩
  exact bind_eq_ok.mpr ⟨_, hpred, bind_eq_ok.mpr ⟨_, hprune, hs⟩⟩

end Offline
end AVPredictor
