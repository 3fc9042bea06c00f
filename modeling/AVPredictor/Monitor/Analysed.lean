import AVPredictor.Monitor.Candidates
import AVPredictor.Monitor.LockLog
import AVPredictor.Offline.Outcome

/-!
# AVPredictor.Monitor.Analysed — from a monitored run to the group files

The first half of the tool from end to end: instructions are executed in any interleaving and recorded,
the trace buffers are flushed in any order, the lock and synchronisation callbacks fill their buffers,
`Fini` writes the logs, and the analyser reads them.  `monitored_analysis` says what the group files are in
terms of the run itself: which violations they hold, what the inverted read flag, the size of `lockBuf` and
the field order of the sync records have made of them, and when there are no files at all.
-/

namespace AVPredictor
namespace Monitor

open Base Offline

/-- The analyser predicts the interleaving: two neighbouring accesses of a thread and a third one of
another thread outside them, which shows between them exactly when they have the same op. -/
structure Predicted (log : List Trace) (ci : CI) : Prop where
  next : NextAccess log ci.first ci.second
  mem : ci.inter ∈ log
  addr : ci.inter.addr = ci.first.addr
  tid : ci.inter.tid ≠ ci.first.tid
  outside : ¬ (ci.first.time < ci.inter.time ∧ ci.inter.time < ci.second.time)
  shows : ¬ Atomic ci.first ci.second [ci.inter] ↔ ci.first.op = ci.second.op

/-- The candidate as the analyser holds it. -/
def invertCi (ci : CI) : CI := ⟨invertOp ci.first, invertOp ci.second, invertOp ci.inter⟩

/-! ## Passing the pruner -/

/-- The sections that the analyser loads after a run. -/
def loadedSections (cbs : List Callback) : List CS := sections ((lockCalls cbs).take lockBufSize)

/-- The sync records as the analyser reads them. -/
def loadedSyncs (cbs : List Callback) : List Sync := ((syncEvents cbs).take syncBufSize).map syncRead

/-- The prediction is not ruled out by a pair of sections. -/
def Passed (run : List Event) (cbs : List Callback) (ci : CI) : Prop :=
  Predicted (made run) ci ∧ lockFound (loadedSections cbs) ci = false

/-- The result of a prediction. -/
def saved (cbs : List Callback) (ci : CI) : Result := saveResult (loadedSections cbs) ci

/-- The group files hold one line for each triple of intervals of the predictions that are not ruled out. -/
structure FilesOf (run : List Event) (cbs : List Callback) (s : GroupState) (kept : List CI) : Prop where
  passed : ∀ ci ∈ kept, Passed run cbs ci
  nodup : (kept.map fun ci => (saved cbs ci).triple).Nodup
  complete : ∀ ci, Passed run cbs ci → (saved cbs ci).triple ∈ kept.map fun ci => (saved cbs ci).triple
  lines : (report s).Perm (kept.map fun ci => (saved cbs ci).line)

/-- The analysis of the files of a run. -/
def analyseRun (enum : MemTrace → List ℕ) (run : List Event) (cbs : List Callback) : Except PyErr GroupState :=
  analyse enum (record run).fileMem (LogState.run cbs).finiLock (LogState.run cbs).finiSync

section Analysed

variable {run : List Event} {cbs : List Callback} {flushed : List MemRef} {css : List CS} {syncs : List Sync}
  {ci x : CI} {re : Result} {enum : MemTrace → List ℕ}

theorem timesIncrease_made (h : TimeOrdered Trace.tid Trace.time (made run)) : TimesIncrease (made run) :=
  h.imp fun hab _ htid => hab htid

/-- The violations of the file are the predictions of the run. -/
theorem violation_iff_predicted (hone : ∀ e ∈ execs run, OneAccess e)
    (hkeep : KeepsOrder MemRef.tid ((execs run).flatMap recordsOf) flushed) (htime : TimesIncrease (made run)) :
    Violation (flushed.map traceOf) x ↔ ∃ ci, Predicted (made run) ci ∧ x = invertCi ci := by
  have hk := keepsOrder_made hone hkeep
  have hsame : Violation (flushed.map traceOf) x ↔ Violation ((made run).map invertOp) x :=
    ⟨fun h => h.keepsOrder fun t => (hk t).symm, fun h => h.keepsOrder hk⟩
  rw [hsame, violation_map_invertOp (opsOk_made run) htime]
  constructor
  · rintro ⟨first, second, inter, rfl, hnext, hmem, haddr, htid, hout, hshows⟩
    exact ⟨⟨first, second, inter⟩, ⟨hnext, hmem, haddr, htid, hout, hshows⟩, rfl⟩
  · rintro ⟨ci, h, rfl⟩
    exact ⟨ci.first, ci.second, ci.inter, rfl, h.next, h.mem, h.addr, h.tid, h.outside, h.shows⟩

/-- The op of an access has no part in the sections, the line and the intervals of a result. -/
theorem commonSections_invertCi :
    commonSections (saveResult css (invertCi ci)) = commonSections (saveResult css ci) := by
  rw [saveResult_eq, saveResult_eq]
  rfl

theorem identifier_invertCi : identifier (saveResult css (invertCi ci)) = identifier (saveResult css ci) := by
  rw [identifier, identifier, commonSections_invertCi, saveResult_eq, saveResult_eq]
  rfl

theorem identifierEntry_invertCi :
    identifierEntry (saveResult css (invertCi ci)) = identifierEntry (saveResult css ci) := by
  rw [identifierEntry, identifierEntry, commonSections_invertCi, saveResult_eq, saveResult_eq]
  rfl

/-- The logs of a run are as the analyser wants them. -/
theorem logsOk_run (hone : ∀ e ∈ execs run, OneAccess e)
    (hkeep : KeepsOrder MemRef.tid ((execs run).flatMap recordsOf) flushed)
    (htime : TimeOrdered Trace.tid Trace.time (made run)) (hts : ∀ r ∈ lockEvents cbs, r.ts ≠ 0) :
    LogsOk flushed ((lockEvents cbs).take lockBufSize) := by
  have hk := keepsOrder_made hone hkeep
  have hordered : TimeOrdered Trace.tid Trace.time (flushed.map traceOf) :=
    hk.timeOrdered (List.pairwise_map.mpr htime)
  refine ⟨fun x hx => ?_, ?_, fun r hr => hts r (List.mem_of_mem_take hr)⟩
  · exact opsOk_map_invertOp (made run) x (hk.mem_iff.mp hx)
  · exact (List.pairwise_map.mp hordered).imp fun hab heq => hab (congrArg UInt32.toNat heq)

/-- The files of a run are those of two logs. -/
theorem analyseRun_eq (hfile : (record run).fileMem = memFile flushed) :
    analyseRun enum run cbs =
      analyse enum (memFile flushed) (lockFile ((lockEvents cbs).take lockBufSize)) (LogState.run cbs).finiSync := by
  rw [analyseRun, hfile, LogState.finiLock, lockRefs_run, lockFile]

theorem sections_take (cbs : List Callback) :
    sections (((lockEvents cbs).take lockBufSize).map lockOf) = loadedSections cbs := by
  rw [loadedSections, lockCalls, List.map_take]

/-- A prediction that no pair of loaded sections rules out is a violation that passes the lock check. -/
theorem reported_iff_passed (hone : ∀ e ∈ execs run, OneAccess e)
    (hkeep : KeepsOrder MemRef.tid ((execs run).flatMap recordsOf) flushed)
    (htime : TimeOrdered Trace.tid Trace.time (made run)) :
    Reported (flushed.map traceOf) (loadedSections cbs) re ↔
      ∃ ci, Passed run cbs ci ∧ saveResult (loadedSections cbs) (invertCi ci) = re := by
  have hviolation : ∀ x, Violation (flushed.map traceOf) x ↔ ∃ ci, Predicted (made run) ci ∧ x = invertCi ci :=
    fun _ => violation_iff_predicted hone hkeep (timesIncrease_made htime)
  -- the lock check compares tids and times, which are those of the run
  constructor
  · rintro ⟨x, hx, hlock, rfl⟩
    obtain ⟨ci, hci, rfl⟩ := (hviolation x).mp hx
    exact ⟨ci, ⟨hci, hlock⟩, rfl⟩
  · rintro ⟨ci, ⟨hci, hlock⟩, rfl⟩
    exact ⟨invertCi ci, (hviolation _).mpr ⟨ci, hci, rfl⟩, hlock, rfl⟩

theorem stopped_iff_passed (hone : ∀ e ∈ execs run, OneAccess e)
    (hkeep : KeepsOrder MemRef.tid ((execs run).flatMap recordsOf) flushed)
    (htime : TimeOrdered Trace.tid Trace.time (made run)) :
    Stopped (flushed.map traceOf) (loadedSections cbs) syncs ↔ ∃ ci, Passed run cbs ci ∧ Restricted syncs ci := by
  have hviolation : ∀ x, Violation (flushed.map traceOf) x ↔ ∃ ci, Predicted (made run) ci ∧ x = invertCi ci :=
    fun _ => violation_iff_predicted hone hkeep (timesIncrease_made htime)
  constructor
  · rintro ⟨x, hx, hlock, hsync⟩
    obtain ⟨ci, hci, rfl⟩ := (hviolation x).mp hx
    exact ⟨ci, ⟨hci, hlock⟩, hsync⟩
  · rintro ⟨ci, ⟨hci, hlock⟩, hsync⟩
    exact ⟨invertCi ci, (hviolation _).mpr ⟨ci, hci, rfl⟩, hlock, hsync⟩

/-- The groups of the results are those of the predictions. -/
theorem exists_filesOf {results : List Result} {s : GroupState}
    (hres : ∀ re, re ∈ results ↔ ∃ ci, Passed run cbs ci ∧ saveResult (loadedSections cbs) (invertCi ci) = re)
    (h : GroupInv (results.map identifierEntry) s) (hf : FilesInv s) : ∃ kept : List CI, FilesOf run cbs s kept := by
  obtain ⟨rs, hrs, hnodup, hall, hperm⟩ := report_results h hf
  obtain ⟨kept, rfl, hkept⟩ := exists_map_eq fun re hre => (hres re).mp (hrs re hre)
  have htriple : (kept.map fun ci => saveResult (loadedSections cbs) (invertCi ci)).map Result.triple =
      kept.map (fun ci => (saved cbs ci).triple) := by
    rw [List.map_map]
    exact List.map_congr_left fun ci _ => congrArg Entry.key identifierEntry_invertCi
  have hline : (kept.map fun ci => saveResult (loadedSections cbs) (invertCi ci)).map Result.line =
      kept.map (fun ci => (saved cbs ci).line) := by
    rw [List.map_map]
    exact List.map_congr_left fun ci _ => congrArg LineNumbers.msgStr identifier_invertCi
  rw [htriple] at hnodup hall
  rw [hline] at hperm
  refine ⟨kept, hkept, hnodup, fun ci hci => ?_, hperm⟩
  have hmem := hall _ ((hres _).mpr ⟨ci, hci, rfl⟩)
  rw [Result.triple, identifierEntry_invertCi] at hmem
  exact hmem

theorem loadSyncTraces_run (h : InStep cbs) : loadSyncTraces (LogState.run cbs).finiSync = .ok (loadedSyncs cbs) := by
  rw [LogState.finiSync, loadSyncTraces_fwrite, syncRefs_of_inStep h, loadedSyncs]

/-- **What the group files say about the monitored run.**  The analysis ends with the `NameError` of `pruner`
when a prediction that no pair of loaded sections rules out is restricted by a sync record as the loader reads
it, and without an exception otherwise; and then the files hold the predictions that no pair of loaded
sections rules out. -/
theorem monitored_analysis (hone : ∀ e ∈ execs run, OneAccess e) (hfl : Flushed run)
    (htime : TimeOrdered Trace.tid Trace.time (made run)) (hts : ∀ r ∈ lockEvents cbs, r.ts ≠ 0) (hbuf : InStep cbs)
    (henum : DictOrder enum) :
    (analyseRun enum run cbs = .error (.nameError "sync") ↔
        ∃ ci, Passed run cbs ci ∧ Restricted (loadedSyncs cbs) ci) ∧
      (analyseRun enum run cbs = .error (.nameError "sync") ∨ ∃ s, analyseRun enum run cbs = .ok s) ∧
      ∀ s, analyseRun enum run cbs = .ok s → ∃ kept : List CI, FilesOf run cbs s kept := by
  obtain ⟨flushed, hfile, hkeep⟩ := recorded_keepsOrder hfl
  have hlogs := logsOk_run hone hkeep htime hts
  have hsync := loadSyncTraces_run hbuf
  have hrun : analyseRun enum run cbs = _ := analyseRun_eq hfile
  have hstop : Stopped (flushed.map traceOf) (loadedSections cbs) (loadedSyncs cbs) ↔ _ :=
    stopped_iff_passed hone hkeep htime
  have herror := analyse_stopped hlogs henum hsync
  have hok := analyse_ok_of_not_stopped hlogs henum hsync
  rw [sections_take, hstop, ← hrun] at herror hok
  refine ⟨⟨fun herr => ?_, herror⟩, ?_, fun s hs => ?_⟩
  · by_contra hgo
    obtain ⟨s, hs⟩ := hok hgo
    exact absurd (hs.symm.trans herr) (by simp)
  · by_cases h : ∃ ci, Passed run cbs ci ∧ Restricted (loadedSyncs cbs) ci
    · exact Or.inl (herror h)
    · exact Or.inr (hok h)
  · rw [hrun] at hs
    obtain ⟨results, hres, -, h, hf⟩ := analyse_groups hlogs henum hs
    rw [sections_take] at hres
    exact exists_filesOf (fun re => (hres re).trans (reported_iff_passed hone hkeep htime)) h hf

end Analysed

/-- Thread 1 stores a word at two places and thread 2 loads it afterwards. -/
def writeReadRun : List Event :=
  [.exec ⟨⟨0x8048100, false, false, false, false, false, true⟩, 1, 1, 0, 64⟩,
    .exec ⟨⟨0x8048200, false, false, false, false, false, true⟩, 1, 2, 0, 64⟩,
    .exec ⟨⟨0x8048300, false, false, false, false, true, false⟩, 2, 3, 64, 0⟩,
    .bufferFull 1, .bufferFull 2]

theorem oneAccess_writeReadRun : ∀ e ∈ execs writeReadRun, OneAccess e := by decide

theorem flushed_writeReadRun : Flushed writeReadRun := @flushed_append (writeReadRun.take 3) [1, 2] (by decide)

theorem analyseRun_writeRead :
    ∃ s, analyseRun (fun mt => mt.keys) writeReadRun lockRun = .ok s ∧ s.groupNum = 1 ∧
      s.files 0 = some writeReadResult.line := by
  have hfile : (record writeReadRun).fileMem = memFile writeReadLog := by decide
  have hsync : loadSyncTraces (LogState.run lockRun).finiSync = .ok (loadedSyncs lockRun) :=
    loadSyncTraces_run inStep_lockRun
  rw [analyseRun_eq hfile]
  exact analyse_writeRead (by decide) hsync (by decide)

/-- The prediction of this run goes to a group file. -/
theorem monitored_analysis_writeReadRun :
    ∃ s ci, analyseRun (fun mt => mt.keys) writeReadRun lockRun = .ok s ∧ s.groupNum = 1 ∧
      FilesOf writeReadRun lockRun s [ci] ∧
      ¬ ∃ ci, Passed writeReadRun lockRun ci ∧ Restricted (loadedSyncs lockRun) ci := by
  obtain ⟨s, hok, hnum, hfile⟩ := analyseRun_writeRead
  obtain ⟨herror, -, hfiles⟩ := monitored_analysis oneAccess_writeReadRun flushed_writeReadRun (by decide) (by decide)
    inStep_lockRun dictOrder_keys
  obtain ⟨kept, hkept⟩ := hfiles s hok
  have hreport : report s = [writeReadResult.line] := by
    have hline : lines (writeReadResult.line ++ []) = _ := lines_append (isLine_msgStr _) []
    rw [List.append_nil] at hline
    rw [report, hnum, List.range_one, List.flatMap_singleton, hfile]
    exact hline
  have hlen := hkept.lines.length_eq
  rw [hreport, List.length_map] at hlen
  obtain ⟨ci, rfl⟩ := List.length_eq_one_iff.mp hlen.symm
  exact ⟨s, ci, hok, hnum, hkept, fun hstop => absurd (hok.symm.trans (herror.mpr hstop)) (by simp)⟩

end Monitor
end AVPredictor
