import AVPredictor.Base.Ranks
import AVPredictor.Offline.LogFormat
import AVPredictor.Offline.Outcome

/-!
# AVPredictor.Offline.Times — what the analysis makes of the time stamps

The analyser compares time stamps with each other, and the finish time of a section with 0.  So it commutes
with every change of the clock that keeps the order and 0 (`predicted_retime`, `pruner_retime`,
`call_retime`): the runs on the two logs go through the same groups, with the intervals of the changed
clock, and write the same files.  Since numbers in the same order are images of the same ranks, the files
depend on nothing but the order of the times (`analyse_sameOrder`).

The times of the sync log are the exception, since the loader reads only their low halves.  Once the clock
has passed 2^32, every loaded sync record is earlier than every access, and the sync log has no effect
(`sync_log_ignored`).
-/

namespace AVPredictor
namespace Offline

open Base

/-! ## Another clock -/

/-- A change of the clock that keeps the order and 0, which marks an open section. -/
structure Clock where
  time : ℕ → ℕ
  strictMono : StrictMono time
  zero : time 0 = 0

def Trace.retime (k : Clock) (x : Trace) : Trace := { x with time := k.time x.time }

def LockTrace.retime (k : Clock) (r : LockTrace) : LockTrace := { r with time := k.time r.time }

def CS.retime (k : Clock) (cs : CS) : CS := { cs with stime := k.time cs.stime, ftime := k.time cs.ftime }

def Sync.retime (k : Clock) (syn : Sync) : Sync := { syn with time := k.time syn.time }

def CI.retime (k : Clock) (ci : CI) : CI := ⟨ci.first.retime k, ci.second.retime k, ci.inter.retime k⟩

def Result.retime (k : Clock) (re : Result) : Result :=
  ⟨re.first.retime k, re.second.retime k, re.inter.retime k,
    re.firstCs.map (CS.retime k), re.secondCs.map (CS.retime k),
    re.interCs.map (CS.retime k)⟩

def Entry.retime (k : Clock) (e : Entry) : Entry :=
  { firstInterval := e.firstInterval.map k.time k.time
    secondInterval := e.secondInterval.map k.time k.time
    interInterval := e.interInterval.map k.time k.time
    msg := e.msg }

def GroupState.retime (k : Clock) (s : GroupState) : GroupState :=
  { s with groupSet := s.groupSet.map (List.map (Entry.retime k)) }

section Clock

variable {k : Clock}

@[simp] theorem Clock.lt_iff {a b : ℕ} : k.time a < k.time b ↔ a < b := k.strictMono.lt_iff_lt

@[simp] theorem Clock.eq_iff {a b : ℕ} : k.time a = k.time b ↔ a = b := k.strictMono.injective.eq_iff

@[simp] theorem Clock.eq_zero_iff {a : ℕ} : k.time a = 0 ↔ a = 0 := by
  have h := @Clock.eq_iff k a 0
  rwa [k.zero] at h

/-! ## The candidates -/

section Candidates

variable {log l0 l1 : List Trace} {x first second it : Trace}

theorem ofAddr_retime (log : List Trace) (a : ℕ) :
    ofAddr (log.map (Trace.retime k)) a = (ofAddr log a).map (Trace.retime k) :=
  List.filter_map

theorem ofTid_retime (log : List Trace) (t : ℕ) :
    ofTid (log.map (Trace.retime k)) t = (ofTid log t).map (Trace.retime k) :=
  List.filter_map

theorem completes_retime :
    Completes (first.retime k) (second.retime k) (it.retime k) ↔ Completes first second it := by
  simp [Completes, Trace.retime]

theorem scan_retime (l0 l1 : List Trace) :
    scan (l0.map (Trace.retime k)) (l1.map (Trace.retime k)) = (scan l0 l1).map (CI.retime k) := by
  unfold scan
  rw [consecutive_map, List.flatMap_map, List.map_flatMap]
  refine List.flatMap_congr fun p _ => ?_
  have hfilter : (l1.map (Trace.retime k)).filter (Completes (p.1.retime k) (p.2.retime k) ·) =
      (l1.filter (Completes p.1 p.2 ·)).map (Trace.retime k) := by
    rw [List.filter_map]
    exact congrArg _ (List.filter_congr fun it _ => by simp [completes_retime])
  rw [Prod.map_fst, Prod.map_snd, hfilter, appendCis, appendCis, List.map_map, List.map_map]
  rfl

theorem addrCis_retime (l : List Trace) :
    addrCis (l.map (Trace.retime k)) = (addrCis l).map (CI.retime k) := by
  have htids : (l.map (Trace.retime k)).map Trace.tid = l.map Trace.tid := by
    rw [List.map_map]
    rfl
  unfold addrCis
  rw [htids, List.map_flatMap]
  refine List.flatMap_congr fun p _ => ?_
  rw [pairCis, pairCis, List.map_append, ofTid_retime, ofTid_retime, scan_retime, scan_retime]

/-- The candidates of a log, with the order of its addresses. -/
def predicted (order : List ℕ) (log : List Trace) : List CI := order.flatMap fun a => addrCis (ofAddr log a)

theorem predicted_retime (order : List ℕ) (log : List Trace) :
    predicted order (log.map (Trace.retime k)) = (predicted order log).map (CI.retime k) := by
  rw [predicted, predicted, List.map_flatMap]
  refine List.flatMap_congr fun a _ => ?_
  rw [ofAddr_retime, addrCis_retime]

end Candidates

/-! ## The sections -/

theorem closeBy_retime (cs : CS) (rest : List LockTrace) :
    closeBy (cs.retime k) (rest.map (LockTrace.retime k)) = (closeBy cs rest).retime k := by
  have hfind : (rest.map (LockTrace.retime k)).find? (unlocks cs.tid cs.lEv) =
      (rest.find? (unlocks cs.tid cs.lEv)).map (LockTrace.retime k) := by
    rw [List.find?_map]
    rfl
  unfold closeBy
  rw [show (cs.retime k).tid = cs.tid from rfl, show (cs.retime k).lEv = cs.lEv from rfl, hfind]
  cases rest.find? (unlocks cs.tid cs.lEv) with
  | none => rfl
  | some u => rfl

theorem sections_retime (locks : List LockTrace) :
    sections (locks.map (LockTrace.retime k)) = (sections locks).map (CS.retime k) := by
  induction locks with
  | nil => rfl
  | cons r rest ih =>
    have hopen : openCS (r.retime k) = (openCS r).retime k := by
      simp [openCS, LockTrace.retime, CS.retime, k.zero]
    rw [List.map_cons, sections, sections, ih, hopen, closeBy_retime]
    by_cases hr : r.op = opLock
    · rw [if_pos (show (r.retime k).op = opLock from hr), if_pos hr, List.map_cons]
    · rw [if_neg (show ¬ (r.retime k).op = opLock from hr), if_neg hr]

/-! ## The pruner -/

section Pruner

variable {css : List CS} {syncs : List Sync} {ci : CI}

theorem inSection_retime (x : Trace) (cs : CS) : inSection (x.retime k) (cs.retime k) = inSection x cs := by
  simp [inSection, Trace.retime, CS.retime]

theorem sameSection_retime (x y : Trace) (cs : CS) :
    sameSection (x.retime k) (y.retime k) (cs.retime k) = sameSection x y cs := by
  simp [sameSection, Trace.retime, CS.retime]

theorem lockFound_retime (css : List CS) (ci : CI) :
    lockFound (css.map (CS.retime k)) (ci.retime k) = lockFound css ci := by
  have hentry : ∀ cs : CS, (cs.retime k).lEv = cs.lEv := fun _ => rfl
  simp only [lockFound, List.any_map, Function.comp_def, CI.retime, sameSection_retime, inSection_retime, hentry]

theorem fciSync_retime (ci : CI) (syn : Sync) : fciSync (ci.retime k) (syn.retime k) = fciSync ci syn := by
  simp [fciSync, CI.retime, Trace.retime, Sync.retime]

theorem bciSync_retime (ci : CI) (syn : Sync) : bciSync (ci.retime k) (syn.retime k) = bciSync ci syn := by
  simp [bciSync, CI.retime, Trace.retime, Sync.retime]

theorem attachCs_retime (re : Result) (cs : CS) :
    attachCs (re.retime k) (cs.retime k) = (attachCs re cs).retime k := by
  have hcs : ∀ (b : Bool) (o : Option CS), (if b then some (cs.retime k) else o.map (CS.retime k)) =
      (if b then some cs else o).map (CS.retime k) := by
    intro b o
    cases b <;> rfl
  unfold attachCs
  simp only [Result.retime, inSection_retime, hcs]

theorem saveResult_retime (css : List CS) (ci : CI) :
    saveResult (css.map (CS.retime k)) (ci.retime k) = (saveResult css ci).retime k := by
  have hstart : (⟨(ci.retime k).first, (ci.retime k).second, (ci.retime k).inter, none, none, none⟩ : Result) =
      Result.retime k ⟨ci.first, ci.second, ci.inter, none, none, none⟩ := rfl
  rw [saveResult, saveResult, List.foldl_map, hstart]
  exact List.foldl_hom (Result.retime k) attachCs_retime

theorem pruneCi_retime (css : List CS) (syncs : List Sync) (ci : CI) :
    pruneCi (css.map (CS.retime k)) (syncs.map (Sync.retime k)) (ci.retime k) =
      (pruneCi css syncs ci).map (List.map (Result.retime k)) := by
  have hfci : (syncs.map (Sync.retime k)).find? (fciSync (ci.retime k)) =
      (syncs.find? (fciSync ci)).map (Sync.retime k) := by
    rw [List.find?_map]
    exact congrArg _ (congrArg (List.find? · syncs) (funext fun syn => fciSync_retime ci syn))
  have hbci : (syncs.map (Sync.retime k)).find? (bciSync (ci.retime k)) =
      (syncs.find? (bciSync ci)).map (Sync.retime k) := by
    rw [List.find?_map]
    exact congrArg _ (congrArg (List.find? · syncs) (funext fun syn => bciSync_retime ci syn))
  unfold pruneCi
  rw [lockFound_retime, saveResult_retime, hfci, hbci]
  simp only [CI.retime, Trace.retime, Clock.lt_iff, gt_iff_lt]
  split_ifs
  · rfl
  · rfl
  · cases syncs.find? (fciSync ci) with
    | none => rfl
    | some syn => rw [printName_sync]; rfl
  · cases syncs.find? (bciSync ci) with
    | none => rfl
    | some syn => rw [printName_sync]; rfl
  · rfl

theorem pruner_retime (css : List CS) (syncs : List Sync) (cis : List CI) :
    pruner (css.map (CS.retime k)) (syncs.map (Sync.retime k)) (cis.map (CI.retime k)) =
      (pruner css syncs cis).map (List.map (Result.retime k)) :=
  appendAll_hom (pruneCi_retime css syncs) cis

end Pruner

/-! ## The groups -/

section Groups

variable {s : GroupState} {e new ci : Entry} {group : List Entry} {re : Result}

theorem commonSections_retime (re : Result) :
    commonSections (re.retime k) =
      (commonSections re).map fun c => (c.1.retime k, c.2.1.retime k, c.2.2.retime k) := by
  obtain ⟨first, second, inter, f, s, i⟩ := re
  cases f with
  | none => rfl
  | some f =>
    cases s with
    | none => rfl
    | some s =>
      cases i with
      | none => rfl
      | some i =>
        simp only [commonSections, Result.retime, Option.map_some, CS.retime]
        split_ifs <;> rfl

theorem identifierEntry_retime (re : Result) : identifierEntry (re.retime k) = (identifierEntry re).retime k := by
  unfold identifierEntry
  rw [commonSections_retime]
  cases commonSections re with
  | none => rfl
  | some c => rfl

theorem sameIntervals_retime : sameIntervals (new.retime k) (ci.retime k) = sameIntervals new ci := by
  simp [sameIntervals, Entry.retime]

theorem beginsAfter_retime : beginsAfter (new.retime k) (ci.retime k) = beginsAfter new ci := by
  simp [beginsAfter, Entry.retime]

theorem endsBefore_retime : endsBefore (new.retime k) (ci.retime k) = endsBefore new ci := by
  simp [endsBefore, Entry.retime]

theorem scanGroup_retime (new : Entry) (group : List Entry) :
    scanGroup (new.retime k) (group.map (Entry.retime k)) = scanGroup new group := by
  induction group with
  | nil => rfl
  | cons ci group ih =>
    rw [List.map_cons, scanGroup, scanGroup, sameIntervals_retime, beginsAfter_retime, endsBefore_retime, ih]

theorem chooseGroup_retime (groupSet : List (List Entry)) (new : Entry) (is : List ℕ) (best : Option (ℕ × ℕ)) :
    chooseGroup (groupSet.map (List.map (Entry.retime k))) (new.retime k) is best =
      chooseGroup groupSet new is best := by
  induction is generalizing best with
  | nil => rfl
  | cons i is ih =>
    rw [chooseGroup, chooseGroup, List.getElem?_map]
    cases groupSet[i]? with
    | none => rfl
    | some group =>
      simp only [Option.map_some, scanGroup_retime, List.length_map]
      cases scanGroup new group with
      | duplicate => rfl
      | interfere => exact ih best
      | free => exact ih _

theorem startGroup_retime (s : GroupState) (new : Entry) :
    (s.retime k).startGroup (new.retime k) = (s.startGroup new).retime k := by
  simp [GroupState.startGroup, GroupState.retime]

theorem place_retime (s : GroupState) (new : Entry) :
    (s.retime k).place (new.retime k) = (s.place new).map (Option.map (GroupState.retime k)) := by
  have hchoose : chooseGroup (s.retime k).groupSet (new.retime k) (List.range (s.retime k).groupNum) none =
      chooseGroup s.groupSet new (List.range s.groupNum) none :=
    chooseGroup_retime s.groupSet new _ none
  unfold GroupState.place
  rw [startGroup_retime, hchoose]
  by_cases hnum : s.groupNum = 0
  · rw [if_pos hnum, if_pos (show (s.retime k).groupNum = 0 from hnum)]
    rfl
  · rw [if_neg hnum, if_neg (show ¬ (s.retime k).groupNum = 0 from hnum)]
    match chooseGroup s.groupSet new (List.range s.groupNum) none with
    | .error e => rfl
    | .ok none => rfl
    | .ok (some none) => rfl
    | .ok (some (some (insertId, l))) =>
      have hget : (s.retime k).groupSet[insertId]? = (s.groupSet[insertId]?).map (List.map (Entry.retime k)) :=
        List.getElem?_map
      simp only [bind, Except.bind]
      rw [hget]
      cases s.groupSet[insertId]? with
      | none => rfl
      | some group =>
        simp only [Option.map_some, Except.map, GroupState.retime, List.map_set, List.map_append, List.map_cons,
          List.map_nil]

theorem start_retime (e : Entry) : (e.retime k).start = k.time e.start := rfl

theorem insertMiddle_retime (x : Entry) (l : List Entry) :
    insertMiddle (x.retime k) (l.map (Entry.retime k)) = (insertMiddle x l).map (Entry.retime k) := by
  induction l with
  | nil => rfl
  | cons a l ih =>
    cases l with
    | nil => rfl
    | cons b l =>
      rw [List.map_cons, List.map_cons, insertMiddle, insertMiddle, start_retime, start_retime, start_retime]
      simp only [gt_iff_lt, Clock.lt_iff]
      split_ifs
      · rfl
      · rw [← List.map_cons, ih]
        rfl

theorem sortInsert_retime (sortedList : List Entry) (xj : Entry × ℕ) :
    sortInsert (sortedList.map (Entry.retime k)) (xj.map (Entry.retime k) id) =
      (sortInsert sortedList xj).map (List.map (Entry.retime k)) := by
  obtain ⟨x, j⟩ := xj
  match j, sortedList with
  | 0, l => simp [sortInsert, Except.map]
  | _ + 1, [] => rfl
  | 1, s0 :: rest =>
    simp only [sortInsert, Prod.map_apply, id, List.map_cons, start_retime, Clock.lt_iff, Except.map]
    split_ifs <;> simp
  | j + 2, s0 :: rest =>
    have hlast : (rest.map (Entry.retime k)).getLastD (s0.retime k) = (rest.getLastD s0).retime k := by
      rw [List.getLastD_eq_getLast?, List.getLastD_eq_getLast?, List.getLast?_map, Option.getD_map]
    have hmiddle := insertMiddle_retime (k := k) x (s0 :: rest)
    rw [List.map_cons] at hmiddle
    simp only [sortInsert, Prod.map_apply, id, List.map_cons, start_retime,
      hlast, gt_iff_lt, Clock.lt_iff, Except.map,
      hmiddle]
    split_ifs <;> simp

theorem sortGroup_retime (group : List Entry) :
    sortGroup (group.map (Entry.retime k)) = (sortGroup group).map (List.map (Entry.retime k)) := by
  rw [sortGroup, sortGroup, List.zipIdx_map]
  exact foldlM_hom sortInsert_retime [] group.zipIdx

theorem writeGroup_retime (s : GroupState) (i : ℕ) :
    writeGroup (s.retime k) i = (writeGroup s i).map (GroupState.retime k) := by
  have hget : (s.retime k).groupSet[i]? = (s.groupSet[i]?).map (List.map (Entry.retime k)) := List.getElem?_map
  unfold writeGroup
  rw [hget]
  cases s.groupSet[i]? with
  | none => rfl
  | some originList =>
    simp only [Option.map_some, List.length_map, sortGroup_retime]
    by_cases hlen : originList.length < 1
    · rw [if_pos hlen, if_pos hlen]
      rfl
    · rw [if_neg hlen, if_neg hlen]
      cases sortGroup originList with
      | error e => rfl
      | ok sortedList =>
        have hmsg : (sortedList.map (Entry.retime k)).flatMap Entry.msg = sortedList.flatMap Entry.msg := by
          rw [List.flatMap_map]
          rfl
        simp only [Except.map, bind, Except.bind, List.length_map, hmsg]
        split_ifs <;> rfl

theorem call_retime (s : GroupState) (e : Entry) :
    (s.retime k).call (e.retime k) = (s.call e).map (GroupState.retime k) := by
  have hentry : ∀ e : Entry, (⟨e.firstInterval, e.secondInterval, e.interInterval, e.msg⟩ : Entry) = e := fun _ => rfl
  unfold GroupState.call grouper
  rw [hentry, hentry, place_retime]
  cases s.place e with
  | error err => rfl
  | ok placed =>
    cases placed with
    | none => rfl
    | some s' =>
      have hwrite := foldlM_hom (f := GroupState.retime k) (g := id) writeGroup_retime s' (List.range s'.groupNum)
      rw [List.map_id] at hwrite
      exact hwrite

theorem findIdentifier_retime (s : GroupState) (results : List Result) :
    findIdentifier (s.retime k) (results.map (Result.retime k)) =
      (findIdentifier s results).map (GroupState.retime k) := by
  refine foldlM_hom (fun s re => ?_) s results
  rw [identifierEntry_retime]
  exact call_retime s (identifierEntry re)

end Groups

/-! ## The whole run -/

/-- The run after the loaders, with the order of the addresses. -/
def analyseLoaded (order : List ℕ) (log : List Trace) (css : List CS) (syncs : List Sync) : Except PyErr GroupState :=
  pruner css syncs (predicted order log) >>= findIdentifier .init

/-- What the run relies on: ops `READ` or `WRITE`, increasing times, no lock record at time `0`. -/
structure TracesOk (log : List Trace) (locks : List LockTrace) : Prop where
  ops : OpsOk log
  times : TimesIncrease log
  nonzero : ∀ r ∈ locks, r.time ≠ 0

theorem tracesOk_retime {log : List Trace} {locks : List LockTrace} :
    TracesOk (log.map (Trace.retime k)) (locks.map (LockTrace.retime k)) ↔ TracesOk log locks := by
  have hops : OpsOk (log.map (Trace.retime k)) ↔ OpsOk log := List.forall_mem_map
  have htimes : TimesIncrease (log.map (Trace.retime k)) ↔ TimesIncrease log := by
    unfold TimesIncrease
    rw [List.pairwise_map]
    simp only [Trace.retime, Clock.lt_iff]
  have hnonzero : (∀ r ∈ locks.map (LockTrace.retime k), r.time ≠ 0) ↔ ∀ r ∈ locks, r.time ≠ 0 := by
    rw [List.forall_mem_map]
    simp only [LockTrace.retime, ne_eq, Clock.eq_zero_iff]
  exact ⟨fun h => ⟨hops.mp h.ops, htimes.mp h.times, hnonzero.mp h.nonzero⟩,
    fun h => ⟨hops.mpr h.ops, htimes.mpr h.times, hnonzero.mpr h.nonzero⟩⟩

/-- The number of groups, and the files. -/
def GroupState.written (s : GroupState) : ℕ × (ℕ → Option (List Char)) := (s.groupNum, s.files)

/-- **The analysis commutes with a change of the clock.** -/
theorem analyseLoaded_retime (order : List ℕ) (log : List Trace) (locks : List LockTrace) (syncs : List Sync) :
    analyseLoaded order (log.map (Trace.retime k))
      (sections (locks.map (LockTrace.retime k))) (syncs.map (Sync.retime k)) =
      (analyseLoaded order log (sections locks) syncs).map (GroupState.retime k) := by
  have hinit : GroupState.init = GroupState.init.retime k := rfl
  rw [analyseLoaded, analyseLoaded, predicted_retime, sections_retime, pruner_retime]
  cases pruner (sections locks) syncs (predicted order log) with
  | error e => rfl
  | ok results =>
    show findIdentifier .init (results.map (Result.retime k)) = (findIdentifier .init results).map _
    conv_lhs => rw [hinit]
    exact findIdentifier_retime .init results

/-- The files do not change. -/
theorem written_retime (r : Except PyErr GroupState) :
    (r.map (GroupState.retime k)).map GroupState.written = r.map GroupState.written := by
  cases r with
  | error e => rfl
  | ok s => rfl

end Clock

/-- The times of two runs in pairs, with that of an open section. -/
def timePairs (log log' : List MemRef) (locks locks' : List LockRef) (syncs syncs' : List Sync) : List (ℕ × ℕ) :=
  (0, 0) :: ((log.map fun r => r.ts.toNat).zip (log'.map fun r => r.ts.toNat) ++
    ((locks.map fun r => r.ts.toNat).zip (locks'.map fun r => r.ts.toNat) ++
      (syncs.map Sync.time).zip (syncs'.map Sync.time)))

/-- Logs with the same records except for the times, and the times in the same order. -/
structure SameButTimes (log log' : List MemRef) (locks locks' : List LockRef) (syncs syncs' : List Sync) : Prop where
  mem : log.map (fun r => { r with ts := 0 }) = log'.map fun r => { r with ts := 0 }
  lock : locks.map (fun r => { r with ts := 0 }) = locks'.map fun r => { r with ts := 0 }
  sync : syncs.map (fun syn => { syn with time := 0 }) = syncs'.map fun syn => { syn with time := 0 }
  order : SameOrder (timePairs log log' locks locks' syncs syncs')

section Same

variable {log log' : List MemRef} {locks locks' : List LockRef} {enum enum' : MemTrace → List ℕ}
  {syncLog syncLog' : List UInt8} {syncs syncs' : List Sync} {mt mt' : MemTrace}

/-- Logs in the same order are one log under two clocks. -/
theorem SameButTimes.exists_clocks (h : SameButTimes log log' locks locks' syncs syncs') :
    ∃ (k k' : Clock) (ts : List Trace) (rs : List LockTrace) (syns : List Sync),
      (ts.map (Trace.retime k) = log.map traceOf ∧ ts.map (Trace.retime k') = log'.map traceOf) ∧
      (rs.map (LockTrace.retime k) = locks.map lockOf ∧ rs.map (LockTrace.retime k') = locks'.map lockOf) ∧
      syns.map (Sync.retime k) = syncs ∧ syns.map (Sync.retime k') = syncs' := by
  obtain ⟨rank, g, g', hg, hg', hranks⟩ := exists_ranks h.order
  obtain ⟨⟨h0, h0'⟩, hpairs⟩ := List.forall_mem_cons.mp hranks
  obtain ⟨hmem, hlock, hsync⟩ := (List.forall_mem_append.mp hpairs).imp_right List.forall_mem_append.mp
  have hzero : ∀ {f : ℕ → ℕ}, StrictMono f → f (rank 0) = 0 → f 0 = 0 := by
    intro f hf hrank
    have hle := hf.monotone (Nat.zero_le (rank 0))
    omega
  have hmem' := congrArg (List.map traceOf) h.mem
  have hlock' := congrArg (List.map lockOf) h.lock
  rw [List.map_map, List.map_map] at hmem' hlock'
  obtain ⟨ts, hts⟩ := @exists_ranked Trace Trace.time (fun n x => { x with time := n }) (fun _ _ => rfl)
    (fun _ _ _ => rfl) (fun _ => rfl) rank g g' (log.map traceOf) (log'.map traceOf)
    (by rw [List.map_map, List.map_map]; exact hmem') (by rw [List.map_map, List.map_map]; exact hmem)
  obtain ⟨rs, hrs⟩ := @exists_ranked LockTrace LockTrace.time (fun n x => { x with time := n }) (fun _ _ => rfl)
    (fun _ _ _ => rfl) (fun _ => rfl) rank g g' (locks.map lockOf) (locks'.map lockOf)
    (by rw [List.map_map, List.map_map]; exact hlock') (by rw [List.map_map, List.map_map]; exact hlock)
  obtain ⟨syns, hsyns⟩ := @exists_ranked Sync Sync.time (fun n x => { x with time := n }) (fun _ _ => rfl)
    (fun _ _ _ => rfl) (fun _ => rfl) rank g g' syncs syncs' h.sync hsync
  exact ⟨⟨g, hg, hzero hg h0⟩, ⟨g', hg', hzero hg' h0'⟩, ts, rs, syns, hts, hrs, hsyns⟩

theorem tracesOk_of_logsOk (h : LogsOk log locks) : TracesOk (log.map traceOf) (locks.map lockOf) := by
  refine ⟨h.ops, timesIncrease_of_timeOrdered h.times, ?_⟩
  rw [List.forall_mem_map]
  exact fun r hr hzero => h.nonzero r hr (UInt64.toNat_inj.mp hzero)

/-- The run is the one after the loaders. -/
theorem analyse_eq_loaded (h : TracesOk (log.map traceOf) (locks.map lockOf)) (henum : DictOrder enum)
    (hsync : loadSyncTraces syncLog = .ok syncs) (hload : loadMemTraces (memFile log) = .ok mt) :
    analyse enum (memFile log) (lockFile locks) syncLog =
      analyseLoaded (enum mt) (log.map traceOf) (sections (locks.map lockOf)) syncs := by
  have hnonzero : ∀ r ∈ locks, r.ts ≠ 0 := by
    rintro r hr hzero
    exact h.nonzero _ (List.mem_map_of_mem hr) (congrArg UInt64.toNat hzero)
  rw [analyse, hload, loadLockTraces_sections hnonzero, hsync]
  show (predictor (enum mt) mt >>= _) = _
  rw [predictor_eq (memRep_of_load hload) h.ops h.times (henum mt)]
  rfl

/-- **Only the order of the times matters.**  Two analyses of logs whose records are the same but for the
times, with all times in the same order, that go through the addresses in the same order, end with the same
exception, or with the same number of groups and the same files. -/
theorem analyse_sameOrder (hlogs : LogsOk log locks) (henum : DictOrder enum) (henum' : DictOrder enum')
    (hsync : loadSyncTraces syncLog = .ok syncs) (hsync' : loadSyncTraces syncLog' = .ok syncs')
    (hsame : SameButTimes log log' locks locks' syncs syncs')
    (horder : ∀ mt mt', loadMemTraces (memFile log) = .ok mt → loadMemTraces (memFile log') = .ok mt' →
      enum mt = enum' mt') :
    (analyse enum (memFile log) (lockFile locks) syncLog).map GroupState.written =
      (analyse enum' (memFile log') (lockFile locks') syncLog').map GroupState.written := by
  obtain ⟨mt, hload, -⟩ := loadMemTraces_rep log
  obtain ⟨mt', hload', -⟩ := loadMemTraces_rep log'
  obtain ⟨k, k', ts, rs, syns, ⟨hts, hts'⟩, ⟨hrs, hrs'⟩, rfl, rfl⟩ := hsame.exists_clocks
  have hok := tracesOk_of_logsOk hlogs
  have hok' : TracesOk (log'.map traceOf) (locks'.map lockOf) := by
    rw [← hts, ← hrs, tracesOk_retime] at hok
    rw [← hts', ← hrs', tracesOk_retime]
    exact hok
  rw [analyse_eq_loaded hok henum hsync hload,
    analyse_eq_loaded hok' henum' hsync' hload', horder mt mt' hload hload',
    ← hts, ← hts', ← hrs, ← hrs', analyseLoaded_retime, analyseLoaded_retime, written_retime, written_retime]

end Same

/-- The accesses and locks of `sectionMem` and `sectionLocks` on a clock that is 2^40 ahead and goes three
times as fast. -/
def laterMem : List MemRef := sectionMem.map fun r => { r with ts := 0x10000000000 + 3 * r.ts }

def laterLocks : List LockRef := sectionLocks.map fun r => { r with ts := 0x10000000000 + 3 * r.ts }

theorem analyse_sameOrder_later :
    (analyse (fun mt => mt.keys) (memFile sectionMem) (lockFile sectionLocks) []).map GroupState.written =
      (analyse (fun mt => mt.keys) (memFile laterMem) (lockFile laterLocks) []).map GroupState.written := by
  have hnil : loadSyncTraces [] = .ok [] := rfl
  refine analyse_sameOrder logsOk_section dictOrder_keys dictOrder_keys hnil hnil
    ⟨by decide, by decide, rfl, by decide⟩ ?_
  intro mt mt' hload hload'
  rw [loadMemTraces_memFile] at hload hload'
  rw [← Except.ok.inj hload, ← Except.ok.inj hload']
  decide

/-! ## The times of the sync log -/

section Late

variable {log : List MemRef} {enum : MemTrace → List ℕ} {syncLog : List UInt8} {syncs : List Sync} {css : List CS}
  {ci : CI}

/-- The loader reads the low half of a time stamp. -/
theorem time_lt_of_load (hsync : loadSyncTraces syncLog = .ok syncs) : ∀ syn ∈ syncs, syn.time < 2 ^ 32 := by
  by_cases hwhole : 16 ∣ syncLog.length
  · obtain ⟨recs, rfl, -⟩ := loadSyncTraces_reads.log syncLog hwhole
    obtain rfl := Except.ok.inj ((loadSyncTraces_reads.whole recs).symm.trans hsync)
    rw [List.forall_mem_map]
    exact fun r _ => Nat.mod_lt _ (by decide)
  · exact absurd ((loadSyncTraces_reads.broken syncLog hwhole).symm.trans hsync) (by simp)

/-- Records before all accesses restrict nothing. -/
theorem pruneCi_late (hsyncs : ∀ syn ∈ syncs, syn.time < 2 ^ 32) (hsecond : 2 ^ 32 ≤ ci.second.time)
    (hinter : 2 ^ 32 ≤ ci.inter.time) : pruneCi css syncs ci = pruneCi css [] ci := by
  have hfci : syncs.find? (fciSync ci) = none := by
    rw [List.find?_eq_none]
    intro syn hsyn
    have hlt := hsyncs syn hsyn
    simp only [fciSync, decide_eq_true_eq]
    omega
  have hbci : syncs.find? (bciSync ci) = none := by
    rw [List.find?_eq_none]
    intro syn hsyn
    have hlt := hsyncs syn hsyn
    simp only [bciSync, decide_eq_true_eq]
    omega
  unfold pruneCi
  rw [hfci, hbci]
  rfl

theorem pruner_late {mt : MemTrace} {order : List ℕ} {cis : List CI} (hsyncs : ∀ syn ∈ syncs, syn.time < 2 ^ 32)
    (hlate : ∀ r ∈ log, 2 ^ 32 ≤ r.ts.toNat) (hload : loadMemTraces (memFile log) = .ok mt)
    (hpred : predictor order mt = .ok cis) : pruner css syncs cis = pruner css [] cis := by
  have htimes : ∀ x ∈ log.map traceOf, 2 ^ 32 ≤ x.time := by
    rw [List.forall_mem_map]
    exact hlate
  refine appendAll_congr fun ci hci => ?_
  have hc := candidate_of_predictor (memRep_of_load hload) hpred hci
  exact pruneCi_late hsyncs (htimes _ hc.next.right_mem) (htimes _ hc.mem)

/-- **Late runs ignore the sync log.**  If every recorded access is at 2^32 or later, any sync log that can be
loaded has the effect of an empty one, and the analysis of logs as the monitor writes them returns. -/
theorem sync_log_ignored (hlate : ∀ r ∈ log, 2 ^ 32 ≤ r.ts.toNat) (hsync : loadSyncTraces syncLog = .ok syncs) :
    (∀ lockLog, analyse enum (memFile log) lockLog syncLog = analyse enum (memFile log) lockLog []) ∧
      ∀ locks, LogsOk log locks → DictOrder enum →
        ∃ s, analyse enum (memFile log) (lockFile locks) syncLog = .ok s := by
  have hsame : ∀ lockLog, analyse enum (memFile log) lockLog syncLog = analyse enum (memFile log) lockLog [] := by
    intro lockLog
    have hnil : loadSyncTraces [] = .ok [] := rfl
    obtain ⟨mt, hload, -⟩ := loadMemTraces_rep log
    rw [analyse, analyse, hload, hsync, hnil]
    show (loadLockTraces lockLog >>= _) = (loadLockTraces lockLog >>= _)
    cases loadLockTraces lockLog with
    | error e => rfl
    | ok css =>
      show (predictor (enum mt) mt >>= _) = (predictor (enum mt) mt >>= _)
      cases hpred : predictor (enum mt) mt with
      | error e => rfl
      | ok cis =>
        show (pruner css syncs cis >>= _) = (pruner css [] cis >>= _)
        rw [pruner_late (time_lt_of_load hsync) hlate hload hpred]
  refine ⟨hsame, fun locks hlogs henum => ?_⟩
  obtain ⟨s, hs⟩ := analyse_ok_nil hlogs henum
  exact ⟨s, (hsame _).trans hs⟩

end Late

/-- The barrier of `sectionSyncs` stops the analysis of `sectionMem`; at the same place in `laterMem` it does
not. -/
def laterSyncs : List SyncRef := sectionSyncs.map fun r => { r with ts := 0x10000000000 + 3 * r.ts }

theorem sync_log_ignored_later :
    (∀ lockLog, analyse (fun mt => mt.keys) (memFile laterMem) lockLog (fwrite SyncRef.bytes laterSyncs) =
        analyse (fun mt => mt.keys) (memFile laterMem) lockLog []) ∧
      ∀ locks, LogsOk laterMem locks → DictOrder (fun mt => mt.keys) →
        ∃ s, analyse (fun mt => mt.keys) (memFile laterMem)
          (lockFile locks) (fwrite SyncRef.bytes laterSyncs) = .ok s :=
  sync_log_ignored (by decide) (loadSyncTraces_fwrite laterSyncs)

end Offline
end AVPredictor
