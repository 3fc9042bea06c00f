import AVPredictor.Base.Windows
import AVPredictor.Feasible.Report

/-!
# AVPredictor.Feasible.Groups — the lines of a group do not contradict each other

The controller replays the lines of one file one after another in a single run of the program, so the
orders of their steps must agree with each other and with the order of each thread.  `grouper` keeps the
intervals of two lines of a group apart, and the file is in their order, so each line has a window of time
of its own (`lineWindow_before`).
Inside it First's steps, Inter's steps and Second's steps can be put in this order: First and Second
are in order by themselves (`cut_lt`) and Inter is of another thread.

`group_schedulable`: the whole file has one order of the run's events that keeps each thread's own
order and has the steps of its lines one line after another.  The mutexes have no part in it: the program
need not be able to run in this order.
-/

namespace AVPredictor
namespace Feasible

open Base Offline

/-- The records of a closed section. -/
structure Bounds (locks : List LockTrace) (cs : CS) (l u : LockTrace) : Prop where
  lock_mem : l ∈ locks
  unlock_mem : u ∈ locks
  lock_op : l.op = opLock
  unlock_op : u.op ≠ opLock
  lock_tid : l.tid = cs.tid
  unlock_tid : u.tid = cs.tid
  lock_mutex : l.entryV = cs.lEv
  unlock_mutex : u.entryV = cs.lEv
  lock_time : l.time = cs.stime
  unlock_time : u.time = cs.ftime

/-- What the controller orders for one access of a line: the access, or with a section the lock, the
access and the unlock. -/
def Steps (locks : List LockTrace) (x : Trace) : Option CS → List Ev → Prop
  | none, es => es = [.access x]
  | some cs, es => ∃ l u, Bounds locks cs l u ∧ es = [.lock l, .access x, .lock u]

/-- The section of first that a line of type 1 names. -/
def firstSection (re : Result) : Option CS := (commonSections re).map fun c => c.1

def secondSection (re : Result) : Option CS := (commonSections re).map fun c => c.2.1

def interSection (re : Result) : Option CS := (commonSections re).map fun c => c.2.2

/-- The steps of a line in the order of the replay: First's, Inter's, Second's. -/
def LineSteps (locks : List LockTrace) (re : Result) (es : List Ev) : Prop :=
  ∃ es₁ es₂ es₃, Steps locks re.first (firstSection re) es₁ ∧ Steps locks re.inter (interSection re) es₂ ∧
    Steps locks re.second (secondSection re) es₃ ∧ es = es₁ ++ (es₂ ++ es₃)

/-- The interval that `grouper` is given for an access. -/
def stepInterval (x : Trace) : Option CS → Interval
  | none => (x.time, x.time)
  | some cs => (cs.stime, cs.ftime)

/-! ## The steps of an access -/

/-- The events of a run. -/
def runEvents (mem : List Trace) (locks : List LockTrace) : List Ev := mem.map Ev.access ++ locks.map Ev.lock

/-- An access of the log, in the section that its line names. -/
structure InSection (mem : List Trace) (locks : List LockTrace) (x : Trace) (o : Option CS) : Prop where
  mem : x ∈ mem
  around : ∀ cs, o = some cs → cs ∈ sections locks ∧ Encloses cs x

section Steps

variable {mem : List Trace} {locks : List LockTrace} {x : Trace} {o : Option CS} {cs : CS}

theorem exists_bounds (h : cs ∈ sections locks) (hf : cs.ftime ≠ 0) : ∃ l u, Bounds locks cs l u := by
  obtain ⟨⟨l, hl, hlop, hlt, hlm, hltime, -⟩, u, hu, huop, hut, hum, hutime, -⟩ := closedIn_of_mem h hf
  exact ⟨l, u, hl, hu, hlop, huop, hlt, hut, hlm, hum, hltime, hutime⟩

/-- The steps of an access are events of the run, of its thread, in its interval, in order. -/
theorem exists_steps (h : InSection mem locks x o) :
    ∃ es, Steps locks x o es ∧ (∀ e ∈ es, e ∈ runEvents mem locks) ∧
      (∀ e ∈ es, e.tid = x.tid ∧ (stepInterval x o).1 ≤ e.time ∧ e.time ≤ (stepInterval x o).2) ∧
      es.Pairwise (Ev.time · < Ev.time ·) := by
  have haccess : Ev.access x ∈ runEvents mem locks := List.mem_append_left _ (List.mem_map_of_mem h.mem)
  cases o with
  | none => exact ⟨[.access x], rfl, by simpa using haccess, by simp [Ev.tid, Ev.time, stepInterval], by simp⟩
  | some cs =>
    obtain ⟨hcs, htid, hstart, hfinish⟩ := h.around cs rfl
    obtain ⟨l, u, hb⟩ := exists_bounds hcs (by omega)
    have hlt := hb.lock_time
    have hut := hb.unlock_time
    have hlock : ∀ r ∈ locks, Ev.lock r ∈ runEvents mem locks := fun r hr =>
      List.mem_append_right _ (List.mem_map_of_mem hr)
    refine ⟨[.lock l, .access x, .lock u], ⟨l, u, hb, rfl⟩, ?_, ?_, ?_⟩
    · simp only [List.forall_mem_cons]
      exact ⟨hlock l hb.lock_mem, haccess, hlock u hb.unlock_mem, by simp⟩
    · simp only [List.forall_mem_cons, Ev.tid, Ev.time, stepInterval, hb.lock_tid, hb.unlock_tid]
      refine ⟨⟨htid, ?_, ?_⟩, ⟨trivial, ?_, ?_⟩, ⟨htid, ?_, ?_⟩, by simp⟩ <;> omega
    · simp only [List.pairwise_cons, List.forall_mem_cons, Ev.time]
      refine ⟨⟨?_, ?_, by simp⟩, ⟨?_, by simp⟩, by simp⟩ <;> omega

end Steps

/-! ## The window of a line -/

/-- The times of a line, with the end of First's steps. -/
def lineWindow (re : Result) : Window ℕ :=
  let e := identifierEntry re
  { thread := re.first.tid
    start := min e.firstInterval.1 (min e.secondInterval.1 e.interInterval.1)
    cut := e.firstInterval.2
    finish := max e.firstInterval.2 (max e.secondInterval.2 e.interInterval.2) }

/-- What `pruner` and `find_identifier` leave to the controller. -/
structure Replayable (mem : List Trace) (locks : List LockTrace) (re : Result) : Prop where
  first : InSection mem locks re.first (firstSection re)
  second : InSection mem locks re.second (secondSection re)
  inter : InSection mem locks re.inter (interSection re)
  tid : re.second.tid = re.first.tid
  inter_tid : re.inter.tid ≠ re.first.tid
  in_order : (identifierEntry re).firstInterval.2 < (identifierEntry re).secondInterval.1

section LineWindow

variable {mem : List Trace} {locks : List LockTrace} {re re' : Result}

theorem lineWindow_before (h : EndsBefore (identifierEntry re) (identifierEntry re')) :
    (lineWindow re).Before (lineWindow re') := by
  simp only [EndsBefore, Entry.intervals, List.forall_mem_cons] at h
  show max _ _ < min _ _
  omega

theorem lineWindow_wf (h : (identifierEntry re).WellFormed) : (lineWindow re).start ≤ (lineWindow re).finish := by
  have hfirst : (identifierEntry re).firstInterval.1 ≤ (identifierEntry re).firstInterval.2 :=
    h _ (by simp [Entry.intervals])
  show min _ _ ≤ max _ _
  omega

/-- The intervals of the entry are those of its accesses. -/
theorem intervals_identifierEntry (re : Result) :
    (identifierEntry re).firstInterval = stepInterval re.first (firstSection re) ∧
      (identifierEntry re).secondInterval = stepInterval re.second (secondSection re) ∧
      (identifierEntry re).interInterval = stepInterval re.inter (interSection re) := by
  unfold firstSection secondSection interSection
  cases hc : commonSections re with
  | none =>
    have hkey := key_of_accesses hc
    exact ⟨congrArg Prod.fst hkey, congrArg (fun k => k.2.1) hkey, congrArg (fun k => k.2.2) hkey⟩
  | some c =>
    obtain ⟨f, s, i⟩ := c
    have hkey := key_of_sections hc
    exact ⟨congrArg Prod.fst hkey, congrArg (fun k => k.2.1) hkey, congrArg (fun k => k.2.2) hkey⟩

/-- A line of type 0 names no section, and First comes before Second. -/
theorem replayable_of_accesses (hc : commonSections re = none) (hci : Violation mem re.candidate)
    (htime : re.first.time < re.second.time) : Replayable mem locks re := by
  obtain ⟨hfirst, hsecond, -⟩ := intervals_identifierEntry re
  have hf : firstSection re = none := by rw [firstSection, hc]; rfl
  have hs : secondSection re = none := by rw [secondSection, hc]; rfl
  have hi : interSection re = none := by rw [interSection, hc]; rfl
  rw [hf] at hfirst
  rw [hs] at hsecond
  refine ⟨?_, ?_, ?_, hci.next.tid_eq, hci.tid, ?_⟩
  · exact hf ▸ ⟨hci.next.left_mem, by simp⟩
  · exact hs ▸ ⟨hci.next.right_mem, by simp⟩
  · exact hi ▸ ⟨hci.mem, by simp⟩
  · rwa [hfirst, hsecond]

/-- A line of type 1 names three sections, and First's is over before Second's begins. -/
theorem replayable_of_sections {f s i : CS} (hc : commonSections re = some (f, s, i))
    (htimes : TimeOrdered LockTrace.tid LockTrace.time locks)
    (hapart : ∀ x ∈ mem, ∀ r ∈ locks, x.tid = r.tid → x.time ≠ r.time) (hatt : Attached (sections locks) re)
    (hci : Violation mem re.candidate) (htime : re.first.time < re.second.time)
    (hfound : lockFound (sections locks) re.candidate = false) : Replayable mem locks re := by
  obtain ⟨hfirst, hsecond, -⟩ := intervals_identifierEntry re
  have hf : firstSection re = some f := by rw [firstSection, hc]; rfl
  have hs : secondSection re = some s := by rw [secondSection, hc]; rfl
  have hi : interSection re = some i := by rw [interSection, hc]; rfl
  rw [hf] at hfirst
  rw [hs] at hsecond
  obtain ⟨hfcs, hscs, hics, hfs, hfi⟩ := commonSections_eq_some hc
  obtain ⟨hfmem, hfin⟩ := hatt.first f hfcs
  obtain ⟨hsmem, hsin⟩ := hatt.second s hscs
  obtain ⟨himem, hiin⟩ := hatt.inter i hics
  rw [inSection_iff_encloses] at hfin hsin hiin
  have hcand : Candidate mem re.candidate := ⟨hci.next, hci.mem, hci.addr, hci.tid, htime⟩
  refine ⟨?_, ?_, ?_, hci.next.tid_eq, hci.tid, ?_⟩
  · rw [hf]
    exact ⟨hci.next.left_mem, fun cs hcs => Option.some.inj hcs ▸ ⟨hfmem, hfin⟩⟩
  · rw [hs]
    exact ⟨hci.next.right_mem, fun cs hcs => Option.some.inj hcs ▸ ⟨hsmem, hsin⟩⟩
  · rw [hi]
    exact ⟨hci.mem, fun cs hcs => Option.some.inj hcs ▸ ⟨himem, hiin⟩⟩
  · rw [hfirst, hsecond]
    exact ftime_lt_stime htimes hapart hcand hfound hfmem hfin hsmem hsin himem hiin hfs hfi

/-- Every reported result is replayable. -/
theorem replayable_of_reported (htimes : TimeOrdered LockTrace.tid LockTrace.time locks)
    (hapart : ∀ x ∈ mem, ∀ r ∈ locks, x.tid = r.tid → x.time ≠ r.time) (hmem : TimesIncrease mem)
    (h : Reported mem (sections locks) re) : Replayable mem locks re := by
  obtain ⟨ci, hci, hfound, rfl⟩ := h
  obtain ⟨hatt, h1, h2, h3⟩ := saveResult_attached (sections locks) ci
  have htime := rel_of_consecutive (hmem.accesses _ _) (nextAccess_iff.mp hci.next)
  have hcand : (saveResult (sections locks) ci).candidate = ci := by rw [Result.candidate, h1, h2, h3]
  rw [← hcand] at hci hfound
  rw [← h1, ← h2] at htime
  cases hc : commonSections (saveResult (sections locks) ci) with
  | none => exact replayable_of_accesses hc hci htime
  | some c =>
    obtain ⟨f, s, i⟩ := c
    exact replayable_of_sections hc htimes hapart hatt hci htime hfound

/-- The steps of a replayable line exist, and come in order in its window. -/
theorem Replayable.exists_lineSteps (h : Replayable mem locks re) :
    ∃ es, LineSteps locks re es ∧ InOrder Ev.tid Ev.time (lineWindow re) es ∧
      ∀ e ∈ es, e ∈ runEvents mem locks := by
  obtain ⟨hfirst, hsecond, hinter⟩ := intervals_identifierEntry re
  obtain ⟨es₁, hsteps₁, hmem₁, hin₁, hord₁⟩ := exists_steps h.first
  obtain ⟨es₂, hsteps₂, hmem₂, hin₂, hord₂⟩ := exists_steps h.inter
  obtain ⟨es₃, hsteps₃, hmem₃, hin₃, hord₃⟩ := exists_steps h.second
  rw [← hfirst] at hin₁
  rw [← hinter] at hin₂
  rw [← hsecond] at hin₃
  refine ⟨_, ⟨es₁, es₂, es₃, hsteps₁, hsteps₂, hsteps₃, rfl⟩, ?_, ?_⟩
  · refine inOrder_parts (w := lineWindow re) h.inter_tid ?_ ?_ (fun e he => (hin₂ e he).1) ?_ hord₁ hord₂ hord₃
    · rw [List.forall_mem_append, List.forall_mem_append]
      simp only [lineWindow]
      refine ⟨fun e he => ?_, fun e he => ?_, fun e he => ?_⟩
      · obtain ⟨-, hs, hf⟩ := hin₁ e he
        omega
      · obtain ⟨-, hs, hf⟩ := hin₂ e he
        omega
      · obtain ⟨-, hs, hf⟩ := hin₃ e he
        omega
    · intro e he
      obtain ⟨htid, -, hf⟩ := hin₁ e he
      exact ⟨htid, hf⟩
    · intro e he
      obtain ⟨htid, hs, -⟩ := hin₃ e he
      exact ⟨htid.trans h.tid, h.in_order.trans_le hs⟩
  · rw [List.forall_mem_append, List.forall_mem_append]
    exact ⟨hmem₁, hmem₂, hmem₃⟩

end LineWindow

/-! ## The lines of a file -/

section Group

variable {mem : List Trace} {locks : List LockTrace} {rs : List Result}

/-- The recorded run in the order of its times. -/
theorem timeOrdered_runEvents (hmem : TimeOrdered Trace.tid Trace.time mem)
    (hlocks : TimeOrdered LockTrace.tid LockTrace.time locks)
    (hapart : ∀ x ∈ mem, ∀ r ∈ locks, x.tid = r.tid → x.time ≠ r.time) :
    TimeOrdered Ev.tid Ev.time (sortByKey Ev.time (runEvents mem locks)) := by
  refine timeOrdered_sortByKey (List.pairwise_append.mpr ⟨?_, ?_, ?_⟩)
  · exact List.pairwise_map.mpr (hmem.imp fun hab htid => (hab htid).ne)
  · exact List.pairwise_map.mpr (hlocks.imp fun hab htid => (hab htid).ne)
  · intro a ha b hb htid
    obtain ⟨x, hx, rfl⟩ := List.mem_map.mp ha
    obtain ⟨r, hr, rfl⟩ := List.mem_map.mp hb
    exact hapart x hx r hr htid

/-- Replayable lines, each over before the next one begins. -/
theorem exists_schedule (hmem : TimeOrdered Trace.tid Trace.time mem)
    (hlocks : TimeOrdered LockTrace.tid LockTrace.time locks)
    (hapart : ∀ x ∈ mem, ∀ r ∈ locks, x.tid = r.tid → x.time ≠ r.time) (hrs : ∀ re ∈ rs, Replayable mem locks re)
    (hwf : ∀ re ∈ rs, (identifierEntry re).WellFormed) (hsep : (rs.map identifierEntry).Pairwise EndsBefore) :
    ∃ (steps : List (List Ev)) (σ : List Ev), List.Forall₂ (LineSteps locks) rs steps ∧
      σ.Perm (runEvents mem locks) ∧ TimeOrdered Ev.tid Ev.time σ ∧ steps.flatten.Sublist σ := by
  obtain ⟨blocks, hwindows, hsteps, hin⟩ : ∃ blocks : List (Window ℕ × List Ev),
      blocks.map Prod.fst = rs.map lineWindow ∧ List.Forall₂ (LineSteps locks) rs (blocks.map Prod.snd) ∧
        ∀ b ∈ blocks, InOrder Ev.tid Ev.time b.1 b.2 ∧ ∀ e ∈ b.2, e ∈ runEvents mem locks := by
    clear hwf hsep
    induction rs with
    | nil => exact ⟨[], rfl, .nil, by simp⟩
    | cons re rs ih =>
      obtain ⟨hre, hrs⟩ := List.forall_mem_cons.mp hrs
      obtain ⟨blocks, hwindows, hsteps, hin⟩ := ih hrs
      obtain ⟨es, hes, hord, hmem⟩ := hre.exists_lineSteps
      refine ⟨(lineWindow re, es) :: blocks, ?_, .cons hes hsteps, List.forall_mem_cons.mpr ⟨⟨hord, hmem⟩, hin⟩⟩
      rw [List.map_cons, List.map_cons, hwindows]
  have hρ := timeOrdered_runEvents hmem hlocks hapart
  have hperm : (sortByKey Ev.time (runEvents mem locks)).Perm (runEvents mem locks) := List.mergeSort_perm _ _
  have hbefore : (blocks.map Prod.fst).Pairwise Window.Before := by
    rw [hwindows]
    exact List.pairwise_map.mpr ((List.pairwise_map.mp hsep).imp lineWindow_before)
  have hbounds : ∀ w ∈ blocks.map Prod.fst, w.start ≤ w.finish := by
    rw [hwindows, List.forall_mem_map]
    exact fun re hre => lineWindow_wf (hwf re hre)
  obtain ⟨σ, hkeeps, hsub⟩ := exists_windows hρ hbefore hbounds (fun b hb => (hin b hb).1)
    fun b hb e he => hperm.mem_iff.mpr ((hin b hb).2 e he)
  refine ⟨blocks.map Prod.snd, σ, hsteps, hkeeps.perm.trans hperm, hkeeps.timeOrdered hρ, ?_⟩
  rwa [← List.flatMap_def]

end Group

/-- **The lines of a group agree**: for every group file that an analysis has written there is one order of
the run's accesses, locks and unlocks that keeps each thread's own order and has, line after line in the
order of the file, the steps of First, of Inter and of Second.  It need not keep the mutexes safe. -/
theorem group_schedulable {memLog : List MemRef} {lockLog : List LockRef} {enum : MemTrace → List ℕ}
    {syncLog : List UInt8} {s : GroupState} (hlogs : LogsOk memLog lockLog)
    (hlockTimes : TimeOrdered LockTrace.tid LockTrace.time (lockLog.map lockOf))
    (hapart : ∀ x ∈ memLog.map traceOf, ∀ r ∈ lockLog.map lockOf, x.tid = r.tid → x.time ≠ r.time)
    (henum : DictOrder enum) (hok : analyse enum (memFile memLog) (lockFile lockLog) syncLog = .ok s) :
    ∀ i < s.groupNum, ∃ rs : List Result,
      s.files i = some (rs.flatMap Result.line) ∧
        (∀ re ∈ rs, Reported (memLog.map traceOf) (sections (lockLog.map lockOf)) re) ∧
        ∃ (steps : List (List Ev)) (σ : List Ev), List.Forall₂ (LineSteps (lockLog.map lockOf)) rs steps ∧
          σ.Perm (runEvents (memLog.map traceOf) (lockLog.map lockOf)) ∧ TimeOrdered Ev.tid Ev.time σ ∧
          steps.flatten.Sublist σ := by
  intro i hi
  obtain ⟨results, hres, hwf, h, hf⟩ := analyse_groups hlogs henum hok
  obtain ⟨rs, hrs, -, hsep, hfile⟩ := file_results h hf hwf hi
  have hmem : TimeOrdered Trace.tid Trace.time (memLog.map traceOf) :=
    List.pairwise_map.mpr (hlogs.times.imp fun hab htid => hab (UInt32.toNat_inj.mp htid))
  have htimes : TimesIncrease (memLog.map traceOf) := hmem.imp fun hab _ htid => hab htid
  have hreported : ∀ re ∈ rs, Reported (memLog.map traceOf) (sections (lockLog.map lockOf)) re :=
    fun re hre => (hres re).mp (hrs re hre)
  refine ⟨rs, hfile, hreported, ?_⟩
  exact exists_schedule hmem hlockTimes hapart
    (fun re hre => replayable_of_reported hlockTimes hapart htimes (hreported re hre))
    (fun re hre => hwf re (hrs re hre)) hsep

theorem group_schedulable_section :
    ∃ s, analyse (fun mt => mt.keys) (memFile sectionMem) (lockFile sectionLocks) [] = .ok s ∧
      ∀ i < s.groupNum, ∃ rs : List Result,
        s.files i = some (rs.flatMap Result.line) ∧
          (∀ re ∈ rs, Reported (sectionMem.map traceOf) (sections (sectionLocks.map lockOf)) re) ∧
          ∃ (steps : List (List Ev)) (σ : List Ev), List.Forall₂ (LineSteps (sectionLocks.map lockOf)) rs steps ∧
            σ.Perm (runEvents (sectionMem.map traceOf) (sectionLocks.map lockOf)) ∧
            TimeOrdered Ev.tid Ev.time σ ∧ steps.flatten.Sublist σ := by
  obtain ⟨s, hok⟩ := analyse_ok_nil logsOk_section dictOrder_keys
  exact ⟨s, hok, group_schedulable logsOk_section (by decide) (by decide) dictOrder_keys hok⟩

end Feasible
end AVPredictor
