import AVPredictor.Base.Runs
import AVPredictor.Controller.Replay

/-!
# AVPredictor.Controller.ReplayRuns — runs of the controller's callbacks

A run is a sequence of turns: a thread that is not delayed makes a call, or a delayed thread wakes
up.  `Loads` says of a call that its callback reaches `load_next_ci`; every other turn leaves the
arrays, the cursor and the registers as they are (`call_frame`, `wake_frame`).

`Watch` adds what an observer writes down: what each call of `load_next_ci` returned and which
candidate was current after it, and for a delayed thread how many of these calls there had been when
its delay began.  `replay_safe`: the flags stay in order, `assert(false)` is not reached, and
`load_next_ci` runs only when nobody is delayed.
-/

namespace AVPredictor
namespace Controller

open Base

/-! ## Turns -/

/-- A thread makes a call, or a delayed thread wakes up. -/
inductive Turn where
  | call (tid : UInt32) (k : Call)
  | wake (tid : UInt32)
deriving DecidableEq, Repr

def Replay.turn (s : Replay) : Turn → Option Replay
  | .call tid k => s.call tid k
  | .wake tid => s.wake tid

/-- The callback of the call runs `load_next_ci`. -/
def Ctl.Loads (c : Ctl) : Call → Prop
  | .mem _ _ => c.isLockedType = false ∧ c.flags = (true, true, true)
  | .lock _ => False
  | .unlock _ => c.isLockedType = true ∧ c.flags = (true, true, true)

instance (c : Ctl) (k : Call) : Decidable (c.Loads k) :=
  match k with
  | .mem _ _ => inferInstanceAs (Decidable (_ ∧ _))
  | .lock _ => inferInstanceAs (Decidable False)
  | .unlock _ => inferInstanceAs (Decidable (_ ∧ _))

/-! ## The current candidate -/

/-- A candidate as the registers hold it: its type, and for each role the tid and the two arguments
that belong to the type. -/
structure Ci where
  isLockedType : Bool
  first : UInt32 × UInt32 × UInt32
  second : UInt32 × UInt32 × UInt32
  inter : UInt32 × UInt32 × UInt32
deriving DecidableEq, Repr

/-- The tid of a role with its call sites, or with its instruction and address. -/
def Role.args (isLockedType : Bool) (r : Role) : UInt32 × UInt32 × UInt32 :=
  if isLockedType then (r.tid, r.lock, r.unlock) else (r.tid, r.inst, r.addr)

/-- The current candidate. -/
def Ctl.ci (c : Ctl) : Ci :=
  ⟨c.isLockedType, c.first.args c.isLockedType, c.second.args c.isLockedType, c.inter.args c.isLockedType⟩

/-- The candidate of a row of the arrays. -/
def Line.ci (l : Line) : Ci :=
  ⟨l.type ≠ 0, (l.firstId, l.firstArg1, l.firstArg2), (l.secondId, l.secondArg1, l.secondArg2),
    (l.interId, l.interArg1, l.interArg2)⟩

/-- Nothing that only `load_next_ci` changes is different. -/
structure SameCi (c c' : Ctl) : Prop where
  cells : c'.cells = c.cells
  ciCount : c'.ciCount = c.ciCount
  curCi : c'.curCi = c.curCi
  ci : c'.ci = c.ci

theorem SameCi.trans {c c' c'' : Ctl} (h : SameCi c c') (h' : SameCi c' c'') : SameCi c c'' :=
  ⟨h'.cells.trans h.cells, h'.ciCount.trans h.ciCount, h'.curCi.trans h.curCi, h'.ci.trans h.ci⟩

theorem ReplayInv.turn {s s' : Replay} (h : ReplayInv s) {a : Turn} (hturn : s.turn a = some s') :
    ReplayInv s' := by
  cases a with
  | call tid k => exact h.call hturn
  | wake tid => exact h.wake hturn

theorem replayInv_run {lines : List Line} {turns : List Turn} {s : Replay}
    (hrun : run Replay.turn (.start lines) turns = some s) : ReplayInv s :=
  run_invariant (fun _ _ _ h hturn => h.turn hturn) (replayInv_start lines) hrun

section Frame

variable {c : Ctl} {tid : UInt32} {k : Call}

/-- `load_next_ci` with a candidate left makes it current. -/
theorem loadNextCi_next (hmax : c.curCi + 1 ≠ maxSize) (hleft : c.curCi < c.ciCount) :
    c.loadNextCi.2 = 1 ∧ c.loadNextCi.1.ci = (c.cells c.curCi).ci ∧ c.loadNextCi.1.curCi = c.curCi + 1 := by
  unfold Ctl.loadNextCi
  simp only [if_neg hmax, if_neg (Nat.not_le.mpr hleft)]
  by_cases htype : (c.cells c.curCi).type = 0
  · simp [htype, Ctl.ci, Line.ci, Role.args]
  · simp [htype, Ctl.ci, Line.ci, Role.args]

/-- Otherwise it only resets the flags. -/
theorem loadNextCi_none (h : c.curCi + 1 = maxSize ∨ c.ciCount ≤ c.curCi) :
    c.loadNextCi = ({ c with firstReady := false, interReady := false, secondReady := false }, 0) := by
  unfold Ctl.loadNextCi
  simp only
  split_ifs with h1 h2
  · rfl
  · rfl
  · exact absurd h (by omega)
  · exact absurd h (by omega)

theorem loadNextCi_cells (c : Ctl) :
    c.loadNextCi.1.cells = c.cells ∧ c.loadNextCi.1.ciCount = c.ciCount := by
  unfold Ctl.loadNextCi
  simp only
  split_ifs
  · exact ⟨rfl, rfl⟩
  · exact ⟨rfl, rfl⟩
  · exact ⟨rfl, rfl⟩
  · exact ⟨rfl, rfl⟩

theorem call_loads (h : c.Loads k) : c.call tid k = (c.loadNextCi.1, .done) := by
  cases k with
  | mem ip addr =>
    obtain ⟨hl, hf⟩ := h
    simp only [Ctl.flags, Prod.mk.injEq] at hf
    simp [Ctl.call, Ctl.beforeMemAccess, hl, hf.1, hf.2.1, hf.2.2]
  | lock callsiteV => exact h.elim
  | unlock callsiteV =>
    obtain ⟨hl, hf⟩ := h
    simp only [Ctl.flags, Prod.mk.injEq] at hf
    simp [Ctl.call, Ctl.beforeThreadUnLock, hl, hf.1, hf.2.1, hf.2.2]

/-- A call that does not load leaves the candidate as it is. -/
theorem call_frame (h : ¬ c.Loads k) : SameCi c (c.call tid k).1 := by
  cases k with
  | mem ip addr =>
    show SameCi c (c.beforeMemAccess ip addr tid).1
    unfold Ctl.beforeMemAccess
    split
    · exact ⟨rfl, rfl, rfl, rfl⟩
    · rename_i hl
      split
      · split_ifs <;> exact ⟨rfl, rfl, rfl, rfl⟩
      · split_ifs <;> exact ⟨rfl, rfl, rfl, rfl⟩
      · split_ifs <;> exact ⟨rfl, rfl, rfl, rfl⟩
      · rename_i h1 h2 h3
        exact absurd ⟨by simpa using hl, by simp [Ctl.flags, h1, h2, h3]⟩ h
      · exact ⟨rfl, rfl, rfl, rfl⟩
  | lock callsiteV =>
    show SameCi c (c.beforeThreadLock tid callsiteV).1
    unfold Ctl.beforeThreadLock
    split
    · exact ⟨rfl, rfl, rfl, rfl⟩
    · split
      · split_ifs <;> exact ⟨rfl, rfl, rfl, rfl⟩
      · split_ifs <;> exact ⟨rfl, rfl, rfl, rfl⟩
      · exact ⟨rfl, rfl, rfl, rfl⟩
  | unlock callsiteV =>
    show SameCi c (c.beforeThreadUnLock tid callsiteV).1
    unfold Ctl.beforeThreadUnLock
    split
    · exact ⟨rfl, rfl, rfl, rfl⟩
    · rename_i hl
      split
      · split_ifs <;> exact ⟨rfl, rfl, rfl, rfl⟩
      · split_ifs <;> exact ⟨rfl, rfl, rfl, rfl⟩
      · split_ifs <;> exact ⟨rfl, rfl, rfl, rfl⟩
      · rename_i h1 h2 h3
        exact absurd ⟨by simpa using hl, by simp [Ctl.flags, h1, h2, h3]⟩ h
      · exact ⟨rfl, rfl, rfl, rfl⟩

/-- A wake-up leaves the candidate as it is. -/
theorem wake_frame (c : Ctl) (d : Delay) : SameCi c (c.wake d).1 := by
  unfold Ctl.wake
  cases d with
  | memInter ip addr => simp only; split_ifs <;> exact ⟨rfl, rfl, rfl, rfl⟩
  | memSecond ip addr => simp only; split_ifs <;> exact ⟨rfl, rfl, rfl, rfl⟩
  | lockInter callsiteV => simp only; split_ifs <;> exact ⟨rfl, rfl, rfl, rfl⟩
  | lockSecond callsiteV => simp only; split_ifs <;> exact ⟨rfl, rfl, rfl, rfl⟩

/-- With all three flags set, a call that does not load does nothing. -/
theorem call_complete (h : c.flags = (true, true, true)) (hload : ¬ c.Loads k) :
    (c.call tid k).1 = c := by
  obtain ⟨ciCount, curCi, cells, locked, first, second, inter, b1, b2, b3, n⟩ := c
  obtain ⟨rfl, rfl, rfl⟩ : b1 = true ∧ b2 = true ∧ b3 = true := by simpa [Ctl.flags] using h
  cases k with
  | mem ip addr =>
    cases locked with
    | true => rfl
    | false => exact absurd ⟨rfl, rfl⟩ hload
  | lock callsiteV => cases locked <;> rfl
  | unlock callsiteV =>
    cases locked with
    | true => exact absurd ⟨rfl, rfl⟩ hload
    | false => rfl

/-! The marks in their order. -/

theorem call_marks_first (h : c.flags = (false, false, false)) (hm : c.Marks c.first tid k) :
    c.call tid k = ({ c with firstReady := true }, .done) := by
  obtain ⟨ciCount, curCi, cells, locked, first, second, inter, b1, b2, b3, n⟩ := c
  obtain ⟨rfl, rfl, rfl⟩ : b1 = false ∧ b2 = false ∧ b3 = false := by simpa [Ctl.flags] using h
  cases k with
  | mem ip addr =>
    obtain ⟨rfl, rfl, rfl, rfl⟩ := hm
    simp [Ctl.call, Ctl.beforeMemAccess, Role.isAccess]
  | lock callsiteV => exact hm.elim
  | unlock callsiteV =>
    obtain ⟨rfl, rfl, rfl⟩ := hm
    simp [Ctl.call, Ctl.beforeThreadUnLock]

theorem call_marks_inter (h : c.flags = (true, false, false)) (hm : c.Marks c.inter tid k) :
    c.call tid k = ({ c with interReady := true }, .done) := by
  obtain ⟨ciCount, curCi, cells, locked, first, second, inter, b1, b2, b3, n⟩ := c
  obtain ⟨rfl, rfl, rfl⟩ : b1 = true ∧ b2 = false ∧ b3 = false := by simpa [Ctl.flags] using h
  cases k with
  | mem ip addr =>
    obtain ⟨rfl, rfl, rfl, rfl⟩ := hm
    simp [Ctl.call, Ctl.beforeMemAccess, Role.isAccess]
  | lock callsiteV => exact hm.elim
  | unlock callsiteV =>
    obtain ⟨rfl, rfl, rfl⟩ := hm
    simp [Ctl.call, Ctl.beforeThreadUnLock]

theorem call_marks_second (h : c.flags = (true, true, false)) (hm : c.Marks c.second tid k) :
    c.call tid k = ({ c with secondReady := true }, .done) := by
  obtain ⟨ciCount, curCi, cells, locked, first, second, inter, b1, b2, b3, n⟩ := c
  obtain ⟨rfl, rfl, rfl⟩ : b1 = true ∧ b2 = true ∧ b3 = false := by simpa [Ctl.flags] using h
  cases k with
  | mem ip addr =>
    obtain ⟨rfl, rfl, rfl, rfl⟩ := hm
    simp [Ctl.call, Ctl.beforeMemAccess, Role.isAccess]
  | lock callsiteV => exact hm.elim
  | unlock callsiteV =>
    obtain ⟨rfl, rfl, rfl⟩ := hm
    simp [Ctl.call, Ctl.beforeThreadUnLock]

/-- With the flags in order a callback returns or goes to sleep. -/
theorem call_ret (hflags : c.FlagsOk) (tid : UInt32) (k : Call) :
    (c.call tid k).2 = .done ∨ ∃ d, (c.call tid k).2 = .sleep d := by
  obtain ⟨ciCount, curCi, cells, locked, first, second, inter, b1, b2, b3, n⟩ := c
  cases k with
  | mem ip addr =>
    show (Ctl.beforeMemAccess _ ip addr tid).2 = _ ∨ ∃ d, (Ctl.beforeMemAccess _ ip addr tid).2 = .sleep d
    unfold Ctl.beforeMemAccess
    cases locked <;> cases b1 <;> cases b2 <;> cases b3 <;> simp [Ctl.FlagsOk] at hflags ⊢
    · split_ifs <;> simp
    · split_ifs <;> simp
    · split_ifs <;> simp
  | lock callsiteV =>
    show (Ctl.beforeThreadLock _ tid callsiteV).2 = _ ∨ ∃ d, (Ctl.beforeThreadLock _ tid callsiteV).2 = .sleep d
    unfold Ctl.beforeThreadLock
    cases locked <;> cases b1 <;> cases b2 <;> cases b3 <;> simp
    · split_ifs <;> simp
    · split_ifs <;> simp
  | unlock callsiteV =>
    show (Ctl.beforeThreadUnLock _ tid callsiteV).2 = _ ∨ _
    unfold Ctl.beforeThreadUnLock
    cases locked <;> cases b1 <;> cases b2 <;> cases b3 <;> simp
    · split_ifs <;> simp
    · split_ifs <;> simp
    · split_ifs <;> simp

theorem wake_ne_abort (c : Ctl) (d : Delay) : (c.wake d).2 ≠ .abort := by
  unfold Ctl.wake
  cases d with
  | memInter ip addr => simp only; split_ifs <;> simp
  | memSecond ip addr => simp only; split_ifs <;> simp
  | lockInter callsiteV => simp only; split_ifs <;> simp
  | lockSecond callsiteV => simp only; split_ifs <;> simp

end Frame

/-! ## Runs with an observer -/

/-- A replay and what the observer writes down. -/
structure Watch where
  replay : Replay
  /-- what each call of `load_next_ci` returned, and the candidate that was current after it -/
  loaded : List (ℕ × Ci)
  /-- how many of these calls there had been when the thread's last call began -/
  since : UInt32 → ℕ

def Watch.start (lines : List Line) : Watch :=
  { replay := .start lines
    loaded := [((Ctl.loaded lines).loadNextCi.2, (Ctl.loaded lines).loadNextCi.1.ci)]
    since := fun _ => 0 }

/-- A turn of the replay, with the entries of the observer.  No turn depends on them. -/
def Watch.turn (w : Watch) : Turn → Option Watch
  | .call tid k => (w.replay.call tid k).map fun r =>
      { replay := r
        loaded := if w.replay.ctl.Loads k then
            w.loaded ++ [(w.replay.ctl.loadNextCi.2, w.replay.ctl.loadNextCi.1.ci)]
          else w.loaded
        since := Function.update w.since tid w.loaded.length }
  | .wake tid => (w.replay.wake tid).map fun r => { w with replay := r }

theorem turn_replay (w : Watch) (a : Turn) : (w.turn a).map Watch.replay = w.replay.turn a := by
  cases a with
  | call tid k =>
    show ((w.replay.call tid k).map _).map _ = w.replay.call tid k
    rw [Option.map_map]
    exact Option.map_id'
  | wake tid =>
    show ((w.replay.wake tid).map _).map _ = w.replay.wake tid
    rw [Option.map_map]
    exact Option.map_id'

/-- The observer changes nothing: the observed runs are the runs of the replay. -/
theorem run_replay (w : Watch) (turns : List Turn) :
    (run Watch.turn w turns).map Watch.replay = run Replay.turn w.replay turns :=
  run_map turn_replay w turns

/-- What the turns can do, one case for each kind. -/
inductive Turned (w : Watch) : Turn → Watch → Prop
  | load {tid : UInt32} {k : Call} (hrun : w.replay.status = .running)
      (hd : w.replay.delayed tid = none) (hload : w.replay.ctl.Loads k) :
      Turned w (.call tid k)
        { replay := w.replay.finish tid (w.replay.ctl.loadNextCi.1, .done)
          loaded := w.loaded ++ [(w.replay.ctl.loadNextCi.2, w.replay.ctl.loadNextCi.1.ci)]
          since := Function.update w.since tid w.loaded.length }
  | call {tid : UInt32} {k : Call} (hrun : w.replay.status = .running)
      (hd : w.replay.delayed tid = none) (hload : ¬ w.replay.ctl.Loads k) :
      Turned w (.call tid k)
        { replay := w.replay.finish tid (w.replay.ctl.call tid k)
          loaded := w.loaded
          since := Function.update w.since tid w.loaded.length }
  | wake {tid : UInt32} {d : Delay} (hrun : w.replay.status = .running)
      (hd : w.replay.delayed tid = some d) :
      Turned w (.wake tid) { w with replay := w.replay.finish tid (w.replay.ctl.wake d) }

/-- The invariant of observed runs: who is delayed has been so since the last `load_next_ci`. -/
structure WatchInv (w : Watch) : Prop where
  replay : ReplayInv w.replay
  noAbort : w.replay.status ≠ .aborted
  since : ∀ t d, w.replay.delayed t = some d → w.since t = w.loaded.length

section Watch

variable {w w' : Watch} {a : Turn} {lines : List Line} {turns : List Turn}

theorem turned_of_turn (h : w.turn a = some w') : Turned w a w' := by
  cases a with
  | call tid k =>
    obtain ⟨r, hcall, rfl⟩ := Option.map_eq_some_iff.mp h
    obtain ⟨hrun, hd, rfl⟩ := replay_call hcall
    by_cases hload : w.replay.ctl.Loads k
    · rw [if_pos hload, call_loads hload]
      exact .load hrun hd hload
    · rw [if_neg hload]
      exact .call hrun hd hload
  | wake tid =>
    obtain ⟨r, hwake, rfl⟩ := Option.map_eq_some_iff.mp h
    obtain ⟨d, hrun, hd, rfl⟩ := replay_wake hwake
    exact .wake hrun hd

/-- **Nobody waits when all three flags are set**: whoever is delayed waits for one of them. -/
theorem ReplayInv.nobody_delayed {s : Replay} (h : ReplayInv s) (hflags : s.ctl.flags = (true, true, true))
    (t : UInt32) : s.delayed t = none := by
  rw [Option.eq_none_iff_forall_ne_some]
  intro d hd
  exact not_waits_of_flags hflags (h.waits t d hd)

theorem Ctl.Loads.flags {c : Ctl} {k : Call} (h : c.Loads k) : c.flags = (true, true, true) := by
  cases k with
  | mem ip addr => exact h.2
  | lock callsiteV => exact h.elim
  | unlock callsiteV => exact h.2

/-- A callback does not stop the program. -/
theorem finish_call_status {s : Replay} (hflags : s.ctl.FlagsOk) (tid : UInt32) (k : Call) :
    (s.finish tid (s.ctl.call tid k)).status = .running := by
  show (s.ctl.call tid k).2.status = .running
  rcases call_ret hflags tid k with h | ⟨d, h⟩
  · rw [h]
    rfl
  · rw [h]
    rfl

theorem finish_loads {s : Replay} {tid : UInt32} {k : Call} (hload : s.ctl.Loads k) :
    (s.finish tid (s.ctl.call tid k)).ctl = s.ctl.loadNextCi.1 :=
  congrArg Prod.fst (call_loads hload)

theorem status_ne_aborted {r : Ret} (h : r ≠ .abort) : r.status ≠ .aborted := by
  cases r <;> simp_all [Ret.status]

theorem watchInv_start (lines : List Line) : WatchInv (.start lines) :=
  ⟨replayInv_start lines, fun h => (nomatch h), fun _ _ h => (nomatch h)⟩

theorem WatchInv.turn (h : WatchInv w) (hturn : w.turn a = some w') : WatchInv w' := by
  cases turned_of_turn hturn with
  | @load tid k hrun hd hload =>
    have hspec : Spec w.replay.ctl tid k (w.replay.ctl.call tid k) := call_spec
    rw [call_loads hload] at hspec
    refine ⟨h.replay.finish hspec, fun habort => (nomatch habort), ?_⟩
    intro t d ht
    have hnone : (w.replay.finish tid (w.replay.ctl.loadNextCi.1, .done)).delayed t = none :=
      finish_undelayed (h.replay.nobody_delayed hload.flags) rfl t
    exact absurd (hnone.symm.trans ht) (by simp)
  | @call tid k hrun hd hload =>
    refine ⟨h.replay.finish call_spec, by rw [finish_call_status h.replay.flags]; simp, ?_⟩
    intro t d ht
    by_cases htid : t = tid
    · subst htid
      exact Function.update_self _ _ _
    · exact (Function.update_of_ne htid _ _).trans
        (h.since t d ((Function.update_of_ne htid _ _).symm.trans ht))
  | @wake tid d hrun hd =>
    refine ⟨h.replay.finish (wake_spec (h.replay.waits tid d hd)), status_ne_aborted (wake_ne_abort _ _), ?_⟩
    intro t d' ht
    by_cases htid : t = tid
    · subst htid
      exact h.since t d hd
    · exact h.since t d' ((Function.update_of_ne htid _ _).symm.trans ht)

theorem watchInv_run (hrun : run Watch.turn (.start lines) turns = some w) : WatchInv w :=
  run_invariant (fun _ _ _ h hturn => h.turn hturn) (watchInv_start lines) hrun

end Watch

/-- **The flags are safe.**  In every state of every run the flags are in order and `assert(false)`
has not been reached; a turn that runs `load_next_ci` finds nobody delayed; and a delayed thread that
wakes up sets a flag only while the candidate is current for which it was delayed: `load_next_ci`
has not run since, and does not run now. -/
theorem replay_safe {lines : List Line} {turns : List Turn} {w : Watch}
    (hrun : run Watch.turn (.start lines) turns = some w) :
    w.replay.ctl.FlagsOk ∧ w.replay.status ≠ .aborted ∧
      (∀ tid k w', w.turn (.call tid k) = some w' → w.loaded ≠ w'.loaded →
        ∀ t, w.replay.delayed t = none) ∧
      (∀ tid w', w.turn (.wake tid) = some w' →
        w'.loaded = w.loaded ∧ w.since tid = w.loaded.length ∧ SameCi w.replay.ctl w'.replay.ctl) := by
  have hinv := watchInv_run hrun
  refine ⟨hinv.replay.flags, hinv.noAbort, ?_, ?_⟩
  · intro tid k w' hturn hne
    cases turned_of_turn hturn with
    | load _ _ hload => exact hinv.replay.nobody_delayed hload.flags
    | call _ _ _ => exact absurd rfl hne
  · intro tid w' hturn
    cases turned_of_turn hturn with
    | @wake _ d _ hd => exact ⟨rfl, hinv.since tid d hd, wake_frame _ d⟩

/-- Accesses of threads 1 and 2 to one word. -/
def accessLine : Line :=
  { type := 0
    firstId := 1, firstArg1 := 0x8048100, firstArg2 := 64
    secondId := 1, secondArg1 := 0x8048200, secondArg2 := 64
    interId := 2, interArg1 := 0x8048300, interArg2 := 64 }

/-- The candidate is completed: First, Inter, Second. -/
def completeTurns : List Turn :=
  [.call 1 (.mem 0x8048100 64), .call 2 (.mem 0x8048300 64), .call 1 (.mem 0x8048200 64)]

/-- Inter comes first and is delayed; the candidate is completed and the next one loaded. -/
def accessTurns : List Turn :=
  [.call 2 (.mem 0x8048300 64), .call 1 (.mem 0x8048100 64), .wake 2, .call 1 (.mem 0x8048200 64),
    .call 3 (.mem 0x8048400 68)]

theorem accessTurns_isSome :
    (run Watch.turn (.start [accessLine, accessLine]) accessTurns).isSome = true := by
  decide

theorem replay_safe_access :
    ((run Watch.turn (.start [accessLine, accessLine]) accessTurns).get accessTurns_isSome).loaded =
        [(1, accessLine.ci), (1, accessLine.ci)] ∧
      ((run Watch.turn (.start [accessLine, accessLine]) accessTurns).get
        accessTurns_isSome).replay.ctl.FlagsOk :=
  ⟨by decide, (replay_safe (Option.some_get accessTurns_isSome).symm).1⟩

end Controller
end AVPredictor
