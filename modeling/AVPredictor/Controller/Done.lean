import AVPredictor.Controller.ReplayRuns

/-!
# AVPredictor.Controller.Done — the controller after its last candidate

`load_next_ci` resets the three flags before it decides whether a candidate is left, and nobody
looks at what it returns.  So after the last candidate the registers still hold it, with fresh flags:
its Inter is delayed again before its First, its Second after its First and before its Inter
(`HoldsBack`, `call_delay_iff`).  The callbacks stay quiet in exactly the runs in which no such call
is made (`quiet_iff`).
-/

namespace AVPredictor
namespace Controller

open Base

/-! ## The calls that are delayed -/

/-- The call enters role `r`: its access in a type 0 candidate, its lock in a type 1 candidate. -/
def Ctl.Enters (c : Ctl) (r : Role) (tid : UInt32) : Call → Prop
  | .mem ip addr => c.isLockedType = false ∧ tid = r.tid ∧ ip = r.inst ∧ addr = r.addr
  | .lock callsiteV => c.isLockedType = true ∧ tid = r.tid ∧ callsiteV = r.lock
  | .unlock _ => False

/-- The call would enter Inter before First is marked, or Second after First and before Inter. -/
def Ctl.HoldsBack (c : Ctl) (tid : UInt32) (k : Call) : Prop :=
  c.flags = (false, false, false) ∧ c.Enters c.inter tid k ∧ ¬ c.Marks c.first tid k ∨
    c.flags = (true, false, false) ∧ c.Enters c.second tid k ∧ ¬ c.Marks c.inter tid k

/-- The thread of a turn. -/
def Turn.tid : Turn → UInt32
  | .call tid _ => tid
  | .wake tid => tid

/-- The callback of the turn neither delays its thread nor ends the program with `exit(0)`. -/
def Quiet (s : Replay) (a : Turn) : Prop :=
  ∀ s', s.turn a = some s' → s'.delayed a.tid = none ∧ s'.status ≠ .exited

/-- The turn is not a call that the current candidate holds back. -/
def NotHeldBack (s : Replay) : Turn → Prop
  | .call tid k => ¬ s.ctl.HoldsBack tid k
  | .wake _ => True

/-- The program has just returned from a call of `load_next_ci` that found no candidate left: the
one of `main`, or one in a callback. -/
inductive Ended (lines : List Line) : Replay → Prop
  | start (hnil : lines = []) : Ended lines (.start lines)
  | load {turns : List Turn} {s s' : Replay} {tid : UInt32} {k : Call}
      (hrun : run Replay.turn (.start lines) turns = some s) (hload : s.ctl.Loads k)
      (hnone : s.ctl.ciCount ≤ s.ctl.curCi) (hcall : s.call tid k = some s') : Ended lines s'

section Quiet

variable {c : Ctl} {tid : UInt32} {k : Call} {s s' : Replay} {lines : List Line} {turns : List Turn}

theorem marks_mem_iff {r : Role} {ip addr : UInt32} :
    c.Marks r tid (.mem ip addr) ↔ c.isLockedType = false ∧ r.isAccess ip addr tid = true := by
  rw [isAccess_iff]
  exact ⟨fun h => ⟨h.1, h.2.2.1, h.2.2.2, h.2.1⟩, fun h => ⟨h.1, h.2.2.2, h.2.1, h.2.2.1⟩⟩

theorem beforeMemAccess_delay_iff {ip addr : UInt32} :
    (c.beforeMemAccess ip addr tid).2.delay ≠ none ↔ c.HoldsBack tid (.mem ip addr) := by
  have henter : ∀ r, c.Enters r tid (.mem ip addr) ↔ c.Marks r tid (.mem ip addr) := fun _ => Iff.rfl
  simp only [Ctl.HoldsBack, henter, marks_mem_iff]
  obtain ⟨ciCount, curCi, cells, locked, first, second, inter, b1, b2, b3, n⟩ := c
  cases locked with
  | true => simp [Ctl.beforeMemAccess, Ret.delay]
  | false =>
    cases b1 <;> cases b2 <;> cases b3 <;> simp [Ctl.beforeMemAccess, Ret.delay, Ctl.flags]
    · by_cases hf : first.isAccess ip addr tid = true
      · simp [hf]
      · by_cases hi : inter.isAccess ip addr tid = true
        · simp [hf, hi]
        · simp [hf, hi]
    · by_cases hi : inter.isAccess ip addr tid = true
      · simp [hi]
      · by_cases hs : second.isAccess ip addr tid = true
        · simp [hi, hs]
        · simp [hi, hs]
    · by_cases hs : second.isAccess ip addr tid = true
      · simp [hs]
      · simp [hs]

theorem beforeThreadLock_delay_iff {callsiteV : UInt32} :
    (c.beforeThreadLock tid callsiteV).2.delay ≠ none ↔ c.HoldsBack tid (.lock callsiteV) := by
  obtain ⟨ciCount, curCi, cells, locked, first, second, inter, b1, b2, b3, n⟩ := c
  cases locked with
  | false => simp [Ctl.beforeThreadLock, Ret.delay, Ctl.HoldsBack, Ctl.Enters]
  | true =>
    cases b1 <;> cases b2 <;> cases b3 <;>
      simp [Ctl.beforeThreadLock, Ret.delay, Ctl.HoldsBack, Ctl.Enters, Ctl.Marks, Ctl.flags]
    · by_cases hi : tid = inter.tid ∧ callsiteV = inter.lock
      · simp [hi]
      · simp [hi]
    · by_cases hs : tid = second.tid ∧ callsiteV = second.lock
      · simp [hs]
      · simp [hs]

theorem beforeThreadUnLock_delay (callsiteV : UInt32) : (c.beforeThreadUnLock tid callsiteV).2 = .done := by
  unfold Ctl.beforeThreadUnLock
  split
  · rfl
  · split
    · split_ifs <;> rfl
    · split_ifs <;> rfl
    · split_ifs <;> rfl
    · rfl
    · rfl

/-- **The calls that are delayed.** -/
theorem call_delay_iff : (c.call tid k).2.delay ≠ none ↔ c.HoldsBack tid k := by
  cases k with
  | mem ip addr => exact beforeMemAccess_delay_iff
  | lock callsiteV => exact beforeThreadLock_delay_iff
  | unlock callsiteV =>
    have hnot : ¬ c.HoldsBack tid (.unlock callsiteV) := by
      rintro (⟨-, h, -⟩ | ⟨-, h, -⟩)
      · exact h
      · exact h
    have hdone : (c.call tid (.unlock callsiteV)).2 = .done := beforeThreadUnLock_delay callsiteV
    simp [hdone, Ret.delay, hnot]

/-- What keeps the callbacks quiet. -/
structure Undelayed (s : Replay) : Prop where
  replay : ReplayInv s
  delayed : ∀ t, s.delayed t = none

theorem undelayed_of_ended (h : Ended lines s) : Undelayed s := by
  cases h with
  | start hnil => exact ⟨replayInv_start lines, fun _ => rfl⟩
  | @load turns s0 _ tid k hrun hload hnone hcall =>
    have hinv : ReplayInv s0 := replayInv_run hrun
    refine ⟨hinv.call hcall, ?_⟩
    obtain ⟨-, -, rfl⟩ := replay_call hcall
    rw [call_loads hload]
    exact finish_undelayed (hinv.nobody_delayed hload.flags) rfl

/-- Nobody is delayed, so the next turn is a call. -/
theorem Undelayed.turn (h : Undelayed s) {a : Turn} (hturn : s.turn a = some s') :
    ∃ tid k, a = .call tid k ∧ s' = s.finish tid (s.ctl.call tid k) := by
  cases a with
  | call tid k =>
    obtain ⟨-, -, hs'⟩ := replay_call hturn
    exact ⟨tid, k, rfl, hs'⟩
  | wake tid =>
    obtain ⟨d, -, hd, -⟩ := replay_wake hturn
    exact absurd ((h.delayed tid).symm.trans hd) (by simp)

/-- One callback is quiet exactly when the candidate does not hold it back. -/
theorem Undelayed.quiet_call (h : Undelayed s) {a : Turn} (hturn : s.turn a = some s') :
    Quiet s a ↔ NotHeldBack s a := by
  obtain ⟨tid, k, rfl, rfl⟩ := h.turn hturn
  have hdelayed : (s.finish tid (s.ctl.call tid k)).delayed tid = (s.ctl.call tid k).2.delay :=
    Function.update_self _ _ _
  have hiff : (s.ctl.call tid k).2.delay ≠ none ↔ s.ctl.HoldsBack tid k := call_delay_iff
  constructor
  · intro hq hheld
    exact hiff.mpr hheld (hdelayed.symm.trans (hq _ hturn).1)
  · intro hnot s1 h1
    obtain rfl := Option.some.inj (hturn.symm.trans h1)
    refine ⟨hdelayed.trans ?_, ?_⟩
    · by_contra hd
      exact hnot (hiff.mp hd)
    · rw [finish_call_status h.replay.flags]
      simp

theorem Undelayed.quiet_turn (h : Undelayed s) {a : Turn} (hq : Quiet s a) (hturn : s.turn a = some s') :
    Undelayed s' := by
  have hinv := h.replay.turn hturn
  have hquiet := (hq s' hturn).1
  obtain ⟨tid, k, rfl, rfl⟩ := h.turn hturn
  have hdelay : (s.ctl.call tid k).2.delay = none := (finish_delayed_self s tid _).symm.trans hquiet
  exact ⟨hinv, finish_undelayed h.delayed hdelay⟩

/-- After the last candidate the registers stay as they are. -/
theorem Ended.ciCount_le (h : Ended lines s) : s.ctl.ciCount ≤ s.ctl.curCi := by
  cases h with
  | start hnil =>
    subst hnil
    exact Nat.le_refl 0
  | load hrun hload hnone hcall =>
    obtain ⟨-, -, rfl⟩ := replay_call hcall
    rw [finish_loads hload, loadNextCi_none (Or.inr hnone)]
    exact hnone

theorem sameCi_run (h : s.ctl.ciCount ≤ s.ctl.curCi) (hrun : run Replay.turn s turns = some s') :
    SameCi s.ctl s'.ctl := by
  have hstep : ∀ s1 a s2, SameCi s.ctl s1.ctl → Replay.turn s1 a = some s2 → SameCi s.ctl s2.ctl := by
    intro s1 a s2 hsame hturn
    have hnone : s1.ctl.ciCount ≤ s1.ctl.curCi := by
      rw [hsame.ciCount, hsame.curCi]
      exact h
    cases a with
    | call tid k =>
      obtain ⟨-, -, rfl⟩ := replay_call hturn
      by_cases hload : s1.ctl.Loads k
      · rw [finish_loads hload, loadNextCi_none (Or.inr hnone)]
        exact ⟨hsame.cells, hsame.ciCount, hsame.curCi, hsame.ci⟩
      · exact hsame.trans (call_frame hload)
    | wake tid =>
      obtain ⟨d, -, -, rfl⟩ := replay_wake hturn
      exact hsame.trans (wake_frame _ d)
  exact run_invariant hstep ⟨rfl, rfl, rfl, rfl⟩ hrun

/-- **After the last candidate the callbacks stay quiet in exactly the runs that make no call which
the last candidate holds back**; that candidate stays in the registers for good, with fresh flags. -/
theorem quiet_iff (hend : Ended lines s) (hrun : run Replay.turn s turns = some s') :
    (Meets Replay.turn Quiet s turns ↔ Meets Replay.turn NotHeldBack s turns) ∧ SameCi s.ctl s'.ctl := by
  have hs := undelayed_of_ended hend
  refine ⟨?_, sameCi_run hend.ciCount_le hrun⟩
  constructor
  · exact meets_imp (fun _ _ _ h hq hturn => h.quiet_turn hq hturn)
      (fun _ _ _ h hturn hq => (h.quiet_call hturn).mp hq) hs hrun
  · exact meets_imp (fun _ _ _ h hn hturn => h.quiet_turn ((h.quiet_call hturn).mpr hn) hturn)
      (fun _ _ _ h hturn hn => (h.quiet_call hturn).mpr hn) hs hrun

end Quiet

theorem complete_isSome : (run Replay.turn (.start [accessLine]) completeTurns).isSome = true := by
  decide

/-- All three flags are set. -/
def completed : Replay := (run Replay.turn (.start [accessLine]) completeTurns).get complete_isSome

theorem load_isSome : (completed.call 3 (.mem 0x8048400 68)).isSome = true := by
  decide

/-- The next access has run `load_next_ci`, which returned 0. -/
def afterLast : Replay := (completed.call 3 (.mem 0x8048400 68)).get load_isSome

theorem ended_afterLast : Ended [accessLine] afterLast :=
  .load (Option.some_get complete_isSome).symm (show completed.ctl.Loads _ by decide)
    (show completed.ctl.ciCount ≤ completed.ctl.curCi by decide) (Option.some_get load_isSome).symm

theorem others_isSome : (run Replay.turn afterLast [.call 3 (.mem 0x8048400 68)]).isSome = true := by
  decide

theorem quiet_iff_others :
    (Meets Replay.turn Quiet afterLast [.call 3 (.mem 0x8048400 68)] ↔
        Meets Replay.turn NotHeldBack afterLast [.call 3 (.mem 0x8048400 68)]) ∧
      SameCi afterLast.ctl ((run Replay.turn afterLast [.call 3 (.mem 0x8048400 68)]).get others_isSome).ctl :=
  quiet_iff ended_afterLast (Option.some_get others_isSome).symm

/-- Inter is executed once more, and its thread sleeps until the time-out ends the program. -/
def againTurns : List Turn := .call 2 (.mem 0x8048300 64) :: List.replicate 301 (.wake 2)

theorem again_exits :
    Ended [accessLine] afterLast ∧
      ((run Replay.turn afterLast againTurns).map (·.status)) = some .exited ∧
      ¬ Meets Replay.turn Quiet afterLast againTurns := by
  refine ⟨ended_afterLast, by decide +kernel, ?_⟩
  intro h
  obtain ⟨hd, -⟩ := h.1 _ rfl
  exact absurd hd (by decide)

end Controller
end AVPredictor
