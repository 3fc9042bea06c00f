import Mathlib.Logic.Function.Basic
import AVPredictor.Structs

/-!
# AVPredictor.Controller.Replay — the callbacks of the controller

`Ctl` holds the globals of `controller.cpp`: the arrays with the loaded candidates, the registers of
the current one and its three flags.  A callback runs without interruption to its end or to its
`PIN_Sleep`; there its thread is delayed, and every wake-up runs one turn of the `while` loop.

`Effect` lists what one callback or wake-up can do: nothing but the time-out counter, one of the
three marks in their order, or `load_next_ci` when all three are set (`call_spec`, `wake_spec`).
`Waits` is what holds of a delayed thread: it is the one thread that could set the flag after the
one it waits for, so the flags cannot run ahead of it and the candidate cannot change under it.
`ReplayInv` collects both for all threads (`ReplayInv.call`, `ReplayInv.wake`).
-/

namespace AVPredictor
namespace Controller

/-! ## State -/

/-- One cell of each of the ten candidate arrays, in the order of a line of the group file. -/
structure Line where
  type : UInt32
  firstId : UInt32
  firstArg1 : UInt32
  firstArg2 : UInt32
  secondId : UInt32
  secondArg1 : UInt32
  secondArg2 : UInt32
  interId : UInt32
  interArg1 : UInt32
  interArg2 : UInt32
deriving DecidableEq, Repr

def Line.zero : Line := ⟨0, 0, 0, 0, 0, 0, 0, 0, 0, 0⟩

/-- The registers `x_tid`, `x_inst`, `x_addr`, `x_lock`, `x_unlock`, with `x` one of first, second,
inter. -/
structure Role where
  tid : UInt32
  inst : UInt32
  addr : UInt32
  lock : UInt32
  unlock : UInt32
deriving DecidableEq, Repr

def Role.zero : Role := ⟨0, 0, 0, 0, 0⟩

/-- The globals of the controller. -/
structure Ctl where
  ciCount : ℕ
  curCi : ℕ
  cells : ℕ → Line
  isLockedType : Bool
  first : Role
  second : Role
  inter : Role
  firstReady : Bool
  interReady : Bool
  secondReady : Bool
  countTimeout : ℕ

/-- The three flags together. -/
def Ctl.flags (c : Ctl) : Bool × Bool × Bool := (c.firstReady, c.interReady, c.secondReady)

/-- The arguments of the callback of an access, a `pthread_mutex_lock` and a
`pthread_mutex_unlock`. -/
inductive Call where
  | mem (ip addr : UInt32)
  | lock (callsiteV : UInt32)
  | unlock (callsiteV : UInt32)
deriving DecidableEq, Repr

/-- The `while` loops in which a callback sleeps. -/
inductive Delay where
  | memInter (ip addr : UInt32)
  | memSecond (ip addr : UInt32)
  | lockInter (callsiteV : UInt32)
  | lockSecond (callsiteV : UInt32)
deriving DecidableEq, Repr

/-- The call that is delayed. -/
def Delay.call : Delay → Call
  | .memInter ip addr => .mem ip addr
  | .memSecond ip addr => .mem ip addr
  | .lockInter callsiteV => .lock callsiteV
  | .lockSecond callsiteV => .lock callsiteV

/-- How a callback or a wake-up ends: by `return`, at `PIN_Sleep`, by `exit(0)`, or by
`assert(false)`. -/
inductive Ret where
  | done
  | sleep (d : Delay)
  | exit
  | abort
deriving DecidableEq, Repr

/-! ## The code -/

/-- `load_next_ci` -/
def Ctl.loadNextCi (c : Ctl) : Ctl × ℕ :=
  let c := { c with firstReady := false, interReady := false, secondReady := false }
  if c.curCi + 1 = maxSize then (c, 0)
  else if c.curCi ≥ c.ciCount then (c, 0)
  else
    let l := c.cells c.curCi
    if l.type ≠ 0 then
      ({ c with
          isLockedType := true
          first := { c.first with tid := l.firstId, lock := l.firstArg1, unlock := l.firstArg2 }
          second := { c.second with tid := l.secondId, lock := l.secondArg1, unlock := l.secondArg2 }
          inter := { c.inter with tid := l.interId, lock := l.interArg1, unlock := l.interArg2 }
          curCi := c.curCi + 1 }, 1)
    else
      ({ c with
          isLockedType := false
          first := { c.first with tid := l.firstId, inst := l.firstArg1, addr := l.firstArg2 }
          second := { c.second with tid := l.secondId, inst := l.secondArg1, addr := l.secondArg2 }
          inter := { c.inter with tid := l.interId, inst := l.interArg1, addr := l.interArg2 }
          curCi := c.curCi + 1 }, 1)

/-- `ip == x_inst && addr == x_addr && tid == x_tid` -/
def Role.isAccess (r : Role) (ip addr tid : UInt32) : Bool := ip = r.inst ∧ addr = r.addr ∧ tid = r.tid

/-- `BeforeMemAccess`, up to its end or its first `PIN_Sleep`. -/
def Ctl.beforeMemAccess (c : Ctl) (ip addr tid : UInt32) : Ctl × Ret :=
  if c.isLockedType then (c, .done)
  else match c.firstReady, c.interReady, c.secondReady with
    | false, false, false =>
      if c.first.isAccess ip addr tid then ({ c with firstReady := true }, .done)
      else if c.inter.isAccess ip addr tid then ({ c with countTimeout := 0 }, .sleep (.memInter ip addr))
      else (c, .done)
    | true, false, false =>
      if c.inter.isAccess ip addr tid then ({ c with interReady := true }, .done)
      else if c.second.isAccess ip addr tid then ({ c with countTimeout := 0 }, .sleep (.memSecond ip addr))
      else (c, .done)
    | true, true, false =>
      if c.second.isAccess ip addr tid then ({ c with secondReady := true }, .done)
      else (c, .done)
    | true, true, true => (c.loadNextCi.1, .done)
    | _, _, _ => (c, .abort)

/-- `beforeThreadLock_replay`, up to its end or its first `PIN_Sleep`; the branches that only print
are left out. -/
def Ctl.beforeThreadLock (c : Ctl) (tid callsiteV : UInt32) : Ctl × Ret :=
  if !c.isLockedType then (c, .done)
  else match c.firstReady, c.interReady, c.secondReady with
    | false, false, false =>
      if tid = c.inter.tid ∧ callsiteV = c.inter.lock then
        ({ c with countTimeout := 0 }, .sleep (.lockInter callsiteV))
      else (c, .done)
    | true, false, false =>
      if tid = c.second.tid ∧ callsiteV = c.second.lock then
        ({ c with countTimeout := 0 }, .sleep (.lockSecond callsiteV))
      else (c, .done)
    | _, _, _ => (c, .done)

/-- `beforeThreadUnLock_replay` -/
def Ctl.beforeThreadUnLock (c : Ctl) (tid callsiteV : UInt32) : Ctl × Ret :=
  if !c.isLockedType then (c, .done)
  else match c.firstReady, c.interReady, c.secondReady with
    | false, false, false =>
      if tid = c.first.tid ∧ callsiteV = c.first.unlock then ({ c with firstReady := true }, .done)
      else (c, .done)
    | true, false, false =>
      if tid = c.inter.tid ∧ callsiteV = c.inter.unlock then ({ c with interReady := true }, .done)
      else (c, .done)
    | true, true, false =>
      if tid = c.second.tid ∧ callsiteV = c.second.unlock then ({ c with secondReady := true }, .done)
      else (c, .done)
    | true, true, true => (c.loadNextCi.1, .done)
    | _, _, _ => (c, .done)

/-- The callback of a call by thread `tid`. -/
def Ctl.call (c : Ctl) (tid : UInt32) : Call → Ctl × Ret
  | .mem ip addr => c.beforeMemAccess ip addr tid
  | .lock callsiteV => c.beforeThreadLock tid callsiteV
  | .unlock callsiteV => c.beforeThreadUnLock tid callsiteV

/-- A wake-up from `PIN_Sleep`: count, check the time-out and the loop's condition, and leave the
loop or sleep. -/
def Ctl.wake (c : Ctl) (d : Delay) : Ctl × Ret :=
  let c := { c with countTimeout := c.countTimeout + 1 }
  if c.countTimeout > timeout then (c, .exit)
  else match d with
    | .memInter _ _ => if c.firstReady then ({ c with interReady := true }, .done) else (c, .sleep d)
    | .memSecond _ _ => if c.interReady then ({ c with secondReady := true }, .done) else (c, .sleep d)
    | .lockInter _ => if c.firstReady then (c, .done) else (c, .sleep d)
    | .lockSecond _ => if c.interReady then (c, .done) else (c, .sleep d)

/-- The globals when `main` has loaded the lines of the group file. -/
def Ctl.loaded (lines : List Line) : Ctl :=
  { ciCount := lines.length
    curCi := 0
    cells := fun i => lines.getD i .zero
    isLockedType := false
    first := .zero
    second := .zero
    inter := .zero
    firstReady := false
    interReady := false
    secondReady := false
    countTimeout := 0 }

/-- The globals when `main` has called `load_next_ci`. -/
def Ctl.start (lines : List Line) : Ctl := (Ctl.loaded lines).loadNextCi.1

/-! ## All threads -/

/-- Whether the program still runs. -/
inductive Status where
  | running
  | exited
  | aborted
deriving DecidableEq, Repr

/-- The globals and the threads that sleep in a callback. -/
structure Replay where
  ctl : Ctl
  delayed : UInt32 → Option Delay
  status : Status

def Replay.start (lines : List Line) : Replay := ⟨.start lines, fun _ => none, .running⟩

/-- The loop that a callback has ended in. -/
def Ret.delay : Ret → Option Delay
  | .sleep d => some d
  | _ => none

def Ret.status : Ret → Status
  | .exit => .exited
  | .abort => .aborted
  | _ => .running

/-- A callback or wake-up of thread `tid` ends. -/
def Replay.finish (s : Replay) (tid : UInt32) (r : Ctl × Ret) : Replay :=
  { ctl := r.1
    delayed := Function.update s.delayed tid r.2.delay
    status := r.2.status }

theorem finish_delayed_self (s : Replay) (tid : UInt32) (r : Ctl × Ret) :
    (s.finish tid r).delayed tid = r.2.delay := Function.update_self _ _ _

theorem finish_delayed_of_ne (s : Replay) {t tid : UInt32} (h : t ≠ tid) (r : Ctl × Ret) :
    (s.finish tid r).delayed t = s.delayed t := Function.update_of_ne h _ _

/-- Nobody is delayed after a callback that returns, if nobody else was. -/
theorem finish_undelayed {s : Replay} {tid : UInt32} {r : Ctl × Ret} (hs : ∀ t, s.delayed t = none)
    (hr : r.2.delay = none) (t : UInt32) : (s.finish tid r).delayed t = none := by
  by_cases ht : t = tid
  · subst ht
    rw [finish_delayed_self, hr]
  · rw [finish_delayed_of_ne s ht, hs t]

/-- Thread `tid` makes a call; it must not be delayed. -/
def Replay.call (s : Replay) (tid : UInt32) (k : Call) : Option Replay :=
  if s.status = .running ∧ s.delayed tid = none then some (s.finish tid (s.ctl.call tid k)) else none

/-- Thread `tid` wakes up. -/
def Replay.wake (s : Replay) (tid : UInt32) : Option Replay :=
  if s.status = .running then (s.delayed tid).map fun d => s.finish tid (s.ctl.wake d) else none

/-! ## What a callback can do -/

/-- The call marks role `r` as executed: its access in a type 0 candidate, its unlock in a type 1
candidate. -/
def Ctl.Marks (c : Ctl) (r : Role) (tid : UInt32) : Call → Prop
  | .mem ip addr => c.isLockedType = false ∧ tid = r.tid ∧ ip = r.inst ∧ addr = r.addr
  | .lock _ => False
  | .unlock callsiteV => c.isLockedType = true ∧ tid = r.tid ∧ callsiteV = r.unlock

/-- What the call `k` of thread `tid` can make of the globals. -/
inductive Effect (c : Ctl) (tid : UInt32) (k : Call) : Ctl → Prop
  | quiet (n : ℕ) : Effect c tid k { c with countTimeout := n }
  | first : c.flags = (false, false, false) → c.Marks c.first tid k →
      Effect c tid k { c with firstReady := true }
  | inter (n : ℕ) : c.flags = (true, false, false) → c.Marks c.inter tid k →
      Effect c tid k { c with interReady := true, countTimeout := n }
  | second (n : ℕ) : c.flags = (true, true, false) → c.Marks c.second tid k →
      Effect c tid k { c with secondReady := true, countTimeout := n }
  | load : c.flags = (true, true, true) → Effect c tid k c.loadNextCi.1

/-- The flags are set in order. -/
def Ctl.FlagsOk (c : Ctl) : Prop :=
  (c.secondReady → c.interReady) ∧ (c.interReady → c.firstReady)

/-- What holds while thread `tid` is delayed in `d`. -/
def Ctl.Waits (c : Ctl) (tid : UInt32) : Delay → Prop
  | .memInter ip addr => c.Marks c.inter tid (.mem ip addr) ∧ c.interReady = false ∧ c.secondReady = false
  | .memSecond ip addr => c.Marks c.second tid (.mem ip addr) ∧ c.firstReady = true ∧ c.secondReady = false
  | .lockInter callsiteV => c.isLockedType = true ∧ tid = c.inter.tid ∧ callsiteV = c.inter.lock ∧
      c.interReady = false ∧ c.secondReady = false
  | .lockSecond callsiteV => c.isLockedType = true ∧ tid = c.second.tid ∧ callsiteV = c.second.lock ∧
      c.firstReady = true ∧ c.secondReady = false

/-- The specification of a callback or wake-up: its effect, and for what it waits if it goes to
sleep. -/
structure Spec (c : Ctl) (tid : UInt32) (k : Call) (r : Ctl × Ret) : Prop where
  effect : Effect c tid k r.1
  sleeps : ∀ d, r.2.delay = some d → d.call = k ∧ r.1.Waits tid d

section Callbacks

variable {c c' : Ctl} {tid t : UInt32} {k : Call} {d : Delay}

theorem isAccess_iff {r : Role} {ip addr : UInt32} :
    r.isAccess ip addr tid = true ↔ ip = r.inst ∧ addr = r.addr ∧ tid = r.tid := by
  simp [Role.isAccess]

theorem marks_mem {r : Role} {ip addr : UInt32} (hl : c.isLockedType = false)
    (h : r.isAccess ip addr tid = true) : c.Marks r tid (.mem ip addr) := by
  obtain ⟨hip, haddr, htid⟩ := isAccess_iff.mp h
  exact ⟨hl, htid, hip, haddr⟩

theorem spec_done (h : Effect c tid k c') : Spec c tid k (c', .done) := ⟨h, fun _ hd => nomatch hd⟩

/-- A callback without effect. -/
theorem spec_self : Spec c tid k (c, .done) := spec_done (Effect.quiet c.countTimeout)

theorem spec_abort : Spec c tid k (c, .abort) := ⟨Effect.quiet c.countTimeout, fun _ hd => nomatch hd⟩

/-- A callback that goes to sleep. -/
theorem spec_sleep (d : Delay) {n : ℕ} (hw : c.Waits tid d) :
    Spec c tid d.call ({ c with countTimeout := n }, .sleep d) := by
  refine ⟨Effect.quiet n, ?_⟩
  intro d' hd'
  obtain rfl := Option.some.inj hd'
  exact ⟨rfl, by cases d <;> exact hw⟩

theorem beforeMemAccess_spec {ip addr : UInt32} :
    Spec c tid (.mem ip addr) (c.beforeMemAccess ip addr tid) := by
  obtain ⟨ciCount, curCi, cells, locked, first, second, inter, b1, b2, b3, n⟩ := c
  cases locked with
  | true => exact spec_self
  | false =>
    cases b1 <;> cases b2 <;> cases b3
    · show Spec _ tid _ (if first.isAccess ip addr tid then _ else _)
      split_ifs with hf hi
      · exact spec_done (Effect.first rfl (marks_mem rfl hf))
      · exact spec_sleep (.memInter ip addr) ⟨marks_mem rfl hi, rfl, rfl⟩
      · exact spec_self
    · exact spec_abort
    · exact spec_abort
    · exact spec_abort
    · show Spec _ tid _ (if inter.isAccess ip addr tid then _ else _)
      split_ifs with hi hs
      · exact spec_done (Effect.inter n rfl (marks_mem rfl hi))
      · exact spec_sleep (.memSecond ip addr) ⟨marks_mem rfl hs, rfl, rfl⟩
      · exact spec_self
    · exact spec_abort
    · show Spec _ tid _ (if second.isAccess ip addr tid then _ else _)
      split_ifs with hs
      · exact spec_done (Effect.second n rfl (marks_mem rfl hs))
      · exact spec_self
    · exact spec_done (Effect.load rfl)

theorem beforeThreadLock_spec {callsiteV : UInt32} :
    Spec c tid (.lock callsiteV) (c.beforeThreadLock tid callsiteV) := by
  obtain ⟨ciCount, curCi, cells, locked, first, second, inter, b1, b2, b3, n⟩ := c
  cases locked with
  | false => exact spec_self
  | true =>
    cases b1 <;> cases b2 <;> cases b3
    · show Spec _ tid _ (if tid = inter.tid ∧ callsiteV = inter.lock then _ else _)
      split_ifs with hi
      · exact spec_sleep (.lockInter callsiteV) ⟨rfl, hi.1, hi.2, rfl, rfl⟩
      · exact spec_self
    · exact spec_self
    · exact spec_self
    · exact spec_self
    · show Spec _ tid _ (if tid = second.tid ∧ callsiteV = second.lock then _ else _)
      split_ifs with hs
      · exact spec_sleep (.lockSecond callsiteV) ⟨rfl, hs.1, hs.2, rfl, rfl⟩
      · exact spec_self
    · exact spec_self
    · exact spec_self
    · exact spec_self

theorem beforeThreadUnLock_spec {callsiteV : UInt32} :
    Spec c tid (.unlock callsiteV) (c.beforeThreadUnLock tid callsiteV) := by
  obtain ⟨ciCount, curCi, cells, locked, first, second, inter, b1, b2, b3, n⟩ := c
  cases locked with
  | false => exact spec_self
  | true =>
    cases b1 <;> cases b2 <;> cases b3
    · show Spec _ tid _ (if tid = first.tid ∧ callsiteV = first.unlock then _ else _)
      split_ifs with hf
      · exact spec_done (Effect.first rfl ⟨rfl, hf⟩)
      · exact spec_self
    · exact spec_self
    · exact spec_self
    · exact spec_self
    · show Spec _ tid _ (if tid = inter.tid ∧ callsiteV = inter.unlock then _ else _)
      split_ifs with hi
      · exact spec_done (Effect.inter n rfl ⟨rfl, hi⟩)
      · exact spec_self
    · exact spec_self
    · show Spec _ tid _ (if tid = second.tid ∧ callsiteV = second.unlock then _ else _)
      split_ifs with hs
      · exact spec_done (Effect.second n rfl ⟨rfl, hs⟩)
      · exact spec_self
    · exact spec_done (Effect.load rfl)

/-- **What a callback can do.** -/
theorem call_spec : Spec c tid k (c.call tid k) := by
  cases k with
  | mem ip addr => exact beforeMemAccess_spec
  | lock callsiteV => exact beforeThreadLock_spec
  | unlock callsiteV => exact beforeThreadUnLock_spec

/-- **What a wake-up can do.** -/
theorem wake_spec (hw : c.Waits tid d) : Spec c tid d.call (c.wake d) := by
  unfold Ctl.wake
  show Spec c tid _ (if c.countTimeout + 1 > timeout then _ else _)
  by_cases hexit : c.countTimeout + 1 > timeout
  · rw [if_pos hexit]
    exact ⟨Effect.quiet _, fun _ hd => nomatch hd⟩
  · rw [if_neg hexit]
    cases d with
    | memInter ip addr =>
      obtain ⟨hmark, hi, hs⟩ := hw
      show Spec c tid _ (if c.firstReady then _ else _)
      split_ifs with hf
      · exact spec_done (Effect.inter (c.countTimeout + 1) (by simp [Ctl.flags, hf, hi, hs]) hmark)
      · exact spec_sleep (.memInter ip addr) ⟨hmark, hi, hs⟩
    | memSecond ip addr =>
      obtain ⟨hmark, hf, hs⟩ := hw
      show Spec c tid _ (if c.interReady then _ else _)
      split_ifs with hi
      · exact spec_done (Effect.second (c.countTimeout + 1) (by simp [Ctl.flags, hf, hi, hs]) hmark)
      · exact spec_sleep (.memSecond ip addr) ⟨hmark, hf, hs⟩
    | lockInter callsiteV =>
      show Spec c tid _ (if c.firstReady then _ else _)
      split_ifs
      · exact spec_done (Effect.quiet _)
      · exact spec_sleep (.lockInter callsiteV) hw
    | lockSecond callsiteV =>
      show Spec c tid _ (if c.interReady then _ else _)
      split_ifs
      · exact spec_done (Effect.quiet _)
      · exact spec_sleep (.lockSecond callsiteV) hw

/-! ## The invariant of the callbacks -/

theorem flags_loadNextCi : c.loadNextCi.1.flags = (false, false, false) := by
  unfold Ctl.loadNextCi
  simp only
  split_ifs <;> rfl

theorem flagsOk_of_flags (h : c.flags = (false, false, false)) : c.FlagsOk := by
  simp only [Ctl.flags, Prod.mk.injEq] at h
  simp [Ctl.FlagsOk, h.1, h.2.1, h.2.2]

/-- The flags stay in order. -/
theorem Effect.flagsOk (h : Effect c tid k c') (hflags : c.FlagsOk) : c'.FlagsOk := by
  cases h with
  | quiet n => exact hflags
  | first hf hm =>
    simp only [Ctl.flags, Prod.mk.injEq] at hf
    simp [Ctl.FlagsOk, hf.2.1, hf.2.2]
  | inter n hf hm =>
    simp only [Ctl.flags, Prod.mk.injEq] at hf
    simp [Ctl.FlagsOk, hf.1, hf.2.2]
  | second n hf hm =>
    simp only [Ctl.flags, Prod.mk.injEq] at hf
    simp [Ctl.FlagsOk, hf.1, hf.2.1]
  | load hf => exact flagsOk_of_flags flags_loadNextCi

theorem Ctl.Marks.tid_eq {r : Role} (h : c.Marks r tid k) : tid = r.tid := by
  cases k with
  | mem ip addr => exact h.2.1
  | lock callsiteV => exact h.elim
  | unlock callsiteV => exact h.2.1

/-- Nobody waits when all three flags are set. -/
theorem not_waits_of_flags (h : c.flags = (true, true, true)) : ¬ c.Waits t d := by
  intro hw
  simp only [Ctl.flags, Prod.mk.injEq] at h
  cases d with
  | memInter ip addr => exact absurd (hw.2.2.symm.trans h.2.2) (by simp)
  | memSecond ip addr => exact absurd (hw.2.2.symm.trans h.2.2) (by simp)
  | lockInter callsiteV => exact absurd (hw.2.2.2.2.symm.trans h.2.2) (by simp)
  | lockSecond callsiteV => exact absurd (hw.2.2.2.2.symm.trans h.2.2) (by simp)

/-- A delayed thread is the only one that can set the flag after the one it waits for, so no effect
of another thread ends its waiting. -/
theorem Effect.waits (h : Effect c tid k c') (ht : t ≠ tid) (hw : c.Waits t d) : c'.Waits t d := by
  cases h with
  | quiet n => cases d <;> exact hw
  | first hf hm =>
    cases d with
    | memInter ip addr => exact hw
    | memSecond ip addr => exact ⟨hw.1, rfl, hw.2.2⟩
    | lockInter callsiteV => exact hw
    | lockSecond callsiteV => exact ⟨hw.1, hw.2.1, hw.2.2.1, rfl, hw.2.2.2.2⟩
  | inter n hf hm =>
    have htid := hm.tid_eq
    cases d with
    | memInter ip addr => exact absurd (hw.1.2.1.trans htid.symm) ht
    | memSecond ip addr => exact hw
    | lockInter callsiteV => exact absurd (hw.2.1.trans htid.symm) ht
    | lockSecond callsiteV => exact hw
  | second n hf hm =>
    have htid := hm.tid_eq
    simp only [Ctl.flags, Prod.mk.injEq] at hf
    cases d with
    | memInter ip addr => exact absurd (hw.2.1.symm.trans hf.2.1) (by simp)
    | memSecond ip addr => exact absurd (hw.1.2.1.trans htid.symm) ht
    | lockInter callsiteV => exact absurd (hw.2.2.2.1.symm.trans hf.2.1) (by simp)
    | lockSecond callsiteV => exact absurd (hw.2.1.trans htid.symm) ht
  | load hf => exact absurd hw (not_waits_of_flags hf)

end Callbacks

/-- **The invariant of the callbacks**: the flags are in order, and every delayed thread waits for a
flag of the current candidate. -/
structure ReplayInv (s : Replay) : Prop where
  flags : s.ctl.FlagsOk
  waits : ∀ t d, s.delayed t = some d → s.ctl.Waits t d

theorem replayInv_start (lines : List Line) : ReplayInv (.start lines) :=
  ⟨flagsOk_of_flags flags_loadNextCi, fun _ _ h => nomatch h⟩

section Inv

variable {s s' : Replay} {tid : UInt32} {k : Call}

theorem ReplayInv.finish (h : ReplayInv s) {r : Ctl × Ret} (hspec : Spec s.ctl tid k r) :
    ReplayInv (s.finish tid r) := by
  refine ⟨hspec.effect.flagsOk h.flags, ?_⟩
  intro t d hd
  by_cases ht : t = tid
  · subst ht
    rw [finish_delayed_self] at hd
    exact (hspec.sleeps d hd).2
  · rw [finish_delayed_of_ne s ht] at hd
    exact hspec.effect.waits ht (h.waits t d hd)

/-- A call is one step of `Spec`. -/
theorem replay_call (hcall : s.call tid k = some s') :
    s.status = .running ∧ s.delayed tid = none ∧ s' = s.finish tid (s.ctl.call tid k) := by
  unfold Replay.call at hcall
  split_ifs at hcall with hc
  exact ⟨hc.1, hc.2, (Option.some.inj hcall).symm⟩

theorem replay_wake (hwake : s.wake tid = some s') :
    ∃ d, s.status = .running ∧ s.delayed tid = some d ∧ s' = s.finish tid (s.ctl.wake d) := by
  unfold Replay.wake at hwake
  split_ifs at hwake with hc
  obtain ⟨d, hd, hs⟩ := Option.map_eq_some_iff.mp hwake
  exact ⟨d, hc, hd, hs.symm⟩

theorem ReplayInv.call (h : ReplayInv s) (hcall : s.call tid k = some s') : ReplayInv s' := by
  obtain ⟨-, -, rfl⟩ := replay_call hcall
  exact h.finish call_spec

theorem ReplayInv.wake (h : ReplayInv s) (hwake : s.wake tid = some s') : ReplayInv s' := by
  obtain ⟨d, -, hd, rfl⟩ := replay_wake hwake
  exact h.finish (wake_spec (h.waits tid d hd))

end Inv

end Controller
end AVPredictor
