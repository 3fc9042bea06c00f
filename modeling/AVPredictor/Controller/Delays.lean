import AVPredictor.Controller.InstOrder
import AVPredictor.Controller.ReplayRuns

/-!
# AVPredictor.Controller.Delays — how long a thread is delayed, and for whom

All delayed threads count their wake-ups in the one variable `countTimeout`, and every new delay sets it
to 0.  It still bounds each delay: at any time at most one thread waits for a flag that is not set
(`waits_unique`), so nobody resets the count of a thread that must go on waiting (`sleeping_bounded`).
For the same reason delays alone cannot make a cycle (`awaits_one`).

Together with the program's own mutexes they can: a thread delayed with a mutex in its hands may wait
for one that is blocked on this mutex.  From such a state on, in every run, nothing is ever reported and
only the time-out ends it (`deadlock_times_out`).
-/

namespace AVPredictor
namespace Controller

open Base

/-! ## What a delayed thread waits for -/

/-- The loop tests `first_ready`, else `inter_ready`. -/
def Delay.awaitsFirst : Delay → Bool
  | .memInter _ _ => true
  | .memSecond _ _ => false
  | .lockInter _ => true
  | .lockSecond _ => false

/-- The flag that the loop tests. -/
def Ctl.flagOf (c : Ctl) (d : Delay) : Bool := if d.awaitsFirst then c.firstReady else c.interReady

/-- The role that sets this flag. -/
def Ctl.awaited (c : Ctl) (d : Delay) : Role := if d.awaitsFirst then c.first else c.inter

/-- The role that is delayed in the loop. -/
def Ctl.delayedRole (c : Ctl) (d : Delay) : Role := if d.awaitsFirst then c.inter else c.second

/-- Thread `t` is delayed for a mark of thread `u` that has not come. -/
def Awaits (s : Replay) (t u : UInt32) : Prop :=
  ∃ d, s.delayed t = some d ∧ s.ctl.flagOf d = false ∧ (s.ctl.awaited d).tid = u

section Waits

variable {c c' : Ctl} {t t' tid : UInt32} {k : Call} {d d' : Delay}

theorem Ctl.Waits.tid_eq (h : c.Waits t d) : t = (c.delayedRole d).tid := by
  cases d with
  | memInter ip addr => exact h.1.tid_eq
  | memSecond ip addr => exact h.1.tid_eq
  | lockInter callsiteV => exact h.2.1
  | lockSecond callsiteV => exact h.2.1

/-- Second is delayed after First only. -/
theorem Ctl.Waits.firstReady (h : c.Waits t d) (hd : d.awaitsFirst = false) : c.firstReady = true := by
  cases d with
  | memInter ip addr => exact absurd hd (by simp [Delay.awaitsFirst])
  | memSecond ip addr => exact h.2.1
  | lockInter callsiteV => exact absurd hd (by simp [Delay.awaitsFirst])
  | lockSecond callsiteV => exact h.2.2.2.1

/-- While Inter waits for First, Second is not delayed yet. -/
theorem awaitsFirst_eq (h : c.Waits t d) (h' : c.Waits t' d') (hd : c.flagOf d = false) (hd' : c.flagOf d' = false) :
    d.awaitsFirst = d'.awaitsFirst := by
  cases hf : d.awaitsFirst with
  | true =>
    by_contra hne
    have hf' : d'.awaitsFirst = false := by simpa using Ne.symm hne
    rw [Ctl.flagOf, hf, if_pos rfl, h'.firstReady hf'] at hd
    exact absurd hd (by simp)
  | false =>
    by_contra hne
    have hf' : d'.awaitsFirst = true := by simpa using Ne.symm hne
    rw [Ctl.flagOf, hf', if_pos rfl, h.firstReady hf] at hd'
    exact absurd hd' (by simp)

/-- **At most one thread has to wait.** -/
theorem waits_unique (h : c.Waits t d) (h' : c.Waits t' d') (hd : c.flagOf d = false) (hd' : c.flagOf d' = false) :
    t = t' := by
  rw [h.tid_eq, h'.tid_eq, Ctl.delayedRole, Ctl.delayedRole, awaitsFirst_eq h h' hd hd']

/-- A flag that somebody waits for is not taken back. -/
theorem Effect.flagOf_mono (h : Effect c tid k c') (hw : c.Waits t d) (hd : c'.flagOf d = false) :
    c.flagOf d = false := by
  cases h with
  | quiet n => exact hd
  | first hf hm =>
    simp only [Ctl.flags, Prod.mk.injEq] at hf
    unfold Ctl.flagOf
    split_ifs
    · exact hf.1
    · exact hf.2.1
  | inter n hf hm =>
    simp only [Ctl.flags, Prod.mk.injEq] at hf
    unfold Ctl.flagOf at hd ⊢
    split_ifs at hd ⊢ with hfirst
    exact hd
  | second n hf hm => exact hd
  | load hf => exact absurd hw (not_waits_of_flags hf)

/-- A callback that goes to sleep has found the flag not set, and starts the count. -/
theorem call_sleep (h : (c.call tid k).2 = .sleep d) :
    (c.call tid k).1 = { c with countTimeout := 0 } ∧ c.flagOf d = false := by
  obtain ⟨ciCount, curCi, cells, locked, first, second, inter, b1, b2, b3, n⟩ := c
  cases k with
  | mem ip addr =>
    simp only [Ctl.call, Ctl.beforeMemAccess] at h ⊢
    cases locked <;> cases b1 <;> cases b2 <;> cases b3 <;> simp at h ⊢
    · split_ifs at h ⊢ with hf hi
      obtain rfl := Ret.sleep.inj h
      exact ⟨rfl, rfl⟩
    · split_ifs at h ⊢ with hi hs
      obtain rfl := Ret.sleep.inj h
      exact ⟨rfl, rfl⟩
    · split_ifs at h
  | lock callsiteV =>
    simp only [Ctl.call, Ctl.beforeThreadLock] at h ⊢
    cases locked <;> cases b1 <;> cases b2 <;> cases b3 <;> simp at h ⊢
    · split_ifs at h ⊢ with hi
      obtain rfl := Ret.sleep.inj h
      exact ⟨rfl, rfl⟩
    · split_ifs at h ⊢ with hs
      obtain rfl := Ret.sleep.inj h
      exact ⟨rfl, rfl⟩
  | unlock callsiteV =>
    simp only [Ctl.call, Ctl.beforeThreadUnLock] at h
    cases locked <;> cases b1 <;> cases b2 <;> cases b3 <;> simp at h
    · split_ifs at h
    · split_ifs at h
    · split_ifs at h

/-- A callback that goes to sleep is the one of the role that waits. -/
theorem waits_of_sleep (h : (c.call tid k).2 = .sleep d) : c.Waits tid d := by
  have hw := (call_spec.sleeps d (show (c.call tid k).2.delay = some d by rw [h]; rfl)).2
  rw [(call_sleep h).1] at hw
  cases d <;> exact hw

/-- A callback that returns leaves the count as it is. -/
theorem call_done (h : (c.call tid k).2 = .done) : (c.call tid k).1.countTimeout = c.countTimeout := by
  obtain ⟨ciCount, curCi, cells, locked, first, second, inter, b1, b2, b3, n⟩ := c
  have hload : ∀ c : Ctl, c.loadNextCi.1.countTimeout = c.countTimeout := by
    intro c
    unfold Ctl.loadNextCi
    simp only
    split_ifs <;> rfl
  cases k with
  | mem ip addr =>
    simp only [Ctl.call, Ctl.beforeMemAccess] at h ⊢
    cases locked <;> cases b1 <;> cases b2 <;> cases b3 <;> simp at h ⊢
    · split_ifs at h ⊢ <;> rfl
    · split_ifs at h ⊢ <;> rfl
    · split_ifs <;> rfl
    · exact hload _
  | lock callsiteV =>
    simp only [Ctl.call, Ctl.beforeThreadLock] at h ⊢
    cases locked <;> cases b1 <;> cases b2 <;> cases b3 <;> simp at h ⊢
    · split_ifs at h ⊢
      rfl
    · split_ifs at h ⊢
      rfl
  | unlock callsiteV =>
    simp only [Ctl.call, Ctl.beforeThreadUnLock]
    cases locked <;> cases b1 <;> cases b2 <;> cases b3 <;> simp
    · split_ifs <;> rfl
    · split_ifs <;> rfl
    · split_ifs <;> rfl
    · exact hload _

/-- The three ways in which a wake-up ends. -/
inductive Woken (c : Ctl) (d : Delay) : Ctl × Ret → Prop
  | exit (hcount : timeout < c.countTimeout + 1) : Woken c d ({ c with countTimeout := c.countTimeout + 1 }, .exit)
  | sleep (hcount : c.countTimeout + 1 ≤ timeout) (hflag : c.flagOf d = false) :
      Woken c d ({ c with countTimeout := c.countTimeout + 1 }, .sleep d)
  | done {c' : Ctl} (hcount : c.countTimeout + 1 ≤ timeout) (hflag : c.flagOf d = true)
      (hsame : c'.countTimeout = c.countTimeout + 1) : Woken c d (c', .done)

theorem woken (c : Ctl) (d : Delay) : Woken c d (c.wake d) := by
  unfold Ctl.wake
  simp only
  by_cases hcount : c.countTimeout + 1 > timeout
  · rw [if_pos hcount]
    exact .exit hcount
  · rw [if_neg hcount]
    have hcount := Nat.not_lt.mp hcount
    cases d with
    | memInter ip addr =>
      simp only
      split_ifs with hflag
      · exact .done hcount hflag rfl
      · exact .sleep hcount (Bool.not_eq_true _ ▸ hflag)
    | memSecond ip addr =>
      simp only
      split_ifs with hflag
      · exact .done hcount hflag rfl
      · exact .sleep hcount (Bool.not_eq_true _ ▸ hflag)
    | lockInter callsiteV =>
      simp only
      split_ifs with hflag
      · exact .done hcount hflag rfl
      · exact .sleep hcount (Bool.not_eq_true _ ▸ hflag)
    | lockSecond callsiteV =>
      simp only
      split_ifs with hflag
      · exact .done hcount hflag rfl
      · exact .sleep hcount (Bool.not_eq_true _ ▸ hflag)

theorem wake_count (c : Ctl) (d : Delay) : (c.wake d).1.countTimeout = c.countTimeout + 1 := by
  have h := woken c d
  generalize c.wake d = r at h
  cases h with
  | exit hcount => rfl
  | sleep hcount hflag => rfl
  | done hcount hflag hsame => exact hsame

/-- A wake-up that does not end the program is in time. -/
theorem wake_running (h : (c.wake d).2.status = .running) : c.countTimeout + 1 ≤ timeout := by
  have hw := woken c d
  generalize c.wake d = r at h hw
  cases hw with
  | exit hcount => exact absurd h (by simp [Ret.status])
  | sleep hcount hflag => exact hcount
  | done hcount hflag hsame => exact hcount

/-- A thread that goes on sleeping is in time, and has to wait. -/
theorem wake_delay (h : (c.wake d).2.delay = some d') :
    d' = d ∧ c.countTimeout + 1 ≤ timeout ∧ c.flagOf d = false := by
  have hw := woken c d
  generalize c.wake d = r at h hw
  cases hw with
  | exit hcount => exact absurd h (by simp [Ret.delay])
  | sleep hcount hflag => exact ⟨(Option.some.inj h).symm, hcount, hflag⟩
  | done hcount hflag hsame => exact absurd h (by simp [Ret.delay])

end Waits

/-! ## The time-out -/

/-- The count is in time while the program runs. -/
structure CountOk (s : Replay) : Prop where
  le : s.ctl.countTimeout ≤ timeout + 1
  running : s.status = .running → s.ctl.countTimeout ≤ timeout

section Count

variable {s : Replay} {tid : UInt32} {k : Call}

theorem countTimeout_start (lines : List Line) : (Ctl.start lines).countTimeout = 0 := by
  unfold Ctl.start Ctl.loadNextCi
  simp only
  split_ifs <;> rfl

theorem countOk_start (lines : List Line) : CountOk (.start lines) := by
  have hzero : (Replay.start lines).ctl.countTimeout = 0 := countTimeout_start lines
  exact ⟨by omega, fun _ => by omega⟩

/-- A callback leaves the count as it is, or starts it. -/
theorem countTimeout_call_le (hflags : s.ctl.FlagsOk) :
    (s.ctl.call tid k).1.countTimeout ≤ s.ctl.countTimeout := by
  rcases call_ret hflags tid k with hret | ⟨d, hret⟩
  · exact le_of_eq (call_done hret)
  · rw [(call_sleep hret).1]
    exact Nat.zero_le _

theorem CountOk.call (h : CountOk s) (hflags : s.ctl.FlagsOk) (hrun : s.status = .running) :
    CountOk (s.finish tid (s.ctl.call tid k)) := by
  have hle : (s.finish tid (s.ctl.call tid k)).ctl.countTimeout ≤ s.ctl.countTimeout := countTimeout_call_le hflags
  have hcount := h.running hrun
  exact ⟨by omega, fun _ => by omega⟩

theorem CountOk.wake (h : CountOk s) (hrun : s.status = .running) (d : Delay) :
    CountOk (s.finish tid (s.ctl.wake d)) := by
  have hcount : (s.finish tid (s.ctl.wake d)).ctl.countTimeout = s.ctl.countTimeout + 1 := wake_count _ d
  have hle := h.running hrun
  refine ⟨by omega, fun hstatus => ?_⟩
  rw [hcount]
  exact wake_running hstatus

end Count

/-- A replay, how often each thread has woken up since its last call, and the numbers of wake-ups and of
calls. -/
structure Timed where
  replay : Replay
  slept : UInt32 → ℕ
  wakes : ℕ
  calls : ℕ

def Timed.start (lines : List Line) : Timed := ⟨.start lines, fun _ => 0, 0, 0⟩

/-- A turn of the replay, counted. -/
def Timed.turn (w : Timed) : Turn → Option Timed
  | .call tid k => (w.replay.call tid k).map fun r =>
      { w with replay := r, slept := Function.update w.slept tid 0, calls := w.calls + 1 }
  | .wake tid => (w.replay.wake tid).map fun r =>
      { w with replay := r, slept := Function.update w.slept tid (w.slept tid + 1), wakes := w.wakes + 1 }

/-- Who has to go on waiting has been counted since its delay began. -/
structure TimedInv (w : Timed) : Prop where
  replay : ReplayInv w.replay
  count : CountOk w.replay
  slept : ∀ t, w.slept t ≤ timeout + 1
  delayed : ∀ t d, w.replay.delayed t = some d → w.slept t ≤ timeout
  counted : ∀ t d, w.replay.delayed t = some d → w.replay.ctl.flagOf d = false →
    w.slept t ≤ w.replay.ctl.countTimeout
  total : w.wakes ≤ timeout * w.calls + w.replay.ctl.countTimeout

section Timed

variable {w w' : Timed} {a : Turn} {lines : List Line} {turns : List Turn}

theorem timedInv_start (lines : List Line) : TimedInv (.start lines) := by
  refine ⟨replayInv_start lines, countOk_start lines, fun _ => Nat.zero_le _, ?_, ?_, Nat.zero_le _⟩
  · exact fun t d hd => absurd hd (by simp [Timed.start, Replay.start])
  · exact fun t d hd => absurd hd (by simp [Timed.start, Replay.start])

/-- After a call, the others that have to go on waiting have been counted: they were waiting before if it
returned, and nobody else waits if it goes to sleep. -/
theorem TimedInv.counted_call (h : TimedInv w) {tid t : UInt32} {k : Call} {d : Delay} (ht : t ≠ tid)
    (hd : (w.replay.finish tid (w.replay.ctl.call tid k)).delayed t = some d)
    (hflag : (w.replay.finish tid (w.replay.ctl.call tid k)).ctl.flagOf d = false) :
    w.slept t ≤ (w.replay.finish tid (w.replay.ctl.call tid k)).ctl.countTimeout := by
  have hold := (finish_delayed_of_ne w.replay ht _).symm.trans hd
  have hw := h.replay.waits t d hold
  rcases call_ret h.replay.flags tid k with hret | ⟨d', hret⟩
  · have hcount : (w.replay.finish tid (w.replay.ctl.call tid k)).ctl.countTimeout = w.replay.ctl.countTimeout :=
      call_done hret
    rw [hcount]
    exact h.counted t d hold (call_spec.effect.flagOf_mono hw hflag)
  · obtain ⟨hctl, hflag'⟩ := call_sleep hret
    have hflag : (w.replay.ctl.call tid k).1.flagOf d = false := hflag
    rw [hctl] at hflag
    exact absurd (waits_unique hw (waits_of_sleep hret) hflag hflag') ht

theorem TimedInv.call (h : TimedInv w) {tid : UInt32} {k : Call} (hrun : w.replay.status = .running) :
    TimedInv { w with
      replay := w.replay.finish tid (w.replay.ctl.call tid k)
      slept := Function.update w.slept tid 0
      calls := w.calls + 1 } := by
  refine ⟨h.replay.finish call_spec, h.count.call h.replay.flags hrun, ?_, ?_, ?_, ?_⟩
  · intro t
    by_cases ht : t = tid
    · simp [ht]
    · simpa [ht] using h.slept t
  · intro t d hd
    by_cases ht : t = tid
    · simp [ht]
    · simpa [ht] using h.delayed t d ((finish_delayed_of_ne _ ht _).symm.trans hd)
  · intro t d hd hflag
    by_cases ht : t = tid
    · simp [ht]
    · simpa [ht] using h.counted_call ht hd hflag
  · have htotal := h.total
    have hle := h.count.running hrun
    show w.wakes ≤ timeout * (w.calls + 1) + _
    rw [Nat.mul_succ]
    omega

theorem TimedInv.wake (h : TimedInv w) {tid : UInt32} {d : Delay} (hrun : w.replay.status = .running)
    (hd : w.replay.delayed tid = some d) :
    TimedInv { w with
      replay := w.replay.finish tid (w.replay.ctl.wake d)
      slept := Function.update w.slept tid (w.slept tid + 1)
      wakes := w.wakes + 1 } := by
  have hspec := wake_spec (h.replay.waits tid d hd)
  have hinv := h.replay.finish hspec
  have hslept := h.delayed tid d hd
  have hothers : ∀ t d', t ≠ tid → (w.replay.finish tid (w.replay.ctl.wake d)).delayed t = some d' →
      (w.replay.finish tid (w.replay.ctl.wake d)).ctl.flagOf d' = false → w.slept t ≤ w.replay.ctl.countTimeout := by
    intro t d' ht hd' hflag
    have hold := (finish_delayed_of_ne w.replay ht _).symm.trans hd'
    exact h.counted t d' hold (hspec.effect.flagOf_mono (h.replay.waits t d' hold) hflag)
  have hcount : (w.replay.finish tid (w.replay.ctl.wake d)).ctl.countTimeout = w.replay.ctl.countTimeout + 1 :=
    wake_count _ d
  refine ⟨hinv, h.count.wake hrun d, ?_, ?_, ?_, ?_⟩
  · intro t
    by_cases ht : t = tid
    · subst ht
      simpa using hslept
    · simpa [ht] using h.slept t
  · intro t d' hd'
    by_cases ht : t = tid
    · subst ht
      obtain ⟨-, hin, hflag⟩ := wake_delay ((finish_delayed_self _ _ _).symm.trans hd')
      have hbound := h.counted t d hd hflag
      simp only [Function.update_self]
      omega
    · simpa [ht] using h.delayed t d' ((finish_delayed_of_ne _ ht _).symm.trans hd')
  · intro t d' hd' hflag'
    rw [hcount]
    by_cases ht : t = tid
    · subst ht
      obtain ⟨-, hin, hflag⟩ := wake_delay ((finish_delayed_self _ _ _).symm.trans hd')
      have hbound := h.counted t d hd hflag
      simp only [Function.update_self]
      omega
    · have hbound := hothers t d' ht hd' hflag'
      simp only [Function.update_of_ne ht]
      omega
  · have htotal := h.total
    rw [hcount]
    show w.wakes + 1 ≤ timeout * w.calls + _
    omega

theorem TimedInv.turn (h : TimedInv w) (hturn : w.turn a = some w') : TimedInv w' := by
  cases a with
  | call tid k =>
    obtain ⟨r, hcall, rfl⟩ := Option.map_eq_some_iff.mp hturn
    obtain ⟨hrun, -, rfl⟩ := replay_call hcall
    exact h.call hrun
  | wake tid =>
    obtain ⟨r, hwake, rfl⟩ := Option.map_eq_some_iff.mp hturn
    obtain ⟨d, hrun, hd, rfl⟩ := replay_wake hwake
    exact h.wake hrun hd

/-- **Every delay ends**: in every run no thread wakes up more than `TIMEOUT + 1` times in one delay, and
all threads together wake up at most `TIMEOUT` times for each call, and `TIMEOUT + 1` times more. -/
theorem sleeping_bounded {lines : List Line} {turns : List Turn} {w : Timed}
    (hrun : run Timed.turn (.start lines) turns = some w) :
    (∀ t, w.slept t ≤ timeout + 1) ∧ (∀ t d, w.replay.delayed t = some d → w.slept t ≤ timeout) ∧
      w.wakes ≤ timeout * (w.calls + 1) + 1 := by
  have hinv : TimedInv w := run_invariant (fun _ _ _ h hturn => h.turn hturn) (timedInv_start lines) hrun
  refine ⟨hinv.slept, hinv.delayed, ?_⟩
  have htotal := hinv.total
  have hcount := hinv.count.le
  rw [Nat.mul_succ]
  omega

/-- Inter wakes up twice before First comes. -/
def sleepyTurns : List Turn :=
  [.call 2 (.mem 0x8048300 64), .wake 2, .wake 2, .call 1 (.mem 0x8048100 64), .wake 2]

theorem sleepyTurns_isSome : (run Timed.turn (.start [accessLine]) sleepyTurns).isSome = true := by
  decide

theorem sleeping_bounded_access :
    let w := (run Timed.turn (.start [accessLine]) sleepyTurns).get sleepyTurns_isSome
    (∀ t, w.slept t ≤ timeout + 1) ∧ (∀ t d, w.replay.delayed t = some d → w.slept t ≤ timeout) ∧
      w.wakes ≤ timeout * (w.calls + 1) + 1 :=
  sleeping_bounded (Option.some_get sleepyTurns_isSome).symm

end Timed

/-! ## No cycle of delays -/

/-- The three roles of a line as the analyser writes them: First and Second by one thread, Inter by
another. -/
def Line.TwoThreads (l : Line) : Prop := l.firstId = l.secondId ∧ l.interId ≠ l.firstId

/-- The registers hold such a candidate. -/
def Ctl.TwoThreads (c : Ctl) : Prop := c.first.tid = c.second.tid ∧ c.inter.tid ≠ c.first.tid

section Awaits

variable {s s' : Replay} {a : Turn} {lines : List Line} {turns : List Turn}

theorem tids_loadNextCi (c : Ctl) :
    (c.loadNextCi.1.first.tid = c.first.tid ∧ c.loadNextCi.1.second.tid = c.second.tid ∧
        c.loadNextCi.1.inter.tid = c.inter.tid) ∨
      (c.curCi < c.ciCount ∧ c.loadNextCi.1.first.tid = (c.cells c.curCi).firstId ∧
        c.loadNextCi.1.second.tid = (c.cells c.curCi).secondId ∧
        c.loadNextCi.1.inter.tid = (c.cells c.curCi).interId) := by
  unfold Ctl.loadNextCi
  simp only
  split_ifs with hmax hcount htype
  · exact Or.inl ⟨rfl, rfl, rfl⟩
  · exact Or.inl ⟨rfl, rfl, rfl⟩
  · exact Or.inr ⟨Nat.not_le.mp hcount, rfl, rfl, rfl⟩
  · exact Or.inr ⟨Nat.not_le.mp hcount, rfl, rfl, rfl⟩

/-- The arrays hold the lines and the registers a candidate of two threads. -/
structure TidsInv (lines : List Line) (c : Ctl) : Prop where
  cells : c.cells = fun i => lines.getD i .zero
  ciCount : c.ciCount = lines.length
  tids : c.TwoThreads

theorem cell_twoThreads (htwo : ∀ l ∈ lines, l.TwoThreads) {i : ℕ} (hi : i < lines.length) :
    (lines.getD i .zero).TwoThreads := by
  have hget : lines.getD i .zero = lines[i] := by simp [List.getD, hi]
  rw [hget]
  exact htwo _ (List.getElem_mem hi)

theorem TidsInv.loadNextCi (htwo : ∀ l ∈ lines, l.TwoThreads) {c : Ctl} (h : TidsInv lines c) :
    TidsInv lines c.loadNextCi.1 := by
  obtain ⟨hcells, hcount⟩ := loadNextCi_cells c
  refine ⟨hcells.trans h.cells, hcount.trans h.ciCount, ?_⟩
  rcases tids_loadNextCi c with ⟨h1, h2, h3⟩ | ⟨hlt, h1, h2, h3⟩
  · rw [Ctl.TwoThreads, h1, h2, h3]
    exact h.tids
  · rw [Ctl.TwoThreads, h1, h2, h3, h.cells]
    exact ⟨(cell_twoThreads htwo (h.ciCount ▸ hlt)).1, (cell_twoThreads htwo (h.ciCount ▸ hlt)).2⟩

theorem tidsInv_start (htwo : ∀ l ∈ lines, l.TwoThreads) (hne : lines ≠ []) : TidsInv lines (.start lines) := by
  obtain ⟨hcells, hcount⟩ := loadNextCi_cells (Ctl.loaded lines)
  refine ⟨hcells, hcount, ?_⟩
  have hpos := List.length_pos_iff.mpr hne
  have hfirst : (Ctl.loaded lines).loadNextCi.1.ci = ((Ctl.loaded lines).cells 0).ci :=
    (loadNextCi_next (c := Ctl.loaded lines) (show 0 + 1 ≠ maxSize by decide) hpos).2.1
  have htids := cell_twoThreads htwo hpos
  simp only [Ctl.ci, Line.ci, Ci.mk.injEq] at hfirst
  obtain ⟨-, h1, h2, h3⟩ := hfirst
  have htid : ∀ {b : Bool} {r : Role} {x y z : UInt32}, r.args b = (x, y, z) → r.tid = x := by
    intro b r x y z hr
    cases b <;> exact congrArg Prod.fst hr
  show (Ctl.loaded lines).loadNextCi.1.TwoThreads
  rw [Ctl.TwoThreads, htid h1, htid h2, htid h3]
  exact htids

theorem Effect.tidsInv (htwo : ∀ l ∈ lines, l.TwoThreads) {c c' : Ctl} {tid : UInt32} {k : Call}
    (h : Effect c tid k c') (hc : TidsInv lines c) : TidsInv lines c' := by
  cases h with
  | quiet n => exact ⟨hc.cells, hc.ciCount, hc.tids⟩
  | first hf hm => exact ⟨hc.cells, hc.ciCount, hc.tids⟩
  | inter n hf hm => exact ⟨hc.cells, hc.ciCount, hc.tids⟩
  | second n hf hm => exact ⟨hc.cells, hc.ciCount, hc.tids⟩
  | load hf => exact hc.loadNextCi htwo

theorem TidsInv.turn (htwo : ∀ l ∈ lines, l.TwoThreads) (hinv : ReplayInv s) (h : TidsInv lines s.ctl)
    (hturn : s.turn a = some s') : TidsInv lines s'.ctl := by
  cases a with
  | call tid k =>
    obtain ⟨-, -, rfl⟩ := replay_call hturn
    exact call_spec.effect.tidsInv htwo h
  | wake tid =>
    obtain ⟨d, -, hd, rfl⟩ := replay_wake hturn
    exact (wake_spec (hinv.waits tid d hd)).effect.tidsInv htwo h

/-- **Delays make no cycle**: with lines as the analyser writes them, in every state of every run at most
one thread waits for a flag that is not set, it does not wait for itself, and whoever is to set the flag
waits for nobody. -/
theorem awaits_one (htwo : ∀ l ∈ lines, l.TwoThreads) (hne : lines ≠ [])
    (hrun : run Replay.turn (.start lines) turns = some s) {t u : UInt32} (h : Awaits s t u) :
    t ≠ u ∧ (∀ v, ¬ Awaits s u v) ∧ ∀ t' u', Awaits s t' u' → t' = t := by
  obtain ⟨hinv, htids⟩ : ReplayInv s ∧ TidsInv lines s.ctl :=
    run_invariant (P := fun s => ReplayInv s ∧ TidsInv lines s.ctl)
      (fun s a s' h hturn => ⟨h.1.turn hturn, h.2.turn htwo h.1 hturn⟩)
      ⟨replayInv_start lines, tidsInv_start htwo hne⟩ hrun
  obtain ⟨d, hd, hflag, hu⟩ := h
  have hwaits := hinv.waits t d hd
  have hone : ∀ t' u', Awaits s t' u' → t' = t := by
    rintro t' u' ⟨d', hd', hflag', -⟩
    exact waits_unique (hinv.waits t' d' hd') hwaits hflag' hflag
  have hself : t ≠ u := by
    obtain ⟨hfs, hif⟩ := htids.tids
    rw [hwaits.tid_eq, ← hu, Ctl.delayedRole, Ctl.awaited]
    cases d.awaitsFirst with
    | true => exact hif
    | false => exact fun heq => hif (heq.symm.trans hfs.symm)
  exact ⟨hself, fun v hv => hself (hone u v hv).symm, hone⟩

end Awaits

end Controller
end AVPredictor
