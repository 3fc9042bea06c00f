import AVPredictor.Controller.Delays

/-!
# AVPredictor.Controller.Deadlock — delays and the mutexes of the program

The controller delays a thread wherever it meets the awaited access or lock, also with a mutex in its
hands.  If the thread that is to set the flag is blocked on this mutex, neither can go on: in every run
from such a state the flags stay as they are and no candidate is reported any more, and after at most
`TIMEOUT + 1` wake-ups `exit(0)` ends the program (`deadlock_times_out`).  A candidate that can be
replayed may end so: whether it does is up to the scheduler.
-/

namespace AVPredictor
namespace Controller

open Base

/-- Where delayed threads are, and who is in an unlock. -/
structure PlaceInv (s : Sys) : Prop where
  sys : SysInv s
  count : CountOk s.replay
  delayed : ∀ t d, s.replay.delayed t = some d → (∃ e todo, s.pc t = .access e todo) ∨ ∃ m, s.pc t = .lock m
  leaving : ∀ t m, s.pc t = .unlock m → s.holds t m = true

section Place

variable {recursive : UInt32 → Bool} {s s' : Sys} {a : Act} {lines : List Line} {acts : List Act}

theorem placeInv_start (lines : List Line) : PlaceInv (.start lines) :=
  ⟨sysInv_start lines, countOk_start lines, fun _ _ h => absurd h (by simp [Sys.start, Replay.start]),
    fun _ _ h => absurd h (by simp [Sys.start])⟩

theorem holds_iff {t m : UInt32} : s.holds t m = true ↔ ∃ n, s.owner m = some (t, n) := by
  simp [Sys.holds]

/-- A mutex that is held is acquired again by its holder only. -/
theorem lockOwner_held {b : Bool} {t tid : UInt32} {n : ℕ} {o : UInt32 × ℕ}
    (h : lockOwner b tid (some (t, n)) = some o) : t = tid := by
  simp only [lockOwner] at h
  split_ifs at h with hc
  exact hc.2

/-- The part about unlocks, when `tid` moves to a place that is no unlock and no mutex changes. -/
theorem PlaceInv.leaving_update (h : PlaceInv s) (howner : s'.owner = s.owner) {tid : UInt32} {pc : Pc}
    (hpc : s'.pc = Function.update s.pc tid pc) (hnew : ∀ m, pc ≠ .unlock m) (t m : UInt32)
    (hm : s'.pc t = .unlock m) : s'.holds t m = true := by
  rw [hpc] at hm
  by_cases ht : t = tid
  · subst ht
    rw [Function.update_self] at hm
    exact absurd hm (hnew m)
  · rw [Function.update_of_ne ht] at hm
    rw [Sys.holds, howner]
    exact h.leaving t m hm

/-- The part about delayed threads, when `tid`, which is not delayed, moves. -/
theorem PlaceInv.delayed_update (h : PlaceInv s) {tid : UInt32} {pc : Pc} (hnot : s.replay.delayed tid = none)
    (t : UInt32) (d : Delay) (hd : s.replay.delayed t = some d) :
    (∃ e todo, Function.update s.pc tid pc t = .access e todo) ∨ ∃ m, Function.update s.pc tid pc t = .lock m := by
  have ht : t ≠ tid := by
    rintro rfl
    rw [hnot] at hd
    exact absurd hd (by simp)
  rw [Function.update_of_ne ht]
  exact h.delayed t d hd

/-- The same part, after a callback of `tid`. -/
theorem PlaceInv.delayed_call (h : PlaceInv s) {tid : UInt32} {k : Call} {r : Replay}
    (hcall : s.replay.call tid k = some r)
    {pc : Pc} (hown : ∀ d, r.delayed tid = some d → (∃ e todo, pc = .access e todo) ∨ ∃ m, pc = .lock m)
    (t : UInt32) (d : Delay) (hd : r.delayed t = some d) :
    (∃ e todo, Function.update s.pc tid pc t = .access e todo) ∨ ∃ m, Function.update s.pc tid pc t = .lock m := by
  obtain ⟨-, -, rfl⟩ := replay_call hcall
  by_cases ht : t = tid
  · subst ht
    rw [Function.update_self]
    exact hown d hd
  · rw [finish_delayed_of_ne s.replay ht] at hd
    rw [Function.update_of_ne ht]
    exact h.delayed t d hd

/-- An idle thread is not delayed. -/
theorem PlaceInv.not_delayed (h : PlaceInv s) {t : UInt32} (hacc : ∀ e todo, s.pc t ≠ .access e todo)
    (hlock : ∀ m, s.pc t ≠ .lock m) : s.replay.delayed t = none := by
  rw [Option.eq_none_iff_forall_ne_some]
  intro d hd
  rcases h.delayed t d hd with ⟨e, todo, hpc⟩ | ⟨m, hpc⟩
  · exact hacc e todo hpc
  · exact hlock m hpc

/-- The part about unlocks, when `tid` changes the owner of a mutex that no other thread holds. -/
theorem PlaceInv.leaving_owner (h : PlaceInv s) {tid m : UInt32} {o : Option (UInt32 × ℕ)} {pc : Pc}
    (hnew : ∀ m', pc ≠ .unlock m') (howner : ∀ t n, s.owner m = some (t, n) → t = tid) (t m' : UInt32)
    (hm' : Function.update s.pc tid pc t = .unlock m') : ∃ n, Function.update s.owner m o m' = some (t, n) := by
  have ht : t ≠ tid := by
    rintro rfl
    rw [Function.update_self] at hm'
    exact hnew m' hm'
  obtain ⟨n, hn⟩ := holds_iff.mp (h.leaving t m' ((Function.update_of_ne ht _ _).symm.trans hm'))
  have hne : m' ≠ m := by
    rintro rfl
    exact ht (howner t n hn)
  exact ⟨n, (Function.update_of_ne hne _ _).trans hn⟩

/-- A mutex that a thread is about to release is its own. -/
theorem PlaceInv.owner_of_unlock (h : PlaceInv s) {tid m : UInt32} (hpc : s.pc tid = .unlock m) (t : UInt32) (n : ℕ)
    (hn : s.owner m = some (t, n)) : t = tid := by
  obtain ⟨n', hn'⟩ := holds_iff.mp (h.leaving tid m hpc)
  rw [hn] at hn'
  exact (Prod.mk.inj (Option.some.inj hn')).1

theorem PlaceInv.step (h : PlaceInv s) (hstep : step recursive s a = some s') : PlaceInv s' := by
  have hsys := h.sys.step hstep
  cases stepped_of_step hstep with
  | @fetch tid ins readEa writeEa hpc =>
    have hnot : s.replay.delayed tid = none := h.not_delayed (by simp [hpc]) (by simp [hpc])
    exact ⟨hsys, h.count, h.delayed_update hnot, h.leaving_update rfl rfl (by simp)⟩
  | @callback tid addr e todo r hpc hcall =>
    obtain ⟨hrun, -, rfl⟩ := replay_call hcall
    exact ⟨hsys, h.count.call h.sys.replay.flags hrun, h.delayed_call hcall fun _ _ => Or.inl ⟨e, todo, rfl⟩,
      h.leaving_update rfl rfl (by simp)⟩
  | @access tid e hpc hd =>
    exact ⟨hsys, h.count, h.delayed_update hd, h.leaving_update rfl rfl (by simp)⟩
  | @lockCall tid m callsiteV r hpc hcall =>
    obtain ⟨hrun, -, rfl⟩ := replay_call hcall
    exact ⟨hsys, h.count.call h.sys.replay.flags hrun, h.delayed_call hcall fun _ _ => Or.inr ⟨m, rfl⟩,
      h.leaving_update rfl rfl (by simp)⟩
  | @acquire tid m o hpc hd ho =>
    have howner : ∀ t n, s.owner m = some (t, n) → t = tid := by
      intro t n hn
      rw [hn] at ho
      exact lockOwner_held ho
    exact ⟨hsys, h.count, h.delayed_update hd, fun t m' hm' =>
      holds_iff.mpr (h.leaving_owner (by simp) howner t m' hm')⟩
  | @unlockCall tid m callsiteV r hpc hm hcall =>
    have hnone : ∀ d, r.delayed tid ≠ some d := by
      intro d hd
      obtain ⟨-, -, rfl⟩ := replay_call hcall
      have hk := (call_spec.sleeps d ((finish_delayed_self _ _ _).symm.trans hd)).1
      cases d <;> exact absurd hk (by simp [Delay.call])
    have hrunning := hcall
    obtain ⟨hrun, -, rfl⟩ := replay_call hrunning
    refine ⟨hsys, h.count.call h.sys.replay.flags hrun, h.delayed_call hcall fun d hd => absurd hd (hnone d),
      fun t m' hm' => ?_⟩
    by_cases ht : t = tid
    · subst ht
      obtain rfl : m = m' := by simpa using hm'
      exact hm
    · exact h.leaving t m' ((Function.update_of_ne ht _ _).symm.trans hm')
  | @release tid m hpc =>
    have hnot : s.replay.delayed tid = none := h.not_delayed (by simp [hpc]) (by simp [hpc])
    exact ⟨hsys, h.count, h.delayed_update hnot, fun t m' hm' =>
      holds_iff.mpr (h.leaving_owner (by simp) (h.owner_of_unlock hpc) t m' hm')⟩
  | @wake tid r hwake =>
    obtain ⟨d, hrun, hd, rfl⟩ := replay_wake hwake
    refine ⟨hsys, h.count.wake hrun d, fun t d' hd' => ?_, h.leaving⟩
    by_cases ht : t = tid
    · subst ht
      exact h.delayed t d hd
    · exact h.delayed t d' ((finish_delayed_of_ne s.replay ht _).symm.trans hd')

theorem placeInv_run (hrun : run (Controller.step recursive) (.start lines) acts = some s) : PlaceInv s :=
  run_invariant (fun _ _ _ h hstep => h.step hstep) (placeInv_start lines) hrun

end Place

/-! ## Two threads that wait for each other -/

/-- Thread `a` is delayed for a mark of thread `b` with mutex `m` in its hands, and `b` is about to
acquire `m`. -/
structure Deadlocked (s : Sys) (a b m : UInt32) : Prop where
  ne : a ≠ b
  awaits : Awaits s.replay a b
  holds : s.holds a m = true
  blocked : s.pc b = .lock m

/-- Nothing that counts has changed. -/
structure Frozen (s s' : Sys) : Prop where
  flags : s'.replay.ctl.flags = s.replay.ctl.flags
  reported : s'.reported = s.reported

section Deadlock

variable {recursive : UInt32 → Bool} {s s' : Sys} {act : Act} {a b m : UInt32} {acts : List Act} {lines : List Line}

/-- While `a` has to wait for `b`, another thread's callback changes nothing but the count. -/
theorem Effect.quiet_of_awaits {c c' : Ctl} {tid : UInt32} {k : Call} {d : Delay}
    (h : Effect c tid k c') (hw : c.Waits a d)
    (hflag : c.flagOf d = false) (hb : tid = (c.awaited d).tid → ∃ v, k = .lock v) :
    ∃ n, c' = { c with countTimeout := n } := by
  have hnot : ∀ r, r = c.awaited d → ¬ c.Marks r tid k := by
    rintro r rfl hm
    obtain ⟨v, rfl⟩ := hb hm.tid_eq
    exact hm
  cases h with
  | quiet n => exact ⟨n, rfl⟩
  | first hf hm =>
    simp only [Ctl.flags, Prod.mk.injEq] at hf
    cases hd : d.awaitsFirst with
    | true => exact absurd hm (hnot _ (by rw [Ctl.awaited, hd, if_pos rfl]))
    | false => exact absurd (hw.firstReady hd) (by simp [hf.1])
  | inter n hf hm =>
    simp only [Ctl.flags, Prod.mk.injEq] at hf
    cases hd : d.awaitsFirst with
    | true => exact absurd hflag (by simp [Ctl.flagOf, hd, hf.1])
    | false => exact absurd hm (hnot _ (by simp [Ctl.awaited, hd]))
  | second n hf hm =>
    simp only [Ctl.flags, Prod.mk.injEq] at hf
    exact absurd hflag (by unfold Ctl.flagOf; split_ifs <;> simp [hf.1, hf.2.1])
  | load hf => exact absurd hw (not_waits_of_flags hf)

theorem frozen_observe {r : Replay} (e : Option Exec) (hflags : r.ctl.flags = s.replay.ctl.flags) :
    Frozen s (s.observe e r) := by
  refine ⟨hflags, ?_⟩
  simp only [Ctl.flags, Prod.mk.injEq] at hflags
  have hnot : ¬ (r.ctl.secondReady = true ∧ s.replay.ctl.secondReady = false) := by
    rw [hflags.2.2]
    simp
  exact if_neg hnot

/-- `a` goes on waiting for `b` when only the count changes. -/
theorem Awaits.count {s : Replay} (h : Awaits s a b) {n : ℕ} {r : Ctl × Ret} {tid : UInt32}
    (hctl : r.1 = { s.ctl with countTimeout := n })
    (hkeep : tid = a → r.2.delay = s.delayed a) : Awaits (s.finish tid r) a b := by
  obtain ⟨d, hd, hflag, hu⟩ := h
  refine ⟨d, ?_, ?_, ?_⟩
  · by_cases ht : a = tid
    · subst ht
      rw [finish_delayed_self, hkeep rfl, hd]
    · rw [finish_delayed_of_ne s ht, hd]
  · show r.1.flagOf d = false
    rw [hctl]
    exact hflag
  · show (r.1.awaited d).tid = b
    rw [hctl]
    exact hu

/-- A call of a third thread: nobody goes to sleep, so the count stays. -/
theorem Deadlocked.call (h : Deadlocked s a b m) (hp : PlaceInv s) {tid : UInt32} {k : Call} {r : Replay}
    (hcall : s.replay.call tid k = some r) (ha : tid ≠ a) (hb : tid ≠ b) :
    r.ctl = s.replay.ctl ∧ Awaits r a b := by
  obtain ⟨hrun, -, rfl⟩ := replay_call hcall
  obtain ⟨d, hd, hflag, hu⟩ := h.awaits
  have hw := hp.sys.replay.waits a d hd
  obtain ⟨n, hn⟩ := call_spec.effect.quiet_of_awaits (k := k) hw hflag fun heq => absurd (heq.trans hu) hb
  have hcount : n = s.replay.ctl.countTimeout := by
    rcases call_ret hp.sys.replay.flags tid k with hret | ⟨d', hret⟩
    · have hsame := call_done hret
      rw [hn] at hsame
      exact hsame
    · exact absurd (waits_unique (waits_of_sleep hret) hw (call_sleep hret).2 hflag) ha
  refine ⟨?_, h.awaits.count hn fun heq => absurd heq ha⟩
  show (s.replay.ctl.call tid k).1 = _
  rw [hn, hcount]

/-- The wake-up of `a`: it goes on waiting, or the time is out. -/
theorem Deadlocked.wake_self (h : Deadlocked s a b m) {r : Replay} (hwake : s.replay.wake a = some r) :
    r.ctl = { s.replay.ctl with countTimeout := s.replay.ctl.countTimeout + 1 } ∧
      (r.status = .exited ∨ r.status = .running ∧ Awaits r a b) := by
  obtain ⟨d, hrun, hd, rfl⟩ := replay_wake hwake
  obtain ⟨d', hd', hflag, hu⟩ := h.awaits
  obtain rfl : d = d' := Option.some.inj (hd.symm.trans hd')
  have hw := woken s.replay.ctl d
  generalize hr : s.replay.ctl.wake d = r at hw
  cases hw with
  | exit hcount => exact ⟨rfl, Or.inl rfl⟩
  | sleep hcount hflag' =>
    refine ⟨rfl, Or.inr ⟨rfl, h.awaits.count rfl fun _ => ?_⟩⟩
    rw [hd]
    rfl
  | done hcount hflag' hsame =>
    rw [hflag] at hflag'
    exact absurd hflag' (by simp)

/-- The wake-up of another thread, which is delayed in a lock or has nothing to mark. -/
theorem Deadlocked.wake_other (h : Deadlocked s a b m) (hp : PlaceInv s) {tid : UInt32} {r : Replay}
    (hwake : s.replay.wake tid = some r) (ha : tid ≠ a) :
    r.ctl = { s.replay.ctl with countTimeout := s.replay.ctl.countTimeout + 1 } ∧ Awaits r a b := by
  obtain ⟨d', hrun, hd', rfl⟩ := replay_wake hwake
  obtain ⟨d, hd, hflag, hu⟩ := h.awaits
  have hw := hp.sys.replay.waits a d hd
  have hlock : tid = (s.replay.ctl.awaited d).tid → ∃ v, d'.call = .lock v := by
    intro heq
    obtain rfl : tid = b := heq.trans hu
    cases hk : d'.call with
    | mem ip addr =>
      obtain ⟨e, todo, hpc, -⟩ := hp.sys.delayed tid d' ip addr hd' hk
      rw [h.blocked] at hpc
      exact absurd hpc (by simp)
    | lock v => exact ⟨v, rfl⟩
    | unlock v => cases d' <;> exact absurd hk (by simp [Delay.call])
  obtain ⟨n, hn⟩ := (wake_spec (hp.sys.replay.waits tid d' hd')).effect.quiet_of_awaits hw hflag hlock
  have hcount : n = s.replay.ctl.countTimeout + 1 := by
    have hsame := wake_count s.replay.ctl d'
    rw [hn] at hsame
    exact hsame
  refine ⟨?_, h.awaits.count hn fun heq => absurd heq ha⟩
  show (s.replay.ctl.wake d').1 = _
  rw [hn, hcount]

/-- `a` sleeps, outside any unlock. -/
theorem Deadlocked.self (h : Deadlocked s a b m) (hp : PlaceInv s) :
    s.replay.delayed a ≠ none ∧ ∀ m', s.pc a ≠ .unlock m' := by
  obtain ⟨d, hd, -⟩ := h.awaits
  have hplace := hp.delayed a d hd
  refine ⟨by simp [hd], fun m' hpc => ?_⟩
  rw [hpc] at hplace
  simp at hplace

/-- What a step leaves of a deadlock. -/
structure Lasting (s s' : Sys) (a b m : UInt32) (wakes : ℕ) : Prop where
  frozen : Frozen s s'
  count : s.replay.ctl.countTimeout + wakes ≤ s'.replay.ctl.countTimeout
  ends : s'.replay.status = .exited ∨ Deadlocked s' a b m

/-- A thread that is elsewhere is not `b`. -/
theorem Deadlocked.ne_blocked (h : Deadlocked s a b m) {tid : UInt32} (hpc : s.pc tid ≠ .lock m) : b ≠ tid := by
  rintro rfl
  exact hpc h.blocked

/-- A step of the program without a callback, by a thread that is not `b`. -/
theorem Deadlocked.move (h : Deadlocked s a b m) {tid : UInt32} {pc : Pc} (hb : b ≠ tid)
    (hreplay : s'.replay = s.replay) (hreported : s'.reported = s.reported)
    (hpc : s'.pc = Function.update s.pc tid pc) (hholds : s'.holds a m = true) : Lasting s s' a b m 0 := by
  refine ⟨⟨by rw [hreplay], hreported⟩, by rw [hreplay]; exact le_rfl, Or.inr ⟨h.ne, ?_, hholds, ?_⟩⟩
  · rw [hreplay]
    exact h.awaits
  · rw [hpc, Function.update_of_ne hb]
    exact h.blocked

/-- A callback of a third thread. -/
theorem Deadlocked.moveCall (h : Deadlocked s a b m) (hp : PlaceInv s) {tid : UInt32} {k : Call} {r : Replay}
    {e : Option Exec} {pc : Pc} (hcall : s.replay.call tid k = some r) (ha : tid ≠ a) (hb : b ≠ tid)
    (hreplay : s'.replay = r) (hreported : s'.reported = (s.observe e r).reported) (howner : s'.owner = s.owner)
    (hpc : s'.pc = Function.update s.pc tid pc) : Lasting s s' a b m 0 := by
  obtain ⟨hctl, hawaits⟩ := h.call hp hcall ha hb.symm
  have hfrozen : Frozen s (s.observe e r) := frozen_observe _ (by rw [hctl])
  refine ⟨⟨by rw [hreplay, hctl], hreported.trans hfrozen.reported⟩, ?_, Or.inr ⟨h.ne, ?_, ?_, ?_⟩⟩
  · rw [hreplay, hctl]
    exact le_rfl
  · rw [hreplay]
    exact hawaits
  · rw [Sys.holds, howner]
    exact h.holds
  · rw [hpc, Function.update_of_ne hb]
    exact h.blocked

/-- A thread that acquires or releases a mutex does not take `m` from `a`. -/
theorem Deadlocked.holds_update (h : Deadlocked s a b m) {m' : UInt32} {o : Option (UInt32 × ℕ)} (hne : m ≠ m') :
    ∃ n, Function.update s.owner m' o m = some (a, n) := by
  obtain ⟨n, hn⟩ := holds_iff.mp h.holds
  exact ⟨n, (Function.update_of_ne hne _ _).trans hn⟩

/-- **Step lemma**: every step leaves the two as they are, or is the time-out. -/
theorem Deadlocked.step (h : Deadlocked s a b m) (hp : PlaceInv s) (hstep : step recursive s act = some s') :
    Lasting s s' a b m (if act = .wake a then 1 else 0) := by
  obtain ⟨hdelayed, hunlock⟩ := h.self hp
  obtain ⟨n, hn⟩ := holds_iff.mp h.holds
  have hcall : ∀ {tid : UInt32} {k : Call} {r : Replay}, s.replay.call tid k = some r → tid ≠ a := by
    rintro tid k r hcall rfl
    exact hdelayed (replay_call hcall).2.1
  cases stepped_of_step hstep with
  | @fetch tid ins readEa writeEa hpc =>
    exact h.move (h.ne_blocked (by simp [hpc])) rfl rfl rfl h.holds
  | @callback tid addr e todo r hpc hr =>
    exact h.moveCall hp hr (hcall hr) (h.ne_blocked (by simp [hpc])) rfl rfl rfl rfl
  | @access tid e hpc hd =>
    exact h.move (h.ne_blocked (by simp [hpc])) rfl rfl rfl h.holds
  | @lockCall tid m' callsiteV r hpc hr =>
    exact h.moveCall hp hr (hcall hr) (h.ne_blocked (by simp [hpc])) rfl rfl rfl rfl
  | @acquire tid m' o hpc hd ho =>
    -- `a` holds `m`, and `a` itself is delayed
    have hne : m ≠ m' := by
      rintro rfl
      rw [hn] at ho
      obtain rfl := lockOwner_held ho
      exact hdelayed hd
    have hb : b ≠ tid := h.ne_blocked fun hm => hne (Pc.lock.inj (hm.symm.trans hpc))
    exact h.move hb rfl rfl rfl (holds_iff.mpr (h.holds_update hne))
  | @unlockCall tid m' callsiteV r hpc hm hr =>
    exact h.moveCall hp hr (hcall hr) (h.ne_blocked (by simp [hpc])) rfl rfl rfl rfl
  | @release tid m' hpc =>
    -- who releases holds the mutex, and `a` is in no unlock
    have hne : m ≠ m' := by
      rintro rfl
      obtain rfl := hp.owner_of_unlock hpc a n hn
      exact hunlock m hpc
    exact h.move (h.ne_blocked (by simp [hpc])) rfl rfl rfl (holds_iff.mpr (h.holds_update hne))
  | @wake tid r hwake =>
    by_cases ha : tid = a
    · subst ha
      obtain ⟨hctl, hends⟩ := h.wake_self hwake
      refine ⟨frozen_observe _ (by rw [hctl]; rfl), ?_, hends.imp id fun hr => ⟨h.ne, hr.2, h.holds, h.blocked⟩⟩
      show _ ≤ r.ctl.countTimeout
      simp [hctl]
    · obtain ⟨hctl, hawaits⟩ := h.wake_other hp hwake ha
      refine ⟨frozen_observe _ (by rw [hctl]; rfl), ?_, Or.inr ⟨h.ne, hawaits, h.holds, h.blocked⟩⟩
      have hcount : r.ctl.countTimeout = s.replay.ctl.countTimeout + 1 := by rw [hctl]
      show _ ≤ r.ctl.countTimeout
      rw [if_neg (by simpa using ha)]
      omega

/-- Nothing happens after the end. -/
theorem running_of_step (hstep : step recursive s act = some s') : s.replay.status = .running := by
  cases act with
  | fetch tid ins readEa writeEa =>
    simp only [step] at hstep
    split_ifs at hstep with hc
    exact hc.1
  | callback tid =>
    simp only [step] at hstep
    split at hstep
    · obtain ⟨r, hcall, -⟩ := Option.map_eq_some_iff.mp hstep
      exact (replay_call hcall).1
    · exact absurd hstep (by simp)
  | access tid =>
    simp only [step] at hstep
    split at hstep
    · split_ifs at hstep with hc
      exact hc.1
    · exact absurd hstep (by simp)
  | lockCall tid m callsiteV =>
    simp only [step] at hstep
    split_ifs at hstep
    obtain ⟨r, hcall, -⟩ := Option.map_eq_some_iff.mp hstep
    exact (replay_call hcall).1
  | acquire tid =>
    simp only [step] at hstep
    split at hstep
    · split_ifs at hstep with hc
      exact hc.1
    · exact absurd hstep (by simp)
  | unlockCall tid m callsiteV =>
    simp only [step] at hstep
    split_ifs at hstep
    obtain ⟨r, hcall, -⟩ := Option.map_eq_some_iff.mp hstep
    exact (replay_call hcall).1
  | release tid =>
    simp only [step] at hstep
    split at hstep
    · split_ifs at hstep with hc
      exact hc
    · exact absurd hstep (by simp)
  | wake tid =>
    simp only [step] at hstep
    obtain ⟨r, hwake, -⟩ := Option.map_eq_some_iff.mp hstep
    obtain ⟨d, hrun, -⟩ := replay_wake hwake
    exact hrun

theorem Lasting.trans {s'' : Sys} {j k : ℕ} (h : Lasting s s' a b m j) (h' : Lasting s' s'' a b m k) :
    Lasting s s'' a b m (j + k) := by
  obtain ⟨⟨hf, hr⟩, hc, -⟩ := h
  obtain ⟨⟨hf', hr'⟩, hc', he'⟩ := h'
  exact ⟨⟨hf'.trans hf, hr'.trans hr⟩, by omega, he'⟩

/-- **Run lemma.** -/
theorem Deadlocked.run (h : Deadlocked s a b m) (hp : PlaceInv s)
    (hrun : run (Controller.step recursive) s acts = some s') :
    Lasting s s' a b m (acts.count (.wake a)) := by
  induction acts generalizing s with
  | nil =>
    obtain rfl := Option.some.inj hrun
    exact ⟨⟨rfl, rfl⟩, le_rfl, Or.inr h⟩
  | cons act acts ih =>
    obtain ⟨s1, hstep, hrest⟩ := run_cons.mp hrun
    have hfirst := h.step hp hstep
    have hcount : (act :: acts).count (.wake a) = (if act = .wake a then 1 else 0) + acts.count (.wake a) := by
      rw [List.count_cons, Nat.add_comm]
      simp
    rw [hcount]
    rcases hfirst.ends with hexit | hdead
    · cases acts with
      | nil =>
        obtain rfl := Option.some.inj hrest
        exact hfirst
      | cons act' acts =>
        obtain ⟨s2, hstep', -⟩ := run_cons.mp hrest
        exact absurd ((running_of_step hstep').symm.trans hexit) (by simp)
    · exact hfirst.trans (ih hdead (hp.step hstep) hrest)

/-- **A deadlock lasts until the time-out**: in every run, if a thread is delayed for another one that is
blocked on a mutex which the first one holds, then whatever happens next, no flag is set and nothing is
reported; the first thread wakes up at most `TIMEOUT + 1` times, and as long as the program has not
exited, the two wait for each other. -/
theorem deadlock_times_out {recursive : UInt32 → Bool} {lines : List Line}
    {acts acts' : List Act} {s s' : Sys} {a b m : UInt32}
    (hrun : run (step recursive) (.start lines) acts = some s) (h : Deadlocked s a b m)
    (hrun' : run (step recursive) s acts' = some s') :
    s'.replay.ctl.flags = s.replay.ctl.flags ∧ s'.reported = s.reported ∧ acts'.count (.wake a) ≤ timeout + 1 ∧
      (s'.replay.status = .exited ∨ Deadlocked s' a b m) := by
  have hp := placeInv_run hrun
  have hlast := h.run hp hrun'
  have hp' : PlaceInv s' := run_invariant (fun _ _ _ h hstep => h.step hstep) hp hrun'
  have hcount := hp'.count.le
  have hle := hlast.count
  exact ⟨hlast.frozen.flags, hlast.frozen.reported, by omega, hlast.ends⟩

end Deadlock

/-- Thread 1 performs First, acquires mutex 96 and is delayed at Second; thread 2 needs the mutex for
Inter. -/
def deadlockActs : List Act :=
  [.fetch 1 (writeIns 0x8048100) 0 64, .callback 1, .access 1, .lockCall 1 96 20, .acquire 1,
    .fetch 1 (writeIns 0x8048200) 0 64, .callback 1, .lockCall 2 96 30]

theorem deadlockActs_isSome :
    (run (step fun _ => false) (.start [writeReadLine]) deadlockActs).isSome = true := by
  decide

/-- The two threads wait for each other. -/
def deadlockSys : Sys := (run (step fun _ => false) (.start [writeReadLine]) deadlockActs).get deadlockActs_isSome

theorem wakes_isSome : (run (step fun _ => false) deadlockSys [.wake 1, .wake 1]).isSome = true := by
  decide

theorem deadlock_times_out_mutex :
    ∃ s', run (step fun _ => false) deadlockSys [.wake 1, .wake 1] = some s' ∧
      s'.replay.ctl.flags = deadlockSys.replay.ctl.flags ∧ s'.reported = deadlockSys.reported ∧
      [Act.wake 1, .wake 1].count (.wake 1) ≤ timeout + 1 ∧ (s'.replay.status = .exited ∨ Deadlocked s' 1 2 96) :=
  ⟨_, (Option.some_get wakes_isSome).symm,
    deadlock_times_out (Option.some_get deadlockActs_isSome).symm
      ⟨by decide, ⟨.memSecond 0x8048200 64, by decide, by decide, by decide⟩, by decide, by decide⟩
      (Option.some_get wakes_isSome).symm⟩

/-- The same threads with thread 2 first at the mutex: the candidate is reported. -/
example :
    (run (step fun _ => false) (.start [writeReadLine])
      [.fetch 1 (writeIns 0x8048100) 0 64, .callback 1, .access 1, .lockCall 2 96 30, .acquire 2,
        .fetch 2 (readIns 0x8048300) 64 0, .callback 2, .access 2, .unlockCall 2 96 31, .release 2,
        .lockCall 1 96 20, .acquire 1, .fetch 1 (writeIns 0x8048200) 0 64, .callback 1, .access 1]).map
      (fun s => s.reported.length) = some 1 := by
  decide

end Controller
end AVPredictor
