import AVPredictor.Controller.Confirmed
import AVPredictor.Controller.LoadNext

/-!
# AVPredictor.Controller.Completable — when a candidate can still be completed

A wake-up after the time-out ends the program, whether the flag that the thread waits for is set by then
or not.  Second goes on only by waking up, and so does Inter if it sleeps; the count of their wake-ups
starts again when a role goes to sleep, and only Second can do that once First has come.  So while Second
does not sleep the candidate can be completed, however far the count is (`inter_comes`, `second_comes`),
and while it sleeps exactly if the count leaves room for these one or two wake-ups: otherwise nothing that
any thread does completes the candidate (`Late.turn`).
-/

namespace AVPredictor
namespace Controller

open Base Offline

/-! ## What the time-out leaves -/

/-- The wake-ups without which the candidate is not completed, while Second sleeps. -/
def Replay.wakesLeft (s : Replay) : ℕ := if s.delayed s.ctl.inter.tid = none then 1 else 2

/-- If Second sleeps, the count leaves room for the wake-ups that are needed. -/
def Replay.InTime (s : Replay) : Prop :=
  s.delayed s.ctl.second.tid = none ∨ s.ctl.countTimeout + s.wakesLeft ≤ timeout

instance (s : Replay) : Decidable s.InTime := inferInstanceAs (Decidable (_ ∨ _))

/-- The invariants of a run of lines of two threads. -/
structure PairInv (lines : List Line) (s : Replay) : Prop where
  replay : ReplayInv s
  tids : TidsInv lines s.ctl

/-- A running program that can complete the candidate. -/
structure Going (lines : List Line) (s : Replay) : Prop extends PairInv lines s where
  running : s.status = .running
  inTime : s.InTime

section Completable

variable {lines : List Line} {s s' : Replay} {w w' : Watch} {a : Turn} {c c' : Ctl} {tid t : UInt32} {k : Call}
  {d d' : Delay} {turns : List Turn}

theorem pairInv_start (htwo : ∀ l ∈ lines, l.TwoThreads) (hne : lines ≠ []) : PairInv lines (.start lines) :=
  ⟨replayInv_start lines, tidsInv_start htwo hne⟩

theorem PairInv.turn (htwo : ∀ l ∈ lines, l.TwoThreads) (h : PairInv lines s) (hturn : s.turn a = some s') :
    PairInv lines s' :=
  ⟨h.replay.turn hturn, h.tids.turn htwo h.replay hturn⟩

/-- Inter sleeps before its mark. -/
theorem Ctl.Waits.interReady (h : c.Waits t d) (hd : d.awaitsFirst = true) : c.interReady = false := by
  cases d with
  | memInter ip addr => exact h.2.1
  | memSecond ip addr => exact absurd hd (by simp [Delay.awaitsFirst])
  | lockInter callsiteV => exact h.2.2.2.1
  | lockSecond callsiteV => exact absurd hd (by simp [Delay.awaitsFirst])

/-- Nobody sleeps after the mark of Second. -/
theorem Ctl.Waits.secondReady (h : c.Waits t d) : c.secondReady = false := by
  cases d with
  | memInter ip addr => exact h.2.2
  | memSecond ip addr => exact h.2.2
  | lockInter callsiteV => exact h.2.2.2.2
  | lockSecond callsiteV => exact h.2.2.2.2

/-- The thread of Inter sleeps as Inter. -/
theorem PairInv.inter_awaits (h : PairInv lines s) (hd : s.delayed s.ctl.inter.tid = some d) :
    d.awaitsFirst = true := by
  obtain ⟨hfs, hif⟩ := h.tids.tids
  by_contra hne
  have htid := (h.replay.waits _ _ hd).tid_eq
  rw [Ctl.delayedRole, if_neg hne] at htid
  exact hif (htid.trans hfs.symm)

/-- The thread of First and Second sleeps as Second. -/
theorem PairInv.second_awaits (h : PairInv lines s) (hd : s.delayed s.ctl.second.tid = some d) :
    d.awaitsFirst = false := by
  obtain ⟨hfs, hif⟩ := h.tids.tids
  by_contra hne
  have htid := (h.replay.waits _ _ hd).tid_eq
  rw [Ctl.delayedRole, if_pos (by simpa using hne)] at htid
  exact hif (htid.symm.trans hfs.symm)

/-! ## In time -/

/-- A turn of a thread that returns from its callback. -/
theorem turn_call (hrun : s.status = .running) (hd : s.delayed tid = none) {r : Ctl × Ret}
    (hcall : s.ctl.call tid k = r) : s.turn (.call tid k) = some (s.finish tid r) := by
  show s.call tid k = _
  rw [Replay.call, if_pos ⟨hrun, hd⟩, hcall]

theorem turn_wake (hrun : s.status = .running) (hd : s.delayed tid = some d) {r : Ctl × Ret}
    (hwake : s.ctl.wake d = r) : s.turn (.wake tid) = some (s.finish tid r) := by
  show s.wake tid = _
  rw [Replay.wake, if_pos hrun, hd, Option.map_some, hwake]

/-- First, at its turn. -/
theorem first_comes (htwo : ∀ l ∈ lines, l.TwoThreads) (h : Going lines s)
    (hflags : s.ctl.flags = (false, false, false)) :
    ∃ s', Within Replay.turn 1 s s' ∧ Going lines s' ∧ s'.ctl.flags = (true, false, false) := by
  obtain ⟨hfs, -⟩ := h.tids.tids
  have hfirst : s.delayed s.ctl.first.tid = none := by
    rw [Option.eq_none_iff_forall_ne_some, hfs]
    intro d hd
    have hready := (h.replay.waits _ _ hd).firstReady (h.second_awaits hd)
    simp only [Ctl.flags, Prod.mk.injEq] at hflags
    exact absurd (hready.symm.trans hflags.1) (by simp)
  have hturn := turn_call h.running hfirst (call_marks_first hflags (marks_marking _ _))
  refine ⟨_, .one hturn, ⟨h.toPairInv.turn htwo hturn, rfl, Or.inl ?_⟩, ?_⟩
  · show (s.finish _ _).delayed s.ctl.second.tid = none
    rw [← hfs, finish_delayed_self]
    rfl
  · simp only [Ctl.flags, Prod.mk.injEq] at hflags
    simp [Replay.finish, Ctl.flags, hflags.2.1, hflags.2.2]

/-- The call of Second before the mark of Inter: its access, or its lock. -/
def Ctl.early (c : Ctl) : Call × Delay :=
  if c.isLockedType then (.lock c.second.lock, .lockSecond c.second.lock)
  else (.mem c.second.inst c.second.addr, .memSecond c.second.inst c.second.addr)

theorem call_early (htwo : c.TwoThreads) (hflags : c.flags = (true, false, false)) :
    c.call c.second.tid c.early.1 = ({ c with countTimeout := 0 }, .sleep c.early.2) := by
  obtain ⟨hfs, hif⟩ := htwo
  have hne : c.second.tid ≠ c.inter.tid := fun heq => hif (heq.symm.trans hfs.symm)
  simp only [Ctl.flags, Prod.mk.injEq] at hflags
  cases hl : c.isLockedType with
  | true => simp [Ctl.early, Ctl.call, Ctl.beforeThreadLock, hl, hflags.1, hflags.2.1, hflags.2.2]
  | false =>
    simp [Ctl.early, Ctl.call, Ctl.beforeMemAccess, Role.isAccess, hl, hflags.1, hflags.2.1, hflags.2.2, hne]

/-- After First, there is time for Inter and Second to wake up: if Second does not sleep yet, its call
starts the count. -/
theorem second_waits (htwo : ∀ l ∈ lines, l.TwoThreads) (h : Going lines s)
    (hflags : s.ctl.flags = (true, false, false)) :
    ∃ s', Within Replay.turn 1 s s' ∧ Going lines s' ∧ s'.ctl.flags = (true, false, false) ∧
      s'.ctl.inter = s.ctl.inter ∧ s'.delayed s.ctl.inter.tid = s.delayed s.ctl.inter.tid ∧
      s'.ctl.countTimeout + s'.wakesLeft ≤ timeout := by
  rcases h.inTime with hnone | htime
  · have htids := h.tids.tids
    have hne : s.ctl.inter.tid ≠ s.ctl.second.tid := fun heq => htids.2 (heq.trans htids.1.symm)
    have hturn := turn_call h.running hnone (call_early htids hflags)
    have hcount : 0 + (s.finish s.ctl.second.tid
        ({ s.ctl with countTimeout := 0 }, .sleep s.ctl.early.2)).wakesLeft ≤ timeout := by
      unfold Replay.wakesLeft
      split_ifs <;> decide
    exact ⟨_, .one hturn, ⟨h.toPairInv.turn htwo hturn, rfl, Or.inr hcount⟩, hflags, rfl,
      finish_delayed_of_ne s hne _, hcount⟩
  · exact ⟨s, (Within.refl s).mono (Nat.zero_le 1), h, hflags, rfl, rfl, htime⟩

/-- Inter, at its turn and awake. -/
theorem inter_marks (htwo : ∀ l ∈ lines, l.TwoThreads) (h : Going lines s)
    (hflags : s.ctl.flags = (true, false, false)) (hnone : s.delayed s.ctl.inter.tid = none) :
    ∃ s', Within Replay.turn 1 s s' ∧ Going lines s' ∧ s'.ctl.flags = (true, true, false) := by
  obtain ⟨hfs, hif⟩ := h.tids.tids
  have hne : s.ctl.second.tid ≠ s.ctl.inter.tid := fun heq => hif (heq.symm.trans hfs.symm)
  have hturn := turn_call h.running hnone (call_marks_inter hflags (marks_marking _ _))
  refine ⟨_, .one hturn, ⟨h.toPairInv.turn htwo hturn, rfl, ?_⟩, ?_⟩
  · rcases h.inTime with hsecond | htime
    · exact Or.inl ((finish_delayed_of_ne s hne _).trans hsecond)
    · have hafter : (s.finish s.ctl.inter.tid ({ s.ctl with interReady := true }, .done)).wakesLeft =
          s.wakesLeft := by
        rw [Replay.wakesLeft, Replay.wakesLeft, if_pos hnone]
        exact if_pos (finish_delayed_self s _ _)
      exact Or.inr (hafter ▸ htime)
  · simp only [Ctl.flags, Prod.mk.injEq] at hflags
    simp [Replay.finish, Ctl.flags, hflags.1, hflags.2.2]

/-- Inter, at its turn.  If it sleeps, Second goes to sleep as well, and then there is time for Inter to
wake up. -/
theorem inter_comes (htwo : ∀ l ∈ lines, l.TwoThreads) (h : Going lines s)
    (hflags : s.ctl.flags = (true, false, false)) :
    ∃ s', Within Replay.turn 3 s s' ∧ Going lines s' ∧ s'.ctl.flags = (true, true, false) := by
  by_cases hnone : s.delayed s.ctl.inter.tid = none
  · obtain ⟨s', hwithin, hgoing, hflags'⟩ := inter_marks htwo h hflags hnone
    exact ⟨s', hwithin.mono (by omega), hgoing, hflags'⟩
  · obtain ⟨s1, hwithin1, h1, hflags1, hinter, hdelayed, htime⟩ := second_waits htwo h hflags
    obtain ⟨d, hd⟩ := Option.ne_none_iff_exists'.mp hnone
    rw [← hdelayed, ← hinter] at hd
    have htwice : s1.wakesLeft = 2 := if_neg (by rw [hd]; simp)
    have hcount : ¬ s1.ctl.countTimeout + 1 > timeout := by omega
    have hdelay := h1.inter_awaits hd
    simp only [Ctl.flags, Prod.mk.injEq] at hflags1
    -- the count after the wake-up still leaves room for that of Second
    have hafter : ∀ c', c'.countTimeout = s1.ctl.countTimeout + 1 → c'.inter = s1.ctl.inter →
        (s1.finish s1.ctl.inter.tid (c', .done)).InTime := by
      intro c' hc' hsame
      have hleft : (s1.finish s1.ctl.inter.tid (c', .done)).wakesLeft = 1 := by
        refine if_pos ?_
        show (s1.finish _ _).delayed c'.inter.tid = none
        rw [hsame, finish_delayed_self]
        rfl
      refine Or.inr ?_
      rw [hleft]
      show c'.countTimeout + 1 ≤ timeout
      omega
    cases d with
    | memInter ip addr =>
      have hwake : s1.ctl.wake (.memInter ip addr) =
          ({ s1.ctl with interReady := true, countTimeout := s1.ctl.countTimeout + 1 }, .done) := by
        simp [Ctl.wake, hcount, hflags1.1]
      have hturn := turn_wake h1.running hd hwake
      refine ⟨_, (hwithin1.trans (.one hturn)).mono (by omega),
        ⟨h1.toPairInv.turn htwo hturn, rfl, hafter _ rfl rfl⟩, ?_⟩
      simp [Replay.finish, Ctl.flags, hflags1.1, hflags1.2.2]
    | lockInter callsiteV =>
      have hwake : s1.ctl.wake (.lockInter callsiteV) =
          ({ s1.ctl with countTimeout := s1.ctl.countTimeout + 1 }, .done) := by
        simp [Ctl.wake, hcount, hflags1.1]
      have hturn := turn_wake h1.running hd hwake
      have h2 : Going lines _ := ⟨h1.toPairInv.turn htwo hturn, rfl, hafter _ rfl rfl⟩
      obtain ⟨s', hwithin', hgoing, hflags'⟩ := inter_marks htwo h2
        (by simp [Replay.finish, Ctl.flags, hflags1.1, hflags1.2.1, hflags1.2.2]) (finish_delayed_self s1 _ _)
      exact ⟨s', (hwithin1.trans ((Within.one hturn).trans hwithin')).mono (by omega), hgoing, hflags'⟩
    | memSecond ip addr => exact absurd hdelay (by simp [Delay.awaitsFirst])
    | lockSecond callsiteV => exact absurd hdelay (by simp [Delay.awaitsFirst])

/-- Second, at its turn and awake. -/
theorem second_marks (htwo : ∀ l ∈ lines, l.TwoThreads) (h : Going lines s)
    (hflags : s.ctl.flags = (true, true, false)) (hnone : s.delayed s.ctl.second.tid = none) :
    ∃ s', Within Replay.turn 1 s s' ∧ Going lines s' ∧ s'.ctl.flags = (true, true, true) := by
  have hturn := turn_call h.running hnone (call_marks_second hflags (marks_marking _ _))
  refine ⟨_, .one hturn, ⟨h.toPairInv.turn htwo hturn, rfl, Or.inl (finish_delayed_self s _ _)⟩, ?_⟩
  simp only [Ctl.flags, Prod.mk.injEq] at hflags
  simp [Replay.finish, Ctl.flags, hflags.1, hflags.2.1]

/-- Second, at its turn. -/
theorem second_comes (htwo : ∀ l ∈ lines, l.TwoThreads) (h : Going lines s)
    (hflags : s.ctl.flags = (true, true, false)) :
    ∃ s', Within Replay.turn 2 s s' ∧ Going lines s' ∧ s'.ctl.flags = (true, true, true) := by
  by_cases hnone : s.delayed s.ctl.second.tid = none
  · obtain ⟨s', hwithin, hgoing, hflags'⟩ := second_marks htwo h hflags hnone
    exact ⟨s', hwithin.mono (by omega), hgoing, hflags'⟩
  · obtain ⟨d, hd⟩ := Option.ne_none_iff_exists'.mp hnone
    have hdelay := h.second_awaits hd
    have hcount : ¬ s.ctl.countTimeout + 1 > timeout := by
      have htime := h.inTime.resolve_left hnone
      unfold Replay.wakesLeft at htime
      split_ifs at htime <;> omega
    have hinTime : ∀ c', c'.second = s.ctl.second → (s.finish s.ctl.second.tid (c', .done)).InTime := by
      intro c' hsame
      refine Or.inl ?_
      show (s.finish _ _).delayed c'.second.tid = none
      rw [hsame, finish_delayed_self]
      rfl
    simp only [Ctl.flags, Prod.mk.injEq] at hflags
    cases d with
    | memSecond ip addr =>
      have hwake : s.ctl.wake (.memSecond ip addr) =
          ({ s.ctl with secondReady := true, countTimeout := s.ctl.countTimeout + 1 }, .done) := by
        simp [Ctl.wake, hcount, hflags.2.1]
      have hturn := turn_wake h.running hd hwake
      refine ⟨_, (Within.one hturn).mono (by omega), ⟨h.toPairInv.turn htwo hturn, rfl, hinTime _ rfl⟩, ?_⟩
      simp [Replay.finish, Ctl.flags, hflags.1, hflags.2.1]
    | lockSecond callsiteV =>
      have hwake : s.ctl.wake (.lockSecond callsiteV) =
          ({ s.ctl with countTimeout := s.ctl.countTimeout + 1 }, .done) := by
        simp [Ctl.wake, hcount, hflags.2.1]
      have hturn := turn_wake h.running hd hwake
      have h1 : Going lines _ := ⟨h.toPairInv.turn htwo hturn, rfl, hinTime _ rfl⟩
      obtain ⟨s', hwithin', hgoing, hflags'⟩ := second_marks htwo h1
        (by simp [Replay.finish, Ctl.flags, hflags.1, hflags.2.1, hflags.2.2]) (finish_delayed_self s _ _)
      exact ⟨s', (Within.one hturn).trans hwithin', hgoing, hflags'⟩
    | memInter ip addr => exact absurd hdelay (by simp [Delay.awaitsFirst])
    | lockInter callsiteV => exact absurd hdelay (by simp [Delay.awaitsFirst])

/-- **The current candidate is completed** within six turns. -/
theorem candidate_completed (htwo : ∀ l ∈ lines, l.TwoThreads) (h : Going lines s) :
    ∃ s', Within Replay.turn 6 s s' ∧ Going lines s' ∧ s'.ctl.flags = (true, true, true) := by
  -- from Second on, from Inter on, and from First on
  have hsecond : ∀ s, Going lines s → s.ctl.flags = (true, true, false) →
      ∃ s', Within Replay.turn 2 s s' ∧ Going lines s' ∧ s'.ctl.flags = (true, true, true) :=
    fun s h hflags => second_comes htwo h hflags
  have hinter : ∀ s, Going lines s → s.ctl.flags = (true, false, false) →
      ∃ s', Within Replay.turn 5 s s' ∧ Going lines s' ∧ s'.ctl.flags = (true, true, true) := by
    intro s h hflags
    obtain ⟨s1, hwithin1, h1, hflags1⟩ := inter_comes htwo h hflags
    obtain ⟨s2, hwithin2, h2, hflags2⟩ := hsecond s1 h1 hflags1
    exact ⟨s2, hwithin1.trans hwithin2, h2, hflags2⟩
  obtain ⟨hsi, hif⟩ := h.replay.flags
  cases hs : s.ctl.secondReady with
  | true => exact ⟨s, (Within.refl s).mono (by omega), h, by simp [Ctl.flags, hs, hsi hs, hif (hsi hs)]⟩
  | false =>
    cases hi : s.ctl.interReady with
    | true =>
      obtain ⟨s', hwithin, h', hflags'⟩ := hsecond s h (by simp [Ctl.flags, hs, hi, hif hi])
      exact ⟨s', hwithin.mono (by omega), h', hflags'⟩
    | false =>
      cases hf : s.ctl.firstReady with
      | true =>
        obtain ⟨s', hwithin, h', hflags'⟩ := hinter s h (by simp [Ctl.flags, hs, hi, hf])
        exact ⟨s', hwithin.mono (by omega), h', hflags'⟩
      | false =>
        obtain ⟨s1, hwithin1, h1, hflags1⟩ := first_comes htwo h (by simp [Ctl.flags, hs, hi, hf])
        obtain ⟨s', hwithin, h', hflags'⟩ := hinter s1 h1 hflags1
        exact ⟨s', hwithin1.trans hwithin, h', hflags'⟩

/-- The next candidate, after a completed one. -/
theorem next_comes (htwo : ∀ l ∈ lines, l.TwoThreads) (h : Going lines w.replay)
    (hflags : w.replay.ctl.flags = (true, true, true)) :
    ∃ w', Within Watch.turn 1 w w' ∧ Going lines w'.replay ∧ w'.loaded.length = w.loaded.length + 1 := by
  have hload := loads_marking hflags w.replay.ctl.first
  obtain ⟨w', hturn, hidle, -, -, hlen⟩ :=
    @idle_turn w ⟨h.running, h.replay.nobody_delayed hflags⟩ 0 _ _ (call_loads hload)
  have hreplay := turn_replay w (.call 0 (w.replay.ctl.marking w.replay.ctl.first))
  rw [hturn, Option.map_some] at hreplay
  exact ⟨w', .one hturn, ⟨h.toPairInv.turn htwo hreplay.symm, hidle.running, Or.inl (hidle.delayed _)⟩, hlen hload⟩

/-- What the observer has written down stays. -/
theorem loaded_stays (hrun : run Watch.turn w turns = some w') : w.loaded <+: w'.loaded := by
  refine run_invariant (P := fun v => w.loaded <+: v.loaded) ?_ (List.prefix_refl _) hrun
  intro v a v' h hturn
  cases turned_of_turn hturn with
  | load hrun hd hload => exact h.trans (List.prefix_append _ _)
  | call hrun hd hload => exact h
  | wake hrun hd => exact h

/-- **All candidates can still be completed**, each within seven turns. -/
theorem candidates_completed (htwo : ∀ l ∈ lines, l.TwoThreads) (h : Going lines w.replay) (n : ℕ) :
    ∃ w', Within Watch.turn (7 * n) w w' ∧ Going lines w'.replay ∧ w.loaded.length + n ≤ w'.loaded.length := by
  induction n with
  | zero => exact ⟨w, .refl w, h, le_rfl⟩
  | succ n ih =>
    obtain ⟨w1, hwithin1, h1, hlen1⟩ := ih
    obtain ⟨s2, hwithin2, h2, hflags2⟩ := candidate_completed htwo h1
    obtain ⟨w2, rfl, hwatch2⟩ := hwithin2.lift turn_replay
    obtain ⟨w3, hwithin3, h3, hlen3⟩ := next_comes htwo h2 hflags2
    have hlen2 : w1.loaded.length ≤ w2.loaded.length := by
      obtain ⟨turns, -, hrun⟩ := hwatch2
      exact (loaded_stays hrun).length_le
    exact ⟨w3, hwithin1.trans (hwatch2.trans hwithin3), h3, by omega⟩

/-! ## Too late -/

/-- Second sleeps, and there is no time for the wake-ups that are needed. -/
theorem PairInv.sleeps (h : PairInv lines s) (hlate : ¬ s.InTime) :
    ∃ d, s.delayed s.ctl.second.tid = some d ∧ d.awaitsFirst = false ∧ s.ctl.Waits s.ctl.second.tid d ∧
      timeout < s.ctl.countTimeout + s.wakesLeft := by
  obtain ⟨hsome, htime⟩ := not_or.mp hlate
  obtain ⟨d, hd⟩ := Option.ne_none_iff_exists'.mp hsome
  exact ⟨d, hd, h.second_awaits hd, h.replay.waits _ _ hd, Nat.not_le.mp htime⟩

/-- While Second sleeps, the candidate stays, and only Second could set the last flag. -/
theorem Effect.while_second (h : Effect c tid k c') (hw : c.Waits t d) (hd : d.awaitsFirst = false) :
    c'.first = c.first ∧ c'.second = c.second ∧ c'.inter = c.inter ∧ (tid ≠ t → c'.secondReady = false) := by
  have hready := hw.secondReady
  cases h with
  | quiet n => exact ⟨rfl, rfl, rfl, fun _ => hready⟩
  | first hf hm => exact ⟨rfl, rfl, rfl, fun _ => hready⟩
  | inter n hf hm => exact ⟨rfl, rfl, rfl, fun _ => hready⟩
  | second n hf hm =>
    refine ⟨rfl, rfl, rfl, fun hne => absurd (hm.tid_eq.trans ?_) hne⟩
    rw [hw.tid_eq, Ctl.delayedRole, if_neg (by simp [hd])]
  | load hf => exact absurd hw (not_waits_of_flags hf)

/-- Too late stays too late, whoever calls. -/
theorem PairInv.late_call (h : PairInv lines s) (hlate : ¬ s.InTime) (hnone : s.delayed tid = none) :
    ¬ (s.finish tid (s.ctl.call tid k)).InTime ∧ (s.finish tid (s.ctl.call tid k)).ctl.secondReady = false := by
  obtain ⟨d, hd, hsecond, hw, htime⟩ := h.sleeps hlate
  have hne : s.ctl.second.tid ≠ tid := by
    rintro rfl
    exact absurd (hnone.symm.trans hd) (by simp)
  have heff : Effect s.ctl tid k (s.ctl.call tid k).1 := call_spec.effect
  obtain ⟨-, hs, hi, hready⟩ := heff.while_second hw hsecond
  -- nobody but Second could go to sleep now
  have hret : (s.ctl.call tid k).2 = .done := by
    rcases call_ret h.replay.flags tid k with hret | ⟨d', hret⟩
    · exact hret
    · obtain ⟨-, hflag⟩ := call_sleep hret
      have hw' := waits_of_sleep hret
      cases hfirst : d'.awaitsFirst with
      | true =>
        rw [Ctl.flagOf, if_pos hfirst, hw.firstReady hsecond] at hflag
        exact absurd hflag (by simp)
      | false =>
        have htid := hw'.tid_eq
        rw [Ctl.delayedRole, if_neg (by simp [hfirst])] at htid
        exact absurd htid.symm hne
  refine ⟨?_, hready (Ne.symm hne)⟩
  have hafter : (s.finish tid (s.ctl.call tid k)).wakesLeft = s.wakesLeft := by
    unfold Replay.wakesLeft
    have hinter : (s.finish tid (s.ctl.call tid k)).delayed (s.ctl.call tid k).1.inter.tid =
        s.delayed s.ctl.inter.tid := by
      rw [hi]
      by_cases htid : s.ctl.inter.tid = tid
      · rw [htid, finish_delayed_self, hret, hnone]
        rfl
      · exact finish_delayed_of_ne s htid _
    exact if_congr (by rw [← hinter]; rfl) rfl rfl
  rintro (hnone' | hle)
  · have hsame : (s.finish tid (s.ctl.call tid k)).delayed (s.ctl.call tid k).1.second.tid = some d := by
      rw [hs, finish_delayed_of_ne s hne, hd]
    exact absurd (hsame.symm.trans hnone') (by simp)
  · have hcount : (s.finish tid (s.ctl.call tid k)).ctl.countTimeout = s.ctl.countTimeout := call_done hret
    omega

/-- Too late stays too late, whoever wakes up, until the program ends. -/
theorem PairInv.late_wake (h : PairInv lines s) (hlate : ¬ s.InTime) (hd' : s.delayed tid = some d') :
    ((s.finish tid (s.ctl.wake d')).status = .running → ¬ (s.finish tid (s.ctl.wake d')).InTime) ∧
      (s.finish tid (s.ctl.wake d')).ctl.secondReady = false := by
  obtain ⟨d, hd, hsecond, hw, htime⟩ := h.sleeps hlate
  have heff : Effect s.ctl tid d'.call (s.ctl.wake d').1 := (wake_spec (h.replay.waits _ _ hd')).effect
  obtain ⟨-, hs, hi, hready⟩ := heff.while_second hw hsecond
  by_cases hcount : timeout < s.ctl.countTimeout + 1
  · have hwake : s.ctl.wake d' = ({ s.ctl with countTimeout := s.ctl.countTimeout + 1 }, .exit) := by
      simp [Ctl.wake, hcount]
    rw [hwake]
    exact ⟨fun hrun => absurd hrun (by simp [Replay.finish, Ret.status]), hw.secondReady⟩
  · -- then Inter sleeps as well, and its flag is not set
    have hsome : s.delayed s.ctl.inter.tid ≠ none := by
      intro hnone
      rw [Replay.wakesLeft, if_pos hnone] at htime
      exact hcount htime
    obtain ⟨di, hdi⟩ := Option.ne_none_iff_exists'.mp hsome
    have hinter := (h.replay.waits _ _ hdi).interReady (h.inter_awaits hdi)
    have hsleep : s.ctl.second.tid = tid →
        s.ctl.wake d' = ({ s.ctl with countTimeout := s.ctl.countTimeout + 1 }, .sleep d') := by
      rintro rfl
      obtain rfl := Option.some.inj (hd.symm.trans hd')
      cases d with
      | memSecond ip addr => simp [Ctl.wake, hcount, hinter]
      | lockSecond callsiteV => simp [Ctl.wake, hcount, hinter]
      | memInter ip addr => exact absurd hsecond (by simp [Delay.awaitsFirst])
      | lockInter callsiteV => exact absurd hsecond (by simp [Delay.awaitsFirst])
    refine ⟨fun _ => ?_, ?_⟩
    · rintro (hnone' | hle)
      · have hstill : (s.finish tid (s.ctl.wake d')).delayed (s.ctl.wake d').1.second.tid = some d := by
          rw [hs]
          by_cases htid : s.ctl.second.tid = tid
          · rw [htid, finish_delayed_self, hsleep htid]
            obtain rfl := Option.some.inj ((htid ▸ hd).symm.trans hd')
            rfl
          · rw [finish_delayed_of_ne s htid, hd]
        exact absurd (hstill.symm.trans hnone') (by simp)
      · have hmore : (s.finish tid (s.ctl.wake d')).ctl.countTimeout = s.ctl.countTimeout + 1 := wake_count _ d'
        have hleft : 1 ≤ (s.finish tid (s.ctl.wake d')).wakesLeft := by
          unfold Replay.wakesLeft
          split_ifs <;> decide
        have htwice : s.wakesLeft = 2 := if_neg hsome
        omega
    · by_cases htid : s.ctl.second.tid = tid
      · rw [hsleep htid]
        exact hw.secondReady
      · exact hready (Ne.symm htid)

/-- From a state that is too late on, nothing is completed. -/
theorem late_run (htwo : ∀ l ∈ lines, l.TwoThreads) (h : PairInv lines w.replay) (hlate : ¬ w.replay.InTime)
    (hrun : run Watch.turn w turns = some w') : w'.loaded = w.loaded ∧ w'.replay.ctl.secondReady = false := by
  have hinv : PairInv lines w'.replay ∧ (w'.replay.status = .running → ¬ w'.replay.InTime) ∧
      w'.replay.ctl.secondReady = false ∧ w'.loaded = w.loaded := by
    refine run_invariant (P := fun v => PairInv lines v.replay ∧ (v.replay.status = .running → ¬ v.replay.InTime) ∧
      v.replay.ctl.secondReady = false ∧ v.loaded = w.loaded) ?_ ?_ hrun
    · rintro v a v' ⟨hpair, hlate, hready, hloaded⟩ hturn
      have hreplay := turn_replay v a
      rw [hturn, Option.map_some] at hreplay
      refine ⟨hpair.turn htwo hreplay.symm, ?_⟩
      cases turned_of_turn hturn with
      | load hrun hd hload =>
        have hflags := hload.flags
        simp only [Ctl.flags, Prod.mk.injEq] at hflags
        exact absurd (hready.symm.trans hflags.2.2) (by simp)
      | call hrun hd hload =>
        obtain ⟨hlate', hready'⟩ := hpair.late_call (hlate hrun) hd
        exact ⟨fun _ => hlate', hready', hloaded⟩
      | wake hrun hd =>
        obtain ⟨hlate', hready'⟩ := hpair.late_wake (hlate hrun) hd
        exact ⟨hlate', hready', hloaded⟩
    · obtain ⟨d, -, -, hw, -⟩ := h.sleeps hlate
      exact ⟨h, fun _ => hlate, hw.secondReady, rfl⟩
  exact ⟨hinv.2.2.2, hinv.2.2.1⟩

end Completable

section Group

variable {overflow : Bool → ℤ → UInt32} {log : List MemRef} {locks : List LockRef} {enum : MemTrace → List ℕ}
  {syncLog : List UInt8} {s : GroupState} {i : ℕ} {file : List Char} {turns : List Turn} {w : Watch}

/-- **When the remaining candidates can still be completed.**  Take any state of a controlled run of a
group that an analysis has written, in which the program still runs.  If Second of the current candidate
does not sleep, or the count leaves room for its wake-up, and for one of Inter if that sleeps too, then
some threads' calls complete one candidate after the other, each within seven turns; otherwise no run from
this state completes the current candidate or loads another one. -/
theorem candidates_completable (hlogs : LogsOk log locks) (henum : DictOrder enum)
    (hok : analyse enum (memFile log) (lockFile locks) syncLog = .ok s) (hi : i < s.groupNum)
    (hfile : s.files i = some file) (hrun : run Watch.turn (.start (loadGroup overflow file)) turns = some w)
    (hrunning : w.replay.status = .running) :
    (w.replay.InTime → ∀ n, ∃ w', Within Watch.turn (7 * n) w w' ∧ w.loaded.length + n ≤ w'.loaded.length) ∧
      (¬ w.replay.InTime → ∀ turns' w', run Watch.turn w turns' = some w' →
        w'.loaded = w.loaded ∧ w'.replay.ctl.secondReady = false) := by
  obtain ⟨htwo, hne⟩ := @group_twoThreads overflow _ _ _ _ _ _ hlogs henum hok hi _ hfile
  have hpair : PairInv (loadGroup overflow file) w.replay := by
    refine run_invariant (P := fun v => PairInv (loadGroup overflow file) v.replay) ?_ (pairInv_start htwo hne) hrun
    intro v a v' h hturn
    have hreplay := turn_replay v a
    rw [hturn, Option.map_some] at hreplay
    exact h.turn htwo hreplay.symm
  refine ⟨fun hin n => ?_, fun hlate turns' w' hrun' => late_run htwo hpair hlate hrun'⟩
  obtain ⟨w', hwithin, -, hlen⟩ := candidates_completed htwo ⟨hpair, hrunning, hin⟩ n
  exact ⟨w', hwithin, hlen⟩

end Group

theorem waitingWatch_isSome :
    (run Watch.turn (.start [writeReadLine]) [.call 2 (.mem 0x8048300 64)]).isSome = true := by
  decide

/-- Thread 2 sleeps as Inter, and all candidates can still be completed. -/
theorem candidates_completable_writeRead :
    ∃ w, run Watch.turn (.start [writeReadLine]) [.call 2 (.mem 0x8048300 64)] = some w ∧ w.replay.InTime ∧
      (∀ n, ∃ w', Within Watch.turn (7 * n) w w' ∧ w.loaded.length + n ≤ w'.loaded.length) ∧
      (¬ w.replay.InTime → ∀ turns' w', run Watch.turn w turns' = some w' →
        w'.loaded = w.loaded ∧ w'.replay.ctl.secondReady = false) := by
  obtain ⟨s, hok, hnum, hfile⟩ := analyse_writeReadLog
  have hrun := (Option.some_get waitingWatch_isSome).symm
  have hgoing :
      ((run Watch.turn (.start [writeReadLine]) [.call 2 (.mem 0x8048300 64)]).get
        waitingWatch_isSome).replay.status = .running ∧
      ((run Watch.turn (.start [writeReadLine]) [.call 2 (.mem 0x8048300 64)]).get
        waitingWatch_isSome).replay.InTime := by
    decide
  generalize (run Watch.turn (.start [writeReadLine]) [.call 2 (.mem 0x8048300 64)]).get waitingWatch_isSome = w
    at hrun hgoing
  have hgroup := hrun
  rw [← loadGroup_writeRead] at hgroup
  obtain ⟨hall, hnever⟩ := candidates_completable logsOk_writeRead dictOrder_keys hok (show 0 < s.groupNum by omega)
    hfile hgroup hgoing.1
  exact ⟨w, hrun, hgoing.2, hall hgoing.2, hnever⟩

/-- Second sleeps and wakes up `TIMEOUT` times: nothing can be completed any more, and the program still
runs. -/
example :
    (run Replay.turn (.start [writeReadLine])
      ([.call 1 (.mem 0x8048100 64), .call 1 (.mem 0x8048200 64)] ++ List.replicate timeout (.wake 1))).map
      (fun s => (s.status, decide s.InTime)) = some (.running, false) := by
  decide +kernel

end Controller
end AVPredictor
