import AVPredictor.Controller.System

/-!
# AVPredictor.Controller.InstOrder — the order of the accesses in an instruction-level replay

The flags are set in callbacks that run before the access they stand for.  So `first_ready` can be
true while First has not taken effect yet, and Inter may pass its callback and take effect before
First: the order of the flags is not the order of the accesses (`inter_before_first`).

`InTurn` is the condition under which it is: whenever a callback or wake-up passes Inter or Second,
the executions that set the earlier flags have taken effect.  `reported_enforced`: in every run
whose steps all meet it, every reported type 0 candidate is executed in the order First, Inter,
Second by three different executions.
-/

namespace AVPredictor
namespace Controller

open Base

/-- `e` executes the access of role `r`. -/
def Executes (r : Role) (e : Exec) : Prop := e.tid = r.tid ∧ e.ip = r.inst ∧ r.addr ∈ e.ops

/-- `e1` has taken effect, and `e2` has not done so before it. -/
def Before (performed : List Exec) (e1 e2 : Exec) : Prop :=
  e1 ≠ e2 ∧ e1 ∈ performed ∧ (e2 ∈ performed → [e1, e2].Sublist performed)

/-- **The reported interleaving**: the flags of the candidate were set by three different executions
of First, Inter and Second; those of First and Inter have taken effect in this order, and that of
Second only after both. -/
def Enforced (performed : List Exec) (r : Report) : Prop :=
  ∃ e1 e2 e3, r.firstBy = some e1 ∧ r.interBy = some e2 ∧ r.secondBy = some e3 ∧
    Executes r.first e1 ∧ Executes r.inter e2 ∧ Executes r.second e3 ∧ e1 ≠ e2 ∧ e1 ≠ e3 ∧ e2 ≠ e3 ∧
    [e1, e2].Sublist performed ∧ (e3 ∈ performed → [e1, e2, e3].Sublist performed)

/-- The access callback that a step runs or resumes. -/
def Sys.callOf (s : Sys) : Act → Option (UInt32 × Call)
  | .callback tid =>
    match s.pc tid with
    | .access e (addr :: _) => some (tid, .mem e.ip addr)
    | _ => none
  | .wake tid => (s.replay.delayed tid).map fun d => (tid, d.call)
  | _ => none

/-- The executions that set the flags have taken effect. -/
def Sys.Settled (s : Sys) : Prop := ∀ e ∈ s.firstBy.toList ++ s.interBy.toList, e ∈ s.performed

/-- The call passes Inter with First marked, or Second with First and Inter marked. -/
def Ctl.Passes (c : Ctl) (tid : UInt32) (k : Call) : Prop :=
  c.flags = (true, false, false) ∧ c.Marks c.inter tid k ∨
    c.flags = (true, true, false) ∧ c.Marks c.second tid k

/-- The condition on a step: a callback that passes Inter or Second does so in a settled state. -/
def InTurn (s : Sys) (a : Act) : Prop :=
  ∀ call ∈ (s.callOf a).toList, s.replay.ctl.Passes call.1 call.2 → s.Settled

instance (c : Ctl) (r : Role) (tid : UInt32) (k : Call) : Decidable (c.Marks r tid k) :=
  match k with
  | .mem _ _ => inferInstanceAs (Decidable (_ ∧ _))
  | .lock _ => inferInstanceAs (Decidable False)
  | .unlock _ => inferInstanceAs (Decidable (_ ∧ _))

instance (c : Ctl) (tid : UInt32) (k : Call) : Decidable (c.Passes tid k) :=
  inferInstanceAs (Decidable (_ ∨ _))

instance (s : Sys) : Decidable s.Settled := inferInstanceAs (Decidable (∀ e ∈ _, _))

instance (s : Sys) (a : Act) : Decidable (InTurn s a) := inferInstanceAs (Decidable (∀ call ∈ _, _))

/-! ## Taking effect -/

section Performed

variable {performed : List Exec} {e e1 e2 : Exec} {r : Report}

/-- What has happened has still happened before `e2` after one more execution. -/
theorem sublist_concat {l : List Exec} (hl : l.Sublist performed)
    (h : e2 ∈ performed → (l ++ [e2]).Sublist performed) (e : Exec) (hmem : e2 ∈ performed ++ [e]) :
    (l ++ [e2]).Sublist (performed ++ [e]) := by
  rcases List.mem_append.mp hmem with hmem | hmem
  · exact (h hmem).trans (List.sublist_append_left _ _)
  · rw [List.mem_singleton.mp hmem]
    exact hl.append_right [e]

theorem Before.concat (h : Before performed e1 e2) (e : Exec) : Before (performed ++ [e]) e1 e2 := by
  obtain ⟨hne, h1, h2⟩ := h
  exact ⟨hne, List.mem_append_left _ h1, sublist_concat (List.singleton_sublist.mpr h1) h2 e⟩

theorem Enforced.concat (h : Enforced performed r) (e : Exec) : Enforced (performed ++ [e]) r := by
  obtain ⟨e1, e2, e3, hf, hi, hs, x1, x2, x3, n12, n13, n23, h12, h3⟩ := h
  exact ⟨e1, e2, e3, hf, hi, hs, x1, x2, x3, n12, n13, n23, h12.trans (List.sublist_append_left _ _),
    sublist_concat h12 h3 e⟩

end Performed

/-! ## The invariant -/

/-- What holds in runs whose steps are in turn. -/
structure OrderInv (s : Sys) : Prop where
  first : s.replay.ctl.isLockedType = false → s.replay.ctl.firstReady = true →
    ∃ e1, s.firstBy = some e1 ∧ Executes s.replay.ctl.first e1
  inter : s.replay.ctl.isLockedType = false → s.replay.ctl.interReady = true →
    ∃ e1 e2, s.firstBy = some e1 ∧ s.interBy = some e2 ∧ Executes s.replay.ctl.inter e2 ∧
      Before s.performed e1 e2
  reported : ∀ r ∈ s.reported, r.isLockedType = false → Enforced s.performed r

section Order

variable {recursive : UInt32 → Bool} {s s' : Sys} {a : Act}

theorem orderInv_start (lines : List Line) : OrderInv (.start lines) := by
  have hflags : (Ctl.start lines).flags = (false, false, false) := flags_loadNextCi
  simp only [Ctl.flags, Prod.mk.injEq] at hflags
  refine ⟨?_, ?_, ?_⟩
  · intro _ hf
    exact absurd (hflags.1.symm.trans hf) (by simp)
  · intro _ hi
    exact absurd (hflags.2.1.symm.trans hi) (by simp)
  · intro r hr
    exact absurd hr (by simp [Sys.start])

/-- A callback of the execution `e0` keeps the invariant. -/
theorem OrderInv.observe (h : OrderInv s) (hflags : s.replay.ctl.FlagsOk) {tid : UInt32} {k : Call}
    {r : Replay} (e0 : Option Exec) (heff : Effect s.replay.ctl tid k r.ctl)
    (hexec : ∀ ip addr, k = .mem ip addr →
      ∃ e, e0 = some e ∧ e.tid = tid ∧ e.ip = ip ∧ addr ∈ e.ops ∧ e ∉ s.performed)
    (hturn : ∀ ip addr, k = .mem ip addr → s.replay.ctl.Passes tid k → s.Settled) :
    OrderInv (s.observe e0 r) := by
  -- a mark of a type 0 candidate is a mark by the execution
  have hmark : ∀ {role : Role}, s.replay.ctl.isLockedType = false → s.replay.ctl.Marks role tid k →
      ∃ ip addr e, k = .mem ip addr ∧ e0 = some e ∧ Executes role e ∧ e ∉ s.performed := by
    intro role hl hm
    cases k with
    | mem ip addr =>
      obtain ⟨-, ht, hip, haddr⟩ := hm
      obtain ⟨e, he, het, heip, heops, hnew⟩ := hexec ip addr rfl
      exact ⟨ip, addr, e, rfl, he, ⟨het.trans ht, heip.trans hip, haddr ▸ heops⟩, hnew⟩
    | lock callsiteV => exact hm.elim
    | unlock callsiteV => exact absurd (hl.symm.trans hm.1) (by simp)
  obtain ⟨c', delayed, status⟩ := r
  replace heff : Effect s.replay.ctl tid k c' := heff
  cases heff with
  | quiet n =>
    refine ⟨?_, ?_, fun rep hrep => h.reported rep ?_⟩
    · intro hl hf
      replace hf : s.replay.ctl.firstReady = true := hf
      obtain ⟨e1, he1, hx⟩ := h.first hl hf
      exact ⟨e1, by simp [Sys.observe, hf, he1], hx⟩
    · intro hl hi
      replace hi : s.replay.ctl.interReady = true := hi
      obtain ⟨e1, e2, he1, he2, hx, hb⟩ := h.inter hl hi
      have hf : s.replay.ctl.firstReady = true := hflags.2 hi
      exact ⟨e1, e2, by simp [Sys.observe, hf, he1], by simp [Sys.observe, hi, he2], hx, hb⟩
    · simpa [Sys.observe] using hrep
  | first hf hm =>
    simp only [Ctl.flags, Prod.mk.injEq] at hf
    refine ⟨?_, fun _ hi => absurd (hf.2.1.symm.trans hi) (by simp), fun rep hrep => h.reported rep ?_⟩
    · intro hl _
      obtain ⟨ip, addr, e, -, he, hx, -⟩ := hmark hl hm
      exact ⟨e, by simp [Sys.observe, hf.1, he], hx⟩
    · simpa [Sys.observe, hf.2.2] using hrep
  | inter n hf hm =>
    have hpass : s.replay.ctl.Passes tid k := Or.inl ⟨hf, hm⟩
    simp only [Ctl.flags, Prod.mk.injEq] at hf
    refine ⟨?_, ?_, fun rep hrep => h.reported rep ?_⟩
    · intro hl _
      obtain ⟨e1, he1, hx⟩ := h.first hl hf.1
      exact ⟨e1, by simp [Sys.observe, hf.1, he1], hx⟩
    · intro hl _
      obtain ⟨e1, he1, -⟩ := h.first hl hf.1
      obtain ⟨ip, addr, e2, hk, he2, hx, hnew⟩ := hmark hl hm
      have h1 : e1 ∈ s.performed := hturn ip addr hk hpass e1 (by simp [he1])
      refine ⟨e1, e2, by simp [Sys.observe, hf.1, he1], by simp [Sys.observe, hf.2.1, he2], hx, ?_, h1, ?_⟩
      · rintro rfl
        exact hnew h1
      · exact fun hmem => absurd hmem hnew
    · simpa [Sys.observe, hf.2.2] using hrep
  | second n hf hm =>
    have hpass : s.replay.ctl.Passes tid k := Or.inr ⟨hf, hm⟩
    simp only [Ctl.flags, Prod.mk.injEq] at hf
    refine ⟨?_, ?_, ?_⟩
    · intro hl _
      obtain ⟨e1, he1, hx⟩ := h.first hl hf.1
      exact ⟨e1, by simp [Sys.observe, hf.1, he1], hx⟩
    · intro hl _
      obtain ⟨e1, e2, he1, he2, hx, hb⟩ := h.inter hl hf.2.1
      exact ⟨e1, e2, by simp [Sys.observe, hf.1, he1], by simp [Sys.observe, hf.2.1, he2], hx, hb⟩
    · intro rep hrep hl
      have hrep : rep ∈ s.reported ∨ rep = ⟨s.replay.ctl.isLockedType, s.replay.ctl.first, s.replay.ctl.inter,
          s.replay.ctl.second, s.firstBy, s.interBy, e0⟩ := by
        simpa [Sys.observe, hf.2.2] using hrep
      rcases hrep with hrep | rfl
      · exact h.reported rep hrep hl
      · obtain ⟨e1, e2, he1, he2, hx2, hne, h1, h2⟩ := h.inter hl hf.2.1
        obtain ⟨e1', he1', hx1⟩ := h.first hl hf.1
        obtain rfl : e1 = e1' := Option.some.inj (he1.symm.trans he1')
        obtain ⟨ip, addr, e3, hk, he3, hx3, hnew⟩ := hmark hl hm
        have hset := hturn ip addr hk hpass
        have h2' : e2 ∈ s.performed := hset e2 (by simp [he2])
        refine ⟨e1, e2, e3, he1, he2, he3, hx1, hx2, hx3, hne, ?_, ?_, h2 h2', fun hmem => absurd hmem hnew⟩
        · rintro rfl
          exact hnew h1
        · rintro rfl
          exact hnew h2'
  | load hf =>
    have hload := @flags_loadNextCi s.replay.ctl
    simp only [Ctl.flags, Prod.mk.injEq] at hload
    refine ⟨fun _ h1 => absurd (hload.1.symm.trans h1) (by simp),
      fun _ h2 => absurd (hload.2.1.symm.trans h2) (by simp), fun rep hrep => h.reported rep ?_⟩
    simpa [Sys.observe, hload.2.2] using hrep

/-- A lock or unlock callback keeps the invariant. -/
theorem OrderInv.observe_none (h : OrderInv s) (hflags : s.replay.ctl.FlagsOk) {tid : UInt32} {k : Call}
    (hk : ∀ ip addr, k ≠ .mem ip addr) :
    OrderInv (s.observe none (s.replay.finish tid (s.replay.ctl.call tid k))) :=
  h.observe hflags none call_spec.effect (fun ip addr h => absurd h (hk ip addr))
    (fun ip addr h => absurd h (hk ip addr))

theorem OrderInv.step (h : OrderInv s) (hs : SysInv s) (hturn : InTurn s a)
    (hstep : step recursive s a = some s') : OrderInv s' := by
  cases stepped_of_step hstep with
  | fetch hpc => exact ⟨h.first, h.inter, h.reported⟩
  | @callback tid addr e todo r hpc hcall =>
    obtain ⟨htid, -, hnew, hops⟩ := hs.current tid e _ hpc
    obtain ⟨-, -, rfl⟩ := replay_call hcall
    have hcallOf : (tid, Call.mem e.ip addr) ∈ (s.callOf (.callback tid)).toList := by simp [Sys.callOf, hpc]
    have ho : OrderInv (s.observe (some e) (s.replay.finish tid _)) :=
      h.observe hs.replay.flags (some e) call_spec.effect
        (fun ip' addr' hk => by
          obtain ⟨rfl, rfl⟩ := Call.mem.inj hk
          exact ⟨e, rfl, htid, rfl, hops (List.mem_cons_self), hnew⟩)
        (fun _ _ _ hp => hturn _ hcallOf hp)
    exact ⟨ho.first, ho.inter, ho.reported⟩
  | @access tid e hpc hd =>
    refine ⟨h.first, ?_, fun r hr hl => (h.reported r hr hl).concat e⟩
    intro hl hi
    obtain ⟨e1, e2, he1, he2, hx, hb⟩ := h.inter hl hi
    exact ⟨e1, e2, he1, he2, hx, hb.concat e⟩
  | @lockCall tid m callsiteV r hpc hcall =>
    obtain ⟨-, -, rfl⟩ := replay_call hcall
    have ho : OrderInv (s.observe none (s.replay.finish tid (s.replay.ctl.call tid (.lock callsiteV)))) :=
      h.observe_none hs.replay.flags (by simp)
    exact ⟨ho.first, ho.inter, ho.reported⟩
  | acquire hpc hd ho => exact ⟨h.first, h.inter, h.reported⟩
  | @unlockCall tid m callsiteV r hpc hm hcall =>
    obtain ⟨-, -, rfl⟩ := replay_call hcall
    have ho : OrderInv (s.observe none (s.replay.finish tid (s.replay.ctl.call tid (.unlock callsiteV)))) :=
      h.observe_none hs.replay.flags (by simp)
    exact ⟨ho.first, ho.inter, ho.reported⟩
  | release hpc => exact ⟨h.first, h.inter, h.reported⟩
  | @wake tid r hwake =>
    obtain ⟨d, -, hd, rfl⟩ := replay_wake hwake
    have hcallOf : (tid, d.call) ∈ (s.callOf (.wake tid)).toList := by simp [Sys.callOf, hd]
    refine h.observe hs.replay.flags _ (wake_spec (hs.replay.waits tid d hd)).effect (fun ip addr hk => ?_)
      (fun _ _ _ hp => hturn _ hcallOf hp)
    obtain ⟨e, todo, hpc, hip, haddr⟩ := hs.delayed tid d ip addr hd hk
    obtain ⟨htid, -, hnew, -⟩ := hs.current tid e todo hpc
    exact ⟨e, by simp [Sys.execOf, hpc], htid, hip, haddr, hnew⟩

end Order

/-- **Runs in turn enforce what they report**: if in every step of a run a callback passes Inter or
Second only when the executions that set the earlier flags have taken effect, then in every state
reached every type 0 candidate whose three flags became true has been executed in the order First,
Inter, Second. -/
theorem reported_enforced {recursive : UInt32 → Bool} {lines : List Line} {acts : List Act} {s : Sys}
    (hturn : Meets (step recursive) InTurn (.start lines) acts)
    (hrun : run (step recursive) (.start lines) acts = some s) :
    ∀ r ∈ s.reported, r.isLockedType = false → Enforced s.performed r := by
  have hinv : SysInv s ∧ OrderInv s :=
    run_invariant_of_meets (P := fun s => SysInv s ∧ OrderInv s)
      (fun s a s' h hc hstep => ⟨h.1.step hstep, h.2.step h.1 hc hstep⟩)
      ⟨sysInv_start lines, orderInv_start lines⟩ hturn hrun
  exact hinv.2.reported

/-- Thread 1 writes a word at two places and thread 2 reads it. -/
def writeReadLine : Line :=
  { type := 0
    firstId := 1, firstArg1 := 0x8048100, firstArg2 := 64
    secondId := 1, secondArg1 := 0x8048200, secondArg2 := 64
    interId := 2, interArg1 := 0x8048300, interArg2 := 64 }

def writeIns (address : UInt32) : Ins := ⟨address, false, false, false, false, false, true⟩

def readIns (address : UInt32) : Ins := ⟨address, false, false, false, false, true, false⟩

/-- The report of the candidate by the executions number `n1`, `n2`, `n3`. -/
def writeReadReport (n1 n2 n3 : ℕ) : Report :=
  { isLockedType := false
    first := ⟨1, 0x8048100, 64, 0, 0⟩
    inter := ⟨2, 0x8048300, 64, 0, 0⟩
    second := ⟨1, 0x8048200, 64, 0, 0⟩
    firstBy := some ⟨n1, 1, 0x8048100, [64]⟩
    interBy := some ⟨n2, 2, 0x8048300, [64]⟩
    secondBy := some ⟨n3, 1, 0x8048200, [64]⟩ }

/-- Each access takes effect before the next callback passes. -/
def inTurnActs : List Act :=
  [.fetch 2 (readIns 0x8048300) 64 0, .callback 2, .fetch 1 (writeIns 0x8048100) 0 64, .callback 1, .access 1,
    .wake 2, .access 2, .fetch 1 (writeIns 0x8048200) 0 64, .callback 1, .access 1]

theorem inTurn_isSome :
    (run (step fun _ => false) (.start [writeReadLine]) inTurnActs).isSome = true := by
  decide

theorem enforced_inTurn :
    Enforced ((run (step fun _ => false) (.start [writeReadLine]) inTurnActs).get inTurn_isSome).performed
      (writeReadReport 1 0 2) :=
  reported_enforced (show Meets (step fun _ => false) InTurn (.start [writeReadLine]) inTurnActs by decide)
    (Option.some_get _).symm (writeReadReport 1 0 2) (by decide) rfl

/-- The callback of First, then all of Inter, and only then the access of First. -/
def overtakingActs : List Act :=
  [.fetch 1 (writeIns 0x8048100) 0 64, .callback 1, .fetch 2 (readIns 0x8048300) 64 0, .callback 2, .access 2,
    .access 1, .fetch 1 (writeIns 0x8048200) 0 64, .callback 1, .access 1]

theorem overtaking_isSome :
    (run (step fun _ => false) (.start [writeReadLine]) overtakingActs).isSome = true := by
  decide

/-- Inter takes effect before First and all three flags become true. -/
theorem inter_before_first :
    ∃ s, run (step fun _ => false) (.start [writeReadLine]) overtakingActs = some s ∧
      s.replay.ctl.flags = (true, true, true) ∧ writeReadReport 0 1 2 ∈ s.reported ∧
      s.performed = [⟨1, 2, 0x8048300, [64]⟩, ⟨0, 1, 0x8048100, [64]⟩, ⟨2, 1, 0x8048200, [64]⟩] ∧
      ¬ Enforced s.performed (writeReadReport 0 1 2) := by
  have hperformed :
      ((run (step fun _ => false) (.start [writeReadLine]) overtakingActs).get overtaking_isSome).performed =
        [⟨1, 2, 0x8048300, [64]⟩, ⟨0, 1, 0x8048100, [64]⟩, ⟨2, 1, 0x8048200, [64]⟩] := by decide
  refine ⟨_, (Option.some_get overtaking_isSome).symm, by decide, by decide, hperformed, ?_⟩
  rintro ⟨e1, e2, e3, h1, h2, -, -, -, -, -, -, -, h12, -⟩
  obtain rfl := Option.some.inj h1
  obtain rfl := Option.some.inj h2
  rw [hperformed] at h12
  exact absurd h12 (by decide)

end Controller
end AVPredictor
