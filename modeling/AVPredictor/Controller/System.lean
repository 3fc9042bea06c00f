import AVPredictor.Base.Runs
import AVPredictor.Controller.Replay
import AVPredictor.Pin

/-!
# AVPredictor.Controller.System — a program that runs under the controller

The threads of the program execute instructions and lock and unlock mutexes.  An execution of an
instruction is its callbacks, one for each instrumented operand, and then the access itself; a lock
is the callback and then the acquire, an unlock the callback and then the release.  All of these are
separate steps of the thread, in any interleaving with the other threads, and a thread that is
delayed in a callback only wakes up.

The last fields of `Sys` are what an observer writes down: the executions in the order in which
their accesses took effect, which execution set which flag (`firstBy`, `interBy`), the candidates
whose three flags became true (`reported`), and the lock history.  No step depends on them.
-/

namespace AVPredictor
namespace Controller

open Base

/-- `Instruction`: the operands for which a `BeforeMemAccess` call is inserted. -/
def instruction (ins : Ins) : List Ea :=
  if ins.address > userUpperBound then []
  else if ins.address < userLowerBound then []
  else if ins.isBranchOrCall then []
  else if ins.isStackRead then []
  else if ins.isStackWrite then []
  else (if ins.isMemoryRead then [.memoryRead] else []) ++ (if ins.isMemoryWrite then [.memoryWrite] else [])

/-- One execution of an instruction: a dynamic access. -/
structure Exec where
  id : ℕ
  tid : UInt32
  ip : UInt32
  /-- the effective addresses passed to the callbacks -/
  ops : List UInt32
deriving DecidableEq, Repr

/-- Where a thread is. -/
inductive Pc where
  | idle
  /-- in an instruction, with callbacks to run for the operands `todo` -/
  | access (e : Exec) (todo : List UInt32)
  /-- in `pthread_mutex_lock`, the callback called -/
  | lock (m : UInt32)
  /-- in `pthread_mutex_unlock`, the callback done -/
  | unlock (m : UInt32)
deriving DecidableEq, Repr

/-- An event of the lock history. -/
inductive LockEv where
  | acquire (tid m : UInt32)
  | unlock (tid m callsiteV : UInt32)
  | release (tid m : UInt32)
deriving DecidableEq, Repr

/-- A candidate whose three flags became true, with the executions that set them. -/
structure Report where
  isLockedType : Bool
  first : Role
  inter : Role
  second : Role
  firstBy : Option Exec
  interBy : Option Exec
  secondBy : Option Exec
deriving DecidableEq, Repr

structure Sys where
  replay : Replay
  pc : UInt32 → Pc
  /-- the holder of a mutex and how often it has locked it -/
  owner : UInt32 → Option (UInt32 × ℕ)
  nextId : ℕ
  performed : List Exec
  firstBy : Option Exec
  interBy : Option Exec
  reported : List Report
  hist : List LockEv

def Sys.start (lines : List Line) : Sys :=
  { replay := .start lines
    pc := fun _ => .idle
    owner := fun _ => none
    nextId := 0
    performed := []
    firstBy := none
    interBy := none
    reported := []
    hist := [] }

/-- A step of one thread. -/
inductive Act where
  | fetch (tid : UInt32) (ins : Ins) (readEa writeEa : UInt32)
  | callback (tid : UInt32)
  | access (tid : UInt32)
  | lockCall (tid m callsiteV : UInt32)
  | acquire (tid : UInt32)
  | unlockCall (tid m callsiteV : UInt32)
  | release (tid : UInt32)
  | wake (tid : UInt32)
deriving DecidableEq, Repr

/-! ## Steps -/

/-- A callback of the execution `e` (none for a lock or unlock) has changed the controller's state
to `r`. -/
def Sys.observe (s : Sys) (e : Option Exec) (r : Replay) : Sys :=
  { s with
    replay := r
    firstBy := if r.ctl.firstReady then (if s.replay.ctl.firstReady then s.firstBy else e) else none
    interBy := if r.ctl.interReady then (if s.replay.ctl.interReady then s.interBy else e) else none
    reported :=
      if r.ctl.secondReady ∧ s.replay.ctl.secondReady = false then
        s.reported ++ [⟨s.replay.ctl.isLockedType, s.replay.ctl.first, s.replay.ctl.inter,
          s.replay.ctl.second, s.firstBy, s.interBy, e⟩]
      else s.reported }

/-- The execution that a thread is in. -/
def Sys.execOf (s : Sys) (tid : UInt32) : Option Exec :=
  match s.pc tid with
  | .access e _ => some e
  | _ => none

/-- The new execution of a fetched instruction. -/
def Sys.newExec (s : Sys) (tid : UInt32) (ins : Ins) (readEa writeEa : UInt32) : Exec :=
  { id := s.nextId
    tid := tid
    ip := ins.address
    ops := (instruction ins).map fun
      | .memoryRead => readEa
      | .memoryWrite => writeEa }

/-- The mutex after an acquire by `tid`, if it need not wait. -/
def lockOwner (recursive : Bool) (tid : UInt32) : Option (UInt32 × ℕ) → Option (UInt32 × ℕ)
  | none => some (tid, 1)
  | some (t, n) => if recursive ∧ t = tid then some (t, n + 1) else none

/-- The mutex after a release by its holder. -/
def unlockOwner : Option (UInt32 × ℕ) → Option (UInt32 × ℕ)
  | some (t, n + 2) => some (t, n + 1)
  | _ => none

/-- `tid` holds `m`. -/
def Sys.holds (s : Sys) (tid m : UInt32) : Bool := ((s.owner m).map Prod.fst) = some tid

/-- One step; `recursive` says which mutexes are recursive, and only the holder of a mutex unlocks
it. -/
def step (recursive : UInt32 → Bool) (s : Sys) : Act → Option Sys
  | .fetch tid ins readEa writeEa =>
    if s.replay.status = .running ∧ s.pc tid = .idle then
      let e := s.newExec tid ins readEa writeEa
      some { s with pc := Function.update s.pc tid (.access e e.ops), nextId := s.nextId + 1 }
    else none
  | .callback tid =>
    match s.pc tid with
    | .access e (addr :: todo) =>
      (s.replay.call tid (.mem e.ip addr)).map fun r =>
        { s.observe (some e) r with pc := Function.update s.pc tid (.access e todo) }
    | _ => none
  | .access tid =>
    match s.pc tid with
    | .access e [] =>
      if s.replay.status = .running ∧ s.replay.delayed tid = none then
        some { s with pc := Function.update s.pc tid .idle, performed := s.performed ++ [e] }
      else none
    | _ => none
  | .lockCall tid m callsiteV =>
    if s.pc tid = .idle then
      (s.replay.call tid (.lock callsiteV)).map fun r =>
        { s.observe none r with pc := Function.update s.pc tid (.lock m) }
    else none
  | .acquire tid =>
    match s.pc tid with
    | .lock m =>
      if s.replay.status = .running ∧ s.replay.delayed tid = none then
        (lockOwner (recursive m) tid (s.owner m)).map fun o =>
          { s with
            pc := Function.update s.pc tid .idle
            owner := Function.update s.owner m (some o)
            hist := s.hist ++ [.acquire tid m] }
      else none
    | _ => none
  | .unlockCall tid m callsiteV =>
    if s.pc tid = .idle ∧ s.holds tid m then
      (s.replay.call tid (.unlock callsiteV)).map fun r =>
        { s.observe none r with
          pc := Function.update s.pc tid (.unlock m)
          hist := s.hist ++ [.unlock tid m callsiteV] }
    else none
  | .release tid =>
    match s.pc tid with
    | .unlock m =>
      if s.replay.status = .running then
        some { s with
          pc := Function.update s.pc tid .idle
          owner := Function.update s.owner m (unlockOwner (s.owner m))
          hist := s.hist ++ [.release tid m] }
      else none
    | _ => none
  | .wake tid => (s.replay.wake tid).map fun r => s.observe (s.execOf tid) r

/-! ## What a step can do -/

/-- The steps by kind, each with its guard and its result. -/
inductive Stepped (recursive : UInt32 → Bool) (s : Sys) : Act → Sys → Prop
  | fetch {tid : UInt32} {ins : Ins} {readEa writeEa : UInt32} (hpc : s.pc tid = .idle) :
      Stepped recursive s (.fetch tid ins readEa writeEa)
        { s with
          pc := Function.update s.pc tid
            (.access (s.newExec tid ins readEa writeEa) (s.newExec tid ins readEa writeEa).ops)
          nextId := s.nextId + 1 }
  | callback {tid addr : UInt32} {e : Exec} {todo : List UInt32} {r : Replay}
      (hpc : s.pc tid = .access e (addr :: todo)) (hcall : s.replay.call tid (.mem e.ip addr) = some r) :
      Stepped recursive s (.callback tid)
        { s.observe (some e) r with pc := Function.update s.pc tid (.access e todo) }
  | access {tid : UInt32} {e : Exec} (hpc : s.pc tid = .access e []) (hd : s.replay.delayed tid = none) :
      Stepped recursive s (.access tid)
        { s with pc := Function.update s.pc tid .idle, performed := s.performed ++ [e] }
  | lockCall {tid m callsiteV : UInt32} {r : Replay} (hpc : s.pc tid = .idle)
      (hcall : s.replay.call tid (.lock callsiteV) = some r) :
      Stepped recursive s (.lockCall tid m callsiteV)
        { s.observe none r with pc := Function.update s.pc tid (.lock m) }
  | acquire {tid m : UInt32} {o : UInt32 × ℕ} (hpc : s.pc tid = .lock m) (hd : s.replay.delayed tid = none)
      (ho : lockOwner (recursive m) tid (s.owner m) = some o) :
      Stepped recursive s (.acquire tid)
        { s with
          pc := Function.update s.pc tid .idle
          owner := Function.update s.owner m (some o)
          hist := s.hist ++ [.acquire tid m] }
  | unlockCall {tid m callsiteV : UInt32} {r : Replay} (hpc : s.pc tid = .idle) (hm : s.holds tid m)
      (hcall : s.replay.call tid (.unlock callsiteV) = some r) :
      Stepped recursive s (.unlockCall tid m callsiteV)
        { s.observe none r with
          pc := Function.update s.pc tid (.unlock m)
          hist := s.hist ++ [.unlock tid m callsiteV] }
  | release {tid m : UInt32} (hpc : s.pc tid = .unlock m) :
      Stepped recursive s (.release tid)
        { s with
          pc := Function.update s.pc tid .idle
          owner := Function.update s.owner m (unlockOwner (s.owner m))
          hist := s.hist ++ [.release tid m] }
  | wake {tid : UInt32} {r : Replay} (hwake : s.replay.wake tid = some r) :
      Stepped recursive s (.wake tid) (s.observe (s.execOf tid) r)

/-- **Inversion of a step.** -/
theorem stepped_of_step {recursive : UInt32 → Bool} {s s' : Sys} {a : Act}
    (h : step recursive s a = some s') : Stepped recursive s a s' := by
  cases a with
  | fetch tid ins readEa writeEa =>
    simp only [step] at h
    split_ifs at h with hc
    obtain rfl := Option.some.inj h
    exact .fetch hc.2
  | callback tid =>
    simp only [step] at h
    split at h
    · rename_i e addr todo hpc
      obtain ⟨r, hcall, rfl⟩ := Option.map_eq_some_iff.mp h
      exact .callback hpc hcall
    · exact nomatch h
  | access tid =>
    simp only [step] at h
    split at h
    · rename_i e hpc
      split_ifs at h with hc
      obtain rfl := Option.some.inj h
      exact .access hpc hc.2
    · exact nomatch h
  | lockCall tid m callsiteV =>
    simp only [step] at h
    split_ifs at h with hc
    obtain ⟨r, hcall, rfl⟩ := Option.map_eq_some_iff.mp h
    exact .lockCall hc hcall
  | acquire tid =>
    simp only [step] at h
    split at h
    · rename_i m hpc
      split_ifs at h with hc
      obtain ⟨o, ho, rfl⟩ := Option.map_eq_some_iff.mp h
      exact .acquire hpc hc.2 ho
    · exact nomatch h
  | unlockCall tid m callsiteV =>
    simp only [step] at h
    split_ifs at h with hc
    obtain ⟨r, hcall, rfl⟩ := Option.map_eq_some_iff.mp h
    exact .unlockCall hc.1 hc.2 hcall
  | release tid =>
    simp only [step] at h
    split at h
    · rename_i m hpc
      split_ifs at h with hc
      obtain rfl := Option.some.inj h
      exact .release hpc
    · exact nomatch h
  | wake tid =>
    simp only [step] at h
    obtain ⟨r, hwake, rfl⟩ := Option.map_eq_some_iff.mp h
    exact .wake hwake

/-! ## Invariants of every run -/

/-- What holds in every run: the callbacks' invariant; a thread delayed at an access is in an
execution with that access; an execution under way has not taken effect. -/
structure SysInv (s : Sys) : Prop where
  replay : ReplayInv s.replay
  delayed : ∀ t d ip addr, s.replay.delayed t = some d → d.call = .mem ip addr →
    ∃ e todo, s.pc t = .access e todo ∧ e.ip = ip ∧ addr ∈ e.ops
  current : ∀ t e todo, s.pc t = .access e todo →
    e.tid = t ∧ e.id < s.nextId ∧ e ∉ s.performed ∧ todo ⊆ e.ops
  performed : ∀ e ∈ s.performed, e.id < s.nextId

section Invariants

variable {recursive : UInt32 → Bool} {s s' : Sys} {a : Act}

theorem sysInv_start (lines : List Line) : SysInv (.start lines) :=
  ⟨replayInv_start lines, fun _ _ _ _ h => (nomatch h), fun _ _ _ h => (nomatch h), fun _ h => (nomatch h)⟩

/-- A thread that is delayed at an access is in an instruction. -/
theorem SysInv.not_delayed (h : SysInv s) {t : UInt32} (hpc : ∀ e todo, s.pc t ≠ .access e todo) (d : Delay)
    (ip addr : UInt32) (hd : s.replay.delayed t = some d) : d.call ≠ .mem ip addr := by
  intro hcall
  obtain ⟨e, todo, he, -⟩ := h.delayed t d ip addr hd hcall
  exact hpc e todo he

/-- The part of the invariant about delayed threads, when a thread that is not delayed at an access
moves. -/
theorem SysInv.delayed_update (h : SysInv s) {tid : UInt32} {pc : Pc}
    (hnot : ∀ d ip addr, s.replay.delayed tid = some d → d.call ≠ .mem ip addr)
    (t : UInt32) (d : Delay) (ip addr : UInt32) (hd : s.replay.delayed t = some d)
    (hk : d.call = .mem ip addr) :
    ∃ e todo, Function.update s.pc tid pc t = .access e todo ∧ e.ip = ip ∧ addr ∈ e.ops := by
  have ht : t ≠ tid := by
    rintro rfl
    exact hnot d ip addr hd hk
  rw [Function.update_of_ne ht]
  exact h.delayed t d ip addr hd hk

/-- The same part, after a callback of thread `tid` and a move of its `pc`. -/
theorem SysInv.delayed_call (h : SysInv s) {tid : UInt32} {k : Call} {r : Replay}
    (hcall : s.replay.call tid k = some r) {pc : Pc}
    (hown : ∀ ip addr, k = .mem ip addr → ∃ e todo, pc = .access e todo ∧ e.ip = ip ∧ addr ∈ e.ops)
    (t : UInt32) (d : Delay) (ip addr : UInt32) (hd : r.delayed t = some d) (hk : d.call = .mem ip addr) :
    ∃ e todo, Function.update s.pc tid pc t = .access e todo ∧ e.ip = ip ∧ addr ∈ e.ops := by
  obtain ⟨-, -, rfl⟩ := replay_call hcall
  by_cases ht : t = tid
  · subst ht
    rw [finish_delayed_self] at hd
    rw [Function.update_self]
    exact hown ip addr ((call_spec.sleeps d hd).1.symm.trans hk)
  · rw [finish_delayed_of_ne s.replay ht] at hd
    rw [Function.update_of_ne ht]
    exact h.delayed t d ip addr hd hk

/-- The part about executions under way, when `tid` leaves its execution or goes on with it. -/
theorem SysInv.current_update (h : SysInv s) {tid : UInt32} {pc : Pc}
    (hown : ∀ e todo, pc = .access e todo → ∃ todo', s.pc tid = .access e todo' ∧ todo ⊆ todo')
    (t : UInt32) (e : Exec) (todo : List UInt32) (hpc : Function.update s.pc tid pc t = .access e todo) :
    e.tid = t ∧ e.id < s.nextId ∧ e ∉ s.performed ∧ todo ⊆ e.ops := by
  by_cases ht : t = tid
  · subst ht
    rw [Function.update_self] at hpc
    obtain ⟨todo', hpc', hsub⟩ := hown e todo hpc
    obtain ⟨h1, h2, h3, h4⟩ := h.current t e todo' hpc'
    exact ⟨h1, h2, h3, List.Subset.trans hsub h4⟩
  · rw [Function.update_of_ne ht] at hpc
    exact h.current t e todo hpc

theorem SysInv.step (h : SysInv s) (hstep : step recursive s a = some s') : SysInv s' := by
  cases stepped_of_step hstep with
  | @fetch tid ins readEa writeEa hpc =>
    refine ⟨h.replay, h.delayed_update (h.not_delayed (by simp [hpc])), ?_, ?_⟩
    · intro t e todo he
      by_cases ht : t = tid
      · subst ht
        have he : s.newExec t ins readEa writeEa = e ∧ (s.newExec t ins readEa writeEa).ops = todo := by
          simpa using he
        obtain ⟨rfl, rfl⟩ := he
        refine ⟨rfl, Nat.lt_succ_self _, ?_, List.Subset.refl _⟩
        intro hmem
        exact absurd (h.performed _ hmem) (Nat.lt_irrefl _)
      · obtain ⟨h1, h2, h3, h4⟩ := h.current t e todo ((Function.update_of_ne ht _ _).symm.trans he)
        exact ⟨h1, Nat.lt_succ_of_lt h2, h3, h4⟩
    · intro e he
      exact Nat.lt_succ_of_lt (h.performed e he)
  | @callback tid addr e todo r hpc hcall =>
    have hops := (h.current tid e _ hpc).2.2.2
    refine ⟨h.replay.call hcall, h.delayed_call hcall ?_, h.current_update ?_, h.performed⟩
    · intro ip' addr' hk
      obtain ⟨rfl, rfl⟩ := Call.mem.inj hk
      exact ⟨e, todo, rfl, rfl, hops (List.mem_cons_self)⟩
    · intro e' todo' he
      obtain ⟨rfl, rfl⟩ := Pc.access.inj he
      exact ⟨_, hpc, List.subset_cons_self _ _⟩
  | @access tid e hpc hd =>
    obtain ⟨htid, hid, -, -⟩ := h.current tid e [] hpc
    refine ⟨h.replay, h.delayed_update (by simp [hd]), ?_, ?_⟩
    · intro t e' todo he
      have ht : t ≠ tid := by
        rintro rfl
        exact absurd he (by simp)
      obtain ⟨h1, h2, h3, h4⟩ := h.current t e' todo ((Function.update_of_ne ht _ _).symm.trans he)
      refine ⟨h1, h2, ?_, h4⟩
      intro hmem
      rcases List.mem_append.mp hmem with hmem | hmem
      · exact h3 hmem
      · rw [List.mem_singleton] at hmem
        exact ht (h1.symm.trans (hmem ▸ htid))
    · intro e' he
      rcases List.mem_append.mp he with he | he
      · exact h.performed e' he
      · rw [List.mem_singleton.mp he]
        exact hid
  | lockCall hpc hcall =>
    exact ⟨h.replay.call hcall, h.delayed_call hcall (fun _ _ hk => nomatch hk),
      h.current_update (fun _ _ he => nomatch he), h.performed⟩
  | acquire hpc hd ho =>
    exact ⟨h.replay, h.delayed_update (by simp [hd]), h.current_update (fun _ _ he => nomatch he),
      h.performed⟩
  | unlockCall hpc hm hcall =>
    exact ⟨h.replay.call hcall, h.delayed_call hcall (fun _ _ hk => nomatch hk),
      h.current_update (fun _ _ he => nomatch he), h.performed⟩
  | release hpc =>
    exact ⟨h.replay, h.delayed_update (h.not_delayed (by simp [hpc])),
      h.current_update (fun _ _ he => nomatch he), h.performed⟩
  | @wake tid r hwake =>
    refine ⟨h.replay.wake hwake, ?_, h.current, h.performed⟩
    intro t d ip addr hd hk
    obtain ⟨d0, -, hd0, rfl⟩ := replay_wake hwake
    by_cases ht : t = tid
    · subst ht
      have hd : (s.replay.ctl.wake d0).2.delay = some d := by simpa [Sys.observe, Replay.finish] using hd
      have hspec := wake_spec (h.replay.waits t d0 hd0)
      exact h.delayed t d0 ip addr hd0 ((hspec.sleeps d hd).1.symm.trans hk)
    · exact h.delayed t d ip addr (by simpa [Sys.observe, Replay.finish, ht] using hd) hk

end Invariants

end Controller
end AVPredictor
