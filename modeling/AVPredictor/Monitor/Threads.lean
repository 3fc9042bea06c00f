import Mathlib.Data.List.Perm.Subperm
import AVPredictor.Base.History
import AVPredictor.Monitor.Record

/-!
# AVPredictor.Monitor.Threads — when the monitor decides to record

`ThreadStart` sets `logEnable`, `ThreadFini` clears it when one thread is left; but `Instruction`
looks at it only when Pin asks about a static instruction, which is at its first execution, and the
decision is kept (`Session.inserted`).  So what matters at an execution is not whether logging is on
but whether it was on at the first execution of that instruction (`decision_monitored`).
`allRecorded_iff` says exactly when nothing done by two threads goes unrecorded.
-/

namespace AVPredictor
namespace Monitor

open Base

/-- What happens in the monitored program. -/
inductive ThreadEvent where
  | threadStart (tid : UInt32)
  | threadFini (tid : UInt32)
  | exec (e : Exec)
deriving DecidableEq, Repr

/-! ## The code -/

/-- The globals of the monitor, what Pin has inserted for each instruction that it has asked about,
and the records filled in. -/
structure Session where
  logEnable : Bool
  threadNum : UInt32
  inserted : Ins → Option (Option FillBuffer)
  memRefs : List MemRef

def Session.init : Session := ⟨false, 0, fun _ => none, []⟩

/-- `ThreadStart` -/
def Session.threadStart (s : Session) : Session :=
  { s with logEnable := true, threadNum := s.threadNum + 1 }

/-- `ThreadFini` -/
def Session.threadFini (s : Session) : Session :=
  let s := { s with threadNum := s.threadNum - 1 }
  if s.threadNum = 1 then { s with logEnable := false } else s

/-- The call inserted for an instruction that is about to be executed: `Instruction` is called now,
or was at the first execution. -/
def Session.decision (s : Session) (ins : Ins) : Option FillBuffer :=
  match s.inserted ins with
  | some fb => fb
  | none => instruction s.logEnable ins

/-- The records that an execution fills. -/
def Session.records (s : Session) (e : Exec) : List MemRef := ((s.decision e.ins).map (fill · e)).toList

def Session.step (s : Session) : ThreadEvent → Session
  | .threadStart _ => s.threadStart
  | .threadFini _ => s.threadFini
  | .exec e =>
    { s with
      inserted := Function.update s.inserted e.ins (some (s.decision e.ins))
      memRefs := s.memRefs ++ s.records e }

/-- The monitor after a history. -/
def monitored (evs : List ThreadEvent) : Session := evs.foldl Session.step Session.init

/-! ## Histories -/

/-- The threads alive after one more event. -/
def aliveStep (alive : List UInt32) : ThreadEvent → List UInt32
  | .threadStart tid => tid :: alive
  | .threadFini tid => alive.erase tid
  | .exec _ => alive

/-- The threads alive after a history. -/
def alive (evs : List ThreadEvent) : List UInt32 := evs.foldl aliveStep []

/-- A thread starts when it is not alive, and ends and executes when it is. -/
def ThreadEvent.Possible (evs : List ThreadEvent) : ThreadEvent → Prop
  | .threadStart tid => tid ∉ alive evs
  | .threadFini tid => tid ∈ alive evs
  | .exec e => e.tid ∈ alive evs

/-- A history of a program. -/
def Valid (evs : List ThreadEvent) : Prop := Always ThreadEvent.Possible evs

/-- An instruction in user range that accesses memory, not on the stack. -/
structure Accesses (ins : Ins) : Prop where
  le_upper : ins.address ≤ userUpperBound
  lower_le : userLowerBound ≤ ins.address
  not_stackRead : ins.isStackRead = false
  not_stackWrite : ins.isStackWrite = false
  memory : ins.isMemoryRead = true ∨ ins.isMemoryWrite = true

/-- An execution of such an instruction while at least two threads are alive. -/
def Shared (evs : List ThreadEvent) (ev : ThreadEvent) (e : Exec) : Prop :=
  ev = .exec e ∧ Accesses e.ins ∧ 2 ≤ (alive evs).length

/-- Nothing done while two threads run goes unrecorded. -/
def AllRecorded (evs : List ThreadEvent) : Prop :=
  Always (fun pre ev => ∀ e, Shared pre ev e → (monitored pre).records e ≠ []) evs

/-- A thread has started, and since then no end of a thread has left exactly one alive. -/
def Logging (evs : List ThreadEvent) : Prop :=
  Since (fun _ ev => ∃ tid, ev = .threadStart tid)
    (fun pre ev => ∀ tid, ev = .threadFini tid → (alive (pre ++ [ev])).length ≠ 1) evs

/-- The event executes the instruction. -/
def ThreadEvent.executes (ins : Ins) : ThreadEvent → Bool
  | .exec e => e.ins = ins
  | _ => false

/-- Every instruction that accesses memory while two threads are alive is neither a branch nor a
prefetch, and was first executed while logging. -/
def FirstLogged (evs : List ThreadEvent) : Prop :=
  Always (fun pre ev => ∀ e, Shared pre ev e →
    e.ins.isBranchOrCall = false ∧ e.ins.isPrefetch = false ∧
      Logging (before (ThreadEvent.executes e.ins) pre)) evs

section Threads

variable {evs pre : List ThreadEvent} {ev : ThreadEvent} {ins : Ins}

theorem monitored_concat (evs : List ThreadEvent) (ev : ThreadEvent) :
    monitored (evs ++ [ev]) = (monitored evs).step ev := List.foldl_concat _ _ _ _

theorem alive_concat (evs : List ThreadEvent) (ev : ThreadEvent) :
    alive (evs ++ [ev]) = aliveStep (alive evs) ev := List.foldl_concat _ _ _ _

/-! ## The count of threads -/

theorem nodup_alive (h : Valid evs) : (alive evs).Nodup := by
  refine h.induction (P := fun evs => (alive evs).Nodup) List.nodup_nil ?_
  intro evs ev _ ih hpos
  rw [alive_concat]
  cases ev with
  | threadStart tid => exact List.nodup_cons.mpr ⟨hpos, ih⟩
  | threadFini tid => exact ih.erase tid
  | exec e => exact ih

/-- There are no more threads than thread numbers. -/
theorem length_alive_le (h : Valid evs) : (alive evs).length ≤ 2 ^ 32 := by
  have hmap : ((alive evs).map UInt32.toNat).Nodup :=
    (nodup_alive h).map fun _ _ => UInt32.toNat_inj.mp
  have hsub : (alive evs).map UInt32.toNat ⊆ List.range (2 ^ 32) := by
    intro n hn
    obtain ⟨tid, -, rfl⟩ := List.mem_map.mp hn
    exact List.mem_range.mpr tid.toNat_lt
  have hlen := (hmap.subperm hsub).length_le
  rwa [List.length_map, List.length_range] at hlen

theorem threadNum_monitored (h : Valid evs) :
    (monitored evs).threadNum = UInt32.ofNat (alive evs).length := by
  refine h.induction (P := fun evs => (monitored evs).threadNum = UInt32.ofNat (alive evs).length) rfl ?_
  intro evs ev _ ih hpos
  rw [monitored_concat, alive_concat]
  cases ev with
  | threadStart tid =>
    show (monitored evs).threadNum + 1 = UInt32.ofNat ((alive evs).length + 1)
    rw [ih, UInt32.ofNat_add]
    rfl
  | threadFini tid =>
    have hnum : (monitored evs).threadFini.threadNum = (monitored evs).threadNum - 1 := by
      unfold Session.threadFini
      simp only
      split_ifs <;> rfl
    obtain ⟨n, hn⟩ : ∃ n, (alive evs).length = n + 1 :=
      ⟨_, (Nat.sub_add_cancel (List.length_pos_of_mem hpos)).symm⟩
    show (monitored evs).threadFini.threadNum = UInt32.ofNat ((alive evs).erase tid).length
    rw [hnum, ih, List.length_erase_of_mem hpos, hn, UInt32.ofNat_add, Nat.add_sub_cancel]
    exact UInt32.add_sub_cancel _ _
  | exec e => exact ih

/-! ## Logging -/

/-- After the end of a thread the count is 1 when one thread is left. -/
theorem threadNum_eq_one_iff {tid : UInt32} (h : Valid (evs ++ [.threadFini tid])) :
    (monitored evs).threadNum - 1 = 1 ↔ (alive (evs ++ [.threadFini tid])).length = 1 := by
  have hpos : tid ∈ alive evs := (always_concat.mp h).2
  have hle := length_alive_le (always_concat.mp h).1
  have hlen := List.length_pos_of_mem hpos
  rw [threadNum_monitored (always_concat.mp h).1, alive_concat]
  show _ ↔ ((alive evs).erase tid).length = 1
  rw [List.length_erase_of_mem hpos, ← UInt32.toNat_inj, UInt32.toNat_sub, UInt32.toNat_ofNat']
  have hone : (1 : UInt32).toNat = 1 := rfl
  omega

/-- **`logEnable` is set while logging.** -/
theorem logEnable_iff (h : Valid evs) : (monitored evs).logEnable = true ↔ Logging evs := by
  refine h.induction (P := fun evs => (monitored evs).logEnable = true ↔ Logging evs) ?_ ?_
  · exact iff_of_false Bool.false_ne_true not_since_nil
  intro evs ev hvalid ih hpos
  rw [monitored_concat, Logging, since_concat, ← Logging]
  cases ev with
  | threadStart tid => exact iff_of_true rfl (Or.inl ⟨tid, rfl⟩)
  | threadFini tid =>
    have hone := threadNum_eq_one_iff (always_concat.mpr ⟨hvalid, hpos⟩)
    show (monitored evs).threadFini.logEnable = true ↔ _
    unfold Session.threadFini
    simp only
    split_ifs with hc
    · refine iff_of_false (fun h => h) ?_
      rintro (⟨t, ht⟩ | ⟨-, hne⟩)
      · exact nomatch ht
      · exact hne tid rfl (hone.mp hc)
    · rw [ih]
      constructor
      · intro hlog
        refine Or.inr ⟨hlog, ?_⟩
        intro t ht
        exact fun hlen => hc (hone.mpr hlen)
      · rintro (⟨t, ht⟩ | ⟨hlog, -⟩)
        · exact nomatch ht
        · exact hlog
  | exec e =>
    show (monitored evs).logEnable = true ↔ _
    rw [ih]
    constructor
    · exact fun hlog => Or.inr ⟨hlog, fun t ht => nomatch ht⟩
    · rintro (⟨t, ht⟩ | ⟨hlog, -⟩)
      · exact nomatch ht
      · exact hlog

/-! ## The decision -/

theorem step_inserted_of_ne (s : Session) (h : ev.executes ins = false) :
    (s.step ev).inserted ins = s.inserted ins := by
  cases ev with
  | threadStart tid => rfl
  | threadFini tid =>
    show s.threadFini.inserted ins = s.inserted ins
    unfold Session.threadFini
    simp only
    split_ifs <;> rfl
  | exec e =>
    have hne : ins ≠ e.ins := by
      rintro rfl
      exact absurd h (by simp [ThreadEvent.executes])
    exact Function.update_of_ne hne _ _

theorem step_inserted_of_eq (s : Session) (h : ev.executes ins = true) :
    (s.step ev).inserted ins = some (s.decision ins) := by
  cases ev with
  | threadStart tid => exact nomatch h
  | threadFini tid => exact nomatch h
  | exec e =>
    obtain rfl : e.ins = ins := by simpa [ThreadEvent.executes] using h
    exact Function.update_self _ _ _

theorem not_executed (h : evs.any (ThreadEvent.executes ins) = false) :
    ∀ ev ∈ evs, ev.executes ins = false := by
  intro ev hev
  by_contra htrue
  exact absurd (List.any_eq_true.mpr ⟨ev, hev, by simpa using htrue⟩) (by simp [h])

/-- What has been inserted for an instruction was decided before its first execution. -/
theorem inserted_monitored (evs : List ThreadEvent) (ins : Ins) :
    (monitored evs).inserted ins = if evs.any (ThreadEvent.executes ins) then
      some (instruction (monitored (before (ThreadEvent.executes ins) evs)).logEnable ins) else none := by
  induction evs using List.reverseRecOn with
  | nil => rfl
  | append_singleton evs ev ih =>
    rw [monitored_concat, List.any_append, List.any_cons, List.any_nil, Bool.or_false]
    cases hany : evs.any (ThreadEvent.executes ins) with
    | true =>
      rw [hany, if_pos rfl] at ih
      rw [Bool.true_or, if_pos rfl, before_append (List.any_eq_true.mp hany), ← ih]
      cases hev : ev.executes ins with
      | true => rw [step_inserted_of_eq _ hev, Session.decision, ih]
      | false => exact step_inserted_of_ne _ hev
    | false =>
      rw [hany, if_neg Bool.false_ne_true] at ih
      rw [Bool.false_or]
      cases hev : ev.executes ins with
      | true =>
        have hbefore : before (ThreadEvent.executes ins) (evs ++ [ev]) = evs :=
          before_eq (not_executed hany) hev
        rw [step_inserted_of_eq _ hev, Session.decision, ih, if_pos rfl, hbefore]
      | false =>
        rw [step_inserted_of_ne _ hev, ih]
        rfl

/-- **The decision about an instruction is that of its first execution.** -/
theorem decision_monitored (evs : List ThreadEvent) (ins : Ins) :
    (monitored evs).decision ins =
      instruction (monitored (before (ThreadEvent.executes ins) evs)).logEnable ins := by
  rw [Session.decision, inserted_monitored]
  cases hany : evs.any (ThreadEvent.executes ins) with
  | true => rfl
  | false =>
    rw [before_eq_self (not_executed hany)]
    rfl

theorem Accesses.instruction_iff (h : Accesses ins) (logEnable : Bool) :
    instruction logEnable ins ≠ none ↔
      ins.isBranchOrCall = false ∧ ins.isPrefetch = false ∧ logEnable = true := by
  have hrange := not_outOfRange h.le_upper h.lower_le
  unfold instruction
  simp only [h.not_stackRead, h.not_stackWrite, if_neg hrange]
  cases logEnable <;> cases ins.isBranchOrCall <;> cases ins.isPrefetch <;> simp
  rcases h.memory with hr | hw
  · simp [hr]
  · cases hr : ins.isMemoryRead
    · simp [hw]
    · simp

/-- **What two threads do is recorded exactly when every instruction concerned is neither a branch
nor a prefetch and was first executed while logging.** -/
theorem allRecorded_iff (h : Valid evs) : AllRecorded evs ↔ FirstLogged evs := by
  refine always_iff ?_
  rintro pre ev post rfl
  have hpre : Valid pre := h.prefix
  refine forall₂_congr fun e hshared => ?_
  have hrecords : (monitored pre).records e ≠ [] ↔ (monitored pre).decision e.ins ≠ none := by
    rw [Session.records]
    cases (monitored pre).decision e.ins <;> simp
  rw [hrecords, decision_monitored, hshared.2.1.instruction_iff, logEnable_iff (hpre.before _)]

end Threads

instance (evs : List ThreadEvent) (ev : ThreadEvent) : Decidable (ev.Possible evs) :=
  match ev with
  | .threadStart tid => inferInstanceAs (Decidable (tid ∉ alive evs))
  | .threadFini tid => inferInstanceAs (Decidable (tid ∈ alive evs))
  | .exec e => inferInstanceAs (Decidable (e.tid ∈ alive evs))

instance (evs : List ThreadEvent) : Decidable (Valid evs) :=
  inferInstanceAs (Decidable (Always ThreadEvent.Possible evs))

theorem accesses_loadIns : Accesses loadIns := ⟨by decide, by decide, rfl, rfl, Or.inl rfl⟩

/-- Thread 1 is started and both threads execute the load. -/
def togetherRun : List ThreadEvent :=
  [.threadStart 0, .threadStart 1, .exec ⟨loadIns, 0, 10, 64, 0⟩, .exec ⟨loadIns, 1, 11, 64, 0⟩]

theorem allRecorded_iff_together : AllRecorded togetherRun ↔ FirstLogged togetherRun :=
  allRecorded_iff (by decide)

/-- The main thread executes the load for the first time when its only other thread has ended, and
again when it has started another one. -/
def againRun : List ThreadEvent :=
  [.threadStart 0, .threadStart 1, .threadFini 1, .exec ⟨loadIns, 0, 10, 64, 0⟩, .threadStart 2]

theorem load_unrecorded :
    Valid (againRun ++ [.exec ⟨loadIns, 0, 11, 64, 0⟩]) ∧ alive againRun = [2, 0] ∧
      (monitored againRun).records ⟨loadIns, 0, 11, 64, 0⟩ = [] ∧
      ¬ AllRecorded (againRun ++ [.exec ⟨loadIns, 0, 11, 64, 0⟩]) := by
  have hnone : (monitored againRun).records ⟨loadIns, 0, 11, 64, 0⟩ = [] := by decide
  refine ⟨by decide, by decide, hnone, ?_⟩
  intro h
  exact h againRun _ [] rfl ⟨loadIns, 0, 11, 64, 0⟩ ⟨rfl, accesses_loadIns, by decide⟩ hnone

end Monitor
end AVPredictor
