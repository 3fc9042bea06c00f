import AVPredictor.Controller.InstOrder
import AVPredictor.Monitor.Record

/-!
# AVPredictor.Controller.Operands — the accesses that the two tools see

For an instruction that passes the filters of both tools the monitor inserts one fill-buffer call,
for the read operand if there is one and else for the write operand (`else if`); the controller
inserts a callback for each operand (two `if`s).  So the records of an execution are the first of
its callbacks, and the tools see the same accesses exactly in the executions without read-modify-write
instructions (`recorded_eq_called_iff`).
-/

namespace AVPredictor
namespace Controller

open Base Monitor

/-- `(ip, addr, tid)` of a record or a callback. -/
abbrev Seen : Type := UInt32 × UInt32 × UInt32

/-- The effective address that Pin passes for an operand. -/
def eaOf (e : Monitor.Exec) : Ea → UInt32
  | .memoryRead => e.readEa
  | .memoryWrite => e.writeEa

/-- The accesses for which the monitor fills a record. -/
def recorded (es : List Monitor.Exec) : List Seen :=
  es.flatMap fun e => (recordsOf e).map fun r => (r.pc, r.addr, r.tid)

/-- The accesses for which the controller calls `BeforeMemAccess`. -/
def called (es : List Monitor.Exec) : List Seen :=
  es.flatMap fun e => (instruction e.ins).map fun ea => (e.ins.address, eaOf e ea, e.tid)

/-- An instruction in range that is no branch, no stack access and no prefetch. -/
structure Covered (ins : Ins) : Prop where
  le_upper : ins.address ≤ userUpperBound
  lower_le : userLowerBound ≤ ins.address
  not_branch : ins.isBranchOrCall = false
  not_stackRead : ins.isStackRead = false
  not_stackWrite : ins.isStackWrite = false
  not_prefetch : ins.isPrefetch = false

section Operands

variable {ins : Ins} {e : Monitor.Exec} {es : List Monitor.Exec}

/-- The callbacks are those of the execution in the model of the controller. -/
theorem called_newExec (s : Sys) (e : Monitor.Exec) :
    called [e] =
      (s.newExec e.tid e.ins e.readEa e.writeEa).ops.map fun addr => (e.ins.address, addr, e.tid) := by
  rw [called, List.flatMap_singleton, Sys.newExec, List.map_map]
  refine List.map_congr_left fun ea _ => ?_
  cases ea <;> rfl

theorem Covered.monitor_instruction (h : Covered ins) :
    Monitor.instruction true ins =
      if ins.isMemoryRead then some ⟨.memoryRead, 0⟩
      else if ins.isMemoryWrite then some ⟨.memoryWrite, 1⟩
      else none := by
  have hrange := not_outOfRange h.le_upper h.lower_le
  simp [Monitor.instruction, h.not_branch, h.not_stackRead, h.not_stackWrite, h.not_prefetch, hrange]

theorem Covered.instruction (h : Covered ins) :
    instruction ins =
      (if ins.isMemoryRead then [.memoryRead] else []) ++ (if ins.isMemoryWrite then [.memoryWrite] else []) := by
  have hupper : ¬ ins.address > userUpperBound := UInt32.not_lt.mpr h.le_upper
  have hlower : ¬ ins.address < userLowerBound := UInt32.not_lt.mpr h.lower_le
  simp [Controller.instruction, h.not_branch, h.not_stackRead, h.not_stackWrite, hupper, hlower]

/-- One execution: the records are the first callbacks, and all of them unless there are two
operands. -/
theorem Covered.seen (h : Covered e.ins) :
    ((recordsOf e).map fun r => (r.pc, r.addr, r.tid)).Sublist
        ((Controller.instruction e.ins).map fun ea => (e.ins.address, eaOf e ea, e.tid)) ∧
      ((recordsOf e).map (fun r => (r.pc, r.addr, r.tid)) =
          (Controller.instruction e.ins).map (fun ea => (e.ins.address, eaOf e ea, e.tid)) ↔
        ¬ (e.ins.isMemoryRead = true ∧ e.ins.isMemoryWrite = true)) := by
  rw [recordsOf, h.monitor_instruction, h.instruction]
  cases hr : e.ins.isMemoryRead <;> cases hw : e.ins.isMemoryWrite
  · simp
  · simp [fill, eaOf]
  · simp [fill, eaOf]
  · simp [fill, eaOf]

/-- **The tools see the same accesses exactly when no instruction has two operands.** -/
theorem recorded_eq_called_iff (h : ∀ e ∈ es, Covered e.ins) :
    recorded es = called es ↔ ∀ e ∈ es, ¬ (e.ins.isMemoryRead = true ∧ e.ins.isMemoryWrite = true) := by
  rw [recorded, called, flatMap_eq_iff_of_sublist fun e he => (h e he).seen.1]
  exact forall₂_congr fun e he => (h e he).seen.2

end Operands

/-- Thread 1 loads the word at 64, thread 2 stores to it. -/
def loadStore : List Monitor.Exec :=
  [⟨readIns 0x8048100, 1, 10, 64, 0⟩, ⟨writeIns 0x8048200, 2, 11, 0, 64⟩]

theorem recorded_eq_called_loadStore :
    recorded loadStore = called loadStore ↔
      ∀ e ∈ loadStore, ¬ (e.ins.isMemoryRead = true ∧ e.ins.isMemoryWrite = true) := by
  refine recorded_eq_called_iff ?_
  intro e he
  have he : e = ⟨readIns 0x8048100, 1, 10, 64, 0⟩ ∨ e = ⟨writeIns 0x8048200, 2, 11, 0, 64⟩ := by
    simpa [loadStore] using he
  rcases he with rfl | rfl
  · exact ⟨by decide, by decide, rfl, rfl, rfl, rfl⟩
  · exact ⟨by decide, by decide, rfl, rfl, rfl, rfl⟩

/-- `inc [64]`: one operand read, one written. -/
def incIns : Ins := ⟨0x8048100, false, false, false, false, true, true⟩

/-- The increment is recorded once, as its read, and called back twice. -/
theorem increment_seen :
    Covered incIns ∧ recorded [⟨incIns, 1, 10, 64, 64⟩] = [(0x8048100, 64, 1)] ∧
      called [⟨incIns, 1, 10, 64, 64⟩] = [(0x8048100, 64, 1), (0x8048100, 64, 1)] ∧
      recorded [⟨incIns, 1, 10, 64, 64⟩] ≠ called [⟨incIns, 1, 10, 64, 64⟩] :=
  ⟨⟨by decide, by decide, rfl, rfl, rfl, rfl⟩, by decide, by decide, by decide⟩

end Controller
end AVPredictor
