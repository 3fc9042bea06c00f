import Mathlib.Init

/-!
# AVPredictor.Pin — what Pin tells a tool about an instruction

Both tools decide once for each static instruction which calls to insert; Pin runs every inserted
call once for each execution of the instruction, before the instruction takes effect.
-/

namespace AVPredictor

/-- What Pin's inspectors report of a static instruction. -/
structure Ins where
  /-- `INS_Address` -/
  address : UInt32
  isBranchOrCall : Bool
  isStackRead : Bool
  isStackWrite : Bool
  isPrefetch : Bool
  isMemoryRead : Bool
  isMemoryWrite : Bool
deriving DecidableEq, Repr

/-- `IARG_MEMORYREAD_EA`, `IARG_MEMORYWRITE_EA` -/
inductive Ea where
  | memoryRead
  | memoryWrite
deriving DecidableEq, Repr

end AVPredictor
