import AVPredictor.Structs

/-!
# AVPredictor.Offline.Data — values of the offline analyser (`offline_modules.py`)

The analyser reads the three logs with Python's `struct` in native mode and keeps unbounded
integers, so every field here is a natural number.  A statement that raises an exception ends the
run: functions that may do so return `Except PyErr`.
-/

namespace AVPredictor
namespace Offline

open Base

/-- The exceptions that the analyser's statements can raise. -/
inductive PyErr where
  | assertionError
  | indexError
  | keyError
  | nameError (name : String)
  | structError
deriving DecidableEq, Repr

/-- `READ` -/
def opRead : ℕ := 1

/-- `WRITE` -/
def opWrite : ℕ := 0

/-- `LOCK` -/
def opLock : ℕ := 1

/-- `UNLOCK` -/
def opUnlock : ℕ := 0

/-- The dictionary `trace` of one memory record. -/
structure Trace where
  tid : ℕ
  time : ℕ
  ip : ℕ
  addr : ℕ
  op : ℕ
deriving DecidableEq, Repr

/-- The dictionary `cs` of one critical section. -/
structure CS where
  tid : ℕ
  /-- start time -/
  stime : ℕ
  /-- finish time, `0` while the section is open -/
  ftime : ℕ
  /-- lock_callsite_value -/
  lCv : ℕ
  /-- lock_entry_value -/
  lEv : ℕ
  /-- unlock_callsite_value -/
  uCv : ℕ
  /-- unlock_entry_value -/
  uEv : ℕ
deriving DecidableEq, Repr

/-- The dictionary `sync` of one synchronisation record. -/
structure Sync where
  tid : ℕ
  time : ℕ
  type : ℕ
deriving DecidableEq, Repr

/-- The dictionary `ci` of one candidate interleaving. -/
structure CI where
  first : Trace
  second : Trace
  inter : Trace
deriving DecidableEq, Repr

/-- `struct.unpack(fmt, line)` -/
def unpack (fmt : List Scalar) (line : List UInt8) : Except PyErr (List ℕ) :=
  match unpackFrom 0 fmt line with
  | some vs => .ok vs
  | none => .error .structError

/-- Unpacking with the members' own scalars gives their values. -/
theorem unpack_pack {ms : List (Scalar × ℕ)} (h : ∀ m ∈ ms, m.2 < 256 ^ m.1.size) :
    unpack (ms.map Prod.fst) (pack 0 ms) = .ok (ms.map Prod.snd) := by
  rw [unpack, unpackFrom_pack ms 0 h]

end Offline
end AVPredictor
