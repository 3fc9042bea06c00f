import Mathlib.Logic.Function.Basic
import AVPredictor.Structs

/-!
# AVPredictor.Monitor.Callbacks — lock and synchronisation events of the monitor

The callbacks append to two arrays, `lockBuf` and `syncBuf`, each with its own counter; `Fini`
writes both arrays out. The arrays are modelled as memory, a value at every index: a store past the
end of an array is a store at an index that is not below its size.  All four synchronisation
callbacks test `countLockRef`.
-/

namespace AVPredictor
namespace Monitor

/-- The arrays and counters of `structs.h`. -/
structure LogState where
  lockBuf : ℕ → LockRef
  countLockRef : UInt32
  syncBuf : ℕ → SyncRef
  countSyncRef : UInt32

def LogState.init : LogState := ⟨fun _ => ⟨0, 0, 0, 0, 0⟩, 0, fun _ => ⟨0, 0, 0⟩, 0⟩

/-- The body of `beforeThreadLock` and `beforeThreadUnLock`; `lock` is the constant that they
store. -/
def LogState.storeLock (lock : UInt32) (s : LogState) (tid : UInt32) (ts : UInt64)
    (callsiteV entryV : UInt32) : LogState :=
  if s.countLockRef.toNat < lockBufSize then
    { s with
      lockBuf := Function.update s.lockBuf s.countLockRef.toNat ⟨tid, ts, callsiteV, entryV, lock⟩
      countLockRef := s.countLockRef + 1 }
  else s

/-- The body of the four `afterThread...` callbacks; `type` is the constant that they store. -/
def LogState.storeSync (type : UInt32) (s : LogState) (tid : UInt32) (ts : UInt64) : LogState :=
  if s.countLockRef.toNat < syncBufSize then
    { s with
      syncBuf := Function.update s.syncBuf s.countSyncRef.toNat ⟨tid, ts, type⟩
      countSyncRef := s.countSyncRef + 1 }
  else s

def LogState.beforeThreadLock := LogState.storeLock 1

def LogState.beforeThreadUnLock := LogState.storeLock 0

def LogState.afterThreadBarrier := LogState.storeSync 1

def LogState.afterThreadCondWait := LogState.storeSync 2

def LogState.afterThreadCondTimedwait := LogState.storeSync 3

def LogState.afterThreadSleep := LogState.storeSync 4

/-- One callback with its arguments. -/
inductive Callback where
  | beforeThreadLock (tid : UInt32) (ts : UInt64) (callsiteV entryV : UInt32)
  | beforeThreadUnLock (tid : UInt32) (ts : UInt64) (callsiteV entryV : UInt32)
  | afterThreadBarrier (tid : UInt32) (ts : UInt64)
  | afterThreadCondWait (tid : UInt32) (ts : UInt64)
  | afterThreadCondTimedwait (tid : UInt32) (ts : UInt64)
  | afterThreadSleep (tid : UInt32) (ts : UInt64)
deriving DecidableEq, Repr

def LogState.step (s : LogState) : Callback → LogState
  | .beforeThreadLock tid ts c e => s.beforeThreadLock tid ts c e
  | .beforeThreadUnLock tid ts c e => s.beforeThreadUnLock tid ts c e
  | .afterThreadBarrier tid ts => s.afterThreadBarrier tid ts
  | .afterThreadCondWait tid ts => s.afterThreadCondWait tid ts
  | .afterThreadCondTimedwait tid ts => s.afterThreadCondTimedwait tid ts
  | .afterThreadSleep tid ts => s.afterThreadSleep tid ts

/-- The buffers after a sequence of callbacks. -/
def LogState.run (cbs : List Callback) : LogState := cbs.foldl LogState.step LogState.init

/-- `lockBuf[0..countLockRef)` -/
def LogState.lockRefs (s : LogState) : List LockRef := (List.range s.countLockRef.toNat).map s.lockBuf

/-- `syncBuf[0..countSyncRef)` -/
def LogState.syncRefs (s : LogState) : List SyncRef := (List.range s.countSyncRef.toNat).map s.syncBuf

/-- What `Fini` writes to `file_lock`. -/
def LogState.finiLock (s : LogState) : List UInt8 := fwrite LockRef.bytes s.lockRefs

/-- What `Fini` writes to `file_sync`. -/
def LogState.finiSync (s : LogState) : List UInt8 := fwrite SyncRef.bytes s.syncRefs

/-- The stored types are those of the four callbacks. -/
def SyncTypes (s : LogState) : Prop :=
  ∀ i < s.countSyncRef.toNat, 1 ≤ (s.syncBuf i).type.toNat ∧ (s.syncBuf i).type.toNat ≤ 4

theorem syncTypes_storeSync {s : LogState} (h : SyncTypes s) {type : UInt32} (h1 : 1 ≤ type.toNat)
    (h4 : type.toNat ≤ 4) (tid : UInt32) (ts : UInt64) : SyncTypes (s.storeSync type tid ts) := by
  unfold LogState.storeSync
  split_ifs
  · intro i hi
    show 1 ≤ (Function.update s.syncBuf s.countSyncRef.toNat ⟨tid, ts, type⟩ i).type.toNat ∧
      (Function.update s.syncBuf s.countSyncRef.toNat ⟨tid, ts, type⟩ i).type.toNat ≤ 4
    by_cases hlast : i = s.countSyncRef.toNat
    · rw [hlast, Function.update_self]
      exact ⟨h1, h4⟩
    · -- the counter may wrap to 0, and then there is no index below it
      have hlt : i < s.countSyncRef.toNat := by
        have hi' : i < (s.countSyncRef + 1).toNat := hi
        rw [UInt32.toNat_add] at hi'
        have hmod := Nat.mod_le (s.countSyncRef.toNat + (1 : UInt32).toNat) (2 ^ 32)
        have hone : (1 : UInt32).toNat = 1 := rfl
        omega
      rw [Function.update_of_ne hlast]
      exact h i hlt
  · exact h

theorem syncTypes_storeLock {s : LogState} (h : SyncTypes s) (lock tid : UInt32) (ts : UInt64)
    (c e : UInt32) : SyncTypes (s.storeLock lock tid ts c e) := by
  unfold LogState.storeLock
  split_ifs
  · exact h
  · exact h

theorem syncTypes_step {s : LogState} (h : SyncTypes s) (cb : Callback) : SyncTypes (s.step cb) := by
  cases cb with
  | beforeThreadLock tid ts c e => exact syncTypes_storeLock h _ tid ts c e
  | beforeThreadUnLock tid ts c e => exact syncTypes_storeLock h _ tid ts c e
  | afterThreadBarrier tid ts => exact syncTypes_storeSync h (by decide) (by decide) tid ts
  | afterThreadCondWait tid ts => exact syncTypes_storeSync h (by decide) (by decide) tid ts
  | afterThreadCondTimedwait tid ts => exact syncTypes_storeSync h (by decide) (by decide) tid ts
  | afterThreadSleep tid ts => exact syncTypes_storeSync h (by decide) (by decide) tid ts

theorem foldl_syncTypes {s : LogState} (h : SyncTypes s) (cbs : List Callback) :
    SyncTypes (cbs.foldl LogState.step s) := by
  induction cbs generalizing s with
  | nil => exact h
  | cons cb cbs ih => exact ih (syncTypes_step h cb)

/-- Every stored synchronisation record has a type from 1 to 4. -/
theorem type_of_syncRefs (cbs : List Callback) {r : SyncRef} (h : r ∈ (LogState.run cbs).syncRefs) :
    1 ≤ r.type.toNat ∧ r.type.toNat ≤ 4 := by
  have hinit : SyncTypes LogState.init := fun i hi => absurd hi (Nat.not_lt_zero i)
  obtain ⟨i, hi, rfl⟩ := List.mem_map.mp h
  exact foldl_syncTypes hinit cbs i (List.mem_range.mp hi)

end Monitor
end AVPredictor
