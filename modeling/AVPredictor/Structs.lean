import AVPredictor.Base.Bytes

/-!
# AVPredictor.Structs — the records and bounds shared by the tools (`structs.h`)

The monitor writes three binary logs, each an array of one struct: `MEMREF` (`trace_mem.log`),
`LOCKREF` (`trace_lock.log`) and `SYNCREF` (`trace_sync.log`).  `bytes` is the memory image that
`fwrite` copies out.  The tools are built for ia32: a `UINT64` inside a struct is aligned to 4
bytes, so no struct has padding.
-/

namespace AVPredictor

open Base

/-- `LOCKBUFSIZE` -/
def lockBufSize : ℕ := 100000

/-- `SYNCBUFSIZE` -/
def syncBufSize : ℕ := 100000

/-- `USER_UPPERBOUND` -/
def userUpperBound : UInt32 := 0x15000000

/-- `USER_LOWERBOUND` -/
def userLowerBound : UInt32 := 0x08048000

/-- The test for an address out of user range fails for one in it. -/
theorem not_outOfRange {address : UInt32} (hupper : address ≤ userUpperBound)
    (hlower : userLowerBound ≤ address) :
    ¬ (address > userUpperBound ∨ address < userLowerBound) := by
  rintro (hgt | hlt)
  · exact absurd hupper (UInt32.not_le.mpr hgt)
  · exact absurd hlower (UInt32.not_le.mpr hlt)

/-- `TIMEOUT`, the number of sleeps after which a delayed thread ends the program. -/
def timeout : ℕ := 300

/-- `max_size`, the capacity of the controller's candidate arrays. -/
def maxSize : ℕ := 32

/-- `UINT32` as a struct member. -/
def uint32 : Scalar := ⟨4, 4⟩

/-- `UINT64` as a struct member of an ia32 build. -/
def uint64 : Scalar := ⟨8, 4⟩

/-- `struct MEMREF` -/
structure MemRef where
  pc : UInt32
  addr : UInt32
  ts : UInt64
  tid : UInt32
  /-- `// read: 1, write: 0` -/
  read : UInt32
deriving DecidableEq, Repr

/-- `struct LOCKREF` -/
structure LockRef where
  tid : UInt32
  ts : UInt64
  /-- callsite value -/
  callv : UInt32
  /-- entrypoint value -/
  entryv : UInt32
  /-- `// lock: 1, unlock: 0` -/
  lock : UInt32
deriving DecidableEq, Repr

/-- `struct SYNCREF` -/
structure SyncRef where
  tid : UInt32
  ts : UInt64
  /-- `// 1 Barrier, 2 CondWait, 3 CondiTimeWait, 4 Sleep` -/
  type : UInt32
deriving DecidableEq, Repr

def MemRef.members (r : MemRef) : List (Scalar × ℕ) :=
  [(uint32, r.pc.toNat), (uint32, r.addr.toNat), (uint64, r.ts.toNat), (uint32, r.tid.toNat),
    (uint32, r.read.toNat)]

def LockRef.members (r : LockRef) : List (Scalar × ℕ) :=
  [(uint32, r.tid.toNat), (uint64, r.ts.toNat), (uint32, r.callv.toNat), (uint32, r.entryv.toNat),
    (uint32, r.lock.toNat)]

def SyncRef.members (r : SyncRef) : List (Scalar × ℕ) :=
  [(uint32, r.tid.toNat), (uint64, r.ts.toNat), (uint32, r.type.toNat)]

def MemRef.bytes (r : MemRef) : List UInt8 := pack 0 r.members

def LockRef.bytes (r : LockRef) : List UInt8 := pack 0 r.members

def SyncRef.bytes (r : SyncRef) : List UInt8 := pack 0 r.members

/-- `fwrite(buf, sizeof(struct T), n, file)`: what is appended to the file. -/
def fwrite {α : Type} (bytes : α → List UInt8) (buf : List α) : List UInt8 := (buf.map bytes).flatten

theorem fwrite_append {α : Type} (bytes : α → List UInt8) (as bs : List α) :
    fwrite bytes (as ++ bs) = fwrite bytes as ++ fwrite bytes bs := by
  simp [fwrite]

@[simp] theorem MemRef.length_bytes (r : MemRef) : r.bytes.length = 24 := by
  simp [bytes, members, pack, padding, uint32, uint64]

@[simp] theorem LockRef.length_bytes (r : LockRef) : r.bytes.length = 24 := by
  simp [bytes, members, pack, padding, uint32, uint64]

@[simp] theorem SyncRef.length_bytes (r : SyncRef) : r.bytes.length = 16 := by
  simp [bytes, members, pack, padding, uint32, uint64]

/-- Every member is in the range of its scalar. -/
theorem MemRef.members_lt (r : MemRef) : ∀ m ∈ r.members, m.2 < 256 ^ m.1.size := by
  simp [members, uint32, uint64, r.pc.toNat_lt, r.addr.toNat_lt, r.ts.toNat_lt, r.tid.toNat_lt,
    r.read.toNat_lt]

theorem LockRef.members_lt (r : LockRef) : ∀ m ∈ r.members, m.2 < 256 ^ m.1.size := by
  simp [members, uint32, uint64, r.tid.toNat_lt, r.ts.toNat_lt, r.callv.toNat_lt, r.entryv.toNat_lt,
    r.lock.toNat_lt]

end AVPredictor
