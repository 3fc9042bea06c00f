import AVPredictor.Base.Loops
import AVPredictor.Monitor.Callbacks
import AVPredictor.Offline.Data

/-!
# AVPredictor.Offline.SyncTrace — `load_sync_traces`

A `SYNCREF` is a 4-byte tid, an 8-byte time and a 4-byte type, in this order; the loader unpacks
`"@2IQ"`, two 4-byte fields and then an 8-byte one.  The sizes agree, the field boundaries do not:
`time` gets the low half of the timestamp, and `ty` gets its high half and the type above it
(`loadSyncTraces_fwrite`).
-/

namespace AVPredictor
namespace Offline

open Base

/-- `"@2IQ"` -/
def syncFormat : List Scalar := [uint32, uint32, uint64]

/-- The loop body: unpack `tid, time, ty` and append the record. -/
def loadSyncLine (line : List UInt8) : Except PyErr (List Sync) := do
  match ← unpack syncFormat line with
  | [tid, time, ty] => .ok [⟨tid, time, ty⟩]
  | _ => .error .structError

/-- `load_sync_traces` on the bytes of the file, from the empty `sync_list`. -/
def loadSyncTraces (file : List UInt8) : Except PyErr (List Sync) :=
  appendAll loadSyncLine (blocks 16 file)

/-- The record as the monitor stored it. -/
def syncOf (r : SyncRef) : Sync := ⟨r.tid.toNat, r.ts.toNat, r.type.toNat⟩

/-- The record as the loader reads it. -/
def syncRead (r : SyncRef) : Sync :=
  ⟨r.tid.toNat, r.ts.toNat % 2 ^ 32, r.ts.toNat / 2 ^ 32 + 2 ^ 32 * r.type.toNat⟩

/-- The bytes of a record cut at the loader's boundaries. -/
theorem bytes_syncRef (r : SyncRef) :
    r.bytes = leBytes 4 r.tid.toNat ++ (leBytes 4 r.ts.toNat ++
      ((leBytes 4 (r.ts.toNat / 2 ^ 32) ++ leBytes 4 r.type.toNat) ++ [])) := by
  have hts : leBytes 8 r.ts.toNat = leBytes 4 r.ts.toNat ++ leBytes 4 (r.ts.toNat / 2 ^ 32) :=
    leBytes_add 4 4 _
  have hpack : r.bytes = leBytes 4 r.tid.toNat ++ (leBytes 8 r.ts.toNat ++
      (leBytes 4 r.type.toNat ++ [])) := rfl
  rw [hpack, hts, List.append_assoc, List.append_assoc]

theorem unpack_syncRef (r : SyncRef) :
    unpack syncFormat r.bytes =
      .ok [r.tid.toNat, r.ts.toNat % 2 ^ 32, r.ts.toNat / 2 ^ 32 + 2 ^ 32 * r.type.toNat] := by
  have hread : unpackFrom 0 syncFormat r.bytes = some [leValue (leBytes 4 r.tid.toNat),
      leValue (leBytes 4 r.ts.toNat),
      leValue (leBytes 4 (r.ts.toNat / 2 ^ 32) ++ leBytes 4 r.type.toNat)] := by
    have h1 := fun rest => @unpackFrom_aligned 0 uint32 [uint32, uint64] (leBytes 4 r.tid.toNat) rest rfl
      (length_leBytes _ _)
    have h2 := fun rest => @unpackFrom_aligned 4 uint32 [uint64] (leBytes 4 r.ts.toNat) rest rfl
      (length_leBytes _ _)
    have h3 := fun rest => @unpackFrom_aligned 8 uint64 []
      (leBytes 4 (r.ts.toNat / 2 ^ 32) ++ leBytes 4 r.type.toNat) rest rfl (by simp [uint64])
    rw [bytes_syncRef, syncFormat, h1, show 0 + uint32.size = 4 from rfl, h2,
      show 4 + uint32.size = 8 from rfl, h3]
    rfl
  have htid : r.tid.toNat % 256 ^ 4 = r.tid.toNat := Nat.mod_eq_of_lt r.tid.toNat_lt
  have hhi : r.ts.toNat / 2 ^ 32 % 256 ^ 4 = r.ts.toNat / 2 ^ 32 := by
    have hts := r.ts.toNat_lt
    exact Nat.mod_eq_of_lt (by omega)
  have hty : r.type.toNat % 256 ^ 4 = r.type.toNat := Nat.mod_eq_of_lt r.type.toNat_lt
  rw [unpack, hread, leValue_append, leValue_leBytes, leValue_leBytes, leValue_leBytes,
    leValue_leBytes, length_leBytes, htid, hhi, hty]
  rfl

theorem loadSyncTraces_fwrite (recs : List SyncRef) :
    loadSyncTraces (fwrite SyncRef.bytes recs) = .ok (recs.map syncRead) := by
  have hb : blocks 16 (fwrite SyncRef.bytes recs) = recs.map SyncRef.bytes :=
    blocks_flatten (by decide) _ (by simp)
  have hline : ∀ r : SyncRef, loadSyncLine r.bytes = .ok [syncRead r] := fun r => by
    rw [loadSyncLine, unpack_syncRef]
    rfl
  rw [loadSyncTraces, hb]
  induction recs with
  | nil => rfl
  | cons r recs ih =>
    have hrest := ih (blocks_flatten (by decide) _ (by simp))
    exact appendAll_cons_eq_ok.mpr ⟨_, _, hline r, hrest, rfl⟩

/-- A record survives only with a 32-bit timestamp and type 0. -/
theorem syncRead_eq_iff (r : SyncRef) : syncRead r = syncOf r ↔ r.ts.toNat < 2 ^ 32 ∧ r.type = 0 := by
  have h0 : r.type = 0 ↔ r.type.toNat = 0 := by
    rw [← UInt32.toNat_inj]
    rfl
  rw [h0]
  simp only [syncRead, syncOf, Sync.mk.injEq, true_and]
  omega

/-- **The sync log does not survive the round trip**: `sync_list` is the list of records stored
exactly when every stored record has a timestamp below 2^32 and type 0. -/
theorem loadSyncTraces_finiSync_iff (s : Monitor.LogState) :
    loadSyncTraces s.finiSync = .ok (s.syncRefs.map syncOf) ↔
      ∀ r ∈ s.syncRefs, r.ts.toNat < 2 ^ 32 ∧ r.type = 0 := by
  rw [Monitor.LogState.finiSync, loadSyncTraces_fwrite, Except.ok.injEq, List.map_inj_left]
  exact forall₂_congr fun r _ => syncRead_eq_iff r

/-- The callbacks store the types 1 to 4 only, so only the empty log survives. -/
theorem loadSyncTraces_run_iff (cbs : List Monitor.Callback) :
    loadSyncTraces (Monitor.LogState.run cbs).finiSync =
        .ok ((Monitor.LogState.run cbs).syncRefs.map syncOf) ↔
      (Monitor.LogState.run cbs).syncRefs = [] := by
  rw [Monitor.LogState.finiSync, loadSyncTraces_fwrite, Except.ok.injEq, List.map_inj_left]
  constructor
  · intro h
    by_contra hne
    obtain ⟨r, hr⟩ := List.exists_mem_of_ne_nil _ hne
    have htype := (Monitor.type_of_syncRefs cbs hr).1
    have hzero := ((syncRead_eq_iff r).mp (h r hr)).2
    rw [hzero] at htype
    exact absurd htype (by decide)
  · intro hnil r hr
    rw [hnil] at hr
    exact absurd hr (by simp)

/-- One barrier return of thread 1 at time 5 is loaded with type 2^32. -/
theorem loadSyncTraces_barrier :
    loadSyncTraces (Monitor.LogState.init.afterThreadBarrier 1 5).finiSync ≠
      .ok ((Monitor.LogState.init.afterThreadBarrier 1 5).syncRefs.map syncOf) := by
  rw [Monitor.LogState.finiSync, loadSyncTraces_fwrite]
  decide

end Offline
end AVPredictor
