import AVPredictor.Base.Records
import AVPredictor.Offline.LockTrace
import AVPredictor.Offline.MemTrace
import AVPredictor.Offline.SyncTrace

/-!
# AVPredictor.Offline.LogFormat — which files the three loaders take

No struct has padding, so every string of 24 (or 16) bytes is one record of the monitor
(`MemRef.exists_bytes` and its siblings) and no two records have the same bytes.  A loader therefore
takes exactly the files of whole records, and reads each as the one log that it is; any other file
ends the run with `struct.error` (`loaders_read`).  Nothing is left of the monitor's own values: a file
cut at a record boundary, or one with a mode flag that is neither 0 nor 1, is read like any other.
-/

namespace AVPredictor

open Base

/-! ## Records and their bytes -/

theorem SyncRef.members_lt (r : SyncRef) : ∀ m ∈ r.members, m.2 < 256 ^ m.1.size := by
  simp [members, uint32, uint64, r.tid.toNat_lt, r.ts.toNat_lt, r.type.toNat_lt]

theorem MemRef.bytes_injective : Function.Injective MemRef.bytes := by
  intro r r' h
  have hfmt : r.members.map Prod.fst = r'.members.map Prod.fst := rfl
  have hvalues := values_eq_of_pack_eq hfmt r.members_lt r'.members_lt h
  simp only [MemRef.members, List.map_cons, List.map_nil, List.cons.injEq, UInt32.toNat_inj,
    UInt64.toNat_inj] at hvalues
  obtain ⟨hpc, haddr, hts, htid, hread, -⟩ := hvalues
  cases r
  cases r'
  simp_all

theorem LockRef.bytes_injective : Function.Injective LockRef.bytes := by
  intro r r' h
  have hfmt : r.members.map Prod.fst = r'.members.map Prod.fst := rfl
  have hvalues := values_eq_of_pack_eq hfmt r.members_lt r'.members_lt h
  simp only [LockRef.members, List.map_cons, List.map_nil, List.cons.injEq, UInt32.toNat_inj,
    UInt64.toNat_inj] at hvalues
  obtain ⟨htid, hts, hcallv, hentryv, hlock, -⟩ := hvalues
  cases r
  cases r'
  simp_all

theorem SyncRef.bytes_injective : Function.Injective SyncRef.bytes := by
  intro r r' h
  have hfmt : r.members.map Prod.fst = r'.members.map Prod.fst := rfl
  have hvalues := values_eq_of_pack_eq hfmt r.members_lt r'.members_lt h
  simp only [SyncRef.members, List.map_cons, List.map_nil, List.cons.injEq, UInt32.toNat_inj,
    UInt64.toNat_inj] at hvalues
  obtain ⟨htid, hts, htype, -⟩ := hvalues
  cases r
  cases r'
  simp_all

section Exists

variable {bs : List UInt8}

theorem MemRef.exists_bytes (hbs : bs.length = 24) : ∃ r : MemRef, r.bytes = bs := by
  have hss : Unpadded 0 [uint32, uint32, uint64, uint32, uint32] := by decide
  obtain ⟨vs, hlen, hlt, hpack⟩ := exists_pack hss hbs
  match vs, hlen with
  | [pc, addr, ts, tid, read], _ =>
    simp only [List.zip_cons_cons, List.zip_nil_right, List.forall_mem_cons, uint32, uint64] at hlt
    obtain ⟨hpc, haddr, hts, htid, hread, -⟩ := hlt
    refine ⟨⟨.ofNat pc, .ofNat addr, .ofNat ts, .ofNat tid, .ofNat read⟩, ?_⟩
    rw [← hpack, MemRef.bytes, MemRef.members, UInt32.toNat_ofNat_of_lt' hpc, UInt32.toNat_ofNat_of_lt' haddr,
      UInt64.toNat_ofNat_of_lt' hts, UInt32.toNat_ofNat_of_lt' htid, UInt32.toNat_ofNat_of_lt' hread]
    rfl

theorem LockRef.exists_bytes (hbs : bs.length = 24) : ∃ r : LockRef, r.bytes = bs := by
  have hss : Unpadded 0 [uint32, uint64, uint32, uint32, uint32] := by decide
  obtain ⟨vs, hlen, hlt, hpack⟩ := exists_pack hss hbs
  match vs, hlen with
  | [tid, ts, callv, entryv, lock], _ =>
    simp only [List.zip_cons_cons, List.zip_nil_right, List.forall_mem_cons, uint32, uint64] at hlt
    obtain ⟨htid, hts, hcallv, hentryv, hlock, -⟩ := hlt
    refine ⟨⟨.ofNat tid, .ofNat ts, .ofNat callv, .ofNat entryv, .ofNat lock⟩, ?_⟩
    rw [← hpack, LockRef.bytes, LockRef.members, UInt32.toNat_ofNat_of_lt' htid, UInt64.toNat_ofNat_of_lt' hts,
      UInt32.toNat_ofNat_of_lt' hcallv, UInt32.toNat_ofNat_of_lt' hentryv, UInt32.toNat_ofNat_of_lt' hlock]
    rfl

theorem SyncRef.exists_bytes (hbs : bs.length = 16) : ∃ r : SyncRef, r.bytes = bs := by
  have hss : Unpadded 0 [uint32, uint64, uint32] := by decide
  obtain ⟨vs, hlen, hlt, hpack⟩ := exists_pack hss hbs
  match vs, hlen with
  | [tid, ts, type], _ =>
    simp only [List.zip_cons_cons, List.zip_nil_right, List.forall_mem_cons, uint32, uint64] at hlt
    obtain ⟨htid, hts, htype, -⟩ := hlt
    refine ⟨⟨.ofNat tid, .ofNat ts, .ofNat type⟩, ?_⟩
    rw [← hpack, SyncRef.bytes, SyncRef.members, UInt32.toNat_ofNat_of_lt' htid, UInt64.toNat_ofNat_of_lt' hts,
      UInt32.toNat_ofNat_of_lt' htype]
    rfl

end Exists

namespace Offline

/-! ## The loaders -/

/-- `load` reads a file of whole records as what is `stored` for its records, and takes no other file. -/
structure Reads {α β : Type} (load : List UInt8 → Except PyErr β) (size : ℕ) (bytes : α → List UInt8)
    (stored : List α → β) : Prop where
  /-- A file of whole records is the file of one log. -/
  log : ∀ file, size ∣ file.length → ∃! log, fwrite bytes log = file
  whole : ∀ log, load (fwrite bytes log) = .ok (stored log)
  broken : ∀ file, ¬ size ∣ file.length → load file = .error .structError

/-- The wrong number of bytes is a `struct.error`. -/
theorem unpack_eq_error {ss : List Scalar} (hss : Unpadded 0 ss)
    {line : List UInt8} (hline : line.length ≠ packedSize ss) :
    unpack ss line = .error .structError := by
  rw [unpack, unpackFrom_eq_none hss hline]

theorem loadMemTraces_reads :
    Reads loadMemTraces 24 MemRef.bytes (fun log => (log.map traceOf).foldl storeTrace ∅) := by
  refine ⟨fun file => existsUnique_records (by decide) MemRef.length_bytes MemRef.bytes_injective
    (fun bs => MemRef.exists_bytes), loadMemTraces_memFile, fun file => ?_⟩
  refine (foldlM_blocks (by decide) (fun mt line hline => ?_) (fun mt line hline => ?_) ∅ file).2
  · obtain ⟨r, rfl⟩ := MemRef.exists_bytes hline
    exact ⟨_, loadMemLine_bytes mt r⟩
  · rw [loadMemLine, unpack_eq_error (by decide) hline]
    rfl

theorem loadLockTraces_reads :
    Reads loadLockTraces 24 LockRef.bytes (fun log => (log.map lockOf).foldl storeLock []) := by
  refine ⟨fun file => existsUnique_records (by decide) LockRef.length_bytes LockRef.bytes_injective
    (fun bs => LockRef.exists_bytes), loadLockTraces_lockFile, fun file => ?_⟩
  refine (foldlM_blocks (by decide) (fun css line hline => ?_) (fun css line hline => ?_) [] file).2
  · obtain ⟨r, rfl⟩ := LockRef.exists_bytes hline
    exact ⟨_, loadLockLine_bytes css r⟩
  · rw [loadLockLine, unpack_eq_error (by decide) hline]
    rfl

theorem loadSyncTraces_reads : Reads loadSyncTraces 16 SyncRef.bytes (fun log => log.map syncRead) := by
  refine ⟨fun file => existsUnique_records (by decide) SyncRef.length_bytes SyncRef.bytes_injective
    (fun bs => SyncRef.exists_bytes), loadSyncTraces_fwrite, fun file => ?_⟩
  refine (appendAll_blocks (by decide) (fun line hline => ?_) (fun line hline => ?_) file).2
  · obtain ⟨r, rfl⟩ := SyncRef.exists_bytes hline
    exact ⟨_, by rw [loadSyncLine, unpack_syncRef]; rfl⟩
  · rw [loadSyncLine, unpack_eq_error (by decide) hline]
    rfl

/-- **The loaders read whole records, and only these.** -/
theorem loaders_read :
    Reads loadMemTraces 24 MemRef.bytes (fun log => (log.map traceOf).foldl storeTrace ∅) ∧
      Reads loadLockTraces 24 LockRef.bytes (fun log => (log.map lockOf).foldl storeLock []) ∧
      Reads loadSyncTraces 16 SyncRef.bytes (fun log => log.map syncRead) :=
  ⟨loadMemTraces_reads, loadLockTraces_reads, loadSyncTraces_reads⟩

end Offline
end AVPredictor
