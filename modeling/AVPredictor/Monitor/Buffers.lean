import AVPredictor.Base.History
import AVPredictor.Base.Runs
import AVPredictor.Monitor.Callbacks

/-!
# AVPredictor.Monitor.Buffers — what the two event buffers hold

A store into `lockBuf` is guarded by `countLockRef`, the counter of that buffer, and `lockBuf` holds
the first `LOCKBUFSIZE` lock events whatever else happens (`lockRefs_run`).  The stores into
`syncBuf` are guarded by `countLockRef` as well: a sync event is stored exactly when fewer than
`SYNCBUFSIZE` lock events came before it.  So `syncBuf` overflows when there are few lock events and
loses events when there are many; `buffersOk_iff` says exactly when it does neither.

What a store out of range overwrites depends on how the two arrays lie in memory.  `runInBounds` is the run
without such a store: a callback that makes one has no result.
-/

namespace AVPredictor
namespace Monitor

open Base

/-! ## Events and stores -/

/-- The record of a lock or unlock event. -/
def Callback.lockRef : Callback → Option LockRef
  | .beforeThreadLock tid ts c e => some ⟨tid, ts, c, e, 1⟩
  | .beforeThreadUnLock tid ts c e => some ⟨tid, ts, c, e, 0⟩
  | _ => none

/-- The record of a synchronisation event. -/
def Callback.syncRef : Callback → Option SyncRef
  | .afterThreadBarrier tid ts => some ⟨tid, ts, 1⟩
  | .afterThreadCondWait tid ts => some ⟨tid, ts, 2⟩
  | .afterThreadCondTimedwait tid ts => some ⟨tid, ts, 3⟩
  | .afterThreadSleep tid ts => some ⟨tid, ts, 4⟩
  | _ => none

/-- The lock and unlock events of a run, in order. -/
def lockEvents (cbs : List Callback) : List LockRef := cbs.filterMap Callback.lockRef

/-- The synchronisation events of a run, in order. -/
def syncEvents (cbs : List Callback) : List SyncRef := cbs.filterMap Callback.syncRef

/-- A store into one of the two arrays, at an index. -/
inductive Store where
  | lockBuf (i : ℕ)
  | syncBuf (i : ℕ)
deriving DecidableEq, Repr

/-- The store that a callback makes, if any. -/
def LogState.store (s : LogState) : Callback → Option Store
  | .beforeThreadLock _ _ _ _ | .beforeThreadUnLock _ _ _ _ =>
    if s.countLockRef.toNat < lockBufSize then some (.lockBuf s.countLockRef.toNat) else none
  | .afterThreadBarrier _ _ | .afterThreadCondWait _ _ | .afterThreadCondTimedwait _ _
  | .afterThreadSleep _ _ =>
    if s.countLockRef.toNat < syncBufSize then some (.syncBuf s.countSyncRef.toNat) else none

/-- The buffers of a run are right: no store is out of range, and each buffer holds the events of its
own kind, up to its own size. -/
structure BuffersOk (cbs : List Callback) : Prop where
  lockIndex : Always (fun pre cb => ∀ i, (LogState.run pre).store cb = some (.lockBuf i) → i < lockBufSize) cbs
  syncIndex : Always (fun pre cb => ∀ i, (LogState.run pre).store cb = some (.syncBuf i) → i < syncBufSize) cbs
  lockRefs : (LogState.run cbs).lockRefs = (lockEvents cbs).take lockBufSize
  syncRefs : (LogState.run cbs).syncRefs = (syncEvents cbs).take syncBufSize

/-- At every synchronisation event there is room for it by the count of lock events exactly when
there is room for it by the count of synchronisation events. -/
def InStep (cbs : List Callback) : Prop :=
  Always (fun pre cb => cb.syncRef ≠ none →
    ((lockEvents pre).length < syncBufSize ↔ (syncEvents pre).length < syncBufSize)) cbs

section Buffers

variable {s : LogState} {cb : Callback} {cbs pre post : List Callback}

/-! ## One callback -/

theorem step_lock {r : LockRef} (h : cb.lockRef = some r) :
    s.step cb = if s.countLockRef.toNat < lockBufSize then
      { s with
        lockBuf := Function.update s.lockBuf s.countLockRef.toNat r
        countLockRef := s.countLockRef + 1 } else s := by
  cases cb with
  | beforeThreadLock tid ts c e =>
    obtain rfl := Option.some.inj h
    rfl
  | beforeThreadUnLock tid ts c e =>
    obtain rfl := Option.some.inj h
    rfl
  | afterThreadBarrier tid ts => exact nomatch h
  | afterThreadCondWait tid ts => exact nomatch h
  | afterThreadCondTimedwait tid ts => exact nomatch h
  | afterThreadSleep tid ts => exact nomatch h

theorem step_sync {r : SyncRef} (h : cb.syncRef = some r) :
    s.step cb = if s.countLockRef.toNat < syncBufSize then
      { s with
        syncBuf := Function.update s.syncBuf s.countSyncRef.toNat r
        countSyncRef := s.countSyncRef + 1 } else s := by
  cases cb with
  | beforeThreadLock tid ts c e => exact nomatch h
  | beforeThreadUnLock tid ts c e => exact nomatch h
  | afterThreadBarrier tid ts =>
    obtain rfl := Option.some.inj h
    rfl
  | afterThreadCondWait tid ts =>
    obtain rfl := Option.some.inj h
    rfl
  | afterThreadCondTimedwait tid ts =>
    obtain rfl := Option.some.inj h
    rfl
  | afterThreadSleep tid ts =>
    obtain rfl := Option.some.inj h
    rfl

theorem store_lock {r : LockRef} (h : cb.lockRef = some r) :
    s.store cb =
      if s.countLockRef.toNat < lockBufSize then some (.lockBuf s.countLockRef.toNat) else none := by
  cases cb <;> first | rfl | exact nomatch h

theorem store_sync {r : SyncRef} (h : cb.syncRef = some r) :
    s.store cb =
      if s.countLockRef.toNat < syncBufSize then some (.syncBuf s.countSyncRef.toNat) else none := by
  cases cb <;> first | rfl | exact nomatch h

/-- A callback is of one of the two kinds. -/
theorem lock_or_sync (cb : Callback) :
    (∃ r, cb.lockRef = some r ∧ cb.syncRef = none) ∨ (∃ r, cb.syncRef = some r ∧ cb.lockRef = none) := by
  cases cb with
  | beforeThreadLock tid ts c e => exact Or.inl ⟨_, rfl, rfl⟩
  | beforeThreadUnLock tid ts c e => exact Or.inl ⟨_, rfl, rfl⟩
  | afterThreadBarrier tid ts => exact Or.inr ⟨_, rfl, rfl⟩
  | afterThreadCondWait tid ts => exact Or.inr ⟨_, rfl, rfl⟩
  | afterThreadCondTimedwait tid ts => exact Or.inr ⟨_, rfl, rfl⟩
  | afterThreadSleep tid ts => exact Or.inr ⟨_, rfl, rfl⟩

/-- A callback changes the arrays at most where it stores. -/
theorem step_of_store (s : LogState) (cb : Callback) :
    (∀ i, (s.step cb).lockBuf i ≠ s.lockBuf i → s.store cb = some (.lockBuf i)) ∧
      (∀ i, (s.step cb).syncBuf i ≠ s.syncBuf i → s.store cb = some (.syncBuf i)) := by
  rcases lock_or_sync cb with ⟨r, h, -⟩ | ⟨r, h, -⟩
  · rw [step_lock h, store_lock h]
    split_ifs
    · refine ⟨?_, fun i hi => absurd rfl hi⟩
      intro i hi
      by_cases hne : i = s.countLockRef.toNat
      · rw [hne]
      · exact absurd (Function.update_of_ne hne _ _) hi
    · exact ⟨fun i hi => absurd rfl hi, fun i hi => absurd rfl hi⟩
  · rw [step_sync h, store_sync h]
    split_ifs
    · refine ⟨fun i hi => absurd rfl hi, ?_⟩
      intro i hi
      by_cases hne : i = s.countSyncRef.toNat
      · rw [hne]
      · exact absurd (Function.update_of_ne hne _ _) hi
    · exact ⟨fun i hi => absurd rfl hi, fun i hi => absurd rfl hi⟩

theorem map_range_update {α : Type} (f : ℕ → α) (n : ℕ) (a : α) :
    (List.range (n + 1)).map (Function.update f n a) = (List.range n).map f ++ [a] := by
  rw [List.range_succ, List.map_append, List.map_singleton, Function.update_self]
  refine congrArg (· ++ [a]) (List.map_congr_left ?_)
  intro i hi
  have hlt := List.mem_range.mp hi
  exact Function.update_of_ne (by omega) _ _

theorem take_concat {α : Type} (l : List α) (a : α) (n : ℕ) :
    (l ++ [a]).take n = if l.length < n then l.take n ++ [a] else l.take n := by
  split_ifs with h
  · rw [List.take_of_length_le (by rw [List.length_append, List.length_singleton]; omega),
      List.take_of_length_le (by omega)]
  · exact List.take_append_of_le_length (by omega)

theorem toNat_succ {c : UInt32} {n : ℕ} (h : c.toNat < n) (hn : n < 2 ^ 32) :
    (c + 1).toNat = c.toNat + 1 := by
  rw [UInt32.toNat_add]
  have hone : (1 : UInt32).toNat = 1 := rfl
  omega

theorem run_concat (cbs : List Callback) (cb : Callback) :
    LogState.run (cbs ++ [cb]) = (LogState.run cbs).step cb := List.foldl_concat _ _ _ _

theorem lockEvents_concat_some {r : LockRef} (h : cb.lockRef = some r) :
    lockEvents (cbs ++ [cb]) = lockEvents cbs ++ [r] := by
  simp [lockEvents, h]

theorem lockEvents_concat_none (h : cb.lockRef = none) : lockEvents (cbs ++ [cb]) = lockEvents cbs := by
  simp [lockEvents, h]

theorem syncEvents_concat_some {r : SyncRef} (h : cb.syncRef = some r) :
    syncEvents (cbs ++ [cb]) = syncEvents cbs ++ [r] := by
  simp [syncEvents, h]

theorem syncEvents_concat_none (h : cb.syncRef = none) : syncEvents (cbs ++ [cb]) = syncEvents cbs := by
  simp [syncEvents, h]

/-! ## The lock buffer -/

theorem length_lockRefs {n : ℕ} {l : List LockRef} (h : s.lockRefs = l.take n) :
    s.countLockRef.toNat = min n l.length := by
  have hlen := congrArg List.length h
  rwa [LogState.lockRefs, List.length_map, List.length_range, List.length_take] at hlen

theorem length_syncRefs {n : ℕ} {l : List SyncRef} (h : s.syncRefs = l.take n) :
    s.countSyncRef.toNat = min n l.length := by
  have hlen := congrArg List.length h
  rwa [LogState.syncRefs, List.length_map, List.length_range, List.length_take] at hlen

/-- **The lock buffer holds the first lock events**, in every run. -/
theorem lockRefs_run (cbs : List Callback) :
    (LogState.run cbs).lockRefs = (lockEvents cbs).take lockBufSize := by
  induction cbs using List.reverseRecOn with
  | nil => rfl
  | append_singleton cbs cb ih =>
    have hcount := length_lockRefs ih
    rw [run_concat]
    rcases lock_or_sync cb with ⟨r, h, -⟩ | ⟨r, h, hnone⟩
    · rw [step_lock h, lockEvents_concat_some h, take_concat]
      by_cases hroom : (lockEvents cbs).length < lockBufSize
      · have hlt : (LogState.run cbs).countLockRef.toNat < lockBufSize := by omega
        rw [if_pos hlt, if_pos hroom, ← ih]
        show (List.range ((LogState.run cbs).countLockRef + 1).toNat).map _ = _
        rw [toNat_succ hlt (by decide), map_range_update]
        rfl
      · rw [if_neg (by omega), if_neg hroom, ih]
    · rw [step_sync h, lockEvents_concat_none hnone]
      split_ifs
      · exact ih
      · exact ih

/-- `countLockRef` tells whether fewer than `SYNCBUFSIZE` lock events came before. -/
theorem countLockRef_lt_iff (cbs : List Callback) :
    (LogState.run cbs).countLockRef.toNat < syncBufSize ↔ (lockEvents cbs).length < syncBufSize := by
  have hcount := length_lockRefs (lockRefs_run cbs)
  have hsize : lockBufSize = syncBufSize := rfl
  omega

/-! ## The synchronisation buffer -/

/-- A callback in step keeps the synchronisation buffer right. -/
theorem syncRefs_concat (h : (LogState.run cbs).syncRefs = (syncEvents cbs).take syncBufSize)
    (hstep : cb.syncRef ≠ none →
      ((lockEvents cbs).length < syncBufSize ↔ (syncEvents cbs).length < syncBufSize)) :
    (LogState.run (cbs ++ [cb])).syncRefs = (syncEvents (cbs ++ [cb])).take syncBufSize := by
  have hcount := length_syncRefs h
  have hlock := countLockRef_lt_iff cbs
  rw [run_concat]
  rcases lock_or_sync cb with ⟨r, hr, hnone⟩ | ⟨r, hr, -⟩
  · rw [step_lock hr, syncEvents_concat_none hnone]
    split_ifs
    · exact h
    · exact h
  · have hiff := hstep (by simp [hr])
    rw [step_sync hr, syncEvents_concat_some hr, take_concat]
    by_cases hroom : (syncEvents cbs).length < syncBufSize
    · have hlt : (LogState.run cbs).countSyncRef.toNat < syncBufSize := by omega
      rw [if_pos (hlock.mpr (hiff.mpr hroom)), if_pos hroom, ← h]
      show (List.range ((LogState.run cbs).countSyncRef + 1).toNat).map _ = _
      rw [toNat_succ hlt (by decide), map_range_update]
      rfl
    · rw [if_neg (fun hl => hroom (hiff.mp (hlock.mp hl))), if_neg hroom, h]

theorem syncRefs_of_inStep (h : InStep cbs) :
    (LogState.run cbs).syncRefs = (syncEvents cbs).take syncBufSize :=
  h.induction (P := fun cbs => (LogState.run cbs).syncRefs = (syncEvents cbs).take syncBufSize) rfl
    fun _ _ _ ih hlast => syncRefs_concat ih hlast

/-- After `SYNCBUFSIZE` lock events no synchronisation event is stored. -/
theorem syncRefs_full (hfull : syncBufSize ≤ (lockEvents pre).length) (post : List Callback) :
    (LogState.run (pre ++ post)).syncRefs = (LogState.run pre).syncRefs := by
  induction post using List.reverseRecOn with
  | nil => rw [List.append_nil]
  | append_singleton post cb ih =>
    have hlen : (lockEvents pre).length ≤ (lockEvents (pre ++ post)).length := by
      rw [lockEvents, lockEvents, List.filterMap_append, List.length_append]
      omega
    have hlock := countLockRef_lt_iff (pre ++ post)
    rw [← List.append_assoc, run_concat, ← ih]
    rcases lock_or_sync cb with ⟨r, hr, -⟩ | ⟨r, hr, -⟩
    · rw [step_lock hr]
      split_ifs
      · rfl
      · rfl
    · rw [step_sync hr, if_neg (by omega)]

theorem store_syncBuf {i : ℕ} (h : s.store cb = some (.syncBuf i)) :
    cb.syncRef ≠ none ∧ s.countLockRef.toNat < syncBufSize ∧ i = s.countSyncRef.toNat := by
  rcases lock_or_sync cb with ⟨r, hr, -⟩ | ⟨r, hr, -⟩
  · rw [store_lock hr] at h
    split_ifs at h
    exact nomatch Option.some.inj h
  · rw [store_sync hr] at h
    split_ifs at h with hlt
    exact ⟨by simp [hr], hlt, (Store.syncBuf.inj (Option.some.inj h)).symm⟩

theorem store_lockBuf {i : ℕ} (h : s.store cb = some (.lockBuf i)) : i < lockBufSize := by
  rcases lock_or_sync cb with ⟨r, hr, -⟩ | ⟨r, hr, -⟩
  · rw [store_lock hr] at h
    split_ifs at h with hlt
    exact Store.lockBuf.inj (Option.some.inj h) ▸ hlt
  · rw [store_sync hr] at h
    split_ifs at h
    exact nomatch Option.some.inj h

theorem buffersOk_of_inStep (h : InStep cbs) : BuffersOk cbs := by
  refine ⟨fun pre cb post _ i hstore => store_lockBuf hstore, ?_, lockRefs_run cbs, syncRefs_of_inStep h⟩
  rintro pre cb post rfl i hstore
  obtain ⟨hsync, hlt, rfl⟩ := store_syncBuf hstore
  have hpre : InStep pre := h.prefix
  have hcount := length_syncRefs (syncRefs_of_inStep hpre)
  have hroom := (h pre cb post rfl hsync).mp ((countLockRef_lt_iff pre).mp hlt)
  omega

/-- A synchronisation event that is out of step overflows the buffer or is lost for good. -/
theorem inStep_last (h : BuffersOk (pre ++ cb :: post)) (hpre : InStep pre) (hsync : cb.syncRef ≠ none) :
    (lockEvents pre).length < syncBufSize ↔ (syncEvents pre).length < syncBufSize := by
  obtain ⟨r, hr⟩ := Option.ne_none_iff_exists'.mp hsync
  have hrefs := syncRefs_of_inStep hpre
  have hcount := length_syncRefs hrefs
  constructor
  · intro hlt
    have hstore : (LogState.run pre).store cb = some (.syncBuf (LogState.run pre).countSyncRef.toNat) := by
      rw [store_sync hr, if_pos ((countLockRef_lt_iff pre).mpr hlt)]
    have hindex := h.syncIndex pre cb post rfl _ hstore
    omega
  · intro hlt
    by_contra hfull
    have hend := h.syncRefs
    rw [syncRefs_full (by omega), hrefs] at hend
    have hlen := congrArg List.length hend
    have hmore : (syncEvents (pre ++ cb :: post)).length =
        (syncEvents pre).length + 1 + (syncEvents post).length := by
      simp [syncEvents, hr]
      omega
    rw [List.length_take, List.length_take, hmore] at hlen
    omega

/-- If the buffers are right in the end, every synchronisation event was in step. -/
theorem inStep_of_buffersOk (h : BuffersOk cbs) : InStep cbs := by
  have hprefix : ∀ pre post, cbs = pre ++ post → InStep pre := by
    intro pre
    induction pre using List.reverseRecOn with
    | nil => exact fun _ _ => always_nil
    | append_singleton pre cb ih =>
      intro post heq
      have heq' : cbs = pre ++ cb :: post := by
        rw [heq]
        simp
      have hpre := ih (cb :: post) heq'
      rw [heq'] at h
      exact always_concat.mpr ⟨hpre, inStep_last h hpre⟩
  exact hprefix cbs [] (List.append_nil cbs).symm

/-- **When the buffers are right**: no store is out of range and each buffer holds the first events of
its kind, as many as fit, exactly when at every synchronisation event the two counts agree on whether
there is room. -/
theorem buffersOk_iff (cbs : List Callback) : BuffersOk cbs ↔ InStep cbs :=
  ⟨inStep_of_buffersOk, buffersOk_of_inStep⟩

end Buffers

/-- `n` calls of `sleep`, and nothing else. -/
def sleeps (n : ℕ) : List Callback := List.replicate n (.afterThreadSleep 1 0)

theorem lockEvents_sleeps (n : ℕ) : lockEvents (sleeps n) = [] :=
  List.filterMap_replicate_of_none rfl

theorem length_syncEvents_sleeps (n : ℕ) : (syncEvents (sleeps n)).length = n := by
  have hone : Callback.syncRef (.afterThreadSleep 1 0) = some ⟨1, 0, 4⟩ := rfl
  rw [syncEvents, sleeps, List.filterMap_replicate_of_some hone, List.length_replicate]

theorem inStep_sleeps {n : ℕ} (h : n ≤ syncBufSize) : InStep (sleeps n) := by
  induction n with
  | zero => exact always_nil
  | succ n ih =>
    rw [sleeps, List.replicate_succ', ← sleeps]
    refine always_concat.mpr ⟨ih (by omega), fun _ => ?_⟩
    rw [lockEvents_sleeps, length_syncEvents_sleeps, List.length_nil]
    omega

/-- 100001 sleeps and no lock event: the last record is stored behind the end of `syncBuf`. -/
theorem sleeps_overflow :
    (LogState.run (sleeps syncBufSize)).store (.afterThreadSleep 1 0) = some (.syncBuf syncBufSize) ∧
      ¬ BuffersOk (sleeps (syncBufSize + 1)) := by
  have hcount := length_syncRefs (syncRefs_of_inStep (inStep_sleeps (Nat.le_refl syncBufSize)))
  have hlock := countLockRef_lt_iff (sleeps syncBufSize)
  rw [lockEvents_sleeps, List.length_nil] at hlock
  rw [length_syncEvents_sleeps, Nat.min_self] at hcount
  have hstore : (LogState.run (sleeps syncBufSize)).store (.afterThreadSleep 1 0) =
      some (.syncBuf syncBufSize) := by
    have hr : Callback.syncRef (.afterThreadSleep 1 0) = some ⟨1, 0, 4⟩ := rfl
    rw [store_sync hr, if_pos (hlock.mpr (by decide)), hcount]
  refine ⟨hstore, ?_⟩
  intro h
  have hlast : sleeps (syncBufSize + 1) = sleeps syncBufSize ++ [.afterThreadSleep 1 0] :=
    List.replicate_succ'
  exact absurd (h.syncIndex _ _ [] hlast _ hstore) (Nat.lt_irrefl _)

end Monitor
end AVPredictor
