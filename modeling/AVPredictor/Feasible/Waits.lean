import AVPredictor.Offline.Kept
import AVPredictor.Offline.LockSet
import AVPredictor.Offline.SyncTrace

/-!
# AVPredictor.Feasible.Waits — condition waits inside a section

`pthread_cond_wait` and `pthread_cond_timedwait` release their mutex while the thread waits and take
it again before they return.  The monitor logs the return, in the sync log, and neither the release
nor the taking; so a section of the lock log goes on over the wait.

The lock check of `pruner` reads the lock log only: it abandons a candidate when some mutex is
`Guarded` by that log (`lockFound_iff_guarded`).  `waited_pruning_iff`: of the candidates with a wait
between first and second and inter under the same mutex it spares those where the log does not close
a section, and those alone, though inter may run in the wait (`between_and_abandoned`).
-/

namespace AVPredictor
namespace Feasible

open Base Offline

/-- `CONDWAIT` -/
def condWait : ℕ := 2

/-- `CONDTIMEWAIT` -/
def condTimeWait : ℕ := 3

/-- An event of a run with condition waits. -/
inductive WEv where
  | access (x : Trace)
  /-- a lock or unlock, logged by `beforeThreadLock` or `beforeThreadUnLock` -/
  | lock (x : LockTrace)
  /-- the thread starts to wait and releases the mutex -/
  | wait (tid time mutex : ℕ)
  /-- the thread has taken the mutex again and the call returns, logged by `afterThreadCondWait` or
  `afterThreadCondTimedwait` -/
  | wake (tid time mutex type : ℕ)
deriving DecidableEq, Repr

namespace WEv

def tid : WEv → ℕ
  | access x => x.tid
  | lock x => x.tid
  | wait tid _ _ => tid
  | wake tid _ _ _ => tid

def time : WEv → ℕ
  | access x => x.time
  | lock x => x.time
  | wait _ time _ => time
  | wake _ time _ _ => time

/-- The mutex of an event that takes or releases one. -/
def mutex : WEv → ℕ
  | access _ => 0
  | lock x => x.entryV
  | wait _ _ mutex => mutex
  | wake _ _ mutex _ => mutex

/-- Thread `t` takes or releases mutex `m`. -/
def isRec (t m : ℕ) : WEv → Bool
  | access _ => false
  | e => e.tid = t ∧ e.mutex = m

/-- The mutex is taken. -/
def lk : WEv → Bool
  | access _ => false
  | lock x => isLock x
  | wait _ _ _ => false
  | wake _ _ _ _ => true

theorem key_of_isRec (t m : ℕ) (e : WEv) (h : isRec t m e = true) : t = e.tid ∧ m = e.mutex := by
  cases e with
  | access x => exact nomatch h
  | _ => exact ⟨(of_decide_eq_true h).1.symm, (of_decide_eq_true h).2.symm⟩

end WEv

/-- What the event adds to the lock log. -/
def WEv.lockRecord : WEv → Option LockTrace
  | .lock x => some x
  | _ => none

/-- What the event adds to the sync log. -/
def WEv.syncRecord : WEv → Option Sync
  | .wake tid time _ type => some ⟨tid, time, type⟩
  | _ => none

def locksOf (ρ : List WEv) : List LockTrace := ρ.filterMap WEv.lockRecord

def wakesOf (ρ : List WEv) : List Sync := ρ.filterMap WEv.syncRecord

/-- A thread that waits on a mutex does nothing until the call returns, and a call returns only then;
`waiting` is the mutex it waits on. -/
def Returns : Option ℕ → List WEv → Prop
  | _, [] => True
  | none, .access _ :: l => Returns none l
  | none, .lock _ :: l => Returns none l
  | none, .wait _ _ m :: l => Returns (some m) l
  | none, .wake _ _ _ _ :: _ => False
  | some m, .wake _ _ m' _ :: l => m' = m ∧ Returns none l
  | some _, _ :: _ => False

instance decidableReturns : ∀ (waiting : Option ℕ) (l : List WEv), Decidable (Returns waiting l)
  | none, [] => isTrue trivial
  | some _, [] => isTrue trivial
  | none, .access _ :: l => decidableReturns none l
  | none, .lock _ :: l => decidableReturns none l
  | none, .wait _ _ m :: l => decidableReturns (some m) l
  | none, .wake _ _ _ _ :: _ => isFalse id
  | some m, .wake _ _ m' _ :: l =>
    have := decidableReturns none l
    inferInstanceAs (Decidable (m' = m ∧ Returns none l))
  | some _, .access _ :: _ => isFalse id
  | some _, .lock _ :: _ => isFalse id
  | some _, .wait _ _ _ :: _ => isFalse id

/-- A recorded run: no mutex is held by two threads, a thread unlocks or waits on only what it holds,
and it does nothing while it waits. -/
structure WaitRun (ρ : List WEv) : Prop where
  order : TimeOrdered WEv.tid WEv.time ρ
  positive : ∀ e ∈ ρ, e.time ≠ 0
  safe : MutexSafe WEv.isRec WEv.lk ρ
  held : UnlocksHeld WEv.isRec WEv.lk ρ
  returns : ∀ e ∈ ρ, Returns none (ρ.filter (·.tid = e.tid))
  types : ∀ s ∈ wakesOf ρ, s.type = condWait ∨ s.type = condTimeWait

/-- The three logs of a run: the memory log has accesses of it, the others have each thread's records
in the thread's order. -/
structure Logs (ρ : List WEv) (memLog : List MemRef) (lockLog : List LockRef) (syncLog : List SyncRef) : Prop where
  mem : ∀ x ∈ memLog.map traceOf, WEv.access x ∈ ρ
  locks : KeepsOrder LockTrace.tid (locksOf ρ) (lockLog.map lockOf)
  syncs : KeepsOrder Sync.tid (wakesOf ρ) (syncLog.map syncOf)

/-- First and second are in one recorded section of `m`, their thread returns from a wait on `m`
between them, and inter's thread holds `m` at inter. -/
structure WaitedBetween (ρ : List WEv) (ci : CI) (m : ℕ) : Prop where
  one_section : HeldOver (locksOf ρ) ci.first.tid m ci.first.time ci.second.time
  wake : ∃ time type, WEv.wake ci.first.tid time m type ∈ ρ ∧ ci.first.time < time ∧ time < ci.second.time
  under : ∃ p q, ρ = p ++ .access ci.inter :: q ∧ Holds WEv.isRec WEv.lk p ci.inter.tid m

/-- By the lock log, first's thread holds `m` from first to second and unlocks it later, and inter's
thread holds it at inter and unlocks it later. -/
def Guarded (log : List LockTrace) (m : ℕ) (ci : CI) : Prop :=
  (HeldOver log ci.first.tid m ci.first.time ci.second.time ∧ UnlocksAfter log ci.first.tid m ci.second.time) ∧
    HeldOver log ci.inter.tid m ci.inter.time ci.inter.time ∧ UnlocksAfter log ci.inter.tid m ci.inter.time

section Waits

variable {log log' : List LockTrace} {ci : CI}

/-- **The lock check by the log**: it abandons exactly the candidates that some mutex guards. -/
theorem lockFound_iff_guarded (htimes : TimeOrdered LockTrace.tid LockTrace.time log)
    (htime : ci.first.time < ci.second.time) :
    lockFound (sections log) ci = true ↔ ∃ m, Guarded log m ci := by
  rw [lockFound_iff]
  constructor
  · rintro ⟨cs, hcs, ⟨⟨htid, hs, -⟩, -, hf⟩, cs2, hcs2, ⟨htid2, hs2, hf2⟩, hev⟩
    exact ⟨cs.lEv, (section_around_iff htimes htime.le).mp ⟨cs, hcs, htid, rfl, hs, hf⟩,
      (section_around_iff htimes le_rfl).mp ⟨cs2, hcs2, htid2, hev, hs2, hf2⟩⟩
  · rintro ⟨m, hfirst, hinter⟩
    obtain ⟨cs, hcs, htid, rfl, hs, hf⟩ := (section_around_iff htimes htime.le).mpr hfirst
    obtain ⟨cs2, hcs2, htid2, hev, hs2, hf2⟩ := (section_around_iff htimes le_rfl).mpr hinter
    exact ⟨cs, hcs, ⟨⟨htid, hs, by omega⟩, by omega, hf⟩, cs2, hcs2, ⟨htid2, hs2, hf2⟩, hev⟩

/-- Which records a log has, not their order, decides what it guards. -/
theorem guarded_congr (h : ∀ x, x ∈ log ↔ x ∈ log') (m : ℕ) : Guarded log m ci ↔ Guarded log' m ci := by
  simp only [Guarded, HeldOver, UnlocksAfter, h]

end Waits

section Run

variable {ρ : List WEv}

theorem lockRecord_eq_some {e : WEv} {x : LockTrace} : e.lockRecord = some x ↔ e = .lock x := by
  cases e <;> simp [WEv.lockRecord]

theorem mem_locksOf {x : LockTrace} : x ∈ locksOf ρ ↔ WEv.lock x ∈ ρ := by
  simp [locksOf, List.mem_filterMap, lockRecord_eq_some]

theorem WaitRun.timeOrdered_locksOf (h : WaitRun ρ) : TimeOrdered LockTrace.tid LockTrace.time (locksOf ρ) := by
  refine List.pairwise_filterMap.mpr (h.order.imp ?_)
  intro e e' hlt x hx y hy htid
  rw [lockRecord_eq_some] at hx hy
  subst hx hy
  exact hlt htid

/-- **When the lock check spares a candidate with a wait**: of first, second and inter under one mutex
with a return from a wait on it between first and second, exactly those candidates are not abandoned
where the mutex is not unlocked after second by first's thread, or not after inter by inter's, or
inter's thread has unlocked it between its last lock and inter (it holds a recursive mutex), and no
other mutex guards them. -/
theorem waited_pruning_iff {memLog : List MemRef} {lockLog : List LockRef} {syncLog : List SyncRef}
    {mt : MemTrace} {order : List ℕ} {cis : List CI} {css : List CS} {ci : CI} {m : ℕ} (hrun : WaitRun ρ)
    (hlogs : Logs ρ memLog lockLog syncLog) (hmem : loadMemTraces (memFile memLog) = .ok mt)
    (hpred : predictor order mt = .ok cis) (hlock : loadLockTraces (lockFile lockLog) = .ok css) (hci : ci ∈ cis)
    (hwait : WaitedBetween ρ ci m) :
    lockFound css ci = false ↔
      (¬ UnlocksAfter (locksOf ρ) ci.first.tid m ci.second.time ∨
        ¬ UnlocksAfter (locksOf ρ) ci.inter.tid m ci.inter.time ∨
        ¬ HeldOver (locksOf ρ) ci.inter.tid m ci.inter.time ci.inter.time) ∧
      ∀ n, n ≠ m → ¬ Guarded (locksOf ρ) n ci := by
  have htimes : TimeOrdered LockTrace.tid LockTrace.time (lockLog.map lockOf) :=
    hlogs.locks.timeOrdered hrun.timeOrdered_locksOf
  have hne : ∀ r ∈ lockLog, r.ts ≠ 0 := by
    intro r hr h0
    have hmem := mem_locksOf.mp (hlogs.locks.mem_iff.mp (List.mem_map_of_mem hr))
    exact hrun.positive _ hmem (by simp [WEv.time, lockOf, h0])
  rw [loadLockTraces_sections hne, Except.ok.injEq] at hlock
  subst hlock
  have hcand := candidate_of_predictor (memRep_of_load hmem) hpred hci
  rw [Bool.eq_false_iff, Ne, lockFound_iff_guarded htimes hcand.time, not_exists]
  have hcongr : ∀ n, Guarded (lockLog.map lockOf) n ci ↔ Guarded (locksOf ρ) n ci :=
    guarded_congr fun x => hlogs.locks.mem_iff
  -- the mutex of the wait guards the candidate unless one of the three is missing
  have hmine : ¬ Guarded (locksOf ρ) m ci ↔
      ¬ UnlocksAfter (locksOf ρ) ci.first.tid m ci.second.time ∨
        ¬ UnlocksAfter (locksOf ρ) ci.inter.tid m ci.inter.time ∨
        ¬ HeldOver (locksOf ρ) ci.inter.tid m ci.inter.time ci.inter.time := by
    have hone := hwait.one_section
    unfold Guarded
    tauto
  rw [← hmine]
  constructor
  · intro hnone
    exact ⟨fun hg => hnone m ((hcongr m).mpr hg), fun n _ hg => hnone n ((hcongr n).mpr hg)⟩
  · rintro ⟨hm, hothers⟩ n hg
    by_cases hn : n = m
    · subst hn
      exact hm ((hcongr n).mp hg)
    · exact hothers n hn ((hcongr n).mp hg)

end Run

/-- A consumer reads a word, waits until the time is out and reads it again, in one section; then a
producer writes it. -/
def consumerRun : List WEv :=
  [.lock ⟨1, 1, 100, 7, 1⟩, .access ⟨1, 2, 10, 64, 1⟩, .wait 1 3 7, .wake 1 4 7 condTimeWait,
    .access ⟨1, 5, 11, 64, 1⟩, .lock ⟨1, 6, 101, 7, 0⟩, .lock ⟨2, 7, 102, 7, 1⟩, .access ⟨2, 8, 12, 64, 0⟩,
    .lock ⟨2, 9, 103, 7, 0⟩]

/-- The same events with the producer's section in the wait. -/
def consumerSchedule : List WEv :=
  [.lock ⟨1, 1, 100, 7, 1⟩, .access ⟨1, 2, 10, 64, 1⟩, .wait 1 3 7, .lock ⟨2, 7, 102, 7, 1⟩,
    .access ⟨2, 8, 12, 64, 0⟩, .lock ⟨2, 9, 103, 7, 0⟩, .wake 1 4 7 condTimeWait, .access ⟨1, 5, 11, 64, 1⟩,
    .lock ⟨1, 6, 101, 7, 0⟩]

def consumerMem : List MemRef := [⟨10, 64, 2, 1, 1⟩, ⟨11, 64, 5, 1, 1⟩, ⟨12, 64, 8, 2, 0⟩]

def consumerLocks : List LockRef := [⟨1, 1, 100, 7, 1⟩, ⟨1, 6, 101, 7, 0⟩, ⟨2, 7, 102, 7, 1⟩, ⟨2, 9, 103, 7, 0⟩]

def consumerSyncs : List SyncRef := [⟨1, 4, 3⟩]

def consumerTrace : MemTrace := (consumerMem.map traceOf).foldl storeTrace ∅

def consumerCi : CI := ⟨⟨1, 2, 10, 64, 1⟩, ⟨1, 5, 11, 64, 1⟩, ⟨2, 8, 12, 64, 0⟩⟩

theorem waitRun_consumer : WaitRun consumerRun where
  order := by decide
  positive := by decide
  safe := (mutexSafe_iff WEv.key_of_isRec).mpr (by decide)
  held := (unlocksHeld_iff WEv.key_of_isRec).mpr (by decide)
  returns := by decide
  types := by decide

theorem waitRun_consumerSchedule : WaitRun consumerSchedule where
  order := by decide
  positive := by decide
  safe := (mutexSafe_iff WEv.key_of_isRec).mpr (by decide)
  held := (unlocksHeld_iff WEv.key_of_isRec).mpr (by decide)
  returns := by decide
  types := by decide

theorem keepsOrder_consumerSchedule : KeepsOrder WEv.tid consumerRun consumerSchedule := by
  intro t
  have hswap : KeepsOrder WEv.tid ((consumerRun.drop 3).take 3 ++ consumerRun.drop 6)
      (consumerRun.drop 6 ++ (consumerRun.drop 3).take 3) := keepsOrder_append_comm (by decide)
  show (consumerRun.take 3 ++ (consumerRun.drop 6 ++ (consumerRun.drop 3).take 3)).filter _ =
    (consumerRun.take 3 ++ ((consumerRun.drop 3).take 3 ++ consumerRun.drop 6)).filter _
  rw [List.filter_append, hswap t, ← List.filter_append]

theorem logs_consumer : Logs consumerRun consumerMem consumerLocks consumerSyncs where
  mem := by decide
  locks t := congrArg (List.filter _) (show consumerLocks.map lockOf = locksOf consumerRun by decide)
  syncs t := congrArg (List.filter _) (show consumerSyncs.map syncOf = wakesOf consumerRun by decide)

theorem waitedBetween_consumer : WaitedBetween consumerRun consumerCi 7 where
  one_section := by unfold HeldOver; decide
  wake := ⟨4, condTimeWait, by decide, by decide, by decide⟩
  under := ⟨consumerRun.take 7, consumerRun.drop 8, rfl, by decide⟩

theorem predictor_consumerMem : predictor [64] consumerTrace = .ok [consumerCi] := by decide

theorem waited_pruning_iff_consumer :
    lockFound (sections (consumerLocks.map lockOf)) consumerCi = false ↔
      (¬ UnlocksAfter (locksOf consumerRun) 1 7 5 ∨ ¬ UnlocksAfter (locksOf consumerRun) 2 7 8 ∨
        ¬ HeldOver (locksOf consumerRun) 2 7 8 8) ∧
      ∀ n, n ≠ 7 → ¬ Guarded (locksOf consumerRun) n consumerCi :=
  waited_pruning_iff waitRun_consumer logs_consumer (loadMemTraces_memFile consumerMem) predictor_consumerMem
    (loadLockTraces_sections (by decide)) (List.mem_singleton_self _) waitedBetween_consumer

/-- The candidate is abandoned, and there is a legal run of the same events, each thread's in the same
order, that has the producer's write between the two reads. -/
theorem between_and_abandoned :
    WaitRun consumerRun ∧ Logs consumerRun consumerMem consumerLocks consumerSyncs ∧
      loadMemTraces (memFile consumerMem) = .ok consumerTrace ∧ predictor [64] consumerTrace = .ok [consumerCi] ∧
      loadLockTraces (lockFile consumerLocks) = .ok (sections (consumerLocks.map lockOf)) ∧
      WaitedBetween consumerRun consumerCi 7 ∧ lockFound (sections (consumerLocks.map lockOf)) consumerCi = true ∧
      ∃ σ, WaitRun σ ∧ KeepsOrder WEv.tid consumerRun σ ∧
        List.Sublist [.access consumerCi.first, .access consumerCi.inter, .access consumerCi.second] σ := by
  refine ⟨waitRun_consumer, logs_consumer, loadMemTraces_memFile consumerMem, predictor_consumerMem,
    loadLockTraces_sections (by decide), waitedBetween_consumer, by decide, consumerSchedule,
    waitRun_consumerSchedule, keepsOrder_consumerSchedule, by decide⟩

end Feasible
end AVPredictor
