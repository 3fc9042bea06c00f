import AVPredictor.Base.Mutex
import AVPredictor.Base.Reorder
import AVPredictor.Offline.Kept

/-!
# AVPredictor.Feasible.Locks — lock pruning never hides a feasible violation

A schedule of a run is any order of its accesses, locks and unlocks that keeps each thread's own
order and in which no mutex is held by two threads at once.  `lockFound` abandons a candidate when,
by the recorded times, first and second lie in one section of a mutex and inter in a section of the
same mutex by another thread.  In every schedule the first section still spans first and second and
the other still spans inter (`holds_in_section`), so if inter came between first and second both
threads would hold the mutex (`not_between_of_lockFound`).
-/

namespace AVPredictor
namespace Feasible

open Base Offline

/-- An event of a run: an access, or a lock or unlock. -/
inductive Ev where
  | access (x : Trace)
  | lock (x : LockTrace)
deriving DecidableEq, Repr

def Ev.tid : Ev → ℕ
  | .access x => x.tid
  | .lock x => x.tid

def Ev.time : Ev → ℕ
  | .access x => x.time
  | .lock x => x.time

/-- The mutex of a lock or unlock. -/
def Ev.mutex : Ev → ℕ
  | .access _ => 0
  | .lock x => x.entryV

/-- A lock or unlock of mutex `m` by thread `t`. -/
def Ev.isRec (t m : ℕ) : Ev → Bool
  | .access _ => false
  | .lock x => x.tid = t ∧ x.entryV = m

/-- A lock. -/
def Ev.lk : Ev → Bool
  | .access _ => false
  | .lock x => x.op = opLock

theorem Ev.key_of_isRec (t m : ℕ) (e : Ev) (h : e.isRec t m = true) : t = e.tid ∧ m = e.mutex := by
  cases e with
  | access x => exact nomatch h
  | lock x =>
    obtain ⟨rfl, rfl⟩ : x.tid = t ∧ x.entryV = m := by simpa [Ev.isRec] using h
    exact ⟨rfl, rfl⟩

/-- The records of one thread for one mutex, in log order. -/
def ofMutex (locks : List LockTrace) (t m : ℕ) : List LockTrace :=
  locks.filter fun x => x.tid = t ∧ x.entryV = m

/-- The two logs of a run: times are nonzero and strictly increase within each thread over both logs
together, and each thread's records for each mutex alternate lock, unlock. -/
structure RunLogs (mem : List Trace) (locks : List LockTrace) : Prop where
  mem_time : TimeOrdered Trace.tid Trace.time mem
  lock_time : TimeOrdered LockTrace.tid LockTrace.time locks
  distinct : ∀ x ∈ mem, ∀ y ∈ locks, x.tid = y.tid → x.time ≠ y.time
  mem_pos : ∀ x ∈ mem, x.time ≠ 0
  lock_pos : ∀ y ∈ locks, y.time ≠ 0
  alternates : ∀ t m, Alternates (fun x : LockTrace => x.op = opLock) (ofMutex locks t m)

/-- A schedule of the run: all its events, each thread's own order kept, every mutex held by one
thread at most. -/
structure Schedule (mem : List Trace) (locks : List LockTrace) (σ : List Ev) : Prop where
  perm : σ.Perm (mem.map Ev.access ++ locks.map Ev.lock)
  order : TimeOrdered Ev.tid Ev.time σ
  safe : MutexSafe Ev.isRec Ev.lk σ

/-- Inter is executed between first and second. -/
def Between (σ : List Ev) (ci : CI) : Prop :=
  List.Sublist [.access ci.first, .access ci.inter, .access ci.second] σ

section Schedule

variable {mem : List Trace} {locks : List LockTrace} {σ : List Ev}

theorem Schedule.lock_mem (h : Schedule mem locks σ) {x : LockTrace} (hx : x ∈ locks) :
    Ev.lock x ∈ σ := by
  rw [h.perm.mem_iff]
  exact List.mem_append_right _ (List.mem_map_of_mem hx)

/-- A schedule has a thread's records for a mutex in log order. -/
theorem Schedule.filter_rec (h : Schedule mem locks σ)
    (hlock : TimeOrdered LockTrace.tid LockTrace.time locks) (t m : ℕ) :
    σ.filter (Ev.isRec t m) = (ofMutex locks t m).map Ev.lock := by
  have htid : ∀ e, Ev.isRec t m e → Ev.tid e = t := fun e he => (Ev.key_of_isRec t m e he).1.symm
  have hsorted : ((ofMutex locks t m).map Ev.lock).Pairwise (Ev.time · < Ev.time ·) := by
    rw [List.pairwise_map, ofMutex, List.pairwise_filter]
    refine hlock.imp fun hab ha hb => hab ?_
    simp only [decide_eq_true_eq] at ha hb
    rw [ha.1, hb.1]
  have hnone : (mem.map Ev.access).filter (Ev.isRec t m) = [] := by
    refine List.filter_eq_nil_iff.mpr fun e he => ?_
    obtain ⟨x, -, rfl⟩ := List.mem_map.mp he
    simp [Ev.isRec]
  have hlocks : (locks.map Ev.lock).filter (Ev.isRec t m) = (ofMutex locks t m).map Ev.lock := by
    rw [List.filter_map, ofMutex]
    rfl
  refine h.order.filter_eq htid hsorted ?_
  have hperm := h.perm.filter (Ev.isRec t m)
  rwa [List.filter_append, hnone, hlocks, List.nil_append] at hperm

theorem alternates_map {l : List LockTrace} (h : Alternates (fun x : LockTrace => x.op = opLock) l) :
    Alternates Ev.lk (l.map Ev.lock) := by
  match l, h with
  | [], _ => exact trivial
  | [a], h => exact h
  | a :: b :: l, h => exact ⟨h.1, h.2.1, alternates_map h.2.2⟩

/-- **A section in a schedule.**  Cut a schedule at a point after an access of the section's thread
that follows the lock, where no event of the thread has reached the unlock's time: there the thread
holds the section's mutex. -/
theorem holds_in_section (hrun : RunLogs mem locks) {p q : List Ev} (hσ : Schedule mem locks (p ++ q))
    {cs : CS} (hcs : cs ∈ sections locks) {x : Trace} (hx : Ev.access x ∈ p) (hxt : x.tid = cs.tid)
    (hxs : cs.stime < x.time) (hxf : x.time < cs.ftime)
    (hp : ∀ e ∈ p, e.tid = cs.tid → e.time < cs.ftime) : Holds Ev.isRec Ev.lk p cs.tid cs.lEv := by
  obtain ⟨l₁, r, l₂, u, l₃, hl, hr, hu, hno, hrt, hre, hrs, huf, -, -⟩ :=
    mem_sections_closed hcs (by omega)
  obtain ⟨huop, hut, hue⟩ : u.op ≠ opLock ∧ u.tid = cs.tid ∧ u.entryV = cs.lEv := by
    simpa [unlocks] using hu
  have hrmem : Ev.lock r ∈ p ++ q := hσ.lock_mem (by simp [hl])
  have hnodup := List.nodup_append.mp hσ.order.nodup
  -- the lock precedes `x`, and the unlock is not reached
  have hrp : Ev.lock r ∈ p := hσ.order.mem_left hrmem hx (hrt.trans hxt.symm) (by
    show r.time < x.time
    omega)
  have hup : Ev.lock u ∉ p := by
    intro hu
    have hlt : u.time < cs.ftime := hp _ hu hut
    omega
  have hsel : (p ++ q).filter (Ev.isRec cs.tid cs.lEv) =
      (ofMutex l₁ cs.tid cs.lEv).map Ev.lock ++ Ev.lock r ::
        ((ofMutex l₂ cs.tid cs.lEv).map Ev.lock ++ Ev.lock u ::
          (ofMutex l₃ cs.tid cs.lEv).map Ev.lock) := by
    rw [hσ.filter_rec hrun.lock_time, hl]
    simp [ofMutex, hrt, hre, hut, hue]
  refine holds_between ?_ hsel (by simp [Ev.lk, hr]) ?_ ?_ ?_
  · rw [hσ.filter_rec hrun.lock_time]
    exact alternates_map (hrun.alternates _ _)
  · intro e he
    obtain ⟨z, hz, rfl⟩ := List.mem_map.mp he
    obtain ⟨hz, hzm⟩ := List.mem_filter.mp hz
    simp only [decide_eq_true_eq] at hzm
    have hzu := hno z hz
    simp only [unlocks, decide_eq_true_eq, not_and] at hzu
    by_contra hc
    exact hzu (by simpa [Ev.lk] using hc) hzm.1 hzm.2
  · exact fun h => hnodup.2.2 _ hrp _ h rfl
  · exact hup

end Schedule

/-- An abandoned candidate cannot be scheduled with inter between first and second. -/
theorem not_between_of_lockFound {mem : List Trace} {locks : List LockTrace} (hrun : RunLogs mem locks)
    {ci : CI} (hci : Candidate mem ci) (hfound : lockFound (sections locks) ci = true) {σ : List Ev}
    (hσ : Schedule mem locks σ) : ¬ Between σ ci := by
  intro hbetween
  obtain ⟨cs, hcs, ⟨⟨hft, hfs, hff⟩, hss, hsf⟩, cs2, hcs2, ⟨hit, his, hif⟩, hev⟩ := lockFound_iff.mp hfound
  -- cut the schedule just after inter
  obtain ⟨σ₁, σ₂, rfl, hfirst, hrest⟩ := List.cons_sublist_iff.mp hbetween
  obtain ⟨σ₃, q, rfl, hinter, hsecond⟩ := List.cons_sublist_iff.mp hrest
  obtain ⟨p, σ₄, rfl⟩ := List.append_of_mem hinter
  have hsecond : Ev.access ci.second ∈ q := List.singleton_sublist.mp hsecond
  have hcut : σ₁ ++ (p ++ Ev.access ci.inter :: σ₄ ++ q) =
      (σ₁ ++ p ++ [Ev.access ci.inter]) ++ (σ₄ ++ q) := by simp
  rw [hcut] at hσ
  have horder := List.pairwise_append.mp hσ.order
  -- at the cut first's thread is inside its section
  have h1 : Holds Ev.isRec Ev.lk (σ₁ ++ p ++ [Ev.access ci.inter]) cs.tid cs.lEv := by
    refine holds_in_section hrun hσ hcs (show Ev.access ci.first ∈ _ by simp [hfirst]) hft.symm hfs hff ?_
    intro e he het
    have hlt : e.time < ci.second.time :=
      horder.2.2 e he _ (List.mem_append_right _ hsecond)
        (het.trans (hft.trans hci.next.tid_eq.symm))
    omega
  -- and inter's thread inside its own
  have h2 : Holds Ev.isRec Ev.lk (σ₁ ++ p ++ [Ev.access ci.inter]) cs2.tid cs2.lEv := by
    refine holds_in_section hrun hσ hcs2 (show Ev.access ci.inter ∈ _ by simp) hit.symm his hif ?_
    intro e he het
    rcases List.mem_append.mp he with he | he
    · have hlt : e.time < ci.inter.time :=
        (List.pairwise_append.mp horder.1).2.2 e he _ (List.mem_singleton_self _) (het.trans hit)
      omega
    · rw [List.mem_singleton.mp he]
      exact hif
  rw [hev] at h2
  have hsame : cs.tid = cs2.tid := hσ.safe _ (List.prefix_append _ _) _ _ _ h1 h2
  exact hci.tid (hit.symm.trans (hsame.symm.trans hft))

/-- **Lock pruning is sound**: a candidate that `pruner` abandons because of the lock check has
inter between first and second in no schedule of the run. -/
theorem not_between_of_lock_pruned {memLog : List MemRef} {lockLog : List LockRef}
    (hrun : RunLogs (memLog.map traceOf) (lockLog.map lockOf)) {mt : MemTrace} {order : List ℕ}
    {cis : List CI} {css : List CS} (hmem : loadMemTraces (memFile memLog) = .ok mt)
    (hpred : predictor order mt = .ok cis) (hlock : loadLockTraces (lockFile lockLog) = .ok css) :
    ∀ ci ∈ cis, lockFound css ci = true →
      ∀ σ, Schedule (memLog.map traceOf) (lockLog.map lockOf) σ → ¬ Between σ ci := by
  intro ci hci hfound σ hσ
  have hne : ∀ r ∈ lockLog, r.ts ≠ 0 := by
    intro r hr h0
    exact hrun.lock_pos _ (List.mem_map_of_mem hr) (by simp [lockOf, h0])
  rw [loadLockTraces_sections hne, Except.ok.injEq] at hlock
  subst hlock
  exact not_between_of_lockFound hrun (candidate_of_predictor (memRep_of_load hmem) hpred hci) hfound hσ

/-- Thread 1 reads a word twice in one section, thread 2 writes it in a section of the same
mutex. -/
def guardedMem : List MemRef := [⟨10, 64, 2, 1, 1⟩, ⟨11, 64, 3, 1, 1⟩, ⟨12, 64, 6, 2, 0⟩]

def guardedLocks : List LockRef :=
  [⟨1, 1, 20, 96, 1⟩, ⟨1, 4, 21, 96, 0⟩, ⟨2, 5, 22, 96, 1⟩, ⟨2, 7, 23, 96, 0⟩]

def guardedCi : CI := ⟨⟨1, 2, 10, 64, 1⟩, ⟨1, 3, 11, 64, 1⟩, ⟨2, 6, 12, 64, 0⟩⟩

theorem runLogs_guarded : RunLogs (guardedMem.map traceOf) (guardedLocks.map lockOf) := by
  refine ⟨by decide, by decide, by decide, by decide, by decide, ?_⟩
  intro t m
  by_cases h1 : 1 = t ∧ 96 = m
  · obtain ⟨rfl, rfl⟩ := h1
    exact ⟨rfl, rfl, trivial⟩
  · by_cases h2 : 2 = t ∧ 96 = m
    · obtain ⟨rfl, rfl⟩ := h2
      exact ⟨rfl, rfl, trivial⟩
    · have hnil : ofMutex (guardedLocks.map lockOf) t m = [] := by
        simp [ofMutex, guardedLocks, lockOf, h1, h2]
      rw [hnil]
      trivial

/-- The run as recorded. -/
def guardedSchedule : List Ev :=
  [.lock ⟨1, 1, 20, 96, 1⟩, .access ⟨1, 2, 10, 64, 1⟩, .access ⟨1, 3, 11, 64, 1⟩, .lock ⟨1, 4, 21, 96, 0⟩,
    .lock ⟨2, 5, 22, 96, 1⟩, .access ⟨2, 6, 12, 64, 0⟩, .lock ⟨2, 7, 23, 96, 0⟩]

theorem schedule_guarded :
    Schedule (guardedMem.map traceOf) (guardedLocks.map lockOf) guardedSchedule := by
  exact ⟨by decide, by decide, (mutexSafe_iff Ev.key_of_isRec).mpr (by decide)⟩

theorem not_between_guarded : ¬ Between guardedSchedule guardedCi :=
  not_between_of_lock_pruned runLogs_guarded (loadMemTraces_memFile guardedMem)
    (show predictor [64] _ = .ok [guardedCi] by decide) (loadLockTraces_sections (by decide))
    guardedCi (List.mem_singleton_self _) (by decide) guardedSchedule schedule_guarded

end Feasible
end AVPredictor
