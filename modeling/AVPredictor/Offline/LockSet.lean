import AVPredictor.Base.Mutex
import AVPredictor.Base.Reorder
import AVPredictor.Offline.LockTrace

/-!
# AVPredictor.Offline.LockSet — the mutexes that the sections put around a time

The analyser takes a thread to hold a mutex at a time when a section of the thread and the mutex is
strictly around it.  `section_around_iff` says what that is on the log: a lock before, no unlock
since, and an unlock to come.  The thread's real lock set are the mutexes that it has locked more
often than unlocked.

`lockSet_iff`: the sections never put a mutex too many around a time, and they miss one in two cases.
An unlock completes all open sections of its mutex, so after the first unlock of a recursive mutex
the thread holds it and no section says so; and a section that is never completed keeps the finish
time 0, so it is around no time at all.
-/

namespace AVPredictor
namespace Offline

open Base

/-- The thread locks the mutex before time `a` and does not unlock it from then to time `b`. -/
def HeldOver (log : List LockTrace) (tid m a b : ℕ) : Prop :=
  ∃ r ∈ log, r.op = opLock ∧ r.tid = tid ∧ r.entryV = m ∧ r.time < a ∧
    ∀ u ∈ log, unlocks tid m u → r.time < u.time → b < u.time

/-- The thread unlocks the mutex after time `b`. -/
def UnlocksAfter (log : List LockTrace) (tid m b : ℕ) : Prop := ∃ u ∈ log, unlocks tid m u ∧ b < u.time

section Sections

variable {log : List LockTrace} {cs : CS} {tid m a b : ℕ}

theorem unlocks_iff {t m : ℕ} {u : LockTrace} :
    unlocks t m u = true ↔ u.op ≠ opLock ∧ u.tid = t ∧ u.entryV = m := by
  simp [unlocks]

/-- A closed section ends no later than any unlock of its thread and mutex after its start. -/
theorem ftime_le_of_unlock (htimes : TimeOrdered LockTrace.tid LockTrace.time log)
    (h : cs ∈ sections log) (hf : cs.ftime ≠ 0) {u : LockTrace} (hu : u ∈ log)
    (hmine : unlocks cs.tid cs.lEv u) (hlt : cs.stime < u.time) : cs.ftime ≤ u.time := by
  obtain ⟨l₁, r, l₂, v, l₃, rfl, -, hv, hno, hrt, -, hrs, hvf, -, -⟩ := mem_sections_closed h hf
  have hut := (unlocks_iff.mp hmine).2.1
  have hvt := (unlocks_iff.mp hv).2.1
  -- after the lock record there are locks, the first unlock and what comes after that
  rcases List.mem_append.mp (htimes.mem_right hu (hut.trans hrt.symm) (by omega)) with hmem | hmem
  · exact absurd hmine (hno u hmem)
  · rcases List.mem_cons.mp hmem with rfl | hmem
    · exact hvf.ge
    · have hright := (List.pairwise_cons.mp (List.pairwise_append.mp htimes).2.1).2
      have hlast := (List.pairwise_cons.mp (List.pairwise_append.mp hright).2.1).1
      have hafter := hlast u hmem (hvt.trans hut.symm)
      omega

/-- **A section around two times** is a lock before the first one, no unlock up to the second one, and
an unlock after it. -/
theorem section_around_iff (htimes : TimeOrdered LockTrace.tid LockTrace.time log) (hab : a ≤ b) :
    (∃ cs ∈ sections log, cs.tid = tid ∧ cs.lEv = m ∧ cs.stime < a ∧ b < cs.ftime) ↔
      HeldOver log tid m a b ∧ UnlocksAfter log tid m b := by
  constructor
  · rintro ⟨cs, hcs, rfl, rfl, hs, hf⟩
    have hne : cs.ftime ≠ 0 := by omega
    obtain ⟨l₁, r, l₂, u, l₃, hl, hr, hu, -, hrt, hre, hrs, huf, -, -⟩ := mem_sections_closed hcs hne
    refine ⟨⟨r, by simp [hl], hr, hrt, hre, by omega, ?_⟩, u, by simp [hl], hu, by omega⟩
    intro v hv hmine hlt
    have hle := ftime_le_of_unlock htimes hcs hne hv hmine (by omega)
    omega
  · rintro ⟨⟨r, hr, hop, rfl, rfl, hra, hno⟩, u, hu, hmine, hub⟩
    obtain ⟨l₁, l₂, rfl⟩ := List.append_of_mem hr
    -- the unlock to come is after the lock record, so there is a first one
    have hul : u ∈ l₂ := htimes.mem_right hu (unlocks_iff.mp hmine).2.1 (by omega)
    obtain ⟨v, hv⟩ := Option.isSome_iff_exists.mp (List.find?_isSome.mpr ⟨u, hul, hmine⟩)
    have hvl := List.mem_of_find?_eq_some hv
    have hvm := List.find?_some hv
    have hrv : r.time < v.time :=
      (List.pairwise_cons.mp (List.pairwise_append.mp htimes).2.1).1 v hvl (unlocks_iff.mp hvm).2.1.symm
    have hsec := sectionOf_closeBy r l₂
    refine ⟨_, List.mem_of_getElem? (sections_getElem? hop), hsec.tid, hsec.lEv, ?_, ?_⟩
    · rw [hsec.stime]
      exact hra
    · rw [(hsec.closed v hv).1]
      exact hno v (by simp [hvl]) hvm hrv

end Sections

/-! ## The lock set -/

/-- A lock or unlock record of the mutex by the thread. -/
def recordOf (tid m : ℕ) (r : LockTrace) : Bool := r.tid = tid ∧ r.entryV = m

/-- The mutexes that the sections put around a time. -/
def inferredLocks (csList : List CS) (tid time : ℕ) : Set ℕ :=
  {m | ∃ cs ∈ csList, cs.tid = tid ∧ cs.lEv = m ∧ cs.stime < time ∧ time < cs.ftime}

/-- The mutexes with more locks than unlocks by the thread before a time. -/
def heldLocks (log : List LockTrace) (tid time : ℕ) : Set ℕ :=
  {m | Holds recordOf isLock (log.filter (·.time < time)) tid m}

section LockSet

variable {log : List LockTrace} {tid m time : ℕ}

theorem key_of_recordOf (t m : ℕ) (r : LockTrace) (h : recordOf t m r = true) : t = r.tid ∧ m = r.entryV := by
  obtain ⟨rfl, rfl⟩ : r.tid = t ∧ r.entryV = m := by simpa [recordOf] using h
  exact ⟨rfl, rfl⟩

/-- A mutex locked before the time and not unlocked since is held. -/
theorem mem_heldLocks (htimes : TimeOrdered LockTrace.tid LockTrace.time log)
    (hlegal : UnlocksHeld recordOf isLock log) (h : HeldOver log tid m time time) : m ∈ heldLocks log tid time := by
  obtain ⟨r, hr, hop, hrt, hre, hlt, hno⟩ := h
  obtain ⟨l₁, l₂, rfl⟩ := List.append_of_mem hr
  obtain ⟨-, hright, hcross⟩ := List.pairwise_append.mp htimes
  -- what comes before the lock is before the time
  have hleft : (l₁.filter (·.time < time)).filter (recordOf tid m) = l₁.filter (recordOf tid m) := by
    rw [List.filter_filter]
    refine List.filter_congr fun x hx => ?_
    by_cases hrec : recordOf tid m x = true
    · obtain ⟨hxt, -⟩ := key_of_recordOf tid m x hrec
      have hxr := hcross x hx r List.mem_cons_self (hxt.symm.trans hrt.symm)
      simp only [hrec, Bool.true_and, decide_eq_true_eq]
      omega
    · simp [hrec]
  have hcut : ((l₁ ++ r :: l₂).filter (·.time < time)).filter (recordOf tid m) =
      (l₁ ++ r :: l₂.filter (·.time < time)).filter (recordOf tid m) := by
    rw [List.filter_append, List.filter_append, hleft, List.filter_append,
      List.filter_cons_of_pos (by simpa using hlt)]
  -- and what comes after it, up to the time, are locks
  have hlocks : ∀ x ∈ l₂.filter (·.time < time), recordOf tid m x = true → isLock x = true := by
    intro x hx hrec
    obtain ⟨hxl, hxlt⟩ := List.mem_filter.mp hx
    obtain ⟨hxt, hxm⟩ := key_of_recordOf tid m x hrec
    have hrx := (List.pairwise_cons.mp hright).1 x hxl (hrt.trans hxt)
    by_contra hunlock
    have hmine : unlocks tid m x = true := unlocks_iff.mpr ⟨mt isLock_iff.mpr hunlock, hxt.symm, hxm.symm⟩
    have hbad := hno x (by simp [hxl]) hmine hrx
    simp only [decide_eq_true_eq] at hxlt
    omega
  show Holds recordOf isLock _ tid m
  unfold Holds
  rw [hcut]
  exact hlegal.holds rfl (by simp [recordOf, hrt, hre]) (isLock_iff.mpr hop) hlocks

instance : Decidable (UnlocksHeld recordOf isLock log) := decidable_of_iff _ (unlocksHeld_iff key_of_recordOf).symm

/-- **When the inferred lock set is the real one**: for every log in which threads unlock only what
they hold, and every thread and time, the sections put exactly the held mutexes around the time if
and only if the thread has not unlocked any of these since it last locked it, and unlocks each of
them later on. -/
theorem lockSet_iff {lockLog : List LockRef} {css : List CS}
    (htimes : TimeOrdered LockTrace.tid LockTrace.time (lockLog.map lockOf)) (hnonzero : ∀ r ∈ lockLog, r.ts ≠ 0)
    (hlegal : UnlocksHeld recordOf isLock (lockLog.map lockOf))
    (hload : loadLockTraces (lockFile lockLog) = .ok css) (tid time : ℕ) :
    inferredLocks css tid time = heldLocks (lockLog.map lockOf) tid time ↔
      ∀ m ∈ heldLocks (lockLog.map lockOf) tid time,
        HeldOver (lockLog.map lockOf) tid m time time ∧ UnlocksAfter (lockLog.map lockOf) tid m time := by
  rw [loadLockTraces_sections hnonzero, Except.ok.injEq] at hload
  subst hload
  have hinferred : ∀ m, m ∈ inferredLocks (sections (lockLog.map lockOf)) tid time ↔
      HeldOver (lockLog.map lockOf) tid m time time ∧ UnlocksAfter (lockLog.map lockOf) tid m time :=
    fun m => section_around_iff htimes le_rfl
  constructor
  · intro heq m hm
    rw [← heq] at hm
    exact (hinferred m).mp hm
  · intro hall
    ext m
    rw [hinferred]
    exact ⟨fun h => mem_heldLocks htimes hlegal h.1, hall m⟩

end LockSet

/-- Thread 1 locks mutex 7 twice and unlocks it twice; thread 2 locks mutex 8 and the log ends. -/
def recursiveLocks : List LockRef :=
  [⟨1, 1, 100, 7, 1⟩, ⟨1, 2, 101, 7, 1⟩, ⟨1, 4, 102, 7, 0⟩, ⟨1, 6, 103, 7, 0⟩, ⟨2, 8, 104, 8, 1⟩]

def recursiveCs : List CS := sections (recursiveLocks.map lockOf)

theorem loadLockTraces_recursiveLocks : loadLockTraces (lockFile recursiveLocks) = .ok recursiveCs :=
  loadLockTraces_sections (by decide)

theorem unlocksHeld_recursiveLocks : UnlocksHeld recordOf isLock (recursiveLocks.map lockOf) := by decide

theorem lockSet_iff_recursiveLocks :
    inferredLocks recursiveCs 1 3 = heldLocks (recursiveLocks.map lockOf) 1 3 ↔
      ∀ m ∈ heldLocks (recursiveLocks.map lockOf) 1 3,
        HeldOver (recursiveLocks.map lockOf) 1 m 3 3 ∧ UnlocksAfter (recursiveLocks.map lockOf) 1 m 3 :=
  lockSet_iff (by decide) (by decide) unlocksHeld_recursiveLocks loadLockTraces_recursiveLocks 1 3

/-- Thread 1 holds mutex 7 at time 5, and thread 2 holds mutex 8 at time 9; neither is inferred. -/
theorem held_not_inferred :
    TimeOrdered LockTrace.tid LockTrace.time (recursiveLocks.map lockOf) ∧ (∀ r ∈ recursiveLocks, r.ts ≠ 0) ∧
      UnlocksHeld recordOf isLock (recursiveLocks.map lockOf) ∧
      (∀ r ∈ recursiveLocks.map lockOf, r.time ≠ 5 ∧ r.time ≠ 9) ∧
      loadLockTraces (lockFile recursiveLocks) = .ok recursiveCs ∧
      inferredLocks recursiveCs 1 5 ≠ heldLocks (recursiveLocks.map lockOf) 1 5 ∧
      inferredLocks recursiveCs 2 9 ≠ heldLocks (recursiveLocks.map lockOf) 2 9 := by
  have h7 : 7 ∈ heldLocks (recursiveLocks.map lockOf) 1 5 :=
    show Holds recordOf isLock _ 1 7 by decide
  have h8 : 8 ∈ heldLocks (recursiveLocks.map lockOf) 2 9 :=
    show Holds recordOf isLock _ 2 8 by decide
  have hno : ∀ cs ∈ recursiveCs, ¬ (cs.stime < 5 ∧ 5 < cs.ftime) ∧ ¬ (cs.stime < 9 ∧ 9 < cs.ftime) := by decide
  refine ⟨by decide, by decide, unlocksHeld_recursiveLocks, by decide, loadLockTraces_recursiveLocks, ?_, ?_⟩
  · intro heq
    rw [← heq] at h7
    obtain ⟨cs, hcs, -, -, hs, hf⟩ := h7
    exact (hno cs hcs).1 ⟨hs, hf⟩
  · intro heq
    rw [← heq] at h8
    obtain ⟨cs, hcs, -, -, hs, hf⟩ := h8
    exact (hno cs hcs).2 ⟨hs, hf⟩

end Offline
end AVPredictor
