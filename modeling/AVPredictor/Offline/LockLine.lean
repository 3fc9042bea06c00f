import AVPredictor.Offline.Identifier
import AVPredictor.Offline.Kept
import AVPredictor.Offline.LockSet

/-!
# AVPredictor.Offline.LockLine — the sections of a lock-type line

`find_identifier` prints a line of type 1 when the three attached sections are of one mutex, and
looks at nothing else.  That First's and Second's section are then different, and the first one over
before the second begins, follows from two things: `pruner` has abandoned every candidate with both
accesses in one section of that mutex, and an unlock record completes every open section of its
thread and mutex, so a section that begins inside another one ends with it (`ftime_le_of_unlock`).

`lockLevel_iff` says when the line of a candidate with a common mutex is of type 1: other mutexes
nested in the common one may hide its sections.
-/

namespace AVPredictor
namespace Offline

open Base

/-! ## Closed sections -/

/-- A section with a lock record and an unlock record in the log. -/
structure ClosedIn (locks : List LockTrace) (cs : CS) : Prop where
  lock : ∃ r ∈ locks, r.op = opLock ∧ r.tid = cs.tid ∧ r.entryV = cs.lEv ∧ r.time = cs.stime ∧
    r.callsiteV = cs.lCv
  unlock : ∃ u ∈ locks, u.op ≠ opLock ∧ u.tid = cs.tid ∧ u.entryV = cs.lEv ∧ u.time = cs.ftime ∧
    u.callsiteV = cs.uCv

/-- What the controller needs of the three sections: they are closed, First's and Second's are two
sections of one thread, one after the other, and Inter's is of another thread. -/
structure Schedulable (locks : List LockTrace) (firstCs secondCs interCs : CS) : Prop where
  first_closed : ClosedIn locks firstCs
  second_closed : ClosedIn locks secondCs
  inter_closed : ClosedIn locks interCs
  ne : firstCs ≠ secondCs
  tid : firstCs.tid = secondCs.tid
  in_order : firstCs.ftime < secondCs.stime
  inter_tid : interCs.tid ≠ firstCs.tid

section Sections

variable {locks : List LockTrace} {cs : CS}

theorem closedIn_of_mem (h : cs ∈ sections locks) (hf : cs.ftime ≠ 0) : ClosedIn locks cs := by
  obtain ⟨l₁, r, l₂, u, l₃, hl, hop, hu, -, htid, hev, hs, hf, hlcv, hucv⟩ := mem_sections_closed h hf
  obtain ⟨huop, hutid, huev⟩ := unlocks_iff.mp hu
  exact ⟨⟨r, by simp [hl], hop, htid, hev, hs, hlcv⟩, ⟨u, by simp [hl], huop, hutid, huev, hf, hucv⟩⟩

end Sections

/-! ## Attached sections -/

section Attach

variable {csList : List CS} {ci : CI} {re : Result} {cs : CS}

/-- The sections of a result are sections of its accesses. -/
structure Attached (csList : List CS) (re : Result) : Prop where
  first : ∀ cs, re.firstCs = some cs → cs ∈ csList ∧ inSection re.first cs = true
  second : ∀ cs, re.secondCs = some cs → cs ∈ csList ∧ inSection re.second cs = true
  inter : ∀ cs, re.interCs = some cs → cs ∈ csList ∧ inSection re.inter cs = true

theorem saveResult_attached (csList : List CS) (ci : CI) :
    Attached csList (saveResult csList ci) ∧ (saveResult csList ci).first = ci.first ∧
      (saveResult csList ci).second = ci.second ∧ (saveResult csList ci).inter = ci.inter := by
  have hmem : ∀ {x : Trace} {cs : CS}, attached csList x = some cs → cs ∈ csList ∧ inSection x cs = true := by
    intro x cs hcs
    have hlast := lastSection_attached csList x
    rw [hcs] at hlast
    exact ⟨hlast.mem.1, inSection_iff_encloses.mpr hlast.mem.2⟩
  rw [saveResult_eq]
  exact ⟨⟨fun cs => hmem, fun cs => hmem, fun cs => hmem⟩, rfl, rfl, rfl⟩

/-- The results kept by `pruner` are those of the candidates that have passed the lock check. -/
theorem mem_pruner {syncList : List Sync} {cis : List CI} {rs : List Result}
    (h : pruner csList syncList cis = .ok rs) :
    re ∈ rs ↔ ∃ ci ∈ cis, lockFound csList ci = false ∧ re = saveResult csList ci := by
  rw [pruner_eq_map h, List.mem_map]
  simp only [List.mem_filter, Bool.not_eq_true', and_assoc, @eq_comm _ re]

end Attach

/-! ## Lines of type 1 -/

section LockLine

variable {mem : List Trace} {locks : List LockTrace} {ci : CI} {firstCs secondCs interCs : CS}

/-- A candidate that passed the lock check, with First and Second in sections of the mutex of a
section of Inter: First is over before Second begins. -/
theorem ftime_lt_stime (htimes : TimeOrdered LockTrace.tid LockTrace.time locks)
    (hapart : ∀ x ∈ mem, ∀ r ∈ locks, x.tid = r.tid → x.time ≠ r.time) (hci : Candidate mem ci)
    (hfound : lockFound (sections locks) ci = false)
    (hfirst : firstCs ∈ sections locks) (hf : Encloses firstCs ci.first)
    (hsecond : secondCs ∈ sections locks) (hs : Encloses secondCs ci.second)
    (hinter : interCs ∈ sections locks) (hi : Encloses interCs ci.inter)
    (hfs : firstCs.lEv = secondCs.lEv) (hfi : firstCs.lEv = interCs.lEv) :
    firstCs.ftime < secondCs.stime := by
  obtain ⟨hft, hf1, hf2⟩ := hf
  obtain ⟨hst, hs1, hs2⟩ := hs
  have htid := hci.next.tid_eq
  have htime := hci.time
  obtain ⟨u, hu, huop, hutid, huev, hutime, -⟩ := (closedIn_of_mem hfirst (by omega)).unlock
  obtain ⟨r, hr, hrop, hrtid, -, hrtime, -⟩ := (closedIn_of_mem hsecond (by omega)).lock
  -- First's section does not contain Second: the lock check would have abandoned the candidate
  have hnot : ¬ ci.second.time < firstCs.ftime := by
    intro hlt
    have hboth : lockFound (sections locks) ci = true :=
      lockFound_iff.mpr ⟨firstCs, hfirst, ⟨⟨hft, hf1, hf2⟩, by omega, hlt⟩, interCs, hinter, hi, hfi.symm⟩
    rw [hfound] at hboth
    exact absurd hboth (by simp)
  have hne2 : ci.second.time ≠ firstCs.ftime := by
    have h := hapart ci.second hci.next.right_mem u hu (by rw [htid, ← hft, hutid])
    rwa [hutime] at h
  by_contra hle
  have hne : secondCs.stime ≠ firstCs.ftime := by
    intro heq
    have hsame : r = u := htimes.eq_of_time hr hu (by rw [hrtid, hutid, hst, htid, hft]) (by omega)
    exact huop (hsame ▸ hrop)
  -- Second's section begins inside First's, so it ends with it, before Second
  have hmine : unlocks secondCs.tid secondCs.lEv u = true :=
    unlocks_iff.mpr ⟨huop, by rw [hutid, hft, ← htid, hst], by rw [huev, hfs]⟩
  have hend := ftime_le_of_unlock htimes hsecond (by omega) hu hmine (by omega)
  omega

/-- **A lock-type line can be scheduled**: for a result kept by `pruner`, if `find_identifier` prints
a line of type 1, the result has three sections, `grouper` is called with their intervals and their
line, and they are closed, First's over before Second's begins, both of one thread, and Inter's of
another. -/
theorem lock_line_schedulable {memLog : List MemRef} {lockLog : List LockRef} {mt : MemTrace} {css : List CS}
    {syncList : List Sync} {order : List ℕ} {cis : List CI} {rs : List Result} {re : Result}
    (hlockTimes : TimeOrdered LockTrace.tid LockTrace.time (lockLog.map lockOf))
    (hnonzero : ∀ r ∈ lockLog, r.ts ≠ 0)
    (hapart : ∀ x ∈ memLog.map traceOf, ∀ r ∈ lockLog.map lockOf, x.tid = r.tid → x.time ≠ r.time)
    (hmem : loadMemTraces (memFile memLog) = .ok mt) (hlocks : loadLockTraces (lockFile lockLog) = .ok css)
    (hpred : predictor order mt = .ok cis) (hprune : pruner css syncList cis = .ok rs) (hre : re ∈ rs)
    (htype : (identifier re).type = 1) :
    ∃ firstCs secondCs interCs,
      re.firstCs = some firstCs ∧ re.secondCs = some secondCs ∧ re.interCs = some interCs ∧
      identifier re = lockNumbers firstCs secondCs interCs ∧
      identifierEntry re =
        { firstInterval := (firstCs.stime, firstCs.ftime)
          secondInterval := (secondCs.stime, secondCs.ftime)
          interInterval := (interCs.stime, interCs.ftime)
          msg := (lockNumbers firstCs secondCs interCs).msgStr } ∧
      Schedulable (lockLog.map lockOf) firstCs secondCs interCs := by
  rw [loadLockTraces_sections hnonzero, Except.ok.injEq] at hlocks
  subst hlocks
  obtain ⟨ci, hci, hfound, rfl⟩ := (mem_pruner hprune).mp hre
  have hcand := candidate_of_predictor (memRep_of_load hmem) hpred hci
  obtain ⟨hatt, h1, h2, h3⟩ := saveResult_attached (sections (lockLog.map lockOf)) ci
  cases hc : commonSections (saveResult (sections (lockLog.map lockOf)) ci) with
  | none =>
    rw [identifier, hc] at htype
    exact nomatch htype
  | some c =>
    obtain ⟨f, s, i⟩ := c
    obtain ⟨hf, hs, hi, hfs, hfi⟩ := commonSections_eq_some hc
    obtain ⟨hfmem, hfin⟩ := hatt.first f hf
    obtain ⟨hsmem, hsin⟩ := hatt.second s hs
    obtain ⟨himem, hiin⟩ := hatt.inter i hi
    rw [h1, inSection_iff_encloses] at hfin
    rw [h2, inSection_iff_encloses] at hsin
    rw [h3, inSection_iff_encloses] at hiin
    have horder := ftime_lt_stime hlockTimes hapart hcand hfound hfmem hfin hsmem hsin himem hiin hfs hfi
    obtain ⟨hft, hf1, hf2⟩ := hfin
    obtain ⟨hst, hs1, hs2⟩ := hsin
    obtain ⟨hit, hi1, hi2⟩ := hiin
    refine ⟨f, s, i, hf, hs, hi, by rw [identifier, hc], by rw [identifierEntry, hc], ?_⟩
    refine ⟨closedIn_of_mem hfmem (by omega), closedIn_of_mem hsmem (by omega),
      closedIn_of_mem himem (by omega), ?_, ?_, horder, ?_⟩
    · rintro rfl
      omega
    · rw [hft, hst, hcand.next.tid_eq]
    · rw [hft, hit]
      exact hcand.tid

end LockLine

/-- Thread 1 reads a word in one section and writes it in the next; thread 2 writes it in a third
one. -/
def sectionMem : List MemRef := [⟨10, 64, 2, 1, 1⟩, ⟨11, 64, 6, 1, 0⟩, ⟨12, 64, 10, 2, 0⟩]

def sectionLocks : List LockRef :=
  [⟨1, 1, 100, 7, 1⟩, ⟨1, 3, 101, 7, 0⟩, ⟨1, 5, 102, 7, 1⟩, ⟨1, 7, 103, 7, 0⟩, ⟨2, 9, 104, 7, 1⟩, ⟨2, 11, 105, 7, 0⟩]

def sectionTrace : MemTrace := (sectionMem.map traceOf).foldl storeTrace ∅

def sectionCi : CI := ⟨⟨1, 2, 10, 64, 1⟩, ⟨1, 6, 11, 64, 0⟩, ⟨2, 10, 12, 64, 0⟩⟩

def sectionResult : Result :=
  { first := sectionCi.first
    second := sectionCi.second
    inter := sectionCi.inter
    firstCs := some ⟨1, 1, 3, 100, 7, 101, 7⟩
    secondCs := some ⟨1, 5, 7, 102, 7, 103, 7⟩
    interCs := some ⟨2, 9, 11, 104, 7, 105, 7⟩ }

theorem loadMemTraces_sectionMem : loadMemTraces (memFile sectionMem) = .ok sectionTrace :=
  loadMemTraces_memFile sectionMem

theorem predictor_sectionMem : predictor [64] sectionTrace = .ok [sectionCi] := by decide

theorem pruner_sectionMem :
    pruner (sections (sectionLocks.map lockOf)) [] [sectionCi] = .ok [sectionResult] := by decide

theorem lock_line_schedulable_section :
    ∃ firstCs secondCs interCs, sectionResult.firstCs = some firstCs ∧ sectionResult.secondCs = some secondCs ∧
      sectionResult.interCs = some interCs ∧
      identifier sectionResult = lockNumbers firstCs secondCs interCs ∧
      identifierEntry sectionResult =
        { firstInterval := (firstCs.stime, firstCs.ftime)
          secondInterval := (secondCs.stime, secondCs.ftime)
          interInterval := (interCs.stime, interCs.ftime)
          msg := (lockNumbers firstCs secondCs interCs).msgStr } ∧
      Schedulable (sectionLocks.map lockOf) firstCs secondCs interCs :=
  lock_line_schedulable (by decide) (by decide) (by decide) loadMemTraces_sectionMem
    (loadLockTraces_sections (by decide)) predictor_sectionMem pruner_sectionMem (List.mem_singleton.mpr rfl) rfl

/-! ## When a line is of type 1 -/

/-- Each of the three accesses lies in a closed section of mutex `m` of its own thread. -/
def CommonMutex (csList : List CS) (re : Result) (m : ℕ) : Prop :=
  ∀ p ∈ re.accesses, ∃ cs ∈ csList, cs.lEv = m ∧ Encloses cs p.1

/-- The printed line is one of type 1, with sections of one mutex around the three accesses. -/
def LockLevel (csList : List CS) (re : Result) : Prop :=
  ∃ firstCs ∈ csList, ∃ secondCs ∈ csList, ∃ interCs ∈ csList,
    Encloses firstCs re.first ∧ Encloses secondCs re.second ∧ Encloses interCs re.inter ∧
      firstCs.lEv = secondCs.lEv ∧ firstCs.lEv = interCs.lEv ∧ identifier re = lockNumbers firstCs secondCs interCs

theorem LockLevel.type {csList : List CS} {re : Result} (h : LockLevel csList re) : (identifier re).type = 1 := by
  obtain ⟨f, -, s, -, i, -, -, -, -, -, -, hline⟩ := h
  rw [hline]
  rfl

/-- The line depends on the mutexes of the attached sections. -/
theorem commonSections_of_attached {re : Result} {f s i : CS} (hf : re.firstCs = some f) (hs : re.secondCs = some s)
    (hi : re.interCs = some i) :
    commonSections re = if f.lEv = s.lEv ∧ f.lEv = i.lEv then some (f, s, i) else none := by
  rw [commonSections, hf, hs, hi]

/-- **When a candidate with a common mutex is replayed at lock level**: for every result that
`pruner` keeps with a mutex around all three accesses, the line is of type 1, with sections of one
mutex, exactly when the last sections around the accesses are of one mutex: `pruner` attaches the
last section around an access and no other. -/
theorem lockLevel_iff {csList : List CS} {syncList : List Sync} {cis : List CI} {rs : List Result} {re : Result}
    {m : ℕ} (hprune : pruner csList syncList cis = .ok rs) (hre : re ∈ rs) (hcommon : CommonMutex csList re m) :
    ∃ firstCs secondCs interCs, LastSection csList re.first (some firstCs) ∧
      LastSection csList re.second (some secondCs) ∧ LastSection csList re.inter (some interCs) ∧
      (LockLevel csList re ↔ firstCs.lEv = secondCs.lEv ∧ firstCs.lEv = interCs.lEv) := by
  obtain ⟨ci, -, -, rfl⟩ := (mem_pruner hprune).mp hre
  have hlast : ∀ p ∈ (saveResult csList ci).accesses, ∃ cs, p.2 = some cs ∧ LastSection csList p.1 (some cs) := by
    intro p hp
    have hl := lastSection_saveResult csList ci p hp
    obtain ⟨cs, hcs, -, hx⟩ := hcommon p hp
    obtain ⟨last, heq⟩ := hl.exists_some ⟨cs, hcs, hx⟩
    exact ⟨last, heq, heq ▸ hl⟩
  simp only [Result.accesses, List.forall_mem_cons] at hlast
  obtain ⟨⟨f, hf, hfl⟩, ⟨s, hs, hsl⟩, ⟨i, hi, hil⟩, -⟩ := hlast
  have hsections := commonSections_of_attached hf hs hi
  refine ⟨f, s, i, hfl, hsl, hil, ?_, ?_⟩
  · intro hlevel
    by_contra hne
    rw [if_neg hne] at hsections
    have htype := hlevel.type
    rw [identifier, hsections] at htype
    exact absurd htype (by simp [accessNumbers])
  · intro hone
    rw [if_pos hone] at hsections
    refine ⟨f, hfl.mem.1, s, hsl.mem.1, i, hil.mem.1, hfl.mem.2, hsl.mem.2, hil.mem.2, hone.1, hone.2, ?_⟩
    rw [identifier, hsections]

theorem lockLevel_iff_section :
    ∃ firstCs secondCs interCs,
      LastSection (sections (sectionLocks.map lockOf)) sectionResult.first (some firstCs) ∧
      LastSection (sections (sectionLocks.map lockOf)) sectionResult.second (some secondCs) ∧
      LastSection (sections (sectionLocks.map lockOf)) sectionResult.inter (some interCs) ∧
      (LockLevel (sections (sectionLocks.map lockOf)) sectionResult ↔
        firstCs.lEv = secondCs.lEv ∧ firstCs.lEv = interCs.lEv) :=
  lockLevel_iff pruner_sectionMem (List.mem_singleton.mpr rfl) (show CommonMutex _ _ 7 by unfold CommonMutex; decide)

/-- Mutex 7 is around all three accesses, but mutex 8 is nested in it around First: the line is of
type 0. -/
theorem nested_falls_back :
    loadMemTraces (memFile nestedMem) = .ok nestedTrace ∧ loadLockTraces (lockFile nestedLocks) = .ok nestedCs ∧
      predictor [64] nestedTrace = .ok [nestedCi] ∧ pruner nestedCs [] [nestedCi] = .ok [nestedResult] ∧
      CommonMutex nestedCs nestedResult 7 ∧ ¬ LockLevel nestedCs nestedResult ∧
      (identifier nestedResult).type = 0 := by
  have htype : (identifier nestedResult).type = 0 := by decide
  refine ⟨loadMemTraces_nestedMem, loadLockTraces_nestedLocks, predictor_nestedMem, pruner_nestedMem,
    by unfold CommonMutex; decide, ?_, htype⟩
  intro hlevel
  rw [hlevel.type] at htype
  exact nomatch htype

end Offline
end AVPredictor
