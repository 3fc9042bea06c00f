import AVPredictor.Feasible.Locks
import AVPredictor.Offline.Atomicity
import AVPredictor.Offline.Outcome

/-!
# AVPredictor.Feasible.Report — no feasible violation is missing from the report

A schedule of the recorded run in which accesses come between two neighbouring accesses of a thread,
and show (`Atomic` fails), has one of them among the candidates with these two
(`violation_of_region`), unless it was recorded between them.  The lock check keeps this candidate,
since the schedule performs it (`not_between_of_lockFound`), the sync check drops nothing, and
`grouper` writes its line.
-/

namespace AVPredictor
namespace Feasible

open Base Offline

/-- The access of an event. -/
def Ev.access? : Ev → Option Trace
  | .access x => some x
  | .lock _ => none

/-- The accesses of a schedule. -/
def accessesOf (σ : List Ev) : List Trace := σ.filterMap Ev.access?

section Schedule

variable {mem : List Trace} {locks : List LockTrace} {σ : List Ev} {x : Trace}

theorem access?_eq_some {e : Ev} : e.access? = some x ↔ e = .access x := by
  cases e with
  | access y => simp [Ev.access?]
  | lock y => simp [Ev.access?]

theorem mem_accessesOf : x ∈ accessesOf σ ↔ Ev.access x ∈ σ := by
  simp [accessesOf, access?_eq_some]

/-- A schedule reschedules the accesses of the run. -/
theorem Schedule.keepsOrder (h : Schedule mem locks σ) (hmem : TimeOrdered Trace.tid Trace.time mem) :
    KeepsOrder Trace.tid mem (accessesOf σ) := by
  have hperm : (accessesOf σ).Perm mem := by
    have hsel := h.perm.filterMap Ev.access?
    rw [List.filterMap_append, List.filterMap_map, List.filterMap_map] at hsel
    have haccess : mem.filterMap (Ev.access? ∘ Ev.access) = mem := List.filterMap_some
    have hlock : locks.filterMap (Ev.access? ∘ Ev.lock) = [] := List.filterMap_eq_nil_iff.mpr fun _ _ => rfl
    rwa [haccess, hlock, List.append_nil] at hsel
  have htime : TimeOrdered Trace.tid Trace.time (accessesOf σ) := by
    refine List.pairwise_filterMap.mpr (h.order.imp ?_)
    intro a b hab x hx y hy
    rw [access?_eq_some] at hx hy
    subst hx hy
    exact hab
  exact hmem.keepsOrder htime hperm

end Schedule

/-- In `σ` the thread of `first` performs `first` and `second` with the events `l` of other threads or
of other addresses in between. -/
structure Region (σ : List Ev) (first second : Trace) (l : List Ev) : Prop where
  split : ∃ α β, σ = α ++ .access first :: (l ++ .access second :: β)
  addr : second.addr = first.addr
  tid : second.tid = first.tid
  next : ∀ x, Ev.access x ∈ l → ¬ (x.addr = first.addr ∧ x.tid = first.tid)

/-- The accesses of a region to the address of its two ends. -/
def regionAccesses (first : Trace) (l : List Ev) : List Trace := (accessesOf l).filter (·.addr = first.addr)

section Region

variable {mem : List Trace} {locks : List LockTrace} {σ l : List Ev} {first second inter : Trace}

theorem mem_regionAccesses : inter ∈ regionAccesses first l ↔ Ev.access inter ∈ l ∧ inter.addr = first.addr := by
  rw [regionAccesses, List.mem_filter, mem_accessesOf, decide_eq_true_iff]

theorem Region.nextAccess (h : Region σ first second l) : NextAccess (accessesOf σ) first second := by
  obtain ⟨α, β, hσ⟩ := h.split
  refine ⟨accessesOf α, accessesOf l, accessesOf β, ?_, h.addr, h.tid, ?_⟩
  · simp [hσ, accessesOf, Ev.access?]
  · exact fun x hx => h.next x (mem_accessesOf.mp hx)

theorem Region.between (h : Region σ first second l) (hinter : Ev.access inter ∈ l) :
    Between σ ⟨first, second, inter⟩ := by
  obtain ⟨α, β, rfl⟩ := h.split
  refine List.Sublist.trans (List.Sublist.cons_cons _ ?_) (List.sublist_append_right α _)
  exact (List.singleton_sublist.mpr hinter).append (List.singleton_sublist.mpr List.mem_cons_self)

/-- Of the accesses of a region that shows, one was recorded there or is a violation that passes the
lock check. -/
theorem Region.exists_reported (hrun : RunLogs mem locks) (hops : OpsOk mem) (hσ : Schedule mem locks σ)
    (h : Region σ first second l) (hshow : ¬ Atomic first second (regionAccesses first l)) :
    ∃ inter ∈ regionAccesses first l, (first.time < inter.time ∧ inter.time < second.time) ∨
      Reported mem (sections locks) (saveResult (sections locks) ⟨first, second, inter⟩) := by
  have hkeeps := hσ.keepsOrder hrun.mem_time
  have hl : ∀ x ∈ regionAccesses first l, x ∈ accessesOf σ ∧ x.addr = first.addr ∧ x.tid ≠ first.tid := by
    intro x hx
    obtain ⟨hx, haddr⟩ := mem_regionAccesses.mp hx
    obtain ⟨α, β, hsplit⟩ := h.split
    exact ⟨mem_accessesOf.mpr (by simp [hsplit, hx]), haddr, fun htid => h.next x hx ⟨haddr, htid⟩⟩
  obtain ⟨inter, hinter, hviol | hrec⟩ := violation_of_region hops hkeeps h.nextAccess hl hshow
  · refine ⟨inter, hinter, Or.inr ⟨_, hviol, ?_, rfl⟩⟩
    by_contra hfound
    rw [Bool.not_eq_false] at hfound
    have htimes : TimesIncrease mem := hrun.mem_time.imp fun hab _ htid => hab htid
    have htime : first.time < second.time :=
      rel_of_consecutive (htimes.accesses _ _) (nextAccess_iff.mp hviol.next)
    exact not_between_of_lockFound hrun ⟨hviol.next, hviol.mem, hviol.addr, hviol.tid, htime⟩ hfound hσ
      (h.between (mem_regionAccesses.mp hinter).1)
  · exact ⟨inter, hinter, Or.inl hrec⟩

end Region

theorem RunLogs.logsOk {memLog : List MemRef} {lockLog : List LockRef}
    (hrun : RunLogs (memLog.map traceOf) (lockLog.map lockOf)) (hops : OpsOk (memLog.map traceOf)) :
    LogsOk memLog lockLog := by
  refine ⟨hops, ?_, fun r hr h0 => hrun.lock_pos _ (List.mem_map_of_mem hr) (by simp [lockOf, h0])⟩
  exact (List.pairwise_map.mp hrun.mem_time).imp fun hab htid => hab (congrArg UInt32.toNat htid)

/-- **No feasible violation is missed.**  Take a run with distinct times, without recursive locking, whose
analysis returned, and any schedule of it that keeps each thread's order and every mutex safe.  Two accesses
at one time could give two candidates with the same intervals, of which `grouper` keeps one.  Where other
accesses come between two
neighbouring accesses of a thread and show, one of them was recorded between the two, or the report
has the line of the three. -/
theorem feasible_violation_reported {memLog : List MemRef} {lockLog : List LockRef}
    {enum : MemTrace → List ℕ} {syncLog : List UInt8} {s : GroupState} {σ l : List Ev} {first second : Trace}
    (hrun : RunLogs (memLog.map traceOf) (lockLog.map lockOf)) (hops : OpsOk (memLog.map traceOf))
    (hdistinct : (memLog.map MemRef.ts).Nodup) (hlocks : (lockLog.map LockRef.ts).Nodup)
    (henum : DictOrder enum) (hok : analyse enum (memFile memLog) (lockFile lockLog) syncLog = .ok s)
    (hσ : Schedule (memLog.map traceOf) (lockLog.map lockOf) σ) (hregion : Region σ first second l)
    (hshow : ¬ Atomic first second (regionAccesses first l)) :
    ∃ inter, Ev.access inter ∈ l ∧ inter.addr = first.addr ∧
      ((first.time < inter.time ∧ inter.time < second.time) ∨
        (saveResult (sections (lockLog.map lockOf)) ⟨first, second, inter⟩).line ∈ report s) := by
  obtain ⟨inter, hinter, hcase⟩ := hregion.exists_reported hrun hops hσ hshow
  obtain ⟨hmem, haddr⟩ := mem_regionAccesses.mp hinter
  refine ⟨inter, hmem, haddr, hcase.imp_right ?_⟩
  exact line_mem_report (hrun.logsOk hops) henum hdistinct hlocks hok

theorem runLogs_section : RunLogs (sectionMem.map traceOf) (sectionLocks.map lockOf) := by
  refine ⟨by decide, by decide, by decide, by decide, by decide, ?_⟩
  intro t m
  by_cases h1 : 1 = t ∧ 7 = m
  · obtain ⟨rfl, rfl⟩ := h1
    exact ⟨rfl, rfl, rfl, rfl, trivial⟩
  · by_cases h2 : 2 = t ∧ 7 = m
    · obtain ⟨rfl, rfl⟩ := h2
      exact ⟨rfl, rfl, trivial⟩
    · have hnil : ofMutex (sectionLocks.map lockOf) t m = [] := by
        simp [ofMutex, sectionLocks, lockOf, h1, h2]
      rw [hnil]
      trivial

/-- The section of thread 2. -/
def remoteSection : List Ev := [.lock ⟨2, 9, 104, 7, 1⟩, .access sectionCi.inter, .lock ⟨2, 11, 105, 7, 0⟩]

/-- Thread 2's section between the two of thread 1. -/
def sectionSchedule : List Ev :=
  [.lock ⟨1, 1, 100, 7, 1⟩, .access sectionCi.first, .lock ⟨1, 3, 101, 7, 0⟩] ++ remoteSection ++
    [.lock ⟨1, 5, 102, 7, 1⟩, .access sectionCi.second, .lock ⟨1, 7, 103, 7, 0⟩]

theorem schedule_section : Schedule (sectionMem.map traceOf) (sectionLocks.map lockOf) sectionSchedule :=
  ⟨by decide, by decide, (mutexSafe_iff Ev.key_of_isRec).mpr (by decide)⟩

theorem region_section :
    Region sectionSchedule sectionCi.first sectionCi.second
      ([.lock ⟨1, 3, 101, 7, 0⟩] ++ remoteSection ++ [.lock ⟨1, 5, 102, 7, 1⟩]) where
  split := ⟨[.lock ⟨1, 1, 100, 7, 1⟩], [.lock ⟨1, 7, 103, 7, 0⟩], rfl⟩
  addr := rfl
  tid := rfl
  next := by simp [remoteSection, sectionCi]

theorem feasible_violation_reported_section :
    ∃ s, analyse (fun mt => mt.keys) (memFile sectionMem) (lockFile sectionLocks) [] = .ok s ∧
      ∃ inter, Ev.access inter ∈ [Ev.lock ⟨1, 3, 101, 7, 0⟩] ++ remoteSection ++ [.lock ⟨1, 5, 102, 7, 1⟩] ∧
        inter.addr = sectionCi.first.addr ∧
        ((sectionCi.first.time < inter.time ∧ inter.time < sectionCi.second.time) ∨
          (saveResult (sections (sectionLocks.map lockOf)) ⟨sectionCi.first, sectionCi.second, inter⟩).line ∈
            report s) := by
  obtain ⟨s, hok⟩ := analyse_ok_nil logsOk_section dictOrder_keys
  have hops : OpsOk (sectionMem.map traceOf) := logsOk_section.ops
  have hshow : ¬ Atomic sectionCi.first sectionCi.second [sectionCi.inter] :=
    (unserializable_iff (by simp [OpsOk, sectionCi, opRead, opWrite]) (by decide) (by decide) (by decide)).mp
      (by decide)
  exact ⟨s, hok, feasible_violation_reported runLogs_section hops (by decide) (by decide) dictOrder_keys hok
    schedule_section region_section hshow⟩

end Feasible
end AVPredictor
