import AVPredictor.Base.View
import AVPredictor.Offline.Predictor

/-!
# AVPredictor.Offline.Atomicity — what the four patterns of `predictor` mean

`predictor` tests the ops of three accesses only.  `Atomic first second inters` is the property that
the pattern stands for: the values read and the value left do not show that `inters` came between
`first` and `second`.  A single access in between is not atomic exactly in the four patterns
(`unserializable_iff`), and accesses of any number, by any threads, are not atomic only if one of them
makes a pattern (`exists_unserializable`): looking at triples misses nothing.
-/

namespace AVPredictor
namespace Offline

open Base

/-- The access is a write. -/
def Trace.writes (x : Trace) : Bool := x.op = opWrite

/-- `inters` may come between `first` and `second` unnoticed. -/
def Atomic (first second : Trace) (inters : List Trace) : Prop :=
  Serializable Trace.tid Trace.writes first second inters

section Patterns

variable {first second inter : Trace} {inters : List Trace}

theorem writes_eq_false {x : Trace} (hx : x.op = opRead ∨ x.op = opWrite) : x.writes = false ↔ x.op = opRead := by
  rcases hx with h | h <;> simp [Trace.writes, h, opRead, opWrite]

theorem writes_eq_true {x : Trace} : x.writes = true ↔ x.op = opWrite := decide_eq_true_iff

/-- One access between two is harmless unless the three make a pattern. -/
theorem harmless_singleton (hf : first.op = opRead ∨ first.op = opWrite)
    (hs : second.op = opRead ∨ second.op = opWrite) (hi : inter.op = opRead ∨ inter.op = opWrite) :
    Harmless Trace.writes first second [inter] ↔ ¬ Unserializable first.op inter.op second.op := by
  rcases hf with hf | hf <;> rcases hs with hs | hs <;> rcases hi with hi | hi <;>
    simp [Harmless, Trace.writes, Unserializable, hf, hs, hi, opRead, opWrite]

/-- **The four patterns** are the single accesses that show. -/
theorem unserializable_iff (hops : OpsOk [first, second, inter]) (hne : first ≠ second)
    (hfi : first.tid ≠ inter.tid) (hsi : second.tid ≠ inter.tid) :
    Unserializable first.op inter.op second.op ↔ ¬ Atomic first second [inter] := by
  rw [Atomic, serializable_iff (by simpa using fun h => hfi (by rw [h]))
    (by simpa using fun h => hsi (by rw [h])) hne,
    harmless_singleton (hops _ (by simp)) (hops _ (by simp)) (hops _ (by simp)), not_not]

/-- **Triples are enough**: of accesses that show, one makes a pattern. -/
theorem exists_unserializable (hops : OpsOk (first :: second :: inters)) (h : ¬ Atomic first second inters) :
    ∃ inter ∈ inters, Unserializable first.op inter.op second.op := by
  obtain ⟨hf, hs, hi⟩ : (first.op = opRead ∨ first.op = opWrite) ∧ (second.op = opRead ∨ second.op = opWrite) ∧
      OpsOk inters := by
    simpa only [OpsOk, List.forall_mem_cons] using hops
  have hharm : ¬ Harmless Trace.writes first second inters := fun hh => h (serializable_of_harmless hh)
  unfold Harmless at hharm
  split_ifs at hharm with hboth
  · -- both write: the head is a read
    rw [Bool.and_eq_true, writes_eq_true, writes_eq_true] at hboth
    push Not at hharm
    obtain ⟨r, hr, hread⟩ := hharm
    have hmem : r ∈ inters := List.mem_of_mem_head? hr
    have hop := (writes_eq_false (hi r hmem)).mp (by simpa using hread)
    exact ⟨r, hmem, Or.inr (Or.inr (Or.inr ⟨hboth.1, hop, hboth.2⟩))⟩
  · -- else one of them writes
    push Not at hharm
    obtain ⟨r, hmem, hwrite⟩ := hharm
    have hwrite : r.op = opWrite := writes_eq_true.mp (by simpa using hwrite)
    refine ⟨r, hmem, ?_⟩
    rw [Bool.and_eq_true, writes_eq_true, writes_eq_true] at hboth
    unfold Unserializable
    rcases hf with hf | hf <;> rcases hs with hs | hs
    · exact Or.inl ⟨hf, hwrite, hs⟩
    · exact Or.inr (Or.inl ⟨hf, hwrite, hs⟩)
    · exact Or.inr (Or.inr (Or.inl ⟨hf, hwrite, hs⟩))
    · exact absurd ⟨hf, hs⟩ hboth

end Patterns

/-! ## The candidates -/

section Candidates

variable {log σ : List Trace} {first second inter : Trace}

/-- A violation is a triple that shows and was not recorded in that order. -/
theorem violation_iff_not_atomic (hops : OpsOk log) (htime : TimesIncrease log) :
    Violation log ⟨first, second, inter⟩ ↔ NextAccess log first second ∧ inter ∈ log ∧
      inter.addr = first.addr ∧ inter.tid ≠ first.tid ∧
      ¬ (first.time < inter.time ∧ inter.time < second.time) ∧ ¬ Atomic first second [inter] := by
  have hpattern : NextAccess log first second → inter ∈ log → inter.tid ≠ first.tid →
      (Unserializable first.op inter.op second.op ↔ ¬ Atomic first second [inter]) := by
    intro hnext hmem htid
    have hlt := htime.accesses first.addr first.tid
    have hne : first ≠ second := fun heq =>
      absurd (rel_of_consecutive hlt (nextAccess_iff.mp hnext)) (by rw [heq]; omega)
    refine unserializable_iff ?_ hne htid.symm (by rw [hnext.tid_eq]; exact htid.symm)
    simp only [OpsOk, List.forall_mem_cons]
    exact ⟨hops _ hnext.left_mem, hops _ hnext.right_mem, hops _ hmem, by simp⟩
  constructor
  · rintro ⟨hnext, hmem, haddr, htid, hout, hpat⟩
    exact ⟨hnext, hmem, haddr, htid, hout, (hpattern hnext hmem htid).mp hpat⟩
  · rintro ⟨hnext, hmem, haddr, htid, hout, hshow⟩
    exact ⟨hnext, hmem, haddr, htid, hout, (hpattern hnext hmem htid).mpr hshow⟩

theorem nextAccess_keepsOrder (h : KeepsOrder Trace.tid log σ) :
    NextAccess σ first second ↔ NextAccess log first second := by
  have hacc : accesses σ first.addr first.tid = accesses log first.addr first.tid := by
    rw [accesses_eq_filter, accesses_eq_filter]
    exact h.filter_eq fun x hx => (of_decide_eq_true hx).2
  rw [nextAccess_iff, nextAccess_iff, hacc]

/-- Accesses that show between two neighbouring accesses of a rescheduling: one of them is a violation
of the log with the two, unless it was recorded between them. -/
theorem violation_of_region (hops : OpsOk log) (hσ : KeepsOrder Trace.tid log σ)
    (hnext : NextAccess σ first second)
    {l : List Trace} (hl : ∀ x ∈ l, x ∈ σ ∧ x.addr = first.addr ∧ x.tid ≠ first.tid)
    (hshow : ¬ Atomic first second l) :
    ∃ inter ∈ l, Violation log ⟨first, second, inter⟩ ∨ (first.time < inter.time ∧ inter.time < second.time) := by
  have hops' : OpsOk (first :: second :: l) := by
    simp only [OpsOk, List.forall_mem_cons]
    refine ⟨hops _ (hσ.mem_iff.mp hnext.left_mem), hops _ (hσ.mem_iff.mp hnext.right_mem), fun x hx => ?_⟩
    exact hops x (hσ.mem_iff.mp (hl x hx).1)
  obtain ⟨inter, hinter, hpattern⟩ := exists_unserializable hops' hshow
  obtain ⟨hmem, haddr, htid⟩ := hl inter hinter
  refine ⟨inter, hinter, ?_⟩
  by_cases hin : first.time < inter.time ∧ inter.time < second.time
  · exact Or.inr hin
  · exact Or.inl ⟨(nextAccess_keepsOrder hσ).mp hnext, hσ.mem_iff.mp hmem, haddr, htid, hin, hpattern⟩

/-- **The candidates by their meaning**: on the file of any log with ops `READ` or `WRITE` and
increasing times, `ci_list` holds two neighbouring accesses with a third one of another thread exactly
when the third, performed between them, shows, and it was not recorded there. -/
theorem candidates_not_atomic (log : List MemRef) (hops : OpsOk (log.map traceOf))
    (htime : TimesIncrease (log.map traceOf)) :
    ∃ mt, loadMemTraces (memFile log) = .ok mt ∧ ∀ order : List ℕ, order.Perm mt.keys →
      ∃ cis, predictor order mt = .ok cis ∧ ∀ first second inter, ⟨first, second, inter⟩ ∈ cis ↔
        NextAccess (log.map traceOf) first second ∧ inter ∈ log.map traceOf ∧
          inter.addr = first.addr ∧ inter.tid ≠ first.tid ∧
          ¬ (first.time < inter.time ∧ inter.time < second.time) ∧ ¬ Atomic first second [inter] := by
  obtain ⟨mt, hload, hrep⟩ := loadMemTraces_rep log
  refine ⟨mt, hload, fun order horder => ?_⟩
  obtain ⟨cis, hpred, -, hcis⟩ := predictor_spec hrep hops htime horder
  refine ⟨cis, hpred, fun first second inter => ?_⟩
  rw [hcis, violation_iff_not_atomic hops htime]

theorem candidates_not_atomic_balance :
    ∃ mt, loadMemTraces (memFile balanceLog) = .ok mt ∧ ∀ order : List ℕ, order.Perm mt.keys →
      ∃ cis, predictor order mt = .ok cis ∧ ∀ first second inter, ⟨first, second, inter⟩ ∈ cis ↔
        NextAccess (balanceLog.map traceOf) first second ∧ inter ∈ balanceLog.map traceOf ∧
          inter.addr = first.addr ∧ inter.tid ≠ first.tid ∧
          ¬ (first.time < inter.time ∧ inter.time < second.time) ∧ ¬ Atomic first second [inter] :=
  candidates_not_atomic balanceLog (by simp [OpsOk, balanceLog, traceOf, opRead, opWrite])
    (by simp [TimesIncrease, balanceLog, traceOf])

end Candidates

end Offline
end AVPredictor
