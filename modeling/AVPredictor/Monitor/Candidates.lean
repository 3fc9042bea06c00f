import AVPredictor.Monitor.Record
import AVPredictor.Offline.Atomicity
import AVPredictor.Offline.Analysis

/-!
# AVPredictor.Monitor.Candidates — what the analyser predicts of a monitored run

`read` is 0 for a read in `monitor.cpp` and 1 in `offline_modules.py`, so the patterns of `predictor`
are tested on the inverted ops.  Of the accesses really made, the candidates are the triples for which
being a violation and having the same op at both ends are the same (`recorded_candidates`): the
violations R-W-R and W-R-W, and the harmless W-R-R and R-R-W; the violations R-W-W and W-W-R never are.
-/

namespace AVPredictor
namespace Monitor

open Base Offline

/-! ## Inverted logs -/

section Invert

variable {log log' : List Trace} {first second inter : Trace}

/-- Neighbouring accesses of the inverted log are those of the log. -/
theorem nextAccess_map_invertOp {x y : Trace} :
    NextAccess (log.map invertOp) x y ↔
      ∃ first second, NextAccess log first second ∧ x = invertOp first ∧ y = invertOp second := by
  rw [nextAccess_iff, accesses_invertOp, consecutive_map, List.mem_map]
  constructor
  · rintro ⟨⟨first, second⟩, hmem, heq⟩
    obtain ⟨rfl, rfl⟩ := Prod.mk.inj heq
    exact ⟨first, second, nextAccess_iff.mpr hmem, rfl, rfl⟩
  · rintro ⟨first, second, hnext, rfl, rfl⟩
    exact ⟨(first, second), nextAccess_iff.mp hnext, rfl⟩

theorem opsOk_map_invertOp (log : List Trace) : OpsOk (log.map invertOp) := by
  intro x hx
  obtain ⟨y, -, rfl⟩ := List.mem_map.mp hx
  unfold invertOp
  simp only
  split_ifs <;> simp

theorem timesIncrease_map_invertOp (h : TimesIncrease log) : TimesIncrease (log.map invertOp) :=
  List.pairwise_map.mpr h

theorem timesIncrease_keepsOrder (h : KeepsOrder Trace.tid log log') (htime : TimesIncrease log) :
    TimesIncrease log' := by
  have hkey : KeepsOrder (fun x : Trace => (x.addr, x.tid)) log log' := by
    intro k
    exact h.filter_eq (t := k.2) fun x hx => congrArg Prod.snd (of_decide_eq_true hx)
  have hordered : TimeOrdered (fun x : Trace => (x.addr, x.tid)) Trace.time log :=
    htime.imp fun hab heq => hab (congrArg Prod.fst heq) (congrArg Prod.snd heq)
  exact (hkey.timeOrdered hordered).imp fun hab haddr htid => hab (Prod.ext haddr htid)

/-- A pattern of inverted ops: a pattern with one op at both ends, or no pattern and two. -/
theorem unserializable_invertOp (hops : OpsOk [first, second, inter]) :
    Unserializable (invertOp first).op (invertOp inter).op (invertOp second).op ↔
      (Unserializable first.op inter.op second.op ↔ first.op = second.op) := by
  have hf := hops first (by simp)
  have hs := hops second (by simp)
  have hi := hops inter (by simp)
  rcases hf with hf | hf <;> rcases hs with hs | hs <;> rcases hi with hi | hi <;>
    simp [invertOp, Unserializable, hf, hs, hi, opRead, opWrite]

/-- The violations of the inverted log by the accesses of the log. -/
theorem violation_map_invertOp (hops : OpsOk log) (htime : TimesIncrease log) {ci : CI} :
    Violation (log.map invertOp) ci ↔ ∃ first second inter, ci = ⟨invertOp first, invertOp second, invertOp inter⟩ ∧
      NextAccess log first second ∧ inter ∈ log ∧ inter.addr = first.addr ∧ inter.tid ≠ first.tid ∧
      ¬ (first.time < inter.time ∧ inter.time < second.time) ∧
      (¬ Atomic first second [inter] ↔ first.op = second.op) := by
  have hpattern : ∀ {first second inter : Trace}, NextAccess log first second → inter ∈ log → inter.tid ≠ first.tid →
      (Unserializable (invertOp first).op (invertOp inter).op (invertOp second).op ↔
        (¬ Atomic first second [inter] ↔ first.op = second.op)) := by
    intro first second inter hnext hmem htid
    have hlt := rel_of_consecutive (htime.accesses first.addr first.tid) (nextAccess_iff.mp hnext)
    have hthree : OpsOk [first, second, inter] := by
      simp only [OpsOk, List.forall_mem_cons]
      exact ⟨hops _ hnext.left_mem, hops _ hnext.right_mem, hops _ hmem, by simp⟩
    rw [unserializable_invertOp hthree,
      unserializable_iff hthree (fun heq => absurd hlt (by rw [heq]; omega)) htid.symm
      (by rw [hnext.tid_eq]; exact htid.symm)]
  constructor
  · rintro ⟨hnext, hmem, haddr, htid, hout, hpat⟩
    obtain ⟨first, second, hreal, hfirst, hsecond⟩ := nextAccess_map_invertOp.mp hnext
    obtain ⟨inter, hinter, heq⟩ := List.mem_map.mp hmem
    obtain ⟨x, y, z⟩ := ci
    simp only at hfirst hsecond heq
    subst hfirst hsecond heq
    exact ⟨first, second, inter, rfl, hreal, hinter, haddr, htid, hout, (hpattern hreal hinter htid).mp hpat⟩
  · rintro ⟨first, second, inter, rfl, hreal, hinter, haddr, htid, hout, hpat⟩
    exact ⟨nextAccess_map_invertOp.mpr ⟨first, second, hreal, rfl, rfl⟩,
      List.mem_map_of_mem hinter, haddr, htid, hout,
      (hpattern hreal hinter htid).mpr hpat⟩

end Invert

/-! ## The candidates of a run -/

theorem opsOk_made (run : List Event) : OpsOk (made run) := by
  intro x hx
  obtain ⟨e, -, rfl⟩ := List.mem_map.mp hx
  unfold accessOf
  split_ifs <;> simp

/-- The loaded records are the accesses of the run, inverted, in the order of each thread. -/
theorem keepsOrder_made {run : List Event} {flushed : List MemRef} (hone : ∀ e ∈ execs run, OneAccess e)
    (hkeep : KeepsOrder MemRef.tid ((execs run).flatMap recordsOf) flushed) :
    KeepsOrder Trace.tid ((made run).map invertOp) (flushed.map traceOf) := by
  rw [made, ← map_traceOf_recordsOf hone]
  exact hkeep.map (fun _ _ => UInt32.toNat_inj.mp) (fun _ => rfl)

/-- **The candidates of a monitored run**: whatever the interleaving and the order of the flushes,
`ci_list` holds, with every op inverted, two neighbouring accesses of a thread and a third one of
another thread outside them, exactly when both or neither hold: the third shows between them, and they
have the same op. -/
theorem recorded_candidates {run : List Event} (hone : ∀ e ∈ execs run, OneAccess e) (hfl : Flushed run)
    (htime : TimesIncrease (made run)) :
    ∃ mt, loadMemTraces (record run).fileMem = .ok mt ∧ ∀ order : List ℕ, order.Perm mt.keys →
      ∃ cis, predictor order mt = .ok cis ∧ cis.Nodup ∧
        ∀ ci, ci ∈ cis ↔ ∃ first second inter, ci = ⟨invertOp first, invertOp second, invertOp inter⟩ ∧
          NextAccess (made run) first second ∧ inter ∈ made run ∧ inter.addr = first.addr ∧ inter.tid ≠ first.tid ∧
          ¬ (first.time < inter.time ∧ inter.time < second.time) ∧
          (¬ Atomic first second [inter] ↔ first.op = second.op) := by
  obtain ⟨flushed, hfile, hkeep⟩ := recorded_keepsOrder hfl
  obtain ⟨mt, hload, hrep⟩ := loadMemTraces_rep flushed
  have hk := keepsOrder_made hone hkeep
  have hops : OpsOk (flushed.map traceOf) := fun x hx => opsOk_map_invertOp (made run) x (hk.mem_iff.mp hx)
  refine ⟨mt, by rw [hfile, hload], fun order horder => ?_⟩
  obtain ⟨cis, hpred, hnodup, hmem⟩ :=
    predictor_spec hrep hops (timesIncrease_keepsOrder hk (timesIncrease_map_invertOp htime)) horder
  refine ⟨cis, hpred, hnodup, fun ci => ?_⟩
  rw [hmem, ← violation_map_invertOp (opsOk_made run) htime]
  exact ⟨fun h => h.keepsOrder fun t => (hk t).symm, fun h => h.keepsOrder hk⟩

theorem recorded_candidates_updateRun :
    ∃ mt, loadMemTraces (record updateRun).fileMem = .ok mt ∧ ∀ order : List ℕ, order.Perm mt.keys →
      ∃ cis, predictor order mt = .ok cis ∧ cis.Nodup ∧
        ∀ ci, ci ∈ cis ↔ ∃ first second inter, ci = ⟨invertOp first, invertOp second, invertOp inter⟩ ∧
          NextAccess (made updateRun) first second ∧ inter ∈ made updateRun ∧ inter.addr = first.addr ∧
          inter.tid ≠ first.tid ∧ ¬ (first.time < inter.time ∧ inter.time < second.time) ∧
          (¬ Atomic first second [inter] ↔ first.op = second.op) :=
  recorded_candidates oneAccess_updateRun flushed_updateRun (by unfold TimesIncrease; decide)

end Monitor
end AVPredictor
