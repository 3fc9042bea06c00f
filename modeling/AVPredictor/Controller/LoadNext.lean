import AVPredictor.Controller.GroupFile
import AVPredictor.Controller.ReplayRuns

/-!
# AVPredictor.Controller.LoadNext — which lines of a group file get their turn

`main` calls `load_next_ci` once, and the callbacks call it again after each completed candidate.
The cursor stands behind the current candidate, and one exit test compares it, increased by one,
with `max_size`: the last cell of the arrays is never read.  In every run the m-th call makes line m
current and returns 1 for the lines before that cell, and all later calls return 0 (`loadInv_run`).
Every candidate can be completed (`exists_run_loads`), so a file with `max_size` lines loses its
last one.
-/

namespace AVPredictor
namespace Controller

open Base Offline

/-- The m-th call of `load_next_ci`, counted from 0, returned 1 and made line m current if there is
a line m, and returned 0 otherwise. -/
def IsTurn (lines : List Line) (m : ℕ) (e : ℕ × Ci) : Prop :=
  match lines[m]? with
  | some l => e = (1, l.ci)
  | none => e.1 = 0

/-- The lines get their turns, in order, each once. -/
def TakesTurns (lines : List Line) (loaded : List (ℕ × Ci)) : Prop :=
  ∀ m e, loaded[m]? = some e → IsTurn lines m e

/-! ## What the calls load -/

/-- The cursor and the calls of `load_next_ci` so far. -/
structure LoadInv (lines : List Line) (w : Watch) : Prop where
  cells : w.replay.ctl.cells = fun i => lines.getD i .zero
  ciCount : w.replay.ctl.ciCount = lines.length
  curCi : w.replay.ctl.curCi = min w.loaded.length (min lines.length (maxSize - 1))
  loaded : TakesTurns (lines.take (maxSize - 1)) w.loaded

section Load

variable {lines : List Line} {w w' : Watch} {a : Turn} {turns : List Turn}

/-- The call number `j` of `load_next_ci`. -/
theorem loadNextCi_turn {c : Ctl} {j : ℕ} (hcells : c.cells = fun i => lines.getD i .zero)
    (hcount : c.ciCount = lines.length) (hcur : c.curCi = min j (min lines.length (maxSize - 1))) :
    IsTurn (lines.take (maxSize - 1)) j (c.loadNextCi.2, c.loadNextCi.1.ci) ∧
      c.loadNextCi.1.curCi = min (j + 1) (min lines.length (maxSize - 1)) := by
  have hsize : maxSize = 32 := rfl
  by_cases hj : j < min lines.length (maxSize - 1)
  · have hcurj : c.curCi = j := by omega
    obtain ⟨hret, hci, hnext⟩ := loadNextCi_next (c := c) (by omega) (by omega)
    have hjl : j < lines.length := by omega
    have hline : (lines.take (maxSize - 1))[j]? = some lines[j] := by
      rw [List.getElem?_take_of_lt (by omega), List.getElem?_eq_getElem hjl]
    have hcell : c.cells c.curCi = lines[j] := by
      rw [hcells, hcurj]
      simp [List.getD, hjl]
    refine ⟨?_, by omega⟩
    rw [IsTurn, hline, hret, hci, hcell]
  · have hnone : (lines.take (maxSize - 1))[j]? = none := by
      rw [List.getElem?_eq_none_iff, List.length_take]
      omega
    rw [loadNextCi_none (c := c) (by omega)]
    refine ⟨?_, ?_⟩
    · rw [IsTurn, hnone]
    · show c.curCi = _
      omega

theorem takesTurns_concat {loaded : List (ℕ × Ci)} (h : TakesTurns lines loaded) {e : ℕ × Ci}
    (he : IsTurn lines loaded.length e) : TakesTurns lines (loaded ++ [e]) := by
  intro m e' hm
  by_cases hlt : m < loaded.length
  · rw [List.getElem?_append_left hlt] at hm
    exact h m e' hm
  · obtain ⟨hlen, -⟩ := List.getElem?_eq_some_iff.mp hm
    obtain rfl : m = loaded.length := by
      rw [List.length_append, List.length_singleton] at hlen
      omega
    rw [List.getElem?_concat_length] at hm
    obtain rfl := Option.some.inj hm
    exact he

theorem loadInv_start (lines : List Line) : LoadInv lines (.start lines) := by
  have hzero : (Ctl.loaded lines).curCi = min 0 (min lines.length (maxSize - 1)) := (Nat.zero_min _).symm
  have hrows : (Ctl.loaded lines).cells = fun i => lines.getD i .zero := rfl
  obtain ⟨hturn, hcur⟩ := loadNextCi_turn hrows rfl hzero
  obtain ⟨hcells, hcount⟩ := loadNextCi_cells (Ctl.loaded lines)
  have hnil : TakesTurns (lines.take (maxSize - 1)) [] := fun m e hm => absurd hm (by simp)
  exact ⟨hcells, hcount, hcur, takesTurns_concat hnil hturn⟩

/-- A turn that leaves the candidate as it is. -/
theorem LoadInv.same (h : LoadInv lines w) (hsame : SameCi w.replay.ctl w'.replay.ctl)
    (hl : w'.loaded = w.loaded) : LoadInv lines w' :=
  ⟨hsame.cells.trans h.cells, hsame.ciCount.trans h.ciCount, by rw [hsame.curCi, h.curCi, hl],
    hl ▸ h.loaded⟩

theorem LoadInv.turn (h : LoadInv lines w) (hturn : w.turn a = some w') : LoadInv lines w' := by
  cases turned_of_turn hturn with
  | load hrun hd hload =>
    obtain ⟨he, hcur⟩ := loadNextCi_turn h.cells h.ciCount h.curCi
    obtain ⟨hcells, hcount⟩ := loadNextCi_cells w.replay.ctl
    refine ⟨hcells.trans h.cells, hcount.trans h.ciCount, ?_, takesTurns_concat h.loaded he⟩
    rw [List.length_append]
    exact hcur
  | call hrun hd hload => exact h.same (call_frame hload) rfl
  | @wake tid d hrun hd => exact h.same (wake_frame _ d) rfl

/-- **What the calls load**, in every run: all lines but the one in the last cell. -/
theorem loadInv_run (hrun : run Watch.turn (.start lines) turns = some w) : LoadInv lines w :=
  run_invariant (fun _ _ _ h hturn => h.turn hturn) (loadInv_start lines) hrun

end Load

/-! ## Every candidate can be completed -/

/-- The call by which a role of the current candidate is marked. -/
def Ctl.marking (c : Ctl) (r : Role) : Call :=
  if c.isLockedType then .unlock r.unlock else .mem r.inst r.addr

/-- The program runs and nobody is delayed. -/
structure Watch.Idle (w : Watch) : Prop where
  running : w.replay.status = .running
  delayed : ∀ t, w.replay.delayed t = none

section Complete

variable {c : Ctl} {w : Watch} {lines : List Line}

theorem marks_marking (c : Ctl) (r : Role) : c.Marks r r.tid (c.marking r) := by
  unfold Ctl.marking
  cases hl : c.isLockedType with
  | true => exact ⟨hl, rfl, rfl⟩
  | false => exact ⟨hl, rfl, rfl, rfl⟩

theorem loads_marking (h : c.flags = (true, true, true)) (r : Role) : c.Loads (c.marking r) := by
  unfold Ctl.marking
  cases hl : c.isLockedType with
  | true => exact ⟨hl, h⟩
  | false => exact ⟨hl, h⟩

/-- A call that returns at once leaves the program idle. -/
theorem idle_turn (h : w.Idle) {tid : UInt32} {k : Call} {c' : Ctl}
    (hcall : w.replay.ctl.call tid k = (c', .done)) :
    ∃ w', w.turn (.call tid k) = some w' ∧ w'.Idle ∧ w'.replay.ctl = c' ∧
      w.loaded.length ≤ w'.loaded.length ∧
      (w.replay.ctl.Loads k → w'.loaded.length = w.loaded.length + 1) := by
  have hrep : w.replay.call tid k = some (w.replay.finish tid (c', .done)) := by
    rw [Replay.call, if_pos ⟨h.running, h.delayed tid⟩, hcall]
  refine ⟨_, by rw [Watch.turn, hrep]; rfl, ⟨rfl, finish_undelayed h.delayed rfl⟩, rfl, ?_, ?_⟩
  · show w.loaded.length ≤ (if _ then _ else _ : List _).length
    split_ifs <;> simp
  · intro hload
    simp [hload]

/-- From a fresh candidate: First, Inter, Second, and one more call, which loads. -/
theorem exists_run_load (h : w.Idle) (hflags : w.replay.ctl.flags = (false, false, false)) :
    ∃ turns w', run Watch.turn w turns = some w' ∧ w'.Idle ∧
      w'.replay.ctl.flags = (false, false, false) ∧ w.loaded.length + 1 ≤ w'.loaded.length := by
  obtain ⟨w1, h1, hidle1, hc1, hlen1, -⟩ := idle_turn h (call_marks_first hflags (marks_marking _ _))
  have hflags1 : w1.replay.ctl.flags = (true, false, false) := by
    simp only [Ctl.flags, Prod.mk.injEq] at hflags
    simp [hc1, Ctl.flags, hflags.2.1, hflags.2.2]
  obtain ⟨w2, h2, hidle2, hc2, hlen2, -⟩ := idle_turn hidle1 (call_marks_inter hflags1 (marks_marking _ _))
  have hflags2 : w2.replay.ctl.flags = (true, true, false) := by
    simp only [Ctl.flags, Prod.mk.injEq] at hflags1
    simp [hc2, Ctl.flags, hflags1.1, hflags1.2.2]
  obtain ⟨w3, h3, hidle3, hc3, hlen3, -⟩ := idle_turn hidle2 (call_marks_second hflags2 (marks_marking _ _))
  have hflags3 : w3.replay.ctl.flags = (true, true, true) := by
    simp only [Ctl.flags, Prod.mk.injEq] at hflags2
    simp [hc3, Ctl.flags, hflags2.1, hflags2.2.1]
  have hload := loads_marking hflags3 w3.replay.ctl.first
  have hcall : w3.replay.ctl.call w3.replay.ctl.first.tid _ = _ := call_loads hload
  obtain ⟨w4, h4, hidle4, hc4, -, hlen4⟩ := idle_turn hidle3 hcall
  have hnil : run Watch.turn w4 [] = some w4 := rfl
  have hlast := run_cons.mpr ⟨w3, h3, run_cons.mpr ⟨w4, h4, hnil⟩⟩
  have hrun := run_cons.mpr ⟨w1, h1, run_cons.mpr ⟨w2, h2, hlast⟩⟩
  refine ⟨_, w4, hrun, hidle4, hc4 ▸ flags_loadNextCi, ?_⟩
  · rw [hlen4 hload]
    omega

/-- **Every number of calls of `load_next_ci` is reached.** -/
theorem exists_run_loads (lines : List Line) (n : ℕ) :
    ∃ turns w, run Watch.turn (.start lines) turns = some w ∧ w.Idle ∧
      w.replay.ctl.flags = (false, false, false) ∧ n < w.loaded.length := by
  induction n with
  | zero => exact ⟨[], _, rfl, ⟨rfl, fun _ => rfl⟩, flags_loadNextCi, Nat.one_pos⟩
  | succ n ih =>
    obtain ⟨turns, w, hrun, hidle, hflags, hn⟩ := ih
    obtain ⟨turns', w', hrun', hidle', hflags', hlen⟩ := exists_run_load hidle hflags
    refine ⟨turns ++ turns', w', ?_, hidle', hflags', by omega⟩
    rw [run_append, hrun]
    exact hrun'

end Complete

/-! ## Group files -/

/-- The row that the loading loop fills from a line. -/
def rowOf (overflow : Bool → ℤ → UInt32) (l : LineNumbers) : Line := .fill (storedValues overflow l)

/-- In some run the last line of a full group is not loaded when its turn comes. -/
theorem exists_run_full {lines : List Line} (hfull : lines.length = maxSize) :
    ∃ turns w e, run Watch.turn (.start lines) turns = some w ∧ w.loaded[maxSize - 1]? = some e ∧ e.1 = 0 ∧
      ¬ TakesTurns lines w.loaded := by
  obtain ⟨turns, w, hrun, -, -, hn⟩ := exists_run_loads lines (maxSize - 1)
  obtain ⟨e, he⟩ : ∃ e, w.loaded[maxSize - 1]? = some e := ⟨_, List.getElem?_eq_getElem hn⟩
  have hsize : maxSize = 32 := rfl
  have hgot := (loadInv_run hrun).loaded _ e he
  rw [IsTurn, List.getElem?_eq_none (by rw [List.length_take]; omega)] at hgot
  refine ⟨turns, w, e, hrun, he, hgot, ?_⟩
  intro h
  have hwant := h _ e he
  rw [IsTurn, List.getElem?_eq_getElem (by omega)] at hwant
  rw [hwant] at hgot
  exact absurd hgot Nat.one_ne_zero

/-- **Every line gets its turn exactly when the file has fewer than `max_size` lines**: of the files
that fit in the arrays, only the full ones are treated wrongly. -/
theorem takesTurns_iff {overflow : Bool → ℤ → UInt32} {ls : List LineNumbers} (hlen : ls.length ≤ maxSize) :
    (∀ turns w, run Watch.turn (.start (loadGroup overflow (ls.flatMap LineNumbers.msgStr))) turns = some w →
        TakesTurns (ls.map (rowOf overflow)) w.loaded) ↔
      ls.length < maxSize := by
  have hload : loadGroup overflow (ls.flatMap LineNumbers.msgStr) = ls.map (rowOf overflow) :=
    loadLines_msgs hlen
  rw [hload]
  constructor
  · intro h
    by_contra hfull
    have hmap : (ls.map (rowOf overflow)).length = ls.length := List.length_map _
    obtain ⟨turns, w, e, hrun, -, -, hnot⟩ := exists_run_full (hmap.trans (by omega))
    exact hnot (h turns w hrun)
  · intro hlt turns w hrun
    have hturns := (loadInv_run hrun).loaded
    rwa [List.take_of_length_le (by rw [List.length_map]; omega)] at hturns

/-- Lines for triples of accesses to words in a row. -/
def wordLines (n : ℕ) : List LineNumbers :=
  (List.range n).map fun i => identifier (resultAt (134600000 + 4 * i))

theorem takesTurns_iff_words :
    (∀ turns w, run Watch.turn (.start (loadGroup lowHalf ((wordLines 31).flatMap LineNumbers.msgStr))) turns =
          some w →
        TakesTurns ((wordLines 31).map (rowOf lowHalf)) w.loaded) ↔
      (wordLines 31).length < maxSize :=
  takesTurns_iff (by decide)

/-- A file of 32 lines: call 32 of `load_next_ci` returns 0. -/
theorem last_line_skipped :
    ∃ turns w e,
      run Watch.turn (.start (loadGroup lowHalf ((wordLines 32).flatMap LineNumbers.msgStr))) turns = some w ∧
        w.loaded[31]? = some e ∧ e.1 = 0 ∧ ¬ TakesTurns ((wordLines 32).map (rowOf lowHalf)) w.loaded := by
  have hload : loadGroup lowHalf ((wordLines 32).flatMap LineNumbers.msgStr) = (wordLines 32).map (rowOf lowHalf) :=
    loadLines_msgs (by decide)
  rw [hload]
  exact exists_run_full (by decide)

end Controller
end AVPredictor
