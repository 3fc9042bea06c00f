import AVPredictor.Controller.LoadNext

/-!
# AVPredictor.Controller.Handover — from one candidate to the next

When all three flags are set, the next candidate is not loaded at once: the next callback of the
old candidate's type runs `load_next_ci` and returns, whatever its arguments are, and a callback of
the other type returns before it looks at the flags.  So First of the next candidate is seen exactly
when some callback of the old candidate's type came between (`handed_over_iff`); after it the fresh
candidate waits for its First undisturbed (`fresh_run`).
-/

namespace AVPredictor
namespace Controller

open Base

/-- The call matches First of a line: its access, or its unlock. -/
def Line.MatchesFirst (l : Line) (tid : UInt32) : Call → Prop
  | .mem ip addr => l.type = 0 ∧ tid = l.firstId ∧ ip = l.firstArg1 ∧ addr = l.firstArg2
  | .lock _ => False
  | .unlock callsiteV => l.type ≠ 0 ∧ tid = l.firstId ∧ callsiteV = l.firstArg2

instance (l : Line) (tid : UInt32) (k : Call) : Decidable (l.MatchesFirst tid k) :=
  match k with
  | .mem _ _ => inferInstanceAs (Decidable (_ ∧ _))
  | .lock _ => inferInstanceAs (Decidable False)
  | .unlock _ => inferInstanceAs (Decidable (_ ∧ _))

/-- No call of the turns matches First of the line. -/
def NoFirst (l : Line) (turns : List Turn) : Prop := ∀ t k, Turn.call t k ∈ turns → ¬ l.MatchesFirst t k

/-- Some call of the turns is of the type of the candidate, all of whose flags are set. -/
def SomeLoad (c : Ctl) (turns : List Turn) : Prop := ∃ t k, Turn.call t k ∈ turns ∧ c.Loads k

section Handover

variable {c : Ctl} {tid : UInt32} {k : Call} {l : Line} {s s' s₁ s₂ : Replay} {a : Turn}
  {lines : List Line} {turns between : List Turn}

/-- With the line current, its First is First of the registers. -/
theorem marks_first_iff (h : c.ci = l.ci) : c.Marks c.first tid k ↔ l.MatchesFirst tid k := by
  obtain ⟨ciCount, curCi, cells, locked, first, second, inter, b1, b2, b3, n⟩ := c
  simp only [Ctl.ci, Line.ci, Ci.mk.injEq] at h
  obtain ⟨htype, hfirst, -⟩ := h
  by_cases hz : l.type = 0
  · obtain rfl : locked = false := by simpa [hz] using htype
    simp only [Role.args, Bool.false_eq_true, if_false, Prod.mk.injEq] at hfirst
    cases k with
    | mem ip addr => simp [Ctl.Marks, Line.MatchesFirst, hz, hfirst.1, hfirst.2.1, hfirst.2.2]
    | lock callsiteV => exact Iff.rfl
    | unlock callsiteV => simp [Ctl.Marks, Line.MatchesFirst, hz]
  · obtain rfl : locked = true := by simpa [hz] using htype
    simp only [Role.args, if_true, Prod.mk.injEq] at hfirst
    cases k with
    | mem ip addr => simp [Ctl.Marks, Line.MatchesFirst, hz]
    | lock callsiteV => exact Iff.rfl
    | unlock callsiteV => simp [Ctl.Marks, Line.MatchesFirst, hz, hfirst.1, hfirst.2.2]

/-! ## A fresh candidate -/

theorem wake_flags (hflags : c.flags = (false, false, false)) (d : Delay) :
    (c.wake d).1.flags = (false, false, false) := by
  obtain ⟨ciCount, curCi, cells, locked, first, second, inter, b1, b2, b3, n⟩ := c
  obtain ⟨rfl, rfl, rfl⟩ : b1 = false ∧ b2 = false ∧ b3 = false := by simpa [Ctl.flags] using hflags
  unfold Ctl.wake
  cases d with
  | memInter ip addr => simp only [Bool.false_eq_true, if_false]; split_ifs <;> rfl
  | memSecond ip addr => simp only [Bool.false_eq_true, if_false]; split_ifs <;> rfl
  | lockInter callsiteV => simp only; split_ifs <;> rfl
  | lockSecond callsiteV => simp only; split_ifs <;> rfl

/-- Until its First comes, a fresh candidate stays fresh. -/
theorem fresh_turn (hflags : s.ctl.flags = (false, false, false)) (hci : s.ctl.ci = l.ci)
    (hfirst : ∀ t k, a = .call t k → ¬ l.MatchesFirst t k) (hturn : s.turn a = some s') :
    s'.ctl.flags = (false, false, false) ∧ SameCi s.ctl s'.ctl := by
  cases a with
  | call t k =>
    obtain ⟨-, -, rfl⟩ := replay_call hturn
    have hload : ¬ s.ctl.Loads k := by
      intro hload
      exact absurd (hflags.symm.trans hload.flags) (by simp)
    refine ⟨?_, call_frame hload⟩
    have heff : Effect s.ctl t k (s.ctl.call t k).1 := call_spec.effect
    show (s.ctl.call t k).1.flags = _
    generalize (s.ctl.call t k).1 = c' at heff
    cases heff with
    | quiet n => exact hflags
    | first hf hm => exact absurd ((marks_first_iff hci).mp hm) (hfirst t k rfl)
    | inter n hf hm => exact absurd (hflags.symm.trans hf) (by simp)
    | second n hf hm => exact absurd (hflags.symm.trans hf) (by simp)
    | load hf => exact absurd (hflags.symm.trans hf) (by simp)
  | wake t =>
    obtain ⟨d, -, -, rfl⟩ := replay_wake hturn
    exact ⟨wake_flags hflags d, wake_frame _ d⟩

/-- **A fresh candidate waits for its First.** -/
theorem fresh_run (hflags : s.ctl.flags = (false, false, false)) (hci : s.ctl.ci = l.ci)
    (hfirst : NoFirst l between) (hrun : run Replay.turn s between = some s₁) :
    s₁.ctl.flags = (false, false, false) ∧ SameCi s.ctl s₁.ctl := by
  induction between generalizing s with
  | nil =>
    obtain rfl := Option.some.inj hrun
    exact ⟨hflags, rfl, rfl, rfl, rfl⟩
  | cons a between ih =>
    obtain ⟨s', hturn, hrest⟩ := run_cons.mp hrun
    have hhead : ∀ t k, a = .call t k → ¬ l.MatchesFirst t k := by
      rintro t k rfl
      exact hfirst t k List.mem_cons_self
    obtain ⟨hflags', hsame⟩ := fresh_turn hflags hci hhead hturn
    obtain ⟨hflags₁, hsame₁⟩ := ih hflags' (hsame.ci.trans hci)
      (fun t k hmem => hfirst t k (List.mem_cons_of_mem a hmem)) hrest
    exact ⟨hflags₁, hsame.trans hsame₁⟩

/-- First of a fresh candidate is seen. -/
theorem fresh_first (hflags : s₁.ctl.flags = (false, false, false)) (hci : s₁.ctl.ci = l.ci)
    (hmatch : l.MatchesFirst tid k) (hcall : s₁.call tid k = some s₂) :
    s₂.ctl.ci = l.ci ∧ s₂.ctl.curCi = s₁.ctl.curCi ∧ s₂.ctl.firstReady = true := by
  obtain ⟨-, -, rfl⟩ := replay_call hcall
  have hctl : (s₁.finish tid (s₁.ctl.call tid k)).ctl = { s₁.ctl with firstReady := true } :=
    congrArg Prod.fst (call_marks_first hflags ((marks_first_iff hci).mpr hmatch))
  rw [hctl]
  exact ⟨hci, rfl, rfl⟩

/-! ## The last cell -/

/-- At the last cell the cursor stays. -/
theorem curCi_turn (hmax : s.ctl.curCi + 1 = maxSize) (hturn : s.turn a = some s') :
    s'.ctl.curCi + 1 = maxSize := by
  cases a with
  | call t k =>
    obtain ⟨-, -, rfl⟩ := replay_call hturn
    by_cases hload : s.ctl.Loads k
    · rw [finish_loads hload, loadNextCi_none (Or.inl hmax)]
      exact hmax
    · have hframe : (s.finish t (s.ctl.call t k)).ctl.curCi = s.ctl.curCi := (call_frame hload).curCi
      rw [hframe]
      exact hmax
  | wake t =>
    obtain ⟨d, -, -, rfl⟩ := replay_wake hturn
    have hframe : (s.finish t (s.ctl.wake d)).ctl.curCi = s.ctl.curCi := (wake_frame _ d).curCi
    rw [hframe]
    exact hmax

/-! ## The hand-over -/

theorem someLoad_cons : SomeLoad c (.call tid k :: between) ↔ c.Loads k ∨ SomeLoad c between := by
  constructor
  · rintro ⟨t, k', hmem, hload⟩
    rcases List.mem_cons.mp hmem with heq | hmem
    · obtain ⟨-, rfl⟩ := Turn.call.inj heq
      exact Or.inl hload
    · exact Or.inr ⟨t, k', hmem, hload⟩
  · rintro (hload | ⟨t, k', hmem, hload⟩)
    · exact ⟨tid, k, List.mem_cons_self, hload⟩
    · exact ⟨t, k', List.mem_cons_of_mem _ hmem, hload⟩

/-- A call right after completion is not matched: it loads, or does nothing. -/
theorem complete_call (hflags : s.ctl.flags = (true, true, true)) (hcall : s.call tid k = some s') :
    s'.ctl.firstReady = false ∨ s'.ctl.curCi = s.ctl.curCi := by
  obtain ⟨-, -, rfl⟩ := replay_call hcall
  by_cases hload : s.ctl.Loads k
  · have hfresh := flags_loadNextCi (c := s.ctl)
    simp only [Ctl.flags, Prod.mk.injEq] at hfresh
    rw [finish_loads hload]
    exact Or.inl hfresh.1
  · exact Or.inr (congrArg Ctl.curCi (call_complete hflags hload))

/-- After a call that loads line `l`, the first call that matches First of `l` is seen. -/
theorem load_first (hload : s.ctl.Loads k) (hcall : s.call tid k = some s')
    (hnext : s.ctl.curCi < s.ctl.ciCount) (hmax : s.ctl.curCi + 1 ≠ maxSize)
    (hcell : s.ctl.cells s.ctl.curCi = l) (hfirst : NoFirst l between)
    (hrun : run Replay.turn s' between = some s₁) {t : UInt32} {k' : Call} (hmatch : l.MatchesFirst t k')
    (hlast : s₁.call t k' = some s₂) :
    s₂.ctl.ci = l.ci ∧ s₂.ctl.curCi = s.ctl.curCi + 1 ∧ s₂.ctl.firstReady = true := by
  obtain ⟨-, -, rfl⟩ := replay_call hcall
  have hctl : (s.finish tid (s.ctl.call tid k)).ctl = s.ctl.loadNextCi.1 := finish_loads hload
  obtain ⟨-, hci, hcur⟩ := loadNextCi_next hmax hnext
  rw [← hctl, hcell] at hci
  rw [← hctl] at hcur
  have hflags : (s.finish tid (s.ctl.call tid k)).ctl.flags = (false, false, false) :=
    hctl ▸ flags_loadNextCi
  obtain ⟨hfresh, hsame⟩ := fresh_run hflags hci hfirst hrun
  obtain ⟨hci', hcur', hready⟩ := fresh_first hfresh (hsame.ci.trans hci) hmatch hlast
  exact ⟨hci', hcur'.trans (hsame.curCi.trans hcur), hready⟩

/-- From a complete candidate with line `l` next: the first call that matches First of `l`. -/
theorem handover_run (hinv : ReplayInv s) (hflags : s.ctl.flags = (true, true, true))
    (hnext : s.ctl.curCi < s.ctl.ciCount) (hcell : s.ctl.cells s.ctl.curCi = l)
    (hfirst : NoFirst l between) (hrun : run Replay.turn s between = some s₁)
    (hmatch : l.MatchesFirst tid k) (hcall : s₁.call tid k = some s₂) :
    (s₂.ctl.ci = l.ci ∧ s₂.ctl.curCi = s.ctl.curCi + 1 ∧ s₂.ctl.firstReady = true) ↔
      SomeLoad s.ctl between ∧ s.ctl.curCi + 1 ≠ maxSize := by
  induction between generalizing s with
  | nil =>
    obtain rfl := Option.some.inj hrun
    refine iff_of_false ?_ ?_
    · rintro ⟨-, hcur, hready⟩
      rcases complete_call hflags hcall with hfalse | hsame
      · exact absurd (hfalse.symm.trans hready) (by simp)
      · omega
    · rintro ⟨⟨t, k', hmem, -⟩, -⟩
      exact absurd hmem (by simp)
  | cons a between ih =>
    obtain ⟨s', hturn, hrest⟩ := run_cons.mp hrun
    have htail : NoFirst l between := fun t k hmem => hfirst t k (List.mem_cons_of_mem a hmem)
    cases a with
    | wake t =>
      obtain ⟨d, -, hd, -⟩ := replay_wake hturn
      exact absurd ((hinv.nobody_delayed hflags t).symm.trans hd) (by simp)
    | call t k' =>
      rw [someLoad_cons]
      by_cases hload : s.ctl.Loads k'
      · -- line l is loaded, unless it is in the last cell
        by_cases hmax : s.ctl.curCi + 1 = maxSize
        · refine iff_of_false ?_ (fun h => h.2 hmax)
          rintro ⟨-, hcur, -⟩
          have hall : run Replay.turn s (.call t k' :: between ++ [.call tid k]) = some s₂ := by
            rw [run_append, hrun]
            exact run_cons.mpr ⟨s₂, hcall, rfl⟩
          have hstay : s₂.ctl.curCi + 1 = maxSize :=
            run_invariant (P := fun r => r.ctl.curCi + 1 = maxSize) (fun _ _ _ h ht => curCi_turn h ht)
              hmax hall
          omega
        · exact iff_of_true (load_first hload hturn hnext hmax hcell htail hrest hmatch hcall)
            ⟨Or.inl hload, hmax⟩
      · -- a callback of the other type, or a lock: nothing happens
        have hinv' := hinv.turn hturn
        obtain ⟨-, -, rfl⟩ := replay_call hturn
        have hctl : (s.finish t (s.ctl.call t k')).ctl = s.ctl := call_complete hflags hload
        have hih := ih hinv' (by rwa [hctl]) (by rwa [hctl]) (by rwa [hctl]) htail hrest
        rw [hctl] at hih
        rwa [or_iff_right hload]

/-- The arrays of every run are those that `main` has loaded. -/
theorem cells_run (hrun : run Replay.turn (.start lines) turns = some s) :
    (s.ctl.cells = fun i => lines.getD i .zero) ∧ s.ctl.ciCount = lines.length := by
  have hmap : (run Watch.turn (.start lines) turns).map Watch.replay = some s := (run_replay _ _).trans hrun
  obtain ⟨w, hw, rfl⟩ := Option.map_eq_some_iff.mp hmap
  exact ⟨(loadInv_run hw).cells, (loadInv_run hw).ciCount⟩

/-- **The hand-over**: when a candidate is complete and line `l` is next, the first call that matches
First of `l` makes it the current candidate's First exactly when a callback of the old candidate's
type came before it, and `l` is not in the last cell of the arrays. -/
theorem handed_over_iff (hrun : run Replay.turn (.start lines) turns = some s)
    (hflags : s.ctl.flags = (true, true, true)) (hnext : lines[s.ctl.curCi]? = some l)
    (hbetween : run Replay.turn s between = some s₁) (hfirst : NoFirst l between)
    (hmatch : l.MatchesFirst tid k) (hcall : s₁.call tid k = some s₂) :
    (s₂.ctl.ci = l.ci ∧ s₂.ctl.curCi = s.ctl.curCi + 1 ∧ s₂.ctl.firstReady = true) ↔
      SomeLoad s.ctl between ∧ s.ctl.curCi + 1 ≠ maxSize := by
  obtain ⟨hcells, hcount⟩ := cells_run hrun
  obtain ⟨hlt, hget⟩ := List.getElem?_eq_some_iff.mp hnext
  have hcell : s.ctl.cells s.ctl.curCi = l := by
    rw [hcells]
    simp [List.getD, hnext]
  exact handover_run (replayInv_run hrun) hflags (hcount ▸ hlt) hcell hfirst hbetween hmatch hcall

end Handover

/-- A candidate to come after `accessLine`. -/
def nextLine : Line :=
  { type := 0
    firstId := 1, firstArg1 := 0x8048500, firstArg2 := 68
    secondId := 1, secondArg1 := 0x8048600, secondArg2 := 68
    interId := 2, interArg1 := 0x8048700, interArg2 := 68 }

theorem completeTurns_isSome : (run Replay.turn (.start [accessLine, nextLine]) completeTurns).isSome = true := by
  decide

/-- The first of the two candidates is complete. -/
def firstDone : Replay := (run Replay.turn (.start [accessLine, nextLine]) completeTurns).get completeTurns_isSome

theorem other_isSome : (run Replay.turn firstDone [.call 3 (.mem 0x8048400 72)]).isSome = true := by
  decide

theorem nextFirst_isSome :
    (((run Replay.turn firstDone [.call 3 (.mem 0x8048400 72)]).get other_isSome).call 1
      (.mem 0x8048500 68)).isSome = true := by
  decide

/-- An access of a third thread comes in between. -/
theorem handed_over_other :
    let s₂ := (((run Replay.turn firstDone [.call 3 (.mem 0x8048400 72)]).get other_isSome).call 1
      (.mem 0x8048500 68)).get nextFirst_isSome
    (s₂.ctl.ci = nextLine.ci ∧ s₂.ctl.curCi = firstDone.ctl.curCi + 1 ∧ s₂.ctl.firstReady = true) ↔
      SomeLoad firstDone.ctl [.call 3 (.mem 0x8048400 72)] ∧ firstDone.ctl.curCi + 1 ≠ maxSize :=
  handed_over_iff (Option.some_get completeTurns_isSome).symm (show firstDone.ctl.flags = _ by decide)
    (show [accessLine, nextLine][firstDone.ctl.curCi]? = _ by decide) (Option.some_get other_isSome).symm
    (by
      intro t k hmem
      obtain ⟨rfl, rfl⟩ := Turn.call.inj (List.mem_singleton.mp hmem)
      decide)
    (by decide) (Option.some_get nextFirst_isSome).symm

/-- First of the next candidate comes right after the completion, and is lost. -/
theorem next_first_lost :
    run Replay.turn (.start [accessLine, nextLine]) completeTurns = some firstDone ∧
      firstDone.ctl.flags = (true, true, true) ∧ [accessLine, nextLine][firstDone.ctl.curCi]? = some nextLine ∧
      nextLine.MatchesFirst 1 (.mem 0x8048500 68) ∧
      ∃ s₂, firstDone.call 1 (.mem 0x8048500 68) = some s₂ ∧ s₂.ctl.ci = nextLine.ci ∧
        s₂.ctl.firstReady = false := by
  refine ⟨(Option.some_get completeTurns_isSome).symm, ?_, ?_, ?_, _, rfl, ?_, ?_⟩
  · decide
  · decide
  · decide
  · decide
  · decide

end Controller
end AVPredictor
