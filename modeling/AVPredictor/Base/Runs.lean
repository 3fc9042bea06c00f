import Mathlib.Data.List.Basic

/-!
# AVPredictor.Base.Runs — runs of a step function

A system is a partial step function `step : σ → α → Option σ`: action `a` is possible in `s` when
`step s a` is some state.  `run step s as` does the actions one after the other.  The rules for what
holds after a run: of every state reached (`run_invariant`), and of every state reached by steps
that each meet a condition on the state before them (`run_invariant_of_meets`).  `Within` says that a
state can be reached in so many steps; the bounds add up along the way (`Within.trans`).
-/

namespace AVPredictor
namespace Base

section Runs

variable {σ α : Type} (step : σ → α → Option σ)

/-- The state after the actions, if each is possible. -/
def run : σ → List α → Option σ
  | s, [] => some s
  | s, a :: as => (step s a).bind fun s' => run s' as

/-- Every step of the run meets `cond` in the state before it. -/
def Meets (cond : σ → α → Prop) : σ → List α → Prop
  | _, [] => True
  | s, a :: as => cond s a ∧ ∀ s', step s a = some s' → Meets cond s' as

/-- Whether every step of a run meets a decidable condition can be computed. -/
instance decidableMeets (cond : σ → α → Prop) [∀ s a, Decidable (cond s a)] :
    ∀ s as, Decidable (Meets step cond s as)
  | _, [] => isTrue trivial
  | s, a :: as =>
    match h : step s a with
    | none => decidable_of_iff (cond s a) (by simp [Meets, h])
    | some s1 =>
      have := decidableMeets cond s1 as
      decidable_of_iff (cond s a ∧ Meets step cond s1 as) (by simp [Meets, h])

variable {step}

theorem run_cons {s s' : σ} {a : α} {as : List α} :
    run step s (a :: as) = some s' ↔ ∃ s1, step s a = some s1 ∧ run step s1 as = some s' := by
  rw [run, Option.bind_eq_some_iff]

theorem run_append {s : σ} {as bs : List α} :
    run step s (as ++ bs) = (run step s as).bind fun s' => run step s' bs := by
  induction as generalizing s with
  | nil => rfl
  | cons a as ih =>
    rw [List.cons_append, run, run, Option.bind_assoc]
    exact congrArg _ (funext fun s' => ih)

/-- **Forgetting an observer**: when each step of a system is, seen through `f`, a step of another
one, its runs are runs of the other. -/
theorem run_map {τ : Type} {step' : τ → α → Option τ} {f : σ → τ}
    (hstep : ∀ s a, (step s a).map f = step' (f s) a) (s : σ) (as : List α) :
    (run step s as).map f = run step' (f s) as := by
  induction as generalizing s with
  | nil => rfl
  | cons a as ih =>
    rw [run, run, Option.map_bind, ← hstep, Option.bind_map]
    exact congrArg _ (funext fun s' => ih s')

/-- **Invariants of conditional runs**: what the steps that meet the condition preserve. -/
theorem run_invariant_of_meets {cond : σ → α → Prop} {P : σ → Prop}
    (hstep : ∀ s a s', P s → cond s a → step s a = some s' → P s') {s s' : σ} {as : List α} (hs : P s)
    (hmeets : Meets step cond s as) (hrun : run step s as = some s') : P s' := by
  induction as generalizing s with
  | nil =>
    obtain rfl := Option.some.inj hrun
    exact hs
  | cons a as ih =>
    obtain ⟨s1, h1, hrest⟩ := run_cons.mp hrun
    exact ih (hstep s a s1 hs hmeets.1 h1) (hmeets.2 s1 h1) hrest

/-- **Conditions along a run**: where an invariant that the steps keep makes one condition imply
another for the possible steps, a run that meets the first meets the second. -/
theorem meets_imp {cond cond' : σ → α → Prop} {P : σ → Prop}
    (hstep : ∀ s a s', P s → cond s a → step s a = some s' → P s')
    (himp : ∀ s a s', P s → step s a = some s' → cond s a → cond' s a) {s s' : σ} {as : List α}
    (hs : P s) (hrun : run step s as = some s') (hmeets : Meets step cond s as) :
    Meets step cond' s as := by
  induction as generalizing s with
  | nil => trivial
  | cons a as ih =>
    obtain ⟨s1, h1, hrest⟩ := run_cons.mp hrun
    refine ⟨himp s a s1 hs h1 hmeets.1, ?_⟩
    intro s2 h2
    obtain rfl := Option.some.inj (h1.symm.trans h2)
    exact ih (hstep s a s1 hs hmeets.1 h1) hrest (hmeets.2 s1 h1)

/-- **Invariants of runs.** -/
theorem run_invariant {P : σ → Prop} (hstep : ∀ s a s', P s → step s a = some s' → P s') {s s' : σ}
    {as : List α} (hs : P s) (hrun : run step s as = some s') : P s' := by
  induction as generalizing s with
  | nil =>
    obtain rfl := Option.some.inj hrun
    exact hs
  | cons a as ih =>
    obtain ⟨s1, h1, hrest⟩ := run_cons.mp hrun
    exact ih (hstep s a s1 hs h1) hrest

/-! ### States that can be reached in so many steps -/

/-- Some run of at most `n` actions leads from `s` to `s'`. -/
def Within (step : σ → α → Option σ) (n : ℕ) (s s' : σ) : Prop :=
  ∃ as : List α, as.length ≤ n ∧ run step s as = some s'

namespace Within

variable {n m : ℕ} {s s1 s' : σ} {a : α}

theorem refl (s : σ) : Within step 0 s s := ⟨[], Nat.le_refl 0, rfl⟩

theorem one (h : step s a = some s') : Within step 1 s s' := ⟨[a], Nat.le_refl 1, run_cons.mpr ⟨s', h, rfl⟩⟩

theorem mono (h : Within step n s s') (hn : n ≤ m) : Within step m s s' := by
  obtain ⟨as, hlen, hrun⟩ := h
  exact ⟨as, Nat.le_trans hlen hn, hrun⟩

theorem trans (h : Within step n s s1) (h' : Within step m s1 s') : Within step (n + m) s s' := by
  obtain ⟨as, hlen, hrun⟩ := h
  obtain ⟨bs, hlen', hrun'⟩ := h'
  refine ⟨as ++ bs, ?_, ?_⟩
  · rw [List.length_append]
    exact Nat.add_le_add hlen hlen'
  · rw [run_append, hrun]
    exact hrun'

/-- A system with an observer reaches what the system without it reaches, as fast. -/
theorem lift {τ : Type} {step' : τ → α → Option τ} {f : σ → τ} (hstep : ∀ s a, (step s a).map f = step' (f s) a)
    {t : τ} (h : Within step' n (f s) t) : ∃ s', f s' = t ∧ Within step n s s' := by
  obtain ⟨as, hlen, hrun⟩ := h
  rw [← run_map hstep] at hrun
  obtain ⟨s', hs', rfl⟩ := Option.map_eq_some_iff.mp hrun
  exact ⟨s', rfl, as, hlen, hs'⟩

end Within

end Runs

end Base
end AVPredictor
