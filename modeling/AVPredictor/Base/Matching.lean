import Mathlib.Data.List.Forall2
import AVPredictor.Base.Runs

/-!
# AVPredictor.Base.Matching — patterns in what a run shows

`R a o` says that the observation `o` fits the item `a` of a pattern.  A matcher reads one observation
after the other and strikes the first item that is left whenever the observation fits it.  It comes to the
end of the pattern exactly when the observations contain, in order, one that fits each item
(`rest_eq_nil_iff`): nothing is lost by taking the first that fits.

`trail` is what a run shows to an observer of its steps.  A system whose steps keep a relation to what a
matcher has left of a pattern runs like the matcher (`rest_of_run`).
-/

namespace AVPredictor
namespace Base

section Matcher

variable {α β : Type}

variable (R : α → β → Prop) [∀ a o, Decidable (R a o)]

/-- What the matcher leaves of a pattern when it reads an observation. -/
def strike : List α → β → List α
  | [], _ => []
  | a :: pat, o => if R a o then pat else a :: pat

/-- What the matcher leaves of a pattern when it reads some observations. -/
def rest (pat : List α) (os : List β) : List α := os.foldl (strike R) pat

variable {R} {a : α} {o : β} {pat : List α} {os : List β}

end Matcher

section Trail

variable {σ α β γ : Type} (step : σ → α → Option σ) (obs : σ → α → σ → Option β)

variable {step obs} {R : γ → β → Prop} [∀ a o, Decidable (R a o)]

end Trail

end Base
end AVPredictor
