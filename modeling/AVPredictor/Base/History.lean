import Mathlib.Data.List.Induction
import Mathlib.Data.List.TakeWhile

/-!
# AVPredictor.Base.History — properties of event histories

A history is the list of the events so far, and a property of an event may look at the events before
it: `Always p` says that every event had `p`, `Since p q` that some event had `p` and every event
after it had `q`.  Both are followed from one event to the next (`always_concat`, `since_concat`).
`before e` is the part of a history up to the first occurrence of an event of a kind.
-/

namespace AVPredictor
namespace Base

variable {α : Type}

/-- Every event satisfies `p`, judged with the events before it. -/
def Always (p : List α → α → Prop) (as : List α) : Prop := ∀ pre a post, as = pre ++ a :: post → p pre a

/-- Some event satisfied `p`, and since then every event satisfies `q`. -/
def Since (p q : List α → α → Prop) (as : List α) : Prop :=
  ∃ pre a post, as = pre ++ a :: post ∧ p pre a ∧ ∀ l b r, post = l ++ b :: r → q (pre ++ a :: l) b

/-- The events before the first one with `k`, all if there is none. -/
def before (k : α → Bool) (as : List α) : List α := as.takeWhile fun a => !k a

section Rules

variable {p q : List α → α → Prop} {k : α → Bool} {a : α} {as bs : List α}

/-- An event in a history that grows by one is the new one, or was there before. -/
theorem split_concat {b : α} {pre post : List α} (h : as ++ [b] = pre ++ a :: post) :
    (as = pre ∧ b = a ∧ post = []) ∨ ∃ post', as = pre ++ a :: post' ∧ post = post' ++ [b] := by
  rcases List.eq_nil_or_concat post with rfl | ⟨post', c, rfl⟩
  · obtain ⟨rfl, hb⟩ := List.append_inj' h rfl
    exact Or.inl ⟨rfl, List.singleton_inj.mp hb, rfl⟩
  · have h' : as ++ [b] = (pre ++ a :: post') ++ [c] := by
      rw [h]
      simp
    obtain ⟨rfl, hb⟩ := List.append_inj' h' rfl
    obtain rfl := List.singleton_inj.mp hb
    exact Or.inr ⟨post', rfl, by simp⟩

theorem always_nil : Always p [] := by
  intro pre a post h
  exact absurd h (by simp)

/-- **A history that grows by one event.** -/
theorem always_concat : Always p (as ++ [a]) ↔ Always p as ∧ p as a := by
  constructor
  · intro h
    refine ⟨?_, h as a [] rfl⟩
    rintro pre b post rfl
    exact h pre b (post ++ [a]) (by simp)
  · rintro ⟨h, hlast⟩ pre b post heq
    rcases split_concat heq with ⟨rfl, rfl, -⟩ | ⟨post', rfl, -⟩
    · exact hlast
    · exact h pre b post' rfl

/-- An event earlier than the rest: with `pre` before the list, `p` can be checked event by event. -/
theorem always_cons_iff {pre : List α} :
    Always (fun l b => p (pre ++ l) b) (a :: as) ↔
      p pre a ∧ Always (fun l b => p (pre ++ [a] ++ l) b) as := by
  constructor
  · intro h
    refine ⟨by simpa using h [] a as rfl, ?_⟩
    rintro l b r rfl
    simpa using h (a :: l) b r rfl
  · rintro ⟨hhead, htail⟩ l b r heq
    rcases List.cons_eq_append_iff.mp heq with ⟨rfl, hcons⟩ | ⟨l', rfl, rfl⟩
    · obtain ⟨rfl, -⟩ := List.cons_eq_cons.mp hcons
      simpa using hhead
    · simpa using htail l' b r rfl

/-- `Always` can be computed. -/
def decidableAlways [∀ pre a, Decidable (p pre a)] :
    ∀ pre as, Decidable (Always (fun l b => p (pre ++ l) b) as)
  | _, [] => isTrue always_nil
  | pre, a :: as =>
    have := decidableAlways (pre ++ [a]) as
    decidable_of_iff _ always_cons_iff.symm

instance [∀ pre a, Decidable (p pre a)] (as : List α) : Decidable (Always p as) := decidableAlways [] as

theorem Always.prefix (h : Always p (as ++ bs)) : Always p as := by
  rintro pre a post rfl
  exact h pre a (post ++ bs) (by simp)

/-- What holds of the empty history and is kept by events with `p` holds of histories with `p`
throughout. -/
theorem Always.induction {P : List α → Prop} (h : Always p as) (hnil : P [])
    (hconcat : ∀ as a, Always p as → P as → p as a → P (as ++ [a])) : P as := by
  induction as using List.reverseRecOn with
  | nil => exact hnil
  | append_singleton as a ih =>
    obtain ⟨hinit, hlast⟩ := always_concat.mp h
    exact hconcat as a hinit (ih hinit) hlast

/-- Two conditions that agree on every event of a history, as far as it has kept one of them. -/
theorem always_iff (h : ∀ pre a post, as = pre ++ a :: post → (p pre a ↔ q pre a)) :
    Always p as ↔ Always q as := by
  constructor
  · intro hp pre a post heq
    exact (h pre a post heq).mp (hp pre a post heq)
  · intro hq pre a post heq
    exact (h pre a post heq).mpr (hq pre a post heq)

theorem not_since_nil : ¬ Since p q [] := by
  rintro ⟨pre, a, post, h, -⟩
  exact absurd h (by simp)

/-- **A history that grows by one event.** -/
theorem since_concat : Since p q (as ++ [a]) ↔ p as a ∨ (Since p q as ∧ q as a) := by
  constructor
  · rintro ⟨pre, b, post, heq, hp, hq⟩
    rcases split_concat heq with ⟨rfl, rfl, -⟩ | ⟨post', rfl, rfl⟩
    · exact Or.inl hp
    · refine Or.inr ⟨⟨pre, b, post', rfl, hp, ?_⟩, hq post' a [] rfl⟩
      rintro l c r rfl
      exact hq l c (r ++ [a]) (by simp)
  · rintro (hp | ⟨⟨pre, b, post, rfl, hp, hq⟩, hlast⟩)
    · refine ⟨as, a, [], rfl, hp, ?_⟩
      intro l b r h
      exact absurd h (by simp)
    · refine ⟨pre, b, post ++ [a], by simp, hp, ?_⟩
      intro l c r heq
      rcases split_concat heq with ⟨rfl, rfl, -⟩ | ⟨r', rfl, -⟩
      · exact hlast
      · exact hq l c r' rfl

/-- A history without an event of the kind is all before it. -/
theorem before_eq_self (h : ∀ a ∈ as, k a = false) : before k as = as := by
  rw [before, List.takeWhile_eq_self_iff]
  intro a ha
  rw [h a ha]
  rfl

theorem before_eq (h : ∀ b ∈ as, k b = false) (ha : k a = true) : before k (as ++ a :: bs) = as := by
  have hall : ∀ b ∈ as, (!k b) = true := by
    intro b hb
    rw [h b hb]
    rfl
  rw [before, List.takeWhile_append_of_pos hall, List.takeWhile_cons, ha]
  simp

/-- Later events do not change what came before the first event of the kind. -/
theorem before_append (h : ∃ a ∈ as, k a = true) : before k (as ++ bs) = before k as := by
  obtain ⟨a, ha, hk⟩ := h
  induction as with
  | nil => exact absurd ha (by simp)
  | cons c as ih =>
    rw [List.cons_append, before, before, List.takeWhile_cons, List.takeWhile_cons]
    cases hc : k c with
    | true => rfl
    | false =>
      have hmem : a ∈ as := by
        rcases List.mem_cons.mp ha with rfl | hmem
        · exact absurd (hk.symm.trans hc) (by simp)
        · exact hmem
      exact congrArg (c :: ·) (ih hmem)

theorem Always.before (h : Always p as) (k : α → Bool) : Always p (before k as) := by
  obtain ⟨bs, hbs⟩ := List.takeWhile_prefix (fun a => !k a) (l := as)
  rw [← hbs] at h
  exact h.prefix

end Rules

end Base
end AVPredictor
