import Mathlib.Algebra.Order.BigOperators.Group.List
import Mathlib.Data.Nat.Nth

/-!
# AVPredictor.Base.Ranks — numbers in the same order

Two lists of numbers are in the same order when the numbers of one compare as those of the other do.  Then
both are made from the same ranks by strictly increasing functions (`exists_ranks`).  So a computation that
does nothing with its numbers but compare them, that is, one that commutes with every strictly increasing
function, does the same on both.  `exists_ranked` says this of lists of records with a number each.
-/

namespace AVPredictor
namespace Base

/-- The first numbers of the pairs are in the same order as the second ones. -/
def SameOrder (ps : List (ℕ × ℕ)) : Prop := ∀ p ∈ ps, ∀ q ∈ ps, p.1 < q.1 ↔ p.2 < q.2

instance (ps : List (ℕ × ℕ)) : Decidable (SameOrder ps) := inferInstanceAs (Decidable (∀ p ∈ ps, ∀ q ∈ ps, _))

/-- A number of the list, or one above all of them. -/
def ListedOrAbove (l : List ℕ) (n : ℕ) : Prop := n ∈ l ∨ ∀ x ∈ l, x < n

instance (l : List ℕ) : DecidablePred (ListedOrAbove l) := fun _ => inferInstanceAs (Decidable (_ ∨ _))

section Ranks

variable {ps : List (ℕ × ℕ)} {p q : ℕ × ℕ} {l : List ℕ}

theorem infinite_listedOrAbove (l : List ℕ) : (Set.ofPred (ListedOrAbove l)).Infinite := by
  refine Set.infinite_of_forall_exists_gt fun n => ⟨n + l.sum + 1, Or.inr ?_, by omega⟩
  intro x hx
  have hle := List.single_le_sum (fun y _ => Nat.zero_le y) x hx
  omega

/-- The rank of a number of the list: how many different ones are smaller. -/
theorem count_listedOrAbove {n : ℕ} (hn : n ∈ l) :
    Nat.count (ListedOrAbove l) n = (l.filter (· < n)).toFinset.card := by
  rw [Nat.count_eq_card_filter_range]
  congr 1
  ext x
  simp only [Finset.mem_filter, Finset.mem_range, List.mem_toFinset, List.mem_filter, decide_eq_true_eq]
  constructor
  · rintro ⟨hlt, hx | habove⟩
    · exact ⟨hx, hlt⟩
    · exact absurd (habove n hn) (by omega)
  · rintro ⟨hx, hlt⟩
    exact ⟨hlt, Or.inl hx⟩

theorem SameOrder.eq_of_fst (h : SameOrder ps) (hp : p ∈ ps) (hq : q ∈ ps) (heq : p.1 = q.1) : p = q := by
  have h1 := h p hp q hq
  have h2 := h q hq p hp
  exact Prod.ext heq (by omega)

theorem SameOrder.eq_of_snd (h : SameOrder ps) (hp : p ∈ ps) (hq : q ∈ ps) (heq : p.2 = q.2) : p = q := by
  have h1 := h p hp q hq
  have h2 := h q hq p hp
  exact Prod.ext (by omega) heq

/-- Numbers at the same place have the same rank. -/
theorem SameOrder.count_eq (h : SameOrder ps) (hp : p ∈ ps) :
    Nat.count (ListedOrAbove (ps.map Prod.fst)) p.1 = Nat.count (ListedOrAbove (ps.map Prod.snd)) p.2 := by
  have hfst : ((ps.map Prod.fst).filter (· < p.1)).toFinset =
      (ps.filter (fun q => q.1 < p.1)).toFinset.image Prod.fst := by
    ext x
    simp only [List.mem_toFinset, List.mem_filter, List.mem_map, Finset.mem_image, decide_eq_true_eq]
    constructor
    · rintro ⟨⟨q, hq, rfl⟩, hlt⟩
      exact ⟨q, ⟨hq, hlt⟩, rfl⟩
    · rintro ⟨q, ⟨hq, hlt⟩, rfl⟩
      exact ⟨⟨q, hq, rfl⟩, hlt⟩
  have hsnd : ((ps.map Prod.snd).filter (· < p.2)).toFinset =
      (ps.filter (fun q => q.1 < p.1)).toFinset.image Prod.snd := by
    ext x
    simp only [List.mem_toFinset, List.mem_filter, List.mem_map, Finset.mem_image, decide_eq_true_eq]
    constructor
    · rintro ⟨⟨q, hq, rfl⟩, hlt⟩
      exact ⟨q, ⟨hq, (h q hq p hp).mpr hlt⟩, rfl⟩
    · rintro ⟨q, ⟨hq, hlt⟩, rfl⟩
      exact ⟨⟨q, hq, rfl⟩, (h q hq p hp).mp hlt⟩
  have hmem : ∀ q ∈ (ps.filter (fun q => q.1 < p.1)).toFinset, q ∈ ps :=
    fun q hq => (List.mem_filter.mp (List.mem_toFinset.mp hq)).1
  rw [count_listedOrAbove (List.mem_map_of_mem hp), count_listedOrAbove (List.mem_map_of_mem hp), hfst, hsnd,
    Finset.card_image_of_injOn fun a ha b hb hab => h.eq_of_fst (hmem a ha) (hmem b hb) hab,
    Finset.card_image_of_injOn fun a ha b hb hab => h.eq_of_snd (hmem a ha) (hmem b hb) hab]

/-- **Numbers in the same order are made from the same ranks** by strictly increasing functions. -/
theorem exists_ranks (h : SameOrder ps) :
    ∃ rank g g' : ℕ → ℕ, StrictMono g ∧ StrictMono g' ∧ ∀ p ∈ ps, g (rank p.1) = p.1 ∧ g' (rank p.1) = p.2 := by
  refine ⟨Nat.count (ListedOrAbove (ps.map Prod.fst)), Nat.nth (ListedOrAbove (ps.map Prod.fst)),
    Nat.nth (ListedOrAbove (ps.map Prod.snd)), Nat.nth_strictMono (infinite_listedOrAbove _),
    Nat.nth_strictMono (infinite_listedOrAbove _), fun p hp => ⟨?_, ?_⟩⟩
  · exact Nat.nth_count (Or.inl (List.mem_map_of_mem hp))
  · rw [h.count_eq hp]
    exact Nat.nth_count (Or.inl (List.mem_map_of_mem hp))

/-- **Records that differ in their numbers only**, with the numbers in the same order: both lists are made
from one list, whose numbers are the ranks. -/
theorem exists_ranked {α : Type} {key : α → ℕ} {put : ℕ → α → α} (hkey : ∀ n x, key (put n x) = n)
    (hput : ∀ n m x, put n (put m x) = put n x) (hself : ∀ x, put (key x) x = x) {rank g g' : ℕ → ℕ} {as bs : List α}
    (hsame : as.map (put 0) = bs.map (put 0))
    (hranks : ∀ p ∈ (as.map key).zip (bs.map key), g (rank p.1) = p.1 ∧ g' (rank p.1) = p.2) :
    ∃ cs : List α, cs.map (fun x => put (g (key x)) x) = as ∧ cs.map (fun x => put (g' (key x)) x) = bs := by
  induction as generalizing bs with
  | nil =>
    obtain rfl : bs = [] := List.map_eq_nil_iff.mp hsame.symm
    exact ⟨[], rfl, rfl⟩
  | cons a as ih =>
    cases bs with
    | nil => exact absurd hsame (by simp)
    | cons b bs =>
      obtain ⟨hhead, htail⟩ := List.cons.inj hsame
      rw [List.map_cons, List.map_cons, List.zip_cons_cons, List.forall_mem_cons] at hranks
      obtain ⟨⟨ha, hb⟩, hrest⟩ := hranks
      obtain ⟨cs, rfl, rfl⟩ := ih htail hrest
      refine ⟨put (rank (key a)) a :: cs, ?_, ?_⟩
      · rw [List.map_cons, hkey, hput, ha, hself]
      · rw [List.map_cons, hkey, hput, hb, ← hput (key b) 0 a, hhead, hput, hself]

end Ranks

end Base
end AVPredictor
