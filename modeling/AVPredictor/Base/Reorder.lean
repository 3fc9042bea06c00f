import Mathlib.Data.List.Basic
import Mathlib.Data.List.Perm.Basic
import Mathlib.Data.List.Sort

/-!
# AVPredictor.Base.Reorder — reorderings of a run that keep each thread's own order

A run is a list of events, each of one thread.  `KeepsOrder thread ρ σ`: `σ` is a rescheduling of
`ρ`, the same events with every thread's own sequence unchanged.

`TimeOrdered thread time σ`: each thread's events have increasing times in `σ`.
`keepsOrder_sortByKey`: sorting a run by a key that no thread decreases reschedules it.  This is how
a schedule with a wanted order is built from a recorded one.
-/

namespace AVPredictor
namespace Base

open List

section KeepsOrder

variable {ε τ : Type} [DecidableEq τ] {thread : ε → τ} {ρ σ : List ε}

/-- `σ` is `ρ` rescheduled: each thread has the same events in the same order. -/
def KeepsOrder (thread : ε → τ) (ρ σ : List ε) : Prop :=
  ∀ t, σ.filter (thread · = t) = ρ.filter (thread · = t)

/-- The events of thread `t` in a list of one thread's events. -/
theorem filter_thread (thread : ε → τ) {l : List ε} {u : τ} (h : ∀ x ∈ l, thread x = u) (t : τ) :
    l.filter (thread · = t) = if t = u then l else [] := by
  by_cases ht : t = u
  · rw [if_pos ht]
    exact filter_eq_self.mpr fun x hx => by simp [h x hx, ht]
  · rw [if_neg ht]
    exact filter_eq_nil_iff.mpr fun x hx => by simp [h x hx, Ne.symm ht]

/-- A selection of one thread's events is the same in both. -/
theorem KeepsOrder.filter_eq (h : KeepsOrder thread ρ σ) {p : ε → Bool} {t : τ}
    (hp : ∀ x, p x → thread x = t) : σ.filter p = ρ.filter p := by
  have hsplit : ∀ l : List ε, l.filter p = (l.filter (thread · = t)).filter p := by
    intro l
    rw [filter_filter]
    refine filter_congr fun x _ => ?_
    by_cases hx : p x
    · simp [hx, hp x hx]
    · simp [hx]
  rw [hsplit σ, hsplit ρ, h t]

theorem KeepsOrder.perm (h : KeepsOrder thread ρ σ) : σ.Perm ρ := by
  classical
  refine perm_iff_count.mpr fun a => ?_
  have hc : ∀ l : List ε, l.count a = (l.filter (thread · = thread a)).count a :=
    fun l => (count_filter (by simp)).symm
  rw [hc σ, hc ρ, h (thread a)]

theorem KeepsOrder.mem_iff (h : KeepsOrder thread ρ σ) {a : ε} : a ∈ σ ↔ a ∈ ρ := h.perm.mem_iff

/-- A rescheduling seen through a map of events that keeps threads apart. -/
theorem KeepsOrder.map {ε' τ' : Type} [DecidableEq τ'] {thread' : ε' → τ'} (h : KeepsOrder thread ρ σ)
    {f : ε → ε'} {g : τ → τ'} (hg : Function.Injective g) (hf : ∀ x, thread' (f x) = g (thread x)) :
    KeepsOrder thread' (ρ.map f) (σ.map f) := by
  intro t'
  have hsel : ∀ l : List ε, (l.map f).filter (thread' · = t') =
      (l.filter (fun x => g (thread x) = t')).map f := by
    intro l
    rw [filter_map]
    congr 1
    exact filter_congr fun x _ => by simp [hf x]
  rw [hsel σ, hsel ρ]
  by_cases ht : ∃ t, g t = t'
  · obtain ⟨t, rfl⟩ := ht
    rw [h.filter_eq (t := t)]
    intro x hx
    exact hg (by simpa using hx)
  · have hnil : ∀ l : List ε, l.filter (fun x => g (thread x) = t') = [] := fun l =>
      filter_eq_nil_iff.mpr fun x _ => by simpa using fun hx => ht ⟨_, hx⟩
    rw [hnil σ, hnil ρ]

/-- Two parts of which each thread has events in one only, in either order. -/
theorem keepsOrder_append_comm (h : ∀ a ∈ ρ, ∀ b ∈ σ, thread a ≠ thread b) :
    KeepsOrder thread (ρ ++ σ) (σ ++ ρ) := by
  intro t
  rw [filter_append, filter_append]
  by_cases ht : ∃ a ∈ ρ, thread a = t
  · obtain ⟨a, ha, rfl⟩ := ht
    have hnil : σ.filter (thread · = thread a) = [] :=
      filter_eq_nil_iff.mpr fun b hb => by simpa using (h a ha b hb).symm
    rw [hnil, nil_append, append_nil]
  · have hnil : ρ.filter (thread · = t) = [] :=
      filter_eq_nil_iff.mpr fun a ha => by simpa using fun heq => ht ⟨a, ha, heq⟩
    rw [hnil, nil_append, append_nil]

end KeepsOrder

/-- Two lists with the same keys, each once: values that the keys determine are the same up to
order. -/
theorem perm_map_of_keys {α β κ : Type} {key : α → κ} {value : α → β} {l₁ l₂ : List α}
    (h₁ : (l₁.map key).Nodup) (h₂ : (l₂.map key).Nodup) (hkeys : ∀ k, k ∈ l₁.map key ↔ k ∈ l₂.map key)
    (hvalue : ∀ a ∈ l₁, ∀ b ∈ l₂, key a = key b → value a = value b) :
    (l₁.map value).Perm (l₂.map value) := by
  have hnodup : ∀ l : List α, (l.map key).Nodup → (l.map fun a => (key a, value a)).Nodup := by
    intro l h
    refine Nodup.of_map Prod.fst ?_
    rwa [map_map]
  have hpairs : (l₁.map fun a => (key a, value a)).Perm (l₂.map fun a => (key a, value a)) := by
    refine (perm_ext_iff_of_nodup (hnodup l₁ h₁) (hnodup l₂ h₂)).mpr fun p => ?_
    rw [mem_map, mem_map]
    constructor
    · rintro ⟨a, ha, rfl⟩
      obtain ⟨b, hb, hab⟩ := mem_map.mp ((hkeys (key a)).mp (mem_map_of_mem ha))
      exact ⟨b, hb, Prod.ext hab (hvalue a ha b hb hab.symm).symm⟩
    · rintro ⟨b, hb, rfl⟩
      obtain ⟨a, ha, hab⟩ := mem_map.mp ((hkeys (key b)).mpr (mem_map_of_mem hb))
      exact ⟨a, ha, Prod.ext hab (hvalue a ha b hb hab)⟩
  have hvalues := hpairs.map Prod.snd
  rw [map_map, map_map] at hvalues
  exact hvalues

/-! ## Runs with times -/

section TimeOrdered

variable {ε τ : Type} {thread : ε → τ} {time : ε → ℕ} {ρ σ : List ε}

/-- Each thread's events come with strictly increasing times. -/
def TimeOrdered (thread : ε → τ) (time : ε → ℕ) (σ : List ε) : Prop :=
  σ.Pairwise fun a b => thread a = thread b → time a < time b

instance [DecidableEq τ] : Decidable (TimeOrdered thread time σ) :=
  inferInstanceAs (Decidable (σ.Pairwise _))

theorem TimeOrdered.nodup (h : TimeOrdered thread time σ) : σ.Nodup :=
  h.imp fun hab heq => absurd (hab (by rw [heq])) (by rw [heq]; omega)

/-- Rescheduling keeps each thread's times in order. -/
theorem KeepsOrder.timeOrdered [DecidableEq τ] (h : KeepsOrder thread ρ σ)
    (hρ : TimeOrdered thread time ρ) : TimeOrdered thread time σ := by
  refine pairwise_iff_forall_sublist.mpr fun {a b} hab hthread => ?_
  have hboth : [a, b].filter (thread · = thread b) = [a, b] := by simp [hthread]
  have hσ : [a, b] <+ σ.filter (thread · = thread b) := hboth ▸ hab.filter _
  rw [h (thread b)] at hσ
  exact pairwise_iff_forall_sublist.mp hρ (hσ.trans filter_sublist) hthread

/-- Two events of one thread at one time are the same event. -/
theorem TimeOrdered.eq_of_time (h : TimeOrdered thread time σ) {a b : ε} (ha : a ∈ σ) (hb : b ∈ σ)
    (hab : thread a = thread b) (ht : time a = time b) : a = b := by
  obtain ⟨p, q, rfl⟩ := append_of_mem ha
  obtain ⟨-, hright, hcross⟩ := pairwise_append.mp h
  rcases mem_append.mp hb with hb | hb
  · have hlt := hcross b hb a mem_cons_self hab.symm
    omega
  · rcases mem_cons.mp hb with rfl | hb
    · rfl
    · have hlt := (pairwise_cons.mp hright).1 b hb hab
      omega

/-- Selected events of one thread are determined by what they are: their times fix the order. -/
theorem TimeOrdered.filter_eq (hσ : TimeOrdered thread time σ) {p : ε → Bool} {t : τ}
    (hp : ∀ x, p x → thread x = t) {l : List ε} (hl : l.Pairwise (time · < time ·))
    (hperm : (σ.filter p).Perm l) : σ.filter p = l := by
  have hs : (σ.filter p).Pairwise (time · < time ·) := by
    rw [pairwise_filter]
    exact hσ.imp fun hab ha hb => hab ((hp _ ha).trans (hp _ hb).symm)
  exact hperm.eq_of_pairwise (fun a b _ _ hab hba => by omega) hs hl

/-- Two runs of the same events in the order of their times are reschedulings of each other. -/
theorem TimeOrdered.keepsOrder [DecidableEq τ] (hρ : TimeOrdered thread time ρ) (hσ : TimeOrdered thread time σ)
    (h : σ.Perm ρ) : KeepsOrder thread ρ σ := by
  intro t
  refine hσ.filter_eq (t := t) (fun x hx => of_decide_eq_true hx) ?_ (h.filter _)
  rw [pairwise_filter]
  exact hρ.imp fun hab ha hb => hab ((of_decide_eq_true ha).trans (of_decide_eq_true hb).symm)

/-- Of two events of one thread the one with the smaller time comes first. -/
theorem TimeOrdered.mem_left {p q : List ε} (h : TimeOrdered thread time (p ++ q)) {a b : ε}
    (ha : a ∈ p ++ q) (hb : b ∈ p) (hab : thread a = thread b) (hlt : time a < time b) : a ∈ p := by
  rcases mem_append.mp ha with ha | ha
  · exact ha
  · have hba := (pairwise_append.mp h).2.2 b hb a ha hab.symm
    omega

/-- An event of the thread of `a` with a greater time comes after `a`. -/
theorem TimeOrdered.mem_right {p q : List ε} {a b : ε} (h : TimeOrdered thread time (p ++ a :: q))
    (hb : b ∈ p ++ a :: q) (hab : thread b = thread a) (hlt : time a < time b) : b ∈ q := by
  rcases mem_append.mp hb with hb | hb
  · have hba := (pairwise_append.mp h).2.2 b hb a mem_cons_self hab
    omega
  · rcases mem_cons.mp hb with rfl | hb
    · omega
    · exact hb

end TimeOrdered

/-- The event at which a count is reached. -/
theorem exists_split_countP {ε : Type} {p : ε → Bool} {l : List ε} {k : ℕ} (h : k < l.countP p) :
    ∃ l₁ x l₂, l = l₁ ++ x :: l₂ ∧ p x = true ∧ l₁.countP p = k := by
  induction l generalizing k with
  | nil => simp at h
  | cons a l ih =>
    rw [countP_cons] at h
    by_cases ha : p a = true
    · rw [if_pos ha] at h
      cases k with
      | zero => exact ⟨[], a, l, rfl, ha, rfl⟩
      | succ k =>
        obtain ⟨l₁, x, l₂, rfl, hx, hk⟩ := ih (show k < l.countP p by omega)
        exact ⟨a :: l₁, x, l₂, rfl, hx, by rw [countP_cons, if_pos ha, hk]⟩
    · rw [if_neg ha] at h
      obtain ⟨l₁, x, l₂, rfl, hx, hk⟩ := ih (show k < l.countP p by omega)
      exact ⟨a :: l₁, x, l₂, rfl, hx, by rw [countP_cons, if_neg ha, hk, Nat.add_zero]⟩

/-! ## Sorting a run -/

section SortByKey

variable {ε τ : Type} [DecidableEq τ] {thread : ε → τ}

/-- The run sorted by a key; events with the same key keep their order. -/
def sortByKey (key : ε → ℕ) (ρ : List ε) : List ε := ρ.mergeSort (fun a b => key a ≤ key b)

theorem sortByKey_sorted (key : ε → ℕ) (ρ : List ε) :
    (sortByKey key ρ).Pairwise (fun a b => key a ≤ key b) := by
  have h := @pairwise_mergeSort _ (fun a b => decide (key a ≤ key b))
    (fun a b c hab hbc => by simp only [decide_eq_true_eq] at *; omega)
    (fun a b => by simp only [Bool.or_eq_true, decide_eq_true_eq]; omega) ρ
  exact h.imp fun hab => by simpa using hab

/-- **Rescheduling by a key** that does not decrease along any thread. -/
theorem keepsOrder_sortByKey {key : ε → ℕ} {ρ : List ε}
    (h : ρ.Pairwise (fun a b => thread a = thread b → key a ≤ key b)) :
    KeepsOrder thread ρ (sortByKey key ρ) := by
  intro t
  set c := ρ.filter (thread · = t) with hc
  have hsorted : c.Pairwise (fun a b => decide (key a ≤ key b)) := by
    rw [hc, pairwise_filter]
    refine h.imp fun hab ha hb => ?_
    simp only [decide_eq_true_eq] at ha hb ⊢
    exact hab (ha.trans hb.symm)
  have hsub : c <+ sortByKey key ρ :=
    sublist_mergeSort (fun a b c hab hbc => by simp only [decide_eq_true_eq] at *; omega)
      (fun a b => by simp only [Bool.or_eq_true, decide_eq_true_eq]; omega) hsorted filter_sublist
  have hfix : c.filter (thread · = t) = c := by rw [hc, filter_filter]; simp
  have hsub' : c <+ (sortByKey key ρ).filter (thread · = t) := by
    rw [← hfix]
    exact hsub.filter _
  have hlen : ((sortByKey key ρ).filter (thread · = t)).length = c.length :=
    ((mergeSort_perm ρ _).filter _).length_eq
  exact (hsub'.eq_of_length hlen.symm).symm

/-- Events with increasing keys come in that order. -/
theorem sublist_of_key_lt {key : ε → ℕ} {l σ : List ε} (hσ : σ.Pairwise (fun a b => key a ≤ key b))
    (hl : l.Pairwise (fun a b => key a < key b)) (hmem : ∀ a ∈ l, a ∈ σ) : l <+ σ := by
  induction l generalizing σ with
  | nil => exact nil_sublist σ
  | cons a l ih =>
    obtain ⟨hal, hl⟩ := pairwise_cons.mp hl
    obtain ⟨l₁, l₂, rfl⟩ := append_of_mem (hmem a mem_cons_self)
    have hsplit := pairwise_append.mp hσ
    refine ((ih (pairwise_cons.mp hsplit.2.1).2 hl fun b hb => ?_).cons_cons a).trans
      (sublist_append_right l₁ _)
    have hlt := hal b hb
    rcases mem_append.mp (hmem b (mem_cons_of_mem a hb)) with hb' | hb'
    · exact absurd (hsplit.2.2 b hb' a mem_cons_self) (by omega)
    · rcases mem_cons.mp hb' with rfl | hb'
      · omega
      · exact hb'

end SortByKey

end Base
end AVPredictor
