import Mathlib.Algebra.GroupWithZero.Nat
import Mathlib.Data.List.Flatten
import Mathlib.Data.List.Nodup
import Mathlib.Data.List.Pairwise
import Mathlib.Data.List.Induction

/-!
# AVPredictor.Base.Loops — loops over lists that append to a result

`appendAll f as` is the loop `for a in as: result += f(a)` where the body may fail; the first
failure ends it.  Its rules: it succeeds iff every body succeeds (`appendAll_ok_iff`), with the
concatenation of what the bodies append (`appendAll_eq_ok`, `mem_appendAll`).

`LastMatch p l o`: `o` is what the loop over `l` that overwrites its result at every match ends with
(`lastMatch_foldl`).

`consecutive l` are the pairs `l[i], l[i+1]`; of a filtered list they are the elements with none of
their kind between them (`mem_consecutive_filter`).  `allPairs l` are the pairs `l[i], l[j]` with
`i < j`.
-/

namespace AVPredictor
namespace Base

/-! ## Appending loops -/

section AppendAll

variable {α β ε : Type}

/-- `for a in as: result += f(a)`; what is appended, or the first error. -/
def appendAll (f : α → Except ε (List β)) : List α → Except ε (List β)
  | [] => .ok []
  | a :: as => do
    let bs ← f a
    let rest ← appendAll f as
    .ok (bs ++ rest)

theorem bind_eq_ok {γ : Type} {x : Except ε β} {f : β → Except ε γ} {c : γ} :
    (x >>= f) = .ok c ↔ ∃ b, x = .ok b ∧ f b = .ok c := by
  cases x with
  | error e =>
    constructor
    · intro h; cases h
    · rintro ⟨b, h, -⟩; cases h
  | ok b =>
    constructor
    · exact fun h => ⟨b, rfl, h⟩
    · rintro ⟨b', h, h'⟩
      cases h
      exact h'

/-- A loop over a list with one more element at the end. -/
theorem foldlM_concat {f : β → α → Except ε β} {b c : β} {as : List α} (h : as.foldlM f b = .ok c) (a : α) :
    (as ++ [a]).foldlM f b = f c a := by
  rw [List.foldlM_append, h]
  exact bind_pure (f c a)

/-- A loop whose bodies all succeed. -/
theorem foldlM_map_eq_ok {γ : Type} {f : β → γ → Except ε β} {g : α → γ} {step : β → α → β}
    (h : ∀ b a, f b (g a) = .ok (step b a)) (as : List α) (b : β) :
    (as.map g).foldlM f b = .ok (as.foldl step b) := by
  induction as generalizing b with
  | nil => rfl
  | cons a as ih =>
    rw [List.map_cons, List.foldlM_cons, h]
    exact ih (step b a)

/-- Two loops whose bodies do the same, up to the functions `f` and `g`. -/
theorem foldlM_hom {σ σ' : Type} {f : σ → σ'} {g : α → β} {step : σ → α → Except ε σ} {step' : σ' → β → Except ε σ'}
    (h : ∀ s a, step' (f s) (g a) = (step s a).map f) (s : σ) (as : List α) :
    (as.map g).foldlM step' (f s) = (as.foldlM step s).map f := by
  induction as generalizing s with
  | nil => rfl
  | cons a as ih =>
    rw [List.map_cons, List.foldlM_cons, List.foldlM_cons, h]
    cases step s a with
    | error e => rfl
    | ok s1 => exact ih s1

/-- A loop that adds to a total. -/
theorem foldlM_add_eq_ok {f : ℕ → α → Except ε ℕ} {g : α → ℕ} {as : List α} (h : ∀ a ∈ as, ∀ n, f n a = .ok (n + g a))
    (n : ℕ) : as.foldlM f n = .ok (n + (as.map g).sum) := by
  induction as generalizing n with
  | nil => rfl
  | cons a as ih =>
    obtain ⟨ha, has⟩ := List.forall_mem_cons.mp h
    rw [List.foldlM_cons, ha, List.map_cons, List.sum_cons, ← Nat.add_assoc]
    exact ih has (n + g a)

theorem appendAll_cons_eq_ok {f : α → Except ε (List β)} {a : α} {as : List α} {bs : List β} :
    appendAll f (a :: as) = .ok bs ↔
      ∃ cs ds, f a = .ok cs ∧ appendAll f as = .ok ds ∧ bs = cs ++ ds := by
  rw [appendAll, bind_eq_ok]
  constructor
  · rintro ⟨cs, h1, h2⟩
    obtain ⟨ds, h3, h4⟩ := bind_eq_ok.mp h2
    cases h4
    exact ⟨cs, ds, h1, h3, rfl⟩
  · rintro ⟨cs, ds, h1, h2, rfl⟩
    exact ⟨cs, h1, bind_eq_ok.mpr ⟨ds, h2, rfl⟩⟩

/-- When every body succeeds, the loop appends their results in order. -/
theorem appendAll_eq_ok {f : α → Except ε (List β)} {g : α → List β} {as : List α}
    (h : ∀ a ∈ as, f a = .ok (g a)) : appendAll f as = .ok (as.flatMap g) := by
  induction as with
  | nil => rfl
  | cons a as ih =>
    refine appendAll_cons_eq_ok.mpr ⟨g a, as.flatMap g, h a (by simp), ?_, rfl⟩
    exact ih (fun a' ha' => h a' (by simp [ha']))

theorem appendAll_ok_iff {f : α → Except ε (List β)} {as : List α} :
    (∃ bs, appendAll f as = .ok bs) ↔ ∀ a ∈ as, ∃ cs, f a = .ok cs := by
  induction as with
  | nil => simp [appendAll]
  | cons a as ih =>
    rw [List.forall_mem_cons, ← ih]
    constructor
    · rintro ⟨bs, h⟩
      obtain ⟨cs, ds, h1, h2, -⟩ := appendAll_cons_eq_ok.mp h
      exact ⟨⟨cs, h1⟩, ds, h2⟩
    · rintro ⟨⟨cs, h1⟩, ds, h2⟩
      exact ⟨cs ++ ds, appendAll_cons_eq_ok.mpr ⟨cs, ds, h1, h2, rfl⟩⟩

/-- Two loops whose bodies do the same on the elements of the list. -/
theorem appendAll_congr {f g : α → Except ε (List β)} {as : List α} (h : ∀ a ∈ as, f a = g a) :
    appendAll f as = appendAll g as := by
  induction as with
  | nil => rfl
  | cons a as ih =>
    obtain ⟨ha, has⟩ := List.forall_mem_cons.mp h
    rw [appendAll, appendAll, ha, ih has]

/-- Two loops whose bodies append the same, up to the functions `f` and `g`. -/
theorem appendAll_hom {α' β' : Type} {f : β → β'} {g : α → α'} {body : α → Except ε (List β)}
    {body' : α' → Except ε (List β')} (h : ∀ a, body' (g a) = (body a).map (List.map f)) (as : List α) :
    appendAll body' (as.map g) = (appendAll body as).map (List.map f) := by
  induction as with
  | nil => rfl
  | cons a as ih =>
    rw [List.map_cons, appendAll, appendAll, h, ih]
    cases body a with
    | error e => rfl
    | ok bs =>
      cases appendAll body as with
      | error e => rfl
      | ok rest => exact congrArg Except.ok List.map_append.symm

/-- A loop that fails does so in one of its bodies. -/
theorem appendAll_error {f : α → Except ε (List β)} {as : List α} {e : ε} (h : appendAll f as = .error e) :
    ∃ a ∈ as, f a = .error e := by
  induction as with
  | nil => exact absurd h (by simp [appendAll])
  | cons a as ih =>
    rw [appendAll] at h
    cases ha : f a with
    | error e' =>
      rw [ha] at h
      exact ⟨a, by simp, ha.trans h⟩
    | ok bs =>
      rw [ha] at h
      cases hrest : appendAll f as with
      | error e' =>
        rw [hrest] at h
        obtain ⟨a', ha', hf⟩ := ih (hrest.trans h)
        exact ⟨a', List.mem_cons_of_mem a ha', hf⟩
      | ok rest =>
        rw [hrest] at h
        exact absurd h (by simp [bind, Except.bind])

/-- What a successful loop has appended was appended by one of its bodies. -/
theorem mem_appendAll {f : α → Except ε (List β)} {as : List α} {bs : List β}
    (h : appendAll f as = .ok bs) {b : β} : b ∈ bs ↔ ∃ a ∈ as, ∃ cs, f a = .ok cs ∧ b ∈ cs := by
  induction as generalizing bs with
  | nil => cases h; simp
  | cons a as ih =>
    obtain ⟨cs, ds, h1, h2, rfl⟩ := appendAll_cons_eq_ok.mp h
    rw [List.mem_append, ih h2]
    constructor
    · rintro (hb | ⟨a', ha', hb⟩)
      · exact ⟨a, by simp, cs, h1, hb⟩
      · exact ⟨a', by simp [ha'], hb⟩
    · rintro ⟨a', ha', cs', hf, hb⟩
      rcases List.mem_cons.mp ha' with rfl | ha'
      · rw [h1, Except.ok.injEq] at hf
        exact Or.inl (hf ▸ hb)
      · exact Or.inr ⟨a', ha', cs', hf, hb⟩

/-- Two loops, where a body of one appends a part of what the other's appends: the results are equal
only when all bodies are. -/
theorem flatMap_eq_iff_of_sublist {f g : α → List β} {as : List α} (h : ∀ a ∈ as, (f a).Sublist (g a)) :
    as.flatMap f = as.flatMap g ↔ ∀ a ∈ as, f a = g a := by
  refine ⟨?_, List.flatMap_congr⟩
  induction as with
  | nil => simp
  | cons a as ih =>
    intro heq
    obtain ⟨hhead, htail⟩ := List.forall_mem_cons.mp h
    have hrest := (List.Sublist.flatMap_right as htail).length_le
    have htotal := congrArg List.length heq
    rw [List.flatMap_cons, List.flatMap_cons, List.length_append, List.length_append] at htotal
    have hsame : f a = g a := hhead.eq_of_length_le (by omega)
    rw [List.flatMap_cons, List.flatMap_cons, hsame, List.append_right_inj] at heq
    exact List.forall_mem_cons.mpr ⟨hsame, ih htail heq⟩

end AppendAll

/-! ## First appearances -/

section EraseDups

variable {α : Type} [DecidableEq α]

theorem eraseDups_concat (l : List α) (a : α) :
    (l ++ [a]).eraseDups = l.eraseDups ++ if a ∈ l then [] else [a] := by
  by_cases h : a ∈ l <;> simp [List.eraseDups_append, List.removeAll, h, List.eraseDups_cons]

theorem nodup_eraseDups (l : List α) : l.eraseDups.Nodup := by
  induction l using List.reverseRecOn with
  | nil => simp
  | append_singleton l a ih =>
    rw [eraseDups_concat]
    by_cases h : a ∈ l
    · simpa [h] using ih
    · rw [if_neg h]
      refine List.nodup_append.mpr ⟨ih, List.nodup_singleton a, ?_⟩
      intro x hx y hy
      rw [List.mem_singleton.mp hy]
      exact fun hxa => h (hxa ▸ List.mem_eraseDups.mp hx)

end EraseDups

/-! ## The last match -/

section LastMatch

variable {α : Type} {p : α → Prop} {l : List α} {o : Option α} {a : α}

/-- `o` is the last element of `l` with `p`, if there is one. -/
def LastMatch (p : α → Prop) (l : List α) : Option α → Prop
  | none => ∀ a ∈ l, ¬ p a
  | some a => ∃ l₁ l₂, l = l₁ ++ a :: l₂ ∧ p a ∧ ∀ b ∈ l₂, ¬ p b

theorem LastMatch.concat (h : LastMatch p l o) (ha : ¬ p a) : LastMatch p (l ++ [a]) o := by
  cases o with
  | none => exact List.forall_mem_append.mpr ⟨h, List.forall_mem_singleton.mpr ha⟩
  | some b =>
    obtain ⟨l₁, l₂, rfl, hb, hno⟩ := h
    refine ⟨l₁, l₂ ++ [a], by simp, hb, ?_⟩
    exact List.forall_mem_append.mpr ⟨hno, List.forall_mem_singleton.mpr ha⟩

theorem LastMatch.mem (h : LastMatch p l (some a)) : a ∈ l ∧ p a := by
  obtain ⟨l₁, l₂, rfl, ha, -⟩ := h
  exact ⟨by simp, ha⟩

theorem LastMatch.exists_some (h : LastMatch p l o) (hex : ∃ a ∈ l, p a) : ∃ a, o = some a := by
  cases o with
  | none =>
    obtain ⟨a, ha, hpa⟩ := hex
    exact absurd hpa (h a ha)
  | some a => exact ⟨a, rfl⟩

/-- The loop that overwrites its result at every match. -/
theorem lastMatch_foldl (q : α → Bool) (l : List α) :
    LastMatch (fun a => q a = true) l (l.foldl (fun o a => if q a then some a else o) none) := by
  induction l using List.reverseRecOn with
  | nil => exact fun a ha => absurd ha List.not_mem_nil
  | append_singleton l a ih =>
    rw [List.foldl_append, List.foldl_cons, List.foldl_nil]
    by_cases ha : q a = true
    · rw [if_pos ha]
      exact ⟨l, [], rfl, ha, by simp⟩
    · rw [if_neg ha]
      exact ih.concat ha

end LastMatch

/-! ## Consecutive elements -/

section Consecutive

variable {α : Type}

/-- The pairs `l[i], l[i+1]`. -/
def consecutive (l : List α) : List (α × α) := l.zip l.tail

@[simp] theorem consecutive_nil : consecutive ([] : List α) = [] := rfl

@[simp] theorem consecutive_singleton (a : α) : consecutive [a] = [] := rfl

@[simp] theorem consecutive_cons_cons (a b : α) (l : List α) :
    consecutive (a :: b :: l) = (a, b) :: consecutive (b :: l) := rfl

theorem consecutive_map {β : Type} (f : α → β) (l : List α) :
    consecutive (l.map f) = (consecutive l).map (Prod.map f f) := by
  induction l with
  | nil => rfl
  | cons a l ih =>
    cases l with
    | nil => rfl
    | cons b l =>
      rw [List.map_cons, List.map_cons, consecutive_cons_cons,
        ← List.map_cons, ih, consecutive_cons_cons, List.map_cons]
      rfl

theorem consecutive_eq_nil {l : List α} : consecutive l = [] ↔ l.length < 2 := by
  match l with
  | [] => simp
  | [a] => simp
  | a :: b :: l => simp

theorem mem_consecutive {l : List α} {a b : α} :
    (a, b) ∈ consecutive l ↔ ∃ l₁ l₂, l = l₁ ++ a :: b :: l₂ := by
  induction l with
  | nil => simp
  | cons x l ih =>
    cases l with
    | nil =>
      simp only [consecutive_singleton, List.not_mem_nil, false_iff]
      rintro ⟨l₁, l₂, h⟩
      have := congrArg List.length h
      simp at this
      omega
    | cons y l =>
      rw [consecutive_cons_cons, List.mem_cons, ih]
      constructor
      · rintro (h | ⟨l₁, l₂, h⟩)
        · obtain ⟨rfl, rfl⟩ := Prod.mk.inj h
          exact ⟨[], l, rfl⟩
        · exact ⟨x :: l₁, l₂, by rw [h]; rfl⟩
      · rintro ⟨l₁, l₂, h⟩
        cases l₁ with
        | nil =>
          simp only [List.nil_append, List.cons.injEq] at h
          exact Or.inl (by rw [h.1, h.2.1])
        | cons z l₁ =>
          simp only [List.cons_append, List.cons.injEq] at h
          exact Or.inr ⟨l₁, l₂, h.2⟩

/-- Consecutive elements of the filtered list are those with no element of their kind between
them. -/
theorem mem_consecutive_filter {l : List α} {p : α → Bool} {a b : α} :
    (a, b) ∈ consecutive (l.filter p) ↔
      ∃ l₁ l₂ l₃, l = l₁ ++ a :: (l₂ ++ b :: l₃) ∧ p a ∧ p b ∧ ∀ x ∈ l₂, ¬ p x := by
  rw [mem_consecutive]
  constructor
  · rintro ⟨m₁, m₂, h⟩
    obtain ⟨l₁, r₁, rfl, -, h1⟩ := List.filter_eq_append_iff.mp h
    obtain ⟨s₁, r₂, rfl, hs₁, ha, h2⟩ := List.filter_eq_cons_iff.mp h1
    obtain ⟨s₂, r₃, rfl, hs₂, hb, -⟩ := List.filter_eq_cons_iff.mp h2
    exact ⟨l₁ ++ s₁, s₂, r₃, by simp, ha, hb, hs₂⟩
  · rintro ⟨l₁, l₂, l₃, rfl, ha, hb, hno⟩
    have hmid : l₂.filter p = [] := List.filter_eq_nil_iff.mpr hno
    exact ⟨l₁.filter p, l₃.filter p, by simp [ha, hb, hmid]⟩

theorem fst_mem_of_consecutive {l : List α} {q : α × α} (h : q ∈ consecutive l) : q.1 ∈ l :=
  (List.of_mem_zip h).1

theorem snd_mem_of_consecutive {l : List α} {q : α × α} (h : q ∈ consecutive l) : q.2 ∈ l :=
  List.mem_of_mem_tail (List.of_mem_zip h).2

/-- In a list ordered by `r`, consecutive elements are related. -/
theorem rel_of_consecutive {r : α → α → Prop} {l : List α} (hl : l.Pairwise r) {a b : α}
    (h : (a, b) ∈ consecutive l) : r a b := by
  obtain ⟨l₁, l₂, rfl⟩ := mem_consecutive.mp h
  have h2 := (List.pairwise_append.mp hl).2.1
  exact (List.pairwise_cons.mp h2).1 b (by simp)

theorem nodup_consecutive {l : List α} (hl : l.Nodup) : (consecutive l).Nodup := by
  refine List.Nodup.of_map Prod.snd ?_
  rw [consecutive, List.map_snd_zip (by simp)]
  exact hl.tail

end Consecutive

/-! ## Pairs of a list -/

section AllPairs

variable {α : Type}

/-- The pairs `l[i], l[j]` with `i < j`, in the order of the nested loops. -/
def allPairs : List α → List (α × α)
  | [] => []
  | a :: as => as.map (a, ·) ++ allPairs as

theorem mem_of_allPairs {l : List α} {a b : α} (h : (a, b) ∈ allPairs l) : a ∈ l ∧ b ∈ l := by
  induction l with
  | nil => simp [allPairs] at h
  | cons x l ih =>
    rcases List.mem_append.mp h with h | h
    · obtain ⟨y, hy, heq⟩ := List.mem_map.mp h
      obtain ⟨rfl, rfl⟩ := Prod.mk.inj heq
      exact ⟨List.mem_cons_self, List.mem_cons_of_mem _ hy⟩
    · exact ⟨List.mem_cons_of_mem _ (ih h).1, List.mem_cons_of_mem _ (ih h).2⟩

theorem ne_of_allPairs {l : List α} (hl : l.Nodup) {a b : α} (h : (a, b) ∈ allPairs l) : a ≠ b := by
  induction l with
  | nil => simp [allPairs] at h
  | cons x l ih =>
    obtain ⟨hx, hl⟩ := List.nodup_cons.mp hl
    rcases List.mem_append.mp h with h | h
    · obtain ⟨y, hy, heq⟩ := List.mem_map.mp h
      obtain ⟨rfl, rfl⟩ := Prod.mk.inj heq
      exact fun hc => hx (hc ▸ hy)
    · exact ih hl h

/-- Two different elements are paired, in one order or the other. -/
theorem allPairs_total {l : List α} {a b : α} (ha : a ∈ l) (hb : b ∈ l) (hne : a ≠ b) :
    (a, b) ∈ allPairs l ∨ (b, a) ∈ allPairs l := by
  induction l with
  | nil => simp at ha
  | cons x l ih =>
    simp only [allPairs, List.mem_append, List.mem_map, Prod.mk.injEq]
    rcases List.mem_cons.mp ha with rfl | ha' <;> rcases List.mem_cons.mp hb with rfl | hb'
    · exact absurd rfl hne
    · exact Or.inl (Or.inl ⟨b, hb', rfl, rfl⟩)
    · exact Or.inr (Or.inl ⟨a, ha', rfl, rfl⟩)
    · exact (ih ha' hb').imp Or.inr Or.inr

/-- The pairs are different also as unordered pairs. -/
theorem allPairs_pairwise {l : List α} (hl : l.Nodup) :
    (allPairs l).Pairwise (fun p q => p ≠ q ∧ p ≠ q.swap) := by
  induction l with
  | nil => simp [allPairs]
  | cons x l ih =>
    obtain ⟨hx, hl⟩ := List.nodup_cons.mp hl
    refine List.pairwise_append.mpr ⟨?_, ih hl, ?_⟩
    · rw [List.pairwise_map]
      refine (List.Pairwise.and_mem.mp hl).imp ?_
      rintro b c ⟨hb, -, hbc⟩
      refine ⟨fun h => hbc (Prod.mk.inj h).2, fun h => ?_⟩
      have hbx : b = x := (Prod.mk.inj h).2
      exact hx (hbx ▸ hb)
    · rintro p hp ⟨b, c⟩ hq
      obtain ⟨y, hy, rfl⟩ := List.mem_map.mp hp
      obtain ⟨hb, hc⟩ := mem_of_allPairs hq
      constructor
      · intro h; exact hx ((Prod.mk.inj h).1 ▸ hb)
      · intro h; exact hx ((Prod.mk.inj h).1 ▸ hc)

end AllPairs

end Base
end AVPredictor
