import AVPredictor.Base.Reorder

/-!
# AVPredictor.Base.View — orders of reads and writes that cannot be told apart

`exec` performs accesses of one word: each read returns the value of the last write.  `ViewEq`: two
orders return the same value to every read and leave the same value, whatever is written.
`viewEq_iff` reduces this to one choice of values, where a write stores itself.

`Serializable x y l`: the accesses `l` of other threads, performed between `x` and `y`, cannot be
told apart from some order in which nothing comes between `x` and `y`.  `serializable_iff` decides
this: if `x` and `y` both write, `l` must not begin with a read, else nothing in `l` may write.
-/

namespace AVPredictor
namespace Base

open List

section Exec

variable {ε V W : Type} (isWrite : ε → Bool)

/-- The values that the reads of `l` return, and the value left, from value `v` on. -/
def exec (val : ε → V) : V → List ε → List (ε × V) × V
  | v, [] => ([], v)
  | v, e :: l => if isWrite e then exec val (val e) l else ((e, v) :: (exec val v l).1, (exec val v l).2)

variable {isWrite} {val : ε → V} {v u : V} {e w : ε} {l l₁ l₂ : List ε}

theorem exec_write (he : isWrite e = true) : exec isWrite val v (e :: l) = exec isWrite val (val e) l := by
  rw [exec, if_pos he]

theorem exec_read (he : isWrite e = false) :
    exec isWrite val v (e :: l) = ((e, v) :: (exec isWrite val v l).1, (exec isWrite val v l).2) := by
  rw [exec, if_neg (by simp [he])]

theorem exec_append (val : ε → V) (v : V) (l₁ l₂ : List ε) :
    exec isWrite val v (l₁ ++ l₂) =
      ((exec isWrite val v l₁).1 ++ (exec isWrite val (exec isWrite val v l₁).2 l₂).1,
        (exec isWrite val (exec isWrite val v l₁).2 l₂).2) := by
  induction l₁ generalizing v with
  | nil => rfl
  | cons a l₁ ih =>
    rw [cons_append]
    cases ha : isWrite a with
    | true => rw [exec_write ha, exec_write ha, ih]
    | false => rw [exec_read ha, exec_read ha, ih]; rfl

/-- Renaming the values renames what is read and what is left. -/
theorem exec_map (f : V → W) (val : ε → V) (v : V) (l : List ε) :
    exec isWrite (fun e => f (val e)) (f v) l =
      ((exec isWrite val v l).1.map (Prod.map id f), f (exec isWrite val v l).2) := by
  induction l generalizing v with
  | nil => rfl
  | cons a l ih =>
    cases ha : isWrite a with
    | true => rw [exec_write ha, exec_write ha, ih]
    | false => rw [exec_read ha, exec_read ha, ih]; rfl

/-- Reads leave the value as it is. -/
theorem final_of_reads (h : ∀ x ∈ l, isWrite x = false) : (exec isWrite val v l).2 = v := by
  induction l with
  | nil => rfl
  | cons a l ih =>
    obtain ⟨ha, hl⟩ := forall_mem_cons.mp h
    rw [exec_read ha]
    exact ih hl

/-- With a write among the accesses the last one is left. -/
theorem final_of_write (hw : w ∈ l) (hwrite : isWrite w = true) :
    ∃ x ∈ l, isWrite x = true ∧ ∀ v, (exec isWrite val v l).2 = val x := by
  induction l generalizing w with
  | nil => simp at hw
  | cons a l ih =>
    by_cases hl : ∃ x ∈ l, isWrite x = true
    · obtain ⟨x, hx, hxw⟩ := hl
      obtain ⟨y, hy, hyw, hleft⟩ := ih hx hxw
      refine ⟨y, mem_cons_of_mem a hy, hyw, fun v => ?_⟩
      cases ha : isWrite a with
      | true => rw [exec_write ha, hleft]
      | false => rw [exec_read ha, hleft]
    · have hreads : ∀ x ∈ l, isWrite x = false := fun x hx => by
        simpa using fun hxw => hl ⟨x, hx, hxw⟩
      have ha : isWrite a = true := by
        rcases mem_cons.mp hw with rfl | hw
        · exact hwrite
        · exact absurd ⟨w, hw, hwrite⟩ hl
      exact ⟨a, mem_cons_self, ha, fun v => by rw [exec_write ha, final_of_reads hreads]⟩

theorem fst_mem_exec (h : (e, u) ∈ (exec isWrite val v l).1) : e ∈ l := by
  induction l generalizing v with
  | nil => simp [exec] at h
  | cons a l ih =>
    cases ha : isWrite a with
    | true =>
      rw [exec_write ha] at h
      exact mem_cons_of_mem a (ih h)
    | false =>
      rw [exec_read ha] at h
      rcases mem_cons.mp h with heq | h
      · rw [(Prod.mk.inj heq).1]
        exact mem_cons_self
      · exact mem_cons_of_mem a (ih h)

/-- A read that occurs once returns what the accesses before it leave. -/
theorem mem_exec_iff (he : isWrite e = false) (h₁ : e ∉ l₁) (h₂ : e ∉ l₂) :
    (e, u) ∈ (exec isWrite val v (l₁ ++ e :: l₂)).1 ↔ u = (exec isWrite val v l₁).2 := by
  rw [exec_append, exec_read he, mem_append, mem_cons]
  constructor
  · rintro (h | h | h)
    · exact absurd (fst_mem_exec h) h₁
    · exact (Prod.mk.inj h).2
    · exact absurd (fst_mem_exec h) h₂
  · rintro rfl
    exact Or.inr (Or.inl rfl)

/-- A read returns the value at the start or one that was written. -/
theorem source_mem (h : (e, u) ∈ (exec isWrite val v l).1) : u = v ∨ ∃ w ∈ l, u = val w := by
  induction l generalizing v with
  | nil => simp [exec] at h
  | cons a l ih =>
    cases ha : isWrite a with
    | true =>
      rw [exec_write ha] at h
      rcases ih h with h | ⟨w, hw, h⟩
      · exact Or.inr ⟨a, mem_cons_self, h⟩
      · exact Or.inr ⟨w, mem_cons_of_mem a hw, h⟩
    | false =>
      rw [exec_read ha] at h
      rcases mem_cons.mp h with heq | h
      · exact Or.inl (Prod.mk.inj heq).2
      · rcases ih h with h | ⟨w, hw, h⟩
        · exact Or.inl h
        · exact Or.inr ⟨w, mem_cons_of_mem a hw, h⟩

/-- What is read after a write does not depend on what was there before. -/
theorem exec_of_head_write (h : ∀ r, l.head? = some r → isWrite r = true) (v v' : V) :
    (exec isWrite val v l).1 = (exec isWrite val v' l).1 := by
  cases l with
  | nil => rfl
  | cons a l => rw [exec_write (h a rfl), exec_write (h a rfl)]

end Exec

/-! ## View equivalence -/

section ViewEq

variable {ε : Type} {isWrite : ε → Bool} {l₁ l₂ : List ε}

/-- Every read returns the same value and the same value is left, for any values written and any
value at the start. -/
def ViewEq (isWrite : ε → Bool) (l₁ l₂ : List ε) : Prop :=
  ∀ (V : Type) (val : ε → V) (v : V), (exec isWrite val v l₁).1.Perm (exec isWrite val v l₂).1 ∧
    (exec isWrite val v l₁).2 = (exec isWrite val v l₂).2

/-- The accesses performed with every write storing itself; `none` is there at the start. -/
def sources (isWrite : ε → Bool) (l : List ε) : List (ε × Option ε) × Option ε := exec isWrite some none l

/-- **One choice of values is enough**: the one that shows which write each read reads from. -/
theorem viewEq_iff : ViewEq isWrite l₁ l₂ ↔
    (sources isWrite l₁).1.Perm (sources isWrite l₂).1 ∧ (sources isWrite l₁).2 = (sources isWrite l₂).2 := by
  constructor
  · intro h
    exact h (Option ε) some none
  · intro h V val v
    have hnat : ∀ l, exec isWrite val v l =
        ((sources isWrite l).1.map (Prod.map id fun o => o.elim v val), (sources isWrite l).2.elim v val) :=
      exec_map (fun o : Option ε => o.elim v val) some none
    rw [hnat l₁, hnat l₂]
    exact ⟨h.1.map _, congrArg (fun o => o.elim v val) h.2⟩

end ViewEq

/-! ## Two accesses with others in between -/

section Serializable

variable {ε τ : Type} [DecidableEq τ] (thread : ε → τ) (isWrite : ε → Bool)

/-- The accesses `l` between `x` and `y` cannot be told apart from the same accesses, each thread's in
its order, none of them between `x` and `y`. -/
def Serializable (x y : ε) (l : List ε) : Prop :=
  ∃ pre post, KeepsOrder thread l (pre ++ post) ∧ ViewEq isWrite (x :: (l ++ [y])) (pre ++ x :: y :: post)

/-- What `l` must be for this: it does not begin with a read if `x` and `y` both write, and has no
write otherwise. -/
def Harmless (x y : ε) (l : List ε) : Prop :=
  if isWrite x && isWrite y then ∀ r, l.head? = some r → isWrite r = true else ∀ r ∈ l, isWrite r = false

variable {thread isWrite} {x y : ε} {l pre post : List ε}

theorem keepsOrder_refl (thread : ε → τ) (l : List ε) : KeepsOrder thread l l := fun _ => rfl

/-- Harmless accesses all move before `x`, or all after `y`. -/
theorem serializable_of_harmless (h : Harmless isWrite x y l) : Serializable thread isWrite x y l := by
  have hbefore : ∀ hview : ViewEq isWrite (x :: (l ++ [y])) (l ++ [x, y]), Serializable thread isWrite x y l :=
    fun hview => ⟨l, [], by rw [append_nil]; exact keepsOrder_refl thread l, hview⟩
  unfold Harmless at h
  cases hx : isWrite x with
  | false =>
    rw [if_neg (by simp [hx])] at h
    refine hbefore fun V val v => ?_
    have hl : (exec isWrite val v l).2 = v := final_of_reads h
    rw [exec_read hx, exec_append, exec_append, hl, exec_read hx]
    exact ⟨perm_middle.symm, rfl⟩
  | true =>
    cases hy : isWrite y with
    | true =>
      rw [if_pos (by simp [hx, hy])] at h
      refine hbefore fun V val v => ?_
      rw [exec_write hx, exec_append, exec_append, exec_write hx, exec_write hy, exec_write hy,
        exec_of_head_write h (val x) v]
      exact ⟨Perm.refl _, rfl⟩
    | false =>
      rw [if_neg (by simp [hy])] at h
      refine ⟨[], l, by rw [nil_append]; exact keepsOrder_refl thread l, fun V val v => ?_⟩
      have hl : (exec isWrite val (val x) l).2 = val x := final_of_reads h
      rw [nil_append, exec_write hx, exec_append, exec_write hx, exec_read hy, exec_read hy, hl]
      exact ⟨perm_append_singleton _ _, rfl⟩

/-- With a write among the accesses it or a later one is the last source. -/
theorem exists_last_write {w : ε} (hw : w ∈ l) (hwrite : isWrite w = true) :
    ∃ x ∈ l, isWrite x = true ∧ ∀ v, (exec isWrite some v l).2 = some x := final_of_write hw hwrite

/-- The source of a read that both orders perform once. -/
theorem source_eq {e : ε} (l₁ l₂ l₁' l₂' : List ε) (he : isWrite e = false) (h₁ : e ∉ l₁) (h₂ : e ∉ l₂)
    (h₁' : e ∉ l₁') (h₂' : e ∉ l₂') (hview : ViewEq isWrite (l₁ ++ e :: l₂) (l₁' ++ e :: l₂')) :
    (sources isWrite l₁).2 = (sources isWrite l₁').2 := by
  have hperm := (viewEq_iff.mp hview).1
  have hmem : (e, (sources isWrite l₁).2) ∈ (sources isWrite (l₁ ++ e :: l₂)).1 := (mem_exec_iff he h₁ h₂).mpr rfl
  exact (mem_exec_iff he h₁' h₂').mp (hperm.mem_iff.mp hmem)

section Cases

variable (hkeeps : KeepsOrder thread l (pre ++ post))
  (hview : ViewEq isWrite (x :: (l ++ [y])) (pre ++ x :: y :: post)) (hx : x ∉ l) (hy : y ∉ l) (hxy : x ≠ y)

include hkeeps in
theorem not_mem_parts {e : ε} (he : e ∉ l) : e ∉ pre ∧ e ∉ post := by
  rw [← hkeeps.mem_iff, mem_append] at he
  exact not_or.mp he

include hkeeps hview hx hxy in
/-- Between two writes a read at the head reads from `x`; with nothing in between nobody does. -/
theorem head_write (hxw : isWrite x = true) (hyw : isWrite y = true) :
    ∀ r, l.head? = some r → isWrite r = true := by
  intro r hr
  by_contra hread
  rw [Bool.not_eq_true] at hread
  obtain ⟨l', rfl⟩ : ∃ l', l = r :: l' := ⟨l.tail, eq_cons_of_mem_head? hr⟩
  have hmem : (r, some x) ∈ (sources isWrite (x :: (r :: l' ++ [y]))).1 := by
    rw [sources, exec_write hxw, cons_append, exec_read hread]
    exact mem_cons_self
  rw [(viewEq_iff.mp hview).1.mem_iff, sources, exec_append, exec_write hxw, exec_write hyw, mem_append] at hmem
  obtain ⟨hpre, hpost⟩ := not_mem_parts hkeeps hx
  rcases hmem with h | h
  · rcases source_mem h with h | ⟨w, hw, h⟩
    · exact absurd h (by simp)
    · exact hpre (Option.some.inj h ▸ hw)
  · rcases source_mem h with h | ⟨w, hw, h⟩
    · exact hxy (Option.some.inj h)
    · exact hpost (Option.some.inj h ▸ hw)

include hkeeps hview hx hy hxy in
/-- Between a write and a read a write is read from by `y`; with nothing in between `y` reads from
`x`. -/
theorem no_write_before_read (hxw : isWrite x = true) (hyw : isWrite y = false) :
    ∀ r ∈ l, isWrite r = false := by
  intro r hr
  by_contra hwrite
  rw [Bool.not_eq_false] at hwrite
  obtain ⟨hpre, hpost⟩ := not_mem_parts hkeeps hy
  have hsrc := source_eq (x :: l) [] (pre ++ [x]) post hyw
    (by simp [hy, hxy.symm]) (by simp) (by simp [hpre, hxy.symm]) hpost (by simpa using hview)
  obtain ⟨z, hz, -, hleft⟩ := exists_last_write hr hwrite
  rw [sources, sources, exec_append, exec_write hxw, exec_write hxw, hleft] at hsrc
  exact hx (Option.some.inj hsrc ▸ hz)

include hkeeps hview hx hy hxy in
/-- A read `x` returns what was there before, so every write of `l` would move after `y`: then it is
not read by `y`, and `y` does not write last. -/
theorem no_write_after_read (hxw : isWrite x = false) : ∀ r ∈ l, isWrite r = false := by
  obtain ⟨hxpre, hxpost⟩ := not_mem_parts hkeeps hx
  obtain ⟨hypre, hypost⟩ := not_mem_parts hkeeps hy
  have hsrc := source_eq [] (l ++ [y]) pre (y :: post) hxw (by simp)
    (by simp [hx, hxy]) hxpre (by simp [hxpost, hxy]) hview
  have hpre : ∀ w ∈ pre, isWrite w = false := by
    intro w hw
    by_contra hww
    obtain ⟨z, -, -, hleft⟩ := exists_last_write hw (by simpa using hww)
    rw [sources, sources, hleft] at hsrc
    exact absurd hsrc (by simp [exec])
  intro r hr
  by_contra hwrite
  rw [Bool.not_eq_false] at hwrite
  have hpost : r ∈ post := by
    rcases mem_append.mp (hkeeps.mem_iff.mpr hr) with hr | hr
    · exact absurd (hpre r hr) (by simp [hwrite])
    · exact hr
  cases hyw : isWrite y with
  | true =>
    have hfinal := (viewEq_iff.mp hview).2
    obtain ⟨z, hz, -, hleft⟩ := exists_last_write hpost hwrite
    rw [sources, sources, exec_read hxw, exec_append, exec_append, exec_write hyw, exec_read hxw,
      exec_write hyw, hleft] at hfinal
    exact hypost (Option.some.inj hfinal ▸ hz)
  | false =>
    have hsrc' := source_eq (x :: l) [] (pre ++ [x]) post hyw
      (by simp [hy, hxy.symm]) (by simp) (by simp [hypre, hxy.symm]) hypost (by simpa using hview)
    obtain ⟨z, -, -, hleft⟩ := exists_last_write hr hwrite
    rw [sources, sources, exec_append, exec_read hxw, exec_read hxw, hleft, final_of_reads hpre] at hsrc'
    exact absurd hsrc' (by simp [exec])

end Cases

/-- **When two accesses with others in between are serializable.** -/
theorem serializable_iff (hx : x ∉ l) (hy : y ∉ l) (hxy : x ≠ y) :
    Serializable thread isWrite x y l ↔ Harmless isWrite x y l := by
  refine ⟨?_, serializable_of_harmless⟩
  rintro ⟨pre, post, hkeeps, hview⟩
  unfold Harmless
  split_ifs with hboth
  · rw [Bool.and_eq_true] at hboth
    exact head_write hkeeps hview hx hxy hboth.1 hboth.2
  · cases hxw : isWrite x with
    | false => exact no_write_after_read hkeeps hview hx hy hxy hxw
    | true =>
      have hyw : isWrite y = false := by simpa [hxw] using hboth
      exact no_write_before_read hkeeps hview hx hy hxy hxw hyw

end Serializable

end Base
end AVPredictor
