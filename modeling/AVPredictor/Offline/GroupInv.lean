import Mathlib.Data.List.Induction
import AVPredictor.Offline.Grouper

/-!
# AVPredictor.Offline.GroupInv — the group invariant over runs

* `sortGroup_ok`: no entry falls through the insertion loop, because separated entries begin at
  different times.
* `Called` says what one call does: a repeated triple changes nothing, a new one is `Placed`, and the
  files are written.
* `GroupInv` and `FilesInv` are the invariants, of the groups and of the files; `GroupInv.step` is
  the step, `groupInv_run` the run.
* `Sorted.endsBefore`: sorting by one interval has sorted by all three.
-/

namespace AVPredictor
namespace Offline

open Base

/-! ## The insertion sort -/

/-- Sorted by the starts of the first intervals. -/
def Sorted (l : List Entry) : Prop := l.Pairwise fun a b => a.start < b.start

theorem insertMiddle_perm {x : Entry} {l : List Entry} {a : Entry} (ha : a.start < x.start)
    (hlast : x.start < (l.getLastD a).start) (hne : ∀ e ∈ l, e.start ≠ x.start) :
    (insertMiddle x (a :: l)).Perm (x :: a :: l) := by
  induction l generalizing a with
  | nil =>
    rw [List.getLastD_nil] at hlast
    omega
  | cons b l ih =>
    rw [List.forall_mem_cons] at hne
    rw [insertMiddle]
    by_cases hb : x.start > a.start ∧ x.start < b.start
    · rw [if_pos hb]
      exact List.Perm.swap x a (b :: l)
    · rw [if_neg hb]
      rw [List.getLastD_cons] at hlast
      have hperm := ih (a := b) (by omega) hlast hne.2
      exact (hperm.cons a).trans (List.Perm.swap x a (b :: l))

theorem insertMiddle_sorted {x : Entry} {l : List Entry} {a : Entry} (ha : a.start < x.start)
    (hlast : x.start < (l.getLastD a).start) (hne : ∀ e ∈ l, e.start ≠ x.start) (hl : Sorted (a :: l)) :
    Sorted (insertMiddle x (a :: l)) := by
  induction l generalizing a with
  | nil =>
    rw [List.getLastD_nil] at hlast
    omega
  | cons b l ih =>
    rw [List.forall_mem_cons] at hne
    obtain ⟨hal, hbl⟩ := List.pairwise_cons.mp hl
    rw [List.getLastD_cons] at hlast
    rw [insertMiddle]
    by_cases hb : x.start > a.start ∧ x.start < b.start
    · rw [if_pos hb]
      obtain ⟨hbs, -⟩ := List.pairwise_cons.mp hbl
      refine List.pairwise_cons.mpr ⟨?_, List.pairwise_cons.mpr ⟨?_, hbl⟩⟩
      · exact List.forall_mem_cons.mpr ⟨hb.1, hal⟩
      · refine List.forall_mem_cons.mpr ⟨hb.2, ?_⟩
        intro e he
        have hlt := hbs e he
        omega
    · rw [if_neg hb]
      have hbx : b.start < x.start := by omega
      refine List.pairwise_cons.mpr ⟨?_, ih hbx hlast hne.2 hbl⟩
      intro e he
      rcases List.mem_cons.mp ((insertMiddle_perm hbx hlast hne.2).mem_iff.mp he) with rfl | he
      · exact ha
      · exact hal e he

/-- A list and an entry after all of it. -/
theorem Sorted.concat {l : List Entry} (hl : Sorted l) {x : Entry} (h : ∀ e ∈ l, e.start < x.start) :
    Sorted (l ++ [x]) :=
  List.pairwise_append.mpr ⟨hl, List.pairwise_singleton _ _, fun e he y hy => by
    rw [List.mem_singleton.mp hy]
    exact h e he⟩

/-- A sorted list and an entry before all of it. -/
theorem Sorted.cons {s0 : Entry} {rest : List Entry} (hl : Sorted (s0 :: rest)) {x : Entry}
    (h : x.start < s0.start) : Sorted (x :: s0 :: rest) := by
  refine List.pairwise_cons.mpr ⟨List.forall_mem_cons.mpr ⟨h, ?_⟩, hl⟩
  intro e he
  have hlt := (List.pairwise_cons.mp hl).1 e he
  omega

/-- Nothing in a sorted list begins after its last entry. -/
theorem Sorted.le_last {a : Entry} {l : List Entry} (hl : Sorted (a :: l)) :
    ∀ e ∈ a :: l, e.start ≤ (l.getLastD a).start := by
  induction l generalizing a with
  | nil =>
    intro e he
    rw [List.mem_singleton.mp he]
    exact le_refl _
  | cons b l ih =>
    obtain ⟨hal, hbl⟩ := List.pairwise_cons.mp hl
    have hb := ih hbl
    rw [List.getLastD_cons]
    refine List.forall_mem_cons.mpr ⟨?_, hb⟩
    have h1 := hal b (by simp)
    have h2 := hb b (by simp)
    omega

/-- One insertion puts the entry at its place. -/
theorem sortInsert_ok {sortedList : List Entry} (hl : Sorted sortedList) {x : Entry} {j : ℕ}
    (hj : sortedList.length = j) (hne : ∀ e ∈ sortedList, e.start ≠ x.start) :
    ∃ r, sortInsert sortedList (x, j) = .ok r ∧ r.Perm (x :: sortedList) ∧ Sorted r := by
  match sortedList, hj with
  | [], hj =>
    subst hj
    exact ⟨[x], rfl, List.Perm.refl _, List.pairwise_singleton _ _⟩
  | [s0], hj =>
    subst hj
    have h0 : s0.start ≠ x.start := hne s0 (by simp)
    refine ⟨_, rfl, ?_⟩
    by_cases hx : x.start < s0.start
    · rw [if_pos hx]
      exact ⟨List.Perm.refl _, hl.cons hx⟩
    · rw [if_neg hx]
      refine ⟨List.perm_append_singleton x [s0], hl.concat ?_⟩
      intro e he
      rw [List.mem_singleton.mp he]
      omega
  | s0 :: s1 :: rest, hj =>
    subst hj
    refine ⟨_, rfl, ?_⟩
    have h0 : s0.start ≠ x.start := hne s0 (by simp)
    have hlast : ((s1 :: rest).getLastD s0).start ≠ x.start := hne _ List.getLastD_mem_cons
    by_cases hx : x.start < s0.start
    · rw [if_pos hx]
      exact ⟨List.Perm.refl _, hl.cons hx⟩
    · rw [if_neg hx]
      by_cases hy : x.start > ((s1 :: rest).getLastD s0).start
      · rw [if_pos hy]
        refine ⟨List.perm_append_singleton x _, hl.concat ?_⟩
        intro e he
        have hle := hl.le_last e he
        omega
      · rw [if_neg hy]
        have hrest := (List.forall_mem_cons.mp hne).2
        exact ⟨insertMiddle_perm (by omega) (by omega) hrest,
          insertMiddle_sorted (by omega) (by omega) hrest hl⟩

/-- **The sort drops nothing**: entries that begin at different times come out sorted, each once. -/
theorem sortGroup_ok {originList : List Entry} (h : originList.Pairwise fun a b => a.start ≠ b.start) :
    ∃ r, sortGroup originList = .ok r ∧ r.Perm originList ∧ Sorted r := by
  have hrun : ∀ (todo sortedList : List Entry) (j : ℕ), sortedList.length = j → Sorted sortedList →
      (∀ e ∈ sortedList, ∀ x ∈ todo, e.start ≠ x.start) → todo.Pairwise (fun a b => a.start ≠ b.start) →
      ∃ r, (todo.zipIdx j).foldlM sortInsert sortedList = .ok r ∧ r.Perm (sortedList ++ todo) ∧ Sorted r := by
    intro todo
    induction todo with
    | nil =>
      intro sortedList j _ hl _ _
      exact ⟨sortedList, rfl, by rw [List.append_nil], hl⟩
    | cons x todo ih =>
      intro sortedList j hj hl hne htodo
      obtain ⟨hxs, htodo⟩ := List.pairwise_cons.mp htodo
      obtain ⟨l, hstep, hperm, hl'⟩ := sortInsert_ok hl hj fun e he => hne e he x (by simp)
      have hlen : l.length = j + 1 := by
        rw [hperm.length_eq, List.length_cons, hj]
      obtain ⟨r, hr, hrperm, hrs⟩ := ih l (j + 1) hlen hl' (fun e he y hy => by
        rcases List.mem_cons.mp (hperm.mem_iff.mp he) with rfl | he
        · exact hxs y hy
        · exact hne e he y (List.mem_cons_of_mem _ hy)) htodo
      refine ⟨r, ?_, ?_, hrs⟩
      · rw [List.zipIdx_cons, List.foldlM_cons, hstep]
        exact hr
      · exact hrperm.trans ((hperm.append_right todo).trans List.perm_middle.symm)
  exact hrun originList [] 0 rfl List.Pairwise.nil (by simp) h

/-! ## The invariant -/

/-- What holds after the calls `calls`. -/
structure GroupInv (calls : List Entry) (s : GroupState) : Prop where
  num : s.groupNum = s.groupSet.length
  nonempty : ∀ g ∈ s.groupSet, g ≠ []
  separated : ∀ g ∈ s.groupSet, g.Pairwise Separated
  submitted : ∀ e ∈ s.groupSet.flatten, e ∈ calls
  held : ∀ e ∈ calls, e.key ∈ s.groupSet.flatten.map Entry.key
  nodup : (s.groupSet.flatten.map Entry.key).Nodup

section Invariant

variable {calls : List Entry} {s : GroupState} {new : Entry}

theorem groupInv_init : GroupInv [] .init :=
  ⟨rfl, by simp [GroupState.init], by simp [GroupState.init], by simp [GroupState.init], by simp,
    List.nodup_nil⟩

theorem GroupInv.files (h : GroupInv calls s) (files : ℕ → Option (List Char)) :
    GroupInv calls { s with files := files } :=
  ⟨h.num, h.nonempty, h.separated, h.submitted, h.held, h.nodup⟩

/-- A copy of a held entry is recognised. -/
theorem GroupInv.place_duplicate (h : GroupInv calls s) (hmem : new.key ∈ s.groupSet.flatten.map Entry.key) :
    s.place new = .ok none := by
  obtain ⟨e, he, hkey⟩ := List.mem_map.mp hmem
  obtain ⟨g, hg, heg⟩ := List.mem_flatten.mp he
  obtain ⟨k, hk⟩ := List.mem_iff_getElem?.mp hg
  have hlt : k < s.groupSet.length := (List.getElem?_eq_some_iff.mp hk).1
  have hnum := h.num
  rw [GroupState.place, if_neg (by omega)]
  rw [chooseGroup_duplicate h.separated (fun i hi => by rw [List.mem_range] at hi; omega)
    (List.mem_range.mpr (by omega)) hk (hkey ▸ List.mem_map_of_mem heg) none]
  rfl

/-- The invariant with one entry more, wherever it was put. -/
theorem GroupInv.add (h : GroupInv calls s) {s' : GroupState}
    (hnew : new.key ∉ s.groupSet.flatten.map Entry.key) (hnum : s'.groupNum = s'.groupSet.length)
    (hnonempty : ∀ g ∈ s'.groupSet, g ≠ []) (hsep : ∀ g ∈ s'.groupSet, g.Pairwise Separated)
    (hperm : s'.groupSet.flatten.Perm (new :: s.groupSet.flatten)) : GroupInv (calls ++ [new]) s' := by
  have hkeys := hperm.map Entry.key
  refine ⟨hnum, hnonempty, hsep, ?_, ?_, ?_⟩
  · intro e he
    rcases List.mem_cons.mp (hperm.mem_iff.mp he) with rfl | he
    · simp
    · exact List.mem_append_left _ (h.submitted e he)
  · intro e he
    rw [hkeys.mem_iff, List.map_cons]
    rcases List.mem_append.mp he with he | he
    · exact List.mem_cons_of_mem _ (h.held e he)
    · rw [List.mem_singleton.mp he]
      exact List.mem_cons_self
  · rw [hkeys.nodup_iff, List.map_cons]
    exact List.nodup_cons.mpr ⟨hnew, h.nodup⟩

theorem GroupInv.startGroup (h : GroupInv calls s) (hnew : new.key ∉ s.groupSet.flatten.map Entry.key) :
    GroupInv (calls ++ [new]) (s.startGroup new) := by
  have hmem : ∀ {p : List Entry → Prop}, (∀ g ∈ s.groupSet, p g) → p [new] →
      ∀ g ∈ (s.startGroup new).groupSet, p g := fun hold hsingle =>
    List.forall_mem_append.mpr ⟨hold, List.forall_mem_singleton.mpr hsingle⟩
  refine h.add hnew ?_ (hmem h.nonempty (by simp)) (hmem h.separated (List.pairwise_singleton _ _)) ?_
  · show s.groupNum + 1 = (s.groupSet ++ [[new]]).length
    rw [List.length_append, h.num]
    rfl
  · show (s.groupSet ++ [[new]]).flatten.Perm _
    rw [List.flatten_append]
    exact List.perm_append_singleton new _

theorem GroupInv.insert (h : GroupInv calls s) (hnew : new.key ∉ s.groupSet.flatten.map Entry.key)
    {k : ℕ} {g : List Entry} (hk : s.groupSet[k]? = some g) (hjoin : CanJoin g new) :
    GroupInv (calls ++ [new]) { s with groupSet := s.groupSet.set k (g ++ [new]) } := by
  obtain ⟨hlt, hget⟩ := List.getElem?_eq_some_iff.mp hk
  have hsplit : s.groupSet = s.groupSet.take k ++ g :: s.groupSet.drop (k + 1) := by
    rw [← hget, ← List.drop_eq_getElem_cons hlt, List.take_append_drop]
  have hset : s.groupSet.set k (g ++ [new]) =
      s.groupSet.take k ++ (g ++ [new]) :: s.groupSet.drop (k + 1) :=
    List.set_eq_take_append_cons_drop.trans (if_pos hlt)
  have hg : g ∈ s.groupSet := List.mem_of_getElem? hk
  refine h.add hnew ?_ ?_ ?_ ?_
  · show s.groupNum = (s.groupSet.set k (g ++ [new])).length
    rw [List.length_set, h.num]
  · intro g' hg'
    rcases List.mem_or_eq_of_mem_set hg' with hg' | rfl
    · exact h.nonempty g' hg'
    · simp
  · intro g' hg'
    rcases List.mem_or_eq_of_mem_set hg' with hg' | rfl
    · exact h.separated g' hg'
    · refine List.pairwise_append.mpr ⟨h.separated g hg, List.pairwise_singleton _ _, ?_⟩
      intro a ha b hb
      rw [List.mem_singleton.mp hb]
      exact hjoin a ha
  · show (s.groupSet.set k (g ++ [new])).flatten.Perm (new :: s.groupSet.flatten)
    rw [hset, List.flatten_append, List.flatten_cons, List.append_assoc, ← List.append_assoc]
    conv_rhs => rw [hsplit, List.flatten_append, List.flatten_cons, ← List.append_assoc]
    exact List.perm_middle

/-- What `place` does with a new triple: it goes to a smallest group that is separated from it, or
starts one if there is none. -/
inductive Placed (s : GroupState) (new : Entry) : GroupState → Prop where
  | started (hno : ∀ g ∈ s.groupSet, ¬ CanJoin g new) : Placed s new (s.startGroup new)
  | joined {k : ℕ} {g : List Entry} (hk : s.groupSet[k]? = some g) (hjoin : CanJoin g new)
      (hleast : ∀ g' ∈ s.groupSet, CanJoin g' new → g.length ≤ g'.length) :
      Placed s new { s with groupSet := s.groupSet.set k (g ++ [new]) }

theorem GroupInv.place_new (h : GroupInv calls s) (hnew : new.key ∉ s.groupSet.flatten.map Entry.key) :
    ∃ s', s.place new = .ok (some s') ∧ Placed s new s' := by
  rw [GroupState.place]
  by_cases h0 : s.groupNum = 0
  · rw [if_pos h0]
    refine ⟨_, rfl, .started ?_⟩
    intro g hg
    have hpos := List.length_pos_of_mem hg
    rw [← h.num] at hpos
    omega
  · rw [if_neg h0]
    have hnone : ∀ g ∈ s.groupSet, new.key ∉ g.map Entry.key := by
      intro g hg hmem
      obtain ⟨e, he, hkey⟩ := List.mem_map.mp hmem
      exact hnew (hkey ▸ List.mem_map_of_mem (List.mem_flatten_of_mem hg he))
    have his : ∀ i, i ∈ List.range s.groupNum ↔ i < s.groupSet.length := by
      intro i
      rw [List.mem_range, h.num]
    obtain ⟨b, hb, hsmall⟩ := chooseGroup_new hnone (fun i => (his i).mp) smallest_nil
    have hleast : ∀ g ∈ s.groupSet, CanJoin g new → ∃ k l, b = some (k, l) ∧ l ≤ g.length := by
      intro g hg hjoin
      obtain ⟨i, hi⟩ := List.mem_iff_getElem?.mp hg
      have hlt := (List.getElem?_eq_some_iff.mp hi).1
      exact hsmall.least i ((his i).mpr hlt) g hi (scanGroup_free (hnone g hg) hjoin)
    rw [hb]
    cases b with
    | none =>
      refine ⟨_, rfl, .started ?_⟩
      intro g hg hjoin
      obtain ⟨k, l, hno, -⟩ := hleast g hg hjoin
      exact absurd hno (by simp)
    | some p =>
      obtain ⟨g, hg, hfree⟩ := hsmall.fits p.1 p.2 rfl
      refine ⟨{ s with groupSet := s.groupSet.set p.1 (g ++ [new]) }, ?_,
        .joined hg (canJoin_of_scanGroup hfree) ?_⟩
      · rw [bind_eq_ok]
        exact ⟨_, rfl, by simp only [hg]⟩
      · intro g' hg' hjoin
        obtain ⟨k, l, hkl, hle⟩ := hleast g' hg' hjoin
        obtain rfl := Option.some.inj hkl
        rwa [hsmall.size _ _ rfl g hg]

theorem GroupInv.placed (h : GroupInv calls s) (hnew : new.key ∉ s.groupSet.flatten.map Entry.key)
    {s' : GroupState} (hplaced : Placed s new s') : GroupInv (calls ++ [new]) s' := by
  cases hplaced with
  | started hno => exact h.startGroup hnew
  | joined hk hjoin hleast => exact h.insert hnew hk hjoin

theorem Placed.files {s' : GroupState} (h : Placed s new s') : s'.files = s.files := by
  cases h with
  | started hno => rfl
  | joined hk hjoin hleast => rfl

theorem Placed.groupNum_le {s' : GroupState} (h : Placed s new s') : s.groupNum ≤ s'.groupNum := by
  cases h with
  | started hno => exact Nat.le_succ _
  | joined hk hjoin hleast => exact le_rfl

/-! ## The files -/

/-- The file of a group: the messages of its entries in the order of the first intervals. -/
def Written (g : List Entry) (file : Option (List Char)) : Prop :=
  ∃ r : List Entry, r.Perm g ∧ Sorted r ∧ file = some (r.flatMap Entry.msg)

theorem GroupInv.sort_ok (h : GroupInv calls s) (hwf : ∀ e ∈ calls, e.WellFormed) {g : List Entry}
    (hg : g ∈ s.groupSet) : ∃ r, sortGroup g = .ok r ∧ r.Perm g ∧ Sorted r := by
  have hw : ∀ e ∈ g, e.WellFormed := fun e he => hwf e (h.submitted e (List.mem_flatten_of_mem hg he))
  refine sortGroup_ok ?_
  exact (h.separated g hg).imp_of_mem fun ha hb hab => hab.start_ne (hw _ ha) (hw _ hb)

/-- Writing the files succeeds and changes nothing else. -/
theorem GroupInv.write (h : GroupInv calls s) (hwf : ∀ e ∈ calls, e.WellFormed) (n : ℕ)
    (hn : n ≤ s.groupNum) :
    ∃ files, (List.range n).foldlM writeGroup s = .ok { s with files := files } ∧
      (∀ i g, i < n → s.groupSet[i]? = some g → Written g (files i)) ∧ ∀ i, n ≤ i → files i = s.files i := by
  induction n with
  | zero => exact ⟨s.files, rfl, by simp, by simp⟩
  | succ n ih =>
    obtain ⟨files, hrun, hwritten, hrest⟩ := ih (by omega)
    have hlt : n < s.groupSet.length := by
      rw [← h.num]
      omega
    have hget := List.getElem?_eq_getElem hlt
    obtain ⟨r, hr, hperm, hsorted⟩ := h.sort_ok hwf (List.getElem_mem hlt)
    have hne : 0 < (s.groupSet[n]).length := List.length_pos_iff.mpr (h.nonempty _ (List.getElem_mem hlt))
    have hstep : writeGroup { s with files := files } n = .ok { s with
        files := fun k => if k = n then some (r.flatMap Entry.msg) else files k } := by
      simp only [writeGroup, hget]
      rw [if_neg (by omega), hr]
      show (if s.groupSet[n].length ≠ r.length then _ else _) = _
      rw [if_neg (not_not_intro hperm.length_eq.symm)]
    refine ⟨fun k => if k = n then some (r.flatMap Entry.msg) else files k, ?_, ?_,
      ?_⟩
    · rw [List.range_succ, foldlM_concat hrun, hstep]
    · intro i g hi hg
      by_cases hin : i = n
      · subst hin
        rw [hget, Option.some.injEq] at hg
        exact ⟨r, hg ▸ hperm, hsorted, if_pos rfl⟩
      · have hold : files i = (fun k => if k = n then some (r.flatMap Entry.msg) else files k) i :=
          (if_neg hin).symm
        exact hold ▸ hwritten i g (by omega) hg
    · intro i hi
      exact (if_neg (by omega)).trans (hrest i (by omega))

theorem call_duplicate (hplace : s.place new = .ok none) : s.call new = .ok s := by
  show (s.place new >>= _) = _
  rw [hplace]
  rfl

theorem call_placed {s' : GroupState} (hplace : s.place new = .ok (some s')) :
    s.call new = (List.range s'.groupNum).foldlM writeGroup s' := by
  show (s.place new >>= _) = _
  rw [hplace]
  rfl

/-- The files that are there: one for each group. -/
structure FilesInv (s : GroupState) : Prop where
  written : ∀ i g, s.groupSet[i]? = some g → Written g (s.files i)
  beyond : ∀ i, s.groupNum ≤ i → s.files i = none

theorem GroupInv.mem_keys (h : GroupInv calls s) {k : Interval × Interval × Interval} :
    k ∈ calls.map Entry.key ↔ k ∈ s.groupSet.flatten.map Entry.key := by
  constructor
  · intro hmem
    obtain ⟨e, he, rfl⟩ := List.mem_map.mp hmem
    exact h.held e he
  · intro hmem
    obtain ⟨e, he, rfl⟩ := List.mem_map.mp hmem
    exact List.mem_map_of_mem (h.submitted e he)

/-- What one call does: a repeated triple changes nothing, a new one is placed and all files are
written. -/
inductive Called (s : GroupState) (new : Entry) : GroupState → Prop where
  | repeated (hold : new.key ∈ s.groupSet.flatten.map Entry.key) : Called s new s
  | placed (hnew : new.key ∉ s.groupSet.flatten.map Entry.key) {s' : GroupState} (hplaced : Placed s new s')
      (files : ℕ → Option (List Char)) : Called s new { s' with files := files }

/-- **One call** ends without an exception and keeps the invariants. -/
theorem GroupInv.step (h : GroupInv calls s) (hf : FilesInv s) (hwf : ∀ e ∈ calls, e.WellFormed)
    (hnew : new.WellFormed) :
    ∃ s', s.call new = .ok s' ∧ Called s new s' ∧ GroupInv (calls ++ [new]) s' ∧ FilesInv s' := by
  by_cases hmem : new.key ∈ s.groupSet.flatten.map Entry.key
  · refine ⟨s, call_duplicate (h.place_duplicate hmem), .repeated hmem, ?_, hf⟩
    refine ⟨h.num, h.nonempty, h.separated, ?_, ?_, h.nodup⟩
    · exact fun e he => List.mem_append_left _ (h.submitted e he)
    · exact List.forall_mem_append.mpr ⟨h.held, List.forall_mem_singleton.mpr hmem⟩
  · obtain ⟨s1, hplace, hplaced⟩ := h.place_new hmem
    have h1 := h.placed hmem hplaced
    have hwf1 : ∀ e ∈ calls ++ [new], e.WellFormed :=
      List.forall_mem_append.mpr ⟨hwf, List.forall_mem_singleton.mpr hnew⟩
    obtain ⟨files, hrun, hwritten, hrest⟩ := h1.write hwf1 s1.groupNum le_rfl
    refine ⟨_, ?_, .placed hmem hplaced files, h1.files files, ?_, ?_⟩
    · rw [call_placed hplace, hrun]
    · intro i g hg
      have hlt := (List.getElem?_eq_some_iff.mp hg).1
      have hnum := h1.num
      exact hwritten i g (by show i < s1.groupNum; rw [hnum]; exact hlt) hg
    · intro i hi
      have hnum := hplaced.groupNum_le
      have hi : s1.groupNum ≤ i := hi
      show files i = none
      rw [hrest i hi, hplaced.files, hf.beyond i (by omega)]

end Invariant

/-- The run: no call raises anything, and the invariants hold at the end. -/
theorem groupInv_run {calls : List Entry} (hwf : ∀ e ∈ calls, e.WellFormed) :
    ∃ s, grouperRun calls = .ok s ∧ GroupInv calls s ∧ FilesInv s := by
  induction calls using List.reverseRecOn with
  | nil => exact ⟨.init, rfl, groupInv_init, by simp [GroupState.init], fun _ _ => rfl⟩
  | append_singleton calls new ih =>
    have hpre : ∀ e ∈ calls, e.WellFormed := fun e he => hwf e (List.mem_append_left _ he)
    obtain ⟨s, hrun, h, hf⟩ := ih hpre
    obtain ⟨s', hcall, -, h', hf'⟩ := h.step hf hpre (hwf new (by simp))
    refine ⟨s', ?_, h', hf'⟩
    rw [grouperRun, foldlM_concat hrun, hcall]

/-- **The group invariant**: after any calls with well-formed intervals, entries of one group are
pairwise separated, `group_num` counts the groups, none is empty, every triple submitted is held
exactly once over all groups and nothing else is, and a call with a triple submitted before leaves
the state as it is. -/
theorem grouper_invariant {calls : List Entry} (hwf : ∀ e ∈ calls, e.WellFormed) :
    ∃ s, grouperRun calls = .ok s ∧ (∀ g ∈ s.groupSet, g.Pairwise Separated) ∧
      s.groupNum = s.groupSet.length ∧ (∀ g ∈ s.groupSet, g ≠ []) ∧
      (∀ k ∈ calls.map Entry.key, (s.groupSet.flatten.map Entry.key).count k = 1) ∧
      (∀ e ∈ s.groupSet.flatten, e ∈ calls) ∧
      ∀ e : Entry, e.key ∈ calls.map Entry.key → s.call e = .ok s := by
  obtain ⟨s, hrun, h, -⟩ := groupInv_run hwf
  have hheld : ∀ k ∈ calls.map Entry.key, k ∈ s.groupSet.flatten.map Entry.key := fun k => h.mem_keys.mp
  refine ⟨s, hrun, h.separated, h.num, h.nonempty, ?_, h.submitted, ?_⟩
  · intro k hk
    exact List.count_eq_one_of_mem h.nodup (hheld k hk)
  · intro e he
    exact call_duplicate (h.place_duplicate (hheld _ he))

/-- Two candidates that interfere and a copy of the first. -/
def threeCalls : List Entry :=
  [⟨(1, 2), (5, 6), (3, 4), ['a']⟩, ⟨(4, 9), (10, 11), (12, 13), ['b']⟩, ⟨(1, 2), (5, 6), (3, 4), ['c']⟩]

theorem grouper_invariant_threeCalls :
    ∃ s, grouperRun threeCalls = .ok s ∧ (∀ g ∈ s.groupSet, g.Pairwise Separated) ∧
      s.groupNum = s.groupSet.length ∧ (∀ g ∈ s.groupSet, g ≠ []) ∧
      (∀ k ∈ threeCalls.map Entry.key, (s.groupSet.flatten.map Entry.key).count k = 1) ∧
      (∀ e ∈ s.groupSet.flatten, e ∈ threeCalls) ∧
      ∀ e : Entry, e.key ∈ threeCalls.map Entry.key → s.call e = .ok s :=
  grouper_invariant (by decide)

/-! ## The files in order -/

/-- Of two separated entries the one that begins first is over before the other begins. -/
theorem Separated.endsBefore {a b : Entry} (h : Separated a b) (hb : b.WellFormed) (hlt : a.start < b.start) :
    EndsBefore a b := by
  rcases h with h | h
  · exact h
  · have hgt := h.start_lt hb
    omega

/-- The order of the first intervals is the order of all three. -/
theorem Sorted.endsBefore {r g : List Entry} (hr : Sorted r) (hperm : r.Perm g) (hsep : g.Pairwise Separated)
    (hwf : ∀ e ∈ g, e.WellFormed) : r.Pairwise EndsBefore := by
  have hsep' : r.Pairwise Separated := (hperm.pairwise_iff fun h => h.symm).mpr hsep
  refine (hsep'.and hr).imp_of_mem ?_
  intro a b _ hb hab
  exact hab.1.endsBefore (hwf b (hperm.mem_iff.mp hb)) hab.2

/-- **The group files are complete and in order**: after any calls with well-formed intervals, none
of which raises anything, the groups hold entries of the calls, one for each triple, the file of every
group has the messages of its entries, each once, and every entry is over in all three intervals before
the next one begins. -/
theorem group_files {calls : List Entry} (hwf : ∀ e ∈ calls, e.WellFormed) :
    ∃ s, grouperRun calls = .ok s ∧ (∀ e ∈ s.groupSet.flatten, e ∈ calls) ∧
      (∀ e ∈ calls, e.key ∈ s.groupSet.flatten.map Entry.key) ∧ (s.groupSet.flatten.map Entry.key).Nodup ∧
      ∀ i < s.groupNum, ∃ g r : List Entry, s.groupSet[i]? = some g ∧
        r.Perm g ∧ r.Pairwise EndsBefore ∧ s.files i = some (r.flatMap Entry.msg) := by
  obtain ⟨s, hrun, h, hf⟩ := groupInv_run hwf
  refine ⟨s, hrun, h.submitted, h.held, h.nodup, ?_⟩
  intro i hi
  rw [h.num] at hi
  have hget := List.getElem?_eq_getElem hi
  have hmem : s.groupSet[i] ∈ s.groupSet := List.getElem_mem hi
  obtain ⟨r, hperm, hsorted, hfile⟩ := hf.written i _ hget
  refine ⟨s.groupSet[i], r, hget, hperm, ?_, hfile⟩
  refine hsorted.endsBefore hperm (h.separated _ hmem) ?_
  intro e he
  exact hwf e (h.submitted e (List.mem_flatten_of_mem hmem he))

/-- Three separated candidates, submitted last, first and middle. -/
def unsortedCalls : List Entry :=
  [⟨(20, 21), (22, 23), (24, 25), ['a']⟩, ⟨(1, 2), (5, 6), (3, 4), ['b']⟩, ⟨(10, 11), (12, 13), (9, 9), ['c']⟩]

theorem group_files_unsortedCalls :
    ∃ s, grouperRun unsortedCalls = .ok s ∧ (∀ e ∈ s.groupSet.flatten, e ∈ unsortedCalls) ∧
      (∀ e ∈ unsortedCalls, e.key ∈ s.groupSet.flatten.map Entry.key) ∧
      (s.groupSet.flatten.map Entry.key).Nodup ∧
      ∀ i < s.groupNum, ∃ g r : List Entry, s.groupSet[i]? = some g ∧
        r.Perm g ∧ r.Pairwise EndsBefore ∧ s.files i = some (r.flatMap Entry.msg) :=
  group_files (by decide)

end Offline
end AVPredictor
