import Mathlib.Data.Fintype.Card
import AVPredictor.Offline.GroupInv

/-!
# AVPredictor.Offline.Founders — no two groups can be merged

`grouper` starts a group only for an entry that interferes with every group there is.  This entry
stays the first of its group, and groups only grow, so at any later time the first entry of a group
interferes with some entry of every earlier group (`founded_run`): the controller could not replay two
of the files as one.  So the number of groups, which is the number of controlled runs, lies between the
number of entries that interfere with each other and the number of those that interfere with one of them
(`groupNum_bounds`).
-/

namespace AVPredictor
namespace Offline

open Base

/-- The first entry of each group interferes with an entry of every earlier group. -/
def Founded (groupSet : List (List Entry)) : Prop :=
  groupSet.Pairwise fun g g' => ∃ new, g'.head? = some new ∧ ¬ CanJoin g new

section Founded

variable {groupSet : List (List Entry)} {calls : List Entry} {s s' : GroupState} {new : Entry}

/-- A group that grows keeps its founder, and what interferes with it. -/
theorem Founded.set (h : Founded groupSet) (hne : ∀ g ∈ groupSet, g ≠ []) {k : ℕ} {g : List Entry}
    (hk : groupSet[k]? = some g) (new : Entry) : Founded (groupSet.set k (g ++ [new])) := by
  obtain ⟨hlt, hget⟩ := List.getElem?_eq_some_iff.mp hk
  have hgrow : ∀ i (hi : i < (groupSet.set k (g ++ [new])).length) (hi' : i < groupSet.length),
      groupSet[i] ⊆ (groupSet.set k (g ++ [new]))[i] ∧
        (groupSet.set k (g ++ [new]))[i].head? = groupSet[i].head? := by
    intro i hi hi'
    by_cases hik : k = i
    · subst hik
      rw [List.getElem_set_self, hget]
      have hg : g ≠ [] := hne g (List.mem_of_getElem? hk)
      exact ⟨List.subset_append_left _ _, List.head?_append_of_ne_nil g hg⟩
    · rw [List.getElem_set_ne hik]
      exact ⟨List.Subset.refl _, rfl⟩
  refine List.pairwise_iff_getElem.mpr ?_
  intro i j hi hj hij
  rw [List.length_set] at hi hj
  obtain ⟨founder, hfounder, hnot⟩ := List.pairwise_iff_getElem.mp h i j hi hj hij
  obtain ⟨hsub, -⟩ := hgrow i (by rwa [List.length_set]) hi
  obtain ⟨-, hhead⟩ := hgrow j (by rwa [List.length_set]) hj
  exact ⟨founder, hhead.trans hfounder, fun hjoin => hnot fun ci hci => hjoin ci (hsub hci)⟩

/-- **One call.** -/
theorem Founded.called (h : Founded s.groupSet) (hne : ∀ g ∈ s.groupSet, g ≠ []) (hcalled : Called s new s') :
    Founded s'.groupSet := by
  cases hcalled with
  | repeated hold => exact h
  | placed hnew hplaced files =>
    cases hplaced with
    | started hno =>
      refine List.pairwise_append.mpr ⟨h, List.pairwise_singleton _ _, ?_⟩
      intro g hg g' hg'
      rw [List.mem_singleton.mp hg']
      exact ⟨new, rfl, hno g hg⟩
    | joined hk hjoin hleast => exact h.set hne hk new

/-- **The run.** -/
theorem founded_run (hwf : ∀ e ∈ calls, e.WellFormed) :
    ∃ s, grouperRun calls = .ok s ∧ GroupInv calls s ∧ FilesInv s ∧ Founded s.groupSet := by
  induction calls using List.reverseRecOn with
  | nil => exact ⟨.init, rfl, groupInv_init, ⟨by simp [GroupState.init], fun _ _ => rfl⟩, .nil⟩
  | append_singleton calls new ih =>
    have hpre : ∀ e ∈ calls, e.WellFormed := fun e he => hwf e (List.mem_append_left _ he)
    obtain ⟨s, hrun, h, hf, hfounded⟩ := ih hpre
    obtain ⟨s', hcall, hcalled, h', hf'⟩ := h.step hf hpre (hwf new (by simp))
    refine ⟨s', ?_, h', hf', hfounded.called h.nonempty hcalled⟩
    rw [grouperRun, foldlM_concat hrun, hcall]

/-- **Every file is needed**: after any calls with well-formed intervals, of two groups the later one
has a first entry that interferes with an entry of the earlier one, so their entries cannot be one
group. -/
theorem groups_not_mergeable (hwf : ∀ e ∈ calls, e.WellFormed) :
    ∃ s, grouperRun calls = .ok s ∧ ∀ (i j : ℕ) (g g' : List Entry), i < j → s.groupSet[i]? = some g →
      s.groupSet[j]? = some g' →
      (∃ new, g'.head? = some new ∧ ∃ ci ∈ g, ¬ Separated ci new) ∧ ¬ (g ++ g').Pairwise Separated := by
  obtain ⟨s, hrun, -, -, hfounded⟩ := founded_run hwf
  refine ⟨s, hrun, ?_⟩
  intro i j g g' hij hg hg'
  obtain ⟨hi, rfl⟩ := List.getElem?_eq_some_iff.mp hg
  obtain ⟨hj, rfl⟩ := List.getElem?_eq_some_iff.mp hg'
  obtain ⟨new, hhead, hnot⟩ := List.pairwise_iff_getElem.mp hfounded i j hi hj hij
  unfold CanJoin at hnot
  push Not at hnot
  obtain ⟨ci, hci, hsep⟩ := hnot
  refine ⟨⟨new, hhead, ci, hci, hsep⟩, fun hall => hsep ?_⟩
  exact (List.pairwise_append.mp hall).2.2 ci hci new (List.mem_of_mem_head? hhead)

theorem groups_not_mergeable_threeCalls :
    ∃ s, grouperRun threeCalls = .ok s ∧
      ∀ (i j : ℕ) (g g' : List Entry), i < j → s.groupSet[i]? = some g → s.groupSet[j]? = some g' →
        (∃ new, g'.head? = some new ∧ ∃ ci ∈ g, ¬ Separated ci new) ∧ ¬ (g ++ g').Pairwise Separated :=
  groups_not_mergeable (by decide)

/-! ## How many groups -/

/-- The different triples of the calls that interfere with `new`, its own included. -/
def interferers (calls : List Entry) (new : Entry) : List (Interval × Interval × Interval) :=
  ((calls.filter fun e => ¬ Separated e new).map Entry.key).eraseDups

theorem Separated.irrefl {a : Entry} (ha : a.WellFormed) : ¬ Separated a a :=
  fun h => h.start_ne ha ha rfl

/-- Entries with different triples that interfere with each other are in different groups. -/
theorem GroupInv.length_le (h : GroupInv calls s) {es : List Entry} (hes : ∀ e ∈ es, e ∈ calls)
    (hnodup : (es.map Entry.key).Nodup) (hall : es.Pairwise fun a b => ¬ Separated a b) :
    es.length ≤ s.groupNum := by
  -- the group of each entry
  have hgroup : ∀ i : Fin es.length, ∃ j : Fin s.groupSet.length, ∃ e ∈ s.groupSet[j], e.key = es[i].key := by
    intro i
    obtain ⟨e, he, hkey⟩ := List.mem_map.mp (h.held es[i] (hes _ (List.getElem_mem i.isLt)))
    obtain ⟨g, hg, heg⟩ := List.mem_flatten.mp he
    obtain ⟨j, hj, rfl⟩ := List.getElem_of_mem hg
    exact ⟨⟨j, hj⟩, e, heg, hkey⟩
  choose f hf using hgroup
  have hinj : Function.Injective f := by
    intro i i' heq
    by_contra hne
    obtain ⟨a, ha, hakey⟩ := hf i
    obtain ⟨b, hb, hbkey⟩ := hf i'
    have hkeys : es[i].key ≠ es[i'].key := by
      intro hkey
      have heq : es[i] = es[i'] :=
        List.inj_on_of_nodup_map hnodup (List.getElem_mem i.isLt) (List.getElem_mem i'.isLt) hkey
      exact hne (Fin.ext ((List.Nodup.of_map _ hnodup).getElem_inj_iff.mp heq))
    have hab : Separated a b := by
      have hsymm : Std.Symm Separated := ⟨fun _ _ => Separated.symm⟩
      rw [← heq] at hb
      refine (h.separated _ (List.getElem_mem (f i).isLt)).forall ha hb ?_
      rintro rfl
      exact hkeys (hakey.symm.trans hbkey)
    have hsep : Separated es[i] es[i'] :=
      (separated_congr hakey).mp ((separated_congr hbkey).mp hab.symm).symm
    have hsymm : Std.Symm fun a b => ¬ Separated a b := ⟨fun _ _ hn hs => hn (Separated.symm hs)⟩
    exact hall.forall (List.getElem_mem _) (List.getElem_mem _) (fun heq' => hkeys (congrArg Entry.key heq')) hsep
  have hcard := Fintype.card_le_of_injective f hinj
  rwa [Fintype.card_fin, Fintype.card_fin, ← h.num] at hcard

/-- Different groups have no triple in common. -/
theorem GroupInv.disjoint (h : GroupInv calls s) : s.groupSet.Pairwise
    fun g g' => ∀ a ∈ g, ∀ b ∈ g', a.key ≠ b.key := by
  have hnodup := h.nodup
  rw [List.map_flatten, List.nodup_flatten, List.pairwise_map] at hnodup
  refine hnodup.2.imp fun hdisjoint a ha b hb heq => ?_
  exact hdisjoint (List.mem_map_of_mem ha) (heq ▸ List.mem_map_of_mem hb)

/-- The founder of the last group interferes with an entry of every group. -/
theorem GroupInv.exists_interferers (h : GroupInv calls s) (hfounded : Founded s.groupSet)
    (hwf : ∀ e ∈ calls, e.WellFormed) (hpos : 0 < s.groupNum) :
    ∃ new ∈ calls, s.groupNum ≤ (interferers calls new).length := by
  have hlast : s.groupNum - 1 < s.groupSet.length := by
    rw [← h.num]
    omega
  have hsubmitted : ∀ g ∈ s.groupSet, ∀ e ∈ g, e ∈ calls := fun g hg e he =>
    h.submitted e (List.mem_flatten_of_mem hg he)
  obtain ⟨new, rest, hnew⟩ := List.exists_cons_of_ne_nil (h.nonempty _ (List.getElem_mem hlast))
  have hmem : new ∈ s.groupSet[s.groupNum - 1] := by simp [hnew]
  have hcall := hsubmitted _ (List.getElem_mem hlast) new hmem
  refine ⟨new, hcall, ?_⟩
  -- an entry of each group that interferes with the founder; of the last group, itself
  have hone : ∀ g ∈ s.groupSet, ∃ e ∈ g, ¬ Separated e new := by
    intro g hg
    obtain ⟨i, hi, rfl⟩ := List.getElem_of_mem hg
    by_cases hi' : i = s.groupNum - 1
    · subst hi'
      exact ⟨new, hmem, Separated.irrefl (hwf new hcall)⟩
    · have hlt : i < s.groupNum - 1 := by
        rw [← h.num] at hi
        omega
      obtain ⟨founder, hhead, hnot⟩ := List.pairwise_iff_getElem.mp hfounded i _ hi hlast hlt
      rw [hnew] at hhead
      obtain rfl := Option.some.inj hhead
      unfold CanJoin at hnot
      push Not at hnot
      exact hnot
  have hnonempty : Nonempty Entry := ⟨new⟩
  choose! rep hrep hinterferes using hone
  have hnodup : (s.groupSet.map fun g => (rep g).key).Nodup := by
    rw [List.Nodup, List.pairwise_map]
    refine h.disjoint.imp_of_mem ?_
    intro g g' hg hg' hne
    exact hne _ (hrep g hg) _ (hrep g' hg')
  have hsub : (s.groupSet.map fun g => (rep g).key) ⊆ interferers calls new := by
    intro key hkey
    obtain ⟨g, hg, rfl⟩ := List.mem_map.mp hkey
    refine List.mem_eraseDups.mpr (List.mem_map_of_mem (List.mem_filter.mpr ⟨hsubmitted g hg _ (hrep g hg), ?_⟩))
    exact decide_eq_true (hinterferes g hg)
  have hle := (List.subperm_of_subset hnodup hsub).length_le
  rwa [List.length_map, ← h.num] at hle

/-- **How many groups there are**: at least as many as there are entries with different triples that all
interfere with each other, and at most as many as there are triples that interfere with one entry. -/
theorem groupNum_bounds (hwf : ∀ e ∈ calls, e.WellFormed) :
    ∃ s, grouperRun calls = .ok s ∧
      (∀ es : List Entry, (∀ e ∈ es, e ∈ calls) → (es.map Entry.key).Nodup →
        (es.Pairwise fun a b => ¬ Separated a b) → es.length ≤ s.groupNum) ∧
      ∀ d, (∀ new ∈ calls, (interferers calls new).length ≤ d) → s.groupNum ≤ d := by
  obtain ⟨s, hrun, h, -, hfounded⟩ := founded_run hwf
  refine ⟨s, hrun, fun es hes hnodup hall => h.length_le hes hnodup hall, fun d hd => ?_⟩
  rcases Nat.eq_zero_or_pos s.groupNum with hzero | hpos
  · omega
  · obtain ⟨new, hnew, hle⟩ := h.exists_interferers hfounded hwf hpos
    exact hle.trans (hd new hnew)

end Founded

/-- Two groups for `threeCalls`: two of its entries interfere, and no entry interferes with three. -/
theorem groupNum_bounds_threeCalls :
    ∃ s, grouperRun threeCalls = .ok s ∧
      (∀ es : List Entry, (∀ e ∈ es, e ∈ threeCalls) → (es.map Entry.key).Nodup →
        (es.Pairwise fun a b => ¬ Separated a b) → es.length ≤ s.groupNum) ∧
      ∀ d, (∀ new ∈ threeCalls, (interferers threeCalls new).length ≤ d) → s.groupNum ≤ d :=
  groupNum_bounds (by decide)

end Offline
end AVPredictor
