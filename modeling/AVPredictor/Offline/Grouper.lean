import AVPredictor.Base.Loops
import AVPredictor.Offline.Data

/-!
# AVPredictor.Offline.Grouper — `grouper`

Every candidate with a new triple of intervals goes to a group with which it does not interfere, or
starts a new one; then all group files are written again, each in the order of the first intervals.

* `scanGroup` is the loop over one group: it stops at the first entry that is the same triple or
  that interferes. `scanGroup_duplicate`: since the entries of a group are pairwise separated, an
  earlier entry never interferes with a copy of a later one, so the scan always meets the copy.
* `chooseGroup` is the loop over the groups.  `chooseGroup_duplicate`: it returns when one of them
  has a copy; `chooseGroup_new`: else it picks a smallest one of the groups that are separated from
  the entry, if there are any.
-/

namespace AVPredictor
namespace Offline

open Base

/-- A two-element list `[start, finish]`. -/
abbrev Interval := ℕ × ℕ

/-- The dictionary `ci` of an entry of a group. -/
structure Entry where
  firstInterval : Interval
  secondInterval : Interval
  interInterval : Interval
  msg : List Char
deriving DecidableEq, Repr

/-- The globals `group_num` and `group_set`, and the contents of the files `group_i.log`. -/
structure GroupState where
  groupNum : ℕ
  groupSet : List (List Entry)
  files : ℕ → Option (List Char)

/-! ## The code -/

/-- The same three intervals. -/
def sameIntervals (new ci : Entry) : Bool :=
  new.firstInterval.1 = ci.firstInterval.1 ∧ new.firstInterval.2 = ci.firstInterval.2 ∧
    new.secondInterval.1 = ci.secondInterval.1 ∧ new.secondInterval.2 = ci.secondInterval.2 ∧
    new.interInterval.1 = ci.interInterval.1 ∧ new.interInterval.2 = ci.interInterval.2

/-- The nine comparisons of the first test: `new` begins after `ci`. -/
def beginsAfter (new ci : Entry) : Bool :=
  new.firstInterval.1 > ci.firstInterval.2 ∧ new.firstInterval.1 > ci.secondInterval.2 ∧
    new.firstInterval.1 > ci.interInterval.2 ∧
  new.secondInterval.1 > ci.firstInterval.2 ∧ new.secondInterval.1 > ci.secondInterval.2 ∧
    new.secondInterval.1 > ci.interInterval.2 ∧
  new.interInterval.1 > ci.firstInterval.2 ∧ new.interInterval.1 > ci.secondInterval.2 ∧
    new.interInterval.1 > ci.interInterval.2

/-- The nine comparisons of the second test: `new` ends before `ci`. -/
def endsBefore (new ci : Entry) : Bool :=
  new.firstInterval.2 < ci.firstInterval.1 ∧ new.firstInterval.2 < ci.secondInterval.1 ∧
    new.firstInterval.2 < ci.interInterval.1 ∧
  new.secondInterval.2 < ci.firstInterval.1 ∧ new.secondInterval.2 < ci.secondInterval.1 ∧
    new.secondInterval.2 < ci.interInterval.1 ∧
  new.interInterval.2 < ci.firstInterval.1 ∧ new.interInterval.2 < ci.secondInterval.1 ∧
    new.interInterval.2 < ci.interInterval.1

/-- How the loop over one group ends: by `return`, by `break` with `interfere` set, or at the end of
the group. -/
inductive Scan where
  | duplicate
  | interfere
  | free
deriving DecidableEq, Repr

/-- The loop over the entries of one group. -/
def scanGroup (new : Entry) : List Entry → Scan
  | [] => .free
  | ci :: group =>
    if sameIntervals new ci then .duplicate
    else if beginsAfter new ci then scanGroup new group
    else if endsBefore new ci then scanGroup new group
    else .interfere

/-- `insert_id` with `insert_group_size` after a group `i` of size `l` that can take the entry;
`none` is `-1`. -/
def keepSmallest (best : Option (ℕ × ℕ)) (i l : ℕ) : Option (ℕ × ℕ) :=
  match best with
  | none => some (i, l)
  | some (insertId, insertGroupSize) =>
    if l < insertGroupSize then some (i, l) else some (insertId, insertGroupSize)

/-- The loop over the groups; `none` is the `return` of a duplicate. -/
def chooseGroup (groupSet : List (List Entry)) (new : Entry) :
    List ℕ → Option (ℕ × ℕ) → Except PyErr (Option (Option (ℕ × ℕ)))
  | [], best => .ok (some best)
  | i :: is, best =>
    match groupSet[i]? with
    | none => .error .indexError
    | some group =>
      match scanGroup new group with
      | .duplicate => .ok none
      | .interfere => chooseGroup groupSet new is best
      | .free => chooseGroup groupSet new is (keepSmallest best i group.length)

/-- A new group with one entry. -/
def GroupState.startGroup (s : GroupState) (new : Entry) : GroupState :=
  { s with groupSet := s.groupSet ++ [[new]], groupNum := s.groupNum + 1 }

/-- The part of `grouper` before the files are written; `none` is the `return` of a duplicate. -/
def GroupState.place (s : GroupState) (new : Entry) : Except PyErr (Option GroupState) :=
  if s.groupNum = 0 then .ok (some (s.startGroup new))
  else do
    match ← chooseGroup s.groupSet new (List.range s.groupNum) none with
    | none => .ok none
    | some none => .ok (some (s.startGroup new))
    | some (some (insertId, _)) =>
      match s.groupSet[insertId]? with
      | none => .error .indexError
      | some group => .ok (some { s with groupSet := s.groupSet.set insertId (group ++ [new]) })

/-- `["first_interval"][0]` -/
def Entry.start (e : Entry) : ℕ := e.firstInterval.1

/-- The `while` loop over `k`: insert between two neighbours; without such neighbours the entry is
dropped. -/
def insertMiddle (x : Entry) : List Entry → List Entry
  | a :: b :: l =>
    if x.start > a.start ∧ x.start < b.start then a :: x :: b :: l else a :: insertMiddle x (b :: l)
  | l => l

/-- The body of the loop over `j`: `origin_list[j]` goes into `sorted_list`. -/
def sortInsert (sortedList : List Entry) (xj : Entry × ℕ) : Except PyErr (List Entry) :=
  match xj, sortedList with
  | (x, 0), _ => .ok (sortedList ++ [x])
  | (_, _ + 1), [] => .error .indexError
  | (x, 1), s0 :: rest => .ok (if x.start < s0.start then x :: s0 :: rest else s0 :: rest ++ [x])
  | (x, _), s0 :: rest =>
    .ok (if x.start < s0.start then x :: s0 :: rest
      else if x.start > (rest.getLastD s0).start then s0 :: rest ++ [x]
      else insertMiddle x (s0 :: rest))

/-- `sorted_list` of a group. -/
def sortGroup (originList : List Entry) : Except PyErr (List Entry) :=
  originList.zipIdx.foldlM sortInsert []

/-- The body of the last loop: sort group `i` and write its file. -/
def writeGroup (s : GroupState) (i : ℕ) : Except PyErr GroupState :=
  match s.groupSet[i]? with
  | none => .error .indexError
  | some originList =>
    if originList.length < 1 then .error .assertionError
    else do
      let sortedList ← sortGroup originList
      if originList.length ≠ sortedList.length then .error .assertionError
      else .ok { s with files := fun k => if k = i then some (sortedList.flatMap Entry.msg) else s.files k }

/-- `grouper(first_interval, second_interval, inter_interval, msg_str)` -/
def grouper (s : GroupState) (firstInterval secondInterval interInterval : Interval) (msgStr : List Char) :
    Except PyErr GroupState := do
  match ← s.place ⟨firstInterval, secondInterval, interInterval, msgStr⟩ with
  | none => .ok s
  | some s' => (List.range s'.groupNum).foldlM writeGroup s'

/-- The state at start-up. -/
def GroupState.init : GroupState := ⟨0, [], fun _ => none⟩

/-- A call with the fields of an entry. -/
def GroupState.call (s : GroupState) (e : Entry) : Except PyErr GroupState :=
  grouper s e.firstInterval e.secondInterval e.interInterval e.msg

/-- A sequence of calls from the start. -/
def grouperRun (calls : List Entry) : Except PyErr GroupState := calls.foldlM GroupState.call .init

/-! ## Separated entries -/

/-- The three intervals. -/
def Entry.key (e : Entry) : Interval × Interval × Interval :=
  (e.firstInterval, e.secondInterval, e.interInterval)

def Entry.intervals (e : Entry) : List Interval := [e.firstInterval, e.secondInterval, e.interInterval]

/-- Every interval has its start first. -/
def Entry.WellFormed (e : Entry) : Prop := ∀ iv ∈ e.intervals, iv.1 ≤ iv.2

theorem Entry.wellFormed_of_key {e : Entry} {x y z : Interval} (hkey : e.key = (x, y, z)) (hx : x.1 ≤ x.2)
    (hy : y.1 ≤ y.2) (hz : z.1 ≤ z.2) : e.WellFormed := by
  have hfirst : e.firstInterval = x := congrArg Prod.fst hkey
  have hsecond : e.secondInterval = y := congrArg (fun k => k.2.1) hkey
  have hinter : e.interInterval = z := congrArg (fun k => k.2.2) hkey
  rw [Entry.WellFormed, Entry.intervals, hfirst, hsecond, hinter]
  simp [hx, hy, hz]

/-- All three intervals of `a` end strictly before all three of `b` begin. -/
def EndsBefore (a b : Entry) : Prop := ∀ x ∈ a.intervals, ∀ y ∈ b.intervals, x.2 < y.1

/-- One of the two ends before the other begins. -/
def Separated (a b : Entry) : Prop := EndsBefore a b ∨ EndsBefore b a

instance (a b : Entry) : Decidable (EndsBefore a b) := inferInstanceAs (Decidable (∀ x ∈ _, ∀ y ∈ _, _))

instance (a b : Entry) : Decidable (Separated a b) := inferInstanceAs (Decidable (_ ∨ _))

instance (e : Entry) : Decidable e.WellFormed := inferInstanceAs (Decidable (∀ x ∈ _, _))

theorem Separated.symm {a b : Entry} (h : Separated a b) : Separated b a := Or.symm h

theorem separated_congr {a a' b : Entry} (h : a.key = a'.key) : Separated a b ↔ Separated a' b := by
  simp only [Entry.key, Prod.mk.injEq] at h
  simp only [Separated, EndsBefore, Entry.intervals, h.1, h.2.1, h.2.2]

theorem sameIntervals_iff {new ci : Entry} : sameIntervals new ci = true ↔ new.key = ci.key := by
  simp only [sameIntervals, decide_eq_true_eq, Entry.key, Prod.ext_iff]
  tauto

theorem beginsAfter_iff {new ci : Entry} : beginsAfter new ci = true ↔ EndsBefore ci new := by
  simp only [beginsAfter, decide_eq_true_eq, EndsBefore, Entry.intervals, List.forall_mem_cons,
    List.not_mem_nil, false_implies, implies_true, and_true]
  tauto

theorem endsBefore_iff {new ci : Entry} : endsBefore new ci = true ↔ EndsBefore new ci := by
  simp only [endsBefore, decide_eq_true_eq, EndsBefore, Entry.intervals, List.forall_mem_cons,
    List.not_mem_nil, false_implies, implies_true, and_true]
  tauto

/-- Separated entries begin at different times. -/
theorem EndsBefore.start_lt {a b : Entry} (h : EndsBefore a b) (ha : a.WellFormed) : a.start < b.start := by
  have h1 : a.firstInterval.1 ≤ a.firstInterval.2 := ha _ (by simp [Entry.intervals])
  have h2 : a.firstInterval.2 < b.firstInterval.1 :=
    h _ (by simp [Entry.intervals]) _ (by simp [Entry.intervals])
  show a.firstInterval.1 < b.firstInterval.1
  omega

theorem Separated.start_ne {a b : Entry} (h : Separated a b) (ha : a.WellFormed) (hb : b.WellFormed) :
    a.start ≠ b.start := by
  rcases h with h | h
  · have hlt := h.start_lt ha
    omega
  · have hlt := h.start_lt hb
    omega

/-! ## The scan of a group -/

/-- A copy is always met: no entry before it interferes. -/
theorem scanGroup_duplicate {new : Entry} {group : List Entry} (hsep : group.Pairwise Separated)
    (hmem : new.key ∈ group.map Entry.key) : scanGroup new group = .duplicate := by
  induction group with
  | nil => simp at hmem
  | cons ci group ih =>
    rw [List.pairwise_cons] at hsep
    rw [scanGroup]
    by_cases hsame : sameIntervals new ci
    · rw [if_pos hsame]
    · have hrest : new.key ∈ group.map Entry.key := by
        rcases List.mem_cons.mp hmem with h | h
        · exact absurd (sameIntervals_iff.mpr h) hsame
        · exact h
      obtain ⟨e, he, hkey⟩ := List.mem_map.mp hrest
      have hci : Separated new ci := (separated_congr hkey).mp (hsep.1 e he).symm
      rw [if_neg hsame, ih hsep.2 hrest]
      rcases hci with h | h
      · rw [endsBefore_iff.mpr h, if_pos rfl, ite_self]
      · rw [if_pos (beginsAfter_iff.mpr h)]

theorem scanGroup_ne_duplicate {new : Entry} {group : List Entry} (hmem : new.key ∉ group.map Entry.key) :
    scanGroup new group ≠ .duplicate := by
  induction group with
  | nil => simp [scanGroup]
  | cons ci group ih =>
    rw [List.map_cons, List.mem_cons, not_or] at hmem
    rw [scanGroup, if_neg (fun h => hmem.1 (sameIntervals_iff.mp h))]
    split_ifs
    · exact ih hmem.2
    · exact ih hmem.2
    · simp

/-- The entry is separated from the whole group. -/
def CanJoin (group : List Entry) (new : Entry) : Prop := ∀ ci ∈ group, Separated ci new

instance (group : List Entry) (new : Entry) : Decidable (CanJoin group new) :=
  inferInstanceAs (Decidable (∀ ci ∈ _, _))

/-- A group that is free is separated from the entry. -/
theorem canJoin_of_scanGroup {new : Entry} {group : List Entry} (h : scanGroup new group = .free) :
    CanJoin group new := by
  induction group with
  | nil => simp [CanJoin]
  | cons ci group ih =>
    rw [scanGroup] at h
    split_ifs at h with h1 h2 h3
    · exact List.forall_mem_cons.mpr ⟨Or.inl (beginsAfter_iff.mp h2), ih h⟩
    · exact List.forall_mem_cons.mpr ⟨Or.inr (endsBefore_iff.mp h3), ih h⟩

/-- A group without a copy that is separated from the entry is free. -/
theorem scanGroup_free {new : Entry} {group : List Entry} (hnew : new.key ∉ group.map Entry.key)
    (h : CanJoin group new) : scanGroup new group = .free := by
  induction group with
  | nil => rfl
  | cons ci group ih =>
    rw [List.map_cons, List.mem_cons, not_or] at hnew
    obtain ⟨hci, hrest⟩ := List.forall_mem_cons.mp h
    rw [scanGroup, if_neg (fun hsame => hnew.1 (sameIntervals_iff.mp hsame)), ih hnew.2 hrest]
    rcases hci with hci | hci
    · rw [if_pos (beginsAfter_iff.mpr hci)]
    · rw [endsBefore_iff.mpr hci, if_pos rfl, ite_self]

/-! ## The choice of a group -/

section Choose

variable {groupSet : List (List Entry)} {new : Entry}

/-- A group that can take the entry. -/
def Fits (groupSet : List (List Entry)) (new : Entry) (best : Option (ℕ × ℕ)) : Prop :=
  ∀ i l, best = some (i, l) → ∃ group, groupSet[i]? = some group ∧ scanGroup new group = .free

theorem fits_keepSmallest {best : Option (ℕ × ℕ)} (h : Fits groupSet new best) {i : ℕ} {group : List Entry}
    (hi : groupSet[i]? = some group) (hfree : scanGroup new group = .free) (l : ℕ) :
    Fits groupSet new (keepSmallest best i l) := by
  intro k m hk
  have hnew : (i, l) = (k, m) → ∃ group, groupSet[k]? = some group ∧ scanGroup new group = .free := by
    intro heq
    obtain ⟨rfl, -⟩ := Prod.mk.inj heq
    exact ⟨group, hi, hfree⟩
  cases best with
  | none => exact hnew (Option.some.inj hk)
  | some b =>
    simp only [keepSmallest] at hk
    split_ifs at hk
    · exact hnew (Option.some.inj hk)
    · exact h k m hk

theorem chooseGroup_cons {i : ℕ} {group : List Entry} (hi : groupSet[i]? = some group) (is : List ℕ)
    (best : Option (ℕ × ℕ)) :
    chooseGroup groupSet new (i :: is) best = match scanGroup new group with
      | .duplicate => .ok none
      | .interfere => chooseGroup groupSet new is best
      | .free => chooseGroup groupSet new is (keepSmallest best i group.length) := by
  rw [chooseGroup, hi]

/-- With a copy in one of the groups still to be scanned the loop returns. -/
theorem chooseGroup_duplicate (hsep : ∀ g ∈ groupSet, g.Pairwise Separated) {is : List ℕ}
    (his : ∀ i ∈ is, i < groupSet.length) {k : ℕ} (hk : k ∈ is) {g : List Entry}
    (hg : groupSet[k]? = some g) (hmem : new.key ∈ g.map Entry.key) (best : Option (ℕ × ℕ)) :
    chooseGroup groupSet new is best = .ok none := by
  induction is generalizing best with
  | nil => simp at hk
  | cons i is ih =>
    rw [List.forall_mem_cons] at his
    have hi := List.getElem?_eq_getElem his.1
    rw [chooseGroup_cons hi]
    rcases List.mem_cons.mp hk with rfl | hk
    · rw [hi, Option.some.injEq] at hg
      rw [hg, scanGroup_duplicate (hsep g (List.mem_of_getElem? (hi.trans (congrArg some hg)))) hmem]
    · cases scanGroup new groupSet[i] with
      | duplicate => rfl
      | interfere => exact ih his.2 hk best
      | free => exact ih his.2 hk _

/-- What the loop keeps after the groups `seen`: a smallest one of those that can take the entry. -/
structure Smallest (groupSet : List (List Entry)) (new : Entry) (seen : List ℕ) (best : Option (ℕ × ℕ)) :
    Prop where
  fits : Fits groupSet new best
  size : ∀ i l, best = some (i, l) → ∀ group, groupSet[i]? = some group → group.length = l
  least : ∀ i ∈ seen, ∀ group, groupSet[i]? = some group → scanGroup new group = .free →
    ∃ k l, best = some (k, l) ∧ l ≤ group.length

section Seen

variable {seen : List ℕ} {best : Option (ℕ × ℕ)} {i : ℕ} {group : List Entry}

theorem smallest_nil : Smallest groupSet new [] none :=
  ⟨fun _ _ h => (nomatch h), fun _ _ h => (nomatch h), fun _ h => (nomatch h)⟩

/-- A group that cannot take the entry. -/
theorem Smallest.skip (h : Smallest groupSet new seen best) (hi : groupSet[i]? = some group)
    (hscan : scanGroup new group ≠ .free) : Smallest groupSet new (seen ++ [i]) best := by
  refine ⟨h.fits, h.size, ?_⟩
  intro k hk g hg hfree
  rcases List.mem_append.mp hk with hk | hk
  · exact h.least k hk g hg hfree
  · rw [List.mem_singleton.mp hk, hi] at hg
    obtain rfl := Option.some.inj hg
    exact absurd hfree hscan

/-- A group that can take it. -/
theorem Smallest.keep (h : Smallest groupSet new seen best) (hi : groupSet[i]? = some group)
    (hscan : scanGroup new group = .free) :
    Smallest groupSet new (seen ++ [i]) (keepSmallest best i group.length) := by
  have hsize : ∀ k l, (i, group.length) = (k, l) → ∀ g, groupSet[k]? = some g → g.length = l := by
    intro k l heq g hg
    obtain ⟨rfl, rfl⟩ := Prod.mk.inj heq
    rw [hi] at hg
    obtain rfl := Option.some.inj hg
    rfl
  -- the size kept is at most the new group's, and at most the one kept before
  have hleast : ∃ k l, keepSmallest best i group.length = some (k, l) ∧ l ≤ group.length ∧
      ∀ k' l', best = some (k', l') → l ≤ l' := by
    cases best with
    | none => exact ⟨i, group.length, rfl, le_rfl, fun _ _ hb => nomatch hb⟩
    | some b =>
      simp only [keepSmallest]
      split_ifs with hlt
      · refine ⟨i, group.length, rfl, le_rfl, fun k' l' hb => ?_⟩
        obtain rfl := Option.some.inj hb
        exact Nat.le_of_lt hlt
      · refine ⟨b.1, b.2, rfl, Nat.le_of_not_lt hlt, fun k' l' hb => ?_⟩
        obtain rfl := Option.some.inj hb
        exact le_rfl
  refine ⟨fits_keepSmallest h.fits hi hscan _, ?_, ?_⟩
  · intro k l hk
    cases best with
    | none => exact hsize k l (Option.some.inj hk)
    | some b =>
      simp only [keepSmallest] at hk
      split_ifs at hk
      · exact hsize k l (Option.some.inj hk)
      · exact h.size k l hk
  · intro k hk g hg hfree
    obtain ⟨k', l, hkeep, hnew, hold⟩ := hleast
    refine ⟨k', l, hkeep, ?_⟩
    rcases List.mem_append.mp hk with hk | hk
    · obtain ⟨k'', l'', hbest, hle⟩ := h.least k hk g hg hfree
      exact (hold k'' l'' hbest).trans hle
    · rw [List.mem_singleton.mp hk, hi] at hg
      obtain rfl := Option.some.inj hg
      exact hnew

end Seen

/-- Without a copy in any group the loop ends with a smallest group that fits, or with none. -/
theorem chooseGroup_new (hnew : ∀ g ∈ groupSet, new.key ∉ g.map Entry.key) {is seen : List ℕ}
    (his : ∀ i ∈ is, i < groupSet.length) {best : Option (ℕ × ℕ)}
    (hbest : Smallest groupSet new seen best) :
    ∃ b, chooseGroup groupSet new is best = .ok (some b) ∧ Smallest groupSet new (seen ++ is) b := by
  induction is generalizing seen best with
  | nil => exact ⟨best, rfl, by rwa [List.append_nil]⟩
  | cons i is ih =>
    rw [List.forall_mem_cons] at his
    have hi := List.getElem?_eq_getElem his.1
    rw [chooseGroup_cons hi, ← List.singleton_append, ← List.append_assoc]
    cases hscan : scanGroup new groupSet[i] with
    | duplicate => exact absurd hscan (scanGroup_ne_duplicate (hnew _ (List.getElem_mem his.1)))
    | interfere => exact ih his.2 (hbest.skip hi (by rw [hscan]; exact nofun))
    | free => exact ih his.2 (hbest.keep hi hscan)

end Choose

end Offline
end AVPredictor
