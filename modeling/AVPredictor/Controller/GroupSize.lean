import AVPredictor.Base.History
import AVPredictor.Controller.GroupFile

/-!
# AVPredictor.Controller.GroupSize — groups that the candidate arrays cannot hold

The arrays of the controller have `max_size` cells, "default max size for each group", and the
loading loop of `main` leaves the lines after these unread (`unreadLines_msgs`).  `grouper` does not
know of the bound: a new candidate goes to a smallest group that is separated from it, of whatever
size.  `loadable_iff`: a run makes only groups that the controller can load exactly when no new
candidate comes while all groups separated from it, one or more, are full.
-/

namespace AVPredictor
namespace Controller

open Base Offline

/-! ## The code -/

/-- What the loop of `main` with room for `n` more candidates leaves of the file. -/
def unreadLines (overflow : Bool → ℤ → UInt32) : ℕ → List Char → List Char
  | 0, file => file
  | n + 1, file =>
    match (fscanf overflow lineFormat file).ret with
    | none => (fscanf overflow lineFormat file).rest
    | some _ => unreadLines overflow n (fscanf overflow lineFormat file).rest

/-- What `main` leaves unread of a group file. -/
def unreadGroup (overflow : Bool → ℤ → UInt32) (file : List Char) : List Char :=
  unreadLines overflow maxSize file

/-! ## One file -/

section Unread

variable {overflow : Bool → ℤ → UInt32}

/-- The loop leaves the lines for which it has no room. -/
theorem unreadLines_msgs (ls : List LineNumbers) (n : ℕ) :
    unreadLines overflow n (ls.flatMap LineNumbers.msgStr) = (ls.drop n).flatMap LineNumbers.msgStr := by
  induction n generalizing ls with
  | zero => rfl
  | succ n ih =>
    cases ls with
    | nil =>
      rw [List.flatMap_nil, unreadLines, lineFormat_eq, fscanf_eof]
      rfl
    | cons l ls =>
      rw [List.flatMap_cons, unreadLines, fscanf_msgStr l (head_msgs ls)]
      exact ih ls

theorem unreadGroup_msgs_iff (ls : List LineNumbers) :
    unreadGroup overflow (ls.flatMap LineNumbers.msgStr) = [] ↔ ls.length ≤ maxSize := by
  rw [unreadGroup, unreadLines_msgs, List.flatMap_eq_nil_iff, ← List.drop_eq_nil_iff]
  constructor
  · intro h
    refine List.eq_nil_iff_forall_not_mem.mpr fun l hl => ?_
    obtain ⟨body, -, hline⟩ := isLine_msgStr l
    rw [h l hl] at hline
    exact absurd hline (by simp)
  · intro h l hl
    rw [h] at hl
    exact absurd hl List.not_mem_nil

end Unread

/-! ## The groups -/

/-- Every group fits in the candidate arrays, and so does its file: the loading loop leaves no
line of it unread. -/
structure Loadable (overflow : Bool → ℤ → UInt32) (s : GroupState) : Prop where
  sizes : ∀ g ∈ s.groupSet, g.length ≤ maxSize
  files : ∀ i file, s.files i = some file → (lines file).length ≤ maxSize ∧ unreadGroup overflow file = []

/-- If there are groups that can take the entry, one of them is not full. -/
def HasRoom (s : GroupState) (new : Entry) : Prop :=
  (∃ g ∈ s.groupSet, CanJoin g new) → ∃ g ∈ s.groupSet, CanJoin g new ∧ g.length < maxSize

/-- The message is a line of `find_identifier`. -/
def Printed (e : Entry) : Prop := ∃ l : LineNumbers, e.msg = l.msgStr

section Groups

variable {overflow : Bool → ℤ → UInt32} {calls : List Entry} {s s' : GroupState} {new : Entry}

theorem exists_lines {es : List Entry} (h : ∀ e ∈ es, Printed e) :
    ∃ ls : List LineNumbers, es.map Entry.msg = ls.map LineNumbers.msgStr := by
  induction es with
  | nil => exact ⟨[], rfl⟩
  | cons e es ih =>
    obtain ⟨⟨l, hl⟩, hrest⟩ := List.forall_mem_cons.mp h
    obtain ⟨ls, hls⟩ := ih hrest
    exact ⟨l :: ls, by rw [List.map_cons, List.map_cons, hl, hls]⟩

/-- A file is as long as its group, and read to its end exactly when the group fits. -/
theorem written_iff (overflow : Bool → ℤ → UInt32) {g : List Entry} (hmsg : ∀ e ∈ g, Printed e)
    {file : List Char} (h : Written g (some file)) :
    (lines file).length = g.length ∧ (unreadGroup overflow file = [] ↔ g.length ≤ maxSize) := by
  obtain ⟨r, hperm, -, hfile⟩ := h
  obtain rfl := Option.some.inj hfile
  obtain ⟨ls, hls⟩ := exists_lines fun e he => hmsg e (hperm.mem_iff.mp he)
  have hlen : ls.length = g.length := by
    rw [← List.length_map (f := LineNumbers.msgStr), ← hls, List.length_map, hperm.length_eq]
  have hflat : r.flatMap Entry.msg = ls.flatMap LineNumbers.msgStr := by
    rw [List.flatMap_def, hls, ← List.flatMap_def]
  rw [hflat, unreadGroup_msgs_iff, lines_flatMap fun l _ => isLine_msgStr l, List.length_map, hlen]
  exact ⟨rfl, Iff.rfl⟩

/-- The files add nothing to the bound on the groups. -/
theorem loadable_iff_sizes (h : GroupInv calls s) (hf : FilesInv s) (hmsg : ∀ e ∈ calls, Printed e) :
    Loadable overflow s ↔ ∀ g ∈ s.groupSet, g.length ≤ maxSize := by
  refine ⟨Loadable.sizes, fun hsizes => ⟨hsizes, ?_⟩⟩
  intro i file hfile
  have hlt : i < s.groupSet.length := by
    by_contra hge
    rw [hf.beyond i (by rw [h.num]; omega)] at hfile
    exact nomatch hfile
  have hg : s.groupSet[i] ∈ s.groupSet := List.getElem_mem hlt
  have hwritten := hf.written i _ (List.getElem?_eq_getElem hlt)
  rw [hfile] at hwritten
  have hprinted : ∀ e ∈ s.groupSet[i], Printed e := fun e he =>
    hmsg e (h.submitted e (List.mem_flatten_of_mem hg he))
  obtain ⟨hlen, hunread⟩ := written_iff overflow hprinted hwritten
  exact ⟨hlen ▸ hsizes _ hg, hunread.mpr (hsizes _ hg)⟩

/-- **One call** makes a group too long exactly when it has a new triple and no room. -/
theorem sizes_called_iff (hcalled : Called s new s') (hsizes : ∀ g ∈ s.groupSet, g.length ≤ maxSize) :
    (∀ g ∈ s'.groupSet, g.length ≤ maxSize) ↔
      new.key ∈ s.groupSet.flatten.map Entry.key ∨ HasRoom s new := by
  cases hcalled with
  | repeated hold => exact ⟨fun _ => Or.inl hold, fun _ => hsizes⟩
  | placed hnew hplaced files =>
    rw [or_iff_right hnew]
    cases hplaced with
    | started hno =>
      constructor
      · rintro - ⟨g, hg, hjoin⟩
        exact absurd hjoin (hno g hg)
      · intro _
        exact List.forall_mem_append.mpr ⟨hsizes, List.forall_mem_singleton.mpr (Nat.succ_pos _)⟩
    | @joined k g hk hjoin hleast =>
      have hg := List.mem_of_getElem? hk
      constructor
      · intro h _
        have hle := h (g ++ [new]) (List.mem_set (List.getElem?_eq_some_iff.mp hk).1 _)
        rw [List.length_append] at hle
        exact ⟨g, hg, hjoin, hle⟩
      · intro hroom g' hg'
        obtain ⟨g'', hg'', hjoin'', hlt⟩ := hroom ⟨g, hg, hjoin⟩
        have hle := hleast g'' hg'' hjoin''
        rcases List.mem_or_eq_of_mem_set hg' with hg' | rfl
        · exact hsizes g' hg'
        · rw [List.length_append, List.length_singleton]
          omega

end Groups

/-! ## Runs -/

section Runs

variable {overflow : Bool → ℤ → UInt32} {calls : List Entry}

/-- Over a run the groups grow only, so a group that became too long stays so. -/
theorem sizes_run_iff (hwf : ∀ e ∈ calls, e.WellFormed) :
    (∀ pre, pre <+: calls → ∃ s, grouperRun pre = .ok s ∧ ∀ g ∈ s.groupSet, g.length ≤ maxSize) ↔
      Always (fun pre e => e.key ∈ pre.map Entry.key ∨ ∃ s, grouperRun pre = .ok s ∧ HasRoom s e)
        calls := by
  induction calls using List.reverseRecOn with
  | nil =>
    refine ⟨fun _ => always_nil, fun _ pre hpre => ?_⟩
    obtain rfl := List.prefix_nil.mp hpre
    exact ⟨.init, rfl, fun g hg => nomatch hg⟩
  | append_singleton calls new ih =>
    have hpre : ∀ e ∈ calls, e.WellFormed := fun e he => hwf e (List.mem_append_left _ he)
    obtain ⟨s, hrun, h, hf⟩ := groupInv_run hpre
    obtain ⟨s', hcall, hcalled, -, -⟩ := h.step hf hpre (hwf new (by simp))
    have hrun' : grouperRun (calls ++ [new]) = .ok s' := by
      rw [grouperRun, foldlM_concat hrun, hcall]
    have hroom : (new.key ∈ calls.map Entry.key ∨ ∃ s, grouperRun calls = .ok s ∧ HasRoom s new) ↔
        new.key ∈ s.groupSet.flatten.map Entry.key ∨ HasRoom s new := by
      rw [h.mem_keys, hrun]
      simp
    rw [always_concat, ← ih hpre, hroom]
    constructor
    · intro hall
      have hold : ∀ pre, pre <+: calls → ∃ s, grouperRun pre = .ok s ∧ ∀ g ∈ s.groupSet, g.length ≤ maxSize :=
        fun pre hpre => hall pre (hpre.trans (List.prefix_append _ _))
      obtain ⟨s0, hs0, hsizes⟩ := hold calls (List.prefix_refl _)
      obtain rfl := Except.ok.inj (hrun.symm.trans hs0)
      obtain ⟨s1, hs1, hsizes'⟩ := hall _ (List.prefix_refl _)
      obtain rfl := Except.ok.inj (hrun'.symm.trans hs1)
      exact ⟨hold, (sizes_called_iff hcalled hsizes).mp hsizes'⟩
    · rintro ⟨hold, hlast⟩ pre hprefix
      rcases List.prefix_concat_iff.mp hprefix with rfl | hprefix
      · obtain ⟨s0, hs0, hsizes⟩ := hold calls (List.prefix_refl _)
        obtain rfl := Except.ok.inj (hrun.symm.trans hs0)
        exact ⟨s', hrun', (sizes_called_iff hcalled hsizes).mpr hlast⟩
      · exact hold pre hprefix

/-- **The controller can load all groups, after every call of a run, exactly when no new candidate
comes while the groups separated from it are all full**, if there are any. -/
theorem loadable_iff (hwf : ∀ e ∈ calls, e.WellFormed) (hmsg : ∀ e ∈ calls, Printed e) :
    (∀ pre, pre <+: calls → ∃ s, grouperRun pre = .ok s ∧ Loadable overflow s) ↔
      Always (fun pre e => e.key ∈ pre.map Entry.key ∨ ∃ s, grouperRun pre = .ok s ∧ HasRoom s e)
        calls := by
  rw [← sizes_run_iff hwf]
  refine forall₂_congr fun pre hpre => exists_congr fun s => and_congr_right fun hrun => ?_
  obtain ⟨s', hrun', h, hf⟩ := groupInv_run fun e he => hwf e (hpre.subset he)
  obtain rfl := Except.ok.inj (hrun.symm.trans hrun')
  exact loadable_iff_sizes h hf fun e he => hmsg e (hpre.subset he)

/-- Candidates that are separated from each other all go to one group. -/
theorem grouperRun_separated (hwf : ∀ e ∈ calls, e.WellFormed) (hsep : calls.Pairwise Separated)
    (hne : calls ≠ []) : ∃ s, grouperRun calls = .ok s ∧ s.groupSet = [calls] := by
  induction calls using List.reverseRecOn with
  | nil => exact absurd rfl hne
  | append_singleton calls new ih =>
    obtain ⟨hsep, -, hlast⟩ := List.pairwise_append.mp hsep
    have hpre : ∀ e ∈ calls, e.WellFormed := fun e he => hwf e (List.mem_append_left _ he)
    have hnew : new.WellFormed := hwf new (by simp)
    have hjoin : CanJoin calls new := fun e he => hlast e he new (by simp)
    have hkey : new.key ∉ calls.map Entry.key := by
      intro hmem
      obtain ⟨e, he, hkey⟩ := List.mem_map.mp hmem
      have hstart := (hjoin e he).start_ne (hpre e he) hnew
      exact hstart (congrArg (fun k => k.1.1) hkey)
    obtain ⟨s, hrun, h, hf⟩ := groupInv_run hpre
    obtain ⟨s', hcall, hcalled, -, -⟩ := h.step hf hpre hnew
    refine ⟨s', by rw [grouperRun, foldlM_concat hrun, hcall], ?_⟩
    have hset : s.groupSet = if calls = [] then [] else [calls] := by
      split_ifs with hnil
      · subst hnil
        obtain rfl := Except.ok.inj hrun
        rfl
      · obtain ⟨s0, hs0, hset⟩ := ih hpre hsep hnil
        obtain rfl := Except.ok.inj (hrun.symm.trans hs0)
        exact hset
    cases hcalled with
    | repeated hold => exact absurd (h.mem_keys.mpr hold) hkey
    | placed hnew hplaced files =>
      cases hplaced with
      | started hno =>
        have hnil : calls = [] := by
          by_contra hnil
          rw [hset, if_neg hnil] at hno
          exact hno calls (by simp) hjoin
        show s.groupSet ++ [[new]] = _
        rw [hset, if_pos hnil, hnil]
        rfl
      | @joined k g hk hjoin' hleast =>
        show s.groupSet.set k (g ++ [new]) = _
        rw [hset] at hk ⊢
        split_ifs at hk ⊢ with hnil
        · exact absurd hk (by simp)
        · obtain ⟨hlt, hget⟩ := List.getElem?_eq_some_iff.mp hk
          obtain rfl : k = 0 := Nat.lt_one_iff.mp hlt
          obtain rfl : calls = g := hget
          rfl

/-- A run of separated candidates makes groups that can be loaded exactly up to `max_size` of them. -/
theorem loadable_separated_iff (hwf : ∀ e ∈ calls, e.WellFormed) (hmsg : ∀ e ∈ calls, Printed e)
    (hsep : calls.Pairwise Separated) :
    (∀ pre, pre <+: calls → ∃ s, grouperRun pre = .ok s ∧ Loadable overflow s) ↔ calls.length ≤ maxSize := by
  constructor
  · intro hall
    by_cases hnil : calls = []
    · rw [hnil]
      exact Nat.zero_le _
    · obtain ⟨s, hrun, hload⟩ := hall calls (List.prefix_refl _)
      obtain ⟨s', hrun', hset⟩ := grouperRun_separated hwf hsep hnil
      obtain rfl := Except.ok.inj (hrun.symm.trans hrun')
      exact hload.sizes calls (by rw [hset]; exact List.mem_singleton_self _)
  · intro hlen pre hpre
    have hwf' : ∀ e ∈ pre, e.WellFormed := fun e he => hwf e (hpre.subset he)
    obtain ⟨s, hrun, h, hf⟩ := groupInv_run hwf'
    refine ⟨s, hrun, (loadable_iff_sizes h hf fun e he => hmsg e (hpre.subset he)).mpr fun g hg => ?_⟩
    by_cases hnil : pre = []
    · subst hnil
      obtain rfl := Except.ok.inj hrun
      exact absurd hg (by simp [GroupState.init])
    · obtain ⟨s', hrun', hset⟩ := grouperRun_separated hwf' (hsep.sublist hpre.sublist) hnil
      obtain rfl := Except.ok.inj (hrun.symm.trans hrun')
      rw [hset, List.mem_singleton] at hg
      rw [hg]
      exact hpre.length_le.trans hlen

end Runs

/-- Three accesses in a row, outside of any section. -/
def resultFrom (time : ℕ) : Result :=
  ⟨⟨1, time, 134512896, 134600000, 1⟩, ⟨1, time + 2, 134513152, 134600000, 1⟩,
    ⟨2, time + 1, 134513408, 134600000, 0⟩, none, none, none⟩

/-- The calls for `n` such results one after the other. -/
def burst (n : ℕ) : List Entry := (List.range n).map fun i => identifierEntry (resultFrom (3 * i))

theorem burst_printed (n : ℕ) : ∀ e ∈ burst n, Printed e := by
  intro e he
  obtain ⟨i, -, rfl⟩ := List.mem_map.mp he
  exact ⟨_, msg_identifierEntry _⟩

theorem burst_wellFormed (n : ℕ) : ∀ e ∈ burst n, e.WellFormed := by
  intro e he
  obtain ⟨i, -, rfl⟩ := List.mem_map.mp he
  intro iv hiv
  simp only [identifierEntry, commonSections, resultFrom, accessEntry, Entry.intervals, List.mem_cons,
    List.not_mem_nil, or_false] at hiv
  rcases hiv with rfl | rfl | rfl <;> exact le_rfl

theorem burst_separated (n : ℕ) : (burst n).Pairwise Separated := by
  refine List.pairwise_map.mpr (List.pairwise_lt_range.imp fun {i j} hij => Or.inl ?_)
  intro x hx y hy
  simp only [identifierEntry, commonSections, resultFrom, accessEntry, Entry.intervals, List.mem_cons,
    List.not_mem_nil, or_false] at hx hy
  rcases hx with rfl | rfl | rfl <;> rcases hy with rfl | rfl | rfl <;> dsimp only <;> omega

theorem length_burst (n : ℕ) : (burst n).length = n := by
  rw [burst, List.length_map, List.length_range]

/-- The run for 32 of them has room for each one, and the run for 33 has not. -/
theorem loadable_iff_burst :
    Always (fun pre e => e.key ∈ pre.map Entry.key ∨ ∃ s, grouperRun pre = .ok s ∧ HasRoom s e) (burst 32) ∧
      ¬ Always (fun pre e => e.key ∈ pre.map Entry.key ∨ ∃ s, grouperRun pre = .ok s ∧ HasRoom s e)
        (burst 33) := by
  have hburst : ∀ n, (∀ pre, pre <+: burst n → ∃ s, grouperRun pre = .ok s ∧ Loadable lowHalf s) ↔
      (burst n).length ≤ maxSize := fun n =>
    loadable_separated_iff (burst_wellFormed n) (burst_printed n) (burst_separated n)
  constructor
  · exact (loadable_iff (burst_wellFormed 32) (burst_printed 32)).mp
      ((hburst 32).mpr (by rw [length_burst]; decide))
  · intro hroom
    have hlen := (hburst 33).mp ((loadable_iff (burst_wellFormed 33) (burst_printed 33)).mpr hroom)
    rw [length_burst] at hlen
    exact absurd hlen (by decide)

/-- Thirty-three separated candidates make a group of 33 lines. -/
theorem group_too_long :
    (∀ e ∈ burst 33, e.WellFormed) ∧ (∀ e ∈ burst 33, Printed e) ∧
      ∃ s file, grouperRun (burst 33) = .ok s ∧ s.groupSet = [burst 33] ∧ s.files 0 = some file ∧
        (lines file).length = 33 ∧ unreadGroup lowHalf file ≠ [] := by
  refine ⟨burst_wellFormed 33, burst_printed 33, ?_⟩
  have hlen : (burst 33).length = 33 := length_burst 33
  have hne : burst 33 ≠ [] := by
    intro h
    rw [h] at hlen
    exact absurd hlen (by decide)
  obtain ⟨s, hrun, hset⟩ := grouperRun_separated (burst_wellFormed 33) (burst_separated 33) hne
  obtain ⟨s', hrun', h, hf⟩ := groupInv_run (burst_wellFormed 33)
  obtain rfl := Except.ok.inj (hrun.symm.trans hrun')
  obtain ⟨r, hperm, hsorted, hfile⟩ := hf.written 0 (burst 33) (by rw [hset]; rfl)
  obtain ⟨hlines, hunread⟩ := written_iff lowHalf (burst_printed 33) ⟨r, hperm, hsorted, rfl⟩
  refine ⟨s, _, hrun, hset, hfile, hlines.trans hlen, ?_⟩
  rw [Ne, hunread, hlen]
  decide

end Controller
end AVPredictor
