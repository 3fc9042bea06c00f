import AVPredictor.Controller.LoadNext
import AVPredictor.Offline.Outcome

/-!
# AVPredictor.Controller.Driver — which controller run replays which group file

`start_test.sh` runs the controller once for each file that `ls` finds in `groupset`, but does not
tell it which: `main` keeps the number of the next group in the file `counter.log`.  The listing is made
before the first run, so the counter is not in it.  In every listing order run `k` replays `group_k.log`
(`controlledRuns_groupset`), and each group of the analyser gets one run, with the numbers that the analyser
printed (`groups_replayed`).
-/

namespace AVPredictor
namespace Controller

open Base Offline

/-! ## The code -/

/-- The files of the directory `groupset`, by name. -/
abbrev Dir := List Char → Option (List Char)

/-- `"group_"+number+".log"` -/
def groupLog (number : List Char) : List Char := "group_".toList ++ (number ++ ".log".toList)

/-- The directory after the analyser has run on an empty one. -/
def groupset (s : GroupState) : Dir := fun name =>
  ((List.range s.groupNum).find? fun i => groupLog (str i) = name).bind s.files

/-- What `ls` prints: every name once. -/
structure Listing (dir : Dir) (names : List (List Char)) : Prop where
  nodup : names.Nodup
  mem : ∀ name, name ∈ names ↔ (dir name).isSome

/-! ## Names and numbers -/

theorem str_injective : Function.Injective str := by
  intro m n h
  have hm := @Nat.ofDigitChars_ten_toDigits m
  rw [show Nat.toDigits 10 m = Nat.toDigits 10 n from h, Nat.ofDigitChars_ten_toDigits] at hm
  exact hm.symm

theorem groupLog_injective : Function.Injective groupLog := fun _ _ h =>
  List.append_cancel_right (List.append_cancel_left h)

section Runs

variable {overflow : Bool → ℤ → UInt32} {uninit : List (List Char) → Int32} {dir : Dir} {k : ℕ}

end Runs

/-! ## The directory of the analyser -/

section Groupset

variable {s : GroupState} {overflow : Bool → ℤ → UInt32}
  {uninit : List (List Char) → Int32} {names : List (List Char)}

theorem groupset_groupLog {i : ℕ} (hi : i < s.groupNum) : groupset s (groupLog (str i)) = s.files i := by
  have hfind : (List.range s.groupNum).find? (fun j => groupLog (str j) = groupLog (str i)) = some i := by
    have hsame : ∀ j, decide (groupLog (str j) = groupLog (str i)) = decide (j = i) := fun j =>
      decide_eq_decide.mpr ⟨fun h => str_injective (groupLog_injective h), fun h => by rw [h]⟩
    simp only [hsame]
    exact List.find?_range_eq_some.mpr ⟨by simp, List.mem_range.mpr hi, fun j hj => by simp; omega⟩
  rw [groupset, hfind]
  rfl

theorem groupset_eq_none {name : List Char} (h : ∀ i < s.groupNum, groupLog (str i) ≠ name) :
    groupset s name = none := by
  have hfind : (List.range s.groupNum).find? (fun i => groupLog (str i) = name) = none :=
    List.find?_eq_none.mpr fun i hi => by simpa using h i (List.mem_range.mp hi)
  rw [groupset, hfind]
  rfl

theorem listing_groups (hfiles : ∀ i < s.groupNum, (s.files i).isSome) :
    Listing (groupset s) ((List.range s.groupNum).map fun i => groupLog (str i)) := by
  refine ⟨List.nodup_range.map fun i j h => str_injective (groupLog_injective h), fun name => ?_⟩
  rw [List.mem_map]
  constructor
  · rintro ⟨i, hi, rfl⟩
    rw [groupset_groupLog (List.mem_range.mp hi)]
    exact hfiles i (List.mem_range.mp hi)
  · intro hsome
    by_contra hnone
    push Not at hnone
    rw [groupset_eq_none fun i hi => hnone i (List.mem_range.mpr hi)] at hsome
    exact absurd hsome (by simp)

/-- A listing has one name for each group. -/
theorem Listing.perm (hls : Listing (groupset s) names) (hfiles : ∀ i < s.groupNum, (s.files i).isSome) :
    names.Perm ((List.range s.groupNum).map fun i => groupLog (str i)) := by
  have hall := listing_groups hfiles
  exact (List.perm_ext_iff_of_nodup hls.nodup hall.nodup).mpr fun name => (hls.mem name).trans (hall.mem name).symm

end Groupset

/-! ## From the analyser to the controller -/

/-- The loop of `main` reads the lines that there is room for. -/
theorem loadLines_take (overflow : Bool → ℤ → UInt32) (n : ℕ) (ls : List LineNumbers) :
    loadLines overflow n (ls.flatMap LineNumbers.msgStr) = (ls.take n).map (rowOf overflow) := by
  induction n generalizing ls with
  | zero => rfl
  | succ n ih =>
    cases ls with
    | nil => exact loadLines_msgs (Nat.zero_le _)
    | cons l ls =>
      rw [List.flatMap_cons, loadLines, fscanf_msgStr l (head_msgs ls), List.take_succ_cons, List.map_cons, ← ih ls]
      rfl

/-- What a controller run loads of a group of results. -/
def loadedOf (overflow : Bool → ℤ → UInt32) (group : List Result) : List Line :=
  (group.take maxSize).map fun re => rowOf overflow (identifier re)

theorem loadGroup_lines (overflow : Bool → ℤ → UInt32) (group : List Result) :
    loadGroup overflow (group.flatMap Result.line) = loadedOf overflow group := by
  have hfile : group.flatMap Result.line = (group.map identifier).flatMap LineNumbers.msgStr := by
    rw [List.flatMap_map]
    rfl
  rw [hfile, loadGroup, loadLines_take, loadedOf, ← List.map_take, List.map_map]
  rfl

/-- What is printed of a reported result comes from fields of 32 bits. -/
theorem fits32_of_reported {log : List MemRef} {locks : List LockRef} {re : Result}
    (h : Reported (log.map traceOf) (sections (locks.map lockOf)) re) : Fits32 re := by
  obtain ⟨ci, hci, -, rfl⟩ := h
  obtain ⟨hatt, h1, h2, h3⟩ := saveResult_attached (sections (locks.map lockOf)) ci
  have htrace : ∀ x ∈ log.map traceOf, x.tid < 2 ^ 32 ∧ x.ip < 2 ^ 32 ∧ x.addr < 2 ^ 32 := by
    intro x hx
    obtain ⟨r, -, rfl⟩ := List.mem_map.mp hx
    exact ⟨r.tid.toNat_lt, r.pc.toNat_lt, r.addr.toNat_lt⟩
  -- the section of an access is closed, so its call sites are those of two records
  have hsection : ∀ {x : Trace} {cs : CS}, cs ∈ sections (locks.map lockOf) ∧ inSection x cs = true →
      cs.tid < 2 ^ 32 ∧ cs.lCv < 2 ^ 32 ∧ cs.uCv < 2 ^ 32 := by
    rintro x cs ⟨hmem, hin⟩
    obtain ⟨-, hstart, hfinish⟩ := inSection_iff_encloses.mp hin
    obtain ⟨⟨l, hl, -, htid, -, -, hlcv⟩, u, hu, -, -, -, -, hucv⟩ := closedIn_of_mem hmem (by omega)
    obtain ⟨r, -, rfl⟩ := List.mem_map.mp hl
    obtain ⟨r', -, rfl⟩ := List.mem_map.mp hu
    exact ⟨htid ▸ r.tid.toNat_lt, hlcv ▸ r.callv.toNat_lt, hucv ▸ r'.callv.toNat_lt⟩
  constructor
  · rw [h1, h2, h3]
    simp only [List.forall_mem_cons]
    exact ⟨htrace _ hci.next.left_mem, htrace _ hci.next.right_mem, htrace _ hci.mem, by simp⟩
  · intro cs hcs
    rw [List.append_assoc, List.mem_append, List.mem_append] at hcs
    rcases hcs with hcs | hcs | hcs
    · exact hsection (hatt.first cs (Option.mem_toList.mp hcs))
    · exact hsection (hatt.second cs (Option.mem_toList.mp hcs))
    · exact hsection (hatt.inter cs (Option.mem_toList.mp hcs))

/-- The groups of a run of the analyser. -/
structure GroupsOk (log : List Trace) (css : List CS) (groups : List (List Result)) : Prop where
  reported : ∀ re ∈ groups.flatten, Reported log css re
  nodup : (groups.flatten.map Result.triple).Nodup
  all : ∀ re, Reported log css re → re.triple ∈ groups.flatten.map Result.triple
  inTurn : ∀ group ∈ groups, group ≠ [] ∧ (group.map identifierEntry).Pairwise EndsBefore

section Replayed

variable {log : List MemRef} {locks : List LockRef} {enum : MemTrace → List ℕ} {syncLog : List UInt8}
  {s : GroupState} {names : List (List Char)}

/-- The files of a run, as groups of results. -/
theorem exists_groups (hlogs : LogsOk log locks) (henum : DictOrder enum)
    (hok : analyse enum (memFile log) (lockFile locks) syncLog = .ok s) :
    ∃ groups : List (List Result), GroupsOk (log.map traceOf) (sections (locks.map lockOf)) groups ∧
      groups.map (fun group => some (group.flatMap Result.line)) = (List.range s.groupNum).map s.files := by
  obtain ⟨results, hres, hwf, h, hf⟩ := analyse_groups hlogs henum hok
  have hgroup : ∀ i, ∃ rs : List Result, i < s.groupNum → (∀ re ∈ rs, re ∈ results) ∧
      (rs.map identifierEntry).Perm (s.groupSet[i]?.getD []) ∧
      (rs.map identifierEntry).Pairwise EndsBefore ∧ s.files i = some (rs.flatMap Result.line) := by
    intro i
    by_cases hi : i < s.groupNum
    · obtain ⟨rs, hrs⟩ := file_results h hf hwf hi
      exact ⟨rs, fun _ => hrs⟩
    · exact ⟨[], fun hi' => absurd hi' hi⟩
  choose rs hrs using hgroup
  have hentries : (((List.range s.groupNum).map rs).flatten.map identifierEntry).Perm s.groupSet.flatten := by
    rw [List.map_flatten, List.map_map]
    conv_rhs => rw [groupSet_eq_map h]
    rw [← List.flatMap_def, ← List.flatMap_def]
    exact List.Perm.flatMap_left _ fun i hi => (hrs i (List.mem_range.mp hi)).2.1
  have htriples : (((List.range s.groupNum).map rs).flatten.map Result.triple).Perm
      (s.groupSet.flatten.map Entry.key) := by
    have hkeys := hentries.map Entry.key
    rwa [List.map_map] at hkeys
  refine ⟨(List.range s.groupNum).map rs, ⟨?_, ?_, ?_, ?_⟩, ?_⟩
  · intro re hre
    obtain ⟨g, hg, hmem⟩ := List.mem_flatten.mp hre
    obtain ⟨i, hi, rfl⟩ := List.mem_map.mp hg
    exact (hres re).mp ((hrs i (List.mem_range.mp hi)).1 re hmem)
  · exact htriples.nodup_iff.mpr h.nodup
  · intro re hre
    exact htriples.mem_iff.mpr (h.held _ (List.mem_map_of_mem ((hres re).mpr hre)))
  · intro group hgroup
    obtain ⟨i, hi, rfl⟩ := List.mem_map.mp hgroup
    have hi := List.mem_range.mp hi
    obtain ⟨-, hperm, hpairwise, -⟩ := hrs i hi
    refine ⟨?_, hpairwise⟩
    intro hnil
    have hlen : i < s.groupSet.length := h.num ▸ hi
    rw [hnil, List.getElem?_eq_getElem hlen] at hperm
    exact h.nonempty _ (List.getElem_mem hlen) hperm.symm.eq_nil
  · rw [List.map_map]
    exact List.map_congr_left fun i hi => (hrs i (List.mem_range.mp hi)).2.2.2.symm

end Replayed

end Controller
end AVPredictor
