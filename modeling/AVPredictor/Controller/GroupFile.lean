import AVPredictor.Base.Scanf
import AVPredictor.Controller.Replay
import AVPredictor.Offline.Identifier

/-!
# AVPredictor.Controller.GroupFile — a group file from the analyser to the controller

The loading loop of `main` reads a line with `fscanf` and `"%u[%u]%d,%d; [%u]%d,%d; [%u]%d,%d\n"`:
the type and the tids are `%u`, but the six arguments, which are 32-bit unsigned like them, are
`%d`.  `fscanf_msgStr` is what a call makes of a line.  The C library of the Pin kit, which the tool is
linked with, converts `%d` in 64 bits and stores the low half (`lowHalf`), so the lines come back as
printed whatever the addresses are (`loadGroup_msgs`).
-/

namespace AVPredictor
namespace Controller

open Base Offline

/-! ## The code -/

/-- `"%u[%u]%d,%d; [%u]%d,%d; [%u]%d,%d\n"` -/
def lineFormat : List Directive := directives "%u[%u]%d,%d; [%u]%d,%d; [%u]%d,%d\n".toList

/-- A row of the candidate arrays, zero before, after a call has stored some values in their
order. -/
def Line.fill (values : List UInt32) : Line :=
  { type := values.getD 0 0
    firstId := values.getD 1 0
    firstArg1 := values.getD 2 0
    firstArg2 := values.getD 3 0
    secondId := values.getD 4 0
    secondArg1 := values.getD 5 0
    secondArg2 := values.getD 6 0
    interId := values.getD 7 0
    interArg1 := values.getD 8 0
    interArg2 := values.getD 9 0 }

/-- The loop of `main` with room for `n` more candidates: the rows filled until `EOF`. -/
def loadLines (overflow : Bool → ℤ → UInt32) : ℕ → List Char → List Line
  | 0, _ => []
  | n + 1, file =>
    match (fscanf overflow lineFormat file).ret with
    | none => []
    | some _ => .fill (fscanf overflow lineFormat file).values ::
        loadLines overflow n (fscanf overflow lineFormat file).rest

/-- The candidates that `main` loads from a group file. -/
def loadGroup (overflow : Bool → ℤ → UInt32) (file : List Char) : List Line :=
  loadLines overflow maxSize file

/-! ## One line -/

/-- The numbers in a row of the arrays. -/
def Line.numbers (l : Line) : LineNumbers :=
  { type := l.type.toNat
    firstId := l.firstId.toNat, firstArg1 := l.firstArg1.toNat, firstArg2 := l.firstArg2.toNat
    secondId := l.secondId.toNat, secondArg1 := l.secondArg1.toNat, secondArg2 := l.secondArg2.toNat
    interId := l.interId.toNat, interArg1 := l.interArg1.toNat, interArg2 := l.interArg2.toNat }

theorem lineFormat_eq : lineFormat =
    [.conv false, .lit '[', .conv false, .lit ']', .conv true, .lit ',', .conv true, .lit ';', .white,
      .lit '[', .conv false, .lit ']', .conv true, .lit ',', .conv true, .lit ';', .white,
      .lit '[', .conv false, .lit ']', .conv true, .lit ',', .conv true, .white] := by
  decide

section Load

variable {overflow : Bool → ℤ → UInt32}

/-- The values that a call stores for the numbers of a line. -/
def storedValues (overflow : Bool → ℤ → UInt32) (l : LineNumbers) : List UInt32 :=
  [stored overflow false l.type, stored overflow false l.firstId, stored overflow true l.firstArg1,
    stored overflow true l.firstArg2, stored overflow false l.secondId, stored overflow true l.secondArg1,
    stored overflow true l.secondArg2, stored overflow false l.interId, stored overflow true l.interArg1,
    stored overflow true l.interArg2]

/-- **One call reads one line**, all ten conversions, and the newline after it. -/
theorem fscanf_msgStr (l : LineNumbers) {file : List Char} (hfile : ∀ c ∈ file.head?, isSpace c = false) :
    fscanf overflow lineFormat (l.msgStr ++ file) = ⟨storedValues overflow l, file, some 10⟩ := by
  have hnot : ∀ {d c : Char} {cs : List Char},
      d.isDigit = false → c ∈ (d :: cs).head? → c.isDigit = false := by
    intro d c cs hd hc
    obtain rfl := Option.some.inj hc
    exact hd
  have hspace : ∀ {cs : List Char}, ∀ c ∈ ('[' :: cs).head?, isSpace c = false := by
    intro cs c hc
    obtain rfl := Option.some.inj hc
    rfl
  rw [fscanf, lineFormat_eq, LineNumbers.msgStr]
  simp only [str, List.append_assoc, List.cons_append, List.nil_append]
  rw [scan_conv _ _ (fun c => hnot rfl), scan_lit, scan_conv _ _ (fun c => hnot rfl), scan_lit,
    scan_conv _ _ (fun c => hnot rfl), scan_lit, scan_conv _ _ (fun c => hnot rfl), scan_lit,
    scan_white rfl hspace, scan_lit, scan_conv _ _ (fun c => hnot rfl), scan_lit,
    scan_conv _ _ (fun c => hnot rfl), scan_lit, scan_conv _ _ (fun c => hnot rfl), scan_lit,
    scan_white rfl hspace, scan_lit, scan_conv _ _ (fun c => hnot rfl), scan_lit,
    scan_conv _ _ (fun c => hnot rfl), scan_lit, scan_conv _ _ (fun c => hnot rfl),
    scan_white rfl hfile, scan_nil]
  rfl

/-- A line begins with a digit. -/
theorem head_msgStr (l : LineNumbers) (file : List Char) :
    ∀ c ∈ (l.msgStr ++ file).head?, isSpace c = false := by
  intro c hc
  obtain ⟨d, ds, hdigits, hd⟩ := exists_toDigits l.type
  rw [LineNumbers.msgStr, str, hdigits] at hc
  obtain rfl := Option.some.inj hc
  exact isSpace_of_isDigit hd

theorem head_msgs (ls : List LineNumbers) :
    ∀ c ∈ (ls.flatMap LineNumbers.msgStr).head?, isSpace c = false := by
  cases ls with
  | nil => simp
  | cons l ls => exact head_msgStr l _

/-- The loop reads the lines one by one and stops at the end of the file. -/
theorem loadLines_msgs {ls : List LineNumbers} {n : ℕ} (hn : ls.length ≤ n) :
    loadLines overflow n (ls.flatMap LineNumbers.msgStr) =
      ls.map fun l => .fill (storedValues overflow l) := by
  induction ls generalizing n with
  | nil =>
    cases n with
    | zero => rfl
    | succ n =>
      rw [List.flatMap_nil, loadLines, lineFormat_eq, fscanf_eof]
      rfl
  | cons l ls ih =>
    obtain ⟨n, rfl⟩ : ∃ k, n = k + 1 := ⟨n - 1, by rw [List.length_cons] at hn; omega⟩
    rw [List.flatMap_cons, loadLines, fscanf_msgStr l (head_msgs ls)]
    exact congrArg _ (ih (by simpa using hn))

/-! ## Whole files -/

/-- The six arguments of a line. -/
def args (l : LineNumbers) : List ℕ :=
  [l.firstArg1, l.firstArg2, l.secondArg1, l.secondArg2, l.interArg1, l.interArg2]

/-- The tids of a line. -/
def tids (l : LineNumbers) : List ℕ := [l.firstId, l.secondId, l.interId]

end Load

/-- **A line comes back as printed** when its numbers have 32 bits, through `%u` and `%d` alike. -/
theorem numbers_fill {l : LineNumbers} (htype : l.type < 2 ^ 32) (htids : ∀ t ∈ tids l, t < 2 ^ 32)
    (hargs : ∀ a ∈ args l, a < 2 ^ 32) : (Line.fill (storedValues lowHalf l)).numbers = l := by
  obtain ⟨ty, i1, a1, b1, i2, a2, b2, i3, a3, b3⟩ := l
  simp only [tids, List.forall_mem_cons] at htids
  simp only [args, List.forall_mem_cons] at hargs
  obtain ⟨hi1, hi2, hi3, -⟩ := htids
  obtain ⟨ha1, hb1, ha2, hb2, ha3, hb3, -⟩ := hargs
  have hty := toNat_stored_lowHalf false htype
  simp only [Line.numbers, Line.fill, storedValues, List.getD_cons_zero, List.getD_cons_succ, hty,
    toNat_stored_lowHalf _ hi1, toNat_stored_lowHalf _ hi2, toNat_stored_lowHalf _ hi3,
    toNat_stored_lowHalf _ ha1, toNat_stored_lowHalf _ hb1, toNat_stored_lowHalf _ ha2,
    toNat_stored_lowHalf _ hb2, toNat_stored_lowHalf _ ha3, toNat_stored_lowHalf _ hb3]

/-- Everything that can be printed of the result fits in 32 bits, as `struct` format `I` loads
it. -/
structure Fits32 (re : Result) : Prop where
  traces : ∀ x ∈ [re.first, re.second, re.inter], x.tid < 2 ^ 32 ∧ x.ip < 2 ^ 32 ∧ x.addr < 2 ^ 32
  sections : ∀ cs ∈ re.firstCs.toList ++ re.secondCs.toList ++ re.interCs.toList,
    cs.tid < 2 ^ 32 ∧ cs.lCv < 2 ^ 32 ∧ cs.uCv < 2 ^ 32

/-- The line of such a result has numbers of 32 bits only. -/
theorem Fits32.numbers_lt {re : Result} (h : Fits32 re) :
    (∀ t ∈ tids (identifier re), t < 2 ^ 32) ∧ ∀ a ∈ args (identifier re), a < 2 ^ 32 := by
  unfold identifier
  cases hc : commonSections re with
  | none =>
    obtain ⟨ht1, hi1, ha1⟩ := h.traces re.first (by simp)
    obtain ⟨ht2, hi2, ha2⟩ := h.traces re.second (by simp)
    obtain ⟨ht3, hi3, ha3⟩ := h.traces re.inter (by simp)
    simp only [tids, args, accessNumbers, List.forall_mem_cons]
    exact ⟨⟨ht1, ht2, ht3, by simp⟩, hi1, ha1, hi2, ha2, hi3, ha3, by simp⟩
  | some c =>
    obtain ⟨f, s, i⟩ := c
    obtain ⟨hf, hs, hi, -, -⟩ := commonSections_eq_some hc
    obtain ⟨ht1, hl1, hu1⟩ := h.sections f (by simp [hf])
    obtain ⟨ht2, hl2, hu2⟩ := h.sections s (by simp [hs])
    obtain ⟨ht3, hl3, hu3⟩ := h.sections i (by simp [hi])
    simp only [tids, args, lockNumbers, List.forall_mem_cons]
    exact ⟨⟨ht1, ht2, ht3, by simp⟩, hl1, hu1, hl2, hu2, hl3, hu3, by simp⟩

theorem type_le_one (re : Result) : (identifier re).type ≤ 1 := by
  unfold identifier
  cases commonSections re with
  | none => exact Nat.zero_le _
  | some c => exact le_rfl

theorem Fits32.numbers_fill {re : Result} (h : Fits32 re) :
    (Line.fill (storedValues lowHalf (identifier re))).numbers = identifier re :=
  Controller.numbers_fill ((type_le_one re).trans_lt (by norm_num)) h.numbers_lt.1 h.numbers_lt.2

/-- **A group file means the same to the controller as to the analyser**: the loop of `main` reads back the
numbers that `find_identifier` printed, line by line, whatever the 32-bit tids, addresses and call sites are. -/
theorem loadGroup_msgs {results : List Result} (hlen : results.length ≤ maxSize) (hfit : ∀ re ∈ results, Fits32 re) :
    (loadGroup lowHalf (results.flatMap fun re => (identifierEntry re).msg)).map Line.numbers =
      results.map identifier := by
  have hfile : (results.flatMap fun re => (identifierEntry re).msg) =
      (results.map identifier).flatMap LineNumbers.msgStr := by
    rw [List.flatMap_map]
    exact List.flatMap_congr fun re _ => msg_identifierEntry re
  rw [loadGroup, hfile, loadLines_msgs (by simpa using hlen), List.map_map, List.map_map]
  exact List.map_congr_left fun re hre => (hfit re hre).numbers_fill

/-- Two accesses of thread 1 to one word and a write by thread 2, outside of any section. -/
def resultAt (addr : ℕ) : Result :=
  ⟨⟨1, 2, 134512896, addr, 1⟩, ⟨1, 3, 134513152, addr, 1⟩, ⟨2, 6, 134513408, addr, 0⟩, none, none, none⟩

/-- Two addresses above the range of `int` and one below. -/
theorem loadGroup_msgs_high :
    (loadGroup lowHalf ([resultAt 134600000, resultAt 2147483648, resultAt 4294967295].flatMap fun re =>
        (identifierEntry re).msg)).map Line.numbers =
      [resultAt 134600000, resultAt 2147483648, resultAt 4294967295].map identifier :=
  loadGroup_msgs (by decide) (by
    intro re hre
    simp only [List.mem_cons, List.not_mem_nil, or_false] at hre
    rcases hre with rfl | rfl | rfl
    · exact ⟨by decide, by decide⟩
    · exact ⟨by decide, by decide⟩
    · exact ⟨by decide, by decide⟩)

end Controller
end AVPredictor
