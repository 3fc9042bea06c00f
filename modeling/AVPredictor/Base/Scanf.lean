import Mathlib.Algebra.Group.Int.Defs
import Mathlib.Algebra.Group.Nat.Defs
import Mathlib.Data.List.TakeWhile

/-!
# AVPredictor.Base.Scanf — `fscanf` with `%u` and `%d`

`fscanf` goes through the directives of a format: white space skips white space, an ordinary
character must be the next one of the input, and `%u`, `%d` skip white space and read an integer.
The first directive that fails ends the call; the result is the number of conversions made, or `EOF`
(`none`) when the input ends before the first of them.

A conversion stores the integer if it is in the range of its type, `unsigned int` or 32-bit `int`;
what it stores otherwise is up to the library, and a parameter.  A library that converts to 64 bits and
stores the low half (`lowHalf`) reads every 32-bit number with `%d` as well (`toNat_stored_lowHalf`).
`scan_conv` reads back a number printed in decimal, and `lines_flatMap` the lines of a text.
-/

namespace AVPredictor
namespace Base

/-- A directive of a format. -/
inductive Directive where
  | white
  | lit (c : Char)
  /-- `%d` if signed, else `%u` -/
  | conv (signed : Bool)
deriving DecidableEq, Repr

/-- `isspace` -/
def isSpace (c : Char) : Bool := c.toNat = 32 ∨ 9 ≤ c.toNat ∧ c.toNat ≤ 13

/-- The directives of a format string. -/
def directives : List Char → List Directive
  | '%' :: 'u' :: cs => .conv false :: directives cs
  | '%' :: 'd' :: cs => .conv true :: directives cs
  | c :: cs => (if isSpace c then .white else .lit c) :: directives cs
  | [] => []

/-- The digits at the front of the input, as a number, and the rest. -/
def readDigits (cs : List Char) : Option (ℕ × List Char) :=
  match cs.takeWhile Char.isDigit with
  | [] => none
  | ds => some (Nat.ofDigitChars 10 ds 0, cs.dropWhile Char.isDigit)

/-- An integer with an optional sign. -/
def readInt : List Char → Option (ℤ × List Char)
  | '-' :: cs => (readDigits cs).map fun r => (-(r.1 : ℤ), r.2)
  | '+' :: cs => (readDigits cs).map fun r => ((r.1 : ℤ), r.2)
  | cs => (readDigits cs).map fun r => ((r.1 : ℤ), r.2)

/-- The input after a sign; a conversion that fails has read the sign. -/
def afterSign : List Char → List Char
  | '-' :: cs => cs
  | '+' :: cs => cs
  | cs => cs

/-- The range of a conversion's type. -/
def InRange (signed : Bool) (v : ℤ) : Prop :=
  if signed then -2 ^ 31 ≤ v ∧ v < 2 ^ 31 else 0 ≤ v ∧ v < 2 ^ 32

instance (signed : Bool) (v : ℤ) : Decidable (InRange signed v) := by
  unfold InRange
  infer_instance

/-- What a conversion stores in a 32-bit cell. -/
def stored (overflow : Bool → ℤ → UInt32) (signed : Bool) (v : ℤ) : UInt32 :=
  if InRange signed v then UInt32.ofNat (v % 2 ^ 32).toNat else overflow signed v

/-- `strtoimax` with a 64-bit `intmax_t`. -/
def strtoimax (v : ℤ) : ℤ := max (-2 ^ 63) (min v (2 ^ 63 - 1))

/-- `strtoumax` with a 64-bit `uintmax_t`; what follows a minus sign is negated. -/
def strtoumax (v : ℤ) : ℤ := if 2 ^ 64 ≤ v.natAbs then 2 ^ 64 - 1 else v % 2 ^ 64

/-- The library converts `%d` with `strtoimax` and `%u` with `strtoumax`, and stores the low half. -/
def lowHalf (signed : Bool) (v : ℤ) : UInt32 :=
  UInt32.ofNat ((if signed then strtoimax v else strtoumax v) % 2 ^ 32).toNat

/-- The outcome of a call: the values stored, the rest of the input, and the result, `none` for
`EOF`. -/
structure Scanned where
  values : List UInt32
  rest : List Char
  ret : Option ℕ
deriving DecidableEq, Repr

/-- A directive met the end of the input. -/
def inputFailure (values : List UInt32) : Scanned :=
  ⟨values, [], if values = [] then none else some values.length⟩

/-- The directives one after the other; `values` is what has been stored so far. -/
def scan (overflow : Bool → ℤ → UInt32) : List Directive → List Char → List UInt32 → Scanned
  | [], cs, values => ⟨values, cs, some values.length⟩
  | .white :: ds, cs, values => scan overflow ds (cs.dropWhile isSpace) values
  | .lit _ :: _, [], values => inputFailure values
  | .lit c :: ds, x :: cs, values =>
    if x = c then scan overflow ds cs values else ⟨values, x :: cs, some values.length⟩
  | .conv signed :: ds, cs, values =>
    if cs.dropWhile isSpace = [] then inputFailure values
    else match readInt (cs.dropWhile isSpace) with
      | none => ⟨values, afterSign (cs.dropWhile isSpace), some values.length⟩
      | some (v, cs') => scan overflow ds cs' (values ++ [stored overflow signed v])

/-- `fscanf` -/
def fscanf (overflow : Bool → ℤ → UInt32) (format : List Directive) (cs : List Char) : Scanned :=
  scan overflow format cs []

/-! ## Reading back what was printed -/

section Rules

variable {overflow : Bool → ℤ → UInt32} {ds : List Directive} {cs : List Char} {values : List UInt32}

theorem isSpace_of_isDigit {c : Char} (h : c.isDigit = true) : isSpace c = false := by
  have hd := Char.isDigit_iff_toNat.mp h
  have h0 : '0'.toNat = 48 := rfl
  simp only [isSpace, decide_eq_false_iff_not]
  omega

/-- A decimal number is read up to the first character that is no digit. -/
theorem readDigits_toDigits (n : ℕ) (hcs : ∀ c ∈ cs.head?, c.isDigit = false) :
    readDigits (Nat.toDigits 10 n ++ cs) = some (n, cs) := by
  have hall : ∀ c ∈ Nat.toDigits 10 n, c.isDigit = true := fun c hc =>
    Nat.isDigit_of_mem_toDigits (by decide) (by decide) hc
  have hcut : cs.takeWhile Char.isDigit = [] ∧ cs.dropWhile Char.isDigit = cs := by
    cases cs with
    | nil => exact ⟨rfl, rfl⟩
    | cons c cs =>
      have hc := hcs c rfl
      exact ⟨List.takeWhile_cons_of_neg (by simp [hc]), List.dropWhile_cons_of_neg (by simp [hc])⟩
  have htake : (Nat.toDigits 10 n ++ cs).takeWhile Char.isDigit = Nat.toDigits 10 n := by
    rw [List.takeWhile_append_of_pos hall, hcut.1, List.append_nil]
  have hdrop : (Nat.toDigits 10 n ++ cs).dropWhile Char.isDigit = cs := by
    rw [List.dropWhile_append_of_pos hall, hcut.2]
  unfold readDigits
  rw [htake, hdrop]
  cases hdigits : Nat.toDigits 10 n with
  | nil => exact absurd hdigits Nat.toDigits_ne_nil
  | cons d ds =>
    show some (Nat.ofDigitChars 10 (d :: ds) 0, cs) = some (n, cs)
    rw [← hdigits, Nat.ofDigitChars_ten_toDigits]

theorem exists_toDigits (n : ℕ) : ∃ d ds, Nat.toDigits 10 n = d :: ds ∧ d.isDigit = true := by
  cases hdigits : Nat.toDigits 10 n with
  | nil => exact absurd hdigits Nat.toDigits_ne_nil
  | cons d ds =>
    refine ⟨d, ds, rfl, Nat.isDigit_of_mem_toDigits (by decide) (by decide) (hdigits ▸ List.mem_cons_self)⟩

/-- **A conversion reads a printed number.** -/
theorem scan_conv (signed : Bool) (n : ℕ) (hcs : ∀ c ∈ cs.head?, c.isDigit = false) :
    scan overflow (.conv signed :: ds) (Nat.toDigits 10 n ++ cs) values =
      scan overflow ds cs (values ++ [stored overflow signed n]) := by
  obtain ⟨d, digits, hdigits, hd⟩ := exists_toDigits n
  have hskip : (Nat.toDigits 10 n ++ cs).dropWhile isSpace = Nat.toDigits 10 n ++ cs := by
    rw [hdigits, List.cons_append, List.dropWhile_cons_of_neg (by simp [isSpace_of_isDigit hd])]
  have hread : readInt (Nat.toDigits 10 n ++ cs) = some ((n : ℤ), cs) := by
    have hdig := readDigits_toDigits n hcs
    rw [hdigits, List.cons_append] at hdig ⊢
    rw [readInt, hdig]
    · rfl
    · intro _ heq
      obtain rfl := (List.cons.inj heq).1
      exact absurd hd (by decide)
    · intro _ heq
      obtain rfl := (List.cons.inj heq).1
      exact absurd hd (by decide)
  rw [scan, hskip, if_neg (by rw [hdigits]; simp), hread]

theorem scan_lit (c : Char) :
    scan overflow (.lit c :: ds) (c :: cs) values = scan overflow ds cs values := by
  rw [scan, if_pos rfl]

/-- White space in the format skips one space before a character that is none. -/
theorem scan_white {w : Char} (hw : isSpace w = true) (hcs : ∀ c ∈ cs.head?, isSpace c = false) :
    scan overflow (.white :: ds) (w :: cs) values = scan overflow ds cs values := by
  have hcut : cs.dropWhile isSpace = cs := by
    cases cs with
    | nil => rfl
    | cons c cs => exact List.dropWhile_cons_of_neg (by simp [hcs c rfl])
  rw [scan, List.dropWhile_cons_of_pos hw, hcut]

theorem scan_nil : scan overflow [] cs values = ⟨values, cs, some values.length⟩ := rfl

/-- At the end of the file a call returns `EOF`. -/
theorem fscanf_eof (signed : Bool) : fscanf overflow (.conv signed :: ds) [] = ⟨[], [], none⟩ := rfl

/-- A conversion in range stores the number. -/
theorem toNat_stored {signed : Bool} {n : ℕ} (h : InRange signed n) :
    (stored overflow signed n).toNat = n := by
  have hlt : n < 2 ^ 32 := by
    unfold InRange at h
    split_ifs at h <;> omega
  rw [stored, if_pos h, UInt32.toNat_ofNat']
  omega

/-- Every 32-bit number is stored, whatever the conversion. -/
theorem toNat_stored_lowHalf (signed : Bool) {n : ℕ} (h : n < 2 ^ 32) : (stored lowHalf signed n).toNat = n := by
  by_cases hrange : InRange signed n
  · exact toNat_stored hrange
  · cases signed with
    | false =>
      exfalso
      apply hrange
      rw [InRange, if_neg (by simp)]
      omega
    | true =>
      have hmax : strtoimax n = n := by
        unfold strtoimax
        omega
      rw [stored, if_neg hrange, lowHalf, if_pos rfl, hmax, UInt32.toNat_ofNat']
      omega

end Rules

/-! ## Lines -/

/-- The lines of a text, each with its newline. -/
def lines : List Char → List (List Char)
  | [] => []
  | c :: cs =>
    if c = '\n' then ['\n'] :: lines cs
    else match lines cs with
      | [] => [[c]]
      | l :: ls => (c :: l) :: ls

/-- One newline, at the end. -/
def IsLine (l : List Char) : Prop := ∃ body, '\n' ∉ body ∧ l = body ++ ['\n']

theorem isLine_newline : IsLine ['\n'] := ⟨[], by simp, rfl⟩

theorem IsLine.append {l : List Char} (hl : IsLine l) {cs : List Char} (hcs : '\n' ∉ cs) :
    IsLine (cs ++ l) := by
  obtain ⟨body, hbody, rfl⟩ := hl
  exact ⟨cs ++ body, by simp [hcs, hbody], by simp⟩

theorem lines_append {l : List Char} (hl : IsLine l) (cs : List Char) :
    lines (l ++ cs) = l :: lines cs := by
  obtain ⟨body, hbody, rfl⟩ := hl
  induction body with
  | nil => exact if_pos rfl
  | cons c body ih =>
    rw [List.mem_cons, not_or] at hbody
    have hc : c ≠ '\n' := fun h => hbody.1 h.symm
    rw [List.cons_append, List.cons_append, lines, if_neg hc, ih hbody.2]

/-- A text printed line by line has these lines. -/
theorem lines_flatMap {α : Type} {f : α → List Char} {as : List α} (h : ∀ a ∈ as, IsLine (f a)) :
    lines (as.flatMap f) = as.map f := by
  induction as with
  | nil => rfl
  | cons a as ih =>
    obtain ⟨ha, hrest⟩ := List.forall_mem_cons.mp h
    rw [List.flatMap_cons, lines_append ha, ih hrest, List.map_cons]

end Base
end AVPredictor
