import Mathlib.Data.Nat.Basic
import Mathlib.Data.List.Basic
import Mathlib.Tactic.Ring

/-!
# AVPredictor.Base.Bytes — little-endian integers, packed structs and block reads

A struct in memory is a list of scalar members, each at the next offset that its alignment allows,
each little-endian (`pack`).  A reader with a format string sees the same bytes as a list of scalars
again (`unpackFrom`).  The two agree when the formats agree (`unpackFrom_pack`); when they do not,
the bytes still have a value, computed with `leBytes_add` and `leValue_append`.

`blocks n bs` is what repeated `read(n)` calls return up to the first empty one; on a file that is a
sequence of `n`-byte records it returns the records (`blocks_flatten`).
-/

namespace AVPredictor
namespace Base

/-! ## Little-endian integers -/

/-- The `w` little-endian bytes of `n`. -/
def leBytes : ℕ → ℕ → List UInt8
  | 0, _ => []
  | w + 1, n => UInt8.ofNat n :: leBytes w (n / 256)

/-- The value of a little-endian byte string. -/
def leValue : List UInt8 → ℕ
  | [] => 0
  | b :: bs => b.toNat + 256 * leValue bs

@[simp] theorem length_leBytes (w n : ℕ) : (leBytes w n).length = w := by
  induction w generalizing n with
  | zero => rfl
  | succ w ih => simp [leBytes, ih]

theorem leValue_leBytes (w n : ℕ) : leValue (leBytes w n) = n % 256 ^ w := by
  induction w generalizing n with
  | zero => simp [leBytes, leValue, Nat.mod_one]
  | succ w ih =>
    have h8 : (UInt8.ofNat n).toNat = n % 256 := by simp
    rw [leBytes, leValue, ih, h8, Nat.pow_succ', Nat.mod_mul]

theorem leValue_append (as bs : List UInt8) :
    leValue (as ++ bs) = leValue as + 256 ^ as.length * leValue bs := by
  induction as with
  | nil => simp [leValue]
  | cons a as ih =>
    simp only [List.cons_append, leValue, ih, List.length_cons, Nat.pow_succ']
    ring

/-- A wide integer is its low part followed by its high part. -/
theorem leBytes_add (v w n : ℕ) : leBytes (v + w) n = leBytes v n ++ leBytes w (n / 256 ^ v) := by
  induction v generalizing n with
  | zero => simp [leBytes]
  | succ v ih =>
    rw [Nat.add_right_comm, leBytes, ih, leBytes, List.cons_append, Nat.div_div_eq_div_mul,
      Nat.pow_succ']

/-! ## Packed structs -/

/-- A scalar member: its width and its alignment, in bytes. -/
structure Scalar where
  size : ℕ
  align : ℕ
deriving DecidableEq, Repr

/-- The padding in front of a member of alignment `a` at offset `off`. -/
def padding (a off : ℕ) : ℕ := (a - off % a) % a

/-- The bytes of the members `ms` of a struct from offset `off` on. -/
def pack : ℕ → List (Scalar × ℕ) → List UInt8
  | _, [] => []
  | off, (s, v) :: ms =>
    List.replicate (padding s.align off) 0 ++
      (leBytes s.size v ++ pack (off + padding s.align off + s.size) ms)

/-- Read the scalars `ss` from offset `off` on; the bytes must be exactly as many as they need. -/
def unpackFrom : ℕ → List Scalar → List UInt8 → Option (List ℕ)
  | _, [], bs => if bs = [] then some [] else none
  | off, s :: ss, bs =>
    let p := padding s.align off
    if bs.length < p + s.size then none
    else (unpackFrom (off + p + s.size) ss (bs.drop (p + s.size))).map
      (leValue ((bs.drop p).take s.size) :: ·)

/-- One member in front: the padding is skipped and the member's own bytes are read. -/
theorem unpackFrom_cons (off : ℕ) (s : Scalar) (ss : List Scalar) (m rest : List UInt8)
    (hm : m.length = s.size) :
    unpackFrom off (s :: ss) (List.replicate (padding s.align off) 0 ++ (m ++ rest)) =
      (unpackFrom (off + padding s.align off + s.size) ss rest).map (leValue m :: ·) := by
  have hlen : ¬ (List.replicate (padding s.align off) (0 : UInt8) ++ (m ++ rest)).length <
      padding s.align off + s.size := by
    simp [hm]
  have hdrop : (List.replicate (padding s.align off) (0 : UInt8) ++ (m ++ rest)).drop
      (padding s.align off) = m ++ rest := List.drop_left' (by simp)
  rw [unpackFrom]
  simp only [if_neg hlen]
  rw [← List.drop_drop, hdrop, List.drop_left' hm, List.take_left' hm]

/-- A member at an offset that needs no padding. -/
theorem unpackFrom_aligned {off : ℕ} {s : Scalar} (ss : List Scalar) {m : List UInt8}
    (rest : List UInt8) (hp : padding s.align off = 0) (hm : m.length = s.size) :
    unpackFrom off (s :: ss) (m ++ rest) =
      (unpackFrom (off + s.size) ss rest).map (leValue m :: ·) := by
  have h := unpackFrom_cons off s ss m rest hm
  rwa [hp] at h

/-- **Round trip**: a format with the members' own scalars reads back their values. -/
theorem unpackFrom_pack (ms : List (Scalar × ℕ)) (off : ℕ) (h : ∀ m ∈ ms, m.2 < 256 ^ m.1.size) :
    unpackFrom off (ms.map Prod.fst) (pack off ms) = some (ms.map Prod.snd) := by
  induction ms generalizing off with
  | nil => rfl
  | cons m ms ih =>
    obtain ⟨s, v⟩ := m
    have hv : v < 256 ^ s.size := h (s, v) (by simp)
    have hrest := ih (off + padding s.align off + s.size) (fun m' hm' => h m' (by simp [hm']))
    simp only [List.map_cons, pack]
    rw [unpackFrom_cons off s _ _ _ (length_leBytes _ _), hrest, leValue_leBytes, Nat.mod_eq_of_lt hv]
    rfl

/-! ## Block reads -/

section Blocks

variable {α : Type}

/-- The blocks that repeated `read(n)` calls return; the last one may be short. -/
def blocks (n : ℕ) (bs : List α) : List (List α) := go bs.length bs
where
  go : ℕ → List α → List (List α)
    | 0, _ => []
    | fuel + 1, bs =>
      match bs.take n with
      | [] => []
      | b :: block => (b :: block) :: go fuel (bs.drop n)

theorem blocks_go_flatten {n : ℕ} (hn : 0 < n) (recs : List (List α)) (h : ∀ r ∈ recs, r.length = n)
    (fuel : ℕ) (hf : recs.length ≤ fuel) : blocks.go n fuel recs.flatten = recs := by
  induction recs generalizing fuel with
  | nil => cases fuel <;> simp [blocks.go]
  | cons r recs ih =>
    obtain ⟨fuel, rfl⟩ : ∃ k, fuel = k + 1 := ⟨fuel - 1, by simp at hf; omega⟩
    have hr : r.length = n := h r (by simp)
    have hrest := ih (fun r' hr' => h r' (by simp [hr'])) fuel (by simpa using hf)
    obtain ⟨b, block, rfl⟩ : ∃ b block, r = b :: block := by
      cases r with
      | nil => simp at hr; omega
      | cons b block => exact ⟨b, block, rfl⟩
    rw [List.flatten_cons, blocks.go, List.take_left' hr, List.drop_left' hr]
    simp only [hrest]

/-- A file of `n`-byte records is read record by record. -/
theorem blocks_flatten {n : ℕ} (hn : 0 < n) (recs : List (List α)) (h : ∀ r ∈ recs, r.length = n) :
    blocks n recs.flatten = recs := by
  refine blocks_go_flatten hn recs h _ ?_
  induction recs with
  | nil => simp
  | cons r recs ih =>
    have hr : r.length = n := h r (by simp)
    have hrest := ih (fun r' hr' => h r' (by simp [hr']))
    simp only [List.flatten_cons, List.length_append, List.length_cons]
    omega

end Blocks

end Base
end AVPredictor
