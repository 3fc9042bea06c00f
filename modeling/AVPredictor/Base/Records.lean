import Mathlib.Logic.Function.Basic
import AVPredictor.Base.Bytes
import AVPredictor.Base.Loops

/-!
# AVPredictor.Base.Records — files of records of one size

The other direction of `Base.Bytes`: any bytes of the right number are a packed struct without padding
(`exists_pack`), and with any other number the reader fails (`unpackFrom_eq_none`).  A file is whole
records and a shorter rest (`exists_records`), so a loop that fails on a short record takes exactly
the files whose length is a multiple of the record size (`foldlM_blocks`, `appendAll_blocks`), and
these are the files of one list of records each (`existsUnique_records`).
-/

namespace AVPredictor
namespace Base

/-! ## Any bytes are a struct -/

theorem leBytes_leValue (bs : List UInt8) : leBytes bs.length (leValue bs) = bs := by
  induction bs with
  | nil => rfl
  | cons b bs ih =>
    have hlt := b.toNat_lt
    have hdiv : (b.toNat + 256 * leValue bs) / 256 = leValue bs := by omega
    have hmod : UInt8.ofNat (b.toNat + 256 * leValue bs) = b := by
      apply UInt8.toNat_inj.mp
      rw [UInt8.toNat_ofNat']
      omega
    rw [List.length_cons, leValue, leBytes, hdiv, hmod, ih]

theorem leValue_lt (bs : List UInt8) : leValue bs < 256 ^ bs.length := by
  have h := leValue_leBytes bs.length (leValue bs)
  rw [leBytes_leValue] at h
  rw [h]
  exact Nat.mod_lt _ (Nat.pow_pos (by decide))

/-- No member needs padding in front of it. -/
def Unpadded : ℕ → List Scalar → Prop
  | _, [] => True
  | off, s :: ss => padding s.align off = 0 ∧ Unpadded (off + s.size) ss

instance instDecidableUnpadded : ∀ (off : ℕ) (ss : List Scalar), Decidable (Unpadded off ss)
  | _, [] => inferInstanceAs (Decidable True)
  | off, s :: ss =>
    have := instDecidableUnpadded (off + s.size) ss
    inferInstanceAs (Decidable (padding s.align off = 0 ∧ Unpadded (off + s.size) ss))

/-- The number of bytes of the members. -/
def packedSize (ss : List Scalar) : ℕ := (ss.map Scalar.size).sum

section Pack

variable {off : ℕ} {ss : List Scalar} {bs : List UInt8}

theorem packedSize_cons (s : Scalar) (ss : List Scalar) : packedSize (s :: ss) = s.size + packedSize ss := by
  rw [packedSize, List.map_cons, List.sum_cons, packedSize]

/-- **Any bytes of the right number are a packed struct.** -/
theorem exists_pack (hss : Unpadded off ss) (hbs : bs.length = packedSize ss) :
    ∃ vs : List ℕ, vs.length = ss.length ∧ (∀ m ∈ ss.zip vs, m.2 < 256 ^ m.1.size) ∧
      pack off (ss.zip vs) = bs := by
  induction ss generalizing off bs with
  | nil =>
    obtain rfl := List.length_eq_zero_iff.mp hbs
    exact ⟨[], rfl, by simp, rfl⟩
  | cons s ss ih =>
    obtain ⟨hpad, hss⟩ := hss
    rw [packedSize_cons] at hbs
    have hdrop : (bs.drop s.size).length = packedSize ss := by
      rw [List.length_drop]
      omega
    obtain ⟨vs, hlen, hlt, hpack⟩ := ih hss hdrop
    have htake : (bs.take s.size).length = s.size := by
      rw [List.length_take]
      omega
    refine ⟨leValue (bs.take s.size) :: vs, by rw [List.length_cons, List.length_cons, hlen], ?_, ?_⟩
    · rw [List.zip_cons_cons, List.forall_mem_cons]
      have hvalue := leValue_lt (bs.take s.size)
      rw [htake] at hvalue
      exact ⟨hvalue, hlt⟩
    · have hbytes := leBytes_leValue (bs.take s.size)
      rw [htake] at hbytes
      rw [List.zip_cons_cons, pack, hpad, Nat.add_zero, hbytes, hpack]
      exact List.take_append_drop _ _

/-- With any other number of bytes the reader fails. -/
theorem unpackFrom_eq_none (hss : Unpadded off ss) (hbs : bs.length ≠ packedSize ss) :
    unpackFrom off ss bs = none := by
  induction ss generalizing off bs with
  | nil =>
    have hne : bs ≠ [] := fun h => hbs (by rw [h]; rfl)
    rw [unpackFrom, if_neg hne]
  | cons s ss ih =>
    obtain ⟨hpad, hss⟩ := hss
    rw [packedSize_cons] at hbs
    rw [unpackFrom]
    simp only [hpad, Nat.zero_add, Nat.add_zero]
    by_cases hshort : bs.length < s.size
    · rw [if_pos hshort]
    · rw [if_neg hshort, ih hss (by rw [List.length_drop]; omega)]
      rfl

/-- Packed structs of one format with the same bytes have the same values. -/
theorem values_eq_of_pack_eq {ms ms' : List (Scalar × ℕ)} (hfmt : ms.map Prod.fst = ms'.map Prod.fst)
    (hlt : ∀ m ∈ ms, m.2 < 256 ^ m.1.size) (hlt' : ∀ m ∈ ms', m.2 < 256 ^ m.1.size)
    (h : pack off ms = pack off ms') : ms.map Prod.snd = ms'.map Prod.snd := by
  have hread := unpackFrom_pack ms off hlt
  rw [h, hfmt, unpackFrom_pack ms' off hlt'] at hread
  exact (Option.some.inj hread).symm

end Pack

/-! ## Whole records and a rest -/

section Records

variable {α β ε : Type} {n : ℕ}

theorem exists_records (hn : 0 < n) (bs : List α) :
    ∃ (recs : List (List α)) (rest : List α), bs = recs.flatten ++ rest ∧
      (∀ r ∈ recs, r.length = n) ∧ rest.length < n := by
  induction hlen : bs.length using Nat.strong_induction_on generalizing bs with
  | _ k ih =>
    by_cases hshort : bs.length < n
    · exact ⟨[], bs, rfl, by simp, hshort⟩
    · obtain ⟨recs, rest, hdrop, hrecs, hrest⟩ := ih (bs.drop n).length (by rw [List.length_drop]; omega) _ rfl
      refine ⟨bs.take n :: recs, rest, ?_, List.forall_mem_cons.mpr ⟨?_, hrecs⟩, hrest⟩
      · rw [List.flatten_cons, List.append_assoc, ← hdrop, List.take_append_drop]
      · rw [List.length_take]
        omega

theorem length_flatten_records {recs : List (List α)} (h : ∀ r ∈ recs, r.length = n) :
    recs.flatten.length = n * recs.length := by
  induction recs with
  | nil => rfl
  | cons r recs ih =>
    obtain ⟨hr, hrecs⟩ := List.forall_mem_cons.mp h
    rw [List.flatten_cons, List.length_append, hr, ih hrecs, List.length_cons, Nat.mul_succ, Nat.add_comm]

/-- The rest is empty exactly for a multiple of the size. -/
theorem dvd_length_iff {recs : List (List α)} (h : ∀ r ∈ recs, r.length = n) {rest : List α}
    (hrest : rest.length < n) : n ∣ (recs.flatten ++ rest).length ↔ rest = [] := by
  rw [List.length_append, length_flatten_records h,
    Nat.dvd_add_right (Nat.dvd_mul_right n _), ← List.length_eq_zero_iff]
  constructor
  · exact fun hdvd => Nat.eq_zero_of_dvd_of_lt hdvd hrest
  · intro hzero
    rw [hzero]
    exact Nat.dvd_zero n

/-- The last read is short. -/
theorem blocks_records_append {recs : List (List α)} (h : ∀ r ∈ recs, r.length = n) {rest : List α}
    (hrest : rest.length < n) (hne : rest ≠ []) : blocks n (recs.flatten ++ rest) = recs ++ [rest] := by
  have hgo : ∀ fuel, recs.length < fuel → blocks.go n fuel (recs.flatten ++ rest) = recs ++ [rest] := by
    induction recs with
    | nil =>
      intro fuel hf
      obtain ⟨fuel, rfl⟩ : ∃ k, fuel = k + 1 := ⟨fuel - 1, by simp at hf; omega⟩
      obtain ⟨b, block, rfl⟩ := List.exists_cons_of_ne_nil hne
      rw [List.flatten_nil, List.nil_append, blocks.go, List.take_of_length_le (by omega),
        List.drop_of_length_le (by omega)]
      cases fuel with
      | zero => rfl
      | succ fuel =>
        simp only [blocks.go, List.take_nil, List.nil_append]
    | cons r recs ih =>
      intro fuel hf
      obtain ⟨fuel, rfl⟩ : ∃ k, fuel = k + 1 := ⟨fuel - 1, by simp at hf; omega⟩
      obtain ⟨hr, hrecs⟩ := List.forall_mem_cons.mp h
      obtain ⟨b, block, rfl⟩ : ∃ b block, r = b :: block :=
        List.exists_cons_of_ne_nil (by rintro rfl; simp at hr; omega)
      rw [List.flatten_cons, List.append_assoc, blocks.go, List.take_left' hr, List.drop_left' hr]
      simp only [ih hrecs fuel (by simpa using hf), List.cons_append]
  refine hgo _ ?_
  have hpos := List.length_pos_iff.mpr hne
  have hmul : recs.length ≤ n * recs.length := Nat.le_mul_of_pos_left _ (by omega)
  rw [List.length_append, length_flatten_records h]
  omega

/-! ## Loading loops -/

variable {e : ε}

/-- A loop that takes records of size `n` and fails on others takes the files of whole records. -/
theorem foldlM_blocks (hn : 0 < n) {step : β → List α → Except ε β}
    (hgood : ∀ b r, r.length = n → ∃ b', step b r = .ok b')
    (hbad : ∀ b r, r.length ≠ n → step b r = .error e) (b : β) (file : List α) :
    (n ∣ file.length → ∃ b', (blocks n file).foldlM step b = .ok b') ∧
      (¬ n ∣ file.length → (blocks n file).foldlM step b = .error e) := by
  obtain ⟨recs, rest, rfl, hrecs, hrest⟩ := exists_records hn file
  have hall : ∃ b', recs.foldlM step b = .ok b' := by
    clear hrest
    induction recs generalizing b with
    | nil => exact ⟨b, rfl⟩
    | cons r recs ih =>
      obtain ⟨hr, hrecs⟩ := List.forall_mem_cons.mp hrecs
      obtain ⟨b', hb'⟩ := hgood b r hr
      obtain ⟨b'', hb''⟩ := ih b' hrecs
      exact ⟨b'', by rw [List.foldlM_cons, hb']; exact hb''⟩
  obtain ⟨b', hb'⟩ := hall
  rw [dvd_length_iff hrecs hrest]
  constructor
  · rintro rfl
    rw [List.append_nil, blocks_flatten hn recs hrecs]
    exact ⟨b', hb'⟩
  · intro hne
    rw [blocks_records_append hrecs hrest hne, foldlM_concat hb']
    exact hbad b' rest (by omega)

/-- The same of a loop that appends. -/
theorem appendAll_blocks (hn : 0 < n) {f : List α → Except ε (List β)}
    (hgood : ∀ r, r.length = n → ∃ bs, f r = .ok bs)
    (hbad : ∀ r, r.length ≠ n → f r = .error e) (file : List α) :
    (n ∣ file.length → ∃ bs, appendAll f (blocks n file) = .ok bs) ∧
      (¬ n ∣ file.length → appendAll f (blocks n file) = .error e) := by
  obtain ⟨recs, rest, rfl, hrecs, hrest⟩ := exists_records hn file
  rw [dvd_length_iff hrecs hrest]
  constructor
  · rintro rfl
    rw [List.append_nil, blocks_flatten hn recs hrecs]
    exact appendAll_ok_iff.mpr fun r hr => hgood r (hrecs r hr)
  · intro hne
    rw [blocks_records_append hrecs hrest hne]
    cases hall : appendAll f (recs ++ [rest]) with
    | ok bs =>
      obtain ⟨cs, hcs⟩ := appendAll_ok_iff.mp ⟨bs, hall⟩ rest (by simp)
      exact absurd (hcs.symm.trans (hbad rest (by omega))) (by simp)
    | error e' =>
      obtain ⟨r, hr, herr⟩ := appendAll_error hall
      rcases List.mem_append.mp hr with hr | hr
      · obtain ⟨bs, hbs⟩ := hgood r (hrecs r hr)
        exact absurd (hbs.symm.trans herr) (by simp)
      · rw [List.mem_singleton.mp hr, hbad rest (by omega)] at herr
        exact congrArg _ (Except.error.inj herr).symm

/-- **A file of whole records is the file of one list of records.** -/
theorem existsUnique_records (hn : 0 < n) {bytes : β → List α} (hlen : ∀ r, (bytes r).length = n)
    (hinj : Function.Injective bytes) (hsurj : ∀ bs : List α, bs.length = n → ∃ r, bytes r = bs) {file : List α}
    (hfile : n ∣ file.length) : ∃! log : List β, (log.map bytes).flatten = file := by
  obtain ⟨recs, rest, rfl, hrecs, hrest⟩ := exists_records hn file
  obtain rfl := (dvd_length_iff hrecs hrest).mp hfile
  rw [List.append_nil]
  obtain ⟨log, hlog⟩ : ∃ log : List β, log.map bytes = recs := by
    clear hrest hfile
    induction recs with
    | nil => exact ⟨[], rfl⟩
    | cons bs recs ih =>
      obtain ⟨hbs, hrest⟩ := List.forall_mem_cons.mp hrecs
      obtain ⟨r, hr⟩ := hsurj bs hbs
      obtain ⟨log, hlog⟩ := ih hrest
      exact ⟨r :: log, by rw [List.map_cons, hr, hlog]⟩
  refine ⟨log, congrArg List.flatten hlog, fun log' hlog' => ?_⟩
  have hmap : ∀ l : List β, ∀ bs ∈ l.map bytes, bs.length = n := by
    intro l bs hbs
    obtain ⟨r, -, rfl⟩ := List.mem_map.mp hbs
    exact hlen r
  have hblocks := blocks_flatten hn (log'.map bytes) (hmap log')
  rw [hlog', blocks_flatten hn recs hrecs, ← hlog] at hblocks
  exact (List.map_injective_iff.mpr hinj hblocks).symm

end Records

end Base
end AVPredictor
