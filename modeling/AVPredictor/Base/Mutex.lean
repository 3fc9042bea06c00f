import Mathlib.Data.List.Basic
import Mathlib.Data.List.Induction
import Mathlib.Data.List.Infix

/-!
# AVPredictor.Base.Mutex — who holds a mutex in a history

A history is a list of events; `isRec t m e` says that `e` is a lock or an unlock of mutex `m` by
thread `t`, and `lk e` which of the two.  A thread holds a mutex after a prefix when its locks of it
outnumber its unlocks there.  A history is safe when no mutex is ever held by two threads.

`UnlocksHeld.holds`: in a history where threads unlock only what they hold, a thread holds a mutex
that it has locked and not unlocked since.  `holds_between`: when a thread's records of a mutex
alternate lock, unlock, it holds the mutex at every point between a lock and the unlock that follows
it.
-/

namespace AVPredictor
namespace Base

section Mutex

variable {ε τ μ : Type} (isRec : τ → μ → ε → Bool) (lk : ε → Bool)

/-- Lock, unlock, lock, and so on; the last unlock may be missing. -/
def Alternates : List ε → Prop
  | [] => True
  | [a] => lk a = true
  | a :: b :: l => lk a = true ∧ lk b = false ∧ Alternates l

/-- Thread `t` holds `m` after the events `p`. -/
def Holds (p : List ε) (t : τ) (m : μ) : Prop :=
  (p.filter (isRec t m)).countP (fun e => !lk e) < (p.filter (isRec t m)).countP lk

/-- No mutex is held by two threads at the same time. -/
def MutexSafe (σ : List ε) : Prop :=
  ∀ p, p <+: σ → ∀ t t' m, Holds isRec lk p t m → Holds isRec lk p t' m → t = t'

/-- A thread unlocks only a mutex that it holds. -/
def UnlocksHeld (σ : List ε) : Prop :=
  ∀ p e q, σ = p ++ e :: q → lk e = false → ∀ t m, isRec t m e → Holds isRec lk p t m

variable {isRec lk}

instance (p : List ε) (t : τ) (m : μ) : Decidable (Holds isRec lk p t m) := Nat.decLt _ _

/-- A holder has locked. -/
theorem Holds.exists_lock {p : List ε} {t : τ} {m : μ} (h : Holds isRec lk p t m) :
    ∃ e ∈ p, isRec t m e ∧ lk e := by
  have hpos : 0 < (p.filter (isRec t m)).countP lk := by
    unfold Holds at h
    omega
  obtain ⟨e, he, hlk⟩ := List.countP_pos_iff.mp hpos
  obtain ⟨hep, hrec⟩ := List.mem_filter.mp he
  exact ⟨e, hep, hrec, hlk⟩

/-- Then no prefix has more unlocks than locks. -/
theorem UnlocksHeld.count_le {σ : List ε} (h : UnlocksHeld isRec lk σ) {p q : List ε} (hσ : σ = p ++ q) (t : τ)
    (m : μ) :
    (p.filter (isRec t m)).countP (fun e => !lk e) ≤ (p.filter (isRec t m)).countP lk := by
  induction p using List.reverseRecOn generalizing q with
  | nil => simp
  | append_singleton p e ih =>
    rw [List.append_assoc, List.singleton_append] at hσ
    have hle := ih hσ
    by_cases hrec : isRec t m e = true
    · rw [List.filter_append, List.filter_cons_of_pos hrec, List.filter_nil, List.countP_append,
        List.countP_append]
      cases hlk : lk e with
      | true =>
        simp only [List.countP_singleton, hlk, Bool.not_true, Bool.false_eq_true, if_false, if_true]
        omega
      | false =>
        have hheld := h p e q hσ hlk t m hrec
        unfold Holds at hheld
        simp only [List.countP_singleton, hlk, Bool.not_false, Bool.false_eq_true, if_false, if_true]
        omega
    · rwa [List.filter_append, List.filter_cons_of_neg hrec, List.filter_nil, List.append_nil]

/-- A thread that has locked a mutex and not unlocked it since holds it. -/
theorem UnlocksHeld.holds {σ : List ε} (h : UnlocksHeld isRec lk σ) {p l q : List ε} {r : ε}
    (hσ : σ = p ++ r :: q) {t : τ} {m : μ} (hrec : isRec t m r = true) (hr : lk r = true)
    (hl : ∀ e ∈ l, isRec t m e = true → lk e = true) : Holds isRec lk (p ++ r :: l) t m := by
  have hle := h.count_le hσ t m
  have hnone : (l.filter (isRec t m)).countP (fun e => !lk e) = 0 := by
    rw [List.countP_eq_zero]
    intro e he
    obtain ⟨hel, herec⟩ := List.mem_filter.mp he
    simp [hl e hel herec]
  unfold Holds
  rw [List.filter_append, List.filter_cons_of_pos hrec, List.countP_append, List.countP_append,
    List.countP_cons_of_neg (by simp [hr]), List.countP_cons_of_pos hr, hnone]
  omega

/-- In an alternating history the locks and unlocks before a lock balance, and an unlock follows
it. -/
theorem Alternates.at_lock {l₁ l₂ : List ε} {r : ε} (h : Alternates lk (l₁ ++ r :: l₂))
    (hr : lk r = true) :
    l₁.countP (fun e => !lk e) = l₁.countP lk ∧ ∀ x l, l₂ = x :: l → lk x = false := by
  match l₁, h with
  | [], h =>
    refine ⟨rfl, fun x l hl => ?_⟩
    rw [hl] at h
    exact h.2.1
  | [a], h =>
    have hbad : lk r = false := h.2.1
    rw [hr] at hbad
    exact absurd hbad (by simp)
  | a :: b :: l₁, h =>
    obtain ⟨ha, hb, h⟩ := h
    obtain ⟨hcount, hnext⟩ := Alternates.at_lock h hr
    exact ⟨by simp [ha, hb, hcount], hnext⟩

/-- Cut a list between two neighbours of it. -/
theorem cut_between {as bs l₁ l₂ : List ε} {r u : ε} (h : as ++ bs = l₁ ++ r :: u :: l₂) (hr : r ∉ bs)
    (hu : u ∉ as) : as = l₁ ++ [r] := by
  rcases List.append_eq_append_iff.mp h with ⟨c, rfl, hc⟩ | ⟨c, rfl, hc⟩
  · exact absurd (by simp [hc]) hr
  · match c, hc with
    | [], hc => exact absurd (by rw [List.nil_append] at hc; simp [← hc]) hr
    | [x], hc =>
      rw [List.cons_append, List.cons.injEq] at hc
      rw [hc.1]
    | x :: y :: c, hc =>
      simp only [List.cons_append, List.cons.injEq] at hc
      exact absurd (by simp [hc.2.1]) hu

/-- **Between a lock and the next unlock the mutex is held.** -/
theorem holds_between {p q : List ε} {t : τ} {m : μ} {l₁ l₂ l₃ : List ε} {r u : ε}
    (halt : Alternates lk ((p ++ q).filter (isRec t m)))
    (hsplit : (p ++ q).filter (isRec t m) = l₁ ++ r :: (l₂ ++ u :: l₃)) (hr : lk r = true)
    (hno : ∀ x ∈ l₂, lk x = true) (hrq : r ∉ q) (hup : u ∉ p) : Holds isRec lk p t m := by
  rw [hsplit] at halt
  obtain ⟨hcount, hnext⟩ := halt.at_lock hr
  -- no record lies between the two: it would have to be an unlock
  have hl₂ : l₂ = [] := by
    match l₂, hno, hnext with
    | [], _, _ => rfl
    | x :: l, hno, hnext =>
      have hx := hnext x (l ++ u :: l₃) rfl
      rw [hno x (by simp)] at hx
      exact absurd hx (by simp)
  rw [hl₂, List.nil_append, List.filter_append] at hsplit
  have hp : p.filter (isRec t m) = l₁ ++ [r] :=
    cut_between hsplit (fun h => hrq (List.mem_of_mem_filter h))
      (fun h => hup (List.mem_of_mem_filter h))
  unfold Holds
  rw [hp, List.countP_append, List.countP_append, hcount]
  simp [hr]

/-! ### Checking a history whose events name their thread and mutex -/

section Checks

variable {σ : List ε} {tid : ε → τ} {mutex : ε → μ}

theorem mutexSafe_iff (hkey : ∀ t m e, isRec t m e = true → t = tid e ∧ m = mutex e) :
    MutexSafe isRec lk σ ↔ ∀ p ∈ σ.inits, ∀ e ∈ p, ∀ e' ∈ p, mutex e = mutex e' →
      Holds isRec lk p (tid e) (mutex e) → Holds isRec lk p (tid e') (mutex e') → tid e = tid e' := by
  constructor
  · intro h p hp e _ e' _ hm hh hh'
    rw [← hm] at hh'
    exact h p ((List.mem_inits p σ).mp hp) _ _ _ hh hh'
  · intro h p hp t t' m hh hh'
    obtain ⟨e, he, hrec, -⟩ := hh.exists_lock
    obtain ⟨e', he', hrec', -⟩ := hh'.exists_lock
    obtain ⟨rfl, rfl⟩ := hkey t m e hrec
    obtain ⟨rfl, hm⟩ := hkey t' _ e' hrec'
    exact h p ((List.mem_inits p σ).mpr hp) e he e' he' hm hh (hm ▸ hh')

theorem unlocksHeld_iff (hkey : ∀ t m e, isRec t m e = true → t = tid e ∧ m = mutex e) :
    UnlocksHeld isRec lk σ ↔ ∀ i : Fin σ.length, lk σ[i] = false → isRec (tid σ[i]) (mutex σ[i]) σ[i] = true →
      Holds isRec lk (σ.take i) (tid σ[i]) (mutex σ[i]) := by
  constructor
  · intro h i hlk hrec
    exact h _ _ (σ.drop (i + 1)) (by simp) hlk _ _ hrec
  · rintro h p e q rfl hlk t m hrec
    obtain ⟨rfl, rfl⟩ := hkey t m e hrec
    have hi := h ⟨p.length, by simp⟩
    simp only [Fin.getElem_fin, List.getElem_append_right le_rfl, Nat.sub_self, List.getElem_cons_zero,
      List.take_left] at hi
    exact hi hlk hrec

end Checks

end Mutex

end Base
end AVPredictor
