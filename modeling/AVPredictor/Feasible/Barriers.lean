import Mathlib.Data.List.Infix
import AVPredictor.Base.Reorder
import AVPredictor.Offline.Pruner

/-!
# AVPredictor.Feasible.Barriers — what barrier pruning hides

In a run of threads that all take part in every barrier, a thread's `k`-th return comes only after
every thread has arrived `k` times.  The round of an access is the number of barrier returns of its
own thread before it.

The sync check of `pruner` abandons a candidate when first's thread has returned from a barrier
between inter and first (or inter's thread between second and inter).  But inter's thread may have
returned from the same barrier before inter: then inter and first are in one round, and only the
times at which the returns were recorded differ.

`barrier_pruning_iff`: an abandoned candidate is infeasible exactly when inter's round is smaller
than first's or greater than second's.  If it is neither, sorting the run by rounds, with inter
after first and before second within a round, is a legal schedule that has inter between them
(`between_byRounds`).
-/

namespace AVPredictor
namespace Feasible

open Base Offline

/-- An event of a run with barriers. -/
inductive BEv where
  | access (x : Trace)
  /-- the thread arrives at a barrier -/
  | arrive (tid time : ℕ)
  /-- the barrier call returns, logged by `afterThreadBarrier` -/
  | ret (tid time : ℕ)
deriving DecidableEq, Repr

namespace BEv

def tid : BEv → ℕ
  | access x => x.tid
  | arrive tid _ => tid
  | ret tid _ => tid

def time : BEv → ℕ
  | access x => x.time
  | arrive _ time => time
  | ret _ time => time

def isArrive : BEv → Bool
  | arrive _ _ => true
  | _ => false

def isRet : BEv → Bool
  | ret _ _ => true
  | _ => false

end BEv

/-- The sync records of a run: its barrier returns, type 1. -/
def syncsOf (ρ : List BEv) : List Sync :=
  ρ.filterMap fun
    | .ret tid time => some ⟨tid, time, 1⟩
    | _ => none

/-- The events of one thread. -/
def thread (ρ : List BEv) (t : ℕ) : List BEv := ρ.filter (·.tid = t)

/-- A thread that has arrived does nothing until it returns, and returns only then; `waiting` tells
whether it has arrived. -/
def Blocks : Bool → List BEv → Prop
  | _, [] => True
  | false, e :: l => e.isRet = false ∧ Blocks e.isArrive l
  | true, e :: l => e.isRet = true ∧ Blocks false l

instance decidableBlocks : ∀ (waiting : Bool) (l : List BEv), Decidable (Blocks waiting l)
  | _, [] => isTrue trivial
  | false, e :: l =>
    have := decidableBlocks e.isArrive l
    inferInstanceAs (Decidable (e.isRet = false ∧ Blocks e.isArrive l))
  | true, e :: l =>
    have := decidableBlocks false l
    inferInstanceAs (Decidable (e.isRet = true ∧ Blocks false l))

/-- **The barrier rule**: the `k`-th return of a thread comes after the `k`-th arrival of every
thread. -/
def BarrierRule (threads : List ℕ) (σ : List BEv) : Prop :=
  ∀ p, p <+: σ → ∀ t ∈ threads, ∀ t' ∈ threads,
    (thread p t).countP BEv.isRet ≤ (thread p t').countP BEv.isArrive

instance (threads : List ℕ) (σ : List BEv) : Decidable (BarrierRule threads σ) :=
  decidable_of_iff (∀ p ∈ σ.inits, ∀ t ∈ threads, ∀ t' ∈ threads,
      (thread p t).countP BEv.isRet ≤ (thread p t').countP BEv.isArrive)
    (forall_congr' fun p => by rw [List.mem_inits])

/-- A recorded run of the threads `threads`. -/
structure BarrierRun (threads : List ℕ) (ρ : List BEv) : Prop where
  order : TimeOrdered BEv.tid BEv.time ρ
  blocks : ∀ t ∈ threads, Blocks false (thread ρ t)
  rule : BarrierRule threads ρ
  members : ∀ e ∈ ρ, e.tid ∈ threads

/-- A reordering of the run that keeps each thread's own order and the barrier rule. -/
structure Reordering (threads : List ℕ) (ρ σ : List BEv) : Prop where
  keeps : KeepsOrder BEv.tid ρ σ
  rule : BarrierRule threads σ

/-- Inter is executed between first and second. -/
def BetweenAccesses (σ : List BEv) (ci : CI) : Prop :=
  List.Sublist [.access ci.first, .access ci.inter, .access ci.second] σ

/-- The events of the thread of `e` that come before it. -/
def earlier (ρ : List BEv) (e : BEv) : List BEv := (thread ρ e.tid).filter (·.time < e.time)

/-- The round of an event: the barrier returns of its own thread before it. -/
def round (ρ : List BEv) (e : BEv) : ℕ := (earlier ρ e).countP BEv.isRet

section Rounds

variable {threads : List ℕ} {ρ σ p q : List BEv} {e e' : BEv} {t : ℕ}

theorem mem_thread : e ∈ thread ρ t ↔ e ∈ ρ ∧ e.tid = t := by
  simp [thread]

theorem thread_append (p q : List BEv) (t : ℕ) : thread (p ++ q) t = thread p t ++ thread q t :=
  List.filter_append p q

/-- A thread's own events come in the order of their times. -/
theorem thread_sorted (h : TimeOrdered BEv.tid BEv.time ρ) (t : ℕ) :
    (thread ρ t).Pairwise (fun a b => a.time < b.time) := by
  rw [thread, List.pairwise_filter]
  refine h.imp fun hab ha hb => hab ?_
  simp only [decide_eq_true_eq] at ha hb
  rw [ha, hb]

/-- What comes before an event of its thread is what has a smaller time. -/
theorem earlier_eq (h : TimeOrdered BEv.tid BEv.time ρ) {l₁ l₂ : List BEv}
    (hl : thread ρ e.tid = l₁ ++ e :: l₂) : earlier ρ e = l₁ := by
  have hs := thread_sorted h e.tid
  rw [hl] at hs
  obtain ⟨-, h2, h3⟩ := List.pairwise_append.mp hs
  have hl1 : l₁.filter (·.time < e.time) = l₁ :=
    List.filter_eq_self.mpr fun a ha => by simpa using h3 a ha e (by simp)
  have hl2 : (e :: l₂).filter (·.time < e.time) = [] := by
    refine List.filter_eq_nil_iff.mpr fun a ha => ?_
    rcases List.mem_cons.mp ha with rfl | ha
    · simp
    · have hlt := (List.pairwise_cons.mp h2).1 a ha
      simp only [decide_eq_true_eq]
      omega
  rw [earlier, hl, List.filter_append, hl1, hl2, List.append_nil]

theorem exists_split (he : e ∈ ρ) : ∃ l₁ l₂, thread ρ e.tid = l₁ ++ e :: l₂ :=
  List.append_of_mem (mem_thread.mpr ⟨he, rfl⟩)

/-- Before an event of a thread its arrivals and returns balance, but for the arrival that a return
answers. -/
theorem Blocks.balance {w : Bool} {l₁ l₂ : List BEv} (h : Blocks w (l₁ ++ e :: l₂)) :
    l₁.countP BEv.isArrive + w.toNat = l₁.countP BEv.isRet + e.isRet.toNat := by
  induction l₁ generalizing w with
  | nil =>
    cases w with
    | false => simp [h.1]
    | true => simp [h.1]
  | cons a l₁ ih =>
    cases w with
    | false =>
      have hrest := ih h.2
      have ha : a.isRet = false := h.1
      rw [List.countP_cons, List.countP_cons]
      cases harr : a.isArrive <;> simp_all
    | true =>
      have hrest := ih h.2
      have ha : a.isRet = true := h.1
      have harr : a.isArrive = false := by
        cases a with
        | access x => rfl
        | arrive t τ => simp [BEv.isRet] at ha
        | ret t τ => rfl
      rw [List.countP_cons, List.countP_cons]
      simp_all
      omega

theorem BarrierRun.arrivals (h : BarrierRun threads ρ) (he : e ∈ ρ) :
    (earlier ρ e).countP BEv.isArrive = round ρ e + e.isRet.toNat := by
  obtain ⟨l₁, l₂, hl⟩ := exists_split he
  have hb := h.blocks e.tid (h.members e he)
  rw [hl] at hb
  have hbal := hb.balance
  rw [round, earlier_eq h.order hl]
  simpa using hbal

/-- What comes before a later event of the same thread. -/
theorem earlier_of_lt (h : TimeOrdered BEv.tid BEv.time ρ) (he : e ∈ ρ) (he' : e' ∈ ρ) (ht : e'.tid = e.tid)
    (hlt : e.time < e'.time) : ∃ m, earlier ρ e' = earlier ρ e ++ e :: m := by
  obtain ⟨l₁, l₂, hl⟩ := exists_split he
  have hs := thread_sorted h e.tid
  rw [hl] at hs
  have hmem : e' ∈ l₁ ++ e :: l₂ := hl ▸ mem_thread.mpr ⟨he', ht⟩
  have hmem₂ : e' ∈ l₂ := by
    rcases List.mem_append.mp hmem with hm | hm
    · have hgt := (List.pairwise_append.mp hs).2.2 e' hm e (by simp)
      omega
    · rcases List.mem_cons.mp hm with rfl | hm
      · omega
      · exact hm
  obtain ⟨m, l₃, rfl⟩ := List.append_of_mem hmem₂
  have hcut : thread ρ e'.tid = (l₁ ++ e :: m) ++ e' :: l₃ := by
    rw [ht, hl]
    simp
  exact ⟨m, by rw [earlier_eq h hl, earlier_eq h hcut]⟩

theorem round_le (h : TimeOrdered BEv.tid BEv.time ρ) (he : e ∈ ρ) (he' : e' ∈ ρ) (ht : e'.tid = e.tid)
    (hlt : e.time < e'.time) : round ρ e + e.isRet.toNat ≤ round ρ e' := by
  obtain ⟨m, hm⟩ := earlier_of_lt h he he' ht hlt
  rw [round, round, hm, List.countP_append, List.countP_cons]
  cases e.isRet <;> simp

/-- After an arrival the thread's next round begins, at its return. -/
theorem BarrierRun.round_of_arrive (h : BarrierRun threads ρ) (he : e ∈ ρ) (he' : e' ∈ ρ)
    (ht : e'.tid = e.tid) (hlt : e.time < e'.time) (harr : e.isArrive = true) :
    round ρ e + 1 ≤ round ρ e' + e'.isRet.toNat := by
  obtain ⟨m, hm⟩ := earlier_of_lt h.order he he' ht hlt
  have h1 := h.arrivals he
  have h2 := h.arrivals he'
  rw [hm, List.countP_append, List.countP_cons, harr, h1] at h2
  simp at h2
  omega

/-! ## Infeasible candidates -/

/-- A cut of a legal reordering separates events only towards a later round. -/
theorem round_le_of_cut (h : BarrierRun threads ρ) (hσ : Reordering threads ρ (p ++ q)) (he : e ∈ p)
    (he' : e' ∈ q) (hacc : e'.isRet = false) : round ρ e ≤ round ρ e' := by
  have heρ : e ∈ ρ := hσ.keeps.mem_iff.mp (List.mem_append_left q he)
  have heρ' : e' ∈ ρ := hσ.keeps.mem_iff.mp (List.mem_append_right p he')
  have hthread : ∀ t, thread ρ t = thread p t ++ thread q t := fun t =>
    (hσ.keeps t).symm.trans (thread_append p q t)
  -- the returns before `e` lie before the cut
  obtain ⟨a, b, hab⟩ := List.append_of_mem (mem_thread.mpr ⟨he, rfl⟩)
  have hround : round ρ e ≤ (thread p e.tid).countP BEv.isRet := by
    have hcut : thread ρ e.tid = a ++ e :: (b ++ thread q e.tid) := by
      rw [hthread, hab]
      simp
    rw [round, earlier_eq h.order hcut, hab, List.countP_append]
    omega
  -- the arrivals before the cut come before `e'`
  obtain ⟨c, d, hcd⟩ := List.append_of_mem (mem_thread.mpr ⟨he', rfl⟩)
  have harr : (thread p e'.tid).countP BEv.isArrive ≤ round ρ e' := by
    have hcut : thread ρ e'.tid = (thread p e'.tid ++ c) ++ e' :: d := by
      rw [hthread, hcd]
      simp
    have hbal := h.arrivals heρ'
    rw [hacc, earlier_eq h.order hcut, List.countP_append] at hbal
    simp at hbal
    omega
  have hrule := hσ.rule p (List.prefix_append p q) e.tid (h.members e heρ) e'.tid (h.members e' heρ')
  omega

/-- Inter between first and second lies in a round between theirs. -/
theorem rounds_of_between (h : BarrierRun threads ρ) {σ : List BEv} (hσ : Reordering threads ρ σ) {ci : CI}
    (hbetween : BetweenAccesses σ ci) :
    round ρ (.access ci.first) ≤ round ρ (.access ci.inter) ∧
      round ρ (.access ci.inter) ≤ round ρ (.access ci.second) := by
  obtain ⟨p, q, rfl, hfirst, hrest⟩ := List.cons_sublist_iff.mp hbetween
  obtain ⟨q₁, q₂, rfl, hinter, hlast⟩ := List.cons_sublist_iff.mp hrest
  have hsecond : BEv.access ci.second ∈ q₂ := List.singleton_sublist.mp hlast
  refine ⟨round_le_of_cut h hσ hfirst (List.mem_append_left q₂ hinter) rfl, ?_⟩
  rw [← List.append_assoc] at hσ
  exact round_le_of_cut h hσ (List.mem_append_right p hinter) hsecond rfl

end Rounds

/-! ## The schedule by rounds -/

/-- The place of an event in the schedule: its round, and within a round the accesses of first's
thread up to first, then those of the other threads, then the rest of first's thread, then the
arrivals. -/
def byRounds (ρ : List BEv) (first : Trace) (e : BEv) : ℕ :=
  match e with
  | .access x =>
    10 * round ρ e + if x.tid = first.tid then (if x.time ≤ first.time then 3 else 5) else 4
  | .arrive _ _ => 10 * round ρ e + 8
  | .ret _ _ => 10 * round ρ e + 10

section Schedule

variable {threads : List ℕ} {ρ σ p q : List BEv} {e e' : BEv} {first : Trace}

theorem byRounds_lower : 10 * round ρ e ≤ byRounds ρ first e := by
  cases e <;> simp only [byRounds] <;> omega

theorem byRounds_upper (hret : e.isRet = false) : byRounds ρ first e ≤ 10 * round ρ e + 8 := by
  cases e with
  | access x =>
    simp only [byRounds]
    split_ifs <;> omega
  | arrive t τ => exact le_refl _
  | ret t τ => exact absurd hret (by simp [BEv.isRet])

theorem byRounds_ret (hret : e.isRet = true) : byRounds ρ first e = 10 * round ρ e + 10 := by
  cases e with
  | access x => exact absurd hret (by simp [BEv.isRet])
  | arrive t τ => exact absurd hret (by simp [BEv.isRet])
  | ret t τ => rfl

/-- The place does not decrease along a thread. -/
theorem byRounds_le (h : BarrierRun threads ρ) (he : e ∈ ρ) (he' : e' ∈ ρ) (ht : e'.tid = e.tid)
    (hlt : e.time < e'.time) : byRounds ρ first e ≤ byRounds ρ first e' := by
  have hround := round_le h.order he he' ht hlt
  cases hret : e.isRet with
  | true =>
    have hlow := @byRounds_lower ρ e' first
    rw [byRounds_ret hret]
    rw [hret] at hround
    simp at hround
    omega
  | false =>
    have hup := @byRounds_upper ρ e first hret
    cases hret' : e'.isRet with
    | true =>
      rw [byRounds_ret hret']
      omega
    | false =>
      cases e with
      | ret t τ => exact absurd hret (by simp [BEv.isRet])
      | arrive t τ =>
        have hnext := h.round_of_arrive he he' ht hlt rfl
        have hlow := @byRounds_lower ρ e' first
        rw [hret'] at hnext
        simp at hnext
        omega
      | access x =>
        cases e' with
        | ret t τ => exact absurd hret' (by simp [BEv.isRet])
        | arrive t τ =>
          simp only [byRounds] at hup ⊢
          omega
        | access y =>
          have hxy : y.tid = x.tid := ht
          have htime : x.time < y.time := hlt
          simp only [byRounds, hxy]
          split_ifs <;> omega

theorem keepsOrder_byRounds (h : BarrierRun threads ρ) (first : Trace) :
    KeepsOrder BEv.tid ρ (sortByKey (byRounds ρ first) ρ) := by
  refine keepsOrder_sortByKey (h.order.imp_of_mem fun he he' hab ht => ?_)
  exact byRounds_le h he he' ht.symm (hab ht)

/-- **The schedule by rounds is legal**: before a thread's return number `k` come all arrivals
number `k`. -/
theorem rule_byRounds (h : BarrierRun threads ρ) (first : Trace) :
    BarrierRule threads (sortByKey (byRounds ρ first) ρ) := by
  have hkeeps := keepsOrder_byRounds h first
  have hsorted := sortByKey_sorted (byRounds ρ first) ρ
  rintro p ⟨q, hpq⟩ t ht t' ht'
  rw [← hpq] at hkeeps hsorted
  have hthread : ∀ t, thread ρ t = thread p t ++ thread q t := fun t =>
    (hkeeps t).symm.trans (thread_append p q t)
  by_contra hlt
  -- the return that breaks the rule, and the arrival of the same number
  obtain ⟨a, x, b, hax, hx, hka⟩ :=
    exists_split_countP (show (thread p t').countP BEv.isArrive < (thread p t).countP BEv.isRet by omega)
  have htotal : (thread p t').countP BEv.isArrive < (thread ρ t').countP BEv.isArrive := by
    have hrule := h.rule ρ (List.prefix_refl ρ) t ht t' ht'
    rw [hthread t, List.countP_append] at hrule
    omega
  obtain ⟨c, y, d, hcy, hy, hkc⟩ := exists_split_countP htotal
  have hxp : x ∈ p ∧ x.tid = t := mem_thread.mp (by rw [hax]; simp)
  have hyρ : y ∈ ρ ∧ y.tid = t' := mem_thread.mp (by rw [hcy]; simp)
  have hxρ : x ∈ ρ := hkeeps.mem_iff.mp (List.mem_append_left q hxp.1)
  have hroundx : round ρ x = (thread p t').countP BEv.isArrive := by
    have hcut : thread ρ x.tid = a ++ x :: (b ++ thread q t) := by
      rw [hxp.2, hthread t, hax]
      simp
    rw [round, earlier_eq h.order hcut, hka]
  have hyret : y.isRet = false := by
    cases y with
    | access z => rfl
    | arrive s τ => rfl
    | ret s τ => simp [BEv.isArrive] at hy
  have hroundy : round ρ y = (thread p t').countP BEv.isArrive := by
    have hcut : thread ρ y.tid = c ++ y :: d := by rw [hyρ.2, hcy]
    have hbal := h.arrivals hyρ.1
    rw [earlier_eq h.order hcut, hkc, hyret] at hbal
    simpa using hbal.symm
  -- the arrival is placed before the return, so it is in the prefix
  have hkey : byRounds ρ first y < byRounds ρ first x := by
    have hup := @byRounds_upper ρ y first hyret
    rw [byRounds_ret hx]
    omega
  have hyp : y ∈ p := by
    rcases List.mem_append.mp (hkeeps.mem_iff.mpr hyρ.1) with hyp | hyq
    · exact hyp
    · have hle := (List.pairwise_append.mp hsorted).2.2 x hxp.1 y hyq
      omega
  -- but the prefix has only the arrivals before it
  obtain ⟨c', d', hcd⟩ := List.append_of_mem (mem_thread.mpr ⟨hyp, hyρ.2⟩)
  have hcut : thread ρ y.tid = c' ++ y :: (d' ++ thread q t') := by
    rw [hyρ.2, hthread t', hcd]
    simp
  have hbal := h.arrivals hyρ.1
  rw [earlier_eq h.order hcut, hyret] at hbal
  rw [hcd, List.countP_append, List.countP_cons, if_pos hy] at hroundy
  simp at hbal
  omega

/-- Accesses in rounds that allow it are put in the order first, inter, second. -/
theorem between_byRounds {ci : CI} (hmem : ∀ x ∈ [ci.first, ci.inter, ci.second], BEv.access x ∈ ρ)
    (hinter : ci.inter.tid ≠ ci.first.tid) (hsecond : ci.second.tid = ci.first.tid)
    (htime : ci.first.time < ci.second.time)
    (h1 : round ρ (.access ci.first) ≤ round ρ (.access ci.inter))
    (h2 : round ρ (.access ci.inter) ≤ round ρ (.access ci.second)) :
    BetweenAccesses (sortByKey (byRounds ρ ci.first) ρ) ci := by
  have hperm : (sortByKey (byRounds ρ ci.first) ρ).Perm ρ := List.mergeSort_perm ρ _
  have kf : byRounds ρ ci.first (.access ci.first) = 10 * round ρ (.access ci.first) + 3 := by simp [byRounds]
  have ki : byRounds ρ ci.first (.access ci.inter) = 10 * round ρ (.access ci.inter) + 4 := by
    simp [byRounds, hinter]
  have ks : byRounds ρ ci.first (.access ci.second) = 10 * round ρ (.access ci.second) + 5 := by
    simp [byRounds, hsecond, htime]
  refine sublist_of_key_lt (sortByKey_sorted _ ρ) ?_ ?_
  · simp only [List.pairwise_cons, List.forall_mem_cons, kf, ki, ks]
    refine ⟨⟨by omega, by omega, by simp⟩, ⟨by omega, by simp⟩, by simp⟩
  · intro e he
    rw [hperm.mem_iff]
    simp only [List.mem_cons, List.not_mem_nil, or_false] at he
    rcases he with rfl | rfl | rfl
    · exact hmem _ (by simp)
    · exact hmem _ (by simp)
    · exact hmem _ (by simp)

end Schedule

/-- A candidate can be scheduled exactly when inter's round lies between those of first and
second. -/
theorem feasible_iff {threads : List ℕ} {ρ : List BEv} (h : BarrierRun threads ρ) {ci : CI}
    (hmem : ∀ x ∈ [ci.first, ci.inter, ci.second], BEv.access x ∈ ρ) (hinter : ci.inter.tid ≠ ci.first.tid)
    (hsecond : ci.second.tid = ci.first.tid) (htime : ci.first.time < ci.second.time) :
    (∃ σ, Reordering threads ρ σ ∧ BetweenAccesses σ ci) ↔
      round ρ (.access ci.first) ≤ round ρ (.access ci.inter) ∧
        round ρ (.access ci.inter) ≤ round ρ (.access ci.second) := by
  constructor
  · rintro ⟨σ, hσ, hbetween⟩
    exact rounds_of_between h hσ hbetween
  · rintro ⟨h1, h2⟩
    exact ⟨_, ⟨keepsOrder_byRounds h ci.first, rule_byRounds h ci.first⟩,
      between_byRounds hmem hinter hsecond htime h1 h2⟩

/-- **When barrier pruning is right**: what the sync check says of a candidate, that no legal
reordering has inter between first and second, holds exactly when inter's round is smaller than
first's or greater than second's. -/
theorem barrier_pruning_iff {threads : List ℕ} {ρ : List BEv} (h : BarrierRun threads ρ) {memLog : List MemRef}
    (hlog : ∀ x ∈ memLog.map traceOf, BEv.access x ∈ ρ) {mt : MemTrace} {order : List ℕ} {cis : List CI}
    (hload : loadMemTraces (memFile memLog) = .ok mt) (hpred : predictor order mt = .ok cis) :
    ∀ ci ∈ cis,
      (Restricted (syncsOf ρ) ci → ∀ σ, Reordering threads ρ σ → ¬ BetweenAccesses σ ci) ↔
        (Restricted (syncsOf ρ) ci →
          round ρ (.access ci.inter) < round ρ (.access ci.first) ∨
            round ρ (.access ci.second) < round ρ (.access ci.inter)) := by
  intro ci hci
  have hc := candidate_of_predictor (memRep_of_load hload) hpred hci
  have hmem : ∀ x ∈ [ci.first, ci.inter, ci.second], BEv.access x ∈ ρ := by
    intro x hx
    simp only [List.mem_cons, List.not_mem_nil, or_false] at hx
    rcases hx with rfl | rfl | rfl
    · exact hlog _ hc.next.left_mem
    · exact hlog _ hc.mem
    · exact hlog _ hc.next.right_mem
  have hiff := feasible_iff h hmem hc.tid hc.next.tid_eq hc.time
  refine imp_congr_right fun _ => ?_
  constructor
  · intro hno
    by_contra hrounds
    obtain ⟨σ, hσ, hb⟩ := hiff.mpr (by omega)
    exact hno σ hσ hb
  · intro hrounds σ hσ hb
    have hle := hiff.mp ⟨σ, hσ, hb⟩
    omega

/-- Both threads pass one barrier; thread 2 returns from it first and writes a word before thread 1
returns. -/
def staggeredRun : List BEv :=
  [.arrive 1 1, .arrive 2 2, .ret 2 3, .access ⟨2, 4, 12, 64, 0⟩, .ret 1 5, .access ⟨1, 6, 10, 64, 1⟩,
    .access ⟨1, 7, 11, 64, 0⟩]

def staggeredLog : List MemRef := [⟨12, 64, 4, 2, 0⟩, ⟨10, 64, 6, 1, 1⟩, ⟨11, 64, 7, 1, 0⟩]

def staggeredCi : CI := ⟨⟨1, 6, 10, 64, 1⟩, ⟨1, 7, 11, 64, 0⟩, ⟨2, 4, 12, 64, 0⟩⟩

theorem barrierRun_staggered : BarrierRun [1, 2] staggeredRun :=
  ⟨by decide, by decide, by decide, by decide⟩

theorem predictor_staggered :
    predictor [64] ((staggeredLog.map traceOf).foldl storeTrace ∅) = .ok [staggeredCi] := by decide

theorem barrier_pruning_iff_staggered :
    (Restricted (syncsOf staggeredRun) staggeredCi →
        ∀ σ, Reordering [1, 2] staggeredRun σ → ¬ BetweenAccesses σ staggeredCi) ↔
      (Restricted (syncsOf staggeredRun) staggeredCi →
        round staggeredRun (.access staggeredCi.inter) < round staggeredRun (.access staggeredCi.first) ∨
          round staggeredRun (.access staggeredCi.second) < round staggeredRun (.access staggeredCi.inter)) :=
  barrier_pruning_iff barrierRun_staggered (by decide) (loadMemTraces_memFile staggeredLog)
    predictor_staggered staggeredCi (List.mem_singleton_self _)

/-- Thread 1 returns first: the same run with inter between first and second. -/
def staggeredReordered : List BEv :=
  [.arrive 1 1, .arrive 2 2, .ret 1 5, .access ⟨1, 6, 10, 64, 1⟩, .ret 2 3, .access ⟨2, 4, 12, 64, 0⟩,
    .access ⟨1, 7, 11, 64, 0⟩]

/-- The sync check abandons a candidate that a legal reordering of the run executes. -/
theorem abandoned_and_feasible :
    BarrierRun [1, 2] staggeredRun ∧
      loadMemTraces (memFile staggeredLog) = .ok ((staggeredLog.map traceOf).foldl storeTrace ∅) ∧
      predictor [64] ((staggeredLog.map traceOf).foldl storeTrace ∅) = .ok [staggeredCi] ∧
      Restricted (syncsOf staggeredRun) staggeredCi ∧
      Reordering [1, 2] staggeredRun staggeredReordered ∧ BetweenAccesses staggeredReordered staggeredCi := by
  refine ⟨barrierRun_staggered, loadMemTraces_memFile staggeredLog, predictor_staggered,
    Or.inl ⟨by decide, ⟨1, 5, 1⟩, by decide, by decide⟩, ⟨fun t => ?_, by decide⟩, by
      show List.Sublist [_, _, _] staggeredReordered
      decide⟩
  by_cases h1 : 1 = t
  · subst h1
    rfl
  · by_cases h2 : 2 = t
    · subst h2
      rfl
    · simp [staggeredReordered, staggeredRun, BEv.tid, h1, h2]

end Feasible
end AVPredictor
