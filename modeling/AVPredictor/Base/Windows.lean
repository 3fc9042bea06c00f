import Mathlib.Algebra.GroupWithZero.Nat
import AVPredictor.Base.Reorder

/-!
# AVPredictor.Base.Windows — rescheduling a run inside disjoint windows of time

A window has a thread and cuts this thread's events in two.  In the rescheduled run the events in the
window come in three parts: those of the thread up to the cut, those of all other threads, the rest
of the thread's.  `windowKey` is the sort key that does this for several windows, one after another,
at once; no thread's order changes, since the key does not decrease with the time
(`Window.phase_mono`).

`exists_windows`: events given for each window, in an order that fits its three parts
(`InOrder`), come in this order in one rescheduled run.
-/

namespace AVPredictor
namespace Base

open List

/-- An interval of times, a thread, and a time that divides its events in the interval. -/
structure Window (τ : Type) where
  thread : τ
  start : ℕ
  cut : ℕ
  finish : ℕ

section Key

variable {τ : Type} [DecidableEq τ] {w : Window τ} {ws : List (Window τ)} {t : τ} {n n' i : ℕ}

/-- Where an event of thread `t` at time `n` comes: before the window, in one of its three parts, or
after it. -/
def Window.phase (w : Window τ) (t : τ) (n : ℕ) : ℕ :=
  if w.finish < n then 4
  else if n < w.start then 0
  else if t ≠ w.thread then 2
  else if n ≤ w.cut then 1 else 3

/-- `v` is over before `w` begins. -/
def Window.Before (v w : Window τ) : Prop := v.finish < w.start

def windowKey (ws : List (Window τ)) (t : τ) (n : ℕ) : ℕ := (ws.map fun w => w.phase t n).sum

theorem Window.phase_mono (w : Window τ) (t : τ) (h : n ≤ n') : w.phase t n ≤ w.phase t n' := by
  unfold Window.phase
  split_ifs <;> omega

theorem windowKey_cons (w : Window τ) (ws : List (Window τ)) (t : τ) (n : ℕ) :
    windowKey (w :: ws) t n = w.phase t n + windowKey ws t n := by
  rw [windowKey, map_cons, sum_cons, windowKey]

theorem windowKey_mono (ws : List (Window τ)) (t : τ) (h : n ≤ n') : windowKey ws t n ≤ windowKey ws t n' := by
  induction ws with
  | nil => exact le_rfl
  | cons w ws ih =>
    have hw := w.phase_mono t h
    rw [windowKey_cons, windowKey_cons]
    omega

/-- The three parts. -/
theorem Window.phase_in (hs : w.start ≤ n) (hf : n ≤ w.finish) :
    w.phase t n = if t ≠ w.thread then 2 else if n ≤ w.cut then 1 else 3 := by
  rw [Window.phase, if_neg (by omega), if_neg (by omega)]

theorem Window.phase_bounds (hs : w.start ≤ n) (hf : n ≤ w.finish) : 1 ≤ w.phase t n ∧ w.phase t n ≤ 3 := by
  rw [Window.phase_in hs hf]
  split_ifs <;> omega

theorem Window.phase_after (h : w.finish < n) : w.phase t n = 4 := if_pos h

theorem windowKey_eq_zero (h : ∀ w ∈ ws, n < w.start ∧ n ≤ w.finish) : windowKey ws t n = 0 := by
  induction ws with
  | nil => rfl
  | cons w ws ih =>
    obtain ⟨⟨hs, hf⟩, hws⟩ := forall_mem_cons.mp h
    rw [windowKey_cons, ih hws, Window.phase, if_neg (by omega), if_pos hs]

/-- In the `i`-th window the earlier ones are over and the later ones have not begun. -/
theorem windowKey_getElem (hws : ws.Pairwise Window.Before) (hwf : ∀ w ∈ ws, w.start ≤ w.finish)
    (hi : ws[i]? = some w) (hs : w.start ≤ n) (hf : n ≤ w.finish) : windowKey ws t n = 4 * i + w.phase t n := by
  induction ws generalizing i with
  | nil => simp at hi
  | cons v ws ih =>
    obtain ⟨hv, hws⟩ := pairwise_cons.mp hws
    obtain ⟨hvf, hwf⟩ := forall_mem_cons.mp hwf
    rw [windowKey_cons]
    cases i with
    | zero =>
      obtain rfl : v = w := by simpa using hi
      rw [windowKey_eq_zero]
      · omega
      · intro u hu
        have hbefore : v.finish < u.start := hv u hu
        have hle := hwf u hu
        omega
    | succ i =>
      rw [getElem?_cons_succ] at hi
      have hbefore : v.finish < w.start := hv w (mem_of_getElem? hi)
      rw [ih hws hwf hi, Window.phase_after (by omega)]
      omega

end Key

/-! ## Events in windows -/

section Blocks

variable {ε τ : Type} [DecidableEq τ] {thread : ε → τ} {time : ε → ℕ} {ρ : List ε}

/-- Two events in an order that the windows, or their thread, keep. -/
def Follows (ws : List (Window τ)) (thread : ε → τ) (time : ε → ℕ) (a b : ε) : Prop :=
  windowKey ws (thread a) (time a) < windowKey ws (thread b) (time b) ∨
    (thread a = thread b ∧ time a < time b)

/-- Events of the window, in the order of its parts, each thread's in the order of their times. -/
structure InOrder (thread : ε → τ) (time : ε → ℕ) (w : Window τ) (es : List ε) : Prop where
  bounds : ∀ e ∈ es, w.start ≤ time e ∧ time e ≤ w.finish
  order : es.Pairwise fun a b => w.phase (thread a) (time a) < w.phase (thread b) (time b) ∨
    (thread a = thread b ∧ time a < time b)

/-- The events of three parts, each in the order of its times, are in order. -/
theorem inOrder_parts {w : Window τ} {es₁ es₂ es₃ : List ε} {t : τ} (ht : t ≠ w.thread)
    (hbounds : ∀ e ∈ es₁ ++ (es₂ ++ es₃), w.start ≤ time e ∧ time e ≤ w.finish)
    (h₁ : ∀ e ∈ es₁, thread e = w.thread ∧ time e ≤ w.cut) (h₂ : ∀ e ∈ es₂, thread e = t)
    (h₃ : ∀ e ∈ es₃, thread e = w.thread ∧ w.cut < time e)
    (hs₁ : es₁.Pairwise (time · < time ·)) (hs₂ : es₂.Pairwise (time · < time ·))
    (hs₃ : es₃.Pairwise (time · < time ·)) : InOrder thread time w (es₁ ++ (es₂ ++ es₃)) := by
  obtain ⟨hb₁, hb⟩ := forall_mem_append.mp hbounds
  obtain ⟨hb₂, hb₃⟩ := forall_mem_append.mp hb
  have hp₁ : ∀ e ∈ es₁, w.phase (thread e) (time e) = 1 := fun e he => by
    rw [Window.phase_in (hb₁ e he).1 (hb₁ e he).2, if_neg (not_not_intro (h₁ e he).1), if_pos (h₁ e he).2]
  have hp₂ : ∀ e ∈ es₂, w.phase (thread e) (time e) = 2 := fun e he => by
    rw [Window.phase_in (hb₂ e he).1 (hb₂ e he).2, if_pos (by rw [h₂ e he]; exact ht)]
  have hp₃ : ∀ e ∈ es₃, w.phase (thread e) (time e) = 3 := fun e he => by
    rw [Window.phase_in (hb₃ e he).1 (hb₃ e he).2, if_neg (not_not_intro (h₃ e he).1),
      if_neg (Nat.not_le.mpr (h₃ e he).2)]
  refine ⟨hbounds, pairwise_append.mpr ⟨?_, pairwise_append.mpr ⟨?_, ?_, ?_⟩, ?_⟩⟩
  · exact hs₁.imp_of_mem fun ha hb hab => Or.inr ⟨(h₁ _ ha).1.trans (h₁ _ hb).1.symm, hab⟩
  · exact hs₂.imp_of_mem fun ha hb hab => Or.inr ⟨(h₂ _ ha).trans (h₂ _ hb).symm, hab⟩
  · exact hs₃.imp_of_mem fun ha hb hab => Or.inr ⟨(h₃ _ ha).1.trans (h₃ _ hb).1.symm, hab⟩
  · intro a ha b hb
    refine Or.inl ?_
    rw [hp₂ a ha, hp₃ b hb]
    omega
  · intro a ha b hb
    refine Or.inl ?_
    rw [hp₁ a ha]
    rcases mem_append.mp hb with hb | hb
    · rw [hp₂ b hb]
      omega
    · rw [hp₃ b hb]
      omega

/-- Events in the order of their windows. -/
theorem follows_of_blocks {blocks : List (Window τ × List ε)} (hws : (blocks.map Prod.fst).Pairwise Window.Before)
    (hwf : ∀ w ∈ blocks.map Prod.fst, w.start ≤ w.finish) (hin : ∀ b ∈ blocks, InOrder thread time b.1 b.2) :
    (blocks.flatMap Prod.snd).Pairwise (Follows (blocks.map Prod.fst) thread time) := by
  have hkey : ∀ (i : ℕ) (b : Window τ × List ε), blocks[i]? = some b → ∀ e ∈ b.2,
      windowKey (blocks.map Prod.fst) (thread e) (time e) = 4 * i + b.1.phase (thread e) (time e) := by
    intro i b hi e he
    obtain ⟨hs, hf⟩ := (hin b (mem_of_getElem? hi)).bounds e he
    exact windowKey_getElem hws hwf (by rw [getElem?_map, hi]; rfl) hs hf
  refine pairwise_flatMap.mpr ⟨?_, pairwise_iff_getElem.mpr ?_⟩
  · intro b hb
    obtain ⟨i, hi⟩ := mem_iff_getElem?.mp hb
    refine (hin b hb).order.imp_of_mem ?_
    rintro x y hx hy (hlt | hsame)
    · refine Or.inl ?_
      rw [hkey i b hi x hx, hkey i b hi y hy]
      omega
    · exact Or.inr hsame
  · intro i j hi hj hij x hx y hy
    obtain ⟨hxs, hxf⟩ := (hin _ (getElem_mem hi)).bounds x hx
    obtain ⟨hys, hyf⟩ := (hin _ (getElem_mem hj)).bounds y hy
    have h1 := (Window.phase_bounds (t := thread x) hxs hxf).2
    have h2 := (Window.phase_bounds (t := thread y) hys hyf).1
    refine Or.inl ?_
    rw [hkey i _ (getElem?_eq_getElem hi) x hx, hkey j _ (getElem?_eq_getElem hj) y hy]
    omega

/-- Events that a relation puts in order, which the run never contradicts, come in this order. -/
theorem sublist_of_rel {r s : ε → ε → Prop} {l σ : List ε} (hσ : σ.Pairwise r) (hl : l.Pairwise s)
    (hs : ∀ a b, s a b → a ≠ b ∧ ¬ r b a) (hmem : ∀ a ∈ l, a ∈ σ) : l <+ σ := by
  induction l generalizing σ with
  | nil => exact nil_sublist σ
  | cons a l ih =>
    obtain ⟨hal, hl⟩ := pairwise_cons.mp hl
    obtain ⟨l₁, l₂, rfl⟩ := append_of_mem (hmem a mem_cons_self)
    have hsplit := pairwise_append.mp hσ
    refine ((ih (pairwise_cons.mp hsplit.2.1).2 hl fun b hb => ?_).cons_cons a).trans
      (sublist_append_right l₁ _)
    obtain ⟨hne, hnot⟩ := hs a b (hal b hb)
    rcases mem_append.mp (hmem b (mem_cons_of_mem a hb)) with hb' | hb'
    · exact absurd (hsplit.2.2 b hb' a mem_cons_self) hnot
    · rcases mem_cons.mp hb' with rfl | hb'
      · exact absurd rfl hne
      · exact hb'

/-- **Windows one after another can be rescheduled together.** -/
theorem exists_windows (hρ : TimeOrdered thread time ρ) {blocks : List (Window τ × List ε)}
    (hws : (blocks.map Prod.fst).Pairwise Window.Before) (hwf : ∀ w ∈ blocks.map Prod.fst, w.start ≤ w.finish)
    (hin : ∀ b ∈ blocks, InOrder thread time b.1 b.2) (hmem : ∀ b ∈ blocks, ∀ e ∈ b.2, e ∈ ρ) :
    ∃ σ, KeepsOrder thread ρ σ ∧ blocks.flatMap Prod.snd <+ σ := by
  set ws := blocks.map Prod.fst with hwsdef
  set key : ε → ℕ := fun e => windowKey ws (thread e) (time e) with hkey
  have hmono : ρ.Pairwise fun a b => thread a = thread b → key a ≤ key b := by
    refine hρ.imp fun {a b} hab hthread => ?_
    have hle := windowKey_mono ws (thread b) (hab hthread).le
    simp only [hkey, hthread]
    exact hle
  have hkeeps := keepsOrder_sortByKey hmono
  refine ⟨sortByKey key ρ, hkeeps, ?_⟩
  refine sublist_of_rel ((sortByKey_sorted key ρ).and (hkeeps.timeOrdered hρ)) (follows_of_blocks hws hwf hin) ?_ ?_
  · rintro a b (hlt | ⟨hthread, hlt⟩)
    · exact ⟨fun heq => by rw [heq] at hlt; omega, fun hba => absurd hba.1 (Nat.not_le.mpr hlt)⟩
    · refine ⟨fun heq => by rw [heq] at hlt; omega, fun hba => ?_⟩
      have hgt := hba.2 hthread.symm
      omega
  · intro e he
    obtain ⟨b, hb, heb⟩ := mem_flatMap.mp he
    exact hkeeps.mem_iff.mpr (hmem b hb e heb)

end Blocks

/-- Events sorted by their times, where no thread has two at one time. -/
theorem timeOrdered_sortByKey {ε τ : Type} {thread : ε → τ} {time : ε → ℕ} {ρ : List ε}
    (h : ρ.Pairwise fun a b => thread a = thread b → time a ≠ time b) :
    TimeOrdered thread time (sortByKey time ρ) := by
  have hne : (sortByKey time ρ).Pairwise fun a b => thread a = thread b → time a ≠ time b :=
    ((mergeSort_perm ρ _).pairwise_iff fun hab hthread heq => hab hthread.symm heq.symm).mpr h
  refine ((sortByKey_sorted time ρ).and hne).imp ?_
  rintro a b ⟨hle, hab⟩ hthread
  have hneq := hab hthread
  omega

end Base
end AVPredictor
