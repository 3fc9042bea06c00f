import AVPredictor.Controller.System

/-!
# AVPredictor.Controller.LockOrder — the order of the sections in a lock-level replay

The flags of a type 1 candidate are set by unlock calls, in order (`MarksInv`).  Only the holder of
a mutex unlocks it, so the history of a non-recursive mutex is a sequence of complete sections, with
at most one more section under way (`MutexInv`).  Three unlock calls on it, in order, therefore
belong to three sections, each released before the next is acquired (`sections_in_order`), although
the flags change before the release.
-/

namespace AVPredictor
namespace Controller

open Base

/-- The mutex of an event. -/
def LockEv.mutex : LockEv → UInt32
  | .acquire _ m => m
  | .unlock _ m _ => m
  | .release _ m => m

/-- The events of one mutex. -/
def onMutex (hist : List LockEv) (m : UInt32) : List LockEv := hist.filter (·.mutex = m)

/-- Thread, mutex and call site of an unlock call. -/
def LockEv.unlockCall : LockEv → Option (UInt32 × UInt32 × UInt32)
  | .unlock tid m callsiteV => some (tid, m, callsiteV)
  | _ => none

/-- The unlock calls of a history. -/
def unlockCalls (hist : List LockEv) : List (UInt32 × UInt32 × UInt32) := hist.filterMap LockEv.unlockCall

/-- A section of mutex `m`: the thread and the call site through which it leaves. -/
def sectionOf (m : UInt32) (p : UInt32 × UInt32) : List LockEv :=
  [.acquire p.1 m, .unlock p.1 m p.2, .release p.1 m]

/-! ## The history of a non-recursive mutex -/

/-- The state of a mutex against its history: free after complete sections; held in a section; or
about to be released by the one thread that is in an unlock of it. -/
inductive MutexInv (m : UInt32) (s : Sys) : Prop
  | free (secs : List (UInt32 × UInt32)) (ho : s.owner m = none)
      (hh : onMutex s.hist m = secs.flatMap (sectionOf m)) (hpc : ∀ t, s.pc t ≠ .unlock m)
  | held (secs : List (UInt32 × UInt32)) (t : UInt32) (ho : s.owner m = some (t, 1))
      (hh : onMutex s.hist m = secs.flatMap (sectionOf m) ++ [.acquire t m]) (hpc : ∀ t, s.pc t ≠ .unlock m)
  | leaving (secs : List (UInt32 × UInt32)) (t callsiteV : UInt32) (ho : s.owner m = some (t, 1))
      (hh : onMutex s.hist m = secs.flatMap (sectionOf m) ++ [.acquire t m, .unlock t m callsiteV])
      (hpc : ∀ t', s.pc t' = .unlock m ↔ t' = t)

section Mutex

variable {recursive : UInt32 → Bool} {s s' : Sys} {a : Act} {m : UInt32}

theorem mutexInv_start (lines : List Line) : MutexInv m (.start lines) :=
  .free [] rfl rfl fun _ h => nomatch h

theorem onMutex_concat_ne {hist : List LockEv} {ev : LockEv} (h : ev.mutex ≠ m) :
    onMutex (hist ++ [ev]) m = onMutex hist m := by
  simp [onMutex, h]

theorem onMutex_concat_self (hist : List LockEv) (ev : LockEv) :
    onMutex (hist ++ [ev]) ev.mutex = onMutex hist ev.mutex ++ [ev] := by
  simp [onMutex]

/-- A step that leaves the mutex and its events alone, of a thread that is in no unlock of it. -/
theorem MutexInv.frame (h : MutexInv m s) (ho : s'.owner m = s.owner m)
    (hh : onMutex s'.hist m = onMutex s.hist m) {tid : UInt32} {pc : Pc}
    (hpc' : s'.pc = Function.update s.pc tid pc)
    (hold : s.pc tid ≠ .unlock m) (hnew : pc ≠ .unlock m) : MutexInv m s' := by
  have hiff : ∀ t, s'.pc t = .unlock m ↔ s.pc t = .unlock m := by
    intro t
    rw [hpc']
    by_cases ht : t = tid
    · subst ht
      rw [Function.update_self]
      exact iff_of_false hnew hold
    · rw [Function.update_of_ne ht]
  cases h with
  | free secs h1 h2 h3 => exact .free secs (ho.trans h1) (hh.trans h2) fun t ht => h3 t ((hiff t).mp ht)
  | held secs t h1 h2 h3 => exact .held secs t (ho.trans h1) (hh.trans h2) fun t ht => h3 t ((hiff t).mp ht)
  | leaving secs t c h1 h2 h3 =>
    exact .leaving secs t c (ho.trans h1) (hh.trans h2) fun t' => (hiff t').trans (h3 t')

theorem MutexInv.acquire (h : MutexInv m s) {tid : UInt32} {o : UInt32 × ℕ} (hpc : s.pc tid = .lock m)
    (ho : lockOwner false tid (s.owner m) = some o) :
    MutexInv m { s with
      pc := Function.update s.pc tid .idle
      owner := Function.update s.owner m (some o)
      hist := s.hist ++ [.acquire tid m] } := by
  cases h with
  | free secs h1 h2 h3 =>
    rw [h1] at ho
    obtain rfl := Option.some.inj ho
    refine .held secs tid (Function.update_self _ _ _) ?_ ?_
    · exact (onMutex_concat_self s.hist (.acquire tid m)).trans (congrArg (· ++ _) h2)
    · intro t
      by_cases ht : t = tid
      · subst ht
        simp
      · simpa [ht] using h3 t
  | held secs t h1 h2 h3 =>
    rw [h1] at ho
    exact absurd ho (by simp [lockOwner])
  | leaving secs t c h1 h2 h3 =>
    rw [h1] at ho
    exact absurd ho (by simp [lockOwner])

theorem MutexInv.unlockCall (h : MutexInv m s) {tid callsiteV : UInt32} (hpc : s.pc tid = .idle)
    (hm : s.holds tid m) (r : Replay) :
    MutexInv m { s.observe none r with
      pc := Function.update s.pc tid (.unlock m)
      hist := s.hist ++ [.unlock tid m callsiteV] } := by
  cases h with
  | free secs h1 h2 h3 => exact absurd hm (by simp [Sys.holds, h1])
  | held secs t h1 h2 h3 =>
    obtain rfl : t = tid := by simpa [Sys.holds, h1] using hm
    refine .leaving secs t callsiteV h1 ?_ ?_
    · refine (onMutex_concat_self s.hist (.unlock t m callsiteV)).trans ?_
      show onMutex s.hist m ++ _ = _
      rw [h2, List.append_assoc]
      rfl
    · intro t'
      by_cases ht : t' = t
      · subst ht
        simp
      · simpa [ht] using h3 t'
  | leaving secs t c h1 h2 h3 =>
    obtain rfl : t = tid := by simpa [Sys.holds, h1] using hm
    exact absurd (hpc.symm.trans ((h3 t).mpr rfl)) (by simp)

theorem MutexInv.release (h : MutexInv m s) {tid : UInt32} (hpc : s.pc tid = .unlock m) :
    MutexInv m { s with
      pc := Function.update s.pc tid .idle
      owner := Function.update s.owner m (unlockOwner (s.owner m))
      hist := s.hist ++ [.release tid m] } := by
  cases h with
  | free secs h1 h2 h3 => exact absurd hpc (h3 tid)
  | held secs t h1 h2 h3 => exact absurd hpc (h3 tid)
  | leaving secs t c h1 h2 h3 =>
    obtain rfl := (h3 tid).mp hpc
    refine .free (secs ++ [(tid, c)]) ?_ ?_ ?_
    · show Function.update s.owner m (unlockOwner (s.owner m)) m = none
      rw [Function.update_self, h1]
      rfl
    · refine (onMutex_concat_self s.hist (.release tid m)).trans ?_
      show onMutex s.hist m ++ _ = _
      rw [h2]
      simp [sectionOf]
    · intro t
      by_cases ht : t = tid
      · subst ht
        simp
      · simpa [ht] using fun h => ht ((h3 t).mp h)

/-- **The mutex and its history** stay in step. -/
theorem MutexInv.step (h : MutexInv m s) (hrec : recursive m = false)
    (hstep : step recursive s a = some s') : MutexInv m s' := by
  cases stepped_of_step hstep with
  | fetch hpc => exact h.frame rfl rfl rfl (by simp [hpc]) (by simp)
  | callback hpc hcall => exact h.frame rfl rfl rfl (by simp [hpc]) (by simp)
  | access hpc hd => exact h.frame rfl rfl rfl (by simp [hpc]) (by simp)
  | lockCall hpc hcall => exact h.frame rfl rfl rfl (by simp [hpc]) (by simp)
  | @acquire tid m' o hpc hd ho =>
    by_cases hm : m' = m
    · subst hm
      rw [hrec] at ho
      exact h.acquire hpc ho
    · exact h.frame (Function.update_of_ne (Ne.symm hm) _ _) (onMutex_concat_ne hm) rfl (by simp [hpc])
        (by simp)
  | @unlockCall tid m' callsiteV r hpc hheld hcall =>
    by_cases hm : m' = m
    · subst hm
      exact h.unlockCall hpc hheld r
    · exact h.frame rfl (onMutex_concat_ne hm) rfl (by simp [hpc]) (by simpa using hm)
  | @release tid m' hpc =>
    by_cases hm : m' = m
    · subst hm
      exact h.release hpc
    · exact h.frame (Function.update_of_ne (Ne.symm hm) _ _) (onMutex_concat_ne hm) rfl
        (by simpa [hpc] using hm) (by simp)
  | @wake tid r hwake =>
    cases h with
    | free secs h1 h2 h3 => exact .free secs h1 h2 h3
    | held secs t h1 h2 h3 => exact .held secs t h1 h2 h3
    | leaving secs t c h1 h2 h3 => exact .leaving secs t c h1 h2 h3

end Mutex

/-! ## Three unlock calls are three sections -/

section Sections

variable {m : UInt32} {secs : List (UInt32 × UInt32)} {p1 p2 p3 : UInt32 × UInt32}

theorem unlockCalls_append (l l' : List LockEv) : unlockCalls (l ++ l') = unlockCalls l ++ unlockCalls l' :=
  List.filterMap_append

theorem unlockCalls_flatMap (secs : List (UInt32 × UInt32)) :
    unlockCalls (secs.flatMap (sectionOf m)) = secs.map fun p => (p.1, m, p.2) := by
  induction secs with
  | nil => rfl
  | cons p secs ih =>
    rw [List.flatMap_cons, unlockCalls_append, ih]
    rfl

/-- The unlock calls of one mutex are those of its events. -/
theorem filter_unlockCalls (hist : List LockEv) (m : UInt32) :
    (unlockCalls hist).filter (·.2.1 = m) = unlockCalls (onMutex hist m) := by
  rw [unlockCalls, unlockCalls, onMutex, List.filter_filterMap, List.filterMap_filter]
  refine List.filterMap_congr fun ev _ => ?_
  by_cases hev : ev.mutex = m
  · cases ev <;> simp_all [LockEv.unlockCall, LockEv.mutex]
  · cases ev <;> simp_all [LockEv.unlockCall, LockEv.mutex]

/-- Three sections in order, each complete before the next begins, the last one perhaps not left
yet. -/
def InSections (hist : List LockEv) (m : UInt32) (p1 p2 p3 : UInt32 × UInt32) : Prop :=
  ∃ l₀ l₁ l₂ l₃, onMutex hist m = l₀ ++ sectionOf m p1 ++ l₁ ++ sectionOf m p2 ++ l₂ ++
    [.acquire p3.1 m, .unlock p3.1 m p3.2] ++ l₃

theorem split_three {l : List (UInt32 × UInt32)} (h : [p1, p2, p3].Sublist l) :
    ∃ a b c d, l = a ++ p1 :: (b ++ p2 :: (c ++ p3 :: d)) := by
  obtain ⟨r₁, r₂, rfl, h1, hrest⟩ := List.cons_sublist_iff.mp h
  obtain ⟨r₃, r₄, rfl, h2, hlast⟩ := List.cons_sublist_iff.mp hrest
  obtain ⟨a, a', rfl⟩ := List.append_of_mem h1
  obtain ⟨b, b', rfl⟩ := List.append_of_mem h2
  obtain ⟨c, d, rfl⟩ := List.append_of_mem (List.singleton_sublist.mp hlast)
  exact ⟨a, a' ++ b, b' ++ c, d, by simp⟩

theorem MutexInv.inSections {s : Sys} (h : MutexInv m s)
    (hcalls : [(p1.1, m, p1.2), (p2.1, m, p2.2), (p3.1, m, p3.2)].Sublist (unlockCalls s.hist)) :
    InSections s.hist m p1 p2 p3 := by
  have hm := hcalls.filter (·.2.1 = m)
  rw [filter_unlockCalls] at hm
  have hfil : [(p1.1, m, p1.2), (p2.1, m, p2.2), (p3.1, m, p3.2)].filter (·.2.1 = m) =
      [p1, p2, p3].map fun p => (p.1, m, p.2) := by simp
  rw [hfil] at hm
  have hinj : ∀ {secs : List (UInt32 × UInt32)},
      ([p1, p2, p3].map fun p => (p.1, m, p.2)).Sublist (secs.map fun p => (p.1, m, p.2)) →
      [p1, p2, p3].Sublist secs := by
    intro secs hsub
    obtain ⟨l, hl, heq⟩ := List.sublist_map_iff.mp hsub
    have hf : Function.Injective fun p : UInt32 × UInt32 => (p.1, m, p.2) := by
      intro p q hpq
      simpa [Prod.ext_iff] using hpq
    rwa [List.map_injective_iff.mpr hf heq]
  -- all three sections are complete, or the last one is under way
  have hdone : ∀ {secs : List (UInt32 × UInt32)} {tail : List LockEv},
      onMutex s.hist m = secs.flatMap (sectionOf m) ++ tail → [p1, p2, p3].Sublist secs →
      InSections s.hist m p1 p2 p3 := by
    intro secs tail hh hsub
    obtain ⟨a, b, c, d, rfl⟩ := split_three hsub
    refine ⟨a.flatMap (sectionOf m), b.flatMap (sectionOf m), c.flatMap (sectionOf m),
      .release p3.1 m :: (d.flatMap (sectionOf m) ++ tail), ?_⟩
    rw [hh]
    simp [sectionOf]
  cases h with
  | free secs h1 h2 h3 =>
    rw [h2, unlockCalls_flatMap] at hm
    exact hdone (h2.trans (List.append_nil _).symm) (hinj hm)
  | held secs t h1 h2 h3 =>
    have hnil : unlockCalls [.acquire t m] = [] := rfl
    rw [h2, unlockCalls_append, unlockCalls_flatMap, hnil, List.append_nil] at hm
    exact hdone h2 (hinj hm)
  | leaving secs t c h1 h2 h3 =>
    have hone : unlockCalls [.acquire t m, .unlock t m c] = [(t, c)].map fun p => (p.1, m, p.2) := rfl
    rw [h2, unlockCalls_append, unlockCalls_flatMap, hone, ← List.map_append] at hm
    have hsub : [p1, p2, p3].Sublist (secs ++ [(t, c)]) := hinj hm
    obtain ⟨x, y, z, w, heq⟩ := split_three hsub
    rcases List.eq_nil_or_concat w with rfl | ⟨w', q, rfl⟩
    · have heq' : secs ++ [(t, c)] = (x ++ p1 :: (y ++ p2 :: z)) ++ [p3] := by
        rw [heq]
        simp
      obtain ⟨rfl, htc⟩ := List.append_inj' heq' rfl
      obtain rfl := List.singleton_inj.mp htc
      refine ⟨x.flatMap (sectionOf m), y.flatMap (sectionOf m), z.flatMap (sectionOf m), [], ?_⟩
      rw [h2]
      simp [sectionOf]
    · have heq' : secs ++ [(t, c)] = (x ++ p1 :: (y ++ p2 :: (z ++ p3 :: w'))) ++ [q] := by
        rw [heq]
        simp
      obtain ⟨rfl, -⟩ := List.append_inj' heq' rfl
      refine hdone h2 ?_
      have hp3 : [p3].Sublist (z ++ p3 :: w') := List.singleton_sublist.mpr (by simp)
      have hp2 : [p2, p3].Sublist (y ++ p2 :: (z ++ p3 :: w')) :=
        (hp3.cons_cons p2).trans (List.sublist_append_right y _)
      exact (hp2.cons_cons p1).trans (List.sublist_append_right x _)

end Sections

/-! ## The flags and the unlock calls -/

/-- The unlock call by which a role of a type 1 candidate is left, of some mutex `m`. -/
def Role.exit (r : Role) (m : UInt32) : UInt32 × UInt32 × UInt32 := (r.tid, m, r.unlock)

/-- The flags of a type 1 candidate against the unlock calls made so far. -/
structure MarksInv (s : Sys) : Prop where
  first : s.replay.ctl.isLockedType = true → s.replay.ctl.firstReady = true →
    ∃ m, [s.replay.ctl.first.exit m].Sublist (unlockCalls s.hist)
  inter : s.replay.ctl.isLockedType = true → s.replay.ctl.interReady = true →
    ∃ m m', [s.replay.ctl.first.exit m, s.replay.ctl.inter.exit m'].Sublist (unlockCalls s.hist)
  second : s.replay.ctl.isLockedType = true → s.replay.ctl.secondReady = true →
    ∃ m m' m'', [s.replay.ctl.first.exit m, s.replay.ctl.inter.exit m',
      s.replay.ctl.second.exit m''].Sublist (unlockCalls s.hist)

section Marks

variable {recursive : UInt32 → Bool} {s s' : Sys} {a : Act}

theorem marksInv_of_flags (h : s.replay.ctl.flags = (false, false, false)) : MarksInv s := by
  simp only [Ctl.flags, Prod.mk.injEq] at h
  exact ⟨fun _ hf => absurd (h.1.symm.trans hf) (by simp), fun _ hf => absurd (h.2.1.symm.trans hf) (by simp),
    fun _ hf => absurd (h.2.2.symm.trans hf) (by simp)⟩

theorem marksInv_start (lines : List Line) : MarksInv (.start lines) := marksInv_of_flags flags_loadNextCi

/-- More unlock calls, with the controller as it was but for its time-out counter. -/
theorem MarksInv.mono (h : MarksInv s) {n : ℕ}
    (hctl : s'.replay.ctl = { s.replay.ctl with countTimeout := n })
    (hsub : (unlockCalls s.hist).Sublist (unlockCalls s'.hist)) : MarksInv s' := by
  refine ⟨?_, ?_, ?_⟩
  · intro hl hf
    rw [hctl] at hl hf ⊢
    obtain ⟨m, hm⟩ := h.first hl hf
    exact ⟨m, hm.trans hsub⟩
  · intro hl hf
    rw [hctl] at hl hf ⊢
    obtain ⟨m, m', hm⟩ := h.inter hl hf
    exact ⟨m, m', hm.trans hsub⟩
  · intro hl hf
    rw [hctl] at hl hf ⊢
    obtain ⟨m, m', m'', hm⟩ := h.second hl hf
    exact ⟨m, m', m'', hm.trans hsub⟩

/-- A callback and the unlock calls that it adds: a mark of a type 1 candidate is an unlock call. -/
theorem MarksInv.effect (h : MarksInv s) {tid : UInt32} {k : Call}
    (calls : List (UInt32 × UInt32 × UInt32)) (heff : Effect s.replay.ctl tid k s'.replay.ctl)
    (hcalls : unlockCalls s'.hist = unlockCalls s.hist ++ calls)
    (hunlock : ∀ callsiteV, k = .unlock callsiteV → ∃ m, calls = [(tid, m, callsiteV)]) :
    MarksInv s' := by
  have hsub : (unlockCalls s.hist).Sublist (unlockCalls s'.hist) := by
    rw [hcalls]
    exact List.sublist_append_left _ _
  have hmark : ∀ {role : Role}, s.replay.ctl.isLockedType = true → s.replay.ctl.Marks role tid k →
      ∃ m, unlockCalls s'.hist = unlockCalls s.hist ++ [role.exit m] := by
    intro role hl hm
    cases k with
    | mem ip addr => exact absurd (hl.symm.trans hm.1) (by simp)
    | lock callsiteV => exact hm.elim
    | unlock callsiteV =>
      obtain ⟨-, rfl, rfl⟩ := hm
      obtain ⟨m, rfl⟩ := hunlock _ rfl
      exact ⟨m, hcalls⟩
  generalize hc : s'.replay.ctl = c' at heff
  cases heff with
  | quiet n => exact h.mono hc hsub
  | first hflags hm =>
    simp only [Ctl.flags, Prod.mk.injEq] at hflags
    refine ⟨?_, ?_, ?_⟩
    · intro hl _
      rw [hc] at hl ⊢
      obtain ⟨m, hcall⟩ := hmark hl hm
      refine ⟨m, ?_⟩
      rw [hcall]
      exact List.sublist_append_right _ _
    · intro _ hf
      rw [hc] at hf
      exact absurd (hflags.2.1.symm.trans hf) (by simp)
    · intro _ hf
      rw [hc] at hf
      exact absurd (hflags.2.2.symm.trans hf) (by simp)
  | inter n hflags hm =>
    simp only [Ctl.flags, Prod.mk.injEq] at hflags
    refine ⟨?_, ?_, ?_⟩
    · intro hl _
      rw [hc] at hl ⊢
      obtain ⟨m, h1⟩ := h.first hl hflags.1
      exact ⟨m, h1.trans hsub⟩
    · intro hl _
      rw [hc] at hl ⊢
      obtain ⟨m, h1⟩ := h.first hl hflags.1
      obtain ⟨m', hcall⟩ := hmark hl hm
      refine ⟨m, m', ?_⟩
      rw [hcall]
      exact h1.append_right [_]
    · intro _ hf
      rw [hc] at hf
      exact absurd (hflags.2.2.symm.trans hf) (by simp)
  | second n hflags hm =>
    simp only [Ctl.flags, Prod.mk.injEq] at hflags
    refine ⟨?_, ?_, ?_⟩
    · intro hl _
      rw [hc] at hl ⊢
      obtain ⟨m, h1⟩ := h.first hl hflags.1
      exact ⟨m, h1.trans hsub⟩
    · intro hl _
      rw [hc] at hl ⊢
      obtain ⟨m, m', h1⟩ := h.inter hl hflags.2.1
      exact ⟨m, m', h1.trans hsub⟩
    · intro hl _
      rw [hc] at hl ⊢
      obtain ⟨m, m', h1⟩ := h.inter hl hflags.2.1
      obtain ⟨m'', hcall⟩ := hmark hl hm
      refine ⟨m, m', m'', ?_⟩
      rw [hcall]
      exact h1.append_right [_]
  | load _ =>
    refine marksInv_of_flags ?_
    rw [hc]
    exact flags_loadNextCi

theorem MarksInv.step (h : MarksInv s) (hs : SysInv s) (hstep : step recursive s a = some s') :
    MarksInv s' := by
  cases stepped_of_step hstep with
  | fetch hpc => exact h.mono rfl (List.Sublist.refl _)
  | @callback tid addr e todo r hpc hcall =>
    obtain ⟨-, -, rfl⟩ := replay_call hcall
    exact h.effect [] call_spec.effect (List.append_nil _).symm (fun _ hk => nomatch hk)
  | access hpc hd => exact h.mono rfl (List.Sublist.refl _)
  | @lockCall tid m callsiteV r hpc hcall =>
    obtain ⟨-, -, rfl⟩ := replay_call hcall
    exact h.effect [] call_spec.effect (List.append_nil _).symm (fun _ hk => nomatch hk)
  | @acquire tid m o hpc hd ho =>
    refine h.mono rfl ?_
    show (unlockCalls s.hist).Sublist (unlockCalls (s.hist ++ [_]))
    rw [unlockCalls_append]
    exact List.sublist_append_left _ _
  | @unlockCall tid m callsiteV r hpc hm hcall =>
    obtain ⟨-, -, rfl⟩ := replay_call hcall
    refine h.effect [(tid, m, callsiteV)] call_spec.effect ?_ ?_
    · show unlockCalls (s.hist ++ [_]) = _
      rw [unlockCalls_append]
      rfl
    · intro cs hk
      obtain rfl := Call.unlock.inj hk
      exact ⟨m, rfl⟩
  | @release tid m hpc =>
    refine h.mono rfl ?_
    show (unlockCalls s.hist).Sublist (unlockCalls (s.hist ++ [_]))
    rw [unlockCalls_append]
    exact List.sublist_append_left _ _
  | @wake tid r hwake =>
    obtain ⟨d, -, hd, rfl⟩ := replay_wake hwake
    refine h.effect [] (wake_spec (hs.replay.waits tid d hd)).effect (List.append_nil _).symm ?_
    intro callsiteV hk
    cases d <;> exact nomatch hk

end Marks

/-- **Lock-level replay enforces the order of the sections**: whenever `second_ready` is true for a
type 1 candidate whose three unlock calls are all of one non-recursive mutex, the history of the
mutex has a section by `first_tid` left through `first_unlock`, later one by `inter_tid` left
through `inter_unlock`, and later one by `second_tid` left through `second_unlock`, each released
before the next was acquired. -/
theorem sections_in_order {recursive : UInt32 → Bool} {lines : List Line} {acts : List Act} {s : Sys}
    (hrun : run (step recursive) (.start lines) acts = some s) {m : UInt32} (hrec : recursive m = false)
    (hlocked : s.replay.ctl.isLockedType = true)
    (hmutex : ∀ tid m' callsiteV, LockEv.unlock tid m' callsiteV ∈ s.hist →
      (tid, callsiteV) ∈ [s.replay.ctl.first, s.replay.ctl.inter, s.replay.ctl.second].map
        (fun r => (r.tid, r.unlock)) → m' = m)
    (hsecond : s.replay.ctl.secondReady = true) :
    InSections s.hist m (s.replay.ctl.first.tid, s.replay.ctl.first.unlock)
      (s.replay.ctl.inter.tid, s.replay.ctl.inter.unlock)
      (s.replay.ctl.second.tid, s.replay.ctl.second.unlock) := by
  obtain ⟨-, hmarks, hmut⟩ : SysInv s ∧ MarksInv s ∧ MutexInv m s :=
    run_invariant (P := fun s => SysInv s ∧ MarksInv s ∧ MutexInv m s)
      (fun s a s' h hstep => ⟨h.1.step hstep, h.2.1.step h.1 hstep, h.2.2.step hrec hstep⟩)
      ⟨sysInv_start lines, marksInv_start lines, mutexInv_start lines⟩ hrun
  obtain ⟨m1, m2, m3, hcalls⟩ := hmarks.second hlocked hsecond
  have hm : ∀ r m', r ∈ [s.replay.ctl.first, s.replay.ctl.inter, s.replay.ctl.second] →
      Role.exit r m' ∈ unlockCalls s.hist → m' = m := by
    intro r m' hr hmem
    obtain ⟨ev, hev, hcall⟩ := List.mem_filterMap.mp hmem
    cases ev with
    | acquire t x => exact nomatch hcall
    | release t x => exact nomatch hcall
    | unlock t x c =>
      obtain ⟨rfl, rfl, rfl⟩ : t = r.tid ∧ x = m' ∧ c = r.unlock := by
        simpa [LockEv.unlockCall, Role.exit] using hcall
      exact hmutex _ _ _ hev (List.mem_map.mpr ⟨r, hr, rfl⟩)
  obtain rfl := hm s.replay.ctl.first m1 (by simp) (hcalls.subset (by simp))
  obtain rfl := hm s.replay.ctl.inter m2 (by simp) (hcalls.subset (by simp))
  obtain rfl := hm s.replay.ctl.second m3 (by simp) (hcalls.subset (by simp))
  exact hmut.inSections hcalls

/-- Two sections of mutex 96 by thread 1 and one by thread 2. -/
def sectionsLine : Line :=
  { type := 1
    firstId := 1, firstArg1 := 20, firstArg2 := 21
    secondId := 1, secondArg1 := 22, secondArg2 := 23
    interId := 2, interArg1 := 24, interArg2 := 25 }

/-- Thread 2 comes first and is delayed until thread 1 leaves its first section. -/
def sectionsActs : List Act :=
  [.lockCall 2 96 24, .lockCall 1 96 20, .acquire 1, .unlockCall 1 96 21, .wake 2, .release 1, .acquire 2,
    .lockCall 1 96 22, .unlockCall 2 96 25, .release 2, .wake 1, .acquire 1, .unlockCall 1 96 23]

theorem sections_isSome : (run (step fun _ => false) (.start [sectionsLine]) sectionsActs).isSome = true := by
  decide

theorem sections_in_order_sectionsActs :
    InSections ((run (step fun _ => false) (.start [sectionsLine]) sectionsActs).get sections_isSome).hist 96
      (1, 21) (2, 25) (1, 23) := by
  have hhist : ((run (step fun _ => false) (.start [sectionsLine]) sectionsActs).get sections_isSome).hist =
      [.acquire 1 96, .unlock 1 96 21, .release 1 96, .acquire 2 96, .unlock 2 96 25, .release 2 96,
        .acquire 1 96, .unlock 1 96 23] := by decide
  refine sections_in_order (Option.some_get sections_isSome).symm rfl (by decide) ?_ (by decide)
  intro tid m' callsiteV hev _
  rw [hhist] at hev
  have hall : ∀ ev ∈ [LockEv.acquire 1 96, .unlock 1 96 21, .release 1 96, .acquire 2 96, .unlock 2 96 25,
      .release 2 96, .acquire 1 96, .unlock 1 96 23], ev.mutex = 96 := by decide
  exact hall _ hev

end Controller
end AVPredictor
