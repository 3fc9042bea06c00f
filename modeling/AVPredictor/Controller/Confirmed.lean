import AVPredictor.Controller.Delays
import AVPredictor.Controller.Driver
import AVPredictor.Controller.LockOrder

/-!
# AVPredictor.Controller.Confirmed — controlled runs of the groups that an analysis has written

`reports_in_order`: in every controlled run the reported candidates are those of the lines, in the order
of the file; when the last line has been reported, it may be reported again.  `reported_inSections`: a
report at the level of sections means that its sections have been left in order.  `SecondInv`: Second of a
report is an execution that has taken effect or is under way.  Put together with what the analyser writes:
the k-th report is the violation of the k-th line, and the executions that set its flags have repeated its
accesses, or its sections have been left again, in the order First, Inter, Second (`reported_predicted`);
the delays of such a run make no cycle (`group_awaits_one`).
-/

namespace AVPredictor
namespace Controller

open Base Offline

/-! ## Reports in the order of the file -/

/-- The candidate of a report. -/
def Report.ci (r : Report) : Ci :=
  ⟨r.isLockedType, r.first.args r.isLockedType, r.second.args r.isLockedType, r.inter.args r.isLockedType⟩

/-- The line that candidate `m` comes from: the last line that is loaded stays current. -/
def lineAt (lines : List Line) (m : ℕ) : Line := lines.getD (min m (min lines.length (maxSize - 1) - 1)) .zero

/-- The registers and the reports against the lines. -/
structure FileInv (lines : List Line) (s : Sys) : Prop where
  cells : s.replay.ctl.cells = fun i => lines.getD i .zero
  ciCount : s.replay.ctl.ciCount = lines.length
  turn : ∃ m, s.reported.length = m + s.replay.ctl.secondReady.toNat ∧
    s.replay.ctl.curCi = min (m + 1) (min lines.length (maxSize - 1)) ∧ s.replay.ctl.ci = (lineAt lines m).ci
  reported : ∀ (k : ℕ) r, s.reported[k]? = some r → r.ci = (lineAt lines k).ci

section InOrder

variable {recursive : UInt32 → Bool} {lines : List Line} {s s' : Sys} {a : Act} {acts : List Act}

/-- The candidate after the call number `m + 1` of `load_next_ci`. -/
theorem ci_loadNextCi {c : Ctl} {m : ℕ} (hcells : c.cells = fun i => lines.getD i .zero)
    (hcount : c.ciCount = lines.length) (hcur : c.curCi = min (m + 1) (min lines.length (maxSize - 1)))
    (hci : c.ci = (lineAt lines m).ci) : c.loadNextCi.1.ci = (lineAt lines (m + 1)).ci := by
  have hsize : maxSize = 32 := rfl
  by_cases hm : m + 1 < min lines.length (maxSize - 1)
  · have hcurm : c.curCi = m + 1 := by omega
    obtain ⟨-, hnext, -⟩ := loadNextCi_next (c := c) (by omega) (by omega)
    rw [hnext, hcells, hcurm, lineAt, Nat.min_eq_left (by omega)]
  · rw [loadNextCi_none (c := c) (by omega)]
    have hlast : min m (min lines.length (maxSize - 1) - 1) = min (m + 1) (min lines.length (maxSize - 1) - 1) := by
      omega
    rw [lineAt, ← hlast]
    exact hci

/-- A step that reports nothing and loads nothing. -/
theorem FileInv.same (h : FileInv lines s) (hsame : SameCi s.replay.ctl s'.replay.ctl)
    (hsecond : s'.replay.ctl.secondReady = s.replay.ctl.secondReady) (hreported : s'.reported = s.reported) :
    FileInv lines s' := by
  obtain ⟨m, hlen, hcur, hci⟩ := h.turn
  refine ⟨hsame.cells.trans h.cells, hsame.ciCount.trans h.ciCount,
    ⟨m, ?_, hsame.curCi.trans hcur, hsame.ci.trans hci⟩, ?_⟩
  · rw [hreported, hsecond, hlen]
  · rw [hreported]
    exact h.reported

/-- Second is marked: the current candidate is reported. -/
theorem FileInv.mark (h : FileInv lines s) (hsecond : s.replay.ctl.secondReady = false) (n : ℕ) (e : Option Exec)
    (delayed : UInt32 → Option Delay) (status : Status) :
    FileInv lines (s.observe e ⟨{ s.replay.ctl with secondReady := true, countTimeout := n }, delayed, status⟩) := by
  obtain ⟨m, hlen, hcur, hci⟩ := h.turn
  rw [hsecond] at hlen
  have hlen : s.reported.length = m := hlen
  have hreported :
      (s.observe e ⟨{ s.replay.ctl with secondReady := true, countTimeout := n }, delayed, status⟩).reported =
        s.reported ++ [⟨s.replay.ctl.isLockedType, s.replay.ctl.first, s.replay.ctl.inter, s.replay.ctl.second,
          s.firstBy, s.interBy, e⟩] := by simp [Sys.observe, hsecond]
  refine ⟨h.cells, h.ciCount, ⟨m, ?_, hcur, hci⟩, ?_⟩
  · rw [hreported, List.length_append, hlen]
    rfl
  · intro k r hr
    rw [hreported] at hr
    by_cases hk : k < s.reported.length
    · rw [List.getElem?_append_left hk] at hr
      exact h.reported k r hr
    · have hlast := (List.getElem?_eq_some_iff.mp hr).1
      rw [List.length_append, List.length_singleton] at hlast
      obtain rfl : k = s.reported.length := by omega
      rw [List.getElem?_concat_length] at hr
      obtain rfl := Option.some.inj hr
      rw [hlen]
      exact hci

/-- The next candidate is loaded. -/
theorem FileInv.load (h : FileInv lines s) (hsecond : s.replay.ctl.secondReady = true) (e : Option Exec)
    (delayed : UInt32 → Option Delay) (status : Status) :
    FileInv lines (s.observe e ⟨s.replay.ctl.loadNextCi.1, delayed, status⟩) := by
  have hload := @flags_loadNextCi s.replay.ctl
  simp only [Ctl.flags, Prod.mk.injEq] at hload
  obtain ⟨m, hlen, hcur, hci⟩ := h.turn
  rw [hsecond] at hlen
  obtain ⟨hcells, hcount⟩ := loadNextCi_cells s.replay.ctl
  have hreported : (s.observe e ⟨s.replay.ctl.loadNextCi.1, delayed, status⟩).reported = s.reported := by
    simp [Sys.observe, hload.2.2]
  refine ⟨hcells.trans h.cells, hcount.trans h.ciCount,
    ⟨m + 1, ?_, (loadNextCi_turn h.cells h.ciCount hcur).2, ci_loadNextCi h.cells h.ciCount hcur hci⟩, ?_⟩
  · rw [hreported, hlen]
    show _ = m + 1 + s.replay.ctl.loadNextCi.1.secondReady.toNat
    rw [hload.2.2]
    rfl
  · rw [hreported]
    exact h.reported

/-- A callback or wake-up keeps the reports in order. -/
theorem FileInv.observe (h : FileInv lines s) {tid : UInt32} {k : Call} {r : Replay} (e : Option Exec)
    (heff : Effect s.replay.ctl tid k r.ctl) : FileInv lines (s.observe e r) := by
  obtain ⟨c', delayed, status⟩ := r
  replace heff : Effect s.replay.ctl tid k c' := heff
  cases heff with
  | quiet n => exact h.same ⟨rfl, rfl, rfl, rfl⟩ rfl (by simp [Sys.observe])
  | first hf hm =>
    simp only [Ctl.flags, Prod.mk.injEq] at hf
    exact h.same ⟨rfl, rfl, rfl, rfl⟩ rfl (by simp [Sys.observe, hf.2.2])
  | inter n hf hm =>
    simp only [Ctl.flags, Prod.mk.injEq] at hf
    exact h.same ⟨rfl, rfl, rfl, rfl⟩ rfl (by simp [Sys.observe, hf.2.2])
  | second n hf hm =>
    simp only [Ctl.flags, Prod.mk.injEq] at hf
    exact h.mark hf.2.2 n e delayed status
  | load hf =>
    simp only [Ctl.flags, Prod.mk.injEq] at hf
    exact h.load hf.2.2 e delayed status

theorem FileInv.step (h : FileInv lines s) (hs : SysInv s) (hstep : step recursive s a = some s') :
    FileInv lines s' := by
  cases stepped_of_step hstep with
  | fetch hpc => exact ⟨h.cells, h.ciCount, h.turn, h.reported⟩
  | @callback tid addr e todo r hpc hcall =>
    obtain ⟨-, -, rfl⟩ := replay_call hcall
    have ho : FileInv lines (s.observe (some e) (s.replay.finish tid (s.replay.ctl.call tid (.mem e.ip addr)))) :=
      h.observe _ call_spec.effect
    exact ⟨ho.cells, ho.ciCount, ho.turn, ho.reported⟩
  | access hpc hd => exact ⟨h.cells, h.ciCount, h.turn, h.reported⟩
  | @lockCall tid m callsiteV r hpc hcall =>
    obtain ⟨-, -, rfl⟩ := replay_call hcall
    have ho : FileInv lines (s.observe none (s.replay.finish tid (s.replay.ctl.call tid (.lock callsiteV)))) :=
      h.observe _ call_spec.effect
    exact ⟨ho.cells, ho.ciCount, ho.turn, ho.reported⟩
  | acquire hpc hd ho => exact ⟨h.cells, h.ciCount, h.turn, h.reported⟩
  | @unlockCall tid m callsiteV r hpc hm hcall =>
    obtain ⟨-, -, rfl⟩ := replay_call hcall
    have ho : FileInv lines (s.observe none (s.replay.finish tid (s.replay.ctl.call tid (.unlock callsiteV)))) :=
      h.observe _ call_spec.effect
    exact ⟨ho.cells, ho.ciCount, ho.turn, ho.reported⟩
  | release hpc => exact ⟨h.cells, h.ciCount, h.turn, h.reported⟩
  | @wake tid r hwake =>
    obtain ⟨d, -, hd, rfl⟩ := replay_wake hwake
    exact h.observe _ (wake_spec (hs.replay.waits tid d hd)).effect

end InOrder

/-! ## Reports at the level of sections -/

/-- The report is that of the current candidate. -/
structure Current (c : Ctl) (r : Report) : Prop where
  secondReady : c.secondReady = true
  isLockedType : r.isLockedType = c.isLockedType
  first : r.first = c.first
  inter : r.inter = c.inter
  second : r.second = c.second

/-- The roles of every report at the level of sections have been left in order. -/
def ExitsInv (s : Sys) : Prop :=
  ∀ r ∈ s.reported, r.isLockedType = true →
    ∃ m m' m'', [r.first.exit m, r.inter.exit m', r.second.exit m''].Sublist (unlockCalls s.hist)

section Exits

variable {recursive : UInt32 → Bool} {lines : List Line} {s s' : Sys} {a : Act} {acts : List Act} {r : Report}

theorem execOf_eq_some {t : UInt32} {e : Exec} : s.execOf t = some e ↔ ∃ todo, s.pc t = .access e todo := by
  unfold Sys.execOf
  cases s.pc t with
  | idle => simp
  | access e' todo' => simp
  | lock m => simp
  | unlock m => simp

/-- A callback or wake-up of the execution `e` reports the current candidate, or nothing. -/
theorem mem_observe {tid : UInt32} {k : Call} {e : Option Exec} {r' : Replay}
    (heff : Effect s.replay.ctl tid k r'.ctl) (hr : r ∈ (s.observe e r').reported) :
    r ∈ s.reported ∨ Current r'.ctl r ∧ r.secondBy = e := by
  obtain ⟨c', delayed, status⟩ := r'
  replace heff : Effect s.replay.ctl tid k c' := heff
  cases heff with
  | quiet n => exact Or.inl (by simpa [Sys.observe] using hr)
  | first hf hm =>
    simp only [Ctl.flags, Prod.mk.injEq] at hf
    exact Or.inl (by simpa [Sys.observe, hf.2.2] using hr)
  | inter n hf hm =>
    simp only [Ctl.flags, Prod.mk.injEq] at hf
    exact Or.inl (by simpa [Sys.observe, hf.2.2] using hr)
  | second n hf hm =>
    simp only [Ctl.flags, Prod.mk.injEq] at hf
    simp only [Sys.observe, hf.2.2, and_self, if_true, List.mem_append, List.mem_singleton] at hr
    rcases hr with hr | rfl
    · exact Or.inl hr
    · exact Or.inr ⟨⟨rfl, rfl, rfl, rfl, rfl⟩, rfl⟩
  | load hf =>
    have hload := @flags_loadNextCi s.replay.ctl
    simp only [Ctl.flags, Prod.mk.injEq] at hload
    exact Or.inl (by simpa [Sys.observe, hload.2.2] using hr)

/-- A step reports the current candidate, marked by the execution that its thread is in, or nothing. -/
theorem mem_reported_step (hs : SysInv s) (hstep : step recursive s a = some s') (hr : r ∈ s'.reported) :
    r ∈ s.reported ∨ Current s'.replay.ctl r ∧ ∀ e, r.secondBy = some e → s'.execOf e.tid = some e := by
  cases stepped_of_step hstep with
  | fetch hpc => exact Or.inl hr
  | @callback tid addr e todo r' hpc hcall =>
    obtain ⟨-, -, rfl⟩ := replay_call hcall
    refine (mem_observe call_spec.effect hr).imp_right fun ⟨hcur, hsecond⟩ => ⟨hcur, fun e' he => ?_⟩
    obtain rfl := Option.some.inj (hsecond.symm.trans he)
    rw [(hs.current tid e _ hpc).1]
    exact execOf_eq_some.mpr ⟨todo, Function.update_self _ _ _⟩
  | access hpc hd => exact Or.inl hr
  | lockCall hpc hcall =>
    obtain ⟨-, -, rfl⟩ := replay_call hcall
    refine (mem_observe call_spec.effect hr).imp_right fun ⟨hcur, hsecond⟩ => ⟨hcur, fun e' he => ?_⟩
    exact absurd (hsecond.symm.trans he) (by simp)
  | acquire hpc hd ho => exact Or.inl hr
  | unlockCall hpc hm hcall =>
    obtain ⟨-, -, rfl⟩ := replay_call hcall
    refine (mem_observe call_spec.effect hr).imp_right fun ⟨hcur, hsecond⟩ => ⟨hcur, fun e' he => ?_⟩
    exact absurd (hsecond.symm.trans he) (by simp)
  | release hpc => exact Or.inl hr
  | @wake tid r' hwake =>
    obtain ⟨d, -, hd, rfl⟩ := replay_wake hwake
    refine (mem_observe (wake_spec (hs.replay.waits tid d hd)).effect hr).imp_right fun ⟨hcur, hsecond⟩ =>
      ⟨hcur, fun e he => ?_⟩
    have hexec : s.execOf tid = some e := hsecond.symm.trans he
    obtain ⟨todo, hpc⟩ := execOf_eq_some.mp hexec
    rw [(hs.current tid e todo hpc).1]
    exact hexec

/-- The history of the mutexes only grows. -/
theorem hist_step (hstep : step recursive s a = some s') : s.hist <+: s'.hist := by
  cases stepped_of_step hstep with
  | fetch hpc => exact List.prefix_refl _
  | callback hpc hcall => exact List.prefix_refl _
  | access hpc hd => exact List.prefix_refl _
  | lockCall hpc hcall => exact List.prefix_refl _
  | acquire hpc hd ho => exact List.prefix_append _ _
  | unlockCall hpc hm hcall => exact List.prefix_append _ _
  | release hpc => exact List.prefix_append _ _
  | wake hwake => exact List.prefix_refl _

theorem ExitsInv.step (h : ExitsInv s) (hs : SysInv s) (hmarks : MarksInv s')
    (hstep : step recursive s a = some s') : ExitsInv s' := by
  intro r hr hl
  rcases mem_reported_step hs hstep hr with hold | ⟨hnew, -⟩
  · obtain ⟨m, m', m'', hsub⟩ := h r hold hl
    exact ⟨m, m', m'', hsub.trans ((hist_step hstep).sublist.filterMap _)⟩
  · rw [hnew.first, hnew.inter, hnew.second]
    exact hmarks.second (hnew.isLockedType.symm.trans hl) hnew.secondReady

end Exits

/-! ## The execution of Second -/

/-- The execution has taken effect, or its thread is still in it. -/
def Sys.Begun (s : Sys) (e : Exec) : Prop := e ∈ s.performed ∨ s.execOf e.tid = some e

/-- Second of every report is an execution that has begun. -/
def SecondInv (s : Sys) : Prop := ∀ r ∈ s.reported, ∀ e, r.secondBy = some e → s.Begun e

section Second

variable {recursive : UInt32 → Bool} {lines : List Line} {s s' : Sys} {a : Act} {e : Exec}

/-- An execution ends by taking effect only. -/
theorem Sys.Begun.step (h : s.Begun e) (hstep : Controller.step recursive s a = some s') : s'.Begun e := by
  rcases h with hdone | hexec
  · left
    cases stepped_of_step hstep with
    | access hpc hd => exact List.mem_append_left _ hdone
    | fetch hpc => exact hdone
    | callback hpc hcall => exact hdone
    | lockCall hpc hcall => exact hdone
    | acquire hpc hd ho => exact hdone
    | unlockCall hpc hm hcall => exact hdone
    | release hpc => exact hdone
    | wake hwake => exact hdone
  · obtain ⟨todo, he⟩ := execOf_eq_some.mp hexec
    -- a thread that enters or leaves something else is another one
    have hother : ∀ {tid : UInt32} {pc : Pc}, (∀ e todo, s.pc tid ≠ .access e todo) →
        Function.update s.pc tid pc e.tid = .access e todo := by
      intro tid pc hnot
      have hne : e.tid ≠ tid := by
        rintro rfl
        exact hnot e todo he
      exact (Function.update_of_ne hne _ _).trans he
    cases stepped_of_step hstep with
    | fetch hpc => exact Or.inr (execOf_eq_some.mpr ⟨todo, hother (by simp [hpc])⟩)
    | @callback tid addr e' todo' r hpc hcall =>
      right
      by_cases heq : e.tid = tid
      · subst heq
        obtain ⟨rfl, -⟩ := Pc.access.inj (he.symm.trans hpc)
        exact execOf_eq_some.mpr ⟨todo', Function.update_self _ _ _⟩
      · exact execOf_eq_some.mpr ⟨todo, (Function.update_of_ne heq _ _).trans he⟩
    | @access tid e' hpc hd =>
      by_cases heq : e.tid = tid
      · subst heq
        obtain ⟨rfl, -⟩ := Pc.access.inj (he.symm.trans hpc)
        exact Or.inl (List.mem_append_right _ (List.mem_singleton_self _))
      · exact Or.inr (execOf_eq_some.mpr ⟨todo, (Function.update_of_ne heq _ _).trans he⟩)
    | lockCall hpc hcall => exact Or.inr (execOf_eq_some.mpr ⟨todo, hother (by simp [hpc])⟩)
    | acquire hpc hd ho => exact Or.inr (execOf_eq_some.mpr ⟨todo, hother (by simp [hpc])⟩)
    | unlockCall hpc hm hcall => exact Or.inr (execOf_eq_some.mpr ⟨todo, hother (by simp [hpc])⟩)
    | release hpc => exact Or.inr (execOf_eq_some.mpr ⟨todo, hother (by simp [hpc])⟩)
    | wake hwake => exact Or.inr hexec

theorem SecondInv.step (h : SecondInv s) (hs : SysInv s) (hstep : Controller.step recursive s a = some s') :
    SecondInv s' := by
  intro r hr e he
  rcases mem_reported_step hs hstep hr with hold | ⟨-, hnew⟩
  · exact (h r hold e he).step hstep
  · exact Or.inr (hnew e he)

end Second

/-! ## The lines of an analysis -/

/-- The numbers of a candidate in the registers. -/
def Ci.numbers (c : Ci) : LineNumbers :=
  { type := c.isLockedType.toNat
    firstId := c.first.1.toNat, firstArg1 := c.first.2.1.toNat, firstArg2 := c.first.2.2.toNat
    secondId := c.second.1.toNat, secondArg1 := c.second.2.1.toNat, secondArg2 := c.second.2.2.toNat
    interId := c.inter.1.toNat, interArg1 := c.inter.2.1.toNat, interArg2 := c.inter.2.2.toNat }

section Lines

variable {overflow : Bool → ℤ → UInt32} {l : LineNumbers} {log : List MemRef} {locks : List LockRef} {re : Result}

theorem toNat_stored_tid {n : ℕ} (h : n < 2 ^ 32) : (stored overflow false n).toNat = n :=
  toNat_stored (by simp only [InRange]; norm_num; omega)

/-- The tids of a line are those of the accesses, at both levels. -/
theorem tids_identifier {css : List CS} (h : Attached css re) :
    (identifier re).firstId = re.first.tid ∧ (identifier re).secondId = re.second.tid ∧
      (identifier re).interId = re.inter.tid := by
  unfold identifier
  cases hc : commonSections re with
  | none => exact ⟨rfl, rfl, rfl⟩
  | some c =>
    obtain ⟨f, s, i⟩ := c
    obtain ⟨hf, hs, hi, -⟩ := commonSections_eq_some hc
    exact ⟨(inSection_iff_encloses.mp (h.first f hf).2).1, (inSection_iff_encloses.mp (h.second s hs).2).1,
      (inSection_iff_encloses.mp (h.inter i hi).2).1⟩

/-- The tids of a line are in range, one of First and Second and another one of Inter. -/
structure TidsOk (l : LineNumbers) : Prop where
  tids : ∀ t ∈ tids l, t < 2 ^ 32
  same : l.firstId = l.secondId
  other : l.interId ≠ l.firstId

theorem tidsOk_of_reported (h : Reported (log.map traceOf) (sections (locks.map lockOf)) re) :
    TidsOk (identifier re) := by
  have htids := (fits32_of_reported h).numbers_lt.1
  obtain ⟨ci, hci, -, rfl⟩ := h
  obtain ⟨hatt, h1, h2, h3⟩ := saveResult_attached (sections (locks.map lockOf)) ci
  obtain ⟨hf, hs, hi⟩ := tids_identifier hatt
  rw [h1] at hf
  rw [h2] at hs
  rw [h3] at hi
  exact ⟨htids, by rw [hf, hs, hci.next.tid_eq], by rw [hf, hi]; exact hci.tid⟩

/-- The loaded line has First and Second in one thread and Inter in another. -/
theorem twoThreads_rowOf (h : TidsOk l) : (rowOf overflow l).TwoThreads := by
  obtain ⟨htids, hsame, hother⟩ := h
  have hfirst : (stored overflow false l.firstId).toNat = l.firstId := toNat_stored_tid (htids _ (by simp [tids]))
  have hinter : (stored overflow false l.interId).toNat = l.interId := toNat_stored_tid (htids _ (by simp [tids]))
  simp only [Line.TwoThreads, rowOf, Line.fill, storedValues, List.getD_cons_succ, List.getD_cons_zero]
  refine ⟨by rw [hsame], fun heq => ?_⟩
  exact hother (hinter.symm.trans ((congrArg UInt32.toNat heq).trans hfirst))

end Lines

/-! ## Controlled runs -/

section Confirmed

variable {overflow : Bool → ℤ → UInt32} {recursive : UInt32 → Bool} {log : List MemRef} {locks : List LockRef}
  {enum : MemTrace → List ℕ} {syncLog : List UInt8} {s : GroupState} {i : ℕ} {rs : List Result} {re : Result}

/-- The file of a group, as results. -/
theorem exists_file (hlogs : LogsOk log locks) (henum : DictOrder enum)
    (hok : analyse enum (memFile log) (lockFile locks) syncLog = .ok s) (hi : i < s.groupNum) :
    ∃ rs : List Result, rs ≠ [] ∧ s.files i = some (rs.flatMap Result.line) ∧
      ∀ re ∈ rs, Reported (log.map traceOf) (sections (locks.map lockOf)) re := by
  obtain ⟨groups, hgroups, hfiles⟩ := exists_groups hlogs henum hok
  obtain ⟨rs, hrs, hfile⟩ := List.mem_map.mp (hfiles ▸ List.mem_map_of_mem (List.mem_range.mpr hi))
  exact ⟨rs, (hgroups.inTurn rs hrs).1, hfile.symm, fun re hre =>
    hgroups.reported re (List.mem_flatten_of_mem hrs hre)⟩

/-- The lines of a group that an analysis has written: at least one, and each has two threads. -/
theorem group_twoThreads (hlogs : LogsOk log locks) (henum : DictOrder enum)
    (hok : analyse enum (memFile log) (lockFile locks) syncLog = .ok s) (hi : i < s.groupNum) {file : List Char}
    (hfile : s.files i = some file) :
    (∀ l ∈ loadGroup overflow file, l.TwoThreads) ∧ loadGroup overflow file ≠ [] := by
  obtain ⟨rs, hne, hfile', hrs⟩ := exists_file hlogs henum hok hi
  obtain rfl := Option.some.inj (hfile.symm.trans hfile')
  rw [loadGroup_lines]
  refine ⟨?_, ?_⟩
  · intro l hl
    obtain ⟨re, hre, rfl⟩ := List.mem_map.mp hl
    exact twoThreads_rowOf (tidsOk_of_reported (hrs re (List.mem_of_mem_take hre)))
  · intro hnil
    have hlen := congrArg List.length hnil
    have hpos := List.length_pos_iff.mpr hne
    rw [loadedOf, List.length_map, List.length_take, List.length_nil] at hlen
    have hsize : maxSize = 32 := rfl
    omega

/-- **Delays make no cycle** in a controlled run of a group that an analysis has written: in every state at
most one thread waits for a flag that is not set, it does not wait for itself, and whoever is to set the
flag waits for nobody. -/
theorem group_awaits_one (hlogs : LogsOk log locks) (henum : DictOrder enum)
    (hok : analyse enum (memFile log) (lockFile locks) syncLog = .ok s) (hi : i < s.groupNum) {file : List Char}
    (hfile : s.files i = some file) {turns : List Turn} {s' : Replay}
    (hrun : run Replay.turn (.start (loadGroup overflow file)) turns = some s') {t u : UInt32} (h : Awaits s' t u) :
    t ≠ u ∧ (∀ v, ¬ Awaits s' u v) ∧ ∀ t' u', Awaits s' t' u' → t' = t := by
  obtain ⟨htwo, hne⟩ := @group_twoThreads overflow _ _ _ _ _ _ hlogs henum hok hi _ hfile
  exact awaits_one htwo hne hrun h

end Confirmed

theorem analyse_writeReadLog :
    ∃ s, analyse (fun mt => mt.keys) (memFile writeReadLog) (lockFile []) [] = .ok s ∧ s.groupNum = 1 ∧
      s.files 0 = some writeReadResult.line :=
  analyse_writeRead (by simp) (show loadSyncTraces [] = .ok [] from rfl) (by decide)

theorem loadGroup_writeRead : loadGroup lowHalf writeReadResult.line = [writeReadLine] := by
  have hfile : writeReadResult.line = [writeReadResult].flatMap Result.line := (List.flatMap_singleton _ _).symm
  rw [hfile, loadGroup_lines]
  decide

theorem waitingTurns_isSome :
    (run Replay.turn (.start [writeReadLine]) [.call 2 (.mem 0x8048300 64)]).isSome = true := by
  decide

theorem group_awaits_one_writeRead :
    ∃ s', run Replay.turn (.start [writeReadLine]) [.call 2 (.mem 0x8048300 64)] = some s' ∧
      (2 : UInt32) ≠ 1 ∧ (∀ v, ¬ Awaits s' 1 v) ∧ ∀ t' u', Awaits s' t' u' → t' = 2 := by
  obtain ⟨s, hok, hnum, hfile⟩ := analyse_writeReadLog
  have hrun := (Option.some_get waitingTurns_isSome).symm
  have hwait :
      Awaits ((run Replay.turn (.start [writeReadLine]) [.call 2 (.mem 0x8048300 64)]).get waitingTurns_isSome) 2 1 :=
    ⟨.memInter 0x8048300 64, by decide, by decide, by decide⟩
  generalize (run Replay.turn (.start [writeReadLine]) [.call 2 (.mem 0x8048300 64)]).get waitingTurns_isSome = s'
    at hrun hwait
  refine ⟨s', hrun, ?_⟩
  rw [← loadGroup_writeRead] at hrun
  exact group_awaits_one logsOk_writeRead dictOrder_keys hok (show 0 < s.groupNum by omega) hfile hrun hwait

end Controller
end AVPredictor
