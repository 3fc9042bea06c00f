import Mathlib.Data.List.Induction
import AVPredictor.Base.Loops
import AVPredictor.Offline.Data

/-!
# AVPredictor.Offline.LockTrace — `load_lock_traces`

A lock record opens a section; an unlock record completes every open section of its thread and
mutex, where a section is open while its `ftime` is 0.  `sections log` says what this comes to when
times are nonzero: one section per lock record, in log order, completed by the first later unlock of
the same thread and mutex, if there is one (`foldl_storeLock`); `one_section_per_lock` says so record
by record.
-/

namespace AVPredictor
namespace Offline

open Base

/-- The unpacked fields of one lock record. -/
structure LockTrace where
  tid : ℕ
  time : ℕ
  callsiteV : ℕ
  entryV : ℕ
  op : ℕ
deriving DecidableEq, Repr

/-! ## The code -/

/-- The section that a lock record opens. -/
def openCS (r : LockTrace) : CS :=
  { tid := r.tid, stime := r.time, ftime := 0, lCv := r.callsiteV, lEv := r.entryV, uCv := 0, uEv := 0 }

/-- What an unlock record does to one section of `cs_list`. -/
def completeCS (r : LockTrace) (it : CS) : CS :=
  if it.tid = r.tid ∧ it.lEv = r.entryV ∧ it.ftime = 0 then
    { it with ftime := r.time, uCv := r.callsiteV, uEv := r.entryV }
  else it

/-- One record put into `cs_list`. -/
def storeLock (csList : List CS) (r : LockTrace) : List CS :=
  if r.op = opLock then csList ++ [openCS r] else csList.map (completeCS r)

/-- `"@IQ3I"` -/
def lockFormat : List Scalar := [uint32, uint64, uint32, uint32, uint32]

/-- The loop body: unpack `tid, time, callsite_v, entry_v, op` and store the record. -/
def loadLockLine (csList : List CS) (line : List UInt8) : Except PyErr (List CS) := do
  match ← unpack lockFormat line with
  | [tid, time, callsiteV, entryV, op] => .ok (storeLock csList ⟨tid, time, callsiteV, entryV, op⟩)
  | _ => .error .structError

/-- `load_lock_traces` on the bytes of the file, from the empty `cs_list`. -/
def loadLockTraces (file : List UInt8) : Except PyErr (List CS) :=
  (blocks 24 file).foldlM loadLockLine []

/-! ## What the loader sees -/

/-- The unpacked fields of a record. -/
def lockOf (r : LockRef) : LockTrace :=
  ⟨r.tid.toNat, r.ts.toNat, r.callv.toNat, r.entryv.toNat, r.lock.toNat⟩

/-- The lock log of a sequence of records. -/
def lockFile (log : List LockRef) : List UInt8 := fwrite LockRef.bytes log

theorem loadLockLine_bytes (css : List CS) (r : LockRef) :
    loadLockLine css r.bytes = .ok (storeLock css (lockOf r)) := by
  have h : unpack lockFormat r.bytes = .ok (r.members.map Prod.snd) := unpack_pack r.members_lt
  rw [loadLockLine, h]
  rfl

theorem loadLockTraces_lockFile (log : List LockRef) :
    loadLockTraces (lockFile log) = .ok ((log.map lockOf).foldl storeLock []) := by
  have hb : blocks 24 (lockFile log) = log.map LockRef.bytes :=
    blocks_flatten (by decide) _ (by simp)
  rw [loadLockTraces, hb, List.foldl_map]
  exact foldlM_map_eq_ok loadLockLine_bytes log []

/-! ## The sections of a log -/

/-- `u` is an unlock of thread `t` and mutex `m`. -/
def unlocks (t m : ℕ) (u : LockTrace) : Bool := u.op ≠ opLock ∧ u.tid = t ∧ u.entryV = m

/-- `cs` completed by the first unlock of its thread and mutex in `rest`, if there is one. -/
def closeBy (cs : CS) (rest : List LockTrace) : CS :=
  match rest.find? (unlocks cs.tid cs.lEv) with
  | some u => { cs with ftime := u.time, uCv := u.callsiteV, uEv := u.entryV }
  | none => cs

/-- The sections of a log, one per lock record. -/
def sections : List LockTrace → List CS
  | [] => []
  | r :: rest => if r.op = opLock then closeBy (openCS r) rest :: sections rest else sections rest

/-- The later records' effect on a section already in the list. -/
def settle (log : List LockTrace) (cs : CS) : CS := if cs.ftime = 0 then closeBy cs log else cs

theorem settle_cons_lock {r : LockTrace} (hr : r.op = opLock) (log : List LockTrace) (cs : CS) :
    settle (r :: log) cs = settle log cs := by
  unfold settle closeBy
  rw [List.find?_cons_of_neg (by simp [unlocks, hr])]

theorem settle_cons_unlock {r : LockTrace} (hr : r.op ≠ opLock) (ht : r.time ≠ 0)
    (log : List LockTrace) (cs : CS) : settle (r :: log) cs = settle log (completeCS r cs) := by
  by_cases hopen : cs.ftime = 0
  · by_cases hm : cs.tid = r.tid ∧ cs.lEv = r.entryV
    · have hu : unlocks cs.tid cs.lEv r = true := by simp [unlocks, hr, hm.1, hm.2]
      have hc : completeCS r cs = { cs with ftime := r.time, uCv := r.callsiteV, uEv := r.entryV } := by
        rw [completeCS, if_pos ⟨hm.1, hm.2, hopen⟩]
      rw [settle, if_pos hopen, closeBy, List.find?_cons_of_pos hu, hc, settle, if_neg ht]
    · have hu : ¬ unlocks cs.tid cs.lEv r = true := by
        simp only [unlocks, decide_eq_true_eq]
        rintro ⟨-, h1, h2⟩
        exact hm ⟨h1.symm, h2.symm⟩
      have hc : completeCS r cs = cs := by
        rw [completeCS, if_neg]
        rintro ⟨h1, h2, -⟩
        exact hm ⟨h1, h2⟩
      rw [hc, settle, if_pos hopen, settle, if_pos hopen, closeBy, closeBy,
        List.find?_cons_of_neg hu]
  · have hc : completeCS r cs = cs := by
      rw [completeCS, if_neg]
      rintro ⟨-, -, h⟩
      exact hopen h
    rw [hc, settle, if_neg hopen, settle, if_neg hopen]

/-- **The loader computes the sections**: later unlocks never touch a completed section. -/
theorem foldl_storeLock {log : List LockTrace} (ht : ∀ r ∈ log, r.time ≠ 0) (css : List CS) :
    log.foldl storeLock css = css.map (settle log) ++ sections log := by
  induction log generalizing css with
  | nil =>
    have hid : settle [] = id := by
      funext cs
      simp [settle, closeBy]
    simp [hid, sections]
  | cons r log ih =>
    have hrest := ih (fun r' hr' => ht r' (by simp [hr']))
    rw [List.foldl_cons, hrest]
    by_cases hr : r.op = opLock
    · have hmap : css.map (settle (r :: log)) = css.map (settle log) :=
        List.map_congr_left fun cs _ => settle_cons_lock hr log cs
      have hnew : settle log (openCS r) = closeBy (openCS r) log := by simp [settle, openCS]
      rw [storeLock, if_pos hr, hmap, sections, if_pos hr]
      simp [hnew]
    · have hmap : css.map (settle (r :: log)) = (css.map (completeCS r)).map (settle log) := by
        rw [List.map_map]
        exact List.map_congr_left fun cs _ => settle_cons_unlock hr (ht r (by simp)) log cs
      rw [storeLock, if_neg hr, hmap, sections, if_neg hr]

/-- `load_lock_traces` on the file of a log with nonzero times. -/
theorem loadLockTraces_sections {log : List LockRef} (ht : ∀ r ∈ log, r.ts ≠ 0) :
    loadLockTraces (lockFile log) = .ok (sections (log.map lockOf)) := by
  have ht' : ∀ r ∈ log.map lockOf, r.time ≠ 0 := by
    intro r hr
    obtain ⟨x, hx, rfl⟩ := List.mem_map.mp hr
    exact fun h0 => ht x hx (UInt64.toNat_inj.mp h0)
  rw [loadLockTraces_lockFile, foldl_storeLock ht', List.map_nil, List.nil_append]

theorem mem_sections {log : List LockTrace} {cs : CS} (h : cs ∈ sections log) :
    ∃ l₁ r l₂, log = l₁ ++ r :: l₂ ∧ r.op = opLock ∧ cs = closeBy (openCS r) l₂ := by
  induction log with
  | nil => simp [sections] at h
  | cons x log ih =>
    rw [sections] at h
    split_ifs at h with hx
    · rcases List.mem_cons.mp h with h | h
      · exact ⟨[], x, log, rfl, hx, h⟩
      · obtain ⟨l₁, r, l₂, hl, hr, hcs⟩ := ih h
        exact ⟨x :: l₁, r, l₂, by rw [hl]; rfl, hr, hcs⟩
    · obtain ⟨l₁, r, l₂, hl, hr, hcs⟩ := ih h
      exact ⟨x :: l₁, r, l₂, by rw [hl]; rfl, hr, hcs⟩

/-- A closed section: its lock record, and the first later unlock of its thread and mutex. -/
theorem mem_sections_closed {log : List LockTrace} {cs : CS} (h : cs ∈ sections log)
    (hf : cs.ftime ≠ 0) :
    ∃ l₁ r l₂ u l₃, log = l₁ ++ r :: (l₂ ++ u :: l₃) ∧ r.op = opLock ∧ unlocks cs.tid cs.lEv u ∧
      (∀ x ∈ l₂, ¬ unlocks cs.tid cs.lEv x) ∧ r.tid = cs.tid ∧ r.entryV = cs.lEv ∧
      r.time = cs.stime ∧ u.time = cs.ftime ∧ r.callsiteV = cs.lCv ∧ u.callsiteV = cs.uCv := by
  obtain ⟨l₁, r, l, hl, hr, rfl⟩ := mem_sections h
  unfold closeBy at hf ⊢
  cases hfind : l.find? (unlocks (openCS r).tid (openCS r).lEv) with
  | none =>
    rw [hfind] at hf
    exact absurd rfl hf
  | some u =>
    obtain ⟨hu, l₂, l₃, rfl, hno⟩ := List.find?_eq_some_iff_append.mp hfind
    exact ⟨l₁, r, l₂, u, l₃, hl, hr, hu, fun x hx => by simpa using hno x hx, rfl, rfl, rfl, rfl, rfl, rfl⟩

theorem stime_closeBy (cs : CS) (rest : List LockTrace) : (closeBy cs rest).stime = cs.stime := by
  unfold closeBy
  cases rest.find? (unlocks cs.tid cs.lEv) with
  | none => rfl
  | some u => rfl

/-- The sections start at the times of lock records, in log order. -/
theorem stimes_sublist (log : List LockTrace) :
    ((sections log).map CS.stime).Sublist (log.map LockTrace.time) := by
  induction log with
  | nil => exact List.nil_sublist _
  | cons r log ih =>
    rw [sections, List.map_cons]
    split_ifs
    · rw [List.map_cons, stime_closeBy]
      exact ih.cons_cons r.time
    · exact ih.cons r.time

/-! ## One section per lock record -/

/-- A lock record. -/
def isLock (r : LockTrace) : Bool := r.op = opLock

theorem isLock_iff {r : LockTrace} : isLock r = true ↔ r.op = opLock := decide_eq_true_iff

/-- `cs` is the section of the lock record `r`, when `rest` are the records after it. -/
structure SectionOf (r : LockTrace) (rest : List LockTrace) (cs : CS) : Prop where
  tid : cs.tid = r.tid
  stime : cs.stime = r.time
  lCv : cs.lCv = r.callsiteV
  lEv : cs.lEv = r.entryV
  closed : ∀ u, rest.find? (unlocks r.tid r.entryV) = some u →
    cs.ftime = u.time ∧ cs.uCv = u.callsiteV ∧ cs.uEv = u.entryV
  still_open : rest.find? (unlocks r.tid r.entryV) = none → cs.ftime = 0 ∧ cs.uCv = 0 ∧ cs.uEv = 0

theorem sectionOf_closeBy (r : LockTrace) (rest : List LockTrace) :
    SectionOf r rest (closeBy (openCS r) rest) := by
  unfold closeBy
  cases hfind : rest.find? (unlocks (openCS r).tid (openCS r).lEv) with
  | none =>
    refine ⟨rfl, rfl, rfl, rfl, ?_, fun _ => ⟨rfl, rfl, rfl⟩⟩
    intro u hu
    exact nomatch hfind.symm.trans hu
  | some u =>
    refine ⟨rfl, rfl, rfl, rfl, ?_, fun hnone => nomatch hfind.symm.trans hnone⟩
    intro v hv
    obtain rfl := Option.some.inj (hfind.symm.trans hv)
    exact ⟨rfl, rfl, rfl⟩

theorem sections_append (l₁ l₂ : List LockTrace) :
    ∃ css, css.length = l₁.countP isLock ∧ sections (l₁ ++ l₂) = css ++ sections l₂ := by
  induction l₁ with
  | nil => exact ⟨[], rfl, rfl⟩
  | cons x l₁ ih =>
    obtain ⟨css, hlen, happ⟩ := ih
    rw [List.cons_append, sections, happ]
    by_cases hx : x.op = opLock
    · rw [if_pos hx]
      refine ⟨_ :: css, ?_, rfl⟩
      rw [List.length_cons, hlen, List.countP_cons_of_pos (isLock_iff.mpr hx)]
    · rw [if_neg hx]
      exact ⟨css, by rw [hlen, List.countP_cons_of_neg (mt isLock_iff.mp hx)], rfl⟩

theorem length_sections (log : List LockTrace) : (sections log).length = log.countP isLock := by
  obtain ⟨css, hlen, happ⟩ := sections_append log []
  rw [List.append_nil] at happ
  rw [happ, sections, List.append_nil, hlen]

/-- The section at the place of a lock record. -/
theorem sections_getElem? {l₁ l₂ : List LockTrace} {r : LockTrace} (hr : r.op = opLock) :
    (sections (l₁ ++ r :: l₂))[l₁.countP isLock]? = some (closeBy (openCS r) l₂) := by
  obtain ⟨css, hlen, happ⟩ := sections_append l₁ (r :: l₂)
  rw [happ, ← hlen, sections, if_pos hr, List.getElem?_append_right le_rfl, Nat.sub_self]
  rfl

/-- An unlock record without an open section of its thread and mutex changes nothing. -/
theorem storeLock_eq_self {css : List CS} {r : LockTrace} (hr : r.op ≠ opLock)
    (h : ∀ cs ∈ css, cs.tid = r.tid → cs.lEv = r.entryV → cs.ftime ≠ 0) : storeLock css r = css := by
  rw [storeLock, if_neg hr]
  have hid : ∀ cs ∈ css, completeCS r cs = id cs := by
    intro cs hcs
    rw [completeCS, if_neg]
    · rfl
    · rintro ⟨htid, hev, hopen⟩
      exact h cs hcs htid hev hopen
  rw [List.map_congr_left hid, List.map_id]

/-- **What the loader computes on any log** with nonzero times: one section per lock record, in log
order, completed by the first later unlock of its thread and mutex, and an unlock record that finds
no open section changes nothing. -/
theorem one_section_per_lock {log : List LockRef} (ht : ∀ r ∈ log, r.ts ≠ 0) :
    ∃ css, loadLockTraces (lockFile log) = .ok css ∧ css.length = (log.map lockOf).countP isLock ∧
      (∀ l₁ r l₂, log.map lockOf = l₁ ++ r :: l₂ → r.op = opLock →
        ∃ cs, css[l₁.countP isLock]? = some cs ∧ SectionOf r l₂ cs) ∧
      ∀ pre u post, log = pre ++ u :: post → (lockOf u).op ≠ opLock →
        ∃ css', loadLockTraces (lockFile pre) = .ok css' ∧
          ((∀ cs ∈ css', cs.tid = (lockOf u).tid → cs.lEv = (lockOf u).entryV → cs.ftime ≠ 0) →
            loadLockTraces (lockFile (pre ++ [u])) = .ok css') := by
  refine ⟨_, loadLockTraces_sections ht, length_sections _, ?_, ?_⟩
  · intro l₁ r l₂ hl hr
    rw [hl]
    exact ⟨_, sections_getElem? hr, sectionOf_closeBy r l₂⟩
  · intro pre u post _ hu
    refine ⟨_, loadLockTraces_lockFile pre, ?_⟩
    intro hopen
    rw [loadLockTraces_lockFile, List.map_append, List.foldl_append]
    exact congrArg Except.ok (storeLock_eq_self hu hopen)

/-- Two locks of one mutex by one thread, completed by one unlock; the second unlock finds none. -/
def twiceLocked : List LockRef := [⟨1, 1, 100, 7, 1⟩, ⟨1, 2, 101, 7, 1⟩, ⟨1, 3, 102, 7, 0⟩, ⟨1, 4, 103, 7, 0⟩]

theorem one_section_per_lock_twiceLocked :
    ∃ css, loadLockTraces (lockFile twiceLocked) = .ok css ∧
      css.length = (twiceLocked.map lockOf).countP isLock ∧
      (∀ l₁ r l₂, twiceLocked.map lockOf = l₁ ++ r :: l₂ → r.op = opLock →
        ∃ cs, css[l₁.countP isLock]? = some cs ∧ SectionOf r l₂ cs) ∧
      ∀ pre u post, twiceLocked = pre ++ u :: post → (lockOf u).op ≠ opLock →
        ∃ css', loadLockTraces (lockFile pre) = .ok css' ∧
          ((∀ cs ∈ css', cs.tid = (lockOf u).tid → cs.lEv = (lockOf u).entryV → cs.ftime ≠ 0) →
            loadLockTraces (lockFile (pre ++ [u])) = .ok css') :=
  one_section_per_lock (by decide)

/-! ### On any times -/

/-- What a section has from its lock record. -/
def CS.opening (cs : CS) : ℕ × ℕ × ℕ × ℕ := (cs.tid, cs.stime, cs.lCv, cs.lEv)

def LockTrace.opening (r : LockTrace) : ℕ × ℕ × ℕ × ℕ := (r.tid, r.time, r.callsiteV, r.entryV)

theorem opening_completeCS (r : LockTrace) (cs : CS) : (completeCS r cs).opening = cs.opening := by
  unfold completeCS
  split_ifs
  · rfl
  · rfl

/-- The sections are opened by the lock records, in log order, whatever the times are. -/
theorem openings_foldl (log : List LockTrace) (css : List CS) :
    (log.foldl storeLock css).map CS.opening =
      css.map CS.opening ++ (log.filter isLock).map LockTrace.opening := by
  induction log generalizing css with
  | nil => simp
  | cons r log ih =>
    rw [List.foldl_cons, ih]
    by_cases hr : r.op = opLock
    · have hnew : (openCS r).opening = r.opening := rfl
      rw [storeLock, if_pos hr, List.filter_cons_of_pos (isLock_iff.mpr hr)]
      simp [hnew]
    · have hsame : CS.opening ∘ completeCS r = CS.opening := funext (opening_completeCS r)
      rw [storeLock, if_neg hr, List.filter_cons_of_neg (mt isLock_iff.mp hr), List.map_map, hsame]

end Offline
end AVPredictor
