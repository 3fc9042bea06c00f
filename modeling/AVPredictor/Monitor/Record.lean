import Mathlib.Logic.Function.Basic
import AVPredictor.Base.Reorder
import AVPredictor.Offline.Predictor
import AVPredictor.Pin

/-!
# AVPredictor.Monitor.Record — how the monitor records memory accesses, and what the analyser reads back

`instruction` is the instrumentation decision of `monitor.cpp` for one static instruction, `fill`
the record that the inserted call puts in the thread's buffer at one execution, `bufferFull` the
flush of a buffer to the file.

Whatever the interleaving and the order of flushes, the analyser gets every thread's accesses in
order with the right ip, address and time (`tracesOf_recorded`); but the monitor stores 0 in `read`
for a read and 1 for a write, and the analyser has `READ = 1`, `WRITE = 0`, so every op comes out
inverted.
-/

namespace AVPredictor
namespace Monitor

open Base Offline

/-! ## Instrumentation -/

/-- The varying arguments of an `INS_InsertFillBuffer` call: the source of `addr` and the constant
for `read`. -/
structure FillBuffer where
  ea : Ea
  read : UInt32
deriving DecidableEq, Repr

/-- `Instruction`: the fill-buffer call that is inserted, if any. -/
def instruction (logEnable : Bool) (ins : Ins) : Option FillBuffer :=
  if !logEnable then none
  else if ins.isBranchOrCall then none
  else if ins.isStackRead then none
  else if ins.isStackWrite then none
  else if ins.isPrefetch then none
  else if ins.address > userUpperBound ∨ ins.address < userLowerBound then none
  else if ins.isMemoryRead then some ⟨.memoryRead, 0⟩
  else if ins.isMemoryWrite then some ⟨.memoryWrite, 1⟩
  else none

/-- Past the filters, a read operand decides before a write operand. -/
theorem instruction_of_ne_none {logEnable : Bool} {ins : Ins} (h : instruction logEnable ins ≠ none) :
    instruction logEnable ins =
      if ins.isMemoryRead then some ⟨.memoryRead, 0⟩
      else if ins.isMemoryWrite then some ⟨.memoryWrite, 1⟩
      else none := by
  unfold instruction at h ⊢
  iterate 6
    split at h
    · exact absurd rfl h
    rename_i hf
    rw [if_neg hf]

/-! ## Execution -/

/-- One execution of an instruction by a thread, at time-stamp counter `tsc`. -/
structure Exec where
  ins : Ins
  tid : UInt32
  tsc : UInt64
  readEa : UInt32
  writeEa : UInt32
deriving DecidableEq, Repr

/-- The record that an inserted call fills in. -/
def fill (fb : FillBuffer) (e : Exec) : MemRef :=
  { pc := e.ins.address
    addr := match fb.ea with
      | .memoryRead => e.readEa
      | .memoryWrite => e.writeEa
    ts := e.tsc
    tid := e.tid
    read := fb.read }

/-- The records of one execution of an instrumented instruction. -/
def recordsOf (e : Exec) : List MemRef := ((instruction true e.ins).map (fill · e)).toList

/-- The threads' buffers and `file_mem`. -/
structure Recorder where
  buf : UInt32 → List MemRef
  fileMem : List UInt8
  countMemRef : UInt32

def Recorder.init : Recorder := ⟨fun _ => [], [], 0⟩

/-- `BufferFull`: the buffer of `tid` is written out and emptied. -/
def Recorder.bufferFull (s : Recorder) (tid : UInt32) : Recorder :=
  { buf := Function.update s.buf tid []
    fileMem := s.fileMem ++ fwrite MemRef.bytes (s.buf tid)
    countMemRef := s.countMemRef + UInt32.ofNat (s.buf tid).length }

/-- An execution of an instrumented instruction, or a flush of one thread's buffer. -/
inductive Event where
  | exec (e : Exec)
  | bufferFull (tid : UInt32)
deriving DecidableEq, Repr

def Recorder.step (s : Recorder) : Event → Recorder
  | .exec e => { s with buf := Function.update s.buf e.tid (s.buf e.tid ++ recordsOf e) }
  | .bufferFull tid => s.bufferFull tid

/-- The recorder after a run. -/
def record (run : List Event) : Recorder := run.foldl Recorder.step Recorder.init

/-- The executions of a run, in their real order. -/
def execs (run : List Event) : List Exec :=
  run.filterMap fun
    | .exec e => some e
    | .bufferFull _ => none

/-- Every buffer has been flushed, as Pin does when a thread exits. -/
def Flushed (run : List Event) : Prop := ∀ t, (record run).buf t = []

/-- An instrumented instruction that makes either one memory read or one memory write. -/
def OneAccess (e : Exec) : Prop :=
  instruction true e.ins ≠ none ∧ e.ins.isMemoryWrite = !e.ins.isMemoryRead

instance (e : Exec) : Decidable (OneAccess e) := inferInstanceAs (Decidable (_ ∧ _))

/-- The access that an execution really makes. -/
def accessOf (e : Exec) : Trace :=
  if e.ins.isMemoryRead then ⟨e.tid.toNat, e.tsc.toNat, e.ins.address.toNat, e.readEa.toNat, opRead⟩
  else ⟨e.tid.toNat, e.tsc.toNat, e.ins.address.toNat, e.writeEa.toNat, opWrite⟩

/-- The accesses really made in a run. -/
def made (run : List Event) : List Trace := (execs run).map accessOf

/-- The analyser sees the run as it was: every `trace_list` is the thread's sequence of accesses
with the kind of each, and the candidates are the unserializable triples of the accesses really
made. -/
def Agrees (run : List Event) : Prop :=
  ∃ mt, loadMemTraces (record run).fileMem = .ok mt ∧
    (∀ a t, tracesOf mt a t = accesses (made run) a t) ∧
    (TimesIncrease (made run) → ∀ order : List ℕ, order.Perm mt.keys →
      ∃ cis, predictor order mt = .ok cis ∧ cis.Nodup ∧ ∀ c, c ∈ cis ↔ Violation (made run) c)

/-! ## Buffers keep each thread's order -/

/-- What has been flushed and what is still in a thread's buffer are its records in order. -/
def RecInv (recs : List MemRef) (s : Recorder) : Prop :=
  ∃ flushed, s.fileMem = memFile flushed ∧
    ∀ t, flushed.filter (·.tid = t) ++ s.buf t = recs.filter (·.tid = t)

theorem tid_recordsOf {e : Exec} {r : MemRef} (h : r ∈ recordsOf e) : r.tid = e.tid := by
  unfold recordsOf at h
  cases hfb : instruction true e.ins with
  | none => simp [hfb] at h
  | some fb =>
    rw [hfb] at h
    simp only [Option.map_some, Option.toList_some, List.mem_singleton] at h
    rw [h]
    rfl

theorem recInv_exec {recs : List MemRef} {s : Recorder} (h : RecInv recs s) (e : Exec) :
    RecInv (recs ++ recordsOf e) (s.step (.exec e)) := by
  obtain ⟨flushed, hfile, hbuf⟩ := h
  refine ⟨flushed, hfile, ?_⟩
  intro t
  have ht := hbuf t
  show flushed.filter (·.tid = t) ++ Function.update s.buf e.tid (s.buf e.tid ++ recordsOf e) t = _
  rw [List.filter_append, ← ht, filter_thread MemRef.tid (fun r hr => tid_recordsOf hr)]
  by_cases h1 : t = e.tid
  · subst h1
    rw [Function.update_self, if_pos rfl, List.append_assoc]
  · rw [Function.update_of_ne h1, if_neg h1, List.append_nil]

theorem recInv_bufferFull {recs : List MemRef} {s : Recorder} (h : RecInv recs s) (tid : UInt32)
    (hown : ∀ r ∈ s.buf tid, r.tid = tid) : RecInv recs (s.step (.bufferFull tid)) := by
  obtain ⟨flushed, hfile, hbuf⟩ := h
  refine ⟨flushed ++ s.buf tid, ?_, ?_⟩
  · show s.fileMem ++ fwrite MemRef.bytes (s.buf tid) = memFile (flushed ++ s.buf tid)
    rw [hfile, memFile, memFile, fwrite_append]
  · intro t
    show (flushed ++ s.buf tid).filter (·.tid = t) ++ Function.update s.buf tid [] t = _
    rw [List.filter_append, ← hbuf t, filter_thread MemRef.tid hown]
    by_cases h1 : t = tid
    · subst h1
      rw [Function.update_self, if_pos rfl, List.append_nil]
    · rw [Function.update_of_ne h1, if_neg h1, List.append_nil]

theorem own_buf {recs : List MemRef} {s : Recorder} (h : RecInv recs s) (t : UInt32) :
    ∀ r ∈ s.buf t, r.tid = t := by
  obtain ⟨flushed, -, hbuf⟩ := h
  intro r hr
  have hmem : r ∈ recs.filter (·.tid = t) := by
    rw [← hbuf t]
    exact List.mem_append_right _ hr
  simpa using (List.mem_filter.mp hmem).2

/-- **Run lemma**: the invariant holds after every run. -/
theorem recInv_record (run : List Event) : RecInv ((execs run).flatMap recordsOf) (record run) := by
  induction run using List.reverseRecOn with
  | nil => exact ⟨[], rfl, fun t => rfl⟩
  | append_singleton run ev ih =>
    have hstep : record (run ++ [ev]) = (record run).step ev := by simp [record]
    rw [hstep]
    cases ev with
    | exec e =>
      have hex : (execs (run ++ [.exec e])).flatMap recordsOf =
          (execs run).flatMap recordsOf ++ recordsOf e := by simp [execs]
      rw [hex]
      exact recInv_exec ih e
    | bufferFull tid =>
      have hex : execs (run ++ [.bufferFull tid]) = execs run := by simp [execs]
      rw [hex]
      exact recInv_bufferFull ih tid (own_buf ih tid)

/-- After a run whose buffers are all flushed, the file is a rescheduling of the records made. -/
theorem recorded_keepsOrder {run : List Event} (h : Flushed run) :
    ∃ flushed, (record run).fileMem = memFile flushed ∧
      KeepsOrder MemRef.tid ((execs run).flatMap recordsOf) flushed := by
  obtain ⟨flushed, hfile, hbuf⟩ := recInv_record run
  refine ⟨flushed, hfile, ?_⟩
  intro t
  have ht := hbuf t
  rwa [h t, List.append_nil] at ht

/-- A flush of some threads' buffers empties these. -/
theorem buf_bufferFull (s : Recorder) (tids : List UInt32) (t : UInt32) :
    ((tids.map Event.bufferFull).foldl Recorder.step s).buf t = if t ∈ tids then [] else s.buf t := by
  induction tids generalizing s with
  | nil => rfl
  | cons tid tids ih =>
    rw [List.map_cons, List.foldl_cons, ih]
    show (if t ∈ tids then [] else Function.update s.buf tid [] t) = _
    by_cases h1 : t = tid
    · rw [h1, Function.update_self, if_pos List.mem_cons_self, ite_self]
    · rw [Function.update_of_ne h1]
      simp only [List.mem_cons, h1, false_or]

/-- A run is flushed when the buffers of all its threads are flushed at the end. -/
theorem flushed_append {run : List Event} {tids : List UInt32} (h : ∀ e ∈ execs run, e.tid ∈ tids) :
    Flushed (run ++ tids.map Event.bufferFull) := by
  intro t
  rw [record, List.foldl_append, buf_bufferFull]
  split_ifs with ht
  · rfl
  · obtain ⟨flushed, -, hbuf⟩ := recInv_record run
    have hnone : ((execs run).flatMap recordsOf).filter (·.tid = t) = [] := by
      rw [List.filter_eq_nil_iff]
      intro r hr
      obtain ⟨e, he, hre⟩ := List.mem_flatMap.mp hr
      rw [decide_eq_true_iff, tid_recordsOf hre]
      rintro rfl
      exact ht (h e he)
    have hempty := hbuf t
    rw [hnone] at hempty
    exact (List.append_eq_nil_iff.mp hempty).2

/-! ## What the analyser reads -/

/-- A read taken for a write and a write for a read. -/
def invertOp (x : Trace) : Trace := { x with op := if x.op = opRead then opWrite else opRead }

/-- One access gives one record, with the op inverted. -/
theorem recordsOf_eq {e : Exec} (h : OneAccess e) :
    ∃ r, recordsOf e = [r] ∧ traceOf r = invertOp (accessOf e) := by
  obtain ⟨hins, hkind⟩ := h
  have hfb := instruction_of_ne_none hins
  unfold recordsOf accessOf
  cases hr : e.ins.isMemoryRead with
  | true =>
    rw [hfb, hr]
    exact ⟨_, rfl, by simp [traceOf, fill, invertOp, opRead, opWrite]⟩
  | false =>
    rw [hr] at hkind
    rw [hfb, hr, hkind]
    exact ⟨_, rfl, by simp [traceOf, fill, invertOp, opRead, opWrite]⟩

theorem map_traceOf_recordsOf {es : List Exec} (h : ∀ e ∈ es, OneAccess e) :
    (es.flatMap recordsOf).map traceOf = (es.map accessOf).map invertOp := by
  induction es with
  | nil => rfl
  | cons e es ih =>
    obtain ⟨r, hr, ht⟩ := recordsOf_eq (h e (by simp))
    have hrest := ih (fun e' he' => h e' (by simp [he']))
    rw [List.flatMap_cons, hr, List.map_append, hrest]
    simp [ht]

theorem accesses_invertOp (l : List Trace) (a t : ℕ) :
    accesses (l.map invertOp) a t = (accesses l a t).map invertOp := by
  rw [accesses_eq_filter, accesses_eq_filter, List.filter_map]
  rfl

theorem KeepsOrder.accesses {l l' : List Trace} (h : KeepsOrder Trace.tid l l') (a t : ℕ) :
    Offline.accesses l' a t = Offline.accesses l a t := by
  rw [accesses_eq_filter, accesses_eq_filter]
  refine h.filter_eq (t := t) fun x hx => ?_
  simp only [decide_eq_true_eq] at hx
  exact hx.2

/-- **What is recorded**: after any run whose buffers are flushed, in any order, every `trace_list`
is the thread's sequence of accesses to the address, in order, with the same ip and time, and with
the op inverted. -/
theorem tracesOf_recorded {run : List Event} (hone : ∀ e ∈ execs run, OneAccess e)
    (hfl : Flushed run) :
    ∃ mt, loadMemTraces (record run).fileMem = .ok mt ∧
      (∀ a t, tracesOf mt a t = (accesses (made run) a t).map invertOp) := by
  obtain ⟨flushed, hfile, hkeep⟩ := recorded_keepsOrder hfl
  obtain ⟨mt, hload, hrep⟩ := loadMemTraces_rep flushed
  refine ⟨mt, by rw [hfile, hload], ?_⟩
  intro a t
  have hk : KeepsOrder Trace.tid (((execs run).flatMap recordsOf).map traceOf)
      (flushed.map traceOf) :=
    hkeep.map (g := UInt32.toNat) (fun _ _ => UInt32.toNat_inj.mp) (fun _ => rfl)
  rw [tracesOf_rep hrep, KeepsOrder.accesses hk, map_traceOf_recordsOf hone, accesses_invertOp]
  rfl

theorem invertOp_ne (x : Trace) : invertOp x ≠ x := by
  intro h
  have hop := congrArg Trace.op h
  by_cases hr : x.op = opRead
  · simp [invertOp, hr, opRead, opWrite] at hop
  · exact hr (by simpa [invertOp, hr] using hop.symm)

theorem mem_accesses_self {l : List Trace} {x : Trace} (h : x ∈ l) : x ∈ accesses l x.addr x.tid :=
  mem_ofTid.mpr ⟨mem_ofAddr.mpr ⟨h, rfl⟩, rfl⟩

/-- With an access made, some op is wrong. -/
theorem not_agrees {run : List Event} (hone : ∀ e ∈ execs run, OneAccess e) (hfl : Flushed run)
    (hne : execs run ≠ []) : ¬ Agrees run := by
  rintro ⟨mt, hload, htr, -⟩
  obtain ⟨mt', hload', htr'⟩ := tracesOf_recorded hone hfl
  rw [hload, Except.ok.injEq] at hload'
  subst hload'
  obtain ⟨e, he⟩ := List.exists_mem_of_ne_nil _ hne
  have hmem : accessOf e ∈ accesses (made run) (accessOf e).addr (accessOf e).tid :=
    mem_accesses_self (List.mem_map_of_mem he)
  obtain ⟨x, xs, hx⟩ := List.exists_cons_of_ne_nil (List.ne_nil_of_mem hmem)
  have heq := (htr (accessOf e).addr (accessOf e).tid).symm.trans (htr' _ _)
  rw [hx, List.map_cons, List.cons.injEq] at heq
  exact invertOp_ne x heq.1.symm

theorem agrees_of_no_exec {run : List Event} (hfl : Flushed run) (hnil : execs run = []) :
    Agrees run := by
  obtain ⟨flushed, hfile, hkeep⟩ := recorded_keepsOrder hfl
  rw [hnil, List.flatMap_nil] at hkeep
  have hf : flushed = [] := hkeep.perm.eq_nil
  have hmade : made run = [] := by rw [made, hnil, List.map_nil]
  obtain ⟨mt, hload, hrep⟩ := loadMemTraces_rep flushed
  rw [hf, List.map_nil] at hrep
  refine ⟨mt, by rw [hfile, hload], ?_, ?_⟩
  · intro a t
    rw [hmade]
    exact tracesOf_rep hrep a t
  · intro htime order horder
    rw [hmade] at htime ⊢
    exact predictor_spec hrep (fun x hx => absurd hx (by simp)) htime horder

/-- **The recorder and the analyser disagree on what an access was**: they agree on a run of
instructions with one access each only when it makes no access at all. -/
theorem agrees_iff (run : List Event) (hone : ∀ e ∈ execs run, OneAccess e) (hfl : Flushed run) :
    Agrees run ↔ execs run = [] := by
  constructor
  · intro h
    by_contra hne
    exact not_agrees hone hfl hne h
  · exact agrees_of_no_exec hfl

/-- A load from `0x20` at `0x08048100`. -/
def loadIns : Ins := ⟨0x08048100, false, false, false, false, true, false⟩

/-- Thread 1 runs the load once and exits. -/
def loadRun : List Event := [.exec ⟨loadIns, 1, 5, 0x20, 0⟩, .bufferFull 1]

theorem oneAccess_loadRun : ∀ e ∈ execs loadRun, OneAccess e := by decide

theorem flushed_loadRun : Flushed loadRun := @flushed_append (loadRun.take 1) [1] (by decide)

/-- One read of one thread is loaded as a write. -/
theorem not_agrees_loadRun :
    (∀ e ∈ execs loadRun, OneAccess e) ∧ Flushed loadRun ∧ ¬ Agrees loadRun :=
  ⟨oneAccess_loadRun, flushed_loadRun, not_agrees oneAccess_loadRun flushed_loadRun (by decide)⟩

/-- A store to `0x20` at `0x08048104`. -/
def storeIns : Ins := ⟨0x08048104, false, false, false, false, false, true⟩

/-- Thread 1 loads and stores the word, and thread 2 stores it afterwards: a lost update if it had come in
between. -/
def updateRun : List Event :=
  [.exec ⟨loadIns, 1, 5, 0x20, 0⟩, .exec ⟨storeIns, 1, 6, 0, 0x20⟩, .exec ⟨storeIns, 2, 9, 0, 0x20⟩,
    .bufferFull 2, .bufferFull 1]

theorem oneAccess_updateRun : ∀ e ∈ execs updateRun, OneAccess e := by decide

theorem flushed_updateRun : Flushed updateRun := @flushed_append (updateRun.take 3) [2, 1] (by decide)

theorem agrees_iff_updateRun : (Agrees updateRun ↔ execs updateRun = []) ∧ ¬ Agrees updateRun := by
  have hiff := agrees_iff updateRun oneAccess_updateRun flushed_updateRun
  exact ⟨hiff, fun h => absurd (hiff.mp h) (by decide)⟩

end Monitor
end AVPredictor
