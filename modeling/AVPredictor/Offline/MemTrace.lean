import Mathlib.Data.List.AList
import Mathlib.Data.List.Induction
import AVPredictor.Base.Loops
import AVPredictor.Offline.Data

/-!
# AVPredictor.Offline.MemTrace — `load_mem_traces`

`mem_trace` maps an address to the threads that access it, and each thread to its accesses in log
order, with a tag that says which kinds occur.  `MemRep log mt` is its representation invariant:
what the nested dictionary holds for a log of records.  `memRep_storeTrace` is the step lemma (three
branches of the loop body) and `loadMemTraces_rep` the run lemma.  Nothing is assumed of the records
except, for the tag, that their ops are `READ` or `WRITE`; `mem_trace_rep` then reads the tag off the
stored accesses and back.
-/

namespace AVPredictor
namespace Offline

open Base

/-- `tid_dict`; `optag` is 0 for R, 1 for W, 2 for R&W. -/
structure TidDict where
  optag : ℕ
  traceList : List Trace
deriving DecidableEq, Repr

/-- `addr_dict`; its entries with a thread id as key are `tids`. -/
structure AddrDict where
  threadNum : ℕ
  tidList : List ℕ
  tids : AList (fun _ : ℕ => TidDict)
deriving DecidableEq

/-- `mem_trace` -/
abbrev MemTrace := AList (fun _ : ℕ => AddrDict)

/-! ## The loop body -/

/-- The `tid_dict` of a thread's first access. -/
def newTidDict (trace : Trace) : TidDict :=
  { optag := if trace.op = opRead then 0 else 1
    traceList := [trace] }

/-- A further access of a known thread. -/
def TidDict.append (td : TidDict) (trace : Trace) : TidDict :=
  { optag :=
      if trace.op = opRead ∧ td.optag = 1 then 2
      else if trace.op = opWrite ∧ td.optag = 0 then 2
      else td.optag
    traceList := td.traceList ++ [trace] }

/-- An access to a known address. -/
def AddrDict.store (ad : AddrDict) (trace : Trace) : AddrDict :=
  match ad.tids.lookup trace.tid with
  | some td => { ad with tids := ad.tids.insert trace.tid (td.append trace) }
  | none =>
    { threadNum := ad.threadNum + 1
      tidList := ad.tidList ++ [trace.tid]
      tids := ad.tids.insert trace.tid (newTidDict trace) }

/-- The `addr_dict` of an address's first access. -/
def newAddrDict (trace : Trace) : AddrDict :=
  { threadNum := 1
    tidList := [trace.tid]
    tids := AList.singleton trace.tid (newTidDict trace) }

/-- One record put into `mem_trace`. -/
def storeTrace (memTrace : MemTrace) (trace : Trace) : MemTrace :=
  match memTrace.lookup trace.addr with
  | some ad => memTrace.insert trace.addr (ad.store trace)
  | none => memTrace.insert trace.addr (newAddrDict trace)

/-- `"@2IQ2I"` -/
def memFormat : List Scalar := [uint32, uint32, uint64, uint32, uint32]

/-- The loop body: unpack `ip,addr,time,tid,op` and store the trace. -/
def loadMemLine (memTrace : MemTrace) (line : List UInt8) : Except PyErr MemTrace := do
  match ← unpack memFormat line with
  | [ip, addr, time, tid, op] => .ok (storeTrace memTrace ⟨tid, time, ip, addr, op⟩)
  | _ => .error .structError

/-- `load_mem_traces` on the bytes of the file, from the empty `mem_trace`. -/
def loadMemTraces (file : List UInt8) : Except PyErr MemTrace :=
  (blocks 24 file).foldlM loadMemLine ∅

/-! ## What the loader sees -/

/-- The trace of a record. -/
def traceOf (r : MemRef) : Trace :=
  ⟨r.tid.toNat, r.ts.toNat, r.pc.toNat, r.addr.toNat, r.read.toNat⟩

/-- The memory log of a sequence of records. -/
def memFile (log : List MemRef) : List UInt8 := fwrite MemRef.bytes log

theorem loadMemLine_bytes (mt : MemTrace) (r : MemRef) :
    loadMemLine mt r.bytes = .ok (storeTrace mt (traceOf r)) := by
  have h : unpack memFormat r.bytes = .ok (r.members.map Prod.snd) := unpack_pack r.members_lt
  rw [loadMemLine, h]
  rfl

/-- On a file of records the loader stores the records' traces, one by one. -/
theorem loadMemTraces_memFile (log : List MemRef) :
    loadMemTraces (memFile log) = .ok ((log.map traceOf).foldl storeTrace ∅) := by
  have hb : blocks 24 (memFile log) = log.map MemRef.bytes :=
    blocks_flatten (by decide) _ (by simp)
  rw [loadMemTraces, hb, List.foldl_map]
  exact foldlM_map_eq_ok loadMemLine_bytes log ∅

/-! ## The representation invariant -/

/-- The records of one address, in log order. -/
def ofAddr (log : List Trace) (a : ℕ) : List Trace := log.filter (·.addr = a)

/-- The records of one thread, in log order. -/
def ofTid (l : List Trace) (t : ℕ) : List Trace := l.filter (·.tid = t)

/-- The accesses of thread `t` to address `a`, in log order. -/
abbrev accesses (log : List Trace) (a t : ℕ) : List Trace := ofTid (ofAddr log a) t

/-- `trace_list` of an (address, thread), empty if there is none. -/
def tracesOf (mt : MemTrace) (a t : ℕ) : List Trace :=
  match mt.lookup a with
  | none => []
  | some ad =>
    match ad.tids.lookup t with
    | none => []
    | some td => td.traceList

/-- The tag tells which kinds of access occur. -/
def OptagOk (tag : ℕ) (l : List Trace) : Prop :=
  (tag = 0 ∧ ∀ x ∈ l, x.op = opRead) ∨ (tag = 1 ∧ ∀ x ∈ l, x.op = opWrite) ∨
    (tag = 2 ∧ (∃ x ∈ l, x.op = opRead) ∧ ∃ x ∈ l, x.op = opWrite)

/-- The ops of a log are `READ` or `WRITE`. -/
def OpsOk (l : List Trace) : Prop := ∀ x ∈ l, x.op = opRead ∨ x.op = opWrite

/-- `ad` represents the records `l` of its address. -/
structure AddrRep (l : List Trace) (ad : AddrDict) : Prop where
  tidList : ad.tidList = (l.map Trace.tid).eraseDups
  threadNum : ad.threadNum = ad.tidList.length
  traces : ∀ t, (ad.tids.lookup t).map TidDict.traceList =
    if ofTid l t = [] then none else some (ofTid l t)
  optag : OpsOk l → ∀ t td, ad.tids.lookup t = some td → OptagOk td.optag td.traceList

/-- `mt` represents `log`. -/
def MemRep (log : List Trace) (mt : MemTrace) : Prop :=
  ∀ a, match mt.lookup a with
    | none => ofAddr log a = []
    | some ad => ofAddr log a ≠ [] ∧ AddrRep (ofAddr log a) ad

@[simp] theorem ofTid_append (l : List Trace) (x : Trace) (t : ℕ) :
    ofTid (l ++ [x]) t = ofTid l t ++ if x.tid = t then [x] else [] := by
  by_cases h : x.tid = t <;> simp [ofTid, h]

@[simp] theorem ofAddr_append (l : List Trace) (x : Trace) (a : ℕ) :
    ofAddr (l ++ [x]) a = ofAddr l a ++ if x.addr = a then [x] else [] := by
  by_cases h : x.addr = a <;> simp [ofAddr, h]

theorem mem_ofTid {l : List Trace} {t : ℕ} {x : Trace} : x ∈ ofTid l t ↔ x ∈ l ∧ x.tid = t := by
  simp [ofTid]

theorem mem_ofAddr {l : List Trace} {a : ℕ} {x : Trace} : x ∈ ofAddr l a ↔ x ∈ l ∧ x.addr = a := by
  simp [ofAddr]

theorem ofTid_eq_nil {l : List Trace} {t : ℕ} : ofTid l t = [] ↔ t ∉ l.map Trace.tid := by
  simp [ofTid, List.filter_eq_nil_iff]

theorem accesses_eq_filter (log : List Trace) (a t : ℕ) :
    accesses log a t = log.filter (fun x => x.addr = a ∧ x.tid = t) := by
  simp [accesses, ofTid, ofAddr, List.filter_filter, and_comm]

/-! ### The tag as a transition system -/

theorem optagOk_new {x : Trace} (hx : x.op = opRead ∨ x.op = opWrite) :
    OptagOk (newTidDict x).optag [x] := by
  rcases hx with h | h
  · exact Or.inl ⟨by simp [newTidDict, h], by simpa using h⟩
  · exact Or.inr (Or.inl ⟨by simp [newTidDict, h, opRead, opWrite], by simpa using h⟩)

theorem optagOk_append {td : TidDict} {x : Trace} (hx : x.op = opRead ∨ x.op = opWrite)
    (hne : td.traceList ≠ []) (h : OptagOk td.optag td.traceList) :
    OptagOk (td.append x).optag (td.append x).traceList := by
  have hrw : opWrite ≠ opRead := by decide
  obtain ⟨y, hy⟩ := List.exists_mem_of_ne_nil _ hne
  have hall : ∀ o, (∀ z ∈ td.traceList, z.op = o) → x.op = o →
      ∀ z ∈ td.traceList ++ [x], z.op = o := by
    intro o ho hxo z hz
    rcases List.mem_append.mp hz with hz | hz
    · exact ho z hz
    · rw [List.mem_singleton.mp hz]; exact hxo
  have hleft : ∀ z ∈ td.traceList, z ∈ td.traceList ++ [x] := fun z hz => List.mem_append_left _ hz
  have hlast : x ∈ td.traceList ++ [x] := by simp
  unfold TidDict.append
  rcases h with ⟨ht, ho⟩ | ⟨ht, ho⟩ | ⟨ht, ⟨r, hr, hro⟩, w, hw, hwo⟩
  · -- only reads so far
    rcases hx with hx | hx
    · exact Or.inl ⟨by simp [ht, hx, hrw.symm], hall _ ho hx⟩
    · exact Or.inr (Or.inr ⟨by simp [ht, hx], ⟨y, hleft y hy, ho y hy⟩, x, hlast, hx⟩)
  · -- only writes so far
    rcases hx with hx | hx
    · exact Or.inr (Or.inr ⟨by simp [ht, hx], ⟨x, hlast, hx⟩, y, hleft y hy, ho y hy⟩)
    · exact Or.inr (Or.inl ⟨by simp [ht, hx, hrw], hall _ ho hx⟩)
  · -- both kinds already
    exact Or.inr (Or.inr ⟨by simp [ht], ⟨r, hleft r hr, hro⟩, w, hleft w hw, hwo⟩)

/-! ### One record -/

theorem AddrRep.ne_nil {l : List Trace} {ad : AddrDict} (h : AddrRep l ad) {t : ℕ} {td : TidDict}
    (ht : ad.tids.lookup t = some td) : ofTid l t ≠ [] ∧ td.traceList = ofTid l t := by
  have h1 := h.traces t
  rw [ht] at h1
  split_ifs at h1 with hnil
  · simp at h1
  · exact ⟨hnil, by simpa using h1⟩

theorem AddrRep.lookup_none {l : List Trace} {ad : AddrDict} (h : AddrRep l ad) {t : ℕ} :
    ad.tids.lookup t = none ↔ t ∉ l.map Trace.tid := by
  have h1 := h.traces t
  rw [← ofTid_eq_nil]
  constructor
  · intro hn
    rw [hn] at h1
    by_contra hc
    rw [if_neg hc] at h1
    simp at h1
  · intro hn
    rw [if_pos hn] at h1
    simpa using h1

theorem opsOk_left {l : List Trace} {x : Trace} (h : OpsOk (l ++ [x])) : OpsOk l :=
  fun y hy => h y (List.mem_append_left _ hy)

theorem opsOk_last {l : List Trace} {x : Trace} (h : OpsOk (l ++ [x])) :
    x.op = opRead ∨ x.op = opWrite := h x (by simp)

theorem lookup_newAddrDict (x : Trace) (t : ℕ) :
    (newAddrDict x).tids.lookup t = if t = x.tid then some (newTidDict x) else none := by
  unfold newAddrDict
  rw [← AList.insert_empty]
  by_cases h : t = x.tid
  · rw [h, AList.lookup_insert, if_pos rfl]
  · rw [AList.lookup_insert_ne h, AList.lookup_empty, if_neg h]

/-- The first access to an address. -/
theorem addrRep_new (x : Trace) : AddrRep [x] (newAddrDict x) where
  tidList := by simp [newAddrDict, List.eraseDups_cons]
  threadNum := rfl
  traces t := by
    rw [lookup_newAddrDict]
    by_cases h : t = x.tid
    · simp [h, ofTid, newTidDict]
    · simp [h, ofTid, Ne.symm h]
  optag hops t td ht := by
    rw [lookup_newAddrDict] at ht
    split_ifs at ht
    rw [Option.some.injEq] at ht
    subst ht
    exact optagOk_new (hops x (by simp))

/-- A further access of a known thread. -/
theorem addrRep_store_some {l : List Trace} {ad : AddrDict} (h : AddrRep l ad) (x : Trace)
    {td : TidDict} (hx : ad.tids.lookup x.tid = some td) :
    AddrRep (l ++ [x]) { ad with tids := ad.tids.insert x.tid (td.append x) } where
  tidList := by
    have hmem : x.tid ∈ l.map Trace.tid := by
      by_contra hc
      rw [h.lookup_none.mpr hc] at hx
      simp at hx
    rw [List.map_append, List.map_singleton, eraseDups_concat, if_pos hmem, List.append_nil]
    exact h.tidList
  threadNum := h.threadNum
  traces t := by
    by_cases ht : t = x.tid
    · subst ht
      simp [TidDict.append, (h.ne_nil hx).2]
    · rw [AList.lookup_insert_ne ht, h.traces t]
      simp [Ne.symm ht]
  optag hops t td' ht' := by
    by_cases ht : t = x.tid
    · subst ht
      rw [AList.lookup_insert, Option.some.injEq] at ht'
      subst ht'
      have hne := h.ne_nil hx
      exact optagOk_append (opsOk_last hops) (hne.2 ▸ hne.1) (h.optag (opsOk_left hops) _ _ hx)
    · rw [AList.lookup_insert_ne ht] at ht'
      exact h.optag (opsOk_left hops) _ _ ht'

/-- The first access of a thread to a known address. -/
theorem addrRep_store_none {l : List Trace} {ad : AddrDict} (h : AddrRep l ad) (x : Trace)
    (hx : ad.tids.lookup x.tid = none) :
    AddrRep (l ++ [x])
      { threadNum := ad.threadNum + 1
        tidList := ad.tidList ++ [x.tid]
        tids := ad.tids.insert x.tid (newTidDict x) } where
  tidList := by
    rw [List.map_append, List.map_singleton, eraseDups_concat, if_neg (h.lookup_none.mp hx),
      h.tidList]
  threadNum := by simp [h.threadNum]
  traces t := by
    by_cases ht : t = x.tid
    · subst ht
      simp [newTidDict, ofTid_eq_nil.mpr (h.lookup_none.mp hx)]
    · rw [AList.lookup_insert_ne ht, h.traces t]
      simp [Ne.symm ht]
  optag hops t td' ht' := by
    by_cases ht : t = x.tid
    · subst ht
      rw [AList.lookup_insert, Option.some.injEq] at ht'
      subst ht'
      exact optagOk_new (opsOk_last hops)
    · rw [AList.lookup_insert_ne ht] at ht'
      exact h.optag (opsOk_left hops) _ _ ht'

theorem addrRep_store {l : List Trace} {ad : AddrDict} (h : AddrRep l ad) (x : Trace) :
    AddrRep (l ++ [x]) (ad.store x) := by
  unfold AddrDict.store
  cases hx : ad.tids.lookup x.tid with
  | none => exact addrRep_store_none h x hx
  | some td => exact addrRep_store_some h x hx

theorem tracesOf_rep {log : List Trace} {mt : MemTrace} (h : MemRep log mt) (a t : ℕ) :
    tracesOf mt a t = accesses log a t := by
  have ha := h a
  unfold tracesOf accesses
  cases hl : mt.lookup a with
  | none =>
    rw [hl] at ha
    simp only at ha
    rw [ha]
    rfl
  | some ad =>
    rw [hl] at ha
    cases ht : ad.tids.lookup t with
    | none =>
      simp only [ht]
      exact (ofTid_eq_nil.mpr (ha.2.lookup_none.mp ht)).symm
    | some td =>
      simp only [ht]
      exact (ha.2.ne_nil ht).2

/-- **Step lemma**: storing one more record represents the longer log. -/
theorem memRep_storeTrace {log : List Trace} {mt : MemTrace} (h : MemRep log mt) (x : Trace) :
    MemRep (log ++ [x]) (storeTrace mt x) := by
  intro a
  have ha := h a
  rw [ofAddr_append]
  by_cases hax : a = x.addr
  · subst hax
    unfold storeTrace
    cases hl : mt.lookup x.addr with
    | none =>
      rw [hl] at ha
      simp only at ha
      simp only [AList.lookup_insert, ha, if_true, List.nil_append]
      exact ⟨by simp, addrRep_new x⟩
    | some ad =>
      rw [hl] at ha
      simp only [AList.lookup_insert, if_true]
      exact ⟨by simp, addrRep_store ha.2 x⟩
  · have hlook : (storeTrace mt x).lookup a = mt.lookup a := by
      unfold storeTrace
      cases mt.lookup x.addr <;> exact AList.lookup_insert_ne hax
    rw [hlook, if_neg (Ne.symm hax), List.append_nil]
    exact ha

/-- **Run lemma**: after any log, `mem_trace` represents it. -/
theorem memRep_foldl (log : List Trace) : MemRep log (log.foldl storeTrace ∅) := by
  induction log using List.reverseRecOn with
  | nil => intro a; simp [ofAddr]
  | append_singleton log x ih =>
    rw [List.foldl_append]
    exact memRep_storeTrace ih x

/-- `load_mem_traces` raises nothing on a file of records and represents them. -/
theorem loadMemTraces_rep (log : List MemRef) :
    ∃ mt, loadMemTraces (memFile log) = .ok mt ∧ MemRep (log.map traceOf) mt :=
  ⟨_, loadMemTraces_memFile log, memRep_foldl _⟩

theorem memRep_of_load {log : List MemRef} {mt : MemTrace} (hload : loadMemTraces (memFile log) = .ok mt) :
    MemRep (log.map traceOf) mt := by
  rw [loadMemTraces_memFile, Except.ok.injEq] at hload
  rw [← hload]
  exact memRep_foldl _

/-! ## What is stored -/

/-- What a `tid_dict` says of the accesses `l` of its thread to its address. -/
structure TidDictOk (l : List Trace) (td : TidDict) : Prop where
  traceList : td.traceList = l
  nonempty : l ≠ []
  reads : td.optag = 0 ↔ ∀ x ∈ l, x.op = opRead
  writes : td.optag = 1 ↔ ∀ x ∈ l, x.op = opWrite
  both : td.optag = 2 ↔ (∃ x ∈ l, x.op = opRead) ∧ ∃ x ∈ l, x.op = opWrite

/-- What an `addr_dict` says of the accesses `l` to its address: its threads are those with an
access, each listed once, in the order of their first accesses. -/
structure AddrDictOk (l : List Trace) (ad : AddrDict) : Prop where
  first_appearance : ad.tidList = (l.map Trace.tid).eraseDups
  nodup : ad.tidList.Nodup
  threadNum : ad.threadNum = ad.tidList.length
  mem_tidList : ∀ t, t ∈ ad.tidList ↔ ∃ x ∈ l, x.tid = t
  tids_none : ∀ t, ad.tids.lookup t = none ↔ t ∉ ad.tidList
  tids : ∀ t td, ad.tids.lookup t = some td → TidDictOk (ofTid l t) td

/-- No list of accesses fits two tags. -/
theorem OptagOk.tag_iff {tag : ℕ} {l : List Trace} (h : OptagOk tag l) (hne : l ≠ []) :
    (tag = 0 ↔ ∀ x ∈ l, x.op = opRead) ∧ (tag = 1 ↔ ∀ x ∈ l, x.op = opWrite) ∧
      (tag = 2 ↔ (∃ x ∈ l, x.op = opRead) ∧ ∃ x ∈ l, x.op = opWrite) := by
  obtain ⟨y, hy⟩ := List.exists_mem_of_ne_nil _ hne
  -- an access of each kind, or a list of one kind with an access of the other, is impossible
  have hclash : ∀ {x : Trace}, x.op = opRead → x.op ≠ opWrite := by
    intro x hr hw
    rw [hr] at hw
    exact absurd hw (by decide)
  rcases h with ⟨rfl, ho⟩ | ⟨rfl, ho⟩ | ⟨rfl, ⟨r, hr, hro⟩, w, hw, hwo⟩
  · refine ⟨by simpa using ho, ?_, ?_⟩
    · exact iff_of_false (by omega) fun hall => hclash (ho y hy) (hall y hy)
    · exact iff_of_false (by omega) fun ⟨_, w, hw, hwo⟩ => hclash (ho w hw) hwo
  · refine ⟨?_, by simpa using ho, ?_⟩
    · exact iff_of_false (by omega) fun hall => hclash (hall y hy) (ho y hy)
    · exact iff_of_false (by omega) fun ⟨⟨r, hr, hro⟩, _⟩ => hclash hro (ho r hr)
  · refine ⟨?_, ?_, iff_of_true rfl ⟨⟨r, hr, hro⟩, w, hw, hwo⟩⟩
    · exact iff_of_false (by omega) fun hall => hclash (hall w hw) hwo
    · exact iff_of_false (by omega) fun hall => hclash hro (hall r hr)

theorem AddrRep.ok {l : List Trace} {ad : AddrDict} (h : AddrRep l ad) (hops : OpsOk l) :
    AddrDictOk l ad where
  first_appearance := h.tidList
  nodup := by
    rw [h.tidList]
    exact nodup_eraseDups _
  threadNum := h.threadNum
  mem_tidList t := by
    rw [h.tidList, List.mem_eraseDups, List.mem_map]
  tids_none t := by
    rw [h.tidList, List.mem_eraseDups]
    exact h.lookup_none
  tids t td ht := by
    obtain ⟨hne, htraces⟩ := h.ne_nil ht
    have htag := h.optag hops t td ht
    rw [htraces] at htag
    obtain ⟨hreads, hwrites, hboth⟩ := htag.tag_iff hne
    exact ⟨htraces, hne, hreads, hwrites, hboth⟩

/-- **The representation invariant of `mem_trace`**: after any records of reads and writes, the
`trace_list` of every address and thread has their records in log order; an address has an
`addr_dict` when it has a record, with its threads, their number and their tags. -/
theorem mem_trace_rep {log : List MemRef} (hops : OpsOk (log.map traceOf)) :
    ∃ mt, loadMemTraces (memFile log) = .ok mt ∧
      (∀ a t, tracesOf mt a t = (log.map traceOf).filter fun x => x.addr = a ∧ x.tid = t) ∧
      (∀ a, mt.lookup a = none ↔ ofAddr (log.map traceOf) a = []) ∧
      ∀ a ad, mt.lookup a = some ad → AddrDictOk (ofAddr (log.map traceOf) a) ad := by
  obtain ⟨mt, hload, hrep⟩ := loadMemTraces_rep log
  refine ⟨mt, hload, ?_, ?_, ?_⟩
  · intro a t
    rw [tracesOf_rep hrep, accesses_eq_filter]
  · intro a
    have ha := hrep a
    cases hl : mt.lookup a with
    | none =>
      rw [hl] at ha
      exact iff_of_true rfl ha
    | some ad =>
      rw [hl] at ha
      exact iff_of_false (by simp) ha.1
  · intro a ad had
    have ha := hrep a
    rw [had] at ha
    refine ha.2.ok ?_
    intro x hx
    exact hops x (mem_ofAddr.mp hx).1

/-- Two threads at one word, thread 1 with both kinds of access. -/
def mixedLog : List MemRef := [⟨10, 64, 1, 2, 0⟩, ⟨11, 64, 5, 1, 1⟩, ⟨12, 64, 6, 1, 0⟩, ⟨13, 64, 7, 2, 0⟩]

theorem mem_trace_rep_mixedLog :
    ∃ mt, loadMemTraces (memFile mixedLog) = .ok mt ∧
      (∀ a t, tracesOf mt a t = (mixedLog.map traceOf).filter fun x => x.addr = a ∧ x.tid = t) ∧
      (∀ a, mt.lookup a = none ↔ ofAddr (mixedLog.map traceOf) a = []) ∧
      ∀ a ad, mt.lookup a = some ad → AddrDictOk (ofAddr (mixedLog.map traceOf) a) ad :=
  mem_trace_rep (by unfold OpsOk; decide)

end Offline
end AVPredictor
