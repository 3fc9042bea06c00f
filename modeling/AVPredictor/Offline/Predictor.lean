import AVPredictor.Base.Loops
import AVPredictor.Offline.MemTrace

/-!
# AVPredictor.Offline.Predictor — `find_ci_from_thread_pair` and `predictor`

The predictor lists candidate interleavings `(first, second, inter)`: two consecutive accesses of
one thread to an address and one access of another thread that did not fall between them but would
make the three unserializable if it did.  `Violation log c` says when `c` is such a triple of the
log.

* `findCiFromThreadPair_eq`: on the traces of two threads the early exits and the copied branches
  compute `scan l0 l1 ++ scan l1 l0`.
* `predictor_eq`: the whole predictor is a `flatMap` over addresses and thread pairs.
* `mem_predictor` and `nodup_predictor` read it off as `Violation`; `predictor_exact` puts them
  together.
-/

namespace AVPredictor
namespace Offline

open Base

/-! ## The code -/

/-- `find_write_trace` -/
def findWriteTrace (tlist : List Trace) (time1 time2 : ℕ) : Except PyErr (List Trace) :=
  if time1 < time2 then
    .ok (tlist.filter fun it =>
      if it.op = opRead then false
      else if it.time > time1 ∧ it.time < time2 then false
      else true)
  else .error .assertionError

/-- `find_read_trace` -/
def findReadTrace (tlist : List Trace) (time1 time2 : ℕ) : Except PyErr (List Trace) :=
  if time1 < time2 then
    .ok (tlist.filter fun it =>
      if it.op = opWrite then false
      else if it.time > time1 ∧ it.time < time2 then false
      else true)
  else .error .assertionError

/-- `for it in ret_list: ci_list.append(ci)` -/
def appendCis (first second : Trace) (retList : List Trace) : List CI :=
  retList.map fun it => { first := first, second := second, inter := it }

/-- The body of the loop over `tlist[i]`, `tlist[i+1]`: the candidates it appends to `ci_list`. -/
def findCiOfNext (tlist : List Trace) (first second : Trace) : Except PyErr (List CI) :=
  if first.op = opRead then
    if second.op = opRead then do
      let retList ← findWriteTrace tlist first.time second.time
      .ok (appendCis first second retList)
    else if second.op = opWrite then do
      let retList ← findWriteTrace tlist first.time second.time
      .ok (appendCis first second retList)
    else .ok []
  else if first.op = opWrite then
    if second.op = opRead then do
      let retList ← findWriteTrace tlist first.time second.time
      .ok (appendCis first second retList)
    else if second.op = opWrite then do
      let retList ← findReadTrace tlist first.time second.time
      .ok (appendCis first second retList)
    else .ok []
  else .ok []

/-- `if l >= 2: for i in range(l-1)`.  The source writes this loop twice, with the two lists
switched. -/
def findCiDirected (tlist tlistInter : List Trace) : Except PyErr (List CI) :=
  if tlist.length ≥ 2 then
    appendAll (fun p => findCiOfNext tlistInter p.1 p.2) (consecutive tlist)
  else .ok []

/-- `find_ci_from_thread_pair` -/
def findCiFromThreadPair (d0 d1 : TidDict) : Except PyErr (List CI) :=
  if d0.optag = 0 ∧ d1.optag = 0 then .ok []
  else if d0.optag = 1 ∧ d1.optag = 1 then .ok []
  else if d0.traceList.length + d1.traceList.length ≤ 2 then .ok []
  else do
    let cis0 ← findCiDirected d0.traceList d1.traceList
    let cis1 ← findCiDirected d1.traceList d0.traceList
    .ok (cis0 ++ cis1)

/-- `mem_trace[addr][tid]` -/
def AddrDict.tidDict (ad : AddrDict) (tid : ℕ) : Except PyErr TidDict :=
  match ad.tids.lookup tid with
  | some td => .ok td
  | none => .error .keyError

/-- `for i in range(l): for j in range(i+1,l)` over `tid_list`. -/
def pairLoop (ad : AddrDict) : List ℕ → Except PyErr (List CI)
  | [] => .ok []
  | t :: ts => do
    let d0 ← ad.tidDict t
    let cis ← appendAll (fun t' => do findCiFromThreadPair d0 (← ad.tidDict t')) ts
    let rest ← pairLoop ad ts
    .ok (cis ++ rest)

/-- The body of `predictor`'s loop for one address. -/
def predictAddr (ad : AddrDict) : Except PyErr (List CI) :=
  if ad.threadNum < 2 then .ok []
  else
    match ad.tidList with
    | [] => .error .assertionError
    | [_] => .error .assertionError
    | [t0, t1] => do
      let d0 ← ad.tidDict t0
      let d1 ← ad.tidDict t1
      findCiFromThreadPair d0 d1
    | tidList => pairLoop ad tidList

/-- `predictor`, with `order` the order in which `for addr in mem_trace` meets the keys: the final
`ci_list`. -/
def predictor (order : List ℕ) (memTrace : MemTrace) : Except PyErr (List CI) :=
  appendAll (fun addr =>
    match memTrace.lookup addr with
    | some ad => predictAddr ad
    | none => .error .keyError) order

/-! ## The triples it is about -/

/-- The patterns R-W-R, R-W-W, W-W-R and W-R-W of the ops of first, inter and second. -/
def Unserializable (o₁ o o₂ : ℕ) : Prop :=
  (o₁ = opRead ∧ o = opWrite ∧ o₂ = opRead) ∨ (o₁ = opRead ∧ o = opWrite ∧ o₂ = opWrite) ∨
    (o₁ = opWrite ∧ o = opWrite ∧ o₂ = opRead) ∨ (o₁ = opWrite ∧ o = opRead ∧ o₂ = opWrite)

instance (o₁ o o₂ : ℕ) : Decidable (Unserializable o₁ o o₂) := by
  unfold Unserializable; infer_instance

/-- `b` is the next access of `a`'s thread to `a`'s address. -/
def NextAccess (log : List Trace) (a b : Trace) : Prop :=
  ∃ l₁ l₂ l₃, log = l₁ ++ a :: (l₂ ++ b :: l₃) ∧ b.addr = a.addr ∧ b.tid = a.tid ∧
    ∀ x ∈ l₂, ¬ (x.addr = a.addr ∧ x.tid = a.tid)

/-- `c` is a possible atomicity violation of the log. -/
structure Violation (log : List Trace) (c : CI) : Prop where
  next : NextAccess log c.first c.second
  mem : c.inter ∈ log
  addr : c.inter.addr = c.first.addr
  tid : c.inter.tid ≠ c.first.tid
  outside : ¬ (c.first.time < c.inter.time ∧ c.inter.time < c.second.time)
  pattern : Unserializable c.first.op c.inter.op c.second.op

/-- The times of a log strictly increase within each (address, thread). -/
def TimesIncrease (log : List Trace) : Prop :=
  log.Pairwise fun a b => a.addr = b.addr → a.tid = b.tid → a.time < b.time

/-! ## One pair of threads -/

/-- `it` would be unserializable between `first` and `second`, and was not there. -/
def Completes (first second it : Trace) : Prop :=
  ¬ (first.time < it.time ∧ it.time < second.time) ∧ Unserializable first.op it.op second.op

instance (first second it : Trace) : Decidable (Completes first second it) := by
  unfold Completes; infer_instance

/-- The candidates with `first` and `second` in `l0` and `inter` in `l1`. -/
def scan (l0 l1 : List Trace) : List CI :=
  (consecutive l0).flatMap fun p => appendCis p.1 p.2 (l1.filter (Completes p.1 p.2 ·))

theorem opWrite_ne_opRead : opWrite ≠ opRead := by decide

theorem findWriteTrace_eq {tlist : List Trace} {time1 time2 : ℕ} (hlt : time1 < time2)
    (hops : OpsOk tlist) :
    findWriteTrace tlist time1 time2 = .ok (tlist.filter fun it =>
      ¬ (time1 < it.time ∧ it.time < time2) ∧ it.op = opWrite) := by
  rw [findWriteTrace, if_pos hlt]
  congr 1
  refine List.filter_congr fun it hit => ?_
  rcases hops it hit with ho | ho
  · simp [ho, opWrite_ne_opRead.symm]
  · by_cases hin : time1 < it.time ∧ it.time < time2 <;> simp [ho, hin, opWrite_ne_opRead]

theorem findReadTrace_eq {tlist : List Trace} {time1 time2 : ℕ} (hlt : time1 < time2)
    (hops : OpsOk tlist) :
    findReadTrace tlist time1 time2 = .ok (tlist.filter fun it =>
      ¬ (time1 < it.time ∧ it.time < time2) ∧ it.op = opRead) := by
  rw [findReadTrace, if_pos hlt]
  congr 1
  refine List.filter_congr fun it hit => ?_
  rcases hops it hit with ho | ho
  · by_cases hin : time1 < it.time ∧ it.time < time2 <;> simp [ho, hin, opWrite_ne_opRead.symm]
  · simp [ho, opWrite_ne_opRead]

/-- The four branches of the body filter by `Completes`. -/
theorem findCiOfNext_eq {tlist : List Trace} {first second : Trace} (hlt : first.time < second.time)
    (h1 : first.op = opRead ∨ first.op = opWrite) (h2 : second.op = opRead ∨ second.op = opWrite)
    (hops : OpsOk tlist) :
    findCiOfNext tlist first second =
      .ok (appendCis first second (tlist.filter (Completes first second ·))) := by
  unfold findCiOfNext Completes
  rw [findWriteTrace_eq hlt hops, findReadTrace_eq hlt hops]
  rcases h1 with h1 | h1 <;> rcases h2 with h2 | h2 <;>
    simp [h1, h2, bind, Except.bind, Unserializable, opWrite_ne_opRead, opWrite_ne_opRead.symm]

theorem findCiDirected_eq {l0 l1 : List Trace} (h0 : l0.Pairwise (·.time < ·.time)) (ho0 : OpsOk l0)
    (ho1 : OpsOk l1) : findCiDirected l0 l1 = .ok (scan l0 l1) := by
  have hbody : ∀ p ∈ consecutive l0, findCiOfNext l1 p.1 p.2 =
      .ok (appendCis p.1 p.2 (l1.filter (Completes p.1 p.2 ·))) := fun p hp =>
    findCiOfNext_eq (rel_of_consecutive h0 hp) (ho0 _ (fst_mem_of_consecutive hp))
      (ho0 _ (snd_mem_of_consecutive hp)) ho1
  unfold findCiDirected
  split_ifs with hl
  · exact appendAll_eq_ok hbody
  · rw [scan, consecutive_eq_nil.mpr (by omega)]
    rfl

theorem scan_eq_nil {l0 l1 : List Trace}
    (h : ∀ p ∈ consecutive l0, ∀ it ∈ l1, ¬ Unserializable p.1.op it.op p.2.op) : scan l0 l1 = [] := by
  refine List.flatMap_eq_nil_iff.mpr fun p hp => ?_
  have hnil : l1.filter (Completes p.1 p.2 ·) = [] := by
    refine List.filter_eq_nil_iff.mpr fun it hit => ?_
    simpa [Completes] using fun _ => h p hp it hit
  rw [hnil]
  rfl

/-- Accesses of one kind only make no candidate. -/
theorem scan_eq_nil_of_ops {l0 l1 : List Trace} {o : ℕ} (h0 : ∀ x ∈ l0, x.op = o)
    (h1 : ∀ x ∈ l1, x.op = o) : scan l0 l1 = [] := by
  refine scan_eq_nil fun p hp it hit => ?_
  rw [h0 _ (fst_mem_of_consecutive hp), h0 _ (snd_mem_of_consecutive hp), h1 it hit]
  have hrw := opWrite_ne_opRead
  rintro (⟨ha, hb, -⟩ | ⟨ha, hb, -⟩ | ⟨-, ha, hb⟩ | ⟨ha, hb, -⟩) <;> exact hrw (by omega)

theorem scan_eq_nil_of_length {l0 l1 : List Trace} (h : l0.length + l1.length ≤ 2) :
    scan l0 l1 = [] := by
  refine scan_eq_nil fun p hp it hit => ?_
  have h0 : ¬ l0.length < 2 := fun hc => by
    rw [consecutive_eq_nil.mpr hc] at hp
    simp at hp
  have h1 := List.length_pos_of_mem hit
  omega

/-- **The early exits lose nothing**: a tag says all accesses are of one kind only when they are. -/
theorem findCiFromThreadPair_eq {d0 d1 : TidDict} (h0 : d0.traceList.Pairwise (·.time < ·.time))
    (h1 : d1.traceList.Pairwise (·.time < ·.time)) (ho0 : OpsOk d0.traceList)
    (ho1 : OpsOk d1.traceList) (ht0 : OptagOk d0.optag d0.traceList)
    (ht1 : OptagOk d1.optag d1.traceList) :
    findCiFromThreadPair d0 d1 =
      .ok (scan d0.traceList d1.traceList ++ scan d1.traceList d0.traceList) := by
  have htag : ∀ {d : TidDict} {k o : ℕ}, OptagOk d.optag d.traceList → d.optag = k →
      (k = 0 ∧ o = opRead ∨ k = 1 ∧ o = opWrite) → ∀ x ∈ d.traceList, x.op = o := by
    rintro d k o (⟨hk, h⟩ | ⟨hk, h⟩ | ⟨hk, -⟩) hd (⟨hk', rfl⟩ | ⟨hk', rfl⟩) <;>
      first | exact h | omega
  unfold findCiFromThreadPair
  split_ifs with hr hw hl
  · have hr0 := htag ht0 hr.1 (Or.inl ⟨rfl, rfl⟩)
    have hr1 := htag ht1 hr.2 (Or.inl ⟨rfl, rfl⟩)
    rw [scan_eq_nil_of_ops hr0 hr1, scan_eq_nil_of_ops hr1 hr0]
    rfl
  · have hw0 := htag ht0 hw.1 (Or.inr ⟨rfl, rfl⟩)
    have hw1 := htag ht1 hw.2 (Or.inr ⟨rfl, rfl⟩)
    rw [scan_eq_nil_of_ops hw0 hw1, scan_eq_nil_of_ops hw1 hw0]
    rfl
  · rw [scan_eq_nil_of_length hl, scan_eq_nil_of_length (by omega)]
    rfl
  · rw [findCiDirected_eq h0 ho0 ho1, findCiDirected_eq h1 ho1 ho0]
    rfl

/-! ## One address -/

/-- The candidates of two threads, in both directions. -/
def pairCis (l : List Trace) (p : ℕ × ℕ) : List CI :=
  scan (ofTid l p.1) (ofTid l p.2) ++ scan (ofTid l p.2) (ofTid l p.1)

/-- The candidates of one address with records `l`. -/
def addrCis (l : List Trace) : List CI := (allPairs (l.map Trace.tid).eraseDups).flatMap (pairCis l)

theorem findCi_tids {l : List Trace} (hops : OpsOk l)
    (htime : ∀ t, (ofTid l t).Pairwise (·.time < ·.time)) {t t' : ℕ} {d d' : TidDict}
    (hd : d.traceList = ofTid l t) (hd' : d'.traceList = ofTid l t')
    (ho : OpsOk l → OptagOk d.optag d.traceList) (ho' : OpsOk l → OptagOk d'.optag d'.traceList) :
    findCiFromThreadPair d d' = .ok (pairCis l (t, t')) := by
  have hsub : ∀ u, OpsOk (ofTid l u) := fun u x hx => hops x (mem_ofTid.mp hx).1
  rw [findCiFromThreadPair_eq (by rw [hd]; exact htime t) (by rw [hd']; exact htime t')
    (by rw [hd]; exact hsub t) (by rw [hd']; exact hsub t') (ho hops) (ho' hops), hd, hd']
  rfl

section Addr

variable {l : List Trace} {ad : AddrDict} (h : AddrRep l ad) (hops : OpsOk l)
  (htime : ∀ t, (ofTid l t).Pairwise (·.time < ·.time))
include h

theorem tidDict_eq {t : ℕ} (ht : t ∈ l.map Trace.tid) :
    ∃ td, ad.tidDict t = .ok td ∧ td.traceList = ofTid l t ∧
      (OpsOk l → OptagOk td.optag td.traceList) := by
  have hs : ad.tids.lookup t ≠ none := fun hn => h.lookup_none.mp hn ht
  obtain ⟨td, htd⟩ := Option.ne_none_iff_exists'.mp hs
  exact ⟨td, by rw [AddrDict.tidDict, htd], (h.ne_nil htd).2, fun ho => h.optag ho t td htd⟩

include hops htime

theorem pairLoop_eq {ts : List ℕ} (hts : ∀ t ∈ ts, t ∈ l.map Trace.tid) :
    pairLoop ad ts = .ok ((allPairs ts).flatMap (pairCis l)) := by
  induction ts with
  | nil => rfl
  | cons t ts ih =>
    obtain ⟨d, hd, htr, ho⟩ := tidDict_eq h (hts t (by simp))
    have hrest := ih (fun u hu => hts u (by simp [hu]))
    have hinner : appendAll (fun t' => do findCiFromThreadPair d (← ad.tidDict t')) ts =
        .ok (ts.flatMap fun t' => pairCis l (t, t')) := by
      refine appendAll_eq_ok fun t' ht' => ?_
      obtain ⟨d', hd', htr', ho'⟩ := tidDict_eq h (hts t' (by simp [ht']))
      rw [hd']
      exact findCi_tids hops htime htr htr' ho ho'
    rw [pairLoop, hd]
    simp only [bind, Except.bind] at hinner ⊢
    rw [hinner, hrest]
    simp [allPairs, List.flatMap_map, List.flatMap_append]

theorem predictAddr_eq : predictAddr ad = .ok (addrCis l) := by
  have hmem : ∀ t ∈ (l.map Trace.tid).eraseDups, t ∈ l.map Trace.tid := fun t ht => by
    simpa using ht
  have hloop := pairLoop_eq h hops htime hmem
  unfold predictAddr addrCis
  rw [h.threadNum, h.tidList]
  match hts : (l.map Trace.tid).eraseDups with
  | [] => rfl
  | [t] => rfl
  | [t0, t1] =>
    obtain ⟨d0, hd0, htr0, ho0⟩ := tidDict_eq h (hmem t0 (by simp [hts]))
    obtain ⟨d1, hd1, htr1, ho1⟩ := tidDict_eq h (hmem t1 (by simp [hts]))
    simp only [hd0, hd1, bind, Except.bind]
    rw [findCi_tids hops htime htr0 htr1 ho0 ho1]
    simp [allPairs]
  | t0 :: t1 :: t2 :: ts =>
    rw [hts] at hloop
    rw [if_neg (by simp)]
    exact hloop

end Addr

theorem TimesIncrease.accesses {log : List Trace} (h : TimesIncrease log) (a t : ℕ) :
    (accesses log a t).Pairwise (·.time < ·.time) := by
  unfold Offline.accesses ofTid ofAddr
  rw [List.pairwise_filter, List.pairwise_filter]
  refine h.imp fun hxy ha hb ht hu => hxy ?_ ?_
  · simp only [decide_eq_true_eq] at ha hb; omega
  · simp only [decide_eq_true_eq] at ht hu; omega

/-- The predictor as one expression over the log. -/
theorem predictor_eq {log : List Trace} {mt : MemTrace} (h : MemRep log mt) (hops : OpsOk log)
    (htime : TimesIncrease log) {order : List ℕ} (horder : order.Perm mt.keys) :
    predictor order mt = .ok (order.flatMap fun a => addrCis (ofAddr log a)) := by
  refine appendAll_eq_ok fun a ha => ?_
  have hmem : a ∈ mt := AList.mem_keys.mpr (horder.mem_iff.mp ha)
  obtain ⟨ad, had⟩ := Option.isSome_iff_exists.mp (AList.lookup_isSome.mpr hmem)
  have hrep := h a
  rw [had] at hrep ⊢
  exact predictAddr_eq hrep.2 (fun x hx => hops x (mem_ofAddr.mp hx).1) (htime.accesses a)

/-! ## Exactness -/

theorem mem_scan {l0 l1 : List Trace} {c : CI} :
    c ∈ scan l0 l1 ↔ (c.first, c.second) ∈ consecutive l0 ∧ c.inter ∈ l1 ∧
      Completes c.first c.second c.inter := by
  unfold scan appendCis
  simp only [List.mem_flatMap, List.mem_map, List.mem_filter, decide_eq_true_eq]
  constructor
  · rintro ⟨p, hp, it, ⟨hit, hc⟩, rfl⟩
    exact ⟨hp, hit, hc⟩
  · rintro ⟨hp, hit, hc⟩
    exact ⟨_, hp, c.inter, ⟨hit, hc⟩, rfl⟩

theorem tid_of_scan {l : List Trace} {t t' : ℕ} {c : CI} (h : c ∈ scan (ofTid l t) (ofTid l t')) :
    c.first.tid = t ∧ c.inter.tid = t' := by
  obtain ⟨h1, h2, -⟩ := mem_scan.mp h
  exact ⟨(mem_ofTid.mp (fst_mem_of_consecutive h1)).2, (mem_ofTid.mp h2).2⟩

theorem mem_addrCis {l : List Trace} {c : CI} :
    c ∈ addrCis l ↔ (c.first, c.second) ∈ consecutive (ofTid l c.first.tid) ∧ c.inter ∈ l ∧
      c.inter.tid ≠ c.first.tid ∧ Completes c.first c.second c.inter := by
  have hnd := nodup_eraseDups (l.map Trace.tid)
  simp only [addrCis, pairCis, List.mem_flatMap, List.mem_append, Prod.exists]
  constructor
  · have hone : ∀ t t', t ≠ t' → c ∈ scan (ofTid l t) (ofTid l t') →
        (c.first, c.second) ∈ consecutive (ofTid l c.first.tid) ∧ c.inter ∈ l ∧
          c.inter.tid ≠ c.first.tid ∧ Completes c.first c.second c.inter := by
      intro t t' hne hc
      obtain ⟨h1, h2⟩ := tid_of_scan hc
      obtain ⟨h3, h4, h5⟩ := mem_scan.mp hc
      exact ⟨h1.symm ▸ h3, (mem_ofTid.mp h4).1, by omega, h5⟩
    rintro ⟨t, t', hp, hc | hc⟩
    · exact hone t t' (ne_of_allPairs hnd hp) hc
    · exact hone t' t (ne_of_allPairs hnd hp).symm hc
  · rintro ⟨h1, h2, h3, h4⟩
    have hf : c.first.tid ∈ (l.map Trace.tid).eraseDups := by
      have := (mem_ofTid.mp (fst_mem_of_consecutive h1)).1
      simpa using ⟨_, this, rfl⟩
    have hi : c.inter.tid ∈ (l.map Trace.tid).eraseDups := by simpa using ⟨_, h2, rfl⟩
    have hc : c ∈ scan (ofTid l c.first.tid) (ofTid l c.inter.tid) :=
      mem_scan.mpr ⟨h1, mem_ofTid.mpr ⟨h2, rfl⟩, h4⟩
    rcases allPairs_total hf hi h3.symm with hp | hp
    · exact ⟨_, _, hp, Or.inl hc⟩
    · exact ⟨_, _, hp, Or.inr hc⟩

theorem NextAccess.left_mem {log : List Trace} {a b : Trace} (h : NextAccess log a b) : a ∈ log := by
  obtain ⟨l₁, l₂, l₃, hl, -⟩ := h
  simp [hl]

theorem NextAccess.right_mem {log : List Trace} {a b : Trace} (h : NextAccess log a b) : b ∈ log := by
  obtain ⟨l₁, l₂, l₃, hl, -⟩ := h
  simp [hl]

theorem NextAccess.tid_eq {log : List Trace} {a b : Trace} (h : NextAccess log a b) : b.tid = a.tid := by
  obtain ⟨l₁, l₂, l₃, -, -, htid, -⟩ := h
  exact htid

theorem nextAccess_iff {log : List Trace} {a b : Trace} :
    NextAccess log a b ↔ (a, b) ∈ consecutive (accesses log a.addr a.tid) := by
  rw [accesses_eq_filter, mem_consecutive_filter]
  constructor
  · rintro ⟨l₁, l₂, l₃, hl, hba, hbt, hno⟩
    exact ⟨l₁, l₂, l₃, hl, by simp, by simp [hba, hbt], by simpa using hno⟩
  · rintro ⟨l₁, l₂, l₃, hl, -, hb, hno⟩
    simp only [decide_eq_true_eq] at hb hno
    exact ⟨l₁, l₂, l₃, hl, hb.1, hb.2, hno⟩

theorem violation_iff {log : List Trace} {c : CI} :
    Violation log c ↔ c ∈ addrCis (ofAddr log c.first.addr) := by
  rw [mem_addrCis, mem_ofAddr]
  constructor
  · rintro ⟨hnext, hmem, haddr, htid, hout, hpat⟩
    exact ⟨nextAccess_iff.mp hnext, ⟨hmem, haddr⟩, htid, hout, hpat⟩
  · rintro ⟨hnext, ⟨hmem, haddr⟩, htid, hout, hpat⟩
    exact ⟨nextAccess_iff.mpr hnext, hmem, haddr, htid, hout, hpat⟩

theorem addr_of_addrCis {log : List Trace} {a : ℕ} {c : CI} (h : c ∈ addrCis (ofAddr log a)) :
    c.first.addr = a := by
  have h1 := fst_mem_of_consecutive (mem_addrCis.mp h).1
  exact (mem_ofAddr.mp (mem_ofTid.mp h1).1).2

/-- Every candidate is a violation and every violation is a candidate. -/
theorem mem_predictor {log : List Trace} {mt : MemTrace} (h : MemRep log mt) {order : List ℕ}
    (horder : order.Perm mt.keys) {c : CI} :
    c ∈ order.flatMap (fun a => addrCis (ofAddr log a)) ↔ Violation log c := by
  rw [List.mem_flatMap, violation_iff]
  constructor
  · rintro ⟨a, -, hc⟩
    rwa [addr_of_addrCis hc]
  · intro hc
    refine ⟨c.first.addr, ?_, hc⟩
    have hne : ofAddr log c.first.addr ≠ [] :=
      List.ne_nil_of_mem (mem_ofTid.mp (fst_mem_of_consecutive (mem_addrCis.mp hc).1)).1
    rw [horder.mem_iff, ← AList.mem_keys, ← AList.lookup_isSome]
    have hrep := h c.first.addr
    cases hl : mt.lookup c.first.addr with
    | none => rw [hl] at hrep; exact absurd hrep hne
    | some ad => rfl

theorem nodup_appendCis {first second : Trace} {l : List Trace} (h : l.Nodup) :
    (appendCis first second l).Nodup :=
  h.map fun _ _ hxy => congrArg CI.inter hxy

theorem nodup_scan {l0 l1 : List Trace} (h0 : l0.Nodup) (h1 : l1.Nodup) : (scan l0 l1).Nodup := by
  refine List.nodup_flatMap.mpr ⟨fun p _ => nodup_appendCis (h1.filter _), ?_⟩
  refine (nodup_consecutive h0).imp ?_
  intro p q hpq c hp hq
  obtain ⟨x, -, rfl⟩ := List.mem_map.mp hp
  obtain ⟨y, -, hy⟩ := List.mem_map.mp hq
  have hf : q.1 = p.1 := congrArg CI.first hy
  have hs : q.2 = p.2 := congrArg CI.second hy
  exact hpq (Prod.ext hf.symm hs.symm)

theorem nodup_pairCis {l : List Trace} (hl : l.Nodup) {p : ℕ × ℕ} (hp : p.1 ≠ p.2) :
    (pairCis l p).Nodup := by
  have hsub : ∀ t, (ofTid l t).Nodup := fun t => hl.filter _
  refine List.nodup_append.mpr
    ⟨nodup_scan (hsub _) (hsub _), nodup_scan (hsub _) (hsub _), fun c hc d hd hcd => ?_⟩
  have h1 := (tid_of_scan hc).1
  have h2 := (tid_of_scan hd).1
  exact hp (by rw [← h1, ← h2, hcd])

/-- The tids of a candidate name the pair of threads that it comes from. -/
theorem tids_of_pairCis {l : List Trace} {p : ℕ × ℕ} {c : CI} (h : c ∈ pairCis l p) :
    p = (c.first.tid, c.inter.tid) ∨ p = (c.inter.tid, c.first.tid) := by
  rcases List.mem_append.mp h with h | h
  · obtain ⟨h1, h2⟩ := tid_of_scan h
    exact Or.inl (Prod.ext h1.symm h2.symm)
  · obtain ⟨h1, h2⟩ := tid_of_scan h
    exact Or.inr (Prod.ext h2.symm h1.symm)

theorem nodup_addrCis {l : List Trace} (hl : l.Nodup) : (addrCis l).Nodup := by
  have hnd := nodup_eraseDups (l.map Trace.tid)
  refine List.nodup_flatMap.mpr ⟨fun p hp => nodup_pairCis hl (ne_of_allPairs hnd hp), ?_⟩
  refine (allPairs_pairwise hnd).imp ?_
  rintro p q ⟨hne, hsw⟩ c hp hq
  rcases tids_of_pairCis hp with rfl | rfl <;> rcases tids_of_pairCis hq with rfl | rfl
  · exact hne rfl
  · exact hsw rfl
  · exact hsw rfl
  · exact hne rfl

theorem TimesIncrease.nodup {log : List Trace} (h : TimesIncrease log) : log.Nodup :=
  h.imp fun hxy heq => absurd (hxy (by rw [heq]) (by rw [heq])) (by rw [heq]; omega)

theorem nodup_predictor {log : List Trace} (htime : TimesIncrease log) {mt : MemTrace}
    {order : List ℕ} (horder : order.Perm mt.keys) :
    (order.flatMap fun a => addrCis (ofAddr log a)).Nodup := by
  have hord : order.Nodup := horder.nodup_iff.mpr mt.keys_nodup
  refine List.nodup_flatMap.mpr ⟨fun a _ => nodup_addrCis (htime.nodup.filter _), ?_⟩
  refine hord.imp ?_
  intro a b hab c ha hb
  exact hab ((addr_of_addrCis ha).symm.trans (addr_of_addrCis hb))

/-- A represented log with ops `READ` or `WRITE` and increasing times: the predictor succeeds and
lists exactly the violations, each once. -/
theorem predictor_spec {log : List Trace} {mt : MemTrace} (h : MemRep log mt) (hops : OpsOk log)
    (htime : TimesIncrease log) {order : List ℕ} (horder : order.Perm mt.keys) :
    ∃ cis, predictor order mt = .ok cis ∧ cis.Nodup ∧ ∀ c, c ∈ cis ↔ Violation log c :=
  ⟨_, predictor_eq h hops htime horder, nodup_predictor htime horder,
    fun _ => mem_predictor h horder⟩

/-- **Exactness of prediction.**  On the file of any log whose ops are `READ` or `WRITE` and whose
times strictly increase within each (address, thread), and for any order of the dictionary's keys,
the run raises nothing and `ci_list` holds exactly the violations of the log, each once. -/
theorem predictor_exact (log : List MemRef) (hops : OpsOk (log.map traceOf))
    (htime : TimesIncrease (log.map traceOf)) :
    ∃ mt, loadMemTraces (memFile log) = .ok mt ∧ ∀ order : List ℕ, order.Perm mt.keys →
      ∃ cis, predictor order mt = .ok cis ∧ cis.Nodup ∧
        ∀ c, c ∈ cis ↔ Violation (log.map traceOf) c := by
  obtain ⟨mt, hload, hrep⟩ := loadMemTraces_rep log
  exact ⟨mt, hload, fun order horder => predictor_spec hrep hops htime horder⟩

/-- Thread 1 reads and writes a balance, thread 2 writes it afterwards. -/
def balanceLog : List MemRef := [⟨10, 64, 1, 1, 1⟩, ⟨11, 64, 2, 1, 0⟩, ⟨12, 64, 3, 2, 0⟩]

theorem predictor_exact_balance :
    ∃ mt, loadMemTraces (memFile balanceLog) = .ok mt ∧ ∀ order : List ℕ, order.Perm mt.keys →
      ∃ cis, predictor order mt = .ok cis ∧ cis.Nodup ∧
        ∀ c, c ∈ cis ↔ Violation (balanceLog.map traceOf) c :=
  predictor_exact balanceLog (by simp [OpsOk, balanceLog, traceOf, opRead, opWrite])
    (by simp [TimesIncrease, balanceLog, traceOf])

/-! ## Candidates of any log

Without an assumption on ops or times a successful run still reports only triples of the right
shape. -/

/-- The shape of a candidate. -/
structure Candidate (log : List Trace) (c : CI) : Prop where
  next : NextAccess log c.first c.second
  mem : c.inter ∈ log
  addr : c.inter.addr = c.first.addr
  tid : c.inter.tid ≠ c.first.tid
  time : c.first.time < c.second.time

theorem findTrace_ok {f : List Trace → ℕ → ℕ → Except PyErr (List Trace)} {first second : Trace}
    {tlist : List Trace} {cis : List CI} {c : CI} (hf : f = findWriteTrace ∨ f = findReadTrace)
    (h : (f tlist first.time second.time >>= fun retList => .ok (appendCis first second retList)) =
      (.ok cis : Except PyErr (List CI))) (hc : c ∈ cis) :
    c.first = first ∧ c.second = second ∧ c.inter ∈ tlist ∧ first.time < second.time := by
  obtain ⟨ret, h1, h2⟩ := bind_eq_ok.mp h
  cases h2
  obtain ⟨it, hit, rfl⟩ := List.mem_map.mp hc
  rcases hf with rfl | rfl
  · unfold findWriteTrace at h1
    split_ifs at h1 with hlt
    cases h1
    exact ⟨rfl, rfl, List.mem_of_mem_filter hit, hlt⟩
  · unfold findReadTrace at h1
    split_ifs at h1 with hlt
    cases h1
    exact ⟨rfl, rfl, List.mem_of_mem_filter hit, hlt⟩

theorem mem_findCiOfNext {tlist : List Trace} {first second : Trace} {cis : List CI}
    (h : findCiOfNext tlist first second = .ok cis) {c : CI} (hc : c ∈ cis) :
    c.first = first ∧ c.second = second ∧ c.inter ∈ tlist ∧ first.time < second.time := by
  have hnil : (.ok [] : Except PyErr (List CI)) = .ok cis → False := fun h' => by cases h'; simp at hc
  unfold findCiOfNext at h
  split_ifs at h
  · exact findTrace_ok (Or.inl rfl) h hc
  · exact findTrace_ok (Or.inl rfl) h hc
  · exact (hnil h).elim
  · exact findTrace_ok (Or.inl rfl) h hc
  · exact findTrace_ok (Or.inr rfl) h hc
  · exact (hnil h).elim
  · exact (hnil h).elim

theorem mem_findCiDirected {l0 l1 : List Trace} {cis : List CI} (h : findCiDirected l0 l1 = .ok cis)
    {c : CI} (hc : c ∈ cis) :
    (c.first, c.second) ∈ consecutive l0 ∧ c.inter ∈ l1 ∧ c.first.time < c.second.time := by
  unfold findCiDirected at h
  split_ifs at h
  · obtain ⟨p, hp, cs, h1, h2⟩ := (mem_appendAll h).mp hc
    obtain ⟨hf, hs, hi, ht⟩ := mem_findCiOfNext h1 h2
    rw [hf, hs]
    exact ⟨hp, hi, ht⟩
  · cases h
    simp at hc

theorem mem_findCiFromThreadPair {d0 d1 : TidDict} {cis : List CI}
    (h : findCiFromThreadPair d0 d1 = .ok cis) {c : CI} (hc : c ∈ cis) :
    c.first.time < c.second.time ∧
      ((c.first, c.second) ∈ consecutive d0.traceList ∧ c.inter ∈ d1.traceList ∨
        (c.first, c.second) ∈ consecutive d1.traceList ∧ c.inter ∈ d0.traceList) := by
  have hnil : (.ok [] : Except PyErr (List CI)) = .ok cis → False := fun h' => by cases h'; simp at hc
  unfold findCiFromThreadPair at h
  split_ifs at h
  · exact (hnil h).elim
  · exact (hnil h).elim
  · exact (hnil h).elim
  · obtain ⟨cis0, h0, h⟩ := bind_eq_ok.mp h
    obtain ⟨cis1, h1, h⟩ := bind_eq_ok.mp h
    cases h
    rcases List.mem_append.mp hc with hc | hc
    · obtain ⟨ha, hb, ht⟩ := mem_findCiDirected h0 hc
      exact ⟨ht, Or.inl ⟨ha, hb⟩⟩
    · obtain ⟨ha, hb, ht⟩ := mem_findCiDirected h1 hc
      exact ⟨ht, Or.inr ⟨ha, hb⟩⟩

theorem mem_pairLoop {ad : AddrDict} {ts : List ℕ} {cis : List CI} (h : pairLoop ad ts = .ok cis)
    {c : CI} (hc : c ∈ cis) :
    ∃ p ∈ allPairs ts, ∃ d d' cs, ad.tidDict p.1 = .ok d ∧ ad.tidDict p.2 = .ok d' ∧
      findCiFromThreadPair d d' = .ok cs ∧ c ∈ cs := by
  induction ts generalizing cis with
  | nil => cases h; simp at hc
  | cons t ts ih =>
    obtain ⟨d, hd, h⟩ := bind_eq_ok.mp h
    obtain ⟨cis1, h1, h⟩ := bind_eq_ok.mp h
    obtain ⟨cis2, h2, h⟩ := bind_eq_ok.mp h
    cases h
    rcases List.mem_append.mp hc with hc | hc
    · obtain ⟨t', ht', cs, hcs, hm⟩ := (mem_appendAll h1).mp hc
      obtain ⟨d', hd', hcs⟩ := bind_eq_ok.mp hcs
      refine ⟨(t, t'), ?_, d, d', cs, hd, hd', hcs, hm⟩
      exact List.mem_append_left _ (List.mem_map.mpr ⟨t', ht', rfl⟩)
    · obtain ⟨p, hp, hrest⟩ := ih h2 hc
      exact ⟨p, List.mem_append_right _ hp, hrest⟩

theorem mem_predictAddr {ad : AddrDict} {cis : List CI} (h : predictAddr ad = .ok cis) {c : CI}
    (hc : c ∈ cis) :
    ∃ p ∈ allPairs ad.tidList, ∃ d d' cs, ad.tidDict p.1 = .ok d ∧ ad.tidDict p.2 = .ok d' ∧
      findCiFromThreadPair d d' = .ok cs ∧ c ∈ cs := by
  unfold predictAddr at h
  split_ifs at h
  · cases h
    simp at hc
  · split at h
    · cases h
    · cases h
    · rename_i t0 t1 hts
      obtain ⟨d0, h0, h⟩ := bind_eq_ok.mp h
      obtain ⟨d1, h1, h⟩ := bind_eq_ok.mp h
      exact ⟨(t0, t1), by simp [hts, allPairs], d0, d1, cis, h0, h1, h, hc⟩
    · exact mem_pairLoop h hc

/-- **Shape of the candidates**: whatever the log, a successful run reports only `Candidate`s. -/
theorem candidate_of_predictor {log : List Trace} {mt : MemTrace} (h : MemRep log mt)
    {order : List ℕ} {cis : List CI} (hok : predictor order mt = .ok cis) {c : CI} (hc : c ∈ cis) :
    Candidate log c := by
  obtain ⟨a, -, cs, ha, hc⟩ := (mem_appendAll hok).mp hc
  have hrep := h a
  cases hl : mt.lookup a with
  | none => rw [hl] at ha; cases ha
  | some ad =>
    rw [hl] at ha hrep
    obtain ⟨⟨t, t'⟩, hp, d, d', cs', hd, hd', hcs, hm⟩ := mem_predictAddr ha hc
    have htr : ∀ {u : ℕ} {e : TidDict}, ad.tidDict u = .ok e →
        e.traceList = ofTid (ofAddr log a) u := by
      intro u e he
      unfold AddrDict.tidDict at he
      split at he
      · rename_i td htd
        cases he
        exact (hrep.2.ne_nil htd).2
      · cases he
    have hne : t ≠ t' := by
      rw [hrep.2.tidList] at hp
      exact ne_of_allPairs (nodup_eraseDups _) hp
    have hshape : ∀ {u u' : ℕ}, u ≠ u' → (c.first, c.second) ∈ consecutive (ofTid (ofAddr log a) u) →
        c.inter ∈ ofTid (ofAddr log a) u' → c.first.time < c.second.time → Candidate log c := by
      intro u u' hu hcons hint htime
      have hf := mem_ofTid.mp (fst_mem_of_consecutive hcons)
      have hfa := (mem_ofAddr.mp hf.1).2
      have hi := mem_ofTid.mp hint
      have hia := mem_ofAddr.mp hi.1
      refine ⟨nextAccess_iff.mpr ?_, hia.1, hia.2.trans hfa.symm, ?_, htime⟩
      swap
      · exact fun heq => hu (hf.2.symm.trans (heq.symm.trans hi.2))
      rw [hfa, hf.2]
      exact hcons
    obtain ⟨htime, ⟨h1, h2⟩ | ⟨h1, h2⟩⟩ := mem_findCiFromThreadPair hcs hm
    · rw [htr hd] at h1
      rw [htr hd'] at h2
      exact hshape hne h1 h2 htime
    · rw [htr hd'] at h1
      rw [htr hd] at h2
      exact hshape hne.symm h1 h2 htime

end Offline
end AVPredictor
