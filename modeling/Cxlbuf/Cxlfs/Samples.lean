import Cxlbuf.Cxlfs.Controller
import Cxlbuf.Lib.Ring
import Cxlbuf.Lib.While

/-!
# Cxlbuf.Cxlfs.Samples

Reading the ring of samples that perf fills (`membwdist.cc`).  `get_samples`
and `get_dist` walk the ring with one loop and differ in what they do with a
sample (`Visitor`); `get_dist` also stops after a number of samples.

The loop advances the tail for samples only, so it ends only if it meets no
other record (`drained_iff`).  The start of a record is taken modulo the size
of the ring and the record is then read in one piece, which is right as long
as no record reaches across the end (`unbroken_of_ends`).

`data_head` and `data_tail` count bytes and are not reduced modulo `2 ^ 64`.
`reads` records the offset and the size of every access to the ring; the
program does not read it.
-/

namespace Cxlbuf.Cxlfs

open ByteMem While

/-! ## the loops -/

/-- `PERF_RECORD_SAMPLE`. -/
def perfRecordSample : Nat := 9

/-- `MAX_SAMPLES`. -/
def maxSamples : Nat := 0x200

/-- The sample buffer: the bytes from `data_offset` on, the size of the ring,
and how far it has been written and read. -/
structure SampleBuf where
  data : Mem
  dataSize : Nat
  dataSize_pos : 0 < dataSize
  dataHead : Nat
  dataTail : Nat

/-- A field of a record, at an offset from `data_offset`. -/
def SampleBuf.field (b : SampleBuf) (off n : Nat) : Nat := ofLE (slice b.data off n)

/-- What a loop does with samples: the fields it reads (offset in the record,
size), what it makes of the instruction pointer and the address, and the
number of samples after which it gives up. -/
structure Visitor (β : Type) where
  fields : List (Nat × Nat)
  visit : β → Nat → Nat → β
  limit : Option Nat

/-- The state of a loop. -/
structure Drain (β : Type) where
  tail : Nat
  sampleCnt : Nat
  result : β
  reads : List (Nat × Nat)

section Loop

variable {β : Type} (v : Visitor β) (b : SampleBuf)

/-- `sample_cnt > MAX_SAMPLES`. -/
def Visitor.full (sampleCnt : Nat) : Bool := v.limit.any fun n => decide (n < sampleCnt)

/-- `sample_addr`, from `data_offset`. -/
def Drain.off (s : Drain β) : Nat := s.tail % b.dataSize

/-- The sample at the tail is looked at and counted. -/
def Drain.sample (s : Drain β) : Drain β :=
  { s with
    sampleCnt := s.sampleCnt + 1
    result := v.visit s.result (b.field (s.off b + 8) 8) (b.field (s.off b + 16) 8)
    reads := s.reads ++ (s.off b, 4) :: v.fields.map fun f => (s.off b + f.1, f.2) }

/-- The tail is moved behind the sample. -/
def Drain.advance (s : Drain β) : Drain β :=
  { s.sample v b with
    tail := s.tail + b.field (s.off b + 6) 2
    reads := (s.sample v b).reads ++ [(s.off b + 6, 2)] }

/-- Another record is only looked at. -/
def Drain.other (s : Drain β) : Drain β := { s with reads := s.reads ++ [(s.off b, 4)] }

/-- The body of the loop. -/
def drainBody (s : Drain β) : ForInStep (Drain β) :=
  if b.field (s.off b) 4 = perfRecordSample then
    if v.full (s.sampleCnt + 1) then .done { s.sample v b with tail := b.dataHead }
    else .yield (s.advance v b)
  else .yield (s.other b)

/-- `tail != head`. -/
def more (s : Drain β) : Bool := s.tail != b.dataHead

end Loop

/-- `get_samples`: the pairs of instruction pointer and address. -/
def samplesVisitor : Visitor (List (Nat × Nat)) where
  fields := [(8, 8), (16, 8)]
  visit result ip addr := result ++ [(ip, addr)]
  limit := none

/-- `pg_sz_bits`. -/
def pgSzBits : Nat := Nat.log2 pageSize

/-- `get_dist`: the pages from `start` to `stop` that are marked, relative to
the first one. -/
def distVisitor (start stop : Nat) : Visitor (List Nat) where
  fields := [(16, 8)]
  visit result _ addr :=
    let addrPg := addr >>> pgSzBits
    if start >>> pgSzBits ≤ addrPg ∧ addrPg < stop >>> pgSzBits then
      result.insert (addrPg - start >>> pgSzBits)
    else result
  limit := some maxSamples

namespace SampleBuf

variable (b : SampleBuf)

/-- `get_samples`, with at most `fuel` tests of its loop. -/
def getSamples (fuel : Nat) : Option (Drain (List (Nat × Nat))) :=
  loop (more b) (drainBody samplesVisitor b) fuel ⟨b.dataTail, 0, [], []⟩

/-- `get_dist`, with at most `fuel` tests of its loop. -/
def getDist (start stop fuel : Nat) : Option (Drain (List Nat)) :=
  loop (more b) (drainBody (distVisitor start stop) b) fuel ⟨b.dataTail, 0, [], []⟩

end SampleBuf

/-! ## records in the ring -/

/-- A record: `perf_event_header` and what follows it. -/
structure PerfRecord where
  type : UInt32
  misc : UInt16
  payload : List UInt8
  size_lt : 8 + payload.length < 256 ^ 2

namespace PerfRecord

variable (r : PerfRecord)

/-- The size in the header. -/
def size : Nat := 8 + r.payload.length

/-- The record as bytes. -/
def bytes : List UInt8 := toLE 4 r.type.toNat ++ toLE 2 r.misc.toNat ++ toLE 2 r.size ++ r.payload

@[simp] theorem length_bytes : r.bytes.length = r.size := by
  simp [bytes, size]
  omega

end PerfRecord

/-- Records one after the other. -/
def recordBytes (rs : List PerfRecord) : List UInt8 := rs.flatMap PerfRecord.bytes

/-- The ring holds records from a position to the head. -/
def SampleBuf.Holds (b : SampleBuf) (pos : Nat) (rs : List PerfRecord) : Prop :=
  InRing b.data b.dataSize pos (recordBytes rs) ∧ b.dataHead = pos + (recordBytes rs).length

instance (b : SampleBuf) (pos : Nat) (rs : List PerfRecord) : Decidable (b.Holds pos rs) :=
  inferInstanceAs (Decidable (_ ∧ _))

section Fields

variable {b : SampleBuf} {pos : Nat} {r : PerfRecord} {rs : List PerfRecord}

theorem SampleBuf.Holds.cons (h : b.Holds pos (r :: rs)) :
    InRing b.data b.dataSize pos r.bytes ∧ b.Holds (pos + r.size) rs := by
  obtain ⟨hring, hhead⟩ := h
  rw [recordBytes, List.flatMap_cons] at hring hhead
  rw [List.length_append, r.length_bytes, ← Nat.add_assoc] at hhead
  have hsplit := hring.of_append
  rw [r.length_bytes] at hsplit
  exact ⟨hsplit.1, hsplit.2, hhead⟩

/-- The tail is behind the head while there are records. -/
theorem SampleBuf.Holds.lt_head (h : b.Holds pos (r :: rs)) : pos < b.dataHead := by
  have hhead := h.cons.2.2
  unfold PerfRecord.size at hhead
  omega

theorem field_type (h : InRing b.data b.dataSize pos r.bytes)
    (hend : pos % b.dataSize + 4 ≤ b.dataSize) : b.field (pos % b.dataSize) 4 = r.type.toNat := by
  rw [PerfRecord.bytes, List.append_assoc, List.append_assoc,
    ← List.nil_append (toLE 4 _ ++ _)] at h
  exact h.ofLE_slice r.type.toNat_lt hend

theorem field_size (h : InRing b.data b.dataSize pos r.bytes)
    (hend : pos % b.dataSize + 8 ≤ b.dataSize) : b.field (pos % b.dataSize + 6) 2 = r.size := by
  rw [PerfRecord.bytes, List.append_assoc _ _ r.payload] at h
  have hlen : (toLE 4 r.type.toNat ++ toLE 2 r.misc.toNat).length = 6 := by simp
  rw [SampleBuf.field, ← hlen]
  exact h.ofLE_slice r.size_lt (by omega)

end Fields

/-! ## the loop ends if it meets samples only -/

section Drained

variable {β : Type} {v : Visitor β} {b : SampleBuf} {s : Drain β}

theorem drainBody_done (h : b.field (s.off b) 4 = perfRecordSample)
    (hfull : v.full (s.sampleCnt + 1) = true) :
    drainBody v b s = .done { s.sample v b with tail := b.dataHead } := by
  simp [drainBody, h, hfull]

theorem drainBody_advance (h : b.field (s.off b) 4 = perfRecordSample)
    (hfull : v.full (s.sampleCnt + 1) = false) : drainBody v b s = .yield (s.advance v b) := by
  simp [drainBody, h, hfull]

theorem drainBody_other (h : b.field (s.off b) 4 ≠ perfRecordSample) :
    drainBody v b s = .yield (s.other b) := by
  simp [drainBody, h]

theorem more_iff : more b s = true ↔ s.tail ≠ b.dataHead := by
  simp [more]

/-- A record that is not a sample stops the tail. -/
theorem diverges_of_other (hmore : s.tail ≠ b.dataHead)
    (hother : b.field (s.off b) 4 ≠ perfRecordSample) : Diverges (more b) (drainBody v b) s := by
  have hstuck (t : Drain β) (ht : t.tail = s.tail) :
      more b t = true ∧ ∃ t', drainBody v b t = .yield t' ∧ t'.tail = s.tail := by
    have hoff : t.off b = s.off b := by rw [Drain.off, ht, Drain.off]
    exact ⟨more_iff.mpr (ht ▸ hmore), t.other b, drainBody_other (hoff ▸ hother), ht⟩
  exact diverges_of_invariant hstuck rfl

/-- The records that the loop looks at, if they are samples. -/
def Visitor.window (v : Visitor β) (sampleCnt : Nat) (rs : List PerfRecord) : List PerfRecord :=
  match v.limit with
  | none => rs
  | some n => rs.take (n + 1 - sampleCnt)

theorem window_cons {n : Nat} (h : v.full n = false) (r : PerfRecord) (rs : List PerfRecord) :
    v.window n (r :: rs) = r :: v.window (n + 1) rs := by
  cases hlimit : v.limit with
  | none => simp [Visitor.window, hlimit]
  | some k =>
      have hle : n ≤ k := by simpa [Visitor.full, hlimit] using h
      have hsucc : k + 1 - n = k + 1 - (n + 1) + 1 := by omega
      simp only [Visitor.window, hlimit, hsucc, List.take_succ_cons]

theorem window_full {n : Nat} (h : v.full n = true) (rs : List PerfRecord) :
    v.window n rs = [] := by
  cases hlimit : v.limit with
  | none => simp [Visitor.full, hlimit] at h
  | some k =>
      have hlt : k < n := by simpa [Visitor.full, hlimit] using h
      simp [Visitor.window, hlimit, show k + 1 - n = 0 by omega]

theorem window_nil (n : Nat) : v.window n [] = [] := by
  unfold Visitor.window
  split <;> simp

/-- No header reaches across the end of the ring. -/
def HeadersWhole (size : Nat) : Nat → List PerfRecord → Prop
  | _, [] => True
  | pos, r :: rs => pos % size + 8 ≤ size ∧ HeadersWhole size (pos + r.size) rs

/-- Headers are whole in rings, at positions and with records that are aligned
to 8 bytes, as perf has them. -/
theorem headersWhole_of_aligned {size pos : Nat} (hpos : 0 < size) (hsize : 8 ∣ size)
    (halign : 8 ∣ pos) {rs : List PerfRecord} (hrs : ∀ r ∈ rs, 8 ∣ r.size) :
    HeadersWhole size pos rs := by
  induction rs generalizing pos with
  | nil => trivial
  | cons r rs ih =>
      have hr := hrs r List.mem_cons_self
      have hoff : 8 ∣ pos % size := (Nat.dvd_mod_iff hsize).mpr halign
      have hlt := Nat.mod_lt pos hpos
      exact ⟨by omega, ih (Nat.dvd_add halign hr) fun r' hr' => hrs r' (List.mem_cons_of_mem r hr')⟩

/-- The loop ends with nothing left in the ring. -/
def Drained (v : Visitor β) (b : SampleBuf) (s : Drain β) : Prop :=
  ∃ r, Ends (more b) (drainBody v b) s r ∧ r.tail = b.dataHead

/-- A loop that has not reached its limit drains the ring exactly if all
records up to the limit are samples. -/
theorem drained_iff {rs : List PerfRecord} (hring : b.Holds s.tail rs)
    (hwhole : HeadersWhole b.dataSize s.tail rs) (hfull : v.full s.sampleCnt = false) :
    Drained v b s ↔ ∀ r ∈ v.window s.sampleCnt rs, r.type.toNat = perfRecordSample := by
  induction rs generalizing s with
  | nil =>
      have hhead : b.dataHead = s.tail := hring.2
      have hend : Drained v b s := ⟨s, ends_exit (by simp [more, hhead]), hhead.symm⟩
      simp [hend, window_nil]
  | cons r rs ih =>
      obtain ⟨hrec, hrest⟩ := hring.cons
      obtain ⟨hhdr, hwhole⟩ := hwhole
      have hmore : s.tail ≠ b.dataHead := Nat.ne_of_lt hring.lt_head
      have htype : b.field (s.off b) 4 = r.type.toNat := field_type hrec (by omega)
      have hsize : b.field (s.off b + 6) 2 = r.size := field_size hrec hhdr
      rw [window_cons hfull, List.forall_mem_cons]
      by_cases hsample : r.type.toNat = perfRecordSample
      · rw [and_iff_right hsample]
        have hsample := htype.trans hsample
        cases hlast : v.full (s.sampleCnt + 1) with
        | true =>
            -- the limit is reached with this sample
            have hend : Drained v b s :=
              ⟨_, ends_done (more_iff.mpr hmore) (drainBody_done hsample hlast), rfl⟩
            simp [hend, window_full hlast]
        | false =>
            have htail : (s.advance v b).tail = s.tail + r.size := by simp [Drain.advance, hsize]
            have hnext := ih (s := s.advance v b) (htail ▸ hrest) (htail ▸ hwhole) hlast
            have hbody := drainBody_advance hsample hlast
            rw [Drained,
              exists_congr fun t => and_congr_left' (ends_yield (more_iff.mpr hmore) hbody)]
            exact hnext
      · have hdiv : Diverges (more b) (drainBody v b) s :=
          diverges_of_other hmore (htype ▸ hsample)
        have hnot : ¬ Drained v b s := fun ⟨_, hends, _⟩ => hdiv.not_ends hends
        simp [hnot, hsample]

end Drained

/-- `get_samples` drains the ring. -/
def SampleBuf.SamplesDrained (b : SampleBuf) : Prop :=
  ∃ fuel r, b.getSamples fuel = some r ∧ r.tail = b.dataHead

/-- `get_dist` drains the ring. -/
def SampleBuf.DistDrained (b : SampleBuf) (start stop : Nat) : Prop :=
  ∃ fuel r, b.getDist start stop fuel = some r ∧ r.tail = b.dataHead

section

variable {b : SampleBuf} {rs : List PerfRecord}

theorem drained_iff_loop {β : Type} (v : Visitor β) (s : Drain β) : Drained v b s ↔
    ∃ fuel r, loop (more b) (drainBody v b) fuel s = some r ∧ r.tail = b.dataHead := by
  simp only [Drained, Ends, ← exists_and_right]
  exact exists_comm

/-- `get_samples` drains the ring exactly if it holds samples only, and
`get_dist` exactly if the first `MAX_SAMPLES + 1` records are samples. -/
theorem ring_drained_iff (hring : b.Holds b.dataTail rs)
    (hwhole : HeadersWhole b.dataSize b.dataTail rs) :
    (b.SamplesDrained ↔ ∀ r ∈ rs, r.type.toNat = perfRecordSample) ∧
      ∀ start stop, b.DistDrained start stop ↔
        ∀ r ∈ rs.take (maxSamples + 1), r.type.toNat = perfRecordSample := by
  have hsamples := drained_iff (v := samplesVisitor) (s := ⟨b.dataTail, 0, [], []⟩) hring hwhole rfl
  have hdist (start stop : Nat) :=
    drained_iff (v := distVisitor start stop) (s := ⟨b.dataTail, 0, [], []⟩) hring hwhole rfl
  exact ⟨(drained_iff_loop _ _).symm.trans hsamples,
    fun start stop => (drained_iff_loop _ _).symm.trans (hdist start stop)⟩

end

/-! ### a ring from its start -/

theorem ringBytes_pos : 0 < 2 ^ 20 := by decide

/-- A ring of `BUF_SZ_PG_CNT` pages with records from its start on. -/
def ringOf (rs : List PerfRecord) : SampleBuf where
  data i := (recordBytes rs).getD i 0
  dataSize := 2 ^ 20
  dataSize_pos := ringBytes_pos
  dataHead := (recordBytes rs).length
  dataTail := 0

theorem ringOf_holds {rs : List PerfRecord} (h : (recordBytes rs).length ≤ 2 ^ 20) :
    (ringOf rs).Holds 0 rs := by
  refine ⟨fun i hi => ?_, by simp [ringOf]⟩
  have hmod : (0 + i) % 2 ^ 20 = i := by omega
  exact congrArg (fun j => (recordBytes rs).getD j 0) hmod

theorem lostRecord_size_lt : 8 + (toLE 8 1 ++ toLE 8 5).length < 256 ^ 2 := by decide

/-- A `PERF_RECORD_LOST`: five records of event 1 were lost. -/
def lostRecord : PerfRecord where
  type := 2
  misc := 0
  payload := toLE 8 1 ++ toLE 8 5
  size_lt := lostRecord_size_lt

/-- Once perf reports lost records neither function returns. -/
theorem lost_record_diverges :
    (ringOf [lostRecord]).Holds 0 [lostRecord] ∧
      (∀ fuel, (ringOf [lostRecord]).getSamples fuel = none) ∧
      ∀ start stop fuel, (ringOf [lostRecord]).getDist start stop fuel = none := by
  have hstuck {β : Type} (v : Visitor β) (result : β) :
      Diverges (more (ringOf [lostRecord])) (drainBody v (ringOf [lostRecord]))
        ⟨0, 0, result, []⟩ := by
    have hhead : 0 ≠ (ringOf [lostRecord]).dataHead := by decide
    have htype : (ringOf [lostRecord]).field 0 4 ≠ perfRecordSample := by decide
    exact diverges_of_other hhead htype
  exact ⟨ringOf_holds (by decide), hstuck samplesVisitor [],
    fun start stop => hstuck (distVisitor start stop) []⟩

/-! ## what the samples are read as -/

/-- A sample that perf writes. -/
structure Sample where
  misc : UInt16
  ip : UInt64
  addr : UInt64

theorem sample_size_lt (ip addr : Nat) : 8 + (toLE 8 ip ++ toLE 8 addr).length < 256 ^ 2 := by
  simp

/-- `pebs_sample_t`. -/
def Sample.record (x : Sample) : PerfRecord where
  type := .ofNat perfRecordSample
  misc := x.misc
  payload := toLE 8 x.ip.toNat ++ toLE 8 x.addr.toNat
  size_lt := sample_size_lt x.ip.toNat x.addr.toNat

@[simp] theorem Sample.size_record (x : Sample) : x.record.size = 24 := by
  simp [PerfRecord.size, Sample.record]

theorem Sample.bytes_record (x : Sample) : x.record.bytes =
    toLE 4 perfRecordSample ++ toLE 2 x.misc.toNat ++ toLE 2 24 ++
      (toLE 8 x.ip.toNat ++ toLE 8 x.addr.toNat) := by
  rw [PerfRecord.bytes, x.size_record]
  rfl

/-- Samples from a position on, none of which reaches across the end. -/
def Unbroken (size pos n : Nat) : Prop := ∀ i, i < n → (pos + 24 * i) % size + 24 ≤ size

theorem unbroken_succ {size pos n : Nat} :
    Unbroken size pos (n + 1) ↔ pos % size + 24 ≤ size ∧ Unbroken size (pos + 24) n := by
  have hnext (i : Nat) : pos + 24 * (i + 1) = pos + 24 + 24 * i := by omega
  constructor
  · intro h
    exact ⟨h 0 (Nat.succ_pos n), fun i hi => hnext i ▸ h (i + 1) (by omega)⟩
  · rintro ⟨h0, h⟩ i hi
    cases i with
    | zero => exact h0
    | succ i => exact hnext i ▸ h i (by omega)

section Decode

variable {β : Type} {v : Visitor β} {b : SampleBuf} {s : Drain β} {x : Sample} {xs : List Sample}
  {pos : Nat}

theorem field_ip (h : InRing b.data b.dataSize pos x.record.bytes)
    (hend : pos % b.dataSize + 24 ≤ b.dataSize) :
    b.field (pos % b.dataSize + 8) 8 = x.ip.toNat := by
  have hlen : (toLE 4 perfRecordSample ++ toLE 2 x.misc.toNat ++ toLE 2 24).length = 8 := by simp
  rw [x.bytes_record] at h
  rw [SampleBuf.field, ← hlen]
  exact h.ofLE_slice x.ip.toNat_lt (by omega)

theorem field_addr (h : InRing b.data b.dataSize pos x.record.bytes)
    (hend : pos % b.dataSize + 24 ≤ b.dataSize) :
    b.field (pos % b.dataSize + 16) 8 = x.addr.toNat := by
  have hlen : (toLE 4 perfRecordSample ++ toLE 2 x.misc.toNat ++ toLE 2 24 ++
      toLE 8 x.ip.toNat).length = 16 := by simp
  rw [x.bytes_record, ← List.append_assoc, ← List.append_nil (toLE 8 x.addr.toNat)] at h
  rw [SampleBuf.field, ← hlen]
  exact h.ofLE_slice x.addr.toNat_lt (by omega)

/-- Every access is inside the ring. -/
def Drain.Inside (b : SampleBuf) (s : Drain β) : Prop := ∀ a ∈ s.reads, a.1 + a.2 ≤ b.dataSize

/-- What the loop makes of samples. -/
def Visitor.visitAll (v : Visitor β) (result : β) (xs : List Sample) : β :=
  xs.foldl (fun result x => v.visit result x.ip.toNat x.addr.toNat) result

theorem Visitor.visitAll_cons (result : β) : v.visitAll result (x :: xs) =
    v.visitAll (v.visit result x.ip.toNat x.addr.toNat) xs := rfl

/-- A sample that does not reach across the end is read as it was written. -/
theorem advance_of_sample (hx : InRing b.data b.dataSize s.tail x.record.bytes)
    (hend : s.tail % b.dataSize + 24 ≤ b.dataSize) :
    b.field (s.off b) 4 = perfRecordSample ∧ (s.advance v b).tail = s.tail + 24 ∧
      (s.advance v b).result = v.visit s.result x.ip.toNat x.addr.toNat := by
  have hsize : b.field (s.off b + 6) 2 = 24 := (field_size hx (by omega)).trans x.size_record
  have hip : b.field (s.off b + 8) 8 = x.ip.toNat := field_ip hx hend
  have haddr : b.field (s.off b + 16) 8 = x.addr.toNat := field_addr hx hend
  exact ⟨field_type hx (by omega), by simp [Drain.advance, hsize],
    by simp [Drain.advance, Drain.sample, hip, haddr]⟩

theorem mem_reads_advance {a : Nat × Nat} : a ∈ (s.advance v b).reads ↔
    a ∈ s.reads ∨ a = (s.off b, 4) ∨ (∃ f ∈ v.fields, (s.off b + f.1, f.2) = a) ∨
      a = (s.off b + 6, 2) := by
  simp [Drain.advance, Drain.sample]

/-- A sample that does not reach across the end is read inside the ring. -/
theorem Drain.Inside.advance (h : s.Inside b) (hfields : ∀ f ∈ v.fields, f.1 + f.2 ≤ 24)
    (hend : s.tail % b.dataSize + 24 ≤ b.dataSize) : (s.advance v b).Inside b := by
  have hoff : s.off b + 24 ≤ b.dataSize := hend
  intro a ha
  obtain ha | rfl | ⟨f, hf, rfl⟩ | rfl := mem_reads_advance.mp ha
  · exact h a ha
  · simp only
    omega
  · have hle := hfields f hf
    simp only
    omega
  · simp only
    omega

theorem holds_sample_cons (h : b.Holds pos ((x :: xs).map Sample.record)) :
    InRing b.data b.dataSize pos x.record.bytes ∧ b.Holds (pos + 24) (xs.map Sample.record) := by
  rw [List.map_cons] at h
  have hcons := h.cons
  rwa [x.size_record] at hcons

/-- **Samples none of which reaches across the end** are read as they were
written, and nothing beyond the end is. -/
theorem ends_of_unbroken (hring : b.Holds s.tail (xs.map Sample.record))
    (hxs : Unbroken b.dataSize s.tail xs.length)
    (hfull : ∀ n, n ≤ s.sampleCnt + xs.length → v.full n = false)
    (hfields : ∀ f ∈ v.fields, f.1 + f.2 ≤ 24) (hreads : s.Inside b) :
    ∃ r, Ends (more b) (drainBody v b) s r ∧ r.result = v.visitAll s.result xs ∧ r.Inside b := by
  induction xs generalizing s with
  | nil =>
      have hhead : b.dataHead = s.tail := hring.2
      exact ⟨s, ends_exit (by simp [more, hhead]), rfl, hreads⟩
  | cons x xs ih =>
      rw [List.length_cons] at hxs hfull
      obtain ⟨hend, hxs⟩ := unbroken_succ.mp hxs
      obtain ⟨hx, hrest⟩ := holds_sample_cons hring
      have hmore : s.tail ≠ b.dataHead := Nat.ne_of_lt hring.lt_head
      obtain ⟨htype, htail, hresult⟩ := advance_of_sample (v := v) hx hend
      have hbody := drainBody_advance htype (hfull _ (by omega))
      rw [exists_congr fun r => and_congr_left' (ends_yield (more_iff.mpr hmore) hbody)]
      rw [Visitor.visitAll_cons, ← hresult]
      exact ih (htail ▸ hrest) (htail ▸ hxs)
        (fun n hn => hfull n (by simp only [Drain.advance, Drain.sample] at hn; omega))
        (hreads.advance hfields hend)

/-- Accesses stay on record. -/
theorem reads_subset {s' : Drain β} (h : drainBody v b s = .yield s' ∨ drainBody v b s = .done s') :
    s.reads ⊆ s'.reads := by
  by_cases htype : b.field (s.off b) 4 = perfRecordSample
  · cases hfull : v.full (s.sampleCnt + 1) with
    | true =>
        simp only [drainBody_done htype hfull, reduceCtorEq, ForInStep.done.injEq, false_or] at h
        simp [← h, Drain.sample]
    | false =>
        simp only [drainBody_advance htype hfull, reduceCtorEq, ForInStep.yield.injEq,
          or_false] at h
        simp [← h, Drain.advance, Drain.sample]
  · simp only [drainBody_other htype, reduceCtorEq, ForInStep.yield.injEq, or_false] at h
    simp [← h, Drain.other]

/-- **A loop without a limit that reads the whole sample** and nothing beyond
the end has met no sample that reaches across it. -/
theorem unbroken_of_ends {r : Drain β} (hring : b.Holds s.tail (xs.map Sample.record))
    (hlimit : v.limit = none) (haddr : (16, 8) ∈ v.fields)
    (hends : Ends (more b) (drainBody v b) s r) (hr : r.Inside b) :
    Unbroken b.dataSize s.tail xs.length := by
  have hfull (n : Nat) : v.full n = false := by simp [Visitor.full, hlimit]
  have hin {t : Drain β} (ht : Ends (more b) (drainBody v b) t r) : t.Inside b := by
    intro a ha
    have hkeep := ht.invariant (I := fun t => a ∈ t.reads)
      (fun _ _ hmem hbody => reads_subset hbody hmem) ha
    exact hr a hkeep
  induction xs generalizing s with
  | nil => exact fun i hi => absurd hi (Nat.not_lt_zero i)
  | cons x xs ih =>
      obtain ⟨hx, hrest⟩ := holds_sample_cons hring
      have hmore : more b s = true := more_iff.mpr (Nat.ne_of_lt hring.lt_head)
      rw [List.length_cons, unbroken_succ]
      by_cases htype : b.field (s.off b) 4 = perfRecordSample
      · -- the address is the last of the sample that is read
        rw [ends_yield hmore (drainBody_advance htype (hfull _))] at hends
        have hend : s.off b + 16 + 8 ≤ b.dataSize :=
          hin hends (s.off b + 16, 8) (mem_reads_advance.mpr (.inr (.inr (.inl ⟨_, haddr, rfl⟩))))
        obtain ⟨-, htail, -⟩ := advance_of_sample (v := v) hx hend
        exact ⟨hend, htail ▸ ih (htail ▸ hrest) hends⟩
      · -- the type itself was read from beyond the end
        rw [ends_yield hmore (drainBody_other htype)] at hends
        have hend : s.off b + 4 ≤ b.dataSize := hin hends (s.off b, 4) (by simp [Drain.other])
        exact absurd (field_type hx hend) htype

end Decode

/-- The page of an address is one that `get_dist` is asked for. -/
def InDist (start stop addr : Nat) : Prop :=
  start >>> pgSzBits ≤ addr >>> pgSzBits ∧ addr >>> pgSzBits < stop >>> pgSzBits

theorem visitAll_samplesVisitor (result : List (Nat × Nat)) (xs : List Sample) :
    samplesVisitor.visitAll result xs = result ++ xs.map fun x => (x.ip.toNat, x.addr.toNat) := by
  induction xs generalizing result with
  | nil => simp [Visitor.visitAll]
  | cons x xs ih =>
      rw [Visitor.visitAll_cons, ih]
      simp [samplesVisitor]

theorem mem_visit_distVisitor {start stop k ip addr : Nat} {result : List Nat} :
    k ∈ (distVisitor start stop).visit result ip addr ↔ k ∈ result ∨
      InDist start stop addr ∧ k = addr >>> pgSzBits - start >>> pgSzBits := by
  simp only [distVisitor, InDist]
  split <;> simp [*, or_comm]

theorem mem_visitAll_distVisitor {start stop k : Nat} (result : List Nat) (xs : List Sample) :
    k ∈ (distVisitor start stop).visitAll result xs ↔ k ∈ result ∨ ∃ x ∈ xs,
      InDist start stop x.addr.toNat ∧ k = x.addr.toNat >>> pgSzBits - start >>> pgSzBits := by
  induction xs generalizing result with
  | nil => simp [Visitor.visitAll]
  | cons x xs ih =>
      rw [Visitor.visitAll_cons, ih, mem_visit_distVisitor, List.exists_mem_cons_iff, or_assoc]

namespace SampleBuf

variable (b : SampleBuf) (xs : List Sample)

/-- `get_samples` returns the samples in order, and reads nothing beyond the
end of the ring. -/
def SamplesExact : Prop :=
  ∃ fuel r, b.getSamples fuel = some r ∧
    r.result = (xs.map fun x => (x.ip.toNat, x.addr.toNat)) ∧ r.Inside b

/-- `get_dist` marks the pages of the samples. -/
def DistExact (start stop : Nat) : Prop :=
  ∃ fuel r, b.getDist start stop fuel = some r ∧ ∀ k, k ∈ r.result ↔
    ∃ x ∈ xs, InDist start stop x.addr.toNat ∧ k = x.addr.toNat >>> pgSzBits - start >>> pgSzBits

end SampleBuf

theorem SampleBuf.SamplesExact.unbroken {b : SampleBuf} {xs : List Sample}
    (hring : b.Holds b.dataTail (xs.map Sample.record)) (h : b.SamplesExact xs) :
    Unbroken b.dataSize b.dataTail xs.length := by
  obtain ⟨fuel, r, hr, -, hin⟩ := h
  exact unbroken_of_ends (v := samplesVisitor) (s := ⟨b.dataTail, 0, [], []⟩) hring rfl
    (by decide) ⟨fuel, hr⟩ hin

/-- The samples of a ring are read as they were written exactly if none of
them reaches across the end. -/
theorem ring_decoded_iff {b : SampleBuf} {xs : List Sample}
    (hring : b.Holds b.dataTail (xs.map Sample.record)) :
    (b.SamplesExact xs ∧ (xs.length ≤ maxSamples → ∀ start stop, b.DistExact xs start stop)) ↔
      Unbroken b.dataSize b.dataTail xs.length := by
  constructor
  · exact fun h => h.1.unbroken hring
  · intro hxs
    have hnone {β : Type} (result : β) : Drain.Inside b ⟨b.dataTail, 0, result, []⟩ :=
      fun a ha => absurd ha List.not_mem_nil
    constructor
    · obtain ⟨r, ⟨fuel, hr⟩, hresult, hin⟩ := ends_of_unbroken (v := samplesVisitor) hring hxs
        (fun _ _ => rfl) (by decide) (hnone [])
      exact ⟨fuel, r, hr, by rw [hresult, visitAll_samplesVisitor, List.nil_append], hin⟩
    · intro hlen start stop
      obtain ⟨r, ⟨fuel, hr⟩, hresult, -⟩ := ends_of_unbroken (v := distVisitor start stop) hring hxs
        (fun n hn => by simp [Visitor.full, distVisitor] at hn ⊢; omega) (by simp [distVisitor])
        (hnone [])
      refine ⟨fuel, r, hr, fun k => ?_⟩
      rw [hresult, mem_visitAll_distVisitor]
      simp

/-- A sample of a load from page 3. -/
def samplePage3 : Sample := ⟨0, 0x400, 0x3008⟩

/-- A sample of a load from page 5. -/
def samplePage5 : Sample := ⟨0, 0x404, 0x5010⟩

/-- Two samples at the start of the ring. -/
def twoSamples : SampleBuf := ringOf ([samplePage3, samplePage5].map Sample.record)

theorem twoSamples_holds :
    twoSamples.Holds twoSamples.dataTail ([samplePage3, samplePage5].map Sample.record) :=
  ringOf_holds (by decide)

theorem ring_drained_two_samples :
    twoSamples.SamplesDrained ∧ twoSamples.DistDrained 0 0x10000 := by
  have hwhole : HeadersWhole (2 ^ 20) 0 ([samplePage3, samplePage5].map Sample.record) :=
    headersWhole_of_aligned ringBytes_pos (by decide) (by decide) (by simp)
  have hdrained := ring_drained_iff twoSamples_holds hwhole
  exact ⟨hdrained.1.mpr (by decide), (hdrained.2 0 0x10000).mpr (by decide)⟩

theorem ring_decoded_two_samples : twoSamples.SamplesExact [samplePage3, samplePage5] ∧
    twoSamples.DistExact [samplePage3, samplePage5] 0 0x10000 := by
  have hunbroken : Unbroken twoSamples.dataSize twoSamples.dataTail 2 := by
    unfold Unbroken
    decide
  have hexact := (ring_decoded_iff twoSamples_holds).mpr hunbroken
  exact ⟨hexact.1, hexact.2 (by decide) 0 0x10000⟩

/-- The ring after 43690 samples have been read, with one more sample. -/
def wrappedRing : SampleBuf where
  data i := samplePage3.record.bytes.getD ((i + 16) % 2 ^ 20) 0
  dataSize := 2 ^ 20
  dataSize_pos := ringBytes_pos
  dataHead := 24 * 43691
  dataTail := 24 * 43690

/-- That sample has its address at the start of the ring, and the address is
read from beyond the end. -/
theorem ring_not_decoded_wrapped :
    wrappedRing.Holds wrappedRing.dataTail [samplePage3.record] ∧
      ¬ wrappedRing.SamplesExact [samplePage3] := by
  have hring : wrappedRing.Holds wrappedRing.dataTail [samplePage3.record] := by decide
  refine ⟨hring, fun h => ?_⟩
  have hwrap := h.unbroken hring 0 (by decide)
  exact absurd hwrap (by decide)

end Cxlbuf.Cxlfs
