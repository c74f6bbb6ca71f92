import Cxlbuf.Log

/-!
# Cxlbuf.Log.Flush

Which cache lines of a log area have been flushed when `snapshot` starts to
commit.  `log_range` flushes incrementally, with offsets that count from the
start of the area, while the records start `sizeofLogLayout` bytes into it;
`flush_all` flushes the rest.

`FlushInv` is what every sequence of `log_range` calls maintains: the lines
below `last_flush_offset` were flushed after their last write, and no line
from there on was flushed at all.  The line that `last_flush_offset` points
to holds the last `sizeofLogLayout` bytes of the log whenever the log ends
at a multiple of 64, and then `flush_all` has nothing left to do
(`not_flushedAtCommit`); in every other case the log is flushed in full
(`flushedAtCommit`).
-/

namespace Cxlbuf

open ByteMem

/-! ## lines of a log area -/

/-- The access writes line `l` of log area `t`. -/
def PmOp.WritesLogLine (t l : Nat) : PmOp → Prop
  | .storeState u _ | .storeOffset u _ | .storeTail u _ | .streamState u _ => u = t ∧ l = 0
  | .storeLog u off data =>
      u = t ∧ ∃ i, i < data.length ∧ (sizeofLogLayout + (off + i)) / 64 = l
  | _ => False

/-- The access flushes line `l` of log area `t`. -/
def PmOp.FlushesLogLine (t l : Nat) : PmOp → Prop
  | .flushLog u off n => u = t ∧ PmOp.FlushesLine off n l
  | _ => False

/-- Line `l` was passed to `flush` after the last write to it. -/
def FlushedAfterLastWrite (t l : Nat) (ops : List PmOp) : Prop :=
  ∃ pre op post, ops = pre ++ op :: post ∧ op.FlushesLogLine t l ∧
    ∀ op' ∈ post, ¬ op'.WritesLogLine t l

/-- Every line that holds a byte of `content[0, n)` was passed to `flush`
after the last write to it. -/
def ContentFlushed (t n : Nat) (ops : List PmOp) : Prop :=
  ∀ i, i < n → FlushedAfterLastWrite t ((sizeofLogLayout + i) / 64) ops

/-- Accesses that do not write the line keep it flushed. -/
theorem FlushedAfterLastWrite.append {t l : Nat} {ops ops' : List PmOp}
    (h : FlushedAfterLastWrite t l ops) (h' : ∀ op ∈ ops', ¬ op.WritesLogLine t l) :
    FlushedAfterLastWrite t l (ops ++ ops') := by
  obtain ⟨pre, op, post, rfl, hop, hpost⟩ := h
  refine ⟨pre, op, post ++ ops', by simp, hop, ?_⟩
  intro op' hop'
  rcases List.mem_append.mp hop' with hmem | hmem
  · exact hpost op' hmem
  · exact h' op' hmem

/-- A flush at the end of some accesses flushes its lines. -/
theorem flushedAfterLastWrite_concat {t l : Nat} (ops : List PmOp) {op : PmOp}
    (h : op.FlushesLogLine t l) : FlushedAfterLastWrite t l (ops ++ [op]) :=
  ⟨ops, op, [], rfl, h, by simp⟩

namespace Log

/-! ## runs of log_range -/

/-- A call `log_range(start, bytes)` and the memory it finds. -/
structure RangeCall where
  mem : Mem
  start : Nat
  bytes : Nat

/-- A log in use, with the accesses made to persistent memory so far. -/
structure Run where
  log : Log
  pm : PmImage
  ops : List PmOp

/-- One `log_range` call on log `t`. -/
def Run.call (fmt : LogFormat) (t : Nat) (r : Run) (c : RangeCall) : Run where
  log := r.log.logRange fmt (r.pm.area t).logOffset c.start c.bytes
  pm := execOps r.pm (logRangeOps fmt t r.log (r.pm.area t) c.mem c.start c.bytes)
  ops := r.ops ++ logRangeOps fmt t r.log (r.pm.area t) c.mem c.start c.bytes

/-- A sequence of `log_range` calls on log `t`. -/
def Run.calls (fmt : LogFormat) (t : Nat) (r : Run) (cs : List RangeCall) : Run :=
  cs.foldl (Run.call fmt t) r

/-- The bytes the calls add to the log: a header and the content for every
call that is not a duplicate of the one recorded last. -/
def recordedBytes (fmt : LogFormat) : LogEntryLean → List RangeCall → Nat
  | _, [] => 0
  | last, c :: cs =>
      if fmt = .volatile ∧ last = ⟨c.start, c.bytes⟩ then recordedBytes fmt last cs
      else sizeofLogEntry + c.bytes + recordedBytes fmt ⟨c.start, c.bytes⟩ cs

/-! ## the flush invariant -/

/-- What incremental flushing maintains: `last_flush_offset` is the last
line boundary the log has reached, and exactly the lines below it were
flushed (line 0 also holds the header, which every call rewrites). -/
structure FlushInv (t : Nat) (r : Run) : Prop where
  aligned : r.log.lastFlushOffset % 64 = 0
  le_offset : r.log.lastFlushOffset ≤ (r.pm.area t).logOffset
  offset_lt : (r.pm.area t).logOffset < r.log.lastFlushOffset + 64
  tail_eq : (r.pm.area t).tailPtr = (r.pm.area t).logOffset
  flushed : ∀ l, 0 < l → l < r.log.lastFlushOffset / 64 → FlushedAfterLastWrite t l r.ops
  unflushed : ∀ op ∈ r.ops, ∀ l, op.FlushesLogLine t l → l < r.log.lastFlushOffset / 64

/-- A fresh log satisfies the invariant. -/
theorem FlushInv.of_cleared {t : Nat} {l : Log} {m : PmImage} (h : Cleared l (m.area t)) :
    FlushInv t ⟨l, m, []⟩ where
  aligned := by simp [h.lastFlushOffset]
  le_offset := by simp [h.lastFlushOffset]
  offset_lt := by simp [h.lastFlushOffset, h.logOffset]
  tail_eq := by simp [h.tailPtr, h.logOffset]
  flushed := by simp [h.lastFlushOffset]
  unflushed := by simp

/-- The new flush offset is the last line boundary at or below the log's
end, and what is flushed is everything between the old one and the new. -/
theorem flushOps_spec (t : Nat) {lfo lo : Nat} (ha : lfo % 64 = 0) (hlt : lfo < lo) :
    nextFlushOffset lfo lo % 64 = 0 ∧ lfo ≤ nextFlushOffset lfo lo ∧
      nextFlushOffset lfo lo ≤ lo ∧ lo < nextFlushOffset lfo lo + 64 ∧
      flushOps t lfo lo = if nextFlushOffset lfo lo = lfo then []
        else [.flushLog t lfo (nextFlushOffset lfo lo - lfo)] := by
  unfold nextFlushOffset flushOps clsToFlush
  by_cases hb : lo % 64 = 0
  · have hlen : (lo - lfo + 63) / 64 * 64 = lo - lfo := by omega
    rw [if_pos hb, if_pos hb, hlen, if_neg (by omega)]
    exact ⟨hb, by omega, by omega, by omega, rfl⟩
  · rw [if_neg hb, if_neg hb]
    by_cases hc : 1 < (lo - lfo + 63) / 64
    · have hlen : lfo + ((lo - lfo + 63) / 64 - 1) * 64 - lfo =
          ((lo - lfo + 63) / 64 - 1) * 64 := by omega
      rw [if_pos hc, if_pos hc, if_neg (by omega), hlen]
      exact ⟨by omega, by omega, by omega, by omega, rfl⟩
    · rw [if_neg hc, if_neg hc, if_pos rfl]
      exact ⟨ha, by omega, by omega, by omega, rfl⟩

/-- Flushing between two line boundaries flushes the lines between them. -/
theorem flushesLine_sub_iff {p q l : Nat} (hp : p % 64 = 0) (hq : q % 64 = 0) (hlt : p < q) :
    PmOp.FlushesLine p (q - p) l ↔ p / 64 ≤ l ∧ l < q / 64 := by
  unfold PmOp.FlushesLine
  omega

/-- A record is written at the tail, so apart from the header's line only
lines from the tail's on are written. -/
theorem le_of_writesLogLine_recordOps {t l : Nat} {a : LogLayout} {mem : Mem} {start bytes : Nat}
    {op : PmOp} (hop : op ∈ recordOps t a mem start bytes) (hw : op.WritesLogLine t l)
    (hl : 0 < l) : (sizeofLogLayout + a.tailPtr) / 64 ≤ l := by
  simp only [recordOps, List.mem_cons, List.not_mem_nil, or_false] at hop
  rcases hop with rfl | rfl | rfl | rfl | rfl
  · obtain ⟨-, i, -, rfl⟩ := hw; omega
  · obtain ⟨-, i, -, rfl⟩ := hw; omega
  · obtain ⟨-, i, -, rfl⟩ := hw; omega
  · exact absurd hw.2 (by omega)
  · exact absurd hw.2 (by omega)

/-- Appending a record flushes no line. -/
theorem not_flushesLogLine_recordOps {t l : Nat} {a : LogLayout} {mem : Mem} {start bytes : Nat}
    {op : PmOp} (hop : op ∈ recordOps t a mem start bytes) : ¬ op.FlushesLogLine t l := by
  simp only [recordOps, List.mem_cons, List.not_mem_nil, or_false] at hop
  rcases hop with rfl | rfl | rfl | rfl | rfl <;> exact id

/-- A duplicate call changes nothing but the volatile entries. -/
theorem Run.call_of_duplicate {fmt : LogFormat} {t : Nat} {r : Run} {c : RangeCall}
    (h : r.log.IsDuplicate fmt c.start c.bytes) :
    (r.call fmt t c).pm = r.pm ∧ (r.call fmt t c).ops = r.ops ∧
      (r.call fmt t c).log.lastFlushOffset = r.log.lastFlushOffset := by
  have hops : logRangeOps fmt t r.log (r.pm.area t) c.mem c.start c.bytes = [] := if_pos h
  refine ⟨by simp [call, hops], by simp [call, hops], ?_⟩
  simp only [call, logRange, if_pos h]
  cases fmt <;> rfl

/-- Any other call appends a record and flushes up to the new boundary. -/
theorem Run.call_of_not_duplicate {fmt : LogFormat} {t : Nat} {r : Run} {c : RangeCall}
    (h : ¬ r.log.IsDuplicate fmt c.start c.bytes) :
    (r.call fmt t c).pm.area t = appendRecord (r.pm.area t) c.mem c.start c.bytes ∧
      (r.call fmt t c).ops = r.ops ++ (recordOps t (r.pm.area t) c.mem c.start c.bytes ++
        flushOps t r.log.lastFlushOffset
          ((r.pm.area t).logOffset + (sizeofLogEntry + c.bytes))) ∧
      (r.call fmt t c).log.lastFlushOffset = nextFlushOffset r.log.lastFlushOffset
        ((r.pm.area t).logOffset + (sizeofLogEntry + c.bytes)) := by
  refine ⟨?_, ?_, ?_⟩
  · rw [call, execOps_logRangeOps, if_neg h, PmImage.updateArea_area_self]
  · rw [call, logRangeOps, if_neg h]
  · simp only [call, logRange, if_neg h]

/-- A duplicate keeps the invariant. -/
theorem FlushInv.call_of_duplicate {fmt : LogFormat} {t : Nat} {r : Run} (hinv : FlushInv t r)
    {c : RangeCall} (hdup : r.log.IsDuplicate fmt c.start c.bytes) :
    FlushInv t (r.call fmt t c) := by
  obtain ⟨hpm, hops, hlfo⟩ := Run.call_of_duplicate (t := t) hdup
  constructor
  · rw [hlfo]; exact hinv.aligned
  · rw [hlfo, hpm]; exact hinv.le_offset
  · rw [hlfo, hpm]; exact hinv.offset_lt
  · rw [hpm]; exact hinv.tail_eq
  · rw [hlfo, hops]; exact hinv.flushed
  · rw [hlfo, hops]; exact hinv.unflushed

/-- **What a recorded call does**: the new flush offset is the last line
boundary at or below the new end of the log, and what lies between the old one
and the new is flushed once the record is written. -/
theorem FlushInv.call_spec {fmt : LogFormat} {t : Nat} {r : Run} (hinv : FlushInv t r)
    {c : RangeCall} (hdup : ¬ r.log.IsDuplicate fmt c.start c.bytes) :
    (r.call fmt t c).log.lastFlushOffset % 64 = 0 ∧
      r.log.lastFlushOffset ≤ (r.call fmt t c).log.lastFlushOffset ∧
      (r.call fmt t c).log.lastFlushOffset ≤ ((r.call fmt t c).pm.area t).logOffset ∧
      ((r.call fmt t c).pm.area t).logOffset < (r.call fmt t c).log.lastFlushOffset + 64 ∧
      ((r.call fmt t c).pm.area t).tailPtr = ((r.call fmt t c).pm.area t).logOffset ∧
      (r.call fmt t c).ops = r.ops ++ (recordOps t (r.pm.area t) c.mem c.start c.bytes ++
        if (r.call fmt t c).log.lastFlushOffset = r.log.lastFlushOffset then []
        else [.flushLog t r.log.lastFlushOffset
          ((r.call fmt t c).log.lastFlushOffset - r.log.lastFlushOffset)]) := by
  obtain ⟨harea, hops, hlfo⟩ := Run.call_of_not_duplicate (t := t) hdup
  have hge := hinv.le_offset
  have hsz : 0 < sizeofLogEntry := by decide
  have hlt : r.log.lastFlushOffset < (r.pm.area t).logOffset + (sizeofLogEntry + c.bytes) := by
    omega
  obtain ⟨halign, hle, hle', hlt', hflush⟩ := flushOps_spec t hinv.aligned hlt
  rw [hflush] at hops
  rw [hops, harea, hlfo]
  refine ⟨halign, hle, hle', hlt', ?_, rfl⟩
  simp only [appendRecord, hinv.tail_eq]

/-- So does a call that appends a record: the lines it writes lie at or above
the old flush offset, and those below the new one are flushed after that. -/
theorem FlushInv.call_of_not_duplicate {fmt : LogFormat} {t : Nat} {r : Run}
    (hinv : FlushInv t r) {c : RangeCall} (hdup : ¬ r.log.IsDuplicate fmt c.start c.bytes) :
    FlushInv t (r.call fmt t c) := by
  obtain ⟨halign', hle, hle', hlt', htail', hops⟩ := hinv.call_spec hdup
  have hge := hinv.le_offset
  have htail := hinv.tail_eq
  have halign := hinv.aligned
  refine ⟨halign', hle', hlt', htail', ?_, ?_⟩
  · intro l hl0 hl
    by_cases hold : l < r.log.lastFlushOffset / 64
    · rw [hops]
      refine (hinv.flushed l hl0 hold).append ?_
      intro op hop hw
      cases List.mem_append.mp hop with
      | inl hrec =>
          have hline := le_of_writesLogLine_recordOps hrec hw hl0
          omega
      | inr hfl =>
          split at hfl
          · simp at hfl
          · rw [List.mem_singleton.mp hfl] at hw
            exact hw
    · have hne : (r.call fmt t c).log.lastFlushOffset ≠ r.log.lastFlushOffset := by
        intro heq
        rw [heq] at hl
        omega
      rw [hops, if_neg hne, ← List.append_assoc]
      refine flushedAfterLastWrite_concat _ ⟨rfl, ?_⟩
      exact (flushesLine_sub_iff halign halign' (by omega)).mpr ⟨by omega, hl⟩
  · intro op hop l hfl
    rw [hops] at hop
    cases List.mem_append.mp hop with
    | inl hold =>
        have hb := hinv.unflushed op hold l hfl
        omega
    | inr hnew =>
        cases List.mem_append.mp hnew with
        | inl hrec => exact absurd hfl (not_flushesLogLine_recordOps hrec)
        | inr hnew =>
            split at hnew
            case isTrue => simp at hnew
            case isFalse hne =>
              rw [List.mem_singleton.mp hnew] at hfl
              exact ((flushesLine_sub_iff halign halign' (by omega)).mp hfl.2).2

/-- **One call keeps the invariant.** -/
theorem FlushInv.call {fmt : LogFormat} {t : Nat} {r : Run} (hinv : FlushInv t r) (c : RangeCall) :
    FlushInv t (r.call fmt t c) := by
  by_cases hdup : r.log.IsDuplicate fmt c.start c.bytes
  · exact hinv.call_of_duplicate hdup
  · exact hinv.call_of_not_duplicate hdup

/-- **Every sequence of calls keeps the invariant.** -/
theorem FlushInv.calls {fmt : LogFormat} {t : Nat} {r : Run} (hinv : FlushInv t r)
    (cs : List RangeCall) : FlushInv t (r.calls fmt t cs) := by
  induction cs generalizing r with
  | nil => exact hinv
  | cons c cs ih => exact ih (hinv.call c)

/-- Only the volatile format compares with the last recorded range. -/
theorem recordedBytes_nonVolatile (last last' : LogEntryLean) (cs : List RangeCall) :
    recordedBytes .nonVolatile last cs = recordedBytes .nonVolatile last' cs := by
  cases cs <;> simp [recordedBytes]

/-- The offset the calls reach. -/
theorem logOffset_calls (fmt : LogFormat) (t : Nat) (r : Run) (cs : List RangeCall) :
    ((r.calls fmt t cs).pm.area t).logOffset =
      (r.pm.area t).logOffset + recordedBytes fmt r.log.lastLog cs := by
  induction cs generalizing r with
  | nil => rfl
  | cons c cs ih =>
      have ih' := ih (r.call fmt t c)
      rw [Run.calls, List.foldl_cons, ← Run.calls, ih']
      by_cases hdup : r.log.IsDuplicate fmt c.start c.bytes
      · have hlast : (r.call fmt t c).log.lastLog = r.log.lastLog := by
          simp only [Run.call, logRange, if_pos hdup]
          cases fmt with
          | volatile => exact hdup.2.symm
          | nonVolatile => rfl
        have hrec : recordedBytes fmt r.log.lastLog (c :: cs) =
            recordedBytes fmt r.log.lastLog cs := if_pos hdup
        rw [(Run.call_of_duplicate hdup).1, hlast, hrec]
      · have hsz : ((r.call fmt t c).pm.area t).logOffset =
            (r.pm.area t).logOffset + (sizeofLogEntry + c.bytes) := by
          rw [(Run.call_of_not_duplicate hdup).1]; rfl
        have hlast : recordedBytes fmt (r.call fmt t c).log.lastLog cs =
            recordedBytes fmt ⟨c.start, c.bytes⟩ cs := by
          cases fmt with
          | volatile => simp only [Run.call, logRange, if_neg hdup]
          | nonVolatile => exact recordedBytes_nonVolatile _ _ cs
        have hrec : recordedBytes fmt r.log.lastLog (c :: cs) =
            sizeofLogEntry + c.bytes + recordedBytes fmt ⟨c.start, c.bytes⟩ cs := if_neg hdup
        rw [hsz, hlast, hrec]
        omega

/-! ## the log when the commit starts -/

/-- Once `snapshot` has armed the log, every line that holds a byte of
`content` up to the offset the calls reached was passed to `flush` after the
last write to it. -/
def FlushedAtCommit (t : Nat) (r : Run) : Prop :=
  ContentFlushed t (r.pm.area t).logOffset (r.ops ++ activateOps t r.log (r.pm.area t))

/-- After `flush_all`, arming a log only writes the header's line. -/
theorem not_writesLogLine_arm {t l : Nat} (hl : 0 < l) :
    ∀ op ∈ [PmOp.storeOffset t 0] ++ setStateOps t .active true, ¬ op.WritesLogLine t l := by
  intro op hop hw
  simp only [setStateOps, if_true, List.mem_append, List.mem_cons, List.not_mem_nil,
    or_false] at hop
  rcases hop with rfl | (rfl | rfl) | rfl
  · exact absurd hw.2 (by omega)
  · exact absurd hw.2 (by omega)
  · exact hw
  · exact hw

/-- `set_state(ACTIVE, true)` flushes the header's line. -/
theorem flushed_header_line (t : Nat) (ops : List PmOp) (l : Log) (a : LogLayout) :
    FlushedAfterLastWrite t 0 (ops ++ activateOps t l a) := by
  refine ⟨ops ++ (flushAllOps t l a ++ [PmOp.storeOffset t 0, .storeState t .active]),
    .flushLog t 0 sizeofLogLayout, [.drain], by simp [activateOps, setStateOps], ⟨rfl, ?_⟩, ?_⟩
  · decide
  · intro op hop
    rw [List.mem_singleton] at hop
    subst hop
    exact id

/-- A log that does not end at a line boundary is flushed in full. -/
theorem flushedAtCommit {t : Nat} {r : Run} (hinv : FlushInv t r)
    (h : (r.pm.area t).logOffset = 0 ∨ (r.pm.area t).logOffset % 64 ≠ 0) :
    FlushedAtCommit t r := by
  intro i hi
  have halign := hinv.aligned
  have hle := hinv.le_offset
  have hlt := hinv.offset_lt
  have hne : r.log.lastFlushOffset ≠ (r.pm.area t).logOffset := by omega
  have hsz : sizeofLogLayout = 24 := rfl
  have hops : r.ops ++ activateOps t r.log (r.pm.area t) = (r.ops ++
      [PmOp.flushLog t (sizeofLogLayout + r.log.lastFlushOffset)
        ((r.pm.area t).logOffset - r.log.lastFlushOffset)]) ++
      ([PmOp.storeOffset t 0] ++ setStateOps t .active true) := by
    simp [activateOps, flushAllOps, hne]
  rcases Nat.eq_zero_or_pos ((sizeofLogLayout + i) / 64) with hzero | hpos
  · rw [hzero]; exact flushed_header_line t r.ops r.log (r.pm.area t)
  · rw [hops]
    refine FlushedAfterLastWrite.append ?_ (not_writesLogLine_arm hpos)
    by_cases hold : (sizeofLogLayout + i) / 64 < r.log.lastFlushOffset / 64
    · refine (hinv.flushed _ hpos hold).append ?_
      intro op hop
      rw [List.mem_singleton] at hop
      subst hop
      exact id
    · refine flushedAfterLastWrite_concat _ ⟨rfl, ?_⟩
      unfold PmOp.FlushesLine
      omega

/-- A log that ends at a line boundary is not: its last `sizeofLogLayout`
bytes are on a line no access has flushed. -/
theorem not_flushedAtCommit {t : Nat} {r : Run} (hinv : FlushInv t r)
    (hpos : 0 < (r.pm.area t).logOffset) (h : (r.pm.area t).logOffset % 64 = 0) :
    ¬ FlushedAtCommit t r := by
  intro hflushed
  have halign := hinv.aligned
  have hle := hinv.le_offset
  have hlt := hinv.offset_lt
  have heq : r.log.lastFlushOffset = (r.pm.area t).logOffset := by omega
  have hsz : sizeofLogLayout = 24 := rfl
  have hline : (sizeofLogLayout + ((r.pm.area t).logOffset - 1)) / 64 =
      (r.pm.area t).logOffset / 64 := by omega
  obtain ⟨pre, op, post, hops, hop, -⟩ := hflushed ((r.pm.area t).logOffset - 1) (by omega)
  rw [hline] at hop
  have hmem : op ∈ r.ops ++ activateOps t r.log (r.pm.area t) := by rw [hops]; simp
  rcases List.mem_append.mp hmem with hold | hact
  · have hlow := hinv.unflushed op hold _ hop
    omega
  · simp only [activateOps, flushAllOps, heq, ne_eq, not_true, if_false, setStateOps, if_true,
      List.nil_append, List.cons_append, List.mem_cons, List.not_mem_nil, or_false] at hact
    rcases hact with rfl | rfl | rfl | rfl
    · exact hop
    · exact hop
    · obtain ⟨-, hfl⟩ := hop
      unfold PmOp.FlushesLine at hfl
      omega
    · exact hop

/-- **When the log is flushed before the commit**: once `snapshot` has armed
the log, every line of its content was flushed after its last write exactly
when the records do not fill the log up to a line boundary. -/
theorem flushedAtCommit_iff (fmt : LogFormat) (t : Nat) {l : Log} {m : PmImage}
    (h : Cleared l (m.area t)) (cs : List RangeCall) :
    FlushedAtCommit t ((Run.mk l m []).calls fmt t cs) ↔
      recordedBytes fmt ⟨0, 0⟩ cs = 0 ∨ recordedBytes fmt ⟨0, 0⟩ cs % 64 ≠ 0 := by
  have hinv : FlushInv t ((Run.mk l m []).calls fmt t cs) := (FlushInv.of_cleared h).calls cs
  have hlo : (((Run.mk l m []).calls fmt t cs).pm.area t).logOffset =
      recordedBytes fmt ⟨0, 0⟩ cs := by
    rw [logOffset_calls, h.logOffset, h.lastLog, Nat.zero_add]
  constructor
  · intro hflushed
    by_contra hbad
    exact not_flushedAtCommit hinv (by omega) (by omega) hflushed
  · intro hcond
    exact flushedAtCommit hinv (by rw [hlo]; exact hcond)

/-- The condition is met after one 8-byte store. -/
theorem flushedAtCommit_store8 : FlushedAtCommit 0
    ((Run.mk (fresh 1) ⟨fun _ => freshArea, fun _ => 0⟩ []).calls .volatile 0
      [⟨fun _ => 0, 2 ^ 40, 8⟩]) :=
  (flushedAtCommit_iff .volatile 0 (m := ⟨fun _ => freshArea, fun _ => 0⟩) (cleared_fresh 1)
    [⟨fun _ => 0, 2 ^ 40, 8⟩]).mpr (by decide)

/-- After one 54-byte store it is not: the record takes 64 bytes. -/
theorem not_flushedAtCommit_store54 : ¬ FlushedAtCommit 0
    ((Run.mk (fresh 1) ⟨fun _ => freshArea, fun _ => 0⟩ []).calls .volatile 0
      [⟨fun _ => 0, 2 ^ 40, 54⟩]) :=
  not_flushedAtCommit ((FlushInv.of_cleared (cleared_fresh 1)).calls _) (by decide) (by decide)

end Log

end Cxlbuf
