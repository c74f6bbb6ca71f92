import Cxlbuf.Lib.Tiling
import Cxlbuf.Machine

/-!
# Cxlbuf.Log

The thread-local undo log (`class Log`, `log.hh` / `log.cc`).

A log has two halves.  The persistent one is a `LogLayout` and changes only
through the accesses the operations below issue; the volatile one is `Log`.
Every operation is therefore given twice: what it does to the volatile half,
and the list of accesses it makes to persistent memory, in program order.

A log entry in persistent memory is a packed record: bit 0 is `disabled`
(never written by `log_range`), the next 23 bits are `bytes`, the next 56
`addr`, and the saved content follows.
-/

namespace Cxlbuf

open ByteMem

/-- Which of the two `LOG_FORMAT_*` flags the build sets. -/
inductive LogFormat where
  | volatile
  | nonVolatile
deriving DecidableEq, Repr

/-- `log_entry_lean_t`: a logged address range. -/
structure LogEntryLean where
  addr : Nat
  bytes : Nat
deriving DecidableEq, Repr

/-- The volatile half of a `Log`.  `entries` is only kept under
`LOG_FORMAT_VOLATILE`. -/
structure Log where
  tid : Nat
  entries : List LogEntryLean
  lastLog : LogEntryLean
  lastFlushOffset : Nat
deriving DecidableEq, Repr

namespace Log

/-! ## log_range -/

/-- A back-to-back duplicate: the range is the last one that was recorded.
Only the volatile format looks for them. -/
def IsDuplicate (fmt : LogFormat) (l : Log) (start bytes : Nat) : Prop :=
  fmt = .volatile ∧ l.lastLog = ⟨start, bytes⟩

instance (fmt : LogFormat) (l : Log) (start bytes : Nat) :
    Decidable (l.IsDuplicate fmt start bytes) := by unfold IsDuplicate; infer_instance

/-- `cls_to_flush`: the cache lines from the last flushed offset on. -/
def clsToFlush (lastFlushOffset logOffset : Nat) : Nat := (logOffset - lastFlushOffset + 63) / 64

/-- The flush `log_range` issues once the offset has reached `logOffset`:
all lines when the entry ends at a line boundary, all but the last one
otherwise.  Offsets count from the start of the log area. -/
def flushOps (t lastFlushOffset logOffset : Nat) : List PmOp :=
  if logOffset % 64 = 0 then
    [.flushLog t lastFlushOffset (clsToFlush lastFlushOffset logOffset * 64)]
  else if 1 < clsToFlush lastFlushOffset logOffset then
    [.flushLog t lastFlushOffset ((clsToFlush lastFlushOffset logOffset - 1) * 64)]
  else []

/-- `last_flush_offset` after `log_range`. -/
def nextFlushOffset (lastFlushOffset logOffset : Nat) : Nat :=
  if logOffset % 64 = 0 then logOffset
  else if 1 < clsToFlush lastFlushOffset logOffset then
    lastFlushOffset + (clsToFlush lastFlushOffset logOffset - 1) * 64
  else lastFlushOffset

/-- The stores that append one record at the tail: the two bit-fields (a
store to `bytes` keeps the `disabled` bit of its first byte), the old
content, then the offset and the tail pointer. -/
def recordOps (t : Nat) (a : LogLayout) (mem : Mem) (start bytes : Nat) : List PmOp :=
  [.storeLog t (a.tailPtr + 3) (toLE 7 start),
   .storeLog t a.tailPtr (toLE 3 ((a.content a.tailPtr).toNat % 2 + 2 * (bytes % 2 ^ 23))),
   .storeLog t (a.tailPtr + sizeofLogEntry) (slice mem start bytes),
   .storeOffset t (a.logOffset + (sizeofLogEntry + bytes)),
   .storeTail t (a.tailPtr + (sizeofLogEntry + bytes))]

/-- `log_range` on the volatile half; `logOffset` is the offset found in
the log area. -/
def logRange (fmt : LogFormat) (l : Log) (logOffset start bytes : Nat) : Log :=
  let l' := match fmt with
    | .volatile => { l with entries := l.entries ++ [⟨start, bytes⟩], lastLog := ⟨start, bytes⟩ }
    | .nonVolatile => l
  if l.IsDuplicate fmt start bytes then l'
  else { l' with lastFlushOffset :=
          nextFlushOffset l.lastFlushOffset (logOffset + (sizeofLogEntry + bytes)) }

/-- `log_range` on persistent memory. -/
def logRangeOps (fmt : LogFormat) (t : Nat) (l : Log) (a : LogLayout) (mem : Mem)
    (start bytes : Nat) : List PmOp :=
  if l.IsDuplicate fmt start bytes then []
  else recordOps t a mem start bytes ++
    flushOps t l.lastFlushOffset (a.logOffset + (sizeofLogEntry + bytes))

/-! ## flush_all, set_state, clear -/

/-- `flush_all`: flush what `log_range` left unflushed.  The start counts
from `content`, which lies `sizeofLogLayout` bytes into the area. -/
def flushAllOps (t : Nat) (l : Log) (a : LogLayout) : List PmOp :=
  if l.lastFlushOffset ≠ a.logOffset then
    [.flushLog t (sizeofLogLayout + l.lastFlushOffset) (a.logOffset - l.lastFlushOffset)]
  else []

/-- `set_state`. -/
def setStateOps (t : Nat) (s : State) (flushWhole : Bool) : List PmOp :=
  (if flushWhole then [.storeState t s, .flushLog t 0 sizeofLogLayout] else [.streamState t s]) ++
    [.drain]

/-- How `snapshot` arms a log before it touches the backing file: flush the
log, reset `log_offset`, set the state to `ACTIVE`. -/
def activateOps (t : Nat) (l : Log) (a : LogLayout) : List PmOp :=
  flushAllOps t l a ++ [.storeOffset t 0] ++ setStateOps t .active true

/-- `clear` on persistent memory. -/
def clearOps (t : Nat) : List PmOp := [.storeOffset t 0, .storeTail t 0]

/-- `clear` on the volatile half. -/
def clear (l : Log) : Log :=
  { l with entries := [], lastLog := ⟨0, 0⟩, lastFlushOffset := 0 }

/-- The volatile half of a new `Log`. -/
def fresh (tid : Nat) : Log := ⟨tid, [], ⟨0, 0⟩, 0⟩

/-- The log area `init_thread_buf` sets up: a new file, which reads as
zeros, with the offset and the tail pointer at the start. -/
def freshArea : LogLayout := ⟨⟨.empty, 0, 0⟩, fun _ => 0⟩

/-- A log right after `clear`, or as its constructor leaves it. -/
structure Cleared (l : Log) (a : LogLayout) : Prop where
  entries : l.entries = []
  lastLog : l.lastLog = ⟨0, 0⟩
  lastFlushOffset : l.lastFlushOffset = 0
  logOffset : a.logOffset = 0
  tailPtr : a.tailPtr = 0

theorem cleared_fresh (tid : Nat) : Cleared (fresh tid) freshArea := ⟨rfl, rfl, rfl, rfl, rfl⟩

/-! ## reading records -/

/-- `entry->bytes` of the record at an offset of `content`: 23 bits after
the `disabled` bit. -/
def entryBytes (content : Mem) (off : Nat) : Nat := ofLE (slice content off 3) / 2

/-- `entry->addr` of the record at an offset of `content`. -/
def entryAddr (content : Mem) (off : Nat) : Nat := ofLE (slice content (off + 3) 7)

/-- `entry->content`, as many bytes as the record says. -/
def entryContent (content : Mem) (off : Nat) : List UInt8 :=
  slice content (off + sizeofLogEntry) (entryBytes content off)

/-- The range of the record at an offset. -/
def entryLean (content : Mem) (off : Nat) : LogEntryLean :=
  ⟨entryAddr content off, entryBytes content off⟩

end Log

/-- `log_entry_iter::operator++()`, on the offset of the entry. -/
def preIncrement (a : LogLayout) (entry : Nat) : Nat :=
  entry + Log.entryBytes a.content entry + sizeofLogEntry

/-- `log_entry_iter::operator++(int)`: the header is not added. -/
def postIncrement (a : LogLayout) (entry : Nat) : Nat := entry + Log.entryBytes a.content entry

/-- `for (it = begin(); it != end(); …)` with one of the increments, for at
most `fuel` of them: the offsets of the entries visited and the one reached. -/
def iterLoop (increment : LogLayout → Nat → Nat) (a : LogLayout) (fuel : Nat) : List Nat × Nat :=
  Tiling.walk (fun entry => entry != a.logOffset) (increment a) fuel 0

namespace Log

/-! ## what log_range does -/

/-- The log area after a record was appended. -/
def appendRecord (a : LogLayout) (mem : Mem) (start bytes : Nat) : LogLayout :=
  { a with
    logOffset := a.logOffset + (sizeofLogEntry + bytes)
    tailPtr := a.tailPtr + (sizeofLogEntry + bytes)
    content := write (write (write a.content (a.tailPtr + 3) (toLE 7 start)) a.tailPtr
      (toLE 3 ((a.content a.tailPtr).toNat % 2 + 2 * (bytes % 2 ^ 23))))
      (a.tailPtr + sizeofLogEntry) (slice mem start bytes) }

theorem execOps_recordOps (m : PmImage) (t : Nat) (mem : Mem) (start bytes : Nat) :
    execOps m (recordOps t (m.area t) mem start bytes) =
      m.updateArea t fun a => appendRecord a mem start bytes := by
  simp [recordOps, PmOp.exec, PmImage.updateArea, appendRecord]

theorem execOps_flushOps (m : PmImage) (t lfo lo : Nat) : execOps m (flushOps t lfo lo) = m := by
  unfold flushOps
  split
  · rfl
  · split <;> rfl

/-- What `log_range` does to the volatile half, `lastFlushOffset` apart. -/
theorem logRange_spec (fmt : LogFormat) (l : Log) (lo start bytes : Nat) :
    (l.logRange fmt lo start bytes).tid = l.tid ∧
    (l.logRange fmt lo start bytes).entries = (match fmt with
      | .volatile => l.entries ++ [⟨start, bytes⟩]
      | .nonVolatile => l.entries) ∧
    (l.logRange fmt lo start bytes).lastLog = match fmt with
      | .volatile => ⟨start, bytes⟩
      | .nonVolatile => l.lastLog := by
  by_cases h : l.IsDuplicate fmt start bytes
  · simp only [logRange, if_pos h]
    cases fmt <;> exact ⟨rfl, rfl, rfl⟩
  · simp only [logRange, if_neg h]
    cases fmt <;> exact ⟨rfl, rfl, rfl⟩

/-- The last recorded range after `log_range`. -/
theorem lastLog_logRange (fmt : LogFormat) (l : Log) (lo start bytes : Nat) :
    (l.logRange fmt lo start bytes).lastLog =
      match fmt with
      | .volatile => ⟨start, bytes⟩
      | .nonVolatile => l.lastLog := (logRange_spec fmt l lo start bytes).2.2

theorem tid_logRange (fmt : LogFormat) (l : Log) (lo start bytes : Nat) :
    (l.logRange fmt lo start bytes).tid = l.tid := (logRange_spec fmt l lo start bytes).1

/-- The volatile entries after `log_range`. -/
theorem entries_logRange (fmt : LogFormat) (l : Log) (lo start bytes : Nat) :
    (l.logRange fmt lo start bytes).entries =
      match fmt with
      | .volatile => l.entries ++ [⟨start, bytes⟩]
      | .nonVolatile => l.entries := (logRange_spec fmt l lo start bytes).2.1

theorem mem_entries_logRange {fmt : LogFormat} {l : Log} {lo start bytes : Nat} {e : LogEntryLean}
    (h : e ∈ (l.logRange fmt lo start bytes).entries) : e ∈ l.entries ∨ e = ⟨start, bytes⟩ := by
  rw [entries_logRange] at h
  cases fmt with
  | volatile => simpa using h
  | nonVolatile => exact .inl h

/-- **What `log_range` does to persistent memory**: nothing for a duplicate,
otherwise one record is appended to the log area. -/
theorem execOps_logRangeOps (fmt : LogFormat) (m : PmImage) (t : Nat) (l : Log) (mem : Mem)
    (start bytes : Nat) :
    execOps m (logRangeOps fmt t l (m.area t) mem start bytes) =
      if l.IsDuplicate fmt start bytes then m
      else m.updateArea t fun a => appendRecord a mem start bytes := by
  by_cases h : l.IsDuplicate fmt start bytes
  · simp [logRangeOps, h]
  · rw [logRangeOps, if_neg h, if_neg h, execOps_append, execOps_recordOps, execOps_flushOps]

/-- `log_range` stores records and flushes its area, no more. -/
theorem appends_of_mem_logRangeOps {fmt : LogFormat} {t : Nat} {l : Log} {a : LogLayout}
    {mem : Mem} {start bytes : Nat} {op : PmOp}
    (h : op ∈ logRangeOps fmt t l a mem start bytes) : op.Appends := by
  unfold logRangeOps at h
  split at h
  · simp at h
  · simp only [recordOps, flushOps, List.mem_append] at h
    grind [PmOp.Appends]

end Log

end Cxlbuf
