import Cxlbuf.Lib.Tiling
import Cxlbuf.Log.Flush

/-!
# Cxlbuf.Log.Bookkeeping

The offsets `log_range` and `clear` keep, over any sequence of the two.  A
record may end anywhere in a line, and `last_flush_offset` moves by one rule
if it ends at a line boundary and by another if it does not; under both, a
call flushes from where the last flush ended, up to the last boundary the
log has reached.  So the ranges flushed since the last `clear` tile the log
area from its start to `last_flush_offset` (`LineInv.performs`).
-/

namespace Cxlbuf.Log

open ByteMem Tiling

/-- A call on a log. -/
inductive LogCall where
  /-- `log_range`, with the value of `cxlModeEnabled` it finds. -/
  | logRange (cxlModeEnabled : Bool) (c : RangeCall)
  | clear

/-- One call on log `t`.  The accesses noted are those since the last
`clear`. -/
def Run.perform (fmt : LogFormat) (t : Nat) (r : Run) : LogCall → Run
  | .logRange cxlModeEnabled c => if cxlModeEnabled then r.call fmt t c else r
  | .clear => ⟨r.log.clear, execOps r.pm (clearOps t), []⟩

/-- A sequence of calls on log `t`. -/
def Run.performs (fmt : LogFormat) (t : Nat) (r : Run) (cs : List LogCall) : Run :=
  cs.foldl (Run.perform fmt t) r

/-- What a flush of log area `t` covers: its offset in the area, and the
number of bytes. -/
def flushedRange (t : Nat) : PmOp → Option (Nat × Nat)
  | .flushLog u off n => if u = t then some (off, n) else none
  | _ => none

/-- The ranges of log area `t` that some accesses flush. -/
def flushedRanges (t : Nat) (ops : List PmOp) : List (Nat × Nat) :=
  ops.filterMap (flushedRange t)

@[simp] theorem flushedRanges_append (t : Nat) (ops ops' : List PmOp) :
    flushedRanges t (ops ++ ops') = flushedRanges t ops ++ flushedRanges t ops' := by
  simp [flushedRanges]

/-- Appending a record flushes nothing. -/
@[simp] theorem flushedRanges_recordOps (t : Nat) (a : LogLayout) (mem : Mem)
    (start bytes : Nat) : flushedRanges t (recordOps t a mem start bytes) = [] := by
  simp [flushedRanges, recordOps, flushedRange]

/-- What the flushes since the last `clear` add up to: the ranges are whole
lines, and they tile the log area up to `last_flush_offset`. -/
structure LineInv (t : Nat) (r : Run) : Prop extends FlushInv t r where
  lines : ∀ x ∈ flushedRanges t r.ops, x.1 % 64 = 0 ∧ x.2 % 64 = 0 ∧ 0 < x.2
  tiles : Tiles 0 (flushedRanges t r.ops) r.log.lastFlushOffset

/-! ## the invariant over a run -/

section Invariant

variable {fmt : LogFormat} {t : Nat} {r : Run}

/-- Nothing has been flushed of a fresh log. -/
theorem LineInv.of_cleared {l : Log} {m : PmImage} (h : Cleared l (m.area t)) :
    LineInv t ⟨l, m, []⟩ where
  toFlushInv := FlushInv.of_cleared h
  lines := by simp [flushedRanges]
  tiles := by simp [flushedRanges, Tiles, h.lastFlushOffset]

theorem LineInv.call_of_duplicate (hinv : LineInv t r) {c : RangeCall}
    (hdup : r.log.IsDuplicate fmt c.start c.bytes) : LineInv t (r.call fmt t c) := by
  obtain ⟨-, hops, hlfo⟩ := Run.call_of_duplicate (t := t) hdup
  refine ⟨hinv.toFlushInv.call c, ?_, ?_⟩
  · rw [hops]
    exact hinv.lines
  · rw [hops, hlfo]
    exact hinv.tiles

theorem LineInv.call_of_not_duplicate (hinv : LineInv t r) {c : RangeCall}
    (hdup : ¬ r.log.IsDuplicate fmt c.start c.bytes) : LineInv t (r.call fmt t c) := by
  obtain ⟨halign', hle, -, -, -, hops⟩ := hinv.toFlushInv.call_spec hdup
  have halign := hinv.aligned
  refine ⟨hinv.toFlushInv.call c, ?_, ?_⟩
  · intro x hx
    rw [hops, flushedRanges_append, flushedRanges_append, flushedRanges_recordOps] at hx
    cases List.mem_append.mp hx with
    | inl hold => exact hinv.lines x hold
    | inr hnew =>
        split at hnew
        · simp [flushedRanges] at hnew
        · simp only [flushedRanges, flushedRange, List.nil_append, List.filterMap_cons, if_true,
            List.filterMap_nil, List.mem_singleton] at hnew
          rw [hnew]
          omega
  · -- The flush of the call, if it makes one, is the next tile.
    rw [hops, flushedRanges_append, flushedRanges_append, flushedRanges_recordOps]
    split
    case isTrue heq => simpa [flushedRanges, heq] using hinv.tiles
    case isFalse hne =>
      have hnext := hinv.tiles.concat
        ((r.call fmt t c).log.lastFlushOffset - r.log.lastFlushOffset)
      rw [Nat.add_sub_cancel' hle] at hnext
      simpa [flushedRanges, flushedRange] using hnext

/-- `clear` leaves a cleared log. -/
theorem cleared_clear (l : Log) (m : PmImage) (t : Nat) :
    Cleared l.clear ((execOps m (clearOps t)).area t) := by
  constructor <;> simp [Log.clear, clearOps, PmOp.exec, PmImage.updateArea]

/-- **One call keeps the invariant.** -/
theorem LineInv.perform (hinv : LineInv t r) (c : LogCall) : LineInv t (r.perform fmt t c) := by
  cases c with
  | clear => exact LineInv.of_cleared (cleared_clear r.log r.pm t)
  | logRange cxlModeEnabled c =>
      cases cxlModeEnabled with
      | false => exact hinv
      | true =>
          by_cases hdup : r.log.IsDuplicate fmt c.start c.bytes
          · exact hinv.call_of_duplicate hdup
          · exact hinv.call_of_not_duplicate hdup

/-- **Every sequence of calls keeps the invariant.** -/
theorem LineInv.performs (hinv : LineInv t r) (cs : List LogCall) :
    LineInv t (r.performs fmt t cs) := by
  induction cs generalizing r with
  | nil => exact hinv
  | cons c cs ih => exact ih (hinv.perform c)

end Invariant

/-! ## the offsets after any sequence of calls -/

/-- The offsets of a log are in order: `last_flush_offset` is the last line
boundary at or below `log_offset`, the tail is at `log_offset`, and the
ranges flushed since the last `clear` lie one behind the other, without
overlap, and are together the log area up to `last_flush_offset`. -/
structure InOrder (t : Nat) (r : Run) : Prop where
  aligned : r.log.lastFlushOffset % 64 = 0
  le_offset : r.log.lastFlushOffset ≤ (r.pm.area t).logOffset
  offset_lt : (r.pm.area t).logOffset < r.log.lastFlushOffset + 64
  tail_eq : (r.pm.area t).tailPtr = (r.pm.area t).logOffset
  lines : ∀ x ∈ flushedRanges t r.ops, x.1 % 64 = 0 ∧ x.2 % 64 = 0 ∧ 0 < x.2
  consecutive : Tiles 0 (flushedRanges t r.ops) r.log.lastFlushOffset
  disjoint : (flushedRanges t r.ops).Pairwise fun x y => x.1 + x.2 ≤ y.1
  covers : ∀ i, (∃ x ∈ flushedRanges t r.ops, x.1 ≤ i ∧ i < x.1 + x.2) ↔
    i < r.log.lastFlushOffset

theorem LineInv.inOrder {t : Nat} {r : Run} (h : LineInv t r) : InOrder t r where
  aligned := h.aligned
  le_offset := h.le_offset
  offset_lt := h.offset_lt
  tail_eq := h.tail_eq
  lines := h.lines
  consecutive := h.tiles
  disjoint := h.tiles.pairwise
  covers := fun i => by simpa using h.tiles.covers i

/-- **The flush bookkeeping of the log**: after every sequence of `log_range`
and `clear` calls on a fresh log, its offsets are in order. -/
theorem inOrder_performs (fmt : LogFormat) (t : Nat) {l : Log} {m : PmImage}
    (h : Cleared l (m.area t)) (cs : List LogCall) :
    InOrder t ((Run.mk l m []).performs fmt t cs) :=
  ((LineInv.of_cleared h).performs cs).inOrder

/-- A new log with a record, a `clear`, a record that ends at a line boundary
and one that does not. -/
theorem inOrder_performs_three_records :
    Cleared (fresh 1) freshArea ∧
      InOrder 0 ((Run.mk (fresh 1) ⟨fun _ => freshArea, fun _ => 0⟩ []).performs .volatile 0
        [.logRange true ⟨fun _ => 0, 2 ^ 40, 8⟩, .clear,
          .logRange true ⟨fun _ => 0, 2 ^ 40, 54⟩, .logRange true ⟨fun _ => 0, 2 ^ 40, 130⟩]) :=
  ⟨cleared_fresh 1, inOrder_performs .volatile 0 (m := ⟨fun _ => freshArea, fun _ => 0⟩)
    (cleared_fresh 1) _⟩

end Cxlbuf.Log
