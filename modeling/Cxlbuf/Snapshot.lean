import Cxlbuf.Process

/-!
# Cxlbuf.Snapshot

`snapshot(addr, bytes)` (`libc_wrappers.cc`), the replacement for `msync`.
For every registered log it flushes the log and sets it `ACTIVE`, copies the
logged ranges that pass the range test from memory to the backing file,
drains, sets the log `EMPTY` and clears it.  The first call also copies the
whole mapping that contains `addr`.

Addresses are 64-bit words: the range test and the address computations use
`wadd` and `wsub`.  A process that takes an `exit(1)` branch is `none`.

`Cxlbuf.Snapshot.Spec` says what a call does in closed form.
-/

namespace Cxlbuf

open ByteMem

/-! ## 64-bit words -/

/-- Addition of 64-bit words. -/
def wadd (a b : Nat) : Nat := (a + b) % 2 ^ 64

/-- Subtraction of 64-bit words. -/
def wsub (a b : Nat) : Nat := (a + (2 ^ 64 - b % 2 ^ 64)) % 2 ^ 64

/-- `std::popcount` of a 64-bit word. -/
def popcount (x : Nat) : Nat := ((List.range 64).filter fun i => x.testBit i).length

/-- `previousPowerOfTwo`: the position of the highest bit. -/
def previousPowerOfTwo (x : Nat) : Nat := Nat.log2 x

/-! ## which entries are copied, and how -/

/-- `entry.addr - start <= diff`: the entry starts in the range. -/
def InRange (addr bytes : Nat) (e : LogEntryLean) : Prop :=
  wsub e.addr addr ≤ wsub (wadd addr bytes) addr

instance (addr bytes : Nat) (e : LogEntryLean) : Decidable (InRange addr bytes e) := by
  unfold InRange; infer_instance

/-- `dst_addr`: where the entry lives in the backing file. -/
def dstAddr (cfg : Config) (e : LogEntryLean) : Nat :=
  wadd cfg.backingFileStart (wsub e.addr cfg.startAddr)

/-- `align_to` for an entry of the given size. -/
def alignTo (bytes : Nat) : Nat :=
  let prevPwr2 := previousPowerOfTwo bytes + 1
  let alignTo := if 9 < prevPwr2 then 9 else prevPwr2
  if popcount bytes = 1 then alignTo - 1 else alignTo

/-- `dst_addr_aligned`. -/
def dstAddrAligned (dst bytes : Nat) : Nat :=
  if dst &&& ((1 <<< alignTo bytes) - 1) = 0 then dst
  else (dst >>> alignTo bytes) <<< alignTo bytes

/-- `new_sz`: the entry is extended to its aligned start, or rounded up when
it starts aligned. -/
def newSz (dst bytes : Nat) : Nat :=
  if dst = dstAddrAligned dst bytes then
    if bytes ≤ 1 <<< alignTo bytes then 1 <<< alignTo bytes
    else (bytes / 256 + if bytes % 256 ≠ 0 then 1 else 0) * 256
  else bytes + (dst - dstAddrAligned dst bytes)

/-- `str_wr_allowed and entry.bytes >= 8`. -/
def Streams (cfg : Config) (e : LogEntryLean) : Prop :=
  (cfg.alignSnapshotWrites = true ∨ (popcount e.bytes = 1 ∧ dstAddr cfg e % e.bytes = 0)) ∧
    8 ≤ e.bytes

instance (cfg : Config) (e : LogEntryLean) : Decidable (Streams cfg e) := by
  unfold Streams; infer_instance

/-- Where a copy writes, where it reads and how many bytes it moves. -/
structure CopyArgs where
  dst : Nat
  src : Nat
  size : Nat
deriving DecidableEq, Repr

/-- The copy writes address `y`. -/
def CopyArgs.Writes (c : CopyArgs) (y : Nat) : Prop := c.dst ≤ y ∧ y < c.dst + c.size

instance (c : CopyArgs) (y : Nat) : Decidable (c.Writes y) :=
  inferInstanceAs (Decidable (_ ∧ _))

/-- The copy `snapshot` makes for an entry. -/
def copyArgs (cfg : Config) (e : LogEntryLean) : CopyArgs :=
  if Streams cfg e then
    if cfg.alignSnapshotWrites then
      { dst := dstAddrAligned (dstAddr cfg e) e.bytes
        src := wadd (wsub (dstAddrAligned (dstAddr cfg e) e.bytes) cfg.backingFileStart)
          cfg.startAddr
        size := newSz (dstAddr cfg e) e.bytes }
    else { dst := dstAddr cfg e, src := e.addr, size := newSz (dstAddr cfg e) e.bytes }
  else { dst := dstAddr cfg e, src := e.addr, size := e.bytes }

/-- The accesses that copy one entry: a streaming write, or `real_memcpy`
and a flush. -/
def copyOps (cfg : Config) (mem : Mem) (e : LogEntryLean) : List PmOp :=
  let c := copyArgs cfg e
  if Streams cfg e then [.streamingWr c.dst (slice mem c.src c.size)]
  else [.memcpy c.dst (slice mem c.src c.size), .flush c.dst c.size]

/-! ## the loop over the entries -/

/-- What the loop over a log's entries has done so far. -/
structure LoopState where
  ops : List PmOp
  appliedCnt : Nat
  entryCnt : Nat

/-- The loop over a log's entries.  `prev` is the entry before, if there is
one; under `LOG_FORMAT_VOLATILE` an entry equal to it is skipped. -/
def entryLoop (cfg : Config) (addr bytes : Nat) (mem : Mem) :
    Option LogEntryLean → List LogEntryLean → LoopState → LoopState
  | _, [], st => st
  | prev, e :: es, st =>
      let skipEntry := cfg.logFormat = .volatile ∧ prev = some e
      let st := if InRange addr bytes e then { st with entryCnt := st.entryCnt + 1 } else st
      let st := if InRange addr bytes e ∧ skipEntry then
          { st with appliedCnt := st.appliedCnt + 1 } else st
      if InRange addr bytes e ∧ ¬ skipEntry then
        entryLoop cfg addr bytes mem (some e) es
          { st with ops := st.ops ++ copyOps cfg mem e, appliedCnt := st.appliedCnt + 1 }
      else if e.addr = 0 then st
      else entryLoop cfg addr bytes mem (some e) es st

/-- The entries from `begin()` to `end()` of a `log_layout_t`.  The records
before `log_offset` are at least one byte long each, so `logOffset` steps
are enough. -/
def layoutEntries (a : LogLayout) : List LogEntryLean :=
  (iterLoop preIncrement a a.logOffset).1.map (Log.entryLean a.content)

/-- `log_list`: what the loop goes over. -/
def logList (cfg : Config) (l : Log) (a : LogLayout) : List LogEntryLean :=
  match cfg.logFormat with
  | .volatile => if 10 < l.entries.length then cfg.sort.sort l.entries else l.entries
  | .nonVolatile => layoutEntries a

/-- The copy the first snapshot makes: the whole mapping that contains
`addr`, up to the size of its file. -/
def bulkCopy (cfg : Config) (p : Process) (addr : Nat) : Option CopyArgs :=
  (p.mappedAddr.find? fun m => m.start ≤ addr ∧ addr < m.stop).map fun m =>
    { dst := wadd cfg.backingFileStart (wsub m.start 0x10000000000)
      src := m.start
      size := if m.fpath = "" then wsub m.stop m.start else p.fileSize m.fpath }

/-- The access that makes it. -/
def firstCopyOps (cfg : Config) (p : Process) (addr : Nat) : List PmOp :=
  match bulkCopy cfg p addr with
  | none => []
  | some c => [.memcpy c.dst (slice p.mem c.src c.size)]

/-! ## snapshot -/

/-- The body of the loop over `tls_logs` for the log at position `t`. -/
def snapshotLog (cfg : Config) (addr bytes : Nat) (p : Process) (t : Nat) : Option Process :=
  match p.logs[t]? with
  | none => some p
  | some l =>
      let p := p.issue (l.activateOps t (p.pm.area t))
      let p := if p.firstSnapshot then
          { p.issue (firstCopyOps cfg p addr) with firstSnapshot := false } else p
      let r := entryLoop cfg addr bytes p.mem none (logList cfg l (p.pm.area t)) ⟨[], 0, 0⟩
      let p := p.issue (r.ops ++ [.drain])
      if r.appliedCnt = r.entryCnt then
        let p := p.issue (Log.setStateOps t .empty false)
        some { p.issue (Log.clearOps t) with logs := p.logs.set t l.clear }
      else none

/-- `snapshot`.  Without instrumentation it is the real `msync`, which does
not touch the backing file. -/
def snapshot (cfg : Config) (addr bytes : Nat) (p : Process) : Option Process :=
  if p.storeInstEnabled then
    (List.range p.logs.length).foldlM (snapshotLog cfg addr bytes) p
  else some p

end Cxlbuf
