import Cxlbuf.Instrument
import Cxlbuf.Snapshot.First

/-!
# Cxlbuf.Pmdk

Transactions of the PMDK emulation (`libpmemobj.h`, `libpmdkemul.cc`,
`ator.cc`) over `libstoreinst`.  `TX_BEGIN` counts the nesting and notes the
pool it was given, the last one begun, in thread-local storage; `TX_END` takes
a snapshot of that pool when the outermost transaction ends.  `TX_ADD` is
empty: what a transaction writes is found in the log of its instrumented
writes.

What this is meant to be is `TxMem`: memory, and what is durable of it, which
is memory as it was when the last outermost transaction ended.  `TxInv`
connects the two.  It holds as long as all transactions inside an outermost
one are on one pool and write to that pool: the snapshot clears the log, so
what was written to another pool would be neither copied nor found again.  A
store must not be wider than the eight bytes `checkMemory` logs.

A process starts before its first snapshot, with a backing file that need not
be what is mapped (`map_backing_file` sets its first byte).  The first snapshot
copies the file it is for, so the first transaction has to be on that file,
and write something: `snapshot` does nothing before the first write is logged.
-/

namespace Cxlbuf.Pmdk

open ByteMem

/-! ## the emulation -/

/-- A managed mapped file: `get_address()` and `get_size()`. -/
structure Mmf where
  addr : Nat
  size : Nat
deriving DecidableEq, Repr

/-- `struct tx_tls`. -/
structure TxTls where
  level : Nat
  mmfObj : Option Mmf
deriving DecidableEq, Repr

/-- What a thread does with a pool.  `txAlloc` comes with what the allocator
writes, or with `none` if it throws because the pool is full; `txZalloc` also
with the block it sets to zero.  `txFree` writes nothing. -/
inductive TxCall where
  | txBegin (pool : Mmf)
  | txEnd
  | write (w : Write)
  | txAlloc (ws : Option (List Write))
  | txZalloc (ws : Option (List Write)) (addr size : Nat)
  | txFree

/-- A thread that runs alone in its process, and owns the first log. -/
structure Thread where
  tls : TxTls
  proc : Process

/-- `mmf_snapshot`; `none` when its assertion fails. -/
def mmfSnapshot (cfg : Config) (mmfObj : Option Mmf) (p : Process) : Option Process :=
  match mmfObj with
  | none => none
  | some m => snapshot cfg m.addr m.size p

/-- Instrumented writes. -/
def Thread.perform (cfg : Config) (th : Thread) (ws : List Write) : Option Thread :=
  (Run.run (Process.perform cfg 0) th.proc ws).map fun q => { th with proc := q }

/-- `mmf_alloc`.  It asserts that there is a pool, and nothing catches an
exception of the allocator. -/
def Thread.alloc (cfg : Config) (th : Thread) (ws : Option (List Write)) : Option Thread :=
  if th.tls.mmfObj = none then none else ws.bind (th.perform cfg)

/-- The `memset` of `pmemobj_tx_zalloc`. -/
def zeros (addr size : Nat) : Write := .memset ⟨addr, List.replicate size 0⟩

/-- One call.  `level` is a 64-bit word; `mmf_free` asserts that there is a
pool and frees nothing. -/
def Thread.call (cfg : Config) (th : Thread) : TxCall → Option Thread
  | .txBegin pool => some { th with tls := ⟨wadd th.tls.level 1, some pool⟩ }
  | .txEnd =>
      let level := wsub th.tls.level 1
      if level = 0 then (mmfSnapshot cfg th.tls.mmfObj th.proc).map fun q => ⟨⟨level, none⟩, q⟩
      else some { th with tls := { th.tls with level := level } }
  | .write w => th.perform cfg [w]
  | .txAlloc ws => th.alloc cfg ws
  | .txZalloc ws addr size => (th.alloc cfg ws).bind fun th => th.perform cfg [zeros addr size]
  | .txFree => if th.tls.mmfObj = none then none else some th

/-! ## transactional memory -/

/-- Memory and what is durable of it. -/
structure TxMem where
  level : Nat
  durable : Mem
  current : Mem

/-- Writes go to memory. -/
def TxMem.perform (m : TxMem) (ws : List Write) : TxMem :=
  { m with current := ws.foldl (fun c w => write c w.written.addr w.written.data) m.current }

/-- Memory becomes durable when the outermost transaction ends. -/
def TxMem.call (m : TxMem) : TxCall → TxMem
  | .txBegin _ => { m with level := m.level + 1 }
  | .txEnd => if m.level = 1 then ⟨0, m.current, m.current⟩ else { m with level := m.level - 1 }
  | .write w => m.perform [w]
  | .txAlloc ws => m.perform (ws.getD [])
  | .txZalloc ws addr size => (m.perform (ws.getD [])).perform [zeros addr size]
  | .txFree => m

/-- What a process starts with: the backing file is what is durable. -/
def TxMem.start (cfg : Config) (p : Process) : TxMem :=
  ⟨0, fun x => p.pm.backing (image cfg x), p.mem⟩

/-! ## what a program must do -/

/-- The range lies in the pool. -/
def Mmf.Contains (m : Mmf) (a n : Nat) : Prop := m.addr ≤ a ∧ a + n ≤ m.addr + m.size

instance (m : Mmf) (a n : Nat) : Decidable (m.Contains a n) := inferInstanceAs (Decidable (_ ∧ _))

/-- A write to the pool that is logged as a whole: a store has at most eight
bytes.  `log_range` asserts that there are less than `2 ^ 22`. -/
def Mmf.Admits (pool : Mmf) (w : Write) : Prop :=
  pool.Contains w.written.addr w.written.data.length ∧
    w.written.data.length ≤ w.range.bytes ∧ w.range.bytes < 2 ^ 22

instance (pool : Mmf) (w : Write) : Decidable (pool.Admits w) :=
  inferInstanceAs (Decidable (_ ∧ _))

/-- The bytes that are left to the first snapshot: those of the file `home`. -/
def leftToFirst (home : FdMetadata) (p : Process) : Set Nat :=
  { x | p.firstSnapshot = true ∧ home.start ≤ x ∧ x < home.start + p.bulkSize home }

/-- Transactions are on tracked pools, and an inner one is on the pool of the
outer one; writes are made in transactions and to their pool, and allocations
succeed.  The first snapshot is of a pool in the file `home`, and is taken
when something has been logged. -/
def TxOk (cfg : Config) (home : FdMetadata) (th : Thread) : TxCall → Prop
  | .txBegin pool => th.tls.level + 1 < 2 ^ 64 ∧ cfg.Tracks pool.addr pool.size ∧
      (th.tls.level ≠ 0 → th.tls.mmfObj = some pool) ∧
      (th.proc.firstSnapshot = true →
        th.proc.mappedAddr.find? (fun r => r.Contains pool.addr) = some home)
  | .txEnd => th.tls.level ≠ 0 ∧
      (th.tls.level = 1 → th.proc.firstSnapshot = true → th.proc.storeInstEnabled = true)
  | .write w => ∃ pool, th.tls.mmfObj = some pool ∧ pool.Admits w
  | .txAlloc ws => ∃ pool, th.tls.mmfObj = some pool ∧
      ∃ ws', ws = some ws' ∧ ∀ w ∈ ws', pool.Admits w
  | .txZalloc ws addr size => ∃ pool, th.tls.mmfObj = some pool ∧
      (∃ ws', ws = some ws' ∧ ∀ w ∈ ws', pool.Admits w) ∧ pool.Admits (zeros addr size)
  | .txFree => th.tls.mmfObj ≠ none

/-- A process with one log, which is empty, and with files mapped in the
tracked region.  Memory is as in the backing file, but for what is left to the
first snapshot. -/
structure Opened (cfg : Config) (home : FdMetadata) (p : Process) (l : Log) : Prop where
  logs : p.logs = [l]
  entries : l.entries = []
  above : ∀ r ∈ p.mappedAddr, r.Above cfg
  start_eq : p.firstSnapshot = true → cfg.startAddr = 0x10000000000
  synced : ∀ x, Dirty cfg p x → x ∈ leftToFirst home p

/-! ## the emulation implements it -/

/-- What is logged when a thread is in a transaction on the given pool, or in
none. -/
def LoggedIn (cfg : Config) (p : Process) : Option Mmf → Prop
  | none => ∀ l ∈ p.logs, l.entries = []
  | some m => cfg.Tracks m.addr m.size ∧ ∀ l ∈ p.logs, ∀ e ∈ l.entries, m.Contains e.addr 0

/-- Until the first snapshot the file of the pool is `home`. -/
structure AtHome (cfg : Config) (home : FdMetadata) (th : Thread) : Prop where
  above : ∀ r ∈ th.proc.mappedAddr, r.Above cfg
  start_eq : th.proc.firstSnapshot = true → cfg.startAddr = 0x10000000000
  pool : th.proc.firstSnapshot = true → ∀ pool, th.tls.mmfObj = some pool →
    th.proc.mappedAddr.find? (fun r => r.Contains pool.addr) = some home

/-- A thread is in a transaction exactly if it has a pool, all that is logged
belongs to that pool, and memory and the backing file are those of the
transactional memory. -/
structure TxInv (cfg : Config) (home : FdMetadata) (th : Thread) (m : TxMem) : Prop where
  covers : LogCovers cfg (leftToFirst home th.proc) th.proc
  atHome : AtHome cfg home th
  level : th.tls.level = m.level
  level_lt : m.level < 2 ^ 64
  pool : th.tls.mmfObj = none ↔ m.level = 0
  logged : LoggedIn cfg th.proc th.tls.mmfObj
  mem : th.proc.mem = m.current
  durable : ∀ x, cfg.Tracks x 1 → th.proc.pm.backing (image cfg x) = m.durable x

section Writes

variable {cfg : Config} {p : Process} {l : Log} {pending : Set Nat}

/-- What a call of `log_range` for a write leaves alone, and what it adds. -/
theorem logWrite_single (hcxl : cfg.cxlModeEnabled = true) (hlogs : p.logs = [l]) (w : Write) :
    (∃ l', (p.logWrite cfg 0 w).logs = [l'] ∧ ∀ e ∈ l'.entries, e ∈ l.entries ∨ e = w.range) ∧
      (p.logWrite cfg 0 w).firstSnapshot = p.firstSnapshot ∧
      (p.logWrite cfg 0 w).mappedAddr = p.mappedAddr ∧
      (p.logWrite cfg 0 w).fileSize = p.fileSize ∧
      (p.logWrite cfg 0 w).pm.backing = p.pm.backing := by
  unfold Process.logWrite
  split
  · obtain ⟨⟨l', hlogs', hentries⟩, hfirst, -, hmapped, hsize⟩ :=
      Process.logRange_single hcxl hlogs w.range.addr w.range.bytes
    refine ⟨⟨l', hlogs', fun e he => ?_⟩, hfirst, hmapped, hsize, Process.logRange_backing ..⟩
    rw [hentries] at he
    cases hfmt : cfg.logFormat with
    | volatile => simpa [hfmt] using he
    | nonVolatile => exact .inl (by simpa [hfmt] using he)
  · exact ⟨⟨l, hlogs, fun e he => .inl he⟩, rfl, rfl, rfl, rfl⟩

/-- A write to the region that writes anything is found tracked. -/
theorem tested_of_tracks {w : Write} (h : cfg.Tracks w.written.addr w.written.data.length)
    (hpos : 0 < w.written.data.length) : w.Tested cfg := by
  have hpage := cfg.first_page
  unfold Config.Tracks at h
  cases w <;> simp only [Write.written, Write.Tested, addrInRange] at h hpos ⊢ <;> omega

/-- An instrumented write to a pool keeps out-of-date bytes covered. -/
theorem covers_perform (h : LogCovers cfg pending p) (hvol : cfg.logFormat = .volatile)
    (hcxl : cfg.cxlModeEnabled = true) {pool : Mmf} (hpool : cfg.Tracks pool.addr pool.size)
    {w : Write} (hw : pool.Admits w) :
    LogCovers cfg pending { p.logWrite cfg 0 w with
      mem := write p.mem w.written.addr w.written.data } := by
  obtain ⟨hin, hlen, -⟩ := hw
  have htr : cfg.Tracks w.written.addr w.written.data.length := by
    unfold Config.Tracks Mmf.Contains at *
    omega
  have hrange : w.range.addr = w.written.addr := by cases w <;> rfl
  rw [← Process.logWrite_mem cfg 0 p w]
  by_cases htest : w.Tested cfg
  · obtain ⟨hlog, hmem⟩ := h.logRange hvol hcxl (hrange ▸ htr.start) w.range.bytes
    rw [Process.logWrite, if_pos htest]
    refine hlog.write fun x hx l hl => ⟨_, hmem l hl, ?_⟩
    unfold Process.Store.Covers at hx
    unfold LogEntryLean.Covers
    simp only
    omega
  · rw [Process.logWrite, if_neg htest]
    refine h.write fun x hx => ?_
    unfold Process.Store.Covers at hx
    exact absurd (tested_of_tracks htr (by omega)) htest

end Writes

section Implements

variable {cfg : Config} {home : FdMetadata} {th : Thread} {m : TxMem}

/-- A thread that is in no transaction. -/
theorem TxInv.of_opened {p : Process} {l : Log} (h : Opened cfg home p l) :
    TxInv cfg home ⟨⟨0, none⟩, p⟩ (.start cfg p) where
  covers := ⟨l, h.logs, by simp [h.entries], fun _ => h.entries, fun x hx => .inl (h.synced x hx)⟩
  atHome := ⟨h.above, h.start_eq, by simp⟩
  level := rfl
  level_lt := by simp [TxMem.start]
  pool := by simp [TxMem.start]
  logged := by simp [LoggedIn, h.logs, h.entries]
  mem := rfl
  durable _ _ := rfl

/-- A write to the pool of the transaction. -/
theorem TxInv.performOne (h : TxInv cfg home th m) (hvol : cfg.logFormat = .volatile)
    (hcxl : cfg.cxlModeEnabled = true) {pool : Mmf} (hpool : th.tls.mmfObj = some pool)
    {w : Write} (hw : pool.Admits w) :
    ∃ q, th.proc.perform cfg 0 w = some q ∧
      TxInv cfg home { th with proc := q } (m.perform [w]) := by
  have hlogged := h.logged
  rw [hpool] at hlogged
  obtain ⟨htr, hin⟩ := hlogged
  obtain ⟨l, hlogs, -⟩ := h.covers.log
  obtain ⟨⟨l', hlogs', hentries⟩, hfirst, hmapped, hsize, hback⟩ := logWrite_single hcxl hlogs w
  have hleft : leftToFirst home { th.proc.logWrite cfg 0 w with
      mem := write th.proc.mem w.written.addr w.written.data } = leftToFirst home th.proc := by
    simp only [leftToFirst, Process.bulkSize, hfirst, hsize]
  refine ⟨_, perform_eq cfg 0 th.proc w, ?_, ?_, h.level, h.level_lt, h.pool, ?_, ?_, ?_⟩
  · rw [hleft]
    exact covers_perform h.covers hvol hcxl htr hw
  · exact ⟨hmapped.symm ▸ h.atHome.above, fun hf => h.atHome.start_eq (hfirst ▸ hf),
      fun hf q hq => by rw [hmapped]; exact h.atHome.pool (hfirst ▸ hf) q hq⟩
  · simp only [hpool]
    refine ⟨htr, fun k hk e he => ?_⟩
    rw [hlogs', List.mem_singleton] at hk
    rw [hk] at he
    obtain hold | rfl := hentries e he
    · exact hin l (by simp [hlogs]) e hold
    · have hrange : w.range.addr = w.written.addr := by cases w <;> rfl
      have hcont := hw.1
      unfold Mmf.Contains at *
      omega
  · simp only [TxMem.perform, List.foldl_cons, List.foldl_nil, h.mem]
  · intro x hx
    rw [hback]
    exact h.durable x hx

/-- **Writes to the pool of the transaction.** -/
theorem TxInv.perform (h : TxInv cfg home th m) (hvol : cfg.logFormat = .volatile)
    (hcxl : cfg.cxlModeEnabled = true) {pool : Mmf} (hpool : th.tls.mmfObj = some pool)
    {ws : List Write} (hws : ∀ w ∈ ws, pool.Admits w) :
    ∃ q, Run.run (Process.perform cfg 0) th.proc ws = some q ∧
      TxInv cfg home { th with proc := q } (m.perform ws) := by
  induction ws generalizing th m with
  | nil => exact ⟨th.proc, rfl, h⟩
  | cons w ws ih =>
      obtain ⟨q, hq, hinv⟩ := h.performOne hvol hcxl hpool (hws w List.mem_cons_self)
      obtain ⟨q', hq', hinv'⟩ := ih hinv hpool fun v hv => hws v (List.mem_cons_of_mem _ hv)
      exact ⟨q', by rw [Run.run_cons, hq]; exact hq', hinv'⟩

/-- An allocation in a transaction. -/
theorem TxInv.alloc (h : TxInv cfg home th m) (hvol : cfg.logFormat = .volatile)
    (hcxl : cfg.cxlModeEnabled = true) {pool : Mmf} (hpool : th.tls.mmfObj = some pool)
    {ws : List Write} (hws : ∀ w ∈ ws, pool.Admits w) :
    ∃ q, th.alloc cfg (some ws) = some { th with proc := q } ∧
      TxInv cfg home { th with proc := q } (m.perform ws) := by
  obtain ⟨q, hq, hinv⟩ := h.perform hvol hcxl hpool hws
  exact ⟨q, by simp [Thread.alloc, Thread.perform, hpool, hq], hinv⟩

/-- A snapshot of the pool of the transaction copies what is left to it. -/
theorem AtHome.bulkCopies (h : AtHome cfg home th) {pool : Mmf}
    (hpool : th.tls.mmfObj = some pool)
    (hinst : th.proc.firstSnapshot = true → th.proc.storeInstEnabled = true) :
    BulkCopies cfg (leftToFirst home th.proc) th.proc pool.addr := by
  refine ⟨fun x hx => hinst hx.1, fun x hx => ?_⟩
  cases hfirst : th.proc.firstSnapshot with
  | false =>
      refine .inr ⟨by rw [bulkBacking_of_not_first hfirst], fun hmem => ?_⟩
      exact Bool.false_ne_true (hfirst.symm.trans hmem.1)
  | true =>
      have hfind := h.pool hfirst pool hpool
      have hlo := (h.above home (List.mem_of_find?_eq_some hfind)).start_le
      have hbulk : bulkCopy cfg th.proc pool.addr =
          some ⟨image cfg home.start, home.start, th.proc.bulkSize home⟩ := by
        rw [bulkCopy_eq (h.start_eq hfirst) h.above, hfind, Option.map_some]
      have hxlo := hx.1
      simp only [bulkBacking, hbulk, hfirst, true_and, CopyArgs.Writes]
      by_cases hin : home.start ≤ x ∧ x < home.start + th.proc.bulkSize home
      · have hsrc : home.start + (image cfg x - image cfg home.start) = x := by
          unfold image
          omega
        rw [if_pos (by unfold image; omega), hsrc]
        exact .inl rfl
      · rw [if_neg (by unfold image; omega)]
        exact .inr ⟨rfl, fun hmem => hin hmem.2⟩

/-- A snapshot of the pool finds all that is logged in its range. -/
theorem LoggedIn.callOk {p : Process} {pool : Mmf} (h : LoggedIn cfg p (some pool)) :
    CallOk cfg p (.snapshot pool.addr pool.size) := by
  obtain ⟨htr, hin⟩ := h
  have hend := cfg.end_le
  unfold Config.Tracks at htr
  intro l hl e he _
  have hcont := hin l hl e he
  unfold Mmf.Contains at hcont
  rw [inRange_iff (by omega) (by omega)]
  omega

/-- After a snapshot that is taken, none is the first. -/
theorem firstSnapshot_eq_false {p q : Process} {l : Log} {addr bytes : Nat}
    (hq : snapshot cfg addr bytes p = some q) (hlogs : p.logs = [l])
    (hinst : p.firstSnapshot = true → p.storeInstEnabled = true) : q.firstSnapshot = false := by
  rw [snapshot_eq, Option.some.injEq] at hq
  rw [← hq]
  cases hf : p.firstSnapshot with
  | false => simp
  | true => simp [hlogs, hinst hf]

/-- The end of the outermost transaction. -/
theorem TxInv.commit (h : TxInv cfg home th m) (hvol : cfg.logFormat = .volatile)
    (hlevel : m.level = 1)
    (hinst : th.proc.firstSnapshot = true → th.proc.storeInstEnabled = true) :
    ∃ q, mmfSnapshot cfg th.tls.mmfObj th.proc = some q ∧
      TxInv cfg home ⟨⟨0, none⟩, q⟩ ⟨0, m.current, m.current⟩ := by
  have hne : th.tls.mmfObj ≠ none := fun hnone => by
    have hzero := h.pool.mp hnone
    omega
  obtain ⟨pool, hpool⟩ := Option.ne_none_iff_exists'.mp hne
  have hlogged := h.logged
  rw [hpool] at hlogged ⊢
  obtain ⟨q, hq, hcovers, hempty, hclean⟩ :=
    h.covers.snapshot hvol (h.atHome.bulkCopies hpool hinst) hlogged.callOk
  obtain ⟨l, hlogs, -⟩ := h.covers.log
  have hfirst := firstSnapshot_eq_false hq hlogs hinst
  have heq := hq
  rw [snapshot_eq, Option.some.injEq] at heq
  have hmem : q.mem = m.current := by
    rw [← h.mem, ← heq]
    rfl
  have hleft : leftToFirst home q = ∅ := by
    simp [leftToFirst, hfirst]
  refine ⟨q, hq, hleft ▸ hcovers, ?_, rfl, by simp, by simp, hempty, hmem, ?_⟩
  · refine ⟨?_, ?_, by simp⟩
    · rw [← heq]
      exact h.atHome.above
    · simp [hfirst]
  · intro x hx
    rw [← hmem]
    by_contra hdirty
    exact hclean x ⟨hx, fun hsame => hdirty hsame.symm⟩

/-- The beginning of a transaction. -/
theorem TxInv.begin (h : TxInv cfg home th m) {pool : Mmf}
    (hok : TxOk cfg home th (.txBegin pool)) :
    TxInv cfg home { th with tls := ⟨wadd th.tls.level 1, some pool⟩ }
      { m with level := m.level + 1 } := by
  obtain ⟨hlt, htr, hsame, hhome⟩ := hok
  have hlevel : wadd th.tls.level 1 = m.level + 1 := by
    rw [wadd, Nat.mod_eq_of_lt hlt, h.level]
  refine ⟨h.covers, ⟨h.atHome.above, h.atHome.start_eq, fun hf q hq => ?_⟩, hlevel, ?_, by simp, ?_,
    h.mem, h.durable⟩
  · rw [← Option.some.inj hq]
    exact hhome hf
  · simpa [← h.level] using hlt
  · by_cases hzero : th.tls.level = 0
    · have hlogged := h.logged
      rw [h.pool.mpr (h.level ▸ hzero)] at hlogged
      exact ⟨htr, fun l hl e he => by simp [hlogged l hl] at he⟩
    · have hlogged := h.logged
      rw [hsame hzero] at hlogged
      exact hlogged

/-- The end of a transaction, of an inner one or of the outermost. -/
theorem TxInv.finish (h : TxInv cfg home th m) (hvol : cfg.logFormat = .volatile)
    (hok : TxOk cfg home th .txEnd) :
    ∃ th', th.call cfg .txEnd = some th' ∧ TxInv cfg home th' (m.call .txEnd) := by
  have hlt := h.level_lt
  have hpos : m.level ≠ 0 := h.level ▸ hok.1
  have hlevel : wsub th.tls.level 1 = m.level - 1 := by
    rw [wsub, h.level]
    omega
  by_cases hone : m.level = 1
  · obtain ⟨q, hq, hinv⟩ := h.commit hvol hone (hok.2 (h.level.trans hone))
    refine ⟨⟨⟨0, none⟩, q⟩, ?_, ?_⟩
    · simp [Thread.call, hlevel, hone, hq]
    · simpa [TxMem.call, hone] using hinv
  · have hne : m.level - 1 ≠ 0 := by omega
    refine ⟨{ th with tls := { th.tls with level := m.level - 1 } }, ?_, ?_⟩
    · simp [Thread.call, hlevel, hne]
    · simp only [TxMem.call, if_neg hone]
      refine ⟨h.covers, ⟨h.atHome.above, h.atHome.start_eq, h.atHome.pool⟩, rfl,
        by simp only; omega, ?_, h.logged, h.mem, h.durable⟩
      simp only [h.pool]
      omega

/-- **One call** that meets its condition completes and does what it does to
transactional memory. -/
theorem TxInv.call (h : TxInv cfg home th m) (hvol : cfg.logFormat = .volatile)
    (hcxl : cfg.cxlModeEnabled = true) {c : TxCall} (hok : TxOk cfg home th c) :
    ∃ th', th.call cfg c = some th' ∧ TxInv cfg home th' (m.call c) := by
  cases c with
  | txBegin pool => exact ⟨_, rfl, h.begin hok⟩
  | txEnd => exact h.finish hvol hok
  | write w =>
      obtain ⟨pool, hpool, hw⟩ := hok
      have hone : ∀ v ∈ [w], pool.Admits v := by simpa using hw
      obtain ⟨q, hq, hinv⟩ := h.perform hvol hcxl hpool hone
      exact ⟨_, by rw [Thread.call, Thread.perform, hq, Option.map_some], hinv⟩
  | txAlloc ws =>
      obtain ⟨pool, hpool, ws', rfl, hws⟩ := hok
      obtain ⟨q, hq, hinv⟩ := h.alloc hvol hcxl hpool hws
      exact ⟨_, hq, hinv⟩
  | txZalloc ws addr size =>
      obtain ⟨pool, hpool, ⟨ws', rfl, hws⟩, hzero⟩ := hok
      obtain ⟨q, hq, hinv⟩ := h.alloc hvol hcxl hpool hws
      have hone : ∀ v ∈ [zeros addr size], pool.Admits v := by simpa using hzero
      obtain ⟨q', hq', hinv'⟩ := hinv.perform hvol hcxl hpool hone
      refine ⟨_, ?_, hinv'⟩
      rw [Thread.call, hq, Option.bind_some, Thread.perform, hq', Option.map_some]
  | txFree => exact ⟨th, if_neg hok, h⟩

end Implements

/-- A file of one page, and the pool in it. -/
def pageFile : FdMetadata := ⟨3, 0x10000000000, 0x10000001000, "/mnt/pmem0/pool"⟩

def pagePool : Mmf := ⟨0x10000000000, 0x1000⟩

/-- A process that has mapped the file and nothing else; the first byte of the
backing file is 1. -/
def openedPage : Process :=
  { Process.mapping (fun _ => 0) (fun y => if y = 0x20000000000 then 1 else 0) [pageFile]
      0x1000 with
    storeInstEnabled := false }

/-- A store in a transaction inside another one. -/
def nestedCalls : List TxCall :=
  [.txBegin pagePool, .txBegin pagePool, .write (.store ⟨0x10000000008, [1]⟩), .txEnd, .txEnd]

theorem openedPage_opened : Opened .default pageFile openedPage (Log.fresh 1) := by
  refine ⟨rfl, rfl, ?_, fun _ => rfl, fun x hx => ?_⟩
  · intro r hr
    rw [List.mem_singleton.mp hr]
    exact ⟨by decide, by decide, by decide⟩
  · have hbyte : image .default x = 0x20000000000 := by
      by_contra hne
      have hback : openedPage.pm.backing (image .default x) = 0 := by
        simp [openedPage, Process.mapping, Process.single, hne]
      exact hx.2 hback.symm
    have hlo := hx.1.1
    have himage : image .default x = 0x20000000000 + (x - 0x10000000000) := rfl
    have hstart : Config.default.startAddr = 0x10000000000 := rfl
    have hsize : openedPage.bulkSize pageFile = 0x1000 := rfl
    have hhome : pageFile.start = 0x10000000000 := rfl
    refine ⟨rfl, ?_, ?_⟩ <;> omega

/-- With an inner transaction on another pool, the store is not durable when
the outer one ends, and not in the log either. -/
example : ∃ th, Run.run (Thread.call .default) ⟨⟨0, none⟩, .single (fun _ => 0) fun _ => 0⟩
    [.txBegin pagePool, .write (.store ⟨0x10000000000, [1]⟩), .txBegin ⟨0x10000001000, 0x1000⟩,
      .txEnd, .txEnd] = some th ∧
      th.proc.pm.backing (image .default 0x10000000000) = 0 ∧
      th.proc.logs.map Log.entries = [[]] := by
  refine ⟨_, rfl, ?_⟩
  decide

/-- Of a store of sixteen bytes only the first eight are durable. -/
example : ∃ th, Run.run (Thread.call .default) ⟨⟨0, none⟩, .single (fun _ => 0) fun _ => 0⟩
    [.txBegin pagePool, .write (.store ⟨0x10000000000, List.replicate 16 1⟩), .txEnd] = some th ∧
      th.proc.pm.backing (image .default 0x10000000007) = 1 ∧
      th.proc.pm.backing (image .default 0x10000000008) = 0 := by
  refine ⟨_, rfl, ?_⟩
  decide

end Cxlbuf.Pmdk
