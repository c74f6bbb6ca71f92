import Cxlbuf.Log

/-!
# Cxlbuf.Process

A process that runs with `libstoreinst`: its build and environment
(`Config`), its memory, the logs its threads have registered in `tls_logs`,
the registry `mapped_addr`, and the persistent memory it works on.

`Process.trace` is the history of all accesses to persistent memory; the
program never reads it.  Accesses go through `Process.issue`, so that what
the process reads back is always what the trace produced (`issue_pm`).
-/

namespace Cxlbuf

open ByteMem

/-! ## build and environment -/

/-- `std::sort` on log entries by address.  It is not stable, so all that is
known is that the result is a sorted permutation. -/
structure EntrySort where
  sort : List LogEntryLean → List LogEntryLean
  perm : ∀ es, (sort es).Perm es
  sorted : ∀ es, (sort es).Pairwise fun a b => a.addr ≤ b.addr

/-- Merge sort is such a sort. -/
def EntrySort.merge : EntrySort where
  sort es := es.mergeSort fun a b => a.addr ≤ b.addr
  perm es := List.mergeSort_perm es _
  sorted es := by
    have htrans : ∀ a b c : LogEntryLean, decide (a.addr ≤ b.addr) = true →
        decide (b.addr ≤ c.addr) = true → decide (a.addr ≤ c.addr) = true := by
      intro a b c hab hbc
      simp only [decide_eq_true_eq] at *
      omega
    have htotal : ∀ a b : LogEntryLean,
        (decide (a.addr ≤ b.addr) || decide (b.addr ≤ a.addr)) = true := by
      intro a b
      simp only [Bool.or_eq_true, decide_eq_true_eq]
      omega
    simpa using List.pairwise_mergeSort htrans htotal es

/-- The build flags of `make.config`, the tracked region
`[start_addr, end_addr)` and the address `backing_file_start` of the backing
file that corresponds to `start_addr`.

`init_addrs` asserts that `start_addr` is not null and below `end_addr`; as
addresses of mappings, the tracked region and its backing lie above page
zero and inside the user part of the address space, which is what the
56-bit `addr` field of `log_entry_t` relies on. -/
structure Config where
  logFormat : LogFormat
  alignSnapshotWrites : Bool
  sort : EntrySort
  startAddr : Nat
  endAddr : Nat
  backingFileStart : Nat
  cxlModeEnabled : Bool
  first_page : 4096 ≤ startAddr
  start_lt_end : startAddr < endAddr
  end_le : endAddr ≤ 2 ^ 56
  backing_le : backingFileStart + (endAddr - startAddr) ≤ 2 ^ 56

/-- The flags as `make.config` sets them, with the addresses the test
scripts use. -/
def Config.default : Config where
  logFormat := .volatile
  alignSnapshotWrites := true
  sort := .merge
  startAddr := 0x10000000000
  endAddr := 0x20000000000
  backingFileStart := 0x20000000000
  cxlModeEnabled := true
  first_page := by decide
  start_lt_end := by decide
  end_le := by decide
  backing_le := by decide

/-- The same build with the given log format. -/
def Config.withFormat (cfg : Config) (fmt : LogFormat) : Config := { cfg with logFormat := fmt }

/-- `[a, a + n)` lies in the tracked region. -/
def Config.Tracks (cfg : Config) (a n : Nat) : Prop := cfg.startAddr ≤ a ∧ a + n ≤ cfg.endAddr

instance (cfg : Config) (a n : Nat) : Decidable (cfg.Tracks a n) := by
  unfold Config.Tracks; infer_instance

/-- A tracked range starts in the region. -/
theorem Config.Tracks.start {cfg : Config} {a n : Nat} (h : cfg.Tracks a n) : cfg.Tracks a 0 :=
  ⟨h.1, Nat.le_trans (Nat.le_add_right a n) h.2⟩

/-- `fd_metadata_t`: a mapped file.  `fpath` is empty for an anonymous
mapping. -/
structure FdMetadata where
  fd : Nat
  start : Nat
  stop : Nat
  fpath : String
deriving DecidableEq, Repr

/-! ## processes -/

/-- The state of a process.  A `pid` is a non-negative `int`. -/
structure Process where
  pid : Nat
  pid_lt : pid < 2 ^ 31
  mem : Mem
  pm : PmImage
  logs : List Log
  firstSnapshot : Bool
  storeInstEnabled : Bool
  mappedAddr : List FdMetadata
  fileSize : String → Nat
  trace : List PmOp

namespace Process

/-- Perform accesses to persistent memory. -/
def issue (p : Process) (ops : List PmOp) : Process :=
  { p with pm := execOps p.pm ops, trace := p.trace ++ ops }

@[simp] theorem issue_pm (p : Process) (ops : List PmOp) :
    (p.issue ops).pm = execOps p.pm ops := rfl

@[simp] theorem issue_trace (p : Process) (ops : List PmOp) :
    (p.issue ops).trace = p.trace ++ ops := rfl

/-- The accesses a process has made since an earlier state. -/
def accessesSince (p q : Process) : List PmOp := q.trace.drop p.trace.length

theorem accessesSince_of_trace {p q : Process} {ops : List PmOp} (h : q.trace = p.trace ++ ops) :
    p.accessesSince q = ops := by
  simp [accessesSince, h]

/-- A process with one registered log, past its first snapshot. -/
def single (mem backing : Mem) : Process where
  pid := 1
  pid_lt := by decide
  mem := mem
  pm := ⟨fun _ => Log.freshArea, backing⟩
  logs := [Log.fresh 1]
  firstSnapshot := false
  storeInstEnabled := false
  mappedAddr := []
  fileSize _ := 0
  trace := []

/-- `log_range`, called by the thread that owns log `t`. -/
def logRange (cfg : Config) (t : Nat) (p : Process) (start bytes : Nat) : Process :=
  match p.logs[t]? with
  | none => p
  | some l =>
      if cfg.cxlModeEnabled then
        { p.issue (l.logRangeOps cfg.logFormat t (p.pm.area t) p.mem start bytes) with
          logs := p.logs.set t (l.logRange cfg.logFormat (p.pm.area t).logOffset start bytes)
          storeInstEnabled := true }
      else p

/-- A store to memory: the bytes `data` at address `addr`. -/
structure Store where
  addr : Nat
  data : List UInt8
deriving DecidableEq, Repr

/-- The store writes address `x`. -/
def Store.Covers (s : Store) (x : Nat) : Prop := s.addr ≤ x ∧ x < s.addr + s.data.length

instance (s : Store) (x : Nat) : Decidable (s.Covers x) := by unfold Store.Covers; infer_instance

/-- A tracked store: `log_range` on the written range, then the write.  An
instruction that writes less than it logs is a store that rewrites the other
bytes with what they hold. -/
def store (cfg : Config) (t : Nat) (p : Process) (s : Store) : Process :=
  let q := p.logRange cfg t s.addr s.data.length
  { q with mem := write q.mem s.addr s.data }

/-- The range a store logs. -/
def Store.range (s : Store) : LogEntryLean := ⟨s.addr, s.data.length⟩

/-- A sequence of tracked stores by the thread that owns log `t`. -/
def stores (cfg : Config) (t : Nat) (p : Process) (ss : List Store) : Process :=
  ss.foldl (store cfg t) p

/-! ## what a tracked store does -/

section Store

variable {cfg : Config} {t : Nat} {p : Process} {l : Log}

/-- In CXL mode `log_range` on a registered log issues its accesses and
updates the log. -/
theorem logRange_eq (hcxl : cfg.cxlModeEnabled = true) (hl : p.logs[t]? = some l)
    (start bytes : Nat) :
    p.logRange cfg t start bytes =
      { p.issue (l.logRangeOps cfg.logFormat t (p.pm.area t) p.mem start bytes) with
        logs := p.logs.set t (l.logRange cfg.logFormat (p.pm.area t).logOffset start bytes)
        storeInstEnabled := true } := by
  simp [logRange, hl, hcxl]

/-- `log_range` leaves memory alone. -/
theorem logRange_mem (cfg : Config) (t : Nat) (p : Process) (start bytes : Nat) :
    (p.logRange cfg t start bytes).mem = p.mem := by
  unfold logRange
  split
  · rfl
  · split <;> rfl

/-- `log_range` appends a record unless it is a back-to-back duplicate. -/
theorem logRange_pm (hcxl : cfg.cxlModeEnabled = true) (hl : p.logs[t]? = some l)
    (start bytes : Nat) :
    (p.logRange cfg t start bytes).pm = if l.IsDuplicate cfg.logFormat start bytes then p.pm
      else p.pm.updateArea t fun a => Log.appendRecord a p.mem start bytes := by
  rw [logRange_eq hcxl hl, ← Log.execOps_logRangeOps]
  rfl

/-- The calling thread's log after `log_range`. -/
theorem logRange_log (hcxl : cfg.cxlModeEnabled = true) (hl : p.logs[t]? = some l)
    (start bytes : Nat) :
    (p.logRange cfg t start bytes).logs[t]? =
      some (l.logRange cfg.logFormat (p.pm.area t).logOffset start bytes) := by
  have ht : t < p.logs.length := (List.getElem?_eq_some_iff.mp hl).1
  rw [logRange_eq hcxl hl]
  exact List.getElem?_set_self ht

/-- A store changes what it writes. -/
theorem store_mem (cfg : Config) (t : Nat) (p : Process) (s : Store) :
    (p.store cfg t s).mem = write p.mem s.addr s.data := by
  simp [store, logRange_mem]

theorem length_store_logs (cfg : Config) (t : Nat) (p : Process) (s : Store) :
    (p.store cfg t s).logs.length = p.logs.length := by
  unfold store logRange
  split
  · rfl
  · split
    · simp
    · rfl

/-- A store appends a record unless it is a back-to-back duplicate. -/
theorem store_pm (hcxl : cfg.cxlModeEnabled = true) (hl : p.logs[t]? = some l) (s : Store) :
    (p.store cfg t s).pm = if l.IsDuplicate cfg.logFormat s.addr s.data.length then p.pm
      else p.pm.updateArea t fun a => Log.appendRecord a p.mem s.addr s.data.length :=
  logRange_pm hcxl hl s.addr s.data.length

/-- The logs after a store. -/
theorem store_logs (hcxl : cfg.cxlModeEnabled = true) (hl : p.logs[t]? = some l) (s : Store) :
    (p.store cfg t s).logs = p.logs.set t
      (l.logRange cfg.logFormat (p.pm.area t).logOffset s.addr s.data.length) := by
  rw [store, logRange_eq hcxl hl]

/-- The storing thread's log after a store. -/
theorem store_log (hcxl : cfg.cxlModeEnabled = true) (hl : p.logs[t]? = some l) (s : Store) :
    (p.store cfg t s).logs[t]? =
      some (l.logRange cfg.logFormat (p.pm.area t).logOffset s.addr s.data.length) :=
  logRange_log hcxl hl s.addr s.data.length

/-- What `log_range` on a process with one log leaves alone, and what it does
to the log's entries. -/
theorem logRange_single (hcxl : cfg.cxlModeEnabled = true) (hlogs : p.logs = [l])
    (start bytes : Nat) :
    (∃ l', (p.logRange cfg 0 start bytes).logs = [l'] ∧ l'.entries = match cfg.logFormat with
      | .volatile => l.entries ++ [⟨start, bytes⟩]
      | .nonVolatile => l.entries) ∧
    (p.logRange cfg 0 start bytes).firstSnapshot = p.firstSnapshot ∧
    (p.logRange cfg 0 start bytes).storeInstEnabled = true ∧
    (p.logRange cfg 0 start bytes).mappedAddr = p.mappedAddr ∧
    (p.logRange cfg 0 start bytes).fileSize = p.fileSize := by
  have hl : p.logs[0]? = some l := by rw [hlogs]; rfl
  rw [logRange_eq hcxl hl, hlogs]
  exact ⟨⟨_, rfl, Log.entries_logRange _ _ _ _ _⟩, rfl, rfl, rfl, rfl⟩

/-- A store, likewise. -/
theorem store_single (hcxl : cfg.cxlModeEnabled = true) (hlogs : p.logs = [l]) (s : Store) :
    (∃ l', (p.store cfg 0 s).logs = [l'] ∧ l'.entries = match cfg.logFormat with
      | .volatile => l.entries ++ [s.range]
      | .nonVolatile => l.entries) ∧
    (p.store cfg 0 s).firstSnapshot = p.firstSnapshot ∧
    (p.store cfg 0 s).storeInstEnabled = true ∧
    (p.store cfg 0 s).mappedAddr = p.mappedAddr ∧
    (p.store cfg 0 s).fileSize = p.fileSize :=
  logRange_single hcxl hlogs s.addr s.data.length

/-- `log_range` appends to the log. -/
theorem logRange_accesses (cfg : Config) (t : Nat) (p : Process) (start bytes : Nat) :
    ∃ ops, (p.logRange cfg t start bytes).trace = p.trace ++ ops ∧
      (p.logRange cfg t start bytes).pm = execOps p.pm ops ∧ ∀ op ∈ ops, op.Appends := by
  unfold logRange
  split
  · exact ⟨[], by simp⟩
  · split
    · exact ⟨_, rfl, rfl, fun op hop => Log.appends_of_mem_logRangeOps hop⟩
    · exact ⟨[], by simp⟩

/-- The accesses of a store are those of `log_range`. -/
theorem store_accesses (cfg : Config) (t : Nat) (p : Process) (s : Store) :
    ∃ ops, (p.store cfg t s).trace = p.trace ++ ops ∧
      (p.store cfg t s).pm = execOps p.pm ops ∧ ∀ op ∈ ops, op.Appends :=
  logRange_accesses cfg t p s.addr s.data.length

/-- `log_range` never touches the backing file. -/
theorem logRange_backing (cfg : Config) (t : Nat) (p : Process) (start bytes : Nat) :
    (p.logRange cfg t start bytes).pm.backing = p.pm.backing := by
  obtain ⟨ops, -, hpm, happ⟩ := logRange_accesses cfg t p start bytes
  funext a
  rw [hpm]
  exact execOps_backing_of_not_writes
    (fun op hop => PmOp.not_writesBacking_of_not_toBacking (happ op hop).not_toBacking a) p.pm

/-- The accesses of a run of stores. -/
theorem stores_accesses (cfg : Config) (t : Nat) (p : Process) (ss : List Store) :
    ∃ ops, (p.stores cfg t ss).trace = p.trace ++ ops ∧
      (p.stores cfg t ss).pm = execOps p.pm ops ∧ ∀ op ∈ ops, op.Appends := by
  induction ss generalizing p with
  | nil => exact ⟨[], by simp [stores]⟩
  | cons s ss ih =>
      obtain ⟨ops, htrace, hpm, happ⟩ := store_accesses cfg t p s
      obtain ⟨ops', htrace', hpm', happ'⟩ := ih (p.store cfg t s)
      refine ⟨ops ++ ops', ?_, ?_, ?_⟩
      · rw [← List.append_assoc, ← htrace]
        exact htrace'
      · rw [execOps_append, ← hpm]
        exact hpm'
      · intro op hop
        cases List.mem_append.mp hop with
        | inl hold => exact happ op hold
        | inr hnew => exact happ' op hnew

/-- Stores never touch the backing file. -/
theorem stores_backing (cfg : Config) (t : Nat) (p : Process) (ss : List Store) :
    (p.stores cfg t ss).pm.backing = p.pm.backing := by
  induction ss generalizing p with
  | nil => rfl
  | cons s ss ih => exact (ih (p.store cfg t s)).trans (logRange_backing cfg t p _ _)

/-- A run of stores on a process with one log, likewise. -/
theorem stores_single (hcxl : cfg.cxlModeEnabled = true) (hlogs : p.logs = [l])
    (ss : List Store) :
    (∃ l', (p.stores cfg 0 ss).logs = [l'] ∧ l'.entries = match cfg.logFormat with
      | .volatile => l.entries ++ ss.map Store.range
      | .nonVolatile => l.entries) ∧
    (p.stores cfg 0 ss).firstSnapshot = p.firstSnapshot ∧
    (p.stores cfg 0 ss).storeInstEnabled = (p.storeInstEnabled || !ss.isEmpty) ∧
    (p.stores cfg 0 ss).mappedAddr = p.mappedAddr ∧
    (p.stores cfg 0 ss).fileSize = p.fileSize := by
  induction ss generalizing p l with
  | nil =>
      refine ⟨⟨l, hlogs, ?_⟩, rfl, by simp [stores], rfl, rfl⟩
      cases cfg.logFormat <;> simp
  | cons s ss ih =>
      obtain ⟨⟨l₁, hlogs₁, hentries₁⟩, hfirst₁, hinst₁, hmapped₁, hsize₁⟩ :=
        store_single hcxl hlogs s
      obtain ⟨⟨l', hlogs', hentries'⟩, hfirst', hinst', hmapped', hsize'⟩ := ih hlogs₁
      refine ⟨⟨l', hlogs', ?_⟩, hfirst'.trans hfirst₁, ?_, hmapped'.trans hmapped₁,
        hsize'.trans hsize₁⟩
      · rw [hentries']
        cases hfmt : cfg.logFormat with
        | volatile => simp [hentries₁, hfmt]
        | nonVolatile => simp [hentries₁, hfmt]
      · simp only [stores, List.foldl_cons] at hinst' ⊢
        simp [hinst', hinst₁]

/-- What stores do to memory does not depend on the build. -/
theorem stores_mem (cfg : Config) (t : Nat) (p : Process) (ss : List Store) :
    (p.stores cfg t ss).mem = ss.foldl (fun m s => write m s.addr s.data) p.mem := by
  induction ss generalizing p with
  | nil => rfl
  | cons s ss ih =>
      have ih' := ih (p.store cfg t s)
      rw [store_mem] at ih'
      exact ih'

end Store

end Process

end Cxlbuf
