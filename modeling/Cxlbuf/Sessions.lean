import Cxlbuf.Snapshot.Runs
import Cxlbuf.Threads

/-!
# Cxlbuf.Sessions

A pmem file over several process lifetimes.  The constructor of `PmemFile`
recovers the file; the process maps it, gets a line in the dependency file
and a new log, and takes snapshots; when it has ended, another process opens
the file and recovers it again.

`recover` never retires the log it has undone, so the second opening finds
the same `ACTIVE` log and undoes it once more (`Session.reopen_eq`).  That
takes back what was committed in between, except for bytes that hold what
the log says already.
-/

namespace Cxlbuf

open ByteMem

/-! ## one process and its file -/

/-- A process that opens a file: what it was before (`proc`, without a log),
the thread that calls `mmap` and does the work, and where the file goes. -/
structure Session where
  nv : Nvsl
  proc : Process
  tid : UInt64
  fd : Nat
  path : Text
  addr : Nat
  len : Nat
  path_ne : path ≠ []
  addr_lt : addr < 2 ^ 64
  no_logs : proc.logs = []

namespace Session

/-- The line the process gets in the dependency file. -/
def line (ss : Session) : DepLine where
  pid := ss.proc.pid
  tid := ss.tid.toNat
  addr := ss.addr
  pid_lt := ss.proc.pid_lt
  tid_lt := ss.tid.toNat_lt
  addr_lt := ss.addr_lt

/-- The process once it has mapped the file, which `create_backing_file` has
recreated from the backing file, and constructed its log. -/
def start (ss : Session) (fs : PmemFs) : Process :=
  (ss.proc.mapFile ss.fd ss.path ss.addr ss.len fs.backing fs.backing).initThreadBuf ss.tid

/-- The files the process leaves behind: its log, its line in the dependency
file, and the backing file as it was mapped. -/
def finish (ss : Session) (fs : PmemFs) (q : Process) : PmemFs where
  logDir := Function.update fs.logDir ss.line.logName (some (q.pm.area 0))
  deps := writeDependencyInternal ss.nv ss.line fs.deps
  backing := unmapAt (ss.addr + backingDistance) ss.len fs.backing q.pm.backing

end Session

/-! ## the log of a process between its snapshots -/

/-- A process with one log, which is not `ACTIVE`. -/
structure Retired (p : Process) : Prop where
  logs : p.logs.length = 1
  state : (p.pm.area 0).state = .empty

theorem Session.retired_start (ss : Session) (fs : PmemFs) : Retired (ss.start fs) := by
  have hlogs : (ss.proc.mapFile ss.fd ss.path ss.addr ss.len fs.backing fs.backing).logs = [] :=
    ss.no_logs
  constructor
  · simp [Session.start, Process.initThreadBuf, hlogs]
  · simp [Session.start, Process.initThreadBuf, hlogs, Log.freshArea]

/-- Every call completes and leaves the log retired. -/
theorem keeps_retired (cfg : Config) :
    Run.Keeps (Process.call cfg) Retired fun _ _ => True := by
  intro p c h _
  cases c with
  | store s =>
      obtain ⟨ops, -, hpm, happ⟩ := Process.store_accesses cfg 0 p s
      refine ⟨_, rfl, (Process.length_store_logs cfg 0 p s).trans h.logs, ?_⟩
      rw [hpm, execOps_state_of_appends happ]
      exact h.state
  | snapshot addr bytes =>
      refine ⟨_, snapshot_eq cfg addr bytes p, ?_, ?_⟩
      · cases p.storeInstEnabled with
        | true => simpa using h.logs
        | false => exact h.logs
      · cases hinst : p.storeInstEnabled with
        | true =>
            have hpos : 0 < p.logs.length := by rw [h.logs]; decide
            have harea := snapshot_area cfg addr bytes hinst hpos
            simp only [Process.issue_pm, harea, Log.retiredArea]
        | false =>
            simp only [Process.issue_pm, snapshotOps, hinst, Bool.false_eq_true, if_false,
              execOps_nil]
            exact h.state

/-- Every run of calls completes and leaves the log retired. -/
theorem run_retired (cfg : Config) {p : Process} (h : Retired p) (cs : List Call) :
    ∃ q, Run.run (Process.call cfg) p cs = some q ∧ Retired q :=
  (keeps_retired cfg).run h (Run.guarded_of_forall (fun _ _ => trivial) p cs)

/-! ## opening the file again -/

/-- The first line with an outstanding log other than the process's own. -/
def Session.staleLine (ss : Session) (logDir : Text → Option LogLayout) (ls : List DepLine) :
    Option DepLine :=
  ls.find? fun l => l.logName ≠ ss.line.logName ∧ l.Outstanding logDir

theorem Session.staleLine_spec {ss : Session} {logDir : Text → Option LogLayout}
    {ls : List DepLine} {l : DepLine} (h : ss.staleLine logDir ls = some l) :
    l.logName ≠ ss.line.logName ∧ l.Outstanding logDir := by
  have hl := List.find?_some h
  rw [decide_eq_true_eq] at hl
  exact hl

/-- The process's own log is retired; every other one is as it was. -/
theorem Session.outstanding_finish (ss : Session) (fs : PmemFs) {q : Process} (h : Retired q)
    (l : DepLine) : l.Outstanding (ss.finish fs q).logDir ↔
      l.logName ≠ ss.line.logName ∧ l.Outstanding fs.logDir := by
  by_cases hname : l.logName = ss.line.logName
  · simp [DepLine.Outstanding, Session.finish, hname, h.state]
  · simp [DepLine.Outstanding, Session.finish, hname]

/-- **Opening the file again** undoes the first outstanding log that is not
the process's own, whether or not it was undone before. -/
theorem Session.reopen_eq (ss : Session) (logDir : Text → Option LogLayout) (ls : List DepLine)
    (file : Mem) {q : Process} (h : Retired q) :
    construct ss.nv ss.path ss.len (ss.finish ⟨logDir, some (depText ls), file⟩ q) =
      some { ss.finish ⟨logDir, some (depText ls), file⟩ q with
        backing := (ss.staleLine logDir ls).elim
          (ss.finish ⟨logDir, some (depText ls), file⟩ q).backing
          (undoLine logDir ss.len (ss.finish ⟨logDir, some (depText ls), file⟩ q).backing) } := by
  let fs : PmemFs := ⟨logDir, some (depText ls), file⟩
  have hdeps : (ss.finish fs q).deps = some (depText (ls ++ [ss.line])) :=
    writeDependencyInternal_depText ss.nv ss.line ls
  have hown : ¬ ss.line.Outstanding (ss.finish fs q).logDir := by
    rw [ss.outstanding_finish fs h]
    exact fun hout => hout.1 rfl
  have hfind : ((ls ++ [ss.line]).find? fun l => l.Outstanding (ss.finish fs q).logDir) =
      ss.staleLine logDir ls := by
    have hpred : (fun l : DepLine => decide (l.Outstanding (ss.finish fs q).logDir)) =
        fun l => decide (l.logName ≠ ss.line.logName ∧ l.Outstanding logDir) := by
      funext l
      exact decide_eq_decide.mpr (ss.outstanding_finish fs h l)
    rw [List.find?_append, List.find?_singleton, if_neg (by simpa using hown), Option.or_none,
      hpred]
    rfl
  have hconstruct := construct_depText ss.nv ss.path_ne ss.len (ss.finish fs q).logDir
    (ls ++ [ss.line]) (ss.finish fs q).backing
  rw [← hdeps, hfind] at hconstruct
  refine hconstruct.trans ?_
  cases hstale : ss.staleLine logDir ls with
  | none => rfl
  | some l =>
      have hdir : (ss.finish fs q).logDir l.logName = logDir l.logName :=
        Function.update_of_ne (Session.staleLine_spec hstale).1 _ _
      simp only [Option.elim_some, undoLine, hdir]
      rfl

/-! ## what survives -/

/-- The records of a log that belong to a mapping. -/
def savedIn (a : LogLayout) (addr len : Nat) : List SavedRange :=
  (savedRanges a).filter fun r => addr ≤ r.addr ∧ r.addr < addr + len

/-- The range contains an address. -/
def SavedRange.Covers (r : SavedRange) (x : Nat) : Prop := r.addr ≤ x ∧ x < r.addr + r.old.length

/-- Every byte of the file that the log has records for, holds what the
oldest of them saved. -/
def HoldsSaved (a : LogLayout) (addr len : Nat) (file : Mem) : Prop :=
  ∀ off, off < len → ∀ pre r post, savedIn a addr len = pre ++ r :: post →
    (∀ r' ∈ pre, ¬ r'.Covers (addr + off)) → r.Covers (addr + off) →
    file off = r.old.getD (addr + off - r.addr) 0

theorem mem_covered_record_iff {rs : List SavedRange} {x : Nat} :
    x ∈ UndoLog.covered (rs.map SavedRange.record) ↔ ∃ r ∈ rs, r.Covers x := by
  constructor
  · intro hx
    obtain ⟨rec, hrec, hdom⟩ := hx
    obtain ⟨r, hr, rfl⟩ := List.mem_map.mp hrec
    exact ⟨r, hr, hdom⟩
  · intro hx
    obtain ⟨r, hr, hcov⟩ := hx
    exact mem_covered_of_mem hr hcov

/-- Undoing a log leaves a byte alone exactly when the byte holds what the
oldest record for it saved. -/
theorem undoLog_apply_eq_self_iff (a : LogLayout) (addr len : Nat) (mem : Mem) (x : Nat) :
    undoLog a addr len mem x = mem x ↔
      ∀ pre r post, savedIn a addr len = pre ++ r :: post → (∀ r' ∈ pre, ¬ r'.Covers x) →
        r.Covers x → mem x = r.old.getD (x - r.addr) 0 := by
  rw [undoLog_eq_rollback, UndoLog.rollback_apply_eq_self_iff]
  constructor
  · intro h pre r post hsplit hpre hr
    refine h (pre.map SavedRange.record) r.record (post.map SavedRange.record) ?_ ?_ hr
    · rw [← savedIn, hsplit, List.map_append, List.map_cons]
    · rw [mem_covered_record_iff]
      exact fun hex => hpre _ hex.choose_spec.1 hex.choose_spec.2
  · intro h pre r post hsplit hpre hr
    obtain ⟨rs, rs', hrs, rfl, hrest⟩ := List.map_eq_append_iff.mp hsplit
    obtain ⟨r', rs'', rfl, rfl, rfl⟩ := List.map_eq_cons_iff.mp hrest
    refine h rs r' rs'' hrs (fun r'' hr'' hcov => hpre ?_) hr
    exact mem_covered_record_iff.mpr ⟨r'', hr'', hcov⟩

theorem undoLine_eq_self_iff {logDir : Text → Option LogLayout} {l : DepLine} {a : LogLayout}
    (h : logDir l.logName = some a) (len : Nat) (file : Mem) :
    undoLine logDir len file l = file ↔ HoldsSaved a l.addr len file := by
  have hmap (off : Nat) : mapAt l.addr file (l.addr + off) = file off := by simp [mapAt]
  have hbyte (off : Nat) (hoff : off < len) : undoLine logDir len file l off =
      undoLog a l.addr len (mapAt l.addr file) (l.addr + off) := by
    simp [undoLine, h, unmapAt, hoff]
  have hiff (off : Nat) := undoLog_apply_eq_self_iff a l.addr len (mapAt l.addr file) (l.addr + off)
  simp only [hmap] at hiff
  constructor
  · intro heq off hoff
    rw [← hiff off, ← hbyte off hoff, heq]
  · intro hsaved
    funext off
    by_cases hoff : off < len
    · rw [hbyte off hoff, hiff off]
      exact hsaved off hoff
    · simp [undoLine, h, unmapAt, hoff]

/-- **When commits survive**: after recovery and any calls of a process with
a new log, opening the file again completes, and leaves the backing file as
it is exactly when undoing the first outstanding log of another thread does
not change it. -/
theorem commits_survive_iff (cfg : Config) (ss : Session) (logDir : Text → Option LogLayout)
    (ls : List DepLine) (file : Mem) (cs : List Call) :
    ∃ fs q fs', construct ss.nv ss.path ss.len ⟨logDir, some (depText ls), file⟩ = some fs ∧
      Run.run (Process.call cfg) (ss.start fs) cs = some q ∧
      construct ss.nv ss.path ss.len (ss.finish fs q) = some fs' ∧
      (fs'.backing = (ss.finish fs q).backing ↔
        ∀ l a, ss.staleLine logDir ls = some l → logDir l.logName = some a →
          HoldsSaved a l.addr ss.len (ss.finish fs q).backing) := by
  let fs : PmemFs := ⟨logDir, some (depText ls),
    (ls.find? fun l => l.Outstanding logDir).elim file (undoLine logDir ss.len file)⟩
  obtain ⟨q, hq, hretired⟩ := run_retired cfg (ss.retired_start fs) cs
  refine ⟨fs, q, _, construct_depText ss.nv ss.path_ne ss.len logDir ls file, hq,
    ss.reopen_eq logDir ls fs.backing hretired, ?_⟩
  cases hstale : ss.staleLine logDir ls with
  | none =>
      simp only [Option.elim_none, reduceCtorEq, false_implies, implies_true, iff_true]
      rfl
  | some l =>
      have hout : l.Outstanding logDir := (Session.staleLine_spec hstale).2
      cases hdir : logDir l.logName with
      | none => simp [DepLine.Outstanding, hdir] at hout
      | some a =>
          have hiff := undoLine_eq_self_iff hdir ss.len (ss.finish fs q).backing
          constructor
          · intro hsame l' a' hl' ha'
            rw [Option.some.injEq] at hl'
            subst hl'
            rw [hdir, Option.some.injEq] at ha'
            subst ha'
            exact hiff.mp hsame
          · intro hall
            exact hiff.mpr (hall l a rfl hdir)

/-- An `ACTIVE` log with one record: eight bytes that were 7. -/
def staleLog : LogLayout :=
  { Log.appendRecord Log.freshArea (fun _ => 7) 0x10000000000 8 with state := .active }

/-- A process that maps a file of 64 bytes. -/
def smallSession : Session where
  nv := .reference
  proc := { Process.single (fun _ => 0) fun _ => 0 with
    logs := [], firstSnapshot := true, fileSize := fun _ => 64 }
  tid := 1
  fd := 3
  path := ['g']
  addr := 0x10000000000
  len := 64
  path_ne := by decide
  addr_lt := by decide
  no_logs := rfl

/-- The log of a crashed process is undone.  The next process commits eight
other bytes, and opening the file once more takes them back. -/
theorem commit_undone_again : ∃ fs q fs',
    construct .reference ['g'] 64
      ⟨fun _ => some staleLog, some (depText [exampleLine 1 (by decide)]), fun _ => 0⟩ = some fs ∧
    Run.run (Process.call .default) (smallSession.start fs)
      [.store ⟨0x10000000000, [1, 2, 3, 4, 5, 6, 7, 8]⟩, .snapshot 0x10000000000 64] = some q ∧
    construct .reference ['g'] 64 (smallSession.finish fs q) = some fs' ∧
    fs.backing 0 = 7 ∧ (smallSession.finish fs q).backing 0 = 1 ∧ fs'.backing 0 = 7 := by
  refine ⟨_, _, _, construct_depText .reference (by decide) 64 _ _ _, rfl,
    smallSession.reopen_eq _ _ _ ⟨rfl, rfl⟩, ?_, ?_, ?_⟩
  · decide
  · decide
  · decide

end Cxlbuf
