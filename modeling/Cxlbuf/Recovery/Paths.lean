import Mathlib.Data.List.Forall2
import Cxlbuf.Lib.PosixPath
import Cxlbuf.Recovery.Lines

/-!
# Cxlbuf.Recovery.Paths

The dependency file as the link between a crashed process and its logs.
`init_thread_buf` creates a thread's log under a name made from the process
and thread ids; `write_dependency_internal` prints the ids into the dependency
file; `needs_recovery` and `recover` read them back, each in its own way, and
build the name again.  The name is put behind the log directory with a printed
slash in two places and with `operator/` in the third.

The typed lines of `Cxlbuf.Recovery.Lines` survive the way through the text
(`parseLine_text`), and all the paths made from one line are the same file
(`readsBack_text`).
-/

namespace Cxlbuf

open PosixPath

/-! ## paths of log files -/

section Paths

variable (nv : Nvsl) (logLoc : Text)

/-- The file name of a log. -/
def logFileName (name : Text) : Text := name ++ ['.', 'l', 'o', 'g']

/-- `fpath` of `init_thread_buf`, by which a thread's log is created. -/
def initThreadBufPath (pid tid : Nat) : Text :=
  logLoc ++ '/' :: logFileName (nv.S pid ++ '.' :: nv.S tid)

/-- `lfname` of `needs_recovery`, for one line of the dependency file. -/
def needsRecoveryPath (line : Text) : Text := logLoc ++ '/' :: logFileName (lineLogName nv line)

/-- `log_fname` of `get_log_by_id`. -/
def getLogByIdPath (name : Text) : Text := append logLoc (logFileName name)

/-- What `recover` reads from a line; `none` when a number does not parse. -/
def parseLine (line : Text) : Option (Int × Nat × Nat) := do
  let toks := nv.split line ',' (some 3)
  let pid ← stoi (toks.getD 0 [])
  let tid ← stoull (toks.getD 1 [])
  let addr ← stoull (toks.getD 2 [])
  return (pid, tid, addr)

/-- The path at which `recover` looks for a line's log. -/
def recoverPath (line : Text) : Option Text :=
  (parseLine nv line).map fun (pid, tid, _) =>
    getLogByIdPath logLoc (nv.S pid ++ '.' :: nv.S tid)

/-- `recover` goes by what it parses from a line. -/
theorem recover_cons (logDir : Text → Option LogLayout) (len : Nat) (line : Text)
    (lines : List Text) (file : ByteMem.Mem) :
    recover nv logDir len (line :: lines) file = (parseLine nv line).bind fun (pid, tid, addr) =>
      (logDir (nv.S pid ++ '.' :: nv.S tid)).bind fun area =>
        recover nv logDir len lines
          (unmapAt addr len file (undoLog area addr len (mapAt addr file))) := by
  simp only [recover, parseLine, Option.bind_eq_bind, Option.bind_assoc, Option.pure_def,
    Option.bind_some]

end Paths

/-! ## what comes back -/

section Line

variable (nv : Nvsl) (l : DepLine)

theorem parseLine_text : parseLine nv l.text = some ((l.pid : Int), l.tid, l.addr) := by
  simp [parseLine, split_text, stoi_toDigits l.pid_lt, stoull_toDigits l.tid_lt,
    stoull_toDigits l.addr_lt]

theorem name_eq : nv.S l.pid ++ '.' :: nv.S l.tid = l.logName := by
  rw [nv.S_nat, nv.S_nat, DepLine.logName]

/-- A log's file name has no slash in it. -/
theorem slash_not_mem_logFileName : '/' ∉ logFileName l.logName := by
  have hpid := not_mem_toDigits (c := '/') rfl l.pid
  have htid := not_mem_toDigits (c := '/') rfl l.tid
  simp [logFileName, DepLine.logName, hpid, htid]

/-- The ids can be told from the file name. -/
theorem logFileName_inj {l l' : DepLine} :
    logFileName l.logName = logFileName l'.logName ↔ l.pid = l'.pid ∧ l.tid = l'.tid := by
  have hdot (n : Nat) : '.' ∉ Nat.toDigits 10 n := not_mem_toDigits rfl n
  rw [logFileName, logFileName, List.append_cancel_right_eq, DepLine.logName, DepLine.logName,
    List.append_cons_inj_of_notMem (hdot _) (hdot _)]
  constructor
  · exact fun h => ⟨toDigits_injective h.1, toDigits_injective h.2.2⟩
  · exact fun h => ⟨by rw [h.1], rfl, by rw [h.2]⟩

end Line

/-- What a line of the file says about the record it was written for: the
same ids and address come back, and every path made from it is that of the
log `init_thread_buf` created. -/
structure ReadsBack (nv : Nvsl) (logLoc line : Text) (l : DepLine) : Prop where
  triple : parseLine nv line = some ((l.pid : Int), l.tid, l.addr)
  needsRecovery : Same (needsRecoveryPath nv logLoc line) (initThreadBufPath nv logLoc l.pid l.tid)
  opened : Same (getLogByIdPath logLoc (lineLogName nv line))
    (initThreadBufPath nv logLoc l.pid l.tid)
  recover : ∃ path, recoverPath nv logLoc line = some path ∧
    Same path (initThreadBufPath nv logLoc l.pid l.tid)

/-- The paths made from a printed line. -/
theorem readsBack_text (nv : Nvsl) {logLoc : Text} (hloc : logLoc ≠ []) (l : DepLine) :
    ReadsBack nv logLoc l.text l := by
  have hinit : initThreadBufPath nv logLoc l.pid l.tid =
      logLoc ++ '/' :: logFileName l.logName := by
    rw [initThreadBufPath, name_eq]
  have hopen : Same (getLogByIdPath logLoc l.logName)
      (initThreadBufPath nv logLoc l.pid l.tid) := by
    rw [hinit]
    exact same_append hloc (slash_not_mem_logFileName l)
  refine ⟨parseLine_text nv l, ?_, ?_, ?_⟩
  · rw [needsRecoveryPath, lineLogName_text, hinit]
    rfl
  · rw [lineLogName_text]
    exact hopen
  · refine ⟨getLogByIdPath logLoc l.logName, ?_, hopen⟩
    rw [recoverPath, parseLine_text, Option.map_some, ← name_eq nv]

/-- The file after a sequence of `write_dependency_internal` calls. -/
def writeDependencies (nv : Nvsl) (ls : List DepLine) : Option Text :=
  ls.foldl (fun deps l => writeDependencyInternal nv l deps) none

theorem getD_writeDependencies (nv : Nvsl) (ls : List DepLine) :
    (writeDependencies nv ls).getD [] = depText ls := by
  have hfrom (deps : Option Text) (done : List DepLine) (hdeps : deps.getD [] = depText done) :
      (ls.foldl (fun deps l => writeDependencyInternal nv l deps) deps).getD [] =
        depText (done ++ ls) := by
    induction ls generalizing deps done with
    | nil => simpa using hdeps
    | cons l ls ih =>
        have hstep : (writeDependencyInternal nv l deps).getD [] = depText (done ++ [l]) := by
          have hsome := writeDependencyInternal_depText nv l done
          rw [writeDependencyInternal, Option.getD_some] at hsome
          rw [writeDependencyInternal, hdeps, hsome, Option.getD_some]
        have hrest := ih _ _ hstep
        rw [List.append_assoc] at hrest
        exact hrest
  exact hfrom none [] rfl

/-- **Dependency records round trip**: whatever records were appended, by
whatever processes and threads, splitting the file gives one line for each,
in order, from which the record and the path of its log come back; two
records name the same log only if their process and thread ids agree.  The
log directory has a name, or `init_dirs` could not have created it. -/
theorem dependencies_readBack (nv : Nvsl) {logLoc : Text} (hloc : logLoc ≠ []) (ls : List DepLine) :
    List.Forall₂ (ReadsBack nv logLoc)
        (nv.split ((writeDependencies nv ls).getD []) '\n' none) ls ∧
      ∀ l ∈ ls, ∀ l' ∈ ls, Same (initThreadBufPath nv logLoc l.pid l.tid)
        (initThreadBufPath nv logLoc l'.pid l'.tid) ↔ l.pid = l'.pid ∧ l.tid = l'.tid := by
  constructor
  · rw [getD_writeDependencies, split_depText, List.forall₂_map_left_iff]
    exact List.forall₂_same.mpr fun l _ => readsBack_text nv hloc l
  · intro l _ l' _
    rw [initThreadBufPath, initThreadBufPath, name_eq, name_eq,
      same_join_iff logLoc (slash_not_mem_logFileName l) (slash_not_mem_logFileName l'),
      logFileName_inj]

/-- The records of two threads, with the default log directory. -/
theorem dependencies_readBack_two :
    List.Forall₂ (ReadsBack .reference "/mnt/pmem0/cxlbuf_logs/".toList)
      (Nvsl.reference.split ((writeDependencies .reference
        [exampleLine 1 exampleTid_lt, exampleLine 2 (by decide)]).getD []) '\n' none)
      [exampleLine 1 exampleTid_lt, exampleLine 2 (by decide)] :=
  (dependencies_readBack .reference (by decide) _).1

end Cxlbuf
