import Cxlbuf.Lib.Run
import Cxlbuf.Recovery.Lines
import Cxlbuf.Recovery.Undo

/-!
# Cxlbuf.Recovery.Files

One log may hold records of several files.  Each file is recovered when it
is opened, on its own: `recover` picks the records that start inside the
file's mapping and replays only these.  As long as no record straddles two
files, this is the replay of the whole log, seen through the mapping
(`undoLog_eq_replay`), and it leaves the rest of the address space alone
(`undoLog_frame`); so the order in which the files are opened does not
matter.
-/

namespace Cxlbuf

open ByteMem

/-! ## replaying a whole log -/

/-- All records of a log, applied in reverse order. -/
def replay (a : LogLayout) (mem : Mem) : Mem := (entryOffsets a).reverse.foldl (applyEntry a) mem

theorem replay_eq_rollback (a : LogLayout) (mem : Mem) :
    replay a mem = UndoLog.rollback ((savedRanges a).map SavedRange.record) mem := by
  have happly : applyEntry a = fun m off => (savedAt a off).record.restore m := by
    funext m off
    exact applyEntry_eq_restore a m off
  rw [replay, happly, List.foldl_reverse, UndoLog.rollback, savedRanges, List.map_map,
    List.foldr_map]
  rfl

/-! ## files that share a log -/

/-- Files whose mappings do not meet.  Each has a line in its dependency
file that names the one log and the address of the mapping. -/
structure FileSet (ι : Type) where
  mp : ι → Mapping
  line : ι → DepLine
  logName : Text
  disjoint : ∀ i j x, (mp i).Contains x 1 → (mp j).Contains x 1 → i = j
  line_addr : ∀ i, (line i).addr = (mp i).addr
  line_log : ∀ i, (line i).logName = logName

namespace FileSet

variable {ι : Type} (fs : FileSet ι)

/-- The log is a sequence of records up to `log_offset`, each inside one of
the files. -/
def WellFormed (a : LogLayout) : Prop :=
  ∃ rs, Encodes a.content 0 rs a.logOffset ∧
    ∀ r ∈ rs, ∃ i, (fs.mp i).Contains r.addr r.old.length

/-- The backing files, each at its address in one address space. -/
def Combined (mem : Mem) (files : ι → Mem) : Prop :=
  ∀ i off, off < (fs.mp i).len → mem ((fs.mp i).addr + off) = files i off

/-- Reopen file `i`: run `recover` on it with the shared log. -/
def reopen [DecidableEq ι] (nv : Nvsl) (logDir : Text → Option LogLayout) (files : ι → Mem)
    (i : ι) : Option (ι → Mem) :=
  (recover nv logDir (fs.mp i).len [(fs.line i).text] (files i)).map (Function.update files i)

variable {fs} {a : LogLayout}

/-- A record that covers a byte of a file starts inside it. -/
theorem WellFormed.starts_inside (h : fs.WellFormed a) {i : ι} {x : Nat}
    (hx : (fs.mp i).Contains x 1) {r : SavedRange} (hr : r ∈ savedRanges a)
    (hcov : r.addr ≤ x ∧ x < r.addr + r.old.length) :
    (fs.mp i).addr ≤ r.addr ∧ r.addr < (fs.mp i).addr + (fs.mp i).len := by
  obtain ⟨rs, henc, hin⟩ := h
  rw [savedRanges_of_encodes henc] at hr
  obtain ⟨j, hj⟩ := hin r hr
  have hxj : (fs.mp j).Contains x 1 := by
    unfold Mapping.Contains at hj ⊢
    omega
  obtain rfl := fs.disjoint i j x hx hxj
  unfold Mapping.Contains at hj
  omega

/-- A record that starts inside a file stays inside it. -/
theorem WellFormed.stays_inside (h : fs.WellFormed a) {i : ι} {x : Nat} {r : SavedRange}
    (hr : r ∈ savedRanges a)
    (hstart : (fs.mp i).addr ≤ r.addr ∧ r.addr < (fs.mp i).addr + (fs.mp i).len)
    (hcov : r.addr ≤ x ∧ x < r.addr + r.old.length) : (fs.mp i).Contains x 1 := by
  obtain ⟨rs, henc, hin⟩ := h
  rw [savedRanges_of_encodes henc] at hr
  obtain ⟨j, hj⟩ := hin r hr
  unfold Mapping.Contains at hj
  have hi : (fs.mp i).Contains r.addr 1 := ⟨hstart.1, hstart.2⟩
  have hj' : (fs.mp j).Contains r.addr 1 := ⟨hj.1, by omega⟩
  obtain rfl := fs.disjoint i j r.addr hi hj'
  exact ⟨by omega, by omega⟩

/-- **Recovering one file changes no byte outside its mapping.** -/
theorem undoLog_frame (h : fs.WellFormed a) (i : ι) (mem : Mem) {x : Nat}
    (hx : ¬ (fs.mp i).Contains x 1) : undoLog a (fs.mp i).addr (fs.mp i).len mem x = mem x := by
  rw [undoLog_eq_rollback]
  apply UndoLog.rollback_of_notMem
  rintro ⟨_, hmem, hdom⟩
  obtain ⟨r, hr, rfl⟩ := List.mem_map.mp hmem
  obtain ⟨hr, hstart⟩ := List.mem_filter.mp hr
  exact hx (h.stays_inside hr (by simpa using hstart) hdom)

/-- **Recovering one file replays the whole log**, as far as the file is
concerned. -/
theorem undoLog_eq_replay (h : fs.WellFormed a) (i : ι) (mem : Mem) {x : Nat}
    (hx : (fs.mp i).Contains x 1) :
    undoLog a (fs.mp i).addr (fs.mp i).len mem x = replay a mem x := by
  rw [undoLog_eq_rollback, replay_eq_rollback]
  apply UndoLog.rollback_map_filter_apply
  intro r hr hout hdom
  have hstart := h.starts_inside hx hr hdom
  simp [hstart] at hout

variable [DecidableEq ι]

/-- What reopening a file does: its bytes are those of the replay. -/
theorem reopen_eq (h : fs.WellFormed a) (nv : Nvsl) {logDir : Text → Option LogLayout}
    (hlog : logDir fs.logName = some a) (files : ι → Mem) (i : ι) :
    ∃ file, fs.reopen nv logDir files i = some (Function.update files i file) ∧
      ∀ mem off, off < (fs.mp i).len → mem ((fs.mp i).addr + off) = files i off →
        file off = replay a mem ((fs.mp i).addr + off) := by
  rw [← fs.line_log i] at hlog
  refine ⟨_, by rw [reopen, recover_text nv logDir _ _ _ hlog]; rfl, ?_⟩
  intro mem off hoff hmem
  have hin : (fs.mp i).Contains ((fs.mp i).addr + off) 1 := by
    unfold Mapping.Contains
    omega
  have hsame : mapAt (fs.mp i).addr (files i) ((fs.mp i).addr + off) =
      mem ((fs.mp i).addr + off) := by
    rw [hmem, mapAt, Nat.add_sub_cancel_left]
  rw [unmapAt, if_pos hoff, fs.line_addr, undoLog_eq_replay h i _ hin, replay_eq_rollback,
    replay_eq_rollback, UndoLog.rollback_congr_apply hsame]

/-- Files that hold the combined address space or the replay of it, reopened
one after the other. -/
theorem run_reopen (h : fs.WellFormed a) (nv : Nvsl) {logDir : Text → Option LogLayout}
    (hlog : logDir fs.logName = some a) {mem : Mem} (order : List ι) {files : ι → Mem}
    (hfiles : ∀ i off, off < (fs.mp i).len → files i off = mem ((fs.mp i).addr + off) ∨
      files i off = replay a mem ((fs.mp i).addr + off)) :
    ∃ files', Run.run (fs.reopen nv logDir) files order = some files' ∧
      (∀ i ∈ order, ∀ off, off < (fs.mp i).len →
        files' i off = replay a mem ((fs.mp i).addr + off)) ∧
      ∀ i, i ∉ order → files' i = files i := by
  have hidem (x : Nat) : replay a (replay a mem) x = replay a mem x := by
    simp only [replay_eq_rollback, UndoLog.rollback_idem]
  induction order generalizing files with
  | nil => exact ⟨files, rfl, by simp, fun _ _ => rfl⟩
  | cons i order ih =>
      obtain ⟨file, hreopen, hfile⟩ := reopen_eq h nv hlog files i
      -- the file is undone, whether this is the first time or not
      have hdone (off : Nat) (hoff : off < (fs.mp i).len) :
          file off = replay a mem ((fs.mp i).addr + off) := by
        cases hfiles i off hoff with
        | inl hold => exact hfile mem off hoff hold.symm
        | inr hnew => rw [hfile (replay a mem) off hoff hnew.symm, hidem]
      have hnext (j : ι) (off : Nat) (hoff : off < (fs.mp j).len) :
          Function.update files i file j off = mem ((fs.mp j).addr + off) ∨
            Function.update files i file j off = replay a mem ((fs.mp j).addr + off) := by
        by_cases hj : j = i
        · subst hj
          simp only [Function.update_self]
          exact .inr (hdone off hoff)
        · simp only [Function.update_of_ne hj]
          exact hfiles j off hoff
      obtain ⟨files', hrun, hin, hout⟩ := ih hnext
      refine ⟨files', by rw [Run.run_cons, hreopen]; exact hrun, ?_, ?_⟩
      · intro j hj off hoff
        by_cases hmem : j ∈ order
        · exact hin j hmem off hoff
        · obtain rfl : j = i := by simpa [hmem] using hj
          rw [hout j hmem, Function.update_self, hdone off hoff]
      · intro j hj
        rw [List.mem_cons, not_or] at hj
        rw [hout j hj.2, Function.update_of_ne hj.1]

end FileSet

/-- **Per-file recovery does not depend on the order of reopening**: it
changes no byte outside the file's mapping, and whatever files are opened,
in whatever order, those that were hold what a replay of the whole log over
the combined address space gives, and the others are as before. -/
theorem recover_any_order {ι : Type} [DecidableEq ι] (fs : FileSet ι) {a : LogLayout}
    (h : fs.WellFormed a) (nv : Nvsl) {logDir : Text → Option LogLayout}
    (hlog : logDir fs.logName = some a) {mem : Mem} {files : ι → Mem}
    (hmem : fs.Combined mem files) (order : List ι) :
    (∀ i x, ¬ (fs.mp i).Contains x 1 → undoLog a (fs.mp i).addr (fs.mp i).len mem x = mem x) ∧
    ∃ files', Run.run (fs.reopen nv logDir) files order = some files' ∧
      (∀ i ∈ order, ∀ off, off < (fs.mp i).len →
        files' i off = replay a mem ((fs.mp i).addr + off)) ∧
      ∀ i, i ∉ order → files' i = files i :=
  ⟨fun i _ hx => FileSet.undoLog_frame h i mem hx,
    FileSet.run_reopen h nv hlog order fun i off hoff => .inl (hmem i off hoff).symm⟩

/-- Two files of one page each, next to each other. -/
def twoFiles : FileSet Bool where
  mp second := ⟨2 ^ 40 + second.toNat * 4096, 4096, by cases second <;> decide⟩
  line second :=
    { exampleLine 1 exampleTid_lt with
      addr := 2 ^ 40 + second.toNat * 4096
      addr_lt := by cases second <;> decide }
  logName := ['1', '0', '0', '.', '1']
  disjoint i j x hi hj := by
    unfold Mapping.Contains at hi hj
    cases i <;> cases j <;> simp at hi hj ⊢ <;> omega
  line_addr _ := rfl
  line_log second := by cases second <;> decide

/-- A log with a record of each. -/
def twoFilesLog : LogLayout :=
  Log.appendRecord (Log.appendRecord Log.freshArea (fun _ => 7) (2 ^ 40) 2) (fun _ => 8)
    (2 ^ 40 + 4096) 2

/-- A log directory that holds it. -/
def twoFilesDir : Text → Option LogLayout := fun _ => some twoFilesLog

theorem wellFormed_twoFilesLog : twoFiles.WellFormed twoFilesLog := by
  have hempty : Encodes Log.freshArea.content 0 [] Log.freshArea.logOffset := rfl
  have hone := encodes_appendRecord _ (fun _ => 7) (2 ^ 40) 2 hempty rfl (by decide) (by decide)
  refine ⟨_, encodes_appendRecord _ (fun _ => 8) (2 ^ 40 + 4096) 2 hone rfl (by decide)
    (by decide), ?_⟩
  intro r hr
  simp only [List.nil_append, List.cons_append, List.mem_cons, List.not_mem_nil, or_false] at hr
  cases hr with
  | inl hfirst => exact ⟨false, by subst hfirst; decide⟩
  | inr hsecond => exact ⟨true, by subst hsecond; decide⟩

/-- Both files are undone when the second one is opened first. -/
theorem recover_second_first :
    ∃ files', Run.run (twoFiles.reopen .reference twoFilesDir) (fun _ _ => 0) [true, false] =
        some files' ∧
      ∀ i off, off < 4096 →
        files' i off = replay twoFilesLog (fun _ => 0) ((twoFiles.mp i).addr + off) := by
  have hmem : twoFiles.Combined (fun _ => 0) fun _ _ => 0 := fun _ _ _ => rfl
  have hlog : twoFilesDir twoFiles.logName = some twoFilesLog := rfl
  obtain ⟨-, files', hrun, hin, -⟩ :=
    recover_any_order twoFiles wellFormed_twoFilesLog .reference hlog hmem [true, false]
  exact ⟨files', hrun, fun i off hoff => hin i (by cases i <;> simp) off hoff⟩

end Cxlbuf
