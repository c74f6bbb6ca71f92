import Cxlbuf.Machine.Lower
import Cxlbuf.Recovery.Lines
import Cxlbuf.Recovery.Undo
import Cxlbuf.Snapshot.Commit
import Cxlbuf.Snapshot.Runs

/-!
# Cxlbuf.Crash

A power failure during tracked stores or the snapshot after them, followed
by the constructor of `PmemFile`.

`snapshot` sets `log_offset` to 0 before it sets the log `ACTIVE`, and both
words are in one cache line.  So whenever recovery finds the log `ACTIVE` it
finds no records in it, and never undoes anything (`reopen_eq`).  A backing
byte is then found as it was or as memory is (`backing_of_prefix`), each
byte on its own: with two bytes to copy the failure can fall between them
(`Setting.exists_torn`).
-/

namespace Cxlbuf

open ByteMem

/-! ## reopening the file -/

/-- What is needed to reopen a file: its path and mapping, the name of the
thread's log, and the lines of the dependency file. -/
structure Site where
  nv : Nvsl
  path : Text
  mp : Mapping
  logName : Text
  lines : List DepLine
  path_ne : path ≠ []

/-- The bytes of the mapped file in the backing file, by offset. -/
def fileOf (cfg : Config) (mp : Mapping) (m : PmImage) : Mem := fun off =>
  m.backing (image cfg (mp.addr + off))

/-- The files recovery finds: the thread's log, the dependency file and the
backing file. -/
def Site.files (site : Site) (cfg : Config) (m : PmImage) : PmemFs where
  logDir n := if n = site.logName then some (m.area 0) else none
  deps := some (depText site.lines)
  backing := fileOf cfg site.mp m

/-- The constructor of `PmemFile`, run on an image. -/
def Site.reopen (site : Site) (cfg : Config) (m : PmImage) : Option PmemFs :=
  construct site.nv site.path site.mp.len (site.files cfg m)

/-- Undoing a log without records changes nothing. -/
theorem undoLog_of_logOffset_zero {a : LogLayout} (h : a.logOffset = 0) (addr len : Nat)
    (mem : Mem) : undoLog a addr len mem = mem := by
  have hnone : logEntries a addr len = [] := by
    simp [logEntries, entryOffsets, recoverLoop, h, Tiling.walk]
  simp [undoLog, hnone]

theorem unmapAt_mapAt (addr len : Nat) (file : Mem) :
    unmapAt addr len file (mapAt addr file) = file := by
  funext off
  simp [unmapAt, mapAt]

/-- **Recovery is idle** when an `ACTIVE` log has no records. -/
theorem reopen_eq (site : Site) (cfg : Config) {m : PmImage}
    (h : (m.area 0).state = .active → (m.area 0).logOffset = 0) :
    site.reopen cfg m = some (site.files cfg m) := by
  rw [Site.reopen, Site.files, construct_depText site.nv site.path_ne]
  cases hfind : site.lines.find? fun l =>
      l.Outstanding fun n => if n = site.logName then some (m.area 0) else none with
  | none => rfl
  | some l =>
      have hout : l.Outstanding fun n => if n = site.logName then some (m.area 0) else none := by
        simpa using List.find?_some hfind
      by_cases hname : l.logName = site.logName
      · have hactive : (m.area 0).state = .active := by
          simpa [DepLine.Outstanding, hname] using hout
        simp only [Option.elim_some, undoLine, hname, if_true]
        rw [undoLog_of_logOffset_zero (h hactive), unmapAt_mapAt]
      · simp [DepLine.Outstanding, hname] at hout

/-! ## the log header along a run -/

section Header

variable {cfg : Config} {addr bytes : Nat} {q : Process} {l : Log}

/-- The accesses of a snapshot of one log, around the reset of
`log_offset`. -/
theorem snapshotOps_single (hlogs : q.logs = [l]) (hinst : q.storeInstEnabled = true)
    (hfirst : q.firstSnapshot = false) : snapshotOps cfg addr bytes q =
      l.flushAllOps 0 (q.pm.area 0) ++ .storeOffset 0 0 ::
        (Log.setStateOps 0 .active true ++ logCopies cfg addr bytes q.mem l ++ [PmOp.drain] ++
          .streamState 0 .empty :: postCommitOps 0) := by
  rw [snapshotOps, if_pos hinst, hlogs, hfirst, snapshotOpsFrom, snapshotOpsFrom, List.append_nil,
    iterOps_eq, preCommitOps, Log.activateOps]
  simp

theorem appends_flushAllOps {t : Nat} {a : LogLayout} {op : PmOp}
    (h : op ∈ l.flushAllOps t a) : op.Appends := by
  unfold Log.flushAllOps at h
  split at h
  · rw [List.mem_singleton] at h
    subst h
    trivial
  · simp at h

/-- Appending records does not change the state. -/
theorem headerFun_state_of_appends {op : PmOp} (h : op.Appends) (hdr : LogHeader) :
    (op.headerFun hdr).state = hdr.state := by
  cases op <;> first | rfl | exact absurd h id

/-- Once `log_offset` is 0, the snapshot keeps it so. -/
theorem headerFun_logOffset {op : PmOp}
    (hop : op ∈ Log.setStateOps 0 .active true ++ logCopies cfg addr bytes q.mem l ++
      [PmOp.drain] ++ .streamState 0 .empty :: postCommitOps 0) {hdr : LogHeader}
    (h : hdr.logOffset = 0) :
    (op.headerFun hdr).logOffset = 0 := by
  simp only [List.mem_append] at hop
  rcases hop with ((hstate | hcopy) | hdrain) | hpost
  · simp only [Log.setStateOps, if_true, List.mem_append, List.mem_cons, List.not_mem_nil,
      or_false] at hstate
    rcases hstate with (rfl | rfl) | rfl <;> exact h
  · obtain ⟨e, -, he⟩ := List.mem_flatMap.mp hcopy
    have hno := (copyOps_backing_only he).1
    cases op <;> first | exact h | exact absurd rfl (hno _)
  · rw [List.mem_singleton] at hdrain
    subst hdrain
    exact h
  · simp only [postCommitOps, Log.clearOps, List.mem_cons, List.not_mem_nil, or_false] at hpost
    rcases hpost with rfl | rfl | rfl | rfl <;> first | exact h | rfl

/-- An update of a header comes from one of the accesses. -/
theorem exists_headerFun {ops : List PmOp} {t : Nat} {f : LogHeader → LogHeader}
    (h : .update (.header t) f ∈ lowerAll ops) : ∃ op ∈ ops, f = op.headerFun := by
  obtain ⟨op, hop, hmem⟩ := List.mem_flatMap.mp h
  exact ⟨op, hop, eq_headerFun_of_mem_lower hmem⟩

/-- **An `ACTIVE` log has no records**: after every prefix of some stores
and a snapshot, a header that is `ACTIVE` has `log_offset` 0. -/
theorem logOffset_of_active {pm : PmImage} {ops : List PmOp} (happ : ∀ op ∈ ops, op.Appends)
    (hstate : (pm.area 0).state ≠ .active) (hlogs : q.logs = [l])
    (hfirst : q.firstSnapshot = false) {tr : List (Persist.Op Cell CellVal)}
    (htr : tr <+: lowerAll (ops ++ snapshotOps cfg addr bytes q)) :
    (Persist.exec pm.cells tr (.header 0)).state ≠ .active ∨
      (Persist.exec pm.cells tr (.header 0)).logOffset = 0 := by
  have hkeep {ops' : List PmOp} (happ' : ∀ op ∈ ops', op.Appends) (f : LogHeader → LogHeader)
      (hf : .update (.header 0) f ∈ lowerAll ops') (hdr : LogHeader) (hP : hdr.state ≠ .active) :
      (f hdr).state ≠ .active := by
    obtain ⟨op, hop, rfl⟩ := exists_headerFun hf
    rw [headerFun_state_of_appends (happ' op hop)]
    exact hP
  cases hinst : q.storeInstEnabled with
  | false =>
      have hnone : snapshotOps cfg addr bytes q = [] := by simp [snapshotOps, hinst]
      rw [hnone, List.append_nil] at htr
      refine .inl (Persist.exec_induction (V := CellVal) (i := .header 0)
        (P := fun h => h.state ≠ .active) hstate ?_)
      intro f hf
      exact hkeep happ f (htr.subset hf)
  | true =>
      rw [snapshotOps_single hlogs hinst hfirst, ← List.append_assoc, lowerAll_append,
        lowerAll_cons] at htr
      refine Persist.exec_two_phase (V := CellVal) (i := .header 0)
        (P := fun h => h.state ≠ .active) (Q := fun h => h.logOffset = 0) hstate ?_ ?_ ?_ htr
      · refine hkeep fun op hop => ?_
        cases List.mem_append.mp hop with
        | inl hold => exact happ op hold
        | inr hflush => exact appends_flushAllOps hflush
      · intro m _
        simp [Persist.Op.apply]
      · intro f hf hdr hQ
        obtain ⟨op, hop, rfl⟩ := exists_headerFun hf
        exact headerFun_logOffset hop hQ

end Header

/-! ## the backing file along a run -/

section Backing

variable {cfg : Config} {addr bytes : Nat} {q : Process} {l : Log}

/-- A snapshot accesses the backing file for its copies only. -/
theorem mem_logCopies_of_toBacking (hlogs : q.logs = [l]) (hfirst : q.firstSnapshot = false)
    {op : PmOp} (hop : op ∈ snapshotOps cfg addr bytes q) (h : op.ToBacking) :
    op ∈ logCopies cfg addr bytes q.mem l := by
  cases mem_snapshotOps_of_toBacking hlogs hop h with
  | inl hbulk => rw [hfirst] at hbulk; exact absurd hbulk.1 (by decide)
  | inr hcopy => exact hcopy

/-- **What a crash leaves in a backing byte**: what it held before the
stores, or what memory holds at the snapshot. -/
theorem backing_of_prefix (pm : PmImage) {ops : List PmOp} (happ : ∀ op ∈ ops, op.Appends)
    (hlogs : q.logs = [l]) (hfirst : q.firstSnapshot = false)
    (himg : ∀ e ∈ walked cfg l, HasImage cfg e)
    {tr : List (Persist.Op Cell CellVal)}
    (htr : tr <+: lowerAll (ops ++ snapshotOps cfg addr bytes q)) (y : Nat) :
    Persist.exec pm.cells tr (.byte .backing y) = pm.backing y ∨
      Persist.exec pm.cells tr (.byte .backing y) =
        q.mem (y + cfg.startAddr - cfg.backingFileStart) := by
  refine Persist.exec_induction (V := CellVal) (i := .byte .backing y)
    (P := fun b => b = pm.backing y ∨ b = q.mem (y + cfg.startAddr - cfg.backingFileStart))
    (.inl rfl) ?_
  intro f hf b _
  obtain ⟨op, hop, hmem⟩ := List.mem_flatMap.mp (htr.subset hf)
  obtain ⟨hw, hval⟩ := update_backing_of_mem_lower hmem
  cases List.mem_append.mp hop with
  | inl hold =>
      exact absurd hw
        (PmOp.not_writesBacking_of_not_toBacking (happ op hold).not_toBacking y)
  | inr hnew =>
      have hto : op.ToBacking := by
        by_contra hno
        exact PmOp.not_writesBacking_of_not_toBacking hno y hw
      have hcopy := copies_logCopies himg (mem_logCopies_of_toBacking hlogs hfirst hnew hto)
      refine .inr ?_
      rw [hval pm b, exec_of_copies hcopy, if_pos hw]

end Backing

/-! ## failure atomicity -/

/-- After a power failure during the trace, reopening the file leaves it
with one of the given contents. -/
def RecoversOneOf (site : Site) (cfg : Config) (files : List Mem) (pm : PmImage)
    (tr : List (Persist.Op Cell CellVal)) : Prop :=
  ∀ v, Persist.CrashImage pm.cells tr v → ∃ fs, site.reopen cfg (.ofCells v) = some fs ∧
    ∃ file ∈ files, ∀ off, off < site.mp.len → fs.backing off = file off

/-- Failure atomicity of stores `ss` and a snapshot after them: a failure
during the stores leaves the file as it was, a failure up to the end of the
snapshot leaves it as it was or as memory was at the call. -/
structure FailureAtomic (site : Site) (cfg : Config) (p : Process) (ss : List Process.Store)
    (addr bytes : Nat) : Prop where
  stores : ∀ tr, tr <+: lowerAll (p.accessesSince (p.stores cfg 0 ss)) →
    RecoversOneOf site cfg [fileOf cfg site.mp p.pm] p.pm tr
  snapshot : ∃ q, Cxlbuf.snapshot cfg addr bytes (p.stores cfg 0 ss) = some q ∧
    ∀ tr, tr <+: lowerAll (p.accessesSince q) →
      RecoversOneOf site cfg
        [fileOf cfg site.mp p.pm, fun off => (p.stores cfg 0 ss).mem (site.mp.addr + off)]
        p.pm tr

section Atomic

variable {site : Site} {cfg : Config} {p : Process} {l : Log} {ss : List Process.Store}
  {addr bytes : Nat}

/-- Reopening a crash image gives the image's own file. -/
theorem reopen_crashImage {q : Process} {l' : Log} {ops : List PmOp}
    (happ : ∀ op ∈ ops, op.Appends) (hstate : (p.pm.area 0).state ≠ .active)
    (hlogs : q.logs = [l']) (hfirst : q.firstSnapshot = false)
    {tr : List (Persist.Op Cell CellVal)}
    (htr : tr <+: lowerAll (ops ++ snapshotOps cfg addr bytes q)) {v : (c : Cell) → CellVal c}
    (hv : Persist.CrashImage p.pm.cells tr v) :
    site.reopen cfg (.ofCells v) = some (site.files cfg (.ofCells v)) := by
  refine reopen_eq site cfg fun hactive => ?_
  obtain ⟨tr', htr', heq⟩ := hv.exists_prefix (.header 0)
  have hor := logOffset_of_active happ hstate hlogs hfirst (htr'.trans htr)
  rw [← heq] at hor
  cases hor with
  | inl hne => exact absurd hactive hne
  | inr hzero => exact hzero

/-- A failure during the stores leaves every backing byte as it was. -/
theorem backing_of_appends {pm : PmImage} {ops : List PmOp} (happ : ∀ op ∈ ops, op.Appends)
    {tr : List (Persist.Op Cell CellVal)} (htr : tr <+: lowerAll ops) (y : Nat) :
    Persist.exec pm.cells tr (.byte .backing y) = pm.backing y := by
  refine Persist.exec_induction (V := CellVal) (i := .byte .backing y)
    (P := fun b => b = pm.backing y) rfl ?_
  intro f hf
  obtain ⟨op, hop, hmem⟩ := List.mem_flatMap.mp (htr.subset hf)
  have hw := (update_backing_of_mem_lower hmem).1
  exact absurd hw (PmOp.not_writesBacking_of_not_toBacking (happ op hop).not_toBacking y)

end Atomic

/-- One thread of the default build stores to the tracked region.  It starts
with an empty log that is not `ACTIVE`, past its first snapshot, and with
memory equal to the backing file; the file is mapped inside the tracked
region. -/
structure Setting (site : Site) (cfg : Config) (p : Process) (l : Log)
    (ss : List Process.Store) : Prop where
  volatile : cfg.logFormat = .volatile
  cxl : cfg.cxlModeEnabled = true
  fresh : Fresh cfg p l
  state : (p.pm.area 0).state ≠ .active
  tracked : ∀ s ∈ ss, cfg.Tracks s.addr s.data.length
  mapped : cfg.Tracks site.mp.addr site.mp.len

section Iff

variable {site : Site} {cfg : Config} {p : Process} {l : Log} {ss : List Process.Store}

/-- The process once the stores are made, and the accesses up to there and
up to the end of the snapshot. -/
theorem Setting.accesses (h : Setting site cfg p l ss) (addr bytes : Nat) :
    RunInv cfg (p.stores cfg 0 ss) ∧ ∃ ops, (∀ op ∈ ops, op.Appends) ∧
      p.accessesSince (p.stores cfg 0 ss) = ops ∧ (p.stores cfg 0 ss).pm = execOps p.pm ops ∧
      ∃ q, snapshot cfg addr bytes (p.stores cfg 0 ss) = some q ∧
        p.accessesSince q = ops ++ snapshotOps cfg addr bytes (p.stores cfg 0 ss) := by
  obtain ⟨ops, htrace, hpm, happ⟩ := Process.stores_accesses cfg 0 p ss
  refine ⟨(RunInv.of_fresh h.fresh).stores h.volatile h.cxl h.tracked, ops, happ,
    Process.accessesSince_of_trace htrace, hpm, _, snapshot_eq cfg addr bytes _, ?_⟩
  apply Process.accessesSince_of_trace
  simp [htrace]

/-- An offset of the file is a tracked address. -/
theorem Setting.tracks_offset (h : Setting site cfg p l ss) {off : Nat}
    (hoff : off < site.mp.len) : cfg.Tracks (site.mp.addr + off) 1 := by
  have hmapped := h.mapped
  unfold Config.Tracks at *
  omega

/-- On the file, the backing file is what memory was before the stores. -/
theorem Setting.fileOf_eq (h : Setting site cfg p l ss) {off : Nat} (hoff : off < site.mp.len) :
    fileOf cfg site.mp p.pm off = p.mem (site.mp.addr + off) := by
  by_contra hne
  exact h.fresh.synced _ ⟨h.tracks_offset hoff, fun heq => hne heq.symm⟩

/-- The stores change the byte of the file at an offset. -/
def FileChanged (site : Site) (cfg : Config) (p : Process) (ss : List Process.Store)
    (off : Nat) : Prop :=
  off < site.mp.len ∧ (p.stores cfg 0 ss).mem (site.mp.addr + off) ≠ p.mem (site.mp.addr + off)

/-- Reopening an image of a failure during the stores or the snapshot gives
the image's own file. -/
theorem Setting.reopen_eq (h : Setting site cfg p l ss) {addr bytes : Nat} {q : Process}
    (hq : snapshot cfg addr bytes (p.stores cfg 0 ss) = some q)
    {tr : List (Persist.Op Cell CellVal)} (htr : tr <+: lowerAll (p.accessesSince q))
    {v : (c : Cell) → CellVal c} (hv : Persist.CrashImage p.pm.cells tr v) :
    site.reopen cfg (.ofCells v) = some (site.files cfg (.ofCells v)) := by
  obtain ⟨hinv, ops, happ, -, -, q', hq', hacc⟩ := h.accesses addr bytes
  obtain ⟨l', hlogs, -⟩ := hinv.log
  have hqq : q' = q := Option.some.inj (hq'.symm.trans hq)
  rw [← hqq, hacc] at htr
  exact reopen_crashImage happ h.state hlogs hinv.first htr hv

/-- In such an image every byte of the file is as it was before the stores
or as memory is after them. -/
theorem Setting.byte_old_or_new (h : Setting site cfg p l ss) {addr bytes : Nat} {q : Process}
    (hq : snapshot cfg addr bytes (p.stores cfg 0 ss) = some q)
    {tr : List (Persist.Op Cell CellVal)} (htr : tr <+: lowerAll (p.accessesSince q))
    {v : (c : Cell) → CellVal c} (hv : Persist.CrashImage p.pm.cells tr v) {off : Nat}
    (hoff : off < site.mp.len) :
    fileOf cfg site.mp (.ofCells v) off = p.mem (site.mp.addr + off) ∨
      fileOf cfg site.mp (.ofCells v) off = (p.stores cfg 0 ss).mem (site.mp.addr + off) := by
  obtain ⟨hinv, ops, happ, -, -, q', hq', hacc⟩ := h.accesses addr bytes
  obtain ⟨l', hlogs, htracked, -, -⟩ := hinv.log
  have hqq : q' = q := Option.some.inj (hq'.symm.trans hq)
  rw [← hqq, hacc] at htr
  obtain ⟨tr', htr', heq⟩ := hv.exists_prefix (.byte .backing (image cfg (site.mp.addr + off)))
  have hor := backing_of_prefix p.pm happ hlogs hinv.first
    (hasImage_of_mem_walked h.volatile htracked) (htr'.trans htr) (image cfg (site.mp.addr + off))
  rw [← heq, image_add_sub (h.tracks_offset hoff)] at hor
  cases hor with
  | inl hold => exact .inl (hold.trans (h.fileOf_eq hoff))
  | inr hnew => exact .inr hnew

/-- A failure during the stores recovers the file as it was. -/
theorem Setting.recovers_stores (h : Setting site cfg p l ss)
    {tr : List (Persist.Op Cell CellVal)}
    (htr : tr <+: lowerAll (p.accessesSince (p.stores cfg 0 ss))) :
    RecoversOneOf site cfg [fileOf cfg site.mp p.pm] p.pm tr := by
  obtain ⟨-, ops, happ, hacc, -, q, hq, hacc'⟩ := h.accesses 0 0
  rw [hacc] at htr
  intro v hv
  have hall : lowerAll ops <+: lowerAll (p.accessesSince q) := by
    rw [hacc']
    exact lowerAll_prefix (List.prefix_append _ _)
  refine ⟨_, h.reopen_eq hq (htr.trans hall) hv, _, List.mem_cons_self, fun off _ => ?_⟩
  obtain ⟨tr', htr', heq⟩ := hv.exists_prefix (.byte .backing (image cfg (site.mp.addr + off)))
  exact heq.trans (backing_of_appends happ (htr'.trans htr) _)

/-- **With at most one changed byte** the snapshot is failure atomic. -/
theorem Setting.failureAtomic (h : Setting site cfg p l ss) (addr bytes : Nat)
    (huniq : ∀ i j, FileChanged site cfg p ss i → FileChanged site cfg p ss j → i = j) :
    FailureAtomic site cfg p ss addr bytes := by
  obtain ⟨-, -, -, -, -, q, hq, -⟩ := h.accesses addr bytes
  refine ⟨fun tr htr => h.recovers_stores htr, q, hq, ?_⟩
  intro tr htr v hv
  refine ⟨_, h.reopen_eq hq htr hv, ?_⟩
  by_cases hold : ∀ off, off < site.mp.len →
      fileOf cfg site.mp (.ofCells v) off = p.mem (site.mp.addr + off)
  · refine ⟨_, List.mem_cons_self, fun off hoff => ?_⟩
    exact (hold off hoff).trans (h.fileOf_eq hoff).symm
  · -- some byte is new already, and it is the only one that changes
    simp only [not_forall] at hold
    obtain ⟨off₀, hoff₀, hne₀⟩ := hold
    have hnew₀ := (h.byte_old_or_new hq htr hv hoff₀).resolve_left hne₀
    have hchanged₀ : FileChanged site cfg p ss off₀ := by
      refine ⟨hoff₀, ?_⟩
      rw [← hnew₀]
      exact hne₀
    refine ⟨_, List.mem_cons_of_mem _ List.mem_cons_self, fun off hoff => ?_⟩
    cases h.byte_old_or_new hq htr hv hoff with
    | inr hnew => exact hnew
    | inl hsame =>
        by_cases hchanged : (p.stores cfg 0 ss).mem (site.mp.addr + off) =
            p.mem (site.mp.addr + off)
        · exact hsame.trans hchanged.symm
        · rw [huniq off off₀ ⟨hoff, hchanged⟩ hchanged₀] at hsame
          exact absurd hsame hne₀

/-- A snapshot of the whole tracked region takes every tracked entry. -/
theorem inRange_of_covering {addr bytes : Nat} {e : LogEntryLean}
    (hcover : addr ≤ cfg.startAddr ∧ cfg.endAddr ≤ addr + bytes ∧ addr + bytes < 2 ^ 64)
    (htr : cfg.Tracks e.addr 0) : InRange addr bytes e := by
  unfold Config.Tracks at htr
  unfold InRange wsub wadd
  omega

/-- A changed byte is logged, so a snapshot of the whole region copies it. -/
theorem Setting.copied_of_changed (h : Setting site cfg p l ss) {addr bytes : Nat}
    (hcover : addr ≤ cfg.startAddr ∧ cfg.endAddr ≤ addr + bytes ∧ addr + bytes < 2 ^ 64)
    {l' : Log} (hlogs : (p.stores cfg 0 ss).logs = [l']) {x : Nat} (hx : cfg.Tracks x 1)
    (hchanged : (p.stores cfg 0 ss).mem x ≠ p.mem x) :
    (p.stores cfg 0 ss).storeInstEnabled = true ∧
      ∃ op ∈ logCopies cfg addr bytes (p.stores cfg 0 ss).mem l',
        op.WritesBacking (image cfg x) := by
  obtain ⟨hinv, -⟩ := h.accesses addr bytes
  obtain ⟨l₁, hlogs₁, htracked, hinst, hdirty⟩ := hinv.log
  have hl : l' = l₁ := by simpa [hlogs] using hlogs₁
  subst hl
  have hwalk := hasImage_of_mem_walked h.volatile htracked
  have hback : p.pm.backing (image cfg x) = p.mem x := by
    by_contra hne
    exact h.fresh.synced x ⟨hx, fun heq => hne heq.symm⟩
  have hdx : Dirty cfg (p.stores cfg 0 ss) x := by
    refine ⟨hx, ?_⟩
    rw [Process.stores_backing, hback]
    exact hchanged
  obtain ⟨e, he, hcov⟩ := (hdirty x hdx).resolve_left (Set.notMem_empty x)
  refine ⟨?_, (writesBacking_logCopies hwalk).mpr ⟨e, (mem_walked h.volatile l').mpr he,
    inRange_of_covering hcover (htracked e he),
    inWindow_image (.of_tracks (htracked e he)) (htracked e he).1 hcov⟩⟩
  by_contra hoff
  rw [hinst (by simpa using hoff)] at he
  cases he

/-- The copies of a log do not drain. -/
theorem drain_not_mem_logCopies (cfg : Config) (addr bytes : Nat) (mem : Mem) (l : Log) :
    .drain ∉ lowerAll (logCopies cfg addr bytes mem l) := by
  intro hmem
  obtain ⟨op, hop, hmem⟩ := List.mem_flatMap.mp hmem
  obtain ⟨e, -, he⟩ := List.mem_flatMap.mp hop
  exact drain_not_mem_lower (copyOps_backing_only he).2 hmem

/-- A failure right before the drain may find one changed byte written back
and another one not. -/
theorem Setting.exists_torn (h : Setting site cfg p l ss) {addr bytes : Nat}
    (hcover : addr ≤ cfg.startAddr ∧ cfg.endAddr ≤ addr + bytes ∧ addr + bytes < 2 ^ 64)
    {x y : Nat} (hx : cfg.Tracks x 1) (hy : cfg.Tracks y 1)
    (hchanged : (p.stores cfg 0 ss).mem x ≠ p.mem x) (hne : x ≠ y) :
    ∃ q, snapshot cfg addr bytes (p.stores cfg 0 ss) = some q ∧ ∃ tr v,
      tr <+: lowerAll (p.accessesSince q) ∧ Persist.CrashImage p.pm.cells tr v ∧
      v (.byte .backing (image cfg x)) = (p.stores cfg 0 ss).mem x ∧
      v (.byte .backing (image cfg y)) = p.pm.backing (image cfg y) := by
  obtain ⟨hinv, ops, happ, -, hpm, q, hq, hacc⟩ := h.accesses addr bytes
  obtain ⟨l', hlogs, htracked, -, -⟩ := hinv.log
  obtain ⟨hinst, hcopied⟩ := h.copied_of_changed hcover hlogs hx hchanged
  have hwalk := hasImage_of_mem_walked h.volatile htracked
  let armed := ops ++ l'.activateOps 0 ((p.stores cfg 0 ss).pm.area 0)
  let copies := logCopies cfg addr bytes (p.stores cfg 0 ss).mem l'
  have hpre : armed ++ copies <+: p.accessesSince q := by
    rw [hacc, snapshotOps, if_pos hinst, hlogs, hinv.first, snapshotOpsFrom, iterOps_eq,
      preCommitOps]
    exact ⟨_, by simp [armed, copies]; rfl⟩
  have hlower : lowerAll armed ++ lowerAll copies <+: lowerAll (p.accessesSince q) :=
    lowerAll_append armed copies ▸ lowerAll_prefix hpre
  have harmed : ∀ op ∈ armed, ¬ op.ToBacking := by
    intro op hop
    cases List.mem_append.mp hop with
    | inl hold => exact (happ op hold).not_toBacking
    | inr hact => exact not_toBacking_activateOps hact
  have hflush : ∀ o ∈ lowerAll armed, ¬ o.Flushes (.byte .backing (image cfg y)) := by
    intro o ho
    obtain ⟨op, hop, hmem⟩ := List.mem_flatMap.mp ho
    exact not_flushes_backing (harmed op hop) hmem _
  have hdrain := drain_not_mem_logCopies cfg addr bytes (p.stores cfg 0 ss).mem l'
  have hexec : Persist.exec p.pm.cells (lowerAll armed ++ lowerAll copies) =
      (execOps (execOps p.pm armed) copies).cells := by
    rw [← lowerAll_append armed copies, exec_lowerAll, execOps_append]
  have himage : image cfg x ≠ image cfg y := by
    have hsx := hx.1
    have hsy := hy.1
    unfold image
    omega
  refine ⟨q, hq, _, _, hlower, Persist.crashImage_torn p.pm.cells hflush hdrain, ?_, ?_⟩
  · rw [Function.update_of_ne (by simpa using himage), hexec]
    change (execOps (execOps p.pm armed) copies).backing (image cfg x) = _
    rw [execOps_of_copies (fun op hop => copies_logCopies hwalk hop), if_pos hcopied,
      image_add_sub hx]
  · rw [Function.update_self]
    rfl

/-- **With two changed bytes** the snapshot is not failure atomic. -/
theorem Setting.not_failureAtomic (h : Setting site cfg p l ss) {addr bytes : Nat}
    (hcover : addr ≤ cfg.startAddr ∧ cfg.endAddr ≤ addr + bytes ∧ addr + bytes < 2 ^ 64)
    {i j : Nat} (hi : FileChanged site cfg p ss i) (hj : FileChanged site cfg p ss j)
    (hne : i ≠ j) : ¬ FailureAtomic site cfg p ss addr bytes := by
  intro hatomic
  have hxy : site.mp.addr + i ≠ site.mp.addr + j := by omega
  obtain ⟨q, hq, tr, v, htr, hv, hvi, hvj⟩ :=
    h.exists_torn hcover (h.tracks_offset hi.1) (h.tracks_offset hj.1) hi.2 hxy
  obtain ⟨q', hq', hrec⟩ := hatomic.snapshot
  have hqq : q' = q := Option.some.inj (hq'.symm.trans hq)
  subst hqq
  obtain ⟨fs, hfs, file, hfile, heq⟩ := hrec tr htr v hv
  have hbacking : fs.backing = fileOf cfg site.mp (.ofCells v) := by
    rw [h.reopen_eq hq htr hv, Option.some.injEq] at hfs
    rw [← hfs]
    rfl
  have hfi : fs.backing i = (p.stores cfg 0 ss).mem (site.mp.addr + i) := by
    rw [hbacking]
    exact hvi
  have hfj : fs.backing j = p.mem (site.mp.addr + j) := by
    rw [hbacking, ← h.fileOf_eq hj.1]
    exact hvj
  simp only [List.mem_cons, List.not_mem_nil, or_false] at hfile
  cases hfile with
  | inl hold =>
      have hati := heq i hi.1
      rw [hfi, hold, h.fileOf_eq hi.1] at hati
      exact hi.2 hati
  | inr hnew =>
      have hatj := heq j hj.1
      rw [hfj, hnew] at hatj
      exact hj.2 hatj.symm

/-- **When a snapshot is failure atomic**: for every sequence of tracked
stores and a snapshot of the whole tracked region, exactly when the stores
change at most one byte of the file. -/
theorem failureAtomic_iff (h : Setting site cfg p l ss) {addr bytes : Nat}
    (hcover : addr ≤ cfg.startAddr ∧ cfg.endAddr ≤ addr + bytes ∧ addr + bytes < 2 ^ 64) :
    FailureAtomic site cfg p ss addr bytes ↔
      ∀ i j, FileChanged site cfg p ss i → FileChanged site cfg p ss j → i = j := by
  constructor
  · intro hatomic i j hi hj
    by_contra hne
    exact h.not_failureAtomic hcover hi hj hne hatomic
  · exact h.failureAtomic addr bytes

end Iff

/-- A file of one page, mapped at the start of the tracked region by thread
1 of process 100. -/
def pageSite : Site where
  nv := .reference
  path := ['f']
  mp := ⟨0x10000000000, 0x1000, by decide⟩
  logName := (exampleLine 1 (by decide)).logName
  lines := [exampleLine 1 (by decide)]
  path_ne := by decide

theorem pageSite_setting {ss : List Process.Store}
    (h : ∀ s ∈ ss, Config.default.Tracks s.addr s.data.length) :
    Setting pageSite .default (.single (fun _ => 0) fun _ => 0) (Log.fresh 1) ss :=
  ⟨rfl, rfl, fresh_single, by decide, h, by decide⟩

/-- One stored byte. -/
theorem failureAtomic_one_byte :
    FailureAtomic pageSite .default (.single (fun _ => 0) fun _ => 0)
      [⟨0x10000000000, [1]⟩] 0x10000000000 0x10000000000 := by
  refine (failureAtomic_iff (pageSite_setting (by decide)) (by decide)).mpr ?_
  have hzero (i : Nat) (hi : FileChanged pageSite .default (.single (fun _ => 0) fun _ => 0)
      [⟨0x10000000000, [1]⟩] i) : i = 0 := by
    by_contra hne
    refine hi.2 ?_
    rw [Process.stores_mem]
    exact write_of_not_mem (by simp [pageSite]; omega)
  intro i j hi hj
  rw [hzero i hi, hzero j hj]

/-- Two stored bytes, on different lines. -/
theorem not_failureAtomic_two_bytes :
    ¬ FailureAtomic pageSite .default (.single (fun _ => 0) fun _ => 0)
      [⟨0x10000000000, [1]⟩, ⟨0x10000000040, [1]⟩] 0x10000000000 0x10000000000 := by
  have hi : FileChanged pageSite .default (.single (fun _ => 0) fun _ => 0)
      [⟨0x10000000000, [1]⟩, ⟨0x10000000040, [1]⟩] 0 := ⟨by decide, by decide⟩
  have hj : FileChanged pageSite .default (.single (fun _ => 0) fun _ => 0)
      [⟨0x10000000000, [1]⟩, ⟨0x10000000040, [1]⟩] 64 := ⟨by decide, by decide⟩
  exact (pageSite_setting (by decide)).not_failureAtomic (by decide) hi hj (by decide)

end Cxlbuf
