import Cxlbuf.Machine.Lower
import Cxlbuf.Sessions
import Mathlib.Logic.Relation

/-!
# Cxlbuf.Recovery.Restart

A power failure while `PmemFile::recover` undoes a log.  The loop of
`recover` writes, flushes and drains one record after the other and leaves
the log as it is, `ACTIVE` and with all its records (`undoOps`).

So a failure at any point changes bytes of the backing file that the log has
records for, and nothing else (`Undoing.backing_eq`).  The next constructor
finds the same log, and what it gives these bytes does not depend on what
they hold: the constructor may be interrupted any number of times.  Once it
is through, each record was drained, and what it gave the file survives.
-/

namespace Cxlbuf

open ByteMem

/-! ## the accesses of recover -/

/-- What `recover` does for one record: write, flush and drain. -/
def applyOps (a : LogLayout) (off : Nat) : List PmOp :=
  [.memcpy (Log.entryAddr a.content off) (Log.entryContent a.content off),
    .flush (Log.entryAddr a.content off) (Log.entryBytes a.content off), .drain]

/-- The accesses of `recover` for one log: the records that start inside the
mapping, the last one first. -/
def undoOps (a : LogLayout) (addr len : Nat) : List PmOp :=
  (logEntries a addr len).reverse.flatMap (applyOps a)

theorem execOps_applyOps (a : LogLayout) (off : Nat) (m : PmImage) :
    execOps m (applyOps a off) = { m with backing := applyEntry a m.backing off } := rfl

/-- Without a power failure the accesses undo the log. -/
theorem execOps_undoOps (a : LogLayout) (addr len : Nat) (m : PmImage) :
    execOps m (undoOps a addr len) = { m with backing := undoLog a addr len m.backing } := by
  unfold undoOps undoLog
  induction (logEntries a addr len).reverse generalizing m with
  | nil => rfl
  | cons off offs ih =>
      rw [List.flatMap_cons, execOps_append, execOps_applyOps, ih, List.foldl_cons]

theorem mem_savedIn_of_mem_logEntries {a : LogLayout} {addr len off : Nat}
    (h : off ∈ logEntries a addr len) : savedAt a off ∈ savedIn a addr len := by
  rw [logEntries, List.mem_filter] at h
  rw [savedIn, List.mem_filter]
  exact ⟨List.mem_map_of_mem h.1, h.2⟩

/-- Recovery writes what the records of the mapping cover. -/
theorem covers_of_mem_undoOps {a : LogLayout} {addr len y : Nat} {op : PmOp}
    (h : op ∈ undoOps a addr len) (hw : op.WritesBacking y) :
    ∃ r ∈ savedIn a addr len, r.Covers y := by
  obtain ⟨off, hoff, hop⟩ := List.mem_flatMap.mp h
  have hmem := mem_savedIn_of_mem_logEntries (List.mem_reverse.mp hoff)
  simp only [applyOps, List.mem_cons, List.not_mem_nil, or_false] at hop
  rcases hop with rfl | rfl | rfl
  · exact ⟨_, hmem, hw⟩
  · exact absurd hw id
  · exact absurd hw id

/-- Every byte that recovery writes is flushed and drained after that. -/
theorem settled_undoOps (a : LogLayout) (addr len y : Nat) :
    Persist.Settled (lowerAll (undoOps a addr len)) (.byte .backing y) := by
  unfold undoOps
  induction (logEntries a addr len).reverse with
  | nil =>
      intro pre op post h
      simp [lowerAll] at h
  | cons off offs ih =>
      -- the stores and the flush of one record, then its drain and the rest
      have hdrain : Persist.Settled ([.drain] ++ lowerAll (offs.flatMap (applyOps a)))
          (.byte .backing y) := by
        refine ih.append fun pre op post h hop => ?_
        have hmem : op ∈ [Persist.Op.drain] := by rw [h]; simp
        rw [List.mem_singleton.mp hmem] at hop
        exact absurd hop id
      have hsplit : lowerAll ((off :: offs).flatMap (applyOps a)) =
          (storeBytes .backing (Log.entryAddr a.content off) (Log.entryContent a.content off) ++
            [.flush (backingLines (Log.entryAddr a.content off)
              (Log.entryBytes a.content off))]) ++
          ([.drain] ++ lowerAll (offs.flatMap (applyOps a))) := by
        simp [applyOps, PmOp.lower]
      rw [hsplit]
      refine hdrain.append fun pre op post h hop => ?_
      refine Persist.flushedDrained_of_final_flush h hop ⟨rfl, ?_⟩ (by simp)
      have hmem : op ∈ storeBytes .backing (Log.entryAddr a.content off)
          (Log.entryContent a.content off) := by
        have hin : op ∈ pre ++ op :: post := by simp
        rw [← h, List.mem_append, List.mem_singleton] at hin
        rcases hin with hin | rfl
        · exact hin
        · exact absurd hop id
      obtain ⟨i, hi, rfl⟩ := exists_of_mem_storeBytes hmem
      cases hop
      apply flushesLine_of_mem
      rw [Log.entryContent, length_slice] at hi
      omega

/-! ## a power failure during recovery -/

/-- What a power failure may leave while `recover` undoes log `a` on a file
mapped at `addr`. -/
def Undoing (a : LogLayout) (addr len : Nat) (file : Mem) (v : (c : Cell) → CellVal c) : Prop :=
  ∃ tr, tr <+: lowerAll (undoOps a addr len) ∧
    Persist.CrashImage (PmImage.cells ⟨fun _ => a, mapAt addr file⟩) tr v

namespace Undoing

variable {a : LogLayout} {addr len : Nat} {file : Mem} {v : (c : Cell) → CellVal c}

/-- A cell that recovery does not store to is found as it was. -/
theorem cell_eq (h : Undoing a addr len file v) {c : Cell}
    (hc : ∀ op ∈ lowerAll (undoOps a addr len), ¬ op.Updates c) :
    v c = PmImage.cells ⟨fun _ => a, mapAt addr file⟩ c := by
  obtain ⟨tr, htr, hv⟩ := h
  obtain ⟨tr', htr', hcell⟩ := hv.exists_prefix c
  rw [hcell]
  exact Persist.exec_of_not_updates
    (fun op hop => hc op (htr.subset (htr'.subset hop))) _

/-- Recovery stores to backing bytes the records of the mapping cover. -/
theorem updates {op : Persist.Op Cell CellVal} {c : Cell}
    (hop : op ∈ lowerAll (undoOps a addr len)) (hc : op.Updates c) :
    ∃ y, c = .byte .backing y ∧ ∃ r ∈ savedIn a addr len, r.Covers y := by
  obtain ⟨pm, hpm, hop⟩ := List.mem_flatMap.mp hop
  have hstores (dst : Nat) (data : List UInt8) (heq : pm = .memcpy dst data) :
      ∃ y, c = .byte .backing y ∧ pm.WritesBacking y := by
    subst heq
    obtain ⟨i, hi, rfl⟩ := exists_of_mem_storeBytes hop
    exact ⟨dst + i, hc.symm, by omega, by omega⟩
  obtain ⟨off, -, hmem⟩ := List.mem_flatMap.mp hpm
  simp only [applyOps, List.mem_cons, List.not_mem_nil, or_false] at hmem
  rcases hmem with heq | rfl | rfl
  · obtain ⟨y, hy, hw⟩ := hstores _ _ heq
    exact ⟨y, hy, covers_of_mem_undoOps hpm hw⟩
  · rw [List.mem_singleton.mp hop] at hc
    exact absurd hc id
  · rw [List.mem_singleton.mp hop] at hc
    exact absurd hc id

/-- The log is found as it was. -/
theorem area_eq (h : Undoing a addr len file v) (t : Nat) : (PmImage.ofCells v).area t = a := by
  have hcell {c : Cell} (hc : ∀ y, c ≠ .byte .backing y) :
      v c = PmImage.cells ⟨fun _ => a, mapAt addr file⟩ c :=
    h.cell_eq fun op hop hupd =>
      let ⟨y, hy, _⟩ := updates hop hupd
      hc y hy
  have hheader := hcell (c := .header t) nofun
  have hcontent : (fun i => v (.byte (.log t) i)) = a.content := by
    funext i
    exact hcell (c := .byte (.log t) i) nofun
  have harea : (PmImage.ofCells v).area t =
      ⟨v (.header t), fun i => v (.byte (.log t) i)⟩ := rfl
  rw [harea, hheader, hcontent]
  rfl

/-- So are the bytes that the log has no records for. -/
theorem backing_eq (h : Undoing a addr len file v) {y : Nat}
    (hy : ∀ r ∈ savedIn a addr len, ¬ r.Covers y) :
    (PmImage.ofCells v).backing y = mapAt addr file y := by
  refine h.cell_eq (c := .byte .backing y) fun op hop hupd => ?_
  obtain ⟨y', hcell, r, hr, hcov⟩ := updates hop hupd
  cases hcell
  exact hy r hr hcov

/-- **Recovery can be restarted**: undoing the log on what the failure left
gives what undoing it in one go does. -/
theorem undoLog_eq (h : Undoing a addr len file v) :
    undoLog a addr len (PmImage.ofCells v).backing = undoLog a addr len (mapAt addr file) := by
  rw [undoLog_eq_rollback, undoLog_eq_rollback]
  apply UndoLog.rollback_congr
  intro y hy
  apply h.backing_eq
  rw [← savedIn, mem_covered_record_iff] at hy
  exact fun r hr hcov => hy ⟨r, hr, hcov⟩

end Undoing

/-- What a byte becomes when a log is undone depends on that byte only. -/
theorem undoLog_congr_apply {a : LogLayout} {addr len x : Nat} {mem mem' : Mem}
    (h : mem x = mem' x) : undoLog a addr len mem x = undoLog a addr len mem' x := by
  rw [undoLog_eq_rollback, undoLog_eq_rollback]
  exact UndoLog.rollback_congr_apply h

/-- The same for the file that is mapped. -/
theorem Undoing.unmapAt_undoLog {a : LogLayout} {addr len : Nat} {file : Mem}
    {v : (c : Cell) → CellVal c} (h : Undoing a addr len file v) :
    unmapAt addr len (unmapAt addr len file (PmImage.ofCells v).backing)
        (undoLog a addr len (mapAt addr (unmapAt addr len file (PmImage.ofCells v).backing))) =
      unmapAt addr len file (undoLog a addr len (mapAt addr file)) := by
  funext off
  by_cases hoff : off < len
  · have hmap : mapAt addr (unmapAt addr len file (PmImage.ofCells v).backing) (addr + off) =
        (PmImage.ofCells v).backing (addr + off) := by
      simp [mapAt, unmapAt, hoff]
    simp only [unmapAt, if_pos hoff]
    rw [← h.undoLog_eq]
    exact undoLog_congr_apply hmap
  · simp [unmapAt, hoff]

/-! ## the constructor -/

/-- A power failure while the constructor of `PmemFile` runs on `fs`: it was
undoing the log of the first outstanding line.  The log file and the backing
file are as the failure leaves them. -/
def FailsTo (len : Nat) (ls : List DepLine) (fs fs' : PmemFs) : Prop :=
  ∃ l a v, (ls.find? fun l => l.Outstanding fs.logDir) = some l ∧ fs.logDir l.logName = some a ∧
    Undoing a l.addr len fs.backing v ∧
    fs' = ⟨Function.update fs.logDir l.logName (some ((PmImage.ofCells v).area 0)), fs.deps,
      unmapAt l.addr len fs.backing (PmImage.ofCells v).backing⟩

/-- The constructor gives the same after one failure, and the failure left
the logs and the dependency file alone. -/
theorem FailsTo.construct_eq {len : Nat} {ls : List DepLine} {fs fs' : PmemFs}
    (h : FailsTo len ls fs fs') (nv : Nvsl) {path : Text} (hpath : path ≠ [])
    (hdeps : fs.deps = some (depText ls)) :
    fs'.logDir = fs.logDir ∧ fs'.deps = fs.deps ∧
      construct nv path len fs' = construct nv path len fs := by
  obtain ⟨l, a, v, hfind, hlog, hv, rfl⟩ := h
  have hdir : Function.update fs.logDir l.logName (some ((PmImage.ofCells v).area 0)) =
      fs.logDir := by
    rw [hv.area_eq, ← hlog, Function.update_eq_self]
  refine ⟨hdir, rfl, ?_⟩
  obtain ⟨logDir, deps, file⟩ := fs
  simp only at hdeps hdir hfind hlog hv ⊢
  rw [hdir, hdeps, construct_depText nv hpath, construct_depText nv hpath, hfind]
  simp only [Option.elim_some, undoLine, hlog, hv.unmapAt_undoLog]

/-- The constructor gives the same after any number of failures. -/
theorem construct_eq_of_failures {len : Nat} {ls : List DepLine} {fs fs' : PmemFs}
    (h : Relation.ReflTransGen (FailsTo len ls) fs fs') (nv : Nvsl) {path : Text}
    (hpath : path ≠ []) (hdeps : fs.deps = some (depText ls)) :
    fs'.logDir = fs.logDir ∧ fs'.deps = fs.deps ∧
      construct nv path len fs' = construct nv path len fs := by
  induction h with
  | refl => exact ⟨rfl, rfl, rfl⟩
  | tail _ hlast ih =>
      obtain ⟨hdir, hdep, hsame⟩ := ih
      obtain ⟨hdir', hdep', hsame'⟩ := hlast.construct_eq nv hpath (hdep.trans hdeps)
      exact ⟨hdir'.trans hdir, hdep'.trans hdep, hsame'.trans hsame⟩

/-- **Recovery survives its own failures**: however often the constructor is
interrupted while it undoes a log, it finally gives what it would have given
in one go.  What it then gave the file is durable: a failure right after the
last record leaves it there. -/
theorem construct_restartable (nv : Nvsl) {path : Text} (hpath : path ≠ []) {len : Nat}
    {ls : List DepLine} {fs fs' : PmemFs} (hdeps : fs.deps = some (depText ls))
    (h : Relation.ReflTransGen (FailsTo len ls) fs fs') :
    construct nv path len fs' = construct nv path len fs ∧
      ∀ l a v, (ls.find? fun l => l.Outstanding fs.logDir) = some l →
        fs.logDir l.logName = some a →
        Persist.CrashImage (PmImage.cells ⟨fun _ => a, mapAt l.addr fs'.backing⟩)
          (lowerAll (undoOps a l.addr len)) v →
        construct nv path len fs = some { fs with
          backing := unmapAt l.addr len fs'.backing (PmImage.ofCells v).backing } := by
  obtain ⟨hdir, hdep, hsame⟩ := construct_eq_of_failures h nv hpath hdeps
  refine ⟨hsame, fun l a v hfind hlog hv => ?_⟩
  have hback : (PmImage.ofCells v).backing = undoLog a l.addr len (mapAt l.addr fs'.backing) := by
    funext y
    have hcell := hv.eq_exec_of_settled (settled_undoOps a l.addr len y)
    rw [exec_lowerAll, execOps_undoOps] at hcell
    exact hcell
  rw [← hsame, hback]
  obtain ⟨logDir, deps, file⟩ := fs
  obtain ⟨logDir', deps', file'⟩ := fs'
  simp only at hdir hdep hdeps hfind hlog ⊢
  rw [hdir, hdep, hdeps, construct_depText nv hpath, hfind]
  simp only [Option.elim_some, undoLine, hlog]

/-- The power fails when three of the eight bytes of a record were copied
back. -/
theorem construct_restartable_three_bytes :
    let fs : PmemFs := ⟨fun _ => some staleLog, some (depText [exampleLine 1 (by decide)]),
      fun _ => 0⟩
    ∃ fs', FailsTo 64 [exampleLine 1 (by decide)] fs fs' ∧ fs'.backing 2 = 7 ∧
      fs'.backing 3 = 0 ∧
      construct .reference ['g'] 64 fs' = construct .reference ['g'] 64 fs := by
  intro fs
  have hfail : FailsTo 64 [exampleLine 1 (by decide)] fs _ :=
    ⟨exampleLine 1 (by decide), staleLog,
      Persist.exec (PmImage.cells ⟨fun _ => staleLog, mapAt 0x10000000000 fun _ => 0⟩)
        (storeBytes .backing 0x10000000000 [7, 7, 7]), by decide, rfl,
      ⟨storeBytes .backing 0x10000000000 [7, 7, 7],
        ⟨storeBytes .backing 0x10000000003 [7, 7, 7, 7, 7] ++
          [.flush (backingLines 0x10000000000 8), .drain], rfl⟩,
        fun c => ⟨3, Persist.legalCut_length _ c, rfl⟩⟩, rfl⟩
  exact ⟨_, hfail, by decide, by decide,
    (construct_restartable .reference (by decide) rfl (.single hfail)).1⟩

end Cxlbuf
