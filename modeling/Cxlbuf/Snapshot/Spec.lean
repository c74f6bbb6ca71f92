import Cxlbuf.Snapshot

/-!
# Cxlbuf.Snapshot.Spec

What `snapshot` does, in closed form.  The loop over a log's entries issues
the copies of `copied` and never fails (`entryLoop_spec`), so a call always
completes and its accesses are those of `snapshotOps` (`snapshot_eq`).

Copies move bytes between an address of the tracked region and its image in
the backing file.  Whatever their order, a run of copies leaves in every
byte it writes what memory holds at the corresponding address
(`execOps_of_copies`).
-/

namespace Cxlbuf

open ByteMem

/-! ## what the loop copies -/

/-- The entries the loop copies, in order. -/
def copied (cfg : Config) (addr bytes : Nat) :
    Option LogEntryLean → List LogEntryLean → List LogEntryLean
  | _, [] => []
  | prev, e :: es =>
      if InRange addr bytes e ∧ ¬ (cfg.logFormat = .volatile ∧ prev = some e) then
        e :: copied cfg addr bytes (some e) es
      else if e.addr = 0 then []
      else copied cfg addr bytes (some e) es

/-- **What the loop does**: it issues the copies of `copied`, and counts
every entry it looks at in range as applied, so `snapshot` never takes its
`exit(1)` branch. -/
theorem entryLoop_spec (cfg : Config) (addr bytes : Nat) (mem : Mem) (prev : Option LogEntryLean)
    (es : List LogEntryLean) (st : LoopState) (h : st.appliedCnt = st.entryCnt) :
    (entryLoop cfg addr bytes mem prev es st).ops =
        st.ops ++ (copied cfg addr bytes prev es).flatMap (copyOps cfg mem) ∧
      (entryLoop cfg addr bytes mem prev es st).appliedCnt =
        (entryLoop cfg addr bytes mem prev es st).entryCnt := by
  induction es generalizing prev st with
  | nil => exact ⟨by simp [entryLoop, copied], h⟩
  | cons e es ih =>
      by_cases hr : InRange addr bytes e
      · by_cases hskip : cfg.logFormat = .volatile ∧ prev = some e
        · by_cases hz : e.addr = 0
          · simp [entryLoop, copied, hr, hskip, hz, h]
          · have ih' := ih (some e) ⟨st.ops, st.appliedCnt + 1, st.entryCnt + 1⟩ (by simp [h])
            simpa [entryLoop, copied, hr, hskip, hz] using ih'
        · have ih' := ih (some e)
            ⟨st.ops ++ copyOps cfg mem e, st.appliedCnt + 1, st.entryCnt + 1⟩ (by simp [h])
          simpa [entryLoop, copied, hr, hskip] using ih'
      · by_cases hz : e.addr = 0
        · simp [entryLoop, copied, hr, hz, h]
        · have ih' := ih (some e) st h
          simpa [entryLoop, copied, hr, hz] using ih'

/-- Without entries on page zero, the loop copies every entry in range at
least once: a skipped entry equals the one before. -/
theorem mem_copied_or_prev_iff {cfg : Config} {addr bytes : Nat} {prev : Option LogEntryLean}
    {es : List LogEntryLean} (hz : ∀ e ∈ es, e.addr ≠ 0) {e : LogEntryLean} :
    (e ∈ copied cfg addr bytes prev es ∨ (prev = some e ∧ InRange addr bytes e)) ↔
      (e ∈ es ∨ prev = some e) ∧ InRange addr bytes e := by
  induction es generalizing prev with
  | nil => simp [copied]
  | cons e' es ih =>
      have hz' : ∀ e ∈ es, e.addr ≠ 0 := fun e he => hz e (List.mem_cons_of_mem _ he)
      have ih' : (e ∈ copied cfg addr bytes (some e') es ∨
          (some e' = some e ∧ InRange addr bytes e)) ↔
          (e ∈ es ∨ some e' = some e) ∧ InRange addr bytes e := ih hz'
      by_cases hcopy : InRange addr bytes e' ∧ ¬ (cfg.logFormat = .volatile ∧ prev = some e')
      · rw [copied, if_pos hcopy]
        grind
      · rw [copied, if_neg hcopy, if_neg (hz e' List.mem_cons_self)]
        grind

theorem mem_copied_iff {cfg : Config} {addr bytes : Nat} {es : List LogEntryLean}
    (hz : ∀ e ∈ es, e.addr ≠ 0) {e : LogEntryLean} :
    e ∈ copied cfg addr bytes none es ↔ e ∈ es ∧ InRange addr bytes e := by
  have h : (e ∈ copied cfg addr bytes none es ∨ (none = some e ∧ InRange addr bytes e)) ↔
      (e ∈ es ∨ none = some e) ∧ InRange addr bytes e := mem_copied_or_prev_iff hz
  simpa using h

/-! ## addresses -/

theorem alignTo_le (bytes : Nat) : alignTo bytes ≤ 9 := by
  simp only [alignTo]
  split <;> split <;> omega

/-- The aligned address is the start of the block. -/
theorem dstAddrAligned_eq (dst bytes : Nat) :
    dstAddrAligned dst bytes = dst - dst % 2 ^ alignTo bytes := by
  have hmod : dst &&& ((1 <<< alignTo bytes) - 1) = dst % 2 ^ alignTo bytes := by
    rw [Nat.one_shiftLeft, Nat.and_two_pow_sub_one_eq_mod]
  have hblock : (dst >>> alignTo bytes) <<< alignTo bytes = dst - dst % 2 ^ alignTo bytes := by
    rw [Nat.shiftRight_eq_div_pow, Nat.shiftLeft_eq]
    have hdiv := Nat.div_add_mod dst (2 ^ alignTo bytes)
    rw [Nat.mul_comm] at hdiv
    omega
  rw [dstAddrAligned, hmod, hblock]
  split <;> omega

theorem dstAddrAligned_le (dst bytes : Nat) : dstAddrAligned dst bytes ≤ dst := by
  rw [dstAddrAligned_eq]
  omega

theorem lt_dstAddrAligned_add (dst bytes : Nat) : dst < dstAddrAligned dst bytes + 512 := by
  have hpow : 2 ^ alignTo bytes ≤ 2 ^ 9 := Nat.pow_le_pow_right (by decide) (alignTo_le bytes)
  have hlt : dst % 2 ^ alignTo bytes < 2 ^ alignTo bytes := Nat.mod_lt _ (Nat.two_pow_pos _)
  rw [dstAddrAligned_eq]
  omega

/-- The extended copy covers the entry. -/
theorem add_le_newSz (dst bytes : Nat) :
    dst + bytes ≤ dstAddrAligned dst bytes + newSz dst bytes := by
  have hle := dstAddrAligned_le dst bytes
  unfold newSz
  by_cases heq : dst = dstAddrAligned dst bytes
  · rw [if_pos heq]
    split
    · omega
    · split <;> omega
  · rw [if_neg heq]
    omega

/-- The entry's image in the backing file, and the block it is extended to,
do not wrap around.  The first 512 addresses are never mapped. -/
structure HasImage (cfg : Config) (e : LogEntryLean) : Prop where
  block_le : 512 ≤ e.addr
  addr_lt : e.addr < 2 ^ 64
  start_le : cfg.startAddr ≤ cfg.backingFileStart + e.addr
  image_lt : cfg.backingFileStart + e.addr < 2 ^ 64 + cfg.startAddr

/-- The image is at the same distance from the start. -/
theorem dstAddr_add_startAddr {cfg : Config} {e : LogEntryLean} (h : HasImage cfg e) :
    dstAddr cfg e + cfg.startAddr = cfg.backingFileStart + e.addr := by
  obtain ⟨-, haddr, hstart, himage⟩ := h
  have hend := cfg.end_le
  have hlt := cfg.start_lt_end
  unfold dstAddr wadd wsub
  omega

theorem HasImage.of_tracks {cfg : Config} {e : LogEntryLean} (h : cfg.Tracks e.addr 0) :
    HasImage cfg e := by
  have hpage := cfg.first_page
  have hend := cfg.end_le
  have hback := cfg.backing_le
  unfold Config.Tracks at h
  constructor <;> omega

/-- The bytes of the backing file that an entry's copy writes. -/
def InWindow (cfg : Config) (e : LogEntryLean) (y : Nat) : Prop := (copyArgs cfg e).Writes y

instance (cfg : Config) (e : LogEntryLean) (y : Nat) : Decidable (InWindow cfg e y) :=
  inferInstanceAs (Decidable (CopyArgs.Writes _ _))

/-- An entry's copy writes the whole image of the entry. -/
theorem inWindow_of_mem {cfg : Config} {e : LogEntryLean} {y : Nat}
    (h : dstAddr cfg e ≤ y ∧ y < dstAddr cfg e + e.bytes) : InWindow cfg e y := by
  have hle := dstAddrAligned_le (dstAddr cfg e) e.bytes
  have hsz := add_le_newSz (dstAddr cfg e) e.bytes
  unfold InWindow copyArgs
  split
  · split
    · exact ⟨by simp only; omega, by simp only; omega⟩
    · exact ⟨h.1, by simp only; omega⟩
  · exact h

/-! ## the copies -/

/-- The access copies bytes of memory to their image in the backing file, or
does not write the backing file. -/
def PmOp.Copies (cfg : Config) (mem : Mem) : PmOp → Prop
  | .memcpy dst data | .streamingWr dst data => cfg.backingFileStart ≤ dst + cfg.startAddr ∧
      data = slice mem (dst + cfg.startAddr - cfg.backingFileStart) data.length
  | _ => True

theorem exec_of_copies {cfg : Config} {mem : Mem} {op : PmOp} (h : op.Copies cfg mem)
    (m : PmImage) (y : Nat) : (op.exec m).backing y =
      if op.WritesBacking y then mem (y + cfg.startAddr - cfg.backingFileStart)
      else m.backing y := by
  by_cases hw : op.WritesBacking y
  · have hcopy (dst : Nat) (data : List UInt8) (hd : dst ≤ y ∧ y < dst + data.length)
        (hc : cfg.backingFileStart ≤ dst + cfg.startAddr ∧
          data = slice mem (dst + cfg.startAddr - cfg.backingFileStart) data.length) :
        write m.backing dst data y = mem (y + cfg.startAddr - cfg.backingFileStart) := by
      rw [hc.2, write_slice, if_pos hd]
      congr 1
      omega
    rw [if_pos hw]
    cases op with
    | memcpy dst data => exact hcopy dst data hw h
    | streamingWr dst data => exact hcopy dst data hw h
    | _ => exact absurd hw id
  · rw [if_neg hw, exec_backing_of_not_writes hw]

/-- **What a run of copies leaves in the backing file**: in every byte it
writes, what memory holds at the corresponding address. -/
theorem execOps_of_copies {cfg : Config} {mem : Mem} {ops : List PmOp}
    (h : ∀ op ∈ ops, op.Copies cfg mem) (m : PmImage) (y : Nat) : (execOps m ops).backing y =
      if ∃ op ∈ ops, op.WritesBacking y then mem (y + cfg.startAddr - cfg.backingFileStart)
      else m.backing y := by
  induction ops generalizing m with
  | nil => simp
  | cons op ops ih =>
      have ih' := ih (fun op' hop' => h op' (List.mem_cons_of_mem _ hop')) (op.exec m)
      rw [execOps_cons, ih', exec_of_copies (h op List.mem_cons_self)]
      by_cases hops : ∃ op' ∈ ops, op'.WritesBacking y
      · have hcons : ∃ op' ∈ op :: ops, op'.WritesBacking y := by
          obtain ⟨op', hop', hw⟩ := hops
          exact ⟨op', List.mem_cons_of_mem _ hop', hw⟩
        rw [if_pos hops, if_pos hcons]
      · rw [if_neg hops]
        by_cases hop : op.WritesBacking y
        · rw [if_pos hop, if_pos ⟨op, List.mem_cons_self, hop⟩]
        · rw [if_neg hop, if_neg]
          simpa [hop] using hops

/-- The copy writes every byte to the image of the address it reads it from. -/
def CopyArgs.Straight (cfg : Config) (c : CopyArgs) : Prop :=
  c.dst + cfg.startAddr = cfg.backingFileStart + c.src

/-- The access performs the copy. -/
def PmOp.Performs (mem : Mem) (c : CopyArgs) : PmOp → Prop
  | .memcpy dst data | .streamingWr dst data => dst = c.dst ∧ data = slice mem c.src c.size
  | _ => False

/-- The access is a copy to the backing file. -/
def PmOp.IsCopy : PmOp → Prop
  | .memcpy _ _ | .streamingWr _ _ => True
  | _ => False

section Performs

variable {cfg : Config} {mem : Mem} {op : PmOp} {c : CopyArgs}

theorem PmOp.Performs.isCopy (h : op.Performs mem c) : op.IsCopy := by
  cases op with
  | memcpy dst data => trivial
  | streamingWr dst data => trivial
  | _ => exact absurd h id

theorem PmOp.IsCopy.toBacking (h : op.IsCopy) : op.ToBacking := by
  cases op with
  | memcpy dst data => trivial
  | streamingWr dst data => trivial
  | _ => exact absurd h id

theorem PmOp.isCopy_of_writesBacking {y : Nat} (h : op.WritesBacking y) : op.IsCopy := by
  cases op with
  | memcpy dst data => trivial
  | streamingWr dst data => trivial
  | _ => exact absurd h id

theorem PmOp.copies_of_not_isCopy (h : ¬ op.IsCopy) : op.Copies cfg mem := by
  cases op with
  | memcpy dst data => exact absurd trivial h
  | streamingWr dst data => exact absurd trivial h
  | _ => trivial

theorem PmOp.Performs.copies (h : op.Performs mem c) (hc : c.Straight cfg) :
    op.Copies cfg mem := by
  have hcopy : cfg.backingFileStart ≤ c.dst + cfg.startAddr ∧ slice mem c.src c.size =
      slice mem (c.dst + cfg.startAddr - cfg.backingFileStart) (slice mem c.src c.size).length := by
    unfold CopyArgs.Straight at hc
    have hsrc : c.dst + cfg.startAddr - cfg.backingFileStart = c.src := by omega
    rw [hsrc, length_slice]
    exact ⟨by omega, rfl⟩
  cases op with
  | memcpy dst data =>
      obtain ⟨rfl, rfl⟩ := h
      exact hcopy
  | streamingWr dst data =>
      obtain ⟨rfl, rfl⟩ := h
      exact hcopy
  | _ => exact absurd h id

theorem PmOp.Performs.writesBacking_iff (h : op.Performs mem c) {y : Nat} :
    op.WritesBacking y ↔ c.Writes y := by
  cases op with
  | memcpy dst data =>
      obtain ⟨rfl, rfl⟩ := h
      simp [PmOp.WritesBacking, CopyArgs.Writes]
  | streamingWr dst data =>
      obtain ⟨rfl, rfl⟩ := h
      simp [PmOp.WritesBacking, CopyArgs.Writes]
  | _ => exact absurd h id

/-- An entry with an image is copied straight, also when the copy is extended
to a block. -/
theorem straight_copyArgs {e : LogEntryLean} (h : HasImage cfg e) :
    (copyArgs cfg e).Straight cfg := by
  have hdst := dstAddr_add_startAddr h
  have hlt := lt_dstAddrAligned_add (dstAddr cfg e) e.bytes
  have hle := dstAddrAligned_le (dstAddr cfg e) e.bytes
  have hback := cfg.backing_le
  obtain ⟨hblock, haddr, -, himage⟩ := h
  unfold CopyArgs.Straight copyArgs
  split
  · split
    · unfold wadd wsub
      simp only
      omega
    · exact hdst
  · exact hdst

/-- The accesses for an entry are its copy and perhaps a flush. -/
theorem performs_of_mem_copyOps {e : LogEntryLean} (h : op ∈ copyOps cfg mem e) :
    op.Performs mem (copyArgs cfg e) ∨ ∃ dst size, op = .flush dst size := by
  unfold copyOps at h
  split at h
  · rw [List.mem_singleton] at h
    subst h
    exact .inl ⟨rfl, rfl⟩
  · rw [List.mem_cons, List.mem_singleton] at h
    obtain rfl | rfl := h
    · exact .inl ⟨rfl, rfl⟩
    · exact .inr ⟨_, _, rfl⟩

theorem exists_performs_copyOps (cfg : Config) (mem : Mem) (e : LogEntryLean) :
    ∃ op ∈ copyOps cfg mem e, op.Performs mem (copyArgs cfg e) := by
  unfold copyOps
  split
  · exact ⟨_, List.mem_cons_self, rfl, rfl⟩
  · exact ⟨_, List.mem_cons_self, rfl, rfl⟩

/-- The accesses for an entry with an image are copies. -/
theorem copies_copyOps {e : LogEntryLean} (h : HasImage cfg e) :
    ∀ op ∈ copyOps cfg mem e, op.Copies cfg mem := by
  intro op hop
  obtain hperf | ⟨dst, size, rfl⟩ := performs_of_mem_copyOps hop
  · exact hperf.copies (straight_copyArgs h)
  · trivial

/-- An entry's copy writes its window. -/
theorem writesBacking_copyOps {e : LogEntryLean} {y : Nat} :
    (∃ op ∈ copyOps cfg mem e, op.WritesBacking y) ↔ InWindow cfg e y := by
  constructor
  · rintro ⟨op, hop, hw⟩
    obtain hperf | ⟨dst, size, rfl⟩ := performs_of_mem_copyOps hop
    · exact hperf.writesBacking_iff.mp hw
    · exact absurd hw id
  · intro hwin
    obtain ⟨op, hop, hperf⟩ := exists_performs_copyOps cfg mem e
    exact ⟨op, hop, hperf.writesBacking_iff.mpr hwin⟩

/-- A copy makes no access to a log area and does not drain. -/
theorem copyOps_backing_only {e : LogEntryLean} (h : op ∈ copyOps cfg mem e) :
    (∀ t, ¬ op.WritesArea t) ∧ op ≠ .drain := by
  obtain hperf | ⟨dst, size, rfl⟩ := performs_of_mem_copyOps h
  · cases op with
    | memcpy dst data => exact ⟨fun _ => id, nofun⟩
    | streamingWr dst data => exact ⟨fun _ => id, nofun⟩
    | _ => exact absurd hperf id
  · exact ⟨fun _ => id, nofun⟩

end Performs

/-- A flush covers the lines of the bytes it is given. -/
theorem flushesLine_of_mem {p n y : Nat} (h : p ≤ y ∧ y < p + n) :
    PmOp.FlushesLine p n (y / 64) := by
  unfold PmOp.FlushesLine
  omega

/-! ## a whole call -/

/-- The entries the loop goes over once the log is armed.  Under
`LOG_FORMAT_NON_VOLATILE` there are none, as `log_offset` is 0 by then. -/
def walked (cfg : Config) (l : Log) : List LogEntryLean :=
  match cfg.logFormat with
  | .volatile => if 10 < l.entries.length then cfg.sort.sort l.entries else l.entries
  | .nonVolatile => []

/-- The accesses that copy a log's entries. -/
def logCopies (cfg : Config) (addr bytes : Nat) (mem : Mem) (l : Log) : List PmOp :=
  (copied cfg addr bytes none (walked cfg l)).flatMap (copyOps cfg mem)

section Images

variable {cfg : Config} {addr bytes : Nat} {l : Log}

/-- Entries with an image are not on page zero, so all entries in range are
copied. -/
theorem mem_copied_walked (himg : ∀ e ∈ walked cfg l, HasImage cfg e)
    {e : LogEntryLean} : e ∈ copied cfg addr bytes none (walked cfg l) ↔
      e ∈ walked cfg l ∧ InRange addr bytes e := by
  apply mem_copied_iff
  intro e he
  have hblock := (himg e he).block_le
  omega

/-- The entries of a log are copied to their image. -/
theorem copies_logCopies (himg : ∀ e ∈ walked cfg l, HasImage cfg e) {mem : Mem}
    {op : PmOp} (hop : op ∈ logCopies cfg addr bytes mem l) : op.Copies cfg mem := by
  obtain ⟨e, he, hope⟩ := List.mem_flatMap.mp hop
  exact copies_copyOps (himg e ((mem_copied_walked himg).mp he).1) op hope

/-- The copies of a log write the windows of its entries in range. -/
theorem writesBacking_logCopies (himg : ∀ e ∈ walked cfg l, HasImage cfg e) {mem : Mem}
    {y : Nat} : (∃ op ∈ logCopies cfg addr bytes mem l, op.WritesBacking y) ↔
      ∃ e ∈ walked cfg l, InRange addr bytes e ∧ InWindow cfg e y := by
  constructor
  · intro hex
    obtain ⟨op, hop, hw⟩ := hex
    obtain ⟨e, he, hope⟩ := List.mem_flatMap.mp hop
    have hin := (mem_copied_walked himg).mp he
    exact ⟨e, hin.1, hin.2, writesBacking_copyOps.mp ⟨op, hope, hw⟩⟩
  · intro hex
    obtain ⟨e, he, hr, hwin⟩ := hex
    obtain ⟨op, hope, hw⟩ := writesBacking_copyOps.mpr hwin
    exact ⟨op, List.mem_flatMap.mpr ⟨e, (mem_copied_walked himg).mpr ⟨he, hr⟩, hope⟩, hw⟩

end Images

/-- The accesses for the log at position `t`; `first` says whether this is
the first snapshot. -/
def iterOps (cfg : Config) (addr bytes : Nat) (p : Process) (first : Bool) (t : Nat) (l : Log) :
    List PmOp :=
  l.activateOps t (p.pm.area t) ++ (if first then firstCopyOps cfg p addr else []) ++
    logCopies cfg addr bytes p.mem l ++ [.drain] ++ Log.setStateOps t .empty false ++
    Log.clearOps t

theorem execOps_activateOps (m : PmImage) (t : Nat) (l : Log) (a : LogLayout) :
    execOps m (l.activateOps t a) =
      m.updateArea t fun a => { a with logOffset := 0, state := .active } := by
  have hflush : execOps m (l.flushAllOps t a) = m := by
    unfold Log.flushAllOps
    split <;> rfl
  rw [Log.activateOps, execOps_append, execOps_append, hflush]
  simp [Log.setStateOps, PmOp.exec, PmImage.updateArea]

theorem not_writesArea_firstCopyOps {cfg : Config} {p : Process} {addr t : Nat} {op : PmOp}
    (h : op ∈ firstCopyOps cfg p addr) : ¬ op.WritesArea t := by
  cases hc : bulkCopy cfg p addr with
  | none => simp [firstCopyOps, hc] at h
  | some c =>
      simp only [firstCopyOps, hc, List.mem_singleton] at h
      subst h
      exact id

/-- The bulk copy writes the mapping it is given. -/
theorem writesBacking_firstCopyOps {cfg : Config} {p : Process} {addr y : Nat} :
    (∃ op ∈ firstCopyOps cfg p addr, op.WritesBacking y) ↔
      ∃ c, bulkCopy cfg p addr = some c ∧ c.Writes y := by
  cases hc : bulkCopy cfg p addr with
  | none => simp [firstCopyOps, hc]
  | some c => simp [firstCopyOps, hc, PmOp.WritesBacking, CopyArgs.Writes]

/-- Arming a log leaves nothing to go over in the log area. -/
theorem logList_armed (cfg : Config) (l : Log) {a : LogLayout} (h : a.logOffset = 0) :
    logList cfg l a = walked cfg l := by
  unfold logList walked
  cases cfg.logFormat with
  | volatile => rfl
  | nonVolatile => simp [layoutEntries, iterLoop, h, Tiling.walk]

/-- **One iteration of `snapshot`** always completes. -/
theorem snapshotLog_eq {cfg : Config} {addr bytes t : Nat} {p : Process} {l : Log}
    (hl : p.logs[t]? = some l) : snapshotLog cfg addr bytes p t =
      some { p.issue (iterOps cfg addr bytes p p.firstSnapshot t l) with
        logs := p.logs.set t l.clear, firstSnapshot := false } := by
  have harmed : ((execOps p.pm (l.activateOps t (p.pm.area t))).area t).logOffset = 0 := by
    rw [execOps_activateOps, PmImage.updateArea_area_self]
  have hfirst : ((execOps (execOps p.pm (l.activateOps t (p.pm.area t)))
      (firstCopyOps cfg p addr)).area t).logOffset = 0 := by
    rw [execOps_area_of_not_writes fun op hop => not_writesArea_firstCopyOps hop, harmed]
  have hloop := entryLoop_spec cfg addr bytes p.mem none (walked cfg l) ⟨[], 0, 0⟩ rfl
  obtain ⟨hops, hcnt⟩ := hloop
  cases hf : p.firstSnapshot with
  | true =>
      have hlist := logList_armed cfg l hfirst
      have hbulk : firstCopyOps cfg
          { p with
            pm := execOps p.pm (l.activateOps t (p.pm.area t))
            firstSnapshot := true
            trace := p.trace ++ l.activateOps t (p.pm.area t) } addr =
          firstCopyOps cfg p addr := rfl
      simp [snapshotLog, hl, hf, Process.issue, hbulk, hlist, hops, hcnt, iterOps, logCopies]
  | false =>
      have hlist := logList_armed cfg l harmed
      simp [snapshotLog, hl, hf, Process.issue, hlist, hops, hcnt, iterOps, logCopies]

/-- The accesses for the logs from position `t` on. -/
def snapshotOpsFrom (cfg : Config) (addr bytes : Nat) (p : Process) :
    Bool → Nat → List Log → List PmOp
  | _, _, [] => []
  | first, t, l :: ls =>
      iterOps cfg addr bytes p first t l ++ snapshotOpsFrom cfg addr bytes p false (t + 1) ls

/-- The accesses of a call. -/
def snapshotOps (cfg : Config) (addr bytes : Nat) (p : Process) : List PmOp :=
  if p.storeInstEnabled then snapshotOpsFrom cfg addr bytes p p.firstSnapshot 0 p.logs else []

/-- An iteration writes its own log area only. -/
theorem not_writesArea_iterOps {cfg : Config} {addr bytes t u : Nat} {p : Process} {first : Bool}
    {l : Log} (h : u ≠ t) {op : PmOp} (hop : op ∈ iterOps cfg addr bytes p first t l) :
    ¬ op.WritesArea u := by
  simp only [iterOps, List.mem_append] at hop
  rcases hop with ((((hact | hfirst) | hcopy) | hdrain) | hstate) | hclear
  · simp only [Log.activateOps, Log.flushAllOps, Log.setStateOps, List.mem_append] at hact
    grind [PmOp.WritesArea]
  · split at hfirst
    · exact not_writesArea_firstCopyOps hfirst
    · simp at hfirst
  · obtain ⟨e, -, he⟩ := List.mem_flatMap.mp hcopy
    exact (copyOps_backing_only he).1 u
  · rw [List.mem_singleton] at hdrain
    subst hdrain
    exact id
  · grind [Log.setStateOps, PmOp.WritesArea]
  · grind [Log.clearOps, PmOp.WritesArea]

theorem not_writesArea_snapshotOpsFrom {cfg : Config} {addr bytes t u : Nat} {p : Process}
    {first : Bool} {ls : List Log} (h : u < t) {op : PmOp}
    (hop : op ∈ snapshotOpsFrom cfg addr bytes p first t ls) : ¬ op.WritesArea u := by
  induction ls generalizing t first with
  | nil => simp [snapshotOpsFrom] at hop
  | cons l ls ih =>
      rw [snapshotOpsFrom, List.mem_append] at hop
      cases hop with
      | inl hiter => exact not_writesArea_iterOps (by omega) hiter
      | inr hrest => exact ih (by omega) hrest

/-- Later iterations depend on memory and on their own log areas only. -/
theorem snapshotOpsFrom_congr {cfg : Config} {addr bytes t : Nat} {p q : Process} {ls : List Log}
    (hmem : q.mem = p.mem) (harea : ∀ u, t ≤ u → q.pm.area u = p.pm.area u) :
    snapshotOpsFrom cfg addr bytes q false t ls = snapshotOpsFrom cfg addr bytes p false t ls := by
  induction ls generalizing t with
  | nil => rfl
  | cons l ls ih =>
      have ih' : snapshotOpsFrom cfg addr bytes q false (t + 1) ls =
          snapshotOpsFrom cfg addr bytes p false (t + 1) ls := ih fun u hu => harea u (by omega)
      have hiter : iterOps cfg addr bytes q false t l = iterOps cfg addr bytes p false t l := by
        simp [iterOps, harea t (Nat.le_refl t), hmem]
      rw [snapshotOpsFrom, snapshotOpsFrom, hiter, ih']

/-- The loop over the logs from position `t` on. -/
theorem foldlM_snapshotLog (cfg : Config) (addr bytes : Nat) {t : Nat} {p : Process}
    {ls : List Log} (h : p.logs.drop t = ls) :
    (List.range' t ls.length).foldlM (snapshotLog cfg addr bytes) p =
      some { p.issue (snapshotOpsFrom cfg addr bytes p p.firstSnapshot t ls) with
        logs := p.logs.take t ++ ls.map Log.clear
        firstSnapshot := p.firstSnapshot && ls.isEmpty } := by
  induction ls generalizing t p with
  | nil =>
      have htake : p.logs.take t = p.logs :=
        List.take_of_length_le (List.drop_eq_nil_iff.mp h)
      simp [snapshotOpsFrom, Process.issue, htake]
  | cons l ls ih =>
      have hl : p.logs[t]? = some l := by
        rw [← List.head?_drop, h]
        rfl
      have ht : t < p.logs.length := (List.getElem?_eq_some_iff.mp hl).1
      have hdrop : (p.logs.set t l.clear).drop (t + 1) = ls := by
        rw [List.drop_set_of_lt (by omega), ← List.drop_drop, h]
        rfl
      have htake : (p.logs.set t l.clear).take (t + 1) = p.logs.take t ++ [l.clear] := by
        rw [List.take_add_one]
        simp [ht, List.take_set_of_le]
      let q : Process := { p.issue (iterOps cfg addr bytes p p.firstSnapshot t l) with
        logs := p.logs.set t l.clear, firstSnapshot := false }
      have hnext : snapshotOpsFrom cfg addr bytes q false (t + 1) ls =
          snapshotOpsFrom cfg addr bytes p false (t + 1) ls :=
        snapshotOpsFrom_congr rfl fun u hu => execOps_area_of_not_writes
          (fun op hop => not_writesArea_iterOps (by omega) hop) p.pm
      have ih' := ih (p := q) hdrop
      rw [List.length_cons, List.range'_succ, List.foldlM_cons, snapshotLog_eq hl,
        Option.bind_eq_bind, Option.bind_some]
      rw [ih', hnext]
      simp [q, Process.issue, snapshotOpsFrom, htake]

/-- **A call of `snapshot`** always completes, with the accesses of
`snapshotOps`; memory is not changed. -/
theorem snapshot_eq (cfg : Config) (addr bytes : Nat) (p : Process) :
    snapshot cfg addr bytes p = some { p.issue (snapshotOps cfg addr bytes p) with
      logs := if p.storeInstEnabled then p.logs.map Log.clear else p.logs
      firstSnapshot := p.firstSnapshot && (p.logs.isEmpty || !p.storeInstEnabled) } := by
  cases h : p.storeInstEnabled with
  | true =>
      have hdrop : p.logs.drop 0 = p.logs := rfl
      have hloop := foldlM_snapshotLog cfg addr bytes hdrop
      rw [← List.range_eq_range'] at hloop
      simp [snapshot, h, hloop, snapshotOps]
  | false =>
      obtain ⟨pid, hpid, mem, pm, logs, first, inst, mapped, size, trace⟩ := p
      simp only at h
      subst h
      simp [snapshot, snapshotOps, Process.issue]

/-! ## the log areas after a call -/

/-- A log area as an iteration leaves it. -/
def Log.retiredArea (a : LogLayout) : LogLayout :=
  { a with state := .empty, logOffset := 0, tailPtr := 0 }

/-- An iteration retires its own log area. -/
theorem execOps_iterOps_area (cfg : Config) (addr bytes : Nat) (p : Process) (first : Bool)
    (t : Nat) (l : Log) (m : PmImage) :
    (execOps m (iterOps cfg addr bytes p first t l)).area t = Log.retiredArea (m.area t) := by
  have hbulk : ∀ op ∈ (if first then firstCopyOps cfg p addr else []), ¬ op.WritesArea t := by
    intro op hop
    split at hop
    · exact not_writesArea_firstCopyOps hop
    · simp at hop
  have hcopies : ∀ op ∈ logCopies cfg addr bytes p.mem l, ¬ op.WritesArea t := by
    intro op hop
    obtain ⟨e, -, he⟩ := List.mem_flatMap.mp hop
    exact (copyOps_backing_only he).1 t
  have harmed : (execOps m (l.activateOps t (p.pm.area t) ++
      (if first then firstCopyOps cfg p addr else []) ++
      logCopies cfg addr bytes p.mem l)).area t =
        { m.area t with logOffset := 0, state := .active } := by
    rw [execOps_append, execOps_append, execOps_area_of_not_writes hcopies,
      execOps_area_of_not_writes hbulk, execOps_activateOps, PmImage.updateArea_area_self]
  have hretire (m' : PmImage) : (execOps m' ([PmOp.drain] ++ (Log.setStateOps t .empty false ++
      Log.clearOps t))).area t = Log.retiredArea (m'.area t) := by
    simp [Log.setStateOps, Log.clearOps, PmOp.exec, Log.retiredArea]
  rw [iterOps, List.append_assoc, List.append_assoc, execOps_append, hretire, harmed]
  rfl

theorem execOps_snapshotOpsFrom_area {cfg : Config} {addr bytes t u : Nat} {p : Process}
    {first : Bool} {ls : List Log} (hle : t ≤ u) (hlt : u < t + ls.length) (m : PmImage) :
    (execOps m (snapshotOpsFrom cfg addr bytes p first t ls)).area u =
      Log.retiredArea (m.area u) := by
  induction ls generalizing t first m with
  | nil => simp at hlt; omega
  | cons l ls ih =>
      rw [List.length_cons] at hlt
      rw [snapshotOpsFrom, execOps_append]
      by_cases hu : u = t
      · subst hu
        have hlater : ∀ op ∈ snapshotOpsFrom cfg addr bytes p false (u + 1) ls,
            ¬ op.WritesArea u := fun op hop => not_writesArea_snapshotOpsFrom (by omega) hop
        rw [execOps_area_of_not_writes hlater, execOps_iterOps_area]
      · rw [ih (by omega) (by omega), execOps_area_of_not_writes
          fun op hop => not_writesArea_iterOps hu hop]

/-- **The log areas after a call**: all registered logs are retired. -/
theorem snapshot_area (cfg : Config) (addr bytes : Nat) {t : Nat} {p : Process}
    (hinst : p.storeInstEnabled = true) (ht : t < p.logs.length) :
    (execOps p.pm (snapshotOps cfg addr bytes p)).area t = Log.retiredArea (p.pm.area t) := by
  rw [snapshotOps, if_pos hinst]
  exact execOps_snapshotOpsFrom_area (Nat.zero_le t) (by omega) p.pm

/-! ## around the commit point -/

/-- The accesses of an iteration up to its commit point. -/
def preCommitOps (cfg : Config) (addr bytes : Nat) (p : Process) (first : Bool) (t : Nat)
    (l : Log) : List PmOp :=
  l.activateOps t (p.pm.area t) ++ (if first then firstCopyOps cfg p addr else []) ++
    logCopies cfg addr bytes p.mem l ++ [.drain]

/-- The accesses of an iteration after its commit point. -/
def postCommitOps (t : Nat) : List PmOp := .drain :: Log.clearOps t

theorem iterOps_eq (cfg : Config) (addr bytes : Nat) (p : Process) (first : Bool) (t : Nat)
    (l : Log) : iterOps cfg addr bytes p first t l =
      preCommitOps cfg addr bytes p first t l ++ .streamState t .empty :: postCommitOps t := by
  simp [iterOps, preCommitOps, postCommitOps, Log.setStateOps]

/-- Arming a log does not touch the backing file. -/
theorem not_toBacking_activateOps {t : Nat} {l : Log} {area : LogLayout} {op : PmOp}
    (h : op ∈ l.activateOps t area) : ¬ op.ToBacking := by
  simp only [Log.activateOps, Log.flushAllOps, Log.setStateOps, List.mem_append] at h
  grind [PmOp.ToBacking]

/-- An iteration accesses the backing file for its copies only. -/
theorem mem_iterOps_iff {cfg : Config} {addr bytes t : Nat} {p : Process} {first : Bool}
    {l : Log} {op : PmOp} (h : op.ToBacking) : op ∈ iterOps cfg addr bytes p first t l ↔
      (first = true ∧ op ∈ firstCopyOps cfg p addr) ∨ op ∈ logCopies cfg addr bytes p.mem l := by
  have hact : op ∉ l.activateOps t (p.pm.area t) := fun hact => not_toBacking_activateOps hact h
  have hdrain : op ≠ .drain := by
    rintro rfl
    exact h
  have hstate : op ∉ Log.setStateOps t .empty false := by
    grind [Log.setStateOps, PmOp.ToBacking]
  have hclear : op ∉ Log.clearOps t := by
    grind [Log.clearOps, PmOp.ToBacking]
  simp only [iterOps, List.mem_append, List.mem_singleton, hact, hdrain, hstate, hclear,
    false_or, or_false]
  cases first <;> simp

/-- A call accesses the backing file for the bulk copy and for the copies of
its logs. -/
theorem mem_snapshotOpsFrom_iff {cfg : Config} {addr bytes t : Nat} {p : Process} {first : Bool}
    {ls : List Log} {op : PmOp} (h : op.ToBacking) :
    op ∈ snapshotOpsFrom cfg addr bytes p first t ls ↔
      (first = true ∧ ls ≠ [] ∧ op ∈ firstCopyOps cfg p addr) ∨
        ∃ l ∈ ls, op ∈ logCopies cfg addr bytes p.mem l := by
  induction ls generalizing first t with
  | nil => simp [snapshotOpsFrom]
  | cons l ls ih =>
      have ih' : op ∈ snapshotOpsFrom cfg addr bytes p false (t + 1) ls ↔
          ∃ l ∈ ls, op ∈ logCopies cfg addr bytes p.mem l := by
        simp [ih]
      rw [snapshotOpsFrom, List.mem_append, mem_iterOps_iff h, ih']
      simp [or_assoc]

theorem mem_snapshotOps_of_toBacking {cfg : Config} {addr bytes : Nat} {p : Process} {l : Log}
    (hlogs : p.logs = [l]) {op : PmOp} (hop : op ∈ snapshotOps cfg addr bytes p)
    (h : op.ToBacking) : (p.firstSnapshot = true ∧ op ∈ firstCopyOps cfg p addr) ∨
      op ∈ logCopies cfg addr bytes p.mem l := by
  unfold snapshotOps at hop
  split at hop
  · rw [mem_snapshotOpsFrom_iff h, hlogs] at hop
    simpa using hop
  · simp at hop

/-- Retiring and clearing it does not either. -/
theorem not_writesBacking_postCommitOps {t a : Nat} {op : PmOp}
    (h : op ∈ .streamState t .empty :: postCommitOps t) : ¬ op.WritesBacking a := by
  simp only [postCommitOps, Log.clearOps, List.mem_cons, List.not_mem_nil, or_false] at h
  rcases h with rfl | rfl | rfl | rfl <;> exact id

/-! ## the backing file after a call -/

/-- A backing byte once the bulk copy of a first snapshot is made. -/
def bulkBacking (cfg : Config) (addr : Nat) (p : Process) : Mem := fun y =>
  match bulkCopy cfg p addr with
  | none => p.pm.backing y
  | some c => if p.firstSnapshot = true ∧ c.Writes y then p.mem (c.src + (y - c.dst))
      else p.pm.backing y

theorem bulkBacking_of_not_first {cfg : Config} {addr : Nat} {p : Process}
    (h : p.firstSnapshot = false) : bulkBacking cfg addr p = p.pm.backing := by
  funext y
  cases hc : bulkCopy cfg p addr with
  | none => simp [bulkBacking, hc]
  | some c => simp [bulkBacking, hc, h]

/-- The bulk copy finds the backing file as the call found it. -/
theorem execOps_bulk_backing {cfg : Config} {addr : Nat} {p : Process} {m : PmImage}
    (h : m.backing = p.pm.backing) :
    (execOps m (if p.firstSnapshot then firstCopyOps cfg p addr else [])).backing =
      bulkBacking cfg addr p := by
  cases hf : p.firstSnapshot with
  | false => rw [bulkBacking_of_not_first hf, ← h]; rfl
  | true =>
      funext y
      cases hc : bulkCopy cfg p addr with
      | none => simp [firstCopyOps, bulkBacking, hc, h]
      | some c =>
          simp only [firstCopyOps, bulkBacking, hc, hf, if_true, execOps_cons, execOps_nil,
            PmOp.exec, write_slice, h, true_and]
          rfl

theorem mem_walked {cfg : Config} (hvol : cfg.logFormat = .volatile) (l : Log) {e : LogEntryLean} :
    e ∈ walked cfg l ↔ e ∈ l.entries := by
  simp only [walked, hvol]
  split
  · exact (cfg.sort.perm l.entries).mem_iff
  · exact Iff.rfl

theorem hasImage_of_mem_walked {cfg : Config} (hvol : cfg.logFormat = .volatile) {l : Log}
    (h : ∀ e ∈ l.entries, cfg.Tracks e.addr 0) : ∀ e ∈ walked cfg l, HasImage cfg e :=
  fun e he => HasImage.of_tracks (h e ((mem_walked hvol l).mp he))

/-- **The backing file after a call** on a process with one log whose
entries have an image: the windows of the entries in range hold what memory
holds, the rest is as before. -/
theorem snapshot_backing (cfg : Config) (addr bytes : Nat) {p : Process} {l : Log}
    (hlogs : p.logs = [l]) (hinst : p.storeInstEnabled = true)
    (himg : ∀ e ∈ walked cfg l, HasImage cfg e) (y : Nat) :
    (execOps p.pm (snapshotOps cfg addr bytes p)).backing y =
      if ∃ e ∈ walked cfg l, InRange addr bytes e ∧ InWindow cfg e y then
        p.mem (y + cfg.startAddr - cfg.backingFileStart)
      else bulkBacking cfg addr p y := by
  have hact : (execOps p.pm (l.activateOps 0 (p.pm.area 0))).backing = p.pm.backing := by
    rw [execOps_activateOps]
    rfl
  have hops : snapshotOps cfg addr bytes p = preCommitOps cfg addr bytes p p.firstSnapshot 0 l ++
      .streamState 0 .empty :: postCommitOps 0 := by
    rw [snapshotOps, if_pos hinst, hlogs, snapshotOpsFrom, snapshotOpsFrom, List.append_nil,
      iterOps_eq]
  rw [hops, execOps_append,
    execOps_backing_of_not_writes fun op hop => not_writesBacking_postCommitOps hop,
    preCommitOps, execOps_append, execOps_append, execOps_append]
  change (execOps _ (logCopies cfg addr bytes p.mem l)).backing y = _
  rw [execOps_of_copies (fun op hop => copies_logCopies himg hop), execOps_bulk_backing hact]
  simp only [writesBacking_logCopies himg]

end Cxlbuf
