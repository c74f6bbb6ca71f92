import Cxlbuf.Lib.UndoLog
import Cxlbuf.Process
import Cxlbuf.Recovery

/-!
# Cxlbuf.Recovery.Undo

Recovery undoes what was logged.  The records `log_range` appends are read
back by the scan of `recover` (`Encodes`, `savedRanges_of_encodes`), and its
reverse-order replay is a rollback in the sense of `UndoLog`
(`undoLog_eq_rollback`).  A run of tracked stores follows the logging
discipline `UndoLog.Logged` (`UndoInv`): a back-to-back duplicate is the one
case in which `log_range` saves nothing, and then the last record covers the
range already.
-/

namespace Cxlbuf

open ByteMem

/-- A mapping of a file.  Its addresses are user addresses, which fit the
56-bit `addr` field of a record. -/
structure Mapping where
  addr : Nat
  len : Nat
  fits : addr + len < 2 ^ 56

/-- `[a, a + n)` lies in the mapping. -/
def Mapping.Contains (mp : Mapping) (a n : Nat) : Prop := mp.addr ≤ a ∧ a + n ≤ mp.addr + mp.len

instance (mp : Mapping) (a n : Nat) : Decidable (mp.Contains a n) := by
  unfold Mapping.Contains; infer_instance

/-! ## records as recovery reads them -/

/-- A range with the bytes it held. -/
structure SavedRange where
  addr : Nat
  old : List UInt8
deriving DecidableEq, Repr

/-- The saved range as an undo record. -/
def SavedRange.record (r : SavedRange) : UndoLog.Record Nat UInt8 where
  dom := { x | r.addr ≤ x ∧ x < r.addr + r.old.length }
  old x := r.old.getD (x - r.addr) 0

/-- The record at an offset of a log area. -/
def savedAt (a : LogLayout) (off : Nat) : SavedRange :=
  ⟨Log.entryAddr a.content off, Log.entryContent a.content off⟩

/-- All records the scan of `recover` finds. -/
def savedRanges (a : LogLayout) : List SavedRange := (entryOffsets a).map (savedAt a)

/-- Copying a record's content back restores the record. -/
theorem applyEntry_eq_restore (a : LogLayout) (mem : Mem) (off : Nat) :
    applyEntry a mem off = (savedAt a off).record.restore mem := by
  funext x
  by_cases h : x ∈ (savedAt a off).record.dom
  · rw [UndoLog.Record.restore_of_mem h]
    exact write_of_mem h
  · rw [UndoLog.Record.restore_of_notMem h]
    exact write_of_not_mem h

/-- **Replay is a rollback**: `recover` rolls back the records of a log that
start inside the mapping. -/
theorem undoLog_eq_rollback (a : LogLayout) (addr len : Nat) (mem : Mem) :
    undoLog a addr len mem = UndoLog.rollback
      (((savedRanges a).filter fun r => addr ≤ r.addr ∧ r.addr < addr + len).map
        SavedRange.record) mem := by
  have hentries : ((savedRanges a).filter fun r => addr ≤ r.addr ∧ r.addr < addr + len) =
      (logEntries a addr len).map (savedAt a) := by
    rw [savedRanges, List.filter_map]
    rfl
  have happly : applyEntry a = fun m off => (savedAt a off).record.restore m := by
    funext m off
    exact applyEntry_eq_restore a m off
  rw [hentries, undoLog, happly, List.foldl_reverse, UndoLog.rollback, List.foldr_map,
    List.foldr_map]

/-! ## the scan reads back what log_range wrote -/

/-- The bytes of `content` from `off` up to `stop` are the given records. -/
def Encodes (content : Mem) : Nat → List SavedRange → Nat → Prop
  | off, [], stop => off = stop
  | off, r :: rs, stop => Log.entryAddr content off = r.addr ∧
      Log.entryContent content off = r.old ∧
      Encodes content (off + (sizeofLogEntry + r.old.length)) rs stop

theorem Encodes.le {content : Mem} {off stop : Nat} {rs : List SavedRange}
    (h : Encodes content off rs stop) : off ≤ stop := by
  induction rs generalizing off with
  | nil => exact Nat.le_of_eq h
  | cons r rs ih =>
      have hle := ih h.2.2
      omega

/-- The size field of the first record is that of its content. -/
theorem Encodes.entryBytes_eq {content : Mem} {off stop : Nat} {r : SavedRange}
    {rs : List SavedRange} (h : Encodes content off (r :: rs) stop) :
    Log.entryBytes content off = r.old.length := by
  rw [← h.2.1, Log.entryContent, length_slice]

/-- A record occupies its header and its content, so what lies behind it
does not matter. -/
theorem entry_congr {content content' : Mem} {off : Nat}
    (h : ∀ x, x < off + (sizeofLogEntry + Log.entryBytes content off) → content' x = content x) :
    Log.entryAddr content' off = Log.entryAddr content off ∧
      Log.entryContent content' off = Log.entryContent content off := by
  have hsz : sizeofLogEntry = 10 := rfl
  have hbytes : Log.entryBytes content' off = Log.entryBytes content off := by
    rw [Log.entryBytes, slice_congr (fun x _ hx => h x (by omega)), Log.entryBytes]
  constructor
  · rw [Log.entryAddr, slice_congr (fun x _ hx => h x (by omega)), Log.entryAddr]
  · rw [Log.entryContent, hbytes, slice_congr (fun x _ hx => h x (by omega)), Log.entryContent]

theorem Encodes.congr {content content' : Mem} {off stop : Nat} {rs : List SavedRange}
    (h : Encodes content off rs stop) (hc : ∀ x, x < stop → content' x = content x) :
    Encodes content' off rs stop := by
  induction rs generalizing off with
  | nil => exact h
  | cons r rs ih =>
      have hlen := h.entryBytes_eq
      obtain ⟨haddr, hold, hrest⟩ := h
      have hle := hrest.le
      have hsame : ∀ x, x < off + (sizeofLogEntry + Log.entryBytes content off) →
          content' x = content x := fun x hx => hc x (by omega)
      have hentry := entry_congr hsame
      exact ⟨hentry.1.trans haddr, hentry.2.trans hold, ih hrest⟩

theorem Encodes.append {content : Mem} {off mid stop : Nat} {rs rs' : List SavedRange}
    (h : Encodes content off rs mid) (h' : Encodes content mid rs' stop) :
    Encodes content off (rs ++ rs') stop := by
  induction rs generalizing off with
  | nil => exact h ▸ h'
  | cons r rs ih => exact ⟨h.1, h.2.1, ih h.2.2⟩

/-- The offset and the size of every record, from an offset on. -/
def recordTiles : Nat → List SavedRange → List (Nat × Nat)
  | _, [] => []
  | off, r :: rs => (off, sizeofLogEntry + r.old.length) ::
      recordTiles (off + (sizeofLogEntry + r.old.length)) rs

section Records

variable {a : LogLayout} {content : Mem} {off stop : Nat} {rs : List SavedRange}

theorem Encodes.tiles (h : Encodes content off rs stop) :
    Tiling.Tiles off (recordTiles off rs) stop := by
  induction rs generalizing off with
  | nil => exact h
  | cons r rs ih => exact ⟨rfl, ih h.2.2⟩

/-- The size of a record is its header and what its length field says. -/
theorem Encodes.size_eq (h : Encodes content off rs stop) :
    ∀ x ∈ recordTiles off rs, x.2 = sizeofLogEntry + Log.entryBytes content x.1 := by
  induction rs generalizing off with
  | nil => simp [recordTiles]
  | cons r rs ih =>
      intro x hx
      cases List.mem_cons.mp hx with
      | inl heq => rw [heq, h.entryBytes_eq]
      | inr hmem => exact ih h.2.2 x hmem

/-- The records are found at their offsets. -/
theorem Encodes.map_savedAt (h : Encodes a.content off rs stop) :
    ((recordTiles off rs).map Prod.fst).map (savedAt a) = rs := by
  induction rs generalizing off with
  | nil => rfl
  | cons r rs ih =>
      obtain ⟨haddr, hold, hrest⟩ := h
      simp only [recordTiles, List.map_cons, ih hrest, savedAt, haddr, hold]

/-- **The rule for reading a log**: a walker that jumps over the header and the
content of a record finds all records and stops where they end. -/
theorem Encodes.walk_eq (h : Encodes a.content off rs stop) {more : Nat → Bool}
    {next : Nat → Nat} (hmore : ∀ i, i < stop → more i = true) (hstop : more stop = false)
    (hnext : ∀ i, next i = i + (sizeofLogEntry + Log.entryBytes a.content i)) {fuel : Nat}
    (hfuel : stop ≤ off + fuel) :
    (Tiling.walk more next fuel off).1.map (savedAt a) = rs ∧
      (Tiling.walk more next fuel off).2 = stop := by
  have hsz : 0 < sizeofLogEntry := by decide
  have hpos : ∀ x ∈ recordTiles off rs, 0 < x.2 := by
    intro x hx
    have hsize := h.size_eq x hx
    omega
  have hstep : ∀ x ∈ recordTiles off rs, more x.1 = true ∧ next x.1 = x.1 + x.2 := by
    intro x hx
    have hbounds := h.tiles.bounds x hx
    have hlen := hpos x hx
    rw [hnext, h.size_eq x hx]
    exact ⟨hmore x.1 (by omega), rfl⟩
  rw [h.tiles.walk_eq hstep hpos hstop hfuel]
  exact ⟨h.map_savedAt, rfl⟩

/-- The loop of `recover` reads the encoded records and stops where they end. -/
theorem Encodes.recoverLoop_eq (h : Encodes a.content 0 rs a.logOffset) :
    (recoverLoop a a.logOffset).1.map (savedAt a) = rs ∧
      (recoverLoop a a.logOffset).2 = a.logOffset :=
  h.walk_eq (fun i hi => by simpa using hi) (by simp) (fun i => by omega) (by omega)

theorem savedRanges_of_encodes (h : Encodes a.content 0 rs a.logOffset) : savedRanges a = rs :=
  h.recoverLoop_eq.1

end Records

section AppendRecord

variable (a : LogLayout) (mem : Mem) (start bytes : Nat)

/-- Appending a record keeps what lies below the tail. -/
theorem appendRecord_content_of_lt {x : Nat} (h : x < a.tailPtr) :
    (Log.appendRecord a mem start bytes).content x = a.content x := by
  simp only [Log.appendRecord]
  rw [write_of_not_mem (by omega), write_of_not_mem (by omega), write_of_not_mem (by omega)]

/-- The length field of an appended record has 23 bits. -/
theorem entryBytes_appendRecord_mod :
    Log.entryBytes (Log.appendRecord a mem start bytes).content a.tailPtr = bytes % 2 ^ 23 := by
  have hsz : sizeofLogEntry = 10 := rfl
  have hself := slice_write_self (write a.content (a.tailPtr + 3) (toLE 7 start)) a.tailPtr
    (toLE 3 ((a.content a.tailPtr).toNat % 2 + 2 * (bytes % 2 ^ 23)))
  rw [length_toLE] at hself
  rw [Log.entryBytes, Log.appendRecord, slice_write_disjoint (by omega), hself, ofLE_toLE]
  omega

/-- It reads back. -/
theorem entryBytes_appendRecord (hbytes : bytes < 2 ^ 23) :
    Log.entryBytes (Log.appendRecord a mem start bytes).content a.tailPtr = bytes := by
  rw [entryBytes_appendRecord_mod, Nat.mod_eq_of_lt hbytes]

/-- The address field of an appended record reads back. -/
theorem entryAddr_appendRecord (hstart : start < 2 ^ 56) :
    Log.entryAddr (Log.appendRecord a mem start bytes).content a.tailPtr = start := by
  have hsz : sizeofLogEntry = 10 := rfl
  have hself := slice_write_self a.content (a.tailPtr + 3) (toLE 7 start)
  rw [length_toLE] at hself
  have hlen : (toLE 3 ((a.content a.tailPtr).toNat % 2 + 2 * (bytes % 2 ^ 23))).length = 3 :=
    length_toLE _ _
  rw [Log.entryAddr, Log.appendRecord, slice_write_disjoint (by omega),
    slice_write_disjoint (by omega), hself, ofLE_toLE, Nat.mod_eq_of_lt (by omega)]

/-- The content of an appended record reads back. -/
theorem entryContent_appendRecord (hbytes : bytes < 2 ^ 23) :
    Log.entryContent (Log.appendRecord a mem start bytes).content a.tailPtr =
      slice mem start bytes := by
  have hself := slice_write_self (write (write a.content (a.tailPtr + 3) (toLE 7 start)) a.tailPtr
    (toLE 3 ((a.content a.tailPtr).toNat % 2 + 2 * (bytes % 2 ^ 23))))
    (a.tailPtr + sizeofLogEntry) (slice mem start bytes)
  rw [length_slice] at hself
  rw [Log.entryContent, entryBytes_appendRecord a mem start bytes hbytes, Log.appendRecord, hself]

/-- An area that encodes records encodes one more after `log_range`. -/
theorem encodes_appendRecord {rs : List SavedRange} (h : Encodes a.content 0 rs a.logOffset)
    (htail : a.tailPtr = a.logOffset) (hstart : start < 2 ^ 56) (hbytes : bytes < 2 ^ 23) :
    Encodes (Log.appendRecord a mem start bytes).content 0
      (rs ++ [⟨start, slice mem start bytes⟩]) (Log.appendRecord a mem start bytes).logOffset := by
  have hold : Encodes (Log.appendRecord a mem start bytes).content 0 rs a.tailPtr := by
    rw [htail]
    exact h.congr fun x hx => appendRecord_content_of_lt a mem start bytes (by omega)
  refine hold.append ⟨entryAddr_appendRecord a mem start bytes hstart,
    entryContent_appendRecord a mem start bytes hbytes, ?_⟩
  simp only [Encodes, length_slice, Log.appendRecord]
  omega

end AppendRecord

/-! ## logging -/

/-- A saved range covers its addresses. -/
theorem mem_covered_of_mem {rs : List SavedRange} {r : SavedRange} {x : Nat} (hr : r ∈ rs)
    (hx : r.addr ≤ x ∧ x < r.addr + r.old.length) :
    x ∈ UndoLog.covered (rs.map SavedRange.record) :=
  ⟨r.record, List.mem_map_of_mem hr, hx⟩

/-- The log of thread `t` is well formed: the area encodes the records `rs`,
and the last range, which suppresses duplicates, is one of them. -/
structure LogWf (t : Nat) (p : Process) (l : Log) (rs : List SavedRange) : Prop where
  log : p.logs[t]? = some l
  tail_eq : (p.pm.area t).tailPtr = (p.pm.area t).logOffset
  encodes : Encodes (p.pm.area t).content 0 rs (p.pm.area t).logOffset
  last : l.lastLog = ⟨0, 0⟩ ∨ ∃ r ∈ rs, l.lastLog = ⟨r.addr, r.old.length⟩

/-- The log of thread `t` on the way from memory `m₀`: memory was written under
the logging discipline with its records. -/
structure LogInv (t : Nat) (m₀ : Mem) (p : Process) (l : Log) (rs : List SavedRange) : Prop
    extends LogWf t p l rs where
  logged : UndoLog.Logged m₀ (rs.map SavedRange.record) p.mem

theorem LogWf.of_cleared {t : Nat} {p : Process} {l : Log} (hl : p.logs[t]? = some l)
    (h : l.Cleared (p.pm.area t)) : LogWf t p l [] where
  log := hl
  tail_eq := by rw [h.tailPtr, h.logOffset]
  encodes := h.logOffset.symm
  last := .inl h.lastLog

theorem LogInv.of_cleared {t : Nat} {p : Process} {l : Log} (hl : p.logs[t]? = some l)
    (h : l.Cleared (p.pm.area t)) : LogInv t p.mem p l [] :=
  ⟨.of_cleared hl h, .start⟩

section Logging

variable {cfg : Config} {t : Nat} {m₀ : Mem} {p : Process} {l : Log} {rs : List SavedRange}
  {start bytes : Nat}

/-- A suppressed duplicate is covered by the log already. -/
theorem LogWf.covered_of_duplicate (h : LogWf t p l rs)
    (hdup : l.IsDuplicate cfg.logFormat start bytes) {x : Nat}
    (hx : start ≤ x ∧ x < start + bytes) : x ∈ UndoLog.covered (rs.map SavedRange.record) := by
  have hlast := hdup.2
  cases h.last with
  | inl hzero =>
      rw [hzero, LogEntryLean.mk.injEq] at hlast
      omega
  | inr hex =>
      obtain ⟨r, hr, heq⟩ := hex
      rw [heq, LogEntryLean.mk.injEq] at hlast
      exact mem_covered_of_mem hr (by omega)

/-- A suppressed duplicate adds no record. -/
theorem LogWf.logRange_of_duplicate (h : LogWf t p l rs) (hcxl : cfg.cxlModeEnabled = true)
    (hdup : l.IsDuplicate cfg.logFormat start bytes) :
    ∃ l', LogWf t (p.logRange cfg t start bytes) l' rs := by
  have hpm : (p.logRange cfg t start bytes).pm = p.pm := by
    rw [Process.logRange_pm hcxl h.log, if_pos hdup]
  refine ⟨_, Process.logRange_log hcxl h.log start bytes, ?_, ?_, ?_⟩
  · rw [hpm]
    exact h.tail_eq
  · rw [hpm]
    exact h.encodes
  · have heq := hdup.2
    rw [Log.lastLog_logRange, hdup.1, ← heq]
    exact h.last

/-- Any other call adds the record of what the range holds. -/
theorem LogWf.logRange_of_not_duplicate (h : LogWf t p l rs) (hcxl : cfg.cxlModeEnabled = true)
    (hstart : start < 2 ^ 56) (hbytes : bytes < 2 ^ 23)
    (hdup : ¬ l.IsDuplicate cfg.logFormat start bytes) :
    ∃ l', LogWf t (p.logRange cfg t start bytes) l'
      (rs ++ [⟨start, slice p.mem start bytes⟩]) := by
  have hlen : (slice p.mem start bytes).length = bytes := length_slice _ _ _
  have harea : (p.logRange cfg t start bytes).pm.area t =
      Log.appendRecord (p.pm.area t) p.mem start bytes := by
    rw [Process.logRange_pm hcxl h.log, if_neg hdup, PmImage.updateArea_area_self]
  refine ⟨_, Process.logRange_log hcxl h.log start bytes, ?_, ?_, ?_⟩
  · rw [harea]
    simp only [Log.appendRecord, h.tail_eq]
  · rw [harea]
    exact encodes_appendRecord _ _ _ _ h.encodes h.tail_eq hstart hbytes
  · rw [Log.lastLog_logRange]
    cases hfmt : cfg.logFormat with
    | volatile => exact .inr ⟨_, List.mem_append_right _ (List.mem_singleton_self _), by rw [hlen]⟩
    | nonVolatile =>
        cases h.last with
        | inl hzero => exact .inl hzero
        | inr hex =>
            obtain ⟨r, hr, heq⟩ := hex
            exact .inr ⟨r, List.mem_append_left _ hr, heq⟩

/-- The record of a range holds what memory holds. -/
theorem record_slice {mem : Mem} {x : Nat}
    (hx : x ∈ (SavedRange.mk start (slice mem start bytes)).record.dom) :
    (SavedRange.mk start (slice mem start bytes)).record.old x = mem x := by
  have hx' : start ≤ x ∧ x < start + (slice mem start bytes).length := hx
  rw [length_slice] at hx'
  have hget := getD_slice mem start (show x - start < bytes by omega)
  rw [Nat.add_sub_cancel' hx'.1] at hget
  exact hget

/-- What a record of a range adds to the covered addresses. -/
theorem covered_append_range (rs : List SavedRange) (mem : Mem) (start bytes : Nat) :
    UndoLog.covered ((rs ++ [(⟨start, slice mem start bytes⟩ : SavedRange)]).map
        SavedRange.record) =
      UndoLog.covered (rs.map SavedRange.record) ∪ { x | start ≤ x ∧ x < start + bytes } := by
  rw [List.map_append, UndoLog.covered_append]
  congr 1
  ext x
  simp [UndoLog.covered, SavedRange.record]

/-- **One call of `log_range`** keeps the invariant, adds no record but that
of its range, and covers its range. -/
theorem LogInv.logRange (h : LogInv t m₀ p l rs) (hcxl : cfg.cxlModeEnabled = true)
    (hstart : start < 2 ^ 56) (hbytes : bytes < 2 ^ 23) :
    ∃ l' rs', LogInv t m₀ (p.logRange cfg t start bytes) l' rs' ∧
      (∀ r ∈ rs', r ∈ rs ∨ r = ⟨start, slice p.mem start bytes⟩) ∧
      UndoLog.covered (rs'.map SavedRange.record) =
        UndoLog.covered (rs.map SavedRange.record) ∪ { x | start ≤ x ∧ x < start + bytes } := by
  by_cases hdup : l.IsDuplicate cfg.logFormat start bytes
  · obtain ⟨l', hwf⟩ := h.toLogWf.logRange_of_duplicate hcxl hdup
    refine ⟨l', rs, ⟨hwf, ?_⟩, fun r hr => .inl hr, ?_⟩
    · rw [Process.logRange_mem]
      exact h.logged
    · rw [Set.union_eq_self_of_subset_right]
      exact fun x hx => h.toLogWf.covered_of_duplicate hdup hx
  · obtain ⟨l', hwf⟩ := h.toLogWf.logRange_of_not_duplicate hcxl hstart hbytes hdup
    refine ⟨l', _, ⟨hwf, ?_⟩, fun r hr => by simpa using hr, covered_append_range _ _ _ _⟩
    rw [List.map_append, Process.logRange_mem]
    exact h.logged.save (fun x hx => record_slice hx) fun x _ => rfl

/-- A write to covered addresses keeps it. -/
theorem LogInv.write (h : LogInv t m₀ p l rs) {addr : Nat} {data : List UInt8}
    (hcov : ∀ x, addr ≤ x ∧ x < addr + data.length →
      x ∈ UndoLog.covered (rs.map SavedRange.record)) :
    LogInv t m₀ { p with mem := ByteMem.write p.mem addr data } l rs where
  toLogWf := ⟨h.log, h.tail_eq, h.encodes, h.last⟩
  logged := h.logged.skip hcov fun _ hx => write_of_not_mem hx

end Logging

/-! ## runs of tracked stores -/

/-- What holds after the stores `done` on memory `m₀`: the records lie in the
mapping and cover the stores. -/
structure UndoInv (mp : Mapping) (t : Nat) (m₀ : Mem) (done : List Process.Store) (p : Process)
    (l : Log) (rs : List SavedRange) : Prop extends LogInv t m₀ p l rs where
  inside : ∀ r ∈ rs, mp.Contains r.addr r.old.length
  covers : ∀ s ∈ done, ∀ x, s.Covers x → x ∈ UndoLog.covered (rs.map SavedRange.record)

section Run

variable {cfg : Config} {mp : Mapping} {t : Nat} {m₀ : Mem} {done : List Process.Store}
  {p : Process} {l : Log} {rs : List SavedRange}

theorem UndoInv.of_cleared (hl : p.logs[t]? = some l) (h : l.Cleared (p.pm.area t)) :
    UndoInv mp t p.mem [] p l [] :=
  ⟨.of_cleared hl h, by simp, by simp⟩

/-- **One store keeps the invariant.** -/
theorem UndoInv.store (h : UndoInv mp t m₀ done p l rs) (hcxl : cfg.cxlModeEnabled = true)
    {s : Process.Store} (hs : mp.Contains s.addr s.data.length) (hlen : s.data.length < 2 ^ 22) :
    ∃ l' rs', UndoInv mp t m₀ (done ++ [s]) (p.store cfg t s) l' rs' := by
  have haddr : s.addr < 2 ^ 56 := by
    have hfits := mp.fits
    unfold Mapping.Contains at hs
    omega
  obtain ⟨l', rs', hlog, hmem, hcov⟩ := h.toLogInv.logRange hcxl haddr
    (show s.data.length < 2 ^ 23 by omega)
  have hnew : ∀ x, s.Covers x → x ∈ UndoLog.covered (rs'.map SavedRange.record) := by
    intro x hx
    rw [hcov]
    exact .inr hx
  refine ⟨l', rs', hlog.write hnew, ?_, ?_⟩
  · intro r hr
    cases hmem r hr with
    | inl hold => exact h.inside r hold
    | inr heq =>
        rw [heq, length_slice]
        exact hs
  · intro s' hs' x hx
    cases List.mem_append.mp hs' with
    | inl hold =>
        rw [hcov]
        exact .inl (h.covers s' hold x hx)
    | inr hlast =>
        rw [List.mem_singleton.mp hlast] at hx
        exact hnew x hx

/-- **Every run of stores keeps the invariant.** -/
theorem UndoInv.stores (h : UndoInv mp t m₀ done p l rs) (hcxl : cfg.cxlModeEnabled = true)
    {ss : List Process.Store}
    (hss : ∀ s ∈ ss, mp.Contains s.addr s.data.length ∧ s.data.length < 2 ^ 22) :
    ∃ l' rs', UndoInv mp t m₀ (done ++ ss) (p.stores cfg t ss) l' rs' := by
  induction ss generalizing done p l rs with
  | nil => exact ⟨l, rs, by simpa [Process.stores] using h⟩
  | cons s ss ih =>
      have hs := hss s List.mem_cons_self
      obtain ⟨l₁, rs₁, h₁⟩ := h.store hcxl hs.1 hs.2
      obtain ⟨l', rs', h'⟩ := ih h₁ fun s' hs' => hss s' (List.mem_cons_of_mem _ hs')
      rw [List.append_assoc] at h'
      exact ⟨l', rs', h'⟩

end Run

/-- **Undo-log correctness**: after any tracked stores inside one mapping,
the scan and the reverse-order replay of `recover` give back the memory the
stores started on, from every memory that differs from it on stored ranges
only. -/
theorem undoLog_stores {cfg : Config} (hcxl : cfg.cxlModeEnabled = true) (mp : Mapping)
    {t : Nat} {p : Process} {l : Log} (hl : p.logs[t]? = some l) (hclr : l.Cleared (p.pm.area t))
    (ss : List Process.Store)
    (hss : ∀ s ∈ ss, mp.Contains s.addr s.data.length ∧ s.data.length < 2 ^ 22)
    (X : Mem) (hX : ∀ x, (∀ s ∈ ss, ¬ s.Covers x) → X x = p.mem x) :
    undoLog ((p.stores cfg t ss).pm.area t) mp.addr mp.len X = p.mem := by
  have hinit : UndoInv mp t p.mem [] p l [] := .of_cleared hl hclr
  obtain ⟨l', rs, hinv⟩ := hinit.stores hcxl hss
  have hempty : ∀ r ∈ rs, decide (mp.addr ≤ r.addr ∧ r.addr < mp.addr + mp.len) = false →
      r.record.dom = ∅ := by
    intro r hr hout
    have hin := hinv.inside r hr
    unfold Mapping.Contains at hin
    rw [decide_eq_false_iff_not] at hout
    refine Set.eq_empty_of_forall_notMem fun x hx => ?_
    have hx' : r.addr ≤ x ∧ x < r.addr + r.old.length := hx
    omega
  rw [undoLog_eq_rollback, savedRanges_of_encodes hinv.encodes,
    UndoLog.rollback_map_filter _ _ _ _ hempty]
  refine hinv.logged.rollback_eq fun x hx => hX x fun s hs hcov => hx ?_
  exact hinv.covers s (by simpa using hs) x hcov

/-- Two overlapping stores, replayed on the memory they leave. -/
theorem undoLog_two_stores : undoLog ((Process.stores .default 0
      (.single (fun _ => 7) fun _ => 7)
      [⟨2 ^ 40, [1, 2, 3, 4]⟩, ⟨2 ^ 40 + 2, [5, 6, 8, 9]⟩]).pm.area 0) (2 ^ 40) 4096
      (write (fun _ => 7) (2 ^ 40) [1, 2, 5, 6, 8, 9]) = fun _ => 7 :=
  undoLog_stores rfl ⟨2 ^ 40, 4096, by decide⟩ (p := .single (fun _ => 7) fun _ => 7) rfl
    (Log.cleared_fresh 1)
    [⟨2 ^ 40, [1, 2, 3, 4]⟩, ⟨2 ^ 40 + 2, [5, 6, 8, 9]⟩] (by decide) _ (by
      intro x hx
      have h₁ := hx _ List.mem_cons_self
      have h₂ := hx _ (List.mem_cons_of_mem _ List.mem_cons_self)
      simp only [Process.Store.Covers, List.length_cons, List.length_nil] at h₁ h₂
      exact write_of_not_mem (by simp only [List.length_cons, List.length_nil]; omega))

end Cxlbuf
