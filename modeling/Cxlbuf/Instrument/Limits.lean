import Cxlbuf.Instrument.Libc

/-!
# Cxlbuf.Instrument.Limits

How much a log can hold.  The length field of a record has 23 bits, and
`init_thread_buf` allocates `bufSz` bytes for the log file (more are mapped,
but there is no file behind them).  `log_range` compares its argument with
neither: the assertion that it is below `2 ^ 22` is compiled in debug builds
only, and nothing looks at how full the log is.

Between two snapshots the records of a thread are written one behind the
other, so whether they are all within the limits depends on the ranges that
were recorded, their lengths and the total (`withinLimits_from`).
-/

namespace Cxlbuf

open ByteMem Run

/-! ## limits -/

/-- `BUF_SZ`, the size of a log file. -/
def bufSz : Nat := 128 * 2 ^ 20

/-- The record a call of `log_range` writes: its length field says how many
bytes of content follow, and it lies inside the log file. -/
def RecordOk (cfg : Config) (t : Nat) (p : Process) (start bytes : Nat) : Prop :=
  Log.entryBytes ((p.logRange cfg t start bytes).pm.area t).content (p.pm.area t).tailPtr =
      bytes ∧
    sizeofLogLayout + (p.pm.area t).tailPtr + (sizeofLogEntry + bytes) ≤ bufSz

/-- The write makes a record: the mode is on, the write is tracked, and its
range does not repeat the last one. -/
def Write.Records (cfg : Config) (l : Log) (w : Write) : Prop :=
  (cfg.cxlModeEnabled = true ∧ w.Tested cfg) ∧
    ¬ l.IsDuplicate cfg.logFormat w.range.addr w.range.bytes

/-- The record a write makes, if it makes one, is within the limits. -/
def WithinLimits (cfg : Config) (t : Nat) (p : Process) (w : Write) : Prop :=
  ∀ l, p.logs[t]? = some l → w.Records cfg l → RecordOk cfg t p w.range.addr w.range.bytes

/-! ## what is recorded -/

/-- The ranges that writes pass to `log_range` with the mode on. -/
def loggedRanges (cfg : Config) (ws : List Write) : List LogEntryLean :=
  (ws.filter fun w => cfg.cxlModeEnabled = true ∧ w.Tested cfg).map Write.range

/-- Those that are recorded: the volatile format leaves out one that repeats
the one before. -/
def recorded (fmt : LogFormat) : LogEntryLean → List LogEntryLean → List LogEntryLean
  | _, [] => []
  | last, r :: rs =>
      if fmt = .volatile ∧ last = r then recorded fmt last rs else r :: recorded fmt r rs

/-- The bytes that records of the ranges take. -/
def recordsSize : List LogEntryLean → Nat
  | [] => 0
  | r :: rs => sizeofLogEntry + r.bytes + recordsSize rs

/-- The other format records everything. -/
theorem recorded_nonVolatile (last : LogEntryLean) (rs : List LogEntryLean) :
    recorded .nonVolatile last rs = rs := by
  induction rs generalizing last with
  | nil => rfl
  | cons r rs ih => simp [recorded, ih]

section Runs

variable {cfg : Config} {t : Nat} {p : Process} {l : Log}

/-- The length field is right up to 23 bits. -/
theorem recordOk_iff (hcxl : cfg.cxlModeEnabled = true) (hl : p.logs[t]? = some l)
    {start bytes : Nat} (hdup : ¬ l.IsDuplicate cfg.logFormat start bytes) :
    RecordOk cfg t p start bytes ↔ bytes < 2 ^ 23 ∧
      sizeofLogLayout + (p.pm.area t).tailPtr + (sizeofLogEntry + bytes) ≤ bufSz := by
  have hfield : bytes % 2 ^ 23 = bytes ↔ bytes < 2 ^ 23 := by omega
  rw [RecordOk, Process.logRange_pm hcxl hl, if_neg hdup, PmImage.updateArea_area_self,
    entryBytes_appendRecord_mod, hfield]

theorem withinLimits_step_iff (hl : p.logs[t]? = some l) (w : Write) :
    WithinLimits cfg t p w ↔ (w.Records cfg l → w.range.bytes < 2 ^ 23 ∧
      sizeofLogLayout + (p.pm.area t).tailPtr + (sizeofLogEntry + w.range.bytes) ≤ bufSz) := by
  constructor
  · intro h hrec
    exact (recordOk_iff hrec.1.1 hl hrec.2).mp (h l hl hrec)
  · intro h l' hl' hrec
    obtain rfl : l = l' := Option.some.inj (hl.symm.trans hl')
    exact (recordOk_iff hrec.1.1 hl hrec.2).mpr (h hrec)

/-- `perform` changes logs and log files through `logWrite` only. -/
theorem exists_perform (cfg : Config) (t : Nat) (p : Process) (w : Write) :
    ∃ q, p.perform cfg t w = some q ∧ q.logs = (p.logWrite cfg t w).logs ∧
      q.pm = (p.logWrite cfg t w).pm :=
  ⟨_, perform_eq cfg t p w, rfl, rfl⟩

/-- A write that makes a record moves the tail behind it, and its range is
the last one from then on. -/
theorem perform_of_records (hl : p.logs[t]? = some l) {w : Write} (hrec : w.Records cfg l) :
    ∃ q l', p.perform cfg t w = some q ∧ q.logs[t]? = some l' ∧
      (q.pm.area t).tailPtr = (p.pm.area t).tailPtr + (sizeofLogEntry + w.range.bytes) ∧
      ∀ rs, recorded cfg.logFormat l'.lastLog rs = recorded cfg.logFormat w.range rs := by
  obtain ⟨⟨hcxl, htest⟩, hdup⟩ := hrec
  obtain ⟨q, hq, hlogs, hpm⟩ := exists_perform cfg t p w
  rw [Process.logWrite, if_pos htest] at hlogs hpm
  have hlog := Process.logRange_log hcxl hl w.range.addr w.range.bytes
  refine ⟨q, _, hq, hlogs ▸ hlog, ?_, ?_⟩
  · simp only [hpm, Process.logRange_pm hcxl hl, if_neg hdup, PmImage.updateArea_area_self,
      Log.appendRecord]
  · intro rs
    rw [Log.lastLog_logRange]
    cases cfg.logFormat with
    | volatile => rfl
    | nonVolatile => rw [recorded_nonVolatile, recorded_nonVolatile]

/-- Any other write leaves the tail and the last range alone. -/
theorem perform_of_not_records (hl : p.logs[t]? = some l) {w : Write}
    (hrec : ¬ w.Records cfg l) : ∃ q l', p.perform cfg t w = some q ∧
      q.logs[t]? = some l' ∧ (q.pm.area t).tailPtr = (p.pm.area t).tailPtr ∧
      l'.lastLog = l.lastLog := by
  obtain ⟨q, hq, hlogs, hpm⟩ := exists_perform cfg t p w
  by_cases hcall : cfg.cxlModeEnabled = true ∧ w.Tested cfg
  · obtain ⟨hcxl, htest⟩ := hcall
    have hdup : l.IsDuplicate cfg.logFormat w.range.addr w.range.bytes := by
      simpa [Write.Records, hcxl, htest] using hrec
    rw [Process.logWrite, if_pos htest] at hlogs hpm
    have hlog := Process.logRange_log hcxl hl w.range.addr w.range.bytes
    refine ⟨q, _, hq, hlogs ▸ hlog, ?_, ?_⟩
    · rw [hpm, Process.logRange_pm hcxl hl, if_pos hdup]
    · rw [Log.lastLog_logRange, hdup.1, hdup.2]
  · -- the write is not tracked, or `log_range` does nothing
    have hnone : p.logWrite cfg t w = p := by
      by_cases htest : w.Tested cfg
      · have hcxl : ¬ cfg.cxlModeEnabled = true := fun hcxl => hcall ⟨hcxl, htest⟩
        simp [Process.logWrite, htest, Process.logRange, hl, hcxl]
      · simp [Process.logWrite, htest]
    rw [hnone] at hlogs hpm
    exact ⟨q, l, hq, hlogs ▸ hl, by rw [hpm], rfl⟩

/-- What a write adds to the recorded ranges. -/
theorem recorded_cons_of_records {w : Write} (hrec : w.Records cfg l) (ws : List Write) :
    recorded cfg.logFormat l.lastLog (loggedRanges cfg (w :: ws)) =
      w.range :: recorded cfg.logFormat w.range (loggedRanges cfg ws) := by
  have hranges : loggedRanges cfg (w :: ws) = w.range :: loggedRanges cfg ws := by
    simp [loggedRanges, hrec.1]
  rw [hranges, recorded]
  exact if_neg hrec.2

theorem recorded_cons_of_not_records {w : Write} (hrec : ¬ w.Records cfg l) (ws : List Write) :
    recorded cfg.logFormat l.lastLog (loggedRanges cfg (w :: ws)) =
      recorded cfg.logFormat l.lastLog (loggedRanges cfg ws) := by
  by_cases hcall : cfg.cxlModeEnabled = true ∧ w.Tested cfg
  · have hdup : l.IsDuplicate cfg.logFormat w.range.addr w.range.bytes := by
      simpa [Write.Records, hcall] using hrec
    have hranges : loggedRanges cfg (w :: ws) = w.range :: loggedRanges cfg ws := by
      simp [loggedRanges, hcall]
    rw [hranges, recorded]
    exact if_pos hdup
  · simp [loggedRanges, hcall]

/-- **When a run of writes stays within the limits**, from any state: every
record is short enough for its length field, and the last one ends inside the
file. -/
theorem withinLimits_from (hl : p.logs[t]? = some l) (ws : List Write) :
    Guarded (Process.perform cfg t) (WithinLimits cfg t) p ws ↔
      (∀ r ∈ recorded cfg.logFormat l.lastLog (loggedRanges cfg ws), r.bytes < 2 ^ 23) ∧
        (recorded cfg.logFormat l.lastLog (loggedRanges cfg ws) ≠ [] →
          sizeofLogLayout + (p.pm.area t).tailPtr +
            recordsSize (recorded cfg.logFormat l.lastLog (loggedRanges cfg ws)) ≤ bufSz) := by
  induction ws generalizing p l with
  | nil => simp [Guarded, loggedRanges, recorded]
  | cons w ws ih =>
      have hsplit {q : Process} (hq : p.perform cfg t w = some q) :
          Guarded (Process.perform cfg t) (WithinLimits cfg t) p (w :: ws) ↔
            WithinLimits cfg t p w ∧ Guarded (Process.perform cfg t) (WithinLimits cfg t) q ws := by
        simp [Guarded, hq]
      by_cases hrec : w.Records cfg l
      · obtain ⟨q, l', hq, hl', htail, hlast⟩ := perform_of_records hl hrec
        rw [hsplit hq, withinLimits_step_iff hl, ih hl', htail, hlast,
          recorded_cons_of_records hrec]
        generalize recorded cfg.logFormat w.range (loggedRanges cfg ws) = later
        simp only [hrec, forall_const, List.forall_mem_cons, recordsSize, ne_eq,
          List.cons_ne_nil, not_false_eq_true]
        -- the end of the last record is the largest
        cases later with
        | nil => simp [recordsSize]
        | cons r rs =>
            simp only [List.cons_ne_nil, not_false_eq_true, forall_const]
            grind
      · obtain ⟨q, l', hq, hl', htail, hlast⟩ := perform_of_not_records hl hrec
        rw [hsplit hq, withinLimits_step_iff hl, ih hl', htail, hlast,
          recorded_cons_of_not_records hrec]
        simp only [hrec, false_imp_iff, true_and]

/-- **When the log stays within its limits**: for every sequence of writes
on a cleared log, every record's length field is the number of bytes that
follow and every record lies inside the log file, exactly when each recorded
range is shorter than `2 ^ 23` bytes and they fit in the file together. -/
theorem withinLimits_iff (hl : p.logs[t]? = some l) (hclr : l.Cleared (p.pm.area t))
    (ws : List Write) :
    Guarded (Process.perform cfg t) (WithinLimits cfg t) p ws ↔
      (∀ r ∈ recorded cfg.logFormat ⟨0, 0⟩ (loggedRanges cfg ws), r.bytes < 2 ^ 23) ∧
        sizeofLogLayout + recordsSize (recorded cfg.logFormat ⟨0, 0⟩ (loggedRanges cfg ws)) ≤
          bufSz := by
  rw [withinLimits_from hl, hclr.lastLog, hclr.tailPtr, Nat.add_zero]
  refine and_congr_right fun _ => ?_
  generalize recorded cfg.logFormat ⟨0, 0⟩ (loggedRanges cfg ws) = rs
  cases rs with
  | nil => simp [recordsSize, sizeofLogLayout, bufSz]
  | cons r rs => simp

end Runs

/-- Two small writes. -/
theorem withinLimits_two_writes :
    Guarded (Process.perform .default 0) (WithinLimits .default 0)
      (.single (fun _ => 7) fun _ => 7)
      [.memset ⟨0x10000000000, List.replicate 16 0⟩, .store ⟨0x10000000000, [1]⟩] := by
  have hlog : (Process.single (fun _ => 7) fun _ => 7).logs[0]? = some (Log.fresh 1) := rfl
  exact (withinLimits_iff hlog (Log.cleared_fresh 1) _).mpr (by decide)

/-- A range of `2 ^ 23` bytes is recorded with a length of 0. -/
theorem not_withinLimits_of_length {data : List UInt8} (hlen : data.length = 2 ^ 23) :
    Log.entryBytes (((Process.single (fun _ => 7) fun _ => 7).logWrite .default 0
        (.memset ⟨0x10000000000, data⟩)).pm.area 0).content 0 = 0 ∧
      ¬ WithinLimits .default 0 (.single (fun _ => 7) fun _ => 7)
        (.memset ⟨0x10000000000, data⟩) := by
  have hcxl : Config.default.cxlModeEnabled = true := rfl
  have hlog : (Process.single (fun _ => 7) fun _ => 7).logs[0]? = some (Log.fresh 1) := rfl
  have hrange : (Write.memset ⟨0x10000000000, data⟩).range = ⟨0x10000000000, 2 ^ 23⟩ := by
    rw [← hlen]
    rfl
  have haddr : addrInRange .default 0x10000000000 := by decide
  have htest : (Write.memset ⟨0x10000000000, data⟩).Tested .default := .inl haddr
  have hdup : ¬ (Log.fresh 1).IsDuplicate Config.default.logFormat 0x10000000000 (2 ^ 23) := by
    decide
  have hrec : (Write.memset ⟨0x10000000000, data⟩).Records .default (Log.fresh 1) :=
    ⟨⟨hcxl, htest⟩, by rw [hrange]; exact hdup⟩
  constructor
  · rw [Process.logWrite, if_pos htest, hrange, Process.logRange_pm hcxl hlog, if_neg hdup,
      PmImage.updateArea_area_self]
    exact entryBytes_appendRecord_mod _ _ _ _
  · rw [withinLimits_step_iff hlog, hrange]
    intro hall
    exact absurd (hall hrec).1 (lt_irrefl _)

/-- A `memset` of 8 MiB: its record says that it has no content. -/
theorem memset_8MiB_not_withinLimits :
    Log.entryBytes (((Process.single (fun _ => 7) fun _ => 7).logWrite .default 0
        (.memset ⟨0x10000000000, List.replicate (2 ^ 23) 0⟩)).pm.area 0).content 0 = 0 ∧
      ¬ WithinLimits .default 0 (.single (fun _ => 7) fun _ => 7)
        (.memset ⟨0x10000000000, List.replicate (2 ^ 23) 0⟩) :=
  not_withinLimits_of_length List.length_replicate

end Cxlbuf
