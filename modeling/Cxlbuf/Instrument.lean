import Cxlbuf.Lib.Run
import Cxlbuf.Recovery.Undo

/-!
# Cxlbuf.Instrument

The runtime side of the instrumentation: `checkMemory`, which the compiler
pass calls before a store, and the interposed `memcpy`, `memmove` and `memset`.
The libc calls log the range they write.  `checkMemory` gets the pointer only
and logs eight bytes, whatever the width of the store.

A write is a call of `log_range`, if its test finds one necessary, followed by
the write itself (`perform_eq`).  It may lie anywhere: bytes outside the tracked
region are written without a record, so the logging discipline is followed on
the region only (`RegionInv`).

`oldInLog` is what the log says a byte held.  Along runs of writes that find
their bytes in the region logged (`WriteTracked`), it is what the byte held when
the log was last cleared (`RegionInv.oldInLog_eq_iff`), and a store finds all
its bytes in the log exactly when those beyond the eighth were there before.
-/

namespace Cxlbuf

open ByteMem

/-! ## the calls -/

/-- `addr_in_range`.  The end of the region is included. -/
def addrInRange (cfg : Config) (addr : Nat) : Prop := cfg.startAddr ≤ addr ∧ addr ≤ cfg.endAddr

instance (cfg : Config) (addr : Nat) : Decidable (addrInRange cfg addr) :=
  inferInstanceAs (Decidable (_ ∧ _))

namespace Process

/-- `checkMemory`, called by the thread that owns log `t`. -/
def checkMemory (cfg : Config) (startTracking : Bool) (t : Nat) (p : Process) (ptr : Nat) :
    Process :=
  if startTracking then
    if cfg.startAddr ≤ ptr ∧ ptr < cfg.endAddr then p.logRange cfg t ptr 8 else p
  else p

/-- A store instruction with the call the pass puts before it. -/
def instrumentedStore (cfg : Config) (startTracking : Bool) (t : Nat) (p : Process) (s : Store) :
    Process :=
  let q := p.checkMemory cfg startTracking t s.addr
  { q with mem := write q.mem s.addr s.data }

/-- `memcpy` and `memmove`, with the bytes they copy. -/
def memcpy (cfg : Config) (startTracking : Bool) (t : Nat) (p : Process) (s : Store) : Process :=
  let q := if startTracking ∧ cfg.startAddr ≠ 0 ∧ addrInRange cfg s.addr then
      p.logRange cfg t s.addr s.data.length
    else p
  { q with mem := write q.mem s.addr s.data }

/-- `memset`, with the bytes it sets. -/
def memset (cfg : Config) (startTracking : Bool) (t : Nat) (p : Process) (s : Store) : Process :=
  let q := if addrInRange cfg s.addr ∨ addrInRange cfg (s.addr + s.data.length) then
      if startTracking then p.logRange cfg t s.addr s.data.length else p
    else p
  { q with mem := write q.mem s.addr s.data }

end Process

/-- The ways in which an instrumented program writes memory. -/
inductive Write where
  | store (s : Process.Store)
  | memcpy (s : Process.Store)
  | memset (s : Process.Store)

/-- One write with tracking on, by the thread that owns log `t`. -/
def Process.perform (cfg : Config) (t : Nat) (p : Process) : Write → Option Process
  | .store s => some (p.instrumentedStore cfg true t s)
  | .memcpy s => some (p.memcpy cfg true t s)
  | .memset s => some (p.memset cfg true t s)

/-! ## a write as a call of log_range and a store -/

namespace Write

/-- The bytes a write writes. -/
def written : Write → Process.Store
  | .store s | .memcpy s | .memset s => s

/-- The test that finds it tracked. -/
def Tested (cfg : Config) : Write → Prop
  | .store s => cfg.startAddr ≤ s.addr ∧ s.addr < cfg.endAddr
  | .memcpy s => cfg.startAddr ≠ 0 ∧ addrInRange cfg s.addr
  | .memset s => addrInRange cfg s.addr ∨ addrInRange cfg (s.addr + s.data.length)

instance (cfg : Config) (w : Write) : Decidable (w.Tested cfg) := by
  cases w <;> unfold Tested <;> infer_instance

/-- The range it passes to `log_range` then. -/
def range : Write → LogEntryLean
  | .store s => ⟨s.addr, 8⟩
  | .memcpy s | .memset s => ⟨s.addr, s.data.length⟩

end Write

/-- The process when a write has called `log_range`, before anything is
written. -/
def Process.logWrite (cfg : Config) (t : Nat) (p : Process) (w : Write) : Process :=
  if w.Tested cfg then p.logRange cfg t w.range.addr w.range.bytes else p

theorem Process.logWrite_mem (cfg : Config) (t : Nat) (p : Process) (w : Write) :
    (p.logWrite cfg t w).mem = p.mem := by
  unfold logWrite
  split <;> simp [logRange_mem]

/-- **What a write does.** -/
theorem perform_eq (cfg : Config) (t : Nat) (p : Process) (w : Write) :
    p.perform cfg t w = some { p.logWrite cfg t w with
      mem := write p.mem w.written.addr w.written.data } := by
  rw [← Process.logWrite_mem cfg t p w]
  cases w with
  | store s =>
      simp only [Process.perform, Process.instrumentedStore, Process.checkMemory, if_true,
        Process.logWrite, Write.Tested, Write.range, Write.written]
  | memcpy s =>
      simp only [Process.perform, Process.memcpy, true_and, Process.logWrite, Write.Tested,
        Write.range, Write.written]
  | memset s =>
      simp only [Process.perform, Process.memset, if_true, Process.logWrite, Write.Tested,
        Write.range, Write.written]

/-! ## what the log says -/

/-- What the log says a byte held: the content of the oldest record that
covers it, which is the one a rollback restores last. -/
def oldInLog (a : LogLayout) (x : Nat) : Option UInt8 :=
  ((savedRanges a).find? fun r => r.addr ≤ x ∧ x < r.addr + r.old.length).map
    fun r => r.old.getD (x - r.addr) 0

section Log

variable {t : Nat} {p : Process} {l : Log} {rs : List SavedRange}

/-- The log says something about the bytes it covers. -/
theorem LogWf.isSome_oldInLog (h : LogWf t p l rs) {x : Nat} :
    (oldInLog (p.pm.area t) x).isSome ↔ x ∈ UndoLog.covered (rs.map SavedRange.record) := by
  rw [oldInLog, savedRanges_of_encodes h.encodes, Option.isSome_map, List.find?_isSome]
  simp [UndoLog.covered, SavedRange.record]

/-- What it says is what a rollback gives them. -/
theorem LogWf.oldInLog_eq (h : LogWf t p l rs) {x : Nat}
    (hx : x ∈ UndoLog.covered (rs.map SavedRange.record)) (m : Mem) :
    oldInLog (p.pm.area t) x =
      some (UndoLog.rollback (rs.map SavedRange.record) m x) := by
  obtain ⟨v, hv⟩ := Option.isSome_iff_exists.mp (h.isSome_oldInLog.mpr hx)
  rw [hv]
  rw [oldInLog, savedRanges_of_encodes h.encodes, Option.map_eq_some_iff] at hv
  obtain ⟨r, hfind, rfl⟩ := hv
  obtain ⟨hr, pre, post, rfl, hpre⟩ := List.find?_eq_some_iff_append.mp hfind
  have hfirst : x ∉ UndoLog.covered (pre.map SavedRange.record) := by
    simp only [UndoLog.covered, SavedRange.record, List.mem_map, Set.mem_ofPred_eq]
    grind
  have hdom : r.addr ≤ x ∧ x < r.addr + r.old.length := of_decide_eq_true hr
  rw [List.map_append, List.map_cons,
    UndoLog.rollback_apply (pre.map SavedRange.record) r.record (post.map SavedRange.record)
      hfirst hdom m]
  rfl

end Log

/-! ## the region is tracked -/

/-- The tracked region. -/
def Config.region (cfg : Config) : Set Nat := { x | cfg.startAddr ≤ x ∧ x < cfg.endAddr }

/-- The addresses a write passes to `log_range`. -/
def Write.loggedSet (cfg : Config) (w : Write) : Set Nat :=
  { x | w.Tested cfg ∧ w.range.addr ≤ x ∧ x < w.range.addr + w.range.bytes }

/-- What a write passes to `log_range` is a user address, and less than the
`2 ^ 22` bytes that `log_range` asserts. -/
def Write.Fits (cfg : Config) (w : Write) : Prop :=
  w.Tested cfg → w.range.addr < 2 ^ 56 ∧ w.range.bytes < 2 ^ 22

/-- The log of thread `t` on the way from memory `m₀`: it is well formed, and
the discipline was followed on the tracked region. -/
structure RegionInv (cfg : Config) (t : Nat) (m₀ : Mem) (p : Process) (l : Log)
    (rs : List SavedRange) : Prop extends LogWf t p l rs where
  tracked : UndoLog.LoggedOn cfg.region m₀ (rs.map SavedRange.record) p.mem

/-- A write, wherever it goes, that finds its bytes in the region logged. -/
def WriteTracked (cfg : Config) (t : Nat) (p : Process) (w : Write) : Prop :=
  w.Fits cfg ∧ ∀ x, w.written.Covers x → x ∈ cfg.region →
    (oldInLog ((p.logWrite cfg t w).pm.area t) x).isSome

section Runs

variable {cfg : Config} {t : Nat} {m₀ : Mem} {p : Process} {l : Log} {rs : List SavedRange}
  {w : Write}

theorem RegionInv.of_cleared (hl : p.logs[t]? = some l) (h : l.Cleared (p.pm.area t)) :
    RegionInv cfg t p.mem p l [] :=
  ⟨.of_cleared hl h, .start _ _⟩

/-- A byte of the region that the log covers is logged with what it held. -/
theorem RegionInv.oldInLog_eq_iff (h : RegionInv cfg t m₀ p l rs) {x : Nat}
    (hx : x ∈ cfg.region) : oldInLog (p.pm.area t) x = some (m₀ x) ↔
      x ∈ UndoLog.covered (rs.map SavedRange.record) := by
  constructor
  · intro hold
    rw [← h.isSome_oldInLog, hold]
    rfl
  · intro hcov
    rw [h.oldInLog_eq hcov p.mem, h.tracked.oldest x hx hcov]

/-- One call of `log_range` covers its range. -/
theorem RegionInv.logRange (h : RegionInv cfg t m₀ p l rs) (hcxl : cfg.cxlModeEnabled = true)
    {start bytes : Nat} (hstart : start < 2 ^ 56) (hbytes : bytes < 2 ^ 23) :
    ∃ l' rs', RegionInv cfg t m₀ (p.logRange cfg t start bytes) l' rs' ∧
      UndoLog.covered (rs'.map SavedRange.record) =
        UndoLog.covered (rs.map SavedRange.record) ∪ { x | start ≤ x ∧ x < start + bytes } := by
  by_cases hdup : l.IsDuplicate cfg.logFormat start bytes
  · obtain ⟨l', hwf⟩ := h.toLogWf.logRange_of_duplicate hcxl hdup
    refine ⟨l', rs, ⟨hwf, ?_⟩, ?_⟩
    · rw [Process.logRange_mem]
      exact h.tracked
    · rw [Set.union_eq_self_of_subset_right]
      exact fun x hx => h.toLogWf.covered_of_duplicate hdup hx
  · obtain ⟨l', hwf⟩ := h.toLogWf.logRange_of_not_duplicate hcxl hstart hbytes hdup
    refine ⟨l', _, ⟨hwf, ?_⟩, covered_append_range _ _ _ _⟩
    rw [List.map_append, Process.logRange_mem]
    exact h.tracked.save fun x hx => record_slice hx

/-- What a write does to the log before anything is written. -/
theorem RegionInv.logWrite (h : RegionInv cfg t m₀ p l rs) (hcxl : cfg.cxlModeEnabled = true)
    (hfits : w.Fits cfg) :
    ∃ l' rs', RegionInv cfg t m₀ (p.logWrite cfg t w) l' rs' ∧
      UndoLog.covered (rs'.map SavedRange.record) =
        UndoLog.covered (rs.map SavedRange.record) ∪ w.loggedSet cfg := by
  by_cases htest : w.Tested cfg
  · obtain ⟨haddr, hlen⟩ := hfits htest
    obtain ⟨l', rs', hinv, hcov⟩ := h.logRange hcxl haddr (show w.range.bytes < 2 ^ 23 by omega)
    exact ⟨l', rs', by simpa [Process.logWrite, htest], by simpa [Write.loggedSet, htest]⟩
  · exact ⟨l, rs, by simpa [Process.logWrite, htest], by simp [Write.loggedSet, htest]⟩

/-- A write is tracked if it logs its bytes in the region. -/
theorem RegionInv.writeTracked (h : RegionInv cfg t m₀ p l rs) (hcxl : cfg.cxlModeEnabled = true)
    (hfits : w.Fits cfg)
    (hlogs : ∀ x, w.written.Covers x → x ∈ cfg.region → x ∈ w.loggedSet cfg) :
    WriteTracked cfg t p w := by
  obtain ⟨l', rs', hinv, hcov⟩ := h.logWrite hcxl hfits
  refine ⟨hfits, fun x hx hreg => ?_⟩
  rw [hinv.isSome_oldInLog, hcov]
  exact .inr (hlogs x hx hreg)

/-- A write that covers no unlogged byte of the region keeps the
discipline. -/
theorem RegionInv.write (h : RegionInv cfg t m₀ p l rs) {s : Process.Store}
    (hcov : ∀ x, s.Covers x → x ∈ cfg.region → x ∈ UndoLog.covered (rs.map SavedRange.record)) :
    RegionInv cfg t m₀ { p with mem := ByteMem.write p.mem s.addr s.data } l rs where
  toLogWf := ⟨h.log, h.tail_eq, h.encodes, h.last⟩
  tracked := h.tracked.write fun x hx hout =>
    write_of_not_mem fun hs => hout (hcov x hs hx)

/-- **One write** that finds its bytes logged keeps the discipline. -/
theorem RegionInv.perform (h : RegionInv cfg t m₀ p l rs) (hcxl : cfg.cxlModeEnabled = true)
    (hw : WriteTracked cfg t p w) :
    ∃ q, p.perform cfg t w = some q ∧ ∃ l' rs', RegionInv cfg t m₀ q l' rs' := by
  obtain ⟨l', rs', hinv, -⟩ := h.logWrite hcxl hw.1
  refine ⟨_, perform_eq cfg t p w, l', rs', ?_⟩
  rw [← Process.logWrite_mem cfg t p w]
  exact hinv.write fun x hx hreg => hinv.isSome_oldInLog.mp (hw.2 x hx hreg)

/-- **So does every run.** -/
theorem keeps_regionInv (hcxl : cfg.cxlModeEnabled = true) (t : Nat) (m₀ : Mem) :
    Run.Keeps (Process.perform cfg t) (fun p => ∃ l rs, RegionInv cfg t m₀ p l rs)
      (WriteTracked cfg t) :=
  fun _ _ ⟨_, _, h⟩ hw => h.perform hcxl hw

/-! ## stores -/

/-- With eight bytes more, a set covers a store if it covers the rest of it. -/
theorem covers_union_iff {s : Process.Store} {C : Set Nat} :
    (∀ x, s.Covers x → x ∈ C ∪ { x | s.addr ≤ x ∧ x < s.addr + 8 }) ↔
      ∀ x, s.addr + 8 ≤ x → x < s.addr + s.data.length → x ∈ C := by
  constructor
  · intro hall x hlo hhi
    cases hall x ⟨by omega, hhi⟩ with
    | inl hold => exact hold
    | inr hnew => have hlt := hnew.2; omega
  · intro hall x hx
    by_cases h8 : x < s.addr + 8
    · exact .inr ⟨hx.1, h8⟩
    · exact .inl (hall x (by omega) hx.2)

/-- A store finds its bytes in the log exactly when those beyond the eighth
were there before. -/
theorem RegionInv.covered_iff (h : RegionInv cfg t m₀ p l rs) (hcxl : cfg.cxlModeEnabled = true)
    {s : Process.Store} (hs : cfg.Tracks s.addr s.data.length) :
    (∀ x, s.Covers x →
      oldInLog ((p.checkMemory cfg true t s.addr).pm.area t) x = some (m₀ x)) ↔
      ∀ x, s.addr + 8 ≤ x → x < s.addr + s.data.length → (oldInLog (p.pm.area t) x).isSome := by
  by_cases hpos : 0 < s.data.length
  · have hptr : cfg.startAddr ≤ s.addr ∧ s.addr < cfg.endAddr := by
      unfold Config.Tracks at hs
      omega
    have hreg (x : Nat) (hx : s.Covers x) : x ∈ cfg.region :=
      ⟨Nat.le_trans hs.1 hx.1, Nat.lt_of_lt_of_le hx.2 hs.2⟩
    have hend := cfg.end_le
    obtain ⟨l', rs', hinv, hcov⟩ := h.logRange hcxl (show s.addr < 2 ^ 56 by omega)
      (show 8 < 2 ^ 23 by decide)
    have hcheck : p.checkMemory cfg true t s.addr = p.logRange cfg t s.addr 8 := by
      rw [Process.checkMemory, if_pos rfl, if_pos hptr]
    have hiff : (∀ x, s.Covers x →
        oldInLog ((p.checkMemory cfg true t s.addr).pm.area t) x = some (m₀ x)) ↔
        ∀ x, s.Covers x → x ∈ UndoLog.covered (rs'.map SavedRange.record) := by
      rw [hcheck]
      exact forall₂_congr fun x hx => hinv.oldInLog_eq_iff (hreg x hx)
    rw [hiff]
    simp only [hcov, h.isSome_oldInLog]
    exact covers_union_iff
  · constructor
    · intro _ x hlo hhi
      omega
    · intro _ x hx
      unfold Process.Store.Covers at hx
      omega

/-- **When an instrumented store is covered**: along every run of writes that
found their bytes in the region logged, a store of any width finds what its
bytes held when the log was cleared in the log, exactly when the log has those
beyond the eighth before the call. -/
theorem store_covered_iff (hcxl : cfg.cxlModeEnabled = true) (hl : p.logs[t]? = some l)
    (hclr : l.Cleared (p.pm.area t)) {ws : List Write}
    (hws : Run.Guarded (Process.perform cfg t) (WriteTracked cfg t) p ws) {q : Process}
    (hq : Run.run (Process.perform cfg t) p ws = some q) {s : Process.Store}
    (hs : cfg.Tracks s.addr s.data.length) :
    (∀ x, s.Covers x →
      oldInLog ((q.checkMemory cfg true t s.addr).pm.area t) x = some (p.mem x)) ↔
      ∀ x, s.addr + 8 ≤ x → x < s.addr + s.data.length → (oldInLog (q.pm.area t) x).isSome := by
  obtain ⟨q', hq', l', rs, hinv⟩ :=
    (keeps_regionInv hcxl t p.mem).run ⟨l, [], .of_cleared hl hclr⟩ hws
  obtain rfl : q = q' := Option.some.inj (hq.symm.trans hq')
  exact hinv.covered_iff hcxl hs

end Runs

/-- A 16-byte store on a cleared log: the call before it logs eight bytes,
and the log has nothing on the other eight. -/
theorem store16_not_covered :
    Config.default.cxlModeEnabled = true ∧ Config.default.Tracks 0x10000000000 16 ∧
      ¬ ∀ x, (⟨0x10000000000, List.replicate 16 1⟩ : Process.Store).Covers x →
        oldInLog (((Process.single (fun _ => 7) fun _ => 7).checkMemory .default true 0
          0x10000000000).pm.area 0) x = some 7 := by
  refine ⟨rfl, by decide, fun hall => ?_⟩
  have hx := hall 0x10000000008 (by decide)
  revert hx
  decide

/-- The same store after a `memset` of its range. -/
theorem store16_covered_after_memset :
    ∃ q, Run.run (Process.perform .default 0) (.single (fun _ => 7) fun _ => 7)
        [.memset ⟨0x10000000000, List.replicate 16 0⟩] = some q ∧
      ∀ x, (⟨0x10000000000, List.replicate 16 1⟩ : Process.Store).Covers x →
        oldInLog ((q.checkMemory .default true 0 0x10000000000).pm.area 0) x = some 7 := by
  have hinv : RegionInv .default 0 (Process.single (fun _ => 7) fun _ => 7).mem
      (.single (fun _ => 7) fun _ => 7) (Log.fresh 1) [] := .of_cleared rfl (Log.cleared_fresh 1)
  have htracked : WriteTracked .default 0 (.single (fun _ => 7) fun _ => 7)
      (.memset ⟨0x10000000000, List.replicate 16 0⟩) :=
    hinv.writeTracked rfl (fun _ => by decide) fun x hx _ => ⟨by decide, hx⟩
  have hguard : Run.Guarded (Process.perform .default 0) (WriteTracked .default 0)
      (.single (fun _ => 7) fun _ => 7) [.memset ⟨0x10000000000, List.replicate 16 0⟩] :=
    ⟨htracked, fun _ _ => trivial⟩
  have hlogged : ∀ i, i < 8 → (oldInLog (((Process.single (fun _ => 7) fun _ => 7).memset
      .default true 0 ⟨0x10000000000, List.replicate 16 0⟩).pm.area 0)
      (0x10000000008 + i)).isSome := by decide
  refine ⟨_, rfl, (store_covered_iff rfl rfl (Log.cleared_fresh 1) hguard rfl (by decide)).mpr ?_⟩
  intro x hlo hhi
  simp only [List.length_replicate] at hlo hhi
  have hx := hlogged (x - 0x10000000008) (by omega)
  rw [show 0x10000000008 + (x - 0x10000000008) = x by omega] at hx
  exact hx

end Cxlbuf
