import Mathlib.Data.Set.Basic
import Cxlbuf.Lib.Run
import Cxlbuf.Snapshot.Spec

/-!
# Cxlbuf.Snapshot.Runs

Runs of tracked stores and snapshots by a single thread.  What carries them
is that every tracked byte on which memory and the backing file differ is
covered by an entry of the log, or is left to the first snapshot (`LogCovers`).
A store keeps this; a snapshot clears the whole log, so it keeps this only if it
copies every dirty byte, although it selects entries by their start address
(`LogCovers.snapshot`).

The last section compares the two log formats.  `snapshot` resets
`log_offset` before it walks the log, so the non-volatile format copies
nothing.
-/

namespace Cxlbuf

open ByteMem

/-- Where a tracked address lives in the backing file. -/
def image (cfg : Config) (x : Nat) : Nat := cfg.backingFileStart + (x - cfg.startAddr)

/-- Memory and the backing file differ at a tracked address. -/
def Dirty (cfg : Config) (p : Process) (x : Nat) : Prop :=
  cfg.Tracks x 1 ∧ p.mem x ≠ p.pm.backing (image cfg x)

/-- The entry covers an address. -/
def LogEntryLean.Covers (e : LogEntryLean) (x : Nat) : Prop := e.addr ≤ x ∧ x < e.addr + e.bytes

/-! ## calls -/

/-- What a thread does: a tracked store or a snapshot. -/
inductive Call where
  | store (s : Process.Store)
  | snapshot (addr bytes : Nat)

/-- One call, by the thread that owns the first log. -/
def Process.call (cfg : Config) (p : Process) : Call → Option Process
  | .store s => some (p.store cfg 0 s)
  | .snapshot addr bytes => Cxlbuf.snapshot cfg addr bytes p

/-- Stores are to the tracked region; a snapshot leaves no entry behind that
covers a dirty byte. -/
def CallOk (cfg : Config) (p : Process) : Call → Prop
  | .store s => cfg.Tracks s.addr s.data.length
  | .snapshot addr bytes => ∀ l ∈ p.logs, ∀ e ∈ l.entries,
      (∃ x, e.Covers x ∧ Dirty cfg p x) → InRange addr bytes e

/-- The entries of the log start in the region, and cover every byte that is
out of date, but for those in `pending`, which the first snapshot will copy. -/
structure LogCovers (cfg : Config) (pending : Set Nat) (p : Process) : Prop where
  log : ∃ l, p.logs = [l] ∧ (∀ e ∈ l.entries, cfg.Tracks e.addr 0) ∧
    (p.storeInstEnabled = false → l.entries = []) ∧
    ∀ x, Dirty cfg p x → x ∈ pending ∨ ∃ e ∈ l.entries, e.Covers x

/-- What runs of a single thread maintain once the first snapshot is taken. -/
structure RunInv (cfg : Config) (p : Process) : Prop extends LogCovers cfg ∅ p where
  first : p.firstSnapshot = false

section Runs

variable {cfg : Config} {p : Process} {pending : Set Nat}

/-- The image of a covered tracked byte lies in the entry's window. -/
theorem inWindow_image {e : LogEntryLean} {x : Nat} (himg : HasImage cfg e)
    (hstart : cfg.startAddr ≤ e.addr) (hx : e.Covers x) : InWindow cfg e (image cfg x) := by
  have hdst := dstAddr_add_startAddr himg
  unfold LogEntryLean.Covers at hx
  apply inWindow_of_mem
  unfold image
  omega

/-- A dirty byte was dirty before, if neither side of it was written. -/
theorem Dirty.of_eq {q : Process} {x : Nat} (h : Dirty cfg q x) (hmem : q.mem x = p.mem x)
    (hback : q.pm.backing (image cfg x) = p.pm.backing (image cfg x)) : Dirty cfg p x := by
  refine ⟨h.1, ?_⟩
  rw [← hmem, ← hback]
  exact h.2

/-- Going to the backing file and back gives a tracked address again. -/
theorem image_add_sub {x : Nat} (hx : cfg.Tracks x 1) :
    image cfg x + cfg.startAddr - cfg.backingFileStart = x := by
  have hstart := hx.1
  unfold image
  omega

/-- `log_range` on a range that starts in the region. -/
theorem LogCovers.logRange (h : LogCovers cfg pending p) (hvol : cfg.logFormat = .volatile)
    (hcxl : cfg.cxlModeEnabled = true) {start : Nat} (hstart : cfg.Tracks start 0) (bytes : Nat) :
    LogCovers cfg pending (p.logRange cfg 0 start bytes) ∧
      ∀ l ∈ (p.logRange cfg 0 start bytes).logs, ⟨start, bytes⟩ ∈ l.entries := by
  obtain ⟨l, hlogs, htr, -, hdirty⟩ := h.log
  obtain ⟨⟨l', hlogs', hentries⟩, -, hinst, -, -⟩ := Process.logRange_single hcxl hlogs start bytes
  simp only [hvol] at hentries
  refine ⟨⟨l', hlogs', ?_, ?_, ?_⟩, ?_⟩
  · intro e he
    rw [hentries, List.mem_append, List.mem_singleton] at he
    cases he with
    | inl he => exact htr e he
    | inr he => rw [he]; exact hstart
  · intro hfalse
    rw [hinst] at hfalse
    cases hfalse
  · intro x hx
    have hold : Dirty cfg p x :=
      hx.of_eq (by rw [Process.logRange_mem]) (by rw [Process.logRange_backing])
    rw [hentries]
    refine (hdirty x hold).imp_right fun ⟨e, he, hcov⟩ => ⟨e, List.mem_append_left _ he, hcov⟩
  · intro k hk
    rw [hlogs', List.mem_singleton] at hk
    simp [hk, hentries]

/-- A write to bytes that the entries cover. -/
theorem LogCovers.write (h : LogCovers cfg pending p) {s : Process.Store}
    (hcov : ∀ x, s.Covers x → ∀ l ∈ p.logs, ∃ e ∈ l.entries, e.Covers x) :
    LogCovers cfg pending { p with mem := ByteMem.write p.mem s.addr s.data } := by
  obtain ⟨l, hlogs, htr, hinst, hdirty⟩ := h.log
  refine ⟨l, hlogs, htr, hinst, fun x hx => ?_⟩
  by_cases hin : s.Covers x
  · exact .inr (hcov x hin l (by simp [hlogs]))
  · exact hdirty x (hx.of_eq (write_of_not_mem hin) rfl)

theorem RunInv.store (h : RunInv cfg p) (hvol : cfg.logFormat = .volatile)
    (hcxl : cfg.cxlModeEnabled = true) {s : Process.Store}
    (hs : cfg.Tracks s.addr s.data.length) : RunInv cfg (p.store cfg 0 s) := by
  obtain ⟨l, hlogs, -⟩ := h.log
  obtain ⟨-, hfirst, -⟩ := Process.store_single hcxl hlogs s
  obtain ⟨hlog, hmem⟩ := h.toLogCovers.logRange hvol hcxl hs.start s.data.length
  exact ⟨hlog.write fun x hx l hl => ⟨_, hmem l hl, hx⟩, hfirst.trans h.first⟩

theorem RunInv.stores (h : RunInv cfg p) (hvol : cfg.logFormat = .volatile)
    (hcxl : cfg.cxlModeEnabled = true) {ss : List Process.Store}
    (hss : ∀ s ∈ ss, cfg.Tracks s.addr s.data.length) : RunInv cfg (p.stores cfg 0 ss) := by
  induction ss generalizing p with
  | nil => exact h
  | cons s ss ih =>
      exact ih (h.store hvol hcxl (hss s List.mem_cons_self))
        fun s' hs' => hss s' (List.mem_cons_of_mem _ hs')

/-- A call of `snapshot` at an address copies what is left to it. -/
structure BulkCopies (cfg : Config) (pending : Set Nat) (p : Process) (addr : Nat) : Prop where
  enabled : ∀ x ∈ pending, p.storeInstEnabled = true
  image_eq : ∀ x, cfg.Tracks x 1 → bulkBacking cfg addr p (image cfg x) = p.mem x ∨
    bulkBacking cfg addr p (image cfg x) = p.pm.backing (image cfg x) ∧ x ∉ pending

/-- After the first snapshot nothing is. -/
theorem bulkCopies_of_not_first (h : p.firstSnapshot = false) (addr : Nat) :
    BulkCopies cfg ∅ p addr := by
  refine ⟨fun x hx => absurd hx (Set.notMem_empty x), fun x _ => .inr ⟨?_, Set.notMem_empty x⟩⟩
  rw [bulkBacking_of_not_first h]

/-- After a snapshot that leaves no entry with a dirty byte behind, no byte
is dirty. -/
theorem LogCovers.not_dirty_snapshot (h : LogCovers cfg pending p)
    (hvol : cfg.logFormat = .volatile) {addr bytes : Nat}
    (hbulk : BulkCopies cfg pending p addr) (hok : CallOk cfg p (.snapshot addr bytes))
    {q : Process} (hq : Cxlbuf.snapshot cfg addr bytes p = some q) (x : Nat) :
    ¬ Dirty cfg q x := by
  obtain ⟨l, hlogs, htr, hinst, hdirty⟩ := h.log
  rw [snapshot_eq, Option.some.injEq] at hq
  subst hq
  intro hx
  cases hi : p.storeInstEnabled with
  | false =>
      -- nothing was logged, so nothing can be dirty
      have hdp : Dirty cfg p x := hx.of_eq rfl (by simp [snapshotOps, hi])
      obtain hpend | ⟨e, he, -⟩ := hdirty x hdp
      · have htrue := hbulk.enabled x hpend
        rw [hi] at htrue
        cases htrue
      · rw [hinst hi] at he
        cases he
  | true =>
      have hwalk := hasImage_of_mem_walked hvol htr
      have hback := snapshot_backing cfg addr bytes hlogs hi hwalk (image cfg x)
      rw [image_add_sub hx.1] at hback
      by_cases hin : ∃ e ∈ walked cfg l, InRange addr bytes e ∧ InWindow cfg e (image cfg x)
      · rw [if_pos hin] at hback
        exact hx.2 hback.symm
      · rw [if_neg hin] at hback
        obtain hnew | ⟨hold, hnot⟩ := hbulk.image_eq x hx.1
        · exact hx.2 (hback.trans hnew).symm
        · have hdp : Dirty cfg p x := hx.of_eq rfl (hback.trans hold)
          obtain ⟨e, he, hcov⟩ := (hdirty x hdp).resolve_left hnot
          have hr := hok l (by rw [hlogs]; exact List.mem_cons_self) e he ⟨x, hcov, hdp⟩
          exact hin ⟨e, (mem_walked hvol l).mpr he, hr,
            inWindow_image (.of_tracks (htr e he)) (htr e he).1 hcov⟩

/-- **A snapshot that leaves no entry with a dirty byte behind** brings the
backing file up to date. -/
theorem LogCovers.snapshot (h : LogCovers cfg pending p) (hvol : cfg.logFormat = .volatile)
    {addr bytes : Nat} (hbulk : BulkCopies cfg pending p addr)
    (hok : CallOk cfg p (.snapshot addr bytes)) :
    ∃ q, Cxlbuf.snapshot cfg addr bytes p = some q ∧ LogCovers cfg ∅ q ∧
      (∀ l ∈ q.logs, l.entries = []) ∧ ∀ x, ¬ Dirty cfg q x := by
  obtain ⟨l, hlogs, htr, hinst, -⟩ := h.log
  have hq := snapshot_eq cfg addr bytes p
  have hclean := h.not_dirty_snapshot hvol hbulk hok hq
  have hempty : ∃ k, (if p.storeInstEnabled then p.logs.map Log.clear else p.logs) = [k] ∧
      k.entries = [] := by
    cases hi : p.storeInstEnabled with
    | false => exact ⟨l, by simp [hlogs], hinst hi⟩
    | true => exact ⟨l.clear, by simp [hlogs], rfl⟩
  obtain ⟨k, hk, hnil⟩ := hempty
  refine ⟨_, hq, ⟨k, hk, by simp [hnil], fun _ => hnil, fun x hx => absurd hx (hclean x)⟩, ?_,
    hclean⟩
  intro k' hk'
  have hmem : k' ∈ [k] := hk ▸ hk'
  rw [List.mem_singleton.mp hmem, hnil]

theorem RunInv.snapshot (h : RunInv cfg p) (hvol : cfg.logFormat = .volatile) {addr bytes : Nat}
    (hok : CallOk cfg p (.snapshot addr bytes)) :
    ∃ q, Cxlbuf.snapshot cfg addr bytes p = some q ∧ RunInv cfg q ∧ ∀ x, ¬ Dirty cfg q x := by
  obtain ⟨q, hq, hlog, -, hclean⟩ :=
    h.toLogCovers.snapshot hvol (bulkCopies_of_not_first h.first addr) hok
  refine ⟨q, hq, ⟨hlog, ?_⟩, hclean⟩
  rw [snapshot_eq, Option.some.injEq] at hq
  rw [← hq]
  simp [h.first]

/-- The process has one log, which is empty, and has taken its first snapshot;
memory equals the backing file on the tracked region. -/
structure Fresh (cfg : Config) (p : Process) (l : Log) : Prop where
  logs : p.logs = [l]
  entries : l.entries = []
  first : p.firstSnapshot = false
  synced : ∀ x, ¬ Dirty cfg p x

theorem RunInv.of_fresh {l : Log} (h : Fresh cfg p l) : RunInv cfg p where
  log := ⟨l, h.logs, by simp [h.entries], fun _ => h.entries, fun x hx => absurd hx (h.synced x)⟩
  first := h.first

theorem fresh_single : Fresh cfg (.single (fun _ => 0) fun _ => 0) (Log.fresh 1) :=
  ⟨rfl, rfl, rfl, fun _ hx => hx.2 rfl⟩

/-- Every call that meets its condition completes and keeps the invariant. -/
theorem keeps_runInv (hvol : cfg.logFormat = .volatile) (hcxl : cfg.cxlModeEnabled = true) :
    Run.Keeps (Process.call cfg) (RunInv cfg) (CallOk cfg) := by
  intro p c h hok
  cases c with
  | store s => exact ⟨_, rfl, h.store hvol hcxl hok⟩
  | snapshot addr bytes =>
      obtain ⟨q, hq, hinv, -⟩ := h.snapshot hvol hok
      exact ⟨q, hq, hinv⟩

/-- **No lost update**: in every run whose snapshots leave no entry with a
dirty byte behind, a snapshot brings its range of the backing file up to
date, whatever ranges the earlier ones had. -/
theorem no_lost_update (hvol : cfg.logFormat = .volatile) (hcxl : cfg.cxlModeEnabled = true)
    {l : Log} (hfresh : Fresh cfg p l) (pre : List Call) (addr bytes : Nat)
    (hok : Run.Guarded (Process.call cfg) (CallOk cfg) p (pre ++ [.snapshot addr bytes])) :
    ∃ q, Run.run (Process.call cfg) p (pre ++ [.snapshot addr bytes]) = some q ∧
      ∀ x, cfg.Tracks x 1 → addr ≤ x → x < addr + bytes →
        q.pm.backing (image cfg x) = q.mem x := by
  obtain ⟨hpre, hlast⟩ := Run.guarded_append.mp hok
  obtain ⟨q₀, hq₀, hinv⟩ := (keeps_runInv hvol hcxl).run (RunInv.of_fresh hfresh) hpre
  obtain ⟨q, hq, -, hclean⟩ := hinv.snapshot hvol (hlast q₀ hq₀).1
  refine ⟨q, ?_, ?_⟩
  · rw [Run.run_append, hq₀, Option.bind_some, Run.run_cons]
    simp [Process.call, hq]
  · intro x hx _ _
    by_contra hne
    exact hclean x ⟨hx, fun heq => hne heq.symm⟩

end Runs

/-- A thread that has stored eight bytes, takes a snapshot of another page
and then one of both: the second finds the log empty. -/
theorem lost_update_two_pages : Fresh .default (.single (fun _ => 0) fun _ => 0) (Log.fresh 1) ∧
    ∃ q, Run.run (Process.call .default) (.single (fun _ => 0) fun _ => 0)
      [.store ⟨0x10000000000, [1, 2, 3, 4, 5, 6, 7, 8]⟩, .snapshot 0x10000001000 0x1000,
        .snapshot 0x10000000000 0x2000] = some q ∧
      Config.default.Tracks 0x10000000000 1 ∧
      q.pm.backing (image .default 0x10000000000) ≠ q.mem 0x10000000000 := by
  refine ⟨fresh_single, _, rfl, ?_⟩
  decide

/-- A store and a snapshot of its page. -/
theorem no_lost_update_one_page :
    ∃ q, Run.run (Process.call .default) (.single (fun _ => 0) fun _ => 0)
      ([.store ⟨0x10000000000, [1, 2, 3, 4, 5, 6, 7, 8]⟩] ++
        [.snapshot 0x10000000000 0x1000]) = some q ∧
      ∀ x, Config.default.Tracks x 1 → 0x10000000000 ≤ x → x < 0x10000000000 + 0x1000 →
        q.pm.backing (image .default x) = q.mem x := by
  refine no_lost_update rfl rfl fresh_single _ _ _ ?_
  have htracks : Config.default.Tracks 0x10000000000 8 := by decide
  refine ⟨htracks, fun s' hs' => ?_⟩
  cases hs'
  refine ⟨?_, fun _ _ => trivial⟩
  have hrange : ∀ l ∈ (Process.store .default 0 (.single (fun _ => 0) fun _ => 0)
      ⟨0x10000000000, [1, 2, 3, 4, 5, 6, 7, 8]⟩).logs, ∀ e ∈ l.entries,
      InRange 0x10000000000 0x1000 e := by decide
  exact fun l hl e he _ => hrange l hl e he

/-! ## the two log formats -/

section Formats

variable {cfg : Config} {p : Process} {l : Log}

/-- The bulk copy depends on memory, the mappings and the backing file. -/
theorem bulkBacking_congr {cfg' : Config} {q : Process} (addr : Nat)
    (hcfg : cfg'.backingFileStart = cfg.backingFileStart)
    (hfirst : q.firstSnapshot = p.firstSnapshot) (hmem : q.mem = p.mem)
    (hmapped : q.mappedAddr = p.mappedAddr)
    (hsize : q.fileSize = p.fileSize) (hback : q.pm.backing = p.pm.backing) :
    bulkBacking cfg' addr q = bulkBacking cfg addr p := by
  have hcopy : bulkCopy cfg' q addr = bulkCopy cfg p addr := by
    simp only [bulkCopy, hcfg, hmapped, hsize]
  funext y
  simp only [bulkBacking, hcopy, hfirst, hmem, hback]

/-- A call on a process with one log completes with this backing file. -/
theorem snapshot_single_backing (hlogs : p.logs = [l]) (hinst : p.storeInstEnabled = true)
    (himg : ∀ e ∈ walked cfg l, HasImage cfg e) (addr bytes : Nat) :
    ∃ q, snapshot cfg addr bytes p = some q ∧ ∀ y, q.pm.backing y =
      if ∃ e ∈ walked cfg l, InRange addr bytes e ∧ InWindow cfg e y then
        p.mem (y + cfg.startAddr - cfg.backingFileStart)
      else bulkBacking cfg addr p y :=
  ⟨_, snapshot_eq cfg addr bytes p, snapshot_backing cfg addr bytes hlogs hinst himg⟩

/-- Stores leave the same memory, backing file and mappings in every build. -/
theorem bulkBacking_stores (hcxl : cfg.cxlModeEnabled = true) (hlogs : p.logs = [l])
    (ss : List Process.Store) (fmt : LogFormat) (addr : Nat) :
    bulkBacking (cfg.withFormat fmt) addr (p.stores (cfg.withFormat fmt) 0 ss) =
      bulkBacking cfg addr (p.stores cfg 0 ss) := by
  have hcxl' : (cfg.withFormat fmt).cxlModeEnabled = true := hcxl
  obtain ⟨-, hfirst, -, hmapped, hsize⟩ := Process.stores_single hcxl hlogs ss
  obtain ⟨-, hfirst', -, hmapped', hsize'⟩ := Process.stores_single hcxl' hlogs ss
  refine bulkBacking_congr addr rfl ?_ ?_ ?_ ?_ ?_
  · rw [hfirst, hfirst']
  · rw [Process.stores_mem, Process.stores_mem]
  · rw [hmapped, hmapped']
  · rw [hsize, hsize']
  · rw [Process.stores_backing, Process.stores_backing]

/-- The volatile format copies the windows of the stores in range. -/
theorem snapshot_volatile (hcxl : cfg.cxlModeEnabled = true) (hlogs : p.logs = [l])
    (hempty : l.entries = []) {ss : List Process.Store}
    (hss : ∀ s ∈ ss, cfg.Tracks s.addr s.data.length)
    (hinst : (p.storeInstEnabled || !ss.isEmpty) = true) (addr bytes : Nat) :
    ∃ q, snapshot (cfg.withFormat .volatile) addr bytes
        (p.stores (cfg.withFormat .volatile) 0 ss) = some q ∧
      ∀ y, q.pm.backing y =
        if ∃ s ∈ ss, InRange addr bytes s.range ∧ InWindow cfg s.range y then
          (p.stores cfg 0 ss).mem (y + cfg.startAddr - cfg.backingFileStart)
        else bulkBacking cfg addr (p.stores cfg 0 ss) y := by
  have hcxl' : (cfg.withFormat .volatile).cxlModeEnabled = true := hcxl
  obtain ⟨⟨l', hlogs', hentries⟩, -, hinst', -, -⟩ := Process.stores_single hcxl' hlogs ss
  have hentries' : l'.entries = ss.map Process.Store.range := by
    rw [hentries, hempty]
    rfl
  have hwalk (e : LogEntryLean) : e ∈ walked (cfg.withFormat .volatile) l' ↔
      ∃ s ∈ ss, s.range = e := by
    rw [mem_walked rfl, hentries', List.mem_map]
  have himg : ∀ e ∈ walked (cfg.withFormat .volatile) l',
      HasImage (cfg.withFormat .volatile) e := by
    intro e he
    obtain ⟨s, hs, rfl⟩ := (hwalk e).mp he
    exact HasImage.of_tracks (hss s hs).start
  obtain ⟨q, hq, hback⟩ := snapshot_single_backing hlogs' (hinst'.trans hinst) himg addr bytes
  refine ⟨q, hq, fun y => ?_⟩
  have hiff : (∃ e ∈ walked (cfg.withFormat .volatile) l', InRange addr bytes e ∧
      InWindow (cfg.withFormat .volatile) e y) ↔
      ∃ s ∈ ss, InRange addr bytes s.range ∧ InWindow cfg s.range y := by
    constructor
    · intro hex
      obtain ⟨e, he, hr, hw⟩ := hex
      obtain ⟨s, hs, rfl⟩ := (hwalk e).mp he
      exact ⟨s, hs, hr, hw⟩
    · intro hex
      obtain ⟨s, hs, hr, hw⟩ := hex
      exact ⟨s.range, (hwalk _).mpr ⟨s, hs, rfl⟩, hr, hw⟩
  rw [hback y, bulkBacking_stores hcxl hlogs, Process.stores_mem, Process.stores_mem]
  simp only [hiff]
  rfl

/-- The non-volatile format copies nothing but a first snapshot's bulk. -/
theorem snapshot_nonVolatile (hcxl : cfg.cxlModeEnabled = true) (hlogs : p.logs = [l])
    {ss : List Process.Store} (hinst : (p.storeInstEnabled || !ss.isEmpty) = true)
    (addr bytes : Nat) :
    ∃ q, snapshot (cfg.withFormat .nonVolatile) addr bytes
        (p.stores (cfg.withFormat .nonVolatile) 0 ss) = some q ∧
      ∀ y, q.pm.backing y = bulkBacking cfg addr (p.stores cfg 0 ss) y := by
  have hcxl' : (cfg.withFormat .nonVolatile).cxlModeEnabled = true := hcxl
  obtain ⟨⟨l', hlogs', -⟩, -, hinst', -, -⟩ := Process.stores_single hcxl' hlogs ss
  have hnone : walked (cfg.withFormat .nonVolatile) l' = [] := rfl
  have himg : ∀ e ∈ walked (cfg.withFormat .nonVolatile) l',
      HasImage (cfg.withFormat .nonVolatile) e := by
    simp [hnone]
  obtain ⟨q, hq, hback⟩ := snapshot_single_backing hlogs' (hinst'.trans hinst) himg addr bytes
  refine ⟨q, hq, fun y => ?_⟩
  rw [hback y, if_neg (by simp [hnone]), bulkBacking_stores hcxl hlogs]

/-- **When the two formats agree**: after the same stores, the same snapshot
completes in both builds, and leaves the same backing file exactly when
every byte the volatile format copies holds the value of memory already. -/
theorem formats_agree_iff (hcxl : cfg.cxlModeEnabled = true) (hlogs : p.logs = [l])
    (hempty : l.entries = []) (ss : List Process.Store)
    (hss : ∀ s ∈ ss, cfg.Tracks s.addr s.data.length) (addr bytes : Nat) :
    ∃ qv qn,
      snapshot (cfg.withFormat .volatile) addr bytes
        (p.stores (cfg.withFormat .volatile) 0 ss) = some qv ∧
      snapshot (cfg.withFormat .nonVolatile) addr bytes
        (p.stores (cfg.withFormat .nonVolatile) 0 ss) = some qn ∧
      (qv.pm.backing = qn.pm.backing ↔
        ∀ s ∈ ss, InRange addr bytes s.range → ∀ y, InWindow cfg s.range y →
          bulkBacking cfg addr (p.stores cfg 0 ss) y =
            (p.stores cfg 0 ss).mem (y + cfg.startAddr - cfg.backingFileStart)) := by
  by_cases hinst : (p.storeInstEnabled || !ss.isEmpty) = true
  · obtain ⟨qv, hqv, hv⟩ := snapshot_volatile hcxl hlogs hempty hss hinst addr bytes
    obtain ⟨qn, hqn, hn⟩ := snapshot_nonVolatile hcxl hlogs hinst addr bytes
    refine ⟨qv, qn, hqv, hqn, ?_⟩
    constructor
    · intro heq s hs hr y hy
      have hy' := congrFun heq y
      rw [hv y, hn y, if_pos ⟨s, hs, hr, hy⟩] at hy'
      exact hy'.symm
    · intro hall
      funext y
      rw [hv y, hn y]
      by_cases hex : ∃ s ∈ ss, InRange addr bytes s.range ∧ InWindow cfg s.range y
      · obtain ⟨s, hs, hr, hy⟩ := hex
        rw [if_pos ⟨s, hs, hr, hy⟩, hall s hs hr y hy]
      · rw [if_neg hex]
  · simp only [Bool.or_eq_true, Bool.not_eq_true', not_or, Bool.not_eq_false,
      Bool.not_eq_true, List.isEmpty_iff] at hinst
    obtain ⟨hoff, rfl⟩ := hinst
    refine ⟨p, p, ?_, ?_, by simp⟩
    · simp [Process.stores, snapshot, hoff]
    · simp [Process.stores, snapshot, hoff]

/-- Eight bytes stored over a page of zeros, under the two formats. -/
theorem formats_differ_store8 :
    ∃ qv qn,
      snapshot (Config.default.withFormat .volatile) 0x10000000000 0x1000
        (Process.stores (Config.default.withFormat .volatile) 0
          (.single (fun _ => 0) fun _ => 0)
          [⟨0x10000000000, [1, 2, 3, 4, 5, 6, 7, 8]⟩]) = some qv ∧
      snapshot (Config.default.withFormat .nonVolatile) 0x10000000000 0x1000
        (Process.stores (Config.default.withFormat .nonVolatile) 0
          (.single (fun _ => 0) fun _ => 0)
          [⟨0x10000000000, [1, 2, 3, 4, 5, 6, 7, 8]⟩]) = some qn ∧
      qv.pm.backing 0x20000000000 ≠ qn.pm.backing 0x20000000000 := by
  refine ⟨_, _, rfl, rfl, ?_⟩
  decide

/-- Without a store in range they agree. -/
theorem formats_agree_other_page :
    ∃ qv qn,
      snapshot (Config.default.withFormat .volatile) 0x10000001000 0x1000
        (Process.stores (Config.default.withFormat .volatile) 0
          (.single (fun _ => 0) fun _ => 0)
          [⟨0x10000000000, [1, 2, 3, 4, 5, 6, 7, 8]⟩]) = some qv ∧
      snapshot (Config.default.withFormat .nonVolatile) 0x10000001000 0x1000
        (Process.stores (Config.default.withFormat .nonVolatile) 0
          (.single (fun _ => 0) fun _ => 0)
          [⟨0x10000000000, [1, 2, 3, 4, 5, 6, 7, 8]⟩]) = some qn ∧
      qv.pm.backing = qn.pm.backing := by
  have hcxl : Config.default.cxlModeEnabled = true := rfl
  obtain ⟨qv, qn, hqv, hqn, hiff⟩ := formats_agree_iff hcxl
    (p := .single (fun _ => 0) fun _ => 0) (l := Log.fresh 1) rfl rfl
    [⟨0x10000000000, [1, 2, 3, 4, 5, 6, 7, 8]⟩] (by decide) 0x10000001000 0x1000
  have hout : ∀ s ∈ [(⟨0x10000000000, [1, 2, 3, 4, 5, 6, 7, 8]⟩ : Process.Store)],
      ¬ InRange 0x10000001000 0x1000 s.range := by decide
  exact ⟨qv, qn, hqv, hqn, hiff.mpr fun s hs hr => absurd hr (hout s hs)⟩

end Formats

end Cxlbuf
