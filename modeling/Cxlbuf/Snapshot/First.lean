import Cxlbuf.Mmap.Registry
import Cxlbuf.Snapshot.Exact

/-!
# Cxlbuf.Snapshot.First

The first snapshot of a process.  Writes made before tracking was switched on
are in no log, so the first call also copies mapped memory to its backing, to
get the two copies on parity.  It looks in `mapped_addr` for one range that
contains `addr`, and copies as many bytes as the file has.

A call copies the addresses of `FirstCopies`.  It brings every mapped file to
parity and stays inside the mapped ranges exactly when these are mapped, and
are all the mapped addresses where the two copies differ (`atParity_iff`,
`confined_iff`).
-/

namespace Cxlbuf

open ByteMem

/-! ## the copies of a call -/

/-- The copies of a call: what it reads and what it writes. -/
def copyCalls (cfg : Config) (addr bytes : Nat) (p : Process) : List CopyArgs :=
  if p.storeInstEnabled then
    (if p.firstSnapshot ∧ p.logs ≠ [] then (bulkCopy cfg p addr).toList else []) ++
      p.logs.flatMap fun l => (copied cfg addr bytes none (walked cfg l)).map (copyArgs cfg)
  else []

/-- The address is in a mapped range. -/
def Process.Mapped (p : Process) (x : Nat) : Prop := ∃ m ∈ p.mappedAddr, m.Contains x

/-- The backing of every mapped file holds what memory holds. -/
def AtParity (cfg : Config) (p : Process) : Prop :=
  ∀ m ∈ p.mappedAddr, ∀ x, m.Contains x → p.pm.backing (image cfg x) = p.mem x

/-- The copies of a call read mapped addresses and write their images. -/
def Confined (cfg : Config) (addr bytes : Nat) (p : Process) : Prop :=
  ∀ c ∈ copyCalls cfg addr bytes p, ∀ i < c.size,
    p.Mapped (c.src + i) ∧ ∃ x, p.Mapped x ∧ c.dst + i = image cfg x

/-- How much of a mapping the first snapshot copies: what its file has, or
all of an anonymous one. -/
def Process.bulkSize (p : Process) (m : FdMetadata) : Nat :=
  if m.fpath = "" then m.stop - m.start else p.fileSize m.fpath

/-- The addresses a first snapshot copies: the beginning of the mapping that
contains `addr`, and the windows of the logged entries in range. -/
def FirstCopies (cfg : Config) (addr bytes : Nat) (p : Process) (x : Nat) : Prop :=
  p.storeInstEnabled = true ∧
    ((p.logs ≠ [] ∧ ∃ m, p.mappedAddr.find? (fun m => m.Contains addr) = some m ∧
        m.start ≤ x ∧ x < m.start + p.bulkSize m) ∨
      ∃ l ∈ p.logs, ∃ e ∈ walked cfg l, InRange addr bytes e ∧
        ∃ y, InWindow cfg e y ∧ y + cfg.startAddr = cfg.backingFileStart + x)

/-- The range lies above `start_addr` and in the user part of the address
space. -/
structure FdMetadata.Above (cfg : Config) (m : FdMetadata) : Prop where
  start_le : cfg.startAddr ≤ m.start
  le_stop : m.start ≤ m.stop
  stop_le : m.stop ≤ 2 ^ 56

/-- The rows of an exact registry do, if the mappings lie in the region. -/
theorem AddressSpace.Exact.above {cfg : Config} {s : AddressSpace} (h : s.Exact)
    (hin : s.InRegion cfg.addrs) : ∀ m ∈ s.mappedAddr, m.Above cfg := by
  intro m hm
  obtain ⟨m', hm', -, hstart, hstop⟩ := (h m.fd m.start m.stop).mp ⟨m, hm, rfl, rfl, rfl⟩
  obtain ⟨hlo, hhi⟩ := hin m' hm'
  have hend : cfg.addrs.endAddr ≤ 2 ^ 56 := cfg.end_le
  refine ⟨?_, by omega, by omega⟩
  rw [← hstart]
  exact hlo

section Calls

variable {cfg : Config} {addr bytes : Nat} {p : Process}

theorem mem_firstCopyOps_iff {op : PmOp} : op ∈ firstCopyOps cfg p addr ↔
    ∃ c, bulkCopy cfg p addr = some c ∧ op = .memcpy c.dst (slice p.mem c.src c.size) := by
  cases hc : bulkCopy cfg p addr with
  | none => simp [firstCopyOps, hc]
  | some c => simp [firstCopyOps, hc]

theorem mem_copyCalls_iff {c : CopyArgs} : c ∈ copyCalls cfg addr bytes p ↔
    p.storeInstEnabled = true ∧
      ((p.firstSnapshot = true ∧ p.logs ≠ [] ∧ bulkCopy cfg p addr = some c) ∨
        ∃ l ∈ p.logs, ∃ e ∈ copied cfg addr bytes none (walked cfg l), copyArgs cfg e = c) := by
  cases hinst : p.storeInstEnabled with
  | false => simp [copyCalls, hinst]
  | true =>
      by_cases hfirst : p.firstSnapshot = true ∧ p.logs ≠ []
      · simp [copyCalls, hinst, hfirst]
      · have hno : ¬ (p.firstSnapshot = true ∧ p.logs ≠ [] ∧ bulkCopy cfg p addr = some c) :=
          fun h => hfirst ⟨h.1, h.2.1⟩
        simp only [copyCalls, hinst, hfirst, if_true, if_false, List.nil_append,
          List.mem_flatMap, List.mem_map, true_and, or_iff_right hno]

/-- The copies a call performs. -/
theorem performs_of_mem_snapshotOps {op : PmOp} (hop : op ∈ snapshotOps cfg addr bytes p)
    (h : op.IsCopy) : ∃ c ∈ copyCalls cfg addr bytes p, op.Performs p.mem c := by
  unfold snapshotOps at hop
  split at hop
  · rename_i hinst
    rw [mem_snapshotOpsFrom_iff h.toBacking] at hop
    obtain ⟨hfirst, hlogs, hbulk⟩ | ⟨l, hl, hcopy⟩ := hop
    · obtain ⟨c, hc, rfl⟩ := mem_firstCopyOps_iff.mp hbulk
      exact ⟨c, mem_copyCalls_iff.mpr ⟨hinst, .inl ⟨hfirst, hlogs, hc⟩⟩, rfl, rfl⟩
    · obtain ⟨e, he, hope⟩ := List.mem_flatMap.mp hcopy
      obtain hperf | ⟨dst, size, rfl⟩ := performs_of_mem_copyOps hope
      · exact ⟨_, mem_copyCalls_iff.mpr ⟨hinst, .inr ⟨l, hl, e, he, rfl⟩⟩, hperf⟩
      · exact absurd h id
  · simp at hop

/-- Each copy is performed. -/
theorem exists_performs_snapshotOps {c : CopyArgs} (hc : c ∈ copyCalls cfg addr bytes p) :
    ∃ op ∈ snapshotOps cfg addr bytes p, op.Performs p.mem c := by
  obtain ⟨hinst, ⟨hfirst, hlogs, hbulk⟩ | ⟨l, hl, e, he, rfl⟩⟩ := mem_copyCalls_iff.mp hc
  · have hto : (PmOp.memcpy c.dst (slice p.mem c.src c.size)).ToBacking := trivial
    rw [snapshotOps, if_pos hinst]
    exact ⟨_, (mem_snapshotOpsFrom_iff hto).mpr
      (.inl ⟨hfirst, hlogs, mem_firstCopyOps_iff.mpr ⟨c, hbulk, rfl⟩⟩), rfl, rfl⟩
  · obtain ⟨op, hop, hperf⟩ := exists_performs_copyOps cfg p.mem e
    rw [snapshotOps, if_pos hinst]
    exact ⟨op, (mem_snapshotOpsFrom_iff hperf.isCopy.toBacking).mpr
      (.inr ⟨l, hl, List.mem_flatMap.mpr ⟨e, he, hop⟩⟩), hperf⟩

/-- **The backing file after a call** whose copies are straight: what they
write holds what memory holds, the rest is as before. -/
theorem snapshotOps_backing (hcalls : ∀ c ∈ copyCalls cfg addr bytes p, c.Straight cfg) (y : Nat) :
    (execOps p.pm (snapshotOps cfg addr bytes p)).backing y =
      if ∃ c ∈ copyCalls cfg addr bytes p, c.Writes y then
        p.mem (y + cfg.startAddr - cfg.backingFileStart)
      else p.pm.backing y := by
  have hcopies : ∀ op ∈ snapshotOps cfg addr bytes p, op.Copies cfg p.mem := by
    intro op hop
    by_cases hcopy : op.IsCopy
    · obtain ⟨c, hc, hperf⟩ := performs_of_mem_snapshotOps hop hcopy
      exact hperf.copies (hcalls c hc)
    · exact PmOp.copies_of_not_isCopy hcopy
  have hwrites : (∃ op ∈ snapshotOps cfg addr bytes p, op.WritesBacking y) ↔
      ∃ c ∈ copyCalls cfg addr bytes p, c.Writes y := by
    constructor
    · rintro ⟨op, hop, hw⟩
      obtain ⟨c, hc, hperf⟩ := performs_of_mem_snapshotOps hop (PmOp.isCopy_of_writesBacking hw)
      exact ⟨c, hc, hperf.writesBacking_iff.mp hw⟩
    · rintro ⟨c, hc, hw⟩
      obtain ⟨op, hop, hperf⟩ := exists_performs_snapshotOps hc
      exact ⟨op, hop, hperf.writesBacking_iff.mpr hw⟩
  rw [execOps_of_copies hcopies]
  simp only [hwrites]

end Calls

/-! ## the first call -/

section First

variable {cfg : Config} {addr bytes : Nat} {p : Process}

/-- The bulk copy is straight, because the region starts where it assumes. -/
theorem bulkCopy_eq (hstart : cfg.startAddr = 0x10000000000)
    (hmap : ∀ m ∈ p.mappedAddr, m.Above cfg) : bulkCopy cfg p addr =
      (p.mappedAddr.find? fun m => m.Contains addr).map fun m =>
        ⟨image cfg m.start, m.start, p.bulkSize m⟩ := by
  have hback := cfg.backing_le
  have hfind : (p.mappedAddr.find? fun m => m.start ≤ addr ∧ addr < m.stop) =
      p.mappedAddr.find? fun m => m.Contains addr := rfl
  rw [bulkCopy, hfind]
  cases hm : p.mappedAddr.find? fun m => m.Contains addr with
  | none => rw [Option.map_none, Option.map_none]
  | some m =>
      obtain ⟨hlo, hle, hhi⟩ := hmap m (List.mem_of_find?_eq_some hm)
      have hdst : wadd cfg.backingFileStart (wsub m.start 0x10000000000) = image cfg m.start := by
        unfold wadd wsub image
        omega
      have hsize : wsub m.stop m.start = m.stop - m.start := by
        unfold wsub
        omega
      simp only [Option.map_some, hdst, hsize, Process.bulkSize]

/-- The copies of a first call are straight and copy the addresses of
`FirstCopies`. -/
theorem straight_copyCalls (hstart : cfg.startAddr = 0x10000000000)
    (hmap : ∀ m ∈ p.mappedAddr, m.Above cfg)
    (himg : ∀ l ∈ p.logs, ∀ e ∈ walked cfg l, HasImage cfg e) :
    ∀ c ∈ copyCalls cfg addr bytes p, c.Straight cfg := by
  intro c hc
  obtain ⟨-, ⟨-, -, hbulk⟩ | ⟨l, hl, e, he, rfl⟩⟩ := mem_copyCalls_iff.mp hc
  · rw [bulkCopy_eq hstart hmap, Option.map_eq_some_iff] at hbulk
    obtain ⟨m, hm, rfl⟩ := hbulk
    have hlo := (hmap m (List.mem_of_find?_eq_some hm)).start_le
    unfold CopyArgs.Straight image
    simp only
    omega
  · exact straight_copyArgs (himg l hl e ((mem_copied_walked (himg l hl)).mp he).1)

theorem firstCopies_iff (hstart : cfg.startAddr = 0x10000000000)
    (hfirst : p.firstSnapshot = true) (hmap : ∀ m ∈ p.mappedAddr, m.Above cfg)
    (himg : ∀ l ∈ p.logs, ∀ e ∈ walked cfg l, HasImage cfg e) {x : Nat} :
    FirstCopies cfg addr bytes p x ↔
      ∃ c ∈ copyCalls cfg addr bytes p, c.src ≤ x ∧ x < c.src + c.size := by
  simp only [mem_copyCalls_iff, bulkCopy_eq hstart hmap, Option.map_eq_some_iff, hfirst]
  constructor
  · rintro ⟨hinst, ⟨hlogs, m, hm, hx⟩ | ⟨l, hl, e, he, hr, y, hy, hyx⟩⟩
    · exact ⟨_, ⟨hinst, .inl ⟨trivial, hlogs, m, hm, rfl⟩⟩, hx⟩
    · have hcopied := (mem_copied_walked (himg l hl)).mpr ⟨he, hr⟩
      have hs := straight_copyArgs (himg l hl e he)
      refine ⟨_, ⟨hinst, .inr ⟨l, hl, e, hcopied, rfl⟩⟩, ?_⟩
      unfold CopyArgs.Straight at hs
      unfold InWindow CopyArgs.Writes at hy
      omega
  · rintro ⟨c, ⟨hinst, ⟨-, hlogs, m, hm, rfl⟩ | ⟨l, hl, e, he, rfl⟩⟩, hx⟩
    · exact ⟨hinst, .inl ⟨hlogs, m, hm, hx⟩⟩
    · obtain ⟨hwalk, hr⟩ := (mem_copied_walked (himg l hl)).mp he
      have hs := straight_copyArgs (himg l hl e hwalk)
      refine ⟨hinst, .inr ⟨l, hl, e, hwalk, hr,
        (copyArgs cfg e).dst + (x - (copyArgs cfg e).src), ?_, ?_⟩⟩
      · unfold InWindow CopyArgs.Writes
        omega
      · unfold CopyArgs.Straight at hs
        omega

/-- Straight copies of mapped addresses write the images of mapped addresses. -/
theorem confined_iff_of_straight (hmap : ∀ m ∈ p.mappedAddr, m.Above cfg)
    (hcalls : ∀ c ∈ copyCalls cfg addr bytes p, c.Straight cfg) :
    Confined cfg addr bytes p ↔ ∀ c ∈ copyCalls cfg addr bytes p, ∀ x, c.src ≤ x →
      x < c.src + c.size → p.Mapped x := by
  constructor
  · intro h c hc x hlo hhi
    obtain ⟨hmapped, -⟩ := h c hc (x - c.src) (by omega)
    rwa [Nat.add_sub_cancel' hlo] at hmapped
  · intro h c hc i hi
    have hmapped := h c hc (c.src + i) (by omega) (by omega)
    refine ⟨hmapped, c.src + i, hmapped, ?_⟩
    obtain ⟨m, hm, hx⟩ := hmapped
    have hle := (hmap m hm).start_le
    have hs := hcalls c hc
    unfold FdMetadata.Contains at hx
    unfold CopyArgs.Straight at hs
    unfold image
    omega

/-- **When the first snapshot stays inside the mapped ranges.** -/
theorem confined_iff (hstart : cfg.startAddr = 0x10000000000) (hfirst : p.firstSnapshot = true)
    (hmap : ∀ m ∈ p.mappedAddr, m.Above cfg)
    (himg : ∀ l ∈ p.logs, ∀ e ∈ walked cfg l, HasImage cfg e) :
    Confined cfg addr bytes p ↔ ∀ x, FirstCopies cfg addr bytes p x → p.Mapped x := by
  rw [confined_iff_of_straight hmap (straight_copyCalls hstart hmap himg)]
  simp only [firstCopies_iff hstart hfirst hmap himg]
  grind

/-- **When the first snapshot gets the copies on parity.** -/
theorem atParity_iff (hstart : cfg.startAddr = 0x10000000000) (hfirst : p.firstSnapshot = true)
    (hmap : ∀ m ∈ p.mappedAddr, m.Above cfg)
    (himg : ∀ l ∈ p.logs, ∀ e ∈ walked cfg l, HasImage cfg e) {q : Process}
    (hq : snapshot cfg addr bytes p = some q) :
    AtParity cfg q ↔ ∀ x, p.Mapped x →
      p.pm.backing (image cfg x) = p.mem x ∨ FirstCopies cfg addr bytes p x := by
  have hcalls : ∀ c ∈ copyCalls cfg addr bytes p, c.Straight cfg :=
    straight_copyCalls hstart hmap himg
  rw [snapshot_eq, Option.some.injEq] at hq
  subst hq
  -- a byte of the backing is the one of memory if it was, or if it is written
  have hbyte {m : FdMetadata} (hm : m ∈ p.mappedAddr) {x : Nat} (hx : m.Contains x) :
      (execOps p.pm (snapshotOps cfg addr bytes p)).backing (image cfg x) = p.mem x ↔
        p.pm.backing (image cfg x) = p.mem x ∨ FirstCopies cfg addr bytes p x := by
    have hle : cfg.startAddr ≤ x := Nat.le_trans (hmap m hm).start_le hx.1
    have hwrites : (∃ c ∈ copyCalls cfg addr bytes p, c.Writes (image cfg x)) ↔
        FirstCopies cfg addr bytes p x := by
      rw [firstCopies_iff hstart hfirst hmap himg]
      refine exists_congr fun c => and_congr_right fun hc => ?_
      have hs := hcalls c hc
      unfold CopyArgs.Straight at hs
      unfold CopyArgs.Writes image
      omega
    rw [snapshotOps_backing hcalls, image_source hle, ← hwrites]
    split
    · rename_i hcopy
      simp [hcopy]
    · rename_i hcopy
      simp [hcopy]
  constructor
  · rintro h x ⟨m, hm, hx⟩
    exact (hbyte hm hx).mp (h m hm x hx)
  · intro h m hm x hx
    exact (hbyte hm hx).mpr (h x ⟨m, hm, hx⟩)

/-- **What the first snapshot achieves**: it completes, and it brings every
mapped file to parity and reads and writes nothing outside the mapped ranges
exactly when the addresses it copies are mapped and are all those where the
two copies differ. -/
theorem firstSnapshot_parity_iff (hstart : cfg.startAddr = 0x10000000000)
    (hfirst : p.firstSnapshot = true) (hmap : ∀ m ∈ p.mappedAddr, m.Above cfg)
    (himg : ∀ l ∈ p.logs, ∀ e ∈ walked cfg l, HasImage cfg e) (addr bytes : Nat) :
    ∃ q, snapshot cfg addr bytes p = some q ∧
      (AtParity cfg q ∧ Confined cfg addr bytes p ↔
        (∀ x, p.Mapped x →
          p.pm.backing (image cfg x) = p.mem x ∨ FirstCopies cfg addr bytes p x) ∧
        ∀ x, FirstCopies cfg addr bytes p x → p.Mapped x) := by
  have hq := snapshot_eq cfg addr bytes p
  refine ⟨_, hq, ?_⟩
  rw [atParity_iff hstart hfirst hmap himg hq, confined_iff hstart hfirst hmap himg]

end First

/-- A process before its first snapshot, with the given mappings of files of
one size and nothing logged. -/
def Process.mapping (mem backing : Mem) (ms : List FdMetadata) (fileSize : Nat) : Process :=
  { Process.single mem backing with
    firstSnapshot := true
    storeInstEnabled := true
    mappedAddr := ms
    fileSize := fun _ => fileSize }

theorem walked_fresh (cfg : Config) (tid : Nat) : walked cfg (Log.fresh tid) = [] := by
  unfold walked
  cases cfg.logFormat with
  | volatile => rfl
  | nonVolatile => rfl

theorem hasImage_mapping (cfg : Config) (mem backing : Mem) (ms : List FdMetadata) (n : Nat) :
    ∀ l ∈ (Process.mapping mem backing ms n).logs, ∀ e ∈ walked cfg l, HasImage cfg e := by
  intro l hl e he
  rw [List.mem_singleton.mp hl, walked_fresh] at he
  exact absurd he List.not_mem_nil

theorem firstCopies_mapping_iff {cfg : Config} {addr bytes : Nat} {mem backing : Mem}
    {ms : List FdMetadata} {n x : Nat} :
    FirstCopies cfg addr bytes (.mapping mem backing ms n) x ↔
      ∃ m, ms.find? (fun m => m.Contains addr) = some m ∧ m.start ≤ x ∧
        x < m.start + if m.fpath = "" then m.stop - m.start else n := by
  simp [FirstCopies, Process.mapping, Process.single, walked_fresh, Process.bulkSize]

/-- One file of a page is mapped as a whole, and memory differs from its
backing. -/
def oneMappedFile : Process :=
  .mapping (fun _ => 7) (fun _ => 0) [⟨3, 0x10000000000, 0x10000001000, "a"⟩] 0x1000

/-- Memory is copied. -/
theorem firstSnapshot_parity_one_file :
    ∃ q, snapshot .default 0x10000000000 8 oneMappedFile = some q ∧
    AtParity .default q ∧ Confined .default 0x10000000000 8 oneMappedFile := by
  have hmap : ∀ m ∈ oneMappedFile.mappedAddr, m.Above .default := by
    intro m hm
    rw [List.mem_singleton.mp hm]
    exact ⟨by decide, by decide, by decide⟩
  have hcopies {x : Nat} : FirstCopies .default 0x10000000000 8 oneMappedFile x ↔
      oneMappedFile.Mapped x := by
    rw [oneMappedFile, firstCopies_mapping_iff]
    simp [Process.Mapped, Process.mapping, FdMetadata.Contains]
  obtain ⟨q, hq, hiff⟩ := firstSnapshot_parity_iff rfl rfl hmap (hasImage_mapping _ _ _ _ _)
    0x10000000000 8
  exact ⟨q, hq, hiff.mpr ⟨fun x hx => .inr (hcopies.mpr hx), fun x => hcopies.mp⟩⟩

/-- Two files of two pages, of which one is mapped. -/
def twoMappedFiles : Process :=
  .mapping (fun _ => 7) (fun _ => 0)
    [⟨3, 0x10000000000, 0x10000001000, "a"⟩, ⟨4, 0x10000004000, 0x10000005000, "b"⟩] 0x2000

/-- The backing of the second file is left as it was, and the second page of
the first one is read where nothing is mapped. -/
theorem firstSnapshot_no_parity_two_files :
    ∃ q, snapshot .default 0x10000000000 8 twoMappedFiles = some q ∧
      ¬ AtParity .default q ∧ ¬ Confined .default 0x10000000000 8 twoMappedFiles := by
  have hmap : ∀ m ∈ twoMappedFiles.mappedAddr, m.Above .default := by
    intro m hm
    obtain rfl | rfl := List.mem_pair.mp hm
    · exact ⟨by decide, by decide, by decide⟩
    · exact ⟨by decide, by decide, by decide⟩
  have himg := hasImage_mapping .default (fun _ => 7) (fun _ => 0) twoMappedFiles.mappedAddr 0x2000
  have hq := snapshot_eq .default 0x10000000000 8 twoMappedFiles
  refine ⟨_, hq, ?_, ?_⟩
  · rw [atParity_iff rfl rfl hmap himg hq]
    intro hpar
    have hsecond := hpar 0x10000004000
      ⟨⟨4, 0x10000004000, 0x10000005000, "b"⟩, List.mem_pair.mpr (.inr rfl), by decide, by decide⟩
    rw [twoMappedFiles, firstCopies_mapping_iff] at hsecond
    simp [Process.mapping, Process.single, FdMetadata.Contains] at hsecond
  · rw [confined_iff rfl rfl hmap himg]
    intro hconf
    have hread := hconf 0x10000001000
    rw [twoMappedFiles, firstCopies_mapping_iff] at hread
    simp [Process.Mapped, Process.mapping, FdMetadata.Contains] at hread

end Cxlbuf
