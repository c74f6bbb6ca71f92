import Cxlbuf.Snapshot.Runs

/-!
# Cxlbuf.Snapshot.Exact

Which bytes of the backing file a snapshot writes.  The copy of an entry
stays in the 512-byte blocks the entry touches (`inHull_of_inWindow`), so a
call is a function of memory, the backing file and the set of entries.

Without `CXLBUF_ALIGN_SNAPSHOT_WRITES` a copy writes exactly the entry's bytes
(`inWindow_plain_iff`), and when memory and the backing file agree outside the
entries both builds leave the same backing file.
-/

namespace Cxlbuf

open ByteMem

/-! ## sizes -/

/-- A word with one bit set is the power of two of that bit. -/
theorem eq_two_pow_of_popcount {x : Nat} (hx : x < 2 ^ 64) (h : popcount x = 1) :
    x = 2 ^ previousPowerOfTwo x := by
  obtain ⟨k, hk⟩ := List.length_eq_one_iff.mp h
  have hbit (i : Nat) : x.testBit i = decide (k = i) := by
    by_cases hi : i < 64
    · have hmem : i ∈ (List.range 64).filter (fun i => x.testBit i) ↔ i = k := by
        rw [hk, List.mem_singleton]
      simp only [List.mem_filter, List.mem_range, hi, true_and] at hmem
      grind
    · have hk64 : k < 64 := by
        have hmem : k ∈ (List.range 64).filter (fun i => x.testBit i) := by simp [hk]
        exact List.mem_range.mp (List.mem_filter.mp hmem).1
      have hlt : x < 2 ^ i := Nat.lt_of_lt_of_le hx (Nat.pow_le_pow_right (by decide) (by omega))
      rw [Nat.testBit_lt_two_pow hlt]
      simp only [false_eq_decide_iff]
      omega
  have heq : x = 2 ^ k := by
    apply Nat.eq_of_testBit_eq
    intro i
    rw [hbit, Nat.testBit_two_pow]
  rw [previousPowerOfTwo, heq, Nat.log2_two_pow]

theorem alignTo_of_popcount {bytes : Nat} (h : popcount bytes = 1) :
    alignTo bytes = min (previousPowerOfTwo bytes) 8 := by
  simp only [alignTo, if_pos h]
  split <;> omega

theorem alignTo_of_not_popcount {bytes : Nat} (h : popcount bytes ≠ 1) :
    alignTo bytes = min (previousPowerOfTwo bytes + 1) 9 := by
  simp only [alignTo, if_neg h]
  split <;> omega

/-- An entry is no longer than the block it is aligned to, or the block is
one of 256 or 512 bytes. -/
theorem le_two_pow_alignTo (bytes : Nat) :
    bytes ≤ 2 ^ alignTo bytes ∨ alignTo bytes = 8 ∨ alignTo bytes = 9 := by
  have hlt : bytes < 2 ^ (previousPowerOfTwo bytes + 1) := Nat.lt_log2_self
  by_cases hone : popcount bytes = 1
  · rw [alignTo_of_popcount hone]
    by_cases hk : previousPowerOfTwo bytes ≤ 8
    · have hpow : 2 ^ (previousPowerOfTwo bytes + 1) ≤ 2 ^ 9 :=
        Nat.pow_le_pow_right (by decide) (by omega)
      have heq := eq_two_pow_of_popcount (by omega) hone
      rw [Nat.min_eq_left hk]
      omega
    · omega
  · rw [alignTo_of_not_popcount hone]
    by_cases hk : previousPowerOfTwo bytes + 1 ≤ 9
    · rw [Nat.min_eq_left hk]
      omega
    · omega

/-! ## blocks -/

/-- A block of at most 512 bytes that starts aligned to its size stays in one
512-byte block. -/
theorem add_two_pow_le {dst a : Nat} (ha : a ≤ 9) (h : dst % 2 ^ a = 0) :
    dst + 2 ^ a ≤ dst / 512 * 512 + 512 := by
  have hend : 2 ^ a ∣ (dst / 512 + 1) * 512 :=
    Nat.dvd_trans (Nat.pow_dvd_pow 2 ha) (Nat.dvd_mul_left 512 _)
  have hrest : 2 ^ a ∣ (dst / 512 + 1) * 512 - dst :=
    Nat.dvd_sub hend (Nat.dvd_of_mod_eq_zero h)
  have hle := Nat.le_of_dvd (by omega) hrest
  omega

/-- The aligned start is in the 512-byte block of the start. -/
theorem le_dstAddrAligned (dst bytes : Nat) : dst / 512 * 512 ≤ dstAddrAligned dst bytes := by
  have hpow : dst % 2 ^ alignTo bytes ≤ dst % 512 := by
    rw [← Nat.mod_mod_of_dvd dst (Nat.pow_dvd_pow 2 (alignTo_le bytes))]
    exact Nat.mod_le _ _
  rw [dstAddrAligned_eq]
  omega

/-- The extended copy ends in the 512-byte block the entry ends in. -/
theorem dstAddrAligned_add_newSz_le {dst bytes : Nat} (hb : 0 < bytes) :
    dstAddrAligned dst bytes + newSz dst bytes ≤ (dst + bytes + 511) / 512 * 512 := by
  have hle := dstAddrAligned_le dst bytes
  have hend : dst / 512 * 512 + 512 ≤ (dst + bytes + 511) / 512 * 512 := by omega
  rw [newSz, Nat.one_shiftLeft]
  by_cases heq : dst = dstAddrAligned dst bytes
  · have hmod : dst % 2 ^ alignTo bytes = 0 := by
      have hdst := dstAddrAligned_eq dst bytes
      have hmodle := Nat.mod_le dst (2 ^ alignTo bytes)
      omega
    rw [if_pos heq, ← heq]
    by_cases hsmall : bytes ≤ 2 ^ alignTo bytes
    · rw [if_pos hsmall]
      exact Nat.le_trans (add_two_pow_le (alignTo_le bytes) hmod) hend
    · rw [if_neg hsmall]
      -- only blocks of 256 and 512 bytes are shorter than their entry
      rcases le_two_pow_alignTo bytes with hle' | h8 | h9
      · exact absurd hle' hsmall
      · rw [h8] at hmod
        split <;> omega
      · rw [h9] at hmod
        split <;> omega
  · rw [if_neg heq]
    omega

/-- An address in the 512-byte hull of a range is in a page that the range
touches. -/
theorem page_of_hull {dst bytes x : Nat} (hb : 0 < bytes) (hlo : dst / 512 * 512 ≤ x)
    (hhi : x < (dst + bytes + 511) / 512 * 512) :
    ∃ y, dst ≤ y ∧ y < dst + bytes ∧ y / 4096 = x / 4096 := by
  by_cases hstart : x < dst
  · exact ⟨dst, by omega, by omega, by omega⟩
  · by_cases hend : x < dst + bytes
    · exact ⟨x, by omega, hend, rfl⟩
    · exact ⟨dst + bytes - 1, by omega, by omega, by omega⟩

/-- The copy of an entry covers the entry, starts less than 512 bytes before
it, stays inside its 512-byte hull and touches no other page. -/
theorem aligned_copy_bounds {dst bytes : Nat} (hb : 8 ≤ bytes) :
    dstAddrAligned dst bytes ≤ dst ∧
    dst + bytes ≤ dstAddrAligned dst bytes + newSz dst bytes ∧
    dst - dstAddrAligned dst bytes < 512 ∧
    dst / 512 * 512 ≤ dstAddrAligned dst bytes ∧
    dstAddrAligned dst bytes + newSz dst bytes ≤ (dst + bytes + 511) / 512 * 512 ∧
    ∀ x, dstAddrAligned dst bytes ≤ x → x < dstAddrAligned dst bytes + newSz dst bytes →
      ∃ y, dst ≤ y ∧ y < dst + bytes ∧ y / 4096 = x / 4096 := by
  have hpos : 0 < bytes := by omega
  have hlo := le_dstAddrAligned dst bytes
  have hhi : dstAddrAligned dst bytes + newSz dst bytes ≤ (dst + bytes + 511) / 512 * 512 :=
    dstAddrAligned_add_newSz_le hpos
  have hlt := lt_dstAddrAligned_add dst bytes
  refine ⟨dstAddrAligned_le dst bytes, add_le_newSz dst bytes, by omega, hlo, hhi,
    fun x hx hx' => ?_⟩
  exact page_of_hull hpos (by omega) (by omega)

/-- The 24 bytes at the end of a page stay in it. -/
theorem aligned_copy_bounds_page_end : dstAddrAligned 4072 24 + newSz 4072 24 ≤ 4096 :=
  (aligned_copy_bounds (by decide)).2.2.2.2.1

/-- Without extension the copy of an aligned power of two has its size. -/
theorem newSz_of_aligned {dst bytes : Nat} (hb : bytes < 2 ^ 64) (hone : popcount bytes = 1)
    (hmod : dst % bytes = 0) : newSz dst bytes = bytes := by
  have hpow := eq_two_pow_of_popcount hb hone
  have halign := alignTo_of_popcount hone
  have hdvd : 2 ^ alignTo bytes ∣ bytes := by
    rw [halign]
    nth_rewrite 2 [hpow]
    exact Nat.pow_dvd_pow 2 (Nat.min_le_left _ _)
  have hdst : dst = dstAddrAligned dst bytes := by
    have hz := Nat.mod_eq_zero_of_dvd (Nat.dvd_trans hdvd (Nat.dvd_of_mod_eq_zero hmod))
    rw [dstAddrAligned_eq, hz, Nat.sub_zero]
  rw [newSz, if_pos hdst, Nat.one_shiftLeft]
  by_cases hk : previousPowerOfTwo bytes ≤ 8
  · rw [halign, Nat.min_eq_left hk, ← hpow, if_pos (Nat.le_refl _)]
  · have h256 : 2 ^ 8 ∣ bytes := by
      rw [hpow]
      exact Nat.pow_dvd_pow 2 (by omega)
    have hlt : 2 ^ 8 < bytes := by
      rw [hpow]
      exact Nat.pow_lt_pow_right (by decide) (by omega)
    rw [halign, Nat.min_eq_right (by omega), if_neg (by omega),
      if_neg (by simpa using Nat.mod_eq_zero_of_dvd h256)]
    omega

/-! ## one snapshot -/

/-- The entry's address does not wrap around on the way to its image. -/
structure NoWrap (cfg : Config) (e : LogEntryLean) : Prop where
  start_le : cfg.startAddr ≤ e.addr
  addr_lt : e.addr < 2 ^ 64
  image_lt : image cfg e.addr < 2 ^ 64

/-- The 512-byte-aligned hull of the entry. -/
def LogEntryLean.InHull (e : LogEntryLean) (x : Nat) : Prop :=
  e.addr / 512 * 512 ≤ x ∧ x < (e.addr + e.bytes + 511) / 512 * 512

section Hulls

variable {cfg : Config} {p : Process} {l : Log}

theorem NoWrap.hasImage {e : LogEntryLean} (h : NoWrap cfg e) : HasImage cfg e := by
  obtain ⟨hstart, haddr, himage⟩ := h
  have hpage := cfg.first_page
  unfold image at himage
  constructor <;> omega

theorem NoWrap.dstAddr_eq {e : LogEntryLean} (h : NoWrap cfg e) :
    dstAddr cfg e = image cfg e.addr := by
  have hdst := dstAddr_add_startAddr h.hasImage
  have hstart := h.start_le
  unfold image
  omega

/-- Without wrap-around the range test is a test of the start address. -/
theorem inRange_iff {addr bytes : Nat} {e : LogEntryLean} (he : e.addr < 2 ^ 64)
    (hrange : addr + bytes < 2 ^ 64) :
    InRange addr bytes e ↔ addr ≤ e.addr ∧ e.addr ≤ addr + bytes := by
  unfold InRange wadd wsub
  omega

/-- The copy of an entry stays in the blocks the entry touches. -/
theorem inHull_of_inWindow (halign : cfg.alignSnapshotWrites = true)
    (hback : cfg.backingFileStart % 512 = 0) (hstart : cfg.startAddr % 512 = 0)
    {e : LogEntryLean} (h : NoWrap cfg e) {y : Nat} (hy : InWindow cfg e y) :
    ∃ x, e.InHull x ∧ y = image cfg x := by
  have hdst := h.dstAddr_eq
  have hlo := le_dstAddrAligned (dstAddr cfg e) e.bytes
  have hbounds : dstAddr cfg e / 512 * 512 ≤ y ∧
      y < (dstAddr cfg e + e.bytes + 511) / 512 * 512 := by
    simp only [InWindow, copyArgs, CopyArgs.Writes, halign, if_true] at hy
    split at hy
    · rename_i hs
      have hpos : 0 < e.bytes := Nat.lt_of_lt_of_le (by decide) hs.2
      exact ⟨Nat.le_trans hlo hy.1,
        Nat.lt_of_lt_of_le hy.2 (dstAddrAligned_add_newSz_le hpos)⟩
    · simp only at hy
      omega
  obtain ⟨hle, -, -⟩ := h
  rw [hdst, image] at hbounds
  clear hlo hdst
  refine ⟨y - cfg.backingFileStart + cfg.startAddr, ⟨?_, ?_⟩, ?_⟩
  · omega
  · omega
  · unfold image
    omega

/-- **The backing file and the log after a call**, from the set of entries:
the windows of the entries in range hold what memory holds, the rest is as
before, and the log is empty. -/
theorem snapshot_of_entries (hvol : cfg.logFormat = .volatile) (hlogs : p.logs = [l])
    (hfirst : p.firstSnapshot = false) (hinst : l.entries ≠ [] → p.storeInstEnabled = true)
    (himg : ∀ e ∈ l.entries, HasImage cfg e) (addr bytes : Nat) :
    ∃ q, snapshot cfg addr bytes p = some q ∧
      (∀ y, q.pm.backing y =
        if ∃ e ∈ l.entries, InRange addr bytes e ∧ InWindow cfg e y then
          p.mem (y + cfg.startAddr - cfg.backingFileStart)
        else p.pm.backing y) ∧
      ∃ l', q.logs = [l'] ∧ l'.entries = [] ∧ (p.storeInstEnabled = true →
        (q.pm.area 0).state = .empty ∧ (q.pm.area 0).logOffset = 0) := by
  have hq := snapshot_eq cfg addr bytes p
  cases hi : p.storeInstEnabled with
  | false =>
      have hnil : l.entries = [] := by
        by_contra hne
        rw [hinst hne] at hi
        cases hi
      refine ⟨_, hq, fun y => ?_, l, by simp [hi, hlogs], hnil, by simp⟩
      simp [hnil, snapshotOps, hi]
  | true =>
      have hwalk : ∀ e ∈ walked cfg l, HasImage cfg e :=
        fun e he => himg e ((mem_walked hvol l).mp he)
      have hback := snapshot_backing cfg addr bytes hlogs hi hwalk
      have harea := snapshot_area cfg addr bytes (t := 0) hi (by simp [hlogs])
      refine ⟨_, hq, fun y => ?_, l.clear, by simp [hi, hlogs], rfl, fun _ => ?_⟩
      · rw [Process.issue_pm, hback y, bulkBacking_of_not_first hfirst]
        simp only [mem_walked hvol]
      · rw [Process.issue_pm, harea]
        exact ⟨rfl, rfl⟩

/-- Going to the image and back. -/
theorem image_source {x : Nat} (hx : cfg.startAddr ≤ x) :
    image cfg x + cfg.startAddr - cfg.backingFileStart = x := by
  unfold image
  omega

/-- The order of the entries does not matter. -/
theorem snapshot_perm (hvol : cfg.logFormat = .volatile) (hlogs : p.logs = [l])
    (hfirst : p.firstSnapshot = false) (hinst : l.entries ≠ [] → p.storeInstEnabled = true)
    (himg : ∀ e ∈ l.entries, HasImage cfg e) {addr bytes : Nat} {q : Process}
    (hq : snapshot cfg addr bytes p = some q) {es : List LogEntryLean}
    (hes : es.Perm l.entries) :
    ∃ q', snapshot cfg addr bytes { p with logs := [{ l with entries := es }] } = some q' ∧
      q'.pm.backing = q.pm.backing := by
  have himg' : ∀ e ∈ es, HasImage cfg e := fun e he => himg e (hes.mem_iff.mp he)
  have hinst' : es ≠ [] → p.storeInstEnabled = true :=
    fun hne => hinst fun hnil => hne (List.Perm.eq_nil (hnil ▸ hes))
  obtain ⟨q₁, hq₁, hafter, -⟩ := snapshot_of_entries hvol hlogs hfirst hinst himg addr bytes
  obtain ⟨q', hq', hafter', -⟩ := snapshot_of_entries
    (p := { p with logs := [{ l with entries := es }] }) hvol rfl hfirst hinst' himg' addr bytes
  obtain rfl : q₁ = q := Option.some.inj (hq₁.symm.trans hq)
  refine ⟨q', hq', funext fun y => ?_⟩
  rw [hafter', hafter]
  simp only [hes.mem_iff]

/-- **What one snapshot writes.**  The bytes of the entries that start in the
range get what memory holds; besides them only bytes of the blocks these
entries touch change, and to what memory holds.  The order of the entries
does not matter, the call completes and leaves the log empty. -/
theorem snapshot_writes_hulls (hvol : cfg.logFormat = .volatile)
    (halign : cfg.alignSnapshotWrites = true) (hback : cfg.backingFileStart % 512 = 0)
    (hstart : cfg.startAddr % 512 = 0) (hlogs : p.logs = [l]) (hfirst : p.firstSnapshot = false)
    (hinst : l.entries ≠ [] → p.storeInstEnabled = true)
    (hwrap : ∀ e ∈ l.entries, NoWrap cfg e) (addr bytes : Nat) (hrange : addr + bytes < 2 ^ 64) :
    ∃ q, snapshot cfg addr bytes p = some q ∧
      (∀ e ∈ l.entries, addr ≤ e.addr → e.addr ≤ addr + bytes →
        ∀ x, e.Covers x → q.pm.backing (image cfg x) = p.mem x) ∧
      (∀ y, q.pm.backing y ≠ p.pm.backing y →
        ∃ e ∈ l.entries, addr ≤ e.addr ∧ e.addr ≤ addr + bytes ∧
          ∃ x, e.InHull x ∧ y = image cfg x) ∧
      (∀ e ∈ l.entries, addr ≤ e.addr → e.addr ≤ addr + bytes → ∀ x, e.InHull x →
        q.pm.backing (image cfg x) = p.mem x ∨
          q.pm.backing (image cfg x) = p.pm.backing (image cfg x)) ∧
      (∀ es, es.Perm l.entries →
        ∃ q', snapshot cfg addr bytes { p with logs := [{ l with entries := es }] } = some q' ∧
          q'.pm.backing = q.pm.backing) ∧
      ∃ l', q.logs = [l'] ∧ l'.entries = [] ∧ (p.storeInstEnabled = true →
        (q.pm.area 0).state = .empty ∧ (q.pm.area 0).logOffset = 0) := by
  have himg : ∀ e ∈ l.entries, HasImage cfg e := fun e he => (hwrap e he).hasImage
  obtain ⟨q, hq, hafter, hlog⟩ := snapshot_of_entries hvol hlogs hfirst hinst himg addr bytes
  refine ⟨q, hq, ?_, ?_, ?_, ?_, hlog⟩
  · intro e he hlo hhi x hx
    have hr := (inRange_iff (hwrap e he).addr_lt hrange).mpr ⟨hlo, hhi⟩
    rw [hafter, if_pos ⟨e, he, hr, inWindow_image (himg e he) (hwrap e he).start_le hx⟩,
      image_source (Nat.le_trans (hwrap e he).start_le hx.1)]
  · intro y hy
    by_cases hex : ∃ e ∈ l.entries, InRange addr bytes e ∧ InWindow cfg e y
    · obtain ⟨e, he, hr, hwin⟩ := hex
      obtain ⟨hlo, hhi⟩ := (inRange_iff (hwrap e he).addr_lt hrange).mp hr
      exact ⟨e, he, hlo, hhi, inHull_of_inWindow halign hback hstart (hwrap e he) hwin⟩
    · rw [hafter, if_neg hex] at hy
      exact absurd rfl hy
  · intro e he _ _ x hx
    have hle : cfg.startAddr ≤ x := by
      have hle := (hwrap e he).start_le
      unfold LogEntryLean.InHull at hx
      omega
    rw [hafter, image_source hle]
    split
    · exact .inl rfl
    · exact .inr rfl
  · exact fun es hes => snapshot_perm hvol hlogs hfirst hinst himg hq hes

end Hulls

theorem exists_log_store24 : ∃ l, (Process.store .default 0 (.single (fun _ => 0) fun _ => 0)
    ⟨0x10000000105, List.replicate 24 1⟩).logs = [l] ∧ l.entries = [⟨0x10000000105, 24⟩] := by
  rw [← List.map_eq_singleton_iff]
  decide

/-- 24 bytes stored in the middle of a block, which are written with the bytes
before them. -/
theorem snapshot_writes_hulls_store24 :
    ∃ q, snapshot .default 0x10000000000 0x1000 (Process.store .default 0
        (.single (fun _ => 0) fun _ => 0) ⟨0x10000000105, List.replicate 24 1⟩) = some q ∧
      (∀ y, q.pm.backing y ≠ 0 → 0x20000000000 ≤ y ∧ y < 0x20000000200) ∧
      q.pm.backing 0x2000000011c = 1 := by
  obtain ⟨l, hlogs, hl⟩ := exists_log_store24
  have hwrap : ∀ e ∈ l.entries, NoWrap .default e := by
    intro e he
    rw [hl, List.mem_singleton] at he
    rw [he]
    exact ⟨by decide, by decide, by decide⟩
  obtain ⟨q, hq, hcovered, hhull, -, -, -⟩ := snapshot_writes_hulls rfl rfl rfl rfl hlogs rfl
    (fun _ => rfl) hwrap 0x10000000000 0x1000 (by decide)
  refine ⟨q, hq, ?_, ?_⟩
  · intro y hy
    obtain ⟨e, he, -, -, x, hx, himage⟩ := hhull y hy
    have hyx : y = 0x20000000000 + (x - 0x10000000000) := himage
    rw [hl, List.mem_singleton] at he
    simp only [he, LogEntryLean.InHull] at hx
    omega
  · have hx := hcovered ⟨0x10000000105, 24⟩ (by simp [hl]) (by decide) (by decide) 0x1000000011c
      ⟨by decide, by decide⟩
    exact hx

/-! ## aligned and plain writes -/

/-- The same build with or without `CXLBUF_ALIGN_SNAPSHOT_WRITES`. -/
def Config.withAlign (cfg : Config) (align : Bool) : Config :=
  { cfg with alignSnapshotWrites := align }

/-- The bulk copy of a first snapshot goes to the image of what it reads: the
region starts where it assumes, and no mapping wraps around. -/
structure BulkInRegion (cfg : Config) (p : Process) : Prop where
  start_eq : cfg.startAddr = 0x10000000000
  mapped : ∀ m ∈ p.mappedAddr, cfg.startAddr ≤ m.start ∧ m.start < 2 ^ 64 ∧
    image cfg m.start < 2 ^ 64

section Plain

variable {cfg : Config} {p : Process} {l : Log} {addr bytes : Nat}

theorem HasImage.withAlign {e : LogEntryLean} (h : HasImage cfg e) (align : Bool) :
    HasImage (cfg.withAlign align) e :=
  ⟨h.block_le, h.addr_lt, h.start_le, h.image_lt⟩

/-- Without the option the copy of an entry moves the entry's bytes. -/
theorem copyArgs_plain {e : LogEntryLean} (hb : e.bytes < 2 ^ 64) :
    copyArgs (cfg.withAlign false) e = ⟨dstAddr cfg e, e.addr, e.bytes⟩ := by
  unfold copyArgs
  split
  · rename_i hs
    have hplain : popcount e.bytes = 1 ∧ dstAddr cfg e % e.bytes = 0 := by
      have hor := hs.1
      simp only [Config.withAlign, Bool.false_eq_true, false_or] at hor
      exact hor
    have hsz := newSz_of_aligned hb hplain.1 hplain.2
    rw [if_neg (by simp [Config.withAlign])]
    change CopyArgs.mk (dstAddr cfg e) e.addr (newSz (dstAddr cfg e) e.bytes) = _
    rw [hsz]
  · rfl

theorem inWindow_plain_iff {e : LogEntryLean} (hb : e.bytes < 2 ^ 64) {y : Nat} :
    InWindow (cfg.withAlign false) e y ↔
      dstAddr cfg e ≤ y ∧ y < dstAddr cfg e + e.bytes := by
  rw [InWindow, copyArgs_plain hb]
  exact Iff.rfl

/-- A window lies over addresses of memory. -/
theorem backing_le_of_inWindow {e : LogEntryLean} (h : HasImage cfg e) {y : Nat}
    (hy : InWindow cfg e y) : cfg.backingFileStart ≤ y + cfg.startAddr := by
  have hex : ∃ op ∈ copyOps cfg (fun _ => 0) e, op.WritesBacking y :=
    writesBacking_copyOps.mpr hy
  obtain ⟨op, hop, hw⟩ := hex
  have hc := copies_copyOps h op hop
  cases op with
  | memcpy dst data => have hle := hc.1; have hdst := hw.1; omega
  | streamingWr dst data => have hle := hc.1; have hdst := hw.1; omega
  | _ => exact absurd hw id

/-- After the bulk copy a byte holds what it held, or what memory holds. -/
theorem bulkBacking_eq_or (h : p.firstSnapshot = true → BulkInRegion cfg p) (y : Nat) :
    bulkBacking cfg addr p y = p.pm.backing y ∨
      bulkBacking cfg addr p y = p.mem (y + cfg.startAddr - cfg.backingFileStart) := by
  cases hc : bulkCopy cfg p addr with
  | none => exact .inl (by simp [bulkBacking, hc])
  | some c =>
      simp only [bulkBacking, hc]
      split
      · rename_i hw
        obtain ⟨m, hm, rfl⟩ := Option.map_eq_some_iff.mp hc
        have hreg := h hw.1
        obtain ⟨hstart, hlt, himage⟩ := hreg.mapped m (List.mem_of_find?_eq_some hm)
        have heq := hreg.start_eq
        have hdst : wadd cfg.backingFileStart (wsub m.start 0x10000000000) =
            image cfg m.start := by
          unfold image at himage ⊢
          unfold wadd wsub
          omega
        have hle := hw.2.1
        refine .inr (congrArg p.mem ?_)
        simp only [hdst] at hle ⊢
        unfold image at hle ⊢
        omega
      · exact .inl rfl

/-- The loop goes over entries of the log. -/
theorem mem_walked_iff {e : LogEntryLean} :
    e ∈ walked cfg l ↔ cfg.logFormat = .volatile ∧ e ∈ l.entries := by
  cases hfmt : cfg.logFormat with
  | volatile => simp [mem_walked hfmt]
  | nonVolatile => simp [walked, hfmt]

/-- The backing file after a call in either build. -/
theorem snapshot_backing_withAlign (hlogs : p.logs = [l]) (hinst : p.storeInstEnabled = true)
    (himg : ∀ e ∈ l.entries, HasImage cfg e) (align : Bool) (y : Nat) :
    (execOps p.pm (snapshotOps (cfg.withAlign align) addr bytes p)).backing y =
      if ∃ e ∈ walked cfg l, InRange addr bytes e ∧ InWindow (cfg.withAlign align) e y then
        p.mem (y + cfg.startAddr - cfg.backingFileStart)
      else bulkBacking cfg addr p y :=
  snapshot_backing (cfg.withAlign align) addr bytes hlogs hinst
    (fun e he => (himg e (mem_walked_iff.mp he).2).withAlign align) y

/-- A byte that only the extension of a write covers holds what memory holds
already. -/
theorem bulkBacking_of_extension (himg : ∀ e ∈ l.entries, HasImage cfg e)
    (hb : ∀ e ∈ l.entries, e.bytes < 2 ^ 64) (hin : ∀ e ∈ l.entries, InRange addr bytes e)
    (hbulk : p.firstSnapshot = true → BulkInRegion cfg p)
    (hagree : ∀ x y, y + cfg.startAddr = cfg.backingFileStart + x →
      (∀ e ∈ l.entries, ¬ e.Covers x) → p.pm.backing y = p.mem x) {y : Nat}
    (hal : ∃ e ∈ walked cfg l, InRange addr bytes e ∧ InWindow (cfg.withAlign true) e y)
    (hpl : ¬ ∃ e ∈ walked cfg l, InRange addr bytes e ∧ InWindow (cfg.withAlign false) e y) :
    bulkBacking cfg addr p y = p.mem (y + cfg.startAddr - cfg.backingFileStart) := by
  obtain ⟨e, he, -, hwin⟩ := hal
  obtain ⟨hvol, hmem⟩ := mem_walked_iff.mp he
  have hle : cfg.backingFileStart ≤ y + cfg.startAddr :=
    backing_le_of_inWindow ((himg e hmem).withAlign true) hwin
  have hout : ∀ e' ∈ l.entries, ¬ e'.Covers (y + cfg.startAddr - cfg.backingFileStart) := by
    intro e' he' hcov
    refine hpl ⟨e', mem_walked_iff.mpr ⟨hvol, he'⟩, hin e' he', ?_⟩
    have hdst := dstAddr_add_startAddr (himg e' he')
    rw [inWindow_plain_iff (hb e' he')]
    unfold LogEntryLean.Covers at hcov
    omega
  cases bulkBacking_eq_or hbulk y with
  | inl hold => rw [hold, hagree _ y (by omega) hout]
  | inr hnew => exact hnew

/-- A plain copy moves exactly the bytes of an entry. -/
theorem mem_logCopies_plain (himg : ∀ e ∈ l.entries, HasImage cfg e)
    (hb : ∀ e ∈ l.entries, e.bytes < 2 ^ 64) {mem : Mem} {op : PmOp} {dst : Nat}
    {data : List UInt8} (hop : op ∈ logCopies (cfg.withAlign false) addr bytes mem l)
    (h : op = .streamingWr dst data ∨ op = .memcpy dst data) :
    ∃ e ∈ l.entries, dst + cfg.startAddr = cfg.backingFileStart + e.addr ∧
      data = slice mem e.addr e.bytes := by
  obtain ⟨e, he, hope⟩ := List.mem_flatMap.mp hop
  have hwalk : ∀ e ∈ walked (cfg.withAlign false) l, HasImage (cfg.withAlign false) e :=
    fun e he => (himg e (mem_walked_iff.mp he).2).withAlign false
  have hmem := (mem_walked_iff.mp ((mem_copied_walked hwalk).mp he).1).2
  have hdst := dstAddr_add_startAddr (himg e hmem)
  refine ⟨e, hmem, ?_⟩
  simp only [copyOps, copyArgs_plain (hb e hmem)] at hope
  split at hope
  · grind
  · grind

/-- **Aligned and plain writes agree** on entries in range, where memory and
the backing file agree outside them, and a plain write moves exactly the bytes
of an entry. -/
theorem aligned_eq_plain (hlogs : p.logs = [l]) (himg : ∀ e ∈ l.entries, HasImage cfg e)
    (hb : ∀ e ∈ l.entries, e.bytes < 2 ^ 64) (addr bytes : Nat)
    (hin : ∀ e ∈ l.entries, InRange addr bytes e)
    (hbulk : p.firstSnapshot = true → BulkInRegion cfg p)
    (hagree : ∀ x y, y + cfg.startAddr = cfg.backingFileStart + x →
      (∀ e ∈ l.entries, ¬ e.Covers x) → p.pm.backing y = p.mem x) :
    ∃ qa qp, snapshot (cfg.withAlign true) addr bytes p = some qa ∧
      snapshot (cfg.withAlign false) addr bytes p = some qp ∧
      qa.pm.backing = qp.pm.backing ∧
      ∀ op ∈ p.accessesSince qp, ∀ dst data,
        op = .streamingWr dst data ∨ op = .memcpy dst data →
        (p.firstSnapshot = true ∧ op ∈ firstCopyOps cfg p addr) ∨
          ∃ e ∈ l.entries, dst + cfg.startAddr = cfg.backingFileStart + e.addr ∧
            data = slice p.mem e.addr e.bytes := by
  refine ⟨_, _, snapshot_eq _ addr bytes p, snapshot_eq _ addr bytes p, ?_, ?_⟩
  · cases hinst : p.storeInstEnabled with
    | false => simp [snapshotOps, hinst]
    | true =>
        funext y
        rw [Process.issue_pm, Process.issue_pm, snapshot_backing_withAlign hlogs hinst himg,
          snapshot_backing_withAlign hlogs hinst himg]
        by_cases hpl : ∃ e ∈ walked cfg l, InRange addr bytes e ∧
            InWindow (cfg.withAlign false) e y
        · have hal : ∃ e ∈ walked cfg l, InRange addr bytes e ∧
              InWindow (cfg.withAlign true) e y := by
            obtain ⟨e, he, hr, hwin⟩ := hpl
            have hmem := (mem_walked_iff.mp he).2
            have hbytes := (inWindow_plain_iff (hb e hmem)).mp hwin
            exact ⟨e, he, hr, inWindow_of_mem hbytes⟩
          rw [if_pos hal, if_pos hpl]
        · rw [if_neg hpl]
          split
          · rename_i hal
            rw [bulkBacking_of_extension himg hb hin hbulk hagree hal hpl]
          · rfl
  · intro op hop dst data h
    rw [Process.accessesSince_of_trace rfl] at hop
    have hto : op.ToBacking := by grind [PmOp.ToBacking]
    cases mem_snapshotOps_of_toBacking hlogs hop hto with
    | inl hfirst => exact .inl hfirst
    | inr hcopy => exact .inr (mem_logCopies_plain himg hb hcopy h)

/-- 24 bytes stored over a page of zeros: a streaming write from an aligned
address in one build, `memcpy` in the other. -/
theorem aligned_eq_plain_store24 :
    ∃ qa qp,
      snapshot (Config.default.withAlign true) 0x10000000000 0x1000 (Process.store .default 0
        (.single (fun _ => 0) fun _ => 0) ⟨0x10000000105, List.replicate 24 1⟩) = some qa ∧
      snapshot (Config.default.withAlign false) 0x10000000000 0x1000 (Process.store .default 0
        (.single (fun _ => 0) fun _ => 0) ⟨0x10000000105, List.replicate 24 1⟩) = some qp ∧
      qa.pm.backing = qp.pm.backing := by
  obtain ⟨l, hlogs, hl⟩ := exists_log_store24
  have htr : Config.default.Tracks 0x10000000105 0 := by decide
  have hmem : ∀ e ∈ l.entries, e = ⟨0x10000000105, 24⟩ := by simp [hl]
  have hagree : ∀ x y, y + Config.default.startAddr = Config.default.backingFileStart + x →
      (∀ e ∈ l.entries, ¬ e.Covers x) →
      (Process.store .default 0 (.single (fun _ => 0) fun _ => 0)
        ⟨0x10000000105, List.replicate 24 1⟩).pm.backing y =
      (Process.store .default 0 (.single (fun _ => 0) fun _ => 0)
        ⟨0x10000000105, List.replicate 24 1⟩).mem x := by
    intro x y _ hout
    have hx : ¬ (0x10000000105 ≤ x ∧ x < 0x10000000105 + (List.replicate 24 (1 : UInt8)).length) :=
      hout ⟨0x10000000105, 24⟩ (by simp [hl])
    rw [Process.store_mem, write_of_not_mem hx]
    exact congrFun (Process.stores_backing .default 0 _ [_]) y
  obtain ⟨qa, qp, hqa, hqp, hback, -⟩ := aligned_eq_plain hlogs
    (fun e he => hmem e he ▸ HasImage.of_tracks htr) (fun e he => by rw [hmem e he]; decide)
    0x10000000000 0x1000 (fun e he => by rw [hmem e he]; decide) (fun h => by cases h) hagree
  exact ⟨qa, qp, hqa, hqp, hback⟩

end Plain

end Cxlbuf
