import Mathlib.Data.List.Pairwise
import Cxlbuf.Mmap

/-!
# Cxlbuf.Mmap.Registry

The registry `mapped_addr` and those who use it.  `mmap` enters the range it
asked for under the descriptor, over what was there; `munmap` looks a range up
by an address in it and erases it by its descriptor.  So the registry holds
exactly the ranges of the live file mappings as long as no descriptor is mapped
twice and no mapping is left to the kernel to place (`exact_step_iff`).

`fsync` and `fdatasync` look a descriptor up to decide between a snapshot and
the real call, and decide by different conditions.
-/

namespace Cxlbuf

open Run

/-- An order in which `mapped_addr` is iterated over. -/
structure IterOrder where
  order : List FdMetadata → List FdMetadata
  perm : ∀ ms, (order ms).Perm ms

/-- The registry is iterated over in its own order. -/
def IterOrder.plain : IterOrder := ⟨id, List.Perm.refl⟩

/-- The range of the row contains an address. -/
def FdMetadata.Contains (m : FdMetadata) (x : Nat) : Prop := m.start ≤ x ∧ x < m.stop

instance (m : FdMetadata) (x : Nat) : Decidable (m.Contains x) :=
  inferInstanceAs (Decidable (_ ∧ _))

/-- What is done to the address space. -/
inductive MapAction where
  | mmap (c : MmapCall)
  | munmap (it : IterOrder) (addr len : Nat)

namespace AddressSpace

/-- `munmap` of a whole mapping; `none` when the process exits, which it does
if the address is inside a range of the registry. -/
def munmap (it : IterOrder) (s : AddressSpace) (addr len : Nat) : Option AddressSpace :=
  let live := s.live.filter fun m => ¬ (m.start = addr ∧ m.len = len)
  match (it.order s.mappedAddr).find? fun m => m.Contains addr with
  | none => some { s with live := live }
  | some m =>
      if addr ≠ m.start then none
      else some { s with
        mappedAddr := Table.eraseKey FdMetadata.fd m.fd s.mappedAddr
        live := live }

/-- One action. -/
def step (a : Addrs) (cxlModeEnabled : Bool) (s : AddressSpace) : MapAction → Option AddressSpace
  | .mmap c => s.mmap a cxlModeEnabled c
  | .munmap it addr len => s.munmap it addr len

/-- The kernel keeps its promises, and whole mappings are unmapped. -/
def ActionOk (a : Addrs) (cxlModeEnabled : Bool) (s : AddressSpace) : MapAction → Prop
  | .mmap c => KernelOk a cxlModeEnabled s c
  | .munmap _ addr len => ∃ m ∈ s.live, m.start = addr ∧ m.len = len

/-- The registry holds the ranges of the live file mappings, and no others. -/
def Exact (s : AddressSpace) : Prop := ∀ fd start stop,
  (∃ m ∈ s.mappedAddr, m.fd = fd ∧ m.start = start ∧ m.stop = stop) ↔
    ∃ m ∈ s.live, m.fd = some fd ∧ m.start = start ∧ m.start + m.len = stop

/-- A descriptor that is mapped has no other live mapping, and an address is
asked for: the file is put at the bump pointer, or the hint is not null. -/
def RegistryOk (a : Addrs) (cxlModeEnabled : Bool) (s : AddressSpace) : MapAction → Prop
  | .mmap c => c.result ≠ none → ∀ fd, c.fd = some fd →
      s.requested a cxlModeEnabled c ≠ 0 ∧ ∀ m ∈ s.live, m.fd ≠ some fd
  | .munmap .. => True

/-! ## what holds whatever the registry says -/

/-- Live mappings are apart from each other and from `nullptr`, and the
registry has one range for a descriptor. -/
structure LiveInv (s : AddressSpace) : Prop where
  disjoint : s.live.Pairwise LiveMapping.Disjoint
  len_pos : ∀ m ∈ s.live, 0 < m.len
  start_ne : ∀ m ∈ s.live, m.start ≠ 0
  unique : Table.Unique FdMetadata.fd s.mappedAddr

section Steps

variable {a : Addrs} {cxl : Bool} {s s' : AddressSpace}

instance : Std.Symm LiveMapping.Disjoint := ⟨fun _ _ h => h.symm⟩

/-- Live mappings that share an address are the same. -/
theorem LiveInv.eq_of_contains (h : LiveInv s) {m m' : LiveMapping} (hm : m ∈ s.live)
    (hm' : m' ∈ s.live) {x : Nat} (hx : m.Contains x) (hx' : m'.Contains x) : m = m' := by
  by_contra hne
  have hdisj := h.disjoint.forall hm hm' hne
  unfold LiveMapping.Contains at hx hx'
  unfold LiveMapping.Disjoint at hdisj
  omega

theorem LiveInv.contains_start (h : LiveInv s) {m : LiveMapping} (hm : m ∈ s.live) :
    m.Contains m.start :=
  ⟨Nat.le_refl _, Nat.lt_add_of_pos_right (h.len_pos m hm)⟩

/-- They are told apart by where they start. -/
theorem LiveInv.eq_of_start (h : LiveInv s) {m m' : LiveMapping} (hm : m ∈ s.live)
    (hm' : m' ∈ s.live) (hstart : m.start = m'.start) : m = m' := by
  refine h.eq_of_contains hm hm' (h.contains_start hm) ?_
  rw [hstart]
  exact h.contains_start hm'

theorem LiveInv.empty : LiveInv .empty where
  disjoint := List.Pairwise.nil
  len_pos _ hm := absurd hm List.not_mem_nil
  start_ne _ hm := absurd hm List.not_mem_nil
  unique := .nil _

theorem LiveInv.mmap (h : LiveInv s) {c : MmapCall} (hker : KernelOk a cxl s c)
    (hs' : s.mmap a cxl c = some s') : LiveInv s' := by
  obtain ⟨-, ⟨-, hlive, hreg⟩ | ⟨result, backing, hres, hlive, hreg⟩⟩ := mmap_cases hs'
  · exact ⟨hlive ▸ h.disjoint, hlive ▸ h.len_pos, hlive ▸ h.start_ne, hreg ▸ h.unique⟩
  · obtain ⟨hpos, hne, -, hfree⟩ := hker result hres
    refine ⟨?_, fun m hm => ?_, fun m hm => ?_, ?_⟩
    · rw [hlive]
      exact pairwise_append h.disjoint hfree
    · rw [hlive, List.mem_append, List.mem_singleton] at hm
      obtain hold | rfl := hm
      · exact h.len_pos m hold
      · exact hpos
    · rw [hlive, List.mem_append, List.mem_singleton] at hm
      obtain hold | rfl := hm
      · exact h.start_ne m hold
      · exact hne
    · obtain ⟨-, hreg⟩ | ⟨fd, -, -, hreg⟩ := hreg
      · rw [hreg]
        exact h.unique
      · rw [hreg]
        exact h.unique.insertOrAssign _

/-- **What `munmap` does**, if the process goes on: the mapping is gone, and
so is the row with a range that starts there, if there is one. -/
theorem munmap_cases {it : IterOrder} {addr len : Nat} (hs' : s.munmap it addr len = some s') :
    s'.live = (s.live.filter fun m => ¬ (m.start = addr ∧ m.len = len)) ∧
      ((s'.mappedAddr = s.mappedAddr ∧ ∀ m ∈ s.mappedAddr, ¬ m.Contains addr) ∨
        ∃ m ∈ s.mappedAddr, m.Contains addr ∧ m.start = addr ∧
          s'.mappedAddr = Table.eraseKey FdMetadata.fd m.fd s.mappedAddr) := by
  unfold munmap at hs'
  simp only at hs'
  split at hs'
  · rename_i hnone
    rw [← Option.some.inj hs']
    refine ⟨rfl, .inl ⟨rfl, fun m hm => ?_⟩⟩
    have hout := List.find?_eq_none.mp hnone m ((it.perm _).mem_iff.mpr hm)
    simpa using hout
  · rename_i m hsome
    split at hs'
    · cases hs'
    · rename_i hstart
      have hmem := (it.perm _).mem_iff.mp (List.mem_of_find?_eq_some hsome)
      have hcont : m.Contains addr := by simpa using List.find?_some hsome
      rw [← Option.some.inj hs']
      exact ⟨rfl, .inr ⟨m, hmem, hcont, (not_not.mp hstart).symm, rfl⟩⟩

theorem LiveInv.munmap (h : LiveInv s) {it : IterOrder} {addr len : Nat}
    (hs' : s.munmap it addr len = some s') : LiveInv s' := by
  obtain ⟨hlive, hreg⟩ := munmap_cases hs'
  have hsub {m : LiveMapping} (hm : m ∈ s'.live) : m ∈ s.live := by
    rw [hlive] at hm
    exact List.mem_of_mem_filter hm
  refine ⟨?_, fun m hm => h.len_pos m (hsub hm), fun m hm => h.start_ne m (hsub hm), ?_⟩
  · rw [hlive]
    exact h.disjoint.filter _
  · obtain ⟨hreg, -⟩ | ⟨m, -, -, -, hreg⟩ := hreg
    · rw [hreg]
      exact h.unique
    · rw [hreg]
      exact h.unique.eraseKey _

theorem LiveInv.step (h : LiveInv s) {act : MapAction} (hok : ActionOk a cxl s act)
    (hs' : s.step a cxl act = some s') : LiveInv s' := by
  cases act with
  | mmap c => exact h.mmap hok hs'
  | munmap it addr len => exact h.munmap hs'

/-! ## what keeps the registry exact -/

/-- A descriptor without a row can be entered. -/
theorem Exact.register (h : Exact s) {fd start len : Nat} {fpath : String} {backing : Option Nat}
    (hfree : ∀ m ∈ s.live, m.fd ≠ some fd)
    (hreg : s'.mappedAddr =
      Table.insertOrAssign FdMetadata.fd ⟨fd, start, start + len, fpath⟩ s.mappedAddr)
    (hlive : s'.live = s.live ++ [⟨some fd, start, len, backing⟩]) : Exact s' := by
  have hnew : ∀ m ∈ s.mappedAddr, m.fd ≠ fd := by
    intro m hm heq
    obtain ⟨m', hm', hfd, -, -⟩ := (h fd m.start m.stop).mp ⟨m, hm, heq, rfl, rfl⟩
    exact hfree m' hm' hfd
  intro fd' start' stop'
  have hold := h fd' start' stop'
  simp only [hreg, hlive, Table.mem_insertOrAssign, List.mem_append, List.mem_singleton,
    or_and_right, exists_or, exists_eq_left, Option.some.injEq]
  constructor
  · rintro (⟨m, ⟨hm, -⟩, heq⟩ | heq)
    · exact .inl (hold.mp ⟨m, hm, heq⟩)
    · exact .inr heq
  · rintro (hlive | heq)
    · obtain ⟨m, hm, heq⟩ := hold.mpr hlive
      exact .inl ⟨m, ⟨hm, hnew m hm⟩, heq⟩
    · exact .inr heq

/-- If the registry is exact after a descriptor was entered, the range does not
start at null, and no older mapping of the descriptor had its row
overwritten. -/
theorem Exact.of_register (h' : Exact s') (hinv' : LiveInv s') {fd start len : Nat}
    {fpath : String} (hreg : s'.mappedAddr =
      Table.insertOrAssign FdMetadata.fd ⟨fd, start, start + len, fpath⟩ s.mappedAddr)
    (hold : ∀ m ∈ s.live, m ∈ s'.live) (hplace : start ≠ 0 → ∀ m ∈ s.live, m.start ≠ start) :
    start ≠ 0 ∧ ∀ m ∈ s.live, m.fd ≠ some fd := by
  have hask : start ≠ 0 := by
    have hrow : (⟨fd, start, start + len, fpath⟩ : FdMetadata) ∈ s'.mappedAddr := by
      rw [hreg]
      exact Table.mem_insertOrAssign.mpr (.inr rfl)
    obtain ⟨m, hm, -, hstart, -⟩ := (h' fd start (start + len)).mp ⟨_, hrow, rfl, rfl, rfl⟩
    rw [← hstart]
    exact hinv'.start_ne m hm
  refine ⟨hask, fun m hm hmfd => ?_⟩
  obtain ⟨row, hrow, hrowfd, hrowstart, -⟩ := (h' fd m.start (m.start + m.len)).mpr
    ⟨m, hold m hm, hmfd, rfl, rfl⟩
  rw [hreg, Table.mem_insertOrAssign] at hrow
  obtain ⟨-, hother⟩ | rfl := hrow
  · exact hother hrowfd
  · exact hplace hask m hm hrowstart.symm

/-- **One `mmap` keeps the registry exact** exactly when it meets the
condition. -/
theorem exact_mmap_iff (hinv : LiveInv s) (h : Exact s) {c : MmapCall}
    (hker : KernelOk a cxl s c) (hs' : s.mmap a cxl c = some s') :
    Exact s' ↔ RegistryOk a cxl s (.mmap c) := by
  obtain ⟨-, ⟨hres, hlive, hreg⟩ | ⟨result, backing, hres, hlive, hfd⟩⟩ := mmap_cases hs'
  · have hsame : Exact s' := by rwa [Exact, hlive, hreg]
    exact ⟨fun _ hne => absurd hres hne, fun _ => hsame⟩
  · obtain ⟨hpos, hne, hfixed, hfree⟩ := hker result hres
    obtain ⟨hnone, hreg⟩ | ⟨fd, hsome, -, hreg⟩ := hfd
    · -- an anonymous mapping is not a file mapping
      have hsame : Exact s' := by
        intro fd start stop
        simpa [hlive, hreg, hnone, or_and_right, exists_or] using h fd start stop
      exact ⟨fun _ _ fd hfd => (by rw [hnone] at hfd; cases hfd), fun _ => hsame⟩
    · rw [hsome] at hlive
      constructor
      · intro h' _ fd' hfd'
        have heqfd : fd = fd' := Option.some.inj (hsome.symm.trans hfd')
        subst heqfd
        refine h'.of_register (hinv.mmap hker hs') hreg (fun m hm => ?_) fun hask m hm hstart => ?_
        · rw [hlive]
          exact List.mem_append_left _ hm
        · have hmpos := hinv.len_pos m hm
          have hapart := hfree m hm
          have hresult := hfixed hask
          omega
      · intro hok
        obtain ⟨hask, hnew⟩ := hok (by simp [hres]) fd hsome
        rw [hfixed hask] at hlive
        exact h.register hnew hreg hlive

/-- Without a row for its address, the mapping that is gone was not a file
mapping. -/
theorem Exact.unmap_anonymous (h : Exact s) (hinv : LiveInv s) {m₀ : LiveMapping}
    (hgone : ∀ m, m ∈ s'.live ↔ m ∈ s.live ∧ m ≠ m₀) (hsame : s'.mappedAddr = s.mappedAddr)
    (hnone : ∀ r ∈ s.mappedAddr, ¬ r.Contains m₀.start) : Exact s' := by
  intro fd start stop
  rw [hsame, h fd start stop]
  constructor
  · rintro ⟨m, hm, hfd, heq⟩
    refine ⟨m, (hgone m).mpr ⟨hm, ?_⟩, hfd, heq⟩
    rintro rfl
    obtain ⟨r, hr, -, hrstart, hrstop⟩ := (h fd m.start (m.start + m.len)).mpr
      ⟨m, hm, hfd, rfl, rfl⟩
    have hpos := hinv.len_pos m hm
    exact hnone r hr ⟨by omega, by omega⟩
  · rintro ⟨m, hm, hrest⟩
    exact ⟨m, ((hgone m).mp hm).1, hrest⟩

/-- A row that starts where the mapping does is its row, and the only one of
its descriptor. -/
theorem Exact.unmap_file (h : Exact s) (hinv : LiveInv s) {m₀ : LiveMapping} (hm₀ : m₀ ∈ s.live)
    (hgone : ∀ m, m ∈ s'.live ↔ m ∈ s.live ∧ m ≠ m₀) {row : FdMetadata}
    (hrow : row ∈ s.mappedAddr) (hstart : row.start = m₀.start)
    (herase : s'.mappedAddr = Table.eraseKey FdMetadata.fd row.fd s.mappedAddr) : Exact s' := by
  have hfd₀ : m₀.fd = some row.fd := by
    obtain ⟨m, hm, hfd, hmstart, -⟩ := (h row.fd row.start row.stop).mp ⟨row, hrow, rfl, rfl, rfl⟩
    rw [← hinv.eq_of_start hm hm₀ (hmstart.trans hstart)]
    exact hfd
  intro fd start stop
  rw [herase]
  constructor
  · rintro ⟨r, hr, rfl, rfl, rfl⟩
    obtain ⟨hr, hne⟩ := Table.mem_eraseKey.mp hr
    obtain ⟨m, hm, hfd, hrest⟩ := (h r.fd r.start r.stop).mp ⟨r, hr, rfl, rfl, rfl⟩
    refine ⟨m, (hgone m).mpr ⟨hm, ?_⟩, hfd, hrest⟩
    rintro rfl
    exact hne (Option.some.inj (hfd.symm.trans hfd₀))
  · rintro ⟨m, hm, hfd, hrest⟩
    obtain ⟨hm, hne⟩ := (hgone m).mp hm
    obtain ⟨r, hr, hrfd, hrstart, hrstop⟩ := (h fd start stop).mpr ⟨m, hm, hfd, hrest⟩
    refine ⟨r, Table.mem_eraseKey.mpr ⟨hr, fun hkey => ?_⟩, hrfd, hrstart, hrstop⟩
    have hrows := hinv.unique r hr row hrow hkey
    rw [hrows] at hrstart
    exact hne (hinv.eq_of_start hm hm₀ (hrest.1.trans (hrstart.symm.trans hstart)))

/-- **`munmap` keeps the registry exact.** -/
theorem Exact.munmap (h : Exact s) (hinv : LiveInv s) {it : IterOrder} {addr len : Nat}
    (hwhole : ∃ m ∈ s.live, m.start = addr ∧ m.len = len)
    (hs' : s.munmap it addr len = some s') : Exact s' := by
  obtain ⟨m₀, hm₀, rfl, rfl⟩ := hwhole
  obtain ⟨hlive, hreg⟩ := munmap_cases hs'
  -- of the live mappings only that one is gone
  have hgone (m : LiveMapping) : m ∈ s'.live ↔ m ∈ s.live ∧ m ≠ m₀ := by
    rw [hlive, List.mem_filter, decide_eq_true_eq]
    refine and_congr_right fun hm => not_congr ⟨fun heq => ?_, fun heq => by rw [heq]; simp⟩
    exact hinv.eq_of_start hm hm₀ heq.1
  obtain ⟨hsame, hnone⟩ | ⟨row, hrow, -, hstart, herase⟩ := hreg
  · exact h.unmap_anonymous hinv hgone hsame hnone
  · exact h.unmap_file hinv hm₀ hgone hrow hstart herase

/-- **One action** from an exact registry leads to one exactly when it meets
the condition. -/
theorem exact_step_iff (hinv : LiveInv s) (h : Exact s) {act : MapAction}
    (hok : ActionOk a cxl s act) (hs' : s.step a cxl act = some s') :
    Exact s' ↔ RegistryOk a cxl s act := by
  cases act with
  | mmap c => exact exact_mmap_iff hinv h hok hs'
  | munmap it addr len => exact ⟨fun _ => trivial, fun _ => h.munmap hinv hok hs'⟩

end Steps

/-- **When the registry is exact**: along every run of `mmap` calls and
`munmap` calls of whole mappings, the registry holds the ranges of the live
file mappings and no others throughout, exactly when every descriptor is
mapped at an address that was asked for and while it has no other mapping. -/
theorem registry_exact_iff (a : Addrs) (cxlModeEnabled : Bool) {acts : List MapAction}
    (hok : Guarded (step a cxlModeEnabled) (ActionOk a cxlModeEnabled) .empty acts)
    {s : AddressSpace} (hrun : run (step a cxlModeEnabled) .empty acts = some s) :
    Throughout (step a cxlModeEnabled) Exact .empty acts ↔
      Guarded (step a cxlModeEnabled) (RegistryOk a cxlModeEnabled) .empty acts := by
  have hinit : Exact .empty := fun fd start stop => by simp [empty]
  exact throughout_iff_guarded (fun s act s' h hact hs' => h.step hact hs')
    (fun s act s' hinv hact hex hs' => exact_step_iff hinv hex hact hs') .empty hinit hok hrun

/-- A pool that is mapped and unmapped. -/
theorem registry_exact_map_unmap :
    ∃ s, run (step region4G true) .empty [.mmap (poolCall 3 0x10000000000),
        .munmap .plain 0x10000000000 0x100000000] = some s ∧
      Throughout (step region4G true) Exact .empty [.mmap (poolCall 3 0x10000000000),
        .munmap .plain 0x10000000000 0x100000000] := by
  have hok : Guarded (step region4G true) (ActionOk region4G true) .empty
      [.mmap (poolCall 3 0x10000000000), .munmap .plain 0x10000000000 0x100000000] := by
    refine ⟨show KernelOk region4G true .empty (poolCall 3 0x10000000000) by decide,
      fun s hs => ⟨?_, fun _ _ => trivial⟩⟩
    rw [← Option.some.inj hs]
    exact ⟨_, List.mem_singleton_self _, rfl, rfl⟩
  have hreg : Guarded (step region4G true) (RegistryOk region4G true) .empty
      [.mmap (poolCall 3 0x10000000000), .munmap .plain 0x10000000000 0x100000000] :=
    ⟨fun _ _ _ => ⟨by decide, by simp [empty]⟩, fun _ _ => ⟨trivial, fun _ _ => trivial⟩⟩
  exact ⟨_, rfl, (registry_exact_iff region4G true hok rfl).mpr hreg⟩

/-- A descriptor that is mapped twice, with the region of the test scripts:
the first mapping is live, but the registry does not have it any more. -/
theorem registry_loses_first_mapping :
    Guarded (step Config.default.addrs true) (ActionOk Config.default.addrs true) .empty
        [.mmap (poolCall 3 0x10000000000), .mmap (poolCall 3 0x10100000000)] ∧
      ∃ s, run (step Config.default.addrs true) .empty
          [.mmap (poolCall 3 0x10000000000), .mmap (poolCall 3 0x10100000000)] = some s ∧
        (∃ m ∈ s.live, m.fd = some 3 ∧ m.start = 0x10000000000) ∧
        ∀ row ∈ s.mappedAddr, row.start ≠ 0x10000000000 := by
  refine ⟨⟨show KernelOk Config.default.addrs true .empty (poolCall 3 0x10000000000) by decide,
    fun s hs => ⟨?_, fun _ _ => trivial⟩⟩, _, rfl, ⟨_, List.mem_cons_self, rfl, rfl⟩, ?_⟩
  · rw [← Option.some.inj hs]
    show KernelOk Config.default.addrs true _ (poolCall 3 0x10100000000)
    decide
  · intro row hrow
    rw [List.mem_singleton.mp hrow]
    decide

end AddressSpace

/-! ## fsync and fdatasync -/

/-- What a call to sync a descriptor does. -/
inductive SyncRoute where
  | snapshot (addr bytes : Nat)
  | realCall
  | exit
deriving DecidableEq, Repr

/-- The row of a descriptor. -/
def findFd (mappedAddr : List FdMetadata) (fd : Nat) : Option FdMetadata :=
  mappedAddr.find? fun m => m.fd = fd

/-- A snapshot of the range of a row. -/
def FdMetadata.snapshotRoute (m : FdMetadata) : SyncRoute :=
  .snapshot m.start (wsub m.stop m.start)

/-- `fsync`. -/
def fsyncRoute (mappedAddr : List FdMetadata) (storeInstEnabled : Bool) (fd : Nat) : SyncRoute :=
  match findFd mappedAddr fd with
  | none => .exit
  | some m => if storeInstEnabled then m.snapshotRoute else .realCall

/-- `fdatasync`. -/
def fdatasyncRoute (a : Addrs) (mappedAddr : List FdMetadata) (fd : Nat) : SyncRoute :=
  match findFd mappedAddr fd with
  | none => .realCall
  | some m => if a.InRange (wadd m.start 1) then m.snapshotRoute else .realCall

/-- The process after a call; `none` when it exits.  The real call leaves it
as it is. -/
def SyncRoute.perform (cfg : Config) (p : Process) : SyncRoute → Option Process
  | .snapshot addr bytes => Cxlbuf.snapshot cfg addr bytes p
  | .realCall => some p
  | .exit => none

def Process.fsync (cfg : Config) (p : Process) (fd : Nat) : Option Process :=
  (fsyncRoute p.mappedAddr p.storeInstEnabled fd).perform cfg p

def Process.fdatasync (cfg : Config) (p : Process) (fd : Nat) : Option Process :=
  (fdatasyncRoute cfg.addrs p.mappedAddr fd).perform cfg p

/-- A process goes on unless the call exits: a snapshot completes. -/
theorem SyncRoute.perform_eq_none_iff {cfg : Config} {p : Process} {r : SyncRoute} :
    r.perform cfg p = none ↔ r = .exit := by
  cases r with
  | snapshot addr bytes => simp [perform, snapshot_eq]
  | realCall => simp [perform]
  | exit => simp [perform]

/-- `fsync` ends the process exactly when the descriptor is not mapped. -/
theorem Process.fsync_eq_none_iff {cfg : Config} {p : Process} {fd : Nat} :
    p.fsync cfg fd = none ↔ findFd p.mappedAddr fd = none := by
  rw [fsync, SyncRoute.perform_eq_none_iff, fsyncRoute]
  cases findFd p.mappedAddr fd with
  | none => simp
  | some m => cases p.storeInstEnabled <;> simp [FdMetadata.snapshotRoute]

/-- `fdatasync` never does. -/
theorem Process.fdatasync_ne_none {cfg : Config} {p : Process} {fd : Nat} :
    p.fdatasync cfg fd ≠ none := by
  rw [fdatasync, ne_eq, SyncRoute.perform_eq_none_iff, fdatasyncRoute]
  cases findFd p.mappedAddr fd with
  | none => simp
  | some m =>
      simp only [FdMetadata.snapshotRoute]
      split <;> simp

/-- The range of the row has an address of the tracked region. -/
def FdMetadata.Meets (a : Addrs) (m : FdMetadata) : Prop :=
  max a.startAddr m.start < min a.endAddr m.stop

instance (a : Addrs) (m : FdMetadata) : Decidable (m.Meets a) :=
  inferInstanceAs (Decidable (_ < _))

/-- The descriptor is mapped in the tracked region. -/
def MappedInRegion (a : Addrs) (mappedAddr : List FdMetadata) (fd : Nat) : Prop :=
  ∃ m ∈ findFd mappedAddr fd, m.Meets a

/-- Both calls go the same way, neither ends the process, and a descriptor
that is not mapped in the tracked region is synced by the real call. -/
structure RoutesAlike (a : Addrs) (mappedAddr : List FdMetadata) (storeInstEnabled : Bool)
    (fd : Nat) : Prop where
  same : fsyncRoute mappedAddr storeInstEnabled fd = fdatasyncRoute a mappedAddr fd
  goes_on : fsyncRoute mappedAddr storeInstEnabled fd ≠ .exit
  untracked : ¬ MappedInRegion a mappedAddr fd →
    fsyncRoute mappedAddr storeInstEnabled fd = .realCall ∧
      fdatasyncRoute a mappedAddr fd = .realCall

theorem FdMetadata.snapshotRoute_ne (m : FdMetadata) :
    m.snapshotRoute ≠ .realCall ∧ m.snapshotRoute ≠ .exit := ⟨nofun, nofun⟩

/-- **When `fsync` and `fdatasync` go the same way**: the descriptor is
mapped, and either something was logged and its range starts in the tracked
region and meets it, or nothing was logged and it does not start there. -/
theorem routesAlike_iff (a : Addrs) (mappedAddr : List FdMetadata) (storeInstEnabled : Bool)
    (fd : Nat) : RoutesAlike a mappedAddr storeInstEnabled fd ↔
      ∃ m, findFd mappedAddr fd = some m ∧
        ((storeInstEnabled = true ∧ a.InRange (wadd m.start 1) ∧ m.Meets a) ∨
          (storeInstEnabled = false ∧ ¬ a.InRange (wadd m.start 1))) := by
  cases hfind : findFd mappedAddr fd with
  | none =>
      have hexit : fsyncRoute mappedAddr storeInstEnabled fd = .exit := by rw [fsyncRoute, hfind]
      exact ⟨fun h => absurd hexit h.goes_on, fun ⟨m, hm, _⟩ => by cases hm⟩
  | some m =>
      have hsnap := m.snapshotRoute_ne
      have hfsync : fsyncRoute mappedAddr storeInstEnabled fd =
          if storeInstEnabled then m.snapshotRoute else .realCall := by rw [fsyncRoute, hfind]
      have hfdata : fdatasyncRoute a mappedAddr fd =
          if a.InRange (wadd m.start 1) then m.snapshotRoute else .realCall := by
        rw [fdatasyncRoute, hfind]
      have hmapped : MappedInRegion a mappedAddr fd ↔ m.Meets a := by
        simp [MappedInRegion, hfind]
      simp only [Option.some.injEq, exists_eq_left']
      cases storeInstEnabled with
      | true =>
          rw [if_pos rfl] at hfsync
          constructor
          · intro h
            have hin : a.InRange (wadd m.start 1) := by
              by_contra hout
              rw [if_neg hout] at hfdata
              exact hsnap.1 (hfsync.symm.trans (h.same.trans hfdata))
            have hmeets : m.Meets a := by
              by_contra hapart
              exact hsnap.1 (hfsync.symm.trans (h.untracked (hmapped.not.mpr hapart)).1)
            exact .inl ⟨rfl, hin, hmeets⟩
          · rintro (⟨-, hin, hmeets⟩ | ⟨hfalse, -⟩)
            · rw [if_pos hin] at hfdata
              exact ⟨hfsync.trans hfdata.symm, hfsync ▸ hsnap.2,
                fun hno => absurd (hmapped.mpr hmeets) hno⟩
            · cases hfalse
      | false =>
          rw [if_neg Bool.false_ne_true] at hfsync
          constructor
          · intro h
            refine .inr ⟨rfl, fun hin => ?_⟩
            rw [if_pos hin] at hfdata
            exact hsnap.1 (hfdata.symm.trans (h.same.symm.trans hfsync))
          · rintro (⟨hfalse, -⟩ | ⟨-, hout⟩)
            · cases hfalse
            · rw [if_neg hout] at hfdata
              exact ⟨hfsync.trans hfdata.symm, by rw [hfsync]; nofun, fun _ => ⟨hfsync, hfdata⟩⟩

/-- A file that was never mapped: `fsync` ends the process. -/
theorem routes_differ_unmapped :
    fsyncRoute [] true 5 = .exit ∧ fdatasyncRoute Config.default.addrs [] 5 = .realCall ∧
      ¬ RoutesAlike Config.default.addrs [] true 5 :=
  ⟨rfl, rfl, fun h => h.goes_on rfl⟩

end Cxlbuf
