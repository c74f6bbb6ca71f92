import Cxlbuf.Instrument
import Cxlbuf.Lib.Table
import Cxlbuf.Threads

/-!
# Cxlbuf.Mmap

Where the intercepted `mmap` puts files (`mmap` in `libc_wrappers.cc`,
`map_backing_file` and `map_to_page_cache` in `recovery.cc`), on the level of
the address space: the bump pointer, the start of the backing files, the
registry `mapped_addr` and the mappings the kernel holds.

What a real `mmap` call answers is part of the call; `KernelOk` is what
mmap(2) promises about it.  In CXL mode a pmem file is asked for at the bump
pointer, which advances by whole pages.  Nothing compares it with the end of
the region but the check of the first address of the result, so a mapping lies
inside the region exactly when there was room for it (`placed_inside_iff`).

There are three translations of a byte to its backing: that of the loop over
the log entries counts from `start_addr`, that of the first snapshot from a
constant, and the backing file is mapped at a constant distance.
-/

namespace Cxlbuf

open Run

/-! ## the tracked region -/

/-- The ends of the tracked region, as `init_addrs` accepts them. -/
structure Addrs where
  startAddr : Nat
  endAddr : Nat
  start_ne : startAddr ≠ 0
  start_lt_end : startAddr < endAddr
  end_lt : endAddr < 2 ^ 64

/-- `addr_in_range`. -/
def Addrs.InRange (a : Addrs) (addr : Nat) : Prop := a.startAddr ≤ addr ∧ addr ≤ a.endAddr

instance (a : Addrs) (addr : Nat) : Decidable (a.InRange addr) :=
  inferInstanceAs (Decidable (_ ∧ _))

/-- The region of a configuration. -/
def Config.addrs (cfg : Config) : Addrs where
  startAddr := cfg.startAddr
  endAddr := cfg.endAddr
  start_ne := Nat.ne_of_gt (Nat.lt_of_lt_of_le (by decide) cfg.first_page)
  start_lt_end := cfg.start_lt_end
  end_lt := Nat.lt_of_le_of_lt cfg.end_le (by decide)

/-! ## paths -/

/-- `is_prefix("/mnt/pmem0/", path)`. -/
def onPmem (path : Text) : Bool := "/mnt/pmem0/".toList.isPrefixOf path

/-- `is_prefix("/mnt/cxl0", path)`. -/
def onCxl (path : Text) : Bool := "/mnt/cxl0".toList.isPrefixOf path

/-- `is_prefix("/mnt/mss0", path)`. -/
def onMss (path : Text) : Bool := "/mnt/mss0".toList.isPrefixOf path

/-- `get_backing_fname`. -/
def backingFname (path : Text) : Text := path ++ ".cxlbuf_backing".toList

/-! ## the address space -/

/-- A mapping the kernel holds.  `fd` is `none` for an anonymous one;
`backing` is where its backing file is, if it has one. -/
structure LiveMapping where
  fd : Option Nat
  start : Nat
  len : Nat
  backing : Option Nat
deriving DecidableEq

/-- The mapping contains an address. -/
def LiveMapping.Contains (m : LiveMapping) (x : Nat) : Prop := m.start ≤ x ∧ x < m.start + m.len

/-- The mappings have no address in common. -/
def LiveMapping.Disjoint (m m' : LiveMapping) : Prop :=
  m.start + m.len ≤ m'.start ∨ m'.start + m'.len ≤ m.start

/-- `mmap_start` and `backing_file_start` (0 is `nullptr`), the registry
`mapped_addr`, and the mappings the kernel holds. -/
structure AddressSpace where
  mmapStart : Nat
  backingFileStart : Nat
  mappedAddr : List FdMetadata
  live : List LiveMapping

/-- The address space before the first call. -/
def AddressSpace.empty : AddressSpace := ⟨0, 0, [], []⟩

/-- A call of `mmap`: the hint, the length, the descriptor (`none` is -1) and
its path, which is empty for -1; and what it meets: whether the backing file
could be mapped, where `malloc` put it on the other media, what the real
`mmap` returned (`none` is `MAP_FAILED`) and whether `madvise` succeeded. -/
structure MmapCall where
  addr : Nat
  len : Nat
  fd : Option Nat
  path : Text
  backed : Bool
  buf : Nat
  result : Option Nat
  advised : Bool

namespace AddressSpace

/-- Where the next pmem file goes. -/
def nextAddr (a : Addrs) (s : AddressSpace) : Nat :=
  if s.mmapStart = 0 then a.startAddr else s.mmapStart

/-- The file is put at the bump pointer. -/
def Relocated (cxlModeEnabled : Bool) (path : Text) : Prop :=
  cxlModeEnabled = true ∧ (onPmem path || onCxl path || onMss path) = true

instance (cxlModeEnabled : Bool) (path : Text) : Decidable (Relocated cxlModeEnabled path) :=
  inferInstanceAs (Decidable (_ ∧ _))

/-- The address that is passed to the real `mmap`. -/
def requested (a : Addrs) (cxlModeEnabled : Bool) (s : AddressSpace) (c : MmapCall) : Nat :=
  if Relocated cxlModeEnabled c.path then s.nextAddr a else c.addr

/-- `map_backing_file`, with the address of the backing.  The kernel puts a
backing file at the address asked for, which is free. -/
def mapBackingFile (s : AddressSpace) (addr : Nat) (c : MmapCall) : Option (Nat × AddressSpace) :=
  let bfname := backingFname c.path
  if onCxl bfname || onMss bfname then
    if s.backingFileStart = 0 then some (c.buf, { s with backingFileStart := c.buf }) else none
  else if onPmem bfname && c.backed then
    some (wadd addr backingDistance, { s with backingFileStart := 0x20000000000 })
  else none

/-- `mapped_addr.insert_or_assign`, with the range that was asked for. -/
def register (s : AddressSpace) (fd addr : Nat) (c : MmapCall) : List FdMetadata :=
  Table.insertOrAssign FdMetadata.fd ⟨fd, addr, addr + c.len, String.ofList c.path⟩ s.mappedAddr

/-- `map_to_page_cache` at an address; `none` when the process exits. -/
def mapToPageCache (a : Addrs) (cxlModeEnabled : Bool) (s : AddressSpace) (addr : Nat)
    (backing : Option Nat) (c : MmapCall) : Option AddressSpace :=
  if cxlModeEnabled = true ∧ c.path ≠ [] ∧ onPmem c.path = false ∧
      "/mnt/mss0/".toList.isPrefixOf c.path = false then none
  else
    match c.result with
    | none => some s
    | some result =>
        let live := s.live ++ [⟨c.fd, result, c.len, backing⟩]
        match c.fd with
        | none => some { s with live := live }
        | some fd =>
            if (a.InRange result ∨ addr = 0) ∧ c.advised = true then
              some { s with mappedAddr := s.register fd addr c, live := live }
            else none

/-- `mmap`; `none` when the process exits.  The caller gets `c.result`. -/
def mmap (a : Addrs) (cxlModeEnabled : Bool) (s : AddressSpace) (c : MmapCall) :
    Option AddressSpace :=
  if Relocated cxlModeEnabled c.path then do
    let addr := s.nextAddr a
    let s := { s with mmapStart := wadd addr (wadd c.len 4095 / 4096 * 4096) }
    let (backing, s) ← s.mapBackingFile addr c
    s.mapToPageCache a cxlModeEnabled addr (some backing) c
  else s.mapToPageCache a cxlModeEnabled c.addr none c

/-- What mmap(2) promises: a mapping is not empty and not at `nullptr`, an
address that was asked for (with `MAP_FIXED_NOREPLACE`) is the one returned,
and what was mapped before is not replaced. -/
def KernelOk (a : Addrs) (cxlModeEnabled : Bool) (s : AddressSpace) (c : MmapCall) : Prop :=
  ∀ result ∈ c.result, 0 < c.len ∧ result ≠ 0 ∧
    (s.requested a cxlModeEnabled c ≠ 0 → result = s.requested a cxlModeEnabled c) ∧
    ∀ m ∈ s.live, m.start + m.len ≤ result ∨ result + c.len ≤ m.start

instance (a : Addrs) (cxlModeEnabled : Bool) (s : AddressSpace) (c : MmapCall) :
    Decidable (KernelOk a cxlModeEnabled s c) := by unfold KernelOk; infer_instance

/-! ## what a call does -/

section Calls

variable {a : Addrs} {cxl : Bool} {s s' : AddressSpace} {c : MmapCall}

theorem nextAddr_ne (a : Addrs) (s : AddressSpace) : s.nextAddr a ≠ 0 := by
  unfold nextAddr
  split
  · exact a.start_ne
  · assumption

/-- **What `map_to_page_cache` does**, if the process goes on: nothing when
the real `mmap` fails; otherwise there is a new mapping, and for a descriptor
a range in the registry, which need not be the one mapped. -/
theorem mapToPageCache_cases {addr : Nat} {backing : Option Nat}
    (h : s.mapToPageCache a cxl addr backing c = some s') :
    (c.result = none ∧ s' = s) ∨ ∃ result, c.result = some result ∧
      ((c.fd = none ∧ s' = { s with live := s.live ++ [⟨c.fd, result, c.len, backing⟩] }) ∨
        ∃ fd, c.fd = some fd ∧ (a.InRange result ∨ addr = 0) ∧
          s' = { s with
            mappedAddr := s.register fd addr c
            live := s.live ++ [⟨c.fd, result, c.len, backing⟩] }) := by
  unfold mapToPageCache at h
  split at h
  · cases h
  · split at h
    · rename_i hres
      exact .inl ⟨hres, (Option.some.inj h).symm⟩
    · rename_i result hres
      refine .inr ⟨result, hres, ?_⟩
      split at h
      · rename_i hfd
        exact .inl ⟨hfd, (Option.some.inj h).symm⟩
      · rename_i fd hfd
        split at h
        · rename_i hin
          exact .inr ⟨fd, hfd, hin.1, (Option.some.inj h).symm⟩
        · cases h

/-- Mapping a backing file changes `backing_file_start` only. -/
theorem mapBackingFile_eq {addr : Nat} {r : Nat × AddressSpace}
    (h : s.mapBackingFile addr c = some r) :
    ∃ backingFileStart, r.2 = { s with backingFileStart := backingFileStart } := by
  simp only [mapBackingFile] at h
  split at h
  · split at h
    · exact ⟨_, by rw [← Option.some.inj h]⟩
    · cases h
  · split at h
    · exact ⟨_, by rw [← Option.some.inj h]⟩
    · cases h

/-- The address space as `map_to_page_cache` finds it: a relocated file has
moved the bump pointer. -/
def placing (a : Addrs) (cxl : Bool) (s : AddressSpace) (c : MmapCall) (backingFileStart : Nat) :
    AddressSpace :=
  { s with
    mmapStart := if Relocated cxl c.path then
      wadd (s.nextAddr a) (wadd c.len 4095 / 4096 * 4096) else s.mmapStart
    backingFileStart := backingFileStart }

/-- `mmap` is `map_to_page_cache` at the requested address. -/
theorem mmap_eq (h : s.mmap a cxl c = some s') : ∃ backing backingFileStart,
    (s.placing a cxl c backingFileStart).mapToPageCache a cxl (s.requested a cxl c) backing c =
      some s' := by
  unfold mmap at h
  split at h
  · rename_i hrel
    obtain ⟨⟨backing, s₁⟩, hr, hmap⟩ := Option.bind_eq_some_iff.mp h
    obtain ⟨bfs, rfl⟩ := mapBackingFile_eq hr
    refine ⟨some backing, bfs, ?_⟩
    rw [placing, requested, if_pos hrel, if_pos hrel]
    exact hmap
  · rename_i hrel
    refine ⟨none, s.backingFileStart, ?_⟩
    rw [placing, requested, if_neg hrel, if_neg hrel]
    exact h

/-- **What a call does**, if the process goes on. -/
theorem mmap_cases (h : s.mmap a cxl c = some s') :
    s'.mmapStart = (s.placing a cxl c 0).mmapStart ∧
      ((c.result = none ∧ s'.live = s.live ∧ s'.mappedAddr = s.mappedAddr) ∨
        ∃ result backing, c.result = some result ∧
          s'.live = s.live ++ [⟨c.fd, result, c.len, backing⟩] ∧
          ((c.fd = none ∧ s'.mappedAddr = s.mappedAddr) ∨
            ∃ fd, c.fd = some fd ∧ (a.InRange result ∨ s.requested a cxl c = 0) ∧
              s'.mappedAddr = s.register fd (s.requested a cxl c) c)) := by
  obtain ⟨backing, bfs, hmap⟩ := mmap_eq h
  obtain ⟨hres, rfl⟩ | ⟨result, hres, hrest⟩ := mapToPageCache_cases hmap
  · exact ⟨rfl, .inl ⟨hres, rfl, rfl⟩⟩
  · obtain ⟨hfd, rfl⟩ | ⟨fd, hfd, hin, rfl⟩ := hrest
    · exact ⟨rfl, .inr ⟨result, backing, hres, rfl, .inl ⟨hfd, rfl⟩⟩⟩
    · exact ⟨rfl, .inr ⟨result, backing, hres, rfl, .inr ⟨fd, hfd, hin, rfl⟩⟩⟩

end Calls

/-- The backing file of a pmem file is on the same medium. -/
theorem backingFname_of_pmem {path : Text} (h : onPmem path = true) :
    onCxl (backingFname path) = false ∧ onMss (backingFname path) = false ∧
      onPmem (backingFname path) = true := by
  obtain ⟨rest, hrest⟩ := List.isPrefixOf_iff_prefix.mp h
  rw [backingFname, ← hrest]
  exact ⟨rfl, rfl, rfl⟩

/-! ## the address space of a system -/

/-- The address space has the bump pointer and the registry of the system. -/
structure Represents (as : AddressSpace) (s : System) : Prop where
  mmapStart : as.mmapStart = s.mmapStart
  mappedAddr : as.mappedAddr = s.proc.mappedAddr

/-- What `mmap` does to a system, it does to its address space. -/
theorem Represents.mmap {cfg : Config} {as : AddressSpace} {s s' : System} (h : as.Represents s)
    (hinv : s.Inv cfg) {tid : UInt64} {fd : Nat} {path : Text} (hpath : onPmem path = true)
    {len : Nat} {file backing : ByteMem.Mem}
    (hs' : s.mmap cfg tid fd path len file backing = some s') (hint buf : Nat) :
    ∃ as', as.mmap cfg.addrs true
        ⟨hint, len, some fd, path, true, buf, some (s.nextAddr cfg), true⟩ = some as' ∧
      as'.Represents s' := by
  obtain ⟨hnotCxl, hnotMss, hbacking⟩ := backingFname_of_pmem hpath
  unfold System.mmap at hs'
  split at hs'
  · rename_i hcan
    obtain ⟨-, hfits, hend⟩ := hcan
    have hnext : as.nextAddr cfg.addrs = s.nextAddr cfg := by
      rw [AddressSpace.nextAddr, h.mmapStart]
      rfl
    have hin : cfg.addrs.InRange (s.nextAddr cfg) := ⟨hinv.le_nextAddr.1, hend⟩
    have hbump : wadd (s.nextAddr cfg) (wadd len 4095 / 4096 * 4096) =
        s.nextAddr cfg + pageRoundUp len := by
      unfold wadd pageRoundUp
      omega
    have hrel : Relocated true path := ⟨rfl, by simp [hpath]⟩
    simp only [AddressSpace.mmap, if_pos hrel, hnext, hbump, mapBackingFile, hnotCxl, hnotMss,
      hbacking, Bool.or_self, Bool.and_self, Bool.false_eq_true, if_false, if_true,
      Option.bind_eq_bind, Option.bind_some, mapToPageCache, hpath, Bool.true_eq_false, false_and,
      and_false, hin, true_or, and_self]
    refine ⟨_, rfl, ?_, ?_⟩
    · rw [← Option.some.inj hs']
    · rw [← Option.some.inj hs', register, h.mappedAddr]
      rfl
  · cases hs'

/-! ## placement -/

/-- A call on a descriptor of a file under `/mnt/pmem0/`. -/
def PmemCall (c : MmapCall) : Prop := onPmem c.path = true ∧ c.fd ≠ none

instance (c : MmapCall) : Decidable (PmemCall c) :=
  inferInstanceAs (Decidable (onPmem c.path = true ∧ c.fd ≠ none))

/-- All mappings lie inside the tracked region. -/
def InRegion (a : Addrs) (s : AddressSpace) : Prop :=
  ∀ m ∈ s.live, a.startAddr ≤ m.start ∧ m.start + m.len ≤ a.endAddr

/-- There is room at the bump pointer, or the kernel refuses. -/
def Fits (a : Addrs) (s : AddressSpace) (c : MmapCall) : Prop :=
  c.result ≠ none → s.nextAddr a + c.len ≤ a.endAddr

/-- Mappings start at pages and do not overlap. -/
structure Placed (s : AddressSpace) : Prop where
  next : 4096 ∣ s.mmapStart
  aligned : ∀ m ∈ s.live, 4096 ∣ m.start
  disjoint : s.live.Pairwise LiveMapping.Disjoint

section Placement

variable {a : Addrs} {s s' : AddressSpace} {c : MmapCall}

theorem relocated_of_pmem (h : PmemCall c) : Relocated true c.path := by
  simp [Relocated, h.1]

theorem requested_of_pmem (h : PmemCall c) : s.requested a true c = s.nextAddr a :=
  if_pos (relocated_of_pmem h)

/-- A pmem file is mapped at the bump pointer, or not at all. -/
theorem result_of_pmem (h : PmemCall c) (hker : KernelOk a true s c) {result : Nat}
    (hres : c.result = some result) : result = s.nextAddr a := by
  have hfixed := (hker result hres).2.2.1
  rw [requested_of_pmem h] at hfixed
  exact hfixed (nextAddr_ne a s)

theorem Placed.nextAddr (h : Placed s) (halign : 4096 ∣ a.startAddr) : 4096 ∣ s.nextAddr a := by
  unfold AddressSpace.nextAddr
  split
  · exact halign
  · exact h.next

/-- A mapping that overlaps no other can be added. -/
theorem pairwise_append (h : s.live.Pairwise LiveMapping.Disjoint) {m : LiveMapping}
    (hm : ∀ m' ∈ s.live, m'.start + m'.len ≤ m.start ∨ m.start + m.len ≤ m'.start) :
    (s.live ++ [m]).Pairwise LiveMapping.Disjoint := by
  rw [List.pairwise_append]
  refine ⟨h, List.pairwise_singleton _ _, fun m' hm' m'' hm'' => ?_⟩
  rw [List.mem_singleton.mp hm'']
  exact hm m' hm'

/-- **One call** keeps the placement. -/
theorem Placed.mmap (h : Placed s) (halign : 4096 ∣ a.startAddr) (hpmem : PmemCall c)
    (hker : KernelOk a true s c) (hs' : s.mmap a true c = some s') : Placed s' := by
  obtain ⟨hnext, hlive⟩ := mmap_cases hs'
  have hbump : 4096 ∣ s'.mmapStart := by
    have haddr := h.nextAddr halign
    simp only [hnext, placing, if_pos (relocated_of_pmem hpmem), wadd]
    omega
  obtain ⟨-, hsame, -⟩ | ⟨result, backing, hres, hlive, -⟩ := hlive
  · exact ⟨hbump, hsame ▸ h.aligned, hsame ▸ h.disjoint⟩
  · have hresult := result_of_pmem hpmem hker hres
    refine ⟨hbump, fun m hm => ?_, ?_⟩
    · rw [hlive, List.mem_append, List.mem_singleton] at hm
      obtain hold | rfl := hm
      · exact h.aligned m hold
      · rw [hresult]
        exact h.nextAddr halign
    · rw [hlive]
      exact pairwise_append h.disjoint (hker result hres).2.2.2

/-- **One call** stays inside the region exactly when there is room. -/
theorem placed_inside_iff (hin : InRegion a s) (hpmem : PmemCall c) (hker : KernelOk a true s c)
    (hs' : s.mmap a true c = some s') : InRegion a s' ↔ Fits a s c := by
  obtain ⟨-, ⟨hres, hsame, -⟩ | ⟨result, backing, hres, hlive, hreg⟩⟩ := mmap_cases hs'
  · have hin' : InRegion a s' := by rwa [InRegion, hsame]
    exact ⟨fun _ hne => absurd hres hne, fun _ => hin'⟩
  · have hresult := result_of_pmem hpmem hker hres
    have hstart : a.startAddr ≤ result := by
      obtain ⟨hnone, -⟩ | ⟨fd, -, hrange | hzero, -⟩ := hreg
      · exact absurd hnone hpmem.2
      · exact hrange.1
      · rw [requested_of_pmem hpmem] at hzero
        exact absurd hzero (nextAddr_ne a s)
    have hnew : InRegion a s' ↔ result + c.len ≤ a.endAddr := by
      rw [InRegion, hlive]
      constructor
      · intro hall
        exact (hall _ (List.mem_append_right _ (List.mem_singleton_self _))).2
      · intro hend m hm
        obtain hold | hm := List.mem_append.mp hm
        · exact hin m hold
        · rw [List.mem_singleton.mp hm]
          exact ⟨hstart, hend⟩
    rw [hnew, Fits, hresult]
    exact ⟨fun hend _ => hend, fun hfits => hfits (by simp [hres])⟩

end Placement

/-- **Placement of pmem mappings**: along every run of calls on pmem files,
the mappings start at pages and do not overlap; and they lie inside the
tracked region throughout exactly when every mapping had room between the bump
pointer and the end of the region. -/
theorem placement_iff (a : Addrs) (halign : 4096 ∣ a.startAddr) {calls : List MmapCall}
    (hpmem : ∀ c ∈ calls, PmemCall c)
    (hker : Guarded (mmap a true) (KernelOk a true) .empty calls) {s : AddressSpace}
    (hrun : run (mmap a true) .empty calls = some s) :
    (∀ m ∈ s.live, 4096 ∣ m.start) ∧ s.live.Pairwise LiveMapping.Disjoint ∧
      (Throughout (mmap a true) (InRegion a) .empty calls ↔
        Guarded (mmap a true) (Fits a) .empty calls) := by
  have hboth : Guarded (mmap a true) (fun s c => PmemCall c ∧ KernelOk a true s c) .empty calls :=
    (guarded_of_mem hpmem).and hker
  have hinit : Placed .empty :=
    ⟨Nat.dvd_zero _, fun _ hm => absurd hm List.not_mem_nil, List.Pairwise.nil⟩
  have hplaced : Placed s := hboth.invariant
    (fun s c s' h hok hs' => h.mmap halign hok.1 hok.2 hs') hinit hrun
  refine ⟨hplaced.aligned, hplaced.disjoint, ?_⟩
  exact throughout_iff_guarded (I := fun _ => True) (fun _ _ _ _ _ _ => trivial)
    (fun s c s' _ hok hin hs' => placed_inside_iff hin hok.1 hok.2 hs') trivial
    (fun _ hm => absurd hm List.not_mem_nil) hboth hrun

/-- A region of 4 GiB. -/
def region4G : Addrs := ⟨0x10000000000, 0x10100000000, by decide, by decide, by decide⟩

/-- A pool of 4 GiB, mapped where the kernel is asked to. -/
def poolCall (fd addr : Nat) : MmapCall where
  addr := 0
  len := 0x100000000
  fd := some fd
  path := "/mnt/pmem0/pool".toList
  backed := true
  buf := 0
  result := some addr
  advised := true

/-- One pool fills the region. -/
theorem placement_one_pool :
    ∃ s, run (mmap region4G true) .empty [poolCall 3 0x10000000000] = some s ∧
      Throughout (mmap region4G true) (InRegion region4G) .empty [poolCall 3 0x10000000000] := by
  have hpmem : ∀ c ∈ [poolCall 3 0x10000000000], PmemCall c := by decide
  have hker : Guarded (mmap region4G true) (KernelOk region4G true) .empty
      [poolCall 3 0x10000000000] := ⟨by decide, fun _ _ => trivial⟩
  have hfits : Guarded (mmap region4G true) (Fits region4G) .empty [poolCall 3 0x10000000000] :=
    ⟨fun _ => by decide, fun _ _ => trivial⟩
  exact ⟨_, rfl, (placement_iff region4G (by decide) hpmem hker rfl).2.2.mpr hfits⟩

/-- The second one is mapped at the end of the region, which passes for an
address of it. -/
theorem placement_two_pools :
    (∀ c ∈ [poolCall 3 0x10000000000, poolCall 4 0x10100000000], PmemCall c) ∧
      Guarded (mmap region4G true) (KernelOk region4G true) .empty
        [poolCall 3 0x10000000000, poolCall 4 0x10100000000] ∧
      ∃ s, run (mmap region4G true) .empty
          [poolCall 3 0x10000000000, poolCall 4 0x10100000000] = some s ∧
        ∃ m ∈ s.live, region4G.endAddr ≤ m.start := by
  refine ⟨by decide, ⟨by decide, fun s hs => ⟨?_, fun _ _ => trivial⟩⟩, _, rfl, _,
    List.mem_cons_of_mem _ List.mem_cons_self, by decide⟩
  rw [← Option.some.inj hs]
  decide

/-! ## translations to the backing file -/

/-- The backing address of a byte in the loop over the log entries. -/
def entryBacking (a : Addrs) (s : AddressSpace) (x : Nat) : Nat :=
  wadd s.backingFileStart (wsub x a.startAddr)

/-- The backing address of a byte of a mapping in the copy the first snapshot
makes of it. -/
def firstBacking (s : AddressSpace) (m : LiveMapping) (x : Nat) : Nat :=
  wadd (wadd s.backingFileStart (wsub m.start 0x10000000000)) (x - m.start)

/-- Where a byte of a mapping is in the mapping of its backing file. -/
def mappedBacking (backing : Nat) (m : LiveMapping) (x : Nat) : Nat := wadd backing (x - m.start)

/-- These are the addresses `snapshot` copies to. -/
theorem dstAddr_eq_entryBacking {cfg : Config} {s : AddressSpace}
    (h : cfg.backingFileStart = s.backingFileStart) (e : LogEntryLean) :
    dstAddr cfg e = s.entryBacking cfg.addrs e.addr := by
  rw [dstAddr, h]
  rfl

theorem bulkCopy_eq_firstBacking {cfg : Config} {s : AddressSpace} {p : Process} {addr : Nat}
    (h : cfg.backingFileStart = s.backingFileStart) {args : CopyArgs}
    (hbulk : bulkCopy cfg p addr = some args) (m : LiveMapping) (hm : m.start = args.src)
    (x : Nat) :
    wadd args.dst (x - args.src) = s.firstBacking m x := by
  obtain ⟨fm, -, rfl⟩ := Option.map_eq_some_iff.mp hbulk
  rw [firstBacking, hm, h]

/-- The backing files are where `map_backing_file` puts them. -/
structure Backed (s : AddressSpace) : Prop where
  backing : ∀ m ∈ s.live, m.backing = some (wadd m.start backingDistance)
  start : s.live ≠ [] → s.backingFileStart = 0x20000000000

section Translations

variable {a : Addrs} {s s' : AddressSpace} {c : MmapCall}

/-- `map_backing_file` for a pmem file. -/
theorem mapBackingFile_of_pmem (h : PmemCall c) {addr : Nat} {r : Nat × AddressSpace}
    (hr : s.mapBackingFile addr c = some r) :
    r = (wadd addr backingDistance, { s with backingFileStart := 0x20000000000 }) := by
  obtain ⟨hcxl, hmss, -⟩ := backingFname_of_pmem h.1
  simp only [mapBackingFile, hcxl, hmss, Bool.or_self, Bool.false_eq_true, if_false] at hr
  split at hr
  · exact (Option.some.inj hr).symm
  · cases hr

theorem mmap_of_pmem (h : PmemCall c) (hs' : s.mmap a true c = some s') :
    (s.placing a true c 0x20000000000).mapToPageCache a true (s.nextAddr a)
      (some (wadd (s.nextAddr a) backingDistance)) c = some s' := by
  have hrel := relocated_of_pmem h
  rw [mmap, if_pos hrel] at hs'
  obtain ⟨r, hr, hmap⟩ := Option.bind_eq_some_iff.mp hs'
  have heq := mapBackingFile_of_pmem h hr
  subst heq
  rw [placing, if_pos hrel]
  exact hmap

/-- **One call** keeps the backing files in place. -/
theorem Backed.mmap (h : Backed s) (hpmem : PmemCall c) (hker : KernelOk a true s c)
    (hs' : s.mmap a true c = some s') : Backed s' := by
  have hold : ∀ m ∈ (s.placing a true c 0x20000000000).live,
      m.backing = some (wadd m.start backingDistance) := h.backing
  obtain ⟨-, rfl⟩ | ⟨result, hres, hmapped⟩ := mapToPageCache_cases (mmap_of_pmem hpmem hs')
  · exact ⟨hold, fun _ => rfl⟩
  · have hresult := result_of_pmem hpmem hker hres
    have hnew : ∀ m ∈ (s.placing a true c 0x20000000000).live ++
        [⟨c.fd, result, c.len, some (wadd (s.nextAddr a) backingDistance)⟩],
        m.backing = some (wadd m.start backingDistance) := by
      intro m hm
      obtain hm | hm := List.mem_append.mp hm
      · exact hold m hm
      · rw [List.mem_singleton.mp hm, hresult]
    obtain ⟨-, rfl⟩ | ⟨fd, -, -, rfl⟩ := hmapped
    · exact ⟨hnew, fun _ => rfl⟩
    · exact ⟨hnew, fun _ => rfl⟩

/-- The first snapshot and the mapping agree on every byte. -/
theorem firstBacking_eq (hs : s.backingFileStart = 0x20000000000) {m : LiveMapping} {x : Nat}
    (hx : m.Contains x) : s.firstBacking m x = wadd x backingDistance := by
  have hle := hx.1
  simp only [firstBacking, hs, wadd, wsub, backingDistance]
  omega

theorem mappedBacking_eq {m : LiveMapping} {x : Nat} (hx : m.Contains x) :
    mappedBacking (wadd m.start backingDistance) m x = wadd x backingDistance := by
  have hle := hx.1
  simp only [mappedBacking, wadd, backingDistance]
  omega

/-- The loop over the entries agrees with them if the region starts at the
constant. -/
theorem entryBacking_eq_iff (hs : s.backingFileStart = 0x20000000000) (x : Nat) :
    s.entryBacking a x = wadd x backingDistance ↔ a.startAddr = 0x10000000000 := by
  have hlt : a.startAddr < 2 ^ 64 := Nat.lt_trans a.start_lt_end a.end_lt
  simp only [entryBacking, hs, wadd, wsub, backingDistance]
  omega

end Translations

/-- **When the translations to the backing file agree**: for every byte of a
mapping made by any run of calls on pmem files, the loop over the entries, the
first snapshot and `map_backing_file` have the same backing address, which is
`backingDistance` above the byte, exactly when the region starts at
`0x10000000000`. -/
theorem translations_agree_iff (a : Addrs) {calls : List MmapCall}
    (hpmem : ∀ c ∈ calls, PmemCall c)
    (hker : Guarded (mmap a true) (KernelOk a true) .empty calls) {s : AddressSpace}
    (hrun : run (mmap a true) .empty calls = some s) {m : LiveMapping} (hm : m ∈ s.live) {x : Nat}
    (hx : m.Contains x) :
    ∃ backing, m.backing = some backing ∧ mappedBacking backing m x = wadd x backingDistance ∧
      (s.entryBacking a x = s.firstBacking m x ∧
        s.firstBacking m x = mappedBacking backing m x ↔ a.startAddr = 0x10000000000) := by
  have hboth : Guarded (mmap a true) (fun s c => PmemCall c ∧ KernelOk a true s c) .empty calls :=
    (guarded_of_mem hpmem).and hker
  have hbacked : Backed s := hboth.invariant (fun s c s' h hok hs' => h.mmap hok.1 hok.2 hs')
    ⟨fun _ hm => absurd hm List.not_mem_nil, fun h => absurd rfl h⟩ hrun
  have hstart := hbacked.start (List.ne_nil_of_mem hm)
  refine ⟨_, hbacked.backing m hm, mappedBacking_eq hx, ?_⟩
  rw [firstBacking_eq hstart hx, mappedBacking_eq hx, and_iff_left rfl,
    entryBacking_eq_iff hstart]

/-- The first byte of the first pool, with the region where the scripts put
it. -/
theorem translations_agree_pool :
    ∃ s, run (mmap region4G true) .empty [poolCall 3 0x10000000000] = some s ∧
      ∀ m ∈ s.live, m.start = 0x10000000000 ∧
        s.entryBacking region4G 0x10000000000 = s.firstBacking m 0x10000000000 := by
  have hker : Guarded (mmap region4G true) (KernelOk region4G true) .empty
      [poolCall 3 0x10000000000] := ⟨by decide, fun _ _ => trivial⟩
  refine ⟨_, rfl, fun m hm => ?_⟩
  have hmap : m = ⟨some 3, 0x10000000000, 0x100000000, some 0x20000000000⟩ :=
    List.mem_singleton.mp hm
  obtain ⟨_, -, -, hiff⟩ := translations_agree_iff (m := m) (x := 0x10000000000) region4G
    (by decide) hker rfl hm (by rw [hmap]; exact ⟨by decide, by decide⟩)
  exact ⟨by rw [hmap], (hiff.mpr rfl).1⟩

/-- A region that starts elsewhere. -/
def shiftedRegion : Addrs := ⟨0x11000000000, 0x12000000000, by decide, by decide, by decide⟩

/-- There the loop over the entries and the first snapshot do not agree. -/
theorem translations_differ_pool :
    Guarded (mmap shiftedRegion true) (KernelOk shiftedRegion true) .empty
        [poolCall 3 0x11000000000] ∧
      ∃ s, run (mmap shiftedRegion true) .empty [poolCall 3 0x11000000000] = some s ∧
        ∃ m ∈ s.live, m.start = 0x11000000000 ∧
          s.entryBacking shiftedRegion 0x11000000000 = 0x20000000000 ∧
          s.firstBacking m 0x11000000000 = 0x21000000000 :=
  ⟨⟨by decide, fun _ _ => trivial⟩, _, rfl, _, List.mem_singleton_self _, rfl, by decide,
    by decide⟩

end AddressSpace

end Cxlbuf
