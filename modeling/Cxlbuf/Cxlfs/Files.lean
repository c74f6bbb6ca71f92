import Mathlib.Algebra.Group.Nat.Defs
import Mathlib.Data.List.AList
import Mathlib.Data.Nat.Find
import Cxlbuf.Lib.Run
import Cxlbuf.Lib.While

/-!
# Cxlbuf.Cxlfs.Files

Files without a file system (`libcxlfs.cc`, `libvramfs.cc`): `open` gives a
path a descriptor, the first `lseek` of a descriptor gives its file a length
and a region, and `mmap` hands out the region.  The two libraries have the same
code and differ in the allocator: libcxlfs moves an offset through the shared
region, libvramfs asks for memory on the device, which may throw.

The three tables stay consistent whatever the allocator does
(`Consistent.step`).  The allocator of libcxlfs checks nothing, so files lie
apart only as long as all requests fit (`separate_step_iff`), and `mmap` does not look
at the offset once it has compared it (`mapsWindow_iff`).

A descriptor is an unbounded number, a pointer is an address, and an assertion
that fails ends the process (`none`).
-/

namespace Cxlbuf.Files

open Run

/-! ## the tables -/

/-- A `std::unordered_map`. -/
abbrev Map (κ ν : Type) := AList fun _ : κ => ν

/-- A `std::string`. -/
abbrev Path := List Char

/-- `fd_desc_t`. -/
structure FdDesc where
  fd : Int
  region : Nat
  len : BitVec 64
  vaAllocOff : BitVec 64
  seek : BitVec 64

/-- The tables, with the state of the allocator. -/
structure Fs (α : Type) where
  pathToFd : Map Path Int
  fdToPath : Map Int Path
  fdDesc : Map Int FdDesc
  alloc : α

/-- Empty tables. -/
def Fs.empty {α : Type} (alloc : α) : Fs α := ⟨∅, ∅, ∅, alloc⟩

/-- `errno`. -/
inductive Errno where
  | ebadf
  | enosys
  | enotsup
  | einval
  deriving DecidableEq

/-- What `lseek` does: it returns an offset, or -1 with an error, or the
allocator throws. -/
inductive Seek where
  | returned (off : BitVec 64)
  | failed (e : Errno)
  | threw
  deriving DecidableEq

/-- An allocator returns an address or throws. -/
abbrev Malloc (α : Type) := α → BitVec 64 → Option Nat × α

section Code

variable {α : Type} (s : Fs α)

/-- `get_free_fd`, with at most `fuel` tests of its loop. -/
def Fs.getFreeFd (fuel : Nat) : Option Int :=
  While.loop (fun fd => (s.fdToPath.lookup fd).isSome) (fun fd => .yield (fd + 1)) fuel 1

/-- `create_fd`. -/
def Fs.createFd (path : Path) : Option (Int × Fs α) :=
  (s.getFreeFd (s.fdToPath.keys.length + 1)).map fun fd =>
    (fd, { s with
      fdToPath := s.fdToPath.insert fd path
      pathToFd := s.pathToFd.insert path fd
      fdDesc := s.fdDesc.insert fd ⟨fd, 0, 0, 0, 0⟩ })

/-- `open`. -/
def Fs.openFile (path : Path) : Option (Int × Fs α) :=
  match s.pathToFd.lookup path with
  | some fd => some (fd, s)
  | none => s.createFd path

/-- `SEEK_SET`. -/
def seekSet : Int := 0

/-- `lseek`.  The length is recorded before the region is allocated. -/
def Fs.lseek (malloc : Malloc α) (fd : Int) (offset : BitVec 64) (whence : Int) :
    Option (Seek × Fs α) :=
  match s.fdDesc.lookup fd with
  | none => some (.failed .ebadf, s)
  | some d =>
      if whence ≠ seekSet then some (.failed .enosys, s)
      else if d.len ≠ 0 then none
      else if d.len < offset then
        let (region, alloc) := malloc s.alloc offset
        some (if region.isSome then .returned offset else .threw, { s with
          fdDesc := s.fdDesc.insert fd
            { d with seek := offset, len := offset, region := region.getD d.region }
          alloc := alloc })
      else
        some (.returned offset, { s with fdDesc := s.fdDesc.insert fd { d with seek := offset } })

end Code

/-- A call of the program. -/
inductive Call where
  | openFile (path : Path)
  | lseek (fd : Int) (offset : BitVec 64) (whence : Int)
  | malloc (bytes : BitVec 64)

/-- A call, for its effect. -/
def step {α : Type} (malloc : Malloc α) (s : Fs α) : Call → Option (Fs α)
  | .openFile path => (s.openFile path).map Prod.snd
  | .lseek fd offset whence => (s.lseek malloc fd offset whence).map Prod.snd
  | .malloc bytes => some { s with alloc := (malloc s.alloc bytes).2 }

/-- What a call asks the allocator for. -/
def request {α : Type} (s : Fs α) : Call → Option (BitVec 64)
  | .openFile _ => none
  | .lseek fd offset whence =>
      if (s.fdDesc.lookup fd).isSome ∧ whence = seekSet ∧ offset ≠ 0 then some offset else none
  | .malloc bytes => some bytes

/-! ## the search for a descriptor -/

section Search

variable {α : Type} {s : Fs α}

/-- The descriptors in use from 1 on are at most as many as there are files. -/
theorem le_length_keys {n : Nat} (h : ∀ i < n, ((s.fdToPath.lookup (1 + i : Int))).isSome) :
    n ≤ s.fdToPath.keys.length := by
  have hsub : (List.range n).map (fun i : Nat => (1 + i : Int)) ⊆ s.fdToPath.keys := by
    intro k hk
    obtain ⟨i, hi, rfl⟩ := List.mem_map.mp hk
    exact AList.lookup_isSome.mp (h i (List.mem_range.mp hi))
  have hnodup : ((List.range n).map (fun i : Nat => (1 + i : Int))).Nodup :=
    List.nodup_range.map fun i j hij => by omega
  simpa using (List.subperm_of_subset hnodup hsub).length_le

/-- **`get_free_fd` returns the least positive descriptor that is not in
use**, within one test for each file. -/
theorem getFreeFd_spec (s : Fs α) :
    ∃ fd, s.getFreeFd (s.fdToPath.keys.length + 1) = some fd ∧ 1 ≤ fd ∧
      s.fdToPath.lookup fd = none ∧ ∀ k, 1 ≤ k → k < fd → (s.fdToPath.lookup k).isSome := by
  have hfree : ∃ i : Nat, s.fdToPath.lookup (1 + i : Int) = none := by
    by_contra hall
    have hle := le_length_keys (s := s) (n := s.fdToPath.keys.length + 1) fun i _ =>
      Option.isSome_iff_ne_none.mpr fun hnone => hall ⟨i, hnone⟩
    omega
  have hused (i : Nat) (hi : i < Nat.find hfree) : (s.fdToPath.lookup (1 + i : Int)).isSome :=
    Option.isSome_iff_ne_none.mpr (Nat.find_min hfree hi)
  have htrace : s.getFreeFd (Nat.find hfree + 1) = some (1 + Nat.find hfree : Int) := by
    unfold Fs.getFreeFd
    apply While.loop_trace (f := fun i : Nat => (1 + i : Int))
    · intro i hi
      exact ⟨hused i hi, by simp [Int.add_assoc]⟩
    · simp [Nat.find_spec hfree]
  refine ⟨1 + Nat.find hfree, ?_, by omega, Nat.find_spec hfree, fun k hk hlt => ?_⟩
  · exact While.loop_of_le htrace (Nat.succ_le_succ (le_length_keys hused))
  · have hi := hused (k - 1).toNat (by omega)
    rwa [show (1 + ((k - 1).toNat : Int)) = k by omega] at hi

end Search

/-! ## consistent tables -/

theorem lookup_insert {κ ν : Type} [DecidableEq κ] (m : Map κ ν) (k k' : κ) (v : ν) :
    (m.insert k v).lookup k' = if k' = k then some v else m.lookup k' := by
  by_cases h : k' = k
  · subst h
    simp
  · simp [h]

/-- The tables of paths and descriptors are inverse to each other, and there
is one record for each descriptor, with its number. -/
structure Consistent {α : Type} (s : Fs α) : Prop where
  inverse : ∀ path fd, s.pathToFd.lookup path = some fd ↔ s.fdToPath.lookup fd = some path
  desc_iff : ∀ fd, (s.fdDesc.lookup fd).isSome ↔ (s.fdToPath.lookup fd).isSome
  own : ∀ fd d, s.fdDesc.lookup fd = some d → d.fd = fd

section Steps

variable {α : Type} {malloc : Malloc α} {s s' : Fs α} {path : Path} {fd : Int}

/-- What `open` does. -/
theorem openFile_cases (h : s.openFile path = some (fd, s')) :
    (s.pathToFd.lookup path = some fd ∧ s' = s) ∨
      (s.pathToFd.lookup path = none ∧ s.fdToPath.lookup fd = none ∧
        s' = { s with
          fdToPath := s.fdToPath.insert fd path
          pathToFd := s.pathToFd.insert path fd
          fdDesc := s.fdDesc.insert fd ⟨fd, 0, 0, 0, 0⟩ }) := by
  cases hpath : s.pathToFd.lookup path with
  | some fd' =>
      simp only [Fs.openFile, hpath, Option.some.injEq, Prod.mk.injEq] at h
      obtain ⟨rfl, rfl⟩ := h
      exact .inl ⟨rfl, rfl⟩
  | none =>
      obtain ⟨fd', hfree, -, hnone, -⟩ := getFreeFd_spec s
      simp only [Fs.openFile, hpath, Fs.createFd, hfree, Option.map_some, Option.some.injEq,
        Prod.mk.injEq] at h
      obtain ⟨rfl, rfl⟩ := h
      exact .inr ⟨rfl, hnone, rfl⟩

theorem openFile_isSome (s : Fs α) (path : Path) : ∃ fd s', s.openFile path = some (fd, s') := by
  cases hpath : s.pathToFd.lookup path with
  | some fd => exact ⟨fd, s, by simp [Fs.openFile, hpath]⟩
  | none =>
      obtain ⟨fd, hfree, -⟩ := getFreeFd_spec s
      exact ⟨fd, _, by simp [Fs.openFile, hpath, Fs.createFd, hfree]; rfl⟩

/-- What `lseek` does: nothing, or it writes to the record of the descriptor,
after it has asked for a region if there is an offset. -/
theorem lseek_cases {offset : BitVec 64} {whence : Int} {r : Seek}
    (h : s.lseek malloc fd offset whence = some (r, s')) :
    (request s (.lseek fd offset whence) = none ∧ s' = s) ∨
      ∃ d d', s.fdDesc.lookup fd = some d ∧ d'.fd = d.fd ∧ d'.vaAllocOff = d.vaAllocOff ∧
        ((request s (.lseek fd offset whence) = none ∧ d'.len = 0 ∧
            s' = { s with fdDesc := s.fdDesc.insert fd d' }) ∨
          (request s (.lseek fd offset whence) = some offset ∧ d'.len = offset ∧
            (∀ region ∈ (malloc s.alloc offset).1, d'.region = region) ∧
            s' = { s with
              fdDesc := s.fdDesc.insert fd d'
              alloc := (malloc s.alloc offset).2 })) := by
  unfold Fs.lseek at h
  cases hd : s.fdDesc.lookup fd with
  | none =>
      simp only [hd, Option.some.injEq, Prod.mk.injEq] at h
      exact .inl ⟨by simp [request, hd], h.2.symm⟩
  | some d =>
      simp only [hd] at h
      by_cases hwhence : whence = seekSet
      · rw [if_neg (not_not.mpr hwhence)] at h
        by_cases hlen : d.len = 0
        · rw [if_neg (not_not.mpr hlen)] at h
          right
          by_cases hpos : d.len < offset
          · rw [if_pos hpos, Option.some.injEq, Prod.mk.injEq] at h
            have hoff : offset ≠ 0 := by bv_omega
            have hreq : request s (.lseek fd offset whence) = some offset := by
              rw [request, if_pos ⟨by simp [hd], hwhence, hoff⟩]
            refine ⟨d, { d with
              seek := offset
              len := offset
              region := (malloc s.alloc offset).1.getD d.region }, rfl, rfl, rfl,
              .inr ⟨hreq, rfl, fun region hr => ?_, h.2.symm⟩⟩
            rw [Option.mem_def] at hr
            simp [hr]
          · rw [if_neg hpos, Option.some.injEq, Prod.mk.injEq] at h
            have hoff : offset = 0 := by bv_omega
            have hreq : request s (.lseek fd offset whence) = none := by
              rw [request, if_neg fun hc => hc.2.2 hoff]
            exact ⟨d, { d with seek := offset }, rfl, rfl, rfl, .inl ⟨hreq, hlen, h.2.symm⟩⟩
        · rw [if_pos hlen] at h
          cases h
      · rw [if_pos hwhence, Option.some.injEq, Prod.mk.injEq] at h
        exact .inl ⟨by simp [request, hwhence], h.2.symm⟩

/-- **What a call does**: nothing, or it creates a file, or it writes to the
record of a descriptor without asking for a region or with one, or it only asks
for memory. -/
theorem step_cases {c : Call} (h : step malloc s c = some s') :
    (request s c = none ∧ s' = s) ∨
      (∃ path fd, request s c = none ∧ s.pathToFd.lookup path = none ∧
        s.fdToPath.lookup fd = none ∧ s' = { s with
          fdToPath := s.fdToPath.insert fd path
          pathToFd := s.pathToFd.insert path fd
          fdDesc := s.fdDesc.insert fd ⟨fd, 0, 0, 0, 0⟩ }) ∨
      (∃ fd d d', s.fdDesc.lookup fd = some d ∧ d'.fd = d.fd ∧ d'.vaAllocOff = d.vaAllocOff ∧
        ((request s c = none ∧ d'.len = 0 ∧ s' = { s with fdDesc := s.fdDesc.insert fd d' }) ∨
          ∃ bytes, request s c = some bytes ∧ d'.len = bytes ∧
            (∀ region ∈ (malloc s.alloc bytes).1, d'.region = region) ∧
            s' = { s with
              fdDesc := s.fdDesc.insert fd d'
              alloc := (malloc s.alloc bytes).2 })) ∨
      ∃ bytes, request s c = some bytes ∧ s' = { s with alloc := (malloc s.alloc bytes).2 } := by
  cases c with
  | openFile path =>
      obtain ⟨⟨fd, s₁⟩, hopen, rfl⟩ := Option.map_eq_some_iff.mp h
      obtain ⟨-, hsame⟩ | ⟨hpath, hfd, hnew⟩ := openFile_cases hopen
      · exact .inl ⟨rfl, hsame⟩
      · exact .inr (.inl ⟨path, fd, rfl, hpath, hfd, hnew⟩)
  | lseek fd offset whence =>
      obtain ⟨⟨r, s₁⟩, hseek, rfl⟩ := Option.map_eq_some_iff.mp h
      obtain hsame | ⟨d, d', hd, hown, hva, hset⟩ := lseek_cases hseek
      · exact .inl hsame
      · exact .inr (.inr (.inl ⟨fd, d, d', hd, hown, hva, hset.imp_right fun hr => ⟨offset, hr⟩⟩))
  | malloc bytes => exact .inr (.inr (.inr ⟨bytes, rfl, (Option.some.inj h).symm⟩))

theorem Consistent.create (h : Consistent s) (hpath : s.pathToFd.lookup path = none)
    (hfd : s.fdToPath.lookup fd = none) : Consistent { s with
      fdToPath := s.fdToPath.insert fd path
      pathToFd := s.pathToFd.insert path fd
      fdDesc := s.fdDesc.insert fd ⟨fd, 0, 0, 0, 0⟩ } where
  inverse q k := by
    simp only [lookup_insert]
    by_cases hq : q = path <;> by_cases hk : k = fd
    · simp [hq, hk]
    · have hnone := (h.inverse path k).not.mp (by simp [hpath])
      simp [hq, hk, hnone, Ne.symm hk]
    · have hnone := (h.inverse q fd).not.mpr (by simp [hfd])
      simp [hq, hk, hnone, Ne.symm hq]
    · simp [hq, hk, h.inverse q k]
  desc_iff k := by
    simp only [lookup_insert]
    split <;> simp [h.desc_iff k]
  own k d := by
    simp only [lookup_insert]
    split
    · next hk =>
      rw [Option.some.injEq]
      rintro rfl
      exact hk.symm
    · exact h.own k d

theorem Consistent.setDesc (h : Consistent s) {d d' : FdDesc} (hd : s.fdDesc.lookup fd = some d)
    (hown : d'.fd = d.fd) (alloc : α) :
    Consistent { s with fdDesc := s.fdDesc.insert fd d', alloc := alloc } where
  inverse := h.inverse
  desc_iff k := by
    rw [lookup_insert, ← h.desc_iff k]
    split
    · next hk =>
      subst hk
      simp [hd]
    · rfl
  own k d₁ := by
    rw [lookup_insert]
    split
    · next hk =>
      rw [Option.some.injEq]
      rintro rfl
      rw [hown, hk, h.own fd d hd]
    · exact h.own k d₁

/-- **Every call keeps the tables consistent.** -/
theorem Consistent.step (h : Consistent s) {c : Call} (hstep : Files.step malloc s c = some s') :
    Consistent s' := by
  obtain ⟨-, rfl⟩ | ⟨path, fd, -, hpath, hfd, rfl⟩ |
    ⟨fd, d, d', hd, hown, -, ⟨-, -, rfl⟩ | ⟨bytes, -, -, -, rfl⟩⟩ | ⟨bytes, -, rfl⟩ :=
    step_cases hstep
  · exact h
  · exact h.create hpath hfd
  · exact h.setDesc hd hown s.alloc
  · exact h.setDesc hd hown _
  · exact ⟨h.inverse, h.desc_iff, h.own⟩

/-- A path keeps its descriptor. -/
theorem lookup_path_step (h : s.pathToFd.lookup path = some fd) {c : Call}
    (hstep : step malloc s c = some s') : s'.pathToFd.lookup path = some fd := by
  obtain ⟨-, rfl⟩ | ⟨q, k, -, hq, -, rfl⟩ |
    ⟨k, d, d', -, -, -, ⟨-, -, rfl⟩ | ⟨bytes, -, -, -, rfl⟩⟩ | ⟨bytes, -, rfl⟩ :=
    step_cases hstep
  · exact h
  · have hne : path ≠ q := by
      rintro rfl
      rw [h] at hq
      cases hq
    simp [hne, h]
  · exact h
  · exact h
  · exact h

theorem Consistent.empty (a : α) : Consistent (Fs.empty a) :=
  ⟨by simp [Fs.empty], by simp [Fs.empty], by simp [Fs.empty]⟩

theorem Consistent.run (h : Consistent s) {cs : List Call}
    (hrun : Run.run (Files.step malloc) s cs = some s') : Consistent s' :=
  invariant_of_run (fun _ _ _ hs hstep => hs.step hstep) h hrun

theorem lookup_path_run (h : s.pathToFd.lookup path = some fd) {cs : List Call}
    (hrun : run (step malloc) s cs = some s') : s'.pathToFd.lookup path = some fd :=
  invariant_of_run (I := fun s => s.pathToFd.lookup path = some fd)
    (fun _ _ _ hs hstep => lookup_path_step hs hstep) h hrun

/-- After `open` the path has the descriptor that was returned. -/
theorem lookup_path_openFile (h : s.openFile path = some (fd, s')) :
    s'.pathToFd.lookup path = some fd := by
  obtain ⟨hpath, rfl⟩ | ⟨-, -, rfl⟩ := openFile_cases h
  · exact hpath
  · simp

/-- Two opens return the same descriptor exactly if the paths are the same. -/
theorem openFile_eq_iff (hs : Consistent s) (hpath : s.pathToFd.lookup path = some fd) {q : Path}
    {k : Int} (hopen : s.openFile q = some (k, s')) : fd = k ↔ path = q := by
  obtain ⟨hq, -⟩ | ⟨hq, hk, -⟩ := openFile_cases hopen
  · constructor
    · rintro rfl
      have hboth := (hs.inverse q fd).mp hq
      rw [(hs.inverse path fd).mp hpath] at hboth
      exact Option.some.inj hboth
    · rintro rfl
      rw [hpath] at hq
      exact Option.some.inj hq
  · -- the path is new, so is its descriptor
    constructor
    · rintro rfl
      rw [(hs.inverse path fd).mp hpath] at hk
      cases hk
    · rintro rfl
      rw [hpath] at hq
      cases hq

end Steps

/-! ## the two libraries -/

/-- `mmap`'s flags. -/
def mapPrivate : BitVec 32 := 0x02

def mapFixed : BitVec 32 := 0x10

def mapAnonymous : BitVec 32 := 0x20

def mapFixedNoreplace : BitVec 32 := 0x100000

/-- `mmap`: the address that is returned, or the error.  The sum of length and
offset is one of words. -/
def mmap (fdDesc : Map Int FdDesc) (length : BitVec 64) (flags : BitVec 32) (fd : Int)
    (offset : BitVec 64) : Except Errno Int :=
  match fdDesc.lookup fd with
  | none => .error .ebadf
  | some d =>
      if flags &&& mapFixed ≠ 0 ∨ flags &&& mapFixedNoreplace ≠ 0 then .error .enotsup
      else if flags &&& mapPrivate ≠ 0 ∨ flags &&& mapAnonymous ≠ 0 then .error .enotsup
      else if d.len < length + offset then .error .einval
      else .ok (d.region + d.vaAllocOff.toInt)

/-- A part of the shared region, from its start. -/
structure Region where
  off : Nat
  len : Nat
  deriving DecidableEq

/-- The allocator of libcxlfs: the shared region, `bump_off`, and what it has
handed out, which it does not look at. -/
structure Bump where
  shm : Nat
  bumpOff : BitVec 64
  regions : List Region

namespace Libcxlfs

/-- `libcxlfs::malloc`. -/
def malloc (b : Bump) (bytes : BitVec 64) : Option Nat × Bump :=
  (some (b.shm + b.bumpOff.toNat), { b with
    bumpOff := b.bumpOff + bytes
    regions := b.regions ++ [⟨b.bumpOff.toNat, bytes.toNat⟩] })

/-- A call of libcxlfs. -/
def step : Fs Bump → Call → Option (Fs Bump) := Files.step malloc

/-- `libcxlfs::mmap`. -/
def mmap := Files.mmap

/-- Nothing has been opened or allocated. -/
def init (shm : Nat) : Fs Bump := .empty ⟨shm, 0, []⟩

end Libcxlfs

namespace Libvramfs

/-- A call of libvramfs, over an allocator of device memory. -/
def step {α : Type} (vramMalloc : Malloc α) : Fs α → Call → Option (Fs α) := Files.step vramMalloc

/-- `libvramfs::mmap`. -/
def mmap := Files.mmap

end Libvramfs

/-! ## descriptors -/

/-- In every state that is reached the tables are consistent, the search for a
descriptor ends with the least one that is free, and `open` returns; it
changes nothing if the path is open, and later opens return the same
descriptor exactly for the same path. -/
def DescriptorsConsistent {α : Type} (step : Fs α → Call → Option (Fs α)) (init : Fs α) : Prop :=
  ∀ cs s, run step init cs = some s →
    Consistent s ∧
    (∃ fuel fd, s.getFreeFd fuel = some fd ∧ 1 ≤ fd ∧ s.fdToPath.lookup fd = none ∧
      ∀ k, 1 ≤ k → k < fd → (s.fdToPath.lookup k).isSome) ∧
    ∀ path, ∃ fd s₁, s.openFile path = some (fd, s₁) ∧
      ((s.pathToFd.lookup path).isSome → s₁ = s) ∧
      ∀ cs' s₂ q k s₃, run step s₁ cs' = some s₂ → s₂.openFile q = some (k, s₃) →
        (fd = k ↔ path = q)

theorem step_openFile {α : Type} (malloc : Malloc α) {s s' : Fs α} {path : Path} {fd : Int}
    (h : s.openFile path = some (fd, s')) : step malloc s (.openFile path) = some s' := by
  simp [step, h]

/-- Whatever the allocator does. -/
theorem descriptorsConsistent_of_malloc {α : Type} (malloc : Malloc α) (a : α) :
    DescriptorsConsistent (step malloc) (.empty a) := by
  intro cs s hrun
  have hs : Consistent s := (Consistent.empty a).run hrun
  obtain ⟨fd, hfree⟩ := getFreeFd_spec s
  refine ⟨hs, ⟨_, fd, hfree⟩, fun path => ?_⟩
  obtain ⟨k, s₁, hopen⟩ := openFile_isSome s path
  refine ⟨k, s₁, hopen, fun hpath => ?_, fun cs' s₂ q k' s₃ hrun' hopen' => ?_⟩
  · obtain ⟨-, rfl⟩ | ⟨hnone, -⟩ := openFile_cases hopen
    · rfl
    · simp [hnone] at hpath
  · have hs₂ : Consistent s₂ := (hs.step (step_openFile malloc hopen)).run hrun'
    exact openFile_eq_iff hs₂ (lookup_path_run (lookup_path_openFile hopen) hrun') hopen'

/-- The tables of both libraries stay consistent. -/
theorem descriptors_consistent (shm : Nat) {α : Type} (vramMalloc : Malloc α) (vram : α) :
    DescriptorsConsistent Libcxlfs.step (Libcxlfs.init shm) ∧
      DescriptorsConsistent (Libvramfs.step vramMalloc) (.empty vram) :=
  ⟨descriptorsConsistent_of_malloc Libcxlfs.malloc _,
    descriptorsConsistent_of_malloc vramMalloc vram⟩

/-! ## regions -/

/-- `MEM_SIZE`. -/
def memSize : Nat := 16 * 2 ^ 30

/-- The regions have no byte in common. -/
def Region.Disjoint (a b : Region) : Prop :=
  ∀ x, ¬ ((a.off ≤ x ∧ x < a.off + a.len) ∧ b.off ≤ x ∧ x < b.off + b.len)

/-- What has been handed out lies inside the shared region and apart. -/
def Separate (s : Fs Bump) : Prop :=
  (∀ r ∈ s.alloc.regions, r.off + r.len ≤ memSize) ∧ s.alloc.regions.Pairwise Region.Disjoint

/-- The file of every descriptor that has a length has a region that was handed
out for it, of that length. -/
def Recorded (s : Fs Bump) : Prop :=
  ∀ fd d, s.fdDesc.lookup fd = some d → d.len ≠ 0 →
    ∃ r ∈ s.alloc.regions, d.region = s.alloc.shm + r.off ∧ d.len.toNat = r.len

/-- What the call asks for, if anything, is there. -/
def Fits (s : Fs Bump) (c : Call) : Prop :=
  ∀ bytes, request s c = some bytes → s.alloc.bumpOff.toNat + bytes.toNat ≤ memSize

/-- A call that asks for more than is there gets nothing. -/
def Refused (s : Fs Bump) (c : Call) : Prop :=
  ¬ Fits s c → ∀ s', Libcxlfs.step s c = some s' → s'.alloc.regions = s.alloc.regions

section Regions

variable {s s' : Fs Bump} {c : Call}

/-- What a call does to the allocator is what it asks for. -/
theorem alloc_step (h : Libcxlfs.step s c = some s') :
    (request s c = none ∧ s'.alloc = s.alloc) ∨
      ∃ bytes, request s c = some bytes ∧ s'.alloc = (Libcxlfs.malloc s.alloc bytes).2 := by
  obtain ⟨hreq, rfl⟩ | ⟨path, fd, hreq, -, -, rfl⟩ |
    ⟨fd, d, d', -, -, -, ⟨hreq, -, rfl⟩ | ⟨bytes, hreq, -, -, rfl⟩⟩ | ⟨bytes, hreq, rfl⟩ :=
    step_cases h
  · exact .inl ⟨hreq, rfl⟩
  · exact .inl ⟨hreq, rfl⟩
  · exact .inl ⟨hreq, rfl⟩
  · exact .inr ⟨bytes, hreq, rfl⟩
  · exact .inr ⟨bytes, hreq, rfl⟩

/-- While regions are separate, they end where the next one starts. -/
def BumpAbove (s : Fs Bump) : Prop :=
  Separate s → s.alloc.bumpOff.toNat ≤ memSize ∧
    ∀ r ∈ s.alloc.regions, r.off + r.len ≤ s.alloc.bumpOff.toNat

/-- One more region is separate from the others exactly if it ends inside the
shared region. -/
theorem separate_malloc_iff (hs : Separate s) (hbump : BumpAbove s) {bytes : BitVec 64}
    (h : s'.alloc = (Libcxlfs.malloc s.alloc bytes).2) :
    Separate s' ↔ s.alloc.bumpOff.toNat + bytes.toNat ≤ memSize := by
  obtain ⟨hle, habove⟩ := hbump hs
  have hdisj : ∀ r ∈ s.alloc.regions, r.Disjoint ⟨s.alloc.bumpOff.toNat, bytes.toNat⟩ := by
    intro r hr x hx
    have hend := habove r hr
    simp only at hx
    omega
  rw [Separate, h]
  constructor
  · exact fun hs' => hs'.1 _ (List.mem_append_right _ List.mem_cons_self)
  · intro hfit
    exact ⟨List.forall_mem_append.mpr ⟨hs.1, List.forall_mem_singleton.mpr hfit⟩,
      List.pairwise_append.mpr ⟨hs.2, List.pairwise_singleton _ _, by simpa using hdisj⟩⟩

/-- **A call keeps regions separate exactly if its request fits.** -/
theorem separate_step_iff (hs : Separate s) (hbump : BumpAbove s)
    (h : Libcxlfs.step s c = some s') : Separate s' ↔ Fits s c := by
  obtain ⟨hreq, halloc⟩ | ⟨bytes, hreq, halloc⟩ := alloc_step h
  · have hs' : Separate s' := by rwa [Separate, halloc]
    simp [hs', Fits, hreq]
  · rw [separate_malloc_iff hs hbump halloc]
    simp [Fits, hreq]

theorem Separate.of_step (hs' : Separate s') (h : Libcxlfs.step s c = some s') : Separate s := by
  obtain ⟨-, halloc⟩ | ⟨bytes, -, halloc⟩ := alloc_step h
  · rwa [Separate, halloc] at hs'
  · rw [Separate, halloc] at hs'
    exact ⟨fun r hr => hs'.1 r (List.mem_append_left _ hr), (List.pairwise_append.mp hs'.2).1⟩

theorem BumpAbove.step (hbump : BumpAbove s) (h : Libcxlfs.step s c = some s') : BumpAbove s' := by
  intro hs'
  have hs := hs'.of_step h
  obtain ⟨hle, habove⟩ := hbump hs
  have hfits := (separate_step_iff hs hbump h).mp hs'
  obtain ⟨-, halloc⟩ | ⟨bytes, hreq, halloc⟩ := alloc_step h
  · rw [halloc]
    exact ⟨hle, habove⟩
  · have hfit := hfits bytes hreq
    have hoff : s'.alloc.bumpOff.toNat = s.alloc.bumpOff.toNat + bytes.toNat := by
      rw [halloc, Libcxlfs.malloc, BitVec.toNat_add, Nat.mod_eq_of_lt]
      unfold memSize at hfit
      omega
    refine ⟨hoff ▸ hfit, fun r hr => ?_⟩
    simp only [halloc, Libcxlfs.malloc, List.mem_append, List.mem_singleton] at hr
    obtain hr | rfl := hr
    · exact Nat.le_trans (habove r hr) (by omega)
    · exact Nat.le_of_eq hoff.symm

theorem Recorded.setDesc (h : Recorded s) {fd : Int} {d : FdDesc} {alloc : Bump}
    (hshm : alloc.shm = s.alloc.shm) (hsub : s.alloc.regions ⊆ alloc.regions)
    (hd : d.len ≠ 0 → ∃ r ∈ alloc.regions, d.region = alloc.shm + r.off ∧ d.len.toNat = r.len) :
    Recorded { s with fdDesc := s.fdDesc.insert fd d, alloc := alloc } := by
  intro k d₁ hk hlen
  rw [lookup_insert] at hk
  split at hk
  · rw [Option.some.injEq] at hk
    exact hk ▸ hd (hk ▸ hlen)
  · obtain ⟨r, hr, hregion, hrlen⟩ := h k d₁ hk hlen
    exact ⟨r, hsub hr, by rw [hregion, hshm], hrlen⟩

theorem Recorded.step (h : Recorded s) (hstep : Libcxlfs.step s c = some s') : Recorded s' := by
  obtain ⟨-, rfl⟩ | ⟨path, fd, -, -, -, rfl⟩ |
    ⟨fd, d, d', -, -, -, ⟨-, hlen, rfl⟩ | ⟨bytes, -, hlen, hregion, rfl⟩⟩ | ⟨bytes, -, rfl⟩ :=
    step_cases hstep
  · exact h
  · exact h.setDesc rfl (List.Subset.refl _) fun hlen => absurd rfl hlen
  · exact h.setDesc rfl (List.Subset.refl _) fun hne => absurd hlen hne
  · refine h.setDesc rfl (List.subset_append_left _ _) fun _ => ?_
    exact ⟨_, List.mem_append_right _ List.mem_cons_self, hregion _ rfl, by rw [hlen]⟩
  · intro fd d hd hlen
    obtain ⟨r, hr, hregion, hrlen⟩ := h fd d hd hlen
    exact ⟨r, List.mem_append_left _ hr, hregion, hrlen⟩

/-- The regions of files are among those handed out; and regions lie apart and
requests that do not fit are refused exactly as long as every request fits. -/
theorem regions_separate_iff {shm : Nat} {cs : List Call}
    (hrun : run Libcxlfs.step (Libcxlfs.init shm) cs = some s') :
    Recorded s' ∧
      ((Throughout Libcxlfs.step Separate (Libcxlfs.init shm) cs ∧
          Guarded Libcxlfs.step Refused (Libcxlfs.init shm) cs) ↔
        Guarded Libcxlfs.step Fits (Libcxlfs.init shm) cs) := by
  have hrec : Recorded (Libcxlfs.init shm) := by simp [Recorded, Libcxlfs.init, Fs.empty]
  have hsep : Separate (Libcxlfs.init shm) := by simp [Separate, Libcxlfs.init, Fs.empty]
  have hbump : BumpAbove (Libcxlfs.init shm) := fun _ => by simp [Libcxlfs.init, Fs.empty]
  have hall : Guarded Libcxlfs.step (fun _ _ => True) (Libcxlfs.init shm) cs :=
    guarded_of_forall (fun _ _ => trivial) _ cs
  have hiff := throughout_iff_guarded (fun _ _ _ hs _ hstep => BumpAbove.step hs hstep)
    (fun _ _ _ hb _ hs hstep => separate_step_iff hs hb hstep) hbump hsep hall hrun
  refine ⟨invariant_of_run (fun _ _ _ hs hstep => hs.step hstep) hrec hrun, ?_⟩
  rw [hiff]
  exact and_iff_left_of_imp fun h => h.imp fun s c hfits hnot => absurd hfits hnot

theorem fits_of_request (bytes : BitVec 64) (h : request s c = some bytes)
    (hb : s.alloc.bumpOff.toNat + bytes.toNat ≤ memSize) : Fits s c := by
  intro bytes' h'
  rw [h, Option.some.injEq] at h'
  exact h' ▸ hb

theorem fits_of_no_request (h : request s c = none) : Fits s c := by
  intro bytes h'
  rw [h] at h'
  cases h'

end Regions

/-- A file of two pages, and an allocation. -/
theorem regions_separate_one_file :
    Throughout Libcxlfs.step Separate (Libcxlfs.init 0)
      [.openFile ['a'], .lseek 1 8192 seekSet, .malloc 64] := by
  have hfits : Guarded Libcxlfs.step Fits (Libcxlfs.init 0)
      [.openFile ['a'], .lseek 1 8192 seekSet, .malloc 64] := by
    refine ⟨fits_of_no_request rfl, fun s₁ h₁ => ?_⟩
    obtain rfl := Option.some.inj h₁
    refine ⟨fits_of_request 8192 rfl (by decide), fun s₂ h₂ => ?_⟩
    obtain rfl := Option.some.inj h₂
    exact ⟨fits_of_request 64 rfl (by decide), fun _ _ => trivial⟩
  exact ((regions_separate_iff rfl).2.mpr hfits).1

/-- A negative offset moves `bump_off` back to where the first file starts, and
the next allocation is given the bytes of that file. -/
theorem regions_overlap_negative_offset :
    ∃ s, run Libcxlfs.step (Libcxlfs.init 0)
        [.openFile ['a'], .openFile ['b'], .lseek 1 8192 seekSet, .lseek 2 (-8192) seekSet,
          .malloc 4096] = some s ∧
      s.alloc.regions = [⟨0, 8192⟩, ⟨8192, 2 ^ 64 - 8192⟩, ⟨0, 4096⟩] ∧ ¬ Separate s := by
  refine ⟨_, rfl, rfl, fun hs => ?_⟩
  have hin := hs.1 ⟨8192, 2 ^ 64 - 8192⟩ (by decide)
  exact absurd hin (by decide)

/-! ## mappings -/

/-- Where the file of a descriptor starts. -/
def FdDesc.start (d : FdDesc) : Int := d.region + d.vaAllocOff.toInt

/-- Nothing sets `va_alloc_off`. -/
theorem vaAllocOff_step {α : Type} {malloc : Malloc α} {s s' : Fs α} {c : Call}
    (h : ∀ fd d, s.fdDesc.lookup fd = some d → d.vaAllocOff = 0)
    (hstep : step malloc s c = some s') :
    ∀ fd d, s'.fdDesc.lookup fd = some d → d.vaAllocOff = 0 := by
  have hset {k : Int} {d' : FdDesc} (hd' : d'.vaAllocOff = 0) (fd : Int) (d : FdDesc)
      (hd : (s.fdDesc.insert k d').lookup fd = some d) : d.vaAllocOff = 0 := by
    rw [lookup_insert] at hd
    split at hd
    · exact Option.some.inj hd ▸ hd'
    · exact h fd d hd
  obtain ⟨-, rfl⟩ | ⟨path, fd, -, -, -, rfl⟩ |
    ⟨fd, d, d', hd, -, hva, ⟨-, -, rfl⟩ | ⟨bytes, -, -, -, rfl⟩⟩ | ⟨bytes, -, rfl⟩ :=
    step_cases hstep
  · exact h
  · exact hset rfl
  · exact hset (hva.trans (h fd d hd))
  · exact hset (hva.trans (h fd d hd))
  · exact h

/-- Files start with their regions. -/
theorem start_eq_region {α : Type} {malloc : Malloc α} {a : α} {cs : List Call} {s : Fs α}
    (hrun : run (step malloc) (.empty a) cs = some s) {fd : Int} {d : FdDesc}
    (hd : s.fdDesc.lookup fd = some d) : d.start = d.region := by
  have hzero : ∀ fd d, s.fdDesc.lookup fd = some d → d.vaAllocOff = 0 :=
    invariant_of_run (I := fun s => ∀ fd d, s.fdDesc.lookup fd = some d → d.vaAllocOff = 0)
      (fun _ _ _ hs hstep => vaAllocOff_step hs hstep) (by simp [Fs.empty]) hrun
  simp [FdDesc.start, hzero fd d hd]

/-- The pointer is that of a window of the file, and the window lies in it. -/
def MapsWindow (d : FdDesc) (length offset : BitVec 64) (ptr : Int) : Prop :=
  ptr = d.start + offset.toInt ∧ d.start ≤ ptr ∧ ptr + length.toNat ≤ d.start + d.len.toNat

section Mmap

variable {fdDesc : Map Int FdDesc} {length offset : BitVec 64} {flags : BitVec 32} {fd ptr : Int}
  {d : FdDesc}

theorem mmap_ok (hd : fdDesc.lookup fd = some d)
    (h : mmap fdDesc length flags fd offset = .ok ptr) :
    ptr = d.start ∧ (length + offset).toNat ≤ d.len.toNat := by
  simp only [mmap, hd] at h
  split at h
  · cases h
  · split at h
    · cases h
    · split at h
      · cases h
      · next hle =>
        cases h
        exact ⟨rfl, BitVec.not_lt.mp hle⟩

theorem mapsWindow_iff (hd : fdDesc.lookup fd = some d)
    (h : mmap fdDesc length flags fd offset = .ok ptr) :
    MapsWindow d length offset ptr ↔ offset = 0 := by
  obtain ⟨rfl, hle⟩ := mmap_ok hd h
  constructor
  · rintro ⟨hptr, -, -⟩
    have hzero : offset.toInt = (0 : BitVec 64).toInt := by simp; omega
    exact BitVec.eq_of_toInt_eq hzero
  · rintro rfl
    simp only [BitVec.ofNat_eq_ofNat, BitVec.add_zero] at hle
    exact ⟨by simp, Int.le_refl _, by omega⟩

/-- `mmap` of either library, when it succeeds, maps the window that was asked
for exactly if that starts with the file. -/
theorem mmap_window_iff (hd : fdDesc.lookup fd = some d)
    (h : Libcxlfs.mmap fdDesc length flags fd offset = .ok ptr ∨
      Libvramfs.mmap fdDesc length flags fd offset = .ok ptr) :
    MapsWindow d length offset ptr ↔ offset = 0 :=
  mapsWindow_iff hd (h.elim id id)

end Mmap

/-- A table with one file of two pages. -/
def oneFile : Map Int FdDesc := AList.insert 1 ⟨1, 0x10000, 8192, 0, 8192⟩ ∅

/-- `MAP_SHARED`. -/
def mapShared : BitVec 32 := 0x01

theorem mmap_window_whole_file : MapsWindow ⟨1, 0x10000, 8192, 0, 8192⟩ 8192 0 0x10000 := by
  have hmap : Libcxlfs.mmap oneFile 8192 mapShared 1 0 = .ok 0x10000 := rfl
  exact (mmap_window_iff (AList.lookup_insert _) (.inl hmap)).mpr rfl

/-- The second page is mapped as the first one, and a length that wraps around
with the offset as if it were in the file. -/
theorem mmap_wrong_window :
    (Libcxlfs.mmap oneFile 4096 mapShared 1 4096 = .ok 0x10000 ∧
        ¬ MapsWindow ⟨1, 0x10000, 8192, 0, 8192⟩ 4096 4096 0x10000) ∧
      Libvramfs.mmap oneFile (-4096) mapShared 1 8192 = .ok 0x10000 ∧
        ¬ MapsWindow ⟨1, 0x10000, 8192, 0, 8192⟩ (-4096) 8192 0x10000 := by
  have hfile : oneFile.lookup 1 = some ⟨1, 0x10000, 8192, 0, 8192⟩ := AList.lookup_insert _
  have hsecond : mmap oneFile 4096 mapShared 1 4096 = .ok 0x10000 := rfl
  have hwrap : mmap oneFile (-4096) mapShared 1 8192 = .ok 0x10000 := rfl
  refine ⟨⟨hsecond, fun h => ?_⟩, hwrap, fun h => ?_⟩
  · exact absurd ((mapsWindow_iff hfile hsecond).mp h) (by decide)
  · exact absurd ((mapsWindow_iff hfile hwrap).mp h) (by decide)

end Cxlbuf.Files
