import Cxlbuf.Lib.Run
import Cxlbuf.Recovery.Lines
import Cxlbuf.Recovery.Undo
import Cxlbuf.Snapshot.Spec

/-!
# Cxlbuf.Threads

The threads of a process: each constructs its `Log` when it first needs it,
maps pmem files, stores to them and takes snapshots, in any order.

A file is recovered from the logs its dependency file lists.  Only `mmap`
appends a line, and the line names the thread that called it
(`write_dependency_internal`), while a store is logged by the thread that
makes it.  So a log can be found from the files it has entries for as long
as threads store to files they are listed for (`System.Inv`).
-/

namespace Cxlbuf

open ByteMem

/-! ## mappings and threads -/

/-- A mapping of a pmem file. -/
structure MappedFile where
  path : Text
  addr : Nat
  len : Nat
deriving DecidableEq

/-- The mapping contains an address. -/
def MappedFile.Contains (m : MappedFile) (x : Nat) : Prop := m.addr ≤ x ∧ x < m.addr + m.len

instance (m : MappedFile) (x : Nat) : Decidable (m.Contains x) := by
  unfold MappedFile.Contains; infer_instance

/-- A process with the mappings the kernel holds for it, the bump pointer
`mmap_start` (0 is `nullptr`), and the dependency file of every path, whose
text is the `depText` of the lines. -/
structure System where
  proc : Process
  mmapStart : Nat
  mapped : List MappedFile
  deps : Text → List DepLine

/-- How far above a file's mapping its backing file is mapped. -/
def backingDistance : Nat := 0x10000000000

/-- Memory once a file is mapped at `[addr, addr + len)`. -/
def mapRegion (mem : Mem) (addr len : Nat) (file : Mem) : Mem := fun x =>
  if addr ≤ x ∧ x < addr + len then file (x - addr) else mem x

/-- Persistent memory once a backing file is mapped at an address and the
first byte of the mapping was written. -/
def PmImage.mapBacking (m : PmImage) (addr len : Nat) (file : Mem) : PmImage :=
  { m with backing := write (mapRegion m.backing addr len file) addr [1] }

@[simp] theorem PmImage.mapBacking_area (m : PmImage) (addr len : Nat) (file : Mem) :
    (m.mapBacking addr len file).area = m.area := rfl

/-- The constructor of a thread's `Log`: a new log file, registered in
`tls_logs`.  Later uses find the thread's log constructed. -/
def Process.initThreadBuf (p : Process) (tid : UInt64) : Process :=
  if p.logs.any fun l => l.tid = tid.toNat then p
  else { p with
    logs := p.logs ++ [Log.fresh tid.toNat]
    pm := { p.pm with area := Function.update p.pm.area p.logs.length Log.freshArea } }

/-- `map_backing_file` and `map_to_page_cache`: the backing file is mapped
`backingDistance` above the file and its first byte is written; the file is
mapped privately and entered in `mapped_addr` under its descriptor. -/
def Process.mapFile (p : Process) (fd : Nat) (path : Text) (addr len : Nat)
    (file backing : Mem) : Process :=
  { p with
    mem := mapRegion p.mem addr len file
    pm := p.pm.mapBacking (addr + backingDistance) len backing
    mappedAddr := (p.mappedAddr.filter fun m => m.fd ≠ fd) ++
      [⟨fd, addr, addr + len, String.ofList path⟩] }

/-- A length rounded up to whole pages. -/
def pageRoundUp (len : Nat) : Nat := (len + 4095) / 4096 * 4096

/-- The position of a thread's log in `tls_logs`. -/
def Process.logIdx (p : Process) (tid : UInt64) : Nat :=
  p.logs.findIdx fun l => l.tid = tid.toNat

namespace System

/-- Where the next pmem file goes. -/
def nextAddr (cfg : Config) (s : System) : Nat :=
  if s.mmapStart = 0 then cfg.startAddr else s.mmapStart

/-- The kernel maps `[addr, addr + len)`: the range is not empty and, with
its backing file, inside the user address space; and `addr_in_range` finds
the address tracked. -/
def CanMap (cfg : Config) (s : System) (len : Nat) : Prop :=
  0 < len ∧ s.nextAddr cfg + backingDistance + len ≤ 2 ^ 56 ∧ s.nextAddr cfg ≤ cfg.endAddr

instance (cfg : Config) (s : System) (len : Nat) : Decidable (s.CanMap cfg len) :=
  inferInstanceAs (Decidable (_ ∧ _ ∧ _))

/-- The line `write_dependency_internal` appends for a mapping. -/
def dependency (cfg : Config) (s : System) (tid : UInt64) : DepLine where
  pid := s.proc.pid
  tid := tid.toNat
  addr := s.nextAddr cfg % 2 ^ 64
  pid_lt := s.proc.pid_lt
  tid_lt := tid.toNat_lt
  addr_lt := Nat.mod_lt _ (by decide)

/-- `mmap` of a pmem file in CXL mode, once the constructor of `PmemFile`
has run: the file goes to `mmap_start`, which advances by whole pages, and
the mapping is entered in the file's dependency file.  `file` and `backing`
are the contents found; `none` when the process exits. -/
def mmap (cfg : Config) (s : System) (tid : UInt64) (fd : Nat) (path : Text) (len : Nat)
    (file backing : Mem) : Option System :=
  if s.CanMap cfg len then
    some {
      proc := s.proc.mapFile fd path (s.nextAddr cfg) len file backing
      mmapStart := s.nextAddr cfg + pageRoundUp len
      mapped := s.mapped ++ [⟨path, s.nextAddr cfg, len⟩]
      deps := Function.update s.deps path (s.deps path ++ [s.dependency cfg tid]) }
  else none

/-- A tracked store by a thread; `none` when it hits a tracked address that
is not mapped. -/
def store (cfg : Config) (s : System) (tid : UInt64) (st : Process.Store) : Option System :=
  if cfg.startAddr ≤ st.addr → ∃ m ∈ s.mapped, m.Contains st.addr then
    let p := s.proc.initThreadBuf tid
    some { s with proc := p.store cfg (p.logIdx tid) st }
  else none

end System

/-- What a thread does. -/
inductive Action where
  | initLog (tid : UInt64)
  | mmap (tid : UInt64) (fd : Nat) (path : Text) (len : Nat) (file backing : Mem)
  | store (tid : UInt64) (st : Process.Store)
  | snapshot (addr bytes : Nat)

/-- One action of some thread. -/
def System.step (cfg : Config) (s : System) : Action → Option System
  | .initLog tid => some { s with proc := s.proc.initThreadBuf tid }
  | .mmap tid fd path len file backing => s.mmap cfg tid fd path len file backing
  | .store tid st => s.store cfg tid st
  | .snapshot addr bytes =>
      (Cxlbuf.snapshot cfg addr bytes s.proc).map fun p => { s with proc := p }

/-! ## which logs can be found -/

/-- The log has an entry for an address, in its volatile list or in its log
area. -/
def Log.Holds (l : Log) (a : LogLayout) (x : Nat) : Prop :=
  (∃ e ∈ l.entries, e.addr = x) ∨ ∃ r ∈ savedRanges a, r.addr = x

/-- The dependency file of a path lists a thread of this process. -/
def System.Listed (s : System) (path : Text) (tid : Nat) : Prop :=
  ∃ line ∈ s.deps path, line.pid = s.proc.pid ∧ line.tid = tid

/-- Every log with an entry for an address of a mapped file is listed in
the file's dependency file. -/
def System.LogsListed (s : System) : Prop :=
  ∀ (t : Nat) (l : Log), s.proc.logs[t]? = some l → ∀ x, l.Holds (s.proc.pm.area t) x →
    ∀ m ∈ s.mapped, m.Contains x → s.Listed m.path l.tid

/-- A thread stores to files it is listed for, less than the `2 ^ 22` bytes
`log_range` asserts. -/
def StepOk (s : System) : Action → Prop
  | .store tid st => st.data.length < 2 ^ 22 ∧
      ∀ m ∈ s.mapped, m.Contains st.addr → s.Listed m.path tid.toNat
  | _ => True

/-! ## what the logs hold after an action -/

/-- The log area is a sequence of records that ends at the tail. -/
structure LogLayout.WellFormed (a : LogLayout) : Prop where
  tail_eq : a.tailPtr = a.logOffset
  encodes : ∃ rs, Encodes a.content 0 rs a.logOffset

theorem wellFormed_of_offsets_zero {a : LogLayout} (hoff : a.logOffset = 0)
    (htail : a.tailPtr = 0) : a.WellFormed where
  tail_eq := by rw [hoff, htail]
  encodes := ⟨[], hoff.symm⟩

/-- A log without entries, with its offset at the start, holds nothing. -/
theorem Log.not_holds_of_empty {l : Log} {a : LogLayout} (hentries : l.entries = [])
    (hoff : a.logOffset = 0) (x : Nat) : ¬ l.Holds a x := by
  have hsaved : savedRanges a = [] := by
    simp [savedRanges, entryOffsets, recoverLoop, hoff, Tiling.walk]
  simp [Log.Holds, hentries, hsaved]

/-- The areas of all registered logs are well formed. -/
def Process.AreasWellFormed (p : Process) : Prop :=
  ∀ t, t < p.logs.length → (p.pm.area t).WellFormed

/-- What the logs of `q` hold, they held in `p`, but for the entries `New`
of a thread. -/
def Process.HoldsFrom (p q : Process) (New : Nat → Nat → Prop) : Prop :=
  ∀ (t : Nat) (l' : Log), q.logs[t]? = some l' → ∀ x, l'.Holds (q.pm.area t) x →
    (∃ l, p.logs[t]? = some l ∧ l.tid = l'.tid ∧ l.Holds (p.pm.area t) x) ∨ New l'.tid x

section Logs

variable {cfg : Config} {p : Process} {tid : UInt64}

theorem pid_initThreadBuf (p : Process) (tid : UInt64) :
    (p.initThreadBuf tid).pid = p.pid := by
  unfold Process.initThreadBuf
  split <;> rfl

theorem areasWellFormed_initThreadBuf (h : p.AreasWellFormed) :
    (p.initThreadBuf tid).AreasWellFormed := by
  unfold Process.initThreadBuf
  split
  · exact h
  · intro t ht
    by_cases hnew : t = p.logs.length
    · simp only [hnew, Function.update_self]
      exact wellFormed_of_offsets_zero rfl rfl
    · simp only [Function.update_of_ne hnew]
      simp only [List.length_append, List.length_singleton] at ht
      exact h t (by omega)

/-- A new log holds nothing. -/
theorem holdsFrom_initThreadBuf :
    p.HoldsFrom (p.initThreadBuf tid) fun _ _ => False := by
  intro t l' hl' x hx
  unfold Process.initThreadBuf at hl' hx
  split at hl'
  · next hreg =>
      rw [if_pos hreg] at hx
      exact .inl ⟨l', hl', rfl, hx⟩
  · next hreg =>
      rw [if_neg hreg] at hx
      by_cases hnew : t = p.logs.length
      · simp only [hnew, Function.update_self] at hx
        simp only [hnew, List.getElem?_concat_length, Option.some.injEq] at hl'
        subst hl'
        exact absurd hx (Log.not_holds_of_empty rfl rfl x)
      · have hlt : t < p.logs.length := by
          have hbound := (List.getElem?_eq_some_iff.mp hl').1
          rw [List.length_append, List.length_singleton] at hbound
          omega
        simp only [Function.update_of_ne hnew] at hx
        simp only [List.getElem?_append_left hlt] at hl'
        exact .inl ⟨l', hl', rfl, hx⟩

/-- After its constructor a thread finds its log. -/
theorem logIdx_initThreadBuf (p : Process) (tid : UInt64) :
    ∃ l, (p.initThreadBuf tid).logs[(p.initThreadBuf tid).logIdx tid]? = some l ∧
      l.tid = tid.toNat := by
  have hreg : ∃ l ∈ (p.initThreadBuf tid).logs, l.tid = tid.toNat := by
    unfold Process.initThreadBuf
    split
    · next h => simpa using h
    · exact ⟨Log.fresh tid.toNat, by simp, rfl⟩
  have hlt : (p.initThreadBuf tid).logIdx tid < (p.initThreadBuf tid).logs.length :=
    List.findIdx_lt_length.mpr (by simpa using hreg)
  have htid := List.findIdx_getElem (w := hlt)
  rw [decide_eq_true_eq] at htid
  exact ⟨_, List.getElem?_eq_getElem hlt, htid⟩

/-- A store appends one record to its log area, or none. -/
theorem areasWellFormed_store (h : p.AreasWellFormed) (hcxl : cfg.cxlModeEnabled = true) {t : Nat}
    {l : Log} (hl : p.logs[t]? = some l) {st : Process.Store} (haddr : st.addr < 2 ^ 56)
    (hlen : st.data.length < 2 ^ 22) : (p.store cfg t st).AreasWellFormed := by
  intro u hu
  rw [Process.store_logs hcxl hl, List.length_set] at hu
  rw [Process.store_pm hcxl hl]
  split
  · exact h u hu
  · by_cases hut : u = t
    · subst hut
      obtain ⟨htail, rs, hrs⟩ := h u hu
      rw [PmImage.updateArea_area_self]
      refine ⟨?_, _, encodes_appendRecord _ _ _ _ hrs htail haddr (by omega)⟩
      simp only [Log.appendRecord, htail]
    · rw [PmImage.updateArea_area_of_ne _ hut]
      exact h u hu

/-- A store makes its own log hold its own address. -/
theorem holdsFrom_store (h : p.AreasWellFormed) (hcxl : cfg.cxlModeEnabled = true) {t : Nat}
    {l : Log} (hl : p.logs[t]? = some l) {st : Process.Store} (haddr : st.addr < 2 ^ 56)
    (hlen : st.data.length < 2 ^ 22) :
    p.HoldsFrom (p.store cfg t st) fun tid x => tid = l.tid ∧ x = st.addr := by
  intro u l' hl' x hx
  by_cases hut : u = t
  · subst hut
    have hu : u < p.logs.length := (List.getElem?_eq_some_iff.mp hl).1
    rw [Process.store_log hcxl hl, Option.some.injEq] at hl'
    subst hl'
    have htid : (l.logRange cfg.logFormat (p.pm.area u).logOffset st.addr
        st.data.length).tid = l.tid := Log.tid_logRange _ _ _ _ _
    cases hx with
    | inl hentry =>
        obtain ⟨e, he, hex⟩ := hentry
        cases Log.mem_entries_logRange he with
        | inl hold => exact .inl ⟨l, hl, htid.symm, .inl ⟨e, hold, hex⟩⟩
        | inr hnew => exact .inr ⟨htid, by rw [← hex, hnew]⟩
    | inr hsaved =>
        obtain ⟨r, hr, hrx⟩ := hsaved
        rw [Process.store_pm hcxl hl] at hr
        split at hr
        · exact .inl ⟨l, hl, htid.symm, .inr ⟨r, hr, hrx⟩⟩
        · obtain ⟨htail, rs, hrs⟩ := h u hu
          have happ := encodes_appendRecord _ p.mem _ st.data.length hrs htail haddr (by omega)
          rw [PmImage.updateArea_area_self, savedRanges_of_encodes happ, List.mem_append,
            List.mem_singleton] at hr
          cases hr with
          | inl hold =>
              rw [← savedRanges_of_encodes hrs] at hold
              exact .inl ⟨l, hl, htid.symm, .inr ⟨r, hold, hrx⟩⟩
          | inr hnew => exact .inr ⟨htid, by rw [← hrx, hnew]⟩
  · have harea : (p.store cfg t st).pm.area u = p.pm.area u := by
      rw [Process.store_pm hcxl hl]
      split
      · rfl
      · exact PmImage.updateArea_area_of_ne _ hut _
    rw [Process.store_logs hcxl hl, List.getElem?_set_ne (Ne.symm hut)] at hl'
    rw [harea] at hx
    exact .inl ⟨l', hl', rfl, hx⟩

/-- A snapshot clears the logs, or does nothing. -/
theorem snapshot_logs {addr bytes : Nat} {q : Process}
    (hq : snapshot cfg addr bytes p = some q) (h : p.AreasWellFormed) :
    q.AreasWellFormed ∧ p.HoldsFrom q fun _ _ => False := by
  cases hinst : p.storeInstEnabled with
  | false =>
      have hsame : q = p := by
        rw [snapshot, if_neg (by simp [hinst]), Option.some.injEq] at hq
        exact hq.symm
      rw [hsame]
      exact ⟨h, fun t l hl x hx => .inl ⟨l, hl, rfl, hx⟩⟩
  | true =>
      rw [snapshot_eq, Option.some.injEq] at hq
      subst hq
      have harea {t : Nat} (ht : t < p.logs.length) :
          (execOps p.pm (snapshotOps cfg addr bytes p)).area t =
            Log.retiredArea (p.pm.area t) := snapshot_area cfg addr bytes hinst ht
      constructor
      · intro t ht
        simp only [hinst, if_true, List.length_map] at ht
        simp only [Process.issue_pm, harea ht]
        exact wellFormed_of_offsets_zero rfl rfl
      · intro t l' hl' x hx
        simp only [hinst, if_true, List.getElem?_map, Option.map_eq_some_iff] at hl'
        obtain ⟨l, hl, rfl⟩ := hl'
        simp only [Process.issue_pm, harea (List.getElem?_eq_some_iff.mp hl).1] at hx
        exact absurd hx (Log.not_holds_of_empty rfl rfl x)

end Logs

/-! ## runs -/

/-- What the actions of the threads maintain: mappings lie below
`mmap_start`, and logs hold addresses of mapped files only, by threads that
are listed for them. -/
structure System.Inv (cfg : Config) (s : System) : Prop where
  areas : s.proc.AreasWellFormed
  start : s.mmapStart ≠ 0 → cfg.startAddr ≤ s.mmapStart
  below : ∀ m ∈ s.mapped, m.addr + m.len ≤ s.mmapStart ∧ m.addr + m.len ≤ 2 ^ 56
  held : ∀ (t : Nat) (l : Log), s.proc.logs[t]? = some l → ∀ x,
    l.Holds (s.proc.pm.area t) x → cfg.startAddr ≤ x → ∃ m ∈ s.mapped, m.Contains x
  listed : s.LogsListed

section Runs

variable {cfg : Config} {s s' : System}

/-- A process that has just started. -/
structure System.Initial (s : System) : Prop where
  logs : s.proc.logs = []
  mmapStart : s.mmapStart = 0
  mapped : s.mapped = []

theorem System.Inv.of_initial (h : s.Initial) : s.Inv cfg where
  areas := by simp [Process.AreasWellFormed, h.logs]
  start := fun hne => absurd h.mmapStart hne
  below := by simp [h.mapped]
  held := by simp [h.logs]
  listed := by simp [System.LogsListed, h.logs]

/-- An action that leaves the mappings alone keeps the invariant if the new
entries are for mapped files their threads are listed for. -/
theorem System.Inv.of_holdsFrom (h : s.Inv cfg) {q : Process} {New : Nat → Nat → Prop}
    (hpid : q.pid = s.proc.pid) (hareas : q.AreasWellFormed) (hfrom : s.proc.HoldsFrom q New)
    (hnew : ∀ tid x, New tid x → (cfg.startAddr ≤ x → ∃ m ∈ s.mapped, m.Contains x) ∧
      ∀ m ∈ s.mapped, m.Contains x → s.Listed m.path tid) :
    { s with proc := q }.Inv cfg where
  areas := hareas
  start := h.start
  below := h.below
  held := by
    intro t l' hl' x hx
    cases hfrom t l' hl' x hx with
    | inr hx' => exact (hnew _ x hx').1
    | inl hold =>
        obtain ⟨l, hl, -, hx'⟩ := hold
        exact h.held t l hl x hx'
  listed := by
    intro t l' hl' x hx m hm hmx
    rw [System.Listed, hpid]
    cases hfrom t l' hl' x hx with
    | inr hx' => exact (hnew _ x hx').2 m hm hmx
    | inl hold =>
        obtain ⟨l, hl, htid, hx'⟩ := hold
        rw [← htid]
        exact h.listed t l hl x hx' m hm hmx

theorem System.Inv.initLog (h : s.Inv cfg) (tid : UInt64) :
    { s with proc := s.proc.initThreadBuf tid }.Inv cfg :=
  h.of_holdsFrom (pid_initThreadBuf s.proc tid) (areasWellFormed_initThreadBuf h.areas)
    holdsFrom_initThreadBuf fun _ _ hfalse => hfalse.elim

theorem System.Inv.snapshot (h : s.Inv cfg) {addr bytes : Nat} {q : Process}
    (hq : Cxlbuf.snapshot cfg addr bytes s.proc = some q) : { s with proc := q }.Inv cfg := by
  have hlogs := snapshot_logs hq h.areas
  have hpid : q.pid = s.proc.pid := by
    rw [snapshot_eq, Option.some.injEq] at hq
    rw [← hq]
    rfl
  exact h.of_holdsFrom hpid hlogs.1 hlogs.2 fun _ _ hfalse => hfalse.elim

/-- **A store by a listed thread** keeps the invariant. -/
theorem System.Inv.store (h : s.Inv cfg) (hcxl : cfg.cxlModeEnabled = true) {tid : UInt64}
    {st : Process.Store} (hok : StepOk s (.store tid st)) (hs' : s.store cfg tid st = some s') :
    s'.Inv cfg := by
  unfold System.store at hs'
  split at hs'
  · next hmapped =>
      rw [Option.some.injEq] at hs'
      have haddr : st.addr < 2 ^ 56 := by
        by_cases htracked : cfg.startAddr ≤ st.addr
        · obtain ⟨m, hm, hmx⟩ := hmapped htracked
          have hbelow := (h.below m hm).2
          unfold MappedFile.Contains at hmx
          omega
        · have hlt := cfg.start_lt_end
          have hle := cfg.end_le
          omega
      have hinit := h.initLog tid
      obtain ⟨l, hl, htid⟩ := logIdx_initThreadBuf s.proc tid
      have hpid : ((s.proc.initThreadBuf tid).store cfg
          ((s.proc.initThreadBuf tid).logIdx tid) st).pid = (s.proc.initThreadBuf tid).pid := by
        rw [Process.store, Process.logRange_eq hcxl hl]
        rfl
      subst hs'
      refine hinit.of_holdsFrom hpid (areasWellFormed_store hinit.areas hcxl hl haddr hok.1)
        (holdsFrom_store hinit.areas hcxl hl haddr hok.1) ?_
      intro tid' x hx
      obtain ⟨rfl, rfl⟩ := hx
      refine ⟨hmapped, fun m hm hmx => ?_⟩
      rw [htid, System.Listed, pid_initThreadBuf]
      exact hok.2 m hm hmx
  · cases hs'

/-- What `mmap` does when it returns. -/
theorem mmap_spec {tid : UInt64} {fd : Nat} {path : Text} {len : Nat} {file backing : Mem}
    (hs' : s.mmap cfg tid fd path len file backing = some s') :
    s.CanMap cfg len ∧ s'.proc.pid = s.proc.pid ∧ s'.proc.logs = s.proc.logs ∧
      s'.proc.pm.area = s.proc.pm.area ∧
      s'.mmapStart = s.nextAddr cfg + pageRoundUp len ∧
      s'.mapped = s.mapped ++ [⟨path, s.nextAddr cfg, len⟩] ∧
      s'.deps = Function.update s.deps path (s.deps path ++ [s.dependency cfg tid]) := by
  unfold System.mmap at hs'
  split at hs'
  · next h =>
      rw [Option.some.injEq] at hs'
      subst hs'
      exact ⟨h, rfl, rfl, s.proc.pm.mapBacking_area _ _ _, rfl, rfl, rfl⟩
  · cases hs'

/-- The dependency file `mmap` leaves is the text
`write_dependency_internal` writes. -/
theorem mmap_depText (nv : Nvsl) {tid : UInt64} {fd : Nat} {path : Text} {len : Nat}
    {file backing : Mem} (hs' : s.mmap cfg tid fd path len file backing = some s') :
    ∃ line : DepLine, line.pid = s.proc.pid ∧ line.tid = tid.toNat ∧
      writeDependencyInternal nv line (some (depText (s.deps path))) =
        some (depText (s'.deps path)) := by
  obtain ⟨-, -, -, -, -, -, hdeps⟩ := mmap_spec hs'
  refine ⟨s.dependency cfg tid, rfl, rfl, ?_⟩
  rw [writeDependencyInternal_depText, hdeps, Function.update_self]

/-- The next mapping starts above `start_addr` and all others. -/
theorem System.Inv.le_nextAddr (h : s.Inv cfg) :
    cfg.startAddr ≤ s.nextAddr cfg ∧ s.mmapStart ≤ s.nextAddr cfg := by
  unfold System.nextAddr
  split
  · omega
  · next hne => exact ⟨h.start hne, Nat.le_refl _⟩

/-- No log holds an address of the next mapping: an entry above
`start_addr` is inside an older one. -/
theorem System.Inv.lt_nextAddr_of_holds (h : s.Inv cfg) {t : Nat} {l : Log}
    (hl : s.proc.logs[t]? = some l) {x : Nat} (hx : l.Holds (s.proc.pm.area t) x) :
    x < s.nextAddr cfg := by
  have hnext := h.le_nextAddr
  by_contra hge
  obtain ⟨m, hm, hmx⟩ := h.held t l hl x hx (by omega)
  have hbelow := (h.below m hm).1
  unfold MappedFile.Contains at hmx
  omega

/-- `mmap` makes no thread less listed. -/
theorem System.Listed.mmap {tid : UInt64} {fd : Nat} {path : Text} {len : Nat}
    {file backing : Mem} (hs' : s.mmap cfg tid fd path len file backing = some s') {path' : Text}
    {tid' : Nat} (h : s.Listed path' tid') : s'.Listed path' tid' := by
  obtain ⟨-, hpid, -, -, -, -, hdeps⟩ := mmap_spec hs'
  obtain ⟨line, hline, hids⟩ := h
  refine ⟨line, ?_, by rw [hpid]; exact hids⟩
  rw [hdeps]
  by_cases hpath : path' = path
  · rw [hpath, Function.update_self]
    exact List.mem_append_left _ (hpath ▸ hline)
  · rw [Function.update_of_ne hpath]
    exact hline

/-- **A new mapping** lies above everything the logs hold. -/
theorem System.Inv.mmap (h : s.Inv cfg) {tid : UInt64} {fd : Nat} {path : Text} {len : Nat}
    {file backing : Mem} (hs' : s.mmap cfg tid fd path len file backing = some s') :
    s'.Inv cfg := by
  obtain ⟨hcan, -, hlogs, harea, hstart, hmapped, -⟩ := mmap_spec hs'
  have hfits : s.nextAddr cfg + backingDistance + len ≤ 2 ^ 56 := hcan.2.1
  have hround : len ≤ pageRoundUp len := by unfold pageRoundUp; omega
  have hnext := h.le_nextAddr
  refine ⟨?_, ?_, ?_, ?_, ?_⟩
  · intro t ht
    rw [hlogs] at ht
    rw [harea]
    exact h.areas t ht
  · intro _
    omega
  · intro m hm
    rw [hmapped, List.mem_append, List.mem_singleton] at hm
    cases hm with
    | inl hold =>
        have hbelow := h.below m hold
        omega
    | inr hnew =>
        subst hnew
        exact ⟨by simp only [hstart]; omega, by simp only; omega⟩
  · intro t l hl x hx htracked
    rw [hlogs] at hl
    rw [harea] at hx
    obtain ⟨m, hm, hmx⟩ := h.held t l hl x hx htracked
    exact ⟨m, by rw [hmapped]; exact List.mem_append_left _ hm, hmx⟩
  · intro t l hl x hx m hm hmx
    rw [hlogs] at hl
    rw [harea] at hx
    rw [hmapped, List.mem_append, List.mem_singleton] at hm
    cases hm with
    | inl hold => exact (h.listed t l hl x hx m hold hmx).mmap hs'
    | inr hnew =>
        have hlt := h.lt_nextAddr_of_holds hl hx
        rw [hnew] at hmx
        exact absurd hmx.1 (Nat.not_le_of_lt hlt)

/-- Every action whose store, if it is one, is by a listed thread keeps the
invariant. -/
theorem System.Inv.step (hcxl : cfg.cxlModeEnabled = true) (s : System) (a : Action) (s' : System)
    (h : s.Inv cfg) (hok : StepOk s a) (hs' : s.step cfg a = some s') : s'.Inv cfg := by
  cases a with
  | initLog tid =>
      rw [System.step, Option.some.injEq] at hs'
      exact hs' ▸ h.initLog tid
  | mmap tid fd path len file backing => exact h.mmap hs'
  | store tid st => exact h.store hcxl hok hs'
  | snapshot addr bytes =>
      rw [System.step, Option.map_eq_some_iff] at hs'
      obtain ⟨q, hq, rfl⟩ := hs'
      exact h.snapshot hq

/-- **Logs can be found from their files**: in every run in which threads
store to files they are listed for, every log with an entry for a mapped
file is listed in the file's dependency file, in every state that is
reached. -/
theorem logsListed_run (hcxl : cfg.cxlModeEnabled = true) (hinit : s.Initial) (as : List Action)
    (hok : Run.Guarded (System.step cfg) StepOk s as)
    (hrun : Run.run (System.step cfg) s as = some s') : s'.LogsListed :=
  (hok.invariant (System.Inv.step hcxl) (.of_initial hinit) hrun).listed

end Runs

/-- A process without logs, mappings or dependency files. -/
def emptySystem : System where
  proc := { Process.single (fun _ => 0) fun _ => 0 with logs := [], firstSnapshot := true }
  mmapStart := 0
  mapped := []
  deps _ := []

/-- The same process once its thread 1 has mapped a page of zeros. -/
def onePage : System where
  proc := emptySystem.proc.mapFile 3 ['f'] 0x10000000000 4096 (fun _ => 0) fun _ => 0
  mmapStart := 0x10000001000
  mapped := [⟨['f'], 0x10000000000, 4096⟩]
  deps := Function.update (fun _ => []) ['f'] [emptySystem.dependency .default 1]

theorem step_emptySystem : emptySystem.step .default
    (.mmap 1 3 ['f'] 4096 (fun _ => 0) fun _ => 0) = some onePage := by
  rw [System.step, System.mmap, if_pos (by decide)]
  rfl

/-- The page's dependency file lists thread 1 only. -/
theorem onePage_listed_iff (tid : Nat) : onePage.Listed ['f'] tid ↔ tid = 1 := by
  have hdeps : onePage.deps ['f'] = [emptySystem.dependency .default 1] := rfl
  have hpid : (emptySystem.dependency .default 1).pid = onePage.proc.pid := rfl
  have htid : (emptySystem.dependency .default 1).tid = 1 := rfl
  simp [System.Listed, hdeps, hpid, htid, eq_comm]

/-- A thread that stores to the page it has mapped is listed. -/
theorem logsListed_own_page : ∃ s', Run.run (System.step .default) emptySystem
      [.mmap 1 3 ['f'] 4096 (fun _ => 0) fun _ => 0,
        .store 1 ⟨0x10000000000, [1, 2, 3, 4, 5, 6, 7, 8]⟩] = some s' ∧ s'.LogsListed := by
  have hok : Run.Guarded (System.step .default) StepOk emptySystem
      [.mmap 1 3 ['f'] 4096 (fun _ => 0) fun _ => 0,
        .store 1 ⟨0x10000000000, [1, 2, 3, 4, 5, 6, 7, 8]⟩] := by
    refine ⟨trivial, fun s₁ hs₁ => ⟨?_, fun _ _ => trivial⟩⟩
    rw [step_emptySystem, Option.some.injEq] at hs₁
    subst hs₁
    refine ⟨by decide, fun m hm _ => ?_⟩
    rw [List.mem_singleton.mp hm]
    exact (onePage_listed_iff _).mpr rfl
  have hrun : ∃ s', Run.run (System.step .default) emptySystem
      [.mmap 1 3 ['f'] 4096 (fun _ => 0) fun _ => 0,
        .store 1 ⟨0x10000000000, [1, 2, 3, 4, 5, 6, 7, 8]⟩] = some s' := by
    rw [Run.run_cons, step_emptySystem]
    exact ⟨_, rfl⟩
  obtain ⟨s', hs'⟩ := hrun
  exact ⟨s', hs', logsListed_run rfl ⟨rfl, rfl, rfl⟩ _ hok hs'⟩

/-- A second thread stores to the page.  The next snapshot sets its log
`ACTIVE`, but the page's dependency file does not list it. -/
theorem not_logsListed_second_thread : emptySystem.Initial ∧
    ∃ s q, Run.run (System.step .default) emptySystem
      [.mmap 1 3 ['f'] 4096 (fun _ => 0) fun _ => 0,
        .store 2 ⟨0x10000000000, [1, 2, 3, 4, 5, 6, 7, 8]⟩] = some s ∧
      snapshot .default 0x10000000000 4096 s.proc = some q ∧
      PmOp.storeState 0 .active ∈ s.proc.accessesSince q ∧ ¬ s.LogsListed := by
  have hstore : ∃ s, onePage.store .default 2 ⟨0x10000000000, [1, 2, 3, 4, 5, 6, 7, 8]⟩ = some s ∧
      s.deps = onePage.deps ∧ s.proc.pid = onePage.proc.pid ∧ s.mapped = onePage.mapped ∧
      ∃ l, s.proc.logs = [l] ∧ l.tid = 2 ∧ ⟨0x10000000000, 8⟩ ∈ l.entries ∧
      ∃ q, snapshot .default 0x10000000000 4096 s.proc = some q ∧
        PmOp.storeState 0 .active ∈ s.proc.accessesSince q := by
    refine ⟨_, rfl, rfl, rfl, rfl, _, rfl, rfl, by decide, _, rfl, by decide⟩
  obtain ⟨s, hs, hdeps, hpid, hmapped, l, hl, htid, hentry, q, hq, hactive⟩ := hstore
  refine ⟨⟨rfl, rfl, rfl⟩, s, q, ?_, hq, hactive, ?_⟩
  · rw [Run.run_cons, step_emptySystem, Option.bind_some, Run.run_cons]
    simp [System.step, hs]
  · intro hlisted
    have hmem : (⟨['f'], 0x10000000000, 4096⟩ : MappedFile) ∈ s.mapped := by
      rw [hmapped]
      exact List.mem_singleton_self _
    have hline := hlisted 0 l (by rw [hl]; rfl) 0x10000000000 (.inl ⟨_, hentry, rfl⟩) _ hmem
      (by decide)
    rw [System.Listed, hdeps, hpid, htid] at hline
    exact absurd ((onePage_listed_iff 2).mp hline) (by decide)

end Cxlbuf
