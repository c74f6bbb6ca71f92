import Cxlbuf.Lib.Run
import Cxlbuf.Recovery.Lines

/-!
# Cxlbuf.Recovery.Open

What opening a file does to it (`mmap` in `libc_wrappers.cc`, `recovery.cc`).
The first opening copies the file to its backing file; later ones copy the
backing file over the file.  In between, `map_backing_file` writes a 1 to the
first byte of the backing file through the new mapping, to see whether it can,
and leaves it there.  The next opening brings that byte into the file.

The copy is one `sendfile` call.  What it returns is only compared with -1, so
the bytes it did not move stay stale (`take_sendfileMoving_iff`).

Files are lists of bytes here, as their lengths matter.
-/

namespace Cxlbuf

open ByteMem

/-- What is on the file system for one path: the file, its backing file and
its dependency file. -/
structure PmemPath where
  file : List UInt8
  backing : Option (List UInt8)
  deps : Option Text

namespace PmemPath

/-! ## one opening -/

/-- The constructor of `PmemFile` for a mapping of `len` bytes.  Recovery maps
the backing file, so it fails if there is none. -/
def construct (nv : Nvsl) (path : Text) (logDir : Text → Option LogLayout) (len : Nat)
    (d : PmemPath) : Option PmemPath :=
  match d.backing with
  | none => if needsRecovery nv logDir d.deps = [] then some d else none
  | some b =>
      (Cxlbuf.construct nv path len ⟨logDir, d.deps, fun off => b.getD off 0⟩).map fun fs =>
        { d with backing := some ((List.range b.length).map fs.backing) }

/-- `create_backing_file_internal`: a copy of the file.  For an empty file it
is a hole of `len + 1` bytes with a zero written behind it. -/
def createBackingFileInternal (len : Nat) (file : List UInt8) : List UInt8 :=
  if file.length = 0 then List.replicate (len + 1) 0 ++ [0] else file

/-- `sendfile` to the start of a file, when it moves `n` bytes: what it does not
reach stays. -/
def sendfileMoving (n : Nat) (dst src : List UInt8) : List UInt8 :=
  src.take n ++ dst.drop (src.take n).length

/-- `create_backing_file`: the backing file from the file the first time, the
file from the backing file after that.  `sfRet` is what `sendfile` returns if
it is called: the number of bytes moved, or `none` for an error, on which the
process exits. -/
def createBackingFileMoving (sfRet : Option Nat) (len : Nat) (d : PmemPath) : Option PmemPath :=
  match d.backing with
  | none => some { d with backing := some (createBackingFileInternal len d.file) }
  | some b => sfRet.map fun n => { d with file := sendfileMoving n d.file b }

/-- `create_backing_file` when `sendfile` moves as much as it may: no more than
`0x7ffff000` bytes in one call. -/
def createBackingFile (len : Nat) (d : PmemPath) : Option PmemPath :=
  d.createBackingFileMoving (some (min len 0x7ffff000)) len

/-- `map_backing_file` for a file under `/mnt/pmem0/`: the mapping is shared,
and its first byte is set to 1.  There is no such byte in an empty file. -/
def mapBackingFile (d : PmemPath) : Option PmemPath :=
  match d.backing with
  | none => none
  | some [] => none
  | some (_ :: b) => some { d with backing := some (1 :: b) }

/-- `map_to_page_cache`: the mapping of the file is private, so all that stays
is a line in the dependency file. -/
def mapToPageCache (nv : Nvsl) (line : DepLine) (d : PmemPath) : PmemPath :=
  { d with deps := writeDependencyInternal nv line d.deps }

end PmemPath

/-- A process that maps a whole file and exits: its line in the dependency
file and the logs it finds, none of which is `ACTIVE`. -/
structure OpenCycle where
  line : DepLine
  logDir : Text → Option LogLayout
  not_active : ∀ name area, logDir name = some area → area.state ≠ .active

/-- The intercepted `mmap` of the whole file in CXL mode, then exit. -/
def PmemPath.openCycle (nv : Nvsl) (path : Text) (d : PmemPath) (c : OpenCycle) :
    Option PmemPath := do
  let len := d.file.length
  let d ← d.construct nv path c.logDir len
  let d ← d.createBackingFile len
  let d ← d.mapBackingFile
  return d.mapToPageCache nv c.line

/-! ## runs of openings -/

section Open

variable {nv : Nvsl} {path : Text} {d : PmemPath}

/-- Without an `ACTIVE` log there is nothing to recover. -/
theorem needsRecovery_of_not_active {logDir : Text → Option LogLayout}
    (h : ∀ name area, logDir name = some area → area.state ≠ .active) (deps : Option Text) :
    needsRecovery nv logDir deps = [] := by
  have hloop (lines : List Text) : needsRecoveryLoop nv logDir lines = [] := by
    induction lines with
    | nil => rfl
    | cons line lines ih =>
        cases hdir : logDir (lineLogName nv line) with
        | none => simp [needsRecoveryLoop, hdir, ih]
        | some area => simp [needsRecoveryLoop, hdir, h _ _ hdir, ih]
  cases deps with
  | none => rfl
  | some contents => exact hloop _

/-- So the constructor changes nothing. -/
theorem construct_of_not_active (c : OpenCycle) (len : Nat) :
    d.construct nv path c.logDir len = some d := by
  have hnone : needsRecovery nv c.logDir d.deps = [] :=
    needsRecovery_of_not_active c.not_active d.deps
  cases hb : d.backing with
  | none => simp [PmemPath.construct, hb, hnone]
  | some b =>
      have hback : (List.range b.length).map (fun off => b.getD off 0) = b := by
        apply List.ext_getElem
        · simp
        · intro i hi _
          simp at hi
          simp [hi]
      have hsame : Cxlbuf.construct nv path len ⟨c.logDir, d.deps, fun off => b.getD off 0⟩ =
          some ⟨c.logDir, d.deps, fun off => b.getD off 0⟩ := by
        simp [Cxlbuf.construct, hnone]
      have hd : { d with backing := some b } = d := by rw [← hb]
      simp only [PmemPath.construct, hb, hsame, Option.map_some, hback, hd]

/-- Over a file that differs in its first byte only, `sendfile` copies that
byte. -/
theorem sendfileMoving_cons (y z : UInt8) (bs : List UInt8) :
    PmemPath.sendfileMoving (min (bs.length + 1) 0x7ffff000) (y :: bs) (z :: bs) = z :: bs := by
  have hmin : min (bs.length + 1) 0x7ffff000 = min bs.length 0x7fffefff + 1 := by omega
  have htake : (bs.take (min bs.length 0x7fffefff)).length = min bs.length 0x7fffefff := by
    rw [List.length_take]
    omega
  simp only [PmemPath.sendfileMoving, hmin, List.take_succ_cons, List.length_cons, htake,
    List.drop_succ_cons, List.cons_append, List.take_append_drop]

/-- The first opening copies the file to the backing file, which is left with
a 1 in its first byte. -/
theorem openCycle_of_none (c : OpenCycle) {y : UInt8} {bs : List UInt8} (hf : d.file = y :: bs)
    (hb : d.backing = none) : d.openCycle nv path c = some
      { file := y :: bs, backing := some (1 :: bs)
        deps := writeDependencyInternal nv c.line d.deps } := by
  simp [PmemPath.openCycle, construct_of_not_active, PmemPath.createBackingFile,
    PmemPath.createBackingFileMoving, hb, hf, PmemPath.createBackingFileInternal,
    PmemPath.mapBackingFile, PmemPath.mapToPageCache]

/-- A later one copies the backing file over the file. -/
theorem openCycle_of_some (c : OpenCycle) {y z : UInt8} {bs : List UInt8} (hf : d.file = y :: bs)
    (hb : d.backing = some (z :: bs)) : d.openCycle nv path c = some
      { file := z :: bs, backing := some (1 :: bs)
        deps := writeDependencyInternal nv c.line d.deps } := by
  simp [PmemPath.openCycle, construct_of_not_active, PmemPath.createBackingFile,
    PmemPath.createBackingFileMoving, hb, hf, sendfileMoving_cons, PmemPath.mapBackingFile,
    PmemPath.mapToPageCache]

/-- After the first opening the backing file starts with a 1, and so does the
file after the second. -/
theorem run_openCycle (cs : List OpenCycle) {y : UInt8} {bs : List UInt8} (hf : d.file = y :: bs)
    (hb : d.backing = some (1 :: bs)) : ∃ d', Run.run (PmemPath.openCycle nv path) d cs = some d' ∧
      d'.backing = some (1 :: bs) ∧ d'.file = if cs = [] then y :: bs else 1 :: bs := by
  induction cs generalizing d y with
  | nil => exact ⟨d, rfl, hb, hf⟩
  | cons c cs ih =>
      obtain ⟨d', hrun, hb', hf'⟩ := ih (d := ⟨1 :: bs, some (1 :: bs), _⟩) rfl rfl
      refine ⟨d', by rw [Run.run_cons, openCycle_of_some c hf hb]; exact hrun, hb', ?_⟩
      rw [hf']
      simp

/-- **When opening keeps the content**: after any number of openings without
a store or a snapshot, the file and its backing file hold what the file held,
exactly when there was none or the first byte was a 1. -/
theorem openCycles_preserve_iff (nv : Nvsl) (path : Text) (hne : d.file ≠ [])
    (hb : d.backing = none ∨ d.backing = some d.file) (cs : List OpenCycle) :
    ∃ d', Run.run (PmemPath.openCycle nv path) d cs = some d' ∧
      ((d'.file = d.file ∧ ∀ b ∈ d'.backing, b = d.file) ↔ cs = [] ∨ d.file.head? = some 1) := by
  cases hf : d.file with
  | nil => exact absurd hf hne
  | cons y bs =>
      cases cs with
      | nil =>
          refine ⟨d, rfl, ?_⟩
          cases hb with
          | inl hnone => simp [hf, hnone]
          | inr hsome => simp [hf, hsome]
      | cons c cs =>
          have hstep : ∃ d₁, d.openCycle nv path c = some d₁ ∧ d₁.file = y :: bs ∧
              d₁.backing = some (1 :: bs) := by
            cases hb with
            | inl hnone => exact ⟨_, openCycle_of_none c hf hnone, rfl, rfl⟩
            | inr hsome => exact ⟨_, openCycle_of_some c hf (hsome.trans (by rw [hf])), rfl, rfl⟩
          obtain ⟨d₁, hd₁, hf₁, hb₁⟩ := hstep
          have hlater : ∃ d', Run.run (PmemPath.openCycle nv path) d₁ cs = some d' ∧
              d'.backing = some (1 :: bs) ∧ d'.file = if cs = [] then y :: bs else 1 :: bs :=
            run_openCycle cs hf₁ hb₁
          obtain ⟨d', hrun, hb', hf'⟩ := hlater
          refine ⟨d', by rw [Run.run_cons, hd₁]; exact hrun, ?_⟩
          rw [hb', hf']
          constructor
          · intro hsame
            have hone := hsame.2 _ rfl
            simp only [List.cons.injEq, and_true] at hone
            simp [← hone]
          · intro hone
            simp only [reduceCtorEq, List.head?_cons, Option.some.injEq, false_or] at hone
            subst hone
            simp

end Open

/-- A process that finds no logs. -/
def firstOpen : OpenCycle := ⟨exampleLine 1 exampleTid_lt, fun _ => none, by simp⟩

/-- Two openings of a file of zeros: the first changes the backing file, the
second the file. -/
theorem openCycles_zero_file :
    ∃ d', Run.run (PmemPath.openCycle .reference "/mnt/pmem0/a".toList)
        ⟨[0, 0], none, none⟩ [firstOpen, firstOpen] = some d' ∧
      d'.file = [1, 0] ∧ d'.backing = some [1, 0] := by
  rw [Run.run_cons, openCycle_of_none firstOpen rfl rfl, Option.bind_some, Run.run_cons,
    openCycle_of_some firstOpen rfl rfl]
  exact ⟨_, rfl, rfl, rfl⟩

/-- A file that starts with a 1 is kept. -/
theorem openCycles_one_file :
    ∃ d', Run.run (PmemPath.openCycle .reference "/mnt/pmem0/a".toList)
        ⟨[1, 0], none, none⟩ [firstOpen, firstOpen] = some d' ∧
      d'.file = [1, 0] ∧ ∀ b ∈ d'.backing, b = [1, 0] := by
  obtain ⟨d', hrun, hiff⟩ := openCycles_preserve_iff (d := ⟨[1, 0], none, none⟩) .reference
    "/mnt/pmem0/a".toList (by simp) (.inl rfl) [firstOpen, firstOpen]
  exact ⟨d', hrun, hiff.mpr (.inr rfl)⟩

/-! ## short transfers -/

namespace PmemPath

/-- The bytes moved are the source's, the others those that were there. -/
theorem getElem?_sendfileMoving {n : Nat} {src : List UInt8} (dst : List UInt8)
    (hn : n ≤ src.length) (i : Nat) :
    (sendfileMoving n dst src)[i]? = if i < n then src[i]? else dst[i]? := by
  have hlen : (src.take n).length = n := List.length_take_of_le hn
  rw [sendfileMoving, hlen]
  split
  · rename_i hi
    rw [List.getElem?_append_left (by omega), List.getElem?_take_of_lt hi]
  · rename_i hi
    rw [List.getElem?_append_right (by omega), hlen, List.getElem?_drop]
    congr 1
    omega

/-- After a transfer of `n` bytes the first `len` bytes are the source's
exactly when those not moved were so before. -/
theorem take_sendfileMoving_iff {n len : Nat} {dst src : List UInt8} (hn : n ≤ src.length) :
    (sendfileMoving n dst src).take len = src.take len ↔
      ∀ i, n ≤ i → i < len → dst[i]? = src[i]? := by
  constructor
  · intro heq i hlo hhi
    have hi := congrArg (fun bs : List UInt8 => bs[i]?) heq
    simp only [List.getElem?_take_of_lt hhi, getElem?_sendfileMoving dst hn,
      if_neg (Nat.not_lt.mpr hlo)] at hi
    exact hi
  · intro hrest
    apply List.ext_getElem?
    intro i
    by_cases hhi : i < len
    · rw [List.getElem?_take_of_lt hhi, List.getElem?_take_of_lt hhi,
        getElem?_sendfileMoving dst hn]
      split
      · rfl
      · rename_i hlo
        exact hrest i (by omega) hhi
    · rw [List.getElem?_take_eq_none (by omega), List.getElem?_take_eq_none (by omega)]

end PmemPath

/-- **When a file is recreated in full**: with a backing file of at least
`len` bytes and a `sendfile` that moves any allowed number of them, the file
starts with the first `len` bytes of the backing file exactly when it held
those that were not moved before. -/
theorem recreated_iff {d : PmemPath} {b : List UInt8} (hb : d.backing = some b) {len : Nat}
    (hlen : len ≤ b.length) {n : Nat} (hn : n ≤ min len 0x7ffff000) :
    ∃ d', d.createBackingFileMoving (some n) len = some d' ∧
      (d'.file.take len = b.take len ↔ ∀ i, n ≤ i → i < len → d.file[i]? = b[i]?) := by
  have hmoved : n ≤ b.length := by omega
  refine ⟨{ d with file := PmemPath.sendfileMoving n d.file b }, ?_, ?_⟩
  · simp only [PmemPath.createBackingFileMoving, hb, Option.map_some]
  · exact PmemPath.take_sendfileMoving_iff hmoved

/-- A small file that is moved in full. -/
theorem recreated_two_bytes :
    ∃ d', (⟨[0, 0], some [1, 2, 3], none⟩ : PmemPath).createBackingFileMoving (some 2) 2 =
        some d' ∧ d'.file.take 2 = [1, 2] := by
  obtain ⟨d', hd', hiff⟩ := recreated_iff (d := ⟨[0, 0], some [1, 2, 3], none⟩) rfl
    (show 2 ≤ [1, 2, 3].length by decide) (show 2 ≤ min 2 0x7ffff000 by decide)
  exact ⟨d', hd', hiff.mpr fun i hlo hhi => absurd hhi (by omega)⟩

/-- A pool of 4 GiB, with all the bytes moved that one call moves: the second
half is stale. -/
theorem recreated_stale_pool :
    ∃ d', (⟨List.replicate 0x100000000 0, some (List.replicate 0x100000000 1), none⟩ :
        PmemPath).createBackingFileMoving (some 0x7ffff000) 0x100000000 = some d' ∧
      ¬ d'.file.take 0x100000000 = (List.replicate 0x100000000 1).take 0x100000000 := by
  refine ⟨_, rfl, fun heq => ?_⟩
  have hlen : 0x7ffff000 ≤ (List.replicate 0x100000000 (1 : UInt8)).length := by
    rw [List.length_replicate]
    decide
  have hlast := (PmemPath.take_sendfileMoving_iff hlen).mp heq 0x7ffff000 (Nat.le_refl _)
    (by decide)
  rw [List.getElem?_replicate_of_lt (by decide), List.getElem?_replicate_of_lt (by decide)] at hlast
  exact absurd hlast (by decide)

end Cxlbuf
