import Cxlbuf.Log

/-!
# Cxlbuf.Recovery

Recovery when a pmem file is opened (`recovery.cc`).  The constructor of
`PmemFile` reads the file's dependency file, a text with one
`pid,tid,addr` line per thread that mapped the file; `needs_recovery` looks
for lines whose log is `ACTIVE`, and `recover` undoes those logs on the
backing file: it collects the offsets of all records that start inside the
mapping and copies their contents back, last record first.

Texts are lists of characters.  The string helpers `split` and `S` come
from the nvsl library, which is not part of this repository; `Nvsl` is what
is known about them.
-/

namespace Cxlbuf

open ByteMem

/-- A text. -/
abbrev Text := List Char

/-! ## string helpers -/

/-- The pieces of a text, less an empty one at its end. -/
def dropTrailingEmpty (ps : List Text) : List Text :=
  if ps.getLast? = some [] then ps.dropLast else ps

/-- The nvsl string helpers: `split(str, delim [, max])` gives the maximal
pieces between separators without a trailing empty piece, `S` prints a
number in decimal. -/
structure Nvsl where
  split : Text → Char → Option Nat → List Text
  S : Int → Text
  split_all : ∀ s d, split s d none = dropTrailingEmpty (s.splitOn d)
  split_max : ∀ s d n, (s.splitOn d).length ≤ n →
    split s d (some n) = dropTrailingEmpty (s.splitOn d)
  S_nat : ∀ n : Nat, S n = Nat.toDigits 10 n

/-- Helpers that behave as described. -/
def Nvsl.reference : Nvsl where
  split s d _ := dropTrailingEmpty (s.splitOn d)
  S n := if n < 0 then '-' :: Nat.toDigits 10 n.natAbs else Nat.toDigits 10 n.natAbs
  split_all _ _ := rfl
  split_max _ _ _ _ := rfl
  S_nat n := by simp

/-- The number at the front of a text, as `strtol` reads it: white space, a
sign, digits. -/
def leadingNumber (s : Text) : Option (Bool × Nat) :=
  let s := s.dropWhile Char.isWhitespace
  let sign := s.head? = some '-'
  let s := if s.head? = some '-' ∨ s.head? = some '+' then s.tail else s
  let digits := s.takeWhile Char.isDigit
  if digits = [] then none else some (sign, Nat.ofDigitChars 10 digits 0)

/-- `std::stoi`; `none` when it throws. -/
def stoi (s : Text) : Option Int :=
  (leadingNumber s).bind fun (neg, n) =>
    let v : Int := if neg then -n else n
    if -2147483648 ≤ v ∧ v ≤ 2147483647 then some v else none

/-- `std::stoull`; `none` when it throws.  A sign negates modulo `2 ^ 64`. -/
def stoull (s : Text) : Option Nat :=
  (leadingNumber s).bind fun (neg, n) =>
    if n < 2 ^ 64 then some (if neg then (2 ^ 64 - n) % 2 ^ 64 else n) else none

/-! ## needs_recovery -/

/-- The name under which a line's log is looked up: its first two fields. -/
def lineLogName (nv : Nvsl) (line : Text) : Text :=
  let toks := nv.split line ',' (some 3)
  toks.getD 0 [] ++ '.' :: toks.getD 1 []

/-- The loop of `needs_recovery` over the lines of the dependency file. -/
def needsRecoveryLoop (nv : Nvsl) (logDir : Text → Option LogLayout) : List Text → List Text
  | [] => []
  | line :: lines =>
      match logDir (lineLogName nv line) with
      | some area => if area.state = .active then [line] else needsRecoveryLoop nv logDir lines
      | none => needsRecoveryLoop nv logDir lines

/-- `PmemFile::needs_recovery`.  `logDir` gives the log files by their names
without the `.log` suffix, `deps` the dependency file if it exists. -/
def needsRecovery (nv : Nvsl) (logDir : Text → Option LogLayout) (deps : Option Text) :
    List Text :=
  match deps with
  | none => []
  | some contents => needsRecoveryLoop nv logDir (nv.split contents '\n' none)

/-! ## recover -/

/-- The loop of `recover`, `while (cur_off < log_offset)`, for at most `fuel`
records: the offsets of those it comes to and the one it reaches. -/
def recoverLoop (a : LogLayout) (fuel : Nat) : List Nat × Nat :=
  Tiling.walk (fun curOff => curOff < a.logOffset)
    (fun curOff => curOff + (Log.entryBytes a.content curOff + sizeofLogEntry)) fuel 0

/-- The offsets of all records of a log area.  Every step of the loop advances,
so `logOffset` steps are enough. -/
def entryOffsets (a : LogLayout) : List Nat := (recoverLoop a a.logOffset).1

/-- The records that start inside the mapping `[addr, addr + len)`. -/
def logEntries (a : LogLayout) (addr len : Nat) : List Nat :=
  (entryOffsets a).filter fun off =>
    addr ≤ Log.entryAddr a.content off ∧ Log.entryAddr a.content off < addr + len

/-- Copy one record's content back. -/
def applyEntry (a : LogLayout) (mem : Mem) (off : Nat) : Mem :=
  write mem (Log.entryAddr a.content off) (Log.entryContent a.content off)

/-- Undo a log on a backing file that is mapped at its original address:
the records are applied in reverse order. -/
def undoLog (a : LogLayout) (addr len : Nat) (mem : Mem) : Mem :=
  (logEntries a addr len).reverse.foldl (applyEntry a) mem

/-- A file mapped at an address. -/
def mapAt (addr : Nat) (file : Mem) : Mem := fun x => file (x - addr)

/-- The file after its first `len` bytes were mapped at an address and the
mapping was changed to `mem`. -/
def unmapAt (addr len : Nat) (file mem : Mem) : Mem := fun off =>
  if off < len then mem (addr + off) else file off

/-- `PmemFile::recover` on the backing file, by file offset; `none` when the
process exits because a line does not parse or its log is missing.  Log
files are left as they are. -/
def recover (nv : Nvsl) (logDir : Text → Option LogLayout) (len : Nat) :
    List Text → Mem → Option Mem
  | [], file => some file
  | line :: lines, file => do
      let toks := nv.split line ',' (some 3)
      let pid ← stoi (toks.getD 0 [])
      let tid ← stoull (toks.getD 1 [])
      let addr ← stoull (toks.getD 2 [])
      let area ← logDir (nv.S pid ++ '.' :: nv.S tid)
      recover nv logDir len lines
        (unmapAt addr len file (undoLog area addr len (mapAt addr file)))

/-- What recovery finds on persistent memory for one path: the log
directory, the dependency file and the backing file. -/
structure PmemFs where
  logDir : Text → Option LogLayout
  deps : Option Text
  backing : Mem

/-- The constructor of `PmemFile` for a mapping of `len` bytes; `none` when
the process exits. -/
def construct (nv : Nvsl) (path : Text) (len : Nat) (fs : PmemFs) : Option PmemFs :=
  if path = [] then some fs
  else
    let recoveryFiles := needsRecovery nv fs.logDir fs.deps
    if recoveryFiles = [] then some fs
    else (recover nv fs.logDir len recoveryFiles fs.backing).map fun file =>
      { fs with backing := file }

end Cxlbuf
