import Mathlib.Data.List.TakeWhile
import Cxlbuf.Recovery

/-!
# Cxlbuf.Recovery.Lines

The lines of a dependency file as typed values.  `write_dependency_internal`
prints a line from the process id, the thread id and the address of the
mapping; `needs_recovery` and `recover` split and parse it again.  Once the
roundtrip is established (`split_depText`, `split_text`, `stoi_toDigits`,
`stoull_toDigits`), both are functions of the typed lines alone:
`needsRecovery_depText` and `recover_text`.

`needs_recovery` stops at the first line whose log is `ACTIVE`, so it finds
every outstanding log only when there is no second one.
-/

namespace Cxlbuf

open ByteMem

/-- A line of a dependency file: an `int` and two 64-bit words. -/
structure DepLine where
  pid : Nat
  tid : Nat
  addr : Nat
  pid_lt : pid < 2 ^ 31
  tid_lt : tid < 2 ^ 64
  addr_lt : addr < 2 ^ 64
deriving DecidableEq, Repr

namespace DepLine

/-- The line as it stands in the file, without its newline. -/
def text (l : DepLine) : Text :=
  Nat.toDigits 10 l.pid ++ ',' :: (Nat.toDigits 10 l.tid ++ ',' :: Nat.toDigits 10 l.addr)

/-- The name of the thread's log, without the `.log` suffix. -/
def logName (l : DepLine) : Text := Nat.toDigits 10 l.pid ++ '.' :: Nat.toDigits 10 l.tid

/-- The line's log exists and is `ACTIVE`. -/
def Outstanding (logDir : Text → Option LogLayout) (l : DepLine) : Prop :=
  (logDir l.logName).any (fun area => decide (area.state = .active)) = true

instance (logDir : Text → Option LogLayout) : DecidablePred (Outstanding logDir) :=
  fun l => by unfold Outstanding; infer_instance

end DepLine

/-- The text of a dependency file. -/
def depText (ls : List DepLine) : Text := ls.flatMap fun l => l.text ++ ['\n']

/-- `write_dependency_internal`: append a line, creating the file if there
is none. -/
def writeDependencyInternal (nv : Nvsl) (l : DepLine) (deps : Option Text) : Option Text :=
  some (deps.getD [] ++
    (nv.S l.pid ++ ',' :: (nv.S l.tid ++ ',' :: (nv.S l.addr ++ ['\n']))))

/-! ## printing and parsing -/

theorem not_mem_toDigits {c : Char} (h : c.isDigit = false) (n : Nat) :
    c ∉ Nat.toDigits 10 n := by
  intro hmem
  have hdigit := Nat.isDigit_of_mem_toDigits (by decide) (by decide) hmem
  simp [h] at hdigit

/-- A decimal number starts with a digit. -/
theorem toDigits_cons (n : Nat) :
    ∃ c cs, Nat.toDigits 10 n = c :: cs ∧ c.isDigit = true := by
  cases h : Nat.toDigits 10 n with
  | nil => exact absurd h Nat.toDigits_ne_nil
  | cons c cs =>
      have hmem : c ∈ Nat.toDigits 10 n := by rw [h]; exact List.mem_cons_self
      exact ⟨c, cs, rfl, Nat.isDigit_of_mem_toDigits (by decide) (by decide) hmem⟩

theorem newline_not_mem_text (l : DepLine) : '\n' ∉ l.text := by
  have hpid := not_mem_toDigits (c := '\n') rfl l.pid
  have htid := not_mem_toDigits (c := '\n') rfl l.tid
  have haddr := not_mem_toDigits (c := '\n') rfl l.addr
  simp [DepLine.text, hpid, htid, haddr]

/-- A decimal number reads back. -/
theorem leadingNumber_toDigits (n : Nat) :
    leadingNumber (Nat.toDigits 10 n) = some (false, n) := by
  obtain ⟨c, cs, hcs, hc⟩ := toDigits_cons n
  have hdigits : ∀ d ∈ Nat.toDigits 10 n, d.isDigit = true :=
    fun d hd => Nat.isDigit_of_mem_toDigits (by decide) (by decide) hd
  have hne (d : Char) (hd : d.isDigit = false) : c ≠ d := by
    intro heq
    rw [heq, hd] at hc
    cases hc
  have hspace : c.isWhitespace = false := by
    simp [Char.isWhitespace, hne ' ' rfl, hne '\t' rfl, hne '\x0d' rfl, hne '\n' rfl]
  have hdrop : (Nat.toDigits 10 n).dropWhile Char.isWhitespace = Nat.toDigits 10 n := by
    rw [hcs, List.dropWhile_cons_of_neg (by simp [hspace])]
  have hminus : ¬ (Nat.toDigits 10 n).head? = some '-' := by simp [hcs, hne '-' rfl]
  have hplus : ¬ (Nat.toDigits 10 n).head? = some '+' := by simp [hcs, hne '+' rfl]
  have htake : (Nat.toDigits 10 n).takeWhile Char.isDigit = Nat.toDigits 10 n :=
    List.takeWhile_eq_self_iff.mpr hdigits
  simp [leadingNumber, hdrop, hminus, hplus, htake, Nat.toDigits_ne_nil,
    Nat.ofDigitChars_ten_toDigits]

theorem toDigits_injective {m n : Nat} (h : Nat.toDigits 10 m = Nat.toDigits 10 n) : m = n := by
  have hm := leadingNumber_toDigits m
  rw [h, leadingNumber_toDigits] at hm
  simpa using hm.symm

theorem stoi_toDigits {n : Nat} (h : n < 2 ^ 31) : stoi (Nat.toDigits 10 n) = some (n : Int) := by
  have hrange : -2147483648 ≤ (n : Int) ∧ (n : Int) ≤ 2147483647 := by omega
  simp [stoi, leadingNumber_toDigits, hrange]

theorem stoull_toDigits {n : Nat} (h : n < 2 ^ 64) : stoull (Nat.toDigits 10 n) = some n := by
  rw [stoull, leadingNumber_toDigits, Option.bind_some]
  simp only [if_pos h, Bool.false_eq_true, if_false]

section Nvsl

variable (nv : Nvsl)

/-- The lines of a dependency file are found again. -/
theorem split_depText (ls : List DepLine) :
    nv.split (depText ls) '\n' none = ls.map DepLine.text := by
  have hsplit : (depText ls).splitOn '\n' = ls.map DepLine.text ++ [[]] := by
    induction ls with
    | nil => rfl
    | cons l ls ih =>
        have hcons : depText (l :: ls) = l.text ++ '\n' :: depText ls := by simp [depText]
        rw [hcons, List.splitOn_append_cons_self_of_not_mem (newline_not_mem_text l), ih]
        rfl
  rw [nv.split_all, hsplit, dropTrailingEmpty, if_pos (by simp), List.dropLast_concat]

/-- The fields of a line are found again. -/
theorem split_text (l : DepLine) : nv.split l.text ',' (some 3) =
    [Nat.toDigits 10 l.pid, Nat.toDigits 10 l.tid, Nat.toDigits 10 l.addr] := by
  have hsplit : l.text.splitOn ',' =
      [Nat.toDigits 10 l.pid, Nat.toDigits 10 l.tid, Nat.toDigits 10 l.addr] := by
    rw [DepLine.text, List.splitOn_append_cons_self_of_not_mem (not_mem_toDigits rfl _),
      List.splitOn_append_cons_self_of_not_mem (not_mem_toDigits rfl _),
      List.splitOn_eq_singleton (not_mem_toDigits rfl _)]
  rw [nv.split_max _ _ _ (by rw [hsplit]; rfl), hsplit, dropTrailingEmpty, if_neg]
  simp [Nat.toDigits_ne_nil]

theorem lineLogName_text (l : DepLine) : lineLogName nv l.text = l.logName := by
  simp [lineLogName, split_text, DepLine.logName]

/-- What `write_dependency_internal` appends is one more line. -/
theorem writeDependencyInternal_depText (l : DepLine) (ls : List DepLine) :
    writeDependencyInternal nv l (some (depText ls)) = some (depText (ls ++ [l])) := by
  simp [writeDependencyInternal, nv.S_nat, depText, DepLine.text]

/-! ## needs_recovery on typed lines -/

/-- **What `needs_recovery` returns**: the first outstanding line, if there
is one. -/
theorem needsRecovery_depText (logDir : Text → Option LogLayout) (ls : List DepLine) :
    needsRecovery nv logDir (some (depText ls)) =
      ((ls.find? fun l => l.Outstanding logDir).map DepLine.text).toList := by
  rw [needsRecovery, split_depText]
  induction ls with
  | nil => rfl
  | cons l ls ih =>
      rw [List.map_cons, needsRecoveryLoop, lineLogName_text]
      cases hdir : logDir l.logName with
      | none =>
          have hout : ¬ l.Outstanding logDir := by simp [DepLine.Outstanding, hdir]
          rw [List.find?_cons_of_neg (by simpa using hout), ih]
      | some area =>
          by_cases hactive : area.state = .active
          · have hout : l.Outstanding logDir := by simp [DepLine.Outstanding, hdir, hactive]
            rw [List.find?_cons_of_pos (by simpa using hout)]
            simp [hactive]
          · have hout : ¬ l.Outstanding logDir := by simp [DepLine.Outstanding, hdir, hactive]
            rw [List.find?_cons_of_neg (by simpa using hout)]
            simp [hactive, ih]

end Nvsl

/-- Lines that differ print differently. -/
theorem text_injective (nv : Nvsl) {l l' : DepLine} (h : l.text = l'.text) : l = l' := by
  have hfields := split_text nv l
  rw [h, split_text] at hfields
  simp only [List.cons.injEq, and_true] at hfields
  obtain ⟨hpid, htid, haddr⟩ := hfields
  cases l
  cases l'
  simp only [DepLine.mk.injEq]
  exact ⟨(toDigits_injective hpid).symm, (toDigits_injective htid).symm,
    (toDigits_injective haddr).symm⟩

/-- `needs_recovery` returns exactly the lines whose log is outstanding. -/
def FindsAllOutstanding (nv : Nvsl) (logDir : Text → Option LogLayout) (ls : List DepLine) : Prop :=
  ∀ line, line ∈ needsRecovery nv logDir (some (depText ls)) ↔
    ∃ l ∈ ls, l.Outstanding logDir ∧ l.text = line

/-- A line that follows an outstanding one is not returned. -/
theorem not_findsAllOutstanding {nv : Nvsl} {logDir : Text → Option LogLayout} {ls : List DepLine}
    {l l' : DepLine} (hl : l ∈ ls) (hl' : l' ∈ ls) (hout : l.Outstanding logDir)
    (hout' : l'.Outstanding logDir) (hne : l ≠ l') : ¬ FindsAllOutstanding nv logDir ls := by
  intro hall
  have hmem := (hall l.text).mpr ⟨l, hl, hout, rfl⟩
  have hmem' := (hall l'.text).mpr ⟨l', hl', hout', rfl⟩
  rw [needsRecovery_depText, Option.mem_toList] at hmem hmem'
  have heq : l.text = l'.text := Option.some.inj (hmem.symm.trans hmem')
  exact hne (text_injective nv heq)

/-- **When every outstanding log is found**: `needs_recovery` returns
exactly the lines whose log exists and is `ACTIVE` when no two different
lines are such, and only then. -/
theorem findsAllOutstanding_iff (nv : Nvsl) (logDir : Text → Option LogLayout)
    (ls : List DepLine) : FindsAllOutstanding nv logDir ls ↔
      ∀ l ∈ ls, ∀ l' ∈ ls, l.Outstanding logDir → l'.Outstanding logDir → l = l' := by
  constructor
  · intro hall l hl l' hl' hout hout'
    by_contra hne
    exact not_findsAllOutstanding hl hl' hout hout' hne hall
  · intro huniq line
    rw [needsRecovery_depText, Option.mem_toList]
    cases hfind : ls.find? fun l => l.Outstanding logDir with
    | none =>
        rw [List.find?_eq_none] at hfind
        constructor
        · intro hsome
          cases hsome
        · intro hex
          obtain ⟨l, hl, hout, -⟩ := hex
          exact absurd hout (by simpa using hfind l hl)
    | some l₀ =>
        have hl₀ := List.mem_of_find?_eq_some hfind
        have hout₀ : l₀.Outstanding logDir := by simpa using List.find?_some hfind
        constructor
        · intro hline
          exact ⟨l₀, hl₀, hout₀, by simpa using hline⟩
        · intro hex
          obtain ⟨l, hl, hout, hline⟩ := hex
          rw [huniq l hl l₀ hl₀ hout hout₀] at hline
          simp [hline]

/-- A thread's line for a mapping at the start of the tracked region. -/
def exampleLine (tid : Nat) (h : tid < 2 ^ 64) : DepLine :=
  ⟨100, tid, 2 ^ 40, by decide, h, by decide⟩

theorem exampleTid_lt : 1 < 2 ^ 64 := by decide

/-- Of two threads with `ACTIVE` logs only the first is found. -/
theorem not_findsAllOutstanding_two_threads : ¬ FindsAllOutstanding .reference
    (fun _ => some ⟨⟨.active, 0, 0⟩, fun _ => 0⟩)
    [exampleLine 1 (by decide), exampleLine 2 (by decide)] := by
  have hne : exampleLine 1 (by decide) ≠ exampleLine 2 (by decide) := by simp [exampleLine]
  exact not_findsAllOutstanding (by simp) (by simp) rfl rfl hne

/-! ## recover on typed lines -/

/-- **What `recover` does for one line**: it undoes the line's log on the
file, mapped at the line's address. -/
theorem recover_text (nv : Nvsl) (logDir : Text → Option LogLayout) (len : Nat) (l : DepLine)
    (file : Mem) {area : LogLayout} (h : logDir l.logName = some area) :
    recover nv logDir len [l.text] file =
      some (unmapAt l.addr len file (undoLog area l.addr len (mapAt l.addr file))) := by
  have hS (n : Nat) : nv.S n = Nat.toDigits 10 n := nv.S_nat n
  rw [DepLine.logName] at h
  simp [recover, split_text, stoi_toDigits l.pid_lt, stoull_toDigits l.tid_lt,
    stoull_toDigits l.addr_lt, hS, h]

/-- The file once a line's log was undone on it. -/
def undoLine (logDir : Text → Option LogLayout) (len : Nat) (file : Mem) (l : DepLine) : Mem :=
  match logDir l.logName with
  | none => file
  | some area => unmapAt l.addr len file (undoLog area l.addr len (mapAt l.addr file))

/-- **The constructor on a well-formed dependency file** always completes:
it undoes the log of the first outstanding line, if there is one. -/
theorem construct_depText (nv : Nvsl) {path : Text} (hpath : path ≠ []) (len : Nat)
    (logDir : Text → Option LogLayout) (ls : List DepLine) (file : Mem) :
    construct nv path len ⟨logDir, some (depText ls), file⟩ =
      some ⟨logDir, some (depText ls),
        (ls.find? fun l => l.Outstanding logDir).elim file (undoLine logDir len file)⟩ := by
  simp only [construct, if_neg hpath, needsRecovery_depText]
  cases hfind : ls.find? fun l => l.Outstanding logDir with
  | none => simp
  | some l =>
      have hout : l.Outstanding logDir := by simpa using List.find?_some hfind
      cases hdir : logDir l.logName with
      | none => simp [DepLine.Outstanding, hdir] at hout
      | some area => simp [recover_text nv logDir len l file hdir, undoLine, hdir]

end Cxlbuf
