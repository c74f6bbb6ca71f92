import Mathlib.Data.List.Basic
import Mathlib.Logic.Function.Basic

/-!
# Cxlbuf.Lib.Blocks

A heap of blocks of cells.  A pointer leads to a block or to nothing; the null
pointer leads to a block without cells.  Storing a cell and copying to the
start of a block fail outside the block, and otherwise replace that block
only, so that every operation that succeeds is a `put`.
-/

namespace Blocks

variable {T : Type} {h : Nat → Option (List T)} {p q k n : Nat} {b xs : List T} {x : T}

/-- The cells behind a pointer. -/
def cells (h : Nat → Option (List T)) (p : Nat) : Option (List T) := if p = 0 then some [] else h p

/-- Put a block behind a pointer. -/
def put (h : Nat → Option (List T)) (p : Nat) (b : List T) : Nat → Option (List T) :=
  Function.update h p (some b)

/-- Free a block. -/
def free (h : Nat → Option (List T)) (p : Nat) : Nat → Option (List T) := Function.update h p none

/-- Store a cell. -/
def store (h : Nat → Option (List T)) (p k : Nat) (x : T) : Option (Nat → Option (List T)) :=
  (cells h p).bind fun b => if k < b.length then some (put h p (b.set k x)) else none

/-- Copy cells to the start of a block. -/
def fill (h : Nat → Option (List T)) (p : Nat) (xs : List T) : Option (Nat → Option (List T)) :=
  (cells h p).bind fun b =>
    if xs.length ≤ b.length then some (put h p (xs ++ b.drop xs.length)) else none

/-- Copy the first `n` cells of a block to the start of another. -/
def copy (h : Nat → Option (List T)) (dst src n : Nat) : Option (Nat → Option (List T)) :=
  (cells h src).bind fun b => if n ≤ b.length then fill h dst (b.take n) else none

/-- A cell behind a pointer. -/
def cell (h : Nat → Option (List T)) (p k : Nat) : Option T := (cells h p).bind fun b => b[k]?

/-- Assign the first `n` cells of a block to those of another one by one, where
`f old x` is what assigning `x` leaves in a cell that was `old`. -/
def assignEach (f : T → T → T) (h : Nat → Option (List T)) (dst src n : Nat) :
    Option (Nat → Option (List T)) :=
  (List.range n).foldlM (fun h k => do
    let x ← cell h src k
    let old ← cell h dst k
    store h dst k (f old x)) h

@[simp] theorem cells_zero : cells h 0 = some [] := rfl

theorem cells_of_ne_zero (hp : p ≠ 0) : cells h p = h p := if_neg hp

@[simp] theorem cells_put_self (hp : p ≠ 0) : cells (put h p b) p = some b := by
  simp [cells, put, hp]

@[simp] theorem put_put (b' : List T) : put (put h p b) p b' = put h p b' := by
  simp [put]

theorem cells_put_of_ne (hq : q ≠ p) : cells (put h p b) q = cells h q := by
  simp [cells, put, hq]

theorem cells_free_of_ne (hq : q ≠ p) : cells (free h p) q = cells h q := by
  simp [cells, free, hq]

theorem store_eq (hc : cells h p = some b) (hk : k < b.length) :
    store h p k x = some (put h p (b.set k x)) := by
  simp [store, hc, hk]

theorem fill_eq (hc : cells h p = some b) (hlen : xs.length ≤ b.length) :
    fill h p xs = some (put h p (xs ++ b.drop xs.length)) := by
  simp [fill, hc, hlen]

theorem copy_eq {src dst : Nat} {d : List T} (hs : cells h src = some b) (hd : cells h dst = some d)
    (hn : n ≤ b.length) (hlen : n ≤ d.length) :
    copy h dst src n = some (put h dst (b.take n ++ d.drop n)) := by
  have htake : (b.take n).length = n := by simp [hn]
  simp only [copy, hs, Option.bind_some, if_pos hn]
  rw [fill_eq hd (by omega), htake]

theorem cell_eq (hc : cells h p = some b) (hk : k < b.length) : cell h p k = some b[k] := by
  simp [cell, hc, hk]

theorem put_cells (hp : p ≠ 0) (hc : cells h p = some b) : put h p b = h := by
  rw [cells_of_ne_zero hp] at hc
  rw [put, ← hc, Function.update_eq_self]

/-- One more cell is assigned. -/
theorem set_take_append_drop {b d : List T} (hc : n < b.length) (hd : n < d.length) :
    (b.take n ++ d.drop n).set n b[n] = b.take (n + 1) ++ d.drop (n + 1) := by
  have htake : (b.take n).length = n := by simp; omega
  rw [List.set_append_right n _ (by omega), htake, Nat.sub_self, List.drop_eq_getElem_cons hd,
    List.set_cons_zero, List.take_add_one, List.getElem?_eq_getElem hc, Option.toList_some,
    List.append_assoc, List.singleton_append]

/-- Assigning one by one copies, also within one block. -/
theorem assignEach_eq {f : T → T → T} (hf : ∀ old x, f old x = x) {src dst : Nat} {d : List T}
    (hp : dst ≠ 0) (hs : cells h src = some b) (hd : cells h dst = some d) (hn : n ≤ b.length)
    (hlen : n ≤ d.length) : assignEach f h dst src n = some (put h dst (b.take n ++ d.drop n)) := by
  induction n with
  | zero => simp [assignEach, put_cells hp hd]
  | succ n ih =>
      have hprev := ih (by omega) (by omega)
      have hdst := cells_put_self (h := h) (b := b.take n ++ d.drop n) hp
      have hsrc : cell (put h dst (b.take n ++ d.drop n)) src n = some b[n] := by
        by_cases heq : src = dst
        · rw [heq, hd, Option.some.injEq] at hs
          subst hs
          rw [heq]
          exact (cell_eq hdst (by simp; omega)).trans (by simp)
        · exact cell_eq ((cells_put_of_ne heq).trans hs) (by omega)
      have hbound : n < (b.take n ++ d.drop n).length := by simp; omega
      rw [assignEach, List.range_succ, List.foldlM_append, ← assignEach, hprev]
      simp only [Option.bind_eq_bind, Option.bind_some, List.foldlM_cons, List.foldlM_nil, hsrc,
        cell_eq hdst hbound, hf, store_eq hdst hbound, put_put, Option.pure_def]
      rw [set_take_append_drop (by omega) (by omega)]

end Blocks
