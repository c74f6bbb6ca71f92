import Mathlib.Algebra.Group.Nat.Defs
import Mathlib.Data.List.Basic
import Mathlib.Logic.Function.Basic

/-!
# Cxlbuf.Lib.Memory

Byte memories as total functions from addresses to bytes, with the two
operations a C program performs on them in bulk: reading a run of bytes
(`slice`) and writing one (`write`).  Little-endian words are lists of
bytes (`toLE` / `ofLE`), so a field of a packed record is a `write` of a
`toLE` and an `ofLE` of a `slice`.

Everything here is stated over arbitrary addresses, so that later proofs
only do interval arithmetic.
-/

namespace ByteMem

/-- A memory holds one byte at every address. -/
abbrev Mem := Nat → UInt8

/-! ## reading and writing runs of bytes -/

/-- The `n` bytes of `m` that start at address `a`. -/
def slice (m : Mem) (a n : Nat) : List UInt8 := (List.range n).map fun i => m (a + i)

/-- Write the bytes `bs` at address `a`. -/
def write (m : Mem) (a : Nat) (bs : List UInt8) : Mem := fun x =>
  if a ≤ x ∧ x < a + bs.length then bs.getD (x - a) 0 else m x

@[simp] theorem length_slice (m : Mem) (a n : Nat) : (slice m a n).length = n := by
  simp [slice]

theorem getD_slice {i n : Nat} (m : Mem) (a : Nat) (h : i < n) :
    (slice m a n).getD i 0 = m (a + i) := by
  simp [slice, List.getD_eq_getElem?_getD, h]

/-- Inside the written run, the written byte is read. -/
theorem write_of_mem {m : Mem} {a x : Nat} {bs : List UInt8} (h : a ≤ x ∧ x < a + bs.length) :
    write m a bs x = bs.getD (x - a) 0 := if_pos h

/-- Outside the written run, nothing changes. -/
theorem write_of_not_mem {m : Mem} {a x : Nat} {bs : List UInt8}
    (h : ¬ (a ≤ x ∧ x < a + bs.length)) : write m a bs x = m x := if_neg h

/-- Writing a run read from another memory copies it. -/
theorem write_slice (m src : Mem) (a s n x : Nat) :
    write m a (slice src s n) x = if a ≤ x ∧ x < a + n then src (s + (x - a)) else m x := by
  by_cases h : a ≤ x ∧ x < a + n
  · rw [write_of_mem (by simpa using h), getD_slice src s (by omega), if_pos h]
  · rw [write_of_not_mem (by simpa using h), if_neg h]

/-- A run is written byte by byte. -/
theorem write_cons (m : Mem) (a : Nat) (b : UInt8) (bs : List UInt8) :
    write m a (b :: bs) = write (Function.update m a b) (a + 1) bs := by
  funext x
  by_cases hx : x = a
  · subst hx
    rw [write_of_mem (by simp), write_of_not_mem (by omega)]
    simp
  · by_cases hin : a + 1 ≤ x ∧ x < a + 1 + bs.length
    · rw [write_of_mem (by simp; omega), write_of_mem hin, show x - a = x - (a + 1) + 1 by omega]
      rfl
    · rw [write_of_not_mem (by simp; omega), write_of_not_mem hin, Function.update_of_ne hx]

/-- Two memories that agree on a run have the same slice there. -/
theorem slice_congr {m m' : Mem} {a n : Nat} (h : ∀ x, a ≤ x → x < a + n → m x = m' x) :
    slice m a n = slice m' a n := by
  apply List.map_congr_left
  intro i hi
  rw [List.mem_range] at hi
  exact h (a + i) (by omega) (by omega)

/-- A run reads back what was written to it. -/
theorem slice_write_self (m : Mem) (a : Nat) (bs : List UInt8) :
    slice (write m a bs) a bs.length = bs := by
  apply List.ext_getElem (by simp)
  intro i hi hi'
  simp only [slice, List.getElem_map, List.getElem_range]
  rw [write_of_mem (by omega)]
  simp [List.getD_eq_getElem?_getD, hi']

/-- A write leaves every run it does not meet as it was. -/
theorem slice_write_disjoint {m : Mem} {a b n : Nat} {bs : List UInt8}
    (h : b + n ≤ a ∨ a + bs.length ≤ b) : slice (write m a bs) b n = slice m b n :=
  slice_congr fun x _ _ => write_of_not_mem (by omega)

/-! ## little-endian words -/

/-- The low `n` bytes of `k`, least significant first. -/
def toLE : Nat → Nat → List UInt8
  | 0, _ => []
  | n + 1, k => UInt8.ofNat k :: toLE n (k / 256)

/-- The number a byte list denotes, least significant byte first. -/
def ofLE : List UInt8 → Nat
  | [] => 0
  | b :: bs => b.toNat + 256 * ofLE bs

@[simp] theorem length_toLE (n k : Nat) : (toLE n k).length = n := by
  induction n generalizing k with
  | zero => rfl
  | succ n ih => simp [toLE, ih]

/-- **Word roundtrip**: `n` bytes keep a number modulo `256 ^ n`. -/
theorem ofLE_toLE (n k : Nat) : ofLE (toLE n k) = k % 256 ^ n := by
  induction n generalizing k with
  | zero => simp [toLE, ofLE, Nat.mod_one]
  | succ n ih =>
      have hb : (UInt8.ofNat k).toNat = k % 256 := by simp
      rw [toLE, ofLE, ih, hb, Nat.pow_succ, Nat.mul_comm (256 ^ n) 256, Nat.mod_mul]

theorem ofLE_lt (bs : List UInt8) : ofLE bs < 256 ^ bs.length := by
  induction bs with
  | nil => simp [ofLE]
  | cons b bs ih =>
      have hb := b.toNat_lt
      rw [ofLE, List.length_cons, Nat.pow_succ]
      omega

end ByteMem
