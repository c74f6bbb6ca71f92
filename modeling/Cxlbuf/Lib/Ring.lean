import Mathlib.Data.List.GetD
import Cxlbuf.Lib.Memory

/-!
# Cxlbuf.Lib.Ring

A stream of bytes in a ring: the byte at position `p` of the stream stands at
`p % size`.  A part of the stream that does not reach across the end of the
ring can be read in one piece (`InRing.slice_eq`).
-/

namespace ByteMem

variable {m : Mem} {size pos j n : Nat} {xs ys bs : List UInt8}

/-- The bytes stand in a ring, from position `pos` of the stream on. -/
def InRing (m : Mem) (size pos : Nat) (bs : List UInt8) : Prop :=
  ∀ i, i < bs.length → m ((pos + i) % size) = bs.getD i 0

instance : Decidable (InRing m size pos bs) :=
  inferInstanceAs (Decidable (∀ i, i < bs.length → _))

/-- The parts of a stream stand one behind the other. -/
theorem InRing.of_append (h : InRing m size pos (xs ++ ys)) :
    InRing m size pos xs ∧ InRing m size (pos + xs.length) ys := by
  constructor
  · intro i hi
    rw [h i (by rw [List.length_append]; omega), List.getD_append _ _ _ _ hi]
  · intro i hi
    rw [Nat.add_assoc, h (xs.length + i) (by rw [List.length_append]; omega),
      List.getD_append_right _ _ _ _ (by omega), Nat.add_sub_cancel_left]

/-- Up to the end of the ring the stream is contiguous. -/
theorem mod_add_of_lt {i : Nat} (h : pos % size + i < size) :
    (pos + i) % size = pos % size + i := by
  rw [Nat.add_mod, Nat.mod_eq_of_lt (show i < size by omega), Nat.mod_eq_of_lt h]

/-- **A part of the stream that ends before the end of the ring does** is read
in one piece. -/
theorem InRing.slice_eq (h : InRing m size pos bs) (hlen : j + n ≤ bs.length)
    (hend : pos % size + j + n ≤ size) : slice m (pos % size + j) n = (bs.drop j).take n := by
  apply List.ext_getElem
  · rw [length_slice, List.length_take, List.length_drop]
    omega
  · intro i hi hi'
    rw [length_slice] at hi
    have hbyte := h (j + i) (by omega)
    rw [mod_add_of_lt (by omega), List.getD_eq_getElem _ _ (by omega), ← Nat.add_assoc] at hbyte
    simp only [slice, List.getElem_map, List.getElem_range, List.getElem_take, List.getElem_drop]
    exact hbyte

/-- A word of the stream that does not reach across the end. -/
theorem InRing.ofLE_slice {k : Nat} (h : InRing m size pos (xs ++ (toLE n k ++ ys)))
    (hk : k < 256 ^ n) (hend : pos % size + xs.length + n ≤ size) :
    ofLE (slice m (pos % size + xs.length) n) = k := by
  rw [h.slice_eq (by simp) hend, List.drop_left, List.take_left' (length_toLE n k), ofLE_toLE,
    Nat.mod_eq_of_lt hk]

end ByteMem
