import Mathlib.Data.List.Basic

/-!
# Cxlbuf.Lib.Slots

An array of which the first slots are in use, as the list of those.  Opening a
slot, closing one, and putting two arrays behind each other are stated by what
the slots are afterwards, so that a sequence of moves within an array is read
off slot by slot.
-/

namespace Slots

variable {α : Type} {f g : Nat → α} {n m i : Nat} {x : α}

/-- The first `n` slots. -/
def slots (f : Nat → α) (n : Nat) : List α := (List.range n).map f

@[simp] theorem length_slots : (slots f n).length = n := by simp [slots]

@[simp] theorem slots_zero : slots f 0 = [] := rfl

theorem slots_succ : slots f (n + 1) = slots f n ++ [f n] := by
  simp [slots, List.range_succ]

theorem slots_cons : slots f (n + 1) = f 0 :: slots (fun k => f (k + 1)) n := by
  simp [slots, List.range_succ_eq_map, Function.comp_def]

@[simp] theorem getElem_slots (hi : i < (slots f n).length) : (slots f n)[i] = f i := by
  simp [slots]

theorem getElem?_slots (hi : i < n) : (slots f n)[i]? = some (f i) := by
  simp [slots, hi]

theorem slots_congr (h : ∀ k < n, g k = f k) : slots g n = slots f n :=
  List.map_congr_left fun k hk => h k (List.mem_range.mp hk)

theorem slots_add : slots f (m + n) = slots f m ++ slots (fun k => f (m + k)) n := by
  simp [slots, List.range_add, Function.comp_def]

theorem take_slots (hi : i ≤ n) : (slots f n).take i = slots f i := by
  obtain ⟨j, rfl⟩ := Nat.exists_eq_add_of_le hi
  rw [slots_add]
  exact List.take_left' length_slots

theorem drop_slots (hi : i ≤ n) : (slots f n).drop i = slots (fun k => f (i + k)) (n - i) := by
  obtain ⟨j, rfl⟩ := Nat.exists_eq_add_of_le hi
  rw [slots_add, Nat.add_sub_cancel_left]
  exact List.drop_left' length_slots

/-- An array whose slots are those of two others is one behind the other. -/
theorem slots_eq_append {f' : Nat → α} (hlow : ∀ k < m, g k = f k)
    (hhigh : ∀ k < n, g (m + k) = f' k) : slots g (m + n) = slots f m ++ slots f' n := by
  rw [slots_add, slots_congr hlow, slots_congr hhigh]

/-- A slot is opened at `i`. -/
theorem slots_insert (hi : i ≤ n) (hlow : ∀ k < i, g k = f k) (hx : g i = x)
    (hhigh : ∀ k, i ≤ k → k < n → g (k + 1) = f k) :
    slots g (n + 1) = (slots f n).take i ++ x :: (slots f n).drop i := by
  obtain ⟨j, rfl⟩ := Nat.exists_eq_add_of_le hi
  have hsplit : i + j + 1 = i + (1 + j) := by omega
  have htail : ∀ k < j, g (i + (1 + k)) = f (i + k) := by
    intro k hk
    rw [← Nat.add_assoc, Nat.add_right_comm]
    exact hhigh (i + k) (by omega) (by omega)
  rw [take_slots hi, drop_slots hi, hsplit, slots_add, slots_congr hlow, slots_add,
    Nat.add_sub_cancel_left, slots_congr htail]
  simp [slots, hx]

/-- The slot `i` is replaced by two. -/
theorem slots_split {y : α} (hi : i ≤ n) (hlow : ∀ k < i, g k = f k) (hx : g i = x)
    (hy : g (i + 1) = y) (hhigh : ∀ k, i < k → k ≤ n → g (k + 1) = f k) :
    slots g (n + 2) = (slots f (n + 1)).take i ++ x :: y :: (slots f (n + 1)).drop (i + 1) := by
  obtain ⟨j, rfl⟩ := Nat.exists_eq_add_of_le hi
  have hsplit : i + j + 2 = i + (2 + j) := by omega
  have htail : ∀ k < j, g (i + (2 + k)) = f (i + 1 + k) := by
    intro k hk
    have hidx : i + (2 + k) = i + 1 + k + 1 := by omega
    rw [hidx]
    exact hhigh (i + 1 + k) (by omega) (by omega)
  have hrest : i + j + 1 - (i + 1) = j := by omega
  rw [take_slots (by omega), drop_slots (by omega), hsplit, slots_add, slots_congr hlow, slots_add,
    slots_congr htail, hrest]
  simp [slots, List.range_succ, hx, hy]

/-- The slot `i` is closed. -/
theorem slots_erase (hi : i ≤ n) (hlow : ∀ k < i, g k = f k)
    (hhigh : ∀ k, i ≤ k → k < n → g k = f (k + 1)) :
    slots g n = (slots f (n + 1)).take i ++ (slots f (n + 1)).drop (i + 1) := by
  obtain ⟨j, rfl⟩ := Nat.exists_eq_add_of_le hi
  have htail : ∀ k < j, g (i + k) = f (i + 1 + k) := by
    intro k hk
    rw [hhigh (i + k) (by omega) (by omega), Nat.add_right_comm]
  rw [take_slots (by omega), drop_slots (by omega), slots_add, slots_congr hlow,
    slots_congr htail]
  congr 2
  omega

/-- The slot `i` is overwritten. -/
theorem slots_set (hx : g i = x) (hne : ∀ k < n, k ≠ i → g k = f k) :
    slots g n = (slots f n).set i x := by
  apply List.ext_getElem?
  intro k
  by_cases hk : k < n
  · by_cases hki : k = i
    · subst hki
      simp [slots, hk, hx]
    · rw [List.getElem?_set_ne (Ne.symm hki), getElem?_slots hk, getElem?_slots hk, hne k hk hki]
  · have hg : (slots g n).length ≤ k := by simpa using hk
    have hs : ((slots f n).set i x).length ≤ k := by simpa using hk
    rw [List.getElem?_eq_none hg, List.getElem?_eq_none hs]

end Slots
