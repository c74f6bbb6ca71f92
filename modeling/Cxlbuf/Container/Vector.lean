import Cxlbuf.Lib.Blocks
import Cxlbuf.Lib.Run

/-!
# Cxlbuf.Container.Vector

The persistent vector (`vector.hh`), with the questions that its templates ask
about the element type (`Traits`).  An element type may have an `init` of its
own, which copies; where it has none, elements are assigned.

A vector holds a list (`Holds`) if its buffer has `capacity` cells, the first
`_size` of which are the list.  Each operation has a lemma that says what the
vector holds afterwards.  Programs with several vectors are runs over one heap
(`Store`); what they do to lists is `actual`, and it is what was meant except
in two cases (`actual_eq_intended_iff`): `init(elems, n)` copies the elements
only if the type is trivial, and a vector that is copied to itself is lost.

Sizes and capacities are not reduced modulo `2 ^ 64`.
-/

namespace Cxlbuf.Container

open Blocks Run

/-! ## the code -/

/-- A heap of blocks of cells. -/
abbrev Heap (T : Type) := Nat → Option (List T)

/-- A block that `malloc` returns, with what happens to be in it. -/
structure Alloc (T : Type) where
  ptr : Nat
  cells : List T
  ptr_ne : ptr ≠ 0

/-- What the templates ask about an element type: `std::is_trivial`,
`canMemcpyPuddles`, and `hasInit` and `hasMoveInit` with what `init` leaves in an
element that was `old` when it is given `x`. -/
structure Traits (T : Type) where
  isTrivial : Bool
  canMemcpy : Bool
  init : Option (T → T → T)
  moveInit : Option (T → T → T)
  init_copies : ∀ f ∈ init, ∀ old x, f old x = x
  moveInit_copies : ∀ f ∈ moveInit, ∀ old x, f old x = x

namespace Traits

variable {T : Type}

/-- A type without an `init`. -/
def plain (isTrivial : Bool) : Traits T where
  isTrivial := isTrivial
  canMemcpy := false
  init := none
  moveInit := none
  init_copies f hf := (Option.not_mem_none f hf).elim
  moveInit_copies f hf := (Option.not_mem_none f hf).elim

/-- `init`, or else `=`. -/
def assign (tr : Traits T) : T → T → T := tr.init.getD fun _ x => x

/-- `init` of what is moved, or else `init`, or else `=`. -/
def relocate (tr : Traits T) : T → T → T := tr.moveInit.getD tr.assign

theorem assign_eq (tr : Traits T) (old x : T) : tr.assign old x = x := by
  unfold assign
  cases hinit : tr.init with
  | none => rfl
  | some f => exact tr.init_copies f hinit old x

theorem relocate_eq (tr : Traits T) (old x : T) : tr.relocate old x = x := by
  unfold relocate
  cases hinit : tr.moveInit with
  | none => exact tr.assign_eq old x
  | some f => exact tr.moveInit_copies f hinit old x

end Traits

/-- `vector<T>`. -/
structure Vec where
  size : Nat
  content : Nat
  capacity : Nat
  deriving DecidableEq

namespace Vec

variable {T : Type} (tr : Traits T) (h : Heap T)

/-- `vector()`, and what a move leaves behind. -/
def null : Vec := ⟨0, 0, 0⟩

/-- `init()`. -/
def init (a : Alloc T) : Vec × Heap T := (⟨0, a.ptr, 2⟩, put h a.ptr a.cells)

/-- `init(elems, num)`. -/
def initElems (elems : List T) (a : Alloc T) : Option (Vec × Heap T) :=
  let v : Vec := ⟨elems.length, a.ptr, elems.length * 2⟩
  let h := put h a.ptr a.cells
  -- the loop of the other branch is commented out
  if tr.isTrivial then (fill h v.content elems).map fun h => (v, h) else some (v, h)

/-- `memcpy`, or a loop over the elements. -/
def copyElems (bytewise : Bool) (f : T → T → T) (dst src n : Nat) : Option (Heap T) :=
  if bytewise then copy h dst src n else assignEach f h dst src n

/-- `init(new_elems)`, where the source may be the vector itself: by then it
has the new block. -/
def copyInit (src : Vec) (self : Bool) (a : Alloc T) : Option (Vec × Heap T) :=
  let v : Vec := ⟨src.size, a.ptr, src.capacity⟩
  let h := put h a.ptr a.cells
  let src := if self then v else src
  (copyElems h tr.isTrivial tr.assign v.content src.content v.size).map fun h => (v, h)

/-- The capacity that `resize` chooses. -/
def newCapacity (v : Vec) : Nat := if v.capacity = 0 then 2 else v.capacity * 2

/-- `if (content) free(content)`. -/
def freeContent (v : Vec) : Heap T := if v.content ≠ 0 then free h v.content else h

/-- `resize`. -/
def resize (v : Vec) (a : Alloc T) : Option (Vec × Heap T) :=
  let h := put h a.ptr a.cells
  -- all cells are copied, also those behind the elements
  (copyElems h (tr.isTrivial || tr.canMemcpy) tr.relocate a.ptr v.content v.capacity).map fun h =>
    ({ v with content := a.ptr, capacity := v.newCapacity }, v.freeContent h)

/-- `operator[]`. -/
def get (v : Vec) (idx : Nat) : Option T := cell h v.content idx

/-- `push_back(new_elem)`, with a block in case it has to resize. -/
def pushBack (v : Vec) (x : T) (a : Alloc T) : Option (Vec × Heap T) := do
  let (v, h) ← if v.size = v.capacity then resize tr h v a else some (v, h)
  let old ← v.get h v.size
  let h ← store h v.content v.size (tr.assign old x)
  return ({ v with size := v.size + 1 }, h)

/-- `set_at(new_elem, idx)`. -/
def setAt (v : Vec) (x : T) (idx : Nat) : Option (Heap T) := store h v.content idx x

end Vec

/-! ## what a vector holds -/

/-- The buffer has `capacity` cells and the first `_size` are the list. -/
structure Holds {T : Type} (h : Heap T) (v : Vec) (xs : List T) : Prop where
  size_le : v.size ≤ v.capacity
  spans : ∃ c, cells h v.content = some c ∧ c.length = v.capacity ∧ c.take v.size = xs

section Specs

variable {T : Type} {h : Heap T} {v : Vec} {xs ys : List T} {a : Alloc T} {x : T}

theorem Holds.length_eq (hv : Holds h v xs) : xs.length = v.size := by
  obtain ⟨c, -, hlen, rfl⟩ := hv.spans
  rw [List.length_take, hlen]
  exact Nat.min_eq_left hv.size_le

theorem Holds.unique (hv : Holds h v xs) (hv' : Holds h v ys) : xs = ys := by
  obtain ⟨c, hc, -, rfl⟩ := hv.spans
  obtain ⟨c', hc', -, rfl⟩ := hv'.spans
  rw [hc, Option.some.injEq] at hc'
  rw [hc']

/-- `operator[]` and `size()` read the list. -/
theorem Holds.get (hv : Holds h v xs) {i : Nat} (hi : i < v.size) : v.get h i = xs[i]? := by
  obtain ⟨c, hc, -, rfl⟩ := hv.spans
  simp [Vec.get, cell, hc, hi]

/-- Only the buffer matters. -/
theorem Holds.congr (hv : Holds h v xs) {h' : Heap T}
    (hh : cells h' v.content = cells h v.content) : Holds h' v xs := by
  obtain ⟨c, hc, hlen, htake⟩ := hv.spans
  exact ⟨hv.size_le, c, hh ▸ hc, hlen, htake⟩

theorem holds_null (h : Heap T) : Holds h Vec.null [] := ⟨Nat.le_refl 0, [], rfl, rfl, rfl⟩

/-- A vector holds what is put into its buffer. -/
theorem holds_put {c : List T} (hp : v.content ≠ 0) (hsize : v.size ≤ v.capacity)
    (hlen : c.length = v.capacity) : Holds (put h v.content c) v (c.take v.size) :=
  ⟨hsize, c, cells_put_self hp, hlen, rfl⟩

/-- `init(elems, n)` fills a new block with the elements if the type is trivial,
and leaves in it what there was if not. -/
theorem initElems_eq (tr : Traits T) (hlen : a.cells.length = xs.length * 2) : ∃ c,
    Vec.initElems tr h xs a =
        some (⟨xs.length, a.ptr, xs.length * 2⟩, put h a.ptr c) ∧
      c.length = xs.length * 2 ∧
      c.take xs.length = if tr.isTrivial then xs else a.cells.take xs.length := by
  cases htriv : tr.isTrivial with
  | false => exact ⟨a.cells, by simp [Vec.initElems, htriv], hlen, rfl⟩
  | true =>
      have hfill : fill (put h a.ptr a.cells) a.ptr xs =
          some (put h a.ptr (xs ++ a.cells.drop xs.length)) := by
        rw [fill_eq (cells_put_self a.ptr_ne) (by omega), put_put]
      refine ⟨xs ++ a.cells.drop xs.length, by simp [Vec.initElems, htriv, hfill], ?_, by simp⟩
      simp only [List.length_append, List.length_drop]
      omega

theorem copyElems_eq {bytewise : Bool} {f : T → T → T} (hf : ∀ old x, f old x = x)
    {src dst n : Nat} {c d : List T} (hp : dst ≠ 0) (hs : cells h src = some c)
    (hd : cells h dst = some d) (hn : n ≤ c.length) (hlen : n ≤ d.length) :
    Vec.copyElems h bytewise f dst src n = some (put h dst (c.take n ++ d.drop n)) := by
  unfold Vec.copyElems
  split
  · exact copy_eq hs hd hn hlen
  · exact assignEach_eq hf hp hs hd hn hlen

/-- A copy fills a new block with the list, unless the source is the vector
itself. -/
theorem copyInit_eq (tr : Traits T) (self : Bool) (hv : Holds h v xs) (hfresh : v.content ≠ a.ptr)
    (hlen : a.cells.length = v.capacity) : ∃ c,
    Vec.copyInit tr h v self a = some (⟨v.size, a.ptr, v.capacity⟩, put h a.ptr c) ∧
      c.length = v.capacity ∧
      c.take v.size = if self then a.cells.take v.size else xs := by
  have hsize := hv.size_le
  obtain ⟨c, hc, hclen, rfl⟩ := hv.spans
  have hnew := cells_put_self (h := h) (b := a.cells) a.ptr_ne
  cases self with
  | true =>
      refine ⟨a.cells, ?_, hlen, rfl⟩
      simp only [Vec.copyInit, if_true]
      rw [copyElems_eq tr.assign_eq a.ptr_ne hnew hnew (by omega) (by omega),
        List.take_append_drop, put_put]
      rfl
  | false =>
      have hold : cells (put h a.ptr a.cells) v.content = some c := by
        rw [cells_put_of_ne hfresh, hc]
      refine ⟨c.take v.size ++ a.cells.drop v.size, ?_, by simp; omega,
        List.take_left' (by simp; omega)⟩
      simp only [Vec.copyInit, Bool.false_eq_true, if_false]
      rw [copyElems_eq tr.assign_eq a.ptr_ne hold hnew (by omega) (by omega), put_put]
      rfl

theorem cells_freeContent_of_ne {p : Nat} (hp : p ≠ v.content) :
    cells (v.freeContent h) p = cells h p := by
  unfold Vec.freeContent
  split
  · exact cells_free_of_ne hp
  · rfl

theorem capacity_lt_newCapacity (v : Vec) : v.capacity < v.newCapacity := by
  unfold Vec.newCapacity
  split <;> omega

/-- `resize` keeps the list, in a larger block, and frees the old one. -/
theorem resize_spec (tr : Traits T) (hv : Holds h v xs) (hfresh : v.content ≠ a.ptr)
    (hlen : a.cells.length = v.newCapacity) : ∃ h',
    Vec.resize tr h v a = some ({ v with content := a.ptr, capacity := v.newCapacity }, h') ∧
      Holds h' { v with content := a.ptr, capacity := v.newCapacity } xs ∧
      ∀ p, p ≠ a.ptr → p ≠ v.content → cells h' p = cells h p := by
  have hsize := hv.size_le
  have hcap := capacity_lt_newCapacity v
  obtain ⟨c, hc, hclen, rfl⟩ := hv.spans
  have hold : cells (put h a.ptr a.cells) v.content = some c := by
    rw [cells_put_of_ne hfresh, hc]
  have hcopy : Vec.copyElems (put h a.ptr a.cells) (tr.isTrivial || tr.canMemcpy) tr.relocate
      a.ptr v.content v.capacity = some (put h a.ptr (c ++ a.cells.drop v.capacity)) := by
    rw [copyElems_eq tr.relocate_eq a.ptr_ne hold (cells_put_self a.ptr_ne) (by omega) (by omega),
      put_put, List.take_of_length_le (by omega)]
  have hnew := holds_put (v := { v with content := a.ptr, capacity := v.newCapacity })
    (c := c ++ a.cells.drop v.capacity) (h := h) a.ptr_ne (show v.size ≤ v.newCapacity by omega)
    (by simp; omega)
  rw [List.take_append_of_le_length (show v.size ≤ c.length by omega)] at hnew
  refine ⟨_, by rw [Vec.resize, hcopy]; rfl, hnew.congr ?_, fun p hp hp' => ?_⟩
  · exact cells_freeContent_of_ne (Ne.symm hfresh)
  · rw [cells_freeContent_of_ne hp', cells_put_of_ne hp]

/-- A vector with room for elements has a buffer. -/
theorem Holds.content_ne_zero (hv : Holds h v xs) (hcap : 0 < v.capacity) : v.content ≠ 0 := by
  intro hzero
  obtain ⟨c, hc, hclen, -⟩ := hv.spans
  rw [hzero, cells_zero, Option.some.injEq] at hc
  simp [← hc] at hclen
  omega

/-- Storing the next element, with room for it. -/
theorem store_next_spec (hv : Holds h v xs) (hroom : v.size < v.capacity) : ∃ old h',
    v.get h v.size = some old ∧ store h v.content v.size x = some h' ∧
      Holds h' { v with size := v.size + 1 } (xs ++ [x]) ∧
      ∀ p ≠ v.content, cells h' p = cells h p := by
  have hne := hv.content_ne_zero (by omega)
  obtain ⟨c, hc, hclen, rfl⟩ := hv.spans
  have hnew := holds_put (v := { v with size := v.size + 1 }) (c := c.set v.size x) (h := h) hne
    hroom (by simp [hclen])
  have hbound : v.size < c.length := by omega
  refine ⟨_, _, cell_eq hc hbound, store_eq hc hbound, ?_, fun p hp => cells_put_of_ne hp⟩
  rw [List.take_add_one] at hnew
  simpa [List.take_set_of_le, hclen, hroom] using hnew

/-- **`push_back` appends**, after it has made room. -/
theorem pushBack_spec (tr : Traits T) (hv : Holds h v xs)
    (ha : v.size = v.capacity → v.content ≠ a.ptr ∧ a.cells.length = v.newCapacity) : ∃ v' h',
    Vec.pushBack tr h v x a = some (v', h') ∧ Holds h' v' (xs ++ [x]) ∧
      (v'.content = v.content ∨ v.size = v.capacity ∧ v'.content = a.ptr) ∧
      ∀ p, p ≠ v.content → (v.size = v.capacity → p ≠ a.ptr) → cells h' p = cells h p := by
  by_cases hfull : v.size = v.capacity
  · obtain ⟨hfresh, hlen⟩ := ha hfull
    obtain ⟨h₁, hresize, hv₁, hframe₁⟩ := resize_spec tr hv hfresh hlen
    obtain ⟨old, h₂, hget, hstore, hv₂, hframe₂⟩ := store_next_spec (x := x) hv₁
      (hfull ▸ capacity_lt_newCapacity v)
    refine ⟨_, h₂, ?_, hv₂, .inr ⟨hfull, rfl⟩, fun p hp hp' => ?_⟩
    · simp only [Vec.pushBack, if_pos hfull, hresize, Option.bind_eq_bind, Option.bind_some]
      simp only at hstore
      simp [hget, hstore, tr.assign_eq]
    · rw [hframe₂ p (hp' hfull), hframe₁ p (hp' hfull) hp]
  · have hroom : v.size < v.capacity := Nat.lt_of_le_of_ne hv.size_le hfull
    obtain ⟨old, h₁, hget, hstore, hv₁, hframe₁⟩ := store_next_spec (x := x) hv hroom
    refine ⟨_, h₁, ?_, hv₁, .inl rfl, fun p hp _ => hframe₁ p hp⟩
    simp [Vec.pushBack, hfull, hget, hstore, tr.assign_eq]

/-- **`set_at` sets.** -/
theorem setAt_spec (hv : Holds h v xs) {i : Nat} (hi : i < v.size) : ∃ h',
    v.setAt h x i = some h' ∧ Holds h' v (xs.set i x) ∧
      ∀ p ≠ v.content, cells h' p = cells h p := by
  have hsize := hv.size_le
  have hne := hv.content_ne_zero (by omega)
  obtain ⟨c, hc, hclen, rfl⟩ := hv.spans
  have hnew : Holds (put h v.content (c.set i x)) v ((c.set i x).take v.size) :=
    holds_put hne hsize (by simp [hclen])
  rw [List.take_set] at hnew
  exact ⟨_, store_eq hc (by omega), hnew, fun p hp => cells_put_of_ne hp⟩

end Specs

/-! ## programs with several vectors -/

/-- Vectors by number, over one heap. -/
structure Store (T : Type) where
  heap : Heap T
  vecs : Nat → Vec

/-- An operation, with the block that it is given. -/
inductive Op (T : Type) where
  | init (i : Nat) (a : Alloc T)
  | initElems (i : Nat) (elems : List T) (a : Alloc T)
  | copyInit (dst src : Nat) (a : Alloc T)
  | moveInit (dst src : Nat)
  | pushBack (i : Nat) (x : T) (a : Alloc T)
  | setAt (i : Nat) (x : T) (idx : Nat)

section Programs

variable {T : Type} (tr : Traits T)

/-- A vector and the heap are replaced. -/
def Store.set (s : Store T) (i : Nat) (r : Vec × Heap T) : Store T :=
  ⟨r.2, Function.update s.vecs i r.1⟩

/-- An operation of the program. -/
def Store.exec (s : Store T) : Op T → Option (Store T)
  | .init i a => some (s.set i (Vec.init s.heap a))
  | .initElems i elems a => (Vec.initElems tr s.heap elems a).map (s.set i)
  | .copyInit dst src a => (Vec.copyInit tr s.heap (s.vecs src) (dst == src) a).map (s.set dst)
  | .moveInit dst src =>
      some { s with
        vecs := Function.update (Function.update s.vecs dst (s.vecs src)) src Vec.null }
  | .pushBack i x a => (Vec.pushBack tr s.heap (s.vecs i) x a).map (s.set i)
  | .setAt i x idx => ((s.vecs i).setAt s.heap x idx).map fun h => { s with heap := h }

/-- The block is not in use and has the size that was asked for, and `set_at`
stays inside the vector. -/
def Admissible (s : Store T) : Op T → Prop
  | .init _ a => s.heap a.ptr = none ∧ a.cells.length = 2
  | .initElems _ elems a => s.heap a.ptr = none ∧ a.cells.length = elems.length * 2
  | .copyInit _ src a => s.heap a.ptr = none ∧ a.cells.length = (s.vecs src).capacity
  | .moveInit _ _ => True
  | .pushBack i _ a => (s.vecs i).size = (s.vecs i).capacity →
      s.heap a.ptr = none ∧ a.cells.length = (s.vecs i).newCapacity
  | .setAt i _ idx => idx < (s.vecs i).size

/-- What an operation is meant to do to lists. -/
def intended (ls : Nat → List T) : Op T → Nat → List T
  | .init i _ => Function.update ls i []
  | .initElems i elems _ => Function.update ls i elems
  | .copyInit dst src _ => Function.update ls dst (ls src)
  | .moveInit dst src => Function.update (Function.update ls dst (ls src)) src []
  | .pushBack i x _ => Function.update ls i (ls i ++ [x])
  | .setAt i x idx => Function.update ls i ((ls i).set idx x)

/-- What it does: elements of a type that is not trivial are not copied into a
new vector, and a vector that is copied to itself is lost. -/
def actual (ls : Nat → List T) : Op T → Nat → List T
  | .initElems i elems a =>
      Function.update ls i (if tr.isTrivial then elems else a.cells.take elems.length)
  | .copyInit dst src a =>
      Function.update ls dst (if dst == src then a.cells.take (ls src).length else ls src)
  | op => intended ls op

/-- The elements are copied, or happen to be in the new block. -/
def Copies (ls : Nat → List T) : Op T → Prop
  | .initElems _ elems a => tr.isTrivial ∨ a.cells.take elems.length = elems
  | .copyInit dst src a => dst ≠ src ∨ a.cells.take (ls src).length = ls src
  | _ => True

theorem actual_eq_intended_iff {ls : Nat → List T} {op : Op T} :
    actual tr ls op = intended ls op ↔ Copies tr ls op := by
  cases op with
  | initElems i elems a =>
      rw [actual, intended, (Function.update_injective ls i).eq_iff, Copies]
      split <;> simp [*]
  | copyInit dst src a =>
      rw [actual, intended, (Function.update_injective ls dst).eq_iff, Copies]
      by_cases hds : dst = src <;> simp [hds]
  | init | moveInit | pushBack | setAt => simp [actual, Copies]

/-- The vectors hold lists, in different buffers. -/
structure Models (s : Store T) (ls : Nat → List T) : Prop where
  holds : ∀ i, Holds s.heap (s.vecs i) (ls i)
  apart : ∀ i j, i ≠ j → (s.vecs i).content ≠ 0 → (s.vecs i).content ≠ (s.vecs j).content

variable {tr} {s : Store T} {ls : Nat → List T} {op : Op T}

/-- A block that is not in use is no vector's. -/
theorem Models.content_ne (hm : Models s ls) {a : Alloc T} (ha : s.heap a.ptr = none) (i : Nat) :
    (s.vecs i).content ≠ a.ptr := by
  intro heq
  obtain ⟨c, hc, -⟩ := (hm.holds i).spans
  rw [heq, cells_of_ne_zero a.ptr_ne, ha] at hc
  cases hc

/-- A vector is replaced by one in a buffer of its own, and the other buffers
stay. -/
theorem Models.set (hm : Models s ls) {i : Nat} {v : Vec} {h : Heap T} {xs : List T}
    (hv : Holds h v xs)
    (hother : ∀ j ≠ i, (s.vecs j).content ≠ 0 →
      (s.vecs j).content ≠ v.content ∧
        cells h (s.vecs j).content = cells s.heap (s.vecs j).content) :
    Models (s.set i (v, h)) (Function.update ls i xs) where
  holds j := by
    by_cases hj : j = i
    · subst hj
      simpa [Store.set] using hv
    · have hcells : cells h (s.vecs j).content = cells s.heap (s.vecs j).content := by
        by_cases hzero : (s.vecs j).content = 0
        · rw [hzero, cells_zero, cells_zero]
        · exact (hother j hj hzero).2
      simpa [Store.set, hj] using (hm.holds j).congr hcells
  apart j k hjk := by
    by_cases hj : j = i
    · subst hj
      intro hne heq
      simp only [Store.set, Function.update_self, Function.update_of_ne (Ne.symm hjk)] at hne heq
      exact (hother k (Ne.symm hjk) (heq ▸ hne)).1 heq.symm
    · by_cases hk : k = i
      · subst hk
        simp only [Store.set, Function.update_self, Function.update_of_ne hj]
        exact fun hne => (hother j hj hne).1
      · simpa [Store.set, hj, hk] using hm.apart j k hjk

/-- A vector in a new block. -/
theorem Models.setNew (hm : Models s ls) {a : Alloc T} (ha : s.heap a.ptr = none) {i : Nat}
    {v : Vec} {c : List T} (hv : v.content = a.ptr) (hsize : v.size ≤ v.capacity)
    (hlen : c.length = v.capacity) :
    Models (s.set i (v, put s.heap a.ptr c)) (Function.update ls i (c.take v.size)) := by
  have hholds : Holds (put s.heap a.ptr c) v (c.take v.size) :=
    hv ▸ holds_put (hv ▸ a.ptr_ne) hsize hlen
  refine hm.set hholds fun j _ _ => ?_
  have hne := hm.content_ne ha j
  exact ⟨hv ▸ hne, cells_put_of_ne hne⟩

/-- A vector is emptied. -/
theorem Models.clear (hm : Models s ls) (i : Nat) :
    Models (s.set i (Vec.null, s.heap)) (Function.update ls i []) :=
  hm.set (holds_null s.heap) fun _ _ hne => ⟨hne, rfl⟩

/-- An emptied vector's buffer goes to another vector. -/
theorem Models.give (hm : Models s ls) {dst src : Nat} (hds : dst ≠ src) :
    Models ((s.set src (Vec.null, s.heap)).set dst (s.vecs src, s.heap))
      (Function.update (Function.update ls src []) dst (ls src)) := by
  refine (hm.clear src).set (hm.holds src) fun j _ hne => ?_
  by_cases hj : j = src
  · subst hj
    simp [Store.set, Vec.null] at hne
  · simp only [Store.set, Function.update_of_ne hj] at hne ⊢
    exact ⟨hm.apart j src hj hne, trivial⟩

theorem Models.move (hm : Models s ls) (dst src : Nat) :
    Models { s with vecs := Function.update (Function.update s.vecs dst (s.vecs src)) src Vec.null }
      (Function.update (Function.update ls dst (ls src)) src []) := by
  by_cases hds : dst = src
  · subst hds
    simpa [Store.set] using hm.clear dst
  · rw [Function.update_comm hds, Function.update_comm hds]
    exact hm.give hds

/-- **An operation does to lists what `actual` says.** -/
theorem exec_models (tr : Traits T) (hm : Models s ls) (ha : Admissible s op) :
    ∃ s', s.exec tr op = some s' ∧ Models s' (actual tr ls op) := by
  cases op with
  | init i a =>
      exact ⟨_, rfl, hm.setNew (v := ⟨0, a.ptr, 2⟩) ha.1 rfl (Nat.zero_le 2) ha.2⟩
  | initElems i elems a =>
      obtain ⟨c, hinit, hlen, htake⟩ := initElems_eq tr (h := s.heap) ha.2
      have hnew := hm.setNew (i := i) (v := ⟨elems.length, a.ptr, elems.length * 2⟩) ha.1 rfl
        (show elems.length ≤ elems.length * 2 by omega) hlen
      rw [htake] at hnew
      exact ⟨_, by rw [Store.exec, hinit]; rfl, hnew⟩
  | copyInit dst src a =>
      have hsrc := hm.holds src
      obtain ⟨c, hinit, hlen, htake⟩ := copyInit_eq tr (dst == src) hsrc
        (hm.content_ne ha.1 src) ha.2
      have hnew := hm.setNew (i := dst) (v := ⟨(s.vecs src).size, a.ptr, (s.vecs src).capacity⟩)
        ha.1 rfl hsrc.size_le hlen
      rw [htake] at hnew
      refine ⟨_, by rw [Store.exec, hinit]; rfl, ?_⟩
      rw [actual, hsrc.length_eq]
      exact hnew
  | moveInit dst src => exact ⟨_, rfl, hm.move dst src⟩
  | pushBack i x a =>
      obtain ⟨v, h, hpush, hv, hcontent, hframe⟩ := pushBack_spec tr (x := x) (hm.holds i)
        fun hfull => ⟨hm.content_ne (ha hfull).1 i, (ha hfull).2⟩
      refine ⟨_, by rw [Store.exec, hpush]; rfl, hm.set hv fun j hj hne => ⟨?_, ?_⟩⟩
      · rcases hcontent with hsame | ⟨hfull, hnew⟩
        · rw [hsame]
          exact hm.apart j i hj hne
        · rw [hnew]
          exact hm.content_ne (ha hfull).1 j
      · exact hframe _ (hm.apart j i hj hne) fun hfull => hm.content_ne (ha hfull).1 j
  | setAt i x idx =>
      obtain ⟨h, hset, hv, hframe⟩ := setAt_spec (x := x) (hm.holds i) ha
      have hnew := hm.set hv fun j hj hne =>
        ⟨hm.apart j i hj hne, hframe _ (hm.apart j i hj hne)⟩
      refine ⟨_, by rw [Store.exec, hset]; rfl, ?_⟩
      simpa [Store.set, actual, intended] using hnew

/-! ## vectors and lists side by side -/

/-- An operation on the vectors, and what it is meant to do to lists. -/
def sideBySide (tr : Traits T) (st : Store T × (Nat → List T)) (op : Op T) :
    Option (Store T × (Nat → List T)) :=
  (st.1.exec tr op).map fun s => (s, intended st.2 op)

/-- `size()` and `operator[]` agree with the lists, `_size` is at most
`capacity`, and `content` spans `capacity` elements. -/
structure Refines (st : Store T × (Nat → List T)) : Prop where
  size : ∀ i, (st.1.vecs i).size = (st.2 i).length
  get : ∀ i, ∀ k < (st.2 i).length, (st.1.vecs i).get st.1.heap k = (st.2 i)[k]?
  size_le : ∀ i, (st.1.vecs i).size ≤ (st.1.vecs i).capacity
  spans : ∀ i, ∃ c, cells st.1.heap (st.1.vecs i).content = some c ∧
    c.length = (st.1.vecs i).capacity

theorem refines_iff {st : Store T × (Nat → List T)} :
    Refines st ↔ ∀ i, Holds st.1.heap (st.1.vecs i) (st.2 i) := by
  constructor
  · intro h i
    obtain ⟨c, hc, hlen⟩ := h.spans i
    refine ⟨h.size_le i, c, hc, hlen, List.ext_getElem? fun k => ?_⟩
    by_cases hk : k < (st.2 i).length
    · have hget := h.get i k hk
      rw [Vec.get, cell, hc, Option.bind_some] at hget
      rw [List.getElem?_take_of_lt (h.size i ▸ hk), hget]
    · have hsize := h.size i
      rw [List.getElem?_eq_none (by simp; omega), List.getElem?_eq_none (by omega)]
  · intro h
    refine ⟨fun i => ((h i).length_eq).symm, fun i k hk => (h i).get ((h i).length_eq ▸ hk),
      fun i => (h i).size_le, fun i => ?_⟩
    obtain ⟨c, hc, hlen, -⟩ := (h i).spans
    exact ⟨c, hc, hlen⟩

/-- A step keeps the agreement exactly when the elements are copied. -/
theorem refines_step_iff {st st' : Store T × (Nat → List T)} (hI : ∃ ms, Models st.1 ms)
    (ha : Admissible st.1 op) (href : Refines st) (hstep : sideBySide tr st op = some st') :
    Refines st' ↔ Copies tr st.2 op := by
  obtain ⟨ms, hms⟩ := hI
  have hm : Models st.1 st.2 := ⟨refines_iff.mp href, hms.apart⟩
  obtain ⟨s', hexec, hm'⟩ := exec_models tr hm ha
  rw [sideBySide, hexec, Option.map_some, Option.some.injEq] at hstep
  subst hstep
  rw [refines_iff, ← actual_eq_intended_iff]
  constructor
  · intro h
    exact funext fun i => (hm'.holds i).unique (h i)
  · intro heq i
    exact heq ▸ hm'.holds i

/-- No vector has a buffer yet. -/
def Store.start : Store T := ⟨fun _ => none, fun _ => Vec.null⟩

theorem models_start : Models (T := T) Store.start fun _ => [] :=
  ⟨fun _ => holds_null _, fun _ _ _ hne => absurd rfl hne⟩

theorem keeps_models : Keeps (sideBySide tr) (fun st => ∃ ms, Models st.1 ms)
    fun st op => Admissible st.1 op := by
  intro st op ⟨ms, hms⟩ ha
  obtain ⟨s', hexec, hm'⟩ := exec_models tr hms ha
  exact ⟨(s', intended st.2 op), by rw [sideBySide, hexec]; rfl, _, hm'⟩

/-- **A program completes, and its vectors are the lists throughout exactly when
every operation copies what it should.** -/
theorem vector_refines_list_iff (tr : Traits T) (ops : List (Op T))
    (ha : Guarded (sideBySide tr) (fun st op => Admissible st.1 op) (Store.start, fun _ => [])
      ops) :
    (run (sideBySide tr) (Store.start, fun _ => []) ops).isSome ∧
      (Throughout (sideBySide tr) Refines (Store.start, fun _ => []) ops ↔
        Guarded (sideBySide tr) (fun st op => Copies tr st.2 op) (Store.start, fun _ => [])
          ops) := by
  have hstart : ∃ ms, Models (Store.start (T := T)) ms := ⟨_, models_start⟩
  obtain ⟨st', hrun, -⟩ := keeps_models.run (s := (Store.start, fun _ => [])) hstart ha
  have hrefines : Refines (T := T) (Store.start, fun _ => []) :=
    refines_iff.mpr fun _ => holds_null _
  refine ⟨by rw [hrun]; rfl, throughout_iff_guarded (I := fun st => ∃ ms, Models st.1 ms) ?_ ?_
    hstart hrefines ha hrun⟩
  · intro st op st₁ hI hadm hstep
    obtain ⟨st₂, hstep₂, hI₂⟩ := keeps_models st op hI hadm
    rw [hstep, Option.some.injEq] at hstep₂
    exact hstep₂ ▸ hI₂
  · intro st op st₁ hI hadm href hstep
    exact refines_step_iff hI hadm href hstep

end Programs

/-- A block of two cells. -/
def twoCells (k : Nat) : Alloc Nat := ⟨k + 1, [0, 0], Nat.succ_ne_zero k⟩

/-- A vector is made of one element and moved, and what is left is used again. -/
def movedFrom : List (Op Nat) :=
  [.initElems 0 [5] (twoCells 0), .moveInit 1 0, .pushBack 0 7 (twoCells 1)]

theorem vector_refines_list_moved :
    Throughout (sideBySide (.plain true)) Refines (Store.start, fun _ => []) movedFrom := by
  refine (vector_refines_list_iff (.plain true) movedFrom ?_).2.mpr ?_
  · refine ⟨⟨rfl, rfl⟩, fun st hst => ?_⟩
    obtain rfl := Option.some.inj hst
    refine ⟨trivial, fun st hst => ?_⟩
    obtain rfl := Option.some.inj hst
    exact ⟨fun _ => ⟨rfl, rfl⟩, fun _ _ => trivial⟩
  · exact ⟨.inl rfl, fun _ _ => ⟨trivial, fun _ _ => ⟨trivial, fun _ _ => trivial⟩⟩⟩

/-- For a type that is not trivial, such as a structure with a default for a
member, a vector made of one element holds what was in the block. -/
theorem vector_not_filled :
    Guarded (sideBySide (.plain false)) (fun st op => Admissible st.1 op)
        (Store.start, fun _ => []) [.initElems 0 [5] (twoCells 0)] ∧
      ¬ Throughout (sideBySide (.plain false)) Refines (Store.start, fun _ => [])
        [.initElems 0 [5] (twoCells 0)] := by
  refine ⟨⟨⟨rfl, rfl⟩, fun _ _ => trivial⟩, fun h => ?_⟩
  have hget := (h.2 _ rfl).get 0 0 Nat.zero_lt_one
  exact absurd hget (by decide)

end Cxlbuf.Container
