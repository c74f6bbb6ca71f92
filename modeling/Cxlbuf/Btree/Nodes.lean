import Cxlbuf.Btree
import Cxlbuf.Lib.Multiway

/-!
# Cxlbuf.Btree.Nodes

The nodes of the B-tree in the heap.  First what is read after a write, and
what a change leaves alone (`Edits`): all words of the blocks it does not name.

`At` says what a block holds as a node: its items in the first slots, their
number in the count, and its children, which a leaf has none of.  Everything
after this is about `At`; slots are not looked at again.
-/

namespace Cxlbuf.Btree

open Slots Multiway

namespace Heap

variable {h : Heap} {p q r i j k n v : Nat} {x : Item}

/-! ## what is read after a write -/

@[simp] theorem count_setCount : (h.setCount p v).count q = if q = p then v else h.count q := by
  simp [setCount, set, count]

@[simp] theorem item_setCount : (h.setCount p v).item q k = h.item q k := by
  simp [setCount, set, item]

@[simp] theorem child_setCount : (h.setCount p v).child q k = h.child q k := by
  simp [setCount, set, child]

@[simp] theorem count_writeItem : (h.writeItem p i x).count q = h.count q := by
  have hkey : 0 ≠ 1 + 2 * i := by omega
  have hval : 0 ≠ 2 + 2 * i := by omega
  simp [writeItem, set, count, hkey, hval]

@[simp] theorem item_writeItem :
    (h.writeItem p i x).item q k = if q = p ∧ k = i then x else h.item q k := by
  by_cases hc : q = p ∧ k = i
  · obtain ⟨rfl, rfl⟩ := hc
    simp [writeItem, set, item]
  · have hkey : ¬(q = p ∧ 2 * k = 2 * i) := fun hk => hc ⟨hk.1, by omega⟩
    have hodd (hq : q = p) : 1 + 2 * k ≠ 2 + 2 * i := by omega
    have heven (hq : q = p) : 2 + 2 * k ≠ 1 + 2 * i := by omega
    simp only [writeItem, set, item, if_neg hc]
    grind

theorem child_writeItem (hi : i < 7) : (h.writeItem p i x).child q k = h.child q k := by
  have hkey : 15 + k ≠ 1 + 2 * i := by omega
  have hval : 15 + k ≠ 2 + 2 * i := by omega
  simp [writeItem, set, child, hkey, hval]

@[simp] theorem count_setChild : (h.setChild p i v).count q = h.count q := by
  have hne : 0 ≠ 15 + i := by omega
  simp [setChild, set, count, hne]

theorem item_setChild (hk : k < 7) : (h.setChild p i v).item q k = h.item q k := by
  have hkey : 1 + 2 * k ≠ 15 + i := by omega
  have hval : 2 + 2 * k ≠ 15 + i := by omega
  simp [setChild, set, item, hkey, hval]

@[simp] theorem child_setChild :
    (h.setChild p i v).child q k = if q = p ∧ k = i then v else h.child q k := by
  simp [setChild, set, child]

@[simp] theorem count_copyItems : (h.copyItems p q i j n).count r = h.count r := by
  simp [copyItems, copy, count]

@[simp] theorem item_copyItems : (h.copyItems p q i j n).item r k =
    if r = p ∧ i ≤ k ∧ k < i + n then h.item q (j + (k - i)) else h.item r k := by
  by_cases hc : r = p ∧ i ≤ k ∧ k < i + n
  · obtain ⟨rfl, hik, hkn⟩ := hc
    have hkey : 1 + 2 * j + (1 + 2 * k - (1 + 2 * i)) = 1 + 2 * (j + (k - i)) := by omega
    have hval : 1 + 2 * j + (2 + 2 * k - (1 + 2 * i)) = 2 + 2 * (j + (k - i)) := by omega
    have hlow : 1 + 2 * k < 1 + 2 * i + 2 * n := by omega
    have hhigh : 2 + 2 * k < 1 + 2 * i + 2 * n := by omega
    simp only [copyItems, copy, item]
    grind
  · simp only [copyItems, copy, item, if_neg hc]
    grind

theorem child_copyItems (hn : i + n ≤ 7) : (h.copyItems p q i j n).child r k = h.child r k := by
  have hout : ¬(15 + k < 1 + 2 * i + 2 * n) := by omega
  simp [copyItems, copy, child, hout]

@[simp] theorem count_copyChildren : (h.copyChildren p q i j n).count r = h.count r := by
  simp [copyChildren, copy, count]

theorem item_copyChildren (hk : k < 7) : (h.copyChildren p q i j n).item r k = h.item r k := by
  have hkey : ¬(15 + i ≤ 1 + 2 * k) := by omega
  have hval : ¬(15 + i ≤ 2 + 2 * k) := by omega
  simp [copyChildren, copy, item, hkey, hval]

@[simp] theorem child_copyChildren : (h.copyChildren p q i j n).child r k =
    if r = p ∧ i ≤ k ∧ k < i + n then h.child q (j + (k - i)) else h.child r k := by
  have hidx : 15 + j + (15 + k - (15 + i)) = 15 + (j + (k - i)) := by omega
  have hupper : 15 + k < 15 + i + n ↔ k < i + n := by omega
  simp [copyChildren, copy, child, hidx, hupper]

@[simp] theorem count_allocate {a : Ator} : (h.allocate a).count p = h.count p := rfl

@[simp] theorem item_allocate {a : Ator} : (h.allocate a).item p k = h.item p k := rfl

@[simp] theorem child_allocate {a : Ator} : (h.allocate a).child p k = h.child p k := rfl

@[simp] theorem count_deallocate : (h.deallocate p).count q = h.count q := rfl

@[simp] theorem item_deallocate : (h.deallocate p).item q k = h.item q k := rfl

@[simp] theorem child_deallocate : (h.deallocate p).child q k = h.child q k := rfl

end Heap

/-! ## what a change leaves alone -/

/-- Only blocks of `ps` are written to. -/
structure Edits (ps : List Nat) (h h' : Heap) : Prop where
  word : ∀ q, q ∉ ps → h'.word q = h.word q
  live : h'.live = h.live
  freed : h'.freed = h.freed

section Edits

variable {ps : List Nat} {h h' h'' : Heap} {p q i j n v pos left right : Nat} {x : Item}

theorem Edits.refl : Edits ps h h := ⟨fun _ _ => rfl, rfl, rfl⟩

theorem Edits.trans (h₁ : Edits ps h h') (h₂ : Edits ps h' h'') : Edits ps h h'' :=
  ⟨fun q hq => (h₂.word q hq).trans (h₁.word q hq), h₂.live.trans h₁.live, h₂.freed.trans h₁.freed⟩

theorem Edits.mono (he : Edits ps h h') {qs : List Nat} (hsub : ∀ q ∈ ps, q ∈ qs) :
    Edits qs h h' :=
  ⟨fun q hq => he.word q fun hmem => hq (hsub q hmem), he.live, he.freed⟩

theorem Edits.ite {c : Prop} [Decidable c] (h₁ : Edits ps h h') (h₂ : Edits ps h h'') :
    Edits ps h (if c then h' else h'') := by
  split
  · exact h₁
  · exact h₂

theorem edits_set (hp : p ∈ ps) : Edits ps h (h.set p i v) where
  word q hq := by
    have hne : q ≠ p := fun heq => hq (heq ▸ hp)
    simp [Heap.set, hne]
  live := rfl
  freed := rfl

theorem edits_copy (hp : p ∈ ps) : Edits ps h (h.copy p q i j n) where
  word r hr := by
    have hne : r ≠ p := fun heq => hr (heq ▸ hp)
    simp [Heap.copy, hne]
  live := rfl
  freed := rfl

theorem edits_setCount (hp : p ∈ ps) : Edits ps h (h.setCount p v) := edits_set hp

theorem edits_setChild (hp : p ∈ ps) : Edits ps h (h.setChild p i v) := edits_set hp

theorem edits_writeItem (hp : p ∈ ps) : Edits ps h (h.writeItem p i x) :=
  (edits_set hp).trans (edits_set hp)

theorem edits_setItem (hp : p ∈ ps) : Edits ps h (h.setItem p i x) :=
  (edits_writeItem hp).trans (edits_setCount hp)

theorem edits_copyItems (hp : p ∈ ps) : Edits ps h (h.copyItems p q i j n) := edits_copy hp

theorem edits_copyChildren (hp : p ∈ ps) : Edits ps h (h.copyChildren p q i j n) := edits_copy hp

theorem edits_insertItem (hp : p ∈ ps) : Edits ps h (insertItem h p pos x) :=
  (Edits.ite (edits_copyItems hp) .refl).trans (edits_setItem hp)

theorem edits_insertNode (hp : p ∈ ps) : Edits ps h (insertNode h p pos x left right) :=
  ((Edits.ite ((edits_copyItems hp).trans (edits_copyChildren hp)) .refl).trans
    ((edits_setChild hp).trans (edits_setChild hp))).trans (edits_setItem hp)

end Edits

/-! ## nodes -/

/-- The node at `p` has the items `ks` and the children `cs`, none if it is a leaf. -/
structure At (h : Heap) (p : Nat) (ks : List Item) (cs : List Nat) : Prop where
  ne_zero : p ≠ 0
  count : h.count p = ks.length
  le : ks.length ≤ 7
  items : slots (h.item p) ks.length = ks
  kids : cs = [] ∧ (∀ i < 8, h.child p i = 0) ∨
    cs.length = ks.length + 1 ∧ slots (h.child p) cs.length = cs

section At

variable {h h' : Heap} {p pos l r : Nat} {ks : List Item} {cs : List Nat} {x : Item}

theorem At.congr (hat : At h p ks cs) (hw : h'.word p = h.word p) : At h' p ks cs := by
  have hitem : h'.item p = h.item p := by funext i; simp [Heap.item, hw]
  have hchild : h'.child p = h.child p := by funext i; simp [Heap.child, hw]
  refine ⟨hat.ne_zero, ?_, hat.le, by rw [hitem]; exact hat.items, by rw [hchild]; exact hat.kids⟩
  simpa [Heap.count, hw] using hat.count

theorem Edits.at {ps : List Nat} (he : Edits ps h h') (hp : p ∉ ps) (hat : At h p ks cs) :
    At h' p ks cs := hat.congr (he.word p hp)

theorem At.item_eq {ls rs : List Item} (hat : At h p (ls ++ x :: rs) cs) :
    h.item p ls.length = x := by
  have hlt : ls.length < (ls ++ x :: rs).length := by simp
  have hget := getElem?_slots (f := h.item p) hlt
  rw [hat.items] at hget
  simpa using hget.symm

theorem At.item_mem {ls rs : List Item} (hat : At h p (ls ++ rs) cs) {j : Nat}
    (hj : j < ls.length) : h.item p j ∈ ls := by
  have hlt : j < (ls ++ rs).length := by simp; omega
  have hget := getElem?_slots (f := h.item p) hlt
  rw [hat.items, List.getElem?_append_left hj] at hget
  exact List.mem_of_getElem? hget

theorem At.child_eq {ls rs : List Nat} (hat : At h p ks (ls ++ r :: rs)) :
    h.child p ls.length = r := by
  have hlt : ls.length < (ls ++ r :: rs).length := by simp
  have hget := getElem?_slots (f := h.child p) hlt
  rcases hat.kids with ⟨hnil, -⟩ | ⟨-, hkids⟩
  · simp at hnil
  · rw [hkids] at hget
    simpa using hget.symm

theorem count_insertItem : (insertItem h p pos x).count p = h.count p + 1 := by
  simp [insertItem, Heap.setItem, apply_ite (Heap.count · p)]

theorem item_insertItem {k : Nat} (hpos : pos < 7) : (insertItem h p pos x).item p k =
    if k = pos then x
    else if (h.item p pos).key ≠ 0 ∧ pos < k ∧ k < 7 then h.item p (k - 1) else h.item p k := by
  by_cases hkey : (h.item p pos).key ≠ 0
  · simp only [insertItem, Heap.setItem, if_pos hkey, Heap.item_setCount, Heap.item_writeItem,
      Heap.item_copyItems, true_and]
    grind
  · simp only [insertItem, Heap.setItem, Heap.item_setCount, Heap.item_writeItem, true_and,
      false_and, if_false, hkey]

theorem child_insertItem {k : Nat} (hpos : pos < 7) :
    (insertItem h p pos x).child p k = h.child p k := by
  have hfit : pos + 1 + (btreeOrder - 2 - pos) ≤ 7 := by simp only [btreeOrder]; omega
  by_cases hkey : (h.item p pos).key ≠ 0
  · simp only [insertItem, Heap.setItem, if_pos hkey, Heap.child_setCount,
      Heap.child_writeItem hpos, Heap.child_copyItems hfit]
  · simp only [insertItem, Heap.setItem, if_neg hkey, Heap.child_setCount,
      Heap.child_writeItem hpos]

/-- Items move to the right of a new one, except where it is put behind them. -/
theorem items_insertItem (hlen : ks.length ≤ 6) (hitems : slots (h.item p) ks.length = ks)
    (hpos : pos ≤ ks.length) (hkey : pos < ks.length → (h.item p pos).key ≠ 0) :
    slots ((insertItem h p pos x).item p) (ks.length + 1) = ks.take pos ++ x :: ks.drop pos := by
  have hslots := slots_insert (f := h.item p) (g := (insertItem h p pos x).item p) (n := ks.length)
    (i := pos) (x := x) hpos
    (fun k hk => by rw [item_insertItem (by omega), if_neg (by omega), if_neg (by omega)])
    (by rw [item_insertItem (by omega), if_pos rfl])
    (fun k hk hkn => by
      rw [item_insertItem (by omega), if_neg (by omega), Nat.add_sub_cancel,
        if_pos ⟨hkey (by omega), by omega, by omega⟩])
  rwa [hitems] at hslots

/-- `insert_item` on a leaf. -/
theorem At.insertItem (hat : At h p ks []) (hlen : ks.length ≤ 6) (hpos : pos ≤ ks.length)
    (hkey : pos < ks.length → (h.item p pos).key ≠ 0) :
    At (insertItem h p pos x) p (ks.take pos ++ x :: ks.drop pos) [] := by
  have hnew : (ks.take pos ++ x :: ks.drop pos).length = ks.length + 1 := by simp; omega
  have hleaf : ∀ i < 8, h.child p i = 0 := by simpa using hat.kids
  refine ⟨hat.ne_zero, ?_, by omega, ?_, .inl ⟨rfl, fun i hi => ?_⟩⟩
  · rw [count_insertItem, hat.count, hnew]
  · rw [hnew, items_insertItem hlen hat.items hpos hkey]
  · rw [child_insertItem (by omega), hleaf i hi]

theorem count_insertNode : (insertNode h p pos x l r).count p = h.count p + 1 := by
  simp [insertNode, Heap.setItem, apply_ite (Heap.count · p)]

theorem item_insertNode {k : Nat} (hk : k < 7) : (insertNode h p pos x l r).item p k =
    (insertItem h p pos x).item p k := by
  by_cases hkey : (h.item p pos).key ≠ 0
  · simp only [insertNode, Btree.insertItem, Heap.setItem, if_pos hkey, Heap.item_setCount,
      Heap.item_writeItem, Heap.item_setChild hk, Heap.item_copyChildren hk]
  · simp only [insertNode, Btree.insertItem, Heap.setItem, if_neg hkey, Heap.item_setCount,
      Heap.item_writeItem, Heap.item_setChild hk]

theorem child_insertNode {k : Nat} (hpos : pos < 7) : (insertNode h p pos x l r).child p k =
    if k = pos + 1 then r
    else if k = pos then l
    else if (h.item p pos).key ≠ 0 ∧ pos < k ∧ k < 8 then h.child p (k - 1) else h.child p k := by
  have hfit : pos + 1 + (btreeOrder - 2 - pos) ≤ 7 := by simp only [btreeOrder]; omega
  by_cases hkey : (h.item p pos).key ≠ 0
  · simp only [insertNode, Heap.setItem, if_pos hkey, Heap.child_setCount,
      Heap.child_writeItem hpos, Heap.child_setChild, Heap.child_copyChildren,
      Heap.child_copyItems hfit, true_and]
    grind
  · simp only [insertNode, Heap.setItem, Heap.child_setCount, Heap.child_writeItem hpos,
      Heap.child_setChild, true_and, false_and, if_false, hkey]

/-- `insert_node`: the child at `pos` becomes two with an item between them. -/
theorem At.insertNode (hat : At h p ks cs) (hcs : cs.length = ks.length + 1) (hlen : ks.length ≤ 6)
    (hpos : pos ≤ ks.length) (hkey : pos < ks.length → (h.item p pos).key ≠ 0) :
    At (insertNode h p pos x l r) p (ks.take pos ++ x :: ks.drop pos)
      (cs.take pos ++ l :: r :: cs.drop (pos + 1)) := by
  have hks : (ks.take pos ++ x :: ks.drop pos).length = ks.length + 1 := by simp; omega
  have hcs' : (cs.take pos ++ l :: r :: cs.drop (pos + 1)).length = ks.length + 2 := by
    simp; omega
  have hkids : slots (h.child p) (ks.length + 1) = cs := by
    rcases hat.kids with ⟨rfl, -⟩ | ⟨-, hkids⟩
    · simp at hcs
    · rwa [hcs] at hkids
  refine ⟨hat.ne_zero, ?_, by omega, ?_, .inr ⟨by omega, ?_⟩⟩
  · rw [count_insertNode, hat.count, hks]
  · rw [hks, slots_congr fun k hk => item_insertNode (by omega),
      items_insertItem hlen hat.items hpos hkey]
  · have hslots := slots_split (f := h.child p) (g := (Btree.insertNode h p pos x l r).child p)
      (n := ks.length) (i := pos) (x := l) (y := r) hpos
      (fun k hk => by
        rw [child_insertNode (by omega), if_neg (by omega), if_neg (by omega), if_neg (by omega)])
      (by rw [child_insertNode (by omega), if_neg (by omega), if_pos rfl])
      (by rw [child_insertNode (by omega), if_pos rfl])
      (fun k hk hkn => by
        rw [child_insertNode (by omega), if_neg (by omega), if_neg (by omega), Nat.add_sub_cancel,
          if_pos ⟨hkey (by omega), by omega, by omega⟩])
    rw [hcs', hslots, hkids]

end At

/-! ## the split of a node -/

section Split

variable {a : Ator} {h : Heap} {p r q i k : Nat} {ks : List Item} {cs : List Nat} {x : Item}

theorem count_moveRight (hi : i < 7) :
    (moveRight p r h i).count q = if q = r then h.count r + 1 else h.count q := by
  have hne : i ≠ 7 := by omega
  simp [moveRight, hne, Heap.clear]

theorem item_moveRight (hi : i < 7) (hk : k < 7) : (moveRight p r h i).item q k =
    if q = p ∧ k = i then ⟨0, 0⟩
    else if q = r ∧ k = h.count r then h.item p i else h.item q k := by
  have hne : i ≠ 7 := by omega
  simp [moveRight, hne, Heap.clear, Heap.item_setChild hk]

theorem child_moveRight (hi : i < 7) (hr : h.count r < 7) : (moveRight p r h i).child q k =
    if q = p ∧ k = i then 0
    else if q = r ∧ k = i - 4 then h.child p i else h.child q k := by
  have hne : i ≠ 7 := by omega
  simp [moveRight, hne, Heap.clear, Heap.child_writeItem hi, Heap.child_writeItem hr, btreeOrder]

theorem count_moveRight_last : (moveRight p r h 7).count q = h.count q := by
  simp [moveRight]

theorem item_moveRight_last (hk : k < 7) : (moveRight p r h 7).item q k = h.item q k := by
  simp [moveRight, Heap.item_setChild hk]

theorem child_moveRight_last : (moveRight p r h 7).child q k =
    if q = p ∧ k = 7 then 0 else if q = r ∧ k = 3 then h.child p 7 else h.child q k := by
  simp [moveRight, btreeOrder]

theorem edits_moveRight : Edits [p, r] h (moveRight p r h i) :=
  (Edits.ite (((edits_writeItem (by simp)).trans (edits_setCount (by simp))).trans
    (edits_writeItem (by simp))) .refl).trans
    ((edits_setChild (by simp)).trans (edits_setChild (by simp)))

theorem splitNode_median : (splitNode a h p).2.2 = h.item p 3 := by
  simp [splitNode, Heap.init, btreeOrder]

/-- What `split_node` leaves in the two nodes. -/
theorem splitNode_words (hr : a.pick h ≠ p) :
    (splitNode a h p).1.count p = 3 ∧ (splitNode a h p).1.count (a.pick h) = 3 ∧
      (∀ k < 3, (splitNode a h p).1.item p k = h.item p k ∧
        (splitNode a h p).1.item (a.pick h) k = h.item p (4 + k)) ∧
      (∀ k < 4, (splitNode a h p).1.child p k = h.child p k ∧
        (splitNode a h p).1.child (a.pick h) k = h.child p (4 + k)) ∧
      ∀ k, 4 ≤ k → k < 8 → (splitNode a h p).1.child p k = 0 ∧
        (splitNode a h p).1.child (a.pick h) k = h.child (a.pick h) k := by
  have hp : p ≠ a.pick h := Ne.symm hr
  have hloop : List.range' (btreeOrder / 2) (btreeOrder - btreeOrder / 2) = [4, 5, 6, 7] := rfl
  simp only [splitNode, hloop, List.foldl_cons, List.foldl_nil, btreeOrder]
  generalize hh₀ : ((h.allocate a).init (a.pick h)).clear p (8 / 2 - 1) = h₀
  have hcount : h₀.count (a.pick h) = 0 := by
    simp [← hh₀, Heap.clear, Heap.init]
  have hitem : ∀ k < 7, k ≠ 3 → h₀.item p k = h.item p k := by
    intro k hk hk3
    simp [← hh₀, Heap.clear, Heap.init, hk3]
  have hchild : ∀ q k, h₀.child q k = h.child q k := by
    intro q k
    simp [← hh₀, Heap.clear, Heap.init, Heap.child_writeItem]
  have hcount₁ : (moveRight p (a.pick h) h₀ 4).count (a.pick h) = 1 := by
    simp [count_moveRight, hcount]
  have hcount₂ : (moveRight p (a.pick h) (moveRight p (a.pick h) h₀ 4) 5).count (a.pick h) = 2 := by
    simp [count_moveRight, hcount₁]
  have hcount₃ : (moveRight p (a.pick h) (moveRight p (a.pick h) (moveRight p (a.pick h) h₀ 4) 5)
      6).count (a.pick h) = 3 := by
    simp [count_moveRight, hcount₂]
  refine ⟨by simp, by simp [hr, count_moveRight_last, hcount₃], fun k hk => ?_, fun k hk => ?_,
    fun k hk hk8 => ?_⟩
  · have hk7 : k < 7 := by omega
    simp only [Heap.item_setCount, item_moveRight_last hk7, item_moveRight, hk7, hcount, hcount₁,
      hcount₂, Nat.reduceLT, hp, hr, false_and, true_and, if_false]
    grind
  · simp only [Heap.child_setCount, child_moveRight_last, child_moveRight, hcount, hcount₁, hcount₂,
      Nat.reduceLT, Nat.reduceSub, hp, hr, false_and, true_and, if_false]
    grind
  · simp only [Heap.child_setCount, child_moveRight_last, child_moveRight, hcount, hcount₁, hcount₂,
      Nat.reduceLT, Nat.reduceSub, hp, hr, false_and, true_and, if_false]
    grind

theorem edits_splitNode : Edits [p, a.pick h] (h.allocate a) (splitNode a h p).1 := by
  have hloop (is : List Nat) (h' : Heap) :
      Edits [p, a.pick h] h' (is.foldl (moveRight p (a.pick h)) h') := by
    induction is generalizing h' with
    | nil => exact .refl
    | cons i is ih => exact edits_moveRight.trans (ih _)
  exact (((edits_setCount (by simp)).trans (edits_writeItem (by simp))).trans (hloop _ _)).trans
    (edits_setCount (by simp))

/-- `split_node`: a full node becomes two, with the median item between them.  What was
in the new block counts: a leaf needs it to be clear of children. -/
theorem At.splitNode (hat : At h p ks cs) (hfull : ks.length = 7) (hr : a.pick h ≠ p)
    (hclear : ∀ i < 8, h.child (a.pick h) i = 0) :
    At (splitNode a h p).1 p (ks.take 3) (cs.take 4) ∧
      At (splitNode a h p).1 (a.pick h) (ks.drop 4) (cs.drop 4) ∧
      ks = ks.take 3 ++ (splitNode a h p).2.2 :: ks.drop 4 := by
  obtain ⟨hcount, hcountr, hitems, hkids, hrest⟩ := splitNode_words (a := a) hr
  have hks : slots (h.item p) 7 = ks := by rw [← hfull]; exact hat.items
  have hleft : slots ((Btree.splitNode a h p).1.item p) 3 = ks.take 3 := by
    rw [← hks, take_slots (by omega)]
    exact slots_congr fun k hk => (hitems k hk).1
  have hright : slots ((Btree.splitNode a h p).1.item (a.pick h)) 3 = ks.drop 4 := by
    rw [← hks, drop_slots (by omega)]
    exact slots_congr fun k hk => (hitems k hk).2
  have hmedian : ks = ks.take 3 ++ h.item p 3 :: ks.drop 4 := by
    rw [← hks]
    rfl
  refine ⟨⟨hat.ne_zero, by simp [hcount, hfull], by simp [hfull], by simpa [hfull] using hleft, ?_⟩,
    ⟨a.pick_ne_zero h, by simp [hcountr, hfull], by simp [hfull], by simpa [hfull] using hright,
      ?_⟩,
    by rw [splitNode_median]; exact hmedian⟩
  · rcases hat.kids with ⟨rfl, hleaf⟩ | ⟨hcs, hslots⟩
    · refine .inl ⟨rfl, fun i hi => ?_⟩
      by_cases hi4 : i < 4
      · rw [(hkids i hi4).1, hleaf i hi]
      · exact (hrest i (by omega) hi).1
    · have hlen : (cs.take 4).length = 4 := by simp; omega
      refine .inr ⟨by simp [hfull, hcs], ?_⟩
      rw [hlen, ← hslots, take_slots (by omega)]
      exact slots_congr fun k hk => (hkids k hk).1
  · rcases hat.kids with ⟨rfl, hleaf⟩ | ⟨hcs, hslots⟩
    · refine .inl ⟨rfl, fun i hi => ?_⟩
      by_cases hi4 : i < 4
      · rw [(hkids i hi4).2, hleaf _ (by omega)]
      · rw [(hrest i (by omega) hi).2, hclear i hi]
    · have hlen : (cs.drop 4).length = 4 := by simp; omega
      refine .inr ⟨by simp [hfull, hcs], ?_⟩
      rw [hlen, ← hslots, drop_slots (by omega), hcs, hfull]
      exact slots_congr fun k hk => (hkids k hk).2

end Split

end Cxlbuf.Btree
