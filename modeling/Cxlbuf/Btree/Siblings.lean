import Cxlbuf.Btree.Search

/-!
# Cxlbuf.Btree.Siblings

Two adjacent children of a node and the item between them.  A rotation moves
an item across, through the parent; `merge` appends the right child and the
item to the left one and closes the gap in the parent.

`rebalance` takes from the right sibling, from the left one, or merges with one
of them, in this order.  What it needs of the node is that it lacks one item
(`Nearly`), and what it leaves is stated once for all three (`Rebalanced`).
-/

namespace Cxlbuf.Btree

open Slots Multiway Multiway.Tree ByKey

variable {h h' : Heap} {d : Nat}

theorem Edits.count_eq {ps : List Nat} {q : Nat} (he : Edits ps h h') (hq : q ∉ ps) :
    h'.count q = h.count q := by
  simp [Heap.count, he.word q hq]

theorem Edits.item_eq {ps : List Nat} {q k : Nat} (he : Edits ps h h') (hq : q ∉ ps) :
    h'.item q k = h.item q k := by
  simp [Heap.item, he.word q hq]

theorem Edits.child_eq {ps : List Nat} {q k : Nat} (he : Edits ps h h') (hq : q ∉ ps) :
    h'.child q k = h.child q k := by
  simp [Heap.child, he.word q hq]

theorem At.item_zero {p : Nat} {x : Item} {ks : List Item} {cs : List Nat}
    (hat : At h p (x :: ks) cs) :
    h.item p 0 = x :=
  At.item_eq (show At h p ([] ++ x :: ks) cs from hat)

theorem At.child_zero {p c : Nat} {ks : List Item} {cs : List Nat} (hat : At h p ks (c :: cs)) :
    h.child p 0 = c :=
  At.child_eq (show At h p ks ([] ++ c :: cs) from hat)

/-! ## rotation -/

section Rotate

variable {p l r pos k : Nat} {x y : Item} {ks ls rs ys : List Item} {cs bs as : List Nat}

theorem edits_rotateRight : Edits [p, l, r] h (rotateRight h r l p pos) :=
  (((((edits_insertItem (by simp)).trans (edits_writeItem (by simp))).trans
    (edits_setChild (by simp))).trans (edits_setCount (by simp))).trans
    (edits_copyItems (by simp))).trans (edits_copyChildren (by simp))

theorem edits_rotateLeft : Edits [p, l, r] h (rotateLeft h l r p pos) :=
  ((((edits_insertItem (by simp)).trans (edits_writeItem (by simp))).trans
    (edits_copyChildren (by simp))).trans (edits_setChild (by simp))).trans
      (edits_setCount (by simp))

/-- What `rotate_right` leaves in the three nodes. -/
theorem rotateRight_words (hpl : p ≠ l) (hpr : p ≠ r) (hlr : l ≠ r) (hl : h.count l < 7)
    (hr : h.count r ≤ 7) (hpos : pos < 7) :
    ((rotateRight h r l p pos).count p = h.count p ∧
      (rotateRight h r l p pos).count l = h.count l + 1 ∧
      (rotateRight h r l p pos).count r = h.count r - 1) ∧
    (∀ k < 7, (rotateRight h r l p pos).item p k = if k = pos then h.item r 0 else h.item p k) ∧
    (∀ k ≤ h.count l, (rotateRight h r l p pos).item l k =
      if k = h.count l then h.item p pos else h.item l k) ∧
    (∀ k < h.count r - 1, (rotateRight h r l p pos).item r k = h.item r (k + 1)) ∧
    (∀ k, (rotateRight h r l p pos).child p k = h.child p k) ∧
    (∀ k, (rotateRight h r l p pos).child l k =
      if k = h.count l + 1 then h.child r 0 else h.child l k) ∧
    ∀ k, (rotateRight h r l p pos).child r k =
      if k < h.count r - 1 + 1 then h.child r (k + 1) else h.child r k := by
  have hins : Edits [l] h (insertItem h l (h.count l) (h.item p pos)) := edits_insertItem (by simp)
  have hcp := hins.count_eq (by simpa using hpl)
  have hcr := hins.count_eq (by simpa using Ne.symm hlr)
  have hip (k : Nat) := hins.item_eq (k := k) (by simpa using hpl)
  have hir (k : Nat) := hins.item_eq (k := k) (by simpa using Ne.symm hlr)
  have hkp (k : Nat) := hins.child_eq (k := k) (by simpa using hpl)
  have hkr (k : Nat) := hins.child_eq (k := k) (by simpa using Ne.symm hlr)
  have hfit : 0 + (h.count r - 1) ≤ 7 := by omega
  have hlp := Ne.symm hpl
  have hrp := Ne.symm hpr
  have hrl := Ne.symm hlr
  refine ⟨⟨?_, ?_, ?_⟩, fun k hk => ?_, fun k hk => ?_, fun k hk => ?_, fun k => ?_, fun k => ?_,
    fun k => ?_⟩
  · simp [rotateRight, hpr, hcp]
  · simp [rotateRight, hlr, count_insertItem]
  · simp [rotateRight, hcr]
  · simp [rotateRight, Heap.item_copyChildren, Heap.item_setChild, hk, hpr, hip, hir]
  · simp [rotateRight, Heap.item_copyChildren, Heap.item_setChild, (by omega : k < 7), hlr, hlp,
      item_insertItem hl]
    grind
  · simp [rotateRight, Heap.item_copyChildren, Heap.item_setChild, (by omega : k < 7), hrp, hcr,
      (by omega : k + 1 < 7), hir, hk, Nat.add_comm 1]
  · simp [rotateRight, Heap.child_copyItems hfit, Heap.child_writeItem hpos, hcr, hpr, hpl, hkp]
  · simp [rotateRight, Heap.child_copyItems hfit, Heap.child_writeItem hpos, hcr, hlr, hkr,
      count_insertItem, child_insertItem hl]
  · simp [rotateRight, Heap.child_copyItems hfit, Heap.child_writeItem hpos, hcr, hrl, hkr,
      Nat.add_comm 1]

/-- An item of a node is replaced. -/
theorem At.replaceItem (hat : At h p (ls ++ x :: rs) cs) (hcount : h'.count p = h.count p)
    (hitem : ∀ k < 7, h'.item p k = if k = ls.length then y else h.item p k)
    (hchild : ∀ k, h'.child p k = h.child p k) : At h' p (ls ++ y :: rs) cs := by
  have hle := hat.le
  have hlen : (ls ++ y :: rs).length = (ls ++ x :: rs).length := by simp
  have hlt : ls.length < (ls ++ x :: rs).length := by simp
  refine ⟨hat.ne_zero, by rw [hcount, hat.count, hlen], by omega, ?_, ?_⟩
  · have hset := slots_set (f := h.item p) (g := h'.item p) (n := (ls ++ x :: rs).length)
      (i := ls.length) (x := y) (by rw [hitem _ (by omega), if_pos rfl])
      (fun k hk hne => by rw [hitem k (by omega), if_neg hne])
    rw [hlen, hset, hat.items]
    simp
  · have hsame : h'.child p = h.child p := funext hchild
    rw [hsame, hlen]
    exact hat.kids

/-- `rotate_right`: the separator goes to the left node, the right one's first item becomes the
separator, and its first child goes with it. -/
theorem At.rotateRight (hp : At h p (ls ++ x :: rs) cs) (hl : At h l ks as)
    (hr : At h r (y :: ys) bs)
    (hpl : p ≠ l) (hpr : p ≠ r) (hlr : l ≠ r) (hlen : ks.length < 7) (hkids : as = [] ↔ bs = []) :
    At (rotateRight h r l p ls.length) p (ls ++ y :: rs) cs ∧
      At (rotateRight h r l p ls.length) l (ks ++ [x]) (as ++ bs.take 1) ∧
      At (rotateRight h r l p ls.length) r ys (bs.drop 1) := by
  have hple := hp.le
  have hrle := hr.le
  rw [List.length_append, List.length_cons] at hple
  rw [List.length_cons] at hrle
  have hrcount : h.count r = ys.length + 1 := hr.count
  obtain ⟨⟨hcp, hcl, hcr⟩, hip, hil, hir, hkp, hkl, hkr⟩ :=
    rotateRight_words hpl hpr hlr (hl.count ▸ hlen) (hr.count ▸ hr.le) (by omega : ls.length < 7)
  rw [hr.item_zero] at hip
  rw [hl.count, hp.item_eq] at hil
  rw [hrcount, Nat.add_sub_cancel] at hcr hir hkr
  rw [hl.count] at hcl hkl
  have hys : slots (fun k => h.item r (k + 1)) ys.length = ys :=
    (List.cons.inj (slots_cons.symm.trans hr.items)).2
  have hlitems :
      slots ((Btree.rotateRight h r l p ls.length).item l) (ks.length + 1) = ks ++ [x] := by
    rw [slots_succ, hil _ (Nat.le_refl _), if_pos rfl,
      slots_congr fun k hk => by rw [hil k (by omega), if_neg (by omega)], hl.items]
  refine ⟨hp.replaceItem hcp hip hkp,
    ⟨hl.ne_zero, by simp [hcl], by simp; omega, by simpa using hlitems, ?_⟩,
    ⟨hr.ne_zero, hcr, by omega, by rw [slots_congr hir, hys], ?_⟩⟩
  · rcases hl.kids with ⟨rfl, hleaf⟩ | ⟨hcs, hslots⟩
    · obtain rfl : bs = [] := hkids.mp rfl
      have hnull : ∀ i < 8, h.child r i = 0 := by simpa using hr.kids
      exact .inl ⟨rfl, fun i hi => by rw [hkl, hleaf i hi, hnull 0 (by omega), ite_self]⟩
    · obtain ⟨b, bs, rfl⟩ : ∃ b bs', bs = b :: bs' := List.exists_cons_of_ne_nil fun hnil => by
        simp [hkids.mpr hnil] at hcs
      refine .inr ⟨by simp [hcs], ?_⟩
      rw [hcs] at hslots
      rw [List.take_one, List.head?_cons, Option.toList_some, List.length_append, hcs,
        List.length_singleton, slots_succ, hkl, if_pos rfl, hr.child_zero,
        slots_congr fun k hk => by rw [hkl, if_neg (by omega)], hslots]
  · rcases hr.kids with ⟨rfl, hleaf⟩ | ⟨hcs, hslots⟩
    · refine .inl ⟨rfl, fun i hi => ?_⟩
      rw [hkr]
      split
      · exact hleaf _ (by omega)
      · exact hleaf i hi
    · obtain ⟨b, bs, rfl⟩ : ∃ b bs', bs = b :: bs' := List.exists_cons_of_length_pos (by omega)
      have hlen' : bs.length = ys.length + 1 := by simpa using hcs
      have hbs : slots (fun k => h.child r (k + 1)) bs.length = bs :=
        (List.cons.inj (slots_cons.symm.trans hslots)).2
      refine .inr ⟨hlen', ?_⟩
      rw [List.drop_one, List.tail_cons,
        slots_congr fun k hk => by rw [hkr, if_pos (by omega)], hbs]

/-- What `rotate_left` leaves in the three nodes. -/
theorem rotateLeft_words (hpl : p ≠ l) (hpr : p ≠ r) (hlr : l ≠ r) (hpos : pos < 7) :
    ((rotateLeft h l r p (pos + 1)).count p = h.count p ∧
      (rotateLeft h l r p (pos + 1)).count l = h.count l - 1 ∧
      (rotateLeft h l r p (pos + 1)).count r = h.count r + 1) ∧
    (∀ k < 7, (rotateLeft h l r p (pos + 1)).item p k =
      if k = pos then h.item l (h.count l - 1) else h.item p k) ∧
    (∀ k < 7, (rotateLeft h l r p (pos + 1)).item l k = h.item l k) ∧
    (∀ k < 7, (rotateLeft h l r p (pos + 1)).item r k =
      (insertItem h r 0 (h.item p pos)).item r k) ∧
    (∀ k, (rotateLeft h l r p (pos + 1)).child p k = h.child p k) ∧
    (∀ k, (rotateLeft h l r p (pos + 1)).child l k = h.child l k) ∧
    ∀ k, (rotateLeft h l r p (pos + 1)).child r k = if k = 0 then h.child l (h.count l)
      else if k ≤ h.count r + 1 then h.child r (k - 1) else h.child r k := by
  have hins : Edits [r] h (insertItem h r 0 (h.item p pos)) := edits_insertItem (by simp)
  have hcp := hins.count_eq (by simpa using hpr)
  have hcl := hins.count_eq (by simpa using hlr)
  have hip (k : Nat) := hins.item_eq (k := k) (by simpa using hpr)
  have hil (k : Nat) := hins.item_eq (k := k) (by simpa using hlr)
  have hkp (k : Nat) := hins.child_eq (k := k) (by simpa using hpr)
  have hkl (k : Nat) := hins.child_eq (k := k) (by simpa using hlr)
  have hlp := Ne.symm hpl
  have hrp := Ne.symm hpr
  have hrl := Ne.symm hlr
  refine ⟨⟨?_, ?_, ?_⟩, fun k hk => ?_, fun k hk => ?_, fun k hk => ?_, fun k => ?_, fun k => ?_,
    fun k => ?_⟩
  · simp [rotateLeft, hpl, hcp]
  · simp [rotateLeft, hcl]
  · simp [rotateLeft, hrl, count_insertItem]
  · simp [rotateLeft, Heap.item_copyChildren, Heap.item_setChild, hk, hcl, hip, hil]
  · simp [rotateLeft, Heap.item_copyChildren, Heap.item_setChild, hk, hlp, hil]
  · simp [rotateLeft, Heap.item_copyChildren, Heap.item_setChild, hk, hrp]
  · simp [rotateLeft, Heap.child_writeItem hpos, hpr, hkp]
  · simp [rotateLeft, Heap.child_writeItem hpos, hlr, hkl]
  · simp [rotateLeft, Heap.child_writeItem hpos, hlr, hkl, hcl, count_insertItem,
      child_insertItem]
    grind

/-- `rotate_left`: the separator goes to the right node, the left one's last item becomes the
separator, and its last child goes with it. -/
theorem At.rotateLeft (hp : At h p (ls ++ x :: rs) cs) (hl : At h l (ks ++ [y]) as)
    (hr : At h r ys bs) (hpl : p ≠ l) (hpr : p ≠ r) (hlr : l ≠ r) (hlen : ys.length < 7)
    (hkey : ∀ z ∈ ys.head?, z.key ≠ 0) (hkids : as = [] ↔ bs = []) :
    At (rotateLeft h l r p (ls.length + 1)) p (ls ++ y :: rs) cs ∧
      At (rotateLeft h l r p (ls.length + 1)) l ks (as.take (ks.length + 1)) ∧
      At (rotateLeft h l r p (ls.length + 1)) r (x :: ys) (as.drop (ks.length + 1) ++ bs) := by
  have hple := hp.le
  have hlle := hl.le
  rw [List.length_append, List.length_cons] at hple
  rw [List.length_append, List.length_singleton] at hlle
  have hlcount : h.count l = ks.length + 1 := by rw [hl.count]; simp
  obtain ⟨⟨hcp, hcl, hcr⟩, hip, hil, hir, hkp, hkl, hkr⟩ :=
    rotateLeft_words (h := h) hpl hpr hlr (by omega : ls.length < 7)
  rw [hlcount, Nat.add_sub_cancel] at hip hcl
  rw [At.item_eq hl] at hip
  rw [hr.count] at hcr hkr
  rw [hlcount] at hkr
  rw [hp.item_eq] at hir
  have hks : slots (h.item l) ks.length = ks := by
    have htake := congrArg (List.take ks.length) hl.items
    rwa [take_slots (by simp), List.take_left] at htake
  have hritems : slots ((Btree.rotateLeft h l r p (ls.length + 1)).item r) (ys.length + 1) =
      x :: ys := by
    rw [slots_congr fun k hk => hir k (by omega)]
    refine items_insertItem (by omega) hr.items (Nat.zero_le _) fun hpos => ?_
    obtain ⟨z, zs, rfl⟩ := List.exists_cons_of_length_pos hpos
    rw [hr.item_zero]
    exact hkey z rfl
  have hlchild : (Btree.rotateLeft h l r p (ls.length + 1)).child l = h.child l := funext hkl
  refine ⟨hp.replaceItem hcp hip hkp, ⟨hl.ne_zero, hcl, by omega,
    by rw [slots_congr fun k hk => hil k (by omega), hks], ?_⟩,
    ⟨hr.ne_zero, by rw [hcr, List.length_cons], by simp; omega, hritems, ?_⟩⟩
  · rw [hlchild]
    rcases hl.kids with ⟨rfl, hleaf⟩ | ⟨hcs, hslots⟩
    · exact .inl ⟨rfl, hleaf⟩
    · rw [List.length_append, List.length_singleton] at hcs
      refine .inr ⟨by simp; omega, ?_⟩
      rw [← hslots, take_slots (by omega), length_slots]
  · rcases hr.kids with ⟨rfl, hleaf⟩ | ⟨hcs, hslots⟩
    · obtain rfl : as = [] := hkids.mpr rfl
      have hnull : ∀ i < 8, h.child l i = 0 := by simpa using hl.kids
      refine .inl ⟨rfl, fun i hi => ?_⟩
      rw [hkr, hnull _ (by omega), hleaf _ (by omega), hleaf i hi, ite_self, ite_self]
    · obtain ⟨as', a, rfl⟩ := (List.eq_nil_or_concat' as).resolve_left fun hnil => by
        simp [hkids.mp hnil] at hcs
      have hlen' : as'.length = ks.length + 1 := by
        rcases hl.kids with ⟨hnil, -⟩ | ⟨hcs, -⟩
        · simp at hnil
        · simpa using hcs
      have ha : h.child l (ks.length + 1) = a := hlen' ▸ hl.child_eq
      rw [List.drop_left' hlen']
      refine .inr ⟨by simp [hcs], ?_⟩
      rw [List.singleton_append, List.length_cons, slots_cons, hkr, if_pos rfl, ha,
        slots_congr fun k hk => by
          rw [hkr, if_neg (by omega), if_pos (by omega), Nat.add_sub_cancel],
        hslots]

end Rotate

/-! ## merging -/

section Merge

variable {p l r pos : Nat} {x : Item} {ks ls rs ys : List Item} {cs ds bs as : List Nat} {c e : Nat}

/-- The first half of `merge`: the separator and what is in `r` go behind what is in `l`. -/
def appendNode (h : Heap) (r l : Nat) (x : Item) : Heap :=
  let h := (h.writeItem l (h.count l) x).setCount l (h.count l + 1)
  let h := h.copyItems l r (h.count l) 0 (h.count r)
  let h := h.copyChildren l r (h.count l) 0 (h.count r + 1)
  h.setCount l (h.count l + h.count r)

/-- The second half of `merge`: the separator and the child behind it leave the parent. -/
def closeSlot (h : Heap) (p pos : Nat) : Heap :=
  let h := h.setCount p (h.count p - 1)
  let h := h.copyItems p p pos (pos + 1) (h.count p - pos)
  h.copyChildren p p (pos + 1) (pos + 2) (h.count p - pos + 1)

/-- What `merge` does to the nodes, before it looks at the root. -/
def mergeNodes (h : Heap) (r l p pos : Nat) : Heap :=
  closeSlot ((appendNode h r l (h.item p pos)).deallocate r) p pos

theorem merge_eq {root : Nat} (hl : l ≠ 0) : merge ⟨h, root⟩ r l p pos =
    some (if (mergeNodes h r l p pos).count p = 0 ∧ p = root then
      ⟨(mergeNodes h r l p pos).deallocate root, l⟩ else ⟨mergeNodes h r l p pos, root⟩) := by
  rw [merge, if_neg hl, apply_ite some]
  rfl

theorem edits_appendNode : Edits [l] h (appendNode h r l x) :=
  ((((edits_writeItem (by simp)).trans (edits_setCount (by simp))).trans
    (edits_copyItems (by simp))).trans (edits_copyChildren (by simp))).trans
      (edits_setCount (by simp))

theorem Edits.deallocate {ps : List Nat} {b : Nat} (he : Edits ps h h') :
    Edits ps (h.deallocate b) (h'.deallocate b) :=
  ⟨he.word, by simp [Heap.deallocate, he.live], by simp [Heap.deallocate, he.freed]⟩

theorem edits_closeSlot : Edits [p] h (closeSlot h p pos) :=
  ((edits_setCount (by simp)).trans (edits_copyItems (by simp))).trans
    (edits_copyChildren (by simp))

/-- One node is put behind another, with an item between them. -/
theorem At.appendNode (hl : At h l ks as) (hr : At h r ys bs) (hlr : l ≠ r)
    (hlen : ks.length + 1 + ys.length ≤ 7) (hkids : as = [] ↔ bs = []) :
    At (appendNode h r l x) l (ks ++ x :: ys) (as ++ bs) := by
  have hrl := Ne.symm hlr
  have hcount : (Btree.appendNode h r l x).count l = ks.length + 1 + ys.length := by
    simp [Btree.appendNode, hrl, hl.count, hr.count]
  have hitem : ∀ k < 7, (Btree.appendNode h r l x).item l k =
      if k < ks.length then h.item l k else if k = ks.length then x
      else if k < ks.length + 1 + ys.length then h.item r (k - (ks.length + 1))
      else h.item l k := by
    intro k hk
    simp [Btree.appendNode, Heap.item_copyChildren hk, hrl, hl.count, hr.count]
    grind
  have hchild : ∀ k, (Btree.appendNode h r l x).child l k =
      if k ≤ ks.length then h.child l k
      else if k < ks.length + 1 + (ys.length + 1) then h.child r (k - (ks.length + 1))
      else h.child l k := by
    intro k
    have hroom : ks.length < 7 := by omega
    simp [Btree.appendNode, Heap.child_copyItems hlen, Heap.child_writeItem hroom, hrl, hl.count,
      hr.count]
    grind
  have hnew : (ks ++ x :: ys).length = ks.length + (ys.length + 1) := by simp
  have hitems :
      slots ((Btree.appendNode h r l x).item l) (ks.length + (ys.length + 1)) = ks ++ x :: ys := by
    have hlow : ∀ k < ks.length, (Btree.appendNode h r l x).item l k = h.item l k := fun k hk => by
      rw [hitem k (by omega), if_pos hk]
    have hhigh : ∀ k < ys.length,
        (Btree.appendNode h r l x).item l (ks.length + (k + 1)) = h.item r k :=
      fun k hk => by
        rw [hitem _ (by omega), if_neg (by omega), if_neg (by omega), if_pos (by omega)]
        congr 1
        omega
    rw [slots_add, slots_cons, slots_congr hlow, slots_congr hhigh, hl.items, hr.items,
      hitem _ (by omega), if_neg (by omega), if_pos (by omega)]
  refine ⟨hl.ne_zero, by omega, by omega, by rw [hnew, hitems], ?_⟩
  rcases hl.kids with ⟨rfl, hleaf⟩ | ⟨has, hslots⟩
  · obtain rfl : bs = [] := hkids.mp rfl
    have hnull : ∀ i < 8, h.child r i = 0 := by simpa using hr.kids
    refine .inl ⟨rfl, fun i hi => ?_⟩
    rw [hchild, hleaf i hi, hnull _ (by omega), ite_self, ite_self]
  · rcases hr.kids with ⟨rfl, -⟩ | ⟨hbs, hslots'⟩
    · simp [hkids.mpr rfl] at has
    · refine .inr ⟨by simp; omega, ?_⟩
      have hlow : ∀ k < as.length, (Btree.appendNode h r l x).child l k = h.child l k :=
        fun k hk => by rw [hchild, if_pos (by omega)]
      have hhigh : ∀ k < bs.length,
          (Btree.appendNode h r l x).child l (as.length + k) = h.child r k := fun k hk => by
        rw [hchild, if_neg (by omega), if_pos (by omega)]
        congr 1
        omega
      rw [List.length_append, slots_eq_append hlow hhigh, hslots, hslots']

/-- A slot of a node is closed. -/
theorem At.closeSlot (hp : At h p (ls ++ x :: rs) (cs ++ c :: e :: ds))
    (hcs : cs.length = ls.length) :
    At (closeSlot h p ls.length) p (ls ++ rs) (cs ++ c :: ds) := by
  have hle := hp.le
  have hcount : h.count p = ls.length + rs.length + 1 := by rw [hp.count]; simp; omega
  have hlen : (ls ++ x :: rs).length = ls.length + rs.length + 1 := by simp; omega
  have hfit : ls.length + rs.length ≤ 7 := by omega
  obtain ⟨hds, hslots⟩ : ds.length = rs.length ∧
      slots (h.child p) (ls.length + 1 + ds.length + 1) = cs ++ c :: e :: ds := by
    rcases hp.kids with ⟨hnil, -⟩ | ⟨hlen, hslots⟩
    · simp at hnil
    · simp only [List.length_append, List.length_cons] at hlen hslots
      refine ⟨by omega, ?_⟩
      convert hslots using 2
      omega
  have hitem : ∀ k < ls.length + rs.length, (Btree.closeSlot h p ls.length).item p k =
      if k < ls.length then h.item p k else h.item p (k + 1) := by
    intro k hk
    simp [Btree.closeSlot, Heap.item_copyChildren (by omega : k < 7), hcount]
    grind
  have hchild : ∀ k < ls.length + 1 + ds.length, (Btree.closeSlot h p ls.length).child p k =
      if k < ls.length + 1 then h.child p k else h.child p (k + 1) := by
    intro k hk
    simp [Btree.closeSlot, Heap.child_copyItems hfit, hcount]
    grind
  refine ⟨hp.ne_zero, by simp [Btree.closeSlot, hcount], by simp; omega, ?_,
    .inr ⟨by simp; omega, ?_⟩⟩
  · have hold : slots (h.item p) (ls.length + rs.length + 1) = ls ++ x :: rs := by
      rw [← hlen]
      exact hp.items
    rw [List.length_append, slots_erase (f := h.item p) (i := ls.length) (by omega)
      (fun k hk => by rw [hitem k (by omega), if_pos hk])
      (fun k hk hkn => by rw [hitem k hkn, if_neg (by omega)]), hold]
    simp
  · have hlen' : (cs ++ c :: ds).length = ls.length + 1 + ds.length := by simp; omega
    rw [hlen', slots_erase (f := h.child p) (i := ls.length + 1) (by omega)
      (fun k hk => by rw [hchild k (by omega), if_pos hk])
      (fun k hk hkn => by rw [hchild k hkn, if_neg (by omega)]), hslots, ← hcs]
    have hcut : cs ++ c :: e :: ds = (cs ++ [c]) ++ e :: ds := by simp
    rw [hcut, List.take_left' (by simp), List.drop_append]
    simp

end Merge

/-! ## two adjacent children -/

section Window

variable {p a b : Nat} {ls : List (Tree Nat Item (d + 1) × Item)}
  {rs : List (Item × Tree Nat Item (d + 1))} {ka kb ka' kb' : List Item} {k k' : Item}
  {ta tb ta' tb' : List (Tree Nat Item d)}

theorem labels_pair_perm :
    (p :: [node a ka ta, node b kb tb].flatMap labels).Perm
      ([p, a, b] ++ (ta ++ tb).flatMap labels) := by
  simp

theorem plug_pair {u v : Tree Nat Item d} {ls : List (Tree Nat Item d × Item)}
    {rs : List (Item × Tree Nat Item d)} : plug p ls u ((k, v) :: rs) =
      node p (ls.map Prod.snd ++ k :: rs.map Prod.fst)
        (ls.map Prod.fst ++ [u, v] ++ rs.map Prod.snd) := by
  simp [plug]

theorem kids_pair_ne {u v c : Tree Nat Item d} {ls : List (Tree Nat Item d × Item)}
    {rs : List (Item × Tree Nat Item d)} : (plug p ls u ((k, v) :: rs)).kids ≠ [c] := by
  intro hone
  have hlen := congrArg List.length hone
  simp at hlen
  omega

theorem toList_pair {u v : Tree Nat Item d} {ls : List (Tree Nat Item d × Item)}
    {rs : List (Item × Tree Nat Item d)} : (plug p ls u ((k, v) :: rs)).toList =
      before ls ++ (u.toList ++ k :: v.toList) ++ after rs := by
  simp [toList_plug, after_cons]

/-- The blocks of a node and of two adjacent children are in use, and different. -/
theorem Built.pair (hb : Built h (plug p ls (node a ka ta) ((k, node b kb tb) :: rs))) :
    ([p, a, b] ++ (ta ++ tb).flatMap labels).Nodup ∧
      ∀ q ∈ [p, a, b] ++ (ta ++ tb).flatMap labels, q ∈ h.live := by
  rw [plug_pair] at hb
  refine ⟨?_, fun q hq => ?_⟩
  · have hnodup := labels_perm.nodup_iff.mp hb.nodup
    exact labels_pair_perm.nodup_iff.mp (List.nodup_append.mp hnodup).1
  · exact hb.live q (labels_perm.mem_iff.mpr
      (List.mem_append_left _ (labels_pair_perm.mem_iff.mpr hq)))

/-- A change of a node and two adjacent children leaves what is below these. -/
theorem Built.stores_below (hb : Built h (plug p ls (node a ka ta) ((k, node b kb tb) :: rs)))
    (hw : ∀ q, q ∉ [p, a, b] → h'.word q = h.word q) : ∀ u ∈ ta ++ tb, Stores (At h') u := by
  intro u hu
  have hdisj := (List.nodup_append.mp hb.pair.1).2.2
  obtain ⟨-, -, ha, hrs⟩ := stores_plug.mp hb.stores
  have hold : Stores (At h) u := by
    rcases List.mem_append.mp hu with hu | hu
    · exact (stores_node.mp ha).2.2 u hu
    · exact (stores_node.mp (hrs _ List.mem_cons_self)).2.2 u hu
  exact Stores.congr hold fun q hq => hw q fun hmem =>
    hdisj q hmem q (List.mem_flatMap.mpr ⟨u, hu, hq⟩) rfl

/-- **Rotation** moves the cut between two adjacent children. -/
theorem Built.rotated (hb : Built h (plug p ls (node a ka ta) ((k, node b kb tb) :: rs)))
    (hedit : Edits [p, a, b] h h')
    (hp : At h' p (ls.map Prod.snd ++ k' :: rs.map Prod.fst)
      (ls.map (fun l => l.1.label) ++ a :: b :: rs.map fun r => r.2.label))
    (hat : At h' a ka' (ta'.map label)) (hbt : At h' b kb' (tb'.map label))
    (hkids : ta' ++ tb' = ta ++ tb) (hitems : ka' ++ k' :: kb' = ka ++ k :: kb)
    (harity : d = 0 ∨ ta'.length = ka'.length + 1 ∧ tb'.length = kb'.length + 1) :
    let t := plug p ls (node a ka ta) ((k, node b kb tb) :: rs)
    let t' := plug p ls (node a ka' ta') ((k', node b kb' tb') :: rs)
    Built h' t' ∧ Local t.labels t'.labels h h' ∧ t'.toList = t.toList := by
  intro t t'
  obtain ⟨hnodup, hlive⟩ := hb.pair
  have hbelow := hb.stores_below hedit.word
  have hlocal : Local (p :: [node a ka ta, node b kb tb].flatMap labels)
      (p :: [node a ka' ta', node b kb' tb'].flatMap labels) h h' := by
    refine (hedit.local fun q hq => hlive q (List.mem_append_left _ hq)).context
      (fun q hq => hlive q (List.mem_append_right _ hq))
      (fun q hq hmem => (List.nodup_append.mp hnodup).2.2 q hmem q hq rfl)
      (fun q => labels_pair_perm.mem_iff.trans List.mem_append) fun q => ?_
    rw [labels_pair_perm.mem_iff, List.mem_append, hkids]
  have holda : d = 0 ∨ ta.length = ka.length + 1 :=
    (stores_node.mp (stores_plug.mp hb.stores).2.2.1).2.1
  have hlist : t'.toList = t.toList := by
    have hjoin : (node a (ka ++ k :: kb) (ta ++ tb)).toList =
        (node a ka ta).toList ++ k :: (node b kb tb).toList := toList_join holda
    have hjoin' : (node a (ka' ++ k' :: kb') (ta' ++ tb')).toList =
        (node a ka' ta').toList ++ k' :: (node b kb' tb').toList :=
      toList_join (harity.imp_right fun h => h.1)
    rw [hitems, hkids, hjoin] at hjoin'
    rw [toList_pair, toList_pair, hjoin']
  rw [plug_pair] at hb
  have hwindow := hb.window hlocal (by simpa [Function.comp_def] using hp) (by simp; omega)
    (fun u hu => ?_) ?_
  · rw [← plug_pair, ← plug_pair] at hwindow
    exact ⟨hwindow.1, hwindow.2, hlist⟩
  · simp only [List.mem_cons, List.not_mem_nil, or_false] at hu
    rcases hu with rfl | rfl
    · exact stores_node.mpr ⟨hat, harity.imp_right fun h => h.1, fun u hu =>
        hbelow u (hkids ▸ List.mem_append_left _ hu)⟩
    · exact stores_node.mpr ⟨hbt, harity.imp_right fun h => h.2, fun u hu =>
        hbelow u (hkids ▸ List.mem_append_right _ hu)⟩
  · rw [labels_pair_perm.nodup_iff, hkids]
    exact hnodup

/-- **Merging** removes the cut between two adjacent children. -/
theorem Built.merged (hb : Built h (plug p ls (node a ka ta) ((k, node b kb tb) :: rs)))
    (hedit : Edits [p, a] (h.deallocate b) h')
    (hp : At h' p (ls.map Prod.snd ++ rs.map Prod.fst)
      (ls.map (fun l => l.1.label) ++ a :: rs.map fun r => r.2.label))
    (hat : At h' a (ka ++ k :: kb) ((ta ++ tb).map label)) :
    let t := plug p ls (node a ka ta) ((k, node b kb tb) :: rs)
    let t' := plug p ls (node a (ka ++ k :: kb) (ta ++ tb)) rs
    Built h' t' ∧ Local t.labels t'.labels h h' ∧ t'.toList = t.toList := by
  intro t t'
  obtain ⟨hnodup, hlive⟩ := hb.pair
  obtain ⟨hpab, -, hdisj⟩ := List.nodup_append.mp hnodup
  have hbelow := hb.stores_below fun q hq => hedit.word q fun hmem => hq (by simp_all)
  have hlocal : Local (p :: [node a ka ta, node b kb tb].flatMap labels)
      (p :: [node a (ka ++ k :: kb) (ta ++ tb)].flatMap labels) h h' := by
    have hgive : Local [p, a, b] [p, a] h h' := by
      refine hedit.local_deallocate (fun q hq => hq) (fun q => ?_) ?_
        fun q hq => hlive q (List.mem_append_left _ hq)
      · simp only [List.mem_cons, List.not_mem_nil, or_false]
        tauto
      · simp only [List.nodup_cons, List.mem_cons, List.not_mem_nil, or_false, not_or] at hpab ⊢
        exact ⟨Ne.symm hpab.1.2, Ne.symm hpab.2.1⟩
    refine hgive.context (fun q hq => hlive q (List.mem_append_right _ hq))
      (fun q hq hmem => hdisj q hmem q hq rfl)
      (fun q => labels_pair_perm.mem_iff.trans List.mem_append) fun q => ?_
    simp only [List.flatMap_cons, List.flatMap_nil, List.append_nil, labels_node, List.mem_cons,
      List.not_mem_nil, or_false]
    tauto
  obtain ⟨-, -, hsa, hrs⟩ := stores_plug.mp hb.stores
  have hta := (stores_node.mp hsa).2.1
  have hsb : Stores (At h) (node b kb tb) := hrs _ List.mem_cons_self
  have htb := (stores_node.mp hsb).2.1
  have hlist : t'.toList = t.toList := by
    have hjoin : (node a (ka ++ k :: kb) (ta ++ tb)).toList =
        (node a ka ta).toList ++ k :: (node b kb tb).toList := toList_join hta
    rw [toList_pair, toList_plug, hjoin]
  have hform : t' = node p (ls.map Prod.snd ++ rs.map Prod.fst)
      (ls.map Prod.fst ++ [node a (ka ++ k :: kb) (ta ++ tb)] ++ rs.map Prod.snd) := by
    simp [t', plug]
  rw [plug_pair] at hb
  have hwindow := hb.window hlocal (by simpa [Function.comp_def] using hp) (by simp; omega)
    (fun u hu => ?_) ?_
  · rw [← plug_pair, ← hform] at hwindow
    exact ⟨hwindow.1, hwindow.2, hlist⟩
  · rw [List.mem_singleton.mp hu]
    exact stores_node.mpr ⟨hat, by simp; omega, hbelow⟩
  · refine List.Nodup.sublist ?_ hnodup
    simp

end Window

/-! ## `rebalance` -/

/-- What is left of the tree whose root is at `p` when `merge` looks at the root: without items
it gives way to its child. -/
def settle (root : Nat) (h : Heap) (p : Nat) : Btree :=
  if h.count p = 0 ∧ p = root ∧ h.child p 0 ≠ 0 then ⟨h.deallocate root, h.child p 0⟩ else ⟨h, root⟩

theorem settle_of_count {root p : Nat} (hp : h.count p ≠ 0) : settle root h p = ⟨h, root⟩ :=
  if_neg fun hc => hp hc.1

theorem settle_of_ne {root p : Nat} (hp : p ≠ root) : settle root h p = ⟨h, root⟩ :=
  if_neg fun hc => hp hc.2.1

/-- Only the first item may have the key 0. -/
def ZeroFirst (xs : List Item) : Prop := xs.Pairwise fun _ y => y.key ≠ 0

/-- `h'` has `t'`, which holds the items of `t` in the same order and one item less in its root at
most, where `h` has `t`. -/
structure Rebalanced (h h' : Heap) (t t' : Tree Nat Item (d + 1)) : Prop where
  built : Built h' t'
  loc : Local t.labels t'.labels h h'
  label : t'.label = t.label
  toList : t'.toList = t.toList
  count : t.items.length ≤ t'.items.length + 1
  solo : ∀ c, t'.kids = [c] → c.items ≠ []

/-- Every node below the root has as many items as its bound says, but the child in focus may
lack one. -/
def Nearly (lo : Nat → Nat) (ls : List (Tree Nat Item d × Item)) (u : Tree Nat Item d)
    (rs : List (Item × Tree Nat Item d)) : Prop :=
  (∀ l ∈ ls, lo l.1.label ≤ l.1.items.length ∧ Each (fun q n => lo q ≤ n) l.1) ∧
    (lo u.label ≤ u.items.length + 1 ∧ Each (fun q n => lo q ≤ n) u) ∧
    ∀ r ∈ rs, lo r.2.label ≤ r.2.items.length ∧ Each (fun q n => lo q ≤ n) r.2

section Bounds

variable {lo : Nat → Nat} {p a b : Nat} {ls : List (Tree Nat Item (d + 1) × Item)}
  {rs : List (Item × Tree Nat Item (d + 1))} {ka kb : List Item} {k : Item}
  {ta tb : List (Tree Nat Item d)}

/-- The bounds hold beside two adjacent children, and below them. -/
def Around (lo : Nat → Nat) (ls : List (Tree Nat Item (d + 1) × Item)) (ws : List (Tree Nat Item d))
    (rs : List (Item × Tree Nat Item (d + 1))) : Prop :=
  (∀ l ∈ ls, lo l.1.label ≤ l.1.items.length ∧ Each (fun q n => lo q ≤ n) l.1) ∧
    (∀ w ∈ ws, lo w.label ≤ w.items.length ∧ Each (fun q n => lo q ≤ n) w) ∧
    ∀ r ∈ rs, lo r.2.label ≤ r.2.items.length ∧ Each (fun q n => lo q ≤ n) r.2

theorem each_merged : Each (fun q n => lo q ≤ n) (plug p ls (node a ka ta) rs) ↔
    Around lo ls ta rs ∧ lo a ≤ ka.length := by
  simp only [each_plug, each_node, Around, label_node, items_node]
  tauto

theorem each_pair :
    Each (fun q n => lo q ≤ n) (plug p ls (node a ka ta) ((k, node b kb tb) :: rs)) ↔
      Around lo ls (ta ++ tb) rs ∧ lo a ≤ ka.length ∧ lo b ≤ kb.length := by
  simp only [each_plug, each_node, Around, label_node, items_node, List.forall_mem_cons,
    List.forall_mem_append]
  tauto

theorem nearly_left : Nearly lo ls (node a ka ta) ((k, node b kb tb) :: rs) ↔
    Around lo ls (ta ++ tb) rs ∧ lo a ≤ ka.length + 1 ∧ lo b ≤ kb.length := by
  simp only [Nearly, each_node, Around, label_node, items_node, List.forall_mem_cons,
    List.forall_mem_append]
  tauto

theorem nearly_right : Nearly lo (ls ++ [(node a ka ta, k)]) (node b kb tb) rs ↔
    Around lo ls (ta ++ tb) rs ∧ lo a ≤ ka.length ∧ lo b ≤ kb.length + 1 := by
  simp only [Nearly, each_node, Around, label_node, items_node, List.forall_mem_append,
    List.forall_mem_singleton]
  tauto

end Bounds

section Rebalance

variable {root p a b : Nat} {ls : List (Tree Nat Item (d + 1) × Item)}
  {rs : List (Item × Tree Nat Item (d + 1))} {ka kb : List Item} {k : Item}
  {ta tb : List (Tree Nat Item d)}

/-- What `rebalance` does to the deficient child `u`. -/
def Rebalances (root : Nat) (h : Heap) (p : Nat) (ls : List (Tree Nat Item (d + 1) × Item))
    (u : Tree Nat Item (d + 1)) (rs : List (Item × Tree Nat Item (d + 1)))
    (s : Option Btree) : Prop :=
  ∃ h', ∃ t' : Tree Nat Item (d + 2), s = some (settle root h' p) ∧
    Rebalanced h h' (plug p ls u rs) t' ∧
    ∀ lo : Nat → Nat, (∀ q, lo q ≤ btreeMin) → Nearly lo ls u rs → Each (fun q n => lo q ≤ n) t'

/-- A node and two adjacent children, each on its own. -/
theorem Built.at_pair (hb : Built h (plug p ls (node a ka ta) ((k, node b kb tb) :: rs))) :
    At h p (ls.map Prod.snd ++ k :: rs.map Prod.fst)
      (ls.map (fun l => l.1.label) ++ a :: b :: rs.map fun r => r.2.label) ∧
    At h a ka (ta.map label) ∧ At h b kb (tb.map label) ∧
    (d = 0 ∨ ta.length = ka.length + 1 ∧ tb.length = kb.length + 1) ∧
    p ≠ a ∧ p ≠ b ∧ a ≠ b := by
  obtain ⟨hp, -, hsa, hrs⟩ := stores_plug.mp hb.stores
  have hsb : Stores (At h) (node b kb tb) := hrs _ List.mem_cons_self
  have hta := (stores_node.mp hsa).2.1
  have htb := (stores_node.mp hsb).2.1
  have hne := (List.nodup_append.mp hb.pair.1).1
  simp only [List.nodup_cons, List.mem_cons, List.not_mem_nil, or_false, not_or] at hne
  exact ⟨by simpa using hp, (stores_node.mp hsa).1, (stores_node.mp hsb).1, by omega, hne.1.1,
    hne.1.2, hne.2.1⟩

theorem kids_nil_iff (harity : d = 0 ∨ ta.length = ka.length + 1 ∧ tb.length = kb.length + 1) :
    ta.map label = [] ↔ tb.map label = [] := by
  rcases harity with rfl | ⟨hta, htb⟩
  · have hnone (ts : List (Tree Nat Item 0)) : ts = [] := kids_leaf (node 0 [] ts)
    simp [hnone ta, hnone tb]
  · rw [← List.length_eq_zero_iff, ← List.length_eq_zero_iff, List.length_map, List.length_map]
    omega

theorem items_sublist (harity : d = 0 ∨ ta.length = ka.length + 1 ∧ tb.length = kb.length + 1) :
    kb.Sublist (node b kb tb).toList := by
  rw [toList_node]
  refine sublist_weave ?_
  rcases harity with rfl | ⟨-, htb⟩
  · exact .inl (by simp [show tb = [] from kids_leaf (node b kb tb)])
  · exact .inr (by simpa using htb)

/-- The right sibling can spare an item. -/
theorem rebalances_right (hb : Built h (plug p ls (node a ka ta) ((k, node b kb tb) :: rs)))
    (ha : ka.length < btreeMin) (hkb : btreeMin < kb.length) :
    Rebalances root h p ls (node a ka ta) ((k, node b kb tb) :: rs)
      (some ⟨rotateRight h b a p ls.length, root⟩) := by
  obtain ⟨hp, hata, hatb, harity, hpa, hpb, hab⟩ := hb.at_pair
  obtain ⟨y, ys, rfl⟩ := List.exists_cons_of_length_pos (Nat.zero_lt_of_lt hkb)
  obtain ⟨hp', hata', hatb'⟩ := hp.rotateRight hata hatb hpa hpb hab
    (ha.trans (by decide)) (kids_nil_iff harity)
  rw [List.length_map] at hp' hata' hatb'
  obtain ⟨hbuilt, hlocal, hlist⟩ := hb.rotated edits_rotateRight hp'
    (by simpa [List.map_take] using hata' : At _ a (ka ++ [k]) ((ta ++ tb.take 1).map label))
    (by simpa [List.map_drop] using hatb' : At _ b ys ((tb.drop 1).map label))
    (by rw [List.append_assoc, List.take_append_drop]) (by simp) (by simp at *; omega)
  refine ⟨_, _, ?_, ⟨hbuilt, hlocal, rfl, hlist, by simp, fun c hc => ?_⟩, fun lo hlo hnear => ?_⟩
  · rw [settle_of_count (by rw [hp'.count]; simp)]
  · exact absurd hc kids_pair_ne
  · obtain ⟨haround, hloa, hlob⟩ := nearly_left.mp hnear
    refine each_pair.mpr ⟨?_, by simpa using hloa, (hlo b).trans (Nat.le_of_lt_succ hkb)⟩
    rwa [List.append_assoc, List.take_append_drop]

/-- The left sibling can spare an item. -/
theorem rebalances_left (hb : Built h (plug p (ls ++ [(node a ka ta, k)]) (node b kb tb) rs))
    (hzero : ZeroFirst (plug p (ls ++ [(node a ka ta, k)]) (node b kb tb) rs).toList)
    (hkb : kb.length < btreeMin) (hka : btreeMin < ka.length) :
    Rebalances root h p (ls ++ [(node a ka ta, k)]) (node b kb tb) rs
      (some ⟨rotateLeft h a b p (ls.length + 1), root⟩) := by
  rw [← plug_shift] at hb hzero
  obtain ⟨hp, hata, hatb, harity, hpa, hpb, hab⟩ := hb.at_pair
  obtain ⟨ks, y, rfl⟩ := (List.eq_nil_or_concat' ka).resolve_left
    (List.ne_nil_of_length_pos (Nat.zero_lt_of_lt hka))
  have hkey : ∀ z ∈ kb.head?, z.key ≠ 0 := by
    have hsub : (k :: (node b kb tb).toList).Sublist
        (plug p ls (node a (ks ++ [y]) ta) ((k, node b kb tb) :: rs)).toList := by
      rw [toList_pair]
      exact ((List.sublist_append_right _ _).trans (List.sublist_append_right _ _)).trans
        (List.sublist_append_left _ _)
    have hbelow := (List.pairwise_cons.mp (List.Pairwise.sublist hsub hzero)).1
    exact fun z hz => hbelow z ((items_sublist harity).subset (List.mem_of_mem_head? hz))
  obtain ⟨hp', hata', hatb'⟩ := hp.rotateLeft hata hatb hpa hpb hab
    (hkb.trans (by decide)) hkey (kids_nil_iff harity)
  rw [List.length_map] at hp' hata' hatb'
  obtain ⟨hbuilt, hlocal, hlist⟩ := hb.rotated edits_rotateLeft hp'
    (by simpa [List.map_take] using hata' : At _ a ks ((ta.take (ks.length + 1)).map label))
    (by simpa [List.map_drop] using hatb' :
      At _ b (k :: kb) ((ta.drop (ks.length + 1) ++ tb).map label))
    (by rw [← List.append_assoc, List.take_append_drop]) (by simp) (by simp at *; omega)
  refine ⟨_, _, ?_, ⟨hbuilt, plug_shift ▸ hlocal, rfl, plug_shift ▸ hlist, by simp, fun c hc => ?_⟩,
    fun lo hlo hnear => ?_⟩
  · rw [settle_of_count (by rw [hp'.count]; simp)]
  · exact absurd hc kids_pair_ne
  · obtain ⟨haround, hloa, hlob⟩ := nearly_right.mp hnear
    refine each_pair.mpr ⟨?_, (hlo a).trans ?_, by simpa using hlob⟩
    · rwa [← List.append_assoc, List.take_append_drop]
    · rw [List.length_append, List.length_singleton] at hka
      exact Nat.le_of_lt_succ hka

/-- `merge` of two adjacent children. -/
theorem merge_spec (root : Nat) (hb : Built h (plug p ls (node a ka ta) ((k, node b kb tb) :: rs)))
    (hlen : ka.length + 1 + kb.length ≤ 7) :
    ∃ h', merge ⟨h, root⟩ b a p ls.length = some (settle root h' p) ∧
      Rebalanced h h' (plug p ls (node a ka ta) ((k, node b kb tb) :: rs))
        (plug p ls (node a (ka ++ k :: kb) (ta ++ tb)) rs) := by
  obtain ⟨hp, hata, hatb, harity, hpa, hpb, hab⟩ := hb.at_pair
  have hsep : h.item p (ls.map Prod.snd).length = k := hp.item_eq
  rw [List.length_map] at hsep
  have happend : Edits [a] (h.deallocate b) ((appendNode h b a k).deallocate b) :=
    edits_appendNode.deallocate
  have hedit : Edits [p, a] (h.deallocate b) (mergeNodes h b a p ls.length) := by
    rw [mergeNodes, hsep]
    exact (happend.mono (by simp)).trans (edits_closeSlot.mono (by simp))
  have hp' : At (mergeNodes h b a p ls.length) p (ls.map Prod.snd ++ rs.map Prod.fst)
      (ls.map (fun l => l.1.label) ++ a :: rs.map fun r => r.2.label) := by
    have hp₁ : At ((appendNode h b a k).deallocate b) p (ls.map Prod.snd ++ k :: rs.map Prod.fst)
        (ls.map (fun l => l.1.label) ++ a :: b :: rs.map fun r => r.2.label) :=
      hp.congr (happend.word p (by simpa using hpa))
    have hclosed := hp₁.closeSlot (by simp)
    rwa [List.length_map, ← hsep] at hclosed
  have hata' : At (mergeNodes h b a p ls.length) a (ka ++ k :: kb) ((ta ++ tb).map label) := by
    have happended := hata.appendNode (x := k) hatb hab hlen (kids_nil_iff harity)
    rw [← List.map_append] at happended
    refine happended.congr ?_
    rw [mergeNodes, hsep]
    exact edits_closeSlot.word a (by simpa using Ne.symm hpa)
  obtain ⟨hbuilt, hlocal, hlist⟩ := hb.merged hedit hp' hata'
  refine ⟨mergeNodes h b a p ls.length, ?_, hbuilt, hlocal, rfl, hlist, by simp; omega,
    fun c hc => ?_⟩
  · rw [merge_eq hata.ne_zero, settle]
    by_cases hcount : (mergeNodes h b a p ls.length).count p = 0
    · -- the merged node is the only child
      have hnil : ls = [] ∧ rs = [] := by simpa [hcount] using hp'.count.symm
      obtain ⟨rfl, rfl⟩ := hnil
      rw [hp'.child_zero]
      simp [hata.ne_zero]
    · simp [hcount]
  · have hmem : node a (ka ++ k :: kb) (ta ++ tb) ∈ [c] := by simp [← hc]
    rw [← List.mem_singleton.mp hmem]
    simp

/-- The right sibling goes into the deficient child. -/
theorem rebalances_merge_right (hb : Built h (plug p ls (node a ka ta) ((k, node b kb tb) :: rs)))
    (hka : ka.length < btreeMin) (hkb : kb.length ≤ btreeMin) :
    Rebalances root h p ls (node a ka ta) ((k, node b kb tb) :: rs)
      (merge ⟨h, root⟩ b a p ls.length) := by
  have hlen : ka.length + 1 + kb.length ≤ 7 := by simp only [btreeMin, btreeOrder] at *; omega
  obtain ⟨h', hrun, hreb⟩ := merge_spec root hb hlen
  refine ⟨h', _, hrun, hreb, fun lo hlo hnear => ?_⟩
  obtain ⟨haround, hloa, hlob⟩ := nearly_left.mp hnear
  exact each_merged.mpr ⟨haround, by simp; omega⟩

/-- The deficient child goes into its left sibling. -/
theorem rebalances_merge_left (hb : Built h (plug p (ls ++ [(node a ka ta, k)]) (node b kb tb) rs))
    (hka : ka.length ≤ btreeMin) (hkb : kb.length < btreeMin) :
    Rebalances root h p (ls ++ [(node a ka ta, k)]) (node b kb tb) rs
      (merge ⟨h, root⟩ b a p ls.length) := by
  have hlen : ka.length + 1 + kb.length ≤ 7 := by simp only [btreeMin, btreeOrder] at *; omega
  rw [← plug_shift] at hb
  obtain ⟨h', hrun, hreb⟩ := merge_spec root hb hlen
  rw [plug_shift] at hreb
  refine ⟨h', _, hrun, hreb, fun lo hlo hnear => ?_⟩
  obtain ⟨haround, hloa, hlob⟩ := nearly_right.mp hnear
  exact each_merged.mpr ⟨haround, by simp; omega⟩

theorem rebalance_eq {n pos rsb lsb : Nat}
    (hrsb : (if pos ≥ h.count p then 0 else h.child p (pos + 1)) = rsb)
    (hlsb : (if pos = 0 then 0 else h.child p (pos - 1)) = lsb) : rebalance ⟨h, root⟩ n p pos =
      if rsb ≠ 0 ∧ h.count rsb > btreeMin then some ⟨rotateRight h rsb n p pos, root⟩
      else if lsb ≠ 0 ∧ h.count lsb > btreeMin then some ⟨rotateLeft h lsb n p pos, root⟩
      else if rsb = 0 then merge ⟨h, root⟩ n lsb p (pos - 1) else merge ⟨h, root⟩ rsb n p pos := by
  simp only [rebalance, hrsb, hlsb]

/-- **`rebalance`** of a deficient child returns, and leaves the items in order. -/
theorem rebalance_spec {u : Tree Nat Item (d + 1)} (hb : Built h (plug p ls u rs))
    (hu : u.items.length < btreeMin) (hne : ls ≠ [] ∨ rs ≠ [])
    (hzero : ZeroFirst (plug p ls u rs).toList) :
    Rebalances root h p ls u rs (rebalance ⟨h, root⟩ u.label p ls.length) := by
  obtain ⟨c, kc, tc, rfl⟩ : ∃ c kc tc, u = node c kc tc := ⟨_, _, _, (eta u).symm⟩
  obtain ⟨hp, hls, -, hrs⟩ := stores_plug.mp hb.stores
  have hcount : h.count p = ls.length + rs.length := by rw [hp.count]; simp
  -- the siblings
  have hrsb : (if ls.length ≥ h.count p then 0 else h.child p (ls.length + 1)) =
      (rs.head?.map fun r => r.2.label).getD 0 := by
    cases rs with
    | nil => simp [hcount]
    | cons r rs =>
        have hlt : ¬ls.length ≥ h.count p := by simp [hcount]
        have hchild : h.child p (ls.map (fun l => l.1.label) ++ [c]).length = r.2.label :=
          At.child_eq (by simpa using hp)
        simpa [hlt] using hchild
  have hlsb : (if ls.length = 0 then 0 else h.child p (ls.length - 1)) =
      (ls.getLast?.map fun l => l.1.label).getD 0 := by
    rcases List.eq_nil_or_concat' ls with rfl | ⟨ls, l, rfl⟩
    · simp
    · have hchild : h.child p (ls.map fun l => l.1.label).length = l.1.label :=
        At.child_eq (by simpa using hp)
      simpa using hchild
  have hleft (a : Nat) (ka : List Item) (ta : List (Tree Nat Item d)) (k : Item)
      (hmem : (node a ka ta, k) ∈ ls) : a ≠ 0 ∧ h.count a = ka.length :=
    ⟨(stores_node.mp (hls _ hmem)).1.ne_zero, (stores_node.mp (hls _ hmem)).1.count⟩
  rw [rebalance_eq hrsb hlsb, label_node]
  cases rs with
  | nil =>
      obtain ⟨ls, ⟨v, k⟩, rfl⟩ := (List.eq_nil_or_concat' ls).resolve_left (by simpa using hne)
      obtain ⟨a, ka, ta, rfl⟩ : ∃ a ka ta, v = node a ka ta := ⟨_, _, _, (eta v).symm⟩
      obtain ⟨ha, hka⟩ := hleft a ka ta k (by simp)
      by_cases hv : btreeMin < ka.length
      · simpa [ha, hka, hv] using rebalances_left hb hzero hu hv
      · simpa [ha, hka, hv] using rebalances_merge_left hb (Nat.not_lt.mp hv) hu
  | cons r rs =>
      obtain ⟨k, w⟩ := r
      obtain ⟨b, kb, tb, rfl⟩ : ∃ b kb tb, w = node b kb tb := ⟨_, _, _, (eta w).symm⟩
      have hsb : Stores (At h) (node b kb tb) := hrs _ List.mem_cons_self
      have hb0 := (stores_node.mp hsb).1.ne_zero
      have hkb := (stores_node.mp hsb).1.count
      by_cases hw : btreeMin < kb.length
      · simpa [hb0, hkb, hw] using rebalances_right hb hu hw
      · have hmerge : Rebalances root h p ls (node c kc tc) ((k, node b kb tb) :: rs)
            (merge ⟨h, root⟩ b c p ls.length) := rebalances_merge_right hb hu (Nat.not_lt.mp hw)
        rcases List.eq_nil_or_concat' ls with rfl | ⟨ls, ⟨v, k'⟩, rfl⟩
        · simpa [hb0, hkb, hw] using hmerge
        · obtain ⟨a, ka, ta, rfl⟩ : ∃ a ka ta, v = node a ka ta := ⟨_, _, _, (eta v).symm⟩
          obtain ⟨ha, hka⟩ := hleft a ka ta k' (by simp)
          by_cases hv : btreeMin < ka.length
          · simpa [hb0, hkb, hw, ha, hka, hv] using rebalances_left hb hzero hu hv
          · simpa [hb0, hkb, hw, ha, hka, hv] using hmerge

end Rebalance

end Cxlbuf.Btree
