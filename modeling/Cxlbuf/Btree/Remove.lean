import Cxlbuf.Btree.Siblings

/-!
# Cxlbuf.Btree.Remove

Removal.  An item of an inner node is replaced by the first item behind it,
which is taken out of the leftmost leaf of the next child.

That leaf is rebalanced, but the nodes between it and the child are not: only
the path that the recursion itself went down is.  So a node below may keep one
item less than the minimum when the successor is from further down than a child
(`far`), and the bound that the tree is kept to is lowered by one each time
(`TakesFar`).
-/

namespace Cxlbuf.Btree

open Slots Multiway Multiway.Tree ByKey

variable {h h' h'' : Heap} {d root : Nat}

/-- `h'` has `t'`, with one item less in its root at most, where `h` has `t`. -/
structure Shrunk (h h' : Heap) (t t' : Tree Nat Item (d + 1)) : Prop where
  built : Built h' t'
  loc : Local t.labels t'.labels h h'
  label : t'.label = t.label
  count : t.items.length ≤ t'.items.length + 1
  solo : ∀ c, t'.kids = [c] → c.items ≠ []

/-- One bound for every node, but one node may lack an item. -/
def floor (lo : Nat) (w : Option Nat) (q : Nat) : Nat := if w = some q then lo - 1 else lo

theorem floor_le {lo q : Nat} {w : Option Nat} : floor lo w q ≤ lo := by
  rw [floor]
  split
  · exact Nat.sub_le lo 1
  · exact Nat.le_refl lo

/-- The lower bounds hold where one bound for every node does. -/
theorem floor_weaken {lo : Nat} {w : Option Nat} {t : Tree Nat Item d}
    (ht : lo ≤ t.items.length ∧ Each (fun _ n => lo ≤ n) t) :
    floor lo w t.label ≤ t.items.length ∧ Each (fun q n => floor lo w q ≤ n) t :=
  ⟨floor_le.trans ht.1, ht.2.imp fun _ _ _ hn => floor_le.trans hn⟩

@[simp] theorem floor_none {lo q : Nat} : floor lo none q = lo := by simp [floor]

/-! ## removal from a leaf -/

section Leaf

variable {p : Nat} {ls rs : List Item} {x : Item}

theorem edits_removeFromLeaf {pos : Nat} : Edits [p] h (removeFromLeaf h p pos) :=
  (Edits.ite (edits_writeItem (by simp)) (edits_copyItems (by simp))).trans
    (edits_setCount (by simp))

theorem At.removeFromLeaf (hat : At h p (ls ++ x :: rs) []) :
    At (removeFromLeaf h p ls.length) p (ls ++ rs) [] := by
  have hle := hat.le
  have hlen : (ls ++ x :: rs).length = ls.length + rs.length + 1 := by simp; omega
  have hcount : h.count p = ls.length + rs.length + 1 := by rw [hat.count, hlen]
  have hleaf : ∀ i < 8, h.child p i = 0 := by simpa using hat.kids
  have hold : slots (h.item p) (ls.length + rs.length + 1) = ls ++ x :: rs := by
    rw [← hlen]
    exact hat.items
  have hcount' : (Btree.removeFromLeaf h p ls.length).count p = ls.length + rs.length := by
    simp [Btree.removeFromLeaf, apply_ite (Heap.count · p), Heap.clear, hcount]
  have hitem : ∀ k < ls.length + rs.length, (Btree.removeFromLeaf h p ls.length).item p k =
      if k < ls.length then h.item p k else h.item p (k + 1) := by
    intro k hk
    by_cases hlast : ls.length + rs.length + 1 = 1 ∨ ls.length = 8 - 2
    · have hk' : k < ls.length := by omega
      simp only [Btree.removeFromLeaf, btreeOrder, hcount, if_pos hlast, Heap.item_setCount,
        Heap.clear, Heap.item_writeItem, true_and, if_neg (Nat.ne_of_lt hk'), if_pos hk']
    · simp only [Btree.removeFromLeaf, btreeOrder, hcount, if_neg hlast, Heap.item_setCount,
        Heap.item_copyItems, true_and]
      grind
  have hchild : ∀ k < 8, (Btree.removeFromLeaf h p ls.length).child p k = 0 := by
    intro k hk
    have hfit : ls.length + (ls.length + rs.length + 1 - ls.length) ≤ 7 := by omega
    have hpos : ls.length < 7 := by omega
    by_cases hlast : ls.length + rs.length + 1 = 1 ∨ ls.length = 8 - 2
    · simp only [Btree.removeFromLeaf, btreeOrder, hcount, if_pos hlast, Heap.child_setCount,
        Heap.clear, Heap.child_writeItem hpos, hleaf k hk]
    · simp only [Btree.removeFromLeaf, btreeOrder, hcount, if_neg hlast, Heap.child_setCount,
        Heap.child_copyItems hfit, hleaf k hk]
  refine ⟨hat.ne_zero, by simpa using hcount', by simp; omega, ?_, .inl ⟨rfl, hchild⟩⟩
  rw [List.length_append, slots_erase (f := h.item p) (i := ls.length) (by omega)
    (fun k hk => by rw [hitem k (by omega), if_pos hk])
    (fun k hk hkn => by rw [hitem k hkn, if_neg (by omega)]), hold]
  simp

/-- An item is taken out of a leaf. -/
theorem shrunk_leaf (hb : Built h (node p (ls ++ x :: rs) ([] : List (Tree Nat Item 0)))) :
    Shrunk h (removeFromLeaf h p ls.length) (node p (ls ++ x :: rs) ([] : List (Tree Nat Item 0)))
      (node p (ls ++ rs) []) := by
  have hat := (stores_node.mp hb.stores).1.removeFromLeaf
  have hedit : Edits [p] h (removeFromLeaf h p ls.length) := edits_removeFromLeaf
  have hlocal := hedit.local (by simpa using hb.live p)
  exact ⟨⟨stores_node.mpr ⟨hat, .inl rfl, by simp⟩, by simp, hlocal.live⟩, hlocal, rfl,
    by simp; omega, by simp⟩

end Leaf

/-! ## the way up -/

section Up

variable {p : Nat} {ls : List (Tree Nat Item (d + 1) × Item)} {u u' : Tree Nat Item (d + 1)}
  {rs : List (Item × Tree Nat Item (d + 1))}

/-- What is done to a child is done to its parent. -/
theorem Shrunk.replace (hs : Shrunk h h' u u') (hb : Built h (plug p ls u rs))
    (hne : ls ≠ [] ∨ rs ≠ []) : Shrunk h h' (plug p ls u rs) (plug p ls u' rs) := by
  obtain ⟨hbuilt, hlocal⟩ := hb.replace hs.built hs.loc hs.label
  refine ⟨hbuilt, hlocal, rfl, by simp, fun c hc => ?_⟩
  have hlen := congrArg List.length hc
  simp only [kids_plug, List.length_append, List.length_map, List.length_cons,
    List.length_nil] at hlen
  rw [← List.length_pos_iff, ← List.length_pos_iff] at hne
  omega

theorem Shrunk.rebalanced {t : Tree Nat Item (d + 2)}
    (hs : Shrunk h h' (plug p ls u rs) (plug p ls u' rs))
    (hr : Rebalanced h' h'' (plug p ls u' rs) t) : Shrunk h h'' (plug p ls u rs) t :=
  ⟨hr.built, hs.loc.trans hr.loc, hr.label, hr.count, hr.solo⟩

/-- **A child that lost an item is rebalanced if it is deficient.** -/
theorem Shrunk.up (hs : Shrunk h h' u u') (hb : Built h (plug p ls u rs)) (hne : ls ≠ [] ∨ rs ≠ [])
    (hzero : ZeroFirst (plug p ls u' rs).toList) (root : Nat) :
    ∃ h'', ∃ t : Tree Nat Item (d + 2),
      (if h'.count u.label < btreeMin then rebalance ⟨h', root⟩ u.label p ls.length
        else some ⟨h', root⟩) = some (settle root h'' p) ∧
      Shrunk h h'' (plug p ls u rs) t ∧ t.toList = (plug p ls u' rs).toList ∧
      ∀ lo : Nat → Nat, (∀ q, lo q ≤ btreeMin) → Nearly lo ls u' rs →
        Each (fun q n => lo q ≤ n) t := by
  have hstep := hs.replace hb hne
  have hcount : h'.count u.label = u'.items.length := by
    rw [← hs.label]
    exact (stores_node.mp hs.built.stores).1.count
  by_cases hlow : u'.items.length < btreeMin
  · obtain ⟨h'', t, hrun, hreb, hocc⟩ : Rebalances root h' p ls u' rs _ :=
      rebalance_spec hstep.built hlow hne hzero
    rw [hcount, if_pos hlow, ← hs.label]
    exact ⟨h'', t, hrun, hstep.rebalanced hreb, hreb.toList, hocc⟩
  · have hp : h'.count p ≠ 0 := by
      have hp := (stores_plug.mp hstep.built.stores).1.count
      rw [← List.length_pos_iff, ← List.length_pos_iff] at hne
      rw [hp, List.length_append, List.length_map, List.length_map]
      omega
    rw [hcount, if_neg hlow]
    refine ⟨h', plug p ls u' rs, by rw [settle_of_count hp], hstep, rfl, fun lo hlo hnear => ?_⟩
    obtain ⟨hls, ⟨-, hu⟩, hrs⟩ := hnear
    exact each_plug.mpr ⟨hls, ⟨(hlo _).trans (Nat.not_lt.mp hlow), hu⟩, hrs⟩

end Up

/-! ## the first item of a subtree -/

section First

/-- The leftmost leaf. -/
def leftLeaf : {d : Nat} → Tree Nat Item d → Nat
  | _ + 1, t =>
    match t.2.2 with
    | [] => t.1
    | c :: _ => leftLeaf c

/-- Its parent, which for a leaf is `par`. -/
def leftParent : {d : Nat} → Nat → Tree Nat Item d → Nat
  | _ + 1, par, t =>
    match t.2.2 with
    | [] => par
    | c :: _ => leftParent t.1 c

theorem leftLeaf_leaf {p : Nat} {ks : List Item} :
    leftLeaf (node p ks ([] : List (Tree Nat Item d))) = p := rfl

theorem leftParent_leaf {p par : Nat} {ks : List Item} :
    leftParent par (node p ks ([] : List (Tree Nat Item d))) = par := rfl

theorem leftLeaf_plug {p : Nat} {c : Tree Nat Item d} {rs : List (Item × Tree Nat Item d)} :
    leftLeaf (plug p [] c rs) = leftLeaf c := rfl

theorem leftParent_plug {p par : Nat} {c : Tree Nat Item d} {rs : List (Item × Tree Nat Item d)} :
    leftParent par (plug p [] c rs) = leftParent p c := rfl

/-- A node with children, with the first of them in focus. -/
theorem exists_plug_first {t : Tree Nat Item (d + 2)} (ht : Stores (At h) t) :
    ∃ c rs, t = plug t.label [] c rs := by
  have harity := (stores_node.mp ht).2.1.resolve_left (by omega)
  obtain ⟨ls, c, rs, hplug, hls, -⟩ := exists_plug (p := t.label) harity (Nat.zero_le _)
  obtain rfl := List.length_eq_zero_iff.mp hls
  exact ⟨c, rs, hplug⟩

/-- A node with children has a first one. -/
theorem Stores.child_ne_zero {t : Tree Nat Item (d + 2)} (ht : Stores (At h) t) :
    h.child t.label 0 ≠ 0 := by
  obtain ⟨c, rs, hplug⟩ := exists_plug_first ht
  rw [hplug] at ht
  obtain ⟨hat, -, hc, -⟩ := stores_plug.mp ht
  have hchild : h.child t.label 0 = c.label := hat.child_zero
  rw [hchild]
  exact Stores.label_ne_zero hc

theorem getLeftmostLeaf_spec : {d : Nat} → {t : Tree Nat Item (d + 1)} → {fuel par : Nat} →
    Stores (At h) t → d < fuel →
    getLeftmostLeaf h fuel t.label par = some (leftLeaf t, leftParent par t)
  | 0, t, fuel + 1, par, ht, _ => by
    obtain ⟨p, ks, rfl⟩ := exists_leaf t
    have hat := (stores_node.mp ht).1
    have hleaf : ∀ i < 8, h.child p i = 0 := by simpa using hat.kids
    simp [getLeftmostLeaf, hat.ne_zero, hleaf, leftLeaf_leaf, leftParent_leaf]
  | d + 1, t, fuel + 1, par, ht, hfuel => by
    obtain ⟨c, rs, hplug⟩ := exists_plug_first ht
    rw [hplug] at ht ⊢
    obtain ⟨hat, -, hc, -⟩ := stores_plug.mp ht
    have hchild : h.child t.label 0 = c.label := hat.child_zero
    rw [label_plug, getLeftmostLeaf, if_neg hat.ne_zero, hchild, if_neg (Stores.label_ne_zero hc),
      getLeftmostLeaf_spec hc (by omega), leftLeaf_plug, leftParent_plug]

/-- The rest of `remove_from_node`, once the first item of the leaf `lm` has been copied. -/
def dropFirst (root : Nat) (h : Heap) (lm lp pos : Nat) : Option Btree :=
  let h := removeFromLeaf h lm 0
  if h.count lm < btreeMin then rebalance ⟨h, root⟩ lm lp pos else some ⟨h, root⟩

/-- **The first item of a subtree** is taken out of its leaf.  Only the leaf is rebalanced, so that
its parent may be left with one item less. -/
theorem dropFirst_spec : {d : Nat} → {v : Tree Nat Item (d + 2)} → (par : Nat) → Built h v →
    root ∉ v.labels → Each (fun _ n => 1 ≤ n) v → v.items ≠ [] → ZeroFirst v.toList →
    ∃ h' v', dropFirst root h (leftLeaf v) (leftParent par v) 0 = some ⟨h', root⟩ ∧
      Shrunk h h' v v' ∧ v.toList = h.item (leftLeaf v) 0 :: v'.toList ∧
      leftParent par v ∈ v.labels ∧
      ∀ lo ≤ btreeMin, Each (fun _ n => lo ≤ n) v → lo ≤ v.items.length →
        floor lo (some (leftParent par v)) v'.label ≤ v'.items.length ∧
          Each (fun q n => floor lo (some (leftParent par v)) q ≤ n) v'
  | 0, v, par, hb, hroot, hocc, hne, hzero => by
    obtain ⟨c, rs, hplug⟩ := exists_plug_first hb.stores
    generalize v.label = p at hplug
    subst hplug
    have hrs : ([] : List (Tree Nat Item 1 × Item)) ≠ [] ∨ rs ≠ [] := .inr (by simpa using hne)
    obtain ⟨q, ks, rfl⟩ := exists_leaf c
    obtain ⟨x, xs, rfl⟩ := List.exists_cons_of_length_pos (each_plug.mp hocc).2.1.1
    have hc := hb.focus.1
    have hx : h.item q 0 = x := (stores_node.mp hc.stores).1.item_zero
    have hleaf : Shrunk h (removeFromLeaf h q 0) (node q (x :: xs) ([] : List (Tree Nat Item 0)))
        (node q xs []) :=
      shrunk_leaf (show Built h (node q ([] ++ x :: xs) ([] : List (Tree Nat Item 0))) from hc)
    have hlist : (plug p [] (node q (x :: xs) ([] : List (Tree Nat Item 0))) rs).toList =
        x :: (plug p [] (node q xs ([] : List (Tree Nat Item 0))) rs).toList := by
      simp [toList_plug]
    obtain ⟨h', v', hrun, hs, hv', hup⟩ :=
      hleaf.up hb hrs (List.pairwise_cons.mp (hlist ▸ hzero)).2 root
    rw [settle_of_ne fun heq => hroot (by simp [labels_plug, heq])] at hrun
    refine ⟨h', v', hrun, hs, ?_, by simp [leftParent_plug, leftParent_leaf, labels_plug],
      fun lo hlo heach hv => ⟨?_, ?_⟩⟩
    · rw [hv', hlist, leftLeaf_plug, leftLeaf_leaf, hx]
    · have hcount := hs.count
      rw [hs.label, leftParent_plug, leftParent_leaf, label_plug, floor, if_pos rfl]
      omega
    · obtain ⟨-, ⟨hloq, -⟩, hothers⟩ := each_plug.mp heach
      have hall := hup (fun _ => lo) (fun _ => hlo) ⟨by simp, ⟨hloq, by simp [each_node]⟩, hothers⟩
      exact hall.imp fun q _ n hn => floor_le.trans hn
  | d + 1, v, par, hb, hroot, hocc, hne, hzero => by
    obtain ⟨c, rs, hplug⟩ := exists_plug_first hb.stores
    generalize v.label = p at hplug
    subst hplug
    have hrs : ([] : List (Tree Nat Item (d + 2) × Item)) ≠ [] ∨ rs ≠ [] :=
      .inr (by simpa using hne)
    obtain ⟨-, ⟨hcne, hcocc⟩, -⟩ := each_plug.mp hocc
    rw [toList_plug, before_nil, List.nil_append] at hzero
    have hcroot : root ∉ c.labels := fun hmem => hroot (by simp [labels_plug, hmem])
    obtain ⟨h', c', hrun, hs, hlist, hmem, hfloor⟩ := dropFirst_spec p hb.focus.1 hcroot hcocc
      (List.ne_nil_of_length_pos hcne) (List.pairwise_append.mp hzero).1
    refine ⟨h', plug p [] c' rs, hrun, hs.replace hb hrs, ?_, ?_, fun lo hlo heach hv => ⟨?_, ?_⟩⟩
    · rw [toList_plug, toList_plug, hlist, leftLeaf_plug]
      simp
    · rw [leftParent_plug, labels_plug]
      simp [hmem]
    · exact floor_le.trans (by simpa using hv)
    · obtain ⟨-, ⟨hloc, hceach⟩, hothers⟩ := each_plug.mp heach
      exact each_plug.mpr ⟨by simp, hfloor lo hlo hceach hloc,
        fun r hr => floor_weaken (hothers r hr)⟩

end First

/-! ## `remove_from_node` -/

section Node

variable {p : Nat} {k x : Item}

/-- The item between two children is replaced. -/
theorem Built.setSeparator {ls : List (Tree Nat Item d × Item)} {u v : Tree Nat Item d}
    {rs : List (Item × Tree Nat Item d)} (hb : Built h (plug p ls u ((k, v) :: rs))) :
    Built (h.writeItem p ls.length x) (plug p ls u ((x, v) :: rs)) ∧
      Local (plug p ls u ((k, v) :: rs)).labels (plug p ls u ((x, v) :: rs)).labels h
        (h.writeItem p ls.length x) := by
  have hp := hb.focus.2.1
  have hat : At h p (ls.map Prod.snd ++ k :: rs.map Prod.fst)
      (ls.map (fun l => l.1.label) ++ u.label :: v.label :: rs.map fun r => r.2.label) := by
    simpa using (stores_plug.mp hb.stores).1
  have hle := hat.le
  rw [List.length_append, List.length_cons, List.length_map] at hle
  have hat' : At (h.writeItem p ls.length x) p (ls.map Prod.snd ++ x :: rs.map Prod.fst) _ :=
    hat.replaceItem (by simp) (by simp) fun i => Heap.child_writeItem (by omega)
  have hedit : Edits [p] h (h.writeItem p ls.length x) := edits_writeItem (by simp)
  have hlocal : Local (p :: ([] : List (Tree Nat Item d)).flatMap labels)
      (p :: ([] : List (Tree Nat Item d)).flatMap labels) h (h.writeItem p ls.length x) :=
    hedit.local (by simpa using hp)
  have hform (y : Item) : plug p ls u ((y, v) :: rs) =
      node p (ls.map Prod.snd ++ y :: rs.map Prod.fst)
        (ls.map Prod.fst ++ u :: v :: rs.map Prod.snd ++ [] ++ []) := by simp [plug]
  rw [hform] at hb
  rw [hform, hform]
  exact hb.window hlocal (by simpa [Function.comp_def] using hat') (by simp; omega) (by simp)
    (by simp)

theorem Shrunk.of_local {t t₁ t₂ : Tree Nat Item (d + 1)} (hs : Shrunk h' h'' t₁ t₂)
    (hl : Local t.labels t₁.labels h h') (hlabel : t₁.label = t.label)
    (hcount : t.items.length = t₁.items.length) : Shrunk h h'' t t₂ :=
  ⟨hs.built, hl.trans hs.loc, hs.label.trans hlabel, hcount ▸ hs.count, hs.solo⟩

theorem leftLeaf_mem : {d : Nat} → {t : Tree Nat Item (d + 1)} → Stores (At h) t →
    leftLeaf t ∈ t.labels
  | 0, t, _ => by
    obtain ⟨p, ks, rfl⟩ := exists_leaf t
    simp [leftLeaf_leaf]
  | d + 1, t, ht => by
    obtain ⟨c, rs, hplug⟩ := exists_plug_first ht
    rw [hplug] at ht ⊢
    have hmem := leftLeaf_mem (stores_plug.mp ht).2.2.1
    simp [leftLeaf_plug, labels_plug, hmem]

theorem removeFromNode_inner {fuel pos lm lp : Nat} (hchild : h.child p 0 ≠ 0)
    (hrun : getLeftmostLeaf h fuel (h.child p (pos + 1)) p = some (lm, lp)) :
    removeFromNode fuel ⟨h, root⟩ p pos =
      dropFirst root (h.writeItem p pos (h.item lm 0)) lm lp (if lp = p then pos + 1 else 0) := by
  simp [removeFromNode, hchild, hrun, dropFirst]

/-- **`remove_from_node`** on a node with children puts the successor in the place of the item. -/
theorem removeFromNode_spec {ls : List (Tree Nat Item (d + 1) × Item)} {u v : Tree Nat Item (d + 1)}
    {rs : List (Item × Tree Nat Item (d + 1))} {fuel : Nat}
    (hb : Built h (plug p ls u ((k, v) :: rs)))
    (hroot : root ∈ (plug p ls u ((k, v) :: rs)).labels → root = p)
    (hocc : Each (fun _ n => 1 ≤ n) (plug p ls u ((k, v) :: rs)))
    (hzero : ZeroFirst (plug p ls u ((k, v) :: rs)).toList) (hfuel : d < fuel) :
    ∃ h' t', removeFromNode fuel ⟨h, root⟩ p ls.length = some (settle root h' p) ∧
      Shrunk h h' (plug p ls u ((k, v) :: rs)) t' ∧
      t'.toList = before ls ++ u.toList ++ (v.toList ++ after rs) ∧
      ∃ w, (w = none ∨ d ≠ 0) ∧ ∀ lo ≤ btreeMin,
        Each (fun _ n => lo ≤ n) (plug p ls u ((k, v) :: rs)) →
        Each (fun q n => floor lo w q ≤ n) t' := by
  have hat : At h p (ls.map Prod.snd ++ k :: rs.map Prod.fst)
      ((ls.map (fun l => l.1.label) ++ [u.label]) ++ v.label :: rs.map fun r => r.2.label) := by
    simpa using (stores_plug.mp hb.stores).1
  have hchild : h.child p (ls.length + 1) = v.label := by simpa using hat.child_eq
  obtain ⟨hvb, -, hpv⟩ := (plug_shift ▸ hb : Built h (plug p (ls ++ [(u, k)]) v rs)).focus
  have hlm : getLeftmostLeaf h fuel (h.child p (ls.length + 1)) p =
      some (leftLeaf v, leftParent p v) := by
    rw [hchild]
    exact getLeftmostLeaf_spec hvb.stores hfuel
  have hinner : h.child p 0 ≠ 0 := Stores.child_ne_zero hb.stores
  rw [removeFromNode_inner hinner hlm]
  generalize hx : h.item (leftLeaf v) 0 = x
  obtain ⟨hb₁, hlocal⟩ := hb.setSeparator (x := x)
  have hitems : (plug p ls u ((k, v) :: rs)).items.length =
      (plug p (ls ++ [(u, x)]) v rs).items.length := by simp
  rw [plug_shift (k := x)] at hb₁ hlocal
  have hbv := hb₁.focus.1
  have hne : ls ++ [(u, x)] ≠ [] ∨ rs ≠ [] := .inl (by simp)
  rw [toList_pair, List.append_assoc] at hzero
  have hzero' : ZeroFirst (before ls ++ u.toList ++ (v.toList ++ after rs)) := by
    refine List.Pairwise.sublist ?_ hzero
    simp
  obtain ⟨⟨hvne, hvocc⟩, -⟩ := List.forall_mem_cons.mp (each_plug.mp hocc).2.2
  cases d with
  | zero =>
      -- the right child is a leaf, and its parent is the node itself
      obtain ⟨b, ks, rfl⟩ := exists_leaf v
      obtain ⟨y, ys, rfl⟩ := List.exists_cons_of_length_pos hvne
      obtain rfl : y = x := (stores_node.mp hvb.stores).1.item_zero.symm.trans hx
      have hleaf : Shrunk (h.writeItem p ls.length y)
          (removeFromLeaf (h.writeItem p ls.length y) b 0)
          (node b (y :: ys) ([] : List (Tree Nat Item 0))) (node b ys []) :=
        shrunk_leaf (show Built _ (node b ([] ++ y :: ys) ([] : List (Tree Nat Item 0))) from hbv)
      have hlist : (plug p (ls ++ [(u, y)]) (node b ys ([] : List (Tree Nat Item 0))) rs).toList =
          before ls ++ u.toList ++
            ((node b (y :: ys) ([] : List (Tree Nat Item 0))).toList ++ after rs) := by
        simp [toList_plug, before_concat]
      obtain ⟨h', t', hrun, hs, ht', hup⟩ := hleaf.up hb₁ hne (hlist ▸ hzero') root
      rw [List.length_append, List.length_singleton] at hrun
      rw [leftLeaf_leaf, leftParent_leaf, if_pos rfl]
      refine ⟨h', t', hrun, hs.of_local hlocal rfl hitems, ht'.trans hlist, none, .inl rfl,
        fun lo hlo heach => ?_⟩
      obtain ⟨hels, heu, hers⟩ := each_plug.mp heach
      obtain ⟨⟨hlob, -⟩, hers⟩ := List.forall_mem_cons.mp hers
      have hall := hup (fun _ => lo) (fun _ => hlo)
        ⟨List.forall_mem_append.mpr ⟨hels, by simpa using heu⟩, ⟨hlob, by simp [each_node]⟩, hers⟩
      simpa using hall
  | succ d =>
      -- the leaf is further down, and its parent is not looked at again
      have hvroot : root ∉ v.labels := fun hmem =>
        hpv (hroot (by simp [labels_plug, hmem]) ▸ hmem)
      have hvzero : ZeroFirst v.toList :=
        (List.pairwise_append.mp (List.pairwise_append.mp hzero').2.1).1
      obtain ⟨h', v', hrun, hs, hvlist, hmem, hfloor⟩ :=
        dropFirst_spec p hbv hvroot hvocc (List.ne_nil_of_length_pos hvne) hvzero
      have hlp : leftParent p v ≠ p := fun heq => hpv (heq ▸ hmem)
      have hll : leftLeaf v ≠ p := fun heq => hpv (heq ▸ leftLeaf_mem hvb.stores)
      have hstep := hs.replace hb₁ hne
      have hcount : h'.count p ≠ 0 := by
        rw [(stores_plug.mp hstep.built.stores).1.count]
        simp
      rw [Heap.item_writeItem, if_neg fun hc => hll hc.1, hx] at hvlist
      rw [if_neg hlp, hrun]
      refine ⟨h', _, by rw [settle_of_count hcount], hstep.of_local hlocal rfl hitems, ?_,
        some (leftParent p v), .inr (Nat.succ_ne_zero d), fun lo hlo heach => ?_⟩
      · simp [toList_plug, before_concat, hvlist]
      · obtain ⟨hels, heu, hers⟩ := each_plug.mp heach
        obtain ⟨⟨hlov, hev⟩, hers⟩ := List.forall_mem_cons.mp hers
        exact each_plug.mpr ⟨List.forall_mem_append.mpr ⟨fun l hl => floor_weaken (hels l hl),
          by simpa using floor_weaken heu⟩, hfloor lo hlo hev hlov,
          fun r hr => floor_weaken (hers r hr)⟩

end Node

/-! ## `remove_item` -/

/-- What `remove_item` does from a node before it looks at the node's own count. -/
def removeIn (key fuel : Nat) (s : Btree) (node : Nat) : Option (Btree × Nat) :=
  match searchSlot s.heap node key with
  | some i =>
    if containsItem s.heap node i key then
      (removeFromNode fuel s node i).map fun s' => (s', (s.heap.item node i).val)
    else removeItem key fuel s (s.heap.child node i) node i
  | none => some (s, 0)

theorem removeItem_succ {key fuel node parent pos : Nat} {s : Btree} (hnode : node ≠ 0) :
    removeItem key (fuel + 1) s node parent pos = (removeIn key fuel s node).bind fun sv =>
      if parent ≠ 0 ∧ sv.1.heap.count node < btreeMin then
        (rebalance sv.1 node parent pos).map fun s' => (s', sv.2)
      else some sv := by
  rw [removeItem, if_neg hnode, removeIn]
  cases searchSlot s.heap node key with
  | none => rfl
  | some i =>
      by_cases hstop : containsItem s.heap node i key
      · simp only [hstop, if_true]
        rfl
      · simp only [hstop]
        rfl

/-- The item with the key is found in a node whose children are not leaves, so that its successor
is taken from a leaf further down. -/
def far (h : Heap) (key : Nat) : Nat → Nat → Bool
  | 0, _ => false
  | fuel + 1, node =>
    match searchSlot h node key with
    | some i =>
      if containsItem h node i key then
        h.child node 0 ≠ 0 ∧ h.child (h.child node (i + 1)) 0 ≠ 0
      else far h key fuel (h.child node i)
    | none => false

/-- What `remove_item` returns for an item. -/
def value (r : Option Item) : Nat := (r.map Item.val).getD 0

theorem settle_of_leaf {p : Nat} (hp : h.child p 0 = 0) : settle root h p = ⟨h, root⟩ :=
  if_neg fun hc => hc.2.2 hp

/-- **The removal from a subtree** returns; it takes out one item with the key, if there is one. -/
theorem removeIn_spec (key : Nat) : {d : Nat} → {t : Tree Nat Item (d + 1)} → {h : Heap} →
    {fuel : Nat} → Built h t → (root ∈ t.labels → root = t.label) → Ordered Item.key t.toList →
    ZeroFirst t.toList → Each (fun _ n => 1 ≤ n) t → (d ≠ 0 → t.items ≠ []) → d ≤ fuel →
    ∃ h' t' r, removeIn key fuel ⟨h, root⟩ t.label = some (settle root h' t.label, value r) ∧
      Shrunk h h' t t' ∧ Removed Item.key key t.toList t'.toList r ∧
      ∃ w, (w = none ∨ far h key (fuel + 1) t.label = true) ∧ ∀ lo ≤ btreeMin,
        Each (fun _ n => lo ≤ n) t → Each (fun q n => floor lo w q ≤ n) t'
  | 0, t, h, fuel, hb, _, hord, _, _, _, _ => by
    obtain ⟨p, ks, rfl⟩ := exists_leaf t
    have hat := (stores_node.mp hb.stores).1
    have hleaf : ∀ i < 8, h.child p i = 0 := by simpa using hat.kids
    rw [toList_node, List.map_nil, weave_nil] at hord
    rcases leaf_cases hat hord key with ⟨ls, x, rs, rfl, hx, hslot, hstop⟩ | ⟨hslot, hks⟩
    · have hs := shrunk_leaf hb
      have hleaf' : (removeFromLeaf h p ls.length).child p 0 = 0 := by
        have hkids := (stores_node.mp hs.built.stores).1.kids
        simp at hkids
        exact hkids 0 (by omega)
      refine ⟨_, _, some x, ?_, hs, .inl ⟨ls, x, rs, by simp, hx, by simp, rfl⟩, none, .inl rfl,
        fun _ _ _ => by simp [each_node]⟩
      rw [label_node, settle_of_leaf hleaf']
      simp [removeIn, hslot, hstop, removeFromNode, hleaf, hat.item_eq, value]
    · refine ⟨h, _, none, ?_, ⟨hb, Edits.refl.local hb.live, rfl, by simp, by simp⟩,
        .inr ⟨by simpa using hks, rfl, rfl⟩, none, .inl rfl, fun _ _ _ => by simp [each_node]⟩
      rw [label_node, settle_of_leaf (hleaf 0 (by omega))]
      simp [removeIn, hslot, value]
  | d + 1, t, h, fuel, hb, hroot, hord, hzero, hocc, hne, hfuel => by
    obtain ⟨p, ks, ts, rfl⟩ := exists_node t
    obtain ⟨ls, u, rs, hplug, hslot, hcases⟩ := inner_cases hb.stores hord key
    replace hne : ls ≠ [] ∨ rs ≠ [] := by
      have hitems := hne (Nat.succ_ne_zero d)
      rw [hplug] at hitems
      by_contra hnil
      simp_all
    rw [hplug] at hb hroot hord hzero hocc ⊢
    rw [label_plug] at hroot ⊢
    have hp := (stores_plug.mp hb.stores).1.ne_zero
    rcases hcases with ⟨k, v, rs, rfl, hk, hstop⟩ | ⟨hstop, hchild, hls, hrs⟩
    · -- at an item of the node
      have hat : At h p (ls.map Prod.snd ++ k :: rs.map Prod.fst)
          ((ls.map (fun l => l.1.label) ++ [u.label]) ++ v.label :: rs.map fun r => r.2.label) := by
        simpa using (stores_plug.mp hb.stores).1
      have hitem : h.item p ls.length = k := by simpa using hat.item_eq
      have hchild : h.child p (ls.length + 1) = v.label := by simpa using hat.child_eq
      have hinner : h.child p 0 ≠ 0 := Stores.child_ne_zero hb.stores
      have hv : Stores (At h) v := (stores_plug.mp hb.stores).2.2.2 (k, v) List.mem_cons_self
      obtain ⟨h', t', hrun, hs, hlist, w, hw, hfloor⟩ :=
        removeFromNode_spec hb hroot hocc hzero (by omega : d < fuel)
      refine ⟨h', t', some k, ?_, hs, .inl ⟨before ls ++ u.toList, k, v.toList ++ after rs, ?_, hk,
        hlist, rfl⟩, w, hw.imp_right fun hd => ?_, hfloor⟩
      · simp [removeIn, hslot, hstop, hrun, hitem, value]
      · simp [toList_pair]
      · obtain ⟨e, rfl⟩ := Nat.exists_eq_succ_of_ne_zero hd
        simp [far, hslot, hstop, hinner, hchild, Stores.child_ne_zero hv]
    · -- in a child
      obtain ⟨f, rfl⟩ := Nat.exists_eq_add_of_le' (by omega : 1 ≤ fuel)
      obtain ⟨hu, -, hpu⟩ := hb.focus
      have huroot : root ∉ u.labels := fun hmem => hpu (hroot (by simp [labels_plug, hmem]) ▸ hmem)
      have hulabel : u.label ≠ root := fun heq => huroot (heq ▸ u.label_mem_labels)
      obtain ⟨hels, ⟨hu1, heu⟩, hers⟩ := each_plug.mp hocc
      rw [toList_plug] at hord hzero
      obtain ⟨h₁, u', r, hrun, hs, hremoved, w, hw, hfloor⟩ :=
        removeIn_spec key hu (fun hmem => absurd hmem huroot) hord.left.right
          (List.pairwise_append.mp (List.pairwise_append.mp hzero).1).2.1 heu
          (fun _ => List.ne_nil_of_length_pos hu1) (by omega : d ≤ f)
      rw [settle_of_ne hulabel] at hrun
      have hremoved' := hremoved.context hls hrs
      rw [← toList_plug (p := p), ← toList_plug (p := p)] at hremoved'
      obtain ⟨h₂, t₂, hup, hs₂, hlist, hocc₂⟩ := hs.up hb hne
        (List.Pairwise.sublist hremoved'.sublist (toList_plug ▸ hzero)) root
      refine ⟨h₂, t₂, r, ?_, hs₂, hlist ▸ hremoved', w, ?_, fun lo hlo heach => ?_⟩
      · have hgo : removeIn key (f + 1) ⟨h, root⟩ p =
            removeItem key (f + 1) ⟨h, root⟩ u.label p ls.length := by
          simp [removeIn, hslot, hstop, hchild]
        rw [hgo, removeItem_succ (Stores.label_ne_zero hu.stores), hrun, Option.bind_some]
        by_cases hlow : h₁.count u.label < btreeMin
        · rw [if_pos hlow] at hup
          simp [hp, hlow, hup]
        · rw [if_neg hlow, Option.some_inj] at hup
          simp [hlow, hup]
      · simpa [far, hslot, hstop, hchild] using hw
      · obtain ⟨hels, heu, hers⟩ := each_plug.mp heach
        exact hocc₂ _ (fun q => floor_le.trans hlo) ⟨fun l hl => floor_weaken (hels l hl),
          ⟨floor_le.trans (heu.1.trans hs.count), hfloor lo hlo heu.2⟩,
          fun r hr => floor_weaken (hers r hr)⟩

/-! ## `remove` -/

/-- The removal of `key` takes the successor from a leaf that is not a child of the item's node. -/
def TakesFar (s : Btree) (key : Nat) : Prop := far s.heap key s.heap.depthBound s.root = true

/-- The root gives way to its only child. -/
theorem represents_child {p : Nat} {c : Tree Nat Item (d + 1)} (hb : Built h (node p [] [c]))
    (hclean : h.Clean) (hord : Ordered Item.key (node p [] [c]).toList) (hc : c.items ≠ []) :
    Represents ⟨h.deallocate p, c.label⟩ c := by
  have hnodup := hb.nodup
  simp only [labels_node, List.flatMap_cons, List.flatMap_nil, List.append_nil,
    List.nodup_cons] at hnodup
  have hgive : Local (node p [] [c]).labels c.labels h (h.deallocate p) := by
    have hrefl : Edits [] (h.deallocate p) (h.deallocate p) := .refl
    exact hrefl.local_deallocate (by simp) (by simp) hnodup.1 hb.live
  have hstores : Stores (At h) c := (stores_node.mp hb.stores).2.2 c (by simp)
  exact ⟨rfl, ⟨Stores.congr hstores fun _ _ => rfl, hnodup.2, hgive.live⟩, hgive.clean hclean,
    by simpa using hord, fun _ => hc⟩

/-- **`remove`** returns, and takes out one item with the key, if there is one.  A node may be
left with less than the minimum only if the successor is taken from far. -/
theorem Represents.remove {s : Btree} {t : Tree Nat Item (d + 1)} (hs : Represents s t)
    (hzero : ZeroFirst t.toList) (hocc : Each (fun _ n => 1 ≤ n) t) (key : Nat) :
    ∃ s' r, s.remove key = some (s', value r) ∧ ∃ e, ∃ t' : Tree Nat Item (e + 1),
      Represents s' t' ∧ Removed Item.key key t.toList t'.toList r ∧
      ∃ w, (w = none ∨ s.TakesFar key) ∧ ∀ lo ≤ btreeMin, Each (fun _ n => lo ≤ n) t →
        Each (fun q n => floor lo w q ≤ n) t' := by
  obtain ⟨h, root⟩ := s
  obtain rfl : root = t.label := hs.root
  have hheight := hs.built.height_le
  simp only at hheight
  obtain ⟨h', t', r, hrun, hshr, hremoved, w, hw, hfloor⟩ := removeIn_spec key hs.built
    (fun _ => rfl) hs.ordered hzero hocc hs.inner (by omega : d ≤ h.live.length + 1)
  have hremove : Btree.remove ⟨h, t.label⟩ key = some (settle t.label h' t.label, value r) := by
    rw [Btree.remove, Heap.depthBound, removeItem_succ (Stores.label_ne_zero hs.built.stores), hrun]
    simp
  have hclean := hshr.loc.clean hs.clean
  have hord := hremoved.ordered hs.ordered
  have hat : At h' t'.label t'.items (t'.kids.map label) := (stores_node.mp hshr.built.stores).1
  rw [hshr.label] at hat
  refine ⟨_, r, hremove, ?_⟩
  by_cases hsettle : h'.count t.label = 0 ∧ h'.child t.label 0 ≠ 0
  · -- the root was merged away
    have hnil : t'.items = [] := by simpa [hsettle.1] using hat.count.symm
    cases d with
    | zero =>
        have hleaf : ∀ i < 8, h'.child t.label i = 0 := by simpa [kids_leaf] using hat.kids
        exact absurd (hleaf 0 (by omega)) hsettle.2
    | succ e =>
        have hlen : t'.kids.length = t'.items.length + 1 :=
          (stores_node.mp hshr.built.stores).2.1.resolve_left (by omega)
        obtain ⟨c, hc⟩ := List.length_eq_one_iff.mp (by rw [hlen, hnil]; rfl)
        have hform : t' = node t.label [] [c] := by rw [← eta t', hnil, hc, hshr.label]
        have hsolo := hshr.solo c hc
        have hbuilt := hshr.built
        subst hform
        have hchild : h'.child t.label 0 = c.label := hat.child_zero
        rw [settle, if_pos ⟨hsettle.1, rfl, hsettle.2⟩, hchild]
        refine ⟨e, c, represents_child hbuilt hclean hord hsolo, by simpa using hremoved, w, hw,
          fun lo hlo heach => ?_⟩
        exact (hfloor lo hlo heach c (by simp [node])).2
  · rw [settle, if_neg fun hc => hsettle ⟨hc.1, hc.2.2⟩]
    refine ⟨d, t', ⟨hshr.label.symm, hshr.built, hclean, hord, fun hd hnil => ?_⟩, hremoved, w, hw,
      hfloor⟩
    obtain ⟨e, rfl⟩ := Nat.exists_eq_succ_of_ne_zero hd
    have hchild := Stores.child_ne_zero hshr.built.stores
    rw [hshr.label] at hchild
    exact hsettle ⟨by simp [hat.count, hnil], hchild⟩

end Cxlbuf.Btree
