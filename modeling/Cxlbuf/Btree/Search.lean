import Cxlbuf.Btree.Insert

/-!
# Cxlbuf.Btree.Search

The functions that follow a key or visit all items, and `clear`.

The loop over a node stops at an item with the key, or at the child that can
contain it: the first slot whose item is not smaller.  `get`, `lookup` and
`remove_item` share it.

`foreach` takes an item with the key 0 for an empty slot, and `clear_node` does
not enter the last child of a node.
-/

namespace Cxlbuf.Btree

open Slots Multiway Multiway.Tree ByKey

variable {h : Heap} {d : Nat}

/-! ## the position of a key in a node -/

section Slot

variable {p : Nat} {ls rs : List Item} {cs : List Nat} {r : Item} {key : Nat}

/-- The loop passes the items with smaller keys. -/
theorem not_stops_before (hat : At h p (ls ++ rs) cs) (hls : ∀ l ∈ ls, l.key < key) {j : Nat}
    (hj : j < ls.length) :
    containsItem h p j key = false ∧ childCanContainItem h p j key = false := by
  have hlt := hls _ (hat.item_mem hj)
  have hne : j ≠ h.count p := by rw [hat.count, List.length_append]; omega
  constructor
  · simp [containsItem, hne, Nat.ne_of_lt hlt]
  · simp [childCanContainItem, hne, Nat.not_lt.mpr (Nat.le_of_lt hlt)]

/-- It stops at an item with the key. -/
theorem searchSlot_of_eq (hat : At h p (ls ++ r :: rs) cs) (hls : ∀ l ∈ ls, l.key < key)
    (hr : r.key = key) :
    searchSlot h p key = some ls.length ∧ containsItem h p ls.length key = true := by
  have hcount := hat.count
  rw [List.length_append, List.length_cons] at hcount
  have hstop : containsItem h p ls.length key = true := by
    have hne : ls.length ≠ h.count p := by omega
    simp [containsItem, hne, hat.item_eq, hr]
  refine ⟨?_, hstop⟩
  rw [searchSlot, List.find?_range_eq_some]
  refine ⟨by simp [hstop], List.mem_range.mpr (by omega), fun j hj => ?_⟩
  simp [not_stops_before hat hls hj]

/-- Else it stops at the child between smaller and larger keys. -/
theorem searchSlot_of_child (hat : At h p (ls ++ rs) cs) (hls : ∀ l ∈ ls, l.key < key)
    (hrs : ∀ r ∈ rs.head?, key < r.key) (hchild : h.child p ls.length ≠ 0) :
    searchSlot h p key = some ls.length ∧ containsItem h p ls.length key = false := by
  have hcount := hat.count
  rw [List.length_append] at hcount
  have hstop : containsItem h p ls.length key = false ∧
      childCanContainItem h p ls.length key = true := by
    cases rs with
    | nil =>
        have heq : ls.length = h.count p := by simp [hcount]
        simp [containsItem, childCanContainItem, hchild, ← heq]
    | cons r rs =>
        have hgt := hrs r rfl
        simp [containsItem, childCanContainItem, hat.item_eq, hgt, hchild, Nat.ne_of_gt hgt]
  refine ⟨?_, hstop.1⟩
  rw [searchSlot, List.find?_range_eq_some]
  refine ⟨by simp [hstop], List.mem_range.mpr (by omega), fun j hj => ?_⟩
  simp [not_stops_before hat hls hj]

/-- In a leaf it does not stop unless the key is there. -/
theorem searchSlot_of_leaf {ks : List Item} (hat : At h p ks []) (hks : ∀ k ∈ ks, k.key ≠ key) :
    searchSlot h p key = none := by
  have hleaf : ∀ i < 8, h.child p i = 0 := by simpa using hat.kids
  rw [searchSlot, List.find?_eq_none]
  intro i hi
  have hcount := hat.count
  have hle := hat.le
  rw [List.mem_range] at hi
  have hchild := hleaf i (by omega)
  by_cases heq : i = h.count p
  · simp [containsItem, childCanContainItem, heq ▸ hchild, heq]
  · have hall : At h p (ks ++ []) [] := by simpa using hat
    have hmem := hall.item_mem (j := i) (by omega)
    simp [containsItem, childCanContainItem, hchild, heq, hks _ hmem]

end Slot

/-- The items outside the child where a search goes on have other keys. -/
theorem ne_of_outside {ls : List (Tree Nat Item d × Item)} {t : Tree Nat Item d}
    {rs : List (Item × Tree Nat Item d)} {key : Nat}
    (hord : Ordered Item.key (before ls ++ t.toList ++ after rs)) (hls : ∀ l ∈ ls, l.2.key < key)
    (hrs : ∀ r ∈ rs.head?, key < r.1.key) :
    (∀ x ∈ before ls, x.key ≠ key) ∧ ∀ x ∈ after rs, x.key ≠ key := by
  refine ⟨fun x hx => ?_, fun x hx => ?_⟩
  · obtain ⟨l, hl, hle⟩ := exists_le_of_mem_before hord.left.left hx
    have hlt := hls l hl
    omega
  · obtain ⟨r, hr, hle⟩ := exists_le_of_mem_after hord.right hx
    have hlt := hrs r hr
    omega

/-- A key in a leaf. -/
theorem leaf_cases {p : Nat} {ks : List Item} (hat : At h p ks []) (hord : Ordered Item.key ks)
    (key : Nat) :
    (∃ ls r rs, ks = ls ++ r :: rs ∧ r.key = key ∧ searchSlot h p key = some ls.length ∧
      containsItem h p ls.length key = true) ∨
    (searchSlot h p key = none ∧ ∀ x ∈ ks, x.key ≠ key) := by
  by_cases hkey : ∀ y ∈ ks, y.key ≠ key
  · exact .inr ⟨searchSlot_of_leaf hat hkey, hkey⟩
  · obtain ⟨ls, rs, rfl, hls, hrs⟩ := exists_cut (fun y : Item => decide (y.key < key)) ks
    simp only [decide_eq_true_eq, Nat.not_lt] at hls hrs
    simp only [not_forall, ne_eq, not_not] at hkey
    obtain ⟨y, hy, hykey⟩ := hkey
    have hyrs : y ∈ rs := (List.mem_append.mp hy).resolve_left fun hmem =>
      Nat.ne_of_lt (hls y hmem) hykey
    obtain ⟨r, rs, rfl⟩ := List.exists_cons_of_ne_nil (List.ne_nil_of_mem hyrs)
    have hr : r.key = key := by
      refine Nat.le_antisymm ?_ (hrs r rfl)
      rcases List.mem_cons.mp hyrs with rfl | hmem
      · exact Nat.le_of_eq hykey
      · exact hykey ▸ hord.right.le_of_mem_right hmem
    exact .inl ⟨ls, r, rs, rfl, hr, searchSlot_of_eq hat hls hr⟩

/-- A key in a node with children: at an item of it, or else in one child. -/
theorem inner_cases {p : Nat} {ks : List Item} {ts : List (Tree Nat Item (d + 1))}
    (ht : Stores (At h) (node p ks ts)) (hord : Ordered Item.key (node p ks ts).toList)
    (key : Nat) :
    ∃ ls u rs, node p ks ts = plug p ls u rs ∧ searchSlot h p key = some ls.length ∧
      ((∃ r v rs', rs = (r, v) :: rs' ∧ r.key = key ∧ containsItem h p ls.length key = true) ∨
        (containsItem h p ls.length key = false ∧ h.child p ls.length = u.label ∧
          (∀ x ∈ before ls, x.key ≠ key) ∧ ∀ x ∈ after rs, x.key ≠ key)) := by
  have harity := (stores_node.mp ht).2.1.resolve_left (by omega)
  obtain ⟨ls, u, rs, hplug, hls, hrs⟩ := exists_plug_cut (p := p)
    (fun y : Item => decide (y.key < key)) harity
  simp only [decide_eq_true_eq, Nat.not_lt] at hls hrs
  refine ⟨ls, u, rs, hplug, ?_⟩
  rw [hplug] at ht hord
  obtain ⟨hat, -, hu, -⟩ := stores_plug.mp ht
  have hitems : ∀ k ∈ ls.map Prod.snd, k.key < key := List.forall_mem_map.mpr hls
  by_cases hkey : ∃ r ∈ rs.head?, r.1.key = key
  · obtain ⟨⟨r, v⟩, hr, hrkey⟩ := hkey
    obtain ⟨rs', rfl⟩ : ∃ rs', rs = (r, v) :: rs' := by
      cases rs with
      | nil => simp at hr
      | cons r' rs' => exact ⟨rs', by simp_all⟩
    obtain ⟨hslot, hstop⟩ := searchSlot_of_eq (r := r) hat hitems hrkey
    rw [List.length_map] at hslot hstop
    exact ⟨hslot, .inl ⟨r, v, rs', rfl, hrkey, hstop⟩⟩
  · replace hrs : ∀ r ∈ rs.head?, key < r.1.key := fun r hr =>
      Nat.lt_of_le_of_ne (hrs r hr) fun heq => hkey ⟨r, hr, heq.symm⟩
    have hchild : h.child p (ls.map Prod.snd).length = u.label := by simpa using hat.child_eq
    obtain ⟨hslot, hstop⟩ := searchSlot_of_child hat hitems (by simpa using hrs)
      (hchild ▸ Stores.label_ne_zero hu)
    rw [List.length_map] at hslot hstop hchild
    exact ⟨hslot, .inr ⟨hstop, hchild, ne_of_outside (toList_plug ▸ hord) hls hrs⟩⟩

/-! ## `get` and `lookup` -/

/-- What a search finds. -/
def Found (hit : Item → Nat) (miss key : Nat) (xs : List Item) (v : Nat) : Prop :=
  (∃ x ∈ xs, x.key = key ∧ v = hit x) ∨ ((∀ x ∈ xs, x.key ≠ key) ∧ v = miss)

theorem Found.context {hit : Item → Nat} {miss key v : Nat} {as xs bs : List Item}
    (hv : Found hit miss key xs v) (has : ∀ x ∈ as, x.key ≠ key) (hbs : ∀ x ∈ bs, x.key ≠ key) :
    Found hit miss key (as ++ xs ++ bs) v := by
  rcases hv with ⟨x, hx, hkey, rfl⟩ | ⟨hxs, rfl⟩
  · exact .inl ⟨x, by simp [hx], hkey, rfl⟩
  · refine .inr ⟨fun x hx => ?_, rfl⟩
    simp only [List.mem_append] at hx
    rcases hx with (hx | hx) | hx
    · exact has x hx
    · exact hxs x hx
    · exact hbs x hx

/-- **The search** ends, with an item of the key if there is one. -/
theorem search_spec {hit : Item → Nat} {miss key : Nat} : {d : Nat} → {t : Tree Nat Item (d + 1)} →
    {fuel : Nat} → Stores (At h) t → Ordered Item.key t.toList → d < fuel →
    ∃ v, searchInNode hit miss h key fuel t.label = some v ∧ Found hit miss key t.toList v
  | 0, t, fuel + 1, ht, hord, _ => by
    obtain ⟨p, ks, rfl⟩ := exists_leaf t
    have hat := (stores_node.mp ht).1
    rw [toList_node, List.map_nil, weave_nil] at hord ⊢
    rcases leaf_cases hat hord key with ⟨ls, r, rs, rfl, hr, hslot, hstop⟩ | ⟨hslot, hks⟩
    · refine ⟨hit r, ?_, .inl ⟨r, by simp, hr, rfl⟩⟩
      simp [searchInNode, hslot, hstop, hat.item_eq]
    · exact ⟨miss, by simp [searchInNode, hslot], .inr ⟨hks, rfl⟩⟩
  | d + 1, t, fuel + 1, ht, hord, hfuel => by
    obtain ⟨p, ks, ts, rfl⟩ := exists_node t
    obtain ⟨ls, u, rs, hplug, hslot, hcases⟩ := inner_cases ht hord key
    rw [hplug] at ht hord ⊢
    obtain ⟨hat, -, hu, -⟩ := stores_plug.mp ht
    rw [toList_plug] at hord ⊢
    rcases hcases with ⟨r, v, rs, rfl, hr, hstop⟩ | ⟨hstop, hchild, hls, hrs⟩
    · have hitem : h.item p (ls.map Prod.snd).length = r := At.item_eq (by simpa using hat)
      rw [List.length_map] at hitem
      refine ⟨hit r, ?_, .inl ⟨r, by simp [after_cons], hr, rfl⟩⟩
      simp [searchInNode, hslot, hstop, hitem]
    · obtain ⟨v, hrun, hv⟩ : ∃ v, searchInNode hit miss h key fuel u.label = some v ∧
          Found hit miss key u.toList v := search_spec hu hord.left.right (by omega)
      exact ⟨v, by simpa [searchInNode, hslot, hstop, hchild] using hrun, hv.context hls hrs⟩

/-! ## `foreach` -/

section Foreach

variable {σ : Type} {cb : σ → Nat → Nat → Int × σ} {arg : σ}

/-- Call back for every item until a call returns a code other than 0. -/
def visit (cb : σ → Nat → Nat → Int × σ) : σ → List Item → Int × σ
  | arg, [] => (0, arg)
  | arg, x :: xs =>
    let st := cb arg x.key x.val
    if st.1 ≠ 0 then (1, st.2) else visit cb st.2 xs

@[simp] theorem visit_nil : visit cb arg [] = (0, arg) := rfl

theorem visit_append {xs ys : List Item} : visit cb arg (xs ++ ys) =
    if (visit cb arg xs).1 ≠ 0 then visit cb arg xs else visit cb (visit cb arg xs).2 ys := by
  induction xs generalizing arg with
  | nil => simp
  | cons x xs ih =>
      by_cases hstop : (cb arg x.key x.val).1 ≠ 0
      · simp [visit, hstop]
      · simp only [List.cons_append, visit, if_neg hstop, ih]

/-- The items that `foreach_node` does not pass over. -/
def nonzero (xs : List Item) : List Item := xs.filter fun x => x.key ≠ 0

@[simp] theorem nonzero_append {xs ys : List Item} :
    nonzero (xs ++ ys) = nonzero xs ++ nonzero ys := List.filter_append ..

/-- Lists with items between them, round by round. -/
theorem weave_slots {f : Nat → Item} {n : Nat} {xs : List (List Item)}
    (hxs : xs = [] ∨ xs.length = n + 1) : weave xs (slots f n) =
      (List.range n).flatMap (fun j => xs.getD j [] ++ [f j]) ++ xs.getD n [] := by
  rcases hxs with rfl | hlen
  · simp [slots, List.map_eq_flatMap]
  · induction n generalizing xs with
    | zero =>
        obtain ⟨x, rfl⟩ := List.length_eq_one_iff.mp hlen
        simp
    | succ n ih =>
        obtain ⟨ys, y, rfl⟩ := (List.eq_nil_or_concat' xs).resolve_left
          (List.ne_nil_of_length_pos (by omega))
        have hys : ys.length = n + 1 := by simpa using hlen
        have hget (j : Nat) (hj : j < n + 1) : (ys ++ [y]).getD j [] = ys.getD j [] := by
          simp [List.getElem?_append_left (hys ▸ hj : j < ys.length)]
        have hlast : (ys ++ [y]).getD (n + 1) [] = y := by simp [← hys]
        have hrounds : (List.range n).flatMap (fun j => (ys ++ [y]).getD j [] ++ [f j]) =
            (List.range n).flatMap fun j => ys.getD j [] ++ [f j] :=
          List.flatMap_congr fun j hj => by rw [hget j (by have := List.mem_range.mp hj; omega)]
        rw [slots_succ, weave_append (.inr (by simpa using hys)), ih hys, List.range_succ,
          List.flatMap_append, hrounds, hlast]
        simp only [List.flatMap_cons, List.flatMap_nil, List.append_nil, weave_items_nil,
          hget n (by omega), List.append_assoc, List.singleton_append]

theorem visit_fst {xs : List Item} (hstop : (visit cb arg xs).1 ≠ 0) : (visit cb arg xs).1 = 1 := by
  induction xs generalizing arg with
  | nil => simp at hstop
  | cons x xs ih =>
      by_cases hx : (cb arg x.key x.val).1 ≠ 0
      · simp [visit, hx]
      · simp only [visit, if_neg hx] at hstop ⊢
        exact ih hstop

/-- One round of `foreach_node`: a child, and the item behind it if there is one. -/
theorem foreachRound_eq {p fuel i : Nat} {part : List Item} {st : Int × σ}
    (hkid : ∀ arg, foreachNode cb h fuel (h.child p i) arg = some (visit cb arg (nonzero part))) :
    foreachRound cb h p (foreachNode cb h fuel) st i = some (if st.1 ≠ 0 then st else
      visit cb st.2 (nonzero (part ++ if i = h.count p then [] else [h.item p i]))) := by
  by_cases hst : st.1 ≠ 0
  · simp [foreachRound, hst]
  · simp only [foreachRound, if_neg hst, hkid, Option.bind_eq_bind, Option.bind_some,
      nonzero_append, visit_append]
    by_cases hstop : (visit cb st.2 (nonzero part)).1 ≠ 0
    · simp only [if_pos hstop, ← visit_fst hstop]
    · simp only [if_neg hstop]
      by_cases hi : i = h.count p
      · have hzero : (visit cb st.2 (nonzero part)).1 = 0 := not_not.mp hstop
        simp [hi, nonzero, ← hzero]
      · by_cases hkey : (h.item p i).key = 0
        · have hzero : (visit cb st.2 (nonzero part)).1 = 0 := not_not.mp hstop
          simp [hkey, nonzero, hi, ← hzero]
        · have hone : nonzero [h.item p i] = [h.item p i] := by simp [nonzero, hkey]
          rw [if_pos ⟨hi, hkey⟩, if_neg hi, hone]
          by_cases hret :
              (cb (visit cb st.2 (nonzero part)).2 (h.item p i).key (h.item p i).val).1 = 0
          · simp [visit, hret]
          · simp [visit, hret]

/-- The rounds of `foreach_node` over the children and the items between them. -/
theorem foreach_rounds {p fuel : Nat} {parts : Nat → List Item}
    (hkid : ∀ i ≤ h.count p, ∀ arg, foreachNode cb h fuel (h.child p i) arg =
      some (visit cb arg (nonzero (parts i)))) {n : Nat} (hn : n ≤ h.count p) :
    (List.range n).foldlM (foreachRound cb h p (foreachNode cb h fuel)) (0, arg) =
      some (visit cb arg (nonzero ((List.range n).flatMap fun j => parts j ++ [h.item p j]))) := by
  induction n with
  | zero => simp [nonzero]
  | succ n ih =>
      rw [List.range_succ, List.foldlM_append, ih (by omega), List.flatMap_append, nonzero_append,
        visit_append]
      have hne : n ≠ h.count p := by omega
      simp [foreachRound_eq (hkid n (by omega)), hne]

theorem foreachNode_null {fuel : Nat} (hfuel : 0 < fuel) :
    foreachNode cb h fuel 0 arg = some (0, arg) := by
  obtain ⟨f, rfl⟩ := Nat.exists_eq_add_of_le' hfuel
  simp [foreachNode]

/-- The child at a position of the tree, or none. -/
theorem child_cases {p i : Nat} {ks : List Item} {ts : List (Tree Nat Item d)}
    (ht : Stores (At h) (node p ks ts)) (hi : i ≤ h.count p) :
    (h.child p i = 0 ∧ ts[i]? = none) ∨ ∃ u, ts[i]? = some u ∧ h.child p i = u.label := by
  obtain ⟨hat, -, -⟩ := stores_node.mp ht
  have hle := hat.le
  rw [hat.count] at hi
  rcases hat.kids with ⟨hnil, hleaf⟩ | ⟨hlen, hslots⟩
  · have hts : ts = [] := by simpa using hnil
    exact .inl ⟨hleaf i (by omega), by simp [hts]⟩
  · rw [List.length_map] at hlen
    have hlt : i < ts.length := by omega
    refine .inr ⟨ts[i], List.getElem?_eq_getElem hlt, ?_⟩
    have hget := getElem?_slots (f := h.child p) (by simpa using hlt : i < (ts.map label).length)
    rw [hslots] at hget
    simpa [hlt] using hget.symm

/-- **`foreach_node`** visits the items in order. -/
theorem foreachNode_spec : {d : Nat} → {t : Tree Nat Item d} → {fuel : Nat} → Stores (At h) t →
    d < fuel → ∀ arg, foreachNode cb h fuel t.label arg = some (visit cb arg (nonzero t.toList))
  | d + 1, t, fuel + 1, ht, hfuel, arg => by
    obtain ⟨p, ks, ts, rfl⟩ := exists_node t
    obtain ⟨hat, harity, hkids⟩ := stores_node.mp ht
    have hkid : ∀ i ≤ h.count p, ∀ arg, foreachNode cb h fuel (h.child p i) arg =
        some (visit cb arg (nonzero ((ts.map toList).getD i []))) := by
      intro i hi arg
      rcases child_cases ht hi with ⟨hnull, hnone⟩ | ⟨u, hu, hlabel⟩
      · simp [hnull, hnone, foreachNode_null (by omega : 0 < fuel), nonzero]
      · rw [hlabel, foreachNode_spec (hkids u (List.mem_of_getElem? hu)) (by omega) arg]
        simp [hu]
    have hweave : (node p ks ts).toList = (List.range (h.count p)).flatMap
        (fun j => (ts.map toList).getD j [] ++ [h.item p j]) ++
          (ts.map toList).getD (h.count p) [] := by
      have harity' : ts.map toList = [] ∨ (ts.map toList).length = ks.length + 1 := by
        rcases harity with rfl | harity
        · exact .inl (by simp [show ts = [] from kids_leaf (node p ks ts)])
        · exact .inr (by simpa using harity)
      rw [toList_node, hat.count, ← weave_slots harity', hat.items]
    rw [foreachNode, label_node, if_neg hat.ne_zero, List.range_succ, List.foldlM_append,
      foreach_rounds hkid (Nat.le_refl _), hweave, nonzero_append, visit_append]
    simp [foreachRound_eq (hkid _ (Nat.le_refl _))]

end Foreach

/-! ## `clear` -/

/-- The blocks that `clear_node` gives back: those that are reached without going through the
last child of a node. -/
def cleared : {d : Nat} → Tree Nat Item d → List Nat
  | _ + 1, t => t.1 :: (t.2.2.take t.2.1.length).flatMap cleared

theorem cleared_node {p : Nat} {ks : List Item} {ts : List (Tree Nat Item d)} :
    cleared (node p ks ts) = p :: (ts.take ks.length).flatMap cleared := rfl

theorem clearNode_null {fuel : Nat} (hfuel : 0 < fuel) : clearNode fuel h 0 = some h := by
  obtain ⟨f, rfl⟩ := Nat.exists_eq_add_of_le' hfuel
  simp [clearNode]

/-- `h'` is `h` after the blocks `ps` were given back. -/
structure GivesBack (ps : List Nat) (h h' : Heap) : Prop where
  word : h'.word = h.word
  live : ∀ q, q ∈ h'.live ↔ q ∈ h.live ∧ q ∉ ps
  freed : ∀ q, q ∈ h'.freed ↔ q ∈ h.freed ∨ q ∈ ps

theorem GivesBack.trans {ps qs : List Nat} {h' h'' : Heap} (h₁ : GivesBack ps h h')
    (h₂ : GivesBack qs h' h'') : GivesBack (ps ++ qs) h h'' where
  word := h₂.word.trans h₁.word
  live q := by
    rw [h₂.live, h₁.live, List.mem_append, not_or, and_assoc]
  freed q := by
    rw [h₂.freed, h₁.freed, List.mem_append, or_assoc]

theorem GivesBack.stores {ps : List Nat} {h' : Heap} {t : Tree Nat Item d} (hg : GivesBack ps h h')
    (ht : Stores (At h) t) : Stores (At h') t :=
  Stores.congr ht fun _ _ => by rw [hg.word]

/-- **`clear_node`** gives back the blocks `cleared`. -/
theorem clearNode_spec : {d : Nat} → {t : Tree Nat Item d} → {fuel : Nat} → {h : Heap} →
    Stores (At h) t → d < fuel →
      ∃ h', clearNode fuel h t.label = some h' ∧ GivesBack (cleared t) h h'
  | d + 1, t, fuel + 1, h, ht, hfuel => by
    obtain ⟨p, ks, ts, rfl⟩ := exists_node t
    obtain ⟨hat, harity, hkids⟩ := stores_node.mp ht
    -- the children one after the other, up to the last but one
    have hloop : ∀ n ≤ ks.length, ∃ h', (List.range n).foldlM
        (fun h i => clearNode fuel h (h.child p i)) h = some h' ∧
          GivesBack ((ts.take n).flatMap cleared) h h' := by
      intro n hn
      induction n with
      | zero => exact ⟨h, rfl, rfl, by simp, by simp⟩
      | succ n ih =>
          obtain ⟨h₁, hrun, hg⟩ := ih (by omega)
          have hchild : h₁.child p n = h.child p n := by simp [Heap.child, hg.word]
          rw [List.range_succ, List.foldlM_append, hrun, List.take_add_one]
          rcases child_cases ht (by rw [hat.count]; omega : n ≤ h.count p) with
            ⟨hnull, hnone⟩ | ⟨u, hu, hlabel⟩
          · refine ⟨h₁, ?_, by simpa [hnone] using hg⟩
            simp [hchild, hnull, clearNode_null (by omega : 0 < fuel)]
          · obtain ⟨h₂, hrun₂, hg₂⟩ := clearNode_spec
              (hg.stores (hkids u (List.mem_of_getElem? hu))) (by omega : d < fuel)
            refine ⟨h₂, ?_, by simpa [hu] using hg.trans hg₂⟩
            simp [hchild, hlabel, hrun₂]
    obtain ⟨h', hrun, hg⟩ := hloop ks.length (Nat.le_refl _)
    refine ⟨h'.deallocate p, ?_, ?_⟩
    · simp only [clearNode, label_node, if_neg hat.ne_zero, hat.count, hrun]
      rfl
    · refine ⟨hg.word, fun q => ?_, fun q => ?_⟩
      · simp [Heap.deallocate, hg.live, cleared_node]
        tauto
      · simp [Heap.deallocate, hg.freed, cleared_node]
        tauto

/-- What is given back is of the tree. -/
theorem mem_labels_of_mem_cleared : {d : Nat} → {t : Tree Nat Item d} → {q : Nat} →
    q ∈ cleared t → q ∈ t.labels
  | _ + 1, t, q, hq => by
    rw [← eta t, cleared_node, List.mem_cons, List.mem_flatMap] at hq
    rw [← eta t, labels_node, List.mem_cons, List.mem_flatMap]
    exact hq.imp_right fun ⟨u, hu, hmem⟩ =>
      ⟨u, List.mem_of_mem_take hu, mem_labels_of_mem_cleared hmem⟩

/-- **The last child's blocks are not given back.** -/
theorem notMem_cleared_last {p : Nat} {ls : List (Tree Nat Item d × Item)} {u : Tree Nat Item d}
    (hb : Built h (plug p ls u [])) {q : Nat} (hq : q ∈ u.labels) :
    q ∉ cleared (plug p ls u []) := by
  have hnodup := hb.nodup
  simp only [labels_plug, List.flatMap_nil, List.append_nil, List.nodup_cons, List.nodup_append,
    List.mem_append, not_or] at hnodup
  obtain ⟨⟨-, hp⟩, -, -, hdisj⟩ := hnodup
  have hcleared : cleared (plug p ls u []) = p :: (ls.map Prod.fst).flatMap cleared := by
    simp [plug, cleared_node]
  rw [hcleared, List.mem_cons, List.mem_flatMap]
  rintro (rfl | ⟨v, hv, hmem⟩)
  · exact hp hq
  · obtain ⟨l, hl, rfl⟩ := List.mem_map.mp hv
    exact hdisj q (List.mem_flatMap.mpr ⟨l, hl, mem_labels_of_mem_cleared hmem⟩) q hq rfl

/-! ## the functions of `btree_t` -/

section Functions

variable {s : Btree} {lo : Nat} {xs : List Item}

/-- A search from the root. -/
theorem Holds.search {hit : Item → Nat} {miss : Nat} (hs : Holds lo s xs) (key : Nat) :
    ∃ v, (if s.root = 0 then some miss else
      searchInNode hit miss s.heap key s.heap.depthBound s.root) = some v ∧
        Found hit miss key xs v := by
  rcases hs with ⟨hroot, -, rfl⟩ | ⟨d, t, hs, -, rfl⟩
  · exact ⟨miss, if_pos hroot, .inr ⟨by simp, rfl⟩⟩
  · have hheight := hs.built.height_le
    rw [hs.root, if_neg (Stores.label_ne_zero hs.built.stores)]
    exact search_spec hs.built.stores hs.ordered (by rw [Heap.depthBound]; omega)

/-- **`get` and `lookup`** answer from what the map holds: the value of an item with the key, or 0,
and whether there is one. -/
theorem get_lookup_answer (hs : Holds lo s xs) (key : Nat) :
    (∃ v, s.get key = some v ∧ Found Item.val 0 key xs v) ∧
      s.lookup key = some (if key ∈ xs.map Item.key then 1 else 0) := by
  refine ⟨hs.search key, ?_⟩
  obtain ⟨v, hv, hfound⟩ : ∃ v, (if s.root = 0 then some 0 else
      searchInNode (fun _ => 1) 0 s.heap key s.heap.depthBound s.root) = some v ∧
        Found (fun _ => 1) 0 key xs v := hs.search key
  rw [Btree.lookup, lookupInNode, hv]
  rcases hfound with ⟨x, hx, hkey, rfl⟩ | ⟨hxs, rfl⟩
  · rw [if_pos (List.mem_map.mpr ⟨x, hx, hkey⟩)]
  · rw [if_neg fun hmem => by
      obtain ⟨x, hx, hkey⟩ := List.mem_map.mp hmem
      exact hxs x hx hkey]

/-- A key that is there, and one that is not. -/
theorem get_lookup_answer_eight : ∃ s, Holds btreeMin s eight ∧
    s.get 5 = some 50 ∧ s.lookup 5 = some 1 ∧ s.get 9 = some 0 ∧ s.lookup 9 = some 0 := by
  obtain ⟨s, d, t, -, hs, heach, hlist⟩ := exists_holds_eight
  have hholds : Holds btreeMin s eight := .inr ⟨d + 1, t, hs, heach, hlist⟩
  obtain ⟨⟨v, hv, hfound⟩, hlookup⟩ := get_lookup_answer hholds 5
  obtain ⟨⟨w, hw, hmissed⟩, hmiss⟩ := get_lookup_answer hholds 9
  obtain rfl : v = 50 := by
    rcases hfound with ⟨x, hx, hkey, rfl⟩ | ⟨hxs, -⟩
    · have hval : ∀ x ∈ eight, x.key = 5 → x.val = 50 := by decide
      exact hval x hx hkey
    · exact absurd hxs (by decide)
  obtain rfl : w = 0 := by
    rcases hmissed with ⟨x, hx, hkey, -⟩ | ⟨-, rfl⟩
    · exact absurd hkey ((by decide : ∀ x ∈ eight, x.key ≠ 9) x hx)
    · rfl
  exact ⟨s, hholds, hv, hlookup, hw, hmiss⟩

/-- **`foreach`** calls back for the items in order, except those with the key 0, until a call
returns a code other than 0. -/
theorem foreach_visits {σ : Type} (cb : σ → Nat → Nat → Int × σ) (hs : Holds lo s xs) (arg : σ) :
    s.foreach cb arg = some (visit cb arg (nonzero xs)) := by
  rcases hs with ⟨hroot, -, rfl⟩ | ⟨d, t, hs, -, rfl⟩
  · rw [Btree.foreach, hroot]
    exact foreachNode_null (Nat.succ_pos _)
  · have hheight := hs.built.height_le
    rw [Btree.foreach, hs.root]
    exact foreachNode_spec hs.built.stores (by rw [Heap.depthBound]; omega) arg

/-- A callback that adds up the values: it sees all of them, or those up to a key at which it
returns 5. -/
theorem foreach_visits_eight : ∃ s, Holds btreeMin s eight ∧
    s.foreach (fun n _ v => (0, n + v)) 0 = some (0, 360) ∧
    s.foreach (fun n k v => (if k = 3 then 5 else 0, n + v)) 0 = some (1, 60) := by
  obtain ⟨s, d, t, -, hs, heach, hlist⟩ := exists_holds_eight
  have hholds : Holds btreeMin s eight := .inr ⟨d + 1, t, hs, heach, hlist⟩
  exact ⟨s, hholds, foreach_visits _ hholds 0, foreach_visits _ hholds 0⟩

/-- What is left after `clear_node` is clean. -/
theorem GivesBack.clean {ps : List Nat} {h' : Heap} (hg : GivesBack ps h h') (hclean : h.Clean) :
    h'.Clean := by
  intro q hlive hfreed i hi
  rw [hg.live, not_and_not_right] at hlive
  rw [hg.freed, not_or] at hfreed
  have hchild : h'.child q i = h.child q i := by simp [Heap.child, hg.word]
  rw [hchild]
  exact hclean q (fun hmem => hfreed.2 (hlive hmem)) hfreed.1 i hi

/-- **`clear`** empties the map, but keeps the blocks below the last child of every node in use: in
a tree of height `d + 1` at least `d` of them. -/
theorem clear_keeps_blocks {t : Tree Nat Item (d + 1)} (hs : Represents s t) :
    ∃ h', s.clear = some ⟨h', 0⟩ ∧ Holds btreeMin ⟨h', 0⟩ [] ∧
      (∀ q, q ∈ h'.live ↔ q ∈ s.heap.live ∧ q ∉ cleared t) ∧
      d ≤ (t.labels.filter (· ∈ h'.live)).length := by
  have hheight := hs.built.height_le
  obtain ⟨h', hrun, hg⟩ := clearNode_spec hs.built.stores
    (by rw [Heap.depthBound]; omega : d + 1 < s.heap.depthBound)
  refine ⟨h', by simp [Btree.clear, hs.root, hrun], .inl ⟨rfl, hg.clean hs.clean, rfl⟩, hg.live, ?_⟩
  cases d with
  | zero => exact Nat.zero_le _
  | succ d =>
      have harity := (stores_node.mp hs.built.stores).2.1.resolve_left (by omega)
      obtain ⟨ls, u, rs, hplug, -, -, hrs⟩ := exists_plug (p := t.label) harity (Nat.le_refl _)
      obtain rfl : rs = [] := by simpa using hrs
      have hb : Built s.heap (plug t.label ls u []) := hplug ▸ hs.built
      have hcleared : cleared t = cleared (plug t.label ls u []) := congrArg cleared hplug
      have hkeep : u.labels.filter (· ∈ h'.live) = u.labels := by
        rw [List.filter_eq_self]
        intro q hq
        simp only [decide_eq_true_eq]
        rw [hg.live, hcleared]
        exact ⟨hb.focus.1.live q hq, notMem_cleared_last hb hq⟩
      have hsub : u.labels.Sublist t.labels := by
        have hlabels : t.labels = (plug t.label ls u []).labels := congrArg labels hplug
        rw [hlabels, labels_plug]
        simp
      calc d + 1 ≤ u.labels.length := hb.focus.1.stores.height_le
        _ = (u.labels.filter (· ∈ h'.live)).length := by rw [hkeep]
        _ ≤ (t.labels.filter (· ∈ h'.live)).length := (hsub.filter _).length_le

/-- The block of the last leaf stays. -/
theorem clear_keeps_blocks_eight : ∃ s d, ∃ t : Tree Nat Item (d + 2), Represents s t ∧
    t.toList = eight ∧ ∃ h', s.clear = some ⟨h', 0⟩ ∧ Holds btreeMin ⟨h', 0⟩ [] ∧
      (∀ q, q ∈ h'.live ↔ q ∈ s.heap.live ∧ q ∉ cleared t) ∧
      d + 1 ≤ (t.labels.filter (· ∈ h'.live)).length := by
  obtain ⟨s, d, t, -, hs, -, hlist⟩ := exists_holds_eight
  exact ⟨s, d, t, hs, hlist, clear_keeps_blocks hs⟩

end Functions

end Cxlbuf.Btree
