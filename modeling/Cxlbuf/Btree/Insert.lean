import Cxlbuf.Btree.Trees
import Cxlbuf.Lib.Run

/-!
# Cxlbuf.Btree.Insert

Insertion.  A full node on the way down is split before it is entered, so
`insert_item` always finds room in the leaf it is given.  The split of the root
makes a new root, which is the one case in which the tree grows in height; the
split of another node gives its median to a parent that is not full.

A split rearranges a tree (`Rearranged`): its items stay, in the same order.
The way down (`descend`) then ends at a leaf with the item's place in it
(`Inserts`).

The map holds what a run of insertions put in (`run_insert`).  Eight of them
make the smallest tree with an inner node (`exists_holds_eight`).
-/

namespace Cxlbuf.Btree

open Slots Multiway Multiway.Tree ByKey Run

variable {a : Ator} {h h' : Heap} {d : Nat}

/-! ## the split of a full node -/

section Split

variable {p r : Nat} {ks : List Item} {ts : List (Tree Nat Item d)} {m : Item}

/-- The left half of a full node. -/
def leftHalf (p : Nat) (ks : List Item) (ts : List (Tree Nat Item d)) : Tree Nat Item (d + 1) :=
  node p (ks.take 3) (ts.take 4)

/-- The right half of a full node. -/
def rightHalf (p : Nat) (ks : List Item) (ts : List (Tree Nat Item d)) : Tree Nat Item (d + 1) :=
  node p (ks.drop 4) (ts.drop 4)

theorem toList_halves (hlen : ks.length = 7) (hts : d = 0 ∨ ts.length = ks.length + 1)
    (hks : ks = ks.take 3 ++ m :: ks.drop 4) :
    (node p ks ts).toList = (leftHalf p ks ts).toList ++ m :: (rightHalf r ks ts).toList := by
  have harity : d = 0 ∨ (ts.take 4).length = (ks.take 3).length + 1 :=
    hts.imp_right fun hts => by simp; omega
  have hjoin : (node p (ks.take 3 ++ m :: ks.drop 4) (ts.take 4 ++ ts.drop 4)).toList =
      (leftHalf p ks ts).toList ++ m :: (rightHalf r ks ts).toList := toList_join harity
  rwa [← hks, List.take_append_drop] at hjoin

theorem labels_halves : ((leftHalf p ks ts).labels ++ (rightHalf r ks ts).labels).Perm
    (r :: (node p ks ts).labels) := by
  have hts : (ts.take 4).flatMap labels ++ (ts.drop 4).flatMap labels = ts.flatMap labels := by
    rw [← List.flatMap_append, List.take_append_drop]
  simp only [leftHalf, rightHalf, labels_node, List.cons_append]
  rw [← hts]
  exact (List.perm_middle.cons p).trans (List.Perm.swap r p _)

theorem each_leftHalf {Q : Nat → Nat → Prop} (h : Each Q (node p ks ts)) :
    Each Q (leftHalf p ks ts) := fun u hu => h u (List.mem_of_mem_take hu)

theorem each_rightHalf {Q : Nat → Nat → Prop} (h : Each Q (node p ks ts)) :
    Each Q (rightHalf r ks ts) := fun u hu => h u (List.mem_of_mem_drop hu)

theorem min_le_leftHalf (hlen : ks.length = 7) : btreeMin ≤ (leftHalf p ks ts).items.length := by
  simp [leftHalf, hlen, btreeMin, btreeOrder]

theorem min_le_rightHalf (hlen : ks.length = 7) : btreeMin ≤ (rightHalf p ks ts).items.length := by
  simp [rightHalf, hlen, btreeMin, btreeOrder]

/-- `split_node` on a full node of a tree. -/
theorem split_stores (hb : Built h (node p ks ts)) (hlen : ks.length = 7) (hclean : h.Clean)
    (hav : a.Avoids h.freed) :
    Stores (At (splitNode a h p).1) (leftHalf p ks ts) ∧
      Stores (At (splitNode a h p).1) (rightHalf (a.pick h) ks ts) ∧
      ks = ks.take 3 ++ (splitNode a h p).2.2 :: ks.drop 4 := by
  have hfresh := a.pick_notMem_live h
  have hclear := hclean _ hfresh (hav h rfl)
  obtain ⟨hat, harity, hkids⟩ := stores_node.mp hb.stores
  have hp : a.pick h ≠ p := fun heq => hfresh (heq ▸ hb.live p (by simp))
  obtain ⟨hleft, hright, hmedian⟩ := hat.splitNode hlen hp hclear
  have hkeep (u : Tree Nat Item d) (hu : u ∈ ts) : Stores (At (splitNode a h p).1) u := by
    refine Stores.congr (hkids u hu) fun q hq => edits_splitNode.word q ?_
    have hmem : q ∈ ts.flatMap labels := List.mem_flatMap.mpr ⟨u, hu, hq⟩
    have hqp : q ≠ p := fun heq => (List.nodup_cons.mp hb.nodup).1 (heq ▸ hmem)
    have hqr : q ≠ a.pick h := fun heq => hfresh (heq ▸ hb.live q (List.mem_cons_of_mem _ hmem))
    simp [hqp, hqr]
  refine ⟨stores_node.mpr ⟨by simpa [List.map_take] using hleft, ?_, fun u hu =>
    hkeep u (List.mem_of_mem_take hu)⟩, stores_node.mpr ⟨by simpa [List.map_drop] using hright, ?_,
    fun u hu => hkeep u (List.mem_of_mem_drop hu)⟩, hmedian⟩
  · exact harity.imp_right fun hts => by simp; omega
  · exact harity.imp_right fun hts => by simp; omega

end Split

/-- `h'` has `t'`, which holds the items of `t` in the same order, where `h` has `t`. -/
structure Rearranged {e : Nat} (h h' : Heap) (t : Tree Nat Item d) (t' : Tree Nat Item e) :
    Prop where
  built : Built h' t'
  loc : Local t.labels t'.labels h h'
  freed : h'.freed = h.freed
  toList : t'.toList = t.toList
  each : ∀ lo ≤ btreeMin, Each (fun _ n => lo ≤ n) t → Each (fun _ n => lo ≤ n) t'

/-- A full child is split: it becomes two children of its parent. -/
theorem split_child {p c pos : Nat} {ls : List (Tree Nat Item (d + 1) × Item)} {ks : List Item}
    {ts : List (Tree Nat Item d)} {rs : List (Item × Tree Nat Item (d + 1))}
    (hb : Built h (plug p ls (node c ks ts) rs)) (hlen : ks.length = 7)
    (hroom : (ls.map Prod.snd ++ rs.map Prod.fst).length ≤ 6) (hpos : ls.length = pos)
    (hkey : ∀ r ∈ rs.head?, r.1.key ≠ 0) (hclean : h.Clean) (hav : a.Avoids h.freed) :
    let h' := insertNode (splitNode a h c).1 p pos (splitNode a h c).2.2 c (a.pick h)
    let t' := plug p ls (leftHalf c ks ts)
      (((splitNode a h c).2.2, rightHalf (a.pick h) ks ts) :: rs)
    Rearranged h h' (plug p ls (node c ks ts) rs) t' := by
  intro h' t'
  obtain ⟨hbc, hplive, hpc⟩ := hb.focus
  obtain ⟨hleft, hright, hmedian⟩ := split_stores hbc hlen hclean hav
  have hfresh := a.pick_notMem_live h
  have hpr : p ≠ a.pick h := fun heq => hfresh (heq ▸ hplive)
  have hpne : p ≠ c := fun heq => hpc (by simp [heq])
  have hitems : (ls.map Prod.snd ++ rs.map Prod.fst).take pos = ls.map Prod.snd ∧
      (ls.map Prod.snd ++ rs.map Prod.fst).drop pos = rs.map Prod.fst := by
    simp [← hpos]
  have hpat := (stores_plug.mp hb.stores).1.congr
    (edits_splitNode.word p (by simp [hpne, hpr]) : (splitNode a h c).1.word p = h.word p)
  have hroomkey : pos < (ls.map Prod.snd ++ rs.map Prod.fst).length →
      ((splitNode a h c).1.item p pos).key ≠ 0 := by
    intro hlt
    cases rs with
    | nil => simp [hpos] at hlt
    | cons r rs =>
        have hitem := At.item_eq (by simpa using hpat)
        rw [List.length_map, hpos] at hitem
        rw [hitem]
        exact hkey r rfl
  have hat : At h' p (ls.map Prod.snd ++ (splitNode a h c).2.2 :: rs.map Prod.fst)
      ((ls.map Prod.fst ++ [leftHalf c ks ts, rightHalf (a.pick h) ks ts] ++
        rs.map Prod.snd).map label) := by
    have hnew := hpat.insertNode (x := (splitNode a h c).2.2) (l := c) (r := a.pick h)
      (by simp; omega) hroom (by simp; omega) hroomkey
    have hdrop : (ls.map (fun l => l.1.label)).drop (ls.length + 1) = [] :=
      List.drop_of_length_le (by simp)
    simpa [← hpos, leftHalf, rightHalf, Function.comp_def, List.drop_append, hdrop, h'] using hnew
  have hedit : Edits [c, a.pick h, p] (h.allocate a) h' :=
    (edits_splitNode.mono (by simp)).trans (edits_insertNode (by simp))
  have hhalves : ([leftHalf c ks ts, rightHalf (a.pick h) ks ts].flatMap labels).Perm
      (a.pick h :: (node c ks ts).labels) := by
    simpa using labels_halves
  have hlocal : Local (p :: [node c ks ts].flatMap labels)
      (p :: [leftHalf c ks ts, rightHalf (a.pick h) ks ts].flatMap labels) h h' := by
    refine hedit.local_allocate (fun q hq => ?_) (fun q hq => ?_) fun q => ?_
    · simp at hq ⊢
      tauto
    · simp only [List.flatMap_cons, List.flatMap_nil, List.append_nil, List.mem_cons] at hq
      rcases hq with rfl | hq
      · exact hplive
      · exact hbc.live q hq
    · rw [List.mem_cons, hhalves.mem_iff]
      simp only [List.flatMap_cons, List.flatMap_nil, List.append_nil, List.mem_cons]
      tauto
  have hstores : ∀ u ∈ [leftHalf c ks ts, rightHalf (a.pick h) ks ts], Stores (At h') u := by
    have hkeep (u : Tree Nat Item (d + 1)) (hu : Stores (At (splitNode a h c).1) u)
        (hpu : p ∉ u.labels) : Stores (At h') u :=
      Stores.congr hu fun q hq => (edits_insertNode (List.mem_singleton_self p)).word q
        (by simpa using fun heq : q = p => hpu (heq ▸ hq))
    have hpnot : p ∉ [leftHalf c ks ts, rightHalf (a.pick h) ks ts].flatMap labels := by
      rw [hhalves.mem_iff]
      simpa [hpr] using hpc
    simp only [List.flatMap_cons, List.flatMap_nil, List.append_nil, List.mem_append,
      not_or] at hpnot
    simp only [List.mem_cons, List.not_mem_nil, or_false, forall_eq_or_imp, forall_eq]
    exact ⟨hkeep _ hleft hpnot.1, hkeep _ hright hpnot.2⟩
  have hnodup : (p :: [leftHalf c ks ts, rightHalf (a.pick h) ks ts].flatMap labels).Nodup := by
    rw [(hhalves.cons p).nodup_iff]
    have hr : a.pick h ∉ (node c ks ts).labels := fun hmem => hfresh (hbc.live _ hmem)
    exact List.nodup_cons.mpr ⟨by simpa [hpr] using hpc, List.nodup_cons.mpr ⟨hr, hbc.nodup⟩⟩
  have hform : plug p ls (node c ks ts) rs = node p (ls.map Prod.snd ++ rs.map Prod.fst)
      (ls.map Prod.fst ++ [node c ks ts] ++ rs.map Prod.snd) := by simp [plug]
  have hform' : t' = node p (ls.map Prod.snd ++ (splitNode a h c).2.2 :: rs.map Prod.fst)
      (ls.map Prod.fst ++ [leftHalf c ks ts, rightHalf (a.pick h) ks ts] ++ rs.map Prod.snd) := by
    simp [t', plug]
  have hwindow := (hform ▸ hb).window hlocal hat (by simp; omega) hstores hnodup
  rw [← hform, ← hform'] at hwindow
  refine ⟨hwindow.1, hwindow.2, hedit.freed, ?_, fun lo hlo heach => ?_⟩
  · rw [toList_plug, toList_plug, after_cons,
      toList_halves (r := a.pick h) hlen (stores_node.mp hbc.stores).2.1 hmedian]
    simp
  · obtain ⟨hel, ⟨-, het⟩, her⟩ := each_plug.mp heach
    refine each_plug.mpr ⟨hel, ⟨hlo.trans (min_le_leftHalf hlen), each_leftHalf het⟩, ?_⟩
    simp only [List.mem_cons, forall_eq_or_imp]
    exact ⟨⟨hlo.trans (min_le_rightHalf hlen), each_rightHalf het⟩, her⟩

/-- The new root in `find_dest_node`. -/
def growRoot (a : Ator) (h : Heap) (c r : Nat) (m : Item) : Heap :=
  let up := a.pick h
  let h := ((h.allocate a).init up).setCount up 1
  ((h.writeItem up 0 m).setChild up 0 c).setChild up 1 r

theorem edits_growRoot {c r : Nat} {m : Item} :
    Edits [a.pick h] (h.allocate a) (growRoot a h c r m) :=
  ((((edits_setCount (by simp)).trans (edits_setCount (by simp))).trans
    (edits_writeItem (by simp))).trans (edits_setChild (by simp))).trans (edits_setChild (by simp))

theorem at_growRoot {c r : Nat} {m : Item} : At (growRoot a h c r m) (a.pick h) [m] [c, r] where
  ne_zero := a.pick_ne_zero h
  count := by simp [growRoot]
  le := by simp
  items := by simp [growRoot, slots, Heap.item_setChild]
  kids := .inr ⟨rfl, by simp [growRoot, slots, List.range_succ]⟩

/-- The root is split: the tree grows in height. -/
theorem split_root {c : Nat} {ks : List Item} {ts : List (Tree Nat Item d)}
    (hb : Built h (node c ks ts)) (hlen : ks.length = 7) (hclean : h.Clean)
    (hav : a.Avoids h.freed) :
    let h₁ := (splitNode a h c).1
    let h' := growRoot a h₁ c (a.pick h) (splitNode a h c).2.2
    let t' := plug (a.pick h₁) [] (leftHalf c ks ts)
      [((splitNode a h c).2.2, rightHalf (a.pick h) ks ts)]
    Rearranged h h' (node c ks ts) t' := by
  intro h₁ h' t'
  obtain ⟨hleft, hright, hmedian⟩ := split_stores hb hlen hclean hav
  have hfresh := a.pick_notMem_live h
  have hhalves : ((leftHalf c ks ts).labels ++ (rightHalf (a.pick h) ks ts).labels).Perm
      (a.pick h :: (node c ks ts).labels) := labels_halves
  have hlocal : Local (node c ks ts).labels
      ((leftHalf c ks ts).labels ++ (rightHalf (a.pick h) ks ts).labels) h h₁ := by
    refine edits_splitNode.local_allocate (fun q hq => ?_) hb.live fun q => ?_
    · simp only [List.mem_cons, List.not_mem_nil, or_false] at hq
      exact hq.imp_left fun heq => by simp [heq]
    · rw [hhalves.mem_iff, List.mem_cons, or_comm]
  have hlabels : t'.labels = a.pick h₁ ::
      ((leftHalf c ks ts).labels ++ (rightHalf (a.pick h) ks ts).labels) := by
    simp [t', labels_plug]
  have hup : a.pick h₁ ∉ (leftHalf c ks ts).labels ++ (rightHalf (a.pick h) ks ts).labels :=
    fun hmem => a.pick_notMem_live h₁ (hlocal.live _ hmem)
  have hlocal' : Local ((leftHalf c ks ts).labels ++ (rightHalf (a.pick h) ks ts).labels)
      t'.labels h₁ h' := by
    refine edits_growRoot.local_allocate (by simp) hlocal.live fun q => ?_
    rw [hlabels, List.mem_cons, or_comm]
  have hkeep (u : Tree Nat Item (d + 1)) (hu : Stores (At h₁) u) (hnot : a.pick h₁ ∉ u.labels) :
      Stores (At h') u :=
    Stores.congr hu fun q hq => edits_growRoot.word q
      (by simpa using fun heq : q = a.pick h₁ => hnot (heq ▸ hq))
  rw [List.mem_append, not_or] at hup
  refine ⟨⟨stores_plug.mpr ⟨?_, by simp, hkeep _ hleft hup.1, by simpa using hkeep _ hright hup.2⟩,
    ?_, hlocal'.live⟩, hlocal.trans hlocal', ?_, ?_, fun lo hlo heach => ?_⟩
  · simpa [leftHalf, rightHalf] using at_growRoot
  · rw [hlabels, List.nodup_cons, List.mem_append, not_or, hhalves.nodup_iff]
    exact ⟨hup, List.nodup_cons.mpr ⟨fun hmem => hfresh (hb.live _ hmem), hb.nodup⟩⟩
  · have hgrow : h'.freed = h₁.freed := edits_growRoot.freed
    have hsplit : h₁.freed = h.freed := edits_splitNode.freed
    rw [hgrow, hsplit]
  · rw [toList_plug, toList_halves (r := a.pick h) hlen (stores_node.mp hb.stores).2.1 hmedian]
    simp [after]
  · refine each_plug.mpr ⟨by simp, ⟨hlo.trans (min_le_leftHalf hlen), each_leftHalf heach⟩, ?_⟩
    simp only [List.mem_singleton, forall_eq]
    exact ⟨hlo.trans (min_le_rightHalf hlen), each_rightHalf heach⟩

/-! ## the way down -/

/-- Where the loop in `find_dest_node` stops: behind the items whose keys are not greater. -/
theorem destSlot_eq {p key : Nat} {ls rs : List Item} {cs : List Nat} (hat : At h p (ls ++ rs) cs)
    (hlen : (ls ++ rs).length ≤ 6) (hls : ∀ l ∈ ls, l.key ≤ key)
    (hrs : ∀ r ∈ rs.head?, key < r.key) : destSlot h p key = some ls.length := by
  have hcount := hat.count
  rw [List.length_append] at hlen hcount
  rw [destSlot, List.find?_range_eq_some]
  refine ⟨?_, List.mem_range.mpr (by simp only [btreeOrder]; omega), fun j hj => ?_⟩
  · cases rs with
    | nil => simp [hcount]
    | cons r rs => simp [hat.item_eq, hrs r rfl]
  · have hle := hls _ (hat.item_mem hj)
    have hne : h.count p ≠ j := by omega
    simp [hne, hle]

/-- What `find_dest_node` does from a node that is not full. -/
def descend (a : Ator) (key fuel : Nat) (s : Btree) (node : Nat) : Option (Btree × Nat × Nat) :=
  match destSlot s.heap node key with
  | some i =>
    if s.heap.child node i = 0 then some (s, node, i)
    else findDestNode a key fuel s (s.heap.child node i) node i
  | none => findDestNode a key fuel s (s.heap.child node (btreeOrder - 1)) node (btreeOrder - 2)

theorem findDestNode_succ {key fuel node parent pos : Nat} {s : Btree} (hnode : node ≠ 0) :
    findDestNode a key (fuel + 1) s node parent pos = descend a key fuel
      (splitFull a s node parent key pos).1 (splitFull a s node parent key pos).2 := by
  rw [findDestNode, if_neg hnode]
  rfl

/-- `h'` has the tree `t'`, which is `t` with `x`, where `h` has `t`. -/
structure Grown (x : Item) (h h' : Heap) (t t' : Tree Nat Item (d + 1)) : Prop where
  built : Built h' t'
  loc : Local t.labels t'.labels h h'
  freed : h'.freed = h.freed
  label : t'.label = t.label
  inserted : Inserted Item.key x t.toList t'.toList
  le_count : t.items.length ≤ t'.items.length
  each : ∀ lo ≤ btreeMin, Each (fun _ n => lo ≤ n) t → Each (fun _ n => lo ≤ n) t'

/-- An item is put into a leaf. -/
theorem grown_leaf {p : Nat} {ls rs : List Item} {x : Item}
    (hb : Built h (node p (ls ++ rs) ([] : List (Tree Nat Item 0)))) (hlen : (ls ++ rs).length ≤ 6)
    (hls : ∀ l ∈ ls, l.key ≤ x.key) (hrs : ∀ r ∈ rs.head?, x.key < r.key)
    (hord : Ordered Item.key (ls ++ rs)) :
    Grown x h (insertItem h p ls.length x) (node p (ls ++ rs) ([] : List (Tree Nat Item 0)))
      (node p (ls ++ x :: rs) []) := by
  have hat := (stores_node.mp hb.stores).1
  have hkey : ls.length < (ls ++ rs).length → (h.item p ls.length).key ≠ 0 := by
    intro hlt
    cases rs with
    | nil => simp at hlt
    | cons r rs =>
        have hgt := hrs r rfl
        rw [hat.item_eq]
        omega
  have hnew := hat.insertItem (x := x) hlen (by simp) hkey
  have hedit : Edits [p] h (insertItem h p ls.length x) := edits_insertItem (by simp)
  have hlocal := hedit.local (by simpa using hb.live p)
  refine ⟨⟨stores_node.mpr ⟨by simpa using hnew, .inl rfl, by simp⟩, by simp, hlocal.live⟩, hlocal,
    hedit.freed, rfl, ?_, by simp, fun _ _ _ => by simp [each_node]⟩
  refine ⟨ls, rs, by simp, by simp, hls, fun b hb => ?_⟩
  cases rs with
  | nil => simp at hb
  | cons r rs =>
      have hgt := hrs r rfl
      rcases List.mem_cons.mp hb with rfl | hb
      · omega
      · exact (Nat.le_of_lt hgt).trans (hord.right.le_of_mem_right hb)

/-- An item is put into a child. -/
theorem Grown.replace {p : Nat} {ls : List (Tree Nat Item (d + 1) × Item)}
    {t t' : Tree Nat Item (d + 1)} {rs : List (Item × Tree Nat Item (d + 1))} {x : Item}
    (hg : Grown x h h' t t') (hb : Built h (plug p ls t rs))
    (hord : Ordered Item.key (plug p ls t rs).toList) (hls : ∀ l ∈ ls, l.2.key ≤ x.key)
    (hrs : ∀ r ∈ rs.head?, x.key ≤ r.1.key) : Grown x h h' (plug p ls t rs) (plug p ls t' rs) := by
  obtain ⟨hbuilt, hlocal⟩ := hb.replace hg.built hg.loc hg.label
  rw [toList_plug] at hord
  refine ⟨hbuilt, hlocal, hg.freed, rfl, ?_, by simp, fun lo hlo heach => ?_⟩
  · rw [toList_plug, toList_plug]
    refine hg.inserted.context (fun y hy => ?_) fun y hy => ?_
    · obtain ⟨l, hl, hle⟩ := exists_le_of_mem_before hord.left.left hy
      exact hle.trans (hls l hl)
    · obtain ⟨r, hr, hle⟩ := exists_le_of_mem_after hord.right hy
      exact (hrs r hr).trans hle
  · obtain ⟨hel, ⟨hmin, het⟩, her⟩ := each_plug.mp heach
    exact each_plug.mpr ⟨hel, ⟨hmin.trans hg.le_count, hg.each lo hlo het⟩, her⟩

/-- A tree may be rearranged before an item is put into it. -/
theorem Rearranged.grown {h₁ : Heap} {t t₁ t' : Tree Nat Item (d + 1)} {x : Item}
    (hr : Rearranged h h₁ t t₁) (hlabel : t₁.label = t.label)
    (hcount : t.items.length ≤ t₁.items.length) (hg : Grown x h₁ h' t₁ t') : Grown x h h' t t' :=
  ⟨hg.built, hr.loc.trans hg.loc, hg.freed.trans hr.freed, hg.label.trans hlabel,
    hr.toList ▸ hg.inserted, hcount.trans hg.le_count,
    fun lo hlo he => hg.each lo hlo (hr.each lo hlo he)⟩

theorem splitFull_child {root c p key pos : Nat} (hfull : h.count c = 7) (hp : p ≠ 0) :
    splitFull a ⟨h, root⟩ c p key pos =
      (⟨insertNode (splitNode a h c).1 p pos (splitNode a h c).2.2 c (a.pick h), root⟩,
        if key > (splitNode a h c).2.2.key then a.pick h else c) := by
  simp only [splitFull, hfull, btreeOrder, if_true, hp, ne_eq, not_false_eq_true]
  rfl

theorem splitFull_of_not_full {root c p key pos : Nat} (hlen : h.count c ≠ 7) :
    splitFull a ⟨h, root⟩ c p key pos = (⟨h, root⟩, c) := if_neg hlen

/-- **The way down from a node that is not full** ends at the leaf where the item belongs, and
leaves a tree that is as it was, up to nodes that were split. -/
theorem descend_spec {x : Item} {root : Nat} : {d : Nat} → {t : Tree Nat Item (d + 1)} →
    {h : Heap} → {fuel : Nat} → Built h t → h.Clean → a.Avoids h.freed → t.items.length ≤ 6 →
    Ordered Item.key t.toList → d ≤ fuel →
    ∃ h' q i t', descend a x.key fuel ⟨h, root⟩ t.label = some (⟨h', root⟩, q, i) ∧
      Grown x h (insertItem h' q i x) t t'
  | 0, t, h, fuel, hb, _, _, hlen, hord, _ => by
    obtain ⟨p, ks, rfl⟩ := exists_leaf t
    have hat := (stores_node.mp hb.stores).1
    obtain ⟨ls, rs, rfl, hls, hrs⟩ := exists_cut (fun y : Item => decide (y.key ≤ x.key)) ks
    simp only [decide_eq_true_eq, Nat.not_le] at hls hrs
    have hslot := destSlot_eq hat hlen hls hrs
    have hleaf : h.child p ls.length = 0 := by
      rcases hat.kids with ⟨-, hleaf⟩ | ⟨hcs, -⟩
      · exact hleaf _ (by simp at hlen; omega)
      · simp at hcs
    refine ⟨h, p, ls.length, _, ?_, grown_leaf hb hlen hls hrs (by simpa using hord)⟩
    simp [descend, hslot, hleaf]
  | d + 1, t, h, fuel, hb, hclean, hav, hlen, hord, hfuel => by
    obtain ⟨f, rfl⟩ := Nat.exists_eq_add_of_le' (by omega : 1 ≤ fuel)
    obtain ⟨p, ks, ts, rfl⟩ := exists_node t
    have harity := (stores_node.mp hb.stores).2.1.resolve_left (by omega)
    obtain ⟨ls, u, rs, hplug, hls, hrs⟩ := exists_plug_cut (p := p)
      (fun y : Item => decide (y.key ≤ x.key)) harity
    simp only [decide_eq_true_eq, Nat.not_le] at hls hrs
    rw [hplug] at hb hlen hord ⊢
    have hpat := (stores_plug.mp hb.stores).1
    have hslot : destSlot h p x.key = some (ls.map Prod.snd).length :=
      destSlot_eq hpat (by simpa using hlen) (List.forall_mem_map.mpr hls) (by simpa using hrs)
    rw [List.length_map] at hslot
    have hchild : h.child p ls.length = u.label := by simpa using hpat.child_eq
    have hu := hb.focus.1
    have hulabel := Stores.label_ne_zero hu.stores
    have hgo : descend a x.key (f + 1) ⟨h, root⟩ (plug p ls u rs).label = descend a x.key f
        (splitFull a ⟨h, root⟩ u.label p x.key ls.length).1
        (splitFull a ⟨h, root⟩ u.label p x.key ls.length).2 := by
      rw [← findDestNode_succ hulabel]
      simp only [descend, label_plug, hslot, hchild, if_neg hulabel]
    obtain ⟨c, ks, us, rfl⟩ : ∃ c ks us, u = node c ks us := ⟨_, _, _, (eta u).symm⟩
    have hcat := (stores_node.mp hu.stores).1
    rw [hgo]
    by_cases hfull : ks.length = 7
    · have hp0 := hpat.ne_zero
      rw [splitFull_child (by rw [label_node, hcat.count]; exact hfull) hp0]
      have hsplit := split_child hb hfull (by simpa using hlen) rfl
        (fun r hr => Nat.ne_of_gt (Nat.zero_lt_of_lt (hrs r hr))) hclean hav
      have hb' := hsplit.built
      have hclean' := hsplit.loc.clean hclean
      rw [← hsplit.toList] at hord
      rw [← hsplit.freed] at hav
      by_cases hm : x.key > (splitNode a h c).2.2.key
      · rw [plug_shift] at hb' hord
        rw [label_node, if_pos hm]
        have hrord : Ordered Item.key (rightHalf (a.pick h) ks us).toList := by
          rw [toList_plug] at hord
          exact hord.left.right
        obtain ⟨h', q, i, t', hrun, hg⟩ := descend_spec (x := x) hb'.focus.1 hclean' hav
          (by simp [rightHalf, hfull]) hrord (by omega : d ≤ f)
        have hleft : ∀ l ∈ ls ++ [(leftHalf c ks us, (splitNode a h c).2.2)], l.2.key ≤ x.key := by
          intro l hl
          rcases List.mem_append.mp hl with hl | hl
          · exact hls l hl
          · rw [List.mem_singleton.mp hl]
            exact Nat.le_of_lt hm
        have hstep := hg.replace hb' hord hleft fun r hr => Nat.le_of_lt (hrs r hr)
        rw [← plug_shift] at hstep
        exact ⟨h', q, i, _, hrun, hsplit.grown rfl (by simp) hstep⟩
      · rw [label_node, if_neg hm]
        have hlord : Ordered Item.key (leftHalf c ks us).toList := by
          rw [toList_plug] at hord
          exact hord.left.right
        obtain ⟨h', q, i, t', hrun, hg⟩ := descend_spec (x := x) hb'.focus.1 hclean' hav
          (by simp [leftHalf, hfull]) hlord (by omega : d ≤ f)
        have hstep := hg.replace hb' hord hls (by simpa using hm)
        exact ⟨h', q, i, _, hrun, hsplit.grown rfl (by simp) hstep⟩
    · rw [splitFull_of_not_full (by rw [label_node, hcat.count]; exact hfull)]
      have hcord : Ordered Item.key (node c ks us).toList := by
        rw [toList_plug] at hord
        exact hord.left.right
      have hcle := hcat.le
      obtain ⟨h', q, i, t', hrun, hg⟩ := descend_spec (x := x) hu hclean hav
        (show ks.length ≤ 6 by omega) hcord (by omega : d ≤ f)
      exact ⟨h', q, i, _, hrun, hg.replace hb hord hls fun r hr => Nat.le_of_lt (hrs r hr)⟩

/-! ## insertion -/

/-- The tree of `s` is `t`, with its items in order. -/
structure Represents (s : Btree) (t : Tree Nat Item (d + 1)) : Prop where
  root : s.root = t.label
  built : Built s.heap t
  clean : s.heap.Clean
  ordered : Ordered Item.key t.toList
  inner : d ≠ 0 → t.items ≠ []

/-- `s` holds the items `xs`, in order, with at least `lo` of them in every node below the
root. -/
def Holds (lo : Nat) (s : Btree) (xs : List Item) : Prop :=
  s.root = 0 ∧ s.heap.Clean ∧ xs = [] ∨
    ∃ d, ∃ t : Tree Nat Item (d + 1), Represents s t ∧ Each (fun _ n => lo ≤ n) t ∧ t.toList = xs

/-- A leaf with one item. -/
theorem represents_leaf {p : Nat} {x : Item} (hp : p ≠ 0) (hlive : p ∈ h.live) (hclean : h.Clean)
    (hleaf : ∀ i < 8, h.child p i = 0) :
    Represents ⟨(h.init p).setItem p 0 x, p⟩ (node p [x] ([] : List (Tree Nat Item 0))) := by
  have hedit : Edits [p] h ((h.init p).setItem p 0 x) :=
    (edits_setCount (by simp)).trans (edits_setItem (by simp))
  have hlocal := hedit.local (by simpa using hlive)
  have hat : At ((h.init p).setItem p 0 x) p [x] [] := by
    refine ⟨hp, ?_, by simp, ?_, .inl ⟨rfl, fun i hi => ?_⟩⟩
    · simp [Heap.setItem, Heap.init]
    · simp [Heap.setItem, Heap.init, slots]
    · simp [Heap.setItem, Heap.init, Heap.child_writeItem, hleaf i hi]
  exact ⟨rfl, ⟨stores_node.mpr ⟨hat, .inl rfl, by simp⟩, by simp, hlocal.live⟩, hlocal.clean hclean,
    by simp [Ordered], by simp⟩

theorem Built.height_le {t : Tree Nat Item d} (hb : Built h t) : d ≤ h.live.length :=
  hb.stores.height_le.trans (List.subperm_of_subset hb.nodup hb.live).length_le

theorem Rearranged.refl {t : Tree Nat Item d} (hb : Built h t) : Rearranged h h t t :=
  ⟨hb, Edits.refl.local hb.live, rfl, rfl, fun _ _ he => he⟩

/-- `insert` puts `x` into the tree `t` of `s`. -/
def Inserts (a : Ator) (s : Btree) (x : Item) (t : Tree Nat Item (d + 1)) : Prop :=
  ∃ s', s.insert a x.key x.val = some s' ∧ s'.heap.freed = s.heap.freed ∧
    ∃ e, ∃ t' : Tree Nat Item (e + 1), Represents s' t' ∧
      Inserted Item.key x t.toList t'.toList ∧
      ∀ lo ≤ btreeMin, Each (fun _ n => lo ≤ n) t → Each (fun _ n => lo ≤ n) t'

/-- After the root has been split, or not, the item is put at the end of a path from it. -/
theorem inserts_of_rearranged {e root : Nat} {h₁ : Heap} {t : Tree Nat Item (d + 1)}
    {t₁ : Tree Nat Item (e + 1)} {x : Item} (hs : Represents ⟨h, root⟩ t) (hne : t.items ≠ [])
    (hav : a.Avoids h.freed) (hr : Rearranged h h₁ t t₁) (hlen : t₁.items.length ≤ 6)
    (hne₁ : t₁.items ≠ []) (he : e ≤ h.live.length + 1)
    (hgo : splitFull a ⟨h, root⟩ root 0 x.key 0 = (⟨h₁, t₁.label⟩, t₁.label)) :
    Inserts a ⟨h, root⟩ x t := by
  obtain rfl : root = t.label := hs.root
  have hat : At h t.label t.items (t.kids.map label) := (stores_node.mp hs.built.stores).1
  have hempty : (⟨h, t.label⟩ : Btree).isEmpty = false := by
    simpa [isEmpty, hat.ne_zero, hat.count] using hne
  have hord := hr.toList ▸ hs.ordered
  have hclean := hr.loc.clean hs.clean
  obtain ⟨h', q, i, t', hrun, hg⟩ :=
    descend_spec (x := x) hr.built hclean (hr.freed ▸ hav) hlen hord he
  have hfind : findDestNode a x.key (h.live.length + 1 + 1) ⟨h, t.label⟩ t.label 0 0 =
      some (⟨h', t₁.label⟩, q, i) := by
    rw [findDestNode_succ hat.ne_zero, hgo]
    exact hrun
  refine ⟨⟨insertItem h' q i x, t₁.label⟩, ?_, hg.freed.trans hr.freed, e, t', ⟨hg.label.symm,
    hg.built, hg.loc.clean hclean, hg.inserted.ordered hord, fun _ hnil => ?_⟩,
    hr.toList ▸ hg.inserted, fun lo hlo h => hg.each lo hlo (hr.each lo hlo h)⟩
  · simp only [insert, hempty, Heap.depthBound, hfind]
    rfl
  · have hle := hg.le_count
    rw [hnil] at hle
    exact hne₁ (List.length_eq_zero_iff.mp (Nat.le_zero.mp hle))

theorem splitFull_root {root key : Nat} (hfull : h.count root = 7) :
    splitFull a ⟨h, root⟩ root 0 key 0 =
      (⟨growRoot a (splitNode a h root).1 root (a.pick h) (splitNode a h root).2.2,
        a.pick (splitNode a h root).1⟩, a.pick (splitNode a h root).1) := by
  simp only [splitFull, hfull, btreeOrder, if_true]
  rfl

/-- `insert` into a tree that is not empty. -/
theorem inserts_tree {s : Btree} {t : Tree Nat Item (d + 1)} {x : Item} (hs : Represents s t)
    (hne : t.items ≠ []) (hav : a.Avoids s.heap.freed) : Inserts a s x t := by
  obtain ⟨h, root⟩ := s
  obtain ⟨c, ks, ts, rfl⟩ : ∃ c ks ts, t = node c ks ts := ⟨_, _, _, (eta t).symm⟩
  obtain rfl : root = c := hs.root
  have hat := (stores_node.mp hs.built.stores).1
  have hbound : d + 1 ≤ h.live.length := hs.built.height_le
  by_cases hfull : ks.length = 7
  · exact inserts_of_rearranged hs hne hav (split_root hs.built hfull hs.clean hav) (by simp)
      (by simp) (by omega) (splitFull_root (hat.count.trans hfull))
  · have hle := hat.le
    exact inserts_of_rearranged hs hne hav (.refl hs.built) (show ks.length ≤ 6 by omega) hne
      (by omega) (splitFull_of_not_full (hat.count ▸ hfull))

theorem Heap.Clean.allocate (hclean : h.Clean) : (h.allocate a).Clean :=
  fun q hq hf => hclean q (fun hmem => hq (List.mem_cons_of_mem _ hmem)) hf

/-- `insert` into a tree without items. -/
theorem insert_empty {s : Btree} {x : Item} (hempty : s.isEmpty) :
    s.insert a x.key x.val = some (s.insertNodeEmptyTree a x) := if_pos hempty

/-- **`insert`** returns, and puts the item where its key belongs. -/
theorem holds_insert {lo : Nat} {s : Btree} {xs : List Item} (hlo : lo ≤ btreeMin)
    (hs : Holds lo s xs) (hav : a.Avoids s.heap.freed) (x : Item) :
    ∃ s' ys, s.insert a x.key x.val = some s' ∧ s'.heap.freed = s.heap.freed ∧ Holds lo s' ys ∧
      Inserted Item.key x xs ys := by
  obtain ⟨h, root⟩ := s
  have hone : Inserted Item.key x [] [x] := ⟨[], [], by simp⟩
  rcases hs with ⟨hroot, hclean, rfl⟩ | ⟨d, t, hs, heach, rfl⟩
  · -- the first block of the tree
    obtain rfl : root = 0 := hroot
    have hrep := represents_leaf (x := x) (a.pick_ne_zero h) List.mem_cons_self hclean.allocate
      (hclean _ (a.pick_notMem_live h) (hav h rfl))
    exact ⟨_, [x], insert_empty (by simp [isEmpty]), rfl,
      .inr ⟨0, _, hrep, by simp [each_node], by simp⟩, hone⟩
  · by_cases hne : t.items = []
    · -- only a leaf can be without items
      obtain rfl : d = 0 := by_contra fun hd => hs.inner hd hne
      obtain rfl : root = t.label := hs.root
      have hat : At h t.label t.items (t.kids.map label) := (stores_node.mp hs.built.stores).1
      have hleaf : ∀ i < 8, h.child t.label i = 0 := by
        simpa [kids_leaf] using hat.kids
      have hrep := represents_leaf (x := x) hat.ne_zero (hs.built.live _ t.label_mem_labels)
        hs.clean hleaf
      have hempty : (⟨h, t.label⟩ : Btree).isEmpty := by simp [isEmpty, hat.count, hne]
      refine ⟨⟨(h.init t.label).setItem t.label 0 x, t.label⟩, [x], ?_, rfl,
        .inr ⟨0, _, hrep, by simp [each_node], by simp⟩, ?_⟩
      · rw [insert_empty hempty]
        simp [insertNodeEmptyTree, hat.ne_zero]
      · rw [toList_leaf, hne]
        exact hone
    · obtain ⟨s', hrun, hfreed, e, t', hrep, hins, hocc⟩ := inserts_tree (x := x) hs hne hav
      exact ⟨s', t'.toList, hrun, hfreed, .inr ⟨e, t', hrep, hocc lo hlo heach, rfl⟩, hins⟩

/-! ## runs of insertions -/

/-- `btree_t::init`. -/
def init (s : Btree) : Btree := { s with root := 0 }

theorem holds_init {lo : Nat} {s : Btree} (hclean : s.heap.Clean) : Holds lo s.init [] :=
  .inl ⟨rfl, hclean, rfl⟩

/-- `insert` of an item. -/
def put (a : Ator) (s : Btree) (x : Item) : Option Btree := s.insert a x.key x.val

/-- **A run of insertions** returns; the map then holds what was put into it. -/
theorem run_insert {lo : Nat} {s : Btree} {xs : List Item} (hlo : lo ≤ btreeMin)
    (hs : Holds lo s xs) (hav : a.Avoids s.heap.freed) (ins : List Item) :
    ∃ s' ys, run (put a) s ins = some s' ∧ Holds lo s' ys ∧ ys.Perm (ins ++ xs) := by
  induction ins generalizing s xs with
  | nil => exact ⟨s, xs, rfl, hs, .refl _⟩
  | cons x ins ih =>
      obtain ⟨s₁, ys, hstep, hfreed, hs₁, hins⟩ := holds_insert hlo hs hav x
      obtain ⟨s', zs, hrun, hs', hperm⟩ := ih hs₁ (hfreed ▸ hav)
      refine ⟨s', zs, by rw [run_cons, put, hstep]; exact hrun, hs', hperm.trans ?_⟩
      exact (hins.perm.append_left ins).trans List.perm_middle

/-- A leaf has room for seven items. -/
theorem Represents.inner_of_length {s : Btree} {t : Tree Nat Item (d + 1)} (hs : Represents s t)
    (hlen : 7 < t.toList.length) : d ≠ 0 := by
  rintro rfl
  have hle : t.items.length ≤ 7 := (stores_node.mp hs.built.stores).1.le
  rw [toList_leaf] at hlen
  omega

/-- The smallest number of items that needs a split, with the keys 1 to 8. -/
def eight : List Item := (List.range 8).map fun n => ⟨n + 1, 10 * (n + 1)⟩

/-- A map that `insert` built, with an inner node. -/
theorem exists_holds_eight : ∃ s d, ∃ t : Tree Nat Item (d + 2),
    run (put bump) (init ⟨vacant, 0⟩) eight = some s ∧ Represents s t ∧
      Each (fun _ n => btreeMin ≤ n) t ∧ t.toList = eight := by
  obtain ⟨s, ys, hrun, hs, hperm⟩ := run_insert (Nat.le_refl btreeMin)
    (holds_init (s := ⟨vacant, 0⟩) clean_vacant) bump_fresh.avoids eight
  rw [List.append_nil] at hperm
  rcases hs with ⟨-, -, rfl⟩ | ⟨d, t, hs, heach, rfl⟩
  · exact absurd hperm.length_eq (by decide)
  -- the keys differ, so there is one order
  have hkeys : ∀ x ∈ t.toList, ∀ y ∈ eight, x.key ≤ y.key → y.key ≤ x.key → x = y := by
    intro x hx y hy hxy hyx
    have hinj : ∀ x ∈ eight, ∀ y ∈ eight, x.key = y.key → x = y := by decide
    exact hinj x (hperm.mem_iff.mp hx) y hy (Nat.le_antisymm hxy hyx)
  have hlist : t.toList = eight := List.Perm.eq_of_pairwise
    (fun x y hx hy => hkeys x hx y hy) hs.ordered (by decide) hperm
  obtain ⟨d, rfl⟩ := Nat.exists_eq_succ_of_ne_zero (hs.inner_of_length (by rw [hlist]; decide))
  exact ⟨s, d, t, hrun, hs, heach, hlist⟩

end Cxlbuf.Btree
