import Cxlbuf.Lib.ByKey
import Mathlib.Algebra.Group.Action.Defs
import Mathlib.Algebra.GroupWithZero.Nat
import Mathlib.Algebra.Order.BigOperators.Group.List
import Mathlib.Algebra.Order.Ring.Nat
import Mathlib.Data.List.Basic

/-!
# Cxlbuf.Lib.Multiway

Multiway search trees of uniform height.  A node has a label (where it is
stored), items, and either no children (a leaf) or one more child than items;
`toList` lists the items in order.

A node with one of its children in focus is `plug p ls t rs`: the children
before it, each with the item after it, the child, and the children behind it,
each with the item before it.  Every node can be focused at every child
(`exists_plug`), and what is done to a child, or to two adjacent ones, is seen
in `toList` at its place (`toList_plug`).

A memory stores a tree (`Stores`) if every node stands at its label.  Where a
memory changes only in the nodes of one child, the rest of the tree stays
stored (`Stores.imp`).
-/

namespace Multiway

variable {P α : Type} {d : Nat}

/-! ## in-order listing -/

/-- Lists with items between them; without lists, the items alone. -/
def weave : List (List α) → List α → List α
  | [], ks => ks
  | x :: _, [] => x
  | x :: xs, k :: ks => x ++ k :: weave xs ks

@[simp] theorem weave_nil (ks : List α) : weave [] ks = ks := by simp [weave]

@[simp] theorem weave_items_nil (x : List α) (xs : List (List α)) : weave (x :: xs) [] = x := by
  simp [weave]

theorem weave_cons {x : List α} {k : α} {xs : List (List α)} {ks : List α} :
    weave (x :: xs) (k :: ks) = x ++ k :: weave xs ks := by simp [weave]

/-- Cut at an item. -/
theorem weave_append {xs ys : List (List α)} {ks ls : List α} {k : α}
    (hxs : xs = [] ∧ ys = [] ∨ xs.length = ks.length + 1) :
    weave (xs ++ ys) (ks ++ k :: ls) = weave xs ks ++ k :: weave ys ls := by
  rcases hxs with ⟨rfl, rfl⟩ | hlen
  · simp
  · induction ks generalizing xs with
    | nil =>
        obtain ⟨x, rfl⟩ := List.length_eq_one_iff.mp hlen
        simp [weave_cons]
    | cons k' ks ih =>
        obtain ⟨x, xs, rfl⟩ := List.exists_cons_of_length_pos (by omega : 0 < xs.length)
        have hrest : weave (xs ++ ys) (ks ++ k :: ls) = weave xs ks ++ k :: weave ys ls :=
          ih (by simpa using hlen)
        simp [weave_cons, hrest]

theorem length_weave {xs : List (List α)} {ks : List α} (hlen : xs.length = ks.length + 1) :
    (weave xs ks).length = (xs.map List.length).sum + ks.length := by
  induction ks generalizing xs with
  | nil =>
      obtain ⟨x, rfl⟩ := List.length_eq_one_iff.mp hlen
      simp
  | cons k ks ih =>
      obtain ⟨x, xs, rfl⟩ := List.exists_cons_of_length_pos (by omega : 0 < xs.length)
      have hrest : (weave xs ks).length = (xs.map List.length).sum + ks.length :=
        ih (by simpa using hlen)
      simp only [weave_cons, List.length_append, List.length_cons, hrest, List.map_cons,
        List.sum_cons]
      omega

theorem sublist_weave {xs : List (List α)} {ks : List α}
    (hxs : xs = [] ∨ xs.length = ks.length + 1) : ks.Sublist (weave xs ks) := by
  rcases hxs with rfl | hlen
  · simp
  · induction ks generalizing xs with
    | nil => exact List.nil_sublist _
    | cons k ks ih =>
        obtain ⟨x, xs, rfl⟩ := List.exists_cons_of_length_pos (by omega : 0 < xs.length)
        have hrest : ks.Sublist (weave xs ks) := ih (by simpa using hlen)
        rw [weave_cons]
        exact (hrest.cons_cons k).trans (List.sublist_append_right x _)

/-! ## trees -/

/-- Trees of height `d`.  There is none of height 0; a leaf has height 1. -/
def Tree (P α : Type) : Nat → Type
  | 0 => Empty
  | d + 1 => P × List α × List (Tree P α d)

namespace Tree

/-- A node. -/
def node (p : P) (ks : List α) (ts : List (Tree P α d)) : Tree P α (d + 1) := (p, ks, ts)

/-- Where the node is stored. -/
def label : {d : Nat} → Tree P α d → P
  | _ + 1, t => t.1

/-- The node's own items. -/
def items : {d : Nat} → Tree P α d → List α
  | _ + 1, t => t.2.1

/-- The node's children. -/
def kids (t : Tree P α (d + 1)) : List (Tree P α d) := t.2.2

/-- All items in order. -/
def toList : {d : Nat} → Tree P α d → List α
  | _ + 1, t => weave (t.2.2.map toList) t.2.1

/-- Where the nodes are stored. -/
def labels : {d : Nat} → Tree P α d → List P
  | _ + 1, t => t.1 :: t.2.2.flatMap labels

@[simp] theorem label_node (p : P) (ks : List α) (ts : List (Tree P α d)) :
    (node p ks ts).label = p := rfl

@[simp] theorem items_node (p : P) (ks : List α) (ts : List (Tree P α d)) :
    (node p ks ts).items = ks := rfl

@[simp] theorem kids_node (p : P) (ks : List α) (ts : List (Tree P α d)) :
    (node p ks ts).kids = ts := rfl

@[simp] theorem toList_node (p : P) (ks : List α) (ts : List (Tree P α d)) :
    (node p ks ts).toList = weave (ts.map toList) ks := rfl

@[simp] theorem labels_node (p : P) (ks : List α) (ts : List (Tree P α d)) :
    (node p ks ts).labels = p :: ts.flatMap labels := rfl

theorem eta (t : Tree P α (d + 1)) : node t.label t.items t.kids = t := rfl

theorem kids_leaf (t : Tree P α 1) : t.kids = [] :=
  List.eq_nil_iff_forall_not_mem.mpr fun u => nomatch (show Empty from u)

theorem toList_leaf (t : Tree P α 1) : t.toList = t.items := by
  rw [← eta t, kids_leaf]
  simp

/-- Two nodes and an item between them list like one node. -/
theorem toList_join {p q r : P} {ks ls : List α} {ts us : List (Tree P α d)} {k : α}
    (harity : d = 0 ∨ ts.length = ks.length + 1) : (node p (ks ++ k :: ls) (ts ++ us)).toList =
      (node q ks ts).toList ++ k :: (node r ls us).toList := by
  have hnone : d = 0 → ∀ vs : List (Tree P α d), vs = [] := by
    rintro rfl vs
    exact kids_leaf (node p [] vs)
  simp only [toList_node, List.map_append]
  refine weave_append ?_
  rcases harity with hd | hlen
  · simp [hnone hd]
  · exact .inr (by simpa using hlen)

theorem label_mem_labels : {d : Nat} → (t : Tree P α d) → t.label ∈ t.labels
  | _ + 1, _ => List.mem_cons_self

/-- A node is made of its parts. -/
theorem exists_node (t : Tree P α (d + 1)) : ∃ p ks ts, t = node p ks ts :=
  ⟨_, _, _, (eta t).symm⟩

/-- At the bottom there are leaves. -/
theorem exists_leaf (t : Tree P α 1) : ∃ p ks, t = node p ks [] :=
  ⟨t.label, t.items, by rw [← kids_leaf t, eta]⟩

/-! ## a child in focus -/

/-- What stands before the child in focus. -/
def before (ls : List (Tree P α d × α)) : List α := ls.flatMap fun l => l.1.toList ++ [l.2]

/-- What stands behind the child in focus. -/
def after (rs : List (α × Tree P α d)) : List α := rs.flatMap fun r => r.1 :: r.2.toList

/-- The node at `p` with the child `t` in focus. -/
def plug (p : P) (ls : List (Tree P α d × α)) (t : Tree P α d) (rs : List (α × Tree P α d)) :
    Tree P α (d + 1) :=
  node p (ls.map Prod.snd ++ rs.map Prod.fst) (ls.map Prod.fst ++ t :: rs.map Prod.snd)

variable {p : P} {ls : List (Tree P α d × α)} {t u : Tree P α d} {rs : List (α × Tree P α d)}
  {k : α}

@[simp] theorem label_plug : (plug p ls t rs).label = p := rfl

@[simp] theorem items_plug :
    (plug p ls t rs).items = ls.map Prod.snd ++ rs.map Prod.fst := rfl

@[simp] theorem kids_plug :
    (plug p ls t rs).kids = ls.map Prod.fst ++ t :: rs.map Prod.snd := rfl

@[simp] theorem before_nil : before ([] : List (Tree P α d × α)) = [] := rfl

@[simp] theorem after_nil : after ([] : List (α × Tree P α d)) = [] := rfl

theorem before_concat : before (ls ++ [(t, k)]) = before ls ++ (t.toList ++ [k]) := by
  simp [before]

theorem after_cons : after ((k, t) :: rs) = k :: t.toList ++ after rs := by
  simp [after]

/-- The focus moves to the child on the right. -/
theorem plug_shift : plug p ls t ((k, u) :: rs) = plug p (ls ++ [(t, k)]) u rs := by
  simp [plug]

theorem labels_plug : (plug p ls t rs).labels =
    p :: (ls.flatMap (fun l => l.1.labels) ++ t.labels ++ rs.flatMap fun r => r.2.labels) := by
  simp [plug, List.flatMap_map]

theorem weave_after : weave (t.toList :: rs.map fun r => r.2.toList) (rs.map Prod.fst) =
    t.toList ++ after rs := by
  induction rs generalizing t with
  | nil => simp
  | cons r rs ih =>
      have hrest := ih (t := r.2)
      simp [weave_cons, hrest, after]

theorem toList_plug : (plug p ls t rs).toList = before ls ++ t.toList ++ after rs := by
  have hkids : (plug p ls t rs).toList = weave
      (ls.map (fun l => l.1.toList) ++ t.toList :: rs.map fun r => r.2.toList)
      (ls.map Prod.snd ++ rs.map Prod.fst) := by
    simp [plug, Function.comp_def]
  rw [hkids]
  induction ls with
  | nil => simp [weave_after]
  | cons l ls ih =>
      have hrest := ih (by simp [plug, Function.comp_def])
      simp only [List.map_cons, List.cons_append, weave_cons, hrest, before, List.flatMap_cons]
      simp

/-- **Every node can be focused at every child.** -/
theorem exists_plug {ks : List α} {ts : List (Tree P α d)} (hlen : ts.length = ks.length + 1)
    {i : Nat} (hi : i ≤ ks.length) :
    ∃ ls t rs, node p ks ts = plug p ls t rs ∧ ls.length = i ∧ ls.map Prod.snd = ks.take i ∧
      rs.map Prod.fst = ks.drop i := by
  have hti : i < ts.length := by omega
  have hleft : (ts.take i).length = (ks.take i).length := by simp; omega
  have hright : (ks.drop i).length = (ts.drop (i + 1)).length := by simp; omega
  refine ⟨(ts.take i).zip (ks.take i), ts[i], (ks.drop i).zip (ts.drop (i + 1)), ?_, ?_, ?_, ?_⟩
  · rw [plug, List.map_snd_zip hleft.ge, List.map_fst_zip hright.le, List.map_fst_zip hleft.le,
      List.map_snd_zip hright.ge, List.take_append_drop, ← List.drop_eq_getElem_cons hti,
      List.take_append_drop]
  · simp; omega
  · rw [List.map_snd_zip hleft.ge]
  · rw [List.map_fst_zip hright.le]

/-- A node can be focused behind the items with a property. -/
theorem exists_plug_cut {ks : List α} {ts : List (Tree P α d)} (f : α → Bool)
    (hlen : ts.length = ks.length + 1) :
    ∃ ls t rs, node p ks ts = plug p ls t rs ∧ (∀ l ∈ ls, f l.2) ∧ ∀ r ∈ rs.head?, ¬f r.1 := by
  obtain ⟨ks₁, ks₂, rfl, hks₁, hks₂⟩ := ByKey.exists_cut f ks
  obtain ⟨ls, t, rs, hplug, -, hls, hrs⟩ := exists_plug (p := p) hlen
    (by simp : ks₁.length ≤ (ks₁ ++ ks₂).length)
  rw [List.take_left] at hls
  rw [List.drop_left] at hrs
  refine ⟨ls, t, rs, hplug, fun l hl => hks₁ l.2 (hls ▸ List.mem_map_of_mem hl), fun r hr => ?_⟩
  refine hks₂ r.1 ?_
  rw [← hrs, List.head?_map, Option.mem_def.mp hr]
  rfl

/-! ## a child in focus of an ordered tree -/

section Ordered

open ByKey

variable {κ : Type} [Preorder κ] {key : α → κ} {y : α}

/-- What stands before the child in focus is bounded by an item of the node. -/
theorem exists_le_of_mem_before (hord : Ordered key (before ls)) (hy : y ∈ before ls) :
    ∃ l ∈ ls, key y ≤ key l.2 := by
  obtain ⟨l, hl, hmem⟩ := List.mem_flatMap.mp hy
  obtain ⟨as, bs, rfl⟩ := List.append_of_mem hl
  have hblock : Ordered key (l.1.toList ++ [l.2]) := by
    simp only [before, List.flatMap_append, List.flatMap_cons] at hord
    exact hord.right.left
  refine ⟨l, hl, ?_⟩
  rcases List.mem_append.mp hmem with hmem | hmem
  · exact hblock.le_of_mem_left hmem
  · rw [List.mem_singleton.mp hmem]

/-- What stands behind the child in focus is bounded by the item next to it. -/
theorem exists_le_of_mem_after (hord : Ordered key (after rs)) (hy : y ∈ after rs) :
    ∃ r ∈ rs.head?, key r.1 ≤ key y := by
  cases rs with
  | nil => simp at hy
  | cons r rs =>
      refine ⟨r, rfl, ?_⟩
      simp only [after, List.flatMap_cons, List.cons_append] at hord hy
      rcases List.mem_cons.mp hy with rfl | hy
      · exact le_refl _
      · exact hord.le_of_mem_right hy

end Ordered

/-! ## trees in a memory -/

/-- A memory, given by which items and children stand at a label, stores the tree. -/
def Stores (At : P → List α → List P → Prop) : {d : Nat} → Tree P α d → Prop
  | d + 1, t => At t.1 t.2.1 (t.2.2.map label) ∧ (d = 0 ∨ t.2.2.length = t.2.1.length + 1) ∧
      ∀ u ∈ t.2.2, Stores At u

variable {At At' : P → List α → List P → Prop}

theorem stores_node {ks : List α} {ts : List (Tree P α d)} : Stores At (node p ks ts) ↔
    At p ks (ts.map label) ∧ (d = 0 ∨ ts.length = ks.length + 1) ∧ ∀ u ∈ ts, Stores At u := Iff.rfl

theorem stores_plug : Stores At (plug p ls t rs) ↔
    At p (ls.map Prod.snd ++ rs.map Prod.fst)
      (ls.map (fun l => l.1.label) ++ t.label :: rs.map fun r => r.2.label) ∧
      (∀ l ∈ ls, Stores At l.1) ∧ Stores At t ∧ ∀ r ∈ rs, Stores At r.2 := by
  have hlen : (ls.map Prod.fst ++ t :: rs.map Prod.snd).length =
      (ls.map Prod.snd ++ rs.map Prod.fst).length + 1 := by simp; omega
  simp only [plug, stores_node, hlen, or_true, true_and, List.map_append, List.map_map,
    List.map_cons, Function.comp_def]
  refine and_congr_right fun _ => ?_
  simp only [List.mem_append, List.mem_map, List.mem_cons]
  constructor
  · intro h
    exact ⟨fun l hl => h _ (.inl ⟨l, hl, rfl⟩), h _ (.inr (.inl rfl)),
      fun r hr => h _ (.inr (.inr ⟨r, hr, rfl⟩))⟩
  · rintro ⟨hls, ht, hrs⟩ u (⟨l, hl, rfl⟩ | rfl | ⟨r, hr, rfl⟩)
    · exact hls l hl
    · exact ht
    · exact hrs r hr

/-- A memory that has the nodes of a tree where another has them stores it too. -/
theorem Stores.imp : {d : Nat} → {t : Tree P α d} → Stores At t →
    (∀ p ∈ t.labels, ∀ ks cs, At p ks cs → At' p ks cs) → Stores At' t
  | _ + 1, t, ⟨hat, harity, hkids⟩, h =>
    ⟨h t.1 List.mem_cons_self _ _ hat, harity, fun u hu => (hkids u hu).imp fun p hp =>
      h p (List.mem_cons_of_mem _ (List.mem_flatMap.mpr ⟨u, hu, hp⟩))⟩

/-- A tree has at least as many nodes as it is high. -/
theorem Stores.height_le : {d : Nat} → {t : Tree P α d} → Stores At t → d ≤ t.labels.length
  | 1, _, _ => Nat.succ_le_succ (Nat.zero_le _)
  | d + 2, t, ⟨_, harity, hkids⟩ => by
    have hpos : 0 < t.2.2.length := by have := harity.resolve_left (by omega); omega
    obtain ⟨u, us, hus⟩ := List.exists_cons_of_length_pos hpos
    have hu : d + 1 ≤ u.labels.length := (hkids u (by simp [hus])).height_le
    have hlabels : t.labels = t.1 :: (u.labels ++ us.flatMap labels) := by
      rw [labels, hus, List.flatMap_cons]
    rw [hlabels, List.length_cons, List.length_append]
    omega

/-! ## occupancy -/

/-- Every node below the root, by its label and how many items it has. -/
def Each (Q : P → Nat → Prop) : {d : Nat} → Tree P α d → Prop
  | _ + 1, t => ∀ u ∈ t.2.2, Q u.label u.items.length ∧ Each Q u

variable {Q Q' : P → Nat → Prop}

theorem each_node {ks : List α} {ts : List (Tree P α d)} :
    Each Q (node p ks ts) ↔ ∀ u ∈ ts, Q u.label u.items.length ∧ Each Q u := Iff.rfl

theorem each_plug : Each Q (plug p ls t rs) ↔
    (∀ l ∈ ls, Q l.1.label l.1.items.length ∧ Each Q l.1) ∧ (Q t.label t.items.length ∧ Each Q t) ∧
      ∀ r ∈ rs, Q r.2.label r.2.items.length ∧ Each Q r.2 := by
  simp only [plug, each_node, List.mem_append, List.mem_map, List.mem_cons]
  constructor
  · intro h
    exact ⟨fun l hl => h _ (.inl ⟨l, hl, rfl⟩), h _ (.inr (.inl rfl)),
      fun r hr => h _ (.inr (.inr ⟨r, hr, rfl⟩))⟩
  · rintro ⟨hls, ht, hrs⟩ u (⟨l, hl, rfl⟩ | rfl | ⟨r, hr, rfl⟩)
    · exact hls l hl
    · exact ht
    · exact hrs r hr

theorem Each.imp : {d : Nat} → {t : Tree P α d} → Each Q t →
    (∀ p ∈ t.labels, ∀ n, Q p n → Q' p n) → Each Q' t
  | _ + 1, _, h, himp => fun u hu =>
    have hsub : ∀ p ∈ u.labels, ∀ n, Q p n → Q' p n := fun p hp =>
      himp p (List.mem_cons_of_mem _ (List.mem_flatMap.mpr ⟨u, hu, hp⟩))
    ⟨hsub _ u.label_mem_labels _ (h u hu).1, (h u hu).2.imp hsub⟩

/-- **A tree whose nodes are occupied is large**: with `lo` items in every node
below the root, a tree of height `d + 1` has at least `(n + 1) * (lo + 1) ^ d - 1`
items, where `n` is the number of them in the root. -/
theorem mul_pow_le_length {lo : Nat} : {d : Nat} → {t : Tree P α (d + 1)} → Stores At t →
    Each (fun _ n => lo ≤ n) t → (t.items.length + 1) * (lo + 1) ^ d ≤ t.toList.length + 1
  | 0, t, _, _ => by simp [toList_leaf]
  | d + 1, t, hst, heach => by
    rw [← eta t] at hst heach ⊢
    obtain ⟨-, harity, hkids⟩ := hst
    have hlen : t.kids.length = t.items.length + 1 := harity.resolve_left (by omega)
    have hbound : ∀ u ∈ t.kids, (lo + 1) ^ (d + 1) ≤ u.toList.length + 1 := by
      intro u hu
      have hsub := mul_pow_le_length (hkids u hu) (heach u hu).2
      have hocc := (heach u hu).1
      calc (lo + 1) ^ (d + 1) = (lo + 1) * (lo + 1) ^ d := Nat.pow_succ'
        _ ≤ (u.items.length + 1) * (lo + 1) ^ d := Nat.mul_le_mul_right _ (by omega)
        _ ≤ u.toList.length + 1 := hsub
    have hsum : (t.kids.map fun u => u.toList.length + 1).sum =
        ((t.kids.map toList).map List.length).sum + t.kids.length := by
      simp [List.sum_map_add, Function.comp_def]
    have hlow : (t.kids.map fun u => u.toList.length + 1).length • (lo + 1) ^ (d + 1) ≤
        (t.kids.map fun u => u.toList.length + 1).sum := by
      apply List.card_nsmul_le_sum
      intro n hn
      obtain ⟨u, hu, rfl⟩ := List.mem_map.mp hn
      exact hbound u hu
    rw [List.length_map, hlen, hsum, hlen, smul_eq_mul] at hlow
    rw [toList_node, length_weave (by simpa using hlen), items_node]
    omega

end Tree

end Multiway
