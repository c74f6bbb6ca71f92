import Cxlbuf.Btree.Remove
import Cxlbuf.Lib.Run

/-!
# Cxlbuf.Btree.Runs

Runs of calls.  After any insertions the map holds the items in order, in a
tree of logarithmic height.  With removals in between the map still refines the
list of its items (`Yields`) until three successors were taken from far, when
the bound on the nodes is used up.
-/

namespace Cxlbuf.Btree

open Multiway Multiway.Tree ByKey Run

variable {a : Ator} {h : Heap} {s : Btree} {lo : Nat} {xs : List Item}

/-! ## insertions -/

/-- A tree with at least the minimum in every node below the root is low. -/
theorem two_mul_pow_le {d : Nat} {t : Tree Nat Item (d + 1)} (hs : Represents s t)
    (heach : Each (fun _ n => btreeMin ≤ n) t) (hne : t.toList ≠ []) :
    2 * 4 ^ d ≤ t.toList.length + 1 := by
  have hitems : t.items ≠ [] := by
    cases d with
    | zero => rwa [← toList_leaf]
    | succ d => exact hs.inner (Nat.succ_ne_zero d)
  have hpos := List.length_pos_iff.mpr hitems
  exact (Nat.mul_le_mul_right _ (by omega)).trans (mul_pow_le_length hs.built.stores heach)

/-- **The map after any insertions**: it holds the items in the order of their keys, in a tree with
at least the minimum in every node below the root, whose height is logarithmic. -/
theorem insertions_held (hclean : s.heap.Clean) (hav : a.Avoids s.heap.freed) (x : Item)
    (ins : List Item) :
    ∃ s' d, ∃ t : Tree Nat Item (d + 1),
      run (put a) s.init (x :: ins) = some s' ∧ Represents s' t ∧
      t.toList.Perm (x :: ins) ∧ Each (fun _ n => btreeMin ≤ n) t ∧ 2 * 4 ^ d ≤ ins.length + 2 := by
  obtain ⟨s', ys, hrun, hs', hperm⟩ :=
    run_insert (Nat.le_refl btreeMin) (holds_init hclean) hav (x :: ins)
  rw [List.append_nil] at hperm
  have hlen : ys.length = ins.length + 1 := hperm.length_eq
  rcases hs' with ⟨-, -, rfl⟩ | ⟨d, t, hs', heach, rfl⟩
  · simp at hlen
  · have hne : t.toList ≠ [] := List.ne_nil_of_length_pos (by omega)
    have hlow := two_mul_pow_le hs' heach hne
    rw [hlen] at hlow
    exact ⟨s', d, t, hrun, hs', hperm, heach, hlow⟩

/-- Eight items are one too many for a leaf: the tree has two levels. -/
theorem insertions_held_eight :
    vacant.Clean ∧ bump.Avoids [] ∧ ∃ s', ∃ t : Tree Nat Item 2,
      run (put bump) (init ⟨vacant, 0⟩) eight = some s' ∧ Represents s' t ∧ t.toList.Perm eight ∧
      Each (fun _ n => btreeMin ≤ n) t := by
  refine ⟨clean_vacant, bump_fresh.avoids, ?_⟩
  obtain ⟨s', d, t, hrun, hs, hperm, heach, hlow⟩ := insertions_held (s := ⟨vacant, 0⟩)
    clean_vacant bump_fresh.avoids ⟨1, 10⟩ eight.tail
  have hpos : d ≠ 0 := hs.inner_of_length (by rw [hperm.length_eq]; decide)
  have hle : d < 2 := by
    by_contra hd
    have hpow : 4 ^ 2 ≤ 4 ^ d := Nat.pow_le_pow_right (by decide) (Nat.not_lt.mp hd)
    simp [eight] at hlow
    omega
  obtain rfl : d = 1 := by omega
  exact ⟨s', t, hrun, hs, hperm, heach⟩

/-! ## insertions and removals -/

/-- A call of `insert` or `remove`. -/
inductive Op where
  | insert (x : Item)
  | remove (key : Nat)

/-- A call, what it returned, and whether it took a successor from far. -/
structure Entry where
  op : Op
  ret : Nat
  far : Bool

/-- The map, and the calls so far, the last one first. -/
structure Session where
  tree : Btree
  log : List Entry

/-- How often a successor was taken from far. -/
def farCount (es : List Entry) : Nat := es.countP Entry.far

/-- One call. -/
def Session.step (a : Ator) (s : Session) : Op → Option Session
  | .insert x => (s.tree.insert a x.key x.val).map fun t => ⟨t, ⟨.insert x, 0, false⟩ :: s.log⟩
  | .remove key => (s.tree.remove key).map fun tv =>
      ⟨tv.1, ⟨.remove key, tv.2, Btree.far s.tree.heap key s.tree.heap.depthBound s.tree.root⟩ ::
        s.log⟩

/-- What a map holds after the calls `es`, by what they are for: an insertion puts an item where
its key belongs, a removal takes out an item with the key and returns its value. -/
inductive Yields : List Entry → List Item → Prop
  | nil : Yields [] []
  | insert {es : List Entry} {xs ys : List Item} {x : Item} {f : Bool} :
      Yields es xs → Inserted Item.key x xs ys → Yields (⟨.insert x, 0, f⟩ :: es) ys
  | remove {es : List Entry} {xs ys : List Item} {key : Nat} {r : Option Item} {f : Bool} :
      Yields es xs → Removed Item.key key xs ys r → Yields (⟨.remove key, value r, f⟩ :: es) ys

/-- A call that the map can take: the key 0 is not put in, and nothing is removed before the first
insertion, nor after three successors were taken from far. -/
def Admissible (s : Session) : Op → Prop
  | .insert x => x.key ≠ 0
  | .remove _ => s.tree.root ≠ 0 ∧ farCount s.log < btreeMin

/-- The map holds what its calls yield. -/
def Refines (s : Session) : Prop :=
  ∃ xs, Yields s.log xs ∧ (∀ x ∈ xs, x.key ≠ 0) ∧ Holds (btreeMin - farCount s.log) s.tree xs

theorem refines_init (hclean : s.heap.Clean) : Refines ⟨s.init, []⟩ :=
  ⟨[], .nil, by simp, holds_init hclean⟩

theorem zeroFirst_of_forall (hkeys : ∀ x ∈ xs, x.key ≠ 0) : ZeroFirst xs := by
  induction xs with
  | nil => exact List.Pairwise.nil
  | cons x xs ih =>
      have hrest := (List.forall_mem_cons.mp hkeys).2
      exact List.Pairwise.cons hrest (ih hrest)

/-- A removal, by what every node below the root keeps. -/
theorem holds_remove (hlo : lo ≤ btreeMin) (hpos : 0 < lo) (hs : Holds lo s xs) (hroot : s.root ≠ 0)
    (hzero : ZeroFirst xs) (key : Nat) :
    ∃ s' r ys, s.remove key = some (s', value r) ∧ Removed Item.key key xs ys r ∧
      Holds (lo - if far s.heap key s.heap.depthBound s.root then 1 else 0) s' ys := by
  rcases hs with ⟨hnull, -, -⟩ | ⟨d, t, hs, heach, rfl⟩
  · exact absurd hnull hroot
  obtain ⟨s', r, hrun, e, t', hs', hremoved, w, hw, hfloor⟩ :=
    hs.remove hzero (heach.imp fun _ _ n hn => hpos.trans_le hn) key
  refine ⟨s', r, t'.toList, hrun, hremoved, .inr ⟨e, t', hs', (hfloor lo hlo heach).imp ?_, rfl⟩⟩
  intro q _ n hn
  rw [floor] at hn
  rcases hw with rfl | hfar
  · simp at hn
    omega
  · rw [TakesFar] at hfar
    rw [hfar]
    split at hn
    · exact hn
    · exact (Nat.sub_le _ _).trans hn

/-- **One call keeps the refinement.** -/
theorem step_refines (hfresh : a.Fresh) :
    Keeps (Session.step a) Refines Admissible := by
  rintro ⟨t, es⟩ op ⟨xs, hy, hkeys, hs⟩ hop
  cases op with
  | insert x =>
      obtain ⟨t', ys, hrun, -, hs', hins⟩ := holds_insert (Nat.sub_le _ _) hs
        hfresh.avoids x
      have hcall : Session.step a ⟨t, es⟩ (.insert x) = some ⟨t', ⟨.insert x, 0, false⟩ :: es⟩ := by
        simp [Session.step, hrun]
      refine ⟨_, hcall, ys, .insert hy hins, fun y hyy => ?_, by simpa [farCount] using hs'⟩
      rcases List.mem_cons.mp (hins.perm.mem_iff.mp hyy) with rfl | hmem
      · exact hop
      · exact hkeys y hmem
  | remove key =>
      obtain ⟨hroot, hfar⟩ := hop
      obtain ⟨t', r, ys, hrun, hremoved, hs'⟩ := holds_remove (Nat.sub_le _ _)
        (Nat.sub_pos_of_lt hfar) hs hroot (zeroFirst_of_forall hkeys) key
      have hcall : Session.step a ⟨t, es⟩ (.remove key) = some
          ⟨t', ⟨.remove key, value r, Btree.far t.heap key t.heap.depthBound t.root⟩ :: es⟩ := by
        simp [Session.step, hrun]
      refine ⟨_, hcall, ys, .remove hy hremoved,
        fun y hyy => hkeys y (hremoved.sublist.subset hyy), ?_⟩
      rw [Nat.sub_sub] at hs'
      rwa [farCount, List.countP_cons]

/-- **Every run of admissible calls returns, and refines.** -/
theorem run_refines (hfresh : a.Fresh) {s : Session} (hs : Refines s)
    {ops : List Op} (hops : Guarded (Session.step a) Admissible s ops) :
    ∃ s', run (Session.step a) s ops = some s' ∧ Refines s' := (step_refines hfresh).run hs hops

/-- The log is of the calls that were made. -/
theorem log_run {s s' : Session} {ops : List Op} (hrun : run (Session.step a) s ops = some s') :
    s'.log.map Entry.op = ops.reverse ++ s.log.map Entry.op := by
  induction ops generalizing s with
  | nil =>
      obtain rfl : s = s' := by simpa using hrun
      simp
  | cons op ops ih =>
      rw [run_cons] at hrun
      obtain ⟨s₁, hstep, hrun⟩ := Option.bind_eq_some_iff.mp hrun
      have hlog : s₁.log.map Entry.op = op :: s.log.map Entry.op := by
        cases op with
        | insert x =>
            obtain ⟨t, -, rfl⟩ := Option.map_eq_some_iff.mp hstep
            rfl
        | remove key =>
            obtain ⟨tv, -, rfl⟩ := Option.map_eq_some_iff.mp hstep
            rfl
      rw [ih hrun, hlog]
      simp

theorem Yields.ordered {es : List Entry} (hy : Yields es xs) : Ordered Item.key xs := by
  induction hy with
  | nil => exact List.Pairwise.nil
  | insert _ hins ih => exact hins.ordered ih
  | remove _ hremoved ih => exact hremoved.ordered ih

/-- **The map over any run**: from an empty map every run of admissible calls returns, and the map
holds what the calls yield. -/
theorem map_refines (hfresh : a.Fresh) (hclean : s.heap.Clean)
    {ops : List Op} (hops : Guarded (Session.step a) Admissible ⟨s.init, []⟩ ops) :
    ∃ s' xs, run (Session.step a) ⟨s.init, []⟩ ops = some s' ∧
      s'.log.map Entry.op = ops.reverse ∧ Yields s'.log xs ∧ Ordered Item.key xs ∧
      Holds (btreeMin - farCount s'.log) s'.tree xs := by
  obtain ⟨s', hrun, xs, hy, -, hs'⟩ := run_refines hfresh (refines_init hclean) hops
  have hlog := log_run hrun
  exact ⟨s', xs, hrun, by simpa using hlog, hy, hy.ordered, hs'⟩

/-! ## calls that are admissible in every tree -/

/-- The items that a map has at least after the calls `es`. -/
def leastItems : List Entry → Nat
  | [] => 0
  | ⟨.insert _, _, _⟩ :: es => leastItems es + 1
  | ⟨.remove _, _, _⟩ :: es => leastItems es - 1

/-- Calls on a map with at least `n` items, of which `k` successors at most were taken from far: no
removal meets an empty map or comes after three of them. -/
def paced (n k : Nat) : List Op → Bool
  | [] => true
  | .insert x :: ops => x.key ≠ 0 && paced (n + 1) k ops
  | .remove _ :: ops => 0 < n && k < btreeMin && paced (n - 1) (k + 1) ops

theorem Yields.leastItems_le {es : List Entry} (hy : Yields es xs) :
    leastItems es ≤ xs.length := by
  induction hy with
  | nil => exact Nat.zero_le _
  | insert _ hins ih =>
      rw [hins.perm.length_eq]
      exact Nat.succ_le_succ ih
  | remove _ hremoved ih =>
      have hlen := hremoved.length_le
      rw [leastItems]
      omega

theorem Refines.root_ne_zero {s : Session} (hs : Refines s) (hpos : 0 < leastItems s.log) :
    s.tree.root ≠ 0 := by
  obtain ⟨xs, hy, -, hholds⟩ := hs
  have hle := hy.leastItems_le
  rcases hholds with ⟨-, -, rfl⟩ | ⟨d, t, hs, -, -⟩
  · exact absurd hle (Nat.not_le.mpr hpos)
  · rw [hs.root]
    exact Stores.label_ne_zero hs.built.stores

/-- Paced calls are admissible. -/
theorem guarded_of_paced (hfresh : a.Fresh) {s : Session} {k : Nat} {ops : List Op}
    (hs : Refines s) (hfar : farCount s.log ≤ k) (hops : paced (leastItems s.log) k ops) :
    Guarded (Session.step a) Admissible s ops := by
  induction ops generalizing s k with
  | nil => trivial
  | cons op ops ih =>
      have hnext : ∀ s₁, Admissible s op → Session.step a s op = some s₁ → Refines s₁ := by
        intro s₁ hop hstep
        obtain ⟨s', hcall, hs'⟩ := step_refines hfresh s op hs hop
        exact Option.some.inj (hstep.symm.trans hcall) ▸ hs'
      cases op with
      | insert x =>
          simp only [paced, Bool.and_eq_true, decide_eq_true_eq] at hops
          refine ⟨hops.1, fun s₁ hstep => ?_⟩
          have hs₁ := hnext s₁ hops.1 hstep
          obtain ⟨t, -, rfl⟩ := Option.map_eq_some_iff.mp hstep
          exact ih hs₁ (by simpa [farCount] using hfar) hops.2
      | remove key =>
          simp only [paced, Bool.and_eq_true, decide_eq_true_eq] at hops
          have hop : Admissible s (.remove key) :=
            ⟨hs.root_ne_zero hops.1.1, hfar.trans_lt hops.1.2⟩
          refine ⟨hop, fun s₁ hstep => ?_⟩
          have hs₁ := hnext s₁ hop hstep
          obtain ⟨tv, -, rfl⟩ := Option.map_eq_some_iff.mp hstep
          refine ih hs₁ ?_ hops.2
          rw [farCount, List.countP_cons]
          exact Nat.add_le_add hfar (by split <;> decide)

/-- Eight items are put in, which splits the root; the first removal then moves an item over from
the right leaf, and the second one merges the leaves. -/
theorem map_refines_eight :
    Guarded (Session.step bump) Admissible ⟨init ⟨vacant, 0⟩, []⟩
        (eight.map .insert ++ [.remove 1, .remove 2]) ∧
      ∃ s' xs, run (Session.step bump) ⟨init ⟨vacant, 0⟩, []⟩
          (eight.map .insert ++ [.remove 1, .remove 2]) = some s' ∧
        s'.log.map Entry.op = .remove 2 :: .remove 1 :: eight.reverse.map .insert ∧
        Yields s'.log xs ∧ Ordered Item.key xs ∧
        Holds (btreeMin - farCount s'.log) s'.tree xs := by
  have hops : Guarded (Session.step bump) Admissible ⟨init ⟨vacant, 0⟩, []⟩
      (eight.map .insert ++ [.remove 1, .remove 2]) :=
    guarded_of_paced bump_fresh (refines_init clean_vacant) (Nat.le_refl _) (by decide)
  exact ⟨hops, map_refines (s := ⟨vacant, 0⟩) bump_fresh clean_vacant hops⟩

end Cxlbuf.Btree
