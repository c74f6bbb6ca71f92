import Mathlib.Data.List.Basic
import Mathlib.Data.List.TakeWhile

/-!
# Cxlbuf.Lib.ByKey

Lists ordered by a key that may repeat.  An item is inserted somewhere between
those with smaller and those with larger keys; an item of a given key is
removed, or there is none.  Both may be done to a part of a list if the rest
lies on the right side of the key (`Inserted.context`, `Removed.context`).
-/

namespace ByKey

variable {α κ : Type} [LE κ] {key : α → κ} {xs ys ls rs : List α} {x y : α} {k : κ}

/-- In the order of their keys. -/
def Ordered (key : α → κ) (xs : List α) : Prop := xs.Pairwise fun x y => key x ≤ key y

theorem ordered_append : Ordered key (xs ++ ys) ↔
    Ordered key xs ∧ Ordered key ys ∧ ∀ x ∈ xs, ∀ y ∈ ys, key x ≤ key y := List.pairwise_append

theorem Ordered.left (h : Ordered key (xs ++ ys)) : Ordered key xs := (ordered_append.mp h).1

theorem Ordered.right (h : Ordered key (xs ++ ys)) : Ordered key ys := (ordered_append.mp h).2.1

theorem Ordered.le_of_mem_left (h : Ordered key (xs ++ y :: ys)) (hx : x ∈ xs) : key x ≤ key y :=
  (ordered_append.mp h).2.2 x hx y List.mem_cons_self

theorem Ordered.le_of_mem_right (h : Ordered key (x :: xs)) (hy : y ∈ xs) : key x ≤ key y :=
  (List.pairwise_cons.mp h).1 y hy

omit [LE κ] in
/-- A list up to the first item that lacks a property. -/
theorem exists_cut (p : α → Bool) (xs : List α) :
    ∃ ls rs, xs = ls ++ rs ∧ (∀ l ∈ ls, p l) ∧ ∀ r ∈ rs.head?, ¬p r := by
  refine ⟨xs.takeWhile p, xs.dropWhile p, List.takeWhile_append_dropWhile.symm,
    fun l hl => List.mem_takeWhile_imp hl, fun r hr => ?_⟩
  have hnot := List.head?_dropWhile_not p xs
  rw [Option.mem_def.mp hr] at hnot
  simp [hnot]

/-- `ys` is `xs` with `x` where its key belongs. -/
def Inserted (key : α → κ) (x : α) (xs ys : List α) : Prop :=
  ∃ as bs, xs = as ++ bs ∧ ys = as ++ x :: bs ∧ (∀ a ∈ as, key a ≤ key x) ∧
    ∀ b ∈ bs, key x ≤ key b

theorem Inserted.ordered (h : Inserted key x xs ys) (hxs : Ordered key xs) : Ordered key ys := by
  obtain ⟨as, bs, rfl, rfl, has, hbs⟩ := h
  obtain ⟨hoa, hob, hab⟩ := ordered_append.mp hxs
  refine ordered_append.mpr ⟨hoa, List.pairwise_cons.mpr ⟨hbs, hob⟩, fun a ha y hy => ?_⟩
  rcases List.mem_cons.mp hy with rfl | hy
  · exact has a ha
  · exact hab a ha y hy

theorem Inserted.perm (h : Inserted key x xs ys) : ys.Perm (x :: xs) := by
  obtain ⟨as, bs, rfl, rfl, -, -⟩ := h
  exact List.perm_middle

theorem Inserted.context (h : Inserted key x xs ys) (hls : ∀ l ∈ ls, key l ≤ key x)
    (hrs : ∀ r ∈ rs, key x ≤ key r) : Inserted key x (ls ++ xs ++ rs) (ls ++ ys ++ rs) := by
  obtain ⟨as, bs, rfl, rfl, has, hbs⟩ := h
  refine ⟨ls ++ as, bs ++ rs, by simp, by simp, fun a ha => ?_, fun b hb => ?_⟩
  · rcases List.mem_append.mp ha with ha | ha
    · exact hls a ha
    · exact has a ha
  · rcases List.mem_append.mp hb with hb | hb
    · exact hbs b hb
    · exact hrs b hb

/-- `ys` is `xs` without an item of key `k`, which was `r`, if there is one. -/
def Removed (key : α → κ) (k : κ) (xs ys : List α) (r : Option α) : Prop :=
  (∃ as x bs, xs = as ++ x :: bs ∧ key x = k ∧ ys = as ++ bs ∧ r = some x) ∨
    ((∀ x ∈ xs, key x ≠ k) ∧ ys = xs ∧ r = none)

omit [LE κ] in
theorem Removed.context {r : Option α} (h : Removed key k xs ys r) (hls : ∀ l ∈ ls, key l ≠ k)
    (hrs : ∀ x ∈ rs, key x ≠ k) : Removed key k (ls ++ xs ++ rs) (ls ++ ys ++ rs) r := by
  rcases h with ⟨as, x, bs, rfl, hx, rfl, rfl⟩ | ⟨hxs, rfl, rfl⟩
  · exact .inl ⟨ls ++ as, x, bs ++ rs, by simp, hx, by simp, rfl⟩
  · refine .inr ⟨fun x hx => ?_, rfl, rfl⟩
    simp only [List.mem_append] at hx
    rcases hx with (hx | hx) | hx
    · exact hls x hx
    · exact hxs x hx
    · exact hrs x hx

omit [LE κ] in
theorem Removed.sublist {r : Option α} (h : Removed key k xs ys r) : ys.Sublist xs := by
  rcases h with ⟨as, x, bs, rfl, -, rfl, -⟩ | ⟨-, rfl, -⟩
  · exact List.Sublist.append_left (List.sublist_cons_self x bs) as
  · exact List.Sublist.refl _

omit [LE κ] in
theorem Removed.length_le {r : Option α} (h : Removed key k xs ys r) :
    xs.length ≤ ys.length + 1 := by
  rcases h with ⟨as, x, bs, rfl, -, rfl, -⟩ | ⟨-, rfl, -⟩
  · simp
    omega
  · exact Nat.le_succ _

theorem Removed.ordered {r : Option α} (h : Removed key k xs ys r) (hxs : Ordered key xs) :
    Ordered key ys := List.Pairwise.sublist h.sublist hxs

end ByKey
