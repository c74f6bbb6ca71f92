import Mathlib.Data.List.Basic

/-!
# Cxlbuf.Lib.Table

Tables whose rows have a key, as lists of rows: what a map does when a row is
inserted over one with the same key, or erased by its key.  The order of the
rows has no meaning.
-/

namespace Table

variable {α κ : Type} [DecidableEq κ] {key : α → κ} {rows : List α}

/-- Insert a row, in place of one with the same key. -/
def insertOrAssign (key : α → κ) (x : α) (rows : List α) : List α :=
  (rows.filter fun y => key y ≠ key x) ++ [x]

/-- Erase the row with a key. -/
def eraseKey (key : α → κ) (k : κ) (rows : List α) : List α := rows.filter fun y => key y ≠ k

@[simp] theorem mem_insertOrAssign {x y : α} :
    y ∈ insertOrAssign key x rows ↔ (y ∈ rows ∧ key y ≠ key x) ∨ y = x := by
  simp [insertOrAssign]

@[simp] theorem mem_eraseKey {k : κ} {y : α} :
    y ∈ eraseKey key k rows ↔ y ∈ rows ∧ key y ≠ k := by
  simp [eraseKey]

/-- No two rows have the same key. -/
def Unique (key : α → κ) (rows : List α) : Prop := ∀ x ∈ rows, ∀ y ∈ rows, key x = key y → x = y

omit [DecidableEq κ] in
theorem Unique.nil (key : α → κ) : Unique key [] := fun _ hx => absurd hx List.not_mem_nil

theorem Unique.insertOrAssign (h : Unique key rows) (x : α) :
    Unique key (insertOrAssign key x rows) := by
  intro y hy z hz heq
  rw [mem_insertOrAssign] at hy hz
  obtain ⟨hy, hyx⟩ | rfl := hy
  · obtain ⟨hz, -⟩ | rfl := hz
    · exact h y hy z hz heq
    · exact absurd heq hyx
  · obtain ⟨-, hzy⟩ | rfl := hz
    · exact absurd heq.symm hzy
    · rfl

theorem Unique.eraseKey (h : Unique key rows) (k : κ) : Unique key (eraseKey key k rows) := by
  intro y hy z hz heq
  rw [mem_eraseKey] at hy hz
  exact h y hy.1 z hz.1 heq

end Table
