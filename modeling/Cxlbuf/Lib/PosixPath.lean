import Mathlib.Data.List.Basic

/-!
# Cxlbuf.Lib.PosixPath

Path names as texts.  A run of slashes names the same directory as one slash,
so two texts are compared after their runs are reduced (`Same`).  There are
two ways to put a file name behind a directory: printing a slash between them,
and `operator/` of filesystem paths (`append`), which adds a slash only where
there is none.  They name the same file (`same_append`), and different names
in one directory are different files (`same_join_iff`).
-/

namespace PosixPath

/-- The text with every run of slashes reduced to one. -/
def squeeze : List Char → List Char
  | [] => []
  | c :: cs => if c = '/' ∧ cs.head? = some '/' then squeeze cs else c :: squeeze cs

/-- The texts are the same path up to repeated slashes. -/
def Same (p q : List Char) : Prop := squeeze p = squeeze q

instance (p q : List Char) : Decidable (Same p q) := inferInstanceAs (Decidable (_ = _))

/-- `operator/` of filesystem paths: an absolute path replaces the directory,
and a separator is added if the directory ends in a file name. -/
def append (dir name : List Char) : List Char :=
  if name.head? = some '/' then name
  else if dir = [] ∨ dir.getLast? = some '/' then dir ++ name
  else dir ++ '/' :: name

theorem squeeze_of_not_mem {cs : List Char} (h : '/' ∉ cs) : squeeze cs = cs := by
  induction cs with
  | nil => rfl
  | cons c cs ih =>
      rw [List.mem_cons, not_or] at h
      rw [squeeze, if_neg fun hc => h.1 hc.1.symm, ih h.2]

/-- What stands before a slash is reduced in the same way whatever follows. -/
theorem exists_squeeze_append_slash (dir : List Char) :
    ∃ pre, ∀ cs, squeeze (dir ++ '/' :: cs) = pre ++ squeeze ('/' :: cs) := by
  induction dir with
  | nil => exact ⟨[], fun _ => rfl⟩
  | cons c dir ih =>
      obtain ⟨pre, hpre⟩ := ih
      have hhead (cs : List Char) : (dir ++ '/' :: cs).head? = (dir ++ ['/']).head? := by
        cases dir <;> rfl
      by_cases hrun : c = '/' ∧ (dir ++ ['/']).head? = some '/'
      · refine ⟨pre, fun cs => ?_⟩
        rw [List.cons_append, squeeze, hhead, if_pos hrun, hpre]
      · refine ⟨c :: pre, fun cs => ?_⟩
        rw [List.cons_append, squeeze, hhead, if_neg hrun, hpre, List.cons_append]

/-- A second slash makes no difference. -/
theorem same_slash_slash (dir cs : List Char) :
    Same (dir ++ '/' :: '/' :: cs) (dir ++ '/' :: cs) := by
  obtain ⟨pre, hpre⟩ := exists_squeeze_append_slash dir
  have hrun : squeeze ('/' :: '/' :: cs) = squeeze ('/' :: cs) := by
    rw [squeeze, if_pos ⟨rfl, rfl⟩]
  rw [Same, hpre, hpre, hrun]

/-- **Both ways to join a name to a directory** give the same path. -/
theorem same_append {dir name : List Char} (hdir : dir ≠ []) (hname : '/' ∉ name) :
    Same (append dir name) (dir ++ '/' :: name) := by
  have hhead : name.head? ≠ some '/' := fun h => hname (List.mem_of_head? h)
  rw [append, if_neg hhead]
  by_cases hlast : dir.getLast? = some '/'
  · rw [if_pos (.inr hlast)]
    obtain ⟨pre, rfl⟩ := List.getLast?_eq_some_iff.mp hlast
    have hslash := same_slash_slash pre name
    simp only [List.append_assoc, List.cons_append, List.nil_append]
    exact hslash.symm
  · rw [if_neg fun h => h.elim hdir hlast]
    rfl

/-- **Different names are different files** of a directory. -/
theorem same_join_iff (dir : List Char) {name name' : List Char} (h : '/' ∉ name)
    (h' : '/' ∉ name') : Same (dir ++ '/' :: name) (dir ++ '/' :: name') ↔ name = name' := by
  have hname {cs : List Char} (hcs : '/' ∉ cs) : squeeze ('/' :: cs) = '/' :: cs := by
    have hhead : cs.head? ≠ some '/' := fun hc => hcs (List.mem_of_head? hc)
    rw [squeeze, if_neg fun hc => hhead hc.2, squeeze_of_not_mem hcs]
  obtain ⟨pre, hpre⟩ := exists_squeeze_append_slash dir
  rw [Same, hpre, hpre, hname h, hname h', List.append_cancel_left_eq, List.cons.injEq,
    and_iff_right rfl]

end PosixPath
