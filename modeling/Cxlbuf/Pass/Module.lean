import Cxlbuf.Pass

/-!
# Cxlbuf.Pass.Module

The pass over a module (`HelloWorld::run`): every function with a body is
instrumented, unless it is annotated.  `Instrumented` is what comes out, seen
from the front of each block: every instruction of the input with what it has
become (`Segs`).
-/

namespace Cxlbuf.Pass

variable {V O : Type}

/-! ## the pass over a module -/

/-- A function of a module.  `annotated` functions carry the annotation that
keeps the pass away; a declaration has no blocks. -/
structure Func (V O : Type) where
  annotated : Bool
  blocks : List (List (Instr V O))

/-- A function that is left as it is. -/
def untouched (f : Func V O) : List (List (Slot V O)) := f.blocks.map (·.map .orig)

/-- The body of the loop of `HelloWorld::run`. -/
def runFunc [DecidableEq V] (o : Oracle V O) (fuel modCount : Nat) (f : Func V O) :
    Option (List (List (Slot V O))) :=
  if f.blocks ≠ [] ∧ f.annotated = false then analyseFunc o fuel modCount f.blocks
  else some (untouched f)

/-- `HelloWorld::run` from the function with number `idx` on.  Every function
has its own alias analysis; `modCount` is one counter for the module. -/
def runModule [DecidableEq V] (o : Nat → Oracle V O) (fuel : Nat) :
    Nat → Nat → List (Func V O) → Option (List (List (List (Slot V O))))
  | _, _, [] => some []
  | idx, modCount, f :: fs => do
      let out ← runFunc (o idx) fuel modCount f
      let outs ← runModule o fuel (idx + 1) (modCount + (names out).length) fs
      some (out :: outs)

/-! ## what comes out of the pass -/

/-- The stores of a function that the pass may leave as they are. -/
def Skips (MustAlias : Nat → V → V → Prop) (idx : Nat) (f : Func V O) (ptr : V) : Prop :=
  f.annotated = true ∨ OnStack (MustAlias idx) f.blocks ptr

/-- The same for the function with number `g` of a module. -/
def SkipsIn (MustAlias : Nat → V → V → Prop) (fs : List (Func V O)) (g : Nat) (ptr : V) : Prop :=
  ∃ f, fs[g]? = some f ∧ Skips MustAlias g f ptr

/-- The instructions of a block, each with what it has become. -/
inductive Segs (Skip : V → Prop) : List (Slot V O) → List (Instr V O) → Prop
  | nil : Segs Skip [] []
  | cons {seg out : List (Slot V O)} {i : Instr V O} {b : List (Instr V O)}
      (hseg : Emits Skip i seg) (h : Segs Skip out b) : Segs Skip (seg ++ out) (i :: b)

section Blocks

variable {Skip Skip' : V → Prop}

theorem Segs.append {out out' : List (Slot V O)} {b b' : List (Instr V O)} (h : Segs Skip out b)
    (h' : Segs Skip out' b') : Segs Skip (out ++ out') (b ++ b') := by
  induction h with
  | nil => exact h'
  | cons hseg _ ih =>
      rw [List.append_assoc]
      exact .cons hseg ih

theorem Emits.mono (hskip : ∀ ptr, Skip ptr → Skip' ptr) {i : Instr V O} {seg : List (Slot V O)}
    (h : Emits Skip i seg) : Emits Skip' i seg := by
  cases i with
  | alloca r => exact h
  | other k => exact h
  | store v ptr => exact h.imp_right fun hs => ⟨hs.1, hskip ptr hs.2⟩

theorem Segs.mono (hskip : ∀ ptr, Skip ptr → Skip' ptr) {out : List (Slot V O)}
    {b : List (Instr V O)} (h : Segs Skip out b) : Segs Skip' out b := by
  induction h with
  | nil => exact .nil
  | cons hseg _ ih => exact .cons (hseg.mono hskip) ih

/-- An instrumented block, from its front. -/
theorem Block.segs {out : List (Slot V O)} {b : List (Instr V O)} (h : Block Skip out b) :
    Segs Skip out b := by
  induction h with
  | nil => exact .nil
  | snoc _ hseg ih =>
      have hlast := Segs.cons hseg .nil
      rw [List.append_nil] at hlast
      exact ih.append hlast

theorem segs_untouched (hskip : ∀ ptr, Skip ptr) (b : List (Instr V O)) :
    Segs Skip (b.map .orig) b := by
  induction b with
  | nil => exact .nil
  | cons i b ih =>
      have hone : Emits Skip i [.orig i] := by
        cases i with
        | alloca r => rfl
        | other k => rfl
        | store v ptr => exact .inr ⟨rfl, hskip ptr⟩
      exact .cons hone ih

theorem Segs.erase {out : List (Slot V O)} {b : List (Instr V O)} (h : Segs Skip out b) :
    Pass.erase out = b := by
  induction h with
  | nil => rfl
  | cons hseg _ ih =>
      rw [Pass.erase, List.filterMap_append, ← Pass.erase, ← Pass.erase, hseg.erase, ih]
      rfl

/-- **What stands ahead**: nothing on both sides, an instruction on both sides,
or an inserted pair before a store. -/
theorem Segs.ahead {out : List (Slot V O)} {b : List (Instr V O)} (h : Segs Skip out b) :
    (out = [] ∧ b = []) ∨
    (∃ i out' b', out = .orig i :: out' ∧ b = i :: b' ∧ Segs Skip out' b' ∧
      ∀ v ptr, i = .store v ptr → Skip ptr) ∨
    ∃ n v ptr out' b', out = .bitCast n ptr :: .checkMemory n :: .orig (.store v ptr) :: out' ∧
      b = .store v ptr :: b' ∧ Segs Skip out' b' := by
  cases h with
  | nil => exact .inl ⟨rfl, rfl⟩
  | @cons seg out i b hseg h =>
      cases i with
      | alloca r =>
          rw [show seg = [.orig (.alloca r)] from hseg]
          exact .inr (.inl ⟨_, out, b, rfl, rfl, h, nofun⟩)
      | other k =>
          rw [show seg = [.orig (.other k)] from hseg]
          exact .inr (.inl ⟨_, out, b, rfl, rfl, h, nofun⟩)
      | store v ptr =>
          rcases hseg with ⟨n, rfl⟩ | ⟨rfl, hskip⟩
          · exact .inr (.inr ⟨n, v, ptr, out, b, rfl, rfl, h⟩)
          · refine .inr (.inl ⟨_, out, b, rfl, rfl, h, ?_⟩)
            intro v' ptr' heq
            cases heq
            exact hskip

end Blocks

/-- All functions of a module and what they have become, from number `idx`
on. -/
inductive Instrumented (MustAlias : Nat → V → V → Prop) :
    Nat → List (List (List (Slot V O))) → List (Func V O) → Prop
  | nil {idx : Nat} : Instrumented MustAlias idx [] []
  | cons {idx : Nat} {out : List (List (Slot V O))} {outs : List (List (List (Slot V O)))}
      {f : Func V O} {fs : List (Func V O)}
      (hout : List.Forall₂ (Segs (Skips MustAlias idx f)) out f.blocks)
      (h : Instrumented MustAlias (idx + 1) outs fs) :
      Instrumented MustAlias idx (out :: outs) (f :: fs)

/-- The functions correspond. -/
theorem Instrumented.func {MustAlias : Nat → V → V → Prop} {idx : Nat}
    {outs : List (List (List (Slot V O)))} {fs : List (Func V O)}
    (h : Instrumented MustAlias idx outs fs) (g b : Nat) :
    Option.Rel (fun code out => ∃ f, fs[g]? = some f ∧ Segs (Skips MustAlias (idx + g) f) out code)
      (fs[g]?.bind (·.blocks[b]?)) (outs[g]?.bind (·[b]?)) := by
  induction h generalizing g with
  | nil => simp
  | @cons idx out outs f fs hout h ih =>
      cases g with
      | zero =>
          simp only [List.getElem?_cons_zero, Option.bind_some]
          have hlen := hout.length_eq
          by_cases hb : b < out.length
          · rw [List.getElem?_eq_getElem hb, List.getElem?_eq_getElem (hlen ▸ hb)]
            exact .some ⟨f, rfl, hout.get hb (hlen ▸ hb)⟩
          · rw [List.getElem?_eq_none (by omega), List.getElem?_eq_none (by omega)]
            exact .none
      | succ g =>
          simp only [List.getElem?_cons_succ]
          have hrec := ih g
          rw [Nat.add_right_comm] at hrec
          exact hrec

/-- The blocks of a whole module correspond. -/
theorem Instrumented.block {MustAlias : Nat → V → V → Prop} {outs : List (List (List (Slot V O)))}
    {fs : List (Func V O)} (h : Instrumented MustAlias 0 outs fs) (g b : Nat) :
    Option.Rel (fun code out => Segs (SkipsIn MustAlias fs g) out code)
      (fs[g]?.bind (·.blocks[b]?)) (outs[g]?.bind (·[b]?)) := by
  have hfunc := h.func g b
  rw [Nat.zero_add] at hfunc
  generalize fs[g]?.bind (·.blocks[b]?) = src at hfunc ⊢
  generalize outs[g]?.bind (·[b]?) = tgt at hfunc ⊢
  cases hfunc with
  | none => exact .none
  | some hsegs =>
      obtain ⟨f, hf, hsegs⟩ := hsegs
      exact .some (hsegs.mono fun ptr hptr => ⟨f, hf, hptr⟩)

section Module

variable [DecidableEq V] {o : Nat → Oracle V O} {MustAlias : Nat → V → V → Prop}

/-- The steps that the pass needs for the largest function. -/
def maxSize (fs : List (Func V O)) : Nat := (fs.map fun f => size f.blocks).foldr max 0

theorem runFunc_instrumented {o : Oracle V O} (idx : Nat) (hs : o.Sound (MustAlias idx))
    (f : Func V O) (modCount : Nat) :
    ∃ out, (∀ fuel, size f.blocks ≤ fuel → runFunc o fuel modCount f = some out) ∧
      List.Forall₂ (Segs (Skips MustAlias idx f)) out f.blocks := by
  by_cases hf : f.blocks ≠ [] ∧ f.annotated = false
  · obtain ⟨out, hrun, hblocks, -⟩ := analyseFunc_blocks hs f.blocks modCount
    exact ⟨out, fun fuel hfuel => by rw [runFunc, if_pos hf, hrun fuel hfuel],
      hblocks.imp fun _ _ hb => hb.segs.mono fun ptr hptr => .inr hptr⟩
  · refine ⟨untouched f, fun _ _ => if_neg hf, ?_⟩
    by_cases hnil : f.blocks = []
    · rw [untouched, hnil]
      exact .nil
    · have hann : f.annotated = true := by simpa [hnil] using hf
      rw [untouched, List.forall₂_map_left_iff]
      exact List.forall₂_same.mpr fun b _ => segs_untouched (fun ptr => .inl hann) b

/-- **The pass over a module** terminates, and every function becomes what its
instructions may become. -/
theorem runModule_instrumented (hs : ∀ idx, (o idx).Sound (MustAlias idx)) (fs : List (Func V O))
    (idx modCount : Nat) :
    ∃ outs, (∀ fuel, maxSize fs ≤ fuel → runModule o fuel idx modCount fs = some outs) ∧
      Instrumented MustAlias idx outs fs := by
  induction fs generalizing idx modCount with
  | nil => exact ⟨[], fun _ _ => rfl, .nil⟩
  | cons f fs ih =>
      obtain ⟨out, hrun, hout⟩ := runFunc_instrumented idx (hs idx) f modCount
      obtain ⟨outs, hruns, houts⟩ := ih (idx + 1) (modCount + (names out).length)
      refine ⟨out :: outs, fun fuel hfuel => ?_, .cons hout houts⟩
      obtain ⟨hthis, hrest⟩ := Nat.max_le.mp hfuel
      simp [runModule, hrun fuel hthis, hruns fuel hrest]

end Module

end Cxlbuf.Pass
