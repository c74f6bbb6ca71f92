import Mathlib.Algebra.GroupWithZero.Nat
import Mathlib.Data.List.Forall2

/-!
# Cxlbuf.Pass

The compiler side of the instrumentation (`storeinst.cc`).  `analyseFunc`
walks the blocks of a function in layout order and puts a bitcast and a call
of `checkMemory` before every store, unless the store writes to an alloca it
has met already.  It inserts into the list it iterates over, so the traversal
is a cursor that moves through the function as it is being changed.

What comes out is described block by block (`Block`): every instruction of the
input stands for itself, or for itself behind an inserted pair.
-/

namespace Cxlbuf.Pass

/-! ## functions -/

/-- An instruction of the input, over the values `V` and the other
instructions `O`. -/
inductive Instr (V O : Type) where
  | alloca (result : V)
  | store (value ptr : V)
  | other (i : O)
deriving DecidableEq, Repr

/-- An instruction of a function that is being instrumented: one of the
input, or an inserted one.  Inserted bitcasts are new values, which are named
by numbers. -/
inductive Slot (V O : Type) where
  | orig (i : Instr V O)
  | bitCast (name : Nat) (ptr : V)
  | checkMemory (arg : Nat)
deriving DecidableEq, Repr

variable {V O : Type}

/-- The instruction of the input, unless inserted. -/
def Slot.orig? : Slot V O → Option (Instr V O)
  | .orig i => some i
  | _ => none

/-- The new value an inserted instruction defines. -/
def Slot.name? : Slot V O → Option Nat
  | .bitCast n _ => some n
  | _ => none

/-- A block without what was inserted. -/
def erase (b : List (Slot V O)) : List (Instr V O) := b.filterMap Slot.orig?

/-- The function has an alloca of this value. -/
def HasAlloca (f : List (List (Instr V O))) (r : V) : Prop := ∃ b ∈ f, Instr.alloca r ∈ b

/-- `llvm::AliasResult`. -/
inductive AliasResult where
  | noAlias
  | mayAlias
  | partialAlias
  | mustAlias
deriving DecidableEq

/-- What the pass does not control: the answers of the alias analysis, which
may look at the function as it is when asked, and the order in which an
`unordered_map` is iterated over. -/
structure Oracle (V O : Type) where
  aliases : List (List (Slot V O)) → V → V → AliasResult
  order : List V → List V
  perm : ∀ vs, (order vs).Perm vs

/-- `MustAlias` answers are correct. -/
def Oracle.Sound (o : Oracle V O) (MustAlias : V → V → Prop) : Prop :=
  ∀ f a b, o.aliases f a b = .mustAlias → MustAlias a b

/-! ## the pass -/

section Pass

variable [DecidableEq V]

/-- `writesToStackLocation`, on the keys of `stackValues` in iteration order;
all of them map to true. -/
def writesToStackLocation (aliases : V → V → AliasResult) (instValue : V) : List V → Bool
  | [] => false
  | stackValue :: locs =>
      if stackValue = instValue then true
      else if aliases stackValue instValue = .mustAlias then true
      else writesToStackLocation aliases instValue locs

/-- The two iterators of `analyseFunc` in the function as it is: `bi` is at
the block `before ++ after`, `it` is at the head of `after`. -/
structure Cursor (V O : Type) where
  done : List (List (Slot V O))
  before : List (Slot V O)
  after : List (Slot V O)
  rest : List (List (Slot V O))
  stackValues : List V
  modCount : Nat
  skipCount : Nat

/-- The function as it is. -/
def Cursor.func (c : Cursor V O) : List (List (Slot V O)) :=
  c.done ++ (c.before ++ c.after) :: c.rest

/-- The body of the inner loop, for the instruction at `it`.  New instructions
go before it. -/
def visit (o : Oracle V O) (c : Cursor V O) : Slot V O → Cursor V O
  | .orig (.store _ ptr) =>
      if writesToStackLocation (o.aliases c.func) ptr (o.order c.stackValues) then
        { c with skipCount := c.skipCount + 1 }
      else
        { c with
          before := c.before ++ [.bitCast c.modCount ptr, .checkMemory c.modCount]
          modCount := c.modCount + 1 }
  | .orig (.alloca ai) => { c with stackValues := c.stackValues.insert ai }
  | _ => c

/-- One step of the two loops: the body and `it++`, or `bi++` at the end of a
block.  There is none at the end of the function. -/
def step (o : Oracle V O) (c : Cursor V O) : Option (Cursor V O) :=
  match c.after with
  | i :: after =>
      let c := visit o c i
      some { c with before := c.before ++ [i], after := after }
  | [] =>
      match c.rest with
      | [] => none
      | b :: rest =>
          some { c with done := c.done ++ [c.before], before := [], after := b, rest := rest }

/-- The loops, for as many steps as there is fuel. -/
def traverse (o : Oracle V O) : Nat → Cursor V O → Option (Cursor V O)
  | 0, _ => none
  | fuel + 1, c =>
      match step o c with
      | none => some c
      | some c' => traverse o fuel c'

/-- `analyseFunc`; `modCount` counts the stores instrumented so far. -/
def analyseFunc (o : Oracle V O) (fuel modCount : Nat) :
    List (List (Instr V O)) → Option (List (List (Slot V O)))
  | [] => some []
  | b :: bs =>
      (traverse o fuel
        { done := [], before := [], after := b.map .orig, rest := bs.map (·.map .orig)
          stackValues := [], modCount := modCount, skipCount := 0 }).map Cursor.func

end Pass

/-! ## what comes out -/

/-- What an instruction of the input becomes.  A store whose pointer meets
`Skip` may stay as it is. -/
def Emits (Skip : V → Prop) (i : Instr V O) (seg : List (Slot V O)) : Prop :=
  match i with
  | .store _ ptr => (∃ n, seg = [.bitCast n ptr, .checkMemory n, .orig i]) ∨
      (seg = [.orig i] ∧ Skip ptr)
  | _ => seg = [.orig i]

/-- An instrumented block and the block it comes from. -/
inductive Block (Skip : V → Prop) : List (Slot V O) → List (Instr V O) → Prop
  | nil : Block Skip [] []
  | snoc {out seg : List (Slot V O)} {b : List (Instr V O)} {i : Instr V O}
      (h : Block Skip out b) (hseg : Emits Skip i seg) : Block Skip (out ++ seg) (b ++ [i])

section Blocks

variable {Skip : V → Prop}

@[simp] theorem orig?_orig (i : Instr V O) : (Slot.orig i).orig? = some i := rfl

@[simp] theorem orig?_bitCast (n : Nat) (ptr : V) : (Slot.bitCast n ptr : Slot V O).orig? = none :=
  rfl

@[simp] theorem orig?_checkMemory (n : Nat) : (Slot.checkMemory n : Slot V O).orig? = none := rfl

/-- Every segment ends in the instruction it stands for, with an inserted pair
in front of it at most. -/
theorem Emits.eq_or {i : Instr V O} {seg : List (Slot V O)} (h : Emits Skip i seg) :
    seg = [.orig i] ∨ ∃ n v ptr, i = .store v ptr ∧
      seg = [.bitCast n ptr, .checkMemory n, .orig i] := by
  cases i with
  | alloca r => exact .inl h
  | other k => exact .inl h
  | store v ptr =>
      cases h with
      | inl hpair =>
          obtain ⟨n, hseg⟩ := hpair
          exact .inr ⟨n, v, ptr, rfl, hseg⟩
      | inr hskip => exact .inl hskip.1

theorem Emits.erase {i : Instr V O} {seg : List (Slot V O)} (h : Emits Skip i seg) :
    erase seg = [i] := by
  obtain rfl | ⟨n, v, ptr, -, rfl⟩ := h.eq_or
  · simp [Pass.erase]
  · simp [Pass.erase, List.filterMap_cons]

/-- Removing what was inserted gives the block back. -/
theorem Block.erase {out : List (Slot V O)} {b : List (Instr V O)} (h : Block Skip out b) :
    erase out = b := by
  induction h with
  | nil => rfl
  | snoc h hseg ih =>
      rw [Pass.erase, List.filterMap_append]
      exact congrArg₂ _ ih hseg.erase

/-- The instructions end with an inserted one. -/
def EndsInserted (b : List (Slot V O)) : Prop := ∃ s, b.getLast? = some s ∧ s.orig? = none

theorem Block.not_endsInserted {out : List (Slot V O)} {b : List (Instr V O)}
    (h : Block Skip out b) : ¬ EndsInserted out := by
  cases h with
  | nil => simp [EndsInserted]
  | snoc h hseg =>
      obtain rfl | ⟨n, v, ptr, -, rfl⟩ := hseg.eq_or
      · simp [EndsInserted]
      · simp [EndsInserted]

/-- A store with the instructions before it in its block: an inserted pair on
its pointer and nothing else inserted, or nothing inserted and a pointer that
may be skipped. -/
def Guarded (Skip : V → Prop) (pre : List (Slot V O)) (ptr : V) : Prop :=
  (∃ pre' n, pre = pre' ++ [.bitCast n ptr, .checkMemory n] ∧ ¬ EndsInserted pre') ∨
    (¬ EndsInserted pre ∧ Skip ptr)

/-- A store in a segment is the last instruction of it. -/
theorem Emits.store_split {i : Instr V O} {seg mid post : List (Slot V O)} {v ptr : V}
    (h : Emits Skip i seg) (hseg : seg = mid ++ .orig (.store v ptr) :: post) :
    (∃ n, mid = [.bitCast n ptr, .checkMemory n]) ∨ (mid = [] ∧ Skip ptr) := by
  cases i with
  | alloca r =>
      have hone : [Slot.orig (.alloca r)] = mid ++ .orig (.store v ptr) :: post := h ▸ hseg
      simp [List.singleton_eq_append_iff] at hone
  | other k =>
      have hone : [Slot.orig (.other k)] = mid ++ .orig (.store v ptr) :: post := h ▸ hseg
      simp [List.singleton_eq_append_iff] at hone
  | store v' ptr' =>
      obtain ⟨n, hpair⟩ | ⟨hone, hskip⟩ := h
      · left
        rw [hpair] at hseg
        match mid with
        | [] => simp at hseg
        | [s] => simp at hseg
        | [s, s'] => simp at hseg; grind
        | s :: s' :: s'' :: mid => simp at hseg
      · right
        rw [hone] at hseg
        cases mid with
        | nil => simp at hseg; grind
        | cons s mid => simp at hseg

/-- Every store of an instrumented block is guarded. -/
theorem Block.guarded {out : List (Slot V O)} {b : List (Instr V O)} (h : Block Skip out b)
    {pre post : List (Slot V O)} {v ptr : V}
    (hout : out = pre ++ .orig (.store v ptr) :: post) : Guarded Skip pre ptr := by
  induction h generalizing post with
  | nil => simp at hout
  | @snoc out seg b i h hseg ih =>
      have hnew (mid : List (Slot V O)) (hpre : pre = out ++ mid)
          (hrest : seg = mid ++ .orig (.store v ptr) :: post) : Guarded Skip pre ptr := by
        subst hpre
        obtain ⟨n, rfl⟩ | ⟨rfl, hskip⟩ := hseg.store_split hrest
        · exact .inl ⟨out, n, rfl, h.not_endsInserted⟩
        · rw [List.append_nil]
          exact .inr ⟨h.not_endsInserted, hskip⟩
      rcases List.append_eq_append_iff.mp hout with ⟨mid, hpre, hrest⟩ | ⟨mid, hold, hrest⟩
      · exact hnew mid hpre hrest
      · cases mid with
        | nil => exact hnew [] (by simpa using hold.symm) (by simpa using hrest.symm)
        | cons s mid =>
            rw [List.cons_append, List.cons.injEq] at hrest
            exact ih (hrest.1 ▸ hold)

end Blocks

/-! ## the traversal -/

section Traversal

variable {o : Oracle V O} {MustAlias : V → V → Prop}
  {f : List (List (Instr V O))} {c c' : Cursor V O} {m₀ : Nat}

/-- The pointer equals or must-alias an alloca of the function. -/
def OnStack (MustAlias : V → V → Prop) (f : List (List (Instr V O))) (ptr : V) : Prop :=
  ∃ r, HasAlloca f r ∧ (r = ptr ∨ MustAlias r ptr)

/-- The new values of a function. -/
def names (f : List (List (Slot V O))) : List Nat := f.flatMap (·.filterMap Slot.name?)

theorem names_concat (f : List (List (Slot V O))) (b seg : List (Slot V O)) :
    names (f ++ [b ++ seg]) = names (f ++ [b]) ++ seg.filterMap Slot.name? := by
  simp [names]

/-- What the traversal of `f` maintains: behind the cursor stand instrumented
blocks, ahead of it the input; the known stack locations are allocas of `f`;
new values are new. -/
structure Inv (MustAlias : V → V → Prop) (f : List (List (Instr V O))) (c : Cursor V O) :
    Prop where
  blocks : ∃ done before after rest, f = done ++ (before ++ after) :: rest ∧
    List.Forall₂ (Block (OnStack MustAlias f)) c.done done ∧
    Block (OnStack MustAlias f) c.before before ∧
    c.after = after.map .orig ∧ c.rest = rest.map (·.map .orig)
  stack : ∀ r ∈ c.stackValues, HasAlloca f r
  nodup : (names (c.done ++ [c.before])).Nodup
  fresh : ∀ n ∈ names (c.done ++ [c.before]), n < c.modCount

/-- The steps that remain: the instructions and the ends of blocks ahead. -/
def Cursor.remaining (c : Cursor V O) : Nat :=
  c.after.length + (c.rest.map fun b => b.length + 1).sum

/-- Every block that comes out comes from a block. -/
theorem exists_block {Skip : V → Prop} {out : List (List (Slot V O))}
    (h : List.Forall₂ (Block Skip) out f) {b : List (Slot V O)} (hb : b ∈ out) :
    ∃ b', Block Skip b b' := by
  induction h with
  | nil => simp at hb
  | cons hblock _ ih =>
      cases hb with
      | head => exact ⟨_, hblock⟩
      | tail _ hmem => exact ih hmem

variable [DecidableEq V]

/-- A store is skipped for one of the known stack locations. -/
theorem exists_of_writesToStackLocation {aliases : V → V → AliasResult} {ptr : V} {locs : List V}
    (h : writesToStackLocation aliases ptr locs = true) :
    ∃ r ∈ locs, r = ptr ∨ aliases r ptr = .mustAlias := by
  induction locs with
  | nil => simp [writesToStackLocation] at h
  | cons r locs ih =>
      simp only [writesToStackLocation] at h
      grind

/-- **What a visit does**: it puts a segment in front of the cursor that the
instruction may become, with one new value at most, and remembers allocas. -/
theorem visit_spec (hs : o.Sound MustAlias) (hstack : ∀ r ∈ c.stackValues, HasAlloca f r)
    (i : Instr V O) :
    ∃ seg, Emits (OnStack MustAlias f) i seg ∧
      (visit o c (.orig i)).before ++ [.orig i] = c.before ++ seg ∧
      (visit o c (.orig i)).done = c.done ∧ (visit o c (.orig i)).rest = c.rest ∧
      (∀ r ∈ (visit o c (.orig i)).stackValues, r ∈ c.stackValues ∨ i = .alloca r) ∧
      ((seg.filterMap Slot.name? = [] ∧ (visit o c (.orig i)).modCount = c.modCount) ∨
        (seg.filterMap Slot.name? = [c.modCount] ∧
          (visit o c (.orig i)).modCount = c.modCount + 1)) := by
  cases i with
  | alloca ai =>
      refine ⟨[.orig (.alloca ai)], rfl, rfl, rfl, rfl, ?_, .inl ⟨rfl, rfl⟩⟩
      intro r hr
      simp only [visit, List.mem_insert_iff] at hr
      grind
  | other k => exact ⟨[.orig (.other k)], rfl, rfl, rfl, rfl, fun r hr => .inl hr, .inl ⟨rfl, rfl⟩⟩
  | store v ptr =>
      cases hw : writesToStackLocation (o.aliases c.func) ptr (o.order c.stackValues) with
      | true =>
          obtain ⟨r, hr, halias⟩ := exists_of_writesToStackLocation hw
          have hon : OnStack MustAlias f ptr :=
            ⟨r, hstack r ((o.perm _).mem_iff.mp hr), halias.imp_right (hs _ _ _)⟩
          refine ⟨[.orig (.store v ptr)], .inr ⟨rfl, hon⟩, ?_⟩
          simp [visit, hw, Slot.name?]
      | false =>
          refine ⟨[.bitCast c.modCount ptr, .checkMemory c.modCount, .orig (.store v ptr)],
            .inl ⟨_, rfl⟩, ?_⟩
          simp [visit, hw, Slot.name?, List.filterMap_cons]

/-- New values are new: none, or the one the counter is at, joins the others. -/
theorem nodup_fresh_append {ns seg : List Nat} {n n' : Nat} (hnd : ns.Nodup)
    (hlt : ∀ m ∈ ns, m < n) (h : (seg = [] ∧ n' = n) ∨ (seg = [n] ∧ n' = n + 1)) :
    (ns ++ seg).Nodup ∧ ∀ m ∈ ns ++ seg, m < n' := by
  obtain ⟨rfl, rfl⟩ | ⟨rfl, rfl⟩ := h
  · rw [List.append_nil]
    exact ⟨hnd, hlt⟩
  · simp only [List.nodup_append, List.mem_append, List.mem_singleton]
    grind

/-- **One step** keeps the invariant and brings the end nearer by one. -/
theorem Inv.of_step (h : Inv MustAlias f c) (hs : o.Sound MustAlias) (hstep : step o c = some c') :
    Inv MustAlias f c' ∧ c'.remaining + 1 = c.remaining := by
  obtain ⟨done, before, after, rest, hf, hdone, hbefore, hafter, hrest⟩ := h.blocks
  cases after with
  | cons i after =>
      rw [List.map_cons] at hafter
      simp only [step, hafter, Option.some.injEq] at hstep
      obtain ⟨seg, hseg, hfront, hd, hr, hst, hnames⟩ := visit_spec hs h.stack i
      have hnew := nodup_fresh_append h.nodup h.fresh hnames
      subst hstep
      refine ⟨⟨⟨done, before ++ [i], after, rest, ?_, ?_, ?_, rfl, ?_⟩, ?_, ?_, ?_⟩, ?_⟩
      · simp [hf]
      · simpa [hd] using hdone
      · rw [hfront]
        exact hbefore.snoc hseg
      · simp [hr, hrest]
      · intro r hr'
        cases hst r hr' with
        | inl hold => exact h.stack r hold
        | inr halloca => exact ⟨before ++ i :: after, by simp [hf], by simp [halloca]⟩
      · rw [hd, hfront, names_concat]
        exact hnew.1
      · rw [hd, hfront, names_concat]
        exact hnew.2
      · simp [Cursor.remaining, hafter, hr]
        omega
  | nil =>
      simp only [step, hafter, List.map_nil] at hstep
      cases rest with
      | nil => simp [hrest] at hstep
      | cons b rest =>
          simp only [hrest, List.map_cons, Option.some.injEq] at hstep
          subst hstep
          refine ⟨⟨⟨done ++ [before], [], b, rest, ?_, ?_, .nil, rfl, rfl⟩, h.stack, ?_, ?_⟩, ?_⟩
          · simp [hf]
          · exact List.rel_append hdone (.cons hbefore .nil)
          · simpa [names] using h.nodup
          · simpa [names] using h.fresh
          · simp only [Cursor.remaining, hafter, hrest, List.map_cons, List.sum_cons,
              List.map_nil, List.length_nil]
            omega

/-- **The loops terminate**: with fuel for the remaining steps they reach the
end of the function. -/
theorem Inv.exists_end (h : Inv MustAlias f c) (hs : o.Sound MustAlias) :
    ∃ c', Inv MustAlias f c' ∧ step o c' = none ∧
      ∀ fuel, c.remaining < fuel → traverse o fuel c = some c' := by
  induction hn : c.remaining using Nat.strongRecOn generalizing c with
  | ind n ih =>
      cases hstep : step o c with
      | none =>
          refine ⟨c, h, hstep, fun fuel hfuel => ?_⟩
          cases fuel with
          | zero => omega
          | succ fuel => simp only [traverse, hstep]
      | some c₁ =>
          obtain ⟨hinv, hrem⟩ := h.of_step hs hstep
          obtain ⟨c', hinv', hend, hrun⟩ := ih c₁.remaining (by omega) hinv rfl
          refine ⟨c', hinv', hend, fun fuel hfuel => ?_⟩
          cases fuel with
          | zero => omega
          | succ fuel => simpa only [traverse, hstep] using hrun fuel (by omega)

/-- At the end of the function all blocks are instrumented. -/
theorem Inv.blocks_of_end (h : Inv MustAlias f c) (hend : step o c = none) :
    List.Forall₂ (Block (OnStack MustAlias f)) c.func f ∧ c.func = c.done ++ [c.before] := by
  obtain ⟨done, before, after, rest, hf, hdone, hbefore, hafter, hrest⟩ := h.blocks
  cases after with
  | cons i after => simp [step, hafter] at hend
  | nil =>
      cases rest with
      | cons b rest => simp [step, hafter, hrest] at hend
      | nil =>
          have hfunc : c.func = c.done ++ [c.before] := by simp [Cursor.func, hafter, hrest]
          have hall : List.Forall₂ (Block (OnStack MustAlias f)) (c.done ++ [c.before])
              (done ++ [before]) := List.rel_append hdone (.cons hbefore .nil)
          rw [hfunc]
          refine ⟨?_, rfl⟩
          convert hall using 1
          simpa using hf

/-- The steps `analyseFunc` makes: one for every instruction and one for every
block. -/
def size (f : List (List (Instr V O))) : Nat := (f.map fun b => b.length + 1).sum

/-- `analyseFunc` terminates within `size f` steps, with every block
instrumented and new values for the casts. -/
theorem analyseFunc_blocks (hs : o.Sound MustAlias) (f : List (List (Instr V O)))
    (modCount : Nat) :
    ∃ out, (∀ fuel, size f ≤ fuel → analyseFunc o fuel modCount f = some out) ∧
      List.Forall₂ (Block (OnStack MustAlias f)) out f ∧ (names out).Nodup := by
  cases f with
  | nil => exact ⟨[], fun _ _ => rfl, .nil, by simp [names]⟩
  | cons b bs =>
      let c : Cursor V O :=
        { done := [], before := [], after := b.map .orig, rest := bs.map (·.map .orig)
          stackValues := [], modCount := modCount, skipCount := 0 }
      have hinit : Inv MustAlias (b :: bs) c :=
        ⟨⟨[], [], b, bs, rfl, .nil, .nil, rfl, rfl⟩, by simp [c], by simp [names, c],
          by simp [names, c]⟩
      have hrem : c.remaining + 1 = size (b :: bs) := by
        simp [Cursor.remaining, size, c, Function.comp_def]
        omega
      obtain ⟨c', hinv, hend, hrun⟩ := hinit.exists_end hs
      obtain ⟨hblocks, hfunc⟩ := hinv.blocks_of_end hend
      refine ⟨c'.func, fun fuel hfuel => ?_, hblocks, hfunc ▸ hinv.nodup⟩
      simp only [analyseFunc, hrun fuel (by omega), Option.map_some, c]

/-- **Soundness of the pass.**  `analyseFunc` terminates within `size f` steps.
Without what it inserted its result is the function; every store is behind one
inserted call on its own pointer, or has none and its pointer equals or
must-alias an alloca of the function; the inserted casts are new values. -/
theorem analyseFunc_sound (hs : o.Sound MustAlias) (f : List (List (Instr V O))) (modCount : Nat) :
    ∃ out, (∀ fuel, size f ≤ fuel → analyseFunc o fuel modCount f = some out) ∧
      out.map erase = f ∧
      (∀ b ∈ out, ∀ pre v ptr post, b = pre ++ .orig (.store v ptr) :: post →
        (∃ pre' n, pre = pre' ++ [.bitCast n ptr, .checkMemory n] ∧ ¬ EndsInserted pre') ∨
        (¬ EndsInserted pre ∧ ∃ r, HasAlloca f r ∧ (r = ptr ∨ MustAlias r ptr))) ∧
      (names out).Nodup := by
  obtain ⟨out, hrun, hblocks, hnodup⟩ := analyseFunc_blocks hs f modCount
  refine ⟨out, hrun, ?_, ?_, hnodup⟩
  · rw [← List.forall₂_eq_eq_eq, List.forall₂_map_left_iff]
    exact hblocks.imp fun _ _ hb => hb.erase
  · intro b hb pre v ptr post heq
    obtain ⟨b', hb'⟩ := exists_block hblocks hb
    exact hb'.guarded heq

end Traversal

/-- An oracle that knows one alias. -/
def oneAlias : Oracle Nat Unit where
  aliases _ a b := if a = 0 ∧ b = 1 then .mustAlias else .mayAlias
  order := id
  perm _ := .refl _

/-- Of three stores the pass instruments the one that does not write to the
alloca. -/
theorem analyseFunc_three_stores :
    ∃ out, analyseFunc oneAlias 6 0
        [[.alloca 0, .store 5 0, .store 5 1], [.store 5 2]] = some out ∧
      out.map erase = [[.alloca 0, .store 5 0, .store 5 1], [.store 5 2]] ∧
      [.bitCast 0 2, .checkMemory 0, .orig (.store 5 2)] ∈ out := by
  have hsound : oneAlias.Sound fun a b => a = 0 ∧ b = 1 := by
    intro f a b h
    simp only [oneAlias, ite_eq_left_iff, reduceCtorEq, imp_false, Decidable.not_not] at h
    exact h
  obtain ⟨out, hrun, herase, -, -⟩ :=
    analyseFunc_sound hsound [[.alloca 0, .store 5 0, .store 5 1], [.store 5 2]] 0
  have hout := hrun 6 (by decide)
  have hval : analyseFunc oneAlias 6 0 [[.alloca 0, .store 5 0, .store 5 1], [.store 5 2]] =
      some [[.orig (.alloca 0), .orig (.store 5 0), .orig (.store 5 1)],
        [.bitCast 0 2, .checkMemory 0, .orig (.store 5 2)]] := by decide
  refine ⟨out, hout, herase, ?_⟩
  rw [Option.some.inj (hout.symm.trans hval)]
  decide

end Cxlbuf.Pass
