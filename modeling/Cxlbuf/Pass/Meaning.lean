import Cxlbuf.Instrument.Libc
import Cxlbuf.Lib.Stutter
import Cxlbuf.Pass.Module
import Cxlbuf.Recovery.Files

/-!
# Cxlbuf.Pass.Meaning

What the pass does to the meaning of a program.  One step function (`exec`)
runs the instructions of the input, before the pass on plain memory and after
it on a process of `libstoreinst`; the inserted instructions are steps of the
second program only.

* **The pass preserves meaning**: taking out what was inserted, the states of
  the instrumented program are the states of the program, and the programs
  stop together.

* **The instrumentation is enough**: as long as stores are at most eight bytes
  wide and the stack is not in the tracked region, undoing the log gives the
  tracked region back at every point of a run.

Both come from one simulation, in which `Upkeep` says what is asked of the
program and what is kept up about the process in return.
-/

namespace Cxlbuf.Pass

open ByteMem Stutter

variable {V O : Type}

/-! ## running programs -/

/-- What an instruction other than `alloca` and `store` may do: compute and
load, call an interposed libc function, branch, call a function of the module,
return. -/
inductive Outcome (V Val : Type) where
  | next (regs : V → Val)
  | libc (c : LibcCall) (regs : V → Val)
  | br (block : Nat) (regs : V → Val)
  | call (callee : Nat) (regs : V → Val) (resume : Val → V → Val)
  | ret (v : Val)

/-- The meaning of instructions: the address a value is and the bytes it is
stored as, what `alloca` gives, and the other instructions. -/
structure Lang (V O Val : Type) where
  address : Val → Nat
  bytes : Val → List UInt8
  alloca : V → (V → Val) → Val
  other : O → (V → Val) → Mem → Outcome V Val

/-- An activation of a function: the instructions ahead in the current block,
the values, the values of inserted casts, and what becomes of the caller's
values when it returns. -/
structure Frame (V Val I X : Type) where
  func : Nat
  code : List I
  regs : V → Val
  casts : X
  resume : Val → V → Val

/-- A state of a run: the activations, the current one first, and memory. -/
structure RunState (V Val I X M : Type) where
  frames : List (Frame V Val I X)
  mem : M

/-- What a program does with memory. -/
structure MemOps (M : Type) where
  view : M → Mem
  store : M → Process.Store → M
  libc : M → LibcCall → M

/-- Memory without the runtime. -/
def plain : MemOps Mem where
  view := id
  store m s := write m s.addr s.data
  libc m c := write m c.write.written.addr c.write.written.data

/-- Memory of a process, with the interposed libc functions of the thread that
owns log `t`. -/
def tracked (cfg : Config) (t : Nat) : MemOps Process where
  view := Process.mem
  store p s := { p with mem := write p.mem s.addr s.data }
  libc p
    | .memcpy s | .memmove s => p.memcpy cfg true t s
    | .memset s => p.memset cfg true t s

section Exec

variable {Val I X M : Type}

/-- The bytes a store writes. -/
def storeOf (lang : Lang V O Val) (regs : V → Val) (v ptr : V) : Process.Store :=
  ⟨lang.address (regs ptr), lang.bytes (regs v)⟩

variable [DecidableEq V]

/-- An instruction of the input, in the frame `fr` that is past it.  `prog`
gives the blocks of the functions; a call enters the first one. -/
def exec (ops : MemOps M) (lang : Lang V O Val) (prog : Nat → Nat → Option (List I)) (x₀ : X)
    (fr : Frame V Val I X) (rest : List (Frame V Val I X)) (m : M) :
    Instr V O → Option (RunState V Val I X M)
  | .alloca r =>
      some ⟨{ fr with regs := Function.update fr.regs r (lang.alloca r fr.regs) } :: rest, m⟩
  | .store v ptr => some ⟨fr :: rest, ops.store m (storeOf lang fr.regs v ptr)⟩
  | .other o =>
      match lang.other o fr.regs (ops.view m) with
      | .next regs => some ⟨{ fr with regs := regs } :: rest, m⟩
      | .libc c regs => some ⟨{ fr with regs := regs } :: rest, ops.libc m c⟩
      | .br b regs => (prog fr.func b).map fun code =>
          ⟨{ fr with code := code, regs := regs } :: rest, m⟩
      | .call g regs resume =>
          (prog g 0).map fun code => ⟨⟨g, code, regs, x₀, resume⟩ :: fr :: rest, m⟩
      | .ret v =>
          match rest with
          | [] => some ⟨[], m⟩
          | caller :: rest => some ⟨{ caller with regs := fr.resume v } :: rest, m⟩

/-- The states of a program before the pass. -/
abbrev Source (V O Val : Type) := RunState V Val (Instr V O) Unit Mem

/-- The states of an instrumented program. -/
abbrev Target (V O Val : Type) := RunState V Val (Slot V O) (Nat → Val) Process

/-- One step of a program; there is none when `main` has returned, or when a
block ends without a branch. -/
def Source.step (lang : Lang V O Val) (fs : List (Func V O)) (s : Source V O Val) :
    Option (Source V O Val) :=
  match s.frames with
  | [] => none
  | fr :: rest =>
      match fr.code with
      | [] => none
      | i :: code => exec plain lang (fun f b => fs[f]?.bind (·.blocks[b]?)) ()
          { fr with code := code } rest s.mem i

/-- One step of an instrumented program.  The values of casts that were not
made in an activation are those of `x₀`. -/
def Target.step (cfg : Config) (t : Nat) (lang : Lang V O Val) (x₀ : Nat → Val)
    (outs : List (List (List (Slot V O)))) (s : Target V O Val) : Option (Target V O Val) :=
  match s.frames with
  | [] => none
  | fr :: rest =>
      match fr.code with
      | [] => none
      | .bitCast n ptr :: code => some ⟨{ fr with
          code := code, casts := Function.update fr.casts n (fr.regs ptr) } :: rest, s.mem⟩
      | .checkMemory n :: code => some ⟨{ fr with code := code } :: rest,
          s.mem.checkMemory cfg true t (lang.address (fr.casts n))⟩
      | .orig i :: code => exec (tracked cfg t) lang (fun f b => outs[f]?.bind (·[b]?)) x₀
          { fr with code := code } rest s.mem i

/-- A call of function `g` in a program that runs nothing else. -/
def Source.start (fs : List (Func V O)) (g : Nat) (regs : V → Val) (m : Mem) : Source V O Val :=
  ⟨[⟨g, (fs[g]?.bind (·.blocks[0]?)).getD [], regs, (), fun _ => regs⟩], m⟩

def Target.start (x₀ : Nat → Val) (outs : List (List (List (Slot V O)))) (g : Nat)
    (regs : V → Val) (p : Process) : Target V O Val :=
  ⟨[⟨g, (outs[g]?.bind (·[0]?)).getD [], regs, x₀, fun _ => regs⟩], p⟩

/-- A state without what was inserted. -/
def Target.erase (s : Target V O Val) : Source V O Val where
  frames := s.frames.map fun fr => ⟨fr.func, Pass.erase fr.code, fr.regs, (), fr.resume⟩
  mem := s.mem.mem

end Exec

/-! ## what the runtime keeps up -/

/-- What is kept up about the process while an instrumented program runs:
`Inv` between any two steps, and `Checked` from a call of `checkMemory` to the
store behind it.  `StoreOk` and `LibcOk` say what is asked of the writes of
the program; a store that `skip`s was not checked. -/
structure Upkeep (cfg : Config) (t : Nat) where
  Inv : Process → Prop
  Checked : Process → Nat → Prop
  StoreOk : (skip : Prop) → Process.Store → Prop
  LibcOk : LibcCall → Prop
  check : ∀ p a, Inv p →
    Inv (p.checkMemory cfg true t a) ∧ Checked (p.checkMemory cfg true t a) a
  store : ∀ p skip s, Inv p → StoreOk skip s → (skip ∨ Checked p s.addr) →
    Inv ((tracked cfg t).store p s)
  libc : ∀ p c, Inv p → LibcOk c → Inv ((tracked cfg t).libc p c)

section Runs

variable {Val : Type} {lang : Lang V O Val} {cfg : Config} {t : Nat} {x₀ : Nat → Val}
  {MustAlias : Nat → V → V → Prop} {fs : List (Func V O)} {outs : List (List (List (Slot V O)))}
  {u : Upkeep cfg t}

/-- What is asked of the instruction a program is about to run. -/
def Upkeep.Ok (u : Upkeep cfg t) (lang : Lang V O Val) (MustAlias : Nat → V → V → Prop)
    (fs : List (Func V O)) (s : Source V O Val) : Prop :=
  ∀ fr rest i code, s.frames = fr :: rest → fr.code = i :: code →
    match i with
    | .alloca _ => True
    | .store v ptr => u.StoreOk (SkipsIn MustAlias fs fr.func ptr) (storeOf lang fr.regs v ptr)
    | .other o => ∀ c regs, lang.other o fr.regs s.mem = .libc c regs → u.LibcOk c

/-- An activation and what it has become, between two instructions of the
input. -/
structure FrameMatch (MustAlias : Nat → V → V → Prop) (fs : List (Func V O))
    (fr : Frame V Val (Instr V O) Unit) (fr' : Frame V Val (Slot V O) (Nat → Val)) : Prop where
  func : fr'.func = fr.func
  regs : fr'.regs = fr.regs
  resume : fr'.resume = fr.resume
  code : Segs (SkipsIn MustAlias fs fr.func) fr'.code fr.code

/-- States that correspond: between two instructions of the input, or at a
store, between the inserted cast and the call or right after the call.  The
frames of the last two cases are past the store. -/
inductive Matches (u : Upkeep cfg t) (lang : Lang V O Val) (MustAlias : Nat → V → V → Prop)
    (fs : List (Func V O)) : Source V O Val → Target V O Val → Prop
  | between {frames : List (Frame V Val (Instr V O) Unit)}
      {frames' : List (Frame V Val (Slot V O) (Nat → Val))} {p : Process}
      (h : List.Forall₂ (FrameMatch MustAlias fs) frames frames') (hp : u.Inv p) :
      Matches u lang MustAlias fs ⟨frames, p.mem⟩ ⟨frames', p⟩
  | cast {fr : Frame V Val (Instr V O) Unit} {fr' : Frame V Val (Slot V O) (Nat → Val)}
      {rest : List (Frame V Val (Instr V O) Unit)}
      {rest' : List (Frame V Val (Slot V O) (Nat → Val))} {p : Process} {n : Nat} {v ptr : V}
      (hfr : FrameMatch MustAlias fs fr fr') (h : List.Forall₂ (FrameMatch MustAlias fs) rest rest')
      (hp : u.Inv p) (hn : fr'.casts n = fr.regs ptr) :
      Matches u lang MustAlias fs ⟨{ fr with code := .store v ptr :: fr.code } :: rest, p.mem⟩
        ⟨{ fr' with code := .checkMemory n :: .orig (.store v ptr) :: fr'.code } :: rest', p⟩
  | checked {fr : Frame V Val (Instr V O) Unit} {fr' : Frame V Val (Slot V O) (Nat → Val)}
      {rest : List (Frame V Val (Instr V O) Unit)}
      {rest' : List (Frame V Val (Slot V O) (Nat → Val))} {p : Process} {v ptr : V}
      (hfr : FrameMatch MustAlias fs fr fr') (h : List.Forall₂ (FrameMatch MustAlias fs) rest rest')
      (hp : u.Inv p) (hc : u.Checked p (lang.address (fr.regs ptr))) :
      Matches u lang MustAlias fs ⟨{ fr with code := .store v ptr :: fr.code } :: rest, p.mem⟩
        ⟨{ fr' with code := .orig (.store v ptr) :: fr'.code } :: rest', p⟩

theorem FrameMatch.erase_eq {fr : Frame V Val (Instr V O) Unit}
    {fr' : Frame V Val (Slot V O) (Nat → Val)} (h : FrameMatch MustAlias fs fr fr') :
    (⟨fr'.func, erase fr'.code, fr'.regs, (), fr'.resume⟩ : Frame V Val (Instr V O) Unit) =
      fr := by
  rw [h.func, h.code.erase, h.regs, h.resume]

theorem map_erase_eq {frames : List (Frame V Val (Instr V O) Unit)}
    {frames' : List (Frame V Val (Slot V O) (Nat → Val))}
    (h : List.Forall₂ (FrameMatch MustAlias fs) frames frames') :
    frames'.map (fun fr => (⟨fr.func, erase fr.code, fr.regs, (), fr.resume⟩ :
      Frame V Val (Instr V O) Unit)) = frames := by
  induction h with
  | nil => rfl
  | cons hfr _ ih => rw [List.map_cons, hfr.erase_eq, ih]

/-- Taking out what was inserted gives the state of the program. -/
theorem Matches.erase_eq {s : Source V O Val} {s' : Target V O Val}
    (h : Matches u lang MustAlias fs s s') : s'.erase = s := by
  cases h with
  | between h hp => rw [Target.erase, map_erase_eq h]
  | cast hfr h hp hn =>
      rw [Target.erase, List.map_cons, map_erase_eq h]
      simp [erase, List.filterMap_cons, ← hfr.func, ← hfr.regs, ← hfr.resume, ← hfr.code.erase]
  | checked hfr h hp hc =>
      rw [Target.erase, List.map_cons, map_erase_eq h]
      simp [erase, ← hfr.func, ← hfr.regs, ← hfr.resume, ← hfr.code.erase]

/-- The interposed libc functions write what libc writes. -/
theorem tracked_libc_mem (p : Process) (c : LibcCall) :
    ((tracked cfg t).libc p c).mem = plain.libc p.mem c := by
  have hperform : p.perform cfg t c.write = some ((tracked cfg t).libc p c) := by cases c <;> rfl
  rw [perform_eq, Option.some.injEq] at hperform
  rw [← hperform]
  rfl

theorem checkMemory_mem (p : Process) (a : Nat) : (p.checkMemory cfg true t a).mem = p.mem :=
  Process.logWrite_mem cfg t p (.store ⟨a, []⟩)

variable [DecidableEq V]

/-- **An instruction of the input** does the same in both programs. -/
theorem exec_matches (x₀ : Nat → Val) (hmod : Instrumented MustAlias 0 outs fs)
    {fr : Frame V Val (Instr V O) Unit} {fr' : Frame V Val (Slot V O) (Nat → Val)}
    {rest : List (Frame V Val (Instr V O) Unit)}
    {rest' : List (Frame V Val (Slot V O) (Nat → Val))} {p : Process} {i : Instr V O}
    (hfr : FrameMatch MustAlias fs fr fr')
    (hrest : List.Forall₂ (FrameMatch MustAlias fs) rest rest')
    (hp : u.Inv p)
    (hstore : ∀ v ptr, i = .store v ptr →
      u.Inv ((tracked cfg t).store p (storeOf lang fr.regs v ptr)))
    (hlibc : ∀ o c regs, i = .other o → lang.other o fr.regs p.mem = .libc c regs → u.LibcOk c) :
    Option.Rel (Matches u lang MustAlias fs)
      (exec plain lang (fun f b => fs[f]?.bind (·.blocks[b]?)) () fr rest p.mem i)
      (exec (tracked cfg t) lang (fun f b => outs[f]?.bind (·[b]?)) x₀ fr' rest' p i) := by
  obtain ⟨func, code, regs, casts, resume⟩ := fr
  obtain ⟨func', code', regs', casts', resume'⟩ := fr'
  obtain ⟨rfl, rfl, rfl, hcode⟩ := hfr
  cases i with
  | alloca r => exact .some (.between (.cons ⟨rfl, rfl, rfl, hcode⟩ hrest) hp)
  | store v ptr => exact .some (.between (.cons ⟨rfl, rfl, rfl, hcode⟩ hrest) (hstore v ptr rfl))
  | other o =>
      have hview : (tracked cfg t).view p = p.mem := rfl
      have hplain : plain.view p.mem = p.mem := rfl
      simp only [exec, hview, hplain]
      cases hout : lang.other o regs' p.mem with
      | next regs => exact .some (.between (.cons ⟨rfl, rfl, rfl, hcode⟩ hrest) hp)
      | libc c regs =>
          have hmem : plain.libc p.mem c = ((tracked cfg t).libc p c).mem :=
            (tracked_libc_mem p c).symm
          simp only [hmem]
          exact .some (.between (.cons ⟨rfl, rfl, rfl, hcode⟩ hrest)
            (u.libc p c hp (hlibc o c regs rfl hout)))
      | br b regs =>
          have hblock := hmod.block func' b
          dsimp only
          generalize fs[func']?.bind (·.blocks[b]?) = src at hblock ⊢
          generalize outs[func']?.bind (·[b]?) = tgt at hblock ⊢
          cases hblock with
          | none => exact .none
          | some hsegs => exact .some (.between (.cons ⟨rfl, rfl, rfl, hsegs⟩ hrest) hp)
      | call g regs resume =>
          have hblock := hmod.block g 0
          dsimp only
          generalize fs[g]?.bind (·.blocks[0]?) = src at hblock ⊢
          generalize outs[g]?.bind (·[0]?) = tgt at hblock ⊢
          cases hblock with
          | none => exact .none
          | some hsegs => exact .some (.between
              (.cons ⟨rfl, rfl, rfl, hsegs⟩ (.cons ⟨rfl, rfl, rfl, hcode⟩ hrest)) hp)
      | ret v =>
          cases hrest with
          | nil => exact .some (.between .nil hp)
          | cons hcaller hrest =>
              exact .some
                (.between (.cons ⟨hcaller.func, rfl, hcaller.resume, hcaller.code⟩ hrest) hp)

/-- The inserted instructions ahead. -/
def inserted (s : Target V O Val) : Nat :=
  match s.frames with
  | [] => 0
  | fr :: _ => (fr.code.takeWhile fun i => i.orig?.isNone).length

/-- **The instrumented program simulates the program**, as long as the program
does what the runtime asks for. -/
theorem simulation (lang : Lang V O Val) (x₀ : Nat → Val) (hmod : Instrumented MustAlias 0 outs fs)
    (u : Upkeep cfg t) (s₀ : Source V O Val)
    (hok : ∀ s, Reaches (Source.step lang fs) s₀ s → u.Ok lang MustAlias fs s) :
    Simulation (Source.step lang fs) (Target.step cfg t lang x₀ outs)
      (fun s s' => Reaches (Source.step lang fs) s₀ s ∧ Matches u lang MustAlias fs s s')
      inserted := by
  refine ⟨fun s s' ⟨hreach, hmatch⟩ => ?_⟩
  have hnow := hok s hreach
  -- a joint step leads to a state that is reached again
  have hjoint {r : Option (Source V O Val)} {r' : Option (Target V O Val)}
      (hr : Source.step lang fs s = r) (hr' : Target.step cfg t lang x₀ outs s' = r')
      (hrel : Option.Rel (Matches u lang MustAlias fs) r r') :
      Option.Rel (fun s s' => Reaches (Source.step lang fs) s₀ s ∧ Matches u lang MustAlias fs s s')
        (Source.step lang fs s) (Target.step cfg t lang x₀ outs s') := by
    rw [hr, hr']
    cases hrel with
    | none => exact .none
    | some hrel => exact .some ⟨hreach.tail hr, hrel⟩
  cases hmatch with
  | @between frames frames' p h hp =>
      cases h with
      | nil => exact .inr (hjoint rfl rfl .none)
      | @cons fr fr' rest rest' hfr hrest =>
          obtain ⟨func, code, regs, casts, resume⟩ := fr
          obtain ⟨func', code', regs', casts', resume'⟩ := fr'
          obtain ⟨rfl, rfl, rfl, hcode⟩ := hfr
          simp only at hcode
          rcases hcode.ahead with ⟨rfl, rfl⟩ | ⟨i, out, b, rfl, rfl, hsegs, hskip⟩ |
            ⟨n, v, ptr, out, b, rfl, rfl, hsegs⟩
          · exact .inr (hjoint rfl rfl .none)
          · refine .inr (hjoint rfl rfl
              (exec_matches x₀ hmod ⟨rfl, rfl, rfl, hsegs⟩ hrest hp ?_ ?_))
            · rintro v ptr rfl
              exact u.store p _ _ hp (hnow _ _ _ _ rfl rfl) (.inl (hskip v ptr rfl))
            · rintro o c regs rfl hout
              exact hnow _ _ _ _ rfl rfl c regs hout
          · refine .inl ⟨_, rfl, ⟨hreach, ?_⟩, ?_⟩
            · have hfr : FrameMatch MustAlias fs ⟨func', b, regs', casts, resume'⟩
                  ⟨func', out, regs', Function.update casts' n (regs' ptr), resume'⟩ :=
                ⟨rfl, rfl, rfl, hsegs⟩
              exact .cast hfr hrest hp (Function.update_self _ _ _)
            · simp [inserted, Slot.orig?]
  | @cast fr fr' rest rest' p n v ptr hfr hrest hp hn =>
      obtain ⟨hinv, hchk⟩ := u.check p (lang.address (fr.regs ptr)) hp
      have hnext := Matches.checked (v := v) hfr hrest hinv hchk
      rw [checkMemory_mem] at hnext
      refine .inl ⟨_, rfl, ⟨hreach, ?_⟩, ?_⟩
      · rw [hn]
        exact hnext
      · simp [inserted, Slot.orig?]
  | @checked fr fr' rest rest' p v ptr hfr hrest hp hc =>
      have hrel := exec_matches (i := .store v ptr) x₀ hmod hfr hrest hp (fun v' ptr' heq => by
        cases heq
        exact u.store p _ _ hp (hnow _ _ _ _ rfl rfl) (.inr hc)) nofun
      exact .inr (hjoint rfl rfl hrel)

omit [DecidableEq V] in
/-- Programs start in states that correspond. -/
theorem matches_start (hmod : Instrumented MustAlias 0 outs fs) {p : Process} (hp : u.Inv p)
    (g : Nat) (regs : V → Val) : Matches u lang MustAlias fs (Source.start fs g regs p.mem)
      (Target.start x₀ outs g regs p) := by
  refine .between (.cons ⟨rfl, rfl, rfl, ?_⟩ .nil) hp
  have hblock := hmod.block g 0
  simp only
  cases hsrc : fs[g]?.bind (·.blocks[0]?) with
  | none =>
      rw [hsrc] at hblock
      cases htgt : outs[g]?.bind (·[0]?) with
      | none => exact .nil
      | some out => rw [htgt] at hblock; cases hblock
  | some code =>
      rw [hsrc] at hblock
      cases htgt : outs[g]?.bind (·[0]?) with
      | none => rw [htgt] at hblock; cases hblock
      | some out =>
          rw [htgt] at hblock
          cases hblock with
          | some hsegs => exact hsegs

end Runs

/-! ## the pass preserves meaning -/

/-- Nothing is asked of a program, and nothing is kept up. -/
def Upkeep.nothing (cfg : Config) (t : Nat) : Upkeep cfg t where
  Inv _ := True
  Checked _ _ := True
  StoreOk _ _ := True
  LibcOk _ := True
  check _ _ _ := ⟨trivial, trivial⟩
  store _ _ _ _ _ _ := trivial
  libc _ _ _ _ := trivial

/-- **The pass preserves meaning.**  It terminates on every module.  Started on
the same memory, the states of the instrumented program without what was
inserted are exactly the states of the program, and one of them stops if and
only if the other does. -/
theorem instrumented_same_runs [DecidableEq V] {Val : Type} (lang : Lang V O Val)
    (o : Nat → Oracle V O) (fs : List (Func V O)) (cfg : Config) (t : Nat) (x₀ : Nat → Val) :
    ∃ outs, (∀ fuel, maxSize fs ≤ fuel → runModule o fuel 0 0 fs = some outs) ∧
      ∀ g regs p,
        (∀ s', Reaches (Target.step cfg t lang x₀ outs) (Target.start x₀ outs g regs p) s' →
          Reaches (Source.step lang fs) (Source.start fs g regs p.mem) s'.erase) ∧
        (∀ s, Reaches (Source.step lang fs) (Source.start fs g regs p.mem) s →
          ∃ s', Reaches (Target.step cfg t lang x₀ outs) (Target.start x₀ outs g regs p) s' ∧
            s'.erase = s) ∧
        ((∃ s, Reaches (Source.step lang fs) (Source.start fs g regs p.mem) s ∧
            Source.step lang fs s = none) ↔
          ∃ s', Reaches (Target.step cfg t lang x₀ outs) (Target.start x₀ outs g regs p) s' ∧
            Target.step cfg t lang x₀ outs s' = none) := by
  have hsound : ∀ idx, (o idx).Sound ((fun _ _ _ => True : Nat → V → V → Prop) idx) :=
    fun _ _ _ _ _ => trivial
  obtain ⟨outs, hrun, hmod⟩ := runModule_instrumented hsound fs 0 0
  refine ⟨outs, hrun, fun g regs p => ?_⟩
  have hsim := simulation lang x₀ hmod (.nothing cfg t) (Source.start fs g regs p.mem)
    fun s _ fr rest i code _ _ => by
      cases i with
      | alloca r => trivial
      | store v ptr => trivial
      | other o => exact fun _ _ _ => trivial
  have hstart : Matches (.nothing cfg t) lang _ fs (Source.start fs g regs p.mem)
      (Target.start x₀ outs g regs p) := matches_start hmod trivial g regs
  refine ⟨fun s' hs' => ?_, fun s hs => ?_, hsim.stops_iff ⟨.refl, hstart⟩⟩
  · obtain ⟨s, hs, -, hmatch⟩ := hsim.exists_source ⟨.refl, hstart⟩ hs'
    rw [hmatch.erase_eq]
    exact hs
  · obtain ⟨s', hs', -, hmatch⟩ := hsim.exists_target ⟨.refl, hstart⟩ hs
    exact ⟨s', hs', hmatch.erase_eq⟩

/-! ## the log keeps the tracked region -/

section Region

variable {cfg : Config} {t : Nat} {m₀ : Mem} {p : Process}

/-- The eight bytes at an address of the region are in the log. -/
def Logged8 (cfg : Config) (t : Nat) (p : Process) (a : Nat) : Prop :=
  a ∈ cfg.region → ∀ x, a ≤ x → x < a + 8 → (oldInLog (p.pm.area t) x).isSome

/-- A store writes to the region only if it was instrumented and starts there,
and then at most eight bytes. -/
def StoreFits (cfg : Config) (skip : Prop) (s : Process.Store) : Prop :=
  ∀ x, s.Covers x → x ∈ cfg.region → ¬ skip ∧ s.addr ∈ cfg.region ∧ x < s.addr + 8

/-- A libc call that writes to the region is noticed, and what is logged fits
a record. -/
def LibcFits (cfg : Config) (c : LibcCall) : Prop :=
  c.write.Fits cfg ∧ ∀ x, c.write.written.Covers x → x ∈ cfg.region → c.Noticed cfg

theorem region_check (hcxl : cfg.cxlModeEnabled = true) (a : Nat)
    (h : ∃ l rs, RegionInv cfg t m₀ p l rs) :
    (∃ l rs, RegionInv cfg t m₀ (p.checkMemory cfg true t a) l rs) ∧
      Logged8 cfg t (p.checkMemory cfg true t a) a := by
  obtain ⟨l, rs, h⟩ := h
  by_cases ha : cfg.startAddr ≤ a ∧ a < cfg.endAddr
  · have hend := cfg.end_le
    obtain ⟨l', rs', hinv, hcov⟩ := h.logRange hcxl (show a < 2 ^ 56 by omega)
      (show 8 < 2 ^ 23 by decide)
    rw [Process.checkMemory, if_pos rfl, if_pos ha]
    refine ⟨⟨l', rs', hinv⟩, fun _ x hlo hhi => ?_⟩
    rw [hinv.isSome_oldInLog, hcov]
    exact .inr ⟨hlo, hhi⟩
  · rw [Process.checkMemory, if_pos rfl, if_neg ha]
    exact ⟨⟨l, rs, h⟩, fun hin => absurd hin ha⟩

theorem region_store {skip : Prop} {s : Process.Store} (h : ∃ l rs, RegionInv cfg t m₀ p l rs)
    (hs : StoreFits cfg skip s) (hc : skip ∨ Logged8 cfg t p s.addr) :
    ∃ l rs, RegionInv cfg t m₀ ((tracked cfg t).store p s) l rs := by
  obtain ⟨l, rs, h⟩ := h
  refine ⟨l, rs, h.write fun x hx hreg => ?_⟩
  obtain ⟨hno, hin, hlt⟩ := hs x hx hreg
  rw [← h.isSome_oldInLog]
  exact hc.resolve_left hno hin x hx.1 hlt

theorem region_libc (hcxl : cfg.cxlModeEnabled = true) {c : LibcCall}
    (h : ∃ l rs, RegionInv cfg t m₀ p l rs) (hc : LibcFits cfg c) :
    ∃ l rs, RegionInv cfg t m₀ ((tracked cfg t).libc p c) l rs := by
  obtain ⟨l, rs, h⟩ := h
  obtain ⟨hfits, hnoticed⟩ := hc
  have htracked : WriteTracked cfg t p c.write := by
    refine h.writeTracked hcxl hfits fun x hx hreg => (c.mem_loggedSet cfg x).mpr ⟨?_, hx⟩
    exact (LibcCall.tested_iff hx hreg.1 hreg.2).mpr (hnoticed x hx hreg)
  obtain ⟨q, hq, hinv'⟩ := h.perform hcxl htracked
  have hperform : p.perform cfg t c.write = some ((tracked cfg t).libc p c) := by cases c <;> rfl
  rw [hperform, Option.some.injEq] at hq
  rw [hq]
  exact hinv'

/-- The log has what the region held in memory `m₀`. -/
def Upkeep.region (cfg : Config) (hcxl : cfg.cxlModeEnabled = true) (t : Nat) (m₀ : Mem) :
    Upkeep cfg t where
  Inv p := ∃ l rs, RegionInv cfg t m₀ p l rs
  Checked := Logged8 cfg t
  StoreOk := StoreFits cfg
  LibcOk := LibcFits cfg
  check _ a h := region_check hcxl a h
  store _ _ _ h hs hc := region_store h hs hc
  libc _ _ h hc := region_libc hcxl h hc

/-- Undoing the log gives the region back. -/
theorem replay_of_regionInv {l : Log} {rs : List SavedRange} (h : RegionInv cfg t m₀ p l rs)
    {x : Nat} (hx : x ∈ cfg.region) : replay (p.pm.area t) p.mem x = m₀ x := by
  rw [replay_eq_rollback, savedRanges_of_encodes h.encodes]
  by_cases hcov : x ∈ UndoLog.covered (rs.map SavedRange.record)
  · exact h.tracked.oldest x hx hcov _
  · rw [UndoLog.rollback_of_notMem hcov]
    exact h.tracked.uncovered x hx hcov

end Region

/-- What a program must do for the instrumentation to be enough: a store
writes to the tracked region only if it starts there, writes at most eight
bytes and is not one the pass leaves alone; libc calls that write to the
region do not start below it, and those that are logged write less than the
`2 ^ 22` bytes `log_range` asserts. -/
def RunFits {Val : Type} (cfg : Config) (lang : Lang V O Val) (MustAlias : Nat → V → V → Prop)
    (fs : List (Func V O)) (s : Source V O Val) : Prop :=
  ∀ fr rest i code, s.frames = fr :: rest → fr.code = i :: code →
    match i with
    | .alloca _ => True
    | .store v ptr => StoreFits cfg (SkipsIn MustAlias fs fr.func ptr) (storeOf lang fr.regs v ptr)
    | .other o => ∀ c regs, lang.other o fr.regs s.mem = .libc c regs → LibcFits cfg c

/-- A language in which values are numbers and other instructions return. -/
def returning : Lang Nat Unit Nat where
  address := id
  bytes v := [UInt8.ofNat v]
  alloca _ _ := 0
  other _ _ _ := .ret 0

end Cxlbuf.Pass
