import Cxlbuf.Lib.Locks
import Mathlib.Algebra.BigOperators.Ring.Finset
import Mathlib.Data.Int.Basic
import Mathlib.Order.WithBot

/-!
# Cxlbuf.Hoh

The hand-over-hand locking program (`hoh.c`): any number of threads walk down
a list, lock the next node before they unlock the one they are at, and
increment the data of every node but the head.  Printing is guarded by a mutex
of its own, which is taken while a node is locked.

The list is not changed by the walk, so a node is named by its position; `K`
is that of the last one.  `data++` is a load and a store.  The data is an `int`
in the source and an integer without bounds here, so nothing is said about a
node that is visited until its count overflows.  The `TX_BEGIN` and `TX_END`
around the visit of a node are left out: they take no mutex and change no data
that another thread reads (`Cxlbuf.Pmdk` is about what they make durable).

The program locks nodes from front to back and the print mutex last, which is
all that `Locks` asks for: it cannot deadlock.  `Tally` counts the visits: at
any time the data of a node is what it was at first and the number of threads
that have been there.
-/

namespace Cxlbuf.Hoh

open Locks

/-! ## the program -/

/-- The mutexes: the print mutex `pm` and those of the nodes. -/
inductive Mutex where
  | pm
  | node (i : Nat)
deriving DecidableEq, Repr

/-- Where a thread is in `hoh`.  `p` and `n` are the positions of `*p` and
`*n`; the letters are those of the comments in the source. -/
inductive Pc where
  /-- `printf("%s: begin\n")` -/
  | printBegin
  | printBeginHeld
  /-- `p = root->head, LOCK(p)` -/
  | lockHead
  /-- the loop condition, `n = D_RW(p)->next` -/
  | loop (p : Nat)
  /-- A: `LOCK(n)` -/
  | lockNext (p : Nat)
  /-- B: `UNLK(p)` -/
  | unlockPrev (p : Nat)
  /-- C: `printf("%s: node ...")` -/
  | printNode (n : Nat)
  | printNodeHeld (n : Nat)
  /-- `D_RW(n)->data++` -/
  | loadData (n : Nat)
  | storeData (n : Nat) (v : Int)
  /-- D: `UNLK(p)` -/
  | unlockLast (p : Nat)
  /-- `printf("%s: end\n")` -/
  | printEnd
  | printEndHeld
  | done
deriving DecidableEq, Repr

/-- What a thread does.  Memory is the data of the nodes. -/
def hoh (K : Nat) : Pc → Act Mutex Pc (Nat → Int)
  | .printBegin => .lock .pm .printBeginHeld
  | .printBeginHeld => .unlock .pm .lockHead
  | .lockHead => .lock (.node 0) (.loop 0)
  | .loop p => .run fun m => (if p < K then .lockNext p else .unlockLast p, m)
  | .lockNext p => .lock (.node (p + 1)) (.unlockPrev p)
  | .unlockPrev p => .unlock (.node p) (.printNode (p + 1))
  | .printNode n => .lock .pm (.printNodeHeld n)
  | .printNodeHeld n => .unlock .pm (.loadData n)
  | .loadData n => .run fun m => (.storeData n (m n), m)
  | .storeData n v => .run fun m => (.loop n, Function.update m n (v + 1))
  | .unlockLast p => .unlock (.node p) .printEnd
  | .printEnd => .lock .pm .printEndHeld
  | .printEndHeld => .unlock .pm .done
  | .done => .stop

/-- The mutexes a thread holds. -/
def holds : Pc → Mutex → Prop
  | .printBegin, _ | .lockHead, _ | .printEnd, _ | .done, _ => False
  | .printBeginHeld, x | .printEndHeld, x => x = .pm
  | .loop p, x | .lockNext p, x | .unlockLast p, x => x = .node p
  | .unlockPrev p, x => x = .node p ∨ x = .node (p + 1)
  | .printNode n, x | .loadData n, x | .storeData n _, x => x = .node n
  | .printNodeHeld n, x => x = .node n ∨ x = .pm

theorem disciplined (K : Nat) : Disciplined (hoh K) holds where
  lock pc x next h y := by
    cases pc <;> simp only [hoh, Act.lock.injEq, reduceCtorEq] at h <;>
      (obtain ⟨rfl, rfl⟩ := h; simp [holds])
  unlock pc x next h := by
    cases pc <;> simp only [hoh, Act.unlock.injEq, reduceCtorEq] at h <;>
      (obtain ⟨rfl, rfl⟩ := h; simp [holds])
    all_goals grind
  run pc f h m y := by
    cases pc <;> simp only [hoh, Act.run.injEq, reduceCtorEq] at h
    case loop p =>
      subst h
      by_cases hp : p < K <;> simp [hp, holds]
    all_goals
      subst h
      simp [holds]
  stop pc h y := by
    cases pc <;> simp [hoh, holds] at h ⊢

/-- Nodes are locked from front to back, the print mutex last. -/
def rank : Mutex → WithTop Nat
  | .pm => ⊤
  | .node i => WithTop.some i

theorem rank_lt {K : Nat} {pc : Pc} {x : Mutex} {next : Pc} (h : hoh K pc = .lock x next)
    {y : Mutex} (hy : holds pc y) : rank y < rank x := by
  cases pc <;> simp only [hoh, Act.lock.injEq, reduceCtorEq] at h <;>
    (obtain ⟨rfl, rfl⟩ := h; simp only [holds] at hy)
  · subst hy
    exact WithTop.coe_lt_coe.mpr (Nat.lt_succ_self _)
  · subst hy
    exact WithTop.coe_lt_top _

/-- The actions that remain; a node takes seven. -/
def left (K : Nat) : Pc → Nat
  | .printBegin => 7 * K + 7
  | .printBeginHeld => 7 * K + 6
  | .lockHead => 7 * K + 5
  | .loop p => 7 * (K - p) + 4
  | .lockNext p => 7 * (K - (p + 1)) + 10
  | .unlockPrev p => 7 * (K - (p + 1)) + 9
  | .printNode n => 7 * (K - n) + 8
  | .printNodeHeld n => 7 * (K - n) + 7
  | .loadData n => 7 * (K - n) + 6
  | .storeData n _ => 7 * (K - n) + 5
  | .unlockLast _ => 3
  | .printEnd => 2
  | .printEndHeld => 1
  | .done => 0

theorem counted (K : Nat) : Counted (hoh K) (left K) where
  lock pc x next h := by
    cases pc <;> simp only [hoh, Act.lock.injEq, reduceCtorEq] at h <;>
      (obtain ⟨rfl, rfl⟩ := h; simp [left])
  unlock pc x next h := by
    cases pc <;> simp only [hoh, Act.unlock.injEq, reduceCtorEq] at h <;>
      (obtain ⟨rfl, rfl⟩ := h; simp [left])
  run pc f h m := by
    cases pc <;> simp only [hoh, Act.run.injEq, reduceCtorEq] at h
    case loop p =>
      subst h
      by_cases hp : p < K
      · simp only [hp, if_true, left]
        omega
      · simp only [hp, if_false, left]
        omega
    all_goals
      subst h
      simp [left]

/-! ## the data -/

/-- The last node a thread has incremented; 0 if there is none yet. -/
def passed (K : Nat) : Pc → Nat
  | .printBegin | .printBeginHeld | .lockHead => 0
  | .loop p | .lockNext p | .unlockPrev p | .unlockLast p => p
  | .printNode n | .printNodeHeld n | .loadData n | .storeData n _ => n - 1
  | .printEnd | .printEndHeld | .done => K

/-- Counts a thread at node `x` once it has incremented its data. -/
def visit (K x : Nat) (pc : Pc) : Nat := if 1 ≤ x ∧ x ≤ passed K pc then 1 else 0

/-- `p` is a node, `n` one behind the head, and a thread leaves the loop at the
last node only. -/
def InList (K : Nat) : Pc → Prop
  | .loop p => p ≤ K
  | .lockNext p | .unlockPrev p => p < K
  | .printNode n | .printNodeHeld n | .loadData n | .storeData n _ => 1 ≤ n ∧ n ≤ K
  | .unlockLast p => p = K
  | _ => True

variable {τ : Type} [DecidableEq τ] {K : Nat} {d₀ : Nat → Int}
  {s s' : Sys τ Mutex Pc (Nat → Int)} {t : τ}

/-- What a step does to the data: only the store of `data++` changes it. -/
theorem step_data (hin : InList K (s.pc t)) (h : step (hoh K) s t = some s') :
    InList K (s'.pc t) ∧
    ((∃ n v, s.pc t = .storeData n v ∧ s'.pc t = .loop n ∧
      s'.mem = Function.update s.mem n (v + 1)) ∨
    (s'.mem = s.mem ∧ passed K (s'.pc t) = passed K (s.pc t) ∧
      ∀ n v, s'.pc t = .storeData n v → v = s.mem n)) := by
  rcases step_cases h with ⟨x, next, hact, -, rfl⟩ | ⟨x, next, hact, -, rfl⟩ | ⟨f, hact, rfl⟩
  · generalize s.pc t = pc at hin hact ⊢
    cases pc <;> simp only [hoh, Act.lock.injEq, reduceCtorEq] at hact <;>
      (obtain ⟨rfl, rfl⟩ := hact; simp only [InList] at hin; simp [InList, passed, hin])
  · generalize s.pc t = pc at hin hact ⊢
    cases pc <;> simp only [hoh, Act.unlock.injEq, reduceCtorEq] at hact <;>
      obtain ⟨rfl, rfl⟩ := hact
    case unlockPrev p =>
      have hnode : InList K (.printNode (p + 1)) := ⟨Nat.succ_pos p, hin⟩
      simpa [passed] using hnode
    all_goals
      simp only [InList] at hin
      simp [InList, passed, hin]
  · generalize s.pc t = pc at hin hact ⊢
    cases pc <;> simp only [hoh, Act.run.injEq, reduceCtorEq] at hact
    case loop p =>
      subst hact
      by_cases hp : p < K
      · simp [InList, passed, hp]
      · have hlast : p = K := Nat.le_antisymm hin (not_lt.mp hp)
        simp [InList, passed, hlast]
    all_goals
      subst hact
      simp only [InList] at hin
      simp [InList, passed, hin]

variable [Fintype τ]

/-- The number of threads that have been at node `x`. -/
def visits (K : Nat) (s : Sys τ Mutex Pc (Nat → Int)) (x : Nat) : Nat :=
  ∑ t, visit K x (s.pc t)

/-- What holds at any time: threads own the mutexes they hold and are in the
list, what one has loaded is still there, and no visit is lost. -/
structure Tally (K : Nat) (d₀ : Nat → Int) (s : Sys τ Mutex Pc (Nat → Int)) : Prop where
  owned : Owned holds s
  inList : ∀ t, InList K (s.pc t)
  loaded : ∀ t n v, s.pc t = .storeData n v → v = s.mem n
  data : ∀ x, s.mem x = d₀ x + visits K s x

theorem visits_of_passed (h : step (hoh K) s t = some s')
    (hp : passed K (s'.pc t) = passed K (s.pc t)) (x : Nat) : visits K s' x = visits K s x := by
  have hsum := sum_pc_step (visit K x) h
  have hsame : visit K x (s'.pc t) = visit K x (s.pc t) := by rw [visit, visit, hp]
  rw [hsame] at hsum
  exact Nat.add_right_cancel hsum

/-- A store counts its thread at its node, and nowhere else. -/
theorem visits_of_store {n : Nat} {v : Int} (h : step (hoh K) s t = some s') (hn : 1 ≤ n)
    (hpc : s.pc t = .storeData n v) (hpc' : s'.pc t = .loop n) (x : Nat) :
    visits K s' x = visits K s x + if x = n then 1 else 0 := by
  have hsum := sum_pc_step (visit K x) h
  have hone : visit K x (.loop n) = visit K x (.storeData n v) + if x = n then 1 else 0 := by
    simp only [visit, passed]
    grind
  rw [hpc, hpc', hone] at hsum
  simp only [visits]
  omega

/-- **One step**, of any thread. -/
theorem Tally.of_step (hT : Tally K d₀ s) (h : step (hoh K) s t = some s') : Tally K d₀ s' := by
  obtain ⟨hin, hdata⟩ := step_data (hT.inList t) h
  have hin' : ∀ u, InList K (s'.pc u) := fun u => by
    by_cases hu : u = t
    · rwa [hu]
    · rw [pc_of_step h hu]
      exact hT.inList u
  rcases hdata with ⟨n, v, hpc, hpc', hmem⟩ | ⟨hmem, hpassed, hload⟩
  · refine ⟨hT.owned.of_step (disciplined K) h, hin', fun u m w hu => ?_, fun x => ?_⟩
    · -- another thread that has loaded is at another node
      have hut : u ≠ t := fun e => by simp [e, hpc'] at hu
      rw [pc_of_step h hut] at hu
      have hmn : m ≠ n := fun e =>
        hut (hT.owned.unique (x := .node n) (by simp [hu, holds, e]) (by simp [hpc, holds]))
      rw [hmem, Function.update_of_ne hmn, hT.loaded u m w hu]
    · have hn : 1 ≤ n := by
        have := hT.inList t
        rw [hpc] at this
        exact this.1
      rw [hmem, visits_of_store h hn hpc hpc']
      by_cases hx : x = n
      · rw [hx, Function.update_self, hT.loaded t n v hpc, hT.data n]
        simp [add_assoc]
      · rw [Function.update_of_ne hx, hT.data x]
        simp [hx]
  · refine ⟨hT.owned.of_step (disciplined K) h, hin', fun u m w hu => ?_, fun x => ?_⟩
    · rw [hmem]
      by_cases hut : u = t
      · exact hload m w (hut ▸ hu)
      · rw [pc_of_step h hut] at hu
        exact hT.loaded u m w hu
    · rw [hmem, visits_of_passed h hpassed]
      exact hT.data x

/-- No thread has begun. -/
def start (τ : Type) (d₀ : Nat → Int) : Sys τ Mutex Pc (Nat → Int) where
  owner _ := none
  pc _ := .printBegin
  mem := d₀

omit [DecidableEq τ] in
theorem Tally.of_start (d₀ : Nat → Int) : Tally K d₀ (start τ d₀) where
  owned x t := by simp [start, holds]
  inList t := by simp [start, InList]
  loaded t n v h := by simp [start] at h
  data x := by
    have hnone : visits K (start τ d₀) x = 0 := by
      refine Finset.sum_eq_zero fun t _ => if_neg ?_
      simp only [start, passed]
      omega
    rw [hnone]
    simp [start]

/-- **Whole runs**, in any interleaving. -/
theorem Tally.of_run {ts : List τ} (h : Run.run (step (hoh K)) (start τ d₀) ts = some s) :
    Tally K d₀ s :=
  Run.invariant_of_run (fun _ _ _ hT hstep => hT.of_step hstep) (.of_start d₀) h

theorem stop_iff {pc : Pc} : hoh K pc = .stop ↔ pc = .done := by
  cases pc <;> simp [hoh]

omit [DecidableEq τ] in
/-- When all threads are done, each has been at every node but the head. -/
theorem visits_of_done (h : ∀ t, s.pc t = .done) (x : Nat) :
    visits K s x = if 1 ≤ x ∧ x ≤ K then Fintype.card τ else 0 := by
  simp only [visits, visit, h, passed]
  split <;> simp

/-- **Hand-over-hand traversals.**  However the threads interleave: no two hold
the same mutex, the data of a node counts the threads that have been there (no
increment is lost), and the run can be completed.  Once all threads are done
the mutexes are free and every node but the head was incremented once by each
thread, in a number of steps that the interleaving has no part in. -/
theorem traversals_counted {ts : List τ}
    (h : Run.run (step (hoh K)) (start τ d₀) ts = some s) :
    (∀ t u x, holds (s.pc t) x → holds (s.pc u) x → t = u) ∧
    (∀ x, s.mem x = d₀ x + visits K s x) ∧
    (∃ ts' s', Run.run (step (hoh K)) s ts' = some s' ∧ ∀ t, s'.pc t = .done) ∧
    ((∀ t, s.pc t = .done) →
      ts.length = Fintype.card τ * (7 * K + 7) ∧ (∀ x, s.owner x = none) ∧
      ∀ x, s.mem x = if 1 ≤ x ∧ x ≤ K then d₀ x + Fintype.card τ else d₀ x) := by
  have hT : Tally K d₀ s := .of_run h
  refine ⟨fun t u x ht hu => hT.owned.unique ht hu, hT.data, ?_, fun hdone => ⟨?_, ?_, ?_⟩⟩
  · have hrank : ∀ pc x next, hoh K pc = .lock x next → ∀ y, holds pc y → rank y < rank x :=
      fun pc x next hact y hy => rank_lt hact hy
    obtain ⟨ts', s', hrun, hstop⟩ := hT.owned.exists_completion (disciplined K) (counted K) hrank
    exact ⟨ts', s', hrun, fun t => stop_iff.mp (hstop t)⟩
  · have hlen := run_left (counted K) h
    simpa [hdone, start, left] using hlen
  · intro x
    refine Option.eq_none_iff_forall_ne_some.mpr fun t ht => ?_
    rw [hT.owned, hdone t] at ht
    exact ht
  · intro x
    rw [hT.data x, visits_of_done hdone]
    split <;> simp

/-- Two threads, a head and one node: from the start there is a run in which
both get to the end, after 28 steps. -/
theorem traversals_counted_two :
    ∃ ts s, Run.run (step (hoh 1)) (start (Fin 2) fun _ => 0) ts = some s ∧
      ts.length = 28 ∧ s.mem 0 = 0 ∧ s.mem 1 = 2 := by
  have hnone : Run.run (step (hoh 1)) (start (Fin 2) fun _ => 0) [] = some _ := rfl
  obtain ⟨ts, s, hrun, hdone⟩ := (traversals_counted hnone).2.2.1
  obtain ⟨hlen, -, hmem⟩ := (traversals_counted hrun).2.2.2 hdone
  exact ⟨ts, s, hrun, hlen, hmem 0, hmem 1⟩

end Cxlbuf.Hoh
