import Cxlbuf.Lib.Run
import Mathlib.Algebra.BigOperators.Group.Finset.Basic
import Mathlib.Data.Finset.Max
import Mathlib.Data.Fintype.Basic

/-!
# Cxlbuf.Lib.Locks

Threads that run one program each over mutexes `X` and a shared memory `M`,
in any interleaving.  A program is given by what a thread does at each program
counter (`Act`), and `holds` says which mutexes a thread has there.

* **Mutual exclusion** (`Owned`): a thread owns what it holds, so no two hold
  the same mutex, and no thread unlocks what it does not own.

* **Deadlock freedom** (`Owned.exists_step`): if every thread locks in
  increasing order and stops without mutexes, some thread can go on as long as
  one has not stopped.

* **Termination** (`run_left`, `exists_completion`): if every action brings a
  thread one nearer to its end, all runs that end take the same number of
  steps, and every run can be completed.
-/

namespace Locks

/-- What a thread does next. -/
inductive Act (X Pc M : Type) where
  | lock (x : X) (next : Pc)
  | unlock (x : X) (next : Pc)
  | run (f : M → Pc × M)
  | stop

/-- The owners of the mutexes, where the threads are, and memory. -/
structure Sys (τ X Pc M : Type) where
  owner : X → Option τ
  pc : τ → Pc
  mem : M

variable {τ X Pc M : Type} [DecidableEq τ] [DecidableEq X] {prog : Pc → Act X Pc M}
  {holds : Pc → X → Prop} {s s' : Sys τ X Pc M} {t : τ}

/-- One action of thread `t`; there is none if it waits for a mutex, unlocks
one it does not own, or has stopped. -/
def step (prog : Pc → Act X Pc M) (s : Sys τ X Pc M) (t : τ) : Option (Sys τ X Pc M) :=
  match prog (s.pc t) with
  | .lock x next =>
      if s.owner x = none then
        some { s with
          owner := Function.update s.owner x (some t)
          pc := Function.update s.pc t next }
      else none
  | .unlock x next =>
      if s.owner x = some t then
        some { s with owner := Function.update s.owner x none, pc := Function.update s.pc t next }
      else none
  | .run f => some { s with pc := Function.update s.pc t (f s.mem).1, mem := (f s.mem).2 }
  | .stop => none

/-- **What a step does.** -/
theorem step_cases (h : step prog s t = some s') :
    (∃ x next, prog (s.pc t) = .lock x next ∧ s.owner x = none ∧ s' = { s with
      owner := Function.update s.owner x (some t), pc := Function.update s.pc t next }) ∨
    (∃ x next, prog (s.pc t) = .unlock x next ∧ s.owner x = some t ∧ s' = { s with
      owner := Function.update s.owner x none, pc := Function.update s.pc t next }) ∨
    ∃ f, prog (s.pc t) = .run f ∧
      s' = { s with pc := Function.update s.pc t (f s.mem).1, mem := (f s.mem).2 } := by
  unfold step at h
  cases hact : prog (s.pc t) with
  | lock x next =>
      simp only [hact, Option.ite_none_right_eq_some, Option.some.injEq] at h
      exact .inl ⟨x, next, rfl, h.1, h.2.symm⟩
  | unlock x next =>
      simp only [hact, Option.ite_none_right_eq_some, Option.some.injEq] at h
      exact .inr (.inl ⟨x, next, rfl, h.1, h.2.symm⟩)
  | run f =>
      simp only [hact, Option.some.injEq] at h
      exact .inr (.inr ⟨f, rfl, h.symm⟩)
  | stop => simp [hact] at h

/-- A step moves its thread only. -/
theorem pc_of_step (h : step prog s t = some s') {u : τ} (hu : u ≠ t) : s'.pc u = s.pc u := by
  rcases step_cases h with ⟨x, next, -, -, rfl⟩ | ⟨x, next, -, -, rfl⟩ | ⟨f, -, rfl⟩
  · exact Function.update_of_ne hu _ _
  · exact Function.update_of_ne hu _ _
  · exact Function.update_of_ne hu _ _

/-! ## mutual exclusion -/

/-- `holds` follows the actions of the program. -/
structure Disciplined (prog : Pc → Act X Pc M) (holds : Pc → X → Prop) : Prop where
  lock : ∀ pc x next, prog pc = .lock x next → ∀ y, holds next y ↔ holds pc y ∨ y = x
  unlock : ∀ pc x next, prog pc = .unlock x next →
    holds pc x ∧ ∀ y, holds next y ↔ holds pc y ∧ y ≠ x
  run : ∀ pc f, prog pc = .run f → ∀ m y, holds (f m).1 y ↔ holds pc y
  stop : ∀ pc, prog pc = .stop → ∀ y, ¬ holds pc y

/-- Threads own what they hold. -/
def Owned (holds : Pc → X → Prop) (s : Sys τ X Pc M) : Prop :=
  ∀ x t, s.owner x = some t ↔ holds (s.pc t) x

omit [DecidableEq τ] [DecidableEq X] in
/-- No two threads hold the same mutex. -/
theorem Owned.unique (h : Owned holds s) {u : τ} {x : X} (ht : holds (s.pc t) x)
    (hu : holds (s.pc u) x) : t = u := by
  rw [← h] at ht hu
  exact Option.some.inj (ht.symm.trans hu)

theorem Owned.of_step (h : Owned holds s) (hd : Disciplined prog holds)
    (hs : step prog s t = some s') : Owned holds s' := by
  intro y u
  rcases step_cases hs with ⟨x, next, hact, hfree, rfl⟩ | ⟨x, next, hact, hown, rfl⟩ |
    ⟨f, hact, rfl⟩
  · have hnext := hd.lock _ _ _ hact
    have hnone : ∀ v, ¬ holds (s.pc v) x := fun v hv => by
      rw [← h, hfree] at hv
      cases hv
    by_cases hut : u = t
    · subst hut
      by_cases hyx : y = x
      · simp [hyx, hnext]
      · simp [hyx, hnext, h y u]
    · by_cases hyx : y = x
      · simp [hyx, hut, hnone u, Ne.symm hut]
      · simp [hyx, hut, h y u]
  · obtain ⟨hx, hnext⟩ := hd.unlock _ _ _ hact
    by_cases hut : u = t
    · subst hut
      by_cases hyx : y = x
      · simp [hyx, hnext]
      · simp [hyx, hnext, h y u]
    · by_cases hyx : y = x
      · have hne : ¬ holds (s.pc u) x := fun hu => hut (h.unique hu hx)
        simp [hyx, hut, hne]
      · simp [hyx, hut, h y u]
  · have hnext := hd.run _ _ hact s.mem
    by_cases hut : u = t
    · subst hut
      simp [hnext, h y u]
    · simp [hut, h y u]

/-! ## deadlock freedom -/

/-- The rank of the mutex a thread is about to lock. -/
def wants {ρ : Type} (prog : Pc → Act X Pc M) (rank : X → ρ) (pc : Pc) : WithBot ρ :=
  match prog pc with
  | .lock x _ => rank x
  | _ => ⊥

/-- A thread that cannot go on and has not stopped waits for a mutex that
another one holds. -/
theorem Owned.blocked (h : Owned holds s) (hd : Disciplined prog holds)
    (hgo : prog (s.pc t) ≠ .stop) (hnone : step prog s t = none) :
    ∃ x next u, prog (s.pc t) = .lock x next ∧ holds (s.pc u) x := by
  unfold step at hnone
  cases hact : prog (s.pc t) with
  | lock x next =>
      simp only [hact, ite_eq_right_iff, reduceCtorEq, imp_false] at hnone
      obtain ⟨u, hu⟩ := Option.ne_none_iff_exists'.mp hnone
      exact ⟨x, next, u, rfl, (h x u).mp hu⟩
  | unlock x next =>
      have hown := (h x t).mpr (hd.unlock _ _ _ hact).1
      simp [hact, hown] at hnone
  | run f => simp [hact] at hnone
  | stop => exact absurd hact hgo

/-- **Locking in order does not deadlock**: if every thread locks only what is
above all it holds, then some thread can go on, unless all have stopped. -/
theorem Owned.exists_step [Fintype τ] {ρ : Type} [LinearOrder ρ] {rank : X → ρ}
    (h : Owned holds s) (hd : Disciplined prog holds)
    (hrank : ∀ pc x next, prog pc = .lock x next → ∀ y, holds pc y → rank y < rank x)
    (hgo : prog (s.pc t) ≠ .stop) : ∃ u s', step prog s u = some s' := by
  by_contra hstuck
  have hnone : ∀ u, step prog s u = none := by
    simpa [Option.eq_none_iff_forall_ne_some] using hstuck
  -- of the threads that wait take one that waits for the highest mutex
  obtain ⟨u, -, hmax⟩ := Finset.exists_max_image Finset.univ (fun u => wants prog rank (s.pc u))
    ⟨t, Finset.mem_univ t⟩
  obtain ⟨x, next, -, hact, -⟩ := h.blocked hd hgo (hnone t)
  have hwait : ⊥ < wants prog rank (s.pc u) := by
    refine lt_of_lt_of_le ?_ (hmax t (Finset.mem_univ t))
    simp only [wants, hact]
    exact WithBot.bot_lt_coe _
  have hgo' : prog (s.pc u) ≠ .stop := fun hstop => by simp [wants, hstop] at hwait
  -- the thread that holds it waits for a higher one
  obtain ⟨y, next', v, hact', hheld⟩ := h.blocked hd hgo' (hnone u)
  have hgo'' : prog (s.pc v) ≠ .stop := fun hstop => hd.stop _ hstop y hheld
  obtain ⟨z, next'', -, hact'', -⟩ := h.blocked hd hgo'' (hnone v)
  have hle := hmax v (Finset.mem_univ v)
  simp only [wants, hact', hact'', WithBot.coe_le_coe] at hle
  exact absurd hle (not_le.mpr (hrank _ _ _ hact'' y hheld))

/-! ## termination -/

/-- The number of actions a thread has left, from each program counter on. -/
structure Counted (prog : Pc → Act X Pc M) (left : Pc → Nat) : Prop where
  lock : ∀ pc x next, prog pc = .lock x next → left next + 1 = left pc
  unlock : ∀ pc x next, prog pc = .unlock x next → left next + 1 = left pc
  run : ∀ pc f, prog pc = .run f → ∀ m, left (f m).1 + 1 = left pc

/-- A step changes a sum over the threads by its own thread's part. -/
theorem sum_pc_step [Fintype τ] (f : Pc → Nat) (h : step prog s t = some s') :
    ∑ u, f (s'.pc u) + f (s.pc t) = ∑ u, f (s.pc u) + f (s'.pc t) := by
  have hrest : ∑ u ∈ Finset.univ.erase t, f (s'.pc u) = ∑ u ∈ Finset.univ.erase t, f (s.pc u) :=
    Finset.sum_congr rfl fun u hu => by rw [pc_of_step h (Finset.ne_of_mem_erase hu)]
  rw [← Finset.add_sum_erase _ _ (Finset.mem_univ t),
    ← Finset.add_sum_erase _ (fun u => f (s.pc u)) (Finset.mem_univ t), hrest]
  omega

/-- A step takes one action. -/
theorem sum_left_step [Fintype τ] {left : Pc → Nat} (hc : Counted prog left)
    (h : step prog s t = some s') : ∑ u, left (s'.pc u) + 1 = ∑ u, left (s.pc u) := by
  have hone : left (s'.pc t) + 1 = left (s.pc t) := by
    rcases step_cases h with ⟨x, next, hact, -, rfl⟩ | ⟨x, next, hact, -, rfl⟩ | ⟨f, hact, rfl⟩
    · simpa using hc.lock _ _ _ hact
    · simpa using hc.unlock _ _ _ hact
    · simpa using hc.run _ _ hact s.mem
  have hsum := sum_pc_step left h
  omega

/-- **The length of a run** is the number of actions it took. -/
theorem run_left [Fintype τ] {left : Pc → Nat} (hc : Counted prog left) {ts : List τ}
    (h : Run.run (step prog) s ts = some s') :
    ∑ u, left (s'.pc u) + ts.length = ∑ u, left (s.pc u) := by
  induction ts generalizing s with
  | nil =>
      rw [Run.run_nil, Option.some.injEq] at h
      simp [h]
  | cons t ts ih =>
      rw [Run.run_cons] at h
      obtain ⟨s₁, hstep, hrun⟩ := Option.bind_eq_some_iff.mp h
      have hlast := ih hrun
      have hfirst := sum_left_step hc hstep
      rw [List.length_cons]
      omega

/-- **Every run can be completed.** -/
theorem Owned.exists_completion [Fintype τ] {ρ : Type} [LinearOrder ρ] {rank : X → ρ}
    {left : Pc → Nat} (h : Owned holds s) (hd : Disciplined prog holds) (hc : Counted prog left)
    (hrank : ∀ pc x next, prog pc = .lock x next → ∀ y, holds pc y → rank y < rank x) :
    ∃ ts s', Run.run (step prog) s ts = some s' ∧ ∀ t, prog (s'.pc t) = .stop := by
  induction hn : ∑ u, left (s.pc u) using Nat.strongRecOn generalizing s with
  | ind n ih =>
      by_cases hall : ∀ t, prog (s.pc t) = .stop
      · exact ⟨[], s, rfl, hall⟩
      · obtain ⟨t, ht⟩ := not_forall.mp hall
        obtain ⟨u, s₁, hstep⟩ := h.exists_step hd hrank ht
        have hless := sum_left_step hc hstep
        obtain ⟨ts, s', hrun, hdone⟩ := ih _ (by omega) (h.of_step hd hstep) rfl
        exact ⟨u :: ts, s', by rw [Run.run_cons, hstep]; exact hrun, hdone⟩

end Locks
