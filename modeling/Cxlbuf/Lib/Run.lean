import Mathlib.Data.List.Basic

/-!
# Cxlbuf.Lib.Run

Runs of a step function that may fail, and the invariant rules for runs
whose steps meet a guard.  If a step that meets its guard completes and
keeps the invariant, then so does a run all of whose steps meet theirs
(`Keeps.run`); where steps may fail, the invariant holds in every state that
is reached (`Guarded.invariant`).  A run of steps that a function matches one
by one is matched by that function (`run_simulates`).  Guards that agree
under an invariant are met by the same runs (`guarded_congr`).  Where a step keeps a
property exactly when it meets its guard, a run keeps it throughout exactly
when all its steps meet theirs (`throughout_iff_guarded`).
-/

namespace Run

variable {σ α : Type} {step : σ → α → Option σ} {I : σ → Prop} {G : σ → α → Prop}

/-- Take the steps `as` one after the other. -/
def run (step : σ → α → Option σ) (s : σ) (as : List α) : Option σ := as.foldlM step s

@[simp] theorem run_nil (s : σ) : run step s [] = some s := rfl

theorem run_cons (s : σ) (a : α) (as : List α) :
    run step s (a :: as) = (step s a).bind fun s' => run step s' as := rfl

theorem run_append (s : σ) (as bs : List α) :
    run step s (as ++ bs) = (run step s as).bind fun s' => run step s' bs :=
  List.foldlM_append

/-- Every step of the run meets its guard, in the state it is taken in. -/
def Guarded (step : σ → α → Option σ) (G : σ → α → Prop) : σ → List α → Prop
  | _, [] => True
  | s, a :: as => G s a ∧ ∀ s', step s a = some s' → Guarded step G s' as

theorem guarded_of_forall (h : ∀ s a, G s a) (s : σ) (as : List α) : Guarded step G s as := by
  induction as generalizing s with
  | nil => trivial
  | cons a as ih => exact ⟨h s a, fun s' _ => ih s'⟩

/-- A guard that an invariant implies is met throughout. -/
theorem guarded_of_invariant {P : α → Prop}
    (hI : ∀ s a s', I s → P a → step s a = some s' → I s') (hG : ∀ s a, I s → P a → G s a) {s : σ}
    (hs : I s) {as : List α} (has : ∀ a ∈ as, P a) : Guarded step G s as := by
  induction as generalizing s with
  | nil => trivial
  | cons a as ih =>
      have ha := has a List.mem_cons_self
      exact ⟨hG s a hs ha, fun s' hstep =>
        ih (hI s a s' hs ha hstep) fun a' ha' => has a' (List.mem_cons_of_mem _ ha')⟩

theorem guarded_of_mem {P : α → Prop} {s : σ} {as : List α} (h : ∀ a ∈ as, P a) :
    Guarded step (fun _ a => P a) s as :=
  guarded_of_invariant (I := fun _ => True) (fun _ _ _ _ _ _ => trivial) (fun _ _ _ ha => ha)
    trivial h

theorem Guarded.and {H : σ → α → Prop} {s : σ} {as : List α} (hg : Guarded step G s as)
    (hh : Guarded step H s as) : Guarded step (fun s a => G s a ∧ H s a) s as := by
  induction as generalizing s with
  | nil => trivial
  | cons a as ih => exact ⟨⟨hg.1, hh.1⟩, fun s' hstep => ih (hg.2 s' hstep) (hh.2 s' hstep)⟩

theorem Guarded.imp {H : σ → α → Prop} (h : ∀ s a, G s a → H s a) {s : σ} {as : List α}
    (hg : Guarded step G s as) : Guarded step H s as := by
  induction as generalizing s with
  | nil => trivial
  | cons a as ih => exact ⟨h s a hg.1, fun s' hstep => ih (hg.2 s' hstep)⟩

/-- Guards that agree under an invariant are met by the same runs. -/
theorem guarded_congr {H : σ → α → Prop} (hI : ∀ s a s', I s → step s a = some s' → I s')
    (hGH : ∀ s a, I s → (G s a ↔ H s a)) {s : σ} (hs : I s) (as : List α) :
    Guarded step G s as ↔ Guarded step H s as := by
  induction as generalizing s with
  | nil => exact Iff.rfl
  | cons a as ih =>
      exact and_congr (hGH s a hs) (forall₂_congr fun s' hstep => ih (hI s a s' hs hstep))

/-- A step that meets its guard completes and keeps the invariant. -/
def Keeps (step : σ → α → Option σ) (I : σ → Prop) (G : σ → α → Prop) : Prop :=
  ∀ s a, I s → G s a → ∃ s', step s a = some s' ∧ I s'

/-- **The invariant rule**: so does a run all of whose steps meet theirs. -/
theorem Keeps.run (h : Keeps step I G) {s : σ} (hs : I s) {as : List α}
    (hg : Guarded step G s as) : ∃ s', run step s as = some s' ∧ I s' := by
  induction as generalizing s with
  | nil => exact ⟨s, rfl, hs⟩
  | cons a as ih =>
      obtain ⟨s₁, hstep, hs₁⟩ := h s a hs hg.1
      obtain ⟨s', hrun, hs'⟩ := ih hs₁ (hg.2 s₁ hstep)
      exact ⟨s', by rw [run_cons, hstep]; exact hrun, hs'⟩

/-- **The invariant rule for steps that may fail.** -/
theorem Guarded.invariant (h : ∀ s a s', I s → G s a → step s a = some s' → I s') {s : σ}
    (hs : I s) {as : List α} (hg : Guarded step G s as) {s' : σ}
    (hrun : Run.run step s as = some s') : I s' := by
  induction as generalizing s with
  | nil =>
      rw [run_nil, Option.some.injEq] at hrun
      exact hrun ▸ hs
  | cons a as ih =>
      rw [run_cons] at hrun
      obtain ⟨s₁, hstep, hrun⟩ := Option.bind_eq_some_iff.mp hrun
      exact ih (h s a s₁ hs hg.1 hstep) (hg.2 s₁ hstep) hrun

/-- What every step keeps holds in every state that is reached. -/
theorem invariant_of_run (h : ∀ s a s', I s → step s a = some s' → I s') {s s' : σ} (hs : I s)
    {as : List α} (hrun : Run.run step s as = some s') : I s' :=
  Guarded.invariant (G := fun _ _ => True) (fun s a s' hs _ => h s a s' hs) hs
    (guarded_of_forall (fun _ _ => trivial) s as) hrun

/-- **The simulation rule**: if an admissible step completes and is matched by
`g`, then so does a run of admissible steps. -/
theorem run_simulates {τ : Type} {R : σ → τ → Prop} {g : τ → α → τ} {P : α → Prop}
    (h : ∀ s t a, R s t → P a → ∃ s', step s a = some s' ∧ R s' (g t a)) {s : σ} {t : τ}
    (hs : R s t) {as : List α} (has : ∀ a ∈ as, P a) :
    ∃ s', run step s as = some s' ∧ R s' (as.foldl g t) := by
  induction as generalizing s t with
  | nil => exact ⟨s, rfl, hs⟩
  | cons a as ih =>
      obtain ⟨s₁, hstep, hs₁⟩ := h s t a hs (has a List.mem_cons_self)
      obtain ⟨s', hrun, hs'⟩ := ih hs₁ fun a' ha' => has a' (List.mem_cons_of_mem _ ha')
      exact ⟨s', by rw [run_cons, hstep]; exact hrun, hs'⟩

/-- The simulation rule for steps that meet a guard in the state they are
taken in. -/
theorem Guarded.simulates {τ : Type} {R : σ → τ → Prop} {g : τ → α → τ}
    (h : ∀ s t a, R s t → G s a → ∃ s', step s a = some s' ∧ R s' (g t a)) {s : σ} {t : τ}
    (hs : R s t) {as : List α} (hg : Guarded step G s as) :
    ∃ s', Run.run step s as = some s' ∧ R s' (as.foldl g t) := by
  induction as generalizing s t with
  | nil => exact ⟨s, rfl, hs⟩
  | cons a as ih =>
      obtain ⟨s₁, hstep, hs₁⟩ := h s t a hs hg.1
      obtain ⟨s', hrun, hs'⟩ := ih hs₁ (hg.2 s₁ hstep)
      exact ⟨s', by rw [run_cons, hstep]; exact hrun, hs'⟩

/-- A guarded run is guarded over a part of it, and then over the rest. -/
theorem guarded_append {s : σ} {as bs : List α} : Guarded step G s (as ++ bs) ↔
    Guarded step G s as ∧ ∀ s', Run.run step s as = some s' → Guarded step G s' bs := by
  induction as generalizing s with
  | nil => simp [Guarded]
  | cons a as ih =>
      constructor
      · intro h
        refine ⟨⟨h.1, fun s₁ hstep => (ih.mp (h.2 s₁ hstep)).1⟩, fun s' hrun => ?_⟩
        rw [run_cons] at hrun
        obtain ⟨s₁, hstep, hrun⟩ := Option.bind_eq_some_iff.mp hrun
        exact (ih.mp (h.2 s₁ hstep)).2 s' hrun
      · rintro ⟨⟨ha, has⟩, hbs⟩
        refine ⟨ha, fun s₁ hstep => ih.mpr ⟨has s₁ hstep, fun s' hrun => hbs s' ?_⟩⟩
        rw [run_cons, hstep]
        exact hrun

/-- The property holds in every state of the run, the first included. -/
def Throughout (step : σ → α → Option σ) (P : σ → Prop) : σ → List α → Prop
  | s, [] => P s
  | s, a :: as => P s ∧ ∀ s', step s a = some s' → Throughout step P s' as

theorem Throughout.head {P : σ → Prop} {s : σ} {as : List α} (h : Throughout step P s as) :
    P s := by
  cases as with
  | nil => exact h
  | cons a as => exact h.1

/-- **The exactness rule**: if a step from a state with the property leads to
one exactly when it meets its guard, then a run that completes has the
property throughout exactly when all its steps meet theirs. -/
theorem throughout_iff_guarded {K : σ → α → Prop} {P : σ → Prop}
    (hI : ∀ s a s', I s → K s a → step s a = some s' → I s')
    (hP : ∀ s a s', I s → K s a → P s → step s a = some s' → (P s' ↔ G s a)) {s : σ} (hs : I s)
    (hp : P s) {as : List α} (hk : Guarded step K s as) {s' : σ}
    (hrun : Run.run step s as = some s') : Throughout step P s as ↔ Guarded step G s as := by
  induction as generalizing s with
  | nil => exact ⟨fun _ => trivial, fun _ => hp⟩
  | cons a as ih =>
      rw [run_cons] at hrun
      obtain ⟨s₁, hstep, hrun⟩ := Option.bind_eq_some_iff.mp hrun
      have hs₁ := hI s a s₁ hs hk.1 hstep
      have hiff := hP s a s₁ hs hk.1 hp hstep
      have hunique {s₂ : σ} (h₂ : step s a = some s₂) : s₂ = s₁ :=
        Option.some.inj (h₂.symm.trans hstep)
      constructor
      · intro hall
        have hrest := hall.2 s₁ hstep
        have hguard := (ih hs₁ hrest.head (hk.2 s₁ hstep) hrun).mp hrest
        exact ⟨hiff.mp hrest.head, fun s₂ h₂ => hunique h₂ ▸ hguard⟩
      · intro hall
        have hthrough := (ih hs₁ (hiff.mpr hall.1) (hk.2 s₁ hstep) hrun).mpr (hall.2 s₁ hstep)
        exact ⟨hp, fun s₂ h₂ => hunique h₂ ▸ hthrough⟩

end Run
