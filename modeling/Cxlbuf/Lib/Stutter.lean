import Mathlib.Logic.Relation

/-!
# Cxlbuf.Lib.Stutter

Simulation between two deterministic machines, where the second may take
steps of its own.  Such a step stays with the state of the first machine and
lowers a rank, so there are finitely many in a row; all other steps go
together, and the machines stop together.

Then the runs correspond in both directions (`Simulation.exists_source`,
`Simulation.exists_target`), and one of them stops exactly when the other
does (`Simulation.stops_iff`).
-/

namespace Stutter

variable {σ τ : Type} {stepS : σ → Option σ} {stepT : τ → Option τ} {R : σ → τ → Prop}
  {rank : τ → Nat} {s s' : σ} {t t' : τ}

/-- The states a machine reaches. -/
abbrev Reaches (step : σ → Option σ) : σ → σ → Prop :=
  Relation.ReflTransGen fun s s' => step s = some s'

/-- What related states do: both stop, both go on to related states, or the
second takes a step of its own. -/
structure Simulation (stepS : σ → Option σ) (stepT : τ → Option τ) (R : σ → τ → Prop)
    (rank : τ → Nat) : Prop where
  step : ∀ s t, R s t →
    (∃ t', stepT t = some t' ∧ R s t' ∧ rank t' < rank t) ∨ Option.Rel R (stepS s) (stepT t)

namespace Simulation

/-- Every state of the second machine is related to one of the first. -/
theorem exists_source (h : Simulation stepS stepT R rank) (hR : R s t)
    (ht : Reaches stepT t t') : ∃ s', Reaches stepS s s' ∧ R s' t' := by
  induction ht with
  | refl => exact ⟨s, .refl, hR⟩
  | tail _ hstep ih =>
      obtain ⟨s₁, hs₁, hR₁⟩ := ih
      rcases h.step _ _ hR₁ with ⟨t₂, hown, hR₂, -⟩ | hboth
      · rw [hown, Option.some.injEq] at hstep
        exact ⟨s₁, hs₁, hstep ▸ hR₂⟩
      · rw [hstep] at hboth
        cases hsrc : stepS s₁ with
        | none => rw [hsrc] at hboth; cases hboth
        | some s₂ =>
            rw [hsrc] at hboth
            cases hboth with
            | some hR₂ => exact ⟨s₂, hs₁.tail hsrc, hR₂⟩

/-- The second machine gets through with its own steps. -/
theorem exists_joint (h : Simulation stepS stepT R rank) (hR : R s t) :
    ∃ t', Reaches stepT t t' ∧ R s t' ∧ Option.Rel R (stepS s) (stepT t') := by
  induction hn : rank t using Nat.strongRecOn generalizing t with
  | ind n ih =>
      rcases h.step _ _ hR with ⟨t₁, hown, hR₁, hlt⟩ | hboth
      · obtain ⟨t', hreach, hR', hboth⟩ := ih (rank t₁) (hn ▸ hlt) hR₁ rfl
        exact ⟨t', hreach.head hown, hR', hboth⟩
      · exact ⟨t, .refl, hR, hboth⟩

/-- Every state of the first machine is related to one of the second. -/
theorem exists_target (h : Simulation stepS stepT R rank) (hR : R s t)
    (hs : Reaches stepS s s') : ∃ t', Reaches stepT t t' ∧ R s' t' := by
  induction hs with
  | refl => exact ⟨t, .refl, hR⟩
  | tail _ hstep ih =>
      obtain ⟨t₁, ht₁, hR₁⟩ := ih
      obtain ⟨t₂, ht₂, -, hboth⟩ := h.exists_joint hR₁
      rw [hstep] at hboth
      cases htgt : stepT t₂ with
      | none => rw [htgt] at hboth; cases hboth
      | some t₃ =>
          rw [htgt] at hboth
          cases hboth with
          | some hR₃ => exact ⟨t₃, (ht₁.trans ht₂).tail htgt, hR₃⟩

/-- **The machines stop together**, in related states. -/
theorem stops_iff (h : Simulation stepS stepT R rank) (hR : R s t) :
    (∃ s', Reaches stepS s s' ∧ stepS s' = none) ↔
      ∃ t', Reaches stepT t t' ∧ stepT t' = none := by
  constructor
  · rintro ⟨s', hs', hstop⟩
    obtain ⟨t₁, ht₁, hR₁⟩ := h.exists_target hR hs'
    obtain ⟨t₂, ht₂, -, hboth⟩ := h.exists_joint hR₁
    rw [hstop] at hboth
    cases htgt : stepT t₂ with
    | none => exact ⟨t₂, ht₁.trans ht₂, htgt⟩
    | some t₃ => rw [htgt] at hboth; cases hboth
  · rintro ⟨t', ht', hstop⟩
    obtain ⟨s', hs', hR'⟩ := h.exists_source hR ht'
    rcases h.step _ _ hR' with ⟨t₂, hown, -, -⟩ | hboth
    · rw [hstop] at hown; cases hown
    · rw [hstop] at hboth
      cases hsrc : stepS s' with
      | none => exact ⟨s', hs', hsrc⟩
      | some s₂ => rw [hsrc] at hboth; cases hboth

end Simulation

end Stutter
