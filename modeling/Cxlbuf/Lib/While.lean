import Mathlib.Order.Basic

/-!
# Cxlbuf.Lib.While

While loops whose body may break out of the loop.  A loop is run for a
bounded number of tests (`loop`); it ends in a state if some bound leads
there (`Ends`), and diverges if none does (`Diverges`).  There is a rule for
each thing an iteration can do, an invariant rule for loops that end and one
for loops that do not.
-/

namespace While

variable {σ : Type} {cond : σ → Bool} {body : σ → ForInStep σ} {s s' r : σ} {n m : Nat}

/-- `while (cond) body`, with at most `fuel` tests of the condition.  The body
yields the next state or breaks out of the loop with a final one. -/
def loop (cond : σ → Bool) (body : σ → ForInStep σ) : Nat → σ → Option σ
  | 0, _ => none
  | fuel + 1, s =>
      if cond s then
        match body s with
        | .yield s' => loop cond body fuel s'
        | .done s' => some s'
      else some s

/-- The loop ends in a state. -/
def Ends (cond : σ → Bool) (body : σ → ForInStep σ) (s r : σ) : Prop :=
  ∃ fuel, loop cond body fuel s = some r

/-- The loop goes on forever. -/
def Diverges (cond : σ → Bool) (body : σ → ForInStep σ) (s : σ) : Prop :=
  ∀ fuel, loop cond body fuel s = none

/-! ## one test -/

theorem loop_exit (h : cond s = false) : loop cond body (n + 1) s = some s := by
  simp [loop, h]

theorem loop_yield (h : cond s = true) (hb : body s = .yield s') :
    loop cond body (n + 1) s = loop cond body n s' := by
  simp [loop, h, hb]

theorem loop_done (h : cond s = true) (hb : body s = .done s') :
    loop cond body (n + 1) s = some s' := by
  simp [loop, h, hb]

/-- More fuel does not change the result. -/
theorem loop_of_le (h : loop cond body n s = some r) (hnm : n ≤ m) :
    loop cond body m s = some r := by
  induction n generalizing s m with
  | zero => cases h
  | succ n ih =>
      obtain ⟨m, rfl⟩ := Nat.exists_eq_add_of_lt hnm
      cases hc : cond s with
      | false => rwa [loop_exit hc] at h ⊢
      | true =>
          cases hb : body s with
          | done s' => rwa [loop_done hc hb] at h ⊢
          | yield s' =>
              rw [loop_yield hc hb] at h ⊢
              exact ih h (by omega)

theorem ends_exit (h : cond s = false) : Ends cond body s s := ⟨1, loop_exit h⟩

theorem ends_done (h : cond s = true) (hb : body s = .done s') : Ends cond body s s' :=
  ⟨1, loop_done h hb⟩

theorem ends_yield (h : cond s = true) (hb : body s = .yield s') :
    Ends cond body s r ↔ Ends cond body s' r := by
  constructor
  · rintro ⟨n, hn⟩
    cases n with
    | zero => cases hn
    | succ n => exact ⟨n, by rwa [loop_yield h hb] at hn⟩
  · rintro ⟨n, hn⟩
    exact ⟨n + 1, by rwa [loop_yield h hb]⟩

/-! ## whole loops -/

/-- **The invariant rule**: what every iteration keeps holds at the end. -/
theorem Ends.invariant {I : σ → Prop}
    (hI : ∀ s s', I s → body s = .yield s' ∨ body s = .done s' → I s') (hs : I s)
    (h : Ends cond body s r) : I r := by
  obtain ⟨n, hn⟩ := h
  induction n generalizing s with
  | zero => cases hn
  | succ n ih =>
      cases hc : cond s with
      | false =>
          rw [loop_exit hc, Option.some.injEq] at hn
          exact hn ▸ hs
      | true =>
          cases hb : body s with
          | done s' =>
              rw [loop_done hc hb, Option.some.injEq] at hn
              exact hn ▸ hI s s' hs (.inr hb)
          | yield s' =>
              rw [loop_yield hc hb] at hn
              exact ih (hI s s' hs (.inl hb)) hn

/-- **The divergence rule**: a loop goes on forever if an invariant lets every
test succeed and every iteration yield. -/
theorem diverges_of_invariant {I : σ → Prop}
    (hI : ∀ s, I s → cond s = true ∧ ∃ s', body s = .yield s' ∧ I s') (hs : I s) :
    Diverges cond body s := by
  intro n
  induction n generalizing s with
  | zero => rfl
  | succ n ih =>
      obtain ⟨hc, s', hb, hs'⟩ := hI s hs
      rw [loop_yield hc hb]
      exact ih hs'

theorem Diverges.not_ends (h : Diverges cond body s) : ¬ Ends cond body s r := by
  rintro ⟨n, hn⟩
  rw [h n] at hn
  cases hn

/-- **The trace rule**: a loop that runs through `n` states of a trace and
exits in the next has that one for its result, given `n + 1` tests. -/
theorem loop_trace {f : Nat → σ} {n : Nat}
    (hstep : ∀ i, i < n → cond (f i) = true ∧ body (f i) = .yield (f (i + 1)))
    (hexit : cond (f n) = false) : loop cond body (n + 1) (f 0) = some (f n) := by
  induction n generalizing f with
  | zero => exact loop_exit hexit
  | succ n ih =>
      obtain ⟨hc, hb⟩ := hstep 0 (Nat.succ_pos n)
      rw [loop_yield hc hb]
      exact ih (f := fun i => f (i + 1)) (fun i hi => hstep (i + 1) (by omega)) hexit

end While
