import Mathlib.Algebra.GroupWithZero.Nat
import Mathlib.Algebra.BigOperators.Group.List.Basic

/-!
# Cxlbuf.Lib.Tiling

Ranges `(start, length)` that lie one behind the other.  `Tiles p rs q` says
that the ranges `rs` begin at `p`, that each begins where the one before it
ends, and that the last ends at `q`; so they are disjoint (`Tiles.pairwise`),
and together they are `[p, q)` (`Tiles.covers`).

A walker is a loop that jumps from one position to the next and notes where
it has been (`walk`).  One whose jumps are the lengths of the tiles visits
their starts and stops where they end (`Tiles.walk_eq`); any walker has
advanced by the sum of its jumps (`walk_snd`).
-/

namespace Tiling

/-- The ranges lie one behind the other from `p` to `q`. -/
def Tiles : Nat → List (Nat × Nat) → Nat → Prop
  | p, [], q => p = q
  | p, r :: rs, q => r.1 = p ∧ Tiles (p + r.2) rs q

variable {p q m n : Nat} {rs : List (Nat × Nat)}

/-- One more range, from where the others end. -/
theorem Tiles.concat (h : Tiles p rs m) (n : Nat) : Tiles p (rs ++ [(m, n)]) (m + n) := by
  induction rs generalizing p with
  | nil =>
      cases h
      simp [Tiles]
  | cons r rs ih => exact ⟨h.1, ih h.2⟩

/-- The ranges end at the sum of their lengths. -/
theorem Tiles.eq_add_sum (h : Tiles p rs q) : q = p + (rs.map Prod.snd).sum := by
  induction rs generalizing p with
  | nil =>
      cases h
      simp
  | cons r rs ih =>
      have hrest := ih h.2
      simp only [List.map_cons, List.sum_cons]
      omega

theorem Tiles.le (h : Tiles p rs q) : p ≤ q := by
  have hsum := h.eq_add_sum
  omega

/-- Every range lies between the ends. -/
theorem Tiles.bounds (h : Tiles p rs q) : ∀ r ∈ rs, p ≤ r.1 ∧ r.1 + r.2 ≤ q := by
  induction rs generalizing p with
  | nil => simp
  | cons r rs ih =>
      obtain ⟨hstart, hrest⟩ := h
      have hle := hrest.le
      intro r' hr'
      cases List.mem_cons.mp hr' with
      | inl heq =>
          subst heq
          omega
      | inr hmem =>
          have hbounds := ih hrest r' hmem
          omega

/-- **The ranges do not overlap**: each ends at or before the start of any
later one. -/
theorem Tiles.pairwise (h : Tiles p rs q) : rs.Pairwise fun r r' => r.1 + r.2 ≤ r'.1 := by
  induction rs generalizing p with
  | nil => simp
  | cons r rs ih =>
      obtain ⟨hstart, hrest⟩ := h
      refine List.pairwise_cons.mpr ⟨fun r' hr' => ?_, ih hrest⟩
      have hbounds := hrest.bounds r' hr'
      omega

/-- **The ranges cover** exactly the positions between the ends. -/
theorem Tiles.covers (h : Tiles p rs q) (i : Nat) :
    (∃ r ∈ rs, r.1 ≤ i ∧ i < r.1 + r.2) ↔ p ≤ i ∧ i < q := by
  induction rs generalizing p with
  | nil =>
      cases h
      simp
  | cons r rs ih =>
      obtain ⟨hstart, hrest⟩ := h
      have hle := hrest.le
      simp only [List.exists_mem_cons_iff, ih hrest]
      omega

/-! ## walkers -/

section Walk

variable {more : Nat → Bool} {next : Nat → Nat} {fuel : Nat}

/-- A walker that goes on while `more` holds, for at most `fuel` jumps: where
it has been, and where it is then. -/
def walk (more : Nat → Bool) (next : Nat → Nat) : Nat → Nat → List Nat × Nat
  | 0, i => ([], i)
  | fuel + 1, i =>
      if more i then
        let rest := walk more next fuel (next i)
        (i :: rest.1, rest.2)
      else ([], i)

/-- Where a walk has stopped and where it has been, or `none` if it goes on. -/
def stopped (more : Nat → Bool) (w : List Nat × Nat) : Option (Nat × List Nat) :=
  if more w.2 then none else some (w.2, w.1)

theorem walk_of_stop (h : more p = false) : walk more next fuel p = ([], p) := by
  cases fuel <;> simp [walk, h]

theorem walk_of_more (h : more p = true) : walk more next (fuel + 1) p =
    (p :: (walk more next fuel (next p)).1, (walk more next fuel (next p)).2) := by
  simp [walk, h]

/-- **The walker rule**: a walker that goes on at the start of every tile and
jumps by its length visits the starts of the tiles and stops where they end. -/
theorem Tiles.walk_eq (h : Tiles p rs q)
    (hstep : ∀ r ∈ rs, more r.1 = true ∧ next r.1 = r.1 + r.2) (hpos : ∀ r ∈ rs, 0 < r.2)
    (hstop : more q = false) (hfuel : q ≤ p + fuel) :
    walk more next fuel p = (rs.map Prod.fst, q) := by
  induction rs generalizing p fuel with
  | nil =>
      cases h
      exact walk_of_stop hstop
  | cons r rs ih =>
      obtain ⟨rfl, hrest⟩ := h
      obtain ⟨hmore, hnext⟩ := hstep r List.mem_cons_self
      have hlen := hpos r List.mem_cons_self
      have hle := hrest.le
      cases fuel with
      | zero => omega
      | succ fuel =>
          have htail := ih hrest (fun r' hr' => hstep r' (List.mem_cons_of_mem _ hr'))
            (fun r' hr' => hpos r' (List.mem_cons_of_mem _ hr'))
            (show q ≤ r.1 + r.2 + fuel by omega)
          rw [walk_of_more hmore, hnext, htail, List.map_cons]

/-- A walker has advanced by the sum of its jumps. -/
theorem walk_snd (more : Nat → Bool) (jump : Nat → Nat) (fuel p : Nat) :
    (walk more (fun i => i + jump i) fuel p).2 =
      p + ((walk more (fun i => i + jump i) fuel p).1.map jump).sum := by
  induction fuel generalizing p with
  | zero => simp [walk]
  | succ fuel ih =>
      cases hmore : more p with
      | false => simp [walk_of_stop hmore]
      | true =>
          rw [walk_of_more hmore]
          simp only [List.map_cons, List.sum_cons]
          rw [ih]
          omega

/-- What every jump keeps holds at the end. -/
theorem walk_invariant {I : Nat → Prop} (hI : ∀ i, I i → more i = true → I (next i)) (hp : I p) :
    I (walk more next fuel p).2 := by
  induction fuel generalizing p with
  | zero => exact hp
  | succ fuel ih =>
      cases hmore : more p with
      | false =>
          rw [walk_of_stop hmore]
          exact hp
      | true =>
          rw [walk_of_more hmore]
          exact ih (hI p hp hmore)

/-- A walker towards `n` whose jumps all advance has arrived after as many
jumps as there were positions before it. -/
theorem le_walk_snd (hnext : ∀ i, i < n → i < next i) (hfuel : n ≤ p + fuel) :
    n ≤ (walk (fun i => i < n) next fuel p).2 := by
  induction fuel generalizing p with
  | zero => exact hfuel
  | succ fuel ih =>
      by_cases hlt : p < n
      · have hadv := hnext p hlt
        rw [walk_of_more (by simpa using hlt)]
        exact ih (by omega)
      · rw [walk_of_stop (by simpa using hlt)]
        omega

end Walk

end Tiling
