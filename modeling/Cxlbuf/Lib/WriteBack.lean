import Mathlib.Data.Set.Basic
import Mathlib.Logic.Function.Basic

/-!
# Cxlbuf.Lib.WriteBack

Write-back caches over an arbitrary index type.  A cache holds some locations
of a store; what a location holds is what the cache holds of it, or else what
the store holds (`view`).  Moving locations into the cache and writing them
back out keeps the view, whatever the order; a write to a cached location
changes it there.

The operations are relations between two caches, so that code is shown to
perform them without computing the caches it works on.
-/

namespace WriteBack

variable {ι β : Type}

/-- A cache in front of a store. -/
structure Cache (ι β : Type) where
  front : ι → Option β
  back : ι → β

/-- What the locations hold. -/
def Cache.view (c : Cache ι β) : ι → β := fun i => (c.front i).getD (c.back i)

theorem Cache.view_of_none {c : Cache ι β} {i : ι} (h : c.front i = none) :
    c.view i = c.back i := by simp [view, h]

theorem Cache.view_of_some {c : Cache ι β} {i : ι} {b : β} (h : c.front i = some b) :
    c.view i = b := by simp [view, h]

/-- The locations are written back and dropped. -/
structure Evicts (S : Set ι) (c c' : Cache ι β) : Prop where
  front : ∀ i ∈ S, c'.front i = none
  back : ∀ i ∈ S, c'.back i = c.view i
  frame_front : ∀ i ∉ S, c'.front i = c.front i
  frame_back : ∀ i ∉ S, c'.back i = c.back i

/-- The locations are brought in. -/
structure Fills (S : Set ι) (c c' : Cache ι β) : Prop where
  front : ∀ i ∈ S, c'.front i = some (c.view i)
  frame_front : ∀ i ∉ S, c'.front i = c.front i
  back : ∀ i, c'.back i = c.back i

/-- A location of the cache is written. -/
structure Writes [DecidableEq ι] (i : ι) (b : β) (c c' : Cache ι β) : Prop where
  front : ∀ j, c'.front j = if j = i then some b else c.front j
  back : ∀ j, c'.back j = c.back j

theorem Evicts.view_eq {S : Set ι} {c c' : Cache ι β} (h : Evicts S c c') : c'.view = c.view := by
  funext i
  by_cases hi : i ∈ S
  · rw [Cache.view_of_none (h.front i hi), h.back i hi]
  · simp only [Cache.view, h.frame_front i hi, h.frame_back i hi]

theorem Fills.view_eq {S : Set ι} {c c' : Cache ι β} (h : Fills S c c') : c'.view = c.view := by
  funext i
  by_cases hi : i ∈ S
  · rw [Cache.view_of_some (h.front i hi)]
  · simp only [Cache.view, h.frame_front i hi, h.back i]

theorem Writes.view_eq [DecidableEq ι] {i : ι} {b : β} {c c' : Cache ι β} (h : Writes i b c c') :
    c'.view = Function.update c.view i b := by
  funext j
  by_cases hj : j = i
  · subst hj
    simp [Cache.view, h.front]
  · simp [Cache.view, h.front, h.back, hj]

end WriteBack
