import Mathlib.Data.Set.Piecewise

/-!
# Cxlbuf.Lib.UndoLog

Undo logging over an arbitrary memory `α → β`.  A record saves what the
memory held on a set of locations; rolling a log back restores its records
last to first, so that at every location the *oldest* record wins
(`rollback_apply`).

`Logged m₀ log m` is the discipline a logger follows on the way from `m₀`
to `m`: before a write it saves the locations the write may change, unless
the log covers them already.  `Logged.rollback_eq` is the correctness
statement: whatever the logged locations hold now, a rollback gives `m₀`.
`LoggedOn` is the same for a logger that tracks some of the locations only.
-/

namespace UndoLog

/-- A saved set of locations with the values they had. -/
structure Record (α β : Type) where
  dom : Set α
  old : α → β

/-- The locations that some record of the log covers. -/
def covered (log : List (Record α β)) : Set α := { x | ∃ r ∈ log, x ∈ r.dom }

open scoped Classical in
/-- Put the saved values of one record back. -/
noncomputable def Record.restore (r : Record α β) (m : α → β) : α → β := r.dom.piecewise r.old m

/-- Restore every record, the last one of the log first. -/
noncomputable def rollback (log : List (Record α β)) (m : α → β) : α → β :=
  log.foldr Record.restore m

@[simp] theorem rollback_nil (m : α → β) : rollback [] m = m := rfl

@[simp] theorem rollback_cons (r : Record α β) (log : List (Record α β)) (m : α → β) :
    rollback (r :: log) m = r.restore (rollback log m) := rfl

theorem rollback_append (log log' : List (Record α β)) (m : α → β) :
    rollback (log ++ log') m = rollback log (rollback log' m) := by
  simp [rollback]

open scoped Classical in
theorem Record.restore_of_mem {r : Record α β} {x : α} (h : x ∈ r.dom) (m : α → β) :
    r.restore m x = r.old x := Set.piecewise_eq_of_mem _ _ _ h

open scoped Classical in
theorem Record.restore_of_notMem {r : Record α β} {x : α} (h : x ∉ r.dom) (m : α → β) :
    r.restore m x = m x := Set.piecewise_eq_of_notMem _ _ _ h

theorem covered_append (log log' : List (Record α β)) :
    covered (log ++ log') = covered log ∪ covered log' := by
  ext x
  simp only [covered, List.mem_append, Set.mem_ofPred_eq, Set.mem_union]
  constructor
  · rintro ⟨r, hr | hr, hx⟩
    · exact .inl ⟨r, hr, hx⟩
    · exact .inr ⟨r, hr, hx⟩
  · rintro (⟨r, hr, hx⟩ | ⟨r, hr, hx⟩)
    · exact ⟨r, .inl hr, hx⟩
    · exact ⟨r, .inr hr, hx⟩

/-- A rollback touches covered locations only. -/
theorem rollback_of_notMem {log : List (Record α β)} {x : α} (h : x ∉ covered log) (m : α → β) :
    rollback log m x = m x := by
  induction log with
  | nil => rfl
  | cons r log ih =>
      have hr : x ∉ r.dom := fun hx => h ⟨r, List.mem_cons_self, hx⟩
      have hlog : x ∉ covered log := fun ⟨r', hr', hx⟩ => h ⟨r', List.mem_cons_of_mem _ hr', hx⟩
      rw [rollback_cons, Record.restore_of_notMem hr, ih hlog]

/-- **The oldest record wins**: a rollback gives a location the value saved
by the first record of the log that covers it. -/
theorem rollback_apply (log : List (Record α β)) (r : Record α β) (log' : List (Record α β))
    {x : α} (h : x ∉ covered log) (hr : x ∈ r.dom) (m : α → β) :
    rollback (log ++ r :: log') m x = r.old x := by
  rw [rollback_append, rollback_of_notMem h, rollback_cons, Record.restore_of_mem hr]

/-- Every covered location has a first record that covers it. -/
theorem exists_first_of_mem_covered {log : List (Record α β)} {x : α} (h : x ∈ covered log) :
    ∃ pre r post, log = pre ++ r :: post ∧ x ∉ covered pre ∧ x ∈ r.dom := by
  induction log with
  | nil => obtain ⟨r, hr, -⟩ := h; simp at hr
  | cons r log ih =>
      by_cases hr : x ∈ r.dom
      · refine ⟨[], r, log, rfl, ?_, hr⟩
        rintro ⟨r', hr', -⟩
        simp at hr'
      · have hlog : x ∈ covered log := by
          obtain ⟨r', hr', hx⟩ := h
          rcases List.mem_cons.mp hr' with rfl | hmem
          · exact absurd hx hr
          · exact ⟨r', hmem, hx⟩
        obtain ⟨pre, r', post, rfl, hpre, hr'⟩ := ih hlog
        refine ⟨r :: pre, r', post, rfl, ?_, hr'⟩
        rintro ⟨s, hs, hx⟩
        rcases List.mem_cons.mp hs with rfl | hmem
        · exact hr hx
        · exact hpre ⟨s, hmem, hx⟩

/-- A rollback leaves a location alone exactly when it holds the value of
its oldest record already. -/
theorem rollback_apply_eq_self_iff (log : List (Record α β)) (m : α → β) (x : α) :
    rollback log m x = m x ↔
      ∀ pre r post, log = pre ++ r :: post → x ∉ covered pre → x ∈ r.dom → m x = r.old x := by
  constructor
  · rintro h pre r post rfl hpre hr
    rw [← rollback_apply pre r post hpre hr m, h]
  · intro h
    by_cases hx : x ∈ covered log
    · obtain ⟨pre, r, post, rfl, hpre, hr⟩ := exists_first_of_mem_covered hx
      rw [rollback_apply pre r post hpre hr, h pre r post rfl hpre hr]
    · exact rollback_of_notMem hx m

/-- What a rollback gives a location depends on that location only. -/
theorem rollback_congr_apply {log : List (Record α β)} {m m' : α → β} {x : α} (h : m x = m' x) :
    rollback log m x = rollback log m' x := by
  by_cases hx : x ∈ covered log
  · obtain ⟨pre, r, post, rfl, hpre, hr⟩ := exists_first_of_mem_covered hx
    rw [rollback_apply pre r post hpre hr, rollback_apply pre r post hpre hr]
  · rw [rollback_of_notMem hx, rollback_of_notMem hx, h]

/-- What the covered locations hold does not matter to a rollback. -/
theorem rollback_congr {log : List (Record α β)} {m m' : α → β}
    (h : ∀ x, x ∉ covered log → m x = m' x) : rollback log m = rollback log m' := by
  funext x
  by_cases hx : x ∈ covered log
  · obtain ⟨pre, r, post, rfl, hpre, hr⟩ := exists_first_of_mem_covered hx
    rw [rollback_apply pre r post hpre hr, rollback_apply pre r post hpre hr]
  · exact rollback_congr_apply (h x hx)

/-- Rolling back twice is rolling back once. -/
theorem rollback_idem (log : List (Record α β)) (m : α → β) :
    rollback log (rollback log m) = rollback log m := by
  funext x
  by_cases hx : x ∈ covered log
  · obtain ⟨pre, r, post, rfl, hpre, hr⟩ := exists_first_of_mem_covered hx
    rw [rollback_apply pre r post hpre hr, rollback_apply pre r post hpre hr]
  · rw [rollback_of_notMem hx]

/-- For a location, records that do not cover it may be left out. -/
theorem rollback_map_filter_apply (f : γ → Record α β) (p : γ → Bool) (log : List γ) (m : α → β)
    {x : α} (h : ∀ c ∈ log, p c = false → x ∉ (f c).dom) :
    rollback ((log.filter p).map f) m x = rollback (log.map f) m x := by
  induction log with
  | nil => rfl
  | cons c log ih =>
      have ih' := ih fun c' hc' => h c' (List.mem_cons_of_mem _ hc')
      cases hp : p c with
      | true =>
          rw [List.filter_cons_of_pos hp, List.map_cons, List.map_cons, rollback_cons,
            rollback_cons]
          by_cases hx : x ∈ (f c).dom
          · rw [Record.restore_of_mem hx, Record.restore_of_mem hx]
          · rw [Record.restore_of_notMem hx, Record.restore_of_notMem hx, ih']
      | false =>
          rw [List.filter_cons_of_neg (by simp [hp]), List.map_cons, rollback_cons,
            Record.restore_of_notMem (h c List.mem_cons_self hp), ih']

/-- Records that cover nothing may be left out altogether. -/
theorem rollback_map_filter (f : γ → Record α β) (p : γ → Bool) (log : List γ) (m : α → β)
    (h : ∀ c ∈ log, p c = false → (f c).dom = ∅) :
    rollback ((log.filter p).map f) m = rollback (log.map f) m := by
  funext x
  apply rollback_map_filter_apply
  simp +contextual [h]

/-! ## the logging discipline -/

/-- `Logged m₀ log m`: the memory went from `m₀` to `m` by writes that were
logged in `log`.  A write saves its locations first (`save`), or is made
without a record on locations the log covers already (`skip`). -/
inductive Logged (m₀ : α → β) : List (Record α β) → (α → β) → Prop
  | start : Logged m₀ [] m₀
  | save {log : List (Record α β)} {m m' : α → β} {r : Record α β} (h : Logged m₀ log m)
      (hr : ∀ x, x ∈ r.dom → r.old x = m x) (hw : ∀ x, x ∉ r.dom → m' x = m x) :
      Logged m₀ (log ++ [r]) m'
  | skip {log : List (Record α β)} {m m' : α → β} {dom : Set α} (h : Logged m₀ log m)
      (hdom : dom ⊆ covered log) (hw : ∀ x, x ∉ dom → m' x = m x) : Logged m₀ log m'

namespace Logged

variable {m₀ m : α → β} {log : List (Record α β)}

/-- Outside the covered locations nothing was written. -/
theorem eq_of_notMem (h : Logged m₀ log m) {x : α} (hx : x ∉ covered log) : m x = m₀ x := by
  induction h with
  | start => rfl
  | @save log m m' r h hr hw ih =>
      rw [covered_append, Set.mem_union, not_or] at hx
      have hdom : x ∉ r.dom := fun hd => hx.2 ⟨r, List.mem_singleton_self r, hd⟩
      rw [hw x hdom, ih hx.1]
  | skip h hdom hw ih => rw [hw x fun hd => hx (hdom hd), ih hx]

/-- **Undo-log correctness**: whatever the covered locations hold, a
rollback gives the memory the log was started on. -/
theorem rollback_eq (h : Logged m₀ log m) {m' : α → β}
    (hm' : ∀ x, x ∉ covered log → m' x = m₀ x) : rollback log m' = m₀ := by
  induction h generalizing m' with
  | start => funext x; exact hm' x (by rintro ⟨r, hr, -⟩; simp at hr)
  | @save log m m'' r h hr hw ih =>
      rw [rollback_append]
      apply ih
      intro x hx
      by_cases hd : x ∈ r.dom
      · rw [rollback_cons, Record.restore_of_mem hd, hr x hd]
        exact h.eq_of_notMem hx
      · rw [rollback_cons, Record.restore_of_notMem hd, rollback_nil]
        apply hm'
        rw [covered_append, Set.mem_union, not_or]
        refine ⟨hx, ?_⟩
        rintro ⟨r', hr', hxr⟩
        rw [List.mem_singleton.mp hr'] at hxr
        exact hd hxr
  | skip h hdom hw ih => exact ih hm'

end Logged

/-! ## the discipline on some of the locations -/

/-- `LoggedOn D m₀ log m`: on the way from `m₀` to `m` the discipline was
followed on the locations of `D`; the others may have been written without a
record.  Those of `D` that the log does not cover were not written, and a
rollback gives the others what they held. -/
structure LoggedOn (D : Set α) (m₀ : α → β) (log : List (Record α β)) (m : α → β) : Prop where
  uncovered : ∀ x ∈ D, x ∉ covered log → m x = m₀ x
  oldest : ∀ x ∈ D, x ∈ covered log → ∀ m', rollback log m' x = m₀ x

namespace LoggedOn

variable {D : Set α} {m₀ m : α → β} {log : List (Record α β)}

theorem start (D : Set α) (m₀ : α → β) : LoggedOn D m₀ [] m₀ where
  uncovered _ _ _ := rfl
  oldest x _ hx := by
    obtain ⟨r, hr, -⟩ := hx
    exact absurd hr List.not_mem_nil

/-- Saving what some locations hold. -/
theorem save (h : LoggedOn D m₀ log m) {r : Record α β} (hr : ∀ x ∈ r.dom, r.old x = m x) :
    LoggedOn D m₀ (log ++ [r]) m where
  uncovered x hx hout := by
    rw [covered_append, Set.mem_union, not_or] at hout
    exact h.uncovered x hx hout.1
  oldest x hx hin m' := by
    rw [rollback_append]
    by_cases hold : x ∈ covered log
    · exact h.oldest x hx hold _
    · rw [covered_append] at hin
      obtain ⟨r', hr', hdom⟩ := hin.resolve_left hold
      rw [List.mem_singleton.mp hr'] at hdom
      rw [rollback_of_notMem hold, rollback_cons, Record.restore_of_mem hdom, hr x hdom]
      exact h.uncovered x hx hold

/-- A write to locations that the log covers, or that are not in `D`. -/
theorem write (h : LoggedOn D m₀ log m) {m' : α → β}
    (hw : ∀ x ∈ D, x ∉ covered log → m' x = m x) : LoggedOn D m₀ log m' where
  uncovered x hx hout := (hw x hx hout).trans (h.uncovered x hx hout)
  oldest := h.oldest

end LoggedOn

end UndoLog
