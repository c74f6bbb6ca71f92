import Mathlib.Data.Set.Basic
import Mathlib.Logic.Function.Basic

/-!
# Cxlbuf.Lib.Persist

Persistent memory behind a volatile cache, as a memory of cells `ι` where
cell `i` holds a `V i`.  A cell is the unit within which stores persist in
program order: a whole cache line or anything smaller.

A program issues a trace of updates, flushes and drains.  Running it
(`exec`) gives what later loads see.  What a power failure leaves behind is
a `CrashImage`: every cell, independently of the others, holds what it held
after some prefix of the trace, and that prefix contains every update that
was flushed and then drained.
-/

namespace Persist

/-- One operation on persistent memory. -/
inductive Op (ι : Type) (V : ι → Type) where
  | update (i : ι) (f : V i → V i)
  | flush (s : Set ι)
  | drain

namespace Op

variable {ι : Type} {V : ι → Type}

/-- The operation stores to cell `i`. -/
def Updates (i : ι) : Op ι V → Prop
  | update j _ => j = i
  | flush _ | drain => False

/-- The operation starts writing cell `i` back. -/
def Flushes (i : ι) : Op ι V → Prop
  | flush s => i ∈ s
  | update _ _ | drain => False

/-- The effect of an operation on what loads see. -/
def apply [DecidableEq ι] (m : ∀ i, V i) : Op ι V → ∀ i, V i
  | update i f => Function.update m i (f (m i))
  | flush _ | drain => m

end Op

variable {ι : Type} {V : ι → Type} [DecidableEq ι]

/-! ## running a trace -/

/-- What loads see after a trace. -/
def exec (m : ∀ i, V i) (tr : List (Op ι V)) : ∀ i, V i := tr.foldl Op.apply m

@[simp] theorem exec_nil (m : ∀ i, V i) : exec m [] = m := rfl

@[simp] theorem exec_cons (m : ∀ i, V i) (op : Op ι V) (tr : List (Op ι V)) :
    exec m (op :: tr) = exec (op.apply m) tr := rfl

theorem exec_append (m : ∀ i, V i) (tr tr' : List (Op ι V)) :
    exec m (tr ++ tr') = exec (exec m tr) tr' := List.foldl_append

theorem Op.apply_of_not_updates {op : Op ι V} {i : ι} (h : ¬ op.Updates i) (m : ∀ i, V i) :
    op.apply m i = m i := by
  cases op with
  | update j f => exact Function.update_of_ne (fun hij => h hij.symm) _ _
  | flush s => rfl
  | drain => rfl

/-- A trace that never stores to a cell leaves it as it was. -/
theorem exec_of_not_updates {tr : List (Op ι V)} {i : ι} (h : ∀ op ∈ tr, ¬ op.Updates i)
    (m : ∀ i, V i) : exec m tr i = m i := by
  induction tr generalizing m with
  | nil => rfl
  | cons op tr ih =>
      rw [exec_cons, ih fun op' hop' => h op' (List.mem_cons_of_mem _ hop'),
        Op.apply_of_not_updates (h op List.mem_cons_self)]

/-- A property of a cell that every store to it establishes, whatever it
held, holds after every trace. -/
theorem exec_induction {P : V i → Prop} {tr : List (Op ι V)} {m : ∀ i, V i} (hm : P (m i))
    (h : ∀ f, Op.update i f ∈ tr → ∀ v, P v → P (f v)) : P (exec m tr i) := by
  induction tr generalizing m with
  | nil => exact hm
  | cons op tr ih =>
      refine ih ?_ fun f hf => h f (List.mem_cons_of_mem _ hf)
      cases op with
      | update j f =>
          by_cases hij : j = i
          · subst hij
            simpa [Op.apply] using h f List.mem_cons_self _ hm
          · have hne : ¬ (Op.update j f).Updates i := hij
            rwa [Op.apply_of_not_updates hne]
      | flush s => exact hm
      | drain => exact hm

/-- A trace in two phases: the first keeps `P` of a cell, `u` turns `P` into
`Q`, the second keeps `Q`.  Then after every prefix one of the two holds. -/
theorem exec_two_phase {P Q : V i → Prop} {xs ys tr : List (Op ι V)} {u : Op ι V} {m : ∀ i, V i}
    (hm : P (m i)) (hxs : ∀ f, Op.update i f ∈ xs → ∀ v, P v → P (f v))
    (hu : ∀ m : ∀ i, V i, P (m i) → Q (u.apply m i))
    (hys : ∀ f, Op.update i f ∈ ys → ∀ v, Q v → Q (f v)) (htr : tr <+: xs ++ u :: ys) :
    P (exec m tr i) ∨ Q (exec m tr i) := by
  have hP : P (exec m xs i) := exec_induction hm hxs
  cases List.prefix_or_prefix_of_prefix htr (List.prefix_append xs (u :: ys)) with
  | inl hpre => exact .inl (exec_induction hm fun f hf => hxs f (hpre.subset hf))
  | inr hpre =>
      obtain ⟨zs, rfl⟩ := hpre
      rw [List.prefix_append_right_inj, List.prefix_cons_iff] at htr
      cases htr with
      | inl hnil =>
          rw [hnil, List.append_nil]
          exact .inl hP
      | inr hcons =>
          obtain ⟨ws, rfl, hws⟩ := hcons
          rw [exec_append, exec_cons]
          exact .inr (exec_induction (hu _ hP) fun f hf => hys f (hws.subset hf))

/-! ## crash images -/

/-- A cell may be cut at prefix length `k` of the trace when everything
that was flushed and then drained lies before `k`. -/
def LegalCut (tr : List (Op ι V)) (i : ι) (k : Nat) : Prop :=
  k ≤ tr.length ∧ ∀ (pre : List (Op ι V)) op post, tr = pre ++ op :: post → op.Flushes i →
    Op.drain ∈ post → pre.length < k

/-- The memory contents a power failure right after the trace may leave. -/
def CrashImage (m : ∀ i, V i) (tr : List (Op ι V)) (img : ∀ i, V i) : Prop :=
  ∀ i, ∃ k, LegalCut tr i k ∧ img i = exec m (tr.take k) i

/-- Every cell holds what it held after some prefix. -/
theorem CrashImage.exists_prefix {m : ∀ i, V i} {tr : List (Op ι V)} {img : ∀ i, V i}
    (h : CrashImage m tr img) (i : ι) : ∃ tr', tr' <+: tr ∧ img i = exec m tr' i := by
  obtain ⟨k, -, himg⟩ := h i
  exact ⟨tr.take k, List.take_prefix k tr, himg⟩

omit [DecidableEq ι] in
/-- A cell may always have been written back in full. -/
theorem legalCut_length (tr : List (Op ι V)) (i : ι) : LegalCut tr i tr.length := by
  refine ⟨Nat.le_refl _, ?_⟩
  rintro pre op post rfl - -
  simp

omit [DecidableEq ι] in
/-- A cell that is first flushed after the last drain may hold none of the
trace's updates. -/
theorem legalCut_zero {tr tr' : List (Op ι V)} {i : ι} (h : ∀ op ∈ tr, ¬ op.Flushes i)
    (h' : Op.drain ∉ tr') : LegalCut (tr ++ tr') i 0 := by
  refine ⟨Nat.zero_le _, ?_⟩
  intro pre op post heq hop hdrain
  rcases List.append_eq_append_iff.mp heq with ⟨as, rfl, has⟩ | ⟨bs, hbs, hpost⟩
  · exact absurd (has ▸ List.mem_append_right as (List.mem_cons_of_mem op hdrain)) h'
  · cases bs with
    | nil =>
        rw [List.nil_append] at hpost
        exact absurd (hpost ▸ List.mem_cons_of_mem op hdrain) h'
    | cons b bs =>
        rw [List.cons_append, List.cons.injEq] at hpost
        obtain ⟨rfl, -⟩ := hpost
        exact absurd hop (h op (by rw [hbs]; simp))

/-- **A torn image**: a cell that is first flushed after the last drain may
be lost while everything else was written back. -/
theorem crashImage_torn (m : ∀ i, V i) {tr tr' : List (Op ι V)} {i : ι}
    (h : ∀ op ∈ tr, ¬ op.Flushes i) (h' : Op.drain ∉ tr') :
    CrashImage m (tr ++ tr') (Function.update (exec m (tr ++ tr')) i (m i)) := by
  intro j
  by_cases hj : j = i
  · subst hj
    exact ⟨0, legalCut_zero h h', by simp⟩
  · exact ⟨(tr ++ tr').length, legalCut_length _ _, by
      rw [Function.update_of_ne hj, List.take_length]⟩

/-- A flush of the cell and later a drain. -/
def FlushedDrained (tr : List (Op ι V)) (i : ι) : Prop :=
  ∃ (mid : List (Op ι V)) (fl : Op ι V) (tail : List (Op ι V)),
    tr = mid ++ fl :: tail ∧ fl.Flushes i ∧ Op.drain ∈ tail

/-- Every store to the cell is followed by a flush of it and then a drain. -/
def Settled (tr : List (Op ι V)) (i : ι) : Prop :=
  ∀ (pre : List (Op ι V)) op post, tr = pre ++ op :: post → op.Updates i → FlushedDrained post i

omit [DecidableEq ι] in
theorem FlushedDrained.append_left {tr : List (Op ι V)} {i : ι} (h : FlushedDrained tr i)
    (tr' : List (Op ι V)) : FlushedDrained (tr' ++ tr) i := by
  obtain ⟨mid, fl, tail, rfl, hfl, hdrain⟩ := h
  exact ⟨tr' ++ mid, fl, tail, by simp, hfl, hdrain⟩

omit [DecidableEq ι] in
/-- What is stored before a final flush is drained by what follows it. -/
theorem flushedDrained_of_final_flush {xs pre post tr : List (Op ι V)} {u : Op ι V} {s : Set ι}
    {i : ι} (h : xs ++ [.flush s] = pre ++ u :: post) (hu : u.Updates i) (hs : i ∈ s)
    (htr : Op.drain ∈ tr) : FlushedDrained (post ++ tr) i := by
  rcases List.eq_nil_or_concat post with rfl | ⟨ys, y, rfl⟩
  · obtain ⟨-, hlast⟩ := List.append_inj' h rfl
    rw [List.cons.injEq] at hlast
    rw [← hlast.1] at hu
    exact absurd hu id
  · rw [List.concat_eq_append] at h ⊢
    rw [← List.cons_append, ← List.append_assoc] at h
    obtain ⟨-, hlast⟩ := List.append_inj' h rfl
    rw [List.cons.injEq] at hlast
    exact ⟨ys, .flush s, tr, by simp [← hlast.1], hs, htr⟩

omit [DecidableEq ι] in
/-- A settled trace stays settled when operations are put before it whose
stores are flushed and drained in the whole. -/
theorem Settled.append {tr tr' : List (Op ι V)} {i : ι} (h' : Settled tr' i)
    (h : ∀ (pre : List (Op ι V)) op post, tr = pre ++ op :: post → op.Updates i →
      FlushedDrained (post ++ tr') i) : Settled (tr ++ tr') i := by
  intro pre op post heq hop
  rcases List.append_eq_append_iff.mp heq with ⟨as, rfl, has⟩ | ⟨bs, hbs, hpost⟩
  · exact h' as op post has hop
  · cases bs with
    | nil => exact h' [] op post hpost.symm hop
    | cons b bs =>
        rw [List.cons_append, List.cons.injEq] at hpost
        obtain ⟨rfl, rfl⟩ := hpost
        exact h pre op bs hbs hop

/-- **Durability**: a settled cell survives a crash with its last value. -/
theorem CrashImage.eq_exec_of_settled {m : ∀ i, V i} {tr : List (Op ι V)} {img : ∀ i, V i}
    (h : CrashImage m tr img) {i : ι} (hs : Settled tr i) : img i = exec m tr i := by
  obtain ⟨k, ⟨-, hcut⟩, himg⟩ := h i
  have hdrop : ∀ op ∈ tr.drop k, ¬ op.Updates i := by
    intro op hop hupd
    obtain ⟨as, bs, hsplit⟩ := List.append_of_mem hop
    have htr : tr = (tr.take k ++ as) ++ op :: bs := by
      rw [List.append_assoc, ← hsplit, List.take_append_drop]
    obtain ⟨mid, fl, tail, rfl, hfl, hdrain⟩ := hs _ op bs htr hupd
    have hlt := hcut (tr.take k ++ as ++ op :: mid) fl tail (htr.trans (by simp)) hfl hdrain
    have hk : k ≤ tr.length := by
      by_contra hgt
      rw [List.drop_eq_nil_of_le (by omega)] at hop
      simp at hop
    simp only [List.length_append, List.length_take, List.length_cons] at hlt
    omega
  calc
    img i = exec m (tr.take k) i := himg
    _ = exec (exec m (tr.take k)) (tr.drop k) i := (exec_of_not_updates hdrop _).symm
    _ = exec m tr i := by rw [← exec_append, List.take_append_drop]

end Persist
