import Mathlib.Data.List.Count
import Mathlib.Data.List.Nodup
import Mathlib.Data.List.Perm.Basic

/-!
# Cxlbuf.Lib.Sweep

Sweeping a queue.  `sweep p lo` goes through a vector from its last index
down to `lo` and erases what satisfies `p`; what it leaves and what it takes
out is `sweep_eq`.

A pool notes, next to the queue, which items were issued and which were taken
out of the queue (`Pool`).  Whatever is swept when, every item is in the queue
or was taken out once (`Wf.turn`), and the first `lo` items never leave
(`Pinned.turn`).  So a sweep is complete exactly when none of the first `lo`
items is done (`Wf.swept_turn_iff`).
-/

namespace Sweep

variable {α : Type} {p done : α → Bool} {lo n : Nat}

/-- `for (i = lo + n - 1; i >= lo; i--) if (p(xs[i])) { out.push_back(xs[i]);
xs.erase(i); }` -/
def sweep (p : α → Bool) (lo : Nat) : Nat → List α × List α → List α × List α
  | 0, s => s
  | n + 1, (xs, out) =>
      sweep p lo n (match xs[lo + n]? with
        | some x => if p x then (xs.eraseIdx (lo + n), out ++ [x]) else (xs, out)
        | none => (xs, out))

/-- One iteration, with the item in question between those before it and those
behind. -/
theorem sweep_succ {xs : List α} (hlen : xs.length = lo + n) (x : α) (ys out : List α) :
    sweep p lo (n + 1) (xs ++ x :: ys, out) =
      if p x then sweep p lo n (xs ++ ys, out ++ [x]) else sweep p lo n (xs ++ x :: ys, out) := by
  have hget : (xs ++ x :: ys)[lo + n]? = some x := by simp [← hlen]
  have herase : (xs ++ x :: ys).eraseIdx (lo + n) = xs ++ ys := by
    simp [← hlen, List.eraseIdx_append_of_length_le]
  simp only [sweep, hget, herase]
  split <;> rfl

theorem sweep_append {xs : List α} (hlen : xs.length = lo + n) (ys out : List α) :
    sweep p lo n (xs ++ ys, out) =
      (xs.take lo ++ (xs.drop lo).filter (fun x => !p x) ++ ys,
        out ++ ((xs.drop lo).filter p).reverse) := by
  induction n generalizing xs ys out with
  | zero =>
      obtain rfl : lo = xs.length := by omega
      simp [sweep]
  | succ n ih =>
      obtain rfl | ⟨xs, x, rfl⟩ := xs.eq_nil_or_concat'
      · simp at hlen
      · have hxs : xs.length = lo + n := by
          rw [List.length_append, List.length_singleton] at hlen
          omega
        have hle : lo ≤ xs.length := by omega
        rw [List.append_assoc, List.singleton_append, sweep_succ hxs,
          List.take_append_of_le_length hle, List.drop_append_of_le_length hle]
        cases hp : p x with
        | true => simp [ih hxs, hp]
        | false => simp [ih hxs, hp]

/-- **What a sweep does**: the first `lo` items stay, and of the others those
that do not satisfy the test. -/
theorem sweep_eq (p : α → Bool) {xs : List α} (hlo : lo ≤ xs.length) :
    sweep p lo (xs.length - lo) (xs, []) =
      (xs.take lo ++ (xs.drop lo).filter (fun x => !p x), ((xs.drop lo).filter p).reverse) := by
  have hlen : xs.length = lo + (xs.length - lo) := by omega
  simpa using sweep_append (p := p) hlen [] []

/-! ## pools -/

/-- The items issued so far, in order, those in the queue, and those taken out
of it. -/
structure Pool (α : Type) where
  issued : List α
  queue : List α
  freed : List α

namespace Pool

/-- An item is issued and joins the queue, which is then swept from `lo` on. -/
def turn (done : α → Bool) (lo : Nat) (s : Pool α) (x : α) : Pool α :=
  let swept := sweep done lo ((s.queue ++ [x]).length - lo) (s.queue ++ [x], [])
  ⟨s.issued ++ [x], swept.1, s.freed ++ swept.2⟩

/-- The queue is in the order of issue, and with what was freed it makes up
what was issued. -/
structure Wf (s : Pool α) : Prop where
  nodup : s.issued.Nodup
  order : s.queue.Sublist s.issued
  perm : (s.freed ++ s.queue).Perm s.issued

/-- The queue is exactly what is not done, in the order of issue, and exactly
what is done was freed, once. -/
structure Swept [DecidableEq α] (done : α → Bool) (s : Pool α) : Prop where
  queue_eq : s.queue = s.issued.filter fun x => !done x
  freed_count : ∀ x ∈ s.issued, s.freed.count x = if done x then 1 else 0

variable {s : Pool α} {x : α}

theorem turn_eq (hlo : lo ≤ s.queue.length + 1) : s.turn done lo x =
    ⟨s.issued ++ [x],
      (s.queue ++ [x]).take lo ++ ((s.queue ++ [x]).drop lo).filter (fun y => !done y),
      s.freed ++ (((s.queue ++ [x]).drop lo).filter done).reverse⟩ := by
  rw [turn, sweep_eq done (show lo ≤ (s.queue ++ [x]).length by simpa using hlo)]

/-- What a turn does to the queue: the first `lo` items stay, and of the
others those that are not done. -/
theorem mem_queue_turn (hlo : lo ≤ s.queue.length + 1) (y : α) :
    y ∈ (s.turn done lo x).queue ↔ y ∈ (s.queue ++ [x]).take lo ∨
      y ∈ (s.queue ++ [x]).drop lo ∧ done y = false := by
  simp [turn_eq hlo]

/-- What is freed in a turn is done. -/
theorem done_of_mem_freed_turn (hlo : lo ≤ s.queue.length + 1)
    (hfreed : ∀ y ∈ s.freed, done y = true) : ∀ y ∈ (s.turn done lo x).freed, done y = true := by
  rw [turn_eq hlo]
  intro y hy
  cases List.mem_append.mp hy with
  | inl hold => exact hfreed y hold
  | inr hnew => exact (List.mem_filter.mp (List.mem_reverse.mp hnew)).2

/-- **Every item is in the queue or was freed, once.** -/
theorem Wf.turn (h : s.Wf) (hx : x ∉ s.issued) (hlo : lo ≤ s.queue.length + 1) :
    (s.turn done lo x).Wf := by
  rw [turn_eq hlo]
  have hsplit := List.take_append_drop lo (s.queue ++ [x])
  constructor
  · exact List.nodup_append.mpr ⟨h.nodup, List.nodup_singleton x, by
      simpa using fun y hy (heq : y = x) => hx (heq ▸ hy)⟩
  · have hkept : ((s.queue ++ [x]).take lo ++
        ((s.queue ++ [x]).drop lo).filter fun y => !done y).Sublist (s.queue ++ [x]) := by
      conv => rhs; rw [← hsplit]
      exact List.filter_sublist.append_left _
    exact hkept.trans (h.order.append (List.Sublist.refl [x]))
  · -- What the sweep takes out and what it leaves are the queue.
    have hparts : ((((s.queue ++ [x]).drop lo).filter done).reverse ++
        ((s.queue ++ [x]).take lo ++ ((s.queue ++ [x]).drop lo).filter fun y => !done y)).Perm
          (s.queue ++ [x]) := by
      conv => rhs; rw [← hsplit]
      refine List.perm_append_comm_assoc _ _ _ |>.trans ?_
      exact (((List.reverse_perm _).append_right _).trans
        (List.filter_append_perm done _)).append_left _
    have hall := (hparts.append_left s.freed).trans
      (by simpa using h.perm.append_right [x])
    simpa using hall

/-- Of what is not done, nothing is missing from the queue. -/
theorem Wf.filter_queue (h : s.Wf) (hfreed : ∀ y ∈ s.freed, done y = true) :
    (s.queue.filter fun y => !done y) = s.issued.filter fun y => !done y := by
  have hnone : (s.freed.filter fun y => !done y) = [] := by
    simpa [List.filter_eq_nil_iff] using hfreed
  have hperm := h.perm.filter fun y => !done y
  rw [List.filter_append, hnone, List.nil_append] at hperm
  exact (h.order.filter _).eq_of_length hperm.length_eq

/-- **When a pool is swept**: nothing in the queue is done. -/
theorem Wf.swept_iff [DecidableEq α] (h : s.Wf) (hfreed : ∀ y ∈ s.freed, done y = true) :
    s.Swept done ↔ ∀ y ∈ s.queue, done y = false := by
  have hqueue : s.queue = (s.issued.filter fun y => !done y) ↔ ∀ y ∈ s.queue, done y = false := by
    rw [← h.filter_queue hfreed, eq_comm, List.filter_eq_self]
    simp
  refine ⟨fun hs => hqueue.mp hs.queue_eq, fun hnot => ⟨hqueue.mpr hnot, fun y hy => ?_⟩⟩
  cases hd : done y with
  | true =>
      -- Issued once, and not in the queue, it was freed once.
      have hout : y ∉ s.queue := fun hmem => by simp [hnot y hmem] at hd
      have hcount : (s.freed ++ s.queue).count y = 1 := by
        rw [h.perm.count_eq, List.count_eq_one_of_mem h.nodup hy]
      rw [List.count_append, List.count_eq_zero_of_not_mem hout] at hcount
      simpa using hcount
  | false =>
      have hin : y ∉ s.freed := fun hmem => by simp [hfreed y hmem] at hd
      simpa using List.count_eq_zero_of_not_mem hin

/-- **When a turn leaves a swept pool**: none of the first `lo` items is done. -/
theorem Wf.swept_turn_iff [DecidableEq α] (h : s.Wf) (hx : x ∉ s.issued)
    (hlo : lo ≤ s.queue.length + 1) (hfreed : ∀ y ∈ s.freed, done y = true) :
    (s.turn done lo x).Swept done ↔ ∀ y ∈ (s.queue ++ [x]).take lo, done y = false := by
  rw [(h.turn hx hlo).swept_iff (done_of_mem_freed_turn hlo hfreed)]
  simp only [mem_queue_turn hlo]
  constructor
  · exact fun hall y hy => hall y (.inl hy)
  · rintro hfirst y (hy | ⟨-, hd⟩)
    · exact hfirst y hy
    · exact hd

/-- The first `lo` items in the queue are the first ones issued. -/
def Pinned (lo : Nat) (s : Pool α) : Prop := s.queue.take lo = s.issued.take lo

/-- **The first `lo` items never leave the queue.** -/
theorem Pinned.turn (h : s.Pinned lo) (hlo : lo ≤ s.queue.length + 1) :
    (s.turn done lo x).Pinned lo := by
  unfold Pinned at h ⊢
  have hlens := congrArg List.length h
  rw [List.length_take, List.length_take] at hlens
  have hkept : (s.turn done lo x).queue.take lo = (s.queue ++ [x]).take lo := by
    have hlen : lo ≤ ((s.queue ++ [x]).take lo).length := by
      simp only [List.length_take, List.length_append, List.length_singleton]
      omega
    simp only [turn_eq hlo, List.take_append_of_le_length hlen, List.take_take, Nat.min_self]
  rw [hkept, Pool.turn]
  by_cases hle : lo ≤ s.queue.length
  · rw [List.take_append_of_le_length hle, List.take_append_of_le_length (by omega), h]
  · -- A queue this short has lost nothing.
    rw [List.take_of_length_le (by omega), List.take_of_length_le (by omega)] at h
    rw [h]

end Pool

end Sweep
