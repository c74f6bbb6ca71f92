import Cxlbuf.Cxlfs.Accounting
import Cxlbuf.Lib.Sweep

/-!
# Cxlbuf.Cxlfs.Reap

The write completion queue.  `evict_a_page` adds the sequence of its write to
`ubd_wr_cq` and then goes through the queue from its end, to free what has
completed; but the loop stops before index 0.

A ledger next to the controller notes which writes were issued and which were
freed (`Ledger`); with the queue it makes a pool that is swept from index 1
on (`pool_evicted`).  So no write is freed twice or before it has completed,
and the first write of all is never freed: the queue is what is left to
complete only as long as that one is (`reapsAll_iff`).
-/

namespace Cxlbuf.Cxlfs

open ByteMem Controller Sweep

/-! ## the loop -/

/-- `is_completed` of the sequence of a write command. -/
def Device.isCompleted (d : Device) (id : Nat) : Bool := !d.inflight.any fun w => w.id = id

/-- The loop at the end of `evict_a_page`, with `iter` from `size() - 1` down
to 1: the queue it leaves and the sequences it frees. -/
def reapLoop (dev : Device) (ubdWrCq : List Nat) : List Nat × List Nat :=
  sweep dev.isCompleted 1 (ubdWrCq.length - 1) (ubdWrCq, [])

theorem reapLoop_fst (dev : Device) (ubdWrCq : List Nat) :
    (reapLoop dev ubdWrCq).1 = reap dev ubdWrCq := by
  cases ubdWrCq with
  | nil => rfl
  | cons id ids =>
      rw [reapLoop, sweep_eq _ (by simp)]
      simp [reap, Device.isCompleted]

theorem isCompleted_eq_false {d : Device} {id : Nat} :
    d.isCompleted id = false ↔ ∃ w ∈ d.inflight, w.id = id := by
  simp [Device.isCompleted]

theorem isCompleted_eq_true {d : Device} {id : Nat} :
    d.isCompleted id = true ↔ ∀ w ∈ d.inflight, w.id ≠ id := by
  simp [Device.isCompleted]

/-! ## the device between two evictions -/

/-- Writes complete, and commands that are waited for take ids. -/
structure Device.Settles (d d' : Device) : Prop where
  inflight : d'.inflight.map WriteCmd.id ⊆ d.inflight.map WriteCmd.id
  nextId : d.nextId ≤ d'.nextId

section Device

variable {d d' d'' : Device}

theorem Device.Settles.refl (d : Device) : d.Settles d := ⟨List.Subset.refl _, Nat.le_refl _⟩

theorem Device.Settles.trans (h : d.Settles d') (h' : d'.Settles d'') : d.Settles d'' :=
  ⟨List.Subset.trans h'.inflight h.inflight, Nat.le_trans h.nextId h'.nextId⟩

theorem Device.Settles.complete (h : d.Settles d') (k : Completion) :
    d.Settles (d'.complete k) := by
  refine ⟨List.Subset.trans ?_ h.inflight, h.nextId⟩
  exact List.map_subset _ fun w hw => (k.perm d'.inflight).subset (List.mem_append_right _ hw)

/-- The ids of the writes in flight do not depend on what is in the buffers. -/
theorem Device.map_id_fill (d : Device) (data : List UInt8) (lba : Nat) :
    (d.fill data lba).inflight.map WriteCmd.id = d.inflight.map WriteCmd.id := by
  simp only [fill, List.map_map]
  exact List.map_congr_left fun w _ => w.refill_id _ _

theorem Device.settles_fill (d : Device) (data : List UInt8) (lba : Nat) :
    d.Settles (d.fill data lba) :=
  ⟨(d.map_id_fill data lba).symm ▸ List.Subset.refl _, Nat.le_refl _⟩

theorem Device.settles_readBlocking (d : Device) (before after : Completion) (lba cnt : Nat) :
    d.Settles (d.readBlocking before after lba cnt).2 := by
  have hsubmit : d.Settles (d.submit lba cnt) := ⟨List.Subset.refl _, Nat.le_refl _⟩
  exact (hsubmit.complete before).complete after

theorem Device.settles_writeBlocking (d : Device) (before after : Completion)
    (data : List UInt8) (lba cnt : Nat) :
    d.Settles (d.writeBlocking before after data lba cnt) := by
  have hfill := d.settles_fill data lba
  have hsubmit : d.Settles ((d.fill data lba).submit lba cnt) := ⟨hfill.inflight, hfill.nextId⟩
  have hbefore := hsubmit.complete before
  unfold Device.writeBlocking
  apply Settles.complete
  exact ⟨hbefore.inflight, Nat.le_succ_of_le hbefore.nextId⟩

/-- What has completed stays so. -/
theorem Device.Settles.isCompleted (h : d.Settles d') {id : Nat} (hid : d.isCompleted id = true) :
    d'.isCompleted id = true := by
  rw [isCompleted_eq_true] at hid ⊢
  intro w hw
  obtain ⟨v, hv, heq⟩ := List.mem_map.mp (h.inflight (List.mem_map_of_mem hw))
  exact heq ▸ hid v hv

end Device

theorem settles_flushPages (env : Env) (c : Controller) (dev : Device) (pages : List Nat) :
    dev.Settles (pages.foldl (c.flushPage env) dev) := by
  induction pages generalizing dev with
  | nil => exact .refl dev
  | cons pg pages ih => exact (dev.settles_writeBlocking _ _ _ _ _).trans (ih _)

/-! ## which page an action evicts -/

namespace Controller

/-- The page a fault at an offset evicts, if it comes to that and the device
accepts the write. -/
def evictsAt (env : Env) (c : Controller) (off : Nat) : Option Nat :=
  if c.accessible (off / pageSize) = false ∧ off < c.shmPgCnt * pageSize ∧
      c.usedPages = c.maxActivePgCnt then
    (targetPageIdx env c.mappedPages).filter env.accept
  else none

/-- The page an action evicts. -/
def evicts (c : Controller) : Op × Env → Option Nat
  | (.read off, env) | (.write off _, env) => c.evictsAt env off
  | (.flushCache, _) | (.resizeCache _, _) => none

/-- The queue and the device after an action that evicts the page, or none. -/
def QueueAfter (env : Env) (c c' : Controller) : Option Nat → Prop
  | none => c'.ubdWrCq = c.ubdWrCq ∧ c.dev.Settles c'.dev
  | some target => c'.ubdWrCq = (c.evicted env target).ubdWrCq ∧
      (c.evicted env target).dev.Settles c'.dev

theorem queueAfter_access {env : Env} {c c' : Controller} {off : Nat}
    (h : c.access env off = some c') : c.QueueAfter env c' (c.evictsAt env off) := by
  have hload (c₁ : Controller) : c₁.dev.Settles (c₁.loaded env (off / pageSize)).dev :=
    c₁.dev.settles_readBlocking _ _ _ _
  obtain ⟨hacc, rfl⟩ | ⟨hacc, hh⟩ := access_cases h
  · have hev : c'.evictsAt env off = none := if_neg (by simp [hacc])
    rw [hev]
    exact ⟨rfl, .refl _⟩
  · rw [handler_eq] at hh
    split at hh
    case isFalse => cases hh
    case isTrue hin =>
      split at hh
      case isTrue hfull =>
        obtain ⟨target, ht, rfl⟩ := Option.map_eq_some_iff.mp hh
        have hev : c.evictsAt env off = (targetPageIdx env c.mappedPages).filter env.accept :=
          if_pos ⟨hacc, hin.1, hfull⟩
        rw [hev, ht, Option.filter_some]
        cases hok : env.accept target with
        | true => exact ⟨rfl, hload (c.evicted env target)⟩
        | false =>
            exact ⟨rfl, (c.dev.settles_fill _ _).trans (hload (c.refused target))⟩
      case isFalse hroom =>
        have hev : c.evictsAt env off = none := if_neg fun hcond => hroom hcond.2.2
        rw [Option.some.injEq] at hh
        rw [hev, ← hh]
        exact ⟨rfl, hload c⟩

theorem queueAfter_flushCache {env : Env} {c c' : Controller} {n : Nat}
    (h : ({ c with maxActivePgCnt := n } : Controller).flushCache env = some c') :
    c.QueueAfter env c' none := by
  rw [flushCache_eq h]
  exact ⟨rfl, settles_flushPages env _ c.dev _⟩

/-- **What an action does to the queue**: nothing but for an eviction; and
then, as at any time, writes may complete. -/
theorem queueAfter_step {c c' : Controller} {op : Op} {env : Env}
    (h : c.step (op, env) = some c') : c.QueueAfter env c' (c.evicts (op, env)) := by
  cases op with
  | read off => exact queueAfter_access h
  | write off b =>
      obtain ⟨c₁, hc₁, rfl⟩ := Option.map_eq_some_iff.mp h
      have hafter := queueAfter_access hc₁
      rw [evicts]
      cases hev : c.evictsAt env off with
      | none => rwa [hev] at hafter
      | some target => rwa [hev] at hafter
  | flushCache => exact queueAfter_flushCache (n := c.maxActivePgCnt) h
  | resizeCache n =>
      simp only [step, resizeCache] at h
      split at h
      · exact queueAfter_flushCache h
      · rw [← Option.some.inj h]
        exact ⟨rfl, .refl _⟩

end Controller

/-! ## the ledger -/

/-- The writes of evicted pages: those issued, in order, and those whose
sequence was freed. -/
structure Ledger where
  issued : List Nat
  freed : List Nat

namespace Ledger

/-- With the queue of the controller the ledger makes a pool. -/
def pool (l : Ledger) (c : Controller) : Pool Nat := ⟨l.issued, c.ubdWrCq, l.freed⟩

/-- The ledger after a page was evicted. -/
def evicted (env : Env) (c : Controller) (target : Nat) (l : Ledger) : Ledger :=
  let dev := c.dev.write env.poll (c.page target) (target * 8) 8
  ⟨l.issued ++ [c.dev.nextId], l.freed ++ (reapLoop dev (c.ubdWrCq ++ [c.dev.nextId])).2⟩

/-- One action, with the ledger kept next to it. -/
def step (s : Controller × Ledger) (a : Op × Env) : Option (Controller × Ledger) :=
  (s.1.step a).map fun c' => (c', match s.1.evicts a with
    | some target => s.2.evicted a.2 s.1 target
    | none => s.2)

/-- The ledger does not interfere. -/
theorem run_fst (s : Controller × Ledger) (as : List (Op × Env)) :
    (Run.run step s as).map Prod.fst = Run.run Controller.step s.1 as := by
  induction as generalizing s with
  | nil => rfl
  | cons a as ih =>
      rw [Run.run_cons, Run.run_cons, step]
      cases s.1.step a with
      | none => rfl
      | some c' => exact ih _

end Ledger

/-- **An eviction is a turn of the pool**: the write is issued, and the queue
is swept from index 1 on. -/
theorem pool_evicted (env : Env) (c : Controller) (target : Nat) (l : Ledger) :
    (l.evicted env c target).pool (c.evicted env target) =
      (l.pool c).turn (c.evicted env target).dev.isCompleted 1 c.dev.nextId := by
  simp only [Ledger.pool, Ledger.evicted, Pool.turn, Controller.evicted, ← reapLoop_fst]
  rfl

/-- What holds of the ledger at any time: the pool is in order and has kept its
first item, the issued ids are in use, and what was freed had completed. -/
structure LedgerInv (s : Controller × Ledger) : Prop where
  wf : (s.2.pool s.1).Wf
  pinned : (s.2.pool s.1).Pinned 1
  issued_lt : ∀ id ∈ s.2.issued, id < s.1.dev.nextId
  freed_done : ∀ id ∈ s.2.freed, s.1.dev.isCompleted id = true

section Ledger

variable {env : Env} {c c' : Controller} {l : Ledger} {target : Nat}

/-- A controller that has evicted nothing. -/
theorem LedgerInv.start (h : c.ubdWrCq = []) : LedgerInv (c, ⟨[], []⟩) := by
  refine ⟨⟨List.nodup_nil, ?_, ?_⟩, ?_, by simp, by simp⟩
  · simp [Ledger.pool, h]
  · simp [Ledger.pool, h]
  · simp [Ledger.pool, Pool.Pinned, h]

theorem LedgerInv.freed_issued (h : LedgerInv (c, l)) {id : Nat} (hid : id ∈ l.freed) :
    id ∈ l.issued := h.wf.perm.subset (List.mem_append_left _ hid)

/-- The id of the next write is a new one. -/
theorem LedgerInv.nextId_not_mem (h : LedgerInv (c, l)) : c.dev.nextId ∉ l.issued :=
  fun hmem => Nat.lt_irrefl _ (h.issued_lt _ hmem)

/-- Only the new write can be in flight in addition to those before. -/
theorem inflight_evicted {w : WriteCmd} (hw : w ∈ (c.evicted env target).dev.inflight) :
    (∃ v ∈ c.dev.inflight, v.id = w.id) ∨ w.id = c.dev.nextId := by
  have hmem := (env.poll.perm _).subset (List.mem_append_right _ hw)
  cases List.mem_append.mp hmem with
  | inl hold =>
      have hid := List.mem_map_of_mem (f := WriteCmd.id) hold
      rw [Device.map_id_fill] at hid
      exact .inl (List.mem_map.mp hid)
  | inr hnew => exact .inr (congrArg WriteCmd.id (List.mem_singleton.mp hnew))

/-- What was freed before is still complete when the loop runs. -/
theorem LedgerInv.freed_done_evicted (h : LedgerInv (c, l)) :
    ∀ id ∈ l.freed, (c.evicted env target).dev.isCompleted id = true := by
  intro id hid
  rw [isCompleted_eq_true]
  intro w hw
  cases inflight_evicted hw with
  | inl hold =>
      obtain ⟨v, hv, heq⟩ := hold
      exact heq ▸ isCompleted_eq_true.mp (h.freed_done id hid) v hv
  | inr hnew =>
      have hlt : id < c.dev.nextId := h.issued_lt id (h.freed_issued hid)
      omega

theorem LedgerInv.evicted (h : LedgerInv (c, l)) :
    LedgerInv (c.evicted env target, l.evicted env c target) where
  wf := by
    rw [pool_evicted]
    exact h.wf.turn h.nextId_not_mem (by omega)
  pinned := by
    rw [pool_evicted]
    exact h.pinned.turn (by omega)
  issued_lt := by
    intro id hid
    have hnext : (c.evicted env target).dev.nextId = c.dev.nextId + 1 := rfl
    cases List.mem_append.mp hid with
    | inl hold => exact hnext ▸ Nat.lt_succ_of_lt (h.issued_lt id hold)
    | inr hnew => rw [hnext, List.mem_singleton.mp hnew]; omega
  freed_done := by
    have hdone : ∀ id ∈ (l.pool c).freed, (c.evicted env target).dev.isCompleted id = true :=
      h.freed_done_evicted
    have hfreed := Pool.done_of_mem_freed_turn (x := c.dev.nextId) (Nat.le_add_left 1 _) hdone
    rwa [← pool_evicted] at hfreed

/-- Completions and commands that are waited for keep the invariant. -/
theorem LedgerInv.settles (h : LedgerInv (c, l)) (hqueue : c'.ubdWrCq = c.ubdWrCq)
    (hdev : c.dev.Settles c'.dev) : LedgerInv (c', l) := by
  have hpool : l.pool c' = l.pool c := by rw [Ledger.pool, hqueue, Ledger.pool]
  refine ⟨hpool ▸ h.wf, hpool ▸ h.pinned, ?_, ?_⟩
  · exact fun id hid => Nat.lt_of_lt_of_le (h.issued_lt id hid) hdev.nextId
  · exact fun id hid => hdev.isCompleted (h.freed_done id hid)

/-- **One action keeps the invariant.** -/
theorem LedgerInv.step {s s' : Controller × Ledger} (h : LedgerInv s) {a : Op × Env}
    (hs : Ledger.step s a = some s') : LedgerInv s' := by
  obtain ⟨c, l⟩ := s
  obtain ⟨op, env⟩ := a
  obtain ⟨c', hc', rfl⟩ := Option.map_eq_some_iff.mp hs
  have hafter := queueAfter_step hc'
  cases hev : c.evicts (op, env) with
  | none =>
      rw [hev] at hafter
      exact h.settles hafter.1 hafter.2
  | some target =>
      rw [hev] at hafter
      exact h.evicted.settles hafter.1 hafter.2

end Ledger

/-! ## what is reaped -/

/-- After the loop of an eviction, the queue is exactly the issued writes that
have not completed, in the order of issue, and exactly those that have were
freed, once. -/
def ReapsAll (s : Controller × Ledger) (a : Op × Env) : Prop :=
  ∀ target, s.1.evicts a = some target →
    ((s.2.evicted a.2 s.1 target).pool (s.1.evicted a.2 target)).Swept
      (s.1.evicted a.2 target).dev.isCompleted

/-- When an eviction polls the device, the oldest entry of the queue stays in
flight. -/
def OldestPending (s : Controller × Ledger) (a : Op × Env) : Prop :=
  ∀ target, s.1.evicts a = some target → ∀ id ∈ (s.1.ubdWrCq ++ [s.1.dev.nextId]).head?,
    ∃ w ∈ a.2.poll.left (s.1.dev.queue (s.1.page target) (target * 8) 8).inflight, w.id = id

/-- **When the loop reaps all.** -/
theorem LedgerInv.reapsAll_iff {s : Controller × Ledger} (h : LedgerInv s) (a : Op × Env) :
    ReapsAll s a ↔ OldestPending s a := by
  obtain ⟨c, l⟩ := s
  refine forall₂_congr fun target _ => ?_
  rw [pool_evicted, h.wf.swept_turn_iff h.nextId_not_mem (by omega) h.freed_done_evicted,
    List.take_one]
  simp only [isCompleted_eq_false, Option.mem_toList]
  exact Iff.rfl

/-- No write is freed twice, or before it has completed; what has not completed
is in the queue, in the order of issue; and the first write of all is still at
its head. -/
structure FreedSafely (c : Controller) (l : Ledger) : Prop where
  nodup : l.freed.Nodup
  freed : ∀ id ∈ l.freed, id ∈ l.issued ∧ c.dev.isCompleted id = true
  pending : ∀ id ∈ l.issued, c.dev.isCompleted id = false → id ∈ c.ubdWrCq
  order : c.ubdWrCq.Sublist l.issued
  first : c.ubdWrCq.head? = l.issued.head?

theorem LedgerInv.freedSafely {c : Controller} {l : Ledger} (h : LedgerInv (c, l)) :
    FreedSafely c l where
  nodup := (List.nodup_append.mp (h.wf.perm.nodup_iff.mpr h.wf.nodup)).1
  freed id hid := ⟨h.freed_issued hid, h.freed_done id hid⟩
  pending id hid hnot := by
    cases List.mem_append.mp (h.wf.perm.mem_iff.mpr hid) with
    | inl hfreed => simp [h.freed_done id hfreed] at hnot
    | inr hqueue => exact hqueue
  order := h.wf.order
  first := by
    have hfirst := congrArg List.head? h.pinned
    simpa [List.head?_take, Ledger.pool] using hfirst

/-- **The write completion queue**: in every run, whatever the device completes
when, writes are freed safely; and the loop of every eviction reaps all that
has completed exactly when the oldest entry of the queue has not, at any of
them. -/
theorem queue_reaped_iff (dev : Device) (maxActivePgCnt shmPgCnt : Nat) (as : List (Op × Env)) :
    (∀ c, Run.run Controller.step ((Controller.new dev).init maxActivePgCnt shmPgCnt) as = some c →
      ∃ l, Run.run Ledger.step ((Controller.new dev).init maxActivePgCnt shmPgCnt, ⟨[], []⟩) as =
        some (c, l) ∧ FreedSafely c l) ∧
    (Run.Guarded Ledger.step ReapsAll
        ((Controller.new dev).init maxActivePgCnt shmPgCnt, ⟨[], []⟩) as ↔
      Run.Guarded Ledger.step OldestPending
        ((Controller.new dev).init maxActivePgCnt shmPgCnt, ⟨[], []⟩) as) := by
  have hstart : LedgerInv ((Controller.new dev).init maxActivePgCnt shmPgCnt, ⟨[], []⟩) :=
    .start rfl
  constructor
  · intro c hrun
    rw [← Ledger.run_fst (_, ⟨[], []⟩)] at hrun
    obtain ⟨⟨c', l⟩, hl, rfl⟩ := Option.map_eq_some_iff.mp hrun
    have hinv := Run.invariant_of_run (fun s a s' h hs => h.step hs) hstart hl
    exact ⟨l, hl, hinv.freedSafely⟩
  · exact Run.guarded_congr (fun s a s' h hs => h.step hs) (fun s a h => h.reapsAll_iff a) hstart as

/-- A device that leaves a write in flight when it is submitted, and completes
it by the end of the next blocking command. -/
def Env.late : Env := { Env.plain .nothing with after := fun _ => .everything }

/-- Two evictions from a cache of one page: by the second, the first write has
completed, but it stays in the queue and is not freed. -/
theorem first_write_kept :
    (∃ c l, Run.run Ledger.step ((Controller.new .zeros).init 1 3, ⟨[], []⟩)
        [(.read 0, .late), (.read 4096, .late), (.read 8192, .late)] = some (c, l) ∧
      l.issued = [0, 1] ∧ c.dev.isCompleted 0 = true ∧ c.ubdWrCq = [0, 1] ∧ l.freed = []) ∧
    ¬ Run.Guarded Ledger.step ReapsAll ((Controller.new .zeros).init 1 3, ⟨[], []⟩)
        [(.read 0, .late), (.read 4096, .late), (.read 8192, .late)] := by
  refine ⟨⟨_, _, rfl, rfl, rfl, rfl, rfl⟩, fun hall => ?_⟩
  have hthird := (((hall.2 _ rfl).2 _ rfl).1) 1 rfl
  exact absurd hthird.queue_eq (by decide)

end Cxlbuf.Cxlfs
