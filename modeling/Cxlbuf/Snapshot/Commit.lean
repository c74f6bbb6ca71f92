import Cxlbuf.Machine.Lower
import Cxlbuf.Snapshot.Spec

/-!
# Cxlbuf.Snapshot.Commit

The order of accesses around the commit point of a log, the access that sets
its state to `EMPTY`.  Two properties of the accesses of a whole call:

* `CommitDurable`: when a log is retired, every byte the call has written to
  the backing file so far has been persisted and drained, so a power failure
  then finds all of it (`CommitDurable.backing_of_crashImage`).  The copies of
  logged ranges are; the bulk copy of the first snapshot is not, except where
  the copies after it happen to persist it.
* `OneCommitPoint`: no log is retired while another one still holds entries
  that have not been copied.  The loop retires one log after the other, so
  this needs the first iteration to copy everything (`FirstCopiesAll`).
-/

namespace Cxlbuf

open ByteMem

/-- The access retires a log. -/
def PmOp.Retires (op : PmOp) : Prop := ∃ t, op = .streamState t .empty

/-- Up to its commit point an iteration retires no log. -/
theorem not_retires_preCommitOps {cfg : Config} {addr bytes t : Nat} {p : Process} {first : Bool}
    {l : Log} {op : PmOp} (h : op ∈ preCommitOps cfg addr bytes p first t l) :
    ¬ op.Retires := by
  simp only [preCommitOps, List.mem_append] at h
  intro hret
  obtain ⟨u, rfl⟩ := hret
  rcases h with ((hact | hfirst) | hcopy) | hdrain
  · simp only [Log.activateOps, Log.flushAllOps, Log.setStateOps, List.mem_append] at hact
    grind
  · split at hfirst
    · exact not_writesArea_firstCopyOps hfirst rfl
    · simp at hfirst
  · obtain ⟨e, -, he⟩ := List.mem_flatMap.mp hcopy
    exact (copyOps_backing_only he).1 u rfl
  · simp at hdrain

theorem not_retires_postCommitOps {t : Nat} {op : PmOp} (h : op ∈ postCommitOps t) :
    ¬ op.Retires := by
  intro hret
  obtain ⟨u, rfl⟩ := hret
  simp [postCommitOps, Log.clearOps] at h

/-! ## durability of the commit -/

/-- An access of the list persists byte `a`, and a drain follows. -/
def PersistedBy (a : Nat) (ops : List PmOp) : Prop :=
  ∃ pre op post, ops = pre ++ op :: post ∧ op.PersistsBacking a ∧ PmOp.drain ∈ post

/-- Every backing byte written is persisted by the write itself or later,
and then drained. -/
def Persisted : List PmOp → Prop
  | [] => True
  | op :: ops => (∀ a, op.WritesBacking a → PersistedBy a (op :: ops)) ∧ Persisted ops

/-- Whenever a log is retired, everything written so far is persisted. -/
def CommitDurable (ops : List PmOp) : Prop :=
  ∀ pre t post, ops = pre ++ .streamState t .empty :: post → Persisted pre

theorem PersistedBy.append {a : Nat} {ops : List PmOp} (h : PersistedBy a ops)
    (ops' : List PmOp) : PersistedBy a (ops ++ ops') := by
  obtain ⟨pre, op, post, rfl, hop, hdrain⟩ := h
  exact ⟨pre, op, post ++ ops', by simp, hop, List.mem_append_left _ hdrain⟩

theorem Persisted.append {ops ops' : List PmOp} (h : Persisted ops) (h' : Persisted ops') :
    Persisted (ops ++ ops') := by
  induction ops with
  | nil => exact h'
  | cons op ops ih => exact ⟨fun a ha => (h.1 a ha).append ops', ih h.2⟩

theorem Persisted.of_append {ops ops' : List PmOp} (h : Persisted (ops ++ ops')) :
    Persisted ops' := by
  induction ops with
  | nil => exact h
  | cons op ops ih => exact ih h.2

theorem persisted_of_not_writes {ops : List PmOp} (h : ∀ op ∈ ops, ∀ a, ¬ op.WritesBacking a) :
    Persisted ops := by
  induction ops with
  | nil => trivial
  | cons op ops ih =>
      exact ⟨fun a ha => absurd ha (h op List.mem_cons_self a),
        ih fun op' hop' => h op' (List.mem_cons_of_mem _ hop')⟩

theorem CommitDurable.append {ops ops' : List PmOp} (h : CommitDurable ops)
    (hp : Persisted ops) (h' : CommitDurable ops') : CommitDurable (ops ++ ops') := by
  intro pre t post heq
  rcases List.append_eq_append_iff.mp heq with ⟨as, rfl, has⟩ | ⟨bs, hbs, hpost⟩
  · exact hp.append (h' as t post has)
  · cases bs with
    | nil =>
        rw [List.append_nil] at hbs
        rw [← hbs]
        exact hp
    | cons b bs =>
        rw [List.cons_append, List.cons.injEq] at hpost
        rw [← hpost.1] at hbs
        exact h pre t bs hbs

/-- A persisted byte is flushed and drained in the lowered accesses. -/
theorem PersistedBy.flushedDrained {a : Nat} {ops : List PmOp} (h : PersistedBy a ops) :
    Persist.FlushedDrained (lowerAll ops) (.byte .backing a) := by
  obtain ⟨pre, op, post, rfl, hop, hdrain⟩ := h
  obtain ⟨xs, s, hlower, hs⟩ := lower_of_persistsBacking hop
  refine ⟨lowerAll pre ++ xs, .flush s, lowerAll post, ?_, hs, ?_⟩
  · simp [hlower]
  · exact List.mem_flatMap.mpr ⟨.drain, hdrain, List.mem_singleton_self _⟩

/-- Every backing byte is settled when everything written is persisted. -/
theorem Persisted.settled {ops : List PmOp} (h : Persisted ops) (a : Nat) :
    Persist.Settled (lowerAll ops) (.byte .backing a) := by
  induction ops with
  | nil =>
      intro pre op post heq
      simp [lowerAll] at heq
  | cons op ops ih =>
      rw [lowerAll_cons]
      refine (ih h.2).append ?_
      intro pre u post heq hu
      have hwrites : op.WritesBacking a := by
        cases u with
        | update c f =>
            obtain rfl : c = .byte .backing a := hu
            exact (update_backing_of_mem_lower (f := f) (by rw [heq]; simp)).1
        | flush s => exact absurd hu id
        | drain => exact absurd hu id
      obtain ⟨pre', op', post', hsplit, hop', hdrain⟩ := h.1 a hwrites
      cases pre' with
      | cons x pre' =>
          -- a later access persists the byte
          rw [List.cons_append, List.cons.injEq] at hsplit
          exact (PersistedBy.flushedDrained
            ⟨pre', op', post', hsplit.2, hop', hdrain⟩).append_left _
      | nil =>
          -- a streaming write persists its own bytes: its flush comes last
          rw [List.nil_append, List.cons.injEq] at hsplit
          obtain ⟨rfl, rfl⟩ := hsplit
          obtain ⟨xs, s, hlower, hs⟩ := lower_of_persistsBacking hop'
          refine Persist.flushedDrained_of_final_flush (hlower.symm.trans heq) hu hs ?_
          exact List.mem_flatMap.mpr ⟨.drain, hdrain, List.mem_singleton_self _⟩

/-- **What a durable commit is for**: a power failure at a commit point finds
in the backing file everything the call has written to it. -/
theorem CommitDurable.backing_of_crashImage {ops pre post : List PmOp} {t : Nat}
    (h : CommitDurable ops) (hops : ops = pre ++ .streamState t .empty :: post) {m : PmImage}
    {v : (c : Cell) → CellVal c} (hv : Persist.CrashImage m.cells (lowerAll pre) v) :
    (PmImage.ofCells v).backing = (execOps m pre).backing := by
  funext a
  have hbyte := hv.eq_exec_of_settled ((h pre t post hops).settled a)
  rw [exec_lowerAll] at hbyte
  exact hbyte

/-- A list with one retiring access splits at such an access in one way. -/
theorem pre_eq_of_split {xs ys pre post : List PmOp} {x y : PmOp}
    (hxs : ∀ op ∈ xs, ¬ op.Retires) (hys : ∀ op ∈ ys, ¬ op.Retires) (hy : y.Retires)
    (h : xs ++ x :: ys = pre ++ y :: post) : pre = xs := by
  rcases List.append_eq_append_iff.mp h with ⟨as, rfl, has⟩ | ⟨bs, hbs, hpost⟩
  · cases as with
    | nil => exact List.append_nil xs
    | cons b as =>
        rw [List.cons_append, List.cons.injEq] at has
        exact absurd hy (hys y (by rw [has.2]; simp))
  · cases bs with
    | nil => rw [hbs, List.append_nil]
    | cons b bs =>
        rw [List.cons_append, List.cons.injEq] at hpost
        exact absurd hy (hxs y (by rw [hbs, hpost.1]; simp))

/-- A persisting access before a final drain. -/
theorem persistedBy_concat {a : Nat} {ops : List PmOp} {op : PmOp} (h : op ∈ ops)
    (hop : op.PersistsBacking a) : PersistedBy a (ops ++ [PmOp.drain]) := by
  obtain ⟨pre, post, rfl⟩ := List.append_of_mem h
  exact ⟨pre, op, post ++ [.drain], by simp, hop, by simp⟩

/-- The copies of entries are persisted by the drain that follows them. -/
theorem persisted_copies (cfg : Config) (mem : Mem) (es : List LogEntryLean) :
    Persisted (es.flatMap (copyOps cfg mem) ++ [PmOp.drain]) := by
  induction es with
  | nil => exact ⟨fun a ha => absurd ha id, trivial⟩
  | cons e es ih =>
      rw [List.flatMap_cons, List.append_assoc]
      unfold copyOps
      by_cases hs : Streams cfg e
      · rw [if_pos hs]
        refine ⟨fun a ha => ?_, ih⟩
        exact persistedBy_concat (List.mem_cons_self) ha
      · rw [if_neg hs]
        refine ⟨fun a ha => ?_, fun a ha => absurd ha id, ih⟩
        have hfl : (PmOp.flush (copyArgs cfg e).dst (copyArgs cfg e).size).PersistsBacking a := by
          simp only [PmOp.WritesBacking, length_slice] at ha
          exact flushesLine_of_mem ha
        exact persistedBy_concat (List.mem_cons_of_mem _ List.mem_cons_self) hfl

/-- What an entry's copy makes durable at the next drain: a streaming write
its own bytes, a copy that is flushed all lines it meets. -/
def CopyPersists (cfg : Config) (e : LogEntryLean) (y : Nat) : Prop :=
  if Streams cfg e then InWindow cfg e y
  else PmOp.FlushesLine (copyArgs cfg e).dst (copyArgs cfg e).size (y / 64)

instance (cfg : Config) (e : LogEntryLean) (y : Nat) : Decidable (CopyPersists cfg e y) := by
  unfold CopyPersists; infer_instance

/-- Every byte of the mapping that a first snapshot copies is made durable
by the copy of some entry of the first log. -/
def BulkPersisted (cfg : Config) (addr bytes : Nat) (p : Process) (l : Log) : Prop :=
  ∀ c, bulkCopy cfg p addr = some c → ∀ y, c.Writes y →
    ∃ e ∈ copied cfg addr bytes none (walked cfg l), CopyPersists cfg e y

theorem persistsBacking_copyOps {cfg : Config} {mem : Mem} {e : LogEntryLean} {y : Nat} :
    (∃ op ∈ copyOps cfg mem e, op.PersistsBacking y) ↔ CopyPersists cfg e y := by
  unfold copyOps CopyPersists
  split <;> simp [PmOp.PersistsBacking, InWindow, CopyArgs.Writes]

/-- In terms of accesses: the copies of the log persist what the bulk copy
writes. -/
theorem bulkPersisted_iff {cfg : Config} {addr bytes : Nat} {p : Process} {l : Log} :
    BulkPersisted cfg addr bytes p l ↔
      ∀ y, (∃ op ∈ firstCopyOps cfg p addr, op.WritesBacking y) →
        ∃ op ∈ logCopies cfg addr bytes p.mem l, op.PersistsBacking y := by
  have hcopies (y : Nat) : (∃ op ∈ logCopies cfg addr bytes p.mem l, op.PersistsBacking y) ↔
      ∃ e ∈ copied cfg addr bytes none (walked cfg l), CopyPersists cfg e y := by
    constructor
    · intro hex
      obtain ⟨op, hop, hper⟩ := hex
      obtain ⟨e, he, hope⟩ := List.mem_flatMap.mp hop
      exact ⟨e, he, persistsBacking_copyOps.mp ⟨op, hope, hper⟩⟩
    · intro hex
      obtain ⟨e, he, hper⟩ := hex
      obtain ⟨op, hope, hper'⟩ := persistsBacking_copyOps.mpr hper
      exact ⟨op, List.mem_flatMap.mpr ⟨e, he, hope⟩, hper'⟩
  simp only [writesBacking_firstCopyOps, hcopies]
  exact ⟨fun h y ⟨c, hc, hy⟩ => h c hc y hy, fun h c hc y hy => h y ⟨c, hc, hy⟩⟩

section Iteration

variable {cfg : Config} {addr bytes t : Nat} {p : Process} {first : Bool} {l : Log}

/-- Up to its commit point an iteration persists all it writes, if its bulk
copy is persisted by the copies after it. -/
theorem persisted_preCommitOps (h : first = true → BulkPersisted cfg addr bytes p l) :
    Persisted (preCommitOps cfg addr bytes p first t l) := by
  have hact : Persisted (l.activateOps t (p.pm.area t)) :=
    persisted_of_not_writes fun op hop =>
      PmOp.not_writesBacking_of_not_toBacking (not_toBacking_activateOps hop)
  have hcopies : Persisted (logCopies cfg addr bytes p.mem l ++ [PmOp.drain]) :=
    persisted_copies cfg p.mem _
  rw [preCommitOps, List.append_assoc, List.append_assoc]
  refine hact.append ?_
  cases first with
  | false => exact hcopies
  | true =>
      have hbulk := bulkPersisted_iff.mp (h rfl)
      cases hc : bulkCopy cfg p addr with
      | none => simpa [firstCopyOps, hc] using hcopies
      | some c =>
          simp only [firstCopyOps, hc, if_true] at hbulk ⊢
          refine ⟨fun a ha => ?_, hcopies⟩
          obtain ⟨op, hop, hper⟩ := hbulk a ⟨_, List.mem_cons_self, ha⟩
          exact persistedBy_concat (List.mem_cons_of_mem _ hop) hper

/-- Conversely, what persists a byte of the bulk copy before the commit
point is a copy of the log. -/
theorem bulkPersisted_of_persisted
    (h : Persisted (preCommitOps cfg addr bytes p true t l)) :
    BulkPersisted cfg addr bytes p l := by
  rw [bulkPersisted_iff]
  intro a hex
  cases hc : bulkCopy cfg p addr with
  | none =>
      obtain ⟨op, hop, -⟩ := hex
      simp [firstCopyOps, hc] at hop
  | some c =>
      obtain ⟨op, hop, hw⟩ := hex
      simp only [firstCopyOps, hc, List.mem_singleton] at hop
      subst hop
      simp only [preCommitOps, firstCopyOps, hc, if_true, List.append_assoc] at h
      obtain ⟨pre, fl, post, heq, hfl, -⟩ := h.of_append.1 a hw
      have hmem : fl ∈ PmOp.memcpy c.dst (slice p.mem c.src c.size) ::
          (logCopies cfg addr bytes p.mem l ++ [PmOp.drain]) := by
        have hin : fl ∈ pre ++ fl :: post := by simp
        rw [← heq] at hin
        exact hin
      simp only [List.mem_cons, List.mem_append, List.not_mem_nil, or_false] at hmem
      rcases hmem with rfl | hcopy | rfl
      · exact absurd hfl id
      · exact ⟨fl, hcopy, hfl⟩
      · exact absurd hfl id

/-- An iteration that persists all it writes up to its commit point commits
durably, and leaves nothing to persist. -/
theorem commitDurable_iterOps (h : Persisted (preCommitOps cfg addr bytes p first t l)) :
    CommitDurable (iterOps cfg addr bytes p first t l) ∧
      Persisted (iterOps cfg addr bytes p first t l) := by
  rw [iterOps_eq]
  constructor
  · intro pre u post heq
    have hpre := pre_eq_of_split (fun op hop => not_retires_preCommitOps hop)
      (fun op hop => not_retires_postCommitOps hop) ⟨u, rfl⟩ heq
    rw [hpre]
    exact h
  · exact h.append (persisted_of_not_writes fun op hop a => not_writesBacking_postCommitOps hop)

/-- **The loop over the logs commits durably** if the bulk copy does. -/
theorem commitDurable_snapshotOpsFrom {ls : List Log}
    (h : first = true → ∀ l ls', ls = l :: ls' → BulkPersisted cfg addr bytes p l) :
    CommitDurable (snapshotOpsFrom cfg addr bytes p first t ls) := by
  induction ls generalizing first t with
  | nil =>
      intro pre u post heq
      simp [snapshotOpsFrom] at heq
  | cons l ls ih =>
      have hpre : Persisted (preCommitOps cfg addr bytes p first t l) :=
        persisted_preCommitOps fun hf => h hf l ls rfl
      have hiter := commitDurable_iterOps hpre
      have hrest : CommitDurable (snapshotOpsFrom cfg addr bytes p false (t + 1) ls) :=
        ih fun hf => by cases hf
      exact hiter.1.append hiter.2 hrest

end Iteration

/-- The accesses of a call that completes. -/
theorem snapshot_accesses (cfg : Config) (addr bytes : Nat) (p : Process) :
    ∃ q, snapshot cfg addr bytes p = some q ∧
      p.accessesSince q = snapshotOps cfg addr bytes p :=
  ⟨_, snapshot_eq cfg addr bytes p, Process.accessesSince_of_trace rfl⟩

/-- A first snapshot that commits durably has persisted its bulk copy. -/
theorem bulkPersisted_of_commitDurable {cfg : Config} {addr bytes : Nat} {p : Process}
    (h : CommitDurable (snapshotOps cfg addr bytes p)) (hinst : p.storeInstEnabled = true)
    (hfirst : p.firstSnapshot = true) {l : Log} {ls : List Log} (hlogs : p.logs = l :: ls) :
    BulkPersisted cfg addr bytes p l := by
  rw [snapshotOps, if_pos hinst, hfirst, hlogs, snapshotOpsFrom, iterOps_eq,
    List.append_assoc] at h
  exact bulkPersisted_of_persisted (h _ 0 _ rfl)

/-- **When commits are durable**: a call completes, and no log is retired
before everything written to the backing file is persisted exactly when it
is not the first snapshot of the process, or the copies of the first log
persist every byte of the bulk copy. -/
theorem commitDurable_iff (cfg : Config) (addr bytes : Nat) (p : Process) :
    ∃ q, snapshot cfg addr bytes p = some q ∧ (CommitDurable (p.accessesSince q) ↔
      (p.storeInstEnabled = true → p.firstSnapshot = true → ∀ l ls, p.logs = l :: ls →
        BulkPersisted cfg addr bytes p l)) := by
  obtain ⟨q, hq, hacc⟩ := snapshot_accesses cfg addr bytes p
  refine ⟨q, hq, ?_⟩
  rw [hacc]
  constructor
  · intro hdur hinst hfirst l ls hlogs
    exact bulkPersisted_of_commitDurable hdur hinst hfirst hlogs
  · intro hcond
    rw [snapshotOps]
    by_cases hinst : p.storeInstEnabled = true
    · rw [if_pos hinst]
      exact commitDurable_snapshotOpsFrom (hcond hinst)
    · rw [if_neg hinst]
      intro pre u post heq
      simp at heq

/-- A process that has mapped a page and stored eight bytes to it, before
its first snapshot. -/
def beforeFirstSnapshot : Process :=
  Process.store .default 0
    { Process.single (fun _ => 0) (fun _ => 0) with
      firstSnapshot := true
      mappedAddr := [⟨3, 0x10000000000, 0x10000001000, "/mnt/pmem0/pool"⟩]
      fileSize := fun _ => 0x1000 }
    ⟨0x10000000000, [1, 2, 3, 4, 5, 6, 7, 8]⟩

/-- Its first snapshot retires the log while the end of the page is still
volatile. -/
theorem not_commitDurable_beforeFirstSnapshot :
    ∃ q, snapshot .default 0x10000000000 4096 beforeFirstSnapshot = some q ∧
      ¬ CommitDurable (beforeFirstSnapshot.accessesSince q) := by
  obtain ⟨q, hq, hacc⟩ := snapshot_accesses .default 0x10000000000 4096 beforeFirstSnapshot
  refine ⟨q, hq, ?_⟩
  rw [hacc]
  intro hdur
  have hbulk := bulkPersisted_of_commitDurable hdur rfl rfl rfl _ rfl 0x20000000fff (by decide)
  exact absurd hbulk (by decide)

/-! ## one commit point -/

/-- The entries a log holds: the volatile list, or the records of its area. -/
def pendingEntries (cfg : Config) (l : Log) (a : LogLayout) : List LogEntryLean :=
  match cfg.logFormat with
  | .volatile => l.entries
  | .nonVolatile => layoutEntries a

/-- Every byte of the entry's image has been written. -/
def EntryCopied (cfg : Config) (ops : List PmOp) (e : LogEntryLean) : Prop :=
  ∀ i, i < e.bytes → ∃ op ∈ ops, op.WritesBacking (dstAddr cfg e + i)

/-- At every point of the call, when a log is retired, every other log is
retired too or its entries in range have been copied. -/
def OneCommitPoint (cfg : Config) (addr bytes : Nat) (p : Process) (ops : List PmOp) : Prop :=
  ∀ pre, pre <+: ops → ∀ t u l, t ≠ u → p.logs[u]? = some l → .streamState t .empty ∈ pre →
    .streamState u .empty ∈ pre ∨ ∀ e ∈ pendingEntries cfg l (p.pm.area u),
      InRange addr bytes e → EntryCopied cfg pre e

/-- The backing byte at address `y` is written for the first log: by the
bulk copy of a first snapshot or by the copy of an entry. -/
def FirstWrites (cfg : Config) (addr bytes : Nat) (p : Process) (l₀ : Log) (y : Nat) : Prop :=
  (p.firstSnapshot = true ∧ ∃ c, bulkCopy cfg p addr = some c ∧ c.Writes y) ∨
    ∃ e ∈ copied cfg addr bytes none (walked cfg l₀), InWindow cfg e y

/-- The entries in range of all other logs lie in what is written for the
first log. -/
def FirstCopiesAll (cfg : Config) (addr bytes : Nat) (p : Process) (l₀ : Log) : Prop :=
  ∀ u l, 0 < u → p.logs[u]? = some l → ∀ e ∈ pendingEntries cfg l (p.pm.area u),
    InRange addr bytes e → ∀ i, i < e.bytes →
      FirstWrites cfg addr bytes p l₀ (dstAddr cfg e + i)

/-- The accesses up to the first commit point write just that. -/
theorem writesBacking_preCommitOps {cfg : Config} {addr bytes t y : Nat} {p : Process}
    {l₀ : Log} :
    (∃ op ∈ preCommitOps cfg addr bytes p p.firstSnapshot t l₀, op.WritesBacking y) ↔
      FirstWrites cfg addr bytes p l₀ y := by
  rw [FirstWrites, ← writesBacking_firstCopyOps]
  constructor
  · intro hex
    obtain ⟨op, hop, hw⟩ := hex
    simp only [preCommitOps, List.mem_append, List.mem_singleton] at hop
    rcases hop with ((hact | hbulk) | hcopy) | rfl
    · exact absurd hw (PmOp.not_writesBacking_of_not_toBacking (not_toBacking_activateOps hact) y)
    · cases hf : p.firstSnapshot with
      | true =>
          rw [hf, if_pos rfl] at hbulk
          exact .inl ⟨rfl, op, hbulk, hw⟩
      | false => simp [hf] at hbulk
    · obtain ⟨e, he, hope⟩ := List.mem_flatMap.mp hcopy
      exact .inr ⟨e, he, writesBacking_copyOps.mp ⟨op, hope, hw⟩⟩
    · exact absurd hw id
  · intro hfirst
    simp only [preCommitOps, List.mem_append]
    cases hfirst with
    | inl hbulk =>
        obtain ⟨hf, op, hop, hw⟩ := hbulk
        exact ⟨op, .inl (.inl (.inr (by rw [hf]; exact hop))), hw⟩
    | inr hcopy =>
        obtain ⟨e, he, hwin⟩ := hcopy
        obtain ⟨op, hope, hw⟩ := writesBacking_copyOps.mpr hwin
        exact ⟨op, .inl (.inr (List.mem_flatMap.mpr ⟨e, he, hope⟩)), hw⟩

section FirstIteration

variable {cfg : Config} {addr bytes : Nat} {p : Process} {l₀ : Log} {ls : List Log}

/-- The first log is retired after the accesses that precede its commit
point. -/
theorem prefix_snapshotOps (hinst : p.storeInstEnabled = true) (hlogs : p.logs = l₀ :: ls) :
    preCommitOps cfg addr bytes p p.firstSnapshot 0 l₀ ++ [PmOp.streamState 0 .empty] <+:
      snapshotOps cfg addr bytes p := by
  rw [snapshotOps, if_pos hinst, hlogs, snapshotOpsFrom, iterOps_eq]
  exact ⟨postCommitOps 0 ++ snapshotOpsFrom cfg addr bytes p false 1 ls, by simp⟩

/-- Right after the first log is retired, the others are not. -/
theorem firstCopiesAll_of_oneCommitPoint (hinst : p.storeInstEnabled = true)
    (hlogs : p.logs = l₀ :: ls)
    (h : OneCommitPoint cfg addr bytes p (snapshotOps cfg addr bytes p)) :
    FirstCopiesAll cfg addr bytes p l₀ := by
  intro u l hu hl e he hr i hi
  have hpoint := h _ (prefix_snapshotOps hinst hlogs) 0 u l (by omega) hl (by simp)
  cases hpoint with
  | inl hret =>
      rw [List.mem_append, List.mem_singleton, PmOp.streamState.injEq] at hret
      cases hret with
      | inl hpre => exact absurd ⟨u, rfl⟩ (not_retires_preCommitOps hpre)
      | inr heq => omega
  | inr hcopied =>
      obtain ⟨op, hop, hw⟩ := hcopied e he hr i hi
      rw [List.mem_append, List.mem_singleton] at hop
      cases hop with
      | inl hpre => exact writesBacking_preCommitOps.mp ⟨op, hpre, hw⟩
      | inr heq =>
          rw [heq] at hw
          exact absurd hw id

/-- Once any log is retired, the first iteration has made all its copies. -/
theorem prefix_of_retired (hinst : p.storeInstEnabled = true) (hlogs : p.logs = l₀ :: ls)
    {pre : List PmOp} (hpre : pre <+: snapshotOps cfg addr bytes p) {t : Nat}
    (ht : .streamState t .empty ∈ pre) :
    preCommitOps cfg addr bytes p p.firstSnapshot 0 l₀ ++ [PmOp.streamState 0 .empty] <+: pre := by
  have hfirst : preCommitOps cfg addr bytes p p.firstSnapshot 0 l₀ ++
      [PmOp.streamState 0 .empty] <+: snapshotOps cfg addr bytes p := prefix_snapshotOps hinst hlogs
  cases List.prefix_or_prefix_of_prefix hpre hfirst with
  | inr hle => exact hle
  | inl hle =>
      rw [List.prefix_concat_iff] at hle
      cases hle with
      | inl heq => exact heq ▸ List.prefix_rfl
      | inr hlt => exact absurd ⟨t, rfl⟩ (not_retires_preCommitOps (hlt.subset ht))

end FirstIteration

/-- **When a call has one commit point**: a call completes, and no log is
retired while another one holds entries in range that have not been copied
exactly when the entries in range of all other logs lie in what is written
for the first log. -/
theorem oneCommitPoint_iff (cfg : Config) (addr bytes : Nat) (p : Process) :
    ∃ q, snapshot cfg addr bytes p = some q ∧
      (OneCommitPoint cfg addr bytes p (p.accessesSince q) ↔
        (p.storeInstEnabled = true → ∀ l₀ ls, p.logs = l₀ :: ls →
          FirstCopiesAll cfg addr bytes p l₀)) := by
  obtain ⟨q, hq, hacc⟩ := snapshot_accesses cfg addr bytes p
  refine ⟨q, hq, ?_⟩
  rw [hacc]
  constructor
  · intro h hinst l₀ ls hlogs
    exact firstCopiesAll_of_oneCommitPoint hinst hlogs h
  · intro hcond pre hpre t u l htu hl ht
    by_cases hinst : p.storeInstEnabled = true
    · cases hlogs : p.logs with
      | nil => simp [hlogs] at hl
      | cons l₀ ls =>
          have hdone := prefix_of_retired hinst hlogs hpre ht
          cases u with
          | zero => exact .inl (hdone.subset (by simp))
          | succ u =>
              refine .inr fun e he hr i hi => ?_
              have hfirst := hcond hinst l₀ ls hlogs (u + 1) l (by omega) hl e he hr i hi
              obtain ⟨op, hop, hw⟩ := writesBacking_preCommitOps.mpr hfirst
              exact ⟨op, hdone.subset (List.mem_append_left _ hop), hw⟩
    · rw [snapshotOps, if_neg hinst, List.prefix_nil] at hpre
      rw [hpre] at ht
      cases ht

/-- Two threads that have each stored eight bytes, on different pages. -/
def twoThreads : Process :=
  Process.store .default 1
    (Process.store .default 0
      { Process.single (fun _ => 0) (fun _ => 0) with logs := [Log.fresh 1, Log.fresh 2] }
      ⟨0x10000000000, [1, 2, 3, 4, 5, 6, 7, 8]⟩)
    ⟨0x10000001000, [1, 2, 3, 4, 5, 6, 7, 8]⟩

/-- The first thread's log is retired before the second thread's store is
copied. -/
theorem not_oneCommitPoint_twoThreads :
    ∃ q, snapshot .default 0x10000000000 0x2000 twoThreads = some q ∧
      ¬ OneCommitPoint .default 0x10000000000 0x2000 twoThreads
        (twoThreads.accessesSince q) := by
  obtain ⟨q, hq, hacc⟩ := snapshot_accesses .default 0x10000000000 0x2000 twoThreads
  refine ⟨q, hq, ?_⟩
  rw [hacc]
  intro hpoint
  have hall := firstCopiesAll_of_oneCommitPoint rfl rfl hpoint 1 _ (by decide) rfl
    ⟨0x10000001000, 8⟩ (by decide) (by decide) 0 (by decide)
  cases hall with
  | inl hbulk => exact absurd hbulk.1 (by decide)
  | inr hcopy => exact absurd hcopy (by decide)

end Cxlbuf
