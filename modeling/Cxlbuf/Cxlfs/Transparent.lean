import Cxlbuf.Cxlfs.Accounting
import Cxlbuf.Lib.WriteBack

/-!
# Cxlbuf.Cxlfs.Transparent

The page cache is transparent if the device executes commands in the order of
their submission.  The bytes of mapped pages in memory are the front of a
write-back cache, and the blocks at eight times the page number its back
(`Controller.cache`).  Evicting or flushing pages and loading one are its
operations, which keep its view; so an action changes the view only by what
it writes, and a read returns what an array would.

The blocks of a page are those that the device has once the writes in flight
are done (`Device.settled`).
-/

namespace Cxlbuf.Cxlfs

open ByteMem WriteBack Controller

/-- The device executes commands in order, and reports success: a blocking
command finds the writes before it done. -/
structure Env.InOrder (env : Env) : Prop where
  accept : ∀ pg, env.accept pg = true
  poll : env.poll.InOrder
  before : ∀ pg, (env.before pg).InOrder
  before_all : ∀ pg, (env.before pg).All
  after : ∀ pg, (env.after pg).InOrder

/-- The bytes of a page. -/
def pageBytes (pg : Nat) : Set Nat := {off | off / pageSize = pg}

theorem mem_pageBytes {pg off : Nat} : off ∈ pageBytes pg ↔ off / pageSize = pg := Iff.rfl

/-- The byte on the device at an offset of the region. -/
def Device.byteAt (d : Device) (m : Media) (off : Nat) : UInt8 :=
  m (d.tgtNs (off / pageSize * 8)) off

/-- The region and the device as a write-back cache. -/
def Controller.cache (c : Controller) : Cache Nat UInt8 where
  front off := if off / pageSize ∈ c.mappedPages then some (c.mem off) else none
  back := c.dev.byteAt c.dev.settled

/-- What the application asks for is within the region. -/
def Op.Valid (shmPgCnt : Nat) : Op → Prop
  | .read off => off < shmPgCnt * pageSize
  | .write off _ => off < shmPgCnt * pageSize
  | .flushCache => True
  | .resizeCache pgCnt => 1 ≤ pgCnt

/-- What an action does to an array. -/
def flatStep (m : Mem) : Op → Mem
  | .write off b => Function.update m off b
  | _ => m

/-- An array after some actions. -/
def flat (m : Mem) (ops : List Op) : Mem := ops.foldl flatStep m

/-! ## a device that keeps the order is idle between actions -/

theorem Completion.left_nil (k : Completion) : k.left [] = [] :=
  (List.append_eq_nil_iff.mp (k.perm []).eq_nil).2

section Idle

variable {env : Env} {c c' : Controller} {pg : Nat}

/-- A blocking command leaves nothing in flight. -/
theorem idle_loaded (henv : env.InOrder) : (c.loaded env pg).dev.inflight = [] := by
  simp only [Controller.loaded, Device.readBlocking, Device.complete, henv.before_all pg _,
    Completion.left_nil]

theorem idle_flushPage (henv : env.InOrder) (d : Device) :
    (c.flushPage env d pg).inflight = [] := by
  simp only [flushPage, Device.writeBlocking, Device.complete, henv.before_all pg _,
    Completion.left_nil]

theorem idle_flushPages (henv : env.InOrder) {d : Device} (h : d.inflight = [])
    (pgs : List Nat) : (pgs.foldl (c.flushPage env) d).inflight = [] := by
  induction pgs generalizing d with
  | nil => exact h
  | cons pg pgs ih => exact ih (idle_flushPage henv d)

/-- **One action** leaves nothing in flight. -/
theorem idle_step {a : Op × Env} (henv : a.2.InOrder) (h : c.dev.inflight = [])
    (hc : c.step a = some c') : c'.dev.inflight = [] := by
  obtain ⟨op, env⟩ := a
  refine step_rule (I := fun c => c.dev.inflight = []) h hc ?_ (fun _ _ h₁ => h₁) ?_
    (fun _ _ _ => h)
  · intro off c₁ _ _ hh
    obtain ⟨-, ⟨-, rfl⟩ | ⟨-, target, -, -, rfl⟩⟩ := handler_cases hh
    · exact idle_loaded henv
    · exact idle_loaded henv
  · intro n c₁ _ hf
    rw [flushCache_eq hf]
    exact idle_flushPages henv h _

end Idle

/-! ## the operations of the cache -/

/-- The first block of a page is at the offset of the page. -/
theorem lba_mul (pg : Nat) : pg * 8 * 512 = pg * pageSize := by
  rw [Nat.mul_assoc]
  rfl

theorem page_iff {off pg : Nat} :
    pg * pageSize ≤ off ∧ off < pg * pageSize + pageSize ↔ off / pageSize = pg := by
  unfold pageSize
  omega

/-- Memory after a page was copied in, and the blocks after it was written:
both writes are to the bytes of the page. -/
theorem write_page (m src : Mem) (pg off : Nat) :
    write m (pg * pageSize) (slice src (pg * pageSize) pageSize) off =
      if off / pageSize = pg then src off else m off := by
  simp only [write_slice, page_iff]
  split
  · rename_i hoff
    have hle := (page_iff.mpr hoff).1
    rw [Nat.add_sub_cancel' hle]
  · rfl

/-- The write of a page changes the blocks of that page only. -/
theorem byteAt_apply (d : Device) (m : Media) (mem : Mem) (pg off : Nat) :
    d.byteAt ((d.writeCmd (slice mem (pg * pageSize) pageSize) (pg * 8)).apply m) off =
      if off / pageSize = pg then mem off else d.byteAt m off := by
  simp only [Device.byteAt, Device.writeCmd, WriteCmd.apply, lba_mul]
  by_cases hns : d.tgtNs (off / pageSize * 8) = d.tgtNs (pg * 8)
  · rw [hns, Function.update_self, write_page]
  · rw [Function.update_of_ne hns, if_neg]
    exact fun hpg => hns (by rw [hpg])

section Cache

variable {env : Env} {c c' : Controller} {pg : Nat}

theorem cache_front_of_mem {off : Nat} (h : off / pageSize ∈ c.mappedPages) :
    c.cache.front off = some (c.mem off) := if_pos h

theorem cache_front_of_not_mem {off : Nat} (h : off / pageSize ∉ c.mappedPages) :
    c.cache.front off = none := if_neg h

/-- A mapped byte is seen in memory. -/
theorem view_of_mem {off : Nat} (h : off / pageSize ∈ c.mappedPages) :
    c.cache.view off = c.mem off := Cache.view_of_some (cache_front_of_mem h)

/-- `evict_a_page` writes a page back and drops it, if the write ends on top of
those before it. -/
theorem evicts_of_settled (hset : (c.evicted env pg).dev.settled =
      (c.dev.writeCmd (c.page pg) (pg * 8)).apply c.dev.settled) (hnd : c.mappedPages.Nodup)
    (hpg : pg ∈ c.mappedPages) : Evicts (pageBytes pg) c.cache (c.evicted env pg).cache := by
  have hback (off : Nat) : (c.evicted env pg).cache.back off =
      if off / pageSize = pg then c.mem off else c.cache.back off := by
    show c.dev.byteAt (c.evicted env pg).dev.settled off = _
    rw [hset]
    exact byteAt_apply c.dev c.dev.settled c.mem pg off
  have hmapped (off : Nat) : off / pageSize ∈ (c.evicted env pg).mappedPages ↔
      off / pageSize ≠ pg ∧ off / pageSize ∈ c.mappedPages := hnd.mem_erase_iff
  constructor <;> intro off hoff <;> rw [mem_pageBytes] at hoff
  · exact cache_front_of_not_mem fun hmem => ((hmapped off).mp hmem).1 hoff
  · rw [hback, if_pos hoff, view_of_mem (by rw [hoff]; exact hpg)]
  · simp only [Controller.cache, hmapped, ne_eq, hoff, not_false_eq_true, true_and]
    rfl
  · rw [hback, if_neg hoff]

theorem evicts_evicted (henv : env.InOrder) (hidle : c.dev.inflight = [])
    (hnd : c.mappedPages.Nodup) (hpg : pg ∈ c.mappedPages) :
    Evicts (pageBytes pg) c.cache (c.evicted env pg).cache :=
  evicts_of_settled (write_settled henv.poll (Device.unshared_of_idle hidle _ _)) hnd hpg

/-- A fault brings a page in, if it is read as it ends on the device. -/
theorem fills_of_settled
    (hread : (c.dev.readBlocking (env.before pg) (env.after pg) (pg * 8) 8).1 =
      slice (c.dev.settled (c.dev.tgtNs (pg * 8))) (pg * 8 * 512) (8 * 512))
    (hset : (c.loaded env pg).dev.settled = c.dev.settled) (hpg : pg ∉ c.mappedPages) :
    Fills (pageBytes pg) c.cache (c.loaded env pg).cache := by
  have hmem (off : Nat) : (c.loaded env pg).mem off =
      if off / pageSize = pg then c.dev.settled (c.dev.tgtNs (pg * 8)) off else c.mem off := by
    simp only [Controller.loaded, hread, lba_mul]
    exact write_page _ _ pg off
  have hmapped (off : Nat) : off / pageSize ∈ (c.loaded env pg).mappedPages ↔
      off / pageSize = pg ∨ off / pageSize ∈ c.mappedPages := List.mem_insert_iff
  constructor
  · intro off hoff
    rw [mem_pageBytes] at hoff
    rw [cache_front_of_mem ((hmapped off).mpr (.inl hoff)), hmem, if_pos hoff,
      Cache.view_of_none (cache_front_of_not_mem (by rw [hoff]; exact hpg))]
    simp only [Controller.cache, Device.byteAt, hoff]
  · intro off hoff
    rw [mem_pageBytes] at hoff
    simp only [Controller.cache, hmapped, hmem, hoff, false_or, if_false]
  · intro off
    show c.dev.byteAt (c.loaded env pg).dev.settled off = c.dev.byteAt c.dev.settled off
    rw [hset]

theorem fills_loaded (henv : env.InOrder) (hpg : pg ∉ c.mappedPages) :
    Fills (pageBytes pg) c.cache (c.loaded env pg).cache := by
  obtain ⟨hread, hsettled⟩ := readBlocking_settled c.dev (pg * 8) 8 (henv.before pg)
    (henv.before_all pg) (henv.after pg)
  exact fills_of_settled hread hsettled hpg

/-- The loop of `flush_cache` writes the pages it is given, if in the states it
passes (`I`) each write ends on top of those before it. -/
theorem byteAt_flushPages {I : Device → Prop} {pgs : List Nat}
    (hI : ∀ d, I d → ∀ pg ∈ pgs, I (c.flushPage env d pg) ∧
      (c.flushPage env d pg).settled = (d.writeCmd (c.page pg) (pg * 8)).apply d.settled)
    {d : Device} (hd : I d) (off : Nat) :
    (pgs.foldl (c.flushPage env) d).byteAt (pgs.foldl (c.flushPage env) d).settled off =
      if off / pageSize ∈ pgs then c.mem off else d.byteAt d.settled off := by
  induction pgs generalizing d with
  | nil => simp
  | cons pg pgs ih =>
      obtain ⟨hd', hset⟩ := hI d hd pg List.mem_cons_self
      have hpg : (c.flushPage env d pg).byteAt (c.flushPage env d pg).settled off =
          if off / pageSize = pg then c.mem off else d.byteAt d.settled off := by
        show d.byteAt (c.flushPage env d pg).settled off = _
        rw [hset]
        exact byteAt_apply d d.settled c.mem pg off
      rw [List.foldl_cons, ih (fun d hd q hq => hI d hd q (List.mem_cons_of_mem _ hq)) hd', hpg]
      -- Where a page occurs again, the same content is written again.
      by_cases hin : off / pageSize ∈ pgs <;> by_cases heq : off / pageSize = pg <;>
        simp [hin, heq]

/-- `flush_cache` then writes all mapped pages back and drops them. -/
theorem evicts_of_flushPages {I : Device → Prop}
    (hI : ∀ d, I d → ∀ pg ∈ env.order c.mappedPages, I (c.flushPage env d pg) ∧
      (c.flushPage env d pg).settled = (d.writeCmd (c.page pg) (pg * 8)).apply d.settled)
    (hd : I c.dev) (hc : c.flushCache env = some c') :
    Evicts {off | off / pageSize ∈ c.mappedPages} c.cache c'.cache := by
  have hback (off : Nat) : c'.cache.back off =
      if off / pageSize ∈ c.mappedPages then c.mem off else c.cache.back off := by
    rw [flushCache_eq hc]
    refine (byteAt_flushPages hI hd off).trans ?_
    simp only [(env.perm c.mappedPages).mem_iff]
    rfl
  have hfront (off : Nat) : c'.cache.front off = none := by
    rw [flushCache_eq hc]
    exact cache_front_of_not_mem (by simp [Controller.init])
  constructor <;> intro off hoff <;> rw [Set.mem_ofPred_eq] at hoff
  · exact hfront off
  · rw [hback, if_pos hoff, view_of_mem hoff]
  · rw [hfront, cache_front_of_not_mem hoff]
  · rw [hback, if_neg hoff]

theorem evicts_flushCache (henv : env.InOrder) (hidle : c.dev.inflight = [])
    (hc : c.flushCache env = some c') :
    Evicts {off | off / pageSize ∈ c.mappedPages} c.cache c'.cache := by
  refine evicts_of_flushPages (I := fun d => d.inflight = []) (fun d hd pg _ => ?_) hidle hc
  exact ⟨idle_flushPage henv d, writeBlocking_settled (henv.before pg) (henv.before_all pg)
    (henv.after pg) (Device.unshared_of_idle hd _ _)⟩

/-- A write to a mapped page is a write to the cache. -/
theorem writes_update {off : Nat} (hoff : off / pageSize ∈ c.mappedPages) (b : UInt8) :
    Writes off b c.cache ({ c with mem := Function.update c.mem off b } : Controller).cache where
  front x := by
    by_cases hx : x = off
    · subst hx
      simp [Controller.cache, hoff]
    · simp [Controller.cache, hx]
  back _ := rfl

/-- A fault keeps the view, and afterwards the page is mapped. -/
theorem view_handler (henv : env.InOrder) (hidle : c.dev.inflight = []) (h : Accounted c)
    {off : Nat}
    (hno : c.accessible (off / pageSize) = false) (hc : c.handler env off = some c') :
    c'.cache.view = c.cache.view ∧ off / pageSize ∈ c'.mappedPages := by
  have hun := h.not_mem hno
  obtain ⟨-, ⟨-, rfl⟩ | ⟨-, target, -, ht, rfl⟩⟩ := handler_cases hc
  · exact ⟨(fills_loaded henv hun).view_eq, List.mem_insert_self⟩
  · rw [if_pos (henv.accept target)]
    have hun' : off / pageSize ∉ (c.evicted env target).mappedPages :=
      fun hmem => hun (List.mem_of_mem_erase hmem)
    exact ⟨(fills_loaded henv hun').view_eq.trans (evicts_evicted henv hidle h.nodup ht).view_eq,
      List.mem_insert_self⟩

/-- An access in the region completes and keeps the view, and afterwards the
page is mapped. -/
theorem exists_access (henv : env.InOrder) (hidle : c.dev.inflight = []) (h : Accounted c)
    {off : Nat} (hoff : off < c.shmPgCnt * pageSize) :
    ∃ c', c.access env off = some c' ∧ c'.cache.view = c.cache.view ∧
      off / pageSize ∈ c'.mappedPages := by
  cases hacc : c.accessible (off / pageSize) with
  | true => exact ⟨c, if_pos hacc, rfl, (h.accessible_iff _).mp hacc⟩
  | false =>
      obtain ⟨c', hc'⟩ := h.exists_handler env hoff hacc
      exact ⟨c', by simpa [access, hacc] using hc', view_handler henv hidle h hacc hc'⟩

theorem exists_flushCache (henv : env.InOrder) (hidle : c.dev.inflight = [])
    (hshm : c.shmPgCnt ≠ 0) :
    ∃ c', c.flushCache env = some c' ∧ c'.cache.view = c.cache.view := by
  have hall : (env.order c.mappedPages).all env.accept := by
    simpa using fun pg _ => henv.accept pg
  obtain ⟨c', hc⟩ : ∃ c', c.flushCache env = some c' := by
    rw [flushCache, if_neg hshm, if_pos hall]
    exact ⟨_, rfl⟩
  exact ⟨c', hc, (evicts_flushCache henv hidle hc).view_eq⟩

/-- **One action** completes and changes the view as it changes an array. -/
theorem exists_step (henv : env.InOrder) (hidle : c.dev.inflight = []) (h : Accounted c)
    {op : Op} (hop : op.Valid c.shmPgCnt) (hshm : c.shmPgCnt ≠ 0) :
    ∃ c', c.step (op, env) = some c' ∧ c'.cache.view = flatStep c.cache.view op := by
  cases op with
  | read off =>
      obtain ⟨c', hc', hview, -⟩ := exists_access henv hidle h hop
      exact ⟨c', hc', hview⟩
  | write off b =>
      obtain ⟨c', hc', hview, hmem⟩ := exists_access henv hidle h hop
      refine ⟨_, Option.map_eq_some_iff.mpr ⟨c', hc', rfl⟩, ?_⟩
      rw [(writes_update hmem b).view_eq, hview]
      rfl
  | flushCache => exact exists_flushCache henv hidle hshm
  | resizeCache n =>
      simp only [step, resizeCache]
      split
      · exact exists_flushCache henv hidle hshm
      · exact ⟨_, rfl, rfl⟩

end Cache

/-! ## runs -/

/-- The controller of a region of the given size stands for an array. -/
structure Simulates (shmPgCnt : Nat) (c : Controller) (m : Mem) : Prop where
  accounted : Accounted c
  shmPgCnt_eq : c.shmPgCnt = shmPgCnt
  view_eq : c.cache.view = m

theorem Simulates.init (dev : Device) (hidle : dev.inflight = []) {maxActivePgCnt : Nat}
    (hmax : 1 ≤ maxActivePgCnt) (shmPgCnt : Nat) :
    Simulates shmPgCnt ((Controller.new dev).init maxActivePgCnt shmPgCnt)
      (dev.byteAt dev.media) where
  accounted := .init _ rfl hmax shmPgCnt
  shmPgCnt_eq := rfl
  view_eq := by
    funext x
    rw [Cache.view_of_none (cache_front_of_not_mem List.not_mem_nil)]
    show dev.byteAt dev.settled x = _
    rw [Device.settled, hidle]
    rfl

theorem Simulates.step {shmPgCnt : Nat} (hshm : shmPgCnt ≠ 0) {c : Controller} {m : Mem}
    {a : Op × Env} (h : Simulates shmPgCnt c m) (hidle : c.dev.inflight = [])
    (ha : a.1.Valid shmPgCnt ∧ a.2.InOrder) :
    ∃ c', c.step a = some c' ∧ Simulates shmPgCnt c' (flatStep m a.1) ∧
      c'.dev.inflight = [] := by
  obtain ⟨op, env⟩ := a
  obtain ⟨hop, henv⟩ := ha
  obtain ⟨hacc, rfl, rfl⟩ := h
  obtain ⟨c', hc', hview⟩ := exists_step henv hidle hacc hop hshm
  have haccepted : Accepted (op, env) := by
    refine ⟨henv.accept, ?_⟩
    rintro n rfl
    exact hop
  exact ⟨c', hc', ⟨hacc.step haccepted hc', shmPgCnt_step hc', hview⟩, idle_step henv hidle hc'⟩

theorem Env.plain_everything_inOrder : (Env.plain .everything).InOrder where
  accept _ := rfl
  poll _ := List.append_nil _
  before _ _ := List.append_nil _
  before_all _ _ := rfl
  after _ _ := List.append_nil _

end Cxlbuf.Cxlfs
