import Cxlbuf.Cxlfs.Hazard

/-!
# Cxlbuf.Cxlfs.AnyOrder

The page cache on a device that completes writes in any order.  As long as no
page is faulted in while its write-back is in flight, the writes in flight are
for different pages (`Hazardless`), so they commute (`apply_comm`), and their
order does not change where they end (`Device.Clear.settled_complete`).  If
also no page is written back through a controller memory buffer that a write in
flight is in (`OwnBuffer`), the cache is as transparent as on a device that
keeps the order.

`flush_cache` leaves no page mapped.  Once the device is idle after it, the
media hold the array, and the next controller starts from it.
-/

namespace Cxlbuf.Cxlfs

open ByteMem WriteBack Controller

/-! ## writes of different pages -/

/-- What the write of a page does to a byte. -/
theorem WriteCmd.IsFor.apply_eq {w : WriteCmd} {q : Nat} (hw : w.IsFor q) (m : Media)
    (ns x : Nat) : w.apply m ns x =
      if ns = w.ns ∧ x / pageSize = q then w.data.getD (x - q * pageSize) 0 else m ns x := by
  obtain ⟨hlba, hlen⟩ := hw
  by_cases hns : ns = w.ns
  · subst hns
    simp only [WriteCmd.apply, Function.update_self, write, hlba, lba_mul, hlen, page_iff, true_and]
  · simp [WriteCmd.apply, hns]

/-- Writes of different pages commute. -/
theorem apply_comm {w w' : WriteCmd} {q q' : Nat} (hw : w.IsFor q) (hw' : w'.IsFor q')
    (hne : q ≠ q') (m : Media) : w'.apply (w.apply m) = w.apply (w'.apply m) := by
  funext ns x
  simp only [hw.apply_eq, hw'.apply_eq]
  by_cases hq : ns = w.ns ∧ x / pageSize = q
  · have hq' : ¬ (ns = w'.ns ∧ x / pageSize = q') := fun h => hne (hq.2.symm.trans h.2)
    simp only [if_pos hq, if_neg hq']
  · simp only [if_neg hq]

/-- So any number of them does. -/
theorem applyAll_perm {ws ws' : List WriteCmd} (hperm : ws.Perm ws')
    (hfor : ∀ w ∈ ws, ∃ q, w.IsFor q) (hnd : (ws.map WriteCmd.lba).Nodup) (m : Media) :
    applyAll m ws = applyAll m ws' := by
  refine hperm.foldl_eq' ?_ m
  intro w hw w' hw' m'
  obtain ⟨q, hq⟩ := hfor w hw
  obtain ⟨q', hq'⟩ := hfor w' hw'
  by_cases heq : w = w'
  · rw [heq]
  · refine apply_comm hq hq' ?_ m'
    rintro rfl
    exact heq (List.inj_on_of_nodup_map hnd hw hw' (hq.1.trans hq'.1.symm))

section Device

variable {P : Nat → Prop} {d : Device} {pg : Nat} {data : List UInt8}

/-- **Whatever completes, and in whatever order**, the writes end the same. -/
theorem Device.Clear.settled_complete (h : d.Clear P) (k : Completion) :
    (d.complete k).settled = d.settled := by
  rw [Device.settled, Device.complete, ← applyAll_append]
  refine (applyAll_perm (k.perm d.inflight).symm ?_ h.nodup d.media).symm
  intro w hw
  obtain ⟨q, -, hq⟩ := h.inflight w hw
  exact ⟨q, hq⟩

/-- A device that has completed all writes. -/
theorem Device.Clear.media_of_all (h : d.Clear P) {k : Completion} (hall : k.All) :
    (d.complete k).media = d.settled := by
  have hnone : (d.complete k).inflight = [] := hall d.inflight
  rw [← h.settled_complete k, Device.settled, hnone]
  rfl

theorem Device.Clear.settled_readBlocking (h : d.Clear P) (hpg : ¬ P pg)
    (before after : Completion) :
    (d.readBlocking before after (pg * 8) 8).2.settled = d.settled := by
  have hbefore := (h.submit hpg).complete before
  exact (hbefore.settled_complete after).trans ((h.submit hpg).settled_complete before)

/-- A page that no write in flight is for is read as it ends. -/
theorem Device.Clear.readBlocking_eq (h : d.Clear P) (hpg : ¬ P pg) (before after : Completion) :
    (d.readBlocking before after (pg * 8) 8).1 =
      slice (d.settled (d.tgtNs (pg * 8))) (pg * 8 * 512) (8 * 512) := by
  simp only [Device.readBlocking, lba_mul]
  refine slice_congr fun x hlo hhi => ?_
  obtain rfl : x / pageSize = pg := page_iff.mp ⟨hlo, hhi⟩
  have hread := (h.submit hpg).byteAt_complete hpg before
  exact hread.trans (h.byteAt_settled hpg).symm

/-- Completions only free buffers. -/
theorem Device.Unshared.complete {lba bytes : Nat} (h : d.Unshared lba bytes) (k : Completion) :
    (d.complete k).Unshared lba bytes :=
  fun w hw => h w ((k.perm d.inflight).subset (List.mem_append_right _ hw))

/-- So does a write that is waited for. -/
theorem Device.Unshared.writeBlocking {lba lba' bytes cnt : Nat}
    (h : d.Unshared lba data.length) (h' : d.Unshared lba' bytes) (before after : Completion) :
    (d.writeBlocking before after data lba cnt).Unshared lba' bytes := by
  rw [Device.writeBlocking, h.fill_eq]
  have hbefore : ((d.submit lba cnt).complete before).Unshared lba' bytes := h'.complete before
  exact Unshared.complete hbefore after

theorem Device.Clear.settled_write (h : d.Clear P) (hpg : ¬ P pg) (hlen : data.length = pageSize)
    (hbuf : d.Unshared (pg * 8) data.length) (k : Completion) :
    (d.write k data (pg * 8) 8).settled = (d.writeCmd data (pg * 8)).apply d.settled := by
  refine ((h.queue hpg hlen).settled_complete k).trans ?_
  rw [Device.queue, hbuf.fill_eq]
  simp [Device.settled, Device.submit, applyAll]

/-- A write that is waited for overtakes those in flight. -/
theorem Device.Clear.settled_writeBlocking (h : d.Clear P) (hpg : ¬ P pg)
    (hlen : data.length = pageSize) (hbuf : d.Unshared (pg * 8) data.length)
    (before after : Completion) :
    (d.writeBlocking before after data (pg * 8) 8).settled =
      (d.writeCmd data (pg * 8)).apply d.settled := by
  have hbefore := (h.submit hpg).complete before
  have hbuf' : ((d.submit (pg * 8) 8).complete before).Unshared (pg * 8) data.length :=
    hbuf.complete before
  have hqueue := hbefore.queue hpg hlen
  rw [Device.queue, hbuf'.fill_eq] at hqueue
  rw [Device.writeBlocking, hbuf.fill_eq]
  have hwritten : Device.Clear P { (d.submit (pg * 8) 8).complete before with
      media := (d.writeCmd data (pg * 8)).apply ((d.submit (pg * 8) 8).complete before).media
      nextId := d.nextId + 1 } := ⟨hbefore.inflight, hbefore.nodup, hbefore.safe⟩
  refine (hwritten.settled_complete after).trans ?_
  rw [← settled_submit (d := d), ← (h.submit hpg).settled_complete before]
  -- the write comes before those in flight instead of behind them
  refine (applyAll_perm (List.perm_append_singleton _ _) ?_ hqueue.nodup _).symm.trans ?_
  · intro w hw
    obtain ⟨q, -, hq⟩ := hqueue.inflight w hw
    exact ⟨q, hq⟩
  · rw [applyAll_append]
    rfl

end Device

/-! ## the controller -/

/-- The pages an action writes back. -/
def Controller.writesBack (c : Controller) : Op × Env → List Nat
  | (.read off, env) | (.write off _, env) =>
      if c.accessible (off / pageSize) = false ∧ c.usedPages = c.maxActivePgCnt then
        (targetPageIdx env c.mappedPages).toList
      else []
  | (.flushCache, _) => c.mappedPages
  | (.resizeCache pgCnt, _) => if pgCnt < c.maxActivePgCnt then c.mappedPages else []

/-- No page is written back through a controller memory buffer that a write in
flight is in. -/
def OwnBuffer (c : Controller) (a : Op × Env) : Prop :=
  ∀ pg ∈ c.writesBack a, c.dev.Unshared (pg * 8) pageSize

section Controller

variable {P : Nat → Prop} {env : Env} {c c' : Controller} {pg : Nat} {op : Op}

/-- A fault keeps the view, and afterwards the page is mapped. -/
theorem Hazardless.view_handler (h : Hazardless c) (hacc : ∀ pg, env.accept pg = true) {off : Nat}
    (hno : c.accessible (off / pageSize) = false)
    (hfree : ∀ w ∈ c.dev.inflight, w.lba ≠ off / pageSize * 8)
    (hbuf : OwnBuffer c (.read off, env)) (hc : c.handler env off = some c') :
    c'.cache.view = c.cache.view ∧ off / pageSize ∈ c'.mappedPages := by
  have hun := h.not_mem hno
  have hclear := h.clear.and_ne hfree
  have hfills {P : Nat → Prop} {c₁ : Controller} (h₁ : c₁.dev.Clear P) (hpg : ¬ P (off / pageSize))
      (hun₁ : off / pageSize ∉ c₁.mappedPages) :
      Fills (pageBytes (off / pageSize)) c₁.cache (c₁.loaded env (off / pageSize)).cache :=
    fills_of_settled (h₁.readBlocking_eq hpg _ _) (h₁.settled_readBlocking hpg _ _) hun₁
  obtain ⟨-, ⟨-, rfl⟩ | ⟨hfull, target, htgt, ht, rfl⟩⟩ := handler_cases hc
  · exact ⟨(hfills hclear (fun hP => hP.2 rfl) hun).view_eq, List.mem_insert_self⟩
  · rw [if_pos (hacc target)]
    have hne : off / pageSize ≠ target := fun heq => hun (heq ▸ ht)
    have hun' : off / pageSize ∉ (c.evicted env target).mappedPages :=
      fun hmem => hun (List.mem_of_mem_erase hmem)
    have hlen : (c.page target).length = pageSize := length_slice _ _ _
    have hown : c.dev.Unshared (target * 8) (c.page target).length := by
      rw [hlen]
      exact hbuf target (by simp [Controller.writesBack, hno, hfull, htgt])
    have hset : (c.evicted env target).dev.settled =
        (c.dev.writeCmd (c.page target) (target * 8)).apply c.dev.settled :=
      hclear.settled_write (fun hP => hP.1 ht) hlen hown env.poll
    have hfill := hfills (clear_evicted env hclear fun hP => hP.1 ht).1
      (not_or.mpr ⟨fun hP => hP.2 rfl, hne⟩) hun'
    exact ⟨hfill.view_eq.trans (evicts_of_settled hset h.nodup ht).view_eq, List.mem_insert_self⟩

/-- An access in the region completes and keeps the view. -/
theorem Hazardless.exists_access (h : Hazardless c) (hA : Accounted c)
    (hacc : ∀ pg, env.accept pg = true) {off : Nat} (hoff : off < c.shmPgCnt * pageSize)
    (hfree : c.accessible (off / pageSize) = false →
      ∀ w ∈ c.dev.inflight, w.lba ≠ off / pageSize * 8)
    (hbuf : OwnBuffer c (.read off, env)) :
    ∃ c', c.access env off = some c' ∧ c'.cache.view = c.cache.view ∧
      off / pageSize ∈ c'.mappedPages := by
  cases hin : c.accessible (off / pageSize) with
  | true => exact ⟨c, if_pos hin, rfl, (h.accessible_iff _).mp hin⟩
  | false =>
      obtain ⟨c', hc'⟩ := hA.exists_handler env hoff hin
      exact ⟨c', by simpa [access, hin] using hc', h.view_handler hacc hin (hfree hin) hbuf hc'⟩

/-- `flush_cache` keeps the view. -/
theorem view_flushCache (h : c.dev.Clear (· ∉ c.mappedPages))
    (hbuf : ∀ pg ∈ c.mappedPages, c.dev.Unshared (pg * 8) pageSize)
    (hc : c.flushCache env = some c') : c'.cache.view = c.cache.view := by
  refine (evicts_of_flushPages (I := fun d => d.Clear (· ∉ c.mappedPages) ∧
    ∀ pg ∈ c.mappedPages, d.Unshared (pg * 8) pageSize) ?_ ⟨h, hbuf⟩ hc).view_eq
  rintro d ⟨hd, hown⟩ pg hpg
  have hin : pg ∈ c.mappedPages := (env.perm _).mem_iff.mp hpg
  have hlen : (c.page pg).length = pageSize := length_slice _ _ _
  have hpgown : d.Unshared (pg * 8) (c.page pg).length := hlen ▸ hown pg hin
  refine ⟨⟨hd.writeBlocking (not_not.mpr hin) _ _ _, fun q hq => ?_⟩,
    hd.settled_writeBlocking (not_not.mpr hin) hlen hpgown _ _⟩
  exact hpgown.writeBlocking (hown q hq) _ _

/-- The application stays in the region, the device accepts writes, no page is
faulted in while its write-back is in flight, and none is written back through
a buffer that is in use. -/
def Orderless (shmPgCnt : Nat) (c : Controller) (a : Op × Env) : Prop :=
  a.1.Valid shmPgCnt ∧ (∀ pg, a.2.accept pg = true) ∧ NoWriteBack c a ∧ OwnBuffer c a

/-- **One action** completes and changes the view as it changes an array. -/
theorem Hazardless.exists_step (h : Hazardless c) (hA : Accounted c)
    (hok : Orderless c.shmPgCnt c (op, env)) (hshm : c.shmPgCnt ≠ 0) :
    ∃ c', c.step (op, env) = some c' ∧ c'.cache.view = flatStep c.cache.view op := by
  obtain ⟨hop, hacc, hfree, hbuf⟩ := hok
  have hflush (n : Nat) (hown : ∀ pg ∈ c.mappedPages, c.dev.Unshared (pg * 8) pageSize) :
      ∃ c', ({ c with maxActivePgCnt := n } : Controller).flushCache env = some c' ∧
        c'.cache.view = c.cache.view := by
    have hall : (env.order c.mappedPages).all env.accept := by simpa using fun pg _ => hacc pg
    obtain ⟨c', hc⟩ : ∃ c', ({ c with maxActivePgCnt := n } : Controller).flushCache env =
        some c' := by
      rw [Controller.flushCache, if_neg hshm, if_pos hall]
      exact ⟨_, rfl⟩
    exact ⟨c', hc, view_flushCache (c := { c with maxActivePgCnt := n }) h.clear hown hc⟩
  cases op with
  | read off =>
      obtain ⟨c', hc', hview, -⟩ := h.exists_access hA hacc hop hfree hbuf
      exact ⟨c', hc', hview⟩
  | write off b =>
      obtain ⟨c', hc', hview, hmem⟩ := h.exists_access hA hacc hop hfree hbuf
      refine ⟨_, Option.map_eq_some_iff.mpr ⟨c', hc', rfl⟩, ?_⟩
      rw [(writes_update hmem b).view_eq, hview]
      rfl
  | flushCache => exact hflush c.maxActivePgCnt hbuf
  | resizeCache n =>
      simp only [Controller.step, resizeCache]
      split
      · rename_i hlt
        exact hflush n fun pg hpg => hbuf pg (by simpa [Controller.writesBack, hlt] using hpg)
      · exact ⟨_, rfl, rfl⟩

end Controller

/-- The buffers of the controllers stay as they are. -/
theorem cmb_step {c c' : Controller} {a : Op × Env} (hc : c.step a = some c') :
    c'.dev.cmb = c.dev.cmb := by
  obtain ⟨op, env⟩ := a
  have hflush (c₁ : Controller) (pgs : List Nat) (d : Device) :
      (pgs.foldl (c₁.flushPage env) d).cmb = d.cmb := by
    induction pgs generalizing d with
    | nil => rfl
    | cons pg pgs ih => exact ih _
  refine step_rule (I := fun c' => c'.dev.cmb = c.dev.cmb) rfl hc ?_ (fun _ _ h => h) ?_
    (fun _ _ _ => rfl)
  · intro off c₁ _ _ hh
    obtain ⟨-, ⟨-, rfl⟩ | ⟨-, target, -, -, rfl⟩⟩ := handler_cases hh
    · rfl
    · split <;> rfl
  · intro n c₁ _ hf
    rw [flushCache_eq hf]
    exact hflush _ _ _

/-- A device that keeps the order is a special case. -/
theorem orderless_of_inOrder {c : Controller} (hidle : c.dev.inflight = []) {shmPgCnt : Nat}
    {as : List (Op × Env)} (has : ∀ a ∈ as, a.1.Valid shmPgCnt ∧ a.2.InOrder) :
    Run.Guarded Controller.step (Orderless shmPgCnt) c as := by
  have hstatic : Run.Guarded Controller.step
      (fun _ a => a.1.Valid shmPgCnt ∧ a.2.InOrder) c as := Run.guarded_of_mem has
  have hfree := guarded_of_inOrder hidle fun a ha => (has a ha).2
  have hown : Run.Guarded Controller.step OwnBuffer c as := by
    refine Run.guarded_of_invariant (I := fun c => c.dev.inflight = []) ?_ ?_ hidle
      fun a ha => (has a ha).2
    · exact fun c a c' h henv hc => idle_step henv h hc
    · exact fun c a h _ pg _ => Device.unshared_of_idle h _ _
  exact ((hstatic.and hfree).and hown).imp fun c a h => ⟨h.1.1.1, h.1.1.2.accept, h.1.2, h.2⟩

/-- So is a device without controller memory buffers, if no page is faulted in
while its write-back is in flight. -/
theorem orderless_of_cmb {c : Controller} (hcmb : ∀ k, c.dev.cmb k = none) {shmPgCnt : Nat}
    {as : List (Op × Env)}
    (has : ∀ a ∈ as, a.1.Valid shmPgCnt ∧ ∀ pg, a.2.accept pg = true)
    (hfree : Run.Guarded Controller.step NoWriteBack c as) :
    Run.Guarded Controller.step (Orderless shmPgCnt) c as := by
  have hstatic : Run.Guarded Controller.step
      (fun _ a => a.1.Valid shmPgCnt ∧ ∀ pg, a.2.accept pg = true) c as := Run.guarded_of_mem has
  have hown : Run.Guarded Controller.step OwnBuffer c as := by
    refine Run.guarded_of_invariant (I := fun c => ∀ k, c.dev.cmb k = none) (P := fun _ => True)
      ?_ ?_ hcmb fun _ _ => trivial
    · intro c a c' h _ hc
      rwa [cmb_step hc]
    · intro c a h _ pg _
      simp [Device.Unshared, Device.writeCmb, h]
  exact ((hstatic.and hfree).and hown).imp fun c a h => ⟨h.1.1.1, h.1.1.2, h.1.2, h.2⟩

/-! ## runs -/

/-- A controller without hazards that stands for an array. -/
structure SimulatesAny (shmPgCnt : Nat) (c : Controller) (m : Mem) : Prop
    extends Simulates shmPgCnt c m where
  hazardless : Hazardless c

theorem SimulatesAny.init (dev : Device) (hidle : dev.inflight = [])
    (hsafe : ∀ s ∈ dev.submits, s.Safe) {maxActivePgCnt : Nat} (hmax : 1 ≤ maxActivePgCnt)
    (shmPgCnt : Nat) : SimulatesAny shmPgCnt ((Controller.new dev).init maxActivePgCnt shmPgCnt)
      (dev.byteAt dev.media) where
  toSimulates := .init dev hidle hmax shmPgCnt
  hazardless := by
    refine ⟨.init _ rfl _ _, ?_, ?_, hsafe⟩ <;> simp [Controller.init, Controller.new, hidle]

theorem SimulatesAny.step {shmPgCnt : Nat} (hshm : shmPgCnt ≠ 0) {c : Controller} {m : Mem}
    {a : Op × Env} (h : SimulatesAny shmPgCnt c m) (ha : Orderless shmPgCnt c a) :
    ∃ c', c.step a = some c' ∧ SimulatesAny shmPgCnt c' (flatStep m a.1) := by
  obtain ⟨op, env⟩ := a
  obtain ⟨⟨hA, rfl, rfl⟩, hz⟩ := h
  obtain ⟨c', hc', hview⟩ := hz.exists_step hA ha hshm
  have haccepted : Accepted (op, env) := by
    refine ⟨ha.2.1, ?_⟩
    rintro n rfl
    exact ha.1
  exact ⟨c', hc', ⟨hA.step haccepted hc', shmPgCnt_step hc', hview⟩, hz.step ha.2.2.1 hc'⟩

/-- A byte of an unmapped page is on the device, once it is idle. -/
theorem SimulatesAny.byteAt_eq {shmPgCnt : Nat} {c : Controller} {m : Mem}
    (h : SimulatesAny shmPgCnt c m) {k : Completion} (hall : k.All) {off : Nat}
    (hoff : off / pageSize ∉ c.mappedPages) :
    (c.dev.complete k).byteAt (c.dev.complete k).media off = m off := by
  rw [h.hazardless.clear.media_of_all hall, ← h.view_eq,
    Cache.view_of_none (cache_front_of_not_mem hoff)]
  rfl

/-- **Whole runs.** -/
theorem exists_run_any {dev : Device} (hidle : dev.inflight = [])
    (hsafe : ∀ s ∈ dev.submits, s.Safe) {maxActivePgCnt : Nat} (hmax : 1 ≤ maxActivePgCnt)
    {shmPgCnt : Nat} (hshm : shmPgCnt ≠ 0) {as : List (Op × Env)}
    (has : Run.Guarded Controller.step (Orderless shmPgCnt)
      ((Controller.new dev).init maxActivePgCnt shmPgCnt) as) :
    ∃ c, Run.run Controller.step ((Controller.new dev).init maxActivePgCnt shmPgCnt) as = some c ∧
      SimulatesAny shmPgCnt c (flat (dev.byteAt dev.media) (as.map Prod.fst)) := by
  rw [flat, List.foldl_map]
  exact has.simulates (R := SimulatesAny shmPgCnt) (g := fun m a => flatStep m a.1)
    (fun _ _ _ h ha => h.step hshm ha) (.init dev hidle hsafe hmax shmPgCnt)

/-- **The page cache is transparent on a device that completes writes in any
order**, as long as no page is faulted in while its write-back is in flight or
written back through a controller memory buffer that a write in flight is in.
Every such run completes.  Bytes of mapped pages are then in memory as an array
would have them, and those of other pages on the device, once it has completed
the writes in flight. -/
theorem transparent_any_order (dev : Device) (hidle : dev.inflight = [])
    (hsafe : ∀ s ∈ dev.submits, s.Safe) {maxActivePgCnt : Nat} (hmax : 1 ≤ maxActivePgCnt)
    {shmPgCnt : Nat} (hshm : shmPgCnt ≠ 0) {as : List (Op × Env)}
    (has : Run.Guarded Controller.step (Orderless shmPgCnt)
      ((Controller.new dev).init maxActivePgCnt shmPgCnt) as) :
    ∃ c, Run.run Controller.step ((Controller.new dev).init maxActivePgCnt shmPgCnt) as = some c ∧
      (∀ off, off / pageSize ∈ c.mappedPages →
        c.mem off = flat (dev.byteAt dev.media) (as.map Prod.fst) off) ∧
      ∀ k : Completion, k.All → ∀ off, off / pageSize ∉ c.mappedPages →
        (c.dev.complete k).byteAt (c.dev.complete k).media off =
          flat (dev.byteAt dev.media) (as.map Prod.fst) off := by
  obtain ⟨c, hrun, hsim⟩ := exists_run_any hidle hsafe hmax hshm has
  refine ⟨c, hrun, fun off hoff => ?_, fun k hall off hoff => hsim.byteAt_eq hall hoff⟩
  rw [← hsim.view_eq, view_of_mem hoff]

/-- The last write is completed first. -/
def Completion.reversed : Completion := ⟨List.reverse, fun _ => [], fun ws => by simp⟩

/-- Two pages are written, and evicted while nothing is completed. -/
def twoPages : List (Op × Env) :=
  [(.write 0 7, .plain .nothing), (.write 4096 8, .plain .nothing), (.read 8192, .plain .nothing)]

/-- Neither the two write-backs nor a flush after them meet another write. -/
theorem twoPages_orderless : Run.Guarded Controller.step (Orderless 3)
    ((Controller.new .zeros).init 1 3) (twoPages ++ [(.flushCache, .plain .nothing)]) := by
  refine orderless_of_cmb (fun _ => rfl) ?_ ?_
  · simp [twoPages, Op.Valid, pageSize, Env.plain]
  · refine ⟨fun _ w hw => ?_, fun c hc => ?_⟩
    · cases hw
    cases hc
    refine ⟨fun _ w hw => ?_, fun c hc => ?_⟩
    · cases hw
    cases hc
    refine ⟨fun _ w hw => ?_, fun _ _ => ⟨trivial, fun _ _ => trivial⟩⟩
    obtain rfl := List.mem_singleton.mp hw
    decide

/-- The write-backs of the two pages reach the media in the other order. -/
theorem transparent_any_order_reversed :
    ∃ c, Run.run Controller.step ((Controller.new .zeros).init 1 3) twoPages = some c ∧
      (c.dev.complete .reversed).byteAt (c.dev.complete .reversed).media 0 = 7 ∧
      (c.dev.complete .reversed).byteAt (c.dev.complete .reversed).media 4096 = 8 := by
  obtain ⟨c, hrun, -, hdev⟩ := transparent_any_order .zeros rfl (by simp [Device.zeros])
    (Nat.le_refl 1) (by decide) (Run.guarded_append.mp twoPages_orderless).1
  have hmapped : c.mappedPages = [2] := by
    cases hrun
    rfl
  have hall : Completion.reversed.All := fun _ => rfl
  refine ⟨c, hrun, ?_, ?_⟩
  · rw [hdev .reversed hall 0 (by rw [hmapped]; decide)]
    decide
  · rw [hdev .reversed hall 4096 (by rw [hmapped]; decide)]
    decide

/-- With a controller memory buffer the second write-back overwrites the bytes
of the first, which is still in flight. -/
example : ∃ c, Run.run Controller.step
    ((Controller.new { Device.zeros with cmb := fun _ => some 4096 }).init 1 3) twoPages = some c ∧
      (c.dev.complete .everything).byteAt (c.dev.complete .everything).media 0 = 8 := by
  refine ⟨_, rfl, ?_⟩
  decide +kernel

/-! ## sessions -/

/-- A process on the device: the sizes it starts with, what it does, what its
flush at the end meets, and how the device completes what is then in flight. -/
structure Session where
  maxActivePgCnt : Nat
  shmPgCnt : Nat
  ops : List (Op × Env)
  flushEnv : Env
  idle : Completion

/-- What a session does, with the flush. -/
def Session.actions (s : Session) : List (Op × Env) := s.ops ++ [(.flushCache, s.flushEnv)]

/-- The device after a session. -/
def Session.finish (dev : Device) (s : Session) : Option Device :=
  (Run.run Controller.step ((Controller.new dev).init s.maxActivePgCnt s.shmPgCnt)
    s.actions).map fun c => c.dev.complete s.idle

/-- A session on a device is without hazards and ends with an idle device. -/
structure Session.Ok (dev : Device) (s : Session) : Prop where
  max_pos : 1 ≤ s.maxActivePgCnt
  shm_ne : s.shmPgCnt ≠ 0
  actions : Run.Guarded Controller.step (Orderless s.shmPgCnt)
    ((Controller.new dev).init s.maxActivePgCnt s.shmPgCnt) s.actions
  idle : s.idle.All

/-- An idle device that holds an array. -/
structure Device.Rests (dev : Device) (m : Mem) : Prop where
  inflight : dev.inflight = []
  safe : ∀ s ∈ dev.submits, s.Safe
  byteAt : dev.byteAt dev.media = m

/-- The flush of a session leaves no page mapped, and is nothing to the array. -/
theorem Session.mappedPages_eq {s : Session} {c c' : Controller}
    (hrun : Run.run Controller.step c s.actions = some c') : c'.mappedPages = [] := by
  rw [Session.actions, Run.run_append] at hrun
  obtain ⟨c₁, -, hlast⟩ := Option.bind_eq_some_iff.mp hrun
  rw [Run.run_cons] at hlast
  obtain ⟨c₂, hc₂, hnil⟩ := Option.bind_eq_some_iff.mp hlast
  obtain rfl : c₂ = c' := Option.some.inj hnil
  rw [flushCache_eq hc₂]
  rfl

theorem Session.flat_actions (s : Session) (m : Mem) :
    flat m (s.actions.map Prod.fst) = flat m (s.ops.map Prod.fst) := by
  simp [Session.actions, flat, flatStep]

/-- **One session** leaves on the device what it did to the array. -/
theorem Device.Rests.finish {dev : Device} {m : Mem} (h : dev.Rests m) {s : Session}
    (hok : s.Ok dev) :
    ∃ dev', s.finish dev = some dev' ∧ dev'.Rests (flat m (s.ops.map Prod.fst)) := by
  obtain ⟨hidle, hsafe, rfl⟩ := h
  obtain ⟨c, hrun, hsim⟩ := exists_run_any hidle hsafe hok.max_pos hok.shm_ne hok.actions
  refine ⟨c.dev.complete s.idle, by rw [Session.finish, hrun, Option.map_some], ?_⟩
  refine ⟨hok.idle _, hsim.hazardless.clear.safe, ?_⟩
  funext off
  rw [← s.flat_actions]
  exact hsim.byteAt_eq hok.idle (by simp [Session.mappedPages_eq hrun])

/-- **What one process wrote the next one finds.**  Over any number of such
sessions on a device that completes writes in any order, each flushed at its
end, the media hold what the actions of all of them make of the array at first. -/
theorem sessions_persist (dev : Device) (hidle : dev.inflight = [])
    (hsafe : ∀ s ∈ dev.submits, s.Safe) {ss : List Session}
    (hss : Run.Guarded Session.finish Session.Ok dev ss) :
    ∃ dev', Run.run Session.finish dev ss = some dev' ∧ dev'.inflight = [] ∧
      dev'.byteAt dev'.media =
        flat (dev.byteAt dev.media) (ss.flatMap fun s => s.ops.map Prod.fst) := by
  obtain ⟨dev', hrun, hrests⟩ := hss.simulates (R := Device.Rests)
    (g := fun m s => flat m (s.ops.map Prod.fst)) (fun _ _ _ h hok => h.finish hok)
    ⟨hidle, hsafe, rfl⟩
  refine ⟨dev', hrun, hrests.inflight, ?_⟩
  rw [hrests.byteAt]
  simp only [flat, List.foldl_flatMap]

/-- A process that writes two pages, and leaves their write-backs to the device. -/
def writesTwo : Session := ⟨1, 3, twoPages, .plain .nothing, .reversed⟩

/-- One that writes the second page again and reads the first. -/
def rewritesOne : Session :=
  ⟨2, 2, [(.write 4096 9, .plain .everything), (.read 0, .plain .everything)],
    .plain .everything, .everything⟩

/-- The one after the other. -/
theorem sessions_persist_two :
    ∃ dev', Run.run Session.finish .zeros [writesTwo, rewritesOne] = some dev' ∧
      dev'.byteAt dev'.media 0 = 7 ∧ dev'.byteAt dev'.media 4096 = 9 := by
  have hfirst : Session.Ok .zeros writesTwo :=
    ⟨Nat.le_refl 1, by decide, twoPages_orderless, fun _ => rfl⟩
  have hss : Run.Guarded Session.finish Session.Ok .zeros [writesTwo, rewritesOne] := by
    refine ⟨hfirst, fun dev hdev => ⟨⟨by decide, by decide, ?_, fun _ => rfl⟩,
      fun _ _ => trivial⟩⟩
    have hzeros : Device.zeros.Rests (Device.zeros.byteAt Device.zeros.media) :=
      ⟨rfl, by simp [Device.zeros], rfl⟩
    obtain ⟨dev', hdev', hrests⟩ := hzeros.finish hfirst
    obtain rfl : dev = dev' := Option.some.inj (hdev.symm.trans hdev')
    refine orderless_of_inOrder hrests.inflight ?_
    simp [Session.actions, rewritesOne, Op.Valid, pageSize, Env.plain_everything_inOrder]
  obtain ⟨dev', hrun, -, hmedia⟩ := sessions_persist .zeros rfl (by simp [Device.zeros]) hss
  refine ⟨dev', hrun, ?_, ?_⟩
  · rw [hmedia]
    decide
  · rw [hmedia]
    decide

end Cxlbuf.Cxlfs
