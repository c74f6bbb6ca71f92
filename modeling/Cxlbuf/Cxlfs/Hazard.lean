import Cxlbuf.Cxlfs.Transparent

/-!
# Cxlbuf.Cxlfs.Hazard

Write-backs on a device that completes commands in any order.  An evicted
page is written back without waiting, and a fault waits for its own read
only; so a page that is faulted in while its write-back is in flight may be
read before it is written.

If no page is faulted in while its write-back is in flight, then the writes in
flight are for unmapped pages, at most one for each (`Hazardless`).  A command
is then never submitted for blocks that a write in flight is for, and a page
is read as it was last written.
-/

namespace Cxlbuf.Cxlfs

open ByteMem Controller

/-- The command writes a page. -/
def WriteCmd.IsFor (w : WriteCmd) (pg : Nat) : Prop :=
  w.lba = pg * 8 ∧ w.data.length = pageSize

/-- Writes in flight are for pages with a property, at most one for each, and
no command was submitted for blocks that a write in flight was for. -/
structure Device.Clear (P : Nat → Prop) (d : Device) : Prop where
  inflight : ∀ w ∈ d.inflight, ∃ pg, P pg ∧ w.IsFor pg
  nodup : (d.inflight.map WriteCmd.lba).Nodup
  safe : ∀ s ∈ d.submits, s.Safe

/-! ## the device -/

section Device

variable {P Q : Nat → Prop} {d : Device} {pg : Nat}

theorem Device.Clear.mono (h : d.Clear P) (hPQ : ∀ q, P q → Q q) : d.Clear Q where
  inflight w hw := by
    obtain ⟨q, hq, hfor⟩ := h.inflight w hw
    exact ⟨q, hPQ q hq, hfor⟩
  nodup := h.nodup
  safe := h.safe

/-- A page that no write in flight is for can be left out. -/
theorem Device.Clear.and_ne (h : d.Clear P) (hfree : ∀ w ∈ d.inflight, w.lba ≠ pg * 8) :
    d.Clear fun q => P q ∧ q ≠ pg where
  inflight w hw := by
    obtain ⟨q, hq, hfor⟩ := h.inflight w hw
    refine ⟨q, ⟨hq, ?_⟩, hfor⟩
    rintro rfl
    exact hfree w hw hfor.1
  nodup := h.nodup
  safe := h.safe

/-- Completions only take writes out of flight. -/
theorem Device.Clear.complete (h : d.Clear P) (k : Completion) : (d.complete k).Clear P where
  inflight w hw := h.inflight w ((k.perm d.inflight).subset (List.mem_append_right _ hw))
  nodup := by
    have hperm := (k.perm d.inflight).map WriteCmd.lba
    rw [List.map_append] at hperm
    exact (List.nodup_append.mp (hperm.nodup_iff.mpr h.nodup)).2.1
  safe := h.safe

/-- The blocks of different pages do not overlap. -/
theorem not_overlaps {s : Submit} {w : WriteCmd} {q : Nat} (hlba : s.lba = pg * 8)
    (hcnt : s.lbaCount = 8) (hw : w.IsFor q) (hne : q ≠ pg) : ¬ s.Overlaps w := by
  obtain ⟨hq, hlen⟩ := hw
  rintro ⟨-, hlt, hlt'⟩
  rw [pageSize] at hlen
  omega

/-- A command for a page that no write in flight is for. -/
theorem Device.Clear.submit (h : d.Clear P) (hpg : ¬ P pg) : (d.submit (pg * 8) 8).Clear P where
  inflight := h.inflight
  nodup := h.nodup
  safe s hs := by
    rw [Device.submit, List.mem_append, List.mem_singleton] at hs
    obtain hs | rfl := hs
    · exact h.safe s hs
    · intro w hw
      obtain ⟨q, hq, hfor⟩ := h.inflight w hw
      refine not_overlaps rfl rfl hfor ?_
      rintro rfl
      exact hpg hq

theorem Device.Clear.readBlocking (h : d.Clear P) (hpg : ¬ P pg) (before after : Completion) :
    (d.readBlocking before after (pg * 8) 8).2.Clear P :=
  ((h.submit hpg).complete before).complete after

/-- What is in the buffers does not matter. -/
theorem Device.Clear.fill (h : d.Clear P) (data : List UInt8) (lba : Nat) :
    (d.fill data lba).Clear P where
  inflight w hw := by
    obtain ⟨v, hv, rfl⟩ := List.mem_map.mp hw
    obtain ⟨q, hq, hlba, hlen⟩ := h.inflight v hv
    exact ⟨q, hq, (v.refill_lba _ _).trans hlba, (v.length_refill _ _).trans hlen⟩
  nodup := by
    simp only [Device.fill, List.map_map]
    rw [List.map_congr_left fun w _ => w.refill_lba _ _]
    exact h.nodup
  safe := h.safe

theorem Device.Clear.writeBlocking (h : d.Clear P) (hpg : ¬ P pg) (before after : Completion)
    (data : List UInt8) : (d.writeBlocking before after data (pg * 8) 8).Clear P := by
  have hbefore := ((h.fill data (pg * 8)).submit hpg).complete before
  unfold Device.writeBlocking
  apply Clear.complete
  exact ⟨hbefore.inflight, hbefore.nodup, hbefore.safe⟩

/-- The write of a page joins those in flight. -/
theorem Device.Clear.queue (h : d.Clear P) (hpg : ¬ P pg) {data : List UInt8}
    (hlen : data.length = pageSize) :
    (d.queue data (pg * 8) 8).Clear fun q => P q ∨ q = pg := by
  have hfill := h.fill data (pg * 8)
  refine ⟨fun w hw => ?_, ?_, (hfill.submit hpg).safe⟩
  · rw [Device.queue, List.mem_append, List.mem_singleton] at hw
    obtain hw | rfl := hw
    · obtain ⟨q, hq, hfor⟩ := hfill.inflight w hw
      exact ⟨q, .inl hq, hfor⟩
    · exact ⟨pg, .inr rfl, rfl, hlen⟩
  · rw [Device.queue, List.map_append, List.nodup_append]
    refine ⟨hfill.nodup, List.nodup_singleton _, ?_⟩
    intro lba hlba lba' hlba'
    obtain ⟨w, hw, rfl⟩ := List.mem_map.mp hlba
    obtain ⟨q, hq, hfor⟩ := hfill.inflight w hw
    rw [List.map_singleton, List.mem_singleton] at hlba'
    rw [hfor.1, hlba']
    intro heq
    have hqp : q = pg := Nat.eq_of_mul_eq_mul_right (by decide) heq
    exact hpg (hqp ▸ hq)

/-- Writes of other pages leave the bytes of a page alone. -/
theorem applyAll_of_ne {ws : List WriteCmd} {x : Nat}
    (hws : ∀ w ∈ ws, ∃ q, q ≠ x / pageSize ∧ w.IsFor q) (m : Media) (ns : Nat) :
    applyAll m ws ns x = m ns x := by
  induction ws generalizing m with
  | nil => rfl
  | cons w ws ih =>
      rw [applyAll, List.foldl_cons, ← applyAll, ih (fun w' hw' => hws w' (.tail _ hw'))]
      obtain ⟨q, hq, hlba, hlen⟩ := hws w List.mem_cons_self
      by_cases hns : ns = w.ns
      · subst hns
        rw [WriteCmd.apply, Function.update_self, write_of_not_mem]
        rw [hlba, hlen, lba_mul]
        exact fun hx => hq (page_iff.mp hx).symm
      · rw [WriteCmd.apply, Function.update_of_ne hns]

theorem Device.Clear.ne_of_mem (h : d.Clear P) {x : Nat} (hx : ¬ P (x / pageSize)) {w : WriteCmd}
    (hw : w ∈ d.inflight) : ∃ q, q ≠ x / pageSize ∧ w.IsFor q := by
  obtain ⟨q, hq, hfor⟩ := h.inflight w hw
  refine ⟨q, ?_, hfor⟩
  rintro rfl
  exact hx hq

/-- Whatever completes, and in whatever order, the bytes of a page that no
write in flight is for stay. -/
theorem Device.Clear.byteAt_complete (h : d.Clear P) {x : Nat} (hx : ¬ P (x / pageSize))
    (k : Completion) : (d.complete k).byteAt (d.complete k).media x = d.byteAt d.media x := by
  refine applyAll_of_ne ?_ d.media _
  intro w hw
  exact h.ne_of_mem hx ((k.perm d.inflight).subset (List.mem_append_left _ hw))

theorem Device.Clear.byteAt_settled (h : d.Clear P) {x : Nat} (hx : ¬ P (x / pageSize)) :
    d.byteAt d.settled x = d.byteAt d.media x :=
  applyAll_of_ne (fun _ hw => h.ne_of_mem hx hw) d.media _

end Device

/-! ## the controller -/

/-- Writes in flight are for unmapped pages. -/
structure Hazardless (c : Controller) : Prop extends Mapped c where
  clear : c.dev.Clear (· ∉ c.mappedPages)

/-- No page is faulted in while its write-back is in flight. -/
def NoWriteBack (c : Controller) : Op × Env → Prop
  | (.read off, _) | (.write off _, _) =>
      c.accessible (off / pageSize) = false → ∀ w ∈ c.dev.inflight, w.lba ≠ off / pageSize * 8
  | _ => True

section Controller

variable {P : Nat → Prop} {env : Env} {c c' : Controller} {pg target : Nat}

/-- A page that no write in flight is for is loaded as it is on the device. -/
theorem clear_loaded (env : Env) (h : c.dev.Clear P) (hpg : ¬ P pg) :
    (c.loaded env pg).dev.Clear P ∧
      ∀ x, x / pageSize = pg → (c.loaded env pg).mem x = c.dev.byteAt c.dev.media x := by
  refine ⟨h.readBlocking hpg (env.before pg) (env.after pg), ?_⟩
  rintro x rfl
  simp only [Controller.loaded, Device.readBlocking, lba_mul]
  refine (write_page _ _ _ _).trans ?_
  rw [if_pos rfl]
  exact (h.submit hpg).byteAt_complete hpg (env.before _)

/-- Another page may be evicted before. -/
theorem clear_evicted (env : Env) (h : c.dev.Clear P) (ht : ¬ P target) :
    (c.evicted env target).dev.Clear (fun q => P q ∨ q = target) ∧
      ∀ x, ¬ P (x / pageSize) → x / pageSize ≠ target →
        (c.evicted env target).dev.byteAt (c.evicted env target).dev.media x =
          c.dev.byteAt c.dev.media x := by
  have hlen : (c.page target).length = pageSize := length_slice _ _ _
  have hqueue := h.queue ht hlen
  refine ⟨hqueue.complete env.poll, ?_⟩
  intro x hx hne
  exact hqueue.byteAt_complete (not_or.mpr ⟨hx, hne⟩) env.poll

/-- A fault loads the page; before that a page may be evicted, or the device
may refuse its write. -/
theorem exists_loaded_of_handler {off : Nat} (hc : c.handler env off = some c') :
    ∃ c₁, (c₁ = c ∨ ∃ target ∈ c.mappedPages,
        c₁ = c.evicted env target ∨ c₁ = c.refused target) ∧
      c' = c₁.loaded env (off / pageSize) := by
  obtain ⟨-, ⟨-, rfl⟩ | ⟨-, target, -, ht, rfl⟩⟩ := handler_cases hc
  · exact ⟨c, .inl rfl, rfl⟩
  · refine ⟨_, .inr ⟨target, ht, ?_⟩, rfl⟩
    split
    · exact .inl rfl
    · exact .inr rfl

/-- **A fault on a page without a write-back in flight** keeps it so, and
loads the page as it was last written. -/
theorem Hazardless.handler (h : Hazardless c) {off : Nat}
    (hno : c.accessible (off / pageSize) = false)
    (hfree : ∀ w ∈ c.dev.inflight, w.lba ≠ off / pageSize * 8)
    (hc : c.handler env off = some c') :
    Hazardless c' ∧
      ∀ x, x / pageSize = off / pageSize → c'.mem x = c.dev.byteAt c.dev.settled x := by
  have hun := h.not_mem hno
  have hclear := h.clear.and_ne hfree
  have hmapped := h.toMapped.handler hc
  obtain ⟨c₁, hc₁, rfl⟩ := exists_loaded_of_handler hc
  obtain ⟨hclear₁, hbyte⟩ :
      c₁.dev.Clear (fun q => q ∉ c₁.mappedPages ∧ q ≠ off / pageSize) ∧
        ∀ x, x / pageSize = off / pageSize →
          c₁.dev.byteAt c₁.dev.media x = c.dev.byteAt c.dev.media x := by
    obtain rfl | ⟨target, ht, rfl | rfl⟩ := hc₁
    · exact ⟨hclear, fun _ _ => rfl⟩
    · have hne : target ≠ off / pageSize := fun heq => hun (heq ▸ ht)
      obtain ⟨hev, hbyte⟩ := clear_evicted env hclear fun hP => hP.1 ht
      refine ⟨hev.mono ?_, fun x hx => hbyte x (fun hP => hP.2 hx) (hx ▸ hne.symm)⟩
      rintro q (⟨hq, hqne⟩ | rfl)
      · exact ⟨fun hmem => hq (List.mem_of_mem_erase hmem), hqne⟩
      · exact ⟨h.nodup.not_mem_erase, hne⟩
    · exact ⟨hclear.fill _ _, fun _ _ => rfl⟩
  obtain ⟨hload, hmem⟩ := clear_loaded env hclear₁ fun hP => hP.2 rfl
  refine ⟨⟨hmapped, hload.mono ?_⟩, ?_⟩
  · rintro q ⟨hq, hqne⟩ hmem
    exact (List.mem_insert_iff.mp hmem).elim hqne hq
  · intro x hx
    rw [hmem x hx, hbyte x hx, hclear.byteAt_settled fun hP => hP.2 hx]

/-- The loop of `flush_cache` is for mapped pages. -/
theorem Device.Clear.flushPages {d : Device} (h : d.Clear P) {pgs : List Nat}
    (hpgs : ∀ pg ∈ pgs, ¬ P pg) : (pgs.foldl (c.flushPage env) d).Clear P := by
  induction pgs generalizing d with
  | nil => exact h
  | cons pg pgs ih =>
      exact ih (h.writeBlocking (hpgs pg List.mem_cons_self) _ _ _)
        fun q hq => hpgs q (List.mem_cons_of_mem _ hq)

theorem Hazardless.flushCache (hc : c.flushCache env = some c')
    (h : c.dev.Clear (· ∉ c.mappedPages)) : Hazardless c' := by
  have hflush : ((env.order c.mappedPages).foldl (c.flushPage env) c.dev).Clear
      (· ∉ c.mappedPages) :=
    h.flushPages fun pg hpg hnot => hnot ((env.perm _).mem_iff.mp hpg)
  refine ⟨.flushCache hc, ?_⟩
  rw [flushCache_eq hc]
  exact hflush.mono fun _ _ => List.not_mem_nil

/-- **One action** keeps it. -/
theorem Hazardless.step (h : Hazardless c) {a : Op × Env} (hok : NoWriteBack c a)
    (hc : c.step a = some c') : Hazardless c' := by
  obtain ⟨op, env⟩ := a
  refine step_rule h hc ?_ ?_ ?_ ?_
  · intro off c₁ hop hno hh
    obtain rfl | ⟨b, rfl⟩ := hop
    · exact (h.handler hno (hok hno) hh).1
    · exact (h.handler hno (hok hno) hh).1
  · exact fun c₁ mem h₁ => ⟨⟨h₁.key_lt, h₁.nodup, h₁.accessible_iff⟩, h₁.clear⟩
  · exact fun n c₁ _ hf => .flushCache hf h.clear
  · exact fun n _ _ => ⟨⟨h.key_lt, h.nodup, h.accessible_iff⟩, h.clear⟩

/-- **No hazard without early faults**: on a device that completes commands in
any order, in every state reached without faulting in a page whose write-back
was in flight, no command was submitted for blocks that a write in flight was
for, no two writes in flight are for the same page, and a fault on a page
without a write-back in flight loads the page as it was last written. -/
theorem submits_safe (dev : Device) (hidle : dev.inflight = []) (hfresh : dev.submits = [])
    (maxActivePgCnt shmPgCnt : Nat) {as : List (Op × Env)}
    (has : Run.Guarded Controller.step NoWriteBack
      ((Controller.new dev).init maxActivePgCnt shmPgCnt) as) {c : Controller}
    (hrun : Run.run Controller.step ((Controller.new dev).init maxActivePgCnt shmPgCnt) as =
      some c) :
    (∀ s ∈ c.dev.submits, s.Safe) ∧ (c.dev.inflight.map WriteCmd.lba).Nodup ∧
      ∀ env off c', c.accessible (off / pageSize) = false →
        (∀ w ∈ c.dev.inflight, w.lba ≠ off / pageSize * 8) → c.handler env off = some c' →
        ∀ x, x / pageSize = off / pageSize → c'.mem x = c.dev.byteAt c.dev.settled x := by
  have hinit : Hazardless ((Controller.new dev).init maxActivePgCnt shmPgCnt) := by
    refine ⟨.init _ rfl _ _, ?_, ?_, ?_⟩ <;>
      simp [Controller.init, Controller.new, hidle, hfresh]
  have h : Hazardless c := Run.Guarded.invariant (fun _ _ _ hs hok hc => hs.step hok hc) hinit
    has hrun
  exact ⟨h.clear.safe, h.clear.nodup, fun env off c' hno hfree hc => (h.handler hno hfree hc).2⟩

/-- On a device that keeps the order no page is faulted in too early. -/
theorem guarded_of_inOrder (hidle : c.dev.inflight = []) {as : List (Op × Env)}
    (has : ∀ a ∈ as, a.2.InOrder) : Run.Guarded Controller.step NoWriteBack c as := by
  refine Run.guarded_of_invariant (I := fun c => c.dev.inflight = []) ?_ ?_ hidle has
  · exact fun c a c' h henv hc => idle_step henv h hc
  · rintro c ⟨op, env⟩ h -
    cases op <;> simp [NoWriteBack, h]

end Controller

/-- A byte is written, evicted with its page and read back while the
write-back is in flight: the read is of blocks that are being written, and
returns the old byte. -/
theorem submits_early_fault :
    ∃ c, Run.run Controller.step ((Controller.new .zeros).init 1 2)
        [(.write 0 7, .plain .nothing), (.read 4096, .plain .nothing),
          (.read 0, .plain .nothing)] = some c ∧
      (∃ s ∈ c.dev.submits, ¬ s.Safe) ∧ c.mem 0 = 0 := by
  refine ⟨_, rfl, ?_⟩
  decide +kernel

/-- The same when the write-back is done before. -/
theorem submits_safe_late_fault :
    ∃ c, Run.run Controller.step ((Controller.new .zeros).init 1 2)
        [(.write 0 7, .plain .everything), (.read 4096, .plain .everything),
          (.read 0, .plain .everything)] = some c ∧ ∀ s ∈ c.dev.submits, s.Safe := by
  have has : Run.Guarded Controller.step NoWriteBack ((Controller.new .zeros).init 1 2)
      [(.write 0 7, .plain .everything), (.read 4096, .plain .everything),
        (.read 0, .plain .everything)] :=
    guarded_of_inOrder rfl (by simp [Env.plain_everything_inOrder])
  exact ⟨_, rfl, (submits_safe .zeros rfl rfl 1 2 has rfl).1⟩

end Cxlbuf.Cxlfs
