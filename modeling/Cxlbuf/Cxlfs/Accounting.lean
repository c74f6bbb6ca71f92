import Mathlib.Data.List.Nodup
import Cxlbuf.Cxlfs.Controller

/-!
# Cxlbuf.Cxlfs.Accounting

The bookkeeping of the page cache.  A page fault is an eviction, if the cache
is full, and the loading of a page (`handler_cases`); both keep the set of
mapped pages and the protections together (`Mapped`).  While the device
accepts all writes, the counter counts the mapped pages and stays within the
limit (`Accounted`), so the assertion of the callback holds and there is
always a page to evict.  Whatever the device does, the counter counts the
mapped pages (`Counted`); but `evict_a_page` reports a rejected write to a
caller that does not look, and the page is loaded beyond the limit.
-/

namespace Cxlbuf.Cxlfs

open ByteMem

namespace Controller

/-! ## what a fault does -/

/-- The controller after a page was loaded. -/
def loaded (env : Env) (c : Controller) (pg : Nat) : Controller :=
  let r := c.dev.readBlocking (env.before pg) (env.after pg) (pg * 8) 8
  { c with
    dev := r.2
    mappedPages := c.mappedPages.insert pg
    usedPages := c.usedPages + 1
    accessible := Function.update c.accessible pg true
    mem := write c.mem (pg * pageSize) r.1 }

/-- The page to evict is a mapped one. -/
theorem mem_of_targetPageIdx {env : Env} {pages : List Nat} {target : Nat}
    (h : targetPageIdx env pages = some target) : target ∈ pages := by
  rw [← (env.perm pages).mem_iff]
  unfold targetPageIdx at h
  simp only at h
  split at h
  · rename_i pg hlast
    rw [Option.some.injEq] at h
    subst h
    exact List.mem_of_mem_take (List.mem_of_mem_filter (List.mem_of_getLast? hlast))
  · split at h
    · cases h
    · exact List.mem_of_getElem? h

/-- There is one as long as a page is mapped. -/
theorem exists_targetPageIdx (env : Env) {pages : List Nat} (h : pages ≠ []) :
    ∃ target, targetPageIdx env pages = some target := by
  have hlen : 0 < (env.order pages).length := by
    rw [(env.perm pages).length_eq]
    exact List.length_pos_iff.mpr h
  unfold targetPageIdx
  simp only
  split
  · exact ⟨_, rfl⟩
  · rw [if_neg (by omega)]
    exact ⟨_, List.getElem?_eq_getElem (Nat.mod_lt _ hlen)⟩

/-- **What a fault does**: an eviction first if the cache is full, unless the
device rejects the write; then the page is loaded. -/
theorem handler_eq (env : Env) (c : Controller) (off : Nat) : c.handler env off =
    if off < c.shmPgCnt * pageSize ∧ c.usedPages ≤ c.maxActivePgCnt then
      if c.usedPages = c.maxActivePgCnt then
        (targetPageIdx env c.mappedPages).map fun target =>
          (if env.accept target then c.evicted env target else c.refused target).loaded env
            (off / pageSize)
      else some (c.loaded env (off / pageSize))
    else none := by
  by_cases hoff : off < c.shmPgCnt * pageSize
  · by_cases hle : c.usedPages ≤ c.maxActivePgCnt
    · rw [if_pos ⟨hoff, hle⟩]
      by_cases hfull : c.usedPages = c.maxActivePgCnt
      · simp only [handler, notifyPageFault, if_pos hoff, if_pos hle, if_pos hfull, evictAPage]
        cases targetPageIdx env c.mappedPages with
        | none => rfl
        | some target => rfl
      · simp only [handler, notifyPageFault, if_pos hoff, if_pos hle, if_neg hfull]
        rfl
    · simp [handler, notifyPageFault, hoff, hle]
  · simp [handler, hoff]

theorem handler_cases {env : Env} {c c' : Controller} {off : Nat}
    (h : c.handler env off = some c') :
    off < c.shmPgCnt * pageSize ∧
      ((c.usedPages < c.maxActivePgCnt ∧ c' = c.loaded env (off / pageSize)) ∨
        (c.usedPages = c.maxActivePgCnt ∧ ∃ target,
          targetPageIdx env c.mappedPages = some target ∧ target ∈ c.mappedPages ∧
          c' = (if env.accept target then c.evicted env target else c.refused target).loaded env
            (off / pageSize))) := by
  rw [handler_eq] at h
  split at h
  · rename_i hin
    refine ⟨hin.1, ?_⟩
    split at h
    · rename_i hfull
      obtain ⟨target, ht, rfl⟩ := Option.map_eq_some_iff.mp h
      exact .inr ⟨hfull, target, ht, mem_of_targetPageIdx ht, rfl⟩
    · rename_i hroom
      rw [Option.some.injEq] at h
      exact .inl ⟨by omega, h.symm⟩
  · cases h

/-- An access leaves things as they are, or is a fault. -/
theorem access_cases {env : Env} {c c' : Controller} {off : Nat} (h : c.access env off = some c') :
    (c.accessible (off / pageSize) = true ∧ c' = c) ∨
      (c.accessible (off / pageSize) = false ∧ c.handler env off = some c') := by
  unfold access at h
  cases hacc : c.accessible (off / pageSize) with
  | true =>
      rw [if_pos hacc] at h
      exact .inl ⟨rfl, (Option.some.inj h).symm⟩
  | false =>
      rw [if_neg (by simp [hacc])] at h
      exact .inr ⟨rfl, h⟩

/-- What `flush_cache` leaves. -/
theorem flushCache_eq {env : Env} {c c' : Controller} (hc : c.flushCache env = some c') :
    c' = ({ c with
      dev := (env.order c.mappedPages).foldl (c.flushPage env) c.dev
      mappedPages := [] } : Controller).init c.maxActivePgCnt c.shmPgCnt := by
  unfold flushCache at hc
  split at hc
  · cases hc
  · split at hc
    · exact (Option.some.inj hc).symm
    · cases hc

/-- **The rule for one action**: what faults, writes to memory, flushes and a
larger limit keep, an action keeps.  A flush may come with a new limit. -/
theorem step_rule {I : Controller → Prop} {c c' : Controller} {op : Op} {env : Env} (h : I c)
    (hc : c.step (op, env) = some c')
    (hfault : ∀ off c₁, op = .read off ∨ (∃ b, op = .write off b) →
      c.accessible (off / pageSize) = false → c.handler env off = some c₁ → I c₁)
    (hmem : ∀ c₁ mem, I c₁ → I { c₁ with mem := mem })
    (hflush : ∀ n c₁, n = c.maxActivePgCnt ∨ op = .resizeCache n →
      ({ c with maxActivePgCnt := n } : Controller).flushCache env = some c₁ → I c₁)
    (hgrow : ∀ n, op = .resizeCache n → c.maxActivePgCnt ≤ n →
      I { c with maxActivePgCnt := n }) : I c' := by
  have haccess (off : Nat) (hop : op = .read off ∨ ∃ b, op = .write off b) (c₁ : Controller)
      (hc₁ : c.access env off = some c₁) : I c₁ := by
    obtain ⟨-, rfl⟩ | ⟨hno, hh⟩ := access_cases hc₁
    · exact h
    · exact hfault off c₁ hop hno hh
  cases op with
  | read off => exact haccess off (.inl rfl) c' hc
  | write off b =>
      obtain ⟨c₁, hc₁, rfl⟩ := Option.map_eq_some_iff.mp hc
      exact hmem c₁ _ (haccess off (.inr ⟨b, rfl⟩) c₁ hc₁)
  | flushCache => exact hflush c.maxActivePgCnt c' (.inl rfl) hc
  | resizeCache n =>
      simp only [step, resizeCache] at hc
      split at hc
      · exact hflush n c' (.inr rfl) hc
      · rw [← Option.some.inj hc]
        exact hgrow n rfl (by omega)

end Controller

/-! ## mapped pages and protections -/

open Controller

/-- The mapped pages are pages of the region, each once, and they are the
accessible ones. -/
structure Mapped (c : Controller) : Prop where
  key_lt : ∀ pg ∈ c.mappedPages, pg < c.shmPgCnt
  nodup : c.mappedPages.Nodup
  accessible_iff : ∀ pg, c.accessible pg = true ↔ pg ∈ c.mappedPages

section Mapped

variable {env : Env} {c c' : Controller}

theorem Mapped.not_mem (h : Mapped c) {pg : Nat} (hno : c.accessible pg = false) :
    pg ∉ c.mappedPages := by
  rw [← h.accessible_iff, hno]
  exact Bool.false_ne_true

theorem Mapped.evicted (h : Mapped c) (target : Nat) : Mapped (c.evicted env target) where
  key_lt pg hpg := h.key_lt pg (List.mem_of_mem_erase hpg)
  nodup := h.nodup.erase target
  accessible_iff pg := by
    simp only [Controller.evicted, h.nodup.mem_erase_iff, Function.update_apply]
    split <;> simp_all [h.accessible_iff]

/-- A write that is refused leaves the pages alone. -/
theorem Mapped.refused (h : Mapped c) (target : Nat) : Mapped (c.refused target) :=
  ⟨h.key_lt, h.nodup, h.accessible_iff⟩

theorem Mapped.loaded (h : Mapped c) {pg : Nat} (hpg : pg < c.shmPgCnt) :
    Mapped (c.loaded env pg) where
  key_lt pg' hpg' := by
    simp only [Controller.loaded, List.mem_insert_iff] at hpg' ⊢
    cases hpg' with
    | inl heq => rw [heq]; exact hpg
    | inr hmem => exact h.key_lt pg' hmem
  nodup := h.nodup.insert
  accessible_iff pg' := by
    simp only [Controller.loaded, List.mem_insert_iff, Function.update_apply]
    split <;> simp_all [h.accessible_iff]

/-- What `init` leaves, once the mapped pages are cleared. -/
theorem Mapped.init (c : Controller) (hnone : c.mappedPages = []) (m n : Nat) :
    Mapped (c.init m n) where
  key_lt pg hpg := by simp [Controller.init, hnone] at hpg
  nodup := by simp [Controller.init, hnone]
  accessible_iff pg := by simp [Controller.init, hnone]

/-- The page of an offset into the region. -/
theorem div_pageSize_lt {off n : Nat} (h : off < n * pageSize) : off / pageSize < n :=
  Nat.div_lt_of_lt_mul (Nat.mul_comm n pageSize ▸ h)

theorem Mapped.handler (h : Mapped c) {off : Nat} (hc : c.handler env off = some c') :
    Mapped c' := by
  obtain ⟨hoff, ⟨-, rfl⟩ | ⟨-, target, -, -, rfl⟩⟩ := handler_cases hc
  · exact h.loaded (div_pageSize_lt hoff)
  · split
    · exact (h.evicted target).loaded (div_pageSize_lt hoff)
    · exact (h.refused target).loaded (div_pageSize_lt hoff)

theorem Mapped.flushCache (hc : c.flushCache env = some c') : Mapped c' := by
  rw [flushCache_eq hc]
  exact .init _ rfl _ _

end Mapped

/-! ## the counter -/

/-- The counter counts the mapped pages and stays within the limit. -/
structure Accounted (c : Controller) : Prop extends Mapped c where
  used_eq : c.usedPages = c.mappedPages.length
  used_le : c.usedPages ≤ c.maxActivePgCnt
  max_pos : 1 ≤ c.maxActivePgCnt

/-- The device accepts every write, and the cache is not resized to nothing. -/
def Accepted : Op × Env → Prop
  | (op, env) => (∀ pg, env.accept pg = true) ∧ ∀ n, op = .resizeCache n → 1 ≤ n

section Accounted

variable {env : Env} {c c' : Controller}

/-- There is a page to evict from a full cache, and it is not the one that is
faulted in. -/
theorem Accounted.exists_target (h : Accounted c) (env : Env)
    (hfull : c.usedPages = c.maxActivePgCnt) {pg : Nat} (hno : c.accessible pg = false) :
    ∃ target, targetPageIdx env c.mappedPages = some target ∧ target ∈ c.mappedPages ∧
      target ≠ pg := by
  have hne : c.mappedPages ≠ [] := by
    have hlen := h.used_eq
    have hpos := h.max_pos
    intro hnil
    rw [hnil, List.length_nil] at hlen
    omega
  obtain ⟨target, ht⟩ := exists_targetPageIdx env hne
  have hmem := mem_of_targetPageIdx ht
  exact ⟨target, ht, hmem, fun heq => h.not_mem hno (heq ▸ hmem)⟩

/-- Loading an unmapped page into a cache with room keeps the count. -/
theorem Accounted.loaded (h : Mapped c) (hused : c.usedPages = c.mappedPages.length)
    (hroom : c.usedPages < c.maxActivePgCnt) {pg : Nat} (hpg : pg < c.shmPgCnt)
    (hno : pg ∉ c.mappedPages) : Accounted (c.loaded env pg) where
  toMapped := h.loaded hpg
  used_eq := by simp [Controller.loaded, hno, hused]
  used_le := hroom
  max_pos := Nat.lt_of_le_of_lt (Nat.zero_le _) hroom

/-- A fault on an inaccessible page keeps it. -/
theorem Accounted.handler (h : Accounted c) (hacc : ∀ pg, env.accept pg = true) {off : Nat}
    (hno : c.accessible (off / pageSize) = false) (hc : c.handler env off = some c') :
    Accounted c' := by
  have hun := h.not_mem hno
  obtain ⟨hoff, ⟨hroom, rfl⟩ | ⟨hfull, target, -, ht, rfl⟩⟩ := handler_cases hc
  · exact .loaded h.toMapped h.used_eq hroom (div_pageSize_lt hoff) hun
  · rw [if_pos (hacc target)]
    have hlen := List.length_erase_of_mem ht
    have hpos := h.max_pos
    refine .loaded (h.evicted target) ?_ ?_ (div_pageSize_lt hoff) ?_
    · simp only [Controller.evicted, hlen, h.used_eq]
    · simp only [Controller.evicted]
      omega
    · exact fun hmem => hun (List.mem_of_mem_erase hmem)

/-- And it completes. -/
theorem Accounted.exists_handler (h : Accounted c) (env : Env) {off : Nat}
    (hoff : off < c.shmPgCnt * pageSize) (hno : c.accessible (off / pageSize) = false) :
    ∃ c', c.handler env off = some c' := by
  rw [handler_eq, if_pos ⟨hoff, h.used_le⟩]
  split
  · rename_i hfull
    obtain ⟨target, ht, -, -⟩ := h.exists_target env hfull hno
    rw [ht]
    exact ⟨_, rfl⟩
  · exact ⟨_, rfl⟩

theorem Accounted.init (c : Controller) (hnone : c.mappedPages = []) {m : Nat} (hm : 1 ≤ m)
    (n : Nat) : Accounted (c.init m n) where
  toMapped := .init c hnone m n
  used_eq := by simp [Controller.init, hnone]
  used_le := Nat.zero_le _
  max_pos := hm

/-- **One action** keeps the count. -/
theorem Accounted.step (h : Accounted c) {a : Op × Env} (hok : Accepted a)
    (hc : c.step a = some c') : Accounted c' := by
  obtain ⟨op, env⟩ := a
  refine step_rule h hc ?_ ?_ ?_ ?_
  · exact fun off c₁ _ hno hh => h.handler hok.1 hno hh
  · exact fun c₁ mem h₁ => ⟨⟨h₁.key_lt, h₁.nodup, h₁.accessible_iff⟩, h₁.used_eq, h₁.used_le,
      h₁.max_pos⟩
  · intro n c₁ hn hf
    have hpos : 1 ≤ n := hn.elim (fun heq => heq ▸ h.max_pos) (hok.2 n)
    rw [flushCache_eq hf]
    exact .init _ rfl hpos _
  · exact fun n hop hle => ⟨⟨h.key_lt, h.nodup, h.accessible_iff⟩, h.used_eq,
      Nat.le_trans h.used_le hle, Nat.le_trans h.max_pos hle⟩

/-- The size of the region does not change. -/
theorem shmPgCnt_step {a : Op × Env} (hc : c.step a = some c') : c'.shmPgCnt = c.shmPgCnt := by
  obtain ⟨op, env⟩ := a
  refine step_rule (I := fun c' => c'.shmPgCnt = c.shmPgCnt) rfl hc ?_ ?_ ?_ ?_
  · intro off c₁ _ _ hh
    obtain ⟨-, ⟨-, rfl⟩ | ⟨-, target, -, -, rfl⟩⟩ := handler_cases hh
    · rfl
    · split <;> rfl
  · exact fun _ _ h₁ => h₁
  · intro n c₁ _ hf
    rw [flushCache_eq hf]
    rfl
  · exact fun _ _ _ => rfl

/-- **Cache accounting**: in every state reached from `init` while the device
accepts all writes, the counter counts the mapped pages and is within the
limit, the mapped pages are pages of the region and are the accessible ones.
So a fault on an inaccessible page of the region passes the assertion and
completes, and evicts, if the cache is full, a mapped page other than the
faulting one. -/
theorem cache_accounting (dev : Device) {maxActivePgCnt : Nat} (hmax : 1 ≤ maxActivePgCnt)
    (shmPgCnt : Nat) {as : List (Op × Env)} (has : ∀ a ∈ as, Accepted a) {c : Controller}
    (hrun : Run.run Controller.step ((Controller.new dev).init maxActivePgCnt shmPgCnt) as =
      some c) :
    c.usedPages = c.mappedPages.length ∧ c.mappedPages.Nodup ∧
      c.usedPages ≤ c.maxActivePgCnt ∧
      (∀ pg ∈ c.mappedPages, pg < shmPgCnt) ∧
      (∀ pg, c.accessible pg = true ↔ pg ∈ c.mappedPages) ∧
      ∀ env off, off < shmPgCnt * pageSize → c.accessible (off / pageSize) = false →
        (∃ c', c.handler env off = some c') ∧
        (c.usedPages = c.maxActivePgCnt → ∃ target,
          targetPageIdx env c.mappedPages = some target ∧ target ∈ c.mappedPages ∧
            target ≠ off / pageSize) := by
  have hinv : Accounted c ∧ c.shmPgCnt = shmPgCnt := by
    refine Run.Guarded.invariant
      (I := fun c => Accounted c ∧ c.shmPgCnt = shmPgCnt) (G := fun _ a => Accepted a) ?_
      ⟨.init _ rfl hmax _, rfl⟩ (Run.guarded_of_mem has) hrun
    exact fun s a s' hs hok hc => ⟨hs.1.step hok hc, (shmPgCnt_step hc).trans hs.2⟩
  obtain ⟨h, hshm⟩ := hinv
  refine ⟨h.used_eq, h.nodup, h.used_le, hshm ▸ h.key_lt, h.accessible_iff, ?_⟩
  intro env off hoff hno
  exact ⟨h.exists_handler env (hshm ▸ hoff) hno, fun hfull => h.exists_target env hfull hno⟩

end Accounted

/-! ## a write the device rejects -/

/-- The counter counts the mapped pages. -/
structure Counted (c : Controller) : Prop extends Mapped c where
  used_eq : c.usedPages = c.mappedPages.length

section Counted

variable {env : Env} {c c' : Controller}

theorem Counted.evicted (h : Counted c) {target : Nat} (ht : target ∈ c.mappedPages) :
    Counted (c.evicted env target) where
  toMapped := h.toMapped.evicted target
  used_eq := by simp only [Controller.evicted, List.length_erase_of_mem ht, h.used_eq]

theorem Counted.loaded (h : Counted c) {pg : Nat} (hpg : pg < c.shmPgCnt)
    (hno : pg ∉ c.mappedPages) : Counted (c.loaded env pg) where
  toMapped := h.toMapped.loaded hpg
  used_eq := by simp [Controller.loaded, hno, h.used_eq]

/-- A fault on an inaccessible page keeps the count, whether or not the
device accepts the write. -/
theorem Counted.handler (h : Counted c) {off : Nat}
    (hno : c.accessible (off / pageSize) = false) (hc : c.handler env off = some c') :
    Counted c' := by
  have hun := h.not_mem hno
  obtain ⟨hoff, ⟨-, rfl⟩ | ⟨-, target, -, ht, rfl⟩⟩ := handler_cases hc
  · exact h.loaded (div_pageSize_lt hoff) hun
  · split
    · exact (h.evicted ht).loaded (div_pageSize_lt hoff) fun hmem =>
        hun (List.mem_of_mem_erase hmem)
    · have hkept : Counted (c.refused target) := ⟨h.toMapped.refused target, h.used_eq⟩
      exact hkept.loaded (div_pageSize_lt hoff) hun

theorem Counted.init (c : Controller) (hnone : c.mappedPages = []) (m n : Nat) :
    Counted (c.init m n) where
  toMapped := .init c hnone m n
  used_eq := by simp [Controller.init, hnone]

/-- **One action** keeps it, whatever it meets. -/
theorem Counted.step (h : Counted c) {a : Op × Env} (hc : c.step a = some c') : Counted c' := by
  obtain ⟨op, env⟩ := a
  refine step_rule h hc ?_ ?_ ?_ ?_
  · exact fun off c₁ _ hno hh => h.handler hno hh
  · exact fun c₁ mem h₁ => ⟨⟨h₁.key_lt, h₁.nodup, h₁.accessible_iff⟩, h₁.used_eq⟩
  · intro n c₁ _ hf
    rw [flushCache_eq hf]
    exact .init _ rfl _ _
  · exact fun n _ _ => ⟨⟨h.key_lt, h.nodup, h.accessible_iff⟩, h.used_eq⟩

/-- **And so does every run.** -/
theorem Counted.run (h : Counted c) {as : List (Op × Env)}
    (hrun : Run.run Controller.step c as = some c') : Counted c' :=
  Run.invariant_of_run (fun _ _ _ hs hc => hs.step hc) h hrun

/-- **When an eviction keeps the accounting**: in every reached state that is
full, a fault on an unmapped page completes with the counter equal to the
number of mapped pages; it is within the limit exactly when the device
accepts the write of the page chosen.  If not, every later fault fails the
assertion. -/
theorem eviction_accounted_iff (dev : Device) (maxActivePgCnt shmPgCnt : Nat)
    {as : List (Op × Env)}
    (hrun : Run.run Controller.step ((Controller.new dev).init maxActivePgCnt shmPgCnt) as =
      some c)
    (hfull : c.usedPages = c.maxActivePgCnt) {off : Nat} (hoff : off < c.shmPgCnt * pageSize)
    (hno : c.accessible (off / pageSize) = false) {target : Nat}
    (htarget : targetPageIdx env c.mappedPages = some target) :
    ∃ c', c.handler env off = some c' ∧
      (c'.usedPages ≤ c'.maxActivePgCnt ∧ c'.usedPages = c'.mappedPages.length ↔
        env.accept target = true) ∧
      (env.accept target = false → ∀ env' off', c'.handler env' off' = none) := by
  have hcnt : Counted c := Counted.run (.init _ rfl _ _) hrun
  have hpos : 0 < c.usedPages := by
    rw [hcnt.used_eq]
    exact List.length_pos_of_mem (mem_of_targetPageIdx htarget)
  have hfault : c.handler env off = some ((if env.accept target then c.evicted env target
      else c.refused target).loaded env (off / pageSize)) := by
    rw [handler_eq, if_pos ⟨hoff, Nat.le_of_eq hfull⟩, if_pos hfull, htarget, Option.map_some]
  have hcnt' := hcnt.handler hno hfault
  refine ⟨_, hfault, ?_⟩
  cases hacc : env.accept target with
  | true =>
      rw [hacc] at hcnt'
      have hle : c.usedPages - 1 + 1 ≤ c.maxActivePgCnt := by omega
      exact ⟨⟨fun _ => rfl, fun _ => ⟨hle, hcnt'.used_eq⟩⟩, nofun⟩
  | false =>
      -- the page is loaded without one having been evicted
      have hgt : ¬ c.usedPages + 1 ≤ c.maxActivePgCnt := by omega
      refine ⟨⟨fun hle => absurd hle.1 hgt, nofun⟩, fun _ env' off' => ?_⟩
      rw [handler_eq, if_neg fun hin => hgt hin.2]

end Counted

/-- Pages are iterated over in order, none is in the distribution, and the
device completes commands as given. -/
def Env.plain (k : Completion) : Env where
  order := id
  perm := List.Perm.refl
  dist _ := false
  rand := 0
  accept _ := true
  poll := k
  before _ := k
  after _ := k

/-- A device of zeros with one namespace, and no controller memory buffer. -/
def Device.zeros : Device where
  namespaceCnt := 1
  namespaceCnt_pos := Nat.one_pos
  ctrlr _ := 0
  cmb _ := none
  media _ _ := 0
  inflight := []
  nextId := 0
  submits := []

/-- A cache of one page is full after two faults. -/
theorem cache_accounting_two_faults :
    ∃ c, Run.run Controller.step ((Controller.new .zeros).init 1 2)
        [(.read 0, .plain .everything), (.read 4096, .plain .everything)] = some c ∧
      c.usedPages = c.mappedPages.length ∧ c.usedPages = c.maxActivePgCnt ∧
      (c.accessible 1 = true ↔ 1 ∈ c.mappedPages) := by
  have has : ∀ a ∈ [(Op.read 0, Env.plain .everything), (Op.read 4096, Env.plain .everything)],
      Accepted a := by simp [Accepted, Env.plain]
  have h := cache_accounting .zeros (Nat.le_refl 1) 2 has rfl
  exact ⟨_, rfl, h.1, rfl, h.2.2.2.2.1 1⟩

/-- A device that rejects every write. -/
def Env.rejecting (k : Completion) : Env := { Env.plain k with accept := fun _ => false }

/-- A cache of one page with a second fault: with the write accepted. -/
theorem eviction_accounted_one_page :
    ∃ c c', Run.run Controller.step ((Controller.new .zeros).init 1 2)
        [(.read 0, .plain .everything)] = some c ∧
      c.handler (.plain .everything) 4096 = some c' ∧
      c'.usedPages ≤ c'.maxActivePgCnt ∧ c'.usedPages = c'.mappedPages.length := by
  obtain ⟨c, hrun, hfull, hoff, hno, htarget⟩ : ∃ c, Run.run Controller.step
      ((Controller.new .zeros).init 1 2) [(.read 0, .plain .everything)] = some c ∧
      c.usedPages = c.maxActivePgCnt ∧ 4096 < c.shmPgCnt * pageSize ∧
      c.accessible (4096 / pageSize) = false ∧
      targetPageIdx (.plain .everything) c.mappedPages = some 0 :=
    ⟨_, rfl, rfl, by decide, rfl, rfl⟩
  obtain ⟨c', hc', hiff, -⟩ := eviction_accounted_iff .zeros 1 2 hrun hfull hoff hno htarget
  exact ⟨c, c', hrun, hc', hiff.mpr rfl⟩

/-- The same with the write rejected: two pages are in use where one is
allowed, and a third fault fails the assertion. -/
theorem eviction_not_accounted_rejected :
    ∃ c c', Run.run Controller.step ((Controller.new .zeros).init 1 3)
        [(.read 0, .plain .everything)] = some c ∧
      c.usedPages = c.maxActivePgCnt ∧ c.accessible 1 = false ∧
      c.handler (.rejecting .everything) 4096 = some c' ∧
      ¬ (c'.usedPages ≤ c'.maxActivePgCnt) ∧
      c'.handler (.plain .everything) 8192 = none := by
  obtain ⟨c, hrun, hused, hmax, hno, hoff, hpages⟩ : ∃ c, Run.run Controller.step
      ((Controller.new .zeros).init 1 3) [(.read 0, .plain .everything)] = some c ∧
      c.usedPages = 1 ∧ c.maxActivePgCnt = 1 ∧ c.accessible 1 = false ∧ c.shmPgCnt = 3 ∧
      c.mappedPages = [0] := ⟨_, rfl, rfl, rfl, rfl, rfl, rfl⟩
  have htarget : targetPageIdx (.rejecting .everything) c.mappedPages = some 0 := by
    rw [hpages]
    rfl
  have hfault : c.handler (.rejecting .everything) 4096 =
      some ((c.refused 0).loaded (.rejecting .everything) 1) := by
    rw [handler_eq, hoff, hused, hmax, if_pos (by decide), if_pos rfl, htarget]
    rfl
  have hgt : ¬ ((c.refused 0).loaded (.rejecting .everything) 1).usedPages ≤
      ((c.refused 0).loaded (.rejecting .everything) 1).maxActivePgCnt := by
    simp only [Controller.loaded, Controller.refused, hused, hmax]
    decide
  refine ⟨c, _, hrun, hused.trans hmax.symm, hno, hfault, hgt, ?_⟩
  rw [handler_eq, if_neg fun hin => hgt hin.2]

end Cxlbuf.Cxlfs
