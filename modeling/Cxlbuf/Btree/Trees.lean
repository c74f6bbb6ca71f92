import Cxlbuf.Btree.Nodes
import Cxlbuf.Lib.ByKey

/-!
# Cxlbuf.Btree.Trees

Trees in the heap.  A tree is built (`Built`) if its nodes stand where their
labels say, all different and all in use.  A change is local to a tree (`Local`)
if the other blocks in use keep what they hold, and what it takes into use was
not in use before; it leaves blocks that were never in use as they are, so that
an allocator that does not hand out a block twice hands out clear ones
(`Clean`).

What is local to a child is local to its parent, and leaves the parent built
(`Built.replace`).
-/

namespace Cxlbuf.Btree

open Slots Multiway Multiway.Tree ByKey

/-- The allocator hands out no block that was given back. -/
def Ator.Avoids (a : Ator) (freed : List Nat) : Prop :=
  ∀ h : Heap, h.freed = freed → a.pick h ∉ freed

/-- The allocator hands out no block twice. -/
def Ator.Fresh (a : Ator) : Prop := ∀ h : Heap, a.pick h ∉ h.freed

theorem Ator.Fresh.avoids {a : Ator} (hf : a.Fresh) {freed : List Nat} : a.Avoids freed :=
  fun h hfreed => hfreed ▸ hf h

theorem le_foldr_max {ps : List Nat} {p : Nat} (hp : p ∈ ps) : p ≤ ps.foldr max 0 := by
  induction ps with
  | nil => simp at hp
  | cons q ps ih =>
      rcases List.mem_cons.mp hp with rfl | hp
      · exact Nat.le_max_left _ _
      · exact (ih hp).trans (Nat.le_max_right _ _)

/-- The allocator that hands out the block behind all the others. -/
def bump : Ator where
  pick h := (h.live ++ h.freed).foldr max 0 + 1
  pick_notMem_live h hmem := by
    have hle := le_foldr_max (List.mem_append_left h.freed hmem)
    omega
  pick_ne_zero h := Nat.succ_ne_zero _

theorem bump_fresh : bump.Fresh := fun h hmem => by
  have hle : bump.pick h ≤ _ := le_foldr_max (List.mem_append_right h.live hmem)
  simp only [bump] at hle
  omega

/-- Memory that nothing was written to. -/
def vacant : Heap := ⟨fun _ _ => 0, [], []⟩

/-- Blocks that were never in use lead to no children. -/
def Heap.Clean (h : Heap) : Prop := ∀ q, q ∉ h.live → q ∉ h.freed → ∀ i < 8, h.child q i = 0

theorem clean_vacant : vacant.Clean := fun _ _ _ _ _ => rfl

/-- The tree is in the heap. -/
structure Built (h : Heap) {d : Nat} (t : Tree Nat Item d) : Prop where
  stores : Stores (At h) t
  nodup : t.labels.Nodup
  live : ∀ q ∈ t.labels, q ∈ h.live

/-- Of the blocks in use, the change writes to `ps` only; it leaves `ps'` in use. -/
structure Local (ps ps' : List Nat) (h h' : Heap) : Prop where
  other : ∀ q ∈ h.live, q ∉ ps → q ∈ h'.live ∧ q ∉ ps' ∧ h'.word q = h.word q
  live : ∀ q ∈ ps', q ∈ h'.live
  unused : ∀ q, q ∉ h'.live → q ∉ h'.freed →
    q ∉ h.live ∧ q ∉ h.freed ∧ ∀ i < 8, h'.child q i = h.child q i

variable {h h' h'' : Heap} {ps ps' ps'' : List Nat} {d : Nat}

theorem Local.trans (h₁ : Local ps ps' h h') (h₂ : Local ps' ps'' h' h'') :
    Local ps ps'' h h'' where
  other q hq hps := by
    obtain ⟨hq', hps', hw'⟩ := h₁.other q hq hps
    obtain ⟨hq'', hps'', hw''⟩ := h₂.other q hq' hps'
    exact ⟨hq'', hps'', hw''.trans hw'⟩
  live := h₂.live
  unused q hq hf := by
    obtain ⟨hq', hf', hc'⟩ := h₂.unused q hq hf
    obtain ⟨hq₀, hf₀, hc₀⟩ := h₁.unused q hq' hf'
    exact ⟨hq₀, hf₀, fun i hi => (hc' i hi).trans (hc₀ i hi)⟩

theorem Local.clean (hl : Local ps ps' h h') (hc : h.Clean) : h'.Clean := by
  intro q hq hf i hi
  obtain ⟨hq₀, hf₀, hsame⟩ := hl.unused q hq hf
  rw [hsame i hi, hc q hq₀ hf₀ i hi]

/-- A change of blocks of a tree that keeps them in use. -/
theorem Edits.local (he : Edits ps h h') (hlive : ∀ q ∈ ps, q ∈ h.live) : Local ps ps h h' where
  other q hq hps := ⟨he.live ▸ hq, hps, he.word q hps⟩
  live q hq := he.live ▸ hlive q hq
  unused q hq hf := by
    rw [he.live] at hq
    rw [he.freed] at hf
    have hw := he.word q fun hmem => hq (hlive q hmem)
    exact ⟨hq, hf, fun i _ => by simp [Heap.child, hw]⟩

/-- A change that takes a block into use. -/
theorem Edits.local_allocate {a : Ator} {qs : List Nat} (he : Edits qs (h.allocate a) h')
    (hqs : ∀ q ∈ qs, q ∈ ps ∨ q = a.pick h) (hps : ∀ q ∈ ps, q ∈ h.live)
    (hps' : ∀ q, q ∈ ps' ↔ q ∈ ps ∨ q = a.pick h) : Local ps ps' h h' where
  other q hq hout := by
    have hne : q ≠ a.pick h := fun heq => a.pick_notMem_live h (heq ▸ hq)
    have hqs' : q ∉ qs := fun hmem => (hqs q hmem).elim hout hne
    refine ⟨?_, by simp [hps', hout, hne], he.word q hqs'⟩
    rw [he.live]
    exact List.mem_cons_of_mem _ hq
  live q hq := by
    rw [he.live]
    rcases (hps' q).mp hq with hq | rfl
    · exact List.mem_cons_of_mem _ (hps q hq)
    · exact List.mem_cons_self
  unused q hq hf := by
    rw [he.live] at hq
    rw [he.freed] at hf
    have hq' : q ≠ a.pick h ∧ q ∉ h.live := by simpa [Heap.allocate] using hq
    have hw := he.word q fun hmem => (hqs q hmem).elim (fun hp => hq'.2 (hps q hp)) hq'.1
    exact ⟨hq'.2, hf, fun i _ => by simp [Heap.child, hw, Heap.allocate]⟩

/-- A change that gives a block back. -/
theorem Edits.local_deallocate {b : Nat} {qs : List Nat} (he : Edits qs (h.deallocate b) h')
    (hqs : ∀ q ∈ qs, q ∈ ps') (hps : ∀ q, q ∈ ps ↔ q = b ∨ q ∈ ps') (hb : b ∉ ps')
    (hlive : ∀ q ∈ ps, q ∈ h.live) : Local ps ps' h h' where
  other q hq hout := by
    rw [hps, not_or] at hout
    refine ⟨?_, hout.2, he.word q fun hmem => hout.2 (hqs q hmem)⟩
    rw [he.live]
    simpa [Heap.deallocate] using ⟨hq, hout.1⟩
  live q hq := by
    have hne : q ≠ b := fun heq => hb (heq ▸ hq)
    rw [he.live]
    simpa [Heap.deallocate] using ⟨hlive q ((hps q).mpr (.inr hq)), hne⟩
  unused q hq hf := by
    rw [he.live] at hq
    rw [he.freed] at hf
    have hf' : q ≠ b ∧ q ∉ h.freed := by simpa [Heap.deallocate] using hf
    have hq' : q ∉ h.live := fun hmem => hq (by simpa [Heap.deallocate] using ⟨hmem, hf'.1⟩)
    have hw := he.word q fun hmem => hq' (hlive q ((hps q).mpr (.inr (hqs q hmem))))
    exact ⟨hq', hf'.2, fun i _ => by simp [Heap.child, hw, Heap.deallocate]⟩

/-- What is local to some blocks is local to more. -/
theorem Local.context {es qs qs' : List Nat} (hl : Local ps ps' h h') (hlive : ∀ q ∈ es, q ∈ h.live)
    (hes : ∀ q ∈ es, q ∉ ps) (hqs : ∀ q, q ∈ qs ↔ q ∈ ps ∨ q ∈ es)
    (hqs' : ∀ q, q ∈ qs' ↔ q ∈ ps' ∨ q ∈ es) : Local qs qs' h h' where
  other q hq hout := by
    rw [hqs, not_or] at hout
    obtain ⟨hq', hps', hw⟩ := hl.other q hq hout.1
    exact ⟨hq', fun hmem => ((hqs' q).mp hmem).elim hps' hout.2, hw⟩
  live q hq := by
    rcases (hqs' q).mp hq with hq | hq
    · exact hl.live q hq
    · exact (hl.other q (hlive q hq) (hes q hq)).1
  unused := hl.unused

theorem Stores.congr {t : Tree Nat Item d} (ht : Stores (At h) t)
    (hw : ∀ q ∈ t.labels, h'.word q = h.word q) : Stores (At h') t :=
  ht.imp fun q hq _ _ hat => hat.congr (hw q hq)

theorem Stores.label_ne_zero : {d : Nat} → {t : Tree Nat Item d} → Stores (At h) t → t.label ≠ 0
  | _ + 1, _, ht => ht.1.ne_zero

/-- The child in focus is built, and none of its blocks is its parent's. -/
theorem Built.focus {p : Nat} {ls : List (Tree Nat Item d × Item)} {t : Tree Nat Item d}
    {rs : List (Item × Tree Nat Item d)} (hb : Built h (plug p ls t rs)) :
    Built h t ∧ p ∈ h.live ∧ p ∉ t.labels := by
  have hlive := hb.live
  have hnodup := hb.nodup
  simp only [labels_plug, List.nodup_cons, List.nodup_append, List.mem_append, not_or,
    List.mem_cons] at hnodup hlive
  exact ⟨⟨(stores_plug.mp hb.stores).2.2.1, hnodup.2.1.2.1,
      fun q hq => hlive q (.inr (.inl (.inr hq)))⟩,
    hlive p (.inl rfl), hnodup.1.1.2⟩

/-- The labels of a node, those of some of its children first. -/
theorem labels_perm {p : Nat} {ks : List Item} {as us bs : List (Tree Nat Item d)} :
    (node p ks (as ++ us ++ bs)).labels.Perm
      ((p :: us.flatMap labels) ++ (as ++ bs).flatMap labels) := by
  have hswap : (as.flatMap labels ++ us.flatMap labels ++ bs.flatMap labels).Perm
      (us.flatMap labels ++ (as.flatMap labels ++ bs.flatMap labels)) := by
    rw [← List.append_assoc]
    exact List.perm_append_comm.append_right _
  simpa using hswap.cons p

/-- **The window rule.**  Of the children of a node, `us` are replaced by `us'`, and the change
is local to these and the node. -/
theorem Built.window {p : Nat} {ks ks' : List Item} {as us us' bs : List (Tree Nat Item d)}
    (hb : Built h (node p ks (as ++ us ++ bs)))
    (hl : Local (p :: us.flatMap labels) (p :: us'.flatMap labels) h h')
    (hat : At h' p ks' ((as ++ us' ++ bs).map label))
    (harity : d = 0 ∨ (as ++ us' ++ bs).length = ks'.length + 1)
    (hus : ∀ u ∈ us', Stores (At h') u) (hnodup : (p :: us'.flatMap labels).Nodup) :
    Built h' (node p ks' (as ++ us' ++ bs)) ∧
      Local (node p ks (as ++ us ++ bs)).labels (node p ks' (as ++ us' ++ bs)).labels h h' := by
  obtain ⟨⟨-, -, hkids⟩, hnd, hlive⟩ := hb
  -- none of the blocks of the other children is touched
  have hsplit := List.nodup_append.mp (labels_perm.nodup_iff.mp hnd)
  have hothers : ∀ q ∈ (as ++ bs).flatMap labels, q ∈ h.live ∧ q ∉ p :: us.flatMap labels :=
    fun q hq => ⟨hlive q (labels_perm.mem_iff.mpr (List.mem_append_right _ hq)),
      fun hmem => hsplit.2.2 q hmem q hq rfl⟩
  have hsame (q : Nat) (hq : q ∈ (as ++ bs).flatMap labels) :=
    hl.other q (hothers q hq).1 (hothers q hq).2
  have hlocal : Local (node p ks (as ++ us ++ bs)).labels
      (node p ks' (as ++ us' ++ bs)).labels h h' :=
    hl.context (fun q hq => (hothers q hq).1) (fun q hq => (hothers q hq).2)
      (fun q => labels_perm.mem_iff.trans List.mem_append)
      (fun q => labels_perm.mem_iff.trans List.mem_append)
  have hkeep (u : Tree Nat Item d) (hu : u ∈ as ++ bs) : Stores (At h') u := by
    have hold : u ∈ as ++ us ++ bs := by
      simp only [List.mem_append] at hu ⊢
      tauto
    exact Stores.congr (hkids u hold) fun q hq => (hsame q (List.mem_flatMap.mpr ⟨u, hu, hq⟩)).2.2
  refine ⟨⟨⟨hat, harity, fun u hu => ?_⟩, ?_, hlocal.live⟩, hlocal⟩
  · have hcases : u ∈ as ++ bs ∨ u ∈ us' := by
      simp only [node, List.mem_append] at hu ⊢
      tauto
    exact hcases.elim (hkeep u) (hus u)
  · refine labels_perm.nodup_iff.mpr (List.nodup_append.mpr ⟨hnodup, hsplit.2.1, ?_⟩)
    intro q hq r hr heq
    exact (hsame r hr).2.1 (heq ▸ hq)

/-- **The replacement rule**: what is local to a child is local to its parent, and leaves it
built. -/
theorem Built.replace {p : Nat} {ls : List (Tree Nat Item d × Item)} {t t' : Tree Nat Item d}
    {rs : List (Item × Tree Nat Item d)} (hb : Built h (plug p ls t rs)) (ht : Built h' t')
    (hl : Local t.labels t'.labels h h') (hlabel : t'.label = t.label) :
    Built h' (plug p ls t' rs) ∧ Local (plug p ls t rs).labels (plug p ls t' rs).labels h h' := by
  have hform (u : Tree Nat Item d) : plug p ls u rs =
      node p (ls.map Prod.snd ++ rs.map Prod.fst) (ls.map Prod.fst ++ [u] ++ rs.map Prod.snd) := by
    simp [plug]
  have hp := hb.focus.2
  obtain ⟨-, hp', hword⟩ := hl.other p hp.1 hp.2
  have hat : At h' p (ls.map Prod.snd ++ rs.map Prod.fst)
      ((ls.map Prod.fst ++ [t'] ++ rs.map Prod.snd).map label) := by
    have hat := (stores_plug.mp hb.stores).1.congr hword
    simpa [hlabel, Function.comp_def] using hat
  have hwide : Local (p :: [t].flatMap labels) (p :: [t'].flatMap labels) h h' := by
    have hlive : ∀ q ∈ [p], q ∈ h.live := by simpa using hp.1
    exact hl.context hlive (by simpa using hp.2) (by simp [or_comm]) (by simp [or_comm])
  rw [hform] at hb
  rw [hform, hform]
  exact hb.window hwide hat (by simp; omega) (by simpa using ht.stores)
    (by simpa using ⟨hp', ht.nodup⟩)

end Cxlbuf.Btree
