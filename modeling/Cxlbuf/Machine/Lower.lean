import Cxlbuf.Lib.Persist
import Cxlbuf.Machine

/-!
# Cxlbuf.Machine.Lower

The accesses to persistent memory under power failures.  `PmOp.lower` gives
an access as operations of `Persist`: the header of a log area is one cell
(its words share a cache line, so they persist in program order) and every
other byte is a cell of its own.  `exec_lowerAll` says that without a power
failure this is the memory the process reads back.
-/

namespace Cxlbuf

open ByteMem

/-! ## cells -/

/-- Where a byte of persistent memory lives. -/
inductive Region where
  | log (t : Nat)
  | backing
deriving DecidableEq, Repr

/-- The units in which persistent memory survives a power failure. -/
inductive Cell where
  | header (t : Nat)
  | byte (r : Region) (a : Nat)
deriving DecidableEq, Repr

/-- What a cell holds. -/
@[reducible] def CellVal : Cell → Type
  | .header _ => LogHeader
  | .byte _ _ => UInt8

/-- The bytes of a region. -/
def PmImage.bytes (m : PmImage) : Region → Mem
  | .log t => (m.area t).content
  | .backing => m.backing

/-- An image, cell by cell. -/
def PmImage.cells (m : PmImage) : (c : Cell) → CellVal c
  | .header t => (m.area t).toLogHeader
  | .byte r a => m.bytes r a

/-- The image that given cells make up: what is found after a crash. -/
def PmImage.ofCells (v : (c : Cell) → CellVal c) : PmImage where
  area t := { toLogHeader := v (.header t), content := fun i => v (.byte (.log t) i) }
  backing a := v (.byte .backing a)

/-- The cells of a log area that lie on the lines `flush` is given: the
header is at the start of the area, `content` right after it. -/
def logLines (t off n : Nat) : Set Cell := fun c => match c with
  | .header u => u = t ∧ PmOp.FlushesLine off n 0
  | .byte r i => r = .log t ∧ PmOp.FlushesLine off n ((sizeofLogLayout + i) / 64)

/-- The cells of the backing file on the lines `flush` is given. -/
def backingLines (p n : Nat) : Set Cell := fun c => match c with
  | .header _ => False
  | .byte r a => r = .backing ∧ PmOp.FlushesLine p n (a / 64)

/-- The cells a streaming write to the backing file writes. -/
def backingRun (dst n : Nat) : Set Cell := fun c => match c with
  | .header _ => False
  | .byte r a => r = .backing ∧ dst ≤ a ∧ a < dst + n

/-! ## lowering -/

/-- Stores of consecutive bytes. -/
def storeBytes (r : Region) : Nat → List UInt8 → List (Persist.Op Cell CellVal)
  | _, [] => []
  | a, b :: bs => .update (.byte r a) (fun _ => b) :: storeBytes r (a + 1) bs

/-- An access as operations on cells.  A streaming write stores its bytes
and needs no flush of its own before the next drain. -/
def PmOp.lower : PmOp → List (Persist.Op Cell CellVal)
  | storeState t s => [.update (.header t) fun h => { h with state := s }]
  | storeOffset t v => [.update (.header t) fun h => { h with logOffset := v }]
  | storeTail t v => [.update (.header t) fun h => { h with tailPtr := v }]
  | storeLog t off data => storeBytes (.log t) off data
  | flushLog t off n => [.flush (logLines t off n)]
  | streamState t s => [.update (.header t) fun h => { h with state := s }, .flush {.header t}]
  | memcpy dst data => storeBytes .backing dst data
  | streamingWr dst data => storeBytes .backing dst data ++ [.flush (backingRun dst data.length)]
  | flush p n => [.flush (backingLines p n)]
  | drain => [.drain]

/-- A list of accesses as operations on cells. -/
def lowerAll (ops : List PmOp) : List (Persist.Op Cell CellVal) := ops.flatMap PmOp.lower

@[simp] theorem lowerAll_cons (op : PmOp) (ops : List PmOp) :
    lowerAll (op :: ops) = op.lower ++ lowerAll ops := rfl

@[simp] theorem lowerAll_append (ops ops' : List PmOp) :
    lowerAll (ops ++ ops') = lowerAll ops ++ lowerAll ops' := List.flatMap_append

/-- Storing bytes one after the other writes the run, and nothing else. -/
theorem exec_storeBytes (r : Region) (a : Nat) (bs : List UInt8) (v : (c : Cell) → CellVal c)
    (r' : Region) (x : Nat) :
    Persist.exec v (storeBytes r a bs) (.byte r' x) =
      if r' = r then write (fun y => v (.byte r y)) a bs x else v (.byte r' x) := by
  induction bs generalizing a v with
  | nil =>
      have hw : write (fun y => v (.byte r y)) a [] x = v (.byte r x) :=
        write_of_not_mem (by simp)
      by_cases h : r' = r
      · subst h; simp [storeBytes, hw]
      · simp [storeBytes, h]
  | cons b bs ih =>
      rw [storeBytes, Persist.exec_cons, ih]
      by_cases h : r' = r
      · subst h
        rw [if_pos rfl, if_pos rfl, write_cons]
        congr 1
        funext y
        by_cases hy : y = a
        · subst hy; simp [Persist.Op.apply]
        · have hne : Cell.byte r' y ≠ Cell.byte r' a := by simp [hy]
          rw [Persist.Op.apply, Function.update_of_ne hne, Function.update_of_ne hy]
      · have hne : Cell.byte r' x ≠ Cell.byte r a := by simp [h]
        rw [if_neg h, if_neg h, Persist.Op.apply, Function.update_of_ne hne]

theorem lowerAll_prefix {ops ops' : List PmOp} (h : ops <+: ops') :
    lowerAll ops <+: lowerAll ops' := by
  obtain ⟨rest, rfl⟩ := h
  exact ⟨lowerAll rest, (lowerAll_append ops rest).symm⟩

/-- The stores a run of bytes is made of. -/
theorem exists_of_mem_storeBytes {r : Region} {a : Nat} {bs : List UInt8}
    {op : Persist.Op Cell CellVal} (h : op ∈ storeBytes r a bs) :
    ∃ i < bs.length, op = .update (.byte r (a + i)) fun _ => bs.getD i 0 := by
  induction bs generalizing a with
  | nil => simp [storeBytes] at h
  | cons b bs ih =>
      rw [storeBytes, List.mem_cons] at h
      cases h with
      | inl heq => exact ⟨0, by simp, heq⟩
      | inr hmem =>
          obtain ⟨i, hi, heq⟩ := ih hmem
          refine ⟨i + 1, by simpa using hi, ?_⟩
          rw [heq, Nat.add_assoc, Nat.add_comm 1 i]
          rfl

theorem mem_storeBytes {r r' : Region} {a y : Nat} {bs : List UInt8} {f : UInt8 → UInt8}
    (h : .update (.byte r' y) f ∈ storeBytes r a bs) :
    r' = r ∧ (a ≤ y ∧ y < a + bs.length) ∧ f = fun _ => bs.getD (y - a) 0 := by
  obtain ⟨i, hi, heq⟩ := exists_of_mem_storeBytes h
  injection heq with hcell hf
  injection hcell with hr hy
  subst hy
  exact ⟨hr, by omega, by simpa using hf⟩

/-- They are stores and nothing else. -/
theorem not_flushes_of_mem_storeBytes {r : Region} {a : Nat} {bs : List UInt8}
    {op : Persist.Op Cell CellVal} (h : op ∈ storeBytes r a bs) :
    (∀ c, ¬ op.Flushes c) ∧ op ≠ .drain := by
  obtain ⟨i, -, rfl⟩ := exists_of_mem_storeBytes h
  exact ⟨fun c => id, by simp⟩

theorem not_updates_header_of_mem_storeBytes {r : Region} {a t : Nat} {bs : List UInt8}
    {op : Persist.Op Cell CellVal} (h : op ∈ storeBytes r a bs) : ¬ op.Updates (.header t) := by
  obtain ⟨i, -, rfl⟩ := exists_of_mem_storeBytes h
  simp [Persist.Op.Updates]

/-- Storing bytes to a region gives the cells of the image with that run
written. -/
theorem exec_storeBytes_cells (m m' : PmImage) (r : Region) (a : Nat) (bs : List UInt8)
    (hhdr : ∀ t, (m'.area t).toLogHeader = (m.area t).toLogHeader)
    (hbytes : ∀ r', m'.bytes r' = if r' = r then write (m.bytes r) a bs else m.bytes r') :
    Persist.exec m.cells (storeBytes r a bs) = m'.cells := by
  funext c
  cases c with
  | header t =>
      rw [Persist.exec_of_not_updates fun op hop => not_updates_header_of_mem_storeBytes hop]
      exact (hhdr t).symm
  | byte r' x =>
      rw [exec_storeBytes]
      change _ = m'.bytes r' x
      rw [hbytes r']
      by_cases h : r' = r
      · rw [if_pos h, if_pos h]; rfl
      · rw [if_neg h, if_neg h]; rfl

/-- A store to one header changes that header's cell only. -/
theorem exec_header_cells (m : PmImage) (t : Nat) (f : LogHeader → LogHeader) :
    Function.update m.cells (.header t) (f (m.cells (.header t))) =
      (m.updateArea t fun a => { a with toLogHeader := f a.toLogHeader }).cells := by
  funext c
  cases c with
  | header u =>
      by_cases h : u = t
      · subst h; simp [PmImage.cells, PmImage.updateArea]
      · have hne : Cell.header u ≠ Cell.header t := by simp [h]
        rw [Function.update_of_ne hne]
        change (m.area u).toLogHeader = _
        simp [PmImage.cells, PmImage.updateArea_area_of_ne m h]
  | byte r x =>
      rw [Function.update_of_ne (by simp)]
      cases r with
      | log u =>
          by_cases h : u = t
          · subst h; simp [PmImage.cells, PmImage.bytes]
          · simp [PmImage.cells, PmImage.bytes, PmImage.updateArea_area_of_ne m h]
      | backing => rfl

/-- One access, lowered, has the effect `exec` gives it. -/
theorem exec_lower (m : PmImage) (op : PmOp) :
    Persist.exec m.cells op.lower = (op.exec m).cells := by
  have hback (dst : Nat) (data : List UInt8) : Persist.exec m.cells (storeBytes .backing dst data) =
      PmImage.cells { m with backing := write m.backing dst data } :=
    exec_storeBytes_cells m _ .backing dst data (fun _ => rfl) fun r' => by cases r' <;> rfl
  cases op with
  | storeState t s => exact exec_header_cells m t fun h => { h with state := s }
  | storeOffset t v => exact exec_header_cells m t fun h => { h with logOffset := v }
  | storeTail t v => exact exec_header_cells m t fun h => { h with tailPtr := v }
  | streamState t s => exact exec_header_cells m t fun h => { h with state := s }
  | storeLog t off data =>
      refine exec_storeBytes_cells m _ (.log t) off data ?_ ?_
      · intro u
        by_cases h : u = t
        · subst h; simp [PmOp.exec]
        · simp [PmOp.exec, PmImage.updateArea_area_of_ne m h]
      · intro r'
        cases r' with
        | log u =>
            by_cases h : u = t
            · subst h; simp [PmOp.exec, PmImage.bytes]
            · simp [PmOp.exec, PmImage.bytes, PmImage.updateArea_area_of_ne m h, h]
        | backing => rfl
  | memcpy dst data => exact hback dst data
  | streamingWr dst data =>
      rw [PmOp.lower, Persist.exec_append, hback dst data]
      rfl
  | flushLog t off n => rfl
  | flush p n => rfl
  | drain => rfl

/-- **Lowering is faithful**: with no power failure, the lowered accesses
give the cells of the image the accesses give. -/
theorem exec_lowerAll (m : PmImage) (ops : List PmOp) :
    Persist.exec m.cells (lowerAll ops) = (execOps m ops).cells := by
  induction ops generalizing m with
  | nil => rfl
  | cons op ops ih => rw [lowerAll_cons, Persist.exec_append, exec_lower, ih, execOps_cons]

/-! ## what lowered accesses update and flush -/

/-- What an access does to the header it writes. -/
def PmOp.headerFun : PmOp → LogHeader → LogHeader
  | storeState _ s | streamState _ s => fun h => { h with state := s }
  | storeOffset _ v => fun h => { h with logOffset := v }
  | storeTail _ v => fun h => { h with tailPtr := v }
  | _ => id

theorem eq_headerFun_of_mem_lower {op : PmOp} {t : Nat} {f : LogHeader → LogHeader}
    (h : .update (.header t) f ∈ op.lower) : f = op.headerFun := by
  have hbytes {r : Region} {a : Nat} {bs : List UInt8}
      (hmem : .update (.header t) f ∈ storeBytes r a bs) : f = op.headerFun := by
    have hno : ¬ Persist.Op.Updates (.header t) (.update (V := CellVal) (.header t) f) :=
      not_updates_header_of_mem_storeBytes hmem
    exact absurd rfl hno
  cases op with
  | storeLog u off data => exact hbytes h
  | memcpy dst data => exact hbytes h
  | streamingWr dst data =>
      rw [PmOp.lower, List.mem_append] at h
      cases h with
      | inl h => exact hbytes h
      | inr h => simp at h
  | flushLog u off n => simp [PmOp.lower] at h
  | flush p n => simp [PmOp.lower] at h
  | drain => simp [PmOp.lower] at h
  | storeState u s => simp only [PmOp.lower, List.mem_singleton] at h; cases h; rfl
  | storeOffset u v => simp only [PmOp.lower, List.mem_singleton] at h; cases h; rfl
  | storeTail u v => simp only [PmOp.lower, List.mem_singleton] at h; cases h; rfl
  | streamState u s =>
      simp only [PmOp.lower, List.mem_cons, List.not_mem_nil, or_false] at h
      cases h with
      | inl h => cases h; rfl
      | inr h => cases h

/-- An update of a backing byte comes from an access that writes it, and
stores what that access writes. -/
theorem update_backing_of_mem_lower {op : PmOp} {y : Nat} {f : UInt8 → UInt8}
    (h : .update (.byte .backing y) f ∈ op.lower) :
    op.WritesBacking y ∧ ∀ m b, f b = (op.exec m).backing y := by
  have hbytes {dst : Nat} {data : List UInt8}
      (hmem : .update (.byte .backing y) f ∈ storeBytes .backing dst data) :
      (dst ≤ y ∧ y < dst + data.length) ∧
        ∀ (m : PmImage) b, f b = write m.backing dst data y := by
    obtain ⟨-, hin, hf⟩ := mem_storeBytes hmem
    exact ⟨hin, fun m b => by rw [hf, write_of_mem hin]⟩
  cases op with
  | storeLog u off data =>
      obtain ⟨hr, -⟩ := mem_storeBytes h
      cases hr
  | memcpy dst data => exact hbytes h
  | streamingWr dst data =>
      rw [PmOp.lower, List.mem_append] at h
      cases h with
      | inl h => exact hbytes h
      | inr h => simp at h
  | streamState u s =>
      simp only [PmOp.lower, List.mem_cons, List.not_mem_nil, or_false] at h
      cases h with
      | inl h => cases h
      | inr h => cases h
  | _ => simp [PmOp.lower] at h

/-- Accesses to log areas do not flush the backing file. -/
theorem not_flushes_backing {op : PmOp} (h : ¬ op.ToBacking) {o : Persist.Op Cell CellVal}
    (ho : o ∈ op.lower) (y : Nat) : ¬ o.Flushes (.byte .backing y) := by
  cases op with
  | memcpy dst data => exact absurd trivial h
  | streamingWr dst data => exact absurd trivial h
  | flush p n => exact absurd trivial h
  | storeLog u off data => exact (not_flushes_of_mem_storeBytes ho).1 _
  | flushLog u off n =>
      simp only [PmOp.lower, List.mem_singleton] at ho
      subst ho
      intro hfl
      cases hfl.1
  | streamState u s =>
      simp only [PmOp.lower, List.mem_cons, List.not_mem_nil, or_false] at ho
      rcases ho with rfl | rfl
      · exact id
      · intro hfl
        cases hfl
  | _ =>
      simp only [PmOp.lower, List.mem_singleton] at ho
      subst ho
      exact id

/-- The operations of an access that persists a backing byte end with a flush
of that byte. -/
theorem lower_of_persistsBacking {op : PmOp} {a : Nat} (h : op.PersistsBacking a) :
    ∃ xs s, op.lower = xs ++ [.flush s] ∧ .byte .backing a ∈ s := by
  cases op with
  | streamingWr dst data => exact ⟨_, _, rfl, rfl, h⟩
  | flush p n => exact ⟨[], _, rfl, rfl, h⟩
  | _ => exact absurd h id

/-- Only a drain drains. -/
theorem drain_not_mem_lower {op : PmOp} (h : op ≠ .drain) : .drain ∉ op.lower := by
  intro hmem
  cases op with
  | drain => exact h rfl
  | storeLog u off data => exact (not_flushes_of_mem_storeBytes hmem).2 rfl
  | memcpy dst data => exact (not_flushes_of_mem_storeBytes hmem).2 rfl
  | streamingWr dst data =>
      rw [PmOp.lower, List.mem_append] at hmem
      cases hmem with
      | inl hmem => exact (not_flushes_of_mem_storeBytes hmem).2 rfl
      | inr hmem => simp at hmem
  | _ => simp [PmOp.lower] at hmem

end Cxlbuf
