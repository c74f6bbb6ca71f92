import Cxlbuf.Lib.Memory

/-!
# Cxlbuf.Machine

The persistent memory a cxlbuf process works on: one log area per thread
(`log_layout_t`) and the backing file.  `PmOp` lists the accesses
`libstoreinst` makes to it, one constructor per kind of store and per
`pmemops` call, and `PmOp.exec` is their effect on what the process reads
back.  `Cxlbuf.Machine.Lower` puts them under power failures.
-/

namespace Cxlbuf

open ByteMem

/-! ## log areas and the backing file -/

/-- `Log::State`, the first word of a log area. -/
inductive State where
  | empty
  | active
  | committed
deriving DecidableEq, Repr

/-- The fixed part of `log_layout_t`.  `tailPtr` is kept as the offset of
`tail_ptr` from `content`. -/
structure LogHeader where
  state : State
  logOffset : Nat
  tailPtr : Nat
deriving DecidableEq, Repr

/-- `log_layout_t`: the header and the bytes of `content`. -/
structure LogLayout extends LogHeader where
  content : Mem

/-- `sizeof(log_layout_t)`: three 64-bit words before `content`. -/
def sizeofLogLayout : Nat := 24

/-- `sizeof(log_entry_t)`: `1 + 23 + 56` bits before an entry's content. -/
def sizeofLogEntry : Nat := 10

/-- What the process reads from persistent memory: the log areas of the
registered threads, by their position in `tls_logs`, and the backing file
by the virtual address it is mapped at. -/
structure PmImage where
  area : Nat → LogLayout
  backing : Mem

/-- Change one log area. -/
def PmImage.updateArea (m : PmImage) (t : Nat) (f : LogLayout → LogLayout) : PmImage :=
  { m with area := Function.update m.area t (f (m.area t)) }

@[simp] theorem PmImage.updateArea_area_self (m : PmImage) (t : Nat) (f : LogLayout → LogLayout) :
    (m.updateArea t f).area t = f (m.area t) := Function.update_self _ _ _

theorem PmImage.updateArea_area_of_ne (m : PmImage) {t u : Nat} (h : u ≠ t)
    (f : LogLayout → LogLayout) : (m.updateArea t f).area u = m.area u :=
  Function.update_of_ne h _ _

/-! ## accesses to persistent memory -/

/-- An access to persistent memory.  Log areas are named by their position
`t` in `tls_logs`; `storeLog` counts offsets from `content`, `flushLog` from
the start of the (page-aligned) area. -/
inductive PmOp where
  /-- plain store to `log_area->state` -/
  | storeState (t : Nat) (s : State)
  /-- plain store to `log_area->log_offset` -/
  | storeOffset (t : Nat) (v : Nat)
  /-- plain store to `log_area->tail_ptr` -/
  | storeTail (t : Nat) (v : Nat)
  /-- plain stores to `log_area->content` -/
  | storeLog (t : Nat) (off : Nat) (data : List UInt8)
  /-- `pmemops->flush` on a log area -/
  | flushLog (t : Nat) (off n : Nat)
  /-- `pmemops->streaming_wr` to `log_area->state` -/
  | streamState (t : Nat) (s : State)
  /-- `real_memcpy` to the backing file -/
  | memcpy (dst : Nat) (data : List UInt8)
  /-- `pmemops->streaming_wr` to the backing file -/
  | streamingWr (dst : Nat) (data : List UInt8)
  /-- `pmemops->flush` on the backing file -/
  | flush (p n : Nat)
  /-- `pmemops->drain` -/
  | drain
deriving DecidableEq, Repr

namespace PmOp

/-- The effect of an access on what the process reads back. -/
def exec (m : PmImage) : PmOp → PmImage
  | storeState t s | streamState t s => m.updateArea t fun a => { a with state := s }
  | storeOffset t v => m.updateArea t fun a => { a with logOffset := v }
  | storeTail t v => m.updateArea t fun a => { a with tailPtr := v }
  | storeLog t off data => m.updateArea t fun a => { a with content := write a.content off data }
  | memcpy dst data | streamingWr dst data => { m with backing := write m.backing dst data }
  | flushLog _ _ _ | flush _ _ | drain => m

/-- `flush(p, n)` flushes line `l`: the line meets `[p, p + n)`. -/
def FlushesLine (p n l : Nat) : Prop := 0 < n ∧ p / 64 ≤ l ∧ l ≤ (p + n - 1) / 64

instance (p n l : Nat) : Decidable (FlushesLine p n l) := by unfold FlushesLine; infer_instance

/-- The access writes the backing byte at address `a`. -/
def WritesBacking (a : Nat) : PmOp → Prop
  | memcpy dst data | streamingWr dst data => dst ≤ a ∧ a < dst + data.length
  | _ => False

/-- After the access and the next drain, what was written to the backing
byte at address `a` is durable. -/
def PersistsBacking (a : Nat) : PmOp → Prop
  | streamingWr dst data => dst ≤ a ∧ a < dst + data.length
  | flush p n => FlushesLine p n (a / 64)
  | _ => False

/-- The access writes log area `t`. -/
def WritesArea (t : Nat) : PmOp → Prop
  | storeState u _ | storeOffset u _ | storeTail u _ | storeLog u _ _ | streamState u _ => u = t
  | _ => False

/-- The access is to the backing file. -/
def ToBacking : PmOp → Prop
  | memcpy _ _ | streamingWr _ _ | flush _ _ => True
  | _ => False

/-- The accesses `log_range` makes: plain stores of records and of the
offsets in the header, and flushes of the log area. -/
def Appends : PmOp → Prop
  | storeOffset _ _ | storeTail _ _ | storeLog _ _ _ | flushLog _ _ _ => True
  | _ => False

theorem Appends.not_toBacking {op : PmOp} (h : op.Appends) : ¬ op.ToBacking := by
  cases op <;> first | exact id | exact absurd h id

theorem not_writesBacking_of_not_toBacking {op : PmOp} (h : ¬ op.ToBacking) (a : Nat) :
    ¬ op.WritesBacking a := by
  cases op <;> first | exact id | exact absurd trivial h

instance (a : Nat) (op : PmOp) : Decidable (op.WritesBacking a) := by
  cases op <;> unfold WritesBacking <;> infer_instance

instance (a : Nat) (op : PmOp) : Decidable (op.PersistsBacking a) := by
  cases op <;> unfold PersistsBacking <;> infer_instance

end PmOp

/-- Perform accesses in order. -/
def execOps (m : PmImage) (ops : List PmOp) : PmImage := ops.foldl PmOp.exec m

@[simp] theorem execOps_nil (m : PmImage) : execOps m [] = m := rfl

@[simp] theorem execOps_cons (m : PmImage) (op : PmOp) (ops : List PmOp) :
    execOps m (op :: ops) = execOps (op.exec m) ops := rfl

@[simp] theorem execOps_append (m : PmImage) (ops ops' : List PmOp) :
    execOps m (ops ++ ops') = execOps (execOps m ops) ops' := List.foldl_append

/-- What no access changes is not changed. -/
theorem execOps_unchanged {β : Type} {f : PmImage → β} {P : PmOp → Prop}
    (hone : ∀ op, P op → ∀ m, f (op.exec m) = f m) {ops : List PmOp} (h : ∀ op ∈ ops, P op)
    (m : PmImage) : f (execOps m ops) = f m := by
  induction ops generalizing m with
  | nil => rfl
  | cons op ops ih =>
      rw [execOps_cons, ih fun op' hop' => h op' (List.mem_cons_of_mem _ hop'),
        hone op (h op List.mem_cons_self)]

theorem exec_backing_of_not_writes {op : PmOp} {a : Nat} (h : ¬ op.WritesBacking a)
    (m : PmImage) : (op.exec m).backing a = m.backing a := by
  cases op <;> first | rfl | exact write_of_not_mem h

/-- Only the accesses that write a backing byte change it. -/
theorem execOps_backing_of_not_writes {ops : List PmOp} {a : Nat}
    (h : ∀ op ∈ ops, ¬ op.WritesBacking a) (m : PmImage) :
    (execOps m ops).backing a = m.backing a :=
  execOps_unchanged (f := fun m => m.backing a) (fun _ hop => exec_backing_of_not_writes hop) h m

theorem exec_area_of_not_writes {op : PmOp} {t : Nat} (h : ¬ op.WritesArea t) (m : PmImage) :
    (op.exec m).area t = m.area t := by
  have hother (u : Nat) (f : LogLayout → LogLayout) (hu : u ≠ t) :
      (m.updateArea u f).area t = m.area t := m.updateArea_area_of_ne hu.symm f
  cases op <;> first | rfl | (rw [PmOp.exec]; exact hother _ _ h)

/-- Appending to logs changes no state. -/
theorem execOps_state_of_appends {ops : List PmOp} (h : ∀ op ∈ ops, op.Appends) (m : PmImage)
    (t : Nat) : ((execOps m ops).area t).state = (m.area t).state := by
  have hone (op : PmOp) (hop : op.Appends) (m : PmImage) :
      ((op.exec m).area t).state = (m.area t).state := by
    have hsame (u : Nat) (f : LogLayout → LogLayout) (hf : ∀ a, (f a).state = a.state) :
        ((m.updateArea u f).area t).state = (m.area t).state := by
      by_cases htu : t = u
      · rw [htu, PmImage.updateArea_area_self, hf]
      · rw [m.updateArea_area_of_ne htu]
    cases op <;> first | rfl | exact absurd hop id | (rw [PmOp.exec]; exact hsame _ _ fun _ => rfl)
  exact execOps_unchanged (f := fun m => (m.area t).state) hone h m

/-- Only the accesses that write a log area change it. -/
theorem execOps_area_of_not_writes {ops : List PmOp} {t : Nat}
    (h : ∀ op ∈ ops, ¬ op.WritesArea t) (m : PmImage) :
    (execOps m ops).area t = m.area t :=
  execOps_unchanged (f := fun m => m.area t) (fun _ hop => exec_area_of_not_writes hop) h m

end Cxlbuf
