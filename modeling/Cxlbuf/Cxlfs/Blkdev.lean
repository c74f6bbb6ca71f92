import Mathlib.Data.List.Basic
import Mathlib.Logic.Function.Basic
import Cxlbuf.Lib.Memory

/-!
# Cxlbuf.Cxlfs.Blkdev

The block device under the page cache (`blkdev.cc`): namespaces of 512-byte
blocks, to which commands are submitted.  `write` submits a command and
returns, `read_blocking` and `write_blocking` wait for their own command.  In
what order the device completes the writes that are in flight, and when, is
up to the device (`Completion`).

`write` copies its bytes to the memory buffer of the controller, if there is
one that is large enough, and else to memory of its own.  All writes in flight
on such a controller share the buffer, so the next write overwrites what the
others have not yet read from it (`Device.fill`).

The namespaces are conventional ones: a zoned namespace is reset before every
write, which leaves nothing of its first zone.  Commands complete without an
error; how a call ends otherwise is in `Cxlbuf.Cxlfs.Io`.

`submits` records every submission with the writes that were in flight; the
program does not read it.
-/

namespace Cxlbuf.Cxlfs

open ByteMem

/-! ## commands -/

/-- A write command, with the bytes that reach the media when it completes.
They are in the memory buffer of the controller `cmb`, or in memory of the
command's own. -/
structure WriteCmd where
  id : Nat
  ns : Nat
  lba : Nat
  data : List UInt8
  cmb : Option Nat

/-- A submission of a read or a write of a range of blocks, and the writes
that had not completed by then. -/
structure Submit where
  ns : Nat
  lba : Nat
  lbaCount : Nat
  outstanding : List WriteCmd

/-- The submission is for blocks that the write is for. -/
def Submit.Overlaps (s : Submit) (w : WriteCmd) : Prop :=
  w.ns = s.ns ∧ w.lba * 512 < (s.lba + s.lbaCount) * 512 ∧ s.lba * 512 < w.lba * 512 + w.data.length

instance (s : Submit) (w : WriteCmd) : Decidable (s.Overlaps w) :=
  inferInstanceAs (Decidable (_ ∧ _))

/-- No write to the same blocks was in flight. -/
def Submit.Safe (s : Submit) : Prop := ∀ w ∈ s.outstanding, ¬ s.Overlaps w

instance (s : Submit) : Decidable s.Safe :=
  inferInstanceAs (Decidable (∀ w ∈ s.outstanding, ¬ s.Overlaps w))

/-- Which of the writes in flight the device completes, in the order in which
they reach the media, and which it leaves. -/
structure Completion where
  done : List WriteCmd → List WriteCmd
  left : List WriteCmd → List WriteCmd
  perm : ∀ ws, (done ws ++ left ws).Perm ws

/-- The device completes writes in the order of their submission. -/
def Completion.InOrder (k : Completion) : Prop := ∀ ws, k.done ws ++ k.left ws = ws

/-- The device completes all writes in flight. -/
def Completion.All (k : Completion) : Prop := ∀ ws, k.left ws = []

/-- Nothing completes. -/
def Completion.nothing : Completion := ⟨fun _ => [], id, fun _ => .refl _⟩

/-- Everything completes, in order. -/
def Completion.everything : Completion := ⟨id, fun _ => [], fun ws => by simp⟩

/-! ## the device -/

/-- The media of all namespaces, by byte offset. -/
abbrev Media := Nat → Mem

/-- A write reaches the media. -/
def WriteCmd.apply (m : Media) (w : WriteCmd) : Media :=
  Function.update m w.ns (write (m w.ns) (w.lba * 512) w.data)

/-- Writes reach the media one after the other. -/
def applyAll (m : Media) (ws : List WriteCmd) : Media := ws.foldl WriteCmd.apply m

/-- Bytes are copied to the memory buffer of a controller, if there is one: a
command that is in the same buffer gets them. -/
def WriteCmd.refill (cmb : Option Nat) (data : List UInt8) (w : WriteCmd) : WriteCmd :=
  if cmb ≠ none ∧ w.cmb = cmb then
    { w with data := (data ++ w.data.drop data.length).take w.data.length }
  else w

/-- The device, with at least one namespace.  `ctrlr` is the controller of a
namespace, and `cmb` the size of the memory buffer of a controller that has
one. -/
structure Device where
  namespaceCnt : Nat
  namespaceCnt_pos : 0 < namespaceCnt
  ctrlr : Nat → Nat
  cmb : Nat → Option Nat
  media : Media
  inflight : List WriteCmd
  nextId : Nat
  submits : List Submit

namespace Device

/-- `tgt_ns`: the namespace of a block. -/
def tgtNs (d : Device) (startLba : Nat) : Nat := startLba % d.namespaceCnt

/-- The device completes some of the writes in flight. -/
def complete (k : Completion) (d : Device) : Device :=
  { d with media := applyAll d.media (k.done d.inflight), inflight := k.left d.inflight }

/-- A command is submitted. -/
def submit (d : Device) (startLba lbaCount : Nat) : Device :=
  { d with submits := d.submits ++ [⟨d.tgtNs startLba, startLba, lbaCount, d.inflight⟩] }

/-- `read_blocking`: some writes complete before the read does, others with it. -/
def readBlocking (d : Device) (before after : Completion) (startLba lbaCount : Nat) :
    List UInt8 × Device :=
  let d := (d.submit startLba lbaCount).complete before
  (slice (d.media (d.tgtNs startLba)) (startLba * 512) (lbaCount * 512), d.complete after)

/-- The controller whose memory buffer a write uses, if it uses one:
`spdk_nvme_ctrlr_map_cmb`, and the test of the size. -/
def writeCmb (d : Device) (startLba bytes : Nat) : Option Nat :=
  match d.cmb (d.ctrlr (d.tgtNs startLba)) with
  | some sz => if sz < bytes then none else some (d.ctrlr (d.tgtNs startLba))
  | none => none

/-- The command for a write. -/
def writeCmd (d : Device) (data : List UInt8) (startLba : Nat) : WriteCmd :=
  ⟨d.nextId, d.tgtNs startLba, startLba, data, d.writeCmb startLba data.length⟩

/-- The `memcpy` to the buffer of a write. -/
def fill (d : Device) (data : List UInt8) (startLba : Nat) : Device :=
  { d with inflight := d.inflight.map (WriteCmd.refill (d.writeCmb startLba data.length) data) }

/-- `write`, once its command is accepted and before the device is polled: the
command is in flight. -/
def queue (d : Device) (data : List UInt8) (startLba lbaCount : Nat) : Device :=
  let d := d.fill data startLba
  { d.submit startLba lbaCount with
    inflight := d.inflight ++ [d.writeCmd data startLba]
    nextId := d.nextId + 1 }

/-- `write`, once its command is accepted. -/
def write (d : Device) (poll : Completion) (data : List UInt8) (startLba lbaCount : Nat) :
    Device :=
  (d.queue data startLba lbaCount).complete poll

/-- `write_blocking`, once its command is accepted. -/
def writeBlocking (d : Device) (before after : Completion) (data : List UInt8)
    (startLba lbaCount : Nat) : Device :=
  let d := ((d.fill data startLba).submit startLba lbaCount).complete before
  { d with
    media := (d.writeCmd data startLba).apply d.media
    nextId := d.nextId + 1 }.complete after

/-- The media once all writes in flight have reached it in order. -/
def settled (d : Device) : Media := applyAll d.media d.inflight

end Device

/-! ## buffers -/

theorem WriteCmd.refill_id (cmb : Option Nat) (data : List UInt8) (w : WriteCmd) :
    (w.refill cmb data).id = w.id := by
  unfold refill
  split <;> rfl

theorem WriteCmd.refill_lba (cmb : Option Nat) (data : List UInt8) (w : WriteCmd) :
    (w.refill cmb data).lba = w.lba := by
  unfold refill
  split <;> rfl

theorem WriteCmd.length_refill (cmb : Option Nat) (data : List UInt8) (w : WriteCmd) :
    (w.refill cmb data).data.length = w.data.length := by
  unfold refill
  split
  · simp only [List.length_take, List.length_append, List.length_drop]
    omega
  · rfl

/-- No write in flight is in the buffer that a write would use. -/
def Device.Unshared (d : Device) (startLba bytes : Nat) : Prop :=
  ∀ w ∈ d.inflight, d.writeCmb startLba bytes ≠ none → w.cmb ≠ d.writeCmb startLba bytes

theorem Device.unshared_of_idle {d : Device} (h : d.inflight = []) (startLba bytes : Nat) :
    d.Unshared startLba bytes := by
  simp [Unshared, h]

/-- Then it leaves the others alone. -/
theorem Device.Unshared.fill_eq {d : Device} {data : List UInt8} {startLba : Nat}
    (h : d.Unshared startLba data.length) : d.fill data startLba = d := by
  have hmap : d.inflight.map (WriteCmd.refill (d.writeCmb startLba data.length) data) =
      d.inflight.map id := by
    refine List.map_congr_left fun w hw => ?_
    exact if_neg fun hshared => h w hw hshared.1 hshared.2
  rw [fill, hmap, List.map_id]

/-! ## a device that keeps the order -/

theorem applyAll_append (m : Media) (ws ws' : List WriteCmd) :
    applyAll m (ws ++ ws') = applyAll (applyAll m ws) ws' := List.foldl_append

section InOrder

variable {d : Device} {k before after : Completion} {data : List UInt8} {lba cnt : Nat}

/-- Completing writes in order does not change where they end. -/
theorem settled_complete (hk : k.InOrder) : (d.complete k).settled = d.settled := by
  rw [Device.settled, Device.complete, ← applyAll_append, hk, Device.settled]

theorem settled_submit : (d.submit lba cnt).settled = d.settled := rfl

theorem settled_of_all (hk : k.InOrder) (hall : k.All) :
    (d.complete k).media = d.settled ∧ (d.complete k).inflight = [] := by
  have hdone := hk d.inflight
  rw [hall, List.append_nil] at hdone
  exact ⟨congrArg (applyAll d.media) hdone, hall _⟩

/-- A read that waits for the writes before it sees them all. -/
theorem readBlocking_settled (d : Device) (lba cnt : Nat) (hb : before.InOrder)
    (hall : before.All) (ha : after.InOrder) :
    (d.readBlocking before after lba cnt).1 =
        slice (d.settled (d.tgtNs lba)) (lba * 512) (cnt * 512) ∧
      (d.readBlocking before after lba cnt).2.settled = d.settled := by
  have hmedia := (settled_of_all (d := d.submit lba cnt) hb hall).1
  constructor
  · simp only [Device.readBlocking, hmedia, settled_submit]
    rfl
  · simp only [Device.readBlocking, settled_complete ha, settled_complete hb, settled_submit]

/-- A write in order, in a buffer of its own, ends on top of the writes before
it. -/
theorem write_settled (hk : k.InOrder) (hbuf : d.Unshared lba data.length) :
    (d.write k data lba cnt).settled = (d.writeCmd data lba).apply d.settled := by
  rw [Device.write, settled_complete hk, Device.queue, hbuf.fill_eq]
  simp [Device.settled, Device.submit, applyAll]

/-- So does one that is waited for. -/
theorem writeBlocking_settled (hb : before.InOrder) (hall : before.All) (ha : after.InOrder)
    (hbuf : d.Unshared lba data.length) :
    (d.writeBlocking before after data lba cnt).settled =
      (d.writeCmd data lba).apply d.settled := by
  obtain ⟨hmedia, hnone⟩ := settled_of_all (d := d.submit lba cnt) hb hall
  rw [Device.writeBlocking, settled_complete ha, hbuf.fill_eq]
  simp only [Device.settled, hmedia, hnone]
  rfl

end InOrder

end Cxlbuf.Cxlfs
