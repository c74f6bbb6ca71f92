import Cxlbuf.Cxlfs.Controller
import Cxlbuf.Lib.While

/-!
# Cxlbuf.Cxlfs.Io

How block I/O ends (`blkdev.cc`): buffers that cannot be allocated,
submissions that are refused, completions with an error status.  A failure
is a null pointer in one place, a return code in another, and the number that
the completion callback leaves in the sequence in a third.

A wait polls the device; a command that was submitted completes at some poll
(`Answer`).  `read_blocking` reports how its command ended (`readBlocking_rc`).
`write_blocking` returns 0 for a command that completed with an error, and
calls `free` on a null sequence when there is nothing to wait for
(`writeBlocking_eq`).

The read buffer is allocated by the first read and kept (`ReadCall.Fits`).
-/

namespace Cxlbuf.Cxlfs

open Run

/-! ## what a call meets -/

/-- How a command completes (`spdk_nvme_cpl_is_error`). -/
inductive Cpl where
  | success
  | error
  deriving DecidableEq

/-- The answer to a command: what its submission returns, and if that is 0, at
which poll after it the command completes, and how. -/
structure Answer where
  rc : Int
  polls : Nat
  cpl : Cpl

/-- What a call meets in a namespace: the size of the controller memory buffer
if there is one, whether `spdk_zmalloc` returns memory, whether the namespace
is zoned, and the answers to the reset of a zone and to the command. -/
structure Spdk where
  cmb : Option (BitVec 64)
  zmalloc : Bool
  csiZns : Bool
  reset : Answer
  cmd : Answer

/-- A zone that has to be reset is. -/
def Spdk.ResetSucceeds (ns : Spdk) : Prop :=
  ns.csiZns → ns.reset.rc = 0 ∧ ns.reset.cpl = .success

/-- Polls that are enough for a call. -/
def Spdk.enough (ns : Spdk) : Nat := ns.reset.polls + ns.cmd.polls + 2

/-- How a call ends the process. -/
inductive Fault where
  | nullDeref
  | exited (code : Int)
  deriving DecidableEq

/-! ## sequences -/

/-- `ubd_sequence`, with the number of polls since the submission of its
command. -/
structure UbdSequence where
  isWrite : Bool
  usingCmbIo : Bool
  isCompleted : Nat
  polled : Nat

/-- `io_complete`: the value it leaves in `is_completed`.  Zone resets leave
the same. -/
def ioComplete (cpl : Cpl) : Nat := if cpl = .error then 2 else 1

/-- `spdk_nvme_qpair_process_completions`, as far as the sequence goes. -/
def processCompletions (a : Answer) (s : UbdSequence) : UbdSequence :=
  { s with
    polled := s.polled + 1
    isCompleted := if s.polled = a.polls then ioComplete a.cpl else s.isCompleted }

/-- `while (not sequence.is_completed) process_completions(...)`. -/
def wait (fuel : Nat) (a : Answer) (s : UbdSequence) : Option UbdSequence :=
  While.loop (fun s => s.isCompleted == 0) (fun s => .yield (processCompletions a s)) fuel s

/-- The command has completed, or a poll to come completes it. -/
def Answer.Pending (a : Answer) (s : UbdSequence) : Prop :=
  s.isCompleted = 0 ∧ s.polled ≤ a.polls ∨ s.isCompleted = ioComplete a.cpl

theorem ioComplete_ne_zero (cpl : Cpl) : ioComplete cpl ≠ 0 := by
  unfold ioComplete
  split <;> decide

theorem pending_processCompletions {a : Answer} {s : UbdSequence} (h : s.isCompleted = 0)
    (hp : s.polled ≤ a.polls) : a.Pending (processCompletions a s) := by
  by_cases hlast : s.polled = a.polls
  · exact .inr (by simp [processCompletions, hlast])
  · exact .inl ⟨by simp [processCompletions, hlast, h], by simp only [processCompletions]; omega⟩

/-- A wait for a command that has completed ends at once. -/
theorem wait_of_completed {a : Answer} {s : UbdSequence} (h : s.isCompleted ≠ 0) (fuel : Nat) :
    wait (fuel + 1) a s = some s :=
  While.loop_exit (by simpa using h)

theorem wait_of_not_completed {a : Answer} {s : UbdSequence} (h : s.isCompleted = 0) (fuel : Nat) :
    wait (fuel + 1) a s = wait fuel a (processCompletions a s) :=
  While.loop_yield (by simpa using h) rfl

/-- A wait for a command ends, with what the callback left. -/
theorem wait_isCompleted {a : Answer} {s : UbdSequence} {fuel : Nat} (h : a.Pending s)
    (hf : a.polls + 2 ≤ fuel) :
    ∃ s', wait fuel a s = some s' ∧ s'.isCompleted = ioComplete a.cpl := by
  -- the fuel is enough for the polls that are still to come
  have hfuel : a.polls - s.polled + 2 ≤ fuel := by omega
  clear hf
  induction fuel generalizing s with
  | zero => omega
  | succ fuel ih =>
      obtain ⟨h0, hp⟩ | hdone := h
      · rw [wait_of_not_completed h0]
        have hpend := pending_processCompletions h0 hp
        obtain hlast | hlt := Nat.eq_or_lt_of_le hp
        · obtain ⟨fuel, rfl⟩ := Nat.exists_eq_add_of_le' (show 1 ≤ fuel by omega)
          have hdone : (processCompletions a s).isCompleted = ioComplete a.cpl := if_pos hlast
          exact ⟨_, wait_of_completed (hdone ▸ ioComplete_ne_zero _) fuel, hdone⟩
        · exact ih hpend (by simp only [processCompletions]; omega)
      · exact ⟨s, wait_of_completed (hdone ▸ ioComplete_ne_zero _) fuel, hdone⟩

/-! ## read_blocking -/

/-- `UserBlkDev`, with at least one namespace.  The read buffer is the size it
was allocated with, if it was. -/
structure UserBlkDev where
  namespaceCnt : Nat
  namespaceCnt_pos : 0 < namespaceCnt
  readBuf : Option Nat

namespace UserBlkDev

/-- A device with `n + 1` namespaces, not read yet. -/
def fresh (n : Nat) : UserBlkDev := ⟨n + 1, Nat.succ_pos n, none⟩

variable (u : UserBlkDev) (io : Nat → Spdk) (startLba lbaCount : BitVec 64)

/-- `tgt_ns`, where a negative block address is a large one. -/
def tgtNs : Nat := startLba.toNat % u.namespaceCnt

/-- The lazy allocation of `read_buf`. -/
def allocReadBuf (zmalloc : Bool) : Option UserBlkDev :=
  if u.readBuf.isSome then some u
  else if zmalloc then some { u with readBuf := some (lbaCount <<< 9).toNat }
  else none

/-- `read_blocking`. -/
def readBlocking (fuel : Nat) : Option (Int × UserBlkDev) :=
  let ns := io (u.tgtNs startLba)
  match u.allocReadBuf lbaCount ns.zmalloc with
  | none => some (-1, u)
  | some u =>
      let sequence : UbdSequence := ⟨false, false, 0, 0⟩
      (if ns.cmd.rc = 0 then wait fuel ns.cmd sequence else some sequence).map fun sequence =>
        (if sequence.isCompleted = 1 then 0 else -1, u)

/-- The read was submitted and completed successfully. -/
def ReadSucceeds : Prop :=
  let ns := io (u.tgtNs startLba)
  (u.readBuf.isSome ∨ ns.zmalloc) ∧ ns.cmd.rc = 0 ∧ ns.cmd.cpl = .success

/-! ## write_blocking -/

/-- Where `write` finds its buffer: in the controller memory buffer (`true`),
if that is large enough, or in memory of its own. -/
def allocWriteBuf (ns : Spdk) : Option Bool :=
  match ns.cmb with
  | some sz =>
      if sz.slt (lbaCount <<< 9) then if ns.zmalloc then some false else none else some true
  | none => if ns.zmalloc then some false else none

/-- `reset_zone_and_wait_for_completion`, whose callback exits on an error. -/
def resetZoneAndWaitForCompletion (fuel : Nat) (a : Answer) (s : UbdSequence) :
    Option (Except Fault UbdSequence) :=
  if a.rc ≠ 0 then some (.error (.exited 1))
  else (wait fuel a s).map fun s =>
    if s.isCompleted = 2 then .error (.exited 1)
    else .ok { s with isCompleted := 0, polled := 0 }

/-- The check for ZNS in `write`. -/
def checkZns (fuel : Nat) (ns : Spdk) (s : UbdSequence) : Option (Except Fault UbdSequence) :=
  if ns.csiZns then resetZoneAndWaitForCompletion fuel ns.reset s else some (.ok s)

/-- `write`: the sequence of a command that was submitted and polled for once. -/
def write (fuel : Nat) : Option (Except Fault (Option UbdSequence)) :=
  let ns := io (u.tgtNs startLba)
  match allocWriteBuf lbaCount ns with
  | none => some (.ok none)
  | some usingCmbIo =>
      (checkZns fuel ns ⟨true, usingCmbIo, 0, 0⟩).map fun reset => reset.map fun sequence =>
        if ns.cmd.rc ≠ 0 then none else some (processCompletions ns.cmd sequence)

/-- `write_blocking`.  `free` reads a field of the sequence. -/
def writeBlocking (fuel : Nat) : Option (Except Fault Int) :=
  match u.write io startLba lbaCount fuel with
  | none => none
  | some (.error fault) => some (.error fault)
  | some (.ok none) => some (.error .nullDeref)
  | some (.ok (some sequence)) =>
      (wait fuel (io (u.tgtNs startLba)).cmd sequence).map fun _ => .ok 0

/-- The device accepts the write: there is a buffer, a zone to reset is reset,
and the command is submitted. -/
def Accepts : Prop :=
  let ns := io (u.tgtNs startLba)
  (allocWriteBuf lbaCount ns).isSome ∧ ns.ResetSucceeds ∧ ns.cmd.rc = 0

/-- The write was submitted and completed successfully. -/
def WriteSucceeds : Prop :=
  u.Accepts io startLba lbaCount ∧ (io (u.tgtNs startLba)).cmd.cpl = .success

end UserBlkDev

/-! ## how the calls end -/

section Outcomes

variable {u : UserBlkDev} {io : Nat → Spdk} {startLba lbaCount : BitVec 64} {fuel : Nat}

open UserBlkDev

theorem pending_new (a : Answer) (isWrite usingCmbIo : Bool) :
    a.Pending ⟨isWrite, usingCmbIo, 0, 0⟩ := .inl ⟨rfl, Nat.zero_le _⟩

theorem ioComplete_eq_one {cpl : Cpl} : ioComplete cpl = 1 ↔ cpl = .success := by
  cases cpl <;> decide

/-- A read with a buffer tells how its command ended. -/
theorem readBlocking_of_alloc {u' : UserBlkDev}
    (h : u.allocReadBuf lbaCount (io (u.tgtNs startLba)).zmalloc = some u')
    (hf : (io (u.tgtNs startLba)).cmd.polls + 2 ≤ fuel) :
    u.readBlocking io startLba lbaCount fuel =
      some (if (io (u.tgtNs startLba)).cmd.rc = 0 ∧ (io (u.tgtNs startLba)).cmd.cpl = .success
        then 0 else -1, u') := by
  obtain ⟨s, hwait, hs⟩ := wait_isCompleted (pending_new _ false false) hf
  by_cases hrc : (io (u.tgtNs startLba)).cmd.rc = 0
  · simp [UserBlkDev.readBlocking, h, hrc, hwait, hs, ioComplete_eq_one]
  · simp [UserBlkDev.readBlocking, h, hrc]

theorem allocReadBuf_isSome {zmalloc : Bool} :
    (u.allocReadBuf lbaCount zmalloc).isSome ↔ u.readBuf.isSome ∨ zmalloc := by
  unfold allocReadBuf
  split
  · simp [*]
  · split <;> simp [*]

variable (lbaCount) in
/-- **`read_blocking` returns 0 if the read succeeds and -1 if not.** -/
theorem readBlocking_rc (hf : (io (u.tgtNs startLba)).cmd.polls + 2 ≤ fuel) :
    ∃ rc u', u.readBlocking io startLba lbaCount fuel = some (rc, u') ∧
      (rc = 0 ∧ u.ReadSucceeds io startLba ∨ rc = -1 ∧ ¬ u.ReadSucceeds io startLba) := by
  cases halloc : u.allocReadBuf lbaCount (io (u.tgtNs startLba)).zmalloc with
  | none =>
      have hbuf := allocReadBuf_isSome.not.mp (by rw [halloc]; exact Bool.false_ne_true)
      exact ⟨-1, u, by simp [UserBlkDev.readBlocking, halloc], .inr ⟨rfl, fun h => hbuf h.1⟩⟩
  | some u' =>
      have hbuf := allocReadBuf_isSome.mp (by rw [halloc]; rfl)
      refine ⟨_, u', readBlocking_of_alloc halloc hf, ?_⟩
      by_cases hok : (io (u.tgtNs startLba)).cmd.rc = 0 ∧
          (io (u.tgtNs startLba)).cmd.cpl = .success
      · exact .inl ⟨if_pos hok, hbuf, hok⟩
      · exact .inr ⟨if_neg hok, fun h => hok h.2⟩

/-- The reset of a zone succeeds or ends the process. -/
theorem resetZone_eq {a : Answer} (hf : a.polls + 2 ≤ fuel) {s : UbdSequence} (hs : a.Pending s) :
    if a.rc = 0 ∧ a.cpl = .success then
      ∃ s', resetZoneAndWaitForCompletion fuel a s = some (.ok s') ∧
        s'.isCompleted = 0 ∧ s'.polled = 0
    else resetZoneAndWaitForCompletion fuel a s = some (.error (.exited 1)) := by
  obtain ⟨s', hwait, hs'⟩ := wait_isCompleted hs hf
  by_cases hrc : a.rc = 0
  · cases hcpl : a.cpl with
    | success => simp [resetZoneAndWaitForCompletion, hrc, hwait, hs', hcpl, ioComplete]
    | error => simp [resetZoneAndWaitForCompletion, hrc, hwait, hs', hcpl, ioComplete]
  · simp [resetZoneAndWaitForCompletion, hrc]

/-- After the check for ZNS the sequence is ready for the command, or the
process has ended. -/
theorem checkZns_eq {ns : Spdk} (usingCmbIo : Bool) (hf : ns.reset.polls + 2 ≤ fuel) :
    (ns.ResetSucceeds ∧ ∃ s, checkZns fuel ns ⟨true, usingCmbIo, 0, 0⟩ = some (.ok s) ∧
        s.isCompleted = 0 ∧ s.polled = 0) ∨
      (¬ ns.ResetSucceeds ∧
        checkZns fuel ns ⟨true, usingCmbIo, 0, 0⟩ = some (.error (.exited 1))) := by
  by_cases hzns : ns.csiZns
  · have hreset := resetZone_eq hf (pending_new ns.reset true usingCmbIo)
    rw [checkZns, if_pos hzns]
    by_cases hok : ns.reset.rc = 0 ∧ ns.reset.cpl = .success
    · rw [if_pos hok] at hreset
      exact .inl ⟨fun _ => hok, hreset⟩
    · rw [if_neg hok] at hreset
      exact .inr ⟨fun h => hok (h hzns), hreset⟩
  · rw [checkZns, if_neg hzns]
    exact .inl ⟨fun h => absurd h hzns, _, rfl, rfl, rfl⟩

variable (u io startLba lbaCount)

/-- What `write` returns: a sequence to wait for if the device accepts the
write, and otherwise a null pointer or, after a failed reset, nothing. -/
theorem write_eq (hf : (io (u.tgtNs startLba)).reset.polls + 2 ≤ fuel) :
    (u.Accepts io startLba lbaCount ∧ ∃ sequence,
        u.write io startLba lbaCount fuel = some (.ok (some sequence)) ∧
        (io (u.tgtNs startLba)).cmd.Pending sequence) ∨
      (¬ u.Accepts io startLba lbaCount ∧ ∃ r,
        u.write io startLba lbaCount fuel = some r ∧ (r = .ok none ∨ r = .error (.exited 1))) := by
  unfold UserBlkDev.write UserBlkDev.Accepts
  generalize io (u.tgtNs startLba) = ns at hf ⊢
  cases hbuf : allocWriteBuf lbaCount ns with
  | none => exact .inr ⟨fun h => by simp [hbuf] at h, .ok none, by simp [hbuf], .inl rfl⟩
  | some usingCmbIo =>
      obtain ⟨hreset, s, hs, h0, hp⟩ | ⟨hreset, hs⟩ := checkZns_eq usingCmbIo hf
      · by_cases hrc : ns.cmd.rc = 0
        · have hpend := pending_processCompletions (a := ns.cmd) h0 (by omega)
          exact .inl ⟨⟨Option.isSome_of_eq_some hbuf, hreset, hrc⟩, _,
            by simp [hbuf, hs, hrc, Except.map], hpend⟩
        · exact .inr ⟨fun h => hrc h.2.2, .ok none, by simp [hbuf, hs, hrc, Except.map], .inl rfl⟩
      · exact .inr ⟨fun h => hreset h.2.1, .error (.exited 1), by simp [hbuf, hs, Except.map],
          .inr rfl⟩

/-- **`write_blocking` returns 0 once its command is accepted, however it
completes, and does not return otherwise.** -/
theorem writeBlocking_eq (hf : (io (u.tgtNs startLba)).enough ≤ fuel) :
    (u.Accepts io startLba lbaCount ∧ u.writeBlocking io startLba lbaCount fuel = some (.ok 0)) ∨
      (¬ u.Accepts io startLba lbaCount ∧ ∃ fault,
        u.writeBlocking io startLba lbaCount fuel = some (.error fault)) := by
  unfold Spdk.enough at hf
  have hreset : (io (u.tgtNs startLba)).reset.polls + 2 ≤ fuel := by omega
  have hcmd : (io (u.tgtNs startLba)).cmd.polls + 2 ≤ fuel := by omega
  obtain ⟨hacc, sequence, hwrite, hpend⟩ | ⟨hacc, r, hwrite, rfl | rfl⟩ :=
    write_eq u io startLba lbaCount hreset
  · obtain ⟨s, hwait, -⟩ := wait_isCompleted hpend hcmd
    exact .inl ⟨hacc, by simp [UserBlkDev.writeBlocking, hwrite, hwait]⟩
  · exact .inr ⟨hacc, .nullDeref, by simp [UserBlkDev.writeBlocking, hwrite]⟩
  · exact .inr ⟨hacc, .exited 1, by simp [UserBlkDev.writeBlocking, hwrite]⟩

variable {u io startLba lbaCount}

theorem writeBlocking_of_accepts (h : u.Accepts io startLba lbaCount)
    (hf : (io (u.tgtNs startLba)).enough ≤ fuel) :
    u.writeBlocking io startLba lbaCount fuel = some (.ok 0) := by
  obtain ⟨-, hwrite⟩ | ⟨hacc, -⟩ := writeBlocking_eq u io startLba lbaCount hf
  · exact hwrite
  · exact absurd h hacc

/-- The device accepts a write exactly if `write_blocking` returns. -/
theorem accepts_iff_returns : u.Accepts io startLba lbaCount ↔
    ∃ n, ∀ fuel, n ≤ fuel → u.writeBlocking io startLba lbaCount fuel = some (.ok 0) := by
  constructor
  · exact fun h => ⟨_, fun _ hf => writeBlocking_of_accepts h hf⟩
  · rintro ⟨n, hn⟩
    obtain ⟨hacc, -⟩ | ⟨-, fault, hwrite⟩ :=
      writeBlocking_eq u io startLba lbaCount (Nat.le_add_left _ n)
    · exact hacc
    · rw [hn _ (Nat.le_add_right n _)] at hwrite
      cases hwrite

end Outcomes

/-! ## what is reported -/

/-- Given enough polls, the call returns: 0 if it succeeded, and -1 if not. -/
def Reports (call : Nat → Option (Except Fault Int)) (succeeds : Prop) : Prop :=
  ∃ n, ∀ fuel, n ≤ fuel → ∃ rc, call fuel = some (.ok rc) ∧
    (rc = 0 ∧ succeeds ∨ rc = -1 ∧ ¬ succeeds)

section

variable (u : UserBlkDev) (io : Nat → Spdk) (startLba lbaCount : BitVec 64)

theorem readBlocking_reports :
    Reports (fun fuel => (u.readBlocking io startLba lbaCount fuel).map fun r => .ok r.1)
      (u.ReadSucceeds io startLba) := by
  refine ⟨(io (u.tgtNs startLba)).cmd.polls + 2, fun fuel hf => ?_⟩
  obtain ⟨rc, u', hread, hrc⟩ := readBlocking_rc lbaCount hf
  exact ⟨rc, by simp [hread], hrc⟩

theorem writeBlocking_reports_iff :
    Reports (u.writeBlocking io startLba lbaCount) (u.WriteSucceeds io startLba lbaCount) ↔
      u.WriteSucceeds io startLba lbaCount := by
  constructor
  · rintro ⟨n, hn⟩
    obtain ⟨rc, hcall, hrc⟩ := hn _ (Nat.le_add_right n _)
    obtain ⟨-, hwrite⟩ | ⟨-, fault, hwrite⟩ :=
      writeBlocking_eq u io startLba lbaCount (Nat.le_add_left _ n)
    · -- it returns 0, which is only right for a success
      rw [hwrite, Option.some.injEq, Except.ok.injEq] at hcall
      obtain ⟨-, hok⟩ | ⟨hneg, -⟩ := hrc
      · exact hok
      · omega
    · rw [hwrite] at hcall
      cases hcall
  · intro hok
    exact ⟨_, fun fuel hf => ⟨0, writeBlocking_of_accepts hok.1 hf, .inl ⟨rfl, hok⟩⟩⟩

/-- Whatever the device does, a blocking read reports it; a blocking write
does so exactly when there is no failure to report. -/
theorem blocking_reports_iff :
    Reports (fun fuel => (u.readBlocking io startLba lbaCount fuel).map fun r => .ok r.1)
        (u.ReadSucceeds io startLba) ∧
      (Reports (u.writeBlocking io startLba lbaCount) (u.WriteSucceeds io startLba lbaCount) ↔
        u.WriteSucceeds io startLba lbaCount) :=
  ⟨readBlocking_reports u io startLba lbaCount, writeBlocking_reports_iff u io startLba lbaCount⟩

end

/-- A namespace whose commands complete with an error, at the second poll. -/
def failingNs : Spdk := ⟨none, true, false, ⟨0, 0, .success⟩, ⟨0, 1, .error⟩⟩

/-- A namespace that refuses commands. -/
def refusingNs : Spdk := ⟨none, true, false, ⟨0, 0, .success⟩, ⟨-6, 0, .success⟩⟩

/-- The write of a page that fails on the device returns 0, and one that the
device refuses dereferences a null pointer. -/
theorem writeBlocking_hides_error :
    (¬ Reports ((UserBlkDev.fresh 0).writeBlocking (fun _ => failingNs) 0 8)
        ((UserBlkDev.fresh 0).WriteSucceeds (fun _ => failingNs) 0 8) ∧
      (UserBlkDev.fresh 0).writeBlocking (fun _ => failingNs) 0 8 3 = some (.ok 0)) ∧
    ¬ Reports ((UserBlkDev.fresh 0).writeBlocking (fun _ => refusingNs) 0 8)
        ((UserBlkDev.fresh 0).WriteSucceeds (fun _ => refusingNs) 0 8) ∧
      (UserBlkDev.fresh 0).writeBlocking (fun _ => refusingNs) 0 8 3 =
        some (.error .nullDeref) := by
  refine ⟨⟨fun h => ?_, by decide⟩, fun h => ?_, by decide⟩
  · have hok := (writeBlocking_reports_iff _ _ _ _).mp h
    exact absurd hok.2 (by decide)
  · have hok := (writeBlocking_reports_iff _ _ _ _).mp h
    exact absurd hok.1.2.2 (by decide)

/-! ## the page cache -/

/-- `flush_cache` survives exactly if all its blocking writes return.  It does
not look at what they return. -/
theorem flushCache_isSome_iff {env : Env} {c : Controller} {u : UserBlkDev} {io : Nat → Nat → Spdk}
    (henv : ∀ pg, env.accept pg ↔ u.Accepts (io pg) (BitVec.ofNat 64 (pg * 8)) 8) :
    (c.flushCache env).isSome ↔ c.shmPgCnt ≠ 0 ∧ ∀ pg ∈ c.mappedPages, ∃ n, ∀ fuel, n ≤ fuel →
      u.writeBlocking (io pg) (BitVec.ofNat 64 (pg * 8)) 8 fuel = some (.ok 0) := by
  have hall : (env.order c.mappedPages).all env.accept ↔ ∀ pg ∈ c.mappedPages, ∃ n, ∀ fuel,
      n ≤ fuel → u.writeBlocking (io pg) (BitVec.ofNat 64 (pg * 8)) 8 fuel = some (.ok 0) := by
    rw [List.all_eq_true]
    refine forall_congr' fun pg => imp_congr (env.perm c.mappedPages).mem_iff ?_
    rw [henv, accepts_iff_returns]
  unfold Controller.flushCache
  by_cases hcnt : c.shmPgCnt = 0
  · simp [hcnt]
  · rw [if_neg hcnt, and_iff_right hcnt, ← hall]
    split <;> simp [*]

/-! ## the read buffer -/

/-- A call of `read_blocking`, for at least one block. -/
structure ReadCall where
  io : Nat → Spdk
  startLba : BitVec 64
  lbaCount : BitVec 64
  pos : 1 ≤ lbaCount.toInt

namespace ReadCall

/-- The read buffer that the call uses, if it gets that far, is at least as
large as the blocks it reads. -/
def Fits (u : UserBlkDev) (c : ReadCall) : Prop :=
  ∀ u', u.allocReadBuf c.lbaCount (c.io (u.tgtNs c.startLba)).zmalloc = some u' →
    ∀ sz, u'.readBuf = some sz → c.lbaCount.toNat * 512 ≤ sz

/-- The call, with enough polls. -/
def step (u : UserBlkDev) (c : ReadCall) : Option UserBlkDev :=
  (u.readBlocking c.io c.startLba c.lbaCount (c.io (u.tgtNs c.startLba)).enough).map Prod.snd

/-- The first call that allocates the buffer, if there is one, reads fewer than
`2 ^ 55` blocks and no call after it reads more. -/
def SizedByFirst (namespaceCnt : Nat) : List ReadCall → Prop
  | [] => True
  | c :: cs =>
      if (c.io (c.startLba.toNat % namespaceCnt)).zmalloc then
        c.lbaCount.toNat < 2 ^ 55 ∧ ∀ c' ∈ cs, c'.lbaCount.toNat ≤ c.lbaCount.toNat
      else SizedByFirst namespaceCnt cs

variable {u : UserBlkDev}

/-- A call allocates the buffer if it has to and can. -/
theorem step_eq (u : UserBlkDev) (c : ReadCall) :
    step u c =
      some ((u.allocReadBuf c.lbaCount (c.io (u.tgtNs c.startLba)).zmalloc).getD u) := by
  cases halloc : u.allocReadBuf c.lbaCount (c.io (u.tgtNs c.startLba)).zmalloc with
  | none => simp [step, UserBlkDev.readBlocking, halloc]
  | some u' =>
      have hf : (c.io (u.tgtNs c.startLba)).cmd.polls + 2 ≤ (c.io (u.tgtNs c.startLba)).enough := by
        unfold Spdk.enough
        omega
      rw [step, readBlocking_of_alloc halloc hf]
      rfl

theorem run_step_isSome (u : UserBlkDev) (cs : List ReadCall) : (run step u cs).isSome := by
  induction cs generalizing u with
  | nil => rfl
  | cons c cs ih =>
      rw [run_cons, step_eq]
      exact ih _

/-- A buffer that is there is used for all later calls. -/
theorem guarded_fits_of_some {sz : Nat} (hu : u.readBuf = some sz) (cs : List ReadCall) :
    Guarded step Fits u cs ↔ ∀ c ∈ cs, c.lbaCount.toNat * 512 ≤ sz := by
  induction cs with
  | nil => simp [Guarded]
  | cons c cs ih =>
      have halloc : u.allocReadBuf c.lbaCount (c.io (u.tgtNs c.startLba)).zmalloc = some u := by
        simp [UserBlkDev.allocReadBuf, hu]
      have hfits : Fits u c ↔ c.lbaCount.toNat * 512 ≤ sz := by
        simp [Fits, halloc, hu]
      simp [Guarded, step_eq, halloc, hfits, ih]

/-- The buffer is as large as the reads of all calls exactly if the call that
allocates it reads the most blocks. -/
theorem readBuf_fits_iff (n : Nat) (cs : List ReadCall) :
    (run step (.fresh n) cs).isSome ∧
      (Guarded step Fits (.fresh n) cs ↔ SizedByFirst (n + 1) cs) := by
  refine ⟨run_step_isSome _ cs, ?_⟩
  induction cs with
  | nil => exact Iff.rfl
  | cons c cs ih =>
      by_cases hz : (c.io (c.startLba.toNat % (n + 1))).zmalloc
      · -- the buffer gets the size of this call
        obtain ⟨u, hu⟩ : ∃ u : UserBlkDev, u = { UserBlkDev.fresh n with
          readBuf := some (c.lbaCount <<< 9).toNat } := ⟨_, rfl⟩
        have hbuf : u.readBuf = some (c.lbaCount <<< 9).toNat := by rw [hu]
        have halloc : (UserBlkDev.fresh n).allocReadBuf c.lbaCount
            (c.io ((UserBlkDev.fresh n).tgtNs c.startLba)).zmalloc = some u := by
          simp [UserBlkDev.allocReadBuf, UserBlkDev.tgtNs, UserBlkDev.fresh, hz, hu]
        have hsz : (c.lbaCount <<< 9).toNat = c.lbaCount.toNat * 512 % 2 ^ 64 := by
          simp [BitVec.toNat_shiftLeft, Nat.shiftLeft_eq]
        have hfits : Fits (.fresh n) c ↔ c.lbaCount.toNat < 2 ^ 55 := by
          simp only [Fits, halloc, hbuf, Option.some.injEq, forall_eq', hsz]
          omega
        simp only [Guarded, step_eq, halloc, Option.getD_some, Option.some.injEq, forall_eq',
          guarded_fits_of_some hbuf, hfits, SizedByFirst, if_pos hz]
        refine and_congr_right fun hlt => forall₂_congr fun c' _ => ?_
        rw [hsz]
        omega
      · have halloc : (UserBlkDev.fresh n).allocReadBuf c.lbaCount
            (c.io ((UserBlkDev.fresh n).tgtNs c.startLba)).zmalloc = none := by
          simp [UserBlkDev.allocReadBuf, UserBlkDev.tgtNs, UserBlkDev.fresh, hz]
        simp [Guarded, step_eq, halloc, Fits, SizedByFirst, hz, ih]

end ReadCall

/-- A namespace where everything succeeds. -/
def healthyNs : Spdk := ⟨none, true, false, ⟨0, 0, .success⟩, ⟨0, 0, .success⟩⟩

theorem one_le_toInt_one : 1 ≤ (1 : BitVec 64).toInt := by decide

theorem one_le_toInt_eight : 1 ≤ (8 : BitVec 64).toInt := by decide

/-- The reads of the block device test: one block, then a page. -/
def testReads : List ReadCall :=
  [⟨fun _ => healthyNs, 0, 1, one_le_toInt_one⟩, ⟨fun _ => healthyNs, 0, 8, one_le_toInt_eight⟩]

/-- The page does not fit into the buffer of the block. -/
theorem readBuf_too_small : ¬ Guarded ReadCall.step ReadCall.Fits (.fresh 0) testReads := by
  rintro ⟨-, hrest⟩
  have hbuf : (⟨1, Nat.one_pos, some 512⟩ : UserBlkDev).readBuf = some 512 := rfl
  have hpage := (ReadCall.guarded_fits_of_some hbuf _).mp (hrest _ rfl)
  exact absurd (hpage _ List.mem_cons_self) (by decide)

end Cxlbuf.Cxlfs
