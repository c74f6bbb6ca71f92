import Cxlbuf.Recovery.Codec
import Cxlbuf.Snapshot

/-!
# Cxlbuf.Recovery.Walkers

The three loops that go through the records of a log: over `log_entry_iter`
with its prefix increment, over the same with its postfix increment, and the
offset loop of `recover`.  The records of a log tile it (`Encodes.tiles`), so
a walker whose jump is the size of the record visits all of them and arrives
at `end()` (`Encodes.walk_eq`).

The prefix increment and the loop of `recover` jump that far.  The postfix
increment leaves out the header, so it arrives at `end()` only if there is
nothing to visit: the sum of the contents is not the sum of the records.
-/

namespace Cxlbuf

open ByteMem Tiling

/-! ## the walkers -/

/-- The loop over `log_entry_iter`, once it has arrived at `end()`: its offset
and the offsets of the entries visited. -/
def iterWalk (increment : LogLayout → Nat → Nat) (a : LogLayout) (fuel : Nat) :
    Option (Nat × List Nat) :=
  stopped (fun entry => entry != a.logOffset) (iterLoop increment a fuel)

/-- The loop of `recover`, once it has left the records behind. -/
def recoverWalk (a : LogLayout) (fuel : Nat) : Option (Nat × List Nat) :=
  stopped (fun curOff => curOff < a.logOffset) (recoverLoop a fuel)

/-- The walk visits the entries `es` and arrives at `end()`. -/
def Visits (a : LogLayout) (walk : Nat → Option (Nat × List Nat)) (es : List ScannedEntry) : Prop :=
  ∃ fuel visited, walk fuel = some (a.logOffset, visited) ∧ visited.map (scannedAt a) = es

/-- All three visit the same entries and arrive at `end()`. -/
def WalkersAgree (a : LogLayout) : Prop :=
  ∃ es, Visits a (iterWalk preIncrement a) es ∧ Visits a (iterWalk postIncrement a) es ∧
    Visits a (recoverWalk a) es

/-! ## what the loops visit -/

section Records

variable {a : LogLayout} {rs : List SavedRange}

/-- A loop that reads the records and stops where they end visits them. -/
theorem visits_of_loop {more : Nat → Bool} {loop : Nat → List Nat × Nat}
    (h : (loop a.logOffset).1.map (savedAt a) = rs ∧ (loop a.logOffset).2 = a.logOffset)
    (hstop : more a.logOffset = false) :
    Visits a (fun fuel => stopped more (loop fuel)) (rs.map SavedRange.entry) := by
  obtain ⟨hsaved, hend⟩ := h
  refine ⟨a.logOffset, (loop a.logOffset).1, ?_, ?_⟩
  · simp [stopped, hend, hstop]
  · rw [map_scannedAt, hsaved]

/-- The prefix increment reads the encoded records and arrives at `end()`. -/
theorem Encodes.iterLoop_eq (h : Encodes a.content 0 rs a.logOffset) :
    (iterLoop preIncrement a a.logOffset).1.map (savedAt a) = rs ∧
      (iterLoop preIncrement a a.logOffset).2 = a.logOffset :=
  h.walk_eq (fun off hoff => by simpa using Nat.ne_of_lt hoff) (by simp)
    (fun off => by unfold preIncrement; omega) (by omega)

theorem visits_preIncrement (h : Encodes a.content 0 rs a.logOffset) :
    Visits a (iterWalk preIncrement a) (rs.map SavedRange.entry) :=
  visits_of_loop h.iterLoop_eq (by simp)

theorem visits_recover (h : Encodes a.content 0 rs a.logOffset) :
    Visits a (recoverWalk a) (rs.map SavedRange.entry) :=
  visits_of_loop h.recoverLoop_eq (by simp)

/-- The loop of `recover` ends on any log. -/
theorem recoverWalk_eq (a : LogLayout) :
    recoverWalk a a.logOffset = some ((scan a).2, entryOffsets a) := by
  have hsz : 0 < sizeofLogEntry := by decide
  have hend : a.logOffset ≤ (recoverLoop a a.logOffset).2 :=
    le_walk_snd (fun i _ => by omega) (by omega)
  simp [recoverWalk, stopped, Nat.not_lt.mpr hend, scan, entryOffsets]

/-- The entries `snapshot` goes over are those the prefix increment visits. -/
theorem layoutEntries_of_encodes (h : Encodes a.content 0 rs a.logOffset) :
    layoutEntries a = (rs.map SavedRange.entry).map fun e => ⟨e.addr, e.bytes⟩ := by
  rw [← h.iterLoop_eq.1, ← map_scannedAt, List.map_map]
  rfl

/-! ## where a walker arrives -/

/-- A walker that arrives at `end()` has advanced by the sum of its jumps. -/
theorem Visits.logOffset_eq {more : Nat → Bool} {next : Nat → Nat} {es : List ScannedEntry}
    (h : Visits a (fun fuel => stopped more (walk more next fuel 0)) es)
    (header : Nat) (hnext : ∀ off, next off = off + (Log.entryBytes a.content off + header)) :
    a.logOffset = (es.map fun e => e.bytes + header).sum := by
  obtain ⟨fuel, visited, hloop, rfl⟩ := h
  obtain rfl : next = fun off => off + (Log.entryBytes a.content off + header) := funext hnext
  simp only [stopped, Option.ite_none_left_eq_some, Option.some.injEq, Prod.mk.injEq] at hloop
  obtain ⟨-, hend, rfl⟩ := hloop
  have hsum := walk_snd more (fun off => Log.entryBytes a.content off + header) fuel 0
  rw [hend, Nat.zero_add] at hsum
  simpa [scannedAt, Function.comp_def] using hsum

/-- Walkers that add different headers arrive together only if they visit
nothing. -/
theorem eq_nil_of_sum_eq {es : List ScannedEntry}
    (h : (es.map fun e => e.bytes + sizeofLogEntry).sum = (es.map fun e => e.bytes + 0).sum) :
    es = [] := by
  have hlen : es.length * 10 = 0 := by simpa [List.sum_map_add, sizeofLogEntry] using h
  exact List.eq_nil_of_length_eq_zero (by omega)

/-- The walkers agree on a log without records only. -/
theorem WalkersAgree.eq_nil (h : WalkersAgree a) (henc : Encodes a.content 0 rs a.logOffset) :
    rs = [] := by
  obtain ⟨es, hpre, hpost, -⟩ := h
  have hfull := hpre.logOffset_eq sizeofLogEntry (fun off => by unfold preIncrement; omega)
  have hbare := hpost.logOffset_eq 0 (fun off => rfl)
  have hnil : es = [] := eq_nil_of_sum_eq (hfull.symm.trans hbare)
  subst hnil
  cases rs with
  | nil => rfl
  | cons r rs =>
      have hsz : 0 < sizeofLogEntry := by decide
      have hle := henc.2.2.le
      simp only [List.map_nil, List.sum_nil] at hfull
      omega

end Records

/-! ## the three together -/

/-- **The log walkers**: on every well-formed log the loop over the prefix
increment and the loop of `recover` visit the records in order and arrive at
`end()`; the loop over the postfix increment does so too exactly when there
are no records. -/
theorem walkers_agree_iff {a : LogLayout} {rs : List SavedRange}
    (h : Encodes a.content 0 rs a.logOffset) :
    Visits a (iterWalk preIncrement a) (rs.map SavedRange.entry) ∧
      Visits a (recoverWalk a) (rs.map SavedRange.entry) ∧ (WalkersAgree a ↔ rs = []) := by
  refine ⟨visits_preIncrement h, visits_recover h, fun hagree => hagree.eq_nil h, ?_⟩
  rintro rfl
  have hzero : 0 = a.logOffset := h
  have hpost : Visits a (iterWalk postIncrement a) [] :=
    ⟨0, [], by simp [iterWalk, iterLoop, walk, stopped, ← hzero], rfl⟩
  exact ⟨[], visits_preIncrement h, hpost, visits_recover h⟩

/-- A fresh log with the records of two stores. -/
def twoRecords : Log.Run :=
  (Log.Run.mk (Log.fresh 1) ⟨fun _ => Log.freshArea, fun _ => 0⟩ []).calls .volatile 0
    [⟨fun _ => 7, 2 ^ 40, 3⟩, ⟨fun _ => 8, 2 ^ 40 + 1, 2⟩]

theorem encodes_twoRecords : Encodes (twoRecords.pm.area 0).content 0
    [⟨2 ^ 40, [7, 7, 7]⟩, ⟨2 ^ 40 + 1, [8, 8]⟩] (twoRecords.pm.area 0).logOffset := by
  unfold twoRecords
  simp only [Encodes]
  decide

/-- A log with two records: both walkers that add the header visit them, and
the third does not. -/
theorem walkers_agree_two_records :
    ¬ WalkersAgree (twoRecords.pm.area 0) ∧
      Visits (twoRecords.pm.area 0) (iterWalk preIncrement (twoRecords.pm.area 0))
        [⟨2 ^ 40, 3, [7, 7, 7]⟩, ⟨2 ^ 40 + 1, 2, [8, 8]⟩] := by
  have hwalk := walkers_agree_iff encodes_twoRecords
  refine ⟨fun hagree => ?_, by simpa [SavedRange.entry] using hwalk.1⟩
  simpa using hwalk.2.2.mp hagree

/-- A fresh log with the record of one 8-byte store to zeroed memory. -/
def oneRecord : Log.Run :=
  (Log.Run.mk (Log.fresh 1) ⟨fun _ => Log.freshArea, fun _ => 0⟩ []).calls .volatile 0
    [⟨fun _ => 0, 2 ^ 40, 8⟩]

theorem encodes_oneRecord : Encodes (oneRecord.pm.area 0).content 0
    [⟨2 ^ 40, List.replicate 8 0⟩] (oneRecord.pm.area 0).logOffset := by
  simp only [Encodes]
  decide

/-- The log of one 8-byte store: the postfix increment goes from the start of
the record into its address field, finds a length of 0 there and stays. -/
theorem postIncrement_stuck :
    Encodes (oneRecord.pm.area 0).content 0 [⟨2 ^ 40, List.replicate 8 0⟩]
        (oneRecord.pm.area 0).logOffset ∧
      (∀ fuel, iterWalk postIncrement (oneRecord.pm.area 0) fuel = none) ∧
      ¬ WalkersAgree (oneRecord.pm.area 0) := by
  refine ⟨encodes_oneRecord, ?_, fun hagree => by simpa using hagree.eq_nil encodes_oneRecord⟩
  intro fuel
  have hlo : (oneRecord.pm.area 0).logOffset = 18 := by decide
  have hfirst : postIncrement (oneRecord.pm.area 0) 0 = 8 := by decide
  have hstay : postIncrement (oneRecord.pm.area 0) 8 = 8 := by decide
  have hat : (iterLoop postIncrement (oneRecord.pm.area 0) fuel).2 = 0 ∨
      (iterLoop postIncrement (oneRecord.pm.area 0) fuel).2 = 8 := by
    refine walk_invariant (I := fun i => i = 0 ∨ i = 8) ?_ (.inl rfl)
    rintro i (rfl | rfl) -
    · exact .inr hfirst
    · exact .inr hstay
  rw [iterWalk, stopped, if_pos]
  cases hat with
  | inl h0 => rw [h0, hlo]; rfl
  | inr h8 => rw [h8, hlo]; rfl

end Cxlbuf
