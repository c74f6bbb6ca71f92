import Mathlib.Data.List.Chain
import Cxlbuf.Log.Flush
import Cxlbuf.Recovery.Undo

/-!
# Cxlbuf.Recovery.Codec

The log as a wire format.  `log_range` writes variable-length records over
whatever the buffer held before, and the scan of `recover` reads them back
with nothing but their length fields to go by.  `scan` is that loop with the
offset it stops at; `scan_of_encodes` says that it returns the records an
area encodes and stops at `log_offset`.

The volatile format leaves out a call that repeats the one before, and a
cleared log counts as one whose last call was `(nullptr, 0)`.
-/

namespace Cxlbuf

open ByteMem

/-! ## the scan -/

/-- A record as the scan reads it. -/
structure ScannedEntry where
  addr : Nat
  bytes : Nat
  content : List UInt8
deriving DecidableEq, Repr

/-- The record at an offset of a log area. -/
def scannedAt (a : LogLayout) (off : Nat) : ScannedEntry :=
  ⟨Log.entryAddr a.content off, Log.entryBytes a.content off, Log.entryContent a.content off⟩

/-- The scan of `recover` over a log area: the records it finds and the offset
at which it leaves the loop. -/
def scan (a : LogLayout) : List ScannedEntry × Nat :=
  ((recoverLoop a a.logOffset).1.map (scannedAt a), (recoverLoop a a.logOffset).2)

/-- A saved range as the scan reads it. -/
def SavedRange.entry (r : SavedRange) : ScannedEntry := ⟨r.addr, r.old.length, r.old⟩

theorem scannedAt_eq (a : LogLayout) (off : Nat) : scannedAt a off = (savedAt a off).entry := by
  simp [scannedAt, savedAt, SavedRange.entry, Log.entryContent]

theorem map_scannedAt (a : LogLayout) (offs : List Nat) :
    offs.map (scannedAt a) = (offs.map (savedAt a)).map SavedRange.entry := by
  simp [scannedAt_eq]

/-- The scan reads the encoded records and stops where they end. -/
theorem scan_of_encodes {a : LogLayout} {rs : List SavedRange}
    (h : Encodes a.content 0 rs a.logOffset) :
    scan a = (rs.map SavedRange.entry, a.logOffset) := by
  obtain ⟨hsaved, hstop⟩ := h.recoverLoop_eq
  rw [scan, map_scannedAt, hsaved, hstop]

/-! ## what a sequence of calls encodes -/

namespace Log

/-- The range a call logs. -/
def RangeCall.range (c : RangeCall) : LogEntryLean := ⟨c.start, c.bytes⟩

/-- What a call saves. -/
def RangeCall.saved (c : RangeCall) : SavedRange := ⟨c.start, slice c.mem c.start c.bytes⟩

/-- The record a call writes. -/
def RangeCall.entry (c : RangeCall) : ScannedEntry :=
  ⟨c.start, c.bytes, slice c.mem c.start c.bytes⟩

theorem RangeCall.saved_entry (c : RangeCall) : c.saved.entry = c.entry := by
  simp [saved, SavedRange.entry, entry]

/-- The call fits the fields of a record: a user address, and less than the
`2 ^ 22` bytes `log_range` asserts. -/
def RangeCall.Fits (c : RangeCall) : Prop := c.start < 2 ^ 56 ∧ c.bytes < 2 ^ 22

instance (c : RangeCall) : Decidable c.Fits := inferInstanceAs (Decidable (_ ∧ _))

/-- The calls one after the other, none of them suppressed, add their
records in order. -/
theorem encodes_calls {fmt : LogFormat} {t : Nat} {r : Run} {rs : List SavedRange}
    {cs : List RangeCall} (hfits : ∀ c ∈ cs, c.Fits)
    (hchain : cs.IsChain fun c c' => c.range ≠ c'.range)
    (hlast : fmt = .volatile → ∀ c ∈ cs.head?, r.log.lastLog ≠ c.range)
    (htail : (r.pm.area t).tailPtr = (r.pm.area t).logOffset)
    (henc : Encodes (r.pm.area t).content 0 rs (r.pm.area t).logOffset) :
    Encodes ((r.calls fmt t cs).pm.area t).content 0 (rs ++ cs.map RangeCall.saved)
      ((r.calls fmt t cs).pm.area t).logOffset := by
  induction cs generalizing r rs with
  | nil => simpa [Run.calls] using henc
  | cons c cs ih =>
      have hc := hfits c List.mem_cons_self
      have hdup : ¬ r.log.IsDuplicate fmt c.start c.bytes := by
        simp only [IsDuplicate, not_and]
        exact fun hvol => hlast hvol c rfl
      obtain ⟨harea, -, -⟩ := Run.call_of_not_duplicate (t := t) hdup
      have hstep := encodes_appendRecord _ c.mem c.start c.bytes henc htail hc.1
        (show c.bytes < 2 ^ 23 by have := hc.2; omega)
      rw [← harea] at hstep
      have htail' : ((r.call fmt t c).pm.area t).tailPtr =
          ((r.call fmt t c).pm.area t).logOffset := by
        simp only [harea, appendRecord, htail]
      have hlast' : fmt = .volatile → ∀ c' ∈ cs.head?, (r.call fmt t c).log.lastLog ≠ c'.range := by
        intro hvol c' hc'
        simp only [Run.call, lastLog_logRange, hvol]
        exact hchain.rel_head? hc'
      have hrec := ih (fun c' hc' => hfits c' (List.mem_cons_of_mem _ hc')) hchain.tail hlast'
        htail' hstep
      rw [List.append_assoc, List.singleton_append] at hrec
      exact hrec

/-- **Log round trip**: after calls of which none repeats the one before,
the scan reads their records back in order and stops exactly at
`log_offset`, whatever the buffer held.  Under `LOG_FORMAT_VOLATILE` the
first call must not look like the last call of a cleared log. -/
theorem scan_calls (fmt : LogFormat) (t : Nat) {l : Log} {m : PmImage}
    (h : Cleared l (m.area t)) {cs : List RangeCall} (hfits : ∀ c ∈ cs, c.Fits)
    (hchain : cs.IsChain fun c c' => c.range ≠ c'.range)
    (hfirst : fmt = .volatile → ∀ c ∈ cs.head?, c.range ≠ ⟨0, 0⟩) :
    scan (((Run.mk l m []).calls fmt t cs).pm.area t) =
      (cs.map RangeCall.entry, (((Run.mk l m []).calls fmt t cs).pm.area t).logOffset) := by
  have hlast : fmt = .volatile → ∀ c ∈ cs.head?, l.lastLog ≠ c.range := by
    simp only [h.lastLog]
    exact fun hvol c hc => (hfirst hvol c hc).symm
  have htail : (m.area t).tailPtr = (m.area t).logOffset := by rw [h.tailPtr, h.logOffset]
  have henc : Encodes (m.area t).content 0 [] (m.area t).logOffset := h.logOffset.symm
  have hall := encodes_calls (r := ⟨l, m, []⟩) hfits hchain hlast htail henc
  rw [scan_of_encodes hall, List.nil_append, List.map_map]
  simp only [Function.comp_def, RangeCall.saved_entry]

/-- An area that holds stale bytes. -/
def staleArea : LogLayout := ⟨⟨.empty, 0, 0⟩, fun _ => 0xff⟩

/-- Two calls over stale bytes read back. -/
theorem scan_two_calls :
    scan (((Run.mk (fresh 1) ⟨fun _ => staleArea, fun _ => 0⟩ []).calls .volatile 0
      [⟨fun _ => 7, 2 ^ 40, 3⟩, ⟨fun _ => 8, 2 ^ 40 + 1, 2⟩]).pm.area 0) =
    ([⟨2 ^ 40, 3, [7, 7, 7]⟩, ⟨2 ^ 40 + 1, 2, [8, 8]⟩], 25) := by
  have hfits : ∀ c ∈ [(⟨fun _ => 7, 2 ^ 40, 3⟩ : RangeCall), ⟨fun _ => 8, 2 ^ 40 + 1, 2⟩],
      c.Fits := by decide
  have hclr : Cleared (fresh 1) staleArea := ⟨rfl, rfl, rfl, rfl, rfl⟩
  exact scan_calls .volatile 0 (m := ⟨fun _ => staleArea, fun _ => 0⟩) hclr hfits
    (by simp [RangeCall.range]) (by simp [RangeCall.range])

/-- A first call `(nullptr, 0)` is taken for a repetition and writes no
record, although it fits and repeats nothing. -/
theorem scan_null_call :
    (∀ c ∈ [(⟨fun _ => 0, 0, 0⟩ : RangeCall)], c.Fits) ∧
    ([⟨fun _ => 0, 0, 0⟩].IsChain fun c c' : RangeCall => c.range ≠ c'.range) ∧
    (scan (((Run.mk (fresh 1) ⟨fun _ => freshArea, fun _ => 0⟩ []).calls .volatile 0
      [⟨fun _ => 0, 0, 0⟩]).pm.area 0)).1 ≠
        [(⟨fun _ => 0, 0, 0⟩ : RangeCall)].map RangeCall.entry :=
  ⟨by decide, .singleton _, by decide⟩

end Log

end Cxlbuf
