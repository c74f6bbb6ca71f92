import Cxlbuf.Container.Vector
import Cxlbuf.Lib.Memory

/-!
# Cxlbuf.Container.String

The persistent string (`string.hh`).  An object has 32 bytes: a word, and 24
bytes that are the text and its NUL for a short string (`SSO_SZ`), and the
pointer and the capacity of a vector for a long one.  The word is a size of 63
bits and a flag for the short form; it is also the first field of the vector
(`toVec`, `setVec`).

A vector that is made of a long string has its NUL as an element, so that the
word is left one larger than the size that was stored in it before: `size()`
and `operator==` are right for short strings only.  That holds over whole
programs that make strings, copy them and move them (`Good.step`).
-/

namespace Cxlbuf.Container

open Blocks ByteMem Run

/-! ## the code -/

/-- A `std::string`, which has at most `max_size()` characters. -/
structure StdString where
  bytes : List UInt8
  length_lt : bytes.length + 1 < 2 ^ 63
  deriving DecidableEq

/-- `c_str()`, with the NUL. -/
def StdString.cStr (s : StdString) : List UInt8 := s.bytes ++ [0]

/-- `obj::string`. -/
structure Str where
  sz : BitVec 63
  isSsoUsed : Bool
  payload : List UInt8
  length_payload : payload.length = 24

namespace Str

/-- `SSO_SZ`. -/
def ssoSz : Nat := 24 - 1

/-- The object as a vector. -/
def toVec (o : Str) : Vec where
  size := o.sz.toNat + if o.isSsoUsed then 2 ^ 63 else 0
  content := ofLE (o.payload.take 8)
  capacity := ofLE ((o.payload.drop 8).take 8)

/-- Store the fields of the vector, which leaves the last 8 bytes. -/
def setVec (o : Str) (v : Vec) : Str where
  sz := BitVec.ofNat 63 v.size
  isSsoUsed := v.size.testBit 63
  payload := toLE 8 v.content ++ toLE 8 v.capacity ++ o.payload.drop 16
  length_payload := by simp [o.length_payload]

/-- `size()`. -/
def size (o : Str) : Nat := o.sz.toNat

/-- `sso_init(str)` of a `std::string`. -/
def ssoInit (o : Str) (s : StdString) (hs : s.bytes.length ≤ ssoSz) : Str where
  sz := o.sz
  isSsoUsed := true
  payload := s.cStr ++ o.payload.drop s.cStr.length
  length_payload := by
    simp only [StdString.cStr, List.length_append, List.length_drop, List.length_singleton,
      o.length_payload]
    unfold ssoSz at hs
    omega

/-- `sso_init(str)` of a string: all its bytes. -/
def ssoCopy (src : Str) : Str := { src with isSsoUsed := true }

variable (h : Heap UInt8)

/-- The fields of the vector are set, and then `is_sso_used = 0`. -/
def setLong (o : Str) (v : Vec) : Str := { o.setVec v with isSsoUsed := false }

/-- `init(res, str)` of a `std::string`. -/
def init (o : Str) (s : StdString) (a : Alloc UInt8) : Option (Str × Heap UInt8) :=
  let o := { o with sz := BitVec.ofNat 63 s.bytes.length }
  if hs : s.bytes.length ≤ ssoSz then some (o.ssoInit s hs, h)
  else (Vec.initElems (.plain true) h s.cStr a).map fun r => (o.setLong r.1, r.2)

/-- `init(res, str)` of another string. -/
def copyInit (o src : Str) (a : Alloc UInt8) : Option (Str × Heap UInt8) :=
  let o := { o with sz := BitVec.ofNat 63 src.size }
  if src.size ≤ ssoSz then some (src.ssoCopy, h)
  else (Vec.copyInit (.plain true) h src.toVec false a).map fun r => (o.setLong r.1, r.2)

/-- `init(res, std::move(str))` of another string, and what it leaves there. -/
def moveInit (o src : Str) : Str × Str :=
  let o := { o with sz := BitVec.ofNat 63 src.size }
  if src.size ≤ ssoSz then (src.ssoCopy, src)
  else (o.setLong src.toVec, src.setVec Vec.null)

/-- What is behind `c_str()`. -/
def cStr (o : Str) : Option (List UInt8) :=
  if o.isSsoUsed then some o.payload else cells h o.toVec.content

/-- `operator==`.  Its two branches differ in where the characters are. -/
def eqStd (o : Str) (s : StdString) : Option Bool :=
  if s.bytes.length ≠ o.size then some false
  else (o.cStr h).bind fun c =>
    if s.bytes.length ≤ c.length then some (c.take s.bytes.length == s.bytes) else none

end Str

/-! ## what an object represents -/

/-- What `size()`, `operator==` and `c_str()` should say of a string. -/
structure Represents (h : Heap UInt8) (o : Str) (s : StdString) : Prop where
  size_eq : o.size = s.bytes.length
  eqStd_eq : ∀ t, o.eqStd h t = some (decide (t = s))
  cStr_eq : ∃ rest, o.cStr h = some (s.cStr ++ rest)

/-- The size and the characters decide. -/
theorem represents_of_cStr {h : Heap UInt8} {o : Str} {s : StdString} {rest : List UInt8}
    (hsize : o.size = s.bytes.length) (hchars : o.cStr h = some (s.cStr ++ rest)) :
    Represents h o s := by
  refine ⟨hsize, fun t => ?_, rest, hchars⟩
  unfold Str.eqStd
  by_cases hlen : t.bytes.length = s.bytes.length
  · have hle : t.bytes.length ≤ (s.cStr ++ rest).length := by simp [StdString.cStr, hlen]
    have htake : (s.cStr ++ rest).take t.bytes.length = s.bytes := by
      simp [StdString.cStr, hlen]
    have heq : t = s ↔ s.bytes = t.bytes := by
      rw [StdString.mk.injEq]
      exact eq_comm
    rw [if_neg (by simp [hsize, hlen]), hchars, Option.bind_some, if_pos hle, htake]
    simp [heq, Bool.beq_eq_decide_eq]
  · have hne : t ≠ s := fun heq => hlen (heq ▸ rfl)
    rw [if_pos (by simpa [hsize] using hlen), decide_eq_false hne]

/-! ## the layout -/

theorem toVec_setLong (o : Str) {v : Vec} (hsize : v.size < 2 ^ 63) (hcontent : v.content < 2 ^ 64)
    (hcapacity : v.capacity < 2 ^ 64) : (o.setLong v).toVec = v := by
  have htake : (toLE 8 v.content ++ toLE 8 v.capacity ++ o.payload.drop 16).take 8 =
      toLE 8 v.content := by
    rw [List.append_assoc, List.take_left' (length_toLE 8 _)]
  have hdrop : ((toLE 8 v.content ++ toLE 8 v.capacity ++ o.payload.drop 16).drop 8).take 8 =
      toLE 8 v.capacity := by
    rw [List.append_assoc, List.drop_left' (length_toLE 8 _), List.take_left' (length_toLE 8 _)]
  simp only [Str.setLong, Str.setVec, Str.toVec, htake, hdrop, ofLE_toLE, BitVec.toNat_ofNat,
    Nat.mod_eq_of_lt hsize, Nat.mod_eq_of_lt (show v.content < 256 ^ 8 from hcontent),
    Nat.mod_eq_of_lt (show v.capacity < 256 ^ 8 from hcapacity), Bool.false_eq_true, if_false,
    Nat.add_zero]

theorem content_toVec_lt (o : Str) : o.toVec.content < 2 ^ 64 := by
  have hlt := ofLE_lt (o.payload.take 8)
  simpa [Str.toVec, o.length_payload] using hlt

theorem capacity_toVec_lt (o : Str) : o.toVec.capacity < 2 ^ 64 := by
  have hlt := ofLE_lt ((o.payload.drop 8).take 8)
  simpa [Str.toVec, o.length_payload] using hlt

/-! ## programs with several strings -/

/-- Strings by number, over one heap. -/
structure Strings where
  heap : Heap UInt8
  objs : Nat → Str

/-- A string is made of a `std::string`, or of another string. -/
inductive StrOp where
  | init (i : Nat) (s : StdString) (a : Alloc UInt8)
  | copyInit (dst src : Nat) (a : Alloc UInt8)
  | moveInit (dst src : Nat)

namespace Strings

/-- A string and the heap are replaced. -/
def set (st : Strings) (i : Nat) (r : Str × Heap UInt8) : Strings :=
  ⟨r.2, Function.update st.objs i r.1⟩

/-- An operation of the program. -/
def exec (st : Strings) : StrOp → Option Strings
  | .init i s a => ((st.objs i).init st.heap s a).map (st.set i)
  | .copyInit dst src a => ((st.objs dst).copyInit st.heap (st.objs src) a).map (st.set dst)
  | .moveInit dst src =>
      let r := (st.objs dst).moveInit (st.objs src)
      some { st with objs := Function.update (Function.update st.objs dst r.1) src r.2 }

end Strings

/-- The `std::string` that each object was made from, if any. -/
abbrev Sources := Nat → Option StdString

/-- An object has the source of what it is made from.  One that was moved from
has none. -/
def Sources.after (g : Sources) : StrOp → Sources
  | .init i s _ => Function.update g i (some s)
  | .copyInit dst src _ => Function.update g dst (g src)
  | .moveInit dst src => Function.update (Function.update g dst (g src)) src none

/-- An operation on the objects, and on their sources. -/
def stepStrings (st : Strings × Sources) (op : StrOp) : Option (Strings × Sources) :=
  (st.1.exec op).map fun s => (s, st.2.after op)

/-- A block at an address that is not in use, of the size that was asked for. -/
def Given (h : Heap UInt8) (a : Alloc UInt8) (n : Nat) : Prop :=
  h a.ptr = none ∧ a.cells.length = n ∧ a.ptr < 2 ^ 64

/-- A string is made from another one that has a source, and is given a block if
it needs one. -/
def Allowed (st : Strings × Sources) : StrOp → Prop
  | .init _ s a => Str.ssoSz < s.bytes.length → Given st.1.heap a (s.cStr.length * 2)
  | .copyInit dst src a => dst ≠ src ∧ (st.2 src).isSome ∧
      (Str.ssoSz < (st.1.objs src).size → Given st.1.heap a (st.1.objs src).toVec.capacity)
  | .moveInit dst src => dst ≠ src ∧ (st.2 src).isSome

/-! ### the buffers of long strings -/

/-- The text that is in a buffer. -/
def textOf : Option StdString → List UInt8
  | none => []
  | some s => if s.bytes.length ≤ Str.ssoSz then [] else s.cStr

/-- The vector that it is in. -/
def bufferOf (o : Str) : Option StdString → Vec
  | none => Vec.null
  | some s => if s.bytes.length ≤ Str.ssoSz then Vec.null else o.toVec

/-- The vectors of the strings. -/
def buffers (st : Strings) (g : Sources) : Store UInt8 :=
  ⟨st.heap, fun i => bufferOf (st.objs i) (g i)⟩

/-- A short string has its size and its text in the object, a long one not. -/
def Encodes (o : Str) (s : StdString) : Prop :=
  if s.bytes.length ≤ Str.ssoSz then
    o.size = s.bytes.length ∧ o.isSsoUsed = true ∧ ∃ rest, o.payload = s.cStr ++ rest
  else o.isSsoUsed = false

/-- Every object with a source encodes it, and long texts are in buffers of their
own. -/
structure Good (st : Strings × Sources) : Prop where
  models : Models (buffers st.1 st.2) fun i => textOf (st.2 i)
  encodes : ∀ i s, st.2 i = some s → Encodes (st.1.objs i) s

section Long

variable {o : Str} {s : StdString} {h : Heap UInt8}

theorem encodes_short (hs : s.bytes.length ≤ Str.ssoSz) :
    Encodes o s ↔ o.size = s.bytes.length ∧ o.isSsoUsed = true ∧
      ∃ rest, o.payload = s.cStr ++ rest := by
  rw [Encodes, if_pos hs]

theorem encodes_long (hs : ¬ s.bytes.length ≤ Str.ssoSz) :
    Encodes o s ↔ o.isSsoUsed = false := by
  rw [Encodes, if_neg hs]

/-- The size of a long string counts the NUL. -/
theorem size_long (hs : ¬ s.bytes.length ≤ Str.ssoSz) (he : Encodes o s)
    (hv : Holds h o.toVec s.cStr) : o.size = s.bytes.length + 1 := by
  have hlen := hv.length_eq
  rw [Str.toVec, (encodes_long hs).mp he] at hlen
  simpa [Str.size, StdString.cStr] using hlen.symm

/-- **An object represents its source exactly when that is short.** -/
theorem represents_iff (he : Encodes o s) (hv : Holds h (bufferOf o (some s)) (textOf (some s))) :
    Represents h o s ↔ s.bytes.length ≤ Str.ssoSz := by
  by_cases hs : s.bytes.length ≤ Str.ssoSz
  · obtain ⟨hsize, hsso, rest, hpayload⟩ := (encodes_short hs).mp he
    have hchars : o.cStr h = some (s.cStr ++ rest) := by rw [Str.cStr, if_pos hsso, hpayload]
    exact iff_of_true (represents_of_cStr hsize hchars) hs
  · rw [bufferOf, textOf, if_neg hs, if_neg hs] at hv
    have hsize := size_long hs he hv
    refine iff_of_false (fun hr => ?_) hs
    have hsize' := hr.size_eq
    omega

/-- The code chooses the form of the source, also from the size that it finds
there. -/
theorem size_le_iff (he : Encodes o s) (hv : Holds h (bufferOf o (some s)) (textOf (some s))) :
    o.size ≤ Str.ssoSz ↔ s.bytes.length ≤ Str.ssoSz := by
  by_cases hs : s.bytes.length ≤ Str.ssoSz
  · rw [((encodes_short hs).mp he).1]
  · rw [bufferOf, textOf, if_neg hs, if_neg hs] at hv
    have hsize := size_long hs he hv
    omega

end Long

/-! ### the steps -/

section Steps

variable {st : Strings × Sources}

theorem buffers_set (st : Strings) (g : Sources) (i : Nat) (o : Str) (h : Heap UInt8)
    (x : Option StdString) : buffers (st.set i (o, h)) (Function.update g i x) =
      (buffers st g).set i (bufferOf o x, h) := by
  simp only [buffers, Strings.set, Store.set, Store.mk.injEq, true_and]
  funext j
  by_cases hj : j = i <;> simp [hj]

theorem texts_update (g : Sources) (i : Nat) (x : Option StdString) :
    (fun j => textOf (Function.update g i x j)) =
      Function.update (fun j => textOf (g j)) i (textOf x) := by
  funext j
  by_cases hj : j = i <;> simp [hj]

/-- What is known of an object that has a source. -/
theorem Good.source (hgood : Good st) {i : Nat} {s : StdString} (hs : st.2 i = some s) :
    Encodes (st.1.objs i) s ∧
      Holds st.1.heap (bufferOf (st.1.objs i) (some s)) (textOf (some s)) := by
  have hv := hgood.models.holds i
  simp only [buffers, hs] at hv
  exact ⟨hgood.encodes i s hs, hv⟩

/-- One object is replaced. -/
theorem Good.set (hgood : Good st) {i : Nat} {o : Str} {h : Heap UInt8} {x : Option StdString}
    (hm : Models ((buffers st.1 st.2).set i (bufferOf o x, h))
      (Function.update (fun j => textOf (st.2 j)) i (textOf x)))
    (he : ∀ s, x = some s → Encodes o s) :
    Good (st.1.set i (o, h), Function.update st.2 i x) where
  models := by
    rw [buffers_set, texts_update]
    exact hm
  encodes j s hs := by
    by_cases hj : j = i
    · subst hj
      simp only [Strings.set, Function.update_self] at hs ⊢
      exact he s hs
    · simp only [Strings.set, Function.update_of_ne hj] at hs ⊢
      exact hgood.encodes j s hs

theorem bufferOf_short {s : StdString} (hs : s.bytes.length ≤ Str.ssoSz) (o : Str) :
    bufferOf o (some s) = Vec.null := if_pos hs

theorem bufferOf_long {s : StdString} (hs : ¬ s.bytes.length ≤ Str.ssoSz) (o : Str) :
    bufferOf o (some s) = o.toVec := if_neg hs

theorem textOf_short {s : StdString} (hs : s.bytes.length ≤ Str.ssoSz) : textOf (some s) = [] :=
  if_pos hs

theorem textOf_long {s : StdString} (hs : ¬ s.bytes.length ≤ Str.ssoSz) :
    textOf (some s) = s.cStr := if_neg hs

/-- A short string is put into an object. -/
theorem Good.setShort (hgood : Good st) {s : StdString} (hs : s.bytes.length ≤ Str.ssoSz) {i : Nat}
    {o : Str} (he : Encodes o s) :
    Good (st.1.set i (o, st.1.heap), Function.update st.2 i (some s)) := by
  refine hgood.set ?_ fun t ht => Option.some.inj ht ▸ he
  rw [bufferOf_short hs, textOf_short hs]
  exact hgood.models.clear i

/-- A long string is put into an object, with a buffer that has its text. -/
theorem Good.setLong (hgood : Good st) {s : StdString} (hs : ¬ s.bytes.length ≤ Str.ssoSz)
    {i : Nat} (o : Str) {v : Vec} {h : Heap UInt8} (hcontent : v.content < 2 ^ 64)
    (hcapacity : v.capacity < 2 ^ 64)
    (hm : Models ((buffers st.1 st.2).set i (v, h))
      (Function.update (fun j => textOf (st.2 j)) i s.cStr)) :
    Good (st.1.set i (o.setLong v, h), Function.update st.2 i (some s)) := by
  have hsize : v.size < 2 ^ 63 := by
    have hlen := (hm.holds i).length_eq
    simp only [Store.set, Function.update_self, StdString.cStr, List.length_append,
      List.length_singleton] at hlen
    have hmax := s.length_lt
    omega
  refine hgood.set ?_ fun t ht => ?_
  · rw [bufferOf_long hs, textOf_long hs, toVec_setLong o hsize hcontent hcapacity]
    exact hm
  · rw [← Option.some.inj ht, encodes_long hs]
    rfl

theorem encodes_ssoInit (o : Str) {s : StdString} (hs : s.bytes.length ≤ Str.ssoSz) :
    Encodes ({ o with sz := BitVec.ofNat 63 s.bytes.length }.ssoInit s hs) s := by
  have hmax := s.length_lt
  have hsize : s.bytes.length % 2 ^ 63 = s.bytes.length := Nat.mod_eq_of_lt (by omega)
  rw [encodes_short hs]
  exact ⟨by simp only [Str.size, Str.ssoInit, BitVec.toNat_ofNat, hsize], rfl, _, rfl⟩

theorem encodes_ssoCopy {o : Str} {s : StdString} (hs : s.bytes.length ≤ Str.ssoSz)
    (he : Encodes o s) : Encodes o.ssoCopy s := by
  rw [encodes_short hs] at he ⊢
  exact ⟨he.1, rfl, he.2.2⟩

theorem Good.init (hgood : Good st) {i : Nat} {s : StdString} {a : Alloc UInt8}
    (ha : Allowed st (.init i s a)) :
    ∃ st', stepStrings st (.init i s a) = some st' ∧ Good st' := by
  by_cases hs : s.bytes.length ≤ Str.ssoSz
  · have hinit : (st.1.objs i).init st.1.heap s a = some (_, st.1.heap) := dif_pos hs
    refine ⟨_, by rw [stepStrings, Strings.exec, hinit]; rfl, hgood.setShort hs ?_⟩
    exact encodes_ssoInit _ hs
  · obtain ⟨hfree, hlen, hptr⟩ := ha (by omega)
    obtain ⟨c, hvec, hclen, htake⟩ := initElems_eq (.plain true) (h := st.1.heap) hlen
    refine ⟨_, by rw [stepStrings, Strings.exec, Str.init, dif_neg hs, hvec]; rfl,
      hgood.setLong hs _ hptr ?_ ?_⟩
    · have hmax := s.length_lt
      simp only [StdString.cStr, List.length_append, List.length_singleton]
      omega
    · have hnew := hgood.models.setNew (i := i) (v := ⟨s.cStr.length, a.ptr, s.cStr.length * 2⟩)
        hfree rfl (show s.cStr.length ≤ s.cStr.length * 2 by omega) hclen
      rw [htake] at hnew
      exact hnew

theorem Good.copyInit (hgood : Good st) {dst src : Nat} {a : Alloc UInt8}
    (ha : Allowed st (.copyInit dst src a)) :
    ∃ st', stepStrings st (.copyInit dst src a) = some st' ∧ Good st' := by
  obtain ⟨-, hsome, hgiven⟩ := ha
  obtain ⟨s, hsrc⟩ := Option.isSome_iff_exists.mp hsome
  obtain ⟨he, hv⟩ := hgood.source hsrc
  have hform := size_le_iff he hv
  by_cases hs : s.bytes.length ≤ Str.ssoSz
  · have hgood' := hgood.setShort (i := dst) hs (encodes_ssoCopy hs he)
    rw [← hsrc] at hgood'
    refine ⟨_, ?_, hgood'⟩
    rw [stepStrings, Strings.exec, Str.copyInit, if_pos (hform.mpr hs)]
    rfl
  · obtain ⟨hfree, hlen, hptr⟩ := hgiven (by omega)
    have hfresh := hgood.models.content_ne hfree src
    simp only [buffers, hsrc] at hfresh
    rw [bufferOf_long hs, textOf_long hs] at hv
    rw [bufferOf_long hs] at hfresh
    obtain ⟨c, hvec, hclen, htake⟩ := copyInit_eq (.plain true) false hv hfresh hlen
    have hnew := hgood.models.setNew (i := dst)
      (v := ⟨(st.1.objs src).toVec.size, a.ptr, (st.1.objs src).toVec.capacity⟩) hfree rfl
      hv.size_le hclen
    rw [htake] at hnew
    have hgood' := hgood.setLong
      (v := ⟨(st.1.objs src).toVec.size, a.ptr, (st.1.objs src).toVec.capacity⟩) hs
      { st.1.objs dst with sz := BitVec.ofNat 63 (st.1.objs src).size } hptr
      (capacity_toVec_lt (st.1.objs src)) hnew
    rw [← hsrc] at hgood'
    refine ⟨_, ?_, hgood'⟩
    rw [stepStrings, Strings.exec, Str.copyInit, if_neg (fun hle => hs (hform.mp hle)), hvec]
    rfl

theorem Good.moveInit (hgood : Good st) {dst src : Nat} (ha : Allowed st (.moveInit dst src)) :
    ∃ st', stepStrings st (.moveInit dst src) = some st' ∧ Good st' := by
  obtain ⟨hds, hsome⟩ := ha
  obtain ⟨s, hsrc⟩ := Option.isSome_iff_exists.mp hsome
  obtain ⟨he, hv⟩ := hgood.source hsrc
  have hform := size_le_iff he hv
  -- the source is left without a string first, as in `Models.give`
  have hleft (o : Str) : Good (st.1.set src (o, st.1.heap), Function.update st.2 src none) :=
    hgood.set (hgood.models.clear src) fun _ h => nomatch h
  refine ⟨_, rfl, ?_⟩
  simp only [Sources.after, Function.update_comm hds, hsrc, Str.moveInit]
  by_cases hs : s.bytes.length ≤ Str.ssoSz
  · rw [if_pos (hform.mpr hs)]
    exact (hleft (st.1.objs src)).setShort (i := dst) hs (encodes_ssoCopy hs he)
  · rw [if_neg (fun hle => hs (hform.mp hle))]
    refine (hleft ((st.1.objs src).setVec Vec.null)).setLong hs _ (content_toVec_lt _)
      (capacity_toVec_lt _) ?_
    have hgive := hgood.models.give hds
    simp only [buffers, hsrc, bufferOf_long hs, textOf_long hs] at hgive
    rw [buffers_set, texts_update]
    exact hgive

/-- **Every step keeps objects and sources together.** -/
theorem Good.step : Keeps stepStrings Good Allowed := by
  intro st op hgood ha
  cases op with
  | init i s a => exact hgood.init ha
  | copyInit dst src a => exact hgood.copyInit ha
  | moveInit dst src => exact hgood.moveInit ha

end Steps

/-- There are objects, with anything in them, and no strings. -/
theorem good_start (objs : Nat → Str) : Good (⟨fun _ => none, objs⟩, fun _ => none) where
  models := ⟨fun _ => holds_null _, fun _ _ _ hne => absurd rfl hne⟩
  encodes _ _ hs := nomatch hs

/-- **Every program completes, and in the end an object represents the string it
was made from exactly when that has at most 23 characters.** -/
theorem string_represents_iff (objs : Nat → Str) (ops : List StrOp)
    (ha : Guarded stepStrings Allowed (⟨fun _ => none, objs⟩, fun _ => none) ops) :
    ∃ st, run stepStrings (⟨fun _ => none, objs⟩, fun _ => none) ops = some st ∧
      ∀ i s, st.2 i = some s → (Represents st.1.heap (st.1.objs i) s ↔ s.bytes.length ≤ 23) := by
  obtain ⟨st, hrun, hgood⟩ := Good.step.run (good_start objs) ha
  refine ⟨st, hrun, fun i s hs => ?_⟩
  obtain ⟨he, hv⟩ := hgood.source hs
  exact represents_iff he hv

theorem length_letters_lt {n : Nat} (hn : n ≤ 24) :
    (List.replicate n (97 : UInt8)).length + 1 < 2 ^ 63 := by
  rw [List.length_replicate]
  omega

/-- A text of `n` letters. -/
def letters (n : Nat) (hn : n ≤ 24) : StdString := ⟨List.replicate n 97, length_letters_lt hn⟩

/-- An object of zeros. -/
def blank : Str := ⟨0, false, List.replicate 24 0, List.length_replicate⟩

/-- A block for a text of 24 letters. -/
def blankBlock : Alloc UInt8 := ⟨4096, List.replicate 50 0, Nat.succ_ne_zero 4095⟩

/-- A string of 23 characters is made, copied, and the copy is moved. -/
def copiedAndMoved : List StrOp :=
  [.init 0 (letters 23 (Nat.le_succ 23)) blankBlock, .copyInit 1 0 blankBlock, .moveInit 2 1]

theorem string_represents_23 :
    ∃ st, run stepStrings (⟨fun _ => none, fun _ => blank⟩, fun _ => none) copiedAndMoved =
        some st ∧
      Represents st.1.heap (st.1.objs 2) (letters 23 (Nat.le_succ 23)) := by
  have hallowed : Guarded stepStrings Allowed (⟨fun _ => none, fun _ => blank⟩, fun _ => none)
      copiedAndMoved := by
    refine ⟨fun hlong => absurd hlong (by decide), fun st hst => ?_⟩
    obtain rfl := Option.some.inj hst
    refine ⟨⟨Nat.one_ne_zero, rfl, fun hlong => absurd hlong (by decide)⟩, fun st hst => ?_⟩
    obtain rfl := Option.some.inj hst
    exact ⟨⟨Nat.succ_succ_ne_one 0, rfl⟩, fun _ _ => trivial⟩
  obtain ⟨st, hrun, hall⟩ := string_represents_iff (fun _ => blank) copiedAndMoved hallowed
  have hsource : st.2 2 = some (letters 23 (Nat.le_succ 23)) := by
    obtain rfl := Option.some.inj hrun
    rfl
  exact ⟨st, hrun, (hall 2 _ hsource).mpr (by decide)⟩

/-- A string of 24 characters says that it has 25, and that it is another one. -/
theorem string_24_not_represented :
    ∃ o h, blank.init (fun _ => none) (letters 24 (Nat.le_refl 24)) blankBlock = some (o, h) ∧
      o.size = 25 ∧ o.eqStd h (letters 24 (Nat.le_refl 24)) = some false ∧
      ¬ Represents h o (letters 24 (Nat.le_refl 24)) := by
  exact ⟨_, _, rfl, by decide, by decide, fun hr => absurd hr.size_eq (by decide)⟩

end Cxlbuf.Container
