import Cxlbuf.Instrument

/-!
# Cxlbuf.Instrument.Libc

The interposed libc calls.  `memcpy` and `memmove` test where the destination
starts, `memset` also where it ends, with the end of the region included, so
a range that reaches into the region from below, or contains all of it, can
pass unnoticed.
-/

namespace Cxlbuf

open ByteMem Run

/-- The interposed libc functions, with the bytes they write. -/
inductive LibcCall where
  | memcpy (s : Process.Store)
  | memmove (s : Process.Store)
  | memset (s : Process.Store)

/-- A call as a write; `memmove` makes the test of `memcpy`. -/
def LibcCall.write : LibcCall → Write
  | .memcpy s | .memmove s => .memcpy s
  | .memset s => .memset s

/-- The destination does not start below the region, or, for `memset`, does
not end above it. -/
def LibcCall.Noticed (cfg : Config) : LibcCall → Prop
  | .memcpy s | .memmove s => cfg.startAddr ≤ s.addr
  | .memset s => cfg.startAddr ≤ s.addr ∨ s.addr + s.data.length ≤ cfg.endAddr

theorem LibcCall.fits {cfg : Config} (c : LibcCall) (haddr : c.write.written.addr < 2 ^ 56)
    (hlen : c.write.written.data.length < 2 ^ 22) : c.write.Fits cfg := by
  intro _
  cases c <;> exact ⟨haddr, hlen⟩

/-- A call logs what it writes, if it logs anything. -/
theorem LibcCall.mem_loggedSet (cfg : Config) (c : LibcCall) (x : Nat) :
    x ∈ c.write.loggedSet cfg ↔ c.write.Tested cfg ∧ c.write.written.Covers x := by
  cases c <;> rfl

/-- On a range with a byte in the region, the test finds the calls that are
noticed. -/
theorem LibcCall.tested_iff {cfg : Config} {c : LibcCall} {x : Nat}
    (hx : c.write.written.Covers x) (hlo : cfg.startAddr ≤ x) (hhi : x < cfg.endAddr) :
    c.write.Tested cfg ↔ c.Noticed cfg := by
  have hpage := cfg.first_page
  cases c <;>
    simp only [write, Write.written, Process.Store.Covers, Write.Tested, Noticed, addrInRange]
      at hx ⊢ <;>
    omega

section Libc

variable {cfg : Config} {t : Nat} {p : Process} {l : Log}

/-- **When a libc write is tracked**: along every run of writes that were, a
call of `memcpy`, `memmove` or `memset`, wherever it writes, finds what its
bytes in the region held when the log was cleared in the log before it writes
them, exactly when it does not start below the region (for `memset`: or does
not end above it), or those bytes were logged before. -/
theorem libc_tracked_iff (hcxl : cfg.cxlModeEnabled = true) (hl : p.logs[t]? = some l)
    (hclr : l.Cleared (p.pm.area t)) {ws : List Write}
    (hws : Guarded (Process.perform cfg t) (WriteTracked cfg t) p ws) {q : Process}
    (hq : run (Process.perform cfg t) p ws = some q) (c : LibcCall)
    (hlen : c.write.written.data.length < 2 ^ 22) :
    (∀ x, c.write.written.Covers x → cfg.startAddr ≤ x → x < cfg.endAddr →
        oldInLog ((q.logWrite cfg t c.write).pm.area t) x = some (p.mem x)) ↔
      c.Noticed cfg ∨ ∀ x, c.write.written.Covers x → cfg.startAddr ≤ x → x < cfg.endAddr →
        (oldInLog (q.pm.area t) x).isSome := by
  obtain ⟨q', hq', l', rs, hinv⟩ :=
    (keeps_regionInv hcxl t p.mem).run ⟨l, [], .of_cleared hl hclr⟩ hws
  obtain rfl : q = q' := Option.some.inj (hq.symm.trans hq')
  by_cases htest : c.write.Tested cfg
  · -- all the bytes are logged
    have hleft : ∀ x, c.write.written.Covers x → cfg.startAddr ≤ x → x < cfg.endAddr →
        oldInLog ((q.logWrite cfg t c.write).pm.area t) x = some (p.mem x) := by
      intro x hx hlo hhi
      have hend := cfg.end_le
      have haddr : c.write.written.addr < 2 ^ 56 := Nat.lt_of_le_of_lt hx.1 (by omega)
      obtain ⟨l'', rs', hinv', hcov⟩ := hinv.logWrite hcxl (c.fits haddr hlen)
      rw [hinv'.oldInLog_eq_iff ⟨hlo, hhi⟩, hcov]
      exact .inr ((c.mem_loggedSet cfg x).mpr ⟨htest, hx⟩)
    refine ⟨fun _ => ?_, fun _ => hleft⟩
    by_cases hsome : ∃ x, c.write.written.Covers x ∧ cfg.startAddr ≤ x ∧ x < cfg.endAddr
    · obtain ⟨x, hx, hlo, hhi⟩ := hsome
      exact .inl ((LibcCall.tested_iff hx hlo hhi).mp htest)
    · exact .inr fun x hx hlo hhi => absurd ⟨x, hx, hlo, hhi⟩ hsome
  · -- nothing is logged
    have hsame : q.logWrite cfg t c.write = q := if_neg htest
    have hunnoticed {x : Nat} (hx : c.write.written.Covers x) (hlo : cfg.startAddr ≤ x)
        (hhi : x < cfg.endAddr) : ¬ c.Noticed cfg :=
      fun hnot => htest ((LibcCall.tested_iff hx hlo hhi).mpr hnot)
    rw [hsame]
    constructor
    · intro hall
      exact .inr fun x hx hlo hhi => by rw [hall x hx hlo hhi]; rfl
    · intro hor x hx hlo hhi
      have hold := (hor.resolve_left (hunnoticed hx hlo hhi)) x hx hlo hhi
      exact (hinv.oldInLog_eq_iff ⟨hlo, hhi⟩).mpr (hinv.isSome_oldInLog.mp hold)

end Libc

/-- A `memset` that ends in the region: its last byte is logged. -/
theorem libc_tracked_memset :
    oldInLog (((Process.single (fun _ => 7) fun _ => 7).logWrite .default 0
      (.memset ⟨0xfffffffff8, List.replicate 16 0⟩)).pm.area 0) 0x10000000007 = some 7 := by
  have hlog : (Process.single (fun _ => 7) fun _ => 7).logs[0]? = some (Log.fresh 1) := rfl
  have hguard : Guarded (Process.perform .default 0) (WriteTracked .default 0)
      (.single (fun _ => 7) fun _ => 7) [] := trivial
  have hiff := libc_tracked_iff (by rfl) hlog (Log.cleared_fresh 1) hguard rfl
    (.memset ⟨0xfffffffff8, List.replicate 16 0⟩) (by decide)
  exact hiff.mpr (.inl (.inr (by decide))) 0x10000000007 (by decide) (by decide) (by decide)

/-- A `memcpy` to the same place: the eight bytes in the region are written
without a record. -/
theorem libc_untracked_memcpy :
    Config.default.cxlModeEnabled = true ∧
      ¬ ∀ x, (⟨0xfffffffff8, List.replicate 16 0⟩ : Process.Store).Covers x →
        Config.default.startAddr ≤ x → x < Config.default.endAddr →
        (oldInLog (((Process.single (fun _ => 7) fun _ => 7).logWrite .default 0
          (LibcCall.memcpy ⟨0xfffffffff8, List.replicate 16 0⟩).write).pm.area 0) x).isSome := by
  refine ⟨rfl, fun hall => ?_⟩
  have hx := hall 0x10000000000 (by decide) (by decide) (by decide)
  revert hx
  decide

end Cxlbuf
