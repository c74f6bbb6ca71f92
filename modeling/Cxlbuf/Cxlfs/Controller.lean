import Cxlbuf.Cxlfs.Blkdev
import Cxlbuf.Lib.Run

/-!
# Cxlbuf.Cxlfs.Controller

The page cache of libcxlfs (`controller.cc`, `pfmonitor.cc`).  The shared
region is anonymous memory without access rights; a page gets them when it is
first touched.  The fault handler calls back into the controller, which
evicts a page if the cache is full, reads the page's blocks and hands them
back to be copied in.  An evicted page is written back without waiting for
the device.

Addresses are offsets into the region.  A process that fails an assertion, or
exits, or divides by zero is `none`.  `Env` is what the code does not control.
-/

namespace Cxlbuf.Cxlfs

open ByteMem

/-- `page_size`, in bytes. -/
def pageSize : Nat := 4096

/-- `MAX_MAPPED_PG_LOOKUP`. -/
def maxMappedPgLookup : Nat := 0x100

/-- What one action meets: the order in which `mapped_pages` is iterated over,
the pages in the sampled distribution, the number `rand` returns, whether the
device accepts the write of a page, and what it completes: when `write` polls
it, and before and with the blocking command for a page. -/
structure Env where
  order : List Nat → List Nat
  perm : ∀ ps, (order ps).Perm ps
  dist : Nat → Bool
  rand : Nat
  accept : Nat → Bool
  poll : Completion
  before : Nat → Completion
  after : Nat → Completion

/-- The controller with the shared region and the device.  A page is
`accessible` when its protection is `PROT_READ | PROT_WRITE`; `ubdWrCq` holds
the ids of write commands. -/
structure Controller where
  maxActivePgCnt : Nat
  shmPgCnt : Nat
  usedPages : Nat
  mappedPages : List Nat
  accessible : Nat → Bool
  mem : Mem
  dev : Device
  ubdWrCq : List Nat

namespace Controller

/-! ## evict_a_page -/

/-- `target_page_idx`: the last page that is not in the distribution, among
those looked at, or else a random one.  There is none to choose from when the
remainder is by zero. -/
def targetPageIdx (env : Env) (mappedPages : List Nat) : Option Nat :=
  let pages := env.order mappedPages
  match ((pages.take (maxMappedPgLookup + 2)).filter fun pg => !env.dist pg).getLast? with
  | some pg => some pg
  | none => if pages.length = 0 then none else pages[env.rand % pages.length]?

/-- The loop over the write completion queue, which frees completed entries
but for the first. -/
def reap (dev : Device) : List Nat → List Nat
  | [] => []
  | id :: ids => id :: ids.filter fun i => dev.inflight.any fun w => w.id = i

/-- The content of a page. -/
def page (c : Controller) (pg : Nat) : List UInt8 := slice c.mem (pg * pageSize) pageSize

/-- The controller after a page was evicted. -/
def evicted (env : Env) (c : Controller) (target : Nat) : Controller :=
  let dev := c.dev.write env.poll (c.page target) (target * 8) 8
  { c with
    dev := dev
    ubdWrCq := reap dev (c.ubdWrCq ++ [c.dev.nextId])
    accessible := Function.update c.accessible target false
    mappedPages := c.mappedPages.erase target
    usedPages := c.usedPages - 1 }

/-- The controller after the device refused the write of a page, which has been
copied to its buffer by then. -/
def refused (c : Controller) (target : Nat) : Controller :=
  { c with dev := c.dev.fill (c.page target) (target * 8) }

/-- `evict_a_page`.  When the device does not accept the write it returns
early, which the caller does not notice. -/
def evictAPage (env : Env) (c : Controller) : Option Controller :=
  (targetPageIdx env c.mappedPages).map fun target =>
    if env.accept target then c.evicted env target else c.refused target

/-! ## the page fault -/

/-- `map_page_from_blkdev`. -/
def mapPageFromBlkdev (env : Env) (c : Controller) (pg : Nat) : List UInt8 × Controller :=
  let (buf, dev) := c.dev.readBlocking (env.before pg) (env.after pg) (pg * 8) 8
  (buf, { c with dev := dev, mappedPages := c.mappedPages.insert pg })

/-- `notify_page_fault`. -/
def notifyPageFault (env : Env) (c : Controller) (pg : Nat) : Option (List UInt8 × Controller) :=
  if c.usedPages ≤ c.maxActivePgCnt then do
    let c ← if c.usedPages = c.maxActivePgCnt then c.evictAPage env else some c
    return mapPageFromBlkdev env { c with usedPages := c.usedPages + 1 } pg
  else none

/-- `PFMonitor::handler`, for a fault at an offset. -/
def handler (env : Env) (c : Controller) (off : Nat) : Option Controller :=
  if off < c.shmPgCnt * pageSize then do
    let pg := off / pageSize
    let (src, c) ← c.notifyPageFault env pg
    return { c with
      accessible := Function.update c.accessible pg true
      mem := write c.mem (pg * pageSize) src }
  else none

/-! ## init, flush_cache, resize_cache -/

/-- `init`: a new anonymous mapping at the same place, without access rights. -/
def init (c : Controller) (maxActivePgCnt shmPgCnt : Nat) : Controller :=
  { c with
    maxActivePgCnt := maxActivePgCnt
    shmPgCnt := shmPgCnt
    usedPages := 0
    accessible := fun _ => false
    mem := fun _ => 0 }

/-- One step of the loop of `flush_cache`. -/
def flushPage (env : Env) (c : Controller) (dev : Device) (pg : Nat) : Device :=
  dev.writeBlocking (env.before pg) (env.after pg) (c.page pg) (pg * 8) 8

/-- `flush_cache`.  A blocking write that is not accepted ends in a null
pointer. -/
def flushCache (env : Env) (c : Controller) : Option Controller :=
  if c.shmPgCnt = 0 then none
  else if (env.order c.mappedPages).all env.accept then
    let dev := (env.order c.mappedPages).foldl (c.flushPage env) c.dev
    some ({ c with dev := dev, mappedPages := [] }.init c.maxActivePgCnt c.shmPgCnt)
  else none

/-- `resize_cache`. -/
def resizeCache (env : Env) (c : Controller) (pgCnt : Nat) : Option Controller :=
  let shouldFlush := pgCnt < c.maxActivePgCnt
  let c := { c with maxActivePgCnt := pgCnt }
  if shouldFlush then c.flushCache env else some c

/-- A new controller on a device, before `init`. -/
def new (dev : Device) : Controller where
  maxActivePgCnt := 2
  shmPgCnt := 64 * 1024
  usedPages := 0
  mappedPages := []
  accessible _ := false
  mem _ := 0
  dev := dev
  ubdWrCq := []

/-! ## runs -/

/-- An access to an offset: a fault first, if the page is not accessible. -/
def access (env : Env) (c : Controller) (off : Nat) : Option Controller :=
  if c.accessible (off / pageSize) then some c else c.handler env off

end Controller

/-- What the application does.  The value a `read` returns is what memory
holds after it. -/
inductive Op where
  | read (off : Nat)
  | write (off : Nat) (b : UInt8)
  | flushCache
  | resizeCache (pgCnt : Nat)

/-- One action, with what it meets. -/
def Controller.step (c : Controller) : Op × Env → Option Controller
  | (.read off, env) => c.access env off
  | (.write off b, env) => (c.access env off).map fun c =>
      { c with mem := Function.update c.mem off b }
  | (.flushCache, env) => c.flushCache env
  | (.resizeCache pgCnt, env) => c.resizeCache env pgCnt

end Cxlbuf.Cxlfs
