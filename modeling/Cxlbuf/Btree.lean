import Cxlbuf.Lib.Slots

/-!
# Cxlbuf.Btree

The B-tree of the map program (`btree.hh`, `btree.cc`), over a heap of nodes.
A node is the block of words that `btree_node_t` is: the count, then the items,
then the children, so that moving items past the last one reads what stands
behind them.  Allocating a block leaves in it what was there before.

Keys, values and pointers are natural numbers, 0 is the null pointer, and a
function that follows it has no result.  The recursive functions take a bound on
the depth, which the functions of `btree_t` set to more than the number of
blocks in use.
-/

namespace Cxlbuf

namespace Btree

/-- `BTREE_ORDER`. -/
abbrev btreeOrder : Nat := 8

/-- `BTREE_MIN`. -/
abbrev btreeMin : Nat := btreeOrder / 2 - 1

/-- `btree_node_item_t`. -/
structure Item where
  key : Nat
  val : Nat
deriving DecidableEq, Repr

/-! ## blocks of memory -/

/-- The words of every block, the blocks in use, and those given back. -/
structure Heap where
  word : Nat → Nat → Nat
  live : List Nat
  freed : List Nat

/-- The allocator: which block it hands out is its own choice, but none that is in
use. -/
structure Ator where
  pick : Heap → Nat
  pick_notMem_live : ∀ h, pick h ∉ h.live
  pick_ne_zero : ∀ h, pick h ≠ 0

namespace Heap

variable (h : Heap) (p q i j n : Nat)

/-- `count`. -/
def count : Nat := h.word p 0

/-- `items[i]`. -/
def item : Item := ⟨h.word p (1 + 2 * i), h.word p (2 + 2 * i)⟩

/-- `children[i]`. -/
def child : Nat := h.word p (15 + i)

/-- Write a word. -/
def set (v : Nat) : Heap :=
  { h with word := fun q j => if q = p ∧ j = i then v else h.word q j }

/-- `memmove` or `memcpy` of `n` words to word `i` of block `p`, from word `j` of block `q`. -/
def copy : Heap :=
  { h with
    word := fun r k => if r = p ∧ i ≤ k ∧ k < i + n then h.word q (j + (k - i)) else h.word r k }

/-- `count = v`. -/
def setCount (v : Nat) : Heap := h.set p 0 v

/-- `items[i] = x`. -/
def writeItem (x : Item) : Heap := (h.set p (1 + 2 * i) x.key).set p (2 + 2 * i) x.val

/-- `children[i] = c`. -/
def setChild (c : Nat) : Heap := h.set p (15 + i) c

/-- `memmove(p->items + i, q->items + j, n)`. -/
def copyItems : Heap := h.copy p q (1 + 2 * i) (1 + 2 * j) (2 * n)

/-- `memmove(p->children + i, q->children + j, n)`. -/
def copyChildren : Heap := h.copy p q (15 + i) (15 + j) n

/-- `btree_node_t::init`. -/
def init : Heap := h.setCount p 0

/-- `btree_node_t::set_item`. -/
def setItem (x : Item) : Heap :=
  let h := h.writeItem p i x
  h.setCount p (h.count p + 1)

/-- `btree_node_t::clear`. -/
def clear : Heap := h.writeItem p i ⟨0, 0⟩

/-- `tls_res->allocate(sizeof(btree_node_t))`, which returns `a.pick h`. -/
def allocate (a : Ator) : Heap := { h with live := a.pick h :: h.live }

/-- `tls_res->deallocate(p)`. -/
def deallocate : Heap := { h with live := h.live.filter (· ≠ p), freed := p :: h.freed }

end Heap

end Btree

/-- `btree_t`, with the memory it is in. -/
structure Btree where
  heap : Btree.Heap
  root : Nat

namespace Btree

/-! ## insertion -/

/-- `insert_node`. -/
def insertNode (h : Heap) (node pos : Nat) (x : Item) (left right : Nat) : Heap :=
  let h := if (h.item node pos).key ≠ 0 then
      (h.copyItems node node (pos + 1) pos (btreeOrder - 2 - pos)).copyChildren node node
        (pos + 1) pos (btreeOrder - 1 - pos)
    else h
  ((h.setChild node pos left).setChild node (pos + 1) right).setItem node pos x

/-- One round of the loop in `split_node`. -/
def moveRight (node right : Nat) (h : Heap) (i : Nat) : Heap :=
  let h := if i ≠ btreeOrder - 1 then
      ((h.writeItem right (h.count right) (h.item node i)).setCount right (h.count right + 1)).clear
        node i
    else h
  (h.setChild right (i - btreeOrder / 2) (h.child node i)).setChild node i 0

/-- `split_node`, with the new node and the median item. -/
def splitNode (a : Ator) (h : Heap) (node : Nat) : Heap × Nat × Item :=
  let right := a.pick h
  let h := (h.allocate a).init right
  let x := h.item node (btreeOrder / 2 - 1)
  let h := h.clear node (btreeOrder / 2 - 1)
  let slots := List.range' (btreeOrder / 2) (btreeOrder - btreeOrder / 2)
  let h := slots.foldl (moveRight node right) h
  (h.setCount node (btreeOrder / 2 - 1), right, x)

/-- The split of a full node in `find_dest_node`, with the node to go on from. -/
def splitFull (a : Ator) (s : Btree) (node parent key pos : Nat) : Btree × Nat :=
  if s.heap.count node = btreeOrder - 1 then
    let (h, right, m) := splitNode a s.heap node
    if parent ≠ 0 then
      (⟨insertNode h parent pos m node right, s.root⟩, if key > m.key then right else node)
    else
      let up := a.pick h
      let h := ((h.allocate a).init up).setCount up 1
      let h := ((h.writeItem up 0 m).setChild up 0 node).setChild up 1 right
      (⟨h, up⟩, up)
  else (s, node)

/-- Where the loop in `find_dest_node` stops. -/
def destSlot (h : Heap) (node key : Nat) : Option Nat :=
  (List.range (btreeOrder - 1)).find? fun i => h.count node = i ∨ (h.item node i).key > key

/-- `find_dest_node`, with the node and the position it returns. -/
def findDestNode (a : Ator) (key : Nat) : Nat → Btree → Nat → Nat → Nat →
    Option (Btree × Nat × Nat)
  | 0, _, _, _, _ => none
  | fuel + 1, s, node, parent, pos =>
    if node = 0 then none
    else
      let (s, node) := splitFull a s node parent key pos
      match destSlot s.heap node key with
      | some i =>
        if s.heap.child node i = 0 then some (s, node, i)
        else findDestNode a key fuel s (s.heap.child node i) node i
      | none =>
        findDestNode a key fuel s (s.heap.child node (btreeOrder - 1)) node (btreeOrder - 2)

/-- `insert_item`. -/
def insertItem (h : Heap) (node pos : Nat) (x : Item) : Heap :=
  let h := if (h.item node pos).key ≠ 0 then
      h.copyItems node node (pos + 1) pos (btreeOrder - 2 - pos)
    else h
  h.setItem node pos x

/-- More than the depth of any tree in the heap. -/
def Heap.depthBound (h : Heap) : Nat := h.live.length + 2

section

variable (a : Ator) (s : Btree)

/-- `is_empty`. -/
def isEmpty : Bool := s.root = 0 ∨ s.heap.count s.root = 0

/-- `insert_node_empty_tree`. -/
def insertNodeEmptyTree (x : Item) : Btree :=
  let (h, root) := if s.root = 0 then (s.heap.allocate a, a.pick s.heap) else (s.heap, s.root)
  ⟨(h.init root).setItem root 0 x, root⟩

/-- `insert`. -/
def insert (key val : Nat) : Option Btree :=
  if s.isEmpty then some (s.insertNodeEmptyTree a ⟨key, val⟩)
  else do
    let (s, dest, pos) ← findDestNode a key s.heap.depthBound s s.root 0 0
    some { s with heap := insertItem s.heap dest pos ⟨key, val⟩ }

end

/-! ## search -/

/-- `NODE_CONTAINS_ITEM`. -/
def containsItem (h : Heap) (node i key : Nat) : Bool :=
  i ≠ h.count node ∧ (h.item node i).key = key

/-- `NODE_CHILD_CAN_CONTAIN_ITEM`. -/
def childCanContainItem (h : Heap) (node i key : Nat) : Bool :=
  (i = h.count node ∨ (h.item node i).key > key) ∧ h.child node i ≠ 0

/-- Where the loop that looks for a key in a node stops. -/
def searchSlot (h : Heap) (node key : Nat) : Option Nat :=
  (List.range (h.count node + 1)).find? fun i =>
    containsItem h node i key || childCanContainItem h node i key

/-- The search that `get_in_node` and `lookup_in_node` make: `hit` of the item that is
found, or else `miss`. -/
def searchInNode (hit : Item → Nat) (miss : Nat) (h : Heap) (key : Nat) : Nat → Nat → Option Nat
  | 0, _ => none
  | fuel + 1, node =>
    match searchSlot h node key with
    | some i =>
      if containsItem h node i key then some (hit (h.item node i))
      else searchInNode hit miss h key fuel (h.child node i)
    | none => some miss

/-- `get_in_node`. -/
def getInNode : Heap → Nat → Nat → Nat → Option Nat := searchInNode Item.val 0

/-- `lookup_in_node`. -/
def lookupInNode : Heap → Nat → Nat → Nat → Option Nat := searchInNode (fun _ => 1) 0

/-- One round of the loop in `foreach_node`, where `visit` is the recursive call; the callback
returns a code and changes what `arg` leads to. -/
def foreachRound {σ : Type} (cb : σ → Nat → Nat → Int × σ) (h : Heap) (node : Nat)
    (visit : Nat → σ → Option (Int × σ)) (st : Int × σ) (i : Nat) : Option (Int × σ) :=
  if st.1 ≠ 0 then some st
  else do
    let (ret, arg) ← visit (h.child node i) st.2
    if ret ≠ 0 then some (1, arg)
    else if i ≠ h.count node ∧ (h.item node i).key ≠ 0 then
      let (ret, arg) := cb arg (h.item node i).key (h.item node i).val
      some (if ret ≠ 0 then 1 else 0, arg)
    else some (0, arg)

/-- `foreach_node`. -/
def foreachNode {σ : Type} (cb : σ → Nat → Nat → Int × σ) (h : Heap) : Nat → Nat → σ →
    Option (Int × σ)
  | 0, _, _ => none
  | fuel + 1, node, arg =>
    if node = 0 then some (0, arg)
    else (List.range (h.count node + 1)).foldlM (foreachRound cb h node (foreachNode cb h fuel))
      (0, arg)

/-- `clear_node`. -/
def clearNode : Nat → Heap → Nat → Option Heap
  | 0, _, _ => none
  | fuel + 1, h, node =>
    if node = 0 then some h
    else do
      let h ← (List.range (h.count node)).foldlM (fun h i => clearNode fuel h (h.child node i)) h
      some (h.deallocate node)

section

variable (s : Btree)

/-- `get`. -/
def get (key : Nat) : Option Nat :=
  if s.root = 0 then some 0 else getInNode s.heap key s.heap.depthBound s.root

/-- `btree_map_lookup`. -/
def lookup (key : Nat) : Option Nat :=
  if s.root = 0 then some 0 else lookupInNode s.heap key s.heap.depthBound s.root

/-- `foreach`. -/
def foreach {σ : Type} (cb : σ → Nat → Nat → Int × σ) (arg : σ) : Option (Int × σ) :=
  foreachNode cb s.heap s.heap.depthBound s.root arg

/-- `clear`. -/
def clear : Option Btree := do
  let h ← clearNode s.heap.depthBound s.heap s.root
  some ⟨h, 0⟩

end

/-! ## removal -/

/-- `rotate_right`. -/
def rotateRight (h : Heap) (rsb node parent pos : Nat) : Heap :=
  let sep := h.item parent pos
  let h := insertItem h node (h.count node) sep
  let h := h.writeItem parent pos (h.item rsb 0)
  let h := h.setChild node (h.count node) (h.child rsb 0)
  let h := h.setCount rsb (h.count rsb - 1)
  let h := h.copyItems rsb rsb 0 1 (h.count rsb)
  h.copyChildren rsb rsb 0 1 (h.count rsb + 1)

/-- `rotate_left`. -/
def rotateLeft (h : Heap) (lsb node parent pos : Nat) : Heap :=
  let sep := h.item parent (pos - 1)
  let h := insertItem h node 0 sep
  let h := h.writeItem parent (pos - 1) (h.item lsb (h.count lsb - 1))
  let h := h.copyChildren node node 1 0 (h.count node)
  let h := h.setChild node 0 (h.child lsb (h.count lsb))
  h.setCount lsb (h.count lsb - 1)

/-- `merge` of `rn` into `node`. -/
def merge (s : Btree) (rn node parent pos : Nat) : Option Btree :=
  if node = 0 then none
  else
    let h := s.heap
    let sep := h.item parent pos
    let h := (h.writeItem node (h.count node) sep).setCount node (h.count node + 1)
    let h := h.copyItems node rn (h.count node) 0 (h.count rn)
    let h := h.copyChildren node rn (h.count node) 0 (h.count rn + 1)
    let h := h.setCount node (h.count node + h.count rn)
    let h := h.deallocate rn
    let h := h.setCount parent (h.count parent - 1)
    let h := h.copyItems parent parent pos (pos + 1) (h.count parent - pos)
    let h := h.copyChildren parent parent (pos + 1) (pos + 2) (h.count parent - pos + 1)
    if h.count parent = 0 ∧ parent = s.root then some ⟨h.deallocate s.root, node⟩
    else some ⟨h, s.root⟩

/-- `rebalance`. -/
def rebalance (s : Btree) (node parent pos : Nat) : Option Btree :=
  let rsb := if pos ≥ s.heap.count parent then 0 else s.heap.child parent (pos + 1)
  let lsb := if pos = 0 then 0 else s.heap.child parent (pos - 1)
  if rsb ≠ 0 ∧ s.heap.count rsb > btreeMin then
    some { s with heap := rotateRight s.heap rsb node parent pos }
  else if lsb ≠ 0 ∧ s.heap.count lsb > btreeMin then
    some { s with heap := rotateLeft s.heap lsb node parent pos }
  else if rsb = 0 then merge s node lsb parent (pos - 1)
  else merge s rsb node parent pos

/-- `get_leftmost_leaf`, with the parent of the leaf. -/
def getLeftmostLeaf (h : Heap) : Nat → Nat → Nat → Option (Nat × Nat)
  | 0, _, _ => none
  | fuel + 1, node, parent =>
    if node = 0 then none
    else if h.child node 0 = 0 then some (node, parent)
    else getLeftmostLeaf h fuel (h.child node 0) node

/-- The first branch of `remove_from_node`. -/
def removeFromLeaf (h : Heap) (node pos : Nat) : Heap :=
  let h := if h.count node = 1 ∨ pos = btreeOrder - 2 then h.clear node pos
    else h.copyItems node node pos (pos + 1) (h.count node - pos)
  h.setCount node (h.count node - 1)

/-- `remove_from_node`.  The node it calls itself on is a leaf, since that is what
`get_leftmost_leaf` returns. -/
def removeFromNode (fuel : Nat) (s : Btree) (node pos : Nat) : Option Btree :=
  if s.heap.child node 0 = 0 then some { s with heap := removeFromLeaf s.heap node pos }
  else do
    let (lm, lp) ← getLeftmostLeaf s.heap fuel (s.heap.child node (pos + 1)) node
    let h := s.heap.writeItem node pos (s.heap.item lm 0)
    let h := removeFromLeaf h lm 0
    if h.count lm < btreeMin then
      rebalance { s with heap := h } lm lp (if lp = node then pos + 1 else 0)
    else some { s with heap := h }

/-- `remove_item`, with the value it returns. -/
def removeItem (key : Nat) : Nat → Btree → Nat → Nat → Nat → Option (Btree × Nat)
  | 0, _, _, _, _ => none
  | fuel + 1, s, node, parent, pos =>
    if node = 0 then none
    else do
      let (s, ret) ← match searchSlot s.heap node key with
        | some i =>
          if containsItem s.heap node i key then
            (removeFromNode fuel s node i).map fun s' => (s', (s.heap.item node i).val)
          else removeItem key fuel s (s.heap.child node i) node i
        | none => some (s, 0)
      if parent ≠ 0 ∧ s.heap.count node < btreeMin then
        (rebalance s node parent pos).map fun s' => (s', ret)
      else some (s, ret)

/-- `remove`. -/
def remove (s : Btree) (key : Nat) : Option (Btree × Nat) :=
  removeItem key s.heap.depthBound s s.root 0 0

end Btree

end Cxlbuf
