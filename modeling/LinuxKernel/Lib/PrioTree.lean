/-
  Priority search trees (`lib/prio_tree.c`).

  1. **Nodes** — a `prio_tree_node` has three links, which point to the node itself where there is
     nothing; its interval is `[radix_index, heap_index]`, which `get_index` reads from the node or, in a
     `raw` tree, from the vma around it.

  2. **Failure** — `none` stands for `BUG()`, a failed `BUG_ON`, and a loop that has not ended after the given
     number of turns.

  3. **The iterator** — `prio_tree_next` is a machine with two places: before the loop that goes left, and
     before the loop that goes right or climbs.
-/
import Mathlib

namespace LinuxKernel.PrioTree

/-! ## Data -/

/-- `BITS_PER_LONG` and `PAGE_SHIFT`. -/
structure Arch where
  bitsPerLong : Nat
  pageShift : Nat
  wide : 2 ≤ bitsPerLong

abbrev Ptr := Nat

structure PrioTreeNode where
  left : Ptr
  right : Ptr
  parent : Ptr

/-- What the intervals are computed from: `start` and `last` of a node, or the vma around a raw node. -/
structure Content where
  start : Nat
  last : Nat
  vmPgoff : Nat
  vmStart : Nat
  vmEnd : Nat

structure PrioTreeRoot where
  prioTreeNode : Option Ptr
  indexBits : Nat
  raw : Bool

/-- A tree, and the links of all nodes. -/
structure Store where
  root : PrioTreeRoot
  node : Ptr → PrioTreeNode

variable (A : Arch)

/-- `a - b` for two words. -/
def Arch.sub (a b : Nat) : Nat := (a + (2 ^ A.bitsPerLong - b)) % 2 ^ A.bitsPerLong

/-- `VMA_SIZE`. -/
def vmaSize (c : Content) : Nat := A.sub c.vmEnd c.vmStart >>> A.pageShift

/-- `get_index`: the radix index and the heap index. -/
def getIndex (raw : Bool) (c : Content) : Nat × Nat :=
  if raw then (c.vmPgoff, (c.vmPgoff + A.sub (vmaSize A c) 1) % 2 ^ A.bitsPerLong)
  else (c.start, c.last)

/-- `index_bits_to_maxindex`. -/
def indexBitsToMaxindex (i : Nat) : Nat :=
  if i < A.bitsPerLong - 1 then 2 ^ (i + 1) - 1 else 2 ^ A.bitsPerLong - 1

def prioTreeMaxindex (bits : Nat) : Nat := indexBitsToMaxindex A (bits - 1)

/-! ## Links -/

namespace Store

variable (s : Store)

def setLeft (p q : Ptr) : Store :=
  { s with node := Function.update s.node p { s.node p with left := q } }

def setRight (p q : Ptr) : Store :=
  { s with node := Function.update s.node p { s.node p with right := q } }

def setParent (p q : Ptr) : Store :=
  { s with node := Function.update s.node p { s.node p with parent := q } }

/-- `INIT_PRIO_TREE_NODE`. -/
def initNode (p : Ptr) : Store := { s with node := Function.update s.node p ⟨p, p, p⟩ }

/-- `__INIT_PRIO_TREE_ROOT`. -/
def initRoot : Store := { s with root := ⟨none, 1, s.root.raw⟩ }
def isRoot (p : Ptr) : Bool := (s.node p).parent == p
def leftEmpty (p : Ptr) : Bool := (s.node p).left == p
def rightEmpty (p : Ptr) : Bool := (s.node p).right == p

end Store

/-! ## `prio_tree_replace` -/

/-- The link to `old` from above. -/
def replaceAbove (s : Store) (old node : Ptr) : Option Store :=
  if s.isRoot old then
    if s.root.prioTreeNode = some old then
      let s := s.setParent node node
      some { s with root := { s.root with prioTreeNode := some node } }
    else none
  else
    let s := s.setParent node (s.node old).parent
    if (s.node (s.node old).parent).left = old then some (s.setLeft (s.node old).parent node)
    else some (s.setRight (s.node old).parent node)

def replaceLeft (s : Store) (old node : Ptr) : Store :=
  if s.leftEmpty old then s
  else (s.setLeft node (s.node old).left).setParent (s.node old).left node

def replaceRight (s : Store) (old node : Ptr) : Store :=
  if s.rightEmpty old then s
  else (s.setRight node (s.node old).right).setParent (s.node old).right node

/-- `prio_tree_replace`, which returns `old`. -/
def prioTreeReplace (s : Store) (old node : Ptr) : Option Store :=
  (replaceAbove (s.initNode node) old node).map fun s => replaceRight (replaceLeft s old node) old node

/-! ## `prio_tree_remove` -/

section Index

-- the indices of the nodes
variable (ix : Ptr → Nat × Nat)

/-- The leaf that will take the place of `cur`: go to the child with the larger heap index. -/
def findLeaf (s : Store) : Nat → Ptr → Option Ptr
  | 0, _ => none
  | fuel + 1, cur =>
    if s.leftEmpty cur && s.rightEmpty cur then some cur
    else if s.leftEmpty cur then findLeaf s fuel (s.node cur).right
    else if s.rightEmpty cur then findLeaf s fuel (s.node cur).left
    else if (ix (s.node cur).left).2 ≥ (ix (s.node cur).right).2 then findLeaf s fuel (s.node cur).left
    else findLeaf s fuel (s.node cur).right

/-- Every node between the leaf and `node` takes the place of its parent. -/
def shiftUp (node : Ptr) : Nat → Store → Ptr → Option Store
  | 0, _, _ => none
  | fuel + 1, s, cur =>
    if cur = node then some s
    else (prioTreeReplace s (s.node cur).parent cur).bind fun s' => shiftUp node fuel s' (s.node cur).parent

/-- No path is longer than the bits of both indices. -/
def maxTurns : Nat := 2 * A.bitsPerLong + 2

variable (s : Store)

def prioTreeRemove (node : Ptr) : Option Store :=
  (findLeaf ix s (maxTurns A) node).bind fun cur =>
    if s.isRoot cur then
      if s.root.prioTreeNode = some cur then some s.initRoot else none
    else
      let parent := (s.node cur).parent
      let s := if (s.node parent).right = cur then s.setRight parent parent else s.setLeft parent parent
      shiftUp node (maxTurns A) s cur

/-! ## `prio_tree_expand` -/

/-- The nodes that have been stripped off: the first one and the last one. -/
structure Stripped where
  first : Ptr
  last : Ptr

/-- The loop: for each further bit the root is stripped off. -/
def expandLoop (maxHeapIndex : Nat) : Nat → Store → Option Stripped → Option (Store × Option Stripped)
  | 0, _, _ => none
  | fuel + 1, s, c =>
    if maxHeapIndex > prioTreeMaxindex A s.root.indexBits then
      let s := { s with root := { s.root with indexBits := s.root.indexBits + 1 } }
      match s.root.prioTreeNode with
      | none => expandLoop maxHeapIndex fuel s c
      | some top =>
        match prioTreeRemove A ix s top with
        | none => none
        | some s =>
          let s := s.initNode top
          match c with
          | none => expandLoop maxHeapIndex fuel s (some ⟨top, top⟩)
          | some c =>
            expandLoop maxHeapIndex fuel ((s.setLeft c.last top).setParent top c.last) (some ⟨c.first, top⟩)
    else some (s, c)

/-- The new node on top of what has been stripped off; the last node of these. -/
def expandLine (node : Ptr) : Option Stripped → Store × Ptr
  | some c => (((s.initNode node).setLeft node c.first).setParent c.first node, c.last)
  | none => (s.initNode node, node)

/-- The rest of the tree is hung below `last`. -/
def expandRest (node last : Ptr) : Store :=
  let s := match s.root.prioTreeNode with
    | some top => (s.setLeft last top).setParent top last
    | none => s
  { s with root := { s.root with prioTreeNode := some node } }

def prioTreeExpand (node : Ptr) (maxHeapIndex : Nat) : Option (Ptr × Store) :=
  let s :=
    if maxHeapIndex > prioTreeMaxindex A s.root.indexBits then
      { s with root := { s.root with indexBits := s.root.indexBits + 1 } }
    else s
  (expandLoop A ix maxHeapIndex (maxTurns A) s none).map fun (s, c) =>
    (node, expandRest (expandLine s node c).1 node (expandLine s node c).2)

/-! ## `prio_tree_insert` -/

/-- The loop variables. -/
structure Insertion where
  cur : Ptr
  node : Ptr
  radixIndex : Nat
  heapIndex : Nat
  mask : Nat
  sizeFlag : Bool

/-- If the node goes above `cur`, it takes its place, and `cur` is inserted instead. -/
def insertSwap (i : Insertion) : Option (Store × Insertion) :=
  let (rIndex, hIndex) := ix i.cur
  if hIndex < i.heapIndex ∨ (hIndex = i.heapIndex ∧ rIndex > i.radixIndex) then
    (prioTreeReplace s i.cur i.node).map fun s =>
      (s, { i with node := i.cur, cur := i.node, radixIndex := rIndex, heapIndex := hIndex })
  else some (s, i)

/-- The next mask, and whether the size is used from now on. -/
def nextMask (mask : Nat) (sizeFlag : Bool) : Nat × Bool :=
  if mask / 2 = 0 then (2 ^ (A.bitsPerLong - 1), true) else (mask / 2, sizeFlag)

def insertLoop (res : Ptr) : Nat → Store → Insertion → Option (Ptr × Store)
  | 0, _, _ => none
  | fuel + 1, s, i =>
    if i.mask = 0 then none
    else if (ix i.cur).1 = i.radixIndex ∧ (ix i.cur).2 = i.heapIndex then some (i.cur, s)
    else
      match insertSwap ix s i with
      | none => none
      | some (s, i) =>
        let index := if i.sizeFlag then A.sub i.heapIndex i.radixIndex else i.radixIndex
        let (mask, sizeFlag) := nextMask A i.mask i.sizeFlag
        if index &&& i.mask ≠ 0 then
          if s.rightEmpty i.cur then
            some (res, ((s.initNode i.node).setRight i.cur i.node).setParent i.node i.cur)
          else
            insertLoop res fuel s { i with cur := (s.node i.cur).right, mask := mask, sizeFlag := sizeFlag }
        else
          if s.leftEmpty i.cur then
            some (res, ((s.initNode i.node).setLeft i.cur i.node).setParent i.node i.cur)
          else
            insertLoop res fuel s { i with cur := (s.node i.cur).left, mask := mask, sizeFlag := sizeFlag }

/-- `prio_tree_insert`: the node that is in the tree now, and the tree. -/
def prioTreeInsert (node : Ptr) : Option (Ptr × Store) :=
  match s.root.prioTreeNode with
  | none => prioTreeExpand A ix s node (ix node).2
  | some top =>
    if (ix node).2 > prioTreeMaxindex A s.root.indexBits then prioTreeExpand A ix s node (ix node).2
    else
      insertLoop A ix node (maxTurns A) s ⟨top, node, (ix node).1, (ix node).2,
        2 ^ (s.root.indexBits - 1), false⟩

/-! ## `prio_tree_next` -/

/-- `struct prio_tree_iter`, at a node. -/
structure Iter where
  cur : Ptr
  mask : Nat
  value : Nat
  sizeLevel : Nat
  rIndex : Nat
  hIndex : Nat

/-- One level down, to `cur`. -/
def stepDown (it : Iter) (cur : Ptr) : Option Iter :=
  let mask := it.mask / 2
  if mask ≠ 0 then
    some { it with cur := cur, mask := mask, sizeLevel := if it.sizeLevel ≠ 0 then it.sizeLevel + 1 else 0 }
  else if it.sizeLevel ≠ 0 then
    if s.leftEmpty cur && s.rightEmpty cur then
      some { it with cur := cur, mask := 2 ^ A.bitsPerLong - 1, sizeLevel := it.sizeLevel + 1 }
    else none
  else some { it with cur := cur, mask := 2 ^ (A.bitsPerLong - 1), sizeLevel := 1 }

/-- `prio_tree_left`: the inner `none` is `NULL`. -/
def prioTreeLeft (it : Iter) : Option (Option Iter) :=
  if s.leftEmpty it.cur then some none
  else if it.rIndex ≤ (ix (s.node it.cur).left).2 then (stepDown A s it (s.node it.cur).left).map some
  else some none

/-- `prio_tree_right` -/
def prioTreeRight (it : Iter) : Option (Option Iter) :=
  if s.rightEmpty it.cur then some none
  else
    let value := if it.sizeLevel ≠ 0 then it.value else it.value ||| it.mask
    if it.hIndex < value then some none
    else if it.rIndex ≤ (ix (s.node it.cur).right).2 then
      (stepDown A s { it with value := value } (s.node it.cur).right).map some
    else some none

def prioTreeParent (it : Iter) : Iter :=
  let mask :=
    if it.mask = 2 ^ A.bitsPerLong - 1 then 1
    else if it.sizeLevel = 1 then 1
    else it.mask * 2 % 2 ^ A.bitsPerLong
  let sizeLevel := it.sizeLevel - 1
  let value := if sizeLevel = 0 ∧ it.value &&& mask ≠ 0 then it.value ^^^ mask else it.value
  { it with cur := (s.node it.cur).parent, mask := mask, sizeLevel := sizeLevel, value := value }

/-- `overlap`, for the node the iterator is at. -/
def overlap (it : Iter) : Bool := it.hIndex ≥ (ix it.cur).1 && it.rIndex ≤ (ix it.cur).2

/-- The loop of `prio_tree_first`. -/
def firstLoop (s : Store) : Nat → Iter → Option (Option Iter)
  | 0, _ => none
  | fuel + 1, it =>
    if overlap ix it then some (some it)
    else
      match prioTreeLeft A ix s it with
      | none => none
      | some (some it) => firstLoop s fuel it
      | some none =>
        match prioTreeRight A ix s it with
        | none => none
        | some (some it) => firstLoop s fuel it
        | some none => some none

/-- `prio_tree_first`, for the query `[r, h]`. -/
def prioTreeFirst (fuel r h : Nat) : Option (Option Iter) :=
  match s.root.prioTreeNode with
  | none => some none
  | some top =>
    if r > (ix top).2 then some none
    else firstLoop A ix s fuel ⟨top, 2 ^ (s.root.indexBits - 1), 0, 0, r, h⟩

/-- Climb from right children, and then from a left child; `NULL` at the root. -/
def climb (s : Store) : Nat → Iter → Option (Option Iter)
  | 0, _ => none
  | fuel + 1, it =>
    if s.isRoot it.cur then some none
    else if (s.node (s.node it.cur).parent).right = it.cur then climb s fuel (prioTreeParent A s it)
    else some (some (prioTreeParent A s it))

/-- The places of the machine: at `repeat`, and at the loop that goes right. -/
inductive Place where
  | left
  | right

def nextLoop (s : Store) : Nat → Place → Iter → Option (Option Iter)
  | 0, _, _ => none
  | fuel + 1, .left, it =>
    match prioTreeLeft A ix s it with
    | none => none
    | some (some it) => if overlap ix it then some (some it) else nextLoop s fuel .left it
    | some none => nextLoop s fuel .right it
  | fuel + 1, .right, it =>
    match prioTreeRight A ix s it with
    | none => none
    | some (some it) => if overlap ix it then some (some it) else nextLoop s fuel .left it
    | some none =>
      match climb A s fuel it with
      | none => none
      | some none => some none
      | some (some it) => nextLoop s fuel .right it

/-- `prio_tree_next` until it returns `NULL`: the nodes that it returns. -/
def iterateFrom (s : Store) (fuel : Nat) : Nat → Option (Option Iter) → Option (List Ptr)
  | _, none => none
  | _, some none => some []
  | 0, some (some _) => none
  | n + 1, some (some it) => (iterateFrom s fuel n (nextLoop A ix s fuel .left it)).map (it.cur :: ·)

def iterate (fuel r h : Nat) : Option (List Ptr) :=
  iterateFrom A ix s fuel fuel (prioTreeFirst A ix s fuel r h)

end Index
end LinuxKernel.PrioTree
