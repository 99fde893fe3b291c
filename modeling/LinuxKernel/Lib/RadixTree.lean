/-
  The radix tree (`lib/radix-tree.c`).

  1. **Tree** — a `struct radix_tree_node` is a node of `Base/Trie`, whose data are `height`, `count` and
     the tag bitmaps.  `rnode` is NULL, a direct item or a node: the constructor says what the low bit
     of the pointer says in the source.

  2. **Paths** — the walks that remember their way in `path[]` (and the pointers `node`, `slot` of an
     insertion) hold it as a list of frames, innermost first.  Such a walk writes to the nodes of the
     path in place; the tree it leaves behind is `plug path slot`.

  3. **Allocation** — `nodes` are the nodes that `radix_tree_node_alloc` can still give to an insertion,
     with whatever is in them: a node that was freed comes back as `radix_tree_node_rcu_free` left it.

  4. **BUG** — a `BUG_ON` that fires and a NULL pointer that is followed have no result (`none`).

  Left out: when RCU frees, preloading, and the `gfp_mask` argument of an allocation.
-/
import LinuxKernel.Base.Fuel
import LinuxKernel.Base.Trie

namespace LinuxKernel.RadixTree

open Function LinuxKernel.Trie

def EEXIST : Int := -17
def ENOMEM : Int := -12

/-- `RADIX_TREE_MAP_SHIFT` and `BITS_PER_LONG`: 4 or 6, and 32 or 64. -/
structure Geometry where
  mapShift : Nat
  indexBits : Nat
  mapShift_pos : 0 < mapShift
  indexBits_pos : 0 < indexBits

variable (g : Geometry)

def Geometry.mapSize : Nat := 2 ^ g.mapShift

/-- `RADIX_TREE_MAX_PATH`. -/
def Geometry.maxPath : Nat := (g.indexBits + g.mapShift - 1) / g.mapShift

/-- `~0UL`. -/
def Geometry.ulongMax : Nat := 2 ^ g.indexBits - 1

/-- A tag is below `RADIX_TREE_MAX_TAGS`. -/
abbrev Tag := Fin 3

structure NodeData where
  height : Nat
  count : Nat
  tags : Tag → Nat → Bool

abbrev Slot (α : Type) := DigitTree NodeData α
abbrev Path (α : Type) := List (Frame NodeData α)

/-- A `struct radix_tree_node` that is not in a tree. -/
structure RawNode (α : Type) where
  data : NodeData
  slots : Nat → Slot α

structure Root (α : Type) where
  height : Nat
  gfpMask : BitVec 32
  rnode : Slot α

variable {α : Type}

/-! ## Tags -/

def tagSet (node : NodeData) (tag : Tag) (offset : Nat) : NodeData :=
  { node with tags := update node.tags tag (update (node.tags tag) offset true) }

def tagClear (node : NodeData) (tag : Tag) (offset : Nat) : NodeData :=
  { node with tags := update node.tags tag (update (node.tags tag) offset false) }

def tagGet (node : NodeData) (tag : Tag) (offset : Nat) : Bool := node.tags tag offset
def anyTagSet (node : NodeData) (tag : Tag) : Bool := (List.range g.mapSize).any (node.tags tag)
def gfpBitsShift : Nat := 23
def gfpBitsMask : BitVec 32 := (1#32 <<< gfpBitsShift) - 1#32

/-- The root's tags sit in `gfp_mask`, above the bits of the allocation flags. -/
def rootTagBit (tag : Tag) : BitVec 32 := 1#32 <<< (tag.val + gfpBitsShift)

variable (root : Root α)

def rootTagSet (tag : Tag) : Root α :=
  { root with gfpMask := root.gfpMask ||| rootTagBit tag }

def rootTagClear (tag : Tag) : Root α :=
  { root with gfpMask := root.gfpMask &&& ~~~(rootTagBit tag) }

def rootTagClearAll : Root α := { root with gfpMask := root.gfpMask &&& gfpBitsMask }
def rootTagGet (tag : Tag) : Bool := (root.gfpMask &&& rootTagBit tag) != 0#32

/-! ## Height -/

/-- `__maxindex`, which fills the table that `radix_tree_maxindex` reads. -/
def radixTreeMaxindex (height : Nat) : Nat :=
  let width := height * g.mapShift
  if g.indexBits < width then g.ulongMax
  else if g.indexBits ≤ g.indexBits - width then 0
  else g.ulongMax >>> (g.indexBits - width)

/-- `(index >> shift) & RADIX_TREE_MAP_MASK`. -/
def offsetOf (shift index : Nat) : Nat := (index >>> shift) &&& (g.mapSize - 1)

/-- `radix_tree_node_rcu_free`: what is in the node when it goes back to the slab. -/
def rcuFree (node : RawNode α) : RawNode α where
  data :=
    { node.data with
      count := 0
      tags := fun tag => update (node.data.tags tag) 0 false }
  slots := update node.slots 0 .null

/-- The loop that figures out the height: at most `RADIX_TREE_MAX_PATH` turns. -/
def extendHeight (index : Nat) : Nat → Nat → Nat
  | 0, height => height
  | turns + 1, height =>
      if radixTreeMaxindex g height < index then extendHeight index turns (height + 1) else height

/-- The node put on top of the tree: the tree below it in slot 0, with the root's tags. -/
def extendNode (node : RawNode α) : Slot α :=
  .node
    { height := root.height + 1
      count := 1
      tags := fun tag =>
        if rootTagGet root tag then update (node.data.tags tag) 0 true
        else node.data.tags tag }
    (update node.slots 0 root.rnode)

/-- The `do` loop of `radix_tree_extend`, still `levels` levels to add. -/
def extendLoop : Nat → List (RawNode α) → Root α → Int × List (RawNode α) × Root α
  | 0, nodes, root => (0, nodes, root)
  | _ + 1, [], root => (ENOMEM, [], root)
  | levels + 1, node :: nodes, root =>
      extendLoop levels nodes
        { root with height := root.height + 1, rnode := extendNode root node }

def radixTreeExtend (nodes : List (RawNode α)) (root : Root α) (index : Nat) :
    Int × List (RawNode α) × Root α :=
  let height := extendHeight g index g.maxPath (root.height + 1)
  if root.rnode.isNull then (0, nodes, { root with height := height })
  else extendLoop (height - root.height) nodes root

/-! ## Insert -/

/-- `node->count++` for the node that the slot is in. -/
def countUp : Path α → Path α
  | [] => []
  | f :: path => { f with data := { f.data with count := f.data.count + 1 } } :: path

/-- The loop of `radix_tree_insert`: down to the bottom, adding the nodes that are missing. -/
def insertLoop (index : Nat) :
    Nat → List (RawNode α) → Path α → Slot α → Option (Int × Path α × Slot α)
  | 0, _, path, slot => some (0, path, slot)
  | _ + 1, [], path, .null => some (ENOMEM, path, .null)
  | height + 1, node :: nodes, path, .null =>
      let offset := offsetOf g (height * g.mapShift) index
      let m := { node.data with height := height + 1 }
      insertLoop index height nodes (⟨m, node.slots, offset⟩ :: countUp path) (node.slots offset)
  | height + 1, nodes, path, .node m slots =>
      let offset := offsetOf g (height * g.mapShift) index
      insertLoop index height nodes (⟨m, slots, offset⟩ :: path) (slots offset)
  | _ + 1, _, _, .item _ => none

/-- The `BUG_ON`s on a tag that is set where an item has just been put. -/
def staleTag : Path α → Bool
  | [] => rootTagGet root 0 || rootTagGet root 1
  | f :: _ => tagGet f.data 0 f.offset || tagGet f.data 1 f.offset

variable (index : Nat)

def insertItem (item : α) (nodes : List (RawNode α)) :
    Option (Int × Root α) :=
  match insertLoop g index root.height nodes [] root.rnode with
  | none => none
  | some (error, path, slot) =>
      if error ≠ 0 then some (error, { root with rnode := plug path slot })
      else if slot.isNull then
        if staleTag root path then none
        else some (0, { root with rnode := plug (countUp path) (.item item) })
      else some (EEXIST, { root with rnode := plug path slot })

def radixTreeInsert (item : α) (nodes : List (RawNode α)) :
    Option (Int × Root α) :=
  if radixTreeMaxindex g root.height < index then
    match radixTreeExtend g nodes root index with
    | (error, nodes, root) =>
        if error ≠ 0 then some (error, root) else insertItem g root index item nodes
  else insertItem g root index item nodes

/-! ## Lookup -/

/-- The loop of `radix_tree_lookup_element`. -/
def lookupLoop (index : Nat) : Nat → Slot α → Option α
  | 0, .item a => some a
  | 0, _ => none
  | height + 1, .node _ slots => lookupLoop index height (slots (offsetOf g (height * g.mapShift) index))
  | _ + 1, _ => none

def radixTreeLookup : Option α :=
  match root.rnode with
  | .null => none
  | .item a => if 0 < index then none else some a
  | .node m slots =>
      if radixTreeMaxindex g m.height < index then none
      else lookupLoop g index m.height (.node m slots)

/-! ## Setting, clearing and reading a tag -/

/-- The loop of `radix_tree_tag_set`. -/
def tagSetLoop (index : Nat) (tag : Tag) : Nat → Path α → Slot α → Option (Path α × Slot α)
  | 0, path, slot => some (path, slot)
  | height + 1, path, .node m slots =>
      let offset := offsetOf g (height * g.mapShift) index
      if (slots offset).isNull then none
      else tagSetLoop index tag height (⟨tagSet m tag offset, slots, offset⟩ :: path) (slots offset)
  | _ + 1, _, _ => none

def radixTreeTagSet (tag : Tag) : Option (Root α) :=
  if radixTreeMaxindex g root.height < index then none
  else
    match tagSetLoop g index tag root.height [] root.rnode with
    | none => none
    | some (path, slot) =>
        let root := { root with rnode := plug path slot }
        some (if slot.isNull then root else rootTagSet root tag)

/-- The walk down of `radix_tree_tag_clear` and `radix_tree_delete`; `none` when it meets NULL. -/
def descend (index : Nat) : Nat → Path α → Slot α → Option (Path α × α)
  | 0, path, .item a => some (path, a)
  | 0, _, _ => none
  | height + 1, path, .node m slots =>
      let offset := offsetOf g (height * g.mapShift) index
      descend index height (⟨m, slots, offset⟩ :: path) (slots offset)
  | _ + 1, _, _ => none

/-- The walk back up of `radix_tree_tag_clear`, and whether it reaches the end of the path. -/
def clearUp (tag : Tag) : Path α → Path α × Bool
  | [] => ([], true)
  | f :: path =>
      if tagGet f.data tag f.offset then
        let m := tagClear f.data tag f.offset
        if anyTagSet g m tag then ({ f with data := m } :: path, false)
        else
          let r := clearUp tag path
          ({ f with data := m } :: r.1, r.2)
      else (f :: path, false)

def radixTreeTagClear (tag : Tag) : Option α × Root α :=
  if radixTreeMaxindex g root.height < index then (none, root)
  else
    match descend g index root.height [] root.rnode with
    | none => (none, root)
    | some (path, a) =>
        let r := clearUp g tag path
        let root := { root with rnode := plug r.1 (.item a) }
        (some a, if r.2 then rootTagClear root tag else root)

/-- The loop of `radix_tree_tag_get`; it goes on past an interior bit that is not set. -/
def tagGetLoop (index : Nat) (tag : Tag) : Nat → Slot α → Bool
  | height + 1, .node m slots =>
      let offset := offsetOf g (height * g.mapShift) index
      if height = 0 then tagGet m tag offset else tagGetLoop index tag height (slots offset)
  | _, _ => false

def radixTreeTagGet (tag : Tag) : Bool :=
  if rootTagGet root tag then
    match root.rnode with
    | .null => false
    | .item _ => index == 0
    | .node m slots =>
        if radixTreeMaxindex g m.height < index then false
        else tagGetLoop g index tag m.height (.node m slots)
  else false

def radixTreeTagged (tag : Tag) : Bool := rootTagGet root tag

/-! ## Delete -/

/-- `radix_tree_shrink`: the height and the top of the tree it leaves, and the nodes it frees. -/
def radixTreeShrink : Nat → Slot α → Option (Nat × Slot α × List (RawNode α))
  | 0, rnode => some (0, rnode, [])
  | height + 1, .node m slots =>
      if m.count ≠ 1 then some (height + 1, .node m slots, [])
      else if (slots 0).isNull then some (height + 1, .node m slots, [])
      else
        (radixTreeShrink height (slots 0)).map fun r => (r.1, r.2.1, rcuFree ⟨m, slots⟩ :: r.2.2)
  | _ + 1, _ => none

/-- The loop of `radix_tree_delete` that frees the nodes not needed any more: the tree that is left and
    whether the loop stopped at its top node, or nothing when it ran to the end of the path; and the
    nodes that were freed. -/
def freeUp : Path α → Option (Slot α × Bool) × List (RawNode α)
  | [] => (none, [])
  | f :: path =>
      let m := { f.data with count := f.data.count - 1 }
      let slots := update f.slots f.offset .null
      if m.count ≠ 0 then (some (plug path (.node m slots), path.isEmpty), [])
      else ((freeUp path).1, rcuFree ⟨m, slots⟩ :: (freeUp path).2)

/-- The tags of the lowest node of the path for the item. -/
def leafTag (tag : Tag) : Path α → Bool
  | [] => false
  | f :: _ => tagGet f.data tag f.offset

/-- The loop over the tags: each that is set for the item is cleared. -/
def clearTags (index : Nat) (path : Path α) (root : Root α) : Root α :=
  (List.finRange 3).foldl
    (fun root tag => if leafTag tag path then (radixTreeTagClear g root index tag).2 else root) root

/-- What `radix_tree_delete` returns, the tree, and the nodes that are freed. -/
structure Deleted (α : Type) where
  item : Option α
  root : Root α
  freed : List (RawNode α)

/-- Take the item `a` at the end of `path` out. -/
def deleteAt (path : Path α) (a : α) : Option (Deleted α) :=
  match freeUp path with
  | (none, freed) => some ⟨some a, rootTagClearAll { root with height := 0, rnode := .null }, freed⟩
  | (some (rnode, atTop), freed) =>
      if atTop then
        match radixTreeShrink root.height rnode with
        | none => none
        | some (height, rnode, more) =>
            some ⟨some a, { root with height := height, rnode := rnode }, freed ++ more⟩
      else some ⟨some a, { root with rnode := rnode }, freed⟩

def radixTreeDelete : Option (Deleted α) :=
  if radixTreeMaxindex g root.height < index then some ⟨none, root, []⟩
  else if root.height = 0 then
    match root.rnode with
    | .item a => some ⟨some a, rootTagClearAll { root with rnode := .null }, []⟩
    | _ => some ⟨none, rootTagClearAll { root with rnode := .null }, []⟩
  else
    match descend g index root.height [] root.rnode with
    | none => some ⟨none, root, []⟩
    | some (path, a) =>
        let root := clearTags g index path root
        -- `path[]` holds pointers: it shows the nodes as clearing the tags has left them
        match descend g index root.height [] root.rnode with
        | none => none
        | some (path, _) => deleteAt root path a

/-! ## Tagging a range -/

/-- The variables of the loop of `radix_tree_range_tag_if_tagged`. -/
structure Scan (α : Type) where
  index : Nat
  shift : Nat
  height : Nat
  slot : Slot α
  path : Path α
  tagged : Nat

/-- The walk back up the path that tags the interior nodes. -/
def tagUp (settag : Tag) : Path α → Path α
  | [] => []
  | f :: path =>
      if tagGet f.data settag f.offset then f :: path
      else { f with data := tagSet f.data settag f.offset } :: tagUp settag path

/-- `index = ((index >> shift) + 1) << shift`. -/
def nextIndex (shift index : Nat) : Nat := (((index >>> shift) + 1) <<< shift) % 2 ^ g.indexBits

/-- The loop that goes up from a node that has been scanned; past the end of the path `slot` is NULL. -/
def goUp (index : Nat) : Path α → Nat → Nat → Slot α → Nat × Nat × Slot α × Path α
  | [], shift, height, slot =>
      if offsetOf g shift index = 0 then (shift + g.mapShift, height + 1, .null, [])
      else (shift, height, slot, [])
  | f :: path, shift, height, slot =>
      if offsetOf g shift index = 0 then
        goUp index path (shift + g.mapShift) (height + 1) (f.fill slot)
      else (shift, height, slot, f :: path)

/-- From `next:` on: the state to go on with, or the one to stop in. -/
def scanNext (lastIndex nrToTag : Nat) (s : Scan α) : Scan α ⊕ Scan α :=
  let index := nextIndex g s.shift s.index
  if lastIndex < index ∨ index = 0 then .inr { s with index := index }
  else if nrToTag ≤ s.tagged then .inr { s with index := index }
  else
    match goUp g index s.path s.shift s.height s.slot with
    | (shift, height, slot, path) => .inl { s with index, shift, height, slot, path }

/-- One turn of the loop. -/
def scanTurn (lastIndex nrToTag : Nat) (iftag settag : Tag) (s : Scan α) : Option (Scan α ⊕ Scan α) :=
  match s.slot with
  | .node m slots =>
      let offset := offsetOf g s.shift s.index
      if (slots offset).isNull then some (scanNext g lastIndex nrToTag s)
      else if !tagGet m iftag offset then some (scanNext g lastIndex nrToTag s)
      else if 1 < s.height then
        some (.inl
          { s with
            height := s.height - 1
            shift := s.shift - g.mapShift
            path := ⟨m, slots, offset⟩ :: s.path
            slot := slots offset })
      else
        some (scanNext g lastIndex nrToTag
          { s with
            tagged := s.tagged + 1
            slot := .node (tagSet m settag offset) slots
            path := tagUp settag s.path })
  | _ => none

def scanLoop (lastIndex nrToTag : Nat) (iftag settag : Tag) : Nat → Scan α → Option (Scan α)
  | 0, _ => none
  | fuel + 1, s =>
      match scanTurn g lastIndex nrToTag iftag settag s with
      | none => none
      | some (.inl s) => scanLoop lastIndex nrToTag iftag settag fuel s
      | some (.inr s) => some s

/-- The loop starts at the root. -/
def scanStart (firstIndex : Nat) : Scan α where
  index := firstIndex
  shift := (root.height - 1) * g.mapShift
  height := root.height
  slot := root.rnode
  path := []
  tagged := 0

/-- What `radix_tree_range_tag_if_tagged` returns, what it leaves in `*first_indexp`, and the tree. -/
structure RangeTagged (α : Type) where
  tagged : Nat
  firstIndex : Nat
  root : Root α

def radixTreeRangeTagIfTagged (fuel : Nat) (root : Root α) (firstIndex lastIndex nrToTag : Nat)
    (iftag settag : Tag) : Option (RangeTagged α) :=
  let lastIndex := min lastIndex (radixTreeMaxindex g root.height)
  if lastIndex < firstIndex then some ⟨0, firstIndex, root⟩
  else if nrToTag = 0 then some ⟨0, firstIndex, root⟩
  else if !rootTagGet root iftag then some ⟨0, (lastIndex + 1) % 2 ^ g.indexBits, root⟩
  else if root.height = 0 then
    some ⟨1, (lastIndex + 1) % 2 ^ g.indexBits, rootTagSet root settag⟩
  else
    match scanLoop g lastIndex nrToTag iftag settag fuel (scanStart g root firstIndex) with
    | none => none
    | some s =>
        let root := { root with rnode := plug s.path s.slot }
        some ⟨s.tagged, s.index, if 0 < s.tagged then rootTagSet root settag else root⟩

end LinuxKernel.RadixTree
