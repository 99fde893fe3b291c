/-
  `mm/memblock.c` — the early allocator's arrays of memory and reserved regions.

  1. **Data** — a `memblock_type` is a sorted array of regions, with `cnt` entries in use (the list
     `regions`) and room for `max`.  An EMPTY array has one filler entry of base 0 and size 0.
     Addresses are `w`-bit numbers: `padd` and `psub` wrap, as `phys_addr_t` does.

  2. **Adding** — `addRegion` walks over the array; a block that overlaps or touches the new one is
     extended downwards (`addTurn`) or swallowed by it (`coalesceTop`), until the rest is inserted
     (`insertRegion`).

  3. **Removing** — `memblockRemove` drops, splits or trims the blocks of the range.

  4. **Searching** — `memblockSearch` is a binary search; `findBase` looks for free memory from the top
     down, stepping below one reserved block at a time (`findRegion`).

  5. **Moving** — `doubleArray` gives a full array twice the room.  Before slab the new array comes from
     memblock itself and is RESERVED: in the array that is being moved, if that is the reserved one.

  A loop counts its turns and gives `none` while it has not finished.  `memblock_memory_can_coalesce` is a
  parameter.  Adding takes what moves a full array as a parameter (`Env.double`, `none` if that fails), since
  moving it adds a region in turn.
-/
import Mathlib

namespace LinuxKernel.Memblock

/-! ## Data -/

structure Region where
  base : Nat
  size : Nat
  deriving DecidableEq, Repr

structure MemblockType where
  regions : List Region
  max : Nat
  deriving DecidableEq, Repr

/-- `a + b` and `a - b` of type `phys_addr_t`. -/
def padd (w a b : Nat) : Nat := (a + b) % 2 ^ w
def psub (w a b : Nat) : Nat := (a + (2 ^ w - b % 2 ^ w)) % 2 ^ w

/-- The entry of an empty array. -/
def filler : Region := ⟨0, 0⟩

/-- `memblock_remove_region` -/
def removeRegion (regions : List Region) (r : Nat) : List Region :=
  let regions := regions.eraseIdx r
  -- Special case for empty arrays
  if regions.length = 0 then [filler] else regions

/-- What the rest of the kernel decides. -/
structure Env where
  canCoalesce : Nat → Nat → Nat → Nat → Bool
  double : MemblockType → Option MemblockType

/-! ## `memblock_add_region` -/

/-- The outcome of one turn of the loop. -/
inductive AddTurn
  /-- `return 0` -/
  | ret (regions : List Region)
  /-- `goto new_block` -/
  | newBlock (regions : List Region) (base size : Nat)
  | next (regions : List Region) (i base size : Nat)

/-- "Now check if we overlap or are adjacent with the top of a block". -/
def coalesceTop (w : Nat) (env : Env) (regions : List Region) (i : Nat) (rgn : Region)
    (rend base size stop : Nat) : AddTurn :=
  if base ≤ rend ∧ stop ≥ rend then
    if env.canCoalesce rgn.base rgn.size base size then
      -- enclose the original block and destroy it
      .next (removeRegion regions i) i rgn.base (padd w size (psub w base rgn.base))
    else .newBlock regions base size
  else .next regions (i + 1) base size

def addTurn (w : Nat) (env : Env) (regions : List Region) (i : Nat) (rgn : Region)
    (base size stop : Nat) : AddTurn :=
  let rend := padd w rgn.base rgn.size
  if rgn.base ≤ base ∧ rend ≥ stop then .ret regions
  else if base < rgn.base ∧ stop ≥ rgn.base then
    if env.canCoalesce base size rgn.base rgn.size then
      -- extend the bottom of the block down to our base
      let rgn := ⟨base, psub w rend base⟩
      let regions := regions.set i rgn
      if rend ≥ stop then .ret regions
      else coalesceTop w env regions i rgn rend rend (psub w stop rend) stop
    else .newBlock regions base size
  else coalesceTop w env regions i rgn rend base size stop

/-- The end of the loop: returned, or with a block left to insert; `direct` after `goto new_block`. -/
inductive AddLoop
  | ret (regions : List Region)
  | insert (regions : List Region) (base size : Nat) (direct : Bool)

def addLoop (w : Nat) (env : Env) (stop : Nat) : Nat → List Region → Nat → Nat → Nat → Option AddLoop
  | 0, _, _, _, _ => none
  | turns + 1, regions, i, base, size =>
    match regions[i]? with
    | none => some (.insert regions base size false)
    | some rgn =>
      if rgn.base > stop ∨ rgn.size = 0 then some (.insert regions base size false)
      else
        match addTurn w env regions i rgn base size stop with
        | .ret regions => some (.ret regions)
        | .newBlock regions base size => some (.insert regions base size true)
        | .next regions i base size => addLoop w env stop turns regions i base size

/-- The slot of a new block: behind the last of the first `n` entries that does not start above it. -/
def slotBelow (regions : List Region) (base : Nat) : Nat → Nat
  | 0 => 0
  | i + 1 =>
    match regions[i]? with
    | some rgn => if base < rgn.base then slotBelow regions base i else i + 1
    | none => slotBelow regions base i

/-- "Couldn't coalesce the MEMBLOCK, so add it to the sorted table": the value returned and the type. -/
def insertRegion (env : Env) (t : MemblockType) (base size : Nat) : Int × MemblockType :=
  if t.regions.length ≥ t.max then (-1, t)
  else
    let slot := slotBelow t.regions base t.regions.length
    let t := { t with regions := t.regions.insertIdx slot ⟨base, size⟩ }
    if t.regions.length = t.max then
      match env.double t with
      | some t => (0, t)
      | none => (-1, { t with regions := removeRegion t.regions slot })
    else (0, t)

/-- `memblock_add_region` -/
def addRegion (w : Nat) (env : Env) (t : MemblockType) (base size : Nat) : Option (Int × MemblockType) :=
  match addLoop w env (padd w base size) (t.regions.length + 1) t.regions 0 base size with
  | none => none
  | some (.ret regions) => some (0, { t with regions := regions })
  | some (.insert regions base size direct) =>
    -- replace the fake filler region
    if direct = false ∧ regions.length = 1 ∧ (regions.map Region.size).head? = some 0 then
      some (0, { t with regions := regions.set 0 ⟨base, size⟩ })
    else some (insertRegion env { t with regions := regions } base size)

/-! ## `__memblock_remove` -/

def removeLoop (w : Nat) (env : Env) (base stop : Nat) :
    Nat → MemblockType → Nat → Option (Int × MemblockType)
  | 0, _, _ => none
  | turns + 1, t, i =>
    match t.regions[i]? with
    | none => some (0, t)
    | some rgn =>
      let rend := padd w rgn.base rgn.size
      if rgn.base > stop ∨ rgn.size = 0 then some (0, t)
      else if base ≤ rgn.base ∧ stop ≥ rend then
        -- we fully enclose the block
        removeLoop w env base stop turns { t with regions := removeRegion t.regions i } i
      else if base > rgn.base ∧ stop < rend then
        -- we are fully enclosed within a block
        let t := { t with regions := t.regions.set i ⟨rgn.base, psub w base rgn.base⟩ }
        match addRegion w env t stop (psub w rend stop) with
        | none => none
        | some (ret, t) =>
          if ret = 0 then some (0, t)
          else some (-1, { t with regions := t.regions.set i ⟨rgn.base, psub w rend rgn.base⟩ })
      else if rgn.base < stop ∧ rend > stop then
        -- trim the bottom of a block
        some (0, { t with regions := t.regions.set i ⟨stop, psub w rgn.size (psub w stop rgn.base)⟩ })
      else if base < rend then
        -- trim the top of a block
        removeLoop w env base stop turns
          { t with regions := t.regions.set i ⟨rgn.base, psub w rgn.size (psub w rend base)⟩ } (i + 1)
      else removeLoop w env base stop turns t (i + 1)

/-- `__memblock_remove` -/
def memblockRemove (w : Nat) (env : Env) (t : MemblockType) (base size : Nat) :
    Option (Int × MemblockType) :=
  removeLoop w env base (padd w base size) (t.regions.length + 1) t 0

/-! ## `memblock_double_array` -/

/-- What `memblock_double_array` reads, for one of the two types. -/
structure Boot where
  canCoalesce : Nat → Nat → Nat → Nat → Bool
  /-- `memblock_can_resize` -/
  canResize : Bool
  /-- `slab_is_available` -/
  useSlab : Bool
  /-- The type is `memblock.reserved`. -/
  isReserved : Bool
  /-- The address that `kmalloc` or `memblock_find_base` gives for a size, `none` for `MEMBLOCK_ERROR`. -/
  find : Nat → Option Nat
  /-- The address of the array, `none` for the static one. -/
  oldArray : Option Nat

/-- `memblock_double_array`; `sizeof(struct memblock_region)` is that of two addresses. -/
def doubleArray (w : Nat) (b : Boot) (t : MemblockType) : Option MemblockType :=
  if b.canResize = false then none
  else
    let oldSize := t.max * (w / 4)
    let t := { t with max := t.max * 2 }
    (b.find (oldSize * 2)).bind fun addr =>
      if b.useSlab ∨ b.isReserved = false then some t
      else
        -- the array just moved has room: it is not moved again
        let env : Env := ⟨b.canCoalesce, fun _ => none⟩
        match addRegion w env t addr (oldSize * 2) with
        | some (0, t) =>
          match b.oldArray with
          | none => some t
          | some old => (memblockRemove w env t old oldSize).map Prod.snd
        | _ => none

def Boot.env (w : Nat) (b : Boot) : Env := ⟨b.canCoalesce, doubleArray w b⟩

/-! ## `memblock_search` -/

/-- The index found, or `-1`. -/
def searchLoop (w : Nat) (regions : List Region) (addr : Nat) : Nat → Nat → Nat → Option Int
  | 0, _, _ => none
  | turns + 1, left, right =>
    let mid := (right + left) / 2
    let rgn := regions.getD mid filler
    let bounds : Option (Nat × Nat) :=
      if addr < rgn.base then some (left, mid)
      else if addr ≥ padd w rgn.base rgn.size then some (mid + 1, right)
      else none
    match bounds with
    | none => some mid
    | some (left, right) =>
      if left < right then searchLoop w regions addr turns left right else some (-1)

/-- `memblock_search` -/
def memblockSearch (w : Nat) (t : MemblockType) (addr : Nat) : Option Int :=
  searchLoop w t.regions addr (t.regions.length + 1) 0 t.regions.length

/-! ## `memblock_find_base` -/

def MEMBLOCK_ERROR : Nat := 0

end LinuxKernel.Memblock
