/-
  The resource tree (`kernel/resource.c`).

  1. **Heap** — `struct resource` objects point at each other through `parent`, `sibling` and `child`; a
     heap maps an address to the object there, and `none` is the null pointer.  A `struct resource **`
     that walks a sibling list is a `Link`: the field it points at.

  2. **Loops** take the number of turns they may make; `none` is "not finished yet" (`Base/Fuel`).

  3. **Numbers** — `resource_size_t` has `w` bits; what the code computes wraps around at `2 ^ w`.

  Left out: the names of resources and the messages printed, and all flags but `IORESOURCE_BUSY` and
  `IORESOURCE_MUXED`, which no function here reads.  `arch_remove_reservations` and `alignf` are
  arbitrary functions of what they are given.
-/
import LinuxKernel.Base.Fuel
import LinuxKernel.Base.Run

namespace LinuxKernel.ResourceTree

open Function

def EBUSY : Int := -16
def EINVAL : Int := -22

/-! ## Heap -/

abbrev Ptr := Nat

structure Resource where
  start : Nat
  stop : Nat
  busy : Bool
  muxed : Bool
  parent : Option Ptr
  sibling : Option Ptr
  child : Option Ptr
  deriving DecidableEq, Repr

abbrev Heap := Ptr → Resource

/-- A `struct resource **`. -/
inductive Link where
  | child (p : Ptr)
  | sibling (p : Ptr)
  deriving DecidableEq, Repr

/-- `*p`. -/
def Link.load (h : Heap) : Link → Option Ptr
  | .child p => (h p).child
  | .sibling p => (h p).sibling

/-- `*p = v`. -/
def Link.store (h : Heap) (v : Option Ptr) : Link → Heap
  | .child p => update h p { h p with child := v }
  | .sibling p => update h p { h p with sibling := v }

def setParent (h : Heap) (p : Ptr) (v : Option Ptr) : Heap :=
  update h p { h p with parent := v }

def setRange (h : Heap) (p : Ptr) (start stop : Nat) : Heap :=
  update h p { h p with start := start, stop := stop }

/-! ## Request and release -/

/-- `new->sibling = tmp; *p = new; new->parent = root`. -/
def linkAt (h : Heap) (root new : Ptr) (p : Link) (tmp : Option Ptr) : Heap :=
  let h := update h new { h new with sibling := tmp }
  let h := p.store h (some new)
  setParent h new (some root)

/-- The loop of `__request_resource`: the conflicting entry, if there is one. -/
def requestLoop (root new : Ptr) (start stop : Nat) : Nat → Heap → Link → Option (Option Ptr × Heap)
  | 0, _, _ => none
  | fuel + 1, h, p =>
      match p.load h with
      | none => some (none, linkAt h root new p none)
      | some tmp =>
          if (h tmp).start > stop then some (none, linkAt h root new p (some tmp))
          else if (h tmp).stop < start then requestLoop root new start stop fuel h (.sibling tmp)
          else some (some tmp, h)

variable (fuel : Nat) (h : Heap)

/-- `__request_resource`. -/
def requestResourceLocked (root new : Ptr) : Option (Option Ptr × Heap) :=
  let start := (h new).start
  let stop := (h new).stop
  if stop < start then some (some root, h)
  else if start < (h root).start then some (some root, h)
  else if stop > (h root).stop then some (some root, h)
  else requestLoop root new start stop fuel h (.child root)

/-- The error code for a conflict. -/
def ebusy (conflict : Option Ptr) : Int := if conflict.isSome then EBUSY else 0

def requestResource (root new : Ptr) : Option (Int × Heap) := do
  let r ← requestResourceLocked fuel h root new
  pure (ebusy r.1, r.2)

/-- The loop of `__release_resource`. -/
def releaseLoop (old : Ptr) : Nat → Heap → Link → Option (Int × Heap)
  | 0, _, _ => none
  | fuel + 1, h, p =>
      match p.load h with
      | none => some (EINVAL, h)
      | some tmp =>
          if tmp = old then some (0, setParent (p.store h (h tmp).sibling) old none)
          else releaseLoop old fuel h (.sibling tmp)

/-- `release_resource`; a resource without a parent makes it follow a null pointer. -/
def releaseResource (old : Ptr) : Option (Int × Heap) :=
  match (h old).parent with
  | none => none
  | some parent => releaseLoop old fuel h (.child parent)

/-! ## Allocation -/

/-- The arguments of `find_resource`; `avail` is what `alignf` may look at. -/
structure Constraint where
  size : Nat
  min : Nat
  max : Nat
  align : Nat
  alignf : Resource → Nat → Nat → Nat
  archRemoveReservations : Nat × Nat → Nat × Nat

/-- `ALIGN(x, a)` on `w` bits. -/
def alignUp (w x a : Nat) : Nat :=
  ((BitVec.ofNat w x + (BitVec.ofNat w a - 1)) &&& ~~~(BitVec.ofNat w a - 1)).toNat

def resourceClip (range : Nat × Nat) (min max : Nat) : Nat × Nat :=
  (if range.1 < min then min else range.1, if range.2 > max then max else range.2)

/-- What the gap between `tmpStart` and `this` offers: one turn of the loop of `find_resource`. -/
def tryGap (w : Nat) (c : Constraint) (h : Heap) (root new : Ptr) (this : Option Ptr) (tmpStart : Nat) :
    Option (Nat × Nat) :=
  let tmpStop :=
    match this with
    | some t => ((h t).start + 2 ^ w - 1) % 2 ^ w
    | none => (h root).stop
  let tmp := c.archRemoveReservations (resourceClip (tmpStart, tmpStop) c.min c.max)
  let avail := { h new with start := alignUp w tmp.1 c.align, stop := tmp.2 }
  let allocStart := c.alignf avail c.size c.align
  let allocStop := (allocStart + c.size + 2 ^ w - 1) % 2 ^ w
  -- the first condition is the check for overflow after `ALIGN`
  if avail.start ≥ tmp.1 ∧ avail.start ≤ allocStart ∧ avail.stop ≥ allocStop then
    some (allocStart, allocStop)
  else none

/-- The loop of `find_resource`. -/
def findLoop (w : Nat) (c : Constraint) (root new : Ptr) (h : Heap) :
    Nat → Option Ptr → Nat → Option (Option (Nat × Nat))
  | 0, _, _ => none
  | fuel + 1, this, tmpStart =>
      match tryGap w c h root new this tmpStart with
      | some range => some (some range)
      | none =>
          match this with
          | none => some none
          | some t => findLoop w c root new h fuel (h t).sibling (((h t).stop + 1) % 2 ^ w)

/-- `find_resource`: skip past an allocated resource that starts at 0. -/
def findResource (w : Nat) (c : Constraint) (fuel : Nat) (h : Heap) (root new : Ptr) :
    Option (Option (Nat × Nat)) :=
  match (h root).child with
  | none => findLoop w c root new h fuel none (h root).start
  | some t =>
      if (h t).start = 0 then
        findLoop w c root new h fuel (h t).sibling (((h t).stop + 1) % 2 ^ w)
      else findLoop w c root new h fuel (some t) (h root).start

def allocateResource (w : Nat) (c : Constraint) (fuel : Nat) (h : Heap) (root new : Ptr) :
    Option (Int × Heap) := do
  match ← findResource w c fuel h root new with
  | none => pure (EBUSY, h)
  | some range =>
      let r ← requestResourceLocked fuel (setRange h new range.1 range.2) root new
      pure (ebusy r.1, r.2)

/-! ## Insertion -/

/-- The search for a partial overlap: the entry in the way, or the last entry to take over. -/
def scanLoop (h : Heap) (new : Ptr) : Nat → Ptr → Option (Ptr ⊕ Ptr)
  | 0, _ => none
  | fuel + 1, next =>
      if (h next).start < (h new).start ∨ (h next).stop > (h new).stop then some (.inl next)
      else
        match (h next).sibling with
        | none => some (.inr next)
        | some s => if (h s).start > (h new).stop then some (.inr next) else scanLoop h new fuel s

/-- `for (next = first; next; next = next->sibling) next->parent = new`. -/
def parentLoop (new : Ptr) : Nat → Heap → Option Ptr → Option Heap
  | 0, _, _ => none
  | _ + 1, h, none => some h
  | fuel + 1, h, some next =>
      let h := setParent h next (some new)
      parentLoop new fuel h (h next).sibling

/-- `while (next->sibling != first) next = next->sibling`; then `next->sibling = new`. -/
def relinkLoop (first new : Ptr) : Nat → Heap → Ptr → Option Heap
  | 0, _, _ => none
  | fuel + 1, h, next =>
      if (h next).sibling = some first then some ((Link.sibling next).store h (some new))
      else
        match (h next).sibling with
        | none => none
        | some s => relinkLoop first new fuel h s

/-- The second half of `__insert_resource`: the entries from `first` to `last` become children of
    `new`. -/
def adopt (parent new first last : Ptr) : Option Heap := do
  let h := update h new
    { h new with parent := some parent, sibling := (h last).sibling, child := some first }
  let h := (Link.sibling last).store h none
  let h ← parentLoop new fuel h (some first)
  match (h parent).child with
  | none => none
  | some c =>
      if c = first then pure ((Link.child parent).store h (some new))
      else relinkLoop first new fuel h c

/-- From the first conflicting entry on: refuse a partial overlap, take over the rest. -/
def takeOver (parent new first : Ptr) : Option (Option Ptr × Heap) := do
  match ← scanLoop h new fuel first with
  | .inl next => pure (some next, h)
  | .inr last => do
      let h ← adopt fuel h parent new first last
      pure (none, h)

/-- `__insert_resource`. -/
def insertResourceLocked : Nat → Heap → Ptr → Ptr → Option (Option Ptr × Heap)
  | 0, _, _, _ => none
  | fuel + 1, h, parent, new => do
      match ← requestResourceLocked fuel h parent new with
      | (none, h) => pure (none, h)
      | (some first, h) =>
          if first = parent ∨ first = new then pure (some first, h)
          else if (h first).start > (h new).start ∨ (h first).stop < (h new).stop ∨
              (h first).start = (h new).start ∧ (h first).stop = (h new).stop then
            takeOver fuel h parent new first
          else insertResourceLocked fuel h first new

def insertResource (parent new : Ptr) : Option (Int × Heap) := do
  let r ← insertResourceLocked fuel h parent new
  pure (ebusy r.1, r.2)

/-- The loop of `insert_resource_expand_to_fit`; the Boolean says whether `new` is in the tree. -/
def expandLoop (root new : Ptr) : Nat → Heap → Option (Bool × Heap)
  | 0, _ => none
  | fuel + 1, h => do
      match ← insertResourceLocked fuel h root new with
      | (none, h) => pure (true, h)
      | (some conflict, h) =>
          if conflict = root then pure (false, h)
          else expandLoop root new fuel (setRange h new
            (if (h conflict).start < (h new).start then (h conflict).start else (h new).start)
            (if (h conflict).stop > (h new).stop then (h conflict).stop else (h new).stop))

def insertResourceExpandToFit (root new : Ptr) : Option (Bool × Heap) :=
  if (h new).parent.isSome then some (false, h) else expandLoop root new fuel h

/-! ## Adjustment -/

/-- The loop of `adjust_resource` over the children: does one of them stick out of the new range? -/
def outsideLoop (h : Heap) (start stop : Nat) : Nat → Option Ptr → Option Bool
  | 0, _ => none
  | _ + 1, none => some false
  | fuel + 1, some tmp =>
      if (h tmp).start < start ∨ (h tmp).stop > stop then some true
      else outsideLoop h start stop fuel (h tmp).sibling

/-- `while (tmp->sibling != res) tmp = tmp->sibling`. -/
def beforeLoop (h : Heap) (res : Ptr) : Nat → Ptr → Option Ptr
  | 0, _ => none
  | fuel + 1, tmp =>
      if (h tmp).sibling = some res then some tmp
      else (h tmp).sibling.bind (beforeLoop h res fuel)

/-- The sibling in front of `res`, unless `res` is the first child. -/
def before (parent res : Ptr) : Option (Option Ptr) :=
  (h parent).child.bind fun tmp =>
    if tmp = res then some none else (beforeLoop h res fuel tmp).bind fun tmp => some (some tmp)

/-- `adjust_resource`. -/
def adjustResource (w fuel : Nat) (h : Heap) (res : Ptr) (start size : Nat) : Option (Int × Heap) :=
  let stop := (start + size + 2 ^ w - 1) % 2 ^ w
  (h res).parent.bind fun parent =>
  if start < (h parent).start ∨ stop > (h parent).stop then some (EBUSY, h)
  else (outsideLoop h start stop fuel (h res).child).bind fun outside =>
  if outside then some (EBUSY, h)
  else if (h res).sibling.any fun next => (h next).start ≤ stop then some (EBUSY, h)
  else (before fuel h parent res).bind fun tmp =>
  if tmp.any fun tmp => start ≤ (h tmp).stop then some (EBUSY, h)
  else some (0, setRange h res start stop)

/-- `__reserve_region_with_split`; `kzalloc h` is the address that `kzalloc` returns in the heap `h`. -/
def reserveRegionWithSplit (kzalloc : Heap → Ptr) (root : Ptr) : Nat → Heap → Nat → Nat → Option Heap
  | 0, _, _, _ => none
  | fuel + 1, h, start, stop =>
      let res := kzalloc h
      (requestResourceLocked fuel (update h res ⟨start, stop, true, false, none, none,
        none⟩) root res).bind fun r =>
      match r with
      | (none, h) => some h
      | (some conflict, h) =>
          if (h conflict).start ≤ start ∧ (h conflict).stop ≥ stop then some h
          else
            (if (h conflict).start > start then
              reserveRegionWithSplit kzalloc root fuel h start ((h conflict).start - 1)
            else some h).bind fun h =>
            if (h conflict).stop < stop then
              reserveRegionWithSplit kzalloc root fuel h ((h conflict).stop + 1) stop
            else some h

/-! ## Regions -/

/-- How a turn of `__request_region` under the lock can end. -/
inductive RegionResult where
  | granted
  | failed
  | sleeps (parent : Ptr)
  deriving DecidableEq, Repr

/-- The loop of `__request_region`, up to the next time the lock is dropped; `flags` is the bit
    `IORESOURCE_MUXED` of the argument. -/
def regionLoop (res : Ptr) (flags : Bool) : Nat → Heap → Ptr → Option (RegionResult × Heap)
  | 0, _, _ => none
  | fuel + 1, h, parent => do
      match ← requestResourceLocked fuel h parent res with
      | (none, h) => pure (.granted, h)
      | (some conflict, h) =>
          if conflict ≠ parent ∧ (h conflict).busy = false then regionLoop res flags fuel h conflict
          else if (h conflict).muxed && flags then pure (.sleeps conflict, h)
          else pure (.failed, h)

/-- The descriptor `kzalloc` and the assignments after it give. -/
def newRegion (w start n : Nat) (flags : Bool) : Resource :=
  ⟨start, (start + n + 2 ^ w - 1) % 2 ^ w, true, flags, none, none, none⟩

/-- `__request_region` up to the first time the lock is dropped; `res` is what `kzalloc` returns. -/
def requestRegion (w fuel : Nat) (h : Heap) (parent : Ptr) (start n : Nat) (flags : Bool)
    (res : Option Ptr) : Option (RegionResult × Heap) :=
  match res with
  | none => some (.failed, h)
  | some res => regionLoop res flags fuel (update h res (newRegion w start n flags)) parent

/-- The loop of `__release_region`: the region that has been unlinked, if there was one. -/
def releaseRegionLoop (start stop : Nat) : Nat → Heap → Link → Option (Option Ptr × Heap)
  | 0, _, _ => none
  | fuel + 1, h, p =>
      match p.load h with
      | none => some (none, h)
      | some res =>
          if (h res).start ≤ start ∧ (h res).stop ≥ stop then
            if (h res).busy = false then releaseRegionLoop start stop fuel h (.child res)
            else if (h res).start ≠ start ∨ (h res).stop ≠ stop then some (none, h)
            else some (some res, p.store h (h res).sibling)
          else releaseRegionLoop start stop fuel h (.sibling res)

def releaseRegion (w fuel : Nat) (h : Heap) (parent : Ptr) (start n : Nat) :
    Option (Option Ptr × Heap) :=
  releaseRegionLoop start ((start + n + 2 ^ w - 1) % 2 ^ w) fuel h (.child parent)

end LinuxKernel.ResourceTree
