/-
  The page allocator (`mm/page_alloc.c`): `__rmqueue` and `__free_one_page` on one zone.

  1. **Data** — pages are numbered by their pfn.  A `struct page` is reduced to `PageBuddy` and the
     `private` field, where `page_order` reads; `page->lru` puts it on at most one free list, so
     `list_del` takes it off whichever list it is on (`Bins.remove`).

  2. **Freeing** — `coalesce` is the loop of `__free_one_page` that merges the block with its buddies.
     The loop is bounded by `MAX_ORDER`, which is the fuel.

  3. **Allocating** — `rmqueueSmallest` searches the lists of one migrate type, `rmqueueFallback` steals
     from the others, largest blocks first, and may move a whole pageblock to the type that was asked for
     (`moveFreepagesBlock`); `MIGRATE_RESERVE` is the last resort.

  Left out: tracing, `VM_BUG_ON`, and `destroy_compound_page` (a compound page is taken apart before it is
  freed).  `page_zone_id` is taken to tell zones apart.
-/
import LinuxKernel.Base.Bins

namespace LinuxKernel.PageAlloc

/-! ## Data -/

inductive MigrateType where
  | unmovable
  | reclaimable
  | movable
  | reserve
  | isolate
  deriving DecidableEq, Repr

/-- What is fixed: the configuration, and the memory map around the zone.  The zone has pages in its span
    only, and the pages of a pageblock inside the span all belong to one zone: this is what `move_freepages`
    checks with a `BUG_ON`. -/
structure Layout where
  maxOrder : Nat
  pageblockOrder : Nat
  pageGroupByMobilityDisabled : Bool
  pfnValidWithin : Nat → Bool
  pageZoneId : Nat → Nat
  zoneId : Nat
  zoneStartPfn : Nat
  spannedPages : Nat
  in_span : ∀ n, pfnValidWithin n = true → pageZoneId n = zoneId →
    zoneStartPfn ≤ n ∧ n < zoneStartPfn + spannedPages
  one_zone : ∀ a b, a / 2 ^ pageblockOrder = b / 2 ^ pageblockOrder →
    zoneStartPfn ≤ a → a < zoneStartPfn + spannedPages → zoneStartPfn ≤ b →
    b < zoneStartPfn + spannedPages → pfnValidWithin a = true → pfnValidWithin b = true →
    pageZoneId a = pageZoneId b

/-- `struct page`: `PageBuddy`, and `private`. -/
structure Page where
  buddy : Bool
  priv : Nat
  deriving DecidableEq, Repr

/-- `struct zone`, with the pages and the types of the pageblocks. -/
structure Zone where
  page : Nat → Page
  freeList : Nat × MigrateType → List Nat
  nrFree : Nat → Int
  pageblockType : Nat → MigrateType

variable (L : Layout)

/-- The pages of the zone. -/
def Layout.Owned (n : Nat) : Prop := L.pfnValidWithin n = true ∧ L.pageZoneId n = L.zoneId

/-! ## Lists and flags -/

variable (z : Zone) (page order : Nat)

def setPageOrder : Zone :=
  { z with page := Function.update z.page page ⟨true, order⟩ }

def rmvPageOrder (page : Nat) : Zone :=
  { z with page := Function.update z.page page ⟨false, 0⟩ }

variable (migratetype : MigrateType)

def listAdd : Zone :=
  { z with freeList := Bins.push z.freeList (order, migratetype) page }

def listAddTail : Zone :=
  { z with freeList := Bins.add z.freeList (order, migratetype) page }

def listDel (page : Nat) : Zone := { z with freeList := Bins.remove z.freeList page }

def listMove : Zone :=
  listAdd (listDel z page) page order migratetype

/-- `free_area[order].nr_free += n`. -/
def addNrFree (order : Nat) (n : Int) : Zone :=
  { z with nrFree := Function.update z.nrFree order (z.nrFree order + n) }

/-! ## `__free_one_page` -/

def findBuddyIndex (pageIdx order : Nat) : Nat := pageIdx ^^^ (1 <<< order)

def pageIsBuddy (page buddy order : Nat) : Bool :=
  if L.pfnValidWithin buddy = false then false
  else if L.pageZoneId page ≠ L.pageZoneId buddy then false
  else (z.page buddy).buddy && (z.page buddy).priv == order

/-- The variables of `__free_one_page` after the loop. -/
structure Merged where
  zone : Zone
  page : Nat
  pageIdx : Nat
  order : Nat
  buddy : Nat
  buddyIdx : Nat

/-- Merge with the buddy and move up one order, while the buddy is free. -/
def coalesce : Nat → Merged → Merged
  | 0, s => s
  | fuel + 1, s =>
    if s.order < L.maxOrder - 1 then
      let buddyIdx := findBuddyIndex s.pageIdx s.order
      let buddy := s.page + buddyIdx - s.pageIdx
      if pageIsBuddy L s.zone s.page buddy s.order then
        let z := rmvPageOrder (addNrFree (listDel s.zone buddy) s.order (-1)) buddy
        let combinedIdx := buddyIdx &&& s.pageIdx
        coalesce fuel ⟨z, s.page + combinedIdx - s.pageIdx, combinedIdx, s.order + 1, buddy, buddyIdx⟩
      else { s with buddy := buddy, buddyIdx := buddyIdx }
    else s

/-- Is the buddy of the next-highest order free?  (`higher_buddy` is reckoned from `page`, not from
    `higher_page`.) -/
def higherBuddyFree (s : Merged) : Bool :=
  if s.order < L.maxOrder - 2 ∧ L.pfnValidWithin s.buddy then
    let combinedIdx := s.buddyIdx &&& s.pageIdx
    let higherPage := s.page + combinedIdx - s.pageIdx
    let buddyIdx := findBuddyIndex combinedIdx (s.order + 1)
    let higherBuddy := s.page + buddyIdx - combinedIdx
    pageIsBuddy L s.zone higherPage higherBuddy (s.order + 1)
  else false

def freeOnePage : Zone :=
  let pageIdx := page &&& (2 ^ L.maxOrder - 1)
  let s := coalesce L L.maxOrder ⟨z, page, pageIdx, order, 0, 0⟩
  let s := { s with zone := setPageOrder s.zone s.page s.order }
  let z :=
    if higherBuddyFree L s then listAddTail s.zone s.page s.order migratetype
    else listAdd s.zone s.page s.order migratetype
  addNrFree z s.order 1

/-! ## `__rmqueue_smallest` -/

/-- Split a block of order `high`, and give back all but its first `2 ^ low` pages. -/
def expand (page low : Nat) (migratetype : MigrateType) : Nat → Zone → Zone
  | 0, z => z
  | high + 1, z =>
    if high + 1 > low then
      let size := 2 ^ high
      let z := addNrFree (listAdd z (page + size) high migratetype) high 1
      expand page low migratetype high (setPageOrder z (page + size) high)
    else z

/-- The orders from `currentOrder` on, `fuel` of them. -/
def smallestFrom (z : Zone) (order : Nat) (migratetype : MigrateType) : Nat → Nat → Option (Nat × Zone)
  | 0, _ => none
  | fuel + 1, currentOrder =>
    match z.freeList (currentOrder, migratetype) with
    | [] => smallestFrom z order migratetype fuel (currentOrder + 1)
    | page :: _ =>
      let z := addNrFree (rmvPageOrder (listDel z page) page) currentOrder (-1)
      some (page, expand page order migratetype currentOrder z)

def rmqueueSmallest (order : Nat) (migratetype : MigrateType) : Option (Nat × Zone) :=
  smallestFrom z order migratetype (L.maxOrder - order) order

/-! ## `__rmqueue_fallback` -/

/-- The order in which the lists are fallen back to.  Entries that the table leaves out are 0. -/
def fallbacks : MigrateType → List MigrateType
  | .unmovable => [.reclaimable, .movable, .reserve, .unmovable]
  | .reclaimable => [.unmovable, .movable, .reserve, .unmovable]
  | .movable => [.reclaimable, .unmovable, .reserve, .unmovable]
  | .reserve => [.reserve, .reserve, .reserve, .unmovable]
  | .isolate => [.unmovable, .unmovable, .unmovable, .unmovable]

/-- The loop of `move_freepages`: how many pages have been moved, and the zone. -/
def moveFreepages (migratetype : MigrateType) (endPage : Nat) : Nat → Zone → Nat → Nat → Nat × Zone
  | 0, z, _, moved => (moved, z)
  | fuel + 1, z, page, moved =>
    if page ≤ endPage then
      if L.pfnValidWithin page = false then moveFreepages migratetype endPage fuel z (page + 1) moved
      else if (z.page page).buddy = false then moveFreepages migratetype endPage fuel z (page + 1) moved
      else
        let order := (z.page page).priv
        moveFreepages migratetype endPage fuel (listMove z page order migratetype) (page + 2 ^ order)
          (moved + 2 ^ order)
    else (moved, z)

def moveFreepagesBlock (page : Nat) (migratetype : MigrateType) : Nat × Zone :=
  let startPfn := page - page % 2 ^ L.pageblockOrder
  let endPfn := startPfn + 2 ^ L.pageblockOrder - 1
  -- do not cross zone boundaries
  let startPage := if startPfn < L.zoneStartPfn then page else startPfn
  if endPfn ≥ L.zoneStartPfn + L.spannedPages then (0, z)
  else moveFreepages L migratetype endPfn (endPfn + 1 - startPage) z startPage 0

def setPageblockMigratetype (page : Nat) (migratetype : MigrateType) : Zone :=
  let migratetype := if L.pageGroupByMobilityDisabled then .unmovable else migratetype
  { z with pageblockType := Function.update z.pageblockType (page / 2 ^ L.pageblockOrder) migratetype }

/-- `nr` pageblocks. -/
def changePageblockRange (migratetype : MigrateType) : Nat → Zone → Nat → Zone
  | 0, z, _ => z
  | nr + 1, z, page =>
    changePageblockRange migratetype nr (setPageblockMigratetype L z page migratetype)
      (page + 2 ^ L.pageblockOrder)

/-- The first block of this order on the lists to fall back to, and its type. -/
def firstFallback (z : Zone) (currentOrder : Nat) : List MigrateType → Option (Nat × MigrateType)
  | [] => none
  | migratetype :: types =>
    -- MIGRATE_RESERVE handled later if necessary
    if migratetype = .reserve then firstFallback z currentOrder types
    else
      match z.freeList (currentOrder, migratetype) with
      | [] => firstFallback z currentOrder types
      | page :: _ => some (page, migratetype)

/-- If breaking a large block of pages, move all free pages to the preferred allocation list, and claim
    the whole block if over half of it is free.  The type of the lists for the rest of the block, and the
    zone. -/
def claimBlock (page currentOrder : Nat) (migratetype startMigratetype : MigrateType) :
    MigrateType × Zone :=
  if currentOrder ≥ L.pageblockOrder / 2 ∨ startMigratetype = .reclaimable ∨
    L.pageGroupByMobilityDisabled = true then
    let (pages, z) := moveFreepagesBlock L z page startMigratetype
    (startMigratetype,
      if pages ≥ 2 ^ (L.pageblockOrder - 1) ∨ L.pageGroupByMobilityDisabled = true then
        setPageblockMigratetype L z page startMigratetype
      else z)
  else (migratetype, z)

/-- Take this block. -/
def stealBlock (order page currentOrder : Nat) (migratetype startMigratetype : MigrateType) :
    Zone :=
  let (migratetype, z) :=
    claimBlock L (addNrFree z currentOrder (-1)) page currentOrder migratetype startMigratetype
  let z := rmvPageOrder (listDel z page) page
  let z :=
    if currentOrder ≥ L.pageblockOrder then
      changePageblockRange L startMigratetype (2 ^ (currentOrder - L.pageblockOrder)) z page
    else z
  expand page order migratetype currentOrder z

/-- The orders below `n`, from the largest one down to `order`. -/
def fallbackBelow (z : Zone) (order : Nat) (startMigratetype : MigrateType) : Nat → Option (Nat × Zone)
  | 0 => none
  | currentOrder + 1 =>
    if currentOrder ≥ order then
      match firstFallback z currentOrder (fallbacks startMigratetype) with
      | some (page, migratetype) =>
        some (page, stealBlock L z order page currentOrder migratetype startMigratetype)
      | none => fallbackBelow z order startMigratetype currentOrder
    else none

def rmqueueFallback (order : Nat) (startMigratetype : MigrateType) : Option (Nat × Zone) :=
  fallbackBelow L z order startMigratetype L.maxOrder

/-! ## `__rmqueue` -/

/-- The block, or `NULL`; the zone has not changed then. -/
def rmqueue (order : Nat) (migratetype : MigrateType) : Option (Nat × Zone) :=
  match rmqueueSmallest L z order migratetype with
  | some r => some r
  | none =>
    if migratetype ≠ .reserve then
      match rmqueueFallback L z order migratetype with
      | some r => some r
      | none => rmqueueSmallest L z order .reserve
    else none

end LinuxKernel.PageAlloc
