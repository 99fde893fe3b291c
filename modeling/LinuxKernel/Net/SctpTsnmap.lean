/-
  The TSN map of an SCTP association (`net/sctp/tsnmap.c`).

  1. **The map** — `tsn_map` is a bitmap of `len` bits whose bit 0 stands for `base_tsn`;
     `cumulative_tsn_ack_point` is one behind.  While there is no gap (`cumulative_tsn_ack_point =
     max_tsn_seen`) the bitmap is not touched.

  2. **Fixed width** — TSNs are 32-bit numbers that wrap, compared by the sign of their difference;
     lengths and gaps are cut to 16 bits wherever the source cuts them.  A word has `W` bits.

  3. **Growing** — the memory is enlarged by reallocation, which may fail; the old bits are copied in
     whole words.
-/
import LinuxKernel.Base.Bitmap
import LinuxKernel.Base.SeqNum

namespace LinuxKernel.SctpTsnmap

open BitVec (ofNat)
open LinuxKernel.Bitmap LinuxKernel.SeqNum

/-! ## Numbers -/

def TSN_SIGN_BIT : U32 := 0x80000000#32
def tsnLt (s t : U32) : Bool := ((s - t) &&& TSN_SIGN_BIT) != 0#32
def tsnLte (s t : U32) : Bool := s == t || ((s - t) &&& TSN_SIGN_BIT) != 0#32
def SCTP_TSN_MAP_SIZE : Nat := 4096
def SCTP_MAX_GABS : Nat := 16

/-- A number stored in a `__u16`. -/
def u16 (n : Nat) : Nat := n % 2 ^ 16

/-- `ALIGN(x, a)` -/
def align (x a : Nat) : Nat := (x + (a - 1)) / a * a

/-! ## The map -/

structure Tsnmap where
  tsnMap : Bits
  baseTsn : U32
  cumulativeTsnAckPoint : U32
  maxTsnSeen : U32
  len : Nat

/-- `sctp_tsnmap_init`; `old` is the length of the bitmap that is there already, if there is one.  A new
    one has `SCTP_TSN_MAP_INITIAL` bits, one word. -/
def sctpTsnmapInit (W : Nat) (old : Option Nat) (initialTsn : U32) : Tsnmap where
  tsnMap _ := false
  baseTsn := initialTsn
  cumulativeTsnAckPoint := initialTsn - 1#32
  maxTsnSeen := initialTsn - 1#32
  len := old.getD W

variable (map : Tsnmap)

def sctpTsnmapHasGap : Bool := map.cumulativeTsnAckPoint != map.maxTsnSeen

def sctpTsnmapCheck (tsn : U32) : Int :=
  if tsnLte tsn map.cumulativeTsnAckPoint then 1
  else if !tsnLt tsn (map.baseTsn + ofNat 32 SCTP_TSN_MAP_SIZE) then -1
  else
    let gap := (tsn - map.baseTsn).toNat
    if decide (gap < map.len) && map.tsnMap gap then 1 else 0

def sctpTsnmapUpdate : Tsnmap :=
  let len := u16 (map.maxTsnSeen - map.cumulativeTsnAckPoint).toNat
  let zeroBit := findNext (fun i => !map.tsnMap i) len 0
  if zeroBit = 0 then map
  else
    { map with baseTsn := map.baseTsn + ofNat 32 zeroBit
               cumulativeTsnAckPoint := map.cumulativeTsnAckPoint + ofNat 32 zeroBit
               tsnMap := bitmapShiftRight map.tsnMap zeroBit map.len }

/-- `sctp_tsnmap_grow`, for a `gap` that is not below `len`; `alloc` says whether `kzalloc` succeeds. -/
def sctpTsnmapGrow (W : Nat) (alloc : Bool) (map : Tsnmap) (gap : Nat) : Option Tsnmap :=
  if SCTP_TSN_MAP_SIZE ≤ gap then none
  else
    let inc := align (gap - map.len) W + W
    let len := min (u16 (map.len + inc)) SCTP_TSN_MAP_SIZE
    if alloc then
      some { map with tsnMap := bitmapCopy W (map.maxTsnSeen - map.baseTsn).toInt map.tsnMap (fun _ => false)
                      len := len }
    else none

/-- The part of `sctp_tsnmap_mark` behind the growing. -/
def record (tsn : U32) (gap : Nat) : Tsnmap :=
  if !sctpTsnmapHasGap map && gap == 0 then
    { map with maxTsnSeen := map.maxTsnSeen + 1#32
               cumulativeTsnAckPoint := map.cumulativeTsnAckPoint + 1#32
               baseTsn := map.baseTsn + 1#32 }
  else
    sctpTsnmapUpdate
      { map with maxTsnSeen := if tsnLt map.maxTsnSeen tsn then tsn else map.maxTsnSeen
                 tsnMap := Function.update map.tsnMap gap true }

/-- `sctp_tsnmap_mark`; `none` is `-ENOMEM`. -/
def sctpTsnmapMark (W : Nat) (alloc : Bool) (map : Tsnmap) (tsn : U32) : Option Tsnmap :=
  if tsnLt tsn map.baseTsn then some map
  else
    let gap := u16 (tsn - map.baseTsn).toNat
    if map.len ≤ gap then (sctpTsnmapGrow W alloc map gap).map fun map => record map tsn gap
    else some (record map tsn gap)

def sctpTsnmapSkip (tsn : U32) : Tsnmap :=
  if tsnLt tsn map.baseTsn then map
  else if !tsnLt tsn (map.baseTsn + ofNat 32 SCTP_TSN_MAP_SIZE) then map
  else
    let gap := tsn - map.baseTsn + 1#32
    let map₁ := { map with maxTsnSeen := if tsnLt map.maxTsnSeen tsn then tsn else map.maxTsnSeen
                           baseTsn := map.baseTsn + gap
                           cumulativeTsnAckPoint := map.cumulativeTsnAckPoint + gap }
    if map.len ≤ gap.toNat then { map₁ with tsnMap := fun _ => false }
    else sctpTsnmapUpdate { map₁ with tsnMap := bitmapShiftRight map.tsnMap gap.toNat map.len }

def sctpTsnmapRenege (tsn : U32) : Tsnmap :=
  if tsnLt tsn map.baseTsn then map
  else if !tsnLt tsn (map.baseTsn + ofNat 32 map.len) then map
  else { map with tsnMap := Function.update map.tsnMap (tsn - map.baseTsn).toNat false }

def sctpTsnmapPending : BitVec 16 :=
  let pendingData := ofNat 16 (map.maxTsnSeen - map.cumulativeTsnAckPoint).toNat
  let gap := (map.maxTsnSeen - map.baseTsn).toNat
  if gap = 0 ∨ map.len ≤ gap then pendingData
  else (List.range (gap + 1)).foldl (fun pending i =>
    if map.tsnMap i then pending - 1#16 else pending) pendingData

/-! ## Gap ack blocks -/

/-- `sctp_tsnmap_find_gap_ack`; `*start` and `*end` are 0 when it is called. -/
def sctpTsnmapFindGapAck (map : Bits) (off len : Nat) : Nat × Nat :=
  let i := findNext map len off
  let start := if i < len then u16 i else 0
  if start ≠ 0 then
    let j := findNext (fun k => !map k) len i
    (start, if j < len then u16 (j - 1) else 0)
  else (start, 0)

/-- `sctp_tsnmap_next_gap_ack`: the next block, and where the iterator goes. -/
def sctpTsnmapNextGapAck (iter : U32) : Option ((Nat × Nat) × U32) :=
  if tsnLte map.maxTsnSeen iter then none
  else
    let offset := u16 (iter - map.baseTsn).toNat
    let r := sctpTsnmapFindGapAck map.tsnMap offset map.len
    let end_ := if r.1 ≠ 0 ∧ r.2 = 0 then u16 (map.len - 1) else r.2
    if end_ ≠ 0 then
      let stop := u16 (end_ + 1)
      some ((u16 (r.1 + 1), stop), map.cumulativeTsnAckPoint + ofNat 32 stop + 1#32)
    else none

/-- The loop of `sctp_tsnmap_num_gabs`, with room for so many blocks. -/
def gabsFrom (map : Tsnmap) : Nat → U32 → List (Nat × Nat)
  | 0, _ => []
  | room + 1, iter =>
    match sctpTsnmapNextGapAck map iter with
    | none => []
    | some (gab, iter') => gab :: gabsFrom map room iter'

def sctpTsnmapNumGabs : List (Nat × Nat) :=
  if sctpTsnmapHasGap map then gabsFrom map SCTP_MAX_GABS (map.cumulativeTsnAckPoint + 1#32) else []

end LinuxKernel.SctpTsnmap
