/-
  What the TSN map records, over whole runs.

  1. **Positions** — `tsnAt i p` is the TSN at position `p`, counted without wrapping; position 0 is the
     one before the initial TSN.  The abstract state says which positions have been GOT (marked and not
     reneged, or skipped) and which position is the highest ever seen.  A TSN stands for the position
     within half of the circle beyond the cumulative point.

  2. **Tracking (`Tracks`)** — the bitmap from `base_tsn` on is the got positions from `n + 1` on, where
     `n` is the position of the cumulative point; nothing is got above the highest, and the highest is
     within the bitmap.  Every operation changes this in one of two ways: a bit, or the point;
     `sctp_tsnmap_update` then moves the point over the got positions ahead of it.

  3. **The crux (`grow_tracks`)** — growing copies the words that hold `max_tsn_seen - base_tsn` bits,
     and the bit of `max_tsn_seen` ITSELF is the next one: it is copied only when it lies in one of these
     words.
-/
import LinuxKernel.Base.Run
import LinuxKernel.Net.SctpTsnmap

namespace LinuxKernel.SctpTsnmap

open Nat (mod_eq_of_lt)
open BitVec (ofNat toNat_ofNat)
open Function LinuxKernel.Bitmap LinuxKernel.SeqNum List Option

/-! ## Comparing TSNs -/

theorem sign_iff (x : U32) : ((x &&& TSN_SIGN_BIT) != 0#32) = true ↔ 2 ^ 31 ≤ x.toNat := by
  have h : TSN_SIGN_BIT = BitVec.twoPow 32 31 := by decide
  rw [h, BitVec.and_twoPow]
  have hmsb : x.getLsbD 31 = x.msb := by rw [BitVec.msb_eq_getLsbD_last]
  rw [hmsb, BitVec.msb_eq_decide]
  by_cases hx : 2 ^ (32 - 1) ≤ x.toNat
  · simp only [hx, decide_true, if_true, iff_true]
    decide
  · simp

theorem tsnLt_iff (s t : U32) : tsnLt s t = true ↔ 2 ^ 31 ≤ off t s := sign_iff _

theorem tsnLte_iff (s t : U32) : tsnLte s t = true ↔ off t s = 0 ∨ 2 ^ 31 ≤ off t s := by
  unfold tsnLte
  rw [Bool.or_eq_true, beq_iff_eq, sign_iff]
  refine or_congr ?_ Iff.rfl
  rw [eq_iff (c := t)]
  simp [off]

/-- The distance from further on. -/
theorem off_of_add (c t : U32) {k : Nat} (hk : k ≤ 2 ^ 32) :
    off (c + ofNat 32 k) t = (off c t + 2 ^ 32 - k) % 2 ^ 32 := by
  rw [off_eq, off_eq, BitVec.toNat_add, toNat_ofNat]
  omega

/-! ## Positions -/

/-- The TSN at a position, when the initial TSN is at position 1. -/
def tsnAt (initial : U32) (p : Nat) : U32 := initial - 1#32 + ofNat 32 p

theorem tsnAt_add (i : U32) (p k : Nat) : tsnAt i p + ofNat 32 k = tsnAt i (p + k) := by
  unfold tsnAt
  rw [BitVec.add_assoc, ← BitVec.ofNat_add]

theorem off_tsnAt (i : U32) (n : Nat) {k : Nat} (hk : k < 2 ^ 32) :
    off (tsnAt i n) (tsnAt i (n + k)) = k := by
  rw [← tsnAt_add, off, BitVec.add_comm, BitVec.add_sub_cancel, toNat_ofNat]
  exact mod_eq_of_lt hk

/-- The position of a TSN that lies beyond position `n`; nothing for one at or before it. -/
def position (i : U32) (n : Nat) (t : U32) : Option Nat :=
  let d := off (tsnAt i n) t
  if 0 < d ∧ d < 2 ^ 31 then some (n + d) else none

variable {i t : U32} {n p : Nat}

theorem position_eq_some : position i n t = some p ↔
    p = n + off (tsnAt i n) t ∧ 0 < off (tsnAt i n) t ∧ off (tsnAt i n) t < 2 ^ 31 := by
  unfold position
  dsimp only
  split
  · rename_i h
    rw [Option.some.injEq]
    exact ⟨fun e => ⟨e.symm, h⟩, fun e => e.1.symm⟩
  · rename_i h
    exact ⟨fun e => absurd e.symm (some_ne_none p), fun e => absurd e.2 h⟩

theorem position_eq_none : position i n t = none ↔ tsnLte t (tsnAt i n) = true := by
  rw [tsnLte_iff]
  unfold position
  dsimp only
  split
  · rename_i h
    constructor
    · intro e
      cases e
    · intro e
      omega
  · rename_i h
    constructor
    · intro _
      omega
    · intro _
      rfl

theorem tsnAt_position (h : position i n t = some p) : t = tsnAt i p := by
  obtain ⟨rfl, h₁, h2⟩ := position_eq_some.mp h
  refine off_inj (c := tsnAt i n) ?_
  rw [off_tsnAt i n (by omega)]

/-! ## Tracking -/

/-- The map represents the got positions, with the cumulative point at position `n`. -/
structure Tracks (W : Nat) (i : U32) (got : Nat → Bool) (top : Nat) (map : Tsnmap) (n : Nat) : Prop where
  below : ∀ p, p ≤ n → got p = true
  above : ∀ p, top < p → got p = false
  cum : map.cumulativeTsnAckPoint = tsnAt i n
  base : map.baseTsn = tsnAt i (n + 1)
  seen : map.maxTsnSeen = tsnAt i top
  bits : ∀ k, k < map.len → map.tsnMap k = got (n + 1 + k)
  le_top : n ≤ top
  top_le : top ≤ n + map.len
  words : W ∣ map.len
  pos : 0 < map.len
  size : map.len ≤ SCTP_TSN_MAP_SIZE

section Ops
variable {W : Nat} {i : U32} {got : Nat → Bool} {top n : Nat} {map : Tsnmap}

section
variable (h : Tracks W i got top map n)
include h

theorem Tracks.len_le : map.len ≤ 4096 := h.size

theorem Tracks.off_max : (map.maxTsnSeen - map.cumulativeTsnAckPoint).toNat = top - n := by
  obtain ⟨k, rfl⟩ := Nat.exists_eq_add_of_le h.le_top
  have hk : k < 2 ^ 32 := by
    have := h.top_le
    have := h.len_le
    omega
  rw [h.cum, h.seen, Nat.add_sub_cancel_left]
  exact off_tsnAt i n hk

theorem Tracks.hasGap_iff : sctpTsnmapHasGap map = true ↔ n < top := by
  have hoff := h.off_max
  have hle := h.le_top
  unfold sctpTsnmapHasGap
  rw [bne_iff_ne]
  constructor
  · intro hne
    rcases lt_or_ge n top with hlt | hge
    · exact hlt
    · refine absurd ?_ hne
      rw [h.cum, h.seen, le_antisymm hle hge]
  · intro hlt e
    rw [e, BitVec.sub_self] at hoff
    have h0 : (0#32).toNat = 0 := rfl
    omega

/-- The distance from `base_tsn` is one less than that from the cumulative point. -/
theorem Tracks.off_base (t : U32) : (t - map.baseTsn).toNat = (off (tsnAt i n) t + 2 ^ 32 - 1) % 2 ^ 32 := by
  rw [h.base, ← tsnAt_add]
  exact off_of_add _ _ (by omega)

variable {k : Nat}

theorem Tracks.off_end (t : U32) (hk : k < 2 ^ 31) :
    off (map.baseTsn + ofNat 32 k) t = (off (tsnAt i n) t + 2 ^ 32 - (k + 1)) % 2 ^ 32 := by
  rw [h.base, tsnAt_add, Nat.add_assoc, ← tsnAt_add, off_of_add _ _ (by omega), Nat.add_comm 1 k]

/-- **`sctp_tsnmap_check`**, on a map that tracks. -/
theorem Tracks.check (t : U32) : sctpTsnmapCheck map t =
      match position i n t with
      | none => 1
      | some p => if n + SCTP_TSN_MAP_SIZE < p then -1 else if got p then 1 else 0 := by
  unfold sctpTsnmapCheck
  rw [h.cum]
  cases hp : position i n t with
  | none => rw [if_pos (position_eq_none.mp hp)]
  | some p =>
    have hlte : ¬ tsnLte t (tsnAt i n) = true := by
      rw [← position_eq_none, hp]
      exact some_ne_none p
    obtain ⟨rfl, h₁, h2⟩ := position_eq_some.mp hp
    rw [if_neg hlte]
    dsimp only
    have hlt : tsnLt t (map.baseTsn + ofNat 32 SCTP_TSN_MAP_SIZE) = true ↔ off (tsnAt i n) t ≤ 4096 := by
      rw [tsnLt_iff, h.off_end t (by decide)]
      unfold SCTP_TSN_MAP_SIZE
      omega
    have hgap : (t - map.baseTsn).toNat = off (tsnAt i n) t - 1 := by
      rw [h.off_base]
      omega
    by_cases hin : off (tsnAt i n) t ≤ 4096
    · rw [if_neg (by rw [hlt.mpr hin]; decide), hgap,
        if_neg (show ¬ n + SCTP_TSN_MAP_SIZE < n + off (tsnAt i n) t by unfold SCTP_TSN_MAP_SIZE; omega)]
      by_cases hlen : off (tsnAt i n) t - 1 < map.len
      · rw [h.bits _ hlen, show n + 1 + (off (tsnAt i n) t - 1) = n + off (tsnAt i n) t by omega]
        simp [hlen]
      · have htop := h.top_le
        rw [h.above (n + off (tsnAt i n) t) (by omega)]
        simp [hlen]
    · have hneg : tsnLt t (map.baseTsn + ofNat 32 SCTP_TSN_MAP_SIZE) = false := by
        rw [← Bool.not_eq_true, hlt]
        exact hin
      rw [hneg, if_pos (by rfl), if_pos (by unfold SCTP_TSN_MAP_SIZE; omega)]

/-- **`sctp_tsnmap_update`** moves the cumulative point over the got positions ahead of it. -/
theorem Tracks.moved : ∃ n', Tracks W i got top (sctpTsnmapUpdate map) n' ∧ got (n' + 1) = false := by
  have hsz := h.len_le
  have htop := h.top_le
  have hlen : u16 (map.maxTsnSeen - map.cumulativeTsnAckPoint).toNat = top - n := by
    rw [h.off_max]
    exact mod_eq_of_lt (by omega)
  obtain ⟨_, hz, hset, hzero⟩ := findNext_spec (fun k => !map.tsnMap k) (Nat.zero_le (top - n))
  unfold sctpTsnmapUpdate
  dsimp only
  rw [hlen]
  generalize findNext (fun k => !map.tsnMap k) (top - n) 0 = z at hz hset hzero ⊢
  have hnext : got (n + z + 1) = false := by
    rcases lt_or_ge z (top - n) with hlt | hge
    · have hbit := hzero hlt
      rw [h.bits z (by omega), Bool.not_eq_true', Nat.add_right_comm] at hbit
      exact hbit
    · exact h.above _ (by omega)
  by_cases hz0 : z = 0
  · subst hz0
    exact ⟨n, h, hnext⟩
  · rw [if_neg hz0]
    refine ⟨n + z, ⟨?_, h.above, ?_, ?_, h.seen, ?_, by omega, ?_, h.words, h.pos, h.size⟩, hnext⟩
    · intro p hp
      rcases lt_or_ge n p with hnp | hpn
      · have hbit := hset (p - (n + 1)) (Nat.zero_le _) (by omega)
        rw [h.bits _ (by omega), Bool.not_eq_false', show n + 1 + (p - (n + 1)) = p by omega] at hbit
        exact hbit
      · exact h.below p hpn
    · show map.cumulativeTsnAckPoint + ofNat 32 z = _
      rw [h.cum, tsnAt_add]
    · show map.baseTsn + ofNat 32 z = _
      rw [h.base, tsnAt_add, Nat.add_right_comm]
    · intro k hk
      show (decide (k + z < map.len) && map.tsnMap (k + z)) = _
      rcases lt_or_ge (k + z) map.len with hlt | hge
      · rw [decide_eq_true hlt, Bool.true_and, h.bits _ hlt]
        congr 1
        omega
      · rw [decide_eq_false (by omega), Bool.false_and, h.above _ (by omega)]
    · show top ≤ n + z + map.len
      omega

/-! ## Growing -/

/-- The bit of `max_tsn_seen` is set and lies at a word boundary: it is NOT among the `max_tsn_seen -
    base_tsn` bits that growing copies. -/
def TopAtBoundary (W : Nat) (map : Tsnmap) : Prop :=
  W ∣ (map.maxTsnSeen - map.baseTsn).toNat ∧ map.tsnMap (map.maxTsnSeen - map.baseTsn).toNat = true

theorem Tracks.top_lt : top - n < 2 ^ 16 := by
  have h₁ := h.top_le
  have h2 := h.len_le
  omega

theorem Tracks.off_top : off (tsnAt i n) map.maxTsnSeen = top - n := h.cum ▸ h.off_max

theorem Tracks.max_sub_base (hgap : n < top) : (map.maxTsnSeen - map.baseTsn).toNat = top - n - 1 := by
  have := h.top_lt
  rw [h.off_base, h.off_top]
  omega

theorem Tracks.bit_top (hgap : n < top) : map.tsnMap (map.maxTsnSeen - map.baseTsn).toNat = got top := by
  have htop := h.top_le
  rw [h.max_sub_base hgap, h.bits _ (by omega), show n + 1 + (top - n - 1) = top by omega]

theorem Tracks.max_sub_base_no_gap (hgap : top ≤ n) : (map.maxTsnSeen - map.baseTsn).toNat = 2 ^ 32 - 1 := by
  rw [h.off_base, h.off_top]
  omega

end

section
variable (hW : W = 32 ∨ W = 64) (h : Tracks W i got top map n)
include hW h

theorem Tracks.gap_of_dvd (hd : W ∣ (map.maxTsnSeen - map.baseTsn).toNat) : n < top := by
  by_contra hge
  rw [h.max_sub_base_no_gap (not_lt.mp hge)] at hd
  rcases hW with rfl | rfl <;> exact absurd hd (by decide)

/-- How many bits the words copied hold. -/
theorem Tracks.copied : top - n - 1 ≤ W * bitsToLongs W (map.maxTsnSeen - map.baseTsn).toInt ∧
      W * bitsToLongs W (map.maxTsnSeen - map.baseTsn).toInt < top - n - 1 + W ∧
      W * bitsToLongs W (map.maxTsnSeen - map.baseTsn).toInt ≤ map.len := by
  rcases lt_or_ge n top with hgap | hgap
  · have h₁ := h.max_sub_base hgap
    have h2 := h.top_lt
    have hint : (map.maxTsnSeen - map.baseTsn).toInt = ((top - n - 1 : Nat) : Int) := by
      rw [BitVec.toInt_eq_toNat_of_lt (by omega), h₁]
    have hbig : top - n - 1 + W - 1 < 2 ^ W := by
      rcases hW with rfl | rfl <;> omega
    obtain ⟨h3, h4⟩ := bitsToLongs_spec (W := W) (by omega) hbig
    rw [hint]
    refine ⟨h3, h4, ?_⟩
    -- both sides are whole words
    obtain ⟨c, hc⟩ := h.words
    have htop := h.top_le
    rw [hc] at htop ⊢
    refine Nat.mul_le_mul_left W (Nat.le_of_lt_succ (Nat.lt_of_mul_lt_mul_left (a := W) ?_))
    rw [Nat.mul_succ]
    omega
  · -- no gap: the number of bits is -1, and no word is copied
    have h₁ : (map.maxTsnSeen - map.baseTsn).toInt = -1 := by
      have hn := h.max_sub_base_no_gap hgap
      rw [BitVec.eq_of_toNat_eq (show _ = (ofNat 32 (2 ^ 32 - 1)).toNat from hn)]
      decide
    rw [h₁]
    have h0 : bitsToLongs W (-1) = 0 := by
      rcases hW with rfl | rfl <;> decide
    rw [h0]
    omega

/-- **Growing** keeps what is recorded, except for the highest position when its bit is at a word
    boundary: `got'` says what is left. -/
theorem Tracks.grow {gap : Nat} (hlen : map.len ≤ gap)
    (hgap : gap < SCTP_TSN_MAP_SIZE) {got' : Nat → Bool} (hsame : ∀ q, q ≠ top → got' q = got q)
    (hkept : ¬ W ∣ (map.maxTsnSeen - map.baseTsn).toNat → got' top = got top)
    (hlost : W ∣ (map.maxTsnSeen - map.baseTsn).toNat → got' top = false) :
    ∃ map', sctpTsnmapGrow W true map gap = some map' ∧ Tracks W i got' top map' n ∧ gap < map'.len := by
  obtain ⟨hc1, hc3, hc2⟩ := h.copied hW
  have hle := h.le_top
  have hW0 : 0 < W := by omega
  unfold sctpTsnmapGrow
  rw [if_neg (by omega)]
  rw [if_pos rfl]
  -- the new length
  have halign : gap - map.len ≤ align (gap - map.len) W ∧ align (gap - map.len) W < gap - map.len + W := by
    unfold align
    have h₁ := Nat.div_add_mod (gap - map.len + (W - 1)) W
    have h2 := Nat.mod_lt (gap - map.len + (W - 1)) hW0
    rw [Nat.mul_comm] at h₁
    omega
  have hdvd : W ∣ map.len + (align (gap - map.len) W + W) :=
    Nat.dvd_add h.words (Nat.dvd_add (Nat.dvd_mul_left W _) (Nat.dvd_refl W))
  generalize align (gap - map.len) W = x at halign hdvd ⊢
  have hu : u16 (map.len + (x + W)) = map.len + (x + W) := by
    unfold SCTP_TSN_MAP_SIZE at hgap
    exact mod_eq_of_lt (by omega)
  rw [hu]
  have hsize : W ∣ SCTP_TSN_MAP_SIZE := by
    rcases hW with rfl | rfl <;> decide
  have hnew : W ∣ min (map.len + (x + W)) SCTP_TSN_MAP_SIZE := by
    rcases Nat.le_total (map.len + (x + W)) SCTP_TSN_MAP_SIZE with hm | hm
    · rw [Nat.min_eq_left hm]
      exact hdvd
    · rw [Nat.min_eq_right hm]
      exact hsize
  refine ⟨_, rfl, ⟨?_, ?_, h.cum, h.base, h.seen, ?_, hle, ?_, hnew, ?_, Nat.min_le_right _ _⟩, ?_⟩
  · intro q hq
    by_cases hqt : q = top
    · rw [hqt, hkept fun hd => (h.gap_of_dvd hW hd).not_ge (hqt ▸ hq)]
      exact h.below top (hqt ▸ hq)
    · rw [hsame q hqt]
      exact h.below q hq
  · intro q hq
    rw [hsame q (by omega)]
    exact h.above q hq
  · intro k hk
    show (if k < W * bitsToLongs W _ then map.tsnMap k else false) = _
    by_cases hktop : n + 1 + k = top
    · -- the bit of the highest TSN
      have hk2 : (map.maxTsnSeen - map.baseTsn).toNat = k := by
        rw [h.max_sub_base (by omega)]
        omega
      rw [hk2] at hkept hlost
      rw [hktop]
      split
      · rename_i hin
        rw [hkept ?_, ← hktop]
        · exact h.bits k (by omega)
        · rintro ⟨c, hc⟩
          have hlo : W * c < W * bitsToLongs W (map.maxTsnSeen - map.baseTsn).toInt := by omega
          have hhi : W * bitsToLongs W (map.maxTsnSeen - map.baseTsn).toInt < W * (c + 1) := by
            rw [Nat.mul_succ]
            omega
          have h₁ := Nat.lt_of_mul_lt_mul_left hlo
          have h2 := Nat.lt_of_mul_lt_mul_left hhi
          omega
      · rename_i hout
        exact (hlost ⟨bitsToLongs W (map.maxTsnSeen - map.baseTsn).toInt, by omega⟩).symm
    · rw [hsame _ hktop]
      split
      · exact h.bits k (by omega)
      · rename_i hout
        exact (h.above _ (by omega)).symm
  · show top ≤ n + min _ _
    omega
  · show 0 < min _ _
    omega
  · show gap < min _ _
    omega

/-- Where the highest bit is not set, or not at a word boundary, nothing is lost. -/
theorem Tracks.top_missing (hsafe : ¬ TopAtBoundary W map) :
    W ∣ (map.maxTsnSeen - map.baseTsn).toNat → got top = false := by
  intro hdvd
  rw [← h.bit_top (h.gap_of_dvd hW hdvd), ← Bool.not_eq_true]
  exact fun hb => hsafe ⟨hdvd, hb⟩

end

/-! ## Recording, skipping, reneging -/

theorem tsnLt_tsnAt (i : U32) (n : Nat) {a b : Nat} (ha : a < 2 ^ 31) (hb : b < 2 ^ 31) :
    tsnLt (tsnAt i (n + a)) (tsnAt i (n + b)) = true ↔ a < b := by
  rw [tsnLt_iff, ← tsnAt_add i n b, off_of_add _ _ (by omega), off_tsnAt i n (by omega)]
  omega

variable {p : Nat}

section
variable (h : Tracks W i got top map n)
include h

/-- The highest TSN after `p` has been seen as well. -/
theorem Tracks.max_seen (hp : n < p) (hp' : p < n + 2 ^ 31) :
    (if tsnLt map.maxTsnSeen (tsnAt i p) then tsnAt i p else map.maxTsnSeen) = tsnAt i (max top p) := by
  have hle := h.le_top
  have hlt := h.top_lt
  have hiff := tsnLt_tsnAt i n (a := top - n) (b := p - n) (by omega) (by omega)
  rw [show n + (top - n) = top by omega, show n + (p - n) = p by omega, ← h.seen] at hiff
  by_cases htp : top < p
  · rw [if_pos (hiff.mpr (by omega)), Nat.max_eq_right (by omega)]
  · rw [if_neg (fun e => htp (by have := hiff.mp e; omega)), Nat.max_eq_left (by omega), h.seen]

/-- Position `p` is got now. -/
theorem Tracks.record (hn : got (n + 1) = false) (hp : n < p) (hlen : p - n - 1 < map.len) :
    ∃ n', Tracks W i (update got p true) (max top p) (record map (tsnAt i p) (p - n - 1)) n' ∧
      update got p true (n' + 1) = false := by
  have hle := h.le_top
  have htop := h.top_le
  have hsz := h.len_le
  have hgot : ∀ q, q ≠ p → update got p true q = got q := fun q hq => update_of_ne hq _ _
  unfold SctpTsnmap.record
  by_cases hnext : (!sctpTsnmapHasGap map && p - n - 1 == 0) = true
  · rw [if_pos hnext]
    rw [Bool.and_eq_true, Bool.not_eq_true', beq_iff_eq] at hnext
    have hnogap : ¬ n < top := by rw [← h.hasGap_iff, hnext.1]; exact Bool.noConfusion
    obtain rfl : top = n := by omega
    obtain rfl : p = top + 1 := by omega
    rw [Nat.max_eq_right (by omega)]
    have habove : ∀ q, top + 1 < q → update got (top + 1) true q = false := by
      intro q hq
      rw [hgot q (by omega)]
      exact h.above q (by omega)
    refine ⟨top + 1, ⟨?_, habove, ?_, ?_, ?_, ?_, by omega, by omega, h.words, h.pos, h.size⟩,
      habove _ (by omega)⟩
    · intro q hq
      rcases lt_or_ge top q with hlt | hge
      · rw [show q = top + 1 by omega, update_self]
      · rw [hgot q (by omega)]
        exact h.below q hge
    · show map.cumulativeTsnAckPoint + ofNat 32 1 = _
      rw [h.cum, tsnAt_add]
    · show map.baseTsn + ofNat 32 1 = _
      rw [h.base, tsnAt_add]
    · show map.maxTsnSeen + ofNat 32 1 = _
      rw [h.seen, tsnAt_add]
    · intro k hk
      show map.tsnMap k = _
      rw [habove _ (by omega), h.bits k hk]
      exact h.above _ (by omega)
  · rw [if_neg hnext]
    refine Tracks.moved ⟨?_, ?_, h.cum, h.base, h.max_seen hp (by omega), ?_, by omega, ?_, h.words,
      h.pos, h.size⟩
    · intro q hq
      rw [hgot q (by omega)]
      exact h.below q hq
    · intro q hq
      rw [hgot q (by omega)]
      exact h.above q (by omega)
    · intro k hk
      show update map.tsnMap (p - n - 1) true k = _
      by_cases hk' : k = p - n - 1
      · rw [hk', update_self, show n + 1 + (p - n - 1) = p by omega, update_self]
      · rw [update_of_ne hk', hgot _ (by omega)]
        exact h.bits k hk
    · show max top p ≤ n + map.len
      omega

variable {t : U32}

/-- The bit of a position beyond the cumulative point. -/
theorem Tracks.sub_base (hp : position i n t = some p) : (t - map.baseTsn).toNat = p - n - 1 := by
  obtain ⟨hpe, h₁, h2⟩ := position_eq_some.mp hp
  rw [h.off_base]
  omega

theorem Tracks.not_lt_base (hp : position i n t = some p) : ¬ tsnLt t map.baseTsn = true := by
  obtain ⟨hpe, h₁, h2⟩ := position_eq_some.mp hp
  rw [tsnLt_iff, off, h.sub_base hp]
  omega

/-- A TSN that `sctp_tsnmap_check` has not seen is within the window, and its bit is recorded. -/
theorem Tracks.mark_eq (hp : position i n t = some p) (hcheck : sctpTsnmapCheck map t = 0) (alloc : Bool) :
    n < p ∧ p ≤ n + SCTP_TSN_MAP_SIZE ∧ sctpTsnmapMark W alloc map t =
      if map.len ≤ p - n - 1 then
        (sctpTsnmapGrow W alloc map (p - n - 1)).map fun map => SctpTsnmap.record map (tsnAt i p) (p - n - 1)
      else some (SctpTsnmap.record map (tsnAt i p) (p - n - 1)) := by
  have hin : p ≤ n + SCTP_TSN_MAP_SIZE := by
    rw [h.check, hp] at hcheck
    dsimp only at hcheck
    split at hcheck
    · cases hcheck
    · omega
  obtain ⟨hpe, h₁, h2⟩ := position_eq_some.mp hp
  refine ⟨by omega, hin, ?_⟩
  unfold SCTP_TSN_MAP_SIZE at hin
  have hgap : u16 (t - map.baseTsn).toNat = p - n - 1 := by
    rw [h.sub_base hp]
    exact mod_eq_of_lt (by omega)
  unfold sctpTsnmapMark
  rw [if_neg (h.not_lt_base hp)]
  rw [hgap, tsnAt_position hp]

end

/-- **`sctp_tsnmap_mark`**, for a TSN that `sctp_tsnmap_check` has not seen. -/
theorem Tracks.mark (hW : W = 32 ∨ W = 64) (h : Tracks W i got top map n) (hn : got (n + 1) = false)
    {t : U32} {p : Nat}
    (hp : position i n t = some p) (hcheck : sctpTsnmapCheck map t = 0) {alloc : Bool}
    (hsafe : alloc = true → map.len ≤ p - n - 1 → ¬ TopAtBoundary W map) {map' : Tsnmap}
    (hmark : sctpTsnmapMark W alloc map t = some map') :
    ∃ n', Tracks W i (update got p true) (max top p) map' n' ∧ update got p true (n' + 1) = false := by
  obtain ⟨hnp, hin, heq⟩ := h.mark_eq hp hcheck alloc
  rw [heq] at hmark
  by_cases hlen : map.len ≤ p - n - 1
  · rw [if_pos hlen] at hmark
    cases alloc with
    | false =>
      unfold sctpTsnmapGrow at hmark
      rw [if_neg (show ¬ SCTP_TSN_MAP_SIZE ≤ p - n - 1 by omega)] at hmark
      cases hmark.symm
    | true =>
      obtain ⟨grown, hg, hT, hlt⟩ := h.grow hW hlen (by omega) (fun q _ => rfl) (fun _ => rfl)
        (h.top_missing hW (hsafe rfl hlen))
      rw [hg, map_some, Option.some.injEq] at hmark
      subst hmark
      exact hT.record hn hnp hlt
  · rw [if_neg hlen, Option.some.injEq] at hmark
    subst hmark
    exact h.record hn hnp (by omega)

/-- **What growing at a word boundary loses**: the highest TSN was recorded, and is not any more. -/
theorem Tracks.mark_loses (hW : W = 32 ∨ W = 64) (h : Tracks W i got top map n) (hn : got (n + 1) = false)
    (hp : position i n t = some p) (hcheck : sctpTsnmapCheck map t = 0) (hlen : map.len ≤ p - n - 1)
    (hb : TopAtBoundary W map) : 0 < sctpTsnmapCheck map map.maxTsnSeen ∧
      ∃ map', sctpTsnmapMark W true map t = some map' ∧ sctpTsnmapCheck map' map.maxTsnSeen = 0 := by
  obtain ⟨hnp, hin, heq⟩ := h.mark_eq hp hcheck true
  have htop := h.top_le
  have hsz := h.len_le
  have hgap := h.gap_of_dvd hW hb.1
  have hgot : got top = true := (h.bit_top hgap).symm.trans hb.2
  -- the position of the highest TSN, seen from a point before it
  have hpos : ∀ m, m < top → top < m + 2 ^ 31 → position i m map.maxTsnSeen = some top := by
    intro m hm hm'
    have hoff : off (tsnAt i m) map.maxTsnSeen = top - m := by
      rw [h.seen, show top = m + (top - m) by omega, off_tsnAt i m (by omega)]
      omega
    exact position_eq_some.mpr ⟨by omega, by omega, by omega⟩
  constructor
  · rw [h.check, hpos n hgap (by omega)]
    dsimp only
    rw [if_neg (by unfold SCTP_TSN_MAP_SIZE; omega), if_pos hgot]
    decide
  · obtain ⟨grown, hg, hT, hlt⟩ := h.grow hW hlen (by omega)
      (fun q hq => update_of_ne hq false got) (fun hd => absurd hb.1 hd) (fun _ => update_self top false got)
    have hn' : update got top false (n + 1) = false := by
      by_cases he : n + 1 = top
      · rw [he, update_self]
      · rw [update_of_ne he, hn]
    obtain ⟨n', hT', _⟩ := hT.record hn' hnp hlt
    have hlost : update (update got top false) p true top = false := by
      rw [update_of_ne (by omega), update_self]
    have hn'top : n' < top := by
      rcases lt_or_ge n' top with hlt | hge
      · exact hlt
      · rw [hT'.below top hge] at hlost
        cases hlost.symm
    have hsz' := hT'.len_le
    have htop' := hT'.top_le
    refine ⟨SctpTsnmap.record grown (tsnAt i p) (p - n - 1), ?_, ?_⟩
    · rw [heq, if_pos hlen, hg]
      rfl
    · rw [hT'.check, hpos n' hn'top (by omega)]
      dsimp only
      rw [if_neg (by unfold SCTP_TSN_MAP_SIZE; omega), hlost, if_neg Bool.false_ne_true]

section
variable (h : Tracks W i got top map n)
include h

/-- **`sctp_tsnmap_skip`**, for a TSN within the window. -/
theorem Tracks.skip (hp : position i n t = some p) (hin : p ≤ n + SCTP_TSN_MAP_SIZE) :
    ∃ n', Tracks W i (fun q => got q || decide (q ≤ p)) (max top p) (sctpTsnmapSkip map t) n' ∧
      (got (n' + 1) || decide (n' + 1 ≤ p)) = false := by
  have ht := tsnAt_position hp
  have htop := h.top_le
  obtain ⟨hpe, h₁, h2⟩ := position_eq_some.mp hp
  unfold SCTP_TSN_MAP_SIZE at hin
  have hsub := h.sub_base hp
  have hgap : t - map.baseTsn + 1#32 = ofNat 32 (p - n) := by
    refine BitVec.eq_of_toNat_eq ?_
    rw [BitVec.toNat_add, hsub, toNat_ofNat, toNat_ofNat]
    omega
  have hgapNat : (ofNat 32 (p - n)).toNat = p - n := by
    exact mod_eq_of_lt (by omega)
  have hnew := h.not_lt_base hp
  have hwin : tsnLt t (map.baseTsn + ofNat 32 SCTP_TSN_MAP_SIZE) = true := by
    rw [tsnLt_iff, h.off_end t (by decide)]
    unfold SCTP_TSN_MAP_SIZE
    omega
  have hbelow : ∀ q, q ≤ p → (got q || decide (q ≤ p)) = true := fun q hq => by simp [hq]
  have habove : ∀ q, max top p < q → (got q || decide (q ≤ p)) = false := by
    intro q hq
    rw [h.above q (by omega), decide_eq_false (by omega)]
    rfl
  have hcum : map.cumulativeTsnAckPoint + ofNat 32 (p - n) = tsnAt i p := by
    rw [h.cum, tsnAt_add]
    congr 1
    omega
  have hbase : map.baseTsn + ofNat 32 (p - n) = tsnAt i (p + 1) := by
    rw [h.base, tsnAt_add]
    congr 1
    omega
  have hseen : (if tsnLt map.maxTsnSeen t then t else map.maxTsnSeen) = tsnAt i (max top p) := by
    rw [ht]
    exact h.max_seen (by omega) (by omega)
  unfold sctpTsnmapSkip
  rw [if_neg hnew, hwin, if_neg (by decide)]
  dsimp only
  rw [hgap, hgapNat, hcum, hbase, hseen]
  by_cases hlen : map.len ≤ p - n
  · rw [if_pos hlen]
    refine ⟨p, ⟨hbelow, habove, rfl, rfl, rfl, ?_, Nat.le_max_right _ _, ?_, h.words, h.pos, h.size⟩,
      habove _ (by omega)⟩
    · intro k hk
      exact (habove _ (by omega)).symm
    · omega
  · rw [if_neg hlen]
    refine Tracks.moved ⟨hbelow, habove, rfl, rfl, rfl, ?_, Nat.le_max_right _ _, ?_, h.words, h.pos, h.size⟩
    · intro k hk
      show (decide (k + (p - n) < map.len) && map.tsnMap (k + (p - n))) =
        (got (p + 1 + k) || decide (p + 1 + k ≤ p))
      rw [decide_eq_false (show ¬ p + 1 + k ≤ p by omega), Bool.or_false]
      rcases lt_or_ge (k + (p - n)) map.len with hlt | hge
      · rw [decide_eq_true hlt, Bool.true_and, h.bits _ hlt]
        congr 1
        omega
      · rw [decide_eq_false (by omega), Bool.false_and, h.above _ (by omega)]
    · show max top p ≤ p + map.len
      omega

/-- A TSN at or before the cumulative point, or beyond the window, is not skipped. -/
theorem Tracks.skip_ignored
    (hout : ∀ p, position i n t = some p → n + SCTP_TSN_MAP_SIZE < p) : sctpTsnmapSkip map t = map := by
  unfold sctpTsnmapSkip
  by_cases hold : tsnLt t map.baseTsn = true
  · rw [if_pos hold]
  · rw [if_neg hold]
    refine if_pos ?_
    rw [Bool.not_eq_true', ← Bool.not_eq_true, tsnLt_iff, h.off_end t (by decide)]
    rw [tsnLt_iff, off, h.off_base] at hold
    have hlt := off_lt (tsnAt i n) t
    unfold SCTP_TSN_MAP_SIZE at hout ⊢
    cases hp : position i n t with
    | none =>
      have := (tsnLte_iff _ _).mp (position_eq_none.mp hp)
      omega
    | some p =>
      have := hout p hp
      obtain ⟨hpe, h₁, h2⟩ := position_eq_some.mp hp
      omega

/-- **`sctp_tsnmap_renege`**. -/
theorem Tracks.renege (hn : got (n + 1) = false)
    (hp : position i n t = some p) : Tracks W i (update got p false) top (sctpTsnmapRenege map t) n ∧
      update got p false (n + 1) = false := by
  have hsz := h.len_le
  obtain ⟨hpe, h₁, h2⟩ := position_eq_some.mp hp
  have hgot : ∀ q, q ≠ p → update got p false q = got q := fun q hq => update_of_ne hq _ _
  have hfalse : ∀ q, got q = false → update got p false q = false := by
    intro q hq
    by_cases hqp : q = p
    · rw [hqp, update_self]
    · rw [hgot q hqp, hq]
  have hsub := h.sub_base hp
  have hnew := h.not_lt_base hp
  have hend : tsnLt t (map.baseTsn + ofNat 32 map.len) = true ↔ p - n - 1 < map.len := by
    rw [tsnLt_iff, h.off_end t (by omega)]
    omega
  have hbelow : ∀ q, q ≤ n → update got p false q = true := by
    intro q hq
    rw [hgot q (by omega)]
    exact h.below q hq
  have habove : ∀ q, top < q → update got p false q = false := fun q hq => hfalse q (h.above q hq)
  refine ⟨?_, hfalse _ hn⟩
  unfold sctpTsnmapRenege
  rw [if_neg hnew]
  by_cases hlen : p - n - 1 < map.len
  · rw [hend.mpr hlen, if_neg (by decide), hsub]
    refine { h with below := hbelow, above := habove, bits := ?_ }
    intro k hk
    show update map.tsnMap (p - n - 1) false k = _
    by_cases hk' : k = p - n - 1
    · rw [hk', update_self, show n + 1 + (p - n - 1) = p by omega, update_self]
    · rw [update_of_ne hk', hgot _ (by omega)]
      exact h.bits k hk
  · have hout : tsnLt t (map.baseTsn + ofNat 32 map.len) = false := by
      rw [← Bool.not_eq_true, hend]
      exact hlen
    rw [hout, if_pos (by rfl)]
    refine { h with below := hbelow, above := habove, bits := ?_ }
    intro k hk
    rw [hgot _ (by omega)]
    exact h.bits k hk

theorem Tracks.renege_old (hp : position i n t = none) : sctpTsnmapRenege map t = map := by
  have hsz := h.len_le
  have hold := (tsnLte_iff _ _).mp (position_eq_none.mp hp)
  have hlt := off_lt (tsnAt i n) t
  unfold sctpTsnmapRenege
  by_cases hb : tsnLt t map.baseTsn = true
  · rw [if_pos hb]
  · rw [if_neg hb]
    refine if_pos ?_
    rw [Bool.not_eq_true', ← Bool.not_eq_true, tsnLt_iff, h.off_end t (by omega)]
    rw [tsnLt_iff, off, h.off_base] at hb
    omega

end

/-! ## Pending -/

theorem foldl_pending (f : Bits) (l : List Nat) : ∀ (x : BitVec 16),
    l.foldl (fun pending k => if f k then pending - 1#16 else pending) x = x - ofNat 16 (l.countP f) := by
  induction l with
  | nil =>
    intro x
    simp
  | cons k l ih =>
    intro x
    rw [foldl_cons, ih]
    cases hk : f k with
    | false => simp [hk]
    | true =>
      rw [if_pos rfl, countP_cons_of_pos hk, BitVec.ofNat_add]
      bv_omega

/-- The positions up to the highest that are missing. -/
def missing (got : Nat → Bool) (n top : Nat) : Nat :=
    (List.range (top - n)).countP (fun k => !got (n + 1 + k))

/-- **`sctp_tsnmap_pending`** counts the missing positions. -/
theorem Tracks.pending (h : Tracks W i got top map n) (hn : got (n + 1) = false) :
    (sctpTsnmapPending map).toNat = missing got n top := by
  have hlt := h.top_lt
  have htop := h.top_le
  have hsz := h.size
  have hdata : (ofNat 16 (map.maxTsnSeen - map.cumulativeTsnAckPoint).toNat).toNat = top - n := by
    rw [h.off_max, toNat_ofNat]
    exact mod_eq_of_lt hlt
  unfold sctpTsnmapPending missing
  rcases lt_or_ge n top with hgap | hgap
  · rw [h.max_sub_base hgap]
    by_cases hone : top - n - 1 = 0
    · rw [if_pos (.inl hone), hdata, show top - n = 1 by omega]
      simp [range_succ, hn]
    · rw [if_neg (by omega), foldl_pending, show top - n - 1 + 1 = top - n by omega]
      have hcount : (List.range (top - n)).countP map.tsnMap + (List.range (top - n)).countP (fun k =>
        !got (n + 1 + k)) =
          top - n := by
        have hsame : (List.range (top - n)).countP map.tsnMap =
            (List.range (top - n)).countP (fun k => got (n + 1 + k)) := by
          refine countP_congr fun k hk => ?_
          rw [h.bits k (by have := mem_range.mp hk; omega)]
        have hlen := length_eq_countP_add_countP (l := List.range (top - n)) (fun k => got (n + 1 + k))
        rw [length_range] at hlen
        simp only [Bool.not_eq_true, Bool.decide_eq_false] at hlen
        omega
      rw [BitVec.toNat_sub, hdata, toNat_ofNat]
      omega
  · have hneg := h.max_sub_base_no_gap hgap
    unfold SCTP_TSN_MAP_SIZE at hsz
    rw [if_pos (.inr (by omega)), hdata, show top - n = 0 by omega]
    rfl

/-! ## Gap ack blocks -/

/-- **`sctp_tsnmap_find_gap_ack`**, from a bit that is clear: the first set bit, and the end of its run
    when that is before the end of the map. -/
theorem findGapAck_spec (f : Bits) {len : Nat} (hk : k ≤ len) (hlen : len ≤ SCTP_TSN_MAP_SIZE)
    (hbit : k < len → f k = false) :
    (sctpTsnmapFindGapAck f k len = (0, 0) ∧ ∀ j, k ≤ j → j < len → f j = false) ∨
    ∃ a b, sctpTsnmapFindGapAck f k len = (a, if b < len then b - 1 else 0) ∧ k < a ∧ a < b ∧ b ≤ len ∧
      (∀ j, k ≤ j → j < a → f j = false) ∧ (∀ j, a ≤ j → j < b → f j = true) ∧ (b < len → f b = false) := by
  unfold SCTP_TSN_MAP_SIZE at hlen
  obtain ⟨h₁, h2, hclear, hset⟩ := findNext_spec f hk
  unfold sctpTsnmapFindGapAck
  dsimp only
  rcases lt_or_ge (findNext f len k) len with ha | ha
  · obtain ⟨h3, h4, hset', hclear'⟩ := findNext_spec (fun j => !f j) h2
    have hka : k < findNext f len k := by
      refine lt_of_le_of_ne h₁ fun e => ?_
      have := hset ha
      rw [← e, hbit (by omega)] at this
      exact Bool.false_ne_true this
    have hab : findNext f len k < findNext (fun j => !f j) len (findNext f len k) := by
      refine lt_of_le_of_ne h3 fun e => ?_
      have := hclear' (by omega)
      rw [← e, hset ha] at this
      exact Bool.false_ne_true this
    have hau : u16 (findNext f len k) = findNext f len k := mod_eq_of_lt (by omega)
    refine .inr ⟨findNext f len k, findNext (fun j => !f j) len (findNext f len k), ?_, hka, hab, h4, hclear,
      fun j h h' => by simpa using hset' j h h', fun h => by simpa using hclear' h⟩
    rw [if_pos ha, hau, if_pos (by omega),
      show u16 (findNext (fun j => !f j) len (findNext f len k) - 1) =
        findNext (fun j => !f j) len (findNext f len k) - 1 from mod_eq_of_lt (by omega)]
  · refine .inl ⟨?_, fun j hj hj' => hclear j hj (by omega)⟩
    have ha' : ¬ findNext f len k < len := by omega
    simp [ha']

/-- **`sctp_tsnmap_next_gap_ack`**, from a position that is missing: no got position is left, or the next
    run. -/
theorem Tracks.nextGapAck (h : Tracks W i got top map n) (hk : k ≤ map.len) (hbit : got (n + 1 + k) = false) :
    (sctpTsnmapNextGapAck map (tsnAt i (n + 1 + k)) = none ∧ ∀ p, n + 1 + k ≤ p → got p = false) ∨
    ∃ a b, sctpTsnmapNextGapAck map (tsnAt i (n + 1 + k)) = some ((a, b), tsnAt i (n + 1 + b)) ∧
      IsRun got (n + a) (n + b) ∧ k + 1 < a ∧ b ≤ map.len ∧ got (n + 1 + b) = false ∧
      ∀ p, n + 1 + k ≤ p → p < n + a → got p = false := by
  have htop := h.top_le
  have hsz : map.len ≤ 4096 := h.size
  have hend : tsnLte map.maxTsnSeen (tsnAt i (n + 1 + k)) = true ↔ top ≤ n + 1 + k := by
    have hoff : off (tsnAt i n) map.maxTsnSeen = top - n := by
      rw [← h.cum]
      exact h.off_max
    rw [tsnLte_iff, Nat.add_assoc, ← tsnAt_add, off_of_add _ _ (by omega), hoff]
    omega
  -- bits are positions
  have hgot : ∀ p, n + 1 ≤ p → p - (n + 1) < map.len → got p = map.tsnMap (p - (n + 1)) := by
    intro p hp hp'
    rw [h.bits _ hp', show n + 1 + (p - (n + 1)) = p by omega]
  unfold sctpTsnmapNextGapAck
  by_cases hdone : top ≤ n + 1 + k
  · rw [if_pos (hend.mpr hdone)]
    refine .inl ⟨rfl, fun p hp => ?_⟩
    rcases lt_or_ge top p with habove | hin
    · exact h.above p habove
    · rw [show p = n + 1 + k by omega]
      exact hbit
  · rw [if_neg (fun e => hdone (hend.mp e))]
    have hoffset : u16 (tsnAt i (n + 1 + k) - map.baseTsn).toNat = k := by
      rw [h.base, show (tsnAt i (n + 1 + k) - tsnAt i (n + 1)).toNat = k from off_tsnAt i (n + 1) (by omega)]
      exact mod_eq_of_lt (by omega)
    dsimp only
    rw [hoffset]
    rcases findGapAck_spec map.tsnMap hk h.size (fun hk' => (h.bits k hk').trans hbit) with
      ⟨hnone, hclear⟩ | ⟨a, b, hsome, hka, hab, hb, hclear, hset, hnext⟩
    · rw [hnone]
      refine .inl ⟨by simp, fun p hp => ?_⟩
      rcases lt_or_ge (p - (n + 1)) map.len with hp' | hp'
      · rw [hgot p (by omega) hp']
        exact hclear _ (by omega) hp'
      · exact h.above p (by omega)
    · have hstop : (if a ≠ 0 ∧ (if b < map.len then b - 1 else 0) = 0 then u16 (map.len - 1)
          else if b < map.len then b - 1 else 0) = b - 1 := by
        by_cases hb' : b < map.len
        · rw [if_pos hb', if_neg (by omega)]
        · rw [if_neg hb', if_pos ⟨by omega, rfl⟩, show map.len = b by omega]
          exact mod_eq_of_lt (by omega)
      have hlast : got (n + 1 + b) = false := by
        rcases lt_or_ge b map.len with hb' | hb'
        · rw [← h.bits b hb']
          exact hnext hb'
        · exact h.above _ (by omega)
      have hbefore : ∀ p, n + 1 + k ≤ p → p < n + (a + 1) → got p = false := by
        intro p hp hpa
        rw [hgot p (by omega) (by omega)]
        exact hclear _ (by omega) (by omega)
      have hrun : IsRun got (n + (a + 1)) (n + b) := by
        refine ⟨by omega, fun p hp hpb => ?_, .inr (hbefore _ (by omega) (by omega)), ?_⟩
        · rw [hgot p (by omega) (by omega)]
          exact hset _ (by omega) (by omega)
        · rw [Nat.add_right_comm]
          exact hlast
      refine .inr ⟨a + 1, b, ?_, hrun, by omega, hb, hlast, hbefore⟩
      rw [hsome]
      rw [hstop, if_pos (by omega), show b - 1 + 1 = b by omega]
      rw [show u16 (a + 1) = a + 1 from mod_eq_of_lt (by omega), show u16 b = b from mod_eq_of_lt (by omega),
        h.cum, tsnAt_add]
      refine congrArg some (Prod.ext rfl ?_)
      show tsnAt i (n + b) + ofNat 32 1 = _
      rw [tsnAt_add, Nat.add_right_comm]

/-- The blocks are the first maximal runs of got positions from `n + 1 + k` on, in increasing order,
    `room` at most; a block holds the distances of the two ends of its run from position `n`. -/
structure GapBlocks (got : Nat → Bool) (n k room : Nat) (gabs : List (Nat × Nat)) : Prop where
  length_le : gabs.length ≤ room
  run : ∀ g ∈ gabs, k + 1 < g.1 ∧ IsRun got (n + g.1) (n + g.2)
  sorted : gabs.Pairwise (fun g g' => g.2 < g'.1)
  complete : ∀ a b, n + 1 + k ≤ a → IsRun got a b →
    (∃ g ∈ gabs, a = n + g.1 ∧ b = n + g.2) ∨ (gabs.length = room ∧ ∀ g ∈ gabs, n + g.2 < a)

theorem Tracks.gabsFrom (h : Tracks W i got top map n) (room : Nat) :
    ∀ (k : Nat), k ≤ map.len → got (n + 1 + k) = false →
    GapBlocks got n k room (gabsFrom map room (tsnAt i (n + 1 + k))) := by
  induction room with
  | zero =>
    intro k _ _
    exact ⟨le_rfl, by simp [SctpTsnmap.gabsFrom], by simp [SctpTsnmap.gabsFrom],
      fun a b _ _ => .inr ⟨rfl, by simp [SctpTsnmap.gabsFrom]⟩⟩
  | succ room ih =>
    intro k hk hbit
    rw [SctpTsnmap.gabsFrom]
    rcases h.nextGapAck hk hbit with ⟨hnone, hclear⟩ | ⟨a, b, hsome, hrun, hka, hb, hlast, hclear⟩
    · rw [hnone]
      refine ⟨Nat.zero_le _, by simp, List.Pairwise.nil, fun a b ha hr => ?_⟩
      have := hr.set a le_rfl hr.le
      rw [hclear a ha] at this
      cases this
    · rw [hsome]
      obtain ⟨hroom, hruns, hsorted, hcomplete⟩ := ih b hb hlast
      have hab := hrun.le
      refine ⟨?_, ?_, ?_, ?_⟩
      · rw [length_cons]
        omega
      · intro g hg
        rcases mem_cons.mp hg with rfl | hg
        · exact ⟨hka, hrun⟩
        · obtain ⟨h₁, h2⟩ := hruns g hg
          exact ⟨by omega, h2⟩
      · refine pairwise_cons.mpr ⟨fun g hg => ?_, hsorted⟩
        have := (hruns g hg).1
        omega
      · intro x y hx hr
        rcases lt_or_ge x (n + a) with hlt | hge
        · have := hr.set x le_rfl hr.le
          rw [hclear x hx hlt] at this
          cases this
        · rcases lt_or_ge (n + b + 1) x with hgt | hle
          · rcases hcomplete x y (by omega) hr with ⟨g, hg, he⟩ | ⟨hfull, hbefore⟩
            · exact .inl ⟨g, mem_cons_of_mem _ hg, he⟩
            · refine .inr ⟨by rw [length_cons, hfull], fun g hg => ?_⟩
              rcases mem_cons.mp hg with rfl | hg
              · omega
              · exact hbefore g hg
          · have hxa := hrun.first_eq hr hge hle
            subst hxa
            exact .inl ⟨(a, b), mem_cons_self, rfl, hr.unique hrun⟩

/-- **`sctp_tsnmap_num_gabs`** yields the maximal runs beyond the cumulative point. -/
theorem Tracks.numGabs (h : Tracks W i got top map n) (hn : got (n + 1) = false) :
    GapBlocks got n 0 SCTP_MAX_GABS (sctpTsnmapNumGabs map) := by
  unfold sctpTsnmapNumGabs
  by_cases hgap : sctpTsnmapHasGap map = true
  · rw [if_pos hgap, h.cum, show tsnAt i n + 1#32 = tsnAt i (n + 1 + 0) from tsnAt_add i n 1]
    exact h.gabsFrom SCTP_MAX_GABS 0 (Nat.zero_le _) hn
  · rw [if_neg hgap]
    refine ⟨Nat.zero_le _, by simp, List.Pairwise.nil, fun a b ha hr => ?_⟩
    rw [h.hasGap_iff] at hgap
    have := hr.set a le_rfl hr.le
    rw [h.above a (by omega)] at this
    cases this

end Ops

/-! ## Runs -/

/-- The map, with what has happened: the initial TSN, the positions that have been got, and the highest
    one seen. -/
structure State where
  map : Tsnmap
  initial : U32
  got : Nat → Bool
  top : Nat

/-- A call; `alloc` says whether growing finds memory. -/
inductive Event where
  | mark (alloc : Bool) (tsn : U32)
  | skip (tsn : U32)
  | renege (tsn : U32)

/-- Everything up to `n` has been got, and `n + 1` has not. -/
def Point (got : Nat → Bool) (n : Nat) : Prop := (∀ p, p ≤ n → got p = true) ∧ got (n + 1) = false

theorem Point.unique {got : Nat → Bool} {n' : Nat} (h : Point got n) (h' : Point got n') : n = n' := by
  rcases Nat.lt_trichotomy n n' with hlt | he | hlt
  · have := h'.1 (n + 1) hlt
    rw [h.2] at this
    cases this
  · exact he
  · have := h.1 (n' + 1) hlt
    rw [h'.2] at this
    cases this

/-- One call.  A TSN is marked only when `sctp_tsnmap_check` has just returned 0 for it; when growing
    fails, nothing is recorded.  A TSN beyond the window is not skipped, and one at or before the
    cumulative point is not taken back. -/
inductive Step (W : Nat) : Event → State → State → Prop
  | mark {s : State} {n p : Nat} {t : U32} {alloc : Bool} {map : Tsnmap} (hn : Point s.got n)
      (hp : position s.initial n t = some p) (hcheck : sctpTsnmapCheck s.map t = 0)
      (hmark : sctpTsnmapMark W alloc s.map t = some map) :
      Step W (.mark alloc t) s { s with map := map, got := Function.update s.got p true, top := max s.top p }
  | markFails {s : State} {t : U32} {alloc : Bool} (hcheck : sctpTsnmapCheck s.map t = 0)
      (hmark : sctpTsnmapMark W alloc s.map t = none) : Step W (.mark alloc t) s s
  | skip {s : State} {n p : Nat} {t : U32} (hn : Point s.got n) (hp : position s.initial n t = some p)
      (hin : p ≤ n + SCTP_TSN_MAP_SIZE) :
      Step W (.skip t) s { s with map := sctpTsnmapSkip s.map t, got := fun q => s.got q || decide (q ≤ p),
                                  top := max s.top p }
  | skipIgnored {s : State} {n : Nat} {t : U32} (hn : Point s.got n)
      (hout : ∀ p, position s.initial n t = some p → n + SCTP_TSN_MAP_SIZE < p) :
      Step W (.skip t) s { s with map := sctpTsnmapSkip s.map t }
  | renege {s : State} {n p : Nat} {t : U32} (hn : Point s.got n) (hp : position s.initial n t = some p) :
      Step W (.renege t) s { s with map := sctpTsnmapRenege s.map t, got := Function.update s.got p false }
  | renegeOld {s : State} {n : Nat} {t : U32} (hn : Point s.got n) (hp : position s.initial n t = none) :
      Step W (.renege t) s { s with map := sctpTsnmapRenege s.map t }

/-- After `sctp_tsnmap_init`, of a new map or of one that was in use. -/
def Initial (W : Nat) (s : State) : Prop :=
  ∃ old, (∀ len, old = some len → W ∣ len ∧ 0 < len ∧ len ≤ SCTP_TSN_MAP_SIZE) ∧
    s.map = sctpTsnmapInit W old s.initial ∧ s.got = (fun p => p == 0) ∧ s.top = 0

/-- The call does not enlarge a map whose highest bit is at a word boundary. -/
def Safe (W : Nat) : Event → State → Prop
  | .mark alloc t, s => alloc = true → s.map.len ≤ u16 (t - s.map.baseTsn).toNat → ¬ TopAtBoundary W s.map
  | _, _ => True

/-- The map tracks what has been got, up to the first missing position. -/
def Inv (W : Nat) (s : State) : Prop := ∃ n, Tracks W s.initial s.got s.top s.map n ∧ s.got (n + 1) = false

variable {W : Nat} {s : State}

theorem Initial.inv (hW : W = 32 ∨ W = 64) (h : Initial W s) : Inv W s := by
  obtain ⟨old, hold, hmap, hgot, htop⟩ := h
  have hlen : W ∣ s.map.len ∧ 0 < s.map.len ∧ s.map.len ≤ SCTP_TSN_MAP_SIZE := by
    rw [hmap]
    cases old with
    | none =>
      refine ⟨Nat.dvd_refl W, show 0 < W by omega, show W ≤ SCTP_TSN_MAP_SIZE from ?_⟩
      unfold SCTP_TSN_MAP_SIZE
      omega
    | some len => exact hold len rfl
  have h0 : tsnAt s.initial 0 = s.initial - 1#32 := BitVec.add_zero _
  have h1 : tsnAt s.initial (0 + 1) = s.initial := BitVec.sub_add_cancel _ _
  refine ⟨0, ⟨?_, ?_, ?_, ?_, ?_, ?_, Nat.zero_le _, ?_, hlen.1, hlen.2.1, hlen.2.2⟩, by rw [hgot]; rfl⟩
  · intro p hp
    rw [hgot, show p = 0 by omega]
    rfl
  · intro p hp
    rw [hgot]
    simp
    omega
  · rw [hmap, h0]
    rfl
  · rw [hmap, h1]
    rfl
  · rw [hmap, htop, h0]
    rfl
  · intro k _
    rw [hgot, hmap]
    simp [sctpTsnmapInit]
  · omega

/-- **One call** keeps the invariant. -/
theorem Inv.step (hW : W = 32 ∨ W = 64) {s' : State} {e : Event} (h : Inv W s) (hs : Step W e s s')
    (hsafe : Safe W e s) : Inv W s' := by
  obtain ⟨n, hT, hn⟩ := h
  have hpoint : Point s.got n := ⟨hT.below, hn⟩
  cases hs with
  | @mark _ m p t alloc map hm hp hcheck hmark =>
    obtain rfl := hpoint.unique hm
    refine hT.mark hW hn hp hcheck (fun ha hlen => hsafe ha ?_) hmark
    have hin := (hT.mark_eq hp hcheck alloc).2.1
    unfold SCTP_TSN_MAP_SIZE at hin
    rw [hT.sub_base hp]
    exact hlen.trans (Nat.le_of_eq (mod_eq_of_lt (by omega)).symm)
  | markFails _ _ => exact ⟨n, hT, hn⟩
  | skip hm hp hin =>
    obtain rfl := hpoint.unique hm
    exact hT.skip hp hin
  | skipIgnored hm hout =>
    obtain rfl := hpoint.unique hm
    rw [hT.skip_ignored hout]
    exact ⟨n, hT, hn⟩
  | renege hm hp =>
    obtain rfl := hpoint.unique hm
    exact ⟨n, hT.renege hn hp⟩
  | renegeOld hm hp =>
    obtain rfl := hpoint.unique hm
    rw [hT.renege_old hp]
    exact ⟨n, hT, hn⟩

/-- The map says what has happened. -/
def Faithful (s : State) : Prop :=
  ∃ n, Point s.got n ∧ s.map.cumulativeTsnAckPoint = tsnAt s.initial n ∧
    s.map.baseTsn = tsnAt s.initial (n + 1) ∧
    (∀ t, 0 < sctpTsnmapCheck s.map t ↔
      tsnLte t s.map.cumulativeTsnAckPoint = true ∨ ∃ p, position s.initial n t = some p ∧ s.got p = true) ∧
    s.map.maxTsnSeen = tsnAt s.initial s.top ∧
    (sctpTsnmapPending s.map).toNat = missing s.got n s.top ∧
    GapBlocks s.got n 0 SCTP_MAX_GABS (sctpTsnmapNumGabs s.map)

theorem Inv.faithful (h : Inv W s) : Faithful s := by
  obtain ⟨n, hT, hn⟩ := h
  refine ⟨n, ⟨hT.below, hn⟩, hT.cum, hT.base, ?_, hT.seen, hT.pending hn, hT.numGabs hn⟩
  intro t
  rw [hT.check, hT.cum]
  cases hp : position s.initial n t with
  | none =>
    dsimp only
    exact ⟨fun _ => .inl (position_eq_none.mp hp), fun _ => by decide⟩
  | some p =>
    have hlte : ¬ tsnLte t (tsnAt s.initial n) = true := by
      rw [← position_eq_none, hp]
      exact some_ne_none p
    dsimp only
    constructor
    · intro hpos
      split at hpos
      · cases hpos
      · split at hpos
        · rename_i hgot
          exact .inr ⟨p, rfl, hgot⟩
        · cases hpos
    · rintro (hold | ⟨q, hq, hgot⟩)
      · exact absurd hold hlte
      · obtain rfl := Option.some.inj hq
        have hwin : ¬ n + SCTP_TSN_MAP_SIZE < p := by
          intro hlt
          have h₁ := hT.top_le
          have h2 := hT.size
          rw [hT.above p (by omega)] at hgot
          exact Bool.false_ne_true hgot
        rw [if_neg hwin, if_pos hgot]
        decide

/-- **The TSN map records what has been received**, in every run whose calls never enlarge a map whose
    highest bit is at a word boundary: `sctp_tsnmap_check`, the cumulative point, `sctp_tsnmap_pending`
    and `sctp_tsnmap_num_gabs` all agree with the positions got. -/
theorem records_what_is_received {W : Nat} (hW : W = 32 ∨ W = 64) {s : State}
    (h : Run.Reachable (Initial W) (fun s s' => ∃ e, Step W e s s' ∧ Safe W e s) s) : Faithful s := by
  have h₀ : ∀ s, Initial W s → Inv W s := fun s hs => hs.inv hW
  have hstep : ∀ s s', Inv W s → (∃ e, Step W e s s' ∧ Safe W e s) → Inv W s' := by
    rintro s s' hi ⟨e, hs, hsafe⟩
    exact hi.step hW hs hsafe
  exact (Run.invariant_of_step h₀ hstep h).faithful

/-! A new map on a machine with 64-bit words whose initial TSN is 1: the TSNs 65 and 129 arrive first. -/

def sampleState : State := ⟨sctpTsnmapInit 64 none 1#32, 1#32, fun p => p == 0, 0⟩

def sampleMark (s : State) (p : Nat) : State :=
  { s with map := (sctpTsnmapMark 64 true s.map (tsnAt s.initial p)).getD s.map, got := Function.update s.got p true,
           top := max s.top p }

theorem sampleState_initial : Initial 64 sampleState :=
  ⟨none, fun len h => absurd h.symm (some_ne_none len), rfl, rfl, rfl⟩

theorem sampleMark_step (h0 : s.got 0 = true) (h1 : s.got 1 = false)
    (hp : position s.initial 0 (tsnAt s.initial p) = some p) (hcheck : sctpTsnmapCheck s.map (tsnAt s.initial p) = 0)
    (hmark : (sctpTsnmapMark 64 true s.map (tsnAt s.initial p)).isSome = true) :
    Step 64 (.mark true (tsnAt s.initial p)) s (sampleMark s p) := by
  obtain ⟨map, hmap⟩ := isSome_iff_exists.mp hmark
  have hpoint : Point s.got 0 := ⟨fun q hq => by rw [show q = 0 by omega]; exact h0, h1⟩
  have hs : sampleMark s p = { s with map := map, got := Function.update s.got p true, top := max s.top p } := by
    unfold sampleMark
    rw [hmap]
    rfl
  rw [hs]
  exact Step.mark hpoint hp hcheck hmap

/-- The first of them is recorded: the map grows, but there was no bit to lose. -/
theorem records_what_is_received_first : Faithful (sampleMark sampleState 65) := by
  have h₀ : Run.Reachable (Initial 64) (fun s s' => ∃ e, Step 64 e s s' ∧ Safe 64 e s) sampleState :=
    ⟨_, sampleState_initial, .refl⟩
  refine records_what_is_received (.inr rfl) (h₀.tail ⟨_, sampleMark_step rfl rfl ?_ ?_ ?_, ?_⟩)
  · decide
  · decide
  · decide
  · intro _ _ hb
    exact absurd hb.1 (by decide)

/-- The second makes the map grow again, with the bit of the first at a word boundary: 65 has been marked
    and never reneged, and `sctp_tsnmap_check` does not know it. -/
theorem marked_tsn_forgotten : ∃ s, Run.Reachable (Initial 64) (fun s s' => ∃ e, Step 64 e s s') s ∧ s.got 65 = true ∧
    sctpTsnmapCheck s.map (tsnAt s.initial 65) = 0 ∧ ¬ Faithful s := by
  have h₀ : Run.Reachable (Initial 64) (fun s s' => ∃ e, Step 64 e s s') sampleState := ⟨_, sampleState_initial, .refl⟩
  have h₁ : Run.Reachable (Initial 64) (fun s s' => ∃ e, Step 64 e s s') (sampleMark sampleState 65) :=
    h₀.tail ⟨_, sampleMark_step rfl rfl (by decide) (by decide) (by decide)⟩
  have h2 : Run.Reachable (Initial 64) (fun s s' => ∃ e, Step 64 e s s') (sampleMark (sampleMark sampleState 65) 129) :=
    h₁.tail ⟨_, sampleMark_step (by decide) (by decide) (by decide) (by decide +kernel) (by decide +kernel)⟩
  have hcheck : sctpTsnmapCheck (sampleMark (sampleMark sampleState 65) 129).map (tsnAt 1#32 65) = 0 := by
    decide +kernel
  refine ⟨_, h2, by decide, hcheck, ?_⟩
  rintro ⟨n, hn, _, _, hiff, _⟩
  have hpoint : Point (sampleMark (sampleMark sampleState 65) 129).got 0 :=
    ⟨fun q hq => by rw [show q = 0 by omega]; decide, by decide⟩
  obtain rfl := hn.unique hpoint
  have hpos := (hiff (tsnAt 1#32 65)).mpr (.inr ⟨65, by decide, by decide⟩)
  cases hpos

/-- **The condition is exact**: a call that is not safe ends in a state where a TSN that was marked, and not reneged,
    counts as never seen. -/
theorem not_safe_loses (hW : W = 32 ∨ W = 64) (h : Inv W s) {alloc : Bool}
    (hcheck : sctpTsnmapCheck s.map t = 0) (hnot : ¬ Safe W (.mark alloc t) s) :
    0 < sctpTsnmapCheck s.map s.map.maxTsnSeen ∧
      ∃ map', sctpTsnmapMark W alloc s.map t = some map' ∧ sctpTsnmapCheck map' s.map.maxTsnSeen = 0 := by
  obtain ⟨n, hT, hn⟩ := h
  unfold Safe at hnot
  rw [Classical.not_imp, Classical.not_imp, Classical.not_not] at hnot
  obtain ⟨rfl, hlen, hb⟩ := hnot
  cases hp : position s.initial n t with
  | none =>
    rw [hT.check, hp] at hcheck
    have hone : (1 : Int) = 0 := hcheck
    cases hone
  | some p =>
    rw [hT.sub_base hp] at hlen
    exact hT.mark_loses hW hn hp hcheck (hlen.trans (Nat.mod_le _ _)) hb

/-- TSN 65 is lost. -/
theorem not_safe_loses_second :
    ∃ map', sctpTsnmapMark 64 true (sampleMark sampleState 65).map 129#32 = some map' ∧
    sctpTsnmapCheck map' 65#32 = 0 :=
  (not_safe_loses (.inr rfl) ((sampleState_initial.inv (.inr rfl)).step (.inr rfl)
    (sampleMark_step rfl rfl (by decide) (by decide) (by decide)) fun _ _ hb => absurd hb.1 (by decide))
    (by decide +kernel) fun h => h rfl (by decide) ⟨by decide, by decide⟩).2

end LinuxKernel.SctpTsnmap
