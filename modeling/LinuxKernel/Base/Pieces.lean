/-
  Pieces of a byte string, in order and without overlap.

  1. **Pieces** — a piece carries some bytes at an offset.  `Within lo hi ps`: the pieces `ps` are not
     empty, follow each other without overlap, and lie between `lo` and `hi`.

  2. **Counting** — such pieces hold at most `hi - lo` bytes (`Within.total_le`), and if they hold that
     many they TILE the range (`Within.tiles`): every byte between `lo` and `hi` is in one of them, and
     their bytes in a row are the string (`Tiles.byte`).
-/
import Mathlib

namespace LinuxKernel.Pieces

open List
variable {β : Type*}

structure Piece (β : Type*) where
  off : Nat
  data : List β

/-- The first offset behind the piece. -/
def Piece.stop (p : Piece β) : Nat := p.off + p.data.length

/-- The number of bytes in the pieces. -/
def total : List (Piece β) → Nat
  | [] => 0
  | p :: ps => p.data.length + total ps

@[simp] theorem total_nil : total ([] : List (Piece β)) = 0 := rfl
@[simp] theorem total_cons (p : Piece β) (ps : List (Piece β)) :
    total (p :: ps) = p.data.length + total ps := rfl

@[simp] theorem total_append : ∀ ps qs : List (Piece β), total (ps ++ qs) = total ps + total qs := by
  intro ps qs
  induction ps with
  | nil => simp
  | cons p ps ih => simp [ih, Nat.add_assoc]

/-! ## Pieces in order -/

/-- In order, not empty, without overlap, from `lo` on and up to `hi`. -/
def Within (lo hi : Nat) : List (Piece β) → Prop
  | [] => lo ≤ hi
  | p :: ps => lo ≤ p.off ∧ p.data ≠ [] ∧ Within p.stop hi ps

variable {lo hi : Nat}

@[simp] theorem within_nil : Within lo hi ([] : List (Piece β)) ↔ lo ≤ hi := Iff.rfl

variable {p : Piece β} {ps : List (Piece β)}

@[simp] theorem within_cons : Within lo hi (p :: ps) ↔ lo ≤ p.off ∧ p.data ≠ [] ∧ Within p.stop hi ps :=
    Iff.rfl

theorem Within.le : ∀ {lo hi : Nat}, Within lo hi ps → lo ≤ hi := by
  induction ps with
  | nil => intro lo hi h; exact h
  | cons p ps ih =>
    intro lo hi h
    have := ih h.2.2
    have : p.off ≤ p.stop := Nat.le_add_right ..
    have := h.1
    omega

theorem Within.mono {lo' hi' : Nat} (hl : lo' ≤ lo) (hh : hi ≤ hi') : ∀ {ps : List (Piece β)},
    Within lo hi ps → Within lo' hi' ps := by
  intro ps
  induction ps generalizing lo lo' with
  | nil => intro h; exact Nat.le_trans hl (Nat.le_trans h hh)
  | cons p ps ih => intro h; exact ⟨Nat.le_trans hl h.1, h.2.1, ih (Nat.le_refl _) h.2.2⟩

theorem within_append {qs ps : List (Piece β)} : ∀ {lo : Nat},
    Within lo hi (ps ++ qs) ↔ ∃ mid, Within lo mid ps ∧ Within mid hi qs := by
  induction ps with
  | nil =>
    intro lo
    exact ⟨fun h => ⟨lo, Nat.le_refl _, h⟩, fun ⟨mid, h1, h2⟩ => h2.mono h1 (Nat.le_refl _)⟩
  | cons p ps ih =>
    intro lo
    rw [cons_append, within_cons, ih]
    constructor
    · rintro ⟨h1, h2, mid, h3, h4⟩
      exact ⟨mid, ⟨h1, h2, h3⟩, h4⟩
    · rintro ⟨mid, ⟨h1, h2, h3⟩, h4⟩
      exact ⟨h1, h2, mid, h3, h4⟩

/-- Each piece stands behind all that come before it. -/
theorem Within.pairwise : ∀ {lo hi : Nat}, Within lo hi ps →
    (∀ p ∈ ps, lo ≤ p.off ∧ p.data ≠ [] ∧ p.stop ≤ hi) ∧ ps.Pairwise fun p q => p.stop ≤ q.off := by
  induction ps with
  | nil => intro lo hi _; exact ⟨nofun, List.Pairwise.nil⟩
  | cons p ps ih =>
    intro lo hi h
    obtain ⟨hall, hpw⟩ := ih h.2.2
    have hp : p.off ≤ p.stop := Nat.le_add_right ..
    refine ⟨fun q hq => ?_, pairwise_cons.mpr ⟨fun q hq => (hall q hq).1, hpw⟩⟩
    rcases mem_cons.mp hq with rfl | hq
    · exact ⟨h.1, h.2.1, h.2.2.le⟩
    · have := hall q hq
      exact ⟨Nat.le_trans h.1 (Nat.le_trans hp this.1), this.2⟩

theorem off_lt_stop (h : p.data ≠ []) : p.off < p.stop := Nat.lt_add_of_pos_right (length_pos_iff.mpr h)

theorem Within.offsets (h : Within lo hi ps) : (ps.map Piece.off).Pairwise (· < ·) := by
  obtain ⟨hall, hpw⟩ := h.pairwise
  rw [pairwise_map]
  refine hpw.imp_of_mem fun {p q} hp _ hpq => ?_
  exact Nat.lt_of_lt_of_le (off_lt_stop (hall p hp).2.1) hpq

/-- The range may end where the last piece does. -/
theorem within_last (h : Within lo hi (ps ++ [p])) : Within lo p.stop (ps ++ [p]) := by
  obtain ⟨mid, h1, h2⟩ := within_append.mp h
  exact within_append.mpr ⟨mid, h1, h2.1, h2.2.1, Nat.le_refl _⟩

theorem Within.tail {lo hi : Nat} {p : Piece β} {ps : List (Piece β)} (h : Within lo hi (p :: ps)) :
    Within lo hi ps :=
  h.2.2.mono (Nat.le_trans h.1 (Nat.le_add_right ..)) (Nat.le_refl _)

/-! ## Counting -/

theorem Within.total_le : ∀ {lo hi : Nat}, Within lo hi ps → lo + total ps ≤ hi := by
  induction ps with
  | nil => intro lo hi h; exact h
  | cons p ps ih =>
    intro lo hi h
    have h1 := ih h.2.2
    have h2 := h.1
    rw [Piece.stop] at h1
    rw [total_cons]
    omega

/-- One after the other, without a gap, from `lo` to `hi`. -/
def Tiles (lo hi : Nat) : List (Piece β) → Prop
  | [] => lo = hi
  | p :: ps => p.off = lo ∧ Tiles p.stop hi ps

/-- **Pieces that hold as many bytes as the range tile it.** -/
theorem Within.tiles : ∀ {lo hi : Nat}, Within lo hi ps → lo + total ps = hi → Tiles lo hi ps := by
  induction ps with
  | nil => intro lo hi _ h; exact h
  | cons p ps ih =>
    intro lo hi h ht
    have h1 := h.2.2.total_le
    have h2 := h.1
    rw [total_cons] at ht
    have hoff : p.off = lo := by rw [Piece.stop] at h1; omega
    refine ⟨hoff, ih h.2.2 ?_⟩
    rw [Piece.stop]
    omega

/-- **The bytes of tiles in a row**: each one is the byte that a piece carries at that position. -/
theorem Tiles.byte : ∀ {lo hi k : Nat} {b : β}, Tiles lo hi ps → (ps.flatMap Piece.data)[k]? = some b →
    ∃ p ∈ ps, p.off ≤ lo + k ∧ p.data[lo + k - p.off]? = some b := by
  induction ps with
  | nil => nofun
  | cons p ps ih =>
    intro lo hi k b h hb
    rw [flatMap_cons] at hb
    by_cases hk : k < p.data.length
    · rw [List.getElem?_append_left hk] at hb
      refine ⟨p, mem_cons_self .., Nat.le_trans (Nat.le_of_eq h.1) (Nat.le_add_right ..), ?_⟩
      rw [h.1, Nat.add_sub_cancel_left]
      exact hb
    · rw [List.getElem?_append_right (by omega)] at hb
      obtain ⟨q, hq, hle, hqb⟩ := ih h.2 hb
      have hpos : p.stop + (k - p.data.length) = lo + k := by rw [Piece.stop, h.1]; omega
      rw [hpos] at hle hqb
      exact ⟨q, mem_cons_of_mem p hq, hle, hqb⟩

end LinuxKernel.Pieces
