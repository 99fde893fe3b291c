/-
  Head or tail: where `__free_one_page` puts a block that it cannot merge (`mm/page_alloc.c`).

  1. **Intent** — a block of order `o` goes to the TAIL of its list when the block of order `o + 1` around it
     could merge soon, its buddy `higherBuddy` being free with order `o + 1`.

  2. **What is examined** (`examinedBuddy`) — the source adds the distance of the buddies to `page` instead
     of `higher_page`.  For the LOWER half of the larger block these are the same page; for the upper
     half the page `2 ^ o` behind the buddy is examined (`examined_upper`), which heads no block of
     order `o + 1`.  Nothing is examined if the buddy of order `o` lies in a hole.

  3. **Result** (`tail_iff_near_merge`) — the block goes to the right end, for the right reason, exactly
     when it is a lower half, or has its buddy in a hole and no free `higherBuddy`.
-/
import LinuxKernel.Mm.PageAllocRun

namespace LinuxKernel.PageAlloc

open BuddySystem
variable (L : Layout)

/-! ## The end of `__free_one_page` -/

/-- The variables after the merging loop. -/
def mergedBlock (z : Zone) (page order : Nat) : Merged :=
  coalesce L L.maxOrder ⟨z, page, page &&& (2 ^ L.maxOrder - 1), order, 0, 0⟩

/-- The same after `set_page_order`. -/
def markedBlock (z : Zone) (page order : Nat) : Merged :=
  { mergedBlock L z page order with
    zone := setPageOrder (mergedBlock L z page order).zone (mergedBlock L z page order).page
      (mergedBlock L z page order).order }

/-- The block is put at the tail. -/
def placedAtTail (z : Zone) (page order : Nat) : Bool := higherBuddyFree L (markedBlock L z page order)

/-- `__free_one_page` puts the block it ends with at that end of its list. -/
theorem freeOnePage_freeList (z : Zone) (page order : Nat) (migratetype : MigrateType) :
    let s := mergedBlock L z page order
    let l := s.zone.freeList (s.order, migratetype)
    (freeOnePage L z page order migratetype).freeList (s.order, migratetype) =
      if placedAtTail L z page order then l ++ [s.page] else s.page :: l := by
  intro s l
  show (addNrFree (if placedAtTail L z page order then _ else _) s.order 1).freeList _ = _
  split
  · exact Function.update_self _ _ _
  · exact Function.update_self _ _ _

/-- The page that is examined as `higher_buddy`. -/
def examinedBuddy (s : Merged) : Option Nat :=
  if s.order < L.maxOrder - 2 ∧ L.pfnValidWithin s.buddy then
    some (s.page + findBuddyIndex (s.buddyIdx &&& s.pageIdx) (s.order + 1) - (s.buddyIdx &&& s.pageIdx))
  else none

/-- The buddy of the block of the next order that contains this one. -/
def higherBuddy (s : Merged) : Nat := buddyOf (s.order + 1) (parentOf s.order s.page)

/-! ## The indices -/

variable {L}

/-- Where the loop stops before the largest order, its buddy is that of the block. -/
theorem coalesce_buddy (fuel : Nat) : ∀ s : Merged, L.maxOrder ≤ fuel + s.order + 1 →
    (coalesce L fuel s).order + 1 < L.maxOrder →
    (coalesce L fuel s).buddyIdx = findBuddyIndex (coalesce L fuel s).pageIdx (coalesce L fuel s).order ∧
      (coalesce L fuel s).buddy = (coalesce L fuel s).page +
        findBuddyIndex (coalesce L fuel s).pageIdx (coalesce L fuel s).order -
        (coalesce L fuel s).pageIdx := by
  induction fuel with
  | zero => intro s hf hlt; rw [coalesce] at hlt; omega
  | succ fuel ih =>
    intro s hf
    unfold coalesce
    split
    next hlt =>
      simp only
      split
      · exact ih _ (by simp only; omega)
      · exact fun _ => ⟨rfl, rfl⟩
    next hlt => intro hlt'; omega

variable {z : Zone} {p o : Nat} {A : FreeMap L.maxOrder}

/-- What `__free_one_page` knows of a block that did not grow to the largest order. -/
structure Stopped (L : Layout) (s : Merged) (A : FreeMap L.maxOrder) : Prop extends Freeing L s A where
  stopped : s.order + 1 < L.maxOrder
  buddy_eq : s.buddy = buddyOf s.order s.page
  buddyIdx_eq : s.buddyIdx = findBuddyIndex (s.page % 2 ^ L.maxOrder) s.order

theorem mergedBlock_stopped (h : Represents L settled z A) (hlt : o < L.maxOrder) (hal : 2 ^ o ∣ p)
    (hdis : Disjoint (block p o) A.pages) (howned : ∀ n ∈ block p o, L.Owned n)
    (hstop : (mergedBlock L z p o).order + 1 < L.maxOrder) :
    ∃ B, Stopped L (mergedBlock L z p o) B := by
  have hs : Freeing L ⟨z, p, p &&& (2 ^ L.maxOrder - 1), o, 0, 0⟩ A :=
    ⟨h, hal, hlt, Nat.and_two_pow_sub_one_eq_mod .., hdis, howned⟩
  obtain ⟨B, hB, _, _⟩ := coalesce_represents L.maxOrder _ A hs (by omega)
  obtain ⟨hidx, hbuddy⟩ :=
    coalesce_buddy L.maxOrder ⟨z, p, p &&& (2 ^ L.maxOrder - 1), o, 0, 0⟩ (by omega) hstop
  have hB' : Freeing L (mergedBlock L z p o) B := hB
  refine ⟨B, hB', hstop, ?_, ?_⟩
  · refine hbuddy.trans ?_
    rw [hB.idx]
    exact (index_buddy _ hB.order_lt).1
  · refine hidx.trans ?_
    rw [hB.idx]
    rfl

variable {s : Merged}

section
variable (h : Stopped L s A) (hlt : s.order + 2 < L.maxOrder)
    (hvalid : L.pfnValidWithin (buddyOf s.order s.page) = true)
include h hlt hvalid

/-- The page that is examined is `higherBuddy`, moved by the distance from the larger block to the block
    itself. -/
theorem Stopped.examined : examinedBuddy L s = some (higherBuddy s + (s.page - parentOf s.order s.page)) := by
  obtain ⟨_, hpar, hcomb⟩ := index_buddy (m := L.maxOrder) s.page h.order_lt
  obtain ⟨hhigh, _, _⟩ := index_buddy (m := L.maxOrder) (parentOf s.order s.page) h.stopped
  have hle : parentOf s.order s.page ≤ s.page := by
    rcases halves h.aligned with ⟨_, _, e⟩ | ⟨_, _, e⟩ <;> omega
  have hmod := Nat.mod_le (parentOf s.order s.page) (2 ^ L.maxOrder)
  unfold examinedBuddy
  rw [if_pos ⟨by omega, by rw [h.buddy_eq]; exact hvalid⟩, h.buddyIdx_eq, h.idx, hcomb]
  unfold higherBuddy
  congr 1
  omega

/-- **The upper half** looks at the page `2 ^ o` behind the buddy. -/
theorem Stopped.examined_upper (hup : ¬ 2 ^ (s.order + 1) ∣ s.page) :
    examinedBuddy L s = some (higherBuddy s + 2 ^ s.order) := by
  rw [h.examined hlt hvalid]
  rcases halves h.aligned with ⟨hlow, _⟩ | ⟨_, he, hpar⟩
  · exact absurd hlow hup
  · congr 2
    omega

/-- **The lower half** looks at the buddy. -/
theorem Stopped.examined_lower (hlow : 2 ^ (s.order + 1) ∣ s.page) :
    examinedBuddy L s = some (higherBuddy s) := by
  rw [h.examined hlt hvalid]
  rcases halves h.aligned with ⟨_, _, hpar⟩ | ⟨hdvd, he, _⟩
  · congr 1
    omega
  · -- the lower half is not an upper half
    have hpow : 2 ^ (s.order + 1) ∣ 2 ^ s.order := (Nat.dvd_add_right hdvd).mp (by rw [he]; exact hlow)
    have := Nat.le_of_dvd (Nat.two_pow_pos s.order) hpow
    have := Nat.two_pow_pos s.order
    rw [two_pow_succ] at *
    omega

end

/-! ## The decision -/

theorem higherBuddyFree_eq (s : Merged) : higherBuddyFree L s =
    match examinedBuddy L s with
    | some b => pageIsBuddy L s.zone (s.page + (s.buddyIdx &&& s.pageIdx) - s.pageIdx) b (s.order + 1)
    | none => false := by
  unfold higherBuddyFree examinedBuddy
  split <;> rfl

/-- For a lower half the decision is the intended one. -/
theorem Stopped.placed_lower (h : Stopped L s A) (hlt : s.order + 2 < L.maxOrder)
    (hvalid : L.pfnValidWithin (buddyOf s.order s.page) = true) (hlow : 2 ^ (s.order + 1) ∣ s.page) :
    higherBuddyFree L { s with zone := setPageOrder s.zone s.page s.order } = true ↔
      IsFree s.zone (s.order + 1) (higherBuddy s) := by
  have hpar : parentOf s.order s.page = s.page := by
    have hex := (h.examined hlt hvalid).symm.trans (h.examined_lower hlt hvalid hlow)
    have := Option.some.inj hex
    rcases halves h.aligned with ⟨_, _, e⟩ | ⟨_, _, e⟩ <;> omega
  have hne : higherBuddy s ≠ s.page := by
    unfold higherBuddy
    rw [hpar]
    exact buddyOf_ne _ _
  have hself : s.page + (s.buddyIdx &&& s.pageIdx) - s.pageIdx = s.page := by
    obtain ⟨_, hp, _⟩ := index_buddy (m := L.maxOrder) s.page h.order_lt
    rw [h.buddyIdx_eq, h.idx, hp, hpar]
  have hmarked : pageIsBuddy L (setPageOrder s.zone s.page s.order) s.page (higherBuddy s) (s.order + 1) =
      pageIsBuddy L s.zone s.page (higherBuddy s) (s.order + 1) := by
    unfold pageIsBuddy setPageOrder
    simp only [Function.update_of_ne hne]
  rw [higherBuddyFree_eq, show examinedBuddy L { s with zone := setPageOrder s.zone s.page s.order } =
    some (higherBuddy s) from h.examined_lower hlt hvalid hlow]
  simp only [hself, hmarked]
  rw [pageIsBuddy_iff h.zone (h.owned s.page (mem_block_self ..))]
  exact h.zone.listed _ _

/-- The block goes to the tail iff `higherBuddy` is free with the next order, and `higherBuddy` is what has
    been looked at. -/
def RightEnd (L : Layout) (z : Zone) (page order : Nat) : Prop :=
  let s := mergedBlock L z page order
  (placedAtTail L z page order = true ↔ IsFree s.zone (s.order + 1) (higherBuddy s)) ∧
    ∀ b, examinedBuddy L s = some b → b = higherBuddy s

/-- **Head or tail.**  In a consistent zone a block that stops merging at an order `o` below `MAX_ORDER -
    2` goes to the right end iff it is the lower half of the block of order `o + 1` around it, or has its
    buddy in a hole and `higherBuddy` is not free. -/
theorem tail_iff_near_merge (hz : Consistent L z) (hlt : o < L.maxOrder) (hal : 2 ^ o ∣ p)
    (hdis : Disjoint (block p o) (freePages z)) (howned : ∀ n ∈ block p o, L.Owned n)
    (hstop : (mergedBlock L z p o).order + 2 < L.maxOrder) :
    let s := mergedBlock L z p o
    RightEnd L z p o ↔
      if L.pfnValidWithin (buddyOf s.order s.page) then 2 ^ (s.order + 1) ∣ s.page
      else ¬ IsFree s.zone (s.order + 1) (higherBuddy s) := by
  obtain ⟨B, h⟩ := mergedBlock_stopped hz.represents hlt hal (hz.represents.pages_eq ▸ hdis) howned (by omega)
  unfold RightEnd placedAtTail markedBlock
  simp only
  generalize mergedBlock L z p o = s at h hstop ⊢
  split
  next hvalid =>
    constructor
    · rintro ⟨_, hex⟩
      apply Decidable.byContradiction
      intro hup
      have := hex _ (h.examined_upper hstop hvalid hup)
      omega
    · intro hlow
      refine ⟨h.placed_lower hstop hvalid hlow, fun b hb => ?_⟩
      exact Option.some.inj (hb.symm.trans (h.examined_lower hstop hvalid hlow))
  next hhole =>
    have hnone : examinedBuddy L s = none := by
      unfold examinedBuddy
      rw [h.buddy_eq]
      exact if_neg fun hc => hhole hc.2
    have hhead : higherBuddyFree L { s with zone := setPageOrder s.zone s.page s.order } = false := by
      rw [higherBuddyFree_eq, show examinedBuddy L { s with zone := setPageOrder s.zone s.page s.order } =
        none from hnone]
    rw [hhead, hnone]
    constructor
    · rintro ⟨hiff, _⟩ hfree
      exact Bool.false_ne_true (hiff.mpr hfree)
    · intro hnot
      exact ⟨⟨fun hf => absurd hf Bool.false_ne_true, fun hf => absurd hf hnot⟩, nofun⟩

/-! ## A zone of eight pages -/

/-- The pages 0 and 1 can be freed. -/
theorem pairFree_block (hp : p < 2) :
    Disjoint (block p 0) (freePages pairFree) ∧ ∀ n ∈ block p 0, eightLayout.Owned n := by
  constructor
  · rw [Set.disjoint_left]
    rintro n ⟨h1, h2⟩ hn
    rcases mem_freePages_pairFree.mp hn with rfl | rfl <;> omega
  · rintro n ⟨h1, h2⟩
    exact ⟨decide_eq_true (by omega), rfl⟩

/-- Page 0 is a lower half: it goes to the tail. -/
theorem tail_iff_near_merge_lower :
    placedAtTail eightLayout pairFree 0 0 = true ∧ RightEnd eightLayout pairFree 0 0 :=
  ⟨by decide, (tail_iff_near_merge pairFree_consistent (by decide) (by decide)
    (pairFree_block (by decide)).1 (pairFree_block (by decide)).2 (by decide)).mpr
      (by rw [if_pos (by decide)]; decide)⟩

/-- Page 1 is an upper half: although the block at 2 is free, it goes to the head, because page 3 has been
    looked at. -/
theorem upper_half_at_head : Consistent eightLayout pairFree ∧
    Disjoint (block 1 0) (freePages pairFree) ∧ (∀ n ∈ block 1 0, eightLayout.Owned n) ∧
    (mergedBlock eightLayout pairFree 1 0).order = 0 ∧
    higherBuddy (mergedBlock eightLayout pairFree 1 0) = 2 ∧
    IsFree (mergedBlock eightLayout pairFree 1 0).zone 1 2 ∧
    examinedBuddy eightLayout (mergedBlock eightLayout pairFree 1 0) = some 3 ∧
    placedAtTail eightLayout pairFree 1 0 = false := by
  refine ⟨pairFree_consistent, (pairFree_block (by decide)).1, (pairFree_block (by decide)).2, by decide,
    by decide, ⟨.movable, by decide⟩, by decide, by decide⟩

end LinuxKernel.PageAlloc
