/-
  Adding a range to a `memblock_type` (`memblock_add_region`), and looking an address up in it.

  1. **Invariant** (`Sound`) — the regions are sorted, disjoint, not empty, and do not wrap.  The array of an
     empty list of regions is the filler (`pad`).

  2. **The loop** (`addLoop_spec`) — the regions already passed end below the block that is left to add.
     A region in the way is enclosed in it, and then the block ENDS at the same place as before but may start
     lower, or it encloses the block, or is extended downwards.

  3. **Result** (`memblock_add_exact`) — the addresses covered are the old ones and the new range.  Neighbours
     that touch are merged where the new range meets them; two old regions that touch each other
     elsewhere stay as they are, so that regions come out APART if they went in so.

  4. **Lookup** (`searchLoop_spec`) — the binary search hits a region iff some region has the address.
-/
import LinuxKernel.Base.Spans
import LinuxKernel.Mm.Memblock

namespace LinuxKernel.Memblock

open List
variable {w : Nat} {env : Env}

/-! ## Addresses -/

theorem padd_eq {a b : Nat} (h : a + b < 2 ^ w) : padd w a b = a + b := Nat.mod_eq_of_lt h

theorem psub_eq {a b : Nat} (hb : b ≤ a) (ha : a < 2 ^ w) : psub w a b = a - b := by
  unfold psub
  rw [Nat.mod_eq_of_lt (Nat.lt_of_le_of_lt hb ha), show a + (2 ^ w - b) = (a - b) + 2 ^ w by omega,
    Nat.add_mod_right, Nat.mod_eq_of_lt (by omega)]

/-! ## Regions -/

/-- The first address behind a region. -/
def Region.stop (r : Region) : Nat := r.base + r.size

/-- The address is in one of the regions. -/
def Covers (regions : List Region) (a : Nat) : Prop := Spans.Covers Region.base Region.stop regions a

/-- Sorted, disjoint, non-empty regions that do not wrap. -/
structure Sound (w : Nat) (regions : List Region) : Prop where
  order : Spans.Ordered Region.base Region.stop regions
  nonempty : ∀ r ∈ regions, 0 < r.size
  bound : ∀ r ∈ regions, r.stop < 2 ^ w

/-- No two regions touch. -/
def Apart (regions : List Region) : Prop := Spans.Apart Region.base Region.stop regions

/-- The array of these regions. -/
def pad (regions : List Region) : List Region := if regions.length = 0 then [filler] else regions

/-- The arrays of sound lists of regions: sorted, disjoint, non-empty, or the single filler. -/
def WellFormed (w : Nat) (regions : List Region) : Prop := ∃ rs, Sound w rs ∧ regions = pad rs

theorem pad_of_ne_nil {rs : List Region} (h : rs ≠ []) : pad rs = rs :=
  if_neg fun hl => h (length_eq_zero_iff.mp hl)

variable (l l' : List Region)

theorem pad_append_cons (r : Region) : pad (l ++ r :: l') = l ++ r :: l' := pad_of_ne_nil (by simp)

theorem covers_pad (rs : List Region) (a : Nat) : Covers (pad rs) a ↔ Covers rs a := by
  unfold pad
  split
  next h =>
    rw [length_eq_zero_iff.mp h]
    simp [Covers, Spans.Covers, filler, Region.stop]
  next => rfl

/-- Taking a region out of the array. -/
theorem removeRegion_append (r : Region) : removeRegion (l ++ r :: l') l.length = pad (l ++ l') := by
  unfold removeRegion pad
  rw [eraseIdx_append_of_length_le (Nat.le_refl _), Nat.sub_self]
  rfl

theorem getElem?_append_cons (r : Region) : (l ++ r :: l')[l.length]? = some r := by
  rw [List.getElem?_append_right (Nat.le_refl _), Nat.sub_self]
  rfl

theorem set_append_cons (r r' : Region) : (l ++ r :: l').set l.length r' = l ++ r' :: l' := by
  rw [set_append_right _ _ (Nat.le_refl _), Nat.sub_self]
  rfl

theorem sound_append_cons {l l' : List Region} {r : Region} : Sound w (l ++ r :: l') ↔
    Sound w (l ++ l') ∧ 0 < r.size ∧ r.stop < 2 ^ w ∧ (∀ x ∈ l, x.stop ≤ r.base) ∧
    ∀ y ∈ l', r.stop ≤ y.base := by
  constructor
  · intro h
    have hsub : ∀ x ∈ l ++ l', x ∈ l ++ r :: l' := fun x hx => perm_middle.mem_iff.mpr (.tail r hx)
    obtain ⟨h1, h2, h3⟩ := Spans.ordered_append.mp h.order
    obtain ⟨h4, h5⟩ := Spans.ordered_cons.mp h2
    refine ⟨⟨Spans.ordered_append.mpr ⟨h1, h5, fun x hx y hy => h3 x hx y (mem_cons_of_mem _ hy)⟩,
      fun x hx => h.nonempty x (hsub x hx), fun x hx => h.bound x (hsub x hx)⟩, h.nonempty r (by simp),
      h.bound r (by simp), fun x hx => h3 x hx r (by simp), h4⟩
  · rintro ⟨h, hsize, hstop, hl, hl'⟩
    obtain ⟨h1, h2, h3⟩ := Spans.ordered_append.mp h.order
    refine ⟨Spans.ordered_append.mpr ⟨h1, Spans.ordered_cons.mpr ⟨hl', h2⟩, fun x hx y hy => ?_⟩,
      fun x hx => ?_, fun x hx => ?_⟩
    · rcases mem_cons.mp hy with rfl | hy
      exacts [hl x hx, h3 x hx y hy]
    · rcases mem_cons.mp (perm_middle.mem_iff.mp hx) with rfl | hx
      exacts [hsize, h.nonempty x hx]
    · rcases mem_cons.mp (perm_middle.mem_iff.mp hx) with rfl | hx
      exacts [hstop, h.bound x hx]

theorem apart_append_cons {l l' : List Region} {r : Region} : Apart (l ++ r :: l') ↔
    Apart (l ++ l') ∧ (∀ x ∈ l, x.stop < r.base) ∧ ∀ y ∈ l', r.stop < y.base := by
  unfold Apart
  rw [Spans.apart_append, Spans.apart_append, Spans.apart_cons]
  constructor
  · rintro ⟨h1, ⟨h2, h3⟩, h4⟩
    exact ⟨⟨h1, h3, fun x hx y hy => h4 x hx y (mem_cons_of_mem _ hy)⟩,
      fun x hx => h4 x hx r mem_cons_self, h2⟩
  · rintro ⟨⟨h1, h2, h3⟩, h4, h5⟩
    refine ⟨h1, ⟨h5, h2⟩, fun x hx y hy => ?_⟩
    rcases mem_cons.mp hy with rfl | hy
    exacts [h4 x hx, h3 x hx y hy]

theorem covers_append_cons (r : Region) (a : Nat) : Covers (l ++ r :: l') a ↔
    Covers (l ++ l') a ∨ (r.base ≤ a ∧ a < r.stop) := by
  unfold Covers
  rw [Spans.covers_append, Spans.covers_append, Spans.covers_cons]
  tauto

/-! ## The loop of `memblock_add_region` -/

/-- The regions `rs` cover the set `S`, and are apart if `P`. -/
structure Holds (w : Nat) (P : Prop) (S : Nat → Prop) (rs : List Region) : Prop where
  sound : Sound w rs
  covers : ∀ a, Covers rs a ↔ S a
  apart : P → Apart rs

/-- The loop invariant: the regions `l` have been passed, `l'` are ahead, and together with the block
    `[base, stop)` that is left to add they cover the set `S`. -/
structure Pending (w : Nat) (P : Prop) (n : Nat) (S : Nat → Prop) (stop : Nat) (l l' : List Region)
    (base : Nat) : Prop where
  sound : Sound w (l ++ l')
  below : ∀ r ∈ l, r.stop ≤ base
  lt : base < stop
  bound : stop < 2 ^ w
  length_le : (l ++ l').length ≤ n
  apart : P → Apart (l ++ l') ∧ ∀ r ∈ l, r.stop < base
  covers : ∀ a, (Covers (l ++ l') a ∨ (base ≤ a ∧ a < stop)) ↔ S a

variable {P : Prop} {n : Nat} {S : Nat → Prop} {stop base : Nat} {l l' : List Region} {rgn : Region}

section
variable (h : Pending w P n S stop l (rgn :: l') base)
include h

/-- A region that ends below the block is passed. -/
theorem Pending.pass (hlt : rgn.stop < base) : Pending w P n S stop (l ++ [rgn]) l' base := by
  have e : l ++ [rgn] ++ l' = l ++ rgn :: l' := by simp
  have hbelow : ∀ r ∈ l ++ [rgn], r.stop ≤ base :=
    forall_mem_append.mpr ⟨h.below, forall_mem_singleton.mpr (by omega)⟩
  exact ⟨e ▸ h.sound, hbelow, h.lt, h.bound, e ▸ h.length_le, fun hp => ⟨e ▸ (h.apart hp).1,
    forall_mem_append.mpr ⟨(h.apart hp).2, forall_mem_singleton.mpr hlt⟩⟩, e ▸ h.covers⟩

/-- A region that meets the block and ends in it is swallowed. -/
theorem Pending.swallow (hle : base ≤ rgn.stop)
    (hend : rgn.stop ≤ stop) : Pending w P n S stop l l' (min base rgn.base) := by
  obtain ⟨hs, hsize, hstop, hbelow, habove⟩ := sound_append_cons.mp h.sound
  have hlt := h.lt
  refine ⟨hs, fun r hr => ?_, by omega, h.bound, ?_, fun hp => ?_, fun a => ?_⟩
  · have := h.below r hr
    have := hbelow r hr
    omega
  · have := h.length_le
    simp at this ⊢
    omega
  · obtain ⟨hap, hap'⟩ := h.apart hp
    obtain ⟨h1, h2, _⟩ := apart_append_cons.mp hap
    refine ⟨h1, fun r hr => ?_⟩
    have := hap' r hr
    have := h2 r hr
    omega
  · rw [← h.covers, covers_append_cons]
    constructor
    · rintro (ha | ha)
      · exact .inl (.inl ha)
      · by_cases hb : base ≤ a
        · exact .inr ⟨hb, ha.2⟩
        · exact .inl (.inr ⟨by omega, by omega⟩)
    · rintro ((ha | ha) | ha)
      · exact .inl ha
      · exact .inr ⟨by omega, by omega⟩
      · exact .inr ⟨by omega, ha.2⟩

/-- A region encloses the block. -/
theorem Pending.enclosed (hlo : rgn.base ≤ base) (hhi : stop ≤ rgn.stop) : Holds w P S (l ++ rgn :: l') := by
  refine ⟨h.sound, fun a => ?_, fun hp => (h.apart hp).1⟩
  rw [← h.covers]
  refine ⟨.inl, fun ha => ha.elim id fun ha => ?_⟩
  exact (covers_append_cons _ _ _ _).mpr (.inr ⟨by omega, by omega⟩)

/-- A region that the block reaches from below is extended downwards. -/
theorem Pending.extend (hlo : base < rgn.base) (hmeet : rgn.base ≤ stop) (hhi : stop ≤ rgn.stop) :
    Holds w P S (l ++ ⟨base, rgn.stop - base⟩ :: l') := by
  obtain ⟨hs, hsize, hstop, hbelow, habove⟩ := sound_append_cons.mp h.sound
  have hst : Region.stop ⟨base, rgn.stop - base⟩ = rgn.stop := by
    show base + (rgn.stop - base) = _
    omega
  refine ⟨sound_append_cons.mpr ⟨hs, by show 0 < rgn.stop - base; omega, by rwa [hst], h.below, by rwa [hst]⟩,
    fun a => ?_, fun hp => ?_⟩
  · rw [← h.covers, covers_append_cons, covers_append_cons, hst]
    show Covers (l ++ l') a ∨ (base ≤ a ∧ a < rgn.stop) ↔ _
    constructor
    · rintro (ha | ha)
      · exact .inl (.inl ha)
      · by_cases hb : a < stop
        · exact .inr ⟨ha.1, hb⟩
        · exact .inl (.inr ⟨by omega, ha.2⟩)
    · rintro ((ha | ha) | ha)
      · exact .inl ha
      · exact .inr ⟨by omega, ha.2⟩
      · exact .inr ⟨ha.1, by omega⟩
  · obtain ⟨hap, hap'⟩ := h.apart hp
    obtain ⟨h1, _, h2⟩ := apart_append_cons.mp hap
    exact apart_append_cons.mpr ⟨h1, hap', by rwa [hst]⟩

end

/-- The block is inserted between what is below and what is above. -/
theorem Pending.insert (h : Pending w P n S stop l l' base) (habove : ∀ r ∈ l', stop ≤ r.base)
    (hgap : P → ∀ r ∈ l', stop < r.base) : Holds w P S (l ++ ⟨base, stop - base⟩ :: l') := by
  have hlt := h.lt
  have hst : Region.stop ⟨base, stop - base⟩ = stop := by
    show base + (stop - base) = _
    omega
  refine ⟨sound_append_cons.mpr ⟨h.sound, by show 0 < stop - base; omega, by rw [hst]; exact h.bound, h.below,
    fun r hr => ?_⟩, fun a => ?_, fun hp => ?_⟩
  · rw [hst]
    exact habove r hr
  · rw [← h.covers, covers_append_cons, hst]
  · obtain ⟨hap, hap'⟩ := h.apart hp
    exact apart_append_cons.mpr ⟨hap, hap', by rw [hst]; exact hgap hp⟩

/-- Regions above one that is above. -/
theorem above_cons {r : Region} {lo hi : Nat} (hr : lo ≤ r.base) (hle : lo ≤ hi) (h : ∀ x ∈ l', hi ≤ x.base) :
    ∀ x ∈ r :: l', lo ≤ x.base :=
  forall_mem_cons.mpr ⟨hr, fun x hx => Nat.le_trans hle (h x hx)⟩

/-- **The loop** returns with the set covered, or leaves a block to insert below all regions ahead. -/
theorem addLoop_spec (hc : ∀ a b c d, env.canCoalesce a b c d = true) (l' : List Region) :
    ∀ (l : List Region) (turns base : Nat), l'.length < turns → Pending w P n S stop l l' base →
    (∃ rs, addLoop w env stop turns (pad (l ++ l')) l.length base (stop - base) = some (.ret rs) ∧
        rs ≠ [] ∧ Holds w P S rs) ∨
      ∃ k k' b, addLoop w env stop turns (pad (l ++ l')) l.length base (stop - base) =
          some (.insert (pad (k ++ k')) b (stop - b) false) ∧
        Pending w P n S stop k k' b ∧ ∀ r ∈ k', stop < r.base := by
  induction l' with
  | nil =>
    intro l turns base hturns h
    obtain ⟨turns, rfl⟩ := Nat.exists_eq_add_one_of_ne_zero (Nat.ne_zero_of_lt hturns)
    refine .inr ⟨l, [], base, ?_, h, forall_mem_nil _⟩
    rw [append_nil, addLoop]
    cases l with
    | nil => rfl
    | cons r l => rw [pad_of_ne_nil (cons_ne_nil r l), List.getElem?_eq_none (Nat.le_refl _)]
  | cons rgn l' ih =>
    intro l turns base hturns h
    obtain ⟨turns, rfl⟩ := Nat.exists_eq_add_one_of_ne_zero (Nat.ne_zero_of_lt hturns)
    have hturns' : l'.length < turns := by simpa using hturns
    obtain ⟨_, hsize, hrstop, _, habove⟩ := sound_append_cons.mp h.sound
    have hrend : padd w rgn.base rgn.size = rgn.stop := padd_eq hrstop
    have hpos : rgn.base < rgn.stop := by show rgn.base < rgn.base + rgn.size; omega
    have hstop := h.bound
    rw [pad_append_cons, addLoop, getElem?_append_cons]
    simp only
    by_cases hout : rgn.base > stop ∨ rgn.size = 0
    · rw [if_pos hout]
      exact .inr ⟨l, rgn :: l', base, by rw [pad_append_cons], h, above_cons (by omega) (by omega) habove⟩
    rw [if_neg hout]
    unfold addTurn
    rw [hrend]
    simp only
    by_cases henc : rgn.base ≤ base ∧ rgn.stop ≥ stop
    · rw [if_pos henc]
      exact .inl ⟨_, rfl, by simp, h.enclosed henc.1 henc.2⟩
    rw [if_neg henc]
    by_cases hbot : base < rgn.base ∧ stop ≥ rgn.base
    · rw [if_pos hbot, hc, if_pos rfl, set_append_cons, psub_eq (by omega) hrstop]
      by_cases hend : rgn.stop ≥ stop
      · rw [if_pos hend]
        exact .inl ⟨_, rfl, by simp, h.extend hbot.1 hbot.2 hend⟩
      · -- extended, and swallowed at once
        rw [if_neg hend]
        unfold coalesceTop
        rw [if_pos ⟨Nat.le_refl _, by omega⟩, hc, if_pos rfl, removeRegion_append, psub_eq (by omega) hstop]
        simp only
        rw [psub_eq (by omega) hrstop, padd_eq (by omega),
          show stop - rgn.stop + (rgn.stop - base) = stop - base by omega]
        have hnext := h.swallow (by omega) (by omega)
        rw [Nat.min_eq_left (by omega)] at hnext
        exact ih l turns base hturns' hnext
    · rw [if_neg hbot]
      unfold coalesceTop
      by_cases htop : base ≤ rgn.stop ∧ stop ≥ rgn.stop
      · rw [if_pos htop, hc, if_pos rfl, removeRegion_append]
        rw [psub_eq (by omega) (by omega), padd_eq (by omega),
          show stop - base + (base - rgn.base) = stop - rgn.base by omega]
        have hnext := h.swallow htop.1 htop.2
        rw [Nat.min_eq_right (by omega)] at hnext
        exact ih l turns rgn.base hturns' hnext
      · rw [if_neg htop]
        have hnext := ih (l ++ [rgn]) turns base hturns' (h.pass (by omega))
        rwa [show l ++ [rgn] ++ l' = l ++ rgn :: l' by simp, pad_append_cons,
          show (l ++ [rgn]).length = l.length + 1 by simp] at hnext

/-! ## Inserting -/

theorem slotBelow_append (l l' : List Region) {b : Nat} (hl : ∀ r ∈ l, r.base ≤ b)
    (hl' : ∀ r ∈ l', b < r.base) : slotBelow (l ++ l') b (l ++ l').length = l.length := by
  have hgo : ∀ k, k ≤ l'.length → slotBelow (l ++ l') b (l.length + k) = l.length := by
    intro k
    induction k with
    | zero =>
      intro _
      rcases eq_nil_or_concat l with rfl | ⟨k, r, rfl⟩
      · rfl
      · rw [concat_eq_append] at hl ⊢
        have hget : (k ++ [r] ++ l')[k.length]? = some r := by simp
        simp only [length_append, length_singleton, Nat.add_zero, slotBelow, hget]
        exact if_neg (Nat.not_lt.mpr (hl r (by simp)))
    | succ k ih =>
      intro hk
      have hget : (l ++ l')[l.length + k]? = l'[k]? := by
        rw [List.getElem?_append_right (Nat.le_add_right _ _), Nat.add_sub_cancel_left]
      rw [← Nat.add_assoc, slotBelow, hget, List.getElem?_eq_getElem (by omega)]
      simp only
      rw [if_pos (hl' _ (getElem_mem _)), ih (by omega)]
  rw [length_append]
  exact hgo l'.length (Nat.le_refl _)

theorem insertIdx_append (l l' : List Region) (r : Region) :
    (l ++ l').insertIdx l.length r = l ++ r :: l' := by
  induction l with
  | nil => rfl
  | cons x l ih => exact congrArg (x :: ·) ih

/-- The block goes to its place, and then the array may have to be moved. -/
theorem Pending.insertRegion_eq (h : Pending w P n S stop l l' base) (habove : ∀ r ∈ l', stop ≤ r.base)
    (t : MemblockType) (size : Nat) :
    insertRegion env { t with regions := l ++ l' } base size =
      if (l ++ l').length ≥ t.max then (-1, { t with regions := l ++ l' })
      else if (l ++ l').length + 1 = t.max then
        (env.double { t with regions := l ++ ⟨base, size⟩ :: l' }).elim
          (-1, { t with regions := pad (l ++ l') }) fun t => (0, t)
      else (0, { t with regions := l ++ ⟨base, size⟩ :: l' }) := by
  have hlt := h.lt
  have hslot : slotBelow (l ++ l') base (l ++ l').length = l.length := by
    refine slotBelow_append l l' (fun r hr => ?_) fun r hr => ?_
    · exact Nat.le_trans (Nat.le_add_right _ _) (h.below r hr)
    · have := habove r hr
      omega
  unfold insertRegion
  simp only [hslot, insertIdx_append, removeRegion_append]
  rw [show (l ++ ⟨base, size⟩ :: l').length = (l ++ l').length + 1 by simp; omega]
  cases env.double { t with regions := l ++ ⟨base, size⟩ :: l' } with
  | some t' => exact rfl
  | none => exact rfl

/-- The array of regions that are there is not taken for the filler. -/
theorem Sound.head_ne_zero {rs : List Region} (h : Sound w rs) (hne : rs ≠ []) :
    (rs.map Region.size).head? ≠ some 0 := by
  obtain ⟨r, rs, rfl⟩ := exists_cons_of_ne_nil hne
  intro hhead
  have hpos := h.nonempty r mem_cons_self
  have : r.size = 0 := Option.some.inj hhead
  omega

/-- **`memblock_add_region`** with room in the array. -/
theorem addRegion_spec (hc : ∀ a b c d, env.canCoalesce a b c d = true) {t : MemblockType}
    {rs : List Region} (hrs : Sound w rs) (ht : t.regions = pad rs) {size : Nat} (hsize : 0 < size)
    (hstop : base + size < 2 ^ w) (hfree : t.regions.length + 1 < t.max) :
    ∃ rs', addRegion w env t base size = some (0, { t with regions := rs' }) ∧ rs' ≠ [] ∧
      Holds w (Apart rs) (fun a => Covers rs a ∨ (base ≤ a ∧ a < base + size)) rs' := by
  have hlen : rs.length ≤ t.regions.length := by
    rw [ht]
    unfold pad
    split
    next h => rw [h]; exact Nat.zero_le _
    next => exact Nat.le_refl _
  have hpend : Pending w (Apart rs) t.regions.length (fun a => Covers rs a ∨ (base ≤ a ∧ a < base + size))
      (base + size) [] rs base :=
    ⟨hrs, forall_mem_nil _, by omega, hstop, hlen, fun h => ⟨h, forall_mem_nil _⟩, fun a => Iff.rfl⟩
  have hloop := addLoop_spec hc rs [] (t.regions.length + 1) base (by omega) hpend
  rw [Nat.add_sub_cancel_left, nil_append, ← ht] at hloop
  unfold addRegion
  rw [padd_eq hstop]
  rcases hloop with ⟨rs', heq, hne, hholds⟩ | ⟨k, k', b, heq, hk, habove⟩
  · rw [show ([] : List Region).length = 0 from rfl] at heq
    rw [heq]
    exact ⟨rs', rfl, hne, hholds⟩
  · rw [show ([] : List Region).length = 0 from rfl] at heq
    rw [heq]
    simp only
    have hle : ∀ r ∈ k', base + size ≤ r.base := fun r hr => Nat.le_of_lt (habove r hr)
    refine ⟨k ++ ⟨b, base + size - b⟩ :: k', ?_, by simp, hk.insert hle fun _ => habove⟩
    by_cases hnil : k ++ k' = []
    · obtain ⟨rfl, rfl⟩ := append_eq_nil_iff.mp hnil
      rfl
    · have hlen := hk.length_le
      rw [pad_of_ne_nil hnil, if_neg fun h => hk.sound.head_ne_zero hnil h.2.2, hk.insertRegion_eq hle t,
        if_neg (by omega), if_neg (by omega)]

/-! ## `memblock_search` -/

/-- **The binary search** ends, at a region that contains the address if there is one. -/
theorem searchLoop_spec {regions : List Region} {addr : Nat}
    (hord : Spans.Ordered Region.base Region.stop regions) (hbound : ∀ r ∈ regions, r.stop < 2 ^ w)
    (turns : Nat) :
    ∀ (left right : Nat), right - left < turns → left < right → right ≤ regions.length →
    (∀ i r, i < left → regions[i]? = some r → r.stop ≤ addr) →
    (∀ i r, right ≤ i → regions[i]? = some r → addr < r.base) →
    ∃ i, searchLoop w regions addr turns left right = some i ∧ (i ≠ -1 ↔ Covers regions addr) ∧
      ∀ k : Nat, i = k → ∃ r, regions[k]? = some r ∧ r.base ≤ addr ∧ addr < r.stop := by
  induction turns with
  | zero => intro left right h; omega
  | succ turns ih =>
    intro left right hturns hlt hle hleft hright
    obtain ⟨mid, hm⟩ : ∃ mid, mid = (right + left) / 2 := ⟨_, rfl⟩
    have hmid : mid < regions.length := by omega
    have hget : regions[mid]? = some regions[mid] := List.getElem?_eq_getElem hmid
    have hmem : regions[mid] ∈ regions := getElem_mem hmid
    have hrend := padd_eq (hbound _ hmem)
    -- the regions on either side of the middle
    have hbefore : ∀ i r, i < mid → regions[i]? = some r → r.stop ≤ regions[mid].base := fun i r hi hr => by
      obtain ⟨hi', rfl⟩ := List.getElem?_eq_some_iff.mp hr
      exact pairwise_iff_getElem.mp hord i _ hi' hmid hi
    have hafter : ∀ i r, mid < i → regions[i]? = some r → regions[mid].stop ≤ r.base := fun i r hi hr => by
      obtain ⟨hi', rfl⟩ := List.getElem?_eq_some_iff.mp hr
      exact pairwise_iff_getElem.mp hord _ i hmid hi' hi
    -- where the search ends without a hit, nothing covers the address
    have hnone : ∀ m : Nat, (∀ (i : Nat) (r : Region), i < m → regions[i]? = some r → r.stop ≤ addr) →
        (∀ (i : Nat) (r : Region), m ≤ i → regions[i]? = some r → addr < r.base) → ¬ Covers regions addr := by
      rintro m h1 h2 ⟨r, hr, h3, h4⟩
      obtain ⟨i, hi, rfl⟩ := mem_iff_getElem.mp hr
      have hgi : regions[i]? = some regions[i] := List.getElem?_eq_getElem hi
      rcases Nat.lt_or_ge i m with him | him
      · exact absurd h4 (Nat.not_lt.mpr (h1 i _ him hgi))
      · exact absurd h3 (Nat.not_le.mpr (h2 i _ him hgi))
    unfold searchLoop
    simp only [← hm, getD_eq_getElem?_getD, hget, Option.getD_some, hrend]
    by_cases hlow : addr < regions[mid].base
    · rw [if_pos hlow]
      simp only
      have hright' : ∀ i r, mid ≤ i → regions[i]? = some r → addr < r.base := by
        intro i r hi hr
        rcases Nat.eq_or_lt_of_le hi with rfl | hi
        · rw [hget] at hr
          exact Option.some.inj hr ▸ hlow
        · have := hafter i r hi hr
          have : regions[mid].base ≤ regions[mid].stop := Nat.le_add_right _ _
          omega
      by_cases hgo : left < mid
      · rw [if_pos hgo]
        exact ih _ _ (by omega) hgo (by omega) hleft hright'
      · rw [if_neg hgo]
        refine ⟨-1, rfl, ⟨fun h => absurd rfl h, fun h => ?_⟩, fun k hk => by omega⟩
        exact absurd h (hnone left hleft fun i r hi => hright' i r (by omega))
    · rw [if_neg hlow]
      by_cases hhigh : addr ≥ regions[mid].base + regions[mid].size
      · rw [if_pos hhigh]
        simp only
        have hleft' : ∀ i r, i < mid + 1 → regions[i]? = some r → r.stop ≤ addr := by
          intro i r hi hr
          rcases Nat.eq_or_lt_of_le (Nat.lt_succ_iff.mp hi) with rfl | hi
          · rw [hget] at hr
            exact Option.some.inj hr ▸ hhigh
          · have := hbefore i r hi hr
            omega
        by_cases hgo : mid + 1 < right
        · rw [if_pos hgo]
          exact ih _ _ (by omega) hgo hle hleft' hright
        · rw [if_neg hgo]
          refine ⟨-1, rfl, ⟨fun h => absurd rfl h, fun h => ?_⟩, fun k hk => by omega⟩
          exact absurd h (hnone right (fun i r hi => hleft' i r (by omega)) hright)
      · rw [if_neg hhigh]
        refine ⟨mid, rfl, ⟨fun _ => ?_, fun _ => by omega⟩, fun k hk => ?_⟩
        · exact ⟨_, hmem, Nat.not_lt.mp hlow, Nat.not_le.mp hhigh⟩
        · obtain rfl : mid = k := by omega
          exact ⟨_, hget, Nat.not_lt.mp hlow, Nat.not_le.mp hhigh⟩

/-- The array of a sound list can be searched. -/
theorem memblockSearch_spec {t : MemblockType} {rs : List Region} (hrs : Sound w rs)
    (ht : t.regions = pad rs) (addr : Nat) :
    ∃ i, memblockSearch w t addr = some i ∧ (i ≠ -1 ↔ Covers rs addr) := by
  have hpad : Spans.Ordered Region.base Region.stop (pad rs) ∧ (∀ r ∈ pad rs, r.stop < 2 ^ w) ∧
      0 < (pad rs).length := by
    unfold pad
    split
    next h =>
      refine ⟨pairwise_singleton _ _, fun r hr => ?_, Nat.one_pos⟩
      rw [mem_singleton.mp hr]
      exact Nat.two_pow_pos w
    next h => exact ⟨hrs.order, hrs.bound, Nat.pos_of_ne_zero h⟩
  obtain ⟨hord, hbound, hpos⟩ := hpad
  unfold memblockSearch
  rw [ht]
  obtain ⟨i, hi, hiff, _⟩ :=
    @searchLoop_spec w (pad rs) addr hord hbound ((pad rs).length + 1) 0 (pad rs).length
    (by omega) hpos (Nat.le_refl _) (fun i r hi => absurd hi (Nat.not_lt_zero i))
    (fun i r hi hr => by
      rw [List.getElem?_eq_none hi] at hr
      nomatch hr)
  exact ⟨i, hi, hiff.trans (covers_pad rs addr)⟩

/-! ## Result -/

/-- **Adding a range** to a well-formed array with room for it. -/
theorem memblock_add_exact (hc : ∀ a b c d, env.canCoalesce a b c d = true) {t : MemblockType}
    (ht : WellFormed w t.regions) {base size : Nat} (hsize : 0 < size) (hstop : base + size < 2 ^ w)
    (hfree : t.regions.length + 1 < t.max) :
    ∃ rs, addRegion w env t base size = some (0, { t with regions := rs }) ∧ Sound w rs ∧
      (∀ a, Covers rs a ↔ Covers t.regions a ∨ (base ≤ a ∧ a < base + size)) ∧
      (Apart t.regions → Apart rs) ∧
      ∀ addr, ∃ i, memblockSearch w { t with regions := rs } addr = some i ∧ (i ≠ -1 ↔ Covers rs addr) := by
  obtain ⟨rs, hrs, he⟩ := ht
  obtain ⟨rs', hadd, hne, hholds⟩ := addRegion_spec hc hrs he hsize hstop hfree
  refine ⟨rs', hadd, hholds.sound, fun a => ?_, fun hap => hholds.apart ?_, fun addr => ?_⟩
  · rw [hholds.covers, he, covers_pad]
  · rw [he] at hap
    by_cases hnil : rs = []
    · rw [hnil]
      exact List.Pairwise.nil
    · rwa [pad_of_ne_nil hnil] at hap
  · exact memblockSearch_spec hholds.sound (pad_of_ne_nil hne).symm addr

/-- Blocks always coalesce, and the array is never moved. -/
def plainEnv : Env := ⟨fun _ _ _ _ => true, fun _ => none⟩

theorem memblock_add_exact_between :
    addRegion 64 plainEnv ⟨[⟨0, 10⟩, ⟨30, 5⟩], 128⟩ 10 20 = some (0, ⟨[⟨0, 35⟩], 128⟩) ∧
    ∃ rs, addRegion 64 plainEnv ⟨[⟨0, 10⟩, ⟨30, 5⟩], 128⟩ 10 20 = some (0, ⟨rs, 128⟩) ∧ Apart rs := by
  have hwf : WellFormed 64 [⟨0, 10⟩, ⟨30, 5⟩] :=
    ⟨[⟨0, 10⟩, ⟨30, 5⟩], ⟨by simp [Spans.Ordered, Region.stop], by simp, by simp [Region.stop]⟩, rfl⟩
  obtain ⟨rs, h1, _, _, h2, _⟩ := @memblock_add_exact 64 plainEnv (fun _ _ _ _ => rfl)
    ⟨[⟨0, 10⟩, ⟨30, 5⟩], 128⟩ hwf 10 20 (by decide) (by decide) (by decide)
  exact ⟨by decide, rs, h1, h2 (by simp [Apart, Spans.Apart, Region.stop])⟩

/-- Two regions that touch each other, away from the new one, are not merged. -/
theorem adjacent_regions_stay : WellFormed 64 [⟨0, 10⟩, ⟨10, 10⟩] ∧
    addRegion 64 plainEnv ⟨[⟨0, 10⟩, ⟨10, 10⟩], 128⟩ 100 10 = some (0,
      ⟨[⟨0, 10⟩, ⟨10, 10⟩, ⟨100, 10⟩], 128⟩) ∧
    ¬ Apart [⟨0, 10⟩, ⟨10, 10⟩, ⟨100, 10⟩] := by
  refine ⟨⟨[⟨0, 10⟩, ⟨10, 10⟩], ⟨by simp [Spans.Ordered, Region.stop], by simp, by simp [Region.stop]⟩, rfl⟩,
    by decide, ?_⟩
  simp [Apart, Spans.Apart, Region.stop]

end LinuxKernel.Memblock
