/-
  Tagging a range of the radix tree.

  `radix_tree_range_tag_if_tagged` is to give `settag` to the first `nr_to_tag` indices of the range that
  carry `iftag` (`TaggedMap.rangeTag`).  Its loop scans the tree in index order without recursion: down
  where `iftag` is set, on to the next slot where it is not, up when a node has been scanned.

  1. **Invariant** (`Scanning`) — the walk stands on the way of `index`; the indices from the first one
     up to `index` have been dealt with, in the tree as well as in `tagged`.

  2. **Turn** (`scanTurn_spec`) — a turn either goes down, or deals with ALL indices that agree with
     `index` from the current digit on: they do not carry `iftag`, or it is one index at the bottom.

  3. **Run** (`scanLoop_spec`) — the loop ends, since `index` grows or the height falls.
-/
import LinuxKernel.Lib.RadixTreeOps

namespace LinuxKernel.RadixTree

open Function LinuxKernel.Trie List
variable {α : Type} {g : Geometry} {T T' t t' : Tag → Bool} {H i j h k : Nat} {path path' : Path α}
  {e e' : Slot α} {r r' : Root α} {m : TaggedMap α} {iftag settag : Tag}

/-! ## What it is to do -/

/-- How many indices from `first` up to below `i` carry the tag. -/
def TaggedMap.rank (m : TaggedMap α) (tag : Tag) (first i : Nat) : Nat :=
  count i fun j => decide (first ≤ j) && m.tag tag j

/-- `settag` for the first `nr` indices from `first` to `last` that carry `iftag`. -/
def TaggedMap.rangeTag (m : TaggedMap α) (first last nr : Nat) (iftag settag : Tag) : TaggedMap α where
  item := m.item
  tag := fun tag i => m.tag tag i ||
    (tag == settag && m.tag iftag i && decide (first ≤ i ∧ i ≤ last ∧ m.rank iftag first i < nr))

/-- The entries when the indices from `first` up to below `n` have been dealt with. -/
def marked (m : TaggedMap α) (first n : Nat) (iftag settag : Tag) (i : Nat) : Entry α :=
  (m.item i, fun tag => m.tag tag i || (tag == settag && m.tag iftag i && decide (first ≤ i ∧ i < n)))

variable {first n : Nat}

/-- An index without `iftag` keeps its entry. -/
theorem marked_of_untagged (h : m.tag iftag j = false) : marked m first n iftag settag j = m.entry j := by
  refine Prod.ext rfl (funext fun tag => ?_)
  show (_ || (_ && _ && _)) = m.tag tag j
  rw [h, Bool.and_false, Bool.false_and, Bool.or_false]

variable {last nr : Nat}

theorem entry_rangeTag_of_untagged (h : m.tag iftag j = false) :
    (m.rangeTag first last nr iftag settag).entry j = m.entry j := by
  refine Prod.ext rfl (funext fun tag => ?_)
  show (_ || (_ && _ && _)) = m.tag tag j
  rw [h, Bool.and_false, Bool.false_and, Bool.or_false]

theorem rank_mono (h : i ≤ n) : m.rank iftag first i ≤ m.rank iftag first n := count_mono _ h

theorem rank_succ (hf : first ≤ i) (hi : m.tag iftag i = true) :
    m.rank iftag first (i + 1) = m.rank iftag first i + 1 := by
  rw [TaggedMap.rank, count_succ, hi, decide_eq_true hf]
  rfl

/-- Indices without `iftag` need no work. -/
theorem marked_congr {n' : Nat} (h : n ≤ n') (hnone : ∀ j, n ≤ j → j < n' → m.tag iftag j = false) :
    marked m first n' iftag settag j = marked m first n iftag settag j := by
  refine Prod.ext rfl (funext fun tag => ?_)
  show (_ || (_ && _ && _)) = (_ || (_ && _ && _))
  by_cases hj : n ≤ j ∧ j < n'
  · rw [hnone j hj.1 hj.2, Bool.and_false, Bool.false_and, Bool.false_and]
  · rw [show decide (first ≤ j ∧ j < n') = decide (first ≤ j ∧ j < n) from decide_eq_decide.mpr (by omega)]

theorem rank_congr {n' : Nat} (h : n ≤ n') (hnone : ∀ j, n ≤ j → j < n' → m.tag iftag j = false) :
    m.rank iftag first n' = m.rank iftag first n :=
  count_eq_of_none h fun j h₁ h₂ => by rw [hnone j h₁ h₂, Bool.and_false]

/-! ## The walk back up -/

theorem around_tag {tag : Tag} {path : Path α} : ∀ {h : Nat} {b : Bool} {t : Tag → Bool},
    Around (shape g α) h b t path T → t tag = true → T tag = true := by
  induction path with
  | nil =>
    intro h b t hp ht
    obtain rfl : t = T := hp
    exact ht
  | cons f path ih =>
    intro h b t hp ht
    obtain ⟨ho, rfl, -, t', ⟨-, -, hsum⟩, hup⟩ := hp
    exact ih hup ((hsum tag).mpr ⟨f.offset, ho, ht⟩)

theorem tagUp_spec (tag : Tag) {path : Path α} : ∀ {h : Nat} {b : Bool} {t : Tag → Bool},
    Around (shape g α) h b t path T →
    SameAround cell path (tagUp tag path) ∧ Around (shape g α) h b (update t tag true) (tagUp tag path)
        (update T tag true) := by
  induction path with
  | nil =>
    intro h b t hp
    obtain rfl : t = T := hp
    exact ⟨trivial, rfl⟩
  | cons f path ih =>
    intro h b t hp
    obtain ⟨ho, ht, -, t', ⟨-, -, hsum⟩, hup⟩ := id hp
    rw [tagUp]
    cases hbit : tagGet f.data tag f.offset with
    | true =>
      -- everything above is tagged already
      have htt : t tag = true := ht ▸ hbit
      rw [if_pos rfl, update_eq_self_iff.mpr htt.symm, update_eq_self_iff.mpr (around_tag hp htt).symm]
      exact ⟨SameAround.refl cell _, hp⟩
    | false =>
      obtain ⟨hs', hup'⟩ := ih hup
      exact ⟨sameAround_setBit rfl hs', around_setBit (d := RadixTree.tagSet f.data tag f.offset) hp rfl rfl
        rfl (Summary.set hsum tag ho) hup'⟩

/-! ## Blocks of indices -/

/-- The first index after those that agree with `i` from digit `k` on. -/
def blockEnd (g : Geometry) (k i : Nat) : Nat := (i / g.mapSize ^ k + 1) * g.mapSize ^ k

theorem lt_blockEnd (k i : Nat) : i < blockEnd g k i :=
  (Nat.div_lt_iff_lt_mul (Nat.pow_pos g.mapSize_pos)).mp (Nat.lt_succ_self _)

theorem div_eq_of_block (hij : i ≤ j) (hj : j < blockEnd g k i) : j / g.mapSize ^ k = i / g.mapSize ^ k := by
  have hlt := (Nat.div_lt_iff_lt_mul (Nat.pow_pos g.mapSize_pos)).mpr hj
  have hle : i / g.mapSize ^ k ≤ j / g.mapSize ^ k := Nat.div_le_div_right hij
  omega

theorem blockEnd_zero (i : Nat) : blockEnd g 0 i = i + 1 := by
  rw [blockEnd, pow_zero, Nat.div_one, Nat.mul_one]

/-- Digits of an `unsigned long` below its last do not overflow it. -/
theorem mapShift_mul_le (hk : k + 1 ≤ g.maxPath) : k * g.mapShift ≤ g.indexBits := by
  have hS := g.mapShift_pos
  have h₁ : (k + 1) * g.mapShift ≤ g.indexBits + g.mapShift - 1 := (Nat.le_div_iff_mul_le hS).mp hk
  rw [Nat.succ_mul] at h₁
  omega

theorem blockEnd_le (hk : k + 1 ≤ g.maxPath) (hi : i < 2 ^ g.indexBits) :
    blockEnd g k i ≤ 2 ^ g.indexBits := by
  have hsplit : 2 ^ g.indexBits = 2 ^ (g.indexBits - k * g.mapShift) * g.mapSize ^ k := by
    rw [g.mapSize_pow, ← pow_add, Nat.sub_add_cancel (mapShift_mul_le hk)]
  rw [hsplit] at hi ⊢
  exact Nat.mul_le_mul_right _ ((Nat.div_lt_iff_lt_mul (Nat.pow_pos g.mapSize_pos)).mpr hi)

theorem nextIndex_eq (g : Geometry) (k i : Nat) :
    nextIndex g (k * g.mapShift) i = blockEnd g k i % 2 ^ g.indexBits := by
  rw [nextIndex, blockEnd, Nat.shiftRight_eq_div_pow, Nat.shiftLeft_eq, g.mapSize_pow]

/-- A digit of the next index that is not 0: no carry. -/
theorem div_blockEnd_of_digit (hd : digit g.mapSize k (blockEnd g k i) ≠ 0) :
    blockEnd g k i / g.mapSize ^ (k + 1) = i / g.mapSize ^ (k + 1) := by
  have hM := g.mapSize_pos
  have hpow : 0 < g.mapSize ^ k := Nat.pow_pos hM
  rw [digit, blockEnd, Nat.mul_div_cancel _ hpow] at hd
  rw [blockEnd, pow_succ, ← Nat.div_div_eq_div_mul, ← Nat.div_div_eq_div_mul, Nat.mul_div_cancel _ hpow]
  exact Nat.succ_div_of_not_dvd fun hdvd => hd (Nat.mod_eq_zero_of_dvd hdvd)

/-- A digit of the next index that is 0: the carry goes one digit up. -/
theorem blockEnd_succ_of_digit (hd : digit g.mapSize k (blockEnd g k i) = 0) :
    blockEnd g (k + 1) i = blockEnd g k i := by
  have hM := g.mapSize_pos
  have hpow : 0 < g.mapSize ^ k := Nat.pow_pos hM
  rw [digit, blockEnd, Nat.mul_div_cancel _ hpow] at hd
  have hdvd := Nat.dvd_of_mod_eq_zero hd
  have hq : i / g.mapSize ^ (k + 1) + 1 = (i / g.mapSize ^ k + 1) / g.mapSize := by
    rw [pow_succ, ← Nat.div_div_eq_div_mul, Nat.succ_div_of_dvd hdvd]
  rw [blockEnd, blockEnd, hq, pow_succ, Nat.mul_comm (g.mapSize ^ k), ← Nat.mul_assoc,
    Nat.div_mul_cancel hdvd]

/-- **Going up** ends on the way of the next index. -/
theorem goUp_spec (hi : i < g.mapSize ^ H) {path : Path α} : ∀ {k : Nat} {slot : Slot α}
    {t : Tag → Bool}, At g T H i (k + 1) path slot t → slot ≠ .null → blockEnd g k i < g.mapSize ^ H →
    ∃ k' slot' path' t', goUp g (blockEnd g k i) path (k * g.mapShift) (k + 1) slot =
        (k' * g.mapShift, k' + 1, slot', path') ∧
      At g T H (blockEnd g k i) (k' + 1) path' slot' t' ∧ slot' ≠ .null ∧
      plug path' slot' = plug path slot := by
  induction path with
  | nil =>
    intro k slot t hat hne hlt
    have hk : k + 1 = H := hat.length_eq
    have hd : digit g.mapSize k (blockEnd g k i) ≠ 0 := by
      rw [digit_eq_div (by rw [hk]; exact hlt), blockEnd, Nat.mul_div_cancel _ (Nat.pow_pos g.mapSize_pos)]
      exact Nat.succ_ne_zero _
    refine ⟨k, slot, [], t, ?_, ⟨hat.length_eq, hat.around, hat.ok, trivial⟩, hne, rfl⟩
    rw [goUp, offsetOf_eq, if_neg hd]
  | cons f path ih =>
    intro k slot t hat hne hlt
    rw [goUp, offsetOf_eq]
    by_cases hd : digit g.mapSize k (blockEnd g k i) = 0
    · obtain ⟨t', hup⟩ := hat.up
      have hb := blockEnd_succ_of_digit hd
      obtain ⟨k', slot', path', t'', hrun, hat', hne', hplug⟩ :=
        ih hup (node_ne_null _ _) (by rw [hb]; exact hlt)
      rw [hb] at hrun hat'
      refine ⟨k', slot', path', t'', ?_, hat', hne', hplug⟩
      rw [if_pos hd, ← hrun, Nat.succ_mul]
    · refine ⟨k, slot, f :: path, t, by rw [if_neg hd], ⟨hat.length_eq, hat.around, hat.ok, ?_⟩, hne, rfl⟩
      exact (hat.covers_iff hi hlt).mpr (div_blockEnd_of_digit hd)

/-! ## The scan -/

/-- The tags kept about the whole tree when `n` indices have got `settag`. -/
def tagsAfter (T : Tag → Bool) (settag : Tag) (n : Nat) : Tag → Bool :=
  if 0 < n then update T settag true else T

/-- What the scan is given: the tree it starts from, and the range. -/
structure Range (α : Type) where
  map : TaggedMap α
  tags : Tag → Bool
  height : Nat
  first : Nat
  last : Nat
  nr : Nat
  iftag : Tag
  settag : Tag

/-- The tree of a scan in which the indices up to below `n` have been dealt with. -/
structure Done (g : Geometry) (R : Range α) (s : Scan α) (n : Nat) : Prop where
  content_eq : ∀ j, j < g.mapSize ^ R.height →
    content g R.height (tagsAfter R.tags R.settag s.tagged) (plug s.path s.slot) j =
      marked R.map R.first n R.iftag R.settag j
  tagged_eq : s.tagged = R.map.rank R.iftag R.first n

/-- The walk stands at height `k + 1`, on the way of `index`. -/
structure Stands (g : Geometry) (R : Range α) (s : Scan α) (k : Nat) : Prop where
  height_eq : s.height = k + 1
  shift_eq : s.shift = k * g.mapShift
  at_index : ∃ t, At g (tagsAfter R.tags R.settag s.tagged) R.height s.index (k + 1) s.path s.slot t
  ne_null : s.slot ≠ .null

/-- **The invariant of the scan**, at the start of a turn. -/
structure Scanning (g : Geometry) (R : Range α) (s : Scan α) : Prop where
  stands : ∃ k, Stands g R s k
  done : Done g R s s.index
  first_le : R.first ≤ s.index
  index_le : s.index ≤ R.last
  tagged_lt : s.tagged < R.nr

/-- What holds at the end of the scan: the indices up to below `n` have been dealt with, and these are
    all of the range, or as many as were asked for. -/
structure Scanned (g : Geometry) (R : Range α) (s : Scan α) (n : Nat) : Prop where
  ok : Ok (shape g α) R.height (tagsAfter R.tags R.settag s.tagged) (plug s.path s.slot)
  done : Done g R s n
  tagged_le : s.tagged ≤ R.nr
  stop : R.last < n ∨ R.nr ≤ s.tagged
  past : ∀ j, R.last < j → j < n → R.map.tag R.iftag j = false
  index_eq : s.index = n % 2 ^ g.indexBits

/-- The same, with where the scan has come to. -/
structure Ended (g : Geometry) (R : Range α) (s : Scan α) (n : Nat) : Prop extends Scanned g R s n where
  first_lt : R.first < n
  le_bits : n ≤ 2 ^ g.indexBits

/-- The outcome of a turn: closer to the end, or at it. -/
def Turned (g : Geometry) (R : Range α) (s : Scan α) (out : Scan α ⊕ Scan α) : Prop :=
  (∃ s', out = .inl s' ∧ Scanning g R s' ∧ (s.index < s'.index ∨ s'.index = s.index ∧ s'.height < s.height)) ∨
    ∃ s' n, out = .inr s' ∧ Ended g R s' n

variable {R : Range α} {s : Scan α}

/-- From `next:` on, when the block of `index` has been dealt with. -/
theorem scanNext_spec (hH : R.height ≤ g.maxPath) (hlast : R.last < 2 ^ g.indexBits)
    (hlastH : R.last < g.mapSize ^ R.height) (hst : Stands g R s k)
    (hdone : Done g R s (blockEnd g k s.index)) (hfirst : R.first ≤ s.index) (hle : s.index ≤ R.last)
    (htagged : s.tagged ≤ R.nr)
    (hpast : ∀ j, R.last < j → j < blockEnd g k s.index → R.map.tag R.iftag j = false) :
    Turned g R s (scanNext g R.last R.nr s) := by
  obtain ⟨hheight, hshift, ⟨t, hat⟩, hne⟩ := hst
  have hk : k + 1 ≤ g.maxPath := by
    have := hat.length_eq
    omega
  have hib : s.index < 2 ^ g.indexBits := by omega
  have hend := blockEnd_le hk hib
  have hgt := lt_blockEnd (g := g) k s.index
  have hscanned : (R.last < blockEnd g k s.index ∨ R.nr ≤ s.tagged) →
      Ended g R { s with index := blockEnd g k s.index % 2 ^ g.indexBits } (blockEnd g k s.index) :=
    fun hstop => ⟨⟨hat.ok_plug, ⟨hdone.content_eq, hdone.tagged_eq⟩, htagged, hstop, hpast, rfl⟩,
      hfirst.trans_lt hgt, hend⟩
  rw [hshift] at hscanned
  rw [scanNext, hshift, nextIndex_eq]
  by_cases hover : R.last < blockEnd g k s.index
  · refine .inr ⟨_, _, if_pos ?_, hscanned (.inl hover)⟩
    rcases Nat.lt_or_eq_of_le hend with hlt | heq
    · exact .inl (by rw [Nat.mod_eq_of_lt hlt]; exact hover)
    · exact .inr (by rw [heq, Nat.mod_self])
  have hlt : blockEnd g k s.index < 2 ^ g.indexBits := by omega
  rw [Nat.mod_eq_of_lt hlt] at hscanned ⊢
  rw [if_neg (by omega)]
  by_cases hnr : R.nr ≤ s.tagged
  · exact .inr ⟨_, _, if_pos hnr, hscanned (.inr hnr)⟩
  rw [if_neg hnr]
  obtain ⟨k', slot', path', t', hrun, hat', hne', hplug⟩ :=
    goUp_spec (by omega : s.index < g.mapSize ^ R.height) hat hne (by omega)
  refine .inl ⟨{ s with
    index := blockEnd g k s.index, shift := k' * g.mapShift, height := k' + 1, slot := slot',
    path := path' }, by rw [hheight, hrun], ⟨⟨k', rfl, rfl, ⟨t', hat'⟩, hne'⟩, ⟨fun j hj => ?_,
    hdone.tagged_eq⟩, by show R.first ≤ blockEnd g k s.index; omega, not_lt.mp hover, not_le.mp hnr⟩,
      .inl hgt⟩
  show content g R.height _ (plug path' slot') j = _
  rw [hplug]
  exact hdone.content_eq j hj

/-- In a slot without `iftag` no index carries it. -/
theorem block_untagged {d : NodeData} {slots : Nat → Slot α}
    (hdone : Done g R s s.index) (hslot : s.slot = .node d slots)
    (hat : At g (tagsAfter R.tags R.settag s.tagged) R.height s.index (k + 1) s.path s.slot t)
    (hbit : d.tags R.iftag (digit g.mapSize k s.index) = false) (hi : s.index < g.mapSize ^ R.height)
    (hj : s.index ≤ j) (hjlt : j < blockEnd g k s.index) : R.map.tag R.iftag j = false := by
  have hM := g.mapSize_pos
  have hdiv := div_eq_of_block hj hjlt
  have hup : j / g.mapSize ^ (k + 1) = s.index / g.mapSize ^ (k + 1) := ((div_pow_eq_iff k j _).mp hdiv).2
  have hdig : digit g.mapSize k j = digit g.mapSize k s.index := ((div_pow_eq_iff k j _).mp hdiv).1
  have hjH : j < g.mapSize ^ R.height := by
    -- `j` agrees with the index in the digits above `k`, so it has no more digits
    have hlen := hat.length_eq
    obtain ⟨c, hc⟩ : ∃ c, R.height = k + 1 + c := ⟨s.path.length, hlen.symm⟩
    have hz : s.index / g.mapSize ^ R.height = 0 := Nat.div_eq_of_lt hi
    have hz' : j / g.mapSize ^ R.height = 0 := by
      rw [hc, pow_add, ← Nat.div_div_eq_div_mul, hup, Nat.div_div_eq_div_mul, ← pow_add, ← hc, hz]
    exact (Nat.div_eq_zero_iff_lt (Nat.pow_pos hM)).mp hz'
  have hcov := (hat.covers_iff hi hjH).mpr hup
  have hc := hdone.content_eq j hjH
  rw [hat.content_eq hcov, hslot, content_node, hdig] at hc
  have hok := hat.ok
  rw [hslot] at hok
  cases htag : R.map.tag R.iftag j with
  | false => rfl
  | true =>
    have h2 : (marked R.map R.first s.index R.iftag R.settag j).2 R.iftag = true := by
      show (R.map.tag R.iftag j || _) = true
      rw [htag, Bool.true_or]
    rw [← hc] at h2
    exact absurd ((tag_of_content (hok.2 _ (digit_lt hM k s.index)) h2).symm.trans hbit)
      (Bool.false_ne_true ∘ Eq.symm)

/-- The work at the bottom: one index gets `settag`. -/
theorem tag_leaf {d : NodeData} {slots : Nat → Slot α} (hdone : Done g R s s.index)
    (hfirst : R.first ≤ s.index) (hheight : s.height = 1) (hshift : s.shift = 0 * g.mapShift)
    (hslot : s.slot = .node d slots)
    (hat : At g (tagsAfter R.tags R.settag s.tagged) R.height s.index 1 s.path s.slot t)
    (hnn : (slots (digit g.mapSize 0 s.index)).isNull = false)
    (hbit : d.tags R.iftag (digit g.mapSize 0 s.index) = true) (hi : s.index < g.mapSize ^ R.height) :
    Stands g R { s with
        tagged := s.tagged + 1
        slot := .node (tagSet d R.settag (digit g.mapSize 0 s.index)) slots
        path := tagUp R.settag s.path } 0 ∧
      Done g R { s with
        tagged := s.tagged + 1
        slot := .node (tagSet d R.settag (digit g.mapSize 0 s.index)) slots
        path := tagUp R.settag s.path } (s.index + 1) := by
  let o := digit g.mapSize 0 s.index
  have hM := g.mapSize_pos
  have ho := digit_lt hM 0 s.index
  rw [hslot] at hat
  have hdown := hat.down
  have haround := hdown.around
  rw [hnn] at haround
  have htags : update (tagsAfter R.tags R.settag s.tagged) R.settag true =
      tagsAfter R.tags R.settag (s.tagged + 1) := by
    rw [tagsAfter, tagsAfter, if_pos (Nat.succ_pos _)]
    by_cases h0 : 0 < s.tagged
    · rw [if_pos h0, update_idem]
    · rw [if_neg h0]
  obtain ⟨hsup, hpup⟩ := tagUp_spec R.settag hat.around
  have hsame : SameAround cell (⟨d, slots, digit g.mapSize 0 s.index⟩ :: s.path)
      (⟨tagSet d R.settag o, slots, digit g.mapSize 0 s.index⟩ :: tagUp R.settag s.path) :=
        sameAround_setBit rfl hsup
  have hsum : Summary g (update t R.settag true) (tagSet d R.settag o).tags :=
    Summary.set hat.ok.1.2.2 R.settag ho
  have haround' := around_setBit (d := tagSet d R.settag o) haround rfl rfl rfl hsum hpup
  rw [htags] at haround'
  -- the state one level further down, at the slot of the item
  have hbottom : At g (tagsAfter R.tags R.settag (s.tagged + 1)) R.height s.index 0
      (⟨tagSet d R.settag o, slots, digit g.mapSize 0 s.index⟩ :: tagUp R.settag s.path) (slots o)
      (update (fun tag => d.tags tag o) R.settag true) := by
    refine ⟨?_, by rw [hnn]; exact haround', ?_, hsame.covers_iff.mp hdown.covers⟩
    · rw [length_cons, ← hsup.length_eq, ← length_cons]
      exact hdown.length_eq
    · have hleaf := hdown.ok
      cases hs : slots o with
      | null => rw [hs] at hnn; exact absurd hnn (Bool.false_ne_true ∘ Eq.symm)
      | item a => exact trivial
      | node d' slots' => rw [hs] at hleaf; exact hleaf.elim
  have hfill : Frame.fill ⟨tagSet d R.settag o, slots, digit g.mapSize 0 s.index⟩ (slots o) =
      .node (tagSet d R.settag o) slots := by
    rw [Frame.fill, update_eq_self]
  have hiftag : R.map.tag R.iftag s.index = true := by
    have hc := hdone.content_eq s.index hi
    rw [hslot, hat.content_eq hat.covers, content_node] at hc
    have h2 : (marked R.map R.first s.index R.iftag R.settag s.index).2 R.iftag = true := by
      rw [← hc]
      exact hbit
    have h3 : (R.map.tag R.iftag s.index || (R.iftag == R.settag && R.map.tag R.iftag s.index &&
      decide (R.first ≤ s.index ∧ s.index < s.index))) = true := h2
    simpa using h3
  refine ⟨⟨hheight, hshift, ?_, node_ne_null _ _⟩, ⟨fun j hj => ?_, ?_⟩⟩
  · obtain ⟨t', hup⟩ := hbottom.up
    rw [hfill] at hup
    exact ⟨t', hup⟩
  · show content g R.height (tagsAfter R.tags R.settag (s.tagged + 1))
      (plug (tagUp R.settag s.path) (.node (tagSet d R.settag o) slots)) j = _
    rw [← hfill, ← plug_cons]
    have hold := hdone.content_eq j hj
    by_cases hji : j = s.index
    · subst hji
      rw [hslot, hat.content_eq hat.covers, content_node] at hold
      rw [hbottom.content_eq hbottom.covers]
      have h1 := congrArg Prod.fst hold
      have h2 := congrArg Prod.snd hold
      refine Prod.ext h1 (funext fun tag => ?_)
      show update (fun tag => d.tags tag o) R.settag true tag =
        (R.map.tag tag s.index || (tag == R.settag && R.map.tag R.iftag s.index &&
          decide (R.first ≤ s.index ∧ s.index < s.index + 1)))
      by_cases htag : tag = R.settag
      · subst htag
        rw [update_self, hiftag, decide_eq_true ⟨hfirst, Nat.lt_succ_self _⟩]
        simp
      · rw [update_of_ne htag, beq_false_of_ne htag, Bool.false_and, Bool.false_and, Bool.or_false]
        have h3 : d.tags tag o = (R.map.tag tag s.index || (tag == R.settag &&
          R.map.tag R.iftag s.index && decide (R.first ≤ s.index ∧ s.index < s.index))) := congrFun h2 tag
        rw [h3, beq_false_of_ne htag, Bool.false_and, Bool.false_and, Bool.or_false]
    · have hc : ¬ Covers g.mapSize 0 (⟨d, slots, digit g.mapSize 0 s.index⟩ :: s.path) j := fun hc =>
        hji (by simpa using (hdown.covers_iff hi hj).mp hc)
      rw [hdown.content_other hsame hc, plug_push, ← hslot, hold]
      refine Prod.ext rfl (funext fun tag => ?_)
      show (_ || (_ && _ && _)) = (_ || (_ && _ && _))
      rw [show decide (R.first ≤ j ∧ j < s.index + 1) = decide (R.first ≤ j ∧ j < s.index) from
        decide_eq_decide.mpr (by omega)]
  · show s.tagged + 1 = _
    rw [rank_succ hfirst hiftag, hdone.tagged_eq]

/-- **One turn** goes on with the invariant and comes closer to the end, or ends the scan. -/
theorem scanTurn_spec (hH : R.height ≤ g.maxPath) (hlast : R.last < 2 ^ g.indexBits)
    (hlastH : R.last < g.mapSize ^ R.height) (hs : Scanning g R s) :
    ∃ out, scanTurn g R.last R.nr R.iftag R.settag s = some out ∧ Turned g R s out := by
  obtain ⟨⟨k, hst⟩, hdone, hfirst, hle, htagged⟩ := hs
  obtain ⟨hheight, hshift, ⟨t, hat⟩, hne⟩ := id hst
  have hM := g.mapSize_pos
  have hi : s.index < g.mapSize ^ R.height := by omega
  cases hslot : s.slot with
  | null => exact absurd hslot hne
  | item a =>
    have hok := hat.ok
    rw [hslot] at hok
    exact hok.elim
  | node d slots =>
    have hok := hat.ok
    rw [hslot] at hok
    have ho := digit_lt hM k s.index
    -- a block without `iftag` is passed over
    have hskip : d.tags R.iftag (digit g.mapSize k s.index) = false →
      Turned g R s (scanNext g R.last R.nr s) := by
      intro hbit
      have hnone : ∀ j, s.index ≤ j → j < blockEnd g k s.index → R.map.tag R.iftag j = false :=
        fun j h₁ h₂ => block_untagged hdone hslot hat hbit hi h₁ h₂
      have hend := Nat.le_of_lt (lt_blockEnd (g := g) k s.index)
      have hdone' : Done g R s (blockEnd g k s.index) :=
        ⟨fun j hj => (hdone.content_eq j hj).trans (marked_congr hend hnone).symm,
          hdone.tagged_eq.trans (rank_congr hend hnone).symm⟩
      exact scanNext_spec hH hlast hlastH hst hdone' hfirst hle htagged.le fun j h₁ h₂ =>
        hnone j (by omega) h₂
    rw [scanTurn, hslot]
    dsimp only
    rw [hshift, offsetOf_eq]
    cases hnull : (slots (digit g.mapSize k s.index)).isNull with
    | true =>
      rw [if_pos rfl]
      refine ⟨_, rfl, hskip ?_⟩
      have hb := hok.2 _ ho
      rw [isNull_iff.mp hnull, ok_null_iff] at hb
      exact congrFun hb R.iftag
    | false =>
      rw [if_neg Bool.false_ne_true]
      cases hbit : tagGet d R.iftag (digit g.mapSize k s.index) with
      | false => exact ⟨_, rfl, hskip hbit⟩
      | true =>
        rw [if_neg (by decide)]
        rw [hslot] at hat
        cases k with
        | succ k =>
          -- down one level
          rw [if_pos (by omega)]
          refine ⟨_, rfl,
            .inl ⟨_, rfl, ⟨⟨k, ?_, ?_, ⟨_, hat.down⟩, ?_⟩, ⟨fun j hj => ?_, hdone.tagged_eq⟩, hfirst,
            hle, htagged⟩, .inr ⟨rfl, ?_⟩⟩⟩
          · show s.height - 1 = k + 1
            omega
          · show (k + 1) * g.mapShift - g.mapShift = k * g.mapShift
            rw [Nat.succ_mul, Nat.add_sub_cancel]
          · exact mt isNull_iff.mpr (Bool.eq_false_iff.mp hnull)
          · rw [← hdone.content_eq j hj, hslot]
            show content g R.height _ (plug (_ :: s.path) _) j = _
            rw [plug_push]
          · show s.height - 1 < s.height
            omega
        | zero =>
          -- one index at the bottom
          rw [if_neg (by omega)]
          obtain ⟨hst', hdone'⟩ :=
            tag_leaf hdone hfirst hheight hshift hslot (by rw [hslot]; exact hat) hnull hbit hi
          rw [← blockEnd_zero (g := g) s.index] at hdone'
          rw [← hshift]
          refine ⟨_, rfl, scanNext_spec hH hlast hlastH hst' hdone' hfirst hle htagged fun j h₁ h₂ => ?_⟩
          have h₃ : j < blockEnd g 0 s.index := h₂
          rw [blockEnd_zero] at h₃
          omega

/-- How far the end is. -/
def remaining (R : Range α) (s : Scan α) : Nat := (R.last + 1 - s.index) * (R.height + 1) + s.height

theorem Scanning.height_le (hs : Scanning g R s) : s.height ≤ R.height := by
  obtain ⟨⟨k, hheight, -, ⟨t, hat⟩, -⟩, -, -, -, -⟩ := hs
  have := hat.length_eq
  omega

/-- **The whole scan** ends, with all of the range dealt with or as much as was asked for. -/
theorem scanLoop_spec (hH : R.height ≤ g.maxPath) (hlast : R.last < 2 ^ g.indexBits)
    (hlastH : R.last < g.mapSize ^ R.height) (n : Nat) : ∀ s : Scan α, remaining R s ≤ n →
    Scanning g R s → ∃ s' n', Ended g R s' n' ∧
      Fuel.Returns (fun fuel => scanLoop g R.last R.nr R.iftag R.settag fuel s) s' := by
  induction n with
  | zero =>
    intro s hn hs
    obtain ⟨k, hst⟩ := hs.stands
    have := hst.height_eq
    unfold remaining at hn
    omega
  | succ n ih =>
    intro s hn hs
    obtain ⟨out, hrun, ⟨s', rfl, hs', hless⟩ | ⟨s', n', rfl, hs'⟩⟩ := scanTurn_spec hH hlast hlastH hs
    · have hrem : remaining R s' < remaining R s := by
        have h₁ := hs'.height_le
        have h₂ := hs'.index_le
        rcases hless with hlt | ⟨heq, hlt⟩
        · obtain ⟨c, hc⟩ : ∃ c, R.last + 1 - s.index = R.last + 1 - s'.index + (c + 1) :=
            ⟨s'.index - s.index - 1, by omega⟩
          rw [remaining, remaining, hc, Nat.add_mul, Nat.succ_mul]
          omega
        · rw [remaining, remaining, heq]
          omega
      obtain ⟨s'', n', hs'', hret⟩ := ih s' (by omega) hs'
      exact ⟨s'', n', hs'', hret.turn fun fuel => by simp only [scanLoop, hrun]⟩
    · exact ⟨s', n', hs', Fuel.returns_turn fun fuel => by simp only [scanLoop, hrun]⟩

/-! ## The function -/

/-- The root when `n` indices have got `settag`. -/
def rootAfter (r : Root α) (rnode : Slot α) (settag : Tag) (n : Nat) : Root α :=
  if 0 < n then rootTagSet { r with rnode := rnode } settag else { r with rnode := rnode }

theorem rootAfter_eq (r : Root α) (rnode : Slot α) (settag : Tag) (n : Nat) :
    rootTags (rootAfter r rnode settag n) = tagsAfter (rootTags r) settag n ∧
      (rootAfter r rnode settag n).height = r.height ∧ (rootAfter r rnode settag n).rnode = rnode := by
  rw [rootAfter, tagsAfter]
  split
  · exact ⟨rootTags_set _ settag, rfl, rfl⟩
  · exact ⟨rfl, rfl, rfl⟩

/-- **How far a call has come**: it has dealt with the indices up to below `n`. -/
structure CameTo (g : Geometry) (m : TaggedMap α) (first last nr : Nat) (iftag : Tag)
    (res : RangeTagged α) (n : Nat) : Prop where
  pos : 0 < n
  le_bits : n ≤ 2 ^ g.indexBits
  index_eq : res.firstIndex = n % 2 ^ g.indexBits
  tagged_eq : res.tagged = m.rank iftag first n
  tagged_le : res.tagged ≤ nr
  past : ∀ j, first ≤ j → last < j → j < n → m.tag iftag j = false
  stop : res.tagged < nr → ∀ j, n ≤ j → j ≤ last → m.tag iftag j = false

/-- The indices that have been dealt with are those that were asked for. -/
theorem CameTo.wanted_iff {res : RangeTagged α} (h : CameTo g m first last nr iftag res n)
    (hj : m.tag iftag j = true) :
    (first ≤ j ∧ j ≤ last ∧ m.rank iftag first j < nr) ↔ (first ≤ j ∧ j < n) := by
  have h₃ := h.tagged_eq
  have h4 := h.tagged_le
  constructor
  · rintro ⟨hf, hle, hrank⟩
    refine ⟨hf, not_le.mp fun hge => ?_⟩
    have h₁ : m.rank iftag first n ≤ m.rank iftag first j := rank_mono hge
    exact Bool.false_ne_true ((h.stop (by omega) j hge hle).symm.trans hj)
  · rintro ⟨hf, hjn⟩
    refine ⟨hf, not_lt.mp fun hgt => ?_, ?_⟩
    · exact Bool.false_ne_true ((h.past j hf hgt hjn).symm.trans hj)
    · have h₁ := rank_succ (m := m) hf hj
      have h₂ : m.rank iftag first (j + 1) ≤ m.rank iftag first n := rank_mono hjn
      omega

theorem CameTo.marked_eq {res : RangeTagged α} (h : CameTo g m first last nr iftag res n) (j : Nat) :
    marked m first n iftag settag j = (m.rangeTag first last nr iftag settag).entry j := by
  refine Prod.ext rfl (funext fun tag => ?_)
  show (_ || (_ && _ && _)) = (_ || (_ && _ && _))
  cases hj : m.tag iftag j with
  | false => rw [Bool.and_false, Bool.false_and, Bool.false_and]
  | true => rw [decide_eq_decide.mpr (h.wanted_iff hj).symm]

/-- A range without `iftag`. -/
theorem cameTo_of_untagged (hn : 0 < n) (hfn : first ≤ n) (hle : n ≤ 2 ^ g.indexBits)
    (hno : ∀ j, m.tag iftag j = true → first ≤ j → j < n ∨ j ≤ last → False) (r : Root α) :
    CameTo g m first last nr iftag ⟨0, n % 2 ^ g.indexBits, r⟩ n := by
  have hfalse : ∀ j, first ≤ j → j < n ∨ j ≤ last → m.tag iftag j = false := fun j h₁ h₂ =>
    Bool.eq_false_iff.mpr fun hj => hno j hj h₁ h₂
  refine ⟨hn, hle, rfl, (count_eq_zero_iff.mpr fun o ho => ?_).symm, Nat.zero_le _,
    fun j h₁ _ h₂ => hfalse j h₁ (.inl h₂), fun _ j h₁ h₂ => hfalse j (by omega) (.inr h₂)⟩
  by_cases ho' : first ≤ o
  · rw [hfalse o ho' (.inl ho), Bool.and_false]
  · rw [decide_eq_false ho', Bool.false_and]

/-- A range that asks for nothing. -/
theorem rangeTag_eq_self (h : ∀ j, m.tag iftag j = true → first ≤ j → j ≤ last → nr = 0) :
    m.rangeTag first last nr iftag settag = m := by
  obtain ⟨item, tag⟩ := m
  refine congrArg (TaggedMap.mk item) (funext fun tag' => funext fun j => ?_)
  show (tag tag' j || (tag' == settag && tag iftag j && _)) = tag tag' j
  cases hj : tag iftag j with
  | false => rw [Bool.and_false, Bool.false_and, Bool.or_false]
  | true =>
    rw [decide_eq_false, Bool.and_false, Bool.or_false]
    rintro ⟨hf, hl, hrank⟩
    have := h j hj hf hl
    omega

section
variable (hr : Represents g r m)
include hr

theorem Represents.of_entry_eq {m' : TaggedMap α} (h : ∀ j, m.entry j = m'.entry j) : Represents g r m' :=
  ⟨hr.height_le, hr.ok, fun j => (hr.entry j).trans (h j), fun j hj => (h j).symm.trans (hr.bound j hj)⟩

/-- An index with a tag is in the tree. -/
theorem Represents.lt_of_tag {tag : Tag} (hj : m.tag tag j = true) :
    j < g.mapSize ^ r.height ∧ j < 2 ^ g.indexBits := by
  constructor
  · by_contra hge
    have := congrArg (fun e : Entry α => e.2 tag) (hr.entry_eq_missing (not_lt.mp hge))
    exact Bool.false_ne_true (this.symm.trans hj)
  · by_contra hge
    have := congrArg (fun e : Entry α => e.2 tag) (hr.bound j (not_lt.mp hge))
    exact Bool.false_ne_true (this.symm.trans hj)

theorem Represents.rnode_ne_null (hroot : rootTagGet r iftag = true) : r.rnode ≠ .null := by
  intro hn
  have := hr.ok
  rw [hn, ok_null_iff] at this
  exact Bool.false_ne_true ((congrFun this iftag).symm.trans hroot)

/-- A tree that is a direct item, at index 0. -/
theorem Represents.rangeTag_direct (hH : r.height = 0)
    (hroot : rootTagGet r iftag = true) (last : Nat) (hnr : nr ≠ 0) (settag : Tag) :
    Represents g (rootTagSet r settag) (m.rangeTag 0 last nr iftag settag) := by
  have hlt : 0 < g.mapSize ^ r.height := Nat.pow_pos g.mapSize_pos
  have hent : m.entry 0 = (itemOf r.rnode, rootTags r) := by
    rw [← hr.content_eq hlt, hH]
    rfl
  have hat : At g (rootTags r) r.height 0 0 [] r.rnode (rootTags r) := by
    have := at_root 0 hr.ok
    rw [hH] at this ⊢
    exact this
  have hok : Ok (shape g α) 0 (rootTags (rootTagSet r settag)) r.rnode := by
    have hok := hat.ok
    cases he : r.rnode with
    | null => exact absurd he (hr.rnode_ne_null hroot)
    | item a => exact trivial
    | node d slots => rw [he] at hok; exact hok.elim
  have hrep := hr.modify (Nat.pow_pos (by omega)) hlt hat rfl (SameAround.refl cell [])
    (⟨hat.length_eq, rfl, hok, trivial⟩ : At g (rootTags (rootTagSet r settag)) r.height 0 0 [] r.rnode
      (rootTags (rootTagSet r settag))) rfl rfl
  refine hrep.of_entry_eq fun j => ?_
  by_cases hj : j = 0
  · subst hj
    rw [TaggedMap.entry_set_self, rootTags_set]
    refine Prod.ext (congrArg Prod.fst hent).symm (funext fun tag => ?_)
    have htags : ∀ tag, m.tag tag 0 = rootTags r tag := fun tag => congrFun (congrArg Prod.snd hent) tag
    have hwant : 0 ≤ 0 ∧ 0 ≤ last ∧ m.rank iftag 0 0 < nr :=
      ⟨le_rfl, Nat.zero_le last, Nat.pos_of_ne_zero hnr⟩
    show update (rootTags r) settag true tag = (m.tag tag 0 || (tag == settag && m.tag iftag 0 &&
      decide (0 ≤ 0 ∧ 0 ≤ last ∧ m.rank iftag 0 0 < nr)))
    rw [htags tag, htags iftag, show rootTags r iftag = true from hroot, decide_eq_true hwant]
    by_cases ht : tag = settag
    · subst ht; rw [update_self]; simp
    · rw [update_of_ne ht, beq_false_of_ne ht, Bool.false_and, Bool.false_and, Bool.or_false]
  · rw [TaggedMap.entry_set_of_ne m hj]
    have hno : m.tag iftag j = false := by
      rw [Bool.eq_false_iff]
      intro ht
      have := (hr.lt_of_tag ht).1
      rw [hH, pow_zero] at this
      omega
    exact (entry_rangeTag_of_untagged hno).symm

/-- The scan of a tree with nodes. -/
theorem Represents.rangeTag_scan (hH : r.height ≠ 0)
    (hroot : rootTagGet r iftag = true) {last' : Nat} (hle : first ≤ last')
    (hlastB : last' < 2 ^ g.indexBits) (hlastH : last' < g.mapSize ^ r.height)
    (hlast : ∀ j, m.tag iftag j = true → (j ≤ last' ↔ j ≤ last)) (hnr : nr ≠ 0) (settag : Tag) :
    ∃ s n, Fuel.Returns (fun fuel => scanLoop g last' nr iftag settag fuel (scanStart g r first)) s ∧
      Represents g (rootAfter r (plug s.path s.slot) settag s.tagged)
      (m.rangeTag first last nr iftag settag) ∧
      ∀ root, CameTo g m first last nr iftag ⟨s.tagged, s.index, root⟩ n := by
  let R : Range α := ⟨m, rootTags r, r.height, first, last', nr, iftag, settag⟩
  have hrank : m.rank iftag first first = 0 := by
    refine count_eq_zero_iff.mpr fun o ho => ?_
    rw [decide_eq_false (not_le.mpr ho), Bool.false_and]
  obtain ⟨k, hk⟩ : ∃ k, r.height = k + 1 := ⟨r.height - 1, by omega⟩
  have hstart : Scanning g R (scanStart g r first) := by
    refine ⟨⟨k, hk, by rw [scanStart, hk, Nat.add_sub_cancel], ⟨rootTags r, ?_⟩, hr.rnode_ne_null hroot⟩,
      ⟨fun j hj => ?_, hrank.symm⟩, le_rfl, hle, Nat.pos_of_ne_zero hnr⟩
    · have := at_root first hr.ok
      rw [← hk]
      exact this
    · refine (hr.content_eq hj).trans (Prod.ext rfl (funext fun tag => ?_))
      show m.tag tag j = (m.tag tag j || (_ && _ && decide (first ≤ j ∧ j < first)))
      simp
  obtain ⟨s, n, hs, hret⟩ := scanLoop_spec (R := R) hr.height_le hlastB hlastH _ _ le_rfl hstart
  have hcame : ∀ root, CameTo g m first last nr iftag ⟨s.tagged, s.index, root⟩ n := by
    refine fun root => ⟨Nat.zero_lt_of_lt hs.first_lt, hs.le_bits, hs.index_eq, hs.done.tagged_eq,
      hs.tagged_le, fun j _ h₁ h₂ => ?_, fun hlt j h₁ h₂ => ?_⟩
    · refine Bool.eq_false_iff.mpr fun hj => ?_
      have := (hlast j hj).mp.mt (not_le.mpr h₁)
      exact Bool.false_ne_true ((hs.past j (not_le.mp this) h₂).symm.trans hj)
    · refine Bool.eq_false_iff.mpr fun hj => ?_
      have h₃ := (hlast j hj).mpr h₂
      have h4 : last' < n := hs.stop.resolve_right (not_le.mpr hlt)
      omega
  refine ⟨s, n, hret, ?_, hcame⟩
  obtain ⟨htags, hheight, hrnode⟩ := rootAfter_eq r (plug s.path s.slot) settag s.tagged
  refine ⟨by rw [hheight]; exact hr.height_le, ?_, fun j => ?_, fun j hj => ?_⟩
  · rw [hheight, hrnode, htags]
    exact hs.ok
  · rw [rootContent, hheight, hrnode, htags, ← (hcame r).marked_eq j]
    by_cases hj : j < g.mapSize ^ r.height
    · rw [if_pos hj]
      exact hs.done.content_eq j hj
    · rw [if_neg hj, ← hr.entry_eq_missing (not_lt.mp hj)]
      exact (marked_of_untagged (Bool.eq_false_iff.mpr fun ht => hj (hr.lt_of_tag ht).1)).symm
  · rw [← hr.bound j hj]
    exact entry_rangeTag_of_untagged (Bool.eq_false_iff.mpr fun ht =>
      not_lt.mpr hj (hr.lt_of_tag ht).2)

end

/-- **Tagging a range**, and how far the call has come. -/
theorem Represents.rangeTag (hr : Represents g r m) {first last nr : Nat}
    (hlast : last < 2 ^ g.indexBits) (iftag settag : Tag) :
    ∃ res, Fuel.Returns (fun fuel => radixTreeRangeTagIfTagged g fuel r first last nr iftag settag) res ∧
      Represents g res.root (m.rangeTag first last nr iftag settag) ∧
      (first < 2 ^ g.indexBits → 0 < nr → ∃ n, CameTo g m first last nr iftag res n) := by
  -- the limit that the height sets does not matter for an index with a tag
  have hmin : ∀ j, m.tag iftag j = true → (j ≤ min last (radixTreeMaxindex g r.height) ↔ j ≤ last) := by
    intro j hj
    have hin := hr.lt_of_tag hj
    have := mt (maxindex_lt_iff hin.2).mp (not_le.mpr hin.1)
    omega
  have hself : (∀ j, m.tag iftag j = true → first ≤ j → j ≤ last → nr = 0) →
      Represents g r (m.rangeTag first last nr iftag settag) := by
    intro h
    rw [rangeTag_eq_self h]
    exact hr
  by_cases hempty : min last (radixTreeMaxindex g r.height) < first
  · have hno : ∀ j, m.tag iftag j = true → first ≤ j → j ≤ last → False := fun j hj hf hl => by
      have := (hmin j hj).mpr hl
      omega
    refine ⟨⟨0, first, r⟩, Fuel.returns_const fun fuel => ?_,
      hself fun j hj hf hl => (hno j hj hf hl).elim, fun hb _ => ⟨first, ?_⟩⟩
    · rw [radixTreeRangeTagIfTagged, if_pos hempty]
    · have hc : CameTo g m first last nr iftag _ first := cameTo_of_untagged (by omega) le_rfl
        hb.le (fun j hj hf hl => hno j hj hf (hl.resolve_left (not_lt.mpr hf))) r
      rwa [Nat.mod_eq_of_lt hb] at hc
  by_cases hnr : nr = 0
  · refine ⟨⟨0, first, r⟩, Fuel.returns_const fun fuel => ?_, hself fun j hj hf hl => hnr,
      fun _ h₀ => absurd hnr h₀.ne'⟩
    rw [radixTreeRangeTagIfTagged, if_neg hempty, if_pos hnr]
  have hlastB : min last (radixTreeMaxindex g r.height) < 2 ^ g.indexBits := by omega
  cases hroot : rootTagGet r iftag with
  | false =>
    have hno : ∀ j, m.tag iftag j = true → False := fun j hj => by
      have := (hr.tagged_iff iftag).mpr ⟨j, (hr.lt_of_tag hj).2, hr.item_of_tag hj, hj⟩
      exact Bool.false_ne_true (hroot.symm.trans this)
    refine ⟨⟨0, (min last (radixTreeMaxindex g r.height) + 1) % 2 ^ g.indexBits, r⟩,
      Fuel.returns_const fun fuel => ?_, hself fun j hj _ _ => (hno j hj).elim, fun _ _ => ⟨_,
        cameTo_of_untagged (Nat.succ_pos _) (by omega) hlastB (fun j hj _ _ => hno j hj) r⟩⟩
    rw [radixTreeRangeTagIfTagged, if_neg hempty, if_neg hnr, hroot]
    rfl
  | true =>
    have hlastH : min last (radixTreeMaxindex g r.height) < g.mapSize ^ r.height := by
      refine not_le.mp fun hge => ?_
      have := (maxindex_lt_iff hlastB).mpr hge
      omega
    by_cases hH : r.height = 0
    · have hlast0 : min last (radixTreeMaxindex g r.height) = 0 := by
        have : g.mapSize ^ r.height = 1 := by rw [hH, pow_zero]
        omega
      have hf0 : first = 0 := by omega
      refine ⟨⟨1, (min last (radixTreeMaxindex g r.height) + 1) % 2 ^ g.indexBits, rootTagSet r settag⟩,
        Fuel.returns_const fun fuel => ?_, ?_, fun _ hnr0 => ⟨1, ?_⟩⟩
      · rw [radixTreeRangeTagIfTagged, if_neg hempty, if_neg hnr, hroot, if_neg (by decide), if_pos hH]
      · rw [hf0]
        exact hr.rangeTag_direct hH hroot last hnr settag
      · -- the one index there is
        have honly : ∀ j, m.tag iftag j = true → j = 0 := fun j hj => by
          have := (hr.lt_of_tag hj).1
          rw [hH, pow_zero] at this
          omega
        obtain ⟨j, _, _, hj⟩ := (hr.tagged_iff iftag).mp hroot
        have h0 : m.tag iftag 0 = true := honly j hj ▸ hj
        refine ⟨Nat.succ_pos 0, Nat.one_le_two_pow, by rw [hlast0], ?_, hnr0, fun j _ h₁ h₂ => by omega,
          fun _ j h₁ _ => Bool.eq_false_iff.mpr fun hj => by have := honly j hj; omega⟩
        rw [hf0, rank_succ le_rfl h0]
        rfl
    · obtain ⟨s, n, hret, hrep, hcame⟩ :=
        hr.rangeTag_scan hH hroot (not_lt.mp hempty) hlastB hlastH hmin hnr settag
      refine ⟨⟨s.tagged, s.index, rootAfter r (plug s.path s.slot) settag s.tagged⟩,
        hret.before (Fuel.returns_const fun _ => rfl) fun fuel hfuel => ?_, hrep, fun _ _ => ⟨n, hcame _⟩⟩
      rw [radixTreeRangeTagIfTagged, if_neg hempty, if_neg hnr, hroot, if_neg (by decide), if_neg hH,
        hfuel, rootAfter]

end LinuxKernel.RadixTree
