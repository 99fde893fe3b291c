/-
  Gang lookups (`__lookup`, `__lookup_tag` and their callers, `lib/radix-tree.c`).

  1. **Program** — `seek` is the inner loop that steps over slots with nothing to find, `grab` the loop
     over the slots of a lowest node, and `gangLoop` the outer loop, which has the same text in both
     callers.  The two searches of one lowest node keep their own bodies: `__lookup` looks for items on
     the way down and grabs at once at the bottom, `__lookup_tag` looks for the tag on every level.

  2. **Specification** — `listing f a b` is what `f` finds at the indices from `a` up to `b`, in
     ascending order.  A search from `index` has covered the indices up to some `n` (`Part`): it returns
     `listing f index n` and resumes at `n`, which is 0 when `n` is past `ULONG_MAX`.

  3. **Result** — the outer loop ends with the first `max_items` entries of `listing` over ALL indices
     from `first_index` to `ULONG_MAX`, where `f` is the single lookup.
-/
import LinuxKernel.Lib.RadixTreeBatch

namespace LinuxKernel.RadixTree

open LinuxKernel.Trie List
open LinuxKernel.Run (Reachable invariant_of_step)

/-! ## The program -/

section Program
variable (g : Geometry) {α : Type}

/-- `index &= ~((1UL << shift) - 1); index += 1UL << shift;` -/
def skipBlock (shift index : Nat) : Nat :=
  ((index >>> shift) <<< shift + 1 <<< shift) % 2 ^ g.indexBits

/-- The inner `for (;;)`: the slots from `i` on, `left` of them; the index, and the slot where it stops. -/
def seek (present : Nat → Bool) (shift : Nat) : Nat → Nat → Nat → Nat × Option Nat
  | 0, _, index => (index, none)
  | left + 1, i, index =>
      if present i then (index, some i)
      else
        let index := skipBlock g shift index
        if index = 0 then (index, none) else seek present shift left (i + 1) index

/-- The loop over the slots of a lowest node from `j` on, `left` of them, with room for `maxItems`. -/
def grab (wanted : Nat → Bool) (slots : Nat → Slot α) : Nat → Nat → Nat → Nat → List α × Nat
  | 0, _, index, _ => ([], index)
  | left + 1, j, index, maxItems =>
      let index := (index + 1) % 2 ^ g.indexBits
      match if wanted j then itemOf (slots j) else none with
      | none => grab wanted slots left (j + 1) index maxItems
      | some a =>
          if maxItems = 1 then ([a], index)
          else
            let r := grab wanted slots left (j + 1) index (maxItems - 1)
            (a :: r.1, r.2)

/-- `__lookup`: what is found in one lowest node, and the index to go on from.  Only a node is followed;
    an item above the lowest level is never met. -/
def lookupNode : Nat → Slot α → Nat → Nat → List α × Nat
  | 1, .node _ slots, index, maxItems =>
      let i := offsetOf g 0 index
      grab g (fun _ => true) slots (g.mapSize - i) i index maxItems
  | height + 2, .node _ slots, index, maxItems =>
      let shift := (height + 1) * g.mapShift
      let i := offsetOf g shift index
      match seek g (fun i => !(slots i).isNull) shift (g.mapSize - i) i index with
      | (index, none) => ([], index)
      | (index, some i) => lookupNode (height + 1) (slots i) index maxItems
  | _, _, index, _ => ([], index)

/-- `__lookup_tag` -/
def lookupNodeTag (tag : Tag) : Nat → Slot α → Nat → Nat → List α × Nat
  | height + 1, .node m slots, index, maxItems =>
      let shift := height * g.mapShift
      let i := offsetOf g shift index
      match seek g (tagGet m tag) shift (g.mapSize - i) i index with
      | (index, none) => ([], index)
      | (index, some i) =>
          if height = 0 then
            let j := offsetOf g 0 index
            grab g (tagGet m tag) slots (g.mapSize - j) j index maxItems
          else lookupNodeTag tag height (slots i) index maxItems
  | _, _, index, _ => ([], index)

/-- The outer loop of both callers; `look` searches one lowest node. -/
def gangLoop (look : Nat → Nat → List α × Nat) (maxIndex maxItems : Nat) :
    Nat → List α → Nat → Option (List α)
  | 0, _, _ => none
  | turns + 1, results, curIndex =>
      if results.length < maxItems then
        if maxIndex < curIndex then some results
        else
          let r := look curIndex (maxItems - results.length)
          if r.2 = 0 then some (results ++ r.1)
            else gangLoop look maxIndex maxItems turns (results ++ r.1) r.2
      else some results

def radixTreeGangLookup (turns : Nat) (root : Root α) (firstIndex maxItems : Nat) : Option (List α) :=
  match root.rnode with
  | .null => some []
  | .item a => if 0 < firstIndex then some [] else some [a]
  | .node m slots =>
      gangLoop (lookupNode g m.height (.node m slots))
        (radixTreeMaxindex g m.height) maxItems turns [] firstIndex

def radixTreeGangLookupTag (turns : Nat) (root : Root α) (firstIndex maxItems : Nat) (tag : Tag) :
    Option (List α) :=
  if rootTagGet root tag then
    match root.rnode with
    | .null => some []
    | .item a => if 0 < firstIndex then some [] else some [a]
    | .node m slots =>
        gangLoop (lookupNodeTag g tag m.height (.node m slots)) (radixTreeMaxindex g m.height) maxItems
          turns [] firstIndex
  else some []

end Program

variable {α : Type} {g : Geometry}

/-! ## What is found between two indices -/

/-- What `f` finds at the indices from `a` up to `b`. -/
def listing (f : Nat → Option α) (a b : Nat) : List α := (List.range' a (b - a)).filterMap f

variable {f : Nat → Option α} {a b c : Nat}

theorem listing_append (hab : a ≤ b) (hbc : b ≤ c) : listing f a b ++ listing f b c = listing f a c := by
  have hb : b = a + (b - a) := by omega
  have hc : c - a = (b - a) + (c - b) := by omega
  rw [listing, listing, listing, ← filterMap_append, hc, ← List.range'_append_1, ← hb]

theorem listing_eq_nil (h : ∀ i, a ≤ i → i < b → f i = none) : listing f a b = [] := by
  rw [listing, filterMap_eq_nil_iff]
  intro i hi
  rw [mem_range'_1] at hi
  exact h i hi.1 (by omega)

theorem listing_succ (h : a < b) : listing f a b = (f a).toList ++ listing f (a + 1) b := by
  rw [← listing_append (Nat.le_succ a) h, listing, Nat.succ_sub le_rfl, Nat.sub_self]
  cases hf : f a <;> simp [hf]

theorem listing_congr {f' : Nat → Option α} (h : ∀ i, i < b → f i = f' i) :
    listing f a b = listing f' a b := by
  refine filterMap_congr fun i hi => ?_
  rw [mem_range'_1] at hi
  exact h i (by omega)

/-! ## The inner loops -/

section Blocks
variable {k i j : Nat}

theorem skipBlock_eq (k i : Nat) : skipBlock g (k * g.mapShift) i = blockEnd g k i % 2 ^ g.indexBits := by
  rw [skipBlock, blockEnd, Nat.shiftRight_eq_div_pow, Nat.shiftLeft_eq, Nat.shiftLeft_eq, g.mapSize_pow,
    Nat.one_mul, Nat.succ_mul]

theorem digit_blockEnd (k i : Nat) :
    digit g.mapSize k (blockEnd g k i) = (digit g.mapSize k i + 1) % g.mapSize := by
  rw [digit, blockEnd, Nat.mul_div_cancel _ (Nat.pow_pos g.mapSize_pos), digit, Nat.mod_add_mod]

theorem blockEnd_le_succ (k i : Nat) : blockEnd g k i ≤ blockEnd g (k + 1) i := by
  have h : i / g.mapSize ^ k < (i / g.mapSize ^ (k + 1) + 1) * g.mapSize := by
    rw [pow_succ, ← Nat.div_div_eq_div_mul, Nat.mul_comm]
    exact Nat.lt_mul_div_succ _ g.mapSize_pos
  calc blockEnd g k i ≤ (i / g.mapSize ^ (k + 1) + 1) * g.mapSize * g.mapSize ^ k := Nat.mul_le_mul_right _ h
    _ = blockEnd g (k + 1) i := by rw [blockEnd, Nat.mul_assoc, ← pow_succ']

theorem blockEnd_congr (h : j / g.mapSize ^ k = i / g.mapSize ^ k) : blockEnd g k j = blockEnd g k i := by
  rw [blockEnd, blockEnd, h]

theorem digit_of_block (hij : i ≤ j) (hj : j < blockEnd g k i) :
    digit g.mapSize k j = digit g.mapSize k i := by
  rw [digit, digit, div_eq_of_block hij hj]

end Blocks

/-- Where `seek` stops, when it looked at the digits `k` of the indices from `index` on. -/
structure Sought (g : Geometry) (present : Nat → Bool) (k index : Nat) (r : Nat × Option Nat) (n : Nat) :
    Prop where
  le : index ≤ n
  le_bits : n ≤ 2 ^ g.indexBits
  index_eq : r.1 = n % 2 ^ g.indexBits
  absent : ∀ j, index ≤ j → j < n → present (digit g.mapSize k j) = false
  found : ∀ o, r.2 = some o → n < 2 ^ g.indexBits ∧ present o = true ∧ o = digit g.mapSize k n ∧
    blockEnd g (k + 1) n = blockEnd g (k + 1) index
  ended : r.2 = none → index < n ∧ n ≤ blockEnd g (k + 1) index

theorem seek_spec {present : Nat → Bool} {k : Nat} (hk : k + 1 ≤ g.maxPath) (left : Nat) : ∀ {i index : Nat},
    left ≠ 0 → left + i = g.mapSize → i = digit g.mapSize k index → index < 2 ^ g.indexBits →
    ∃ n, Sought g present k index (seek g present (k * g.mapShift) left i index) n := by
  induction left with
  | zero => intro i index h; exact absurd rfl h
  | succ left ih =>
    intro i index _ hleft hi hindex
    have hmod := Nat.mod_eq_of_lt hindex
    unfold seek
    by_cases hp : present i = true
    · rw [if_pos hp]
      refine ⟨index, le_rfl, hindex.le, hmod.symm, fun j h1 h2 => by omega, fun o ho => ?_, nofun⟩
      obtain rfl := Option.some.inj ho
      exact ⟨hindex, hp, hi, rfl⟩
    rw [if_neg hp, skipBlock_eq]
    -- the slot has nothing to find: on to the end of its block
    have hlt := lt_blockEnd (g := g) k index
    have hle := blockEnd_le hk hindex
    have hup := blockEnd_le_succ (g := g) k index
    have habsent : ∀ j, index ≤ j → j < blockEnd g k index → present (digit g.mapSize k j) = false := by
      intro j h1 h2
      rw [digit_of_block h1 h2, ← hi]
      exact Bool.eq_false_of_not_eq_true hp
    have hstop : ∀ {r : Nat × Option Nat}, r = (blockEnd g k index % 2 ^ g.indexBits, none) →
        Sought g present k index r (blockEnd g k index) := by
      rintro r rfl
      exact ⟨hlt.le, hle, rfl, habsent, nofun, fun _ => ⟨hlt, hup⟩⟩
    by_cases hz : blockEnd g k index % 2 ^ g.indexBits = 0
    · rw [if_pos hz]
      exact ⟨_, hstop rfl⟩
    rw [if_neg hz]
    have hB : blockEnd g k index < 2 ^ g.indexBits := by
      rcases Nat.lt_or_eq_of_le hle with h | h
      · exact h
      · rw [h, Nat.mod_self] at hz
        exact absurd rfl hz
    by_cases hl : left = 0
    · subst hl
      exact ⟨_, hstop rfl⟩
    rw [Nat.mod_eq_of_lt hB]
    have hd : i + 1 = digit g.mapSize k (blockEnd g k index) := by
      rw [digit_blockEnd, ← hi, Nat.mod_eq_of_lt (by omega)]
    have hdiv := div_blockEnd_of_digit (show digit g.mapSize k (blockEnd g k index) ≠ 0 by omega)
    obtain ⟨n, h⟩ := ih hl (by omega) hd hB
    refine ⟨n, Nat.le_trans hlt.le h.le, h.le_bits, h.index_eq, fun j h1 h2 => ?_, fun o ho => ?_,
      fun hn => ?_⟩
    · rcases lt_or_ge j (blockEnd g k index) with h3 | h3
      · exact habsent j h1 h3
      · exact h.absent j h3 h2
    · obtain ⟨h1, h2, h3, h4⟩ := h.found o ho
      exact ⟨h1, h2, h3, h4.trans (blockEnd_congr hdiv)⟩
    · obtain ⟨h1, h2⟩ := h.ended hn
      exact ⟨hlt.trans h1, blockEnd_congr hdiv ▸ h2⟩

/-- What a search from `index` with room for `maxItems` returns when it has covered the indices below `n`. -/
structure Part (g : Geometry) (f : Nat → Option α) (index maxItems : Nat) (r : List α × Nat) (n : Nat) :
    Prop where
  lt : index < n
  le_bits : n ≤ 2 ^ g.indexBits
  next : r.2 = n % 2 ^ g.indexBits
  items : r.1 = listing f index n
  room : r.1.length ≤ maxItems

theorem Part.of_le {index index' maxItems n : Nat} {r : List α × Nat} (h : Part g f index' maxItems r n)
    (hle : index ≤ index') (hnone : ∀ j, index ≤ j → j < index' → f j = none) :
    Part g f index maxItems r n where
  lt := hle.trans_lt h.lt
  le_bits := h.le_bits
  next := h.next
  items := by rw [h.items, ← listing_append hle h.lt.le, listing_eq_nil hnone, nil_append]
  room := h.room

theorem part_nil {index maxItems n : Nat} (hlt : index < n) (hle : n ≤ 2 ^ g.indexBits)
    (hnone : ∀ j, index ≤ j → j < n → f j = none) :
    Part g f index maxItems ([], n % 2 ^ g.indexBits) n :=
  ⟨hlt, hle, rfl, (listing_eq_nil hnone).symm, Nat.zero_le _⟩

/-- The slots of a lowest node. -/
theorem grab_spec {wanted : Nat → Bool} {slots : Nat → Slot α} (left : Nat) : ∀ {j index maxItems last : Nat},
    left ≠ 0 → index + left = last → last ≤ 2 ^ g.indexBits → 0 < maxItems →
    (∀ k, k < left → f (index + k) = if wanted (j + k) then itemOf (slots (j + k)) else none) →
    ∃ n, Part g f index maxItems (grab g wanted slots left j index maxItems) n := by
  induction left with
  | zero => intro j index maxItems last h; exact absurd rfl h
  | succ left ih =>
    intro j index maxItems last _ hlast hle hroom hf
    have hfj : f index = if wanted j then itemOf (slots j) else none := hf 0 (Nat.succ_pos left)
    have hlt : index < index + 1 := Nat.lt_succ_self index
    unfold grab
    rw [← hfj]
    -- the slots that follow, when there are any
    have hrest : left ≠ 0 → ∀ {room}, 0 < room → ∃ n,
        Part g f (index + 1) room
          (grab g wanted slots left (j + 1) ((index + 1) % 2 ^ g.indexBits) room) n := by
      intro hl room hr
      rw [Nat.mod_eq_of_lt (show index + 1 < 2 ^ g.indexBits by omega)]
      refine ih hl (by omega) hle hr fun k hk => ?_
      have := hf (k + 1) (by omega)
      rwa [show index + (k + 1) = index + 1 + k by omega, show j + (k + 1) = j + 1 + k by omega] at this
    cases hfi : f index with
    | none =>
      have hnone : ∀ i, index ≤ i → i < index + 1 → f i = none := fun i h1 h2 => by
        rw [show i = index by omega, hfi]
      by_cases hl : left = 0
      · subst hl
        exact ⟨index + 1, part_nil hlt (by omega) hnone⟩
      · obtain ⟨n, h⟩ := hrest hl hroom
        exact ⟨n, h.of_le (Nat.le_succ index) hnone⟩
    | some a =>
      dsimp only
      have hone : ∀ {n}, index < n → listing f index n = a :: listing f (index + 1) n := fun hn => by
        rw [listing_succ hn, hfi]; rfl
      have hself : listing f (index + 1) (index + 1) = [] := listing_eq_nil fun i h1 h2 => by omega
      by_cases hm : maxItems = 1
      · rw [if_pos hm]
        exact ⟨index + 1, hlt, by omega, rfl, by rw [hone hlt, hself], by rw [hm]; exact le_rfl⟩
      rw [if_neg hm]
      by_cases hl : left = 0
      · subst hl
        exact ⟨index + 1, hlt, by omega, rfl, by rw [hone hlt, hself]; rfl, hroom⟩
      · obtain ⟨n, h⟩ := hrest hl (show 0 < maxItems - 1 by omega)
        have hn := h.lt
        refine ⟨n, by omega, h.le_bits, h.next, by rw [hone (by omega), ← h.items], ?_⟩
        have := h.room
        show (_ :: _ : List α).length ≤ maxItems
        rw [length_cons]
        omega

/-! ## One lowest node -/

section Node
variable {t : Tag → Bool} {e : Slot α} {index maxItems h : Nat}

theorem ok_node (hok : Ok (shape g α) (h + 1) t e) (he : e ≠ .null) : ∃ m slots, e = .node m slots := by
  cases e with
  | null => exact absurd rfl he
  | item a => exact hok.elim
  | node m slots => exact ⟨m, slots, rfl⟩

/-- A lowest node, searched from `index` on. -/
theorem grab_node (hg : g.mapShift ≤ g.indexBits) {wanted : Nat → Bool} {slots : Nat → Slot α}
    (hindex : index < 2 ^ g.indexBits) (hroom : 0 < maxItems)
    (hf : ∀ j, index ≤ j → j < blockEnd g 1 index →
      f j = if wanted (digit g.mapSize 0 j) then itemOf (slots (digit g.mapSize 0 j)) else none) :
    ∃ n, Part g f index maxItems
      (grab g wanted slots (g.mapSize - offsetOf g 0 index) (offsetOf g 0 index) index maxItems) n := by
  have hM := g.mapSize_pos
  have hoff : offsetOf g 0 index = index % g.mapSize := by
    have := offsetOf_eq g 0 index
    rwa [Nat.zero_mul, digit, pow_zero, Nat.div_one] at this
  have hlt := Nat.mod_lt index hM
  have hend : index + (g.mapSize - index % g.mapSize) = blockEnd g 1 index := by
    rw [blockEnd, pow_one, Nat.succ_mul]
    have := Nat.div_add_mod' index g.mapSize
    omega
  have hbits : blockEnd g 1 index ≤ 2 ^ g.indexBits := by
    have hsplit : 2 ^ g.indexBits = 2 ^ (g.indexBits - g.mapShift) * g.mapSize := by
      rw [Geometry.mapSize, ← pow_add, Nat.sub_add_cancel hg]
    rw [blockEnd, pow_one, hsplit]
    exact Nat.mul_le_mul_right _ ((Nat.div_lt_iff_lt_mul hM).mpr (hsplit ▸ hindex))
  rw [hoff]
  refine grab_spec _ (by omega) hend hbits hroom fun k hk => ?_
  have hd : digit g.mapSize 0 (index + k) = index % g.mapSize + k := by
    rw [digit, pow_zero, Nat.div_one, Nat.add_mod, Nat.mod_eq_of_lt (show k < g.mapSize by omega),
      Nat.mod_eq_of_lt (by omega)]
  rw [hf (index + k) (by omega) (by omega), hd]

/-- A node above: seek, and then search below the slot that was found. -/
theorem search_spec {present : Nat → Bool} {body : Nat → Nat → List α × Nat} {res : List α × Nat} {k : Nat}
    (hk : k + 1 ≤ g.maxPath) (hindex : index < 2 ^ g.indexBits)
    (hstop : ∀ i, seek g present (k * g.mapShift) (g.mapSize - digit g.mapSize k index)
      (digit g.mapSize k index) index = (i, none) → res = ([], i))
    (hgo : ∀ i o, seek g present (k * g.mapShift) (g.mapSize - digit g.mapSize k index)
      (digit g.mapSize k index) index = (i, some o) → res = body i o)
    (hnone : ∀ j, index ≤ j → j < blockEnd g (k + 1) index → present (digit g.mapSize k j) = false →
      f j = none)
    (hbody : ∀ i, index ≤ i → i < 2 ^ g.indexBits → blockEnd g (k + 1) i = blockEnd g (k + 1) index →
      present (digit g.mapSize k i) = true → ∃ n, Part g f i maxItems (body i (digit g.mapSize k i)) n) :
    ∃ n, Part g f index maxItems res n := by
  have hd := digit_lt g.mapSize_pos k index
  obtain ⟨n, hs⟩ := @seek_spec g present k hk (g.mapSize - digit g.mapSize k index) _ index (by omega)
    (by omega) rfl hindex
  cases hr : seek g present (k * g.mapShift) (g.mapSize - digit g.mapSize k index)
    (digit g.mapSize k index) index with
  | mk i found =>
    rw [hr] at hs
    have hi : i = n % 2 ^ g.indexBits := hs.index_eq
    cases found with
    | none =>
      obtain ⟨hlt, hle⟩ := hs.ended rfl
      rw [hstop i hr, hi]
      exact ⟨n, part_nil hlt hs.le_bits fun j h1 h2 => hnone j h1 (by omega) (hs.absent j h1 h2)⟩
    | some o =>
      obtain ⟨hn, hp, rfl, hend⟩ := hs.found o rfl
      obtain rfl : i = n := hi.trans (Nat.mod_eq_of_lt hn)
      have hlt := lt_blockEnd (g := g) (k + 1) i
      obtain ⟨n, hpart⟩ := hbody i hs.le hn hend hp
      rw [hgo i _ hr]
      exact ⟨n, hpart.of_le hs.le fun j h1 h2 => hnone j h1 (by omega) (hs.absent j h1 h2)⟩

/-- What the tree says about the indices below one of the slots of its top node. -/
theorem content_slot {m : NodeData} {slots : Nat → Slot α} {i j : Nat} (hij : i ≤ j)
    (hj : j < blockEnd g h i) :
    content g (h + 1) t (.node m slots) j =
      content g h (fun tag => m.tags tag (digit g.mapSize h i)) (slots (digit g.mapSize h i)) j := by
  rw [content_node, digit_of_block hij hj]

/-- **`__lookup`** finds the items from `index` on. -/
theorem lookupNode_spec (hg : g.mapShift ≤ g.indexBits) (hroom : 0 < maxItems) {h : Nat} : ∀ {t : Tag → Bool}
    {e : Slot α} {index : Nat}, h + 1 ≤ g.maxPath → Ok (shape g α) (h + 1) t e → e ≠ .null →
    index < 2 ^ g.indexBits →
    (∀ j, index ≤ j → j < blockEnd g (h + 1) index → f j = (content g (h + 1) t e j).1) →
    ∃ n, Part g f index maxItems (lookupNode g (h + 1) e index maxItems) n := by
  induction h with
  | zero =>
    intro t e index hH hok he hindex hf
    obtain ⟨m, slots, rfl⟩ := ok_node hok he
    exact grab_node hg hindex hroom hf
  | succ h ih =>
    intro t e index hH hok he hindex hf
    obtain ⟨m, slots, rfl⟩ := ok_node hok he
    refine @search_spec α g f index maxItems (fun i => !(slots i).isNull)
      (fun i o => lookupNode g (h + 1) (slots o) i maxItems) _ (h + 1) hH hindex (fun i hs => ?_)
      (fun i o hs => ?_) (fun j h1 h2 hp => ?_) fun i h1 h2 hend hp => ?_
    · simp only [lookupNode, offsetOf_eq, hs]
    · simp only [lookupNode, offsetOf_eq, hs]
    · -- no item is below a slot that is NULL
      rw [hf j h1 h2, content_node]
      cases hsl : slots (digit g.mapSize (h + 1) j) with
      | null => rfl
      | item a => simp [hsl, DigitTree.isNull] at hp
      | node m' slots' => simp [hsl, DigitTree.isNull] at hp
    · have hd := digit_lt g.mapSize_pos (h + 1) i
      refine ih (by omega) (hok.2 _ hd) (fun hn => ?_) h2 fun j h3 h4 => ?_
      · rw [hn] at hp
        cases hp
      · have := blockEnd_le_succ (g := g) (h + 1) i
        rw [hf j (by omega) (by omega), content_slot h3 h4]
        rfl

/-- **`__lookup_tag`** finds the tagged items from `index` on. -/
theorem lookupNodeTag_spec (hg : g.mapShift ≤ g.indexBits) (hroom : 0 < maxItems) (tag : Tag) {h : Nat} :
    ∀ {t : Tag → Bool} {e : Slot α} {index : Nat}, h + 1 ≤ g.maxPath → Ok (shape g α)
    (h + 1) t e → e ≠ .null →
    index < 2 ^ g.indexBits →
    (∀ j, index ≤ j → j < blockEnd g (h + 1) index →
      f j = if (content g (h + 1) t e j).2 tag then (content g (h + 1) t e j).1 else none) →
    ∃ n, Part g f index maxItems (lookupNodeTag g tag (h + 1) e index maxItems) n := by
  induction h with
  | zero =>
    intro t e index hH hok he hindex hf
    obtain ⟨m, slots, rfl⟩ := ok_node hok he
    refine @search_spec α g f index maxItems (tagGet m tag)
      (fun i o => grab g (tagGet m tag) slots (g.mapSize - offsetOf g 0 i) (offsetOf g 0 i) i maxItems) _ 0
      hH hindex (fun i hs => ?_) (fun i o hs => ?_) (fun j h1 h2 hp => ?_) fun i h1 h2 hend hp => ?_
    · simp only [lookupNodeTag, offsetOf_eq, hs]
    · simp only [lookupNodeTag, offsetOf_eq, hs, if_true]
    · rw [hf j h1 h2, content_node]
      exact if_neg (by rw [Bool.not_eq_true]; exact hp)
    · refine grab_node hg h2 hroom fun j h3 h4 => ?_
      rw [hf j (by omega) (hend ▸ h4), content_node]
      rfl
  | succ h ih =>
    intro t e index hH hok he hindex hf
    obtain ⟨m, slots, rfl⟩ := ok_node hok he
    refine @search_spec α g f index maxItems (tagGet m tag)
      (fun i o => lookupNodeTag g tag (h + 1) (slots o) i maxItems) _ (h + 1) hH hindex (fun i hs => ?_)
      (fun i o hs => ?_) (fun j h1 h2 hp => ?_) fun i h1 h2 hend hp => ?_
    · rw [lookupNodeTag]
      simp only [offsetOf_eq, hs]
    · rw [lookupNodeTag]
      simp only [offsetOf_eq, hs, Nat.add_one_ne_zero, if_false]
    · -- no item below carries a tag that is not set above
      have hd := digit_lt g.mapSize_pos (h + 1) j
      rw [hf j h1 h2, content_node]
      refine if_neg fun ht => ?_
      have := tag_of_content (hok.2 _ hd) ht
      exact Bool.false_ne_true (hp.symm.trans this)
    · have hd := digit_lt g.mapSize_pos (h + 1) i
      refine ih (by omega) (hok.2 _ hd) (fun hn => ?_) h2 fun j h3 h4 => ?_
      · have hslot := hok.2 _ hd
        rw [hn, ok_null_iff] at hslot
        exact Bool.false_ne_true ((congrFun hslot tag).symm.trans hp)
      · have := blockEnd_le_succ (g := g) (h + 1) i
        rw [hf j (by omega) (by omega), content_slot h3 h4]
        rfl

end Node

/-! ## The outer loop -/

/-- **The outer loop ends**, with the first entries of what there is from `curIndex` on. -/
theorem gangLoop_returns {look : Nat → Nat → List α × Nat} {maxIndex maxItems : Nat}
    (hlook : ∀ cur room, cur < 2 ^ g.indexBits → cur ≤ maxIndex → 0 < room →
      ∃ n, Part g f cur room (look cur room) n)
    (hbeyond : ∀ j, maxIndex < j → f j = none) (d : Nat) : ∀ {results : List α} {cur : Nat},
    2 ^ g.indexBits - cur ≤ d → cur < 2 ^ g.indexBits → results.length ≤ maxItems →
    Fuel.Returns (fun turns => gangLoop look maxIndex maxItems turns results cur)
      (results ++ (listing f cur (2 ^ g.indexBits)).take (maxItems - results.length)) := by
  induction d with
  | zero => intro results cur hd hcur; omega
  | succ d ih =>
    intro results cur hd hcur hlen
    by_cases hroom : results.length < maxItems
    · by_cases hend : maxIndex < cur
      · rw [listing_eq_nil fun i hi _ => hbeyond i (by omega), take_nil, append_nil]
        exact Fuel.returns_turn fun n => by rw [gangLoop, if_pos hroom, if_pos hend]
      · obtain ⟨n, hp⟩ := hlook cur (maxItems - results.length) hcur (by omega) (by omega)
        have hlt := hp.lt
        have hfound := hp.room
        rw [← listing_append hlt.le hp.le_bits, ← hp.items, take_append,
          take_of_length_le hfound, ← append_assoc]
        by_cases hz : (look cur (maxItems - results.length)).2 = 0
        · -- past `ULONG_MAX`
          have hn : n = 2 ^ g.indexBits := by
            rcases Nat.lt_or_eq_of_le hp.le_bits with h | h
            · rw [hp.next, Nat.mod_eq_of_lt h] at hz
              omega
            · exact h
          rw [hn, listing_eq_nil fun i h1 h2 => by omega, take_nil, append_nil]
          exact Fuel.returns_turn fun _ => by rw [gangLoop, if_pos hroom, if_neg hend]; exact if_pos hz
        · have hn : n < 2 ^ g.indexBits := by
            rcases Nat.lt_or_eq_of_le hp.le_bits with h | h
            · exact h
            · rw [hp.next, h, Nat.mod_self] at hz
              exact absurd rfl hz
          have hnext := hp.next
          rw [Nat.mod_eq_of_lt hn] at hnext
          have hrun := @ih (results ++ (look cur (maxItems - results.length)).1) n (by omega) hn
            (by rw [length_append]; omega)
          rw [length_append, ← Nat.sub_sub] at hrun
          refine hrun.turn fun k => ?_
          rw [gangLoop, if_pos hroom, if_neg hend, ← hnext]
          exact if_neg hz
    · have hz : maxItems - results.length = 0 := by omega
      rw [hz, take_zero, append_nil]
      exact Fuel.returns_turn fun n => by rw [gangLoop, if_neg hroom]

variable {root : Root α} {m : TaggedMap α} {first maxItems : Nat}

/-- **Either gang lookup** `F`: `sel` says what counts at an index, `look` searches one lowest node. -/
theorem Represents.gang (hr : Represents g root m) (hfirst : first < 2 ^ g.indexBits) (hmax : 0 < maxItems)
    {sel : Entry α → Option α} (hsel : sel missing = none) {look : Nat → Slot α → Nat → Nat → List α × Nat}
    {F : Nat → Option (List α)} (hnull : root.rnode = .null → ∀ turns, F turns = some [])
    (hitem : ∀ a, root.rnode = .item a → sel (some a, rootTags root) = some a ∧
      ∀ turns, F turns = if 0 < first then some [] else some [a])
    (hnode : ∀ d slots, root.rnode = .node d slots → ∀ turns, F turns =
      gangLoop (look d.height root.rnode) (radixTreeMaxindex g d.height) maxItems turns [] first)
    (hlook : ∀ h cur room, h + 1 ≤ g.maxPath → Ok (shape g α) (h + 1) (rootTags root) root.rnode →
      root.rnode ≠ .null → cur < 2 ^ g.indexBits → 0 < room →
      (∀ j, cur ≤ j → j < blockEnd g (h + 1) cur →
        sel (m.entry j) = sel (content g (h + 1) (rootTags root) root.rnode j)) →
      ∃ n, Part g (fun j => sel (m.entry j)) cur room (look (h + 1) root.rnode cur room) n) :
    Fuel.Returns F ((listing (fun j => sel (m.entry j)) first (2 ^ g.indexBits)).take maxItems) := by
  have hok := hr.ok
  have hle := hr.height_le
  cases htop : root.rnode with
  | null =>
    rw [htop, ok_null_iff] at hok
    rw [listing_eq_nil fun j _ _ =>
      by rw [← hr.entry j, rootContent, htop, hok, content_null, ite_self, hsel],
      take_nil]
    exact Fuel.returns_const (hnull htop)
  | item a =>
    obtain ⟨ha, hF⟩ := hitem a htop
    have hheight : root.height = 0 := by
      cases hh : root.height with
      | zero => rfl
      | succ h => rw [hh, htop] at hok; exact hok.elim
    have hentry : m.entry 0 = (some a, rootTags root) := by
      rw [← hr.entry 0, rootContent, hheight, htop]
      rfl
    have hnone : ∀ j, 0 < j → sel (m.entry j) = none := fun j hj => by
      rw [hr.entry_eq_missing (by rw [hheight, pow_zero]; omega), hsel]
    refine Fuel.returns_const fun turns => ?_
    rw [hF turns]
    split_ifs with hf
    · rw [listing_eq_nil fun j h1 _ => hnone j (by omega), take_nil]
    · obtain rfl : first = 0 := by omega
      rw [listing_succ hfirst, hentry, ha, listing_eq_nil fun j h1 _ => hnone j (by omega)]
      exact congrArg some (take_of_length_le hmax).symm
  | node d slots =>
    cases hh : root.height with
    | zero => rw [hh, htop] at hok; exact hok.elim
    | succ h =>
      rw [hh] at hok hle
      have hd : d.height = h + 1 := by
        rw [htop] at hok
        exact hok.1.1
      have hF := hnode d slots htop
      rw [hd] at hF
      have hrun := @gangLoop_returns α g (fun j => sel (m.entry j)) (look (h + 1) root.rnode)
        (radixTreeMaxindex g (h + 1)) maxItems (fun cur room hcur hmax hroom => ?_) (fun j hj =>
          ?_) _ [] first
        le_rfl hfirst (Nat.zero_le _)
      · rw [funext hF]
        exact hrun
      · have hin : cur < g.mapSize ^ (h + 1) := by
          have := @maxindex_lt_iff g (h + 1) cur hcur
          omega
        have hblock : blockEnd g (h + 1) cur = g.mapSize ^ (h + 1) := by
          rw [blockEnd, Nat.div_eq_of_lt hin, Nat.zero_add, Nat.one_mul]
        refine hlook h cur room hle hok (by rw [htop]; exact node_ne_null d slots) hcur hroom fun j _ h2 => ?_
        rw [← hr.content_eq (by rw [hh, ← hblock]; exact h2), hh]
      · by_cases hb : j < 2 ^ g.indexBits
        · rw [hr.entry_eq_missing (by rw [hh]; exact (maxindex_lt_iff hb).mp hj), hsel]
        · rw [hr.bound j (by omega), hsel]

/-- **Gang lookups agree with single lookups.**  From every tree that a run reaches, a gang lookup ends
    and returns, in ascending order of the indices from `first_index` to `ULONG_MAX`, what the single
    lookups find there, up to `max_items` entries; the tagged one, what they find where the tag is set.
    (`hg`, that a node has no more slots than there are indices, holds on every machine.) -/
theorem gangLookup_eq {s : Sys α} (h : Reachable Start (Step g) s) (hg : g.mapShift ≤ g.indexBits)
    (hfirst : first < 2 ^ g.indexBits) (hmax : 0 < maxItems) :
    Fuel.Returns (fun turns => radixTreeGangLookup g turns s.root first maxItems)
      ((listing (radixTreeLookup g s.root) first (2 ^ g.indexBits)).take maxItems) ∧
    ∀ tag, Fuel.Returns (fun turns => radixTreeGangLookupTag g turns s.root first maxItems tag)
      ((listing (fun i => if radixTreeTagGet g s.root i tag then radixTreeLookup g s.root i else none) first
        (2 ^ g.indexBits)).take maxItems) := by
  have hs : Sound g s := invariant_of_step (fun _ hs => sound_of_start hs) sound_of_step h
  have hr := hs.represents
  refine ⟨?_, fun tag => ?_⟩
  · rw [listing_congr fun i hi => hr.lookup_eq hi]
    refine @Represents.gang α g s.root s.map first maxItems hr hfirst hmax Prod.fst rfl (lookupNode g) _
      (fun htop n => ?_) (fun a htop => ⟨rfl, fun n => ?_⟩) (fun d slots htop n => ?_)
      fun h cur room hH hok hne hcur hroom hf => lookupNode_spec hg hroom hH hok hne hcur hf
    all_goals simp only [radixTreeGangLookup, htop]
  · rw [listing_congr fun i hi => by rw [hr.lookup_eq hi, hr.tagGet_eq hi]]
    by_cases hroot : rootTagGet s.root tag = true
    · refine @Represents.gang α g s.root s.map first maxItems hr hfirst hmax
        (fun e => if e.2 tag then e.1 else none) rfl (lookupNodeTag g tag) _ (fun htop n => ?_)
        (fun a htop => ⟨if_pos hroot, fun n => ?_⟩) (fun d slots htop n => ?_)
        fun h cur room hH hok hne hcur hroom hf => lookupNodeTag_spec hg hroom tag hH hok hne hcur hf
      all_goals simp only [radixTreeGangLookupTag, hroot, if_true, htop]
    · -- the root says that nothing carries the tag
      have hnone : ∀ j, j < 2 ^ g.indexBits → s.map.tag tag j ≠ true := fun j hj ht =>
        hroot ((hr.tagged_iff tag).mpr ⟨j, hj, hr.item_of_tag ht, ht⟩)
      rw [listing_eq_nil fun j _ hj => if_neg (hnone j hj), List.take_nil]
      exact Fuel.returns_const fun n => if_neg hroot

/-- The item at `ULONG_MAX` is found, and the search ends although the next index is 0. -/
theorem gangLookup_eq_last : ∃ s : Sys Nat, ∃ results, Reachable Start (Step geometry64) s ∧
    Fuel.Returns (fun turns => radixTreeGangLookupTag geometry64 turns s.root 5 2 0) results ∧
    radixTreeTagGet geometry64 s.root geometry64.ulongMax 0 = true := by
  obtain ⟨s, hs, hr, h0, -⟩ := sampleLast_reachable
  exact ⟨s, _, hs, (gangLookup_eq hs (by decide) (show 5 < 2 ^ geometry64.indexBits by decide)
    (Nat.succ_pos 1)).2 0, by rwa [hr.tagGet_eq (by decide)]⟩

end LinuxKernel.RadixTree
