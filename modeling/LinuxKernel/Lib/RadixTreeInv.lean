/-
  The radix tree as a tagged map: the invariant, and what reading says.

  `TaggedMap` is what the tree is for: an item for some of the indices, and for each tag the set of the
  indices that carry it.  `Represents` ties a tree to such a map:

  1. **Shape** (`shape`) — every node knows its height and how many of its slots are in use, and a tag
     bit kept above about a subtree is set iff some bit of its top node is: so iff some item below
     carries the tag (`tag_iff_exists`).  A slot that is NULL has no tags.  Interior nodes WITHOUT any
     item below are allowed: a failed insertion leaves them behind.

  2. **Content** — reading the tree at any index gives the item and the tags of the map.

  Every writer of the source works at the end of a path; `Represents.modify` is the one place where
  such work is turned into a change of the map at one index.
-/
import LinuxKernel.Lib.RadixTree

namespace LinuxKernel.RadixTree

open Function LinuxKernel.Trie List
variable {α : Type} {g : Geometry}

/-! ## Numbers -/

theorem Geometry.mapSize_pos (g : Geometry) : 0 < g.mapSize := Nat.pow_pos (by omega)

theorem Geometry.mapSize_pow (g : Geometry) (h : Nat) : g.mapSize ^ h = 2 ^ (h * g.mapShift) := by
  rw [Geometry.mapSize, ← pow_mul, Nat.mul_comm]

/-- The offset of an index at height `h + 1` is one of its digits. -/
theorem offsetOf_eq (g : Geometry) (h i : Nat) : offsetOf g (h * g.mapShift) i = digit g.mapSize h i := by
  rw [offsetOf, digit, Geometry.mapSize, Nat.and_two_pow_sub_one_eq_mod, Nat.shiftRight_eq_div_pow,
    ← pow_mul, Nat.mul_comm]

/-- `radix_tree_maxindex` is the last index with that many digits, or the last `unsigned long`. -/
theorem maxindex_lt_iff {h i : Nat} (hi : i < 2 ^ g.indexBits) :
    radixTreeMaxindex g h < i ↔ g.mapSize ^ h ≤ i := by
  have hpos : 0 < 2 ^ g.indexBits := Nat.pow_pos (by omega)
  rw [radixTreeMaxindex, g.mapSize_pow]
  simp only [Geometry.ulongMax]
  by_cases hw : g.indexBits < h * g.mapShift
  · rw [if_pos hw]
    have := Nat.pow_lt_pow_right (by omega : 1 < 2) hw
    omega
  rw [if_neg hw]
  by_cases h0 : g.indexBits ≤ g.indexBits - h * g.mapShift
  · rw [if_pos h0, show h * g.mapShift = 0 by omega]
    omega
  rw [if_neg h0, Nat.shiftRight_eq_div_pow]
  have hsplit : 2 ^ g.indexBits = 2 ^ (h * g.mapShift) * 2 ^ (g.indexBits - h * g.mapShift) := by
    rw [← pow_add]; congr 1; omega
  have hq : (2 ^ g.indexBits - 1) / 2 ^ (g.indexBits - h * g.mapShift) = 2 ^ (h * g.mapShift) - 1 := by
    have := Nat.mul_sub_div 0 (2 ^ (g.indexBits - h * g.mapShift)) (2 ^ (h * g.mapShift))
      (by rw [Nat.mul_comm, ← hsplit]; exact hpos)
    rw [Nat.zero_div, Nat.mul_comm, ← hsplit] at this
    exact this
  rw [hq]
  have : 0 < 2 ^ (h * g.mapShift) := Nat.pow_pos (by omega)
  omega

/-- The tallest tree has room for every index. -/
theorem lt_pow_maxPath (hi : i < 2 ^ g.indexBits) : i < g.mapSize ^ g.maxPath := by
  rw [g.mapSize_pow]
  refine hi.trans_le (Nat.pow_le_pow_right (by omega) ?_)
  have hS := g.mapShift_pos
  have := Nat.div_add_mod (g.indexBits + g.mapShift - 1) g.mapShift
  have hlt := Nat.mod_lt (g.indexBits + g.mapShift - 1) hS
  rw [Nat.mul_comm] at this
  unfold Geometry.maxPath
  omega

/-! ## The root's tags -/

theorem rootTagGet_eq (root : Root α) (tag : Tag) :
    rootTagGet root tag = root.gfpMask.getLsbD (tag.val + gfpBitsShift) := by
  have hb : rootTagBit tag = BitVec.twoPow 32 (tag.val + gfpBitsShift) := rfl
  rw [rootTagGet, hb, BitVec.and_twoPow]
  cases hx : root.gfpMask.getLsbD (tag.val + gfpBitsShift) with
  | false => rfl
  | true =>
    rw [if_pos rfl, bne_iff_ne]
    intro h0
    have := congrArg (fun v => v.getLsbD (tag.val + gfpBitsShift)) h0
    simp [BitVec.getLsbD_twoPow, gfpBitsShift] at this
    omega

/-- The root's tags, as a function of the tag. -/
def rootTags (root : Root α) : Tag → Bool := fun tag => rootTagGet root tag

theorem rootTags_set (root : Root α) (tag : Tag) :
    rootTags (rootTagSet root tag) = update (rootTags root) tag true := by
  funext t
  have hb : rootTagBit tag = BitVec.twoPow 32 (tag.val + gfpBitsShift) := rfl
  simp only [rootTags, rootTagGet_eq, rootTagSet, hb, BitVec.getLsbD_or, BitVec.getLsbD_twoPow]
  by_cases ht : t = tag
  · subst ht
    have : t.val + gfpBitsShift < 32 := by have := t.isLt; unfold gfpBitsShift; omega
    simp [this]
  · rw [update_of_ne ht, rootTags, rootTagGet_eq]
    have : ¬ tag.val = t.val := fun h => ht (Fin.ext h.symm)
    simp [this]

theorem rootTags_clear (root : Root α) (tag : Tag) :
    rootTags (rootTagClear root tag) = update (rootTags root) tag false := by
  funext t
  have hb : rootTagBit tag = BitVec.twoPow 32 (tag.val + gfpBitsShift) := rfl
  have hlt : t.val + gfpBitsShift < 32 := by have := t.isLt; unfold gfpBitsShift; omega
  simp only [rootTags, rootTagGet_eq, rootTagClear, hb, BitVec.getLsbD_and, BitVec.getLsbD_not,
    BitVec.getLsbD_twoPow]
  by_cases ht : t = tag
  · subst ht
    simp
  · rw [update_of_ne ht, rootTags, rootTagGet_eq]
    have : ¬ tag.val = t.val := fun h => ht (Fin.ext h.symm)
    simp [this, hlt]

theorem rootTags_clearAll (root : Root α) : rootTags (rootTagClearAll root) = fun _ => false := by
  funext t
  rw [rootTags, rootTagGet_eq, rootTagClearAll, BitVec.getLsbD_and]
  have : ∀ t : Tag, gfpBitsMask.getLsbD (t.val + gfpBitsShift) = false := by decide
  rw [this t, Bool.and_false]

/-! ## Content and shape of a tree -/

/-- What there is to know about an index: its item and its tags. -/
abbrev Entry (α : Type) := Option α × (Tag → Bool)
def noTags : Tag → Bool := fun _ => false
def missing : Entry α := (none, noTags)

def itemOf : Slot α → Option α
  | .item a => some a
  | _ => none

/-- What a lowest node says about one of its slots. -/
def cell (m : NodeData) (o : Nat) (e : Slot α) : Entry α := (itemOf e, fun tag => m.tags tag o)

/-- What a tree of height `h` says about an index, when the tag bits kept above about it are `t`. -/
def content (g : Geometry) (h : Nat) (t : Tag → Bool) (e : Slot α) (i : Nat) : Entry α :=
  read g.mapSize cell missing h (itemOf e, t) e i

theorem content_node (h : Nat) (t : Tag → Bool) (m : NodeData) (slots : Nat → Slot α) (i : Nat) :
    content g (h + 1) t (.node m slots) i =
      content g h (fun tag => m.tags tag (digit g.mapSize h i)) (slots (digit g.mapSize h i)) i := rfl

/-- In a tree with nodes the tags are in the nodes. -/
theorem read_eq_content (h : Nat) (c : Entry α) (t : Tag → Bool) (e : Slot α) (i : Nat) :
    read g.mapSize cell missing (h + 1) c e i = content g (h + 1) t e i := by
  cases e <;> rfl

/-- The data of the tree: heights and counts are right, and a tag bit kept about a subtree summarises
    the bits of its top node. -/
def shape (g : Geometry) (α : Type) : Shape NodeData α (Tag → Bool) where
  size := g.mapSize
  size_pos := g.mapSize_pos
  about m o := fun tag => m.tags tag o
  NodeOk h t m occ := m.height = h ∧ m.count = count g.mapSize occ ∧
    ∀ tag, t tag = true ↔ ∃ o, o < g.mapSize ∧ m.tags tag o = true
  NullOk t := t = noTags
  LeafOk t e := match e with
    | .null => t = noTags
    | .item _ => True
    | .node _ _ => False

theorem ok_null_iff {h : Nat} {t : Tag → Bool} : Ok (shape g α) h t .null ↔ t = noTags := by
  cases h <;> exact Iff.rfl

theorem content_null {h : Nat} : content g h noTags (.null : Slot α) i = missing := by
  cases h <;> rfl

variable {tag : Tag}

/-- A tag that an index of the tree carries is set in the bit kept about the tree. -/
theorem tag_of_content {h : Nat} : ∀ {t : Tag → Bool} {e : Slot α},
    Ok (shape g α) h t e → (content g h t e i).2 tag = true → t tag = true := by
  induction h with
  | zero => intro t e _ ht; exact ht
  | succ h ih =>
    intro t e hok ht
    cases e with
    | null =>
      exact absurd ht Bool.false_ne_true
    | item a => exact hok.elim
    | node m slots =>
      have ho := digit_lt g.mapSize_pos h i
      exact (hok.1.2.2 tag).mpr ⟨digit g.mapSize h i, ho, ih (hok.2 _ ho) ht⟩

/-- **Tags are summarised**: the bit kept about a tree is set iff some index in it carries the tag. -/
theorem tag_iff_exists {h : Nat} : ∀ {t : Tag → Bool} {e : Slot α}, Ok (shape g α) h t e →
    (t tag = true ↔ ∃ i, i < g.mapSize ^ h ∧ (content g h t e i).2 tag = true) := by
  induction h with
  | zero =>
    intro t e _
    exact ⟨fun ht => ⟨0, Nat.one_pos, ht⟩, fun ⟨_, _, ht⟩ => ht⟩
  | succ h ih =>
    intro t e hok
    refine ⟨fun ht => ?_, fun ⟨i, _, hi⟩ => tag_of_content hok hi⟩
    cases e with
    | null =>
      rw [ok_null_iff.mp hok] at ht
      exact absurd ht Bool.false_ne_true
    | item a => exact hok.elim
    | node m slots =>
      obtain ⟨o, ho, hb⟩ := (hok.1.2.2 tag).mp ht
      obtain ⟨i, hi, hc⟩ := (ih (hok.2 o ho)).mp hb
      have htop := digit_top g.mapSize_pos ho hi
      refine ⟨o * g.mapSize ^ h + i, ?_, ?_⟩
      · calc o * g.mapSize ^ h + i < o * g.mapSize ^ h + g.mapSize ^ h := by omega
          _ = (o + 1) * g.mapSize ^ h := by ring
          _ ≤ g.mapSize * g.mapSize ^ h := Nat.mul_le_mul_right _ ho
          _ = g.mapSize ^ (h + 1) := by ring
      · rw [content_node, htop, content, read_congr _ _ _ h _ _ fun k hk => digit_add_mul_pow hk o i]
        exact hc

/-- A tag is carried by an item. -/
theorem item_of_tag {h : Nat} : ∀ {t : Tag → Bool} {e : Slot α},
    Ok (shape g α) h t e → (content g h t e i).2 tag = true → (content g h t e i).1 ≠ none := by
  induction h with
  | zero =>
    intro t e hok ht
    cases e with
    | null =>
      have : t = noTags := hok
      subst this
      exact absurd ht Bool.false_ne_true
    | item a => exact Option.some_ne_none a
    | node m slots => exact hok.elim
  | succ h ih =>
    intro t e hok ht
    cases e with
    | null =>
      exact absurd ht Bool.false_ne_true
    | item a => exact hok.elim
    | node m slots => exact ih (hok.2 _ (digit_lt g.mapSize_pos h i)) ht

/-! ## The map a tree stands for -/

/-- A finite map with tags. -/
structure TaggedMap (α : Type) where
  item : Nat → Option α
  tag : Tag → Nat → Bool

namespace TaggedMap

def empty : TaggedMap α := ⟨fun _ => none, fun _ _ => false⟩
def entry (m : TaggedMap α) (i : Nat) : Entry α := (m.item i, fun tag => m.tag tag i)

/-- The map with another entry at `i`. -/
def set (m : TaggedMap α) (i : Nat) (e : Entry α) : TaggedMap α where
  item := update m.item i e.1
  tag := fun tag => update (m.tag tag) i (e.2 tag)

@[simp] theorem entry_set_self (m : TaggedMap α) (i : Nat) (e : Entry α) : (m.set i e).entry i = e := by
  simp only [entry, set, update_self]

theorem entry_set_of_ne (m : TaggedMap α) {i j : Nat} (h : j ≠ i) (e : Entry α) :
    (m.set i e).entry j = m.entry j := by
  simp only [entry, set, update_of_ne h]

@[simp] theorem set_entry (m : TaggedMap α) (i : Nat) : m.set i (m.entry i) = m := by
  simp only [set, entry, update_eq_self]

@[simp] theorem set_set (m : TaggedMap α) (i : Nat) (e e' : Entry α) : (m.set i e).set i e' = m.set i e' := by
  simp only [set, update_idem]

end TaggedMap

/-- What a whole tree says about an index. -/
def rootContent (g : Geometry) (r : Root α) (i : Nat) : Entry α :=
  if i < g.mapSize ^ r.height then content g r.height (rootTags r) r.rnode i else missing

structure Represents (g : Geometry) (r : Root α) (m : TaggedMap α) : Prop where
  height_le : r.height ≤ g.maxPath
  ok : Ok (shape g α) r.height (rootTags r) r.rnode
  entry : ∀ i, rootContent g r i = m.entry i
  bound : ∀ i, 2 ^ g.indexBits ≤ i → m.entry i = missing

variable {r : Root α} {m : TaggedMap α}

theorem Represents.content_eq (h : Represents g r m)
    (hi : i < g.mapSize ^ r.height) : content g r.height (rootTags r) r.rnode i = m.entry i := by
  rw [← h.entry i, rootContent, if_pos hi]

theorem Represents.entry_eq_missing (h : Represents g r m) (hi : g.mapSize ^ r.height ≤ i) :
    m.entry i = missing := by
  rw [← h.entry i, rootContent, if_neg (by omega)]

/-- A tag is carried by an index that is present. -/
theorem Represents.item_of_tag (h : Represents g r m) (ht : m.tag tag i = true) : m.item i ≠ none := by
  have he := h.entry i
  rw [rootContent] at he
  by_cases hi : i < g.mapSize ^ r.height
  · rw [if_pos hi] at he
    have hc : (content g r.height (rootTags r) r.rnode i).2 tag = true := by rw [he]; exact ht
    have := RadixTree.item_of_tag h.ok hc
    rw [he] at this
    exact this
  · rw [if_neg hi] at he
    exact absurd ((congrArg (fun e : Entry α => e.2 tag) he).trans ht) Bool.false_ne_true

/-! ## Reading -/

theorem lookupLoop_eq {h : Nat} : ∀ {t : Tag → Bool} {e : Slot α},
    Ok (shape g α) h t e → lookupLoop g i h e = (content g h t e i).1 := by
  induction h with
  | zero => intro t e _; cases e <;> rfl
  | succ h ih =>
    intro t e hok
    cases e with
    | null => rfl
    | item a => rfl
    | node m slots =>
      rw [lookupLoop, offsetOf_eq, ih (hok.2 _ (digit_lt g.mapSize_pos h i)), content_node]
      rfl

/-- **Lookup** returns the item of the map. -/
theorem Represents.lookup_eq (h : Represents g r m) (hi : i < 2 ^ g.indexBits) :
    radixTreeLookup g r i = m.item i := by
  have hok := h.ok
  have he : (rootContent g r i).1 = m.item i := congrArg Prod.fst (h.entry i)
  rw [← he]
  obtain ⟨H, mask, e⟩ := r
  cases e with
  | null =>
    have ht : rootTags _ = noTags := ok_null_iff.mp hok
    show none = (rootContent g _ i).1
    rw [rootContent, ht, content_null, ite_self]
    rfl
  | item a =>
    cases H with
    | succ H => exact hok.elim
    | zero =>
      show (if 0 < i then none else some a) = (rootContent g _ i).1
      by_cases hi0 : 0 < i
      · rw [if_pos hi0, rootContent, if_neg (by show ¬ i < 1; omega)]
        rfl
      · rw [if_neg hi0, rootContent, if_pos (by show i < 1; omega)]
        rfl
  | node d slots =>
    cases H with
    | zero => exact hok.elim
    | succ H =>
      have hd : d.height = H + 1 := hok.1.1
      show (if radixTreeMaxindex g d.height < i then none else _) = (rootContent g _ i).1
      rw [hd, rootContent]
      by_cases hmax : radixTreeMaxindex g (H + 1) < i
      · rw [if_pos hmax, if_neg (not_lt.mpr ((maxindex_lt_iff hi).mp hmax))]
        rfl
      · rw [if_neg hmax, if_pos (not_le.mp (mt (maxindex_lt_iff hi).mpr hmax))]
        exact lookupLoop_eq hok

theorem tagGetLoop_eq {h : Nat} : ∀ {t : Tag → Bool} {e : Slot α},
    Ok (shape g α) (h + 1) t e → tagGetLoop g i tag (h + 1) e = (content g (h + 1) t e i).2 tag := by
  induction h with
  | zero =>
    intro t e hok
    cases e with
    | null => rfl
    | item a => rfl
    | node m slots =>
      show tagGet m tag (offsetOf g (0 * g.mapShift) i) = _
      rw [offsetOf_eq]
      rfl
  | succ h ih =>
    intro t e hok
    cases e with
    | null => rfl
    | item a => rfl
    | node m slots =>
      show tagGetLoop g i tag (h + 1) (slots (offsetOf g ((h + 1) * g.mapShift) i)) = _
      rw [offsetOf_eq, ih (hok.2 _ (digit_lt g.mapSize_pos _ i)), content_node _ t]
      rfl

/-- **The tag of an index** is the tag of the map. -/
theorem Represents.tagGet_eq (h : Represents g r m)
    (hi : i < 2 ^ g.indexBits) (tag : Tag) : radixTreeTagGet g r i tag = m.tag tag i := by
  have hok := h.ok
  have he : (rootContent g r i).2 tag = m.tag tag i := congrArg (fun e : Entry α => e.2 tag) (h.entry i)
  rw [← he, radixTreeTagGet]
  by_cases hroot : rootTagGet r tag = true
  swap
  · -- an unset bit in the root: no index carries the tag
    rw [if_neg hroot, rootContent]
    by_cases hlt : i < g.mapSize ^ r.height
    · rw [if_pos hlt]
      by_contra hne
      exact hroot ((tag_iff_exists hok).mpr ⟨i, hlt, (Bool.eq_true_of_not_eq_false (Ne.symm hne))⟩)
    · rw [if_neg hlt]
      rfl
  rw [if_pos hroot]
  obtain ⟨H, mask, e⟩ := r
  cases e with
  | null =>
    have ht : rootTags _ = noTags := ok_null_iff.mp hok
    exact absurd ((congrFun ht tag).symm.trans hroot) Bool.false_ne_true
  | item a =>
    cases H with
    | succ H => exact hok.elim
    | zero =>
      show (i == 0) = (rootContent g _ i).2 tag
      by_cases hi0 : i = 0
      · subst hi0
        exact hroot.symm
      · rw [rootContent, if_neg (by show ¬ i < 1; omega), beq_false_of_ne hi0]
        rfl
  | node d slots =>
    cases H with
    | zero => exact hok.elim
    | succ H =>
      have hd : d.height = H + 1 := hok.1.1
      show (if radixTreeMaxindex g d.height < i then false else _) = (rootContent g _ i).2 tag
      rw [hd, rootContent]
      by_cases hmax : radixTreeMaxindex g (H + 1) < i
      · rw [if_pos hmax, if_neg (not_lt.mpr ((maxindex_lt_iff hi).mp hmax))]
        rfl
      · rw [if_neg hmax, if_pos (not_le.mp (mt (maxindex_lt_iff hi).mpr hmax))]
        exact tagGetLoop_eq hok

/-- **A tag in the root** is set iff some index that is present carries it. -/
theorem Represents.tagged_iff (h : Represents g r m) (tag : Tag) : radixTreeTagged r tag = true ↔
      ∃ i, i < 2 ^ g.indexBits ∧ m.item i ≠ none ∧ m.tag tag i = true := by
  rw [show radixTreeTagged r tag = rootTags r tag from rfl, tag_iff_exists h.ok]
  constructor
  · rintro ⟨i, hi, ht⟩
    rw [h.content_eq hi] at ht
    refine ⟨i, ?_, h.item_of_tag ht, ht⟩
    by_contra hb
    rw [h.bound i (by omega)] at ht
    exact Bool.false_ne_true ht
  · rintro ⟨i, _, _, ht⟩
    have hi : i < g.mapSize ^ r.height := by
      by_contra hb
      have := congrArg (fun e : Entry α => e.2 tag) (h.entry_eq_missing (not_lt.mp hb))
      exact Bool.false_ne_true (this.symm.trans ht)
    refine ⟨i, hi, ?_⟩
    rw [h.content_eq hi]
    exact ht

/-! ## Working at the end of a path -/

/-- A walk for index `i` stands at height `h` of a tree of height `H` with the tags `T`: `e` is in the
    slot at the end of `path`, and `t` is kept about it. -/
structure At (g : Geometry) (T : Tag → Bool) (H i h : Nat) (path : Path α) (e : Slot α)
    (t : Tag → Bool) : Prop where
  length_eq : h + path.length = H
  around : Around (shape g α) h (!e.isNull) t path T
  ok : Ok (shape g α) h t e
  covers : Covers g.mapSize h path i

variable {T T' t t' : Tag → Bool} {H i j h : Nat} {path path' : Path α} {e e' : Slot α}

/-- The start of a walk. -/
theorem at_root (i : Nat) (hok : Ok (shape g α) H T e) : At g T H i H [] e T := ⟨rfl, rfl, hok, trivial⟩

theorem At.ok_plug (hat : At g T H i h path e t) : Ok (shape g α) H T (plug path e) := by
  rw [← hat.length_eq]
  exact Trie.ok_plug hat.around hat.ok

/-- What the whole tree says about the index is what the slot says. -/
theorem At.content_eq (hat : At g T H i h path e t) (hc : Covers g.mapSize h path j) :
    content g H T (plug path e) j = content g h t e j := by
  obtain ⟨hlen, hp, -, -⟩ := hat
  subst hlen
  cases path with
  | nil =>
    obtain rfl : t = T := hp
    rfl
  | cons f path =>
    obtain ⟨-, ht, -⟩ := hp
    rw [content, read_plug_covers cell missing _ (f :: path) h e hc, ← ht]
    rfl

/-- What the tree says about an index that goes another way does not depend on the work. -/
theorem At.content_other (hat : At g T H i h path e t) (hs : SameAround cell path path')
    (hc : ¬ Covers g.mapSize h path j) :
    content g H T' (plug path' e') j = content g H T (plug path e) j := by
  obtain ⟨hlen, -, -, -⟩ := hat
  subst hlen
  cases path with
  | nil => exact absurd trivial hc
  | cons f path =>
    rw [length_cons, ← Nat.add_assoc, ← read_eq_content _ (itemOf (plug (f :: path) e), T) T', content]
    exact (read_plug_other cell missing _ e e' hs hc).symm

theorem At.covers_iff (hat : At g T H i h path e t) (hi : i < g.mapSize ^ H) (hj : j < g.mapSize ^ H) :
    Covers g.mapSize h path j ↔ j / g.mapSize ^ h = i / g.mapSize ^ h := by
  obtain ⟨hlen, -, -, hc⟩ := hat
  subst hlen
  exact covers_iff_div hc hi hj

theorem At.down {m : NodeData} {slots : Nat → Slot α} (hat : At g T H i (h + 1) path (.node m slots) t) :
    At g T H i h (⟨m, slots, digit g.mapSize h i⟩ :: path) (slots (digit g.mapSize h i))
      (fun tag => m.tags tag (digit g.mapSize h i)) := by
  obtain ⟨hlen, hp, hok, hc⟩ := hat
  obtain ⟨hp', hok'⟩ := hp.push hok (digit_lt g.mapSize_pos h i)
  exact ⟨by rw [length_cons]; omega, hp', hok', rfl, hc⟩

theorem At.up {f : Frame NodeData α} (hat : At g T H i h (f :: path) e t) :
    ∃ t', At g T H i (h + 1) path (f.fill e) t' := by
  obtain ⟨hlen, hp, hok, hc⟩ := hat
  obtain ⟨t', hok', hp'⟩ := hp.pop hok
  exact ⟨t', by rw [← hlen, length_cons]; omega, hp', hok', hc.2⟩

/-- Work on the way of index `i` leaves the other entries as they are. -/
theorem Represents.entry_other (hr : Represents g r m) (hi : i < g.mapSize ^ r.height)
    (hat : At g (rootTags r) r.height i 0 path e t) (hplug : plug path e = r.rnode)
    (hs : SameAround cell path path')
    (p : Entry α) {T' : Tag → Bool} {j : Nat} (hji : j ≠ i) : (m.set i p).entry j =
      if j < g.mapSize ^ r.height then content g r.height T' (plug path' e') j else missing := by
  rw [TaggedMap.entry_set_of_ne m hji, ← hr.entry j, rootContent]
  split_ifs with hj
  · have hc : ¬ Covers g.mapSize 0 path j := fun hc => hji (by simpa using (hat.covers_iff hi hj).mp hc)
    rw [hat.content_other hs hc, hplug]
  · rfl

/-- **The step lemma of all writers**: work at the bottom of the tree, on the way of index `i`, changes
    the map there and nowhere else. -/
theorem Represents.modify {r' : Root α} (hr : Represents g r m)
    (hib : i < 2 ^ g.indexBits) (hi : i < g.mapSize ^ r.height)
    (hat : At g (rootTags r) r.height i 0 path e t) (hplug : plug path e = r.rnode)
    (hs : SameAround cell path path') (hat' : At g (rootTags r') r.height i 0 path' e' t')
    (hheight : r'.height = r.height) (hplug' : r'.rnode = plug path' e') :
    Represents g r' (m.set i (itemOf e', t')) := by
  refine ⟨by rw [hheight]; exact hr.height_le, ?_, fun j => ?_, fun j hj => ?_⟩
  · rw [hheight, hplug']
    exact hat'.ok_plug
  · rw [rootContent, hheight, hplug']
    by_cases hji : j = i
    · subst hji
      rw [if_pos hi, hat'.content_eq hat'.covers, TaggedMap.entry_set_self]
      rfl
    · exact (hr.entry_other hi hat hplug hs _ hji).symm
  · rw [TaggedMap.entry_set_of_ne m (by omega : j ≠ i)]
    exact hr.bound j hj

end LinuxKernel.RadixTree
