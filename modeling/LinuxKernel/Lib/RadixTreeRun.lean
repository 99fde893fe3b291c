/-
  Whole runs of the radix tree against a tagged map.

  `Sys` is a tree, the map it is to stand for, and what may be in the nodes that the slab hands out again.
  An operation of the source changes the tree; the map changes by the operation's MEANING: an insertion
  that returns an error means nothing, a deletion takes the item and its tags.

  **Main result** (`radixTree_refines`) — in every state that a run from an empty root reaches, the tree
  and the map agree in all that can be asked, no allowed operation meets a `BUG_ON`, and every one of
  them returns.
-/
import LinuxKernel.Base.Run
import LinuxKernel.Lib.RadixTreeRange

namespace LinuxKernel.RadixTree

open Function LinuxKernel.Run
variable {α : Type} {g : Geometry}

/-! ## What the operations mean -/

namespace TaggedMap

def insert (m : TaggedMap α) (i : Nat) (a : α) : TaggedMap α :=
  { m with item := update m.item i (some a) }

def delete (m : TaggedMap α) (i : Nat) : TaggedMap α where
  item := update m.item i none
  tag := fun tag => update (m.tag tag) i false

def setTag (m : TaggedMap α) (i : Nat) (tag : Tag) (b : Bool) : TaggedMap α :=
  { m with tag := update m.tag tag (update (m.tag tag) i b) }

/-- Setting one tag is setting one entry. -/
theorem setTag_eq_set (m : TaggedMap α) (i : Nat) (tag : Tag) (b : Bool) :
    m.setTag i tag b = m.set i (m.item i, update (m.entry i).2 tag b) := by
  obtain ⟨item, f⟩ := m
  simp only [setTag, set, entry, update_eq_self, TaggedMap.mk.injEq, true_and]
  funext tag' j
  by_cases hj : j = i
  · subst hj
    rw [update_self]
    exact congrFun (bits_self f tag j b) tag'
  · rw [update_of_ne hj]
    exact bits_of_ne f tag tag' hj b

/-- An insertion at an index without tags. -/
theorem insert_eq_set {m : TaggedMap α} {i : Nat} (h : ∀ tag, m.tag tag i = false) (a : α) :
    m.insert i a = m.set i (some a, noTags) := by
  simp only [insert, set, TaggedMap.mk.injEq, true_and]
  funext tag
  exact (update_eq_self_iff.mpr (h tag).symm).symm

end TaggedMap

/-! ## Runs -/

/-- The tree, the map it is to stand for, and the nodes that were freed, as they went back. -/
structure Sys (α : Type) where
  root : Root α
  map : TaggedMap α
  pool : List (RawNode α)

inductive Op (α : Type) where
  | insert (index : Nat) (item : α) (nodes : List (RawNode α))
  | delete (index : Nat)
  | tagSet (index : Nat) (tag : Tag)
  | tagClear (index : Nat) (tag : Tag)
  | rangeTagIfTagged (first last nr : Nat) (iftag settag : Tag)

/-- What a caller has to keep to.  A node that is allocated is fresh from the constructor, or one that
    was freed before; tagging an index that is absent is a bug of the caller. -/
def Allowed (g : Geometry) (s : Sys α) : Op α → Prop
  | .insert index _ nodes => index < 2 ^ g.indexBits ∧ ∀ n ∈ nodes, Zeroed g n ∨ n ∈ s.pool
  | .delete index => index < 2 ^ g.indexBits
  | .tagSet index _ => index < 2 ^ g.indexBits ∧ s.map.item index ≠ none
  | .tagClear index _ => index < 2 ^ g.indexBits
  | .rangeTagIfTagged first last _ _ _ => first < 2 ^ g.indexBits ∧ last < 2 ^ g.indexBits

/-- One operation, with a bound on the turns of the scan. -/
def Op.run (g : Geometry) (fuel : Nat) (s : Sys α) : Op α → Option (Sys α)
  | .insert index item nodes =>
      (radixTreeInsert g s.root index item nodes).map fun (r : Int × Root α) =>
        { s with root := r.2, map := if r.1 = 0 then s.map.insert index item else s.map }
  | .delete index =>
      (radixTreeDelete g s.root index).map fun d =>
        { root := d.root, map := s.map.delete index, pool := d.freed ++ s.pool }
  | .tagSet index tag =>
      (radixTreeTagSet g s.root index tag).map fun r =>
        { s with root := r, map := s.map.setTag index tag true }
  | .tagClear index tag =>
      some { s with
        root := (radixTreeTagClear g s.root index tag).2
        map := s.map.setTag index tag false }
  | .rangeTagIfTagged first last nr iftag settag =>
      (radixTreeRangeTagIfTagged g fuel s.root first last nr iftag settag).map fun r =>
        { s with root := r.root, map := s.map.rangeTag first last nr iftag settag }

/-- The operation returns, and leaves `s'`. -/
def Next (g : Geometry) (s : Sys α) (op : Op α) (s' : Sys α) : Prop :=
  Fuel.Returns (fun fuel => op.run g fuel s) s'

def Step (g : Geometry) (s s' : Sys α) : Prop := ∃ op, Allowed g s op ∧ Next g s op s'

/-- `INIT_RADIX_TREE(root, mask)`: no tags, nothing freed yet. -/
def Start (s : Sys α) : Prop :=
  ∃ mask, mask &&& gfpBitsMask = mask ∧ s = ⟨⟨0, mask, .null⟩, .empty, []⟩

/-- **The invariant**: the tree stands for the map, and what was freed is zero. -/
structure Sound (g : Geometry) (s : Sys α) : Prop where
  represents : Represents g s.root s.map
  zeroed : ∀ n ∈ s.pool, Zeroed g n

theorem sound_of_start {s : Sys α} (h : Start s) : Sound g s := by
  obtain ⟨mask, hmask, rfl⟩ := h
  refine ⟨represents_empty ?_ rfl (Nat.zero_le _) fun j => rfl, nofun⟩
  have := rootTags_clearAll (⟨0, mask, .null⟩ : Root α)
  rw [rootTagClearAll, hmask] at this
  exact this

theorem Sound.untagged {s : Sys α} (hs : Sound g s) {i : Nat} (hi : s.map.item i = none) (tag : Tag) :
    s.map.tag tag i = false :=
  Bool.eq_false_iff.mpr fun ht => hs.represents.item_of_tag ht hi

/-- Insertion in a sound state: it returns, and says whether the index was present. -/
theorem Sound.insert {s : Sys α} (hs : Sound g s) {i : Nat} (hi : i < 2 ^ g.indexBits) (a : α)
    {nodes : List (RawNode α)} (hnodes : ∀ n ∈ nodes, Zeroed g n ∨ n ∈ s.pool) :
    ∃ error r, radixTreeInsert g s.root i a nodes = some (error, r) ∧
      (error = EEXIST ↔ s.map.item i ≠ none) ∧ (error = 0 ∨ error = EEXIST ∨ error = ENOMEM) ∧
      Represents g r (if error = 0 then s.map.insert i a else s.map) := by
  have hz : ∀ n ∈ nodes, Zeroed g n := fun n hn => (hnodes n hn).elim id (hs.zeroed n)
  obtain ⟨error, r, hrun, hres⟩ := hs.represents.insert hi a hz
  refine ⟨error, r, hrun, ?_⟩
  rcases hres with ⟨rfl, hpres, hrep⟩ | ⟨rfl, habs, hrep⟩ | ⟨rfl, habs, hrep⟩
  · exact ⟨⟨fun _ => hpres, fun _ => rfl⟩, .inr (.inl rfl), by rw [if_neg (by decide)]; exact hrep⟩
  · exact ⟨⟨fun h => absurd h (by decide), fun h => absurd habs h⟩, .inr (.inr rfl),
      by rw [if_neg (by decide)]; exact hrep⟩
  · refine ⟨⟨fun h => absurd h (by decide), fun h => absurd habs h⟩, .inl rfl, ?_⟩
    rw [if_pos rfl, TaggedMap.insert_eq_set (hs.untagged habs)]
    exact hrep

/-- **One operation** returns and keeps the invariant. -/
theorem Sound.run {s : Sys α} (hs : Sound g s) {op : Op α} (hop : Allowed g s op) :
    ∃ s', Next g s op s' ∧ Sound g s' := by
  cases op with
  | insert index item nodes =>
    obtain ⟨error, r, hrun, -, -, hrep⟩ := hs.insert hop.1 item hop.2
    exact ⟨⟨r, if error = 0 then s.map.insert index item else s.map, s.pool⟩,
      Fuel.returns_const fun fuel => by rw [Op.run, hrun]; rfl, hrep, hs.zeroed⟩
  | delete index =>
    obtain ⟨d, hrun, -, hrep, hz⟩ := hs.represents.delete hop
    refine ⟨_, Fuel.returns_const fun fuel => by rw [Op.run, hrun]; rfl, hrep, fun n hn => ?_⟩
    rcases List.mem_append.mp hn with hn | hn
    · exact hz n hn
    · exact hs.zeroed n hn
  | tagSet index tag =>
    obtain ⟨a, ha⟩ := Option.ne_none_iff_exists'.mp hop.2
    obtain ⟨r, hrun, hrep⟩ := hs.represents.tagSet hop.1 ha tag
    refine ⟨⟨r, s.map.setTag index tag true, s.pool⟩,
      Fuel.returns_const fun fuel => by rw [Op.run, hrun]; rfl, ?_, hs.zeroed⟩
    show Represents g r (s.map.setTag index tag true)
    rw [TaggedMap.setTag_eq_set, ha]
    exact hrep
  | tagClear index tag =>
    refine ⟨⟨(radixTreeTagClear g s.root index tag).2, s.map.setTag index tag false, s.pool⟩,
      Fuel.returns_const fun fuel => rfl, ?_, hs.zeroed⟩
    show Represents g _ (s.map.setTag index tag false)
    rw [TaggedMap.setTag_eq_set]
    exact (hs.represents.tagClear hop tag).2.2
  | rangeTagIfTagged first last nr iftag settag =>
    obtain ⟨res, hret, hrep, -⟩ := hs.represents.rangeTag hop.2 iftag settag
    refine ⟨⟨res.root, s.map.rangeTag first last nr iftag settag, s.pool⟩,
      hret.before (Fuel.returns_const fun _ => rfl) fun fuel hfuel => ?_, hrep, hs.zeroed⟩
    rw [Op.run, hfuel]
    rfl

theorem sound_of_step (s s' : Sys α) (hs : Sound g s) (hstep : Step g s s') : Sound g s' := by
  obtain ⟨op, hop, hnext⟩ := hstep
  obtain ⟨s'', hnext', hs''⟩ := hs.run hop
  exact hnext.unique hnext' ▸ hs''

/-- **The radix tree refines a tagged map.** -/
theorem radixTree_refines {s : Sys α} (h : Reachable Start (Step g) s) :
    (∀ i, i < 2 ^ g.indexBits → radixTreeLookup g s.root i = s.map.item i) ∧
    (∀ i, i < 2 ^ g.indexBits → ∀ tag, radixTreeTagGet g s.root i tag = s.map.tag tag i) ∧
    (∀ tag i, s.map.tag tag i = true → s.map.item i ≠ none) ∧
    (∀ tag, radixTreeTagged s.root tag = true ↔
      ∃ i, i < 2 ^ g.indexBits ∧ s.map.item i ≠ none ∧ s.map.tag tag i = true) ∧
    (∀ i a nodes, Allowed g s (.insert i a nodes) →
      ∃ error r, radixTreeInsert g s.root i a nodes = some (error, r) ∧
        (error = EEXIST ↔ s.map.item i ≠ none) ∧
        (error = 0 ∨ error = EEXIST ∨ error = ENOMEM) ∧
        (error ≠ 0 → ∀ j, j < 2 ^ g.indexBits → radixTreeLookup g r j = s.map.item j ∧
          ∀ tag, radixTreeTagGet g r j tag = s.map.tag tag j)) ∧
    (∀ op, Allowed g s op → ∃ s', Next g s op s') := by
  have hs : Sound g s := invariant_of_step (fun _ hs => sound_of_start hs) sound_of_step h
  refine ⟨fun i hi => hs.represents.lookup_eq hi, fun i hi tag => hs.represents.tagGet_eq hi tag,
    fun tag i ht => hs.represents.item_of_tag ht, hs.represents.tagged_iff, fun i a nodes hop => ?_,
      fun op hop => ?_⟩
  · obtain ⟨error, r, hrun, hexist, herr, hrep⟩ := hs.insert hop.1 a hop.2
    refine ⟨error, r, hrun, hexist, herr, fun hne j hj => ?_⟩
    rw [if_neg hne] at hrep
    exact ⟨hrep.lookup_eq hj, fun tag => hrep.tagGet_eq hj tag⟩
  · obtain ⟨s', hnext, -⟩ := hs.run hop
    exact ⟨s', hnext⟩

/-- The usual build: 64 slots in a node, 64 bits in an index. -/
def geometry64 : Geometry := ⟨6, 64, by decide, by decide⟩

/-- A node as the slab constructor leaves it. -/
def freshNode (α : Type) : RawNode α := ⟨⟨0, 0, fun _ _ => false⟩, fun _ => .null⟩
theorem zeroed_freshNode (g : Geometry) : Zeroed g (freshNode α) := ⟨rfl, fun _ _ => ⟨rfl, fun _ => rfl⟩⟩

/-- An item at index 70 needs two nodes; there is one, so the first insertion fails and leaves an empty
    node behind.  The second one succeeds, and the item is tagged. -/
theorem radixTree_refines_sample :
    ∃ s : Sys Nat, Reachable Start (Step geometry64) s ∧ radixTreeLookup geometry64 s.root 70 = some 7 ∧
      radixTreeTagGet geometry64 s.root 70 1 = true := by
  have hfresh : ∀ n ∈ [freshNode Nat], Zeroed geometry64 n ∨ n ∈ ([] : List (RawNode Nat)) := by
    intro n hn
    rw [List.mem_singleton.mp hn]
    exact .inl (zeroed_freshNode geometry64)
  have h0 : Reachable Start (Step geometry64) (⟨⟨0, 0, .null⟩, .empty, []⟩ : Sys Nat) :=
    ⟨_, ⟨0, rfl, rfl⟩, .refl⟩
  have h1 := h0.tail ⟨.insert 70 7 [freshNode Nat], ⟨by decide, hfresh⟩, Fuel.returns_const fun _ => rfl⟩
  have h2 := h1.tail ⟨.insert 70 7 [freshNode Nat], ⟨by decide, hfresh⟩, Fuel.returns_const fun _ => rfl⟩
  have h3 := h2.tail ⟨.tagSet 70 1, ⟨by decide, by decide⟩, Fuel.returns_const fun _ => rfl⟩
  exact ⟨_, h3, (radixTree_refines h3).1 70 (by decide), (radixTree_refines h3).2.1 70 (by decide) 1⟩

end LinuxKernel.RadixTree
