/-
  What the writers of the radix tree do to the map.

  One lemma for each loop of the source, by induction on the height or on the path, and from them one
  lemma for each function: `Represents.insert`, `.tagSet`, `.tagClear`, `.delete`.

  1. **Insertion** may stop half way for lack of memory; the nodes it has added by then are EMPTY, and
     nothing that is read changes.

  2. **Deletion** gives nodes back.  The slab hands them out again as they are, so that they have to be
     zero (`Zeroed`): a stale tag in one would be the `BUG_ON` of a later insertion.
-/
import LinuxKernel.Lib.RadixTreeInv

namespace LinuxKernel.RadixTree

open Function LinuxKernel.Trie
open TaggedMap (entry_set_of_ne entry_set_self set_set)
variable {α : Type} {g : Geometry} {T T' t t' : Tag → Bool} {H i j h : Nat} {path path' : Path α}
  {e e' : Slot α} {r r' : Root α} {m : TaggedMap α}

/-! ## Insert -/

/-- What the slab keeps: everything but the height is zero. -/
def Zeroed (g : Geometry) (node : RawNode α) : Prop :=
  node.data.count = 0 ∧ ∀ o, o < g.mapSize → node.slots o = .null ∧ ∀ tag, node.data.tags tag o = false

theorem sameAround_countUp (path : Path α) : SameAround cell path (countUp path) := by
  cases path with
  | nil => exact trivial
  | cons f path => exact ⟨rfl, fun _ _ => rfl, fun _ _ _ => rfl, SameAround.refl cell path⟩

/-- A slot is filled, and the count of its node goes up. -/
theorem around_countUp (hp : Around (shape g α) h false t path T) :
    Around (shape g α) h true t (countUp path) T := by
  cases path with
  | nil => exact hp
  | cons f path =>
    obtain ⟨ho, ht, hrest, t', ⟨hh, hcount, htags⟩, hup⟩ := hp
    refine ⟨ho, ht, hrest, t', ⟨hh, ?_, htags⟩, hup⟩
    show f.data.count + 1 = count g.mapSize (update (occupied f.slots) f.offset true)
    rw [hcount]
    exact (count_update_true ho).symm

theorem length_countUp (path : Path α) : (countUp path).length = path.length := by
  cases path <;> rfl

variable {node : RawNode α}

/-- A zeroed node takes the place of NULL: nothing is read from it. -/
theorem At.newNode (hat : At g T H i (h + 1) path .null t) (hz : Zeroed g node) :
    At g T H i (h + 1) (countUp path) (.node { node.data with height := h + 1 } node.slots) t ∧
      ∀ j, content g H T (plug (countUp path)
        (.node { node.data with height := h + 1 } node.slots)) j = content g H T (plug path .null) j := by
  have ht : t = noTags := ok_null_iff.mp hat.ok
  subst ht
  have habout : ∀ o, o < g.mapSize → (fun tag => node.data.tags tag o) = noTags :=
    fun o ho => funext fun tag => (hz.2 o ho).2 tag
  have hnew : At g T H i (h + 1) (countUp path)
    (.node { node.data with height := h + 1 } node.slots) noTags := by
    refine ⟨by rw [length_countUp]; exact hat.length_eq, around_countUp hat.around,
      ⟨⟨rfl, ?_, fun tag => ?_⟩, fun o ho => ?_⟩, (sameAround_countUp path).covers_iff.mp hat.covers⟩
    · show node.data.count = _
      rw [hz.1, eq_comm, count_eq_zero_iff]
      intro o ho
      rw [occupied, (hz.2 o ho).1]
      rfl
    · refine ⟨fun hf => absurd hf Bool.false_ne_true, ?_⟩
      rintro ⟨o, ho, hb⟩
      cases (hz.2 o ho).2 tag ▸ hb
    · rw [(hz.2 o ho).1, ok_null_iff]
      exact habout o ho
  refine ⟨hnew, fun j => ?_⟩
  by_cases hc : Covers g.mapSize (h + 1) path j
  · have ho := digit_lt g.mapSize_pos h j
    rw [hat.content_eq hc, hnew.content_eq ((sameAround_countUp path).covers_iff.mp hc), content_node,
      (hz.2 _ ho).1, habout _ ho, content_null, content_null]
  · exact hat.content_other (sameAround_countUp path) hc

/-- **The loop of an insertion**: it arrives at the bottom, or at a NULL for which there is no node; what
    is read from the tree is as before. -/
theorem insertLoop_spec {h : Nat} : ∀ {nodes : List (RawNode α)} {path : Path α} {slot : Slot α}
    {t : Tag → Bool}, At g T H i h path slot t → (∀ n ∈ nodes, Zeroed g n) →
    ∃ error path' slot' h' t', insertLoop g i h nodes path slot = some (error, path', slot') ∧
      At g T H i h' path' slot' t' ∧
      (∀ j, content g H T (plug path' slot') j = content g H T (plug path slot) j) ∧
      ((error = 0 ∧ h' = 0) ∨ (error = ENOMEM ∧ slot' = .null)) := by
  induction h with
  | zero =>
    intro nodes path slot t hat hz
    exact ⟨0, path, slot, 0, t, rfl, hat, fun _ => rfl, .inl ⟨rfl, rfl⟩⟩
  | succ h ih =>
    intro nodes path slot t hat hz
    cases slot with
    | item a => exact hat.ok.elim
    | node d slots =>
      obtain ⟨error, path', slot', h', t', hrun, hat', hcont, hres⟩ := ih hat.down hz
      refine ⟨error, path', slot', h', t', ?_, hat', fun j => ?_, hres⟩
      · rw [← hrun, insertLoop, offsetOf_eq]
      · rw [hcont j, plug_push]
    | null =>
      cases nodes with
      | nil => exact ⟨ENOMEM, path, .null, h + 1, t, rfl, hat, fun _ => rfl, .inr ⟨rfl, rfl⟩⟩
      | cons node nodes =>
        obtain ⟨hnew, hsame⟩ := hat.newNode (hz node (List.mem_cons_self ..))
        obtain ⟨error, path', slot', h', t', hrun, hat', hcont, hres⟩ :=
          ih hnew.down fun n hn => hz n (List.mem_cons_of_mem _ hn)
        refine ⟨error, path', slot', h', t', ?_, hat', fun j => ?_, hres⟩
        · rw [← hrun, insertLoop, offsetOf_eq]
        · rw [hcont j, plug_push, hsame j]

/-- A tree with the same tags, height and content stands for the same map. -/
theorem Represents.congr (hr : Represents g r m) (htags : rootTags r' = rootTags r)
    (hheight : r'.height = r.height) (hok : Ok (shape g α) r.height (rootTags r) r'.rnode)
    (hcont : ∀ j, content g r.height (rootTags r) r'.rnode j =
      content g r.height (rootTags r) r.rnode j) : Represents g r' m := by
  refine ⟨by rw [hheight]; exact hr.height_le, by rw [hheight, htags]; exact hok, fun j => ?_, hr.bound⟩
  rw [← hr.entry j, rootContent, rootContent, hheight, htags, hcont j]

/-- At the bottom of a path, the tags that the `BUG_ON`s look at are those kept about the slot. -/
theorem staleTag_eq (hat : At g (rootTags r) H i 0 path e t) : staleTag r path = (t 0 || t 1) := by
  have hp := hat.around
  cases path with
  | nil =>
    obtain rfl : t = rootTags r := hp
    rfl
  | cons f path =>
    obtain ⟨-, rfl, -⟩ := hp
    rfl

variable {nodes : List (RawNode α)}

theorem Represents.insertItem (hr : Represents g r m) (hib : i < 2 ^ g.indexBits)
    (hi : i < g.mapSize ^ r.height) (a : α) (hz : ∀ n ∈ nodes, Zeroed g n) :
    ∃ error r', insertItem g r i a nodes = some (error, r') ∧
    (error = EEXIST ∧ m.item i ≠ none ∧ Represents g r' m ∨
        error = ENOMEM ∧ m.item i = none ∧ Represents g r' m ∨
        error = 0 ∧ m.item i = none ∧ Represents g r' (m.set i (some a, noTags))) := by
  obtain ⟨error, path, slot, h', t, hrun, hat, hcont, hres⟩ := insertLoop_spec (at_root i hr.ok) hz
  have hitem : m.item i = (content g h' t slot i).1 := by
    rw [← hat.content_eq hat.covers, hcont i, plug_nil, hr.content_eq hi]
    rfl
  have hsame : Represents g { r with rnode := plug path slot } m := hr.congr rfl rfl hat.ok_plug hcont
  rw [RadixTree.insertItem, hrun]
  rcases hres with ⟨rfl, rfl⟩ | ⟨rfl, rfl⟩
  swap
  · have ht : t = noTags := ok_null_iff.mp hat.ok
    refine ⟨ENOMEM, _, if_pos (by decide), .inr (.inl ⟨rfl, ?_, hsame⟩)⟩
    rw [hitem, ht, content_null]
    rfl
  cases slot with
  | node d slots => exact hat.ok.elim
  | item b =>
    refine ⟨EEXIST, _, rfl, .inl ⟨rfl, ?_, hsame⟩⟩
    rw [hitem]
    exact Option.some_ne_none b
  | null =>
    have ht : t = noTags := ok_null_iff.mp hat.ok
    subst ht
    have hstale : staleTag r path = false := staleTag_eq hat
    refine ⟨0, { r with rnode := plug (countUp path) (.item a) }, ?_, .inr (.inr ⟨rfl, hitem, ?_⟩)⟩
    · simp only [ne_eq, not_true_eq_false, if_false, DigitTree.isNull, if_true, hstale, Bool.false_eq_true]
    · have hnew : At g (rootTags { r with rnode := plug (countUp path) (.item a) }) r.height i 0
          (countUp path) (.item a) noTags :=
        ⟨by rw [length_countUp]; exact hat.length_eq, around_countUp hat.around, trivial,
          (sameAround_countUp path).covers_iff.mp hat.covers⟩
      exact hsame.modify hib hi hat rfl (sameAround_countUp path) hnew rfl rfl

/-! ### Making the tree higher -/

variable {o : Nat}

/-- The tags that the new top node keeps about its slots. -/
theorem extendNode_tags (r : Root α) (hz : Zeroed g node) (ho : o < g.mapSize) :
    (fun tag => (if rootTagGet r tag then update (node.data.tags tag) 0 true else node.data.tags tag) o) =
      if o = 0 then rootTags r else noTags := by
  funext tag
  have h0 := (hz.2 o ho).2 tag
  by_cases ho0 : o = 0
  · subst ho0
    rw [if_pos rfl, rootTags]
    cases rootTagGet r tag with
    | false => exact h0
    | true => rw [if_pos rfl, update_self]
  · rw [if_neg ho0]
    cases rootTagGet r tag with
    | false => exact h0
    | true => exact (update_of_ne ho0 ..).trans h0

variable {d : NodeData}

/-- A tree with a single child in slot 0 says what the child says. -/
theorem content_single {slots : Nat → Slot α} {j : Nat}
    (hzero : ∀ o, o < g.mapSize → o ≠ 0 → slots o = .null ∧ (fun tag => d.tags tag o) = noTags) :
    (if j < g.mapSize ^ (h + 1) then content g (h + 1) t (.node d slots) j else missing) =
      if j < g.mapSize ^ h then content g h (fun tag => d.tags tag 0) (slots 0) j else missing := by
  have hM := g.mapSize_pos
  by_cases hlow : j < g.mapSize ^ h
  · have hj : j < g.mapSize ^ (h + 1) := hlow.trans_le (Nat.pow_le_pow_right hM (Nat.le_succ h))
    rw [if_pos hj, if_pos hlow, content_node, digit_eq_div hj, Nat.div_eq_of_lt hlow]
  · rw [if_neg hlow]
    by_cases hj : j < g.mapSize ^ (h + 1)
    · have hd0 : digit g.mapSize h j ≠ 0 := by
        rw [digit_eq_div hj]
        exact Nat.ne_of_gt (Nat.div_pos (not_lt.mp hlow) (Nat.pow_pos hM))
      obtain ⟨hs, hb⟩ := hzero _ (digit_lt hM h j) hd0
      rw [if_pos hj, content_node, hs, hb, content_null]
    · rw [if_neg hj]

theorem Represents.extend (hr : Represents g r m) (hn : r.rnode ≠ .null)
    (hz : Zeroed g node) (hH : r.height < g.maxPath) :
    Represents g { r with height := r.height + 1, rnode := extendNode r node } m := by
  have hM := g.mapSize_pos
  have hnn : (!r.rnode.isNull) = true := by
    cases hr' : r.rnode.isNull with
    | false => rfl
    | true => exact absurd (isNull_iff.mp hr') hn
  -- slot 0 has the old tree with the root's tags, all the others are empty
  have hzero := (extendNode_tags r hz hM).trans (if_pos rfl)
  have hother := fun o (ho : o < g.mapSize) (ho0 : o ≠ 0) => (extendNode_tags r hz ho).trans (if_neg ho0)
  refine ⟨hH, ⟨⟨rfl, ?_, fun tag => ?_⟩, fun o ho => ?_⟩, fun j => ?_, hr.bound⟩
  · show 1 = count g.mapSize (occupied (update node.slots 0 r.rnode))
    rw [occupied_update, hnn, count_update_true hM, count_eq_zero_iff.mpr]
    intro o ho
    by_cases ho0 : o = 0
    · rw [ho0, update_self]
    · rw [update_of_ne ho0, occupied, (hz.2 o ho).1]
      rfl
  · show rootTags r tag = true ↔ _
    constructor
    · intro ht
      exact ⟨0, hM, (congrFun hzero tag).trans ht⟩
    · rintro ⟨o, ho, hb⟩
      by_cases ho0 : o = 0
      · subst ho0
        exact (congrFun hzero tag).symm.trans hb
      · cases (congrFun (hother o ho ho0) tag).symm.trans hb
  · show Ok (shape g α) r.height (fun tag => _) (update node.slots 0 r.rnode o)
    by_cases ho0 : o = 0
    · subst ho0
      exact hzero ▸ hr.ok
    · rw [update_of_ne ho0, (hz.2 o ho).1, ok_null_iff]
      exact hother o ho ho0
  · rw [← hr.entry j, rootContent, rootContent]
    refine (content_single fun o ho ho0 => ⟨?_, hother o ho ho0⟩).trans ?_
    · rw [update_of_ne ho0, (hz.2 o ho).1]
    · rw [update_self]
      exact congrArg (fun t => if j < g.mapSize ^ r.height then content g r.height t r.rnode j
        else missing) hzero

theorem extendNode_ne_null (r : Root α) (node : RawNode α) : extendNode r node ≠ .null := node_ne_null _ _

theorem extendLoop_spec (levels : Nat) : ∀ {nodes : List (RawNode α)} {r : Root α},
    Represents g r m → r.rnode ≠ .null → (∀ n ∈ nodes, Zeroed g n) → r.height + levels ≤ g.maxPath →
    ∃ error nodes' r', extendLoop levels nodes r = (error, nodes', r') ∧ Represents g r' m ∧
      (∀ n ∈ nodes', Zeroed g n) ∧
      (error = ENOMEM ∨ error = 0 ∧ r'.height = r.height + levels) := by
  induction levels with
  | zero =>
    intro nodes r hr hn hz _
    exact ⟨0, nodes, r, rfl, hr, hz, .inr ⟨rfl, rfl⟩⟩
  | succ levels ih =>
    intro nodes r hr hn hz hle
    cases nodes with
    | nil => exact ⟨ENOMEM, [], r, rfl, hr, hz, .inl rfl⟩
    | cons node nodes =>
      have hr' := hr.extend hn (hz node (List.mem_cons_self ..)) (by omega)
      obtain ⟨error, nodes', r', hrun, hrep, hz', hres⟩ := ih hr' (extendNode_ne_null r node)
        (fun n hn => hz n (List.mem_cons_of_mem _ hn)) (by show r.height + 1 + levels ≤ _; omega)
      refine ⟨error, nodes', r', hrun, hrep, hz', hres.imp_right ?_⟩
      rintro ⟨he, hh⟩
      refine ⟨he, hh.trans ?_⟩
      show r.height + 1 + levels = _
      omega

/-- The height that is figured out has room for the index. -/
theorem extendHeight_spec (hi : i < 2 ^ g.indexBits) (turns : Nat) : ∀ (height : Nat),
    height ≤ g.maxPath → g.maxPath ≤ height + turns →
    height ≤ extendHeight g i turns height ∧ extendHeight g i turns height ≤ g.maxPath ∧
      i < g.mapSize ^ extendHeight g i turns height := by
  induction turns with
  | zero =>
    intro height hle hge
    obtain rfl : height = g.maxPath := by omega
    exact ⟨le_rfl, le_rfl, lt_pow_maxPath hi⟩
  | succ turns ih =>
    intro height hle hge
    rw [extendHeight]
    by_cases hmax : radixTreeMaxindex g height < i
    · rw [if_pos hmax]
      have hne : height ≠ g.maxPath := by
        rintro rfl
        exact absurd (lt_pow_maxPath hi) (not_lt.mpr ((maxindex_lt_iff hi).mp hmax))
      obtain ⟨h₁, h₂, h₃⟩ := ih (height + 1) (by omega) (by omega)
      omega
    · rw [if_neg hmax]
      exact ⟨le_rfl, hle, not_le.mp (mt (maxindex_lt_iff hi).mpr hmax)⟩

/-- An empty tree may have any height. -/
theorem Represents.setHeight (hr : Represents g r m) (hn : r.rnode = .null) {height : Nat}
    (hle : height ≤ g.maxPath) : Represents g { r with height := height } m := by
  have hok := hr.ok
  rw [hn, ok_null_iff] at hok
  refine ⟨hle, ?_, fun j => ?_, hr.bound⟩
  · show Ok (shape g α) height (rootTags r) r.rnode
    rw [hn, ok_null_iff]
    exact hok
  · rw [← hr.entry j, rootContent, rootContent]
    show (if j < g.mapSize ^ height then content g height (rootTags r) r.rnode j else missing) = _
    rw [hn, hok, content_null, content_null, ite_self, ite_self]

theorem extend_spec (hr : Represents g r m) (hi : i < 2 ^ g.indexBits)
    (hmax : radixTreeMaxindex g r.height < i)
    (hz : ∀ n ∈ nodes, Zeroed g n) :
    ∃ error nodes' r', radixTreeExtend g nodes r i = (error, nodes', r') ∧ Represents g r' m ∧
      (∀ n ∈ nodes', Zeroed g n) ∧
      (error = ENOMEM ∨ error = 0 ∧ i < g.mapSize ^ r'.height) := by
  have hlt : r.height < g.maxPath := by
    by_contra hge
    have hle := hr.height_le
    have : r.height = g.maxPath := by omega
    rw [this] at hmax
    exact absurd (lt_pow_maxPath hi) (not_lt.mpr ((maxindex_lt_iff hi).mp hmax))
  obtain ⟨hge, hle, hroom⟩ := extendHeight_spec hi g.maxPath (r.height + 1) hlt (by omega)
  by_cases hn : r.rnode = .null
  · exact ⟨0, nodes, _, if_pos (isNull_iff.mpr hn), hr.setHeight hn hle, hz, .inr ⟨rfl, hroom⟩⟩
  · obtain ⟨error, nodes', r', hrun, hrep, hz', hres⟩ := extendLoop_spec
      (extendHeight g i g.maxPath (r.height + 1) - r.height) hr hn hz (by omega)
    refine ⟨error, nodes', r', (if_neg (mt isNull_iff.mp hn)).trans hrun, hrep, hz', hres.imp_right ?_⟩
    rintro ⟨he, hh⟩
    refine ⟨he, ?_⟩
    rw [hh, show r.height + (extendHeight g i g.maxPath (r.height + 1) - r.height) =
      extendHeight g i g.maxPath (r.height + 1) by omega]
    exact hroom

/-- **Insertion**: `-EEXIST` iff the index is present; the map changes only when it returns 0. -/
theorem Represents.insert (hr : Represents g r m) (hi : i < 2 ^ g.indexBits) (a : α)
    (hz : ∀ n ∈ nodes, Zeroed g n) :
    ∃ error r', radixTreeInsert g r i a nodes = some (error, r') ∧
      (error = EEXIST ∧ m.item i ≠ none ∧ Represents g r' m ∨ error = ENOMEM ∧ m.item i = none ∧
        Represents g r' m ∨
        error = 0 ∧ m.item i = none ∧ Represents g r' (m.set i (some a, noTags))) := by
  rw [radixTreeInsert]
  by_cases hmax : radixTreeMaxindex g r.height < i
  · rw [if_pos hmax]
    obtain ⟨error, nodes', r', hrun, hrep, hz', hres⟩ := extend_spec hr hi hmax hz
    rw [hrun]
    rcases hres with rfl | ⟨rfl, hroom⟩
    · refine ⟨ENOMEM, r', if_pos (by decide), .inr (.inl ⟨rfl, ?_, hrep⟩)⟩
      exact congrArg Prod.fst (hr.entry_eq_missing ((maxindex_lt_iff hi).mp hmax))
    · exact hrep.insertItem hi hroom a hz'
  · rw [if_neg hmax]
    exact hr.insertItem hi (not_le.mp (mt (maxindex_lt_iff hi).mpr hmax)) a hz

/-! ## Tags -/

/-- One bit of the bitmaps is written: what is known of its slot changes in that tag. -/
theorem bits_self (f : Tag → Nat → Bool) (tag : Tag) (o : Nat) (b : Bool) :
    (fun tag' => update f tag (update (f tag) o b) tag' o) = update (fun tag' => f tag' o) tag b := by
  funext tag'
  by_cases ht : tag' = tag
  · subst ht; simp only [update_self]
  · simp only [update_of_ne ht]

/-- What is known of the other slots stays. -/
theorem bits_of_ne (f : Tag → Nat → Bool) (tag tag' : Tag) {o' : Nat} (h : o' ≠ o) (b : Bool) :
    update f tag (update (f tag) o b) tag' o' = f tag' o' := by
  by_cases ht : tag' = tag
  · subst ht; rw [update_self, update_of_ne h]
  · rw [update_of_ne ht]

/-- `t` summarises the bits of a node. -/
def Summary (g : Geometry) (t : Tag → Bool) (f : Tag → Nat → Bool) : Prop :=
  ∀ tag, t tag = true ↔ ∃ o, o < g.mapSize ∧ f tag o = true

variable {f : Tag → Nat → Bool}

theorem Summary.set (hs : Summary g t f) (tag : Tag) (ho : o < g.mapSize) : Summary g (update t tag true)
      (update f tag (update (f tag) o true)) := by
  intro tag'
  by_cases ht : tag' = tag
  · subst ht
    rw [update_self, update_self]
    exact ⟨fun _ => ⟨o, ho, update_self ..⟩, fun _ => rfl⟩
  · rw [update_of_ne ht, update_of_ne ht]
    exact hs tag'

variable {tag : Tag}

/-- Clearing a bit when another of its tag is set. -/
theorem Summary.clear_of_any (hs : Summary g t f) (ho : o < g.mapSize) (hb : f tag o = true)
    (hany : ∃ o', o' < g.mapSize ∧ update (f tag) o false o' = true) :
    Summary g t (update f tag (update (f tag) o false)) := by
  intro tag'
  by_cases ht : tag' = tag
  · subst ht
    rw [update_self]
    exact ⟨fun _ => hany, fun _ => (hs tag').mpr ⟨o, ho, hb⟩⟩
  · rw [update_of_ne ht]
    exact hs tag'

/-- Clearing the last bit of its tag. -/
theorem Summary.clear_last (hs : Summary g t f)
    (hnone : ¬ ∃ o', o' < g.mapSize ∧ update (f tag) o false o' = true) :
    Summary g (update t tag false) (update f tag (update (f tag) o false)) := by
  intro tag'
  by_cases ht : tag' = tag
  · subst ht
    rw [update_self, update_self]
    exact ⟨fun h => absurd h Bool.false_ne_true, fun h => absurd h hnone⟩
  · rw [update_of_ne ht, update_of_ne ht]
    exact hs tag'

/-- A frame whose node gets another bit for the hole. -/
theorem around_setBit {f : Frame NodeData α} {b v : Bool} {t'' : Tag → Bool}
    (hp : Around (shape g α) h b t (f :: path) T)
    (hheight : d.height = f.data.height) (hcount : d.count = f.data.count)
    (hd : d.tags = update f.data.tags tag (update (f.data.tags tag) f.offset v))
    (hs : Summary g t'' d.tags) (hup : Around (shape g α) (h + 1) true t'' path' T') :
    Around (shape g α) h b (update t tag v) ({ f with data := d } :: path') T' := by
  obtain ⟨ho, rfl, hrest, -, ⟨hh, hc, -⟩, -⟩ := hp
  refine ⟨ho, ?_, fun o hos hne => ?_, t'', ⟨hheight.trans hh, hcount.trans hc, hs⟩, hup⟩
  · show (fun tag' => d.tags tag' f.offset) = _
    rw [hd]
    exact bits_self f.data.tags tag f.offset v
  · have : (fun tag' => d.tags tag' o) = fun tag' => f.data.tags tag' o := by
      funext tag'
      rw [hd]
      exact bits_of_ne f.data.tags tag tag' hne v
    show Ok (shape g α) h (fun tag' => d.tags tag' o) (f.slots o)
    rw [this]
    exact hrest o hos hne

theorem sameAround_setBit {f : Frame NodeData α} {v : Bool}
    (hd : d.tags = update f.data.tags tag (update (f.data.tags tag) f.offset v))
    (hs : SameAround cell path path') :
    SameAround cell (f :: path) ({ f with data := d } :: path') := by
  refine ⟨rfl, fun _ _ => rfl, fun o e hne => ?_, hs⟩
  refine Prod.ext rfl (funext fun tag' => ?_)
  show f.data.tags tag' o = d.tags tag' o
  rw [hd, bits_of_ne f.data.tags tag tag' hne v]

/-! ### Setting -/

theorem tagSetLoop_spec {h : Nat} : ∀ {path path' : Path α} {slot : Slot α}
    {t : Tag → Bool}, At g T H i h path slot t → SameAround cell path path' →
    Around (shape g α) h true (update t tag true) path' T' →
    (content g h t slot i).1 ≠ none →
    ∃ q q' a t', tagSetLoop g i tag h path' slot = some (q', .item a) ∧
      plug q (.item a) = plug path slot ∧ At g T H i 0 q (.item a) t' ∧ SameAround cell q q' ∧
      Around (shape g α) 0 true (update t' tag true) q' T' := by
  induction h with
  | zero =>
    intro path path' slot t hat hs hp' hitem
    cases slot with
    | null => exact absurd rfl hitem
    | node d slots => exact hat.ok.elim
    | item a => exact ⟨path, path', a, t, rfl, rfl, hat, hs, hp'⟩
  | succ h ih =>
    intro path path' slot t hat hs hp' hitem
    cases slot with
    | null => exact absurd (by rw [ok_null_iff.mp hat.ok, content_null]; rfl) hitem
    | item a => exact hat.ok.elim
    | node d slots =>
      have ho := digit_lt g.mapSize_pos h i
      have hdown := hat.down
      have hne : (slots (digit g.mapSize h i)).isNull = false := by
        rw [Bool.eq_false_iff]
        intro hn
        rw [isNull_iff] at hn
        rw [content_node, hn] at hitem
        have := hdown.ok
        rw [hn, ok_null_iff] at this
        rw [this, content_null] at hitem
        exact hitem rfl
      have haround := hdown.around
      rw [hne] at haround
      have hsum : Summary g (update t tag true) (tagSet d tag (digit g.mapSize h i)).tags :=
        Summary.set hat.ok.1.2.2 tag ho
      obtain ⟨q, q', a, t', hrun, hplug, hrest⟩ := ih hdown (sameAround_setBit rfl hs)
        (around_setBit (d := RadixTree.tagSet d tag _) haround rfl rfl rfl hsum hp') hitem
      refine ⟨q, q', a, t', ?_, by rw [hplug, plug_push], hrest⟩
      rw [← hrun, tagSetLoop, offsetOf_eq]
      exact if_neg (by rw [hne]; exact Bool.false_ne_true)

variable {a : α}

/-- **Setting a tag** of an index that is present. -/
theorem Represents.tagSet (hr : Represents g r m) (hi : i < 2 ^ g.indexBits) (ha : m.item i = some a)
    (tag : Tag) :
    ∃ r', radixTreeTagSet g r i tag = some r' ∧
    Represents g r' (m.set i (some a, update (m.entry i).2 tag true)) := by
  have hlt : i < g.mapSize ^ r.height := by
    by_contra hge
    have := congrArg Prod.fst (hr.entry_eq_missing (not_lt.mp hge))
    exact Option.some_ne_none a (ha.symm.trans this)
  have hmax : ¬ radixTreeMaxindex g r.height < i := fun hm =>
    absurd hlt (not_lt.mpr ((maxindex_lt_iff hi).mp hm))
  have hroot := at_root i hr.ok
  have hent : content g r.height (rootTags r) r.rnode i = m.entry i := hr.content_eq hlt
  have hitem : (content g r.height (rootTags r) r.rnode i).1 ≠ none := by
    rw [hent]
    exact fun h => Option.some_ne_none a (ha.symm.trans h)
  obtain ⟨q, q', b, t', hrun, hplug, hat, hs, hp'⟩ := tagSetLoop_spec hroot
    (SameAround.refl cell [])
      (show Around (shape g α) r.height true _ [] (update (rootTags r) tag true) from rfl) hitem
  have hq : m.entry i = (some b, t') := by
    rw [← hent, ← plug_nil r.rnode, ← hplug]
    exact hat.content_eq hat.covers
  obtain rfl : b = a := Option.some.inj ((congrArg Prod.fst hq).symm.trans ha)
  refine ⟨rootTagSet { r with rnode := plug q' (.item b) } tag, ?_, ?_⟩
  · rw [radixTreeTagSet, if_neg hmax, hrun]
    rfl
  · rw [hq]
    have hnew : At g (rootTags (rootTagSet { r with rnode := plug q' (.item b) } tag)) r.height i 0 q'
        (.item b) (update t' tag true) := by
      refine ⟨by rw [← hs.length_eq]; exact hat.length_eq, ?_, trivial, hs.covers_iff.mp hat.covers⟩
      rw [rootTags_set]
      exact hp'
    exact hr.modify hi hlt hat hplug hs hnew rfl rfl

/-! ### Clearing -/

theorem anyTagSet_iff : anyTagSet g d tag = true ↔ ∃ o, o < g.mapSize ∧ d.tags tag o = true := by
  simp only [anyTagSet, List.any_eq_true, List.mem_range]

/-- The walk down finds the item, with the path to it, or the index is absent. -/
theorem descend_spec {h : Nat} :
    ∀ {path : Path α} {slot : Slot α} {t : Tag → Bool}, At g T H i h path slot t →
    (descend g i h path slot = none ∧ (content g h t slot i).1 = none) ∨
      ∃ q a t', descend g i h path slot = some (q, a) ∧ plug q (.item a) = plug path slot ∧
        At g T H i 0 q (.item a) t' := by
  induction h with
  | zero =>
    intro path slot t hat
    cases slot with
    | null => exact .inl ⟨rfl, rfl⟩
    | node d slots => exact hat.ok.elim
    | item a => exact .inr ⟨path, a, t, rfl, rfl, hat⟩
  | succ h ih =>
    intro path slot t hat
    cases slot with
    | null => exact .inl ⟨rfl, rfl⟩
    | item a => exact hat.ok.elim
    | node d slots =>
      rw [descend, offsetOf_eq]
      rcases ih hat.down with ⟨hnone, hc⟩ | ⟨q, a, t', hsome, hplug, hat'⟩
      · exact .inl ⟨hnone, hc⟩
      · exact .inr ⟨q, a, t', hsome, by rw [hplug, plug_push], hat'⟩

/-- The walk down the whole tree. -/
theorem Represents.descend (hr : Represents g r m) (hi : i < g.mapSize ^ r.height) :
    (descend g i r.height [] r.rnode = none ∧ m.item i = none) ∨
      ∃ q a t', descend g i r.height [] r.rnode = some (q, a) ∧ plug q (.item a) = r.rnode ∧
        At g (rootTags r) r.height i 0 q (.item a) t' ∧ m.entry i = (some a, t') := by
  have hent := hr.content_eq hi
  refine (descend_spec (at_root i hr.ok)).imp (fun ⟨hd, hnone⟩ => ⟨hd,
    (congrArg Prod.fst hent).symm.trans hnone⟩) ?_
  rintro ⟨q, a, t', hd, hplug, hat⟩
  refine ⟨q, a, t', hd, hplug, hat, ?_⟩
  rw [← hent, ← plug_nil r.rnode, ← hplug]
  exact hat.content_eq hat.covers

/-- **Clearing a bit, from the bottom up**: the summaries above are cleared as far as they have to be. -/
theorem clearUp_spec (tag : Tag) {b : Bool} : ∀ {path : Path α} {h : Nat} {t : Tag → Bool},
    Around (shape g α) h b t path T →
    SameAround cell path (clearUp g tag path).1 ∧ Around (shape g α) h b (update t tag false)
    (clearUp g tag path).1
        (if (clearUp g tag path).2 then update T tag false else T) := by
  intro path
  induction path generalizing b with
  | nil =>
    intro h t hp
    obtain rfl : t = T := hp
    exact ⟨trivial, rfl⟩
  | cons f path ih =>
    intro h t hp
    obtain ⟨ho, ht, -, t'', ⟨-, -, hsum⟩, hup⟩ := id hp
    cases hbit : tagGet f.data tag f.offset with
    | false =>
      have hrun : clearUp g tag (f :: path) = (f :: path, false) := by
        rw [clearUp, hbit]; rfl
      have hsame : update t tag false = t := by
        rw [← ht]
        exact update_eq_self_iff.mpr hbit.symm
      rw [hrun, hsame]
      exact ⟨SameAround.refl cell _, hp⟩
    | true =>
      cases hany : anyTagSet g (tagClear f.data tag f.offset) tag with
      | true =>
        have hrun : clearUp g tag (f :: path) = ({ f with data := tagClear f.data tag f.offset } :: path,
          false) := by
          rw [clearUp, hbit]; simp only [if_true, hany]
        rw [hrun]
        have hex := anyTagSet_iff.mp hany
        simp only [tagClear, update_self] at hex
        exact ⟨sameAround_setBit rfl (SameAround.refl cell path),
          around_setBit hp rfl rfl rfl (Summary.clear_of_any hsum ho hbit hex) hup⟩
      | false =>
        have hrun : clearUp g tag (f :: path) =
            ({ f with data := tagClear f.data tag f.offset } :: (clearUp g tag path).1,
              (clearUp g tag path).2) := by
          rw [clearUp, hbit]
          simp only [if_true, hany, Bool.false_eq_true, if_false]
        rw [hrun]
        have hnone := mt anyTagSet_iff.mpr (Bool.eq_false_iff.mp hany)
        simp only [tagClear, update_self] at hnone
        obtain ⟨hs', hup'⟩ := ih hup
        exact ⟨sameAround_setBit rfl hs', around_setBit hp rfl rfl rfl (Summary.clear_last hsum hnone) hup'⟩

/-- **Clearing a tag**: nothing happens when the index is absent. -/
theorem Represents.tagClear (hr : Represents g r m) (hi : i < 2 ^ g.indexBits) (tag : Tag) :
    let out := radixTreeTagClear g r i tag
    out.1 = m.item i ∧ out.2.height = r.height ∧
      Represents g out.2 (m.set i (m.item i, update (m.entry i).2 tag false)) := by
  -- an index that is absent has no tags
  have habsent : m.item i = none → m.set i (m.item i, update (m.entry i).2 tag false) = m := by
    intro hnone
    rw [update_eq_self_iff.mpr (Bool.eq_false_iff.mpr fun ht => hr.item_of_tag ht hnone).symm]
    exact m.set_entry i
  rw [radixTreeTagClear]
  by_cases hmax : radixTreeMaxindex g r.height < i
  · have hnone : m.item i = none := congrArg Prod.fst (hr.entry_eq_missing ((maxindex_lt_iff hi).mp hmax))
    rw [if_pos hmax, habsent hnone, hnone]
    exact ⟨rfl, rfl, hr⟩
  rw [if_neg hmax]
  have hlt : i < g.mapSize ^ r.height := not_le.mp (mt (maxindex_lt_iff hi).mpr hmax)
  rcases hr.descend hlt with ⟨hdesc, hnone⟩ | ⟨q, a, t', hdesc, hplug, hat, hq⟩
  · rw [hdesc, habsent hnone]
    exact ⟨hnone.symm, rfl, hr⟩
  have hitem : m.item i = some a := congrArg Prod.fst hq
  obtain ⟨hs, hp'⟩ := clearUp_spec tag hat.around
  rw [hdesc, hq, hitem]
  refine ⟨rfl, by dsimp only; split <;> rfl, ?_⟩
  let up := clearUp g tag q
  have htags : rootTags (if up.2 then
      rootTagClear { r with rnode := plug up.1 (.item a) } tag
      else { r with rnode := plug up.1 (.item a) }) =
      if up.2 then update (rootTags r) tag false else rootTags r := by
    split
    · exact rootTags_clear _ tag
    · rfl
  have hnew : At g (rootTags (if up.2 then
      rootTagClear { r with rnode := plug up.1 (.item a) } tag
      else { r with rnode := plug up.1 (.item a) })) r.height i 0 up.1
      (.item a) (update t' tag false) := by
    rw [htags]
    exact ⟨by rw [← hs.length_eq]; exact hat.length_eq, hp', trivial, hs.covers_iff.mp hat.covers⟩
  exact hr.modify hi hlt hat hplug hs hnew (by split <;> rfl) (by split <;> rfl)

/-! ## Delete -/

/-- The loop over the tags takes them all from the item. -/
theorem clearTags_spec (hi : i < 2 ^ g.indexBits) (tags : List Tag) : ∀ {r : Root α} {m : TaggedMap α},
    Represents g r m → (∀ tag, m.tag tag i = true → leafTag tag path = true) →
    Represents g
    (tags.foldl (fun root tag => if leafTag tag path then (radixTreeTagClear g root i tag).2 else root) r)
      (m.set i (m.item i, tags.foldl (fun f tag => update f tag false) (m.entry i).2)) ∧
    (tags.foldl (fun root tag =>
      if leafTag tag path then (radixTreeTagClear g root i tag).2 else root) r).height
      = r.height := by
  induction tags with
  | nil =>
    intro r m hr _
    refine ⟨?_, rfl⟩
    rw [List.foldl_nil, List.foldl_nil, show (m.item i, (m.entry i).2) = m.entry i from rfl, m.set_entry]
    exact hr
  | cons tag tags ih =>
    intro r m hr hleaf
    -- the map after this turn, whether or not there was a bit to clear
    have hturn : Represents g (if leafTag tag path then (radixTreeTagClear g r i tag).2 else r)
        (m.set i (m.item i, update (m.entry i).2 tag false)) ∧
        (if leafTag tag path then (radixTreeTagClear g r i tag).2 else r).height = r.height := by
      cases hl : leafTag tag path with
      | true => exact ⟨(hr.tagClear hi tag).2.2, (hr.tagClear hi tag).2.1⟩
      | false =>
        have hoff : (m.entry i).2 tag = false :=
          Bool.eq_false_iff.mpr fun ht => Bool.false_ne_true (hl.symm.trans (hleaf tag ht))
        rw [update_eq_self_iff.mpr hoff.symm, show (m.item i, (m.entry i).2) = m.entry i from rfl,
          m.set_entry]
        exact ⟨hr, rfl⟩
    have hent := m.entry_set_self i (m.item i, update (m.entry i).2 tag false)
    obtain ⟨hrep, hh⟩ := ih hturn.1 (fun tag' ht => by
      have h2 := congrFun (congrArg Prod.snd hent) tag'
      have h3 : update (m.entry i).2 tag false tag' = true := h2.symm.trans ht
      by_cases htt : tag' = tag
      · subst htt; rw [update_self] at h3; exact absurd h3 Bool.false_ne_true
      · rw [update_of_ne htt] at h3; exact hleaf tag' h3)
    refine ⟨?_, hh.trans hturn.2⟩
    rw [set_set, hent,
      show (m.set i (m.item i, update (m.entry i).2 tag false)).item i =
        m.item i from congrArg Prod.fst hent] at hrep
    exact hrep

/-- Trees that say the same say the same in a hole. -/
theorem content_plug_congr (path : Path α) (hsame : content g (h + 1) t e j = content g (h + 1) t e' j) :
    content g (h + 1 + path.length) T (plug path e) j = content g (h + 1 + path.length) T
    (plug path e') j := by
  have hT : ∀ c, content g (h + 1 + path.length) T (plug path e') j =
      read g.mapSize cell missing (h + 1 + path.length) c (plug path e') j := by
    intro c
    rw [show h + 1 + path.length = h + path.length + 1 by omega]
    exact (read_eq_content _ c T _ j).symm
  rw [hT (itemOf (plug path e), T), content]
  by_cases hc : Covers g.mapSize (h + 1) path j
  · rw [read_plug_covers cell missing _ path (h + 1) e hc, read_plug_covers cell missing _ path (h + 1) e' hc,
      read_eq_content _ _ t, read_eq_content _ _ t, hsame]
  · exact read_plug_other cell missing _ e e' (SameAround.refl cell path) hc

/-- A node without children and tags is zero when it comes back. -/
theorem zeroed_rcuFree (hz : ∀ o, o < g.mapSize → o ≠ 0 →
    node.slots o = .null ∧ ∀ tag, node.data.tags tag o = false) :
    Zeroed g (rcuFree node) := by
  refine ⟨rfl, fun o ho => ?_⟩
  by_cases ho0 : o = 0
  · subst ho0
    simp only [rcuFree, update_self, implies_true, and_self]
  · simp only [rcuFree, update_of_ne ho0]
    exact hz o ho ho0

/-- **Freeing, from the bottom up**: what was in the hole is gone; the nodes that are left empty go with
    it, and they are zero. -/
theorem freeUp_spec {path : Path α} : ∀ {h : Nat}, Around (shape g α) h true noTags path T →
    ((freeUp path).1 = none ∧ T = noTags ∧
      (∀ j, content g (h + path.length) noTags (plug path .null) j = missing) ∨
      ∃ e' top, (freeUp path).1 = some (e', top) ∧ e' ≠ .null ∧ Ok (shape g α) (h + path.length) T e' ∧
        ∀ j, content g (h + path.length) T e' j = content g (h + path.length) T (plug path .null) j) ∧
      ∀ n ∈ (freeUp path).2, Zeroed g n := by
  induction path with
  | nil =>
    intro h hp
    obtain rfl : noTags = T := hp
    exact ⟨.inl ⟨rfl, rfl, fun j => content_null⟩, nofun⟩
  | cons f path ih =>
    intro h hp
    obtain ⟨ho, ht, hrest, t', ⟨hh, hcount, hsum⟩, hup⟩ := hp
    have hlen := add_length_cons h f path
    have hone : f.data.count - 1 = count g.mapSize (update (occupied f.slots) f.offset false) := by
      rw [hcount, show count g.mapSize (update (occupied f.slots) f.offset true) =
        _ from count_update_true ho]
      rfl
    rw [hlen, plug_cons]
    by_cases hzero : f.data.count - 1 = 0
    swap
    · -- the node is still needed
      have hrun : freeUp (f :: path) = (some (plug path (.node { f.data with count := f.data.count - 1 }
          (update f.slots f.offset .null)), path.isEmpty), []) := by
        rw [freeUp, if_pos hzero]
      have hok : Ok (shape g α) (h + 1) t' (.node { f.data with count := f.data.count - 1 }
          (update f.slots f.offset .null)) := by
        refine ⟨⟨hh, ?_, hsum⟩, fun o hos => ?_⟩
        · rw [occupied_update]
          exact hone
        · by_cases hoo : o = f.offset
          · rw [hoo, update_self, ok_null_iff]
            exact ht
          · rw [update_of_ne hoo]
            exact hrest o hos hoo
      rw [hrun]
      refine ⟨.inr ⟨_, _, rfl, plug_ne_null (node_ne_null _ _), Trie.ok_plug hup hok, fun j => ?_⟩, nofun⟩
      exact content_plug_congr (t := t') path rfl
    · -- the last child is gone
      have hnull : ∀ o, o < g.mapSize → o ≠ f.offset → f.slots o = .null := by
        intro o hos hoo
        have := count_eq_zero_iff.mp (hone.symm.trans hzero) o hos
        rw [update_of_ne hoo, occupied, Bool.not_eq_false', isNull_iff] at this
        exact this
      have habout : ∀ o, o < g.mapSize → (fun tag => f.data.tags tag o) = noTags := by
        intro o hos
        by_cases hoo : o = f.offset
        · rw [hoo]; exact ht
        · have := hrest o hos hoo
          rw [hnull o hos hoo, ok_null_iff] at this
          exact this
      have ht' : t' = noTags := by
        funext tag
        rw [noTags, Bool.eq_false_iff]
        intro hb
        obtain ⟨o, hos, hbit⟩ := (hsum tag).mp hb
        cases (congrFun (habout o hos) tag).symm.trans hbit
      subst ht'
      have hslots : ∀ o, o < g.mapSize → update f.slots f.offset .null o = .null := by
        intro o hos
        by_cases hoo : o = f.offset
        · rw [hoo, update_self]
        · rw [update_of_ne hoo, hnull o hos hoo]
      have hsame : ∀ j, content g (h + 1) noTags (f.fill .null) j = content g (h + 1) noTags .null j := by
        intro j
        have hd := digit_lt g.mapSize_pos h j
        rw [Frame.fill, content_node, hslots _ hd, habout _ hd, content_null, content_null]
      have hrun : freeUp (f :: path) = ((freeUp path).1, rcuFree
          ⟨{ f.data with count := f.data.count - 1 }, update f.slots f.offset .null⟩ :: (freeUp path).2) := by
        rw [freeUp, if_neg (not_not.mpr hzero)]
      obtain ⟨hres, hfreed⟩ := ih hup
      rw [hrun]
      refine ⟨hres.imp ?_ ?_, List.forall_mem_cons.mpr ⟨?_, hfreed⟩⟩
      · rintro ⟨hnone, hT, hc⟩
        exact ⟨hnone, hT, fun j => (content_plug_congr path (hsame j)).trans (hc j)⟩
      · rintro ⟨e', top, hsome, hne, hok, hc⟩
        exact ⟨e', top, hsome, hne, hok, fun j => (hc j).trans (content_plug_congr path (hsame j)).symm⟩
      · exact zeroed_rcuFree fun o hos _ => ⟨hslots o hos, fun tag => congrFun (habout o hos) tag⟩

/-- **Shrinking** changes nothing that is read. -/
theorem shrink_spec {h : Nat} : ∀ {e : Slot α}, Ok (shape g α) h T e → e ≠ .null →
    ∃ h' e' freed, radixTreeShrink h e = some (h', e', freed) ∧ h' ≤ h ∧ Ok (shape g α) h' T e' ∧
      (∀ j, (if j < g.mapSize ^ h' then content g h' T e' j else missing) =
        if j < g.mapSize ^ h then content g h T e j else missing) ∧
      ∀ n ∈ freed, Zeroed g n := by
  induction h with
  | zero =>
    intro e hok _
    exact ⟨0, e, [], rfl, le_rfl, hok, fun _ => rfl, nofun⟩
  | succ h ih =>
    intro e hok hne
    cases e with
    | null => exact absurd rfl hne
    | item a => exact hok.elim
    | node d slots =>
      rw [radixTreeShrink]
      by_cases hstay : d.count ≠ 1 ∨ (slots 0).isNull = true
      · refine ⟨h + 1, .node d slots, [], ?_, le_rfl, hok, fun _ => rfl, nofun⟩
        by_cases hcount : d.count ≠ 1
        · rw [if_pos hcount]
        · rw [if_neg hcount, if_pos (hstay.resolve_left hcount)]
      obtain ⟨hcount, hnull⟩ := not_or.mp hstay
      rw [if_neg hcount, if_neg hnull]
      -- the single child is in slot 0, and the other slots know of no tags
      obtain ⟨⟨-, hc, hsum⟩, hch⟩ := id hok
      have hocc : occupied slots 0 = true := by rw [occupied, Bool.eq_false_iff.mpr hnull]; rfl
      have hM := g.mapSize_pos
      have hothers : ∀ o, o < g.mapSize → o ≠ 0 → slots o = .null ∧ (fun tag => d.tags tag o) = noTags := by
        intro o ho ho0
        have hcnt := count_update (p := occupied slots) false hM
        rw [hocc, ← hc, not_not.mp hcount, Bool.toNat_true, Bool.toNat_false] at hcnt
        have hz := count_eq_zero_iff.mp (Nat.add_right_cancel hcnt) o ho
        rw [update_of_ne ho0, occupied, Bool.not_eq_false', isNull_iff] at hz
        have hb := hch o ho
        rw [hz, ok_null_iff] at hb
        exact ⟨hz, hb⟩
      have hT : (fun tag => d.tags tag 0) = T := by
        funext tag
        rw [Bool.eq_iff_iff, hsum tag]
        refine ⟨fun hb => ⟨0, hM, hb⟩, ?_⟩
        rintro ⟨o, ho, hb⟩
        by_cases ho0 : o = 0
        · exact ho0 ▸ hb
        · cases (congrFun (hothers o ho ho0).2 tag).symm.trans hb
      have hchild : Ok (shape g α) h T (slots 0) := hT ▸ hch 0 hM
      obtain ⟨h', e', freed, hrun, hle, hok', hcont, hz⟩ := ih hchild (mt isNull_iff.mpr hnull)
      refine ⟨h', e', rcuFree ⟨d, slots⟩ :: freed, by rw [hrun]; rfl, by omega, hok', fun j => ?_,
        List.forall_mem_cons.mpr ⟨zeroed_rcuFree fun o ho ho0 => ?_, hz⟩⟩
      · rw [hcont j, content_single hothers, hT]
      · exact ⟨(hothers o ho ho0).1, fun tag => congrFun (hothers o ho ho0).2 tag⟩

/-- Any tree that reads like the old one without the item. -/
theorem Represents.remove (hr : Represents g r m) (hib : i < 2 ^ g.indexBits)
    (hi : i < g.mapSize ^ r.height) (hat : At g (rootTags r) r.height i 0 path (.item a) noTags)
    (hplug : plug path (.item a) = r.rnode) (hok : Ok (shape g α) r.height (rootTags r) e')
    (hcont : ∀ j, content g r.height (rootTags r) e' j =
      content g r.height (rootTags r) (plug path .null) j) (hpath : path ≠ []) :
    Represents g { r with rnode := e' } (m.set i missing) := by
  refine ⟨hr.height_le, hok, fun j => ?_, fun j hj => ?_⟩
  · show (if j < g.mapSize ^ r.height then content g r.height (rootTags r) e' j else missing) = _
    by_cases hji : j = i
    · subst hji
      rw [if_pos hi, entry_set_self, hcont j, ← hat.length_eq, content,
        read_plug_covers cell missing _ path 0 .null hat.covers]
      have hp := hat.around
      cases path with
      | nil => exact absurd rfl hpath
      | cons f path => exact congrArg (fun t => ((none : Option α), t)) hp.2.1
    · rw [hcont j, hr.entry_other hi hat hplug (.refl cell path) _ hji]
  · rw [entry_set_of_ne m (by omega : j ≠ i)]
    exact hr.bound j hj

/-- The empty tree. -/
theorem represents_empty (hT : rootTags r = noTags) (hn : r.rnode = .null) (hh : r.height ≤ g.maxPath)
    (hm : ∀ j, m.entry j = missing) : Represents g r m := by
  refine ⟨hh, ?_, fun j => ?_, fun j _ => hm j⟩
  · rw [hn, hT, ok_null_iff]
  · rw [hm j, rootContent, hn, hT, content_null, ite_self]

theorem Represents.deleteAt (hr : Represents g r m) (hib : i < 2 ^ g.indexBits)
    (hi : i < g.mapSize ^ r.height) {b : α}
    (hat : At g (rootTags r) r.height i 0 path (.item b) noTags)
    (hplug : plug path (.item b) = r.rnode) (hpath : path ≠ []) :
    ∃ d, deleteAt r path a = some d ∧ d.item = some a ∧ Represents g d.root (m.set i missing) ∧
      ∀ n ∈ d.freed, Zeroed g n := by
  have hlen : 0 + path.length = r.height := hat.length_eq
  obtain ⟨hres, hfreed⟩ := freeUp_spec hat.around
  rw [hlen] at hres
  rw [RadixTree.deleteAt]
  rcases hfree : freeUp path with ⟨res, freed⟩
  rw [hfree] at hres hfreed
  rcases hres with ⟨hnone, hT, hc⟩ | ⟨e', top, hsome, hne, hok, hc⟩
  · obtain rfl : res = none := hnone
    refine ⟨_, rfl, rfl, represents_empty (rootTags_clearAll _) rfl (Nat.zero_le _) fun j => ?_, hfreed⟩
    by_cases hji : j = i
    · rw [hji, entry_set_self]
    · rw [hr.entry_other hi hat hplug (.refl cell path) _ hji, hc j, ite_self]
  · obtain rfl : res = some (e', top) := hsome
    have hrep := hr.remove hib hi hat hplug hok hc hpath
    cases top with
    | false => exact ⟨_, rfl, rfl, hrep, hfreed⟩
    | true =>
      obtain ⟨h', e'', more, hrun, hle, hok', hcont, hz⟩ := shrink_spec hok hne
      refine ⟨⟨some a, { r with height := h', rnode := e'' }, freed ++ more⟩, ?_, rfl, ?_,
        List.forall_mem_append.mpr ⟨hfreed, hz⟩⟩
      · simp only [if_true, hrun]
      · refine ⟨hle.trans hr.height_le, hok', fun j => ?_, hrep.bound⟩
        rw [← hrep.entry j]
        exact hcont j

/-- **Deletion** takes the item and its tags from the map, and gives back nodes that are zero. -/
theorem Represents.delete (hr : Represents g r m) (hi : i < 2 ^ g.indexBits) :
    ∃ d, radixTreeDelete g r i = some d ∧ d.item = m.item i ∧ Represents g d.root (m.set i missing) ∧
      ∀ n ∈ d.freed, Zeroed g n := by
  have hnil : ∀ n ∈ ([] : List (RawNode α)), Zeroed g n := nofun
  -- an index that is absent
  have habsent : m.item i = none → m.set i missing = m := by
    intro hnone
    have : m.entry i = missing :=
      Prod.ext hnone (funext fun tag => Bool.eq_false_iff.mpr fun ht => hr.item_of_tag ht hnone)
    rw [← this]
    exact m.set_entry i
  rw [radixTreeDelete]
  by_cases hmax : radixTreeMaxindex g r.height < i
  · have hnone : m.item i = none := congrArg Prod.fst (hr.entry_eq_missing ((maxindex_lt_iff hi).mp hmax))
    rw [if_pos hmax]
    exact ⟨_, rfl, hnone.symm, by rw [habsent hnone]; exact hr, hnil⟩
  rw [if_neg hmax]
  have hlt : i < g.mapSize ^ r.height := not_le.mp (mt (maxindex_lt_iff hi).mpr hmax)
  by_cases hH : r.height = 0
  · -- a direct item, at index 0
    have hi0 : i = 0 := by rw [hH] at hlt; simpa using hlt
    have hrep : Represents g (rootTagClearAll { r with rnode := .null }) (m.set i missing) := by
      refine represents_empty (rootTags_clearAll _) rfl hr.height_le fun j => ?_
      by_cases hji : j = i
      · rw [hji, entry_set_self]
      · rw [entry_set_of_ne m hji]
        exact hr.entry_eq_missing (by rw [hH]; show 1 ≤ j; omega)
    have hitem : m.item i = itemOf r.rnode := by
      have hent := hr.content_eq hlt
      rw [hH] at hent
      exact (congrArg Prod.fst hent).symm
    rw [if_pos hH]
    cases he : r.rnode with
    | item a => exact ⟨_, rfl, by rw [hitem, he]; rfl, hrep, hnil⟩
    | null => exact ⟨_, rfl, by rw [hitem, he]; rfl, hrep, hnil⟩
    | node d slots => exact ⟨_, rfl, by rw [hitem, he]; rfl, hrep, hnil⟩
  rw [if_neg hH]
  rcases hr.descend hlt with ⟨hdesc, hnone⟩ | ⟨q, a, t', hdesc, hplug, hat, hq⟩
  · rw [hdesc]
    exact ⟨_, rfl, Eq.symm hnone, by rw [habsent hnone]; exact hr, hnil⟩
  have hleaf : ∀ tag, m.tag tag i = true → leafTag tag q = true := by
    intro tag ht
    have h1 : t' tag = true := (congrFun (congrArg Prod.snd hq) tag).symm.trans ht
    have hp := hat.around
    cases q with
    | nil => exact absurd (hat.length_eq.symm) hH
    | cons f q => exact (congrFun hp.2.1 tag).trans h1
  obtain ⟨hrep, hheight⟩ := clearTags_spec hi (List.finRange 3) hr hleaf
  have hclear : ∀ f : Tag → Bool, (List.finRange 3).foldl (fun f tag => update f tag false) f = noTags := by
    intro f
    funext tag
    match tag with
    | 0 => rfl
    | 1 => rfl
    | 2 => rfl
  rw [hclear] at hrep
  rw [hdesc]
  have hent' : (m.set i (m.item i, noTags)).entry i = (some a, noTags) := by
    rw [entry_set_self, show m.item i = some a from congrArg Prod.fst hq]
  -- the walk down the tree without the tags
  rw [show (List.finRange 3).foldl (fun root tag =>
    if leafTag tag q then (radixTreeTagClear g root i tag).2 else root) r = clearTags g i q r from rfl]
    at hrep hheight
  have hlt' : i < g.mapSize ^ (clearTags g i q r).height := by rw [hheight]; exact hlt
  dsimp only
  rcases hrep.descend hlt' with ⟨-, hnone⟩ | ⟨q', b, t'', hdesc', hplug', hat', hq'⟩
  · cases hnone.symm.trans (congrArg Prod.fst hent')
  obtain rfl : t'' = noTags := congrArg Prod.snd (hq'.symm.trans hent')
  have hne : q' ≠ [] := by
    rintro rfl
    exact hH (hheight ▸ hat'.length_eq.symm)
  rw [hdesc']
  obtain ⟨d, hd, hditem, hdrep, hdz⟩ := hrep.deleteAt hi hlt' (a := a) hat' hplug' hne
  refine ⟨d, hd, hditem.trans (congrArg Prod.fst hq).symm, ?_, hdz⟩
  rw [set_set] at hdrep
  exact hdrep

end LinuxKernel.RadixTree
