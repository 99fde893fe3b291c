/-
  The zone stays consistent (`mm/page_alloc.c`).

  1. **Representation** (`Represents`) — the free lists, the flags of the pages and the counts `nr_free`
     of a zone all say the same: which blocks are free.  This is a `FreeMap`, which is disjoint, aligned
     and merged by construction.

  2. **Operations** — a block enters the map (`Represents.insert`), leaves it (`Represents.remove`) or
     changes its list (`Represents.move`).  `expand`, the loop of `__free_one_page` and `move_freepages`
     are iterations of these.

  3. **Runs** — a run observes which pages are FREE and which are ALLOCATED.  Any aligned block of allocated
     pages may be freed, so a block can also be given back in parts.

  4. **`NULL`** — a request fails if and only if the lists it may use (`searched`) have no block that is large
     enough.  No request but one for `MIGRATE_ISOLATE` itself uses the isolated blocks, and a request for
     `MIGRATE_RESERVE` uses the reserve only.
-/
import LinuxKernel.Base.BuddySystem
import LinuxKernel.Base.Run
import LinuxKernel.Mm.PageAlloc

namespace LinuxKernel.PageAlloc

open Function BuddySystem List Option

/-! ## Representation -/

/-- The number of blocks on the lists of one order. -/
def blocksOn (freeList : Nat × MigrateType → List Nat) (o : Nat) : Nat :=
  (freeList (o, .unmovable)).length + (freeList (o, .reclaimable)).length +
    (freeList (o, .movable)).length + (freeList (o, .reserve)).length + (freeList (o, .isolate)).length

theorem blocksOn_succ (f f' : Nat × MigrateType → List Nat) (o : Nat) (mt : MigrateType)
    (h : ∀ k, (f' k).length = (f k).length + if k = (o, mt) then 1 else 0) (o' : Nat) :
    blocksOn f' o' = blocksOn f o' + if o' = o then 1 else 0 := by
  unfold blocksOn
  simp only [h, Prod.mk.injEq]
  cases mt <;> by_cases ho : o' = o <;> simp [ho] <;> omega

variable (L : Layout)

/-- The zone has these free blocks; `nr_free` is `owed` too small. -/
structure Represents (owed : Nat → Int) (z : Zone) (A : FreeMap L.maxOrder) : Prop where
  bins : Bins.Exclusive z.freeList
  listed : ∀ p o, A.order p = some o ↔ ∃ mt, p ∈ z.freeList (o, mt)
  flags : ∀ p, L.Owned p → (z.page p).buddy = (A.order p).isSome
  orders : ∀ p o, A.order p = some o → (z.page p).priv = o
  owned : ∀ n ∈ A.pages, L.Owned n
  count : ∀ o, z.nrFree o + owed o = blocksOn z.freeList o

variable {L} {owed : Nat → Int} {z z' : Zone} {A : FreeMap L.maxOrder} {p o : Nat} {mt : MigrateType}

section
variable (h : Represents L owed z A)
include h

/-- Only the lists, the pages and the counts matter. -/
theorem Represents.congr (hf : z'.freeList = z.freeList) (hp : z'.page = z.page)
    (hn : z'.nrFree = z.nrFree) : Represents L owed z' A := by
  obtain ⟨h1, h2, h3, h4, h5, h6⟩ := h
  refine ⟨?_, ?_, ?_, ?_, h5, ?_⟩
  · rwa [hf]
  · rwa [hf]
  · rwa [hp]
  · rwa [hp]
  · rwa [hf, hn]

theorem Represents.not_listed (hp : A.order p = none) (k : Nat × MigrateType) : p ∉ z.freeList k := by
  intro hm
  have := (h.listed p k.1).mpr ⟨k.2, hm⟩
  rw [hp] at this
  nomatch this

/-- A block enters the map. -/
theorem Represents.insert (z' : Zone) (mt : MigrateType) (hlt : o < L.maxOrder) (hal : 2 ^ o ∣ p)
    (hdis : Disjoint (block p o) A.pages) (hb : o + 1 < L.maxOrder → A.order (buddyOf o p) ≠ some o)
    (howned : ∀ n ∈ block p o, L.Owned n) (hbins : Bins.Exclusive z'.freeList)
    (hmem : ∀ q k, q ∈ z'.freeList k ↔ q ∈ z.freeList k ∨ q = p ∧ k = (o, mt))
    (hlen : ∀ k, (z'.freeList k).length = (z.freeList k).length + if k = (o, mt) then 1 else 0)
    (hpage : z'.page = update z.page p ⟨true, o⟩)
    (hnr : z'.nrFree = update z.nrFree o (z.nrFree o + 1)) :
    Represents L owed z' (A.insert p o hlt hal hdis hb) := by
  have hnone := A.order_eq_none hdis
  refine ⟨hbins, fun q o' => ?_, fun q hq => ?_, fun q o' hq => ?_, fun n hn => ?_, fun o' => ?_⟩
  · show update A.order p (some o) q = some o' ↔ _
    simp only [hmem, Prod.mk.injEq]
    constructor
    · intro hq
      rcases FreeMap.of_update_some hq with ⟨rfl, rfl⟩ | ⟨_, hq'⟩
      · exact ⟨mt, .inr ⟨rfl, rfl, rfl⟩⟩
      · obtain ⟨mt', hm⟩ := (h.listed q o').mp hq'
        exact ⟨mt', .inl hm⟩
    · rintro ⟨mt', hm | ⟨rfl, rfl, rfl⟩⟩
      · have hq := (h.listed q o').mpr ⟨mt', hm⟩
        have hne : q ≠ p := fun e => by rw [e, hnone] at hq; nomatch hq
        exact (update_of_ne hne ..).trans hq
      · exact update_self ..
  · rw [hpage]
    show _ = (update A.order p (some o) q).isSome
    by_cases e : q = p
    · rw [e, update_self, update_self]; rfl
    · rw [update_of_ne e, update_of_ne e]
      exact h.flags q hq
  · rw [hpage]
    rcases FreeMap.of_update_some hq with ⟨rfl, rfl⟩ | ⟨hne, hq'⟩
    · rw [update_self]
    · rw [update_of_ne hne]
      exact h.orders q o' hq'
  · rw [A.pages_insert] at hn
    rcases hn with hn | hn
    · exact h.owned n hn
    · exact howned n hn
  · rw [hnr, blocksOn_succ _ _ o mt hlen]
    have := h.count o'
    by_cases e : o' = o
    · subst e
      rw [update_self, if_pos rfl]
      omega
    · rw [update_of_ne e, if_neg e]
      omega

/-- A block leaves the map. -/
theorem Represents.remove {owed' : Nat → Int} (hp : A.order p = some o)
    (hf : z'.freeList = Bins.remove z.freeList p)
    (hpage : z'.page = update z.page p ⟨false, 0⟩)
    (hnr : ∀ o', z'.nrFree o' + owed' o' = z.nrFree o' + owed o' - if o' = o then 1 else 0) :
    Represents L owed' z' (A.remove p) := by
  obtain ⟨mt, hmt⟩ := (h.listed p o).mp hp
  refine ⟨hf ▸ h.bins.remove p, fun q o' => ?_, fun q hq => ?_, fun q o' hq => ?_, fun n hn => ?_,
    fun o' => ?_⟩
  · show update A.order p none q = some o' ↔ _
    simp only [hf, Bins.mem_remove]
    constructor
    · intro hq
      obtain ⟨hne, hq'⟩ := FreeMap.of_update_none hq
      obtain ⟨mt', hm⟩ := (h.listed q o').mp hq'
      exact ⟨mt', hm, hne⟩
    · rintro ⟨mt', hm, hne⟩
      exact (update_of_ne hne ..).trans ((h.listed q o').mpr ⟨mt', hm⟩)
  · rw [hpage]
    show _ = (update A.order p none q).isSome
    by_cases e : q = p
    · rw [e, update_self, update_self]; rfl
    · rw [update_of_ne e, update_of_ne e]
      exact h.flags q hq
  · obtain ⟨hne, hq'⟩ := FreeMap.of_update_none hq
    rw [hpage, update_of_ne hne]
    exact h.orders q o' hq'
  · rw [A.pages_remove hp] at hn
    exact h.owned n hn.1
  · have hlen := blocksOn_succ z'.freeList z.freeList o mt
      (fun k => by rw [hf]; exact (h.bins.length_remove hmt k).symm) o'
    have := h.count o'
    rw [hnr, this, hlen]
    split_ifs <;> omega

/-- A block changes its list. -/
theorem Represents.move (hp : A.order p = some o) (mt : MigrateType) :
    Represents L owed (listMove z p o mt) A := by
  obtain ⟨mt0, hmt0⟩ := (h.listed p o).mp hp
  have hgone : ∀ k, p ∉ Bins.remove z.freeList p k := fun k hk => (Bins.mem_remove.mp hk).2 rfl
  refine ⟨(h.bins.remove p).push hgone _, fun q o' => ?_, h.flags, h.orders, h.owned, fun o' => ?_⟩
  · simp only [h.listed, listMove, listAdd, listDel, Bins.mem_push, Bins.mem_remove, Prod.mk.injEq]
    constructor
    · rintro ⟨mt', hm⟩
      by_cases e : q = p
      · subst e
        obtain ⟨rfl, _⟩ := Prod.mk.inj (h.bins.unique _ _ q hmt0 hm)
        exact ⟨mt, .inr ⟨rfl, rfl, rfl⟩⟩
      · exact ⟨mt', .inl ⟨hm, e⟩⟩
    · rintro ⟨mt', ⟨hm, _⟩ | ⟨rfl, rfl, rfl⟩⟩
      · exact ⟨mt', hm⟩
      · exact ⟨mt0, hmt0⟩
  · have h1 := blocksOn_succ (Bins.remove z.freeList p) z.freeList o mt0
      (fun k => (h.bins.length_remove hmt0 k).symm) o'
    have h2 := blocksOn_succ (Bins.remove z.freeList p) (listMove z p o mt).freeList o mt (fun k =>
      Bins.length_push) o'
    have hc := h.count o'
    show z.nrFree o' + owed o' = _
    rw [h2, ← h1, hc]

end

/-! ## Splitting -/

/-- Nothing is owed. -/
def settled : Nat → Int := fun _ => 0

theorem block_mono {l h : Nat} (hle : l ≤ h) : block p l ⊆ block p h := fun n hn =>
  ⟨hn.1, Nat.lt_of_lt_of_le hn.2 (Nat.add_le_add_left (Nat.pow_le_pow_right (by omega) hle) p)⟩

/-- **`expand`** frees what is left of a block when its first `2 ^ low` pages have been taken. -/
theorem expand_represents (low : Nat) (mt : MigrateType) (high : Nat) : ∀ (z : Zone) (A : FreeMap L.maxOrder),
    Represents L settled z A → high < L.maxOrder → low ≤ high → 2 ^ high ∣ p →
    Disjoint (block p high) A.pages → (∀ n ∈ block p high, L.Owned n) →
    ∃ B, Represents L settled (expand p low mt high z) B ∧
    B.pages = A.pages ∪ (block p high \ block p low) := by
  induction high with
  | zero =>
    intro z A h _ hle _ _ _
    obtain rfl : low = 0 := by omega
    exact ⟨A, h, by simp⟩
  | succ high ih =>
    intro z A h hlt hle hal hdis howned
    unfold expand
    by_cases hlow : high + 1 > low
    · rw [if_pos hlow]
      rw [block_succ] at hdis howned ⊢
      obtain ⟨hdis1, hdis2⟩ := Set.disjoint_union_left.mp hdis
      have hal1 : 2 ^ high ∣ p := Nat.dvd_trans (Nat.pow_dvd_pow 2 (Nat.le_succ high)) hal
      have hb : A.order (buddyOf high (p + 2 ^ high)) ≠ some high := by
        rw [buddyOf_upper hal, A.order_eq_none hdis1]
        exact some_ne_none high |>.symm
      have hA := h.insert (setPageOrder (addNrFree (listAdd z (p + 2 ^ high) high mt) high 1)
          (p + 2 ^ high) high) mt (show high < L.maxOrder by omega)
        (Nat.dvd_add hal1 (Nat.dvd_refl _)) hdis2 (fun _ => hb) (fun n hn => howned n (.inr hn))
        (h.bins.push (h.not_listed (A.order_eq_none hdis2)) _) (fun q k => Bins.mem_push)
        (fun k => Bins.length_push) rfl rfl
      obtain ⟨B, hB, hpages⟩ := ih _ _ hA (by omega) (by omega) hal1
        (by rw [A.pages_insert]; exact Set.disjoint_union_right.mpr ⟨hdis1, disjoint_halves p high⟩)
        (fun n hn => howned n (.inl hn))
      refine ⟨B, hB, ?_⟩
      rw [hpages, A.pages_insert]
      ext n
      have hup : n ∈ block (p + 2 ^ high) high → n ∉ block p low := fun hn hn' =>
        Set.disjoint_left.mp (disjoint_halves p high) (block_mono (by omega) hn') hn
      simp only [Set.mem_union, Set.mem_sdiff]
      tauto
    · rw [if_neg hlow]
      obtain rfl : low = high + 1 := by omega
      exact ⟨A, h, by simp⟩

/-- **A block is taken** from the lists, and split. -/
theorem take_represents {low : Nat} {owed : Nat → Int} (h : Represents L owed z A) (hp : A.order p = some o)
    (hle : low ≤ o) (hf : z'.freeList = Bins.remove z.freeList p)
    (hpage : z'.page = update z.page p ⟨false, 0⟩)
    (hnr : ∀ o', z'.nrFree o' + settled o' = z.nrFree o' + owed o' - if o' = o then 1 else 0) :
    ∃ B, Represents L settled (expand p low mt o z') B ∧ B.pages = A.pages \ block p low := by
  have hrem := h.remove hp hf hpage hnr
  have hsub := A.block_subset hp
  obtain ⟨B, hB, hpages⟩ := expand_represents low mt o z' _ hrem (A.order_lt p o hp) hle
    (A.aligned p o hp) (by rw [A.pages_remove hp]; exact disjoint_sdiff_self_right)
    (fun n hn => h.owned n (hsub hn))
  refine ⟨B, hB, ?_⟩
  rw [hpages, A.pages_remove hp]
  ext n
  have h2 := @block_mono p low o hle n
  simp only [Set.mem_union, Set.mem_sdiff]
  tauto

/-! ## Merging -/

variable {page : Nat}

/-- `page_is_buddy` recognises the free blocks of this order. -/
theorem pageIsBuddy_iff (h : Represents L owed z A) (hpage : L.Owned page) (buddy order : Nat) :
    pageIsBuddy L z page buddy order = true ↔ A.order buddy = some order := by
  unfold pageIsBuddy
  constructor
  · intro hb
    split_ifs at hb with h1 h2
    have hown : L.Owned buddy := ⟨by simpa using h1, by rw [← hpage.2]; exact (not_ne_iff.mp h2).symm⟩
    rw [Bool.and_eq_true, h.flags buddy hown, isSome_iff_exists, beq_iff_eq] at hb
    obtain ⟨⟨o, ho⟩, hpriv⟩ := hb
    rw [ho, ← hpriv, h.orders buddy o ho]
  · intro hb
    have hown := h.owned buddy (A.block_subset hb (mem_block_self buddy order))
    rw [if_neg (by rw [hown.1]; exact Bool.noConfusion), if_neg (not_ne_iff.mpr (hpage.2.trans hown.2.symm)),
      h.flags buddy hown, hb, h.orders buddy order hb]
    simp

variable {order : Nat}

/-- The indices of `__free_one_page` are the pages modulo `2 ^ MAX_ORDER`. -/
theorem index_buddy {m : Nat} (page : Nat) (ho : order < m) :
    page + findBuddyIndex (page % 2 ^ m) order - page % 2 ^ m = buddyOf order page ∧
      page + (findBuddyIndex (page % 2 ^ m) order &&& page % 2 ^ m) - page % 2 ^ m = parentOf order page ∧
      findBuddyIndex (page % 2 ^ m) order &&& page % 2 ^ m = parentOf order page % 2 ^ m := by
  have hbit : (page % 2 ^ m).testBit order = page.testBit order := by
    rw [Nat.testBit_mod_two_pow, decide_eq_true ho, Bool.true_and]
  have hdm := Nat.div_add_mod page (2 ^ m)
  have hpos := Nat.two_pow_pos order
  have hshift : 1 <<< order = 2 ^ order := Nat.one_shiftLeft order
  unfold findBuddyIndex parentOf buddyOf
  rw [hshift]
  rcases xor_two_pow order (page % 2 ^ m) with ⟨hb, hx, ha⟩ | ⟨hb, hx, ha⟩
  · rcases xor_two_pow order page with ⟨_, hx', ha'⟩ | ⟨hb', _⟩
    · rw [ha', ha]
      omega
    · rw [hbit, hb'] at hb
      nomatch hb
  · rcases xor_two_pow order page with ⟨hb', _⟩ | ⟨_, hx', ha'⟩
    · rw [hbit, hb'] at hb
      nomatch hb
    · rw [ha', ha]
      refine ⟨by omega, by omega, ?_⟩
      have hpar : page ^^^ 2 ^ order = (page % 2 ^ m ^^^ 2 ^ order) + 2 ^ m * (page / 2 ^ m) := by omega
      have hlt' : (page % 2 ^ m ^^^ 2 ^ order) < 2 ^ m := by omega
      rw [hpar, Nat.add_mul_mod_self_left, Nat.mod_eq_of_lt hlt']

/-- What is known of the block that is being freed. -/
structure Freeing (L : Layout) (s : Merged) (A : FreeMap L.maxOrder) : Prop where
  zone : Represents L settled s.zone A
  aligned : 2 ^ s.order ∣ s.page
  order_lt : s.order < L.maxOrder
  idx : s.pageIdx = s.page % 2 ^ L.maxOrder
  disjoint : Disjoint (block s.page s.order) A.pages
  owned : ∀ n ∈ block s.page s.order, L.Owned n

/-- **The loop of `__free_one_page`**: what is free, and what is being freed, stays the same; at the end the
    buddy is not free. -/
theorem coalesce_represents (fuel : Nat) : ∀ (s : Merged) (A : FreeMap L.maxOrder), Freeing L s A →
    L.maxOrder ≤ fuel + s.order + 1 →
    ∃ B, Freeing L (coalesce L fuel s) B ∧
      B.pages ∪ block (coalesce L fuel s).page (coalesce L fuel s).order = A.pages ∪ block s.page s.order ∧
      ((coalesce L fuel s).order + 1 < L.maxOrder →
        B.order (buddyOf (coalesce L fuel s).order (coalesce L fuel s).page) ≠ some
        (coalesce L fuel s).order) := by
  induction fuel with
  | zero => intro s A h hf; exact ⟨A, h, rfl, fun hlt => absurd hlt (by rw [coalesce]; omega)⟩
  | succ fuel ih =>
    intro s A h hf
    unfold coalesce
    by_cases hlt : s.order < L.maxOrder - 1
    · rw [if_pos hlt]
      obtain ⟨hbuddy, hparent, hidx⟩ := index_buddy s.page h.order_lt
      simp only [h.idx, hbuddy]
      let b := buddyOf s.order s.page
      have hiff := pageIsBuddy_iff h.zone (h.owned s.page (mem_block_self ..)) b s.order
      by_cases hfree : A.order b = some s.order
      · rw [if_pos (hiff.mpr hfree), hparent, hidx]
        have hsub := A.block_subset hfree
        have hpages := A.pages_remove hfree
        have hblock := block_parentOf h.aligned
        have hB : Freeing L ⟨rmvPageOrder (addNrFree (listDel s.zone b) s.order (-1))
            b, parentOf s.order s.page, parentOf s.order s.page % 2 ^ L.maxOrder,
            s.order + 1, buddyOf s.order s.page, findBuddyIndex (s.page % 2 ^ L.maxOrder) s.order⟩
            (A.remove b) := by
          have hlt' : s.order + 1 < L.maxOrder := by omega
          refine ⟨h.zone.remove hfree rfl rfl fun o' => ?_, dvd_parentOf h.aligned, hlt', rfl, ?_, ?_⟩
          · show update s.zone.nrFree s.order (s.zone.nrFree s.order + -1) o' + settled o' = _
            by_cases e : o' = s.order
            · rw [e, update_self, if_pos rfl]; omega
            · rw [update_of_ne e, if_neg e]; omega
          · rw [hpages, hblock]
            exact Set.disjoint_union_left.mpr
              ⟨Set.disjoint_of_subset_right Set.sdiff_subset h.disjoint, disjoint_sdiff_self_right⟩
          · rw [hblock]
            rintro n (hn | hn)
            · exact h.owned n hn
            · exact h.zone.owned n (hsub hn)
        obtain ⟨B, hB', hpg, hmerged⟩ := ih _ _ hB (by show _ ≤ fuel + (s.order + 1) + 1; omega)
        refine ⟨B, hB', hpg.trans ?_, hmerged⟩
        rw [hpages, hblock]
        ext n
        simp only [Set.mem_union, Set.mem_sdiff]
        tauto
      · rw [if_neg (fun hb => hfree (hiff.mp hb))]
        exact ⟨A, { h with idx := rfl }, rfl, fun _ => hfree⟩
    · rw [if_neg hlt]
      exact ⟨A, h, rfl, fun hlt' => absurd hlt' (by omega)⟩

/-- **`__free_one_page`** -/
theorem freeOnePage_represents (h : Represents L settled z A) (hlt : o < L.maxOrder) (hal : 2 ^ o ∣ p)
    (hdis : Disjoint (block p o) A.pages) (howned : ∀ n ∈ block p o, L.Owned n) (mt : MigrateType) :
    ∃ B, Represents L settled (freeOnePage L z p o mt) B ∧ B.pages = A.pages ∪ block p o := by
  have hs : Freeing L ⟨z, p, p &&& (2 ^ L.maxOrder - 1), o, 0, 0⟩ A :=
    ⟨h, hal, hlt, Nat.and_two_pow_sub_one_eq_mod .., hdis, howned⟩
  obtain ⟨B, hB, hpages, hmerged⟩ := coalesce_represents L.maxOrder _ A hs (by omega)
  simp only [freeOnePage]
  generalize coalesce L L.maxOrder ⟨z, p, p &&& (2 ^ L.maxOrder - 1), o, 0, 0⟩ = s at *
  have hgone := hB.zone.not_listed (B.order_eq_none hB.disjoint)
  refine ⟨B.insert s.page s.order hB.order_lt hB.aligned hB.disjoint hmerged, ?_,
    (B.pages_insert ..).trans hpages⟩
  split
  · exact hB.zone.insert _ mt hB.order_lt hB.aligned hB.disjoint hmerged hB.owned
      (hB.zone.bins.add hgone _) (fun q k => Bins.mem_add) (fun k => Bins.length_add) rfl rfl
  · exact hB.zone.insert _ mt hB.order_lt hB.aligned hB.disjoint hmerged hB.owned
      (hB.zone.bins.push hgone _) (fun q k => Bins.mem_push) (fun k => Bins.length_push) rfl rfl

/-! ## Allocating -/

/-- What a request does: a free block of the order asked for has been taken. -/
def Takes (L : Layout) (A : FreeMap L.maxOrder) (order page : Nat) (z' : Zone) : Prop :=
  2 ^ order ∣ page ∧ block page order ⊆ A.pages ∧ ∃ B, Represents L settled z' B ∧
    B.pages = A.pages \ block page order

/-- The page is the start of a block of a larger order. -/
theorem takes_of_order (hp : A.order p = some o) (hle : order ≤ o)
    (h : ∃ B, Represents L settled z' B ∧ B.pages = A.pages \ block p order) : Takes L A order p z' :=
  ⟨Nat.dvd_trans (Nat.pow_dvd_pow 2 hle) (A.aligned p o hp),
    fun _ hn => A.block_subset hp (block_mono hle hn), h⟩

theorem smallestFrom_eq (fuel cur : Nat) :
    smallestFrom z order mt fuel cur = (List.range' cur fuel).findSome? fun o =>
    (z.freeList (o, mt)).head?.map fun page =>
      (page, expand page order mt o (addNrFree (rmvPageOrder (listDel z page) page) o (-1))) := by
  induction fuel generalizing cur with
  | zero => rfl
  | succ fuel ih =>
    rw [smallestFrom, List.range'_succ, List.findSome?_cons]
    cases z.freeList (cur, mt) with
    | nil => exact ih (cur + 1)
    | cons q rest => rfl

theorem smallestFrom_takes (h : Represents L settled z A) {fuel cur : Nat} (hle : order ≤ cur)
    (hs : smallestFrom z order mt fuel cur = some (page, z')) : Takes L A order page z' := by
  rw [smallestFrom_eq] at hs
  obtain ⟨o, ho, hs⟩ := List.exists_of_findSome?_eq_some hs
  obtain ⟨q, hq, hs⟩ := map_eq_some_iff.mp hs
  obtain ⟨rfl, rfl⟩ := Prod.mk.inj hs
  have hle : order ≤ o := hle.trans (mem_range'_1.mp ho).1
  have hq : A.order q = some o := (h.listed q o).mpr ⟨mt, List.mem_of_head? hq⟩
  refine takes_of_order hq hle (take_represents h hq hle rfl rfl fun o' => ?_)
  show update z.nrFree o (z.nrFree o + -1) o' + settled o' = _
  by_cases e : o' = o
  · rw [e, update_self, if_pos rfl]; omega
  · rw [update_of_ne e, if_neg e]; omega

/-! ### Stealing -/

/-- **`move_freepages`** moves free blocks of the zone from list to list. -/
theorem moveFreepages_represents {endPage : Nat} (fuel : Nat) :
    ∀ (z : Zone) (page moved : Nat), Represents L owed z A →
    (∀ n, page ≤ n → n ≤ endPage → L.pfnValidWithin n = true → L.Owned n) →
    Represents L owed (moveFreepages L mt endPage fuel z page moved).2 A := by
  induction fuel with
  | zero => intro z page moved h _; exact h
  | succ fuel ih =>
    intro z page moved h hown
    unfold moveFreepages
    split_ifs with h1 h2 h3
    · exact ih z (page + 1) moved h fun n hn => hown n (by omega)
    · exact ih z (page + 1) moved h fun n hn => hown n (by omega)
    · have hpage := hown page le_rfl h1 (by simpa using h2)
      have hsome := h.flags page hpage
      rw [Bool.not_eq_false] at h3
      rw [h3, eq_comm, isSome_iff_exists] at hsome
      obtain ⟨o, ho⟩ := hsome
      simp only [h.orders page o ho]
      exact ih _ _ _ (h.move ho mt) fun n hn => hown n (Nat.le_trans (Nat.le_add_right ..) hn)
    · exact h

theorem moveFreepagesBlock_represents (h : Represents L owed z A) (hpage : L.Owned page) (mt : MigrateType) :
    Represents L owed (moveFreepagesBlock L z page mt).2 A := by
  unfold moveFreepagesBlock
  simp only
  split
  · exact h
  · rename_i hend
    obtain ⟨hlo, hhi⟩ := L.in_span page hpage.1 hpage.2
    have hdm := Nat.div_add_mod page (2 ^ L.pageblockOrder)
    refine moveFreepages_represents _ _ _ _ h fun n hn hle hvalid => ⟨hvalid, ?_⟩
    -- every page of the range is in the pageblock of `page`, and in the span of the zone
    have hn' : page - page % 2 ^ L.pageblockOrder ≤ n ∧ L.zoneStartPfn ≤ n := by
      split at hn <;> omega
    have hblock : n / 2 ^ L.pageblockOrder = page / 2 ^ L.pageblockOrder := by
      refine Nat.div_eq_of_lt_le ?_ ?_
      · rw [Nat.mul_comm]; omega
      · rw [Nat.mul_comm, Nat.mul_add, Nat.mul_one]; omega
    rw [L.one_zone n page hblock hn'.2 (by omega) hlo hhi hvalid hpage.1]
    exact hpage.2

theorem setPageblockMigratetype_represents (h : Represents L owed z A) :
    Represents L owed (setPageblockMigratetype L z page mt) A := h.congr rfl rfl rfl

theorem changePageblockRange_same (L : Layout) (mt : MigrateType) (nr : Nat) : ∀ (z : Zone) (page : Nat),
    (changePageblockRange L mt nr z page).freeList = z.freeList ∧
    (changePageblockRange L mt nr z page).page = z.page ∧
      (changePageblockRange L mt nr z page).nrFree = z.nrFree := by
  induction nr with
  | zero => intro z page; exact ⟨rfl, rfl, rfl⟩
  | succ nr ih => intro z page; exact ih _ _

theorem claimBlock_represents (h : Represents L owed z A) (hpage : L.Owned page)
    (currentOrder : Nat) (mt start : MigrateType) :
    Represents L owed (claimBlock L z page currentOrder mt start).2 A := by
  unfold claimBlock
  split
  · have hmove := moveFreepagesBlock_represents h hpage start
    simp only
    split
    · exact setPageblockMigratetype_represents hmove
    · exact hmove
  · exact h

variable {currentOrder : Nat} {start : MigrateType}

theorem stealBlock_takes (h : Represents L settled z A)
    (hp : A.order page = some currentOrder) (hle : order ≤ currentOrder) :
    Takes L A order page (stealBlock L z order page currentOrder mt start) := by
  -- the count is taken down first, so one block is owed until the block is off its list
  have howe : Represents L (fun o => if o = currentOrder then 1 else 0)
    (addNrFree z currentOrder (-1)) A := by
    refine { h with count := fun o => ?_ }
    show update z.nrFree currentOrder (z.nrFree currentOrder + -1) o + _ = (blocksOn z.freeList o : Int)
    rw [← h.count o]
    by_cases e : o = currentOrder
    · rw [e, update_self, if_pos rfl, settled]; omega
    · rw [update_of_ne e, if_neg e, settled]
  have hclaim :=
    claimBlock_represents howe (h.owned page (A.block_subset hp (mem_block_self ..))) currentOrder mt start
  refine takes_of_order hp hle ?_
  unfold stealBlock
  generalize claimBlock L (addNrFree z currentOrder (-1)) page currentOrder mt start = c at *
  obtain ⟨mt', z1⟩ := c
  simp only
  split
  · obtain ⟨hf, hpg, hnr⟩ := changePageblockRange_same L start
      (2 ^ (currentOrder - L.pageblockOrder)) (rmvPageOrder (listDel z1 page) page) page
    exact take_represents hclaim hp hle hf hpg fun o => by
      rw [hnr]; show z1.nrFree o + 0 = z1.nrFree o + _ - _; omega
  · exact take_represents hclaim hp hle rfl rfl fun o => by
      show z1.nrFree o + 0 = z1.nrFree o + _ - _; omega

theorem firstFallback_eq (types : List MigrateType) :
    firstFallback z currentOrder types = types.findSome? fun mt =>
    if mt = .reserve then none else (z.freeList (currentOrder, mt)).head?.map fun page => (page, mt) := by
  induction types with
  | nil => rfl
  | cons t types ih =>
    rw [firstFallback, List.findSome?_cons, ih]
    split
    · rfl
    · cases z.freeList (currentOrder, t) <;> rfl

theorem firstFallback_mem {types : List MigrateType}
    (h : firstFallback z currentOrder types = some (page, mt)) :
    page ∈ z.freeList (currentOrder, mt) := by
  rw [firstFallback_eq] at h
  obtain ⟨t, _, h⟩ := List.exists_of_findSome?_eq_some h
  split_ifs at h
  obtain ⟨q, hq, h⟩ := map_eq_some_iff.mp h
  obtain ⟨rfl, rfl⟩ := Prod.mk.inj h
  exact List.mem_of_head? hq

theorem fallbackBelow_eq (n : Nat) :
    fallbackBelow L z order start n = (List.range n).reverse.findSome? fun o =>
    if order ≤ o then (firstFallback z o (fallbacks start)).map fun r => (r.1,
      stealBlock L z order r.1 o r.2 start)
    else none := by
  induction n with
  | zero => rfl
  | succ n ih =>
    rw [fallbackBelow, range_succ, reverse_append, reverse_singleton, singleton_append,
      List.findSome?_cons]
    split
    · cases firstFallback z n (fallbacks start) with
      | none => exact ih
      | some r => rfl
    · refine (List.findSome?_eq_none_iff.mpr fun o ho => if_neg ?_).symm
      have := mem_range.mp (mem_reverse.mp ho)
      omega

theorem fallbackBelow_takes (h : Represents L settled z A) {n : Nat}
    (hs : fallbackBelow L z order start n = some (page, z')) : Takes L A order page z' := by
  rw [fallbackBelow_eq] at hs
  obtain ⟨o, _, hs⟩ := List.exists_of_findSome?_eq_some hs
  split_ifs at hs with hle
  obtain ⟨⟨q, mt⟩, hf, hs⟩ := map_eq_some_iff.mp hs
  obtain ⟨rfl, rfl⟩ := Prod.mk.inj hs
  exact stealBlock_takes h ((h.listed q o).mpr ⟨mt, firstFallback_mem hf⟩) hle

/-- **`__rmqueue`** -/
theorem rmqueue_takes (h : Represents L settled z A)
    (hs : rmqueue L z order mt = some (page, z')) : Takes L A order page z' := by
  unfold rmqueue at hs
  cases h1 : rmqueueSmallest L z order mt with
  | some r =>
    rw [h1] at hs
    exact smallestFrom_takes h le_rfl (h1.trans hs)
  | none =>
    rw [h1] at hs
    split_ifs at hs with hmt
    cases h2 : rmqueueFallback L z order mt with
    | some r =>
      rw [h2] at hs
      exact fallbackBelow_takes h (h2.trans hs)
    | none =>
      rw [h2] at hs
      exact smallestFrom_takes h le_rfl hs

/-! ## `NULL` -/

theorem firstFallback_eq_none (types : List MigrateType) : firstFallback z currentOrder types = none ↔
      ∀ mt ∈ types, mt ≠ .reserve → z.freeList (currentOrder, mt) = [] := by
  simp [firstFallback_eq]

theorem fallbackBelow_eq_none (n : Nat) : fallbackBelow L z order start n = none ↔
      ∀ o', order ≤ o' → o' < n → ∀ mt ∈ fallbacks start, mt ≠ .reserve → z.freeList (o', mt) = [] := by
  simp only [fallbackBelow_eq, List.findSome?_eq_none_iff, mem_reverse, mem_range, ← firstFallback_eq_none,
    ite_eq_right_iff, map_eq_none_iff]
  grind

/-- The lists that a request for this type may use. -/
def searched : MigrateType → List MigrateType
  | .reserve => [.reserve]
  | .isolate => [.isolate, .unmovable, .reserve]
  | _ => [.unmovable, .reclaimable, .movable, .reserve]

theorem rmqueueSmallest_eq_none : rmqueueSmallest L z order mt = none ↔
    ∀ o', order ≤ o' → o' < L.maxOrder → z.freeList (o', mt) = [] := by
  rw [rmqueueSmallest, smallestFrom_eq, List.findSome?_eq_none_iff]
  simp only [mem_range'_1, map_eq_none_iff, List.head?_eq_none_iff]
  grind

/-- **A request fails** if and only if the lists it may use have no block that is large enough. -/
theorem rmqueue_eq_none : rmqueue L z order mt = none ↔
    ∀ mt' ∈ searched mt, ∀ o', order ≤ o' → o' < L.maxOrder → z.freeList (o', mt') = [] := by
  have hstep : rmqueue L z order mt = none ↔ rmqueueSmallest L z order mt = none ∧
      (mt ≠ .reserve → rmqueueFallback L z order mt = none ∧ rmqueueSmallest L z order .reserve = none) := by
    unfold rmqueue
    cases h1 : rmqueueSmallest L z order mt with
    | some r => simp
    | none =>
      by_cases hmt : mt = .reserve
      · simp [hmt]
      · cases h2 : rmqueueFallback L z order mt <;> simp [hmt]
  rw [hstep, rmqueueSmallest_eq_none, rmqueueSmallest_eq_none, rmqueueFallback, fallbackBelow_eq_none]
  -- for each type, the lists that are searched one after the other are those of `searched`
  cases mt <;> simp only [fallbacks, searched, forall_mem_cons, not_mem_nil] <;> grind

/-! ## Consistent zones -/

/-- There is a free block of order `o` at `p`. -/
def IsFree (z : Zone) (o p : Nat) : Prop := ∃ mt, p ∈ z.freeList (o, mt)

/-- The pages of the free blocks. -/
def freePages (z : Zone) : Set Nat := {n | ∃ p o, IsFree z o p ∧ n ∈ block p o}

/-- **Consistency**: the free blocks are aligned and disjoint, every block is on one list, `PageBuddy` and
    `page_order` mark exactly their heads, `nr_free` counts them, and free buddies have been merged. -/
structure Consistent (L : Layout) (z : Zone) : Prop where
  order_lt : ∀ o p, IsFree z o p → o < L.maxOrder
  aligned : ∀ o p, IsFree z o p → 2 ^ o ∣ p
  owned : ∀ n ∈ freePages z, L.Owned n
  disjoint : ∀ o p o' q, IsFree z o p → IsFree z o' q → p ≠ q → Disjoint (block p o) (block q o')
  lists : Bins.Exclusive z.freeList
  heads : ∀ p, L.Owned p → ((z.page p).buddy = true ↔ ∃ o, IsFree z o p)
  orders : ∀ o p, IsFree z o p → (z.page p).priv = o
  count : ∀ o, z.nrFree o = blocksOn z.freeList o
  merged : ∀ o p, o + 1 < L.maxOrder → IsFree z o p → ¬ IsFree z o (buddyOf o p)

theorem Represents.pages_eq (h : Represents L settled z A) : A.pages = freePages z := by
  ext n
  simp only [FreeMap.pages, freePages, IsFree, Set.mem_ofPred_eq, h.listed]

theorem Represents.consistent (h : Represents L settled z A) : Consistent L z := by
  have hfree : ∀ o p, IsFree z o p ↔ A.order p = some o := fun o p => (h.listed p o).symm
  refine ⟨fun o p hp => A.order_lt p o ((hfree o p).mp hp), fun o p hp => A.aligned p o ((hfree o p).mp hp),
    fun n hn => h.owned n (h.pages_eq ▸ hn),
    fun o p o' q hp hq => A.disjoint p o q o' ((hfree o p).mp hp) ((hfree o' q).mp hq), h.bins,
    fun p hp => ?_, fun o p hp => h.orders p o ((hfree o p).mp hp), fun o => ?_, fun o p hlt hp hb => ?_⟩
  · rw [h.flags p hp, isSome_iff_exists]
    simp only [hfree]
  · rw [← h.count o, settled, Int.add_zero]
  · exact A.merged p o ((hfree o p).mp hp) hlt ((hfree o _).mp hb)

open Classical in
theorem Consistent.order_iff (h : Consistent L z) :
    (if ∃ o, IsFree z o p then some (z.page p).priv else none) =
    some o ↔ IsFree z o p := by
  by_cases he : ∃ o, IsFree z o p
  · obtain ⟨o', ho'⟩ := he
    rw [if_pos ⟨o', ho'⟩, h.orders o' p ho', some_inj]
    refine ⟨fun e => e ▸ ho', fun ho => ?_⟩
    rw [← h.orders o' p ho', h.orders o p ho]
  · rw [if_neg he]
    exact ⟨nofun, fun ho => absurd ⟨o, ho⟩ he⟩

open Classical in
/-- The map of the free blocks of a consistent zone. -/
noncomputable def Consistent.freeMap (h : Consistent L z) : FreeMap L.maxOrder where
  order p := if ∃ o, IsFree z o p then some (z.page p).priv else none
  order_lt p o hp := h.order_lt o p (h.order_iff.mp hp)
  aligned p o hp := h.aligned o p (h.order_iff.mp hp)
  disjoint p o q o' hp hq := h.disjoint o p o' q (h.order_iff.mp hp) (h.order_iff.mp hq)
  merged p o hp hlt hb := h.merged o p hlt (h.order_iff.mp hp) (h.order_iff.mp hb)

theorem Consistent.represents (h : Consistent L z) : Represents L settled z h.freeMap := by
  have hiff : ∀ p o, h.freeMap.order p = some o ↔ IsFree z o p := fun p o => h.order_iff
  refine ⟨h.lists, hiff, fun p hp => ?_, fun p o hp => h.orders o p ((hiff p o).mp hp), fun n hn => ?_,
    fun o => ?_⟩
  · rw [Bool.eq_iff_iff, h.heads p hp, isSome_iff_exists]
    simp only [hiff]
  · obtain ⟨p, o, hp, hn⟩ := hn
    exact h.owned n ⟨p, o, (hiff p o).mp hp, hn⟩
  · rw [h.count o, settled, Int.add_zero]

/-! ## Runs -/

/-- A zone, with the pages that are free and those that are allocated. -/
structure Sys where
  zone : Zone
  free : Set Nat
  allocated : Set Nat

/-- A block is allocated, a request fails, or allocated pages are freed. -/
inductive Step (L : Layout) : Sys → Sys → Prop
  | alloc (s : Sys) (order : Nat) (mt : MigrateType) (page : Nat) (z : Zone) (hlt : order < L.maxOrder)
      (h : rmqueue L s.zone order mt = some (page, z)) :
      Step L s ⟨z, s.free \ block page order, s.allocated ∪ block page order⟩
  | null (s : Sys) (order : Nat) (mt : MigrateType) (hlt : order < L.maxOrder)
      (h : rmqueue L s.zone order mt = none) : Step L s s
  | free (s : Sys) (page order : Nat) (mt : MigrateType) (hlt : order < L.maxOrder) (hal : 2 ^ order ∣ page)
      (h : block page order ⊆ s.allocated) :
      Step L s ⟨freeOnePage L s.zone page order mt, s.free ∪ block page order, s.allocated \ block page order⟩

/-- A consistent zone; some of its pages that are not free are allocated. -/
structure Start (L : Layout) (s : Sys) : Prop where
  zone : Consistent L s.zone
  free : s.free = freePages s.zone
  owned : ∀ n ∈ s.allocated, L.Owned n
  disjoint : Disjoint s.allocated s.free

/-- What holds in every state of a run. -/
structure RunOk (L : Layout) (s : Sys) : Prop where
  zone : ∃ A, Represents L settled s.zone A ∧ A.pages = s.free
  owned : ∀ n ∈ s.allocated, L.Owned n
  disjoint : Disjoint s.allocated s.free

theorem runOk_step (s s' : Sys) (h : RunOk L s) (hs : Step L s s') : RunOk L s' := by
  obtain ⟨⟨A, hA, hpages⟩, howned, hdis⟩ := h
  cases hs with
  | alloc order mt page z hlt hr =>
    obtain ⟨hal, hsub, B, hB, hBpages⟩ := rmqueue_takes hA hr
    refine ⟨⟨B, hB, by rw [hBpages, hpages]⟩, ?_, ?_⟩
    · rintro n (hn | hn)
      · exact howned n hn
      · exact hA.owned n (hsub hn)
    · exact Set.disjoint_union_left.mpr ⟨Set.disjoint_of_subset_right Set.sdiff_subset hdis,
        disjoint_sdiff_self_right⟩
  | null order mt hlt hr => exact ⟨⟨A, hA, hpages⟩, howned, hdis⟩
  | free page order mt hlt hal hsub =>
    have hd : Disjoint (block page order) A.pages := by
      rw [hpages]
      exact Set.disjoint_of_subset_left hsub hdis
    obtain ⟨B, hB, hBpages⟩ := freeOnePage_represents hA hlt hal hd (fun n hn => howned n (hsub hn)) mt
    refine ⟨⟨B, hB, by rw [hBpages, hpages]⟩, fun n hn => howned n hn.1, ?_⟩
    exact Set.disjoint_union_right.mpr ⟨Set.disjoint_of_subset_left Set.sdiff_subset hdis,
      disjoint_sdiff_self_left⟩

/-- **The buddy allocator.**  In every run of allocations and releases from a consistent zone: the zone is
    consistent, its free pages are the initial ones without those that have been allocated and with
    those that have been freed, a request gets an aligned block of free pages, and fails if and only
    if the lists that it may use have no block of its order or a larger one. -/
theorem zone_consistent {s : Sys} (hs : Run.Reachable (Start L) (Step L) s) :
    Consistent L s.zone ∧ freePages s.zone = s.free ∧ ∀ order, order < L.maxOrder → ∀ mt,
        (∀ page z, rmqueue L s.zone order mt = some (page, z) →
          2 ^ order ∣ page ∧ block page order ⊆ s.free) ∧
        (rmqueue L s.zone order mt = none ↔
          ¬ ∃ mt' ∈ searched mt, ∃ o p, order ≤ o ∧ p ∈ s.zone.freeList (o, mt')) := by
  have h : RunOk L s := Run.invariant_of_step
    (fun s h => ⟨⟨_, h.zone.represents, h.zone.represents.pages_eq.trans h.free.symm⟩, h.owned, h.disjoint⟩)
    runOk_step hs
  obtain ⟨⟨A, hA, hpages⟩, _, _⟩ := h
  have hcons := hA.consistent
  refine ⟨hcons, hA.pages_eq.symm.trans hpages, fun order hlt mt => ⟨fun page z hr => ?_, ?_⟩⟩
  · obtain ⟨hal, hsub, _⟩ := rmqueue_takes hA hr
    exact ⟨hal, hpages ▸ hsub⟩
  · rw [rmqueue_eq_none]
    constructor
    · rintro h ⟨mt', hmt', o, p, hle, hp⟩
      rw [h mt' hmt' o hle (hcons.order_lt o p ⟨mt', hp⟩)] at hp
      nomatch hp
    · intro h mt' hmt' o hle _
      exact List.eq_nil_iff_forall_not_mem.mpr fun p hp => h ⟨mt', hmt', o, p, hle, hp⟩

/-- **No page is lost or handed out twice.**  In every run from a consistent zone no allocated page is on
    a free list, and the allocated and the free pages together are those of the start. -/
theorem pages_conserved {s s' : Sys} (hs : Start L s) (h : Relation.ReflTransGen (Step L) s s') :
    Disjoint s'.allocated (freePages s'.zone) ∧
    s'.allocated ∪ freePages s'.zone = s.allocated ∪ freePages s.zone := by
  have hinv : RunOk L s' ∧ s'.allocated ∪ s'.free = s.allocated ∪ s.free := by
    induction h with
    | refl => exact ⟨⟨⟨_, hs.zone.represents, hs.zone.represents.pages_eq.trans hs.free.symm⟩, hs.owned, hs.disjoint⟩, rfl⟩
    | @tail t _ _ hstep ih =>
      refine ⟨runOk_step _ _ ih.1 hstep, .trans ?_ ih.2⟩
      cases hstep with
      | alloc _ _ _ _ _ hr =>
        obtain ⟨A, hA, hpages⟩ := ih.1.zone
        rw [Set.union_assoc, Set.union_sdiff_cancel (hpages ▸ (rmqueue_takes hA hr).2.1)]
      | null => rfl
      | free _ _ _ _ _ hsub => rw [Set.union_comm t.free, ← Set.union_assoc, Set.sdiff_union_of_subset hsub]
  obtain ⟨A, hA, hpages⟩ := hinv.1.zone
  rw [← hA.pages_eq, hpages, ← hs.free]
  exact ⟨hinv.1.disjoint, hinv.2⟩

/-- A zone of one page. -/
def oneLayout : Layout where
  maxOrder := 11
  pageblockOrder := 10
  pageGroupByMobilityDisabled := false
  pfnValidWithin n := n == 0
  pageZoneId _ := 0
  zoneId := 0
  zoneStartPfn := 0
  spannedPages := 1
  in_span n h _ := by
    rw [beq_iff_eq] at h
    omega
  one_zone _ _ _ _ _ _ _ _ _ := rfl

/-- The page is free, and on a list of this type. -/
def oneFree (mt : MigrateType) : Zone where
  page n := if n = 0 then ⟨true, 0⟩ else ⟨false, 0⟩
  freeList k := if k = (0, mt) then [0] else []
  nrFree o := if o = 0 then 1 else 0
  pageblockType _ := mt

theorem mem_oneFree {k : Nat × MigrateType} : p ∈ (oneFree mt).freeList k ↔ k = (0, mt) ∧ p = 0 := by
  by_cases hk : k = (0, mt) <;> simp [oneFree, hk]

theorem isFree_oneFree : IsFree (oneFree mt) o p ↔ o = 0 ∧ p = 0 := by
  simp only [IsFree, mem_oneFree, Prod.mk.injEq]
  exact ⟨fun ⟨_, ⟨h1, _⟩, h2⟩ => ⟨h1, h2⟩, fun ⟨h1, h2⟩ => ⟨mt, ⟨h1, rfl⟩, h2⟩⟩

theorem oneFree_consistent (mt : MigrateType) : Consistent oneLayout (oneFree mt) := by
  refine ⟨?_, ?_, ?_, ?_, ⟨fun k => ?_, fun k k' x hx hx' => ?_⟩, fun p hp => ?_, ?_, fun o => ?_, ?_⟩
  · rintro o p h
    rw [(isFree_oneFree.mp h).1]
    decide
  · rintro o p h
    rw [(isFree_oneFree.mp h).2]
    exact Nat.dvd_zero _
  · rintro n ⟨p, o, h, hn⟩
    obtain ⟨rfl, rfl⟩ := isFree_oneFree.mp h
    obtain rfl : n = 0 := Nat.lt_one_iff.mp hn.2
    exact ⟨rfl, rfl⟩
  · rintro o p o' q hp hq hne
    exact absurd ((isFree_oneFree.mp hp).2.trans (isFree_oneFree.mp hq).2.symm) hne
  · simp only [oneFree]
    split_ifs <;> simp
  · exact (mem_oneFree.mp hx).1.trans (mem_oneFree.mp hx').1.symm
  · simp only [isFree_oneFree]
    by_cases h : p = 0 <;> simp [oneFree, h]
  · rintro o p h
    obtain ⟨rfl, rfl⟩ := isFree_oneFree.mp h
    rfl
  · simp only [oneFree, blocksOn, Prod.mk.injEq]
    cases mt <;> by_cases ho : o = 0 <;> simp [ho]
  · rintro o p _ h hb
    obtain ⟨rfl, rfl⟩ := isFree_oneFree.mp h
    exact absurd (isFree_oneFree.mp hb).2 (by decide)

theorem oneFree_start (mt : MigrateType) :
    Run.Reachable (Start oneLayout) (Step oneLayout) ⟨oneFree mt, freePages (oneFree mt), ∅⟩ :=
  ⟨_, ⟨oneFree_consistent mt, rfl, fun n hn => absurd hn (Set.notMem_empty n), Set.empty_disjoint _⟩, .refl⟩

/-- A zone of eight pages. -/
def eightLayout : Layout where
  maxOrder := 4
  pageblockOrder := 3
  pageGroupByMobilityDisabled := false
  pfnValidWithin n := decide (n < 8)
  pageZoneId _ := 0
  zoneId := 0
  zoneStartPfn := 0
  spannedPages := 8
  in_span n h _ := by
    rw [decide_eq_true_eq] at h
    omega
  one_zone _ _ _ _ _ _ _ _ _ := rfl

/-- The pages 2 and 3 are free, as one block; the others are allocated. -/
def pairFree : Zone where
  page n := if n = 2 then ⟨true, 1⟩ else ⟨false, 0⟩
  freeList k := if k = (1, .movable) then [2] else []
  nrFree o := if o = 1 then 1 else 0
  pageblockType _ := .movable

theorem mem_pairFree {k : Nat × MigrateType} : p ∈ pairFree.freeList k ↔ k = (1, .movable) ∧ p = 2 := by
  by_cases hk : k = (1, .movable) <;> simp [pairFree, hk]

theorem isFree_pairFree : IsFree pairFree o p ↔ o = 1 ∧ p = 2 := by
  simp only [IsFree, mem_pairFree, Prod.mk.injEq]
  constructor
  · rintro ⟨_, ⟨h1, _⟩, h2⟩
    exact ⟨h1, h2⟩
  · rintro ⟨h1, h2⟩
    exact ⟨.movable, ⟨h1, rfl⟩, h2⟩

theorem mem_freePages_pairFree {n : Nat} : n ∈ freePages pairFree ↔ n = 2 ∨ n = 3 := by
  constructor
  · rintro ⟨p, o, h, hn⟩
    obtain ⟨rfl, rfl⟩ := isFree_pairFree.mp h
    obtain ⟨h1, h2⟩ := hn
    omega
  · rintro (rfl | rfl)
    · exact ⟨2, 1, isFree_pairFree.mpr ⟨rfl, rfl⟩, by decide, by decide⟩
    · exact ⟨2, 1, isFree_pairFree.mpr ⟨rfl, rfl⟩, by decide, by decide⟩

theorem pairFree_consistent : Consistent eightLayout pairFree := by
  refine ⟨?_, ?_, ?_, ?_, ⟨fun k => ?_, fun k k' x hx hx' => ?_⟩, fun p hp => ?_, ?_, fun o => ?_, ?_⟩
  · rintro o p h
    rw [(isFree_pairFree.mp h).1]
    decide
  · rintro o p h
    obtain ⟨rfl, rfl⟩ := isFree_pairFree.mp h
    decide
  · rintro n hn
    rcases mem_freePages_pairFree.mp hn with rfl | rfl <;> exact ⟨rfl, rfl⟩
  · rintro o p o' q hp hq hne
    exact absurd ((isFree_pairFree.mp hp).2.trans (isFree_pairFree.mp hq).2.symm) hne
  · simp only [pairFree]
    split_ifs <;> simp
  · exact (mem_pairFree.mp hx).1.trans (mem_pairFree.mp hx').1.symm
  · simp only [isFree_pairFree]
    by_cases h : p = 2 <;> simp [pairFree, h]
  · rintro o p h
    obtain ⟨rfl, rfl⟩ := isFree_pairFree.mp h
    rfl
  · simp only [pairFree, blocksOn, Prod.mk.injEq]
    by_cases ho : o = 1 <;> simp [ho]
  · rintro o p _ h hb
    obtain ⟨rfl, rfl⟩ := isFree_pairFree.mp h
    exact absurd (isFree_pairFree.mp hb).2 (by decide)

theorem pairFree_start : Start eightLayout ⟨pairFree, freePages pairFree, ∅⟩ :=
  ⟨pairFree_consistent, rfl, fun n hn => absurd hn (Set.notMem_empty n), Set.empty_disjoint _⟩

/-- A page of the pair is taken, which splits it, and freed again, which merges it. -/
theorem zone_consistent_sample : ∃ s : Sys, Run.Reachable (Start eightLayout) (Step eightLayout) s ∧
    s.zone.freeList (1, .movable) = [2] ∧ Consistent eightLayout s.zone := by
  have h0 : Run.Reachable (Start eightLayout) (Step eightLayout) ⟨pairFree, freePages pairFree, ∅⟩ :=
    ⟨_, pairFree_start, .refl⟩
  have h1 := h0.tail (.alloc _ 0 .movable 2 _ (by decide) rfl)
  have h2 := h1.tail (.free _ 2 0 .movable (by decide) (by decide) Set.subset_union_right)
  exact ⟨_, h2, by decide, (zone_consistent h2).1⟩

/-- The split leaves page 3 free. -/
theorem pages_conserved_sample : ∃ s : Sys, s.allocated = ∅ ∪ block 2 0 ∧
    s.zone.freeList (0, .movable) = [3] ∧ Disjoint s.allocated (freePages s.zone) ∧
    s.allocated ∪ freePages s.zone = ∅ ∪ freePages pairFree :=
  ⟨_, rfl, by decide, pages_conserved pairFree_start (.single (.alloc _ 0 .movable 2 _ (by decide) rfl))⟩

/-- An isolated block is free, but no ordinary request gets it. -/
theorem null_with_free_block : ∃ s : Sys, Run.Reachable (Start oneLayout) (Step oneLayout) s ∧
    IsFree s.zone 0 0 ∧ rmqueue oneLayout s.zone 0 .movable = none :=
  ⟨_, oneFree_start .isolate, isFree_oneFree.mpr ⟨rfl, rfl⟩, rfl⟩

end LinuxKernel.PageAlloc
