/-
  Tagging a range of the radix tree in batches: `radix_tree_range_tag_if_tagged` (`lib/radix-tree.c`) and
  the loop of `tag_pages_for_writeback` (`mm/page-writeback.c`) around it.

  1. **One call** — `Scope` are the indices that a call has scanned, told from what it leaves in
     `*first_indexp`.  `rangeTag_scope`: exactly the indices of the scope that carry `iftag` carry `settag`
     afterwards besides those that did before, and the call returns their number.

  2. **Many calls** — the caller goes on from `*first_indexp`.  It may not simply wait for a call that
     returns fewer than it asked for: behind `ULONG_MAX` the index WRAPS to 0, and the range is scanned
     again and again (`repeats_for_ever`).  `tag_pages_for_writeback` looks at the index too.

  **Main result** (`rangeTag_exact`) — both, for every tree that a run reaches.
-/
import LinuxKernel.Lib.RadixTreeRun

namespace LinuxKernel.RadixTree

open LinuxKernel.Run LinuxKernel.Trie
variable {α : Type} {g : Geometry} {r : Root α} {m : TaggedMap α} {iftag settag : Tag}
  {first last nr j n : Nat} {res : RangeTagged α}

/-! ## One call -/

/-- Index `j` of the range lies in front of `next`, which is 0 when it has wrapped. -/
def Scope (first last next j : Nat) : Prop := first ≤ j ∧ j ≤ last ∧ (j < next ∨ next = 0)

instance (first last next j : Nat) : Decidable (Scope first last next j) :=
    inferInstanceAs (Decidable (_ ∧ _))

theorem CameTo.scope_iff (h : CameTo g m first last nr iftag res n) (hj : j < 2 ^ g.indexBits) :
    Scope first last res.firstIndex j ↔ first ≤ j ∧ j ≤ last ∧ j < n := by
  have hpos := h.pos
  rw [Scope, h.index_eq]
  rcases Nat.lt_or_eq_of_le h.le_bits with hlt | heq
  · rw [Nat.mod_eq_of_lt hlt]; omega
  · rw [heq, Nat.mod_self]; omega

/-- What a call does, in terms of the map the tree stands for. -/
structure OneCall (g : Geometry) (m m' : TaggedMap α) (first last nr : Nat) (iftag settag : Tag)
    (res : RangeTagged α) : Prop where
  represents : Represents g res.root m'
  item : m'.item = m.item
  tag : ∀ tag j, j < 2 ^ g.indexBits → m'.tag tag j = (m.tag tag j ||
    (tag == settag && m.tag iftag j && decide (Scope first last res.firstIndex j)))
  tagged : res.tagged = count (2 ^ g.indexBits) fun j =>
    decide (Scope first last res.firstIndex j) && m.tag iftag j
  tagged_le : res.tagged ≤ nr
  firstIndex_lt : res.firstIndex < 2 ^ g.indexBits
  /-- Everything is in the scope when the call has found fewer, or has wrapped. -/
  complete : res.tagged < nr ∨ res.firstIndex = 0 → ∀ j, first ≤ j → j ≤ last →
    m.tag iftag j = true → Scope first last res.firstIndex j
  /-- Otherwise the call has come further. -/
  further : 0 < res.tagged → res.firstIndex ≠ 0 → first < res.firstIndex

theorem Represents.oneCall (hr : Represents g r m) (hfirst : first < 2 ^ g.indexBits)
    (hlast : last < 2 ^ g.indexBits) (hnr : 0 < nr) (iftag settag : Tag) :
    ∃ res m', Fuel.Returns (fun fuel => radixTreeRangeTagIfTagged g fuel r first last nr iftag settag) res ∧
      OneCall g m m' first last nr iftag settag res := by
  obtain ⟨res, hret, hrep, hcame⟩ := @Represents.rangeTag _ g r m hr first last nr hlast iftag settag
  obtain ⟨n, hc⟩ := hcame hfirst hnr
  have hbits : ∀ {j tag}, m.tag tag j = true → j < 2 ^ g.indexBits := fun hj => (hr.lt_of_tag hj).2
  -- of the indices with `iftag`, those in front of `n` are in the scope
  have hscope : ∀ j, m.tag iftag j = true → (Scope first last res.firstIndex j ↔ first ≤ j ∧ j < n) :=
    fun j hj => by
    rw [hc.scope_iff (hbits hj)]
    have := hc.wanted_iff hj
    omega
  have htagged : res.tagged =
      count (2 ^ g.indexBits) fun j => decide (Scope first last res.firstIndex j) && m.tag iftag j := by
    rw [hc.tagged_eq, TaggedMap.rank, count_eq_of_none (n := n) hc.le_bits fun j h₁ h2 => ?_]
    · refine count_congr fun j hj => ?_
      cases ht : m.tag iftag j with
      | false => simp
      | true => simp [hscope j ht, hj]
    · cases ht : m.tag iftag j with
      | false => simp
      | true => simp [hscope j ht, not_lt.mpr h₁]
  refine ⟨res, _, hret, hrep, rfl, fun tag j hj => ?_, htagged, hc.tagged_le, ?_, fun hstop j h₁ h2 hj => ?_,
    fun hpos hne => ?_⟩
  · show (_ || (_ && _ && _)) = _
    cases ht : m.tag iftag j with
    | false => simp
    | true => rw [decide_eq_decide.mpr ((hc.wanted_iff ht).trans (hscope j ht).symm)]
  · rw [hc.index_eq]
    exact Nat.mod_lt _ (Nat.two_pow_pos _)
  · rcases hstop with hlt | h0
    · refine (hscope j hj).mpr ⟨h₁, not_le.mp fun hge => ?_⟩
      exact Bool.false_ne_true ((hc.stop hlt j hge h2).symm.trans hj)
    · exact ⟨h₁, h2, .inr h0⟩
  · by_contra hnot
    refine hpos.ne' (htagged.trans (count_eq_zero_iff.mpr fun j hj => ?_))
    rw [decide_eq_false, Bool.false_and]
    rintro ⟨h₁, h2, h3⟩
    omega

/-! ## Many calls -/

/-- Calls that go on from `*first_indexp` until one returns fewer than `nr`. -/
inductive Batches (g : Geometry) (last nr : Nat) (iftag settag : Tag) : Root α → Nat → Root α → Prop
  | done {r : Root α} {first : Nat} {res : RangeTagged α} :
      Fuel.Returns (fun fuel => radixTreeRangeTagIfTagged g fuel r first last nr iftag settag) res →
      res.tagged < nr → Batches g last nr iftag settag r first res.root
  | more {r r' : Root α} {first : Nat} {res : RangeTagged α} :
      Fuel.Returns (fun fuel => radixTreeRangeTagIfTagged g fuel r first last nr iftag settag) res →
      ¬ res.tagged < nr → Batches g last nr iftag settag res.root res.firstIndex r' →
      Batches g last nr iftag settag r first r'

/-- The loop of `tag_pages_for_writeback`, with the size of a batch and the tags as arguments. -/
def tagPagesForWriteback (g : Geometry) (last nr : Nat) (iftag settag : Tag) :
    Nat → Root α → Nat → Option (Root α)
  | 0, _, _ => none
  | fuel + 1, root, start =>
      match radixTreeRangeTagIfTagged g fuel root start last nr iftag settag with
      | none => none
      | some res =>
          if nr ≤ res.tagged ∧ res.firstIndex ≠ 0 then
            tagPagesForWriteback g last nr iftag settag fuel res.root res.firstIndex
          else some res.root

/-- **The loop ends**, with every index of the range that carries `iftag` tagged.  The induction is on how
    much of the index space is left. -/
theorem Represents.tagPages (hlast : last < 2 ^ g.indexBits) (hnr : 0 < nr) (iftag settag : Tag) (k : Nat) :
    ∀ {r : Root α} {m : TaggedMap α} {first : Nat}, Represents g r m →
    first < 2 ^ g.indexBits → 2 ^ g.indexBits - first ≤ k →
    ∃ r' m', Fuel.Returns (fun fuel => tagPagesForWriteback g last nr iftag settag fuel r first) r' ∧
      Represents g r' m' ∧ (∀ tag j, m.tag tag j = true → m'.tag tag j = true) ∧
      ∀ j, first ≤ j → j ≤ last → m.tag iftag j = true → m'.tag settag j = true := by
  induction k with
  | zero => intro r m first _ hf hk; omega
  | succ k ih =>
    intro r m first hr hf hk
    obtain ⟨res, m1, hret, hcall⟩ := hr.oneCall hf hlast hnr iftag settag
    have hbits : ∀ {j tag}, m.tag tag j = true → j < 2 ^ g.indexBits := fun hj => (hr.lt_of_tag hj).2
    have hkeep : ∀ tag j, m.tag tag j = true → m1.tag tag j = true := fun tag j hj => by
      rw [hcall.tag tag j (hbits hj), hj, Bool.true_or]
    have hset : ∀ j, m.tag iftag j = true → Scope first last res.firstIndex j → m1.tag settag j = true :=
      fun j hj hs => by simp [hcall.tag settag j (hbits hj), hj, hs]
    by_cases hmore : nr ≤ res.tagged ∧ res.firstIndex ≠ 0
    · have hfurther := hcall.further (by omega) hmore.2
      obtain ⟨r', m', hret', hr', hkeep', hset'⟩ := ih hcall.represents hcall.firstIndex_lt (by omega)
      refine ⟨r', m', hret.within hret' fun fuel hfuel => ?_, hr',
        fun tag j hj => hkeep' tag j (hkeep tag j hj),
        fun j h₁ h2 hj => ?_⟩
      · rw [tagPagesForWriteback, hfuel]
        exact if_pos hmore
      · by_cases hs : res.firstIndex ≤ j
        · exact hset' j hs h2 (hkeep iftag j hj)
        · exact hkeep' settag j (hset j hj ⟨h₁, h2, .inl (not_le.mp hs)⟩)
    · refine ⟨res.root, m1, hret.within (Fuel.returns_const fun _ => rfl) fun fuel hfuel => ?_,
        hcall.represents, hkeep, fun j h₁ h2 hj => hset j hj (hcall.complete ?_ j h₁ h2 hj)⟩
      · rw [tagPagesForWriteback, hfuel]
        exact if_neg hmore
      · omega

/-- **Tagging a range is exact, and repeating it complete.**  For every tree that a run reaches: exactly
    the scanned indices that carry `iftag` get `settag`, no item and no other tag changes, the call
    returns the number of these indices, which is not above `nr`, and every interior tag is still set
    exactly when one below it is; and calls from `*first_indexp` on, until one returns fewer than `nr` or
    the index has wrapped, end and tag every index of the range that carries `iftag`. -/
theorem rangeTag_exact {s : Sys α} (h : Reachable Start (Step g) s) (hfirst : first < 2 ^ g.indexBits)
    (hlast : last < 2 ^ g.indexBits) (hnr : 0 < nr) (iftag settag : Tag) :
    (∃ res, Fuel.Returns (fun fuel =>
      radixTreeRangeTagIfTagged g fuel s.root first last nr iftag settag) res ∧
      (∀ j, j < 2 ^ g.indexBits → radixTreeLookup g res.root j = radixTreeLookup g s.root j ∧
        ∀ tag, radixTreeTagGet g res.root j tag = (radixTreeTagGet g s.root j tag ||
          (tag == settag && radixTreeTagGet g s.root j iftag &&
            decide (Scope first last res.firstIndex j)))) ∧
      res.tagged = count (2 ^ g.indexBits) (fun j =>
        decide (Scope first last res.firstIndex j) && radixTreeTagGet g s.root j iftag) ∧
      res.tagged ≤ nr ∧ Ok (shape g α) res.root.height (rootTags res.root) res.root.rnode) ∧
    ∃ root', Fuel.Returns (fun fuel => tagPagesForWriteback g last nr iftag settag fuel s.root first) root' ∧
      ∀ j, first ≤ j → j ≤ last → radixTreeTagGet g s.root j iftag = true →
        radixTreeTagGet g root' j settag = true := by
  have hs : Sound g s := invariant_of_step (fun _ hs => sound_of_start hs) sound_of_step h
  have hr := hs.represents
  refine ⟨?_, ?_⟩
  · obtain ⟨res, m', hret, hc⟩ := hr.oneCall hfirst hlast hnr iftag settag
    refine ⟨res, hret, fun j hj => ⟨?_, fun tag => ?_⟩, ?_, hc.tagged_le, hc.represents.ok⟩
    · rw [hc.represents.lookup_eq hj, hr.lookup_eq hj, hc.item]
    · rw [hc.represents.tagGet_eq hj, hr.tagGet_eq hj, hr.tagGet_eq hj, hc.tag tag j hj]
    · rw [hc.tagged]
      exact count_congr fun j hj => by rw [hr.tagGet_eq hj]
  · obtain ⟨root', m', hret, hr', -, hset⟩ := Represents.tagPages hlast hnr iftag settag _ hr hfirst le_rfl
    refine ⟨root', hret, fun j h₁ h2 hj => ?_⟩
    have hb : j < 2 ^ g.indexBits := h2.trans_lt hlast
    rw [hr'.tagGet_eq hb]
    exact hset j h₁ h2 (by rwa [hr.tagGet_eq hb] at hj)

/-! ### The last index -/

/-- An item at `ULONG_MAX` that carries `iftag` is found by every call, so none returns fewer than one. -/
theorem no_batches {r r' : Root α} (h : Batches g g.ulongMax 1 iftag settag r first r') :
    ∀ {m : TaggedMap α}, Represents g r m → first < 2 ^ g.indexBits → m.tag iftag g.ulongMax = true →
    False := by
  have hmax : g.ulongMax < 2 ^ g.indexBits := Nat.sub_lt (Nat.two_pow_pos _) Nat.one_pos
  induction h with
  | @done r first res hret hlt =>
    intro m hr hfirst hj
    obtain ⟨res', m', hret', hc⟩ := hr.oneCall hfirst hmax Nat.one_pos iftag settag
    obtain rfl := hret.unique hret'
    have hscope := hc.complete (.inl hlt) g.ulongMax (Nat.le_sub_one_of_lt hfirst) le_rfl hj
    have h0 := count_eq_zero_iff.mp (hc.tagged.symm.trans (Nat.lt_one_iff.mp hlt)) g.ulongMax hmax
    rw [decide_eq_true hscope, hj] at h0
    nomatch h0
  | @more r r' first res hret _ _ ih =>
    intro m hr hfirst hj
    obtain ⟨res', m', hret', hc⟩ := hr.oneCall hfirst hmax Nat.one_pos iftag settag
    obtain rfl := hret.unique hret'
    exact ih hc.represents hc.firstIndex_lt (by rw [hc.tag iftag _ hmax, hj, Bool.true_or])

/-- The item 7 at `ULONG_MAX`, with tags 0 and 1. -/
theorem sampleLast_reachable :
    ∃ s : Sys Nat, Reachable Start (Step geometry64) s ∧ Represents geometry64 s.root s.map ∧
    s.map.tag 0 geometry64.ulongMax = true ∧ s.map.tag 1 geometry64.ulongMax = true := by
  have hfresh : ∀ n ∈ List.replicate 11 (freshNode Nat), Zeroed geometry64 n ∨
    n ∈ ([] : List (RawNode Nat)) := by
    intro n hn
    rw [List.eq_of_mem_replicate hn]
    exact .inl (zeroed_freshNode geometry64)
  have h₀ : Reachable Start (Step geometry64) (⟨⟨0, 0, .null⟩, .empty, []⟩ : Sys Nat) :=
    ⟨_, ⟨0, rfl, rfl⟩, .refl⟩
  have h₁ := h₀.tail ⟨.insert geometry64.ulongMax 7 (List.replicate 11 (freshNode Nat)),
    ⟨by decide, hfresh⟩, Fuel.returns_const fun _ => rfl⟩
  have h2 := h₁.tail ⟨.tagSet geometry64.ulongMax 0, ⟨by decide, by decide⟩, Fuel.returns_const fun _ => rfl⟩
  have h3 := h2.tail ⟨.tagSet geometry64.ulongMax 1, ⟨by decide, by decide⟩, Fuel.returns_const fun _ => rfl⟩
  have hs : Sound geometry64 _ := invariant_of_step (fun _ hs => sound_of_start hs) sound_of_step h3
  exact ⟨_, h3, hs.represents, by decide, by decide⟩

/-- The loop of the caller ends although every call finds the item. -/
theorem rangeTag_exact_last : ∃ (s : Sys Nat) (root' : Root Nat), Fuel.Returns
      (fun fuel => tagPagesForWriteback geometry64 geometry64.ulongMax 1 0 1 fuel s.root 5) root' ∧
    radixTreeTagGet geometry64 root' geometry64.ulongMax 1 = true := by
  obtain ⟨s, hs, hr, h0, -⟩ := sampleLast_reachable
  have hmax : geometry64.ulongMax < 2 ^ geometry64.indexBits := by decide
  obtain ⟨-, root', hret, hset⟩ :=
    rangeTag_exact hs (show 5 < 2 ^ geometry64.indexBits by decide) hmax Nat.one_pos 0 1
  exact ⟨s, root', hret, hset _ (by decide) le_rfl (by rwa [hr.tagGet_eq (by decide)])⟩

/-- **Waiting for a call that returns fewer is not enough, and an index may have been tagged before.**
    The item at `ULONG_MAX` carries both tags: a call scans it and changes no tag of it; and calls for
    one index at a time, until one returns fewer than one, never end, from whatever index they start. -/
theorem repeats_for_ever : ∃ s : Sys Nat, Reachable Start (Step geometry64) s ∧
    radixTreeTagGet geometry64 s.root geometry64.ulongMax 0 = true ∧
    (∃ res, Fuel.Returns (fun fuel => radixTreeRangeTagIfTagged geometry64 fuel s.root
        geometry64.ulongMax geometry64.ulongMax 1 0 1) res ∧
      Scope geometry64.ulongMax geometry64.ulongMax res.firstIndex geometry64.ulongMax ∧
      radixTreeTagGet geometry64 res.root geometry64.ulongMax 1 =
        radixTreeTagGet geometry64 s.root geometry64.ulongMax 1) ∧
    ∀ first, first < 2 ^ geometry64.indexBits →
      ¬ ∃ root', Batches geometry64 geometry64.ulongMax 1 0 1 s.root first root' := by
  obtain ⟨s, hs, hr, h0, h1⟩ := sampleLast_reachable
  have hmax : geometry64.ulongMax < 2 ^ geometry64.indexBits := by decide
  refine ⟨s, hs, by rwa [hr.tagGet_eq hmax], ?_, fun first hf ⟨root', hb⟩ => no_batches hb hr hf h0⟩
  obtain ⟨res, m', hret, hc⟩ := hr.oneCall hmax hmax Nat.one_pos 0 1
  refine ⟨res, hret, ?_, ?_⟩
  · by_cases hstop : res.tagged < 1 ∨ res.firstIndex = 0
    · exact hc.complete hstop _ le_rfl le_rfl h0
    · rw [not_or] at hstop
      have h₁ := hc.further (by omega) hstop.2
      have h2 := hc.firstIndex_lt
      have h3 : geometry64.ulongMax + 1 = 2 ^ geometry64.indexBits := by decide
      omega
  · rw [hc.represents.tagGet_eq hmax, hr.tagGet_eq hmax, hc.tag 1 _ hmax, h1, Bool.true_or]

end LinuxKernel.RadixTree
