/-
  `adjust_resource` and `reserve_region_with_split` (`kernel/resource.c`).

  1. **`adjust_resource`** compares the new start with the parent and the sibling in front, and the new
     end with the parent and the sibling behind; the other siblings follow from the order.  NOTHING
     compares the start with the end, which wraps around: for a node without children every one of the
     tests can pass with `end < start`.  That is the only way to spoil the tree
     (`adjustResource_treeInv`).

  2. **`reserve_region_with_split`** recurses into the pieces to the left and to the right of the first
     conflict.  `Reserved` says what has been done about the addresses from `lo` up to but not
     including `hi`; the two pieces and the conflict between them compose (`Reserved.trans`).
-/
import LinuxKernel.Kernel.ResourceRun

namespace LinuxKernel.ResourceTree

open Option List Function Relation Chain Fuel
variable {h : Heap} {p res : Ptr} {l L R : List Ptr} {start stop : Nat}

/-! ## `adjust_resource` -/

theorem outsideLoop_returns (l : List Ptr) : ∀ c : Option Ptr, Leads (siblingOf h) c l none →
    Returns (fun fuel => outsideLoop h start stop fuel c)
    (l.any fun q => (h q).start < start ∨ (h q).stop > stop) := by
  induction l with
  | nil =>
    intro c hl
    rw [show c = none from hl]
    exact returns_turn fun n => rfl
  | cons q l ih =>
    intro c hl
    rw [hl.1, any_cons]
    by_cases hq : (h q).start < start ∨ (h q).stop > stop
    · rw [decide_eq_true hq, Bool.true_or]
      exact returns_turn fun n => if_pos hq
    · rw [decide_eq_false hq, Bool.false_or]
      exact (ih (h q).sibling hl.2).turn fun n => if_neg hq

theorem beforeLoop_returns (L : List Ptr) :
    ∀ c : Ptr, res ∉ L → Leads (siblingOf h) (h c).sibling L (some res) →
    Returns (fun fuel => beforeLoop h res fuel c) (L.getLastD c) := by
  induction L with
  | nil =>
    intro c _ hl
    exact returns_turn fun n => if_pos hl
  | cons q L ih =>
    intro c hr hl
    have hq : ¬ (h c).sibling = some res := fun hh =>
      hr (Option.some.inj (hh.symm.trans hl.1) ▸ mem_cons_self ..)
    rw [getLastD_cons]
    refine (ih q (fun hh => hr (mem_cons_of_mem q hh)) hl.2).turn fun n => ?_
    rw [beforeLoop, if_neg hq, hl.1, bind_some]

theorem before_returns (hc : Children h p (L ++ res :: R)) :
    Returns (fun fuel => before fuel h p res) L.getLast? := by
  obtain ⟨m, h1, h2⟩ := leads_append.mp hc.chain
  obtain rfl : m = some res := h2.1
  have hres : res ∉ L := fun hh =>
    (nodup_append.mp hc.nodup).2.2 res hh res (mem_cons_self ..) rfl
  unfold before
  cases L with
  | nil =>
    rw [show (h p).child = some res from h1]
    exact returns_const fun n => if_pos rfl
  | cons c L =>
    rw [h1.1, List.getLast?_cons, ← List.getLastD_eq_getLast?]
    simp only [bind_some, if_neg fun hh : c = res => hres (hh ▸ mem_cons_self ..)]
    exact (beforeLoop_returns L c (fun hh => hres (mem_cons_of_mem c hh)) h1.2).map some

/-- What `adjust_resource` looks at. -/
structure Adjustable (h : Heap) (p : Ptr) (L R K : List Ptr) (start stop : Nat) : Prop where
  inside : (h p).start ≤ start ∧ stop ≤ (h p).stop
  children : ∀ q ∈ K, start ≤ (h q).start ∧ (h q).stop ≤ stop
  next : ∀ q, R.head? = some q → stop < (h q).start
  before : ∀ q, L.getLast? = some q → (h q).stop < start

/-- `adjust_resource` finishes: it refuses and changes nothing, or all its tests have passed. -/
theorem adjustResource_returns (w size : Nat) {K : List Ptr} (hc : Children h p (L ++ res :: R))
    (hk : Children h res K) : ∃ r, Returns (fun fuel => adjustResource w fuel h res start size) r ∧
    (r = (EBUSY, h) ∨ r = (0, setRange h res start ((start + size + 2 ^ w - 1) % 2 ^ w)) ∧
      Adjustable h p L R K start ((start + size + 2 ^ w - 1) % 2 ^ w)) := by
  generalize hstop : (start + size + 2 ^ w - 1) % 2 ^ w = stop
  obtain ⟨n, hout⟩ := @outsideLoop_returns h start stop K _ hk.chain
  obtain ⟨m, hbefore⟩ := before_returns hc
  have hsib : (h res).sibling = R.head? := by
    obtain ⟨m, _, h2⟩ := leads_append.mp hc.chain
    exact leads_head h2.2
  have hF : ∀ fuel, max n m ≤ fuel → adjustResource w fuel h res start size =
      if start < (h p).start ∨ stop > (h p).stop then some (EBUSY, h)
      else if K.any fun q => (h q).start < start ∨ (h q).stop > stop then some (EBUSY, h)
      else if R.head?.any fun q => (h q).start ≤ stop then some (EBUSY, h)
      else if L.getLast?.any fun q => start ≤ (h q).stop then some (EBUSY, h)
      else some (0, setRange h res start stop) := by
    intro fuel hf
    simp only [adjustResource, hstop, hc.parent res (mem_append_right L (mem_cons_self ..)),
      hout fuel (by omega), hbefore fuel (by omega), hsib, bind_some]
  split_ifs at hF with hin hany hnext hbef
  · exact ⟨_, ⟨_, hF⟩, .inl rfl⟩
  · exact ⟨_, ⟨_, hF⟩, .inl rfl⟩
  · exact ⟨_, ⟨_, hF⟩, .inl rfl⟩
  · exact ⟨_, ⟨_, hF⟩, .inl rfl⟩
  · refine ⟨_, ⟨_, hF⟩, .inr ⟨rfl, by omega, fun q hq => ?_, fun q hq => ?_, fun q hq => ?_⟩⟩
    · have : ¬ ((h q).start < start ∨ (h q).stop > stop) := fun hh =>
        hany (List.any_eq_true.mpr ⟨q, hq, decide_eq_true hh⟩)
      omega
    · simpa [hq] using hnext
    · simpa [hq] using hbef

theorem Adjustable.children_set {K : List Ptr} (ha : Adjustable h p L R K start stop)
    (hc : Children h p (L ++ res :: R)) (hp : p ≠ res) (hle : start ≤ stop) :
    Children (setRange h res start stop) p (L ++ res :: R) := by
  obtain ⟨hsL, hsR, hsLR⟩ := pairwise_append.mp hc.sorted
  obtain ⟨hresR, hsR⟩ := pairwise_cons.mp hsR
  have hres := hc.range res (mem_append_right L (mem_cons_self ..))
  refine hc.setRange (fun hh => absurd hh hp) fun _ => ⟨hle, ha.inside, fun q hq => ?_⟩
  rcases mem_append.mp hq with hq | hq
  · -- a sibling in front: the last of them is the nearest
    have hlt := hsLR q hq res (mem_cons_self ..)
    refine ⟨fun _ => ?_, fun _ => by have := hc.range q (mem_append_left _ hq); omega⟩
    obtain ⟨L', t, rfl⟩ := (eq_nil_or_concat' L).resolve_left (ne_nil_of_mem hq)
    have ht := ha.before t (by simp)
    rcases mem_append.mp hq with hq' | hq'
    · have h1 := (pairwise_append.mp hsL).2.2 q hq' t (mem_singleton.mpr rfl)
      have h2 := hc.range t (by simp)
      omega
    · exact mem_singleton.mp hq' ▸ ht
  · rcases mem_cons.mp hq with rfl | hq
    · exact ⟨fun hh => by omega, fun hh => by omega⟩
    · have hlt := hresR q hq
      have hqr := hc.range q (mem_append_right L (mem_cons_of_mem res hq))
      refine ⟨fun _ => by omega, fun _ => ?_⟩
      cases R with
      | nil => nomatch hq
      | cons t R =>
        have ht := ha.next t rfl
        rcases mem_cons.mp hq with rfl | hq
        · exact ht
        · have h1 := (pairwise_cons.mp hsR).1 q hq
          have h2 := hc.range t (by simp)
          omega

/-- **`adjust_resource`** finishes with 0 or `-EBUSY`; if it refuses, nothing has changed; and if it
    accepts, the tree is well formed EXACTLY IF the range does not wrap around. -/
theorem adjustResource_treeInv {root : Ptr} (w start size : Nat) (ht : TreeInv h root)
    (hres : Linked h root res) (hne : res ≠ root) (hstart : start < 2 ^ w) (hsize : 1 ≤ size)
    (hw : size < 2 ^ w) : ∃ r, Returns (fun fuel => adjustResource w fuel h res start size) r ∧
    (r.1 = 0 ∨ r.1 = EBUSY ∧ r.2 = h) ∧
    (r.1 = 0 → (TreeInv r.2 root ↔ start + size ≤ 2 ^ w)) := by
  obtain hroot | ⟨p, hp, hpres⟩ := ReflTransGen.cases_tail hres
  · exact absurd hroot hne
  obtain ⟨l, hc⟩ := ht.ok p hp
  obtain ⟨K, hk⟩ := ht.ok res hres
  obtain ⟨L, R, rfl⟩ := List.append_of_mem (hc.mem hpres)
  have hpne : p ≠ res := fun hh => ht.acyclic hres (TransGen.single (hh ▸ hpres))
  obtain ⟨r, hret, rfl | ⟨rfl, ha⟩⟩ := @adjustResource_returns h p res L R start w size K hc hk
  · exact ⟨_, hret, .inr ⟨rfl, rfl⟩, nofun⟩
  refine ⟨_, hret, .inl rfl, fun _ => ⟨fun hinv => ?_, fun hle => ?_⟩⟩
  · -- a wrapped end lies in front of the start
    obtain ⟨l, hl⟩ := hinv.ok p (by unfold Linked; rw [setRange_child]; exact hp)
    have hmem := hl.range res (hl.mem (by rw [setRange_child]; exact hpres))
    simp only [setRange, update_self] at hmem
    by_contra hlt
    rw [show start + size + 2 ^ w - 1 = start + size - 1 - 2 ^ w + 2 ^ w * 2 by omega,
      Nat.add_mul_mod_self_left, Nat.mod_eq_of_lt (by omega)] at hmem
    omega
  · have hend : (start + size + 2 ^ w - 1) % 2 ^ w = start + size - 1 := by
      rw [show start + size + 2 ^ w - 1 = start + size - 1 + 2 ^ w by omega, Nat.add_mod_right,
        Nat.mod_eq_of_lt (by omega)]
    rw [hend] at ha ⊢
    have hg : Good (setRange h res start (start + size - 1)) {q | Linked h root q} := by
      refine ht.ok.good.of_frame fun q hq l hl hsub => ⟨l, ?_, hsub⟩
      by_cases hqp : q = p
      · subst hqp
        rw [hl.unique hc]
        exact ha.children_set hc hpne (by omega)
      · refine hl.setRange (fun hh => ?_) fun hh => absurd hh (hc.disjoint hl (Ne.symm hqp) (by simp))
        subst hh
        exact ⟨hc.disjoint hl hpne (by simp), hl.unique hk ▸ ha.children⟩
    refine TreeInv.of_good hg .refl ht.finite ?_
    exact (setRange_links h res start _ root).2.2.trans ht.top

theorem adjustResource_treeInv_ten : ∃ h, TreeInv siblings 0 ∧
    Returns (fun fuel => adjustResource 32 fuel siblings 1 250 10) (0, h) ∧ TreeInv h 0 := by
  have ht := treeInv_of_reachable siblings_reachable
  have hl : Linked siblings 0 1 := ReflTransGen.single ⟨[1, 2], ⟨rfl, rfl, rfl⟩, by simp⟩
  obtain ⟨r, hret, _, hr⟩ :=
    adjustResource_treeInv 32 250 10 ht hl (by decide) (by decide) (by decide) (by decide)
  have h0 : Returns (fun fuel => adjustResource 32 fuel siblings 1 250 10)
      (0, setRange siblings 1 250 259) := returns_turn fun n => rfl
  obtain rfl := hret.unique h0
  exact ⟨_, ht, h0, (hr rfl).mpr (by decide)⟩

/-- A node without children is moved to `[500, 399]`: the size is 2^32 - 100. -/
theorem adjustResource_wraps : ∃ h, TreeInv sampleLinked 0 ∧
    Returns (fun fuel => adjustResource 32 fuel sampleLinked 1 500 4294967196) (0, h) ∧
    ((h 1).start, (h 1).stop) = (500, 399) ∧ ¬ TreeInv h 0 := by
  refine ⟨setRange sampleLinked 1 500 399, treeInv_of_reachable sampleLinked_reachable,
    returns_turn fun n => rfl, rfl, fun hinv => ?_⟩
  obtain ⟨l, hl⟩ := hinv.ok 0 .refl
  exact absurd (hl.range 1 (hl.mem ⟨[1], ⟨rfl, rfl⟩, by simp⟩)) (by decide)

/-! ## `reserve_region_with_split` -/

/-- The children `l` of `root` have become `l'`: the addresses from `lo` up to `hi` are covered, by new
    children in between and by old ones, of which only the sibling pointers have changed. -/
structure Reserved (root : Ptr) (h : Heap) (l : List Ptr) (lo hi : Nat) (h' : Heap) (l' : List Ptr) :
    Prop where
  children : Children h' root l'
  off : root ∉ l'
  bounds : (h' root).start = (h root).start ∧ (h' root).stop = (h root).stop
  covered : ∀ a, lo ≤ a → a < hi → ∃ q ∈ l', (h' q).start ≤ a ∧ a ≤ (h' q).stop
  kept : ∀ q ∈ l, q ∈ l' ∧ h' q = { h q with sibling := (h' q).sibling }
  added : ∀ q ∈ l', q ∉ l → lo ≤ (h' q).start ∧ (h' q).stop < hi

section Reserve
variable {root : Ptr} {h1 h2 : Heap} {l₁ l₂ : List Ptr} {lo hi mid mid' : Nat}

theorem Reserved.skip (hc : Children h1 root l) (hroot : root ∉ l) (hr : h1 root = h root)
    (hl : ∀ q ∈ l, h1 q = h q) (hle : hi ≤ lo) : Reserved root h l lo hi h1 l :=
  ⟨hc, hroot, by rw [hr]; exact ⟨rfl, rfl⟩, fun a ha ha' => by omega,
    fun q hq => ⟨hq, by rw [hl q hq]⟩, fun q hq hq' => absurd hq hq'⟩

/-- One piece, something that is covered, and another piece. -/
theorem Reserved.trans (h01 : Reserved root h l lo mid h1 l₁) (h12 : Reserved root h1 l₁ mid' hi h2 l₂)
    (hlo : lo ≤ mid') (hhi : mid ≤ hi)
    (hmid : ∀ a, mid ≤ a → a < mid' → ∃ q ∈ l₁, (h1 q).start ≤ a ∧ a ≤ (h1 q).stop) :
    Reserved root h l lo hi h2 l₂ := by
  have hold : ∀ q ∈ l₁, (h2 q).start = (h1 q).start ∧ (h2 q).stop = (h1 q).stop := fun q hq => by
    rw [(h12.kept q hq).2]
    exact ⟨rfl, rfl⟩
  refine ⟨h12.children, h12.off, ⟨h12.bounds.1.trans h01.bounds.1, h12.bounds.2.trans h01.bounds.2⟩,
    fun a ha ha' => ?_, fun q hq => ?_, fun q hq hql => ?_⟩
  · by_cases hright : mid' ≤ a
    · exact h12.covered a hright ha'
    · obtain ⟨q, hq, hqa⟩ : ∃ q ∈ l₁, (h1 q).start ≤ a ∧ a ≤ (h1 q).stop := by
        by_cases hleft : a < mid
        · exact h01.covered a ha hleft
        · exact hmid a (by omega) (by omega)
      refine ⟨q, (h12.kept q hq).1, ?_⟩
      rw [(hold q hq).1, (hold q hq).2]
      exact hqa
  · obtain ⟨hq1, hsame⟩ := h01.kept q hq
    refine ⟨(h12.kept q hq1).1, ?_⟩
    rw [(h12.kept q hq1).2, hsame]
  · by_cases hq1 : q ∈ l₁
    · have := h01.added q hq1 hql
      rw [(hold q hq1).1, (hold q hq1).2]
      omega
    · have := h12.added q hq hq1
      omega

/-- A new child between two old ones. -/
theorem Reserved.link {res : Ptr} (hc : Children h root (L ++ R)) (hroot : root ∉ L ++ R)
    (hr : res ≠ root) (hnew : res ∉ L ++ R) (hfit : Fits h root res)
    (hL : ∀ q ∈ L, (h q).stop < (h res).start) (hR : ∀ q ∈ R, (h res).stop < (h q).start) :
    Reserved root h (L ++ R) (h res).start ((h res).stop + 1)
      (linkAt h root res (endLink (.child root) L) R.head?) (L ++ res :: R) := by
  have hsame := linkAt_sameRanges (h := h) hr (fun hh => hnew (mem_append_left R hh)) R.head?
  have hmem : ∀ q, q ∈ L ++ res :: R ↔ q = res ∨ q ∈ L ++ R := fun q =>
    perm_middle.mem_iff.trans mem_cons
  refine ⟨hc.link hr hnew ⟨hfit, hL, hR⟩, fun hh => ?_, ⟨(hsame root).1, (hsame root).2.1⟩,
    fun a ha ha' => ⟨res, (hmem res).mpr (.inl rfl), ?_⟩, fun q hq => ⟨(hmem q).mpr (.inr hq), ?_⟩,
      fun q hq hq' => ?_⟩
  · exact ((hmem root).mp hh).elim hr.symm hroot
  · rw [(hsame res).1, (hsame res).2.1]
    omega
  · rw [linkAt_ne (ne_of_mem_of_not_mem hq hnew)]
    have hk := endLink_ne_child (L := L) (ne_of_mem_of_not_mem hq hroot)
    generalize endLink (.child root) L = k at hk ⊢
    cases k with
    | child r => rw [Link.store, update_of_ne fun hh : q = r => hk (hh ▸ rfl)]
    | sibling r => by_cases hqr : q = r <;> simp [Link.store, hqr]
  · obtain rfl : q = res := ((hmem q).mp hq).resolve_right hq'
    rw [(hsame q).1, (hsame q).2.1]
    omega

variable {kzalloc : Heap → Ptr}

/-- The recursion, on the number of addresses; a range without addresses stands for a piece that is not
    there. -/
theorem reserveRegionWithSplit_returns
    (hnew : ∀ h l, Children h root l → kzalloc h ≠ root ∧ kzalloc h ∉ l) (n : Nat) : ∀ (h : Heap)
    (l : List Ptr) (lo hi : Nat), hi - lo ≤ n → Children h root l → root ∉ l → (h root).start ≤ lo →
    hi ≤ (h root).stop + 1 → ∃ h' l', Returns (fun fuel =>
      if lo < hi then reserveRegionWithSplit kzalloc root fuel h lo (hi - 1) else some h) h' ∧
      Reserved root h l lo hi h' l' := by
  induction n with
  | zero =>
    intro h l lo hi hn hc hroot _ _
    exact ⟨h, l, returns_const fun _ => if_neg (by omega), .skip hc hroot rfl (fun _ _ => rfl) (by omega)⟩
  | succ n ih =>
    intro h l lo hi hn hc hroot hlo hhi
    by_cases hlt : lo < hi
    swap
    · exact ⟨h, l, returns_const fun _ => if_neg hlt, .skip hc hroot rfl (fun _ _ => rfl) (by omega)⟩
    obtain ⟨stop, rfl⟩ : ∃ stop, hi = stop + 1 := ⟨hi - 1, by omega⟩
    simp only [if_pos hlt, Nat.add_sub_cancel]
    obtain ⟨hr, hl⟩ := hnew h l hc
    generalize hh0 : update h (kzalloc h) ⟨lo, stop, true, false, none, none, none⟩ = h₀
    have hres : (h₀ (kzalloc h)).start = lo ∧ (h₀ (kzalloc h)).stop = stop := by
      rw [← hh0, update_self]
      exact ⟨rfl, rfl⟩
    have hold : ∀ q, q ≠ kzalloc h → h₀ q = h q := fun q hq => by rw [← hh0, update_of_ne hq]
    have holdl : ∀ q ∈ l, h₀ q = h q := fun q hq => hold q (ne_of_mem_of_not_mem hq hl)
    have hc0 : Children h₀ root l := by
      refine hc.congr ?_ fun q hq => ?_
      · rw [hold root hr.symm]
        exact ⟨rfl, rfl, rfl⟩
      · rw [holdl q hq]
        exact ⟨rfl, rfl, rfl, rfl⟩
    have hskip : Reserved root h l lo lo h₀ l := .skip hc0 hroot (hold root hr.symm) holdl le_rfl
    have hfit : Fits h₀ root (kzalloc h) := by
      rw [Fits, hres.1, hres.2, hold root hr.symm]
      exact ⟨by omega, hlo, by omega⟩
    obtain ⟨r, hret, hreq⟩ := requestResourceLocked_returns hc0 (kzalloc h)
    cases hreq with
    | outside hout => exact absurd hfit hout
    | linked L R _ hLR hL hR =>
      subst hLR
      have hlink := Reserved.link hc0 hroot hr hl hfit hL hR
      rw [hres.1, hres.2] at hlink
      refine ⟨_, _, hret.ends fun m hm => ?_, hskip.trans hlink le_rfl (by omega) fun a ha ha' => by omega⟩
      simp only [reserveRegionWithSplit, hh0, hm, bind_some]
    | conflict L c R _ hLR hL hstart hstop =>
      have hcl : c ∈ l := hLR ▸ mem_append_right L (mem_cons_self ..)
      rw [← hold root hr.symm] at hlo hhi
      rw [hres.2] at hstart
      rw [hres.1] at hstop
      by_cases hcov : (h₀ c).start ≤ lo ∧ (h₀ c).stop ≥ stop
      · refine ⟨h₀, l, hret.ends fun m hm => ?_, ⟨hc0, hroot, hskip.bounds,
          fun a ha ha' => ⟨c, hcl, by omega⟩, hskip.kept, fun q hq hq' => absurd hq hq'⟩⟩
        simp only [reserveRegionWithSplit, hh0, hm, bind_some, if_pos hcov]
      · obtain ⟨h1, l₁, hret1, hleft⟩ := ih h₀ l lo (h₀ c).start (by omega) hc0 hroot hlo (by omega)
        obtain ⟨hcl1, hc1⟩ := hleft.kept c hcl
        have hkept : (h1 c).start = (h₀ c).start ∧ (h1 c).stop = (h₀ c).stop := by
          rw [hc1]
          exact ⟨rfl, rfl⟩
        obtain ⟨h2, l₂, hret2, hright⟩ := ih h1 l₁ ((h1 c).stop + 1) (stop + 1) (by omega)
          hleft.children hleft.off (by rw [hleft.bounds.1]; omega) (by rw [hleft.bounds.2]; omega)
        have hparts : Returns (fun fuel => (if (h₀ c).start > lo then
            reserveRegionWithSplit kzalloc root fuel h₀ lo ((h₀ c).start - 1) else some h₀).bind fun h =>
            if (h c).stop < stop then reserveRegionWithSplit kzalloc root fuel h ((h c).stop + 1) stop
            else some h) h2 := by
          simp only [Nat.add_sub_cancel, Nat.add_lt_add_iff_right] at hret2
          exact hret1.before hret2 fun m hm => by simp only [gt_iff_lt, hm, bind_some]
        refine ⟨h2, l₂, hret.within hparts fun m hm => ?_,
          hskip.trans (hleft.trans hright (by omega) (by omega) fun a ha ha' =>
          ⟨c, hcl1, by omega⟩) le_rfl (by omega) fun a ha ha' => by omega⟩
        simp only [reserveRegionWithSplit, hh0, hm, bind_some, if_neg hcov]

/-- **`__reserve_region_with_split`** finishes, and then every address of the range belongs to a child of
    the root; an old child has changed in its sibling pointer at most; and the new children lie inside
    the range. -/
theorem reserveRegionWithSplit_covers (start stop : Nat) (ht : TreeInv h root) (hc : Children h root l)
    (hnew : ∀ h l, Children h root l → kzalloc h ≠ root ∧ kzalloc h ∉ l) (hle : start ≤ stop)
    (hstart : (h root).start ≤ start) (hstop : stop ≤ (h root).stop) :
    ∃ h' l', Returns (fun fuel => reserveRegionWithSplit kzalloc root fuel h start stop) h' ∧
    Children h' root l' ∧
      (∀ a, start ≤ a → a ≤ stop → ∃ q ∈ l', (h' q).start ≤ a ∧ a ≤ (h' q).stop) ∧
      (∀ q ∈ l, q ∈ l' ∧ h' q = { h q with sibling := (h' q).sibling }) ∧
      ∀ q ∈ l', q ∉ l → start ≤ (h' q).start ∧ (h' q).stop ≤ stop := by
  have hroot : root ∉ l := fun hh => ht.acyclic .refl (TransGen.single (hc.child hh))
  obtain ⟨h', l', hret, hr⟩ := reserveRegionWithSplit_returns hnew (stop + 1 - start) h l start
    (stop + 1) le_rfl hc hroot hstart (by omega)
  simp only [if_pos (Nat.lt_succ_of_le hle), Nat.add_sub_cancel] at hret
  exact ⟨h', l', hret, hr.children, fun a ha ha' => hr.covered a ha (by omega), hr.kept,
    fun q hq hq' => by have := hr.added q hq hq'; omega⟩

theorem exists_kzalloc (root : Ptr) :
    ∃ kzalloc : Heap → Ptr, ∀ h l, Children h root l → kzalloc h ≠ root ∧ kzalloc h ∉ l := by
  have hex : ∀ h, ∃ p, ∀ l, Children h root l → p ≠ root ∧ p ∉ l := by
    intro h
    by_cases hl : ∃ l, Children h root l
    · obtain ⟨l, hl⟩ := hl
      obtain ⟨p, hp⟩ := Infinite.exists_notMem_finset (root :: l).toFinset
      refine ⟨p, fun l' hl' => ?_⟩
      rw [← hl.unique hl']
      simpa using hp
    · exact ⟨root, fun l hl' => absurd ⟨l, hl'⟩ hl⟩
  choose kzalloc hk using hex
  exact ⟨kzalloc, hk⟩

/-- From 50 to 200, next to a child at `[0, 100]`. -/
theorem reserveRegionWithSplit_covers_fifty : ∃ kzalloc h',
    Returns (fun fuel => reserveRegionWithSplit kzalloc 0 fuel sampleLinked 50 200) h' ∧
    ∃ q, Child h' 0 q ∧ (h' q).start ≤ 150 ∧ 150 ≤ (h' q).stop := by
  obtain ⟨kzalloc, hk⟩ := exists_kzalloc 0
  have ht := treeInv_of_reachable sampleLinked_reachable
  obtain ⟨l, hc⟩ := ht.ok 0 .refl
  obtain ⟨h', l', hret, hc', hcov, _⟩ := reserveRegionWithSplit_covers 50 200 ht hc hk (by decide)
    (by decide) (by decide)
  obtain ⟨q, hq, hin⟩ := hcov 150 (by decide) (by decide)
  exact ⟨kzalloc, h', hret, q, hc'.child hq, hin⟩

end Reserve
end LinuxKernel.ResourceTree
