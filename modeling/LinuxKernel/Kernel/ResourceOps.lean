/-
  What each function of `kernel/resource.c` does to a tree in order.

  1. Every function here FINISHES on such a tree (`Fuel.Returns`): the loops over one child list by
     induction on the list, the descents by `TreeInv.acc`.

  2. A function that reports a conflict hands back the heap it was given.

  3. A function that succeeds makes one of the three changes of `ResourceTree`, so the nodes stay a
     `Good` set.
-/
import LinuxKernel.Kernel.ResourceTree

namespace LinuxKernel.ResourceTree

open List Relation Chain Fuel
variable {h : Heap} {root new : Ptr}

/-! ## `__request_resource` -/

/-- The result of `__request_resource` on a root with children `l`. -/
inductive Requested (h : Heap) (root new : Ptr) (l : List Ptr) : Option Ptr × Heap → Prop where
  | outside (hfit : ¬ Fits h root new) : Requested h root new l (some root, h)
  | conflict (L : List Ptr) (tmp : Ptr) (R : List Ptr) (hfit : Fits h root new)
      (hl : l = L ++ tmp :: R) (hL : ∀ q ∈ L, (h q).stop < (h new).start)
      (hstart : (h tmp).start ≤ (h new).stop) (hstop : (h new).start ≤ (h tmp).stop) :
      Requested h root new l (some tmp, h)
  | linked (L R : List Ptr) (hfit : Fits h root new) (hl : l = L ++ R)
      (hL : ∀ q ∈ L, (h q).stop < (h new).start) (hR : ∀ q ∈ R, (h new).stop < (h q).start) :
      Requested h root new l (none, linkAt h root new (endLink (.child root) L) R.head?)

theorem requestLoop_returns (hfit : Fits h root new) : ∀ (R L : List Ptr),
    Leads (siblingOf h) ((endLink (.child root) L).load h) R none →
    R.Pairwise (fun q r => (h q).stop < (h r).start) → (∀ q ∈ R, (h q).start ≤ (h q).stop) →
    (∀ q ∈ L, (h q).stop < (h new).start) →
    ∃ r, Returns (fun fuel => requestLoop root new (h new).start (h new).stop fuel h
      (endLink (.child root) L)) r ∧ Requested h root new (L ++ R) r := by
  intro R
  induction R with
  | nil =>
    intro L hl _ _ hL
    refine ⟨_, returns_turn fun n => ?_, .linked L [] hfit rfl hL nofun⟩
    simp only [requestLoop, show (endLink (.child root) L).load h = none from hl]
    rfl
  | cons t R ih =>
    intro L hl hs hr hL
    obtain ⟨ht, hs⟩ := pairwise_cons.mp hs
    by_cases hgt : (h t).start > (h new).stop
    · refine ⟨_, returns_turn fun n => ?_, .linked L (t :: R) hfit rfl hL fun q hq => ?_⟩
      · simp only [requestLoop, hl.1, if_pos hgt]
        rfl
      · rcases mem_cons.mp hq with rfl | hq
        · exact hgt
        · have h1 := hr t (mem_cons_self ..)
          have h2 := ht q hq
          omega
    · by_cases hlt : (h t).stop < (h new).start
      · -- `t` lies in front of the new range: go on behind it
        have hend := endLink_snoc t L (.child root)
        obtain ⟨r, hret, hreq⟩ :=
          ih (L ++ [t]) (by rw [hend]; exact hl.2) hs (fun q hq => hr q (mem_cons_of_mem t hq))
          (forall_mem_append.mpr ⟨hL, forall_mem_singleton.mpr hlt⟩)
        rw [append_assoc] at hreq
        refine ⟨r, hret.turn fun n => ?_, hreq⟩
        simp only [requestLoop, hl.1, if_neg hgt, if_pos hlt, hend]
      · refine ⟨_, returns_turn fun n => ?_, .conflict L t R hfit rfl hL (by omega) (by omega)⟩
        simp only [requestLoop, hl.1, if_neg hgt, if_neg hlt]

variable {l : List Ptr}

theorem requestResourceLocked_returns (hc : Children h root l) (new : Ptr) :
    ∃ r, Returns (fun fuel => requestResourceLocked fuel h root new) r ∧
      Requested h root new l r := by
  by_cases hfit : Fits h root new
  · obtain ⟨r, hret, hreq⟩ := requestLoop_returns hfit l [] hc.chain hc.sorted hc.range nofun
    refine ⟨r, ?_, hreq⟩
    obtain ⟨n, hn⟩ := hret
    refine ⟨n, fun fuel hf => ?_⟩
    obtain ⟨h1, h2, h3⟩ := hfit
    simp only [requestResourceLocked, if_neg (not_lt.mpr h1), if_neg (not_lt.mpr h2), if_neg (not_lt.mpr h3)]
    exact hn fuel hf
  · refine ⟨_, returns_const fun n => ?_, .outside hfit⟩
    unfold requestResourceLocked Fits at *
    simp only
    split
    · rfl
    · split
      · rfl
      · split
        · rfl
        · exact absurd ⟨by omega, by omega, by omega⟩ hfit

variable {N : Set Ptr}

/-- A request that succeeds keeps the nodes in order. -/
theorem Requested.good {h' : Heap} (hN : Good h N) (hroot : root ∈ N)
    (hnew : new ∈ N) (ho : Orphan h N new) (hr : new ≠ root) (hc : Children h root l)
    (hreq : Requested h root new l (none, h')) : Good h' N := by
  cases hreq with
  | linked L R hfit hl hL hR =>
    subst hl
    exact hN.link hroot hnew ho hr hc ⟨hfit, hL, hR⟩

/-- A request that reports a conflict changes nothing. -/
theorem Requested.unchanged {c : Ptr} {h' : Heap} (hreq : Requested h root new l (some c, h')) : h' = h := by
  cases hreq <;> rfl

/-- Only the new node gets another parent. -/
theorem Requested.parent {r : Option Ptr × Heap} (hreq : Requested h root new l r)
    {p : Ptr} (hp : p ≠ new) : (r.2 p).parent = (h p).parent := by
  cases hreq with
  | outside => rfl
  | conflict => rfl
  | linked L R =>
    show (linkAt _ _ _ _ _ p).parent = _
    rw [linkAt_ne hp, store_parent]

/-! ## `__insert_resource` -/

/-- The result of the search for a partial overlap in the list `l`. -/
inductive Scanned (h : Heap) (new : Ptr) (l : List Ptr) : Ptr ⊕ Ptr → Prop where
  | overlap (next : Ptr) (hn : next ∈ l)
      (ho : (h next).start < (h new).start ∨ (h next).stop > (h new).stop) :
      Scanned h new l (.inl next)
  | inside (M' : List Ptr) (last : Ptr) (R : List Ptr) (hl : l = (M' ++ [last]) ++ R)
      (hM : ∀ q ∈ M' ++ [last], (h new).start ≤ (h q).start ∧ (h q).stop ≤ (h new).stop)
      (hR : ∀ q ∈ R, (h new).stop < (h q).start) : Scanned h new l (.inr last)

theorem scanLoop_returns (new : Ptr) (R : List Ptr) : ∀ t : Ptr, Leads (siblingOf h) (h t).sibling R none →
    (t :: R).Pairwise (fun q r => (h q).stop < (h r).start) →
    (∀ q ∈ t :: R, (h q).start ≤ (h q).stop) →
    ∃ r, Returns (fun fuel => scanLoop h new fuel t) r ∧ Scanned h new (t :: R) r := by
  induction R with
  | nil =>
    intro t hl _ _
    by_cases ho : (h t).start < (h new).start ∨ (h t).stop > (h new).stop
    · refine ⟨_, returns_turn fun n => ?_, .overlap t (mem_cons_self ..) ho⟩
      simp only [scanLoop, if_pos ho]
    · refine ⟨_, returns_turn fun n => ?_, .inside [] t [] rfl (fun q hq => ?_) nofun⟩
      · simp only [scanLoop, if_neg ho, show (h t).sibling = none from hl]
      · rw [mem_singleton.mp hq]; omega
  | cons s R ih =>
    intro t hl hs hr
    obtain ⟨ht, hs⟩ := pairwise_cons.mp hs
    by_cases ho : (h t).start < (h new).start ∨ (h t).stop > (h new).stop
    · refine ⟨_, returns_turn fun n => ?_, .overlap t (mem_cons_self ..) ho⟩
      simp only [scanLoop, if_pos ho]
    · by_cases hgt : (h s).start > (h new).stop
      · refine ⟨_, returns_turn fun n => ?_, .inside [] t (s :: R) rfl (fun q hq => ?_) fun q hq => ?_⟩
        · simp only [scanLoop, if_neg ho, hl.1, if_pos hgt]
        · rw [mem_singleton.mp hq]; omega
        · rcases mem_cons.mp hq with rfl | hq
          · exact hgt
          · have h1 := hr s (mem_cons_of_mem t (mem_cons_self ..))
            have h2 := (pairwise_cons.mp hs).1 q hq
            omega
      · obtain ⟨r, hret, hscan⟩ := ih s hl.2 hs fun q hq => hr q (mem_cons_of_mem t hq)
        refine ⟨r, hret.turn fun n => ?_, ?_⟩
        · simp only [scanLoop, if_neg ho, hl.1, if_neg hgt]
        · cases hscan with
          | overlap next hn ho' => exact .overlap next (mem_cons_of_mem t hn) ho'
          | inside M' last R' hl' hM hR =>
            refine .inside (t :: M') last R' (by rw [hl']; rfl) (fun q hq => ?_) hR
            rcases mem_cons.mp hq with rfl | hq
            · omega
            · exact hM q hq

/-- The conflict `c` that an insertion below `parent` reports. -/
def Conflict (h : Heap) (parent new c : Ptr) : Prop :=
  (c = parent ∧ ¬ Fits h parent new) ∨
  (TransGen (Child h) parent c ∧ (h c).stop ≤ (h parent).stop ∧
    ((h c).start < (h new).start ∨ (h c).stop > (h new).stop))

/-- The result of an insertion below `parent`, among the nodes `N`. -/
structure Inserted (h : Heap) (N : Set Ptr) (parent new : Ptr) (r : Option Ptr × Heap) : Prop where
  conflict : ∀ c, r.1 = some c → r.2 = h ∧ Conflict h parent new c
  done : r.1 = none → Good r.2 N
  top : ∀ p, p ≠ new → (h p).parent = none → (r.2 p).parent = none

theorem not_self_of_acc {α : Type} {r : α → α → Prop} {a : α} (h : Acc r a) : ¬ r a a := by
  induction h with
  | intro a _ ih => exact fun haa => ih a haa haa

variable {parent : Ptr}

/-- The second half: the entries from `first` on. -/
theorem takeOver_returns {first : Ptr} {L R : List Ptr} (hN : Good h N)
    (hnew : new ∈ N) (ho : Orphan h N new) (hp : parent ∈ N) (hne : new ≠ parent)
    (hc : Children h parent (L ++ first :: R)) (hfit : Fits h parent new)
    (hL : ∀ q ∈ L, (h q).stop < (h new).start) :
    ∃ r, Returns (fun fuel => takeOver fuel h parent new first) r ∧ Inserted h N parent new r := by
  obtain ⟨_, _, hR⟩ := leads_append.mp hc.chain
  obtain ⟨_, hs, _⟩ := pairwise_append.mp hc.sorted
  obtain ⟨sc, hsret, hscan⟩ :=
    scanLoop_returns new R first hR.2 hs fun q hq => hc.range q (mem_append_right L hq)
  cases hscan with
  | overlap next hn hov =>
    have hnl : next ∈ L ++ first :: R := mem_append_right L hn
    refine ⟨(some next, h), hsret.before (returns_const fun _ => rfl) fun n hn => ?_,
      fun c hc' => ⟨rfl, .inr ?_⟩, nofun, fun p _ hp => hp⟩
    · show (scanLoop h new n first).bind _ = _
      rw [hn, Option.bind_some]
      rfl
    · rw [← Option.some.inj hc']
      exact ⟨TransGen.single (hc.child hnl), (hc.inside next hnl).2, hov⟩
  | inside M' last R' hl hM hR' =>
    have hf : (M' ++ [last]).head? = some first := by
      cases M' with
      | nil => injection hl with hl; rw [hl]; rfl
      | cons q M' => injection hl with hl; rw [hl]; rfl
    rw [hl] at hc
    have hret := hc.adopt_returns (show M' ++ [last] = M' ++ [last] from rfl) hf hne (ho.not_mem hp hc)
    refine ⟨(none, adopted h parent new L (M' ++ [last]) first last), hsret.before
      (hret.map fun h => (none, h)) fun n hn => ?_, nofun,
      fun _ => hN.adopt hp hnew ho hne hc rfl hf ⟨hfit, hL, hR'⟩ hM, fun p hpn htop => ?_⟩
    · show (scanLoop h new n first).bind _ = _
      rw [hn, Option.bind_some]
      rfl
    · have hpM : p ∉ M' ++ [last] := fun hh => by
        have := hc.parent p (mem_append_right L (mem_append_left R' hh))
        rw [htop] at this
        nomatch this
      show (adopted h parent new L (M' ++ [last]) first last p).parent = none
      rw [adopted_parent, if_neg hpM, if_neg hpn, htop]

/-- `__insert_resource` on a tree in order. -/
theorem insertResourceLocked_returns (hN : Good h N) (hnew : new ∈ N)
    (ho : Orphan h N new) (hacc : Acc (fun q p => Child h p q) parent) (hp : parent ∈ N)
    (hne : new ≠ parent) :
    ∃ r, Returns (fun fuel => insertResourceLocked fuel h parent new) r ∧
      Inserted h N parent new r := by
  induction hacc with
  | intro parent hacc ih =>
    obtain ⟨l, hc, hsub⟩ := hN parent hp
    obtain ⟨⟨c, h'⟩, hret, hreq⟩ := requestResourceLocked_returns hc new
    have hself : ¬ Child h parent parent :=
      not_self_of_acc (r := fun q p => Child h p q) (Acc.intro parent hacc)
    cases hreq with
    | outside hfit =>
      refine ⟨(some parent, h), hret.ends fun n hn => ?_,
        fun c hc => ⟨rfl, .inl ⟨(Option.some.inj hc).symm, hfit⟩⟩, nofun, fun p _ hp => hp⟩
      simp only [insertResourceLocked, hn]
      exact if_pos (.inl rfl)
    | linked L R hfit hl hL hR =>
      have hreq : Requested h parent new l
          (none, linkAt h parent new (endLink (.child parent) L) R.head?) := .linked L R hfit hl hL hR
      refine ⟨(none, _), hret.ends fun n hn => ?_,
        nofun, fun _ => hreq.good hN hp hnew ho hne hc, fun p hpn hp => (hreq.parent hpn).trans hp⟩
      simp only [insertResourceLocked, hn]
      rfl
    | conflict L first R hfit hl hL hstart hstop =>
      subst hl
      have hfl : first ∈ L ++ first :: R := mem_append_right L (mem_cons_self ..)
      have hfirst : ¬ (first = parent ∨ first = new) := by
        rintro (rfl | rfl)
        · exact hself (hc.child hfl)
        · exact ho.not_mem hp hc hfl
      by_cases hbreak : (h first).start > (h new).start ∨ (h first).stop < (h new).stop ∨
          (h first).start = (h new).start ∧ (h first).stop = (h new).stop
      · obtain ⟨r, htake, hins⟩ := takeOver_returns hN hnew ho hp hne hc hfit hL
        refine ⟨r, hret.within htake fun n hn => ?_, hins⟩
        simp only [insertResourceLocked, hn]
        exact (if_neg hfirst).trans (if_pos hbreak)
      · -- `first` contains the new range: descend
        have hfit' : Fits h first new := ⟨hfit.1, by omega, by omega⟩
        obtain ⟨r, hrec, hins⟩ := ih first (hc.child hfl) (hsub first hfl) fun hh =>
          hfirst (.inr hh.symm)
        refine ⟨r, hret.within hrec fun n hn => ?_, fun c hc' => ?_, hins.done, hins.top⟩
        · simp only [insertResourceLocked, hn]
          exact (if_neg hfirst).trans (if_neg hbreak)
        · obtain ⟨hsame, ⟨_, hfit''⟩ | ⟨hbelow, hin, hov⟩⟩ := hins.conflict c hc'
          · exact absurd hfit' hfit''
          · exact ⟨hsame, .inr ⟨TransGen.head (hc.child hfl) hbelow, hin.trans (hc.inside first hfl).2, hov⟩⟩

/-! ## `insert_resource_expand_to_fit` -/

section SetRange
variable (h) (new) (start stop : Nat)

theorem setRange_ne {p : Ptr} (hp : p ≠ new) : setRange h new start stop p = h p :=
    Function.update_of_ne hp ..

theorem setRange_links (p : Ptr) :
    let out := setRange h new start stop p
    out.child = (h p).child ∧
    out.sibling = (h p).sibling ∧
    out.parent = (h p).parent := by
  by_cases hp : p = new <;> simp [setRange, hp]

theorem setRange_child : Child (setRange h new start stop) = Child h := by
  have hs : siblingOf (setRange h new start stop) = siblingOf h :=
    funext fun p => (setRange_links h new start stop p).2.1
  funext p q
  unfold Child
  rw [hs, (setRange_links h new start stop p).1]

end SetRange

/-- A node gets another range: its children must fit into it, and the node into its place among its
    siblings. -/
theorem Children.setRange {p : Ptr} {l : List Ptr} {start stop : Nat} (hl : Children h p l)
    (hself : p = new → new ∉ l ∧ ∀ q ∈ l, start ≤ (h q).start ∧ (h q).stop ≤ stop)
    (hmem : new ∈ l → start ≤ stop ∧ ((h p).start ≤ start ∧ stop ≤ (h p).stop) ∧
      ∀ q ∈ l, ((h q).stop < (h new).start → (h q).stop < start) ∧ ((h new).stop < (h q).start →
        stop < (h q).start)) :
    Children (setRange h new start stop) p l := by
  have hlinks := setRange_links h new start stop
  have hnew : ResourceTree.setRange h new start stop new = { h new with start := start, stop := stop } :=
    Function.update_self ..
  refine ⟨?_, hl.sorted.imp_of_mem fun {q r} hq hr hqr => ?_, fun q hq => ?_, fun q hq => ?_,
    fun q hq => (hlinks q).2.2.trans (hl.parent q hq)⟩
  · rw [(hlinks p).1]
    exact leads_congr (fun q _ => (hlinks q).2.1) hl.chain
  · have hne : q ≠ r := fun hh => by have := hl.range q hq; subst hh; omega
    by_cases hqn : q = new
    · subst hqn
      rw [hnew, setRange_ne _ _ _ _ hne.symm]
      exact ((hmem hq).2.2 r hr).2 hqr
    · by_cases hrn : r = new
      · subst hrn
        rw [hnew, setRange_ne _ _ _ _ hqn]
        exact ((hmem hr).2.2 q hq).1 hqr
      · rwa [setRange_ne _ _ _ _ hqn, setRange_ne _ _ _ _ hrn]
  · by_cases hqn : q = new
    · subst hqn
      rw [hnew]
      exact (hmem hq).1
    · rw [setRange_ne _ _ _ _ hqn]
      exact hl.range q hq
  · by_cases hqn : q = new
    · subst hqn
      rw [hnew, setRange_ne _ _ _ _ fun hh => (hself hh).1 hq]
      exact (hmem hq).2.1
    · rw [setRange_ne _ _ _ _ hqn]
      by_cases hp : p = new
      · rw [hp, hnew]
        exact (hself hp).2 q hq
      · rw [setRange_ne _ _ _ _ hp]
        exact hl.inside q hq

/-- A node that is nobody's child can be made larger. -/
theorem Good.setRange {N : Set Ptr} {start stop : Nat} (hN : Good h N) (ho : Orphan h N new)
    (hstart : start ≤ (h new).start) (hstop : (h new).stop ≤ stop) :
    Good (setRange h new start stop) N := by
  refine hN.of_frame fun p hp l hl hsub => ⟨l, hl.setRange (fun hh => ?_) fun hh => ?_, hsub⟩
  · subst hh
    exact ⟨ho.not_mem hp hl,
      fun q hq => ⟨hstart.trans (hl.inside q hq).1, Nat.le_trans (hl.inside q hq).2 hstop⟩⟩
  · exact absurd hh (ho.not_mem hp hl)

/-- The result of the loop: `new` is in the tree, or nothing but `new` has changed. -/
structure Expanded (h : Heap) (N : Set Ptr) (new : Ptr) (r : Bool × Heap) : Prop where
  done : r.1 = true → Good r.2 N
  refused : r.1 = false → ∀ p, p ≠ new → r.2 p = h p
  top : ∀ p, p ≠ new → (h p).parent = none → (r.2 p).parent = none

/-- The loop ends: every turn makes the new range larger, inside the range of the root. -/
theorem expandLoop_returns (hroot : root ∈ N) (hnew : new ∈ N) (hne : new ≠ root) :
    ∀ (n : Nat) (h : Heap), (h new).start + ((h root).stop - (h new).stop) = n → Good h N →
    Orphan h N new → Acc (fun q p => Child h p q) root →
    ∃ r, Returns (fun fuel => expandLoop root new fuel h) r ∧ Expanded h N new r := by
  intro n
  induction n using Nat.strong_induction_on with
  | h n ih =>
    intro h hn hN ho hacc
    obtain ⟨⟨c, h'⟩, hret, hins⟩ := insertResourceLocked_returns hN hnew ho hacc hroot hne
    cases c with
    | none =>
      refine ⟨(true, h'), hret.ends fun n hn => ?_, fun _ => hins.done rfl, nofun, hins.top⟩
      simp only [expandLoop, hn]
      rfl
    | some c =>
      obtain ⟨hsame, hconf⟩ := hins.conflict c rfl
      obtain rfl : h' = h := hsame
      by_cases hc : c = root
      · refine ⟨(false, h'), hret.ends fun n hn => ?_, nofun, fun _ _ _ => rfl, fun _ _ hp => hp⟩
        simp only [expandLoop, hn]
        exact if_pos hc
      · obtain ⟨_, hin, hov⟩ := hconf.resolve_left fun hh => hc hh.1
        -- the new range, strictly larger
        let start := if (h' c).start < (h' new).start then (h' c).start else (h' new).start
        let stop := if (h' c).stop > (h' new).stop then (h' c).stop else (h' new).stop
        have hstart : start ≤ (h' new).start := by show ite _ _ _ ≤ _; split <;> omega
        have hstop : (h' new).stop ≤ stop := by show _ ≤ ite _ _ _; split <;> omega
        have hself : setRange h' new start stop new = { h' new with start := start, stop := stop } :=
          Function.update_self ..
        have hroot' := setRange_ne h' new start stop hne.symm
        have hlt : start + ((h' root).stop - stop) < n := by
          rw [← hn]
          show ite _ _ _ + (_ - ite _ _ _) < _
          split <;> split <;> omega
        obtain ⟨r, hrec, hexp⟩ := ih _ hlt (setRange h' new start stop) (by rw [hself, hroot'])
          (hN.setRange ho hstart hstop) (by unfold Orphan; rw [setRange_child]; exact ho)
          (by rw [setRange_child]; exact hacc)
        refine ⟨r, hret.within hrec fun n hn => ?_, hexp.done, fun hr p hp => ?_, fun p hp htop => ?_⟩
        · simp only [expandLoop, hn]
          exact if_neg hc
        · rw [hexp.refused hr p hp, setRange_ne _ _ _ _ hp]
        · exact hexp.top p hp (by rw [setRange_ne _ _ _ _ hp]; exact htop)

/-! ## `release_resource` -/

theorem releaseLoop_returns (old : Ptr) : ∀ (R L : List Ptr),
    Leads (siblingOf h) ((endLink (.child parent) L).load h) R none → old ∉ L →
    ∃ r, Returns (fun fuel => releaseLoop old fuel h (endLink (.child parent) L)) r ∧
      (r = (EINVAL, h) ∨ ∃ L' R', L ++ R = L' ++ old :: R' ∧
        r = (0, setParent ((endLink (.child parent) L').store h (h old).sibling) old none)) := by
  intro R
  induction R with
  | nil =>
    intro L hl _
    refine ⟨_, returns_turn fun n => ?_, .inl rfl⟩
    simp only [releaseLoop, show (endLink (.child parent) L).load h = none from hl]
  | cons t R ih =>
    intro L hl hL
    by_cases ht : t = old
    · subst ht
      refine ⟨_, returns_turn fun n => ?_, .inr ⟨L, R, rfl, rfl⟩⟩
      simp only [releaseLoop, hl.1, if_true]
    · have hend := endLink_snoc t L (.child parent)
      obtain ⟨r, hret, hr⟩ := ih (L ++ [t]) (by rw [hend]; exact hl.2) fun hh => by
        rcases mem_append.mp hh with hh | hh
        · exact hL hh
        · exact ht (mem_singleton.mp hh).symm
      rw [append_assoc] at hr
      refine ⟨r, hret.turn fun n => ?_, hr⟩
      simp only [releaseLoop, hl.1, if_neg ht, hend]

/-! ## `find_resource` -/

theorem findLoop_returns (w : Nat) (c : Constraint) (l : List Ptr) : ∀ (this : Option Ptr)
    (tmpStart : Nat), Leads (siblingOf h) this l none →
    ∃ r, Returns (fun fuel => findLoop w c root new h fuel this tmpStart) r := by
  induction l with
  | nil =>
    intro this tmpStart hl
    rw [show this = none from hl]
    cases hgap : tryGap w c h root new none tmpStart with
    | some range => exact ⟨some range, returns_turn fun n => by simp only [findLoop, hgap]⟩
    | none => exact ⟨none, returns_turn fun n => by simp only [findLoop, hgap]⟩
  | cons t l ih =>
    intro this tmpStart hl
    rw [hl.1]
    cases hgap : tryGap w c h root new (some t) tmpStart with
    | some range => exact ⟨some range, returns_turn fun n => by simp only [findLoop, hgap]⟩
    | none =>
      obtain ⟨r, hret⟩ := ih (h t).sibling (((h t).stop + 1) % 2 ^ w) hl.2
      exact ⟨r, hret.turn fun n => by simp only [findLoop, hgap]⟩

theorem findResource_returns (w : Nat) (c : Constraint) (hc : Children h root l)
    (new : Ptr) : ∃ r, Returns (fun fuel => findResource w c fuel h root new) r := by
  unfold findResource
  have hl := hc.chain
  cases hch : (h root).child with
  | none => exact findLoop_returns w c [] none _ rfl
  | some t =>
    rw [hch] at hl
    simp only
    split
    · cases l with
      | nil => nomatch hl
      | cons q l =>
        obtain ⟨rfl⟩ : t = q := Option.some.inj hl.1
        exact findLoop_returns w c l _ _ hl.2
    · exact findLoop_returns w c l _ _ hl

/-! ## Regions -/

/-- The nodes that a walk from `parent` passes through: below it, and not busy. -/
def Passed (h : Heap) (parent p : Ptr) : Prop :=
  ReflTransGen (fun p q => Child h p q ∧ (h q).busy = false) parent p

theorem Passed.linked {p : Ptr} (hp : Passed h parent p) : Linked h parent p := by
  induction hp with
  | refl => exact ReflTransGen.refl
  | tail _ hc ih => exact ih.tail hc.1

/-- The result of `__request_region` up to the next time it drops the lock. -/
inductive RegionRequested (h : Heap) (parent res : Ptr) (flags : Bool) : RegionResult × Heap → Prop where
  | granted (p : Ptr) (L R : List Ptr) (hp : Passed h parent p) (hc : Children h p (L ++ R))
      (hfit : Fits h p res) (hL : ∀ q ∈ L, (h q).stop < (h res).start)
      (hR : ∀ q ∈ R, (h res).stop < (h q).start) :
      RegionRequested h parent res flags (.granted, linkAt h p res (endLink (.child p) L) R.head?)
  | failed : RegionRequested h parent res flags (.failed, h)
  | sleeps (c : Ptr) (hf : flags = true) (hm : (h c).muxed = true) :
      RegionRequested h parent res flags (.sleeps c, h)

theorem regionLoop_returns (hN : Good h N) (res : Ptr) (flags : Bool)
    (hacc : Acc (fun q p => Child h p q) parent) (hp : parent ∈ N) :
    ∃ r, Returns (fun fuel => regionLoop res flags fuel h parent) r ∧
      RegionRequested h parent res flags r := by
  induction hacc with
  | intro parent hacc ih =>
    obtain ⟨l, hc, hsub⟩ := hN parent hp
    obtain ⟨⟨c, h'⟩, hret, hreq⟩ := requestResourceLocked_returns hc res
    -- a conflict that ends the loop
    have hstop : ∀ c, Requested h parent res l (some c, h') → ¬ (c ≠ parent ∧ (h c).busy = false) →
        Returns (fun fuel => requestResourceLocked fuel h parent res) (some c, h') →
        ∃ r, Returns (fun fuel => regionLoop res flags fuel h parent) r ∧
          RegionRequested h parent res flags r := by
      intro c hreq hcond hret
      obtain rfl := hreq.unchanged
      by_cases hm : ((h' c).muxed && flags) = true
      · have hm' := Bool.and_eq_true_iff.mp hm
        refine ⟨(.sleeps c, h'), hret.ends fun n hn => ?_, .sleeps c hm'.2 hm'.1⟩
        simp only [regionLoop, hn]
        exact (if_neg hcond).trans (if_pos hm)
      · refine ⟨(.failed, h'), hret.ends fun n hn => ?_, .failed⟩
        simp only [regionLoop, hn]
        exact (if_neg hcond).trans (if_neg hm)
    cases hreq with
    | outside hfit => exact hstop parent (.outside hfit) (fun hh => hh.1 rfl) hret
    | linked L R hfit hl hL hR =>
      subst hl
      refine ⟨_, hret.ends fun n hn => ?_, .granted parent L R ReflTransGen.refl hc hfit hL hR⟩
      simp only [regionLoop, hn]
      rfl
    | conflict L tmp R hfit hl hL hs he =>
      by_cases hcond : tmp ≠ parent ∧ (h tmp).busy = false
      · have htl : tmp ∈ l := hl ▸ mem_append_right L (mem_cons_self ..)
        obtain ⟨r, hrec, hreg⟩ := ih tmp (hc.child htl) (hsub tmp htl)
        refine ⟨r, hret.within hrec fun n hn => ?_, ?_⟩
        · simp only [regionLoop, hn]
          exact if_pos hcond
        · cases hreg with
          | granted p L R hp hc' hfit hL hR =>
            exact .granted p L R (ReflTransGen.head ⟨hc.child htl, hcond.2⟩ hp) hc' hfit hL hR
          | failed => exact .failed
          | sleeps c hf hm => exact .sleeps c hf hm
      · exact hstop tmp (.conflict L tmp R hfit hl hL hs he) hcond hret

/-- The result of `__release_region`. -/
inductive RegionReleased (h : Heap) (parent : Ptr) (start stop : Nat) : Option Ptr × Heap → Prop where
  | nothing : RegionReleased h parent start stop (none, h)
  | unlinked (p : Ptr) (L : List Ptr) (res : Ptr) (R : List Ptr) (hp : Passed h parent p)
      (hc : Children h p (L ++ res :: R)) (hb : (h res).busy = true)
      (hr : (h res).start = start ∧ (h res).stop = stop) :
      RegionReleased h parent start stop (some res, (endLink (.child p) L).store h (h res).sibling)

theorem releaseRegionLoop_returns (hN : Good h N) (start stop : Nat)
    (hacc : Acc (fun q p => Child h p q) parent) (hp : parent ∈ N) :
    ∃ r, Returns (fun fuel => releaseRegionLoop start stop fuel h (.child parent)) r ∧
      RegionReleased h parent start stop r := by
  induction hacc with
  | intro parent hacc ih =>
    obtain ⟨l, hc, hsub⟩ := hN parent hp
    -- along the child list, with `L` behind us
    have hwalk : ∀ (R L : List Ptr), l = L ++ R →
      Leads (siblingOf h) ((endLink (.child parent) L).load h) R none →
        ∃ r, Returns (fun fuel => releaseRegionLoop start stop fuel h (endLink (.child parent) L)) r ∧
          RegionReleased h parent start stop r := by
      intro R
      induction R with
      | nil =>
        intro L _ hl
        refine ⟨(none, h), returns_turn fun n => ?_, .nothing⟩
        simp only [releaseRegionLoop, show (endLink (.child parent) L).load h = none from hl]
      | cons res R ihR =>
        intro L heq hl
        have hres : res ∈ l := heq ▸ mem_append_right L (mem_cons_self ..)
        by_cases hin : (h res).start ≤ start ∧ (h res).stop ≥ stop
        · by_cases hb : (h res).busy = false
          · obtain ⟨r, hrec, hrel⟩ := ih res (hc.child hres) (hsub res hres)
            refine ⟨r, hrec.turn fun n => ?_, ?_⟩
            · simp only [releaseRegionLoop, hl.1, if_pos hin, if_pos hb]
            · cases hrel with
              | nothing => exact .nothing
              | unlinked p L' res' R' hp hc' hb' hr =>
                exact .unlinked p L' res' R' (ReflTransGen.head ⟨hc.child hres, hb⟩ hp) hc' hb' hr
          · by_cases hne : (h res).start ≠ start ∨ (h res).stop ≠ stop
            · refine ⟨(none, h), returns_turn fun n => ?_, .nothing⟩
              simp only [releaseRegionLoop, hl.1, if_pos hin, if_neg hb, if_pos hne]
            · refine ⟨_, returns_turn fun n => ?_, .unlinked parent L res R ReflTransGen.refl
                (heq ▸ hc) (by simpa using hb) (by omega)⟩
              simp only [releaseRegionLoop, hl.1, if_pos hin, if_neg hb, if_neg hne]
        · have hend := endLink_snoc res L (.child parent)
          obtain ⟨r, hret, hrel⟩ :=
            ihR (L ++ [res]) (by rw [heq, append_assoc]; rfl) (by rw [hend]; exact hl.2)
          refine ⟨r, hret.turn fun n => ?_, hrel⟩
          simp only [releaseRegionLoop, hl.1, if_neg hin, hend]
    exact hwalk l [] rfl hc.chain

end LinuxKernel.ResourceTree
