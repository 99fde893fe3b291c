/-
  The resource tree over whole runs (`kernel/resource.c`).

  1. **Calls** — `exec` performs one call; its Boolean says whether the call reported a conflict (or any
     other failure).

  2. **What callers promise** — `Valid`: a root that is in the tree, and a descriptor that is NOT in the
     tree and comes with an ordered tree of its own (usually: with no children at all).  A descriptor
     for `allocate_resource`, which moves it, must have no children.

  3. **The invariant** — every valid call finishes, keeps `TreeInv`, and changes no node of the tree if
     it reports a conflict.  Between two calls everything outside the tree may change.

  Without the promise about `allocate_resource` the tree can get out of order
  (`allocateResource_moves_parent`).
-/
import LinuxKernel.Kernel.ResourceOps

namespace LinuxKernel.ResourceTree

open Function Relation Chain Fuel

/-! ## Calls -/

inductive Call where
  | requestResource (root new : Ptr)
  | insertResource (parent new : Ptr)
  | insertResourceExpandToFit (root new : Ptr)
  | allocateResource (c : Constraint) (root new : Ptr)
  | releaseResource (old : Ptr)
  | requestRegion (parent : Ptr) (start n : Nat) (res : Option Ptr)
  | releaseRegion (parent : Ptr) (start n : Nat)

/-- One call: does it report a conflict, and what does it leave behind? -/
def exec (w fuel : Nat) (h : Heap) : Call → Option (Bool × Heap)
  | .requestResource root new => (requestResource fuel h root new).bind fun r => some (r.1 ≠ 0, r.2)
  | .insertResource parent new => (insertResource fuel h parent new).bind fun r => some (r.1 ≠ 0, r.2)
  | .insertResourceExpandToFit root new =>
      (insertResourceExpandToFit fuel h root new).bind fun r => some (!r.1, r.2)
  | .allocateResource c root new =>
      (allocateResource w c fuel h root new).bind fun r => some (r.1 ≠ 0, r.2)
  | .releaseResource old => (releaseResource fuel h old).bind fun r => some (r.1 ≠ 0, r.2)
  | .requestRegion parent start n res =>
      (requestRegion w fuel h parent start n false res).bind fun r => some (r.1 ≠ .granted, r.2)
  | .releaseRegion parent start n =>
      (releaseRegion w fuel h parent start n).bind fun r => some (r.1.isNone, r.2)

/-- A descriptor that can be linked in: it is not in the tree, and what hangs below it is a finite
    ordered tree of its own. -/
structure Attachable (h : Heap) (root new : Ptr) : Prop where
  ok : TreeOk h new
  finite : {q | Linked h new q}.Finite
  own : ∀ p, Linked h new p → ¬ Child h p new
  apart : ∀ q, Linked h new q → ¬ Linked h root q

/-- What the caller promises. -/
def Valid (h : Heap) (root : Ptr) : Call → Prop
  | .requestResource p new => Linked h root p ∧ Attachable h root new
  | .insertResource p new => Linked h root p ∧ Attachable h root new
  | .insertResourceExpandToFit p new => Linked h root p ∧ Attachable h root new
  | .allocateResource _ p new => Linked h root p ∧ ¬ Linked h root new ∧ (h new).child = none
  | .releaseResource old => ∃ p, (h old).parent = some p ∧ Linked h root p
  | .requestRegion p _ _ res => Linked h root p ∧ ∀ r, res = some r → ¬ Linked h root r
  | .releaseRegion p _ _ => Linked h root p

/-! ## Outside the tree -/

/-- The nodes of the tree keep everything but their flags. -/
def SameTree (h h' : Heap) (root : Ptr) : Prop := ∀ p, Linked h root p →
  (h' p).start = (h p).start ∧ (h' p).stop = (h p).stop ∧ (h' p).parent = (h p).parent ∧
    (h' p).sibling = (h p).sibling ∧ (h' p).child = (h p).child

variable {h h' : Heap} {root new : Ptr}

theorem SameTree.children (hs : SameTree h h' root) {p : Ptr} {l : List Ptr} (hp : Linked h root p)
    (hl : Children h p l) : Children h' p l := by
  refine hl.congr ?_ fun q hq => ?_
  · obtain ⟨h1, h2, _, _, h5⟩ := hs p hp
    exact ⟨h5, h1, h2⟩
  · obtain ⟨h1, h2, h3, h4, _⟩ := hs q (hp.tail (hl.child hq))
    exact ⟨h4, h3, h1, h2⟩

theorem SameTree.good (ht : TreeOk h root) (hs : SameTree h h' root) : Good h' {p | Linked h root p} :=
  ht.good.of_frame fun _ hp l hl hsub => ⟨l, hs.children hp hl, hsub⟩

theorem SameTree.treeInv (ht : TreeInv h root) (hs : SameTree h h' root) : TreeInv h' root :=
  TreeInv.of_good (hs.good ht.ok) .refl ht.finite ((hs root .refl).2.2.1.trans ht.top)

variable {p : Ptr}

theorem SameTree.linked (ht : TreeOk h root) (hs : SameTree h h' root) :
    Linked h' root p ↔ Linked h root p := by
  refine ⟨fun hp => (hs.good ht).linked (.refl : Linked h root root) hp, fun hp => ?_⟩
  induction hp with
  | refl => exact .refl
  | tail hp hc ih =>
    obtain ⟨l, hl⟩ := ht _ hp
    exact ih.tail ((hs.children hp hl).child (hl.mem hc))

/-- A write to a node that is not in the tree. -/
theorem sameTree_of_off (hp : ¬ Linked h root p) (hh : ∀ q, q ≠ p → h' q = h q) : SameTree h h' root :=
    fun q hq => by
  rw [hh q fun hqp => hp (hqp ▸ hq)]
  exact ⟨rfl, rfl, rfl, rfl, rfl⟩

theorem not_child_of_childless (hc : (h new).child = none) (q : Ptr) : ¬ Child h new q := by
  rintro ⟨l, hl, hq⟩
  rw [hc] at hl
  cases l with
  | nil => nomatch hq
  | cons p l => nomatch hl.1

theorem linked_of_childless (hc : (h new).child = none) {q : Ptr} (hq : Linked h new q) : q = new := by
  rcases ReflTransGen.cases_head hq with hq | ⟨p, hp, _⟩
  · exact hq.symm
  · exact absurd hp (not_child_of_childless hc p)

/-- A node without children can be linked in. -/
theorem attachable_of_childless (hc : (h new).child = none) (ho : ¬ Linked h root new) :
    Attachable h root new := by
  have honly : ∀ q, Linked h new q → q = new := fun q => linked_of_childless hc
  refine ⟨fun p hp => ⟨[], ?_, List.Pairwise.nil, ?_, ?_, ?_⟩, (Set.finite_singleton new).subset honly,
    fun p hp => ?_, fun q hq => ?_⟩
  · rw [honly p hp]; exact hc
  · exact nofun
  · exact nofun
  · exact nofun
  · rw [honly p hp]; exact not_child_of_childless hc new
  · rw [honly q hq]; exact ho

/-! ## One call -/

/-- The nodes of the tree and of the new descriptor. -/
def nodes (h : Heap) (root new : Ptr) : Set Ptr := {p | Linked h root p} ∪ {p | Linked h new p}

theorem Attachable.orphan (ha : Attachable h root new) : Orphan h (nodes h root new) new := by
  rintro p (hp | hp) hc
  · exact ha.apart new .refl (ReflTransGen.tail hp hc)
  · exact ha.own p hp hc

theorem Attachable.ne (ha : Attachable h root new) (hp : Linked h root p) : new ≠ p :=
  fun hh => ha.apart new .refl (hh ▸ hp)

section Attach
variable (ht : TreeInv h root) (ha : Attachable h root new)
include ht ha

theorem good_nodes : Good h (nodes h root new) := ht.ok.good.union ha.ok.good

/-- The nodes in order again, and the root still on top. -/
theorem treeInv_nodes (hg : Good h' (nodes h root new)) (htop : (h' root).parent = none) : TreeInv h' root :=
  TreeInv.of_good hg (Or.inl .refl) (ht.finite.union ha.finite) htop

variable {p : Ptr}

theorem request_step (hp : Linked h root p) :
    ∃ r, Returns (fun fuel => requestResourceLocked fuel h p new) r ∧ TreeInv r.2 root ∧
      (r.1.isSome = true → r.2 = h) := by
  obtain ⟨l, hc⟩ := ht.ok p hp
  obtain ⟨⟨c, h'⟩, hret, hreq⟩ := requestResourceLocked_returns hc new
  refine ⟨(c, h'), hret, ?_, fun hs => ?_⟩
  · cases c with
    | none =>
      have htop := hreq.parent (ha.ne .refl).symm
      exact treeInv_nodes ht ha (hreq.good (good_nodes ht ha) (Or.inl hp) (Or.inr .refl) ha.orphan
        (ha.ne hp) hc)
        (htop.trans ht.top)
    | some c => rw [show h' = h from hreq.unchanged]; exact ht
  · cases c with
    | none => nomatch hs
    | some c => exact hreq.unchanged

theorem insert_step (hp : Linked h root p) :
    ∃ r, Returns (fun fuel => insertResourceLocked fuel h p new) r ∧ TreeInv r.2 root ∧
      (r.1.isSome = true → r.2 = h) := by
  obtain ⟨⟨c, h'⟩, hret, hins⟩ := insertResourceLocked_returns (good_nodes ht ha)
    (Or.inr .refl) ha.orphan (ht.acc hp) (Or.inl hp)
    (ha.ne hp)
  refine ⟨(c, h'), hret, ?_, fun hs => ?_⟩
  · cases c with
    | none =>
      exact treeInv_nodes ht ha (hins.done rfl) (hins.top root (ha.ne .refl).symm ht.top)
    | some c => rw [show h' = h from (hins.conflict c rfl).1]; exact ht
  · cases c with
    | none => nomatch hs
    | some c => exact (hins.conflict c rfl).1

theorem expand_step (hp : Linked h root p) :
    ∃ r, Returns (fun fuel => insertResourceExpandToFit fuel h p new) r ∧ TreeInv r.2 root ∧
      (r.1 = false → ∀ q, Linked h root q → r.2 q = h q) := by
  by_cases hpar : (h new).parent.isSome = true
  · exact ⟨(false, h), returns_const fun n => if_pos hpar, ht, fun _ _ _ => rfl⟩
  · obtain ⟨⟨b, h'⟩, hret, hexp⟩ := expandLoop_returns (Or.inl hp) (Or.inr .refl)
      (ha.ne hp) _ h rfl (good_nodes ht ha) ha.orphan (ht.acc hp)
    have hsame : b = false → ∀ q, Linked h root q → h' q = h q := fun hb q hq =>
      hexp.refused hb q (ha.ne hq).symm
    refine ⟨(b, h'), hret.before hret fun n _ => if_neg hpar, ?_, hsame⟩
    cases b with
    | true =>
      exact treeInv_nodes ht ha (hexp.done rfl) (hexp.top root (ha.ne .refl).symm ht.top)
    | false =>
      refine SameTree.treeInv ht fun q hq => ?_
      show (h' q).start = _ ∧ (h' q).stop = _ ∧ (h' q).parent = _ ∧ (h' q).sibling = _ ∧ (h' q).child = _
      rw [hsame rfl q hq]
      exact ⟨rfl, rfl, rfl, rfl, rfl⟩

end Attach

variable {res : Ptr}

/-- `__request_region`: the granted region stands below a node that the walk passed. -/
theorem RegionRequested.treeInv {flags : Bool} {r : RegionResult × Heap}
    (ht : TreeInv h root) (ha : Attachable h root res) (hp : Linked h root p)
    (hreg : RegionRequested h p res flags r) : TreeInv r.2 root := by
  cases hreg with
  | granted q L R hq hc hfit hL hR =>
    have hq' : Linked h root q := ReflTransGen.trans hp hq.linked
    refine treeInv_nodes ht ha ((good_nodes ht ha).link (.inl hq') (.inr .refl)
      ha.orphan (ha.ne hq') hc ⟨hfit, hL, hR⟩) ?_
    show (linkAt _ _ _ _ _ root).parent = none
    rw [linkAt_ne (ha.ne .refl).symm, store_parent]
    exact ht.top
  | failed => exact ht
  | sleeps c => exact ht

theorem RegionRequested.unchanged {flags : Bool} {r : RegionResult × Heap}
    (hreg : RegionRequested h p res flags r) (hr : r.1 ≠ .granted) : r.2 = h := by
  cases hreg with
  | granted => exact absurd rfl hr
  | failed => rfl
  | sleeps => rfl

theorem RegionReleased.treeInv {start stop : Nat} {r : Option Ptr × Heap}
    (ht : TreeInv h root) (hrel : RegionReleased h p start stop r) :
    TreeInv r.2 root := by
  cases hrel with
  | nothing => exact ht
  | unlinked q L res R hq hc hb hr =>
    exact TreeInv.of_good (ht.ok.good.unlink hc) .refl ht.finite ((store_parent ..).trans ht.top)

theorem release_step (ht : TreeInv h root) {old : Ptr} (hpar : (h old).parent = some p)
    (hp : Linked h root p) : ∃ r, Returns (fun fuel => releaseResource fuel h old) r ∧
      TreeInv r.2 root ∧ (r.1 ≠ 0 → r.2 = h) := by
  obtain ⟨l, hc⟩ := ht.ok p hp
  obtain ⟨r, hret, hr⟩ := releaseLoop_returns old l [] hc.chain nofun
  refine ⟨r, ?_, ?_⟩
  · unfold releaseResource
    rw [hpar]
    exact hret
  · rcases hr with rfl | ⟨L, R, hl, rfl⟩
    · exact ⟨ht, fun _ => rfl⟩
    · obtain rfl : l = L ++ old :: R := hl
      have hg := (ht.ok.good.unlink hc).setParent (ht.ok.good.unlink_orphan hc) none
      refine ⟨TreeInv.of_good hg .refl ht.finite ?_, fun hh => absurd rfl hh⟩
      have hne : root ≠ old := fun hh => by rw [← hh, ht.top] at hpar; nomatch hpar
      show (setParent _ old none root).parent = none
      rw [setParent, update_of_ne hne, store_parent]
      exact ht.top

theorem allocate_step (w : Nat) (c : Constraint) (ht : TreeInv h root)
    (hp : Linked h root p) (hnew : ¬ Linked h root new) (hch : (h new).child = none) :
    ∃ r, Returns (fun fuel => allocateResource w c fuel h p new) r ∧ TreeInv r.2 root ∧
      (r.1 ≠ 0 → ∀ q, Linked h root q → r.2 q = h q) := by
  obtain ⟨l, hc⟩ := ht.ok p hp
  obtain ⟨range, hfind⟩ := findResource_returns w c hc new
  cases range with
  | none =>
    refine ⟨(EBUSY, h), hfind.before (returns_const fun _ => rfl) fun n hn => ?_, ht, fun _ _ _ => rfl⟩
    simp only [allocateResource, hn]
    rfl
  | some range =>
    -- the descriptor is moved before it is requested
    have hoff : SameTree h (setRange h new range.1 range.2) root := sameTree_of_off hnew fun q hq =>
      setRange_ne h new range.1 range.2 hq
    have hlinked : ∀ q, Linked (setRange h new range.1 range.2) root q ↔ Linked h root q := fun q =>
      hoff.linked ht.ok
    have ha : Attachable (setRange h new range.1 range.2) root new := attachable_of_childless
      ((setRange_links h new range.1 range.2 new).1.trans hch) fun hh => hnew ((hlinked new).mp hh)
    obtain ⟨⟨conf, h'⟩, hret, hinv, hsame⟩ := request_step (hoff.treeInv ht) ha ((hlinked p).mpr hp)
    refine ⟨(ebusy conf, h'), hfind.before (hret.map fun r => (ebusy r.1, r.2)) fun n hn => ?_, hinv,
      fun he q hq => ?_⟩
    · simp only [allocateResource, hn]
      rfl
    · have hsome : conf.isSome = true := by
        cases conf with
        | none => exact absurd rfl he
        | some _ => rfl
      show h' q = h q
      rw [show h' = _ from hsame hsome]
      exact setRange_ne h new range.1 range.2 fun hh => hnew (hh ▸ hq)

theorem requestRegion_step (w start n : Nat) (flags : Bool) (ht : TreeInv h root)
    (hp : Linked h root p) (hres : ¬ Linked h root res) :
    ∃ r, Returns (fun fuel => requestRegion w fuel h p start n flags (some res)) r ∧
      RegionRequested (update h res (newRegion w start n flags)) p res flags r ∧
      TreeInv r.2 root ∧ (r.1 ≠ .granted → ∀ q, Linked h root q → r.2 q = h q) := by
  have hoff : SameTree h (update h res (newRegion w start n flags)) root :=
    sameTree_of_off hres fun q hq => update_of_ne hq ..
  have hlinked : ∀ q, Linked (update h res (newRegion w start n flags)) root q ↔
      Linked h root q := fun q => hoff.linked ht.ok
  have ha : Attachable (update h res (newRegion w start n flags)) root res :=
    attachable_of_childless (by rw [Function.update_self]; rfl) fun hh => hres ((hlinked res).mp hh)
  have ht' := hoff.treeInv ht
  have hp' := (hlinked p).mpr hp
  obtain ⟨r, hret, hreg⟩ := regionLoop_returns ht'.ok.good res flags (ht'.acc hp') hp'
  refine ⟨r, hret, hreg, hreg.treeInv ht' ha hp', fun hr q hq => ?_⟩
  rw [hreg.unchanged hr]
  exact update_of_ne (fun hh : q = res => hres (hh ▸ hq)) ..

theorem ebusy_ne_zero {c : Option Ptr} (h : ebusy c ≠ 0) : c.isSome = true := by
  cases c with
  | none => exact absurd rfl h
  | some _ => rfl

/-- **Every valid call** finishes, keeps the tree in order, and if it reports a conflict it has left
    every node of the tree as it was. -/
theorem exec_step (w : Nat) (ht : TreeInv h root) {call : Call} (hv : Valid h root call) :
    ∃ r, Returns (fun fuel => exec w fuel h call) r ∧ TreeInv r.2 root ∧
      (r.1 = true → ∀ q, Linked h root q → r.2 q = h q) := by
  cases call with
  | requestResource p new =>
    obtain ⟨r, hret, hinv, hsame⟩ := request_step ht hv.2 hv.1
    refine ⟨_, (hret.map fun r => (ebusy r.1, r.2)).map fun r => (decide (r.1 ≠ 0), r.2), hinv,
      fun he q _ => ?_⟩
    exact congrFun (hsame (ebusy_ne_zero (of_decide_eq_true he))) q
  | insertResource p new =>
    obtain ⟨r, hret, hinv, hsame⟩ := insert_step ht hv.2 hv.1
    refine ⟨_, (hret.map fun r => (ebusy r.1, r.2)).map fun r => (decide (r.1 ≠ 0), r.2), hinv,
      fun he q _ => ?_⟩
    exact congrFun (hsame (ebusy_ne_zero (of_decide_eq_true he))) q
  | insertResourceExpandToFit p new =>
    obtain ⟨r, hret, hinv, hsame⟩ := expand_step ht hv.2 hv.1
    exact ⟨_, hret.map fun r => (!r.1, r.2), hinv, fun he q hq => hsame (by simpa using he) q hq⟩
  | allocateResource c p new =>
    obtain ⟨r, hret, hinv, hsame⟩ := allocate_step w c ht hv.1 hv.2.1 hv.2.2
    exact ⟨_, hret.map fun r => (decide (r.1 ≠ 0), r.2), hinv, fun he q hq =>
      hsame (of_decide_eq_true he) q hq⟩
  | releaseResource old =>
    obtain ⟨p, hpar, hp⟩ := hv
    obtain ⟨r, hret, hinv, hsame⟩ := release_step ht hpar hp
    exact ⟨_, hret.map fun r => (decide (r.1 ≠ 0), r.2), hinv, fun he q _ =>
      congrFun (hsame (of_decide_eq_true he)) q⟩
  | requestRegion p start n res =>
    cases res with
    | none =>
      exact ⟨(true, h), returns_const fun _ => rfl, ht, fun _ _ _ => rfl⟩
    | some res =>
      obtain ⟨r, hret, _, hinv, hsame⟩ := requestRegion_step w start n false ht hv.1 (hv.2 res rfl)
      exact ⟨_, hret.map fun r => (decide (r.1 ≠ .granted), r.2), hinv, fun he q hq =>
        hsame (of_decide_eq_true he) q hq⟩
  | releaseRegion p start n =>
    obtain ⟨r, hret, hrel⟩ := releaseRegionLoop_returns ht.ok.good start
      ((start + n + 2 ^ w - 1) % 2 ^ w) (ht.acc hv) hv
    refine ⟨_, hret.map fun r => (r.1.isNone, r.2), hrel.treeInv ht, fun he q _ => ?_⟩
    cases hrel with
    | nothing => rfl
    | unlinked => nomatch he

/-! ## All runs -/

/-- One step of a run: a valid call, or anything that leaves the tree alone. -/
inductive Step (w : Nat) (root : Ptr) : Heap → Heap → Prop where
  | call {h : Heap} {call : Call} {r : Bool × Heap} (hv : Valid h root call)
      (hret : Returns (fun fuel => exec w fuel h call) r) : Step w root h r.2
  | others {h h' : Heap} (hs : SameTree h h' root) : Step w root h h'

/-- The empty tree. -/
def Empty (root : Ptr) (h : Heap) : Prop := (h root).child = none ∧ (h root).parent = none

theorem treeInv_empty (root : Ptr) (h : Heap) (he : Empty root h) : TreeInv h root := by
  have hN : Good h {root} := by
    rintro p rfl
    exact ⟨[], ⟨he.1, List.Pairwise.nil, nofun, nofun, nofun⟩, nofun⟩
  exact TreeInv.of_good hN rfl (Set.finite_singleton root) he.2

theorem treeInv_step (w : Nat) (root : Ptr) (h h' : Heap) (ht : TreeInv h root)
    (hs : Step w root h h') : TreeInv h' root := by
  cases hs with
  | call hv hret =>
    obtain ⟨r, hret', hinv, _⟩ := exec_step w ht hv
    rw [hret.unique hret']
    exact hinv
  | others hs => exact hs.treeInv ht

theorem treeInv_of_reachable {w : Nat} {root : Ptr} {h : Heap}
    (hr : Run.Reachable (Empty root) (Step w root) h) : TreeInv h root :=
  Run.invariant_of_step (treeInv_empty root) (treeInv_step w root) hr

/-- **The resource tree is in order in every state of every run**: every child list is sorted by start,
    disjoint, without empty ranges, inside its parent and pointing back at it.  And every valid call
    finishes, and leaves the tree as it was if it reports a conflict. -/
theorem resourceTree_ordered {w : Nat} {root : Ptr} {h : Heap}
    (hr : Run.Reachable (Empty root) (Step w root) h) :
    (∀ p, Linked h root p → ∃ l, Leads (siblingOf h) (h p).child l none ∧
      l.Pairwise (fun q r => (h q).start < (h r).start ∧ (h q).stop < (h r).start) ∧
      ∀ q ∈ l, (h q).start ≤ (h q).stop ∧ (h p).start ≤ (h q).start ∧ (h q).stop ≤ (h p).stop ∧
      (h q).parent = some p) ∧
    ∀ call, Valid h root call → ∃ r, Returns (fun fuel => exec w fuel h call) r ∧
      (r.1 = true → ∀ q, Linked h root q → r.2 q = h q) := by
  have ht := treeInv_of_reachable hr
  refine ⟨fun p hp => ?_, fun call hv => ?_⟩
  · obtain ⟨l, hl⟩ := ht.ok p hp
    refine ⟨l, hl.chain, hl.sorted.imp_of_mem fun {q r} hq _ hqr => ?_, fun q hq =>
      ⟨hl.range q hq, (hl.inside q hq).1, (hl.inside q hq).2, hl.parent q hq⟩⟩
    exact ⟨Nat.lt_of_le_of_lt (hl.range q hq) hqr, hqr⟩
  · obtain ⟨r, hret, _, hsame⟩ := exec_step w ht hv
    exact ⟨r, hret, hsame⟩

/-! ### A run -/

/-- A root at 0 and two descriptors, at 1 and at 2, that are not in its tree. -/
def sampleHeap : Heap
  | 0 => ⟨0, 1000, false, false, none, none, none⟩
  | 1 => ⟨0, 100, false, false, none, none, none⟩
  | _ => ⟨10, 20, false, false, none, none, none⟩

/-- The heap after `request_resource` of the first descriptor. -/
def sampleLinked : Heap := linkAt sampleHeap 0 1 (.child 0) none

theorem sampleLinked_reachable : Run.Reachable (Empty 0) (Step 32 0) sampleLinked := by
  have hoff : ¬ Linked sampleHeap 0 1 := fun hh => nomatch linked_of_childless rfl hh
  have hret : Returns (fun fuel => exec 32 fuel sampleHeap (.requestResource 0 1))
      (false, sampleLinked) := returns_turn fun n => rfl
  have hv : Valid sampleHeap 0 (.requestResource 0 1) := ⟨.refl, attachable_of_childless rfl hoff⟩
  exact ⟨sampleHeap, ⟨rfl, rfl⟩, ReflTransGen.single (Step.call hv hret)⟩

theorem TreeInv.attachable {h : Heap} {root p : Ptr} (ht : TreeInv h root) (hne : p ≠ root)
    (hp : (h p).parent = none) (hc : (h p).child = none) : Attachable h root p := by
  refine attachable_of_childless hc fun hl => ?_
  obtain hroot | ⟨q, hq, hqp⟩ := ReflTransGen.cases_tail hl
  · exact hne hroot
  · exact nomatch hp.symm.trans (ht.ok.parent_of_child hq hqp)

/-- A root, two ranges in it, one around both and one that overlaps both. -/
def familyHeap : Heap
  | 0 => ⟨0, 1000, false, false, none, none, none⟩
  | 1 => ⟨100, 200, false, false, none, none, none⟩
  | 2 => ⟨300, 400, false, false, none, none, none⟩
  | 3 => ⟨50, 450, false, false, none, none, none⟩
  | _ => ⟨150, 350, false, false, none, none, none⟩

/-- What a call leads to, with enough turns for its loops. -/
def heapAfter (h : Heap) (call : Call) : Heap := ((exec 32 9 h call).map Prod.snd).getD h

/-- The two ranges are requested, and inserting the one around them makes it their parent. -/
def siblings : Heap := heapAfter (heapAfter familyHeap (.requestResource 0 1)) (.requestResource 0 2)
def enclosed : Heap := heapAfter siblings (.insertResource 0 3)

theorem reachable_heapAfter {h : Heap} {call : Call} (hr : Run.Reachable (Empty 0) (Step 32 0) h)
    (hv : Valid h 0 call) (hret : ∀ m, exec 32 (m + 9) h call = some (false, heapAfter h call)) :
    Run.Reachable (Empty 0) (Step 32 0) (heapAfter h call) := by
  have h9 : Returns (fun fuel => exec 32 fuel h call) (false, heapAfter h call) := ⟨9, fun fuel hf => by
    obtain ⟨m, rfl⟩ := Nat.exists_eq_add_of_le' hf
    exact hret m⟩
  exact hr.tail (Step.call hv h9)

theorem siblings_reachable : Run.Reachable (Empty 0) (Step 32 0) siblings := by
  have h0 : Run.Reachable (Empty 0) (Step 32 0) familyHeap := ⟨_, ⟨rfl, rfl⟩, .refl⟩
  have h1 : Run.Reachable (Empty 0) (Step 32 0) (heapAfter familyHeap (.requestResource 0 1)) :=
    reachable_heapAfter h0 ⟨.refl, (treeInv_of_reachable h0).attachable (by decide) rfl rfl⟩ fun m => rfl
  exact reachable_heapAfter h1 ⟨.refl, (treeInv_of_reachable h1).attachable (by decide) rfl rfl⟩ fun m => rfl

/-- Two siblings get a new parent, and a range that overlaps both is refused there. -/
theorem resourceTree_ordered_sample : (enclosed 0).child = some 3 ∧
    (∃ l, Leads (siblingOf enclosed) (enclosed 3).child l none ∧ ∀ q ∈ l, (enclosed q).parent = some 3) ∧
    Returns (fun fuel => exec 32 fuel enclosed (.requestResource 3 4)) (true, enclosed) := by
  have h : Run.Reachable (Empty 0) (Step 32 0) enclosed := reachable_heapAfter siblings_reachable
    ⟨.refl, (treeInv_of_reachable siblings_reachable).attachable (by decide) rfl rfl⟩ fun m => rfl
  obtain ⟨hnodes, hcalls⟩ := resourceTree_ordered h
  have h3 : Linked enclosed 0 3 := ReflTransGen.single ⟨[3], ⟨rfl, rfl⟩, List.mem_singleton.mpr rfl⟩
  obtain ⟨l, hl, _, hq⟩ := hnodes 3 h3
  obtain ⟨r, hret, _⟩ := hcalls (.requestResource 3 4)
    ⟨h3, (treeInv_of_reachable h).attachable (by decide) rfl rfl⟩
  have hbusy : Returns (fun fuel => exec 32 fuel enclosed (.requestResource 3 4)) (true, enclosed) :=
    returns_turn fun n => rfl
  exact ⟨rfl, ⟨l, hl, fun q hq' => (hq q hq').2.2.2⟩, hret.unique hbusy ▸ hret⟩

/-- A sequence of calls. -/
def execAll (w fuel : Nat) : Heap → List Call → Option Heap
  | h, [] => some h
  | h, call :: calls => (exec w fuel h call).bind fun r => execAll w fuel r.2 calls

/-- Ten units from 500 on. -/
def sampleConstraint : Constraint :=
  ⟨10, 500, 1000, 1, fun avail _ _ => avail.start, id⟩

/-- **`allocate_resource` can move a parent away from its children.**  A resource that is released keeps
    its children; allocating it elsewhere brings them back into the tree, outside their parent. -/
theorem allocateResource_moves_parent : ∃ h, Empty 0 sampleHeap ∧
    execAll 32 9 sampleHeap [.requestResource 0 1, .requestResource 1 2, .releaseResource 1,
      .allocateResource sampleConstraint 0 1] = some h ∧ ¬ TreeOk h 0 := by
  have hrun : (execAll 32 9 sampleHeap [.requestResource 0 1, .requestResource 1 2,
      .releaseResource 1, .allocateResource sampleConstraint 0 1]).map (fun h =>
        ((h 0).child, (h 1).sibling, (h 1).child, (h 2).sibling, (h 1).start, (h 2).start)) =
      some (some 1, none, some 2, none, 500, 10) := by decide
  obtain ⟨h, hh, hf⟩ := Option.map_eq_some_iff.mp hrun
  simp only [Prod.mk.injEq] at hf
  obtain ⟨h0, h1, h2, h3, h4, h5⟩ := hf
  refine ⟨h, ⟨rfl, rfl⟩, hh, fun ht => ?_⟩
  have hc : Child h 0 1 := ⟨[1], ⟨h0, h1⟩, List.mem_singleton.mpr rfl⟩
  obtain ⟨l, hl⟩ := ht 1 (ReflTransGen.single hc)
  have := (hl.inside 2 (hl.mem ⟨[2], ⟨h2, h3⟩, List.mem_singleton.mpr rfl⟩)).1
  omega

end LinuxKernel.ResourceTree
