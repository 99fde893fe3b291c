/-
  The shape of the resource tree, and pointer surgery on it (`kernel/resource.c`).

  1. **Children** — `Children h p l`: the child list of `p` is `l`, and it is in order: sorted, disjoint,
     not empty, inside `p` and pointing back at `p`.

  2. **Surgery** — what one insertion, one removal and one adoption do to the child list they are about,
     and that they leave every OTHER child list alone.  Two nodes never share a child, because a child
     has one `parent` pointer; this is the whole frame argument.

  3. **Descent** — the tree below a root without a parent has no cycles, so a descent ends.
-/
import LinuxKernel.Base.Chain
import LinuxKernel.Kernel.Resource

namespace LinuxKernel.ResourceTree

open List Function Chain Fuel
open Link (load store)

/-! ## Children -/

def siblingOf (h : Heap) (p : Ptr) : Option Ptr := (h p).sibling

/-- The child list of `p` is `l`, and it is in order. -/
structure Children (h : Heap) (p : Ptr) (l : List Ptr) : Prop where
  chain : Leads (siblingOf h) (h p).child l none
  sorted : l.Pairwise fun q r => (h q).stop < (h r).start
  range : ∀ q ∈ l, (h q).start ≤ (h q).stop
  inside : ∀ q ∈ l, (h p).start ≤ (h q).start ∧ (h q).stop ≤ (h p).stop
  parent : ∀ q ∈ l, (h q).parent = some p

variable {h : Heap} {p : Ptr} {l : List Ptr}

theorem Children.unique {l' : List Ptr} (hl : Children h p l)
    (hl' : Children h p l') : l = l' := leads_unique hl.chain hl'.chain

theorem Children.nodup (hl : Children h p l) : l.Nodup := hl.sorted.imp_of_mem fun {q r} hq _ hqr hh => by
    subst hh
    have := hl.range q hq
    omega

variable {q : Ptr}

/-- Two nodes share no child. -/
theorem Children.disjoint {p' : Ptr} {l' : List Ptr} (hl : Children h p l)
    (hl' : Children h p' l') (hp : p ≠ p') (hq : q ∈ l) : q ∉ l' := fun hq' =>
  hp (Option.some.inj ((hl.parent q hq).symm.trans (hl'.parent q hq')))

/-- Only some fields matter. -/
theorem Children.congr {h' : Heap} (hl : Children h p l)
    (hp : (h' p).child = (h p).child ∧ (h' p).start = (h p).start ∧ (h' p).stop = (h p).stop)
    (hq : ∀ q ∈ l, (h' q).sibling = (h q).sibling ∧ (h' q).parent = (h q).parent ∧
      (h' q).start = (h q).start ∧ (h' q).stop = (h q).stop) : Children h' p l where
  chain := by rw [hp.1]; exact leads_congr (fun q hq' => (hq q hq').1) hl.chain
  sorted := hl.sorted.imp_of_mem fun {q r} hq' hr' hqr => by
    rw [(hq q hq').2.2.2, (hq r hr').2.2.1]; exact hqr
  range := fun q hq' => by rw [(hq q hq').2.2.1, (hq q hq').2.2.2]; exact hl.range q hq'
  inside := fun q hq' => by
    rw [(hq q hq').2.2.1, (hq q hq').2.2.2, hp.2.1, hp.2.2]; exact hl.inside q hq'
  parent := fun q hq' => by rw [(hq q hq').2.1]; exact hl.parent q hq'

/-! ## Links -/

section Store
variable (h : Heap) (v : Option Ptr) (k : Link) (p : Ptr)

@[simp] theorem store_start : (k.store h v p).start = (h p).start := by
  cases k <;> simp only [store, update_apply] <;> split <;> simp_all

@[simp] theorem store_stop : (k.store h v p).stop = (h p).stop := by
  cases k <;> simp only [store, update_apply] <;> split <;> simp_all

@[simp] theorem store_busy : (k.store h v p).busy = (h p).busy := by
  cases k <;> simp only [store, update_apply] <;> split <;> simp_all

@[simp] theorem store_parent : (k.store h v p).parent = (h p).parent := by
  cases k <;> simp only [store, update_apply] <;> split <;> simp_all

theorem load_store : k.load (k.store h v) = v := by
  cases k <;> simp [load, store]

theorem load_store_ne {k k' : Link} (hk : k' ≠ k) : k'.load (k.store h v) = k'.load h := by
  cases k <;> cases k' <;> simp only [load, store, update_apply] <;> split <;>
    simp_all

theorem store_child (hk : k ≠ .child p) : (k.store h v p).child = (h p).child := load_store_ne h v hk.symm
theorem store_sibling (hk : k ≠ .sibling p) : (k.store h v p).sibling = (h p).sibling :=
    load_store_ne h v hk.symm

end Store

/-- The link behind the nodes `L`, in a list that starts at `k`. -/
def endLink (k : Link) : List Ptr → Link
  | [] => k
  | q :: L => endLink (.sibling q) L

theorem endLink_cases (L : List Ptr) : ∀ (k : Link),
    (L = [] ∧ endLink k L = k) ∨ ∃ q ∈ L, endLink k L = .sibling q := by
  induction L with
  | nil => intro k; exact .inl ⟨rfl, rfl⟩
  | cons q L ih =>
    intro k
    right
    rcases ih (.sibling q) with ⟨_, h⟩ | ⟨r, hr, h⟩
    · exact ⟨q, mem_cons_self .., h⟩
    · exact ⟨r, mem_cons_of_mem q hr, h⟩

theorem endLink_snoc (t : Ptr) (L : List Ptr) : ∀ k : Link, endLink k (L ++ [t]) = .sibling t := by
  induction L with
  | nil => intro k; rfl
  | cons q L ih => intro k; exact ih (.sibling q)

variable {L : List Ptr}

theorem endLink_ne_sibling (hq : q ∉ L) : endLink (.child p) L ≠ .sibling q := by
  rcases endLink_cases L (.child p) with ⟨_, h⟩ | ⟨r, hr, h⟩
  · rw [h]; exact nofun
  · rw [h]; exact fun hh => hq (by injection hh with hh; exact hh ▸ hr)

theorem endLink_ne_child (hp : q ≠ p) : endLink (.child p) L ≠ .child q := by
  rcases endLink_cases L (.child p) with ⟨_, h⟩ | ⟨r, hr, h⟩
  · rw [h]; exact fun hh => hp (by injection hh with hh; exact hh.symm)
  · rw [h]; exact nofun

/-- Storing at the end of `L` makes the list go on at what is stored. -/
theorem leads_store {m : Option Ptr} (v : Option Ptr) {L : List Ptr} : ∀ {k : Link},
    L.Nodup → (∀ q ∈ L, k ≠ .sibling q) → Leads (siblingOf h) (k.load h) L m →
    Leads (siblingOf ((endLink k L).store h v)) (k.load ((endLink k L).store h v)) L v := by
  induction L with
  | nil => intro k _ _ _; exact load_store h v k
  | cons q L ih =>
    intro k hn hk hl
    obtain ⟨hq, hn⟩ := nodup_cons.mp hn
    refine ⟨?_, ih hn (fun r hr hh => hq (by injection hh with hh; exact hh ▸ hr)) hl.2⟩
    rw [load_store_ne, hl.1]
    rcases endLink_cases L (.sibling q) with ⟨_, h'⟩ | ⟨r, hr, h'⟩
    · rw [show endLink k (q :: L) = .sibling q from h']; exact hk q (mem_cons_self ..)
    · rw [show endLink k (q :: L) = .sibling r from h']; exact hk r (mem_cons_of_mem q hr)

/-! ## Insertion -/

section LinkAt
variable {h : Heap} {root new : Ptr} {k : Link} {t : Option Ptr}

theorem linkAt_ne {p : Ptr} (hp : p ≠ new) : linkAt h root new k t p = k.store h (some new) p := by
  cases k with
  | child q =>
    by_cases hq : p = q <;> simp only [linkAt, setParent, store, update_apply] <;> simp_all
  | sibling q =>
    by_cases hq : p = q <;> simp only [linkAt, setParent, store, update_apply] <;> simp_all

theorem linkAt_new (hk : k ≠ .child new ∧ k ≠ .sibling new) :
    linkAt h root new k t new = { h new with sibling := t, parent := some root } := by
  cases k with
  | child q =>
    have hq : new ≠ q := fun hh => hk.1 (hh ▸ rfl)
    simp [linkAt, setParent, store, hq]
  | sibling q =>
    have hq : new ≠ q := fun hh => hk.2 (hh ▸ rfl)
    simp [linkAt, setParent, store, hq]

end LinkAt

/-- A heap in which the nodes have their old ranges. -/
def SameRanges (h h' : Heap) : Prop :=
  ∀ p, (h' p).start = (h p).start ∧ (h' p).stop = (h p).stop ∧ (h' p).busy = (h p).busy

theorem endLink_ne {new : Ptr} (hp : new ≠ p) (hL : new ∉ L) :
    endLink (.child p) L ≠ .child new ∧ endLink (.child p) L ≠ .sibling new :=
  ⟨endLink_ne_child hp, endLink_ne_sibling hL⟩

section Link
variable {h : Heap} {root new : Ptr} {L R : List Ptr}

theorem linkAt_sameRanges (hr : new ≠ root) (hL : new ∉ L) (t : Option Ptr) :
    SameRanges h (linkAt h root new (endLink (.child root) L) t) := by
  intro p
  by_cases hp : p = new
  · rw [hp, linkAt_new (endLink_ne hr hL)]
    exact ⟨rfl, rfl, rfl⟩
  · rw [linkAt_ne hp, store_start, store_stop, store_busy]
    exact ⟨rfl, rfl, rfl⟩

/-- What fits into `root`. -/
def Fits (h : Heap) (root new : Ptr) : Prop :=
  (h new).start ≤ (h new).stop ∧ (h root).start ≤ (h new).start ∧ (h new).stop ≤ (h root).stop

/-- The place of `new` among the children of `root`. -/
structure Place (h : Heap) (root new : Ptr) (L R : List Ptr) : Prop where
  fits : Fits h root new
  left : ∀ q ∈ L, (h q).stop < (h new).start
  right : ∀ q ∈ R, (h new).stop < (h q).start

/-- A node between `L` and `R`, in the place of `M`: the child list is in order again. -/
theorem Children.put {h' : Heap} {M : List Ptr} (hc : Children h root (L ++ (M ++ R)))
    (hsame : SameRanges h h') (hpl : Place h root new L R)
    (hchain : Leads (siblingOf h') (h' root).child (L ++ new :: R) none)
    (hparent : ∀ q ∈ L ++ new :: R, (h' q).parent = some root) : Children h' root (L ++ new :: R) := by
  obtain ⟨⟨hne, hin⟩, hL, hR⟩ := hpl
  obtain ⟨hsL, hsMR, hsd⟩ := pairwise_append.mp hc.sorted
  have hrange := hc.range
  have hinside := hc.inside
  refine ⟨hchain, ?_, ?_, ?_, hparent⟩ <;> simp only [fun p => (hsame p).1, fun p => (hsame p).2.1]
  · exact pairwise_append.mpr ⟨hsL, pairwise_cons.mpr ⟨hR, (pairwise_append.mp hsMR).2.1⟩, by grind⟩
  · grind
  · grind

/-- **Insertion**: the new node stands between `L` and `R`. -/
theorem Children.link (hc : Children h root (L ++ R)) (hr : new ≠ root) (hnew : new ∉ L ++ R)
    (hpl : Place h root new L R) :
    Children (linkAt h root new (endLink (.child root) L) R.head?) root (L ++ new :: R) := by
  have hnL : new ∉ L := fun hh => hnew (mem_append_left R hh)
  have hnR : new ∉ R := fun hh => hnew (mem_append_right L hh)
  have hsame := linkAt_sameRanges (h := h) hr hnL R.head?
  have hk := endLink_ne hr hnL
  obtain ⟨m, h1, h2⟩ := leads_append.mp hc.chain
  obtain ⟨hnodL, hnodR, hdis⟩ := nodup_append.mp hc.nodup
  refine Children.put (M := []) hc hsame hpl (leads_append.mpr ⟨some new, ?_, rfl, ?_⟩) fun q hq => ?_
  · -- up to the new node: the list of `L`, with its last link redirected
    have hst := leads_store (some new) (k := .child root) hnodL (fun q _ hh => nomatch hh) h1
    have hroot : (linkAt h root new (endLink (.child root) L) R.head? root).child =
        (Link.child root).load ((endLink (.child root) L).store h (some new)) := by
      rw [linkAt_ne hr.symm]; rfl
    rw [hroot]
    exact leads_congr (fun q hq => by
      unfold siblingOf; rw [linkAt_ne (ne_of_mem_of_not_mem hq hnL)]) hst
  · have hs : siblingOf (linkAt h root new (endLink (.child root) L) R.head?) new = m := by
      rw [siblingOf, linkAt_new hk]; exact (leads_head h2).symm
    rw [hs]
    refine leads_congr (fun q hq => ?_) h2
    unfold siblingOf
    rw [linkAt_ne (ne_of_mem_of_not_mem hq hnR), store_sibling _ _ _ _ (endLink_ne_sibling fun hh =>
      hdis q hh q hq rfl)]
  · rcases mem_cons.mp (perm_middle.mem_iff.mp hq) with rfl | hq
    · rw [linkAt_new hk]
    · rw [linkAt_ne (ne_of_mem_of_not_mem hq hnew), store_parent]
      exact hc.parent q hq

/-- Insertion leaves every other child list alone. -/
theorem Children.link_frame (hc : Children h root (L ++ R)) (hr : new ≠ root) (hnew : new ∉ L ++ R)
    (t : Option Ptr) {p : Ptr} {l : List Ptr} (hl : Children h p l) (hp : p ≠ root) (hn : new ∉ l) :
    Children (linkAt h root new (endLink (.child root) L) t) p l := by
  have hnL : new ∉ L := fun hh => hnew (mem_append_left R hh)
  have hsame := linkAt_sameRanges (h := h) hr hnL t
  refine hl.congr ⟨?_, (hsame p).1, (hsame p).2.1⟩ fun q hq => ?_
  · by_cases hpn : p = new
    · rw [hpn, linkAt_new (endLink_ne hr hnL)]
    · rw [linkAt_ne hpn, store_child _ _ _ _ (endLink_ne_child hp)]
  · have hqL : q ∉ L := fun hh => hc.disjoint hl hp.symm (mem_append_left R hh) hq
    rw [(hsame q).1, (hsame q).2.1, linkAt_ne (ne_of_mem_of_not_mem hq hn), store_parent,
      store_sibling _ _ _ _ (endLink_ne_sibling hqL)]
    exact ⟨rfl, rfl, rfl, rfl⟩

end Link

/-! ## Removal -/

section Unlink
variable {h : Heap} {parent old : Ptr} {L R : List Ptr}

/-- **Removal**: the list goes on behind the old node. -/
theorem Children.unlink (hc : Children h parent (L ++ old :: R)) :
    Children ((endLink (.child parent) L).store h (h old).sibling) parent (L ++ R) := by
  obtain ⟨m, h1, h2⟩ := leads_append.mp hc.chain
  obtain ⟨hnodL, hnodR, hdis⟩ := nodup_append.mp hc.nodup
  have hsub : ∀ q, q ∈ L ++ R → q ∈ L ++ old :: R := fun q hq =>
    perm_middle.mem_iff.mpr (mem_cons_of_mem old hq)
  refine ⟨leads_append.mpr ⟨(h old).sibling, ?_, ?_⟩, ?_, fun q hq => ?_, fun q hq => ?_, fun q hq => ?_⟩
  · exact leads_store (h old).sibling (k := .child parent) hnodL (fun q _ hh => nomatch hh) h1
  · refine leads_congr (fun q hq => ?_) h2.2
    exact store_sibling _ _ _ _ (endLink_ne_sibling fun hh =>
      hdis q hh q (mem_cons_of_mem old hq) rfl)
  · simp only [store_start, store_stop]
    exact hc.sorted.sublist (List.Sublist.append_left (sublist_cons_self old R) L)
  · rw [store_start, store_stop]; exact hc.range q (hsub q hq)
  · rw [store_start, store_stop, store_start, store_stop]; exact hc.inside q (hsub q hq)
  · rw [store_parent]; exact hc.parent q (hsub q hq)

/-- Removal leaves every other child list alone. -/
theorem Children.unlink_frame (hc : Children h parent (L ++ old :: R)) (v : Option Ptr) {p : Ptr}
    {l : List Ptr} (hl : Children h p l) (hp : p ≠ parent) :
    Children ((endLink (.child parent) L).store h v) p l := by
  refine hl.congr ⟨store_child _ _ _ _ (endLink_ne_child hp), store_start .., store_stop ..⟩ fun q hq => ?_
  have hqL : q ∉ L := fun hh => hc.disjoint hl hp.symm (mem_append_left _ hh) hq
  exact ⟨store_sibling _ _ _ _ (endLink_ne_sibling hqL), store_parent .., store_start .., store_stop ..⟩

/-- The parent pointer of a node that is no child does not matter. -/
theorem Children.setParent {p q : Ptr} {l : List Ptr} (hl : Children h p l) (hq : q ∉ l)
    (v : Option Ptr) : Children (setParent h q v) p l := by
  have hfields : ∀ r, (ResourceTree.setParent h q v r).child = (h r).child ∧
      (ResourceTree.setParent h q v r).sibling = (h r).sibling ∧
      (ResourceTree.setParent h q v r).start = (h r).start ∧
      (ResourceTree.setParent h q v r).stop = (h r).stop := by
    intro r
    by_cases hr : r = q <;> simp [ResourceTree.setParent, hr]
  refine hl.congr ⟨(hfields p).1, (hfields p).2.2⟩ fun r hr => ⟨(hfields r).2.1, ?_, (hfields r).2.2⟩
  rw [ResourceTree.setParent, update_of_ne (ne_of_mem_of_not_mem hr hq)]

end Unlink

/-! ## Adoption -/

/-- All nodes of `M` get the parent `new`. -/
def setParents (h : Heap) (M : List Ptr) (new : Ptr) : Heap := fun p =>
  if p ∈ M then { h p with parent := some new } else h p

theorem setParents_cons (h : Heap) (q : Ptr) (M : List Ptr) (new : Ptr) :
    setParents (setParent h q (some new)) M new = setParents h (q :: M) new := by
  funext p
  by_cases hp : p = q <;> by_cases hM : p ∈ M <;> simp_all [setParents, setParent]

theorem parentLoop_returns (new : Ptr) (M : List Ptr) : ∀ (h : Heap) (c : Option Ptr), M.Nodup →
    Leads (siblingOf h) c M none →
    Returns (fun fuel => parentLoop new fuel h c) (setParents h M new) := by
  induction M with
  | nil =>
    intro h c _ hl
    rw [show c = none from hl, show setParents h [] new = h from funext fun p => if_neg (by simp)]
    exact returns_turn fun n => rfl
  | cons q M ih =>
    intro h c hn hl
    obtain ⟨hq, hn⟩ := nodup_cons.mp hn
    rw [hl.1, ← setParents_cons]
    refine (ih (setParent h q (some new)) (setParent h q (some new) q).sibling hn ?_).turn fun n => rfl
    have hs : (setParent h q (some new) q).sibling = siblingOf h q := by simp [setParent, siblingOf]
    rw [hs]
    refine leads_congr (fun r hr => ?_) hl.2
    unfold siblingOf setParent
    rw [update_of_ne (ne_of_mem_of_not_mem hr hq)]

theorem relinkLoop_returns (first new : Ptr) (h : Heap) (L : List Ptr) : ∀ c : Ptr, first ∉ L →
    Leads (siblingOf h) (h c).sibling L (some first) →
    Returns (fun fuel => relinkLoop first new fuel h c) ((endLink (.sibling c) L).store h (some new)) := by
  induction L with
  | nil =>
    intro c _ hl
    refine returns_turn fun n => ?_
    show (if (h c).sibling = some first then _ else _) = _
    rw [if_pos (show (h c).sibling = some first from hl)]
    rfl
  | cons q L ih =>
    intro c hf hl
    refine (ih q (fun hh => hf (mem_cons_of_mem q hh)) hl.2).turn fun n => ?_
    have hq : ¬ (h c).sibling = some first := fun hh =>
      hf (Option.some.inj (hh.symm.trans hl.1) ▸ mem_cons_self ..)
    show (if (h c).sibling = some first then _ else _) = _
    rw [if_neg hq]
    simp only [hl.1]

/-- The heap in which `new` points at its neighbours and the list ends at `last`. -/
def cutAt (h : Heap) (parent new first last : Ptr) : Heap :=
  (Link.sibling last).store (update h new
    { h new with parent := some parent, sibling := (h last).sibling, child := some first }) none

/-- The heap after `adopt`. -/
def adopted (h : Heap) (parent new : Ptr) (L M : List Ptr) (first last : Ptr) : Heap :=
  (endLink (.child parent) L).store (setParents (cutAt h parent new first last) M new) (some new)

section Adopt
variable {h : Heap} {parent new first last : Ptr} {L M R : List Ptr}

theorem setParents_child (p : Ptr) : (setParents h M new p).child = (h p).child := by
  unfold setParents; split <;> rfl

theorem setParents_sibling (p : Ptr) : (setParents h M new p).sibling = (h p).sibling := by
  unfold setParents; split <;> rfl

theorem cutAt_child (p : Ptr) : (cutAt h parent new first last p).child =
    if p = new then some first else (h p).child := by
  rw [cutAt, store_child _ _ (.sibling last) p nofun]
  by_cases hp : p = new <;> simp [hp]

variable {p : Ptr}

theorem cutAt_sibling (hp : p ≠ last) : (cutAt h parent new first last p).sibling =
    if p = new then (h last).sibling else (h p).sibling := by
  rw [cutAt, store_sibling _ _ _ _ fun hh => hp (by injection hh with hh; exact hh.symm)]
  by_cases hp : p = new <;> simp [hp]

theorem adopted_sameRanges : SameRanges h (adopted h parent new L M first last) := by
  intro p
  unfold adopted
  simp only [store_start, store_stop, store_busy]
  unfold setParents cutAt
  split <;> simp only [store_start, store_stop, store_busy] <;>
    by_cases hp : p = new <;> simp [hp]

theorem adopted_child (hp : p ≠ parent) :
    (adopted h parent new L M first last p).child = if p = new then some first else (h p).child := by
  rw [adopted, store_child _ _ _ _ (endLink_ne_child hp), setParents_child, cutAt_child]

/-- Off the front part, the sibling pointers are those of `cutAt`. -/
theorem adopted_sibling (hp : p ∉ L) : (adopted h parent new L M first last p).sibling =
    (cutAt h parent new first last p).sibling := by
  rw [adopted, store_sibling _ _ _ _ (endLink_ne_sibling hp), setParents_sibling]

theorem adopted_parent : (adopted h parent new L M first last p).parent =
    if p ∈ M then some new else if p = new then some parent else (h p).parent := by
  rw [adopted, store_parent, setParents, cutAt]
  by_cases hM : p ∈ M
  · rw [if_pos hM, if_pos hM]
  · rw [if_neg hM, if_neg hM, store_parent]
    by_cases hpn : p = new <;> simp [hpn]

variable {M' : List Ptr}

/-- The part that is cut out. -/
theorem Children.cut_leads (hc : Children h parent (L ++ (M ++ R))) (hM : M = M' ++ [last])
    (hf : M.head? = some first) (hnew : new ∉ M) :
    Leads (siblingOf (cutAt h parent new first last)) (some first) M none := by
  obtain ⟨m, _, h2⟩ := leads_append.mp hc.chain
  obtain ⟨m', h3, _⟩ := leads_append.mp h2
  have hm : m = some first := by
    cases M with
    | nil => nomatch hf
    | cons q M => exact h3.1.trans hf
  have hn := (nodup_append.mp (nodup_append.mp hc.nodup).2.1).1
  rw [← hm]
  rw [hM] at h3 hn hnew ⊢
  obtain ⟨m'', h4, h5⟩ := leads_append.mp h3
  refine leads_append.mpr ⟨m'', leads_congr (fun q hq => ?_) h4, h5.1, load_store _ none (.sibling last)⟩
  have hql : q ≠ last := (nodup_append.mp hn).2.2 q hq last (mem_singleton.mpr rfl)
  exact (cutAt_sibling hql).trans (if_neg (ne_of_mem_of_not_mem (mem_append_left _ hq) hnew))

/-- The part in front of it. -/
theorem Children.front_leads (hc : Children h parent (L ++ (M ++ R))) (hlast : last ∈ M)
    (hf : M.head? = some first) (hp : new ≠ parent) (hnew : new ∉ L) :
    Leads (siblingOf (setParents (cutAt h parent new first last) M new))
      (setParents (cutAt h parent new first last) M new parent).child L (some first) := by
  obtain ⟨m, h1, h2⟩ := leads_append.mp hc.chain
  have hdis := (nodup_append.mp hc.nodup).2.2
  have hm : m = some first := by
    cases M with
    | nil => nomatch hf
    | cons q M => exact h2.1.trans hf
  rw [setParents_child, cutAt_child, if_neg hp.symm, ← hm]
  refine leads_congr (fun q hq => ?_) h1
  have hql : q ≠ last := hdis q hq last (mem_append_left R hlast)
  unfold siblingOf
  rw [setParents_sibling, cutAt_sibling hql, if_neg (ne_of_mem_of_not_mem hq hnew)]

section
variable (hc : Children h parent (L ++ (M ++ R))) (hM : M = M' ++ [last])
    (hf : M.head? = some first) (hp : new ≠ parent)
include hc hM hf hp

/-- `adopt` finishes. -/
theorem Children.adopt_returns (hnew : new ∉ L ++ (M ++ R)) :
    Returns (fun fuel => adopt fuel h parent new first last) (adopted h parent new L M first last) := by
  have hlast : last ∈ M := hM ▸ mem_append_right M' (mem_singleton.mpr rfl)
  have hnewM : new ∉ M := fun hh => hnew (mem_append_right L (mem_append_left R hh))
  have hfirst : first ∈ M := List.mem_of_head? hf
  obtain ⟨_, hnMR, hdis⟩ := nodup_append.mp hc.nodup
  have hfront := hc.front_leads hlast hf hp fun hh => hnew (mem_append_left _ hh)
  have hparents := parentLoop_returns new M _ _ (nodup_append.mp hnMR).1 (hc.cut_leads hM hf hnewM)
  cases L with
  | nil =>
    refine hparents.before (returns_const fun _ => rfl) fun n hn => ?_
    show (parentLoop new n (cutAt h parent new first last) (some first)).bind _ = _
    rw [hn, Option.bind_some]
    simp only [show (setParents (cutAt h parent new first last) M new parent).child =
      some first from hfront, if_true]
    rfl
  | cons c L =>
    have hcf : ¬ c = first := hdis c (mem_cons_self ..) first (mem_append_left R hfirst)
    refine hparents.before (relinkLoop_returns first new _ L c (fun hh =>
      hdis first (mem_cons_of_mem c hh) first (mem_append_left R hfirst) rfl) hfront.2)
      fun n hn => ?_
    show (parentLoop new n (cutAt h parent new first last) (some first)).bind _ = _
    rw [hn, Option.bind_some]
    simp only [hfront.1, if_neg hcf]

/-- **Adoption**, seen from the new node: its children are `M`. -/
theorem Children.adopt_new (hnew : new ∉ L ++ (M ++ R))
    (hin : ∀ q ∈ M, (h new).start ≤ (h q).start ∧ (h q).stop ≤ (h new).stop) :
    Children (adopted h parent new L M first last) new M := by
  have hsame : SameRanges h (adopted h parent new L M first last) := adopted_sameRanges
  have hsub : ∀ q ∈ M, q ∈ L ++ (M ++ R) := fun q hq =>
    mem_append_right L (mem_append_left R hq)
  have hML : ∀ q ∈ M, q ∉ L := fun q hq hh =>
    (nodup_append.mp hc.nodup).2.2 q hh q (mem_append_left R hq) rfl
  refine ⟨?_, ?_, fun q hq => ?_, fun q hq => ?_, fun q hq => by rw [adopted_parent, if_pos hq]⟩
  · rw [adopted_child hp, if_pos rfl]
    exact leads_congr (fun q hq => adopted_sibling (hML q hq)) (hc.cut_leads hM hf fun hh =>
      hnew (hsub new hh))
  · simp only [fun p => (hsame p).1, fun p => (hsame p).2.1]
    exact (pairwise_append.mp (pairwise_append.mp hc.sorted).2.1).1
  · rw [(hsame q).1, (hsame q).2.1]
    exact hc.range q (hsub q hq)
  · rw [(hsame q).1, (hsame q).2.1, (hsame new).1, (hsame new).2.1]
    exact hin q hq

/-- **Adoption**, seen from the parent: `new` stands in the place of `M`. -/
theorem Children.adopt_parent (hnew : new ∉ L ++ (M ++ R)) (hpl : Place h parent new L R) :
    Children (adopted h parent new L M first last) parent (L ++ new :: R) := by
  have hsame : SameRanges h (adopted h parent new L M first last) := adopted_sameRanges
  have hlast : last ∈ M := hM ▸ mem_append_right M' (mem_singleton.mpr rfl)
  obtain ⟨hnL, hnMR, hdis⟩ := nodup_append.mp hc.nodup
  obtain ⟨_, hnR, hdisMR⟩ := nodup_append.mp hnMR
  obtain ⟨m, h1, h2⟩ := leads_append.mp hc.chain
  obtain ⟨m', h3, h4⟩ := leads_append.mp h2
  have hnewL : new ∉ L := fun hh => hnew (mem_append_left _ hh)
  have hmem : ∀ q, q ∈ L ++ new :: R → q = new ∨ (q ∈ L ++ (M ++ R) ∧ q ∉ M) := by
    intro q hq
    rcases mem_append.mp hq with hq | hq
    · exact .inr ⟨mem_append_left _ hq, fun hh => hdis q hq q (mem_append_left R hh) rfl⟩
    · exact (mem_cons.mp hq).imp id fun hq =>
        ⟨mem_append_right L (mem_append_right M hq), fun hh => hdisMR q hh q hq rfl⟩
  refine hc.put hsame hpl (leads_append.mpr ⟨some new, ?_, rfl, ?_⟩) fun q hq => ?_
  · exact leads_store (some new) (k := .child parent) hnL nofun (hc.front_leads hlast hf hp hnewL)
  · have hnl : new ≠ last := fun hh =>
      hnew (hh ▸ mem_append_right L (mem_append_left R hlast))
    have hs : siblingOf (adopted h parent new L M first last) new = m' := by
      rw [siblingOf, adopted_sibling hnewL, cutAt_sibling hnl, if_pos rfl]
      rw [hM] at h3
      obtain ⟨_, _, h5⟩ := leads_append.mp h3
      exact h5.2
    rw [hs]
    refine leads_congr (fun q hq => ?_) h4
    have hqL : q ∉ L := fun hh => hdis q hh q (mem_append_right M hq) rfl
    unfold siblingOf
    rw [adopted_sibling hqL, cutAt_sibling fun hh => hdisMR last hlast q hq hh.symm, if_neg
      (ne_of_mem_of_not_mem (mem_append_right L (mem_append_right M hq)) hnew)]
  · rw [adopted_parent]
    rcases hmem q hq with rfl | ⟨hq, hqM⟩
    · rw [if_neg fun hh => hnew (mem_append_right L (mem_append_left R hh)), if_pos rfl]
    · rw [if_neg hqM, if_neg (ne_of_mem_of_not_mem hq hnew)]
      exact hc.parent q hq

end

/-- Adoption leaves every other child list alone. -/
theorem Children.adopt_frame (hc : Children h parent (L ++ (M ++ R))) (hlast : last ∈ M)
    {l : List Ptr} (hl : Children h p l) (hp : p ≠ parent) (hpn : p ≠ new)
    (hn : new ∉ l) : Children (adopted h parent new L M first last) p l := by
  have hsame : SameRanges h (adopted h parent new L M first last) := adopted_sameRanges
  have hapart : ∀ q ∈ l, q ∉ L ++ (M ++ R) := fun q hq => hl.disjoint hc hp hq
  refine hl.congr ⟨by rw [adopted_child hp, if_neg hpn], (hsame p).1, (hsame p).2.1⟩ fun q hq => ?_
  have hqn := ne_of_mem_of_not_mem hq hn
  have hqM : q ∉ M := fun hh => hapart q hq (mem_append_right L (mem_append_left R hh))
  rw [adopted_sibling (fun hh => hapart q hq (mem_append_left _ hh)),
    cutAt_sibling (Ne.symm (ne_of_mem_of_not_mem hlast hqM)), if_neg hqn, adopted_parent, if_neg hqM,
      if_neg hqn,
    (hsame q).1, (hsame q).2.1]
  exact ⟨rfl, rfl, rfl, rfl⟩

end Adopt

/-! ## Trees -/

/-- `q` is on the child list of `p`. -/
def Child (h : Heap) (p q : Ptr) : Prop := ∃ l, Leads (siblingOf h) (h p).child l none ∧ q ∈ l

/-- `q` can be reached from `root` through child lists. -/
def Linked (h : Heap) (root q : Ptr) : Prop := Relation.ReflTransGen (Child h) root q

/-- Every child list below `root` is in order. -/
def TreeOk (h : Heap) (root : Ptr) : Prop := ∀ p, Linked h root p → ∃ l, Children h p l

/-- A set of nodes that is closed under child lists, all of them in order. -/
def Good (h : Heap) (N : Set Ptr) : Prop := ∀ p ∈ N, ∃ l, Children h p l ∧ ∀ q ∈ l, q ∈ N

theorem Children.child (hl : Children h p l) (hq : q ∈ l) :
    Child h p q := ⟨l, hl.chain, hq⟩

theorem Children.mem (hl : Children h p l) (hq : Child h p q) : q ∈ l := by
  obtain ⟨l', hl', hq⟩ := hq
  exact leads_unique hl.chain hl' ▸ hq

variable {root : Ptr}

theorem TreeOk.good (ht : TreeOk h root) : Good h {p | Linked h root p} := by
  intro p hp
  obtain ⟨l, hl⟩ := ht p hp
  exact ⟨l, hl, fun q hq => Relation.ReflTransGen.tail hp (hl.child hq)⟩

variable {N : Set Ptr}

theorem Good.linked (hN : Good h N) (hr : root ∈ N) (hp : Linked h root p) : p ∈ N := by
  induction hp with
  | refl => exact hr
  | tail _ hc ih =>
    obtain ⟨l, hl, hsub⟩ := hN _ ih
    exact hsub _ (hl.mem hc)

theorem Good.treeOk (hN : Good h N) (hr : root ∈ N) :
    TreeOk h root := fun p hp =>
  let ⟨l, hl, _⟩ := hN p (hN.linked hr hp)
  ⟨l, hl⟩

theorem Good.union {N' : Set Ptr} (hN : Good h N) (hN' : Good h N') : Good h (N ∪ N') := by
  rintro p (hp | hp)
  · obtain ⟨l, hl, hsub⟩ := hN p hp
    exact ⟨l, hl, fun q hq => .inl (hsub q hq)⟩
  · obtain ⟨l, hl, hsub⟩ := hN' p hp
    exact ⟨l, hl, fun q hq => .inr (hsub q hq)⟩

/-- A change that keeps the child lists, or exchanges them for other ones among the same nodes. -/
theorem Good.of_frame {h' : Heap} (hN : Good h N)
    (hf : ∀ p ∈ N, ∀ l, Children h p l → (∀ q ∈ l, q ∈ N) → ∃ l', Children h' p l' ∧ ∀ q ∈ l', q ∈ N) :
    Good h' N := fun p hp =>
  let ⟨l, hl, hsub⟩ := hN p hp
  hf p hp l hl hsub

section Good
variable {h : Heap} {N : Set Ptr} {root new : Ptr} {L R : List Ptr}

/-- No node of `N` has `new` among its children. -/
def Orphan (h : Heap) (N : Set Ptr) (new : Ptr) : Prop := ∀ p ∈ N, ¬ Child h p new

theorem Orphan.not_mem (ho : Orphan h N new) {p : Ptr} (hp : p ∈ N) {l : List Ptr}
    (hl : Children h p l) : new ∉ l := fun hh => ho p hp (hl.child hh)

theorem Good.link (hN : Good h N) (hroot : root ∈ N) (hnew : new ∈ N) (ho : Orphan h N new)
    (hr : new ≠ root) (hc : Children h root (L ++ R)) (hpl : Place h root new L R) :
    Good (linkAt h root new (endLink (.child root) L) R.head?) N := by
  have hn := ho.not_mem hroot hc
  refine hN.of_frame fun p hp l hl hsub => ?_
  by_cases hpr : p = root
  · subst hpr
    refine ⟨L ++ new :: R, hc.link hr hn hpl, fun q hq => ?_⟩
    rw [hl.unique hc] at hsub
    rcases mem_cons.mp (perm_middle.mem_iff.mp hq) with rfl | hq
    · exact hnew
    · exact hsub q hq
  · exact ⟨l, hc.link_frame hr hn _ hl hpr (ho.not_mem hp hl), hsub⟩

theorem Good.unlink {parent old : Ptr} (hN : Good h N) (hc : Children h parent (L ++ old :: R)) :
    Good ((endLink (.child parent) L).store h (h old).sibling) N := by
  refine hN.of_frame fun p hp l hl hsub => ?_
  by_cases hpr : p = parent
  · subst hpr
    refine ⟨L ++ R, hc.unlink, fun q hq => ?_⟩
    rw [hl.unique hc] at hsub
    exact hsub q (perm_middle.mem_iff.mpr (mem_cons_of_mem old hq))
  · exact ⟨l, hc.unlink_frame _ hl hpr, hsub⟩

/-- After its removal the old node is nobody's child. -/
theorem Good.unlink_orphan {parent old : Ptr} (hN : Good h N) (hc : Children h parent (L ++ old :: R)) :
    Orphan ((endLink (.child parent) L).store h (h old).sibling) N old := by
  intro p hp hch
  obtain ⟨hnL, hnR, hdis⟩ := nodup_append.mp hc.nodup
  by_cases hpr : p = parent
  · subst hpr
    rcases mem_append.mp (hc.unlink.mem hch) with hq | hq
    · exact hdis old hq old (mem_cons_self ..) rfl
    · exact (nodup_cons.mp hnR).1 hq
  · obtain ⟨l, hl, _⟩ := hN p hp
    exact hl.disjoint hc hpr ((hc.unlink_frame _ hl hpr).mem hch) (mem_append_right L (mem_cons_self ..))

theorem Good.setParent {q : Ptr} (hN : Good h N) (ho : Orphan h N q) (v : Option Ptr) :
    Good (setParent h q v) N :=
  hN.of_frame fun _ hp l hl hsub => ⟨l, hl.setParent (ho.not_mem hp hl) v, hsub⟩

theorem Good.adopt {parent first last : Ptr} {M M' : List Ptr} (hN : Good h N) (hparent : parent ∈ N)
    (hnew : new ∈ N) (ho : Orphan h N new) (hr : new ≠ parent)
    (hc : Children h parent (L ++ (M ++ R))) (hM : M = M' ++ [last]) (hf : M.head? = some first)
    (hpl : Place h parent new L R) (hin : ∀ q ∈ M, (h new).start ≤ (h q).start ∧ (h q).stop ≤ (h new).stop) :
    Good (adopted h parent new L M first last) N := by
  have hn := ho.not_mem hparent hc
  obtain ⟨l0, hl0, hsub0⟩ := hN parent hparent
  rw [hl0.unique hc] at hsub0
  have hlast : last ∈ M := hM ▸ mem_append_right M' (mem_singleton.mpr rfl)
  refine hN.of_frame fun p hp l hl hsub => ?_
  by_cases hpr : p = parent
  · subst hpr
    refine ⟨L ++ new :: R, hc.adopt_parent hM hf hr hn hpl, fun q hq => ?_⟩
    rcases mem_append.mp hq with hq | hq
    · exact hsub0 q (mem_append_left _ hq)
    · rcases mem_cons.mp hq with rfl | hq
      · exact hnew
      · exact hsub0 q (mem_append_right L (mem_append_right M hq))
  · by_cases hpn : p = new
    · subst hpn
      exact ⟨M, hc.adopt_new hM hf hr hn hin, fun q hq =>
        hsub0 q (mem_append_right L (mem_append_left R hq))⟩
    · exact ⟨l, hc.adopt_frame hlast hl hpr hpn (ho.not_mem hp hl), hsub⟩

end Good

/-! ## Descent -/

/-- A finite tree below a root without a parent. -/
structure TreeInv (h : Heap) (root : Ptr) : Prop where
  ok : TreeOk h root
  top : (h root).parent = none
  finite : {p | Linked h root p}.Finite

theorem TreeInv.of_good (hN : Good h N) (hr : root ∈ N)
    (hfin : N.Finite) (htop : (h root).parent = none) : TreeInv h root :=
  ⟨hN.treeOk hr, htop, hfin.subset fun _ hp => hN.linked hr hp⟩

theorem TreeOk.parent_of_child (ht : TreeOk h root)
    (hp : Linked h root p) (hq : Child h p q) : (h q).parent = some p := by
  obtain ⟨l, hl⟩ := ht p hp
  exact hl.parent q (hl.mem hq)

/-- No node lies below itself: a cycle would, parent by parent, reach up to the root. -/
theorem TreeInv.acyclic (ht : TreeInv h root) (hp : Linked h root p) : ¬ Relation.TransGen (Child h) p p := by
  induction hp with
  | refl =>
    intro hc
    obtain ⟨b, hb, hbr⟩ := Relation.TransGen.tail'_iff.mp hc
    have := ht.ok.parent_of_child hb hbr
    rw [ht.top] at this
    nomatch this
  | @tail p q hp hpq ih =>
    intro hc
    obtain ⟨b, hb, hbq⟩ := Relation.TransGen.tail'_iff.mp hc
    have hbl : Linked h root b := (hp.tail hpq).trans hb
    obtain rfl : b = p :=
      Option.some.inj ((ht.ok.parent_of_child hbl hbq).symm.trans (ht.ok.parent_of_child hp hpq))
    exact ih (Relation.TransGen.head' hpq hb)

/-- **A descent ends.** -/
theorem TreeInv.acc (ht : TreeInv h root) (hp : Linked h root p) : Acc (fun q p => Child h p q) p := by
  have : Finite {p // Linked h root p} := ht.finite
  let r : {p // Linked h root p} → {p // Linked h root p} → Prop := fun q p =>
    Relation.TransGen (Child h) p.1 q.1
  have hirr : Std.Irrefl r := ⟨fun a => ht.acyclic a.2⟩
  have hwf : WellFounded r := Finite.wellFounded_of_trans_of_irrefl r
  have hall : ∀ a : {p // Linked h root p}, Acc (fun q p => Child h p q) a.1 := by
    intro a
    induction hwf.apply a with
    | intro a _ ih =>
      exact Acc.intro a.1 fun q hq => ih ⟨q, a.2.tail hq⟩ (Relation.TransGen.single hq)
  exact hall ⟨p, hp⟩

end LinuxKernel.ResourceTree
