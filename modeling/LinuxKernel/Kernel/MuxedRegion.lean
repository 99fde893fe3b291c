/-
  Muxed regions (`kernel/resource.c`): tasks that take turns on one range of ports.

  1. **The system** — any number of tasks call `__request_region(root, start, n, name,
     IORESOURCE_MUXED)` and `__release_region` on one root.  Every section under `resource_lock` is one
     event; a waiter may be woken at any later time; memory that has been freed may be handed out again,
     or change in any way.

  2. **The defect** — a waiter records the busy region it met as its new `parent` and, when woken, asks
     THAT region for a place: if its range fits in there it is granted, although the region may have been
     released, and its range granted to somebody else, in the meantime (`waiter_joins_holder`).

  3. **What is right** — in every run in which no waiter is woken while its range fits into the region it
     recorded, granted regions never overlap (`exclusive_of_guarded`).  The argument: a granted region is
     reached from the root through nodes that are not busy, and two such regions are disjoint.
-/
import LinuxKernel.Kernel.ResourceRun

namespace LinuxKernel.MuxedRegion

open Relation Function ResourceTree Chain Fuel List

/-! ## The system -/

inductive Phase where
  | idle
  | waiting (start n : Nat) (parent res : Ptr)
  | granted (start n : Nat) (res : Ptr)
  deriving DecidableEq, Repr

/-- The descriptor the task has allocated. -/
def Phase.res : Phase → Option Ptr
  | .idle => none
  | .waiting _ _ _ res => some res
  | .granted _ _ res => some res

structure World where
  heap : Heap
  live : Ptr → Bool
  tasks : Nat → Phase

inductive Event where
  | request (t start n : Nat) (res : Ptr)
  | resume (t : Nat)
  | release (t : Nat)
  | scribble (p : Ptr) (r : Resource)

/-- The last address of a region. -/
def regionEnd (w start n : Nat) : Nat := (start + n + 2 ^ w - 1) % 2 ^ w

/-- Where a section of `__request_region` leaves the task; a failed request frees the descriptor. -/
def World.after (s : World) (t start n : Nat) (res : Ptr) : RegionResult × Heap → World
  | (.granted, h) => ⟨h, s.live, update s.tasks t (.granted start n res)⟩
  | (.failed, h) => ⟨h, update s.live res false, update s.tasks t .idle⟩
  | (.sleeps p, h) => ⟨h, s.live, update s.tasks t (.waiting start n p res)⟩

/-- One event; `kzalloc` hands out memory that is not in use. -/
def next (w : Nat) (root : Ptr) (fuel : Nat) (s : World) : Event → Option World
  | .request t start n res =>
      if s.tasks t = .idle ∧ s.live res = false then
        (requestRegion w fuel s.heap root start n true (some res)).bind fun r =>
          some (World.after { s with live := update s.live res true } t start n res r)
      else none
  | .resume t =>
      match s.tasks t with
      | .waiting start n parent res =>
          (regionLoop res true fuel s.heap parent).bind fun r => some (s.after t start n res r)
      | _ => none
  | .release t =>
      match s.tasks t with
      | .granted start n _ =>
          (releaseRegion w fuel s.heap root start n).bind fun r => some ⟨r.2, (match r.1 with
              | some freed => update s.live freed false
              | none => s.live),
            update s.tasks t .idle⟩
      | _ => none
  | .scribble p r =>
      if s.live p = false then some { s with heap := update s.heap p r } else none

/-- A step of the system: the event happens, and its loops finish. -/
def Step (w : Nat) (root : Ptr) (s s' : World) : Prop :=
  ∃ e, Returns (fun fuel => next w root fuel s e) s'

/-- No waiter is woken while its range fits into the region it recorded. -/
def Guarded (s : World) : Event → Prop
  | .resume t => ∀ start n parent res, s.tasks t = .waiting start n parent res →
      ¬ Fits s.heap parent res
  | _ => True

def GuardedStep (w : Nat) (root : Ptr) (s s' : World) : Prop :=
  ∃ e, Guarded s e ∧ Returns (fun fuel => next w root fuel s e) s'

/-- An ordered tree of resources, and nobody has asked for anything yet. -/
def Init (root : Ptr) (s : World) : Prop :=
  TreeInv s.heap root ∧ (∀ p, Linked s.heap root p → s.live p = true) ∧ ∀ t, s.tasks t = .idle

/-! ## Regions reached through nodes that are not busy -/

/-- A busy region that a walk from `x` reaches. -/
def Held (h : Heap) (x r : Ptr) : Prop := ∃ p, Passed h x p ∧ Child h p r ∧ (h r).busy = true

variable {h : Heap} {x r : Ptr}

theorem Held.linked (hr : Held h x r) : Linked h x r := by
  obtain ⟨p, hp, hc, _⟩ := hr
  exact hp.linked.tail hc

/-- The first step towards a held region: the region itself, or a node that is not busy. -/
theorem Held.cases (hr : Held h x r) : (h r).busy = true ∧
    (Child h x r ∨ ∃ y, Child h x y ∧ (h y).busy = false ∧ Held h y r) := by
  obtain ⟨p, hp, hc, hb⟩ := hr
  refine ⟨hb, ?_⟩
  rcases ReflTransGen.cases_head hp with rfl | ⟨y, hxy, hyp⟩
  · exact .inl hc
  · exact .inr ⟨y, hxy.1, hxy.2, p, hyp, hc, hb⟩

variable {root : Ptr}

theorem inside_of_linked (ht : TreeOk h root) (hx : Linked h root x)
    (hr : Linked h x r) : (h x).start ≤ (h r).start ∧ (h r).stop ≤ (h x).stop := by
  induction hr with
  | refl => exact ⟨le_rfl, le_rfl⟩
  | tail hy hc ih =>
    obtain ⟨l, hl⟩ := ht _ (hx.trans hy)
    have := hl.inside _ (hl.mem hc)
    omega

/-- The ranges of two nodes are disjoint. -/
def Apart (h : Heap) (a b : Ptr) : Prop := (h a).stop < (h b).start ∨ (h b).stop < (h a).start

theorem siblings_apart {a b : Ptr} {l : List Ptr} (hl : Children h x l) (ha : a ∈ l)
    (hb : b ∈ l) (hab : a ≠ b) : Apart h a b := by
  have hsymm : Std.Symm (Apart h) := ⟨fun _ _ h => h.symm⟩
  have hpw : l.Pairwise (Apart h) := hl.sorted.imp fun hqr => .inl hqr
  exact hpw.forall ha hb hab

/-- **Held regions are disjoint.**  Walk down to the place where the two paths part; a held region is
    busy, so no path goes through it. -/
theorem held_apart (ht : TreeOk h root) (hacc : Acc (fun q p => Child h p q) x) (hx : Linked h root x) :
    ∀ {a b : Ptr}, Held h x a → Held h x b → a ≠ b → Apart h a b := by
  induction hacc with
  | intro x _ ih =>
    intro a b ha hb hab
    obtain ⟨l, hl⟩ := ht x hx
    -- the child of `x` on the way to a held region
    have hway : ∀ {r : Ptr}, Held h x r → ∃ c ∈ l, Linked h c r ∧
        ((h c).busy = true ∧ c = r ∨ (h c).busy = false ∧ Held h c r) := by
      intro r hr
      obtain ⟨hb, hc | ⟨y, hxy, hy, hyr⟩⟩ := hr.cases
      · exact ⟨r, hl.mem hc, .refl, .inl ⟨hb, rfl⟩⟩
      · exact ⟨y, hl.mem hxy, hyr.linked, .inr ⟨hy, hyr⟩⟩
    obtain ⟨c, hc, hca, hca'⟩ := hway ha
    obtain ⟨d, hd, hdb, hdb'⟩ := hway hb
    by_cases hcd : c = d
    · subst hcd
      rcases hca' with ⟨hbusy, rfl⟩ | ⟨hbusy, ha'⟩ <;> rcases hdb' with ⟨hbusy', rfl⟩ | ⟨hbusy', hb'⟩
      · exact absurd rfl hab
      · exact absurd (hbusy.symm.trans hbusy') Bool.noConfusion
      · exact absurd (hbusy.symm.trans hbusy') Bool.noConfusion
      · exact ih c (hl.child hc) (hx.tail (hl.child hc)) ha' hb' hab
    · have h1 := inside_of_linked ht (hx.tail (hl.child hc)) hca
      have h2 := inside_of_linked ht (hx.tail (hl.child hd)) hdb
      rcases siblings_apart hl hc hd hcd with h3 | h3
      · left; omega
      · right; omega

variable {h' : Heap}

/-- A change that keeps the links to nodes that are not busy. -/
theorem passed_mono {p : Ptr} (hp : Passed h x p)
    (hc : ∀ a b, Linked h x a → Child h a b → (h b).busy = false → Child h' a b)
    (hb : ∀ q, Linked h x q → (h' q).busy = (h q).busy) : Passed h' x p := by
  induction hp with
  | refl => exact .refl
  | @tail a b ha hab ih =>
    have hla : Linked h x a := Passed.linked ha
    exact ih.tail ⟨hc a b hla hab.1 hab.2, (hb b (hla.tail hab.1)).trans hab.2⟩

/-- A change that keeps, besides, the link to the region itself. -/
theorem Held.mono (hr : Held h x r)
    (hc : ∀ a b, Linked h x a → Child h a b → ((h b).busy = false ∨ b = r) → Child h' a b)
    (hb : ∀ q, Linked h x q → (h' q).busy = (h q).busy) : Held h' x r := by
  obtain ⟨p, hp, hpr, hbusy⟩ := hr
  exact ⟨p, passed_mono hp (fun a b ha hab hb => hc a b ha hab (.inl hb)) hb,
    hc p r hp.linked hpr (.inr rfl), (hb r (hp.linked.tail hpr)).trans hbusy⟩

/-- Writes outside the tree. -/
theorem Held.off (ht : TreeOk h root) (hr : Held h root r)
    (hh : ∀ p, Linked h root p → h' p = h p) : Held h' root r := by
  refine hr.mono (fun a b ha hab _ => ?_) fun q hq => by rw [hh q hq]
  obtain ⟨l, hl⟩ := ht a ha
  have hl' : Children h' a l := hl.congr (by rw [hh a ha]; exact ⟨rfl, rfl, rfl⟩) fun q hq => by
    rw [hh q (ha.tail (hl.child hq))]; exact ⟨rfl, rfl, rfl, rfl⟩
  exact hl'.child (hl.mem hab)

section Link
variable {h : Heap} {root p new : Ptr} {L R : List Ptr}

/-- An insertion only adds to the child lists. -/
theorem link_child (ht : TreeOk h root) (hc : Children h p (L ++ R)) (hr : new ≠ p)
    (hnew : ¬ Linked h root new) (hp : Linked h root p) (hpl : Place h p new L R)
    {a b : Ptr} (ha : Linked h root a) (hab : Child h a b) :
    Child (linkAt h p new (endLink (.child p) L) R.head?) a b := by
  have hn : ∀ {x l}, Linked h root x → Children h x l → new ∉ l := fun hx hl hh =>
    hnew (hx.tail (hl.child hh))
  obtain ⟨l, hl⟩ := ht a ha
  by_cases hap : a = p
  · subst hap
    refine (hc.link hr (hn ha hc) hpl).child ?_
    exact perm_middle.mem_iff.mpr (mem_cons_of_mem new (hc.mem hab))
  · exact (hc.link_frame hr (hn hp hc) _ hl hap (hn ha hl)).child (hl.mem hab)

/-- A removal only takes the one node away. -/
theorem unlink_child {old : Ptr} (ht : TreeOk h root) (hc : Children h p (L ++ old :: R)) {a b : Ptr}
    (ha : Linked h root a) (hab : Child h a b) (hb : b ≠ old) :
    Child ((endLink (.child p) L).store h (h old).sibling) a b := by
  obtain ⟨l, hl⟩ := ht a ha
  by_cases hap : a = p
  · subst hap
    refine hc.unlink.child ?_
    exact (mem_cons.mp (perm_middle.mem_iff.mp (hc.mem hab))).resolve_left hb
  · exact (hc.unlink_frame _ hl hap).child (hl.mem hab)

end Link

/-! ## The invariant of guarded runs -/

structure Inv (w : Nat) (root : Ptr) (s : World) : Prop where
  tree : TreeInv s.heap root
  live : ∀ p, Linked s.heap root p → s.live p = true
  granted : ∀ t start n res, s.tasks t = .granted start n res → Held s.heap root res ∧
    (s.heap res).start = start ∧ (s.heap res).stop = regionEnd w start n
  waiting : ∀ t start n parent res, s.tasks t = .waiting start n parent res →
    s.live res = true ∧ ¬ Linked s.heap root res
  distinct : ∀ t t' r, t ≠ t' → (s.tasks t).res = some r → (s.tasks t').res ≠ some r

variable {w : Nat}

theorem inv_init (s : World) (h : Init root s) : Inv w root s := by
  obtain ⟨ht, hl, hidle⟩ := h
  refine ⟨ht, hl, fun t start n res he => ?_, fun t start n parent res he => ?_, fun t t' r _ he => ?_⟩
  · rw [hidle] at he; nomatch he
  · rw [hidle] at he; nomatch he
  · rw [hidle] at he; nomatch he

variable {s : World}

/-- The descriptor of a task is in use. -/
theorem Inv.res_live (h : Inv w root s) {t : Nat} (hr : (s.tasks t).res = some r) : s.live r = true := by
  cases ht : s.tasks t with
  | idle => rw [ht] at hr; nomatch hr
  | waiting start n parent res =>
    rw [ht] at hr
    exact Option.some.inj hr ▸ (h.waiting t start n parent res ht).1
  | granted start n res =>
    rw [ht] at hr
    exact Option.some.inj hr ▸ h.live res (h.granted t start n res ht).1.linked

/-- The phase of task `t` changes to `ph`, which keeps the descriptors of different tasks distinct. -/
theorem distinct_update {tasks : Nat → Phase} {t : Nat} {ph : Phase}
    (h : ∀ t t' r, t ≠ t' → (tasks t).res = some r → (tasks t').res ≠ some r)
    (hph : ∀ t' r, t' ≠ t → (tasks t').res = some r → ph.res ≠ some r) :
    ∀ t1 t2 r, t1 ≠ t2 → (update tasks t ph t1).res = some r → (update tasks t ph t2).res ≠ some r := by
  intro t1 t2 r hne h1 h2
  by_cases ht1 : t1 = t
  · subst ht1
    rw [update_self] at h1
    rw [update_of_ne (Ne.symm hne)] at h2
    exact hph t2 r (Ne.symm hne) h2 h1
  · rw [update_of_ne ht1] at h1
    by_cases ht2 : t2 = t
    · subst ht2
      rw [update_self] at h2
      exact hph t1 r ht1 h1 h2
    · rw [update_of_ne ht2] at h2
      exact h t1 t2 r hne h1 h2

section Steps
variable {w : Nat} {root : Ptr} {s : World}

/-- What a task in a phase is entitled to. -/
def PhaseOk (w : Nat) (root : Ptr) (heap : Heap) (live : Ptr → Bool) : Phase → Prop
  | .idle => True
  | .waiting _ _ _ res => live res = true ∧ ¬ Linked heap root res
  | .granted start n res => Held heap root res ∧ (heap res).start = start ∧
      (heap res).stop = regionEnd w start n

theorem Inv.phaseOk (h : Inv w root s) (t : Nat) : PhaseOk w root s.heap s.live (s.tasks t) := by
  cases ht : s.tasks t with
  | idle => trivial
  | waiting start n parent res => exact h.waiting t start n parent res ht
  | granted start n res => exact h.granted t start n res ht

/-- A change that leaves the descriptor of the task in use, where it is and as it is. -/
theorem PhaseOk.congr {heap heap' : Heap} {live live' : Ptr → Bool} {ph : Phase}
    (hok : PhaseOk w root heap live ph)
    (hlive : ∀ r, ph.res = some r → live r = true → live' r = true)
    (hlinked : ∀ r, ph.res = some r → Linked heap' root r → Linked heap root r)
    (hheld : ∀ r, ph.res = some r → Held heap root r → Held heap' root r ∧
      (heap' r).start = (heap r).start ∧ (heap' r).stop = (heap r).stop) : PhaseOk w root heap' live' ph := by
  cases ph with
  | idle => trivial
  | waiting start n parent r => exact ⟨hlive r rfl hok.1, fun hh => hok.2 (hlinked r rfl hh)⟩
  | granted start n r =>
    obtain ⟨h1, h2, h3⟩ := hheld r rfl hok.1
    exact ⟨h1, h2.trans hok.2.1, h3.trans hok.2.2⟩

theorem Inv.of_phaseOk (htree : TreeInv s.heap root) (hlive : ∀ p, Linked s.heap root p → s.live p = true)
    (hall : ∀ t, PhaseOk w root s.heap s.live (s.tasks t))
    (hdistinct : ∀ t t' r, t ≠ t' → (s.tasks t).res = some r → (s.tasks t').res ≠ some r) : Inv w root s := by
  refine ⟨htree, hlive, fun t start n res ht => ?_, fun t start n parent res ht => ?_, hdistinct⟩ <;>
    have := hall t <;> rwa [ht] at this

/-- Memory that is not in use changes. -/
theorem Inv.scribble (h : Inv w root s) {p : Ptr} (hp : s.live p = false) (r : Resource) :
    Inv w root { s with heap := update s.heap p r } := by
  have hoff : ¬ Linked s.heap root p := fun hh => Bool.false_ne_true (hp.symm.trans (h.live p hh))
  have hheap : ∀ q, q ≠ p → update s.heap p r q = s.heap q := fun q hq =>
    update_of_ne hq ..
  have hsame : SameTree s.heap (update s.heap p r) root := sameTree_of_off hoff hheap
  have hlinked : ∀ q, Linked (update s.heap p r) root q ↔ Linked s.heap root q := fun q =>
    hsame.linked h.tree.ok
  have hne : ∀ q, Linked s.heap root q → q ≠ p := fun q hq hh => hoff (hh ▸ hq)
  refine .of_phaseOk (hsame.treeInv h.tree) (fun q hq => h.live q ((hlinked q).mp hq)) (fun t =>
    ?_) h.distinct
  refine (h.phaseOk t).congr (fun _ _ hl => hl) (fun res _ => (hlinked res).mp) fun res _ hheld =>
    ⟨hheld.off h.tree.ok fun q hq => hheap q (hne q hq), ?_⟩
  show (update s.heap p r res).start = _ ∧ (update s.heap p r res).stop = _
  rw [hheap res (hne res hheld.linked)]
  exact ⟨rfl, rfl⟩

/-- Memory is handed out. -/
theorem Inv.alloc (h : Inv w root s) (p : Ptr) : Inv w root { s with live := update s.live p true } := by
  have hl : ∀ q, s.live q = true → update s.live p true q = true := fun q hq => by
    by_cases hqp : q = p
    · rw [hqp, update_self]
    · rw [update_of_ne hqp]; exact hq
  exact .of_phaseOk h.tree (fun q hq => hl q (h.live q hq)) (fun t => (h.phaseOk t).congr (fun q _ => hl q)
    (fun _ _ hh => hh) fun _ _ hh => ⟨hh, rfl, rfl⟩) h.distinct

variable {t start n : Nat} {res : Ptr}

/-- No other task uses the descriptor `res`. -/
def Private (s : World) (t : Nat) (res : Ptr) : Prop :=
  ∀ t' r, t' ≠ t → (s.tasks t').res = some r → r ≠ res

/-- **One task moves on**: the tree is in order and in use, the other tasks keep what they are entitled
    to, and the task gets what its new phase entitles it to. -/
theorem Inv.move (h : Inv w root s) {heap : Heap} {live : Ptr → Bool} {ph : Phase}
    (htree : TreeInv heap root) (hlive : ∀ p, Linked heap root p → live p = true)
    (hothers : ∀ t', t' ≠ t → PhaseOk w root heap live (s.tasks t'))
    (hself : PhaseOk w root heap live ph)
    (hres : ∀ r, ph.res = some r → Private s t r) :
    Inv w root ⟨heap, live, update s.tasks t ph⟩ := by
  have hall : ∀ t', PhaseOk w root heap live (update s.tasks t ph t') := by
    intro t'
    by_cases htt : t' = t
    · rw [htt, update_self]; exact hself
    · rw [update_of_ne htt]; exact hothers t' htt
  exact .of_phaseOk htree hlive hall (distinct_update h.distinct fun t' r htt hr hh =>
    hres r hh t' r htt hr rfl)

theorem Inv.failed (h : Inv w root s) (hpriv : Private s t res) (hres : ¬ Linked s.heap root res) :
    Inv w root ⟨s.heap, update s.live res false, update s.tasks t .idle⟩ := by
  refine h.move h.tree (fun p hp => ?_) (fun t' htt => ?_) trivial nofun
  · rw [update_of_ne fun hh : p = res => hres (hh ▸ hp)]
    exact h.live p hp
  · refine (h.phaseOk t').congr (fun r hr hl => ?_) (fun _ _ hh => hh) fun _ _ hh => ⟨hh, rfl, rfl⟩
    rw [update_of_ne (hpriv t' r htt hr)]
    exact hl

theorem Inv.sleeps (h : Inv w root s) (hpriv : Private s t res) (hres : ¬ Linked s.heap root res)
    (hlive : s.live res = true) (p : Ptr) :
    Inv w root ⟨s.heap, s.live, update s.tasks t (.waiting start n p res)⟩ :=
  h.move h.tree h.live (fun t' _ => h.phaseOk t') ⟨hlive, hres⟩ fun _ hr => Option.some.inj hr ▸ hpriv

/-- The region is linked in below a node that the walk from the root passed. -/
theorem Inv.linked (h : Inv w root s) (hpriv : Private s t res) (hres : ¬ Linked s.heap root res)
    (hlive : s.live res = true) (hchild : (s.heap res).child = none)
    (hbusy : (s.heap res).busy = true) (hrange : (s.heap res).start = start ∧
      (s.heap res).stop = regionEnd w start n) {p : Ptr} {L R : List Ptr} (hp : Passed s.heap root p)
    (hc : Children s.heap p (L ++ R)) (hfit : Fits s.heap p res)
    (hL : ∀ q ∈ L, (s.heap q).stop < (s.heap res).start)
    (hR : ∀ q ∈ R, (s.heap res).stop < (s.heap q).start) :
    Inv w root ⟨linkAt s.heap p res (endLink (.child p) L) R.head?, s.live,
      update s.tasks t (.granted start n res)⟩ := by
  have ha : Attachable s.heap root res := attachable_of_childless hchild hres
  have hp' := hp.linked
  have hne := ha.ne hp'
  have hnew : res ∉ L ++ R := fun hh => hres (hp'.tail (hc.child hh))
  have hsame := linkAt_sameRanges (h := s.heap) hne (fun hh => hnew (mem_append_left R hh)) R.head?
  have hspec : RegionRequested s.heap root res true
    (.granted, linkAt s.heap p res (endLink (.child p) L) R.head?) := .granted p L R hp hc hfit hL hR
  have hgood := (good_nodes h.tree ha).link (.inl hp') (.inr .refl) ha.orphan hne hc ⟨hfit, hL, hR⟩
  have hnodes : ∀ q, Linked (linkAt s.heap p res (endLink (.child p) L) R.head?) root q →
      Linked s.heap root q ∨ q = res := fun q hq =>
    (hgood.linked (.inl .refl) hq).imp id (linked_of_childless hchild)
  have hmono : ∀ a b, Linked s.heap root a → Child s.heap a b →
      Child (linkAt s.heap p res (endLink (.child p) L) R.head?) a b := fun a b ha' hab =>
    link_child h.tree.ok hc hne hres hp' ⟨hfit, hL, hR⟩ ha' hab
  refine h.move (hspec.treeInv h.tree ha .refl) (fun q hq => ?_)
    (fun t' htt => ?_) ⟨⟨p, ?_, ?_, (hsame res).2.2.trans hbusy⟩, (hsame res).1.trans hrange.1,
      (hsame res).2.1.trans hrange.2⟩ fun _ hr => Option.some.inj hr ▸ hpriv
  · rcases hnodes q hq with hq | rfl
    · exact h.live q hq
    · exact hlive
  · exact (h.phaseOk t').congr (fun _ _ hl => hl)
      (fun r hr hh => (hnodes r hh).resolve_right (hpriv t' r htt hr)) fun r _ hh =>
        ⟨hh.mono (fun a b ha' hab _ => hmono a b ha' hab) fun q _ => (hsame q).2.2, (hsame r).1,
          (hsame r).2.1⟩
  · exact passed_mono hp (fun a b ha' hab _ => hmono a b ha' hab) fun q _ => (hsame q).2.2
  · exact (hc.link hne hnew ⟨hfit, hL, hR⟩).child (mem_append_right L (mem_cons_self ..))

/-- A section of `__request_region` that starts at the root. -/
theorem Inv.request (h : Inv w root s) (hfree : s.live res = false)
    {r : RegionResult × Heap}
    (hspec : RegionRequested (update s.heap res (newRegion w start n true)) root res true r) :
    Inv w root (World.after { s with live := update s.live res true } t start n res r) := by
  let new := newRegion w start n true
  have hres : ¬ Linked s.heap root res := fun hh =>
    Bool.false_ne_true (hfree.symm.trans (h.live res hh))
  -- the descriptor has been allocated and filled in
  have h1 : Inv w root ⟨update s.heap res new, update s.live res true, s.tasks⟩ :=
    (h.scribble hfree _).alloc res
  have hpriv : Private ⟨update s.heap res new, update s.live res true, s.tasks⟩ t res := fun t' r _ hr hh =>
    Bool.false_ne_true (hfree.symm.trans (hh ▸ h.res_live hr))
  have hsame : SameTree s.heap (update s.heap res new) root :=
    sameTree_of_off hres fun q hq => update_of_ne hq ..
  have hres1 : ¬ Linked (update s.heap res new) root res := fun hh =>
    hres ((hsame.linked h.tree.ok).mp hh)
  have hself : update s.heap res new res = newRegion w start n true := update_self ..
  have hlive : update s.live res true res = true := update_self ..
  cases hspec with
  | granted p L R hp hc hfit hL hR =>
    refine h1.linked hpriv hres1 hlive ?_ ?_ ?_ hp hc hfit hL hR
    · exact congrArg Resource.child hself
    · exact congrArg Resource.busy hself
    · exact ⟨congrArg Resource.start hself, congrArg Resource.stop hself⟩
  | failed => exact h1.failed hpriv hres1
  | sleeps c hf hm => exact h1.sleeps hpriv hres1 hlive c

/-- A waiter that does not fit into the region it recorded gets nothing. -/
theorem regionLoop_guarded {h : Heap} {parent res : Ptr} (hfit : ¬ Fits h parent res) :
    ∃ r, Returns (fun fuel => regionLoop res true fuel h parent) r ∧
    (r = (.failed, h) ∨ r = (.sleeps parent, h)) := by
  have hreq : ∀ fuel, requestResourceLocked fuel h parent res = some (some parent, h) := by
    intro fuel
    unfold requestResourceLocked Fits at *
    simp only
    split
    · rfl
    · split
      · rfl
      · split
        · rfl
        · exact absurd ⟨by omega, by omega, by omega⟩ hfit
  have hcond : ¬ (parent ≠ parent ∧ (h parent).busy = false) := fun hh => hh.1 rfl
  by_cases hm : ((h parent).muxed && true) = true
  · refine ⟨(.sleeps parent, h), returns_turn fun n => ?_, .inr rfl⟩
    simp only [regionLoop, hreq]
    exact (if_neg hcond).trans (if_pos hm)
  · refine ⟨(.failed, h), returns_turn fun n => ?_, .inl rfl⟩
    simp only [regionLoop, hreq]
    exact (if_neg hcond).trans (if_neg hm)

/-- **A holder releases its own region**: what `__release_region` finds is busy and has the range of the
    region, and held regions are disjoint. -/
theorem Inv.release (h : Inv w root s) (ht : s.tasks t = .granted start n res)
    {r : Option Ptr × Heap} (hrel : RegionReleased s.heap root start (regionEnd w start n) r) :
    Inv w root ⟨r.2, (match r.1 with
      | some freed => update s.live freed false
      | none => s.live), update s.tasks t .idle⟩ := by
  obtain ⟨hheld, hstart, hstop⟩ := h.granted t start n res ht
  cases hrel with
  | nothing =>
    exact h.move h.tree h.live (fun t' _ => h.phaseOk t') trivial nofun
  | unlinked p L res' R hp hc hb hr =>
    obtain rfl : res' = res := by
      by_contra hne
      have hrange := hc.range res' (mem_append_right L (mem_cons_self ..))
      have hheld' : Held s.heap root res' := ⟨p, hp, hc.child (mem_append_right L (mem_cons_self ..)), hb⟩
      have := held_apart h.tree.ok (h.tree.acc .refl) .refl hheld' hheld hne
      unfold Apart at this
      omega
    have hgood := h.tree.ok.good.unlink hc
    have horph := h.tree.ok.good.unlink_orphan hc
    have hlinked : ∀ q, Linked ((endLink (.child p) L).store s.heap (s.heap res').sibling) root q →
        Linked s.heap root q := fun q hq =>
      hgood.linked (.refl : Linked s.heap root root) hq
    have hgone : ¬ Linked ((endLink (.child p) L).store s.heap (s.heap res').sibling) root res' := by
      intro hh
      rcases ReflTransGen.cases_tail hh with hh | ⟨q, hq, hqr⟩
      · have := hc.parent res' (mem_append_right L (mem_cons_self ..))
        rw [hh, h.tree.top] at this
        nomatch this
      · exact horph q (hlinked q hq) hqr
    refine h.move ((RegionReleased.unlinked p L res' R hp hc hb hr).treeInv h.tree)
      (fun q hq => ?_) (fun t' htt => ?_) trivial nofun
    · show update s.live res' false q = true
      rw [update_of_ne fun hh : q = res' => hgone (hh ▸ hq)]
      exact h.live q (hlinked q hq)
    · have hne : ∀ r, (s.tasks t').res = some r → r ≠ res' := fun r hr hh =>
        h.distinct t' t r htt hr (by rw [ht, hh]; rfl)
      refine (h.phaseOk t').congr (fun r hr hl => ?_) (fun r _ => hlinked r) fun r hr hh =>
        ⟨hh.mono (fun a b ha hab hbr => ?_) fun q _ => store_busy .., store_start .., store_stop ..⟩
      · show update s.live res' false r = true
        rw [update_of_ne (hne r hr)]
        exact hl
      · refine unlink_child h.tree.ok hc ha hab fun hbo => ?_
        rcases hbr with hbr | hbr
        · rw [hbo, hb] at hbr; nomatch hbr
        · exact hne r hr (hbr.symm.trans hbo)

end Steps

/-! ## All guarded runs -/

/-- Every guarded step keeps the invariant. -/
theorem inv_step (w : Nat) (root : Ptr) (s s' : World) (h : Inv w root s)
    (hs : GuardedStep w root s s') : Inv w root s' := by
  obtain ⟨e, hg, hret⟩ := hs
  cases e with
  | request t start n res =>
    by_cases hcond : s.tasks t = .idle ∧ s.live res = false
    · have hres : ¬ Linked s.heap root res := fun hh =>
        Bool.false_ne_true (hcond.2.symm.trans (h.live res hh))
      obtain ⟨r, hreg, hspec, _⟩ := requestRegion_step w start n true h.tree .refl hres
      have hnext := (hreg.map fun r =>
        World.after { s with live := update s.live res true } t start n res r)
      rw [hret.unique (hnext.before hnext fun m _ => if_pos hcond)]
      exact h.request hcond.2 hspec
    · exact absurd hret (not_returns fun m => if_neg hcond)
  | resume t =>
    cases ht : s.tasks t with
    | waiting start n parent res =>
      obtain ⟨r, hreg, hspec⟩ := regionLoop_guarded (hg start n parent res ht)
      have hnext := hreg.map fun r => s.after t start n res r
      rw [hret.unique (hnext.before hnext fun m _ => by simp only [next, ht])]
      obtain ⟨hlive, hres⟩ := h.waiting t start n parent res ht
      have hpriv : Private s t res := fun t' r htt hr hh =>
        h.distinct t' t r htt hr (by rw [ht, hh]; rfl)
      rcases hspec with rfl | rfl
      · exact h.failed hpriv hres
      · exact h.sleeps hpriv hres hlive parent
    | idle => exact absurd hret (not_returns fun m => by simp only [next, ht])
    | granted => exact absurd hret (not_returns fun m => by simp only [next, ht])
  | release t =>
    cases ht : s.tasks t with
    | granted start n res =>
      obtain ⟨r, hreg, hrel⟩ := releaseRegionLoop_returns h.tree.ok.good start (regionEnd w start n)
        (h.tree.acc .refl) .refl
      have hnext := hreg.map fun r => (⟨r.2, (match r.1 with
        | some freed => update s.live freed false
        | none => s.live), update s.tasks t .idle⟩ : World)
      rw [hret.unique (hnext.before hnext fun m _ => by simp only [next, ht]; rfl)]
      exact h.release ht hrel
    | idle => exact absurd hret (not_returns fun m => by simp only [next, ht])
    | waiting => exact absurd hret (not_returns fun m => by simp only [next, ht])
  | scribble p r =>
    by_cases hp : s.live p = false
    · rw [hret.unique (returns_const fun m => if_pos hp)]
      exact h.scribble hp r
    · exact absurd hret (not_returns fun m => if_neg hp)

theorem inv_of_reachable (hr : Run.Reachable (Init root) (GuardedStep w root) s) : Inv w root s :=
  Run.invariant_of_step (fun s hs => inv_init s hs) (inv_step w root) hr

/-- **Mutual exclusion.**  In every run in which no waiter is woken while its range fits into the region
    it recorded, the regions of two tasks that have been granted one do not overlap. -/
theorem exclusive_of_guarded {w : Nat} {root : Ptr} {s : World}
    (hr : Run.Reachable (Init root) (GuardedStep w root) s) {t₁ t₂ : Nat} (ht : t₁ ≠ t₂)
    {start₁ n₁ start₂ n₂ : Nat} {r₁ r₂ : Ptr} (h₁ : s.tasks t₁ = .granted start₁ n₁ r₁)
    (h₂ : s.tasks t₂ = .granted start₂ n₂ r₂) :
    regionEnd w start₁ n₁ < start₂ ∨ regionEnd w start₂ n₂ < start₁ := by
  have h := inv_of_reachable hr
  obtain ⟨hh₁, hs₁, he₁⟩ := h.granted t₁ start₁ n₁ r₁ h₁
  obtain ⟨hh₂, hs₂, he₂⟩ := h.granted t₂ start₂ n₂ r₂ h₂
  have hne : r₁ ≠ r₂ := fun hh => h.distinct t₁ t₂ r₁ ht (by rw [h₁]; rfl) (by rw [h₂, hh]; rfl)
  have hapart := held_apart h.tree.ok (h.tree.acc .refl) .refl hh₁ hh₂ hne
  unfold Apart at hapart
  rwa [hs₁, he₁, hs₂, he₂] at hapart

/-! ### Two runs -/

/-- A root at 0 with nothing below it. -/
def boot : World :=
  ⟨fun _ => ⟨0, 1000, false, false, none, none, none⟩, fun p => p = 0, fun _ => .idle⟩

theorem boot_init : Init 0 boot :=
  ⟨treeInv_empty 0 _ ⟨rfl, rfl⟩, fun p hp => by rw [linked_of_childless rfl hp]; rfl, fun _ => rfl⟩

/-- What an event leads to, with enough turns for its loops. -/
def after (s : World) (e : Event) : World := (next 32 0 4 s e).getD s

/-- Task 2 waits for task 1, task 1 releases, task 3 gets the range, and task 2 is woken. -/
def waits : World := after (after boot (.request 1 10 10 1)) (.request 2 10 10 2)
def woken : World := after (after (after waits (.release 1)) (.request 3 10 10 3)) (.resume 2)

/-- An event of a run whose loops take at most four turns. -/
theorem returns_after {e : Event} (h : ∀ m, next 32 0 (m + 4) s e = some (after s e)) :
    Returns (fun fuel => next 32 0 fuel s e) (after s e) :=
  ⟨4, fun fuel hf => by obtain ⟨m, rfl⟩ := Nat.exists_eq_add_of_le' hf; exact h m⟩

theorem woken_reachable : Run.Reachable (Init 0) (Step 32 0) woken := by
  refine Run.Reachable.tail (s := after (after waits (.release 1)) (.request 3 10 10 3)) ?_
    ⟨.resume 2, returns_after fun m => rfl⟩
  refine Run.Reachable.tail (s := after waits (.release 1)) ?_ ⟨.request 3 10 10 3,
    returns_after fun m => rfl⟩
  refine Run.Reachable.tail (s := waits) ?_ ⟨.release 1, returns_after fun m => rfl⟩
  refine Run.Reachable.tail (s := after boot (.request 1 10 10 1)) ?_ ⟨.request 2 10 10 2,
    returns_after fun m => rfl⟩
  exact Run.Reachable.tail ⟨boot, boot_init, .refl⟩ ⟨.request 1 10 10 1, returns_after fun m => rfl⟩

/-- **The waiter joins the holder**: woken after its range has been released and granted again, it is
    granted the range as well. -/
theorem waiter_joins_holder : ∃ s, Run.Reachable (Init 0) (Step 32 0) s ∧
    ∃ (t₁ t₂ start₁ n₁ start₂ n₂ : Nat) (r₁ r₂ : Ptr), t₁ ≠ t₂ ∧
      s.tasks t₁ = .granted start₁ n₁ r₁ ∧ s.tasks t₂ = .granted start₂ n₂ r₂ ∧
      ¬ (regionEnd 32 start₁ n₁ < start₂ ∨ regionEnd 32 start₂ n₂ < start₁) :=
  ⟨woken, woken_reachable, 2, 3, 10, 10, 10, 10, 2, 3, by decide, rfl, rfl, by decide⟩

/-- Two tasks with ranges side by side, and a third one that overlaps the first, sleeps and is woken too
    early. -/
def early : World :=
  after (after (after (after boot (.request 1 10 10 1)) (.request 2 20 10 2)) (.request 3 5 10 3)) (.resume 3)

theorem exclusive_of_guarded_neighbours :
    (early.tasks 1).res = some 1 ∧ (early.tasks 2).res = some 2 ∧
      (regionEnd 32 10 10 < 20 ∨ regionEnd 32 20 10 < 10) := by
  have hr : Run.Reachable (Init 0) (GuardedStep 32 0) early := by
    refine Run.Reachable.tail (s := after (after (after boot (.request 1 10 10 1)) (.request 2 20 10 2))
      (.request 3 5 10 3)) ?_ ⟨.resume 3, ?_, returns_after fun m => rfl⟩
    · refine Run.Reachable.tail (s := after (after boot (.request 1 10 10 1)) (.request 2 20 10 2)) ?_
        ⟨.request 3 5 10 3, trivial, returns_after fun m => rfl⟩
      refine Run.Reachable.tail (s := after boot (.request 1 10 10 1)) ?_
        ⟨.request 2 20 10 2, trivial, returns_after fun m => rfl⟩
      exact Run.Reachable.tail ⟨boot, boot_init, .refl⟩ ⟨.request 1 10 10 1, trivial,
        returns_after fun m => rfl⟩
    · -- it recorded the first region, which starts above its range
      intro start n parent res hw hfits
      obtain ⟨rfl, rfl, rfl, rfl⟩ := Phase.waiting.inj (show Phase.waiting 5 10 1 3 = _ from hw)
      exact absurd hfits.2.1 (by decide)
  exact ⟨rfl, rfl, exclusive_of_guarded hr (show 1 ≠ 2 by decide)
    (show _ = Phase.granted 10 10 1 from rfl) (show _ = Phase.granted 20 10 2 from rfl)⟩

end LinuxKernel.MuxedRegion
