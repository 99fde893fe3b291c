/-
  No event is lost (`fs/eventpoll.c`).

  1. **Shape** — an item is at most once on the ready list and the stolen list together; the overflow
     chain is a proper chain while a scan runs, and inactive otherwise.

  2. **Level triggered (`Shape` plus `Level`)** — stated for every single BIT: a bit of the mask that is
     ready at the file is accounted for by a list, by a due callback whose key lets the bit through, or
     by what the holder of `ep->mtx` is about to do.  A bit is what is gained, lost, asked for and
     reported; masks as a whole are not.

  3. **Edge triggered (`Edge`)** — an item that is owed is on the ready list, or on the stolen list, or
     in the hands of the scan; one for which a callback matched during the scan is on the overflow chain.
-/
import LinuxKernel.Fs.Eventpoll

namespace LinuxKernel.Eventpoll

open Function List

/-! ## Masks -/

theorem and_ne_zero_iff (a b : Events) : (a &&& b) ≠ 0#32 ↔ ∃ i, a.getLsbD i = true ∧ b.getLsbD i = true := by
  constructor
  · intro h
    refine Classical.byContradiction fun hno => h ?_
    refine BitVec.eq_of_getLsbD_eq fun i _ => ?_
    rw [BitVec.getLsbD_and, BitVec.getLsbD_zero, ← Bool.not_eq_true, Bool.and_eq_true]
    exact fun hi => hno ⟨i, hi⟩
  · rintro ⟨i, ha, hb⟩ h
    have := congrArg (fun v => v.getLsbD i) h
    simp [ha, hb] at this

variable {a : Events} {i : Nat}

/-- A bit that a file can have ready is no private one. -/
theorem not_private (h : a &&& EP_PRIVATE_BITS = 0#32) (hi : a.getLsbD i = true) :
    EP_PRIVATE_BITS.getLsbD i = false := by
  rw [← Bool.not_eq_true]
  intro hp
  exact (and_ne_zero_iff _ _).mpr ⟨i, hi, hp⟩ h

/-! ## Shape -/

/-- The chain from a link on. -/
def Chain (next : Item → Ptr) : Ptr → List Item → Prop
  | p, [] => p = .null
  | p, x :: l => p = .item x ∧ Chain next (next x) l

variable {next : Item → Ptr}

theorem Chain.congr {next' : Item → Ptr} {l : List Item} : ∀ {p : Ptr}, Chain next p l →
    (∀ x ∈ l, next' x = next x) → Chain next' p l := by
  induction l with
  | nil => intro p h _; exact h
  | cons x l ih =>
    intro p h hn
    refine ⟨h.1, ?_⟩
    rw [hn x (by simp)]
    exact ih h.2 fun y hy => hn y (mem_cons_of_mem _ hy)

theorem Chain.ne_unactive {l : List Item} {p : Ptr} (h : Chain next p l) : p ≠ .unactive := by
  cases l with
  | nil => rw [show p = .null from h]; exact Ptr.noConfusion
  | cons x l => rw [h.1]; exact Ptr.noConfusion

/-- An item on the chain has an active link. -/
theorem Chain.next_ne {l : List Item} : ∀ {p : Ptr}, Chain next p l → ∀ x ∈ l,
    next x ≠ .unactive := by
  induction l with
  | nil => intro p _ x hx; simp at hx
  | cons y l ih =>
    intro p h x hx
    rcases mem_cons.mp hx with rfl | hx
    · exact h.2.ne_unactive
    · exact ih h.2 x hx

/-- The item that the operation is about, with its hooks. -/
@[grind unfold] def Op.hooked : Op → Option Item
  | .added x _ | .addFailed x | .modifying x | .modified x _ => some x
  | _ => none

/-- The item that the operation is about, without hooks. -/
@[grind unfold] def Op.unhooked : Op → Option Item
  | .adding x | .unregistered x => some x
  | _ => none

structure Shape (s : State) : Prop where
  nodup : (s.rdllist ++ s.txlist).Nodup
  held : ∀ x, s.op.holds = some x → x ∉ s.rdllist ∧ x ∉ s.txlist
  quiet : s.op.scan = false → s.txlist = [] ∧ s.ovflist = .unactive ∧ ∀ x, s.next x = .unactive
  chain : s.op.scan = true → ∃ l, Chain s.next s.ovflist l ∧ l.Nodup ∧ ∀ x, s.next x ≠ .unactive → x ∈ l
  listed : ∀ x, x ∈ s.rdllist ∨ x ∈ s.txlist ∨ s.op.holds = some x ∨ s.next x ≠ .unactive →
    x ∈ s.hooks ∨ s.op = .unregistered x
  dueHooked : ∀ x key, (x, key) ∈ s.due → x ∈ s.hooks
  hooked : ∀ x, s.op.hooked = some x → x ∈ s.hooks
  unhooked : ∀ x, s.op.unhooked = some x → x ∉ s.hooks
  hooks : s.hooks.Nodup
  bits : ∀ f, s.ready f &&& EP_PRIVATE_BITS = 0#32

variable {s : State}

theorem Initial.shape (h : Initial s) : Shape s := by
  obtain ⟨h1, h2, h3, h4, h5, h6, h7, h8, h9, h10⟩ := h
  constructor <;> simp_all [Op.holds, Op.scan, Op.hooked, Op.unhooked]

/-! ### The lock sections -/

/-- Outside a scan, linked is on the ready list. -/
theorem Shape.linked_iff (h : Shape s) (hq : s.op.scan = false) (x : Item) :
    s.linked x = true ↔ x ∈ s.rdllist := by
  obtain ⟨htx, _, _⟩ := h.quiet hq
  unfold State.linked
  rw [htx]
  cases hop : s.op <;> rw [hop] at hq <;> simp_all [Op.scan]

variable {x : Item}

/-- Outside a scan, `addTail` puts the item on the ready list. -/
theorem Shape.addTail (h : Shape s) (hq : s.op.scan = false) (hx : x ∈ s.hooks) :
    Shape (addTail x s) ∧ ∀ y, y ∈ (addTail x s).rdllist ↔ y ∈ s.rdllist ∨ y = x := by
  have hlinked := h.linked_iff hq
  have hquiet := h.quiet hq
  have hholds : ∀ y, s.op.holds ≠ some y := by
    cases hop : s.op <;> simp_all [Op.scan, Op.holds]
  unfold Eventpoll.addTail
  split_ifs
  · exact ⟨h, by grind⟩
  · refine ⟨?_, fun y => by simp⟩
    constructor <;> grind -ring -linarith -order [Shape, nodup_append]

theorem addTail_eq (x : Item) (s : State) :
    addTail x s = { s with rdllist := s.rdllist ++ [x].filter (fun y => !s.linked y) } := by
  unfold addTail
  by_cases hl : s.linked x = true
  · rw [if_pos hl]
    simp [hl]
  · rw [if_neg hl]
    simp [hl]

/-- The chain of a scan, walked to its end: what is not linked goes to the ready list. -/
theorem requeue_returns (l : List Item) : ∀ (p : Ptr) (s : State), Chain s.next p l → l.Nodup →
    Fuel.Returns (fun turns => requeue turns p s)
      { s with rdllist := s.rdllist ++ l.filter (fun x => !s.linked x)
               next := fun x => if x ∈ l then .unactive else s.next x } := by
  induction l with
  | nil =>
    intro p s hc _
    have hp : p = .null := hc
    refine Fuel.returns_turn fun n => ?_
    rw [hp, requeue]
    simp
  | cons x l ih =>
    intro p s hc hn
    obtain ⟨hp, hc⟩ := hc
    obtain ⟨hx, hn⟩ := nodup_cons.mp hn
    have hne : ∀ y ∈ l, y ≠ x := fun y hy e => hx (e ▸ hy)
    -- the state after the first item, and what it does not change for the others
    let s1 : State := { s with rdllist := s.rdllist ++ [x].filter (fun y => !s.linked y)
                               next := update s.next x .unactive }
    have hlinked : ∀ y ∈ l, s1.linked y = s.linked y := by
      intro y hy
      have hyx := hne y hy
      show ((s.rdllist ++ [x].filter (fun y => !s.linked y)).contains y || _ || _) = _
      unfold State.linked
      simp [hyx, s1]
    have hrun := ih (s.next x) s1 (hc.congr fun y hy => update_of_ne (hne y hy) _ _) hn
    have hres : ({ s1 with rdllist := s1.rdllist ++ l.filter (fun y => !s1.linked y)
                           next := fun y => if y ∈ l then .unactive else s1.next y } : State) =
        { s with rdllist := s.rdllist ++ (x :: l).filter (fun x => !s.linked x)
                 next := fun y => if y ∈ x :: l then .unactive else s.next y } := by
      have hfil : l.filter (fun y => !s1.linked y) = l.filter (fun y => !s.linked y) :=
        filter_congr fun y hy => by rw [hlinked y hy]
      rw [hfil]
      simp only [s1, State.mk.injEq, true_and, and_true]
      refine ⟨?_, ?_⟩
      · funext y
        by_cases hy : y = x
        · subst hy
          simp [hx]
        · rw [update_of_ne hy]
          simp [hy]
      · rw [append_assoc]
        congr 1
        by_cases hl : s.linked x = true <;> simp [hl]
    rw [← hres]
    exact hrun.turn fun n => by rw [hp, requeue, addTail_eq]

/-- Only the place of the holder of the mutex changes. -/
theorem Shape.setOp (h : Shape s) (o : Op) (hscan : o.scan = s.op.scan)
    (hholds : ∀ x, o.holds = some x → s.op.holds = some x) (hun : ∀ x, s.op ≠ .unregistered x)
    (hhooked : ∀ x, o.hooked = some x → x ∈ s.hooks) (hunhooked : ∀ x, o.unhooked = some x → x ∉ s.hooks) :
    Shape { s with op := o } := by
  refine ⟨h.nodup, fun x hx => h.held x (hholds x hx), fun hq => h.quiet (hscan ▸ hq),
    fun hq => h.chain (hscan ▸ hq),
    fun x hx => ?_, h.dueHooked, hhooked, hunhooked, h.hooks, h.bits⟩
  refine .inl ((h.listed x ?_).resolve_right (hun x))
  exact hx.imp id (Or.imp id (Or.imp (hholds x) id))

theorem Shape.eraseDue (h : Shape s) (p : Item × Events) : Shape { s with due := s.due.erase p } :=
  { h with dueHooked := fun y k hy => h.dueHooked y k (mem_of_mem_erase hy) }

/-- A callback keeps the shape. -/
theorem Shape.callback {s : State} (h : Shape s) {x : Item} (key : Events) (hx : x ∈ s.hooks) :
    Shape (epPollCallback x key s) := by
  unfold epPollCallback
  by_cases hm : matched s x key = true
  · rw [if_pos hm]
    cases hq : s.op.scan with
    | false =>
      rw [if_neg (not_not_intro (h.quiet hq).2.1)]
      have h' : Shape { s with owed := update s.owed x true } := { h with }
      exact (h'.addTail hq hx).1
    | true =>
      obtain ⟨l, hc, hn, hl⟩ := h.chain hq
      rw [if_pos hc.ne_unactive]
      by_cases hnext : s.next x = .unactive
      · rw [if_pos hnext]
        have hxl : x ∉ l := fun hm => hc.next_ne x hm hnext
        -- the item is now the first one of the chain
        have hchain : Chain (update s.next x s.ovflist) (.item x) (x :: l) := by
          refine ⟨rfl, ?_⟩
          rw [update_self]
          exact hc.congr fun y hy => update_of_ne (show y ≠ x from fun e => hxl (e ▸ hy)) _ _
        exact
          { h with
            quiet := fun hq' => by grind
            chain := fun _ => ⟨x :: l, hchain, nodup_cons.mpr ⟨hxl, hn⟩,
              by grind -ring -linarith -order [update_apply]⟩
            listed := by grind -ring -linarith -order [Shape, update_apply] }
      · rw [if_neg hnext]
        exact { h with }
  · rw [if_neg hm]
    exact h

theorem or_private {b : Events} (ha : a &&& EP_PRIVATE_BITS = 0#32) (hb : b &&& EP_PRIVATE_BITS = 0#32) :
    (a ||| b) &&& EP_PRIVATE_BITS = 0#32 := by
  rw [BitVec.and_or_distrib_right, ha, hb, BitVec.or_self]

theorem and_private (b : Events) (ha : a &&& EP_PRIVATE_BITS = 0#32) :
    (a &&& b) &&& EP_PRIVATE_BITS = 0#32 := by
  rw [BitVec.and_assoc, BitVec.and_comm b, ← BitVec.and_assoc, ha, BitVec.zero_and]

/-- The scan puts the item in its hands back, at the front of the stolen list. -/
theorem Shape.untake (h : Shape s) (hscan : s.op.scan = true) (hholds : s.op.holds = some x) :
    Shape { s with txlist := x :: s.txlist, op := .scanned } := by
  constructor <;> grind -ring -linarith -order [Shape, nodup_append]

variable {revents : Events}

/-- An item reported is on no list, or back on the ready list. -/
theorem Shape.reported (h : Shape s) {cnt max : Nat}
    (hop : s.op = .polled x revents cnt max) : Shape (reported x cnt max s) := by
  unfold Eventpoll.reported
  dsimp only
  split_ifs <;> constructor <;>
    grind -ring -linarith -order [Shape, nodup_append]

variable {s' : State}

/-- The state in which a scan ends: nothing is left on the chain, and everything that was on it is on the
    ready list. -/
theorem Shape.scanEnd (h : Shape s) (hop : s.op = .scanned)
    (hwalk : Fuel.Returns (fun turns => requeue turns s.ovflist s) s') :
    Shape (putBack s') ∧ (∃ rd next, s' = { s with rdllist := rd, next := next }) ∧
      ∀ x, x ∈ (putBack s').rdllist ↔ x ∈ s.rdllist ∨ x ∈ s.txlist ∨ s.next x ≠ .unactive := by
  have hscan : s.op.scan = true := by rw [hop]; rfl
  obtain ⟨l, hc, hn, hl⟩ := h.chain hscan
  have hs' := hwalk.unique (requeue_returns l s.ovflist s hc hn)
  have hlinked : ∀ x, s.linked x = true ↔ x ∈ s.rdllist ∨ x ∈ s.txlist := by
    intro x
    unfold State.linked
    rw [hop]
    simp
  have hmem : ∀ x, x ∈ (putBack s').rdllist ↔ x ∈ s.rdllist ∨ x ∈ s.txlist ∨ s.next x ≠ .unactive := by
    intro x
    rw [hs']
    show x ∈ s.txlist ++ (s.rdllist ++ l.filter (fun x => !s.linked x)) ↔ _
    rw [mem_append, mem_append, mem_filter, Bool.not_eq_true', ← Bool.not_eq_true, hlinked]
    have hnext := hc.next_ne x
    grind
  refine ⟨?_, ⟨_, _, hs'⟩, hmem⟩
  subst hs'
  unfold putBack at hmem ⊢
  constructor <;> grind -ring -linarith -order [Shape, nodup_append]

/-- The last section of `ep_insert` and of `ep_modify`. -/
theorem Shape.endOp (h : Shape s) (hq : s.op.scan = false) (hx : x ∈ s.hooks)
    (hun : ∀ y, s.op ≠ .unregistered y) (hot : Prop) [Decidable hot] :
    Shape { (if hot then Eventpoll.addTail x s else s) with op := .idle } := by
  have hop : (Eventpoll.addTail x s).op = s.op := by rw [addTail_eq]
  split
  · exact (h.addTail hq hx).1.setOp .idle (by rw [hop, hq]; rfl) nofun (fun y e =>
      hun y (hop.symm.trans e)) nofun nofun
  · exact h.setOp .idle (by rw [hq]; rfl) nofun hun nofun nofun

/-- **Every step keeps the shape.** -/
theorem Shape.step (h : Shape s) (hs : Step s s') : Shape s' := by
  cases hs
  case gain f g key hg hkey =>
    have hbits : ∀ f', update s.ready f (s.ready f ||| g) f' &&& EP_PRIVATE_BITS = 0#32 := by
      grind -ring -linarith -order [update_apply, or_private, Shape]
    exact { h with dueHooked := by grind -ring -linarith -order [Shape], bits := hbits }
  case lose f l =>
    exact { h with bits := by grind -ring -linarith -order [update_apply, and_private, Shape] }
  case callback x key hdue =>
    have h' := h.eraseDue (x, key)
    exact h'.callback key (h.dueHooked x key hdue)
  case addBegin x f event hop hx =>
    constructor <;> grind -ring -linarith -order [Shape, update_apply]
  case addEnd x revents hop =>
    exact h.endOp (by rw [hop]; rfl) (h.hooked x (by rw [hop]; rfl)) (fun y e =>
      by rw [hop] at e; exact Op.noConfusion e) _
  case unregister x hop hx =>
    have hx' := h.hooks.not_mem_erase (a := x)
    constructor <;> grind -ring -linarith -order [Shape]
  case unlink x hop =>
    constructor <;> grind -ring -linarith -order [Shape]
  case modEnd x revents hop =>
    exact h.endOp (by rw [hop]; rfl) (h.hooked x (by rw [hop]; rfl)) (fun y e =>
      by rw [hop] at e; exact Op.noConfusion e) _
  case scanBegin k hop =>
    have hempty : Chain s.next .null [] := rfl
    unfold stealList
    constructor <;> grind -ring -linarith -order [Shape]
  case sendFault hop hr => exact h.untake (by rw [hop]; rfl) (by rw [hop]; rfl)
  case sendReport hop hr => exact h.reported hop
  case readReady hop hr => exact h.untake (by rw [hop]; rfl) (by rw [hop]; rfl)
  case scanEnd hop hwalk => exact (h.scanEnd hop hwalk).1
  -- the other steps move one item at most, and the holder of the mutex knows where it is
  all_goals constructor <;> grind -ring -linarith -order [Shape]

/-! ## What a callback does -/

/-- A callback takes no item off a list, and leaves everything else alone. -/
structure Keeps (s s' : State) : Prop where
  rdllist : ∀ y, y ∈ s.rdllist → y ∈ s'.rdllist
  txlist : s'.txlist = s.txlist
  next : ∀ y, s.next y ≠ .unactive → s'.next y ≠ .unactive
  op : s'.op = s.op
  due : s'.due = s.due
  hooks : s'.hooks = s.hooks
  file : s'.file = s.file
  events : s'.events = s.events
  ready : s'.ready = s.ready

theorem keeps_addTail (x : Item) (s : State) : Keeps s (addTail x s) := by
  rw [addTail_eq]
  exact ⟨fun y hy => mem_append_left _ hy, rfl, fun y hy => hy, rfl, rfl, rfl, rfl, rfl, rfl⟩

theorem keeps_callback (x : Item) (key : Events) (s : State) : Keeps s (epPollCallback x key s) := by
  unfold epPollCallback
  split
  · split
    · rename_i hov
      dsimp only
      split
      · refine ⟨fun y hy => hy, rfl, fun y hy => ?_, rfl, rfl, rfl, rfl, rfl, rfl⟩
        show update s.next x s.ovflist y ≠ .unactive
        by_cases hyx : y = x
        · rw [hyx, update_self]
          exact hov
        · rw [update_of_ne hyx]
          exact hy
      · exact ⟨fun y hy => hy, rfl, fun y hy => hy, rfl, rfl, rfl, rfl, rfl, rfl⟩
    · exact { keeps_addTail x { s with owed := update s.owed x true } with }
  · exact ⟨fun y hy => hy, rfl, fun y hy => hy, rfl, rfl, rfl, rfl, rfl, rfl⟩

/-- A callback that matches puts the item on the ready list, or during a scan on the chain. -/
theorem Shape.callback_lists (h : Shape s) {key : Events} (hx : x ∈ s.hooks) (hm : matched s x key = true) :
    (s.op.scan = false → x ∈ (epPollCallback x key s).rdllist) ∧
      (s.op.scan = true → (epPollCallback x key s).next x ≠ .unactive) := by
  unfold epPollCallback
  rw [if_pos hm]
  constructor
  · intro hq
    rw [if_neg (not_not_intro (h.quiet hq).2.1)]
    have h' : Shape { s with owed := update s.owed x true } := { h with }
    exact ((h'.addTail hq hx).2 x).mpr (.inr rfl)
  · intro hq
    obtain ⟨l, hc, _, _⟩ := h.chain hq
    rw [if_pos hc.ne_unactive]
    dsimp only
    split
    · show update s.next x s.ovflist x ≠ .unactive
      rw [update_self]
      exact hc.ne_unactive
    · rename_i hne
      exact hne

/-! ## Level-triggered items -/

/-- The holder of the mutex will see to bit `i` of the item. -/
@[grind unfold] def Op.covers : Op → Item → Nat → Prop
  | .added y revents, x, i => y = x ∧ revents.getLsbD i = true
  | .addFailed y, x, _ => y = x
  | .modifying y, x, _ => y = x
  | .modified y revents, x, i => y = x ∧ revents.getLsbD i = true
  | .taken y _ _, x, _ => y = x
  | .polled y revents _ _, x, i => y = x ∧ revents.getLsbD i = true
  | .looked y revents, x, i => y = x ∧ revents.getLsbD i = true
  | _, _, _ => False

@[grind unfold] def Accounted (s : State) (x : Item) (i : Nat) : Prop :=
  x ∈ s.rdllist ∨ x ∈ s.txlist ∨ s.next x ≠ .unactive ∨
    (∃ key, (x, key) ∈ s.due ∧ (key = 0#32 ∨ key.getLsbD i = true)) ∨ s.op.covers x i

/-- Every ready bit that a level-triggered item asks for is accounted for. -/
def Level (s : State) : Prop :=
  ∀ x ∈ s.hooks, s.events x &&& EPOLLET = 0#32 → ∀ i, (s.events x).getLsbD i = true →
    (s.ready (s.file x)).getLsbD i = true → Accounted s x i

/-- Where the lists and the due callbacks grow, and the operation covers what it covered, a bit stays
    accounted for. -/
theorem Accounted.mono (h : Accounted s x i)
    (hrd : x ∈ s.rdllist → x ∈ s'.rdllist ∨ x ∈ s'.txlist) (htx : x ∈ s.txlist → Accounted s' x i)
    (hnext : s.next x ≠ .unactive → Accounted s' x i) (hdue : ∀ key, (x, key) ∈ s.due → (x, key) ∈ s'.due)
    (hop : s.op.covers x i → Accounted s' x i) : Accounted s' x i := by
  rcases h with h | h | h | ⟨key, hk, hb⟩ | h
  · rcases hrd h with h | h
    · exact .inl h
    · exact .inr (.inl h)
  · exact htx h
  · exact hnext h
  · exact .inr (.inr (.inr (.inl ⟨key, hdue key hk, hb⟩)))
  · exact hop h

/-- Only the place of the holder of the mutex changes. -/
theorem Accounted.of_op (h : Accounted s x i) (hrd : s'.rdllist = s.rdllist)
    (htx : s'.txlist = s.txlist) (hnext : s'.next = s.next) (hdue : s'.due = s.due)
    (hop : s.op.covers x i → Accounted s' x i) : Accounted s' x i :=
  h.mono (fun hx => .inl (hrd ▸ hx)) (fun hx => .inr (.inl (htx ▸ hx)))
    (fun hx => .inr (.inr (.inl (hnext ▸ hx)))) (fun _ hk => hdue ▸ hk) hop

theorem keeps_end (s : State) (x : Item) (revents : Events) :
    Keeps s (if (revents &&& s.events x) ≠ 0#32 then addTail x s else s) := by
  split
  · exact keeps_addTail x s
  · exact ⟨fun y hy => hy, rfl, fun y hy => hy, rfl, rfl, rfl, rfl, rfl, rfl⟩

/-- The last section of `ep_insert` and of `ep_modify` does what was to be done. -/
theorem Accounted.endOp (h : Shape s) (hq : s.op.scan = false) {y : Item}
    (hx : x ∈ s.hooks) (hcov : s.op.covers y i → x = y ∧ revents.getLsbD i = true)
    (hev : (s.events y).getLsbD i = true) (ha : Accounted s y i) :
    Accounted { (if (revents &&& s.events x) ≠ 0#32 then addTail x s else s) with op := .idle } y i := by
  have hk := keeps_end s x revents
  refine ha.mono (fun hy => .inl (hk.rdllist y hy)) (fun hy => .inr (.inl (hk.txlist ▸ hy)))
    (fun hy => .inr (.inr (.inl (hk.next y hy)))) (fun key hy => hk.due ▸ hy) fun hy => ?_
  obtain ⟨rfl, hr⟩ := hcov hy
  refine .inl ?_
  rw [if_pos ((and_ne_zero_iff _ _).mpr ⟨i, hr, hev⟩)]
  exact ((h.addTail hq hx).2 x).mpr (.inr rfl)

/-- A callback delivers the bits that its key lets through. -/
theorem Level.callback {s : State} (h : Shape s) (hL : Level s) {x : Item} {key : Events}
    (hdue : (x, key) ∈ s.due) :
    Level (epPollCallback x key { s with due := s.due.erase (x, key) }) := by
  have h' := h.eraseDue (x, key)
  have hx := h.dueHooked x key hdue
  have hk := keeps_callback x key { s with due := s.due.erase (x, key) }
  intro y hy hlt i hev hready
  rw [hk.hooks] at hy
  rw [hk.events] at hlt hev
  rw [hk.ready, hk.file] at hready
  rcases hL y hy hlt i hev hready with ha | ha | ha | ⟨k, hkd, hb⟩ | ha
  · exact .inl (hk.rdllist y ha)
  · exact .inr (.inl (by rw [hk.txlist]; exact ha))
  · exact .inr (.inr (.inl (hk.next y ha)))
  · by_cases he : (y, k) = (x, key)
    · obtain ⟨rfl, rfl⟩ := Prod.mk.inj he
      -- this is the callback that was due
      have hm : matched { s with due := s.due.erase (y, k) } y k = true := by
        unfold matched
        rw [Bool.and_eq_true]
        constructor
        · rw [bne_iff_ne, and_ne_zero_iff]
          refine ⟨i, hev, ?_⟩
          have hi : i < 32 := BitVec.lt_of_getLsbD hev
          rw [BitVec.getLsbD_not, not_private (h.bits (s.file y)) hready]
          simp [hi]
        · rw [Bool.not_eq_true', ← Bool.not_eq_true, Bool.and_eq_true, bne_iff_ne, beq_iff_eq]
          rintro ⟨hk0, hand⟩
          rcases hb with hb | hb
          · exact hk0 hb
          · exact (and_ne_zero_iff _ _).mpr ⟨i, hb, hev⟩ hand
      obtain ⟨hl1, hl2⟩ := h'.callback_lists hx hm
      cases hq : s.op.scan with
      | false => exact .inl (hl1 hq)
      | true => exact .inr (.inr (.inl (hl2 hq)))
    · refine .inr (.inr (.inr (.inl ⟨k, ?_, hb⟩)))
      rw [hk.due]
      exact (mem_erase_of_ne he).mpr hkd
  · exact .inr (.inr (.inr (.inr (by rw [hk.op]; exact ha))))

theorem Level.endOp (hL : Level s) (h : Shape s) (hq : s.op.scan = false)
    (hx : x ∈ s.hooks) (hcov : ∀ y i, s.op.covers y i → x = y ∧ revents.getLsbD i = true) :
    Level { (if (revents &&& s.events x) ≠ 0#32 then addTail x s else s) with op := .idle } := by
  have hk := keeps_end s x revents
  intro y hy hlt i hev hready
  have hy' : y ∈ s.hooks := hk.hooks ▸ hy
  have hev' : (s.events y).getLsbD i = true := hk.events ▸ hev
  exact Accounted.endOp h hq hx (hcov y i) hev'
    (hL y hy' (hk.events ▸ hlt) i hev' (hk.file ▸ hk.ready ▸ hready))

/-- An item reported is disabled, or edge-triggered, or back on the ready list. -/
theorem Level.reported (hL : Level s) (h : Shape s) {cnt max : Nat}
    (hop : s.op = .polled x revents cnt max) : Level (reported x cnt max s) := by
  unfold Eventpoll.reported
  dsimp only
  by_cases hone : (s.events x &&& EPOLLONESHOT) ≠ 0#32
  · rw [if_pos hone]
    intro y hy hlt i hev hready
    have hlt' : update s.events x (s.events x &&& EP_PRIVATE_BITS) y &&& EPOLLET = 0#32 := hlt
    have hev' : (update s.events x (s.events x &&& EP_PRIVATE_BITS) y).getLsbD i = true := hev
    have hready' : (s.ready (s.file y)).getLsbD i = true := hready
    by_cases hyx : y = x
    · rw [hyx, update_self, BitVec.getLsbD_and, not_private (h.bits _) hready', Bool.and_false] at hev'
      exact absurd hev' Bool.false_ne_true
    · rw [update_of_ne hyx] at hlt' hev'
      exact (hL y hy hlt' i hev' hready').of_op rfl rfl rfl rfl (fun hc =>
        by rw [hop] at hc; exact absurd hc.1.symm hyx)
  · rw [if_neg hone]
    by_cases hlevel : (s.events x &&& EPOLLET) = 0#32
    · rw [if_pos hlevel]
      intro y hy hlt i hev hready
      refine (hL y hy hlt i hev hready).mono (fun h => .inl (mem_append_left _ h)) (fun h => .inr (.inl h))
        (fun h => .inr (.inr (.inl h))) (fun k hk => hk) fun hc => ?_
      rw [hop] at hc
      exact .inl (mem_append_right _ (mem_singleton.mpr hc.1.symm))
    · rw [if_neg hlevel]
      intro y hy hlt i hev hready
      refine (hL y hy hlt i hev hready).of_op rfl rfl rfl rfl fun hc => ?_
      rw [hop] at hc
      exact absurd (hc.1 ▸ hlt) hlevel

/-- **Every step keeps the ready bits of level-triggered items accounted for.** -/
theorem Level.step (h : Shape s) (hL : Level s) (hs : Step s s') : Level s' := by
  cases hs
  case gain f g key hg hkey =>
    intro x hx hlt i hev hready
    have hx' : x ∈ s.hooks := hx
    have hready' : (update s.ready f (s.ready f ||| g) (s.file x)).getLsbD i = true := hready
    by_cases hnew : s.file x = f ∧ g.getLsbD i = true
    · obtain ⟨hf, hr⟩ := hnew
      refine .inr (.inr (.inr (.inl ⟨key, mem_append_right _ ?_, ?_⟩)))
      · exact List.mem_map.mpr ⟨x, mem_filter.mpr ⟨hx', by simp [hf]⟩, rfl⟩
      · refine hkey.imp id fun hsub => ?_
        cases hb : key.getLsbD i with
        | true => rfl
        | false =>
          refine absurd hsub ((and_ne_zero_iff _ _).mpr ⟨i, hr, ?_⟩)
          rw [BitVec.getLsbD_not, hb]
          simp [BitVec.lt_of_getLsbD hr]
    · have hr : (s.ready (s.file x)).getLsbD i = true := by
        by_cases hf : s.file x = f
        · rw [hf, update_self, BitVec.getLsbD_or, Bool.or_eq_true] at hready'
          rw [hf]
          exact hready'.resolve_right fun hr => hnew ⟨hf, hr⟩
        · rwa [update_of_ne hf] at hready'
      exact (hL x hx hlt i hev hr).mono .inl (fun h => .inr (.inl h)) (fun h => .inr (.inr (.inl h)))
        (fun k hk => mem_append_left _ hk) (fun h => .inr (.inr (.inr (.inr h))))
  case lose f l =>
    intro x hx hlt i hev hready
    have hready' : (update s.ready f (s.ready f &&& ~~~l) (s.file x)).getLsbD i = true := hready
    have hr : (s.ready (s.file x)).getLsbD i = true := by
      by_cases hf : s.file x = f
      · rw [hf, update_self, BitVec.getLsbD_and, Bool.and_eq_true] at hready'
        rw [hf]
        exact hready'.1
      · rwa [update_of_ne hf] at hready'
    exact hL x hx hlt i hev hr
  case callback hdue => exact hL.callback h hdue
  case addBegin x f event hop hx =>
    have hquiet := h.quiet (by rw [hop]; rfl)
    grind -ring -linarith -order [Level, update_apply]
  case addEnd x revents hop =>
    exact hL.endOp h (by rw [hop]; rfl) (h.hooked x (by rw [hop]; rfl)) fun y i hc =>
      by rw [hop] at hc; exact hc
  case unregister x hop hx =>
    have hgone := h.hooks.not_mem_erase (a := x)
    grind -ring -linarith -order [Level]
  case unlink hop =>
    have hgone := h.unhooked
    grind -ring -linarith -order [Level]
  case modStore event hop hx => grind -ring -linarith -order [Level, update_apply]
  case modEnd x revents hop =>
    exact hL.endOp h (by rw [hop]; rfl) (h.hooked x (by rw [hop]; rfl)) fun y i hc =>
      by rw [hop] at hc; exact hc
  case scanBegin k hop =>
    unfold stealList
    grind -ring -linarith -order [Level]
  case sendReport hop hr => exact hL.reported h hop
  case readNotReady hop hr =>
    grind -ring -linarith -order [Level]
  case scanEnd hop hwalk =>
    obtain ⟨_, ⟨rd, next, rfl⟩, hmem⟩ := h.scanEnd hop hwalk
    unfold putBack at hmem ⊢
    grind -ring -linarith -order [Level]
  -- in the other steps an item that leaves a list is covered by the holder of the mutex
  all_goals grind -ring -linarith -order [Level]

/-! ## Edge-triggered items -/

/-- What is owed is on the ready list; during a scan it is on the stolen list or in the hands of the
    scan, and what a callback has matched since the scan began is on the chain. -/
structure Edge (s : State) : Prop where
  quiet : s.op.scan = false → ∀ x, (s.owed x = true → x ∈ s.rdllist) ∧ s.fresh x = false
  scan : s.op.scan = true → ∀ x, (s.owed x = true → x ∈ s.txlist ∨ s.op.holds = some x) ∧
    (s.fresh x = true → s.next x ≠ .unactive)
  gone : ∀ x, s.op = .unregistered x → s.owed x = false

theorem Edge.callback {s : State} (h : Shape s) (hE : Edge s) {x : Item} (key : Events) (hx : x ∈ s.hooks) :
    Edge (epPollCallback x key s) := by
  have hk := keeps_callback x key s
  by_cases hm : matched s x key = true
  · obtain ⟨hl1, hl2⟩ := h.callback_lists hx hm
    -- the item whose hooks are gone is not the one called back
    have hgone := h.unhooked
    cases hq : s.op.scan with
    | false =>
      have howed : ∀ y, (epPollCallback x key s).owed y = update s.owed x true y ∧
          (epPollCallback x key s).fresh y = s.fresh y := by
        unfold epPollCallback
        rw [if_pos hm, if_neg (not_not_intro (h.quiet hq).2.1), addTail_eq]
        exact fun y => ⟨rfl, rfl⟩
      constructor <;> grind -ring -linarith -order [Edge, Keeps, update_apply]
    | true =>
      obtain ⟨l, hc, _, _⟩ := h.chain hq
      have howed : ∀ y, (epPollCallback x key s).owed y = s.owed y ∧
          (epPollCallback x key s).fresh y = update s.fresh x true y := by
        unfold epPollCallback
        rw [if_pos hm, if_pos hc.ne_unactive]
        dsimp only
        split <;> exact fun y => ⟨rfl, rfl⟩
      constructor <;> grind -ring -linarith -order [Edge, Keeps, update_apply]
  · unfold epPollCallback
    rw [if_neg hm]
    exact hE

theorem Edge.endOp (hE : Edge s) (hq : s.op.scan = false) (hot : Prop) [Decidable hot] :
    Edge { (if hot then addTail x s else s) with op := .idle } := by
  rw [addTail_eq]
  split <;> constructor <;> grind -ring -linarith -order [Edge]

/-- **Every step keeps what is owed.** -/
theorem Edge.step (h : Shape s) (hE : Edge s) (hs : Step s s') : Edge s' := by
  cases hs
  case gain f g key hg hkey => exact { hE with }
  case lose f l => exact { hE with }
  case callback x key hdue =>
    have h' := h.eraseDue (x, key)
    have hE' : Edge { s with due := s.due.erase (x, key) } := { hE with }
    exact hE'.callback h' key (h.dueHooked x key hdue)
  case addEnd hop => exact hE.endOp (by rw [hop]; rfl) _
  case unregister hop hx => constructor <;> grind -ring -linarith -order [Edge, update_apply]
  case modEnd hop => exact hE.endOp (by rw [hop]; rfl) _
  case scanBegin k hop =>
    unfold stealList
    constructor <;> grind -ring -linarith -order [Edge]
  case sendNotReady hop => constructor <;> grind -ring -linarith -order [Edge, update_apply]
  case sendReport hop hr =>
    unfold reported
    split_ifs <;> constructor <;> grind -ring -linarith -order [Edge, update_apply]
  case readNotReady hop hr => constructor <;> grind -ring -linarith -order [Edge, update_apply]
  case scanEnd hop hwalk =>
    obtain ⟨_, ⟨rd, next, rfl⟩, hmem⟩ := h.scanEnd hop hwalk
    unfold putBack at hmem ⊢
    constructor <;> grind -ring -linarith -order [Edge]
  -- the other steps settle no account
  all_goals constructor <;> grind -ring -linarith -order [Edge]

/-! ## Runs -/

structure Inv (s : State) : Prop where
  shape : Shape s
  level : Level s
  edge : Edge s

theorem Initial.inv (h : Initial s) : Inv s := by
  obtain ⟨_, _, hhooks, _, _, _, _, hop, howed, hfresh⟩ := id h
  refine ⟨h.shape, fun x hx => ?_, fun _ x => ⟨fun hx => ?_, hfresh x⟩, fun hs => ?_, fun x hx => ?_⟩
  · rw [hhooks] at hx
    simp at hx
  · rw [howed x] at hx
    exact absurd hx Bool.false_ne_true
  · rw [hop] at hs
    exact absurd hs Bool.false_ne_true
  · rw [hop] at hx
    exact Op.noConfusion hx

theorem inv_of_reachable (h : Run.Reachable Initial Step s) : Inv s := by
  have h0 : ∀ s, Initial s → Inv s := fun s hs => hs.inv
  have hstep : ∀ s s', Inv s → Step s s' → Inv s' := fun s s' hi hs =>
    ⟨hi.shape.step hs, hi.level.step hi.shape hs, hi.edge.step hi.shape hs⟩
  exact Run.invariant_of_step h0 hstep h

/-- **No event is lost.**  Whenever the mutex is free, every item is at most once on the ready list and
    the overflow chain is inactive; a level-triggered item is on the ready list when its mask intersects
    what is ready at its file and no callback for it is still due; and so is every item for which a
    callback has matched while no later scan has reported it or found it not ready. -/
theorem no_event_lost {s : State} (h : Run.Reachable Initial Step s) (hidle : s.op = .idle) :
    s.rdllist.Nodup ∧ (s.ovflist = .unactive ∧ ∀ x, s.next x = .unactive) ∧
    (∀ x ∈ s.hooks, s.events x &&& EPOLLET = 0#32 → (∀ key, (x, key) ∉ s.due) →
      (s.events x &&& s.ready (s.file x)) ≠ 0#32 → x ∈ s.rdllist) ∧
    ∀ x, s.owed x = true → x ∈ s.rdllist := by
  obtain ⟨hS, hL, hE⟩ := inv_of_reachable h
  have hq : s.op.scan = false := by rw [hidle]; rfl
  obtain ⟨htx, hov, hnext⟩ := hS.quiet hq
  have hnd := hS.nodup
  rw [htx, List.append_nil] at hnd
  refine ⟨hnd, ⟨hov, hnext⟩, fun x hx hlt hdue hready => ?_, fun x hx => (hE.quiet hq x).1 hx⟩
  obtain ⟨i, hev, hr⟩ := (and_ne_zero_iff _ _).mp hready
  rcases hL x hx hlt i hev hr with ha | ha | ha | ⟨key, hk, _⟩ | ha
  · exact ha
  · rw [htx] at ha
    simp at ha
  · exact absurd (hnext x) ha
  · exact absurd hk (hdue key)
  · rw [hidle] at ha
    exact ha.elim

/-- A new epoll file, with files that have nothing ready. -/
def sampleState : State :=
  ⟨fun _ => 0#32, [], [], fun _ => 0, fun _ => 0#32, fun _ => .unactive, [], [], .unactive, .idle,
    fun _ => false,
    fun _ => false⟩

theorem requeue_one {s : State} {x : Item} (h : s.next x = .null) :
    Fuel.Returns (fun turns => requeue turns (.item x) s)
      { addTail x s with next := update (addTail x s).next x .unactive } := by
  refine ⟨2, fun n hn => ?_⟩
  obtain ⟨m, rfl⟩ := Nat.exists_eq_add_of_le' hn
  simp only [requeue, h]

/-- An item is added; its file becomes readable during a scan, and the callback puts it on `ovflist`. -/
theorem no_event_lost_callback : ∃ s, Run.Reachable Initial Step s ∧ s.op = .idle ∧ 0 ∈ s.rdllist := by
  have hbits : ∀ f, sampleState.ready f &&& EP_PRIVATE_BITS = 0#32 := fun f => BitVec.zero_and
  have h0 : Run.Reachable Initial Step sampleState :=
    ⟨sampleState, ⟨hbits, rfl, rfl, fun _ => rfl, rfl, rfl, rfl, rfl, fun _ => rfl, fun _ => rfl⟩, .refl⟩
  have h1 := h0.tail (Step.addBegin 0 7 1#32 rfl (by decide))
  have h2 := h1.tail (Step.addPoll (x := 0) rfl)
  have h3 := h2.tail (Step.addEnd (x := 0) rfl)
  have h4 := h3.tail (Step.scanBegin (.send 0 1) rfl)
  have h5 := h4.tail (Step.gain 7 1#32 1#32 (by decide) (.inr (by decide)))
  have h6 := h5.tail (@Step.callback _ 0 1#32 (by decide))
  have h7 := h6.tail (@Step.sendEnd _ 0 1 rfl (.inl rfl))
  have h8 := h7.tail (Step.scanEnd rfl (requeue_one (x := 0) rfl))
  exact ⟨_, h8, rfl, (no_event_lost h8 rfl).2.2.2 0 (by decide)⟩

end LinuxKernel.Eventpoll
