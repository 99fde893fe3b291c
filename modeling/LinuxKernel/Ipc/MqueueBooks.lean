/-
  POSIX message queues: the invariant, and the books.

  1. **Where every task is** (`PcOk`) — a sleeper is on its list exactly as long as its state is
     `STATE_NONE`; after that its message has been taken, or it has been given one.  A task that serves
     holds the lock, and the task that it serves is asleep with `STATE_PENDING`: nothing but the store of
     `STATE_READY` lets it go.

  2. **Where every message is** (`Books.places`) — in the array, with a sender that sleeps, handed out,
     or failed: each message that was ever made is in exactly ONE of these places, once.

  3. **The queue** — in order, sized, and with sleepers only where they belong.  There is one lemma
     (`books_…`) for each thing that a section does to the queue; it does not depend on where the tasks are.
-/
import LinuxKernel.Ipc.Mqueue

namespace LinuxKernel.Mqueue

open List Function

/-! ## The invariant -/

/-- The message is in the array or was handed to a receiver. -/
def Accepted (s : State) (m : Msg) : Prop := m ∈ s.messages ∨ ∃ r, (m, r) ∈ s.handed

/-- What a call has achieved when it is to return 0 or with a message. -/
def Done (s : State) (sr : Sr) (m : Msg) (t : Task) : Prop :=
  match sr with
  | .send => Accepted s m
  | .recv => (m, t) ∈ s.handed ∧ (m, t) ∉ s.received

/-- The task waits for the store of `STATE_READY`. -/
def Pending (s : State) (sr : Sr) (t : Task) : Prop :=
  (∃ stage, s.pc t = .asleep sr stage) ∧ (s.wait t).state = .pending

/-- What is true of a task that is at `pc`. -/
def PcOk (s : State) (t : Task) : Pc → Prop
  | .idle => ∀ sr, t ∉ s.eWaitQ sr
  | .asleep sr _ => t ∉ s.eWaitQ sr.other ∧
      ((s.wait t).state = .none ∧ t ∈ s.eWaitQ sr ∨
        (s.wait t).state ≠ .none ∧ t ∉ s.eWaitQ sr ∧ Done s sr (s.wait t).msg t)
  | .serve sr peer m _ => (∀ sr, t ∉ s.eWaitQ sr) ∧ s.lock = some t ∧ Done s sr m t ∧ Pending s sr.other peer
  | .unlock sr m => (∀ sr, t ∉ s.eWaitQ sr) ∧ s.lock = some t ∧ Done s sr m t

/-- The receiver `t` has the message and will return with it. -/
def InFlight (s : State) (m : Msg) (t : Task) : Prop :=
  (∃ stage, s.pc t = .asleep .recv stage) ∧ (s.wait t).state ≠ .none ∧ (s.wait t).msg = m ∨
  (∃ peer stage, s.pc t = .serve .recv peer m stage) ∨ s.pc t = .unlock .recv m

/-- The identities of the messages, place by place. -/
def places (s : State) : List Nat :=
  s.messages.map Msg.id ++ (s.eWaitQ .send).map (fun t => (s.wait t).msg.id) ++ s.handed.map (fun x =>
    x.1.id) ++
    s.failed.map Msg.id

/-- The queue and the books: what does not depend on where the tasks are. -/
structure Books (A : Attr) (s : State) : Prop where
  nodup : ∀ sr, (s.eWaitQ sr).Nodup
  places : (places s).Perm (List.range s.nextId)
  sorted : s.messages.Pairwise (Above s.entered)
  entered : ∀ m ∈ s.messages, m ∈ s.entered
  once : s.entered.Nodup ∧ ∀ m ∈ s.entered, Accepted s m
  size : s.qsize = (s.messages.map Msg.mTs).sum
  small : (∀ m ∈ s.messages, m.mTs ≤ A.msgsize) ∧ ∀ t ∈ s.eWaitQ .send, (s.wait t).msg.mTs ≤ A.msgsize
  length : s.messages.length ≤ A.maxmsg
  full : s.eWaitQ .send ≠ [] → s.messages.length = A.maxmsg
  empty : s.eWaitQ .recv ≠ [] → s.messages = []
  ok : ∀ m ∈ s.ok, Accepted s m
  received : s.received.Nodup ∧ ∀ x ∈ s.received, x ∈ s.handed

structure Inv (A : Attr) (s : State) : Prop extends Books A s where
  tasks : ∀ t, PcOk s t (s.pc t)
  pending : ∀ sr p, Pending s sr p → ∃ t sr' m stage, s.pc t = .serve sr' p m stage
  handed : ∀ x ∈ s.handed, x ∈ s.received ∨ InFlight s x.1 x.2

variable {A : Attr} {s s' : State} {t u p : Task} {sr : Sr} {m : Msg}

/-! ## What a step leaves alone -/

/-- A task that does not take part in a step. -/
theorem PcOk.frame (h : PcOk s u (s.pc u)) (hpc : s'.pc u = s.pc u) (hw : s'.wait u = s.wait u)
    (hq : ∀ sr, u ∈ s'.eWaitQ sr ↔ u ∈ s.eWaitQ sr) (hd : ∀ sr m, Done s sr m u → Done s' sr m u)
    (hl : s.lock = some u → s'.lock = some u ∧ ∀ sr p, Pending s sr p → Pending s' sr p) :
    PcOk s' u (s'.pc u) := by
  rw [hpc]
  cases hu : s.pc u with
  | idle =>
    rw [hu] at h
    exact fun sr hin => h sr ((hq sr).mp hin)
  | asleep sr stage =>
    rw [hu] at h
    obtain ⟨ho, h⟩ := h
    refine ⟨fun hin => ho ((hq _).mp hin), ?_⟩
    rw [hw]
    rcases h with ⟨hs, hin⟩ | ⟨hs, hout, hdone⟩
    · exact .inl ⟨hs, (hq sr).mpr hin⟩
    · exact .inr ⟨hs, fun hin => hout ((hq sr).mp hin), hd _ _ hdone⟩
  | serve sr peer m stage =>
    rw [hu] at h
    obtain ⟨hout, hlock, hdone, hpend⟩ := h
    exact ⟨fun sr hin => hout sr ((hq sr).mp hin), (hl hlock).1, hd _ _ hdone, (hl hlock).2 _ _ hpend⟩
  | unlock sr m =>
    rw [hu] at h
    obtain ⟨hout, hlock, hdone⟩ := h
    exact ⟨fun sr hin => hout sr ((hq sr).mp hin), (hl hlock).1, hd _ _ hdone⟩

theorem InFlight.frame (h : InFlight s m u) (hpc : s'.pc u = s.pc u) (hw : s'.wait u = s.wait u) :
    InFlight s' m u := by
  unfold InFlight at h ⊢
  rw [hpc, hw]
  exact h

/-- A message that is handed to somebody else, or received by somebody else, changes nothing for this task. -/
theorem Done.mono (h : Done s sr m u) (ha : ∀ m, Accepted s m → Accepted s' m)
    (hh : ∀ x ∈ s.handed, x ∈ s'.handed) (hr : ∀ m, (m, u) ∈ s'.received → (m, u) ∈ s.received) :
    Done s' sr m u := by
  cases sr with
  | send => exact ha m h
  | recv => exact ⟨hh _ h.1, fun hin => h.2 (hr m hin)⟩

/-- Where sleepers are. -/
theorem Inv.asleep_of_mem (h : Inv A s) (ht : t ∈ s.eWaitQ sr) :
    (∃ stage, s.pc t = .asleep sr stage) ∧ (s.wait t).state = .none ∧ t ∉ s.eWaitQ sr.other := by
  have hok := h.tasks t
  cases hpc : s.pc t with
  | idle => rw [hpc] at hok; exact absurd ht (hok sr)
  | serve sr' peer m stage => rw [hpc] at hok; exact absurd ht (hok.1 sr)
  | unlock sr' m => rw [hpc] at hok; exact absurd ht (hok.1 sr)
  | asleep sr' stage =>
    rw [hpc] at hok
    obtain ⟨ho, hok⟩ := hok
    have hsr : sr' = sr := by
      cases sr' <;> cases sr <;> first | rfl | exact absurd ht ho
    subst hsr
    rcases hok with ⟨hs, _⟩ | ⟨_, hout, _⟩
    · exact ⟨⟨stage, rfl⟩, hs, ho⟩
    · exact absurd ht hout

/-- When the lock is free nobody serves, and so no task has `STATE_PENDING`. -/
theorem Inv.not_pending (h : Inv A s) (hl : s.lock = none) (sr : Sr) (p : Task) : ¬ Pending s sr p := by
  intro hp
  obtain ⟨t, sr', m, stage, hpc⟩ := h.pending sr p hp
  have hok := h.tasks t
  rw [hpc] at hok
  exact Option.some_ne_none t (hok.2.1.symm.trans hl)

/-! ## The books -/

/-- A new message is nowhere yet. -/
theorem Books.fresh (h : Books A s) (hm : m.id = s.nextId) : m.id ∉ Mqueue.places s := by
  intro hin
  have := mem_range.mp (h.places.mem_iff.mp hin)
  omega

theorem mem_places_of_accepted (h : Accepted s m) : m.id ∈ Mqueue.places s := by
  unfold Mqueue.places
  rcases h with h | ⟨r, h⟩
  · have := mem_map_of_mem (f := Msg.id) h
    simp only [mem_append]
    exact .inl (.inl (.inl this))
  · have := mem_map_of_mem (f := fun x : Msg × Task => x.1.id) h
    simp only [mem_append]
    exact .inl (.inr this)

theorem Books.nodup_places (h : Books A s) : (Mqueue.places s).Nodup := h.places.nodup_iff.mpr nodup_range

/-- What is in the array was not handed out. -/
theorem Books.not_handed (h : Books A s) (hm : m ∈ s.messages) (r : Task) : (m, r) ∉ s.handed := by
  intro hr
  have hn := h.nodup_places
  have hd := disjoint_of_nodup_append (nodup_append.mp hn).1
  refine hd ?_ (mem_map_of_mem (f := fun x : Msg × Task => x.1.id) hr)
  exact mem_append_left _ (mem_map_of_mem (f := Msg.id) hm)

/-- What a sender sleeps with was not accepted. -/
theorem Books.not_accepted (h : Books A s) (ht : t ∈ s.eWaitQ .send) : ¬ Accepted s (s.wait t).msg := by
  have hn := h.nodup_places
  have hw : (s.wait t).msg.id ∈ (s.eWaitQ .send).map fun t => (s.wait t).msg.id :=
    mem_map_of_mem (f := fun t => (s.wait t).msg.id) ht
  have h1 := (nodup_append.mp hn).1
  rintro (hm | ⟨r, hr⟩)
  · exact disjoint_of_nodup_append (nodup_append.mp h1).1 (mem_map_of_mem (f := Msg.id) hm) hw
  · exact disjoint_of_nodup_append h1 (mem_append_right _ hw)
      (mem_map_of_mem (f := fun x : Msg × Task => x.1.id) hr)

/-- Messages of an array are small enough for their sizes to add up. -/
theorem sum_lt {l : List Msg} (hsmall : ∀ m ∈ l, m.mTs ≤ A.msgsize) (hlen : l.length ≤ A.maxmsg) :
    (l.map Msg.mTs).sum < 2 ^ A.bits := by
  have hsum : (l.map Msg.mTs).sum ≤ l.length * A.msgsize := by
    clear hlen
    induction l with
    | nil => exact Nat.zero_le _
    | cons m l ih =>
      have h1 := hsmall m mem_cons_self
      have h2 := ih fun x hx => hsmall x (mem_cons_of_mem m hx)
      rw [map_cons, sum_cons, length_cons, Nat.succ_mul]
      omega
  calc (l.map Msg.mTs).sum ≤ l.length * A.msgsize := hsum
    _ ≤ A.maxmsg * A.msgsize := Nat.mul_le_mul_right _ hlen
    _ < 2 ^ A.bits := A.fits

/-- The messages that senders sleep with, seen in another `wait`. -/
theorem map_waiting {w : Task → ExtWaitQueue} (hw : ∀ u ∈ s.eWaitQ .send, (w u).msg = (s.wait u).msg) :
    (s.eWaitQ .send).map (fun t => (w t).msg.id) = (s.eWaitQ .send).map fun t => (s.wait t).msg.id :=
  map_congr_left fun u hu => by rw [hw u hu]

variable {w : Task → ExtWaitQueue} {l : Option Task} {pc : Task →
  Pc} {rest : List Msg} {staticPrio : Task → Int}


/-- The places of a message, counted. -/
theorem count_places (s : State) (i : Nat) : (Mqueue.places s).count i = (s.messages.map Msg.id).count i +
    ((s.eWaitQ .send).map fun t => (s.wait t).msg.id).count i + (s.handed.map fun x => x.1.id).count i +
    (s.failed.map Msg.id).count i := by
  simp only [Mqueue.places, count_append]

/-- A message changes its place, or a new one takes the next identity: the counts say which. -/
theorem Books.places_of_count (h : Books A s) {n : Nat} (hn : s'.nextId = s.nextId + n) (hle : n ≤ 1)
    (hc : ∀ i, (Mqueue.places s').count i = (Mqueue.places s).count i + n * [s.nextId].count i) :
    (Mqueue.places s').Perm (List.range s'.nextId) := by
  rw [perm_iff_count]
  intro i
  rw [hc i, h.places.count_eq, hn]
  obtain rfl | rfl : n = 0 ∨ n = 1 := by omega
  · rw [Nat.zero_mul]
    rfl
  · rw [range_succ, count_append, Nat.one_mul]

/-- A send fails at once. -/
theorem books_fail (h : Books A s) (hm : m.id = s.nextId) :
    Books A { s with nextId := s.nextId + 1, failed := s.failed ++ [m] } := by
  refine { h with places := h.places_of_count rfl le_rfl fun i => ?_ }
  simp only [count_places, map_append, map_cons, map_nil, count_append, hm]
  omega

attribute [local grind =] update_apply

attribute [local grind unfold] Accepted

/-- A task that did not sleep leaves the messages of those that do. -/
theorem wait_update (ht : ∀ sr, t ∉ s.eWaitQ sr) {x : ExtWaitQueue} : ∀ u ∈ s.eWaitQ .send,
    (update s.wait t x u).msg = (s.wait u).msg := by
  intro u hu
  rw [update_of_ne fun e => ht .send (by rw [← e]; exact hu)]

/-- A sender goes to sleep, and its new message with it. -/
theorem books_sleepSend (h : Books A s) (ht : ∀ sr, t ∉ s.eWaitQ sr) (hm : m.id = s.nextId)
    (hsmall : m.mTs ≤ A.msgsize)
    (hfull : s.messages.length = A.maxmsg) :
    Books A { s with
      nextId := s.nextId + 1, wait := update s.wait t ⟨m, .none⟩
      eWaitQ := update s.eWaitQ .send (wqAdd staticPrio t (s.eWaitQ .send)), pc := pc } := by
  have hperm := wqAdd_perm staticPrio t (s.eWaitQ .send)
  constructor
  case places =>
    refine h.places_of_count rfl le_rfl fun i => ?_
    have hmap := (hperm.map fun u => (update s.wait t ⟨m, .none⟩ u).msg.id).count_eq i
    simp only [map_cons, update_self, map_waiting (wait_update ht), count_cons] at hmap
    simp only [count_places, update_self, count_cons, count_nil, ← hm]
    omega
  all_goals grind [Books, List.Perm.mem_iff]

/-- A receiver goes to sleep. -/
theorem books_sleepRecv (h : Books A s) (ht : ∀ sr, t ∉ s.eWaitQ sr) (hempty : s.messages = []) :
    Books A { s with
      wait := update s.wait t ⟨m, .none⟩
      eWaitQ := update s.eWaitQ .recv (wqAdd staticPrio t (s.eWaitQ .recv)), pc := pc } := by
  have hperm := wqAdd_perm staticPrio t (s.eWaitQ .recv)
  have hsend : update s.eWaitQ .recv (wqAdd staticPrio t (s.eWaitQ .recv)) .send = s.eWaitQ .send :=
    update_of_ne (by decide) _ _
  constructor
  case places =>
    simp only [Mqueue.places, hsend, map_waiting (wait_update ht)]
    exact h.places
  all_goals grind [Books]

/-- A new message is handed to a receiver that sleeps. -/
theorem books_handSend (h : Books A s) (hm : m.id = s.nextId)
    (hw : ∀ u ∈ s.eWaitQ .send, (w u).msg = (s.wait u).msg) :
    Books A { s with
      nextId := s.nextId + 1, eWaitQ := update s.eWaitQ .recv ((s.eWaitQ .recv).erase p), wait := w, lock := l
      pc := pc, handed := s.handed ++ [(m, p)] } := by
  have hsend : update s.eWaitQ .recv ((s.eWaitQ .recv).erase p) .send = s.eWaitQ .send :=
    update_of_ne (by decide) _ _
  constructor
  case places =>
    refine h.places_of_count rfl le_rfl fun i => ?_
    simp only [count_places, hsend, map_waiting hw, map_append, map_cons, map_nil, count_append, hm]
    omega
  all_goals grind [Books]

theorem mem_insertMsg (x : Msg) : x ∈ insertMsg m rest ↔ x = m ∨ x ∈ rest :=
  (insertMsg_perm m rest).mem_iff.trans mem_cons

theorem length_insertMsg : (insertMsg m rest).length = rest.length + 1 := (insertMsg_perm m rest).length_eq

/-- The size with the message that `msg_insert` adds, if there is room for it. -/
theorem size_insert (hsmall : ∀ x ∈ m :: rest, x.mTs ≤ A.msgsize) (hlen : rest.length + 1 ≤ A.maxmsg) :
    ((rest.map Msg.mTs).sum + m.mTs) % 2 ^ A.bits = ((insertMsg m rest).map Msg.mTs).sum := by
  have hlt := sum_lt hsmall hlen
  rw [((insertMsg_perm m rest).map Msg.mTs).sum_eq, Nat.add_comm]
  exact Nat.mod_eq_of_lt hlt

/-- A new message enters the array. -/
theorem books_insert (h : Books A s) (hm : m.id = s.nextId) (hsmall : m.mTs ≤ A.msgsize)
    (hnot : s.messages.length ≠ A.maxmsg) (hrecv : s.eWaitQ .recv = []) :
    Books A { s with
      nextId := s.nextId + 1, messages := insertMsg m s.messages, qsize := (s.qsize + m.mTs) % 2 ^ A.bits
      entered := s.entered ++ [m], ok := s.ok ++ [m] } := by
  have hlen := h.length
  have hnew : m ∉ s.entered := fun hx => h.fresh hm (mem_places_of_accepted (h.once.2 m hx))
  have hsize := h.size ▸ size_insert (forall_mem_cons.mpr ⟨hsmall, h.small.1⟩) (by omega)
  constructor
  case sorted => exact insertMsg_above h.sorted h.entered
  case places =>
    refine h.places_of_count rfl le_rfl fun i => ?_
    have hmap := ((insertMsg_perm m s.messages).map Msg.id).count_eq i
    simp only [count_places, map_cons, count_cons, count_nil, ← hm] at hmap ⊢
    omega
  all_goals grind [Books, mem_insertMsg, length_insertMsg, nodup_append]

/-- The size without the message that was on top. -/
theorem Books.size_take (h : Books A s) (hmsg : s.messages = m :: rest) :
    (s.qsize + (2 ^ A.bits - m.mTs)) % 2 ^ A.bits = (rest.map Msg.mTs).sum := by
  have hlt := sum_lt h.small.1 h.length
  have hsize := h.size
  rw [hmsg, map_cons, sum_cons] at hlt hsize
  rw [hsize, show m.mTs + (rest.map Msg.mTs).sum + (2 ^ A.bits - m.mTs) =
    (rest.map Msg.mTs).sum + 2 ^ A.bits by omega,
    Nat.add_mod_right]
  exact Nat.mod_eq_of_lt (by omega)

/-- A message that is taken from the top stays accepted. -/
theorem accepted_take (hmsg : s.messages = m :: rest) {x : Msg} (hx : Accepted s x) :
    x ∈ rest ∨ ∃ r, (x, r) ∈ s.handed ++ [(m, t)] := by
  grind

/-- A receiver takes the message on top, and no sender sleeps. -/
theorem books_take (h : Books A s) (hmsg : s.messages = m :: rest) (hsend : s.eWaitQ .send = []) :
    Books A { s with
      messages := rest, qsize := (s.qsize + (2 ^ A.bits - m.mTs)) % 2 ^ A.bits, handed := s.handed ++ [(m, t)]
      received := s.received ++ [(m, t)] } := by
  have hnew : (m, t) ∉ s.received :=
    fun hx => h.not_handed (by rw [hmsg]; exact mem_cons_self) t (h.received.2 _ hx)
  have hsize := h.size_take hmsg
  constructor
  case places =>
    refine h.places_of_count rfl (Nat.zero_le 1) fun i => ?_
    simp only [count_places, hmsg, map_append, map_cons, map_nil, count_append, count_cons, count_nil]
    omega
  all_goals grind [Books, nodup_append, pairwise_cons]

/-- A receiver takes the message on top, and the message of a sender that sleeps enters the array. -/
theorem books_takeServe (h : Books A s) (hmsg : s.messages = m :: rest) (hp : p ∈ s.eWaitQ .send)
    (hw : ∀ u ∈ s.eWaitQ .send, (w u).msg = (s.wait u).msg) :
    Books A { s with
      messages := insertMsg (s.wait p).msg rest
      qsize := ((s.qsize + (2 ^ A.bits - m.mTs)) % 2 ^ A.bits + (s.wait p).msg.mTs) % 2 ^ A.bits
      entered := s.entered ++ [(s.wait p).msg], handed := s.handed ++ [(m, t)]
      eWaitQ := update s.eWaitQ .send ((s.eWaitQ .send).erase p), wait := w, lock := l, pc := pc } := by
  have hfull := h.full (ne_nil_of_mem hp)
  have hnew : (s.wait p).msg ∉ s.entered := fun hx => h.not_accepted hp (h.once.2 _ hx)
  have hsub : ∀ x ∈ rest, x ∈ s.messages := fun x hx => by rw [hmsg]; exact mem_cons_of_mem m hx
  have hsorted : (m :: rest).Pairwise (Above s.entered) := hmsg ▸ h.sorted
  have hsize := size_insert (forall_mem_cons.mpr ⟨h.small.2 p hp, fun x hx => h.small.1 x (hsub x hx)⟩)
    (by rw [← hfull, hmsg, length_cons])
  rw [← h.size_take hmsg] at hsize
  have hacc : ∀ x, Accepted s x → x ∈ insertMsg (s.wait p).msg rest ∨ ∃ r, (x, r) ∈ s.handed ++ [(m, t)] :=
    fun x hx => (accepted_take hmsg hx).imp (fun hx => (mem_insertMsg x).mpr (.inr hx)) id
  constructor
  case sorted => exact insertMsg_above (pairwise_cons.mp hsorted).2 fun x hx => h.entered x (hsub x hx)
  case places =>
    refine h.places_of_count rfl (Nat.zero_le 1) fun i => ?_
    have hmap := ((insertMsg_perm (s.wait p).msg rest).map Msg.id).count_eq i
    have herase := ((perm_cons_erase hp).map fun t => (w t).msg.id).count_eq i
    rw [map_waiting hw, map_cons, hw p hp] at herase
    simp only [count_places, update_self, hmsg, map_append, map_cons, map_nil, count_append,
      count_cons, count_nil] at hmap herase ⊢
    omega
  all_goals grind [Books, mem_insertMsg, length_insertMsg, nodup_append]

/-- A call returns 0, or with its message. -/
theorem books_finish (h : Books A s) (hd : Done s sr m t) : Books A { finish s t sr m with lock := l } := by
  cases sr with
  | send => exact { h with ok := forall_mem_append.mpr ⟨h.ok, forall_mem_singleton.mpr hd⟩ }
  | recv => exact { h with received := by grind [Books, Done, nodup_append, finish] }

/-- A sleeper gives up; the message of a sender has failed. -/
theorem books_giveUp (h : Books A s) (ht : t ∈ s.eWaitQ sr) : Books A (giveUp s t sr) := by
  unfold giveUp
  cases sr with
  | send =>
    constructor
    case places =>
      refine h.places_of_count rfl (Nat.zero_le 1) fun i => ?_
      have herase := ((perm_cons_erase ht).map fun t => (s.wait t).msg.id).count_eq i
      simp only [count_places, update_self, map_append, map_cons, map_nil, count_append,
        count_cons, count_nil] at herase ⊢
      omega
    all_goals grind [Books]
  | recv =>
    have hsend : update s.eWaitQ .recv ((s.eWaitQ .recv).erase t) .send = s.eWaitQ .send :=
      update_of_ne (by decide) _ _
    constructor
    case places =>
      exact h.places
    all_goals grind [Books]

/-- Only states of sleepers change. -/
theorem books_wait (h : Books A s) (hw : ∀ u, (w u).msg = (s.wait u).msg) :
    Books A { s with wait := w, pc := pc } := by
  refine { h with places := ?_, small := ⟨h.small.1, fun u hu => hw u ▸ h.small.2 u hu⟩ }
  simp only [Mqueue.places, map_waiting fun u _ => hw u]
  exact h.places

end LinuxKernel.Mqueue
