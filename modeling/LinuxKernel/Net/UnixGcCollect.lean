/-
  The collection of unreachable AF_UNIX sockets (`unix_gc`).

  1. **Reach** — a socket is reached when its file has a reference that no queued descriptor accounts
     for, or when a reached socket holds a descriptor of it, in its own receive queue or in that of an
     embryo.  GARBAGE is in flight and not reached.

  2. **Trial deletion** — the second loop takes away what the candidates hold.  What is left of a counter
     then counts the holders that are no candidates, and each of those is reached by itself.

  3. **The marking loop (`Marking`)** — a candidate with a positive counter is reached; it leaves the
     list, and what it holds is counted again.  The crux is `passed`: an entry BEFORE the cursor has no
     reference left, because a counter that goes up moves its socket behind the cursor.  Every turn
     either advances the cursor or shortens the list.

  4. **The end** — no holder outside the list holds a socket of the list, so that nothing on it can be
     reached.

  The last loop restores what the garbage holds, but only for sockets that are STILL candidates.
-/
import LinuxKernel.Base.Run
import LinuxKernel.Net.UnixGcScan

namespace LinuxKernel.UnixGc

open List Function
open State (listDel)

/-! ## Configurations -/

variable (N : Sockets)

/-- The sockets of a configuration: those with a file, and the embryos that wait at them. -/
def socks (owners : List Sock) (q : Queues) : List Sock := owners ++ owners.flatMap (embryos N q)

/-- A configuration in which a collection may start; `owners` are the sockets with a file.  An embryo
    waits at one listening socket and has no file yet, a connection request carries no files, the counter
    of a socket is the number of its descriptors in the queues, and each of them is a reference to its
    file. -/
structure Valid (N : Sockets) (owners : List Sock) (s : State) : Prop where
  file : ∀ x, x ∈ owners ↔ 1 ≤ N.fileCount x
  nodup : (socks N owners s.receiveQueue).Nodup
  request : ∀ x, N.listening x = true → ∀ skb ∈ s.receiveQueue x, skb.fp = none
  counted : ∀ v, s.inflight v = ((socks N owners s.receiveQueue).flatMap (held s.receiveQueue)).count v
  backed : ∀ v, s.inflight v ≤ N.fileCount v
  listed : s.gcInflightList.Nodup
  inFlight : ∀ v, v ∈ s.gcInflightList ↔ 1 ≤ s.inflight v
  noCandidates : s.gcCandidates = [] ∧ s.afterCursor = [] ∧ s.notCycleList = [] ∧ ∀ v, s.gcCandidate v = false
  idle : s.gcInProgress = false
  clean : s.bug = false

/-- The file of the socket has a reference that is not in flight. -/
def Root (s : State) (v : Sock) : Prop := s.inflight v < N.fileCount v

/-- Reached from the roots through descriptors in receive queues. -/
def Reach (s : State) : Sock → Prop :=
  Run.Reachable (Root N s) (fun u v => v ∈ children N s.receiveQueue u)

/-- In flight, and not reached. -/
def Garbage (s : State) (v : Sock) : Prop := 1 ≤ s.inflight v ∧ ¬ Reach N s v

/-- All the references to the socket are in flight. -/
def Unrooted (s : State) (v : Sock) : Prop := 1 ≤ s.inflight v ∧ (N.fileCount v : Int) = s.inflight v

/-- How many descriptors of `v` the sockets of `L` hold. -/
def refs (q : Queues) (L : List Sock) (v : Sock) : Nat := (L.flatMap (children N q)).count v

theorem refs_append (q : Queues) (L L' : List Sock) (v : Sock) :
    refs N q (L ++ L') v = refs N q L v + refs N q L' v := by
  unfold refs
  rw [flatMap_append, count_append]

variable {L : List Sock}

theorem refs_perm (q : Queues) {L' : List Sock} (h : L.Perm L') (v : Sock) :
    refs N q L v = refs N q L' v := (h.flatMap_right _).count_eq v

variable {N : Sockets} {v : Sock}

theorem exists_of_refs_pos {q : Queues} (h : 0 < refs N q L v) : ∃ u ∈ L, v ∈ children N q u := by
  exact mem_flatMap.mp (count_pos_iff.mp h)

theorem not_mem_of_refs_zero {q : Queues} {u : Sock} (h : refs N q L v = 0) (hu : u ∈ L) :
    v ∉ children N q u := by
  intro hv
  exact count_eq_zero.mp h (mem_flatMap.mpr ⟨u, hu, hv⟩)

/-- The descriptors of a configuration are those its owners hold, themselves or through embryos. -/
theorem count_socks (N : Sockets) (q : Queues) (v : Sock) (L : List Sock) :
    (∀ x ∈ L, N.listening x = true → held q x = []) →
    ((socks N L q).flatMap (held q)).count v = refs N q L v := by
  induction L with
  | nil => intro _; rfl
  | cons x L ih =>
    intro h
    have hx : ((held q x).count v + ((embryos N q x).flatMap (held q)).count v) =
      (children N q x).count v := by
      unfold children holders embryos
      cases hl : N.listening x with
      | false => simp
      | true => simp [h x (by simp) hl]
    have ihL := ih (fun y hy => h y (mem_cons_of_mem _ hy))
    unfold socks refs at ihL ⊢
    simp only [flatMap_append, flatMap_cons, cons_append, count_append] at ihL ⊢
    omega

section Config
variable {N : Sockets} {owners : List Sock} {s₀ : State} (hV : Valid N owners s₀)
include hV

theorem Valid.inflight_eq_refs (v : Sock) : s₀.inflight v = refs N s₀.receiveQueue owners v := by
  rw [hV.counted, count_socks]
  intro x _ hl
  refine flatMap_eq_nil_iff.mpr fun skb hs => ?_
  simp [descriptors, hV.request x hl skb hs]

theorem Valid.inflight_nonneg (v : Sock) : 0 ≤ s₀.inflight v := by
  rw [hV.counted]
  omega

theorem Valid.owner_of_inflight {v : Sock} (h : 1 ≤ s₀.inflight v) : v ∈ owners := by
  have := hV.backed v
  exact (hV.file v).mpr (by omega)

theorem Valid.owners_nodup : owners.Nodup := (nodup_append.mp hV.nodup).1

/-- A socket with a file whose references are not all in flight is a root. -/
theorem Valid.root_of_owner {x : Sock} (hx : x ∈ owners) (h : ¬ Unrooted N s₀ x) : Root N s₀ x := by
  have h1 := (hV.file x).mp hx
  have h2 := hV.backed x
  unfold Root
  unfold Unrooted at h
  omega

/-- Embryos stay off the lists. -/
theorem Valid.unlinked {s : State} (hq : s.receiveQueue = s₀.receiveQueue)
    (hl : ∀ u, s.linked u = true → u ∈ owners) {x : Sock} (hx : x ∈ owners) : Unlinked N s x := by
  obtain ⟨_, hn, hd⟩ := nodup_append.mp hV.nodup
  constructor
  · rw [hq]
    exact (nodup_flatMap.mp hn).1 x hx
  · intro e he
    rw [hq] at he
    rw [← Bool.not_eq_true]
    intro hle
    exact hd e (hl e hle) e (mem_flatMap.mpr ⟨x, hx, he⟩) rfl

end Config

theorem linked_iff (s : State) (u : Sock) : s.linked u = true ↔
    u ∈ s.gcInflightList ∨ u ∈ s.gcCandidates ∨ u ∈ s.afterCursor ∨ u ∈ s.notCycleList := by
  simp [State.linked, or_assoc]

/-! ## Selecting the candidates -/

/-- The test of the first loop. -/
def allInFlight (N : Sockets) (inflight : Sock → Int) (u : Sock) : Bool :=
    decide ((N.fileCount u : Int) = inflight u)
def candidates (N : Sockets) (s : State) : List Sock := s.gcInflightList.filter (allInFlight N s.inflight)

/-- A flag set for one socket, and then for the sockets of a list. -/
theorem update_or_contains (f : Sock → Bool) (u : Sock) (l : List Sock) :
    (fun v => update f u true v || l.contains v) = fun v => f v || (u :: l).contains v := by
  funext v
  by_cases hv : v = u
  · subst hv
    simp
  · simp [hv]

/-- The first loop from `L` on, when `A` has been passed and stays. -/
theorem select_eq (N : Sockets) (inflight : Sock → Int) : ∀ (L A : List Sock) (s : State),
    s.inflight = inflight → s.gcInflightList = A ++ L → (A ++ L).Nodup → (∀ u ∈ L, u ∉ s.gcCandidates) →
    s.afterCursor = [] → s.notCycleList = [] → (∀ u ∈ L, 1 ≤ inflight u ∧ inflight u ≤ N.fileCount u) →
    select N L s =
      { s with gcInflightList := A ++ L.filter (fun u => !allInFlight N inflight u)
               gcCandidates := s.gcCandidates ++ L.filter (allInFlight N inflight)
               gcCandidate := fun v => s.gcCandidate v || (L.filter (allInFlight N inflight)).contains v
               gcMaybeCycle :=
                 fun v => s.gcMaybeCycle v || (L.filter (allInFlight N inflight)).contains v } := by
  intro L
  induction L with
  | nil =>
    intro A s _ hA _ _ _ _ _
    simp [select, ← hA]
  | cons u L ih =>
    intro A s hi hA hn hc ha hr hb
    obtain ⟨hb1, hb2⟩ := hb u (by simp)
    have huA : u ∉ A := fun hm => disjoint_of_nodup_append hn hm (by simp)
    have huL : u ∉ L := (nodup_cons.mp (nodup_append.mp hn).2.1).1
    have hs1 : (s.bugOn (inflight u < 1)).bugOn ((N.fileCount u : Int) < inflight u) = s := by
      rw [decide_eq_false (by omega), decide_eq_false (by omega), bugOn_false, bugOn_false]
    rw [select]
    rw [hi, hs1]
    by_cases hu : (N.fileCount u : Int) = inflight u
    · have hau : allInFlight N inflight u = true := decide_eq_true hu
      have hdel : s.gcInflightList.erase u = A ++ L := by
        rw [hA, erase_append_right _ huA, erase_cons_head]
      have hcu : s.gcCandidates.erase u = s.gcCandidates := erase_of_not_mem (hc u (by simp))
      rw [if_pos hu, ih A]
      · simp only [listDel, hcu, ha, hr, erase_nil, filter_cons_of_pos hau, update_or_contains,
          append_assoc, singleton_append, filter_cons, hau, Bool.not_true, Bool.false_eq_true, if_false, hi]
      · exact hi
      · exact hdel
      · exact hn.sublist (List.Sublist.append_left (sublist_cons_self u L) A)
      · intro w hw
        simp only [listDel, hcu, mem_append, mem_singleton, not_or]
        exact ⟨hc w (mem_cons_of_mem _ hw), fun e => huL (e ▸ hw)⟩
      · simp [listDel, ha]
      · simp [listDel, hr]
      · intro w hw
        exact hb w (mem_cons_of_mem _ hw)
    · have hau : allInFlight N inflight u = false := decide_eq_false hu
      rw [if_neg hu, ih (A ++ [u]) s hi (by simp [hA]) (by simpa using hn)
        (fun w hw => hc w (mem_cons_of_mem _ hw)) ha hr (fun w hw => hb w (mem_cons_of_mem _ hw))]
      simp [hau, hi]

/-! ## Taking away what the candidates hold -/

theorem foldl_scanChildren_decInflight (N : Sockets) (K : List Sock) :
    ∀ s : State, (∀ u ∈ K, Unlinked N s u) →
    K.foldl (fun s u => scanChildren N decInflight false u s) s =
      { s with inflight := fun v =>
          s.inflight v - ((K.flatMap (children N s.receiveQueue)).filter s.gcCandidate).count v } := by
  induction K with
  | nil => intro s _; simp
  | cons u K ih =>
    intro s h
    rw [foldl_cons, scanChildren_quiet N quiet_decInflight (h u (by simp)), applyAll_decInflight, ih]
    · simp only [flatMap_cons, filter_append, count_append, State.mk.injEq, true_and, and_true]
      funext v
      omega
    · intro w hw
      have := h w (mem_cons_of_mem _ hw)
      exact ⟨this.nodup, this.free⟩

/-! ## The marking loop -/

/-- The loop so far, from the state `s₂` with the candidates `C`: the list is split between the two sides
    of the cursor and `not_cycle_list`, the descriptors of `done` have been counted again, and nothing
    before the cursor has a reference. -/
structure Marking (s₂ : State) (C done : List Sock) (s : State) : Prop where
  perm : (s.gcCandidates ++ s.afterCursor ++ s.notCycleList).Perm C
  maybeCycle : ∀ v ∈ C, (s.gcMaybeCycle v = true ↔ v ∉ s.notCycleList)
  passed : ∀ v ∈ s.gcCandidates, s.inflight v ≤ 0
  counter : ∀ v, s.inflight v = s₂.inflight v + done.count v
  queue : s.receiveQueue = s₂.receiveQueue
  cand : s.gcCandidate = s₂.gcCandidate
  others : s.gcInflightList = s₂.gcInflightList
  clean : s.bug = s₂.bug

section Mark
variable {s₂ : State} {C : List Sock} (hC : C.Nodup) (hdisj : ∀ u ∈ C, u ∉ s₂.gcInflightList)
variable {done : List Sock} {s : State} {u : Sock}

/-- A list of the marking loop holds a candidate once. -/
theorem Marking.count_one (h : Marking s₂ C done s) (hC : C.Nodup)
    (hu : u ∈ C) : s.gcCandidates.count u + s.afterCursor.count u + s.notCycleList.count u = 1 := by
  have := h.perm.count_eq u
  rw [count_append, count_append, count_eq_one_of_mem hC hu] at this
  exact this

theorem Marking.counter_inc (h : Marking s₂ C done s) (u v : Sock) :
    (incInflight u s).inflight v = s₂.inflight v + (done ++ [u]).count v := by
  unfold incInflight
  dsimp only
  by_cases hv : u = v
  · subst hv
    rw [update_self, h.counter]
    simp
    omega
  · rw [update_of_ne (Ne.symm hv), h.counter]
    simp [hv]

/-- The next candidate has no reference left: the cursor moves past it. -/
theorem Marking.pass (h : Marking s₂ C done s) {us : List Sock}
    (hA : s.afterCursor = u :: us) (hu : s.inflight u ≤ 0) : Marking s₂ C done (moveCursor u us s) := by
  refine { h with perm := ?_, passed := ?_ }
  · have := h.perm
    rw [hA] at this
    simpa [moveCursor] using this
  · exact forall_mem_append.mpr ⟨h.passed, forall_mem_singleton.mpr hu⟩

include hC hdisj

/-- One descriptor counted again. -/
theorem Marking.inc (h : Marking s₂ C done s) (hu : u ∈ C) :
    Marking s₂ C (done ++ [u]) (incInflightMoveTail u s) ∧
      (incInflightMoveTail u s).notCycleList = s.notCycleList := by
  have hone := h.count_one hC hu
  have hcounter := h.counter_inc u
  have hkeep : ∀ v, v ≠ u → (incInflight u s).inflight v = s.inflight v := fun v hv => update_of_ne hv _ _
  unfold incInflightMoveTail
  by_cases hm : s.gcMaybeCycle u = true
  · have hR : u ∉ s.notCycleList := (h.maybeCycle u hu).mp hm
    have hI : u ∉ s.gcInflightList := by rw [h.others]; exact hdisj u hu
    have hRe : s.notCycleList.erase u = s.notCycleList := erase_of_not_mem hR
    have hIe : s.gcInflightList.erase u = s.gcInflightList := erase_of_not_mem hI
    rw [if_pos (show (incInflight u s).gcMaybeCycle u = true from hm)]
    refine ⟨⟨?_, ?_, ?_, hcounter, h.queue, h.cand, hIe.trans h.others, h.clean⟩, hRe⟩
    · -- `u` is on one side of the cursor, and goes to the end of the other
      refine perm_iff_count.mpr fun a => ?_
      have ha := h.perm.count_eq a
      show ((s.gcCandidates.erase u ++ (s.afterCursor.erase u ++ [u])) ++
        s.notCycleList.erase u).count a = C.count a
      simp only [count_append, count_erase, count_singleton] at ha ⊢
      by_cases hau : u = a
      · subst hau
        simp only [beq_self_eq_true, if_true]
        omega
      · simp only [beq_eq_false_iff_ne.mpr hau, Bool.false_eq_true, if_false]
        omega
    · intro v hv
      show s.gcMaybeCycle v = true ↔ v ∉ s.notCycleList.erase u
      rw [hRe]
      exact h.maybeCycle v hv
    · intro v hv
      have hv' : v ∈ s.gcCandidates.erase u := hv
      have hvu : v ≠ u := by
        intro e
        subst e
        have := count_pos_iff.mpr hv'
        rw [count_erase_self] at this
        omega
      show (incInflight u s).inflight v ≤ 0
      rw [hkeep v hvu]
      exact h.passed v (mem_of_mem_erase hv')
  · have hR : u ∈ s.notCycleList := Decidable.byContradiction fun hR => hm ((h.maybeCycle u hu).mpr hR)
    rw [if_neg (show ¬ (incInflight u s).gcMaybeCycle u = true from hm)]
    refine ⟨{ h with passed := ?_, counter := hcounter }, rfl⟩
    intro v hv
    have hv' : v ∈ s.gcCandidates := hv
    have hvu : v ≠ u := by
      intro e
      subst e
      have h1 := count_pos_iff.mpr hv'
      have h2 := count_pos_iff.mpr hR
      omega
    rw [hkeep v hvu]
    exact h.passed v hv'

/-- A whole scan. -/
theorem Marking.incAll : ∀ (l done : List Sock) (s : State), Marking s₂ C done s → (∀ u ∈ l, u ∈ C) →
    Marking s₂ C (done ++ l) (applyAll incInflightMoveTail l s) ∧
      (applyAll incInflightMoveTail l s).notCycleList = s.notCycleList := by
  intro l
  induction l with
  | nil =>
    intro done s h _
    rw [append_nil]
    exact ⟨h, rfl⟩
  | cons u l ih =>
    intro done s h hl
    obtain ⟨h1, hR1⟩ := h.inc hC hdisj (hl u (by simp))
    obtain ⟨h2, hR2⟩ := ih (done ++ [u]) _ h1 (fun w hw => hl w (mem_cons_of_mem _ hw))
    rw [append_assoc, singleton_append] at h2
    exact ⟨h2, hR2.trans hR1⟩

/-- The next candidate has a reference: it leaves the list. -/
theorem Marking.leave (h : Marking s₂ C done s) {us : List Sock}
    (hA : s.afterCursor = u :: us) : Marking s₂ C done (moveTailNotCycle u (moveCursor u us s)) ∧
      (moveTailNotCycle u (moveCursor u us s)).notCycleList = s.notCycleList ++ [u] := by
  have hu : u ∈ C := h.perm.subset (by simp [hA])
  have hone := h.count_one hC hu
  rw [hA, count_cons_self] at hone
  have hP : u ∉ s.gcCandidates := count_eq_zero.mp (by omega)
  have hus : u ∉ us := count_eq_zero.mp (by omega)
  have hR : u ∉ s.notCycleList := count_eq_zero.mp (by omega)
  have hI : u ∉ s.gcInflightList := by rw [h.others]; exact hdisj u hu
  have hPe : (s.gcCandidates ++ [u]).erase u = s.gcCandidates := by
    rw [erase_append_right _ hP, erase_cons_head, append_nil]
  have hs : moveTailNotCycle u (moveCursor u us s) =
      { s with gcCandidates := s.gcCandidates, afterCursor := us, notCycleList := s.notCycleList ++ [u],
               gcMaybeCycle := update s.gcMaybeCycle u false } := by
    simp only [moveTailNotCycle, moveCursor, listDel, hPe, erase_of_not_mem hus, erase_of_not_mem hR,
      erase_of_not_mem hI]
  rw [hs]
  refine ⟨{ h with perm := ?_, maybeCycle := ?_ }, rfl⟩
  · have := h.perm
    rw [hA] at this
    refine List.Perm.trans ?_ this
    refine perm_iff_count.mpr fun a => ?_
    simp only [count_append, count_cons, count_nil]
    omega
  · intro v hv
    show update s.gcMaybeCycle u false v = true ↔ v ∉ s.notCycleList ++ [u]
    by_cases hvu : v = u
    · subst hvu
      simp
    · rw [update_of_ne hvu, h.maybeCycle v hv]
      simp [hvu]

end Mark

/-! ## The whole collection -/

theorem count_filter_ite (p : Sock → Bool) (l : List Sock) (v : Sock) :
    (l.filter p).count v = if p v then l.count v else 0 := by
  cases hp : p v with
  | true => rw [if_pos rfl, count_filter hp]
  | false =>
    rw [if_neg (by simp), count_eq_zero]
    intro hm
    rw [(mem_filter.mp hm).2] at hp
    exact Bool.noConfusion hp

/-- After the first loop. -/
def selected (N : Sockets) (s : State) : State :=
  { s with gcInProgress := true
           gcInflightList := s.gcInflightList.filter (fun u => !allInFlight N s.inflight u)
           gcCandidates := candidates N s
           gcCandidate := fun v => (candidates N s).contains v
           gcMaybeCycle := fun v => s.gcMaybeCycle v || (candidates N s).contains v }

/-- After the second loop. -/
def decremented (N : Sockets) (s : State) : State :=
  { selected N s with
    inflight := fun v =>
      s.inflight v - if (candidates N s).contains v then refs N s.receiveQueue (candidates N s) v else 0 }

/-- The marking loop: every socket on `not_cycle_list` is reached, and what these hold has been counted
    again. -/
structure Loop (N : Sockets) (s₀ s : State) : Prop where
  marking : Marking (decremented N s₀) (candidates N s₀)
    ((s.notCycleList.flatMap (children N s₀.receiveQueue)).filter (candidates N s₀).contains) s
  reach : ∀ u ∈ s.notCycleList, Reach N s₀ u

theorem candidates_not_others {s₀ : State} (h : v ∈ candidates N s₀) :
    v ∉ (decremented N s₀).gcInflightList := by
  intro hm
  have h1 := (mem_filter.mp h).2
  have h2 := (mem_filter.mp hm).2
  rw [h1] at h2
  exact Bool.noConfusion h2

section Collect
variable {N : Sockets} {owners : List Sock} {s₀ : State} (hV : Valid N owners s₀)
include hV
variable {v : Sock}

theorem mem_candidates : v ∈ candidates N s₀ ↔ Unrooted N s₀ v := by
  unfold candidates Unrooted allInFlight
  rw [mem_filter, hV.inFlight, decide_eq_true_iff]

theorem candidates_nodup : (candidates N s₀).Nodup := hV.listed.filter _
theorem candidates_owners (h : v ∈ candidates N s₀) : v ∈ owners :=
    hV.owner_of_inflight ((mem_candidates hV).mp h).1

/-- What the owners hold, the candidates hold or the others. -/
theorem refs_owners (v : Sock) :
    refs N s₀.receiveQueue owners v = refs N s₀.receiveQueue (candidates N s₀) v +
    refs N s₀.receiveQueue (owners.filter (fun x => !(candidates N s₀).contains x)) v := by
  have hsplit := filter_append_perm (candidates N s₀).contains owners
  have hmem : (owners.filter (candidates N s₀).contains).Perm (candidates N s₀) := by
    refine (perm_ext_iff_of_nodup (hV.owners_nodup.filter _) (candidates_nodup hV)).mpr fun x => ?_
    rw [mem_filter, contains_iff_mem]
    exact ⟨fun h => h.2, fun h => ⟨candidates_owners hV h, h⟩⟩
  rw [← refs_perm N _ hsplit v, refs_append, refs_perm N _ hmem v]

theorem select_valid : select N s₀.gcInflightList { s₀ with gcInProgress := true } = selected N s₀ := by
  obtain ⟨h1, h2, h3, h4⟩ := hV.noCandidates
  rw [select_eq N s₀.inflight s₀.gcInflightList [] { s₀ with gcInProgress := true } rfl rfl hV.listed
    (by simp [h1]) h2 h3
    (fun u hu => ⟨(hV.inFlight u).mp hu, hV.backed u⟩)]
  unfold selected candidates
  simp only [h1, h4, Bool.false_or, nil_append]

variable {u : Sock}

theorem selected_linked (h : (selected N s₀).linked u = true) : u ∈ owners := by
  obtain ⟨_, h2, h3, _⟩ := hV.noCandidates
  rcases (linked_iff _ u).mp h with h | h | h | h
  · exact hV.owner_of_inflight ((hV.inFlight u).mp (mem_filter.mp h).1)
  · exact candidates_owners hV h
  · have h' : u ∈ s₀.afterCursor := h
    simp [h2] at h'
  · have h' : u ∈ s₀.notCycleList := h
    simp [h3] at h'

theorem decInflight_valid :
    (selected N s₀).gcCandidates.foldl (fun s u => scanChildren N decInflight false u s) (selected N s₀) =
      decremented N s₀ := by
  rw [foldl_scanChildren_decInflight]
  · unfold decremented
    simp only [count_filter_ite, State.mk.injEq, true_and, and_true]
    funext v
    show _ - ((if (candidates N s₀).contains v = true then _ else _ : Nat) : Int) = _
    split <;> rfl
  · intro u hu
    have hq : (selected N s₀).receiveQueue = s₀.receiveQueue := rfl
    exact hV.unlinked hq (fun w hw => selected_linked hV hw) (candidates_owners hV hu)

/-- Where the marking loop starts. -/
theorem Loop.start : Loop N s₀ (addCursor (decremented N s₀)) := by
  let s1 := addCursor (decremented N s₀)
  obtain ⟨h1, h2, h3, _⟩ := hV.noCandidates
  have hR : s1.notCycleList = [] := h3
  have hA : s1.afterCursor = candidates N s₀ := by
    show candidates N s₀ ++ s₀.afterCursor = _
    rw [h2, append_nil]
  refine ⟨⟨?_, ?_, ?_, ?_, rfl, rfl, rfl, rfl⟩, ?_⟩
  · show ([] ++ s1.afterCursor ++ s1.notCycleList).Perm _
    rw [hR, hA, nil_append, append_nil]
  · intro v hv
    rw [hR]
    show (s₀.gcMaybeCycle v || (candidates N s₀).contains v) = true ↔ _
    simp [hv]
  · intro v hv
    have hv' : v ∈ ([] : List Sock) := hv
    simp at hv'
  · intro v
    rw [hR]
    simp [addCursor]
  · rw [hR]
    intro u hu
    simp at hu

variable {s : State}

/-- A counter is what the non-candidates hold and what the marked sockets hold. -/
theorem Loop.counter (h : Loop N s₀ s) (hv : v ∈ candidates N s₀) :
    s.inflight v = refs N s₀.receiveQueue (owners.filter (fun x => !(candidates N s₀).contains x)) v +
      refs N s₀.receiveQueue s.notCycleList v := by
  have hc : (candidates N s₀).contains v = true := contains_iff_mem.mpr hv
  have h1 := h.marking.counter v
  rw [count_filter_ite, if_pos hc] at h1
  have h2 : (decremented N s₀).inflight v = s₀.inflight v - refs N s₀.receiveQueue (candidates N s₀) v := by
    unfold decremented
    dsimp only
    rw [if_pos hc]
  have h3 := hV.inflight_eq_refs v
  have h4 := refs_owners hV v
  have h5 : refs N s₀.receiveQueue s.notCycleList v =
    (s.notCycleList.flatMap (children N s₀.receiveQueue)).count v := rfl
  omega

/-- A candidate that has a reference left is reached. -/
theorem Loop.reach_of_pos (h : Loop N s₀ s) (hv : v ∈ candidates N s₀) (hpos : 0 < s.inflight v) :
    Reach N s₀ v := by
  rw [h.counter hV hv] at hpos
  by_cases h0 : 0 < refs N s₀.receiveQueue s.notCycleList v
  · obtain ⟨u, hu, hvu⟩ := exists_of_refs_pos h0
    exact (h.reach u hu).tail hvu
  · obtain ⟨u, hu, hvu⟩ := exists_of_refs_pos
      (show 0 < refs N s₀.receiveQueue (owners.filter (fun x => !(candidates N s₀).contains x)) v by omega)
    obtain ⟨hu1, hu2⟩ := mem_filter.mp hu
    have hroot : Root N s₀ u := hV.root_of_owner hu1 fun hun => by
      rw [← mem_candidates hV, ← contains_iff_mem] at hun
      rw [hun] at hu2
      exact Bool.noConfusion hu2
    have hreach : Reach N s₀ u := ⟨u, hroot, .refl⟩
    exact hreach.tail hvu

theorem Marking.linked_owner {done : List Sock}
    (h : Marking (decremented N s₀) (candidates N s₀) done s) (hu : s.linked u = true) : u ∈ owners := by
  have hC : u ∈ s.gcCandidates ++ s.afterCursor ++ s.notCycleList → u ∈ owners := fun hw =>
    candidates_owners hV (h.perm.subset hw)
  rcases (linked_iff s u).mp hu with hu | hu | hu | hu
  · rw [h.others] at hu
    exact hV.owner_of_inflight ((hV.inFlight u).mp (mem_filter.mp hu).1)
  · exact hC (by simp [hu])
  · exact hC (by simp [hu])
  · exact hC (by simp [hu])

/-- One turn keeps the invariant and brings the end nearer. -/
theorem Loop.step (h : Loop N s₀ s) {us : List Sock} (hA : s.afterCursor = u :: us) :
    Loop N s₀ (markOne N u us s) ∧
      ((markOne N u us s).notCycleList = s.notCycleList ∧ (markOne N u us s).afterCursor = us ∨
        (markOne N u us s).notCycleList = s.notCycleList ++ [u]) := by
  have hu : u ∈ candidates N s₀ := h.marking.perm.subset (by simp [hA])
  unfold markOne
  by_cases hpos : 0 < s.inflight u
  · rw [if_pos (show 0 < (moveCursor u us s).inflight u from hpos)]
    obtain ⟨hm, hR⟩ := h.marking.leave (candidates_nodup hV) (fun w hw => candidates_not_others hw) hA
    have hreach : ∀ w ∈ s.notCycleList ++ [u], Reach N s₀ w :=
      forall_mem_append.mpr ⟨h.reach, forall_mem_singleton.mpr (h.reach_of_pos hV hu hpos)⟩
    have hq : (moveTailNotCycle u (moveCursor u us s)).receiveQueue = s₀.receiveQueue := hm.queue
    have hc : (moveTailNotCycle u (moveCursor u us s)).gcCandidate = (candidates N s₀).contains := hm.cand
    rw [scanChildren_quiet N quiet_incInflightMoveTail
      (hV.unlinked hq (fun w => hm.linked_owner hV) (candidates_owners hV hu)),
      hq, hc]
    obtain ⟨hm', hR'⟩ := Marking.incAll (candidates_nodup hV) (fun w hw => candidates_not_others hw)
      ((children N s₀.receiveQueue u).filter (candidates N s₀).contains) _ _ hm
      (fun w hw => contains_iff_mem.mp (mem_filter.mp hw).2)
    rw [hR] at hR'
    refine ⟨⟨?_, ?_⟩, .inr hR'⟩
    · rw [hR', flatMap_append, filter_append, flatMap_cons, flatMap_nil, append_nil]
      exact hm'
    · rw [hR']
      exact hreach
  · rw [if_neg (show ¬ 0 < (moveCursor u us s).inflight u from hpos)]
    exact ⟨⟨h.marking.pass hA (by omega), h.reach⟩, .inl ⟨rfl, rfl⟩⟩

/-- **The marking loop terminates**, with nothing left behind the cursor. -/
theorem Loop.returns (m : Nat) : ∀ s : State, Loop N s₀ s →
    ((candidates N s₀).length - s.notCycleList.length) *
    ((candidates N s₀).length + 1) + s.afterCursor.length ≤ m →
    ∃ s', Fuel.Returns (fun turns => mark N turns s) s' ∧ Loop N s₀ s' ∧ s'.afterCursor = [] := by
  induction m with
  | zero =>
    intro s h hm
    have hA : s.afterCursor = [] := eq_nil_of_length_eq_zero (by omega)
    exact ⟨s, Fuel.returns_turn fun n => by rw [mark, hA], h, hA⟩
  | succ m ih =>
    intro s h hm
    cases hA : s.afterCursor with
    | nil => exact ⟨s, Fuel.returns_turn fun n => by rw [mark, hA], h, hA⟩
    | cons u us =>
      obtain ⟨h', hcase⟩ := h.step hV hA
      have hlen := h'.marking.perm.length_eq
      simp only [length_append] at hlen
      have hle : ((candidates N s₀).length - (markOne N u us s).notCycleList.length) *
          ((candidates N s₀).length + 1) + (markOne N u us s).afterCursor.length ≤ m := by
        rw [hA, length_cons] at hm
        rcases hcase with ⟨hR, hus⟩ | hR
        · rw [hR, hus]
          omega
        · rw [hR, length_append, length_singleton] at hlen ⊢
          -- one candidate fewer outweighs any number of entries behind the cursor
          obtain ⟨k, hk⟩ : ∃ k, (candidates N s₀).length - s.notCycleList.length = k + 1 :=
            ⟨(candidates N s₀).length - s.notCycleList.length - 1, by omega⟩
          have hk' : (candidates N s₀).length - (s.notCycleList.length + 1) = k := by omega
          rw [hk, Nat.succ_mul] at hm
          rw [hk']
          omega
      obtain ⟨s', hr, hL, hA'⟩ := ih _ h' hle
      exact ⟨s', hr.turn fun n => by rw [mark, hA], hL, hA'⟩

/-- Where the marking loop ends, nobody outside the list holds a socket of the list. -/
theorem Loop.closed (h : Loop N s₀ s) (hA : s.afterCursor = []) (hu : u ∈ owners)
    (huK : u ∉ s.gcCandidates) (hv : v ∈ s.gcCandidates) : v ∉ children N s₀.receiveQueue u := by
  have hvC : v ∈ candidates N s₀ := h.marking.perm.subset (by simp [hv])
  have hzero := h.marking.passed v hv
  rw [h.counter hV hvC] at hzero
  by_cases huC : u ∈ candidates N s₀
  · have huR : u ∈ s.notCycleList := by
      have := h.marking.perm.symm.subset huC
      simpa [hA, huK] using this
    exact not_mem_of_refs_zero (by omega) huR
  · exact not_mem_of_refs_zero
      (show refs N s₀.receiveQueue (owners.filter (fun x => !(candidates N s₀).contains x)) v = 0 by omega)
      (mem_filter.mpr ⟨hu, by simpa using huC⟩)

/-- **What is left on the list is the garbage.** -/
theorem Loop.mem_iff (h : Loop N s₀ s) (hA : s.afterCursor = []) (v : Sock) :
    v ∈ s.gcCandidates ↔ Garbage N s₀ v := by
  constructor
  · intro hv
    have hinv : ∀ u, Reach N s₀ u → u ∈ owners ∧ u ∉ s.gcCandidates := by
      have h0 : ∀ u, Root N s₀ u → u ∈ owners ∧ u ∉ s.gcCandidates := by
        intro u hu
        unfold Root at hu
        have hnn := hV.inflight_nonneg u
        refine ⟨(hV.file u).mpr (by omega), fun hK => ?_⟩
        have := ((mem_candidates hV).mp (h.marking.perm.subset (a := u) (by simp [hK]))).2
        omega
      have hstep : ∀ u w, u ∈ owners ∧ u ∉ s.gcCandidates → w ∈ children N s₀.receiveQueue u →
          w ∈ owners ∧ w ∉ s.gcCandidates := by
        rintro u w ⟨hu, huK⟩ hw
        have hpos : 0 < refs N s₀.receiveQueue owners w := count_pos_iff.mpr (mem_flatMap.mpr ⟨u, hu, hw⟩)
        have := hV.inflight_eq_refs w
        exact ⟨hV.owner_of_inflight (by omega), fun hwK => h.closed hV hA hu huK hwK hw⟩
      intro u hu
      exact Run.invariant_of_step h0 hstep hu
    have hvC : v ∈ candidates N s₀ := h.marking.perm.subset (by simp [hv])
    exact ⟨((mem_candidates hV).mp hvC).1, fun hr => (hinv v hr).2 hv⟩
  · rintro ⟨hv, hr⟩
    have hvC : v ∈ candidates N s₀ := (mem_candidates hV).mpr <| Classical.byContradiction fun hun =>
      hr ⟨v, hV.root_of_owner (hV.owner_of_inflight hv) hun, .refl⟩
    have := h.marking.perm.symm.subset hvC
    simp only [hA, append_nil, mem_append] at this
    exact this.resolve_right fun hR => hr (h.reach v hR)

end Collect

/-! ## Restoring, and the sweep -/

theorem restore_eq (R : List Sock) : ∀ s : State, s.notCycleList = R → R.Nodup →
    (∀ u ∈ R, u ∉ s.gcInflightList ∧ u ∉ s.gcCandidates) → s.afterCursor = [] →
    restore R s = { s with gcCandidate := fun v => s.gcCandidate v && !R.contains v
                           gcInflightList := s.gcInflightList ++ R
                           notCycleList := [] } := by
  induction R with
  | nil =>
    intro s hR _ _ _
    rw [restore]
    simp only [contains_nil, Bool.not_false, Bool.and_true, append_nil]
    rw [← hR]
  | cons u R ih =>
    intro s hR hn hd hA
    obtain ⟨hI, hK⟩ := hd u (by simp)
    obtain ⟨hu, hn⟩ := nodup_cons.mp hn
    rw [restore, ih]
    · simp only [listDel, erase_of_not_mem hI, erase_of_not_mem hK, hA, erase_nil,
        append_assoc, singleton_append, State.mk.injEq, true_and, and_true]
      funext v
      by_cases hv : v = u
      · subst hv
        simp
      · simp [hv]
    · simp [listDel, hR]
    · exact hn
    · intro w hw
      obtain ⟨hwI, hwK⟩ := hd w (mem_cons_of_mem _ hw)
      simp only [listDel, erase_of_not_mem hI, erase_of_not_mem hK, mem_append, mem_singleton, not_or]
      exact ⟨⟨hwI, fun e => hu (e ▸ hw)⟩, hwK⟩
    · simp [listDel, hA]

section Sweep
variable {N : Sockets} {owners : List Sock} {s₀ : State} (hV : Valid N owners s₀)
include hV

/-- An owner that listens is nobody's queue. -/
theorem Valid.listening_not_holder {u w : Sock} (hu : u ∈ owners) (hl : N.listening u = true)
    (hw : w ∈ owners) :
    u ∉ holders N s₀.receiveQueue w := by
  obtain ⟨_, _, hd⟩ := nodup_append.mp hV.nodup
  intro hm
  unfold holders at hm
  cases hlw : N.listening w with
  | true =>
    refine hd u hu u (mem_flatMap.mpr ⟨w, hw, ?_⟩) rfl
    rw [hlw] at hm
    rw [embryos, hlw]
    exact hm
  | false =>
    rw [hlw] at hm
    rw [mem_singleton.mp hm, hlw] at hl
    exact Bool.noConfusion hl

/-- Different owners have different queues scanned. -/
theorem Valid.holders_disjoint {x y : Sock} (hx : x ∈ owners) (hy : y ∈ owners) (hxy : x ≠ y) :
    (holders N s₀.receiveQueue x).Disjoint (holders N s₀.receiveQueue y) := by
  obtain ⟨_, hn, hd⟩ := nodup_append.mp hV.nodup
  have hown : ∀ a ∈ owners, ∀ w ∈ owners, a ∈ embryos N s₀.receiveQueue w → False := fun a ha w hw he =>
    hd a ha a (mem_flatMap.mpr ⟨w, hw, he⟩) rfl
  have hemb : ∀ w, N.listening w = true → holders N s₀.receiveQueue w = embryos N s₀.receiveQueue w := by
    intro w hw
    rw [holders, embryos, hw]
    rfl
  have hself : ∀ w, N.listening w = false → holders N s₀.receiveQueue w = [w] := by
    intro w hw
    rw [holders, hw]
    rfl
  intro a hax hay
  cases hlx : N.listening x with
  | true =>
    rw [hemb x hlx] at hax
    cases hly : N.listening y with
    | true =>
      rw [hemb y hly] at hay
      have hsymm : Std.Symm (Function.onFun List.Disjoint (embryos N s₀.receiveQueue)) :=
        ⟨fun _ _ h _ h1 h2 => h h2 h1⟩
      exact (nodup_flatMap.mp hn).2.forall hx hy hxy hax hay
    | false =>
      rw [hself y hly, mem_singleton] at hay
      exact hown y hy x hx (hay ▸ hax)
  | false =>
    rw [hself x hlx, mem_singleton] at hax
    subst hax
    cases hly : N.listening y with
    | true =>
      rw [hemb y hly] at hay
      exact hown a hx y hy hay
    | false =>
      rw [hself y hly, mem_singleton] at hay
      exact hxy hay

theorem Valid.holders_nodup {K : List Sock} (hK : K.Nodup) (hKo : ∀ u ∈ K, u ∈ owners) :
    (K.flatMap (holders N s₀.receiveQueue)).Nodup := by
  obtain ⟨_, hn, _⟩ := nodup_append.mp hV.nodup
  refine nodup_flatMap.mpr ⟨?_, ?_⟩
  · intro x hx
    unfold holders
    cases hl : N.listening x with
    | true =>
      have := (nodup_flatMap.mp hn).1 x (hKo x hx)
      rw [embryos, hl] at this
      exact this
    | false => exact nodup_singleton x
  · refine hK.imp_of_mem ?_
    intro x y hx hy hxy
    exact hV.holders_disjoint (hKo x hx) (hKo y hy) hxy

/-- The state in which `unix_gc` drops the lock, when `s` is where the marking loop ends. -/
def collected (N : Sockets) (s₀ s : State) : State :=
  swept (s.gcCandidates.flatMap (holders N s₀.receiveQueue))
    { s with gcCandidate := fun v => s.gcCandidate v && !s.notCycleList.contains v
             gcInflightList := s.gcInflightList ++ s.notCycleList
             notCycleList := []
             hitlist := [] }

variable {s : State}

theorem Loop.lists_nodup (h : Loop N s₀ s) : (s.gcCandidates ++ s.afterCursor ++ s.notCycleList).Nodup :=
  h.marking.perm.nodup_iff.mpr (candidates_nodup hV)

/-- What follows the marking loop. -/
theorem Loop.finish (h : Loop N s₀ s) (hA : s.afterCursor = []) :
    (restore s.notCycleList s).gcCandidates.foldl (fun s u => scanChildren N incInflight true u s)
      { restore s.notCycleList s with hitlist := [] } = collected N s₀ s := by
  have hn := h.lists_nodup hV
  rw [hA, append_nil] at hn
  obtain ⟨hnK, hnR, hd⟩ := nodup_append.mp hn
  have hown : ∀ u ∈ s.gcCandidates, u ∈ owners := fun u hu =>
    candidates_owners hV (h.marking.perm.subset (by simp [hu]))
  have hRC : ∀ u ∈ s.notCycleList, u ∈ candidates N s₀ := fun u hu => h.marking.perm.subset (by simp [hu])
  have hrest := restore_eq s.notCycleList s rfl hnR (fun u hu =>
    ⟨by rw [h.marking.others]; exact candidates_not_others (hRC u hu), fun hK => hd u hK u hu rfl⟩) hA
  rw [hrest, foldl_scanChildren_hits]
  · unfold collected
    rw [h.marking.queue]
    rfl
  · rw [h.marking.queue]
    exact hV.holders_nodup hnK hown
  · intro u hu hl hm
    rw [h.marking.queue] at hm
    obtain ⟨w, hw, hm⟩ := mem_flatMap.mp hm
    exact hV.listening_not_holder (hown u hu) hl (hown w hw) hm
  · intro u hu
    refine hV.unlinked ?_ (fun w hw => ?_) (hown u hu)
    · exact h.marking.queue
    refine h.marking.linked_owner hV ((linked_iff s w).mpr ?_)
    have := (linked_iff _ w).mp hw
    simp only [mem_append, not_mem_nil, or_false] at this
    rcases this with (h' | h') | h' | h'
    · exact .inl h'
    · exact .inr (.inr (.inr h'))
    · exact .inr (.inl h')
    · exact .inr (.inr (.inl h'))

/-- **The collection finishes**, in the state that the end of the marking loop determines. -/
theorem Valid.unixGc_returns : ∃ s, Loop N s₀ s ∧ s.afterCursor = [] ∧
    Fuel.Returns (fun turns => unixGc N turns s₀) (collected N s₀ s) := by
  obtain ⟨s, hr, hL, hA⟩ := Loop.returns hV _ _ (Loop.start hV) (Nat.le_refl _)
  refine ⟨s, hL, hA, ?_⟩
  refine hr.before (Fuel.returns_const fun _ => rfl) fun n hn => ?_
  unfold unixGc
  rw [if_neg (by rw [hV.idle]; exact Bool.noConfusion)]
  dsimp only
  rw [select_valid hV, decInflight_valid hV, hn, Option.bind_some, hL.finish hV hA]

/-- At the end the candidates are the sockets on the list. -/
theorem Loop.still_candidate (h : Loop N s₀ s) (hA : s.afterCursor = []) :
    (fun v => s.gcCandidate v && !s.notCycleList.contains v) = s.gcCandidates.contains := by
  have hn := h.lists_nodup hV
  rw [hA, append_nil] at hn
  obtain ⟨_, _, hd⟩ := nodup_append.mp hn
  have hmem : ∀ v, v ∈ candidates N s₀ ↔ v ∈ s.gcCandidates ∨ v ∈ s.notCycleList := by
    intro v
    rw [← h.marking.perm.mem_iff, hA, append_nil, mem_append]
  funext v
  rw [h.marking.cand, Bool.eq_iff_iff]
  show ((candidates N s₀).contains v && !s.notCycleList.contains v) = true ↔ _
  simp only [Bool.and_eq_true, Bool.not_eq_true', contains_iff_mem, hmem]
  rw [← Bool.not_eq_true, contains_iff_mem]
  constructor
  · rintro ⟨hv | hv, hR⟩
    · exact hv
    · exact absurd hv hR
  · intro hv
    exact ⟨.inl hv, fun hR => hd v hv v hR rfl⟩

/-- **The counters at the end**: only a reached candidate has lost references, those that garbage holds. -/
theorem Loop.final_counter (h : Loop N s₀ s) (hA : s.afterCursor = []) (v : Sock) :
    (collected N s₀ s).inflight v =
      s₀.inflight v - if v ∈ s.notCycleList then refs N s₀.receiveQueue s.gcCandidates v else 0 := by
  have hn := h.lists_nodup hV
  rw [hA, append_nil] at hn
  obtain ⟨_, _, hd⟩ := nodup_append.mp hn
  have hperm := h.marking.perm
  rw [hA, append_nil] at hperm
  have hsum : refs N s₀.receiveQueue (candidates N s₀) v =
      refs N s₀.receiveQueue s.gcCandidates v + refs N s₀.receiveQueue s.notCycleList v := by
    rw [← refs_perm N _ hperm v, refs_append]
  have hcount : (collected N s₀ s).inflight v =
      s.inflight v + if v ∈ s.gcCandidates then refs N s₀.receiveQueue s.gcCandidates v else 0 := by
    unfold collected swept
    dsimp only
    rw [h.still_candidate hV hA, count_filter_ite, h.marking.queue]
    have hassoc : (s.gcCandidates.flatMap (holders N s₀.receiveQueue)).flatMap (held s₀.receiveQueue) =
        s.gcCandidates.flatMap (children N s₀.receiveQueue) := flatMap_assoc
    show s.inflight v + ((if _ then List.count v
      ((s.gcCandidates.flatMap (holders N s₀.receiveQueue)).flatMap (held s₀.receiveQueue))
        else 0 : Nat) : Int) = _
    rw [hassoc]
    simp only [contains_iff_mem, refs]
  rw [hcount, h.marking.counter, count_filter_ite]
  have hdec : (decremented N s₀).inflight v = s₀.inflight v -
      if (candidates N s₀).contains v then refs N s₀.receiveQueue (candidates N s₀) v else 0 := rfl
  have hcv : (candidates N s₀).contains v = true ↔ v ∈ s.gcCandidates ∨ v ∈ s.notCycleList := by
    rw [contains_iff_mem, ← hperm.mem_iff, mem_append]
  have hR : refs N s₀.receiveQueue s.notCycleList v =
    (s.notCycleList.flatMap (children N s₀.receiveQueue)).count v := rfl
  rw [hdec]
  by_cases hK : v ∈ s.gcCandidates
  · have hvR : v ∉ s.notCycleList := fun hR => hd v hK v hR rfl
    rw [if_pos (hcv.mpr (.inl hK)), if_pos hK, if_neg hvR, if_pos (hcv.mpr (.inl hK))]
    omega
  · by_cases hvR : v ∈ s.notCycleList
    · rw [if_pos (hcv.mpr (.inr hvR)), if_neg hK, if_pos hvR, if_pos (hcv.mpr (.inr hvR))]
      omega
    · have hno : ¬ (candidates N s₀).contains v = true := fun hc => (hcv.mp hc).elim hK hvR
      rw [if_neg hno, if_neg hK, if_neg hvR, if_neg hno]
      omega

/-- **A collection finds exactly the garbage.**  It finishes and passes every check; when it drops the lock,
    `gc_candidates` holds the garbage, the hit list holds the messages at garbage that carry garbage, and
    these are the messages that left the queues. -/
theorem collects_exactly_garbage : ∃ s', Fuel.Returns (fun turns => unixGc N turns s₀) s' ∧ s'.bug = false ∧
    (∀ v, v ∈ s'.gcCandidates ↔ Garbage N s₀ v) ∧
    (∀ skb, skb ∈ s'.hitlist ↔ ∃ g, Garbage N s₀ g ∧ ∃ h ∈ holders N s₀.receiveQueue g,
      skb ∈ s₀.receiveQueue h ∧ ∃ v ∈ descriptors skb, Garbage N s₀ v) ∧
    s'.hitlist = (s'.gcCandidates.flatMap (holders N s₀.receiveQueue)).flatMap
      (fun h => (s₀.receiveQueue h).filter (carries s'.gcCandidates.contains)) ∧
    ∀ h, s'.receiveQueue h =
      if h ∈ s'.gcCandidates.flatMap (holders N s₀.receiveQueue) then
        (s₀.receiveQueue h).filter (fun skb => !carries s'.gcCandidates.contains skb)
      else s₀.receiveQueue h := by
  obtain ⟨s, hL, hA, hr⟩ := hV.unixGc_returns
  have hK := hL.mem_iff hV hA
  have hq := hL.marking.queue
  have hhit : (collected N s₀ s).hitlist = (s.gcCandidates.flatMap (holders N s₀.receiveQueue)).flatMap
      (fun h => (s₀.receiveQueue h).filter (carries s.gcCandidates.contains)) := by
    unfold collected swept
    rw [hL.still_candidate hV hA, hq, nil_append]
    rfl
  have hqueue : ∀ h, (collected N s₀ s).receiveQueue h =
      if h ∈ s.gcCandidates.flatMap (holders N s₀.receiveQueue) then
        (s₀.receiveQueue h).filter (fun skb => !carries s.gcCandidates.contains skb)
      else s₀.receiveQueue h := by
    intro h
    unfold collected swept
    rw [hL.still_candidate hV hA, hq]
    rfl
  refine ⟨collected N s₀ s, hr, hL.marking.clean.trans hV.clean, hK, ?_, hhit, hqueue⟩
  intro skb
  rw [hhit]
  simp only [mem_flatMap, mem_filter, carries, List.any_eq_true, contains_iff_mem, hK]
  constructor
  · rintro ⟨h, ⟨g, hg, hh⟩, hs, v, hv, hvg⟩
    exact ⟨g, hg, h, hh, hs, v, hv, hvg⟩
  · rintro ⟨g, hg, h, hh, hs, v, hv, hvg⟩
    exact ⟨h, ⟨g, hg, hh⟩, hs, v, hv, hvg⟩

end Sweep

/-! A listening socket `1` whose only reference is queued at its own embryo `3`, in a message that
  carries socket `2` as
    well; `2` is also queued at `0`, which a process has open. -/

def sampleFile (u : Sock) : File := ⟨true, false, some u, some PF_UNIX⟩

def sampleSockets : Sockets where
  listening x := x == 1
  fileCount x := match x with
    | 0 => 1
    | 1 => 1
    | 2 => 2
    | _ => 0

def sampleState : State where
  receiveQueue x := match x with
    | 0 => [⟨10, some [sampleFile 2], 0⟩]
    | 1 => [⟨11, none, 3⟩]
    | 3 => [⟨12, some [sampleFile 1, sampleFile 2], 0⟩]
    | _ => []
  inflight x := match x with
    | 1 => 1
    | 2 => 2
    | _ => 0
  gcCandidate _ := false
  gcMaybeCycle _ := false
  gcInflightList := [1, 2]
  gcCandidates := []
  afterCursor := []
  notCycleList := []
  hitlist := []
  unixTotInflight := 3
  gcInProgress := false
  bug := false

theorem sampleState_valid : Valid sampleSockets [0, 1, 2] sampleState := by
  have hheld : (socks sampleSockets [0, 1, 2] sampleState.receiveQueue).flatMap
    (held sampleState.receiveQueue) =
      [2, 1, 2] := by decide
  refine ⟨?_, by decide, ?_, ?_, ?_, by decide, ?_, ⟨rfl, rfl, rfl, fun _ => rfl⟩, rfl, rfl⟩
  · intro x
    match x with
    | 0 | 1 | 2 => decide
    | x + 3 => simp [sampleSockets]
  · intro x hx skb hs
    have hx' : x = 1 := by simpa [sampleSockets] using hx
    subst hx'
    have hs' : skb ∈ [(⟨11, none, 3⟩ : SkBuff)] := hs
    rw [mem_singleton.mp hs']
  · intro v
    rw [hheld]
    match v with
    | 0 | 1 | 2 => decide
    | v + 3 => simp [sampleState]
  · intro v
    match v with
    | 0 | 1 | 2 => decide
    | v + 3 => simp [sampleState]
  · intro v
    match v with
    | 0 | 1 | 2 => decide
    | v + 3 => simp [sampleState]

theorem collects_exactly_garbage_embryo :
    ∃ s', Fuel.Returns (fun turns => unixGc sampleSockets turns sampleState) s' ∧
      ∀ v, v ∈ s'.gcCandidates ↔ Garbage sampleSockets sampleState v := by
  obtain ⟨s', hr, _, hg, _⟩ := collects_exactly_garbage sampleState_valid
  exact ⟨s', hr, hg⟩

section Counters
variable {N : Sockets} {owners : List Sock} {s₀ : State} (hV : Valid N owners s₀)
include hV

/-- **When the counters survive.**  A collection ends with the counters it started from, which are the
    numbers of queued descriptors, if and only if no garbage holds a descriptor of a reached socket whose
    references are all in flight: such a socket was a candidate when the references were taken away and
    is none when they are restored. -/
theorem counters_kept_iff : ∃ s', Fuel.Returns (fun turns => unixGc N turns s₀) s' ∧
    ((∀ v, s'.inflight v = s₀.inflight v ∧
        s'.inflight v = ((socks N owners s₀.receiveQueue).flatMap (held s₀.receiveQueue)).count v) ↔
      ∀ g v, Garbage N s₀ g → v ∈ children N s₀.receiveQueue g → Unrooted N s₀ v → ¬ Reach N s₀ v) := by
  obtain ⟨s, hL, hA, hr⟩ := hV.unixGc_returns
  have hK := hL.mem_iff hV hA
  have hcount := hL.final_counter hV hA
  have hperm := hL.marking.perm
  rw [hA, append_nil] at hperm
  refine ⟨collected N s₀ s, hr, ?_, ?_⟩
  · intro hkept g v hg hv hun hreach
    have hvR : v ∈ s.notCycleList := by
      have := hperm.symm.subset ((mem_candidates hV).mpr hun)
      exact (mem_append.mp this).resolve_left fun hvK => ((hK v).mp hvK).2 hreach
    have hpos : 0 < refs N s₀.receiveQueue s.gcCandidates v :=
      count_pos_iff.mpr (mem_flatMap.mpr ⟨g, (hK g).mpr hg, hv⟩)
    have h1 := hcount v
    rw [if_pos hvR, (hkept v).1] at h1
    omega
  · intro hnone v
    have hsame : (collected N s₀ s).inflight v = s₀.inflight v := by
      rw [hcount v]
      by_cases hvR : v ∈ s.notCycleList
      · have hzero : refs N s₀.receiveQueue s.gcCandidates v = 0 := by
          refine count_eq_zero.mpr fun hm => ?_
          obtain ⟨g, hg, hv⟩ := mem_flatMap.mp hm
          have hun := (mem_candidates hV).mp (hperm.subset (List.mem_append_right _ hvR))
          exact hnone g v ((hK g).mp hg) hv hun (hL.reach v hvR)
        rw [if_pos hvR, hzero]
        omega
      · rw [if_neg hvR]
        omega
    exact ⟨hsame, hsame.trans (hV.counted v)⟩

end Counters

theorem sampleState_reach {u : Sock} (h : Reach sampleSockets sampleState u) : u = 0 ∨ u = 2 := by
  have h0 : ∀ u, Root sampleSockets sampleState u → u = 0 ∨ u = 2 := by
    intro u hu
    match u with
    | 0 => exact .inl rfl
    | 1 => exact absurd hu (by unfold Root; decide)
    | 2 => exact .inr rfl
    | u + 3 => simp [Root, sampleSockets, sampleState] at hu
  have hstep : ∀ u w, u = 0 ∨ u = 2 → w ∈ children sampleSockets sampleState.receiveQueue u →
    w = 0 ∨ w = 2 := by
    rintro u w (rfl | rfl) hw
    · have hw' : w ∈ [2] := hw
      exact .inr (mem_singleton.mp hw')
    · have hw' : w ∈ ([] : List Sock) := hw
      simp at hw'
  exact Run.invariant_of_step h0 hstep h

/-- Socket `2` is reached, and garbage holds a descriptor of it: its counter is lost. -/
theorem counters_kept_iff_embryo :
    ∃ s', Fuel.Returns (fun turns => unixGc sampleSockets turns sampleState) s' ∧
      ¬ ∀ v, s'.inflight v = sampleState.inflight v ∧ s'.inflight v =
        ((socks sampleSockets [0, 1, 2] sampleState.receiveQueue).flatMap
          (held sampleState.receiveQueue)).count v := by
  obtain ⟨s', hr, hiff⟩ := counters_kept_iff sampleState_valid
  refine ⟨s', hr, fun hkept => ?_⟩
  have hroot : Reach sampleSockets sampleState 0 := ⟨0, by unfold Root; decide, .refl⟩
  refine hiff.mp hkept 1 2 ⟨by decide, fun hr => ?_⟩ (by decide) ⟨by decide,
    by decide⟩ (hroot.tail (by decide))
  rcases sampleState_reach hr with e | e
  · cases e
  · cases e

/-- The collection of `sampleState` leaves the counter of socket `2` at 1 with two descriptors of it
    queued.  When the hit list has been purged, the counter is 0 and the socket on no list, though the
    message at socket `0` still carries it; and when that message is received, `unix_notinflight` runs
    into its `BUG_ON`. -/
theorem reached_counter_lost : Valid sampleSockets [0, 1, 2] sampleState ∧
    ((unixGc sampleSockets 5 sampleState).map fun s => (s.bug, s.gcCandidates,
      s.inflight 2)) = some (false, [1], 1) ∧
    ((socks sampleSockets [0, 1, 2] sampleState.receiveQueue).flatMap
      (held sampleState.receiveQueue)).count 2 = 2 ∧
    ((unixGc sampleSockets 5 sampleState).map fun s =>
      ((unixGcPurge s).bug, (unixGcPurge s).inflight 2, held (unixGcPurge s).receiveQueue 0)) =
      some (false, 0, [2]) ∧
    ((unixGc sampleSockets 5 sampleState).map fun s =>
      (unixDetachFds ⟨10, some [sampleFile 2], 0⟩ (unixGcPurge s)).bug) = some true :=
  ⟨sampleState_valid, by decide, by decide, by decide, by decide⟩

end LinuxKernel.UnixGc
