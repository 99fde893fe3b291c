/-
  The walk of `__posix_lock_file` over one owner's locks is `Segments.assign`.

  1. **Reading** — `seg` reads a lock as a segment of the owner's byte map; `asValue` reads the requested
     type as the value to assign, `F_UNLCK` as "no value".

  2. **Swallowing** (`processLocks_absorb`) — once the request sits in the list (or is an unlock that has
     met its first lock), every turn deletes a lock or ends the walk.  Nothing in front of the link moves
     any more, and what is left is `Segments.absorb`.

  3. **Before that** (`walk_spec`) — induction over the locks ahead.  The only thing a passed lock can
     have become is `left`, the one that sticks out in front of the range; it is cut at the very end, so
     the statement says how the locks in front of the link look AFTER the cut.
-/
import LinuxKernel.Fs.Locks

namespace LinuxKernel.Locks

open Option List Function Segments
variable {Owner : Type}

/-! ## Locks as segments -/

def seg (f : FileLock Owner) : Seg LockType := ⟨f.flStart, f.flEnd, f.flType⟩

/-- The segments of the locks at the addresses `G`. -/
def segs (mem : Ptr → FileLock Owner) (G : List Ptr) : List (Seg LockType) :=
  G.map fun p => seg (mem p)

/-- The value a request assigns to its range. -/
def asValue (t : LockType) : Option LockType := if t = .unlck then none else some t

theorem asValue_eq_some {t t' : LockType} (h : t' ≠ .unlck) : asValue t = some t' ↔ t = t' := by
  unfold asValue
  split
  · rename_i ht
    exact ⟨nofun, fun hh => absurd (hh.symm.trans ht) h⟩
  · exact ⟨some.inj, congrArg some⟩

variable {mem mem' : Ptr → FileLock Owner} {G : List Ptr}

theorem segs_congr (h : ∀ p ∈ G, mem' p = mem p) : segs mem' G = segs mem G :=
    map_congr_left fun p hp => by rw [h p hp]

/-- The locks of one owner, as the walk meets them. -/
structure Group (mem : Ptr → FileLock Owner) (o : Owner) (G : List Ptr) : Prop where
  nodup : G.Nodup
  owner : ∀ p ∈ G, (mem p).flOwner = o
  posix : ∀ p ∈ G, (mem p).flPosix = true
  type : ∀ p ∈ G, (mem p).flType ≠ .unlck
  canonical : Canonical (segs mem G)

theorem Group.tail {mem : Ptr → FileLock Owner} {o : Owner} {fl : Ptr} {G : List Ptr}
    (h : Group mem o (fl :: G)) : Group mem o G where
  nodup := (nodup_cons.mp h.nodup).2
  owner := by grind [Group]
  posix := by grind [Group]
  type := by grind [Group]
  canonical := h.canonical.tail

variable {o : Owner}

theorem Group.congr (h : Group mem o G) (hm : ∀ p ∈ G, mem' p = mem p) : Group mem' o G where
  nodup := h.nodup
  owner := by grind [Group]
  posix := by grind [Group]
  type := by grind [Group]
  canonical := by rw [segs_congr hm]; exact h.canonical

variable {fl : Ptr}

/-- The locks behind `fl` start behind its end. -/
theorem Group.ahead (h : Group mem o (fl :: G)) : ∀ p ∈ G, (mem fl).flEnd < (mem p).flStart := fun p hp =>
  ((pairwise_cons.mp h.canonical.order).1 (seg (mem p)) (mem_map.mpr ⟨p, hp, rfl⟩)).1

theorem Group.nonempty (h : Group mem o G)
    {p : Ptr} (hp : p ∈ G) : (mem p).flStart ≤ (mem p).flEnd :=
  h.canonical.nonempty (seg (mem p)) (mem_map.mpr ⟨p, hp, rfl⟩)

/-- The requested lock, as the walk has left it. -/
abbrev Walk.req (st : Walk Owner) : FileLock Owner := st.mem st.request

/-! ## Single assignments -/

/-- The assignment that a request asks for. -/
abbrev asks (f : FileLock Owner) (xs : List (Seg LockType)) : List (Seg LockType) :=
  assign (asValue f.flType) f.flStart f.flEnd xs

/-- The same, for segments that start behind its start. -/
abbrev absorbs (f : FileLock Owner) (xs : List (Seg LockType)) : List (Seg LockType) :=
  absorb (asValue f.flType) f.flStart f.flEnd xs

/-- The segment of the request itself. -/
abbrev own (f : FileLock Owner) : List (Seg LockType) := mid (asValue f.flType) f.flStart f.flEnd

/-- The assignment meets a lock: the tests are those of `turn`. -/
theorem asks_cons {f g : FileLock Owner} (xs : List (Seg LockType)) (hg : g.flType ≠ .unlck) :
    asks f (seg g :: xs) =
      if f.flType = g.flType then
        if g.flEnd < f.flStart - 1 then seg g :: asks f xs
        else if g.flStart - 1 > f.flEnd then own f ++ seg g :: xs
        else absorb (asValue f.flType) (min f.flStart g.flStart) (max f.flEnd g.flEnd) xs
      else if g.flEnd < f.flStart then seg g :: asks f xs
      else if g.flStart > f.flEnd then own f ++ seg g :: xs
      else if g.flStart < f.flStart then seg { g with flEnd := f.flStart - 1 } ::
        (if g.flEnd > f.flEnd then own f ++ seg { g with flStart := f.flEnd + 1 } :: xs else asks f xs)
      else if g.flEnd > f.flEnd then own f ++ seg { g with flStart := f.flEnd + 1 } :: xs
      else absorbs f xs := by
  have hval := @asValue_eq_some f.flType g.flType hg
  unfold asks own absorbs seg
  rw [assign]
  grind

theorem absorbs_cons {f g : FileLock Owner} (xs : List (Seg LockType)) (hg : g.flType ≠ .unlck) :
    absorbs f (seg g :: xs) =
      if f.flType = g.flType then
        if g.flStart - 1 > f.flEnd then own f ++ seg g :: xs
        else absorb (asValue f.flType) f.flStart (max f.flEnd g.flEnd) xs
      else if g.flStart > f.flEnd then own f ++ seg g :: xs
      else if g.flEnd > f.flEnd then own f ++ seg { g with flStart := f.flEnd + 1 } :: xs
      else absorbs f xs := by
  have hval := @asValue_eq_some f.flType g.flType hg
  unfold own absorbs seg
  rw [absorb]
  grind

/-- A lock cut at its end, if it is the left neighbour. -/
def trimLeft (left : Option Ptr) (s : Int) (p : Ptr) (f : FileLock Owner) : FileLock Owner :=
  if left = some p then { f with flEnd := s - 1 } else f

/-- A lock cut at its start, if it is the right neighbour. -/
def trimRight (right : Option Ptr) (e : Int) (p : Ptr) (f : FileLock Owner) : FileLock Owner :=
  if right = some p then { f with flStart := e + 1 } else f

theorem trimLeft_none (s : Int) (p : Ptr) (f : FileLock Owner) : trimLeft none s p f = f := if_neg nofun
theorem trimRight_none (e : Int) (p : Ptr) (f : FileLock Owner) : trimRight none e p f = f := if_neg nofun

theorem trimRight_of_ne {r p : Ptr} (h : p ≠ r) (e : Int) (f : FileLock Owner) :
    trimRight (some r) e p f = f :=
  if_neg fun hh => h (some.inj hh).symm

theorem trimLeft_keeps (left : Option Ptr) (s : Int) (p : Ptr) (f : FileLock Owner) :
    (trimLeft left s p f).flOwner = f.flOwner ∧ (trimLeft left s p f).flPosix = f.flPosix := by
  unfold trimLeft; split <;> exact ⟨rfl, rfl⟩

theorem trimRight_keeps (right : Option Ptr) (e : Int) (p : Ptr) (f : FileLock Owner) :
    (trimRight right e p f).flOwner = f.flOwner ∧ (trimRight right e p f).flPosix = f.flPosix := by
  unfold trimRight; split <;> exact ⟨rfl, rfl⟩

/-- A right neighbour at the head of the locks `fl :: G`. -/
theorem segs_trimRight {e : Int} (hfl : fl ∉ G)
    (h : ∀ p ∈ fl :: G, mem' p = trimRight (some fl) e p (mem p)) :
    segs mem' (fl :: G) = seg { mem fl with flStart := e + 1 } :: segs mem G := by
  have hf : mem' fl = { mem fl with flStart := e + 1 } := (h fl (mem_cons_self ..)).trans (if_pos rfl)
  have hG : ∀ p ∈ G, mem' p = mem p := fun p hp =>
    (h p (mem_cons_of_mem fl hp)).trans (trimRight_of_ne (fun hpf : p = fl => hfl (hpf ▸ hp)) _ _)
  show seg _ :: segs _ G = _
  rw [hf, segs_congr hG]

/-- Merging gives both locks the joint range, and touches nothing else. -/
theorem mergeRange_spec (mem : Ptr → FileLock Owner) {request : Ptr} (hne : fl ≠ request) :
    mergeRange mem request fl fl = { mem fl with
      flStart := min (mem request).flStart (mem fl).flStart
      flEnd := max (mem request).flEnd (mem fl).flEnd } ∧
    mergeRange mem request fl request = { mem request with
      flStart := min (mem request).flStart (mem fl).flStart
      flEnd := max (mem request).flEnd (mem fl).flEnd } ∧
    ∀ p, p ≠ fl → p ≠ request → mergeRange mem request fl p = mem p := by
  have hne' : request ≠ fl := fun h => hne h.symm
  have hmin : min (mem request).flStart (mem fl).flStart =
      if (mem fl).flStart > (mem request).flStart then (mem request).flStart
      else (mem fl).flStart := by split <;> omega
  have hmax : max (mem request).flEnd (mem fl).flEnd =
      if (mem fl).flEnd < (mem request).flEnd then (mem request).flEnd
      else (mem fl).flEnd := by split <;> omega
  rw [hmin, hmax]
  unfold mergeRange setStart setEnd
  by_cases hs : (mem fl).flStart > (mem request).flStart <;>
    by_cases he : (mem fl).flEnd < (mem request).flEnd <;>
    simp only [hs, he, hne, hne', update_apply, if_true, if_false, true_and] <;>
    exact fun p h1 h2 => by simp [h1, h2]

/-- The cuts, when the request does not lie inside a single lock. -/
theorem trimNeighbours_spec (mem : Ptr → FileLock Owner) (request : Ptr) (left right : Option Ptr)
    (newFl2 : Option Ptr) (rest : List Ptr) (hlr : ∀ r, right = some r → left ≠ some r)
    (hr : right ≠ some request) :
    let out := trimNeighbours mem request left right newFl2 rest
    out.2 = rest ∧
    ∀ p, out.1 p = trimLeft left (mem request).flStart p (trimRight right (mem request).flEnd p (mem p)) := by
  unfold trimNeighbours trimLeft trimRight
  by_cases hne : left = right
  · rcases right with _ | r
    · subst hne
      simp
    · exact absurd hne (hlr r rfl)
  · simp only [if_neg hne]
    rcases right with _ | r <;> rcases left with _ | l <;> grind [setStart_apply, setEnd_apply]

/-- The cuts, when it does: the new lock `n` becomes the left part, `r` the right part. -/
theorem trimNeighbours_split (mem : Ptr → FileLock Owner) {request r n : Ptr} (rest : List Ptr)
    (hr : r ≠ request) (hn : n ≠ request) (hnr : n ≠ r) :
    let out := trimNeighbours mem request (some r) (some r) (some n) rest
    out.2 = n :: rest ∧
    ∀ p, out.1 p =
      if p = n then { mem r with flEnd := (mem request).flStart - 1 }
      else trimRight (some r) (mem request).flEnd p (mem p) := by
  unfold trimNeighbours trimRight
  grind [setStart_apply, setEnd_apply]

variable {st : Walk Owner}

/-- A turn once the request has its place: the lock is deleted or merged, or the walk ends. -/
theorem turn_swallow (ha : st.added = true)
    (hlt : st.req.flStart < (st.mem fl).flStart) (hfl : (st.mem fl).flStart ≤ (st.mem fl).flEnd) :
    turn st fl =
      if st.req.flType = (st.mem fl).flType then
        if (st.mem fl).flStart - 1 > st.req.flEnd then .stop st
        else .next { st with mem := mergeRange st.mem st.request fl }
      else if (st.mem fl).flStart > st.req.flEnd then .stop st
      else if (st.mem fl).flEnd > st.req.flEnd then .stop { st with right := some fl }
      else .next st := by
  obtain ⟨mem, before, request, left, right, added⟩ := st
  unfold turn
  grind

/-! ## Swallowing -/

/-- What the walk does from a state in which the request has its place: locks are taken off the list up
    to the first one that sticks out of the range, and the request's end may move up. -/
structure Swallowed (st st' : Walk Owner) (G G' : List Ptr) : Prop where
  before : st'.before = st.before
  request : st'.request = st.request
  added : st'.added = true
  left : st'.left = st.left
  suffix : G' <:+ G
  req : st'.mem st.request =
    { st.mem st.request with flEnd := (st'.mem st.request).flEnd }
  mem : ∀ p, p ≠ st.request → (p ∈ G → p ∈ G') → st'.mem p = st.mem p
  right : ∀ p, st'.right = some p → p ∈ G'
  result : absorb (asValue (st.mem st.request).flType) (st.mem st.request).flStart
      (st.mem st.request).flEnd (segs st.mem G) =
    mid (asValue (st.mem st.request).flType) (st.mem st.request).flStart (st'.mem st.request).flEnd ++
    G'.map fun p => seg (trimRight st'.right (st'.mem st.request).flEnd p (st.mem p))

/-- The walk ends here, with nothing sticking out. -/
theorem Swallowed.stop (ha : st.added = true) (hr : st.right = none)
    (hs : absorbs st.req (segs st.mem G) = own st.req ++ segs st.mem G) :
    Swallowed st st G G :=
  ⟨rfl, rfl, ha, rfl, suffix_refl _, rfl, fun _ _ _ => rfl,
    fun p hp => (nomatch hr.symm.trans hp), by simp only [hr, trimRight_none]; exact hs⟩

/-- One lock `fl` is deleted; the request may have grown to `st₁`'s. -/
theorem Swallowed.delete {st1 st' : Walk Owner} {G' : List Ptr}
    (h : Swallowed st1 st' G G') (hfl : fl ∉ G) (hG : st.request ∉ G)
    (hb : st1.before = st.before) (hr : st1.request = st.request) (hl : st1.left = st.left)
    (hreq : st1.mem st.request =
      { st.req with flEnd := (st1.mem st.request).flEnd })
    (hmem : ∀ p, p ≠ st.request → p ≠ fl → st1.mem p = st.mem p)
    (hs : absorbs st.req (segs st.mem (fl :: G)) =
      absorbs (st1.mem st.request) (segs st.mem G)) : Swallowed st st' (fl :: G) G' := by
  have hsub : ∀ p ∈ G', p ∈ G := fun p hp => h.suffix.subset hp
  have hne : ∀ p ∈ G, p ≠ fl ∧ p ≠ st.request := by grind
  have hres := h.result
  rw [hr] at hres
  refine ⟨h.before.trans hb, h.request.trans hr, h.added, h.left.trans hl,
    h.suffix.trans (suffix_cons fl G), ?_, by grind [Swallowed], h.right, ?_⟩
  · have := h.req
    rw [hr] at this
    rw [this, hreq]
  · rw [← segs_congr fun p hp => hmem p (hne p hp).2 (hne p hp).1] at hs
    refine hs.trans (hres.trans ?_)
    rw [hreq]
    refine congrArg _ (map_congr_left fun p hp => ?_)
    rw [hmem p (hne p (hsub p hp)).2 (hne p (hsub p hp)).1]

/-- The walk ends at the locks of the others. -/
theorem processLocks_others [DecidableEq Owner] {B : List Ptr} (howner : st.req.flOwner = o)
    (hB : ∀ p ∈ B, (st.mem p).flOwner ≠ o) : processLocks st B = (st, B) := by
  rcases B with _ | ⟨b, B⟩
  · rfl
  · have hb : posixSameOwner st.req (st.mem b) = false :=
      decide_eq_false fun h => hB b (mem_cons_self ..) (h.symm.trans howner)
    rw [processLocks, hb]; rfl

/-- **Swallowing.** -/
theorem processLocks_absorb [DecidableEq Owner] {B : List Ptr} (G : List Ptr) : ∀ (st : Walk Owner),
    Group st.mem o G → st.request ∉ G → st.req.flOwner = o → st.added = true →
    st.right = none → (∀ p ∈ G, st.req.flStart < (st.mem p).flStart) →
    (∀ p ∈ B, p ∉ G ∧ p ≠ st.request ∧ (st.mem p).flOwner ≠ o) →
    ∃ st' G', processLocks st (G ++ B) = (st', G' ++ B) ∧ Swallowed st st' G G' := by
  induction G with
  | nil =>
    intro st _ _ howner ha hr _ hB
    exact ⟨st, [], processLocks_others howner fun p hp => (hB p hp).2.2,
      Swallowed.stop ha hr (by simp [segs, absorb])⟩
  | cons fl G ih =>
    intro st hG hreq howner ha hr hgt hB
    rw [mem_cons, not_or] at hreq
    obtain ⟨hne, hreqG⟩ := hreq
    have hflG : fl ∉ G := (nodup_cons.mp hG.nodup).1
    have hflo := hG.owner fl (mem_cons_self ..)
    have hflt := hG.type fl (mem_cons_self ..)
    have hfl0 := hG.nonempty (mem_cons_self ..)
    have hfls := hgt fl (mem_cons_self ..)
    have hsame : posixSameOwner st.req (st.mem fl) = true := decide_eq_true (howner.trans hflo.symm)
    have hturn := turn_swallow ha hfls hfl0
    have hcons := absorbs_cons (f := st.req) (segs st.mem G) hflt
    -- the walk stops in front of `fl`
    have hstop : turn st fl = .stop st →
      absorbs st.req (segs st.mem (fl :: G)) = own st.req ++ segs st.mem (fl :: G) →
        ∃ st' G', processLocks st (fl :: G ++ B) = (st', G' ++ B) ∧ Swallowed st st' (fl :: G) G' := by
      intro ht hs
      refine ⟨st, fl :: G, ?_, Swallowed.stop ha hr hs⟩
      rw [cons_append, processLocks, hsame, ht]; rfl
    -- `fl` is deleted
    have hdel : ∀ mem1 : Ptr → FileLock Owner, turn st fl = .next { st with mem := mem1 } →
        (mem1 st.request = { st.req with flEnd := (mem1 st.request).flEnd }) →
        (∀ p, p ≠ st.request → p ≠ fl → mem1 p = st.mem p) →
        absorbs st.req (segs st.mem (fl :: G)) = absorbs (mem1 st.request) (segs st.mem G) →
        ∃ st' G', processLocks st (fl :: G ++ B) = (st', G' ++ B) ∧ Swallowed st st' (fl :: G) G' := by
      intro mem1 ht hrm hmem hs
      have hG1 : ∀ p ∈ G, mem1 p = st.mem p := fun p hp =>
        hmem p (fun h => hreqG (h ▸ hp)) fun h => hflG (h ▸ hp)
      obtain ⟨st', G', hp, hsw⟩ := ih { st with mem := mem1 } (hG.tail.congr hG1) hreqG
        (by show (mem1 st.request).flOwner = o; rw [hrm]; exact howner) ha hr
        (fun p hp => by
          show (mem1 st.request).flStart < (mem1 p).flStart
          rw [hrm, hG1 p hp]; exact hgt p (mem_cons_of_mem fl hp))
        (by grind)
      refine ⟨st', G', ?_, hsw.delete hflG hreqG rfl rfl rfl hrm hmem hs⟩
      rw [cons_append, processLocks, hsame, ht]; exact hp
    by_cases hty : st.req.flType = (st.mem fl).flType
    · rw [if_pos hty] at hturn hcons
      by_cases hfar : (st.mem fl).flStart - 1 > st.req.flEnd
      · rw [if_pos hfar] at hturn hcons
        exact hstop hturn hcons
      · -- adjacent or overlapping, of the same type
        rw [if_neg hfar] at hturn hcons
        obtain ⟨m1, m2, m3⟩ := mergeRange_spec st.mem fun h : fl = st.request => hne h.symm
        have hmin : min st.req.flStart (st.mem fl).flStart = st.req.flStart := by omega
        rw [hmin] at m2
        exact hdel _ hturn (by rw [m2]) (fun p h1 h2 => m3 p h2 h1) (by rw [m2]; exact hcons)
    · rw [if_neg hty] at hturn hcons
      by_cases hfar : (st.mem fl).flStart > st.req.flEnd
      · rw [if_pos hfar] at hturn hcons
        exact hstop hturn hcons
      rw [if_neg hfar] at hturn hcons
      by_cases hhi : (st.mem fl).flEnd > st.req.flEnd
      · -- `fl` sticks out of the range: it is the right neighbour
        rw [if_pos hhi] at hturn hcons
        refine ⟨{ st with right := some fl }, fl :: G, ?_, ⟨rfl, rfl, ha, rfl, suffix_refl _, rfl,
          fun _ _ _ => rfl, by grind, hcons.trans ?_⟩⟩
        · rw [cons_append, processLocks, hsame, hturn]; rfl
        · rw [map_cons, trimRight, if_pos rfl]
          refine congrArg _ (congrArg _ (map_congr_left fun p hp => ?_))
          rw [trimRight_of_ne (by grind)]
      · rw [if_neg hhi] at hturn hcons
        exact hdel st.mem hturn rfl (fun _ _ _ => rfl) hcons

/-! ## The whole walk -/

/-- Where the walk stands while the request has no place in the list yet: the locks of its owner that
    are ahead (`G`), those of other owners behind them (`B`), and two addresses for new locks. -/
structure Start (st : Walk Owner) (o : Owner) (G B : List Ptr) (newFl newFl2 : Option Ptr) : Prop where
  group : Group st.mem o G
  owner : (st.mem st.request).flOwner = o
  posix : (st.mem st.request).flPosix = true
  range : (st.mem st.request).flStart ≤ (st.mem st.request).flEnd
  request : st.request ∉ st.before ++ (G ++ B)
  nodup : (st.before ++ (G ++ B)).Nodup
  added : st.added = false
  right : st.right = none
  left : ∀ l, st.left = some l → l ∈ st.before ∧ (st.mem st.request).flType ≠ .unlck ∧
    ∀ p ∈ G, (st.mem st.request).flStart < (st.mem p).flStart
  others : ∀ p ∈ B, (st.mem p).flOwner ≠ o
  new : ∀ n, newFl = some n → n ∉ st.before ++ (G ++ B) ∧ n ≠ st.request
  new2 : ∀ n, newFl2 = some n → n ∉ st.before ++ (G ++ B) ∧ n ≠ st.request ∧ newFl ≠ some n

/-- **What the call does from there.**  On success the owner's locks ahead have become `G'`, which reads
    as the assignment, the left neighbour has been cut, and nothing else has changed; on failure
    nothing has changed at all. -/
structure Replaced (st : Walk Owner) (o : Owner) (G B : List Ptr) (newFl newFl2 : Option Ptr)
    (out : Outcome Owner) : Prop where
  ok : out.error = 0 → ∃ G', out.inode.iFlock = st.before ++ (G' ++ B) ∧
    segs out.inode.mem G' = assign (asValue (st.mem st.request).flType) (st.mem st.request).flStart
      (st.mem st.request).flEnd (segs st.mem G) ∧
    (∀ p ∈ G', (out.inode.mem p).flOwner = o ∧ (out.inode.mem p).flPosix = true) ∧
    (∀ p ∈ G', p ∈ G ∨ newFl = some p ∨ newFl2 = some p) ∧ G'.Nodup ∧
    ∀ p ∈ st.before ++ B, out.inode.mem p = trimLeft st.left (st.mem st.request).flStart p (st.mem p)
  fail : out.error ≠ 0 → out.inode.iFlock = st.before ++ (G ++ B) ∧
    ∀ p ∈ st.before ++ (G ++ B), out.inode.mem p = st.mem p

/-- The walk, and everything after it. -/
def walkAndFinish [DecidableEq Owner] (st : Walk Owner) (rest : List Ptr)
    (newFl newFl2 : Option Ptr) : Outcome Owner :=
  finish (processLocks st rest).1 (processLocks st rest).2 newFl newFl2

/-! ### After the walk -/

theorem no_split {left right newFl2 : Option Ptr} (hlr : ∀ r, right = some r → left ≠ some r) :
    ¬ (right.isSome = true ∧ left = right ∧ newFl2 = none) := by
  rintro ⟨h1, h2, _⟩
  obtain ⟨r, hr⟩ := isSome_iff_exists.mp h1
  exact hlr r hr (h2.trans hr)

section Finish
variable (st : Walk Owner) (newFl newFl2 : Option Ptr) (rest : List Ptr)

/-- The request has its place already: only the neighbours are cut. -/
theorem finish_added (ha : st.added = true) (hlr : ∀ r, st.right = some r → st.left ≠ some r)
    (hr : st.right ≠ some st.request) :
    let out := finish st rest newFl newFl2
    out.error = 0 ∧
    out.inode.iFlock = st.before ++ rest ∧
    ∀ p, out.inode.mem p = trimLeft st.left st.req.flStart p
      (trimRight st.right st.req.flEnd p (st.mem p)) := by
  have hnone := @no_split st.left st.right newFl2 hlr
  obtain ⟨h1, h2⟩ := trimNeighbours_spec st.mem st.request st.left st.right newFl2 rest hlr hr
  unfold finish
  simp only [if_neg hnone, ha, if_true]
  exact ⟨trivial, by rw [h1], h2⟩

/-- The request lies inside the lock `r`, which is split; an unlock needs no lock for itself. -/
theorem finish_split {r n2 : Ptr} (ha : st.added = true) (hl : st.left = some r)
    (hr : st.right = some r) (hreq : r ≠ st.request) (hn : n2 ≠ st.request) (hnr : n2 ≠ r) :
    let out := finish st rest newFl (some n2)
    out.error = 0 ∧
    out.inode.iFlock = st.before ++ n2 :: rest ∧
    out.inode.mem n2 =
      { st.mem r with flEnd := st.req.flStart - 1 } ∧
    ∀ p, p ≠ n2 → out.inode.mem p = trimRight (some r) st.req.flEnd p (st.mem p) := by
  obtain ⟨h1, h2⟩ := trimNeighbours_split st.mem rest hreq hn hnr
  have hnone : ¬ (st.right.isSome = true ∧ st.left = st.right ∧ some n2 = none) := fun h => (nomatch h.2.2)
  unfold finish
  simp only [if_neg hnone]
  simp only [ha, if_true, hl, hr]
  exact ⟨trivial, by rw [h1], by rw [h2, if_pos rfl], fun p hp => by rw [h2, if_neg hp]⟩

/-- Out of memory, or nothing to unlock: nothing changes. -/
theorem finish_unchanged (h : (st.right.isSome = true ∧ st.left = st.right ∧ newFl2 = none) ∨
    (st.added = false ∧ (st.req.flType = .unlck ∨ newFl = none))) :
    (finish st rest newFl newFl2).inode = ⟨st.mem, st.before ++ rest⟩ ∧
    (st.req.flType ≠ .unlck → (finish st rest newFl newFl2).error ≠ 0) := by
  unfold finish
  by_cases h1 : st.right.isSome = true ∧ st.left = st.right ∧ newFl2 = none
  · simp only [if_pos h1]; exact ⟨trivial, fun _ => by decide⟩
  · obtain ⟨ha, h2⟩ := h.resolve_left h1
    simp only [if_neg h1, ha, Bool.false_eq_true, if_false]
    by_cases hu : st.req.flType = .unlck
    · simp only [if_pos hu]; exact ⟨trivial, fun hh => absurd hu hh⟩
    · simp only [if_neg hu, h2.resolve_left hu]; exact ⟨trivial, fun _ => by decide⟩

/-- The lock of the request, put in front of the rest; an unlock has none. -/
structure AtLink (new : List Ptr) (mem1 : Ptr → FileLock Owner) : Prop where
  reads : segs mem1 new = own st.req
  fresh : ∀ p ∈ new, newFl = some p
  mem : ∀ p, mem1 p = if p ∈ new then st.req else st.mem p
  nodup : new.Nodup

/-- The request gets its place at the link, if there is memory. -/
theorem finish_placed (ha : st.added = decide (st.req.flType = .unlck))
    (hsplit : ¬ (st.right.isSome = true ∧ st.left = st.right ∧ newFl2 = none)) :
    ((finish st rest newFl newFl2).error ≠ 0 ∧
      (finish st rest newFl newFl2).inode = ⟨st.mem, st.before ++ rest⟩) ∨
    ∃ new mem1, AtLink st newFl new mem1 ∧ finish st rest newFl newFl2 =
      finish { st with mem := mem1, added := true } (new ++ rest) newFl newFl2 := by
  by_cases hu : st.req.flType = .unlck
  · rw [decide_eq_true hu] at ha
    refine .inr ⟨[], st.mem, ⟨?_, nofun, fun p => rfl, nodup_nil⟩, by rw [← ha]; rfl⟩
    rw [own, hu]; rfl
  · rw [decide_eq_false hu] at ha
    cases newFl with
    | none =>
      obtain ⟨hi, he⟩ := finish_unchanged st none newFl2 rest (.inr ⟨ha, .inr rfl⟩)
      exact .inl ⟨he hu, hi⟩
    | some n =>
      refine .inr ⟨[n], update st.mem n st.req, ⟨?_, by simp, by simp [update_apply], by simp⟩, ?_⟩
      · rw [own, asValue, if_neg hu]
        show [seg _] = [seg st.req]
        rw [update_self]
      · unfold finish
        simp [hsplit, ha, hu]

end Finish

/-! ### The ways a walk ends -/

section Walk
variable {st : Walk Owner} {o : Owner} {G B : List Ptr} {newFl newFl2 : Option Ptr}
variable {p : Ptr}

section
variable (h : Start st o G B newFl newFl2)
include h

theorem Start.left_ne (hp : p ∈ G ++ B) : st.left ≠ some p := fun hl =>
  (nodup_append.mp h.nodup).2.2 p (h.left p hl).1 p hp rfl

theorem Start.left_of_unlck (hu : st.req.flType = .unlck) : st.left = none := by
  cases hl : st.left with
  | none => rfl
  | some l => exact absurd hu (h.left l hl).2.1

/-- The owner's locks ahead are neither in front of the link nor other owners' locks. -/
theorem Start.outside (hp : p ∈ st.before ++ B) : p ∉ G ∧ p ∈ st.before ++ (G ++ B) := by
  obtain ⟨_, hGB, hd⟩ := nodup_append.mp h.nodup
  rcases mem_append.mp hp with hp | hp
  · exact ⟨fun hG => hd p hp p (mem_append_left B hG) rfl, mem_append_left _ hp⟩
  · exact ⟨fun hG => (nodup_append.mp hGB).2.2 p hG p hp rfl, mem_append_right _ (mem_append_right G hp)⟩

end

theorem Start.inside (G B : List Ptr) (hp : p ∈ G) : p ∈ st.before ++ (G ++ B) :=
  mem_append_right _ (mem_append_left B hp)

/-- The first lock ahead is cut: it is the right neighbour of the request. -/
abbrev Walk.cut (st : Walk Owner) (left : Option Ptr) (fl : Ptr) : Walk Owner :=
  { st with added := decide ((st.mem st.request).flType = .unlck), left := left, right := some fl }

/-- Failing changes nothing. -/
theorem replaced_fail {out : Outcome Owner} (he : out.error ≠ 0)
    (hi : out.inode = ⟨st.mem, st.before ++ (G ++ B)⟩) : Replaced st o G B newFl newFl2 out :=
  ⟨fun h => absurd h he, fun _ => by rw [hi]; exact ⟨rfl, fun _ _ => rfl⟩⟩

/-- The lock of the request is a new one. -/
theorem Start.placed {new : List Ptr} {mem1 : Ptr → FileLock Owner} (h : Start st o G B newFl newFl2)
    (hp : AtLink st newFl new mem1) :
    mem1 st.request = st.req ∧ (∀ p ∈ new, p ∉ st.before ++ (G ++ B) ∧ mem1 p = st.req) ∧
      ∀ p ∈ st.before ++ (G ++ B), mem1 p = st.mem p := by
  have hnew : ∀ p ∈ new, p ∉ st.before ++ (G ++ B) ∧ p ≠ st.request := fun p hh => h.new p (hp.fresh p hh)
  refine ⟨?_, fun p hh => ⟨(hnew p hh).1, ?_⟩, fun p hh => ?_⟩ <;> rw [hp.mem]
  · exact ite_self _
  · exact if_pos hh
  · exact if_neg fun hn => (hnew p hn).1 hh

/-- **No lock is touched**: the request goes in front of those that are ahead. -/
theorem replaced_place (h : Start st o G B newFl newFl2)
    (hs : asks st.req (segs st.mem G) = own st.req ++ segs st.mem G) :
    Replaced st o G B newFl newFl2 (finish st (G ++ B) newFl newFl2) := by
  have hr : ∀ p, st.right ≠ some p := fun p hp => (nomatch h.right.symm.trans hp)
  by_cases hu : st.req.flType = .unlck
  · obtain ⟨hi, _⟩ := finish_unchanged st newFl newFl2 (G ++ B) (.inr ⟨h.added, .inl hu⟩)
    refine ⟨fun _ => ⟨G, by rw [hi], ?_, ?_, fun p hp => .inl hp, h.group.nodup, ?_⟩,
      fun _ => by rw [hi]; exact ⟨rfl, fun _ _ => rfl⟩⟩ <;> rw [hi]
    · refine Eq.trans ?_ hs.symm
      rw [own, hu]; rfl
    · exact fun p hp => ⟨h.group.owner p hp, h.group.posix p hp⟩
    · rw [h.left_of_unlck hu]
      exact fun p _ => (trimLeft_none ..).symm
  have hlr : ∀ r, st.right = some r → st.left ≠ some r := fun r hr' => absurd hr' (hr r)
  rcases finish_placed st newFl newFl2 (G ++ B) (h.added.trans (decide_eq_false hu).symm) (no_split hlr) with
    ⟨he, hi⟩ | ⟨new, mem1, hp, heq⟩
  · exact replaced_fail he hi
  obtain ⟨hreq, hnew, hold⟩ := h.placed hp
  obtain ⟨h1, h2, h3⟩ :=
    finish_added { st with mem := mem1, added := true } newFl newFl2 (new ++ (G ++ B)) rfl hlr (hr _)
  rw [← heq] at h1 h2 h3
  simp only [h.right, trimRight_none, Walk.req, hreq] at h3
  generalize finish st (G ++ B) newFl newFl2 = out at *
  have hG : ∀ p ∈ new ++ G, out.inode.mem p = mem1 p := fun p hp => by
    rw [h3]
    exact if_neg (by grind [Start])
  refine ⟨fun _ => ⟨new ++ G, by rw [h2]; simp, ?_, ?_, ?_, ?_, by grind⟩, fun he => absurd h1 he⟩
  · rw [segs_congr hG, segs, map_append]
    exact (congrArg₂ _ hp.reads (segs_congr fun p hp => hold p (Start.inside G B hp))).trans hs.symm
  · grind [Start, Group]
  · grind [AtLink]
  · have := h.group.nodup
    have := hp.nodup
    grind [nodup_append]

variable {fl : Ptr}

section
variable (h : Start st o (fl :: G) B newFl newFl2)
include h

/-- The first lock ahead is none of the others. -/
theorem Start.first : fl ≠ st.request ∧ fl ∉ G ∧ ∀ p ∈ st.before ++ B, p ≠ fl :=
  ⟨fun hh => h.request (hh ▸ Start.inside _ B (mem_cons_self ..)), (nodup_cons.mp h.group.nodup).1,
    fun _ hp hpf => (h.outside hp).1 (hpf ▸ mem_cons_self ..)⟩

/-- **The first lock ahead sticks out behind the range**, but not in front of it. -/
theorem replaced_right (hs : asks st.req (segs st.mem (fl :: G)) = own st.req ++
        seg { st.mem fl with flStart := st.req.flEnd + 1 } :: segs st.mem G) :
    Replaced st o (fl :: G) B newFl newFl2 (finish (st.cut st.left fl) (fl :: G ++ B) newFl newFl2) := by
  obtain ⟨hflne, hflG, hout⟩ := h.first
  have hlr : ∀ r, some fl = some r → st.left ≠ some r := fun r hr hl =>
    h.left_ne (mem_cons_self ..) (hl.trans hr.symm)
  rcases finish_placed (st.cut st.left fl) newFl newFl2 (fl :: G ++ B) rfl (no_split hlr) with
    ⟨he, hi⟩ | ⟨new, mem1, hp, heq⟩
  · exact replaced_fail he hi
  obtain ⟨hreq, hnew, hold⟩ := h.placed { hp with }
  obtain ⟨h1, h2, h3⟩ := finish_added { st.cut st.left fl with mem := mem1, added := true } newFl newFl2
    (new ++ (fl :: G ++ B)) rfl hlr fun hh => hflne (some.inj hh)
  rw [← heq] at h1 h2 h3
  simp only [Walk.req, hreq] at h3
  generalize finish (st.cut st.left fl) (fl :: G ++ B) newFl newFl2 = out at *
  have hn : ∀ p ∈ new, out.inode.mem p = mem1 p := fun p hp => by grind [Start, trimLeft, trimRight]
  have hG : ∀ p ∈ fl :: G, out.inode.mem p = trimRight (some fl) st.req.flEnd p (st.mem p) := fun p hp => by
    rw [h3, hold p (Start.inside _ B hp)]
    exact if_neg (h.left_ne (mem_append_left B hp))
  have hkeeps := @trimRight_keeps Owner (some fl) st.req.flEnd
  refine ⟨fun _ => ⟨new ++ fl :: G, by rw [h2]; simp, ?_, ?_, ?_, ?_, ?_⟩, fun he => absurd h1 he⟩
  · rw [segs, map_append]
    exact (congrArg₂ _ ((segs_congr hn).trans hp.reads) (segs_trimRight hflG hG)).trans hs.symm
  · grind [Start, Group]
  · grind [AtLink]
  · have := h.group.nodup
    have := hp.nodup
    grind [nodup_append]
  · grind [trimRight]

/-- **The request lies inside the first lock ahead**, which is split in two. -/
theorem replaced_split (hleft : st.left = none) (hs : asks st.req (segs st.mem (fl :: G)) =
      seg { st.mem fl with flEnd := st.req.flStart - 1 } :: (own st.req ++
        seg { st.mem fl with flStart := st.req.flEnd + 1 } :: segs st.mem G)) :
    Replaced st o (fl :: G) B newFl newFl2 (finish (st.cut (some fl) fl) (fl :: G ++ B) newFl newFl2) := by
  obtain ⟨hflne, hflG, hout⟩ := h.first
  cases hn2 : newFl2 with
  | none =>
    have hfail : Replaced st o (fl :: G) B newFl none ⟨ENOLCK, ⟨st.mem, st.before ++ (fl :: G ++ B)⟩,
      none⟩ := replaced_fail (show ENOLCK ≠ 0 by decide) rfl
    unfold finish
    simp only [isSome_some, and_self, if_true]
    exact hfail
  | some n2 =>
    obtain ⟨hnl2, hnr2, hnn⟩ := h.new2 n2 hn2
    rcases finish_placed (st.cut (some fl) fl) newFl (some n2) (fl :: G ++ B) rfl nofun with
      ⟨he, hi⟩ | ⟨new, mem1, hp, heq⟩
    · exact replaced_fail he hi
    obtain ⟨hreq, hnew, hold⟩ := h.placed { hp with }
    obtain ⟨h1, h2, h3, h4⟩ := finish_split { st.cut (some fl) fl with mem := mem1, added := true } newFl
      (new ++ (fl :: G ++ B)) rfl rfl rfl hflne hnr2 (by grind)
    rw [← heq] at h1 h2 h3 h4
    simp only [Walk.req, hreq] at h3 h4
    generalize finish (st.cut (some fl) fl) (fl :: G ++ B) newFl (some n2) = out at *
    have hn : ∀ p ∈ new, out.inode.mem p = mem1 p := fun p hh => by grind [trimRight, AtLink]
    have hG : ∀ p ∈ fl :: G, out.inode.mem p = trimRight (some fl) st.req.flEnd p (st.mem p) := fun p hp => by
      rw [h4 p (by grind), hold p (Start.inside _ B hp)]
    have hkeeps := @trimRight_keeps Owner (some fl) st.req.flEnd
    refine ⟨fun _ => ⟨n2 :: (new ++ fl :: G), by rw [h2]; simp, ?_, ?_, ?_, ?_, ?_⟩, fun he => absurd h1 he⟩
    · refine Eq.trans ?_ hs.symm
      rw [segs, map_cons, map_append, h3, hold fl (Start.inside _ B (mem_cons_self ..))]
      exact congrArg (_ :: ·) (congrArg₂ _ ((segs_congr hn).trans hp.reads) (segs_trimRight hflG hG))
    · grind [Start, Group]
    · grind [AtLink]
    · have := h.group.nodup
      have := hp.nodup
      exact nodup_cons.mpr ⟨by grind [AtLink], by grind [nodup_append]⟩
    · intro p hp
      rw [h4 p (by grind), hleft, trimLeft_none, trimRight_of_ne (hout p hp)]
      grind

/-- **A lock is passed**, and may have become the left neighbour. -/
theorem replaced_next {left : Option Ptr} {out : Outcome Owner}
    (hr : Replaced { st with before := st.before ++ [fl], left := left } o G B newFl newFl2 out)
    (hleft : left = st.left ∨ (left = some fl ∧ st.left = none))
    (hs : asks st.req (segs st.mem (fl :: G)) = seg (trimLeft left st.req.flStart fl (st.mem fl)) ::
        asks st.req (segs st.mem G)) :
    Replaced st o (fl :: G) B newFl newFl2 out := by
  obtain ⟨_, hflG, hout⟩ := h.first
  have hsame : ∀ p ∈ st.before ++ B, ∀ f : FileLock Owner,
      trimLeft left st.req.flStart p f = trimLeft st.left st.req.flStart p f := by
    intro p hp f
    grind [trimLeft]
  refine ⟨fun he => ?_, fun he => ?_⟩
  · obtain ⟨G', h1, h2, h3, h4, h5, h6⟩ := hr.ok he
    have hfl := h6 fl (mem_append_left _ (mem_append_right _ (mem_singleton.mpr rfl)))
    have hnew : fl ∉ G' := by grind [Start]
    have hkeeps := trimLeft_keeps left st.req.flStart fl (st.mem fl)
    refine ⟨fl :: G', by rw [h1]; simp, Eq.trans ?_ hs.symm, by grind [Start, Group], by grind,
      nodup_cons.mpr ⟨hnew, h5⟩, by grind⟩
    rw [asks, ← h2, ← hfl]; rfl
  · obtain ⟨h1, h2⟩ := hr.fail he
    have hlist : st.before ++ [fl] ++ (G ++ B) = st.before ++ (fl :: G ++ B) := by simp
    rw [hlist] at h1 h2
    exact ⟨h1, h2⟩

theorem Start.next {left : Option Ptr}
    (hleft : ∀ l, left = some l → l ∈ st.before ++ [fl] ∧ st.req.flType ≠ .unlck ∧
      ∀ p ∈ G, st.req.flStart < (st.mem p).flStart) :
    Start { st with before := st.before ++ [fl], left := left } o G B newFl newFl2 := by
  have hlist : st.before ++ [fl] ++ (G ++ B) = st.before ++ (fl :: G ++ B) := by simp
  refine ⟨h.group.tail, h.owner, h.posix, h.range, ?_, ?_, h.added, h.right, hleft, h.others, ?_, ?_⟩ <;>
    simp only [hlist]
  exacts [h.request, h.nodup, h.new, h.new2]

end

/-- **The request has found its place** in a state `st₁` that differs from `st` only in the first lock
    ahead and in the request itself. -/
theorem swallow_run [DecidableEq Owner] (st1 : Walk Owner)
    (h : Start st o (fl :: G) B newFl newFl2) (ha : st1.added = true) (hr : st1.right = none)
    (hmem : ∀ p, p ≠ fl → p ≠ st.request → st1.mem p = st.mem p)
    (hreq : st1.request = fl ∨ st1.request = st.request) (hro : st1.req.flOwner = o)
    (hgt : ∀ p ∈ G, st1.req.flStart < (st.mem p).flStart)
    (hleft : st1.left = st.left ∨ st1.left = some fl) :
    ∃ st' G', processLocks st1 (G ++ B) = (st', G' ++ B) ∧ Swallowed st1 st' G G' ∧
      (finish st' (G' ++ B) newFl newFl2).error = 0 ∧
      (finish st' (G' ++ B) newFl newFl2).inode.iFlock = st1.before ++ (G' ++ B) ∧
      (∀ p ∈ G', (finish st' (G' ++ B) newFl newFl2).inode.mem p =
        trimRight st'.right (st'.mem st1.request).flEnd p (st.mem p)) ∧
      ∀ p, p ∉ G → (finish st' (G' ++ B) newFl newFl2).inode.mem p =
        trimLeft st1.left st1.req.flStart p (st'.mem p) := by
  have hGne : ∀ p ∈ G, p ≠ fl ∧ p ≠ st.request := by grind [Start]
  have hGmem : ∀ p ∈ G, st1.mem p = st.mem p := fun p hp => hmem p (hGne p hp).1 (hGne p hp).2
  have hreqG : st1.request ∉ G := by grind
  have hleftG : ∀ p ∈ G, st1.left ≠ some p := by
    intro p hp hl
    rcases hleft with hh | hh <;> rw [hh] at hl
    · exact h.left_ne (mem_append_left B (mem_cons_of_mem fl hp)) hl
    · exact (hGne p hp).1 (some.inj hl).symm
  have hB : ∀ p ∈ B, p ∉ G ∧ p ≠ st1.request ∧ (st1.mem p).flOwner ≠ o := by
    intro p hp
    grind [Start]
  obtain ⟨st', G', hp, hsw⟩ := processLocks_absorb G st1 (h.group.tail.congr hGmem) hreqG hro ha hr
    (fun p hp => by rw [hGmem p hp]; exact hgt p hp) hB
  have hsub : ∀ p ∈ G', p ∈ G := fun p hp => hsw.suffix.subset hp
  obtain ⟨h1, h2, h3⟩ := finish_added st' newFl newFl2 (G' ++ B) hsw.added
    (fun r hr hl => hleftG r (hsub r (hsw.right r hr)) (hsw.left ▸ hl))
    fun hr => hreqG (hsw.request ▸ hsub _ (hsw.right _ hr))
  have hstart : (st'.mem st1.request).flStart = st1.req.flStart := by rw [hsw.req]
  rw [Walk.req, hsw.request, hsw.left, hstart] at h3
  refine ⟨st', G', hp, hsw, h1, by rw [h2, hsw.before], fun p hp => ?_, fun p hp => ?_⟩
  · rw [h3, hsw.mem p (fun hh => hreqG (hh ▸ hsub p hp)) fun _ => hp, hGmem p (hsub p hp)]
    exact if_neg (hleftG p (hsub p hp))
  · rw [h3]
    congr 1
    exact if_neg fun hh => hp (hsub p (hsw.right p hh))

/-- The owner and kind of the locks that are left of `G` after swallowing. -/
theorem swallowed_keeps {mem : Ptr → FileLock Owner} {right : Option Ptr} {e : Int} {G' : List Ptr}
    {mem' : Ptr → FileLock Owner} (hG : Group mem o G) (hsub : G' <:+ G)
    (hm : ∀ p ∈ G', mem' p = trimRight right e p (mem p)) :
    ∀ p ∈ G', (mem' p).flOwner = o ∧ (mem' p).flPosix = true := fun p hp => by
  rw [hm p hp, (trimRight_keeps _ _ _ _).1, (trimRight_keeps _ _ _ _).2]
  exact ⟨hG.owner p (hsub.subset hp), hG.posix p (hsub.subset hp)⟩

/-- **The first lock ahead takes the request in**: merged with it, or replaced by it. -/
theorem replaced_merge [DecidableEq Owner] {mem1 : Ptr → FileLock Owner}
    (h : Start st o (fl :: G) B newFl newFl2) (hu : st.req.flType ≠ .unlck)
    (hmem : ∀ p, p ≠ fl → p ≠ st.request → mem1 p = st.mem p)
    (hfl : (mem1 fl).flOwner = o ∧ (mem1 fl).flPosix = true ∧ (mem1 fl).flType = st.req.flType)
    (hgt : ∀ p ∈ G, (mem1 fl).flStart < (st.mem p).flStart)
    (hleft : st.left ≠ none → (mem1 fl).flStart = st.req.flStart)
    (hs : asks st.req (segs st.mem (fl :: G)) =
      absorb (asValue st.req.flType) (mem1 fl).flStart (mem1 fl).flEnd (segs st.mem G)) :
    Replaced st o (fl :: G) B newFl newFl2 (walkAndFinish { st with
        mem := mem1, before := st.before ++ [fl], request := fl, added := true } (G ++ B)
        newFl newFl2) := by
  obtain ⟨st', G', hp, hsw, h1, h2, h3, h4⟩ := swallow_run { st with
    mem := mem1, before := st.before ++ [fl], request := fl, added := true } h rfl h.right hmem
    (.inl rfl) hfl.1 hgt (.inl rfl)
  simp only [walkAndFinish, hp]
  obtain ⟨hflG, hGn⟩ := nodup_cons.mp h.group.nodup
  have hsub : ∀ p ∈ G', p ∈ G := fun p hp => hsw.suffix.subset hp
  have hfl' : (finish st' (G' ++ B) newFl newFl2).inode.mem fl =
      { mem1 fl with flEnd := (st'.mem fl).flEnd } := by
    rw [h4 fl hflG, show st'.mem fl = { mem1 fl with flEnd := (st'.mem fl).flEnd } from hsw.req]
    exact if_neg (h.left_ne (mem_cons_self ..))
  have hres := hsw.result
  simp only [hfl.2.2] at hres
  have hsegG : segs mem1 G = segs st.mem G := segs_congr fun p hp =>
    hmem p (fun hh => hflG (hh ▸ hp)) fun hh =>
      h.request (hh ▸ Start.inside _ B (mem_cons_of_mem fl hp))
  have hkeeps := swallowed_keeps h.group.tail hsw.suffix h3
  have htail : segs (finish st' (G' ++ B) newFl newFl2).inode.mem G' =
      G'.map fun p => seg (trimRight st'.right (st'.mem fl).flEnd p (mem1 p)) :=
    map_congr_left fun p hp => by rw [h3 p hp, hmem p (by grind) (by grind [Start])]
  refine ⟨fun _ => ⟨fl :: G', by rw [h2]; simp, Eq.trans ?_ hs.symm, by grind, by grind,
    nodup_cons.mpr ⟨fun hh => hflG (hsub fl hh), hsw.suffix.sublist.nodup hGn⟩, fun p hp => ?_⟩,
      fun he => absurd h1 he⟩
  · rw [← hsegG, hres, asValue, if_neg hu]
    show seg _ :: segs _ G' = (⟨(mem1 fl).flStart, (st'.mem fl).flEnd, st.req.flType⟩ : Seg LockType) :: _
    rw [hfl', htail]
    simp only [seg, hfl.2.2]
    rfl
  · obtain ⟨ho1, ho2⟩ := h.outside hp
    have hpf := h.first.2.2 p hp
    have hpG : p ∉ G := fun hh => ho1 (mem_cons_of_mem fl hh)
    have hst' : st'.mem p = st.mem p := (hsw.mem p hpf fun hh => absurd hh hpG).trans
      (hmem p hpf fun hh => h.request (hh ▸ ho2))
    grind [trimLeft]

/-- **An unlock meets its first lock**, which goes (`stays = false`) or is cut (`stays = true`). -/
theorem replaced_unlock [DecidableEq Owner] (h : Start st o (fl :: G) B newFl newFl2)
    (hu : st.req.flType = .unlck) (stays : Bool)
    (hgt : ∀ p ∈ G, st.req.flStart < (st.mem p).flStart)
    (hs : assign none st.req.flStart st.req.flEnd (segs st.mem (fl :: G)) =
      (if stays then [seg { st.mem fl with flEnd := st.req.flStart - 1 }] else []) ++
      absorb none st.req.flStart st.req.flEnd (segs st.mem G)) :
    Replaced st o (fl :: G) B newFl newFl2 (walkAndFinish { st with
      before := st.before ++ (if stays then [fl] else []), added := true
      left := if stays then some fl else st.left } (G ++ B) newFl newFl2) := by
  have hl := h.left_of_unlck hu
  obtain ⟨st', G', hp, hsw, h1, h2, h3, h4⟩ := swallow_run { st with
    before := st.before ++ (if stays then [fl] else []), added := true
    left := if stays then some fl else st.left } h rfl h.right (fun _ _ _ => rfl) (.inr rfl) h.owner
    hgt (by cases stays; exacts [.inl rfl, .inr rfl])
  simp only [walkAndFinish, hp]
  obtain ⟨hflG, hGn⟩ := nodup_cons.mp h.group.nodup
  have hsub : ∀ p ∈ G', p ∈ G := fun p hp => hsw.suffix.subset hp
  have hkeep : ∀ p ∈ st.before ++ (fl :: G ++ B), p ∉ G → st'.mem p = st.mem p := fun p hp hpG =>
    hsw.mem p (fun hh => h.request (hh ▸ hp)) fun hh => absurd hh hpG
  have hres := hsw.result
  simp only [hu] at hres
  have htail : segs (finish st' (G' ++ B) newFl newFl2).inode.mem G' =
      absorb none st.req.flStart st.req.flEnd (segs st.mem G) :=
    (map_congr_left fun p hp => by rw [h3 p hp]).trans hres.symm
  have hG'n := hsw.suffix.sublist.nodup hGn
  have hkeeps := swallowed_keeps h.group.tail hsw.suffix h3
  have hfl := h4 fl hflG
  rw [hkeep fl (Start.inside _ B (mem_cons_self ..)) hflG] at hfl
  have hout : ∀ p ∈ st.before ++ B, (finish st' (G' ++ B) newFl newFl2).inode.mem p = st.mem p := by
    intro p hp
    obtain ⟨ho1, ho2⟩ := h.outside hp
    rw [h4 p (by grind), hkeep p ho2 (by grind)]
    exact if_neg (by grind)
  refine ⟨fun _ => ⟨(if stays then [fl] else []) ++ G', by rw [h2]; simp, ?_, ?_, by grind, by grind,
    fun p hp => by rw [hout p hp, hl, trimLeft_none]⟩, fun he => absurd h1 he⟩
  · rw [hu, show asValue .unlck = none from rfl, hs, ← htail]
    cases stays with
    | false => rfl
    | true =>
      show seg _ :: segs _ G' = seg _ :: segs _ G'
      rw [hfl, trimLeft, if_pos (if_pos rfl)]
  · have howner := trimLeft_keeps (if stays then some fl else st.left) st.req.flStart fl (st.mem fl)
    grind [Start, Group]

end Walk

/-! ### One walk -/

/-- **The walk is an assignment.**  Induction over the owner's locks ahead. -/
theorem walk_spec [DecidableEq Owner] {B : List Ptr} {newFl newFl2 : Option Ptr} (G : List Ptr) :
    ∀ (st : Walk Owner), Start st o G B newFl newFl2 →
    Replaced st o G B newFl newFl2 (walkAndFinish st (G ++ B) newFl newFl2) := by
  induction G with
  | nil =>
    intro st h
    have hw : walkAndFinish st ([] ++ B) newFl newFl2 = finish st ([] ++ B) newFl newFl2 := by
      unfold walkAndFinish; rw [nil_append, processLocks_others h.owner h.others]
    rw [hw]
    exact replaced_place h (by simp [segs, assign])
  | cons fl G ih =>
    intro st h
    have hsame : posixSameOwner st.req (st.mem fl) = true :=
      decide_eq_true (h.owner.trans (h.group.owner fl (mem_cons_self ..)).symm)
    have hflt := h.group.type fl (mem_cons_self ..)
    have hfl0 := h.group.nonempty (mem_cons_self ..)
    have hahead := h.group.ahead
    have hflne := h.first.1
    have hcons := asks_cons (f := st.req) (segs st.mem G) hflt
    have hlfl : st.left ≠ some fl := h.left_ne (mem_cons_self ..)
    have hadded := h.added
    -- the two ways a turn can end
    have hstop : ∀ st1, turn st fl = .stop st1 → walkAndFinish st (fl :: G ++ B) newFl newFl2 =
        finish st1 (fl :: G ++ B) newFl newFl2 := by
      intro st1 ht
      unfold walkAndFinish
      rw [cons_append, processLocks, hsame, ht]; rfl
    have hnext : ∀ st1, turn st fl = .next st1 → walkAndFinish st (fl :: G ++ B) newFl newFl2 =
        walkAndFinish st1 (G ++ B) newFl newFl2 := by
      intro st1 ht
      unfold walkAndFinish
      rw [cons_append, processLocks, hsame, ht]; rfl
    -- `fl` is passed unchanged
    have hpass : turn st fl = .next { st with before := st.before ++ [fl] } →
      asks st.req (segs st.mem (fl :: G)) =
          seg (st.mem fl) :: asks st.req (segs st.mem G) →
        Replaced st o (fl :: G) B newFl newFl2 (walkAndFinish st (fl :: G ++ B) newFl newFl2) := by
      intro ht hs
      rw [hnext _ ht]
      refine replaced_next h (ih _ (h.next fun l hl => ?_)) (Or.inl rfl) (hs.trans ?_)
      · obtain ⟨h1, h2, h3⟩ := h.left l hl
        exact ⟨mem_append_left _ h1, h2, fun p hp => h3 p (mem_cons_of_mem fl hp)⟩
      · rw [show trimLeft st.left st.req.flStart fl (st.mem fl) = st.mem fl from if_neg hlfl]
    by_cases hty : st.req.flType = (st.mem fl).flType
    · have hu : st.req.flType ≠ .unlck := fun hh => hflt (hty.symm.trans hh)
      rw [if_pos hty] at hcons
      by_cases hfar : (st.mem fl).flEnd < st.req.flStart - 1
      · rw [if_pos hfar] at hcons
        exact hpass (by unfold turn; grind) hcons
      rw [if_neg hfar] at hcons
      by_cases hpast : (st.mem fl).flStart - 1 > st.req.flEnd
      · rw [if_pos hpast] at hcons
        rw [hstop st (by unfold turn; grind)]
        exact replaced_place h hcons
      · -- same type, adjacent or overlapping
        rw [if_neg hpast] at hcons
        obtain ⟨m1, _, m3⟩ := mergeRange_spec st.mem hflne
        rw [hnext { st with
            mem := mergeRange st.mem st.request fl, before := st.before ++ [fl], request := fl,
            added := true } (by unfold turn; grind)]
        refine replaced_merge h hu m3 ?_ ?_ ?_ ?_ <;> rw [m1]
        · exact ⟨h.group.owner fl (mem_cons_self ..), h.group.posix fl (mem_cons_self ..), hty.symm⟩
        · grind
        · intro hl
          obtain ⟨l, hl⟩ := ne_none_iff_exists'.mp hl
          have := (h.left l hl).2.2 fl (mem_cons_self ..)
          show min _ _ = (st.mem _).flStart
          omega
        · exact hcons
    rw [if_neg hty] at hcons
    by_cases hfar : (st.mem fl).flEnd < st.req.flStart
    · rw [if_pos hfar] at hcons
      exact hpass (by unfold turn; grind) hcons
    rw [if_neg hfar] at hcons
    by_cases hpast : (st.mem fl).flStart > st.req.flEnd
    · rw [if_pos hpast] at hcons
      rw [hstop st (by unfold turn; grind)]
      exact replaced_place h hcons
    rw [if_neg hpast] at hcons
    have hadd : (st.added || decide (st.req.flType = .unlck)) =
        decide (st.req.flType = .unlck) := by rw [hadded]; rfl
    by_cases hlt : (st.mem fl).flStart < st.req.flStart
    · -- `fl` sticks out in front of the range
      rw [if_pos hlt] at hcons
      have hl : st.left = none := by
        cases hl : st.left with
        | none => rfl
        | some l => have : st.req.flStart < _ := (h.left l hl).2.2 fl (mem_cons_self ..); omega
      by_cases hhi : (st.mem fl).flEnd > st.req.flEnd
      · rw [if_pos hhi] at hcons
        rw [hstop (st.cut (some fl) fl) (by
          unfold turn
          simp only [if_neg hty, if_neg hfar, if_neg hpast, if_pos hlt, if_pos hhi, hadd])]
        exact replaced_split h hl hcons
      rw [if_neg hhi] at hcons
      have hgt : ∀ p ∈ G, st.req.flStart < (st.mem p).flStart := by grind
      by_cases hu : st.req.flType = .unlck
      · rw [hnext { st with before := st.before ++ [fl], added := true, left := some fl } (by
          unfold turn; grind)]
        refine replaced_unlock h hu true hgt ?_
        rw [asks, asks, hu] at hcons
        refine hcons.trans (congrArg (seg _ :: ·) (absorb_eq_assign fun x hx => ?_).symm)
        obtain ⟨p, hp, rfl⟩ := mem_map.mp hx
        exact ⟨hgt p hp, h.group.nonempty (mem_cons_of_mem fl hp)⟩
      · rw [hnext { st with before := st.before ++ [fl], left := some fl } (by unfold turn; grind)]
        refine replaced_next h (ih _ (h.next ?_)) (Or.inr ⟨rfl, hl⟩) (hcons.trans ?_)
        · grind
        · rw [show trimLeft (some fl) st.req.flStart fl (st.mem fl) =
            { st.mem fl with flEnd := st.req.flStart - 1 } from if_pos rfl]
    · rw [if_neg hlt] at hcons
      by_cases hhi : (st.mem fl).flEnd > st.req.flEnd
      · rw [if_pos hhi] at hcons
        rw [hstop (st.cut st.left fl) (by
          unfold turn
          simp only [if_neg hty, if_neg hfar, if_neg hpast, if_neg hlt, if_pos hhi, hadd])]
        exact replaced_right h hcons
      -- `fl` lies inside the range
      rw [if_neg hhi] at hcons
      have hgt : ∀ p ∈ G, st.req.flStart < (st.mem p).flStart := by grind
      by_cases hu : st.req.flType = .unlck
      · rw [hnext { st with added := true } (by unfold turn; grind)]
        have hr := replaced_unlock h hu false hgt (by rw [asks, absorbs, hu] at hcons; exact hcons)
        simpa using hr
      · rw [hnext { st with
            mem := update st.mem fl { st.mem fl with
              flStart := st.req.flStart, flEnd := st.req.flEnd,
              flType := st.req.flType }
            before := st.before ++ [fl], request := fl, added := true } (by unfold turn; grind)]
        refine replaced_merge h hu (fun p hp _ => update_of_ne hp ..) ?_ ?_ ?_ ?_ <;> rw [update_self]
        · exact ⟨h.group.owner fl (mem_cons_self ..), h.group.posix fl (mem_cons_self ..), rfl⟩
        · exact hgt
        · exact fun _ => rfl
        · exact hcons

end LinuxKernel.Locks
