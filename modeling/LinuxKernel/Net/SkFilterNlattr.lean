/-
  The netlink-attribute loads of socket filters (`BPF_S_ANC_NLATTR`, `BPF_S_ANC_NLATTR_NEST` of
  `net/core/filter.c`, `nla_find` of `lib/nlattr.c`) — which bytes they look at.

  1. **Reads** — `nlaFindReads` lists, in order, the bytes the `nla_for_each_attr` loop examines:
     `nla_len` of every header it reaches with four bytes left, `nla_type` of every header that
     `nla_ok` passes.  `reads` is that list for one instruction.

  2. **The walk stays in its stream** (`nlaFindLoop_within`) — whatever the bytes say, a walk of
     `rem` bytes from `nla` reads and returns inside `[nla, nla + rem)`.  So everything hangs on the
     `rem` the two instructions hand over.

  3. **What they hand over** — `skb->len - sizeof(struct nlattr)` wraps for a packet shorter than a
     header, after which ANY `A` passes the test; and the nested load compares `nla_len` with
     `A - skb->len`, the wrong way round, so the nested length is as good as unchecked.
-/
import LinuxKernel.Net.SkFilterSound

set_option linter.unusedVariables false

namespace LinuxKernel.SkFilter

open List

/-! ## The bytes examined -/

/-- The bytes the loop of `nla_find` examines, along `nlaFindLoop`. -/
def nlaFindReads (skb : SkBuff) (attrtype : Int) : Nat → Int → Int → List Int
  | 0, _, _ => []
  | fuel + 1, nla, rem =>
      if rem ≥ 4 then
        nla :: (nla + 1) ::
          if nlaOk skb nla rem then
            (nla + 2) :: (nla + 3) ::
              if (nlaType skb nla : Int) = attrtype then []
              else nlaFindReads skb attrtype fuel (nla + nlaAlign (u16At skb nla))
                (rem - nlaAlign (u16At skb nla))
          else []
      else []

def ancNlattrReads (skb : SkBuff) (a x : UInt32) : List Int :=
  if skbIsNonlinear skb then []
  else if nlaTooFar skb a then []
  else nlaFindReads skb (toInt x) ((toInt (skb.len - a)).toNat + 1) a.toNat (toInt (skb.len - a))

def ancNlattrNestReads (skb : SkBuff) (a x : UInt32) : List Int :=
  if skbIsNonlinear skb then []
  else if nlaTooFar skb a then []
  else (a.toNat : Int) :: (a.toNat + 1) ::
    if u16At skb a.toNat > (a - skb.len).toNat then []
    else nlaFindReads skb (toInt x) (((u16At skb a.toNat : Int) - 4).toNat + 1) (a.toNat + 4)
      ((u16At skb a.toNat : Int) - 4)

/-- The attribute bytes examined by one instruction. -/
def reads (skb : SkBuff) (f : SockFilter) (s : State) : List Int :=
  match BpfS.ofCode f.code with
  | some .ancNlattr => ancNlattrReads skb s.a s.x
  | some .ancNlattrNest => ancNlattrNestReads skb s.a s.x
  | _ => []

/-- There is an attribute at `p`, its `nla_len` bytes inside the packet. -/
def AttrInside (skb : SkBuff) (p : Nat) : Prop :=
  4 ≤ u16At skb p ∧ p + u16At skb p ≤ skb.len.toNat

/-- **The property**: all bytes examined are the packet's, and if the filter goes on, `A` holds `0`
    or the offset of an attribute inside the packet. -/
def StaysInside (skb : SkBuff) (f : SockFilter) (s : State) : Prop :=
  (∀ p ∈ reads skb f s, 0 ≤ p ∧ p < skb.len.toNat) ∧
  ∀ s', exec skb f s = .ok s' → s'.a = 0 ∨ AttrInside skb s'.a.toNat

/-! ## The walk -/

variable {skb : SkBuff}

theorem nlaOk_eq_true {nla rem : Int} :
    nlaOk skb nla rem = true ↔ 4 ≤ rem ∧ 4 ≤ u16At skb nla ∧ (u16At skb nla : Int) ≤ rem := by
  simp [nlaOk]

/-- **The walk stays in its stream.**  Induction on the fuel: a turn moves `nla` up and `rem` down by
    the same aligned length, so `nla + rem` is fixed. -/
theorem nlaFindLoop_within (skb : SkBuff) (attrtype : Int) (fuel : Nat) : ∀ (nla rem : Int),
    (∀ p ∈ nlaFindReads skb attrtype fuel nla rem, nla ≤ p ∧ p < nla + rem) ∧
    ∀ q, nlaFindLoop skb attrtype fuel nla rem = some q → nla ≤ q ∧ 4 ≤ u16At skb q ∧
    q + u16At skb q ≤ nla + rem := by
  induction fuel with
  | zero => intro nla rem; exact ⟨nofun, nofun⟩
  | succ fuel ih =>
    intro nla rem
    obtain ⟨ih1, ih2⟩ := ih (nla + nlaAlign (u16At skb nla)) (rem - nlaAlign (u16At skb nla))
    rw [nlaFindReads, nlaFindLoop]
    by_cases hok : nlaOk skb nla rem = true
    · obtain ⟨h4, hlo, hhi⟩ := nlaOk_eq_true.mp hok
      rw [if_pos h4, if_pos hok, if_pos hok]
      by_cases ht : (nlaType skb nla : Int) = attrtype
      · rw [if_pos ht, if_pos ht]
        refine ⟨fun p hp => ?_, fun q hq => ?_⟩
        · simp only [mem_cons, not_mem_nil, or_false] at hp
          omega
        · injection hq with hq
          subst hq
          exact ⟨Int.le_refl _, hlo, by omega⟩
      · rw [if_neg ht, if_neg ht]
        refine ⟨fun p hp => ?_, fun q hq => ?_⟩
        · simp only [mem_cons] at hp
          rcases hp with h | h | h | h | h
          · omega
          · omega
          · omega
          · omega
          · have := ih1 p h
            omega
        · obtain ⟨h₁, h₂, h3⟩ := ih2 q hq
          exact ⟨by omega, h₂, by omega⟩
    · rw [if_neg hok, if_neg hok]
      refine ⟨fun p hp => ?_, nofun⟩
      split at hp
      · simp only [mem_cons, not_mem_nil, or_false] at hp
        omega
      · nomatch hp

/-- The bytes examined lie in the packet, and so does the attribute that is left in `A`. -/
def Inside (skb : SkBuff) (l : List Int) (r : Option UInt32) : Prop :=
  (∀ p ∈ l, 0 ≤ p ∧ p < skb.len.toNat) ∧ ∀ a, r = some a → a = 0 ∨ AttrInside skb a.toNat

theorem inside_nothing : Inside skb [] none := ⟨nofun, nofun⟩

/-- A stream that lies inside the packet is read inside it, and what is found lies inside it. -/
theorem nlaFind_inside {attrtype : UInt32} {head rem : Int} (h0 : 0 ≤ head)
    (hend : head + rem ≤ skb.len.toNat) :
    Inside skb (nlaFindReads skb (toInt attrtype) (rem.toNat + 1) head rem)
      (some (nlaResult (nlaFind skb head rem attrtype))) := by
  obtain ⟨hreads, hfound⟩ := nlaFindLoop_within skb (toInt attrtype) (rem.toNat + 1) head rem
  refine ⟨fun p hp => by have := hreads p hp; omega, fun a ha => ?_⟩
  rw [← Option.some.inj ha]
  cases hq : nlaFind skb head rem attrtype with
  | none => exact Or.inl rfl
  | some q =>
    obtain ⟨h₁, h₂, h3⟩ := hfound q hq
    have hlen := skb.len.toNat_lt
    have hval : (nlaResult (some q)).toNat = q.toNat := by
      rw [nlaResult, UInt32.ofInt, UInt32.toNat_ofNat_of_lt' (by simp only [UInt32.size]; omega)]
      omega
    right
    rw [hval, AttrInside, Int.toNat_of_nonneg (by omega)]
    exact ⟨h₂, by omega⟩

/-- With less than a header left the walk ends before it reads anything. -/
theorem nlaFind_short {attrtype : UInt32} {head rem : Int} (h : rem < 4) :
    Inside skb (nlaFindReads skb (toInt attrtype) (rem.toNat + 1) head rem)
      (some (nlaResult (nlaFind skb head rem attrtype))) := by
  have hok : ¬ nlaOk skb head rem = true := fun hok => by
    have := (nlaOk_eq_true.mp hok).1
    omega
  rw [nlaFindReads, if_neg (by omega), nlaFind, nlaFindLoop, if_neg hok]
  exact ⟨nofun, fun a ha => Or.inl (Option.some.inj ha).symm⟩

/-! ## The two instructions -/

theorem toInt_le (k : UInt32) : toInt k ≤ k.toNat := by
  unfold toInt
  split <;> omega

/-- The first test of both instructions: it refuses `A` only in a packet that has room for a
    header. -/
theorem nlaTooFar_iff {a : UInt32} :
    nlaTooFar skb a = true ↔ 4 ≤ skb.len.toNat ∧ skb.len.toNat < a.toNat + 4 := by
  have := skb.len.toNat_lt
  have := a.toNat_lt
  simp only [nlaTooFar, gt_iff_lt, decide_eq_true_eq]
  omega

variable {s : State}
variable {f : SockFilter}

theorem staysInside_iff_inside {op : BpfS} {r : Option UInt32} (hop : BpfS.ofCode f.code = some op)
    (hp : op.isPlain = true) (hr : execReg op skb f.k s.a s.x = r.map fun a => (a, s.x)) :
    StaysInside skb f s ↔ Inside skb (reads skb f s) r := by
  rw [StaysInside, exec_plain hop hp, hr]
  refine and_congr_right fun _ => ⟨fun h a ha => ?_, fun h s' hs' => ?_⟩
  · rw [ha] at h
    exact h _ rfl
  · cases r with
    | none => nomatch hs'
    | some a =>
      injection hs' with hs'
      rw [← hs']
      exact h a rfl

/-- A linear packet and `BPF_S_ANC_NLATTR`: the only way out is a packet shorter than a header with
    an `A` so far behind it that `skb->len - A` comes out positive again. -/
theorem staysInside_nlattr (hop : BpfS.ofCode f.code = some .ancNlattr) (hlin : skbIsNonlinear skb = false) :
    StaysInside skb f s ↔ 4 ≤ skb.len.toNat ∨ toInt (skb.len - s.a) < 4 := by
  rw [staysInside_iff_inside hop rfl rfl, reads, hop]
  simp only [ancNlattrReads, ancNlattr, hlin, Bool.false_eq_true, if_false]
  by_cases hfar : nlaTooFar skb s.a = true
  · rw [if_pos hfar, if_pos hfar]
    exact ⟨fun _ => Or.inl (nlaTooFar_iff.mp hfar).1, fun _ => inside_nothing⟩
  · rw [if_neg hfar, if_neg hfar]
    rw [nlaTooFar_iff] at hfar
    have hle := toInt_le (skb.len - s.a)
    constructor
    · rintro ⟨hin, _⟩
      by_contra hout
      rw [not_or] at hout
      have hhead := hin s.a.toNat (by
        rw [nlaFindReads, if_pos (by omega)]
        exact mem_cons_self)
      have hsub := UInt32.toNat_sub_of_le skb.len s.a (UInt32.le_iff_toNat_le.mpr (by omega))
      omega
    · rintro (h4 | hshort)
      · have hsub := UInt32.toNat_sub_of_le skb.len s.a (UInt32.le_iff_toNat_le.mpr (by omega))
        exact nlaFind_inside (by omega) (by omega)
      · exact nlaFind_short hshort

/-- When the nested load is safe for every content of the packet, in terms of the packet's length,
    `A` and the `nla_len` found at `A`: the first test returns; or `nla_len` itself is inside, and the
    second test returns, or the nested stream has no room for a header, or it ends in the packet. -/
def NestFits (len a : UInt32) (n : Nat) : Prop :=
  4 ≤ len.toNat ∧ len.toNat < a.toNat + 4 ∨
  a.toNat + 2 ≤ len.toNat ∧ (n > (a - len).toNat ∨ n < 8 ∨ a.toNat + n ≤ len.toNat)

theorem staysInside_nest (hop : BpfS.ofCode f.code = some .ancNlattrNest)
    (hlin : skbIsNonlinear skb = false) (hfits : NestFits skb.len s.a (u16At skb s.a.toNat)) :
    StaysInside skb f s := by
  rw [staysInside_iff_inside hop rfl rfl, reads, hop]
  simp only [ancNlattrNestReads, ancNlattrNest, hlin, Bool.false_eq_true, if_false]
  by_cases hfar : nlaTooFar skb s.a = true
  · rw [if_pos hfar, if_pos hfar]
    exact inside_nothing
  · rw [if_neg hfar, if_neg hfar]
    rw [nlaTooFar_iff] at hfar
    obtain ⟨h2, hcase⟩ := hfits.resolve_left hfar
    -- the two bytes of `nla_len` are inside; what follows depends on the second test
    suffices hrest : ∀ l r, Inside skb l r → Inside skb (s.a.toNat :: (s.a.toNat + 1) :: l) r by
      apply hrest
      by_cases hlen : u16At skb s.a.toNat > (s.a - skb.len).toNat
      · rw [if_pos hlen, if_pos hlen]
        exact inside_nothing
      · rw [if_neg hlen, if_neg hlen]
        rcases hcase.resolve_left hlen with h8 | hend
        · exact nlaFind_short (by omega)
        · exact nlaFind_inside (by omega) (by omega)
    refine fun l r hin => ⟨fun p hp => ?_, hin.2⟩
    simp only [mem_cons] at hp
    rcases hp with rfl | rfl | hp
    · omega
    · omega
    · exact hin.1 p hp

/-- A linear packet of `len` bytes with an attribute of length `n` at `a`, whose first nested
    attribute has type `0` and fills the rest of it. -/
def nestedPacket (len a : UInt32) (n : Nat) : SkBuff :=
  let mem : Int → UInt8 := fun p =>
    if p = a.toNat then UInt8.ofNat n else if p = a.toNat + 1 then UInt8.ofNat (n / 256)
    else if p = a.toNat + 4 then UInt8.ofNat (n - 4)
    else if p = a.toNat + 5 then UInt8.ofNat ((n - 4) / 256) else 0
  ⟨len, 0, mem, fun _ => 0, 0, len.toNat, 0, 0, 0, 0, none, 0, 0, 0, 0⟩

theorem u16At_nestedPacket {len a : UInt32} {n : Nat} (hn : n < 2 ^ 16) :
    u16At (nestedPacket len a n) a.toNat = n ∧
    u16At (nestedPacket len a n) (a.toNat + 4) = n - 4 ∧
    nlaType (nestedPacket len a n) (a.toNat + 4) = 0 := by
  simp only [u16At, nlaType, nestedPacket]
  refine ⟨?_, ?_, ?_⟩
  · simp (disch := omega) only [if_neg, if_true, UInt8.toNat_ofNat']
    omega
  · simp (disch := omega) only [if_neg, if_pos, if_true, UInt8.toNat_ofNat']
    omega
  · simp (disch := omega) only [if_neg]
    rfl

/-- `nestedPacket` shows that nothing weaker than `NestFits` will do. -/
theorem nestFits_of_staysInside {f : SockFilter} (hop : BpfS.ofCode f.code = some .ancNlattrNest)
    {len a : UInt32} {n : Nat} (hn : n < 2 ^ 16) {mem : Nat → UInt32}
    (h : StaysInside (nestedPacket len a n) f ⟨0, a, 0, mem⟩) : NestFits len a n := by
  obtain ⟨hlen, hinner, htype⟩ := @u16At_nestedPacket len a n hn
  obtain ⟨hin, hres⟩ := (staysInside_iff_inside hop rfl rfl).mp h
  have hlin : skbIsNonlinear (nestedPacket len a n) = false := rfl
  by_contra hnot
  rw [NestFits, not_or] at hnot
  have hfar : ¬ nlaTooFar (nestedPacket len a n) a = true := fun hfar =>
    hnot.1 (nlaTooFar_iff.mp hfar)
  rw [reads, hop] at hin
  simp only [ancNlattrNestReads, hlin, Bool.false_eq_true, if_false, hfar] at hin
  have h1 := hin (a.toNat + 1) (mem_cons_of_mem _ mem_cons_self)
  have hlen' : (nestedPacket len a n).len = len := rfl
  rw [hlen'] at h1 hin
  obtain ⟨hle, hrest⟩ := not_or.mp fun hor => hnot.2 ⟨by omega, hor⟩
  rw [not_or] at hrest
  rw [hlen, if_neg hle] at hin
  -- the nested attribute is found at `a + 4` and ends behind the packet
  have hok : nlaOk (nestedPacket len a n) (a.toNat + 4) ((n : Int) - 4) = true :=
    nlaOk_eq_true.mpr ⟨by omega, by omega, by omega⟩
  have hfind : nlaFind (nestedPacket len a n) (a.toNat + 4) ((n : Int) - 4) 0 = some (a.toNat + 4) := by
    rw [nlaFind, nlaFindLoop, if_pos hok, htype]
    rfl
  have hnest : ancNlattrNest (nestedPacket len a n) a 0 = some (UInt32.ofInt (a.toNat + 4)) := by
    rw [ancNlattrNest, hlin, if_neg Bool.false_ne_true, if_neg hfar, hlen, hlen', if_neg hle, hfind]
    rfl
  have hval : (UInt32.ofInt (a.toNat + 4)).toNat = a.toNat + 4 := by
    have := len.toNat_lt
    rw [UInt32.ofInt, UInt32.toNat_ofNat_of_lt' (by simp only [UInt32.size]; omega)]
    omega
  rcases hres _ hnest with h0 | ⟨_, hend⟩
  · have := congrArg UInt32.toNat h0
    rw [hval] at this
    exact absurd this (Nat.succ_ne_zero _)
  · simp only [hval, hlen', Nat.cast_add, Nat.cast_ofNat, hinner] at hend
    omega

/-- **Headline.**  In an accepted program and on linear packets, `BPF_S_ANC_NLATTR` stays inside the
    packet exactly when the packet has room for a header or `(int)(skb->len - A)` is below one; and
    `BPF_S_ANC_NLATTR_NEST` stays inside every packet of length `len` with a given `A` and `nla_len`
    at `A` exactly when these three satisfy `NestFits`. -/
theorem nlattr_staysInside_iff {alloc : Bool} {filter insns : List SockFilter}
    (h : skChkFilter alloc filter = .ok insns) (hf : f ∈ insns) :
    (BpfS.ofCode f.code = some .ancNlattr → ∀ (skb : SkBuff) (s : State), skbIsNonlinear skb = false →
      (StaysInside skb f s ↔ 4 ≤ skb.len.toNat ∨ toInt (skb.len - s.a) < 4)) ∧
    (BpfS.ofCode f.code = some .ancNlattrNest → ∀ (len a : UInt32) (n : Nat), n < 2 ^ 16 →
      ((∀ (skb : SkBuff) (s : State), skbIsNonlinear skb = false → skb.len = len → s.a = a →
        u16At skb a.toNat = n → StaysInside skb f s) ↔ NestFits len a n)) := by
  refine ⟨fun hop skb s hlin => staysInside_nlattr hop hlin, fun hop len a n hn => ⟨fun hall => ?_, ?_⟩⟩
  · exact @nestFits_of_staysInside f hop len a n hn (fun _ =>
      0) (hall _ _ rfl rfl rfl (u16At_nestedPacket hn).1)
  · rintro hfits skb s hlin rfl rfl rfl
    exact staysInside_nest hop hlin hfits

/-- The user's filter `ld [SKF_AD_NLATTR]; ld [SKF_AD_NLATTR_NEST]; ret a` and what the verifier makes
    of it. -/
def nlattrFilter : List SockFilter :=
  [⟨0x20, 0, 0, 0xfffff00c⟩, ⟨0x20, 0, 0, 0xfffff010⟩, ⟨0x16, 0, 0, 0⟩]

def nlattrInsns : List SockFilter :=
  [⟨BpfS.ancNlattr.code, 0, 0, 0xfffff00c⟩, ⟨BpfS.ancNlattrNest.code, 0, 0, 0xfffff010⟩,
    ⟨BpfS.retA.code, 0, 0, 0⟩]

/-- `nlattr_staysInside_iff` at both loads of `nlattrFilter`, on a packet of `20` bytes that holds an
    attribute of `16` bytes. -/
theorem nlattr_staysInside_iff_twenty :
    StaysInside (nestedPacket 20 0 16) ⟨BpfS.ancNlattr.code, 0, 0, 0xfffff00c⟩ ⟨0, 0, 0, fun _ => 0⟩ ∧
    StaysInside (nestedPacket 20 0 16) ⟨BpfS.ancNlattrNest.code, 0, 0, 0xfffff010⟩ ⟨1, 0, 0, fun _ => 0⟩ := by
  have hok : skChkFilter true nlattrFilter = .ok nlattrInsns := by rfl
  constructor
  · exact ((nlattr_staysInside_iff hok (f := ⟨BpfS.ancNlattr.code, 0, 0, 0xfffff00c⟩)
      (by decide)).1 rfl _ _ rfl).mpr (Or.inl (by decide))
  · exact ((nlattr_staysInside_iff hok (f := ⟨BpfS.ancNlattrNest.code, 0, 0, 0xfffff010⟩)
      (by decide)).2 rfl 20 0 16 (by decide)).mpr (Or.inr ⟨by decide, by decide⟩) _ _ rfl rfl rfl
      (u16At_nestedPacket (by decide)).1

/-- **Both loads leave the packet**: in an empty packet with `A = 0xffffff00` the first examines the
    byte at `A`; in a packet of `8` bytes whose attribute claims `100` the second leaves the offset of
    a nested attribute that ends `92` bytes behind the packet. -/
theorem nlattr_leaves_packet : skChkFilter true nlattrFilter = .ok nlattrInsns ∧
    (∃ f ∈ nlattrInsns, BpfS.ofCode f.code = some .ancNlattr ∧ ∃ s,
      skbIsNonlinear (nestedPacket 0 0 0) = false ∧ s.a = 0xffffff00 ∧
      0xffffff00 ∈ reads (nestedPacket 0 0 0) f s ∧ ¬ StaysInside (nestedPacket 0 0 0) f s) ∧
    ∃ f ∈ nlattrInsns, BpfS.ofCode f.code = some .ancNlattrNest ∧ ∃ s s',
      skbIsNonlinear (nestedPacket 8 0 100) = false ∧ exec (nestedPacket 8 0 100) f s = .ok s' ∧
      s'.a = 4 ∧ u16At (nestedPacket 8 0 100) 4 = 96 ∧ ¬ StaysInside (nestedPacket 8 0 100) f s := by
  refine ⟨rfl, ⟨_, List.mem_cons_self, rfl, ⟨0, 0xffffff00, 0, fun _ => 0⟩, rfl, rfl, by decide, ?_⟩,
    ⟨_, List.mem_cons_of_mem _ List.mem_cons_self, rfl, ⟨1, 0, 0, fun _ => 0⟩, ⟨2, 4, 0, fun _ => 0⟩,
      rfl, rfl, rfl, by decide, ?_⟩⟩
  · intro h
    have := h.1 0xffffff00 (by decide)
    exact absurd this (by decide)
  · intro h
    have := h.2 ⟨2, 4, 0, fun _ => 0⟩ rfl
    revert this
    rw [AttrInside]
    decide

end LinuxKernel.SkFilter
