/-
  Soundness of the socket-filter verifier: what `sk_chk_filter` accepts, `sk_run_filter` executes
  without going wrong, and the result does not depend on the garbage in `mem[]`.

  1. **Static half** (`InsnOk`, `chkInsns_ok`) — the first loop leaves an array in which every `code`
     is a `case` label, scratch indices are below `BPF_MEMWORDS` and jumps land inside the array.

  2. **Data-flow half** (`FlowOk`, `checkLoop_flow`) — a successful `check_load_and_stores` yields a
     set `V pc` of scratch cells for every index such that `V` shrinks along EVERY edge of the
     control flow and contains each cell that is loaded.  The witness is the value of `memvalid` right
     after `memvalid &= masks[pc]`; the load-bearing point is that `masks` only ever shrinks, so what a
     jump recorded in the mask of its target is still an upper bound when the loop gets there.

  3. **The crux** (`step_agree`) — two machines that agree on `pc`, `A`, `X` and on the cells of
     `V pc` either stop with the same value or step to two machines that agree again, at a LARGER
     index.  `runFrom_agree` is the induction over the run (on `flen - pc`).
-/
import LinuxKernel.Net.SkFilter

namespace LinuxKernel.SkFilter

open List Option Function

/-! ## Opcode classes and control-flow edges -/

/-- The opcodes whose `case` touches neither the scratch memory nor the instruction pointer and does
    not return. -/
def BpfS.isPlain : BpfS → Bool
  | .retK | .retA | .ldMem | .ldxMem | .st | .stx | .jmpJa => false
  | op => !op.isCondJmp

/-- The indices control can reach in one step from the instruction `f` at `pc`. -/
def BpfS.succs (op : BpfS) (pc : Nat) (f : SockFilter) : List Nat :=
  match op with
  | .retK | .retA => []
  | .jmpJa => [pc + 1 + f.k.toNat]
  | op => if op.isCondJmp then [pc + 1 + f.jt.toNat, pc + 1 + f.jf.toNat] else [pc + 1]

variable {op : BpfS}

theorem succs_plain (hp : op.isPlain = true) (pc : Nat) (f : SockFilter) : op.succs pc f = [pc + 1] := by
  cases op <;> first | exact absurd hp (by decide) | rfl

theorem succs_condJmp (hc : op.isCondJmp = true) (pc : Nat) (f : SockFilter) :
    op.succs pc f = [pc + 1 + f.jt.toNat, pc + 1 + f.jf.toNat] := by
  cases op <;> first | exact absurd hc (by decide) | rfl

theorem exec_plain {skb : SkBuff} {f : SockFilter} {s : State} {op : BpfS}
    (hop : BpfS.ofCode f.code = some op) (hp : op.isPlain = true) :
    exec skb f s = resume s (execReg op skb f.k s.a s.x) := by
  cases op <;> first | exact absurd hp (by decide) | simp only [exec, hop, jmpCond]

variable {f : SockFilter}

theorem exec_condJmp (skb : SkBuff) (s : State) (hop : BpfS.ofCode f.code = some op)
    (hc : op.isCondJmp = true) :
    ∃ t, jmpCond op f.k s.a s.x = some t ∧
      exec skb f s = .ok { s with pc := s.pc + (if t then f.jt.toNat else f.jf.toNat) + 1 } := by
  cases op <;> first | exact absurd hc (by decide) | exact ⟨_, rfl, by simp only [exec, hop, jmpCond]⟩

variable {pc : Nat} {masks : Nat → BitVec 16} {mv : BitVec 16} {fs : List SockFilter}

theorem checkLoop_plain (hop : BpfS.ofCode f.code = some op) (hp : op.isPlain = true) :
    checkLoop pc masks mv (f :: fs) = checkLoop (pc + 1) masks (mv &&& masks pc) fs := by
  cases op <;> first | exact absurd hp (by decide) | simp [checkLoop, hop, BpfS.isCondJmp]

theorem checkLoop_condJmp (hop : BpfS.ofCode f.code = some op) (hc : op.isCondJmp = true) :
    checkLoop pc masks mv (f :: fs) = (let valid := mv &&& masks pc
       let t := pc + 1 + f.jt.toNat
       let masks1 := update masks t (masks t &&& valid)
       let e := pc + 1 + f.jf.toNat
       checkLoop (pc + 1) (update masks1 e (masks1 e &&& valid)) (BitVec.allOnes 16) fs) := by
  cases op <;> first | exact absurd hc (by decide) | simp [checkLoop, hop, BpfS.isCondJmp]

/-- Every opcode is plain, a conditional jump, or one of seven. -/
theorem BpfS.kinds (op : BpfS) : op.isPlain = true ∨ op.isCondJmp = true ∨ op = .jmpJa ∨
    op = .st ∨ op = .stx ∨ op = .ldMem ∨ op = .ldxMem ∨ op = .retK ∨ op = .retA := by
  cases op <;> decide

/-! ## The static half: what the first loop guarantees -/

/-- What `sk_chk_filter` has checked about the instruction now stored at `pc`. -/
def InsnOk (flen pc : Nat) (f : SockFilter) : Prop :=
  ∃ op, BpfS.ofCode f.code = some op ∧ (op = .ldMem ∨ op = .ldxMem ∨ op = .st ∨ op = .stx →
    f.k.toNat < BPF_MEMWORDS) ∧
    (op = .jmpJa → pc + f.k.toNat + 1 < flen) ∧
    (op.isCondJmp = true → pc + f.jt.toNat + 1 < flen ∧ pc + f.jf.toNat + 1 < flen)

/-- An opcode without operands to check is fine wherever it stands. -/
theorem insnOk_of_plain {flen : Nat} (hop : BpfS.ofCode f.code = some op)
    (hp : op.isPlain = true ∨ op = .retK ∨ op = .retA) : InsnOk flen pc f := by
  rcases hp with hp | rfl | rfl
  · refine ⟨op, hop, ?_, ?_, ?_⟩ <;> intro h
    · rcases h with rfl | rfl | rfl | rfl <;> exact absurd hp (by decide)
    · subst h; exact absurd hp (by decide)
    · cases op <;> first | exact absurd hp (by decide) | exact absurd h (by decide)
  · exact ⟨_, hop, by simp, by simp, by simp [BpfS.isCondJmp]⟩
  · exact ⟨_, hop, by simp, by simp, by simp [BpfS.isCondJmp]⟩

theorem ancillary_isPlain {k : UInt32} {d : BpfS} (hd : d.isPlain = true) :
    ((ancillary k).getD d).isPlain = true := by
  unfold ancillary
  repeat' split
  all_goals first | rfl | exact hd

/-- **The first loop, one instruction**: what it stores back is `InsnOk`. -/
theorem chkInsn_ok {flen : Nat} {f' : SockFilter} (h : chkInsn flen pc f = some f') : InsnOk flen pc f' := by
  unfold chkInsn at h
  split at h
  · nomatch h
  · -- division by a constant: the stored opcode is still plain
    obtain ⟨_, ⟨⟩⟩ := ite_none_left_eq_some.mp h
    exact insnOk_of_plain (show _ = some BpfS.aluDivK by simp) (.inl rfl)
  -- the four scratch accesses
  iterate 4
    · obtain ⟨hk, ⟨⟩⟩ := ite_none_left_eq_some.mp h
      exact ⟨_, BpfS.ofCode_code _, fun _ => Nat.lt_of_not_le hk, by simp, by simp [BpfS.isCondJmp]⟩
  · obtain ⟨hk, ⟨⟩⟩ := ite_none_left_eq_some.mp h
    refine ⟨.jmpJa, BpfS.ofCode_code _, by simp, fun _ => ?_, by simp [BpfS.isCondJmp]⟩
    show pc + f.k.toNat + 1 < flen
    omega
  -- the three absolute loads, possibly turned into ancillary ones
  iterate 3
    · cases h
      exact insnOk_of_plain (BpfS.ofCode_code _) (.inl (ancillary_isPlain rfl))
  · rename_i op hDiv hLd hLdx hSt hStx hJa hW hH hB hop
    split at h
    · rename_i hc
      obtain ⟨hj, ⟨⟩⟩ := ite_none_left_eq_some.mp h
      refine ⟨op, BpfS.ofCode_code op, ?_, ?_, fun _ => ?_⟩
      · rintro (rfl | rfl | rfl | rfl) <;> exact absurd hc (by decide)
      · rintro rfl; exact absurd hc (by decide)
      · show pc + f.jt.toNat + 1 < flen ∧ pc + f.jf.toNat + 1 < flen
        omega
    · rename_i hc
      cases h
      refine ⟨op, BpfS.ofCode_code op, ?_, fun h => absurd h hJa, fun h => absurd h hc⟩
      rintro (h | h | h | h)
      exacts [absurd h hLd, absurd h hLdx, absurd h hSt, absurd h hStx]

/-- **The first loop**: same length, and every stored instruction is `InsnOk` at its index. -/
theorem chkInsns_ok (flen : Nat) : ∀ (fs fs' : List SockFilter) (pc : Nat), chkInsns flen pc fs = some fs' →
    fs'.length = fs.length ∧ ∀ i f, fs'[i]? = some f → InsnOk flen (pc + i) f := by
  intro fs
  induction fs with
  | nil =>
    intro fs' pc h
    cases h
    exact ⟨rfl, nofun⟩
  | cons f fs ih =>
    intro fs' pc h
    rw [chkInsns] at h
    split at h
    · nomatch h
    · rename_i f' hf'
      obtain ⟨gs, hgs, rfl⟩ := map_eq_some_iff.mp h
      obtain ⟨hlen, hok⟩ := ih gs (pc + 1) hgs
      refine ⟨by simp [hlen], fun i g hg => ?_⟩
      cases i with
      | zero => cases hg; exact chkInsn_ok hf'
      | succ i => have := hok i g hg; rwa [show pc + 1 + i = pc + (i + 1) from by omega] at this

/-! ## The data-flow half: sets of initialised cells -/

/-- `Sub v w`: every cell in the mask `v` is in the mask `w`. -/
def Sub (v w : BitVec 16) : Prop := ∀ c, v.getLsbD c = true → w.getLsbD c = true
theorem Sub.refl (v : BitVec 16) : Sub v v := fun _ h => h
theorem Sub.trans {u v w : BitVec 16} (h1 : Sub u v) (h2 : Sub v w) : Sub u w := fun c h => h2 c (h1 c h)

theorem sub_and_left (v w : BitVec 16) : Sub (v &&& w) v := by
  intro c h; rw [BitVec.getLsbD_and, Bool.and_eq_true] at h; exact h.1

theorem sub_and_right (v w : BitVec 16) : Sub (v &&& w) w := by
  intro c h; rw [BitVec.getLsbD_and, Bool.and_eq_true] at h; exact h.2

theorem sub_zero (w : BitVec 16) : Sub 0#16 w := by
  intro c h; simp at h

variable {k : Nat}

/-- The mask of one cell. -/
theorem getLsbD_cell {c : Nat} (hk : k < 16) : (1#16 <<< k).getLsbD c = true ↔ c = k := by
  rw [BitVec.getLsbD_shiftLeft]
  simp only [Bool.and_eq_true, decide_eq_true_eq, Bool.not_eq_true', decide_eq_false_iff_not,
    BitVec.getLsbD_one]
  omega

/-- Lowering the mask at one index by `valid` lowers every mask. -/
theorem sub_update_and (masks : Nat → BitVec 16) (t j : Nat) (valid : BitVec 16) :
    Sub (update masks t (masks t &&& valid) j) (masks j) := by
  rcases eq_or_ne j t with rfl | hne
  · rw [update_self]; exact sub_and_left _ _
  · rw [update_of_ne hne]; exact Sub.refl _

/-- The initialised cells after the instruction `f`, given those before it. -/
def memOut (op : BpfS) (f : SockFilter) (v : BitVec 16) : BitVec 16 :=
  match op with
  | .st | .stx => v ||| (1#16 <<< f.k.toNat)
  | _ => v

/-- `V` is consistent with the instruction `f` at `pc`: a loaded cell is in `V pc`, and along every
    edge `V` holds at most the cells initialised after `f`. -/
def FlowOk (V : Nat → BitVec 16) (pc : Nat) (f : SockFilter) : Prop :=
  ∀ op, BpfS.ofCode f.code = some op → (op = .ldMem ∨ op = .ldxMem → ¬ V pc &&& (1#16 <<< f.k.toNat) = 0#16) ∧
    ∀ t ∈ op.succs pc f, Sub (V t) (memOut op f (V pc))

variable {t : Nat}

/-- All edges lead forward. -/
theorem lt_of_mem_succs (h : t ∈ op.succs pc f) : pc < t := by
  rcases op.kinds with hp | hc | rfl | rfl | rfl | rfl | rfl | rfl | rfl
  · rw [succs_plain hp] at h; simp at h; omega
  · rw [succs_condJmp hc] at h; simp at h; omega
  all_goals simp [BpfS.succs, BpfS.isCondJmp] at h
  all_goals omega

/-- **One turn of the data-flow loop.**  It goes on with smaller masks, has checked the cell of a
    load, and whatever stays below the masks and the `memvalid` it goes on with is consistent along
    the edges out of `f`. -/
theorem checkLoop_step (hop : BpfS.ofCode f.code = some op) (h : checkLoop pc masks mv (f :: fs) = true) :
    (op = .ldMem ∨ op = .ldxMem → ¬ (mv &&& masks pc) &&& (1#16 <<< f.k.toNat) = 0#16) ∧
    ∃ masks' mv', checkLoop (pc + 1) masks' mv' fs = true ∧ (∀ j, Sub (masks' j) (masks j)) ∧
      ∀ V : Nat → BitVec 16, Sub (V (pc + 1)) mv' → (∀ j, pc + 1 ≤ j → Sub (V j) (masks' j)) →
        ∀ t ∈ op.succs pc f, Sub (V t) (memOut op f (mv &&& masks pc)) := by
  rcases op.kinds with hp | hc | rfl | rfl | rfl | rfl | rfl | rfl | rfl
  · rw [checkLoop_plain hop hp] at h
    refine ⟨?_, masks, _, h, fun j => Sub.refl _, fun V hV _ t ht => ?_⟩
    · rintro (rfl | rfl) <;> exact absurd hp (by decide)
    · rw [succs_plain hp, mem_singleton] at ht
      subst ht
      cases op <;> first | exact absurd hp (by decide) | exact hV
  · rw [checkLoop_condJmp hop hc] at h
    refine ⟨?_, _, _, h, fun j => (sub_update_and _ _ _ _).trans (sub_update_and _ _ _ _), ?_⟩
    · rintro (rfl | rfl) <;> exact absurd hc (by decide)
    · intro V _ hM t ht
      have hout : memOut op f (mv &&& masks pc) = mv &&& masks pc := by
        cases op <;> first | exact absurd hc (by decide) | rfl
      rw [hout]
      rw [succs_condJmp hc] at ht
      have hlt : pc + 1 ≤ t := by simp at ht; omega
      refine (hM t hlt).trans ?_
      -- the mask of either target has been lowered by `valid`, the first one possibly twice
      by_cases hjf : t = pc + 1 + f.jf.toNat
      · subst hjf; rw [update_self]; exact sub_and_right _ _
      · rw [update_of_ne hjf]
        have hjt : t = pc + 1 + f.jt.toNat := by simp at ht; omega
        subst hjt; rw [update_self]; exact sub_and_right _ _
  · simp only [checkLoop, hop] at h
    refine ⟨by simp, _, _, h, fun j => sub_update_and _ _ _ _, fun V _ hM t ht => ?_⟩
    rw [BpfS.succs, mem_singleton] at ht
    subst ht
    refine (hM _ (by omega)).trans ?_
    rw [update_self]; exact sub_and_right _ _
  iterate 2
    · simp only [checkLoop, hop] at h
      refine ⟨by simp, _, _, h, fun j => Sub.refl _, fun V hV _ t ht => ?_⟩
      have ht' : t = pc + 1 := mem_singleton.mp ht
      subst ht'; exact hV
  iterate 2
    · simp only [checkLoop, hop] at h
      split at h
      · nomatch h
      · rename_i hk
        refine ⟨fun _ => hk, _, _, h, fun j => Sub.refl _, fun V hV _ t ht => ?_⟩
        have ht' : t = pc + 1 := mem_singleton.mp ht
        subst ht'; exact hV
  iterate 2
    · simp [checkLoop, hop, BpfS.isCondJmp] at h
      exact ⟨by simp, _, _, h, fun j => Sub.refl _, nofun⟩

/-- **The data-flow pass.**  When the loop of `check_load_and_stores` runs to the end there are sets
    `V`, below the current `masks` and (at the current index) below `memvalid`, that are `FlowOk` at
    every remaining instruction.  Induction on the remaining instructions, over all `masks`. -/
theorem checkLoop_flow (fs : List SockFilter) : ∀ (pc : Nat) (masks : Nat → BitVec 16)
    (mv : BitVec 16), (∀ f ∈ fs, (BpfS.ofCode f.code).isSome) → checkLoop pc masks mv fs = true →
    ∃ V : Nat → BitVec 16, Sub (V pc) mv ∧ (∀ j, pc ≤ j → Sub (V j) (masks j)) ∧
      ∀ i f, fs[i]? = some f → FlowOk V (pc + i) f := by
  induction fs with
  | nil =>
    intro pc masks mv _ _
    exact ⟨fun _ => 0#16, sub_zero _, fun j _ => sub_zero _, nofun⟩
  | cons f fs ih =>
    intro pc masks mv hops h
    obtain ⟨op, hop⟩ := isSome_iff_exists.mp (hops f (mem_cons_self ..))
    obtain ⟨hld, masks', mv', hrun, hle, hhead⟩ := checkLoop_step hop h
    obtain ⟨V, hVmv, hVmasks, hVflow⟩ :=
      ih (pc + 1) masks' mv' (fun g hg => hops g (mem_cons_of_mem f hg)) hrun
    refine ⟨update V pc (mv &&& masks pc), ?_, ?_, ?_⟩
    · rw [update_self]; exact sub_and_left _ _
    · intro j hj
      rcases Nat.eq_or_lt_of_le hj with rfl | hlt
      · rw [update_self]; exact sub_and_right _ _
      · rw [update_of_ne (by omega)]
        exact (hVmasks j hlt).trans (hle j)
    · intro i g hg
      cases i with
      | zero =>
        cases hg
        intro op' hop'
        rw [hop] at hop'; injection hop' with hop'; subst hop'
        rw [Nat.add_zero, update_self]
        refine ⟨hld, fun t ht => ?_⟩
        have hlt := lt_of_mem_succs ht
        rw [update_of_ne (by omega)]
        exact hhead V hVmv hVmasks t ht
      | succ i =>
        intro op' hop'
        obtain ⟨hl, hs⟩ := hVflow i g hg op' hop'
        rw [show pc + 1 + i = pc + (i + 1) from by omega] at hl hs
        rw [update_of_ne (by omega)]
        refine ⟨hl, fun t ht => ?_⟩
        have hlt := lt_of_mem_succs ht
        rw [update_of_ne (by omega)]
        exact hs t ht

/-! ## The accepted programs -/

/-- What a successful `sk_chk_filter` establishes about the rewritten array. -/
structure Accepted (insns : List SockFilter) (V : Nat → BitVec 16) : Prop where
  pos : 0 < insns.length
  insnOk : ∀ i f, insns[i]? = some f → InsnOk insns.length i f
  lastRet : ∀ f, insns[insns.length - 1]? = some f → BpfS.ofCode f.code = some .retK ∨
    BpfS.ofCode f.code = some .retA
  entry : V 0 = 0#16
  flow : ∀ i f, insns[i]? = some f → FlowOk V i f

variable {insns : List SockFilter}

/-- What a successful `sk_chk_filter` has been through: the first loop, the test of the last
    instruction and `check_load_and_stores`. -/
theorem skChkFilter_inv {alloc : Bool} {filter : List SockFilter} (h : skChkFilter alloc filter = .ok insns) :
    filter.length ≠ 0 ∧ chkInsns filter.length 0 filter = some insns ∧
      (∀ f, insns[filter.length - 1]? = some f → BpfS.ofCode f.code = some .retK ∨
        BpfS.ofCode f.code = some .retA) ∧
      checkLoop 0 (fun _ => BitVec.allOnes 16) 0#16 insns = true := by
  unfold skChkFilter at h
  simp only at h
  split at h
  · nomatch h
  · rename_i hlen
    split at h
    · nomatch h
    · rename_i insns' hchk
      -- both `return check_load_and_stores(...)` labels lead to the same place
      have hload : (Except.map (fun _ : Unit => insns') (checkLoadAndStores alloc insns')) =
          .ok insns → insns = insns' ∧ checkLoop 0 (fun _ => BitVec.allOnes 16) 0#16 insns' = true := by
        intro hr
        unfold checkLoadAndStores at hr
        split at hr
        · nomatch hr
        · split at hr
          · rename_i hloop; injection hr with hr; exact ⟨hr.symm, hloop⟩
          · nomatch hr
      split at h
      · rename_i hlast
        obtain ⟨rfl, hloop⟩ := hload h
        exact ⟨fun h0 => hlen (.inl h0), hchk, fun f hf => .inl (by simpa [hf] using hlast), hloop⟩
      · rename_i hlast
        obtain ⟨rfl, hloop⟩ := hload h
        exact ⟨fun h0 => hlen (.inl h0), hchk, fun f hf => .inr (by simpa [hf] using hlast), hloop⟩
      · nomatch h

theorem skChkFilter_accepted {alloc : Bool} {filter : List SockFilter}
    (h : skChkFilter alloc filter = .ok insns) :
    insns.length = filter.length ∧ ∃ V, Accepted insns V := by
  obtain ⟨hlen, hchk, hlast, hloop⟩ := skChkFilter_inv h
  obtain ⟨hl, hok⟩ := chkInsns_ok filter.length filter insns 0 hchk
  have hsome : ∀ f ∈ insns, (BpfS.ofCode f.code).isSome := by
    intro f hf
    obtain ⟨i, hi⟩ := mem_iff_getElem?.mp hf
    obtain ⟨op, hop, _⟩ := hok i f hi
    rw [hop]; rfl
  obtain ⟨V, hV0, _, hflow⟩ := checkLoop_flow insns 0 _ _ hsome hloop
  refine ⟨hl, V, ⟨by omega, ?_, ?_, ?_, ?_⟩⟩
  · intro i f hf; have := hok i f hf; rwa [Nat.zero_add, ← hl] at this
  · rwa [hl]
  · exact BitVec.eq_of_getLsbD_eq fun c _ => by
      have := hV0 c; rcases hb : (V 0).getLsbD c <;> simp_all
  · intro i f hf; have := hflow i f hf; rwa [Nat.zero_add] at this

/-! ## Two runs side by side -/

/-- Two machines that a filter cannot tell apart: same index and registers, and the same content in
    every scratch cell that is initialised at that index. -/
structure Agree (V : Nat → BitVec 16) (s₁ s₂ : State) : Prop where
  pc : s₁.pc = s₂.pc
  a : s₁.a = s₂.a
  x : s₁.x = s₂.x
  mem : ∀ c, (V s₁.pc).getLsbD c = true → s₁.mem c = s₂.mem c

variable {V : Nat → BitVec 16} {s₁ s₂ : State}

/-- Moving along an edge out of an instruction that is not a store. -/
theorem Agree.move (hA : Agree V s₁ s₂) (hsub : Sub (V t) (V s₁.pc)) (a x : UInt32) :
    Agree V { s₁ with pc := t, a := a, x := x } { s₂ with pc := t, a := a, x := x } :=
  ⟨rfl, rfl, rfl, fun c hc => hA.mem c (hsub c hc)⟩

theorem Agree.jump (hA : Agree V s₁ s₂)
    (hsub : Sub (V t) (V s₁.pc)) : Agree V { s₁ with pc := t } { s₂ with pc := t } :=
  ⟨rfl, hA.a, hA.x, fun c hc => hA.mem c (hsub c hc)⟩

/-- Moving along the edge out of a store of `v` to the cell `k`. -/
theorem Agree.store (hA : Agree V s₁ s₂) (hk : k < 16) (hsub : Sub (V t) (V s₁.pc ||| (1#16 <<< k)))
    (v : UInt32) :
    Agree V { s₁ with pc := t, mem := update s₁.mem k v }
      { s₂ with pc := t, mem := update s₂.mem k v } := by
  refine ⟨rfl, hA.a, hA.x, fun c hc => ?_⟩
  show update s₁.mem k v c = update s₂.mem k v c
  rcases eq_or_ne c k with rfl | hne
  · rw [update_self, update_self]
  · rw [update_of_ne hne, update_of_ne hne]
    have hor := hsub c hc
    rw [BitVec.getLsbD_or, Bool.or_eq_true] at hor
    rcases hor with hor | hor
    · exact hA.mem c hor
    · exact absurd ((getLsbD_cell hk).mp hor) hne

/-- A cell the checker has seen initialised holds the same value in both machines. -/
theorem Agree.load (hA : Agree V s₁ s₂)
    (hk : k < 16) (hld : ¬ V s₁.pc &&& (1#16 <<< k) = 0#16) : s₁.mem k = s₂.mem k := by
  refine hA.mem k ?_
  by_contra hbit
  refine hld (BitVec.eq_of_getLsbD_eq fun c _ => ?_)
  rw [BitVec.getLsbD_and, BitVec.getLsbD_zero, Bool.and_eq_false_iff]
  rcases eq_or_ne c k with rfl | hne
  · exact .inl (by simpa using hbit)
  · exact .inr (by rw [← Bool.not_eq_true, getLsbD_cell hk]; exact hne)

section
variable (hacc : Accepted insns V)
include hacc

/-- A successor of an accepted instruction lies inside the array: jumps were checked, and the last
    instruction, the only one without a textual successor, is a `RET`. -/
theorem succ_lt_length (hf : insns[pc]? = some f)
    (hop : BpfS.ofCode f.code = some op) (ht : t ∈ op.succs pc f) : t < insns.length := by
  obtain ⟨op', hop', _, hja, hcj⟩ := hacc.insnOk pc f hf
  rw [hop] at hop'; injection hop' with hop'; subst hop'
  have hpc : pc < insns.length := (List.getElem?_eq_some_iff.mp hf).1
  have hnext : op ≠ .retK → op ≠ .retA → pc + 1 < insns.length := by
    intro h1 h2
    rcases Nat.eq_or_lt_of_le (Nat.succ_le_of_lt hpc) with heq | hlt
    · have hl := hacc.lastRet f (by rw [← heq]; exact hf)
      rw [hop, Option.some.injEq, Option.some.injEq] at hl
      rcases hl with h | h
      · exact absurd h h1
      · exact absurd h h2
    · exact hlt
  rcases op.kinds with hp | hc | rfl | rfl | rfl | rfl | rfl | rfl | rfl
  · rw [succs_plain hp, mem_singleton] at ht
    rw [ht]
    exact hnext (by rintro rfl; exact absurd hp (by decide)) (by rintro rfl; exact absurd hp (by decide))
  · rw [succs_condJmp hc] at ht
    have := hcj hc
    simp at ht; omega
  · have := hja rfl
    have ht' : t = pc + 1 + f.k.toNat := mem_singleton.mp ht
    omega
  iterate 4
    · have ht' : t = pc + 1 := mem_singleton.mp ht
      rw [ht']; exact hnext (by simp) (by simp)
  · nomatch ht
  · nomatch ht

/-- **The crux.**  Two agreeing machines inside an accepted array either both return the same value,
    or both move on to the same larger index inside the array, agreeing again. -/
theorem step_agree (skb : SkBuff) (hA : Agree V s₁ s₂) (hpc : s₁.pc < insns.length) :
    (∃ v, step insns skb s₁ = .error (.ret v) ∧ step insns skb s₂ = .error (.ret v)) ∨
    ∃ s₁' s₂', step insns skb s₁ = .ok s₁' ∧ step insns skb s₂ = .ok s₂' ∧ Agree V s₁' s₂' ∧
      s₁.pc < s₁'.pc ∧ s₁'.pc < insns.length := by
  have hf : insns[s₁.pc]? = some insns[s₁.pc] := List.getElem?_eq_getElem hpc
  generalize insns[s₁.pc] = f at hf
  obtain ⟨op, hop, hmem, _, _⟩ := hacc.insnOk _ f hf
  obtain ⟨hld, hsub⟩ := hacc.flow _ f hf op hop
  have hstep1 : step insns skb s₁ = exec skb f s₁ := by simp only [step, hf]
  have hstep2 : step insns skb s₂ = exec skb f s₂ := by simp only [step, ← hA.pc, hf]
  rw [hstep1, hstep2]
  -- every `.ok` outcome goes along an edge, which is forward and stays inside
  have hedge : ∀ {s₁' s₂' : State}, exec skb f s₁ = .ok s₁' → exec skb f s₂ = .ok s₂' →
      Agree V s₁' s₂' → s₁'.pc ∈ op.succs s₁.pc f →
      ∃ s₁' s₂', exec skb f s₁ = .ok s₁' ∧ exec skb f s₂ = .ok s₂' ∧ Agree V s₁' s₂' ∧
        s₁.pc < s₁'.pc ∧ s₁'.pc < insns.length := fun h1 h2 hA' ht =>
    ⟨_, _, h1, h2, hA', lt_of_mem_succs ht, succ_lt_length hacc hf hop ht⟩
  rcases op.kinds with hp | hc | rfl | rfl | rfl | rfl | rfl | rfl | rfl
  · have ht : s₁.pc + 1 ∈ op.succs s₁.pc f := by rw [succs_plain hp]; exact mem_singleton.mpr rfl
    have hs := hsub _ ht
    rw [show memOut op f (V s₁.pc) = V s₁.pc by
      cases op <;> first | exact absurd hp (by decide) | rfl] at hs
    have h1 : exec skb f s₁ = _ := exec_plain hop hp
    have h2 : exec skb f s₂ = _ := exec_plain hop hp
    rw [← hA.a, ← hA.x] at h2
    rcases hr : execReg op skb f.k s₁.a s₁.x with _ | ⟨a, x⟩
    · rw [hr] at h1 h2; exact .inl ⟨0, h1, h2⟩
    · rw [hr] at h1 h2
      rw [resume, ← hA.pc] at h2
      exact .inr (hedge h1 h2 (hA.move hs a x) ht)
  · obtain ⟨t, ht1, h1⟩ := exec_condJmp skb s₁ hop hc
    obtain ⟨t', ht2, h2⟩ := exec_condJmp skb s₂ hop hc
    rw [← hA.a, ← hA.x, ht1] at ht2
    cases ht2
    have ht : s₁.pc + (if t then f.jt.toNat else f.jf.toNat) + 1 ∈ op.succs s₁.pc f := by
      rw [succs_condJmp hc]
      cases t <;> simp <;> omega
    have hs := hsub _ ht
    rw [show memOut op f (V s₁.pc) = V s₁.pc by
      cases op <;> first | exact absurd hc (by decide) | rfl] at hs
    rw [← hA.pc] at h2
    exact .inr (hedge h1 h2 (hA.jump hs) ht)
  · have ht : s₁.pc + f.k.toNat + 1 ∈ BpfS.jmpJa.succs s₁.pc f := by simp [BpfS.succs]; omega
    exact .inr (hedge (by simp only [exec, hop]) (by simp only [exec, hop, hA.pc]) (hA.jump (hsub _ ht)) ht)
  · have hk := hmem (by simp)
    have ht : s₁.pc + 1 ∈ BpfS.st.succs s₁.pc f := mem_singleton.mpr rfl
    exact .inr (hedge (by simp only [exec, hop, if_pos hk])
      (by simp only [exec, hop, if_pos hk, hA.pc, hA.a]) (hA.store hk (hsub _ ht) s₁.a) ht)
  · have hk := hmem (by simp)
    have ht : s₁.pc + 1 ∈ BpfS.stx.succs s₁.pc f := mem_singleton.mpr rfl
    exact .inr (hedge (by simp only [exec, hop, if_pos hk])
      (by simp only [exec, hop, if_pos hk, hA.pc, hA.x]) (hA.store hk (hsub _ ht) s₁.x) ht)
  · have hk := hmem (by simp)
    have ht : s₁.pc + 1 ∈ BpfS.ldMem.succs s₁.pc f := mem_singleton.mpr rfl
    exact .inr (hedge (by simp only [exec, hop, if_pos hk])
      (by simp only [exec, hop, if_pos hk, hA.pc, hA.x, hA.load hk (hld (by simp))])
      (hA.move (hsub _ ht) (s₁.mem f.k.toNat) s₁.x) ht)
  · have hk := hmem (by simp)
    have ht : s₁.pc + 1 ∈ BpfS.ldxMem.succs s₁.pc f := mem_singleton.mpr rfl
    exact .inr (hedge (by simp only [exec, hop, if_pos hk])
      (by simp only [exec, hop, if_pos hk, hA.pc, hA.a, hA.load hk (hld (by simp))])
      (hA.move (hsub _ ht) s₁.a (s₁.mem f.k.toNat)) ht)
  · exact .inl ⟨f.k, by simp only [exec, hop], by simp only [exec, hop]⟩
  · exact .inl ⟨s₁.a, by simp only [exec, hop], by simp only [exec, hop, hA.a]⟩

/-! ## Whole runs -/

/-- What is true of every state at which the interpreter dispatches: the index is inside the array,
    the opcode has a `case`, and a scratch access stays below `BPF_MEMWORDS`. -/
def Dispatchable (insns : List SockFilter) (s : State) : Prop :=
  s.pc < insns.length ∧ ∃ f op, insns[s.pc]? = some f ∧ BpfS.ofCode f.code = some op ∧
    (op = .ldMem ∨ op = .ldxMem ∨ op = .st ∨ op = .stx → f.k.toNat < BPF_MEMWORDS)

theorem dispatchable_of_accepted
    {s : State} (hpc : s.pc < insns.length) : Dispatchable insns s := by
  have hf : insns[s.pc]? = some insns[s.pc] := List.getElem?_eq_getElem hpc
  obtain ⟨op, hop, hmem, _⟩ := hacc.insnOk _ _ hf
  exact ⟨hpc, _, op, hf, hop, hmem⟩

/-- **Runs agree.**  From agreeing machines inside the array, `flen - pc` instructions are enough to
    return, and both runs return the same value.  Induction on the fuel; the index strictly grows, so
    `flen - pc` bounds the number of turns. -/
theorem runFrom_agree (skb : SkBuff) (n : Nat) : ∀ s₁ s₂ : State, Agree V s₁ s₂ → s₁.pc < insns.length →
    insns.length - s₁.pc ≤ n →
    ∃ v, runFrom insns skb n s₁ = .ret v ∧ ∀ m, insns.length - s₁.pc ≤ m →
    runFrom insns skb m s₂ = .ret v := by
  induction n with
  | zero => intro s₁ s₂ _ hpc hn; omega
  | succ n ih =>
    intro s₁ s₂ hA hpc hn
    have hm : ∀ m, insns.length - s₁.pc ≤ m → ∃ k, m = k + 1 := fun m hm => ⟨m - 1, by omega⟩
    rcases step_agree hacc skb hA hpc with ⟨v, h1, h2⟩ | ⟨s₁', s₂', h1, h2, hA', hlt, hpc'⟩
    · refine ⟨v, by simp only [runFrom, h1], fun m hle => ?_⟩
      obtain ⟨k, rfl⟩ := hm m hle
      simp only [runFrom, h2]
    · obtain ⟨v, hr1, hr2⟩ := ih s₁' s₂' hA' hpc' (by omega)
      refine ⟨v, by simp only [runFrom, h1, hr1], fun m hle => ?_⟩
      obtain ⟨k, rfl⟩ := hm m hle
      simp only [runFrom, h2]
      exact hr2 k (by omega)

/-- **Traces are short and safe.**  From inside the array at most `flen - pc` instructions are
    dispatched, each at a `Dispatchable` state. -/
theorem traceFrom_safe (skb : SkBuff) (n : Nat) : ∀ s : State, s.pc < insns.length →
    (traceFrom insns skb n s).length ≤ insns.length - s.pc ∧ ∀ s' ∈ traceFrom insns skb n s,
    Dispatchable insns s' := by
  induction n with
  | zero => intro s _; exact ⟨Nat.zero_le _, nofun⟩
  | succ n ih =>
    intro s hpc
    have hd := dispatchable_of_accepted hacc hpc
    rcases step_agree hacc skb (⟨rfl, rfl, rfl, fun _ _ => rfl⟩ : Agree V s s) hpc with
      ⟨v, h, _⟩ | ⟨s', _, h, _, _, hlt, hpc'⟩
    · simp only [traceFrom, h]
      refine ⟨by simp; omega, fun t ht => ?_⟩
      rw [mem_singleton.mp ht]; exact hd
    · obtain ⟨hlen, hall⟩ := ih s' hpc'
      simp only [traceFrom, h]
      refine ⟨by simp; omega, fun t ht => ?_⟩
      rcases mem_cons.mp ht with rfl | ht
      · exact hd
      · exact hall t ht

end

/-- **Headline.**  For every filter `sk_chk_filter` accepts and every packet there is ONE value `v`
    such that `sk_run_filter`, from whatever the scratch memory holds on entry, returns `v`, having
    dispatched at most `flen` instructions, all inside the array, all with a `case` of their own, all
    scratch accesses below `BPF_MEMWORDS`. -/
theorem skChkFilter_sound {alloc : Bool} {filter insns : List SockFilter}
    (h : skChkFilter alloc filter = .ok insns) (skb : SkBuff) :
    ∃ v, ∀ (mem : Nat → UInt32) (fuel : Nat), filter.length ≤ fuel → skRunFilter insns skb mem fuel = .ret v ∧
      (skRunTrace insns skb mem fuel).length ≤ filter.length ∧
      ∀ s ∈ skRunTrace insns skb mem fuel, Dispatchable insns s := by
  obtain ⟨hlen, V, hacc⟩ := skChkFilter_accepted h
  -- nothing is initialised on entry, so any two entry states agree
  have hentry : ∀ mem mem', Agree V (entry mem) (entry mem') := fun mem mem' =>
    ⟨rfl, rfl, rfl, fun c hc => by
      have hc' : (V 0).getLsbD c = true := hc
      rw [hacc.entry] at hc'; simp at hc'⟩
  obtain ⟨v, _, hall⟩ := runFrom_agree hacc skb insns.length (entry fun _ => 0)
    (entry fun _ => 0) (hentry _ _) hacc.pos le_rfl
  refine ⟨v, fun mem fuel hfuel => ?_⟩
  obtain ⟨v', h₀, h'⟩ :=
    runFrom_agree hacc skb insns.length (entry fun _ => 0) (entry mem) (hentry _ _) hacc.pos le_rfl
  have hv : v' = v := by
    have := hall insns.length le_rfl
    rw [h₀] at this; injection this
  obtain ⟨hshort, hsafe⟩ := traceFrom_safe hacc skb fuel (entry mem) hacc.pos
  rw [← hlen]
  exact ⟨hv ▸ h' fuel (by rw [← hlen] at hfuel; exact Nat.le_trans (Nat.sub_le _ _) hfuel), hshort, hsafe⟩

/-- `skChkFilter_sound` at `ld #5; st M[0]; ld M[0]; ret a`, with a store before the load. -/
theorem skChkFilter_sound_store_load :
    ∃ insns v, skChkFilter true [⟨0x00, 0, 0, 5⟩, ⟨0x02, 0, 0, 0⟩, ⟨0x60, 0, 0, 0⟩,
      ⟨0x16, 0, 0, 0⟩] = .ok insns ∧
      ∀ mem, skRunFilter insns ⟨0, 0, fun _ => 0, fun _ => 0, 0, 0, 0, 0, 0, 0, none, 0, 0, 0,
        0⟩ mem 4 = .ret v := by
  have hok : skChkFilter true [⟨0x00, 0, 0, 5⟩, ⟨0x02, 0, 0, 0⟩, ⟨0x60, 0, 0, 0⟩, ⟨0x16, 0, 0, 0⟩] =
      .ok [⟨BpfS.ldImm.code, 0, 0, 5⟩, ⟨BpfS.st.code, 0, 0, 0⟩, ⟨BpfS.ldMem.code, 0, 0, 0⟩,
        ⟨BpfS.retA.code, 0, 0, 0⟩] := by rfl
  obtain ⟨v, hv⟩ := skChkFilter_sound hok ⟨0, 0, fun _ => 0, fun _ => 0, 0, 0, 0, 0, 0, 0, none, 0, 0, 0, 0⟩
  exact ⟨_, v, hok, fun mem => (hv mem 4 (by decide)).1⟩

end LinuxKernel.SkFilter
