/-
  Socket filters (`net/core/filter.c`) — the verifier `sk_chk_filter` and the interpreter
  `sk_run_filter`.

  1. **Data** — `SockFilter` is `struct sock_filter` (`code`, `jt`, `jf`, `k`), `BpfS` the enum of
     internal opcodes `BPF_S_*`, `SkBuff` the part of `struct sk_buff` the interpreter reads.  The
     verifier REWRITES `code` in place (a user opcode becomes an enum value, `BPF_S_ALU_DIV_K` gets
     its reciprocal), so both sides of the interface are `SockFilter` with a raw 16-bit `code`.

  2. **Interpreter** — `exec` is one turn of the `switch`; everything that can go wrong at run time
     is a value of `Stop` (`badPc`: the instruction pointer left the array; `warn`: the `default`
     branch; `badMem`: a scratch access at or above `BPF_MEMWORDS`), so "never reached" is a
     statement about the result.  `trace` lists the states at which an instruction is dispatched.

  3. **Verifier** — `chkInsns` is the first loop, `checkLoadAndStores` the data-flow pass over the
     scratch cells, with `masks` and `memvalid` as in the source.
-/
import Mathlib

namespace LinuxKernel.SkFilter

open Function

/-! ## Instructions -/

def BPF_MEMWORDS : Nat := 16
def BPF_MAXINSNS : Nat := 4096

/-- `struct sock_filter`. -/
structure SockFilter where
  code : UInt16
  jt : UInt8
  jf : UInt8
  k : UInt32
  deriving DecidableEq, Repr

/-- The internal opcodes `BPF_S_*`, in the order of the enum. -/
inductive BpfS where
  | retK | retA
  | aluAddK | aluAddX | aluSubK | aluSubX | aluMulK | aluMulX | aluDivX
  | aluAndK | aluAndX | aluOrK | aluOrX | aluLshK | aluLshX | aluRshK | aluRshX | aluNeg
  | ldWAbs | ldHAbs | ldBAbs | ldWLen | ldWInd | ldHInd | ldBInd | ldImm
  | ldxWLen | ldxBMsh | ldxImm | miscTax | miscTxa | aluDivK
  | ldMem | ldxMem | st | stx
  | jmpJa | jmpJeqK | jmpJeqX | jmpJgeK | jmpJgeX | jmpJgtK | jmpJgtX | jmpJsetK | jmpJsetX
  | ancProtocol | ancPkttype | ancIfindex | ancNlattr | ancNlattrNest
  | ancMark | ancQueue | ancHatype | ancRxhash | ancCpu
  deriving DecidableEq, Repr

/-- The enum starts at `BPF_S_RET_K = 1`. -/
def BpfS.code (op : BpfS) : UInt16 := UInt16.ofNat (op.ctorIdx + 1)

/-- The enum in order, for reading a `code` field back. -/
def BpfS.table : List BpfS :=
  [.retK, .retA, .aluAddK, .aluAddX, .aluSubK, .aluSubX, .aluMulK, .aluMulX, .aluDivX,
   .aluAndK, .aluAndX, .aluOrK, .aluOrX, .aluLshK, .aluLshX, .aluRshK, .aluRshX, .aluNeg,
   .ldWAbs, .ldHAbs, .ldBAbs, .ldWLen, .ldWInd, .ldHInd, .ldBInd, .ldImm,
   .ldxWLen, .ldxBMsh, .ldxImm, .miscTax, .miscTxa, .aluDivK,
   .ldMem, .ldxMem, .st, .stx,
   .jmpJa, .jmpJeqK, .jmpJeqX, .jmpJgeK, .jmpJgeX, .jmpJgtK, .jmpJgtX, .jmpJsetK, .jmpJsetX,
   .ancProtocol, .ancPkttype, .ancIfindex, .ancNlattr, .ancNlattrNest,
   .ancMark, .ancQueue, .ancHatype, .ancRxhash, .ancCpu]

/-- The `case` label a `code` field selects, if there is one (`none` is the `default` branch). -/
def BpfS.ofCode (c : UInt16) : Option BpfS :=
  if c = 0 then none else BpfS.table[c.toNat - 1]?

@[simp] theorem BpfS.ofCode_code (op : BpfS) : BpfS.ofCode op.code = some op := by
  cases op <;> rfl

/-! ## Packets -/

/-- `struct net_device`, the two fields the ancillary loads read. -/
structure NetDevice where
  ifindex : UInt32
  type : UInt16

/-- The part of `struct sk_buff` (and of the machine: `cpu`) that a filter can read.  `mem` is the
    memory around `skb->data`, addressed relative to it; `bits` is the packet's content as
    `skb_copy_bits` gathers it from the linear part and the fragments; `head`, `tail` and the two
    header pointers are relative to `skb->data` as well. -/
structure SkBuff where
  len : UInt32
  dataLen : UInt32
  mem : Int → UInt8
  bits : Nat → UInt8
  head : Int
  tail : Int
  networkHeader : Int
  macHeader : Int
  protocol : UInt16
  pktType : UInt8
  dev : Option NetDevice
  mark : UInt32
  queueMapping : UInt16
  rxhash : UInt32
  cpu : UInt32

def SKF_NET_OFF : Int := -0x100000
def SKF_LL_OFF : Int := -0x200000

/-- `(int) k` for an unsigned 32-bit `k`. -/
def toInt (k : UInt32) : Int := if k.toNat < 2 ^ 31 then k.toNat else (k.toNat : Int) - 2 ^ 32

variable (skb : SkBuff)

def skbHeadlen : Int := toInt (skb.len - skb.dataLen)
def skbIsNonlinear : Bool := skb.dataLen ≠ 0

/-- `skb_header_pointer`: the `i`-th byte behind the returned pointer, or `none` for `NULL`. -/
def skbHeaderPointer (offset : Int) (len : Nat) : Option (Nat → UInt8) :=
  if skbHeadlen skb - offset ≥ len then some fun i => skb.mem (offset + i)
  else if offset > toInt skb.len - len then none
  else some fun i => skb.bits (offset.toNat + i)

/-- `__load_pointer`: the negative offsets address the network and link-layer headers. -/
def loadPointerNeg (k : Int) (size : Nat) : Option (Nat → UInt8) :=
  let ptr : Option Int :=
    if k ≥ SKF_NET_OFF then some (skb.networkHeader + k - SKF_NET_OFF)
    else if k ≥ SKF_LL_OFF then some (skb.macHeader + k - SKF_LL_OFF)
    else none
  match ptr with
  | none => none
  | some p => if p ≥ skb.head ∧ p + size ≤ skb.tail then some fun i => skb.mem (p + i) else none

def loadPointer (k : Int) (size : Nat) : Option (Nat → UInt8) :=
  if k ≥ 0 then skbHeaderPointer skb k size else loadPointerNeg skb k size

def getUnalignedBe32 (p : Nat → UInt8) : UInt32 :=
  ((p 0).toUInt32 <<< 24) ||| ((p 1).toUInt32 <<< 16) ||| ((p 2).toUInt32 <<< 8) ||| (p 3).toUInt32

def getUnalignedBe16 (p : Nat → UInt8) : UInt32 := ((p 0).toUInt32 <<< 8) ||| (p 1).toUInt32
def ntohs (v : UInt16) : UInt32 := ((v &&& 0xff).toUInt32 <<< 8) ||| (v >>> 8).toUInt32

/-! ## Netlink attributes (`nla_find`, `nla_find_nested`) -/

/-- A host-order 16-bit field at `p`; `nla_len` sits at offset 0 of an attribute, `nla_type` at 2. -/
def u16At (p : Int) : Nat := (skb.mem p).toNat + 256 * (skb.mem (p + 1)).toNat
def nlaAlign (len : Nat) : Nat := (len + 3) / 4 * 4
def nlaType (nla : Int) : Nat := u16At skb (nla + 2) % 2 ^ 14

def nlaOk (nla remaining : Int) : Bool :=
  remaining ≥ 4 ∧ u16At skb nla ≥ 4 ∧ (u16At skb nla : Int) ≤ remaining

/-- The `nla_for_each_attr` loop of `nla_find`.  Every turn that goes on takes at least four bytes
    off `rem`, so `rem` turns are enough. -/
def nlaFindLoop (skb : SkBuff) (attrtype : Int) : Nat → Int → Int → Option Int
  | 0, _, _ => none
  | fuel + 1, nla, rem =>
      if nlaOk skb nla rem then
        if (nlaType skb nla : Int) = attrtype then some nla
        else nlaFindLoop skb attrtype fuel (nla + nlaAlign (u16At skb nla)) (rem - nlaAlign (u16At skb nla))
      else none

def nlaFind (head len : Int) (attrtype : UInt32) : Option Int :=
  nlaFindLoop skb (toInt attrtype) (len.toNat + 1) head len

/-- The value left in `A`: the offset of the attribute found, or `0`. -/
def nlaResult (r : Option Int) : UInt32 :=
  match r with
  | some nla => UInt32.ofInt nla
  | none => 0

/-- `A > skb->len - sizeof(struct nlattr)`, computed in `size_t`. -/
def nlaTooFar (a : UInt32) : Bool :=
  (a.toNat : Int) > ((skb.len.toNat : Int) - 4) % 2 ^ 64

def ancNlattr (a x : UInt32) : Option UInt32 :=
  if skbIsNonlinear skb then none
  else if nlaTooFar skb a then none
  else some (nlaResult (nlaFind skb a.toNat (toInt (skb.len - a)) x))

def ancNlattrNest (a x : UInt32) : Option UInt32 :=
  if skbIsNonlinear skb then none
  else if nlaTooFar skb a then none
  else if u16At skb a.toNat > (a - skb.len).toNat then none
  else some (nlaResult (nlaFind skb (a.toNat + 4) ((u16At skb a.toNat : Int) - 4) x))

/-! ## The interpreter `sk_run_filter` -/

def reciprocalValue (k : UInt32) : UInt32 := UInt32.ofNat ((2 ^ 32 + (k.toNat - 1)) / k.toNat)
def reciprocalDivide (a r : UInt32) : UInt32 := UInt32.ofNat (a.toNat * r.toNat / 2 ^ 32)

/-- The machine: instruction index, accumulator, index register, scratch memory. -/
structure State where
  pc : Nat
  a : UInt32
  x : UInt32
  mem : Nat → UInt32

/-- How a run ends. -/
inductive Stop where
  | ret (v : UInt32)
  | warn
  | badPc
  | badMem
  | outOfFuel
  deriving DecidableEq, Repr

/-- The load behind the labels `load_w`, `load_h` and `load_b`. -/
def loadA (k : UInt32) (size : Nat) (get : (Nat → UInt8) → UInt32) (x : UInt32) :
    Option (UInt32 × UInt32) :=
  (loadPointer skb (toInt k) size).map fun p => (get p, x)

/-- The cases that touch neither the scratch memory nor the instruction pointer: the new `(A, X)`,
    or `none` for `return 0`. -/
def execReg (op : BpfS) (skb : SkBuff) (k a x : UInt32) : Option (UInt32 × UInt32) :=
  match op with
  | .aluAddX => some (a + x, x)
  | .aluAddK => some (a + k, x)
  | .aluSubX => some (a - x, x)
  | .aluSubK => some (a - k, x)
  | .aluMulX => some (a * x, x)
  | .aluMulK => some (a * k, x)
  | .aluDivX => if x = 0 then none else some (a / x, x)
  | .aluDivK => some (reciprocalDivide a k, x)
  | .aluAndX => some (a &&& x, x)
  | .aluAndK => some (a &&& k, x)
  | .aluOrX => some (a ||| x, x)
  | .aluOrK => some (a ||| k, x)
  | .aluLshX => some (a <<< x, x)
  | .aluLshK => some (a <<< k, x)
  | .aluRshX => some (a >>> x, x)
  | .aluRshK => some (a >>> k, x)
  | .aluNeg => some (0 - a, x)
  | .ldWAbs => loadA skb k 4 getUnalignedBe32 x
  | .ldHAbs => loadA skb k 2 getUnalignedBe16 x
  | .ldBAbs => loadA skb k 1 (fun p => (p 0).toUInt32) x
  | .ldWLen => some (skb.len, x)
  | .ldxWLen => some (a, skb.len)
  | .ldWInd => loadA skb (x + k) 4 getUnalignedBe32 x
  | .ldHInd => loadA skb (x + k) 2 getUnalignedBe16 x
  | .ldBInd => loadA skb (x + k) 1 (fun p => (p 0).toUInt32) x
  | .ldxBMsh => (loadPointer skb (toInt k) 1).map fun p =>
      (a, ((p 0).toUInt32 &&& (0xf : UInt32)) <<< (2 : UInt32))
  | .ldImm => some (k, x)
  | .ldxImm => some (a, k)
  | .miscTax => some (a, a)
  | .miscTxa => some (x, x)
  | .ancProtocol => some (ntohs skb.protocol, x)
  | .ancPkttype => some (skb.pktType.toUInt32, x)
  | .ancIfindex => skb.dev.map fun d => (d.ifindex, x)
  | .ancMark => some (skb.mark, x)
  | .ancQueue => some (skb.queueMapping.toUInt32, x)
  | .ancHatype => skb.dev.map fun d => (d.type.toUInt32, x)
  | .ancRxhash => some (skb.rxhash, x)
  | .ancCpu => some (skb.cpu, x)
  | .ancNlattr => (ancNlattr skb a x).map fun a' => (a', x)
  | .ancNlattrNest => (ancNlattrNest skb a x).map fun a' => (a', x)
  | _ => some (a, x)

/-- The test of a conditional jump (`none` for any other opcode). -/
def jmpCond (op : BpfS) (k a x : UInt32) : Option Bool :=
  match op with
  | .jmpJgtK => some (a > k)
  | .jmpJgeK => some (a ≥ k)
  | .jmpJeqK => some (a = k)
  | .jmpJsetK => some (a &&& k ≠ 0)
  | .jmpJgtX => some (a > x)
  | .jmpJgeX => some (a ≥ x)
  | .jmpJeqX => some (a = x)
  | .jmpJsetX => some (a &&& x ≠ 0)
  | _ => none

/-- `continue` with the new `(A, X)`, or `return 0`. -/
def resume (s : State) : Option (UInt32 × UInt32) → Except Stop State
  | some (a, x) => .ok { s with pc := s.pc + 1, a := a, x := x }
  | none => .error (.ret 0)

/-- One turn of the `switch`; `fentry++` of the enclosing `for` is the `+ 1` on the index. -/
def exec (f : SockFilter) (s : State) : Except Stop State :=
  match BpfS.ofCode f.code with
  | none => .error .warn
  | some .retK => .error (.ret f.k)
  | some .retA => .error (.ret s.a)
  | some .ldMem =>
      if f.k.toNat < BPF_MEMWORDS then .ok { s with pc := s.pc + 1, a := s.mem f.k.toNat }
      else .error .badMem
  | some .ldxMem =>
      if f.k.toNat < BPF_MEMWORDS then .ok { s with pc := s.pc + 1, x := s.mem f.k.toNat }
      else .error .badMem
  | some .st =>
      if f.k.toNat < BPF_MEMWORDS then
        .ok { s with pc := s.pc + 1, mem := update s.mem f.k.toNat s.a }
      else .error .badMem
  | some .stx =>
      if f.k.toNat < BPF_MEMWORDS then
        .ok { s with pc := s.pc + 1, mem := update s.mem f.k.toNat s.x }
      else .error .badMem
  | some .jmpJa => .ok { s with pc := s.pc + f.k.toNat + 1 }
  | some op =>
      match jmpCond op f.k s.a s.x with
      | some t => .ok { s with pc := s.pc + (if t then f.jt.toNat else f.jf.toNat) + 1 }
      | none => resume s (execReg op skb f.k s.a s.x)

/-- Fetch and execute. -/
def step (insns : List SockFilter) (skb : SkBuff) (s : State) : Except Stop State :=
  match insns[s.pc]? with
  | none => .error .badPc
  | some f => exec skb f s

/-- The `for (;;)` loop, cut off after `fuel` instructions. -/
def runFrom (insns : List SockFilter) (skb : SkBuff) : Nat → State → Stop
  | 0, _ => .outOfFuel
  | fuel + 1, s =>
      match step insns skb s with
      | .ok s' => runFrom insns skb fuel s'
      | .error r => r

/-- The states at which the loop dispatches an instruction, in order. -/
def traceFrom (insns : List SockFilter) (skb : SkBuff) : Nat → State → List State
  | 0, _ => []
  | fuel + 1, s =>
      match step insns skb s with
      | .ok s' => s :: traceFrom insns skb fuel s'
      | .error _ => [s]

/-- The state on entry: `A = X = 0`, and `mem` holds whatever the stack held. -/
def entry (mem : Nat → UInt32) : State := ⟨0, 0, 0, mem⟩

def skRunFilter (insns : List SockFilter) (skb : SkBuff) (mem : Nat → UInt32) (fuel : Nat) : Stop :=
  runFrom insns skb fuel (entry mem)

def skRunTrace (insns : List SockFilter) (skb : SkBuff) (mem : Nat → UInt32) (fuel : Nat) :
    List State :=
  traceFrom insns skb fuel (entry mem)

/-! ## The verifier `sk_chk_filter` -/

inductive Errno where
  | EINVAL
  | ENOMEM
  deriving DecidableEq, Repr

/-- The initialisers of the table `codes[]`: the index built from the class, size, mode, operation
    and source bits of `include/linux/filter.h`, and the internal opcode stored there. -/
def codesInit : List (Nat × BpfS) :=
  let LD := 0x00; let LDX := 0x01; let ST := 0x02; let STX := 0x03
  let ALU := 0x04; let JMP := 0x05; let RET := 0x06; let MISC := 0x07
  let W := 0x00; let H := 0x08; let B := 0x10
  let IMM := 0x00; let ABS := 0x20; let IND := 0x40; let MEM := 0x60; let LEN := 0x80; let MSH := 0xa0
  let ADD := 0x00; let SUB := 0x10; let MUL := 0x20; let DIV := 0x30; let OR := 0x40
  let AND := 0x50; let LSH := 0x60; let RSH := 0x70; let NEG := 0x80
  let JA := 0x00; let JEQ := 0x10; let JGT := 0x20; let JGE := 0x30; let JSET := 0x40
  let K := 0x00; let X := 0x08; let A := 0x10; let TAX := 0x00; let TXA := 0x80
  [(ALU ||| ADD ||| K, .aluAddK), (ALU ||| ADD ||| X, .aluAddX),
   (ALU ||| SUB ||| K, .aluSubK), (ALU ||| SUB ||| X, .aluSubX),
   (ALU ||| MUL ||| K, .aluMulK), (ALU ||| MUL ||| X, .aluMulX), (ALU ||| DIV ||| X, .aluDivX),
   (ALU ||| AND ||| K, .aluAndK), (ALU ||| AND ||| X, .aluAndX),
   (ALU ||| OR ||| K, .aluOrK), (ALU ||| OR ||| X, .aluOrX),
   (ALU ||| LSH ||| K, .aluLshK), (ALU ||| LSH ||| X, .aluLshX),
   (ALU ||| RSH ||| K, .aluRshK), (ALU ||| RSH ||| X, .aluRshX), (ALU ||| NEG, .aluNeg),
   (LD ||| W ||| ABS, .ldWAbs), (LD ||| H ||| ABS, .ldHAbs), (LD ||| B ||| ABS, .ldBAbs),
   (LD ||| W ||| LEN, .ldWLen), (LD ||| W ||| IND, .ldWInd), (LD ||| H ||| IND, .ldHInd),
   (LD ||| B ||| IND, .ldBInd), (LD ||| IMM, .ldImm), (LDX ||| W ||| LEN, .ldxWLen),
   (LDX ||| B ||| MSH, .ldxBMsh), (LDX ||| IMM, .ldxImm), (MISC ||| TAX, .miscTax),
   (MISC ||| TXA, .miscTxa), (RET ||| K, .retK), (RET ||| A, .retA), (ALU ||| DIV ||| K, .aluDivK),
   (LD ||| MEM, .ldMem), (LDX ||| MEM, .ldxMem), (ST, .st), (STX, .stx), (JMP ||| JA, .jmpJa),
   (JMP ||| JEQ ||| K, .jmpJeqK), (JMP ||| JEQ ||| X, .jmpJeqX), (JMP ||| JGE ||| K, .jmpJgeK),
   (JMP ||| JGE ||| X, .jmpJgeX), (JMP ||| JGT ||| K, .jmpJgtK), (JMP ||| JGT ||| X, .jmpJgtX),
   (JMP ||| JSET ||| K, .jmpJsetK), (JMP ||| JSET ||| X, .jmpJsetX)]

/-- `codes[code]`, `none` for the zero entries and for `code >= ARRAY_SIZE(codes)`. -/
def codes (code : UInt16) : Option BpfS := codesInit.lookup code.toNat
def SKF_AD_OFF : UInt32 := 0 - 0x1000

/-- The `switch (ftest->k)` over the ancillary offsets, for the three absolute loads. -/
def ancillary (k : UInt32) : Option BpfS :=
  if k = SKF_AD_OFF + 0 then some .ancProtocol
  else if k = SKF_AD_OFF + 4 then some .ancPkttype
  else if k = SKF_AD_OFF + 8 then some .ancIfindex
  else if k = SKF_AD_OFF + 12 then some .ancNlattr
  else if k = SKF_AD_OFF + 16 then some .ancNlattrNest
  else if k = SKF_AD_OFF + 20 then some .ancMark
  else if k = SKF_AD_OFF + 24 then some .ancQueue
  else if k = SKF_AD_OFF + 28 then some .ancHatype
  else if k = SKF_AD_OFF + 32 then some .ancRxhash
  else if k = SKF_AD_OFF + 36 then some .ancCpu
  else none

/-- The opcodes of the conditional jumps, the shared `case` labels of both verifier loops. -/
def BpfS.isCondJmp : BpfS → Bool
  | .jmpJeqK | .jmpJeqX | .jmpJgeK | .jmpJgeX | .jmpJgtK | .jmpJgtX | .jmpJsetX | .jmpJsetK => true
  | _ => false

/-- The body of the first loop for the instruction at `pc`: the rewritten instruction, or `none`
    for `return -EINVAL`. -/
def chkInsn (flen pc : Nat) (ftest : SockFilter) : Option SockFilter :=
  match codes ftest.code with
  | none => none
  | some .aluDivK =>
      if ftest.k = 0 then none
      else some { ftest with code := BpfS.aluDivK.code, k := reciprocalValue ftest.k }
  | some .ldMem =>
      if ftest.k.toNat ≥ BPF_MEMWORDS then none else some { ftest with code := BpfS.ldMem.code }
  | some .ldxMem =>
      if ftest.k.toNat ≥ BPF_MEMWORDS then none else some { ftest with code := BpfS.ldxMem.code }
  | some .st =>
      if ftest.k.toNat ≥ BPF_MEMWORDS then none else some { ftest with code := BpfS.st.code }
  | some .stx =>
      if ftest.k.toNat ≥ BPF_MEMWORDS then none else some { ftest with code := BpfS.stx.code }
  | some .jmpJa =>
      if ftest.k.toNat ≥ flen - pc - 1 then none else some { ftest with code := BpfS.jmpJa.code }
  | some .ldWAbs => some { ftest with code := ((ancillary ftest.k).getD .ldWAbs).code }
  | some .ldHAbs => some { ftest with code := ((ancillary ftest.k).getD .ldHAbs).code }
  | some .ldBAbs => some { ftest with code := ((ancillary ftest.k).getD .ldBAbs).code }
  | some op =>
      if op.isCondJmp then
        if pc + ftest.jt.toNat + 1 ≥ flen ∨ pc + ftest.jf.toNat + 1 ≥ flen then none
        else some { ftest with code := op.code }
      else some { ftest with code := op.code }

/-- The first loop of `sk_chk_filter`, from index `pc` on. -/
def chkInsns (flen : Nat) : Nat → List SockFilter → Option (List SockFilter)
  | _, [] => some []
  | pc, f :: fs =>
      match chkInsn flen pc f with
      | none => none
      | some f' => (chkInsns flen (pc + 1) fs).map (f' :: ·)

/-- The loop of `check_load_and_stores` from index `pc` on: `true` when it runs to the end, `false`
    for the `-EINVAL` exit. -/
def checkLoop : Nat → (Nat → BitVec 16) → BitVec 16 → List SockFilter → Bool
  | _, _, _, [] => true
  | pc, masks, memvalid, f :: fs =>
      let valid := memvalid &&& masks pc
      match BpfS.ofCode f.code with
      | some .st | some .stx => checkLoop (pc + 1) masks (valid ||| (1#16 <<< f.k.toNat)) fs
      | some .ldMem | some .ldxMem =>
          if valid &&& (1#16 <<< f.k.toNat) = 0#16 then false else checkLoop (pc + 1) masks valid fs
      | some .jmpJa =>
          let t := pc + 1 + f.k.toNat
          checkLoop (pc + 1) (update masks t (masks t &&& valid)) (BitVec.allOnes 16) fs
      | some op =>
          if op.isCondJmp then
            let t := pc + 1 + f.jt.toNat
            let masks₁ := update masks t (masks t &&& valid)
            let e := pc + 1 + f.jf.toNat
            checkLoop (pc + 1) (update masks₁ e (masks₁ e &&& valid)) (BitVec.allOnes 16) fs
          else checkLoop (pc + 1) masks valid fs
      | none => checkLoop (pc + 1) masks valid fs

/-- `check_load_and_stores`; `alloc` says whether the `kmalloc` of `masks` succeeds. -/
def checkLoadAndStores (alloc : Bool) (filter : List SockFilter) : Except Errno Unit :=
  if ¬ alloc then .error .ENOMEM
  else if checkLoop 0 (fun _ => BitVec.allOnes 16) 0#16 filter then .ok () else .error .EINVAL

/-- `sk_chk_filter`: on success (return value `0`) the filter as rewritten in place. -/
def skChkFilter (alloc : Bool) (filter : List SockFilter) : Except Errno (List SockFilter) :=
  let flen := filter.length
  if flen = 0 ∨ flen > BPF_MAXINSNS then .error .EINVAL
  else
    match chkInsns flen 0 filter with
    | none => .error .EINVAL
    | some insns =>
        match (insns[flen - 1]?).bind fun f => BpfS.ofCode f.code with
        | some .retK | some .retA => (checkLoadAndStores alloc insns).map fun _ => insns
        | _ => .error .EINVAL

end LinuxKernel.SkFilter
