/-
  RAID-6: the syndromes and the recovery of two blocks (`lib/raid6/int.uc`, `lib/raid6/recov.c`).

  1. **Memory** — a buffer is a sequence of bytes; `ptrs` is the table of pointers that the functions are
     given, and that the recovery functions CHANGE while they run.  Different disks have different
     buffers, and `raid6_empty_zero_page` is a buffer of its own: `PAGE_SIZE` zeros, and after them
     whatever follows in memory.

  2. **`gen_syndrome`** — for any word size, byte order and degree of unrolling; the words are doubled
     byte by byte (`double_word`), and so P and Q are the two parities of the bytes (`genSyndrome_eq`).

  3. **Recovery** — both functions run `gen_syndrome` with the zero page in place of the lost data, into
     the lost blocks. What they rebuild is the lost byte, plus the byte of the ZERO PAGE
     (`recov2_bytes`): the data are restored as far as that page reaches.
-/
import LinuxKernel.Base.ByteLanes
import LinuxKernel.Base.DoubleParity
import LinuxKernel.Lib.Raid6Tables

namespace LinuxKernel.Raid6

open Function ByteLanes DoubleParity

/-! ## Words -/

section Words
variable (L : Layout)

/-- `0x0101…`: a one in each of `n` bytes. -/
def ones : Nat → Nat
  | 0 => 0
  | n + 1 => 1 + 256 * ones n

def nbytes (x : Nat) : BitVec (8 * L.nsize) := BitVec.ofNat _ (x * ones L.nsize)

/-- `SHLBYTE` -/
def shlbyte (v : BitVec (8 * L.nsize)) : BitVec (8 * L.nsize) := (v <<< 1) &&& nbytes L 0xfe

/-- `MASK` -/
def mask (v : BitVec (8 * L.nsize)) : BitVec (8 * L.nsize) :=
  let vv := v &&& nbytes L 0x80
  (vv <<< 1) - (vv >>> 7)

end Words

example : ones 8 = 0x0101010101010101 ∧ ones 4 = 0x01010101 := by decide

/-! ## `gen_syndrome` -/

section Program
variable (L : Layout) {B : Type} [DecidableEq B]

/-- The bytes of the buffers. -/
abbrev Mem (B : Type) := B → Nat → U8

/-- The loop over the disks below the highest one, at the word that starts at `off`: `wp` and `wq`. -/
def wordLoop (ptrs : Nat → B) (mem : Mem B) (off : Nat) :
    Nat → BitVec (8 * L.nsize) → BitVec (8 * L.nsize) → BitVec (8 * L.nsize) × BitVec (8 * L.nsize)
  | 0, wp, wq => (wp, wq)
  | z + 1, wp, wq =>
    let wd := L.load (mem (ptrs z)) off
    let wp := wp ^^^ wd
    let w2 := mask L wq
    let w1 := shlbyte L wq
    let w2 := w2 &&& nbytes L 0x1d
    let w1 := w1 ^^^ w2
    let wq := w1 ^^^ wd
    wordLoop ptrs mem off z wp wq

def syndromeWord (ptrs : Nat → B) (mem : Mem B)
    (z0 off : Nat) : BitVec (8 * L.nsize) × BitVec (8 * L.nsize) :=
  let w := L.load (mem (ptrs z0)) off
  wordLoop L ptrs mem off z0 w w

/-- The stores of the words `w 0, …, w (n - 1)`, from offset `d`. -/
def storeWords (f : Nat → U8) (d : Nat) (w : Nat → BitVec (8 * L.nsize)) : Nat → Nat → U8
  | 0 => f
  | k + 1 => L.store (storeWords f d w k) (d + L.nsize * k) (w k)

/-- One turn of the loop over the bytes; every word has been read before the first one is written. -/
def genStride (unroll : Nat) (ptrs : Nat → B) (z0 d : Nat) (mem : Mem B) : Mem B :=
  let w := fun k => syndromeWord L ptrs mem z0 (d + L.nsize * k)
  let p := ptrs (z0 + 1)
  let q := ptrs (z0 + 2)
  let mem := update mem p (storeWords L (mem p) d (fun k => (w k).1) unroll)
  update mem q (storeWords L (mem q) d (fun k => (w k).2) unroll)

/-- The loop over the bytes, for at most `turns` turns. -/
def genLoop (unroll bytes : Nat) (ptrs : Nat → B) (z0 : Nat) : Nat → Nat → Mem B → Mem B
  | 0, _, mem => mem
  | turns + 1, d, mem =>
    if d < bytes then
      genLoop unroll bytes ptrs z0 turns (d + L.nsize * unroll) (genStride L unroll ptrs z0 d mem)
    else mem

/-- `raid6_int$#_gen_syndrome`, unrolled `unroll` times; each turn advances by at least one byte. -/
def genSyndrome (unroll disks bytes : Nat) (ptrs : Nat → B) (mem : Mem B) : Mem B :=
  genLoop L unroll bytes ptrs (disks - 3) bytes 0 mem

/-! ## Recovery -/

def Mem.set (mem : Mem B) (b : B) (i : Nat) (v : U8) : Mem B := update mem b (update (mem b) i v)

/-- The loop over the bytes of `raid6_2data_recov`. -/
def recov2Loop (p q dp dq : B) (pbmul qmul : U8 → U8) : Nat → Nat → Mem B → Mem B
  | 0, _, mem => mem
  | bytes + 1, i, mem =>
    let px := mem p i ^^^ mem dp i
    let qx := qmul (mem q i ^^^ mem dq i)
    let db := pbmul px ^^^ qx
    let mem := Mem.set mem dq i db
    let mem := Mem.set mem dp i (db ^^^ px)
    recov2Loop p q dp dq pbmul qmul bytes (i + 1) mem

/-- `raid6_2data_recov`: the table of pointers and the memory that it leaves. -/
def raid62dataRecov (unroll : Nat) (zero : B) (disks bytes faila failb : Nat) (ptrs : Nat → B) (mem : Mem B) :
    (Nat → B) × Mem B :=
  let p := ptrs (disks - 2)
  let q := ptrs (disks - 1)
  let dp := ptrs faila
  let ptrs := update ptrs faila zero
  let ptrs := update ptrs (disks - 2) dp
  let dq := ptrs failb
  let ptrs := update ptrs failb zero
  let ptrs := update ptrs (disks - 1) dq
  let mem := genSyndrome L unroll disks bytes ptrs mem
  let ptrs := update ptrs faila dp
  let ptrs := update ptrs failb dq
  let ptrs := update ptrs (disks - 2) p
  let ptrs := update ptrs (disks - 1) q
  let pbmul := raid6Gfmul (raid6Gfexi (failb - faila))
  let qmul := raid6Gfmul (raid6Gfinv (raid6Gfexp faila ^^^ raid6Gfexp failb))
  (ptrs, recov2Loop p q dp dq pbmul qmul bytes 0 mem)

/-- The loop over the bytes of `raid6_datap_recov`. -/
def recovpLoop (p q dq : B) (qmul : U8 → U8) : Nat → Nat → Mem B → Mem B
  | 0, _, mem => mem
  | bytes + 1, i, mem =>
    let v := qmul (mem q i ^^^ mem dq i)
    let mem := Mem.set mem dq i v
    let mem := Mem.set mem p i (mem p i ^^^ v)
    recovpLoop p q dq qmul bytes (i + 1) mem

/-- `raid6_datap_recov` -/
def raid6DatapRecov (unroll : Nat) (zero : B) (disks bytes faila : Nat) (ptrs : Nat → B) (mem : Mem B) :
    (Nat → B) × Mem B :=
  let p := ptrs (disks - 2)
  let q := ptrs (disks - 1)
  let dq := ptrs faila
  let ptrs := update ptrs faila zero
  let ptrs := update ptrs (disks - 1) dq
  let mem := genSyndrome L unroll disks bytes ptrs mem
  let ptrs := update ptrs faila dq
  let ptrs := update ptrs (disks - 1) q
  let qmul := raid6Gfmul (raid6Gfinv (raid6Gfexp faila))
  (ptrs, recovpLoop p q dq qmul bytes 0 mem)

end Program

/-! ## Words are doubled byte by byte -/

variable {L : Layout}

theorem pack_const (x : U8) : ∀ n : Nat, pack n (fun _ => x) = x.toNat * ones n := by
  intro n
  induction n with
  | zero => rfl
  | succ n ih =>
    rw [pack, ih, ones]
    ring

theorem nbytes_eq (x : U8) : nbytes L x.toNat = L.word fun _ => x := by
  rw [nbytes, Layout.word, pack_const]

/-- The bytes of a number, doubled, with a carry into the lowest one that the mask removes. -/
theorem pack_shl : ∀ (n : Nat) (f : Nat → U8) (c : Nat), c < 2 →
    (2 * pack n f + c) &&& pack n (fun _ => 0xfe#8) = pack n fun j => f j <<< 1 := by
  have hbyte : ∀ (b : U8), ∀ c < 2, ((2 * b.toNat + c) % 256) &&& 254 = (b <<< 1).toNat := by decide +kernel
  intro n
  induction n with
  | zero => intro f c _; simp only [pack, Nat.and_zero]
  | succ n ih =>
    intro f c hc
    have hsplit : 2 * pack (n + 1) f + c = (2 * (f 0).toNat + c) % 256 +
        256 * (2 * pack n (fun j => f (j + 1)) + (2 * (f 0).toNat + c) / 256) := by
      rw [pack]
      omega
    have hlt : (2 * (f 0).toNat + c) % 256 &&& (254#8).toNat < 2 ^ 8 := Nat.and_lt_two_pow _ (by decide)
    rw [hsplit, pack, pack, bitwise_lanes Nat.testBit_and _ _ (by omega) (by decide) hlt, ih _ _ (by omega)]
    congr 1
    exact hbyte (f 0) c hc

theorem shlbyte_word (f : Nat → U8) : shlbyte L (L.word f) = L.word fun j => f j <<< 1 := by
  have hn : nbytes L 0xfe = L.word fun _ => 0xfe#8 := nbytes_eq 0xfe#8
  apply BitVec.eq_of_toNat_eq
  rw [shlbyte, hn, BitVec.toNat_and, BitVec.toNat_shiftLeft, toNat_word, toNat_word, toNat_word,
    two_pow_nsize]
  rw [← pack_shl L.nsize (fun j => f (L.lane j)) 0 (by omega), Nat.add_zero, Nat.shiftLeft_eq, Nat.pow_one,
    Nat.mul_comm, ← two_pow_nsize]
  -- what is shifted out at the top is not in the mask either
  have hm : pack L.nsize (fun _ => 0xfe#8) < 2 ^ (8 * L.nsize) := by rw [two_pow_nsize]; exact pack_lt _ _
  rw [← Nat.mod_eq_of_lt (Nat.and_lt_two_pow (2 * pack L.nsize fun j => f (L.lane j)) hm),
    Nat.and_mod_two_pow,
    Nat.mod_eq_of_lt hm]

/-- The byte that `MASK` makes. -/
def maskByte (b : U8) : U8 := if b &&& 0x80#8 ≠ 0#8 then 0xff#8 else 0#8

theorem mask_word (f : Nat → U8) : mask L (L.word f) = L.word fun j => maskByte (f j) := by
  have hn : nbytes L 0x80 = L.word fun _ => 0x80#8 := nbytes_eq 0x80#8
  have hhigh : ∀ b : U8, (b &&& 0x80#8).toNat = 128 * (b >>> 7).toNat := by decide +kernel
  have hmask : ∀ b : U8, (maskByte b).toNat = 255 * (b >>> 7).toNat := by decide +kernel
  have hv : (L.word f &&& nbytes L 0x80).toNat = 128 * pack L.nsize fun j => f (L.lane j) >>> 7 := by
    rw [hn, word_and, toNat_word]
    exact pack_mul 128 _ _ _ fun j => hhigh _
  have hr : pack L.nsize (fun j => maskByte (f (L.lane j))) = 255 * pack L.nsize fun j =>
    f (L.lane j) >>> 7 :=
    pack_mul 255 _ _ _ fun j => hmask _
  have hlt := pack_lt L.nsize fun j => maskByte (f (L.lane j))
  apply BitVec.eq_of_toNat_eq
  rw [mask, BitVec.toNat_sub, BitVec.toNat_shiftLeft, BitVec.toNat_ushiftRight, hv, toNat_word,
    two_pow_nsize, hr,
    Nat.shiftLeft_eq, Nat.shiftRight_eq_div_pow]
  rw [hr] at hlt
  generalize pack L.nsize (fun j => f (L.lane j) >>> 7) = H at hlt ⊢
  generalize 256 ^ L.nsize = N at hlt ⊢
  -- 256 H - H, where only 256 H may be reduced
  rw [show 128 * H / 2 ^ 7 = H by omega, Nat.add_mod_mod, show N - H + 128 * H * 2 ^ 1 = 255 * H + N by omega,
    Nat.add_mod_right, Nat.mod_eq_of_lt hlt]

/-- **The words are doubled byte by byte.** -/
theorem double_word (f : Nat → U8) :
    shlbyte L (L.word f) ^^^ (mask L (L.word f) &&& nbytes L 0x1d) = L.word fun j => xtime (f j) := by
  have hn : nbytes L 0x1d = L.word fun _ => 0x1d#8 := nbytes_eq 0x1d#8
  rw [shlbyte_word, mask_word, hn, word_and, word_xor]
  congr 1
  funext j
  unfold xtime maskByte
  split
  · rfl
  · rfl

/-! ## The syndromes are the parities of the bytes -/

section Syndrome
variable {B : Type} {ptrs : Nat → B} {mem : Mem B}

/-- Byte `i` of the data disks. -/
def column (ptrs : Nat → B) (mem : Mem B) (i : Nat) : Nat → Gf := fun z => ⟨mem (ptrs z) i⟩

/-- Byte `i` of the parity for `g`, of `n` data disks. -/
def parityByte (g : Gf) (n : Nat) (ptrs : Nat → B) (mem : Mem B) (i : Nat) : U8 :=
    (parity g (column ptrs mem i) n).byte

theorem xtime_byte (x : Gf) : xtime x.byte = (gen * x).byte := by
  rw [mul_comm, Gf.byte_mul]
  exact (gfmul_two x.byte).symm

theorem wordLoop_eq (off z : Nat) : ∀ fp fq : Nat → U8, wordLoop L ptrs mem off z (L.word fp) (L.word fq) =
      (L.word fun j => (horner 1 (column ptrs mem (off + j)) z ⟨fp j⟩).byte,
       L.word fun j => (horner gen (column ptrs mem (off + j)) z ⟨fq j⟩).byte) := by
  induction z with
  | zero => intro fp fq; rfl
  | succ z ih =>
    intro fp fq
    rw [wordLoop, double_word]
    simp only [Layout.load, word_xor]
    rw [ih]
    have hp : ∀ j, (⟨fp j ^^^ mem (ptrs z) (off + j)⟩ : Gf) = 1 * ⟨fp j⟩ + column ptrs mem (off + j) z := by
      intro j
      rw [one_mul]
      rfl
    have hq : ∀ j,
      (⟨xtime (fq j) ^^^ mem (ptrs z) (off + j)⟩ : Gf) = gen * ⟨fq j⟩ + column ptrs mem (off + j) z := by
      intro j
      apply Gf.ext
      rw [Gf.byte_add, ← xtime_byte]
      rfl
    simp only [hp, hq, horner]

theorem syndromeWord_eq (z0 off : Nat) : syndromeWord L ptrs mem z0 off =
    (L.word fun j => parityByte 1 (z0 + 1) ptrs mem (off + j),
     L.word fun j => parityByte gen (z0 + 1) ptrs mem (off + j)) := by
  unfold syndromeWord Layout.load parityByte
  rw [wordLoop_eq]
  simp only [← horner_top]
  rfl

theorem storeWords_eq (f G : Nat → U8) (d : Nat) : ∀ n : Nat,
    storeWords L f d (fun k => L.word fun j => G (d + L.nsize * k + j)) n =
      fun i => if d ≤ i ∧ i < d + L.nsize * n then G i else f i := by
  intro n
  induction n with
  | zero =>
    funext i
    simp [storeWords]
  | succ n ih =>
    funext i
    rw [storeWords, ih, store_word, Nat.mul_succ]
    beta_reduce
    by_cases h1 : d + L.nsize * n ≤ i ∧ i < d + L.nsize * n + L.nsize
    · rw [if_pos h1, if_pos (by omega)]
      congr 1
      omega
    · rw [if_neg h1]
      by_cases h₂ : d ≤ i ∧ i < d + L.nsize * n
      · rw [if_pos h₂, if_pos (by omega)]
      · rw [if_neg h₂, if_neg (by omega)]

variable {n : Nat}

theorem parityByte_congr {g : Gf} {i : Nat} {ptrs' : Nat → B} {mem' : Mem B}
    (h : ∀ z < n, mem' (ptrs' z) i = mem (ptrs z) i) :
    parityByte g n ptrs' mem' i = parityByte g n ptrs mem i := by
  unfold parityByte parity
  congr 1
  refine Finset.sum_congr rfl fun z hz => ?_
  rw [column, column, h z (Finset.mem_range.mp hz)]

variable [DecidableEq B]

/-- The memory after the parities of the bytes from `d` to `e` have been stored in `p` and `q`. -/
def withParities (n : Nat) (ptrs : Nat → B) (d e : Nat) (mem : Mem B) : Mem B := fun b i =>
  if d ≤ i ∧ i < e then
    if b = ptrs (n + 1) then parityByte gen n ptrs mem i
    else if b = ptrs n then parityByte 1 n ptrs mem i else mem b i
  else mem b i

variable {unroll d : Nat}

theorem genStride_eq {z0 : Nat} (hpq : ptrs (z0 + 1) ≠ ptrs (z0 + 2)) :
    genStride L unroll ptrs z0 d mem = withParities (z0 + 1) ptrs d (d + L.nsize * unroll) mem := by
  funext b i
  unfold genStride withParities
  simp only [syndromeWord_eq, storeWords_eq]
  by_cases hq : b = ptrs (z0 + 2)
  · rw [hq, update_self, update_of_ne hpq.symm, if_pos rfl]
  · rw [update_of_ne hq, if_neg hq]
    by_cases hp : b = ptrs (z0 + 1)
    · rw [hp, update_self, if_pos rfl]
    · rw [update_of_ne hp, if_neg hp, ite_self]

/-- The two parities are kept apart from each other and from the data. -/
structure Apart (n : Nat) (ptrs : Nat → B) : Prop where
  parities : ptrs n ≠ ptrs (n + 1)
  data : ∀ z < n, ptrs z ≠ ptrs n ∧ ptrs z ≠ ptrs (n + 1)

theorem Apart.withParities_data {e z i : Nat} (h : Apart n ptrs) (hz : z < n) :
    withParities n ptrs d e mem (ptrs z) i = mem (ptrs z) i := by
  unfold withParities
  rw [if_neg (h.data z hz).1, if_neg (h.data z hz).2, ite_self]

/-- Storing parities leaves the parities of the data as they are. -/
theorem Apart.withParities_append {e e' : Nat} (h : Apart n ptrs) (hd : d ≤ e) (he : e ≤ e') :
    withParities n ptrs e e' (withParities n ptrs d e mem) = withParities n ptrs d e' mem := by
  have hpar : ∀ g i, parityByte g n ptrs (withParities n ptrs d e mem) i = parityByte g n ptrs mem i :=
    fun g i => parityByte_congr fun z hz => h.withParities_data hz
  funext b i
  rw [withParities, hpar, hpar]
  unfold withParities
  by_cases h1 : e ≤ i ∧ i < e'
  · rw [if_pos h1, if_pos (show d ≤ i ∧ i < e' by omega), if_neg (show ¬ (d ≤ i ∧ i < e) by omega)]
  · rw [if_neg h1]
    by_cases h₂ : d ≤ i ∧ i < e
    · rw [if_pos h₂, if_pos (show d ≤ i ∧ i < e' by omega)]
    · rw [if_neg h₂, if_neg (show ¬ (d ≤ i ∧ i < e') by omega)]

theorem genLoop_eq {z0 : Nat} (h : Apart (z0 + 1) ptrs) (hpos : 0 < L.nsize * unroll) (m : Nat) :
    ∀ (turns d : Nat) (mem : Mem B), L.nsize * unroll * m ≤ turns →
      genLoop L unroll (d + L.nsize * unroll * m) ptrs z0 turns d mem =
        withParities (z0 + 1) ptrs d (d + L.nsize * unroll * m) mem := by
  induction m with
  | zero =>
    intro turns d mem _
    have hnone : withParities (z0 + 1) ptrs d (d + L.nsize * unroll * 0) mem = mem := by
      funext b i
      simp [withParities]
    rw [hnone]
    cases turns with
    | zero => rfl
    | succ turns => simp [genLoop]
  | succ m ih =>
    intro turns d mem ht
    rw [Nat.mul_succ] at ht ⊢
    obtain ⟨turns, rfl⟩ : ∃ t, turns = t + 1 := ⟨turns - 1, by omega⟩
    rw [genLoop, if_pos (by omega), genStride_eq h.parities,
      show d + (L.nsize * unroll * m + L.nsize * unroll) = d + L.nsize * unroll + L.nsize * unroll * m by
        omega,
      ih turns _ _ (by omega)]
    exact h.withParities_append (by omega) (by omega)

/-- **`gen_syndrome`** stores the two parities of the bytes, and changes nothing else. -/
theorem genSyndrome_eq {m : Nat} (h : Apart n ptrs) (hn : 0 < n) (hpos : 0 < L.nsize * unroll) :
    genSyndrome L unroll (n + 2) (L.nsize * unroll * m) ptrs mem =
      withParities n ptrs 0 (L.nsize * unroll * m) mem := by
  obtain ⟨z0, rfl⟩ : ∃ z, n = z + 1 := ⟨n - 1, by omega⟩
  have hloop := genLoop_eq h hpos m (L.nsize * unroll * m) 0 mem le_rfl
  rw [Nat.zero_add] at hloop
  exact hloop

end Syndrome

/-! ## Recovery, byte by byte -/

section Recovery
variable {B : Type} {ptrs : Nat → B} {zero : B} {n : Nat}

/-- A loop that changes, at each offset, the bytes there by a function of the bytes there. -/
theorem loop_columns {f : Nat → Nat → Mem B → Mem B} {u : (B → U8) → B → U8} (h0 : ∀ i mem, f 0 i mem = mem)
    (hs : ∀ n i mem,
      f (n + 1) i mem = f n (i + 1) fun b j => if j = i then u (fun b => mem b j) b else mem b j) :
    ∀ (n i : Nat) (mem : Mem B),
      f n i mem = fun b j => if i ≤ j ∧ j < i + n then u (fun b => mem b j) b else mem b j := by
  intro n
  induction n with
  | zero =>
    intro i mem
    funext b j
    simp [h0]
  | succ n ih =>
    intro i mem
    funext b j
    rw [hs, ih]
    beta_reduce
    by_cases hj : j = i
    · simp [hj]
    · simp only [if_neg hj]
      by_cases h1 : i + 1 ≤ j ∧ j < i + 1 + n
      · rw [if_pos h1, if_pos (by omega)]
      · rw [if_neg h1, if_neg (by omega)]

/-- `n` data disks, P and Q: their buffers are different ones, and none is the zero page. -/
structure Stripe (n : Nat) (ptrs : Nat → B) (zero : B) : Prop where
  inj : ∀ i j, i < n + 2 → j < n + 2 → ptrs i = ptrs j → i = j
  zero : ∀ i < n + 2, ptrs i ≠ zero

theorem Stripe.ne (h : Stripe n ptrs zero) {i j : Nat} (hij : i ≠ j := by omega) (hi : i < n + 2 := by omega)
    (hj : j < n + 2 := by omega) : ptrs i ≠ ptrs j := fun e => hij (h.inj i j hi hj e)

theorem Stripe.apart (h : Stripe n ptrs zero) : Apart n ptrs := ⟨h.ne, fun z hz => ⟨h.ne, h.ne⟩⟩

variable [DecidableEq B]

theorem Mem.set_apply (mem : Mem B) (b : B) (i : Nat) (v : U8) (b' : B) (j : Nat) :
    Mem.set mem b i v b' j = if j = i then if b' = b then v else mem b' j else mem b' j := by
  unfold Mem.set
  by_cases hb : b' = b
  · subst hb
    rw [update_self, update_apply, if_pos rfl]
  · rw [update_of_ne hb, if_neg hb, ite_self]

theorem recov2Loop_eq {p q dp dq : B} {pbmul qmul : U8 → U8} (bytes i : Nat) (mem : Mem B) :
    recov2Loop p q dp dq pbmul qmul bytes i mem = fun b j =>
      if i ≤ j ∧ j < i + bytes then
        if b = dp then
          (pbmul (mem p j ^^^ mem dp j) ^^^ qmul (mem q j ^^^ mem dq j)) ^^^ (mem p j ^^^ mem dp j)
        else if b = dq then pbmul (mem p j ^^^ mem dp j) ^^^ qmul (mem q j ^^^ mem dq j)
        else mem b j
      else mem b j := by
  refine loop_columns (u := fun c b =>
    if b = dp then (pbmul (c p ^^^ c dp) ^^^ qmul (c q ^^^ c dq)) ^^^ (c p ^^^ c dp)
    else if b = dq then pbmul (c p ^^^ c dp) ^^^ qmul (c q ^^^ c dq)
      else c b) (fun _ _ => rfl) (fun n i mem => ?_)
    bytes i mem
  rw [recov2Loop]
  congr 1
  funext b j
  simp only [Mem.set_apply]
  by_cases hj : j = i
  · rw [if_pos hj, if_pos hj, if_pos hj, hj]
  · rw [if_neg hj, if_neg hj, if_neg hj]

theorem recovpLoop_eq {p q dq : B} {qmul : U8 → U8} (hd : p ≠ dq) (bytes i : Nat) (mem : Mem B) :
    recovpLoop p q dq qmul bytes i mem = fun b j =>
      if i ≤ j ∧ j < i + bytes then
        if b = p then mem p j ^^^ qmul (mem q j ^^^ mem dq j)
        else if b = dq then qmul (mem q j ^^^ mem dq j)
        else mem b j
      else mem b j := by
  refine loop_columns (u := fun c b =>
    if b = p then c p ^^^ qmul (c q ^^^ c dq) else if b = dq then qmul (c q ^^^ c dq)
      else c b) (fun _ _ => rfl)
    (fun n i mem => ?_) bytes i mem
  rw [recovpLoop]
  congr 1
  funext b j
  simp only [Mem.set_apply]
  by_cases hj : j = i
  · rw [if_pos hj, if_pos hj, if_pos hj, hj, if_pos trivial, if_neg hd]
  · rw [if_neg hj, if_neg hj, if_neg hj]

variable {d d' : Nat → Gf}

/-- **Two lost data bytes**: from the differences of the parities of the columns `d` and `d'`, which
    differ at `a` and `b`, the code computes the differences of the columns there. -/
theorem recover2_byte (hab : a < b) (hb : b < n) (hn : n ≤ 255) (h : ∀ z < n, z ≠ a → z ≠ b → d' z = d z) :
    raid6Gfmul (raid6Gfexi (b - a)) ((parity 1 d n).byte ^^^ (parity 1 d' n).byte) ^^^
      raid6Gfmul (raid6Gfinv (raid6Gfexp a ^^^ raid6Gfexp b))
      ((parity gen d n).byte ^^^ (parity gen d' n).byte) =
    (d b + d' b).byte := by
  have ha : raid6Gfexp a = (gen ^ a).byte := congrArg Gf.byte (gfexp_eq a (by omega))
  have hb' : raid6Gfexp b = (gen ^ b).byte := congrArg Gf.byte (gfexp_eq b (by omega))
  have hba : raid6Gfexp (b - a) = (gen ^ (b - a)).byte := congrArg Gf.byte (gfexp_eq (b - a) (by omega))
  have hu := gfinv_mul (gen_pow_add_ne_zero hab (by omega))
  have hv := gfinv_mul (gen_pow_add_one_ne_zero (by omega : 0 < b - a) (by omega))
  rw [← recover_two Gf.two_eq_zero hab hb h hu hv, raid6Gfexi, ha, hb', hba]
  simp only [Gf.byte_add, Gf.byte_mul, Gf.byte_one, raid6Gfmul]

/-- The sum of the plain parities is the sum of the two differences. -/
theorem parity_two_byte (hab : a < b) (hb : b < n) (h : ∀ z < n, z ≠ a → z ≠ b → d' z = d z) :
    (parity 1 d n).byte ^^^ (parity 1 d' n).byte = (d a + d' a + (d b + d' b)).byte := by
  have h₂ := parity_two Gf.two_eq_zero (g := 1) hab hb h
  rw [one_pow, one_pow, one_mul, one_mul] at h₂
  rw [← h₂]
  rfl

/-- **One lost data byte.** -/
theorem recover1_byte (ha : a < n) (hn : n ≤ 255) (h : ∀ z < n, z ≠ a → d' z = d z) :
    raid6Gfmul (raid6Gfinv (raid6Gfexp a))
    ((parity gen d n).byte ^^^ (parity gen d' n).byte) = (d a + d' a).byte := by
  have he : raid6Gfexp a = (gen ^ a).byte := congrArg Gf.byte (gfexp_eq a (by omega))
  have hu := gfinv_mul (gen_pow_ne_zero (by omega : a < 255))
  rw [← recover_one Gf.two_eq_zero ha h hu, he]
  simp only [Gf.byte_add, Gf.byte_mul, raid6Gfmul]

theorem parity_one_byte (ha : a < n) (h : ∀ z < n, z ≠ a → d' z = d z) :
    (parity 1 d' n).byte ^^^ (d a + d' a).byte = (parity 1 d n).byte := by
  have h1 := parity_one Gf.two_eq_zero (g := 1) ha h
  rw [one_pow, one_mul] at h1
  rw [← h1, ← Gf.byte_add]
  congr 1
  linear_combination parity 1 d' n * Gf.two_eq_zero

/-! ## The two recovery functions -/

/-- The table while `raid6_2data_recov` computes the syndromes. -/
def table2 (ptrs : Nat → B) (zero : B) (n a b : Nat) : Nat → B := fun z =>
  if z = n + 1 then ptrs b else if z = n then ptrs a else if z = a ∨ z = b then zero else ptrs z

/-- The table while `raid6_datap_recov` computes the syndromes. -/
def tablep (ptrs : Nat → B) (zero : B) (n a : Nat) : Nat → B := fun z =>
  if z = n + 1 then ptrs a else if z = a then zero else ptrs z

variable {bytes : Nat} {mem : Mem B}

theorem raid62dataRecov_eq {unroll : Nat} (hab : a < b) (hb : b < n) :
    raid62dataRecov L unroll zero (n + 2) bytes a b ptrs mem =
      (ptrs, recov2Loop (ptrs n) (ptrs (n + 1)) (ptrs a) (ptrs b) (raid6Gfmul (raid6Gfexi (b - a)))
        (raid6Gfmul (raid6Gfinv (raid6Gfexp a ^^^ raid6Gfexp b))) bytes 0
        (genSyndrome L unroll (n + 2) bytes (table2 ptrs zero n a b) mem)) := by
  have hdq : update (update ptrs a zero) n (ptrs a) b = ptrs b := by
    rw [update_of_ne (by omega), update_of_ne (by omega)]
  have htable : update (update (update (update ptrs a zero) n (ptrs a)) b zero)
      (n + 1) (ptrs b) = table2 ptrs zero n a b := by
    funext z
    simp only [update_apply, table2]
    split_ifs <;> first | rfl | omega
  have hback : update (update (update (update (table2 ptrs zero n a b) a (ptrs a)) b
      (ptrs b)) n (ptrs n)) (n + 1) (ptrs (n + 1)) = ptrs := by
    funext z
    simp only [update_apply, table2]
    split_ifs <;> first | rfl | omega | (congr 1; omega)
  unfold raid62dataRecov
  simp only [show n + 2 - 2 = n by omega, show n + 2 - 1 = n + 1 by omega, hdq, htable, hback]

theorem raid6DatapRecov_eq {unroll : Nat} : raid6DatapRecov L unroll zero (n + 2) bytes a ptrs mem =
      (ptrs, recovpLoop (ptrs n) (ptrs (n + 1)) (ptrs a) (raid6Gfmul (raid6Gfinv (raid6Gfexp a))) bytes 0
        (genSyndrome L unroll (n + 2) bytes (tablep ptrs zero n a) mem)) := by
  have htable : update (update ptrs a zero) (n + 1) (ptrs a) = tablep ptrs zero n a := by
    funext z
    simp only [update_apply, tablep]
  have hback : update (update (tablep ptrs zero n a) a (ptrs a)) (n + 1) (ptrs (n + 1)) = ptrs := by
    funext z
    simp only [update_apply, tablep]
    split_ifs <;> first | rfl | omega | (congr 1; omega)
  unfold raid6DatapRecov
  simp only [show n + 2 - 2 = n by omega, show n + 2 - 1 = n + 1 by omega, htable, hback]

omit [DecidableEq B] in
theorem table2_at (hab : a < b) (hb : b < n) : table2 ptrs zero n a b n = ptrs a ∧
    table2 ptrs zero n a b (n + 1) = ptrs b ∧ table2 ptrs zero n a b a = zero ∧
    table2 ptrs zero n a b b = zero ∧
    ∀ z < n, z ≠ a → z ≠ b → table2 ptrs zero n a b z = ptrs z := by
  grind [table2]

omit [DecidableEq B] in
theorem table2_apart (h : Stripe n ptrs zero) (hab : a < b) (hb : b < n) :
    Apart n (table2 ptrs zero n a b) := by
  obtain ⟨hn, hn', _⟩ := @table2_at B ptrs zero n a b hab hb
  refine ⟨?_, fun z hz => ?_⟩ <;> rw [hn, hn']
  · exact h.ne
  · rw [table2, if_neg (by omega), if_neg (by omega)]
    split
    · exact ⟨(h.zero a (by omega)).symm, (h.zero b (by omega)).symm⟩
    · exact ⟨h.ne, h.ne⟩

omit [DecidableEq B] in
theorem tablep_at (ha : a < n) : tablep ptrs zero n a n = ptrs n ∧ tablep ptrs zero n a (n + 1) = ptrs a ∧
    tablep ptrs zero n a a = zero ∧ ∀ z < n, z ≠ a → tablep ptrs zero n a z = ptrs z := by
  grind [tablep]

omit [DecidableEq B] in
theorem tablep_apart (h : Stripe n ptrs zero) (ha : a < n) : Apart n (tablep ptrs zero n a) := by
  obtain ⟨hn, hn', _⟩ := @tablep_at B ptrs zero n a ha
  refine ⟨?_, fun z hz => ?_⟩ <;> rw [hn, hn']
  · exact h.ne
  · rw [tablep, if_neg (by omega)]
    split
    · exact ⟨(h.zero n (by omega)).symm, (h.zero a (by omega)).symm⟩
    · exact ⟨h.ne, h.ne⟩

/-- P and Q hold the parities of the data, in the first `bytes` bytes. -/
def HasParities (n bytes : Nat) (ptrs : Nat → B) (mem : Mem B) : Prop :=
  ∀ i < bytes, mem (ptrs n) i = parityByte 1 n ptrs mem i ∧ mem (ptrs (n + 1)) i = parityByte gen n ptrs mem i

/-- What `gen_syndrome` leaves in the buffers, in the bytes it works on. -/
theorem withParities_at (mem : Mem B) {i : Nat} {p q : B} (hp : ptrs n = p) (hq : ptrs (n + 1) = q)
    (hpq : p ≠ q)
    (hi : i < bytes) :
    withParities n ptrs 0 bytes mem p i = parityByte 1 n ptrs mem i ∧
    withParities n ptrs 0 bytes mem q i = parityByte gen n ptrs mem i ∧
    ∀ c, c ≠ p → c ≠ q → withParities n ptrs 0 bytes mem c i = mem c i := by
  subst hp hq
  have hin : 0 ≤ i ∧ i < bytes := ⟨Nat.zero_le i, hi⟩
  refine ⟨?_, ?_, fun c hp hq => ?_⟩
  · rw [withParities, if_pos hin, if_neg hpq, if_pos rfl]
  · rw [withParities, if_pos hin, if_pos rfl]
  · rw [withParities, if_pos hin, if_neg hq, if_neg hp]

theorem Apart.hasParities (h : Apart n ptrs) :
    HasParities n bytes ptrs (withParities n ptrs 0 bytes mem) := by
  intro i hi
  have hpar : ∀ g, parityByte g n ptrs (withParities n ptrs 0 bytes mem) i = parityByte g n ptrs mem i :=
    fun g => parityByte_congr fun z hz => h.withParities_data hz
  rw [hpar, hpar]
  have hat := withParities_at mem rfl rfl h.parities hi
  exact ⟨hat.1, hat.2.1⟩

variable {unroll m a b : Nat} {mem₁ mem₂ : Mem B}

/-- **What `raid6_2data_recov` leaves**: the lost bytes, plus the bytes of the zero page. -/
theorem recov2_bytes (h : Stripe n ptrs zero) (hn : n ≤ 255) (hpos : 0 < L.nsize * unroll) (hab : a < b)
    (hb : b < n)
    (hpar : HasParities n (L.nsize * unroll * m) ptrs mem₁)
    (hlost : ∀ c, c ≠ ptrs a → c ≠ ptrs b → mem₂ c = mem₁ c) :
    raid62dataRecov L unroll zero (n + 2) (L.nsize * unroll * m) a b ptrs mem₂ = (ptrs, fun c i =>
      if i < L.nsize * unroll * m then
        if c = ptrs a then mem₁ (ptrs a) i ^^^ mem₁ zero i
        else if c = ptrs b then mem₁ (ptrs b) i ^^^ mem₁ zero i
        else mem₁ c i
      else mem₂ c i) := by
  have hpq : ptrs a ≠ ptrs b := h.ne
  have hz : mem₂ zero = mem₁ zero := hlost zero (h.zero a (by omega)).symm (h.zero b (by omega)).symm
  obtain ⟨ht, ht', hta, htb, hkept⟩ := @table2_at B ptrs zero n a b hab hb
  rw [raid62dataRecov_eq hab hb, genSyndrome_eq (table2_apart h hab hb) (by omega) hpos, recov2Loop_eq]
  congr 1
  funext c i
  by_cases hi : i < L.nsize * unroll * m
  · -- the columns of the data and of what the syndromes were computed from
    have hcol : ∀ z < n, z ≠ a → z ≠ b → column (table2 ptrs zero n a b) mem₂ i z = column ptrs mem₁ i z := by
      intro z hz hza hzb
      rw [column, column, hkept z hz hza hzb, hlost _ (h.ne hza) (h.ne hzb)]
    have ha' : column (table2 ptrs zero n a b) mem₂ i a = ⟨mem₁ zero i⟩ := by
      rw [column, hta, hz]
    have hb' : column (table2 ptrs zero n a b) mem₂ i b = ⟨mem₁ zero i⟩ := by
      rw [column, htb, hz]
    -- what the loop reads
    obtain ⟨hdp, hdq, hkeep⟩ := withParities_at mem₂ ht ht' hpq hi
    obtain ⟨hp, hq⟩ := hpar i hi
    rw [if_pos (by omega), if_pos hi, hdp, hdq, hkeep _ h.ne h.ne, hkeep _ h.ne h.ne, hlost _ h.ne h.ne,
      hlost _ h.ne h.ne, hp, hq]
    unfold parityByte
    rw [recover2_byte hab hb hn hcol, parity_two_byte hab hb hcol, ha', hb']
    split_ifs with hca hcb
    · have hcancel : ∀ x y : Gf, y + (x + y) = x := fun x y => by linear_combination y * Gf.two_eq_zero
      rw [← Gf.byte_add, hcancel]
      rfl
    · rfl
    · rw [hkeep c hca hcb, hlost c hca hcb]
  · rw [if_neg (by omega), if_neg hi, withParities, if_neg (by omega)]

/-- **What `raid6_datap_recov` leaves**: the lost data bytes, plus the bytes of the zero page, and P. -/
theorem recovp_bytes (h : Stripe n ptrs zero) (hn : n ≤ 255) (hpos : 0 < L.nsize * unroll) (ha : a < n)
    (hpar : HasParities n (L.nsize * unroll * m) ptrs mem₁)
    (hlost : ∀ c, c ≠ ptrs a → c ≠ ptrs n → mem₂ c = mem₁ c) :
    raid6DatapRecov L unroll zero (n + 2) (L.nsize * unroll * m) a ptrs mem₂ = (ptrs, fun c i =>
      if i < L.nsize * unroll * m then
        if c = ptrs a then mem₁ (ptrs a) i ^^^ mem₁ zero i else mem₁ c i
      else mem₂ c i) := by
  have hpa : ptrs n ≠ ptrs a := h.ne
  have hz : mem₂ zero = mem₁ zero := hlost zero (h.zero a (by omega)).symm (h.zero n (by omega)).symm
  obtain ⟨ht, ht', hta, hkept⟩ := @tablep_at B ptrs zero n a ha
  rw [raid6DatapRecov_eq, genSyndrome_eq (tablep_apart h ha) (by omega) hpos, recovpLoop_eq hpa]
  congr 1
  funext c i
  by_cases hi : i < L.nsize * unroll * m
  · have hcol : ∀ z < n, z ≠ a → column (tablep ptrs zero n a) mem₂ i z = column ptrs mem₁ i z := by
      intro z hz hza
      rw [column, column, hkept z hz hza, hlost _ (h.ne hza) h.ne]
    have ha' : column (tablep ptrs zero n a) mem₂ i a = ⟨mem₁ zero i⟩ := by
      rw [column, hta, hz]
    obtain ⟨hdp, hdq, hkeep⟩ := withParities_at mem₂ ht ht' hpa hi
    obtain ⟨hp, hq⟩ := hpar i hi
    rw [if_pos (by omega), if_pos hi, hdp, hdq, hkeep _ h.ne h.ne, hlost _ h.ne h.ne, hq]
    unfold parityByte
    rw [recover1_byte ha hn hcol, parity_one_byte ha hcol, ha']
    by_cases hcn : c = ptrs n
    · rw [if_pos hcn, if_neg (by rw [hcn]; exact hpa), hcn]
      exact hp.symm
    · rw [if_neg hcn]
      by_cases hca : c = ptrs a
      · rw [if_pos hca, if_pos hca]
        rfl
      · rw [if_neg hca, if_neg hca, hkeep c hcn hca, hlost c hca hcn]
  · rw [if_neg (by omega), if_neg hi, withParities, if_neg (by omega)]

/-- **RAID-6 recovers from two failures**, in lengths up to that of the zero page.  For every word size,
    byte order and unrolling, with P and Q made by `gen_syndrome` and ANY contents of the two lost
    blocks: `raid6_2data_recov` rebuilds the two data blocks, and `raid6_datap_recov` the data block and
    P; no other block is changed, and the table of pointers is as before. -/
theorem double_failure_recovery {pageSize : Nat} {mem : Mem B} (hL : 0 < L.nsize) (hu : 0 < unroll)
    (h2 : 2 ≤ n)
    (hn : n ≤ 255) (hs : Stripe n ptrs zero) (hz : ∀ i < pageSize, mem zero i = 0#8)
    (hlen : L.nsize * unroll * m ≤ pageSize)
    (hmem : mem₁ = genSyndrome L unroll (n + 2) (L.nsize * unroll * m) ptrs mem) :
    (∀ a b mem₂, a < b → b < n → (∀ c, c ≠ ptrs a → c ≠ ptrs b → mem₂ c = mem₁ c) →
      ∃ mem₃, raid62dataRecov L unroll zero (n + 2) (L.nsize * unroll * m) a b ptrs mem₂ = (ptrs, mem₃) ∧
        (∀ i < L.nsize * unroll * m, mem₃ (ptrs a) i = mem (ptrs a) i ∧ mem₃ (ptrs b) i = mem (ptrs b) i) ∧
        ∀ c, c ≠ ptrs a → c ≠ ptrs b → mem₃ c = mem₁ c) ∧
    (∀ a mem₂, a < n → (∀ c, c ≠ ptrs a → c ≠ ptrs n → mem₂ c = mem₁ c) →
      ∃ mem₃, raid6DatapRecov L unroll zero (n + 2) (L.nsize * unroll * m) a ptrs mem₂ = (ptrs, mem₃) ∧
        (∀ i < L.nsize * unroll * m, mem₃ (ptrs a) i = mem (ptrs a) i ∧ mem₃ (ptrs n) i = mem₁ (ptrs n) i) ∧
        ∀ c, c ≠ ptrs a → c ≠ ptrs n → mem₃ c = mem₁ c) := by
  have hpos : 0 < L.nsize * unroll := Nat.mul_pos hL hu
  rw [genSyndrome_eq hs.apart (by omega) hpos] at hmem
  have hpar : HasParities n (L.nsize * unroll * m) ptrs mem₁ := hmem ▸ hs.apart.hasParities
  have hdata : ∀ z < n, mem₁ (ptrs z) = mem (ptrs z) := by
    intro z hz
    rw [hmem]
    exact funext fun i => hs.apart.withParities_data hz
  have hzero : ∀ i < L.nsize * unroll * m, mem₁ zero i = 0#8 := by
    intro i hi
    rw [hmem, withParities, if_neg (hs.zero n (by omega)).symm, if_neg (hs.zero (n + 1) (by omega)).symm,
      ite_self]
    exact hz i (by omega)
  constructor
  · intro a b mem₂ hab hb hlost
    refine ⟨_, recov2_bytes hs hn hpos hab hb hpar hlost, fun i hi => ⟨?_, ?_⟩,
      fun c hca hcb => funext fun i => ?_⟩
    · rw [if_pos hi, if_pos rfl, hzero i hi, BitVec.xor_zero, hdata a (by omega)]
    · rw [if_pos hi, if_neg hs.ne, if_pos rfl, hzero i hi, BitVec.xor_zero, hdata b hb]
    · rw [if_neg hca, if_neg hcb, hlost c hca hcb, ite_self]
  · intro a mem₂ ha hlost
    refine ⟨_, recovp_bytes hs hn hpos ha hpar hlost, fun i hi => ⟨?_, ?_⟩,
      fun c hca hcn => funext fun i => ?_⟩
    · rw [if_pos hi, if_pos rfl, hzero i hi, BitVec.xor_zero, hdata a ha]
    · rw [if_pos hi, if_neg hs.ne]
    · rw [if_neg hca, hlost c hca hcn, ite_self]

end Recovery

/-! ## A stripe, and a stripe that is longer than the zero page -/

theorem stripe_four : Stripe 2 (fun i => i) 4 := ⟨fun i j _ _ h => h, fun i hi => by omega⟩

/-- Some data, and the zero page. -/
def sampleMem : Mem Nat := fun c i => if c = 4 then 0#8 else BitVec.ofNat 8 (c + i)

/-- Two disks of eight bytes, both overwritten. -/
theorem double_failure_recovery_sample : ∃ mem₃ : Mem Nat,
    (raid62dataRecov ⟨8, false⟩ 1 4 4 8 0 1 (fun i => i) fun c i =>
      if c = 0 ∨ c = 1 then 0xaa#8 else genSyndrome ⟨8, false⟩ 1 4 8 (fun i => i) sampleMem c i) =
        (fun i => i, mem₃) ∧
    ∀ i < 8, mem₃ 0 i = sampleMem 0 i ∧ mem₃ 1 i = sampleMem 1 i := by
  have hz : ∀ i < 8, sampleMem 4 i = 0#8 := fun i _ => if_pos rfl
  have h := double_failure_recovery (L := ⟨8, false⟩) (m := 1) (by decide) Nat.one_pos le_rfl (by omega)
    stripe_four hz le_rfl rfl
  obtain ⟨mem₃, he, hi, _⟩ := h.1 0 1
    (fun c i => if c = 0 ∨ c = 1 then 0xaa#8 else genSyndrome ⟨8, false⟩ 1 4 8 id sampleMem c i)
    Nat.one_pos (by omega) (fun c h0 h1 => funext fun i => if_neg (by omega))
  exact ⟨mem₃, he, hi⟩

/-- A zero page of 4096 bytes that is followed by a byte 1; all data are zero. -/
def pastMem : Mem Nat := fun c i => if c = 4 ∧ i = 4096 then 1#8 else 0#8

/-- **Past the zero page** the recovery reads what follows it in memory: the byte at that offset of the
    second lost block is rebuilt as 1. -/
theorem recovery_past_zero_page : (∀ i < 4096, pastMem 4 i = 0#8) ∧ Stripe 2 (fun i => i) 4 ∧
    (raid62dataRecov ⟨8, false⟩ 1 4 4 4104 0 1 (fun i => i)
      (genSyndrome ⟨8, false⟩ 1 4 4104 (fun i => i) pastMem)).2 1 4096 ≠ pastMem 1 4096 := by
  refine ⟨fun i hi => if_neg (by omega), stripe_four, ?_⟩
  have hgen : genSyndrome ⟨8, false⟩ 1 4 4104 (fun i => i) pastMem = withParities 2 (fun i =>
    i) 0 4104 pastMem :=
    genSyndrome_eq (m := 513) stripe_four.apart Nat.two_pos (by decide)
  have hpar : HasParities 2 4104 (fun i => i) (withParities 2 (fun i => i) 0 4104 pastMem) :=
    stripe_four.apart.hasParities
  have hrec :=
    recov2_bytes (L := ⟨8, false⟩) (m := 513) stripe_four (by omega) (by decide : 0 < 8 * 1) Nat.one_pos
    (Nat.lt_succ_self 1) hpar fun c _ _ => rfl
  have hpast := congrFun (congrFun (congrArg Prod.snd hrec) 1) 4096
  rw [hgen, show (raid62dataRecov ⟨8, false⟩ 1 4 4 4104 0 1 (fun i => i)
    (withParities 2 (fun i => i) 0 4104 pastMem)).2 1 4096 = _ from hpast]
  decide

end LinuxKernel.Raid6
