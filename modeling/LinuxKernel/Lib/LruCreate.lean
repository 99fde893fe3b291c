/-
  Creation of an LRU cache (`lib/lru_cache.c`: `lc_create`) under failing allocations.

  1. **Program** — three tables, then the objects one by one; at the first object that is missing the
     ones taken so far are given back, counting an UNSIGNED index downwards from its position.

  2. **Results** — a call that fails before the first object frees exactly what it took; where an object
     is missing it NEVER does (`failed_create`): the loop stops before index 0, so the first object is
     lost (`first_object_lost`), and with no object at all the index wraps and the loop reads outside the
     table.
-/
import Mathlib

namespace LinuxKernel.LruCreate

open List

/-! ## The program -/

/-- What is allocated: the tables, and the objects. -/
inductive Block where
  | slot
  | element
  | lc
  | object (i : Nat)
  deriving DecidableEq

structure LruCache where
  nrElements : Nat
  element : List Block
  /-- Labels of the elements; `LC_FREE` at first. -/
  number : List Nat
  /-- Indices; the last one added comes first. -/
  free : List Nat

/-- The result of a call, and what it has taken and freed. -/
structure Outcome where
  lc : Option LruCache
  taken : List Block
  freed : List Block

def LC_MAX_ACTIVE : Nat := 2 ^ 24
def LC_FREE : Nat := 2 ^ 32 - 1

variable (ok : Block → Bool)

/-- `for (i = 0; i < e_count; i++)`, up to the first failure. -/
def preallocate (eCount : Nat) : List Block := ((List.range eCount).map .object).takeWhile ok

/-- `for (...; i; i--)`; `none` is a read outside the objects taken. -/
def giveUp (element : List Block) : Nat → Option (List Block)
  | 0 => some []
  | i + 1 => do
    let p ← element[i + 1]?
    let ps ← giveUp element i
    return p :: ps

/-- `lc_create`, where `ok` tells which allocations succeed. -/
def lcCreate (cacheObjSize eCount eSize : Nat) : Option Outcome :=
  if cacheObjSize < eSize then some ⟨none, [], []⟩
  else if eCount > LC_MAX_ACTIVE then some ⟨none, [], []⟩
  else if ¬ ok .slot then some ⟨none, [], []⟩
  else if ¬ ok .element then some ⟨none, [.slot], [.slot]⟩
  else if ¬ ok .lc then some ⟨none, [.slot, .element], [.element, .slot]⟩
  else
    let element := preallocate ok eCount
    let taken := [.slot, .element, .lc] ++ element
    let i := element.length
    if i = eCount then
      some ⟨some ⟨eCount, element, List.replicate eCount LC_FREE, (List.range eCount).reverse⟩, taken, []⟩
    else (giveUp element ((i + 2 ^ 32 - 1) % 2 ^ 32)).map fun ps => ⟨none, taken,
      ps ++ [.lc, .element, .slot]⟩

/-- All three tables can be had. -/
def tables : Bool := ok .slot && ok .element && ok .lc

/-- The call returns NULL, and has freed what it took, each block once, and nothing else. -/
def Released (out : Option Outcome) : Prop :=
  ∃ r, out = some r ∧ r.lc = none ∧ r.taken.Nodup ∧ r.freed.Perm r.taken

/-! ## Objects -/

variable {ok} {k n cacheObjSize eSize : Nat}

theorem preallocate_part (hk : k < n) (hok : ∀ i < k, ok (.object i) = true)
    (hfail : ok (.object k) = false) :
    preallocate ok n = (List.range k).map .object := by
  obtain ⟨m, rfl⟩ := Nat.exists_eq_add_of_lt hk
  rw [preallocate, Nat.add_assoc, range_add, range_succ_eq_map, map_append,
    takeWhile_append_of_pos (by simpa using hok)]
  simp [hfail]

/-- Every object is given back but the first. -/
theorem giveUp_eq {i : Nat} (hi : i < k) :
    giveUp ((List.range k).map .object) i = some ((List.range i).map fun j => .object (j + 1)).reverse := by
  induction i with
  | zero => rfl
  | succ i ih =>
    rw [giveUp, ih (by omega), range_succ, map_append, reverse_append]
    simp [hi]

/-! ## Calls -/

/-- Nothing fails before the first object. -/
theorem lcCreate_eq (hsize : eSize ≤ cacheObjSize) (hn : n ≤ LC_MAX_ACTIVE) (ht : tables ok = true) :
    lcCreate ok cacheObjSize n eSize =
      let taken := [.slot, .element, .lc] ++ preallocate ok n
      if (preallocate ok n).length = n then
        some ⟨some ⟨n, preallocate ok n, List.replicate n LC_FREE, (List.range n).reverse⟩, taken, []⟩
      else (giveUp (preallocate ok n) (((preallocate ok n).length + 2 ^ 32 - 1) % 2 ^ 32)).map fun ps =>
        ⟨none, taken, ps ++ [.lc, .element, .slot]⟩ := by
  obtain ⟨⟨hs, he⟩, hl⟩ : (ok .slot = true ∧ ok .element = true) ∧ ok .lc = true := by simpa [tables] using ht
  rw [lcCreate, if_neg (Nat.not_lt.mpr hsize), if_neg (Nat.not_lt.mpr hn), if_neg (not_not.mpr hs),
    if_neg (not_not.mpr he), if_neg (not_not.mpr hl)]

/-- Object `k` is missing: the loop never reaches index 0, and starts outside the table for `k = 0`. -/
theorem lcCreate_object_missing (hsize : eSize ≤ cacheObjSize) (hn : n ≤ LC_MAX_ACTIVE)
    (ht : tables ok = true)
    (hk : k < n) (hok : ∀ i < k, ok (.object i) = true) (hfail : ok (.object k) = false) :
    lcCreate ok cacheObjSize n eSize = if k = 0 then none else
      some ⟨none, [.slot, .element, .lc] ++ (List.range k).map .object,
        ((List.range (k - 1)).map fun j => .object (j + 1)).reverse ++ [.lc, .element, .slot]⟩ := by
  rw [lcCreate_eq hsize hn ht, preallocate_part hk hok hfail, length_map, length_range]
  simp only [if_neg (Nat.ne_of_lt hk)]
  cases k with
  | zero => rfl
  | succ m =>
    have hi : (m + 1 + 2 ^ 32 - 1) % 2 ^ 32 = m := by
      rw [LC_MAX_ACTIVE] at hn
      omega
    rw [hi, giveUp_eq m.lt_succ_self]
    rfl

/-- **A failed `lc_create`** frees exactly what it took if it fails before the first object, and only then. -/
theorem failed_create (ok : Block → Bool) (cacheObjSize n eSize : Nat) :
    (cacheObjSize < eSize ∨ LC_MAX_ACTIVE < n ∨ tables ok = false →
      Released (lcCreate ok cacheObjSize n eSize)) ∧
    (eSize ≤ cacheObjSize → n ≤ LC_MAX_ACTIVE → tables ok = true → ∀ k < n, (∀ i < k, ok (.object i) = true) →
      ok (.object k) = false → ¬ Released (lcCreate ok cacheObjSize n eSize)) := by
  constructor
  · intro h
    unfold lcCreate
    by_cases hsize : cacheObjSize < eSize
    · rw [if_pos hsize]
      exact ⟨_, rfl, rfl, .nil, .nil⟩
    by_cases hn : n > LC_MAX_ACTIVE
    · rw [if_neg hsize, if_pos hn]
      exact ⟨_, rfl, rfl, .nil, .nil⟩
    have ht : tables ok = false := (h.resolve_left hsize).resolve_left hn
    rw [if_neg hsize, if_neg hn]
    cases hs : ok .slot
    · exact ⟨_, rfl, rfl, .nil, .nil⟩
    cases he : ok .element
    · exact ⟨_, rfl, rfl, List.nodup_singleton _, .refl _⟩
    cases hl : ok .lc
    · exact ⟨_, rfl, rfl, by decide, .swap ..⟩
    · simp [tables, hs, he, hl] at ht
  · intro hsize hn ht k hk hok hfail
    rw [lcCreate_object_missing hsize hn ht hk hok hfail]
    rintro ⟨r, hr, -, -, hperm⟩
    split_ifs at hr with h0
    obtain rfl := Option.some.inj hr
    -- one block less is freed than was taken
    have hlen := hperm.length_eq
    simp only [List.length_append, List.length_reverse, List.length_map, List.length_range, List.length_cons,
      List.length_nil] at hlen
    omega

theorem failed_create_no_lc : Released (lcCreate (fun b => b ≠ .lc) 8 3 8) :=
  (failed_create _ 8 3 8).1 (.inr (.inr rfl))

/-- **The first of two objects** is taken, the second one is missing, and only the tables are freed. -/
theorem first_object_lost : lcCreate (fun b => b ≠ .object 1) 8 2 8 =
    some ⟨none, [.slot, .element, .lc, .object 0], [.lc, .element, .slot]⟩ := by
  simp [lcCreate, preallocate, giveUp, LC_MAX_ACTIVE, List.range_succ]

end LinuxKernel.LruCreate
