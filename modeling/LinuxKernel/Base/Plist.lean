/-
  Priority lists: duplicate-free lists kept in the order of a key.

  1. **The operations** — `add key n xs` puts `n` before the first entry whose key is GREATER than its
     own, so entries of equal key keep the order of their arrival; an entry is taken out by
     `List.erase`.

  2. **The invariant** — `IsPlist key xs`: no entry twice, keys in ascending order.  Both operations keep
     it (`IsPlist.add`, `IsPlist.erase`), and it only depends on the keys of the entries
     (`IsPlist.congr`).

  3. **The head** has the least key (`IsPlist.head_le`), and an entry whose key is below all others
     becomes the head (`head_add_of_lt`).
-/
import Mathlib

namespace LinuxKernel.Plist

open List
variable {α : Type*} {key : α → Int} {n : α} {xs : List α}

/-- Put `n` before the first entry of a greater key. -/
def add (key : α → Int) (n : α) : List α → List α
  | [] => [n]
  | x :: xs => if key n < key x then n :: x :: xs else x :: add key n xs

/-- No entry twice, keys in ascending order. -/
structure IsPlist (key : α → Int) (xs : List α) : Prop where
  nodup : xs.Nodup
  sorted : xs.Pairwise fun a b => key a ≤ key b

theorem add_perm (key : α → Int) (n : α) (xs : List α) : (add key n xs).Perm (n :: xs) := by
  induction xs with
  | nil => exact List.Perm.refl _
  | cons x xs ih =>
    rw [add]
    split
    · exact List.Perm.refl _
    · exact (ih.cons x).trans (List.Perm.swap n x xs)

@[simp] theorem mem_add {a : α} : a ∈ add key n xs ↔ a = n ∨ a ∈ xs := by
  rw [(add_perm key n xs).mem_iff, mem_cons]

theorem sorted_add (h : xs.Pairwise fun a b => key a ≤ key b) :
    (add key n xs).Pairwise fun a b => key a ≤ key b := by
  induction xs with
  | nil => exact pairwise_singleton _ _
  | cons x xs ih =>
    obtain ⟨hx, hxs⟩ := pairwise_cons.mp h
    rw [add]
    split
    next hlt =>
      refine pairwise_cons.mpr ⟨fun b hb => ?_, h⟩
      rcases mem_cons.mp hb with rfl | hb
      · omega
      · have := hx b hb
        omega
    next hge =>
      refine pairwise_cons.mpr ⟨fun b hb => ?_, ih hxs⟩
      rcases mem_add.mp hb with rfl | hb
      · omega
      · exact hx b hb

theorem IsPlist.nil : IsPlist key ([] : List α) := ⟨nodup_nil, List.Pairwise.nil⟩

theorem IsPlist.add (h : IsPlist key xs) (hn : n ∉ xs) : IsPlist key (Plist.add key n xs) :=
  ⟨(add_perm key n xs).nodup_iff.mpr (nodup_cons.mpr ⟨hn, h.nodup⟩), sorted_add h.sorted⟩

theorem IsPlist.erase [DecidableEq α] (h : IsPlist key xs) (n : α) : IsPlist key (xs.erase n) :=
  ⟨h.nodup.erase n, h.sorted.sublist erase_sublist⟩

theorem IsPlist.congr (h : IsPlist key xs) {key' : α → Int} (hk : ∀ a ∈ xs, key' a = key a) :
    IsPlist key' xs :=
  ⟨h.nodup, h.sorted.imp_of_mem fun ha hb hab => by rw [hk _ ha, hk _ hb]; exact hab⟩

theorem IsPlist.mem_erase [DecidableEq α] (h : IsPlist key xs) {a : α} :
    a ∈ xs.erase n ↔ a ≠ n ∧ a ∈ xs := h.nodup.mem_erase_iff

/-- **The head has the least key.** -/
theorem IsPlist.head_le (h : IsPlist key xs) {t a : α} (ht : xs.head? = some t) (ha : a ∈ xs) :
    key t ≤ key a := by
  cases xs with
  | nil => exact absurd ha not_mem_nil
  | cons x xs =>
    obtain rfl : x = t := Option.some.inj ht
    rcases mem_cons.mp ha with rfl | ha
    · exact Int.le_refl _
    · exact (pairwise_cons.mp h.sorted).1 a ha

/-- **An entry below all others becomes the head.** -/
theorem head_add_of_lt (h : ∀ a ∈ xs, key n < key a) : (add key n xs).head? = some n := by
  cases xs with
  | nil => rfl
  | cons x xs => rw [add, if_pos (h x mem_cons_self)]; rfl

/-- The head after an entry came in: that entry or the head before. -/
theorem head_add (key : α → Int) (n : α) (xs : List α) :
    (add key n xs).head? = some n ∨ (add key n xs).head? = xs.head? := by
  cases xs with
  | nil => exact .inl rfl
  | cons x xs =>
    rw [add]
    split
    · exact .inl rfl
    · exact .inr rfl

/-- The head stays when another entry goes. -/
theorem head_erase_of_ne [DecidableEq α] {t : α} (h : xs.head? = some t) (hne : t ≠ n) :
    (xs.erase n).head? = some t := by
  cases xs with
  | nil => exact h
  | cons x xs =>
    obtain rfl : x = t := Option.some.inj h
    rw [erase_cons_tail (by simpa using hne)]
    rfl

theorem exists_head {a : α} (h : a ∈ xs) : ∃ t, xs.head? = some t := by
  cases xs with
  | nil => exact absurd h not_mem_nil
  | cons x xs => exact ⟨x, rfl⟩

theorem mem_of_head {t : α} (h : xs.head? = some t) : t ∈ xs := List.mem_of_mem_head? h

end LinuxKernel.Plist
