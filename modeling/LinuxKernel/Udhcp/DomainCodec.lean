/-
  Domain lists of DHCP (`networking/udhcp/domain_codec.c` of busybox): `dname_dec`.

  1. **Program** — ONE loop scans the names, follows compression pointers (the first pointer of a name
     saves the place to come back to) and writes the labels, each with a dot, behind the text `pre`.  The
     end of a name turns the last character of the buffer into a space.  Every read of `cstr` carries its
     bound.

  2. **Specification** — `Names`: the names as the pointers give them, where a name that runs into the
     end of the string inside a jump is followed by those behind its first pointer; `text`: labels joined
     by dots, names by spaces, empty names left out.

  3. **Result** (`dnameDec_iff`) — the scan ENDS, and it returns nothing or `pre` and the text of the
     names, with TWO exceptions: if a name ends before the first label, the last character of `pre` is
     overwritten; and if the string ends inside a jump, so does the scan, and the names behind the
     pointer are lost.
-/
import Mathlib

namespace LinuxKernel.DomainCodec

open List

abbrev Label := List UInt8

/-! ## The program -/

def NS_MAXDNAME : Nat := 1025
def NS_MAXDNSRCH : Nat := 6
def NS_CMPRSFLGS : UInt8 := 0xc0

inductive Item where
  | pointer (offset : Nat)
  | label (l : Label)
  | nul

/-- What stands at `pos`; `none` where the string is too short for it. -/
def item (cstr : List UInt8) (pos : Nat) (h : pos < cstr.length) : Option Item :=
  if cstr[pos] &&& NS_CMPRSFLGS = NS_CMPRSFLGS then
    if h2 : pos + 2 > cstr.length then none
    else some (.pointer ((cstr[pos].toNat <<< 8 ||| cstr[pos + 1].toNat) &&& 0x3fff))
  else if cstr[pos] ≠ 0 then
    if hl : pos + cstr[pos].toNat + 1 > cstr.length then none
    else some (.label (List.ofFn fun k : Fin cstr[pos].toNat => cstr[pos + 1 + k]))
  else some .nul

/-- The variables of the loop; `len` is the length of `ret`, and `endp` an offset into it. -/
structure Scan where
  crtpos : Nat
  retpos : Nat
  depth : Nat
  ret : List UInt8
  endp : Nat

/-- `ret[len - 1] = ' '`, if there is such a place. -/
def patch (ret : List UInt8) : List UInt8 := if ret.length ≠ 0 then ret.set (ret.length - 1) 32 else ret

/-- The body of the loop, up to the test at its end. -/
def turn (s : Scan) : Item → Scan
  | .pointer offset =>
    { s with retpos := if s.retpos = 0 then s.crtpos + 2 else s.retpos, depth := s.depth + 1, crtpos := offset }
  | .label l =>
    { s with ret := s.ret ++ l ++ [46], endp := s.ret.length + l.length, crtpos := s.crtpos + (l.length + 1) }
  | .nul =>
    let s := { s with ret := patch s.ret }
    if s.retpos = 0 then { s with crtpos := s.crtpos + 1 }
    else { s with crtpos := s.retpos, retpos := 0, depth := 0 }

variable (cstr : List UInt8) {s : Scan}

/-- The toplevel scan advances, or a jump ends, or there are fewer jumps left, or the scan advances. -/
def measure (s : Scan) : Nat ×ₗ Nat ×ₗ Nat :=
  toLex (2 * (cstr.length - if s.retpos = 0 then s.crtpos else s.retpos) + min s.retpos 1,
    toLex (7 - s.depth, cstr.length - s.crtpos))

theorem measure_turn (h : s.crtpos < cstr.length) (i : Item) (hd : ¬ (turn s i).depth > NS_MAXDNSRCH) :
    measure cstr (turn s i) < measure cstr s := by
  unfold NS_MAXDNSRCH at hd
  by_cases hr : s.retpos = 0 <;> simp only [measure, Prod.Lex.toLex_lt_toLex] <;> cases i <;>
    simp [turn, hr] at hd ⊢ <;> omega

def dnameLoop (s : Scan) : Option (List UInt8) :=
  if h : s.crtpos < cstr.length then
    match item cstr s.crtpos h with
    | none => none
    | some i =>
      if (turn s i).depth > NS_MAXDNSRCH ∨ (turn s i).ret.length > NS_MAXDNAME * NS_MAXDNSRCH then none
      else dnameLoop (turn s i)
  else if s.endp = 0 then none
  else some (s.ret.take s.endp)
termination_by measure cstr s
decreasing_by exact measure_turn cstr h i (not_or.mp ‹_›).1

/-- `dname_dec`: the bytes in front of the terminator, `none` for `NULL`. -/
def dnameDec (pre : List UInt8) : Option (List UInt8) := dnameLoop cstr ⟨0, 0, 0, pre, 0⟩

/-! ## The names -/

/-- **The names that a scan reads** from a position on, the first one without the labels already read.  A
pointer stands for the rest of its name; the next name stands at `r`, behind the first pointer.  The scan
ends where the string does, or where a pointer leads past it: at top level (0), or inside a jump that was
to come back to the last argument. -/
inductive Reads : Nat → Nat → List (List Label) → Nat → Prop
  | stop {p r} (h : cstr.length ≤ p) : Reads p r [[]] r
  | pointer {p r h offset ns e} (hi : item cstr p h = some (.pointer offset))
      (hn : Reads offset (if r = 0 then p + 2 else r) ns e) : Reads p r ns e
  | label {p r h l n ns e} (hi : item cstr p h = some (.label l))
      (hn : Reads (p + (l.length + 1)) r (n :: ns) e) : Reads p r ((l :: n) :: ns) e
  | nul {p r h ns e} (hi : item cstr p h = some .nul) (hn : Reads (if r = 0 then p + 1 else r) 0 ns e) :
      Reads p r ([] :: ns) e

/-- **The names** from a top-level position on: a jump that runs into the end of the string ends its name
    only. -/
inductive Names : Nat → List (List Label) → Prop
  | done {p ns} (h : Reads cstr p 0 ns 0) : Names p ns
  | resume {p r ns more} (h : Reads cstr p 0 ns r) (hr : r ≠ 0) (hn : Names r more) : Names p (ns ++ more)

/-- What is read is determined by the string. -/
theorem Reads.unique {p r e e' : Nat} {ns ns' : List (List Label)} (h : Reads cstr p r ns e)
    (h' : Reads cstr p r ns' e') : ns' = ns ∧ e' = e := by
  induction h generalizing ns' with
  | stop h =>
    cases h' with
    | stop => exact ⟨rfl, rfl⟩
    | pointer hi | label hi | nul hi => exact absurd h (Nat.not_le.mpr ‹_›)
  | pointer hi _ ih =>
    cases h' with
    | stop h' => exact absurd h' (Nat.not_le.mpr ‹_›)
    | pointer hi' hn' =>
      cases hi.symm.trans hi'
      exact ih hn'
    | label hi' | nul hi' => cases hi.symm.trans hi'
  | label hi _ ih =>
    cases h' with
    | stop h' => exact absurd h' (Nat.not_le.mpr ‹_›)
    | label hi' hn' =>
      cases hi.symm.trans hi'
      obtain ⟨hns, he⟩ := ih hn'
      cases hns
      exact ⟨rfl, he⟩
    | pointer hi' | nul hi' => cases hi.symm.trans hi'
  | nul hi _ ih =>
    cases h' with
    | stop h' => exact absurd h' (Nat.not_le.mpr ‹_›)
    | nul hi' hn' =>
      obtain ⟨rfl, he⟩ := ih hn'
      exact ⟨rfl, he⟩
    | pointer hi' | label hi' => cases hi.symm.trans hi'

/-- Labels joined by dots, names by spaces. -/
def text (ns : List (List Label)) : List UInt8 :=
  List.intercalate [32] ((ns.filter (· ≠ [])).map (List.intercalate [46]))

/-- More labels of a name. -/
def more (n : List Label) : List UInt8 := n.flatMap ([46] ++ ·)

/-- More names. -/
def tail (ns : List (List Label)) : List UInt8 :=
    (ns.filter (· ≠ [])).flatMap fun n => 32 :: List.intercalate [46] n

variable {l : Label} {n : List Label} {ns : List (List Label)}

theorem intercalate_cons (sep x : List UInt8) (xs : List Label) :
    List.intercalate sep (x :: xs) = x ++ xs.flatMap (sep ++ ·) := by
  induction xs generalizing x with
  | nil => simp [List.intercalate]
  | cons y xs ih => rw [intercalate_cons_cons, ih]; simp

theorem text_cons : text ((l :: n) :: ns) = l ++ more n ++ tail ns := by
  simp [text, more, tail, intercalate_cons, flatMap_map]

theorem tail_cons : tail ((l :: n) :: ns) = 32 :: l ++ more n ++ tail ns := by
  simp [more, tail, intercalate_cons]

/-- More names behind some. -/
theorem text_append {A : List (List Label)} (hA : ∃ m ∈ A, m ≠ []) (B : List (List Label)) :
    text (A ++ B) = text A ++ tail B := by
  obtain ⟨m, hm, hne⟩ := hA
  have hfil : A.filter (· ≠ []) ≠ [] := ne_nil_of_mem (mem_filter.mpr ⟨hm, by simpa using hne⟩)
  obtain ⟨x, xs, hx⟩ := exists_cons_of_ne_nil hfil
  simp only [text, tail, filter_append, hx]
  simp [intercalate_cons, flatMap_map]

theorem tail_eq_nil_iff {B : List (List Label)} : tail B = [] ↔ ∀ m ∈ B, m = [] := by
  simp [tail]

theorem patch_append (body : List UInt8) (a : UInt8) : patch (body ++ [a]) = body ++ [32] := by
  simp [patch]

theorem patch_patch (ret : List UInt8) : patch (patch ret) = patch ret := by
  rcases eq_nil_or_concat' ret with rfl | ⟨body, a, rfl⟩
  · rfl
  · rw [patch_append, patch_append]

theorem length_patch (ret : List UInt8) : (patch ret).length = ret.length := by
  unfold patch
  split <;> simp

theorem patch_eq_iff {pre : List UInt8} :
    (if n = [] then patch pre else pre) = pre ↔ (n = [] → ∀ c ∈ pre.getLast?, c = 32) := by
  by_cases he : n = []
  · rcases List.eq_nil_or_concat' pre with rfl | ⟨body, a, rfl⟩
    · simp [he, patch]
    · simp [he, patch_append, eq_comm]
  · simp [he]

theorem item_label {p : Nat} {h : p < cstr.length} (hi : item cstr p h = some (.label l)) : l ≠ [] := by
  unfold item at hi
  split_ifs at hi with _ _ h0 <;> cases hi
  intro he
  exact h0 (UInt8.toNat_inj.mp (ofFn_eq_nil_iff.mp he))

/-- **The whole scan**, before the first label, inside a name and between two names. -/
theorem dnameLoop_writes (s : Scan) : dnameLoop cstr s = none ∨ ∃ n ns r, Reads cstr s.crtpos s.retpos (n :: ns) r ∧
      (s.endp = 0 → ∃ m ∈ n :: ns, m ≠ []) ∧
      (s.endp = 0 → dnameLoop cstr s = some ((if n = [] then patch s.ret else s.ret) ++ text (n :: ns))) ∧
      ∀ body, body ≠ [] → s.endp = body.length →
        (s.ret = body ++ [46] → dnameLoop cstr s = some (body ++ more n ++ tail ns)) ∧
        (s.ret = body ++ [32] → dnameLoop cstr s = some (body ++ tail (n :: ns))) := by
  induction s using dnameLoop.induct cstr with
  | case1 s h ht => exact .inl (by rw [dnameLoop]; simp [h, ht])
  | case2 s h i ht hd => exact .inl (by rw [dnameLoop]; simp [h, ht, hd])
  | case3 s h i ht hd ih =>
    have heq : dnameLoop cstr s = dnameLoop cstr (turn s i) := by
      rw [dnameLoop]
      simp [h, ht, hd]
    rw [heq]
    refine ih.imp_right ?_
    rintro ⟨n, ns, r, hn, hm, h0, h1⟩
    cases i with
    | pointer offset => exact ⟨n, ns, r, .pointer ht hn, hm, h0, h1⟩
    | label l =>
      rw [(h1 (s.ret ++ l) (by simp [item_label cstr ht]) (by simp [turn])).1 rfl]
      refine ⟨l :: n, ns, r, .label ht hn, fun _ => ⟨_, mem_cons_self, cons_ne_nil l n⟩, fun _ => ?_, fun body _ hb => ⟨fun hr => ?_, fun hr => ?_⟩⟩
      · simp [text_cons]
      · simp [hr, more]
      · simp [hr, tail_cons]
    | nul =>
      have hn' : Reads cstr (if s.retpos = 0 then s.crtpos + 1 else s.retpos) 0 (n :: ns) r := by
        by_cases hr : s.retpos = 0 <;> simpa [turn, hr] using hn
      have hbuf : (turn s .nul).ret = patch s.ret ∧ (turn s .nul).endp = s.endp := by
        by_cases hr : s.retpos = 0 <;> simp [turn, hr]
      rw [hbuf.2] at hm
      rw [hbuf.1, hbuf.2] at h0 h1
      refine ⟨[], n :: ns, r, .nul ht hn', fun he => ?_, fun he => ?_, fun body hne hb => ⟨fun hr => ?_, fun hr => ?_⟩⟩
      · obtain ⟨m, hmem, hne⟩ := hm he
        exact ⟨m, mem_cons_of_mem _ hmem, hne⟩
      · simp [h0 he, patch_patch, text]
      · rw [(h1 body hne hb).2 (by rw [hr, patch_append])]
        simp [more]
      · rw [(h1 body hne hb).2 (by rw [hr, patch_append])]
        simp [tail]
  | case4 s h he => exact .inl (by rw [dnameLoop]; simp [h, he])
  | case5 s h he =>
    refine .inr ⟨[], [], _, .stop (Nat.not_lt.mp h), fun h0 => absurd h0 he, fun h0 => absurd h0 he, fun body _ hb => ?_⟩
    rw [dnameLoop, dif_neg h, if_neg he, hb]
    constructor <;> intro hr <;> simp [hr, more, tail]

/-- **`dname_dec`** returns nothing, or `pre` and the text of the names: unless the first name ends without a label and
`pre` ends with a character other than a space, or the scan ends inside a jump and labels stand where it was to come
back to. -/
theorem dnameDec_iff (pre : List UInt8) : dnameDec cstr pre = none ∨ ∃ n ns r, Reads cstr 0 0 (n :: ns) r ∧
    ((∃ all, Names cstr 0 all ∧ dnameDec cstr pre = some (pre ++ text all)) ↔
      (n = [] → ∀ c ∈ pre.getLast?, c = 32) ∧ (r ≠ 0 → ∃ more, Names cstr r more ∧ ∀ m ∈ more, m = [])) := by
  refine (dnameLoop_writes cstr _).imp_right ?_
  rintro ⟨n, ns, r, hn, hm, h0, _⟩
  have hlen : (if n = [] then patch pre else pre).length = pre.length := by
    split
    · exact length_patch pre
    · rfl
  refine ⟨n, ns, r, hn, ?_⟩
  rw [dnameDec, h0 rfl, ← patch_eq_iff]
  constructor
  · rintro ⟨all, hall, heq⟩
    obtain ⟨hpre, htext⟩ := append_inj (Option.some.inj heq) hlen
    refine ⟨hpre, fun hr => ?_⟩
    cases hall with
    | done h => exact absurd (hn.unique _ h).2.symm hr
    | resume h _ hmore =>
      obtain ⟨rfl, rfl⟩ := hn.unique _ h
      rw [text_append (hm rfl), self_eq_append_right, tail_eq_nil_iff] at htext
      exact ⟨_, hmore, htext⟩
  · rintro ⟨hpre, hcut⟩
    rw [hpre]
    by_cases hr : r = 0
    · exact ⟨n :: ns, .done (hr ▸ hn), rfl⟩
    · obtain ⟨more, hmore, hempty⟩ := hcut hr
      refine ⟨n :: ns ++ more, .resume hn hr hmore, ?_⟩
      rw [text_append (hm rfl), tail_eq_nil_iff.mpr hempty, append_nil]

/-- **A prefix that is not kept**: a zero byte before the first name.  And **names that are lost**: the
first one jumps to the label `a` at the end of the string, and `x` and `a` behind the pointer are not read. -/
theorem pre_overwritten : (dnameDec [0, 1, 97] [61] = some [32, 97] ∧ ¬ [61] <+: [32, 97]) ∧
    dnameDec [0xc0, 5, 1, 120, 0, 1, 97] [] = some [97] := by
  refine ⟨⟨?_, by decide⟩, ?_⟩
  · rw [dnameDec]
    iterate 3 (rw [dnameLoop]; simp +decide [item, turn, patch])
  · rw [dnameDec]
    iterate 3 (rw [dnameLoop]; simp +decide [item, turn])

end LinuxKernel.DomainCodec
