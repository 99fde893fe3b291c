/-
  Literals `N#digits` of shell arithmetic (`shell/math.c` of busybox): `strto_arith_t`.

  1. **Program** — `strtoull` reads the base.  Then every character becomes a digit, by subtractions in
     `unsigned` and by setting bit `0x20`, until one is not below the base.

  2. **Specification** — `digit`: 0-9, then a-z, in either case up to base 36; above it A-Z, `@` and `_`
     follow.  The value of the digits is `Nat.ofDigits`, modulo `2^64`.

  3. **Result** (`literal_iff`) — a backquote stands right BEFORE `a`, and bit `0x20` turns `@` into one:
     both count as the digit 9.  Every other character is read as it should.
-/
import Mathlib

namespace LinuxKernel.ShMath

open List

/-- A `char`, as its byte. -/
abbrev CChar := Fin 256

/-! ## The program -/

/-- The digit that the loop makes of a character, or an error; `big` is the test `base > 36`. -/
def charDigit (big : Bool) (c : CChar) : Option Nat :=
  -- a `char` is signed: bytes from 128 on are negative, large once converted to `unsigned`
  let digit := if c.val < 128 then (c.val + 2 ^ 32 - 48) % 2 ^ 32 else c.val + 2 ^ 32 - 256 - 48
  if 10 ≤ digit ∧ digit ≤ 74 then
    let digit := ((c.val ||| 0x20) + 2 ^ 32 - 87) % 2 ^ 32
    if big ∧ c.val ≤ 95 then
      if c.val = 95 then some 63
      else if c.val = 64 then some 62
      else if digit < 36 then some (digit + 26)
      else none
    else some digit
  else some digit

/-- The loop goes on with a digit below the base (a terminating zero is none). -/
def baseDigit (base : Nat) (c : CChar) : Option Nat := (charDigit (base > 36) c).filter (· < base)

def takeBaseDigits (base : Nat) : Nat → List CChar → Nat × List CChar
  | n, [] => (n, [])
  | n, c :: s =>
    match baseDigit base c with
    | some digit => takeBaseDigits base ((n * base + digit) % 2 ^ 64) s
    | none => (n, c :: s)

/-- The value of a character as a digit of `strtoull`. -/
def digitVal (c : CChar) : Nat :=
  if 48 ≤ c.val ∧ c.val ≤ 57 then c.val - 48
  else if 97 ≤ c.val ∧ c.val ≤ 122 then c.val - 87
  else if 65 ≤ c.val ∧ c.val ≤ 90 then c.val - 55
  else 36

def takeDigits (base : Nat) : Nat → List CChar → Nat × List CChar
  | n, [] => (n, [])
  | n, c :: s => if digitVal c < base then takeDigits base (n * base + digitVal c) s else (n, c :: s)

/-- `strtoull(nptr, endptr, 0)` of a text that starts with a decimal digit, before it is cut to 64 bits. -/
def strtoull : List CChar → Nat × List CChar
  | 48 :: x :: c :: s =>
    if (x = 120 ∨ x = 88) ∧ digitVal c < 16 then takeDigits 16 0 (c :: s) else takeDigits 8 0 (x :: c :: s)
  | 48 :: s => takeDigits 8 0 s
  | s => takeDigits 10 0 s

/-- `strto_arith_t`: the number and the text behind it. -/
def strtoArith (nptr : List CChar) : Nat × List CChar :=
  let (n, s) := strtoull nptr
  let n := min n (2 ^ 64 - 1)
  match s with
  | 35 :: digits =>
    if nptr.headD 0 < 49 ∨ 57 < nptr.headD 0 ∨ n < 2 ∨ 64 < n then (n, s) else takeBaseDigits n 0 digits
  | _ => (n, s)

/-! ## The specification -/

/-- The value of a character as a digit, in a base above 36 or not. -/
def value (big : Bool) (c : CChar) : Option Nat :=
  if 48 ≤ c.val ∧ c.val ≤ 57 then some (c.val - 48)
  else if 97 ≤ c.val ∧ c.val ≤ 122 then some (c.val - 97 + 10)
  else if 65 ≤ c.val ∧ c.val ≤ 90 then some (c.val - 65 + if big then 36 else 10)
  else if big ∧ c.val = 64 then some 62
  else if big ∧ c.val = 95 then some 63
  else none

def digit (base : Nat) (c : CChar) : Option Nat := (value (base > 36) c).filter (· < base)

/-- The digits in front of the first character that is none, and the text from it on. -/
def scan (f : CChar → Option Nat) : List CChar → List Nat × List CChar
  | [] => ([], [])
  | c :: s =>
    match f c with
    | some d => (d :: (scan f s).1, (scan f s).2)
    | none => ([], c :: s)

/-- The literal with these digits, most significant first. -/
def literal (base : Nat) (r : List Nat × List CChar) : Nat × List CChar :=
  (Nat.ofDigits base r.1.reverse % 2 ^ 64, r.2)

/-- The characters that are taken for the digit 9. -/
def Gap (base : Nat) (c : CChar) : Prop := 10 ≤ base ∧ (c.val = 96 ∨ c.val = 64 ∧ base ≤ 36)

/-! ## Reading digits -/

/-- **All characters**: what is not a digit gets a value past every base, up to two exceptions. -/
theorem charDigit_spec : ∀ (big : Bool) (c : CChar), if c.val = 96 ∨ c.val = 64 ∧ ¬ big then
      charDigit big c = some 9 ∧ value big c = none
    else charDigit big c = value big c ∨ value big c = none ∧
    (charDigit big c).all ((if big then 64 else 36) ≤ ·) := by
  decide +kernel

theorem baseDigit_spec {base : Nat} (hbase : base ≤ 64) (c : CChar) :
    (Gap base c → baseDigit base c = some 9 ∧ digit base c = none) ∧
    (¬ Gap base c → baseDigit base c = digit base c) := by
  have hc := charDigit_spec (base > 36) c
  unfold baseDigit digit Gap
  cases hd : charDigit (base > 36) c <;> cases hv : value (base > 36) c <;> rw [hd, hv] at hc <;>
    simp [Option.filter] at hc ⊢ <;> grind

theorem takeBaseDigits_eq {base : Nat} {s : List CChar} {n : Nat} (hn : n < 2 ^ 64) :
    takeBaseDigits base n s =
    ((n * base ^ (scan (baseDigit base) s).1.length + Nat.ofDigits base
      (scan (baseDigit base) s).1.reverse) % 2 ^ 64,
      (scan (baseDigit base) s).2) := by
  induction s generalizing n with
  | nil => exact Prod.ext (by simpa [takeBaseDigits, scan] using (Nat.mod_eq_of_lt hn).symm) rfl
  | cons c s ih =>
    rw [takeBaseDigits, scan]
    cases baseDigit base c with
    | none => exact Prod.ext (by simpa using (Nat.mod_eq_of_lt hn).symm) rfl
    | some d =>
      simp only
      rw [ih (Nat.mod_lt _ (by decide)), reverse_cons, Nat.ofDigits_append]
      refine Prod.ext ?_ rfl
      have hmod := ((Nat.mod_modEq (n * base + d) (2 ^ 64)).mul_right
        (base ^ (scan (baseDigit base) s).1.length)).add_right
          (Nat.ofDigits base (scan (baseDigit base) s).1.reverse)
      refine hmod.trans (congrArg (· % 2 ^ 64) ?_)
      simp only [length_cons, length_reverse, Nat.ofDigits_singleton]
      ring

theorem scan_length (f : CChar → Option Nat) (s : List CChar) : (scan f s).2.length ≤ s.length := by
  induction s with
  | nil => exact le_rfl
  | cons c s ih =>
    rw [scan]
    cases f c with
    | none => exact le_rfl
    | some d => exact Nat.le_succ_of_le ih

/-- **The first character that is no digit** decides whether the program stops there as well. -/
theorem scan_baseDigit {base : Nat} (hbase : base ≤ 64) (s : List CChar) :
    (scan (baseDigit base) s).2.length < (scan (digit base) s).2.length ∧
    (∃ c ∈ (scan (digit base) s).2.head?, Gap base c) ∨
    scan (baseDigit base) s = scan (digit base) s ∧ ∀ c ∈ (scan (digit base) s).2.head?, ¬ Gap base c := by
  induction s with
  | nil => exact .inr ⟨rfl, nofun⟩
  | cons c s ih =>
    obtain ⟨hgap, hnot⟩ := baseDigit_spec hbase c
    rw [scan, scan]
    by_cases hc : Gap base c
    · rw [(hgap hc).1, (hgap hc).2]
      exact .inl ⟨Nat.lt_succ_of_le (scan_length _ s), c, rfl, hc⟩
    · rw [hnot hc]
      cases digit base c with
      | none => exact .inr ⟨rfl, by simp [hc]⟩
      | some d => exact ih.imp_right fun ⟨he, h⟩ => ⟨by rw [he], h⟩

/-- **Literals.**  `N#rest` is read to the first character that is no digit of base `N`, with the value
    of the digits modulo `2^64`, unless that character is a backquote, or an `@` up to base 36, in a base
    from 10 on. -/
theorem literal_iff {N : Nat} (hlo : 2 ≤ N) (hhi : N ≤ 64) (rest : List CChar) :
    strtoArith ((Nat.toDigits 10 N).map (fun c => Fin.ofNat 256 c.toNat) ++ 35 :: rest) =
      literal N (scan (digit N) rest) ↔ ∀ c ∈ (scan (digit N) rest).2.head?, ¬ Gap N c := by
  have hread : strtoArith ((Nat.toDigits 10 N).map (fun c => Fin.ofNat 256 c.toNat) ++ 35 :: rest) =
      takeBaseDigits N 0 rest := by
    interval_cases N <;> rfl
  rw [hread, takeBaseDigits_eq (by decide), Nat.zero_mul, Nat.zero_add, literal]
  rcases scan_baseDigit hhi rest with ⟨hlt, c, hc, hgap⟩ | ⟨he, h⟩
  · refine iff_of_false (fun e => ?_) fun h => h c hc hgap
    rw [(Prod.mk.inj e).2] at hlt
    exact lt_irrefl _ hlt
  · exact iff_of_true (by rw [he]) h

/-- `literal_iff` for the text `16#fF`. -/
theorem literal_iff_ff : strtoArith [49, 54, 35, 102, 70] = (255, []) :=
  (literal_iff (by decide : 2 ≤ 16) (by decide) [102, 70]).mpr fun c h => nomatch h

/-- **A wrong digit**: `16#1@` is read to its end, as 25. -/
theorem at_sign_is_nine : strtoArith [49, 54, 35, 49, 64] = (25, []) ∧
    literal 16 (scan (digit 16) [49, 64]) = (1, [64]) := by
  decide

end LinuxKernel.ShMath
