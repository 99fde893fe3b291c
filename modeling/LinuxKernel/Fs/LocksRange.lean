/-
  The two decoders of a requested lock range (`fs/locks.c`): `flock_to_posix_lock`, and
  `flock64_to_posix_lock`, which a 32-bit kernel has for `struct flock64`.

  1. **The code** — one function; the width of its `start` and `end` is a parameter, 32 bits (`off_t`) or
     64 bits (`loff_t`).  Every assignment cuts the value to that width.

  2. **The purpose** — `posixRange`: the bytes POSIX-2001 gives to a request, in unbounded integers.  A
     decoder has to accept the requests whose range is `Within` the offsets of a file, with that range.

  3. **The result** — all tests are made on the CUT start of the request (`toPosixLock_eq`).  They find
     every end that has wrapped, but a start that has wrapped may look like any other.
-/
import LinuxKernel.Fs.Locks

namespace LinuxKernel.Locks

/-! ## The decoders -/

def EINVAL : Int := -22
def EOVERFLOW : Int := -75

/-- `struct flock` and `struct flock64`. -/
structure Flock where
  lType : Int
  lWhence : Int
  lStart : Int
  lLen : Int

/-- What a signed variable of `w` bits holds once `x` is assigned to it. -/
def signed (w : Nat) (x : Int) : Int := x.bmod (1 <<< w)

/-- `F_RDLCK`, `F_WRLCK` and `F_UNLCK` are 0, 1 and 2. -/
def assignType (type : Int) : Except Int LockType :=
  if type = 0 then .ok .rdlck
  else if type = 1 then .ok .wrlck
  else if type = 2 then .ok .unlck
  else .error EINVAL

/-- The `switch (l->l_whence)`: `SEEK_SET`, `SEEK_CUR`, `SEEK_END`. -/
def seekPos (fPos iSize whence : Int) : Except Int Int :=
  if whence = 0 then .ok 0
  else if whence = 1 then .ok fPos
  else if whence = 2 then .ok iSize
  else .error EINVAL

/-- Both decoders: `fl_start`, `fl_end` and `fl_type`, or the error. -/
def toPosixLock (w : Nat) (fPos iSize : Int) (l : Flock) : Except Int (Int × Int × LockType) := do
  let pos ← seekPos fPos iSize l.lWhence
  let start := signed w (signed w pos + l.lStart)
  if start < 0 then throw EINVAL
  let (flStart, flEnd) ←
    if l.lLen > 0 then pure (start, signed w (start + l.lLen - 1))
    else if l.lLen < 0 then
      if signed w (start + l.lLen) < 0 then throw EINVAL
      else pure (signed w (start + l.lLen), start - 1)
    else pure (start, OFFSET_MAX)
  if flEnd < flStart then throw EOVERFLOW
  (assignType l.lType).map fun flType => (flStart, flEnd, flType)

def flockToPosixLock := toPosixLock 32
def flock64ToPosixLock := toPosixLock 64

/-! ## What is requested -/

/-- The range of `len` bytes at `s`: behind `s`, in front of it, or to the end of the file. -/
def posixRange (s len : Int) : Int × Int :=
  if len > 0 then (s, s + len - 1) else if len < 0 then (s + len, s - 1) else (s, OFFSET_MAX)

def Within (r : Int × Int) : Prop := 0 ≤ r.1 ∧ r.1 ≤ r.2 ∧ r.2 ≤ OFFSET_MAX

/-- A signed type of `w` bits has the value `x`. -/
def Fits (w : Nat) (x : Int) : Prop := -2 ^ (w - 1) ≤ x ∧ x < 2 ^ (w - 1)

variable (fPos iSize : Int) (l : Flock)

/-- What a decoder has to answer, if it has to accept. -/
def Requested (r : Int × Int × LockType) : Prop :=
  ∃ pos, seekPos fPos iSize l.lWhence = .ok pos ∧ Within (posixRange (pos + l.lStart) l.lLen) ∧
    assignType l.lType = .ok r.2.2 ∧ (r.1, r.2.1) = posixRange (pos + l.lStart) l.lLen

/-- **Agreement**: the same answer where `off_t` has the range, and both accept what is requested. -/
def Agree : Prop :=
  (∀ pos, seekPos fPos iSize l.lWhence = .ok pos → Fits 32 (posixRange (pos + l.lStart) l.lLen).1 →
    Fits 32 (posixRange (pos + l.lStart) l.lLen).2 →
    flockToPosixLock fPos iSize l = flock64ToPosixLock fPos iSize l) ∧
  ∀ r, (flockToPosixLock fPos iSize l = .ok r ↔ Requested fPos iSize l r) ∧
    (flock64ToPosixLock fPos iSize l = .ok r ↔ Requested fPos iSize l r)

/-- The tests refuse `len` bytes at the start `s` that they see. -/
def Refused (w : Nat) (s len : Int) : Prop := s < 0 ∨ s + len < 0 ∨ 2 ^ (w - 1) < s + len

/-- **Exact decoding** of `len` bytes at `s`: neither the start nor the end of a range that has to be
    accepted is cut, and the start of any other is refused, cut or not. -/
def Exact (w : Nat) (s len : Int) : Prop :=
  (Within (posixRange s len) → s < 2 ^ (w - 1) ∧ s + len ≤ 2 ^ (w - 1)) ∧
  (¬ Within (posixRange s len) → Refused w (signed w s) len)

/-! ## Agreement -/

variable {fPos iSize l} {w : Nat} {pos : Int}

theorem within_iff {s len : Int} : Within (posixRange s len) ↔ 0 ≤ s ∧ 0 ≤ s + len ∧
    s + max len 0 ≤ OFFSET_MAX + 1 ∧ (len = 0 → s ≤ OFFSET_MAX) := by
  unfold Within posixRange
  split_ifs <;> simp only <;> omega

theorem posixRange_inj {s s' len : Int} (h : posixRange s len = posixRange s' len) : s = s' := by
  unfold posixRange at h
  split_ifs at h <;> simp only [Prod.mk.injEq] at h <;> omega

section
variable (hw : w = 32 ∨ w = 64)
include hw

theorem signed_spec (x : Int) : Fits w (signed w x) ∧
    (Fits w x → signed w x = x) ∧ (2 ^ (w - 1) ≤ x → x < 2 ^ w → signed w x < 0) := by
  unfold Fits signed Int.bmod
  rcases hw with rfl | rfl <;> simp only [Nat.shiftLeft_eq] <;> omega

theorem width_spec : (2 : Int) ^ 31 ≤ 2 ^ (w - 1) ∧
    (2 : Int) ^ (w - 1) ≤ OFFSET_MAX + 1 ∧ (2 : Int) ^ w = 2 * 2 ^ (w - 1) := by
  rcases hw with rfl | rfl <;> decide

variable {s : Int} (hlen : Fits 32 l.lLen) (hpos : seekPos fPos iSize l.lWhence = .ok pos)
  (hs : pos + l.lStart = s)
include hlen hpos hs

/-- **The tests, on the start that they see.** -/
theorem toPosixLock_eq {c : Int} (hcut : signed w s = c) : toPosixLock w fPos iSize l =
      if c < 0 ∨ c + l.lLen < 0 then .error EINVAL
      else if 2 ^ (w - 1) < c + l.lLen then .error EOVERFLOW
      else (assignType l.lType).map fun t => ((posixRange c l.lLen).1, (posixRange c l.lLen).2, t) := by
  obtain ⟨h31, hmax, hdouble⟩ := width_spec hw
  obtain ⟨⟨hs1, hs2⟩, -, -⟩ := signed_spec hw s
  obtain ⟨hl1, hl2⟩ := hlen
  rw [hcut] at hs1 hs2
  unfold toPosixLock posixRange
  rw [hpos]
  simp only [bind, Except.bind, throw, throwThe, MonadExceptOf.throw, pure, Except.pure,
    show signed w (signed w pos + l.lStart) = c from (Int.bmod_add_bmod ..).trans (hs ▸ hcut)]
  have hend := signed_spec hw (c + l.lLen - 1)
  have hstart := signed_spec hw (c + l.lLen)
  unfold Fits at hend hstart
  rcases Int.lt_trichotomy l.lLen 0 with hl | hl | hl <;> grind

/-- A decoder accepts what is not `Refused`, if the type is one. -/
theorem toPosixLock_ok {r : Int × Int × LockType} :
    toPosixLock w fPos iSize l = .ok r ↔ ¬ Refused w (signed w s) l.lLen ∧
      assignType l.lType = .ok r.2.2 ∧ (r.1, r.2.1) = posixRange (signed w s) l.lLen := by
  rw [toPosixLock_eq hw hlen hpos hs rfl, Refused]
  generalize signed w s = c
  cases assignType l.lType <;> grind [Except.map]

/-- **One decoder**: its answers are those requested if it decodes exactly. -/
theorem exact_iff : (∀ r, toPosixLock w fPos iSize l = .ok r ↔ Requested fPos iSize l r) ↔
      ∀ t, assignType l.lType = .ok t → Exact w s l.lLen := by
  have hreq : ∀ r, Requested fPos iSize l r ↔ Within (posixRange s l.lLen) ∧
      assignType l.lType = .ok r.2.2 ∧ (r.1, r.2.1) = posixRange s l.lLen := by
    unfold Requested
    grind
  simp only [toPosixLock_ok hw hlen hpos hs, hreq]
  obtain ⟨hs, hin, -⟩ := signed_spec hw s
  constructor
  · intro h t ht
    refine ⟨fun hin => ?_, fun hout => ?_⟩
    · obtain ⟨hnot, -, he⟩ := (h (_, _, t)).mpr ⟨hin, ht, rfl⟩
      rw [← posixRange_inj he] at hs hnot
      unfold Refused at hnot
      exact ⟨hs.2, by omega⟩
    · by_contra hnot
      exact hout ((h (_, _, t)).mp ⟨hnot, ht, rfl⟩).1
  · intro h r
    rw [and_left_comm, and_left_comm (a := Within _)]
    refine and_congr_right fun ht => ?_
    obtain ⟨h1, h2⟩ := h _ ht
    by_cases hw' : Within (posixRange s l.lLen)
    · obtain ⟨hlt, hle⟩ := h1 hw'
      have h0 := within_iff.mp hw'
      rw [hin ⟨by have := width_spec hw; omega, hlt⟩]
      exact and_congr_left' (iff_of_true (by unfold Refused; omega) hw')
    · exact iff_of_false (fun h => h.1 (h2 hw')) fun h => hw' h.1

omit hw in
/-- In `off_t` the only start that is cut is the `2^31` behind a range of negative length. -/
theorem same_of_fits (hlo : Fits 32 (posixRange s l.lLen).1) (hhi : Fits 32 (posixRange s l.lLen).2)
    (h : ∀ t, assignType l.lType = .ok t → Exact 32 s l.lLen) :
    toPosixLock 32 fPos iSize l = toPosixLock 64 fPos iSize l := by
  have hcase : -2 ^ 31 ≤ s ∧ s + l.lLen ≤ 2 ^ 31 ∧ (s < 2 ^ 31 ∨ s = 2 ^ 31 ∧ l.lLen < 0) := by
    unfold Fits posixRange OFFSET_MAX at *
    split_ifs at hlo hhi <;> simp only at hlo hhi <;> omega
  have h64 := (signed_spec (w := 64) (.inr rfl) s).2.1 ⟨by omega, by omega⟩
  obtain ⟨-, h32, hwrap⟩ := signed_spec (w := 32) (.inl rfl) s
  rw [toPosixLock_eq (.inr rfl) hlen hpos hs h64, toPosixLock_eq (.inl rfl) hlen hpos hs rfl]
  -- the request at `2^31` has to be accepted, unless the type is none
  have hwithin : s = 2 ^ 31 → Within (posixRange s l.lLen) :=
    fun _ => within_iff.mpr (by unfold OFFSET_MAX Fits at *; omega)
  unfold Fits Exact assignType at *
  grind [Except.map]

end

/-- **When the decoders agree**: exactly when each of them decodes the request exactly, if it names a
    position and a type at all. -/
theorem decoders_agree_iff (fPos iSize : Int) (l : Flock) (hlen : Fits 32 l.lLen) : Agree fPos iSize l ↔
    ∀ pos, seekPos fPos iSize l.lWhence = .ok pos → ∀ t, assignType l.lType = .ok t →
      Exact 32 (pos + l.lStart) l.lLen ∧ Exact 64 (pos + l.lStart) l.lLen := by
  unfold Agree flockToPosixLock flock64ToPosixLock
  cases hpos : seekPos fPos iSize l.lWhence with
  | error e =>
    have hnone : ∀ w, toPosixLock w fPos iSize l = .error e := fun w => by unfold toPosixLock; rw [hpos]; rfl
    simp [hnone, Requested, hpos]
  | ok pos =>
    simp only [Except.ok.injEq, forall_eq', imp_and, forall_and, exact_iff (.inl rfl) hlen hpos rfl,
      exact_iff (.inr rfl) hlen hpos rfl]
    exact and_iff_right_of_imp fun h hlo hhi => same_of_fits hlen hpos rfl hlo hhi h.1

/-- `decoders_agree_iff` at `SEEK_SET`, `l_start = 10`, `l_len = 5`. -/
theorem decoders_agree_iff_ten : Agree 0 0 ⟨1, 0, 10, 5⟩ := by
  refine (decoders_agree_iff 0 0 _ ⟨by decide, by decide⟩).mpr fun pos hpos _ _ => ?_
  obtain rfl : 0 = pos := Except.ok.inj hpos
  exact ⟨⟨fun _ => by decide, fun h => absurd (within_iff.mpr (by decide)) h⟩, fun _ => by decide,
    fun h => absurd (within_iff.mpr (by decide)) h⟩

/-- **Past 2 GiB** the 32-bit decoder locks other bytes: `SEEK_CUR` at `2^32 + 10`. -/
theorem decoders_disagree : flockToPosixLock (2 ^ 32 + 10) 0 ⟨1, 1, 0, 1⟩ = .ok (10, 10, .wrlck) ∧
    flock64ToPosixLock (2 ^ 32 + 10) 0 ⟨1, 1, 0, 1⟩ = .ok (2 ^ 32 + 10, 2 ^ 32 + 10, .wrlck) ∧
    ¬ Agree (2 ^ 32 + 10) 0 ⟨1, 1, 0, 1⟩ := by
  refine ⟨by rfl, by rfl, fun h => ?_⟩
  obtain ⟨pos, hpos, -, -, he⟩ := (h.2 (10, 10, .wrlck)).1.mp (by rfl)
  obtain rfl : 2 ^ 32 + 10 = pos := Except.ok.inj hpos
  exact absurd he (by decide)

end LinuxKernel.Locks
