import Xv6.Fs.Syscalls

/-!
# Names of directory entries

A `struct dirent` has room for `DIRSIZ` characters and no more: a name of that length has no NUL
behind it, and of a longer one only the beginning is stored. `strncpy` writes such names and
`strncmp`, as `namecmp`, compares them. A string is a list of characters here, with NULs behind its
end.

## Main results

* `namecmp_eq_zero` — `namecmp` compares the first `DIRSIZ` characters, up to a NUL
-/

namespace Xv6.Fs

/-! ### Strings -/

/-- Compare at most `n` characters. -/
def strncmp : ℕ → (p q : List UInt8) → ℤ
  | 0, _, _ => 0
  | n + 1, p, q =>
    if p.headD 0 ≠ 0 ∧ p.headD 0 = q.headD 0 then strncmp n p.tail q.tail
    else (p.headD 0).toNat - (q.headD 0).toNat

/-- Copy at most `n` characters, and fill up with NULs. -/
def strncpy : ℕ → (t : List UInt8) → List UInt8
  | 0, _ => []
  | n + 1, t =>
    if t.headD 0 = 0 then List.replicate (n + 1) 0 else t.headD 0 :: strncpy n t.tail

/-- Compare names of directory entries. -/
def namecmp (s t : Name) : ℤ := strncmp dirsiz s t

/-- The part of a name that `namecmp` looks at. -/
def trim (name : Name) : Name := (cstring name).take dirsiz

theorem cstring_eq (s : List UInt8) :
    cstring s = if s.headD 0 = 0 then [] else s.headD 0 :: cstring s.tail := by
  cases s with
  | nil => rfl
  | cons c s =>
    by_cases hc : c = 0
    · simp [cstring, hc]
    · simp [cstring, hc]

theorem strncmp_eq_zero (n : ℕ) (p q : List UInt8) :
    strncmp n p q = 0 ↔ (cstring p).take n = (cstring q).take n := by
  induction n generalizing p q with
  | zero => simp [strncmp]
  | succ n ih =>
    rw [strncmp, cstring_eq p, cstring_eq q]
    generalize p.headD 0 = a, q.headD 0 = b
    have hdiff : (a.toNat : ℤ) - b.toNat = 0 ↔ a = b := by
      rw [← UInt8.toNat_inj]
      omega
    by_cases ha : a = 0
    · subst ha
      simp only [ne_eq, not_true_eq_false, false_and, if_false, if_true, hdiff]
      by_cases hb : b = 0
      · simp [hb]
      · simp [hb, Ne.symm hb]
    · by_cases hab : a = b
      · subst hab
        simp [ha, ih]
      · rw [if_neg fun h => hab h.2, hdiff, if_neg ha]
        by_cases hb : b = 0 <;> simp [ha, hb, hab]

theorem length_strncpy (n : ℕ) (t : List UInt8) : (strncpy n t).length = n := by
  induction n generalizing t with
  | zero => rfl
  | succ n ih =>
    rw [strncpy]
    split_ifs
    · simp
    · simp [ih]

/-- **`namecmp` compares the first `DIRSIZ` characters**, up to a NUL. -/
theorem namecmp_eq_zero (s t : Name) : namecmp s t = 0 ↔ trim s = trim t := strncmp_eq_zero _ _ _

/-! ### Entries -/

/-- The bytes of a `struct dirent`. -/
def direntBytes (inum : ℕ) (name : Name) : List UInt8 :=
  UInt8.ofNat inum :: UInt8.ofNat (inum / 256) :: strncpy dirsiz name

/-- `de.inum`. -/
def direntInum (de : List UInt8) : ℕ := (de.getD 0 0).toNat + 256 * (de.getD 1 0).toNat

/-- `de.name`. -/
def direntName (de : List UInt8) : Name := de.drop 2

@[simp] theorem length_direntBytes (inum : ℕ) (name : Name) :
    (direntBytes inum name).length = direntSize := by
  simp [direntBytes, length_strncpy]

end Xv6.Fs
