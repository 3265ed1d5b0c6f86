import Mathlib.Tactic.Common
import Xv6.Library.ByteMemory

/-!
# `memmove`

The kernel's `memmove` of `string.c` and the user library's of `ulib.c`, on a memory with 32-bit
addresses. What both are for is `blit`, which reads all the bytes before it writes any.

## Main results

* `memmove_eq_blit` — the kernel copies overlapping ranges correctly
* `memmove_blit_iff` — the user library does so if the destination is not inside the source, or if
  the bytes there repeat
-/

namespace Xv6.Mem

open ByteMemory Function

/-- The address after `a`. -/
def next (a : ℕ) : ℕ := (a + 1) % 2 ^ 32

/-- The address before `a`. -/
def prev (a : ℕ) : ℕ := (a + (2 ^ 32 - 1)) % 2 ^ 32

/-- `while(n-- > 0) *d++ = *s++;` -/
def copyUp (b : ℕ → UInt8) (d s : ℕ) : ℕ → ℕ → UInt8
  | 0 => b
  | n + 1 => copyUp (update b d (b s)) (next d) (next s) n

/-- `while(n-- > 0) *--d = *--s;` -/
def copyDown (b : ℕ → UInt8) (d s : ℕ) : ℕ → ℕ → UInt8
  | 0 => b
  | n + 1 => copyDown (update b (prev d) (b (prev s))) (prev d) (prev s) n

/-- The kernel's `memmove`. -/
def memmove (b : ℕ → UInt8) (dst src n : ℕ) : ℕ → UInt8 :=
  if src < dst ∧ dst < (src + n) % 2 ^ 32 then
    copyDown b ((dst + n) % 2 ^ 32) ((src + n) % 2 ^ 32) n
  else copyUp b dst src n

/-- The user library's `memmove`, where `n` is an `int`. -/
def User.memmove (b : ℕ → UInt8) (dst src : ℕ) (n : ℤ) : ℕ → UInt8 := copyUp b dst src n.toNat

variable {b : ℕ → UInt8} {d s n x i : ℕ}

theorem copyUp_succ (hd : d + (n + 1) ≤ 2 ^ 32) (hs : s + (n + 1) ≤ 2 ^ 32) :
    copyUp b d s (n + 1) = copyUp (update b d (b s)) (d + 1) (s + 1) n := by
  cases n with
  | zero => rfl
  | succ n =>
    have hnext : next d = d + 1 ∧ next s = s + 1 := by
      constructor <;> exact Nat.mod_eq_of_lt (by omega)
    rw [copyUp, hnext.1, hnext.2]

theorem copyUp_of_lt (hd : d + n ≤ 2 ^ 32) (hs : s + n ≤ 2 ^ 32) (hx : x < d) :
    copyUp b d s n x = b x := by
  induction n generalizing b d s with
  | zero => rfl
  | succ n ih =>
    rw [copyUp_succ hd hs, ih (by omega) (by omega) (by omega), update_of_ne (by omega)]

theorem copyUp_get (hd : d + n ≤ 2 ^ 32) (hs : s + n ≤ 2 ^ 32) (hlt : s < d) (hi : i < n) :
    copyUp b d s n (d + i) = if s + i < d then b (s + i) else copyUp b d s n (s + i) := by
  induction n generalizing b d s i with
  | zero => exact absurd hi (Nat.not_lt_zero i)
  | succ n ih =>
    rw [copyUp_succ hd hs]
    have hat : copyUp (update b d (b s)) (d + 1) (s + 1) n d = b s := by
      rw [copyUp_of_lt (by omega) (by omega) (Nat.lt_succ_self d), update_self]
    cases i with
    | zero => exact hat.trans (if_pos hlt).symm
    | succ i =>
      rw [show d + (i + 1) = d + 1 + i by omega, show s + (i + 1) = s + 1 + i by omega,
        ih (by omega) (by omega) (by omega) (by omega)]
      rcases Nat.lt_trichotomy (s + 1 + i) d with h | h | h
      · rw [if_pos (by omega), if_pos h, update_of_ne (by omega)]
      · rw [if_pos (by omega), if_neg (by omega), h, hat, update_self]
      · rw [if_neg (by omega), if_neg (by omega)]

/-- The bytes of the source that are in the destination are those at the beginning of the source. -/
def Repeats (b : ℕ → UInt8) (d s n : ℕ) : Prop :=
  s < d → ∀ i, d + i < s + n → b (d + i) = b (s + i)

theorem copyUp_eq_blit (hd : d + n ≤ 2 ^ 32) (hs : s + n ≤ 2 ^ 32) (h : Repeats b d s n) :
    copyUp b d s n = blit b d s n := by
  induction n generalizing b d s with
  | zero =>
    funext x
    exact (blit_of_notMem (by omega)).symm
  | succ n ih =>
    have hstep : Repeats (update b d (b s)) (d + 1) (s + 1) n := by
      intro hlt i hi
      have h1 := h (by omega) (i + 1) (by omega)
      rw [update_of_ne (by omega), show d + 1 + i = d + (i + 1) by omega, h1]
      by_cases hsd : s + 1 + i = d
      · rw [hsd, update_self, show s + (i + 1) = d + 0 by omega]
        exact h (by omega) 0 (by omega)
      · rw [update_of_ne hsd, Nat.add_right_comm, Nat.add_assoc]
    rw [copyUp_succ hd hs, ih (by omega) (by omega) hstep]
    funext x
    by_cases hx : d + 1 ≤ x ∧ x < d + 1 + n
    · rw [blit_of_mem hx.1 hx.2, blit_of_mem (by omega) (by omega),
        show s + 1 + (x - (d + 1)) = s + (x - d) by omega]
      by_cases hsd : s + (x - d) = d
      · rw [hsd, update_self]
        exact (h (by omega) 0 (by omega)).symm
      · exact update_of_ne hsd _ _
    · rw [blit_of_notMem (by omega)]
      by_cases hxd : x = d
      · rw [hxd, update_self, blit_of_mem le_rfl (by omega), Nat.sub_self, Nat.add_zero]
      · rw [update_of_ne hxd, blit_of_notMem (by omega)]

theorem copyUp_eq_blit_iff (hd : d + n ≤ 2 ^ 32) (hs : s + n ≤ 2 ^ 32) :
    copyUp b d s n = blit b d s n ↔ Repeats b d s n := by
  refine ⟨fun h hlt i hi => ?_, copyUp_eq_blit hd hs⟩
  have hget := copyUp_get (b := b) (i := d - s + i) hd hs hlt (by omega)
  rw [if_neg (by omega), h, blit_of_mem (by omega) (by omega), blit_of_mem (by omega) (by omega)]
    at hget
  rwa [show s + (d + (d - s + i) - d) = d + i by omega,
    show s + (s + (d - s + i) - d) = s + i by omega] at hget

theorem copyDown_eq_blit (hd : d + n ≤ 2 ^ 32) (hsd : s ≤ d) :
    copyDown b ((d + n) % 2 ^ 32) ((s + n) % 2 ^ 32) n = blit b d s n := by
  induction n generalizing b with
  | zero =>
    funext x
    exact (blit_of_notMem (by omega)).symm
  | succ n ih =>
    have hprev : ∀ a, a + n < 2 ^ 32 → prev ((a + (n + 1)) % 2 ^ 32) = (a + n) % 2 ^ 32 := by
      intro a ha
      rw [prev]
      omega
    rw [copyDown, hprev d (by omega), hprev s (by omega), ih (by omega)]
    rw [Nat.mod_eq_of_lt (by omega : d + n < 2 ^ 32), Nat.mod_eq_of_lt (by omega : s + n < 2 ^ 32)]
    funext x
    by_cases hx : d ≤ x ∧ x < d + n
    · rw [blit_of_mem hx.1 hx.2, blit_of_mem hx.1 (by omega), update_of_ne (by omega)]
    · rw [blit_of_notMem (by omega)]
      by_cases hxd : x = d + n
      · rw [hxd, update_self, blit_of_mem (by omega) (by omega), Nat.add_sub_cancel_left]
      · rw [update_of_ne hxd, blit_of_notMem (by omega)]

theorem memmove_eq_blit {dst src : ℕ} (hd : dst + n ≤ 2 ^ 32) (hs : src + n ≤ 2 ^ 32) :
    memmove b dst src n = blit b dst src n := by
  rw [memmove]
  split_ifs with h
  · exact copyDown_eq_blit hd h.1.le
  · exact copyUp_eq_blit hd hs fun hlt i hi => absurd ⟨hlt, by omega⟩ h

/-- **Both `memmove`s.** The kernel's copies overlapping ranges correctly. The user library's does
so if and only if what of the source is in the destination repeats the beginning of the source. -/
theorem memmove_blit_iff {dst src : ℕ} (hd : dst + n ≤ 2 ^ 32) (hs : src + n ≤ 2 ^ 32) :
    memmove b dst src n = blit b dst src n ∧
      (User.memmove b dst src n = blit b dst src n ↔ Repeats b dst src n) :=
  ⟨memmove_eq_blit hd hs, copyUp_eq_blit_iff hd hs⟩

theorem memmove_blit_iff_small :
    memmove (fun x => UInt8.ofNat x) 1 0 2 = blit (fun x => UInt8.ofNat x) 1 0 2 ∧
      (User.memmove (fun x => UInt8.ofNat x) 1 0 2 = blit (fun x => UInt8.ofNat x) 1 0 2 ↔
        Repeats (fun x => UInt8.ofNat x) 1 0 2) :=
  memmove_blit_iff (by decide) (by decide)

/-- Two bytes are moved up by one, and the first is copied twice. -/
theorem user_memmove_overlap :
    User.memmove (fun x => UInt8.ofNat x) 1 0 2 2 ≠ blit (fun x => UInt8.ofNat x) 1 0 2 2 := by
  decide

end Xv6.Mem
