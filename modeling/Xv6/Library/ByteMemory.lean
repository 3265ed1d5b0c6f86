import Mathlib.Tactic
import Mathlib.Data.Nat.Bitwise

/-!
# Byte-addressed memory

A memory is a function from addresses to bytes. This file has the ways the rest of the development
touches one — a little-endian 32-bit load and store, a fill, a block copy, and the writing of a
list of bytes, in a row or each to its own address — and the read-over-write lemmas for them.

Nothing here bounds an address or an alignment in a definition. Where two accesses must not
overlap, the lemma says so: two distinct 4-aligned words are disjoint, and that is the only form
of disjointness a table of words needs.

## Main results

* `load32_store32_self`, `load32_store32_of_ne` — read over write for aligned words
* `load32_congr` — a load depends on four bytes only
* `mul_or_eq_add`, `mul_add_and` — packing flag bits below an aligned address
-/

namespace ByteMemory

open Function List

/-- The little-endian 32-bit word at `a`. -/
def load32 (b : ℕ → UInt8) (a : ℕ) : ℕ :=
  (b a).toNat + 256 * (b (a + 1)).toNat + 65536 * (b (a + 2)).toNat
    + 16777216 * (b (a + 3)).toNat

/-- Overwrite the word at `a`. Only the low 32 bits of `w` are stored. -/
def store32 (b : ℕ → UInt8) (a w : ℕ) : ℕ → UInt8 := fun x =>
  if x = a then UInt8.ofNat w
  else if x = a + 1 then UInt8.ofNat (w / 256)
  else if x = a + 2 then UInt8.ofNat (w / 65536)
  else if x = a + 3 then UInt8.ofNat (w / 16777216)
  else b x

/-- Set the `n` bytes from `a` on to `c`. -/
def fill (b : ℕ → UInt8) (a : ℕ) (c : UInt8) (n : ℕ) : ℕ → UInt8 := fun x =>
  if a ≤ x ∧ x < a + n then c else b x

/-- Copy `n` bytes from `src` to `dst`, reading all of them before writing any. -/
def blit (b : ℕ → UInt8) (dst src n : ℕ) : ℕ → UInt8 := fun x =>
  if dst ≤ x ∧ x < dst + n then b (src + (x - dst)) else b x

/-- Write the bytes of a list from `a` on. -/
def place (b : ℕ → UInt8) (a : ℕ) (l : List UInt8) : ℕ → UInt8 := fun x =>
  if a ≤ x ∧ x < a + l.length then l.getD (x - a) 0 else b x

/-- Write bytes to the addresses they come with, in order. -/
def writeAll (b : ℕ → UInt8) (l : List (ℕ × UInt8)) : ℕ → UInt8 :=
  l.foldl (fun b s => update b s.1 s.2) b

variable {b b' : ℕ → UInt8} {a a' w : ℕ} {n x : ℕ}

theorem load32_lt (b : ℕ → UInt8) (a : ℕ) : load32 b a < 2 ^ 32 := by
  have h0 := (b a).toNat_lt
  have h1 := (b (a + 1)).toNat_lt
  have h2 := (b (a + 2)).toNat_lt
  have h3 := (b (a + 3)).toNat_lt
  simp only [load32]
  omega

theorem load32_congr (h : ∀ x, a ≤ x → x < a + 4 → b x = b' x) : load32 b a = load32 b' a := by
  simp only [load32]
  rw [h a (by omega) (by omega), h (a + 1) (by omega) (by omega), h (a + 2) (by omega) (by omega),
    h (a + 3) (by omega) (by omega)]

/-- **Read after write.** -/
theorem load32_store32_self (hw : w < 2 ^ 32) : load32 (store32 b a w) a = w := by
  simp [load32, store32]
  omega

variable {x : ℕ}

theorem store32_of_notMem (h : x < a ∨ a + 4 ≤ x) : store32 b a w x = b x := by
  simp only [store32]
  rw [if_neg (by omega), if_neg (by omega), if_neg (by omega), if_neg (by omega)]

theorem load32_store32_of_far (h : a' + 4 ≤ a ∨ a + 4 ≤ a') :
    load32 (store32 b a w) a' = load32 b a' :=
  load32_congr fun x hx hx' => store32_of_notMem (by omega)

/-- **Read another word.** -/
theorem load32_store32_of_ne (ha : a % 4 = 0) (ha' : a' % 4 = 0) (h : a ≠ a') :
    load32 (store32 b a w) a' = load32 b a' :=
  load32_store32_of_far (by omega)

/-- The memory whose aligned words are given. -/
def ofWords (w : ℕ → ℕ) : ℕ → UInt8 := fun x => UInt8.ofNat (w (x / 4 * 4) / 256 ^ (x % 4))

theorem load32_ofWords {w : ℕ → ℕ} (ha : a % 4 = 0) (hw : w a < 2 ^ 32) :
    load32 (ofWords w) a = w a := by
  have h0 : a / 4 * 4 = a ∧ a % 4 = 0 := by omega
  have h1 : (a + 1) / 4 * 4 = a ∧ (a + 1) % 4 = 1 := by omega
  have h2 : (a + 2) / 4 * 4 = a ∧ (a + 2) % 4 = 2 := by omega
  have h3 : (a + 3) / 4 * 4 = a ∧ (a + 3) % 4 = 3 := by omega
  simp only [load32, ofWords, h0.1, h0.2, h1.1, h1.2, h2.1, h2.2, h3.1, h3.2]
  simp
  omega

theorem fill_of_notMem {c : UInt8} (h : x < a ∨ a + n ≤ x) : fill b a c n x = b x :=
  if_neg (by omega)

theorem fill_of_mem {c : UInt8} (h : a ≤ x) (h' : x < a + n) : fill b a c n x = c :=
  if_pos ⟨h, h'⟩

theorem load32_fill_zero (h : a ≤ a') (h' : a' + 4 ≤ a + n) :
    load32 (fill b a 0 n) a' = 0 := by
  simp only [load32]
  rw [fill_of_mem (by omega) (by omega), fill_of_mem (by omega) (by omega),
    fill_of_mem (by omega) (by omega), fill_of_mem (by omega) (by omega)]
  rfl

theorem blit_of_notMem {dst src : ℕ} (h : x < dst ∨ dst + n ≤ x) : blit b dst src n x = b x :=
  if_neg (by omega)

theorem blit_of_mem {dst src : ℕ} (h : dst ≤ x) (h' : x < dst + n) :
    blit b dst src n x = b (src + (x - dst)) :=
  if_pos ⟨h, h'⟩

theorem place_of_notMem {l : List UInt8} (h : x < a ∨ a + l.length ≤ x) : place b a l x = b x :=
  if_neg (by omega)

theorem place_of_mem {l : List UInt8} (h : a ≤ x) (h' : x < a + l.length) :
    place b a l x = l.getD (x - a) 0 :=
  if_pos ⟨h, h'⟩

theorem place_append (b : ℕ → UInt8) (a : ℕ) (l l' : List UInt8) :
    place (place b a l) (a + l.length) l' = place b a (l ++ l') := by
  funext x
  by_cases h' : a + l.length ≤ x ∧ x < a + l.length + l'.length
  · rw [place_of_mem h'.1 h'.2, place_of_mem (by omega) (by rw [length_append]; omega),
      getD_append_right _ _ _ _ (by omega), Nat.sub_sub]
  · rw [place_of_notMem (by omega)]
    by_cases h : a ≤ x ∧ x < a + l.length
    · rw [place_of_mem h.1 h.2, place_of_mem (by omega) (by rw [length_append]; omega),
        getD_append _ _ _ _ (by omega)]
    · rw [place_of_notMem (by omega), place_of_notMem (by rw [length_append]; omega)]

theorem writeAll_of_notMem {l : List (ℕ × UInt8)} (h : ∀ s ∈ l, s.1 ≠ x) :
    writeAll b l x = b x := by
  induction l generalizing b with
  | nil => rfl
  | cons s l ih =>
    have hs : x ≠ s.1 := (h s mem_cons_self).symm
    refine (ih fun t ht => h t (mem_cons_of_mem s ht)).trans ?_
    exact update_of_ne hs _ _

theorem writeAll_range (g : ℕ → UInt8) (n x : ℕ) :
    writeAll b ((List.range n).map fun i => (a + i, g i)) x =
      if a ≤ x ∧ x < a + n then g (x - a) else b x := by
  induction n with
  | zero => rw [if_neg (by omega)]; rfl
  | succ n ih =>
    rw [range_succ, map_append, writeAll, foldl_append]
    rw [show List.foldl (fun b s => update b s.1 s.2) b ((List.range n).map fun i => (a + i, g i)) =
        writeAll b ((List.range n).map fun i => (a + i, g i)) from rfl]
    simp only [map_cons, map_nil, foldl_cons, foldl_nil]
    by_cases hx : x = a + n
    · rw [hx, update_self, if_pos (by omega), Nat.add_sub_cancel_left]
    · rw [update_of_ne hx, ih]
      exact if_congr (by omega) rfl rfl

/-! ### Flag bits below an aligned address

Table entries keep an aligned address in the high bits and flags in the low twelve. -/

theorem mul_or_eq_add {k f : ℕ} (h : f < 4096) : 4096 * k ||| f = 4096 * k + f :=
  (Nat.two_pow_add_eq_or_of_lt (i := 12) h k).symm

theorem mul_add_and {k f m : ℕ} (hm : m < 4096) : (4096 * k + f) &&& m = f &&& m := by
  have h1 : ((4096 * k + f) &&& m) % 2 ^ 12 = (4096 * k + f) % 2 ^ 12 &&& m % 2 ^ 12 :=
    Nat.and_mod_two_pow
  have h2 : (f &&& m) % 2 ^ 12 = f % 2 ^ 12 &&& m % 2 ^ 12 := Nat.and_mod_two_pow
  have h3 : (4096 * k + f) &&& m ≤ m := Nat.and_le_right
  have h4 : f &&& m ≤ m := Nat.and_le_right
  rw [show (4096 * k + f) % 2 ^ 12 = f % 2 ^ 12 by omega, Nat.mod_eq_of_lt (by omega)] at h1
  rw [Nat.mod_eq_of_lt (by omega)] at h2
  rw [h1, h2]

end ByteMemory
