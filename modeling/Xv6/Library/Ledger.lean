import Mathlib.Tactic

/-!
# A bitmap and who has the units it marks

Units are numbered from 0 to `size`. Some are reserved; the others are handed out one at a time.
Keys of any kind hold units: `own k` is the unit that key `k` holds, and 0, which is reserved,
stands for none. The bitmap agrees with this if it marks the reserved units and those that are held,
and no unit is held twice.

## Main results

* `Ledger.take` — a key gets a unit
-/

/-- The bitmap marks what is reserved and what is held, and nothing is held twice. -/
structure Ledger {K : Type*} (size : ℕ) (reserved : ℕ → Prop) (bitmap : ℕ → Bool) (own : K → ℕ) :
    Prop where
  zero : reserved 0
  range : ∀ k, own k ≠ 0 → own k < size ∧ ¬reserved (own k)
  inj : ∀ k k', own k ≠ 0 → own k = own k' → k = k'
  bit : ∀ b < size, bitmap b = true ↔ reserved b ∨ ∃ k, own k = b

namespace Ledger

open Function

variable {K K' : Type*} {size : ℕ} {reserved : ℕ → Prop} {bitmap : ℕ → Bool} {own : K → ℕ} {b : ℕ}

section

variable (h : Ledger size reserved bitmap own)

include h

theorem ne_of_unmarked (hb : b < size) (hfree : bitmap b = false) (k : K) : own k ≠ b := by
  intro hk
  have := (h.bit b hb).mpr (.inr ⟨k, hk⟩)
  rw [hfree] at this
  exact Bool.false_ne_true this

theorem unmarked_ne_zero (hb : b < size) (hfree : bitmap b = false) : b ≠ 0 := by
  rintro rfl
  have := (h.bit 0 hb).mpr (.inl h.zero)
  rw [hfree] at this
  exact Bool.false_ne_true this

theorem bit_update {own' : K' → ℕ} {bit : Bool} (hb : bit = true ↔ reserved b ∨ ∃ k, own' k = b)
    (hsame : ∀ c, c ≠ 0 → c ≠ b → ((∃ k, own' k = c) ↔ ∃ k, own k = c)) (c : ℕ) (hc : c < size) :
    update bitmap b bit c = true ↔ reserved c ∨ ∃ k, own' k = c := by
  by_cases hcb : c = b
  · subst hcb
    rw [update_self]
    exact hb
  · rw [update_of_ne hcb, h.bit c hc]
    by_cases hc0 : c = 0
    · subst hc0
      exact iff_of_true (.inl h.zero) (.inl h.zero)
    · rw [hsame c hc0 hcb]

end

variable [DecidableEq K]

/-- **A key that has nothing gets an unmarked unit.** -/
theorem take (h : Ledger size reserved bitmap own) {k : K} (hk : own k = 0) (hb : b < size)
    (hfree : bitmap b = false) :
    Ledger size reserved (update bitmap b true) (update own k b) := by
  have hne := h.ne_of_unmarked hb hfree
  have hres : ¬reserved b := fun hr => by
    have := (h.bit b hb).mpr (.inl hr)
    rw [hfree] at this
    exact Bool.false_ne_true this
  refine ⟨h.zero, fun k' hk' => ?_, fun k₁ k₂ h₁ h₁₂ => ?_, h.bit_update ?_ fun c hc hcb => ?_⟩
  · by_cases hkk : k' = k
    · subst hkk
      rw [update_self]
      exact ⟨hb, hres⟩
    · rw [update_of_ne hkk] at hk' ⊢
      exact h.range k' hk'
  · by_cases h1 : k₁ = k <;> by_cases h2 : k₂ = k
    · exact h1.trans h2.symm
    · subst h1
      rw [update_self, update_of_ne h2] at h₁₂
      exact absurd h₁₂.symm (hne k₂)
    · subst h2
      rw [update_self, update_of_ne h1] at h₁₂
      exact absurd h₁₂ (hne k₁)
    · rw [update_of_ne h1] at h₁ h₁₂
      rw [update_of_ne h2] at h₁₂
      exact h.inj k₁ k₂ h₁ h₁₂
  · exact iff_of_true rfl (.inr ⟨k, update_self ..⟩)
  · refine exists_congr fun k' => ?_
    by_cases hkk : k' = k
    · subst hkk
      rw [update_self, hk]
      exact iff_of_false (Ne.symm hcb) (Ne.symm hc)
    · rw [update_of_ne hkk]

end Ledger
