import Mathlib.Data.Nat.ModEq
import Mathlib.Data.List.Infix
import Mathlib.Logic.Function.Basic

/-!
# Ring buffers with free-running counters

An array of `n` cells in which the `i`th element ever put in is at `i % n`. Two counters, of the
elements put in and of the elements taken out, are never reset; they are kept modulo some `m`.

`Holds` relates the array to the two histories, of everything that has been put in and of everything
that has been taken out. Both ends of the buffer only add to their history.

## Main results

* `Holds.put`, `Holds.take`, `Holds.unput` — the ways a buffer changes
* `Holds.contents` — the array has what was put in and has not been taken out
* `full_iff`, `mod_eq_iff`, `sub_eq` — what the counters tell, although they wrap
-/

namespace RingBuffer

variable {α : Type*} {n : ℕ} {data : ℕ → α} {xs ys : List α}

/-- The elements `xs` have been put in, `ys` of them have been taken out, and the array has the
others. -/
structure Holds (n : ℕ) (data : ℕ → α) (xs ys : List α) : Prop where
  order : ys <+: xs
  room : xs.length ≤ ys.length + n
  slot : ∀ i, ys.length ≤ i → i < xs.length → xs[i]? = some (data (i % n))

theorem Holds.empty (n : ℕ) (data : ℕ → α) : Holds n data [] [] :=
  ⟨List.prefix_rfl, Nat.zero_le _, fun _ _ hi => absurd hi (Nat.not_lt_zero _)⟩

/-- Elements that are in the buffer at the same time are in different cells. -/
theorem mod_ne {i j : ℕ} (hij : i < j) (hj : j < i + n) : i % n ≠ j % n := by
  intro h
  have hdvd : n ∣ j - i := (Nat.modEq_iff_dvd' hij.le).mp h
  have := Nat.le_of_dvd (by omega) hdvd
  omega

/-- **An element is put in**, if there is room. -/
theorem Holds.put (h : Holds n data xs ys) (a : α) (hroom : xs.length < ys.length + n) :
    Holds n (Function.update data (xs.length % n) a) (xs ++ [a]) ys := by
  refine ⟨h.order.trans (List.prefix_append _ _), ?_, fun i hi hlt => ?_⟩
  · rw [List.length_append, List.length_singleton]
    exact hroom
  · rcases (Nat.lt_succ_iff_lt_or_eq.mp (by simpa using hlt)) with hlt | rfl
    · rw [List.getElem?_append_left hlt, h.slot i hi hlt, Function.update_of_ne]
      exact mod_ne hlt (by omega)
    · simp

/-- **The last element is taken back**, if it is still there. -/
theorem Holds.unput {a : α} (h : Holds n data (xs ++ [a]) ys) (hle : ys.length ≤ xs.length) :
    Holds n data xs ys := by
  refine ⟨?_, ?_, fun i hi hlt => ?_⟩
  · exact List.prefix_of_prefix_length_le h.order (List.prefix_append _ _) hle
  · have := h.room
    rw [List.length_append, List.length_singleton] at this
    omega
  · have hslot := h.slot i hi (by simp; omega)
    rwa [List.getElem?_append_left hlt] at hslot

/-- **An element is taken out**, if there is one. -/
theorem Holds.take (h : Holds n data xs ys) (hne : ys.length < xs.length) :
    Holds n data xs (ys ++ [data (ys.length % n)]) := by
  have hslot := h.slot ys.length le_rfl hne
  refine ⟨?_, ?_, fun i hi hlt => h.slot i ?_ hlt⟩
  · obtain ⟨rest, rfl⟩ := h.order
    rw [List.getElem?_append_right le_rfl, Nat.sub_self] at hslot
    obtain ⟨a, rest, rfl⟩ := List.exists_cons_of_ne_nil (l := rest) (by rintro rfl; simp at hslot)
    obtain rfl : a = data (ys.length % n) := by simpa using hslot
    exact ⟨rest, by simp⟩
  · have := h.room
    simp
    omega
  · simp at hi
    omega

/-- **What is in the array.** -/
theorem Holds.contents (h : Holds n data xs ys) :
    xs = ys ++ (List.range (xs.length - ys.length)).map fun j => data ((ys.length + j) % n) := by
  obtain ⟨rest, hrest⟩ := h.order
  have hlen : rest.length = xs.length - ys.length := by
    rw [← hrest]
    simp
  rw [← hlen]
  conv_lhs => rw [← hrest]
  congr 1
  refine List.ext_getElem? fun j => ?_
  by_cases hj : j < rest.length
  · have hslot := h.slot (ys.length + j) (Nat.le_add_right _ _) (by omega)
    rw [← hrest, List.getElem?_append_right (Nat.le_add_right _ _), Nat.add_sub_cancel_left]
      at hslot
    rw [hslot, List.getElem?_map, List.getElem?_range hj, Option.map_some]
  · rw [List.getElem?_eq_none (by omega), List.getElem?_eq_none (by simpa using hj)]

section Counters

variable {m a b : ℕ}

theorem sub_eq (hab : b ≤ a) (hlt : a - b < m) : (m - b % m + a % m) % m = a - b := by
  have hm : 0 < m := by omega
  have hb : b % m < m := Nat.mod_lt _ hm
  have hsum : m - b % m + a % m ≡ a - b [MOD m] := by
    refine Nat.ModEq.add_left_cancel' (b % m) ?_
    rw [← Nat.add_assoc, Nat.add_sub_cancel' hb.le]
    calc m + a % m ≡ a [MOD m] := by simp [Nat.ModEq]
      _ = b + (a - b) := by omega
      _ ≡ b % m + (a - b) [MOD m] := (Nat.mod_modEq b m).symm.add_right _
  rw [hsum, Nat.mod_eq_of_lt hlt]

theorem mod_eq_iff (hab : b ≤ a) (hlt : a - b < m) : b % m = a % m ↔ a = b := by
  constructor
  · intro h
    have hdvd : m ∣ a - b := (Nat.modEq_iff_dvd' hab).mp h
    have := Nat.eq_zero_of_dvd_of_lt hdvd hlt
    omega
  · rintro rfl
    rfl

theorem full_iff (hab : b ≤ a) (hroom : a ≤ b + n) (hn : n < m) :
    a % m = (b % m + n) % m ↔ a = b + n := by
  rw [Nat.mod_add_mod, mod_eq_iff hroom (by omega), eq_comm]

end Counters

end RingBuffer
