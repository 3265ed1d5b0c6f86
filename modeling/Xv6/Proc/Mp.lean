import Mathlib.Data.Nat.Basic
import Mathlib.Logic.Function.Iterate
import Mathlib.Order.Basic
import Mathlib.Tactic.Common

/-!
# The table of processors

`mpinit` walks the configuration table that the firmware leaves in memory. The table is a function
from offsets to bytes, since the walk may read behind the end of a table that ends inside an entry.

## Main results

* `walk_total_iff` — the walk ends and stays inside `cpus` if and only if all entries are of a known
  type and at most `NCPU` of them are processors
-/

namespace Xv6.Mp

open Function

/-- The most processors there can be. -/
def NCPU : ℕ := 8

variable (t : ℕ → UInt8)

/-- The `length` of the table, a field of its header. -/
def length : ℕ := (t 4).toNat + 256 * (t 5).toNat

/-- The sum of the first bytes, which is returned as a byte. -/
def sum : ℕ → UInt8
  | 0 => 0
  | n + 1 => sum n + t n

/-- The tests of `mpconfig`: the signature `PCMP`, the version and the checksum. -/
def mpconfig : Bool :=
  (List.range 4).map t = [80, 67, 77, 80] ∧ (t 6 = 1 ∨ t 6 = 4) ∧ sum t (length t) = 0

/-- What the loop of `mpinit` sets. -/
structure Walk where
  p : ℕ
  ismp : Bool
  ncpu : ℕ
  bcpu : ℕ
  ioapicid : UInt8
  cpus : ℕ → Option UInt8

/-- Before the first entry, which comes after the header. -/
def start : Walk := ⟨44, true, 0, 0, 0, fun _ => none⟩

/-- One round of the loop. An entry of an unknown type is not skipped. -/
def entry (w : Walk) : Walk :=
  -- `MPPROC`
  if t w.p = 0 then
    { w with
      ismp := w.ismp && w.ncpu == (t (w.p + 1)).toNat
      -- `MPBOOT`
      bcpu := if t (w.p + 3) &&& 2 ≠ 0 then w.ncpu else w.bcpu
      cpus := update w.cpus w.ncpu (some (UInt8.ofNat w.ncpu))
      ncpu := w.ncpu + 1
      p := w.p + 20 }
  -- `MPIOAPIC`
  else if t w.p = 2 then { w with ioapicid := t (w.p + 1), p := w.p + 8 }
  -- `MPBUS`, `MPIOINTR` and `MPLINTR`
  else if t w.p ∈ [1, 3, 4] then { w with p := w.p + 8 }
  else { w with ismp := false }

/-- A round, if there is one. -/
def round (w : Walk) : Walk := if w.p < length t then entry t w else w

/-- The walk after `n` rounds. -/
def walk (n : ℕ) : Walk := (round t)^[n] start

/-- From `p` on the table has entries of known types only, and `k` of them are processors. -/
inductive Entries : ℕ → ℕ → Prop
  | done {p} : length t ≤ p → Entries p 0
  | proc {p k} : p < length t → t p = 0 → Entries (p + 20) k → Entries p (k + 1)
  | other {p k} : p < length t → t p ∈ [1, 2, 3, 4] → Entries (p + 8) k → Entries p k

variable {t} {w : Walk} {k n : ℕ}

theorem round_of_le (h : length t ≤ w.p) : round t w = w := if_neg h.not_gt

theorem round_proc (h : w.p < length t) (ht : t w.p = 0) :
    (round t w).p = w.p + 20 ∧ (round t w).ncpu = w.ncpu + 1 := by
  simp [round, entry, h, ht]

theorem round_other (h : w.p < length t) (ht : t w.p ∈ [1, 2, 3, 4]) :
    (round t w).p = w.p + 8 ∧ (round t w).ncpu = w.ncpu := by
  simp only [List.mem_cons, List.not_mem_nil, or_false] at ht
  rcases ht with ht | ht | ht | ht <;> simp [round, entry, h, ht]

theorem round_unknown (h0 : t w.p ≠ 0) (ht : t w.p ∉ [1, 2, 3, 4]) :
    (round t w).p = w.p ∧ (round t w).ncpu = w.ncpu := by
  simp only [List.mem_cons, List.not_mem_nil, or_false, not_or] at ht
  rw [round]
  split
  · rw [entry, if_neg h0, if_neg ht.2.1, if_neg (by simp [ht])]
    exact ⟨rfl, rfl⟩
  · exact ⟨rfl, rfl⟩

theorem cpus_walk (n i : ℕ) : (walk t n).cpus i ≠ none ↔ i < (walk t n).ncpu := by
  induction n with
  | zero => simp [walk, start]
  | succ n ih =>
    rw [walk, iterate_succ_apply', ← walk, round]
    split
    · rw [entry]
      split
      · change update (walk t n).cpus _ _ i ≠ none ↔ i < (walk t n).ncpu + 1
        by_cases hi : i = (walk t n).ncpu
        · simp [hi]
        · rw [update_of_ne hi, ih]
          omega
      · split_ifs <;> exact ih
    · exact ih

theorem entries_of_walk (h : length t ≤ ((round t)^[n] w).p) :
    ∃ k, Entries t w.p k ∧ ((round t)^[n] w).ncpu = w.ncpu + k := by
  induction n generalizing w with
  | zero => exact ⟨0, .done h, rfl⟩
  | succ n ih =>
    rw [iterate_succ_apply] at h ⊢
    obtain ⟨k, hk, hn⟩ := ih h
    by_cases hp : w.p < length t
    · by_cases h0 : t w.p = 0
      · obtain ⟨hp', hn'⟩ := round_proc hp h0
        exact ⟨k + 1, .proc hp h0 (hp' ▸ hk), by omega⟩
      by_cases ht : t w.p ∈ [1, 2, 3, 4]
      · obtain ⟨hp', hn'⟩ := round_other hp ht
        exact ⟨k, .other hp ht (hp' ▸ hk), hn' ▸ hn⟩
      · obtain ⟨hp', hn'⟩ := round_unknown h0 ht
        exact ⟨k, hp' ▸ hk, hn' ▸ hn⟩
    · rw [round_of_le (not_lt.mp hp)] at hk hn ⊢
      exact ⟨k, hk, hn⟩

theorem ends_succ {k' : ℕ} (h : (∃ n, length t ≤ ((round t)^[n] (round t w)).p) ∧
      ∀ n, ((round t)^[n] (round t w)).ncpu ≤ (round t w).ncpu + k)
    (hk : (round t w).ncpu + k = w.ncpu + k') :
    (∃ n, length t ≤ ((round t)^[n] w).p) ∧ ∀ n, ((round t)^[n] w).ncpu ≤ w.ncpu + k' := by
  refine ⟨h.1.imp' (· + 1) fun n hn => hn, fun n => ?_⟩
  cases n with
  | zero => exact Nat.le_add_right _ _
  | succ n => exact hk ▸ h.2 n

theorem Entries.walk {p : ℕ} (h : Entries t p k) (hp : w.p = p) :
    (∃ n, length t ≤ ((round t)^[n] w).p) ∧ ∀ n, ((round t)^[n] w).ncpu ≤ w.ncpu + k := by
  induction h generalizing w with
  | done hle =>
    subst hp
    refine ⟨⟨0, hle⟩, fun n => ?_⟩
    rw [iterate_fixed (round_of_le hle)]
    exact le_rfl
  | proc hlt ht h ih =>
    subst hp
    obtain ⟨hp, hn⟩ := round_proc hlt ht
    exact ends_succ (ih hp) (by omega)
  | other hlt ht h ih =>
    subst hp
    obtain ⟨hp, hn⟩ := round_other hlt ht
    exact ends_succ (ih hp) (by omega)

variable (t) in
/-- **The walk ends and writes below `NCPU` only, if and only if the entries are of known types and
at most `NCPU` of them are processors.** -/
theorem walk_total_iff :
    ((∃ n, length t ≤ (walk t n).p) ∧ ∀ n i, (walk t n).cpus i ≠ none → i < NCPU) ↔
      ∃ k ≤ NCPU, Entries t 44 k := by
  constructor
  · rintro ⟨⟨n, hn⟩, hcpus⟩
    obtain ⟨k, hk, hncpu⟩ := entries_of_walk hn
    refine ⟨k, ?_, hk⟩
    by_contra hlt
    refine lt_irrefl NCPU (hcpus n NCPU ((cpus_walk n NCPU).mpr ?_))
    have h0 : start.ncpu = 0 := rfl
    rw [Mp.walk]
    omega
  · rintro ⟨k, hk, h⟩
    obtain ⟨hend, hle⟩ := h.walk (w := start) rfl
    refine ⟨hend, fun n i hi => ((cpus_walk n i).mp hi).trans_le ((hle n).trans ?_)⟩
    exact (Nat.zero_add k).le.trans hk

/-- A table with one entry, of a type that is not known. -/
def unknownType : ℕ → UInt8 := fun i =>
  if i = 44 then 5 else [80, 67, 77, 80, 45, 0, 1, 157].getD i 0

/-- A table with nine processors. -/
def nineCpus : ℕ → UInt8 := fun i => [80, 67, 77, 80, 224, 0, 1, 239].getD i 0

/-- The walk does not get past an entry of an unknown type, and it writes behind the end of `cpus`
if there are nine processors. -/
theorem walk_not_total :
    mpconfig unknownType = true ∧ (∀ n, (walk unknownType n).p < length unknownType) ∧
      mpconfig nineCpus = true ∧ (walk nineCpus 9).cpus NCPU ≠ none := by
  refine ⟨by decide, fun n => ?_, by decide +kernel, by decide⟩
  have hp : (walk unknownType n).p = 44 := by
    induction n with
    | zero => rfl
    | succ n ih =>
      rw [walk, iterate_succ_apply', ← walk]
      refine (round_unknown ?_ ?_).1.trans ih <;> rw [ih] <;> decide
  rw [hp]
  decide

end Xv6.Mp
