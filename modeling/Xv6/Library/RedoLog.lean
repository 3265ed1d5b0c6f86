import Mathlib.Tactic
import Mathlib.Data.List.Nodup
import Mathlib.Logic.Function.Basic

/-!
# Redo logging

A store of cells part of which is a log: a header cell that names some cells of the rest, and one
slot for each cell it names. What the store *stands for* is what installing every slot at the cell
it is for would give. `Recoverable` says that a store stands for given contents.

The rules below are for one write of one cell at a time, so they describe every moment at which
the writing may stop. A write of a slot under a clear header changes nothing, the write of the
header changes everything at once, installing a slot changes nothing, and neither does clearing
the header once every slot is installed.

## Main results

* `Recoverable.write_slot`, `Recoverable.install`, `Recoverable.clear` — writes that keep the
  contents
* `Recoverable.commit` — the one write that changes them
* `Recoverable.recovered` — under a clear header the store is what it stands for
-/

namespace RedoLog

open Function

variable {α β : Type*} {i t : ℕ}

/-- Where the log is and how its header is read. -/
structure Layout (α β : Type*) where
  header : α
  /-- The slots, one for each entry of the header. -/
  slot : ℕ → α
  cap : ℕ
  /-- The cells of the store that are not part of the log. -/
  home : Set α
  /-- The cells a header names, in the order of their slots. -/
  entries : β → List α
  header_notMem : header ∉ home
  slot_notMem : ∀ i < cap, slot i ∉ home
  slot_ne_header : ∀ i < cap, slot i ≠ header
  slot_inj : ∀ i < cap, ∀ j < cap, slot i = slot j → i = j

theorem Layout.ne_header (lay : Layout α β) {b : α} (hb : b ∈ lay.home) : b ≠ lay.header := by
  intro h
  exact lay.header_notMem (h ▸ hb)

theorem Layout.ne_slot (lay : Layout α β) {b : α} (hb : b ∈ lay.home) (hi : i < lay.cap) :
    b ≠ lay.slot i := by
  intro h
  exact lay.slot_notMem i hi (h ▸ hb)

/-- A list of cells that a header may name. -/
structure Loggable (lay : Layout α β) (L : List α) : Prop where
  nodup : L.Nodup
  home : ∀ b ∈ L, b ∈ lay.home
  length_le : L.length ≤ lay.cap

/-- The first slots hold the contents `D` of the cells in `L`. -/
def SlotsHold (lay : Layout α β) (s : α → β) (L : List α) (t : ℕ) (D : α → β) : Prop :=
  ∀ i (h : i < L.length), i < t → s (lay.slot i) = D L[i]

/-- The store `s` stands for the contents `D`. -/
structure Recoverable (lay : Layout α β) (s D : α → β) : Prop where
  loggable : Loggable lay (lay.entries (s lay.header))
  slots : SlotsHold lay s (lay.entries (s lay.header)) (lay.entries (s lay.header)).length D
  rest : ∀ b ∈ lay.home, b ∉ lay.entries (s lay.header) → s b = D b

/-- The first `t` cells of `L` have their contents. -/
def Installed (L : List α) (t : ℕ) (s D : α → β) : Prop :=
  ∀ i (h : i < L.length), i < t → s L[i] = D L[i]

theorem Loggable.nil (lay : Layout α β) : Loggable lay ([] : List α) :=
  ⟨List.nodup_nil, fun _ hb => absurd hb List.not_mem_nil, Nat.zero_le _⟩

variable {lay : Layout α β} {s D D' : α → β}

/-- **Recovered.** Under a clear header the store is what it stands for. -/
theorem Recoverable.recovered (h : Recoverable lay s D)
    (hclear : lay.entries (s lay.header) = []) : ∀ b ∈ lay.home, s b = D b := by
  intro b hb
  exact h.rest b hb (hclear ▸ List.not_mem_nil)

theorem Recoverable.of_clear (hclear : lay.entries (s lay.header) = [])
    (hD : ∀ b ∈ lay.home, s b = D b) : Recoverable lay s D := by
  refine ⟨hclear ▸ Loggable.nil lay, fun i hi => ?_, fun b hb _ => hD b hb⟩
  rw [hclear] at hi
  exact absurd hi (Nat.not_lt_zero i)

variable {L : List α}

theorem SlotsHold.congr {s' : α → β} (h : SlotsHold lay s L t D)
    (hs : ∀ i < L.length, s' (lay.slot i) = s (lay.slot i)) (hD : ∀ b ∈ L, D' b = D b) :
    SlotsHold lay s' L t D' := by
  intro i hi ht
  rw [hs i hi, hD _ (List.getElem_mem hi)]
  exact h i hi ht

variable [DecidableEq α]

theorem Recoverable.write_slot (h : Recoverable lay s D) (hclear : lay.entries (s lay.header) = [])
    (hi : i < lay.cap) (v : β) :
    Recoverable lay (update s (lay.slot i) v) D := by
  refine Recoverable.of_clear ?_ fun b hb => ?_
  · rw [update_of_ne (lay.slot_ne_header i hi).symm, hclear]
  · rw [update_of_ne (lay.ne_slot hb hi)]
    exact h.recovered hclear b hb

theorem SlotsHold.write_slot (h : SlotsHold lay s L t D) (hcap : L.length ≤ lay.cap)
    (ht : t < L.length) :
    SlotsHold lay (update s (lay.slot t) (D L[t])) L (t + 1) D := by
  intro i hi hit
  by_cases heq : i = t
  · subst heq
    rw [update_self]
  · have hne : lay.slot i ≠ lay.slot t := fun hs =>
      heq (lay.slot_inj i (hi.trans_le hcap) t (ht.trans_le hcap) hs)
    rw [update_of_ne hne]
    exact h i hi (by omega)

/-- **Commit.** Writing a header that names the logged cells turns the contents into `D'`. -/
theorem Recoverable.commit {v : β} (hlog : Loggable lay L)
    (hslots : SlotsHold lay s L L.length D') (hrest : ∀ b ∈ lay.home, b ∉ L → s b = D' b)
    (hv : lay.entries v = L) : Recoverable lay (update s lay.header v) D' := by
  have hL : lay.entries (update s lay.header v lay.header) = L := by
    rw [update_self, hv]
  refine ⟨hL ▸ hlog, ?_, ?_⟩
  · rw [hL]
    intro i hi ht
    rw [update_of_ne (lay.slot_ne_header i (hi.trans_le hlog.length_le))]
    exact hslots i hi ht
  · intro b hb hn
    rw [hL] at hn
    rw [update_of_ne (lay.ne_header hb)]
    exact hrest b hb hn

theorem Recoverable.install (h : Recoverable lay s D) (hi : i < (lay.entries (s lay.header)).length)
    : Recoverable lay
      (update s (lay.entries (s lay.header))[i] (D (lay.entries (s lay.header))[i])) D := by
  obtain ⟨L, hL⟩ : ∃ L, lay.entries (s lay.header) = L := ⟨_, rfl⟩
  have hlog := h.loggable
  have hslots := h.slots
  have hrest := h.rest
  simp only [hL] at hi hlog hslots hrest ⊢
  have hmem : L[i] ∈ lay.home := hlog.home _ (List.getElem_mem hi)
  have hhdr : lay.entries (update s L[i] (D L[i]) lay.header) = L := by
    rw [update_of_ne (lay.ne_header hmem).symm, hL]
  refine ⟨hhdr.symm ▸ hlog, ?_, ?_⟩
  · rw [hhdr]
    intro j hj ht
    rw [update_of_ne (lay.ne_slot hmem (hj.trans_le hlog.length_le)).symm]
    exact hslots j hj ht
  · intro b hb hn
    rw [hhdr] at hn
    have hne : b ≠ L[i] := fun hbi => hn (hbi ▸ List.getElem_mem hi)
    rw [update_of_ne hne]
    exact hrest b hb hn

theorem Installed.install (h : Installed L t s D) (ht : t < L.length) :
    Installed L (t + 1) (update s L[t] (D L[t])) D := by
  intro i hi hit
  by_cases heq : L[i] = L[t]
  · rw [heq, update_self]
  · have hne : i ≠ t := fun hit => heq (by subst hit; rfl)
    rw [update_of_ne heq]
    exact h i hi (by omega)

/-- Clearing the header once every cell has its contents. -/
theorem Recoverable.clear (h : Recoverable lay s D)
    (hinst : Installed (lay.entries (s lay.header)) (lay.entries (s lay.header)).length s D)
    {v : β} (hv : lay.entries v = []) : Recoverable lay (update s lay.header v) D := by
  refine Recoverable.of_clear (by rw [update_self, hv]) fun b hb => ?_
  rw [update_of_ne (lay.ne_header hb)]
  by_cases hmem : b ∈ lay.entries (s lay.header)
  · obtain ⟨i, hi, rfl⟩ := List.mem_iff_getElem.mp hmem
    exact hinst i hi hi
  · exact h.rest b hb hmem

end RedoLog
