import Mathlib.Data.Set.Lattice
import Mathlib.Order.Interval.Set.LinearOrder
import Mathlib.Data.List.Pairwise
import Mathlib.Data.List.Perm.Basic
import Mathlib.Tactic.Common

/-!
# Lists of intervals

An interval has a start and an end, and is empty if they are equal. `Tiling l S` says that the
intervals of `l` are not empty, do not overlap, and make up `S`. An interval can be cut in two, two
that meet can be joined, and `S` stays what it is.

`Separated l` says that the intervals of `l` are in order, with something between any two.

## Main results

* `Tiling.cut`, `Tiling.join` — an interval is cut, and two are joined
* `Tiling.add` — an interval is added
* `Separated.glue`, `Tiling.glue` — an interval is put before a list, and joined to the first of it
  if they meet
-/

namespace Intervals

open List

variable {α : Type*} [LinearOrder α] {l l' : List (α × α)} {S : Set α} {a b m : α} {x y : α × α}

/-- Two intervals that do not overlap. -/
def Apart (x y : α × α) : Prop := x.2 ≤ y.1 ∨ y.2 ≤ x.1

theorem Apart.symm (h : Apart x y) : Apart y x := Or.symm h

instance : Std.Symm (Apart (α := α)) := ⟨fun _ _ h => h.symm⟩

/-- What the intervals cover. -/
def cover (l : List (α × α)) : Set α := {z | ∃ x ∈ l, z ∈ Set.Ico x.1 x.2}

theorem cover_cons (x : α × α) (l : List (α × α)) : cover (x :: l) = Set.Ico x.1 x.2 ∪ cover l := by
  ext z
  simp [cover]

theorem cover_perm (h : l.Perm l') : cover l = cover l' := by
  ext z
  simp [cover, h.mem_iff]

/-- The intervals are not empty, do not overlap, and make up `S`. -/
structure Tiling (l : List (α × α)) (S : Set α) : Prop where
  proper : ∀ x ∈ l, x.1 < x.2
  apart : l.Pairwise Apart
  cover_eq : cover l = S

namespace Tiling

theorem perm (h : Tiling l S) (hp : l.Perm l') : Tiling l' S :=
  ⟨fun x hx => h.proper x (hp.mem_iff.mpr hx), hp.pairwise h.apart fun hxy => hxy.symm,
    (cover_perm hp).symm.trans h.cover_eq⟩

theorem apart_of_ne (h : Tiling l S) (hx : x ∈ l) (hy : y ∈ l) (hne : x ≠ y) : Apart x y :=
  h.apart.forall hx hy hne

/-- **An interval is cut in two.** -/
theorem cut (h : Tiling ((a, b) :: l) S) (ham : a < m) (hmb : m < b) :
    Tiling ((a, m) :: (m, b) :: l) S := by
  have hproper := h.proper
  have hapart := pairwise_cons.mp h.apart
  refine ⟨?_, ?_, ?_⟩
  · simp only [mem_cons] at hproper ⊢
    rintro x (rfl | rfl | hx)
    · exact ham
    · exact hmb
    · exact hproper x (Or.inr hx)
  · refine pairwise_cons.mpr ⟨fun y hy => ?_, pairwise_cons.mpr ⟨fun y hy => ?_, hapart.2⟩⟩
    · rcases mem_cons.mp hy with rfl | hy
      · exact Or.inl le_rfl
      · exact (hapart.1 y hy).imp hmb.le.trans id
    · exact (hapart.1 y hy).imp id fun hle => hle.trans ham.le
  · rw [← h.cover_eq, cover_cons, cover_cons, cover_cons, ← Set.union_assoc,
      Set.Ico_union_Ico_eq_Ico ham.le hmb.le]

/-- **Two intervals that meet are joined.** -/
theorem join (h : Tiling ((a, m) :: (m, b) :: l) S) : Tiling ((a, b) :: l) S := by
  have ham : a < m := h.proper (a, m) mem_cons_self
  have hmb : m < b := h.proper (m, b) (mem_cons_of_mem _ mem_cons_self)
  have hproper : ∀ y ∈ l, y.1 < y.2 := fun y hy =>
    h.proper y (mem_cons_of_mem _ (mem_cons_of_mem _ hy))
  obtain ⟨hleft, hrest⟩ := pairwise_cons.mp h.apart
  obtain ⟨hright, hrest⟩ := pairwise_cons.mp hrest
  refine ⟨fun x hx => ?_, pairwise_cons.mpr ⟨fun y hy => ?_, hrest⟩, ?_⟩
  · rcases mem_cons.mp hx with rfl | hx
    · exact ham.trans hmb
    · exact hproper x hx
  · -- An interval between the two would be empty.
    rcases hleft y (mem_cons_of_mem _ hy) with hle | hle
    · refine Or.inl ((hright y hy).resolve_right fun hle' => ?_)
      exact absurd ((hproper y hy).trans_le hle') hle.not_gt
    · exact Or.inr hle
  · rw [← h.cover_eq, cover_cons, cover_cons, cover_cons, ← Set.union_assoc,
      Set.Ico_union_Ico_eq_Ico ham.le hmb.le]

theorem bounds (h : Tiling l S) (h' : Tiling l' S) (hlo : ∀ x ∈ l, a ≤ x.1) (hhi : ∀ x ∈ l, x.2 ≤ b)
    (hx : x ∈ l') : a ≤ x.1 ∧ x.2 ≤ b := by
  have hmem : ∀ c, x.1 ≤ c → c < x.2 → ∃ y ∈ l, c ∈ Set.Ico y.1 y.2 := fun c hle hlt => by
    have hc : c ∈ cover l' := ⟨x, hx, hle, hlt⟩
    rwa [h'.cover_eq, ← h.cover_eq] at hc
  have hproper := h'.proper x hx
  constructor
  · obtain ⟨y, hy, hyx, -⟩ := hmem x.1 le_rfl hproper
    exact (hlo y hy).trans hyx
  · by_contra hlt
    obtain ⟨y, hy, -, hyb⟩ := hmem (max x.1 b) (le_max_left ..) (max_lt hproper (not_le.mp hlt))
    exact absurd ((le_max_right ..).trans_lt hyb) (hhi y hy).not_gt

theorem add (h : Tiling l S) (hx : x.1 < x.2) (hapart : ∀ y ∈ l, Apart x y) :
    Tiling (x :: l) (Set.Ico x.1 x.2 ∪ S) := by
  refine ⟨fun y hy => ?_, pairwise_cons.mpr ⟨hapart, h.apart⟩, ?_⟩
  · rcases mem_cons.mp hy with rfl | hy
    · exact hx
    · exact h.proper y hy
  · rw [cover_cons, h.cover_eq]

end Tiling

/-! ### Intervals in order -/

theorem exists_last {β : Type*} {P : β → Prop} {l : List β} (h : ∃ x ∈ l, P x) :
    ∃ pre x post, l = pre ++ x :: post ∧ P x ∧ ∀ y ∈ post, ¬P y := by
  induction l with
  | nil =>
    obtain ⟨x, hx, -⟩ := h
    exact absurd hx not_mem_nil
  | cons y l ih =>
    by_cases hl : ∃ x ∈ l, P x
    · obtain ⟨pre, x, post, rfl, hx⟩ := ih hl
      exact ⟨y :: pre, x, post, rfl, hx⟩
    · obtain ⟨x, hx, hPx⟩ := h
      obtain rfl : x = y := (mem_cons.mp hx).resolve_right fun hx => hl ⟨x, hx, hPx⟩
      exact ⟨[], x, l, rfl, hPx, fun z hz hPz => hl ⟨z, hz, hPz⟩⟩

/-- The intervals are in order, and no two of them meet. -/
def Separated (l : List (α × α)) : Prop := l.Pairwise fun x y => x.2 < y.1

/-- Put an interval before a list. If it meets the first one, they are joined. -/
def glue (x : α × α) : List (α × α) → List (α × α)
  | [] => [x]
  | y :: l => if x.2 = y.1 then (x.1, y.2) :: l else x :: y :: l

theorem glue_eq (x : α × α) (l : List (α × α)) : ∃ e l', glue x l = (x.1, e) :: l' ∧ l' ⊆ l := by
  cases l with
  | nil => exact ⟨x.2, [], rfl, nil_subset _⟩
  | cons y l =>
    rw [glue]
    split
    · exact ⟨y.2, l, rfl, subset_cons_self y l⟩
    · exact ⟨x.2, y :: l, rfl, Subset.refl _⟩

theorem start_le_of_mem_glue {z : α × α} (h : ∀ y ∈ l, a ≤ y.1) (hx : a ≤ x.1) (hz : z ∈ glue x l) :
    a ≤ z.1 := by
  obtain ⟨e, l', hglue, hsub⟩ := glue_eq x l
  rw [hglue] at hz
  rcases mem_cons.mp hz with rfl | hz
  · exact hx
  · exact h z (hsub hz)

theorem le_of_mem_glue {z : α × α} (hx : x.1 ≤ x.2) (hl : ∀ y ∈ l, y.1 ≤ y.2) (hz : z ∈ glue x l) :
    z.1 ≤ z.2 := by
  cases l with
  | nil =>
    rw [mem_singleton.mp hz]
    exact hx
  | cons y l =>
    rw [glue] at hz
    split at hz
    next hxy =>
      rcases mem_cons.mp hz with rfl | hz
      · exact hx.trans (hxy.le.trans (hl y mem_cons_self))
      · exact hl z (mem_cons_of_mem _ hz)
    next =>
      rcases mem_cons.mp hz with rfl | hz
      · exact hx
      · exact hl z hz

theorem exists_le_glue_self (h : ∀ y ∈ l, y.1 ≤ y.2) : ∃ z ∈ glue x l, z.1 ≤ x.1 ∧ x.2 ≤ z.2 := by
  cases l with
  | nil => exact ⟨x, mem_singleton_self x, le_rfl, le_rfl⟩
  | cons y l =>
    rw [glue]
    split
    next hxy => exact ⟨_, mem_cons_self, le_rfl, hxy.le.trans (h y mem_cons_self)⟩
    next => exact ⟨x, mem_cons_self, le_rfl, le_rfl⟩

theorem exists_le_glue (hx : x.1 ≤ x.2) (hy : y ∈ l) : ∃ z ∈ glue x l, z.1 ≤ y.1 ∧ y.2 ≤ z.2 := by
  cases l with
  | nil => exact absurd hy not_mem_nil
  | cons w l =>
    rw [glue]
    split
    next hxw =>
      rcases mem_cons.mp hy with rfl | hy
      · exact ⟨_, mem_cons_self, hx.trans hxw.le, le_rfl⟩
      · exact ⟨y, mem_cons_of_mem _ hy, le_rfl, le_rfl⟩
    next => exact ⟨y, mem_cons_of_mem _ hy, le_rfl, le_rfl⟩

/-- **The list stays in order.** -/
theorem Separated.glue (h : Separated l) (hx : ∀ y ∈ l, x.2 ≤ y.1) (hl : ∀ y ∈ l, y.1 ≤ y.2) :
    Separated (glue x l) := by
  cases l with
  | nil => exact pairwise_singleton _ _
  | cons y l =>
    obtain ⟨hy, hrest⟩ := pairwise_cons.mp h
    rw [Intervals.glue]
    split
    next => exact pairwise_cons.mpr ⟨hy, hrest⟩
    next hne =>
      have hlt : x.2 < y.1 := (hx y mem_cons_self).lt_of_ne hne
      refine pairwise_cons.mpr ⟨fun z hz => ?_, h⟩
      rcases mem_cons.mp hz with rfl | hz
      · exact hlt
      · exact hlt.trans ((hl y mem_cons_self).trans_lt (hy z hz))

/-- **The intervals make up the same.** -/
theorem Tiling.glue (h : Tiling (x :: l ++ l') S) : Tiling (glue x l ++ l') S := by
  cases l with
  | nil => exact h
  | cons y l =>
    rw [Intervals.glue]
    split
    next hxy =>
      obtain ⟨x₁, x₂⟩ := x
      obtain ⟨y₁, y₂⟩ := y
      obtain rfl : x₂ = y₁ := hxy
      exact h.join
    next => exact h

end Intervals
