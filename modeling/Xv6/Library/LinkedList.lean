import Mathlib.Data.List.Basic
import Mathlib.Logic.Function.Basic
import Mathlib.Tactic.Common

/-!
# Linked lists

A list that is linked through its elements: a pointer to the first one, and for each element the
pointer to the next. `Chain next o l` says that the elements of `l` are those that are found from
pointer `o` on.

Where every element has a next one, `Seg next a l b` says that the elements of `l` are found from
`a` on and lead to `b`. A circular list leads to where it starts, and can be read from any element
on.

## Main results

* `Chain.after` — what is found after a part of the list
* `Chain.snoc` — a new element is linked behind the last one
* `Seg.append_iff`, `Seg.rotate` — segments are put together, and a circular list is turned
* `Seg.search_eq` — a search finds an element if there is one
-/

namespace LinkedList

open List

variable {β : Type*} {next next' : β → Option β} {o : Option β} {l l' : List β} {a b : β}

/-- From `o` on, the elements of `l` are linked, and no others. -/
def Chain (next : β → Option β) : Option β → List β → Prop
  | o, [] => o = none
  | o, b :: l => o = some b ∧ Chain next (next b) l

theorem Chain.head (h : Chain next o l) : o = l.head? := by
  cases l with
  | nil => exact h
  | cons b l => exact h.1

theorem Chain.congr (h : Chain next o l) (heq : ∀ b ∈ l, next' b = next b) : Chain next' o l := by
  induction l generalizing o with
  | nil => exact h
  | cons b l ih =>
    refine ⟨h.1, ih ?_ fun c hc => heq c (mem_cons_of_mem _ hc)⟩
    rw [heq b mem_cons_self]
    exact h.2

/-- **The pointer after an element** leads to the rest of the list. -/
theorem Chain.after (h : Chain next o (l ++ a :: l')) : Chain next (next a) l' := by
  induction l generalizing o with
  | nil => exact h.2
  | cons b l ih => exact ih h.2

/-- **A new element is linked behind the last one.** -/
theorem Chain.snoc [DecidableEq β] (h : Chain next o (l ++ [a])) (ha : a ∉ l) (hab : b ≠ a)
    (hb : next b = none) : Chain (Function.update next a (some b)) o (l ++ [a, b]) := by
  induction l generalizing o with
  | nil =>
    refine ⟨h.1, Function.update_self .., ?_⟩
    rw [Chain, Function.update_of_ne hab]
    exact hb
  | cons c l ih =>
    rw [mem_cons, not_or] at ha
    refine ⟨h.1, ?_⟩
    rw [Function.update_of_ne (Ne.symm ha.1)]
    exact ih h.2 ha.2

/-! ### Segments and circular lists -/

section Segment

variable {succ succ' : β → β} {c : β}

/-- From `a` on, the elements of `l` are linked, and they lead to `b`. -/
def Seg (succ : β → β) : β → List β → β → Prop
  | a, [], b => a = b
  | a, x :: l, b => a = x ∧ Seg succ (succ x) l b

theorem Seg.append_iff : Seg succ a (l ++ l') c ↔ ∃ b, Seg succ a l b ∧ Seg succ b l' c := by
  induction l generalizing a with
  | nil => exact ⟨fun h => ⟨a, rfl, h⟩, fun ⟨b, hab, h⟩ => hab ▸ h⟩
  | cons x l ih =>
    rw [cons_append, Seg, ih]
    exact ⟨fun ⟨hx, b, hl, hl'⟩ => ⟨b, ⟨hx, hl⟩, hl'⟩, fun ⟨b, ⟨hx, hl⟩, hl'⟩ => ⟨hx, b, hl, hl'⟩⟩

theorem Seg.congr (h : Seg succ a l b) (heq : ∀ x ∈ l, succ' x = succ x) : Seg succ' a l b := by
  induction l generalizing a with
  | nil => exact h
  | cons x l ih =>
    refine ⟨h.1, ih ?_ fun y hy => heq y (mem_cons_of_mem _ hy)⟩
    rw [heq x mem_cons_self]
    exact h.2

/-- **A circular list can be read from any place on.** -/
theorem Seg.rotate (h : Seg succ a (l ++ l') a) : ∃ b, Seg succ b (l' ++ l) b := by
  obtain ⟨b, hl, hl'⟩ := Seg.append_iff.mp h
  exact ⟨b, Seg.append_iff.mpr ⟨a, hl', hl⟩⟩

theorem Seg.startAt (h : Seg succ a l a) (hb : b ∈ l) :
    ∃ l', (b :: l').Perm l ∧ Seg succ b (b :: l') b := by
  obtain ⟨l₁, l₂, rfl⟩ := append_of_mem hb
  obtain ⟨c, hc⟩ := h.rotate
  obtain rfl : c = b := hc.1
  have hperm : ((c :: l₂) ++ l₁).Perm (l₁ ++ c :: l₂) := perm_append_comm
  exact ⟨l₂ ++ l₁, hperm, hc⟩

/-- Follow the links until there is an element that passes the test. -/
def search (succ : β → β) (test : β → Bool) : ℕ → β → Option β
  | 0, _ => none
  | k + 1, a => if test a then some a else search succ test k (succ a)

/-- **A search that is long enough finds an element if there is one.** -/
theorem Seg.search_eq {test : β → Bool} {k : ℕ} (h : Seg succ a l b) (hex : ∃ x ∈ l, test x = true)
    (hk : l.length ≤ k) : ∃ x ∈ l, test x = true ∧ search succ test k a = some x := by
  induction l generalizing a k with
  | nil =>
    obtain ⟨x, hx, -⟩ := hex
    exact absurd hx not_mem_nil
  | cons y l ih =>
    obtain ⟨rfl, hl⟩ := h
    obtain ⟨k, rfl⟩ := Nat.exists_eq_add_one_of_ne_zero (n := k) (by rintro rfl; simp at hk)
    rw [search]
    by_cases hy : test a = true
    · exact ⟨a, mem_cons_self, hy, if_pos hy⟩
    · rw [if_neg hy]
      obtain ⟨x, hx, htest⟩ := hex
      have hxl : x ∈ l := (mem_cons.mp hx).resolve_left (by rintro rfl; exact hy htest)
      obtain ⟨z, hz, hfound⟩ := ih hl ⟨x, hxl, htest⟩ (by simpa using hk)
      exact ⟨z, mem_cons_of_mem _ hz, hfound⟩

end Segment

end LinkedList
