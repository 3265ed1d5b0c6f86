import Mathlib.Tactic
import Mathlib.Data.List.Chain
import Mathlib.Data.List.Nodup

/-!
# Circular doubly linked lists

Nodes joined by two pointers each, in a ring that closes at a sentinel. `IsRing` says which nodes
are on the ring and in which order; unlinking a node and inserting one after the sentinel are
sequences of pointer assignments, and each is specified by what it does to that order.

A loop that follows the pointers from the sentinel until it comes back is `scan`. On a ring it is
`List.find?` over the order, and backwards over the reversed order.

## Main results

* `IsRing.unlink`, `IsRing.insert` — the two ways a ring changes
* `IsRing.reverse` — the ring of the other pointers
* `IsRing.scan_eq` — following the pointers
* `IsRing.iterate` — where the pointers lead
-/

/-- The two pointers of every node. -/
structure Links (α : Type*) where
  next : α → α
  prev : α → α

namespace Links

open Function List

variable {α : Type*}

/-- Swap the two pointers. -/
def flip (p : Links α) : Links α := ⟨p.prev, p.next⟩

/-- Node `y` comes after node `x`: both pointers say so. -/
def Joins (p : Links α) (x y : α) : Prop := p.next x = y ∧ p.prev y = x

/-- Starting at the sentinel `h`, the ring has the nodes of `l` in this order. -/
structure IsRing (p : Links α) (h : α) (l : List α) : Prop where
  chain : (h :: (l ++ [h])).IsChain p.Joins
  nodup : (h :: l).Nodup

variable {p p' : Links α} {h b : α} {l l₁ l₂ : List α}

theorem isChain_congr (hc : l.IsChain p.Joins)
    (hsame : ∀ x ∈ l, ∀ y ∈ l.tail, p.Joins x y → p'.next x = p.next x ∧ p'.prev y = p.prev y) :
    l.IsChain p'.Joins := by
  refine hc.imp_of_mem_tail_imp fun x y hx hy hxy => ?_
  obtain ⟨hn, hp⟩ := hsame x hx y hy hxy
  exact ⟨hn.trans hxy.1, hp.trans hxy.2⟩

theorem isRing_nil (hn : p.next h = h) (hp : p.prev h = h) : p.IsRing h [] :=
  ⟨by simp [Joins, hn, hp], by simp⟩

/-- **The ring backwards.** -/
theorem IsRing.reverse (hr : p.IsRing h l) : p.flip.IsRing h l.reverse := by
  refine ⟨?_, ?_⟩
  · have hrev : h :: (l.reverse ++ [h]) = (h :: (l ++ [h])).reverse := by simp
    rw [hrev, isChain_reverse]
    exact hr.chain.imp fun x y hxy => ⟨hxy.2, hxy.1⟩
  · obtain ⟨hh, hnd⟩ := nodup_cons.mp hr.nodup
    exact nodup_cons.mpr ⟨mt mem_reverse.mp hh, nodup_reverse.mpr hnd⟩

/-- On a ring the two pointers are inverse to each other. -/
theorem IsRing.prev_next (hr : p.IsRing h l) {x : α} (hx : x ∈ h :: l) : p.prev (p.next x) = x := by
  obtain ⟨s, t, hst⟩ := append_of_mem hx
  obtain ⟨y, u, hy⟩ : ∃ y u, t ++ [h] = y :: u :=
    exists_cons_of_ne_nil (append_ne_nil_of_right_ne_nil t (cons_ne_nil h []))
  have hc := hr.chain
  rw [← cons_append, hst, append_assoc, cons_append, hy, isChain_append_cons_cons] at hc
  rw [hc.2.1.1, hc.2.1.2]

/-- **Where the pointers lead.** -/
theorem IsRing.iterate (hr : p.IsRing h l) {k : ℕ} (hk : k < (l ++ [h]).length) :
    p.next^[k + 1] h = (l ++ [h])[k] := by
  have hstep : ∀ (k : ℕ) (hk : k < (l ++ [h]).length),
      p.next ((h :: (l ++ [h])).get ⟨k, Nat.lt_succ_of_lt hk⟩) = (l ++ [h])[k] := fun k hk =>
    (isChain_iff_getElem.mp hr.chain k (Nat.succ_lt_succ hk)).1
  induction k with
  | zero => exact hstep 0 hk
  | succ k ih =>
    rw [iterate_succ_apply', ih (Nat.lt_of_succ_lt hk)]
    exact hstep (k + 1) hk

section Change

variable [DecidableEq α]

/-- Take node `b` off its ring. -/
def unlink (p : Links α) (b : α) : Links α :=
  let p : Links α := { p with prev := update p.prev (p.next b) (p.prev b) }
  { p with next := update p.next (p.prev b) (p.next b) }

/-- Put node `b` behind the sentinel `h`. -/
def insert (p : Links α) (h b : α) : Links α :=
  let p : Links α := { p with next := update p.next b (p.next h) }
  let p : Links α := { p with prev := update p.prev b h }
  let p : Links α := { p with prev := update p.prev (p.next h) b }
  { p with next := update p.next h b }

/-- **Unlinking.** -/
theorem IsRing.unlink (hr : p.IsRing h (l₁ ++ b :: l₂)) : (p.unlink b).IsRing h (l₁ ++ l₂) := by
  obtain ⟨hc, hnd⟩ := hr
  -- the neighbours of `b`
  obtain ⟨c, y, hy⟩ : ∃ c y, h :: l₁ = c ++ [y] :=
    ⟨_, _, (dropLast_append_getLast (cons_ne_nil h l₁)).symm⟩
  obtain ⟨z, d, hz⟩ : ∃ z d, l₂ ++ [h] = z :: d :=
    exists_cons_of_ne_nil (append_ne_nil_of_right_ne_nil l₂ (cons_ne_nil h []))
  have hsplit : h :: (l₁ ++ b :: l₂ ++ [h]) = c ++ y :: b :: (z :: d) := by
    rw [← hz, append_assoc, ← cons_append, hy]
    simp
  rw [hsplit, isChain_append_cons_cons, isChain_cons_cons] at hc
  obtain ⟨hleft, hyb, hbz, hright⟩ := hc
  have hbl : b ∉ h :: l₁ := by
    rw [← cons_append, nodup_append'] at hnd
    exact fun hb => hnd.2.2 hb mem_cons_self
  have hbr : b ∉ l₂ ++ [h] := by
    have hnd' := (nodup_append'.mp (nodup_cons.mp hnd).2).2.1
    rw [mem_append, mem_singleton, not_or]
    exact ⟨(nodup_cons.mp hnd').1, fun hbh => hbl (hbh ▸ mem_cons_self)⟩
  rw [hy] at hbl
  rw [hz] at hbr
  have hzb : z ≠ b := fun hzb => hbr (hzb ▸ mem_cons_self)
  have hnext : (p.unlink b).next = update p.next y z := by
    simp only [Links.unlink, hbz.1, update_of_ne hzb.symm, hyb.2]
  have hprev : (p.unlink b).prev = update p.prev z y := by
    simp only [Links.unlink, hbz.1, hyb.2]
  -- a pair that is joined does not start at `y`, nor end at `z`, unless `b` is in it
  have hkeep : ∀ {L : List α}, b ∉ L → L.IsChain p.Joins → L.IsChain (p.unlink b).Joins := by
    refine fun {L} hb hL => isChain_congr hL fun x hx x' hx' hxx => ⟨?_, ?_⟩
    · rw [hnext, update_of_ne]
      rintro rfl
      exact hb ((hxx.1.symm.trans hyb.1) ▸ mem_of_mem_tail hx')
    · rw [hprev, update_of_ne]
      rintro rfl
      exact hb ((hxx.2.symm.trans hbz.2) ▸ hx)
  refine ⟨?_, hnd.sublist ?_⟩
  · have hgoal : h :: (l₁ ++ l₂ ++ [h]) = c ++ y :: z :: d := by
      rw [← hz, append_assoc, ← cons_append, hy]
      simp
    rw [hgoal, isChain_append_cons_cons]
    refine ⟨hkeep hbl hleft, ⟨?_, ?_⟩, hkeep hbr hright⟩
    · rw [hnext, update_self]
    · rw [hprev, update_self]
  · exact ((sublist_cons_self b l₂).append_left l₁).cons_cons h

/-- **Inserting.** -/
theorem IsRing.insert (hr : p.IsRing h l) (hb : b ∉ h :: l) : (p.insert h b).IsRing h (b :: l) := by
  obtain ⟨hc, hnd⟩ := hr
  obtain ⟨hbh, hbl⟩ := not_or.mp (mt mem_cons.mpr hb)
  obtain ⟨hhl, hndl⟩ := nodup_cons.mp hnd
  obtain ⟨z, d, hz⟩ : ∃ z d, l ++ [h] = z :: d :=
    exists_cons_of_ne_nil (append_ne_nil_of_right_ne_nil l (cons_ne_nil h []))
  have hnd' : (z :: d).Nodup := by
    rw [← hz, nodup_append']
    exact ⟨hndl, nodup_singleton h, fun x hx hxh => hhl (mem_singleton.mp hxh ▸ hx)⟩
  rw [hz, isChain_cons_cons] at hc
  obtain ⟨hhz, hright⟩ := hc
  have hbz : b ≠ z := by
    rintro rfl
    have hmem : b ∈ l ++ [h] := hz ▸ mem_cons_self
    rcases mem_append.mp hmem with hm | hm
    · exact hbl hm
    · exact hbh (mem_singleton.mp hm)
  have hnext : (p.insert h b).next = update (update p.next b z) h b := by
    simp only [Links.insert, hhz.1]
  have hprev : (p.insert h b).prev = update (update p.prev b h) z b := by
    simp only [Links.insert, update_of_ne (Ne.symm hbh), hhz.1]
  refine ⟨?_, nodup_cons.mpr ⟨?_, nodup_cons.mpr ⟨hbl, hndl⟩⟩⟩
  · rw [cons_append, hz, isChain_cons_cons, isChain_cons_cons]
    refine ⟨⟨?_, ?_⟩, ⟨?_, ?_⟩, isChain_congr hright fun x hx y hy hxy => ⟨?_, ?_⟩⟩
    · rw [hnext, update_self]
    · rw [hprev, update_of_ne hbz, update_self]
    · rw [hnext, update_of_ne hbh, update_self]
    · rw [hprev, update_self]
    · have hxb : x ≠ b := fun hxb => hb (by
        rw [← hxb, mem_cons, or_comm]
        exact (mem_append.mp (hz ▸ hx)).imp_right mem_singleton.mp)
      have hxh : x ≠ h := fun hxh => (nodup_cons.mp hnd').1 (by
        rw [← hhz.1, ← hxh, hxy.1]
        exact hy)
      rw [hnext, update_of_ne hxh, update_of_ne hxb]
    · have hyb : y ≠ b := fun hyb => hb (by
        rw [← hyb, mem_cons, or_comm]
        exact (mem_append.mp (hz ▸ mem_cons_of_mem z hy)).imp_right mem_singleton.mp)
      have hyz : y ≠ z := fun hyz => (nodup_cons.mp hnd').1 (hyz ▸ hy)
      rw [hprev, update_of_ne hyz, update_of_ne hyb]
  · rw [mem_cons, not_or]
    exact ⟨Ne.symm hbh, hhl⟩

end Change

section Scan

variable [DecidableEq α]

/-- Go from node to node until one passes the test or the sentinel `h` is reached. -/
def scan (step : α → α) (h : α) (f : α → Bool) : ℕ → α → Option α
  | 0, _ => none
  | n + 1, x => if x = h then none else if f x then some x else scan step h f n (step x)

/-- **Following the pointers.** -/
theorem IsRing.scan_eq (hr : p.IsRing h l) (f : α → Bool) {n : ℕ} (hn : l.length < n) :
    scan p.next h f n (p.next h) = l.find? f := by
  obtain ⟨hc, hnd⟩ := hr
  have hh := (nodup_cons.mp hnd).1
  clear hnd
  -- from any node, over the rest of the ring
  suffices hrest : ∀ (l : List α) (x : α) (n : ℕ), h ∉ l → (x :: (l ++ [h])).IsChain p.Joins →
      l.length < n → scan p.next h f n (p.next x) = l.find? f from hrest l h n hh hc hn
  intro l
  induction l with
  | nil =>
    intro x n _ hc hn
    obtain ⟨n, rfl⟩ := Nat.exists_eq_succ_of_ne_zero (Nat.ne_of_gt hn)
    rw [(isChain_cons_cons.mp hc).1.1]
    simp [scan]
  | cons y l ih =>
    intro x n hh hc hn
    obtain ⟨n, rfl⟩ := Nat.exists_eq_succ_of_ne_zero (Nat.ne_of_gt (Nat.zero_lt_of_lt hn))
    obtain ⟨hxy, hc⟩ := isChain_cons_cons.mp hc
    obtain ⟨hyh, hh⟩ := not_or.mp (mt mem_cons.mpr hh)
    rw [hxy.1, scan, if_neg (Ne.symm hyh), List.find?_cons]
    by_cases hf : f y = true
    · simp [hf]
    · simp only [hf, Bool.false_eq_true, if_false]
      exact ih y n hh hc (Nat.lt_of_succ_lt_succ hn)

end Scan

end Links
