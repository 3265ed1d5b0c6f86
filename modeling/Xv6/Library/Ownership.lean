import Mathlib.Tactic
import Mathlib.Data.List.Nodup
import Mathlib.Data.Set.Card
import Mathlib.Order.CompletePartialOrder

/-!
# Ownership of frames

A store whose cells are grouped into frames, some of which are on a free list. An actor owns a
set of frames; everything it does is to take frames off the free list, put its own frames back,
and write cells of frames it owns. `Transfer` is the relation between the state before and after
any such activity, and it is closed under composition.

The point of the relation is what it says about everyone else: a set of frames disjoint from the
actor's and from the free list stays disjoint from both and its cells keep their contents. A system
of many actors is therefore reasoned about one actor at a time.

Losing frames is allowed (`Transfer.mono`): an actor that forgets a frame can never again disturb
anyone with it. Conjuring them is not.

## Main results

* `Transfer.refl`, `Transfer.trans`, `Transfer.mono`
* `Transfer.take`, `Transfer.write` — the primitive activities
* `Transfer.conserves` — nothing is lost if the numbers agree
-/

namespace Ownership

variable {α β F : Type*}

/-- Cells with contents, and a list of free frames. -/
structure Pool (α β F : Type*) where
  cell : α → β
  free : List F

/-- The frames in `A` are privately owned: none of them is free, and the free list has no
duplicate to hand out twice. -/
structure Owns (s : Pool α β F) (A : Set F) : Prop where
  nodup : s.free.Nodup
  notMem : ∀ f ∈ A, f ∉ s.free

/-- From owning `A` in `s`, an actor came to own `A'` in `s'`. The map `fr` sends a cell to its
frame. -/
structure Transfer (fr : α → F) (s : Pool α β F) (A : Set F) (s' : Pool α β F) (A' : Set F) :
    Prop where
  owns : Owns s' A'
  /-- No frame comes from anywhere but the actor's own frames and the free list. -/
  sub : ∀ f, f ∈ A' ∨ f ∈ s'.free → f ∈ A ∨ f ∈ s.free
  /-- Cells of all other frames keep their contents. -/
  frame : ∀ a, fr a ∉ A → fr a ∉ s.free → s'.cell a = s.cell a

variable {fr : α → F} {s s' s'' : Pool α β F} {A A' A'' B : Set F}

theorem Owns.mono (h : Owns s A) (hs : A' ⊆ A) : Owns s A' :=
  ⟨h.nodup, fun f hf => h.notMem f (hs hf)⟩

theorem Transfer.refl (h : Owns s A) : Transfer fr s A s A :=
  ⟨h, fun _ hf => hf, fun _ _ _ => rfl⟩

theorem Transfer.trans (h : Transfer fr s A s' A') (h' : Transfer fr s' A' s'' A'') :
    Transfer fr s A s'' A'' := by
  refine ⟨h'.owns, fun f hf => h.sub f (h'.sub f hf), fun a ha hfree => ?_⟩
  have hout : ¬ (fr a ∈ A' ∨ fr a ∈ s'.free) := fun hin => (h.sub _ hin).elim ha hfree
  rw [h'.frame a (fun hin => hout (.inl hin)) (fun hin => hout (.inr hin)), h.frame a ha hfree]

theorem Transfer.mono (h : Transfer fr s A s' A') (hs : A'' ⊆ A') : Transfer fr s A s' A'' :=
  ⟨h.owns.mono hs, fun f hf => h.sub f (hf.imp_left fun hf => hs hf), h.frame⟩

theorem Transfer.take {f : F} {l : List F} (h : Owns s A) (hfree : s.free = f :: l)
    (hcell : s'.cell = s.cell) (hl : s'.free = l) : Transfer fr s A s' (insert f A) := by
  have hnd : (f :: l).Nodup := hfree ▸ h.nodup
  refine ⟨⟨hl ▸ hnd.of_cons, fun g hg => ?_⟩, fun g hg => ?_, fun a _ _ => by rw [hcell]⟩
  · rcases hg with rfl | hg
    · rw [hl]; exact (List.nodup_cons.mp hnd).1
    · rw [hl]
      exact fun hm => h.notMem g hg (hfree ▸ List.mem_cons_of_mem f hm)
  · rw [hl] at hg
    rw [hfree]
    rcases hg with (rfl | hg) | hg
    · exact .inr List.mem_cons_self
    · exact .inl hg
    · exact .inr (List.mem_cons_of_mem f hg)

theorem Transfer.write (h : Owns s A) (hfree : s'.free = s.free)
    (hcell : ∀ a, fr a ∉ A → s'.cell a = s.cell a) : Transfer fr s A s' A :=
  ⟨⟨hfree ▸ h.nodup, fun f hf => hfree ▸ h.notMem f hf⟩, fun _ hf => hfree ▸ hf,
    fun a ha _ => hcell a ha⟩

theorem Transfer.disjoint (h : Transfer fr s A s' A') (hB : Owns s B) (hAB : Disjoint A B) :
    Disjoint A' B := by
  rw [Set.disjoint_left]
  intro f hf hfB
  rcases h.sub f (.inl hf) with hA | hfree
  · exact Set.disjoint_left.mp hAB hA hfB
  · exact hB.notMem f hfB hfree

/-! ### Counting -/

theorem Owns.ncard (h : Owns s A) (hfin : A.Finite) :
    (A ∪ {f | f ∈ s.free}).ncard = A.ncard + s.free.length := by
  classical
  have hfree : {f | f ∈ s.free}.ncard = s.free.length := by
    rw [← List.coe_toFinset, Set.ncard_coe_finset, List.toFinset_card_of_nodup h.nodup]
  have hdis : Disjoint A {f | f ∈ s.free} := Set.disjoint_left.mpr h.notMem
  rw [Set.ncard_union_eq hdis hfin s.free.finite_toSet, hfree]

/-- A transfer never ends with more frames than it had, so one that ends with as many lost none. -/
theorem Transfer.conserves (h : Transfer fr s A s' A') (hA : Owns s A) (hfin : A.Finite)
    (hcard : A.ncard + s.free.length ≤ A'.ncard + s'.free.length) {f : F}
    (hf : f ∈ A ∨ f ∈ s.free) : f ∈ A' ∨ f ∈ s'.free := by
  have hU : (A ∪ {f | f ∈ s.free}).Finite := hfin.union s.free.finite_toSet
  have hsub : A' ∪ {f | f ∈ s'.free} ⊆ A ∪ {f | f ∈ s.free} := fun g hg => h.sub g hg
  have hfin' : A'.Finite := hU.subset (Set.subset_union_left.trans hsub)
  have heq := Set.eq_of_subset_of_ncard_le hsub
    (by rw [hA.ncard hfin, h.owns.ncard hfin']; exact hcard) hU
  exact Set.ext_iff.mp heq f |>.mpr hf

end Ownership
