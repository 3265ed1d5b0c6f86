import Xv6.Fs.Links

/-!
# Who holds which inode

What each process has of the inodes while system calls run at the same time: references, locks,
links that it has counted and not entered yet, the inode that it has allocated and not linked yet,
and the one that it is freeing. `Inv` says how this fits together with the inode cache and with the
tree, and the lemmas say how each step of an inode operation keeps it.

## The steps that are assumed

Some steps do not keep what is said about the tree in all states. A directory that was removed while
in use still has its ".."; if the parent is removed in the meantime and freed, the ".." names a free
inode. Either the parent is not removed then (`RemovesVacated`), or it is not freed before the
directory (`Spares`). And a directory that was removed takes new entries: they are lost when it is
freed (`FreesEmpty`), and a directory made in it gives it a link again (`StaysRemoved`).

## Main definitions

* `Local`, `Inv` — what a process has, and how it fits together
* `contract` — what is assumed and promised of steps
* `rules` — what a process may ask for, and what it has then

## Main results

* `inodes_rules` — each inode operation does what the rules say and keeps the invariant
-/

namespace Xv6.Fs.Tree

open Concurrent Function

/-! ### What a process has -/

/-- What a process has of the inodes. -/
structure Local where
  refs : ℕ → ℕ
  locks : ℕ → Option Ino
  /-- Links that are counted in an inode and not entered anywhere. -/
  pend : ℕ → ℕ
  /-- The inode that it has allocated and not linked yet, with its type. -/
  fresh : Option (ℕ × Kind)
  /-- The inode that it is freeing, and whether it is marked as free on the disk. -/
  dying : Option (ℕ × Bool)

namespace Local

/-- Between two calls, with the given references. -/
def idle (refs : ℕ → ℕ) : Local := ⟨refs, fun _ => none, fun _ => 0, none, none⟩

variable (l : Local) (i : ℕ) {n : ℕ}

/-- `I_BUSY` has been set by this process. -/
def Holds : Prop := l.locks i ≠ none ∨ ∃ b, l.dying = some (i, b)
/-- The inode is the one that this process has allocated. -/
def Fresh : Prop := ∃ t, l.fresh = some (i, t)

/-- With one more reference. -/
def take : Local := { l with refs := fun j => l.refs j + if j = i then 1 else 0 }
/-- With one reference less. -/
def drop : Local := { l with refs := fun j => l.refs j - if j = i then 1 else 0 }
/-- With an inode locked, or with something else in it. -/
def lock (v : Ino) : Local := { l with locks := update l.locks i (some v) }
/-- With an inode unlocked. -/
def unlock : Local := { l with locks := update l.locks i none }
/-- With another number of pending links. -/
def setPend (n : ℕ) : Local := { l with pend := update l.pend i n }
/-- With another inode allocated. -/
def setFresh (f : Option (ℕ × Kind)) : Local := { l with fresh := f }
/-- With another inode being freed. -/
def setDying (f : Option (ℕ × Bool)) : Local := { l with dying := f }

variable {l i} {j : ℕ} {v : Ino}

@[simp] theorem take_self : (l.take i).refs i = l.refs i + 1 := by simp [take]

theorem take_of_ne (h : j ≠ i) : (l.take i).refs j = l.refs j := by simp [take, h]

@[simp] theorem drop_self : (l.drop i).refs i = l.refs i - 1 := by simp [drop]

theorem drop_of_ne (h : j ≠ i) : (l.drop i).refs j = l.refs j := by simp [drop, h]

theorem drop_refs_le : (l.drop i).refs j ≤ l.refs j := Nat.sub_le _ _

variable {f : Option (ℕ × Bool)}

@[simp] theorem setDying_refs : (l.setDying f).refs = l.refs := rfl

@[simp] theorem setDying_dying : (l.setDying f).dying = f := rfl

theorem drop_setDying (h : l.dying = none) : ((l.setDying f).drop i).setDying none = l.drop i := by
  simp only [setDying, drop, h]

theorem not_fresh (h : l.fresh = none) : ¬l.Fresh i := by
  rintro ⟨t, ht⟩
  rw [h] at ht
  cases ht

theorem fresh_setFresh {t : Kind} : (l.setFresh (some (i, t))).Fresh j ↔ j = i := by
  simp [Fresh, setFresh, eq_comm]

@[simp] theorem setPend_self : (l.setPend i n).pend i = n := update_self ..

theorem setPend_of_ne (h : j ≠ i) : (l.setPend i n).pend j = l.pend j :=
  update_of_ne h ..

@[simp] theorem setFresh_pend {f : Option (ℕ × Kind)} : (l.setFresh f).pend = l.pend := rfl

@[simp] theorem lock_pend : (l.lock i v).pend = l.pend := rfl

@[simp] theorem lock_self : (l.lock i v).locks i = some v := update_self ..

theorem lock_of_ne (h : j ≠ i) : (l.lock i v).locks j = l.locks j := update_of_ne h ..

@[simp] theorem unlock_self : (l.unlock i).locks i = none := update_self ..

theorem unlock_of_ne (h : j ≠ i) : (l.unlock i).locks j = l.locks j := update_of_ne h ..

end Local

/-- The first two entries of a directory that is being made. -/
def Dots (i : ℕ) (es : List Dirent) : Prop :=
  (∀ e, es[0]? = some e → e = ⟨i, dot⟩) ∧ ∀ e, es[1]? = some e → e.name = dotdot

/-- What a process has is there. -/
structure Own (s : State) (l : Local) : Prop where
  lock : ∀ i v, l.locks i = some v →
    s.busy i = true ∧ s.valid i = true ∧ s.ino i = v ∧ v.type ≠ .free ∧ 1 ≤ l.refs i
  dying : ∀ i b, l.dying = some (i, b) → s.busy i = true ∧ l.locks i = none ∧ l.refs i = 1 ∧
    (b = false → (s.ino i).type = .free ∧ s.used i = true)
  refs : ∀ i, 1 ≤ l.refs i → (s.ino i).type ≠ .free ∨ ∃ b, l.dying = some (i, b)
  fresh : ∀ i t, l.fresh = some (i, t) → (s.ino i).type = t ∧ Dots i (s.ino i).entries ∧
    (l.locks i = none → s.ino i = .new t)
  pend : ∀ i, 1 ≤ l.pend i → (s.ino i).type = .dir → l.locks i ≠ none

/-- What two processes have does not overlap. -/
structure Apart (l l' : Local) : Prop where
  holds : ∀ i, l.Holds i → ¬l'.Holds i
  /-- Nobody else has what has just been allocated, except for who is still freeing it. -/
  fresh : ∀ i, l.Fresh i → (l'.refs i = 0 ∨ ∃ b, l'.dying = some (i, b)) ∧ ¬l'.Fresh i

variable {ι : Type} [Fintype ι]

/-- How what the processes have fits together. -/
structure Inv (sb : Super) (strict : Prop) (g : ι → Local) (s : State) : Prop where
  ref : ∀ i, s.ref i = ∑ p, (g p).refs i
  own : ∀ p, Own s (g p)
  apart : ∀ p q, p ≠ q → Apart (g p) (g q)
  used : ∀ i, (s.ino i).type ≠ .free → s.used i = true
  freed : ∀ i, s.used i = true → (s.ino i).type = .free → ∃ p, (g p).dying = some (i, false)
  /-- An inode that is allocated while it is still being freed has just been allocated. -/
  late : ∀ p i, (g p).dying = some (i, true) → (s.ino i).type ≠ .free → ∃ q, (g q).Fresh i
  tree : ∃ lost, WfTree sb.ninodes strict s.ino (fun i => ∑ p, (g p).pend i) lost
    fun i => ∃ p, (g p).Fresh i
  linked : strict → ∀ i, (s.ino i).type ≠ .free → (s.ino i).nlink = 0 →
    s.valid i = true ∧ 1 ≤ s.ref i ∨ ∃ p, (g p).Fresh i

/-! ### Assumptions -/

/-- The step frees the inode. -/
abbrev Freed (s s' : State) (i : ℕ) : Prop := (s.ino i).type ≠ .free ∧ (s'.ino i).type = .free

/-- The step takes the last link of the directory. -/
abbrev Removed (s s' : State) (q : ℕ) : Prop :=
  (s.ino q).type = .dir ∧ (s.ino q).nlink ≠ 0 ∧ (s'.ino q).nlink = 0

/-- Directories that were removed from this one are gone: those that have it as their parent are
still in it. -/
def Vacated (sb : Super) (s : State) (q : ℕ) : Prop :=
  ∀ d < sb.ninodes, d ≠ q → (s.ino d).parent = some q → d ∈ (s.ino q).ords

/-- A directory is removed only after those that were removed from it are gone. -/
def RemovesVacated (sb : Super) (s s' : State) : Prop :=
  ∀ q < sb.ninodes, Removed s s' q → Vacated sb s q

/-- An inode is freed only if no other directory's ".." names it. -/
def Spares (sb : Super) (s s' : State) : Prop :=
  ∀ i < sb.ninodes, Freed s s' i → ∀ d < sb.ninodes, d ≠ i → (s.ino d).parent ≠ some i

/-- A directory is freed only if it has no ordinary entries. -/
def FreesEmpty (sb : Super) (s s' : State) : Prop :=
  ∀ i < sb.ninodes, Freed s s' i → (s.ino i).ords = []

/-- A directory that has been removed gets no links again. -/
def StaysRemoved (sb : Super) (s s' : State) : Prop :=
  ∀ i < sb.ninodes, (s.ino i).type = .dir → (s.ino i).nlink = 0 → (s.ino i).entries ≠ [] →
    (s'.ino i).nlink = 0

instance (sb : Super) (s : State) (q : ℕ) : Decidable (Vacated sb s q) := by
  unfold Vacated
  infer_instance

instance (sb : Super) (s s' : State) : Decidable (RemovesVacated sb s s') := by
  unfold RemovesVacated
  infer_instance

instance (sb : Super) (s s' : State) : Decidable (Spares sb s s') := by
  unfold Spares
  infer_instance

instance (sb : Super) (s s' : State) : Decidable (FreesEmpty sb s s') := by
  unfold FreesEmpty
  infer_instance

instance (sb : Super) (s s' : State) : Decidable (StaysRemoved sb s s') := by
  unfold StaysRemoved
  infer_instance

/-- What a step does to directories. -/
structure Orderly (s s' : State) : Prop where
  parent : ∀ d q, (s.ino d).parent = some q →
    (s'.ino d).parent = some q ∨ (s'.ino d).type = .free
  enters : ∀ d j, j ∈ (s'.ino d).ords → (s'.ino j).type = .dir →
    j ∈ (s.ino d).ords ∨ (s'.ino j).parent = some d

/-- What is assumed and promised of each step. -/
def contract (sb : Super) (strict : Prop) : Contract State Panic where
  ok := fun e => e ≠ .noType
  rel := fun s s' => (¬strict → RemovesVacated sb s s') ∧
    (strict → Spares sb s s' ∧ FreesEmpty sb s s' ∧ StaysRemoved sb s s')
  guar := Orderly

/-! ### One process moves -/

section Step

variable {sb : Super} {strict : Prop} {g : ι → Local} {s s' : State} {p : ι} {l l' : Local} {i : ℕ}

/-- What a process has of one inode is there. -/
structure OwnAt (s : State) (l : Local) (i : ℕ) : Prop where
  lock : ∀ v, l.locks i = some v →
    s.busy i = true ∧ s.valid i = true ∧ s.ino i = v ∧ v.type ≠ .free ∧ 1 ≤ l.refs i
  dying : ∀ b, l.dying = some (i, b) → s.busy i = true ∧ l.locks i = none ∧ l.refs i = 1 ∧
    (b = false → (s.ino i).type = .free ∧ s.used i = true)
  refs : 1 ≤ l.refs i → (s.ino i).type ≠ .free ∨ ∃ b, l.dying = some (i, b)
  fresh : ∀ t, l.fresh = some (i, t) → (s.ino i).type = t ∧ Dots i (s.ino i).entries ∧
    (l.locks i = none → s.ino i = .new t)
  pend : 1 ≤ l.pend i → (s.ino i).type = .dir → l.locks i ≠ none

theorem Own.ownAt (h : Own s l) (i : ℕ) : OwnAt s l i :=
  ⟨h.lock i, h.dying i, h.refs i, h.fresh i, h.pend i⟩

theorem own_of_ownAt (h : ∀ i, OwnAt s l i) : Own s l :=
  ⟨fun i => (h i).lock, fun i => (h i).dying, fun i => (h i).refs, fun i => (h i).fresh,
    fun i => (h i).pend⟩

theorem OwnAt.frame (h : OwnAt s l i)
    (htype : (1 ≤ l.refs i ∧ ∀ b, l.dying ≠ some (i, b)) ∨ 1 ≤ l.pend i →
      (s'.ino i).type = (s.ino i).type)
    (hino : l.locks i ≠ none ∨ l.dying = some (i, false) ∨ l.Fresh i → s'.ino i = s.ino i)
    (hflags : l.Holds i → s'.busy i = s.busy i ∧ s'.valid i = s.valid i)
    (hused : l.dying = some (i, false) → s'.used i = s.used i) : OwnAt s' l i where
  lock := fun v hv => by
    have hne : l.locks i ≠ none := by simp [hv]
    obtain ⟨hb, hvalid⟩ := hflags (.inl hne)
    rw [hb, hvalid, hino (.inl hne)]
    exact h.lock v hv
  dying := fun b hb => by
    obtain ⟨h1, h2, h3, h4⟩ := h.dying b hb
    rw [(hflags (.inr ⟨b, hb⟩)).1]
    refine ⟨h1, h2, h3, fun hb' => ?_⟩
    subst hb'
    rw [hused hb, hino (.inr (.inl hb))]
    exact h4 rfl
  refs := fun hi => by
    by_cases hd : ∃ b, l.dying = some (i, b)
    · exact .inr hd
    · rw [htype (.inl ⟨hi, fun b hb => hd ⟨b, hb⟩⟩)]
      exact h.refs hi
  fresh := fun t ht => by
    rw [hino (.inr (.inr ⟨t, ht⟩))]
    exact h.fresh t ht
  pend := fun hi hdir => by
    rw [htype (.inr hi)] at hdir
    exact h.pend hi hdir

/-- The states are the same but for one inode. -/
structure SameOff (s s' : State) (i : ℕ) : Prop where
  ino : ∀ j ≠ i, s'.ino j = s.ino j := by exact fun _ _ => rfl
  used : ∀ j ≠ i, s'.used j = s.used j := by exact fun _ _ => rfl
  ref : ∀ j ≠ i, s'.ref j = s.ref j := by exact fun _ _ => rfl
  busy : ∀ j ≠ i, s'.busy j = s.busy j := by exact fun _ _ => rfl
  valid : ∀ j ≠ i, s'.valid j = s.valid j := by exact fun _ _ => rfl

/-- What a process has is the same but for one inode. -/
structure Local.SameOff (l l' : Local) (i : ℕ) : Prop where
  refs : ∀ j ≠ i, l'.refs j = l.refs j := by exact fun _ _ => rfl
  locks : ∀ j ≠ i, l'.locks j = l.locks j := by exact fun _ _ => rfl
  pend : ∀ j ≠ i, l'.pend j = l.pend j := by exact fun _ _ => rfl
  fresh : ∀ j ≠ i, ∀ t, l'.fresh = some (j, t) ↔ l.fresh = some (j, t) := by
    exact fun _ _ _ => Iff.rfl
  dying : ∀ j ≠ i, ∀ b, l'.dying = some (j, b) ↔ l.dying = some (j, b) := by
    exact fun _ _ _ => Iff.rfl

theorem Local.SameOff.holds {j : ℕ} (h : l.SameOff l' i) (hj : j ≠ i) : l'.Holds j ↔ l.Holds j := by
  rw [Holds, Holds, h.locks j hj, exists_congr (h.dying j hj)]

theorem Local.SameOff.isFresh {j : ℕ} (h : l.SameOff l' i) (hj : j ≠ i) :
    l'.Fresh j ↔ l.Fresh j := exists_congr (h.fresh j hj)

theorem Own.off (h : Own s l) (hs : SameOff s s' i) (hl : l.SameOff l' i) (hi : OwnAt s' l' i) :
    Own s' l' := by
  refine own_of_ownAt fun j => ?_
  by_cases hji : j = i
  · exact hji ▸ hi
  · have hino := hs.ino j hji
    obtain ⟨h1, h2, h3, h4, h5⟩ := (h.ownAt j).frame (fun _ => by rw [hino]) (fun _ => hino)
      (fun _ => ⟨hs.busy j hji, hs.valid j hji⟩) fun _ => hs.used j hji
    constructor <;>
      simpa only [hl.refs j hji, hl.locks j hji, hl.pend j hji, hl.fresh j hji, hl.dying j hji]

theorem Own.refs_pos (h : Own s l) (hi : l.Holds i) : 1 ≤ l.refs i := by
  rcases hi with hi | ⟨b, hb⟩
  · obtain ⟨v, hv⟩ := Option.ne_none_iff_exists'.mp hi
    exact (h.lock i v hv).2.2.2.2
  · exact (h.dying i b hb).2.2.1.ge

theorem Own.busy (h : Own s l) (hi : l.Holds i) : s.busy i = true := by
  rcases hi with hi | ⟨b, hb⟩
  · obtain ⟨v, hv⟩ := Option.ne_none_iff_exists'.mp hi
    exact (h.lock i v hv).1
  · exact (h.dying i b hb).1

theorem Own.type_ne_free (h : Own s l) (hd : l.dying = none) (hi : 1 ≤ l.refs i) :
    (s.ino i).type ≠ .free := by
  rcases h.refs i hi with ht | ⟨b, hb⟩
  · exact ht
  · rw [hd] at hb
    cases hb

theorem Inv.refs_le (h : Inv sb strict g s) (q : ι) (i : ℕ) : (g q).refs i ≤ s.ref i := by
  rw [h.ref i]
  exact Finset.single_le_sum (f := fun q => (g q).refs i) (fun _ _ => Nat.zero_le _)
    (Finset.mem_univ q)

theorem Inv.not_fresh (h : Inv sb strict g s) (hd : (g p).dying = none) (hi : 1 ≤ (g p).refs i)
    {q : ι} (hq : q ≠ p) : ¬(g q).Fresh i := by
  intro hfresh
  rcases ((h.apart q p hq).fresh i hfresh).1 with h0 | ⟨b, hb⟩
  · omega
  · rw [hd] at hb
    cases hb

theorem Inv.not_young (h : Inv sb strict g s) (hd : (g p).dying = none) (hi : 1 ≤ (g p).refs i)
    (hf : ¬(g p).Fresh i) : ¬∃ q, (g q).Fresh i := by
  rintro ⟨q, hq⟩
  by_cases hqp : q = p
  · exact hf (hqp ▸ hq)
  · exact h.not_fresh hd hi hqp hq

variable [DecidableEq ι]

/-- **A step of process `p`**: what it has then is there, what the others have still is, and the
rest holds of the new state. -/
theorem Inv.of_step (h : Inv sb strict g s)
    (href : ∀ i, s'.ref i + (g p).refs i = s.ref i + l'.refs i) (hown : Own s' l')
    (hframe : ∀ q, q ≠ p → Own s' (g q))
    (hapart : ∀ q, q ≠ p → Apart l' (g q) ∧ Apart (g q) l')
    (hused : ∀ i, (s'.ino i).type ≠ .free → s'.used i = true)
    (hfreed : ∀ i, s'.used i = true → (s'.ino i).type = .free →
      l'.dying = some (i, false) ∨ ∃ q, q ≠ p ∧ (g q).dying = some (i, false))
    (hlate : ∀ i, (l'.dying = some (i, true) ∨ ∃ q, q ≠ p ∧ (g q).dying = some (i, true)) →
      (s'.ino i).type ≠ .free → l'.Fresh i ∨ ∃ q, q ≠ p ∧ (g q).Fresh i)
    (htree : ∃ lost, WfTree sb.ninodes strict s'.ino
      (fun i => ∑ q, (update g p l' q).pend i) lost
      fun i => ∃ q, (update g p l' q).Fresh i)
    (hlinked : strict → ∀ i, (s'.ino i).type ≠ .free → (s'.ino i).nlink = 0 →
      s'.valid i = true ∧ 1 ≤ s'.ref i ∨ l'.Fresh i ∨ ∃ q, q ≠ p ∧ (g q).Fresh i) :
    Inv sb strict (update g p l') s' where
  ref := fun i => by
    have hsum := sum_update (fun l => l.refs i) g p l'
    have hi := href i
    have hold := h.ref i
    omega
  own := fun q => by
    by_cases hq : q = p
    · subst hq
      rwa [update_self]
    · rw [update_of_ne hq]
      exact hframe q hq
  apart := fun q r hqr => by
    by_cases hq : q = p
    · subst hq
      rw [update_self, update_of_ne (Ne.symm hqr)]
      exact (hapart r (Ne.symm hqr)).1
    · rw [update_of_ne hq]
      by_cases hr : r = p
      · subst hr
        rw [update_self]
        exact (hapart q hq).2
      · rw [update_of_ne hr]
        exact h.apart q r hqr
  used := hused
  freed := fun i hu ht => (exists_update (P := fun l : Local => l.dying = some (i, false))).mpr
    (hfreed i hu ht)
  late := fun q i hq ht => (exists_update (P := fun l : Local => l.Fresh i)).mpr (hlate i
    ((exists_update (P := fun l : Local => l.dying = some (i, true))).mp ⟨q, hq⟩) ht)
  tree := htree
  linked := fun hs i ht h0 => (hlinked hs i ht h0).imp_right
    (exists_update (P := fun l : Local => l.Fresh i)).mpr

theorem pend_update (hl : l'.pend = (g p).pend) :
    (fun i => ∑ q, (update g p l' q).pend i) = fun i => ∑ q, (g q).pend i := by
  funext i
  have hsum := sum_update (fun l : Local => l.pend i) g p l'
  rw [hl] at hsum
  omega

omit [Fintype ι] in
theorem fresh_update (hl : l'.fresh = (g p).fresh) :
    (fun i => ∃ q, (update g p l' q).Fresh i) = fun i => ∃ q, (g q).Fresh i := by
  funext i
  refine propext (exists_congr fun q => ?_)
  by_cases hq : q = p
  · subst hq
    rw [update_self, Local.Fresh, Local.Fresh, hl]
  · rw [update_of_ne hq]

theorem tree_update {n : ℕ} {ino : ℕ → Ino} {lost : ℕ → ℕ} (hpend : l'.pend = (g p).pend)
    (hfresh : l'.fresh = (g p).fresh)
    (h : WfTree n strict ino (fun i => ∑ q, (g q).pend i) lost fun i => ∃ q, (g q).Fresh i) :
    WfTree n strict ino (fun i => ∑ q, (update g p l' q).pend i) lost
      fun i => ∃ q, (update g p l' q).Fresh i := by
  rwa [pend_update hpend, fresh_update hfresh]

section

variable (h : Inv sb strict g s)

include h

/-- **A step of process `p` that is about one inode.** -/
theorem Inv.of_step_at (hs : SameOff s s' i) (hl : (g p).SameOff l' i)
    (href : s'.ref i + (g p).refs i = s.ref i + l'.refs i) (hown : OwnAt s' l' i)
    (hframe : ∀ q, q ≠ p → OwnAt s' (g q) i) (hholds : l'.Holds i → ∀ q, q ≠ p → ¬(g q).Holds i)
    (hfresh : ∀ q, q ≠ p →
      (l'.Fresh i → ((g q).refs i = 0 ∨ ∃ b, (g q).dying = some (i, b)) ∧ ¬(g q).Fresh i) ∧
      ((g q).Fresh i → (l'.refs i = 0 ∨ ∃ b, l'.dying = some (i, b)) ∧ ¬l'.Fresh i))
    (hused : (s'.ino i).type ≠ .free → s'.used i = true)
    (hfreed : s'.used i = true → (s'.ino i).type = .free →
      l'.dying = some (i, false) ∨ ∃ q, q ≠ p ∧ (g q).dying = some (i, false))
    (hlate : (l'.dying = some (i, true) ∨ ∃ q, q ≠ p ∧ (g q).dying = some (i, true)) →
      (s'.ino i).type ≠ .free → l'.Fresh i ∨ ∃ q, q ≠ p ∧ (g q).Fresh i)
    (htree : ∃ lost, WfTree sb.ninodes strict s'.ino (fun i => ∑ q, (update g p l' q).pend i) lost
      fun i => ∃ q, (update g p l' q).Fresh i)
    (hlinked : strict → (s'.ino i).type ≠ .free → (s'.ino i).nlink = 0 →
      s'.valid i = true ∧ 1 ≤ s'.ref i ∨ l'.Fresh i ∨ ∃ q, q ≠ p ∧ (g q).Fresh i) :
    Inv sb strict (update g p l') s' := by
  have hyoung : ∀ j ≠ i, (∃ q, (g q).Fresh j) → l'.Fresh j ∨ ∃ q, q ≠ p ∧ (g q).Fresh j :=
    fun j hji hf => exists_ne_of_exists (fun l : Local => l.Fresh j) hf (hl.isFresh hji).mpr
  refine h.of_step (fun j => ?_) ((h.own p).off hs hl hown)
    (fun q hq => (h.own q).off hs {} (hframe q hq))
    (fun q hq => ⟨⟨fun j hj => ?_, fun j hj => ?_⟩, ⟨fun j hj hj' => ?_, fun j hj => ?_⟩⟩)
    (fun j ht => ?_) (fun j hu ht => ?_) (fun j hd ht => ?_) htree (fun hst j ht h0 => ?_)
  all_goals by_cases hji : j = i
  · rwa [hji]
  · rw [hs.ref j hji, hl.refs j hji]
  · exact hji ▸ hholds (hji ▸ hj) q hq
  · exact (h.apart p q (Ne.symm hq)).holds j ((hl.holds hji).mp hj)
  · exact hji ▸ (hfresh q hq).1 (hji ▸ hj)
  · exact (h.apart p q (Ne.symm hq)).fresh j ((hl.isFresh hji).mp hj)
  · exact hholds (hji ▸ hj') q hq (hji ▸ hj)
  · exact (h.apart q p hq).holds j hj ((hl.holds hji).mp hj')
  · exact hji ▸ (hfresh q hq).2 (hji ▸ hj)
  · rw [hl.refs j hji, exists_congr (hl.dying j hji), hl.isFresh hji]
    exact (h.apart q p hq).fresh j hj
  · exact hji ▸ hused (hji ▸ ht)
  · rw [hs.used j hji]
    exact h.used j (hs.ino j hji ▸ ht)
  · exact hji ▸ hfreed (hji ▸ hu) (hji ▸ ht)
  · rw [hs.used j hji] at hu
    exact exists_ne_of_exists (fun l : Local => l.dying = some (j, false))
      (h.freed j hu (hs.ino j hji ▸ ht)) (hl.dying j hji false).mpr
  · exact hji ▸ hlate (hji ▸ hd) (hji ▸ ht)
  · rw [hs.ino j hji] at ht
    rw [hl.dying j hji] at hd
    rcases hd with hd | ⟨q, -, hd⟩
    · exact hyoung j hji (h.late p j hd ht)
    · exact hyoung j hji (h.late q j hd ht)
  · exact hji ▸ hlinked hst (hji ▸ ht) (hji ▸ h0)
  · rw [hs.ino j hji] at ht h0
    rw [hs.valid j hji, hs.ref j hji]
    exact (h.linked hst j ht h0).imp_right (hyoung j hji)

/-- **A step in the inode cache**: no inode changes. -/
theorem Inv.of_cache (hs : SameOff s s' i) (hl : (g p).SameOff l' i)
    (hino : s'.ino = s.ino) (hused : s'.used = s.used) (hpend : l'.pend = (g p).pend)
    (hfresh : l'.fresh = (g p).fresh) (hdying : l'.dying = (g p).dying)
    (href : s'.ref i + (g p).refs i = s.ref i + l'.refs i) (hown : OwnAt s' l' i)
    (hflags : ∀ q, q ≠ p → (g q).Holds i → s'.busy i = s.busy i ∧ s'.valid i = s.valid i)
    (hholds : l'.Holds i → ∀ q, q ≠ p → ¬(g q).Holds i)
    (hrefs : ∀ q, q ≠ p → (g q).Fresh i → l'.refs i ≤ (g p).refs i)
    (hlinked : (s.ino i).nlink = 0 → s.valid i = true → 1 ≤ s.ref i →
      s'.valid i = true ∧ 1 ≤ s'.ref i) : Inv sb strict (update g p l') s' := by
  have hyoung : (∃ q, (g q).Fresh i) → l'.Fresh i ∨ ∃ q, q ≠ p ∧ (g q).Fresh i := fun hf =>
    exists_ne_of_exists (fun l : Local => l.Fresh i) hf fun hf => by rwa [Local.Fresh, hfresh]
  refine h.of_step_at hs hl href hown (fun q hq => ((h.own q).ownAt i).frame (fun _ => by rw [hino])
    (fun _ => by rw [hino]) (hflags q hq) fun _ => by rw [hused]) hholds (fun q hq => ⟨?_, ?_⟩)
    (by rw [hino, hused]; exact h.used i) (fun hu ht => ?_) (fun hd ht => ?_) ?_
    fun hst ht h0 => ?_
  · rw [Local.Fresh, hfresh]
    exact (h.apart p q (Ne.symm hq)).fresh i
  · intro hf
    obtain ⟨h0, hnf⟩ := (h.apart q p hq).fresh i hf
    rw [hdying, Local.Fresh, hfresh]
    have hle := hrefs q hq hf
    exact ⟨h0.imp_left fun h0 => by omega, hnf⟩
  · rw [hused] at hu
    rw [hino] at ht
    exact exists_ne_of_exists (fun l : Local => l.dying = some (i, false)) (h.freed i hu ht)
      hdying.trans
  · rw [hino] at ht
    rcases hd with hd | ⟨q, -, hd⟩
    · exact hyoung (h.late p i (hdying.symm.trans hd) ht)
    · exact hyoung (h.late q i hd ht)
  · obtain ⟨lost, htree⟩ := h.tree
    rw [hino]
    exact ⟨lost, tree_update hpend hfresh htree⟩
  · rw [hino] at ht h0
    exact (h.linked hst i ht h0).imp (fun hin => hlinked h0 hin.1 hin.2) hyoung

/-- **A reference is taken**, to an inode that is allocated. If there were none, the flags are
cleared. -/
theorem Inv.take (hd : (g p).dying = none) (hs : SameOff s s' i)
    (hino : s'.ino = s.ino) (hused : s'.used = s.used) (hi : (s.ino i).type ≠ .free)
    (hnf : ∀ q, q ≠ p → ¬(g q).Fresh i) (href : s'.ref i = s.ref i + 1)
    (hflags : s.ref i ≠ 0 → s'.busy i = s.busy i ∧ s'.valid i = s.valid i) :
    Inv sb strict (update g p ((g p).take i)) s' := by
  have hheld : ∀ q, (g q).Holds i → s'.busy i = s.busy i ∧ s'.valid i = s.valid i :=
    fun q hq => hflags (by
      have h1 := (h.own q).refs_pos hq
      have h2 := h.refs_le q i
      omega)
  have hown : OwnAt s' (g p) i := ((h.own p).ownAt i).frame (fun _ => by rw [hino])
    (fun _ => by rw [hino]) (hheld p) fun _ => by rw [hused]
  refine h.of_cache hs { refs := fun _ => Local.take_of_ne } hino hused rfl rfl rfl ?_
    ⟨fun v hv => ?_, fun b hb => ?_, fun _ => ?_, hown.fresh, hown.pend⟩ (fun q _ => hheld q)
    (fun hp q hq => (h.apart p q (Ne.symm hq)).holds i hp) (fun q hq hf => absurd hf (hnf q hq))
    fun _ hv hr => ?_
  · rw [href, Local.take_self]
    omega
  · obtain ⟨h1, h2, h3, h4, h5⟩ := hown.lock v hv
    exact ⟨h1, h2, h3, h4, le_add_right h5⟩
  · cases hd.symm.trans hb
  · rw [hino]
    exact .inl hi
  · rw [(hflags (by omega)).2, href]
    exact ⟨hv, by omega⟩

omit [DecidableEq ι] in
theorem Inv.not_holds (hfree : s.busy i = false) (q : ι) : ¬(g q).Holds i := fun hq => by
  rw [(h.own q).busy hq] at hfree
  cases hfree

/-- **An inode is locked.** -/
theorem Inv.lock (hd : (g p).dying = none) (hi : 1 ≤ (g p).refs i)
    (hfree : s.busy i = false) (hs : SameOff s s' i) (hino : s'.ino = s.ino)
    (hused : s'.used = s.used) (href : s'.ref = s.ref) (hbusy : s'.busy i = true)
    (hvalid : s'.valid i = true) : Inv sb strict (update g p ((g p).lock i (s.ino i))) s' := by
  have hheld := h.not_holds hfree
  have hown := (h.own p).ownAt i
  refine h.of_cache hs { locks := fun _ => Local.lock_of_ne } hino hused rfl rfl rfl
    (by rw [href]; rfl)
    ⟨fun v hv => ?_, fun b hb => ?_, fun hr => ?_, fun t ht => ?_, fun _ _ => by simp⟩
    (fun q _ hq => absurd hq (hheld q)) (fun _ q _ => hheld q) (fun _ _ _ => le_rfl)
    fun _ _ hr => ⟨hvalid, href ▸ hr⟩
  · obtain rfl : s.ino i = v := by simpa using hv
    rw [hbusy, hvalid, hino]
    exact ⟨rfl, rfl, rfl, (h.own p).type_ne_free hd hi, hi⟩
  · cases hd.symm.trans hb
  · rw [hino]
    exact hown.refs hr
  · obtain ⟨h1, h2, -⟩ := hown.fresh t ht
    rw [hino]
    exact ⟨h1, h2, by simp⟩

/-- **An inode is unlocked.** -/
theorem Inv.unlock {v : Ino} (hi : (g p).locks i = some v)
    (hf : ¬(g p).Fresh i) (hp : v.type = .dir → (g p).pend i = 0) (hs : SameOff s s' i)
    (hino : s'.ino = s.ino) (hused : s'.used = s.used) (href : s'.ref = s.ref)
    (hvalid : s'.valid = s.valid) : Inv sb strict (update g p ((g p).unlock i)) s' := by
  have hhold : (g p).Holds i := .inl (by simp [hi])
  have hdying : ∀ b, (g p).dying ≠ some (i, b) := fun b hb => by
    cases ((h.own p).dying i b hb).2.1.symm.trans hi
  have hv : s.ino i = v := ((h.own p).lock i v hi).2.2.1
  refine h.of_cache hs { locks := fun _ => Local.unlock_of_ne } hino hused rfl rfl rfl
    (by rw [href]; rfl) ⟨by simp, fun b hb => absurd hb (hdying b), fun hr => ?_,
      fun t ht => absurd ⟨t, ht⟩ hf, fun hpend hdir => ?_⟩
    (fun q hq hq' => absurd hhold ((h.apart q p hq).holds i hq')) ?_ (fun _ _ _ => le_rfl)
    fun _ hvi hr => by rw [hvalid, href]; exact ⟨hvi, hr⟩
  · rw [hino]
    exact (h.own p).refs i hr
  · rw [hino, hv] at hdir
    exact absurd (hp hdir) (Nat.one_le_iff_ne_zero.mp hpend)
  · rintro (hlock | ⟨b, hb⟩)
    · simp at hlock
    · exact absurd hb (hdying b)

/-- **A reference is dropped**, and the inode is not freed. -/
theorem Inv.drop (hd : (g p).dying = none) (hi : 1 ≤ (g p).refs i)
    (hlock : (g p).locks i ≠ none → 2 ≤ (g p).refs i)
    (hkeep : ¬(s.ref i = 1 ∧ s.valid i = true ∧ (s.ino i).nlink = 0)) :
    Inv sb strict (update g p ((g p).drop i)) (s.setRef i (s.ref i - 1)) := by
  have hle := h.refs_le p i
  have hown := (h.own p).ownAt i
  have hnew : (s.setRef i (s.ref i - 1)).ref i = s.ref i - 1 := update_self ..
  refine h.of_cache { ref := fun _ hj => update_of_ne hj .. } { refs := fun _ => Local.drop_of_ne }
    rfl rfl rfl rfl rfl ?_
    ⟨fun v hv => ?_, fun b hb => ?_, fun hr => hown.refs (hr.trans Local.drop_refs_le), hown.fresh,
      hown.pend⟩ (fun _ _ _ => ⟨rfl, rfl⟩) (fun hp q hq => (h.apart p q (Ne.symm hq)).holds i hp)
    (fun _ _ _ => Local.drop_refs_le) fun h0 hv hr => ⟨hv, ?_⟩
  · rw [hnew, Local.drop_self]
    omega
  · obtain ⟨h1, h2, h3, h4, -⟩ := hown.lock v hv
    have htwo : 2 ≤ (g p).refs i := hlock (by simp [show (g p).locks i = some v from hv])
    refine ⟨h1, h2, h3, h4, ?_⟩
    rw [Local.drop_self]
    omega
  · cases hd.symm.trans hb
  · rw [hnew]
    by_contra hlt
    exact hkeep ⟨by omega, hv, h0⟩

theorem Inv.refs_eq_zero (hi : 1 ≤ (g p).refs i) (href : s.ref i = 1)
    {q : ι} (hq : q ≠ p) : (g q).refs i = 0 := by
  have hsum := add_le_sum (fun l : Local => l.refs i) g hq
  have hall := h.ref i
  omega

omit [DecidableEq ι] in
theorem Inv.pend_eq_zero (h0 : (s.ino i).nlink = 0) (q : ι) : (g q).pend i = 0 := by
  obtain ⟨lost, htree⟩ := h.tree
  exact Finset.sum_eq_zero_iff.mp (htree.of_nlink_eq_zero h0).2.2.2.1 q (Finset.mem_univ q)

/-- **An inode is locked to be freed, and what is in it is discarded.** -/
theorem Inv.discard (hd : (g p).dying = none) (hi : 1 ≤ (g p).refs i)
    (href : s.ref i = 1) (hnlink : (s.ino i).nlink = 0) (hbusy : s.busy i = false)
    (hf : ¬(g p).Fresh i)
    (hrel : (contract sb strict).rel s ((s.setBusy i true).setIno i (.new .free))) :
    Inv sb strict (update g p ((g p).setDying (some (i, false))))
      ((s.setBusy i true).setIno i (.new .free)) := by
  have htype := (h.own p).type_ne_free hd hi
  have hold : (g p).refs i = 1 := by
    have hle := h.refs_le p i
    omega
  have hheld := h.not_holds hbusy
  have hpend := h.pend_eq_zero hnlink
  have hyoung := h.not_young hd hi hf
  have hlock : (g p).locks i = none := by
    by_contra hlock
    exact hheld p (.inl hlock)
  have hnew : ((s.setBusy i true).setIno i (.new .free)).ino i = .new .free :=
    update_self ..
  have hfree : (((s.setBusy i true).setIno i (.new .free)).ino i).type = .free := by rw [hnew]; rfl
  refine h.of_step_at
    { ino := fun _ hj => update_of_ne hj .., busy := fun _ hj => update_of_ne hj .. }
    { dying := fun j hj b => by simp [Local.setDying, hd, Ne.symm hj] } rfl
    ⟨fun v hv => ?_, fun b hb => ⟨update_self .., hlock, hold, fun _ => ⟨hfree, h.used i htype⟩⟩,
      fun _ => .inr ⟨false, rfl⟩, fun t ht => absurd ⟨t, ht⟩ hf,
      fun hj => absurd (hpend p) (Nat.one_le_iff_ne_zero.mp hj)⟩ (fun q hq => ?_)
    (fun _ q _ => hheld q)
    (fun q hq => ⟨fun hf' => absurd hf' hf, fun hf' => absurd ⟨q, hf'⟩ hyoung⟩)
    (fun ht => absurd hfree ht) (fun _ _ => .inl rfl) (fun _ ht => absurd hfree ht) ?_
    fun _ ht => absurd hfree ht
  · cases hlock.symm.trans hv
  · -- none of the others has anything to do with the inode
    have hzero := h.refs_eq_zero hi href hq
    refine ((h.own q).ownAt i).frame (fun hj => ?_) (fun hj => ?_) (fun hj => absurd hj (hheld q))
      fun _ => rfl
    · have := hpend q
      omega
    · rcases hj with hj | hj | hj
      · exact absurd (.inl hj) (hheld q)
      · exact absurd (.inr ⟨_, hj⟩) (hheld q)
      · exact absurd ⟨q, hj⟩ hyoung
  · obtain ⟨lost, htree⟩ := h.tree
    have hlt := (htree.bound i htype).2
    have hdiscard := htree.discard hnlink htype hyoung (fun d hd hpar => ?_)
      fun hs => (hrel.2 hs).2.1 i hlt ⟨htype, hfree⟩
    · exact ⟨_, tree_update rfl rfl hdiscard⟩
    · by_cases hs : strict
      · exact (hrel.2 hs).1 i hlt ⟨htype, hfree⟩ d (htree.lt_of_parent hpar) hd hpar
      · exact (htree.kept hs d i hpar hd).2 hnlink

/-- **The inode that is being freed is marked as free on the disk.** From here on it can be
allocated again. -/
theorem Inv.markFree (hd : (g p).dying = some (i, false)) :
    Inv sb strict (update g p ((g p).setDying (some (i, true)))) (s.setUsed i false) := by
  obtain ⟨hbusy, hlock, hrefs, hfree⟩ := (h.own p).dying i false hd
  have hown := (h.own p).ownAt i
  have hhold : (g p).Holds i := .inr ⟨false, hd⟩
  have hnot : ∀ q, q ≠ p → ¬(g q).Holds i := fun q hq => (h.apart p q (Ne.symm hq)).holds i hhold
  have hunused : (s.setUsed i false).used i = false := update_self ..
  refine h.of_step_at { used := fun _ hj => update_of_ne hj .. }
    { dying := fun j hj b => by simp [Local.setDying, hd, Ne.symm hj] } rfl
    ⟨hown.lock, fun b hb => ?_, fun _ => .inr ⟨true, rfl⟩, hown.fresh, hown.pend⟩
    (fun q hq => ((h.own q).ownAt i).frame (fun _ => rfl) (fun _ => rfl) (fun _ => ⟨rfl, rfl⟩)
      fun hj => absurd (.inr ⟨_, hj⟩) (hnot q hq))
    (fun _ => hnot) (fun q hq => ⟨(h.apart p q (Ne.symm hq)).fresh i, fun hf =>
      ⟨.inr ⟨true, rfl⟩, ((h.apart q p hq).fresh i hf).2⟩⟩)
    (fun ht => absurd (hfree rfl).1 ht) (fun hu => ?_) (fun _ ht => absurd (hfree rfl).1 ht) ?_
    fun _ ht => absurd (hfree rfl).1 ht
  · obtain rfl : true = b := by simpa using hb
    exact ⟨hbusy, hlock, hrefs, nofun⟩
  · cases hunused.symm.trans hu
  · obtain ⟨lost, htree⟩ := h.tree
    exact ⟨lost, tree_update rfl rfl htree⟩

/-- **The reference to an inode that has been freed is dropped.** If somebody has allocated it in
the meantime, they have just done so. -/
theorem Inv.release (hd : (g p).dying = some (i, true)) :
    Inv sb strict (update g p (((g p).drop i).setDying none))
      (((s.setBusy i false).setValid i false).setRef i (s.ref i - 1)) := by
  obtain ⟨hbusy, hlock, hrefs, -⟩ := (h.own p).dying i true hd
  have hle := h.refs_le p i
  have hown := (h.own p).ownAt i
  have hnot : ∀ q, q ≠ p → ¬(g q).Holds i := fun q hq =>
    (h.apart p q (Ne.symm hq)).holds i (.inr ⟨true, hd⟩)
  have hzero : (((g p).drop i).setDying none).refs i = 0 := by
    rw [Local.setDying_refs, Local.drop_self, hrefs]
  have hnew : (((s.setBusy i false).setValid i false).setRef i (s.ref i - 1)).ref i = s.ref i - 1 :=
    update_self ..
  have hyoung : (∃ q, (g q).Fresh i) →
      (((g p).drop i).setDying none).Fresh i ∨ ∃ q, q ≠ p ∧ (g q).Fresh i :=
    fun hf => exists_ne_of_exists (fun l : Local => l.Fresh i) hf id
  refine h.of_step_at
    { ref := fun _ hj => update_of_ne hj .., busy := fun _ hj => update_of_ne hj ..,
      valid := fun _ hj => update_of_ne hj .. }
    { refs := fun _ => Local.drop_of_ne
      dying := fun j hj b => by simp [Local.setDying, hd, Ne.symm hj] } ?_
    ⟨fun v hv => ?_, nofun, fun hr => ?_, hown.fresh, hown.pend⟩
    (fun q hq => ((h.own q).ownAt i).frame (fun _ => rfl) (fun _ => rfl)
      (fun hj => absurd hj (hnot q hq)) fun _ => rfl)
    (fun _ => hnot) (fun q hq => ⟨(h.apart p q (Ne.symm hq)).fresh i, fun hf =>
      ⟨.inl hzero, ((h.apart q p hq).fresh i hf).2⟩⟩) (h.used i) (fun hu ht => ?_) (fun hj ht => ?_)
    ?_ fun _ ht _ => .inr (hyoung (h.late p i hd ht))
  · rw [hnew, hzero]
    omega
  · cases hlock.symm.trans hv
  · omega
  · obtain ⟨q, hq⟩ := h.freed i hu ht
    refine .inr ⟨q, ?_, hq⟩
    rintro rfl
    cases hd.symm.trans hq
  · exact hyoung (h.late p i hd ht)
  · obtain ⟨lost, htree⟩ := h.tree
    exact ⟨lost, tree_update rfl rfl htree⟩

/-- **An inode that is marked as free is allocated.** Nobody has anything to do with it, except for
who may still be freeing it. -/
theorem Inv.alloc (hd : (g p).dying = none) (hfresh : (g p).fresh = none)
    (hi : i ≠ 0 ∧ i < sb.ninodes) {t : Kind} (ht : t ≠ .free) (hu : s.used i = false) :
    Inv sb strict (update g p ((g p).setFresh (some (i, t))))
      ((s.setUsed i true).setIno i (.new t)) := by
  have hfree : (s.ino i).type = .free := by
    by_contra hne
    rw [h.used i hne] at hu
    cases hu
  obtain ⟨lost, htree⟩ := h.tree
  have hnot : ∀ q, ¬(g q).Fresh i := fun q hq => (htree.young i ⟨q, hq⟩).1 hfree
  have hpend := h.pend_eq_zero (htree.free i hfree)
  have hdying : ∀ q, (g q).dying ≠ some (i, false) := fun q hq => by
    rw [(((h.own q).dying i false hq).2.2.2 rfl).2] at hu
    cases hu
  have hrefs : ∀ q, (g q).refs i = 0 ∨ ∃ b, (g q).dying = some (i, b) := fun q => by
    by_contra hne
    obtain ⟨hrefs, hnd⟩ := not_or.mp hne
    exact ((h.own q).refs i (Nat.one_le_iff_ne_zero.mpr hrefs)).elim (· hfree) hnd
  have hnew : ((s.setUsed i true).setIno i (.new t)).ino i = .new t := update_self ..
  have hframe : ∀ q, OwnAt ((s.setUsed i true).setIno i (.new t)) (g q) i := fun q => by
    refine ((h.own q).ownAt i).frame ?_ ?_ (fun _ => ⟨rfl, rfl⟩) fun hj => absurd hj (hdying q)
    · rintro (⟨hj, hnd⟩ | hj)
      · rcases hrefs q with h0 | ⟨b, hb⟩
        · omega
        · exact absurd hb (hnd b)
      · have := hpend q
        omega
    · rintro (hj | hj | hj)
      · obtain ⟨v, hv⟩ := Option.ne_none_iff_exists'.mp hj
        obtain ⟨-, -, hino, htype, -⟩ := (h.own q).lock i v hv
        exact absurd (hino ▸ hfree) htype
      · exact absurd hj (hdying q)
      · exact absurd hj (hnot q)
  refine h.of_step_at
    { ino := fun _ hj => update_of_ne hj .., used := fun _ hj => update_of_ne hj .. }
    { fresh := fun j hj t => by simp [Local.setFresh, hfresh, Ne.symm hj] } rfl
    ⟨(hframe p).lock, (hframe p).dying, (hframe p).refs, fun t' ht' => ?_, (hframe p).pend⟩
    (fun q _ => hframe q) (fun hp q hq => (h.apart p q (Ne.symm hq)).holds i hp)
    (fun q _ => ⟨fun _ => ⟨hrefs q, hnot q⟩, fun hf => absurd hf (hnot q)⟩)
    (fun _ => update_self ..) (fun _ htj => ?_) (fun _ _ => .inl ⟨t, rfl⟩) ⟨lost, ?_⟩
    fun _ _ _ => .inr (.inl ⟨t, rfl⟩)
  · obtain rfl : t = t' := by simpa [Local.setFresh] using ht'
    rw [hnew]
    exact ⟨rfl, ⟨nofun, nofun⟩, fun _ => rfl⟩
  · rw [hnew] at htj
    exact absurd htj ht
  · have hyoung : ∀ j, (∃ q, (update g p ((g p).setFresh (some (i, t))) q).Fresh j) ↔
        (∃ q, (g q).Fresh j) ∨ j = i := fun j => by
      rw [exists_update (P := fun l : Local => l.Fresh j), Local.fresh_setFresh, or_comm]
      refine or_congr_left ⟨fun ⟨q, _, hq⟩ => ⟨q, hq⟩, fun ⟨q, hq⟩ => ⟨q, ?_, hq⟩⟩
      rintro rfl
      exact Local.not_fresh hfresh hq
    rw [show (fun j => ∑ q, (update g p ((g p).setFresh (some (i, t))) q).pend j) =
      fun j => ∑ q, (g q).pend j from pend_update rfl]
    exact htree.alloc hfree hi ht hyoung

omit h [Fintype ι] [DecidableEq ι] in
theorem Own.write {v w : Ino} (h : Own s l) (hd : l.dying = none) (hv : l.locks i = some v)
    (hw : w.type = v.type) (hrefs : l'.refs = l.refs)
    (hlocks : l'.locks = update l.locks i (some w))
    (hdying : l'.dying = none) (hfresh : ∀ j t, l'.fresh = some (j, t) → l.fresh = some (j, t))
    (hdot : l'.Fresh i → Dots i w.entries)
    (hpend : ∀ j, 1 ≤ l'.pend j → (s.ino j).type = .dir → l.locks j ≠ none) :
    Own (s.setIno i w) l' := by
  obtain ⟨hbusy, hvalid, hino, htype, href⟩ := h.lock i v hv
  have hnew : (s.setIno i w).ino i = w := update_self ..
  have hset : ∀ j ≠ i, (s.setIno i w).ino j = s.ino j := fun j hj => update_of_ne hj ..
  have htypes : ∀ j, ((s.setIno i w).ino j).type = (s.ino j).type :=
    apply_update s.ino i w Ino.type (hw.trans (congrArg Ino.type hino.symm))
  refine ⟨fun j u hu => ?_, fun j b hb => ?_, fun j hj => ?_, fun j t ht => ?_, fun j hj hdir => ?_⟩
  · rw [hrefs]
    by_cases hji : j = i
    · subst hji
      obtain rfl : w = u := by simpa [hlocks] using hu
      exact ⟨hbusy, hvalid, hnew, hw ▸ htype, href⟩
    · rw [hlocks, update_of_ne hji] at hu
      rw [hset j hji]
      exact h.lock j u hu
  · rw [hdying] at hb
    cases hb
  · rw [hrefs] at hj
    rw [htypes]
    exact .inl (h.type_ne_free hd hj)
  · obtain ⟨h1, h2, h3⟩ := h.fresh j t (hfresh j t ht)
    rw [htypes]
    refine ⟨h1, ?_, fun hj => ?_⟩
    · by_cases hji : j = i
      · subst hji
        rw [hnew]
        exact hdot ⟨t, ht⟩
      · rwa [hset j hji]
    · have hji : j ≠ i := by
        rintro rfl
        simp [hlocks] at hj
      rw [hlocks, update_of_ne hji] at hj
      rw [hset j hji]
      exact h3 hj
  · rw [htypes] at hdir
    have hlock := hpend j hj hdir
    by_cases hji : j = i
    · simp [hlocks, hji]
    · rwa [hlocks, update_of_ne hji]

/-- **An inode that is locked is written.** Its type stays the same; if the inode that the process
has allocated is linked with this, it is locked as well. -/
theorem Inv.write {v w : Ino} (hd : (g p).dying = none)
    (hv : (g p).locks i = some v) (hw : w.type = v.type) (hrefs : l'.refs = (g p).refs)
    (hlocks : l'.locks = update (g p).locks i (some w)) (hdying : l'.dying = none)
    (hfresh : l'.fresh = (g p).fresh ∨ l'.fresh = none ∧ ∀ j, (g p).Fresh j → (g p).locks j ≠ none)
    (hdot : l'.Fresh i → Dots i w.entries)
    (hpend : ∀ j, 1 ≤ l'.pend j → (s.ino j).type = .dir → (g p).locks j ≠ none)
    (htree : ∃ lost, WfTree sb.ninodes strict (update s.ino i w)
      (fun i => ∑ q, (update g p l' q).pend i) lost fun i => ∃ q, (update g p l' q).Fresh i) :
    Inv sb strict (update g p l') (s.setIno i w) := by
  obtain ⟨hbusy, hvalid, hino, htype, href⟩ := (h.own p).lock i v hv
  have hhold : (g p).Holds i := .inl (by simp [hv])
  have hset : ∀ j ≠ i, (s.setIno i w).ino j = s.ino j := fun j hj => update_of_ne hj ..
  have htypes : ∀ j, ((s.setIno i w).ino j).type = (s.ino j).type :=
    apply_update s.ino i w Ino.type (hw.trans (congrArg Ino.type hino.symm))
  have hholds : ∀ j, l'.Holds j ↔ (g p).Holds j := fun j => by
    rw [Local.Holds, Local.Holds, hlocks, hdying, hd]
    by_cases hji : j = i
    · simp [hji, hv]
    · rw [update_of_ne hji]
  have hold : ∀ j t, l'.fresh = some (j, t) → (g p).fresh = some (j, t) := fun j t ht => by
    rcases hfresh with hf | ⟨hf, -⟩
    · exact hf.symm.trans ht
    · cases hf.symm.trans ht
  have hfresh' : ∀ j, l'.Fresh j → (g p).Fresh j := fun j hj => hj.imp fun t => hold j t
  -- what the process had allocated, it still has, or it has it locked
  have hclear : ∀ j, (g p).Fresh j → l'.Fresh j ∨ (g p).locks j ≠ none := fun j hj => by
    rcases hfresh with hf | ⟨-, hf⟩
    · rw [Local.Fresh, hf]
      exact .inl hj
    · exact .inr (hf j hj)
  refine h.of_step (fun j => by rw [hrefs]; rfl)
    ((h.own p).write hd hv hw hrefs hlocks hdying hold hdot hpend) (fun q hq => ?_) (fun q hq => ?_)
    (fun j => by rw [htypes]; exact h.used j) (fun j hu ht => ?_) (fun j hj ht => ?_) htree
    (fun hs j ht h0 => ?_)
  · refine (h.own q).off { ino := hset } {} (((h.own q).ownAt i).frame (fun _ => htypes i)
      (fun hj => ?_) (fun _ => ⟨rfl, rfl⟩) fun _ => rfl)
    rcases hj with hj | hj | hj
    · exact absurd hhold ((h.apart q p hq).holds i (.inl hj))
    · exact absurd hhold ((h.apart q p hq).holds i (.inr ⟨_, hj⟩))
    · exact absurd hj (h.not_fresh hd href hq)
  · refine ⟨⟨fun j hj => (h.apart p q (Ne.symm hq)).holds j ((hholds j).mp hj),
        fun j hj => (h.apart p q (Ne.symm hq)).fresh j (hfresh' j hj)⟩,
      ⟨fun j hj hj' => (h.apart q p hq).holds j hj ((hholds j).mp hj'), fun j hj => ?_⟩⟩
    rw [hrefs, hdying, ← hd]
    exact ⟨((h.apart q p hq).fresh j hj).1, fun hj' =>
      ((h.apart q p hq).fresh j hj).2 (hfresh' j hj')⟩
  · rw [htypes] at ht
    exact exists_ne_of_exists (fun l : Local => l.dying = some (j, false)) (h.freed j hu ht)
      fun hj => by rwa [hdying, ← hd]
  · rw [htypes] at ht
    rcases hj with hj | ⟨q, hq, hj⟩
    · rw [hdying] at hj
      cases hj
    · refine exists_ne_of_exists (fun l : Local => l.Fresh j) (h.late q j hj ht) fun hf => ?_
      exact (hclear j hf).resolve_right fun hne =>
        (h.apart q p hq).holds j (.inr ⟨_, hj⟩) (.inl hne)
  · by_cases hji : j = i
    · subst hji
      exact .inl ⟨hvalid, href.trans (h.refs_le p j)⟩
    · rw [hset j hji] at ht h0
      rcases h.linked hs j ht h0 with hin | hf
      · exact .inl hin
      · by_cases hne : (g p).locks j = none
        · exact .inr (exists_ne_of_exists (fun l : Local => l.Fresh j) hf fun hf =>
            (hclear j hf).resolve_right (not_not_intro hne))
        · obtain ⟨u, hu⟩ := Option.ne_none_iff_exists'.mp hne
          obtain ⟨-, hvalid, -, -, href⟩ := (h.own p).lock j u hu
          exact .inl ⟨hvalid, href.trans (h.refs_le p j)⟩

end

end Step

end Xv6.Fs.Tree
