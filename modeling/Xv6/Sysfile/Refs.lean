import Xv6.Sysfile.Code

/-!
# References to inodes and locks on them

What a process has to keep to when it uses inodes, whatever is in them: it uses an inode only with a
reference, changes it only with the lock, writes it back before it unlocks it, and puts each
reference once. Nothing is said here about the contents of directories; what a name leads to may be
anything.

A reference belongs to a call that is in progress, or else to a file or a current directory. The
references of the second kind are `base`. A process may use an inode without a reference of its own
when something that it has makes sure that there is one in `base`: a `lease`.

## Main definitions

* `Hold` — the references and the locks of a call
* `Refs` — reference counts are the sum of all references, and `I_BUSY` is set by one lock
* `inodeRules` — what a process may ask for, and what it has then
* `Implementation` — inodes for which this can be relied on
-/

namespace Xv6.Sysfile

open Fs Concurrent Function

/-- What a call in progress has. -/
@[ext] structure Hold (η : Type) where
  refs : η → ℕ
  /-- Locks, with whether the inode has been changed since it was last written. -/
  locks : η → Option Bool

/-- Nothing. -/
def Hold.empty {η : Type} : Hold η := ⟨fun _ => 0, fun _ => none⟩

namespace Hold

variable {η : Type} [DecidableEq η] (l : Hold η) (x : η)

/-- One more reference. -/
def take : Hold η := { l with refs := update l.refs x (l.refs x + 1) }
/-- One reference less. -/
def drop : Hold η := { l with refs := update l.refs x (l.refs x - 1) }
/-- With a lock. -/
def lock (dirty : Bool) : Hold η := { l with locks := update l.locks x (some dirty) }
/-- Without a lock. -/
def unlock : Hold η := { l with locks := update l.locks x none }

variable {l x} {y : η} {d d' : Bool}

@[simp] theorem take_locks : (l.take x).locks = l.locks := rfl
@[simp] theorem drop_locks : (l.drop x).locks = l.locks := rfl
@[simp] theorem lock_refs : (l.lock x d).refs = l.refs := rfl
@[simp] theorem take_self : (l.take x).refs x = l.refs x + 1 := update_self ..
@[simp] theorem drop_self : (l.drop x).refs x = l.refs x - 1 := update_self ..
@[simp] theorem lock_self : (l.lock x d).locks x = some d := update_self ..
@[simp] theorem unlock_self : (l.unlock x).locks x = none := update_self ..
theorem take_of_ne (h : y ≠ x) : (l.take x).refs y = l.refs y := update_of_ne h ..
theorem drop_of_ne (h : y ≠ x) : (l.drop x).refs y = l.refs y := update_of_ne h ..
theorem lock_of_ne (h : y ≠ x) : (l.lock x d).locks y = l.locks y := update_of_ne h ..
theorem unlock_of_ne (h : y ≠ x) : (l.unlock x).locks y = l.locks y := update_of_ne h ..

theorem le_take : l.refs y ≤ (l.take x).refs y := by
  by_cases h : y = x
  · subst h
    simp
  · rw [take_of_ne h]

theorem drop_take : (l.take x).drop x = l := by
  simp [take, drop]

theorem unlock_lock (h : l.locks x = none) : (l.lock x d).unlock x = l := by
  simp only [lock, unlock, update_idem]
  rw [← h, update_eq_self]

@[simp] theorem lock_lock : (l.lock x d).lock x d' = l.lock x d' := by
  simp [lock]

theorem lock_eq_self (h : l.locks x = some d) : l.lock x d = l := by
  rw [lock, ← h, update_eq_self]

theorem take_comm : (l.take x).take y = (l.take y).take x := by
  by_cases h : y = x
  · subst h
    rfl
  · simp [take, update_of_ne h, update_of_ne (Ne.symm h), update_comm h]

theorem drop_take_take : ((l.take x).take y).drop x = l.take y := by
  rw [take_comm, drop_take]

theorem take_lock : (l.lock x d).take y = (l.take y).lock x d := rfl
theorem drop_lock : (l.lock x d).drop y = (l.drop y).lock x d := rfl
theorem unlock_lock_of_ne (h : x ≠ y) : (l.lock x d).unlock y = (l.unlock y).lock x d := by
  simp [lock, unlock, update_comm h]

end Hold

/-! ### Counts -/

/-- The reference counts and the flags of inodes agree with what everybody has. -/
structure Refs {ι η : Type} [Fintype ι] (h : ι → Hold η) (base : η → ℕ) (lease : ι → η → Prop)
    (ref : η → ℕ) (flag : η → Bool) : Prop where
  count : ∀ x, ref x = base x + ∑ q, (h q).refs x
  busy : ∀ x, flag x = true ↔ ∃ q, (h q).locks x ≠ none
  one : ∀ q r x, (h q).locks x ≠ none → (h r).locks x ≠ none → q = r
  pin : ∀ q x, (h q).locks x ≠ none → 1 ≤ (h q).refs x ∨ lease q x
  lease : ∀ q x, lease q x → 1 ≤ base x

namespace Refs

variable {ι η : Type} [Fintype ι] {h : ι → Hold η} {base : η → ℕ} {lease : ι → η → Prop}
  {ref ref' : η → ℕ} {flag flag' : η → Bool} {p q : ι} {x : η} {l : Hold η}

section

variable (hR : Refs h base lease ref flag)

include hR

theorem le_ref (p : ι) (x : η) : base x + (h p).refs x ≤ ref x := by
  rw [hR.count x]
  exact Nat.add_le_add_left (Finset.single_le_sum (f := fun q => (h q).refs x)
    (fun _ _ => Nat.zero_le _) (Finset.mem_univ p)) _

theorem pos (hlock : (h p).locks x ≠ none) : 1 ≤ ref x := by
  have hle := hR.le_ref p x
  rcases hR.pin p x hlock with href | hlease
  · omega
  · have hbase := hR.lease p x hlease
    omega

theorem not_busy (hx : flag x = false) (q : ι) : (h q).locks x = none := by
  by_contra hlock
  have hbusy := (hR.busy x).mpr ⟨q, hlock⟩
  simp [hx] at hbusy

theorem only (hp : (h p).locks x ≠ none) (hqp : q ≠ p) : (h q).locks x = none := by
  by_contra hq
  exact hqp (hR.one q p x hq hp)

end

variable [DecidableEq ι]

section

variable (hR : Refs h base lease ref flag)

include hR

theorem two_le (hp : 1 ≤ (h p).refs x) (hqp : q ≠ p) (hlock : (h q).locks x ≠ none) :
    2 ≤ ref x := by
  have hsum := add_le_sum (fun l : Hold η => l.refs x) h hqp
  have hle := hR.le_ref p x
  rw [hR.count x] at hle ⊢
  rcases hR.pin q x hlock with href | hlease
  · omega
  · have hbase := hR.lease q x hlease
    omega

theorem set (hcount : ∀ x, ref' x + (h p).refs x = ref x + l.refs x)
    (hflag : ∀ x, flag' x = true ↔ l.locks x ≠ none ∨ ∃ q, q ≠ p ∧ (h q).locks x ≠ none)
    (hone : ∀ x, l.locks x ≠ none → ∀ q, q ≠ p → (h q).locks x = none)
    (hpin : ∀ x, l.locks x ≠ none → 1 ≤ l.refs x ∨ lease p x) :
    Refs (update h p l) base lease ref' flag' where
  count x := by
    have hsum := sum_update (fun l : Hold η => l.refs x) h p l
    have hold := hR.count x
    have hx := hcount x
    omega
  busy x := by
    rw [hflag x, exists_update (P := fun l : Hold η => l.locks x ≠ none)]
  one q r x hq hr := by
    by_cases hqp : q = p
    · by_cases hrp : r = p
      · rw [hqp, hrp]
      · subst hqp
        rw [update_self] at hq
        rw [update_of_ne hrp] at hr
        exact absurd (hone x hq r hrp) hr
    · by_cases hrp : r = p
      · subst hrp
        rw [update_self] at hr
        rw [update_of_ne hqp] at hq
        exact absurd (hone x hr q hqp) hq
      · rw [update_of_ne hqp] at hq
        rw [update_of_ne hrp] at hr
        exact hR.one q r x hq hr
  pin q x hq := by
    by_cases hqp : q = p
    · subst hqp
      rw [update_self] at hq ⊢
      exact hpin x hq
    · rw [update_of_ne hqp] at hq ⊢
      exact hR.pin q x hq
  lease := hR.lease

theorem flag_iff (hl : (l.locks x ≠ none) ↔ (h p).locks x ≠ none) :
    flag x = true ↔ l.locks x ≠ none ∨ ∃ q, q ≠ p ∧ (h q).locks x ≠ none := by
  rw [hR.busy x, hl]
  constructor
  · rintro ⟨q, hq⟩
    by_cases hqp : q = p
    · exact .inl (hqp ▸ hq)
    · exact .inr ⟨q, hqp, hq⟩
  · rintro (hp | ⟨q, -, hq⟩)
    · exact ⟨p, hp⟩
    · exact ⟨q, hq⟩

theorem count_set (hcount : ∀ x, ref' x + (h p).refs x = ref x + l.refs x)
    (hlocks : ∀ x, l.locks x ≠ none ↔ (h p).locks x ≠ none)
    (hpin : ∀ x, l.locks x ≠ none → 1 ≤ l.refs x ∨ lease p x) :
    Refs (update h p l) base lease ref' flag :=
  hR.set hcount (fun x => hR.flag_iff (hlocks x))
    (fun x hx _ hqp => hR.only ((hlocks x).mp hx) hqp) hpin

end

variable [DecidableEq η]

section

variable (hR : Refs h base lease ref flag)

include hR

theorem take (href : ref' = update ref x (ref x + 1)) :
    Refs (update h p ((h p).take x)) base lease ref' flag := by
  subst href
  refine hR.count_set (fun y => ?_) (fun y => Iff.rfl) fun y hy => ?_
  · by_cases hyx : y = x
    · subst hyx
      simp only [update_self, Hold.take_self]
      omega
    · rw [update_of_ne hyx, Hold.take_of_ne hyx]
  · exact (hR.pin p y hy).imp_left fun hle => hle.trans Hold.le_take

theorem drop (hp : 1 ≤ (h p).refs x) (hlock : (h p).locks x ≠ none → 2 ≤ (h p).refs x)
    (href : ref' = update ref x (ref x - 1)) :
    Refs (update h p ((h p).drop x)) base lease ref' flag := by
  subst href
  have hle := hR.le_ref p x
  refine hR.count_set (fun y => ?_) (fun y => Iff.rfl) fun y hy => ?_
  · by_cases hyx : y = x
    · subst hyx
      simp only [update_self, Hold.drop_self]
      omega
    · rw [update_of_ne hyx, Hold.drop_of_ne hyx]
  · by_cases hyx : y = x
    · subst hyx
      have htwo := hlock hy
      refine .inl ?_
      simp only [Hold.drop_self]
      omega
    · rw [Hold.drop_of_ne hyx]
      exact hR.pin p y hy

theorem lock (hx : flag x = false) (hpin : 1 ≤ (h p).refs x ∨ lease p x) {d : Bool}
    (hflag : flag' = update flag x true) :
    Refs (update h p ((h p).lock x d)) base lease ref flag' := by
  subst hflag
  refine hR.set (fun y => rfl) (fun y => ?_) (fun y hy q hqp => ?_) fun y hy => ?_
  · by_cases hyx : y = x
    · subst hyx
      simp
    · rw [update_of_ne hyx]
      exact hR.flag_iff (by rw [Hold.lock_of_ne hyx])
  · by_cases hyx : y = x
    · exact hyx ▸ hR.not_busy hx q
    · rw [Hold.lock_of_ne hyx] at hy
      exact hR.only hy hqp
  · by_cases hyx : y = x
    · exact hyx ▸ hpin
    · rw [Hold.lock_of_ne hyx] at hy
      exact hR.pin p y hy

theorem relock (hp : (h p).locks x ≠ none) {d : Bool} :
    Refs (update h p ((h p).lock x d)) base lease ref flag := by
  have hsame : ∀ y, ((h p).lock x d).locks y ≠ none ↔ (h p).locks y ≠ none := fun y => by
    by_cases hyx : y = x
    · subst hyx
      simp [hp]
    · rw [Hold.lock_of_ne hyx]
  exact hR.count_set (fun y => rfl) hsame fun y hy => hR.pin p y ((hsame y).mp hy)

theorem unlock (hp : (h p).locks x ≠ none) (hflag : flag' = update flag x false) :
    Refs (update h p ((h p).unlock x)) base lease ref flag' := by
  subst hflag
  refine hR.set (fun y => rfl) (fun y => ?_) (fun y hy q hqp => ?_) fun y hy => ?_
  · by_cases hyx : y = x
    · subst hyx
      simp only [update_self, Bool.false_eq_true, Hold.unlock_self, ne_eq,
        not_true_eq_false, false_or, false_iff, not_exists, not_and, not_not]
      exact fun q hqp => hR.only hp hqp
    · rw [update_of_ne hyx]
      exact hR.flag_iff (by rw [Hold.unlock_of_ne hyx])
  · by_cases hyx : y = x
    · subst hyx
      simp at hy
    · rw [Hold.unlock_of_ne hyx] at hy
      exact hR.only hy hqp
  · by_cases hyx : y = x
    · subst hyx
      simp at hy
    · rw [Hold.unlock_of_ne hyx] at hy
      exact hR.pin p y hy

end

end Refs

/-! ### Rules -/

/-- The panics that the calls cannot exclude, whatever is in the inodes. -/
def Tolerated (e : Panic) : Prop :=
  e ≠ .freeingFree ∧ e ≠ .ilock ∧ e ≠ .iunlock ∧ e ≠ .iputBusy ∧ e ≠ .filedup ∧ e ≠ .fileclose

instance (e : Panic) : Decidable (Tolerated e) :=
  inferInstanceAs (Decidable (_ ∧ _))

/-- What a process may ask for, and what it has then. `lease` are the inodes that it may use without
a reference of its own. -/
def inodeRules {η : Type} [DecidableEq η] (lease : η → Prop) : Spec (InodeOp η) InodeOp.Ret (Hold η)
  | .iget _, Q, l => ∀ x, Q x (l.take x)
  | .idup x, Q, l => (1 ≤ l.refs x ∨ lease x) ∧ Q () (l.take x)
  | .ilock x, Q, l => (1 ≤ l.refs x ∨ lease x) ∧ (l.locks x = none → Q () (l.lock x false))
  | .iunlock x, Q, l => l.locks x = some false ∧ Q () (l.unlock x)
  | .iput x, Q, l => 1 ≤ l.refs x ∧ (l.locks x ≠ none → 2 ≤ l.refs x) ∧ Q () (l.drop x)
  | .ialloc type, Q, l => type ≠ .free ∧ ∀ x, Q x (l.take x)
  | .iupdate x, Q, l => l.locks x ≠ none ∧ Q () (l.lock x false)
  | .inum _, Q, l => ∀ n, Q n l
  | .type _, Q, l => ∀ k, Q k l
  | .nlink _, Q, l => ∀ n, Q n l
  | .size _, Q, l => ∀ n, Q n l
  | .setNlink x _, Q, l => l.locks x ≠ none ∧ Q () (l.lock x true)
  | .setDev x _ _, Q, l => l.locks x ≠ none ∧ Q () (l.lock x true)
  | .readi x _ _, Q, l => l.locks x ≠ none ∧ ∀ r, Q r l
  | .writei x _ _, Q, l => l.locks x = some false ∧ ∀ r, Q r l
  | .panic e, _, _ => Tolerated e

/-- What is outside of the calls: the references that files and current directories have, and what
makes sure that they are there. -/
structure Ghost (ι η : Type) where
  /-- How many references there are. -/
  base : η → ℕ
  /-- The process has something that has a reference. -/
  lease : ι → η → Prop

/-- The contract of a step on inodes. -/
def contract {σ : Type} (ok : Panic → Prop) (guar : σ → σ → Prop) : Contract σ Panic :=
  ⟨ok, fun _ _ => True, guar⟩

section Implementation

variable {ι η σ X : Type} [Fintype ι] [DecidableEq ι] [DecidableEq η]

/-- What holds of inodes: their counts are exact, and what else the implementation needs, which
depends on locks but not on references. -/
def CacheInv (ref : σ → η → ℕ) (busy : σ → η → Bool)
    (Extra : (ι → (η → Option Bool) × X) → σ → Prop) (g : ι → Hold η × X) (x : σ × Ghost ι η) :
    Prop :=
  Refs (fun q => (g q).1) x.2.base x.2.lease (ref x.1) (busy x.1) ∧
    Extra (fun q => ((g q).1.locks, (g q).2)) x.1

variable (ι η σ X) in
/-- Inodes whose operations keep what they have to keep, for processes that follow the rules. -/
structure Implementation where
  code : (o : InodeOp η) → Prog σ Panic o.Ret
  ref : σ → η → ℕ
  busy : σ → η → Bool
  /-- What else holds, with the locks of the processes and what they are in the middle of. -/
  Extra : (ι → (η → Option Bool) × X) → σ → Prop
  idle : X
  /-- The panics that are not excluded. -/
  ok : Panic → Prop
  tolerated : ∀ e, Tolerated e → ok e
  guar : σ → σ → Prop
  guar_refl : ∀ s, guar s s
  rules : ∀ (lease : η → Prop) (p : ι) (o : InodeOp η) (Q : o.Ret → Hold η → Prop) (l : Hold η),
    inodeRules lease o Q l →
      Wp (fun g x => CacheInv ref busy Extra g x ∧ ∀ y, lease y → x.2.lease p y)
        (contract ok guar).onFst p (code o).onFst (fun r y => y.2 = idle ∧ Q r y.1) (l, idle)

end Implementation

end Xv6.Sysfile
