import Xv6.Fs.Holders

/-!
# Rules for the inode operations

What a process may ask for, given what it has of the inodes, and what it has then. The rules speak
about one process only: that others run at the same time is accounted for by the invariant, which
`inodes_rules` shows to be kept by every step of every operation.

An inode that a process has locked is known to it. When it locks one, all that it finds out is that
the inode is allocated and, if it is a directory, what it looks like. A directory entry may be
written only in one of four ways (`Enters`), and what is pending changes with it.

## Main definitions

* `Found`, `Enters`, `rules`

## Main results

* `inodes_rules` — each inode operation does what the rules say and keeps the invariant
-/

namespace Xv6.Fs.Tree

open Concurrent Function List Local

/-! ### The rules -/

/-- What a process finds in an inode that it locks. -/
structure Found (l : Local) (i : ℕ) (v : Ino) : Prop where
  unlocked : l.locks i = none
  type : v.type ≠ .free
  ne_zero : i ≠ 0 ∧ v.parent ≠ some 0
  pend : v.type = .dir → l.pend i = 0
  new : ∀ t, l.fresh = some (i, t) → v = .new t
  dir : ¬l.Fresh i → v.type = .dir → WfDir i v
  leaf : v.type ≠ .dir → v.entries = []

/-- The process may write entry `k` of directory `i`, which holds `v`; with what it has then. -/
inductive Enters (strict : Prop) (l : Local) (i : ℕ) (v : Ino) (k : ℕ) : Dirent → Local → Prop
  /-- "." and ".." of a directory that it has allocated. -/
  | dots {de : Dirent} (hfresh : l.fresh = some (i, .dir)) (hk : k = v.entries.length) (hlt : k < 2)
      (hdot : k = 0 → de = ⟨i, dot⟩)
      (hup : k = 1 → de.name = dotdot ∧ ¬l.Fresh de.inum ∧ 1 ≤ l.pend de.inum ∧
        ∃ w, l.locks de.inum = some w ∧ w.type = .dir) :
      Enters strict l i v k de (l.lock i { v with entries := putAt v.entries k de })
  /-- A new entry for an inode that is not a directory. -/
  | file {j : ℕ} {name : Name} (hdir : v.type = .dir) (hyoung : ¬l.Fresh i) (hk : 2 ≤ k)
      (hempty : ∀ e, v.entries[k]? = some e → e.inum = 0) (hj : j ≠ 0)
      (hname : name ≠ dot ∧ name ≠ dotdot) (hpend : 1 ≤ l.pend j) (hrefs : 1 ≤ l.refs j)
      (htype : ∀ w, l.locks j = some w → w.type ≠ .dir)
      (hfresh : ∀ x, l.Fresh x → x = j ∧ l.locks x ≠ none) :
      Enters strict l i v k ⟨j, name⟩ (((l.lock i { v with entries := putAt v.entries k ⟨j, name⟩
        }).setPend j (l.pend j - 1)).setFresh none)
  /-- A new entry for a directory that it has allocated. -/
  | subdir {j : ℕ} {name : Name} {w : Ino} (hdir : v.type = .dir) (hk : 2 ≤ k)
      (hempty : ∀ e, v.entries[k]? = some e → e.inum = 0) (hj : j ≠ 0) (hji : j ≠ i)
      (hname : name ≠ dot ∧ name ≠ dotdot) (hpend : 1 ≤ l.pend j) (hpend' : 1 ≤ l.pend i)
      (hfresh : l.fresh = some (j, .dir)) (hlock : l.locks j = some w) (hwf : WfDir j w)
      (hup : w.parent = some i) (hlinked : strict → v.nlink ≠ l.pend i) :
      Enters strict l i v k ⟨j, name⟩ ((((l.lock i { v with entries := putAt v.entries k ⟨j, name⟩
        }).setPend j (l.pend j - 1)).setPend i (l.pend i - 1)).setFresh none)
  /-- An entry is cleared, and the inode that it names is locked. -/
  | clear {e de : Dirent} {w : Ino} (hdir : v.type = .dir) (hyoung : ¬l.Fresh i) (hk : 2 ≤ k)
      (he : v.entries[k]? = some e) (hne : e.inum ≠ 0) (hde : de.inum = 0) (hji : e.inum ≠ i)
      (hlock : l.locks e.inum = some w) (hempty : w.type = .dir → w.ords = []) :
      Enters strict l i v k de (((l.lock i { v with entries := putAt v.entries k de
        }).setPend e.inum (l.pend e.inum + 1)).setPend i
          (l.pend i + if w.type = .dir then 1 else 0))

/-- **The rules.** A process is not freeing an inode when it asks for something. -/
def rules (strict : Prop) : Spec FsOp FsOp.Ret Local
  | .iget i, Q, l => l.dying = none ∧ (i = rootino ∨ ∃ d v e, l.locks d = some v ∧ ¬l.Fresh d ∧
      e ∈ v.entries ∧ e.inum = i ∧ i ≠ 0) ∧ Q () (l.take i)
  | .idup i, Q, l => l.dying = none ∧ 1 ≤ l.refs i ∧ Q () (l.take i)
  | .ilock i, Q, l => l.dying = none ∧ 1 ≤ l.refs i ∧ ∀ v, Found l i v → Q () (l.lock i v)
  | .iunlock i, Q, l => ∃ v, l.locks i = some v ∧ ¬l.Fresh i ∧ (v.type = .dir → l.pend i = 0) ∧
      Q () (l.unlock i)
  | .iput i, Q, l => l.dying = none ∧ 1 ≤ l.refs i ∧ (l.locks i ≠ none → 2 ≤ l.refs i) ∧
      ¬l.Fresh i ∧ Q () (l.drop i)
  | .ialloc t, Q, l => l.dying = none ∧ l.fresh = none ∧ t ≠ .free ∧
      ∀ i, i ≠ 0 → l.refs i = 0 → l.locks i = none → l.pend i = 0 →
        Q i ((l.setFresh (some (i, t))).take i)
  | .iupdate _, Q, l => Q () l
  | .type i, Q, l => ∃ v, l.locks i = some v ∧ Q v.type l
  | .nlink i, Q, l => ∃ v, l.locks i = some v ∧ Q v.nlink l
  | .size i, Q, l => ∃ v, l.locks i = some v ∧ Q (v.entries.length * direntSize) l
  | .setNlink i n, Q, l => l.dying = none ∧ ∃ v k, l.locks i = some v ∧
      n - v.nlink = (k : ℕ) - (l.pend i : ℤ) ∧
      ((strict → v.type = .dir → v.nlink = 0 → v.entries ≠ [] → n = 0) →
        Q () ((l.lock i { v with nlink := n }).setPend i k))
  | .setDev _ _ _, Q, l => Q () l
  | .readde i off, Q, l => ∃ v, l.locks i = some v ∧ Q v.entries[off / direntSize]? l
  | .writede i off de, Q, l => l.dying = none ∧ Q false l ∧ ∃ v l', l.locks i = some v ∧
      Enters strict l i v (off / direntSize) de l' ∧ Q true l'
  | .panic e, _, _ => e ≠ .noType

/-! ### Operations on the inode cache -/

section Operations

variable {ι : Type} [Fintype ι] {sb : Super} {strict : Prop} {p : ι} {l l' : Local} {i : ℕ}
  {g : ι → Local} {s s' : State}

theorem orderly_of_ino (h : s'.ino = s.ino) : Orderly s s' :=
  ⟨fun d q hq => .inl (by rwa [h]), fun d j hj _ => .inl (by rwa [h] at hj)⟩

theorem orderly_setIno {w : Ino}
    (hpar : ∀ q, (s.ino i).parent = some q → w.parent = some q ∨ w.type = .free)
    (hords : ∀ j ∈ w.ords, j ∈ (s.ino i).ords ∨
      (((s.setIno i w).ino j).type = .dir → ((s.setIno i w).ino j).parent = some i)) :
    Orderly s (s.setIno i w) := by
  refine ⟨fun d q hq => ?_, fun d j hj hdir => ?_⟩
  · by_cases hd : d = i
    · subst hd
      simpa only [State.setIno, update_self] using hpar q hq
    · left
      simpa only [State.setIno, update_of_ne hd] using hq
  · by_cases hd : d = i
    · subst hd
      simp only [State.setIno, update_self] at hj
      exact (hords j hj).imp_right fun h => h hdir
    · left
      simpa only [State.setIno, update_of_ne hd] using hj

theorem orderly_new {t : Kind} (hs : s'.ino = update s.ino i (.new t))
    (hpar : t = .free ∨ (s.ino i).entries = []) : Orderly s s' := by
  have hset : s'.ino = (s.setIno i (.new t)).ino := hs
  suffices horder : Orderly s (s.setIno i (.new t)) from
    ⟨by rw [hset]; exact horder.parent, by rw [hset]; exact horder.enters⟩
  refine orderly_setIno (fun q hq => ?_) fun j hj => by cases hj
  rcases hpar with rfl | hnil
  · exact .inr rfl
  · rw [Ino.parent, hnil] at hq
    cases hq

variable {v : Ino}

theorem WfDir.mem {e : Dirent} (h : WfDir i v) (he : e ∈ v.entries) (hne : e.inum ≠ 0) :
    e.inum = i ∨ v.parent = some e.inum ∨ e.inum ∈ v.ords := by
  obtain ⟨q, rest, hes, -⟩ := h
  rw [hes] at he
  rcases mem_cons.mp he with rfl | he
  · exact .inl rfl
  · rcases mem_cons.mp he with rfl | he
    · exact .inr (.inl (by simp [Ino.parent, hes]))
    · refine .inr (.inr ?_)
      rw [Ino.ords, hes]
      exact mem_filter.mpr ⟨mem_map_of_mem he, by simpa using hne⟩

/-- **What an entry of a locked directory names** is allocated, and nobody else has just done so. -/
theorem Inv.entry (h : Inv sb strict g s) (hd : (g p).dying = none) {d : ℕ} {e : Dirent}
    (hv : (g p).locks d = some v) (hyd : ¬(g p).Fresh d) (he : e ∈ v.entries) (hne : e.inum ≠ 0) :
    (s.ino e.inum).type ≠ .free ∧ ∀ q, q ≠ p → ¬(g q).Fresh e.inum := by
  obtain ⟨-, -, hino, htype, hrefs⟩ := (h.own p).lock d v hv
  obtain ⟨lost, htree⟩ := h.tree
  subst hino
  have hdir : (s.ino d).type = .dir := by
    by_contra hne'
    rw [htree.leaf d hne'] at he
    cases he
  have hyoung := h.not_young hd hrefs hyd
  rcases (htree.dir d hdir hyoung).mem he hne with heq | hpar | hord
  · rw [heq]
    exact ⟨htype, fun q hq => h.not_fresh hd hrefs hq⟩
  · exact ⟨htree.parent d _ hpar, fun q _ hf => (htree.young _ ⟨q, hf⟩).2.2.2 d hpar⟩
  · refine ⟨htree.type_ne_free hord, fun q _ hf => ?_⟩
    exact htree.notMem_ords (htree.young _ ⟨q, hf⟩).2.2.1 d hord

/-- **What a process finds in an inode.** -/
theorem Inv.found (h : Inv sb strict g s) (hd : (g p).dying = none) (hi : 1 ≤ (g p).refs i)
    (hbusy : s.busy i = false) : Found (g p) i (s.ino i) := by
  have hlock : (g p).locks i = none := by
    by_contra hne
    rw [(h.own p).busy (.inl hne)] at hbusy
    cases hbusy
  obtain ⟨lost, htree⟩ := h.tree
  have htype := (h.own p).type_ne_free hd hi
  refine ⟨hlock, htype, ⟨(htree.bound i htype).1, fun h0 => ?_⟩, fun hdir => ?_,
    fun t ht => ((h.own p).fresh i t ht).2.2 hlock,
    fun hf hdir => htree.dir i hdir (h.not_young hd hi hf), htree.leaf i⟩
  · exact (htree.bound 0 (htree.parent i 0 h0)).1 rfl
  · by_contra hne
    exact (h.own p).pend i (Nat.one_le_iff_ne_zero.mpr hne) hdir hlock

variable [DecidableEq ι] {Q : Unit → Local → Prop}

theorem iget_wp (hd : l.dying = none) (hi : ∀ g s, Inv sb strict g s → g p = l →
      (s.ino i).type ≠ .free ∧ ∀ q, q ≠ p → ¬(g q).Fresh i) (hQ : Q () (l.take i)) :
    Wp (Inv sb strict) (contract sb strict) p (iget sb i) Q l := by
  refine Wp.step (fun g s e _ _ he => ?_) fun g s b s' hI hg hs' _ => ?_
  · split_ifs at he <;> cases he
    exact nofun
  · subst hg
    obtain ⟨htype, hnf⟩ := hi g s hI rfl
    split_ifs at hs' with href <;> cases hs'
    · exact ⟨orderly_of_ino rfl, _, hI.take hd { ref := fun _ hj => update_of_ne hj .. } rfl rfl
        htype hnf (update_self ..) fun _ => ⟨rfl, rfl⟩, hQ⟩
    · have hzero : s.ref i = 0 := by omega
      refine ⟨orderly_of_ino rfl, _, hI.take hd ?_ rfl rfl htype hnf ?_ fun hne =>
        absurd hzero hne, hQ⟩
      · exact { ref := fun _ hj => update_of_ne hj .., busy := fun _ hj => update_of_ne hj ..,
                valid := fun _ hj => update_of_ne hj .. }
      · rw [hzero]
        exact update_self ..

theorem idup_wp (hd : l.dying = none) (hi : 1 ≤ l.refs i)
    (hQ : Q () (l.take i)) : Wp (Inv sb strict) (contract sb strict) p (idup i) Q l := by
  refine Wp.modify fun g s hI hg _ => ?_
  subst hg
  exact ⟨orderly_of_ino rfl, _, hI.take hd { ref := fun _ hj => update_of_ne hj .. } rfl rfl
    ((hI.own p).type_ne_free hd hi) (fun q hq => hI.not_fresh hd hi hq) (update_self ..)
    fun _ => ⟨rfl, rfl⟩, hQ⟩

theorem ilock_wp (hd : l.dying = none) (hi : 1 ≤ l.refs i)
    (hQ : ∀ v, Found l i v → Q () (l.lock i v)) :
    Wp (Inv sb strict) (contract sb strict) p (ilock i) Q l := by
  refine Wp.step (fun g s e hI hg he => ?_) fun g s b s' hI hg hs' _ => ?_
  · subst hg
    have htype := (hI.own p).type_ne_free hd hi
    split_ifs at he <;> cases he
    exact nofun
  · subst hg
    split_ifs at hs' with href hbusy hvalid htype <;> cases hs'
    all_goals
      have hfree : s.busy i = false := by simpa using hbusy
      refine ⟨orderly_of_ino rfl, _, hI.lock hd hi hfree ?_ rfl rfl rfl (update_self ..) ?_,
        hQ _ (hI.found hd hi hfree)⟩
    · exact { busy := fun _ hj => update_of_ne hj .. }
    · exact hvalid
    · exact { busy := fun _ hj => update_of_ne hj .., valid := fun _ hj => update_of_ne hj .. }
    · exact update_self ..

theorem iunlock_wp (hv : l.locks i = some v)
    (hf : ¬l.Fresh i) (hpend : v.type = .dir → l.pend i = 0) (hQ : Q () (l.unlock i)) :
    Wp (Inv sb strict) (contract sb strict) p (iunlock i) Q l := by
  refine Wp.step (fun g s e hI hg he => ?_) fun g s b s' hI hg hs' _ => ?_
  · split_ifs at he <;> cases he
    exact nofun
  · subst hg
    split_ifs at hs' <;> cases hs'
    exact ⟨orderly_of_ino rfl, _, hI.unlock hv hf hpend { busy := fun _ hj => update_of_ne hj .. }
      rfl rfl rfl rfl, hQ⟩

theorem iput_wp (hd : l.dying = none) (hi : 1 ≤ l.refs i)
    (hlock : l.locks i ≠ none → 2 ≤ l.refs i) (hf : ¬l.Fresh i) (hQ : Q () (l.drop i)) :
    Wp (Inv sb strict) (contract sb strict) p (iput i) Q l := by
  refine Wp.bind (Wp.step (fun g s e hI hg he => ?_) fun g s b s' hI hg hs' hrel => ?_)
  · split_ifs at he <;> cases he
    exact nofun
  · subst hg
    split_ifs at hs' with hlast hbusy <;> cases hs'
    · have hfree : s.busy i = false := by simpa using hbusy
      refine ⟨orderly_new rfl (.inl rfl), _, hI.discard hd hi hlast.1 hlast.2.2 hfree hf hrel, ?_⟩
      -- what is left to do: mark the inode as free on the disk, and drop the reference
      refine Wp.bind (Wp.modify fun g₁ s₁ hI₁ hg₁ _ => ⟨orderly_of_ino rfl, _,
        hI₁.markFree (by rw [hg₁]; rfl), ?_⟩)
      refine Wp.modify fun g₂ s₂ hI₂ hg₂ _ => ⟨orderly_of_ino rfl, _,
        hI₂.release (by rw [hg₂]; rfl), ?_⟩
      have hdone : ((g₂ p).drop i).setDying none = (g p).drop i := by
        rw [hg₂, hg₁]
        exact drop_setDying hd
      rwa [hdone]
    · refine ⟨orderly_of_ino rfl, _, hI.drop hd hi hlock fun hlast' => hlast ?_, hQ⟩
      exact ⟨hlast'.1, by simpa using hlast'.2.1, hlast'.2.2⟩

/-- **Allocation**: if there is a free inode, the process gets the first one, which nobody uses. -/
theorem iallocLoop_wp {Q : ℕ → Local → Prop} {t : Kind} {is : List ℕ} (hd : l.dying = none)
    (hfresh : l.fresh = none) (ht : t ≠ .free) (his : ∀ i ∈ is, i ≠ 0 ∧ i < sb.ninodes)
    (hQ : ∀ i, i ≠ 0 → l.refs i = 0 → l.locks i = none → l.pend i = 0 →
      Q i ((l.setFresh (some (i, t))).take i)) :
    Wp (Inv sb strict) (contract sb strict) p (iallocLoop sb t is) Q l := by
  induction is with
  | nil => exact Wp.panic nofun
  | cons i is ih =>
    refine Wp.bind (Wp.step (fun g s e hI hg he => ?_) fun g s b s' hI hg hs' _ => ?_)
    · split_ifs at he <;> cases he
    · subst hg
      split_ifs at hs' with hused <;> cases hs'
      · exact ⟨orderly_of_ino rfl, g p, by rwa [update_eq_self],
          ih fun j hj => his j (mem_cons_of_mem _ hj)⟩
      · have hu : s.used i = false := by simpa using hused
        have hi := his i mem_cons_self
        have hfree : (s.ino i).type = .free := by
          by_contra hne
          exact hused (hI.used i hne)
        obtain ⟨lost, htree⟩ := hI.tree
        have hrefs : (g p).refs i = 0 := by
          by_contra hne
          exact (hI.own p).type_ne_free hd (Nat.one_le_iff_ne_zero.mpr hne) hfree
        have hlock : (g p).locks i = none := by
          by_contra hne
          have := (hI.own p).refs_pos (.inl hne)
          omega
        have hpend := hI.pend_eq_zero (htree.free i hfree) p
        refine ⟨orderly_new rfl (.inr (htree.leaf i (by simp [hfree]))), _,
          hI.alloc hd hfresh hi ht hu, ?_⟩
        refine Wp.bind (iget_wp hd (fun g' s' hI' hg' => ?_) ?_)
        · have hf : (g' p).Fresh i := ⟨t, by rw [hg']; rfl⟩
          refine ⟨?_, fun q hq hf' => ((hI'.apart p q (Ne.symm hq)).fresh i hf).2 hf'⟩
          obtain ⟨lost', htree'⟩ := hI'.tree
          exact (htree'.young i ⟨p, hf⟩).1
        · exact hQ i hi.1 hrefs hlock hpend

/-! ### Operations on locked inodes -/

theorem read_wp {β : Type} {f : Ino → β} {Q : β → Local → Prop} (hv : l.locks i = some v)
    (hQ : Q (f v) l) :
    Wp (Inv sb strict) (contract sb strict) p (.read fun s => f (s.ino i)) Q l := by
  refine Wp.read (fun s => orderly_of_ino rfl) fun g s hI hg => ⟨l, ?_, ?_⟩
  · subst hg
    rwa [update_eq_self]
  · subst hg
    rwa [((hI.own p).lock i v hv).2.2.1]

/-- The number of links and what is pending for one process change by the same amount. -/
theorem tree_setNlink {m : ℤ} {n : ℕ} {ino : ℕ → Ino} {lost : ℕ → ℕ}
    (h : WfTree n strict ino (fun i => ∑ q, (g q).pend i) lost fun i => ∃ q, (g q).Fresh i)
    (ht : (ino i).type ≠ .free) (hne : ∀ x, x ≠ i → l'.pend x = (g p).pend x)
    (hfresh : l'.fresh = (g p).fresh) (hk : m - (ino i).nlink = l'.pend i - ((g p).pend i : ℤ))
    (hlast : ¬strict → (ino i).type = .dir → (ino i).nlink ≠ 0 → m = 0 →
      ∀ d, d ≠ i → (ino d).parent = some i → d ∈ (ino i).ords) :
    WfTree n strict (update ino i { ino i with nlink := m })
      (fun i => ∑ q, (update g p l' q).pend i) lost fun i => ∃ q, (update g p l' q).Fresh i := by
  have hsum := fun x => sum_update (fun l : Local => l.pend x) g p l'
  have hpend : (fun x => ∑ q, (update g p l' q).pend x) = update (fun x => ∑ q, (g q).pend x) i
        (∑ q, (update g p l' q).pend i) := by
    funext x
    by_cases hx : x = i
    · subst hx
      rw [update_self]
    · have hx' := hsum x
      have hnex := hne x hx
      rw [update_of_ne hx]
      omega
  have hself := hsum i
  rw [hpend, fresh_update hfresh]
  exact h.setNlink ht (by omega) hlast

variable {k : ℕ}

/-- **The number of links is set**, and what is pending changes as much. -/
theorem setNlink_wp {n : ℤ} (hd : l.dying = none)
    (hv : l.locks i = some v) (hk : n - v.nlink = (k : ℕ) - (l.pend i : ℤ))
    (hQ : (strict → v.type = .dir → v.nlink = 0 → v.entries ≠ [] → n = 0) →
      Q () ((l.lock i { v with nlink := n }).setPend i k)) :
    Wp (Inv sb strict) (contract sb strict) p (setNlink i n) Q l := by
  refine Wp.modify fun g s hI hg hrel => ?_
  subst hg
  obtain ⟨-, -, rfl, htype, -⟩ := (hI.own p).lock i v hv
  obtain ⟨lost, htree⟩ := hI.tree
  have hlt := (htree.bound i htype).2
  have hset : (s.setIno i { s.ino i with nlink := n }).ino i = { s.ino i with nlink := n } :=
    update_self ..
  refine ⟨orderly_setIno (fun q hq => .inl hq) fun j hj => .inl hj,
    ((g p).lock i { s.ino i with nlink := n }).setPend i k, hI.write hd hv rfl rfl rfl hd (.inl rfl)
      (fun ⟨t, ht⟩ => ((hI.own p).fresh i t ht).2.1) (fun j hj hdir => ?_)
      ⟨lost, tree_setNlink htree htype (fun x hx => ?_) rfl ?_ fun hs hdir hne h0 d hd hpar => ?_⟩,
    hQ fun hs hdir h0 hne => ?_⟩
  · by_cases hji : j = i
    · subst hji
      simp [hv]
    · rw [setPend_of_ne hji] at hj
      exact (hI.own p).pend j hj hdir
  · exact setPend_of_ne hx
  · rw [setPend_self]
    exact hk
  · exact hrel.1 hs i hlt ⟨hdir, hne, by rw [hset, h0]⟩ d (htree.lt_of_parent hpar) hd hpar
  · have hkeep := (hrel.2 hs).2.2 i hlt hdir h0 hne
    rwa [hset] at hkeep

theorem sum_pend_add {x n : ℕ} (h : l'.pend x + n = (g p).pend x) :
    ∑ q, (update g p l' q).pend x + n = ∑ q, (g q).pend x := by
  have hsum := sum_update (fun l : Local => l.pend x) g p l'
  omega

theorem sum_pend_eq {x n : ℕ} (h : l'.pend x = (g p).pend x + n) :
    ∑ q, (update g p l' q).pend x = ∑ q, (g q).pend x + n := by
  have hsum := sum_update (fun l : Local => l.pend x) g p l'
  omega

omit [Fintype ι] in
theorem fresh_linked {j : ℕ} (hl : l'.fresh = none) (hj : ∀ x, (g p).Fresh x → x = j)
    (hnf : ∀ q, q ≠ p → ¬(g q).Fresh j) (x : ℕ) :
    (∃ q, (update g p l' q).Fresh x) ↔ (∃ q, (g q).Fresh x) ∧ x ≠ j := by
  rw [exists_update (P := fun l : Local => l.Fresh x)]
  constructor
  · rintro (hf | ⟨q, hq, hf⟩)
    · exact absurd hf (not_fresh hl)
    · refine ⟨⟨q, hf⟩, ?_⟩
      rintro rfl
      exact hnf q hq hf
  · rintro ⟨⟨q, hf⟩, hx⟩
    refine .inr ⟨q, ?_, hf⟩
    rintro rfl
    exact hx (hj x hf)

variable {de : Dirent}

theorem orderly_put (hwf : WfDir i (s.ino i)) (hde : de.inum ≠ 0 → de.name ≠ dot ∧ de.name ≠ dotdot)
    (hup : de.inum ≠ 0 → (s.ino de.inum).type = .dir →
      de.inum ≠ i ∧ (s.ino de.inum).parent = some i) :
    Orderly s (s.setIno i { s.ino i with entries := putAt (s.ino i).entries (k + 2) de }) := by
  refine orderly_setIno (fun q hq => .inl (by rw [(hwf.put k de hde).2, hq])) fun j hj => ?_
  rw [ords_eq, drop_putAt hwf] at hj
  obtain ⟨⟨e, he, rfl⟩, hne⟩ :
      (∃ e ∈ putAt ((s.ino i).entries.drop 2) k de, e.inum = j) ∧ j ≠ 0 := by
    simpa [inums] using hj
  rcases mem_putAt he with he | rfl
  · left
    rw [ords_eq, inums, mem_filter, decide_eq_true_eq]
    exact ⟨mem_map_of_mem he, hne⟩
  · right
    intro hdir
    by_cases hei : e.inum = i
    · simp only [State.setIno, hei, update_self] at hdir
      exact absurd hei (hup hne (hei ▸ hdir)).1
    · simp only [State.setIno, update_of_ne hei] at hdir ⊢
      exact (hup hne hdir).2

theorem Inv.enter_dots (h : Inv sb strict g s) (hd : (g p).dying = none)
    (hv : (g p).locks i = some (s.ino i)) (hfresh : (g p).fresh = some (i, .dir))
    (hk : k = (s.ino i).entries.length) (hlt : k < 2) (hdot : k = 0 → de = ⟨i, dot⟩)
    (hup : k = 1 → de.name = dotdot ∧ ¬(g p).Fresh de.inum ∧ 1 ≤ (g p).pend de.inum ∧
      ∃ w, (g p).locks de.inum = some w ∧ w.type = .dir) :
    Orderly s (s.setIno i { s.ino i with entries := putAt (s.ino i).entries k de }) ∧
      Inv sb strict (update g p
        ((g p).lock i { s.ino i with entries := putAt (s.ino i).entries k de }))
        (s.setIno i { s.ino i with entries := putAt (s.ino i).entries k de }) := by
  have hput : putAt (s.ino i).entries k de = (s.ino i).entries ++ [de] := by
    rw [putAt, if_neg (by omega)]
  obtain ⟨lost, htree⟩ := h.tree
  have hdir : (s.ino i).type = .dir := ((h.own p).fresh i .dir hfresh).1
  rw [hput]
  refine ⟨orderly_setIno (fun q hq => ?_) fun j hj => ?_, h.write hd hv rfl rfl rfl hd (.inl rfl)
    (fun _ => ⟨fun e he => ?_, fun e he => ?_⟩) (h.own p).pend ⟨lost, tree_update rfl rfl ?_⟩⟩
  · rw [Ino.parent, List.getElem?_eq_none (by omega)] at hq
    cases hq
  · rw [Ino.ords, drop_eq_nil_of_le (by rw [length_append, length_singleton]; omega)]
      at hj
    cases hj
  · by_cases h0 : k = 0
    · rw [List.getElem?_append_right (by omega), ← hk, h0] at he
      obtain rfl : de = e := by simpa using he
      exact hdot h0
    · rw [List.getElem?_append_left (by omega)] at he
      exact ((h.own p).fresh i .dir hfresh).2.1.1 e he
  · have hk1 : k = 1 := by
      by_contra hne
      rw [List.getElem?_eq_none (by rw [length_append, length_singleton]; omega)] at he
      cases he
    rw [List.getElem?_append_right (by omega), ← hk, hk1] at he
    obtain rfl : de = e := by simpa using he
    exact (hup hk1).1
  · refine htree.dots ⟨p, .dir, hfresh⟩ hdir ?_ fun q hq => ?_
    · rw [drop_eq_nil_iff, length_append, length_singleton]
      omega
    · have hk1 : k = 1 := by
        by_contra hne
        rw [List.getElem?_eq_none (by rw [length_append, length_singleton]; omega)] at hq
        cases hq
      have hq' : de.inum = q := by
        rw [List.getElem?_append_right (by omega), show 1 - (s.ino i).entries.length = 0 by omega]
          at hq
        simpa using hq
      obtain ⟨-, hnf, hpend, w, hlock, hw⟩ := hup hk1
      obtain ⟨-, -, hino, -, hrefs⟩ := (h.own p).lock _ w hlock
      rw [← hq']
      refine ⟨hino ▸ hw, fun h0 => ?_, h.not_young hd hrefs hnf⟩
      have := h.pend_eq_zero h0 p
      omega

omit [Fintype ι] in
theorem tree_fresh {n : ℕ} {ino : ℕ → Ino} {pend lost : ℕ → ℕ} (hfresh : l'.fresh = (g p).fresh)
    (h : WfTree n strict ino pend lost fun i => ∃ q, (g q).Fresh i) :
    WfTree n strict ino pend lost fun i => ∃ q, (update g p l' q).Fresh i := by
  rwa [fresh_update hfresh]

omit [DecidableEq ι] in
theorem Inv.sum_pend (h : Inv sb strict g s) (hv : (g p).locks i = some (s.ino i))
    (hdir : (s.ino i).type = .dir) : ∑ q, (g q).pend i = (g p).pend i := by
  refine Finset.sum_eq_single p (fun q _ hq => ?_) fun hp => absurd (Finset.mem_univ p) hp
  by_contra hne
  have hlock := (h.own q).pend i (Nat.one_le_iff_ne_zero.mpr hne) hdir
  exact (h.apart q p hq).holds i (.inl hlock) (.inl (by simp [hv]))

omit [Fintype ι] [DecidableEq ι] in
theorem pend_setPend {n : ℕ} (x : ℕ) : (l.setPend i n).pend x = if x = i then n else l.pend x := by
  split_ifs with h
  · rw [h, setPend_self]
  · exact setPend_of_ne h

omit [Fintype ι] [DecidableEq ι] in
theorem Own.pend_locked (h : Own s l) {w : Ino} {j m n : ℕ} (hi : l.locks i = some v)
    (hj : l.locks j = some w) (x : ℕ) (hx : 1 ≤ ((l.setPend j m).setPend i n).pend x)
    (hdir : (s.ino x).type = .dir) : l.locks x ≠ none := by
  rw [pend_setPend, pend_setPend] at hx
  split_ifs at hx with hxi hxj
  · simp [hxi, hi]
  · simp [hxj, hj]
  · exact h.pend x hx hdir

/-- **A directory entry is written.** -/
theorem Inv.enter (h : Inv sb strict g s) (hd : (g p).dying = none)
    (hv : (g p).locks i = some v) (he : Enters strict (g p) i v k de l') :
    Orderly s (s.setIno i { s.ino i with entries := putAt (s.ino i).entries k de }) ∧
      Inv sb strict (update g p l')
        (s.setIno i { s.ino i with entries := putAt (s.ino i).entries k de }) := by
  obtain ⟨-, -, rfl, -, hrefsi⟩ := (h.own p).lock i v hv
  obtain ⟨lost, htree⟩ := h.tree
  cases he with
  | dots hfresh hk hlt hdot hup => exact h.enter_dots hd hv hfresh hk hlt hdot hup
  | @file j name hdir hyoung hk hempty hj hname hpend hrefs htype hfresh =>
    obtain ⟨k, rfl⟩ : ∃ k', k = k' + 2 := ⟨k - 2, by omega⟩
    have hyoung' := h.not_young hd hrefsi hyoung
    have hwf := htree.dir i hdir hyoung'
    have hput := hwf.put k ⟨j, name⟩ fun _ => hname
    have hleaf : (s.ino j).type ≠ .dir := fun hjdir => by
      obtain ⟨w, hw⟩ := Option.ne_none_iff_exists'.mp ((h.own p).pend j hpend hjdir)
      obtain ⟨-, -, hino, -, -⟩ := (h.own p).lock j w hw
      exact htype w hw (hino ▸ hjdir)
    refine ⟨orderly_put hwf (fun _ => hname) fun _ hjdir => absurd hjdir hleaf,
      h.write hd hv rfl rfl rfl hd (.inr ⟨rfl, fun x hx => (hfresh x hx).2⟩)
        (fun hf => absurd hf (Local.not_fresh rfl)) (fun x hx hxdir => ?_)
        ⟨lost, htree.insert hdir hyoung' hdir rfl hput.1 hput.2 (ords_insert hwf hempty hj)
          (fun hjdir => absurd hjdir hleaf) (fun _ hjdir => absurd hjdir hleaf) (fun x => ?_)
          (fresh_linked rfl (fun x hx => (hfresh x hx).1) fun q hq => h.not_fresh hd hrefs hq)⟩⟩
    · refine (h.own p).pend x (hx.trans ?_) hxdir
      rw [setFresh_pend, pend_setPend, lock_pend]
      grind
    · rw [Nat.add_assoc]
      refine sum_pend_add ?_
      rw [setFresh_pend, pend_setPend, lock_pend]
      grind
  | @subdir j name w hdir hk hempty hj hji hname hpend hpend' hfresh hlock hwf hup hlinked =>
    obtain ⟨k, rfl⟩ : ∃ k', k = k' + 2 := ⟨k - 2, by omega⟩
    obtain ⟨-, -, rfl, -, hrefs⟩ := (h.own p).lock j _ hlock
    have hone : ∀ x, (g p).Fresh x → x = j := by
      rintro x ⟨t, ht⟩
      rw [hfresh] at ht
      exact (Prod.mk.inj (Option.some.inj ht)).1.symm
    have hyoung := h.not_young hd hrefsi fun hf => hji (hone i hf).symm
    have hwfi := htree.dir i hdir hyoung
    have hput := hwfi.put k ⟨j, name⟩ fun _ => hname
    have hjdir : (s.ino j).type = .dir := ((h.own p).fresh j .dir hfresh).1
    refine ⟨orderly_put hwfi (fun _ => hname) fun _ _ => ⟨hji, hup⟩,
      h.write hd hv rfl rfl rfl hd (.inr ⟨rfl, fun x hx => by simp [hone x hx, hlock]⟩)
        (fun hf => absurd hf (Local.not_fresh rfl)) ((h.own p).pend_locked hv hlock)
        ⟨lost, htree.insert hdir hyoung hdir rfl hput.1 hput.2 (ords_insert hwfi hempty hj)
          (fun _ => ⟨⟨p, .dir, hfresh⟩, hup, hwf⟩) (fun hs _ hroot h0 => ?_) (fun x => ?_)
          (fresh_linked rfl hone fun q hq => h.not_fresh hd hrefs hq)⟩⟩
    · -- without a name, the directory's links would all be pending
      have hc := htree.count i
      rw [h0, htree.empty hs i hdir hroot h0, if_neg hroot, htree.exact hs i, h.sum_pend hv hdir]
        at hc
      exact hlinked hs (by simpa using hc)
    · rw [Nat.add_assoc]
      refine sum_pend_add ?_
      rw [setFresh_pend, pend_setPend, pend_setPend, lock_pend]
      grind
  | @clear e de w hdir hyoung hk he hne hde hji hlock hempty =>
    obtain ⟨k, rfl⟩ : ∃ k', k = k' + 2 := ⟨k - 2, by omega⟩
    obtain ⟨-, -, rfl, -, hrefs⟩ := (h.own p).lock e.inum _ hlock
    have hyoung' := h.not_young hd hrefsi hyoung
    have hwf := htree.dir i hdir hyoung'
    have hput := hwf.put k de fun hne' => absurd hde hne'
    refine ⟨orderly_put hwf (absurd hde) (absurd hde), h.write hd hv rfl rfl rfl hd (.inl rfl)
      (fun hf => absurd hf hyoung) ((h.own p).pend_locked hv hlock)
      ⟨lost, tree_fresh rfl (htree.remove hdir hyoung' hdir rfl hput.1 hput.2
        (ords_remove hwf he hne hde) (fun _ hjdir => ?_) fun x => ?_)⟩⟩
    · rw [subdirs, hempty hjdir]
      rfl
    · rw [Nat.add_assoc]
      refine sum_pend_eq ?_
      rw [pend_setPend, pend_setPend, lock_pend]
      grind

theorem writede_wp {Q : Bool → Local → Prop} {off : ℕ}
    (hd : l.dying = none) (hfalse : Q false l) (hv : l.locks i = some v)
    (he : Enters strict l i v (off / direntSize) de l') (htrue : Q true l') :
    Wp (Inv sb strict) (contract sb strict) p (writede i off de) Q l := by
  refine Wp.step (fun g s e hI hg he => ?_) fun g s b s' hI hg hs' _ => ?_
  · dsimp only at he
    split_ifs at he <;> cases he
  · subst hg
    dsimp only at hs'
    split_ifs at hs' <;> cases hs'
    · exact ⟨orderly_of_ino rfl, g p, by rwa [update_eq_self], hfalse⟩
    · obtain ⟨hkeep, hI'⟩ := hI.enter hd hv he
      exact ⟨hkeep, l', hI', htrue⟩

/-- **The inode operations** do what the rules say and keep the invariant. -/
theorem inodes_rules (o : FsOp) (Q : o.Ret → Local → Prop) (l : Local) (h : rules strict o Q l) :
    Wp (Inv sb strict) (contract sb strict) p (inodes sb o) Q l := by
  match o, Q, h with
  | .iget i, Q, ⟨hd, hi, hQ⟩ =>
    refine iget_wp hd (fun g s hI hg => ?_) hQ
    subst hg
    rcases hi with rfl | ⟨d, v, e, hv, hf, he, rfl, hne⟩
    · obtain ⟨lost, htree⟩ := hI.tree
      exact ⟨by simp [htree.root.1], fun q _ hq => htree.root.2.2 ⟨q, hq⟩⟩
    · exact hI.entry hd hv hf he hne
  | .idup i, Q, ⟨hd, hi, hQ⟩ => exact idup_wp hd hi hQ
  | .ilock i, Q, ⟨hd, hi, hQ⟩ => exact ilock_wp hd hi hQ
  | .iunlock i, Q, ⟨v, hv, hf, hpend, hQ⟩ => exact iunlock_wp hv hf hpend hQ
  | .iput i, Q, ⟨hd, hi, hlock, hf, hQ⟩ => exact iput_wp hd hi hlock hf hQ
  | .ialloc t, Q, ⟨hd, hfresh, ht, hQ⟩ =>
    refine iallocLoop_wp hd hfresh ht (fun i hi => ?_) hQ
    obtain ⟨j, hj, rfl⟩ := mem_map.mp hi
    have hlt := mem_range.mp hj
    omega
  | .iupdate _, Q, hQ => exact hQ
  | .type i, Q, ⟨v, hv, hQ⟩ => exact read_wp (f := Ino.type) hv hQ
  | .nlink i, Q, ⟨v, hv, hQ⟩ => exact read_wp (f := Ino.nlink) hv hQ
  | .size i, Q, ⟨v, hv, hQ⟩ =>
    exact read_wp (f := fun v => v.entries.length * direntSize) hv hQ
  | .setNlink i n, Q, ⟨hd, v, k, hv, hk, hQ⟩ => exact setNlink_wp hd hv hk hQ
  | .setDev _ _ _, Q, hQ => exact hQ
  | .readde i off, Q, ⟨v, hv, hQ⟩ =>
    exact read_wp (f := fun v => v.entries[off / direntSize]?) hv hQ
  | .writede i off de, Q, ⟨hd, hfalse, v, l', hv, he, htrue⟩ =>
    exact writede_wp hd hfalse hv he htrue
  | .panic e, Q, he => exact Wp.panic he

end Operations

end Xv6.Fs.Tree
