import Xv6.Fs.Tree

/-!
# Link counts

How the number of links of each inode is made up: one for each ordinary entry that names it, one for
each of its own ordinary entries that names a directory (whose ".." names it back), one for the
root, and those that a system call in progress has counted and not entered yet, or removed and not
discounted yet. Entries of a directory that was freed with entries in it are *lost*: they are still
counted.

`WfTree` says this of all inodes, with what else holds of directories. In its *strict* form no entry
has been lost, and directories without links have no subdirectories. The lemmas here say how each
change of a single inode keeps it; which process makes the change plays no part. When it is not
strict, the directories that ".." names have links, as long as none loses its last one too early
(`kept`).

## Main results

* `WfTree.setNlink`, `WfTree.alloc`, `WfTree.discard`, `WfTree.dots`, `WfTree.insert`,
  `WfTree.remove`
-/

namespace Xv6.Fs.Tree

open Function List Ino

/-! ### Entries -/

/-- The inode numbers of the entries that are not empty. -/
def inums (es : List Dirent) : List ℕ := (es.map Dirent.inum).filter (· ≠ 0)

theorem putAt_cons (e : Dirent) (es : List Dirent) (k : ℕ) (de : Dirent) :
    putAt (e :: es) (k + 1) de = e :: putAt es k de := by
  simp only [putAt, length_cons, Nat.add_lt_add_iff_right, set_cons_succ, cons_append]
  split_ifs <;> rfl

variable {es : List Dirent} {e de : Dirent} {i j k : ℕ}

theorem mem_putAt (h : e ∈ putAt es k de) : e ∈ es ∨ e = de := by
  rw [putAt] at h
  split_ifs at h
  · exact mem_or_eq_of_mem_set h
  · simpa using h

theorem inums_cons (e : Dirent) (es : List Dirent) :
    inums (e :: es) = if e.inum = 0 then inums es else e.inum :: inums es := by
  simp only [inums, map_cons, filter_cons]
  by_cases h : e.inum = 0 <;> simp [h]

theorem inums_putAt_insert {name : Name} (h : ∀ e, es[k]? = some e → e.inum = 0) (hj : j ≠ 0) :
    (inums (putAt es k ⟨j, name⟩)).Perm (j :: inums es) := by
  induction es generalizing k with
  | nil => simp [putAt, inums, hj]
  | cons e es ih =>
    cases k with
    | zero =>
      have he : e.inum = 0 := h e rfl
      have hput : putAt (e :: es) 0 ⟨j, name⟩ = ⟨j, name⟩ :: es := by simp [putAt]
      rw [hput, inums_cons, inums_cons, if_neg hj, if_pos he]
    | succ k =>
      have ih := ih (k := k) fun e' he' => h e' (by simpa using he')
      rw [putAt_cons, inums_cons, inums_cons]
      split_ifs with he
      · exact ih
      · exact (ih.cons e.inum).trans (.swap j e.inum _)

theorem inums_putAt_remove (h : es[k]? = some e) (he : e.inum ≠ 0) (hde : de.inum = 0) :
    (e.inum :: inums (putAt es k de)).Perm (inums es) := by
  obtain ⟨hk, rfl⟩ := List.getElem?_eq_some_iff.mp h
  have hput : putAt es k de = es.set k de := if_pos hk
  have hback : putAt (es.set k de) k es[k] = es := by
    rw [putAt, if_pos (by rwa [length_set]), set_set, set_getElem_self]
  have hins : (inums (putAt (es.set k de) k es[k])).Perm (es[k].inum :: inums (es.set k de)) :=
    inums_putAt_insert (fun e' he' => by simp_all) he
  rw [hput]
  exact (hback ▸ hins).symm

/-- A directory that is in the tree: "." and ".." come first, and nothing else has these names. -/
def WfDir (i : ℕ) (v : Ino) : Prop :=
  ∃ q rest, v.entries = ⟨i, dot⟩ :: ⟨q, dotdot⟩ :: rest ∧
    ∀ e ∈ rest, e.inum ≠ 0 → e.name ≠ dot ∧ e.name ≠ dotdot

variable {v : Ino}

theorem WfDir.put (h : WfDir i v) (k : ℕ) (de : Dirent)
    (hde : de.inum ≠ 0 → de.name ≠ dot ∧ de.name ≠ dotdot) :
    WfDir i { v with entries := putAt v.entries (k + 2) de } ∧
      parent { v with entries := putAt v.entries (k + 2) de } = v.parent := by
  obtain ⟨q, rest, hes, hnames⟩ := h
  simp only [WfDir, parent]
  rw [hes, putAt_cons, putAt_cons]
  refine ⟨⟨q, putAt rest k de, rfl, fun e he hne => ?_⟩, rfl⟩
  rcases mem_putAt he with he | rfl
  · exact hnames e he hne
  · exact hde hne

theorem ords_eq (v : Ino) : v.ords = inums (v.entries.drop 2) := rfl

theorem drop_putAt (h : WfDir i v) (de : Dirent) :
    (putAt v.entries (k + 2) de).drop 2 = putAt (v.entries.drop 2) k de := by
  obtain ⟨q, rest, hes, -⟩ := h
  rw [hes, putAt_cons, putAt_cons]
  rfl

theorem ords_insert {name : Name} (h : WfDir i v)
    (hempty : ∀ e, v.entries[k + 2]? = some e → e.inum = 0) (hj : j ≠ 0) :
    (ords { v with entries := putAt v.entries (k + 2) ⟨j, name⟩ }).Perm (j :: v.ords) := by
  rw [ords_eq, ords_eq, drop_putAt h]
  refine inums_putAt_insert (fun e he => hempty e ?_) hj
  rwa [List.getElem?_drop, Nat.add_comm] at he

theorem ords_remove (h : WfDir i v) (he : v.entries[k + 2]? = some e) (hne : e.inum ≠ 0)
    (hde : de.inum = 0) :
    (e.inum :: ords { v with entries := putAt v.entries (k + 2) de }).Perm v.ords := by
  rw [ords_eq, ords_eq, drop_putAt h]
  refine inums_putAt_remove ?_ hne hde
  rwa [List.getElem?_drop, Nat.add_comm]

/-! ### Counting -/

variable {n : ℕ} {ino : ℕ → Ino} {v : Ino} {i d : ℕ}

theorem apply_update (ino : ℕ → Ino) (d : ℕ) (v : Ino) {γ : Type} (f : Ino → γ)
    (hf : f v = f (ino d)) (x : ℕ) : f (update ino d v x) = f (ino x) := by
  by_cases hx : x = d
  · subst hx
    rw [update_self, hf]
  · rw [update_of_ne hx]

theorem links_update (ino : ℕ → Ino) (hd : d < n) (v : Ino) (i : ℕ) :
    links n (update ino d v) i + (ino d).ords.count i = links n ino i + v.ords.count i := by
  have hmem : d ∈ Finset.range n := Finset.mem_range.mpr hd
  rw [links, links, ← Finset.add_sum_erase _ _ hmem, ← Finset.add_sum_erase _ _ hmem, update_self]
  have hrest : ∑ x ∈ (Finset.range n).erase d, (update ino d v x).ords.count i =
      ∑ x ∈ (Finset.range n).erase d, (ino x).ords.count i :=
    Finset.sum_congr rfl fun x hx => by
      rw [update_of_ne (Finset.ne_of_mem_erase hx)]
  rw [hrest]
  omega

theorem links_update_cons (ino : ℕ → Ino) (hd : d < n) (hperm : v.ords.Perm (j :: (ino d).ords))
    (x : ℕ) :
    links n (update ino d v) x = links n ino x + if x = j then 1 else 0 := by
  have hx := links_update ino hd v x
  rw [hperm.count_eq, count_cons] at hx
  simp only [beq_iff_eq, eq_comm (a := j)] at hx
  omega

theorem links_pos (hd : d < n) (h : i ∈ (ino d).ords) : 0 < links n ino i := by
  have hle : (ino d).ords.count i ≤ links n ino i :=
    Finset.single_le_sum (f := fun x => (ino x).ords.count i) (fun _ _ => Nat.zero_le _)
      (Finset.mem_range.mpr hd)
  exact lt_of_lt_of_le (count_pos_iff.mpr h) hle

theorem links_congr {ino' : ℕ → Ino} (h : ∀ x, (ino' x).entries = (ino x).entries) (i : ℕ) :
    links n ino' i = links n ino i :=
  Finset.sum_congr rfl fun x _ => by rw [ords, ords, h]

theorem subdirs_congr {ino' : ℕ → Ino} (h : (ino' i).ords = (ino i).ords)
    (ht : ∀ x ∈ (ino i).ords, (ino' x).type = .dir ↔ (ino x).type = .dir) :
    subdirs ino' i = subdirs ino i := by
  rw [subdirs, subdirs, h]
  exact countP_congr fun x hx => by simpa using ht x hx

theorem subdirs_update_of_ne (hi : i ≠ d)
    (ht : d ∈ (ino i).ords → (v.type = .dir ↔ (ino d).type = .dir)) :
    subdirs (update ino d v) i = subdirs ino i := by
  refine subdirs_congr (by rw [update_of_ne hi]) fun x hx => ?_
  by_cases hxd : x = d
  · subst hxd
    rw [update_self]
    exact ht hx
  · rw [update_of_ne hxd]

theorem subdirs_update_cons (ino : ℕ → Ino) (htype : v.type = (ino d).type)
    (hperm : v.ords.Perm (j :: (ino d).ords)) (x : ℕ) : subdirs (update ino d v) x =
      subdirs ino x + if x = d ∧ (ino j).type = .dir then 1 else 0 := by
  by_cases hx : x = d
  · subst hx
    rw [subdirs, update_self, hperm.countP_eq, countP_cons, subdirs]
    simp only [apply_update ino x v type htype, decide_eq_true_eq, true_and]
  · rw [if_neg fun hc => hx hc.1]
    exact subdirs_update_of_ne hx fun _ => by rw [htype]

/-! ### The tree -/

/-- What holds of the inodes of a file system with `n` inodes: the number of links of each is made
up of entries and of what is pending or lost, and directories are as they should be. Inodes that are
*young* have been allocated and are not in the tree yet. -/
structure WfTree (n : ℕ) (strict : Prop) (ino : ℕ → Ino) (pend lost : ℕ → ℕ) (young : ℕ → Prop) :
    Prop where
  bound : ∀ i, (ino i).type ≠ .free → i ≠ 0 ∧ i < n
  count : ∀ i, (ino i).nlink = (links n ino i + subdirs ino i + (if i = rootino then 1 else 0)
    + pend i + lost i : ℕ)
  free : ∀ i, (ino i).type = .free → (ino i).nlink = 0
  leaf : ∀ i, (ino i).type ≠ .dir → (ino i).entries = []
  dir : ∀ i, (ino i).type = .dir → ¬young i → WfDir i (ino i)
  parent : ∀ i q, (ino i).parent = some q → (ino q).type ≠ .free
  root : (ino rootino).type = .dir ∧ (ino rootino).parent = some rootino ∧ ¬young rootino
  young : ∀ i, young i → (ino i).type ≠ .free ∧ (ino i).ords = [] ∧ links n ino i = 0 ∧
    ∀ d, (ino d).parent ≠ some i
  exact : strict → ∀ i, lost i = 0
  up : strict → ∀ d i, i ∈ (ino d).ords → (ino i).type = .dir → (ino i).parent = some d
  once : strict → ∀ i, (ino i).type = .dir → links n ino i ≤ 1
  empty : strict → ∀ i, (ino i).type = .dir → i ≠ rootino → links n ino i = 0 → subdirs ino i = 0
  /-- The ".." of a directory names a directory that has links, also when the directory has none. -/
  kept : ¬strict → ∀ d q, (ino d).parent = some q → d ≠ q →
    (ino q).type = .dir ∧ (ino q).nlink ≠ 0

namespace WfTree

variable {strict : Prop} {pend lost pend' : ℕ → ℕ} {young young' : ℕ → Prop} {j : ℕ}
  (h : WfTree n strict ino pend lost young)

include h

theorem of_nlink_eq_zero (hi : (ino i).nlink = 0) :
    links n ino i = 0 ∧ subdirs ino i = 0 ∧ i ≠ rootino ∧ pend i = 0 ∧ lost i = 0 := by
  have hc := h.count i
  rw [hi] at hc
  have hc' : links n ino i + subdirs ino i + (if i = rootino then 1 else 0) + pend i + lost i = 0 :=
    by exact_mod_cast hc.symm
  refine ⟨by omega, by omega, ?_, by omega, by omega⟩
  rintro rfl
  simp at hc'

theorem lt_of_mem_ords (hi : i ∈ (ino d).ords) : d < n := by
  by_contra hd
  have hleaf := h.leaf d fun hdir => hd (h.bound d (by simp [hdir])).2
  simp [ords, hleaf] at hi

theorem notMem_ords (hi : links n ino i = 0) (d : ℕ) : i ∉ (ino d).ords := fun hmem =>
  (links_pos (h.lt_of_mem_ords hmem) hmem).ne' hi

theorem type_ne_free (hi : i ∈ (ino d).ords) : (ino i).type ≠ .free := fun hfree =>
  h.notMem_ords (h.of_nlink_eq_zero (h.free i hfree)).1 d hi

theorem lt_of_parent {q : ℕ} (hd : (ino d).parent = some q) : d < n := by
  by_contra hlt
  have hleaf := h.leaf d fun hdir => hlt (h.bound d (by simp [hdir])).2
  simp [Ino.parent, hleaf] at hd

theorem subdirs_pos {q : ℕ} (hd : d ∈ (ino q).ords) (hpar : (ino d).parent ≠ none) :
    0 < subdirs ino q := by
  refine countP_pos_iff.mpr ⟨d, hd, ?_⟩
  by_contra hdir
  exact hpar (by rw [Ino.parent, h.leaf d (by simpa using hdir)]; rfl)

/-- **The number of links changes together with what is pending.** The last link of a directory goes
only when no other one has it as its parent, apart from those in it. -/
theorem setNlink {m : ℤ} (ht : (ino i).type ≠ .free) (hk : m - (ino i).nlink = k - (pend i : ℤ))
    (hlast : ¬strict → (ino i).type = .dir → (ino i).nlink ≠ 0 → m = 0 →
      ∀ d, d ≠ i → (ino d).parent = some i → d ∈ (ino i).ords) :
    WfTree n strict (update ino i { ino i with nlink := m }) (update pend i k) lost young := by
  have htype := apply_update ino i { ino i with nlink := m } type rfl
  have hes := apply_update ino i { ino i with nlink := m } entries rfl
  have hords : ∀ x, (update ino i { ino i with nlink := m } x).ords = (ino x).ords :=
    fun x => by rw [ords, ords, hes]
  have hpar : ∀ x, (update ino i { ino i with nlink := m } x).parent = (ino x).parent :=
    fun x => by rw [Ino.parent, Ino.parent, hes]
  have hlinks := links_congr (n := n) hes
  have hsub : ∀ x, subdirs (update ino i { ino i with nlink := m }) x = subdirs ino x :=
    fun x => subdirs_congr (hords x) fun y _ => by rw [htype]
  have hcount : ∀ x, (update ino i { ino i with nlink := m } x).nlink =
      (links n (update ino i { ino i with nlink := m }) x
        + subdirs (update ino i { ino i with nlink := m }) x + (if x = rootino then 1 else 0)
        + update pend i k x + lost x : ℕ) := fun x => by
    rw [hlinks, hsub]
    by_cases hx : x = i
    · subst hx
      have hc := h.count x
      simp only [update_self]
      push_cast at hc ⊢
      linarith
    · rw [update_of_ne hx, update_of_ne hx]
      exact h.count x
  refine ⟨fun x => ?_, hcount, fun x => ?_, fun x => ?_, fun x => ?_, fun x => ?_, ?_,
    fun x => ?_, h.exact, fun hs x y => ?_, fun hs x => ?_, fun hs x => ?_, fun hs x q hq hxq => ?_⟩
  · rw [htype]
    exact h.bound x
  · rw [htype]
    intro hx
    have hne : x ≠ i := by
      rintro rfl
      exact ht hx
    rw [update_of_ne hne]
    exact h.free x hx
  · rw [htype, hes]
    exact h.leaf x
  · rw [htype]
    simp only [WfDir, hes]
    exact h.dir x
  · rw [hpar]
    intro q hq
    rw [htype]
    exact h.parent x q hq
  · rw [htype, hpar]
    exact h.root
  · rw [htype, hords, hlinks]
    simp only [hpar]
    exact h.young x
  · rw [hords, htype, hpar]
    exact h.up hs x y
  · rw [htype, hlinks]
    exact h.once hs x
  · rw [htype, hlinks, hsub]
    exact h.empty hs x
  · rw [hpar] at hq
    obtain ⟨hdir, hne⟩ := h.kept hs x q hq hxq
    rw [htype]
    refine ⟨hdir, ?_⟩
    by_cases hqi : q = i
    · subst hqi
      intro h0
      have hm : m = 0 := by rwa [update_self] at h0
      have hpos := h.subdirs_pos (hlast hs hdir hne hm x hxq hq) (by simp [hq])
      have hc := hcount q
      rw [h0, hsub] at hc
      omega
    · rwa [update_of_ne hqi]

/-- One inode changes. What is said of each inode on its own has to be checked for that one only. -/
theorem of_update {lost' : ℕ → ℕ} (hd : v.type ≠ .free → d ≠ 0 ∧ d < n)
    (hfree : v.type = .free → v.nlink = 0) (hleaf : v.type ≠ .dir → v.entries = [])
    (hroot : d = rootino → v.type = .dir ∧ v.parent = some rootino) (hyroot : ¬young' rootino)
    (hcount : ∀ x, (update ino d v x).nlink =
      (links n (update ino d v) x + subdirs (update ino d v) x
        + (if x = rootino then 1 else 0) + pend' x + lost' x : ℕ))
    (hdir : ∀ x, (update ino d v x).type = .dir → ¬young' x → WfDir x (update ino d v x))
    (hparent : ∀ x q, (update ino d v x).parent = some q → (update ino d v q).type ≠ .free)
    (hyoung : ∀ x, young' x → (update ino d v x).type ≠ .free ∧
      (update ino d v x).ords = [] ∧ links n (update ino d v) x = 0 ∧
      ∀ y, (update ino d v y).parent ≠ some x) (hexact : strict → ∀ x, lost' x = 0)
    (hup : strict → ∀ y x, x ∈ (update ino d v y).ords →
      (update ino d v x).type = .dir → (update ino d v x).parent = some y)
    (honce : strict → ∀ x, (update ino d v x).type = .dir → links n (update ino d v) x ≤ 1)
    (hempty : strict → ∀ x, (update ino d v x).type = .dir → x ≠ rootino →
      links n (update ino d v) x = 0 → subdirs (update ino d v) x = 0)
    (hkept : ¬strict → ∀ x q, (update ino d v x).parent = some q → x ≠ q →
      (update ino d v q).type = .dir ∧ (update ino d v q).nlink ≠ 0) :
    WfTree n strict (update ino d v) pend' lost' young' := by
  refine ⟨(forall_update_iff ino fun x w => w.type ≠ .free → x ≠ 0 ∧ x < n).mpr
      ⟨hd, fun x _ => h.bound x⟩, hcount,
    (forall_update_iff ino fun _ w => w.type = .free → w.nlink = 0).mpr
    ⟨hfree, fun x _ => h.free x⟩,
    (forall_update_iff ino fun _ w => w.type ≠ .dir → w.entries = []).mpr
    ⟨hleaf, fun x _ => h.leaf x⟩, hdir, hparent, ?_, hyoung, hexact, hup, honce, hempty, hkept⟩
  by_cases hx : rootino = d
  · rw [← hx, update_self]
    exact ⟨(hroot hx.symm).1, (hroot hx.symm).2, hyroot⟩
  · rw [update_of_ne hx]
    exact ⟨h.root.1, h.root.2.1, hyroot⟩

/-- An inode without links is replaced by a new one, which is young unless it is free. Entries in it
are lost, and no other directory may have it as its parent. -/
theorem renew {t : Kind} (hnlink : (ino i).nlink = 0) (hi : i ≠ 0 ∧ i < n)
    (hpar : ∀ d, d ≠ i → (ino d).parent ≠ some i) (hempty : strict → (ino i).ords = [])
    (hy : ∀ x, x ≠ i → (young' x ↔ young x)) (hyi : young' i ↔ t ≠ .free) :
    WfTree n strict (update ino i (.new t)) pend (fun x => lost x + (ino i).ords.count x)
      young' := by
  obtain ⟨hlinks0, hsub0, hroot, hpend, hlost⟩ := h.of_nlink_eq_zero hnlink
  have hlinks : ∀ x, links n (update ino i (.new t)) x + (ino i).ords.count x = links n ino x :=
    fun x => links_update ino hi.2 (.new t) x
  have hnamed := h.notMem_ords hlinks0
  have hsub : ∀ x ≠ i, subdirs (update ino i (.new t)) x = subdirs ino x :=
    fun x hx => subdirs_update_of_ne hx fun hmem => absurd hmem (hnamed x)
  have hsubi : subdirs (update ino i (.new t)) i = 0 := by
    rw [subdirs, update_self]
    rfl
  have hstrict : strict → ∀ x, links n (update ino i (.new t)) x = links n ino x := fun hs x => by
    have hx := hlinks x
    rw [hempty hs] at hx
    exact hx
  have hparent : ∀ d q, (update ino i (.new t) d).parent = some q →
      (ino d).parent = some q ∧ q ≠ i := by
    refine (forall_update_iff ino fun d w => ∀ q, w.parent = some q →
      (ino d).parent = some q ∧ q ≠ i).mpr ⟨nofun, fun d hd q hq => ⟨hq, ?_⟩⟩
    rintro rfl
    exact hpar d hd hq
  refine h.of_update (fun _ => hi) (fun _ => rfl) (fun _ => rfl) (fun hr => absurd hr hroot)
    (fun hyr => h.root.2.2 ((hy _ (Ne.symm hroot)).mp hyr)) (fun x => ?_) (fun x hdir hyx => ?_)
    (fun x q hq => ?_) (fun x hx => ?_) (fun hs x => ?_) (fun hs x y hyx hty => ?_) (fun hs x => ?_)
    (fun hs x => ?_) (fun hs x q hq hxq => ?_)
  · have hlx := hlinks x
    by_cases hx : x = i
    · subst hx
      rw [update_self, hsubi, if_neg hroot, hpend, hlost,
        show links n (update ino x (.new t)) x = 0 by omega, show (ino x).ords.count x = 0 by omega]
      rfl
    · rw [hsub x hx, update_of_ne hx, h.count x]
      congr 1
      omega
  · have hx : x ≠ i := by
      rintro rfl
      rw [update_self] at hdir
      exact hyx (hyi.mpr (hdir.trans_ne nofun))
    rw [update_of_ne hx] at hdir ⊢
    exact h.dir x hdir fun hyoung => hyx ((hy x hx).mpr hyoung)
  · rw [update_of_ne (hparent x q hq).2]
    exact h.parent x q (hparent x q hq).1
  · have hlx := hlinks x
    by_cases hxi : x = i
    · subst hxi
      rw [update_self]
      exact ⟨hyi.mp hx, rfl, by omega, fun d hd => (hparent d x hd).2 rfl⟩
    · obtain ⟨h1, h2, h3, h4⟩ := h.young x ((hy x hxi).mp hx)
      rw [update_of_ne hxi]
      exact ⟨h1, h2, by omega, fun d hd => h4 d (hparent d x hd).1⟩
  · rw [h.exact hs x, hempty hs]
    rfl
  · have hx : x ≠ i := by
      rintro rfl
      rw [update_self] at hyx
      exact absurd hyx (by simp [ords, new])
    rw [update_of_ne hx] at hyx
    have hyi : y ≠ i := by
      rintro rfl
      exact hnamed x hyx
    rw [update_of_ne hyi] at hty ⊢
    exact h.up hs x y hyx hty
  · rw [hstrict hs]
    by_cases hx : x = i
    · subst hx
      omega
    · rw [update_of_ne hx]
      exact h.once hs x
  · rw [hstrict hs]
    by_cases hx : x = i
    · subst hx
      exact fun _ _ _ => hsubi
    · rw [update_of_ne hx, hsub x hx]
      exact h.empty hs x
  · rw [update_of_ne (hparent x q hq).2]
    exact h.kept hs x q (hparent x q hq).1 hxq

/-- **A free inode is allocated.** -/
theorem alloc {t : Kind} (hfree : (ino i).type = .free) (hi : i ≠ 0 ∧ i < n) (ht : t ≠ .free)
    (hy : ∀ x, young' x ↔ young x ∨ x = i) :
    WfTree n strict (update ino i (.new t)) pend lost young' := by
  have hold : (ino i).ords = [] := by
    rw [ords, h.leaf i (by simp [hfree])]
    rfl
  have hrenew := h.renew (t := t) (h.free i hfree) hi (fun d _ hd => h.parent d i hd hfree)
    (fun _ => hold)
    (fun x hx => (hy x).trans (or_iff_left hx)) (iff_of_true ((hy i).mpr (.inr rfl)) ht)
  rw [hold] at hrenew
  exact hrenew

/-- **An inode without links is freed.** -/
theorem discard (hnlink : (ino i).nlink = 0) (hi : (ino i).type ≠ .free) (hyoung : ¬young i)
    (hpar : ∀ d, d ≠ i → (ino d).parent ≠ some i) (hempty : strict → (ino i).ords = []) :
    WfTree n strict (update ino i (.new .free)) pend
      (fun x => lost x + (ino i).ords.count x) young :=
  h.renew hnlink (h.bound i hi) hpar hempty (fun _ _ => Iff.rfl)
    (iff_of_false hyoung (not_not_intro rfl))

/-- **A young directory gets its "." and "..".** -/
theorem dots (hy : young i) (hdir : (ino i).type = .dir) (hes : es.drop 2 = [])
    (hup : ∀ q, es[1]?.map Dirent.inum = some q →
      (ino q).type = .dir ∧ (ino q).nlink ≠ 0 ∧ ¬young q) :
    WfTree n strict (update ino i { ino i with entries := es }) pend lost young := by
  obtain ⟨hi, hold, hlinks0, hnamed⟩ := h.young i hy
  have hnew : ords { ino i with entries := es } = [] := by
    rw [ords]
    simp only [hes]
    rfl
  have htype := apply_update ino i { ino i with entries := es } type rfl
  have hords := apply_update ino i { ino i with entries := es } ords (by rw [hnew, hold])
  have hnlink := apply_update ino i { ino i with entries := es } nlink rfl
  have hlinks : ∀ x, links n (update ino i { ino i with entries := es }) x =
      links n ino x := fun x => Finset.sum_congr rfl fun y _ => by rw [hords]
  have hsub : ∀ x, subdirs (update ino i { ino i with entries := es }) x =
      subdirs ino x := fun x => subdirs_congr (hords x) fun y _ => by rw [htype]
  refine h.of_update (fun _ => h.bound i hi) (fun hf => absurd hf hi)
    (fun hne => absurd hdir hne) (fun hr => absurd (hr ▸ hy) h.root.2.2) h.root.2.2 (fun x => ?_)
    (fun x hx hyx => ?_) (fun x q hq => ?_) (fun x hx => ?_) h.exact (fun hs x y hyx hty => ?_)
    (fun hs x => ?_) (fun hs x => ?_) (fun hs x q hq hxq => ?_)
  · rw [hlinks, hsub, ← h.count x, hnlink]
  · have hxi : x ≠ i := by
      rintro rfl
      exact hyx hy
    rw [update_of_ne hxi] at hx ⊢
    exact h.dir x hx hyx
  · rw [htype]
    by_cases hxi : x = i
    · subst hxi
      rw [update_self] at hq
      exact (hup q hq).1.trans_ne nofun
    · rw [update_of_ne hxi] at hq
      exact h.parent x q hq
  · rw [htype, hords, hlinks]
    obtain ⟨h1, h2, h3, h4⟩ := h.young x hx
    refine ⟨h1, h2, h3, fun y hyp => ?_⟩
    by_cases hyi : y = i
    · subst hyi
      rw [update_self] at hyp
      exact (hup x hyp).2.2 hx
    · rw [update_of_ne hyi] at hyp
      exact h4 y hyp
  · rw [hords] at hyx
    rw [htype] at hty
    have hyi : y ≠ i := by
      rintro rfl
      exact h.notMem_ords hlinks0 x hyx
    rw [update_of_ne hyi]
    exact h.up hs x y hyx hty
  · rw [htype, hlinks]
    exact h.once hs x
  · rw [htype, hlinks, hsub]
    exact h.empty hs x
  · rw [htype, hnlink]
    by_cases hxi : x = i
    · subst hxi
      rw [update_self] at hq
      exact ⟨(hup q hq).1, (hup q hq).2.1⟩
    · rw [update_of_ne hxi] at hq
      exact h.kept hs x q hq hxq

section

variable (hd : (ino d).type = .dir)

include hd

theorem of_entries (hyd : ¬young d) (htype : v.type = .dir)
    (hnlink : v.nlink = (ino d).nlink) (hwf : WfDir d v) (hpar : v.parent = (ino d).parent)
    (hy : ∀ x, young' x → young x)
    (hcount : ∀ x, links n (update ino d v) x + subdirs (update ino d v) x + pend' x =
      links n ino x + subdirs ino x + pend x)
    (hdir : ∀ x, (ino x).type = .dir → ¬young' x → x = d ∨ WfDir x (ino x))
    (hyoung : ∀ x, young' x → links n (update ino d v) x = 0)
    (hup : strict → ∀ x ∈ v.ords, (ino x).type = .dir → (ino x).parent = some d)
    (honce : strict → ∀ x, (ino x).type = .dir → links n (update ino d v) x ≤ 1)
    (hempty : strict → ∀ x, (ino x).type = .dir → x ≠ rootino → links n (update ino d v) x = 0 →
      subdirs (update ino d v) x = 0) : WfTree n strict (update ino d v) pend' lost young' := by
  have htypes := apply_update ino d v Ino.type (htype.trans hd.symm)
  have hparents := apply_update ino d v Ino.parent hpar
  refine h.of_update (fun _ => h.bound d (by simp [hd])) (fun hf => by simp [htype] at hf)
    (fun hne => absurd htype hne) (fun hr => ⟨htype, ?_⟩) (fun hyr => h.root.2.2 (hy _ hyr))
    (fun x => ?_) (fun x hx hyx => ?_) (fun x q => ?_) (fun x hx => ?_) h.exact
    (fun hs x y hyx hty => ?_) (fun hs x => ?_) (fun hs x => ?_) fun hs x q => ?_
  · rw [hpar, hr]
    exact h.root.2.1
  · have hc := hcount x
    rw [apply_update ino d v nlink hnlink, h.count x]
    congr 1
    omega
  · rw [htypes] at hx
    by_cases hxd : x = d
    · subst hxd
      rw [update_self]
      exact hwf
    · rw [update_of_ne hxd]
      exact (hdir x hx hyx).resolve_left hxd
  · rw [hparents, htypes]
    exact h.parent x q
  · obtain ⟨h1, h2, -, h4⟩ := h.young x (hy x hx)
    have hxd : x ≠ d := by
      rintro rfl
      exact hyd (hy x hx)
    rw [htypes, update_of_ne hxd]
    exact ⟨h1, h2, hyoung x hx, fun y => by rw [hparents]; exact h4 y⟩
  · rw [htypes] at hty
    rw [hparents]
    by_cases hxd : x = d
    · subst hxd
      rw [update_self] at hyx
      exact hup hs y hyx hty
    · rw [update_of_ne hxd] at hyx
      exact h.up hs x y hyx hty
  · rw [htypes]
    exact honce hs x
  · rw [htypes]
    exact hempty hs x
  · rw [hparents, htypes, apply_update ino d v nlink hnlink]
    exact h.kept hs x q

/-- **An entry is added** to a directory: what was pending for the inode that it names is now a
link. A directory is young and has its "..", and the link for that is no longer pending either. -/
theorem insert (hyd : ¬young d) (htype : v.type = .dir)
    (hnlink : v.nlink = (ino d).nlink) (hwf : WfDir d v) (hpar : v.parent = (ino d).parent)
    (hperm : v.ords.Perm (j :: (ino d).ords))
    (hdir : (ino j).type = .dir → young j ∧ (ino j).parent = some d ∧ WfDir j (ino j))
    (hlinked : strict → (ino j).type = .dir → d ≠ rootino → links n ino d ≠ 0)
    (hpend : ∀ x, pend' x + (if x = j then 1 else 0)
      + (if x = d ∧ (ino j).type = .dir then 1 else 0) = pend x)
    (hy : ∀ x, young' x ↔ young x ∧ x ≠ j) :
    WfTree n strict (update ino d v) pend' lost young' := by
  have hlinks := links_update_cons ino (h.bound d (by simp [hd])).2 hperm
  have hsub := subdirs_update_cons ino (htype.trans hd.symm) hperm
  refine h.of_entries hd hyd htype hnlink hwf hpar (fun x hx => ((hy x).mp hx).1) (fun x => ?_)
    (fun x hx hyx => .inr ?_) (fun x hx => ?_) (fun hs x hx hxdir => ?_) (fun hs x hx => ?_)
    (fun hs x hx hxr hx0 => ?_)
  · rw [hlinks, hsub, ← hpend x]
    omega
  · by_cases hxj : x = j
    · subst hxj
      exact (hdir hx).2.2
    · exact h.dir x hx fun hyoung => hyx ((hy x).mpr ⟨hyoung, hxj⟩)
  · obtain ⟨hyoung, hxj⟩ := (hy x).mp hx
    rw [hlinks, (h.young x hyoung).2.2.1, if_neg hxj]
  · rcases mem_cons.mp (hperm.mem_iff.mp hx) with rfl | hx
    · exact (hdir hxdir).2.1
    · exact h.up hs d x hx hxdir
  · rw [hlinks]
    split_ifs with hxj
    · subst hxj
      rw [(h.young x (hdir hx).1).2.2.1]
    · exact h.once hs x hx
  · rw [hlinks] at hx0
    rw [hsub, h.empty hs x hx hxr (by omega)]
    split_ifs with hxd
    · obtain ⟨rfl, hj⟩ := hxd
      exact absurd (by omega) (hlinked hs hj hxr)
    · rfl

/-- **An entry is removed** from a directory: the link that it was is pending, and for a directory
so is the one for its "..". -/
theorem remove (hyd : ¬young d) (htype : v.type = .dir)
    (hnlink : v.nlink = (ino d).nlink) (hwf : WfDir d v) (hpar : v.parent = (ino d).parent)
    (hperm : (j :: v.ords).Perm (ino d).ords)
    (hsubj : strict → (ino j).type = .dir → subdirs ino j = 0)
    (hpend : ∀ x, pend' x = pend x + (if x = j then 1 else 0)
      + (if x = d ∧ (ino j).type = .dir then 1 else 0)) :
    WfTree n strict (update ino d v) pend' lost young := by
  -- the directory as it was has one more entry than the new one
  have hback : update (update ino d v) d (ino d) = ino := by rw [update_idem, update_eq_self]
  have hperm' : (ino d).ords.Perm (j :: (update ino d v d).ords) := by
    rw [update_self]
    exact hperm.symm
  have hlinks := links_update_cons (update ino d v) (h.bound d (by simp [hd])).2 hperm'
  have hsub := subdirs_update_cons (update ino d v) (by rw [update_self, htype, hd]) hperm'
  simp only [hback, apply_update ino d v type (htype.trans hd.symm)] at hlinks hsub
  refine h.of_entries hd hyd htype hnlink hwf hpar (fun _ => id) (fun x => ?_)
    (fun x hx hyx => .inr (h.dir x hx hyx)) (fun x hx => ?_)
    (fun hs x hx => h.up hs d x (hperm.mem_iff.mp (mem_cons_of_mem _ hx)))
    (fun hs x hx => (Nat.le.intro (hlinks x).symm).trans (h.once hs x hx))
    (fun hs x hx hxr hx0 => ?_)
  · rw [hlinks x, hsub x, hpend x]
    omega
  · have hlx := hlinks x
    have hzero := (h.young x hx).2.2.1
    omega
  · have hlx := hlinks x
    have hsx := hsub x
    by_cases hxj : x = j
    · subst hxj
      have hzero := hsubj hs hx
      omega
    · have hzero := h.empty hs x hx hxr (by rw [if_neg hxj] at hlx; omega)
      omega

end

end WfTree

end Xv6.Fs.Tree
