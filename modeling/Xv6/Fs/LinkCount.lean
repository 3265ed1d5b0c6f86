import Xv6.Fs.Calls

/-!
# Link counts, and inodes that are not used any more

From a well-formed image, when no system call is in progress: the number of links of an inode is the
number of entries that name it, without "." and "..", and of the directories with links whose ".."
names it; and an inode that nothing names and nobody uses is free.

This does not hold of all runs. A directory that was removed while it is some process's current
directory takes new entries. When the process leaves it, the directory is freed with its entries in
it, and the files that they named stay allocated (`lost_file`). The theorem assumes of every step
that it does not free a directory that has entries or that another directory's ".." names, and that
it does not give a directory that was removed a link again.

## Main results

* `links_exact` — what holds when no system call is in progress
* `lost_file` — a run after which it does not
-/

namespace Xv6.Fs.Tree

open Concurrent List

/-! ### Where runs start -/

/-- A well-formed image of a file system. -/
structure WfImage (sb : Super) (s : State) : Prop where
  tree : WfTree sb.ninodes True s.ino (fun _ => 0) (fun _ => 0) fun _ => False
  used : ∀ i, s.used i = true ↔ (s.ino i).type ≠ .free
  linked : ∀ i, (s.ino i).type ≠ .free → (s.ino i).nlink ≠ 0

variable {ι : Type} [Fintype ι] {sb : Super} {d i : ℕ}

/-- A well-formed image, and processes that are not in a system call. -/
structure Start (sb : Super) (x : State × Tables ι) : Prop where
  image : WfImage sb x.1
  busy : ∀ i, x.1.busy i = false
  ref : ∀ i, x.1.ref i = ∑ p, refCount (x.2.proc p) i
  held : ∀ p i, 1 ≤ refCount (x.2.proc p) i → (x.1.ino i).type ≠ .free

/-- A directory with links that is not the root has a name in the directory that its ".." names. -/
theorem WfTree.mem_parent {n : ℕ} {ino : ℕ → Ino} {lost : ℕ → ℕ}
    (h : WfTree n True ino (fun _ => 0) lost fun _ => False) (hdir : (ino d).type = .dir)
    (hlink : (ino d).nlink ≠ 0) (hroot : d ≠ rootino) (hpar : (ino d).parent = some i) :
    d ∈ (ino i).ords := by
  have hpos : 0 < links n ino d := by
    refine Nat.pos_of_ne_zero fun h0 => hlink ?_
    have hc := h.count d
    rwa [h0, h.empty trivial d hdir hroot h0, if_neg hroot, h.exact trivial d] at hc
  obtain ⟨q, -, hq⟩ := Finset.exists_ne_zero_of_sum_ne_zero hpos.ne'
  have hmem : d ∈ (ino q).ords := count_pos_iff.mp (Nat.pos_of_ne_zero hq)
  have hup := h.up trivial q d hmem hdir
  rw [hpar] at hup
  cases hup
  exact hmem

theorem WfImage.wfTree {s : State} (himage : WfImage sb s) (strict : Prop) :
    WfTree sb.ninodes strict s.ino (fun _ => 0) (fun _ => 0) fun _ => False := by
  have h := himage.tree
  refine ⟨h.bound, h.count, h.free, h.leaf, h.dir, h.parent, h.root, h.young,
    fun _ => h.exact trivial, fun _ => h.up trivial, fun _ => h.once trivial,
    fun _ => h.empty trivial, fun _ d q hpar hne => ?_⟩
  refine ⟨?_, himage.linked q (h.parent d q hpar)⟩
  have hdir : (s.ino d).type = .dir := by
    by_contra hdir
    rw [Ino.parent, h.leaf d hdir] at hpar
    cases hpar
  have hroot : d ≠ rootino := by
    rintro rfl
    exact hne (Option.some.inj (h.root.2.1.symm.trans hpar))
  have hmem := h.mem_parent hdir (himage.linked d (hdir.trans_ne (by decide))) hroot hpar
  by_contra hq
  rw [Ino.ords, h.leaf q hq] at hmem
  cases hmem

variable {x : State × Tables ι}

/-- **The invariant holds at the start.** -/
theorem Start.inv (h : Start sb x) (strict : Prop) :
    Inv sb strict (fun p => .idle (refCount (x.2.proc p))) x.1 where
  ref := h.ref
  own := fun p => ⟨nofun, nofun, fun i hi => .inl (h.held p i hi), nofun, fun i hi => absurd hi (by
    simp [Local.idle])⟩
  apart := fun p q _ => {
    holds := by
      rintro i (hi | ⟨b, hb⟩)
      · exact absurd rfl hi
      · cases hb
    fresh := fun i hi => absurd hi (Local.not_fresh rfl) }
  used := fun i => (h.image.used i).mpr
  freed := fun i hu ht => absurd ht ((h.image.used i).mp hu)
  late := nofun
  tree := by
    refine ⟨fun _ => 0, ?_⟩
    have hpend : (fun i => ∑ p, (Local.idle (refCount (x.2.proc p))).pend i) = fun _ => 0 := by
      funext i
      exact Finset.sum_eq_zero fun _ _ => rfl
    have hyoung :
        (fun i => ∃ p, (Local.idle (refCount (x.2.proc p))).Fresh i) = fun _ => False := by
      funext i
      refine propext ⟨?_, False.elim⟩
      rintro ⟨p, hp⟩
      exact Local.not_fresh rfl hp
    rw [hpend, hyoung]
    exact h.image.wfTree strict
  linked := fun _ i ht h0 => absurd h0 (h.image.linked i ht)

/-! ### Between system calls -/

theorem SysInv.quiet {strict : Prop} {g : ι → Local × Tab} (h : SysInv sb strict g x)
    (hidle : ∀ p, Idle (g p)) :
    (∃ lost, WfTree sb.ninodes strict x.1.ino (fun _ => 0) lost fun _ => False) ∧
      (∀ i, x.1.used i = true ↔ (x.1.ino i).type ≠ .free) ∧
      (strict → ∀ i, (x.1.ino i).type ≠ .free → (x.1.ino i).nlink = 0 → 1 ≤ x.1.ref i) := by
  have hplain : ∀ p, (g p).1.Plain := fun p => by
    rw [hidle p]
    exact plain_idle _
  have hnf : ∀ i, ¬∃ p, (g p).1.Fresh i := by
    rintro i ⟨p, hp⟩
    exact Local.not_fresh (hplain p).fresh hp
  refine ⟨?_, fun i => ⟨fun hu ht => ?_, h.1.used i⟩, fun hs i ht h0 => ?_⟩
  · obtain ⟨lost, htree⟩ := h.1.tree
    refine ⟨lost, ?_⟩
    have hpend : (fun i => ∑ p, (g p).1.pend i) = fun _ => 0 := by
      funext i
      refine Finset.sum_eq_zero fun p _ => ?_
      rw [hidle p]
      rfl
    have hyoung : (fun i => ∃ p, (g p).1.Fresh i) = fun _ => False := by
      funext i
      exact propext ⟨hnf i, False.elim⟩
    rwa [hpend, hyoung] at htree
  · obtain ⟨p, hp⟩ := h.1.freed i hu ht
    rw [(hplain p).dying] at hp
    cases hp
  · exact (h.1.linked hs i ht h0).elim And.right fun hf => absurd hf (hnf i)

/-- How many entries of allocated directories name the inode, without "." and "..". -/
def named (sb : Super) (s : State) (i : ℕ) : ℕ :=
  ∑ d ∈ Finset.range sb.ninodes, if s.used d = true ∧ (s.ino d).type = .dir then
    (s.ino d).entries.countP fun e => decide (e.inum = i ∧ e.name ≠ dot ∧ e.name ≠ dotdot) else 0

/-- The directories with links whose ".." names the inode. -/
def children (sb : Super) (s : State) (i : ℕ) : Finset ℕ :=
  (Finset.range sb.ninodes).filter fun d => (s.ino d).type = .dir ∧ 0 < (s.ino d).nlink ∧
    ∃ e ∈ (s.ino d).entries, e.name = dotdot ∧ e.inum = i

/-- Link counts are exact, and what nothing names and nobody uses is free on the disk. -/
def LinksExact (sb : Super) (s : State) : Prop :=
  ∀ i, s.used i = true → i ≠ rootino →
    (s.ino i).nlink = (named sb s i + (children sb s i).card : ℕ) ∧
      ¬(named sb s i = 0 ∧ s.ref i = 0)

theorem WfDir.count_ords {v : Ino} (h : WfDir d v) (hi : i ≠ 0) :
    (v.entries.countP fun e => decide (e.inum = i ∧ e.name ≠ dot ∧ e.name ≠ dotdot)) =
      v.ords.count i := by
  obtain ⟨q, rest, hes, hnames⟩ := h
  have hords : v.ords = inums rest := by rw [ords_eq, hes, drop_succ_cons,
    drop_succ_cons, drop_zero]
  rw [hords, hes, countP_cons_of_neg (by simp), countP_cons_of_neg (by simp)]
  clear hes hords
  induction rest with
  | nil => rfl
  | cons e rest ih =>
    have ih := ih fun e' he' => hnames e' (mem_cons_of_mem _ he')
    have he := hnames e mem_cons_self
    rw [countP_cons, inums_cons, ih]
    by_cases hzero : e.inum = 0
    · rw [if_pos hzero, if_neg (by simp [hzero, Ne.symm hi])]
      rfl
    · rw [if_neg hzero, count_cons]
      by_cases hei : e.inum = i
      · simp [hei, he hzero]
      · simp [hei]

theorem WfDir.parent_iff {q : ℕ} {v : Ino} (h : WfDir d v) (hq : q ≠ 0) :
    (∃ e ∈ v.entries, e.name = dotdot ∧ e.inum = q) ↔ v.parent = some q := by
  obtain ⟨p, rest, hes, hnames⟩ := h
  have hpar : v.parent = some p := by rw [Ino.parent, hes]; rfl
  rw [hpar, hes]
  constructor
  · rintro ⟨e, he, hname, rfl⟩
    rcases mem_cons.mp he with rfl | he
    · have hne : dot ≠ dotdot := by decide
      exact absurd hname hne
    rcases mem_cons.mp he with rfl | he
    · rfl
    · exact absurd hname (hnames e he hq).2
  · intro hp
    cases hp
    exact ⟨⟨q, dotdot⟩, by simp, rfl, rfl⟩

section Quiet

variable {sb : Super} {s : State} {lost : ℕ → ℕ} {i : ℕ}
  (h : WfTree sb.ninodes True s.ino (fun _ => 0) lost fun _ => False)

include h

theorem WfTree.named_eq (hused : ∀ d, s.used d = true ↔ (s.ino d).type ≠ .free) (hi : i ≠ 0) :
    named sb s i = links sb.ninodes s.ino i := by
  refine Finset.sum_congr rfl fun d _ => ?_
  by_cases hdir : (s.ino d).type = .dir
  · rw [if_pos ⟨(hused d).mpr (by rw [hdir]; decide), hdir⟩]
    exact (h.dir d hdir not_false).count_ords hi
  · rw [if_neg fun hd => hdir hd.2, Ino.ords, h.leaf d hdir]
    rfl

theorem WfTree.card_children (hi : i ≠ 0) (hroot : i ≠ rootino) :
    (children sb s i).card = subdirs s.ino i := by
  have hmem : ∀ d, d ∈ children sb s i ↔ d ∈ (s.ino i).ords ∧ (s.ino d).type = .dir := fun d => by
    rw [children, Finset.mem_filter, Finset.mem_range]
    constructor
    · rintro ⟨-, hdir, hlink, he⟩
      have hpar := ((h.dir d hdir not_false).parent_iff hi).mp he
      refine ⟨h.mem_parent hdir hlink.ne' (fun hd => ?_) hpar, hdir⟩
      subst hd
      rw [h.root.2.1] at hpar
      exact hroot (Option.some.inj hpar).symm
    · rintro ⟨hords, hdir⟩
      have hin : i < sb.ninodes := by
        refine (h.bound i fun hfree => ?_).2
        rw [Ino.ords, h.leaf i (by rw [hfree]; decide)] at hords
        cases hords
      have hpos := links_pos hin hords
      have hc := h.count d
      exact ⟨(h.bound d (by rw [hdir]; decide)).2, hdir, by omega,
        ((h.dir d hdir not_false).parent_iff hi).mpr (h.up trivial i d hords hdir)⟩
  have hnodup : ((s.ino i).ords.filter fun d => (s.ino d).type = .dir).Nodup := by
    refine nodup_iff_count_le_one.mpr fun d => ?_
    by_cases hdir : (s.ino d).type = .dir
    · by_cases hin : i < sb.ninodes
      · calc List.count d ((s.ino i).ords.filter fun d => (s.ino d).type = .dir)
            ≤ (s.ino i).ords.count d := filter_sublist.count_le d
          _ ≤ links sb.ninodes s.ino d := Finset.single_le_sum
              (f := fun x => (s.ino x).ords.count d) (fun _ _ => Nat.zero_le _)
              (Finset.mem_range.mpr hin)
          _ ≤ 1 := h.once trivial d hdir
      · have hleaf : (s.ino i).entries = [] := h.leaf i fun hdir =>
          hin (h.bound i (by rw [hdir]; decide)).2
        simp [Ino.ords, hleaf]
    · rw [count_eq_zero_of_not_mem fun hd => hdir (by simpa using (mem_filter.mp hd).2)]
      exact Nat.zero_le 1
  have hset : children sb s i =
      ((s.ino i).ords.filter fun d => (s.ino d).type = .dir).toFinset := by
    ext d
    rw [hmem, mem_toFinset, mem_filter, decide_eq_true_eq]
  rw [hset, toFinset_card_of_nodup hnodup, subdirs, countP_eq_length_filter]

theorem WfTree.linksExact (hused : ∀ d, s.used d = true ↔ (s.ino d).type ≠ .free)
    (hlinked : ∀ i, (s.ino i).type ≠ .free → (s.ino i).nlink = 0 → 1 ≤ s.ref i) :
    LinksExact sb s := by
  intro i hi hroot
  have htype := (hused i).mp hi
  have h0 := (h.bound i htype).1
  have hcount := h.count i
  rw [if_neg hroot, h.exact trivial i, ← h.named_eq hused h0, ← h.card_children h0 hroot] at hcount
  refine ⟨by simpa using hcount, ?_⟩
  rintro ⟨hname, href⟩
  have hsub : (children sb s i).card = 0 := by
    rw [h.card_children h0 hroot]
    by_cases hdir : (s.ino i).type = .dir
    · exact h.empty trivial i hdir hroot (by rw [← h.named_eq hused h0, hname])
    · rw [subdirs, Ino.ords, h.leaf i hdir]
      rfl
  rw [hname, hsub] at hcount
  have := hlinked i htype (by simpa using hcount)
  omega

end Quiet

variable [DecidableEq ι]

theorem Start.verified (h : Start sb x) (strict : Prop) :
    Verified (SysInv sb strict) (contract sb strict).onFst Idle (.idle x) := by
  refine ⟨fun p => (.idle (refCount (x.2.proc p)), x.2.proc p), ⟨h.inv strict, fun _ => rfl⟩,
    fun p => ?_⟩
  rfl

/-! ### Runs -/

/-- The steps that keep link counts exact. -/
def Tidy (sb : Super) (s s' : State) : Prop :=
  Spares sb s s' ∧ FreesEmpty sb s s' ∧ StaysRemoved sb s s'

instance (sb : Super) (s s' : State) : Decidable (Tidy sb s s') := by
  unfold Tidy
  infer_instance

theorem Tidy.refl (sb : Super) (s : State) : Tidy sb s s :=
  ⟨fun _ _ hf => absurd hf.2 hf.1, fun _ _ hf => absurd hf.2 hf.1, fun _ _ _ h0 _ => h0⟩

/-- **Link counts are exact, and unlinked inodes are reclaimed**, when no system call is in
progress. -/
theorem links_exact (sb : Super) {x : State × Tables ι} (hx : Start sb x)
    {t : Pool ι (State × Tables ι) Panic}
    (h : Reach (syscalls (inodes sb)) (fun a b => Tidy sb a.1 b.1) (.idle x) t)
    (hready : ∀ p, t.Ready p) : LinksExact sb t.state.1 := by
  have hrel : ∀ a b : State × Tables ι, Tidy sb a.1 b.1 → (contract sb True).onFst.rel a b :=
    fun _ _ hab => ⟨fun hs => absurd trivial hs, fun _ => hab⟩
  obtain ⟨g, hI, hg⟩ := (h.mono hrel).sound (fun p c _ hl => syscalls_wp hl) (hx.verified True)
  obtain ⟨⟨lost, htree⟩, hused, hlinked⟩ := hI.quiet fun p => Verified.idle hg (hready p)
  exact htree.linksExact hused (hlinked trivial)

/-! ### A small file system -/

/-- A file system with eight inodes. -/
def smallSuper : Super := ⟨1000, by decide, 8, by decide, 58⟩

/-- The root directory is empty, and it is the current directory of the only process. -/
def small : State × Tables Unit where
  fst := {
    ino := fun i =>
      if i = rootino then ⟨.dir, 1, [⟨rootino, dot⟩, ⟨rootino, dotdot⟩]⟩ else .new .free
    used := fun i => i = rootino
    ref := fun i => if i = rootino then 1 else 0
    busy := fun _ => false
    valid := fun _ => false }
  snd := { proc := fun _ => ⟨some rootino, fun _ => none⟩, nopen := 0 }

theorem small_ords (i : ℕ) : (small.1.ino i).ords = [] := by
  by_cases hi : i = rootino
  · subst hi
    rfl
  · simp [small, hi, Ino.new, Ino.ords]

theorem small_parent {q : ℕ} (h : (small.1.ino i).parent = some q) :
    i = rootino ∧ q = rootino := by
  by_cases hi : i = rootino
  · subst hi
    exact ⟨rfl, (Option.some.inj h).symm⟩
  · simp [small, hi, Ino.new, Ino.parent] at h

theorem small_type (h : (small.1.ino i).type ≠ .free) : i = rootino := by
  by_contra hi
  simp [small, hi, Ino.new] at h

theorem small_refCount (p : Unit) (i : ℕ) :
    refCount (small.2.proc p) i = if i = rootino then 1 else 0 := by
  have hnone : ∑ fd : Fin nofile, holdsRef i ((small.2.proc p).ofile fd) = 0 :=
    Finset.sum_eq_zero fun _ _ => rfl
  rw [refCount, hnone]
  by_cases hi : i = rootino
  · subst hi
    rfl
  · have hcwd : ¬(small.2.proc p).cwd = some i := fun h => hi (Option.some.inj h).symm
    rw [if_neg hcwd, if_neg hi]

theorem small_start : Start smallSuper small := by
  have hlinks : ∀ i, links smallSuper.ninodes small.1.ino i = 0 := fun i =>
    Finset.sum_eq_zero fun d _ => by rw [small_ords, count_nil]
  have hsub : ∀ i, subdirs small.1.ino i = 0 := fun i => by rw [subdirs, small_ords, countP_nil]
  refine ⟨⟨?_, fun i => ?_, fun i hi => ?_⟩, fun _ => rfl, fun i => ?_, fun p i hi => ?_⟩
  · refine ⟨fun i hi => ?_, fun i => ?_, fun i hi => ?_, fun i hi => ?_, fun i hi _ => ?_,
      fun i q hq => ?_, ⟨rfl, rfl, not_false⟩, fun _ h => h.elim, fun _ _ => rfl,
      fun _ d i hi => ?_, fun _ i _ => ?_, fun _ i _ _ _ => hsub i, fun hs => absurd trivial hs⟩
    · rw [small_type hi]
      decide
    · rw [hlinks, hsub]
      by_cases hi : i = rootino <;> simp [small, hi, Ino.new]
    · by_cases hroot : i = rootino
      · subst hroot
        cases hi
      · simp [small, hroot, Ino.new]
    · by_cases hroot : i = rootino
      · subst hroot
        exact absurd rfl hi
      · simp [small, hroot, Ino.new]
    · obtain rfl := small_type (i := i) (by rw [hi]; decide)
      exact ⟨rootino, [], rfl, by rintro _ ⟨⟩⟩
    · rw [(small_parent hq).2]
      decide
    · rw [small_ords] at hi
      cases hi
    · rw [hlinks]
      exact Nat.zero_le 1
  · by_cases hi : i = rootino <;> simp [small, hi, Ino.new]
  · rw [small_type hi]
    decide
  · rw [Fintype.sum_unique, small_refCount]
    rfl
  · rw [small_refCount] at hi
    by_cases hroot : i = rootino
    · rw [hroot]
      decide
    · simp [hroot] at hi

/-- What `links_exact` says of a run that makes the directories "a", "a/b" and "a/c" and the file
"a/x", gives the file a second name, and removes "a/b". -/
theorem links_exact_rmdir :
    ∃ t : Pool Unit (State × Tables Unit) Panic,
      Reach (syscalls (inodes smallSuper)) (fun a b => Tidy smallSuper a.1 b.1) (.idle small) t ∧
        ((t.state.1.ino 2).nlink = 2 ∧ t.state.1.used 3 = false ∧ (t.state.1.ino 5).nlink = 2) ∧
        LinksExact smallSuper t.state.1 := by
  have hrun : endsIn (syscalls (inodes smallSuper)) (fun a b => Tidy smallSuper a.1 b.1)
      [((), .sysMkdir [97]), ((), .sysMkdir [97, 47, 98]), ((), .sysMkdir [97, 47, 99]),
        ((), .sysOpen [97, 47, 120] 0x202), ((), .sysLink [97, 47, 120] [121]),
        ((), .sysUnlink [97, 47, 98])] small
      (fun x => decide ((x.1.ino 2).nlink = 2 ∧ x.1.used 3 = false ∧ (x.1.ino 5).nlink = 2)) =
        true := by
    decide +kernel
  obtain ⟨x, hreach, hx⟩ := Reach.of_endsIn (by exact fun x => Tidy.refl _ x.1) hrun
  exact ⟨_, hreach, of_decide_eq_true hx, links_exact smallSuper small_start hreach fun _ => rfl⟩

/-- **A file that is lost**: the directory "a" is removed while it is the current directory, the
file "x" is made in it and closed, and the directory is left. The file is still allocated. -/
theorem lost_file :
    ∃ t : Pool Unit (State × Tables Unit) Panic,
      Reach (syscalls (inodes smallSuper)) (fun _ _ => True) (.idle small) t ∧
        (∀ p, t.Ready p) ∧ ¬LinksExact smallSuper t.state.1 := by
  have hrun : endsIn (syscalls (inodes smallSuper)) (fun _ _ => True)
      [((), .sysMkdir [97]), ((), .sysChdir [97]), ((), .sysUnlink [46, 46, 47, 97]),
        ((), .sysOpen [120] 0x202), ((), .sysClose 0), ((), .sysChdir [47])] small
      (fun x => decide (x.1.used 3 = true ∧ named smallSuper x.1 3 = 0 ∧ x.1.ref 3 = 0)) =
        true := by
    decide +kernel
  obtain ⟨x, hreach, hx⟩ := Reach.of_endsIn (fun _ => trivial) hrun
  obtain ⟨hused, hnamed⟩ := of_decide_eq_true hx
  exact ⟨_, hreach, fun _ => rfl, fun h => (h 3 hused (by decide)).2 hnamed⟩

end Xv6.Fs.Tree
