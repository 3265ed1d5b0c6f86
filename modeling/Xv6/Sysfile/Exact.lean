import Xv6.Sysfile.Icache
import Xv6.Sysfile.Verify

/-!
# Reference counts are exact

What the accounts say when no call is in progress, for every run of any number of processes that
starts with the first process after boot. Nothing is assumed about the disk.

A run may come to a panic, and stays there; what is said here holds in every state that is reached.

## Main results

* `inode_refs_exact` — entries of the inode table: there is one for each inode in use, its reference
  count is the number of files and current directories that point to it, and it stays that of its
  inode as long as one does
* `file_refs_exact` — files and pipes: the reference count of a file is the number of descriptors,
  an end of a pipe is open as long as it has a file, and the page of a pipe is freed once, when both
  ends are closed
* `counts_never_panic` — the tests of counts and locks never fail
-/

namespace Xv6.Sysfile

open Fs Concurrent Finset

/-! ### Between calls -/

section Ready

variable {ι η σ X : Type} [Fintype ι] [DecidableEq ι] [DecidableEq η] {M : Implementation ι η σ X}
  {G : ι → Option (Busy ι η) × X} {s : σ} {t : Tables ι η}

/-- The files in use that are files of the inode. -/
def Tables.filesAt (t : Tables ι η) (x : η) : Finset (Fin nfile) :=
  {f | 0 < (t.file f).ref ∧ (t.file f).type = .inode x}

/-- The processes that have the inode as their current directory. -/
def Tables.cwdsAt (t : Tables ι η) (x : η) : Finset ι := {p | (t.proc p).cwd = some x}

theorem SysInv.held (hI : SysInv M G (s, t)) (hidle : ∀ p, Idle (G p).1) {p : ι} {x : η}
    (hcwd : (t.proc p).cwd = some x) : (t.proc p).held = true := by
  have hT := hI.tabInv.procs
  cases hp : (G p).1 with
  | some b =>
    rw [(hT.tab p b hp).1]
    exact (hidle p b hp).held
  | none =>
    refine hT.born p hp ?_
    by_contra hrun
    rw [hT.out p hrun] at hcwd
    cases hcwd

omit [Fintype ι] [DecidableEq ι] [DecidableEq η] in
theorem holdOf_of_idle {l : Option (Busy ι η)} (h : Idle l) : holdOf l = .empty := by
  cases l with
  | none => rfl
  | some b => exact (h b rfl).hold

section

variable (hI : SysInv M G (s, t))

include hI

section

variable (hidle : ∀ p, Idle (G p).1)

include hidle

theorem SysInv.base_eq (x : η) : base t x = (t.filesAt x).card + (t.cwdsAt x).card := by
  have hfile : ∀ f, (t.file f).refs x =
      if 0 < (t.file f).ref ∧ (t.file f).type = .inode x then 1 else 0 := by
    intro f
    rw [File.refs]
    refine if_congr ⟨fun h => ⟨?_, h⟩, And.right⟩ rfl rfl
    by_contra hzero
    have hnone := hI.tabInv.counts.free f (by omega)
    rw [hnone] at h
    cases h
  have hcwd : ∀ p, (t.proc p).refs x = if (t.proc p).cwd = some x then 1 else 0 := fun p =>
    if_congr ⟨And.right, fun h => ⟨hI.held hidle h, h⟩⟩ rfl rfl
  simp only [base, hfile, hcwd, sum_boole, Nat.cast_id]
  exact Nat.add_comm _ _

theorem SysInv.ref_eq (x : η) : M.ref s x = (t.filesAt x).card + (t.cwdsAt x).card := by
  have hcount := hI.1.1.count x
  simp only [holdOf_of_idle (hidle _), Hold.empty, sum_const_zero, Nat.add_zero] at hcount
  rw [hcount, ← hI.base_eq hidle x]
  rfl

theorem SysInv.busy_eq (x : η) : M.busy s x = false := by
  by_contra hbusy
  obtain ⟨q, hq⟩ := (hI.1.1.busy x).mp (by simpa using hbusy)
  replace hq : (holdOf (G q).1).locks x ≠ none := hq
  rw [holdOf_of_idle (hidle q)] at hq
  exact hq rfl

theorem SysInv.file_ref_eq (f : Fin nfile) : (t.file f).ref = ∑ p, (t.proc p).count f := by
  rw [hI.tabInv.counts.count f]
  refine sum_congr rfl fun p _ => ?_
  cases hp : (G p).1 with
  | none => rfl
  | some b => rw [filesOf_some, (hidle p b hp).files f, (hI.tabInv.procs.tab p b hp).1]

theorem SysInv.open_iff (r : ℕ) (w : Bool) :
    (if w then (t.pipe r).writeopen else (t.pipe r).readopen) = true ↔
      ∃ f, 0 < (t.file f).ref ∧ (t.file f).type = .pipe r ∧ (t.file f).writable = w := by
  have hends := hI.tabInv.pipes.ends r w
  have hzero : ∑ q, endsOf r w (G q).1 = 0 := sum_eq_zero fun q _ => by
    cases hq : (G q).1 with
    | none => rfl
    | some b => exact (hidle q b hq).ends r w
  rw [hzero, Nat.add_zero] at hends
  have hopen : (if w then (t.pipe r).writeopen else (t.pipe r).readopen) = true ↔
      ∑ f, (t.file f).ends r w ≠ 0 := by
    rw [hends, Ends.open]
    split_ifs <;> simp_all
  rw [hopen, ne_eq, sum_eq_zero_iff]
  push Not
  refine exists_congr fun f => ?_
  have hpos : (t.file f).type = .pipe r → 0 < (t.file f).ref := by
    intro htype
    by_contra hfree
    rw [hI.tabInv.counts.free f (by omega)] at htype
    cases htype
  simp only [mem_univ, true_and, File.ends]
  cases htype : (t.file f).type with
  | none => simp
  | inode x => simp
  | pipe u =>
    rw [htype] at hpos
    simp only [ne_eq, ite_eq_right_iff, one_ne_zero, imp_false, not_not, FdType.pipe.injEq]
    exact ⟨fun h => ⟨hpos (by rw [h.1]), h⟩, And.right⟩

end

end

end Ready

/-! ### Boot -/

section Boot

variable {ι : Type} [Fintype ι] [DecidableEq ι]

/-- The machine when the first process is about to run: it has the root directory as its current
directory, and there are no files and no pipes. -/
structure Booted (p₀ : ι) (root : Fin ninode) (s : Cache × Tables ι (Fin ninode)) : Prop where
  ref : ∀ x, s.1.ref x = if x = root then 1 else 0
  busy : ∀ x, s.1.busy x = false
  init : s.2.proc p₀ = ⟨.running, some root, true, fun _ => none⟩
  others : ∀ p, p ≠ p₀ → s.2.proc p = .empty .unused
  files : ∀ f, (s.2.file f).ref = 0 ∧ (s.2.file f).type = .none
  pipes : ∀ r, s.2.pipe r = ⟨false, false, 0⟩
  npipe : s.2.npipe = 0

variable {p₀ : ι} {root : Fin ninode} {s : Cache × Tables ι (Fin ninode)}

theorem Booted.tabInv (h : Booted p₀ root s) : TabInv (fun _ => none) s.2 where
  procs := by
    refine ⟨fun q b hq => (nomatch hq), fun q hq => ?_, fun q _ hq => ?_,
      fun q b r hq => (nomatch hq), fun q q' b b' r hq => (nomatch hq)⟩
    · by_cases hq₀ : q = p₀
      · subst hq₀
        exact absurd (by rw [h.init]) hq
      · rw [h.others q hq₀]
        rfl
    · by_cases hq₀ : q = p₀
      · subst hq₀
        rw [h.init]
      · rw [h.others q hq₀] at hq
        cases hq
  counts := by
    refine ⟨fun f => ?_, fun f _ => (h.files f).2, fun q b f hq => (nomatch hq),
      fun q b f x hq => (nomatch hq)⟩
    rw [(h.files f).1]
    refine (sum_eq_zero fun q _ => ?_).symm
    rw [filesOf_none, Tab.count]
    refine sum_eq_zero fun fd _ => if_neg ?_
    by_cases hq₀ : q = p₀
    · subst hq₀
      rw [h.init]
      simp
    · rw [h.others q hq₀]
      simp [Tab.empty]
  pipes := by
    refine ⟨fun r w => ?_, fun r => ?_, fun r _ => h.pipes r⟩
    · rw [h.pipes r]
      simp [File.ends_none (h.files _).2, Ends.open]
    · rw [h.pipes r, h.npipe]
      simp

theorem Booted.base_eq (h : Booted p₀ root s) (x : Fin ninode) :
    base s.2 x = if x = root then 1 else 0 := by
  have hfile : ∀ f, (s.2.file f).refs x = 0 := fun f => File.refs_none (h.files f).2 x
  have hproc : ∀ q, (s.2.proc q).refs x = if q = p₀ then if x = root then 1 else 0 else 0 := by
    intro q
    split_ifs with hq hx
    · simp [hq, h.init, Tab.refs, hx]
    · simp [hq, h.init, Tab.refs, Ne.symm hx]
    · simp [h.others q hq, Tab.refs, Tab.empty]
  simp [base, hfile, hproc]

/-- **The accounts are right after boot.** -/
theorem Booted.sysInv (h : Booted p₀ root s) (sb : Super) (devread devwrite : ℤ → Bool) :
    SysInv (Icache.implementation sb devread devwrite) (fun _ => (none, ())) s := by
  refine ⟨⟨⟨fun x => ?_, fun x => ?_, fun q r x hq => absurd rfl hq, fun q x hq => absurd rfl hq,
    fun q x hq => ?_⟩, fun x y hx hy _ => ?_⟩, h.tabInv⟩
  · refine (h.ref x).trans ?_
    simp [ghost, h.base_eq, Hold.empty]
  · refine ⟨fun hbusy => ?_, fun hq => absurd rfl hq.choose_spec⟩
    rw [show (Icache.implementation sb devread devwrite).busy s.1 x = s.1.busy x from rfl,
      h.busy x] at hbusy
    cases hbusy
  · obtain ⟨b, hb, -⟩ := hq
    cases hb
  · have honly : ∀ z, 0 < s.1.ref z → z = root := by
      intro z hz
      by_contra hne
      rw [h.ref, if_neg hne] at hz
      exact absurd hz (Nat.lt_irrefl 0)
    rw [honly x hx, honly y hy]

end Boot

/-! ### Runs -/

section Runs

variable {ι : Type} [Fintype ι] [DecidableEq ι] {p₀ : ι} {root : Fin ninode}
  {s : Cache × Tables ι (Fin ninode)} {t t' : Pool ι (Cache × Tables ι (Fin ninode)) Panic}
  {sb : Super} {devread devwrite : ℤ → Bool}

/-- The programs of the processes, with the inode table. -/
abbrev calls (sb : Super) (devread devwrite : ℤ → Bool) :
    ι → Syscall ι → Prog (Cache × Tables ι (Fin ninode)) Panic Unit :=
  syscalls (Icache.code sb devread devwrite)

theorem Booted.reach (h : Booted p₀ root s)
    (hr : Reach (calls sb devread devwrite) (fun _ _ => True) (.idle s) t) :
    Verified (SysInv (Icache.implementation sb devread devwrite))
      (contract Loose Cache.Stays).onFst (fun l => l.2 = () ∧ Idle l.1) t := by
  refine Reach.sound (syscalls_wp (Icache.implementation sb devread devwrite)) ?_ hr
  exact ⟨fun _ => (none, ()), h.sysInv sb devread devwrite, fun _ => ⟨rfl, fun _ hb => by cases hb⟩⟩

/-- An entry is in use if a file in use is a file of its inode, or if it is a current directory
whose reference has not been put. -/
def PointedTo (t : Tables ι (Fin ninode)) (x : Fin ninode) : Prop :=
  (∃ f, 0 < (t.file f).ref ∧ (t.file f).type = .inode x) ∨
    ∃ p, (t.proc p).cwd = some x ∧ (t.proc p).held = true

omit [DecidableEq ι] in
theorem PointedTo.one_le_base {t : Tables ι (Fin ninode)} {x : Fin ninode} (h : PointedTo t x) :
    1 ≤ base t x := by
  rcases h with ⟨f, -, hf⟩ | ⟨p, hp, hheld⟩
  · have hle := single_le_sum (f := fun f => (t.file f).refs x) (fun _ _ => Nat.zero_le _)
      (mem_univ f)
    simp only [File.refs, hf, if_true] at hle
    exact hle.trans (Nat.le_add_left _ _)
  · have hle := single_le_sum (f := fun p => (t.proc p).refs x) (fun _ _ => Nat.zero_le _)
      (mem_univ p)
    simp only [Tab.refs, hp, hheld, and_self, if_true] at hle
    exact hle.trans (Nat.le_add_right _ _)

/-- **Inode reference counts are exact.** In every state that any number of processes reach, there
is at most one entry in use for each inode number; if no call is in progress, the reference count of
an entry is the number of files and current directories that point to it, and nothing is locked; and
no step gives an entry that a file or a current directory points to to another inode. -/
theorem inode_refs_exact (h : Booted p₀ root s)
    (hr : Reach (calls sb devread devwrite) (fun _ _ => True) (.idle s) t) :
    (∀ x y, 0 < t.state.1.ref x → 0 < t.state.1.ref y → t.state.1.inum x = t.state.1.inum y →
      x = y) ∧
    ((∀ p, t.Ready p) → ∀ x,
      t.state.1.ref x = (t.state.2.filesAt x).card + (t.state.2.cwdsAt x).card ∧
        t.state.1.busy x = false) ∧
    ∀ m t', t.move (calls sb devread devwrite) m = .ok t' → ∀ x, PointedTo t.state.2 x →
      t'.state.1.inum x = t.state.1.inum x := by
  have hv := h.reach hr
  obtain ⟨g, hI, hg⟩ := hv
  refine ⟨hI.1.2, fun hready x => ?_, fun m t' hm x hx => ?_⟩
  · have hidle : ∀ p, Idle (g p).1 := fun p => (Verified.idle hg (hready p)).2
    exact ⟨hI.ref_eq hidle x, hI.busy_eq hidle x⟩
  · have hmove := (h.reach hr).move
      (syscalls_wp (Icache.implementation sb devread devwrite)) hm trivial
    rcases hmove.2 with hsame | hstays
    · rw [hsame]
    · refine hstays x ?_
      have hle : base t.state.2 x + _ ≤ t.state.1.ref x := hI.1.1.le_ref p₀ x
      have hbase := hx.one_le_base
      omega

/-- A machine with two processes, right after boot. -/
def bootState : Cache × Tables (Fin 2) (Fin ninode) where
  fst := ⟨fun b => decide (b < 59), fun _ _ => 0,
    fun i => .new (if i = rootino then .dir else .free),
    fun x => ⟨rootino, if x = 0 then 1 else 0, false, false, .new .dir⟩⟩
  snd := ⟨fun p => if p.val = 0 then ⟨.running, some 0, true, fun _ => none⟩ else .empty .unused,
    fun _ => ⟨.none, 0, false, false, 0⟩, fun _ => ⟨false, false, 0⟩, 0⟩

theorem booted_bootState : Booted 0 0 bootState where
  ref _ := rfl
  busy _ := rfl
  init := rfl
  others _ hp := if_neg (hp ∘ Fin.ext)
  files _ := ⟨rfl, rfl⟩
  pipes _ := rfl
  npipe := rfl

/-- The superblock of that machine. -/
def bootSuper : Super := ⟨1000, by norm_num, 200, by norm_num, 58⟩

theorem bootState_calls :
    ∃ x, Reach (calls bootSuper (fun _ => true) fun _ => true) (fun _ _ => True) (.idle bootState)
        (.idle x) ∧
      x.1.ref 0 = 3 ∧ (x.2.file 0).ref = 3 ∧ (x.2.pipe 0).readopen = true ∧
        (x.1.dinode 2).type = .dir := by
  have hends : endsIn (calls bootSuper (fun _ => true) fun _ => true) (fun _ _ => True)
      [(0, .sysOpen [47] 0), (0, .sysDup 0), (0, .sysPipe true), (0, .fork 1 true),
        (1, .sysClose 0),
        (1, .sysMkdir [100])] bootState (fun x => decide (x.1.ref 0 = 3 ∧ (x.2.file 0).ref = 3 ∧
          (x.2.pipe 0).readopen = true ∧ (x.1.dinode 2).type = .dir)) = true := by decide +kernel
  obtain ⟨x, hr, hx⟩ := Reach.of_endsIn (fun _ => trivial) hends
  exact ⟨x, hr, of_decide_eq_true hx⟩

/-- Two processes have the root as their current directory, and one file is open on it. -/
theorem inode_refs_exact_fork :
    ∃ x, Reach (calls bootSuper (fun _ => true) fun _ => true) (fun _ _ => True) (.idle bootState)
        (.idle x) ∧
      x.1.ref 0 = 3 ∧ (x.2.filesAt 0).card + (x.2.cwdsAt 0).card = 3 := by
  obtain ⟨x, hr, href, -⟩ := bootState_calls
  have hcount := ((inode_refs_exact booted_bootState hr).2.1 (fun _ => rfl) 0).1
  exact ⟨x, hr, href, hcount.symm.trans href⟩

/-- **Files and pipe ends are counted exactly.** If no call is in progress, the reference count of a
file is the number of descriptors that point to it, an end of a pipe is open if and only if it has a
file in use, and the page of a pipe that has been made has been freed once if both ends are closed
and not at all otherwise. At no time has it been freed twice, or with an end open. -/
theorem file_refs_exact (h : Booted p₀ root s)
    (hr : Reach (calls sb devread devwrite) (fun _ _ => True) (.idle s) t) :
    ((∀ p, t.Ready p) →
      (∀ f, (t.state.2.file f).ref =
        ∑ p, (Finset.univ.filter fun fd => (t.state.2.proc p).ofile fd = some f).card) ∧
      (∀ r, (t.state.2.pipe r).readopen = true ↔ ∃ f, 0 < (t.state.2.file f).ref ∧
        (t.state.2.file f).type = .pipe r ∧ (t.state.2.file f).writable = false) ∧
      (∀ r, (t.state.2.pipe r).writeopen = true ↔ ∃ f, 0 < (t.state.2.file f).ref ∧
        (t.state.2.file f).type = .pipe r ∧ (t.state.2.file f).writable = true) ∧
      ∀ r, r < t.state.2.npipe → (t.state.2.pipe r).freed =
        if (t.state.2.pipe r).closed = true then 1 else 0) ∧
    ∀ r, (t.state.2.pipe r).freed ≤ if (t.state.2.pipe r).closed = true then 1 else 0 := by
  obtain ⟨g, hI, hg⟩ := h.reach hr
  refine ⟨fun hready => ?_, fun r => ?_⟩
  · have hidle : ∀ p, Idle (g p).1 := fun p => (Verified.idle hg (hready p)).2
    refine ⟨fun f => ?_, fun r => hI.open_iff hidle r false, fun r => hI.open_iff hidle r true,
      fun r hr => ?_⟩
    · rw [hI.file_ref_eq hidle f]
      simp [Tab.count, sum_boole]
    · have hpages := hI.tabInv.pipes.pages r
      have hzero : ∑ q, pagesOf r (g q).1 = 0 := sum_eq_zero fun q _ => by
        cases hq : (g q).1 with
        | none => rfl
        | some b => exact (hidle q b hq).pages r
      rw [hzero, Nat.add_zero] at hpages
      simpa [hr] using hpages
  · have hpages : (t.state.2.pipe r).freed + ∑ q, pagesOf r (g q).1 = _ :=
      hI.tabInv.pipes.pages r
    by_cases hclosed : (t.state.2.pipe r).closed = true
    · rw [if_pos hclosed]
      split_ifs at hpages <;> omega
    · rw [if_neg fun hboth => hclosed hboth.2] at hpages
      rw [if_neg hclosed]
      omega

/-- Three descriptors point to the file, and there is a pipe that can be read. -/
theorem file_refs_exact_pipe :
    ∃ x, Reach (calls bootSuper (fun _ => true) fun _ => true) (fun _ _ => True) (.idle bootState)
        (.idle x) ∧
      ∑ p, (Finset.univ.filter fun fd => (x.2.proc p).ofile fd = some 0).card = 3 ∧
      ∃ f, 0 < (x.2.file f).ref ∧ (x.2.file f).type = .pipe 0 ∧ (x.2.file f).writable = false := by
  obtain ⟨x, hr, -, href, hopen, -⟩ := bootState_calls
  obtain ⟨hfiles, hread, -⟩ := (file_refs_exact booted_bootState hr).1 fun _ => rfl
  exact ⟨x, hr, (hfiles 0).symm.trans href, (hread 0).mp hopen⟩

/-- **Counts and locks never panic**: no call finds a file or an inode that it uses without a
reference, or unlocks what is not locked. -/
theorem counts_never_panic (h : Booted p₀ root s)
    (hr : Reach (calls sb devread devwrite) (fun _ _ => True) (.idle s) t) (m : Move ι (Syscall ι))
    {e : Panic} (he : e ∈ [.ilock, .iunlock, .iputBusy, .filedup, .fileclose]) :
    t.move (calls sb devread devwrite) m ≠ .error (.panics e) := by
  intro hm
  have hloose : Loose e := (h.reach hr).panics hm
  fin_cases he <;> simp [Loose, Tolerated] at hloose

/-- A file is closed that has been opened and duplicated. -/
theorem counts_never_panic_dup :
    ∃ t, Reach (calls bootSuper (fun _ => true) fun _ => true) (fun _ _ => True)
      (.idle bootState) t ∧
      (t.state.2.file 0).ref = 1 ∧ t.move (calls bootSuper (fun _ => true) fun _ => true) (.go 1) ≠
        .error (.panics .fileclose) :=
  have hr := Reach.turns .refl [(0, some (.sysOpen [47] 0), 30), (0, some (.sysDup 0), 9),
    (0, some (.fork 1 true), 30), (0, some (.sysClose 0), 9), (0, some (.sysClose 1), 9),
    (1, some (.sysClose 0), 9), (1, some (.sysClose 1), 3)]
  ⟨_, hr, by decide +kernel, counts_never_panic booted_bootState hr _ (by simp)⟩

end Runs

end Xv6.Sysfile
