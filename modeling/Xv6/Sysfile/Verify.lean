import Xv6.Sysfile.Names

/-!
# Every system call keeps its accounts

What a call has after each of the functions that deal with descriptors, files, pipes and processes,
and what is left in the end. A call that is over has given back all that it had taken: it has the
references to files that its descriptors are, and no locks, no ends of pipes to close and no pages
to free.

## Main definitions

* `Busy.Done` — nothing is left to do

## Main results

* `fileclose_wp`, `sysOpen_wp`, `sysPipe_wp`, `fork_wp`, `exit_wp`
* `code_wp` — every system call ends with nothing left to do
* `syscalls_wp` — so do the programs that processes run, with any inodes that follow the rules
-/

namespace Xv6.Sysfile

open Fs Concurrent Function List Busy Call Hold

/-! ### Descriptors -/

section Count

variable {ι η : Type}

/-- With another file for the descriptor. -/
def Busy.setOfile (b : Busy ι η) (fd : Fin nofile) (f : Option (Fin nfile)) : Busy ι η :=
  { b with tab := { b.tab with ofile := update b.tab.ofile fd f } }

/-- With a file that has just been allocated. -/
def Busy.alloc (b : Busy ι η) (f : Fin nfile) : Busy ι η := (b.setFiles f 1).setBlank f true

/-- With one reference to the file less. -/
def Busy.close (b : Busy ι η) (f : Fin nfile) : Busy ι η :=
  (b.setFiles f (b.files f - 1)).setBlank f false

variable {b : Busy ι η} {f k : Fin nfile} {fd : Fin nofile} {o : Option (Fin nfile)}

theorem Busy.count_setOfile (b : Busy ι η) (fd : Fin nofile) (o : Option (Fin nfile))
    (k : Fin nfile) : (b.setOfile fd o).tab.count k + (if b.tab.ofile fd = some k then 1 else 0) =
      b.tab.count k + if o = some k then 1 else 0 :=
  sum_update (fun o : Option (Fin nfile) => if o = some k then 1 else 0) b.tab.ofile fd o

theorem Tab.one_le_count {x : Tab η} (h : x.ofile fd = some f) : 1 ≤ x.count f := by
  have hle := Finset.single_le_sum (f := fun fd => if x.ofile fd = some f then 1 else 0)
    (fun _ _ => Nat.zero_le _) (Finset.mem_univ fd)
  simp only [h, if_true] at hle
  exact hle

/-- How many of the given descriptors point to the file. -/
def Tab.among (x : Tab η) (fds : List (Fin nofile)) (f : Fin nfile) : ℕ :=
  (fds.map fun fd => if x.ofile fd = some f then 1 else 0).sum

theorem Tab.among_cons (x : Tab η) (fd : Fin nofile) (fds : List (Fin nofile)) (f : Fin nfile) :
    x.among (fd :: fds) f = (if x.ofile fd = some f then 1 else 0) + x.among fds f := by
  simp [Tab.among]

theorem Tab.among_finRange (x : Tab η) (f : Fin nfile) :
    x.among (List.finRange nofile) f = x.count f := by
  rw [Tab.count, Tab.among, ← ofFn_eq_map, sum_ofFn]

theorem Busy.among_setOfile {fds : List (Fin nofile)} (h : fd ∉ fds) (f : Fin nfile) :
    (b.setOfile fd o).tab.among fds f = b.tab.among fds f := by
  refine congrArg List.sum (map_congr_left fun fd' hfd' => ?_)
  have hne : fd' ≠ fd := by
    rintro rfl
    exact h hfd'
  rw [show (b.setOfile fd o).tab.ofile fd' = b.tab.ofile fd' from update_of_ne hne ..]

namespace Busy

theorem setBlank_eq_self {v : Bool} (h : b.blank f = v) : b.setBlank f v = b := by
  simp [setBlank, ← h]

theorem setEnds_eq_self {r : ℕ} {w : Bool} : b.setEnds r w (b.ends r w) = b := by
  simp [setEnds]

theorem setPages_eq_self {r : ℕ} : b.setPages r (b.pages r) = b := by
  simp [setPages]

theorem setEnds_setEnds {r m n : ℕ} {w : Bool} :
    (b.setEnds r w m).setEnds r w n = b.setEnds r w n := by
  simp [setEnds]

theorem setPages_setPages {r m n : ℕ} : (b.setPages r m).setPages r n = b.setPages r n := by
  simp [setPages]

theorem close_alloc (hfiles : b.files f = 0) (hblank : b.blank f = false) :
    (b.alloc f).close f = b := by
  simp [alloc, close, setFiles, setBlank, ← hfiles, ← hblank]

theorem close_setFiles (hfiles : b.files f = 0) (hblank : b.blank f = false) :
    (b.setFiles f 1).close f = b := by
  simp [close, setFiles, setBlank, ← hfiles, ← hblank]

theorem setOfile_undo (h : b.tab.ofile fd = none) : (b.setOfile fd o).setOfile fd none = b := by
  simp [setOfile, ← h]

theorem alloc_comm (h : f ≠ k) : (b.alloc f).alloc k = (b.alloc k).alloc f := by
  simp [alloc, setFiles, setBlank, update_comm h]

theorem setFiles_comm (h : f ≠ k) {m n : ℕ} :
    (b.setFiles f m).setFiles k n = (b.setFiles k n).setFiles f m := by
  simp [setFiles, update_comm h]

end Busy

end Count

variable {ι η : Type} [DecidableEq ι] [DecidableEq η] {mem w : Bool} {fds : List (Fin nofile)}
  {m r : ℕ}

/-! ### Operations on the tables -/

section Ask

variable {b : Busy ι η} {f : Fin nfile} {fd : Fin nofile} {r : ℕ} {w : Bool} {np : ι}

theorem wp_ofile {Q : Option (Fin nfile) → Post ι η}
    (hQ : Q (b.tab.ofile fd) (some b)) : (Sys.ofile fd).wp sysRules Q (some b) := hQ

theorem wp_setOfile {Q : Unit → Post ι η} {o : Option (Fin nfile)}
    (hQ : Q () (some (b.setOfile fd o))) : (Sys.setOfile fd o).wp sysRules Q (some b) := hQ

theorem wp_filealloc {Q : Option (Fin nfile) → Post ι η} (hnone : Q none (some b))
    (hsome : ∀ f, b.files f = 0 → Q (some f) (some (b.alloc f))) :
    Sys.filealloc.wp sysRules Q (some b) := And.intro hnone hsome

theorem wp_filedup {Q : Unit → Post ι η} (hfiles : 1 ≤ b.files f)
    (hblank : b.blank f = false) (hQ : Q () (some (b.setFiles f (b.files f + 1)))) :
    (Sys.filedup f).wp sysRules Q (some b) := And.intro hfiles ⟨hblank, hQ⟩

theorem wp_fileput {Q : Option (File η) → Post ι η} (hfiles : 1 ≤ b.files f) (hseen : b.seen = none)
    (hnone : b.blank f = false → Q none (some (b.setFiles f (b.files f - 1))))
    (hsome : ∀ ff : File η, b.files f = 1 →
      Q (some ff) (some (((b.setFiles f 0).setBlank f false).gain ff.type ff.writable))) :
    (Sys.fileput f).wp sysRules Q (some b) :=
  And.intro hfiles ⟨hseen, hnone, fun ff hone _ => hsome ff hone⟩

theorem wp_file {Q : File η → Post ι η} (hfiles : 1 ≤ b.files f)
    (hseen : b.seen = none) (hother : ∀ ff, (∀ x, ff.type ≠ .inode x) → Q ff (some b))
    (hinode : ∀ ff x, ff.type = .inode x → Q ff (some { b with seen := some (f, x) })) :
    (Sys.file f).wp sysRules Q (some b) := And.intro hfiles (.inl ⟨hseen, hother, hinode⟩)

theorem wp_file_again {Q : File η → Post ι η} {x : η} (hfiles : 1 ≤ b.files f)
    (hseen : b.seen = some (f, x)) (hQ : ∀ ff, Q ff (some b)) :
    (Sys.file f).wp sysRules Q (some b) := And.intro hfiles (.inr ⟨x, hseen, hQ⟩)

theorem wp_setFile {Q : Unit → Post ι η} {type : FdType η} {v : Bool}
    (hblank : b.blank f = true) (hseen : b.seen = none)
    (hpipe : ∀ r, type = .pipe r → 1 ≤ b.ends r w) (hinode : ∀ x, type = .inode x → b.hold.Spare x)
    (hQ : Q () (some ((b.setBlank f false).lose type w))) :
    (Sys.setFile f type v w).wp sysRules Q (some b) :=
  And.intro hblank ⟨hseen, hpipe, hinode, hQ⟩

theorem wp_setOff {Q : Unit → Post ι η} {off : UInt32} (hQ : Q () (some b)) :
    (Sys.setOff f off).wp sysRules Q (some b) := hQ

theorem wp_dropCwd {Q : Option η → Post ι η} (hheld : b.tab.held = true)
    (hQ : Q b.tab.cwd (some { b with
      tab := { b.tab with held := false }, hold := b.hold.takeAll b.tab.cwd })) :
    Sys.dropCwd.wp sysRules Q (some b) := And.intro hheld hQ

theorem wp_setCwd {Q : Unit → Post ι η} {ip : Option η}
    (hheld : b.tab.held = false) (hip : ∀ x, ip = some x → b.hold.Spare x) (hQ : Q () (some { b with
      tab := { b.tab with cwd := ip, held := ip.isSome }, hold := b.hold.dropAll ip })) :
    (Sys.setCwd ip).wp sysRules Q (some b) := And.intro hheld ⟨hip, hQ⟩

theorem wp_allocproc {Q : Bool → Post ι η} (hchild : b.child = none)
    (hfalse : Q false (some b)) (htrue : Q true (some { b with child := some np })) :
    (Sys.allocproc np).wp sysRules Q (some b) := And.intro hchild ⟨hfalse, htrue⟩

theorem wp_unalloc {Q : Unit → Post ι η} (hchild : b.child = some np)
    (hQ : Q () (some { b with child := none })) : (Sys.unalloc np).wp sysRules Q (some b) :=
  And.intro hchild hQ

theorem wp_runnable {Q : Unit → Post ι η} (hchild : b.child = some np)
    (hheld : b.tab.held = true) (hseen : b.seen = none) (hfiles : ∀ f, b.tab.count f ≤ b.files f)
    (hblank : ∀ f, b.blank f = false) (hcwd : ∀ x, b.tab.cwd = some x → b.hold.Spare x)
    (hQ : Q () (some { b with
      child := none, files := fun f => b.files f - b.tab.count f
      hold := b.hold.dropAll b.tab.cwd })) : (Sys.runnable np).wp sysRules Q (some b) :=
  And.intro hchild ⟨hheld, hseen, hfiles, hblank, hcwd, hQ⟩

end Ask

/-! ### Closing -/

section Close

variable {b : Busy ι η} {f : Fin nfile}

theorem kfree_wp {Q : Unit → Post ι η} (hQ : Q () (some b)) :
    (Sys.kfree r).wp sysRules Q (some (b.setPages r (b.pages r + 1))) := by
  refine And.intro (by simp) ?_
  rw [setPages_setPages, setPages_self, Nat.add_sub_cancel, setPages_eq_self]
  exact hQ

theorem pipeclose_wp {Q : Unit → Post ι η} (hQ : Q () (some b)) :
    (Sys.pipeclose r w).wp sysRules Q (some (b.setEnds r w (b.ends r w + 1))) := by
  have hend : (b.setEnds r w (b.ends r w + 1)).setEnds r w
      ((b.setEnds r w (b.ends r w + 1)).ends r w - 1) = b := by
    rw [setEnds_setEnds, setEnds_self, Nat.add_sub_cancel, setEnds_eq_self]
  rw [Sys.pipeclose, wp_bind]
  refine And.intro (by simp) ⟨?_, ?_⟩
  · rw [hend]
    exact hQ
  · rw [hend]
    exact kfree_wp hQ

/-- **Closing a file.** -/
theorem fileclose_wp {Q : Unit → Post ι η} (hfirm : b.hold.Firm)
    (hfiles : 1 ≤ b.files f) (hseen : b.seen = none) (hQ : Q () (some (b.close f))) :
    (Sys.fileclose f).wp sysRules Q (some b) := by
  rw [Sys.fileclose, wp_bind]
  refine wp_fileput hfiles hseen (fun hblank => ?_) fun ff hone => ?_
  · have hclose : b.setFiles f (b.files f - 1) = b.close f :=
      (setBlank_eq_self (b := b.setFiles f (b.files f - 1)) hblank).symm
    exact hclose ▸ hQ
  · have hclose : (b.setFiles f 0).setBlank f false = b.close f := by
      rw [close, hone]
    rw [hclose]
    dsimp only
    cases ff.type with
    | none => exact hQ
    | pipe r => exact pipeclose_wp hQ
    | inode x =>
      refine wp_iput (b := b.close f) (Hold.Firm.spare hfirm) ?_
      rw [Hold.drop_take]
      exact hQ

theorem closeAll_wp {Q : Unit → Post ι η} (fs : List (Fin nfile))
    (hfirm : b.hold.Firm) (hfiles : ∀ f ∈ fs, 1 ≤ b.files f) (hnodup : fs.Nodup)
    (hseen : b.seen = none) (hQ : Q () (some (fs.foldl close b))) :
    (Sys.closeAll fs).wp sysRules Q (some b) := by
  induction fs generalizing b with
  | nil => exact hQ
  | cons f fs ih =>
    rw [Sys.closeAll, wp_bind]
    refine fileclose_wp hfirm (hfiles f (by simp)) hseen (ih hfirm (fun k hk => ?_) ?_ hseen hQ)
    · have hkf : k ≠ f := by
        rintro rfl
        exact (nodup_cons.mp hnodup).1 hk
      rw [close]
      exact (setFiles_of_ne hkf).symm ▸ hfiles k (by simp [hk])
    · exact (nodup_cons.mp hnodup).2

end Close

/-! ### The end of a call -/

section Done

omit [DecidableEq ι] [DecidableEq η]

/-- Nothing is left to do but for the references to files. -/
structure Busy.Clear (b : Busy ι η) : Prop where
  blank : ∀ f, b.blank f = false
  ends : ∀ r w, b.ends r w = 0
  pages : ∀ r, b.pages r = 0
  child : b.child = none
  hold : b.hold = .empty
  held : b.tab.held = true

/-- Nothing is left to do: the references to files are the descriptors. -/
structure Busy.Done (b : Busy ι η) : Prop extends b.Clear where
  files : ∀ f, b.files f = b.tab.count f

theorem Hold.firm_empty : (empty : Hold η).Firm := fun _ h => absurd rfl h

variable {b : Busy ι η} {f : Fin nfile} {fd : Fin nofile}

theorem Busy.Clear.firm (h : b.Clear) : b.hold.Firm := by
  rw [h.hold]
  exact firm_empty

theorem Busy.Done.one_le_files (h : b.Done) (hf : b.tab.ofile fd = some f) : 1 ≤ b.files f :=
  (h.files f).symm ▸ Tab.one_le_count hf

theorem Busy.Clear.at_empty (h : b.Clear) : b.at .empty = some b := by
  rw [← h.hold]

theorem Busy.Clear.close_eq (h : b.Clear) : b.close f = b.setFiles f (b.files f - 1) :=
  setBlank_eq_self (b := b.setFiles f (b.files f - 1)) (h.blank f)

theorem Busy.start_done {x : Tab η} (h : x.held = true) : (start x : Busy ι η).Done where
  blank _ := rfl
  ends _ _ := rfl
  pages _ := rfl
  child := rfl
  hold := rfl
  held := h
  files _ := rfl

theorem Busy.Done.openFd (h : b.Done) (hfd : b.tab.ofile fd = none) :
    ((b.setFiles f (b.files f + 1)).setOfile fd (some f)).Done where
  toClear := ⟨h.blank, h.ends, h.pages, h.child, h.hold, h.held⟩
  files k := by
    have hcount := (b.setFiles f (b.files f + 1)).count_setOfile fd (some f) k
    have hold := h.files k
    rw [show (b.setFiles f (b.files f + 1)).tab = b.tab from rfl, hfd] at hcount
    by_cases hk : k = f
    · subst hk
      rw [if_pos rfl, if_neg (by simp)] at hcount
      rw [show ((b.setFiles k (b.files k + 1)).setOfile fd (some k)).files k = b.files k + 1 from
        setFiles_self]
      omega
    · rw [if_neg (by simp), if_neg (by simpa using Ne.symm hk)] at hcount
      rw [show ((b.setFiles f (b.files f + 1)).setOfile fd (some f)).files k = b.files k from
        setFiles_of_ne hk]
      omega

theorem Busy.Done.closeFd (h : b.Done) (hfd : b.tab.ofile fd = some f) :
    ((b.setOfile fd none).setFiles f (b.files f - 1)).Done where
  toClear := ⟨h.blank, h.ends, h.pages, h.child, h.hold, h.held⟩
  files k := by
    have hcount := b.count_setOfile fd none k
    have hold := h.files k
    rw [hfd, if_neg (show (none : Option (Fin nfile)) ≠ some k by simp)] at hcount
    rw [show ((b.setOfile fd none).setFiles f (b.files f - 1)).tab =
      (b.setOfile fd none).tab from rfl]
    by_cases hk : k = f
    · subst hk
      rw [if_pos rfl] at hcount
      rw [setFiles_self]
      omega
    · rw [if_neg (by simp [Ne.symm hk])] at hcount
      rw [setFiles_of_ne hk, show (b.setOfile fd none).files = b.files from rfl]
      omega

end Done

section Calls

/-- Every end of a call is as it should be. -/
abbrev AnyEnd (Q : ℤ → Post ι η) : Prop := ∀ r b', b'.Done → Q r (some b')

variable {b : Busy ι η} {Q : ℤ → Post ι η} {R : Unit → Post ι η}

theorem putCwd_wp (hheld : b.tab.held = true)
    (hfirm : b.hold.Firm) (hR : R () (some { b with tab := { b.tab with held := false } })) :
    Sys.putCwd.wp sysRules R (some b) := by
  rw [Sys.putCwd, wp_bind]
  refine wp_dropCwd hheld ?_
  cases b.tab.cwd with
  | none => exact hR
  | some dp =>
    refine wp_iput (b := { b with tab := { b.tab with held := false } }) (x := dp) hfirm.spare ?_
    dsimp only [Hold.takeAll, Option.elim_some]
    rw [Hold.drop_take]
    exact hR

theorem sysChdir_wp {path : Name} (hb : b.Done) (hQ : AnyEnd Q) :
    (Sys.sysChdir path).wp sysRules Q (some b) := by
  rw [← hb.at_empty, Sys.sysChdir, wp_bind]
  have hfail : ∀ r, Q r (b.at .empty) := fun r => hb.at_empty ▸ hQ r b hb
  refine namei_wp hb.held firm_empty (hfail _) fun ip => ?_
  simp only [wp_bind]
  refine wp_ilock_take fun hip => wp_getType fun k => ?_
  split_ifs
  · exact iunlockput_bind_wp rfl (hfail _)
  · simp only [wp_bind]
    refine wp_iunlock (by simp) ?_
    rw [unlock_lock rfl]
    refine putCwd_wp hb.held firm_empty.take (wp_setCwd rfl (fun x hx => ?_) (hQ _ _ ?_))
    · cases hx
      exact firm_empty.spare
    · exact ⟨⟨hb.blank, hb.ends, hb.pages, hb.child, drop_take, rfl⟩, hb.files⟩

/-! Descriptors. -/

variable {f : Fin nfile}

theorem fdalloc_wp {R : Option (Fin nofile) → Post ι η} (hnone : R none (some b))
    (hsome : ∀ fd, b.tab.ofile fd = none → R (some fd) (some (b.setOfile fd (some f))))
    (fds : List (Fin nofile)) : (Sys.fdalloc f fds).wp sysRules R (some b) := by
  induction fds with
  | nil => exact hnone
  | cons fd fds ih =>
    rw [Sys.fdalloc, wp_bind]
    refine wp_ofile ?_
    cases hfd : b.tab.ofile fd with
    | none =>
      dsimp only
      rw [wp_bind]
      exact wp_setOfile (hsome fd hfd)
    | some k => exact ih

/-- **Opening a file.** -/
theorem sysOpen_wp {path : Name} {omode : ℕ} (hb : b.Done) (hseen : b.seen = none) (hQ : AnyEnd Q) :
    (Sys.sysOpen path omode).wp sysRules Q (some b) := by
  rw [← hb.at_empty, Sys.sysOpen, wp_bind]
  have hfail : ∀ r, Q r (b.at .empty) := fun r => hb.at_empty ▸ hQ r b hb
  refine openInode_wp hb.held firm_empty (hfail _) fun ip => ?_
  set m : Hold η := (empty.take ip).lock ip false with hm
  have hfirm : m.Firm := firm_empty.take.lock (by simp)
  rw [wp_bind]
  refine wp_filealloc (iunlockput_bind_wp rfl (hfail _)) fun f hf => ?_
  simp only [wp_bind]
  refine fdalloc_wp ?_ (fun fd hfd => ?_) _
  · rw [wp_bind]
    refine fileclose_wp hfirm setFiles_self.ge hseen ?_
    rw [close_alloc hf (hb.blank f)]
    exact iunlockput_bind_wp rfl (hfail _)
  · simp only [wp_bind]
    refine wp_iunlock (b := (b.alloc f).setOfile fd (some f)) (l := m) (by simp [hm]) ?_
    rw [hm, unlock_lock rfl]
    refine wp_setFile setBlank_self hseen (fun r hr => by cases hr) (fun x hx => ?_) (hQ _ _ ?_)
    · cases hx
      exact firm_empty.spare
    · have hopen := hb.openFd (f := f) hfd
      rw [show b.files f = 0 from hf] at hopen
      have hblank : update b.blank f false = b.blank := by
        rw [← hb.blank f, update_eq_self]
      simpa [lose, setBlank, setOfile, alloc, setFiles, hblank, Hold.drop_take, hb.hold] using hopen

variable {fd : ℤ}

theorem argfd_wp {R : Option (Fin nofile × Fin nfile) → Post ι η} (hnone : R none (some b))
    (hsome : ∀ fd f, b.tab.ofile fd = some f → R (some (fd, f)) (some b)) :
    (Sys.argfd fd).wp sysRules R (some b) := by
  rw [Sys.argfd]
  split_ifs with hfd
  · rw [wp_bind]
    refine wp_ofile ?_
    generalize (⟨fd.toNat, _⟩ : Fin nofile) = fd'
    cases hf : b.tab.ofile fd' with
    | none => exact hnone
    | some f => exact hsome fd' f hf
  · exact hnone

theorem sysDup_wp (hb : b.Done) (hQ : AnyEnd Q) : (Sys.sysDup fd).wp sysRules Q (some b) := by
  rw [Sys.sysDup, wp_bind]
  refine argfd_wp (hQ _ b hb) fun fd f hf => ?_
  simp only [wp_bind]
  refine fdalloc_wp (hQ _ b hb) (fun fd' hfd' => ?_) _
  simp only [wp_bind]
  exact wp_filedup (hb.one_le_files hf) (hb.blank f) (hQ _ _ (hb.openFd hfd'))

theorem sysClose_wp (hb : b.Done) (hseen : b.seen = none)
    (hQ : AnyEnd Q) : (Sys.sysClose fd).wp sysRules Q (some b) := by
  rw [Sys.sysClose, wp_bind]
  refine argfd_wp (hQ _ b hb) fun fd f hf => ?_
  simp only [wp_bind]
  have hclear : (b.setOfile fd none).Clear :=
    ⟨hb.blank, hb.ends, hb.pages, hb.child, hb.hold, hb.held⟩
  refine wp_setOfile (fileclose_wp hclear.firm (hb.one_le_files hf) hseen ?_)
  rw [hclear.close_eq]
  exact hQ _ _ (hb.closeFd hf)

/-! Transfers. -/

/-- A process uses a file of an inode. -/
def Busy.see (b : Busy ι η) (f : Fin nfile) (x : η) : Busy ι η := { b with seen := some (f, x) }

omit [DecidableEq ι] [DecidableEq η] in
theorem Busy.Done.see {x : η} (hb : b.Done) : (b.see f x).Done :=
  ⟨⟨hb.blank, hb.ends, hb.pages, hb.child, hb.hold, hb.held⟩, hb.files⟩

omit [DecidableEq ι] [DecidableEq η] in
theorem Busy.leases_see {x : η} : (b.see f x).leases x := .inr ⟨f, rfl⟩

theorem wp_file_see {R : File η → Post ι η} (hb : b.Done)
    (hseen : b.seen = none) (hf : 1 ≤ b.files f)
    (hother : ∀ ff, (∀ x, ff.type ≠ .inode x) → R ff (some b))
    (hinode : ∀ ff x, ff.type = .inode x → R ff ((b.see f x).at .empty)) :
    (Sys.file f).wp sysRules R (some b) :=
  wp_file hf hseen hother fun ff x hx => (hb.see (f := f) (x := x)).at_empty ▸ hinode ff x hx

theorem withFile_wp {k : Fin nfile → Sys ι η ℤ} (hb : b.Done) (hfail : Q (-1) (some b))
    (hk : ∀ f, 1 ≤ b.files f → (k f).wp sysRules Q (some b)) :
    (Sys.withFile fd k).wp sysRules Q (some b) := by
  rw [Sys.withFile, wp_bind]
  exact argfd_wp hfail fun fd f hf => hk f (hb.one_le_files hf)

theorem filestat_wp (hb : b.Done) (hseen : b.seen = none) (hf : 1 ≤ b.files f)
    (hQ : AnyEnd Q) : (Sys.filestat f).wp sysRules Q (some b) := by
  rw [Sys.filestat, wp_bind]
  refine wp_file_see hb hseen hf (fun ff hff => ?_) fun ff x hx => ?_
  · cases htype : ff.type with
    | none => exact hQ _ b hb
    | pipe r => exact hQ _ b hb
    | inode x => exact absurd htype (hff x)
  · simp only [hx, wp_bind]
    refine wp_ilock (.inr leases_see) fun _ => wp_iunlock (by simp) ?_
    rw [unlock_lock rfl, hb.see.at_empty]
    exact hQ _ _ hb.see

theorem setOff_wp {α : Type} {R : α → Post ι η} {x : η} {off : UInt32}
    {k : Sys ι η α} (hk : k.wp sysRules R (b.at .empty)) :
    (Sys.setOff f off >>= fun _ => Sys.iunlock x >>= fun _ => k).wp sysRules R
      (b.at (empty.lock x false)) := by
  simp only [wp_bind]
  refine wp_setOff (wp_iunlock (by simp) ?_)
  rwa [unlock_lock rfl]

theorem fileread_wp {n got : UInt32} (hb : b.Done) (hseen : b.seen = none)
    (hf : 1 ≤ b.files f) (hQ : AnyEnd Q) : (Sys.fileread f n got).wp sysRules Q (some b) := by
  rw [Sys.fileread, wp_bind]
  refine wp_file_see hb hseen hf (fun ff hff => ?_) fun ff x hx => ?_
  · split_ifs
    · exact hQ _ b hb
    · cases htype : ff.type with
      | none => exact wp_panic (l := b.hold) (by decide)
      | pipe r => exact hQ _ b hb
      | inode x => exact absurd htype (hff x)
  · have hend : ∀ r, Q r ((b.see f x).at .empty) := fun r => by
      rw [hb.see.at_empty]
      exact hQ r _ hb.see
    split_ifs
    · exact hend _
    · simp only [hx, wp_bind]
      refine wp_ilock (.inr leases_see) fun _ => wp_file_again hf rfl fun y =>
        wp_readi (by simp) fun r => ?_
      cases r with
      | fail =>
        simp only [wp_bind]
        refine wp_iunlock (by simp) ?_
        rw [unlock_lock rfl]
        exact hend _
      | device =>
        refine relock_wp (.inr leases_see) (by simp) ?_
        rw [wp_bind]
        exact wp_file_again hf rfl fun _ => setOff_wp (hend _)
      | done r bytes => exact setOff_wp (hend _)

theorem filewriteLoop_wp {R : Bool → Post ι η} {x : η}
    (hf : 1 ≤ b.files f) (hR : ∀ ok, R ok ((b.see f x).at .empty)) (k : ℕ) (src : List UInt8) :
    (Sys.filewriteLoop f x k src).wp sysRules R ((b.see f x).at .empty) := by
  induction k generalizing src with
  | zero => exact hR _
  | succ k ih =>
    rw [Sys.filewriteLoop]
    split_ifs
    · exact hR _
    · simp only [wp_bind]
      refine wp_ilock (.inr leases_see) fun _ => wp_file_again hf rfl fun y =>
        wp_writei (by simp) fun r => ?_
      cases r with
      | fail =>
        simp only [wp_bind]
        refine wp_iunlock (by simp) ?_
        rw [unlock_lock rfl]
        exact hR _
      | device =>
        refine relock_wp (.inr leases_see) (by simp) ?_
        rw [wp_bind]
        exact wp_file_again hf rfl fun _ => setOff_wp (ih _)
      | done r u =>
        refine setOff_wp ?_
        split_ifs
        · rw [wp_bind]
          exact wp_panic (by decide)
        · exact ih _

theorem filewrite_wp {src : List UInt8} (hb : b.Done) (hseen : b.seen = none)
    (hf : 1 ≤ b.files f) (hQ : AnyEnd Q) : (Sys.filewrite f src).wp sysRules Q (some b) := by
  rw [Sys.filewrite, wp_bind]
  refine wp_file_see hb hseen hf (fun ff hff => ?_) fun ff x hx => ?_
  · split_ifs
    · exact hQ _ b hb
    · cases htype : ff.type with
      | none => exact wp_panic (l := b.hold) (by decide)
      | pipe r => exact hQ _ b hb
      | inode x => exact absurd htype (hff x)
  · have hend : ∀ r, Q r ((b.see f x).at .empty) := fun r => by
      rw [hb.see.at_empty]
      exact hQ r _ hb.see
    split_ifs
    · exact hend _
    · simp only [hx, wp_bind]
      refine filewriteLoop_wp hf (fun ok => ?_) _ _
      cases ok <;> exact hend _

/-! Pipes. -/

omit [DecidableEq ι] in
theorem Busy.Clear.made_pipe (hb : b.Clear) {f0 f1 : Fin nfile} {p : ℕ} (hne : f0 ≠ f1) :
    ((((((((b.alloc f0).alloc f1).setEnds p false 1).setEnds p true 1).setBlank f0 false).lose
      (.pipe p) false).setBlank f1 false).lose (.pipe p) true) =
        (b.setFiles f0 1).setFiles f1 1 := by
  refine Busy.ext rfl rfl ?_ rfl ?_ rfl rfl rfl
  · funext k
    by_cases hk1 : k = f1
    · subst hk1
      exact setBlank_self.trans (hb.blank k).symm
    · by_cases hk0 : k = f0
      · subst hk0
        simp [setEnds, setBlank, setFiles, lose, hk1, hb.blank]
      · simp [setEnds, setBlank, setFiles, lose, alloc, hk0, hk1]
  · funext r w
    by_cases hr : r = p
    · subst hr
      cases w <;> simp [setEnds, setBlank, setFiles, lose, hb.ends]
    · simp [setEnds, setBlank, setFiles, lose, alloc, hr]

/-- **Making a pipe**: two files with a reference each, or nothing. -/
theorem pipealloc_wp {R : Option (Fin nfile × Fin nfile) → Post ι η} (hb : b.Clear)
    (hseen : b.seen = none) (hnone : R none (some b))
    (hsome : ∀ rf wf, rf ≠ wf → b.files rf = 0 → b.files wf = 0 →
      R (some (rf, wf)) (some ((b.setFiles rf 1).setFiles wf 1))) :
    (Sys.pipealloc mem).wp sysRules R (some b) := by
  rw [Sys.pipealloc, wp_bind]
  refine wp_filealloc hnone fun f0 hf0 => ?_
  simp only [wp_bind]
  refine wp_filealloc ?_ fun f1 hf1 => ?_
  · simp only [wp_bind]
    refine closeAll_wp [f0] hb.firm (fun f hf => ?_) (nodup_singleton _) hseen ?_
    · rw [mem_singleton.mp hf]
      exact setFiles_self.ge
    · rw [foldl_cons, foldl_nil, close_alloc hf0 (hb.blank f0)]
      exact hnone
  · have hne : f0 ≠ f1 := by
      rintro rfl
      have hself : (b.alloc f0).files f0 = 1 := setFiles_self
      omega
    have hf1' : b.files f1 = 0 := (setFiles_of_ne (Ne.symm hne)).symm.trans hf1
    dsimp only
    split_ifs
    · simp only [wp_bind]
      refine closeAll_wp [f0, f1] hb.firm (fun f hf => ?_) (by simpa using hne) hseen ?_
      · rcases mem_pair.mp hf with rfl | rfl
        · exact (setFiles_of_ne hne).trans setFiles_self |>.ge
        · exact setFiles_self.ge
      · rw [foldl_cons, foldl_cons, foldl_nil, alloc_comm hne,
          close_alloc, close_alloc hf1' (hb.blank f1)]
        · exact hnone
        · exact (setFiles_of_ne hne).trans hf0
        · exact (setBlank_of_ne hne).trans (hb.blank f0)
    · simp only [wp_bind]
      intro p hread hwrite
      refine wp_setFile ?_ hseen (fun r hr => ?_) (fun x hx => by cases hx) ?_
      · exact (setBlank_of_ne hne).trans setBlank_self
      · cases hr
        simp [setEnds]
      refine wp_setFile ?_ hseen (fun r hr => ?_) (fun x hx => by cases hx) ?_
      · exact (setBlank_of_ne (Ne.symm hne)).trans setBlank_self
      · cases hr
        simp [setEnds, setBlank, lose]
      rw [hb.made_pipe hne]
      exact hsome f0 f1 hne hf0 hf1'

/-- **A pipe with two descriptors**, or nothing. -/
theorem sysPipe_wp (hb : b.Done) (hseen : b.seen = none) (hQ : AnyEnd Q) :
    (Sys.sysPipe mem).wp sysRules Q (some b) := by
  rw [Sys.sysPipe, wp_bind]
  refine pipealloc_wp hb.toClear hseen (hQ _ b hb) fun rf wf hne hrf hwf => ?_
  -- closing both files leaves what there was before
  have hclose : ∀ {R : Unit → Post ι η}, R () (some b) →
      (Sys.closeAll [rf, wf]).wp sysRules R (some ((b.setFiles rf 1).setFiles wf 1)) := by
    intro R hR
    refine closeAll_wp [rf, wf] hb.firm (fun f hf => ?_) (by simpa using hne) hseen ?_
    · rcases mem_pair.mp hf with rfl | rfl
      · exact (setFiles_of_ne hne).trans setFiles_self |>.ge
      · exact setFiles_self.ge
    · have hrf' : (b.setFiles wf 1).files rf = 0 := (setFiles_of_ne hne).trans hrf
      rw [foldl_cons, foldl_cons, foldl_nil, setFiles_comm hne,
        close_setFiles hrf' (hb.blank rf), close_setFiles hwf (hb.blank wf)]
      exact hR
  simp only [wp_bind]
  refine fdalloc_wp ?_ (fun fd0 hfd0 => ?_) _
  · simp only [wp_bind]
    exact hclose (hQ _ b hb)
  simp only [wp_bind]
  have hopen := hb.openFd (f := rf) hfd0
  rw [hrf] at hopen
  refine fdalloc_wp ?_ (fun fd1 hfd1 => ?_) _
  · simp only [wp_bind]
    refine wp_setOfile ?_
    rw [setOfile_undo hfd0]
    exact hclose (hQ _ b hb)
  · have hopen' := hopen.openFd (f := wf) hfd1
    have hfiles : ((b.setFiles rf 1).setOfile fd0 (some rf)).files wf = 0 :=
      (setFiles_of_ne (Ne.symm hne)).trans hwf
    rw [hfiles] at hopen'
    exact hQ _ _ hopen'

/-! Processes. -/

/-- With a reference more for each of the descriptors. -/
def Busy.dup (b : Busy ι η) (fds : List (Fin nofile)) : Busy ι η :=
  { b with files := fun f => b.files f + b.tab.among fds f }

omit [DecidableEq ι] [DecidableEq η] in
theorem Busy.dup_cons_none {fd : Fin nofile} (h : b.tab.ofile fd = none) :
    b.dup (fd :: fds) = b.dup fds := by
  simp only [dup, Tab.among_cons, h, reduceCtorEq, if_false, Nat.zero_add]

omit [DecidableEq ι] [DecidableEq η] in
theorem Busy.dup_cons_some {fd : Fin nofile} (h : b.tab.ofile fd = some f) :
    b.dup (fd :: fds) = (b.setFiles f (b.files f + 1)).dup fds := by
  refine Busy.ext rfl (funext fun k => ?_) rfl rfl rfl rfl rfl rfl
  simp only [Busy.dup, Tab.among_cons, h]
  by_cases hk : k = f
  · subst hk
    rw [if_pos rfl, setFiles_self, show (b.setFiles k (b.files k + 1)).tab = b.tab from rfl]
    omega
  · rw [if_neg (by simpa using Ne.symm hk), setFiles_of_ne hk, Nat.zero_add]
    rfl

theorem dupFiles_wp (hblank : ∀ f, b.blank f = false)
    (fds : List (Fin nofile)) (hfiles : ∀ fd f, b.tab.ofile fd = some f → 1 ≤ b.files f)
    (hR : R () (some (b.dup fds))) : (Sys.dupFiles fds).wp sysRules R (some b) := by
  induction fds generalizing b with
  | nil => exact hR
  | cons fd fds ih =>
    rw [Sys.dupFiles, wp_bind]
    refine wp_ofile ?_
    cases hfd : b.tab.ofile fd with
    | none => exact ih hblank hfiles (dup_cons_none hfd ▸ hR)
    | some f =>
      dsimp only
      rw [wp_bind]
      refine wp_filedup (hfiles fd f hfd) (hblank f) (ih hblank (fun fd' k hk => ?_) ?_)
      · by_cases hkf : k = f
        · subst hkf
          rw [setFiles_self]
          omega
        · rw [setFiles_of_ne hkf]
          exact hfiles fd' k hk
      · exact dup_cons_some hfd ▸ hR

theorem dupCwd_wp (hheld : b.tab.held = true)
    (hR : R () (some { b with hold := b.hold.takeAll b.tab.cwd })) :
    Sys.dupCwd.wp sysRules R (some b) := by
  rw [Sys.dupCwd, wp_bind]
  refine wp_cwd (l := b.hold) ?_
  cases hcwd : b.tab.cwd with
  | none =>
    rw [hcwd] at hR
    exact hR
  | some dp =>
    rw [hcwd] at hR
    exact And.intro (.inr (.inl ⟨hheld, hcwd⟩)) hR

/-- The new process runs. Its references, which were there twice, are its own from now on. -/
theorem runnable_wp {np : ι} {n : Fin nfile → ℕ} (hb : b.Done) (hseen : b.seen = none)
    (hn : ∀ f, n f = b.tab.count f + b.tab.count f) (hQ : ∀ b', b'.Done → Q 0 (some b')) :
    Sys.dupCwd.wp sysRules (fun _ => (Sys.runnable np).wp sysRules fun _ => Q 0)
      (some { b with child := some np, files := n }) := by
  refine dupCwd_wp hb.held (wp_runnable rfl hb.held hseen (fun f => ?_) hb.blank (fun x hx => ?_)
    (hQ _ ?_))
  · exact (Nat.le_add_left _ _).trans (hn f).ge
  · rw [show b.tab.cwd = some x from hx, hb.hold]
    exact firm_empty.spare
  · refine ⟨⟨hb.blank, hb.ends, hb.pages, rfl, ?_, hb.held⟩, fun f => Nat.sub_eq_of_eq_add (hn f)⟩
    rw [hb.hold]
    cases b.tab.cwd with
    | none => rfl
    | some x => exact drop_take

/-- **A new process** with the same files and the same directory. -/
theorem fork_wp {np : ι} (hb : b.Done) (hseen : b.seen = none) (hQ : AnyEnd Q) :
    (Sys.fork np mem).wp sysRules Q (some b) := by
  rw [Sys.fork, wp_bind]
  refine wp_allocproc hb.child (hQ _ b hb) ?_
  rw [if_neg (by decide)]
  split_ifs
  · rw [wp_bind]
    refine wp_unalloc rfl (hQ _ _ ?_)
    exact ⟨⟨hb.blank, hb.ends, hb.pages, rfl, hb.hold, hb.held⟩, hb.files⟩
  · simp only [wp_bind]
    refine dupFiles_wp (b := { b with child := some np }) hb.blank _ (fun _ _ => hb.one_le_files) ?_
    have hn : ∀ f, b.files f + b.tab.among (List.finRange nofile) f =
        b.tab.count f + b.tab.count f := fun f => by rw [hb.files f, Tab.among_finRange]
    exact runnable_wp (b := b) hb hseen hn (hQ 0)

/-- The loop of `exit`. The references that are left are the descriptors that are left. -/
theorem exitLoop_wp (fds : List (Fin nofile))
    (hnodup : fds.Nodup) (hb : b.Clear) (hseen : b.seen = none)
    (hfiles : ∀ f, b.files f = b.tab.among fds f) (hout : ∀ fd, fd ∉ fds → b.tab.ofile fd = none)
    (hR : ∀ b' : Busy ι η, b'.Clear → (∀ f, b'.files f = 0) → (∀ fd, b'.tab.ofile fd = none) →
      R () (some b')) : (Sys.exitLoop fds).wp sysRules R (some b) := by
  induction fds generalizing b with
  | nil => exact hR b hb hfiles fun fd => hout fd (by simp)
  | cons fd fds ih =>
    obtain ⟨hfd, hnodup⟩ := nodup_cons.mp hnodup
    rw [Sys.exitLoop, wp_bind]
    refine wp_ofile ?_
    cases hf : b.tab.ofile fd with
    | none =>
      refine ih hnodup hb hseen (fun f => ?_) fun fd' hfd' => ?_
      · rw [hfiles f, Tab.among_cons, hf, if_neg (by simp), Nat.zero_add]
      · by_cases hne : fd' = fd
        · exact hne ▸ hf
        · exact hout fd' (by simp [hne, hfd'])
    | some f =>
      simp only [wp_bind]
      have hpos : 1 ≤ b.files f := by
        rw [hfiles f, Tab.among_cons, hf, if_pos rfl]
        omega
      refine fileclose_wp hb.firm hpos hseen (wp_setOfile ?_)
      rw [hb.close_eq]
      refine ih hnodup ⟨hb.blank, hb.ends, hb.pages, hb.child, hb.hold, hb.held⟩ hseen (fun k => ?_)
        fun fd' hfd' => ?_
      · rw [among_setOfile hfd]
        have hk := hfiles k
        rw [Tab.among_cons, hf] at hk
        by_cases hkf : k = f
        · subst hkf
          rw [if_pos rfl] at hk
          refine setFiles_self.trans ?_
          rw [hk, Nat.add_sub_cancel_left]
          rfl
        · rw [if_neg (by simpa using Ne.symm hkf), Nat.zero_add] at hk
          exact (setFiles_of_ne hkf).trans hk
      · by_cases hne : fd' = fd
        · subst hne
          exact update_self ..
        · exact (update_of_ne hne ..).trans (hout fd' (by simp [hne, hfd']))

/-- **The end of a process.** -/
theorem exit_wp (hb : b.Done) (hseen : b.seen = none)
    (hR : R () none) : Sys.exit.wp sysRules R (some b) := by
  simp only [Sys.exit, wp_bind]
  refine exitLoop_wp _ (nodup_finRange _) hb.toClear hseen (fun f => ?_)
    (fun fd hfd => absurd (mem_finRange fd) hfd) fun b' hclear hfiles hofile => ?_
  · rw [hb.files f, Tab.among_finRange]
  · refine putCwd_wp hclear.held hclear.firm (wp_setCwd rfl (fun x hx => by cases hx) ?_)
    exact And.intro rfl ⟨rfl, hofile, hfiles, hclear.ends, hclear.pages, hclear.hold, hR⟩

end Calls

/-! ### System calls -/

/-- Nothing is left to do for a process that is not in the middle of a call. -/
def Idle (l : Option (Busy ι η)) : Prop := ∀ b, l = some b → b.Done

theorem body_wp {b : Busy ι η} {Q : ℤ → Post ι η} (c : Syscall ι) (hb : b.Done)
    (hseen : b.seen = none) (hQ : AnyEnd Q) (hexit : ∀ r, Q r none) :
    c.body.wp sysRules Q (some b) := by
  have hempty : ∀ r, Q r (b.at .empty) := fun r => hb.at_empty ▸ hQ r b hb
  have hheld := hb.held
  cases c with
  | sysOpen path omode => exact sysOpen_wp hb hseen hQ
  | sysClose fd => exact sysClose_wp hb hseen hQ
  | sysDup fd => exact sysDup_wp hb hQ
  | sysRead fd n got =>
    exact withFile_wp hb (hQ _ b hb) fun f hf => fileread_wp hb hseen hf hQ
  | sysWrite fd src => exact withFile_wp hb (hQ _ b hb) fun f hf => filewrite_wp hb hseen hf hQ
  | sysFstat fd => exact withFile_wp hb (hQ _ b hb) fun f hf => filestat_wp hb hseen hf hQ
  | sysPipe mem => exact sysPipe_wp hb hseen hQ
  | sysLink old new => exact hb.at_empty ▸ sysLink_wp hheld firm_empty hempty
  | sysUnlink path => exact hb.at_empty ▸ sysUnlink_wp hheld firm_empty hempty
  | sysMkdir path =>
    exact hb.at_empty ▸ sysMake_wp hheld firm_empty (by decide) (fun _ => rfl) hempty
  | sysMknod path major minor =>
    exact hb.at_empty ▸ sysMake_wp hheld firm_empty (by decide) (fun _ => rfl) hempty
  | sysChdir path => exact sysChdir_wp hb hQ
  | exec path reads => exact hb.at_empty ▸ exec_wp hheld firm_empty hempty
  | fork np mem => exact fork_wp hb hseen hQ
  | exit =>
    rw [Syscall.body, wp_bind]
    exact exit_wp hb hseen (hexit 0)

/-- **Every system call ends with nothing left to do.** -/
theorem code_wp (c : Syscall ι) {l : Option (Busy ι η)} (hl : Idle l) :
    c.code.wp sysRules (fun _ => Idle) l := by
  have hdone : ∀ b : Busy ι η, b.Done → Idle (some b) := by
    rintro b hb b' h
    cases h
    exact hb
  have hbody : ∀ b : Busy ι η, b.Done → b.seen = none →
      (c.body >>= fun _ => ret ()).wp sysRules (fun _ => Idle) (some b) := by
    intro b hb hseen
    rw [wp_bind]
    exact body_wp c hb hseen (fun _ b' hb' => hdone b' hb') fun _ _ h => by cases h
  rw [Syscall.code, wp_bind]
  cases l with
  | none => exact And.intro hl fun x hx => hbody _ (start_done hx) rfl
  | some b =>
    have hb := hl b rfl
    refine And.intro (fun x => ?_) (hbody _ ?_ rfl)
    · rw [hb.hold]
      rfl
    · exact ⟨⟨hb.blank, hb.ends, hb.pages, hb.child, hb.hold, hb.held⟩, hb.files⟩

/-- **The programs of the processes are verified**, with any inodes that follow the rules. -/
theorem syscalls_wp [Fintype ι] {σ X : Type} (M : Implementation ι η σ X) (p : ι) (c : Syscall ι)
    (l : Option (Busy ι η) × X) (hl : l.2 = M.idle ∧ Idle l.1) :
    Wp (SysInv M) (contract M.ok M.guar).onFst p (syscalls M.code p c)
      (fun _ l => l.2 = M.idle ∧ Idle l.1) l := by
  obtain ⟨l, x⟩ := l
  obtain ⟨rfl, hl⟩ := hl
  exact Wp.runIdle (implement_rules M p) (code_wp c hl)

end Xv6.Sysfile
