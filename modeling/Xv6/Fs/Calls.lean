import Xv6.Fs.Names

/-!
# System calls on names

Every system call keeps the invariant, whatever the other processes do, and leaves the process with
nothing but the references of its current directory and open files.

## Main results

* `create_wp` — the calls that make something
* `syscalls_wp` — every system call
-/

namespace Xv6.Fs.Tree

open Concurrent Function Local Call Sys

/-! ### Making something -/

section Calls

variable {strict : Prop} {l : Local} {t : Tab} {v : Ino}

theorem WfDir.ne_dots {d : ℕ} {name : Name} (h : WfDir d v) (hd : d ≠ 0) (hp : v.parent ≠ some 0)
    (hno : ∀ e ∈ v.entries, e.inum ≠ 0 → e.name ≠ name) :
    name ≠ dot ∧ name ≠ dotdot := by
  obtain ⟨q, rest, hes, -⟩ := h
  rw [hes] at hno
  have hq : q ≠ 0 := by
    rintro rfl
    exact hp (by simp [Ino.parent, hes])
  exact ⟨Ne.symm (hno ⟨d, dot⟩ (by simp) hd), Ne.symm (hno ⟨q, dotdot⟩ (by simp) hq)⟩

theorem WfDir.two_le {d k : ℕ} (h : WfDir d v) (hd : d ≠ 0) (hp : v.parent ≠ some 0)
    (hempty : ∀ e, v.entries[k]? = some e → e.inum = 0) : 2 ≤ k := by
  obtain ⟨q, rest, hes, -⟩ := h
  rw [hes] at hempty
  match k with
  | 0 => exact absurd (hempty ⟨d, dot⟩ rfl) hd
  | 1 =>
    obtain rfl := hempty ⟨q, dotdot⟩ rfl
    exact absurd (by simp [Ino.parent, hes]) hp
  | k + 2 => omega

theorem WfDir.two_le_of_name {d k : ℕ} {e : Dirent} (h : WfDir d v) (he : v.entries[k]? = some e)
    (hname : ¬(e.name = dot ∨ e.name = dotdot)) : 2 ≤ k := by
  obtain ⟨q, rest, hes, -⟩ := h
  rw [hes] at he
  match k with
  | 0 =>
    obtain rfl : (⟨d, dot⟩ : Dirent) = e := by simpa using he
    exact absurd (.inl rfl) hname
  | 1 =>
    obtain rfl : (⟨q, dotdot⟩ : Dirent) = e := by simpa using he
    exact absurd (.inr rfl) hname
  | k + 2 => omega

/-- What a process has that has locked a directory `dp` and an inode `ip`, with `m` and `n` links
pending. -/
def both (l : Local) (dp ip : ℕ) (f : Option (ℕ × Kind)) (v w : Ino) (m n : ℕ) : Local :=
  ((((((l.take dp).lock dp v).setFresh f).take ip).lock ip w).setPend dp m).setPend ip n

section Both

variable {dp ip : ℕ} {f : Option (ℕ × Kind)} {type : Kind} {v v' w w' : Ino} {m n m' n' : ℕ}

theorem both_locks (x : ℕ) : (both l dp ip f v w m n).locks x =
    if x = ip then some w else if x = dp then some v else l.locks x := by
  simp only [both, lock, setPend, setFresh, take, update_apply]

theorem both_pend (x : ℕ) : (both l dp ip f v w m n).pend x =
    if x = ip then n else if x = dp then m else l.pend x := by
  simp only [both, lock, setPend, setFresh, take, update_apply]

theorem both_locks_self : (both l dp ip f v w m n).locks ip = some w := by
  rw [both_locks, if_pos rfl]

theorem both_locks_dir (hne : ip ≠ dp) : (both l dp ip f v w m n).locks dp = some v := by
  rw [both_locks, if_neg (Ne.symm hne), if_pos rfl]

theorem both_pend_self : (both l dp ip f v w m n).pend ip = n := by
  rw [both_pend, if_pos rfl]

theorem both_pend_dir (hne : ip ≠ dp) : (both l dp ip f v w m n).pend dp = m := by
  rw [both_pend, if_neg (Ne.symm hne), if_pos rfl]

theorem both_refs {x : ℕ} (hl : l.Plain) (hx : (both l dp ip f v w m n).locks x ≠ none) :
    1 ≤ (both l dp ip f v w m n).refs x := by
  show 1 ≤ ((l.take dp).take ip).refs x
  rw [both_locks] at hx
  split_ifs at hx with h1 h2
  · rw [h1, take_self]
    omega
  · have hpos : 1 ≤ (l.take dp).refs x := by simp [h2]
    exact hpos.trans le_take_refs
  · exact absurd (hl.locks x) hx

theorem both_fresh {x : ℕ} : (both l dp ip (some (ip, type)) v w m n).Fresh x ↔ x = ip :=
  fresh_setFresh (l := l)

theorem both_start (hpend : ∀ i, l.pend i = 0) :
    ((((((l.take dp).lock dp v).setFresh f).take ip).lock ip w').lock ip w).setPend ip n =
      both l dp ip f v w 0 n := by
  refine ext' (fun _ => rfl) (fun x => ?_) (fun x => ?_) rfl rfl
  · rw [both_locks]
    simp only [lock, setPend, setFresh, take, update_apply]
    split_ifs <;> rfl
  · rw [both_pend]
    simp only [lock, setPend, setFresh, take, update_apply, hpend]
    split_ifs <;> rfl

theorem both_start_plain (hl : l.Plain) (hpend : ∀ i, l.pend i = 0) :
    (((l.take dp).lock dp v).take ip).lock ip w = both l dp ip none v w 0 0 := by
  refine ext' (fun _ => rfl) (fun x => rfl) (fun x => ?_) hl.fresh rfl
  rw [both_pend]
  simp only [lock, take, hpend]
  split_ifs <;> rfl

theorem setPend_eq_self {i k : ℕ} (h : l.pend i = k) : l.setPend i k = l := by
  subst h
  exact ext' (fun _ => rfl) (fun _ => rfl) (congrFun (update_eq_self i l.pend)) rfl rfl

theorem settled {i n : ℕ} {w w' : Ino} (hlock : l.locks i = none) (hpend : l.pend i = 0) :
    ((((((l.take i).lock i w).setPend i n).lock i w').setPend i 0).unlock i).drop i = l := by
  refine ext' (fun x => Nat.add_sub_cancel _ _) (fun x => ?_) (fun x => ?_) rfl rfl
  · simp only [drop, unlock, setPend, lock, take, update_apply]
    split_ifs with hx
    · rw [hx, hlock]
    · rfl
  · simp only [drop, unlock, setPend, lock, take, update_apply]
    split_ifs with hx
    · rw [hx, hpend]
    · rfl

theorem both_enter (hne : ip ≠ dp) :
    (((both l dp ip f v w m n).lock dp v').setPend ip n').setPend dp m' =
      both l dp ip f v' w m' n' := by
  refine ext' (fun _ => rfl) (fun x => ?_) (fun x => ?_) rfl rfl
  · simp only [lock, setPend, update_apply, both_locks]
    split_ifs with h1 h2 <;> first | rfl | exact absurd (h2.symm.trans h1) hne
  · simp only [lock, setPend, update_apply, both_pend]
    split_ifs with h1 h2 <;> first | rfl | exact absurd (h2.symm.trans h1) hne

theorem both_lock_dir (hne : ip ≠ dp) :
    ((both l dp ip f v w m n).lock dp v').setPend dp m' = both l dp ip f v' w m' n := by
  refine Eq.trans ?_ (both_enter (v := v) (m := m) (n := n) hne)
  rw [setPend_eq_self (l := (both l dp ip f v w m n).lock dp v') both_pend_self]

theorem both_enter_file (hne : ip ≠ dp) :
    ((both l dp ip f v w 0 n).lock dp v').setPend ip n' = both l dp ip f v' w 0 n' := by
  refine Eq.trans ?_ (both_enter (v := v) (m := 0) (n := n) hne)
  rw [setPend_eq_self (i := dp)]
  exact (setPend_of_ne (Ne.symm hne)).trans (both_pend_dir hne)

theorem both_lock_self : (both l dp ip f v w m n).lock ip w' = both l dp ip f v w' m n := by
  refine ext' (fun _ => rfl) (fun x => ?_) (fun x => rfl) rfl rfl
  simp only [lock, update_apply, both_locks]
  split_ifs <;> rfl

theorem both_done (hl : l.Plain) (hpend : ∀ i, l.pend i = 0) (hne : ip ≠ dp) :
    ((both l dp ip none v w 0 n).unlock dp).drop dp = ((l.take ip).lock ip w).setPend ip n := by
  refine ext' (fun x => ?_) (fun x => ?_) (fun x => ?_) hl.fresh.symm rfl
  · exact congrFun (congrArg refs drop_take_take) x
  · simp only [drop, unlock, setPend, lock, take, update_apply, both_locks, hl.locks]
    split_ifs with h1 h2 <;> first | rfl | exact absurd (h2.symm.trans h1) hne
  · simp only [drop, unlock, setPend, lock, take, update_apply, both_pend, hpend]
    split_ifs <;> rfl

end Both

variable (hl : l.Plain) (hpend : ∀ i, l.pend i = 0)

include hl hpend

section Create

variable {dp ip : ℕ} {name : Name} {type : Kind} {v : Ino} {Q : Option ℕ → Post}

theorem created_wp {w : Ino} (hne : ip ≠ dp) (hsome : Q (some ip) ((l.take ip).lock ip w, t)) :
    (iunlockput dp >>= fun _ => pure (some ip)).wp (sysRules strict) Q
      (both l dp ip none v w 0 0, t) := by
  simp only [wp_bind]
  refine iunlockput_wp hl.dying (both_locks_dir hne) (not_fresh rfl)
    (fun _ => both_pend_dir hne) (both_refs hl ?_) ?_
  · rw [both_locks_dir hne]
    simp
  · rw [both_done hl hpend hne,
      setPend_eq_self (show ((l.take ip).lock ip w).pend ip = 0 from hpend ip)]
    exact hsome

theorem createFile_wp (hv : Found (l.take dp) dp v)
    (hno : ∀ e ∈ v.entries, e.inum ≠ 0 → e.name ≠ name) (ht : type ≠ .dir) (hip : ip ≠ 0)
    (hne : ip ≠ dp) (hsome : Q (some ip) ((l.take ip).lock ip ⟨type, 1, []⟩, t)) :
    (dirlink dp name ip >>= fun r => if (!r) = true then panic .createDirlink >>= fun _ =>
          iunlockput dp >>= fun _ => pure (some ip)
      else iunlockput dp >>= fun _ => pure (some ip)).wp (sysRules strict) Q
      (both l dp ip (some (ip, type)) v ⟨type, 1, []⟩ 0 1, t) := by
  simp only [wp_bind]
  refine dirlink_wp hl.dying (both_locks_dir hne) (fun x hx => both_refs hl hx)
    (fun e he h0 hname => absurd hname (hno e he h0)) (wp_panic nofun)
    fun hdir _ k hk hempty hbefore => ?_
  have hwf := hv.dir (not_fresh hl.fresh) hdir
  have hself : (both l dp ip (some (ip, type)) v ⟨type, 1, []⟩ 0 1).locks ip ≠ none := by
    rw [both_locks_self]
    simp
  refine ⟨_, .file hdir (fun hf => hne ?_) (hwf.two_le hv.ne_zero.1 hv.ne_zero.2 hempty) hempty hip
    (hwf.ne_dots hv.ne_zero.1 hv.ne_zero.2 hno) both_pend_self.ge (both_refs hl hself)
    (fun w hw => ?_) (fun x hx => ?_), ?_⟩
  · exact (both_fresh.mp hf).symm
  · obtain rfl : ⟨type, 1, []⟩ = w := Option.some.inj (both_locks_self.symm.trans hw)
    exact ht
  · obtain rfl := both_fresh.mp hx
    exact ⟨rfl, hself⟩
  · rw [both_pend_self, Nat.sub_self, both_enter_file hne]
    exact created_wp hl hpend hne hsome

omit hpend in
theorem createDots_wp {Q : Unit → Post} {m n : ℕ} (hip : ip ≠ 0) (hne : ip ≠ dp)
    (hdir : v.type = .dir) (hm : 1 ≤ m)
    (hQ : Q () (both l dp ip (some (ip, .dir)) v ⟨.dir, 1, [⟨ip, dot⟩, ⟨dp, dotdot⟩]⟩ m n, t)) :
    (createDots dp ip).wp (sysRules strict) Q
      (both l dp ip (some (ip, .dir)) v ⟨.dir, 1, []⟩ m n, t) := by
  simp only [createDots, wp_bind]
  refine dirlink_wp hl.dying both_locks_self (fun x hx => both_refs hl hx)
    (by rintro _ ⟨⟩) (wp_panic (by rintro ⟨⟩))
    fun _ _ k hk _ _ => ⟨_, .dots rfl ?_ ?_ (fun _ => rfl) ?_, ?_⟩
  · exact Nat.le_zero.mp hk
  · exact lt_of_le_of_lt hk (by simp)
  · rintro rfl
    exact absurd hk (by simp)
  obtain rfl := Nat.le_zero.mp hk
  rw [both_lock_self]
  simp only [Bool.not_true, Bool.false_eq_true, if_false, wp_bind]
  refine dirlink_wp hl.dying both_locks_self (fun x hx => both_refs hl hx) (fun e he _ hname => ?_)
    (wp_panic (by rintro ⟨⟩)) fun _ _ k hk hempty _ => ?_
  · obtain rfl : e = ⟨ip, dot⟩ := by simpa [putAt] using he
    exact absurd hname (show dot ≠ dotdot by decide)
  · have hk1 : k = 1 := by
      by_contra hk1
      have h0 : k = 0 := by
        simp [putAt] at hk
        omega
      subst h0
      exact hip (hempty ⟨ip, dot⟩ rfl)
    subst hk1
    refine ⟨_, .dots rfl rfl (by decide) (by rintro ⟨⟩) fun _ =>
      ⟨rfl, fun hf => ?_, (both_pend_dir hne).ge.trans' hm, v, both_locks_dir hne, hdir⟩, ?_⟩
    · exact hne (both_fresh.mp hf).symm
    · rw [both_lock_self]
      exact hQ

theorem createDir_wp (hv : Found (l.take dp) dp v) (hdir : v.type = .dir)
    (hno : ∀ e ∈ v.entries, e.inum ≠ 0 → e.name ≠ name) (hip : ip ≠ 0) (hne : ip ≠ dp)
    (hsome : Q (some ip) ((l.take ip).lock ip ⟨.dir, 1, [⟨ip, dot⟩, ⟨dp, dotdot⟩]⟩, t)) :
    (Sys.getNlink dp >>= fun n => Sys.setNlink dp (n + 1) >>= fun _ => Sys.iupdate dp >>= fun _ =>
      Sys.createDots dp ip >>= fun _ => Sys.dirlink dp name ip >>= fun r => if (!r) = true then
        panic .createDirlink >>= fun _ => iunlockput dp >>= fun _ => pure (some ip)
      else iunlockput dp >>= fun _ => pure (some ip)).wp (sysRules strict) Q
      (both l dp ip (some (ip, .dir)) v ⟨.dir, 1, []⟩ 0 1, t) := by
  have hwf := hv.dir (not_fresh hl.fresh) hdir
  have hes : v.entries ≠ [] := by
    obtain ⟨q, rest, hes, -⟩ := hwf
    simp [hes]
  simp only [wp_bind]
  refine wp_getNlink (both_locks_dir hne) (wp_setNlink 1 hl.dying (both_locks_dir hne) ?_
    fun hstays => wp_iupdate ?_)
  · rw [both_pend_dir hne]
    simp
  · rw [both_lock_dir hne]
    refine createDots_wp hl hip hne hdir le_rfl ?_
    refine dirlink_wp hl.dying (both_locks_dir hne) (fun x hx => both_refs hl hx)
      (fun e he h0 hname => absurd hname (hno e he h0)) (wp_panic nofun)
      fun _ _ k hk hempty hbefore => ?_
    refine ⟨_, .subdir hdir (hwf.two_le hv.ne_zero.1 hv.ne_zero.2 hempty) hempty hip hne
      (hwf.ne_dots hv.ne_zero.1 hv.ne_zero.2 hno) both_pend_self.ge (both_pend_dir hne).ge rfl
      both_locks_self ⟨dp, [], rfl, nofun⟩ rfl (fun hs hn => ?_), ?_⟩
    · rw [both_pend_dir hne] at hn
      have h0 : v.nlink = 0 := by simpa using hn
      have := hstays hs hdir h0 hes
      omega
    · rw [both_pend_self, both_pend_dir hne, Nat.sub_self, both_enter hne]
      exact created_wp hl hpend hne hsome

/-- **Creating an inode, or finding the file that has the name.** -/
theorem create_wp (hcwd : ∀ dp, t.cwd = some dp → 1 ≤ l.refs dp) (path : Name) (ht : type ≠ .free)
    (major minor : ℤ) (hnone : Q none (l, t))
    (hsome : ∀ ip v, Q (some ip) ((l.take ip).lock ip v, t)) :
    (create path type major minor).wp (sysRules strict) Q (l, t) := by
  have hnf : ∀ i, ¬l.Fresh i := fun i => not_fresh hl.fresh
  simp only [create, nameiparent, wp_bind]
  refine namex_wp hl hcwd path true hnone fun dp name => ?_
  simp only [wp_bind]
  refine wp_ilock hl.dying (by simp) fun v hv => ?_
  refine dirlookup_wp hl.dying lock_self (fun _ _ _ _ => hnf dp) (fun hdir hno => ?_)
    fun hdir k e he h0 hname => ?_
  · simp only [wp_bind]
    refine wp_ialloc hl.dying hl.fresh ht fun ip hip hrefs hlock hpend' => ?_
    refine wp_ilock hl.dying (by simp) fun w hw => ?_
    obtain rfl := hw.new type rfl
    have hne : ip ≠ dp := by
      rintro rfl
      rw [lock_self] at hlock
      cases hlock
    refine wp_setDev (wp_setNlink 1 hl.dying lock_self ?_ fun _ => wp_iupdate ?_)
    · have h0 : (((((l.take dp).lock dp v).setFresh (some (ip, type))).take ip).lock ip
          (Ino.new type)).pend ip = 0 := hpend ip
      rw [h0]
      rfl
    · rw [both_start hpend]
      by_cases hd : type = .dir
      · subst hd
        rw [if_pos rfl]
        exact createDir_wp hl hpend hv hdir hno hip hne (hsome ip _)
      · rw [if_neg hd]
        exact createFile_wp hl hpend hv hno hd hip hne (hsome ip _)
  · refine iunlockput_next_wp hl hv.pend ?_
    simp only [wp_bind]
    refine wp_ilock hl.dying (by simp) fun w hw => wp_getType lock_self ?_
    by_cases hfile : type = .file ∧ w.type = .file
    · rw [if_pos hfile]
      exact hsome e.inum w
    · rw [if_neg hfile]
      exact iunlockput_bind_wp hl hw.pend hnone

end Create

/-! ### Removing a name -/

/-- Removing an entry that has been found, and that names a file or an empty directory. -/
theorem unlinkEntry_wp {Q : ℤ → Post} {dp ip k : ℕ} {w : Ino} {e : Dirent} (hdir : v.type = .dir)
    (hk : 2 ≤ k) (he : v.entries[k]? = some e) (h0 : e.inum ≠ 0) (hip : e.inum = ip) (hne : ip ≠ dp)
    (hempty : w.type = .dir → w.ords = []) (hQ : ∀ r, Q r (l, t)) :
    (Sys.unlinkEntry dp ip (k * direntSize)).wp (sysRules strict) Q
      (both l dp ip none v w 0 0, t) := by
  subst hip
  -- the inode, when the directory has been dealt with
  have hrest : ∀ v', (Sys.iunlockput dp >>= fun _ =>
      Sys.getNlink e.inum >>= fun n => Sys.setNlink e.inum (n - 1) >>= fun _ =>
        Sys.iupdate e.inum >>= fun _ => Sys.iunlockput e.inum >>= fun _ =>
          (pure 0 : Sys ℤ)).wp (sysRules strict) Q (both l dp e.inum none v' w 0 1, t) := by
    intro v'
    simp only [wp_bind]
    refine iunlockput_wp hl.dying (both_locks_dir hne) (not_fresh rfl)
      (fun _ => both_pend_dir hne) (both_refs hl (by simp [both_locks_dir hne])) ?_
    rw [both_done hl hpend hne]
    refine wp_getNlink lock_self (wp_setNlink 0 hl.dying lock_self ?_ fun _ =>
      wp_iupdate ?_)
    · rw [setPend_self]
      omega
    refine iunlockput_wp hl.dying lock_self (not_fresh hl.fresh)
      (fun _ => setPend_self) (by simp [lock, setPend]) ?_
    rw [settled (hl.locks _) (hpend _)]
    exact hQ 0
  simp only [unlinkEntry, wp_bind]
  refine wp_writede hl.dying (wp_panic (by rintro ⟨⟩)) (both_locks_dir hne) (.clear hdir
    (not_fresh rfl) hk he h0 rfl hne both_locks_self hempty) ?_
  rw [both_pend_self, both_pend_dir hne, both_enter hne, Nat.zero_add, Nat.zero_add]
  simp only [Bool.not_true, Bool.false_eq_true, if_false, wp_bind]
  refine wp_getType both_locks_self ?_
  by_cases hd : w.type = .dir
  · simp only [hd, if_true, wp_bind]
    refine wp_getNlink (both_locks_dir hne) (wp_setNlink 0 hl.dying (both_locks_dir hne) ?_
      fun _ => wp_iupdate ?_)
    · rw [both_pend_dir hne]
      simp
    · rw [both_lock_dir hne]
      simpa only [wp_bind] using hrest _
  · simp only [hd, if_false]
    exact hrest _

/-- **Removing a name.** -/
theorem sysUnlink_wp {Q : ℤ → Post}
    (hcwd : ∀ dp, t.cwd = some dp → 1 ≤ l.refs dp) (path : Name) (hQ : ∀ r, Q r (l, t)) :
    (sysUnlink path).wp (sysRules strict) Q (l, t) := by
  have hnf : ∀ i, ¬l.Fresh i := fun i => not_fresh hl.fresh
  simp only [sysUnlink, nameiparent, wp_bind]
  refine namex_wp hl hcwd path true (hQ _) fun dp name => ?_
  simp only [wp_bind]
  refine wp_ilock hl.dying (by simp) fun v hv => ?_
  have hbad : (iunlockput dp >>= fun _ => (pure (-1) : Sys ℤ)).wp (sysRules strict) Q
      ((l.take dp).lock dp v, t) := iunlockput_bind_wp hl hv.pend (hQ _)
  by_cases hdots : name = dot ∨ name = dotdot
  · simp only [hdots, if_true]
    exact hbad
  · simp only [hdots, if_false, wp_bind]
    refine dirlookup_wp hl.dying lock_self (fun _ _ _ _ => hnf dp) (fun _ _ => hbad)
      fun hdir k e he h0 hname => ?_
    simp only [wp_bind]
    refine wp_ilock hl.dying (by simp) fun w hw => ?_
    have hne : e.inum ≠ dp := by
      intro heq
      have hlock := hw.unlocked
      rw [heq] at hlock
      cases (lock_self (l := l.take dp)).symm.trans hlock
    have hwf := hv.dir (hnf dp) hdir
    rw [both_start_plain hl hpend]
    refine wp_getNlink both_locks_self ?_
    by_cases hn : w.nlink < 1
    · simp only [hn, if_true, wp_bind]
      exact wp_panic nofun
    simp only [hn, if_false, wp_bind]
    refine wp_getType both_locks_self ?_
    have hfound : (w.type = .dir → w.ords = []) →
        (unlinkEntry dp e.inum (k * direntSize)).wp (sysRules strict) Q
          (both l dp e.inum none v w 0 0, t) := fun hempty =>
      unlinkEntry_wp hl hpend hdir (hwf.two_le_of_name he (hname ▸ hdots)) he h0 rfl hne hempty hQ
    by_cases hwdir : w.type = .dir
    · simp only [hwdir, if_true, wp_bind]
      refine isdirempty_wp both_locks_self (hw.dir (hnf _) hwdir) ?_ fun hords => ?_
      · simp only [Bool.not_false, if_true, wp_bind]
        rw [← both_start_plain hl hpend]
        refine iunlockput_wp hl.dying lock_self (hnf _) (fun _ => hpend _) (by simp [lock, take]) ?_
        rw [drop_unlock_lock (l := (l.take dp).lock dp v) hw.unlocked]
        simpa only [wp_bind] using hbad
      · simpa using hfound fun _ => hords
    · simp only [hwdir, if_false]
      simpa using hfound fun hd => absurd hd hwdir

/-! ### Another name for a file -/

/-- The link that was counted in advance is taken back. -/
theorem linkBad_wp {Q : ℤ → Post} {ip : ℕ}
    (hQ : ∀ r, Q r (l, t)) : (linkBad ip).wp (sysRules strict) Q ((l.take ip).setPend ip 1, t) := by
  simp only [linkBad, wp_bind]
  refine wp_ilock hl.dying (by simp [setPend]) fun w hw => ?_
  refine wp_getNlink lock_self (wp_setNlink 0 hl.dying lock_self ?_ fun _ =>
    wp_iupdate ?_)
  · rw [lock_pend, setPend_self]
    omega
  refine iunlockput_wp hl.dying lock_self (not_fresh hl.fresh)
    (fun _ => setPend_self) (by simp [lock, setPend]) ?_
  have hdone : ((((((l.take ip).setPend ip 1).lock ip w).lock ip
      { w with nlink := w.nlink - 1 }).setPend ip 0).unlock ip).drop ip = l :=
    settled (hl.locks ip) (hpend ip)
  rw [hdone]
  exact hQ _

theorem link_done {dp ip : ℕ} {w w' : Ino} :
    ((((((((l.take ip).setPend ip 1).take dp).lock dp w).lock dp w').setPend ip
      (((((l.take ip).setPend ip 1).take dp).lock dp w).pend ip - 1)).setFresh none).unlock dp).drop
        dp = l.take ip := by
  refine ext' (fun x => Nat.add_sub_cancel _ _) (fun x => ?_) (fun x => ?_) hl.fresh.symm rfl
  · simp only [drop, unlock, setPend, setFresh, lock, take, update_apply, hl.locks]
    split_ifs <;> rfl
  · simp only [drop, unlock, setPend, setFresh, lock, take, update_apply, hpend]
    split_ifs <;> rfl

/-- **Another name for a file.** The link is counted before the entry is made, and the file is not
locked in between. -/
theorem sysLink_wp {Q : ℤ → Post}
    (hcwd : ∀ dp, t.cwd = some dp → 1 ≤ l.refs dp) (old new : Name) (hQ : ∀ r, Q r (l, t)) :
    (sysLink old new).wp (sysRules strict) Q (l, t) := by
  have hnf : ∀ i, ¬l.Fresh i := fun i => not_fresh hl.fresh
  simp only [sysLink, nameiparent, wp_bind]
  refine namei_wp hl hcwd old (hQ _) fun ip => ?_
  simp only [wp_bind]
  refine wp_ilock hl.dying (by simp) fun v hv => wp_getType lock_self ?_
  by_cases hdir : v.type = .dir
  · simp only [hdir, if_true]
    exact iunlockput_bind_wp hl hv.pend (hQ _)
  simp only [hdir, if_false, wp_bind]
  refine wp_getNlink lock_self (wp_setNlink 1 hl.dying lock_self ?_ fun _ =>
    wp_iupdate (wp_iunlock lock_self (hnf ip) (fun hd => absurd hd hdir) ?_))
  · have h0 : ((l.take ip).lock ip v).pend ip = 0 := hpend ip
    rw [h0]
    simp
  have hcounted : ((((l.take ip).lock ip v).lock ip { v with nlink := v.nlink + 1 }).setPend ip
      1).unlock ip = (l.take ip).setPend ip 1 := by
    rw [lock_lock]
    exact unlock_lock (l := (l.take ip).setPend ip 1) (hl.locks ip)
  rw [hcounted]
  have hl' : ((l.take ip).setPend ip 1).Plain := ⟨hl.dying, hl.fresh, hl.locks⟩
  refine namex_wp hl' (fun dp hdp => (hcwd dp hdp).trans le_take_refs) new true
    (linkBad_wp hl hpend hQ) fun dp name => ?_
  simp only [wp_bind]
  refine wp_ilock hl.dying (by simp) fun w hw => ?_
  have hlocks : ∀ i, ((((l.take ip).setPend ip 1).take dp).lock dp w).locks i ≠ none → i = dp :=
    fun i hi => by
      by_contra hne
      rw [lock_of_ne hne] at hi
      exact hi (hl.locks i)
  refine dirlink_wp hl.dying lock_self (fun i hi => ?_) (fun _ _ _ _ => hl.fresh) ?_
    fun hwdir hno k hk hempty hbefore => ?_
  · rw [hlocks i hi]
    simp [lock]
  · simp only [Bool.not_false, if_true]
    exact iunlockput_bind_wp hl' hw.pend (linkBad_wp hl hpend hQ)
  · -- nothing is pending for a directory, so this is not the file
    have hne : ip ≠ dp := by
      rintro rfl
      have h0 : ((l.take ip).setPend ip 1).pend ip = 0 := hw.pend hwdir
      rw [setPend_self] at h0
      omega
    have hwf := hw.dir (hnf dp) hwdir
    refine ⟨_, .file hwdir (hnf dp) (hwf.two_le hw.ne_zero.1 hw.ne_zero.2 hempty) hempty
      hv.ne_zero.1 (hwf.ne_dots hw.ne_zero.1 hw.ne_zero.2 hno) ?_ ?_ (fun u hu => ?_)
      fun x hx => absurd hx (hnf x), ?_⟩
    · exact (setPend_self (l := l.take ip)).ge
    · have hpos : 1 ≤ (l.take ip).refs ip := by simp
      exact hpos.trans le_take_refs
    · exact absurd (hlocks ip (by simp [hu])) hne
    · simp only [Bool.not_true, Bool.false_eq_true, if_false, wp_bind]
      refine iunlockput_wp hl.dying lock_self (not_fresh rfl) (fun _ => ?_)
        (by simp [lock, setPend, setFresh]) ?_
      · rw [setFresh_pend, setPend_of_ne (Ne.symm hne)]
        exact (setPend_of_ne (l := l.take ip) (Ne.symm hne)).trans (hpend dp)
      · rw [link_done hl hpend]
        refine wp_iput hl.dying (by simp) (fun hi => absurd (hl.locks ip) hi) (hnf ip) ?_
        rw [drop_take]
        exact hQ _

end Calls

/-! ### Between two calls -/

/-- A pointer to an open file holds a reference to its inode. -/
def holdsRef (i : ℕ) (f : Option Desc) : ℕ := if f.bind Desc.ip = some i then 1 else 0

/-- The references that a process has by its tables. -/
@[irreducible] def refCount (t : Tab) (i : ℕ) : ℕ :=
  (if t.cwd = some i then 1 else 0) + ∑ fd : Fin nofile, holdsRef i (t.ofile fd)

/-- What a process has between two calls. -/
def Idle (x : Local × Tab) : Prop := x.1 = .idle (refCount x.2)

section Tables

variable {strict : Prop} {t : Tab} {i fd : ℕ}

theorem plain_idle (refs : ℕ → ℕ) : (idle refs).Plain := ⟨rfl, rfl, fun _ => rfl⟩

theorem one_le_count_cwd (h : t.cwd = some i) : 1 ≤ refCount t i := by
  rw [refCount, if_pos h]
  omega

theorem one_le_count_ofile (hfd : fd < nofile) (h : (t.ofile fd).bind Desc.ip = some i) :
    1 ≤ refCount t i := by
  have hle : holdsRef i (t.ofile fd) ≤ ∑ fd : Fin nofile, holdsRef i (t.ofile fd) :=
    Finset.single_le_sum (f := fun fd : Fin nofile => holdsRef i (t.ofile fd))
      (fun _ _ => Nat.zero_le _) (Finset.mem_univ ⟨fd, hfd⟩)
  rw [holdsRef, if_pos h] at hle
  rw [refCount]
  omega

theorem count_setCwd (ip : Option ℕ) :
    refCount { t with cwd := ip } i + (if t.cwd = some i then 1 else 0) =
      refCount t i + if ip = some i then 1 else 0 := by
  simp only [refCount]
  omega

theorem count_setOfile (hfd : fd < nofile) (f : Option Desc) :
    refCount { t with ofile := update t.ofile fd f } i + holdsRef i (t.ofile fd) =
      refCount t i + holdsRef i f := by
  have hsum := sum_update (holdsRef i) (fun fd : Fin nofile => t.ofile fd) ⟨fd, hfd⟩ f
  have hcomp : ∀ x : Fin nofile, update t.ofile fd f x =
      update (fun x : Fin nofile => t.ofile x) ⟨fd, hfd⟩ f x := congrFun
    (update_comp_eq_of_injective t.ofile Fin.val_injective ⟨fd, hfd⟩ f)
  dsimp only at hsum
  simp only [refCount, hcomp]
  omega

variable {l : Local} {f : Desc}

theorem fdalloc_wp {Q : Option ℕ → Post} {fds : List ℕ}
    (hnone : Q none (l, t)) (hsome : ∀ fd ∈ fds, t.ofile fd = none →
      Q (some fd) (l, { t with ofile := update t.ofile fd (some f) })) :
    (fdalloc f fds).wp (sysRules strict) Q (l, t) := by
  induction fds with
  | nil => exact hnone
  | cons fd fds ih =>
    simp only [fdalloc, wp_bind]
    refine wp_ofile ?_
    cases hfd : t.ofile fd with
    | none =>
      simp only [wp_bind]
      exact wp_setOfile (hsome fd List.mem_cons_self hfd)
    | some f' => exact ih fun fd' hfd' => hsome fd' (List.mem_cons_of_mem fd hfd')

theorem fileclose_wp {Q : Unit → Post} (hd : l.dying = none)
    (hf : l.fresh = none) (hlocks : ∀ i, l.locks i = none)
    (hrefs : ∀ ip, f.ip = some ip → 1 ≤ l.refs ip)
    (hnone : f.ip = none → Q () (l, t)) (hsome : ∀ ip, f.ip = some ip → Q () (l.drop ip, t)) :
    (fileclose f).wp (sysRules strict) Q (l, t) := by
  simp only [fileclose, wp_bind]
  refine wp_filefree ?_
  cases hip : f.ip with
  | none => exact hnone hip
  | some ip =>
    exact wp_iput hd (hrefs ip hip) (fun hne => absurd (hlocks ip) hne) (not_fresh hf)
      (hsome ip hip)

theorem idle_of_refs (hl : l.Plain) (hpend : ∀ i, l.pend i = 0)
    (hrefs : ∀ i, l.refs i = refCount t i) : Idle (l, t) :=
  ext' hrefs hl.locks hpend hl.fresh hl.dying

theorem openInode_wp {Q : Option ℕ → Post} (hl : l.Plain)
    (hpend : ∀ i, l.pend i = 0) (hcwd : ∀ dp, t.cwd = some dp → 1 ≤ l.refs dp) (path : Name)
    (omode : ℕ) (hnone : Q none (l, t)) (hsome : ∀ ip v, Q (some ip) ((l.take ip).lock ip v, t)) :
    (openInode path omode).wp (sysRules strict) Q (l, t) := by
  rw [openInode]
  by_cases hc : ocreate omode = true
  · rw [if_pos hc]
    exact create_wp hl hpend hcwd path (show Kind.file ≠ .free from nofun) 0 0 hnone hsome
  · rw [if_neg hc]
    simp only [wp_bind]
    refine namei_wp hl hcwd path hnone fun ip => ?_
    simp only [wp_bind]
    refine wp_ilock hl.dying (by simp) fun v hv => wp_getType lock_self ?_
    by_cases hbad : v.type = .dir ∧ omode ≠ 0
    · rw [if_pos hbad]
      exact iunlockput_bind_wp hl hv.pend hnone
    · rw [if_neg hbad]
      exact hsome ip v

/-- **Opening a file.** -/
theorem sysOpen_wp (path : Name) (omode : ℕ) :
    (sysOpen path omode).wp (sysRules strict) (fun _ => Idle) (.idle (refCount t), t) := by
  simp only [sysOpen, wp_bind]
  refine openInode_wp (plain_idle (refCount t)) (fun _ => rfl) (fun _ => one_le_count_cwd) path
    omode rfl fun ip v => ?_
  simp only [wp_bind]
  refine wp_filealloc fun b => ?_
  cases b with
  | false =>
    exact iunlockput_bind_wp (plain_idle _) (fun _ => rfl) rfl
  | true =>
    simp only [Bool.not_true, Bool.false_eq_true, if_false, wp_bind]
    refine fdalloc_wp ?_ fun fd hfd hnone => ?_
    · rw [wp_bind]
      exact wp_filefree (iunlockput_bind_wp (plain_idle _) (fun _ => rfl) rfl)
    · simp only [wp_bind]
      refine wp_iunlock lock_self (not_fresh rfl) (fun _ => rfl) (wp_setOfile ?_)
      rw [unlock_lock (l := (idle (refCount t)).take ip) rfl]
      refine idle_of_refs ⟨rfl, rfl, fun _ => rfl⟩ (fun _ => rfl) fun i => ?_
      have hlt := List.mem_range.mp hfd
      have h1 := count_setOfile (t := t) (i := i) hlt (some ⟨none⟩)
      have h2 := count_setOfile (i := i) hlt
        (t := { t with ofile := update t.ofile fd (some ⟨none⟩) }) (some ⟨some ip⟩)
      rw [hnone] at h1
      simp only [update_self] at h2
      simp only [holdsRef, Option.bind_none, Option.bind_some, reduceCtorEq, if_false,
        Option.some.injEq, eq_comm (a := ip)] at h1 h2
      show refCount t i + (if i = ip then 1 else 0) = _
      dsimp only
      omega

theorem sysMake_wp (path : Name) {type : Kind} (ht : type ≠ .free) (major minor : ℤ) :
    (sysMake path type major minor).wp (sysRules strict) (fun _ => Idle)
      (.idle (refCount t), t) := by
  simp only [sysMake, wp_bind]
  refine create_wp (plain_idle (refCount t)) (fun _ => rfl) (fun _ => one_le_count_cwd) path ht
    major minor rfl fun ip v => ?_
  exact iunlockput_bind_wp (plain_idle _) (fun _ => rfl) rfl

/-- **Changing the current directory.** -/
theorem sysChdir_wp (path : Name) :
    (sysChdir path).wp (sysRules strict) (fun _ => Idle) (.idle (refCount t), t) := by
  simp only [sysChdir, wp_bind]
  refine namei_wp (plain_idle (refCount t)) (fun _ => one_le_count_cwd) path rfl fun ip => ?_
  simp only [wp_bind]
  refine wp_ilock rfl (by simp) fun v hv => wp_getType lock_self ?_
  by_cases hdir : v.type = .dir
  · simp only [hdir, ne_eq, not_true_eq_false, if_false, wp_bind]
    refine wp_iunlock lock_self (not_fresh rfl) (fun _ => rfl) (wp_cwd ?_)
    rw [unlock_lock (l := (idle (refCount t)).take ip) rfl]
    have hcount := fun i => count_setCwd (t := t) (i := i) (some ip)
    cases hcwd : t.cwd with
    | none =>
      refine wp_setCwd (idle_of_refs ⟨rfl, rfl, fun _ => rfl⟩ (fun _ => rfl) fun i => ?_)
      have hi := hcount i
      simp only [hcwd, Option.some.injEq, reduceCtorEq, if_false, eq_comm (a := ip)] at hi
      show refCount t i + (if i = ip then 1 else 0) = _
      omega
    | some dp =>
      simp only [wp_bind]
      have hpos : 1 ≤ ((idle (refCount t)).take ip).refs dp :=
        (one_le_count_cwd hcwd).trans (le_take_refs (l := .idle (refCount t)))
      refine wp_iput rfl hpos (fun hne => absurd ((plain_idle (refCount t)).locks dp) hne)
        (not_fresh rfl) ?_
      refine wp_setCwd (idle_of_refs ⟨rfl, rfl, fun _ => rfl⟩ (fun _ => rfl) fun i => ?_)
      have hi := hcount i
      have hle := one_le_count_cwd hcwd
      simp only [hcwd, Option.some.injEq, eq_comm (a := ip), eq_comm (a := dp)] at hi
      show refCount t i + (if i = ip then 1 else 0) - (if i = dp then 1 else 0) = _
      by_cases hdp : i = dp
      · subst hdp
        rw [if_pos rfl] at hi ⊢
        omega
      · rw [if_neg hdp] at hi ⊢
        omega
  · simp only [hdir, ne_eq, not_false_eq_true, if_true]
    exact iunlockput_bind_wp (plain_idle _) (fun _ => rfl) rfl

theorem refCount_close (hfd : fd < nofile) (hf : t.ofile fd = some f) (i : ℕ) :
    refCount { t with ofile := update t.ofile fd none } i + holdsRef i (some f) = refCount t i := by
  have hcount := count_setOfile (t := t) (i := i) hfd none
  rw [hf] at hcount
  exact hcount

/-- **Closing a file** drops the reference that it held. -/
theorem close_wp {Q : Unit → Post} {t' : Tab} (hfd : fd < nofile) (hf : t.ofile fd = some f)
    (hQ : Q () (.idle (refCount { t with ofile := update t.ofile fd none }), t')) :
    (fileclose f).wp (sysRules strict) Q (.idle (refCount t), t') := by
  have hcount := refCount_close hfd hf
  refine fileclose_wp rfl rfl (plain_idle (refCount t)).locks (fun ip hip => ?_) (fun hip => ?_)
    fun ip hip => ?_
  · exact one_le_count_ofile hfd (by rw [hf]; exact hip)
  · have hidle : idle (refCount { t with ofile := update t.ofile fd none }) =
        .idle (refCount t) := by
      refine ext' (fun i => ?_) (fun _ => rfl) (fun _ => rfl) rfl rfl
      have hi := hcount i
      simp only [holdsRef, Option.bind_some, hip, reduceCtorEq, if_false] at hi
      exact hi
    rwa [hidle] at hQ
  · have hidle : idle (refCount { t with ofile := update t.ofile fd none }) =
        (idle (refCount t)).drop ip := by
      refine ext' (fun i => ?_) (fun _ => rfl) (fun _ => rfl) rfl rfl
      have hi := hcount i
      simp only [holdsRef, Option.bind_some, hip, Option.some.injEq, eq_comm (a := ip)] at hi
      show _ = refCount t i - if i = ip then 1 else 0
      exact Nat.eq_sub_of_add_eq hi
    rwa [hidle] at hQ

theorem sysClose_wp (fd : ℕ) :
    (sysClose fd).wp (sysRules strict) (fun _ => Idle) (.idle (refCount t), t) := by
  rw [sysClose]
  by_cases hfd : nofile ≤ fd
  · rw [if_pos hfd]
    rfl
  · rw [if_neg hfd]
    simp only [wp_bind]
    refine wp_ofile ?_
    cases hf : t.ofile fd with
    | none => rfl
    | some f =>
      simp only [wp_bind]
      exact wp_setOfile (close_wp (Nat.lt_of_not_le hfd) hf rfl)

theorem exitLoop_wp {Q : Unit → Post} {fds : List ℕ} (hfds : ∀ fd ∈ fds, fd < nofile)
    (hQ : ∀ t', Q () (.idle (refCount t'), t')) :
    (exitLoop fds).wp (sysRules strict) Q (.idle (refCount t), t) := by
  induction fds generalizing t with
  | nil => exact hQ t
  | cons fd fds ih =>
    simp only [exitLoop, wp_bind]
    have ih := fun t => ih (t := t) fun fd' hfd' => hfds fd' (List.mem_cons_of_mem fd hfd')
    refine wp_ofile ?_
    cases hf : t.ofile fd with
    | none => exact ih t
    | some f =>
      simp only [wp_bind]
      exact close_wp (hfds fd List.mem_cons_self) hf (wp_setOfile (ih _))

theorem exit_wp : exit.wp (sysRules strict) (fun _ => Idle) (.idle (refCount t), t) := by
  simp only [exit, wp_bind]
  refine exitLoop_wp (fun fd hfd => List.mem_range.mp hfd) fun t => wp_cwd ?_
  have hcount := fun i => count_setCwd (t := t) (i := i) none
  cases hcwd : t.cwd with
  | none =>
    refine wp_setCwd (idle_of_refs ⟨rfl, rfl, fun _ => rfl⟩ (fun _ => rfl) fun i => ?_)
    have hi := hcount i
    simp only [hcwd, reduceCtorEq, if_false] at hi
    exact hi.symm
  | some dp =>
    simp only [wp_bind]
    refine wp_iput rfl (one_le_count_cwd hcwd)
      (fun hne => absurd ((plain_idle (refCount t)).locks dp) hne) (not_fresh rfl) ?_
    refine wp_setCwd (idle_of_refs ⟨rfl, rfl, fun _ => rfl⟩ (fun _ => rfl) fun i => ?_)
    have hi := hcount i
    simp only [hcwd, Option.some.injEq, reduceCtorEq, if_false, eq_comm (a := dp)] at hi
    show refCount t i - (if i = dp then 1 else 0) = _
    exact (Nat.eq_sub_of_add_eq hi).symm

/-- **Every system call** keeps the rules, from a state between two calls to another. -/
theorem code_wp (c : Syscall) {x : Local × Tab} (hx : Idle x) :
    c.code.wp (sysRules strict) (fun _ => Idle) x := by
  obtain ⟨l, t⟩ := x
  obtain rfl : l = .idle (refCount t) := hx
  simp only [Syscall.code, wp_bind]
  refine wp_cwd ?_
  have hcwd : ∀ dp, t.cwd = some dp → 1 ≤ (idle (refCount t)).refs dp :=
    fun _ => one_le_count_cwd
  cases t.cwd with
  | none => rfl
  | some dp =>
    simp only [wp_bind]
    cases c with
    | sysOpen path omode => exact sysOpen_wp _ _
    | sysMkdir path => exact sysMake_wp _ (show Kind.dir ≠ .free from nofun) _ _
    | sysMknod path major minor => exact sysMake_wp _ (show Kind.dev ≠ .free from nofun) _ _
    | sysLink old new =>
      exact sysLink_wp (plain_idle _) (fun _ => rfl) hcwd _ _ fun _ => rfl
    | sysUnlink path => exact sysUnlink_wp (plain_idle _) (fun _ => rfl) hcwd _ fun _ => rfl
    | sysChdir path => exact sysChdir_wp _
    | sysClose fd => exact sysClose_wp _
    | exit =>
      simp only [Syscall.body, wp_bind]
      exact exit_wp

end Tables

/-- **Every system call keeps the invariant**, whatever other processes do at the same time. -/
theorem syscalls_wp {ι : Type} [Fintype ι] [DecidableEq ι] {sb : Super} {strict : Prop} {p : ι}
    {c : Syscall} {x : Local × Tab} (hx : Idle x) :
    Wp (SysInv sb strict) (contract sb strict).onFst p (syscalls (inodes sb) p c)
      (fun _ => Idle) x :=
  Wp.run implement_rules (code_wp c hx)

end Xv6.Fs.Tree
