import Xv6.Sysfile.Rules

/-!
# Directories, paths and names

What a call has after each of the functions that deal with names. Whatever the directories contain,
a lookup ends with one reference more or with none, and everything that has been locked on the way
is unlocked again. Each statement is in terms of what comes next: the program may run if what comes
next may run with every answer.

## Main results

* `dirlookup_wp`, `dirlink_wp`, `namex_wp`
* `create_wp`, `sysLink_wp`, `sysUnlink_wp`, `exec_wp`
-/

namespace Xv6.Sysfile

open Fs Call Sys Hold

variable {ι η : Type} [DecidableEq ι] [DecidableEq η] {Q : Unit → Post ι η} {path : Name}
  {major minor : ℤ} {type : Kind} {α : Type} {dp ip : η}

/-- What a process has in a call that does something with inodes. -/
abbrev Busy.at (b : Busy ι η) (l : Hold η) : Option (Busy ι η) := some { b with hold := l }

/-- What is locked has a reference of the call. -/
def Hold.Firm (l : Hold η) : Prop := ∀ x, l.locks x ≠ none → 1 ≤ l.refs x

variable {b : Busy ι η} {l : Hold η} {x y : η}

theorem wp_iget {Q : η → Post ι η} {n : ℕ} (hQ : ∀ x, Q x (b.at (l.take x))) :
    (Sys.iget n).wp sysRules Q (b.at l) := hQ

theorem wp_ilock (hx : 1 ≤ l.refs x ∨ b.leases x)
    (hQ : l.locks x = none → Q () (b.at (l.lock x false))) :
    (ilock x).wp sysRules Q (b.at l) := And.intro hx hQ

theorem wp_iunlock (hx : l.locks x = some false)
    (hQ : Q () (b.at (l.unlock x))) : (iunlock x).wp sysRules Q (b.at l) := And.intro hx hQ

theorem wp_iput (hx : l.Spare x) (hQ : Q () (b.at (l.drop x))) : (iput x).wp sysRules Q (b.at l) :=
  And.intro hx.1 ⟨hx.2, hQ⟩

theorem wp_ialloc {Q : η → Post ι η} (ht : type ≠ .free) (hQ : ∀ x, Q x (b.at (l.take x))) :
    (Sys.ialloc type).wp sysRules Q (b.at l) := And.intro ht hQ

theorem wp_iupdate (hx : l.locks x ≠ none)
    (hQ : Q () (b.at (l.lock x false))) : (iupdate x).wp sysRules Q (b.at l) := And.intro hx hQ

theorem wp_getInum {Q : ℕ → Post ι η} (hQ : ∀ n, Q n (b.at l)) :
    (getInum x).wp sysRules Q (b.at l) := hQ

theorem wp_getType {Q : Kind → Post ι η} (hQ : ∀ k, Q k (b.at l)) :
    (getType x).wp sysRules Q (b.at l) := hQ

theorem wp_getNlink {Q : ℤ → Post ι η} (hQ : ∀ n, Q n (b.at l)) :
    (getNlink x).wp sysRules Q (b.at l) := hQ

theorem wp_getSize {Q : ℕ → Post ι η} (hQ : ∀ n, Q n (b.at l)) :
    (getSize x).wp sysRules Q (b.at l) := hQ

theorem wp_setNlink {n : ℤ} (hx : l.locks x ≠ none)
    (hQ : Q () (b.at (l.lock x true))) : (setNlink x n).wp sysRules Q (b.at l) :=
  And.intro hx hQ

theorem wp_setDev (hx : l.locks x ≠ none)
    (hQ : Q () (b.at (l.lock x true))) : (setDev x major minor).wp sysRules Q (b.at l) :=
  And.intro hx hQ

theorem wp_readi {Q : Transfer (List UInt8) → Post ι η} {off n : UInt32}
    (hx : l.locks x ≠ none) (hQ : ∀ r, Q r (b.at l)) :
    (readi x off n).wp sysRules Q (b.at l) := And.intro hx hQ

theorem wp_writei {Q : Transfer Unit → Post ι η} {src : List UInt8} {off : UInt32}
    (hx : l.locks x = some false) (hQ : ∀ r, Q r (b.at l)) :
    (writei x src off).wp sysRules Q (b.at l) := And.intro hx hQ

theorem wp_panic {e : Panic} (he : Tolerated e) : (Sys.panic e).wp sysRules Q (b.at l) := he

theorem wp_cwd {Q : Option η → Post ι η} (hQ : Q b.tab.cwd (b.at l)) :
    cwd.wp sysRules Q (b.at l) := hQ

theorem iunlockput_wp (hx : l.locks x = some false)
    (hpos : 1 ≤ l.refs x) (hQ : Q () (b.at ((l.unlock x).drop x))) :
    (Sys.iunlockput x).wp sysRules Q (b.at l) := by
  rw [Sys.iunlockput, wp_bind]
  refine wp_iunlock hx (wp_iput ⟨hpos, fun hlock => ?_⟩ hQ)
  simp at hlock

namespace Hold

variable {d : Bool}

theorem Firm.spare (h : l.Firm) : (l.take x).Spare x := by
  refine ⟨by simp, fun hlock => ?_⟩
  have hpos := h x hlock
  simp only [take_self]
  omega

theorem Firm.take (h : l.Firm) : (l.take x).Firm := fun _ hy => (h _ hy).trans le_take

theorem Firm.lock (h : l.Firm) (hx : 1 ≤ l.refs x) : (l.lock x d).Firm := by
  intro y hy
  by_cases hyx : y = x
  · exact hyx ▸ hx
  · rw [lock_of_ne hyx] at hy
    exact h y hy

theorem drop_unlock_lock (h : l.locks x = none) : (((l.take x).lock x d).unlock x).drop x = l := by
  rw [unlock_lock (l := l.take x) h, drop_take]

theorem drop_unlock_lock_take (h : l.locks x = none) :
    ((((l.take x).lock x d).take y).unlock x).drop x = l.take y := by
  rw [take_lock, unlock_lock (l := (l.take x).take y) h, drop_take_take]

theorem Firm.pair (h : l.Firm) : (((l.take x).take y).lock x false |>.lock y false).Firm := by
  refine ((h.take.take).lock ?_).lock ?_
  · exact (show 1 ≤ (l.take x).refs x by simp).trans le_take
  · simp

end Hold

theorem wp_ilock_take (hQ : l.locks x = none → Q () (b.at ((l.take x).lock x false))) :
    (ilock x).wp sysRules Q (b.at (l.take x)) := wp_ilock (.inl (by simp)) hQ

theorem iunlockput_bind_wp {Q : α → Post ι η} {k : Unit → Sys ι η α} (h : l.locks x = none)
    (hQ : (k ()).wp sysRules Q (b.at l)) :
    (iunlockput x >>= k).wp sysRules Q (b.at ((l.take x).lock x false)) := by
  rw [wp_bind]
  refine iunlockput_wp (by simp) (by simp) ?_
  rwa [drop_unlock_lock h]

theorem iunlockput_next_wp {Q : α → Post ι η} {k : Unit → Sys ι η α} (h : l.locks x = none)
    (hQ : (k ()).wp sysRules Q (b.at (l.take y))) :
    (iunlockput x >>= k).wp sysRules Q (b.at (((l.take x).lock x false).take y)) := by
  rw [wp_bind]
  refine iunlockput_wp (by simp) ?_ ?_
  · exact (show 1 ≤ (l.take x).refs x by simp).trans le_take
  · rwa [drop_unlock_lock_take h]

/-! ### Directories -/

section Directories

variable {dp : η} {name : Name}

theorem readde_wp {Q : Option (List UInt8) → Post ι η} {off : ℕ}
    (hlock : l.locks dp ≠ none) (hQ : ∀ r, Q r (b.at l)) :
    (Sys.readde dp off).wp sysRules Q (b.at l) := by
  rw [Sys.readde, wp_bind]
  refine wp_readi hlock fun r => ?_
  cases r <;> exact hQ _

variable {Q : Bool → Post ι η}

theorem writede_wp {off : ℕ} {de : List UInt8}
    (hlock : l.locks dp = some false) (hQ : ∀ ok, Q ok (b.at l)) :
    (Sys.writede dp off de).wp sysRules Q (b.at l) := by
  rw [Sys.writede, wp_bind]
  refine wp_writei hlock fun r => ?_
  cases r <;> exact hQ _

section

variable (hlock : l.locks dp ≠ none)

include hlock

theorem dirlookupLoop_wp {Q : Option (η × ℕ) → Post ι η} (hnone : Q none (b.at l))
    (hsome : ∀ x off, Q (some (x, off)) (b.at (l.take x))) (offs : List ℕ) :
    (dirlookupLoop dp name offs).wp sysRules Q (b.at l) := by
  induction offs with
  | nil => exact hnone
  | cons off offs ih =>
    rw [Sys.dirlookupLoop, wp_bind]
    refine readde_wp hlock fun r => ?_
    cases r with
    | none => exact wp_panic (by decide)
    | some de =>
      dsimp only
      split_ifs
      · exact ih
      · rw [wp_bind]
        exact wp_iget fun x => hsome x off
      · exact ih

/-- **Looking up a name** in a locked directory. -/
theorem dirlookup_wp {Q : Option (η × ℕ) → Post ι η}
    (hnone : Q none (b.at l)) (hsome : ∀ x off, Q (some (x, off)) (b.at (l.take x))) :
    (Sys.dirlookup dp name).wp sysRules Q (b.at l) := by
  simp only [Sys.dirlookup, wp_bind]
  refine wp_getType fun k => ?_
  split_ifs
  · rw [wp_bind]
    exact wp_panic (by decide)
  · exact wp_getSize fun n => dirlookupLoop_wp hlock hnone hsome _

theorem emptyEntry_wp {Q : ℕ → Post ι η} {size : ℕ} (hQ : ∀ n, Q n (b.at l)) (offs : List ℕ) :
    (emptyEntry dp size offs).wp sysRules Q (b.at l) := by
  induction offs with
  | nil => exact hQ _
  | cons off offs ih =>
    rw [Sys.emptyEntry, wp_bind]
    refine readde_wp hlock fun r => ?_
    cases r with
    | none => exact wp_panic (by decide)
    | some de =>
      dsimp only
      split_ifs
      · exact hQ _
      · exact ih

end

/-- **Making an entry** in a locked directory. -/
theorem dirlink_wp {inum : ℕ} (hfirm : l.Firm)
    (hlock : l.locks dp = some false) (hQ : ∀ ok, Q ok (b.at l)) :
    (Sys.dirlink dp name inum).wp sysRules Q (b.at l) := by
  have hne : l.locks dp ≠ none := by simp [hlock]
  rw [Sys.dirlink, wp_bind]
  refine dirlookup_wp hne ?_ fun x off => ?_
  · simp only [wp_bind]
    refine wp_getSize fun n => emptyEntry_wp hne (fun off => ?_) _
    refine writede_wp hlock fun ok => ?_
    cases ok with
    | true => exact hQ true
    | false => exact wp_panic (by decide)
  · simp only [wp_bind]
    refine wp_iput hfirm.spare ?_
    rw [drop_take]
    exact hQ false

theorem isdirempty_wp (hlock : l.locks dp ≠ none)
    (hQ : ∀ r, Q r (b.at l)) : (Sys.isdirempty dp).wp sysRules Q (b.at l) := by
  rw [Sys.isdirempty, wp_bind]
  refine wp_getSize fun n => ?_
  generalize Fs.Sys.offsets 2 n = offs
  induction offs with
  | nil => exact hQ _
  | cons off offs ih =>
    rw [Sys.isdiremptyLoop, wp_bind]
    refine readde_wp hlock fun r => ?_
    cases r with
    | none => exact wp_panic (by decide)
    | some de =>
      dsimp only
      split_ifs
      · exact hQ _
      · exact ih

end Directories

/-! ### Paths -/

variable (hheld : b.tab.held = true) (hfirm : l.Firm)

include hheld hfirm

section Paths

variable {parent : Bool} {Q : Option (η × Name) → Post ι η}

omit hheld in
/-- The loop of `namex`. Between two elements the call has one reference more than before, to where
it has got to. -/
theorem namexLoop_wp (hnone : Q none (b.at l))
    (hsome : ∀ x name, Q (some (x, name)) (b.at (l.take x))) (names : List Name) (ip : η) :
    (namexLoop parent ip names).wp sysRules Q (b.at (l.take ip)) := by
  induction names generalizing ip with
  | nil =>
    rw [Sys.namexLoop]
    split_ifs
    · rw [wp_bind]
      refine wp_iput hfirm.spare ?_
      rw [drop_take]
      exact hnone
    · exact hsome ip []
  | cons name rest ih =>
    simp only [Sys.namexLoop, wp_bind]
    refine wp_ilock_take fun hunlocked => wp_getType fun k => ?_
    split_ifs
    · exact iunlockput_bind_wp hunlocked hnone
    · rw [wp_bind]
      refine wp_iunlock (by simp) ?_
      rw [unlock_lock (l := l.take ip) hunlocked]
      exact hsome ip name
    · rw [wp_bind]
      refine dirlookup_wp (by simp) ?_ fun next off => ?_
      · exact iunlockput_bind_wp hunlocked hnone
      · exact iunlockput_next_wp hunlocked (ih next)

/-- **Following a path.** -/
theorem namex_wp (hnone : Q none (b.at l))
    (hsome : ∀ x name, Q (some (x, name)) (b.at (l.take x))) :
    (Sys.namex path parent).wp sysRules Q (b.at l) := by
  rw [Sys.namex]
  split_ifs
  · rw [wp_bind]
    exact wp_iget fun ip => namexLoop_wp hfirm hnone hsome _ ip
  · rw [wp_bind]
    refine wp_cwd ?_
    cases hcwd : b.tab.cwd with
    | none => exact hnone
    | some dp =>
      dsimp only
      rw [wp_bind]
      exact And.intro (.inr (.inl ⟨hheld, hcwd⟩)) (namexLoop_wp hfirm hnone hsome _ dp)

theorem namei_wp {Q : Option η → Post ι η} (hnone : Q none (b.at l))
    (hsome : ∀ x, Q (some x) (b.at (l.take x))) :
    (Sys.namei path).wp sysRules Q (b.at l) := by
  rw [Sys.namei, wp_bind]
  exact namex_wp hheld hfirm hnone fun x _ => hsome x

theorem nameiparent_wp (hnone : Q none (b.at l))
    (hsome : ∀ x name, Q (some (x, name)) (b.at (l.take x))) :
    (Sys.nameiparent path).wp sysRules Q (b.at l) := namex_wp hheld hfirm hnone hsome

end Paths

/-! ### Names of inodes -/

omit hheld in
theorem createDots_wp (hip : l.locks ip = some false) (hQ : Q () (b.at l)) :
    (Sys.createDots dp ip).wp sysRules Q (b.at l) := by
  simp only [Sys.createDots, wp_bind]
  refine wp_getInum fun n => dirlink_wp hfirm hip fun ok => ?_
  cases ok with
  | false => exact wp_panic (by decide)
  | true =>
    rw [if_neg (by decide), wp_bind]
    refine wp_getInum fun m => ?_
    rw [wp_bind]
    refine dirlink_wp hfirm hip fun ok => ?_
    cases ok with
    | false => exact wp_panic (by decide)
    | true => exact hQ

omit hheld in
theorem createName_wp {Q : Option η → Post ι η} {name : Name} (hdp : l.locks dp = some false)
    (hQ : Q (some ip) (b.at ((l.unlock dp).drop dp))) :
    (createName dp ip name).wp sysRules Q (b.at l) := by
  simp only [createName, wp_bind]
  refine wp_getInum fun n => dirlink_wp hfirm hdp fun ok => ?_
  cases ok with
  | false => exact wp_panic (by decide)
  | true => exact iunlockput_wp hdp (hfirm dp (by simp [hdp])) hQ

omit hheld in
theorem createNew_wp {Q : Option η → Post ι η} {name : Name} (ht : type ≠ .free)
    (hdp : l.locks dp = none) (hsome : ∀ x, Q (some x) (b.at ((l.take x).lock x false))) :
    (createNew dp name type major minor).wp sysRules Q (b.at ((l.take dp).lock dp false)) := by
  simp only [Sys.createNew, wp_bind]
  refine wp_ialloc ht fun ip => ?_
  rw [take_lock]
  refine wp_ilock (.inl (by simp)) fun hunlocked => ?_
  have hne : dp ≠ ip := by
    rintro rfl
    simp at hunlocked
  refine wp_setDev (by simp) (wp_setNlink (by simp) (wp_iupdate (by simp) ?_))
  simp only [lock_lock]
  -- both are locked now, with a reference to each
  set m := (((l.take dp).take ip).lock dp false).lock ip false with hm
  have hmip : m.locks ip = some false := by simp [hm]
  have hmdp : m.locks dp = some false := by rw [hm, lock_of_ne hne, lock_self]
  have hmfirm : m.Firm := hfirm.pair
  have hend : (m.unlock dp).drop dp = (l.take ip).lock ip false := by
    rw [hm, unlock_lock_of_ne (Ne.symm hne), unlock_lock (l := (l.take dp).take ip) hdp,
      drop_lock, drop_take_take]
  have hname : (createName dp ip name).wp sysRules Q (b.at m) := by
    refine createName_wp hmfirm hmdp ?_
    rw [hend]
    exact hsome ip
  split_ifs
  · simp only [wp_bind]
    refine wp_getNlink fun n => wp_setNlink (by simp [hmdp]) (wp_iupdate (by simp) ?_)
    rw [lock_lock, lock_eq_self hmdp]
    exact createDots_wp hmfirm hmip hname
  · exact hname

/-- **Creating an inode with a name**, or finding the file that has it. -/
theorem create_wp {Q : Option η → Post ι η} (ht : type ≠ .free) (hnone : Q none (b.at l))
    (hsome : ∀ x, Q (some x) (b.at ((l.take x).lock x false))) :
    (Sys.create path type major minor).wp sysRules Q (b.at l) := by
  rw [Sys.create, wp_bind]
  refine nameiparent_wp hheld hfirm hnone fun dp name => ?_
  simp only [wp_bind]
  refine wp_ilock_take fun hdp => dirlookup_wp (by simp) ?_ fun ip off => ?_
  · exact createNew_wp hfirm ht hdp hsome
  · refine iunlockput_next_wp hdp ?_
    simp only [wp_bind]
    refine wp_ilock_take fun hip => wp_getType fun k => ?_
    split_ifs
    · exact hsome ip
    · exact iunlockput_bind_wp hip hnone

theorem sysMake_wp {Q : ℤ → Post ι η} (ht : type ≠ .free) (hlocks : ∀ x, l.locks x = none)
    (hQ : ∀ r, Q r (b.at l)) : (Sys.sysMake path type major minor).wp sysRules Q (b.at l) := by
  rw [Sys.sysMake, wp_bind]
  exact create_wp hheld hfirm ht (hQ _) fun ip => iunlockput_bind_wp (hlocks ip) (hQ _)

omit hheld hfirm in
theorem dropLink_wp (hip : l.locks ip = some false) (href : 1 ≤ l.refs ip)
    (hQ : Q () (b.at ((l.unlock ip).drop ip))) :
    (dropLink ip).wp sysRules Q (b.at l) := by
  simp only [dropLink, wp_bind]
  refine wp_getNlink fun n => wp_setNlink (by simp [hip]) (wp_iupdate (by simp) ?_)
  rw [lock_lock, lock_eq_self hip]
  exact iunlockput_wp hip href hQ

omit hheld hfirm in
theorem linkBad_wp {Q : ℤ → Post ι η} (hQ : ∀ r, Q r (b.at l)) :
    (Sys.linkBad ip).wp sysRules Q (b.at (l.take ip)) := by
  simp only [Sys.linkBad, wp_bind]
  refine wp_ilock_take fun hip => dropLink_wp (by simp) (by simp) ?_
  rw [drop_unlock_lock (l := l) hip]
  exact hQ _

/-- **Linking.** -/
theorem sysLink_wp {Q : ℤ → Post ι η} {old new : Name} (hQ : ∀ r, Q r (b.at l)) :
    (Sys.sysLink old new).wp sysRules Q (b.at l) := by
  rw [Sys.sysLink, wp_bind]
  refine namei_wp hheld hfirm (hQ _) fun ip => ?_
  simp only [wp_bind]
  refine wp_ilock_take fun hip => wp_getType fun k => ?_
  split_ifs
  · exact iunlockput_bind_wp hip (hQ _)
  · simp only [wp_bind]
    refine wp_getNlink fun n => wp_setNlink (by simp)
      (wp_iupdate (by simp) (wp_iunlock (by simp) ?_))
    rw [lock_lock, lock_lock, unlock_lock (l := l.take ip) hip]
    refine nameiparent_wp hheld hfirm.take (linkBad_wp hQ) fun dp name => ?_
    simp only [wp_bind]
    refine wp_ilock_take fun hdp => wp_getInum fun inum => ?_
    refine dirlink_wp (hfirm.take.take.lock (by simp)) (by simp) fun ok => ?_
    cases ok with
    | false => exact iunlockput_bind_wp hdp (linkBad_wp hQ)
    | true =>
      refine iunlockput_bind_wp hdp ?_
      rw [wp_bind]
      refine wp_iput hfirm.spare ?_
      rw [drop_take]
      exact hQ _

omit hheld in
theorem unlinkEntry_wp {Q : ℤ → Post ι η} {off : ℕ} (hne : dp ≠ ip) (hdp : l.locks dp = some false)
    (hip : l.locks ip = some false)
    (hQ : ∀ r, Q r (b.at ((((l.unlock dp).drop dp).unlock ip).drop ip)))
    (href : 1 ≤ (l.drop dp).refs ip) : (unlinkEntry dp ip off).wp sysRules Q (b.at l) := by
  have hrest : (iunlockput dp >>= fun _ => dropLink ip >>= fun _ =>
      (pure 0 : Sys ι η ℤ)).wp sysRules Q (b.at l) := by
    simp only [wp_bind]
    refine iunlockput_wp hdp (hfirm dp (by simp [hdp])) (dropLink_wp ?_ href (hQ 0))
    rw [drop_locks, unlock_of_ne (Ne.symm hne), hip]
  simp only [Sys.unlinkEntry, wp_bind]
  refine writede_wp hdp fun ok => ?_
  cases ok with
  | false => exact wp_panic (by decide)
  | true =>
    rw [if_neg (by decide), wp_bind]
    refine wp_getType fun k => ?_
    split_ifs
    · rw [wp_bind]
      refine wp_getNlink fun n => ?_
      simp only [wp_bind]
      refine wp_setNlink (by simp [hdp]) (wp_iupdate (by simp) ?_)
      rw [lock_lock, lock_eq_self hdp]
      simpa only [wp_bind] using hrest
    · exact hrest

/-- **Unlinking.** -/
theorem sysUnlink_wp {Q : ℤ → Post ι η} (hQ : ∀ r, Q r (b.at l)) :
    (Sys.sysUnlink path).wp sysRules Q (b.at l) := by
  rw [Sys.sysUnlink, wp_bind]
  refine nameiparent_wp hheld hfirm (hQ _) fun dp name => ?_
  simp only [wp_bind]
  refine wp_ilock_take fun hdp => ?_
  split_ifs
  · exact iunlockput_bind_wp hdp (hQ _)
  rw [wp_bind]
  refine dirlookup_wp (by simp) ?_ fun ip off => ?_
  · exact iunlockput_bind_wp hdp (hQ _)
  simp only [wp_bind]
  rw [take_lock]
  refine wp_ilock (.inl (by simp)) fun hunlocked => wp_getNlink fun n => ?_
  have hne : dp ≠ ip := by
    rintro rfl
    simp at hunlocked
  have hip : l.locks ip = none := by
    rwa [lock_of_ne (Ne.symm hne)] at hunlocked
  -- both are locked now
  set m := (((l.take dp).take ip).lock dp false).lock ip false with hm
  have hmip : m.locks ip = some false := by simp [hm]
  have hmdp : m.locks dp = some false := by rw [hm, lock_of_ne hne, lock_self]
  have hmfirm : m.Firm := hfirm.pair
  split_ifs
  · rw [wp_bind]
    exact wp_panic (by decide)
  rw [wp_bind]
  refine wp_getType fun k => ?_
  have hrest : ∀ empty : Bool, wp sysRules (if !empty then
        iunlockput ip >>= fun _ => iunlockput dp >>= fun _ => (pure (-1) : Sys ι η ℤ)
      else unlinkEntry dp ip off) Q (b.at m) := by
    intro empty
    cases empty with
    | false =>
      rw [Bool.not_false, if_pos rfl, wp_bind]
      refine iunlockput_wp hmip (hmfirm ip (by simp [hmip])) ?_
      have hdone : (m.unlock ip).drop ip = (l.take dp).lock dp false := by
        rw [hm, unlock_lock, drop_lock, drop_take]
        rwa [lock_of_ne (Ne.symm hne)]
      rw [hdone]
      exact iunlockput_bind_wp hdp (hQ _)
    | true =>
      refine unlinkEntry_wp hmfirm hne hmdp hmip (fun r => ?_) ?_
      · have hdone : (((m.unlock dp).drop dp).unlock ip).drop ip = l := by
          rw [hm, unlock_lock_of_ne (Ne.symm hne),
            unlock_lock (l := (l.take dp).take ip) hdp, drop_lock, drop_take_take,
            drop_unlock_lock hip]
        rw [hdone]
        exact hQ r
      · simp [hm, drop_of_ne (Ne.symm hne)]
  split_ifs
  · rw [wp_bind]
    exact isdirempty_wp (by simp [hmip]) fun empty => hrest empty
  · exact hrest true

theorem openInode_wp {Q : Option η → Post ι η} {omode : ℕ} (hnone : Q none (b.at l))
    (hsome : ∀ x, Q (some x) (b.at ((l.take x).lock x false))) :
    (Sys.openInode path omode).wp sysRules Q (b.at l) := by
  rw [Sys.openInode]
  split_ifs
  · exact create_wp hheld hfirm (by decide) hnone hsome
  · rw [wp_bind]
    refine namei_wp hheld hfirm hnone fun ip => ?_
    simp only [wp_bind]
    refine wp_ilock_take fun hip => wp_getType fun k => ?_
    split_ifs
    · exact iunlockput_bind_wp hip hnone
    · exact hsome ip

omit hheld hfirm in
theorem relock_wp {Q : α → Post ι η} {k : Sys ι η α} (hx : 1 ≤ l.refs ip ∨ b.leases ip)
    (hlock : l.locks ip = some false) (hk : k.wp sysRules Q (b.at l)) :
    (iunlock ip >>= fun _ => ilock ip >>= fun _ => k).wp sysRules Q (b.at l) := by
  simp only [wp_bind]
  refine wp_iunlock hlock (wp_ilock hx fun _ => ?_)
  have hsame : (l.unlock ip).lock ip false = l := by
    rw [← lock_eq_self hlock]
    simp [lock, unlock]
  rwa [hsame]

theorem exec_wp {Q : ℤ → Post ι η} {reads : List (UInt32 × UInt32)}
    (hQ : ∀ r, Q r (b.at l)) :
    (exec path reads).wp sysRules Q (b.at l) := by
  rw [Sys.exec, wp_bind]
  refine namei_wp hheld hfirm (hQ _) fun ip => ?_
  simp only [wp_bind]
  refine wp_ilock_take fun hip => ?_
  induction reads with
  | nil =>
    refine iunlockput_wp (by simp) (by simp) ?_
    rw [drop_unlock_lock hip]
    exact hQ _
  | cons x reads ih =>
    rw [execReads, wp_bind]
    refine wp_readi (by simp) fun r => ?_
    cases r with
    | device => exact relock_wp (.inl (by simp)) (by simp) ih
    | fail => exact ih
    | done n bytes => exact ih

end Xv6.Sysfile
