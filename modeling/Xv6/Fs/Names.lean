import Xv6.Fs.Rules

/-!
# Directories and paths

What a process has after it has looked up a name, made an entry, or followed a path. Each statement
is in terms of what comes next: the program may run if what comes next may run with every answer.

Between the elements of a path a process has nothing locked: it keeps one reference, to where it has
got to.

## Main results

* `implement_rules` — the interface is implemented as the rules say
* `dirlookup_wp`, `dirlink_wp`, `isdirempty_wp`, `namex_wp`
-/

namespace Xv6.Fs.Tree

open Concurrent Function List Local Call Sys

/-! ### The interface -/

/-- What table operations do to the tables of the process. -/
def tabRules : Spec TabOp TabOp.Ret Tab
  | .cwd, Q, t => Q t.cwd t
  | .setCwd ip, Q, t => Q () { t with cwd := ip }
  | .ofile fd, Q, t => Q (t.ofile fd) t
  | .setOfile fd f, Q, t => Q () { t with ofile := update t.ofile fd f }
  | .filealloc, Q, t => ∀ b, Q b t
  | .filefree, Q, t => Q () t

/-- What is to hold of a process after a step of a call. -/
abbrev Post := Local × Tab → Prop

variable {Q : Unit → Post}

/-- What a process may ask for, and what it has then. -/
def sysRules (strict : Prop) : Spec Op Op.Ret (Local × Tab)
  | .inl o, Q, x => rules strict o (fun r l => Q r (l, x.2)) x.1
  | .inr o, Q, x => tabRules o (fun r t => Q r (x.1, t)) x.2

section Interface

variable {ι : Type}

/-- The processes have the tables that they have. -/
def TabInv (g : ι → Tab) (t : Tables ι) : Prop := ∀ q, t.proc q = g q

/-- What holds of the inodes and the tables, with what the processes have. -/
def SysInv [Fintype ι] (sb : Super) (strict : Prop) (g : ι → Local × Tab)
    (x : State × Tables ι) : Prop :=
  Inv sb strict (fun q => (g q).1) x.1 ∧ TabInv (fun q => (g q).2) x.2

variable [DecidableEq ι] {p : ι}

theorem TabInv.setTab {g : ι → Tab} {t : Tables ι} (h : TabInv g t) (x : Tab) :
    TabInv (update g p x) (t.setTab p x) := by
  intro q
  by_cases hq : q = p
  · subst hq
    simp [Tables.setTab]
  · simp [Tables.setTab, hq, h q]

theorem TabInv.apply {g : ι → Tab} {t : Tables ι} (h : TabInv g t) {o : TabOp}
    {Q : o.Ret → Tab → Prop} (hQ : tabRules o Q (g p)) :
    ∃ x, TabInv (update g p x) (o.apply p t).2 ∧ Q (o.apply p t).1 x := by
  have hsame : TabInv (update g p (g p)) t := by rwa [update_eq_self]
  have hp := h p
  match o, Q, hQ with
  | .cwd, Q, hQ => exact ⟨g p, hsame, by rwa [TabOp.apply, hp]⟩
  | .setCwd ip, Q, hQ =>
    rw [TabOp.apply, hp]
    exact ⟨_, h.setTab _, hQ⟩
  | .ofile fd, Q, hQ => exact ⟨g p, hsame, by rwa [TabOp.apply, hp]⟩
  | .setOfile fd f, Q, hQ =>
    rw [TabOp.apply, hp]
    exact ⟨_, h.setTab _, hQ⟩
  | .filealloc, Q, hQ =>
    rw [TabOp.apply]
    split_ifs
    · exact ⟨g p, hsame, hQ true⟩
    · exact ⟨g p, hsame, hQ false⟩
  | .filefree, Q, hQ => exact ⟨g p, hsame, hQ⟩

variable [Fintype ι] {sb : Super} {strict : Prop}

/-- **The interface is implemented as the rules say.** -/
theorem implement_rules (o : Op) (Q : Op.Ret o → Post) (x : Local × Tab)
    (h : sysRules strict o Q x) :
    Wp (SysInv sb strict) (contract sb strict).onFst p (implement (inodes sb) p o) Q x := by
  obtain ⟨l, t⟩ := x
  match o, Q, h with
  | .inl o, Q, h => exact Wp.onFst (inodes_rules o _ l h)
  | .inr o, Q, h =>
    have hstep : ∀ g tabs, TabInv g tabs → g p = t → ∃ x,
        TabInv (update g p x) (o.apply p tabs).2 ∧ Q (o.apply p tabs).1 (l, x) := by
      rintro g tabs hI rfl
      exact hI.apply h
    exact Wp.onSnd (f := fun tabs => o.apply p tabs) (fun s => orderly_of_ino rfl) hstep

end Interface

/-! ### Asking for one thing -/

variable {strict : Prop} {l l' : Local} {t : Tab} {i j d : ℕ} {v w : Ino} {name : Name}

theorem wp_iget (hd : l.dying = none)
    (hi : i = rootino ∨ ∃ d v e, l.locks d = some v ∧ ¬l.Fresh d ∧ e ∈ v.entries ∧ e.inum = i ∧
      i ≠ 0) (hQ : Q () (l.take i, t)) : (Sys.iget i).wp (sysRules strict) Q (l, t) :=
  And.intro hd ⟨hi, hQ⟩

theorem wp_idup (hd : l.dying = none) (hi : 1 ≤ l.refs i)
    (hQ : Q () (l.take i, t)) : (Sys.idup i).wp (sysRules strict) Q (l, t) :=
  And.intro hd ⟨hi, hQ⟩

theorem wp_ilock (hd : l.dying = none) (hi : 1 ≤ l.refs i)
    (hQ : ∀ v, Found l i v → Q () (l.lock i v, t)) : (Sys.ilock i).wp (sysRules strict) Q (l, t) :=
  And.intro hd ⟨hi, hQ⟩

theorem wp_iunlock (hv : l.locks i = some v) (hf : ¬l.Fresh i)
    (hp : v.type = .dir → l.pend i = 0) (hQ : Q () (l.unlock i, t)) :
    (Sys.iunlock i).wp (sysRules strict) Q (l, t) :=
  Exists.intro v ⟨hv, hf, hp, hQ⟩

theorem wp_iput (hd : l.dying = none) (hi : 1 ≤ l.refs i)
    (hlock : l.locks i ≠ none → 2 ≤ l.refs i) (hf : ¬l.Fresh i) (hQ : Q () (l.drop i, t)) :
    (Sys.iput i).wp (sysRules strict) Q (l, t) :=
  And.intro hd ⟨hi, hlock, hf, hQ⟩

theorem wp_ialloc {Q : ℕ → Post} {type : Kind} (hd : l.dying = none)
    (hf : l.fresh = none) (ht : type ≠ .free)
    (hQ : ∀ i, i ≠ 0 → l.refs i = 0 → l.locks i = none → l.pend i = 0 →
      Q i ((l.setFresh (some (i, type))).take i, t)) :
    (Sys.ialloc type).wp (sysRules strict) Q (l, t) :=
  And.intro hd ⟨hf, ht, hQ⟩

theorem wp_getType {Q : Kind → Post} (hv : l.locks i = some v)
    (hQ : Q v.type (l, t)) : (getType i).wp (sysRules strict) Q (l, t) :=
  Exists.intro v ⟨hv, hQ⟩

theorem wp_getNlink {Q : ℤ → Post} (hv : l.locks i = some v)
    (hQ : Q v.nlink (l, t)) : (getNlink i).wp (sysRules strict) Q (l, t) :=
  Exists.intro v ⟨hv, hQ⟩

theorem wp_getSize {Q : ℕ → Post} (hv : l.locks i = some v)
    (hQ : Q (v.entries.length * direntSize) (l, t)) : (getSize i).wp (sysRules strict) Q (l, t) :=
  Exists.intro v ⟨hv, hQ⟩

theorem wp_setNlink {n : ℤ} (k : ℕ) (hd : l.dying = none)
    (hv : l.locks i = some v) (hk : n - v.nlink = k - (l.pend i : ℤ))
    (hQ : (strict → v.type = .dir → v.nlink = 0 → v.entries ≠ [] → n = 0) →
      Q () ((l.lock i { v with nlink := n }).setPend i k, t)) :
    (Sys.setNlink i n).wp (sysRules strict) Q (l, t) :=
  And.intro hd ⟨v, k, hv, hk, hQ⟩

theorem wp_readde {Q : Option Dirent → Post} {k : ℕ} (hv : l.locks i = some v)
    (hk : k < v.entries.length) (hQ : ∀ e, v.entries[k]? = some e → Q (some e) (l, t)) :
    (readde i (k * direntSize)).wp (sysRules strict) Q (l, t) := by
  have he := List.getElem?_eq_getElem hk
  refine Exists.intro v ⟨hv, ?_⟩
  rw [Nat.mul_div_cancel k (by decide), he]
  exact hQ _ he

theorem wp_writede {Q : Bool → Post} {k : ℕ} {de : Dirent} (hd : l.dying = none)
    (hfalse : Q false (l, t)) (hv : l.locks i = some v) (he : Enters strict l i v k de l')
    (htrue : Q true (l', t)) :
    (Sys.writede i (k * direntSize) de).wp (sysRules strict) Q (l, t) := by
  refine And.intro hd ⟨hfalse, v, l', hv, ?_, htrue⟩
  rwa [Nat.mul_div_cancel k (by decide)]

theorem wp_panic {e : Panic} (he : e ≠ .noType) : (panic e).wp (sysRules strict) Q (l, t) := he

theorem wp_setDev {major minor : ℤ} (hQ : Q () (l, t)) :
    (setDev i major minor).wp (sysRules strict) Q (l, t) := hQ

theorem wp_iupdate (hQ : Q () (l, t)) : (Sys.iupdate i).wp (sysRules strict) Q (l, t) := hQ

theorem wp_cwd {Q : Option ℕ → Post} (hQ : Q t.cwd (l, t)) : cwd.wp (sysRules strict) Q (l, t) := hQ

theorem wp_setCwd {ip : Option ℕ}
    (hQ : Q () (l, { t with cwd := ip })) : (setCwd ip).wp (sysRules strict) Q (l, t) := hQ

theorem wp_ofile {Q : Option Desc → Post} {fd : ℕ} (hQ : Q (t.ofile fd) (l, t)) :
    (ofile fd).wp (sysRules strict) Q (l, t) := hQ

theorem wp_setOfile {fd : ℕ} {f : Option Desc}
    (hQ : Q () (l, { t with ofile := update t.ofile fd f })) :
    (setOfile fd f).wp (sysRules strict) Q (l, t) := hQ

theorem wp_filealloc {Q : Bool → Post} (hQ : ∀ b, Q b (l, t)) :
    filealloc.wp (sysRules strict) Q (l, t) := hQ

theorem wp_filefree (hQ : Q () (l, t)) : filefree.wp (sysRules strict) Q (l, t) := hQ

namespace Local

theorem ext' (hrefs : ∀ i, l.refs i = l'.refs i) (hlocks : ∀ i, l.locks i = l'.locks i)
    (hpend : ∀ i, l.pend i = l'.pend i) (hfresh : l.fresh = l'.fresh)
    (hdying : l.dying = l'.dying) : l = l' := by
  obtain ⟨_, _, _, _, _⟩ := l
  obtain rfl := funext hrefs
  obtain rfl := funext hlocks
  obtain rfl := funext hpend
  obtain rfl := hfresh
  obtain rfl := hdying
  rfl

theorem drop_take : (l.take i).drop i = l :=
  ext' (fun _ => Nat.add_sub_cancel _ _) (fun _ => rfl) (fun _ => rfl) rfl rfl

theorem drop_take_take : ((l.take i).take j).drop i = l.take j :=
  ext' (fun _ => Nat.sub_eq_of_eq_add (Nat.add_right_comm _ _ _)) (fun _ => rfl)
    (fun _ => rfl) rfl rfl

theorem le_take_refs : l.refs j ≤ (l.take i).refs j := Nat.le_add_right _ _

theorem unlock_lock (h : l.locks i = none) : (l.lock i v).unlock i = l := by
  refine ext' (fun _ => rfl) (fun j => ?_) (fun _ => rfl) rfl rfl
  by_cases hj : j = i
  · subst hj
    rw [unlock_self, h]
  · rw [unlock_of_ne hj, lock_of_ne hj]

theorem lock_lock : (l.lock i v).lock i w = l.lock i w := by
  simp only [lock, update_idem]

theorem unlock_take : (l.take j).unlock i = (l.unlock i).take j := rfl

theorem drop_unlock_lock (h : l.locks i = none) : (((l.take i).lock i v).unlock i).drop i = l := by
  rw [unlock_lock (l := l.take i) h, drop_take]

theorem drop_unlock_lock_take (h : l.locks i = none) :
    ((((l.take i).lock i v).take j).unlock i).drop i = l.take j := by
  rw [unlock_take, unlock_lock (l := l.take i) h, drop_take_take]

/-- Nothing is locked, and nothing is being allocated or freed. -/
structure Plain (l : Local) : Prop where
  dying : l.dying = none
  fresh : l.fresh = none
  locks : ∀ i, l.locks i = none

end Local

/-! ### Directories -/

theorem iunlockput_wp (hd : l.dying = none) (hv : l.locks i = some v) (hf : ¬l.Fresh i)
    (hp : v.type = .dir → l.pend i = 0) (hi : 1 ≤ l.refs i)
    (hQ : Q () ((l.unlock i).drop i, t)) : (iunlockput i).wp (sysRules strict) Q (l, t) := by
  simp only [iunlockput, wp_bind]
  refine wp_iunlock hv hf hp (wp_iput hd hi ?_ hf hQ)
  intro hne
  simp at hne

section Plain

variable {α : Type} {Q : α → Post} {k : Unit → Sys α}

theorem iunlockput_bind_wp (hl : l.Plain) (hp : v.type = .dir → l.pend i = 0)
    (hQ : (k ()).wp (sysRules strict) Q (l, t)) :
    (iunlockput i >>= k).wp (sysRules strict) Q ((l.take i).lock i v, t) := by
  rw [wp_bind]
  refine iunlockput_wp hl.dying lock_self (not_fresh hl.fresh) hp (by simp [lock]) ?_
  rwa [drop_unlock_lock (hl.locks i)]

theorem iunlockput_next_wp (hl : l.Plain) (hp : v.type = .dir → l.pend i = 0)
    (hQ : (k ()).wp (sysRules strict) Q (l.take j, t)) :
    (iunlockput i >>= k).wp (sysRules strict) Q (((l.take i).lock i v).take j, t) := by
  have hpos : 1 ≤ (l.take i).refs i := by simp
  rw [wp_bind]
  refine iunlockput_wp hl.dying lock_self (not_fresh hl.fresh) hp (hpos.trans le_take_refs) ?_
  rwa [drop_unlock_lock_take (hl.locks i)]

end Plain

theorem offsets_entries (k n : ℕ) :
    offsets k (n * direntSize) = (List.range' k (n - k)).map (· * direntSize) := by
  have hn : (n * direntSize + direntSize - 1) / direntSize = n := by
    rw [Nat.add_sub_assoc (by decide), Nat.mul_comm,
      Nat.mul_add_div (by decide), Nat.div_eq_of_lt (by decide), Nat.add_zero]
  rw [offsets, hn, range_eq_range', drop_range']
  simp

/-- The loop of `dirlookup`, from entry `k` on. -/
theorem dirlookupLoop_wp {Q : Option (ℕ × ℕ) → Post} (hd : l.dying = none) (hv : l.locks d = some v)
    (hf : ∀ e ∈ v.entries, e.inum ≠ 0 → e.name = name → ¬l.Fresh d)
    (hnone : (∀ e ∈ v.entries, e.inum ≠ 0 → e.name ≠ name) → Q none (l, t))
    (hsome : ∀ k e, v.entries[k]? = some e → e.inum ≠ 0 → e.name = name →
      Q (some (e.inum, k * direntSize)) (l.take e.inum, t))
    {k n : ℕ} (hk : k + n = v.entries.length)
    (hbefore : ∀ e ∈ v.entries.take k, e.inum ≠ 0 → e.name ≠ name) :
    (dirlookupLoop d name ((List.range' k n).map (· * direntSize))).wp (sysRules strict) Q
      (l, t) := by
  induction n generalizing k with
  | zero =>
    refine hnone fun e he => hbefore e ?_
    rwa [take_of_length_le (by omega)]
  | succ n ih =>
    rw [range'_succ, map_cons, dirlookupLoop]
    simp only [wp_bind]
    refine wp_readde hv (by omega) fun e he => ?_
    have hmem := mem_of_getElem? he
    have hnext : (e.inum ≠ 0 → e.name ≠ name) →
        ∀ e ∈ v.entries.take (k + 1), e.inum ≠ 0 → e.name ≠ name := fun hne e' he' => by
      rw [take_add_one, he] at he'
      rcases mem_append.mp he' with he' | he'
      · exact hbefore e' he'
      · obtain rfl : e' = e := by simpa using he'
        exact hne
    by_cases h0 : e.inum = 0
    · simp only [h0, if_true]
      exact ih (by omega) (hnext fun hne => absurd h0 hne)
    · simp only [h0, if_false]
      by_cases hname : name = e.name
      · simp only [hname, if_true, wp_bind]
        exact wp_iget hd (.inr ⟨d, v, e, hv, hf e hmem h0 hname.symm, hmem, rfl, h0⟩)
          (hsome k e he h0 hname.symm)
      · simp only [hname, if_false]
        exact ih (by omega) (hnext fun _ => Ne.symm hname)

/-- **Looking up a name** in a locked directory. If there is an entry with the name, the process
gets a reference to what it names. -/
theorem dirlookup_wp {Q : Option (ℕ × ℕ) → Post} (hd : l.dying = none) (hv : l.locks d = some v)
    (hf : ∀ e ∈ v.entries, e.inum ≠ 0 → e.name = name → ¬l.Fresh d)
    (hnone : v.type = .dir → (∀ e ∈ v.entries, e.inum ≠ 0 → e.name ≠ name) → Q none (l, t))
    (hsome : v.type = .dir → ∀ k e, v.entries[k]? = some e → e.inum ≠ 0 → e.name = name →
      Q (some (e.inum, k * direntSize)) (l.take e.inum, t)) :
    (dirlookup d name).wp (sysRules strict) Q (l, t) := by
  simp only [dirlookup, wp_bind]
  refine wp_getType hv ?_
  by_cases hdir : v.type = .dir
  · simp only [hdir, ne_eq, not_true_eq_false, if_false, wp_bind]
    refine wp_getSize hv ?_
    rw [offsets_entries]
    exact dirlookupLoop_wp hd hv hf (hnone hdir) (hsome hdir) (by omega) nofun
  · simp only [hdir, ne_eq, not_false_eq_true, if_true, wp_bind]
    exact wp_panic nofun

/-- The loop of `dirlink`, from entry `k` on: it finds the first entry that is empty, or the end. -/
theorem emptyEntry_wp {Q : ℕ → Post} (hv : l.locks d = some v)
    (hQ : ∀ k, k ≤ v.entries.length → (∀ e, v.entries[k]? = some e → e.inum = 0) →
      (∀ e ∈ v.entries.take k, e.inum ≠ 0) → Q (k * direntSize) (l, t))
    {k n : ℕ} (hk : k + n = v.entries.length) (hbefore : ∀ e ∈ v.entries.take k, e.inum ≠ 0) :
    (emptyEntry d (v.entries.length * direntSize)
      ((List.range' k n).map (· * direntSize))).wp (sysRules strict) Q (l, t) := by
  induction n generalizing k with
  | zero =>
    refine hQ v.entries.length le_rfl (fun e he => ?_) fun e he => hbefore e ?_
    · rw [List.getElem?_eq_none le_rfl] at he
      cases he
    · rwa [show k = v.entries.length by omega]
  | succ n ih =>
    rw [range'_succ, map_cons, emptyEntry]
    simp only [wp_bind]
    refine wp_readde hv (by omega) fun e he => ?_
    by_cases h0 : e.inum = 0
    · simp only [h0, if_true]
      refine hQ k (by omega) (fun e' he' => ?_) hbefore
      obtain rfl : e = e' := Option.some.inj (he.symm.trans he')
      exact h0
    · simp only [h0, if_false]
      refine ih (by omega) fun e' he' => ?_
      rw [take_add_one, he] at he'
      rcases mem_append.mp he' with he' | he'
      · exact hbefore e' he'
      · obtain rfl : e' = e := by simpa using he'
        exact h0

/-- **Making an entry** in a locked directory: it goes to the first entry that is empty, or to the
end, unless there is one with the name already. -/
theorem dirlink_wp {Q : Bool → Post} {inum : ℕ} (hd : l.dying = none)
    (hv : l.locks d = some v) (hrefs : ∀ i, l.locks i ≠ none → 1 ≤ l.refs i)
    (hf : ∀ e ∈ v.entries, e.inum ≠ 0 → e.name = name → l.fresh = none) (hfalse : Q false (l, t))
    (htrue : v.type = .dir → (∀ e ∈ v.entries, e.inum ≠ 0 → e.name ≠ name) →
      ∀ k, k ≤ v.entries.length → (∀ e, v.entries[k]? = some e → e.inum = 0) →
      (∀ e ∈ v.entries.take k, e.inum ≠ 0) →
      ∃ l', Enters strict l d v k ⟨inum, name⟩ l' ∧ Q true (l', t)) :
    (dirlink d name inum).wp (sysRules strict) Q (l, t) := by
  simp only [dirlink, wp_bind]
  refine dirlookup_wp hd hv (fun e he h0 hname => not_fresh (hf e he h0 hname))
    (fun hdir hno => ?_) fun hdir k e he h0 hname => ?_
  · simp only [wp_bind]
    refine wp_getSize hv ?_
    rw [offsets_entries]
    refine emptyEntry_wp hv (fun k hk hempty hbefore => ?_) (by omega) nofun
    obtain ⟨l', henter, hQ⟩ := htrue hdir hno k hk hempty hbefore
    refine wp_writede hd ?_ hv henter ?_
    · exact wp_panic nofun
    · exact hQ
  · simp only [wp_bind]
    have hmem := mem_of_getElem? he
    refine wp_iput hd (by simp) (fun hne => ?_) (not_fresh (hf e hmem h0 hname)) ?_
    · rw [take_self]
      exact Nat.succ_le_succ (hrefs _ hne)
    · rwa [Local.drop_take]

theorem isdiremptyLoop_wp {Q : Bool → Post} (hv : l.locks d = some v)
    (hfalse : Q false (l, t)) {k n : ℕ} (hk : k + n = v.entries.length)
    (htrue : (∀ e ∈ v.entries.drop k, e.inum = 0) → Q true (l, t)) :
    (isdiremptyLoop d ((List.range' k n).map (· * direntSize))).wp (sysRules strict) Q (l, t) := by
  induction n generalizing k with
  | zero =>
    refine htrue fun e he => ?_
    rw [drop_eq_nil_of_le (by omega)] at he
    cases he
  | succ n ih =>
    rw [range'_succ, map_cons, isdiremptyLoop]
    simp only [wp_bind]
    refine wp_readde hv (by omega) fun e he => ?_
    by_cases h0 : e.inum = 0
    · simp only [h0, ne_eq, not_true_eq_false, if_false]
      refine ih (by omega) fun hrest => htrue fun e' he' => ?_
      rw [drop_eq_getElem?_toList_append, he] at he'
      rcases mem_append.mp he' with he' | he'
      · obtain rfl : e' = e := by simpa using he'
        exact h0
      · exact hrest e' he'
    · simp only [h0, ne_eq, not_false_eq_true, if_true]
      exact hfalse

/-- **Is a locked directory empty?** -/
theorem isdirempty_wp {Q : Bool → Post} (hv : l.locks d = some v) (hwf : WfDir d v)
    (hfalse : Q false (l, t)) (htrue : v.ords = [] → Q true (l, t)) :
    (isdirempty d).wp (sysRules strict) Q (l, t) := by
  simp only [isdirempty, wp_bind]
  refine wp_getSize hv ?_
  rw [offsets_entries]
  have hlen : 2 ≤ v.entries.length := by
    obtain ⟨q, rest, hes, -⟩ := hwf
    rw [hes]
    exact Nat.le_add_left 2 _
  refine isdiremptyLoop_wp hv hfalse (by omega) fun hall => htrue ?_
  rw [Ino.ords, filter_eq_nil_iff]
  intro j hj
  obtain ⟨e, he, rfl⟩ := mem_map.mp hj
  simp [hall e he]

/-! ### Paths -/

/-- The loop of `namex`: the process has a reference to where it is. -/
theorem namexLoop_wp {Q : Option (ℕ × Name) → Post} (hl : l.Plain) (par : Bool)
    (hnone : Q none (l, t)) (hsome : ∀ ip name, Q (some (ip, name)) (l.take ip, t)) (ip : ℕ)
    (path : List Name) : (namexLoop par ip path).wp (sysRules strict) Q (l.take ip, t) := by
  have hnf : ∀ i, ¬(l.take i).Fresh i := fun i => not_fresh hl.fresh
  induction path generalizing ip with
  | nil =>
    rw [namexLoop]
    cases par with
    | false => exact hsome ip []
    | true =>
      simp only [if_true, wp_bind]
      refine wp_iput hl.dying (by simp) (fun hne => absurd (hl.locks ip) hne) (hnf ip) ?_
      rwa [Local.drop_take]
  | cons name rest ih =>
    rw [namexLoop]
    simp only [wp_bind]
    refine wp_ilock hl.dying (by simp) fun v hv => wp_getType lock_self ?_
    by_cases hdir : v.type = .dir
    · simp only [hdir, ne_eq, not_true_eq_false, if_false]
      by_cases hlast : par = true ∧ rest = []
      · simp only [hlast, and_self, if_true, wp_bind]
        refine wp_iunlock lock_self (hnf ip) hv.pend ?_
        rw [unlock_lock hv.unlocked]
        exact hsome ip name
      · simp only [hlast, if_false, wp_bind]
        refine dirlookup_wp hl.dying lock_self (fun _ _ _ _ => hnf ip) (fun _ _ => ?_)
          fun _ k e _ _ _ => ?_
        · exact iunlockput_bind_wp hl hv.pend hnone
        · exact iunlockput_next_wp hl hv.pend (ih e.inum)
    · simp only [hdir, ne_eq, not_false_eq_true, if_true]
      exact iunlockput_bind_wp hl hv.pend hnone

/-- **Following a path**, from the root or from the current directory. -/
theorem namex_wp {Q : Option (ℕ × Name) → Post} (hl : l.Plain)
    (hcwd : ∀ dp, t.cwd = some dp → 1 ≤ l.refs dp) (path : Name) (par : Bool)
    (hnone : Q none (l, t)) (hsome : ∀ ip name, Q (some (ip, name)) (l.take ip, t)) :
    (namex path par).wp (sysRules strict) Q (l, t) := by
  rw [namex]
  by_cases hroot : path.head? = some slash
  · simp only [hroot, if_true, wp_bind]
    exact wp_iget hl.dying (.inl rfl) (namexLoop_wp hl par hnone hsome rootino _)
  · simp only [hroot, if_false, wp_bind]
    refine wp_cwd ?_
    cases hc : t.cwd with
    | none => exact hnone
    | some dp =>
      simp only [wp_bind]
      exact wp_idup hl.dying (hcwd dp hc) (namexLoop_wp hl par hnone hsome dp _)

theorem namei_wp {Q : Option ℕ → Post} (hl : l.Plain)
    (hcwd : ∀ dp, t.cwd = some dp → 1 ≤ l.refs dp) (path : Name) (hnone : Q none (l, t))
    (hsome : ∀ ip, Q (some ip) (l.take ip, t)) : (namei path).wp (sysRules strict) Q (l, t) := by
  simp only [namei, wp_bind]
  exact namex_wp hl hcwd path false hnone fun ip _ => hsome ip

end Xv6.Fs.Tree
