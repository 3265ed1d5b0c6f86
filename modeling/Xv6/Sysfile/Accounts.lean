import Xv6.Sysfile.Refs

/-!
# Accounts of files and pipes

Everything that is counted has owners. The references of a `struct file` belong to processes: to one
that is not in a call for each descriptor that points to the file, and to one that is in a call as
far as it has got. The end of a pipe belongs to its file, or to the call that has closed the file
and has not closed the end yet; the page of a pipe that nobody has open is owed to `kfree`. In the
same way an inode reference belongs to a file, to a current directory or to a call.

`Busy` is what a process has in a call, and `Procs`, `Counts` and `Pipes` say that the accounts are
right. For each operation on the tables there is a lemma that they stay right.

## Main definitions

* `Busy` — what a process has in a call
* `TabInv` — the accounts of files and pipes
* `base`, `ghost` — the inode references that do not belong to calls
* `SysInv` — what holds of the whole system

## Main results

* `TabInv.one_le_base` — what makes sure that there is a reference to an inode
* `SysInv.tables` — steps on the tables
-/

namespace Xv6.Sysfile

open Fs Concurrent Function

/-- What a process has in a call. -/
@[ext] structure Busy (ι η : Type) where
  tab : Tab η
  files : Fin nfile → ℕ
  /-- Files that it has allocated, and that are not files of anything yet. -/
  blank : Fin nfile → Bool
  /-- A file that it is using, and the inode of that file. -/
  seen : Option (Fin nfile × η)
  /-- Ends of pipes that it has to close. -/
  ends : ℕ → Bool → ℕ
  /-- Pages of pipes that it has to free. -/
  pages : ℕ → ℕ
  /-- A process that it is about to start. -/
  child : Option ι
  hold : Hold η

/-- What is to hold of a process after a step of a call. -/
abbrev Post (ι η : Type) := Option (Busy ι η) → Prop

variable {ι η : Type} {o : Option (Busy ι η)}

/-- How many descriptors point to the file. -/
def Tab.count (x : Tab η) (f : Fin nfile) : ℕ := ∑ fd, if x.ofile fd = some f then 1 else 0

/-- A process that has just started a call. -/
def Busy.start (x : Tab η) : Busy ι η where
  tab := x
  files := x.count
  blank := fun _ => false
  seen := none
  ends := fun _ _ => 0
  pages := fun _ => 0
  child := none
  hold := .empty

/-- The process has something that makes sure that there is a reference to the inode. -/
def Busy.leases (b : Busy ι η) (x : η) : Prop :=
  (b.tab.held = true ∧ b.tab.cwd = some x) ∨ ∃ f, b.seen = some (f, x)

/-! What a process has, in a call or not. -/

/-- References to files. -/
def filesOf (x : Tab η) (f : Fin nfile) : Option (Busy ι η) → ℕ
  | some b => b.files f
  | none => x.count f

/-- Ends of pipes to close. -/
def endsOf (p : ℕ) (writable : Bool) : Option (Busy ι η) → ℕ
  | some b => b.ends p writable
  | none => 0

/-- Pages of pipes to free. -/
def pagesOf (p : ℕ) : Option (Busy ι η) → ℕ
  | some b => b.pages p
  | none => 0

/-- References to inodes and locks. -/
def holdOf : Option (Busy ι η) → Hold η
  | some b => b.hold
  | none => .empty

/-- What makes sure that there are references. -/
def leasesOf (o : Option (Busy ι η)) (x : η) : Prop := ∃ b, o = some b ∧ b.leases x

section

variable (b : Busy ι η)

@[simp] theorem filesOf_some (x : Tab η) (f : Fin nfile) : filesOf x f (some b) = b.files f := rfl
@[simp] theorem filesOf_none (x : Tab η) (f : Fin nfile) :
    filesOf x f (none : Option (Busy ι η)) = x.count f := rfl
@[simp] theorem endsOf_some (p : ℕ) (w : Bool) : endsOf p w (some b) = b.ends p w := rfl
@[simp] theorem endsOf_none (p : ℕ) (w : Bool) : endsOf p w (none : Option (Busy ι η)) = 0 := rfl
@[simp] theorem pagesOf_some (p : ℕ) : pagesOf p (some b) = b.pages p := rfl
@[simp] theorem pagesOf_none (p : ℕ) : pagesOf p (none : Option (Busy ι η)) = 0 := rfl
@[simp] theorem holdOf_some : holdOf (some b) = b.hold := rfl
@[simp] theorem holdOf_none : holdOf (none : Option (Busy ι η)) = .empty := rfl

theorem filesOf_congr {x y : Tab η} (h : x.ofile = y.ofile) (f : Fin nfile)
    (o : Option (Busy ι η)) : filesOf x f o = filesOf y f o := by
  cases o with
  | some b => rfl
  | none => simp only [filesOf_none, Tab.count, h]

end

/-! What belongs to files and current directories. -/

/-- The end of a pipe that the file is. -/
def File.ends (f : File η) (p : ℕ) (writable : Bool) : ℕ :=
  match f.type with
  | .pipe q => if q = p ∧ f.writable = writable then 1 else 0
  | _ => 0

/-- Is the end open? -/
def Ends.open (e : Ends) (writable : Bool) : ℕ :=
  if (if writable then e.writeopen else e.readopen) then 1 else 0

section Base

variable [DecidableEq η]

/-- The inode reference that the file has. -/
def File.refs (f : File η) (x : η) : ℕ := if f.type = .inode x then 1 else 0

/-- The inode reference that the current directory is. -/
def Tab.refs (t : Tab η) (x : η) : ℕ := if t.held = true ∧ t.cwd = some x then 1 else 0

/-- The inode references of files and current directories. -/
def base [Fintype ι] (t : Tables ι η) (x : η) : ℕ :=
  ∑ q, (t.proc q).refs x + ∑ f, (t.file f).refs x

/-- What is outside of the calls. -/
def ghost [Fintype ι] (g : ι → Option (Busy ι η)) (t : Tables ι η) : Ghost ι η :=
  ⟨base t, fun q => leasesOf (g q)⟩

end Base

/-! ### The invariant -/

/-- The entries of the process table are what the processes know of them. -/
structure Procs (g : ι → Option (Busy ι η)) (t : Tables ι η) : Prop where
  tab : ∀ q b, g q = some b → t.proc q = b.tab ∧ b.tab.status = .running
  out : ∀ q, (t.proc q).status ≠ .running → t.proc q = .empty (t.proc q).status
  born : ∀ q, g q = none → (t.proc q).status = .running → (t.proc q).held = true
  child : ∀ q b r, g q = some b → b.child = some r → (t.proc r).status = .embryo
  inj : ∀ q q' b b' r, g q = some b → g q' = some b' → b.child = some r → b'.child = some r → q = q'

/-- The reference counts of files are exact. -/
structure Counts [Fintype ι] (g : ι → Option (Busy ι η)) (t : Tables ι η) : Prop where
  count : ∀ f, (t.file f).ref = ∑ q, filesOf (t.proc q) f (g q)
  free : ∀ f, (t.file f).ref = 0 → (t.file f).type = .none
  blank : ∀ q b f, g q = some b → b.blank f = true →
    (t.file f).ref = 1 ∧ (t.file f).type = .none ∧ 1 ≤ b.files f
  seen : ∀ q b f x, g q = some b → b.seen = some (f, x) →
    (t.file f).type = .inode x ∧ 1 ≤ b.files f

/-- The ends of pipes and their pages are accounted for. -/
structure Pipes [Fintype ι] (g : ι → Option (Busy ι η)) (t : Tables ι η) : Prop where
  ends : ∀ p w, ∑ f, (t.file f).ends p w + ∑ q, endsOf p w (g q) = (t.pipe p).open w
  pages : ∀ p, (t.pipe p).freed + ∑ q, pagesOf p (g q) =
    if p < t.npipe ∧ (t.pipe p).closed = true then 1 else 0
  new : ∀ p, t.npipe ≤ p → t.pipe p = ⟨false, false, 0⟩

/-- The accounts of the tables. -/
structure TabInv [Fintype ι] (g : ι → Option (Busy ι η)) (t : Tables ι η) : Prop where
  procs : Procs g t
  counts : Counts g t
  pipes : Pipes g t

/-- What holds of the whole system, with what the processes have. -/
def SysInv {σ X : Type} [Fintype ι] [DecidableEq ι] [DecidableEq η] (M : Implementation ι η σ X)
    (g : ι → Option (Busy ι η) × X) (x : σ × Tables ι η) : Prop :=
  CacheInv M.ref M.busy M.Extra (fun q => (holdOf (g q).1, (g q).2))
      (x.1, ghost (fun q => (g q).1) x.2) ∧
    TabInv (fun q => (g q).1) x.2

/-! ### Processes -/

section Procs

variable [DecidableEq ι] {g : ι → Option (Busy ι η)} {t t' : Tables ι η} {p : ι} {b b' : Busy ι η}

section

variable (h : Procs g t)

include h

omit [DecidableEq ι] in
theorem Procs.child_ne (hrun : (t.proc p).status = .running) (q : ι)
    (hq : g q = some b) : b.child ≠ some p := by
  intro hc
  rw [h.child q b p hq hc] at hrun
  cases hrun

/-- **A step of process `p`**, which may change the entry of a process `u`: its own, or that of one
that it is about to start. -/
theorem Procs.step {u : ι} {y : Tab η} (hproc : t'.proc = update t.proc u y)
    (hu : u ≠ p → (t.proc u).status ≠ .running)
    (htab : ∀ c, o = some c → t'.proc p = c.tab ∧ c.tab.status = .running)
    (hout : y.status ≠ .running → y = .empty y.status)
    (hborn : y.status = .running → u ≠ p ∨ o = none → y.held = true) (hleft : o = none → u = p)
    (hchild : ∀ c r, o = some c → c.child = some r →
      (r = u ∧ y.status = .embryo) ∨ r ≠ u ∧ ∃ c', g p = some c' ∧ c'.child = some r)
    (hothers : ∀ q c, q ≠ p → g q = some c → c.child ≠ some u) : Procs (update g p o) t' := by
  have hlift : ∀ q c r, update g p o q = some c → c.child = some r →
      (q = p ∧ r = u ∧ y.status = .embryo) ∨ r ≠ u ∧ ∃ c', g q = some c' ∧ c'.child = some r := by
    intro q c r hq hr
    obtain ⟨rfl, ho⟩ | ⟨hqp, hq⟩ := update_eq_some hq
    · exact (hchild c r ho hr).imp_left fun h => ⟨rfl, h⟩
    · refine .inr ⟨?_, c, hq, hr⟩
      rintro rfl
      exact hothers q c hqp hq hr
  refine ⟨fun q c hq => ?_, fun q hq => ?_, fun q hq hs => ?_, fun q c r hq hr => ?_,
    fun q q' c c' r hq hq' hr hr' => ?_⟩
  · obtain ⟨rfl, ho⟩ | ⟨hqp, hq⟩ := update_eq_some hq
    · exact htab c ho
    · have hold := h.tab q c hq
      have hne : q ≠ u := by
        rintro rfl
        exact hu hqp (hold.1 ▸ hold.2)
      rwa [hproc, update_of_ne hne]
  · by_cases hqu : q = u
    · subst hqu
      rw [hproc, update_self] at hq ⊢
      exact hout hq
    · rw [hproc, update_of_ne hqu] at hq ⊢
      exact h.out q hq
  · by_cases hqu : q = u
    · subst hqu
      rw [hproc, update_self] at hs ⊢
      refine hborn hs (or_iff_not_imp_left.mpr fun hqp => ?_)
      rwa [not_ne_iff.mp hqp, update_self] at hq
    · have hqp : q ≠ p := by
        rintro rfl
        rw [update_self] at hq
        exact hqu (hleft hq).symm
      rw [update_of_ne hqp] at hq
      rw [hproc, update_of_ne hqu] at hs ⊢
      exact h.born q hq hs
  · obtain ⟨-, rfl, hx⟩ | ⟨hne, c', hc', hr'⟩ := hlift q c r hq hr
    · rwa [hproc, update_self]
    · rw [hproc, update_of_ne hne]
      exact h.child q c' r hc' hr'
  · obtain ⟨rfl, rfl, -⟩ | ⟨hne, d, hd, hdr⟩ := hlift q c r hq hr
    · obtain ⟨rfl, -, -⟩ | ⟨hne', -⟩ := hlift q' c' r hq' hr'
      · rfl
      · exact absurd rfl hne'
    · obtain ⟨-, rfl, -⟩ | ⟨-, d', hd', hdr'⟩ := hlift q' c' r hq' hr'
      · exact absurd rfl hne
      · exact h.inj q q' d d' r hd hd' hdr hdr'

theorem Procs.set (hp : g p = some b) (htab : t'.proc = update t.proc p b'.tab)
    (hstatus : b'.tab.status = .running) (hchild : ∀ r, b'.child = some r → b.child = some r) :
    Procs (update g p (some b')) t' := by
  have hrun : (t.proc p).status = .running := by
    rw [(h.tab p b hp).1]
    exact (h.tab p b hp).2
  refine h.step htab (fun hne => absurd rfl hne) (fun c hc => ?_) (fun hne => absurd hstatus hne)
    (fun _ hne => by simp at hne) (fun hnone => by cases hnone) (fun c r hc hr => ?_)
    fun q c _ hq => h.child_ne hrun q hq
  · cases hc
    rw [htab, update_self]
    exact ⟨rfl, hstatus⟩
  · cases hc
    refine .inr ⟨?_, b, hp, hchild r hr⟩
    rintro rfl
    exact h.child_ne hrun r hp (hchild r hr)

theorem Procs.local (hp : g p = some b) (htab : b'.tab = b.tab)
    (hproc : t'.proc = t.proc) (hchild : ∀ r, b'.child = some r → b.child = some r) :
    Procs (update g p (some b')) t' := by
  obtain ⟨ht, hs⟩ := h.tab p b hp
  refine h.set hp ?_ (htab ▸ hs) hchild
  rw [hproc, htab, ← ht, update_eq_self]

theorem Procs.start (hp : g p = some b) (htab : b'.tab = b.tab) {np : ι} {x : Tab η}
    (hproc : t'.proc = update t.proc np x) (hnp : (t.proc np).status ≠ .running)
    (hout : x.status ≠ .running → x = .empty x.status) (hborn : x.status = .running → x.held = true)
    (hchild : ∀ r, b'.child = some r → (r = np ∧ x.status = .embryo) ∨ (r ≠ np ∧ b.child = some r))
    (hothers : ∀ q c, q ≠ p → g q = some c → c.child ≠ some np) :
    Procs (update g p (some b')) t' := by
  have hold := h.tab p b hp
  have hne : p ≠ np := by
    rintro rfl
    exact hnp (hold.1 ▸ hold.2)
  refine h.step hproc (fun _ => hnp) (fun c hc => ?_) hout (fun hs _ => hborn hs)
    (fun hnone => by cases hnone) (fun c r hc hr => ?_) hothers
  · cases hc
    rw [hproc, update_of_ne hne, htab]
    exact hold
  · cases hc
    exact (hchild r hr).imp_right fun h => ⟨h.1, b, hp, h.2⟩

end

end Procs

/-! ### Files -/

section Counts

variable [Fintype ι] {g : ι → Option (Busy ι η)} {t t' : Tables ι η} {p q : ι} {b b' : Busy ι η}
  {f : Fin nfile}

theorem Counts.le_ref (h : Counts g t) (hq : g q = some b) : b.files f ≤ (t.file f).ref := by
  have hle := Finset.single_le_sum (f := fun q => filesOf (t.proc q) f (g q))
    (fun _ _ => Nat.zero_le _) (Finset.mem_univ q)
  rw [h.count f]
  simpa only [hq, filesOf_some] using hle

theorem Counts.add_le_ref [DecidableEq ι] (h : Counts g t) (hp : g p = some b) (hq : g q = some b')
    (hpq : p ≠ q) : b.files f + b'.files f ≤ (t.file f).ref := by
  have hle := add_le_sum (fun x : Tab η × Option (Busy ι η) => filesOf x.1 f x.2)
    (fun q => (t.proc q, g q)) hpq
  rw [h.count f]
  simpa only [hp, hq, filesOf_some] using hle

variable [DecidableEq ι]

/-- What a step of process `p` on the table of files has to satisfy. -/
theorem Counts.set (h : Counts g t) (hp : g p = some b)
    (hofile : ∀ q, q ≠ p → (t'.proc q).ofile = (t.proc q).ofile)
    (href : ∀ f, (t'.file f).ref + b.files f = (t.file f).ref + b'.files f)
    (hown : ∀ f, (t'.file f).ref ≠ (t.file f).ref → 1 ≤ b.files f ∨ (t.file f).ref = 0)
    (htype : ∀ f, (t'.file f).type ≠ (t.file f).type → (t.file f).ref ≤ b.files f)
    (hfree : ∀ f, (t'.file f).ref = 0 → (t'.file f).type = .none) (hblank : ∀ f, b'.blank f = true →
      (t'.file f).ref = 1 ∧ (t'.file f).type = .none ∧ 1 ≤ b'.files f)
    (hseen : ∀ f x, b'.seen = some (f, x) → (t'.file f).type = .inode x ∧ 1 ≤ b'.files f) :
    Counts (update g p (some b')) t' := by
  -- a file that the process alone has is none that anybody else relies on
  have hothers : ∀ q c f, q ≠ p → g q = some c → 1 ≤ c.files f →
      (t'.file f).type = (t.file f).type := by
    intro q c f hqp hq hc
    by_contra hne
    have hle := htype f hne
    have hsum := h.add_le_ref (f := f) hp hq (Ne.symm hqp)
    omega
  refine ⟨fun f => ?_, hfree, fun q c f hq hc => ?_, fun q c f x hq hc => ?_⟩
  · have hsum := sum_eq_off (p := p) (a := fun q => filesOf (t'.proc q) f (update g p (some b') q))
      (b := fun q => filesOf (t.proc q) f (g q)) fun q hqp => by
        rw [update_of_ne hqp, filesOf_congr (hofile q hqp)]
    simp only [hp, update_self, filesOf_some] at hsum
    have hold := h.count f
    have hnew := href f
    omega
  · obtain ⟨rfl, ⟨⟩⟩ | ⟨hqp, hq⟩ := update_eq_some hq
    · exact hblank f hc
    · obtain ⟨hone, hnone, hle⟩ := h.blank q c f hq hc
      have hsum := h.add_le_ref (f := f) hp hq (Ne.symm hqp)
      refine ⟨?_, (hothers q c f hqp hq hle).trans hnone, hle⟩
      by_contra hne
      rcases hown f fun heq => hne (heq.trans hone) with hpos | hzero
      · omega
      · omega
  · obtain ⟨rfl, ⟨⟩⟩ | ⟨hqp, hq⟩ := update_eq_some hq
    · exact hseen f x hc
    · obtain ⟨hinode, hle⟩ := h.seen q c f x hq hc
      exact ⟨(hothers q c f hqp hq hle).trans hinode, hle⟩

theorem Counts.move (h : Counts g t) (hofile : ∀ q, q ≠ p → (t'.proc q).ofile = (t.proc q).ofile)
    (hfile : t'.file = t.file) (hfiles : ∀ f, filesOf (t'.proc p) f o = filesOf (t.proc p) f (g p))
    (hnew : ∀ c, o = some c → (∀ f, c.blank f = false) ∧ c.seen = none) :
    Counts (update g p o) t' := by
  refine ⟨fun f => ?_, hfile ▸ h.free, fun q c f hq hc => ?_, fun q c f x hq hc => ?_⟩
  · rw [hfile, h.count f]
    refine Finset.sum_congr rfl fun q _ => ?_
    by_cases hqp : q = p
    · rw [hqp, update_self, hfiles]
    · rw [update_of_ne hqp, filesOf_congr (hofile q hqp)]
  · obtain ⟨-, hq⟩ | ⟨-, hq⟩ := update_eq_some hq
    · simp [(hnew c hq).1 f] at hc
    · exact hfile ▸ h.blank q c f hq hc
  · obtain ⟨-, hq⟩ | ⟨-, hq⟩ := update_eq_some hq
    · simp [(hnew c hq).2] at hc
    · exact hfile ▸ h.seen q c f x hq hc

theorem Counts.local (h : Counts g t) (hp : g p = some b)
    (hofile : ∀ q, q ≠ p → (t'.proc q).ofile = (t.proc q).ofile)
    (hfile : ∀ f, (t'.file f).ref = (t.file f).ref ∧ (t'.file f).type = (t.file f).type)
    (hfiles : b'.files = b.files) (hblank : b'.blank = b.blank)
    (hseen : ∀ y, b'.seen = some y → b.seen = some y) : Counts (update g p (some b')) t' := by
  refine h.set hp hofile (fun f => ?_) (fun f hne => absurd (hfile f).1 hne)
    (fun f hne => absurd (hfile f).2 hne) (fun f hf => ?_) (fun f hf => ?_) fun f x hf => ?_
  · rw [(hfile f).1, hfiles]
  · rw [(hfile f).2]
    exact h.free f ((hfile f).1 ▸ hf)
  · rw [(hfile f).1, (hfile f).2, hfiles]
    exact h.blank p b f hp (hblank ▸ hf)
  · rw [(hfile f).2, hfiles]
    exact h.seen p b f x hp (hseen _ hf)

end Counts

/-! ### Pipes -/

section Pipes

variable [Fintype ι] [DecidableEq ι] {g : ι → Option (Busy ι η)} {t t' : Tables ι η} {p : ι}
  {b b' : Busy ι η}

theorem Pipes.set (h : Pipes g t) {o' : Option (Busy ι η)} (hp : g p = o)
    (hends : ∀ r w, ∑ f, (t'.file f).ends r w + endsOf r w o' + (t.pipe r).open w =
      ∑ f, (t.file f).ends r w + endsOf r w o + (t'.pipe r).open w)
    (hpages : ∀ r, (t'.pipe r).freed + pagesOf r o' +
        (if r < t.npipe ∧ (t.pipe r).closed = true then 1 else 0) =
      (t.pipe r).freed + pagesOf r o + if r < t'.npipe ∧ (t'.pipe r).closed = true then 1 else 0)
    (hnew : ∀ r, t'.npipe ≤ r → t'.pipe r = ⟨false, false, 0⟩) : Pipes (update g p o') t' := by
  refine ⟨fun r w => ?_, fun r => ?_, hnew⟩
  · have hsum := sum_update (endsOf r w) g p o'
    have hold := h.ends r w
    have hstep := hends r w
    rw [hp] at hsum
    omega
  · have hsum := sum_update (pagesOf r) g p o'
    have hold := h.pages r
    have hstep := hpages r
    rw [hp] at hsum
    omega

theorem Pipes.local (h : Pipes g t) (hp : g p = some b)
    (hfile : ∀ f r w, (t'.file f).ends r w = (t.file f).ends r w) (hpipe : t'.pipe = t.pipe)
    (hnpipe : t'.npipe = t.npipe) (hends : b'.ends = b.ends) (hpages : b'.pages = b.pages) :
    Pipes (update g p (some b')) t' := by
  refine h.set hp (fun r w => ?_) (fun r => ?_) fun r hr => ?_
  · simp only [hfile, hpipe, endsOf_some, hends]
  · rw [hpipe, hnpipe, pagesOf_some, hpages, pagesOf_some]
  · rw [hpipe]
    exact h.new r (hnpipe ▸ hr)

end Pipes

/-! ### Inodes -/

section Inodes

variable {t t' : Tables ι η}

theorem sum_putFile {F : File η → ℕ} (t : Tables ι η) (f : Fin nfile) (y : File η) :
    ∑ k, F ((t.putFile f y).file k) + F (t.file f) = ∑ k, F (t.file k) + F y :=
  sum_update F t.file f y

variable [Fintype ι] [DecidableEq η] {g : ι → Option (Busy ι η)} {p q : ι} {b b' : Busy ι η} {x : η}

/-- **What makes sure that there is a reference to an inode**: the process's current directory, or a
file that it is using. -/
theorem TabInv.one_le_base (h : TabInv g t) (hx : leasesOf (g q) x) : 1 ≤ base t x := by
  obtain ⟨b, hq, hcwd | ⟨f, hf⟩⟩ := hx
  · have hone : (t.proc q).refs x = 1 := by
      rw [(h.procs.tab q b hq).1, Tab.refs, if_pos hcwd]
    have hle := Finset.single_le_sum (f := fun q => (t.proc q).refs x) (fun _ _ => Nat.zero_le _)
      (Finset.mem_univ q)
    simp only [hone] at hle
    exact hle.trans (Nat.le_add_right _ _)
  · have hone : (t.file f).refs x = 1 := by
      rw [File.refs, if_pos (h.counts.seen q b f x hq hf).1]
    have hle := Finset.single_le_sum (f := fun f => (t.file f).refs x) (fun _ _ => Nat.zero_le _)
      (Finset.mem_univ f)
    simp only [hone] at hle
    exact hle.trans (Nat.le_add_left _ _)

theorem base_putFile (t : Tables ι η) (f : Fin nfile) (y : File η) (x : η) :
    base (t.putFile f y) x + (t.file f).refs x = base t x + y.refs x := by
  have hsum := sum_putFile (F := fun y => y.refs x) t f y
  simp only [base] at hsum ⊢
  have hproc : (t.putFile f y).proc = t.proc := rfl
  rw [hproc]
  omega

variable [DecidableEq ι]

theorem base_setProc (t : Tables ι η) (p : ι) (y : Tab η) (x : η) :
    base (t.setProc p y) x + (t.proc p).refs x = base t x + y.refs x := by
  have hsum := sum_eq_off (p := p) (a := fun q => (update t.proc p y q).refs x)
    (b := fun q => (t.proc q).refs x) fun q hqp => by rw [update_of_ne hqp]
  simp only [update_self] at hsum
  simp only [base, Tables.setProc]
  omega

variable {σ X : Type} {M : Implementation ι η σ X} {G : ι → Option (Busy ι η) × X} {s : σ} {w : X}
  {l l' : Option (Busy ι η)}

/-- **Steps on the tables.** References to inodes may change hands between the process and the
tables; the locks stay. -/
theorem SysInv.tables (hI : SysInv M G (s, t)) (hp : G p = (l, w))
    (hT : TabInv (update (fun q => (G q).1) p l') t')
    (hlocks : (holdOf l').locks = (holdOf l).locks)
    (hbase : ∀ x, base t' x + (holdOf l').refs x = base t x + (holdOf l).refs x)
    (hpin : ∀ x, (holdOf l).locks x ≠ none → 1 ≤ (holdOf l').refs x ∨ leasesOf l' x) :
    SysInv M (update G p (l', w)) (s, t') := by
  obtain ⟨⟨hR, hX⟩, -⟩ := hI
  replace hT : TabInv (fun q => (update G p (l', w) q).1) t' := by rwa [fst_update]
  have hsame : ∀ q, (holdOf (update G p (l', w) q).1).locks = (holdOf (G q).1).locks ∧
      (update G p (l', w) q).2 = (G q).2 := by
    intro q
    by_cases hqp : q = p
    · subst hqp
      simp [hp, hlocks]
    · simp [hqp]
  refine ⟨⟨⟨fun x => ?_, fun x => ?_, fun q r x hq hr => ?_, fun q x hq => ?_,
    fun q x hq => hT.one_le_base hq⟩, ?_⟩, hT⟩
  · have hsum := sum_update (fun y : Option (Busy ι η) × X => (holdOf y.1).refs x) G p (l', w)
    have hold := hR.count x
    have hx := hbase x
    simp only [hp, ghost] at hsum hold ⊢
    omega
  · simp only [hsame]
    exact hR.busy x
  · simp only [hsame] at hq hr
    exact hR.one q r x hq hr
  · by_cases hqp : q = p
    · subst hqp
      simp only [hsame, hp] at hq
      simpa [ghost] using hpin x hq
    · simp only [hsame] at hq
      simpa [hqp, ghost] using hR.pin q x hq
  · simpa only [hsame] using hX

theorem SysInv.files (hI : SysInv M G (s, t)) (hp : G p = (some b, w))
    (hT : TabInv (update (fun q => (G q).1) p (some b')) t') (hbase : base t' = base t)
    (hhold : b'.hold = b.hold) (hlease : ∀ x, b.leases x → b'.leases x) :
    SysInv M (update G p (some b', w)) (s, t') := by
  refine hI.tables hp hT ?_ (fun x => ?_) fun x hx => ?_
  · simp only [holdOf_some, hhold]
  · simp only [holdOf_some, hhold, hbase]
  · simp only [holdOf_some, hhold] at hx ⊢
    have hpin := hI.1.1.pin p x (by simpa only [hp, holdOf_some] using hx)
    simp only [hp, holdOf_some, ghost] at hpin
    refine hpin.imp_right ?_
    rintro ⟨c, hc, hlx⟩
    cases hc
    exact ⟨b', rfl, hlease x hlx⟩

end Inodes

end Xv6.Sysfile
