import Xv6.Sysfile.Accounts

/-!
# Rules for the tables

What a process may do with the tables of processes, files and pipes, and what it has then: it gives
a reference back only if it has one, makes a file into something only if it has just allocated it,
closes the end of a pipe that it has to close, and so on. The accounts stay right in each of these
steps.

## Main definitions

* `fileRules`, `sysRules` — what a process may ask for, and what it has then

## Main results

* `SysInv.apply` — operations on the tables keep the accounts right
* `implement_rules` — the interface is implemented as the rules say
-/

namespace Xv6.Sysfile

open Fs Concurrent Function Busy Tables FileOp File

variable {ι η : Type} {y : File η} {v : Bool} {np : ι} {n : ℕ}

namespace Busy

/-- With so many references to the file. -/
def setFiles (b : Busy ι η) (f : Fin nfile) (n : ℕ) : Busy ι η :=
  { b with files := update b.files f n }

/-- The file has just been allocated, or not. -/
def setBlank (b : Busy ι η) (f : Fin nfile) (v : Bool) : Busy ι η :=
  { b with blank := update b.blank f v }

/-- With so many duties to close the end of the pipe. -/
def setEnds (b : Busy ι η) (r : ℕ) (w : Bool) (n : ℕ) : Busy ι η :=
  { b with ends := update b.ends r (update (b.ends r) w n) }

/-- With so many duties to free the page of the pipe. -/
def setPages (b : Busy ι η) (r n : ℕ) : Busy ι η := { b with pages := update b.pages r n }

variable [DecidableEq η]

/-- With what a file was a file of. -/
def gain (b : Busy ι η) (type : FdType η) (writable : Bool) : Busy ι η :=
  match type with
  | .none => b
  | .pipe r => b.setEnds r writable (b.ends r writable + 1)
  | .inode x => { b with hold := b.hold.take x }

/-- Without what has become a file. -/
def lose (b : Busy ι η) (type : FdType η) (writable : Bool) : Busy ι η :=
  match type with
  | .none => b
  | .pipe r => b.setEnds r writable (b.ends r writable - 1)
  | .inode x => { b with hold := b.hold.drop x }

end Busy

namespace Hold

variable [DecidableEq η]

/-- A reference that the process can give away: it does not need it for a lock. -/
def Spare (l : Hold η) (x : η) : Prop := 1 ≤ l.refs x ∧ (l.locks x ≠ none → 2 ≤ l.refs x)

/-- With a reference to the current directory. -/
def takeAll (l : Hold η) (ip : Option η) : Hold η := ip.elim l l.take

/-- Without a reference to the current directory. -/
def dropAll (l : Hold η) (ip : Option η) : Hold η := ip.elim l l.drop

@[simp] theorem takeAll_locks (l : Hold η) (ip : Option η) : (l.takeAll ip).locks = l.locks := by
  cases ip <;> rfl

@[simp] theorem dropAll_locks (l : Hold η) (ip : Option η) : (l.dropAll ip).locks = l.locks := by
  cases ip <;> rfl

theorem takeAll_refs (l : Hold η) (ip : Option η) (x : η) :
    (l.takeAll ip).refs x = l.refs x + if ip = some x then 1 else 0 := by
  cases ip with
  | none => rfl
  | some y =>
    by_cases hxy : x = y
    · subst hxy
      simp [takeAll]
    · simp [takeAll, take_of_ne hxy, Ne.symm hxy]

theorem dropAll_refs (l : Hold η) (ip : Option η) (x : η) (h : ip = some x → 1 ≤ l.refs x) :
    (l.dropAll ip).refs x + (if ip = some x then 1 else 0) = l.refs x := by
  cases ip with
  | none => rfl
  | some y =>
    by_cases hxy : x = y
    · subst hxy
      have hpos := h rfl
      simp only [dropAll, Option.elim_some, drop_self, if_true]
      omega
    · simp [dropAll, drop_of_ne hxy, Ne.symm hxy]

end Hold

/-- What a process may do in a call, and what it has then. -/
def busyRules [DecidableEq η] [DecidableEq ι] :
    (o : FileOp ι η) → (o.Ret → Post ι η) → Busy ι η → Prop
  | .running, Q, b => (∀ x, b.hold.locks x = none) ∧ Q true (some { b with seen := none })
  | .cwd, Q, b => Q b.tab.cwd (some b)
  | .dropCwd, Q, b => b.tab.held = true ∧
    Q b.tab.cwd (some { b with
      tab := { b.tab with held := false }, hold := b.hold.takeAll b.tab.cwd })
  | .setCwd ip, Q, b => b.tab.held = false ∧ (∀ x, ip = some x → b.hold.Spare x) ∧
    Q () (some { b with
      tab := { b.tab with cwd := ip, held := ip.isSome }, hold := b.hold.dropAll ip })
  | .ofile fd, Q, b => Q (b.tab.ofile fd) (some b)
  | .setOfile fd f, Q, b =>
    Q () (some { b with tab := { b.tab with ofile := update b.tab.ofile fd f } })
  | .filealloc, Q, b => Q none (some b) ∧
    ∀ f, b.files f = 0 → Q (some f) (some ((b.setFiles f 1).setBlank f true))
  | .filedup f, Q, b => 1 ≤ b.files f ∧ b.blank f = false ∧
    Q () (some (b.setFiles f (b.files f + 1)))
  | .fileput f, Q, b => 1 ≤ b.files f ∧ b.seen = none ∧
    (b.blank f = false → Q none (some (b.setFiles f (b.files f - 1)))) ∧
    ∀ ff : File η, b.files f = 1 → (b.blank f = true → ff.type = .none) →
      Q (some ff) (some (((b.setFiles f 0).setBlank f false).gain ff.type ff.writable))
  | .file f, Q, b => 1 ≤ b.files f ∧
    ((b.seen = none ∧ (∀ ff, (∀ x, ff.type ≠ .inode x) → Q ff (some b)) ∧
        ∀ ff x, ff.type = .inode x → Q ff (some { b with seen := some (f, x) })) ∨
      ∃ x, b.seen = some (f, x) ∧ ∀ ff, Q ff (some b))
  | .setFile f type _ writable, Q, b => b.blank f = true ∧ b.seen = none ∧
    (∀ r, type = .pipe r → 1 ≤ b.ends r writable) ∧ (∀ x, type = .inode x → b.hold.Spare x) ∧
    Q () (some ((b.setBlank f false).lose type writable))
  | .setOff _ _, Q, b => Q () (some b)
  | .newpipe, Q, b => ∀ r, b.ends r false = 0 → b.ends r true = 0 →
    Q r (some ((b.setEnds r false 1).setEnds r true 1))
  | .pipeclose r w, Q, b => 1 ≤ b.ends r w ∧
    Q false (some (b.setEnds r w (b.ends r w - 1))) ∧
    Q true (some ((b.setEnds r w (b.ends r w - 1)).setPages r (b.pages r + 1)))
  | .kfree r, Q, b => 1 ≤ b.pages r ∧ Q () (some (b.setPages r (b.pages r - 1)))
  | .allocproc np, Q, b => b.child = none ∧ Q false (some b) ∧
    Q true (some { b with child := some np })
  | .unalloc np, Q, b => b.child = some np ∧ Q () (some { b with child := none })
  | .runnable np, Q, b => b.child = some np ∧ b.tab.held = true ∧ b.seen = none ∧
    (∀ f, b.tab.count f ≤ b.files f) ∧ (∀ f, b.blank f = false) ∧
    (∀ x, b.tab.cwd = some x → b.hold.Spare x) ∧
    Q () (some { b with
      child := none, files := fun f => b.files f - b.tab.count f
      hold := b.hold.dropAll b.tab.cwd })
  | .zombie, Q, b => b.tab.cwd = none ∧ b.tab.held = false ∧ (∀ fd, b.tab.ofile fd = none) ∧
    (∀ f, b.files f = 0) ∧ (∀ r w, b.ends r w = 0) ∧ (∀ r, b.pages r = 0) ∧ b.hold = .empty ∧
    Q () none

/-- What a process may do with the tables, and what it has then. -/
def fileRules [DecidableEq η] [DecidableEq ι] : Spec (FileOp ι η) FileOp.Ret (Option (Busy ι η))
  | o, Q, some b => busyRules o Q b
  | .running, Q, none => Q false none ∧ ∀ x : Tab η, x.held = true → Q true (some (.start x))
  | _, _, none => False

/-- What a process may ask for, and what it has then. -/
def sysRules [DecidableEq η] [DecidableEq ι] : Spec (Op ι η) Op.Ret (Option (Busy ι η))
  | .inl o, Q, some b =>
    inodeRules b.leases o (fun r l => Q r (some { b with hold := l })) b.hold
  | .inl _, _, none => False
  | .inr o, Q, l => fileRules o Q l

/-! ### What changes hands -/

section Hands

variable {b : Busy ι η} {f k : Fin nfile} {r u n : ℕ} {v w : Bool}

@[simp] theorem Busy.setFiles_self : (b.setFiles f n).files f = n := update_self ..
theorem Busy.setFiles_of_ne (h : k ≠ f) : (b.setFiles f n).files k = b.files k :=
  update_of_ne h ..
@[simp] theorem Busy.setBlank_self : (b.setBlank f v).blank f = v := update_self ..
theorem Busy.setBlank_of_ne (h : k ≠ f) : (b.setBlank f v).blank k = b.blank k :=
  update_of_ne h ..
@[simp] theorem Busy.setEnds_self : (b.setEnds r w n).ends r w = n := by simp [setEnds]
theorem Busy.setEnds_of_ne (h : u ≠ r ∨ v ≠ w) : (b.setEnds r w n).ends u v = b.ends u v := by
  by_cases hu : u = r
  · subst hu
    simp [setEnds, h.resolve_left (· rfl)]
  · simp [setEnds, hu]
@[simp] theorem Busy.setPages_self : (b.setPages r n).pages r = n := update_self ..
theorem Busy.setPages_of_ne (h : u ≠ r) : (b.setPages r n).pages u = b.pages u :=
  update_of_ne h ..

theorem Ends.open_le_one (e : Ends) (w : Bool) : e.open w ≤ 1 := by
  rw [Ends.open]
  split_ifs <;> omega

theorem Ends.closed_iff (e : Ends) : e.closed = true ↔ e.open false = 0 ∧ e.open true = 0 := by
  simp [Ends.closed, Ends.open]

theorem Ends.open_close (e : Ends) (w v : Bool) :
    (e.close w).open v = if v = w then 0 else e.open v := by
  cases w <;> cases v <;> simp [Ends.close, Ends.open]

theorem Ends.freed_close (e : Ends) (w : Bool) : (e.close w).freed = e.freed := by
  cases w <;> rfl

theorem File.ends_none (h : y.type = .none) (r : ℕ) (w : Bool) : y.ends r w = 0 := by
  simp [ends, h]

variable [DecidableEq η]

theorem File.refs_none (h : y.type = .none) (x : η) : y.refs x = 0 := by
  simp [refs, h]

namespace Busy

variable (b) (y : File η)

theorem gain_fields : (b.gain y.type y.writable).tab = b.tab ∧
    (b.gain y.type y.writable).files = b.files ∧ (b.gain y.type y.writable).blank = b.blank ∧
    (b.gain y.type y.writable).seen = b.seen ∧ (b.gain y.type y.writable).pages = b.pages ∧
    (b.gain y.type y.writable).child = b.child ∧
    (b.gain y.type y.writable).hold.locks = b.hold.locks := by
  cases h : y.type <;> simp [gain, setEnds]

theorem gain_ends (r : ℕ) (w : Bool) :
    (b.gain y.type y.writable).ends r w = b.ends r w + y.ends r w := by
  cases h : y.type with
  | none => simp [gain, File.ends, h]
  | inode x => simp [gain, File.ends, h]
  | pipe u =>
    by_cases hr : u = r ∧ y.writable = w
    · obtain ⟨rfl, rfl⟩ := hr
      simp [gain, File.ends, h]
    · have hne : r ≠ u ∨ w ≠ y.writable := by
        by_contra hcon
        push Not at hcon
        exact hr ⟨hcon.1.symm, hcon.2.symm⟩
      simp only [gain, File.ends, h, if_neg hr, setEnds_of_ne hne, Nat.add_zero]

theorem gain_refs (x : η) : (b.gain y.type y.writable).hold.refs x = b.hold.refs x + y.refs x := by
  cases h : y.type with
  | none => simp [gain, refs, h]
  | pipe u => simp [gain, refs, h, setEnds]
  | inode z =>
    by_cases hz : x = z
    · subst hz
      simp [gain, refs, h]
    · simp [gain, refs, h, Hold.take_of_ne hz, Ne.symm hz]

theorem lose_fields : (b.lose y.type y.writable).tab = b.tab ∧
    (b.lose y.type y.writable).files = b.files ∧ (b.lose y.type y.writable).blank = b.blank ∧
    (b.lose y.type y.writable).seen = b.seen ∧ (b.lose y.type y.writable).pages = b.pages ∧
    (b.lose y.type y.writable).child = b.child ∧
    (b.lose y.type y.writable).hold.locks = b.hold.locks := by
  cases h : y.type <;> simp [lose, setEnds]

variable {y}

theorem lose_ends (hy : ∀ r, y.type = .pipe r → 1 ≤ b.ends r y.writable) (r : ℕ) (w : Bool) :
    (b.lose y.type y.writable).ends r w + y.ends r w = b.ends r w := by
  cases h : y.type with
  | none => simp [lose, File.ends, h]
  | inode x => simp [lose, File.ends, h]
  | pipe u =>
    by_cases hr : u = r ∧ y.writable = w
    · obtain ⟨rfl, rfl⟩ := hr
      have hpos := hy u h
      simp only [lose, File.ends, h, setEnds_self, and_self, if_true]
      omega
    · have hne : r ≠ u ∨ w ≠ y.writable := by
        by_contra hcon
        push Not at hcon
        exact hr ⟨hcon.1.symm, hcon.2.symm⟩
      simp only [lose, File.ends, h, if_neg hr, setEnds_of_ne hne, Nat.add_zero]

theorem lose_refs (hy : ∀ x, y.type = .inode x → b.hold.Spare x) (x : η) :
    (b.lose y.type y.writable).hold.refs x + y.refs x = b.hold.refs x := by
  cases h : y.type with
  | none => simp [lose, refs, h]
  | pipe u => simp [lose, refs, h, setEnds]
  | inode z =>
    by_cases hz : x = z
    · subst hz
      have hpos := (hy x h).1
      simp only [lose, refs, h, Hold.drop_self, if_true]
      omega
    · simp [lose, refs, h, Hold.drop_of_ne hz, Ne.symm hz]

end Busy

end Hands

/-! ### Processes -/

section Steps

variable [Fintype ι] {g : ι → Option (Busy ι η)} {t t' : Tables ι η} {p q : ι} {b b' : Busy ι η}
  {f : Fin nfile}

theorem TabInv.running (h : TabInv g t) (hp : g p = some b) : b.tab.status = .running :=
  (h.procs.tab p b hp).2

theorem TabInv.proc_eq (h : TabInv g t) (hp : g p = some b) : t.proc p = b.tab :=
  (h.procs.tab p b hp).1

theorem Pipes.le_open (h : Pipes g t) (hp : g p = some b) (r : ℕ) (w : Bool) :
    b.ends r w ≤ (t.pipe r).open w := by
  have hle := Finset.single_le_sum (f := fun q => endsOf r w (g q)) (fun _ _ => Nat.zero_le _)
    (Finset.mem_univ p)
  have hends := h.ends r w
  simp only [hp, endsOf_some] at hle
  omega

variable [DecidableEq ι]

theorem TabInv.enter (h : TabInv g t) (hp : g p = none) (hrun : (t.proc p).status = .running) :
    TabInv (update g p (some (.start (t.proc p)))) t := by
  refine ⟨h.procs.step (update_eq_self ..).symm (fun hne => absurd rfl hne) ?_
    (fun hne => absurd hrun hne) (fun _ hne => by simp at hne) (fun hnone => by cases hnone) ?_
    fun q c _ hq => h.procs.child_ne hrun q hq,
    h.counts.move (fun _ _ => rfl) rfl (fun f => by rw [hp]; rfl) ?_,
    h.pipes.set hp (fun _ _ => rfl) (fun _ => rfl) h.pipes.new⟩
  · rintro c ⟨⟩
    exact ⟨rfl, hrun⟩
  · rintro c r ⟨⟩ ⟨⟩
  · rintro c ⟨⟩
    exact ⟨fun _ => rfl, rfl⟩

theorem TabInv.setTab (h : TabInv g t) (hp : g p = some b) (hrun : b'.tab.status = .running)
    (hfiles : b'.files = b.files) (hblank : b'.blank = b.blank) (hseen : b'.seen = b.seen)
    (hends : b'.ends = b.ends) (hpages : b'.pages = b.pages) (hchild : b'.child = b.child) :
    TabInv (update g p (some b')) (t.setProc p b'.tab) where
  procs := h.procs.set hp rfl hrun fun _ hr => hchild ▸ hr
  counts := h.counts.local hp (fun _ hqp => by rw [setProc_of_ne hqp])
    (fun _ => ⟨rfl, rfl⟩) hfiles hblank fun _ hy => hseen ▸ hy
  pipes := h.pipes.local hp (fun _ _ _ => rfl) rfl rfl hends hpages

theorem TabInv.putFile (h : TabInv g t) (hp : g p = some b)
    (hcounts : Counts (update g p (some b')) (t.putFile f y)) (htab : b'.tab = b.tab)
    (hends : ∀ r w, b'.ends r w + y.ends r w = b.ends r w + (t.file f).ends r w)
    (hpages : b'.pages = b.pages) (hchild : b'.child = b.child) :
    TabInv (update g p (some b')) (t.putFile f y) := by
  refine ⟨h.procs.local hp htab rfl fun _ hr => hchild ▸ hr, hcounts,
    h.pipes.set hp (fun r w => ?_) (fun r => ?_) h.pipes.new⟩
  · have hsum := sum_putFile (F := fun y => y.ends r w) t f y
    have hstep := hends r w
    simp only [putFile_pipe, endsOf_some]
    omega
  · rw [putFile_pipe, putFile_npipe, pagesOf_some, hpages, pagesOf_some]

theorem Counts.putFile (h : Counts g t) (hp : g p = some b)
    (hothers : ∀ k, k ≠ f → b'.files k = b.files k ∧ b'.blank k = b.blank k)
    (href : y.ref + b.files f = (t.file f).ref + b'.files f)
    (hown : y.ref ≠ (t.file f).ref → 1 ≤ b.files f ∨ (t.file f).ref = 0)
    (htype : y.type ≠ (t.file f).type → (t.file f).ref ≤ b.files f)
    (hfree : y.ref = 0 → y.type = .none)
    (hblank : b'.blank f = true → y.ref = 1 ∧ y.type = .none ∧ 1 ≤ b'.files f)
    (hseen : ∀ k x, b'.seen = some (k, x) →
      ((t.putFile f y).file k).type = .inode x ∧ 1 ≤ b'.files k) :
    Counts (update g p (some b')) (t.putFile f y) := by
  refine h.set hp (fun _ _ => rfl) (fun k => ?_) (fun k => ?_) (fun k => ?_) (fun k => ?_)
    (fun k => ?_) hseen
  all_goals
    obtain rfl | hkf := eq_or_ne k f
    · rw [putFile_self]
      assumption
    rw [putFile_of_ne hkf]
  · rw [(hothers k hkf).1]
  · exact fun hne => absurd rfl hne
  · exact fun hne => absurd rfl hne
  · exact h.free k
  · rw [(hothers k hkf).1, (hothers k hkf).2]
    exact h.blank p b k hp

theorem Counts.putRef (h : Counts g t) (hp : g p = some b) {m : ℕ}
    (hcount : n + b.files f = (t.file f).ref + m) (hown : 1 ≤ b.files f ∨ (t.file f).ref = 0)
    (hn : n ≠ 0) (hblank : v = true → n = 1 ∧ (t.file f).type = .none ∧ 1 ≤ m)
    (hseen : ∀ x, b.seen = some (f, x) → 1 ≤ m) :
    Counts (update g p (some ((b.setFiles f m).setBlank f v)))
      (t.putFile f { t.file f with ref := n }) := by
  have hself : ((b.setFiles f m).setBlank f v).files f = m := setFiles_self
  refine h.putFile hp (fun k hk => ⟨setFiles_of_ne hk, setBlank_of_ne hk⟩) ?_ (fun _ => hown)
    (fun hne => absurd rfl hne) (fun h0 => absurd h0 hn) (fun hv => ?_) fun k x hk => ?_
  · rwa [hself]
  · rw [hself]
    exact hblank (setBlank_self.symm.trans hv)
  · by_cases hkf : k = f
    · subst hkf
      rw [putFile_self, hself]
      exact ⟨(h.seen p b k x hp hk).1, hseen x hk⟩
    · rw [putFile_of_ne hkf]
      exact (setFiles_of_ne hkf).symm ▸ h.seen p b k x hp hk

theorem Counts.close (h : Counts g t) (hp : g p = some b) (href : (t.file f).ref = 1)
    (hfiles : b.files f = 1) (hy : y.ref = 0 ∧ y.type = .none)
    (hb' : b'.files = update b.files f 0 ∧ b'.blank = update b.blank f false ∧ b'.seen = none) :
    Counts (update g p (some b')) (t.putFile f y) := by
  obtain ⟨hfiles', hblank', hseen'⟩ := hb'
  refine h.putFile hp (fun k hk => ?_) ?_ (fun _ => .inl hfiles.ge)
    (fun _ => (href.trans hfiles.symm).le) (fun _ => hy.2) (fun hv => ?_) fun k x hk => ?_
  · rw [hfiles', hblank', update_of_ne hk, update_of_ne hk]
    exact ⟨rfl, rfl⟩
  · simp [hy, hfiles', hfiles, href]
  · simp [hblank'] at hv
  · simp [hseen'] at hk

theorem Counts.make (h : Counts g t) (hp : g p = some b) (hblank : b.blank f = true)
    (hy : y.ref = (t.file f).ref)
    (hb' : b'.files = b.files ∧ b'.blank = update b.blank f false ∧ b'.seen = none) :
    Counts (update g p (some b')) (t.putFile f y) := by
  obtain ⟨hfiles', hblank', hseen'⟩ := hb'
  obtain ⟨href, -, hpos⟩ := h.blank p b f hp hblank
  refine h.putFile hp (fun k hk => ?_) (by rw [hy, hfiles']) (fun hne => absurd hy hne)
    (fun _ => href.le.trans hpos) (fun h0 => ?_) (fun hv => ?_) fun k x hk => ?_
  · rw [hfiles', hblank', update_of_ne hk]
    exact ⟨rfl, rfl⟩
  · omega
  · simp [hblank'] at hv
  · simp [hseen'] at hk

theorem TabInv.setPipe (h : TabInv g t) (hp : g p = some b) {r : ℕ} {e : Ends}
    (hb' : b'.tab = b.tab ∧ b'.files = b.files ∧ b'.blank = b.blank ∧ b'.seen = b.seen ∧
      b'.child = b.child) (hends : ∀ w, b'.ends r w + (t.pipe r).open w = b.ends r w + e.open w)
    (hpages : e.freed + b'.pages r + (if r < t.npipe ∧ (t.pipe r).closed = true then 1 else 0) =
      (t.pipe r).freed + b.pages r + if r < n ∧ e.closed = true then 1 else 0)
    (hothers : ∀ u, u ≠ r → (∀ w, b'.ends u w = b.ends u w) ∧ b'.pages u = b.pages u)
    (hn : n = t.npipe ∧ r < n ∨ n = t.npipe + 1 ∧ r = t.npipe) :
    TabInv (update g p (some b')) { t.setPipe r e with npipe := n } := by
  obtain ⟨htab, hfiles, hblank, hseen, hchild⟩ := hb'
  refine ⟨h.procs.local hp htab rfl fun _ hr => hchild ▸ hr,
    h.counts.local hp (fun _ _ => rfl) (fun _ => ⟨rfl, rfl⟩) hfiles hblank fun _ hy => hseen ▸ hy,
    h.pipes.set hp (fun u w => ?_) (fun u => ?_) fun u hu => ?_⟩
  · by_cases hur : u = r
    · subst hur
      have hstep := hends w
      simp only [setPipe_file, setPipe_self, endsOf_some]
      omega
    · have hstep := (hothers u hur).1 w
      simp only [setPipe_file, setPipe_of_ne hur, endsOf_some]
      omega
  · by_cases hur : u = r
    · subst hur
      simpa only [setPipe_self, pagesOf_some] using hpages
    · have hlt : u < n ↔ u < t.npipe := by omega
      simp only [setPipe_of_ne hur, pagesOf_some, (hothers u hur).2, hlt]
  · dsimp only at hu
    have hur : u ≠ r := by omega
    simp only [setPipe_of_ne hur]
    exact h.pipes.new u (by omega)

theorem Counts.fork (h : Counts g t) (hp : g p = some b) (hnp : g np = none) {x : Tab η}
    (hempty : ∀ f, (t.proc np).count f = 0) (hfiles : ∀ f, b'.files f + x.count f = b.files f)
    (hblank : ∀ f, b'.blank f = false) (hseen : b'.seen = none) :
    Counts (update g p (some b')) (t.setProc np x) := by
  have hne : np ≠ p := by
    rintro rfl
    simp [hp] at hnp
  refine ⟨fun f => ?_, h.free, fun q c f hq hc => ?_, fun q c f z hq hc => ?_⟩
  · -- first the process gives references up, then the new one has them
    have hgive := sum_eq_off (p := p) (a := fun q => filesOf (t.proc q) f (update g p (some b') q))
      (b := fun q => filesOf (t.proc q) f (g q)) fun q hqp => by rw [update_of_ne hqp]
    have hget := sum_eq_off (p := np)
      (a := fun q => filesOf ((t.setProc np x).proc q) f (update g p (some b') q))
      (b := fun q => filesOf (t.proc q) f (update g p (some b') q)) fun q hq => by
        rw [setProc_of_ne hq]
    simp only [update_self, hp, filesOf_some] at hgive
    simp only [update_of_ne hne, hnp, setProc_self, filesOf_none, hempty f] at hget
    have hold := h.count f
    have hstep := hfiles f
    simp only [setProc_file]
    omega
  · obtain ⟨-, ⟨⟩⟩ | ⟨-, hq⟩ := update_eq_some hq
    · simp [hblank f] at hc
    · exact h.blank q c f hq hc
  · obtain ⟨-, ⟨⟩⟩ | ⟨-, hq⟩ := update_eq_some hq
    · simp [hseen] at hc
    · exact h.seen q c f z hq hc

theorem TabInv.leave (h : TabInv g t) (hp : g p = some b) (hfiles : ∀ f, b.files f = 0)
    (hends : ∀ r w, b.ends r w = 0) (hpages : ∀ r, b.pages r = 0) :
    TabInv (update g p none) (t.setProc p (.empty .unused)) := by
  have hrun : (t.proc p).status = .running := by rw [h.proc_eq hp, h.running hp]
  refine ⟨h.procs.step rfl (fun hne => absurd rfl hne) (fun _ hc => by cases hc) (fun _ => rfl)
    (fun hs => by cases hs) (fun _ => rfl) (fun _ _ hc => by cases hc)
    fun q c _ hq => h.procs.child_ne hrun q hq,
    h.counts.move (fun q hqp => by rw [setProc_of_ne hqp]) rfl (fun f => ?_)
      (fun _ hc => by cases hc),
    h.pipes.set hp (fun r w => ?_) (fun r => ?_) h.pipes.new⟩
  · simp [hp, hfiles f, Tab.count, Tab.empty]
  · simp [hends r w]
  · rw [pagesOf_some, hpages r]
    rfl

end Steps

/-! ### Operations -/

section Operations

variable {σ X : Type} [Fintype ι] [DecidableEq ι] [DecidableEq η] {M : Implementation ι η σ X}
  {G : ι → Option (Busy ι η) × X} {s : σ} {w : X} {t : Tables ι η} {p : ι} {b : Busy ι η}
  {f : Fin nfile} {r : ℕ}

/-- An operation keeps the accounts right, and `Q` holds of its result and of what process `p` has
then. -/
def Keeps {α : Type} (M : Implementation ι η σ X) (G : ι → Option (Busy ι η) × X) (s : σ) (w : X)
    (p : ι) (Q : α → Post ι η) : Except Panic (α × Tables ι η) → Prop
  | .error e => Tolerated e
  | .ok y => ∃ l, SysInv M (update G p (l, w)) (s, y.2) ∧ Q y.1 l

theorem SysInv.tabInv (hI : SysInv M G (s, t)) : TabInv (fun q => (G q).1) t := hI.2

theorem SysInv.enter (hI : SysInv M G (s, t)) (hp : G p = (none, w))
    (hrun : (t.proc p).status = .running) :
    SysInv M (update G p (some (.start (t.proc p)), w)) (s, t) := by
  refine hI.tables hp (hI.tabInv.enter (p := p) (by simp only [hp]) hrun) rfl (fun _ => rfl)
    fun x hx => ?_
  simp [Hold.empty] at hx

section Busy

variable (hI : SysInv M G (s, t)) (hp : G p = (some b, w))

include hI hp

theorem SysInv.busy : TabInv (fun q => (G q).1) t ∧ (fun q => (G q).1) p = some b :=
  ⟨hI.tabInv, by simp only [hp]⟩

theorem SysInv.proc_eq : t.proc p = b.tab := hI.tabInv.proc_eq (p := p) (by rw [hp])

theorem SysInv.pin {x : η} (hx : b.hold.locks x ≠ none) : 1 ≤ b.hold.refs x ∨ b.leases x := by
  have hpin := hI.1.1.pin p x (by simpa only [hp, holdOf_some] using hx)
  simp only [hp, holdOf_some, ghost] at hpin
  refine hpin.imp_right ?_
  rintro ⟨c, hc, hlx⟩
  cases hc
  exact hlx

theorem SysInv.same : SysInv M (update G p (some b, w)) (s, t) := by
  rwa [← hp, update_eq_self]

theorem SysInv.running (hlocks : ∀ x, b.hold.locks x = none) :
    SysInv M (update G p (some { b with seen := none }, w)) (s, t) := by
  obtain ⟨hT, hgp⟩ := hI.busy hp
  refine hI.tables hp ⟨hT.procs.local hgp rfl rfl fun _ hr => hr,
    hT.counts.local hgp (fun _ _ => rfl) (fun _ => ⟨rfl, rfl⟩) rfl rfl (fun _ hy => by cases hy),
    hT.pipes.local hgp (fun _ _ _ => rfl) rfl rfl rfl rfl⟩ rfl (fun _ => rfl) fun x hx => ?_
  exact absurd (hlocks x) hx

theorem SysInv.dropCwd (hheld : b.tab.held = true) : SysInv M (update G p (some { b with
        tab := { b.tab with held := false }, hold := b.hold.takeAll b.tab.cwd }, w))
      (s, t.setProc p { b.tab with held := false }) := by
  obtain ⟨hT, hgp⟩ := hI.busy hp
  have hrun := hT.running hgp
  refine hI.tables hp (hT.setTab hgp hrun rfl rfl rfl rfl rfl rfl) ?_ (fun x => ?_)
    fun x hx => ?_
  · simp
  · have hbase := base_setProc t p { b.tab with held := false } x
    rw [hI.proc_eq hp] at hbase
    simp only [Tab.refs, hheld, true_and, Bool.false_eq_true, false_and, if_false] at hbase
    simp only [holdOf_some, Hold.takeAll_refs]
    omega
  · simp only [holdOf_some, Hold.takeAll_refs] at hx ⊢
    rcases hI.pin hp hx with hpos | ⟨-, hcwd⟩ | hseen
    · exact .inl (by omega)
    · exact .inl (by simp [hcwd])
    · exact .inr ⟨_, rfl, .inr hseen⟩

theorem SysInv.setCwd (hheld : b.tab.held = false)
    {ip : Option η} (hspare : ∀ x, ip = some x → b.hold.Spare x) :
    SysInv M (update G p (some { b with
        tab := { b.tab with cwd := ip, held := ip.isSome }, hold := b.hold.dropAll ip }, w))
      (s, t.setProc p { b.tab with cwd := ip, held := ip.isSome }) := by
  obtain ⟨hT, hgp⟩ := hI.busy hp
  have hrun := hT.running hgp
  refine hI.tables hp (hT.setTab hgp hrun rfl rfl rfl rfl rfl rfl) ?_ (fun x => ?_)
    fun x hx => ?_
  · simp
  · have hbase := base_setProc t p { b.tab with cwd := ip, held := ip.isSome } x
    have hdrop := b.hold.dropAll_refs ip x fun h => (hspare x h).1
    have hiff : ip.isSome = true ∧ ip = some x ↔ ip = some x :=
      and_iff_right_of_imp fun h => by simp [h]
    rw [hI.proc_eq hp] at hbase
    simp only [Tab.refs, hheld, Bool.false_eq_true, false_and, if_false, hiff] at hbase
    simp only [holdOf_some]
    omega
  · by_cases hip : ip = some x
    · exact .inr ⟨_, rfl, .inl ⟨by simp [hip], hip⟩⟩
    · have hdrop := b.hold.dropAll_refs ip x fun h => absurd h hip
      simp only [holdOf_some] at hx ⊢
      rcases hI.pin hp hx with hpos | ⟨hh, -⟩ | hseen
      · rw [if_neg hip] at hdrop
        exact .inl (by omega)
      · simp [hheld] at hh
      · exact .inr ⟨_, rfl, .inr hseen⟩

theorem SysInv.setOfile (y : Fin nofile → Option (Fin nfile)) :
    SysInv M (update G p (some { b with tab := { b.tab with ofile := y } }, w))
      (s, t.setProc p { b.tab with ofile := y }) := by
  obtain ⟨hT, hgp⟩ := hI.busy hp
  have hrun := hT.running hgp
  refine hI.files hp (hT.setTab hgp hrun rfl rfl rfl rfl rfl rfl) ?_ rfl fun x hx => hx
  funext x
  have hbase := base_setProc t p { b.tab with ofile := y } x
  rw [hI.proc_eq hp] at hbase
  exact Nat.add_right_cancel hbase

theorem SysInv.putRef {m : ℕ} (hcount : n + b.files f = (t.file f).ref + m)
    (hown : 1 ≤ b.files f ∨ (t.file f).ref = 0) (hn : n ≠ 0)
    (hblank : v = true → n = 1 ∧ (t.file f).type = .none ∧ 1 ≤ m)
    (hseen : ∀ x, b.seen = some (f, x) → 1 ≤ m) :
    SysInv M (update G p (some ((b.setFiles f m).setBlank f v), w))
      (s, t.putFile f { t.file f with ref := n }) := by
  obtain ⟨hT, hgp⟩ := hI.busy hp
  refine hI.files hp (hT.putFile hgp (hT.counts.putRef hgp hcount hown hn hblank hseen) rfl
    (fun r w => ?_) rfl rfl) ?_ rfl fun x hx => hx
  · rfl
  · funext x
    exact Nat.add_right_cancel (base_putFile t f { t.file f with ref := n } x)

theorem SysInv.fileput (href : (t.file f).ref = 1) (hfiles : b.files f = 1) (hseen : b.seen = none)
    (hy : y.ref = 0 ∧ y.type = .none) :
    SysInv M (update G p (some (((b.setFiles f 0).setBlank f false).gain
        (t.file f).type (t.file f).writable), w)) (s, t.putFile f y) := by
  obtain ⟨hT, hgp⟩ := hI.busy hp
  obtain ⟨h1, h2, h3, h4, h5, h6, h7⟩ :=
    ((b.setFiles f 0).setBlank f false).gain_fields (t.file f)
  have hgain : ∀ x, (((b.setFiles f 0).setBlank f false).gain (t.file f).type
      (t.file f).writable).hold.refs x = b.hold.refs x + (t.file f).refs x :=
    ((b.setFiles f 0).setBlank f false).gain_refs (t.file f)
  refine hI.tables hp (hT.putFile hgp (hT.counts.close hgp href hfiles hy
    ⟨h2, h3, h4.trans hseen⟩) h1 (fun r w => ?_) h5 h6) h7 (fun x => ?_) fun x hx => ?_
  · rw [gain_ends, ends_none hy.2]
    rfl
  · have hbase := base_putFile t f y x
    rw [refs_none hy.2] at hbase
    simp only [holdOf_some, hgain]
    omega
  · simp only [holdOf_some, hgain] at hx ⊢
    rcases hI.pin hp hx with hpos | ⟨hh, hcwd⟩ | ⟨k, hk⟩
    · exact .inl (by omega)
    · refine .inr ⟨_, rfl, .inl ?_⟩
      rw [h1]
      exact ⟨hh, hcwd⟩
    · simp [hseen] at hk

theorem SysInv.setFile (hblank : b.blank f = true)
    (hseen : b.seen = none) (hy : y.ref = (t.file f).ref)
    (hends : ∀ r, y.type = .pipe r → 1 ≤ b.ends r y.writable)
    (hspare : ∀ x, y.type = .inode x → b.hold.Spare x) :
    SysInv M (update G p (some ((b.setBlank f false).lose y.type y.writable), w))
      (s, t.putFile f y) := by
  obtain ⟨hT, hgp⟩ := hI.busy hp
  have hnone := (hT.counts.blank p b f hgp hblank).2.1
  obtain ⟨h1, h2, h3, h4, h5, h6, h7⟩ := (b.setBlank f false).lose_fields y
  have hlose : ∀ x, ((b.setBlank f false).lose y.type y.writable).hold.refs x + y.refs x =
      b.hold.refs x := (b.setBlank f false).lose_refs hspare
  refine hI.tables hp (hT.putFile hgp (hT.counts.make hgp hblank hy
    ⟨h2, h3, h4.trans hseen⟩) h1 (fun r w => ?_) h5 h6) h7 (fun x => ?_) fun x hx => ?_
  · rw [(b.setBlank f false).lose_ends hends, ends_none hnone]
    rfl
  · have hbase := base_putFile t f y x
    rw [refs_none hnone] at hbase
    have hx := hlose x
    simp only [holdOf_some]
    omega
  · have hl := hlose x
    simp only [holdOf_some] at hx ⊢
    rcases hI.pin hp hx with hpos | ⟨hh, hcwd⟩ | ⟨k, hk⟩
    · refine .inl ?_
      by_cases hyx : y.type = .inode x
      · have htwo := (hspare x hyx).2 hx
        rw [refs, if_pos hyx] at hl
        omega
      · rw [refs, if_neg hyx] at hl
        omega
    · refine .inr ⟨_, rfl, .inl ?_⟩
      rw [h1]
      exact ⟨hh, hcwd⟩
    · simp [hseen] at hk

theorem SysInv.see (hfiles : 1 ≤ b.files f)
    (hseen : b.seen = none) {x : η} (htype : (t.file f).type = .inode x) :
    SysInv M (update G p (some { b with seen := some (f, x) }, w)) (s, t) := by
  obtain ⟨hT, hgp⟩ := hI.busy hp
  have hcounts : Counts (update (fun q => (G q).1) p (some { b with seen := some (f, x) })) t := by
    refine hT.counts.set hgp (fun _ _ => rfl) (fun _ => rfl) (fun _ hne => absurd rfl hne)
      (fun _ hne => absurd rfl hne) hT.counts.free (hT.counts.blank p b · hgp) fun k z hk => ?_
    cases hk
    exact ⟨htype, hfiles⟩
  refine hI.files hp ⟨hT.procs.local hgp rfl rfl fun _ hr => hr, hcounts,
    hT.pipes.local hgp (fun _ _ _ => rfl) rfl rfl rfl rfl⟩ rfl rfl fun z hz => ?_
  rcases hz with hcwd | ⟨k, hk⟩
  · exact .inl hcwd
  · simp [hseen] at hk

theorem SysInv.setOff (off : UInt32) :
    SysInv M (update G p (some b, w)) (s, t.putFile f { t.file f with off := off }) := by
  obtain ⟨hT, hgp⟩ := hI.busy hp
  have hsame : ∀ k, ((t.putFile f { t.file f with off := off }).file k).ref = (t.file k).ref ∧
      ((t.putFile f { t.file f with off := off }).file k).type = (t.file k).type := by
    intro k
    by_cases hkf : k = f
    · subst hkf
      simp
    · simp [putFile_of_ne hkf]
  refine hI.files hp (hT.putFile hgp (hT.counts.local hgp (fun _ _ => rfl) hsame rfl rfl
    fun _ hy => hy) rfl (fun r w => ?_) rfl rfl) ?_ rfl fun _ hx => hx
  · rfl
  · funext x
    exact Nat.add_right_cancel (base_putFile t f { t.file f with off := off } x)

theorem SysInv.newpipe : (∀ v, b.ends t.npipe v = 0) ∧
      SysInv M (update G p (some ((b.setEnds t.npipe false 1).setEnds t.npipe true 1), w))
        (s, { t.setPipe t.npipe ⟨true, true, 0⟩ with npipe := t.npipe + 1 }) := by
  obtain ⟨hT, hgp⟩ := hI.busy hp
  have hnew := hT.pipes.new t.npipe le_rfl
  have hopen : ∀ v, (t.pipe t.npipe).open v = 0 := fun v => by cases v <;> simp [hnew, Ends.open]
  have hzero : ∀ v, b.ends t.npipe v = 0 := fun v =>
    Nat.eq_zero_of_le_zero ((hT.pipes.le_open hgp _ v).trans (hopen v).le)
  refine ⟨hzero, hI.files hp (hT.setPipe hgp ⟨rfl, rfl, rfl, rfl, rfl⟩ (fun v => ?_) ?_
    (fun u hu => ?_) (.inr ⟨rfl, rfl⟩)) rfl rfl fun _ hx => hx⟩
  · cases v with
    | true =>
      rw [setEnds_self, hopen, hzero]
      rfl
    | false =>
      rw [setEnds_of_ne (.inr (by decide)), setEnds_self, hopen, hzero]
      rfl
  · simp [hnew, Ends.closed, setEnds]
  · exact ⟨fun v => by rw [setEnds_of_ne (.inl hu), setEnds_of_ne (.inl hu)], rfl⟩

/-- An end of a pipe is closed. If the other one is closed too, the page has to be freed. -/
theorem SysInv.pipeclose (hpos : 1 ≤ b.ends r v)
    (hn : n = b.pages r + if ((t.pipe r).close v).closed then 1 else 0) :
    SysInv M (update G p (some ((b.setEnds r v (b.ends r v - 1)).setPages r n), w))
      (s, t.setPipe r ((t.pipe r).close v)) := by
  obtain ⟨hT, hgp⟩ := hI.busy hp
  have hle := hT.pipes.le_open hgp r v
  have hone := (t.pipe r).open_le_one v
  have hlt : r < t.npipe := by
    by_contra hge
    have hzero : (t.pipe r).open v = 0 := by
      rw [hT.pipes.new r (Nat.not_lt.mp hge)]
      cases v <;> rfl
    omega
  have hopen : (t.pipe r).closed = false := by
    rw [← Bool.not_eq_true, Ends.closed_iff]
    cases v <;> omega
  refine hI.files hp (hT.setPipe (n := t.npipe) hgp ⟨rfl, rfl, rfl, rfl, rfl⟩ (fun u => ?_) ?_
    (fun u hu => ?_) (.inl ⟨rfl, hlt⟩)) rfl rfl fun _ hx => hx
  · rw [Ends.open_close]
    by_cases huv : u = v
    · subst huv
      simp only [setPages, setEnds_self, if_true]
      omega
    · rw [if_neg huv]
      simp only [setPages, setEnds_of_ne (.inr huv)]
  · simp only [hopen, setPages_self, Ends.freed_close, hlt, true_and, Bool.false_eq_true,
      if_false, hn]
    omega
  · refine ⟨fun x => ?_, setPages_of_ne hu⟩
    simp only [setPages, setEnds_of_ne (.inl hu)]

theorem SysInv.kfree (hpos : 1 ≤ b.pages r) :
    SysInv M (update G p (some (b.setPages r (b.pages r - 1)), w))
      (s, t.setPipe r { t.pipe r with freed := (t.pipe r).freed + 1 }) := by
  obtain ⟨hT, hgp⟩ := hI.busy hp
  have hlt : r < t.npipe := by
    by_contra hge
    have hle := Finset.single_le_sum (f := fun q => pagesOf r (G q).1) (fun _ _ => Nat.zero_le _)
      (Finset.mem_univ p)
    have hsum := hT.pipes.pages r
    simp only [hp, pagesOf_some] at hle
    rw [if_neg fun h => hge h.1] at hsum
    omega
  refine hI.files hp (hT.setPipe (n := t.npipe) hgp ⟨rfl, rfl, rfl, rfl, rfl⟩ (fun u => rfl) ?_
    (fun u hu => ⟨fun _ => rfl, setPages_of_ne hu⟩) (.inl ⟨rfl, hlt⟩)) rfl rfl fun _ hx => hx
  have hclosed : ({ t.pipe r with freed := (t.pipe r).freed + 1 } : Ends).closed =
      (t.pipe r).closed := rfl
  rw [setPages_self, hclosed]
  dsimp only
  omega

theorem SysInv.setChild {st : Status} (hst : st ≠ .running) (hnp : (t.proc np).status ≠ .running)
    {child : Option ι}
    (hchild : ∀ r, child = some r → (r = np ∧ st = .embryo) ∨ (r ≠ np ∧ b.child = some r))
    (hothers : ∀ q c, q ≠ p → (G q).1 = some c → c.child ≠ some np) :
    SysInv M (update G p (some { b with child := child }, w))
      (s, t.setProc np { t.proc np with status := st }) := by
  obtain ⟨hT, hgp⟩ := hI.busy hp
  have hempty := hT.procs.out np hnp
  refine hI.files hp ⟨hT.procs.start hgp rfl rfl hnp (fun _ => ?_) (fun h => absurd h hst) hchild
    hothers, hT.counts.local hgp (fun q _ => ?_) (fun _ => ⟨rfl, rfl⟩) rfl rfl fun _ hy => hy,
    hT.pipes.local hgp (fun _ _ _ => rfl) rfl rfl rfl rfl⟩ ?_ rfl fun _ hx => hx
  · rw [hempty]
    rfl
  · by_cases hq : q = np
    · subst hq
      simp
    · rw [setProc_of_ne hq]
  · funext x
    exact Nat.add_right_cancel (base_setProc t np { t.proc np with status := st } x)

/-- A new process can run. It has the files and the current directory of its parent. -/
theorem SysInv.runnable (hchild : b.child = some np) (hheld : b.tab.held = true)
    (hseen : b.seen = none) (hfiles : ∀ f, b.tab.count f ≤ b.files f)
    (hblank : ∀ f, b.blank f = false) (hspare : ∀ x, b.tab.cwd = some x → b.hold.Spare x) :
    SysInv M (update G p (some { b with
        child := none, files := fun f => b.files f - b.tab.count f
        hold := b.hold.dropAll b.tab.cwd }, w))
      (s, t.setProc np ⟨.running, b.tab.cwd, true, b.tab.ofile⟩) := by
  obtain ⟨hT, hgp⟩ := hI.busy hp
  have hembryo := hT.procs.child p b np hgp hchild
  have hempty : t.proc np = .empty .embryo := by
    rw [← hembryo]
    exact hT.procs.out np (by simp [hembryo])
  have hnone : (fun q => (G q).1) np = none := by
    cases hg : (G np).1 with
    | none => exact hg
    | some c =>
      have hrun := hT.procs.tab np c hg
      rw [hrun.1, hrun.2] at hembryo
      cases hembryo
  refine hI.tables hp ⟨hT.procs.start hgp rfl rfl (by simp [hembryo]) (fun h => absurd rfl h)
    (fun _ => rfl) (fun _ h => by cases h) fun q c hqp hq hc =>
      hqp (hT.procs.inj q p c b np hq hgp hc hchild),
    hT.counts.fork hgp hnone (fun f => ?_) (fun f => ?_) hblank hseen,
    hT.pipes.local hgp (fun _ _ _ => rfl) rfl rfl rfl rfl⟩ ?_ (fun x => ?_) fun x hx => ?_
  · simp [hempty, Tab.count, Tab.empty]
  · exact Nat.sub_add_cancel (hfiles f)
  · simp
  · have hbase := base_setProc t np ⟨.running, b.tab.cwd, true, b.tab.ofile⟩ x
    have hdrop := b.hold.dropAll_refs b.tab.cwd x fun h => (hspare x h).1
    rw [hempty] at hbase
    simp only [Tab.refs, Tab.empty, Bool.false_eq_true, false_and, if_false, true_and] at hbase
    simp only [holdOf_some]
    omega
  · simp only [holdOf_some] at hx ⊢
    by_cases hcwd : b.tab.cwd = some x
    · exact .inr ⟨_, rfl, .inl ⟨hheld, hcwd⟩⟩
    · have hdrop := b.hold.dropAll_refs b.tab.cwd x fun h => absurd h hcwd
      rw [if_neg hcwd] at hdrop
      rcases hI.pin hp hx with hpos | ⟨-, h⟩ | ⟨k, hk⟩
      · exact .inl (by omega)
      · exact absurd h hcwd
      · simp [hseen] at hk

theorem SysInv.zombie (hcwd : b.tab.cwd = none) (hheld : b.tab.held = false)
    (hofile : ∀ fd, b.tab.ofile fd = none)
    (hfiles : ∀ f, b.files f = 0) (hends : ∀ r w, b.ends r w = 0) (hpages : ∀ r, b.pages r = 0)
    (hhold : b.hold = .empty) :
    SysInv M (update G p (none, w)) (s, t.setProc p { b.tab with status := .unused }) := by
  have hgp : (fun q => (G q).1) p = some b := by simp only [hp]
  have htab : { b.tab with status := .unused } = Tab.empty .unused := by
    simp only [Tab.empty, hcwd, hheld, funext hofile]
  rw [htab]
  refine hI.tables hp (hI.tabInv.leave hgp hfiles hends hpages) ?_ (fun x => ?_) fun x hx => ?_
  · simp [hhold]
  · have hbase := base_setProc t p (.empty .unused) x
    rw [hI.proc_eq hp] at hbase
    simp only [Tab.refs, Tab.empty, hheld, Bool.false_eq_true, false_and, if_false] at hbase
    simp only [holdOf_none, holdOf_some, hhold]
    simp only [Tab.empty]
    omega
  · simp [hhold, Hold.empty] at hx

section Apply

variable {u : ℕ} {v : Bool} {k : Fin nfile} {np : ι}

theorem SysInv.apply_filealloc {Q : Option (Fin nfile) → Post ι η} (h : busyRules .filealloc Q b) :
    Keeps M G s w p Q (FileOp.filealloc.apply p t) := by
  obtain ⟨hT, hgp⟩ := hI.busy hp
  rw [apply]
  split
  · exact ⟨_, hI.same hp, h.1⟩
  · rename_i k hk
    have hzero : (t.file k).ref = 0 := by simpa using List.find?_some hk
    have hfiles : b.files k = 0 :=
      Nat.eq_zero_of_le_zero ((hT.counts.le_ref hgp).trans hzero.le)
    refine ⟨_, hI.putRef (n := 1) (m := 1) (v := true) hp (by omega) (.inr hzero) (by decide)
      (fun _ => ⟨rfl, hT.counts.free k hzero, le_rfl⟩) fun _ _ => le_rfl, h.2 k hfiles⟩

theorem SysInv.apply_filedup {Q : Unit → Post ι η} (h : busyRules (.filedup k) Q b) :
    Keeps M G s w p Q ((FileOp.filedup k).apply p t) := by
  obtain ⟨hT, hgp⟩ := hI.busy hp
  have hle := hT.counts.le_ref (f := k) hgp
  have hpos := h.1
  rw [apply, if_neg (by omega)]
  refine ⟨_, hI.putRef (n := (t.file k).ref + 1) (m := b.files k + 1) (v := b.blank k) hp (by omega)
    (.inl h.1) (by omega) (fun hv => ?_) fun _ _ => by omega, ?_⟩
  · rw [h.2.1] at hv
    cases hv
  · have hsame : (b.setFiles k (b.files k + 1)).setBlank k (b.blank k) =
        b.setFiles k (b.files k + 1) := by
      simp [setBlank, setFiles]
    rw [hsame]
    exact h.2.2

theorem SysInv.apply_fileput {Q : Option (File η) → Post ι η} (h : busyRules (.fileput k) Q b) :
    Keeps M G s w p Q ((FileOp.fileput k).apply p t) := by
  obtain ⟨hT, hgp⟩ := hI.busy hp
  obtain ⟨hpos, hseen, hnone, hsome⟩ := h
  have hle := hT.counts.le_ref (f := k) hgp
  rw [apply, if_neg (by omega)]
  split_ifs with hlast
  · have hblank : b.blank k = false := by
      rw [← Bool.not_eq_true]
      intro hb
      have hone := (hT.counts.blank p b k hgp hb).1
      omega
    refine ⟨_, hI.putRef (n := (t.file k).ref - 1) (m := b.files k - 1) (v := b.blank k) hp
      (by omega) (.inl hpos) (by omega) (fun hv => ?_) fun x hx => ?_, ?_⟩
    · simp [hblank] at hv
    · simp [hseen] at hx
    · have hsame : (b.setFiles k (b.files k - 1)).setBlank k (b.blank k) =
          b.setFiles k (b.files k - 1) := by
        simp [setBlank, setFiles]
      rw [hsame]
      exact hnone hblank
  · have hfiles : b.files k = 1 := by omega
    exact ⟨_, hI.fileput hp (by omega) hfiles hseen ⟨rfl, rfl⟩,
      hsome (t.file k) hfiles fun hb => (hT.counts.blank p b k hgp hb).2.1⟩

theorem SysInv.apply_file {Q : File η → Post ι η} (h : busyRules (.file k) Q b) :
    Keeps M G s w p Q ((FileOp.file k).apply p t) := by
  rw [apply]
  obtain ⟨hpos, ⟨hseen, hother, hinode⟩ | ⟨x, -, hall⟩⟩ := h
  · by_cases htype : ∃ x, (t.file k).type = .inode x
    · obtain ⟨x, hx⟩ := htype
      exact ⟨_, hI.see hp hpos hseen hx, hinode _ x hx⟩
    · exact ⟨_, hI.same hp, hother _ fun x hx => htype ⟨x, hx⟩⟩
  · exact ⟨_, hI.same hp, hall _⟩

theorem SysInv.apply_pipeclose {Q : Bool → Post ι η} (h : busyRules (.pipeclose u v) Q b) :
    Keeps M G s w p Q ((FileOp.pipeclose u v).apply p t) := by
  obtain ⟨hpos, hfalse, htrue⟩ := h
  rw [apply]
  cases hc : ((t.pipe u).close v).closed with
  | true => exact ⟨_, hI.pipeclose hp hpos (by rw [hc]; rfl), htrue⟩
  | false =>
    refine ⟨_, hI.pipeclose hp hpos (n := b.pages u) (by rw [hc]; rfl), ?_⟩
    have hsame : (b.setEnds u v (b.ends u v - 1)).setPages u (b.pages u) =
        b.setEnds u v (b.ends u v - 1) := by
      simp [setPages, setEnds]
    rw [hsame]
    exact hfalse

theorem SysInv.apply_allocproc {Q : Bool → Post ι η} (h : busyRules (.allocproc np) Q b) :
    Keeps M G s w p Q ((FileOp.allocproc np).apply p t) := by
  obtain ⟨hT, hgp⟩ := hI.busy hp
  obtain ⟨hchild, hfalse, htrue⟩ := h
  rw [apply]
  split_ifs with hunused
  · refine ⟨_, hI.setChild hp (by decide) (by simp [hunused]) (fun u hu => ?_)
      fun q c _ hq hc => ?_, htrue⟩
    · cases hu
      exact .inl ⟨rfl, rfl⟩
    · have hembryo := hT.procs.child q c np hq hc
      simp [hunused] at hembryo
  · exact ⟨_, hI.same hp, hfalse⟩

end Apply

/-- **Operations on the tables keep the accounts right**, for a process that is in a call. -/
theorem SysInv.apply_busy {o : FileOp ι η} {Q : o.Ret → Post ι η} (h : busyRules o Q b) :
    Keeps M G s w p Q (o.apply p t) := by
  obtain ⟨hT, hgp⟩ := hI.busy hp
  have htab := hI.proc_eq hp
  match o, Q, h with
  | .running, Q, h =>
    have hrun : decide ((t.proc p).status = .running) = true := by
      rw [htab]
      exact decide_eq_true (hT.running hgp)
    rw [apply, hrun]
    exact ⟨_, hI.running hp h.1, h.2⟩
  | .cwd, Q, h =>
    rw [apply, htab]
    exact ⟨_, hI.same hp, h⟩
  | .dropCwd, Q, h =>
    rw [apply, htab]
    exact ⟨_, hI.dropCwd hp h.1, h.2⟩
  | .setCwd ip, Q, h =>
    rw [apply, htab]
    exact ⟨_, hI.setCwd hp h.1 h.2.1, h.2.2⟩
  | .ofile fd, Q, h =>
    rw [apply, htab]
    exact ⟨_, hI.same hp, h⟩
  | .setOfile fd k, Q, h =>
    rw [apply, htab]
    exact ⟨_, hI.setOfile hp _, h⟩
  | .filealloc, Q, h => exact hI.apply_filealloc hp h
  | .filedup k, Q, h => exact hI.apply_filedup hp h
  | .fileput k, Q, h => exact hI.apply_fileput hp h
  | .file k, Q, h => exact hI.apply_file hp h
  | .setFile k type rd wr, Q, h =>
    obtain ⟨hblank, hseen, hends, hspare, hQ⟩ := h
    exact ⟨_, hI.setFile (y := ⟨type, (t.file k).ref, rd, wr, 0⟩) hp hblank hseen rfl hends hspare,
      hQ⟩
  | .setOff k off, Q, h => exact ⟨_, hI.setOff hp off, h⟩
  | .newpipe, Q, h =>
    obtain ⟨hzero, hnew⟩ := hI.newpipe hp
    exact ⟨_, hnew, h t.npipe (hzero _) (hzero _)⟩
  | .pipeclose u v, Q, h => exact hI.apply_pipeclose hp h
  | .kfree u, Q, h => exact ⟨_, hI.kfree hp h.1, h.2⟩
  | .allocproc np, Q, h => exact hI.apply_allocproc hp h
  | .unalloc np, Q, h =>
    have hembryo := hT.procs.child p b np hgp h.1
    refine ⟨_, hI.setChild hp (by decide) (by simp [hembryo]) (fun u hu => ?_)
      fun q c hqp hq hc => hqp (hT.procs.inj q p c b np hq hgp hc h.1), h.2⟩
    cases hu
  | .runnable np, Q, h =>
    obtain ⟨hchild, hheld, hseen, hfiles, hblank, hspare, hQ⟩ := h
    rw [apply, htab]
    exact ⟨_, hI.runnable hp hchild hheld hseen hfiles hblank hspare, hQ⟩
  | .zombie, Q, h =>
    obtain ⟨hcwd, hheld, hofile, hfiles, hends, hpages, hhold, hQ⟩ := h
    rw [apply, htab]
    exact ⟨_, hI.zombie hp hcwd hheld hofile hfiles hends hpages hhold, hQ⟩

end Busy

/-- **Operations on the tables keep the accounts right.** -/
theorem SysInv.apply (hI : SysInv M G (s, t)) {l : Option (Busy ι η)} (hp : G p = (l, w))
    {o : FileOp ι η} {Q : o.Ret → Post ι η} (h : fileRules o Q l) :
    Keeps M G s w p Q (o.apply p t) := by
  cases l with
  | some b =>
    have hb : busyRules o Q b := by
      cases o <;> exact h
    exact hI.apply_busy hp hb
  | none =>
    cases o with
    | running =>
      rw [FileOp.apply]
      by_cases hrun : (t.proc p).status = .running
      · rw [decide_eq_true hrun]
        exact ⟨_, hI.enter hp hrun, h.2 _ (hI.tabInv.procs.born p (by simp only [hp]) hrun)⟩
      · rw [decide_eq_false hrun]
        refine ⟨none, ?_, h.1⟩
        rwa [← hp, update_eq_self]
    | _ => exact h.elim

theorem SysInv.inode {s' : σ} (hI : SysInv M G (s, t)) (hp : G p = (some b, w)) {y : Hold η × X}
    (hC : CacheInv M.ref M.busy M.Extra
      (update (fun q => (holdOf (G q).1, (G q).2)) p y) (s', ghost (fun q => (G q).1) t)) :
    SysInv M (update G p (some { b with hold := y.1 }, y.2)) (s', t) := by
  obtain ⟨hT, hgp⟩ := hI.busy hp
  have hhold : (fun q => (holdOf (update G p (some { b with hold := y.1 }, y.2) q).1,
      (update G p (some { b with hold := y.1 }, y.2) q).2)) =
        update (fun q => (holdOf (G q).1, (G q).2)) p y := by
    funext q
    by_cases hqp : q = p
    · subst hqp
      simp
    · simp [hqp]
  have hlease : (fun q => leasesOf (update G p (some { b with hold := y.1 }, y.2) q).1) =
      fun q => leasesOf (G q).1 := by
    funext q x
    by_cases hqp : q = p
    · subst hqp
      simp only [update_self, hp, leasesOf, Option.some.injEq, exists_eq_left', eq_iff_iff]
      exact Iff.rfl
    · simp [hqp]
  refine ⟨?_, ?_⟩
  · rw [hhold]
    simpa only [ghost, hlease] using hC
  · rw [fst_update]
    exact ⟨hT.procs.local hgp rfl rfl fun _ hr => hr,
      hT.counts.local hgp (fun _ _ => rfl) (fun _ => ⟨rfl, rfl⟩) rfl rfl fun _ hy => hy,
      hT.pipes.local hgp (fun _ _ _ => rfl) rfl rfl rfl rfl⟩

/-- **The interface is implemented as the rules say.** -/
theorem implement_rules (M : Implementation ι η σ X) (p : ι) (o : Op ι η)
    (Q : Op.Ret o → Post ι η) (l : Option (Busy ι η)) (h : sysRules o Q l) :
    Wp (SysInv M) (contract M.ok M.guar).onFst p (implement M.code p o)
      (fun r y => y.2 = M.idle ∧ Q r y.1) (l, M.idle) := by
  match o, Q, l, h with
  | .inl o, Q, some b, h =>
    refine Wp.zoom (L := Hold η × X) (l := (b.hold, M.idle))
      (Q := fun r y => y.2 = M.idle ∧ Q r y.1) (fun y => (some { b with hold := y.1 }, y.2))
      (fun G s t y hI hp => ?_) (M.rules b.leases p o _ _ h)
    exact ⟨fun q => (holdOf (G q).1, (G q).2), ghost (fun q => (G q).1) t,
      ⟨hI.1, fun x hx => ⟨{ b with hold := y.1 }, by simp only [hp], hx⟩⟩,
      by simp only [hp, holdOf_some], fun y₁ s₁ hI₁ => hI.inode hp hI₁.1⟩
  | .inr o, Q, l, h =>
    refine Wp.step (fun G x e hI hp he => ?_) fun G x r x' hI hp he _ => ?_
    · have hkeeps := hI.apply hp h
      match ha : o.apply p x.2 with
      | .ok y => simp [ha, Except.map] at he
      | .error e' =>
        simp only [ha, Except.map, Option.some.injEq, Except.error.injEq] at he
        rw [ha] at hkeeps
        exact he ▸ M.tolerated e' hkeeps
    · have hkeeps := hI.apply hp h
      match ha : o.apply p x.2 with
      | .error e' => simp [ha, Except.map] at he
      | .ok y =>
        simp only [ha, Except.map, Option.some.injEq, Except.ok.injEq] at he
        cases he
        rw [ha] at hkeeps
        obtain ⟨l', hI', hQ⟩ := hkeeps
        exact ⟨M.guar_refl _, (l', M.idle), hI', rfl, hQ⟩

end Operations

end Xv6.Sysfile
