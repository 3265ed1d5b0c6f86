import Xv6.Library.Frame
import Xv6.Sysfile.Refs

/-!
# The inode cache

The table `icache.inode` of `fs.c` with its `NINODE` entries, as the code has it: `iget` looks for
the entry of an inode number and takes a free one if there is none, and a pointer to an inode is the
place of its entry. Everything else that is done with an inode is done with one entry and with the
inode on the disk whose number is in it, as in `Fs.Inode`.

## Main definitions

* `Cache`, `Icache.iget`, `Icache.ialloc`
* `Icache.code` — the inode operations on the table

## Main results

* `Icache.implementation` — they follow the rules, there is one entry for each inode in use, and an
  entry in use is not given to another inode
-/

namespace Xv6.Sysfile

open Fs Concurrent Function Prog

/-- An entry of the inode table. -/
structure Slot where
  inum : ℕ
  entry : Entry

/-- The disk and the inode table. -/
structure Cache where
  bitmap : ℕ → Bool
  data : ℕ → Block
  dinode : ℕ → Dinode
  slot : Fin ninode → Slot

namespace Cache

variable (c : Cache) (x : Fin ninode)

/-- Reference count. -/
def ref : ℕ := (c.slot x).entry.ref

/-- `I_BUSY`. -/
def busy : Bool := (c.slot x).entry.busy

/-- Inode number. -/
def inum : ℕ := (c.slot x).inum

/-- The table with another entry. -/
def setEntry (e : Entry) : Cache :=
  { c with slot := update c.slot x { c.slot x with entry := e } }

/-- The disk and one entry. -/
def view : Fs.State := ⟨c.bitmap, c.data, c.dinode, fun _ => (c.slot x).entry⟩

/-- The disk and the entry as they have become. `n` is the inode number of the entry. -/
def setView (n : ℕ) (s : Fs.State) : Cache :=
  ⟨s.bitmap, s.data, s.dinode, update c.slot x { c.slot x with entry := s.icache n }⟩

variable {c x} {y : Fin ninode} {e : Entry} {n : ℕ}

@[simp] theorem setEntry_ref : (c.setEntry x e).ref = update c.ref x e.ref := by
  funext y
  by_cases hyx : y = x
  · subst hyx
    simp [ref, setEntry]
  · simp [ref, setEntry, hyx]

@[simp] theorem setEntry_busy : (c.setEntry x e).busy = update c.busy x e.busy := by
  funext y
  by_cases hyx : y = x
  · subst hyx
    simp [busy, setEntry]
  · simp [busy, setEntry, hyx]

@[simp] theorem setEntry_inum : (c.setEntry x e).inum = c.inum := by
  funext y
  by_cases hyx : y = x
  · subst hyx
    simp [inum, setEntry]
  · simp [inum, setEntry, hyx]

theorem setView_setEntry : c.setView x n ((c.view x).setEntry n e) = c.setEntry x e := by
  simp [setView, State.setEntry, setEntry, view]

end Cache

/-! ### The operations -/

namespace Icache

/-- Do something with the inode that an entry is for. -/
def via {α : Type} (x : Fin ninode) (m : ℕ → Code α) : Prog Cache Panic α := do
  let n ← read fun c => c.inum x
  (m n).on (Cache.view · x) (Cache.setView · x n)

/-- Find the inode with the number in the table, or take a free entry for it. -/
def iget (inum : ℕ) : Prog Cache Panic (Fin ninode) :=
  .step fun c =>
    match (List.finRange ninode).find? fun x => 0 < c.ref x ∧ c.inum x = inum with
    | some x => some (.ok (x, c.setEntry x { (c.slot x).entry with ref := c.ref x + 1 }))
    | none =>
      match (List.finRange ninode).find? fun x => c.ref x = 0 with
      | none => some (.error .igetNone)
      | some x =>
        let e := { (c.slot x).entry with ref := 1, busy := false, valid := false }
        some (.ok (x, { c with slot := update c.slot x ⟨inum, e⟩ }))

/-- The loop of `ialloc` over the inodes. -/
def iallocLoop (type : Kind) : List ℕ → Prog Cache Panic (Fin ninode)
  | [] => .panic .iallocNone
  | i :: is => do
    let found ← step fun c =>
      if (c.dinode i).type = .free then
        some (.ok (true, { c with dinode := update c.dinode i (.new type) }))
      else some (.ok (false, c))
    if found then iget i else iallocLoop type is

/-- Allocate a new inode with the given type. -/
def ialloc (sb : Super) (type : Kind) : Prog Cache Panic (Fin ninode) :=
  iallocLoop type ((List.range (sb.ninodes - 1)).map (· + 1))

/-- Change a field of the inode in memory. -/
def setCopy (x : Fin ninode) (f : Dinode → Dinode) : Prog Cache Panic Unit :=
  .modify fun c => c.setEntry x { (c.slot x).entry with copy := f (c.slot x).entry.copy }

/-- The inode operations. `devread` and `devwrite` are the devices that can be read and written. -/
def code (sb : Super) (devread devwrite : ℤ → Bool) :
    (o : InodeOp (Fin ninode)) → Prog Cache Panic o.Ret
  | .iget inum => iget inum
  | .idup x => via x Fs.idup
  | .ilock x => via x Fs.ilock
  | .iunlock x => via x Fs.iunlock
  | .iput x => via x Fs.iput
  | .ialloc type => ialloc sb type
  | .iupdate x => via x Fs.iupdate
  | .inum x => .read fun c => c.inum x
  | .type x => .read fun c => (c.slot x).entry.copy.type
  | .nlink x => .read fun c => (c.slot x).entry.copy.nlink
  | .size x => .read fun c => (c.slot x).entry.copy.size
  | .setNlink x n => setCopy x fun d => { d with nlink := n }
  | .setDev x major minor => setCopy x fun d => { d with major := major, minor := minor }
  | .readi x off n => via x fun i => Fs.readi sb devread i off n
  | .writei x src off => via x fun i => Fs.writei sb devwrite i src off (.ofNat src.length)
  | .panic e => .panic e

end Icache

/-! ### What they leave alone -/

/-- The panics that are not excluded here: nothing is said about the blocks of inodes. -/
def Loose (e : Panic) : Prop := Tolerated e ∨ e = .freeingFree

/-- A step on blocks and on inodes in memory leaves reference counts and `I_BUSY` alone. -/
def Counted (s s' : Fs.State) : Prop :=
  ∀ i, (s'.icache i).ref = (s.icache i).ref ∧ (s'.icache i).busy = (s.icache i).busy

namespace Counted

theorem refl (s : Fs.State) : Counted s s := fun _ => ⟨rfl, rfl⟩

theorem setCopy (s : Fs.State) (i : ℕ) (d : Dinode) : Counted s (s.setCopy i d) := by
  intro j
  by_cases hji : j = i
  · subst hji
    simp [State.setCopy, State.setEntry]
  · simp [State.setCopy, State.setEntry, hji]

theorem read {β : Type} (f : Fs.State → β) : (read f : Code β).Keeps Loose Counted :=
  .read refl

theorem ballocLoop (sb : Super) (bs : List ℕ) : (Fs.ballocLoop sb bs).Keeps Loose Counted := by
  induction bs with
  | nil => exact .panic (.inl (by decide))
  | cons b bs ih =>
    refine .bind (.step (fun s e he => by cases he) fun s r s' hs => ?_) fun r => ?_
    · have hmark : s' = (markFree sb b bpb s).2 := by
        simp only [Option.some.injEq, Except.ok.injEq] at hs
        rw [hs]
      rw [hmark, markFree]
      cases firstFree sb s b bpb with
      | none => exact refl s
      | some n => exact fun _ => ⟨rfl, rfl⟩
    · cases r with
      | none => exact ih
      | some n => exact .bind (.modify fun s _ => ⟨rfl, rfl⟩) fun _ => .ret n

theorem balloc (sb : Super) : (Fs.balloc sb).Keeps Loose Counted := ballocLoop sb _

theorem bfree (b : ℕ) : (Fs.bfree b).Keeps Loose Counted := by
  refine .step (fun s e he => ?_) fun s r s' hs => ?_
  · simp only [Option.some.injEq] at he
    split_ifs at he
    cases he
    exact .inr rfl
  · simp only [Option.some.injEq] at hs
    split_ifs at hs
    cases hs
    exact fun _ => ⟨rfl, rfl⟩

theorem bmapAddr (sb : Super) (i k : ℕ) : (Fs.bmapAddr sb i k).Keeps Loose Counted := by
  refine .bind (read _) fun addr => ?_
  split_ifs
  · exact .bind (balloc sb) fun b => .bind (.modify fun s => setCopy s i _) fun _ => .ret b
  · exact .ret addr

theorem bmap (sb : Super) (i bn : ℕ) : (Fs.bmap sb i bn).Keeps Loose Counted := by
  rw [Fs.bmap]
  split_ifs
  · exact bmapAddr sb i bn
  · refine .bind (bmapAddr sb i ndirect) fun ind => .bind (read _) fun addr => ?_
    split_ifs
    · exact .bind (balloc sb) fun b => .bind (.modify fun s _ => ⟨rfl, rfl⟩) fun _ => .ret b
    · exact .ret addr
  · exact .panic (.inl (by decide))

theorem forEach {f : ℕ → Code Unit} (hf : ∀ k, (f k).Keeps Loose Counted) (ks : List ℕ) :
    (Fs.forEach f ks).Keeps Loose Counted := by
  induction ks with
  | nil => exact .ret ()
  | cons k ks ih => exact .bind (hf k) fun _ => ih

theorem iupdate (i : ℕ) : (Fs.iupdate i).Keeps Loose Counted := .modify fun _ _ => ⟨rfl, rfl⟩

theorem itrunc (i : ℕ) : (Fs.itrunc i).Keeps Loose Counted := by
  have hsize : (modify fun s : Fs.State => s.setCopy i { s.copy i with size := 0 } :
      Code Unit).Keeps Loose Counted := .modify fun s => setCopy s i _
  refine .bind (forEach (fun k => .bind (read _) fun addr => ?_) _) fun _ =>
    .bind (read _) fun ind => ?_
  · split_ifs
    · exact .bind (bfree addr) fun _ => .modify fun s => setCopy s i _
    · exact .ret ()
  · split_ifs
    · refine .bind (forEach (fun j => .bind (read _) fun addr => ?_) _) fun _ => .bind (bfree ind)
        fun _ => .bind (.modify fun s => setCopy s i _) fun _ => .bind hsize fun _ => iupdate i
      split_ifs
      · exact bfree addr
      · exact .ret ()
    · exact .bind hsize fun _ => iupdate i

theorem readiLoop (sb : Super) (i k off left : ℕ) :
    (Fs.readiLoop sb i k off left).Keeps Loose Counted := by
  induction k generalizing off left with
  | zero => exact .ret []
  | succ k ih =>
    rw [Fs.readiLoop]
    split_ifs
    · exact .ret []
    · exact .bind (bmap sb i _) fun b => .bind (read _) fun bytes => .bind (ih _ _) fun rest =>
        .ret _

theorem readi (sb : Super) (devread : ℤ → Bool) (i : ℕ) (off n : UInt32) :
    (Fs.readi sb devread i off n).Keeps Loose Counted := by
  refine .bind (read _) fun ip => ?_
  dsimp only
  split_ifs
  · exact .ret _
  · exact .ret _
  · exact .ret _
  · exact .bind (readiLoop sb i _ _ _) fun bytes => .ret _
  · exact .bind (readiLoop sb i _ _ _) fun bytes => .ret _

theorem writeiLoop (sb : Super) (i k off : ℕ) (src : List UInt8) :
    (Fs.writeiLoop sb i k off src).Keeps Loose Counted := by
  induction k generalizing off src with
  | zero => exact .ret ()
  | succ k ih =>
    rw [Fs.writeiLoop]
    split_ifs
    · exact .ret ()
    · exact .bind (bmap sb i _) fun b => .bind (.modify fun s _ => ⟨rfl, rfl⟩) fun _ => ih _ _

theorem writei (sb : Super) (devwrite : ℤ → Bool) (i : ℕ) (src : List UInt8) (off n : UInt32) :
    (Fs.writei sb devwrite i src off n).Keeps Loose Counted := by
  refine .bind (read _) fun ip => ?_
  dsimp only
  split_ifs
  · exact .ret _
  · exact .ret _
  · exact .ret _
  · exact .ret _
  · refine .bind (writeiLoop sb i _ _ _) fun _ => .bind (read _) fun size => ?_
    split_ifs
    · exact .bind (.modify fun s => setCopy s i _) fun _ => .bind (iupdate i) fun _ => .ret _
    · exact .ret _

end Counted

/-! ### Rules -/

namespace Cache

/-- There is one entry for each inode in use. -/
def Distinct (c : Cache) : Prop :=
  ∀ x y, 0 < c.ref x → 0 < c.ref y → c.inum x = c.inum y → x = y

/-- An entry in use stays that of its inode. -/
def Stays (c c' : Cache) : Prop := ∀ x, 0 < c.ref x → c'.inum x = c.inum x

theorem Stays.refl (c : Cache) : c.Stays c := fun _ _ => rfl

theorem Distinct.of_le {c c' : Cache} (h : c.Distinct) (href : ∀ x, 0 < c'.ref x → 0 < c.ref x)
    (hinum : c'.inum = c.inum) : c'.Distinct := by
  intro x y hx hy hxy
  rw [hinum] at hxy
  exact h x y (href x hx) (href y hy) hxy

theorem Distinct.fill {c : Cache} {x : Fin ninode} {inum : ℕ} {e : Entry} (h : c.Distinct)
    (hnone : ∀ y, 0 < c.ref y → c.inum y ≠ inum) :
    Distinct { c with slot := update c.slot x ⟨inum, e⟩ } := by
  intro y z hy hz hyz
  by_cases hyx : y = x <;> by_cases hzx : z = x
  · rw [hyx, hzx]
  · subst hyx
    simp only [ref, Cache.inum, update_self, update_of_ne hzx] at hz hyz
    exact absurd hyz.symm (hnone z hz)
  · subst hzx
    simp only [ref, Cache.inum, update_self, update_of_ne hyx] at hy hyz
    exact absurd hyz (hnone y hy)
  · simp only [ref, Cache.inum, update_of_ne hyx, update_of_ne hzx] at hy hz hyz
    exact h y z hy hz hyz

end Cache

namespace Icache

section Rules

variable {ι : Type} [Fintype ι] [DecidableEq ι] {lease : Fin ninode → Prop} {p : ι}

/-- What holds while a process carries an operation out. -/
def Inv (lease : Fin ninode → Prop) (p : ι) (g : ι → Hold (Fin ninode) × Unit)
    (x : Cache × Ghost ι (Fin ninode)) : Prop :=
  CacheInv Cache.ref Cache.busy (fun _ c => c.Distinct) g x ∧ ∀ y, lease y → x.2.lease p y

/-- What is promised. -/
def promise : Contract Cache Panic := contract Loose Cache.Stays

variable {g : ι → Hold (Fin ninode) × Unit} {c c' : Cache} {u : Ghost ι (Fin ninode)}
  {l l' : Hold (Fin ninode)} {x : Fin ninode}

section

variable (hI : Inv lease p g (c, u))

include hI

omit [DecidableEq ι] in
theorem Inv.refs : Refs (fun q => (g q).1) u.base u.lease c.ref c.busy := hI.1.1

theorem Inv.set (hR : Refs (update (fun q => (g q).1) p l') u.base u.lease c'.ref c'.busy)
    (hD : c'.Distinct) : Inv lease p (update g p (l', ())) (c', u) := by
  refine ⟨⟨?_, hD⟩, hI.2⟩
  rw [fst_update]
  exact hR

theorem Inv.setEntry {e : Entry} (hx : 0 < e.ref → 0 < c.ref x)
    (hR : Refs (update (fun q => (g q).1) p l') u.base u.lease
      (update c.ref x e.ref) (update c.busy x e.busy)) :
    Inv lease p (update g p (l', ())) (c.setEntry x e, u) := by
  refine hI.set ?_ (hI.1.2.of_le (fun y hy => ?_) Cache.setEntry_inum)
  · rwa [Cache.setEntry_ref, Cache.setEntry_busy]
  · rw [Cache.setEntry_ref] at hy
    by_cases hyx : y = x
    · subst hyx
      rw [update_self] at hy
      exact hx hy
    · rwa [update_of_ne hyx] at hy

omit [DecidableEq ι] in
theorem Inv.same (href : c'.ref = c.ref) (hbusy : c'.busy = c.busy)
    (hinum : c'.inum = c.inum) : Inv lease p g (c', u) := by
  refine ⟨⟨?_, hI.1.2.of_le (fun y hy => ?_) hinum⟩, hI.2⟩
  · rw [show Refs _ _ _ (Cache.ref (c', u).1) (Cache.busy (c', u).1) ↔
      Refs (fun q => (g q).1) u.base u.lease c'.ref c'.busy from Iff.rfl, href, hbusy]
    exact hI.refs
  · rwa [href] at hy

end

variable {n : ℕ}

theorem counted_view {s' : Fs.State} (h : Counted (c.view x) s') :
    (c.setView x n s').ref = c.ref ∧ (c.setView x n s').busy = c.busy ∧
      (c.setView x n s').inum = c.inum := by
  refine ⟨funext fun y => ?_, funext fun y => ?_, funext fun y => ?_⟩
  all_goals
    by_cases hyx : y = x
    · subst hyx
      simp [Cache.ref, Cache.busy, Cache.inum, Cache.setView, Cache.view, h n]
    · simp [Cache.ref, Cache.busy, Cache.inum, Cache.setView, hyx]

/-- **A program that leaves reference counts and `I_BUSY` alone.** -/
theorem quiet_wp {α : Type} {m : Code α} {Q : α → Hold (Fin ninode) × Unit → Prop}
    (hm : m.Keeps Loose Counted) (hQ : ∀ a, Q a (l, ())) :
    Wp (Inv lease p) promise.onFst p (m.on (Cache.view · x) (Cache.setView · x n)).onFst Q
      (l, ()) := by
  refine Wp.keeps hm.on (fun g c c' u hI hg hc => ?_) hQ
  obtain ⟨s', hs', rfl⟩ := hc
  obtain ⟨href, hbusy, hinum⟩ := counted_view (n := n) hs'
  exact ⟨fun y _ => congrFun hinum y, hI.same href hbusy hinum⟩

theorem via_wp {α : Type} {m : ℕ → Code α} {Q : α → Hold (Fin ninode) × Unit → Prop}
    (hm : ∀ n, Wp (Inv lease p) promise.onFst p
      ((m n).on (Cache.view · x) (Cache.setView · x n)).onFst Q (l, ())) :
    Wp (Inv lease p) promise.onFst p (via x m).onFst Q (l, ()) := by
  rw [via, bind_eq, onFst_bind]
  refine Wp.bind (Wp.keeps (.read fun c => (rfl : c = c)) (fun g c c' u hI hg hc => ?_) hm)
  cases hc
  exact ⟨Cache.Stays.refl c, hI⟩

theorem entry_wp {β : Type} {f : Fs.State → Option (Except Panic (β × Fs.State))}
    {Q : β → Hold (Fin ninode) × Unit → Prop}
    (herr : ∀ g c u e, Inv lease p g (c, u) → g p = (l, ()) → f (c.view x) = some (.error e) →
      Loose e) (hok : ∀ g c u b s', Inv lease p g (c, u) → g p = (l, ()) →
      f (c.view x) = some (.ok (b, s')) → ∃ e l' ref' flag', s' = (c.view x).setEntry n e ∧
        (0 < e.ref → 0 < c.ref x) ∧ update c.ref x e.ref = ref' ∧ update c.busy x e.busy = flag' ∧
            Refs (update (fun q => (g q).1) p l') u.base u.lease ref' flag' ∧ Q b (l', ())) :
    Wp (Inv lease p) promise.onFst p
      ((step f).on (Cache.view · x) (Cache.setView · x n)).onFst Q (l, ()) := by
  refine Wp.onStep herr fun g c u b s' hI hg hf => ?_
  obtain ⟨e, l', ref', flag', rfl, hpos, rfl, rfl, hR, hQ⟩ := hok g c u b s' hI hg hf
  rw [Cache.setView_setEntry]
  exact ⟨fun y _ => congrFun Cache.setEntry_inum y, (l', ()), hI.setEntry hpos hR, hQ⟩

omit [DecidableEq ι] in
theorem Inv.pos (hI : Inv lease p g (c, u)) (hg : g p = (l, ())) (hx : 1 ≤ l.refs x ∨ lease x) :
    1 ≤ c.ref x := by
  have hle := hI.refs.le_ref p x
  rw [hg] at hle
  rcases hx with href | hlease
  · exact (href.trans (Nat.le_add_left _ _)).trans hle
  · exact (hI.refs.lease p x (hI.2 x hlease)).trans ((Nat.le_add_right _ _).trans hle)

variable {Q : Unit → Hold (Fin ninode) × Unit → Prop}

theorem idup_wp (hx : 1 ≤ l.refs x ∨ lease x) (hQ : Q () (l.take x, ())) :
    Wp (Inv lease p) promise.onFst p (via x Fs.idup).onFst Q (l, ()) := by
  refine via_wp fun n => entry_wp (fun g c u e _ _ he => by cases he) fun g c u b s' hI hg hf => ?_
  cases hf
  have hR := hI.refs.take (p := p) (x := x) rfl
  rw [hg] at hR
  exact ⟨_, _, _, _, rfl, fun _ => hI.pos hg hx, rfl, update_eq_self .., hR, hQ⟩

theorem ilock_wp (hx : 1 ≤ l.refs x ∨ lease x) (hQ : l.locks x = none → Q () (l.lock x false, ())) :
    Wp (Inv lease p) promise.onFst p (via x Fs.ilock).onFst Q (l, ()) := by
  refine via_wp fun n => entry_wp (fun g c u e hI hg he => ?_) fun g c u b s' hI hg hf => ?_
  · have hnot : ¬ ((c.view x).icache n).ref < 1 := Nat.not_lt.mpr (hI.pos hg hx)
    simp only [if_neg hnot] at he
    split_ifs at he with hbusy hvalid htype
    · cases he
    · cases he
      exact .inl (by decide)
    · cases he
  · have hpos := hI.pos hg hx
    have hnot : ¬ ((c.view x).icache n).ref < 1 := Nat.not_lt.mpr hpos
    -- whether the inode is read from the disk or not, `I_BUSY` was clear and is set
    have hlock : ∀ hbusy : c.busy x = false,
        Refs (update (fun q => (g q).1) p (l.lock x false)) u.base u.lease c.ref
          (update c.busy x true) ∧ l.locks x = none := by
      intro hbusy
      have hR := hI.refs.lock (p := p) (d := false) hbusy ?_ rfl
      · have hnone := hI.refs.not_busy hbusy p
        rw [hg] at hR hnone
        exact ⟨hR, hnone⟩
      · rw [hg]
        exact hx.imp_right (hI.2 x)
    simp only [if_neg hnot] at hf
    split_ifs at hf with hbusy hvalid htype
    · cases hf
      obtain ⟨hR, hnone⟩ := hlock (Bool.eq_false_iff.mpr hbusy)
      exact ⟨_, _, _, _, rfl, fun _ => hpos, update_eq_self .., rfl, hR, hQ hnone⟩
    · cases hf
    · cases hf
      obtain ⟨hR, hnone⟩ := hlock (Bool.eq_false_iff.mpr hbusy)
      exact ⟨_, _, _, _, rfl, fun _ => hpos, update_eq_self .., rfl, hR, hQ hnone⟩

theorem iunlock_wp (hx : l.locks x = some false) (hQ : Q () (l.unlock x, ())) :
    Wp (Inv lease p) promise.onFst p (via x Fs.iunlock).onFst Q (l, ()) := by
  have hlock : ∀ g : ι → Hold (Fin ninode) × Unit, g p = (l, ()) → (g p).1.locks x ≠ none := by
    intro g hg
    rw [hg, hx]
    simp
  have hno : ∀ g c u n, Inv lease p g (c, u) → g p = (l, ()) →
      ¬ ((!((c.view x).icache n).busy) = true ∨ ((c.view x).icache n).ref < 1) := by
    intro g c u n hI hg
    have hbusy : c.busy x = true := (hI.refs.busy x).mpr ⟨p, hlock g hg⟩
    have hpos := hI.refs.pos (hlock g hg)
    rintro (h | h)
    · rw [show ((c.view x).icache n).busy = c.busy x from rfl, hbusy] at h
      cases h
    · exact absurd hpos (Nat.not_le.mpr h)
  refine via_wp fun n => entry_wp (fun g c u e hI hg he => ?_) fun g c u b s' hI hg hf => ?_
  · simp only [if_neg (hno g c u n hI hg)] at he
    cases he
  · simp only [if_neg (hno g c u n hI hg)] at hf
    cases hf
    have hR := hI.refs.unlock (hlock g hg) rfl
    rw [hg] at hR
    exact ⟨_, _, _, _, rfl, fun h => h, update_eq_self .., rfl, hR, hQ⟩

theorem iputEnd_wp (hlock : l.locks x = none)
    (hx : 1 ≤ l.refs x) (hQ : Q () (l.drop x, ())) : Wp (Inv lease p) promise.onFst p
      ((modify fun s : Fs.State => s.setEntry n
        { s.icache n with busy := false, valid := false, ref := (s.icache n).ref - 1 }).on
          (Cache.view · x) (Cache.setView · x n)).onFst Q (l.lock x true, ()) := by
  refine entry_wp (fun g c u e _ _ he => by cases he) fun g c u b s' hI hg hf => ?_
  cases hf
  have hbusy : (g p).1.locks x ≠ none := by
    rw [hg]
    simp
  have hR := (hI.refs.unlock hbusy rfl).drop (p := p) (x := x) ?_ ?_ rfl
  · simp only [update_self, update_idem, hg, Hold.unlock_lock hlock] at hR
    exact ⟨_, _, _, _, rfl, fun h => Nat.lt_of_lt_of_le h (Nat.sub_le _ _), rfl, rfl, hR, hQ⟩
  · rw [update_self, hg]
    exact hx
  · rw [update_self]
    intro h
    simp at h

theorem iput_wp (hx : 1 ≤ l.refs x)
    (htwo : l.locks x ≠ none → 2 ≤ l.refs x) (hQ : Q () (l.drop x, ())) :
    Wp (Inv lease p) promise.onFst p (via x Fs.iput).onFst Q (l, ()) := by
  refine via_wp fun n => ?_
  -- nobody has locked the entry if this is its only reference
  have hfree : ∀ g c u, Inv lease p g (c, u) → g p = (l, ()) → c.ref x = 1 → c.busy x = false := by
    intro g c u hI hg hone
    by_contra hbusy
    obtain ⟨q, hq⟩ := (hI.refs.busy x).mp (by simpa using hbusy)
    by_cases hqp : q = p
    · subst hqp
      have hle := hI.refs.le_ref q x
      rw [hg] at hq hle
      have hl := htwo hq
      simp only at hle
      omega
    · have htwo := hI.refs.two_le (p := p) (x := x) (by rw [hg]; exact hx) hqp hq
      omega
  rw [Fs.iput, bind_eq, on_bind, onFst_bind]
  refine Wp.bind (entry_wp (fun g c u e hI hg he => ?_) fun g c u b s' hI hg hf => ?_)
  · simp only at he
    split_ifs at he with hlast hbusy
    · have hno := hfree g c u hI hg hlast.1
      rw [show ((c.view x).icache n).busy = c.busy x from rfl, hno] at hbusy
      cases hbusy
    · cases he
    · cases he
  · simp only at hf
    split_ifs at hf with hlast hbusy
    · cases hf
    · -- the last reference to an inode without links: it is locked until it has been freed
      cases hf
      have hno := hfree g c u hI hg hlast.1
      have hnone : l.locks x = none := by
        have hlock := hI.refs.not_busy hno p
        rwa [hg] at hlock
      have hR := hI.refs.lock (p := p) (d := true) hno (.inl (by rw [hg]; exact hx)) rfl
      rw [hg] at hR
      refine ⟨_, _, _, _, rfl, fun h => h, update_eq_self .., rfl, hR, ?_⟩
      simp only [if_true, bind_eq, on_bind, onFst_bind]
      refine Wp.bind (quiet_wp (Counted.itrunc n) fun _ => Wp.bind (quiet_wp ?_ fun _ =>
        Wp.bind (quiet_wp (Counted.iupdate n) fun _ => iputEnd_wp hnone hx hQ)))
      exact .modify fun s => Counted.setCopy s n _
    · cases hf
      have hR := hI.refs.drop (p := p) (x := x) (by rw [hg]; exact hx) (by rw [hg]; exact htwo) rfl
      rw [hg] at hR
      exact ⟨_, _, _, _, rfl, fun h => Nat.lt_of_lt_of_le h (Nat.sub_le _ _), rfl,
        update_eq_self .., hR, hQ⟩

theorem Inv.fill {inum : ℕ} {e : Entry} (hI : Inv lease p g (c, u)) (hg : g p = (l, ()))
    (hfree : c.ref x = 0) (hnone : ∀ y, 0 < c.ref y → c.inum y ≠ inum) (href : e.ref = 1)
    (hbusy : e.busy = false) : Inv lease p (update g p (l.take x, ()))
      ({ c with slot := update c.slot x ⟨inum, e⟩ }, u) := by
  have hidle : c.busy x = false := by
    by_contra hset
    obtain ⟨q, hq⟩ := (hI.refs.busy x).mp (by simpa using hset)
    have hpos := hI.refs.pos hq
    omega
  have hR := hI.refs.take (p := p) (x := x) rfl
  rw [hg, hfree] at hR
  refine hI.set ?_ (hI.1.2.fill hnone)
  convert hR using 1
  · funext y
    by_cases hyx : y = x
    · subst hyx
      simp [Cache.ref, href]
    · simp [Cache.ref, hyx]
  · funext y
    by_cases hyx : y = x
    · subst hyx
      simp only [Cache.busy, update_self, hbusy]
      exact hidle.symm
    · simp [Cache.busy, hyx]

theorem iget_wp {Q : Fin ninode → Hold (Fin ninode) × Unit → Prop} {inum : ℕ}
    (hQ : ∀ x, Q x (l.take x, ())) :
    Wp (Inv lease p) promise.onFst p (iget inum).onFst Q (l, ()) := by
  refine Wp.fstStep (fun g c u e hI hg he => ?_) fun g c u x c' hI hg hf _ => ?_
  · dsimp only at he
    split at he
    · cases he
    · split at he
      · cases he
        exact .inl (by decide)
      · cases he
  · dsimp only at hf
    split at hf
    case h_1 x₀ hfound =>
      cases hf
      have hx := List.find?_some hfound
      simp only [decide_eq_true_eq] at hx
      have hR := hI.refs.take (p := p) (x := x) rfl
      rw [hg] at hR
      refine ⟨fun y _ => congrFun Cache.setEntry_inum y, _, hI.setEntry (fun _ => hx.1) ?_, hQ x⟩
      convert hR using 1
      exact update_eq_self ..
    case h_2 hmiss =>
      split at hf
      case h_1 => cases hf
      case h_2 x₀ hfound =>
        cases hf
        have hx := List.find?_some hfound
        simp only [decide_eq_true_eq] at hx
        refine ⟨fun y hy => ?_, _, hI.fill hg hx (fun y hy hinum => ?_) rfl rfl, hQ x⟩
        · have hyx : y ≠ x := by
            rintro rfl
            omega
          simp [Cache.inum, hyx]
        · have hno := List.find?_eq_none.mp hmiss y (List.mem_finRange y)
          simp only [decide_eq_true_eq, not_and] at hno
          exact hno hy hinum

theorem iallocLoop_wp {Q : Fin ninode → Hold (Fin ninode) × Unit → Prop} {type : Kind}
    (hQ : ∀ x, Q x (l.take x, ())) (is : List ℕ) :
    Wp (Inv lease p) promise.onFst p (iallocLoop type is).onFst Q (l, ()) := by
  induction is with
  | nil =>
    refine Wp.fstStep (fun g c u e hI hg he => ?_) fun g c u x c' hI hg hf _ => by cases hf
    cases he
    exact .inl (by decide)
  | cons i is ih =>
    rw [iallocLoop, bind_eq, onFst_bind]
    refine Wp.bind (Wp.fstStep (fun g c u e hI hg he => ?_) fun g c u found c' hI hg hf _ => ?_)
    · split_ifs at he <;> cases he
    · split_ifs at hf
      · cases hf
        refine ⟨fun y _ => rfl, (l, ()), ?_, iget_wp hQ⟩
        rw [← hg, update_eq_self]
        exact hI.same rfl rfl rfl
      · cases hf
        refine ⟨Cache.Stays.refl c, (l, ()), ?_, ih⟩
        rwa [← hg, update_eq_self]

theorem setCopy_wp {f : Dinode → Dinode} (hx : l.locks x ≠ none) (hQ : Q () (l.lock x true, ())) :
    Wp (Inv lease p) promise.onFst p (setCopy x f).onFst Q (l, ()) := by
  refine Wp.fstStep (fun g c u e _ _ he => by cases he) fun g c u b c' hI hg hf _ => ?_
  cases hf
  have hR := hI.refs.relock (p := p) (x := x) (d := true) (by rwa [hg])
  rw [hg] at hR
  refine ⟨fun y _ => congrFun Cache.setEntry_inum y, _, hI.setEntry (fun h => h) ?_, hQ⟩
  convert hR using 1
  · exact update_eq_self ..
  · exact update_eq_self ..

theorem iupdate_wp (hx : l.locks x ≠ none) (hQ : Q () (l.lock x false, ())) :
    Wp (Inv lease p) promise.onFst p (via x Fs.iupdate).onFst Q (l, ()) := by
  refine via_wp fun n => Wp.onStep (fun g c u e _ _ he => by cases he) fun g c u b s' hI hg hf => ?_
  cases hf
  have hR := hI.refs.relock (p := p) (x := x) (d := false) (by rwa [hg])
  rw [hg] at hR
  have hcounted : Counted (c.view x) ((c.view x).setDinode n ((c.view x).copy n)) := fun _ =>
    ⟨rfl, rfl⟩
  have hsame := counted_view (n := n) hcounted
  refine ⟨fun y _ => congrFun hsame.2.2 y, _, hI.set ?_ ?_, hQ⟩
  · rwa [hsame.1, hsame.2.1]
  · exact hI.1.2.of_le (fun y hy => hsame.1 ▸ hy) hsame.2.2

theorem read_wp {β : Type} {Q : β → Hold (Fin ninode) × Unit → Prop} {f : Cache → β}
    (hQ : ∀ b, Q b (l, ())) :
    Wp (Inv lease p) promise.onFst p (read f : Prog Cache Panic β).onFst Q (l, ()) := by
  refine Wp.keeps (.read fun c => (rfl : c = c)) (fun g c c' u hI hg hc => ?_) hQ
  cases hc
  exact ⟨Cache.Stays.refl c, hI⟩

/-- **The operations on the table follow the rules.** -/
theorem code_wp (sb : Super) (devread devwrite : ℤ → Bool) (lease : Fin ninode → Prop) (p : ι)
    (o : InodeOp (Fin ninode)) (Q : o.Ret → Hold (Fin ninode) → Prop) (l : Hold (Fin ninode))
    (h : inodeRules lease o Q l) :
    Wp (Inv lease p) promise.onFst p (code sb devread devwrite o).onFst
      (fun r y => y.2 = () ∧ Q r y.1) (l, ()) := by
  cases o with
  | iget inum => exact iget_wp fun x => ⟨rfl, h x⟩
  | idup x => exact idup_wp h.1 ⟨rfl, h.2⟩
  | ilock x => exact ilock_wp h.1 fun hx => ⟨rfl, h.2 hx⟩
  | iunlock x => exact iunlock_wp h.1 ⟨rfl, h.2⟩
  | iput x => exact iput_wp h.1 h.2.1 ⟨rfl, h.2.2⟩
  | ialloc type => exact iallocLoop_wp (fun x => ⟨rfl, h.2 x⟩) _
  | iupdate x => exact iupdate_wp h.1 ⟨rfl, h.2⟩
  | inum x => exact read_wp fun n => ⟨rfl, h n⟩
  | type x => exact read_wp fun k => ⟨rfl, h k⟩
  | nlink x => exact read_wp fun n => ⟨rfl, h n⟩
  | size x => exact read_wp fun n => ⟨rfl, h n⟩
  | setNlink x n =>
    exact setCopy_wp (f := fun d => { d with nlink := n }) (Q := fun r y => y.2 = () ∧ Q r y.1)
      h.1 ⟨rfl, h.2⟩
  | setDev x major minor =>
    exact setCopy_wp (f := fun d => { d with major := major, minor := minor })
      (Q := fun r y => y.2 = () ∧ Q r y.1) h.1 ⟨rfl, h.2⟩
  | readi x off n =>
    exact via_wp fun i => quiet_wp (Counted.readi sb _ i off n) fun r => ⟨rfl, h.2 r⟩
  | writei x src off =>
    exact via_wp fun i => quiet_wp (Counted.writei sb _ i src off _) fun r => ⟨rfl, h.2 r⟩
  | panic e =>
    refine Wp.fstStep (fun g c u e' _ _ he => ?_) fun g c u b c' _ _ hf _ => by cases hf
    cases he
    exact .inl h

/-- The inode table, for processes that follow the rules. -/
def implementation (sb : Super) (devread devwrite : ℤ → Bool) :
    Implementation ι (Fin ninode) Cache Unit where
  code := code sb devread devwrite
  ref := Cache.ref
  busy := Cache.busy
  Extra := fun _ c => c.Distinct
  idle := ()
  ok := Loose
  tolerated := fun _ he => .inl he
  guar := Cache.Stays
  guar_refl := Cache.Stays.refl
  rules := code_wp sb devread devwrite

end Rules

end Icache

end Xv6.Sysfile
