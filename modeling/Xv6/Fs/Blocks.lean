import Xv6.Fs.Inode
import Xv6.Library.Ledger

/-!
# The blocks of an inode

A block is referenced from three kinds of places: a direct address, the address of the indirect
block and the entries of the indirect block. `State.own` is the address at each place of each
allocated inode, and the bitmap is right if it marks these blocks and the metadata and no block is
at two places.

The inode that counts is the one in memory if it is valid there, and the one on the disk otherwise.

## Main results

* `Gets.maps` — a block allocated for a place changes no contents
* `bmap_eval` — `bmap` finds the block at its place, or puts a fresh one there
-/

namespace Xv6.Fs

open ByteMemory Function State

/-- Where an inode refers to a block. -/
inductive Place
  | direct (k : Fin ndirect)
  | indirect
  | entry (j : Fin nindirect)
  deriving DecidableEq

/-- The place of the `bn`-th block of a file. -/
def Place.ofBlock (bn : ℕ) : Place :=
  if h : bn < ndirect then .direct ⟨bn, h⟩
  else .entry ⟨(bn - ndirect) % nindirect, Nat.mod_lt _ (by decide)⟩

theorem Place.ofBlock_ne_indirect (bn : ℕ) : Place.ofBlock bn ≠ .indirect := by
  rw [Place.ofBlock]
  split_ifs <;> exact fun h => by cases h

theorem Place.ofBlock_inj {bn bn' : ℕ} (h : bn < maxfile) (h' : bn' < maxfile)
    (heq : Place.ofBlock bn = Place.ofBlock bn') : bn = bn' := by
  simp only [Place.ofBlock] at heq
  split_ifs at heq with h1 h2 h2
  · simpa using heq
  · simp only [Place.entry.injEq, Fin.mk.injEq] at heq
    rw [Nat.mod_eq_of_lt (by simp only [ndirect, nindirect, maxfile] at *; omega),
      Nat.mod_eq_of_lt (by simp only [ndirect, nindirect, maxfile] at *; omega)] at heq
    omega

theorem Place.ofBlock_entry {bn : ℕ} (hdir : ¬bn < ndirect) (he : bn - ndirect < nindirect) :
    Place.ofBlock bn = .entry ⟨bn - ndirect, he⟩ := by
  rw [Place.ofBlock, dif_neg hdir]
  exact congrArg Place.entry (Fin.ext (Nat.mod_eq_of_lt he))

/-- The address at a place. -/
def addrOf (data : ℕ → Block) (d : Dinode) : Place → ℕ
  | .direct k => d.addrs k
  | .indirect => d.addrs ndirect
  | .entry j => if d.addrs ndirect = 0 then 0 else load32 (data (d.addrs ndirect)) (4 * j)

/-- The blocks before the data blocks: boot block, superblock, log, inodes and bitmap. -/
def Super.nmeta (sb : Super) : ℕ := sb.bmapstart + sb.size / bpb + 1

namespace State

variable (s : State)

/-- The inode that counts. -/
def node (i : ℕ) : Dinode := if (s.icache i).valid then s.copy i else s.dinode i

/-- The address at a place of an allocated inode. -/
def own (k : ℕ × Place) : ℕ :=
  if (s.node k.1).type = .free then 0 else addrOf s.data (s.node k.1) k.2

end State

/-- The bitmap marks the metadata and the blocks that are referenced, and no block is referenced
twice. -/
abbrev Owned (sb : Super) (s : State) : Prop := Ledger sb.size (· < sb.nmeta) s.bitmap s.own

variable {sb : Super} {s s' t : State} {i : ℕ}

theorem node_of_valid (hv : (s.icache i).valid = true) : s.node i = s.copy i := if_pos hv

theorem own_of_type (ht : (s.node i).type ≠ .free) (pl : Place) :
    s.own (i, pl) = addrOf s.data (s.node i) pl := if_neg ht

theorem own_indirect (ht : (s.node i).type ≠ .free) :
    s.own (i, .indirect) = (s.node i).addrs ndirect := own_of_type ht _

theorem own_indirect_of_entry {e : Fin nindirect} (h : s.own (i, .entry e) ≠ 0) :
    s.own (i, .indirect) ≠ 0 := by
  simp only [own, addrOf] at h ⊢
  split_ifs at h ⊢ with ht h0
  · exact absurd rfl h
  · exact absurd rfl h
  · exact h0

theorem own_congr {k : ℕ × Place} (htype : (t.node k.1).type = (s.node k.1).type)
    (haddrs : (t.node k.1).addrs = (s.node k.1).addrs) (hdata : s.own (k.1, .indirect) ≠ 0 →
      t.data (s.own (k.1, .indirect)) = s.data (s.own (k.1, .indirect))) : t.own k = s.own k := by
  obtain ⟨i, pl⟩ := k
  simp only [own, htype] at hdata ⊢
  split_ifs with ht
  · rfl
  · simp only [ht, if_false, addrOf] at hdata
    cases pl with
    | direct k => simp only [addrOf, haddrs]
    | indirect => simp only [addrOf, haddrs]
    | entry j =>
      simp only [addrOf, haddrs]
      split_ifs with h0
      · rfl
      · rw [hdata h0]

theorem node_setEntry {e : Entry} (he : (if e.valid then e.copy else s.dinode i) = s.node i) :
    (s.setEntry i e).node = s.node := by
  funext j
  by_cases hj : j = i
  · subst hj
    rw [← he]
    simp [node, setEntry, copy]
  · simp [node, setEntry, copy, hj]

theorem own_setEntry {e : Entry} (he : (if e.valid then e.copy else s.dinode i) = s.node i) :
    (s.setEntry i e).own = s.own := by
  have hnode := node_setEntry he
  exact funext fun k => own_congr (by rw [hnode]) (by rw [hnode]) fun _ => rfl

theorem own_setData_of_type (ht : (s.node i).type ≠ .free) (b : ℕ) (d : Block) (pl : Place) :
    (s.setData b d).own (i, pl) = addrOf (update s.data b d) (s.node i) pl := if_neg ht

variable {b : ℕ}

theorem own_setData {d : Block} (h : ∀ j, s.own (j, .indirect) ≠ b) : (s.setData b d).own = s.own :=
  funext fun k => own_congr rfl rfl fun _ => update_of_ne (h k.1) _ _

theorem node_setAddr (hv : (s.icache i).valid = true) (k b : ℕ) : (s.setAddr i k b).node i =
      { s.node i with addrs := update (s.node i).addrs k b } := by
  rw [node_of_valid hv, node_of_valid (by simpa [setAddr, setCopy, setEntry])]
  simp [setAddr, setCopy, setEntry, copy]

theorem node_setAddr_of_ne {j : ℕ} (hj : j ≠ i) (k b : ℕ) :
    (s.setAddr i k b).node j = s.node j := by
  simp [node, setAddr, setCopy, setEntry, copy, hj]

theorem own_setAddr_of_ne {k : ℕ × Place} (hk : k.1 ≠ i) (n b : ℕ) :
    (s.setAddr i n b).own k = s.own k :=
  have hnode := node_setAddr_of_ne (s := s) hk n b
  own_congr (by rw [hnode]) (by rw [hnode]) fun _ => rfl

theorem own_setAddr_direct (hv : (s.icache i).valid = true) (ht : (s.node i).type ≠ .free)
    (k : Fin ndirect) (b : ℕ) : (s.setAddr i k b).own = update s.own (i, .direct k) b := by
  funext ⟨j, pl⟩
  by_cases hj : j = i
  · subst hj
    rw [own_of_type (by rw [node_setAddr hv]; exact ht), node_setAddr hv]
    cases pl with
    | direct k' =>
      by_cases hk : k' = k
      · simp [addrOf, hk]
      · rw [update_of_ne (by simpa using hk), own_of_type ht]
        simp [addrOf, Fin.val_inj, hk]
    | indirect =>
      rw [update_of_ne (by simp), own_of_type ht]
      simp only [addrOf]
      rw [update_of_ne (by omega)]
    | entry e =>
      rw [update_of_ne (by simp), own_of_type ht]
      simp only [addrOf]
      rw [update_of_ne (by omega)]
      rfl
  · rw [own_setAddr_of_ne hj, update_of_ne (by simp [hj])]

theorem own_setAddr_indirect (hv : (s.icache i).valid = true) (ht : (s.node i).type ≠ .free)
    (hempty : s.own (i, .indirect) = 0) (hzero : s.data b = fun _ => 0) :
    (s.setAddr i ndirect b).own = update s.own (i, .indirect) b := by
  funext ⟨j, pl⟩
  by_cases hj : j = i
  · subst hj
    rw [own_indirect ht] at hempty
    rw [own_of_type (by rw [node_setAddr hv]; exact ht), node_setAddr hv]
    cases pl with
    | direct k' =>
      rw [update_of_ne (by simp), own_of_type ht]
      simp only [addrOf]
      rw [update_of_ne (by omega)]
    | indirect => simp [addrOf]
    | entry e =>
      rw [update_of_ne (by simp), own_of_type ht]
      simp only [addrOf, update_self, if_pos hempty]
      have hload : load32 ((s.setAddr j ndirect b).data b) (4 * e) = 0 := by
        change load32 (s.data b) _ = 0
        rw [hzero]
        rfl
      rw [hload, ite_self]
  · rw [own_setAddr_of_ne hj, update_of_ne (by simp [hj])]

theorem own_setData_entry (ht : (s.node i).type ≠ .free) (hind : s.own (i, .indirect) ≠ 0)
    (hinj : ∀ j, s.own (j, .indirect) = s.own (i, .indirect) → j = i) (hb : b < 2 ^ 32)
    (e : Fin nindirect) : (s.setData (s.own (i, .indirect))
      (store32 (s.data (s.own (i, .indirect))) (4 * e) b)).own = update s.own (i, .entry e) b := by
  funext ⟨j, pl⟩
  by_cases hj : j = i
  · subst hj
    rw [own_indirect ht] at hind ⊢
    rw [own_setData_of_type ht]
    cases pl with
    | direct k' => rw [update_of_ne (by simp), own_of_type ht, addrOf, addrOf]
    | indirect => rw [update_of_ne (by simp), own_of_type ht, addrOf, addrOf]
    | entry e' =>
      simp only [addrOf, if_neg hind, update_self]
      by_cases he : e' = e
      · subst he
        rw [update_self, load32_store32_self hb]
      · have hne : (e : ℕ) ≠ e' := fun h => he (Fin.ext h.symm)
        rw [update_of_ne (by simpa using he), own_of_type ht,
          load32_store32_of_ne (by omega) (by omega) (by omega), addrOf, if_neg hind]
  · rw [update_of_ne (by simp [hj])]
    refine own_congr rfl rfl fun _ => update_of_ne ?_ _ _
    exact fun h => hj (hinj j h)

/-! ### Allocating a block for a place -/

/-- The state in which `balloc` returns block `b`. -/
def State.taken (s : State) (b : ℕ) : State := (s.setBit b true).setData b fun _ => 0

theorem firstFree_some {b n c : ℕ} (h : firstFree sb s b n = some c) :
    c < sb.size ∧ s.bitmap c = false := by
  have hc := List.find?_some h
  simpa using hc

theorem markFree_cases (sb : Super) (b n : ℕ) (s : State) : markFree sb b n s = (none, s) ∨
      ∃ c, c < sb.size ∧ s.bitmap c = false ∧ markFree sb b n s = (some c, s.setBit c true) := by
  rw [markFree]
  cases hfind : firstFree sb s b n with
  | none => exact .inl rfl
  | some c => exact .inr ⟨c, (firstFree_some hfind).1, (firstFree_some hfind).2, rfl⟩

/-- `balloc` returns a free block, which it has marked and zeroed, or there is none. -/
theorem balloc_eval (sb : Super) (s : State) : (balloc sb).eval s = some (.error .outOfBlocks) ∨
      ∃ b, b < sb.size ∧ s.bitmap b = false ∧ (balloc sb).eval s = some (.ok (b, s.taken b)) := by
  rw [balloc]
  generalize (List.range ((sb.size + bpb - 1) / bpb)).map (· * bpb) = bs
  induction bs with
  | nil => exact .inl rfl
  | cons b bs ih =>
    simp only [ballocLoop, Prog.bind_eq, Prog.eval_bind, Prog.eval_step]
    rcases markFree_cases sb b bpb s with h | ⟨n, hn, hfree, h⟩
    · simp only [h]
      exact ih
    · simp only [h]
      exact .inr ⟨n, hn, hfree, rfl⟩

/-- Nothing has changed but the blocks and the addresses in inode `i` in memory. -/
structure Frame (i : ℕ) (s s' : State) : Prop where
  dinode : s'.dinode = s.dinode
  icache : ∃ addrs, s'.icache =
    update s.icache i { s.icache i with copy := { s.copy i with addrs := addrs } }

theorem Frame.of_eq (hd : s'.dinode = s.dinode) (hi : s'.icache = s.icache) : Frame i s s' :=
  ⟨hd, (s.copy i).addrs, hi.trans (update_eq_self i s.icache).symm⟩

theorem Frame.trans (h : Frame i s t) (h' : Frame i t s') : Frame i s s' := by
  obtain ⟨addrs, ht⟩ := h.icache
  obtain ⟨addrs', hs'⟩ := h'.icache
  refine ⟨h'.dinode.trans h.dinode, addrs', ?_⟩
  rw [hs', copy, ht, update_self, update_idem]

theorem Frame.valid (h : Frame i s s') : (s'.icache i).valid = (s.icache i).valid := by
  obtain ⟨addrs, hi⟩ := h.icache
  rw [hi, update_self]

theorem Frame.node (h : Frame i s s') (j : ℕ) :
    ∃ addrs, s'.node j = { s.node j with addrs := addrs } := by
  obtain ⟨addrs, hi⟩ := h.icache
  by_cases hj : j = i
  · subst hj
    simp only [node, copy, hi, update_self, h.dinode]
    split_ifs
    · exact ⟨addrs, rfl⟩
    · exact ⟨_, rfl⟩
  · simp only [State.node, State.copy, hi, update_of_ne hj, h.dinode]
    exact ⟨_, rfl⟩

theorem Frame.type (h : Frame i s s') (j : ℕ) : (s'.node j).type = (s.node j).type := by
  obtain ⟨addrs, hj⟩ := h.node j
  rw [hj]

theorem Frame.size (h : Frame i s s') (j : ℕ) : (s'.node j).size = (s.node j).size := by
  obtain ⟨addrs, hj⟩ := h.node j
  rw [hj]

/-- A fresh block `b` has been put at a place of inode `i` that had none. -/
structure Gets (sb : Super) (i : ℕ) (pl : Place) (b : ℕ) (s s' : State) : Prop where
  lt : b < sb.size
  unmarked : s.bitmap b = false
  empty : s.own (i, pl) = 0
  own : s'.own = update s.own (i, pl) b
  bitmap : s'.bitmap = update s.bitmap b true
  zero : s'.data b = fun _ => 0
  data : ∀ c, c ≠ b → c ≠ s.own (i, .indirect) → s'.data c = s.data c
  frame : Frame i s s'

section Allocate

variable {b : ℕ} (h : Owned sb s) (hv : (s.icache i).valid = true)
  (ht : (s.node i).type ≠ .free) (hb : b < sb.size) (hfree : s.bitmap b = false)

include h hb hfree in
theorem own_taken : (s.taken b).own = s.own :=
  own_setData (s := s.setBit b true) fun j => h.ne_of_unmarked hb hfree (j, .indirect)

theorem data_taken_self : (s.taken b).data b = fun _ => 0 := update_self ..

theorem frame_setAddr (k : ℕ) : Frame i s ((s.taken b).setAddr i k b) :=
  ⟨rfl, update (s.copy i).addrs k b, rfl⟩

include h hv ht hb hfree

theorem gets_direct {k : Fin ndirect} (hk : s.own (i, .direct k) = 0) :
    Gets sb i (.direct k) b s ((s.taken b).setAddr i k b) where
  lt := hb
  unmarked := hfree
  empty := hk
  own := by rw [own_setAddr_direct (s := s.taken b) hv ht, own_taken h hb hfree]
  bitmap := rfl
  zero := data_taken_self
  data := fun c hc _ => update_of_ne hc ..
  frame := frame_setAddr k

theorem gets_indirect (hk : s.own (i, .indirect) = 0) :
    Gets sb i .indirect b s ((s.taken b).setAddr i ndirect b) where
  lt := hb
  unmarked := hfree
  empty := hk
  own := by
    rw [own_setAddr_indirect (s := s.taken b) hv ht (own_taken h hb hfree ▸ hk) data_taken_self,
      own_taken h hb hfree]
  bitmap := rfl
  zero := data_taken_self
  data := fun c hc _ => update_of_ne hc ..
  frame := frame_setAddr ndirect

omit hv in
theorem gets_entry {e : Fin nindirect} (hind : s.own (i, .indirect) ≠ 0)
    (hk : s.own (i, .entry e) = 0) :
    Gets sb i (.entry e) b s ((s.taken b).setData (s.own (i, .indirect))
      (store32 ((s.taken b).data (s.own (i, .indirect))) (4 * e) b)) where
  lt := hb
  unmarked := hfree
  empty := hk
  own := by
    have hown := own_taken h hb hfree
    have hset := own_setData_entry (s := s.taken b) (i := i) ht (hown ▸ hind) (fun j hj => by
        rw [hown] at hj
        exact congrArg Prod.fst (h.inj _ _ (hj ▸ hind) hj))
      (hb.trans sb.size_lt) e
    rwa [hown] at hset
  bitmap := rfl
  zero := by
    have hne : b ≠ s.own (i, .indirect) := (h.ne_of_unmarked hb hfree _).symm
    exact (update_of_ne hne ..).trans data_taken_self
  data := fun c hc hc' => (update_of_ne hc' ..).trans (update_of_ne hc ..)
  frame := .of_eq rfl rfl

end Allocate

/-! ### The blocks of a file -/

/-- The contents of a block of a file. A block that is not there counts as zero. -/
def State.block (s : State) (i bn : ℕ) : Block :=
  if s.own (i, .ofBlock bn) = 0 then fun _ => 0 else s.data (s.own (i, .ofBlock bn))

theorem block_of_ne_zero {bn : ℕ} (h : s.own (i, .ofBlock bn) ≠ 0) :
    s.block i bn = s.data (s.own (i, .ofBlock bn)) := if_neg h

/-- What can happen to blocks when `bmap` allocates. -/
structure Maps (sb : Super) (i : ℕ) (s s' : State) : Prop where
  owned : Owned sb s'
  grows : ∀ k, s.own k ≠ 0 → s'.own k = s.own k
  block : ∀ j bn, s'.block j bn = s.block j bn
  frame : Frame i s s'

theorem Maps.refl (h : Owned sb s) : Maps sb i s s :=
  ⟨h, fun _ _ => rfl, fun _ _ => rfl, .of_eq rfl rfl⟩

theorem Maps.trans (h : Maps sb i s t) (h' : Maps sb i t s') : Maps sb i s s' := by
  refine ⟨h'.owned, fun k hk => ?_, fun j bn => (h'.block j bn).trans (h.block j bn),
    h.frame.trans h'.frame⟩
  have hk' := h.grows k hk
  rw [h'.grows k (hk'.symm ▸ hk), hk']

/-- **A fresh block changes no contents**: it is zero, as the missing block was. -/
theorem Gets.maps {pl : Place} (hg : Gets sb i pl b s s') (h : Owned sb s) : Maps sb i s s' := by
  have hother : ∀ k, k ≠ (i, pl) → s'.own k = s.own k := fun k hk => by
    rw [hg.own, update_of_ne hk]
  refine ⟨?_, fun k hk => hother k ?_, fun j bn => ?_, hg.frame⟩
  · rw [Owned, hg.own, hg.bitmap]
    exact h.take hg.empty hg.lt hg.unmarked
  · rintro rfl
    exact hk hg.empty
  · by_cases hk : (j, Place.ofBlock bn) = (i, pl)
    · have hb : s'.own (j, .ofBlock bn) = b := by rw [hk, hg.own, update_self]
      rw [block, block, hb, hg.zero, ite_self, hk, if_pos hg.empty]
    · rw [block, block, hother _ hk]
      split_ifs with h0
      · rfl
      · refine hg.data _ (h.ne_of_unmarked hg.lt hg.unmarked _) fun heq => ?_
        exact Place.ofBlock_ne_indirect bn (congrArg Prod.snd (h.inj _ _ h0 heq))

/-- What `bmap` returns: the block that is now at the place. If there was one, nothing changes. -/
def Mapped (sb : Super) (i : ℕ) (pl : Place) (s : State)
    (r : Option (Except Panic (ℕ × State))) : Prop :=
  s.own (i, pl) = 0 ∧ r = some (.error .outOfBlocks) ∨
    ∃ b s', r = some (.ok (b, s')) ∧ b ≠ 0 ∧ s'.own (i, pl) = b ∧ Maps sb i s s' ∧
      (s.own (i, pl) ≠ 0 → s' = s)

section Bmap

variable (h : Owned sb s) (hv : (s.icache i).valid = true) (ht : (s.node i).type ≠ .free)

theorem Gets.mapped {pl : Place} (hg : Gets sb i pl b s s') (h : Owned sb s) :
    Mapped sb i pl s (some (.ok (b, s'))) := by
  refine .inr ⟨b, s', rfl, h.unmarked_ne_zero hg.lt hg.unmarked, ?_, hg.maps h, ?_⟩
  · rw [hg.own, update_self]
  · exact fun hne => absurd hg.empty hne

include h

/-- `addrs[k]` is the address at the place, or is set to a fresh block. -/
theorem bmapAddr_eval {pl : Place} {k : ℕ} (haddr : (s.copy i).addrs k = s.own (i, pl))
    (hgets : s.own (i, pl) = 0 → ∀ b < sb.size, s.bitmap b = false →
      Gets sb i pl b s ((s.taken b).setAddr i k b)) :
    Mapped sb i pl s ((bmapAddr sb i k).eval s) := by
  simp only [bmapAddr, Prog.bind_eq, Prog.eval_bind, Prog.eval_read, haddr]
  split_ifs with h0
  · simp only [Prog.eval_bind]
    rcases balloc_eval sb s with hout | ⟨b, hb, hfree, hok⟩
    · exact .inl ⟨h0, by rw [hout]⟩
    · rw [hok]
      exact (hgets h0 b hb hfree).mapped h
  · exact .inr ⟨_, s, rfl, h0, rfl, .refl h, fun _ => rfl⟩

include hv ht

theorem bmapAddr_direct (k : Fin ndirect) :
    Mapped sb i (.direct k) s ((bmapAddr sb i k).eval s) := by
  refine bmapAddr_eval h ?_ fun h0 b hb hfree => gets_direct h hv ht hb hfree h0
  rw [own_of_type ht, node_of_valid hv, addrOf]

theorem bmapAddr_indirect : Mapped sb i .indirect s ((bmapAddr sb i ndirect).eval s) := by
  refine bmapAddr_eval h ?_ fun h0 b hb hfree => gets_indirect h hv ht hb hfree h0
  rw [own_indirect ht, node_of_valid hv]

/-- **`bmap` finds the block at its place, or puts a fresh one there.** -/
theorem bmap_eval {bn : ℕ} (hbn : bn < maxfile) :
    Mapped sb i (.ofBlock bn) s ((bmap sb i bn).eval s) := by
  by_cases hdir : bn < ndirect
  · rw [bmap, if_pos hdir, Place.ofBlock, dif_pos hdir]
    exact bmapAddr_direct h hv ht ⟨bn, hdir⟩
  have he : bn - ndirect < nindirect := by
    simp only [maxfile, nindirect, ndirect] at *
    omega
  rw [bmap, if_neg hdir, if_pos he, Place.ofBlock_entry hdir he]
  simp only [Prog.bind_eq, Prog.eval_bind]
  rcases bmapAddr_indirect h hv ht with ⟨h0, hout⟩ | ⟨ind, t, hok, hind, hown, hmaps, hsame⟩
  · refine .inl ⟨?_, by rw [hout]⟩
    by_contra hne
    exact own_indirect_of_entry hne h0
  rw [hok]
  have hv' : (t.icache i).valid = true := hmaps.frame.valid.trans hv
  have ht' : (t.node i).type ≠ .free := hmaps.frame.type i ▸ ht
  have haddr : load32 (t.data ind) (4 * (bn - ndirect)) = t.own (i, .entry ⟨bn - ndirect, he⟩) := by
    rw [own_of_type ht', addrOf, ← own_indirect ht', hown, if_neg hind]
  have hfound : s.own (i, .entry ⟨bn - ndirect, he⟩) ≠ 0 → t = s := fun h0 =>
    hsame (own_indirect_of_entry h0)
  simp only [Prog.eval_read, haddr]
  split_ifs with h0
  · simp only [Prog.eval_bind]
    rcases balloc_eval sb t with hout | ⟨b, hb, hfree, hok'⟩
    · refine .inl ⟨?_, by rw [hout]⟩
      by_contra hne
      exact hne (hfound hne ▸ h0)
    · rw [hok']
      subst hown
      refine .inr ⟨b, _, rfl, ?_⟩
      have hg := gets_entry hmaps.owned ht' hb hfree hind h0
      refine ⟨hmaps.owned.unmarked_ne_zero hb hfree, ?_, hmaps.trans (hg.maps hmaps.owned), ?_⟩
      · exact (congrFun hg.own _).trans (update_self ..)
      · intro hne
        rw [hfound hne] at h0
        exact absurd h0 hne
  · exact .inr ⟨_, t, rfl, h0, rfl, hmaps, hfound⟩

end Bmap

end Xv6.Fs
