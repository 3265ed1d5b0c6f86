import Xv6.Fs.Contents
import Xv6.Library.Account
import Xv6.Sysfile.Code

/-!
# What a write logs

`begin_op` reserves room for `MAXOPBLOCKS` blocks in the log, for the operation that calls it. Here
the code of a write is run with an account of the blocks that it passes to `log_write`, from
`begin_op` on. A block that is passed twice counts once, as the log absorbs it.

What a write logs can be read off the state before it: the blocks of the file that it writes to, the
indirect block if an entry of it is set, the bitmap blocks of the free blocks that it takes, in the
order in which `balloc` finds them, and the block of the inode if the file grows.

## Main results

* `Tx.writei_erases` — without the account, it is the code that `Fs.Contents` is about
* `Tx.writei_logs` — how many blocks a write logs
* `Tx.filewrite_fits_iff` — which calls of `filewrite` keep to their reservations
-/

namespace Xv6.Fs

open ByteMemory Function List Prog Place
open Finset (image_singleton mem_image union_comm empty_union image_empty mem_union union_empty)

/-- Inodes in a block. -/
abbrev ipb : ℕ := 8

/-- A disk with the blocks of the inodes before those of the bitmap. -/
structure Layout extends Super where
  inodestart : ℕ
  /-- The bitmap comes after the inodes. -/
  inodes_lt : ninodes / ipb + inodestart < bmapstart

/-- The block with the bit of block `b`. -/
def Super.bblock (sb : Super) (b : ℕ) : ℕ := b / bpb + sb.bmapstart

/-- The block that contains inode `i`. -/
def Layout.iblock (lay : Layout) (i : ℕ) : ℕ := i / ipb + lay.inodestart

/-! ### The code and its transaction -/

namespace Tx

/-- A program in a transaction, with the blocks that the transaction has logged. -/
abbrev Code (α : Type) : Type 1 := Prog (State × Finset ℕ) Panic α

/-- The transaction logs a block. -/
def logWrite (b : ℕ) : Code Unit := .note (insert b)

/-- Zero a block. -/
def bzero (b : ℕ) : Code Unit := do
  (Fs.bzero b).onFst
  logWrite b

/-- The loop of `balloc`. -/
def ballocLoop (sb : Super) : List ℕ → Code ℕ
  | [] => .panic .outOfBlocks
  | b :: bs => do
    match ← (Prog.step fun s => some (.ok (markFree sb b bpb s))).onFst with
    | some n =>
      logWrite (sb.bblock b)
      bzero n
      pure n
    | none => ballocLoop sb bs

/-- Allocate a zeroed disk block. -/
def balloc (sb : Super) : Code ℕ :=
  ballocLoop sb ((List.range ((sb.size + bpb - 1) / bpb)).map (· * bpb))

/-- `bmap`, for an address in the inode. -/
def bmapAddr (sb : Super) (i k : ℕ) : Code ℕ := do
  let addr ← (read fun s => (s.copy i).addrs k).onFst
  if addr = 0 then
    let addr ← balloc sb
    (Prog.modify (·.setAddr i k addr)).onFst
    pure addr
  else pure addr

/-- The address of the `bn`th block of an inode. If there is none, `bmap` allocates one. -/
def bmap (sb : Super) (i bn : ℕ) : Code ℕ :=
  if bn < ndirect then bmapAddr sb i bn
  else if bn - ndirect < nindirect then do
    let ind ← bmapAddr sb i ndirect
    let addr ← (read fun s => load32 (s.data ind) (4 * (bn - ndirect))).onFst
    if addr = 0 then
      let addr ← balloc sb
      (Prog.modify fun s =>
        s.setData ind (store32 (s.data ind) (4 * (bn - ndirect)) addr)).onFst
      logWrite ind
      pure addr
    else pure addr
  else .panic .outOfRange

/-- Copy a modified in-memory inode to disk. -/
def iupdate (lay : Layout) (i : ℕ) : Code Unit := do
  (Fs.iupdate i).onFst
  logWrite (lay.iblock i)

/-- The loop of `writei`. -/
def writeiLoop (sb : Super) (i : ℕ) : ℕ → (off : ℕ) → List UInt8 → Code Unit
  | 0, _, _ => pure ()
  | k + 1, off, src =>
    if src.length = 0 then pure ()
    else do
      let b ← bmap sb i (off / bsize)
      let m := min src.length (bsize - off % bsize)
      (Prog.modify fun s => s.setData b (place (s.data b) (off % bsize) (src.take m))).onFst
      logWrite b
      writeiLoop sb i k (off + m) (src.drop m)

/-- Write data to an inode. -/
def writei (lay : Layout) (devwrite : ℤ → Bool) (i : ℕ) (src : List UInt8) (off n : UInt32) :
    Code (Transfer Unit) := do
  let ip ← (read (·.copy i)).onFst
  if ip.type = .dev then
    if ip.major < 0 ∨ ip.major ≥ ndev ∨ !devwrite ip.major then pure .fail else pure .device
  else if off.toNat > ip.size ∨ (off + n).toNat < off.toNat then pure .fail
  else if (off + n).toNat > maxfile * bsize then pure .fail
  else
    writeiLoop lay.toSuper i n.toNat off.toNat (src.take n.toNat)
    let size ← (read fun s => (s.copy i).size).onFst
    if 0 < n.toNat ∧ off.toNat + n.toNat > size then
      (Prog.modify fun s => s.setCopy i { s.copy i with size := off.toNat + n.toNat }).onFst
      iupdate lay i
    pure (.done n.toNat ())

/-- A transaction of `filewrite`, from `begin_op` to `end_op`. -/
def transaction (lay : Layout) (devwrite : ℤ → Bool) (i : ℕ) (src : List UInt8) (off : UInt32) :
    Code (Transfer Unit) := do
  (Fs.ilock i).onFst
  let r ← writei lay devwrite i src off (.ofNat src.length)
  (Fs.iunlock i).onFst
  pure r

end Tx

/-- A transaction of `filewrite` that came to its `end_op`. -/
structure Tx where
  /-- The state at its `begin_op`. -/
  start : State
  off : UInt32
  src : List UInt8
  log : Finset ℕ

namespace Tx

/-- The loop of `filewrite` on inode `i`: the transactions that come to their `end_op`, until the
last one, one that fails or one that panics. -/
def filewriteLoop (lay : Layout) (devwrite : ℤ → Bool) (i : ℕ) :
    ℕ → List UInt8 → UInt32 → State → List Tx
  | 0, _, _, _ => []
  | k + 1, src, off, s =>
    if src.length = 0 then []
    else
      let chunk := src.take Sysfile.Sys.maxWrite
      match (transaction lay devwrite i chunk off).eval (s, ∅) with
      | some (.ok (r, s', log)) =>
        ⟨s, off, chunk, log⟩ ::
          match r with
          | .fail => []
          | .device => filewriteLoop lay devwrite i k (src.drop chunk.length)
              (off + .ofNat chunk.length) s'
          | .done r _ =>
            -- a short write is a panic
            if r ≠ chunk.length then []
            else filewriteLoop lay devwrite i k (src.drop r) (off + .ofNat r) s'
      | _ => []

/-- The transactions of `filewrite` on inode `i`, for a file with offset `off`. -/
def filewrite (lay : Layout) (devwrite : ℤ → Bool) (i : ℕ) (src : List UInt8) (off : UInt32)
    (s : State) : List Tx :=
  filewriteLoop lay devwrite i src.length src off s

/-! ### Without the account -/

theorem bzero_erases (b : ℕ) : (bzero b).Erases (Fs.bzero b) := .note_last (.onFst _)

theorem ballocLoop_erases (sb : Super) (bs : List ℕ) :
    (ballocLoop sb bs).Erases (Fs.ballocLoop sb bs) := by
  induction bs with
  | nil => exact .panic _
  | cons b bs ih =>
    refine .bind (.onFst _) fun r => ?_
    cases r with
    | none => exact ih
    | some n => exact .note (.bind (bzero_erases n) fun _ => .ret n)

theorem bmapAddr_erases (sb : Super) (i k : ℕ) :
    (bmapAddr sb i k).Erases (Fs.bmapAddr sb i k) := by
  refine .bind (.onFst _) fun addr => ?_
  split_ifs
  · exact .bind (ballocLoop_erases sb _) fun addr => .bind (.onFst _) fun _ => .ret addr
  · exact .ret addr

theorem bmap_erases (sb : Super) (i bn : ℕ) : (bmap sb i bn).Erases (Fs.bmap sb i bn) := by
  rw [bmap, Fs.bmap]
  split_ifs
  · exact bmapAddr_erases sb i bn
  · refine .bind (bmapAddr_erases sb i ndirect) fun ind => .bind (.onFst _) fun addr => ?_
    split_ifs
    · exact .bind (ballocLoop_erases sb _) fun addr => .bind (.onFst _) fun _ => .note (.ret addr)
    · exact .ret addr
  · exact .panic _

theorem writeiLoop_erases (sb : Super) (i k off : ℕ) (src : List UInt8) :
    (writeiLoop sb i k off src).Erases (Fs.writeiLoop sb i k off src) := by
  induction k generalizing off src with
  | zero => exact .ret ()
  | succ k ih =>
    rw [writeiLoop, Fs.writeiLoop]
    split_ifs
    · exact .ret ()
    · exact .bind (bmap_erases sb i _) fun b => .bind (.onFst _) fun _ => .note (ih _ _)

/-- **Without the account, it is the code of `writei`.** -/
theorem writei_erases (lay : Layout) (devwrite : ℤ → Bool) (i : ℕ) (src : List UInt8)
    (off n : UInt32) :
    (writei lay devwrite i src off n).Erases (Fs.writei lay.toSuper devwrite i src off n) := by
  refine .bind (.onFst _) fun ip => ?_
  split_ifs
  · exact .ret _
  · exact .ret _
  · exact .ret _
  · exact .ret _
  · refine .bind (writeiLoop_erases _ i _ _ _) fun _ => .bind (.onFst _) fun size => ?_
    dsimp only
    split_ifs
    · exact .bind (.onFst _) fun _ => .bind (.note_last (.onFst _)) fun _ => .ret _
    · exact .ret _

end Tx

/-! ### Free blocks -/

/-- The free blocks, in the order in which `balloc` finds them. -/
def State.freeBlocks (sb : Super) (s : State) : List ℕ :=
  (List.range sb.size).filter fun b => !s.bitmap b

variable {sb : Super} {s s' t : State} {i : ℕ} {src : List UInt8} {pl : Place} {b n : ℕ}

theorem mem_freeBlocks : b ∈ s.freeBlocks sb ↔ b < sb.size ∧ s.bitmap b = false := by
  simp [State.freeBlocks]

theorem freeBlocks_taken {rest : List ℕ} (hfree : s.freeBlocks sb = b :: rest)
    (hbit : s'.bitmap = update s.bitmap b true) : s'.freeBlocks sb = rest := by
  have hnodup : (b :: rest).Nodup := hfree ▸ nodup_range.filter _
  have hfilter : s'.freeBlocks sb = (s.freeBlocks sb).filter fun c => decide (c ≠ b) := by
    rw [State.freeBlocks, State.freeBlocks, filter_filter]
    refine filter_congr fun c _ => ?_
    by_cases hc : c = b
    · simp [hbit, hc]
    · simp [hbit, hc]
  rw [hfilter, hfree, filter_cons_of_neg (by simp), filter_eq_self]
  intro c hc
  have hne : c ≠ b := by
    rintro rfl
    exact (nodup_cons.mp hnodup).1 hc
  exact decide_eq_true hne

theorem flatMap_bitmap (k n : ℕ) :
    ((List.range k).map (· * n)).flatMap (fun b => (List.range n).map (b + ·)) =
      List.range (k * n) := by
  induction k with
  | zero => simp
  | succ k ih =>
    rw [range_succ, map_append, flatMap_append, ih, Nat.succ_mul, range_add]
    simp

namespace Tx

theorem ballocLoop_logs {bs : List ℕ} (hbs : ∀ b ∈ bs, b % bpb = 0) (s : State) (L : Finset ℕ) :
    (ballocLoop sb bs).eval (s, L) =
      match (bs.flatMap fun b => (List.range bpb).map (b + ·)).find?
        fun b => decide (b < sb.size) && !s.bitmap b with
      | none => some (.error .outOfBlocks)
      | some b => some (.ok (b, s.taken b, insert b (insert (sb.bblock b) L))) := by
  induction bs with
  | nil => rfl
  | cons b bs ih =>
    have hb := hbs b mem_cons_self
    have ih := ih fun c hc => hbs c (mem_cons_of_mem _ hc)
    rw [flatMap_cons, List.find?_append]
    simp only [ballocLoop, bind_eq, eval_bind, eval_onFst, eval_step,
      Option.map_some, Except.map, markFree, firstFree]
    cases hfind : ((List.range bpb).map (b + ·)).find?
        fun b => decide (b < sb.size) && !s.bitmap b with
    | none => exact ih
    | some c =>
      obtain ⟨j, hj, rfl⟩ := mem_map.mp (mem_of_find?_eq_some hfind)
      have hblock : sb.bblock b = sb.bblock (b + j) := by
        rw [mem_range] at hj
        simp only [Super.bblock, bpb, bsize] at *
        omega
      rw [hblock]
      rfl

/-- **`balloc` takes the first free block**, and logs it and its bitmap block. -/
theorem balloc_logs (sb : Super) (s : State) (L : Finset ℕ) :
    (balloc sb).eval (s, L) =
      match s.freeBlocks sb with
      | [] => some (.error .outOfBlocks)
      | b :: _ => some (.ok (b, s.taken b, insert b (insert (sb.bblock b) L))) := by
  obtain ⟨r, hr⟩ : ∃ r, (sb.size + bpb - 1) / bpb * bpb = sb.size + r :=
    Nat.exists_eq_add_of_le (by simp only [bpb, bsize]; omega)
  have hfilter : (List.range (sb.size + r)).filter
      (fun b => decide (b < sb.size) && !s.bitmap b) = s.freeBlocks sb := by
    rw [range_add, filter_append, State.freeBlocks]
    refine (congrArg₂ _ (filter_congr fun b hb => ?_) ?_).trans (append_nil _)
    · simp [mem_range.mp hb]
    · simp [filter_eq_nil_iff]
  rw [balloc, ballocLoop_logs, flatMap_bitmap, hr, ← List.head?_filter, hfilter]
  · cases s.freeBlocks sb <;> rfl
  · simp

end Tx

/-! ### Places of an inode -/

/-- The places with no block. -/
def missing (s : State) (i : ℕ) (pls : Finset Place) : Finset Place :=
  pls.filter fun pl => s.own (i, pl) = 0

theorem missing_subset {s : State} {i : ℕ} {pls : Finset Place} : missing s i pls ⊆ pls :=
  Finset.filter_subset _ _

/-- The bitmap blocks of the next `n` blocks to be allocated. -/
def bitmapBlocks (sb : Super) (s : State) (n : ℕ) : Finset ℕ :=
  (((s.freeBlocks sb).take n).map sb.bblock).toFinset

/-- The places of the inode that must have a block, if these blocks of the file are to be there. -/
def needs (bns : Finset ℕ) : Finset Place :=
  bns.image .ofBlock ∪ if ∃ bn ∈ bns, ndirect ≤ bn then {.indirect} else ∅

/-- The places whose blocks change when these blocks of the file are written. -/
def writes (s : State) (i : ℕ) (bns : Finset ℕ) : Finset Place :=
  bns.image .ofBlock ∪
    if ∃ bn ∈ bns, ndirect ≤ bn ∧ s.own (i, .ofBlock bn) = 0 then {.indirect} else ∅

/-- Blocks have been allocated for the places `pls`, as far as they had none, and the log has got
the blocks at the places `pls'` and the bitmap blocks. -/
structure Logs (sb : Super) (i : ℕ) (pls pls' : Finset Place) (s s' : State) (L L' : Finset ℕ) :
    Prop where
  owned : Owned sb s'
  frame : Frame i s s'
  subset : pls' ⊆ pls
  there : ∀ pl ∈ pls, s'.own (i, pl) ≠ 0
  same : ∀ pl, pl ∉ pls ∨ s.own (i, pl) ≠ 0 → s'.own (i, pl) = s.own (i, pl)
  free : s'.freeBlocks sb = (s.freeBlocks sb).drop (missing s i pls).card
  log : L' = L ∪ pls'.image (fun pl => s'.own (i, pl)) ∪ bitmapBlocks sb s (missing s i pls).card

variable {P P' Q Q' : Finset Place} {L L₁ L' : Finset ℕ}

theorem Logs.here (h : Owned sb s) (hP : ∀ pl ∈ P, s.own (i, pl) ≠ 0) (hQ : Q ⊆ P)
    (L : Finset ℕ) : Logs sb i P Q s s L (L ∪ Q.image fun pl => s.own (i, pl)) := by
  have hmiss : missing s i P = ∅ := Finset.filter_eq_empty_iff.mpr fun pl hpl => hP pl hpl
  refine ⟨h, .of_eq rfl rfl, hQ, hP, fun _ _ => rfl, ?_, ?_⟩
  · rw [hmiss]
    rfl
  · rw [hmiss]
    exact (union_empty _).symm

theorem Logs.get {rest : List ℕ} (h : Owned sb s) (hfree : s.freeBlocks sb = b :: rest)
    (hg : Gets sb i pl b s s') (L : Finset ℕ) :
    Logs sb i {pl} {pl} s s' L (insert b (insert (sb.bblock b) L)) := by
  have hown : s'.own (i, pl) = b := by rw [hg.own, update_self]
  have hmiss : missing s i {pl} = {pl} := Finset.filter_true_of_mem fun pl' hpl' => by
    rw [Finset.mem_singleton.mp hpl']
    exact hg.empty
  have hmaps := hg.maps h
  refine ⟨hmaps.owned, hg.frame, subset_rfl, fun pl' hpl' => ?_, fun pl' hpl' => ?_, ?_, ?_⟩
  · rw [Finset.mem_singleton.mp hpl', hown]
    exact h.unmarked_ne_zero hg.lt hg.unmarked
  · rcases hpl' with hne | hne
    · rw [hg.own, update_of_ne]
      exact fun heq => hne (Finset.mem_singleton.mpr (congrArg Prod.snd heq))
    · exact hmaps.grows _ hne
  · rw [hmiss, Finset.card_singleton, freeBlocks_taken hfree hg.bitmap, hfree]
    rfl
  · rw [hmiss, Finset.card_singleton, image_singleton, hown, bitmapBlocks, hfree]
    ext c
    simp only [Finset.mem_insert, mem_union, Finset.mem_singleton, take_succ_cons,
      take_zero, map_cons, map_nil, mem_toFinset, mem_singleton]
    tauto

/-- **One after the other.** What is missing for the second is missing before the first, as far as
the first has not allocated it. -/
theorem Logs.trans (h : Logs sb i P Q s t L L₁) (h' : Logs sb i P' Q' t s' L₁ L') :
    Logs sb i (P ∪ P') (Q ∪ Q') s s' L L' := by
  have hunion : missing s i (P ∪ P') = missing s i P ∪ missing t i P' := by
    ext pl
    simp only [missing, Finset.mem_filter, mem_union]
    have hthere := h.there pl
    have hsame := h.same pl
    by_cases hpl : pl ∈ P
    · have hne := hthere hpl
      tauto
    · rw [hsame (.inl hpl)]
      tauto
  have hdisj : Disjoint (missing s i P) (missing t i P') :=
    Finset.disjoint_left.mpr fun pl hpl hpl' =>
      h.there pl (Finset.mem_filter.mp hpl).1 (Finset.mem_filter.mp hpl').2
  have hcard : (missing s i (P ∪ P')).card = (missing s i P).card + (missing t i P').card := by
    rw [hunion, Finset.card_union_of_disjoint hdisj]
  have hstay : ∀ pl ∈ P, s'.own (i, pl) = t.own (i, pl) := fun pl hpl =>
    h'.same pl (.inr (h.there pl hpl))
  refine ⟨h'.owned, h.frame.trans h'.frame, Finset.union_subset_union h.subset h'.subset,
    fun pl hpl => ?_, fun pl hpl => ?_, ?_, ?_⟩
  · rcases mem_union.mp hpl with hpl | hpl
    · rw [hstay pl hpl]
      exact h.there pl hpl
    · exact h'.there pl hpl
  · rw [mem_union, not_or] at hpl
    have ht : t.own (i, pl) = s.own (i, pl) := h.same pl (hpl.imp_left And.left)
    rw [h'.same pl (hpl.imp And.right fun hne => ht ▸ hne), ht]
  · rw [h'.free, h.free, drop_drop, hcard]
  · have himage : Q.image (fun pl => s'.own (i, pl)) = Q.image fun pl => t.own (i, pl) :=
      Finset.image_congr fun pl hpl => hstay pl (h.subset hpl)
    have hblocks : bitmapBlocks sb s ((missing s i P).card + (missing t i P').card) =
        bitmapBlocks sb s (missing s i P).card ∪ bitmapBlocks sb t (missing t i P').card := by
      rw [bitmapBlocks, bitmapBlocks, bitmapBlocks, take_add, ← h.free, map_append, toFinset_append]
    rw [h'.log, h.log, hcard, hblocks, Finset.image_union, himage]
    ext c
    simp only [mem_union]
    tauto

theorem Logs.add (h : Logs sb i P Q s t L L') (pl : Place) (hpl : pl ∈ P) :
    Logs sb i P (Q ∪ {pl}) s t L (insert (t.own (i, pl)) L') := by
  have hhere := h.trans (.here h.owned h.there (Finset.singleton_subset_iff.mpr hpl) L')
  rwa [Finset.union_self, image_singleton, union_comm L', ← Finset.insert_eq]
    at hhere

variable {bn : ℕ}

theorem Logs.setData (h : Logs sb i P Q s t L L') (hbn : t.own (i, .ofBlock bn) ≠ 0)
    (d : Block) : Logs sb i P Q s (t.setData (t.own (i, .ofBlock bn)) d) L L' := by
  have hown : (t.setData (t.own (i, .ofBlock bn)) d).own = t.own := by
    refine own_setData fun j heq => ?_
    exact ofBlock_ne_indirect bn (congrArg Prod.snd (h.owned.inj _ _ hbn heq.symm))
  refine ⟨?_, h.frame.trans (.of_eq rfl rfl), h.subset, ?_, ?_, h.free, ?_⟩
  · rw [Owned, hown]
    exact h.owned
  · rw [hown]
    exact h.there
  · rw [hown]
    exact h.same
  · rw [hown]
    exact h.log

theorem mem_bitmapBlocks {x : ℕ} (hx : x ∈ bitmapBlocks sb s n) :
    sb.bmapstart ≤ x ∧ x < sb.nmeta := by
  rw [bitmapBlocks, mem_toFinset, mem_map] at hx
  obtain ⟨b, hb, rfl⟩ := hx
  have hlt := (mem_freeBlocks.mp (mem_of_mem_take hb)).1
  have hdiv : b / bpb ≤ sb.size / bpb := Nat.div_le_div_right hlt.le
  simp only [Super.bblock, Super.nmeta]
  exact ⟨Nat.le_add_left _ _, by rw [Nat.add_comm]; exact Nat.lt_succ_of_le (by gcongr)⟩

/-- **How many blocks are logged.** -/
theorem Logs.card (h : Logs sb i P Q s s' ∅ L) :
    L.card = Q.card + (bitmapBlocks sb s (missing s i P).card).card := by
  rw [h.log, empty_union, Finset.card_union_of_disjoint, Finset.card_image_of_injOn]
  · intro pl hpl pl' _ heq
    exact congrArg Prod.snd (h.owned.inj _ _ (h.there pl (h.subset hpl)) heq)
  · -- bitmap blocks are before the data
    refine Finset.disjoint_left.mpr fun x hx hx' => ?_
    obtain ⟨pl, hpl, rfl⟩ := mem_image.mp hx
    exact (h.owned.range _ (h.there pl (h.subset hpl))).2 (mem_bitmapBlocks hx').2

theorem Logs.notMem (h : Logs sb i P Q s s' ∅ L) {x : ℕ} (hx : x < sb.bmapstart) : x ∉ L := by
  rw [h.log, empty_union, mem_union, mem_image, not_or]
  refine ⟨?_, fun hmem => absurd (mem_bitmapBlocks hmem).1 (by omega)⟩
  rintro ⟨pl, hpl, rfl⟩
  refine (h.owned.range _ (h.there pl (h.subset hpl))).2 (hx.trans ?_)
  exact Nat.lt_succ_of_le (Nat.le_add_right _ _)

/-! ### Blocks of a file -/

theorem mem_needs {bns : Finset ℕ} :
    pl ∈ needs bns ↔ (∃ bn ∈ bns, ofBlock bn = pl) ∨
      pl = .indirect ∧ ∃ bn ∈ bns, ndirect ≤ bn := by
  rw [needs, mem_union, mem_image]
  split_ifs with h
  · simp [h]
  · simp [h]

theorem mem_writes {bns : Finset ℕ} :
    pl ∈ writes s i bns ↔ (∃ bn ∈ bns, ofBlock bn = pl) ∨
      pl = .indirect ∧ ∃ bn ∈ bns, ndirect ≤ bn ∧ s.own (i, .ofBlock bn) = 0 := by
  rw [writes, mem_union, mem_image]
  split_ifs with h
  · simp [h]
  · simp [h]

theorem needs_union (A B : Finset ℕ) : needs (A ∪ B) = needs A ∪ needs B := by
  ext pl
  simp only [mem_union, mem_needs, or_and_right, exists_or, and_or_left]
  exact or_or_or_comm

theorem Logs.nil (h : Owned sb s) (L : Finset ℕ) :
    Logs sb i (needs ∅) (writes s i ∅) s s L L := by
  have hhere := Logs.here (i := i) (P := ∅) (Q := ∅) h (by simp) subset_rfl L
  rwa [image_empty, union_empty] at hhere

theorem Logs.writes_union {A B : Finset ℕ} (h : Logs sb i (needs A) Q s t L L')
    (hA : ∀ bn ∈ A, bn < maxfile) (hB : ∀ bn ∈ B, bn < maxfile) :
    writes s i (A ∪ B) = writes s i A ∪ writes t i B := by
  -- an entry that is missing at first, and is not missing between the writes, is one of the first
  have hentry : ∀ bn ∈ B, s.own (i, .ofBlock bn) = 0 →
      t.own (i, .ofBlock bn) = 0 ∨ bn ∈ A := fun bn hbn h0 => by
    by_cases hmem : ofBlock bn ∈ needs A
    · rcases mem_needs.mp hmem with ⟨bn', hbn', heq⟩ | ⟨heq, -⟩
      · exact .inr (ofBlock_inj (hA _ hbn') (hB _ hbn) heq ▸ hbn')
      · exact absurd heq (ofBlock_ne_indirect bn)
    · exact .inl ((h.same _ (.inl hmem)).trans h0)
  have hkeep : ∀ bn, t.own (i, .ofBlock bn) = 0 → s.own (i, .ofBlock bn) = 0 := fun bn h0 => by
    by_contra hne
    exact hne ((h.same _ (.inr hne)).symm.trans h0)
  ext pl
  simp only [mem_union, mem_writes, or_and_right, exists_or]
  constructor
  · rintro ((hA | hB) | ⟨rfl, hA | ⟨bn, hbn, hge, h0⟩⟩)
    · exact .inl (.inl hA)
    · exact .inr (.inl hB)
    · exact .inl (.inr ⟨rfl, hA⟩)
    · rcases hentry bn hbn h0 with h0' | hmem
      · exact .inr (.inr ⟨rfl, bn, hbn, hge, h0'⟩)
      · exact .inl (.inr ⟨rfl, bn, hmem, hge, h0⟩)
  · rintro ((hA | ⟨rfl, hA⟩) | (hB | ⟨rfl, bn, hbn, hge, h0⟩))
    · exact .inl (.inl hA)
    · exact .inr ⟨rfl, .inl hA⟩
    · exact .inl (.inr hB)
    · exact .inr ⟨rfl, .inr ⟨bn, hbn, hge, hkeep bn h0⟩⟩

theorem needs_direct (hdir : bn < ndirect) : needs {bn} = {ofBlock bn} := by
  rw [needs, if_neg (by simpa using hdir), image_singleton, union_empty]

theorem writes_direct (hdir : bn < ndirect) : writes s i {bn} = {ofBlock bn} := by
  rw [writes, if_neg (by simp [hdir]), image_singleton, union_empty]

theorem needs_entry (hdir : ¬bn < ndirect) : needs {bn} = {ofBlock bn} ∪ {.indirect} := by
  rw [needs, if_pos (by simpa using hdir), image_singleton]

/-- The blocks of the file with the bytes from `off` on. -/
def touched (off n : ℕ) : Finset ℕ :=
  if n = 0 then ∅ else Finset.Icc (off / bsize) ((off + n - 1) / bsize)

theorem touched_step {off : ℕ} (hn : n ≠ 0) :
    touched off n = {off / bsize} ∪ touched (off + min n (bsize - off % bsize))
      (n - min n (bsize - off % bsize)) := by
  ext bn
  simp only [touched, if_neg hn, bsize]
  split_ifs with h
  · simp only [Finset.mem_Icc, union_empty, Finset.mem_singleton]
    omega
  · simp only [Finset.mem_Icc, mem_union, Finset.mem_singleton]
    omega

theorem touched_lt {off bn : ℕ} (hmax : off + n ≤ maxfile * bsize) (hbn : bn ∈ touched off n) :
    bn < maxfile := by
  rw [touched] at hbn
  split_ifs at hbn with hn
  · exact absurd hbn (Finset.notMem_empty bn)
  · have hle := (Finset.mem_Icc.mp hbn).2
    simp only [bsize] at hle hmax
    omega

/-! ### What the code logs -/

namespace Tx

section Bmap

variable (h : Owned sb s) (hv : (s.icache i).valid = true) (ht : (s.node i).type ≠ .free)

include h

theorem bmapAddr_logs (pl : Place) {k : ℕ} (haddr : (s.copy i).addrs k = s.own (i, pl))
    (hgets : s.own (i, pl) = 0 → ∀ b < sb.size, s.bitmap b = false →
      Gets sb i pl b s ((s.taken b).setAddr i k b)) (L : Finset ℕ) :
    (bmapAddr sb i k).eval (s, L) = some (.error .outOfBlocks) ∨
      ∃ t L', (bmapAddr sb i k).eval (s, L) = some (.ok (t.own (i, pl), t, L')) ∧
        Logs sb i {pl} (missing s i {pl}) s t L L' := by
  simp only [bmapAddr, bind_eq, eval_bind, eval_onFst, eval_read,
    Option.map_some, Except.map, haddr]
  split_ifs with h0
  · simp only [eval_bind, balloc_logs]
    cases hfree : s.freeBlocks sb with
    | nil => exact .inl rfl
    | cons b rest =>
      obtain ⟨hb, hbit⟩ := mem_freeBlocks.mp (hfree ▸ mem_cons_self : b ∈ s.freeBlocks sb)
      have hg := hgets h0 b hb hbit
      have hmiss : missing s i {pl} = {pl} := by simp [missing, h0]
      refine .inr ⟨(s.taken b).setAddr i k b, insert b (insert (sb.bblock b) L), ?_, ?_⟩
      · rw [hg.own, update_self]
        rfl
      · rw [hmiss]
        exact Logs.get h hfree hg L
  · have hmiss : missing s i {pl} = ∅ := by simp [missing, h0]
    have hhere := Logs.here h (P := {pl}) (Q := ∅) (by simpa using h0) (Finset.empty_subset _) L
    rw [image_empty, union_empty] at hhere
    exact .inr ⟨s, L, rfl, hmiss.symm ▸ hhere⟩

include hv ht

/-- **What `bmap` logs**, with the block itself. -/
theorem bmap_logs (hbn : bn < maxfile) (L : Finset ℕ) :
    (bmap sb i bn).eval (s, L) = some (.error .outOfBlocks) ∨
      ∃ t L', (bmap sb i bn).eval (s, L) = some (.ok (t.own (i, .ofBlock bn), t, L')) ∧
        Logs sb i (needs {bn}) (writes s i {bn}) s t L (insert (t.own (i, .ofBlock bn)) L') := by
  by_cases hdir : bn < ndirect
  · have hpl : ofBlock bn = .direct ⟨bn, hdir⟩ := by rw [ofBlock, dif_pos hdir]
    rw [bmap, if_pos hdir, needs_direct hdir, writes_direct hdir]
    refine (bmapAddr_logs h (.ofBlock bn) ?_ ?_ L).imp_right ?_
    · rw [hpl, own_of_type ht, node_of_valid hv, addrOf]
    · rw [hpl]
      exact fun h0 b hb hfree => gets_direct h hv ht hb hfree h0
    · rintro ⟨t, L', hok, hlogs⟩
      refine ⟨t, L', hok, ?_⟩
      have hfin := hlogs.add _ (Finset.mem_singleton_self _)
      rwa [Finset.union_eq_right.mpr missing_subset] at hfin
  have he : bn - ndirect < nindirect := by
    simp only [maxfile, nindirect, ndirect] at *
    omega
  have hpl := ofBlock_entry hdir he
  rw [bmap, if_neg hdir, if_pos he, needs_entry hdir]
  simp only [bind_eq, eval_bind]
  rcases bmapAddr_logs h .indirect (by rw [own_indirect ht, node_of_valid hv])
    (fun h0 b hb hfree => gets_indirect h hv ht hb hfree h0) L with hout | ⟨t, L₁, hok, hind⟩
  · exact .inl (by rw [hout])
  rw [hok]
  have ht' : (t.node i).type ≠ .free := hind.frame.type i ▸ ht
  have hind0 : t.own (i, .indirect) ≠ 0 := hind.there _ (Finset.mem_singleton_self _)
  have haddr : load32 (t.data (t.own (i, .indirect))) (4 * (bn - ndirect)) =
      t.own (i, .ofBlock bn) := by
    rw [hpl, own_of_type ht' (.entry _), addrOf, ← own_indirect ht', if_neg hind0]
  have hsame : t.own (i, .ofBlock bn) = s.own (i, .ofBlock bn) :=
    hind.same _ (.inl (by simpa using ofBlock_ne_indirect bn))
  simp only [eval_onFst, eval_read, Option.map_some, Except.map, haddr]
  split_ifs with h0
  · simp only [eval_bind, balloc_logs]
    cases hfree : t.freeBlocks sb with
    | nil => exact .inl rfl
    | cons b rest =>
      obtain ⟨hb, hbit⟩ := mem_freeBlocks.mp (hfree ▸ mem_cons_self : b ∈ t.freeBlocks sb)
      have hg := gets_entry hind.owned ht' hb hbit hind0 (hpl ▸ h0)
      rw [← hpl] at hg
      have hget := hind.trans (Logs.get hind.owned hfree hg L₁)
      rw [union_comm {indirect}] at hget
      have hfin := (hget.add .indirect (by simp)).add (.ofBlock bn) (by simp)
      rw [(hg.maps hind.owned).grows _ hind0] at hfin
      have hwrites : writes s i {bn} =
          missing s i {.indirect} ∪ {.ofBlock bn} ∪ {.indirect} ∪ {.ofBlock bn} := by
        rw [writes, if_pos ⟨bn, by simp, not_lt.mp hdir, hsame ▸ h0⟩, image_singleton]
        ext pl
        simp only [missing, mem_union, Finset.mem_singleton, Finset.mem_filter]
        tauto
      refine .inr ⟨_, _, ?_, hwrites ▸ hfin⟩
      rw [hg.own, update_self]
      rfl
  · have hne : s.own (i, .ofBlock bn) ≠ 0 := hsame ▸ h0
    have hmiss : missing s i {.indirect} = ∅ := by
      have := own_indirect_of_entry (hpl ▸ hne)
      simp [missing, this]
    have hwrites : writes s i {bn} = {.ofBlock bn} := by
      rw [writes, if_neg (by simp [hne]), image_singleton, union_empty]
    have hhere := hind.trans (.here (P := {.ofBlock bn}) (Q := {.ofBlock bn}) hind.owned
      (by simpa using h0) subset_rfl L₁)
    rw [hmiss, empty_union, image_singleton, union_comm {indirect},
      union_comm L₁] at hhere
    rw [hwrites]
    exact .inr ⟨t, L₁, rfl, hhere⟩

/-- **What the loop of `writei` logs.** -/
theorem writeiLoop_logs {fuel off : ℕ} (hfuel : src.length ≤ fuel)
    (hmax : off + src.length ≤ maxfile * bsize) (L : Finset ℕ) :
    (writeiLoop sb i fuel off src).eval (s, L) = some (.error .outOfBlocks) ∨
      ∃ s' L', (writeiLoop sb i fuel off src).eval (s, L) = some (.ok ((), s', L')) ∧
        Logs sb i (needs (touched off src.length)) (writes s i (touched off src.length))
          s s' L L' := by
  induction fuel generalizing off src s L with
  | zero =>
    obtain rfl : src = [] := length_eq_zero_iff.mp (by omega)
    exact .inr ⟨s, L, rfl, .nil h L⟩
  | succ fuel ih =>
    rw [writeiLoop]
    split_ifs with hlen
    · rw [hlen]
      exact .inr ⟨s, L, rfl, .nil h L⟩
    have hbs : 0 < bsize := by decide
    have hmod := Nat.mod_lt off hbs
    have hbn : off / bsize < maxfile := (Nat.div_lt_iff_lt_mul hbs).mpr (by omega)
    rw [touched_step hlen]
    generalize hm : min src.length (bsize - off % bsize) = m
    have hdrop : (src.drop m).length = src.length - m := length_drop
    simp only [bind_eq, eval_bind]
    rcases bmap_logs h hv ht hbn L with hout | ⟨t, L', hok, hlogs⟩
    · exact .inl (by rw [hout])
    rw [hok]
    simp only [eval_onFst, eval_modify, Option.map_some, Except.map, logWrite, eval_note]
    have hthere : t.own (i, .ofBlock (off / bsize)) ≠ 0 :=
      hlogs.there _ (mem_needs.mpr (.inl ⟨_, Finset.mem_singleton_self _, rfl⟩))
    have hround := hlogs.setData hthere
      (place (t.data (t.own (i, .ofBlock (off / bsize)))) (off % bsize) (src.take m))
    have hmax' : off + m + (src.drop m).length ≤ maxfile * bsize := by omega
    rcases ih hround.owned (hround.frame.valid.trans hv) (hround.frame.type i ▸ ht)
      (show (src.drop m).length ≤ fuel by omega) hmax' _ with hout | ⟨s', L'', hok', hrest⟩
    · exact .inl hout
    · refine .inr ⟨s', L'', hok', ?_⟩
      rw [hdrop] at hrest hmax'
      rw [needs_union, hround.writes_union (by simpa using hbn) fun bn => touched_lt hmax']
      exact hround.trans hrest

end Bmap

end Tx

/-! ### What a transaction logs -/

instance (size off n : ℕ) : Decidable (Fits size off n) := inferInstanceAs (Decidable (_ ∧ _))

/-- How many blocks are logged when `n` bytes are written to inode `i` at `off`. -/
def Layout.cost (lay : Layout) (s : State) (i off n : ℕ) : ℕ :=
  if Fits (s.node i).size off n then
    (writes s i (touched off n)).card +
      (bitmapBlocks lay.toSuper s (missing s i (needs (touched off n))).card).card +
      if 0 < n ∧ (s.node i).size < off + n then 1 else 0
  else 0

theorem Layout.cost_congr (lay : Layout) (hnode : t.node i = s.node i) (hown : t.own = s.own)
    (hbit : t.bitmap = s.bitmap) (off n : ℕ) : lay.cost t i off n = lay.cost s i off n := by
  simp only [Layout.cost, writes, missing, bitmapBlocks, State.freeBlocks, hnode, hown, hbit]

/-- Inode `i` is a file, in use, and locked or not. -/
structure Ready (sb : Super) (i : ℕ) (busy : Bool) (s : State) : Prop where
  owned : Owned sb s
  ref : 0 < (s.icache i).ref
  lock : (s.icache i).busy = busy
  valid : busy = true → (s.icache i).valid = true
  file : (s.node i).type = .file

theorem Ready.of_frame {busy : Bool} (h : Ready sb i busy s) (howned : Owned sb s')
    (hf : Frame i s s') : Ready sb i busy s' := by
  obtain ⟨addrs, hi⟩ := hf.icache
  refine ⟨howned, ?_, ?_, fun hb => hf.valid.trans (h.valid hb), (hf.type i).trans h.file⟩
  · rw [hi, update_self]
    exact h.ref
  · rw [hi, update_self]
    exact h.lock

theorem Ready.setEntry {busy busy' : Bool} {e : Entry} (h : Ready sb i busy s)
    (he : (if e.valid then e.copy else s.dinode i) = s.node i) (href : 0 < e.ref)
    (hlock : e.busy = busy') (hvalid : busy' = true → e.valid = true) :
    Ready sb i busy' (s.setEntry i e) := by
  have hentry : (s.setEntry i e).icache i = e := update_self ..
  refine ⟨?_, by rwa [hentry], by rwa [hentry], by rwa [hentry], ?_⟩
  · rw [Owned, own_setEntry he]
    exact h.owned
  · rw [node_setEntry he]
    exact h.file

theorem ilock_eval (h : Ready sb i false s) :
    ∃ t, (ilock i).eval s = some (.ok ((), t)) ∧ Ready sb i true t ∧ SameFiles s t := by
  have href : ¬(s.icache i).ref < 1 := not_lt.mpr h.ref
  have hlock : ¬(s.icache i).busy = true := by simp [h.lock]
  simp only [ilock, eval_step, if_neg href, if_neg hlock]
  by_cases hv : (s.icache i).valid = true
  · rw [if_pos hv]
    have he : (if (s.icache i).valid then (s.icache i).copy else s.dinode i) = s.node i := rfl
    exact ⟨s.setEntry i { s.icache i with busy := true }, rfl,
      h.setEntry he h.ref rfl fun _ => hv, .setEntry he⟩
  · have hnode : s.node i = s.dinode i := if_neg hv
    have htype : ¬(s.dinode i).type = .free := by
      rw [← hnode, h.file]
      exact fun heq => by cases heq
    rw [if_neg hv, if_neg htype]
    exact ⟨s.setEntry i { s.icache i with busy := true, valid := true, copy := s.dinode i }, rfl,
      h.setEntry hnode.symm h.ref rfl fun _ => rfl, .setEntry hnode.symm⟩

theorem iunlock_eval (h : Ready sb i true s) :
    ∃ t, (iunlock i).eval s = some (.ok ((), t)) ∧ Ready sb i false t ∧ SameFiles s t := by
  have he : (if (s.icache i).valid then (s.icache i).copy else s.dinode i) = s.node i := rfl
  have hguard : ¬((!(s.icache i).busy) = true ∨ (s.icache i).ref < 1) := by
    rintro (hb | hb)
    · rw [h.lock] at hb
      cases hb
    · exact absurd h.ref (not_lt.mpr (Nat.lt_succ_iff.mp hb))
  simp only [iunlock, eval_step, if_neg hguard]
  exact ⟨s.setEntry i { s.icache i with busy := false }, rfl,
    h.setEntry he h.ref rfl (fun hb => by cases hb), .setEntry he⟩

theorem Ready.grow (h : Ready sb i true s) (m : ℕ) : Ready sb i true (s.grow i m) := by
  have hv := h.valid rfl
  have hentry : (s.grow i m).icache i =
      { s.icache i with copy := { s.copy i with size := m } } := update_self ..
  refine ⟨?_, hentry ▸ h.ref, hentry ▸ h.lock, fun _ => hentry ▸ hv, ?_⟩
  · rw [Owned, own_grow hv]
    exact h.owned
  · rw [node_grow hv]
    exact h.file

namespace Tx

variable {lay : Layout}

/-- **How many blocks `writei` logs.** -/
theorem writei_logs (h : Ready lay.toSuper i true s) (hi : i < lay.ninodes) (devwrite : ℤ → Bool)
    (off n : UInt32) (hsrc : n.toNat ≤ src.length) :
    (writei lay devwrite i src off n).eval (s, ∅) = some (.error .outOfBlocks) ∨
      ∃ r s' L, (writei lay devwrite i src off n).eval (s, ∅) = some (.ok (r, s', L)) ∧
        (r = .fail ∨ r = .done n.toNat ()) ∧ Ready lay.toSuper i true s' ∧
        L.card = lay.cost s i off.toNat n.toNat := by
  have hv := h.valid rfl
  have hcopy := node_of_valid hv
  have hdev : (s.node i).type ≠ .dev := by
    rw [h.file]
    exact fun heq => by cases heq
  have ht : (s.node i).type ≠ .free := by
    rw [h.file]
    exact fun heq => by cases heq
  simp only [writei, bind_eq, eval_bind, eval_onFst, eval_read,
    Option.map_some, Except.map, ← hcopy, if_neg hdev, wraps_iff]
  by_cases hfits : Fits (s.node i).size off.toNat n.toNat
  · rw [Layout.cost, if_pos hfits]
    obtain ⟨hoff, hwrap, hmax⟩ := hfits
    have hlen : (src.take n.toNat).length = n.toNat := by rw [length_take]; omega
    rw [if_neg (by omega), if_neg (by rw [toNat_add_of_lt hwrap]; omega)]
    simp only [eval_bind]
    rcases writeiLoop_logs h.owned hv ht hlen.le (hlen.symm ▸ hmax) ∅ with
      hout | ⟨t, L, hok, hlogs⟩
    · exact .inl (by rw [hout])
    rw [hok]
    rw [hlen] at hlogs
    have hready := h.of_frame hlogs.owned hlogs.frame
    have hvt := hready.valid rfl
    have hsize : (t.copy i).size = (s.node i).size := by
      rw [← node_of_valid hvt, hlogs.frame.size]
    simp only [eval_onFst, eval_read, Option.map_some, Except.map, hsize]
    split_ifs with hgrow
    · have hnot : lay.iblock i ∉ L := hlogs.notMem (lt_of_le_of_lt
        (Nat.add_le_add_right (Nat.div_le_div_right hi.le) _) lay.inodes_lt)
      refine .inr ⟨_, t.grow i (off.toNat + n.toNat), insert (lay.iblock i) L, ?_, .inr rfl,
        hready.grow _, ?_⟩
      · simp [Prog.eval_bind, Prog.eval_onFst, iupdate, Fs.iupdate, logWrite, State.grow,
          State.copy, State.setCopy, State.setEntry, State.setDinode, Except.map]
      · rw [Finset.card_insert_of_notMem hnot, hlogs.card]
    · exact .inr ⟨_, t, L, rfl, .inr rfl, hready, hlogs.card⟩
  · have hcost : lay.cost s i off.toNat n.toNat = 0 := if_neg hfits
    refine .inr ⟨.fail, s, ∅, ?_, .inl rfl, h, hcost.symm⟩
    split_ifs with hwrap hmax
    · rfl
    · rfl
    · rw [not_or, not_lt, not_le] at hwrap
      rw [toNat_add_of_lt hwrap.2, not_lt] at hmax
      exact absurd ⟨hwrap.1, hwrap.2, hmax⟩ hfits

/-- **How many blocks a transaction logs.** -/
theorem transaction_logs (h : Ready lay.toSuper i false s) (hi : i < lay.ninodes)
    (devwrite : ℤ → Bool) (hlen : src.length < 2 ^ 32) (off : UInt32) :
    (transaction lay devwrite i src off).eval (s, ∅) = some (.error .outOfBlocks) ∨
      ∃ r s' L, (transaction lay devwrite i src off).eval (s, ∅) = some (.ok (r, s', L)) ∧
        (r = .fail ∨ r = .done src.length ()) ∧ Ready lay.toSuper i false s' ∧
        L.card = lay.cost s i off.toNat src.length := by
  obtain ⟨s₁, hlock, hready, hsame⟩ := ilock_eval h
  have hn : (UInt32.ofNat src.length).toNat = src.length := by
    rw [UInt32.toNat_ofNat', Nat.mod_eq_of_lt hlen]
  rw [← lay.cost_congr (congrFun hsame.node i) hsame.own hsame.bitmap]
  simp only [transaction, bind_eq, eval_bind, eval_onFst, hlock, Option.map_some, Except.map]
  rcases writei_logs hready hi devwrite off (.ofNat src.length) hn.le with
    hout | ⟨r, s₂, L, hok, hr, hready', hcard⟩
  · exact .inl (by rw [hout])
  obtain ⟨s', hunlock, hready'', -⟩ := iunlock_eval hready'
  rw [hn] at hr hcard
  refine .inr ⟨r, s', L, ?_, hr, hready'', hcard⟩
  rw [hok]
  simp only [hunlock, Option.map_some, pure_eq, eval_ret]

/-- **How many blocks each transaction of `filewrite` logs.** -/
theorem filewriteLoop_logs (hi : i < lay.ninodes) (devwrite : ℤ → Bool) {k : ℕ} {off : UInt32}
    (h : Ready lay.toSuper i false s) :
    ∀ tx ∈ filewriteLoop lay devwrite i k src off s,
      tx.log.card = lay.cost tx.start i tx.off.toNat tx.src.length := by
  induction k generalizing src off s with
  | zero => exact fun tx htx => absurd htx not_mem_nil
  | succ k ih =>
    intro tx htx
    rw [filewriteLoop] at htx
    split_ifs at htx with hlen
    · exact absurd htx not_mem_nil
    have hchunk : (src.take Sysfile.Sys.maxWrite).length < 2 ^ 32 :=
      (length_take_le _ _).trans_lt (by decide)
    rcases transaction_logs h hi devwrite hchunk off with hout | ⟨r, s', L, hok, hr, h', hcard⟩
    · simp only [hout] at htx
      exact absurd htx not_mem_nil
    simp only [hok, mem_cons] at htx
    rcases htx with rfl | htx
    · exact hcard
    · rcases hr with rfl | rfl
      · exact absurd htx not_mem_nil
      · simp only [ne_eq, not_true_eq_false, if_false] at htx
        exact ih h' tx htx

/-- **Which calls of `filewrite` keep to their reservations.** -/
theorem filewrite_fits_iff {lay : Layout} (h : Ready lay.toSuper i false s) (hi : i < lay.ninodes)
    (devwrite : ℤ → Bool) (src : List UInt8) (off : UInt32) :
    (∀ tx ∈ filewrite lay devwrite i src off s, tx.log.card ≤ Log.maxopblocks) ↔
      ∀ tx ∈ filewrite lay devwrite i src off s,
        lay.cost tx.start i tx.off.toNat tx.src.length ≤ Log.maxopblocks := by
  refine forall₂_congr fun tx htx => ?_
  rw [filewriteLoop_logs hi devwrite h tx htx]

end Tx

/-! ### A disk made by `mkfs` -/

theorem mkfs_size_lt : 1000 < 2 ^ 32 := by decide

/-- The layout of `mkfs`: 1000 blocks and 200 inodes. -/
def mkfsLayout : Layout := ⟨⟨1000, mkfs_size_lt, 200, by decide, 58⟩, 32, by decide⟩

/-- The root directory with a block and an empty file, which is open. -/
def mkfsState : State where
  bitmap := fun b => decide (b < 60)
  data := fun _ _ => 0
  dinode := fun i => if i = 1 then ⟨.dir, 0, 0, 1, 512, fun k => if k = 0 then 59 else 0⟩
    else if i = 2 then ⟨.file, 0, 0, 1, 0, fun _ => 0⟩ else .new .free
  icache := fun i => ⟨if i = 2 then 1 else 0, false, false, .new .free⟩

theorem mkfsState_own (k : ℕ × Place) :
    mkfsState.own k = if k = (1, .direct 0) then 59 else 0 := by
  obtain ⟨i, pl⟩ := k
  simp only [State.own, State.node, mkfsState, Bool.false_eq_true, if_false]
  by_cases h1 : i = 1
  · subst h1
    cases pl with
    | direct k => simp [addrOf, Fin.val_eq_zero_iff]
    | indirect => simp [addrOf]
    | entry e => simp [addrOf]
  · by_cases h2 : i = 2
    · subst h2
      cases pl with
      | direct k => simp [addrOf]
      | indirect => simp [addrOf]
      | entry e => simp [addrOf]
    · simp [h1, h2, Dinode.new]

theorem mkfsState_ready : Ready mkfsLayout.toSuper 2 false mkfsState := by
  refine ⟨⟨by decide, fun k hk => ?_, fun k k' hk heq => ?_, fun b hb => ?_⟩, by decide, rfl,
    (fun hb => by cases hb), rfl⟩
  · rw [mkfsState_own] at hk ⊢
    split_ifs at hk ⊢
    · decide
    · exact absurd rfl hk
  · rw [mkfsState_own] at hk heq
    rw [mkfsState_own] at heq
    split_ifs at hk heq with h1 h2
    · rw [h1, h2]
    · exact absurd rfl hk
  · have hmeta : mkfsLayout.nmeta = 59 := by decide
    have hbit : mkfsState.bitmap b = decide (b < 60) := rfl
    simp only [mkfsState_own, hmeta, hbit, decide_eq_true_eq]
    constructor
    · intro hlt
      by_cases h59 : b = 59
      · exact .inr ⟨(1, .direct 0), by rw [if_pos rfl, h59]⟩
      · exact .inl (by omega)
    · rintro (hlt | ⟨k, hk⟩)
      · omega
      · split_ifs at hk <;> omega

/-- Three bytes are written to the empty file: a data block, the bitmap block and the inode. -/
theorem filewrite_fits_three :
    Ready mkfsLayout.toSuper 2 false mkfsState ∧
      ∀ tx ∈ Tx.filewrite mkfsLayout (fun _ => false) 2 [7, 8, 9] 0 mkfsState,
        tx.log.card ≤ Log.maxopblocks := by
  refine ⟨mkfsState_ready, (Tx.filewrite_fits_iff mkfsState_ready (by decide) _ _ _).mpr ?_⟩
  decide +kernel

/-- **A full chunk does not fit.** A write of 13 blocks to the empty file is one transaction, and it
logs 16 blocks: the data, the indirect block, the bitmap block and the inode. -/
theorem filewrite_exceeds_reservation :
    Ready mkfsLayout.toSuper 2 false mkfsState ∧
      (Tx.filewrite mkfsLayout (fun _ => false) 2 (List.replicate 6656 0) 0 mkfsState).map
        (fun tx => tx.log.card) = [16] ∧
      ¬∀ tx ∈ Tx.filewrite mkfsLayout (fun _ => false) 2 (List.replicate 6656 0) 0 mkfsState,
        tx.log.card ≤ Log.maxopblocks := by
  have hrun : (Tx.filewrite mkfsLayout (fun _ => false) 2 (List.replicate 6656 0) 0 mkfsState).map
      (fun tx => tx.log.card) = [16] := by decide +kernel
  refine ⟨mkfsState_ready, hrun, fun hall => ?_⟩
  obtain ⟨tx, htx, hcard⟩ := mem_map.mp (hrun ▸ mem_singleton_self 16)
  exact absurd (hall tx htx) (by rw [hcard]; decide)

end Xv6.Fs
