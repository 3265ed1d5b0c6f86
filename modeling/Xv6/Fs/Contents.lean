import Xv6.File.Read
import Xv6.Fs.Blocks
import Xv6.Library.Frame

/-!
# Files are byte arrays

What `readi` and `writei` mean for a process that has the inode locked: the contents of an inode are
a list of bytes, as long as its size says. `writei` stores bytes in it and may make it longer;
`readi` reads from it. Blocks, block boundaries, the indirect block and the allocator are not
visible in this view.

## Main definitions

* `State.content` — the contents of an inode
* `Wf` — a file system in which all blocks of files are there

## Main results

* `bmap_eval` of the previous file gives `writeiLoop_eval`, and `bmap_looks` gives
  `readiLoop_looks`, by induction on the rounds of the loops
* `inode_is_byte_array` — what `readi` and `writei` return and do, for all arguments
* `readi_refines` — blocks are read as the model of `read` says
-/

namespace Xv6.Fs

open ByteMemory List State Prog

/-- Byte `k` of an inode. -/
def State.byte (s : State) (i k : ℕ) : UInt8 := s.block i (k / bsize) (k % bsize)

/-- The contents of an inode. -/
def State.content (s : State) (i : ℕ) : List UInt8 := (List.range (s.node i).size).map (s.byte i)

/-- A file system in which every file block below an inode's size is there. -/
structure Wf (sb : Super) (s : State) : Prop where
  owned : Owned sb s
  filled : ∀ i, (s.node i).type ≠ .free → ∀ bn, bn * bsize < (s.node i).size →
    s.own (i, .ofBlock bn) ≠ 0
  size_le : ∀ i, (s.node i).type ≠ .free → (s.node i).size ≤ maxfile * bsize

/-- Contents with other bytes from some place on. -/
def patch (C : List UInt8) (off : ℕ) (src : List UInt8) : List UInt8 :=
  C.take off ++ src ++ C.drop (off + src.length)

variable {off : ℕ}

theorem length_patch {C src : List UInt8} (h : off ≤ C.length) :
    (patch C off src).length = max C.length (off + src.length) := by
  simp only [patch, length_append, length_take, length_drop]
  omega

variable {sb : Super} {s s' t : State} {i : ℕ}

@[simp] theorem length_content (s : State) (i : ℕ) : (s.content i).length = (s.node i).size := by
  simp [content]

/-- The same inodes with the same blocks. -/
structure SameFiles (s t : State) : Prop where
  node : t.node = s.node
  own : t.own = s.own
  bitmap : t.bitmap = s.bitmap
  data : t.data = s.data

theorem SameFiles.setEntry {e : Entry}
    (he : (if e.valid then e.copy else s.dinode i) = s.node i) : SameFiles s (s.setEntry i e) :=
  ⟨node_setEntry he, own_setEntry he, rfl, rfl⟩

theorem SameFiles.content (h : SameFiles s t) (j : ℕ) : t.content j = s.content j := by
  have hblock : ∀ bn, t.block j bn = s.block j bn := fun bn => by
    rw [State.block, State.block, h.own, h.data]
  rw [State.content, State.content, h.node]
  exact map_congr_left fun k _ => congrFun (hblock _) _

theorem SameFiles.wf (h : SameFiles s t) (hwf : Wf sb s) : Wf sb t := by
  refine ⟨?_, ?_, ?_⟩
  · rw [Owned, h.own, h.bitmap]
    exact hwf.owned
  · rw [h.node, h.own]
    exact hwf.filled
  · rw [h.node]
    exact hwf.size_le

/-! ### Writing -/

/-- The bytes of `src` have been written to inode `i` from `off` on. Nothing has been done about its
size. -/
structure Writes (sb : Super) (i off : ℕ) (src : List UInt8) (s s' : State) : Prop where
  owned : Owned sb s'
  grows : ∀ k, s.own k ≠ 0 → s'.own k ≠ 0
  filled : ∀ k, off ≤ k → k < off + src.length → s'.own (i, .ofBlock (k / bsize)) ≠ 0
  byte : ∀ k < maxfile * bsize, s'.byte i k = place (s.byte i) off src k
  other : ∀ j ≠ i, ∀ bn, s'.block j bn = s.block j bn
  frame : Frame i s s'

theorem Writes.nil (h : Owned sb s) (off : ℕ) : Writes sb i off [] s s where
  owned := h
  grows := fun _ hk => hk
  filled := fun k hk hk' => absurd hk' (by simpa using hk)
  byte := fun k _ => (place_of_notMem (by simp only [length_nil]; omega)).symm
  other := fun _ _ _ => rfl
  frame := .of_eq rfl rfl

theorem Writes.append {src src' : List UInt8} (h : Writes sb i off src s t)
    (h' : Writes sb i (off + src.length) src' t s') : Writes sb i off (src ++ src') s s' where
  owned := h'.owned
  grows := fun k hk => h'.grows k (h.grows k hk)
  filled := fun k hk hk' => by
    rw [length_append] at hk'
    by_cases hlt : k < off + src.length
    · exact h'.grows _ (h.filled k hk hlt)
    · exact h'.filled k (by omega) (by omega)
  byte := fun k hk => by
    rw [h'.byte k hk, ← place_append]
    -- the second write sees the bytes of the first
    simp only [place, h.byte k hk]
  other := fun j hj bn => (h'.other j hj bn).trans (h.other j hj bn)
  frame := h.frame.trans h'.frame

theorem div_eq_of_mem {b off len k : ℕ} (hlen : off % b + len ≤ b) (h : off ≤ k)
    (h' : k < off + len) : k / b = off / b := by
  have hdiv := Nat.div_add_mod off b
  have hcomm : b * (off / b) = off / b * b := Nat.mul_comm _ _
  refine Nat.div_eq_of_lt_le (by omega) ?_
  rw [Nat.succ_mul]
  omega

theorem block_setData (h : Owned sb s) {bn : ℕ} (hbn : s.own (i, .ofBlock bn) ≠ 0) (d : Block)
    (j bn' : ℕ) : (s.setData (s.own (i, .ofBlock bn)) d).block j bn' =
      if (j, Place.ofBlock bn') = (i, Place.ofBlock bn) then d else s.block j bn' := by
  have hown : (s.setData (s.own (i, .ofBlock bn)) d).own = s.own := by
    refine own_setData fun j heq => ?_
    exact Place.ofBlock_ne_indirect bn (congrArg Prod.snd (h.inj _ _ hbn heq.symm))
  rw [block, hown]
  split_ifs with h0 heq heq
  · rw [heq] at h0
    exact absurd h0 hbn
  · rw [block, if_pos h0]
  · rw [heq]
    exact Function.update_self ..
  · rw [block_of_ne_zero h0]
    exact Function.update_of_ne (fun he => heq (h.inj _ _ h0 he)) ..

variable {src : List UInt8}

/-- One round of `writei`: the bytes for one block. -/
theorem Writes.block (h : Owned sb s)
    (hb : s.own (i, .ofBlock (off / bsize)) ≠ 0) (hlen : off % bsize + src.length ≤ bsize)
    (hmax : off / bsize < maxfile) :
    Writes sb i off src s (s.setData (s.own (i, .ofBlock (off / bsize)))
      (place (s.data (s.own (i, .ofBlock (off / bsize)))) (off % bsize) src)) := by
  have hown : (s.setData (s.own (i, .ofBlock (off / bsize)))
      (place (s.data (s.own (i, .ofBlock (off / bsize)))) (off % bsize) src)).own = s.own := by
    refine own_setData fun j heq => ?_
    exact Place.ofBlock_ne_indirect _ (congrArg Prod.snd (h.inj _ _ hb heq.symm))
  have hbs : 0 < bsize := by decide
  refine ⟨?_, fun k hk => by rwa [hown], fun k hk hk' => ?_, fun k hk => ?_, fun j hj bn => ?_,
    .of_eq rfl rfl⟩
  · rw [Owned, hown]
    exact h
  · rw [hown, div_eq_of_mem hlen hk hk']
    exact hb
  · rw [State.byte, block_setData h hb]
    split_ifs with heq
    · have hdiv : k / bsize = off / bsize :=
        Place.ofBlock_inj ((Nat.div_lt_iff_lt_mul hbs).mpr hk) hmax (congrArg Prod.snd heq)
      have hoff := Nat.div_add_mod off bsize
      have hkm := Nat.div_add_mod k bsize
      have hsub : k % bsize - off % bsize = k - off := by rw [hdiv] at hkm; omega
      have hiff : off % bsize ≤ k % bsize ∧ k % bsize < off % bsize + src.length ↔
          off ≤ k ∧ k < off + src.length := by rw [hdiv] at hkm; omega
      simp only [place, hiff, hsub, State.byte, ← block_of_ne_zero hb, hdiv]
    · refine Eq.symm (place_of_notMem (b := s.byte i) ?_)
      by_contra hmem
      refine heq (Prod.ext rfl (congrArg Place.ofBlock (div_eq_of_mem hlen ?_ ?_)))
      · omega
      · omega
  · rw [block_setData h hb, if_neg fun heq => hj (congrArg Prod.fst heq)]

theorem Maps.writes (h : Maps sb i s t) (off : ℕ) : Writes sb i off [] s t where
  owned := h.owned
  grows := fun k hk => (h.grows k hk).symm ▸ hk
  filled := fun k hk hk' => absurd hk' (by simpa using hk)
  byte := fun k _ => by
    rw [place_of_notMem (by simp only [length_nil]; omega), byte, byte, h.block]
  other := fun j _ bn => h.block j bn
  frame := h.frame

/-- **The loop of `writei`** writes all bytes, unless there are no blocks left. -/
theorem writeiLoop_eval {fuel off : ℕ} (hfuel : src.length ≤ fuel)
    (h : Owned sb s) (hv : (s.icache i).valid = true) (ht : (s.node i).type ≠ .free)
    (hmax : off + src.length ≤ maxfile * bsize) :
    (writeiLoop sb i fuel off src).eval s = some (.error .outOfBlocks) ∨
      ∃ s', (writeiLoop sb i fuel off src).eval s = some (.ok ((), s')) ∧
        Writes sb i off src s s' := by
  induction fuel generalizing off src s with
  | zero =>
    obtain rfl : src = [] := length_eq_zero_iff.mp (by omega)
    exact .inr ⟨s, rfl, .nil h off⟩
  | succ fuel ih =>
    rw [writeiLoop]
    split_ifs with hlen
    · obtain rfl : src = [] := length_eq_zero_iff.mp hlen
      exact .inr ⟨s, rfl, .nil h off⟩
    have hbs : 0 < bsize := by decide
    have hmod := Nat.mod_lt off hbs
    have hbn : off / bsize < maxfile := (Nat.div_lt_iff_lt_mul hbs).mpr (by omega)
    generalize hm : min src.length (bsize - off % bsize) = m
    have htake : (src.take m).length = m := by rw [length_take]; omega
    have hdrop : (src.drop m).length = src.length - m := length_drop
    simp only [bind_eq, eval_bind]
    rcases bmap_eval h hv ht hbn with ⟨-, hout⟩ | ⟨b, t, hok, hb, hown, hmaps, -⟩
    · exact .inl (by rw [hout])
    rw [hok]
    simp only [eval_modify]
    subst hown
    have hblock := Writes.block hmaps.owned hb
      (show off % bsize + (src.take m).length ≤ bsize by omega) hbn
    have hw := (hmaps.writes off).append hblock
    rw [nil_append] at hw
    rcases ih (show (src.drop m).length ≤ fuel by omega) hw.owned (hw.frame.valid.trans hv)
      (hw.frame.type i ▸ ht) (show off + m + (src.drop m).length ≤ _ by omega) with
      hout | ⟨s', hok', hw'⟩
    · exact .inl hout
    · refine .inr ⟨s', hok', ?_⟩
      rw [← take_append_drop m src]
      exact hw.append (by rwa [htake])

/-! ### Reading -/

theorem bmapAddr_looks {pl : Place} {k : ℕ} (haddr : (s.copy i).addrs k = s.own (i, pl))
    (hb : s.own (i, pl) ≠ 0) : (bmapAddr sb i k).Looks s (s.own (i, pl)) := by
  refine .bind (.read _ s) ?_
  rw [haddr, if_neg hb]
  exact rfl

theorem bmap_looks (hv : (s.icache i).valid = true) {bn : ℕ} (hbn : bn < maxfile)
    (hb : s.own (i, .ofBlock bn) ≠ 0) : (bmap sb i bn).Looks s (s.own (i, .ofBlock bn)) := by
  have ht : (s.node i).type ≠ .free := fun h => hb (if_pos h)
  by_cases hdir : bn < ndirect
  · rw [Place.ofBlock, dif_pos hdir] at hb ⊢
    rw [bmap, if_pos hdir]
    refine bmapAddr_looks ?_ hb
    rw [own_of_type ht, node_of_valid hv, addrOf]
  have he : bn - ndirect < nindirect := by
    simp only [maxfile, nindirect, ndirect] at *
    omega
  rw [Place.ofBlock_entry hdir he] at hb ⊢
  rw [bmap, if_neg hdir, if_pos he]
  have hind := own_indirect_of_entry hb
  refine .bind (bmapAddr_looks ?_ hind) (.bind (.read _ s) ?_)
  · rw [own_indirect ht, node_of_valid hv]
  have haddr : load32 (s.data (s.own (i, .indirect))) (4 * (bn - ndirect)) =
      s.own (i, .entry ⟨bn - ndirect, he⟩) := by
    rw [own_of_type ht (.entry _), addrOf, ← own_indirect ht, if_neg hind]
  rw [haddr, if_neg hb]
  exact rfl

/-- **The loop of `readi`** reads the bytes, and changes nothing if their blocks are there. -/
theorem readiLoop_looks {fuel off left : ℕ} (hfuel : left ≤ fuel) (hv : (s.icache i).valid = true)
    (hfilled : ∀ k, off ≤ k → k < off + left → s.own (i, .ofBlock (k / bsize)) ≠ 0)
    (hmax : off + left ≤ maxfile * bsize) : (readiLoop sb i fuel off left).Looks s
      ((List.range left).map fun j => s.byte i (off + j)) := by
  induction fuel generalizing off left with
  | zero =>
    obtain rfl : left = 0 := by omega
    exact rfl
  | succ fuel ih =>
    rw [readiLoop]
    split_ifs with hleft
    · subst hleft
      exact rfl
    have hbs : 0 < bsize := by decide
    have hmod := Nat.mod_lt off hbs
    have hbn : off / bsize < maxfile := (Nat.div_lt_iff_lt_mul hbs).mpr (by omega)
    have hb : s.own (i, .ofBlock (off / bsize)) ≠ 0 := hfilled off le_rfl (by omega)
    generalize hm : min left (bsize - off % bsize) = m
    refine .bind (bmap_looks hv hbn hb) (.bind (.read _ s) (.bind (ih (by omega)
      (fun k hk hk' => hfilled k (by omega) (by omega)) (by omega)) ?_))
    have hround : (List.range m).map (fun j => s.data (s.own (i, .ofBlock (off / bsize)))
        (off % bsize + j)) = (List.range m).map fun j => s.byte i (off + j) := by
      refine map_congr_left fun j hj => ?_
      have hj' := mem_range.mp hj
      have hdiv : (off + j) / bsize = off / bsize :=
        div_eq_of_mem (show off % bsize + m ≤ bsize by omega) (by omega) (by omega)
      have hoff := Nat.div_add_mod off bsize
      have hoj := Nat.div_add_mod (off + j) bsize
      rw [hdiv] at hoj
      rw [byte, hdiv, block_of_ne_zero hb, show (off + j) % bsize = off % bsize + j by omega]
    obtain ⟨rest, rfl⟩ : ∃ rest, left = m + rest := ⟨left - m, by omega⟩
    show _ ++ _ = _
    rw [hround, range_add, map_append, map_map, Nat.add_sub_cancel_left]
    simp only [Function.comp_def, Nat.add_assoc]

/-! ### The contents -/

theorem map_place (f : ℕ → UInt8) {n off : ℕ} (h : off ≤ n) :
    (List.range (max n (off + src.length))).map (place f off src) =
      patch ((List.range n).map f) off src := by
  refine ext_getElem (by rw [length_patch (by simpa using h)]; simp) fun k hk hk' => ?_
  rw [length_map, length_range] at hk
  rw [getElem_map, getElem_range]
  simp only [patch]
  by_cases h1 : k < off
  · rw [place_of_notMem (by omega), getElem_append_left (by simp; omega),
      getElem_append_left (by simp; omega)]
    simp
  by_cases h2 : k < off + src.length
  · rw [place_of_mem (by omega) h2, getElem_append_left (by simp; omega),
      getElem_append_right (by simp; omega)]
    have hoff : min off n = off := min_eq_left h
    simp only [length_take, length_map, length_range, hoff]
    exact getD_eq_getElem _ _ (by omega)
  · have hlen : ((List.range n).map f).length = n := by simp
    rw [place_of_notMem (by omega), getElem_append_right (by simp; omega)]
    simp only [getElem_drop, getElem_map, getElem_range, length_append, length_take, hlen]
    exact congrArg f (by omega)

/-- The inode is longer, in memory and on the disk. -/
def State.grow (s : State) (i size : ℕ) : State :=
  (s.setCopy i { s.copy i with size := size }).setDinode i { s.copy i with size := size }

theorem node_grow (hv : (s.icache i).valid = true) (m : ℕ) :
    (s.grow i m).node i = { s.node i with size := m } := by
  simp [node, grow, setCopy, setEntry, setDinode, copy, hv]

theorem node_grow_of_ne {j : ℕ} (hj : j ≠ i) (m : ℕ) : (s.grow i m).node j = s.node j := by
  simp [node, grow, setCopy, setEntry, setDinode, copy, hj]

theorem own_grow (hv : (s.icache i).valid = true) (m : ℕ) : (s.grow i m).own = s.own := by
  funext k
  by_cases hk : k.1 = i
  · refine own_congr ?_ ?_ fun _ => rfl
    · rw [hk, node_grow hv]
    · rw [hk, node_grow hv]
  · refine own_congr ?_ ?_ fun _ => rfl
    · rw [node_grow_of_ne hk]
    · rw [node_grow_of_ne hk]

theorem block_grow (hv : (s.icache i).valid = true) (m j bn : ℕ) :
    (s.grow i m).block j bn = s.block j bn := by
  rw [block, own_grow hv]
  rfl

/-- The bytes have been written, and the size is what it has to be. -/
structure Written (sb : Super) (i off : ℕ) (src : List UInt8) (s s' : State) : Prop where
  wf : Wf sb s'
  content : s'.content i = patch (s.content i) off src
  other : ∀ j ≠ i, s'.content j = s.content j

/-- **What a write does to the contents**, when the blocks have been written and the size set. -/
theorem Writes.written (hw : Writes sb i off src s t) (h : Wf sb s)
    (ht : (s.node i).type ≠ .free) (hoff : off ≤ (s.node i).size)
    (hmax : off + src.length ≤ maxfile * bsize) (hown : s'.own = t.own)
    (hbit : s'.bitmap = t.bitmap) (hblock : ∀ j bn, s'.block j bn = t.block j bn)
    (hnode : ∀ j ≠ i, s'.node j = t.node j) (htype : (s'.node i).type = (t.node i).type)
    (hsize : (s'.node i).size = max (s.node i).size (off + src.length)) :
    Written sb i off src s s' := by
  have hle := h.size_le i ht
  have htypes : ∀ j, (s'.node j).type = (s.node j).type := fun j => by
    by_cases hj : j = i
    · rw [hj, htype, hw.frame.type]
    · rw [hnode j hj, hw.frame.type]
  have hsizes : ∀ j ≠ i, (s'.node j).size = (s.node j).size := fun j hj => by
    rw [hnode j hj, hw.frame.size]
  refine ⟨⟨?_, fun j hj bn hbn => ?_, fun j hj => ?_⟩, ?_, fun j hj => ?_⟩
  · rw [Owned, hown, hbit]
    exact hw.owned
  · rw [htypes] at hj
    rw [hown]
    by_cases hji : j = i
    · subst hji
      rw [hsize] at hbn
      by_cases hold : bn * bsize < (s.node j).size
      · exact hw.grows _ (h.filled j hj bn hold)
      · -- the block is one of those written to
        have hfilled := hw.filled (bn * bsize) (by omega) (by omega)
        rwa [Nat.mul_div_cancel _ (by decide : 0 < bsize)] at hfilled
    · rw [hsizes j hji] at hbn
      exact hw.grows _ (h.filled j hj bn hbn)
  · rw [htypes] at hj
    by_cases hji : j = i
    · subst hji
      rw [hsize]
      omega
    · rw [hsizes j hji]
      exact h.size_le j hj
  · rw [content, content, hsize, ← map_place _ hoff]
    refine map_congr_left fun k hk => ?_
    have hk' := mem_range.mp hk
    rw [State.byte, hblock]
    exact hw.byte k (by omega)
  · rw [State.content, State.content, hsizes j hj]
    refine map_congr_left fun k _ => ?_
    rw [State.byte, State.byte, hblock, hw.other j hj]

theorem take_drop_content (s : State) (i off n : ℕ) : ((s.content i).drop off).take n =
      (List.range (min n ((s.node i).size - off))).map fun j => s.byte i (off + j) := by
  refine ext_getElem (by simp) fun k hk hk' => ?_
  simp only [content, getElem_take, getElem_drop, getElem_map, getElem_range]

theorem wraps_iff (off n : UInt32) :
    (off + n).toNat < off.toNat ↔ 2 ^ 32 ≤ off.toNat + n.toNat := by
  have hoff := off.toNat_lt
  have hn := n.toNat_lt
  rw [UInt32.toNat_add]
  omega

theorem toNat_add_of_lt {off n : UInt32} (h : off.toNat + n.toNat < 2 ^ 32) :
    (off + n).toNat = off.toNat + n.toNat := by
  rw [UInt32.toNat_add]
  exact Nat.mod_eq_of_lt h

/-- When `writei` accepts its arguments. -/
def Fits (size off n : ℕ) : Prop := off ≤ size ∧ off + n < 2 ^ 32 ∧ off + n ≤ maxfile * bsize

section

variable (h : Wf sb s) (hv : (s.icache i).valid = true) (ht : (s.node i).type ≠ .free)
  (hdev : (s.node i).type ≠ .dev) (off n : UInt32)

include hv hdev

theorem writei_eval_of_not_fits (devwrite : ℤ → Bool) (src : List UInt8)
    (hfits : ¬Fits (s.node i).size off.toNat n.toNat) :
    (writei sb devwrite i src off n).eval s = some (.ok (.fail, s)) := by
  rw [node_of_valid hv] at hdev hfits
  simp only [writei, bind_eq, eval_bind, eval_read, if_neg hdev, wraps_iff]
  split_ifs with hwrap hmax
  · rfl
  · rfl
  · rw [not_or, not_lt, not_le] at hwrap
    rw [toNat_add_of_lt hwrap.2, not_lt] at hmax
    exact absurd ⟨hwrap.1, hwrap.2, hmax⟩ hfits

include h ht

theorem writei_eval_of_fits (devwrite : ℤ → Bool) (hsrc : n.toNat ≤ src.length)
    (hfits : Fits (s.node i).size off.toNat n.toNat) :
    (writei sb devwrite i src off n).eval s = some (.error .outOfBlocks) ∨
      ∃ s', (writei sb devwrite i src off n).eval s = some (.ok (.done n.toNat (), s')) ∧
        Written sb i off.toNat (src.take n.toNat) s s' ∧ (s'.icache i).valid = true ∧
        (s'.node i).type = (s.node i).type := by
  obtain ⟨hoff, hwrap, hmax⟩ := hfits
  have hlen : (src.take n.toNat).length = n.toNat := by rw [length_take]; omega
  have hcopy := node_of_valid hv
  simp only [writei, bind_eq, eval_bind, eval_read, ← hcopy, if_neg hdev, wraps_iff]
  rw [if_neg (by omega), if_neg (by rw [toNat_add_of_lt hwrap]; omega)]
  simp only [eval_bind]
  rcases writeiLoop_eval hlen.le h.owned hv ht (hlen.symm ▸ hmax) with hout | ⟨t, hok, hw⟩
  · exact .inl (by rw [hout])
  rw [hok]
  have hvt : (t.icache i).valid = true := hw.frame.valid.trans hv
  have hsize : (t.copy i).size = (s.node i).size := by
    rw [← node_of_valid hvt, hw.frame.size]
  simp only [eval_read, hsize]
  split_ifs with hgrow
  · refine .inr ⟨t.grow i (off.toNat + n.toNat), ?_, ?_, ?_, ?_⟩
    · simp only [eval_bind, eval_modify, iupdate, pure_eq, eval_ret]
      simp [grow, copy, setCopy, setEntry, setDinode]
    · refine hw.written h ht hoff (hlen.symm ▸ hmax) (own_grow hvt _) rfl (block_grow hvt _)
        (fun j hj => node_grow_of_ne hj _) ?_ ?_
      · rw [node_grow hvt]
      · rw [node_grow hvt, hlen]
        exact (max_eq_right hgrow.2.le).symm
    · simpa [grow, setDinode, setCopy, setEntry] using hvt
    · rw [node_grow hvt]
      exact hw.frame.type i
  · refine .inr ⟨t, rfl, hw.written h ht hoff (hlen.symm ▸ hmax) rfl rfl (fun _ _ => rfl)
      (fun _ _ => rfl) rfl ?_, hvt, hw.frame.type i⟩
    rw [hw.frame.size, hlen]
    omega

variable (sb) in
omit h ht in
theorem readi_looks (devread : ℤ → Bool)
    (hfilled : ∀ bn, bn * bsize < (s.node i).size → s.own (i, .ofBlock bn) ≠ 0)
    (hle : (s.node i).size ≤ maxfile * bsize) : (readi sb devread i off n).Looks s
      (if off.toNat ≤ (s.node i).size ∧ off.toNat + n.toNat < 2 ^ 32 then
        .done (min n.toNat ((s.node i).size - off.toNat))
          (((s.content i).drop off.toNat).take n.toNat) else .fail) := by
  have hcopy := node_of_valid hv
  refine .bind (.read _ s) ?_
  simp only [← hcopy, if_neg hdev, wraps_iff]
  by_cases hok : off.toNat ≤ (s.node i).size ∧ off.toNat + n.toNat < 2 ^ 32
  · have hn : (if (off + n).toNat > (s.node i).size then (s.node i).size - off.toNat
        else n.toNat) = min n.toNat ((s.node i).size - off.toNat) := by
      rw [toNat_add_of_lt hok.2]
      split_ifs <;> omega
    rw [if_pos hok, if_neg (by omega), hn, take_drop_content]
    refine .bind (readiLoop_looks le_rfl hv (fun k _ hk' => ?_) (by omega)) rfl
    exact hfilled _ (lt_of_le_of_lt (Nat.div_mul_le_self k bsize) (by omega))
  · rw [if_neg hok, if_pos (by omega)]
    exact rfl

theorem readi_eval (devread : ℤ → Bool) : (readi sb devread i off n).eval s =
      if off.toNat ≤ (s.node i).size ∧ off.toNat + n.toNat < 2 ^ 32 then
        some (.ok (.done (min n.toNat ((s.node i).size - off.toNat))
          (((s.content i).drop off.toNat).take n.toNat), s)) else some (.ok (.fail, s)) := by
  rw [(readi_looks sb hv hdev off n devread (h.filled i ht) (h.size_le i ht)).eval]
  split_ifs <;> rfl

end

/-- **Files are byte arrays.** For an inode that is valid in memory and is not a device, and for all
offsets, lengths and bytes: if the offset is not beyond the end, the sum of offset and length does
not wrap around and the file does not get too long, then `writei` stores the bytes, unless the
blocks run out; otherwise it fails and changes nothing. `readi` reads what there is if the offset is
not beyond the end and the sum does not wrap around, fails otherwise, and never changes anything. -/
theorem inode_is_byte_array (h : Wf sb s) (hv : (s.icache i).valid = true)
    (htype : (s.node i).type = .file ∨ (s.node i).type = .dir) (devread devwrite : ℤ → Bool)
    (off n : UInt32) :
    (∀ src : List UInt8, n.toNat ≤ src.length →
      (writei sb devwrite i src off n).eval s ≠ some (.error .outOfBlocks) →
      (Fits (s.content i).length off.toNat n.toNat →
        ∃ s', (writei sb devwrite i src off n).eval s = some (.ok (.done n.toNat (), s')) ∧
          s'.content i = patch (s.content i) off.toNat (src.take n.toNat) ∧
          (s'.content i).length = max (s.content i).length (off.toNat + n.toNat) ∧
          (∀ j ≠ i, s'.content j = s.content j) ∧ Wf sb s') ∧
      (¬Fits (s.content i).length off.toNat n.toNat →
        (writei sb devwrite i src off n).eval s = some (.ok (.fail, s)))) ∧
    (off.toNat ≤ (s.content i).length ∧ off.toNat + n.toNat < 2 ^ 32 →
      (readi sb devread i off n).eval s =
        some (.ok (.done (min n.toNat ((s.content i).length - off.toNat))
          (((s.content i).drop off.toNat).take n.toNat), s))) ∧
    (¬(off.toNat ≤ (s.content i).length ∧ off.toNat + n.toNat < 2 ^ 32) →
      (readi sb devread i off n).eval s = some (.ok (.fail, s))) := by
  have ht : (s.node i).type ≠ .free := by rcases htype with h | h <;> simp [h]
  have hdev : (s.node i).type ≠ .dev := by rcases htype with h | h <;> simp [h]
  rw [length_content]
  refine ⟨fun src hsrc hout => ⟨fun hfits => ?_, ?_⟩, fun hok => ?_, fun hfail => ?_⟩
  · rcases writei_eval_of_fits h hv ht hdev off n devwrite hsrc hfits with hpanic | ⟨s', hok, hw, -⟩
    · exact absurd hpanic hout
    · refine ⟨s', hok, hw.content, ?_, hw.other, hw.wf⟩
      rw [hw.content, length_patch (by rw [length_content]; exact hfits.1), length_content,
        length_take, min_eq_left hsrc]
  · exact writei_eval_of_not_fits hv hdev off n devwrite src
  · rw [readi_eval h hv ht hdev, if_pos hok]
  · rw [readi_eval h hv ht hdev, if_neg hfail]

/-! ### The inode that `read` uses -/

/-- The inode as the model of `read` has it. -/
def State.inode (s : State) (i : ℕ) (h : Wf sb s) (ht : (s.node i).type ≠ .free)
    (type : InodeType) : Inode where
  type := type
  major := (s.node i).major
  size := (s.node i).size
  size_le := h.size_le i ht
  block := s.block i

/-- What a finished `read` returns, without the addresses that the bytes go to. -/
def Transfer.ofOutcome (o : Outcome) : Transfer (List UInt8) :=
  match o.ret with
  | some (.ofNat n) => .done n (o.stores.map Prod.snd)
  | _ => .fail

/-- **`readi` on inodes with blocks is the `readi` of the model of `read`**, for files and
directories. -/
theorem readi_refines (h : Wf sb s) (hv : (s.icache i).valid = true)
    (ht : (s.node i).type ≠ .free) (hdev : (s.node i).type ≠ .dev) (devread : ℤ → Bool)
    (off n : UInt32) {type : InodeType} (htype : type ≠ .dev) (killed : Bool)
    (input : List UInt8) (dst : ℕ) : (readi sb devread i off n).eval s = some (.ok (.ofOutcome
        (Xv6.readi (s.inode i h ht type) killed input dst off.toNat n.toNat).1, s)) := by
  have hwrap : u32 (off.toNat + n.toNat) < off.toNat ↔ 2 ^ 32 ≤ off.toNat + n.toNat := by
    rw [← wraps_iff, UInt32.toNat_add]
    rfl
  have hfile : (s.inode i h ht type).type ≠ .dev := htype
  have hsize : (s.inode i h ht type).size = (s.node i).size := rfl
  rw [readi_eval h hv ht hdev, Xv6.readi, if_neg hfile]
  simp only [hwrap, hsize]
  by_cases hok : off.toNat ≤ (s.node i).size ∧ off.toNat + n.toNat < 2 ^ 32
  · have hu : u32 (off.toNat + n.toNat) = off.toNat + n.toNat := Nat.mod_eq_of_lt hok.2
    have hn : (if u32 (off.toNat + n.toNat) > (s.node i).size then (s.node i).size - off.toNat
        else n.toNat) = min n.toNat ((s.node i).size - off.toNat) := by
      rw [hu]
      split_ifs <;> omega
    rw [if_pos hok, if_neg (by omega), hn, take_drop_content, readiLoop_eq]
    simp only [Transfer.ofOutcome, map_map]
    rfl
  · rw [if_neg hok, if_pos (by omega)]
    rfl

/-! ### An image -/

/-- A disk of 20 blocks, two of them metadata. -/
def smallSuper : Super := ⟨20, by decide, 2, by decide, 1⟩

/-- Inode 1 is a file of three bytes in block 5, in memory and on the disk. -/
def smallInode : Dinode := ⟨.file, 0, 0, 1, 3, fun k => if k = 0 then 5 else 0⟩

/-- A file system with one file, which is open. -/
def smallState : State where
  bitmap := fun b => decide (b < 2 ∨ b = 5)
  data := fun _ k => UInt8.ofNat k
  dinode := fun i => if i = 1 then smallInode else .new .free
  icache := fun i => ⟨if i = 1 then 1 else 0, false, decide (i = 1), smallInode⟩

theorem smallState_node (i : ℕ) : smallState.node i = if i = 1 then smallInode else .new .free := by
  simp only [node, copy, smallState, decide_eq_true_eq]
  split_ifs <;> rfl

theorem smallState_own (k : ℕ × Place) :
    smallState.own k = if k = (1, .direct 0) then 5 else 0 := by
  obtain ⟨i, pl⟩ := k
  rw [own, smallState_node]
  by_cases hi : i = 1
  · subst hi
    cases pl with
    | direct k => simp [smallInode, addrOf, Fin.val_eq_zero_iff]
    | indirect => simp [smallInode, addrOf]
    | entry e => simp [smallInode, addrOf]
  · simp [hi, Dinode.new]

theorem smallState_wf : Wf smallSuper smallState := by
  have hnode := smallState_node
  refine ⟨⟨by decide, fun k hk => ?_, fun k k' hk heq => ?_, fun b hb => ?_⟩, ?_, ?_⟩
  · rw [smallState_own] at hk ⊢
    split_ifs at hk ⊢
    · decide
    · exact absurd rfl hk
  · rw [smallState_own] at hk heq
    rw [smallState_own] at heq
    split_ifs at hk heq with h1 h2
    · rw [h1, h2]
    · exact absurd rfl hk
  · have hmeta : smallSuper.nmeta = 2 := by decide
    have hbit : smallState.bitmap b = decide (b < 2 ∨ b = 5) := rfl
    simp only [smallState_own, hmeta, hbit, decide_eq_true_eq]
    constructor
    · rintro (h | h)
      · exact .inl h
      · exact .inr ⟨(1, .direct 0), by rw [if_pos rfl, h]⟩
    · rintro (h | ⟨k, hk⟩)
      · exact .inl h
      · split_ifs at hk
        · exact .inr hk.symm
        · exact .inl (by omega)
  · intro i ht bn hbn
    rw [hnode] at ht hbn
    split_ifs at ht hbn with hi
    · have hbn0 : bn = 0 := by
        simp only [smallInode, bsize] at hbn
        omega
      subst hbn0
      rw [smallState_own, hi]
      decide
    · exact absurd rfl ht
  · intro i ht
    rw [hnode] at ht ⊢
    split_ifs at ht ⊢
    · decide
    · exact absurd rfl ht

/-- Five bytes are written from the last byte of the file on, where there is room in the block. -/
theorem inode_is_byte_array_small :
    Wf smallSuper smallState ∧
      ∃ s', (writei smallSuper (fun _ => false) 1 [7, 8, 9, 10, 11] 2 5).eval smallState =
          some (.ok (.done 5 (), s')) ∧ s'.content 1 = [0, 1, 7, 8, 9, 10, 11] := by
  have hout : (writei smallSuper (fun _ => false) 1 [7, 8, 9, 10, 11] 2 5).eval smallState ≠
      some (.error .outOfBlocks) := fun h => by
    have hok : ((writei smallSuper (fun _ => false) 1 [7, 8, 9, 10, 11] 2 5).eval smallState).any
        (fun r => r.toOption.isSome) = true := by decide +kernel
    rw [h] at hok
    cases hok
  obtain ⟨s', hok, hcontent, -⟩ := ((inode_is_byte_array smallState_wf rfl (.inl rfl)
    (fun _ => false) (fun _ => false) 2 5).1 [7, 8, 9, 10, 11] (by decide) hout).1
    ⟨by decide, by decide, by decide⟩
  refine ⟨smallState_wf, s', hok, hcontent.trans ?_⟩
  decide +kernel

/-- The last two bytes of the file are read. -/
theorem readi_refines_small : ∃ r,
    (readi smallSuper (fun _ => false) 1 1 5).eval smallState = some (.ok (r, smallState)) ∧
      r = .done 2 [1, 2] := by
  have htype : InodeType.file ≠ .dev := by decide
  exact ⟨_, readi_refines smallState_wf rfl (by decide) (by decide) _ 1 5 htype false [] 0,
    by decide +kernel⟩

end Xv6.Fs
