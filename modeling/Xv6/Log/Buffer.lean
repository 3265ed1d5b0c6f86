import Mathlib.Tactic
import Mathlib.Data.Fintype.Card
import Mathlib.Data.List.Nodup

/-!
# The buffer cache

`bget`, `bread`, `bwrite` and `brelse` of `bio.c`, over the `iderw` of `ide.c`. The disk is a
function from block numbers to blocks; a request to it is one step, and requests take effect in
the order in which they are issued.

A call that sleeps or panics is an error here. One that sleeps is tried again when something has
changed, and a machine that has panicked does nothing any more but restart, so neither has a state
to return.

## What the cache means

A block has one current content `V`, which is the cached one if it is cached and the one on the
disk otherwise. `Coherent` relates the cache and the disk to `V`. Two sets go with it: the blocks
that are *pinned*, whose content on the disk may be older, and the buffers that are *being
modified* by a process that holds them, whose data may be anything. The calls are specified by
what they do to `V` and to these two sets.

## Main results

* `Coherent.bread`, `Coherent.bwrite`, `Coherent.brelse`, `Coherent.putData`, `Coherent.markDirty`
* `Coherent.bread_two`, `Coherent.copyTo` — one block copied to another and written to the disk
* `Coherent.length_lt` — there is always a buffer left beside the pinned ones, or no block can be
  read
-/

namespace Xv6

open Function List

/-- `BSIZE`: block size. -/
abbrev bsize : ℕ := 512
/-- `MAXFILE`: 12 direct blocks and the 128 of the indirect block. -/
abbrev maxfile : ℕ := 140
/-- `NBUF`: size of the disk block cache. -/
abbrev nbuf : ℕ := 30
/-- `FSSIZE`: size of the file system in blocks. -/
abbrev fssize : ℕ := 1000

/-- The contents of a disk block. -/
abbrev Block : Type := ℕ → UInt8

/-- A place in `bcache.buf`. -/
abbrev Slot : Type := Fin nbuf

instance : NeZero nbuf := ⟨by decide⟩

/-- Why a call does not return. -/
inductive Stuck
  /-- It sleeps until another process has done something. -/
  | sleep
  | noBuffers -- "bget: no buffers"
  | bwrite -- "bwrite"
  | brelse -- "brelse"
  | bufNotBusy -- "iderw: buf not busy"
  | nothingToDo -- "iderw: nothing to do"
  | incorrectBlockno -- "incorrect blockno"
  | tooBig -- "too big a transaction"
  | outsideTrans -- "log_write outside of trans"
  | committing -- "log.committing"
  | disabled
  deriving DecidableEq, Repr

/-- `struct buf`. All buffers are for one device. -/
structure Buf where
  /-- The block, or `none` where `dev` is still -1. -/
  blockno : Option ℕ
  /-- `B_BUSY`: the buffer is locked by some process. -/
  busy : Bool
  /-- `B_VALID`: the buffer has been read from disk. -/
  valid : Bool
  /-- `B_DIRTY`: the buffer needs to be written to disk. -/
  dirty : Bool
  data : Block

/-- The disk and the cache in front of it. -/
structure Bio where
  disk : ℕ → Block
  buf : Slot → Buf
  mru : List Slot

namespace Bio

/-- The cache with another buffer at `i`. -/
def set (io : Bio) (i : Slot) (b : Buf) : Bio := { io with buf := update io.buf i b }

@[simp] theorem set_disk (io : Bio) (i : Slot) (b : Buf) : (io.set i b).disk = io.disk := rfl
@[simp] theorem set_buf_self (io : Bio) (i : Slot) (b : Buf) : (io.set i b).buf i = b :=
  update_self ..

theorem set_buf_of_ne (io : Bio) {i j : Slot} (b : Buf) (h : j ≠ i) :
    (io.set i b).buf j = io.buf j :=
  update_of_ne h ..

@[simp] theorem set_set (io : Bio) (i : Slot) (b b' : Buf) :
    (io.set i b).set i b' = io.set i b' := by
  simp [set]

end Bio

/-- `binit`, in front of a disk. -/
def binit (disk : ℕ → Block) : Bio where
  disk := disk
  buf := fun _ => ⟨none, false, false, false, fun _ => 0⟩
  mru := (List.finRange nbuf).reverse

/-- Look through the cache for block `blockno`. If it is not there, recycle the least recently
used buffer that is neither busy nor dirty. In either case the buffer returned is busy. -/
def bget (io : Bio) (blockno : ℕ) : Except Stuck (Slot × Bio) :=
  match io.mru.find? fun i => decide ((io.buf i).blockno = some blockno) with
  | some i =>
    if (io.buf i).busy then .error .sleep else .ok (i, io.set i { io.buf i with busy := true })
  | none =>
    match io.mru.reverse.find? fun i => !(io.buf i).busy && !(io.buf i).dirty with
    | some i => .ok (i, io.set i ⟨some blockno, true, false, false, (io.buf i).data⟩)
    | none => .error .noBuffers

/-- Sync a buffer with the disk. A dirty buffer is written and is not dirty afterwards, another is
read. -/
def iderw (io : Bio) (i : Slot) : Except Stuck Bio :=
  let b := io.buf i
  if !b.busy then .error .bufNotBusy
  else if b.valid && !b.dirty then .error .nothingToDo
  else
    match b.blockno with
    | none => .error .incorrectBlockno
    | some n =>
      if fssize ≤ n then .error .incorrectBlockno
      else if b.dirty then
        .ok { io.set i { b with valid := true, dirty := false } with
          disk := update io.disk n b.data }
      else .ok (io.set i { b with valid := true, dirty := false, data := io.disk n })

/-- Return a busy buffer with the contents of the block. -/
def bread (io : Bio) (blockno : ℕ) : Except Stuck (Slot × Bio) :=
  match bget io blockno with
  | .error e => .error e
  | .ok (i, io) =>
    if (io.buf i).valid then .ok (i, io)
    else
      match iderw io i with
      | .error e => .error e
      | .ok io => .ok (i, io)

/-- Write a buffer's contents to disk. -/
def bwrite (io : Bio) (i : Slot) : Except Stuck Bio :=
  if !(io.buf i).busy then .error .bwrite
  else iderw (io.set i { io.buf i with dirty := true }) i

/-- Release a buffer and move it to the head of the list. -/
def brelse (io : Bio) (i : Slot) : Except Stuck Bio :=
  if !(io.buf i).busy then .error .brelse
  else .ok { io.set i { io.buf i with busy := false } with mru := i :: io.mru.erase i }

/-- Store new contents in a buffer. -/
def putData (io : Bio) (i : Slot) (d : Block) : Bio := io.set i { io.buf i with data := d }

/-- Set `B_DIRTY`, which keeps the buffer from being recycled. -/
def markDirty (io : Bio) (i : Slot) : Bio := io.set i { io.buf i with dirty := true }

/-- Copy the contents of buffer `src` to buffer `dst`, write `dst` to disk and release both. -/
def copyTo (io : Bio) (dst src : Slot) : Except Stuck Bio :=
  match bwrite (putData io dst (io.buf src).data) dst with
  | .error e => .error e
  | .ok io =>
    match brelse io src with
    | .error e => .error e
    | .ok io => brelse io dst

/-! ### Coherence -/

/-- Every block of the cache and the disk has the content `V`, except that the disk may be behind
for the blocks in `pin` and that the buffers in `mod` hold anything. -/
structure Coherent (io : Bio) (V : ℕ → Block) (pin : Set ℕ) (mod : Set Slot) : Prop where
  mem_mru : ∀ i, i ∈ io.mru
  unique : ∀ i j n, (io.buf i).blockno = some n → (io.buf j).blockno = some n → i = j
  valid : ∀ i n, (io.buf i).blockno = some n → (io.buf i).valid = true
  lt_fssize : ∀ i n, (io.buf i).blockno = some n → n < fssize
  data : ∀ i n, (io.buf i).blockno = some n → i ∉ mod → (io.buf i).data = V n
  dirty : ∀ i, (io.buf i).dirty = true → ∃ n ∈ pin, (io.buf i).blockno = some n
  pinned : ∀ n ∈ pin, ∃ i, (io.buf i).blockno = some n ∧ (io.buf i).dirty = true
  busy : ∀ i ∈ mod, (io.buf i).busy = true
  disk : ∀ n ∉ pin, io.disk n = V n

theorem coherent_binit (disk : ℕ → Block) : Coherent (binit disk) disk ∅ ∅ where
  mem_mru i := by simp [binit]
  unique i j n h := by simp [binit] at h
  valid i n h := by simp [binit] at h
  lt_fssize i n h := by simp [binit] at h
  data i n h := by simp [binit] at h
  dirty i h := by simp [binit] at h
  pinned n h := absurd h (Set.notMem_empty n)
  busy i h := absurd h (Set.notMem_empty i)
  disk n _ := rfl

variable {io io' : Bio} {V : ℕ → Block} {pin : Set ℕ} {mod : Set Slot} {i j : Slot} {n m : ℕ}

section

variable (h : Coherent io V pin mod)

include h

theorem Coherent.lt_of_mem (hn : n ∈ pin) : n < fssize := by
  obtain ⟨i, hi, -⟩ := h.pinned n hn
  exact h.lt_fssize i n hi

theorem Coherent.length_le_fssize {L : List ℕ} (hnd : L.Nodup)
    (hL : ∀ b ∈ L, b ∈ pin) : L.length ≤ fssize := by
  rw [← toFinset_card_of_nodup hnd, ← Finset.card_range fssize]
  refine Finset.card_le_card fun b hb => ?_
  exact Finset.mem_range.mpr (h.lt_of_mem (hL b (mem_toFinset.mp hb)))

/-- Beside distinct pinned blocks there is room for a buffer that is not dirty. -/
theorem Coherent.length_lt {L : List ℕ} (hnd : L.Nodup)
    (hL : ∀ b ∈ L, b ∈ pin) (hi : (io.buf i).dirty = false) : L.length < nbuf := by
  choose f hf hd using fun b : {b // b ∈ L} => h.pinned b (hL b b.2)
  have hinj : Function.Injective f := fun b c hbc => by
    have hb := hf b
    rw [hbc, hf c] at hb
    exact Subtype.ext (Option.some.inj hb).symm
  have hmiss : ∀ b, f b ≠ i := fun b hb => by
    have hdirty := hd b
    rw [hb, hi] at hdirty
    exact absurd hdirty Bool.false_ne_true
  have hcard : (L.attach.map f).length ≤ (Finset.univ.erase i).card := by
    have hnd' : (L.attach.map f).Nodup := (nodup_attach.mpr hnd).map hinj
    rw [← toFinset_card_of_nodup hnd']
    refine Finset.card_le_card fun j hj => ?_
    obtain ⟨b, -, rfl⟩ := mem_map.mp (mem_toFinset.mp hj)
    exact Finset.mem_erase.mpr ⟨hmiss b, Finset.mem_univ _⟩
  rw [length_map, length_attach, Finset.card_erase_of_mem (Finset.mem_univ _),
    Finset.card_univ, Fintype.card_fin] at hcard
  exact hcard.trans_lt (by decide)

theorem Coherent.relock (hdisk : io'.disk = io.disk) (hmru : ∀ i, i ∈ io'.mru)
    (hbuf : ∀ j, ∃ busy, io'.buf j = { io.buf j with busy := busy })
    (hbusy : ∀ j ∈ mod, (io'.buf j).busy = true) : Coherent io' V pin mod := by
  have hb : ∀ j, (io'.buf j).blockno = (io.buf j).blockno := fun j => by
    obtain ⟨_, hj⟩ := hbuf j
    rw [hj]
  have hv : ∀ j, (io'.buf j).valid = (io.buf j).valid := fun j => by
    obtain ⟨_, hj⟩ := hbuf j
    rw [hj]
  have hd : ∀ j, (io'.buf j).dirty = (io.buf j).dirty := fun j => by
    obtain ⟨_, hj⟩ := hbuf j
    rw [hj]
  have ha : ∀ j, (io'.buf j).data = (io.buf j).data := fun j => by
    obtain ⟨_, hj⟩ := hbuf j
    rw [hj]
  refine ⟨hmru, ?_, ?_, ?_, ?_, ?_, ?_, hbusy, hdisk ▸ h.disk⟩
  · simpa only [hb] using h.unique
  · simpa only [hb, hv] using h.valid
  · simpa only [hb] using h.lt_fssize
  · simpa only [hb, ha] using h.data
  · simpa only [hb, hd] using h.dirty
  · simpa only [hb, hd] using h.pinned

theorem Coherent.replace {b : Buf} {v : Block} {disk' : ℕ → Block}
    {pin' : Set ℕ} {mod' : Set Slot} (hb : b.blockno = some n) (hvalid : b.valid = true)
    (hlt : n < fssize) (hnew : ∀ j, j ≠ i → (io.buf j).blockno ≠ some n)
    (hold : ∀ m ∈ pin, m ≠ n → (io.buf i).blockno ≠ some m) (hdata : i ∉ mod' → b.data = v)
    (hdirty : b.dirty = true ↔ n ∈ pin') (hpin : ∀ m, m ≠ n → (m ∈ pin' ↔ m ∈ pin))
    (hmod : ∀ j, j ≠ i → (j ∈ mod' ↔ j ∈ mod)) (hbusy : i ∈ mod' → b.busy = true)
    (hdisk : ∀ m, m ≠ n → disk' m = io.disk m) (hdisk' : n ∉ pin' → disk' n = v) :
    Coherent { io.set i b with disk := disk' } (update V n v) pin' mod' := by
  have hself : ({ io.set i b with disk := disk' } : Bio).buf i = b := Bio.set_buf_self io i b
  have hother : ∀ j, j ≠ i → ({ io.set i b with disk := disk' } : Bio).buf j = io.buf j :=
    fun j hj => Bio.set_buf_of_ne io b hj
  have hne : ∀ j m, j ≠ i → (io.buf j).blockno = some m → m ≠ n := fun j m hj hjm hmn =>
    hnew j hj (hmn ▸ hjm)
  refine ⟨h.mem_mru, ?_, ?_, ?_, ?_, ?_, ?_, ?_, ?_⟩
  · intro j k m hj hk
    by_cases hji : j = i <;> by_cases hki : k = i
    · rw [hji, hki]
    · rw [hji, hself, hb] at hj
      rw [hother k hki, ← hj] at hk
      exact absurd hk (hnew k hki)
    · rw [hki, hself, hb] at hk
      rw [hother j hji, ← hk] at hj
      exact absurd hj (hnew j hji)
    · rw [hother j hji] at hj
      rw [hother k hki] at hk
      exact h.unique j k m hj hk
  · intro j m hj
    by_cases hji : j = i
    · rw [hji, hself, hvalid]
    · rw [hother j hji] at hj ⊢
      exact h.valid j m hj
  · intro j m hj
    by_cases hji : j = i
    · rw [hji, hself, hb] at hj
      exact Option.some.inj hj ▸ hlt
    · rw [hother j hji] at hj
      exact h.lt_fssize j m hj
  · intro j m hj hjm
    by_cases hji : j = i
    · subst hji
      rw [hself, hb] at hj
      obtain rfl := Option.some.inj hj
      rw [hself, update_self, hdata hjm]
    · rw [hother j hji] at hj ⊢
      rw [update_of_ne (hne j m hji hj)]
      exact h.data j m hj fun hin => hjm ((hmod j hji).mpr hin)
  · intro j hj
    by_cases hji : j = i
    · rw [hji, hself] at hj ⊢
      exact ⟨n, hdirty.mp hj, hb⟩
    · rw [hother j hji] at hj ⊢
      obtain ⟨m, hm, hjm⟩ := h.dirty j hj
      exact ⟨m, (hpin m (hne j m hji hjm)).mpr hm, hjm⟩
  · intro m hm
    by_cases hmn : m = n
    · subst hmn
      refine ⟨i, ?_⟩
      rw [hself]
      exact ⟨hb, hdirty.mpr hm⟩
    · have hm' := (hpin m hmn).mp hm
      obtain ⟨j, hj, hjd⟩ := h.pinned m hm'
      have hji : j ≠ i := fun hji => hold m hm' hmn (hji ▸ hj)
      refine ⟨j, ?_⟩
      rw [hother j hji]
      exact ⟨hj, hjd⟩
  · intro j hj
    by_cases hji : j = i
    · rw [hji, hself]
      exact hbusy (hji ▸ hj)
    · rw [hother j hji]
      exact h.busy j ((hmod j hji).mp hj)
  · intro m hm
    by_cases hmn : m = n
    · subst hmn
      rw [update_self]
      exact hdisk' hm
    · rw [update_of_ne hmn]
      exact (hdisk m hmn).trans (h.disk m fun hin => hm ((hpin m hmn).mpr hin))

end

/-! ### The calls -/

/-- What `bget` can do: lock the block's buffer, or give the block a buffer of its own. -/
theorem bget_cases (h : bget io n = .ok (i, io')) :
    ((io.buf i).blockno = some n ∧ (io.buf i).busy = false ∧
        io' = io.set i { io.buf i with busy := true }) ∨
      ((∀ j ∈ io.mru, (io.buf j).blockno ≠ some n) ∧ (io.buf i).busy = false ∧
        (io.buf i).dirty = false ∧
          io' = io.set i ⟨some n, true, false, false, (io.buf i).data⟩) := by
  unfold bget at h
  cases hfind : io.mru.find? fun i => decide ((io.buf i).blockno = some n) with
  | some j =>
    simp only [hfind] at h
    have hj : (io.buf j).blockno = some n := by
      simpa using List.find?_some hfind
    by_cases hbusy : (io.buf j).busy = true
    · rw [if_pos hbusy] at h
      exact absurd h (by simp)
    · rw [if_neg hbusy] at h
      obtain ⟨rfl, rfl⟩ := Prod.mk.inj (Except.ok.inj h)
      exact .inl ⟨hj, Bool.eq_false_iff.mpr hbusy, rfl⟩
  | none =>
    have hnone : ∀ j ∈ io.mru, (io.buf j).blockno ≠ some n := fun j hj hjn =>
      List.find?_eq_none.mp hfind j hj (decide_eq_true hjn)
    cases hfree : io.mru.reverse.find? fun i => !(io.buf i).busy && !(io.buf i).dirty with
    | none => simp [hfind, hfree] at h
    | some j =>
      simp only [hfind, hfree] at h
      obtain ⟨rfl, rfl⟩ := Prod.mk.inj (Except.ok.inj h)
      have hj := List.find?_some hfree
      simp only [Bool.and_eq_true, Bool.not_eq_true'] at hj
      exact .inr ⟨hnone, hj.1, hj.2, rfl⟩

theorem iderw_cases (h : iderw io i = .ok io') (hb : (io.buf i).blockno = some n) : n < fssize ∧
      (((io.buf i).dirty = true ∧
          io' = { io.set i ⟨some n, (io.buf i).busy, true, false, (io.buf i).data⟩ with
            disk := update io.disk n (io.buf i).data }) ∨ ((io.buf i).dirty = false ∧
          io' = io.set i ⟨some n, (io.buf i).busy, true, false, io.disk n⟩)) := by
  unfold iderw at h
  simp only [hb] at h
  split_ifs at h with hbusy hdo hlt hd
  · exact ⟨not_le.mp hlt, .inl ⟨hd, (Except.ok.inj h).symm⟩⟩
  · exact ⟨not_le.mp hlt, .inr ⟨Bool.eq_false_iff.mpr hd, (Except.ok.inj h).symm⟩⟩

/-- What `bread` gives its caller: a buffer that nobody held, with the block's content. -/
structure Obtains (io io' : Bio) (V : ℕ → Block) (pin : Set ℕ) (mod : Set Slot) (i : Slot)
    (n : ℕ) : Prop where
  coherent : Coherent io' V pin mod
  disk : io'.disk = io.disk
  blockno : (io'.buf i).blockno = some n
  free : (io.buf i).busy = false
  busy : (io'.buf i).busy = true
  other : ∀ j, j ≠ i → io'.buf j = io.buf j

theorem Coherent.notMem_of_free (h : Coherent io V pin mod) (hi : (io.buf i).busy = false) :
    i ∉ mod := by
  intro hmem
  have hb := h.busy i hmem
  rw [hi] at hb
  exact absurd hb Bool.false_ne_true

/-- **Reading a block.** -/
theorem Coherent.bread (h : Coherent io V pin mod) (hr : bread io n = .ok (i, io')) :
    Obtains io io' V pin mod i n := by
  unfold Xv6.bread at hr
  cases hget : bget io n with
  | error e => simp [hget] at hr
  | ok r =>
    obtain ⟨j, io₁⟩ := r
    simp only [hget] at hr
    obtain ⟨hj, hfree, rfl⟩ | ⟨hnone, hfree, hclean, rfl⟩ := bget_cases hget
    · -- the block is cached, and what is cached has been read
      have hv := h.valid j n hj
      rw [if_pos (by rw [Bio.set_buf_self]; exact hv)] at hr
      obtain ⟨rfl, rfl⟩ := Prod.mk.inj (Except.ok.inj hr)
      refine ⟨?_, rfl, ?_, hfree, ?_, fun k hk => Bio.set_buf_of_ne io _ hk⟩
      · refine h.relock rfl h.mem_mru (fun k => ?_) fun k hk => ?_
        · by_cases hkj : k = j
          · subst hkj
            exact ⟨true, Bio.set_buf_self ..⟩
          · exact ⟨(io.buf k).busy, Bio.set_buf_of_ne io _ hkj⟩
        · by_cases hkj : k = j
          · rw [hkj, Bio.set_buf_self]
          · rw [Bio.set_buf_of_ne io _ hkj]
            exact h.busy k hk
      · rw [Bio.set_buf_self]
        exact hj
      · rw [Bio.set_buf_self]
    · -- a recycled buffer is read from the disk, which is not behind for an uncached block
      simp only [Bio.set_buf_self, Bool.false_eq_true, if_false] at hr
      cases hrw : iderw (io.set j ⟨some n, true, false, false, (io.buf j).data⟩) j with
      | error e => simp [hrw] at hr
      | ok io₂ =>
        simp only [hrw] at hr
        obtain ⟨rfl, rfl⟩ := Prod.mk.inj (Except.ok.inj hr)
        obtain ⟨hlt, ⟨hd, -⟩ | ⟨-, rfl⟩⟩ := iderw_cases (n := n) hrw (by rw [Bio.set_buf_self])
        · rw [Bio.set_buf_self] at hd
          exact absurd hd Bool.false_ne_true
        have hunpinned : n ∉ pin := fun hn => by
          obtain ⟨k, hk, -⟩ := h.pinned n hn
          exact hnone k (h.mem_mru k) hk
        rw [Bio.set_buf_self, Bio.set_disk, Bio.set_set]
        refine ⟨?_, rfl, ?_, hfree, ?_, fun k hk => Bio.set_buf_of_ne io _ hk⟩
        · have hold : ∀ m ∈ pin, m ≠ n → (io.buf j).blockno ≠ some m := fun m hm _ hjm => by
            obtain ⟨k, hk, hkd⟩ := h.pinned m hm
            rw [h.unique k j m hk hjm, hclean] at hkd
            exact absurd hkd Bool.false_ne_true
          rw [← update_eq_self n V]
          exact h.replace rfl rfl hlt (fun k _ => hnone k (h.mem_mru k)) hold
            (fun _ => h.disk n hunpinned) (iff_of_false Bool.false_ne_true hunpinned)
            (fun _ _ => Iff.rfl) (fun _ _ => Iff.rfl) (fun _ => rfl) (fun _ _ => rfl) (h.disk n)
        · rw [Bio.set_buf_self]
        · rw [Bio.set_buf_self]

section

variable (h : Obtains io io' V pin mod i n)

include h

theorem Obtains.notMem (hc : Coherent io V pin mod) : i ∉ mod :=
  hc.notMem_of_free h.free

theorem Obtains.data (hc : Coherent io V pin mod) : (io'.buf i).data = V n :=
  h.coherent.data i n h.blockno (h.notMem hc)

theorem Obtains.clean (hn : n ∉ pin) : (io'.buf i).dirty = false := by
  refine Bool.eq_false_iff.mpr fun hd => ?_
  obtain ⟨m, hm, him⟩ := h.coherent.dirty i hd
  rw [h.blockno] at him
  exact hn (Option.some.inj him ▸ hm)

end

section

variable (h : Coherent io V pin mod)

include h

theorem Coherent.putData (hb : (io.buf i).blockno = some n)
    (hbusy : (io.buf i).busy = true) (d : Block) :
    Coherent (putData io i d) V pin (insert i mod) := by
  have hdirty : (io.buf i).dirty = true ↔ n ∈ pin := by
    refine ⟨fun hd => ?_, fun hn => ?_⟩
    · obtain ⟨m, hm, him⟩ := h.dirty i hd
      rw [hb] at him
      exact Option.some.inj him ▸ hm
    · obtain ⟨j, hj, hjd⟩ := h.pinned n hn
      exact h.unique i j n hb hj ▸ hjd
  rw [← update_eq_self n V]
  refine h.replace hb (h.valid i n hb) (h.lt_fssize i n hb)
    (fun j hj hjn => hj (h.unique j i n hjn hb)) (fun m _ hmn him => ?_)
    (fun hi => absurd (Set.mem_insert i mod) hi) hdirty (fun _ _ => Iff.rfl)
    (fun j hj => Set.mem_insert_iff.trans (or_iff_right hj)) (fun _ => hbusy) (fun _ _ => rfl)
    (h.disk n)
  rw [hb] at him
  exact hmn (Option.some.inj him).symm

/-- **Writing a buffer to disk.** What it holds becomes the block's content, and the block is no
longer pinned. -/
theorem Coherent.bwrite (hb : (io.buf i).blockno = some n) (hw : bwrite io i = .ok io') :
    Coherent io' (update V n (io.buf i).data) (pin \ {n}) (mod \ {i}) ∧
      io'.disk = update io.disk n (io.buf i).data ∧ (io'.buf i).busy = (io.buf i).busy ∧
        ∀ j, j ≠ i → io'.buf j = io.buf j := by
  unfold Xv6.bwrite at hw
  split_ifs at hw with hbusy
  obtain ⟨hlt, ⟨-, hio⟩ | ⟨hd, -⟩⟩ := iderw_cases (n := n) hw (by rw [Bio.set_buf_self]; exact hb)
  swap
  · rw [Bio.set_buf_self] at hd
    exact absurd hd.symm Bool.false_ne_true
  rw [Bio.set_buf_self, Bio.set_set] at hio
  subst hio
  refine ⟨?_, rfl, ?_, fun j hj => Bio.set_buf_of_ne io _ hj⟩
  · refine h.replace rfl rfl hlt (fun j hj hjn => hj (h.unique j i n hjn hb))
      (fun m _ hmn him => ?_) (fun _ => rfl)
      (iff_of_false Bool.false_ne_true fun hn => hn.2 rfl)
      (fun m hm => and_iff_left hm) (fun j hj => and_iff_left hj)
      (fun hi => absurd rfl hi.2) (fun m hm => update_of_ne hm ..)
      (fun _ => update_self ..)
    rw [hb] at him
    exact hmn (Option.some.inj him).symm
  · show ((io.set i _).buf i).busy = _
    rw [Bio.set_buf_self]

/-- **Releasing a buffer** that is not being modified. -/
theorem Coherent.brelse (hi : i ∉ mod) (hr : brelse io i = .ok io') :
    Coherent io' V pin mod ∧ io'.disk = io.disk ∧ ∀ j, j ≠ i → io'.buf j = io.buf j := by
  unfold Xv6.brelse at hr
  split_ifs at hr with hbusy
  obtain rfl := Except.ok.inj hr
  have hother : ∀ j, j ≠ i → (io.set i { io.buf i with busy := false }).buf j = io.buf j :=
    fun j hj => Bio.set_buf_of_ne io _ hj
  refine ⟨h.relock rfl (fun j => ?_) (fun j => ?_) fun j hj => ?_, rfl, hother⟩
  · by_cases hji : j = i
    · exact hji ▸ mem_cons_self
    · exact mem_cons_of_mem _ ((mem_erase_of_ne hji).mpr (h.mem_mru j))
  · by_cases hji : j = i
    · subst hji
      exact ⟨false, Bio.set_buf_self ..⟩
    · exact ⟨(io.buf j).busy, hother j hji⟩
  · have hji : j ≠ i := fun hji => hi (hji ▸ hj)
    show ((io.set i { io.buf i with busy := false }).buf j).busy = true
    rw [hother j hji]
    exact h.busy j hj

/-- **Pinning a block.** What its buffer holds becomes the block's content, in the cache only. -/
theorem Coherent.markDirty (hb : (io.buf i).blockno = some n) :
    Coherent (markDirty io i) (update V n (io.buf i).data) (insert n pin) (mod \ {i}) := by
  refine h.replace hb (h.valid i n hb) (h.lt_fssize i n hb)
    (fun j hj hjn => hj (h.unique j i n hjn hb)) (fun m _ hmn him => ?_) (fun _ => rfl)
    (iff_of_true rfl (Set.mem_insert n pin))
    (fun m hm => Set.mem_insert_iff.trans (or_iff_right hm))
    (fun j hj => and_iff_left hj) (fun hi => absurd rfl hi.2) (fun _ _ => rfl)
    (fun hn => absurd (Set.mem_insert n pin) hn)
  rw [hb] at him
  exact hmn (Option.some.inj him).symm

/-- **Copying a block** to another and to the disk. -/
theorem Coherent.copyTo (hi : (io.buf i).blockno = some n) (hj : (io.buf j).data = V m)
    (hbusy : (io.buf i).busy = true) (hi' : i ∉ mod) (hj' : j ∉ mod)
    (hc : copyTo io i j = .ok io') : Coherent io' (update V n (V m)) (pin \ {n}) mod ∧
      io'.disk = update io.disk n (V m) ∧ ∀ k, k ≠ i → k ≠ j → io'.buf k = io.buf k := by
  unfold Xv6.copyTo at hc
  have hput := h.putData hi hbusy (io.buf j).data
  have hself : (Xv6.putData io i (io.buf j).data).buf i = { io.buf i with data := V m } := by
    rw [Xv6.putData, Bio.set_buf_self, hj]
  cases hw : Xv6.bwrite (Xv6.putData io i (io.buf j).data) i with
  | error e => simp [hw] at hc
  | ok io₁ =>
    simp only [hw] at hc
    obtain ⟨hc₁, hdisk₁, -, hbuf₁⟩ := hput.bwrite (n := n) (by rw [hself]; exact hi) hw
    have hmod : insert i mod \ {i} = mod := by
      rw [Set.insert_sdiff_self_of_notMem hi']
    rw [hself] at hc₁ hdisk₁
    rw [hmod] at hc₁
    cases hr : Xv6.brelse io₁ j with
    | error e => simp [hr] at hc
    | ok io₂ =>
      simp only [hr] at hc
      obtain ⟨hc₂, hdisk₂, hbuf₂⟩ := hc₁.brelse hj' hr
      obtain ⟨hc₃, hdisk₃, hbuf₃⟩ := hc₂.brelse hi' hc
      refine ⟨hc₃, hdisk₃.trans (hdisk₂.trans hdisk₁), fun k hki hkj => ?_⟩
      rw [hbuf₃ k hki, hbuf₂ k hkj, hbuf₁ k hki]
      exact Bio.set_buf_of_ne io _ hki

end

/-- Buffers that somebody holds are left alone. -/
def Undisturbed (io io' : Bio) : Prop := ∀ k, (io.buf k).busy = true → io'.buf k = io.buf k

section

variable (h : Obtains io io' V pin mod i n)

include h

theorem Obtains.ne_of_busy (hj : (io.buf j).busy = true) : j ≠ i := by
  intro hji
  rw [hji, h.free] at hj
  exact absurd hj Bool.false_ne_true

theorem Obtains.undisturbed : Undisturbed io io' :=
  fun k hk => h.other k (h.ne_of_busy hk)

theorem Obtains.undisturbed_trans {io'' : Bio}
    (hbuf : ∀ k, k ≠ i → (io'.buf k).busy = true → io''.buf k = io'.buf k) :
    Undisturbed io io'' := by
  intro k hk
  have hk' := h.undisturbed k hk
  rw [hbuf k (h.ne_of_busy hk) (by rw [hk']; exact hk), hk']

end

/-- **Reading two blocks.** The second buffer is not the first, which is held by then. -/
theorem Coherent.bread_two {io₁ io₂ : Bio} (h : Coherent io V pin mod)
    (h₁ : Xv6.bread io n = .ok (i, io₁)) (h₂ : Xv6.bread io₁ m = .ok (j, io₂)) :
    Obtains io io₁ V pin mod i n ∧ Obtains io₁ io₂ V pin mod j m ∧ io₂.buf i = io₁.buf i := by
  have ho₁ := h.bread h₁
  have ho₂ := ho₁.coherent.bread h₂
  exact ⟨ho₁, ho₂, ho₂.undisturbed i ho₁.busy⟩

end Xv6
