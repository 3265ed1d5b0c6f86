import Mathlib.Data.Finset.Card
import Mathlib.Data.Finset.Range
import Xv6.Library.Intervals
import Xv6.User.Umalloc

/-!
# The heap of user programs is consistent

The free blocks, and those that the program has, are intervals. `Core` says how they lie and what
the memory has in their headers. `free` puts a block between two others and joins it to them, and
`malloc` takes a block, or the end of one; both are done to the intervals as they are done to
memory.

## Main results

* `Core.free`, `Core.take` — what `free` and `malloc` do
* `heap_consistent` — the heap is consistent, whatever a program does with what it has
* `malloc_serves_iff` — which requests `malloc` serves
-/

namespace Xv6.Umalloc

open ByteMemory LinkedList Intervals List State

variable {mem mem' : ℕ → UInt8} {p q v a e base brk : ℕ} {x b : ℕ × ℕ} {lv : List (ℕ × ℕ)} {n : ℕ}

/-! ### Headers -/

theorem ptr_lt (mem : ℕ → UInt8) (p : ℕ) : ptr mem p < 2 ^ 32 := load32_lt mem p

theorem size_lt (mem : ℕ → UInt8) (p : ℕ) : size mem p < 2 ^ 32 := load32_lt mem (p + 4)

theorem ptr_setPtr (hv : v < 2 ^ 32) : ptr (setPtr mem p v) p = v := load32_store32_self hv

theorem size_setPtr : size (setPtr mem p v) p = size mem p :=
  load32_store32_of_far (Or.inr le_rfl)

theorem size_setSize (hv : v < 2 ^ 32) : size (setSize mem p v) p = v := load32_store32_self hv

theorem ptr_setSize : ptr (setSize mem p v) p = ptr mem p :=
  load32_store32_of_far (Or.inl le_rfl)

/-- Two headers that do not overlap. -/
def Far (p q : ℕ) : Prop := p + 8 ≤ q ∨ q + 8 ≤ p

/-- The header at `q` has not changed. -/
def Same (mem mem' : ℕ → UInt8) (q : ℕ) : Prop := ptr mem' q = ptr mem q ∧ size mem' q = size mem q

theorem same_setPtr (h : Far p q) : Same mem (setPtr mem p v) q := by
  unfold Far at h
  exact ⟨load32_store32_of_far (by omega), load32_store32_of_far (by omega)⟩

theorem same_setSize (h : Far p q) : Same mem (setSize mem p v) q := by
  unfold Far at h
  exact ⟨load32_store32_of_far (by omega), load32_store32_of_far (by omega)⟩

theorem Same.trans {mem'' : ℕ → UInt8} (h : Same mem mem' q) (h' : Same mem' mem'' q) :
    Same mem mem'' q :=
  ⟨h'.1.trans h.1, h'.2.trans h.2⟩

/-- The header at the start of the interval has its size. -/
def Sized (mem : ℕ → UInt8) (x : ℕ × ℕ) : Prop := x.2 = x.1 + 8 * size mem x.1

theorem Sized.of_same (h : Sized mem x) (hsame : Same mem mem' x.1) : Sized mem' x := by
  unfold Sized at h ⊢
  rw [hsame.2]
  exact h

theorem Sized.room (h : Sized mem x) (hx : x.1 < x.2) : x.1 + 8 ≤ x.2 := by
  unfold Sized at h
  omega

theorem far_of_apart (hx : x.1 + 8 ≤ x.2) (hb : b.1 + 8 ≤ b.2) (h : Apart x b) : Far x.1 b.1 := by
  unfold Far
  rcases h with h | h
  · exact Or.inl (hx.trans h)
  · exact Or.inr (hb.trans h)

theorem Sized.plus_size (h : Sized mem x) : plus x.1 (size mem x.1) = x.2 % 2 ^ 32 := by
  unfold Sized at h
  rw [plus, ← h]

/-! ### Joining a block to the next one -/

theorem setPtr_spec {post : List (ℕ × ℕ)} (hb : Sized mem b) (hq : q < 2 ^ 32)
    (hseg : Seg (ptr mem) q (post.map Prod.fst) base) (hsized : ∀ y ∈ post, Sized mem y)
    (hfar : ∀ y ∈ post, Far b.1 y.1) :
    Seg (ptr (setPtr mem b.1 q)) b.1 ((b :: post).map Prod.fst) base ∧
      ∀ y ∈ b :: post, Sized (setPtr mem b.1 q) y := by
  refine ⟨⟨rfl, ?_⟩, fun y hy => ?_⟩
  · rw [ptr_setPtr hq]
    refine hseg.congr fun h hh => ?_
    obtain ⟨y, hy, rfl⟩ := mem_map.mp hh
    exact (same_setPtr (hfar y hy)).1
  · rcases mem_cons.mp hy with rfl | hy
    · rw [Sized, size_setPtr]
      exact hb
    · exact (hsized y hy).of_same (same_setPtr (hfar y hy))

/-- **What `join` does.** The block before a part of the list becomes the first of it, joined to the
one that was the first if they meet. Only its own header changes. -/
theorem join_spec {post : List (ℕ × ℕ)} {q : (ℕ → UInt8) → ℕ} (hb : Sized mem b)
    (hq : ∀ v, q (setSize mem b.1 v) = q mem)
    (hseg : Seg (ptr mem) (q mem) (post.map Prod.fst) base)
    (hsized : ∀ y ∈ post, Sized mem y) (hfar : ∀ y ∈ post, Far b.1 y.1)
    (hle : ∀ y ∈ post, b.2 ≤ y.1 ∧ y.1 < 2 ^ 32 ∧ y.2 - b.1 < 2 ^ 32)
    (hbase : base < 2 ^ 32) (hend : post = [] → 0 < base ∧ base < b.2 ∧ b.2 ≤ 2 ^ 32) :
    Seg (ptr (join mem b.1 q)) b.1 ((glue b post).map Prod.fst) base ∧
      (∀ y ∈ glue b post, Sized (join mem b.1 q) y) ∧
      ∀ h, Far b.1 h → Same mem (join mem b.1 q) h := by
  rw [join, hb.plus_size]
  cases post with
  | nil =>
    obtain ⟨hpos, hlt, hle⟩ := hend rfl
    have hqb : q mem = base := hseg
    rw [if_neg (by omega), glue]
    obtain ⟨hseg', hsized'⟩ := setPtr_spec hb (hqb ▸ hbase) hseg hsized hfar
    exact ⟨hseg', hsized', fun h hh => same_setPtr hh⟩
  | cons y post =>
    obtain ⟨hqy, hrest⟩ := hseg
    obtain ⟨hby, hylt, hlen⟩ := hle y mem_cons_self
    rw [Nat.mod_eq_of_lt (hby.trans_lt hylt), hqy, glue]
    split
    next hmeet =>
      -- The block takes in the next one, of which only the header is looked at.
      have hy := hsized y mem_cons_self
      have hfary := hfar y mem_cons_self
      unfold Sized at hb hy
      have hsum : size mem b.1 + size mem y.1 < 2 ^ 32 := by omega
      dsimp only
      rw [Nat.mod_eq_of_lt hsum, hq, hqy, (same_setSize hfary).1]
      refine ⟨⟨rfl, ?_⟩, fun z hz => ?_, fun h hh => ?_⟩
      · rw [ptr_setPtr (ptr_lt _ _)]
        refine hrest.congr fun h hh => ?_
        obtain ⟨z, hz, rfl⟩ := mem_map.mp hh
        have hfarz := hfar z (mem_cons_of_mem _ hz)
        exact ((same_setSize hfarz).trans (same_setPtr hfarz)).1
      · rcases mem_cons.mp hz with rfl | hz
        · simp only [Sized]
          rw [size_setPtr, size_setSize hsum]
          omega
        · have hfarz := hfar z (mem_cons_of_mem _ hz)
          exact (hsized z (mem_cons_of_mem _ hz)).of_same
            ((same_setSize hfarz).trans (same_setPtr hfarz))
      · exact (same_setSize hh).trans (same_setPtr hh)
    next =>
      have hy : Seg (ptr mem) y.1 ((y :: post).map Prod.fst) base := ⟨rfl, hrest⟩
      obtain ⟨hseg', hsized'⟩ := setPtr_spec hb hylt hy hsized hfar
      exact ⟨hseg', hsized', fun h hh => same_setPtr hh⟩

/-! ### The blocks and the memory -/

/-- The free blocks `fl`, in the order of their addresses, and the other ones, `lv`, make up `S`,
and memory has them. -/
structure Core (base brk : ℕ) (mem : ℕ → UInt8) (fl lv : List (ℕ × ℕ)) (S : Set ℕ) : Prop where
  ring : Seg (ptr mem) base (((base, base) :: fl).map Prod.fst) base
  sized : ∀ x ∈ (base, base) :: (fl ++ lv), Sized mem x
  sep : Separated ((base, base) :: fl)
  tiles : Tiling (fl ++ lv) S
  above : ∀ x ∈ fl ++ lv, base + 8 ≤ x.1
  below : ∀ x ∈ fl ++ lv, x.2 ≤ brk
  base_pos : 0 < base
  brk_le : base + 8 ≤ brk ∧ brk < 2 ^ 32

namespace Core

variable {fl lv lv' : List (ℕ × ℕ)} {S : Set ℕ}

theorem retile {fl' : List (ℕ × ℕ)} (h : Core base brk mem fl lv S)
    (hring : Seg (ptr mem') base (((base, base) :: fl').map Prod.fst) base)
    (hsized : ∀ x ∈ (base, base) :: (fl' ++ lv'), Sized mem' x)
    (hsep : Separated ((base, base) :: fl')) (htiles : Tiling (fl' ++ lv') S) :
    Core base brk mem' fl' lv' S :=
  ⟨hring, hsized, hsep, htiles, fun _ hx => (h.tiles.bounds htiles h.above h.below hx).1,
    fun _ hx => (h.tiles.bounds htiles h.above h.below hx).2, h.base_pos, h.brk_le⟩

theorem perm (h : Core base brk mem fl lv S) (hp : lv.Perm lv') : Core base brk mem fl lv' S :=
  h.retile h.ring (fun x hx => h.sized x (by simpa [hp.mem_iff] using hx)) h.sep
    (h.tiles.perm (hp.append_left fl))

theorem init (hpos : 0 < base) (hbrk : base + 8 ≤ brk ∧ brk < 2 ^ 32) :
    Core base brk (setSize (setPtr mem base base) base 0) [] [] (cover []) where
  ring := ⟨rfl, by
    rw [ptr_setSize, ptr_setPtr (by omega)]
    rfl⟩
  sized x hx := by
    rw [append_nil, mem_singleton] at hx
    rw [hx, Sized, size_setSize (by decide), Nat.mul_zero, Nat.add_zero]
  sep := pairwise_singleton _ _
  tiles := ⟨fun _ hx => absurd hx not_mem_nil, List.Pairwise.nil, rfl⟩
  above _ hx := absurd hx not_mem_nil
  below _ hx := absurd hx not_mem_nil
  base_pos := hpos
  brk_le := hbrk

theorem congr (h : Core base brk mem fl lv S)
    (hsame : ∀ x ∈ (base, base) :: (fl ++ lv), Same mem mem' x.1) : Core base brk mem' fl lv S := by
  refine h.retile (h.ring.congr fun a ha => ?_) (fun x hx => (h.sized x hx).of_same (hsame x hx))
    h.sep h.tiles
  obtain ⟨x, hx, rfl⟩ := mem_map.mp ha
  exact (hsame x (by simp at hx ⊢; tauto)).1

section

variable (h : Core base brk mem fl lv S)

include h

theorem room (hx : x ∈ fl ++ lv) : x.1 + 8 ≤ x.2 :=
  (h.sized x (mem_cons_of_mem _ hx)).room (h.tiles.proper x hx)

theorem eq_or_far (hx : x ∈ (base, base) :: (fl ++ lv)) (hb : b ∈ (base, base) :: (fl ++ lv)) :
    x.1 = b.1 ∨ Far x.1 b.1 := by
  rcases mem_cons.mp hx with rfl | hx
  · rcases mem_cons.mp hb with rfl | hb
    · exact Or.inl rfl
    · exact Or.inr (Or.inl (h.above b hb))
  · rcases mem_cons.mp hb with rfl | hb
    · exact Or.inr (Or.inr (h.above x hx))
    · by_cases heq : x = b
      · exact Or.inl (congrArg Prod.fst heq)
      · refine Or.inr (far_of_apart (h.room hx) (h.room hb) ?_)
        exact h.tiles.apart_of_ne hx hb heq

theorem start_le (hx : x ∈ (base, base) :: fl) : base ≤ x.1 ∧ x.1 ≤ x.2 := by
  rcases mem_cons.mp hx with rfl | hx
  · exact ⟨le_rfl, le_rfl⟩
  · have hx := mem_append_left lv hx
    exact ⟨(Nat.le_add_right _ _).trans (h.above x hx), (h.tiles.proper x hx).le⟩

theorem sorted : (((base, base) :: fl).map Prod.fst).Pairwise (· < ·) :=
  pairwise_map.mpr (List.Pairwise.imp_of_mem (fun hx _ hxy => (h.start_le hx).2.trans_lt hxy) h.sep)

theorem headers : ((base, base) :: fl).Pairwise fun x y => x.1 + 8 ≤ y.1 := by
  obtain ⟨-, hsep⟩ := pairwise_cons.mp h.sep
  refine pairwise_cons.mpr ⟨fun y hy => h.above y (mem_append_left _ hy), ?_⟩
  refine List.Pairwise.imp_of_mem (fun {x y} hx _ hxy => ?_) hsep
  exact (h.room (mem_append_left _ hx)).trans (le_of_lt hxy)

theorem start_pos (hx : x ∈ (base, base) :: fl) : 0 < x.1 :=
  h.base_pos.trans_le (h.start_le hx).1

theorem start_lt (hx : x ∈ (base, base) :: fl) : x.1 < 2 ^ 32 := by
  have hbrk := h.brk_le
  rcases mem_cons.mp hx with rfl | hx
  · exact lt_trans (by omega) hbrk.2
  · have hroom := h.room (mem_append_left lv hx)
    have hbelow := h.below x (mem_append_left lv hx)
    omega

theorem length_le : ((base, base) :: fl).length ≤ 2 ^ 32 := by
  have hnodup : (((base, base) :: fl).map Prod.fst).Nodup := h.sorted.imp fun hlt => hlt.ne
  have hsub : (((base, base) :: fl).map Prod.fst).toFinset ⊆ Finset.range (2 ^ 32) := by
    intro a ha
    obtain ⟨x, hx, rfl⟩ := mem_map.mp (mem_toFinset.mp ha)
    exact Finset.mem_range.mpr (h.start_lt hx)
  have hcard := Finset.card_le_card hsub
  rwa [toFinset_card_of_nodup hnodup, Finset.card_range, length_map] at hcard

end

variable {pre post : List (ℕ × ℕ)}

theorem split_cases (hC : (base, base) :: fl = pre ++ x :: post) :
    (pre = [] ∧ x = (base, base) ∧ fl = post) ∨
      ∃ pre', pre = (base, base) :: pre' ∧ fl = pre' ++ x :: post := by
  cases pre with
  | nil =>
    obtain ⟨rfl, rfl⟩ := List.cons.inj hC
    exact Or.inl ⟨rfl, rfl, rfl⟩
  | cons c pre =>
    obtain ⟨rfl, rfl⟩ := List.cons.inj hC
    exact Or.inr ⟨pre, rfl, rfl⟩

theorem ring_split (h : Core base brk mem fl lv S) (hC : (base, base) :: fl = pre ++ x :: post) :
    Seg (ptr mem) base (pre.map Prod.fst) x.1 ∧
      Seg (ptr mem) (ptr mem x.1) (post.map Prod.fst) base := by
  have hring := h.ring
  rw [hC, map_append] at hring
  obtain ⟨m, hpre, rfl, hpost⟩ := Seg.append_iff.mp hring
  exact ⟨hpre, hpost⟩

section

variable (h : Core base brk mem fl (b :: lv) S)

include h

/-- A block that is not on the list is behind one of the list, or before it. -/
theorem before_or_behind (hx : x ∈ (base, base) :: fl) :
    x.2 ≤ b.1 ∧ x.1 + 8 ≤ b.1 ∨ b.2 ≤ x.1 ∧ b.1 + 8 ≤ x.1 := by
  have hb : b ∈ fl ++ b :: lv := by simp
  rcases mem_cons.mp hx with rfl | hx
  · have habove := h.above b hb
    exact Or.inl ⟨le_trans (Nat.le_add_right _ _) habove, habove⟩
  · have hxroom := h.room (mem_append_left _ hx)
    have hbroom := h.room hb
    have hapart := (pairwise_append.mp h.tiles.apart).2.2 x hx b mem_cons_self
    unfold Apart at hapart
    omega

theorem before (hx : x ∈ (base, base) :: fl) (hxb : x.1 < b.1) : x.2 ≤ b.1 ∧ x.1 + 8 ≤ b.1 :=
  (h.before_or_behind hx).resolve_right (by omega)

theorem behind (hx : x ∈ fl) (hbx : b.1 < x.1) : b.2 ≤ x.1 ∧ b.1 + 8 ≤ x.1 :=
  (h.before_or_behind (mem_cons_of_mem _ hx)).resolve_left (by omega)

theorem tiles_glue (hfl : fl = pre ++ post) : Tiling (glue b post ++ (pre ++ lv)) S := by
  subst hfl
  exact Tiling.glue (h.tiles.perm (perm_iff_count.mpr fun a => by simp [count_cons]; omega))

section

variable (hC : (base, base) :: fl = pre ++ x :: post)

include hC

/-- **A block is put on the list**, between the one before it and the one behind it: the memory. -/
theorem insert_mem (hx : x.1 < b.1) (hpost : ∀ y ∈ post, b.1 < y.1)
    (hfl : ∀ y ∈ post, y ∈ fl) (hends : ∀ z ∈ glue b post, z.1 < 2 ^ 32 ∧ z.2 ≤ brk)
    (hmem' : mem' = join (join mem b.1 fun mem => ptr mem x.1) x.1 fun _ => b.1) :
    Seg (ptr mem') base ((pre ++ glue x (glue b post)).map Prod.fst) base ∧
      (∀ y ∈ pre ++ glue x (glue b post), Sized mem' y) ∧
      ∀ a, Far b.1 a → Far x.1 a → Same mem mem' a := by
  have hbrk := h.brk_le
  have hb : b ∈ fl ++ b :: lv := by simp
  have hbroom := h.room hb
  have hbelow := h.below b hb
  have hxC : x ∈ (base, base) :: fl := by simp [hC]
  obtain ⟨hxb, hxb'⟩ := h.before hxC hx
  have hbehind : ∀ y ∈ post, b.2 ≤ y.1 ∧ b.1 + 8 ≤ y.1 := fun y hy =>
    h.behind (hfl y hy) (hpost y hy)
  have hpre : ∀ y ∈ pre, y.1 + 8 ≤ x.1 := by
    have hheaders := h.headers
    rw [hC] at hheaders
    exact fun y hy => (pairwise_append.mp hheaders).2.2 y hy x mem_cons_self
  obtain ⟨hsegpre, hsegpost⟩ := h.ring_split hC
  have hsized : ∀ y ∈ pre ++ x :: post, Sized mem y := fun y hy => by
    rw [← hC] at hy
    refine h.sized y ?_
    rw [mem_cons] at hy ⊢
    exact hy.imp_right (mem_append_left _)
  -- First the block is linked to what is behind it.
  obtain ⟨hseg₁, hsized₁, hsame₁⟩ := join_spec (q := fun mem => ptr mem x.1)
    (h.sized b (mem_cons_of_mem _ hb)) (fun v => (same_setSize (Or.inr hxb')).1) hsegpost
    (fun y hy => hsized y (by simp [hy])) (fun y hy => Or.inl (hbehind y hy).2)
    (fun y hy => by
      have := h.start_lt (mem_cons_of_mem _ (hfl y hy))
      have := h.below y (mem_append_left _ (hfl y hy))
      have := hbehind y hy
      omega)
    (by omega) (fun _ => by have := h.base_pos; have := h.above b hb; omega)
  -- Then the one before it is linked to the block.
  obtain ⟨e, l, hglue, -⟩ := glue_eq b post
  have hstart : ∀ z ∈ glue b post, b.1 ≤ z.1 := fun z hz =>
    start_le_of_mem_glue (fun y hy => (hpost y hy).le) le_rfl hz
  obtain ⟨hseg₂, hsized₂, hsame₂⟩ := join_spec (q := fun _ => b.1)
    ((hsized x (by simp)).of_same (hsame₁ x.1 (Or.inr hxb'))) (fun _ => rfl) hseg₁ hsized₁
    (fun z hz => Or.inl (hxb'.trans (hstart z hz)))
    (fun z hz => by have := hends z hz; have := hstart z hz; have := h.start_pos hxC; omega)
    (by omega) (fun hnil => by simp [hglue] at hnil)
  rw [← hmem'] at hseg₂ hsized₂ hsame₂
  have hsame : ∀ a, Far b.1 a → Far x.1 a → Same mem mem' a := fun a hba hxa =>
    (hsame₁ a hba).trans (hsame₂ a hxa)
  have hfarpre : ∀ y ∈ pre, Same mem mem' y.1 := fun y hy =>
    hsame y.1 (Or.inr (by have := hpre y hy; omega)) (Or.inr (hpre y hy))
  refine ⟨?_, fun y hy => ?_, hsame⟩
  · rw [map_append]
    refine Seg.append_iff.mpr ⟨x.1, hsegpre.congr fun a ha => ?_, hseg₂⟩
    obtain ⟨y, hy, rfl⟩ := mem_map.mp ha
    exact (hfarpre y hy).1
  · rcases mem_append.mp hy with hy | hy
    · exact (hsized y (mem_append_left _ hy)).of_same (hfarpre y hy)
    · exact hsized₂ y hy

theorem insert_list (hx : x.1 < b.1) :
    ∃ fl', (base, base) :: fl' = pre ++ glue x (glue b post) ∧ (∀ y ∈ post, y ∈ fl) ∧
      Tiling (fl' ++ lv) S ∧ ∀ z ∈ glue b post, z.1 < 2 ^ 32 ∧ z.2 ≤ brk := by
  obtain ⟨f, hf⟩ : ∃ f, fl = f ++ post := by
    rcases split_cases hC with ⟨-, -, rfl⟩ | ⟨pre', -, rfl⟩
    · exact ⟨[], rfl⟩
    · exact ⟨pre' ++ [x], by simp⟩
  have hglued := h.tiles_glue hf
  have hends : ∀ z ∈ glue b post, z.1 < 2 ^ 32 ∧ z.2 ≤ brk := fun z hz => by
    have hz := mem_append_left (f ++ lv) hz
    have hproper := hglued.proper z hz
    have hbelow := (h.tiles.bounds hglued h.above h.below hz).2
    have hbrk := h.brk_le
    exact ⟨by omega, hbelow⟩
  rcases split_cases hC with ⟨rfl, rfl, rfl⟩ | ⟨pre', rfl, rfl⟩
  · refine ⟨glue b fl, ?_, fun y hy => hy, h.tiles_glue (nil_append fl).symm, hends⟩
    -- Nothing is joined to `base`.
    obtain ⟨e, l, hglue, -⟩ := glue_eq b fl
    rw [nil_append, hglue]
    exact (if_neg hx.ne).symm
  · refine ⟨pre' ++ glue x (glue b post), rfl, fun y hy => by simp [hy], ?_, hends⟩
    have hfirst : Tiling (glue b post ++ (pre' ++ [x] ++ lv)) S := h.tiles_glue (by simp)
    have hsecond : Tiling (x :: glue b post ++ (pre' ++ lv)) S := hfirst.perm
      (perm_iff_count.mpr fun a => by simp [count_cons]; omega)
    exact hsecond.glue.perm (perm_iff_count.mpr fun a => by simp; omega)

theorem insert_sep (hx : x.1 < b.1) (hpost : ∀ y ∈ post, b.1 < y.1)
    (hfl : ∀ y ∈ post, y ∈ fl) : Separated (pre ++ glue x (glue b post)) := by
  have hsep := h.sep
  have hxC : x ∈ (base, base) :: fl := by simp [hC]
  rw [hC] at hsep
  obtain ⟨hsepre, hsepost, hcross⟩ := pairwise_append.mp hsep
  have hproper : ∀ y ∈ fl ++ b :: lv, y.1 ≤ y.2 := fun y hy => (h.tiles.proper y hy).le
  have hpostle : ∀ y ∈ post, y.1 ≤ y.2 := fun y hy => hproper y (mem_append_left _ (hfl y hy))
  have hxb := (h.before hxC hx).1
  refine pairwise_append.mpr ⟨hsepre, ?_, fun w hw z hz => ?_⟩
  · refine Separated.glue (Separated.glue (pairwise_cons.mp hsepost).2
      (fun y hy => (h.behind (hfl y hy) (hpost y hy)).1) hpostle) (fun y hy => ?_) fun y hy => ?_
    · exact hxb.trans (start_le_of_mem_glue (fun w hw => (hpost w hw).le) le_rfl hy)
    · exact le_of_mem_glue (hproper b (by simp)) hpostle hy
  · refine (hcross w hw x mem_cons_self).trans_le (start_le_of_mem_glue (fun y hy => ?_) le_rfl hz)
    exact start_le_of_mem_glue (fun w hw => hx.le.trans (hpost w hw).le) hx.le hy

/-- **A block is put on the list.** -/
theorem insert (hx : x.1 < b.1) (hpost : ∀ y ∈ post, b.1 < y.1) :
    ∃ fl', (base, base) :: fl' = pre ++ glue x (glue b post) ∧
      Core base brk (join (join mem b.1 fun mem => ptr mem x.1) x.1 fun _ => b.1) fl' lv S := by
  have hb : b ∈ fl ++ b :: lv := by simp
  have hxC : x ∈ (base, base) :: fl := by simp [hC]
  obtain ⟨fl', hfl', hpostfl, htiles, hends⟩ := h.insert_list hC hx
  obtain ⟨hring, hsized, hsame⟩ := h.insert_mem hC hx hpost hpostfl hends rfl
  have hlv : ∀ y ∈ lv, Far b.1 y.1 ∧ Far x.1 y.1 := fun y hy => by
    have hyroom := h.room (show y ∈ fl ++ b :: lv by simp [hy])
    obtain ⟨-, hblv, hcross⟩ := pairwise_append.mp h.tiles.apart
    refine ⟨far_of_apart (h.room hb) hyroom ((pairwise_cons.mp hblv).1 y hy), ?_⟩
    rcases mem_cons.mp hxC with rfl | hxfl
    · exact Or.inl (h.above y (by simp [hy]))
    · exact far_of_apart (h.room (by simp [hxfl])) hyroom (hcross x hxfl y (by simp [hy]))
  refine ⟨fl', hfl', h.retile ?_ (fun y hy => ?_) ?_ htiles⟩
  · rw [hfl']
    exact hring
  · rw [← cons_append, hfl'] at hy
    rcases mem_append.mp hy with hy | hy
    · exact hsized y hy
    · exact (h.sized y (by simp [hy])).of_same (hsame y.1 (hlv y hy).1 (hlv y hy).2)
  · rw [hfl']
    exact h.insert_sep hC hx hpost hpostfl

end

/-- Where a block that is not on the list belongs. -/
theorem exists_place : ∃ pre x post,
    (base, base) :: fl = pre ++ x :: post ∧ x.1 < b.1 ∧ ∀ y ∈ post, b.1 < y.1 := by
  have hb : b ∈ fl ++ b :: lv := by simp
  have habove := h.above b hb
  obtain ⟨pre, x, post, hC, hx, hpost⟩ := exists_last (P := fun y : ℕ × ℕ => y.1 < b.1)
    ⟨(base, base), mem_cons_self, show base < b.1 by omega⟩
  refine ⟨pre, x, post, hC, hx, fun y hy => lt_of_le_of_ne (Nat.not_lt.mp (hpost y hy))
    fun heq => ?_⟩
  -- It would be a block that starts where this one does.
  have hclear := h.before_or_behind (x := y) (by simp [hC, hy])
  omega

/-- **The loop of `free` stops where the block belongs**, and nowhere else. -/
theorem freeStops_iff (hC : (base, base) :: fl = pre ++ x :: post) :
    freeStops mem b.1 x.1 = true ↔ x.1 < b.1 ∧ ∀ y ∈ post, b.1 < y.1 := by
  have habove := h.above b (by simp)
  have hsorted := h.sorted
  have hxC : x ∈ (base, base) :: fl := by simp [hC]
  have hbx := (h.start_le hxC).1
  have hnext := (h.ring_split hC).2
  rw [hC, map_append] at hsorted
  have hsorted := (pairwise_append.mp hsorted).2.1
  cases post with
  | nil =>
    -- At the end of the list, where addresses go down.
    have hnext : ptr mem x.1 = base := hnext
    simp only [freeStops, hnext, Bool.or_eq_true, Bool.and_eq_true, decide_eq_true_eq,
      not_mem_nil, false_implies, implies_true, and_true]
    omega
  | cons y post =>
    have hnext : ptr mem x.1 = y.1 := hnext.1
    obtain ⟨hxy, hy⟩ := pairwise_cons.mp hsorted
    have hxy : x.1 < y.1 := hxy y.1 (by simp)
    have hall : (∀ z ∈ y :: post, b.1 < z.1) ↔ b.1 < y.1 := by
      refine ⟨fun hz => hz y mem_cons_self, fun hlt z hz => ?_⟩
      rcases mem_cons.mp hz with rfl | hz
      · exact hlt
      · exact hlt.trans ((pairwise_cons.mp hy).1 z.1 (mem_map_of_mem hz))
    simp only [freeStops, hnext, Bool.or_eq_true, Bool.and_eq_true, decide_eq_true_eq, hall]
    omega

end

/-- **`free`** puts the block on the list, and one of the list has it all. -/
theorem free {s : State} {rounds : ℕ} (h : Core base s.brk s.mem fl (b :: lv) S)
    (hfreep : s.freep ∈ ((base, base) :: fl).map Prod.fst) (hrounds : 2 ^ 32 ≤ rounds) :
    ∃ mem' freep' fl', s.free rounds (b.1 + 8) = some { s with mem := mem', freep := freep' } ∧
      Core base s.brk mem' fl' lv S ∧ freep' ∈ ((base, base) :: fl').map Prod.fst ∧
      ∃ z ∈ fl', z.1 ≤ b.1 ∧ b.2 ≤ z.2 := by
  have hb : b ∈ fl ++ b :: lv := by simp
  have hbroom := h.room hb
  have hbelow := h.below b hb
  have hbrk := h.brk_le
  obtain ⟨l, hperm, hseg⟩ := h.ring.startAt hfreep
  obtain ⟨pre₀, x₀, post₀, hC₀, hplace⟩ := h.exists_place
  have hx₀ : x₀.1 ∈ s.freep :: l := hperm.mem_iff.mpr (by simp [hC₀])
  have hlen : (s.freep :: l).length ≤ rounds := by
    rw [hperm.length_eq, length_map]
    exact h.length_le.trans hrounds
  obtain ⟨p, hp, hstop, hsearch⟩ :=
    hseg.search_eq ⟨x₀.1, hx₀, (h.freeStops_iff hC₀).mpr hplace⟩ hlen
  obtain ⟨x, hxC, rfl⟩ := mem_map.mp (hperm.mem_iff.mp hp)
  obtain ⟨pre, post, hC⟩ := append_of_mem hxC
  obtain ⟨hx, hpost⟩ := (h.freeStops_iff hC).mp hstop
  obtain ⟨fl', hfl', hcore⟩ := h.insert hC hx hpost
  have hbp : (b.1 + 8 + 2 ^ 32 - 8) % 2 ^ 32 = b.1 := by omega
  refine ⟨_, x.1, fl', ?_, hcore, ?_, ?_⟩
  · rw [State.free, hbp]
    dsimp only
    rw [hsearch]
    rfl
  · obtain ⟨e, l', hglue, -⟩ := glue_eq x (glue b post)
    rw [hfl', hglue]
    simp
  · have hpostle : ∀ y ∈ post, y.1 ≤ y.2 := fun y hy => (h.start_le (by simp [hC, hy])).2
    obtain ⟨z, hz, hzb, hbz⟩ := exists_le_glue_self (x := b) hpostle
    obtain ⟨w, hw, hwz, hzw⟩ := exists_le_glue (h.start_le hxC).2 hz
    have hwC : w ∈ (base, base) :: fl' := by simp [hfl', hw]
    have habove := h.above b hb
    rcases mem_cons.mp hwC with rfl | hwfl
    · exact absurd (hbz.trans hzw) (show ¬b.2 ≤ base by omega)
    · exact ⟨w, hwfl, hwz.trans hzb, hbz.trans hzw⟩

section Take

variable {f post : List (ℕ × ℕ)} (h : Core base brk mem (f ++ x :: post) lv S)

include h

theorem tiles_first : Tiling (x :: (f ++ post ++ lv)) S :=
  h.tiles.perm (perm_iff_count.mpr fun a => by simp [count_cons]; omega)

theorem outside {y : ℕ × ℕ} (hy : y ∈ (base, base) :: (f ++ post ++ lv)) :
    y.1 + 8 ≤ x.1 ∨ x.2 ≤ y.1 := by
  rcases mem_cons.mp hy with rfl | hy
  · exact Or.inl (h.above x (by simp))
  · have hyroom := h.room (x := y) (by simp at hy ⊢; tauto)
    have hapart := (pairwise_cons.mp h.tiles_first.apart).1 y hy
    unfold Apart at hapart
    omega

theorem takeWhole {u : ℕ × ℕ} {pre : List (ℕ × ℕ)} (hu : (base, base) :: f = pre ++ [u]) :
    Core base brk (setPtr mem u.1 (ptr mem x.1)) (f ++ post) (x :: lv) S := by
  have hC : (base, base) :: (f ++ x :: post) = pre ++ u :: x :: post := by
    rw [← cons_append, hu, append_assoc, singleton_append]
  have hC' : (base, base) :: (f ++ post) = pre ++ u :: post := by
    rw [← cons_append, hu, append_assoc, singleton_append]
  have hCx : (base, base) :: (f ++ x :: post) = (pre ++ [u]) ++ x :: post := by
    rw [hC, append_assoc, singleton_append]
  have hsub : ∀ y ∈ (base, base) :: (f ++ post ++ x :: lv),
      y ∈ (base, base) :: (f ++ x :: post ++ lv) := fun y hy => by
    simp at hy ⊢
    tauto
  have hheaders := h.headers
  rw [hC] at hheaders
  obtain ⟨-, hheaders, hpre⟩ := pairwise_append.mp hheaders
  have hupost := (pairwise_cons.mp hheaders).1
  have huC : u ∈ (base, base) :: (f ++ x :: post ++ lv) := by
    rw [← cons_append, hC]
    simp
  have hxpost := (h.ring_split hCx).2
  obtain ⟨hseg, hsized⟩ := setPtr_spec (h.sized u huC) (ptr_lt mem x.1) hxpost
    (fun y hy => h.sized y (by simp [hy]))
    (fun y hy => Or.inl (hupost y (mem_cons_of_mem _ hy)))
  refine h.retile ?_ (fun y hy => ?_) ?_ ?_
  · rw [hC', map_append]
    refine Seg.append_iff.mpr ⟨u.1, (h.ring_split hC).1.congr fun a ha => ?_, hseg⟩
    obtain ⟨y, hy, rfl⟩ := mem_map.mp ha
    exact (same_setPtr (Or.inr (hpre y hy u mem_cons_self))).1
  · rw [Sized, show size (setPtr mem u.1 (ptr mem x.1)) y.1 = size mem y.1 from ?_]
    · exact h.sized y (hsub y hy)
    · rcases h.eq_or_far huC (hsub y hy) with heq | hfar
      · rw [← heq, size_setPtr]
      · exact (same_setPtr hfar).2
  · have hsep := h.sep
    rw [hC] at hsep
    rw [hC']
    refine hsep.sublist (List.Sublist.append_left ?_ pre)
    exact (sublist_cons_self x post).cons_cons u
  · exact h.tiles.perm (perm_iff_count.mpr fun a => by simp [count_cons]; omega)

theorem takeEnd (hn : 0 < n) (hlt : n < size mem x.1) (hp : p = x.1 + 8 * (size mem x.1 - n)) :
    Core base brk (setSize (setSize mem x.1 (size mem x.1 - n)) p n) (f ++ (x.1, p) :: post)
      ((p, p + 8 * n) :: lv) S := by
  have hx : Sized mem x := h.sized x (by simp)
  have hsizelt := size_lt mem x.1
  unfold Sized at hx
  have hxp : x.1 + 8 ≤ p := by omega
  have hpx : p + 8 * n = x.2 := by omega
  set mem' := setSize (setSize mem x.1 (size mem x.1 - n)) p n
  have hsame : ∀ y ∈ (base, base) :: (f ++ post ++ lv), Same mem mem' y.1 := fun y hy => by
    have hout := h.outside hy
    refine (same_setSize ?_).trans (same_setSize ?_)
    · unfold Far
      omega
    · unfold Far
      omega
  have hfirst : Same (setSize mem x.1 (size mem x.1 - n)) mem' x.1 := same_setSize (Or.inr hxp)
  have hcases : ∀ y ∈ (base, base) :: (f ++ (x.1, p) :: post ++ (p, p + 8 * n) :: lv),
      y = (x.1, p) ∨ y = (p, p + 8 * n) ∨ y ∈ (base, base) :: (f ++ post ++ lv) := fun y hy => by
    simp at hy ⊢
    tauto
  refine h.retile ?_ (fun y hy => ?_) ?_ ?_
  · -- No pointer changes.
    have hring : Seg (ptr mem') base (((base, base) :: (f ++ x :: post)).map Prod.fst) base := by
      refine h.ring.congr fun a ha => ?_
      obtain ⟨y, hy, rfl⟩ := mem_map.mp ha
      by_cases hyx : y = x
      · rw [hyx, hfirst.1, ptr_setSize]
      · exact (hsame y (by simp at hy ⊢; tauto)).1
    simpa using hring
  · rcases hcases y hy with rfl | rfl | hy
    · rw [Sized, hfirst.2, size_setSize (by omega)]
      exact hp
    · rw [Sized, size_setSize (by omega)]
    · exact (h.sized y (by simp at hy ⊢; tauto)).of_same (hsame y hy)
  · have hsep := h.sep
    rw [← cons_append] at hsep ⊢
    obtain ⟨hf, hxpost, hcross⟩ := pairwise_append.mp hsep
    obtain ⟨hx, hpost⟩ := pairwise_cons.mp hxpost
    refine pairwise_append.mpr ⟨hf, pairwise_cons.mpr ⟨fun y hy => ?_, hpost⟩, fun y hy z hz => ?_⟩
    · exact lt_of_le_of_lt (show p ≤ x.2 by omega) (hx y hy)
    · rcases mem_cons.mp hz with rfl | hz
      · exact hcross y hy x mem_cons_self
      · exact hcross y hy z (mem_cons_of_mem _ hz)
  · rw [hpx]
    have hcut : Tiling ((x.1, p) :: (p, x.2) :: (f ++ post ++ lv)) S :=
      Tiling.cut (h.tiles_first) (by omega) (by omega)
    exact hcut.perm (perm_iff_count.mpr fun a => by simp [count_cons]; omega)

end Take

/-- **`malloc` takes a block, or the end of one, off the list.** -/
theorem take {s : State} {prevp : ℕ} (h : Core base s.brk s.mem fl lv S)
    (hprev : prevp ∈ ((base, base) :: fl).map Prod.fst) (hn : 0 < n)
    (hsize : n ≤ size s.mem (ptr s.mem prevp)) :
    ∃ mem' a fl', s.take n prevp (ptr s.mem prevp) =
      (a + 8, { s with mem := mem', freep := prevp }) ∧
      Core base s.brk mem' fl' ((a, a + 8 * n) :: lv) S ∧
      prevp ∈ ((base, base) :: fl').map Prod.fst := by
  obtain ⟨u, huC, rfl⟩ := mem_map.mp hprev
  obtain ⟨pre, rest, hC⟩ := append_of_mem huC
  have hseg := (h.ring_split hC).2
  -- `base` has no room, so there is a block behind the one before.
  cases rest with
  | nil =>
    have hnext : ptr s.mem u.1 = base := hseg
    have hbase : Sized s.mem (base, base) := h.sized _ mem_cons_self
    rw [hnext] at hsize
    unfold Sized at hbase
    simp only at hbase
    omega
  | cons x post =>
    have hnext : ptr s.mem u.1 = x.1 := hseg.1
    rw [hnext] at hsize ⊢
    have hC' : (base, base) :: fl = (pre ++ [u]) ++ x :: post := by
      rw [hC, append_assoc, singleton_append]
    rcases split_cases hC' with ⟨hnil, -⟩ | ⟨f, hu, rfl⟩
    · simp at hnil
    have hx : Sized s.mem x := h.sized x (by simp)
    have hroom := h.room (x := x) (by simp)
    have hbelow := h.below x (by simp)
    have hbrk := h.brk_le
    have hu' : u.1 ∈ ((base, base) :: f).map Prod.fst := by simp [← hu]
    unfold Sized at hx
    by_cases heq : size s.mem x.1 = n
    · refine ⟨setPtr s.mem u.1 (ptr s.mem x.1), x.1, f ++ post, ?_, ?_, by simp at hu' ⊢; tauto⟩
      · rw [State.take, if_pos heq, plus, Nat.mod_eq_of_lt (by omega)]
      · rw [← heq, ← hx]
        exact h.takeWhole hu.symm
    · have hlt : n < size s.mem x.1 := by omega
      have hsizelt := size_lt s.mem x.1
      refine ⟨_, x.1 + 8 * (size s.mem x.1 - n), _, ?_, h.takeEnd hn hlt rfl,
        by simp at hu' ⊢; tauto⟩
      have hplus : plus x.1 (size s.mem x.1 - n) = x.1 + 8 * (size s.mem x.1 - n) :=
        Nat.mod_eq_of_lt (by omega)
      have hplus' : plus (x.1 + 8 * (size s.mem x.1 - n)) 1 = x.1 + 8 * (size s.mem x.1 - n) + 8 :=
        Nat.mod_eq_of_lt (by omega)
      rw [State.take, if_neg heq]
      dsimp only
      rw [size_setSize (by omega), hplus, hplus']

/-- Memory from `sbrk` is a block that is not on the list. -/
theorem grow (h : Core base brk mem fl lv S) (hp : brk ≤ p) (hn : 0 < n) (hlt : p + 8 * n < 2 ^ 32)
    : Core base (p + 8 * n) (setSize mem p n) fl ((p, p + 8 * n) :: lv)
      (Set.Ico p (p + 8 * n) ∪ S) := by
  have hbrk := h.brk_le
  have hend : ∀ x ∈ fl ++ lv, x.1 + 8 ≤ x.2 ∧ x.2 ≤ p := fun x hx =>
    ⟨h.room hx, (h.below x hx).trans hp⟩
  have hsame : ∀ x ∈ (base, base) :: (fl ++ lv), Same mem (setSize mem p n) x.1 := fun x hx => by
    refine same_setSize (Or.inr ?_)
    rcases mem_cons.mp hx with rfl | hx
    · exact hbrk.1.trans hp
    · exact (hend x hx).1.trans (hend x hx).2
  refine ⟨?_, fun x hx => ?_, h.sep, ?_, fun x hx => ?_, fun x hx => ?_, h.base_pos, by omega⟩
  · refine h.ring.congr fun a ha => ?_
    obtain ⟨x, hx, rfl⟩ := mem_map.mp ha
    exact (hsame x (by simp at hx ⊢; tauto)).1
  · by_cases hxp : x = (p, p + 8 * n)
    · rw [hxp, Sized, size_setSize (by omega)]
    · have hx' : x ∈ (base, base) :: (fl ++ lv) := by
        simp at hx ⊢
        tauto
      exact (h.sized x hx').of_same (hsame x hx')
  · have htiles : Tiling ((p, p + 8 * n) :: (fl ++ lv)) (Set.Ico p (p + 8 * n) ∪ S) :=
      h.tiles.add (show p < p + 8 * n by omega) fun y hy => Or.inr (hend y hy).2
    exact htiles.perm perm_middle.symm
  · by_cases hxp : x = (p, p + 8 * n)
    · rw [hxp]
      exact hbrk.1.trans hp
    · exact h.above x (by simp at hx ⊢; tauto)
  · by_cases hxp : x = (p, p + 8 * n)
    · rw [hxp]
    · exact ((h.below x (by simp at hx ⊢; tauto)).trans hp).trans (Nat.le_add_right _ _)

end Core

/-! ### The loop of `malloc` -/

section Loop

variable {s : State} {rounds n prevp : ℕ}

/-- **Once round the list.** The loop finds a block that is large enough, or comes to `freep` and
there is none. -/
theorem mallocLoop_scan {u : List ℕ} (hseg : Seg (ptr s.mem) p (u ++ [s.freep]) e)
    (hu : s.freep ∉ u) (hprev : ptr s.mem prevp = p) (k : ℕ) :
    (∃ prevq ∈ prevp :: u, n ≤ size s.mem (ptr s.mem prevq) ∧
      mallocLoop rounds n (u.length + 1 + k) s prevp p = some (s.take n prevq (ptr s.mem prevq))) ∨
    (∀ q ∈ u ++ [s.freep], size s.mem q < n) ∧ mallocLoop rounds n (u.length + 1 + k) s prevp p =
        (s.morecore rounds n).bind fun r => if r.1 = 0 then some (0, r.2)
          else mallocLoop rounds n k r.2 r.1 (ptr r.2.mem r.1) := by
  induction u generalizing prevp p with
  | nil =>
    obtain ⟨rfl, -⟩ := hseg
    rw [length_nil, Nat.zero_add, Nat.add_comm 1 k, mallocLoop]
    by_cases hsize : n ≤ size s.mem s.freep
    · refine Or.inl ⟨prevp, mem_cons_self, hprev ▸ hsize, ?_⟩
      rw [if_pos hsize, hprev]
    · refine Or.inr ⟨fun q hq => ?_, ?_⟩
      · rw [nil_append, mem_singleton] at hq
        rw [hq]
        exact Nat.not_le.mp hsize
      · rw [if_neg hsize, if_pos rfl]
  | cons a u ih =>
    obtain ⟨rfl, hseg⟩ := hseg
    rw [mem_cons, not_or] at hu
    rw [length_cons, Nat.add_right_comm u.length 1 1, Nat.add_right_comm (u.length + 1) 1 k,
      mallocLoop]
    by_cases hsize : n ≤ size s.mem p
    · refine Or.inl ⟨prevp, mem_cons_self, hprev ▸ hsize, ?_⟩
      rw [if_pos hsize, hprev]
    · rw [if_neg hsize, if_neg (Ne.symm hu.1)]
      rcases ih hseg hu.2 rfl with ⟨prevq, hprevq, hfound⟩ | ⟨hnone, hmore⟩
      · exact Or.inl ⟨prevq, mem_cons_of_mem _ hprevq, hfound⟩
      · refine Or.inr ⟨fun q hq => ?_, hmore⟩
        rcases mem_cons.mp hq with rfl | hq
        · exact Nat.not_le.mp hsize
        · exact hnone q hq

/-- The heap is as it should be, and the blocks that are not on the list are `lv`. -/
def Ready (base : ℕ) (s : State) (lv : List (ℕ × ℕ)) : Prop :=
  ∃ fl, Core base s.brk s.mem fl lv (cover s.got) ∧
    s.freep ∈ ((base, base) :: fl).map Prod.fst

theorem sbrk_cases (s : State) {m : ℕ} (hm : m < 2 ^ 31) : ∃ offers,
    s.sbrk m = (none, { s with offers := offers }) ∨ ∃ p, s.brk ≤ p ∧ p + m < 2 ^ 32 ∧
      s.sbrk m =
        (some p, { s with brk := p + m, offers := offers, got := (p, p + m) :: s.got }) := by
  obtain ⟨mem, freep, brk, offers, got, live⟩ := s
  unfold sbrk
  dsimp only
  split
  next => exact ⟨[], Or.inl rfl⟩
  next offers => exact ⟨offers, Or.inl rfl⟩
  next p offers =>
    refine ⟨offers, ?_⟩
    split_ifs with hp hlt
    · exact Or.inl rfl
    · exact Or.inr ⟨p, Nat.not_lt.mp hp, hlt, rfl⟩
    · exact Or.inl rfl

/-- **`morecore`** fails, or there is a block on the list that is large enough. -/
theorem Core.morecore {fl : List (ℕ × ℕ)} (h : Core base s.brk s.mem fl lv (cover s.got))
    (hfreep : s.freep ∈ ((base, base) :: fl).map Prod.fst) (hn : n < 2 ^ 28)
    (hrounds : 2 ^ 32 ≤ rounds) :
    ∃ s', s'.live = s.live ∧ ((s.morecore rounds n = some (0, s') ∧ Ready base s' lv) ∨
      s.morecore rounds n = some (s'.freep, s') ∧ s'.freep ≠ 0 ∧
        ∃ fl', Core base s'.brk s'.mem fl' lv (cover s'.got) ∧
          s'.freep ∈ ((base, base) :: fl').map Prod.fst ∧ ∃ x ∈ fl', n ≤ size s'.mem x.1) := by
  unfold State.morecore
  dsimp only
  obtain ⟨nu, hnu⟩ : ∃ nu, nu = if n < 4096 then 4096 else n := ⟨_, rfl⟩
  have hle : n ≤ nu ∧ 0 < nu ∧ nu < 2 ^ 28 := by
    split at hnu <;> omega
  rw [← hnu, show nu * 8 % 2 ^ 32 = 8 * nu by omega]
  obtain ⟨offers, hfail | ⟨p, hp, hlt, hsbrk⟩⟩ := sbrk_cases s (m := 8 * nu) (by omega)
  · rw [hfail]
    exact ⟨{ s with offers := offers }, rfl, Or.inl ⟨rfl, fl, h, hfreep⟩⟩
  · rw [hsbrk]
    dsimp only
    have hgrow := h.grow hp hle.2.1 hlt
    rw [← cover_cons (p, p + 8 * nu) s.got] at hgrow
    obtain ⟨mem', freep', fl', hfree, hcore, hfreep', z, hz, hzp, hpz⟩ := Core.free
      (s := { s with mem := setSize s.mem p nu, brk := p + 8 * nu, offers := offers,
                     got := (p, p + 8 * nu) :: s.got }) hgrow hfreep hrounds
    have hplus : plus p 1 = p + 8 := Nat.mod_eq_of_lt (by omega)
    dsimp only at hfree hpz
    rw [hplus, hfree]
    refine ⟨{ s with mem := mem', freep := freep', brk := p + 8 * nu, offers := offers,
                     got := (p, p + 8 * nu) :: s.got }, rfl,
                     Or.inr ⟨rfl, ?_, fl', hcore, hfreep', z, hz, ?_⟩⟩
    · obtain ⟨x, hx, hxfreep⟩ := mem_map.mp hfreep'
      have hpos := hcore.start_pos hx
      dsimp only
      omega
    · have hsized := hcore.sized z (by simp [hz])
      unfold Sized at hsized
      dsimp only at hzp ⊢
      omega

/-- **Once round the list**, as the blocks see it. -/
theorem Core.scan {fl : List (ℕ × ℕ)} {S : Set ℕ} (h : Core base s.brk s.mem fl lv S)
    (hfreep : s.freep ∈ ((base, base) :: fl).map Prod.fst) (hn : 0 < n) (rounds : ℕ) :
    ∃ m ≤ 2 ^ 32, ∀ k,
      (∃ mem' freep' a fl', mallocLoop rounds n (m + k) s s.freep (ptr s.mem s.freep) =
          some (a + 8, { s with mem := mem', freep := freep' }) ∧
        Core base s.brk mem' fl' ((a, a + 8 * n) :: lv) S ∧
        freep' ∈ ((base, base) :: fl').map Prod.fst) ∨ (∀ x ∈ fl, size s.mem x.1 < n) ∧
        mallocLoop rounds n (m + k) s s.freep (ptr s.mem s.freep) =
          (s.morecore rounds n).bind fun r => if r.1 = 0 then some (0, r.2)
            else mallocLoop rounds n k r.2 r.1 (ptr r.2.mem r.1) := by
  obtain ⟨u, hperm, hseg⟩ := h.ring.startAt hfreep
  have hnodup : (s.freep :: u).Nodup :=
    hperm.nodup_iff.mpr (h.sorted.imp fun hlt => hlt.ne)
  have hround : Seg (ptr s.mem) (ptr s.mem s.freep) (u ++ [s.freep]) (ptr s.mem s.freep) :=
    Seg.append_iff.mpr ⟨s.freep, hseg.2, rfl, rfl⟩
  refine ⟨u.length + 1, ?_, fun k => ?_⟩
  · have hlen := hperm.length_eq
    rw [length_cons, length_map] at hlen
    exact hlen ▸ h.length_le
  · rcases mallocLoop_scan hround (nodup_cons.mp hnodup).1 rfl k with
      ⟨prevq, hprevq, hsize, hloop⟩ | ⟨hnone, hloop⟩
    · obtain ⟨mem', a, fl', htake, hcore, hfreep'⟩ := h.take (hperm.mem_iff.mp hprevq) hn hsize
      exact Or.inl ⟨mem', prevq, a, fl', by rw [hloop, htake], hcore, hfreep'⟩
    · refine Or.inr ⟨fun x hx => hnone x.1 ?_, hloop⟩
      have hx' : x.1 ∈ s.freep :: u := hperm.mem_iff.mpr (by simp; exact Or.inr ⟨x.2, hx⟩)
      simpa [or_comm] using hx'

/-- **`malloc`** fails, or takes a block of the right size. -/
theorem Ready.mallocLoop (h : Ready base s lv) (hn : 0 < n) (hn' : n < 2 ^ 28)
    (hrounds : 2 ^ 34 ≤ rounds) : ∃ r s',
      mallocLoop rounds n rounds s s.freep (ptr s.mem s.freep) = some (r, s') ∧ s'.live = s.live ∧
        ((r = 0 ∧ Ready base s' lv) ∨ ∃ a, r = a + 8 ∧ Ready base s' ((a, a + 8 * n) :: lv)) := by
  obtain ⟨fl, hcore, hfreep⟩ := h
  obtain ⟨m, hm, hscan⟩ := hcore.scan hfreep hn rounds
  obtain ⟨k, rfl⟩ := Nat.exists_eq_add_of_le (show m ≤ rounds by omega)
  rcases hscan k with ⟨mem', freep', a, fl', hloop, hcore', hfreep'⟩ | ⟨-, hloop⟩
  · exact ⟨_, _, hloop, rfl, Or.inr ⟨a, rfl, fl', hcore', hfreep'⟩⟩
  rw [hloop]
  obtain ⟨s', hlive, ⟨hmore, hready⟩ | ⟨hmore, hne, fl', hcore', hfreep', x, hx, hsize⟩⟩ :=
    hcore.morecore hfreep hn' (show 2 ^ 32 ≤ m + k by omega)
  · refine ⟨0, s', ?_, hlive, Or.inl ⟨rfl, hready⟩⟩
    rw [hmore, Option.bind_some, if_pos rfl]
  · rw [hmore, Option.bind_some, if_neg hne]
    obtain ⟨m', hm', hscan'⟩ := hcore'.scan hfreep' hn (m + k)
    obtain ⟨k', rfl⟩ := Nat.exists_eq_add_of_le (show m' ≤ k by omega)
    rcases hscan' k' with ⟨mem'', freep'', a, fl'', hloop', hcore'', hfreep''⟩ | ⟨hnone, -⟩
    · exact ⟨_, _, hloop', hlive, Or.inr ⟨a, rfl, fl'', hcore'', hfreep''⟩⟩
    · exact absurd hsize (Nat.not_le.mpr (hnone x hx))

end Loop

/-! ### What a program does -/

/-- The block that starts at `a`. -/
def block (mem : ℕ → UInt8) (a : ℕ) : ℕ × ℕ := (a, a + 8 * size mem a)

/-- The blocks that the program has. -/
def State.blocks (s : State) : List (ℕ × ℕ) := s.live.map fun x => block s.mem (x.1 - 8)

section Program

variable {s s' : State} {rounds n : ℕ}

/-- The program has room for what it asked for, behind the header. -/
def Fits (mem : ℕ → UInt8) (x : ℕ × ℕ) : Prop := 8 ≤ x.1 ∧ x.1 + x.2 ≤ (block mem (x.1 - 8)).2

/-- The heap is consistent, as the proof has it. -/
def Inv (base : ℕ) (s : State) : Prop :=
  (0 < base ∧ base + 8 ≤ s.brk ∧ s.brk < 2 ^ 32) ∧
    ((s.freep = 0 ∧ s.live = [] ∧ s.got = []) ∨
      Ready base s s.blocks ∧ ∀ x ∈ s.live, Fits s.mem x)

theorem Ready.keep (h : Ready base s' lv) (live : List (ℕ × ℕ))
    (hlv : ∀ x ∈ live, block mem (x.1 - 8) ∈ lv) :
    ∀ x ∈ live, block s'.mem (x.1 - 8) = block mem (x.1 - 8) := by
  obtain ⟨fl, hcore, -⟩ := h
  intro x hx
  have hsized := hcore.sized _ (mem_cons_of_mem _ (mem_append_right fl (hlv x hx)))
  unfold Sized at hsized
  exact Prod.ext rfl hsized.symm

theorem Ready.inv (h : Ready base s' lv) (mem : ℕ → UInt8)
    (hlv : lv = s'.live.map fun x => block mem (x.1 - 8)) (hfits : ∀ x ∈ s'.live, Fits mem x) :
    Inv base s' := by
  subst hlv
  have hkeep := h.keep s'.live fun x hx => mem_map_of_mem hx
  refine ⟨?_, Or.inr ⟨?_, fun x hx => ?_⟩⟩
  · obtain ⟨fl, hcore, -⟩ := h
    exact ⟨hcore.base_pos, hcore.brk_le⟩
  · rw [blocks, map_congr_left hkeep]
    exact h
  · rw [Fits, hkeep x hx]
    exact hfits x hx

theorem Inv.free (hi : Inv base s) {p : ℕ} (hp : ∃ x ∈ s.live, x.1 = p)
    (hrounds : 2 ^ 32 ≤ rounds) : ∃ s', s.free rounds p = some s' ∧
      Inv base { s' with live := s'.live.eraseP fun x => x.1 = p } := by
  obtain ⟨hbase, ⟨-, hlive, -⟩ | ⟨⟨fl, hcore, hfreep⟩, hfits⟩⟩ := hi
  · obtain ⟨x, hx, -⟩ := hp
    exact absurd hx (by simp [hlive])
  obtain ⟨x, l₁, l₂, -, hxp, hlive, herase⟩ :=
    exists_of_eraseP (p := fun x : ℕ × ℕ => decide (x.1 = p)) hp.choose_spec.1
      (by simpa using hp.choose_spec.2)
  obtain rfl : x.1 = p := by simpa using hxp
  have hx := hfits x (by simp [hlive])
  have hperm : s.blocks.Perm
      (block s.mem (x.1 - 8) :: (l₁ ++ l₂).map fun y => block s.mem (y.1 - 8)) := by
    rw [blocks, hlive, map_append, map_cons, map_append]
    exact perm_middle
  obtain ⟨mem', freep', fl', hfree, hcore', hfreep', -⟩ := (hcore.perm hperm).free hfreep hrounds
  rw [show (block s.mem (x.1 - 8)).1 + 8 = x.1 from Nat.sub_add_cancel hx.1] at hfree
  refine ⟨_, hfree, ?_⟩
  dsimp only
  rw [herase]
  refine Ready.inv ⟨fl', hcore', hfreep'⟩ s.mem rfl fun y hy => hfits y ?_
  rw [hlive]
  simp at hy ⊢
  tauto

theorem nunits_eq (hn : (n + 7) / 8 + 1 < 2 ^ 28) : nunits n = (n + 7) / 8 + 1 := by
  rw [nunits, Nat.mod_eq_of_lt (by omega)]
  rfl

theorem Inv.start (hi : Inv base s) : (s.start base).live = s.live ∧
    Ready base (s.start base) s.blocks ∧ ∀ x ∈ s.live, Fits s.mem x := by
  obtain ⟨⟨hpos, hbrk⟩, ⟨hfreep, hlive, hgot⟩ | ⟨hready, hfits⟩⟩ := hi
  · rw [State.start, if_pos hfreep, State.blocks, hlive]
    refine ⟨hlive ▸ rfl, ⟨[], ?_, mem_cons_self⟩, fun x hx => absurd hx not_mem_nil⟩
    dsimp only
    rw [hgot]
    exact Core.init hpos hbrk
  · obtain ⟨fl, hcore, hfreep⟩ := hready
    obtain ⟨x, hx, hxfreep⟩ := mem_map.mp hfreep
    have hne : s.freep ≠ 0 := by
      have := hcore.start_pos hx
      omega
    rw [State.start, if_neg hne]
    exact ⟨rfl, ⟨fl, hcore, hfreep⟩, hfits⟩

theorem Inv.malloc (hi : Inv base s) (hn : (n + 7) / 8 + 1 < 2 ^ 28) (hrounds : 2 ^ 34 ≤ rounds) :
    ∃ p s', s.malloc base rounds n = some (p, s') ∧
      Inv base (if p = 0 then s' else { s' with live := (p, n) :: s'.live }) := by
  obtain ⟨hlive, hready, hfits⟩ := hi.start
  obtain ⟨p, s', hloop, hlive', hres⟩ :=
    hready.mallocLoop (n := nunits n) (Nat.succ_pos _) ((nunits_eq hn).trans_lt hn) hrounds
  rw [hlive] at hlive'
  refine ⟨p, s', hloop, ?_⟩
  rcases hres with ⟨rfl, hready'⟩ | ⟨a, rfl, hready'⟩
  · rw [if_pos rfl]
    refine hready'.inv s.mem ?_ fun x hx => hfits x (hlive' ▸ hx)
    rw [hlive']
    rfl
  · rw [if_neg (Nat.succ_ne_zero _)]
    have hblocks : ∀ x ∈ s.live, block s.mem (x.1 - 8) ∈ (a, a + 8 * nunits n) :: s.blocks :=
      fun x hx => mem_cons_of_mem _ (mem_map_of_mem hx)
    have hkeep := hready'.keep s.live hblocks
    obtain ⟨fl, hcore, hfreep⟩ := hready'
    have ha : (a, a + 8 * nunits n) = block s'.mem a :=
      Prod.ext rfl (hcore.sized _ (by simp))
    have hready'' : Ready base { s' with live := (a + 8, n) :: s'.live }
        ((a, a + 8 * nunits n) :: s.blocks) := ⟨fl, hcore, hfreep⟩
    refine hready''.inv s'.mem ?_ fun x hx => ?_
    · dsimp only
      rw [map_cons, hlive', Nat.add_sub_cancel, ← ha, map_congr_left hkeep]
      rfl
    · rcases mem_cons.mp hx with rfl | hx
      · refine ⟨Nat.le_add_left _ _, ?_⟩
        rw [Nat.add_sub_cancel, ← ha, nunits_eq hn]
        omega
      · rw [hlive'] at hx
        rw [Fits, hkeep x hx]
        exact hfits x hx

theorem same_update {a : ℕ} {b : UInt8} (h : a < q ∨ q + 8 ≤ a) :
    Same mem (Function.update mem a b) q := by
  refine ⟨load32_congr fun y hy hy' => ?_, load32_congr fun y hy hy' => ?_⟩
  · exact Function.update_of_ne (by omega) _ _
  · exact Function.update_of_ne (by omega) _ _

theorem Inv.write (hi : Inv base s) {a : ℕ} {b : UInt8} (ha : s.Writable base a) :
    Inv base { s with mem := Function.update s.mem a b } := by
  obtain ⟨hbase, hstart | ⟨⟨fl, hcore, hfreep⟩, hfits⟩⟩ := hi
  · exact ⟨hbase, Or.inl hstart⟩
  refine Ready.inv ⟨fl, hcore.congr fun y hy => same_update ?_, hfreep⟩ s.mem rfl hfits
  rcases ha with ⟨x, hx, hxa, hax⟩ | ⟨hnb, hng⟩
  · -- It is in a block of the program, behind the header.
    obtain ⟨hx8, hxend⟩ := hfits x hx
    have hB : block s.mem (x.1 - 8) ∈ fl ++ s.blocks :=
      mem_append_right _ (mem_map_of_mem hx)
    have hB₁ : (block s.mem (x.1 - 8)).1 = x.1 - 8 := rfl
    rcases mem_cons.mp hy with rfl | hy
    · have habove := hcore.above _ hB
      dsimp only
      omega
    · have hyroom := hcore.room hy
      by_cases heq : y = block s.mem (x.1 - 8)
      · rw [heq]
        omega
      · have hapart := hcore.tiles.apart_of_ne hy hB heq
        unfold Apart at hapart
        omega
  · -- It is not of the heap.
    rcases mem_cons.mp hy with rfl | hy
    · dsimp only
      omega
    · have hyroom := hcore.room hy
      by_contra hcon
      have hcover : a ∈ cover (fl ++ s.blocks) := ⟨y, hy, by omega, by omega⟩
      rw [hcore.tiles.cover_eq] at hcover
      obtain ⟨r, hr, har⟩ := hcover
      exact hng r hr har

/-- **Every step keeps the heap consistent, and comes to its end.** -/
theorem Inv.step (hi : Inv base s) (hrounds : 2 ^ 34 ≤ rounds) (act : Act) :
    s.step base rounds act = .error .misuse ∨ ∃ s', s.step base rounds act = .ok s' ∧
    Inv base s' := by
  cases act with
  | malloc n =>
    rw [State.step]
    split
    next hn =>
      obtain ⟨p, s', hmalloc, hi'⟩ := hi.malloc hn hrounds
      rw [hmalloc]
      exact Or.inr ⟨_, rfl, hi'⟩
    next => exact Or.inl rfl
  | free p =>
    rw [State.step]
    split
    next hp =>
      obtain ⟨s', hfree, hi'⟩ := hi.free hp (show 2 ^ 32 ≤ rounds by omega)
      rw [hfree]
      exact Or.inr ⟨_, rfl, hi'⟩
    next => exact Or.inl rfl
  | write a b =>
    rw [State.step]
    split
    next ha => exact Or.inr ⟨_, rfl, hi.write ha⟩
    next => exact Or.inl rfl

theorem Inv.run (hi : Inv base s) (hrounds : 2 ^ 34 ≤ rounds) (acts : List Act) :
    Runs.run (State.step base rounds) acts s = .error .misuse ∨
      ∃ s', Runs.run (State.step base rounds) acts s = .ok s' ∧ Inv base s' := by
  induction acts generalizing s with
  | nil => exact Or.inr ⟨s, rfl, hi⟩
  | cons act acts ih =>
    rcases hi.step hrounds act with hmisuse | ⟨s', hok, hi'⟩
    · exact Or.inl (Runs.run_cons_error hmisuse)
    · rw [Runs.run_cons_ok hok]
      exact ih hi'

end Program

/-! ### The heap is consistent -/

/-- The heap of a program is consistent, with the free blocks that start at these addresses. -/
structure Consistent (base : ℕ) (s : State) (free : List ℕ) : Prop where
  circular : Seg (ptr s.mem) base (base :: free) base
  freep : s.freep ∈ base :: free
  sorted : (base :: free).Pairwise (· < ·)
  /-- A free block ends before the next one starts: they are disjoint and do not meet. -/
  separate : free.Pairwise fun a b => (block s.mem a).2 < b
  live : s.live.Pairwise fun x y => Apart (block s.mem (x.1 - 8)) (block s.mem (y.1 - 8))
  apart : ∀ a ∈ free, ∀ x ∈ s.live, Apart (block s.mem a) (block s.mem (x.1 - 8))
  whole : cover (free.map (block s.mem) ++ s.blocks) = cover s.got
  room : ∀ x ∈ s.live, 8 ≤ x.1 ∧ x.1 + x.2 ≤ (block s.mem (x.1 - 8)).2

variable {s : State}

theorem Inv.consistent (hi : Inv base s) :
    (s.freep = 0 ∧ s.live = [] ∧ s.got = []) ∨ ∃ free, Consistent base s free := by
  obtain ⟨-, hstart | ⟨⟨fl, hcore, hfreep⟩, hfits⟩⟩ := hi
  · exact Or.inl hstart
  have hblock : ∀ x ∈ fl, block s.mem x.1 = x := fun x hx =>
    Prod.ext rfl (hcore.sized x (by simp [hx])).symm
  have hmap : (fl.map Prod.fst).map (block s.mem) = fl := by
    rw [map_map]
    exact (map_congr_left hblock).trans (map_id' fl)
  obtain ⟨-, hlive, hcross⟩ := pairwise_append.mp hcore.tiles.apart
  refine Or.inr ⟨fl.map Prod.fst, hcore.ring, hfreep, hcore.sorted, ?_, ?_, fun a ha x hx => ?_, ?_,
    hfits⟩
  · refine pairwise_map.mpr (List.Pairwise.imp_of_mem (fun {x y} hx _ hxy => ?_)
      (pairwise_cons.mp hcore.sep).2)
    rw [hblock x hx]
    exact hxy
  · exact pairwise_map.mp hlive
  · obtain ⟨y, hy, rfl⟩ := mem_map.mp ha
    rw [hblock y hy]
    exact hcross y hy _ (mem_map_of_mem hx)
  · rw [hmap]
    exact hcore.tiles.cover_eq

/-- **The heap is consistent**, whatever a program does with what it has, as long as it frees only
what it got from `malloc` and asks for fewer than `2 ^ 28` units at a time, and wherever above the
memory it has `sbrk` finds more. No loop goes on for ever. -/
theorem heap_consistent {rounds : ℕ} (hrounds : 2 ^ 34 ≤ rounds) (hpos : 0 < base)
    (hbrk : base + 8 ≤ brk) (hlt : brk < 2 ^ 32) (mem : ℕ → UInt8) (offers : List (Option ℕ))
    (acts : List Act) :
    Runs.run (step base rounds) acts (init mem brk offers) ≠ .error .endless ∧
      ∀ s, Runs.run (step base rounds) acts (init mem brk offers) = .ok s →
        (s.freep = 0 ∧ s.live = [] ∧ s.got = []) ∨ ∃ free, Consistent base s free := by
  have hi : Inv base (State.init mem brk offers) := ⟨⟨hpos, hbrk, hlt⟩, Or.inl ⟨rfl, rfl, rfl⟩⟩
  rcases hi.run hrounds acts with hmisuse | ⟨s', hok, hi'⟩
  · rw [hmisuse]
    exact ⟨(fun h => by cases h), fun s h => by cases h⟩
  · rw [hok]
    refine ⟨(fun h => by cases h), fun s h => ?_⟩
    cases h
    exact hi'.consistent

/-- A program asks twice and frees what it got first. -/
def askTwice : List Act := [.malloc 10, .malloc 100, .write 45040 1, .free 45040]

theorem heap_consistent_askTwice : ∃ s : State,
    Runs.run (step 4096 (2 ^ 34)) askTwice (init (fun _ => 0) 12288 [some 12288]) = .ok s ∧
      s.live = [(44928, 100)] ∧ s.got = [(12288, 45056)] ∧
      ((s.freep = 0 ∧ s.live = [] ∧ s.got = []) ∨ ∃ free, Consistent 4096 s free) := by
  obtain ⟨s, hs, htest⟩ := Runs.exists_of_endsIn
    (fun s : State => decide (s.live = [(44928, 100)] ∧ s.got = [(12288, 45056)]))
    (Runs.run (step 4096 (2 ^ 34)) askTwice (init (fun _ => 0) 12288 [some 12288]))
    (by decide +kernel)
  obtain ⟨hlive, hgot⟩ := of_decide_eq_true htest
  exact ⟨s, hs, hlive, hgot, (heap_consistent le_rfl (by decide) (by decide) (by decide)
    (fun _ => 0) [some 12288] askTwice).2 s hs⟩

/-! ### Requests that are too large -/

/-- `malloc` comes to its end and returns 0, or a block with room for what was asked for, all of it
memory that came from `sbrk`. -/
def State.Serves (base rounds : ℕ) (s : State) (n : ℕ) : Prop :=
  ∃ p s', s.malloc base rounds n = some (p, s') ∧
    (p = 0 ∨ ∀ a, p ≤ a → a < p + n → a ∈ cover s'.got)

theorem Inv.serves {rounds : ℕ} (hi : Inv base s) (hn : (n + 7) / 8 + 1 < 2 ^ 28)
    (hrounds : 2 ^ 34 ≤ rounds) : s.Serves base rounds n := by
  obtain ⟨p, s', hmalloc, hi'⟩ := hi.malloc hn hrounds
  refine ⟨p, s', hmalloc, or_iff_not_imp_left.mpr fun hp a hpa hap => ?_⟩
  rw [if_neg hp] at hi'
  obtain ⟨-, hlive, -⟩ | ⟨free, hcons⟩ := hi'.consistent
  · cases hlive
  · have hroom := hcons.room (p, n) mem_cons_self
    have hmem : a ∈ cover (free.map (block s'.mem) ++
        State.blocks { s' with live := (p, n) :: s'.live }) :=
      ⟨block s'.mem (p - 8), mem_append_right _ (mem_map_of_mem mem_cons_self),
        show p - 8 ≤ a by omega, hap.trans_le hroom.2⟩
    rwa [hcons.whole] at hmem

/-- A program whose memory ends at 12292, with a list that has no block. -/
def fresh : State := (init (fun _ => 0) 12292 [some 12292]).start 4096

theorem malloc_first (rounds : ℕ) {nu : ℕ} {s₁ : State}
    (hnu : nu = if nunits n < 4096 then 4096 else nunits n) (hlt : nu < 2 ^ 32)
    (hne : plus 12292 nu ≠ 4096) (hsbrk : fresh.sbrk (nu * 8 % 2 ^ 32) = (some 12292, s₁))
    (hmem : s₁.mem = fresh.mem) (hfreep : s₁.freep = 4096) : ∃ mem, size mem 12292 = nu ∧
      (init (fun _ => 0) 12292 [some 12292]).malloc 4096 (rounds + 2) n =
        some (State.take { s₁ with mem := mem, freep := 4096 } (nunits n) 4096 12292) := by
  have hbase : ptr fresh.mem 4096 = 4096 ∧ size fresh.mem 4096 = 0 :=
    ⟨by rw [show fresh.mem = setSize (setPtr (fun _ => 0) 4096 4096) 4096 0 from rfl, ptr_setSize,
      ptr_setPtr (by decide)], size_setSize (by decide)⟩
  have hfar : Far 12292 4096 := Or.inr (by decide)
  -- the header of the new block is written, and the two blocks are linked
  obtain ⟨hptr, hsize⟩ : Same fresh.mem (setSize fresh.mem 12292 nu) 4096 := same_setSize hfar
  have hnew : size (setSize fresh.mem 12292 nu) 12292 = nu := size_setSize hlt
  set mem₁ := setSize fresh.mem 12292 nu
  rw [hbase.1] at hptr
  rw [hbase.2] at hsize
  obtain ⟨-, hsize₂⟩ : Same mem₁ (setPtr mem₁ 12292 4096) 4096 := same_setPtr hfar
  have hjoin : join mem₁ 12292 (fun mem => ptr mem 4096) = setPtr mem₁ 12292 4096 := by
    rw [join, hnew, hptr, if_neg hne]
  have hjoin' : join (setPtr mem₁ 12292 4096) 4096 (fun _ => 12292) =
      setPtr (setPtr mem₁ 12292 4096) 4096 12292 := by
    rw [join, hsize₂, hsize, if_neg (by decide)]
  have hfree : State.free (rounds + 2) { s₁ with mem := mem₁ } (plus 12292 1) =
      some { s₁ with mem := setPtr (setPtr mem₁ 12292 4096) 4096 12292, freep := 4096 } := by
    rw [State.free, show (plus 12292 1 + 2 ^ 32 - 8) % 2 ^ 32 = 12292 by decide]
    dsimp only
    rw [hfreep, LinkedList.search, if_pos (by simp [freeStops, hptr]), Option.map_some,
      hjoin, hjoin']
  have hmore : fresh.morecore (rounds + 2) (nunits n) =
      some (4096,
        { s₁ with mem := setPtr (setPtr mem₁ 12292 4096) 4096 12292, freep := 4096 }) := by
    rw [morecore, ← hnu, hsbrk]
    dsimp only
    rw [hmem, hfree]
    rfl
  have hlast : size (setPtr (setPtr mem₁ 12292 4096) 4096 12292) 12292 = nu := by
    rw [(same_setPtr (Or.inl (by decide))).2, size_setPtr, hnew]
  refine ⟨setPtr (setPtr mem₁ 12292 4096) 4096 12292, hlast, ?_⟩
  have hpos : 0 < nunits n := Nat.succ_pos _
  have hle : nunits n ≤ nu := by
    split at hnu <;> omega
  change State.mallocLoop (rounds + 2) (nunits n) (rounds + 2) fresh 4096 (ptr fresh.mem 4096) = _
  rw [hbase.1, mallocLoop, hbase.2, if_neg (by omega), if_pos (show 4096 = fresh.freep from rfl),
    hmore, Option.bind_some, if_neg (show 4096 ≠ 0 by decide), mallocLoop]
  dsimp only
  rw [ptr_setPtr (by decide), hlast, if_pos hle]

theorem sbrk_fresh {u : ℕ} (hu : 2 ^ 28 ≤ u) (hu' : u ≤ 2 ^ 29) :
    ∃ s₁, fresh.sbrk (u * 8 % 2 ^ 32) = (some 12292, s₁) ∧ s₁.mem = fresh.mem ∧ s₁.freep = 4096 ∧
      ∀ a, a ∉ cover s₁.got := by
  have hnil : ∀ a, a ∉ cover ([] : List (ℕ × ℕ)) := by
    rintro a ⟨x, hx, -⟩
    cases hx
  change ∃ s₁, State.sbrk ⟨fresh.mem, 4096, 12292, [some 12292], [], []⟩ _ = _ ∧ _
  rw [State.sbrk]
  dsimp only
  rw [if_neg (by decide)]
  split_ifs
  · refine ⟨_, rfl, rfl, rfl, ?_⟩
    rintro a ⟨x, hx, hxa⟩
    obtain rfl := mem_singleton.mp hx
    have hle := hxa.1
    have hlt := hxa.2
    dsimp only at hle hlt
    omega
  · omega
  · exact ⟨_, rfl, rfl, rfl, hnil⟩
  · omega
  · exact ⟨_, rfl, rfl, rfl, hnil⟩

/-- **`malloc` and large requests.** Whatever the program did before, a request of fewer than
`2 ^ 28` units is served. One of more units is not: the argument of `sbrk` is an `int`, and the
number of units is computed from a sum that may wrap. -/
theorem malloc_serves_iff {rounds n : ℕ} (hrounds : 2 ^ 34 ≤ rounds) (hn : n < 2 ^ 32) :
    (∀ base brk mem offers acts s, 0 < base → base + 8 ≤ brk → brk < 2 ^ 32 →
      Runs.run (step base rounds) acts (init mem brk offers) = .ok s → s.Serves base rounds n) ↔
      (n + 7) / 8 + 1 < 2 ^ 28 := by
  constructor
  · intro h
    by_contra hlarge
    obtain ⟨r, rfl⟩ := Nat.exists_eq_add_of_le' (show 2 ≤ rounds by omega)
    obtain ⟨p, s', hmalloc, hserves⟩ := h 4096 12292 (fun _ => 0) [some 12292] [] _ (by decide)
      (by decide) (by decide) rfl
    suffices hbad : p ≠ 0 ∧ p ∉ cover s'.got from
      hbad.2 (hserves.resolve_left hbad.1 p le_rfl (by omega))
    by_cases hwrap : n + 7 < 2 ^ 32
    · have hunits : nunits n = (n + 7) / 8 + 1 := by
        rw [nunits, Nat.mod_eq_of_lt (show n + 8 - 1 < 2 ^ 32 by omega)]
        rfl
      obtain ⟨s₁, hsbrk, hmem, hfreep, hgot⟩ := sbrk_fresh (u := nunits n) (by omega) (by omega)
      obtain ⟨mem, hsize, hfirst⟩ := malloc_first r (if_neg (by omega)).symm (by omega)
        (by rw [plus]; omega) hsbrk hmem hfreep
      rw [hfirst, State.take, if_pos hsize] at hmalloc
      cases hmalloc
      exact ⟨by decide, hgot _⟩
    · have hunits : nunits n = 1 := by
        rw [nunits]
        omega
      obtain ⟨mem, hsize, hfirst⟩ := malloc_first r
        (show 4096 = if nunits n < 4096 then 4096 else nunits n by rw [hunits]; rfl) (by decide)
        (by decide) rfl rfl rfl
      rw [hfirst, State.take, hunits, if_neg (by rw [hsize]; decide)] at hmalloc
      dsimp only at hmalloc
      rw [size_setSize (by rw [hsize]; decide), hsize] at hmalloc
      cases hmalloc
      refine ⟨by decide, ?_⟩
      rintro ⟨x, hx, hxp⟩
      obtain rfl := mem_singleton.mp hx
      exact absurd hxp.2 (by decide)
  · intro hlt base brk mem offers acts s hpos hbrk hbrk' hrun
    have hi : Inv base (init mem brk offers) := ⟨⟨hpos, hbrk, hbrk'⟩, Or.inl ⟨rfl, rfl, rfl⟩⟩
    rcases hi.run hrounds acts with hmisuse | ⟨s', hok, hi'⟩
    · cases hmisuse.symm.trans hrun
    · cases hok.symm.trans hrun
      exact hi'.serves hlt hrounds

/-- The largest request that a program which has asked twice is served, and that one more byte is
not served in all programs. -/
theorem malloc_serves_iff_largest :
    (∃ s, Runs.run (step 4096 (2 ^ 34)) askTwice (init (fun _ => 0) 12288 [some 12288]) = .ok s ∧
      s.live = [(44928, 100)] ∧ s.Serves 4096 (2 ^ 34) 0x7FFFFFF0) ∧
    ¬∀ base brk mem offers acts s, 0 < base → base + 8 ≤ brk → brk < 2 ^ 32 →
      Runs.run (step base (2 ^ 34)) acts (init mem brk offers) = .ok s →
        s.Serves base (2 ^ 34) 0x7FFFFFF1 := by
  obtain ⟨s, hs, htest⟩ := Runs.exists_of_endsIn (fun s : State => decide (s.live = [(44928, 100)]))
    (Runs.run (step 4096 (2 ^ 34)) askTwice (init (fun _ => 0) 12288 [some 12288]))
    (by decide +kernel)
  refine ⟨⟨s, hs, of_decide_eq_true htest, ?_⟩, fun h => ?_⟩
  · exact (malloc_serves_iff le_rfl (by decide)).mpr (by decide) 4096 12288 (fun _ => 0)
      [some 12288] askTwice s (by decide) (by decide) (by decide) hs
  · exact absurd ((malloc_serves_iff le_rfl (by decide)).mp h) (by decide)

/-- The largest request of all gets a header, at the end of the memory. -/
theorem malloc_short :
    ¬State.Serves 4096 (2 ^ 34) (init (fun _ => 0) 12288 [some 12288]) 0xFFFFFFFF := by
  rintro ⟨p, s', hmalloc, hserves⟩
  have hrun : ((init (fun _ => 0) 12288 [some 12288]).malloc 4096 (2 ^ 34) 0xFFFFFFFF).map
      (fun r => (r.1, r.2.got)) = some (45056, [(12288, 45056)]) := by decide +kernel
  rw [hmalloc] at hrun
  obtain ⟨rfl, hgot⟩ := Prod.mk.inj (Option.some.inj hrun)
  obtain ⟨x, hx, hxp⟩ := hserves.resolve_left (by decide) 45056 le_rfl (by decide)
  rw [hgot] at hx
  obtain rfl := mem_singleton.mp hx
  exact absurd hxp.2 (by decide)

end Xv6.Umalloc
