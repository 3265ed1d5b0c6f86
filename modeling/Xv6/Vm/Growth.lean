import Xv6.Vm.Kvm

/-!
# Growing an address space, page by page

The frames of a directory and the free ones, taken together, are what there is to account for. An
operation that neither loses nor invents a frame leaves this union as it is (`Conserves`).

`Ownership.Transfer` gives one half: no frame comes from anywhere else. The other half is a matter
of counting. A directory has one frame for itself, one for each page table and one for each page
that is present, all different; where this number grows by as much as was taken from the free list,
nothing was lost on the way.

## Main results

* `WF.ncard_owned` — the number of frames of a directory
* `allocuvm_grows` — where growing an address space can stop
* `allocuvm_enough` — growing when there are pages for it, and how many it takes
-/

namespace Xv6

open ByteMemory PhysMem Ownership List
open Finset (mem_union mem_image)

variable {m m' m'' m₀ m₁ : PhysMem} {d va a k n oldsz newsz : ℕ}

/-! ### Counting -/

/-- The user pages that are present, by number. -/
def pages (m : PhysMem) (d : ℕ) : Finset ℕ :=
  (Finset.range 0x80000).filter fun k => Present m d (4096 * k)

theorem mem_pages : k ∈ pages m d ↔ k < 0x80000 ∧ Present m d (4096 * k) := by
  simp [pages]

/-- The frames of a directory, as a finite set. -/
def frames (m : PhysMem) (d : ℕ) : Finset ℕ :=
  insert d ((tables m d).image (pgtab m d) ∪ (pages m d).image fun k => pageOf m d (4096 * k))

theorem coe_frames (m : PhysMem) (d : ℕ) : (frames m d : Set ℕ) = owned m d := by
  ext f
  simp only [frames, Finset.coe_insert, Set.mem_insert_iff, Finset.mem_coe, mem_union,
    mem_image, mem_tables, mem_pages]
  constructor
  · rintro (rfl | ⟨i, ⟨hi, ht⟩, rfl⟩ | ⟨k, ⟨hk, hp⟩, rfl⟩)
    · exact ⟨_, .dir⟩
    · exact ⟨_, .table hi ht⟩
    · exact ⟨_, .user (by omega) (by omega) hp⟩
  · rintro ⟨r, hr⟩
    cases hr with
    | dir => exact .inl rfl
    | table hi ht => exact .inr (.inl ⟨_, ⟨hi, ht⟩, rfl⟩)
    | @user va ha hv hp =>
      have hva : 4096 * (va / 4096) = va := by omega
      exact .inr (.inr ⟨va / 4096, ⟨by omega, by rwa [hva]⟩, by rw [hva]⟩)

theorem finite_owned (m : PhysMem) (d : ℕ) : (owned m d).Finite :=
  coe_frames m d ▸ Finset.finite_toSet _

/-- **The number of frames of a directory.** -/
theorem WF.ncard_owned (h : WF m d) :
    (owned m d).ncard = 1 + (tables m d).card + (pages m d).card := by
  have htab : ((tables m d).image (pgtab m d)).card = (tables m d).card := by
    refine Finset.card_image_of_injOn fun i hi j hj he => ?_
    obtain ⟨hi, hti⟩ := mem_tables.mp hi
    obtain ⟨hj, htj⟩ := mem_tables.mp hj
    exact h.pgtab_inj hi hj hti htj he
  have hpage : ((pages m d).image fun k => pageOf m d (4096 * k)).card = (pages m d).card := by
    refine Finset.card_image_of_injOn fun i hi j hj he => ?_
    obtain ⟨hi, hpi⟩ := mem_pages.mp hi
    obtain ⟨hj, hpj⟩ := mem_pages.mp hj
    have hdown := h.pageOf_inj (by omega) (by omega) hpi hpj he
    rw [pgrounddown_of_mod (by omega), pgrounddown_of_mod (by omega)] at hdown
    omega
  have hdis : Disjoint ((tables m d).image (pgtab m d))
      ((pages m d).image fun k => pageOf m d (4096 * k)) := by
    refine Finset.disjoint_left.mpr fun f hf hf' => ?_
    obtain ⟨i, hi, rfl⟩ := mem_image.mp hf
    obtain ⟨k, hk, he⟩ := mem_image.mp hf'
    obtain ⟨hi, ht⟩ := mem_tables.mp hi
    obtain ⟨hk, hp⟩ := mem_pages.mp hk
    exact h.pageOf_ne_pgtab (by omega) hp hi ht he
  have hdir : d ∉ (tables m d).image (pgtab m d) ∪
      (pages m d).image fun k => pageOf m d (4096 * k) := by
    rw [mem_union, mem_image, mem_image]
    rintro (⟨i, hi, he⟩ | ⟨k, hk, he⟩)
    · obtain ⟨hi, ht⟩ := mem_tables.mp hi
      exact h.pgtab_ne_dir hi ht he
    · obtain ⟨hk, hp⟩ := mem_pages.mp hk
      exact h.pageOf_ne_dir (by omega) hp he
  rw [← coe_frames, Set.ncard_coe_finset, frames, Finset.card_insert_of_notMem hdir,
    Finset.card_union_of_disjoint hdis, htab, hpage]
  omega

/-! ### Conservation -/

/-- The frames of the directory and the free ones are the same, taken together. -/
structure Conserves (m m' : PhysMem) (d : ℕ) : Prop where
  wf : WF m' d
  frames : ∀ f, f ∈ owned m' d ∨ f ∈ m'.freelist ↔ f ∈ owned m d ∨ f ∈ m.freelist

theorem Conserves.refl (h : WF m d) : Conserves m m d := ⟨h, fun _ => Iff.rfl⟩

theorem Conserves.trans (h : Conserves m m' d) (h' : Conserves m' m'' d) : Conserves m m'' d :=
  ⟨h'.wf, fun f => (h'.frames f).trans (h.frames f)⟩

theorem Keeps.conserves (h : Keeps m m' d) (hwf : WF m d) (hdraws : Draws m m' n)
    (hcard : (owned m d).ncard + n ≤ (owned m' d).ncard) : Conserves m m' d := by
  refine ⟨h.wf, fun f => ⟨h.transfer.sub f, h.transfer.conserves hwf.owns (finite_owned m d) ?_⟩⟩
  have hlen := hdraws.can.1
  have hdrop : m'.freelist.length = m.freelist.length - n := by
    rw [hdraws.freelist, length_drop]
  simp only [pool]
  omega

theorem Allocs.conserves (h : Allocs m m' d (· = a)) (hwf : WF m d) (ha : a % 4096 = 0)
    (hv : a < 0x80000000) (htab : tables m' d = insert (pdx a) (tables m d))
    (hdraws : Draws m m' (1 + if HasTable m d (pdx a) then 0 else 1)) : Conserves m m' d := by
  have hnew : a / 4096 ∉ pages m d := fun hmem => by
    have hp := (mem_pages.mp hmem).2
    rw [show 4096 * (a / 4096) = a by omega] at hp
    exact h.absent a hv (pgrounddown_of_mod ha) hp
  have hpages : pages m' d = insert (a / 4096) (pages m d) := by
    ext k
    rw [Finset.mem_insert, mem_pages, mem_pages]
    constructor
    · rintro ⟨hk, hp⟩
      rcases (h.present_iff (by omega)).mp hp with hp | hs
      · exact .inr ⟨hk, hp⟩
      · rw [pgrounddown_of_mod (by omega)] at hs
        exact .inl (by omega)
    · rintro (rfl | ⟨hk, hp⟩)
      · refine ⟨by omega, (h.present_iff (by omega)).mpr (.inr ?_)⟩
        rw [pgrounddown_of_mod (by omega)]
        omega
      · exact ⟨hk, (h.present_iff (by omega)).mpr (.inl hp)⟩
  refine h.keeps.conserves hwf hdraws ?_
  rw [hwf.ncard_owned, h.keeps.wf.ncard_owned, hpages, Finset.card_insert_of_notMem hnew, htab]
  by_cases ht : HasTable m d (pdx a)
  · rw [if_pos ht, Finset.insert_eq_of_mem (mem_tables.mpr ⟨pdx_lt a, ht⟩)]
    omega
  · rw [if_neg ht, Finset.card_insert_of_notMem fun hmem => ht (mem_tables.mp hmem).2]
    omega

/-! ### Growing, page by page -/

/-- The number of pages `allocuvm` has taken when it has mapped `k` pages from `a` on: one for each,
and one for each page table that was missing. -/
def growCost (m : PhysMem) (d a k : ℕ) : ℕ :=
  k + ((Finset.range k).image (fun j => pdx (a + 4096 * j)) \ tables m d).card

theorem growCost_zero (m : PhysMem) (d a : ℕ) : growCost m d a 0 = 0 := by
  simp [growCost]

theorem growCost_succ (m : PhysMem) (d a k : ℕ) : growCost m d a (k + 1) = growCost m d a k +
    (1 + if pdx (a + 4096 * k) ∈ tables m d ∪
      (Finset.range k).image (fun j => pdx (a + 4096 * j)) then 0 else 1) := by
  simp only [growCost, Finset.range_add_one, Finset.image_insert]
  generalize (Finset.range k).image (fun j => pdx (a + 4096 * j)) = R
  generalize pdx (a + 4096 * k) = x
  by_cases hT : x ∈ tables m d
  · rw [Finset.insert_sdiff_of_mem R hT, if_pos (Finset.mem_union_left R hT)]
    omega
  · rw [Finset.insert_sdiff_of_notMem R hT]
    by_cases hR : x ∈ R
    · rw [Finset.insert_eq_of_mem (Finset.mem_sdiff.mpr ⟨hR, hT⟩),
        if_pos (Finset.mem_union_right _ hR)]
      omega
    · rw [Finset.card_insert_of_notMem fun hmem => hR (Finset.mem_sdiff.mp hmem).1,
        if_neg fun hmem => (mem_union.mp hmem).elim hT hR]
      omega

theorem growCost_one (m : PhysMem) (d a : ℕ) :
    growCost m d a 1 = 1 + if HasTable m d (pdx a) then 0 else 1 := by
  rw [growCost_succ, growCost_zero, Nat.zero_add]
  simp [mem_tables, pdx_lt]

theorem growCost_lt (m : PhysMem) (d a k : ℕ) : growCost m d a k < growCost m d a (k + 1) := by
  rw [growCost_succ]
  omega

theorem growCost_mono {j : ℕ} (h : k ≤ j) : growCost m d a k ≤ growCost m d a j := by
  induction j, h using Nat.le_induction with
  | base => exact Nat.le_refl _
  | succ j _ ih => exact Nat.le_trans ih (Nat.le_of_lt (growCost_lt m d a j))

/-- The first `k` pages from `a` on are mapped. -/
structure GrowUpTo (m₀ m : PhysMem) (d a k : ℕ) : Prop where
  allocs : Allocs m₀ m d fun va => va % 4096 = 0 ∧ a ≤ va ∧ va < a + 4096 * k
  tables : tables m d = tables m₀ d ∪ (Finset.range k).image fun j => pdx (a + 4096 * j)
  draws : Draws m₀ m (growCost m₀ d a k)
  conserves : Conserves m₀ m d

theorem GrowUpTo.zero (h : WF m d) (a : ℕ) : GrowUpTo m m d a 0 where
  allocs := (Allocs.refl h).congr fun va => by
    constructor
    · exact False.elim
    · rintro ⟨-, h1, h2⟩
      omega
  tables := by simp
  draws := by
    rw [growCost_zero]
    exact .refl m
  conserves := .refl h

section

variable (h : GrowUpTo m₀ m d a k)

include h

theorem GrowUpTo.present_iff (hv : va < 0x80000000) : Present m d va ↔
      Present m₀ d va ∨ pgrounddown va % 4096 = 0 ∧ a ≤ pgrounddown va ∧
        pgrounddown va < a + 4096 * k :=
  h.allocs.present_iff hv

theorem GrowUpTo.cost : growCost m₀ d a (k + 1) = growCost m₀ d a k +
    (1 + if HasTable m d (pdx (a + 4096 * k)) then 0 else 1) := by
  have hiff : pdx (a + 4096 * k) ∈ Xv6.tables m d ↔ HasTable m d (pdx (a + 4096 * k)) := by
    rw [mem_tables, and_iff_right (pdx_lt _)]
  rw [growCost_succ, ← h.tables, if_congr hiff rfl rfl]

theorem GrowUpTo.next (ha : a % 4096 = 0)
    (hv : a + 4096 * k < 0x80000000) (hal : Allocs m m₁ d (· = a + 4096 * k))
    (htab : Xv6.tables m₁ d = insert (pdx (a + 4096 * k)) (Xv6.tables m d))
    (hdraws : Draws m m₁ (1 + if HasTable m d (pdx (a + 4096 * k)) then 0 else 1)) :
    GrowUpTo m₀ m₁ d a (k + 1) where
  allocs := (h.allocs.trans hal).congr fun va => by omega
  tables := by
    rw [htab, h.tables, Finset.range_add_one, Finset.image_insert, Finset.union_insert]
  draws := by
    rw [h.cost]
    exact h.draws.trans hdraws
  conserves :=
    h.conserves.trans (hal.conserves h.conserves.wf (by omega) hv htab hdraws)

end

/-- Where growing an address space can stop. -/
inductive GrowStops (m₀ : PhysMem) (d oldsz newsz a : ℕ) : Except Panic (ℕ × PhysMem) → Prop
  | remap {va : ℕ} : va % 4096 = 0 → a ≤ va → va < newsz → Present m₀ d va →
      GrowStops m₀ d oldsz newsz a (.error .remap)
  | full {m : PhysMem} {k : ℕ} : GrowUpTo m₀ m d a k → newsz ≤ a + 4096 * k →
      (∀ j, j < k → a + 4096 * j < newsz) → GrowStops m₀ d oldsz newsz a (.ok (newsz, m))
  /-- For want of a page. What was mapped is unmapped again. -/
  | page {m m₁ m' : PhysMem} {k : ℕ} : GrowUpTo m₀ m d a k → a + 4096 * k < newsz →
      kalloc m = (none, m₁) → Unmaps m₁ m' d (Visited m₁ d (pgroundup oldsz) newsz) →
      GrowStops m₀ d oldsz newsz a (.ok (0, m'))
  /-- For want of a page table it does not stop, but loses the page and goes on. -/
  | table {m m₁ : PhysMem} {k f : ℕ} {res : Except Panic (ℕ × PhysMem)} {g : Growth} :
      GrowUpTo m₀ m d a k → a + 4096 * k < newsz → CanAlloc m 1 →
      LosesPage m m₁ d (a + 4096 * k) f →
      g.Ends m₁ d oldsz newsz (a + 4096 * k + 4096) res → GrowStops m₀ d oldsz newsz a res

theorem allocuvmLoop_grows (ha : a % 4096 = 0) (hold : oldsz ≤ a) (hnew : newsz < 0x80000000)
    (n : ℕ) : ∀ {m : PhysMem} {k : ℕ}, GrowUpTo m₀ m d a k → newsz ≤ a + 4096 * k + 4096 * n →
      (∀ j, j < k → a + 4096 * j < newsz) →
      GrowStops m₀ d oldsz newsz a (allocuvmLoop (n + 1) m d oldsz newsz (a + 4096 * k)) := by
  induction n with
  | zero =>
    intro m k h hfuel hlt
    rw [allocuvmLoop, if_neg (by omega)]
    exact .full h (by omega) hlt
  | succ n ih =>
    intro m k h hfuel hlt
    have hwf := h.conserves.wf
    by_cases hend : a + 4096 * k < newsz
    · have hround := allocuvmLoop_round hwf (by omega : (a + 4096 * k) % 4096 = 0) hend hnew
        (by omega : oldsz < newsz) (n + 1)
      generalize allocuvmLoop (n + 1 + 1) m d oldsz newsz (a + 4096 * k) = res at hround
      cases hround with
      | failed hk hun => exact .page h hend hk hun
      | remap _ hp =>
        -- it is none of those mapped so far, which lie below
        refine .remap (by omega) (Nat.le_add_right a _) hend
          (((h.present_iff (by omega)).mp hp).resolve_right ?_)
        rw [pgrounddown_of_mod (by omega)]
        omega
      | lost hcan hlose =>
        exact .table h hend hcan hlose
          (allocuvmLoop_spec hnew n hlose.keeps.wf (.refl hlose.keeps.wf _ _) (by omega) (by omega)
            (Nat.le_refl _) (by omega))
      | mapped hal htab hdraws =>
        rw [show a + 4096 * k + 4096 = a + 4096 * (k + 1) by omega]
        refine ih (h.next ha (by omega) hal (tables_insert (pdx_lt _) htab) hdraws) (by omega)
          fun j hj => ?_
        rcases Nat.lt_succ_iff_lt_or_eq.mp hj with hj | rfl
        · exact hlt j hj
        · exact hend
    · rw [allocuvmLoop, if_neg hend]
      exact .full h (by omega) hlt

/-- **Where growing an address space stops.** -/
theorem allocuvm_grows (h : WF m d) (hold : oldsz ≤ newsz) (hnew : newsz < 0x80000000) :
    GrowStops m d oldsz newsz (pgroundup oldsz) (allocuvm m d oldsz newsz) := by
  rw [allocuvm, if_neg (by simp only [kernbase]; omega), if_neg (by omega)]
  have hgrow := allocuvmLoop_grows (pgroundup_mod oldsz) (le_pgroundup (by omega)) hnew npages
    (.zero h _) (by simp only [npages]; omega) fun j hj => absurd hj (Nat.not_lt_zero j)
  rwa [Nat.mul_zero 4096, Nat.add_zero (pgroundup oldsz)] at hgrow

theorem GrowUpTo.canAlloc {j : ℕ} (h : GrowUpTo m₀ m d a k) (hlt : k < j)
    (hcan : CanAlloc m₀ (growCost m₀ d a j)) :
    CanAlloc m (1 + if HasTable m d (pdx (a + 4096 * k)) then 0 else 1) := by
  have hnext := hcan.mono (growCost_mono (Nat.succ_le_of_lt hlt))
  rw [h.cost] at hnext
  exact h.draws.canAlloc.mp hnext

/-- **Growing with enough pages.** -/
theorem allocuvm_enough (h : WF m d) (hnew : newsz < 0x80000000)
    (hlo : pgroundup oldsz + 4096 * k < newsz) (hhi : newsz ≤ pgroundup oldsz + 4096 * (k + 1))
    (hle : oldsz ≤ newsz) (habs : ∀ va, pgroundup oldsz ≤ va → va < newsz → ¬ Present m d va)
    (hcan : CanAlloc m (growCost m d (pgroundup oldsz) (k + 1))) :
    ∃ m', allocuvm m d oldsz newsz = .ok (newsz, m') ∧
      Allocs m m' d (fun va => va % 4096 = 0 ∧ pgroundup oldsz ≤ va ∧ va < newsz) ∧
      Draws m m' (growCost m d (pgroundup oldsz) (k + 1)) := by
  have hup := pgroundup_mod oldsz
  have hstops := allocuvm_grows h hle hnew
  generalize allocuvm m d oldsz newsz = res at hstops
  cases hstops with
  | remap _ hva hlt hp => exact absurd hp (habs _ hva hlt)
  | @full m' j hg hend hlt =>
    obtain rfl : j = k + 1 := by
      have hk := hlt (j - 1)
      omega
    exact ⟨m', rfl, hg.allocs.congr fun va => by omega, hg.draws⟩
  | page hg hlt hk =>
    have h1 := (hg.canAlloc (by omega) hcan).mono (Nat.le_add_right 1 _)
    exact absurd h1 (not_canAlloc_of_none hk)
  | table hg hlt _ hlose =>
    have h2 := hg.canAlloc (by omega) hcan
    rw [if_neg hlose.noTable] at h2
    exact absurd h2 hlose.short

end Xv6
