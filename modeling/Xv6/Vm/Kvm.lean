import Xv6.Vm.UserMemory

/-!
# The kernel part of a page directory

`setupkvm` and `freevm` from `vm.c`: a directory with the kernel's mappings and no user pages, and
the end of one.

## Counting

Every proof that a run of the kernel gets as far as it does depends on how many pages an operation
takes. `mappages` takes one for each region of its range that has no table, so its specification
carries the set `tables` of regions that have one. For `setupkvm` the count comes to 65.

## Main results

* `mappages_range` — mapping a range of kernel pages
* `setupkvm_cases` — a new directory maps what `kernelPte` says, or there were no 65 pages
* `freevm_spec` — every frame of an address space goes back to the free list
-/

namespace Xv6

open ByteMemory PhysMem Ownership List

variable {m m' m₁ : PhysMem} {d va a k pa perm f oldsz newsz : ℕ} {w : ℕ}

/-! ### Mapping a range -/

/-- The regions of a directory that have a page table. -/
def tables (m : PhysMem) (d : ℕ) : Finset ℕ := (Finset.range 1024).filter (HasTable m d)

theorem mem_tables {i : ℕ} : i ∈ tables m d ↔ i < 1024 ∧ HasTable m d i := by
  simp [tables]

/-- The regions of the pages `a`, …, `a + 4096 * k`. -/
def regions (a k : ℕ) : Finset ℕ := Finset.Icc (pdx a) (pdx (a + 4096 * k))

theorem regions_succ (h : a + 4096 * (k + 1) < 2 ^ 32) (ha : a % 4096 = 0) :
    regions a (k + 1) = insert (pdx a) (regions (a + 4096) k) := by
  ext i
  have hend : a + 4096 + 4096 * k = a + 4096 * (k + 1) := by omega
  simp only [regions, hend, Finset.mem_insert, Finset.mem_Icc, pdx, npdentries]
  omega

theorem tables_insert {i : ℕ} (hi : i < 1024)
    (h : ∀ k, k < 1024 → (HasTable m' d k ↔ HasTable m d k ∨ k = i)) :
    tables m' d = insert i (tables m d) := by
  ext k
  rw [Finset.mem_insert, mem_tables, mem_tables]
  constructor
  · rintro ⟨hk, ht⟩
    exact ((h k hk).mp ht).symm.imp_right fun ht => ⟨hk, ht⟩
  · rintro (rfl | ⟨hk, ht⟩)
    · exact ⟨hi, (h k hi).mpr (.inr rfl)⟩
    · exact ⟨hk, (h k hk).mpr (.inl ht)⟩

theorem MapsPage.tables (h : MapsPage m m' d va w) :
    tables m' d = insert (pdx va) (tables m d) :=
  tables_insert (pdx_lt va) h.hasTable

theorem card_insert_sdiff {α : Type*} [DecidableEq α] (x : α) (R T : Finset α) :
    (insert x R \ T).card = (if x ∈ T then 0 else 1) + (R \ insert x T).card := by
  by_cases hx : x ∈ T
  · rw [if_pos hx, Finset.insert_sdiff_of_mem R hx, Finset.insert_eq_of_mem hx, Nat.zero_add]
  · have hsplit : insert x R \ T = insert x (R \ insert x T) := by
      ext y
      simp only [Finset.mem_sdiff, Finset.mem_insert]
      constructor
      · rintro ⟨rfl | hy, hn⟩
        · exact .inl rfl
        · exact (em (y = x)).imp_right fun hne => ⟨hy, not_or.mpr ⟨hne, hn⟩⟩
      · rintro (rfl | ⟨hy, hn⟩)
        · exact ⟨.inl rfl, hx⟩
        · exact ⟨.inr hy, fun hT => hn (.inr hT)⟩
    rw [if_neg hx, hsplit, Finset.card_insert_of_notMem (by simp), Nat.add_comm]

/-- What a memory looks like after the pages `a`, …, `a + 4096 * k` of the kernel's part were
mapped to physical addresses from `pa` on. -/
structure MapsRange (m m' : PhysMem) (d a k pa perm : ℕ) : Prop where
  keeps : Keeps m m' d
  pteOf : ∀ va, va < 2 ^ 32 → pteOf m' d va =
    if a ≤ va ∧ va < a + 4096 * (k + 1) then (pa + (pgrounddown va - a)) ||| perm ||| pteP
    else pteOf m d va
  tables : tables m' d = tables m d ∪ regions a k
  draws : Draws m m' (regions a k \ Xv6.tables m d).card

theorem MapsPage.keeps (h : MapsPage m m' d va w) (hva : 0x80000000 ≤ va) :
    Keeps m m' d := by
  refine ⟨h.wf, h.wf.owns, fun g hg => ?_, fun x hx hfree => ?_⟩
  · rcases hg with ⟨r, hr⟩ | hg
    · rcases h.holds g r hr with hr | hfree | ⟨-, -, hv⟩
      · exact .inl ⟨r, hr⟩
      · exact .inr hfree
      · omega
    · exact .inr (h.draws.suffix.subset hg)
  · exact h.byte x (fun he => hx (he ▸ ⟨_, .dir⟩)) (fun i hi ht he => hx (he ▸ ⟨_, .table hi ht⟩))
      hfree

theorem MapsPage.pteOf_va (h : MapsPage m m' d a w) (ha : a % 4096 = 0) (hlt : a < 2 ^ 32)
    (hva : va < 2 ^ 32) :
    Xv6.pteOf m' d va = if a ≤ va ∧ va < a + 4096 then w else Xv6.pteOf m d va := by
  rw [h.pteOf]
  refine if_congr ?_ rfl rfl
  simp only [pdx, ptx, pgsize, npdentries, nptentries]
  omega

theorem MapsRange.of_page (hm : MapsPage m m' d a (pa ||| perm ||| pteP)) (ha : a % 4096 = 0)
    (hka : 0x80000000 ≤ a) (hlt : a < 2 ^ 32) : MapsRange m m' d a 0 pa perm := by
  have hreg : regions a 0 = {pdx a} := by simp [regions]
  refine ⟨hm.keeps hka, fun va hva => ?_, ?_, ?_⟩
  · rw [hm.pteOf_va ha hlt hva]
    refine if_ctx_congr (by omega) (fun hin => ?_) fun _ => rfl
    rw [(pgrounddown_eq_iff ha).mpr (by omega), Nat.sub_self, Nat.add_zero]
  · rw [hm.tables, hreg, Finset.union_comm, Finset.insert_eq]
  · rw [hreg, ← insert_empty_eq, card_insert_sdiff, Finset.empty_sdiff, Finset.card_empty,
      Nat.add_zero, if_congr mem_tables rfl rfl]
    simpa only [pdx_lt, true_and] using hm.draws

theorem MapsRange.cons (hm : MapsPage m m₁ d a (pa ||| perm ||| pteP)) (ha : a % 4096 = 0)
    (hka : 0x80000000 ≤ a) (hlt : a + 4096 * (k + 1) < 2 ^ 32)
    (hr : MapsRange m₁ m' d (a + 4096) k (pa + 4096) perm) :
    MapsRange m m' d a (k + 1) pa perm := by
  refine ⟨(hm.keeps hka).trans hr.keeps, fun va hva => ?_, ?_, ?_⟩
  · rw [hr.pteOf va hva, hm.pteOf_va ha (by omega) hva]
    by_cases hfirst : a ≤ va ∧ va < a + 4096
    · have hrest : ¬ (a + 4096 ≤ va ∧ va < a + 4096 + 4096 * (k + 1)) := by omega
      have hall : a ≤ va ∧ va < a + 4096 * (k + 1 + 1) := ⟨hfirst.1, by linarith [hfirst.2]⟩
      rw [if_neg hrest, if_pos hfirst, if_pos hall, (pgrounddown_eq_iff ha).mpr hfirst,
        Nat.sub_self, Nat.add_zero]
    · rw [if_neg hfirst]
      refine if_ctx_congr (by omega) (fun hin => ?_) fun _ => rfl
      have hdown : a + 4096 ≤ pgrounddown va := by
        simp only [pgrounddown, pgsize]; omega
      rw [show pa + 4096 + (pgrounddown va - (a + 4096)) = pa + (pgrounddown va - a) by omega]
  · rw [hr.tables, hm.tables, regions_succ hlt ha, Finset.insert_union, Finset.union_insert]
  · have hdraws := hm.draws.trans hr.draws
    rw [hm.tables] at hdraws
    rw [regions_succ hlt ha, card_insert_sdiff, if_congr mem_tables rfl rfl]
    simpa only [pdx_lt, true_and] using hdraws

theorem mappagesLoop_range (hperm : perm < 4096) (k : ℕ) :
    ∀ {fuel : ℕ} {m : PhysMem} {a pa : ℕ}, WF m d → a % 4096 = 0 → 0x80000000 ≤ a →
      a + 4096 * (k + 1) ≤ 2 ^ 32 → pa % 4096 = 0 → pa + 4096 * (k + 1) ≤ 2 ^ 32 → k < fuel →
      (∀ va, a ≤ va → va < a + 4096 * (k + 1) → ¬ Present m d va) →
      (¬ CanAlloc m (regions a k \ tables m d).card ∧
        ∃ m', mappagesLoop fuel m d a (a + 4096 * k) pa perm = .ok (-1, m') ∧ Keeps m m' d ∧
          m.failures < m'.failures) ∨
      ∃ m', mappagesLoop fuel m d a (a + 4096 * k) pa perm = .ok (0, m') ∧
        MapsRange m m' d a k pa perm := by
  induction k with
  | zero =>
    intro fuel m a pa h ha hka hlt hpa hpalt hfuel habs
    obtain ⟨n, rfl⟩ : ∃ n, fuel = n + 1 := ⟨fuel - 1, by omega⟩
    have hva : a < 2 ^ 32 := by linarith
    obtain ⟨hp, -⟩ | ⟨-, ⟨hn, hcan⟩, m', hloop, hg, -, -, hfail⟩ | ⟨-, m', hm, hloop⟩ :=
      mappagesLoop_step h hva hpa (by linarith) hperm (fun hv => by omega) n (a + 4096 * 0)
    · exact absurd hp (habs a (Nat.le_refl _) (by omega))
    · refine .inl ⟨?_, m', hloop, ⟨hg.wf, hg.transfer⟩, by omega⟩
      have hnot : pdx a ∉ tables m d := fun hin => hn (mem_tables.mp hin).2
      simpa [regions, Finset.sdiff_eq_self_of_disjoint, hnot] using hcan
    · exact .inr ⟨m', hloop.trans (if_pos rfl), .of_page hm ha hka hva⟩
  | succ k ih =>
    intro fuel m a pa h ha hka hlt hpa hpalt hfuel habs
    obtain ⟨n, rfl⟩ : ∃ n, fuel = n + 1 := ⟨fuel - 1, by omega⟩
    have hva : a < 2 ^ 32 := by linarith
    have hlt' : a + 4096 * (k + 1) < 2 ^ 32 := by linarith
    have hlast : a + 4096 * (k + 1) = a + 4096 + 4096 * k := by ring
    have hne : ¬ a = a + 4096 * (k + 1) := by linarith
    have hnext : u32 (a + pgsize) = a + 4096 := by simp only [u32, pgsize]; omega
    have hcard := card_insert_sdiff (pdx a) (regions (a + 4096) k) (tables m d)
    rw [← regions_succ hlt' ha, if_congr mem_tables rfl rfl] at hcard
    simp only [pdx_lt, true_and] at hcard
    obtain ⟨hp, -⟩ | ⟨-, ⟨hn, hcan⟩, m', hloop, hg, -, -, hfail⟩ | ⟨-, m₁, hm, hloop⟩ :=
      mappagesLoop_step h hva hpa (by linarith) hperm (fun hv => by omega) n (a + 4096 * (k + 1))
    · exact absurd hp (habs a (Nat.le_refl _) (by linarith))
    · refine .inl ⟨fun hc => hcan (hc.mono ?_), m', hloop, ⟨hg.wf, hg.transfer⟩, by omega⟩
      rw [hcard, if_neg hn]
      exact Nat.le_add_right 1 _
    · have hnext' : u32 (pa + pgsize) = pa + 4096 := by simp only [u32, pgsize]; omega
      rw [if_neg hne, hnext, hnext', hlast] at hloop
      rw [hlast, hloop]
      have habs₁ : ∀ va, a + 4096 ≤ va → va < a + 4096 + 4096 * (k + 1) → ¬ Present m₁ d va := by
        intro va hle hin
        have hout : ¬ (a ≤ va ∧ va < a + 4096) := by omega
        rw [Present, hm.pteOf_va ha hva (by linarith), if_neg hout]
        exact habs va (by omega) (by linarith)
      obtain ⟨hcan, m', hl, hk, hf⟩ | ⟨m', hl, hr⟩ := ih hm.wf (by omega)
        (Nat.le_add_right_of_le hka) (by linarith) (by omega : (pa + 4096) % 4096 = 0) (by linarith)
        (Nat.lt_of_succ_lt_succ hfuel) habs₁
      · refine .inl ⟨fun hc => hcan ?_, m', hl, (hm.keeps hka).trans hk, hm.failures ▸ hf⟩
        rw [hm.tables, ← hm.draws.canAlloc, ← hcard]
        exact hc
      · exact .inr ⟨m', hl, .cons hm ha hka hlt' hr⟩

/-- **Mapping a range of kernel pages.** -/
theorem mappages_range (h : WF m d) (ha : a % 4096 = 0) (hka : 0x80000000 ≤ a)
    (hlt : a + 4096 * (k + 1) ≤ 2 ^ 32) (hpa : pa % 4096 = 0)
    (hpalt : pa + 4096 * (k + 1) ≤ 2 ^ 32) (hperm : perm < 4096)
    (habs : ∀ va, a ≤ va → va < a + 4096 * (k + 1) → ¬ Present m d va) :
    (¬ CanAlloc m (regions a k \ tables m d).card ∧
      ∃ m', mappages m d a (4096 * (k + 1)) pa perm = .ok (-1, m') ∧ Keeps m m' d ∧
        m.failures < m'.failures) ∨ ∃ m', mappages m d a (4096 * (k + 1)) pa perm = .ok (0, m') ∧
      MapsRange m m' d a k pa perm := by
  have hlast : pgrounddown (u32 (a + 4096 * (k + 1) + 4294967295)) = a + 4096 * k := by
    simp only [pgrounddown, u32, pgsize]; omega
  rw [mappages, pgrounddown_of_mod ha, hlast]
  exact mappagesLoop_range hperm k h ha hka hlt hpa hpalt (by simp only [npages]; omega) habs

/-! ### `setupkvm` -/

/-- An entry of `kmap`. -/
structure Kmap where
  virt : ℕ
  physStart : ℕ
  /-- The physical address after it, modulo 2 ^ 32. -/
  physEnd : ℕ
  perm : ℕ

/-- The kernel's mappings, which are present in every process's page table. -/
def kmap : List Kmap :=
  [⟨kernbase, 0, extmem, pteW⟩, ⟨kernlink, kernlink - kernbase, dataPhys, 0⟩,
    ⟨kernbase + dataPhys, dataPhys, phystop, pteW⟩, ⟨devspace, devspace, 0, pteW⟩]

/-- The loop of `setupkvm` over `kmap`. -/
def setupkvmLoop (pgdir : ℕ) : List Kmap → PhysMem → Except Panic (Option ℕ × PhysMem)
  | [], m => .ok (some pgdir, m)
  | k :: ks, m =>
    match mappages m pgdir k.virt (u32 (k.physEnd + 4294967296 - k.physStart)) k.physStart
        k.perm with
    | .error e => .error e
    | .ok (r, m) => if r < 0 then .ok (none, m) else setupkvmLoop pgdir ks m

/-- Set up the kernel part of a page table. Where this fails after the directory was allocated,
the directory and its tables are lost. -/
def setupkvm (m : PhysMem) : Except Panic (Option ℕ × PhysMem) :=
  match kalloc m with
  | (none, m) => .ok (none, m)
  | (some pgdir, m) =>
    if kernbase + phystop > devspace then .error .phystopTooHigh
    else setupkvmLoop pgdir kmap (m.setPage pgdir 0)

/-- The entry every page directory has for an address of the kernel's part, and 0 for a user
address. -/
def kernelPte (va : ℕ) : ℕ :=
  if va < kernbase then 0
  else if va < kernlink then (pgrounddown va - kernbase) ||| pteW ||| pteP
  else if va < kernbase + dataPhys then (pgrounddown va - kernbase) ||| 0 ||| pteP
  else if va < kernbase + phystop then (pgrounddown va - kernbase) ||| pteW ||| pteP
  else if va < devspace then 0
  else pgrounddown va ||| pteW ||| pteP

theorem kernelPte_pgrounddown (va : ℕ) : kernelPte (pgrounddown va) = kernelPte va := by
  simp only [kernelPte, pgrounddown_of_mod (pgrounddown_mod va), kernbase, kernlink, extmem,
    dataPhys, phystop, devspace]
  have h1 : pgrounddown va < 0x80000000 ↔ va < 0x80000000 := by
    simp only [pgrounddown, pgsize]; omega
  have h2 : pgrounddown va < 0x80000000 + 0x100000 ↔ va < 0x80000000 + 0x100000 := by
    simp only [pgrounddown, pgsize]; omega
  have h3 : pgrounddown va < 0x80000000 + 0x10a000 ↔ va < 0x80000000 + 0x10a000 := by
    simp only [pgrounddown, pgsize]; omega
  have h4 : pgrounddown va < 0x80000000 + 0xE000000 ↔ va < 0x80000000 + 0xE000000 := by
    simp only [pgrounddown, pgsize]; omega
  have h5 : pgrounddown va < 0xFE000000 ↔ va < 0xFE000000 := by
    simp only [pgrounddown, pgsize]; omega
  simp only [h1, h2, h3, h4, h5]

theorem kernelPte_lt (h : va < 2 ^ 32) : kernelPte va < 2 ^ 32 := by
  have hle := pgrounddown_le va
  have hdown := pgrounddown_mod va
  have hsub : ∀ {perm : ℕ}, perm < 4096 → ¬ va < kernbase →
      (pgrounddown va - kernbase) ||| perm ||| pteP < 2 ^ 32 := by
    intro perm hperm hge
    simp only [kernbase] at hge ⊢
    exact entry_lt (by simp only [pgrounddown, pgsize] at *; omega) (by omega) hperm
  rw [kernelPte]
  split_ifs with h₁
  · decide
  · exact hsub (by decide) h₁
  · exact hsub (by decide) h₁
  · exact hsub (by decide) h₁
  · decide
  · exact entry_lt hdown (by omega) (by decide)

theorem kernelPte_and_pteU (va : ℕ) : kernelPte va &&& pteU = 0 := by
  have hflags : ∀ {pa perm : ℕ}, pa % 4096 = 0 → perm < 4096 → (perm ||| pteP) &&& pteU = 0 →
      (pa ||| perm ||| pteP) &&& pteU = 0 := by
    intro pa perm hpa hperm h
    rw [and_flags _ (by decide), pteFlags_entry hpa hperm, h]
  have hdown := pgrounddown_mod va
  rw [kernelPte]
  by_cases h₁ : va < kernbase
  · rw [if_pos h₁]; rfl
  have hsub : (pgrounddown va - kernbase) % 4096 = 0 := by
    simp only [kernbase, pgrounddown, pgsize] at h₁ ⊢
    omega
  rw [if_neg h₁]
  split_ifs
  · exact hflags hsub (by decide) (by decide)
  · exact hflags hsub (by decide) (by decide)
  · exact hflags hsub (by decide) (by decide)
  · rfl
  · exact hflags hdown (by decide) (by decide)

/-- What a new directory looks like when the kernel's mappings below `e` are in place and the
regions in `T` have tables. -/
structure KvmUpTo (m₀ m : PhysMem) (d e : ℕ) (T : Finset ℕ) : Prop where
  wf : WF m d
  transfer : Transfer pgrounddown m₀.pool ∅ m.pool (owned m d)
  pteOf : ∀ va, va < 2 ^ 32 → pteOf m d va = if va < e then kernelPte va else 0
  tables : tables m d = T
  draws : Draws m₀ m (1 + T.card)

/-- What is left of a `setupkvm` that failed: nothing but a shorter free list. It is shorter if
there was a page for the directory. -/
structure KvmFails (m₀ m : PhysMem) : Prop where
  free : FreeOk m
  transfer : Transfer pgrounddown m₀.pool ∅ m.pool ∅
  short : ¬ CanAlloc m₀ 65
  failures : m₀.failures < m.failures
  lost : ¬ CanAlloc m₀ 1 ∧ m.freelist = m₀.freelist ∨
    CanAlloc m₀ 1 ∧ ∃ d ∈ m₀.freelist, d ∉ m.freelist

variable {m₀ : PhysMem} {e : ℕ} {T : Finset ℕ}

theorem KvmUpTo.zeroed (hfree : FreeOk m₀) (hk : kalloc m₀ = (some d, m)) :
    KvmUpTo m₀ (m.setPage d 0) d 0x80000000 ∅ := by
  obtain ⟨hbyte, hlist, hcnt, -⟩ := kalloc_eq_some hk
  have hnd : (d :: m.freelist).Nodup := hlist ▸ hfree.nodup
  have hd : d ∈ m₀.freelist := by rw [hlist]; exact mem_cons_self
  have hfr := hfree.isFrame d hd
  have hdm := hfr.mod
  have hpde : ∀ i, i < 1024 → pde (m.setPage d 0) d i = 0 := fun i hi =>
    load32_fill_zero (by omega) (by simp only [pgsize]; omega)
  have htab : ∀ i, i < 1024 → ¬ HasTable (m.setPage d 0) d i := fun i hi ht => by
    simp [HasTable, hpde i hi] at ht
  have hpte : ∀ va, Xv6.pteOf (m.setPage d 0) d va = 0 := fun va =>
    pteOf_of_not_hasTable (htab _ (pdx_lt va))
  have hholds : ∀ f r, Holds (m.setPage d 0) d f r → f = d ∧ r = .dir := by
    intro f r hf
    cases hf with
    | dir => exact ⟨rfl, rfl⟩
    | table hi ht => exact absurd ht (htab _ hi)
    | user ha hv hp => exact absurd hp.hasTable (htab _ (pdx_lt _))
  have hwf : WF (m.setPage d 0) d := by
    refine ⟨⟨hnd.of_cons, fun f hf => hfree.isFrame f ?_, ?_⟩, fun hf => ?_, fun hf hf' => ?_,
      fun hf => ?_, fun hi ht => absurd ht (htab _ hi)⟩
    · rw [hlist]; exact mem_cons_of_mem _ hf
    · have hc : m.freeFrameCnt = m.freelist.length := by rw [hcnt, hfree.cnt, hlist]; simp
      exact hc
    · rw [(hholds _ _ hf).1]; exact hfr
    · rw [(hholds _ _ hf).2, (hholds _ _ hf').2]
    · rw [(hholds _ _ hf).1]; exact (nodup_cons.mp hnd).1
  have hown : owned (m.setPage d 0) d = {d} :=
    Set.ext fun f => ⟨fun hf => (hholds f _ hf.choose_spec).1, fun he => he ▸ ⟨_, .dir⟩⟩
  have howns : Owns m₀.pool ∅ := ⟨hfree.nodup, fun _ hf => hf.elim⟩
  have htake : Transfer pgrounddown m₀.pool ∅ m.pool (insert d ∅) :=
    .take howns hlist hbyte rfl
  refine ⟨hwf, ?_, fun va hva => ?_, ?_, ?_⟩
  · rw [hown]
    refine (htake.mono (by simp)).trans (.write ⟨hnd.of_cons, ?_⟩ rfl fun x hx =>
      setPage_byte hdm hx)
    rintro f rfl
    exact (nodup_cons.mp hnd).1
  · rw [hpte]
    by_cases hlt : va < 0x80000000
    · rw [if_pos hlt, kernelPte, if_pos hlt]
    · rw [if_neg hlt]
  · refine Finset.eq_empty_of_forall_notMem fun i hi => ?_
    exact htab i (mem_tables.mp hi).1 (mem_tables.mp hi).2
  · exact (Draws.of_kalloc hk).trans (.of_byte m _)

/-- The entry describes the `k + 1` pages below `e'`, all of them at or above `e`, and adding their
regions to `T` gives `T'`. -/
def Kmap.Fits (x : Kmap) (k e e' : ℕ) (T T' : Finset ℕ) : Prop :=
  e ≤ x.virt ∧ x.virt % 4096 = 0 ∧ 0x80000000 ≤ x.virt ∧ x.virt + 4096 * (k + 1) ≤ 2 ^ 32 ∧
    x.physStart % 4096 = 0 ∧ x.physStart + 4096 * (k + 1) ≤ 2 ^ 32 ∧ x.perm < 4096 ∧
      u32 (x.physEnd + 4294967296 - x.physStart) = 4096 * (k + 1) ∧
        e' = x.virt + 4096 * (k + 1) ∧ T' = T ∪ regions x.virt k ∧ T'.card ≤ 64

instance (x : Kmap) (k e e' : ℕ) (T T' : Finset ℕ) : Decidable (x.Fits k e e' T T') := by
  unfold Kmap.Fits; infer_instance

theorem KvmUpTo.cons (h : KvmUpTo m₀ m d e T) (x : Kmap) (ks : List Kmap) (k e' : ℕ)
    (T' : Finset ℕ) (hfit : x.Fits k e e' T T') (hgap : ∀ va, e ≤ va → va < x.virt →
      kernelPte va = 0)
    (hent : ∀ va, x.virt ≤ va → va < x.virt + 4096 * (k + 1) →
      kernelPte va = (x.physStart + (pgrounddown va - x.virt)) ||| x.perm ||| pteP) :
    (∃ m', setupkvmLoop d (x :: ks) m = .ok (none, m') ∧ KvmFails m₀ m') ∨
      ∃ m', setupkvmLoop d (x :: ks) m = setupkvmLoop d ks m' ∧ KvmUpTo m₀ m' d e' T' := by
  obtain ⟨he, ha, hka, hlt, hpa, hpalt, hperm, hsize, rfl, rfl, hcard⟩ := hfit
  obtain ⟨a, pa, physEnd, perm⟩ := x
  simp only at he ha hka hlt hpa hpalt hperm hsize hcard hgap hent ⊢
  have habs : ∀ va, a ≤ va → va < a + 4096 * (k + 1) → ¬ Present m d va := by
    intro va hle hva
    rw [Present, h.pteOf va (Nat.lt_of_lt_of_le hva hlt), if_neg (by omega)]
    simp
  have hadd : (T ∪ regions a k).card = T.card + (regions a k \ T).card := by
    rw [Finset.union_comm, ← Finset.card_sdiff_add_card, Nat.add_comm]
  rw [setupkvmLoop]
  simp only [hsize]
  obtain ⟨hcan, m', hmap, hkeep, hfail⟩ | ⟨m', hmap, hr⟩ :=
    mappages_range h.wf ha hka hlt hpa hpalt hperm habs
  · simp only [hmap]
    refine .inl ⟨m', rfl, hkeep.wf.free, (h.transfer.trans hkeep.transfer).mono (by simp),
      fun hc => hcan ?_, h.draws.failures ▸ hfail, .inr ⟨h.draws.can.mono (by omega), d, ?_, ?_⟩⟩
    · rw [h.tables, ← h.draws.canAlloc]
      exact hc.mono (by omega)
    · exact (h.transfer.sub d (.inl ⟨_, .dir⟩)).resolve_left id
    · exact hkeep.wf.notFree .dir
  · simp only [hmap]
    refine .inr ⟨m', rfl, hr.keeps.wf, h.transfer.trans hr.keeps.transfer, fun va hva => ?_, ?_, ?_⟩
    · rw [hr.pteOf va hva, h.pteOf va hva]
      by_cases hin : a ≤ va ∧ va < a + 4096 * (k + 1)
      · rw [if_pos hin, if_pos hin.2, hent va hin.1 hin.2]
      · rw [if_neg hin]
        by_cases hlow : va < e
        · have hup : va < a + 4096 * (k + 1) := Nat.lt_of_lt_of_le hlow (by linarith)
          rw [if_pos hlow, if_pos hup]
        · rw [if_neg hlow]
          by_cases hmid : va < a + 4096 * (k + 1)
          · have hva' : va < a := Nat.lt_of_not_le fun hle => hin ⟨hle, hmid⟩
            rw [if_pos hmid, hgap va (Nat.le_of_not_lt hlow) hva']
          · rw [if_neg hmid]
    · rw [hr.tables, h.tables]
    · have hdraws := h.draws.trans hr.draws
      rw [h.tables, Nat.add_assoc, ← hadd] at hdraws
      exact hdraws

/-- What a new page directory looks like. -/
structure NewKvm (m₀ m : PhysMem) (d : ℕ) : Prop where
  wf : WF m d
  transfer : Transfer pgrounddown m₀.pool ∅ m.pool (owned m d)
  pteOf : ∀ va, va < 2 ^ 32 → pteOf m d va = kernelPte va
  hasTable : ∀ i, i < 1024 → (HasTable m d i ↔ (512 ≤ i ∧ i < 568) ∨ 1016 ≤ i)
  draws : Draws m₀ m 65

theorem pgrounddown_ge (ha : a % 4096 = 0) (h : a ≤ va) : a ≤ pgrounddown va := by
  simp only [pgrounddown, pgsize]; omega

theorem kernelPte_kmap : (∀ va, 0x80000000 ≤ va → va < 0x80000000 + 4096 * (255 + 1) →
      kernelPte va = (0 + (pgrounddown va - 0x80000000)) ||| pteW ||| pteP) ∧
    (∀ va, 0x80100000 ≤ va → va < 0x80100000 + 4096 * (9 + 1) →
      kernelPte va = (0x100000 + (pgrounddown va - 0x80100000)) ||| 0 ||| pteP) ∧
    (∀ va, 0x8010a000 ≤ va → va < 0x8010a000 + 4096 * (57077 + 1) →
      kernelPte va = (0x10a000 + (pgrounddown va - 0x8010a000)) ||| pteW ||| pteP) ∧
    ∀ va, 0xFE000000 ≤ va → va < 0xFE000000 + 4096 * (8191 + 1) →
      kernelPte va = (0xFE000000 + (pgrounddown va - 0xFE000000)) ||| pteW ||| pteP := by
  refine ⟨fun va h1 h2 => ?_, fun va h1 h2 => ?_, fun va h1 h2 => ?_, fun va h1 h2 => ?_⟩
  · simp only [kernelPte, kernbase, kernlink, extmem, dataPhys, phystop, devspace]
    rw [if_neg (by omega), if_pos (by omega), Nat.zero_add]
  · have hge := pgrounddown_ge (by decide) h1
    simp only [kernelPte, kernbase, kernlink, extmem, dataPhys, phystop, devspace]
    rw [if_neg (by omega), if_neg (by omega), if_pos (by omega),
      show 0x100000 + (pgrounddown va - 0x80100000) = pgrounddown va - 0x80000000 by omega]
  · have hge := pgrounddown_ge (by decide) h1
    simp only [kernelPte, kernbase, kernlink, extmem, dataPhys, phystop, devspace]
    rw [if_neg (by omega), if_neg (by omega), if_neg (by omega), if_pos (by omega),
      show 0x10a000 + (pgrounddown va - 0x8010a000) = pgrounddown va - 0x80000000 by omega]
  · have hge := pgrounddown_ge (by decide) h1
    simp only [kernelPte, kernbase, kernlink, extmem, dataPhys, phystop, devspace]
    rw [if_neg (by omega), if_neg (by omega), if_neg (by omega), if_neg (by omega),
      if_neg (by omega), show 0xFE000000 + (pgrounddown va - 0xFE000000) = pgrounddown va by omega]

/-- **Setting up a page directory.** `setupkvm` does not panic. It returns a directory with the
kernel's mappings, or fails for want of pages. -/
theorem setupkvm_cases (h : FreeOk m) : (∃ m', setupkvm m = .ok (none, m') ∧ KvmFails m m') ∨
      ∃ d m', setupkvm m = .ok (some d, m') ∧ NewKvm m m' d := by
  cases hk : kalloc m with
  | mk r m₁ =>
  cases r with
  | none =>
    obtain ⟨hbyte, hlist, hcnt, hfail⟩ := kalloc_eq_none hk
    refine .inl ⟨m₁, by rw [setupkvm, hk], ⟨?_, ?_, ?_⟩, ⟨⟨?_, ?_⟩, ?_, ?_⟩, ?_, ?_,
      .inl ⟨not_canAlloc_of_none hk, hlist⟩⟩
    · rw [hlist]; exact h.nodup
    · rw [hlist]; exact h.isFrame
    · rw [hlist, hcnt]; exact h.cnt
    · rw [pool, hlist]; exact h.nodup
    · exact fun f hf => hf.elim
    · intro f hf
      rwa [pool, hlist] at hf
    · intro x _ _
      rw [pool, pool, hbyte]
    · exact fun hc => not_canAlloc_of_none hk (hc.mono (by decide : 1 ≤ 65))
    · rw [hfail]; exact Nat.lt_succ_self _
  | some d =>
    have hset : setupkvm m = setupkvmLoop d kmap (m₁.setPage d 0) := by
      rw [setupkvm, hk]
      exact if_neg (by decide)
    rw [hset, kmap]
    obtain ⟨hio, htext, hdata, hdev⟩ := kernelPte_kmap
    have hgap : ∀ va, 0x8E000000 ≤ va → va < 0xFE000000 → kernelPte va = 0 := by
      intro va h1 h2
      simp only [kernelPte, kernbase, kernlink, extmem, dataPhys, phystop, devspace]
      rw [if_neg (by omega), if_neg (by omega), if_neg (by omega), if_neg (by omega),
        if_pos (by omega)]
    obtain ⟨m', hl, hf⟩ | ⟨m₂, hl₁, h₂⟩ := (KvmUpTo.zeroed h hk).cons
      ⟨kernbase, 0, extmem, pteW⟩ _ 255 0x80100000 {512} (by decide)
      (fun va h1 h2 => absurd h2 (not_lt_of_ge h1)) hio
    · exact .inl ⟨m', hl, hf⟩
    obtain ⟨m', hl, hf⟩ | ⟨m₃, hl₂, h₃⟩ := h₂.cons
      ⟨kernlink, kernlink - kernbase, dataPhys, 0⟩ _ 9 0x8010a000 {512} (by decide)
      (fun va h1 h2 => absurd h2 (not_lt_of_ge h1)) htext
    · exact .inl ⟨m', hl₁.trans hl, hf⟩
    obtain ⟨m', hl, hf⟩ | ⟨m₄, hl₃, h₄⟩ := h₃.cons
      ⟨kernbase + dataPhys, dataPhys, phystop, pteW⟩ _ 57077 0x8E000000 (Finset.Icc 512 567)
      (by decide +kernel) (fun va h1 h2 => absurd h2 (not_lt_of_ge h1)) hdata
    · exact .inl ⟨m', hl₁.trans (hl₂.trans hl), hf⟩
    obtain ⟨m', hl, hf⟩ | ⟨m₅, hl₄, h₅⟩ := h₄.cons ⟨devspace, devspace, 0, pteW⟩ [] 8191 (2 ^ 32)
      (Finset.Icc 512 567 ∪ Finset.Icc 1016 1023) (by decide +kernel) hgap hdev
    · exact .inl ⟨m', hl₁.trans (hl₂.trans (hl₃.trans hl)), hf⟩
    refine .inr ⟨d, m₅, hl₁.trans (hl₂.trans (hl₃.trans hl₄)), h₅.wf, h₅.transfer,
      fun va hva => ?_, fun i hi => ?_, ?_⟩
    · rw [h₅.pteOf va hva, if_pos hva]
    · have hmem := Finset.ext_iff.mp h₅.tables i
      rw [mem_tables, Finset.mem_union, Finset.mem_Icc, Finset.mem_Icc] at hmem
      constructor
      · intro ht
        have hin := hmem.mp ⟨hi, ht⟩
        omega
      · intro hr
        exact (hmem.mpr (by omega)).2
    · have hcard : (Finset.Icc 512 567 ∪ Finset.Icc 1016 1023 : Finset ℕ).card = 64 := by
        decide +kernel
      have hdraws := h₅.draws
      rwa [hcard] at hdraws

/-! ### `freevm` -/

/-- The loop of `freevm` over the entries of the directory. -/
def freevmLoop (pgdir : ℕ) : List ℕ → PhysMem → Except Panic PhysMem
  | [], m => .ok m
  | i :: is, m =>
    if m.load (pgdir + 4 * i) &&& pteP ≠ 0 then
      match kfree m (pteAddr (m.load (pgdir + 4 * i))) with
      | .error e => .error e
      | .ok m => freevmLoop pgdir is m
    else freevmLoop pgdir is m

/-- Free a page table and all the physical memory pages in the user part. -/
def freevm (m : PhysMem) (pgdir : ℕ) : Except Panic PhysMem :=
  if pgdir = 0 then .error .freevmNoPgdir
  else
    match deallocuvm m pgdir kernbase 0 with
    | .error e => .error e
    | .ok (_, m) =>
      match freevmLoop pgdir (List.range npdentries) m with
      | .error e => .error e
      | .ok m => kfree m pgdir

/-- The frames in `l` were freed, the last one first in the list. -/
structure Frees (m m' : PhysMem) (l : List ℕ) : Prop where
  freelist : m'.freelist = l ++ m.freelist
  cnt : m'.freeFrameCnt = m.freeFrameCnt + l.length
  byte : ∀ x, pgrounddown x ∉ l → m'.byte x = m.byte x
  failures : m'.failures = m.failures ∧ m'.starve = m.starve

theorem Frees.nil (m : PhysMem) : Frees m m [] := ⟨rfl, by simp, fun _ _ => rfl, rfl, rfl⟩

theorem Frees.trans {m'' : PhysMem} {l l' : List ℕ} (h : Frees m m' l) (h' : Frees m' m'' l') :
    Frees m m'' (l' ++ l) := by
  refine ⟨?_, ?_, fun x hx => ?_, h'.failures.1.trans h.failures.1,
    h'.failures.2.trans h.failures.2⟩
  · rw [h'.freelist, h.freelist, append_assoc]
  · rw [h'.cnt, h.cnt, length_append, Nat.cast_add]; ring
  · rw [mem_append, not_or] at hx
    rw [h'.byte x hx.1, h.byte x hx.2]

theorem kfree_frees (hf : IsFrame f) (m : PhysMem) : ∃ m', kfree m f = .ok m' ∧ Frees m m' [f] :=
  ⟨_, kfree_of_isFrame hf, rfl, by simp, fun _ hx => setPage_byte hf.mod (by simpa using hx),
    rfl, rfl⟩

/-- The directory page is not touched until the end, so the loop reads what was there at the
start. -/
theorem freevmLoop_spec (h : WF m₀ d) (is : List ℕ) :
    ∀ {m : PhysMem}, (∀ i ∈ is, i < 1024) → (∀ i, i < 1024 → pde m d i = pde m₀ d i) →
      ∃ m', freevmLoop d is m = .ok m' ∧
        Frees m m' ((is.filter (HasTable m₀ d)).map (pgtab m₀ d)).reverse := by
  have hd := h.dir_mod
  induction is with
  | nil =>
    intro m _ _
    exact ⟨m, rfl, .nil m⟩
  | cons i is ih =>
    intro m hlt hpde
    have hi := hlt i mem_cons_self
    have hrest : ∀ j ∈ is, j < 1024 := fun j hj => hlt j (mem_cons_of_mem i hj)
    have hload : m.load (d + 4 * i) = pde m₀ d i := hpde i hi
    rw [freevmLoop, hload]
    by_cases ht : HasTable m₀ d i
    · obtain ⟨m₁, hfree, hf⟩ := kfree_frees (h.isFrame (.table hi ht)) m
      rw [if_pos (by exact ht), show pteAddr (pde m₀ d i) = pgtab m₀ d i from rfl, hfree]
      have hne := h.pgtab_ne_dir hi ht
      have hpde₁ : ∀ j, j < 1024 → pde m₁ d j = pde m₀ d j := by
        intro j hj
        rw [← hpde j hj]
        refine load32_congr fun x hx hx' => hf.byte x ?_
        rw [mem_singleton, (pgrounddown_eq_iff hd).mpr (by omega)]
        exact hne.symm
      obtain ⟨m', hloop, hf'⟩ := ih hrest hpde₁
      refine ⟨m', hloop, ?_⟩
      rw [filter_cons_of_pos (by simpa using ht), map_cons, reverse_cons]
      exact hf.trans hf'
    · rw [if_neg (by exact ht), filter_cons_of_neg (by simpa using ht)]
      exact ih hrest hpde

/-- **Freeing an address space.** Every frame the directory used is on the free list again. -/
theorem freevm_spec (h : WF m d) : ∃ m', freevm m d = .ok m' ∧ FreeOk m' ∧
      Transfer pgrounddown m.pool (owned m d) m'.pool ∅ ∧
      (∃ l, m'.freelist = l ++ m.freelist ∧ ∀ f, f ∈ l ↔ f ∈ owned m d) ∧
      m'.failures = m.failures ∧ m'.starve = m.starve := by
  obtain ⟨m₁, hde, hun⟩ := deallocuvm_spec h (Nat.le_refl 0x80000000) (by decide : 0 < 0x80000000)
  have hwf := hun.keeps.wf
  have hdf := h.isFrame .dir
  -- the stride does no harm when it starts at address 0
  have hall : ∀ va, va < 0x80000000 → ¬ Present m₁ d va := by
    intro va hv hp
    refine ((hun.present_iff hv).mp hp).2 ⟨Nat.zero_le _, ?_, .inr (Nat.zero_le _)⟩
    exact Nat.lt_of_le_of_lt (pgrounddown_le va) hv
  obtain ⟨m₂, hloop, hf₂⟩ := freevmLoop_spec hwf (List.range npdentries)
    (fun i hi => mem_range.mp hi) fun i _ => rfl
  obtain ⟨m₃, hfree, hf₃⟩ := kfree_frees hdf m₂
  have hf := hf₂.trans hf₃
  set tabs := ((List.range npdentries).filter (HasTable m₁ d)).map (pgtab m₁ d) with htabs
  have hmem : ∀ f, f ∈ [d] ++ tabs.reverse ↔ f ∈ owned m₁ d := by
    intro f
    simp only [htabs, mem_append, mem_singleton, mem_reverse, mem_map,
      mem_filter, mem_range, decide_eq_true_eq]
    constructor
    · rintro (rfl | ⟨i, ⟨hi, ht⟩, rfl⟩)
      · exact ⟨_, .dir⟩
      · exact ⟨_, .table hi ht⟩
    · rintro ⟨r, hr⟩
      cases hr with
      | dir => exact .inl rfl
      | table hi ht => exact .inr ⟨_, ⟨hi, ht⟩, rfl⟩
      | user ha hv hp => exact absurd hp (hall _ hv)
  have hnd : ([d] ++ tabs.reverse).Nodup := by
    refine nodup_append'.mpr ⟨nodup_singleton d, nodup_reverse.mpr ?_, ?_⟩
    · refine List.Nodup.map_on (fun i hi j hj he => ?_) (nodup_range.filter _)
      simp only [mem_filter, mem_range, decide_eq_true_eq] at hi hj
      exact hwf.pgtab_inj hi.1 hj.1 hi.2 hj.2 he
    · intro f hd hf
      simp only [htabs, mem_reverse, mem_map, mem_filter, mem_range,
        decide_eq_true_eq] at hf
      obtain ⟨i, ⟨hi, ht⟩, rfl⟩ := hf
      exact hwf.pgtab_ne_dir hi ht (mem_singleton.mp hd)
  have hfreeOk : FreeOk m₃ := by
    refine ⟨?_, fun f hf' => ?_, ?_⟩
    · rw [hf.freelist]
      refine nodup_append'.mpr ⟨hnd, hwf.free.nodup, fun f hf₁ hf₂ => ?_⟩
      obtain ⟨r, hr⟩ := (hmem f).mp hf₁
      exact hwf.notFree hr hf₂
    · rw [hf.freelist, mem_append] at hf'
      rcases hf' with hf' | hf'
      · obtain ⟨r, hr⟩ := (hmem f).mp hf'
        exact hwf.isFrame hr
      · exact hwf.free.isFrame f hf'
    · rw [hf.cnt, hwf.free.cnt, hf.freelist]
      simp only [length_append, Nat.cast_add]
      ring
  have htr : Transfer pgrounddown m₁.pool (owned m₁ d) m₃.pool ∅ := by
    refine ⟨⟨hfreeOk.nodup, fun _ hf => hf.elim⟩, fun f hf' => ?_, fun x hx _ => ?_⟩
    · have hin := hf'.resolve_left fun hf => hf.elim
      rw [pool, hf.freelist, mem_append, hmem] at hin
      exact hin
    · exact hf.byte x fun hin => hx ((hmem _).mp hin)
  obtain ⟨l, hl, -, hlmem⟩ := hun.freelist
  refine ⟨m₃, ?_, hfreeOk, hun.keeps.transfer.trans htr, ⟨[d] ++ tabs.reverse ++ l, ?_,
    fun f => ?_⟩, hf.failures.1.trans hun.failures.1, hf.failures.2.trans hun.failures.2⟩
  · rw [freevm, if_neg (Nat.ne_of_gt hdf.pos), hde]
    simp only [hloop]
    exact hfree
  · rw [hf.freelist, hl, ← append_assoc]
  · rw [mem_append, hmem, hlmem]
    constructor
    · rintro (⟨r, hr⟩ | ⟨va, ha, hv, -, hp, rfl⟩)
      · cases hr with
        | dir => exact ⟨_, .dir⟩
        | table hi ht =>
          rw [pgtab, hun.pde _ hi]
          exact ⟨_, .table hi ((hun.hasTable hi).mp ht)⟩
        | user ha hv hp => exact absurd hp (hall _ hv)
      · exact ⟨_, .user ha hv hp⟩
    · rintro ⟨r, hr⟩
      cases hr with
      | dir => exact .inl ⟨_, .dir⟩
      | table hi ht =>
        rw [pgtab, ← hun.pde _ hi]
        exact .inl ⟨_, .table hi ((hun.hasTable hi).mpr ht)⟩
      | user ha hv hp =>
        exact .inr ⟨_, ha, hv, ⟨Nat.zero_le _, hv, .inr (Nat.zero_le _)⟩, hp, rfl⟩

end Xv6
