import Xv6.Vm.PageTable

/-!
# Taking and giving back user pages

The two things every user-memory operation is made of: taking a page from the free list, filling
it and mapping it; and unmapping a page and freeing it. Each gets one specification here, and the
loops of `vm.c` are then inductions over these.

`Keeps` is the part of the specification that the rest of the system sees: the directory is still
well formed, and in terms of `Ownership.Transfer` its owner touched only its own pages and the
free list.
-/

namespace Xv6

open ByteMemory PhysMem Ownership List

variable {m m' m'' m₁ : PhysMem} {d va va' i f w : ℕ}

/-- The owner of `d` acted: the directory is well formed and no frame of anyone else was
touched. -/
structure Keeps (m m' : PhysMem) (d : ℕ) : Prop where
  wf : WF m' d
  transfer : Transfer pgrounddown m.pool (owned m d) m'.pool (owned m' d)

theorem Keeps.refl (h : WF m d) : Keeps m m d := ⟨h, .refl h.owns⟩

theorem Keeps.trans (h : Keeps m m' d) (h' : Keeps m' m'' d) : Keeps m m'' d :=
  ⟨h'.wf, h.transfer.trans h'.transfer⟩

theorem pageOf_mem_owned (h : va < 0x80000000) (hp : Present m d va) : pageOf m d va ∈ owned m d :=
  ⟨_, .user' h hp⟩

theorem Grows.transfer (hg : Grows m m' d) :
    Transfer pgrounddown m.pool (owned m d) m'.pool (owned m' d) where
  owns := hg.wf.owns
  sub g hg' := by
    rcases hg' with ⟨r, hr⟩ | hfree
    · exact (hg.sub g r hr).imp_left fun hr => ⟨r, hr⟩
    · exact .inr (hg.freelist.subset hfree)
  frame a ha hfree := hg.byte a (fun he => ha (he ▸ ⟨_, .dir⟩)) hfree

/-! ### Taking a page -/

/-- What a memory looks like after a page taken from the free list, filled with the bytes `b`, was
mapped at `va` by the entry `w`. -/
structure AddsPage (m m' : PhysMem) (d va w : ℕ) (b : ℕ → UInt8) : Prop where
  keeps : Keeps m m' d
  free : pteAddr w ∈ m.freelist
  pteOf : ∀ va', pteOf m' d va' =
    if pdx va' = pdx va ∧ ptx va' = ptx va then w else pteOf m d va'
  hasTable : ∀ k, k < 1024 → (HasTable m' d k ↔ HasTable m d k ∨ k = pdx va)
  filled : ∀ x, pgrounddown x = pteAddr w → m'.byte x = b x
  byte : ∀ va' x, va' < 0x80000000 → Present m d va' → pgrounddown x = pageOf m d va' →
    m'.byte x = m.byte x
  draws : Draws m m' (if HasTable m d (pdx va) then 1 else 2)

variable {b : ℕ → UInt8}

theorem AddsPage.failures (h : AddsPage m m' d va w b) : m'.failures = m.failures :=
  h.draws.failures

theorem AddsPage.enough (h : AddsPage m m' d va w b) : HasTable m d (pdx va) ∨ CanAlloc m 2 := by
  by_cases ht : HasTable m d (pdx va)
  · exact .inl ht
  · have hcan := h.draws.can
    rw [if_neg ht] at hcan
    exact .inr hcan

/-- What a memory looks like after a page was taken from the free list and lost, because there was
no second page for the page table. -/
structure LosesPage (m m' : PhysMem) (d va f : ℕ) : Prop where
  keeps : Keeps m m' d
  view : SameView m m' d
  noTable : ¬ HasTable m d (pdx va)
  short : ¬ CanAlloc m 2
  fresh : Fresh m' d f
  freelist : m.freelist = f :: m'.freelist
  byte : ∀ x, pgrounddown x ≠ f → m'.byte x = m.byte x
  failures : m'.failures = m.failures + 1
  starve : m'.starve = m.starve.tail.tail

theorem WF.fill_page (h : WF m d) (hk : kalloc m = (some f, m₁))
    (hb : ∀ x, pgrounddown x ≠ f → b x = m₁.byte x) :
    WF { m₁ with byte := b } d ∧ Fresh { m₁ with byte := b } d f ∧
      SameView m { m₁ with byte := b } d ∧
      Transfer pgrounddown m.pool (owned m d) (pool { m₁ with byte := b })
        (insert f (owned m d)) := by
  obtain ⟨hwf, hfresh⟩ := h.kalloc_some hk
  obtain ⟨hbyte, hlist, -⟩ := kalloc_eq_some hk
  have hview : SameView m m₁ d := .of_eq hbyte
  have hview' : SameView m₁ { m₁ with byte := b } d := by
    refine hwf.sameView fun a ⟨r, hr⟩ => hb a ?_
    rintro rfl
    exact hfresh.notHeld r hr
  have htake : Transfer pgrounddown m.pool (owned m d) m₁.pool (insert f (owned m d)) :=
    .take h.owns hlist hbyte rfl
  refine ⟨?_, ⟨hfresh.isFrame, hfresh.notFree, fun r hr => hfresh.notHeld r (hview'.holds hr)⟩,
    hview.trans hview', htake.trans ?_⟩
  · exact hwf.of_sameView hview' ⟨hwf.free.nodup, hwf.free.isFrame, hwf.free.cnt⟩ fun _ hf => hf
  · exact .write htake.owns rfl fun a ha => hb a fun he => ha (.inl he)

/-- **Taking, filling and mapping a page.** -/
theorem WF.alloc_page (h : WF m d) (hk : kalloc m = (some f, m₁))
    (hb : ∀ x, pgrounddown x ≠ f → b x = m₁.byte x) (ha : va % 4096 = 0) (hv : va < 0x80000000)
    {perm : ℕ} (hperm : perm < 4096) :
    (Present m d va ∧ mappages { m₁ with byte := b } d va pgsize f perm = .error .remap) ∨
      (¬ Present m d va ∧ ∃ m', mappages { m₁ with byte := b } d va pgsize f perm = .ok (-1, m') ∧
        LosesPage m m' d va f) ∨
      (¬ Present m d va ∧ ∃ m', mappages { m₁ with byte := b } d va pgsize f perm = .ok (0, m') ∧
        AddsPage m m' d va (f ||| perm ||| pteP) b) := by
  obtain ⟨hwf, hfresh, hview, htr⟩ := h.fill_page hk hb
  obtain ⟨hbyte, hlist, -, hfail⟩ := kalloc_eq_some hk
  have hfm := hfresh.isFrame.mod
  have hflt := hfresh.isFrame.lt
  have hbold : ∀ va' x, va' < 0x80000000 → Present m d va' → pgrounddown x = pageOf m d va' →
      b x = m.byte x := by
    intro va' x hv' hp' hx
    rw [hb x, hbyte]
    rw [hx]
    intro he
    exact h.notFree (.user' hv' hp') (by rw [he, hlist]; exact mem_cons_self)
  have hown : owned { m₁ with byte := b } d = owned m d := hview.owned
  obtain ⟨hp, hmap⟩ | ⟨hp, hn, m', hmap, hg, hbyte', hlist', hfail', hst⟩ | ⟨hp, m', hmap, hm⟩ :=
    mappages_page hwf ha (by omega) hfm (by omega) hperm fun _ => hfresh
  · exact .inl ⟨hview.present.mp hp, hmap⟩
  · refine .inr (.inl ⟨mt hview.present.mpr hp, m', hmap, ⟨hg.wf, ?_⟩,
      hview.trans (.of_eq hbyte'), mt (hview.hasTable (pdx_lt va)).mpr hn.1,
      mt (canAlloc_succ_iff hk).mp hn.2, hg.fresh hfresh, ?_,
      fun x hx => ?_, ?_, by rw [hst, kalloc_starve hk]⟩)
    · refine (htr.mono (Set.subset_insert f _)).trans ?_
      rw [← hown]
      exact hg.transfer
    · rw [hlist, hlist']
    · rw [hbyte']
      exact (hb x hx).trans (by rw [hbyte])
    · rw [hfail', ← hfail]
  · refine .inr (.inr ⟨mt hview.present.mpr hp, m', hmap, ⟨hm.wf, htr.trans ?_⟩, ?_, fun va' => ?_,
      fun k hk => ?_, fun x hx => ?_, fun va' x hv' hp' hx => ?_, ?_⟩)
    · rw [← hown]
      refine ⟨hm.wf.owns, fun g hg => ?_, fun a ha hfree => ?_⟩
      · rcases hg with ⟨r, hr⟩ | hfree
        · rcases hm.holds g r hr with hr | hfree | ⟨rfl, -, -⟩
          · exact .inl (.inr ⟨r, hr⟩)
          · exact .inr hfree
          · exact .inl (.inl (pteAddr_entry hfm hperm))
        · exact .inr (hm.draws.suffix.subset hfree)
      · refine hm.byte a (fun he => ha (.inr (he ▸ ⟨_, .dir⟩))) (fun i hi ht he => ha (.inr ?_))
          hfree
        exact he ▸ ⟨_, .table hi ht⟩
    · rw [pteAddr_entry hfm hperm, hlist]
      exact mem_cons_self
    · rw [hm.pteOf, hview.pteOf]
    · rw [hm.hasTable k hk, hview.hasTable hk]
    · rw [pteAddr_entry hfm hperm] at hx
      refine hm.byte x ?_ (fun i hi ht => ?_) (hx ▸ hfresh.notFree)
      · rw [hx]
        exact fun he => hfresh.notHeld .dir (he ▸ Holds.dir)
      · rw [hx]
        exact fun he => hfresh.notHeld _ (he ▸ Holds.table hi ht)
    · have hp₁ := hview.present.mpr hp'
      have hx₁ : pgrounddown x = pageOf { m₁ with byte := b } d va' := by rw [hx, hview.pageOf]
      refine (hm.byte x ?_ (fun i hi ht => ?_) ?_).trans (hbold va' x hv' hp' hx)
      · rw [hx₁]; exact hwf.pageOf_ne_dir hv' hp₁
      · rw [hx₁]; exact hwf.pageOf_ne_pgtab hv' hp₁ hi ht
      · rw [hx₁]; exact hwf.notFree (.user' hv' hp₁)
    · have hdraws := ((Draws.of_kalloc hk).trans (.of_byte m₁ b)).trans hm.draws
      have hiff := hview.hasTable (pdx_lt va)
      by_cases ht : HasTable m d (pdx va)
      · rw [if_pos (hiff.mpr ht)] at hdraws
        rw [if_pos ht]
        exact hdraws
      · rw [if_neg (mt hiff.mp ht)] at hdraws
        rw [if_neg ht]
        exact hdraws

/-! ### Giving a page back -/

/-- What a memory looks like after the user pages in `S` that were present were unmapped and
freed. -/
structure Unmaps (m m' : PhysMem) (d : ℕ) (S : ℕ → Prop) : Prop where
  keeps : Keeps m m' d
  pde : ∀ i, i < 1024 → pde m' d i = pde m d i
  unmapped : ∀ va, va < 0x80000000 → S (pgrounddown va) → Present m d va → pteOf m' d va = 0
  kept : ∀ va, va < 2 ^ 32 → ¬ (va < 0x80000000 ∧ S (pgrounddown va) ∧ Present m d va) →
    pteOf m' d va = pteOf m d va
  freelist : ∃ l : List ℕ, m'.freelist = l ++ m.freelist ∧ l.Nodup ∧
    ∀ f, f ∈ l ↔ ∃ va, va % 4096 = 0 ∧ va < 0x80000000 ∧ S va ∧ Present m d va ∧
      f = pageOf m d va
  byte : ∀ va x, va < 0x80000000 → ¬ S (pgrounddown va) → Present m d va →
    pgrounddown x = pageOf m d va → m'.byte x = m.byte x
  failures : m'.failures = m.failures ∧ m'.starve = m.starve

variable {S S' : ℕ → Prop}

theorem Unmaps.hasTable (h : Unmaps m m' d S) (hi : i < 1024) :
    HasTable m' d i ↔ HasTable m d i := by
  simp only [HasTable, h.pde i hi]

theorem Unmaps.present_iff (h : Unmaps m m' d S) (hv : va < 0x80000000) :
    Present m' d va ↔ Present m d va ∧ ¬ S (pgrounddown va) := by
  by_cases hS : S (pgrounddown va) ∧ Present m d va
  · have hz := h.unmapped va hv hS.1 hS.2
    simp [Present, hz, hS.1]
  · rw [Present, h.kept va (by omega) (fun hc => hS hc.2), ← Present]
    tauto

theorem Unmaps.refl (h : WF m d) (hS : ∀ va, va < 0x80000000 → S va → ¬ Present m d va) :
    Unmaps m m d S := by
  refine ⟨.refl h, fun _ _ => rfl, fun va hv hs hp => ?_, fun _ _ _ => rfl,
    ⟨[], rfl, nodup_nil, fun f => ?_⟩, fun _ _ _ _ _ _ => rfl, rfl, rfl⟩
  · exact absurd (present_pgrounddown.mpr hp) (hS _ (Nat.lt_of_le_of_lt (pgrounddown_le va) hv) hs)
  · refine ⟨fun hf => by simp at hf, ?_⟩
    rintro ⟨va, -, hv, hs, hp, -⟩
    exact absurd hp (hS va hv hs)

theorem Unmaps.congr (h : Unmaps m m' d S)
    (hS : ∀ va, va % 4096 = 0 → va < 0x80000000 → Present m d va → (S va ↔ S' va)) :
    Unmaps m m' d S' := by
  have hiff : ∀ va, va < 0x80000000 → Present m d va →
      (S (pgrounddown va) ↔ S' (pgrounddown va)) := fun va hv hp =>
    hS _ (pgrounddown_mod va) (Nat.lt_of_le_of_lt (pgrounddown_le va) hv)
      (present_pgrounddown.mpr hp)
  obtain ⟨l, hl, hnd, hmem⟩ := h.freelist
  refine ⟨h.keeps, h.pde, fun va hv hs hp => h.unmapped va hv ((hiff va hv hp).mpr hs) hp,
    fun va hlt hn => h.kept va hlt ?_, ⟨l, hl, hnd, fun f => (hmem f).trans ?_⟩,
    fun va x hv hs hp => h.byte va x hv (mt (hiff va hv hp).mp hs) hp, h.failures⟩
  · exact fun ⟨hv, hs, hp⟩ => hn ⟨hv, (hiff va hv hp).mp hs, hp⟩
  · exact exists_congr fun va => and_congr_right fun ha => and_congr_right fun hv =>
      ⟨fun ⟨hs, hp, hf⟩ => ⟨(hS va ha hv hp).mp hs, hp, hf⟩,
        fun ⟨hs, hp, hf⟩ => ⟨(hS va ha hv hp).mpr hs, hp, hf⟩⟩

theorem Unmaps.trans (h : Unmaps m m' d S) (h' : Unmaps m' m'' d S') :
    Unmaps m m'' d fun va => S va ∨ S' va := by
  obtain ⟨l, hl, hnd, hmem⟩ := h.freelist
  obtain ⟨l', hl', hnd', hmem'⟩ := h'.freelist
  have hpage : ∀ va, va < 0x80000000 → Present m d va → ¬ S (pgrounddown va) →
      pteOf m' d va = pteOf m d va := fun va hv _ hs =>
    h.kept va (by omega) fun hc => hs hc.2.1
  refine ⟨h.keeps.trans h'.keeps, fun i hi => (h'.pde i hi).trans (h.pde i hi),
    fun va hv hs hp => ?_, fun va hlt hn => ?_, ⟨l' ++ l, by rw [hl', hl, append_assoc], ?_,
      fun f => ?_⟩, fun va x hv hs hp hx => ?_, h'.failures.1.trans h.failures.1,
    h'.failures.2.trans h.failures.2⟩
  · by_cases hS : S (pgrounddown va)
    · rw [h'.kept va (by omega) fun hc => ((h.present_iff hv).mp hc.2.2).2 hS]
      exact h.unmapped va hv hS hp
    · exact h'.unmapped va hv (hs.resolve_left hS) ((h.present_iff hv).mpr ⟨hp, hS⟩)
  · rw [h'.kept va hlt, h.kept va hlt]
    · exact fun hc => hn ⟨hc.1, .inl hc.2.1, hc.2.2⟩
    · exact fun hc => hn ⟨hc.1, .inr hc.2.1, ((h.present_iff hc.1).mp hc.2.2).1⟩
  · -- a frame freed second was not free after the first round
    refine nodup_append'.mpr ⟨hnd', hnd, fun f hf hf' => ?_⟩
    obtain ⟨va, -, hv, -, hp, rfl⟩ := (hmem' f).mp hf
    exact h.keeps.wf.notFree (.user' hv hp) (by rw [hl]; exact mem_append_left _ hf')
  · rw [mem_append, hmem, hmem']
    constructor
    · rintro (⟨va, ha, hv, hs, hp, rfl⟩ | ⟨va, ha, hv, hs, hp, rfl⟩)
      · obtain ⟨hp₀, hs₀⟩ := (h.present_iff hv).mp hp
        exact ⟨va, ha, hv, .inr hs, hp₀, by rw [pageOf, hpage va hv hp₀ hs₀, ← pageOf]⟩
      · exact ⟨va, ha, hv, .inl hs, hp, rfl⟩
    · rintro ⟨va, ha, hv, hs, hp, rfl⟩
      have hdown := pgrounddown_of_mod ha
      by_cases hS : S va
      · exact .inr ⟨va, ha, hv, hS, hp, rfl⟩
      · have hS' : ¬ S (pgrounddown va) := by rwa [hdown]
        refine .inl ⟨va, ha, hv, hs.resolve_left hS, (h.present_iff hv).mpr ⟨hp, hS'⟩, ?_⟩
        rw [pageOf, pageOf, hpage va hv hp hS']
  · rw [not_or] at hs
    have hx' : pgrounddown x = pageOf m' d va := by rw [pageOf, hpage va hv hp hs.1, hx, pageOf]
    rw [h'.byte va x hv hs.2 ((h.present_iff hv).mpr ⟨hp, hs.1⟩) hx', h.byte va x hv hs.1 hp hx]

theorem WF.free_frame (h : WF m d) (hf : IsFrame f) (hheld : ∀ r, ¬ Holds m d f r)
    (hnot : f ∉ m.freelist) (hbyte : ∀ x, pgrounddown x ≠ f → m'.byte x = m.byte x)
    (hlist : m'.freelist = f :: m.freelist) (hcnt : m'.freeFrameCnt = m.freeFrameCnt + 1) :
    SameView m m' d ∧ WF m' d := by
  have hview : SameView m m' d := h.sameView fun x ⟨r, hr⟩ => hbyte x fun he => hheld r (he ▸ hr)
  have hfree : FreeOk m' := by
    refine ⟨?_, fun g hg => ?_, ?_⟩
    · rw [hlist]
      exact nodup_cons.mpr ⟨hnot, h.free.nodup⟩
    · rw [hlist, mem_cons] at hg
      rcases hg with rfl | hg
      · exact hf
      · exact h.free.isFrame g hg
    · rw [hlist, hcnt, h.free.cnt]
      rfl
  refine ⟨hview, h.of_view hview hfree fun g r hg hin => ?_⟩
  rw [hlist, mem_cons] at hin
  rcases hin with rfl | hin
  · exact hheld r hg
  · exact h.notFree hg hin

/-- **Freeing and unmapping one page.** -/
theorem WF.free_page (h : WF m d) (ha : va % 4096 = 0) (hv : va < 0x80000000)
    (hp : Present m d va) : ∃ m₁, kfree m (pageOf m d va) = .ok m₁ ∧
      Unmaps m (m₁.store (pgtab m d (pdx va) + 4 * ptx va) 0) d (· = va) := by
  have hhold : Holds m d (pageOf m d va) (.user va) := .user ha hv hp
  have hfr := h.isFrame hhold
  have hfm := hfr.mod
  have ht := hp.hasTable
  have hi := pdx_lt va
  have htm := pgtab_mod m d (pdx va)
  refine ⟨_, kfree_of_isFrame hfr, ?_⟩
  generalize hm₁ : ({ m.setPage (pageOf m d va) 1 with
      freelist := pageOf m d va :: m.freelist, freeFrameCnt := m.freeFrameCnt + 1 } : PhysMem) = m₁
  -- first look at the store alone, then at the freeing
  obtain ⟨hpde, hpte⟩ := pteOf_store h.pageDir ht (w := 0) (by decide)
  have hwf₀ := h.store ht (w := 0) (by omega) (by decide) fun _ hc => absurd rfl hc
  generalize hm₀ : m.store (pgtab m d (pdx va) + 4 * ptx va) 0 = m₀ at hpde hpte hwf₀
  have hheld₀ : ∀ f r, Holds m₀ d f r → Holds m d f r ∧ r ≠ .user va := by
    intro f r hf
    rw [← hm₀] at hf
    rcases holds_store h ht (by omega) (by decide) hf with hf | ⟨-, -, -, hc⟩
    · rwa [pgrounddown_of_mod ha] at hf
    · exact absurd rfl hc
  have hne : ∀ f r, Holds m₀ d f r → f ≠ pageOf m d va := by
    rintro f r hf rfl
    obtain ⟨hf, hr⟩ := hheld₀ _ _ hf
    exact hr (h.unique hf hhold)
  have hbyte : ∀ x, pgrounddown x ≠ pageOf m d va →
      (m₁.store (pgtab m d (pdx va) + 4 * ptx va) 0).byte x = m₀.byte x := by
    intro x hx
    have hset : m₁.byte x = m.byte x := by rw [← hm₁]; exact setPage_byte hfm hx
    rw [← hm₀]
    simp only [PhysMem.store, store32, hset]
  have hlist₀ : m₀.freelist = m.freelist := by rw [← hm₀]; rfl
  have hlist : (m₁.store (pgtab m d (pdx va) + 4 * ptx va) 0).freelist =
      pageOf m d va :: m.freelist := by rw [← hm₁]; rfl
  obtain ⟨hview, hwf⟩ := hwf₀.free_frame hfr (fun r hr => hne _ r hr rfl)
    (hlist₀ ▸ h.notFree hhold) hbyte (by rw [hlist, hlist₀]) (by rw [← hm₁, ← hm₀]; rfl)
  have hstore : ∀ x, pgrounddown x ≠ pgtab m d (pdx va) → m₀.byte x = m.byte x := by
    intro x hx
    rw [← hm₀]
    exact store_byte (by omega) (by rwa [pgrounddown_slot htm (ptx_lt va)])
  have hpte' : ∀ va', pteOf (m₁.store (pgtab m d (pdx va) + 4 * ptx va) 0) d va' =
      if pdx va' = pdx va ∧ ptx va' = ptx va then 0 else pteOf m d va' := fun va' => by
    rw [hview.pteOf, hpte]
  have hlt : va < 2 ^ 32 := by omega
  refine ⟨⟨hwf, hwf.owns, fun f hf => ?_, fun x hx hx' => ?_⟩,
    fun i hi => (hview.pde i hi).trans (hpde i hi), fun va' hv' hs _ => ?_,
    fun va' hlt' hn => ?_, ⟨[pageOf m d va], hlist, nodup_singleton _, fun f => ?_⟩,
    fun va' x hv' hs hp' hx => ?_, by rw [← hm₁]; exact ⟨rfl, rfl⟩⟩
  · rcases hf with ⟨r, hr⟩ | hf
    · exact .inl ⟨r, (hheld₀ _ _ (hview.holds hr)).1⟩
    · rw [pool, hlist, mem_cons] at hf
      rcases hf with rfl | hf
      · exact .inl ⟨_, hhold⟩
      · exact .inr hf
  · refine (hbyte x fun he => hx (he ▸ ⟨_, hhold⟩)).trans (hstore x fun he => hx ?_)
    exact he ▸ ⟨_, .table hi ht⟩
  · rw [hpte', if_pos ((index_iff_page ha hlt (by omega)).mpr hs)]
  · rw [hpte', if_neg]
    intro hc
    have heq := (index_iff_page ha hlt hlt').mp hc
    have h1 := lt_pgrounddown_add va'
    refine hn ⟨by omega, heq, ?_⟩
    rwa [Present, pteOf_congr_va hc.1 hc.2]
  · rw [mem_singleton]
    constructor
    · rintro rfl
      exact ⟨va, ha, hv, rfl, hp, rfl⟩
    · rintro ⟨_, -, -, rfl, -, hf⟩
      exact hf
  · have hother : pageOf m d va' ≠ pageOf m d va := fun he =>
      hs ((h.pageOf_inj hv' hv hp' hp he).trans (pgrounddown_of_mod ha))
    refine (hbyte x (by rw [hx]; exact hother)).trans (hstore x ?_)
    rw [hx]
    exact h.pageOf_ne_pgtab hv' hp' hi ht

/-! ### Everyone else -/

/-- What the owner of a directory sees of the activity of others: nothing. -/
structure Untouched (m m' : PhysMem) (d : ℕ) : Prop where
  wf : WF m' d
  view : SameView m m' d
  byte : ∀ x, pgrounddown x ∈ owned m d → m'.byte x = m.byte x

/-- **The frame rule for page directories.** Whatever others do with their own frames and free ones
leaves a directory alone. -/
theorem WF.untouched {A A' : Set ℕ} (h : WF m d)
    (htr : Transfer pgrounddown m.pool A m'.pool A') (hdis : Disjoint A (owned m d))
    (hfree : FreeOk m') : Untouched m m' d := by
  have hbyte : ∀ x, pgrounddown x ∈ owned m d → m'.byte x = m.byte x := fun x hx =>
    htr.frame x (fun hA => Set.disjoint_left.mp hdis hA hx) (h.owns.notMem _ hx)
  have hview := h.sameView hbyte
  refine ⟨h.of_view hview hfree fun f r hf hin => ?_, hview, hbyte⟩
  rcases htr.sub f (.inr hin) with hA | hin'
  · exact Set.disjoint_left.mp hdis hA ⟨r, hf⟩
  · exact h.notFree hf hin'

theorem Untouched.page (hu : Untouched m m' d) (hv : va < 0x80000000) (hp : Present m d va) {x : ℕ}
    (hx : pgrounddown x = pageOf m d va) : m'.byte x = m.byte x :=
  hu.byte x (hx ▸ pageOf_mem_owned hv hp)

end Xv6
