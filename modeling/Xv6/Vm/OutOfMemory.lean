import Xv6.Vm.Account

/-!
# Running out of pages

What `allocuvm` and `fork` leave behind when `kalloc` fails somewhere inside them. Both take pages
of two kinds, pages to map and page tables to map them in, and they treat the two failures
differently.

`allocuvm` undoes what it did when there is no page to map, but does not look at what `mappages`
returns, so without a page table the page it has in hand is lost and it goes on. `fork` gives up in
both cases, but `copyuvm` then frees what is mapped, which the page in hand is not, and `setupkvm`
frees nothing at all.

So either keeps its promise exactly if the call of `kalloc` that fails first is one for a page, or,
for `fork`, one of the first two, for the kernel stack and for the directory. As the calls come in a
fixed order this is a condition on the number of pages there are.

## Main results

* `allocuvm_means_iff` — when `allocuvm` means what it returns
* `fork_leaks_nothing_iff` — when a `fork` that fails leaves no trace
-/

namespace Xv6

open ByteMemory PhysMem Ownership List

variable {m m' m₀ m₁ : PhysMem} {d va a k n f oldsz newsz : ℕ} {sz : ℕ}

/-! ### `allocuvm` -/

/-- The page of `va` is one of those between the two sizes. -/
def InRange (oldsz newsz va : ℕ) : Prop :=
  pgroundup oldsz ≤ pgrounddown va ∧ pgrounddown va < newsz

/-- The page of `va` is present, user-writable and zero, in a frame that is used for nothing else
and is not free. -/
structure NewPage (m : PhysMem) (d va : ℕ) : Prop where
  present : Present m d va
  flags : pteFlags (pteOf m d va) = pteP ||| pteW ||| pteU
  zero : ∀ x, pgrounddown x = pageOf m d va → m.byte x = 0
  own : ∀ r, Holds m d (pageOf m d va) r → r = .user (pgrounddown va)
  notFree : pageOf m d va ∉ m.freelist

/-- `allocuvm` means what it returns: the new size, and all pages of the range are there; or 0, and
none of them is, and the only frames that are missing from the free list are page tables. Nothing
else changes. -/
def AllocMeans (m : PhysMem) (d oldsz newsz : ℕ) : Prop :=
  ∃ r m', allocuvm m d oldsz newsz = .ok (r, m') ∧ (r = newsz ∨ r = 0) ∧
    (r = newsz → ∀ va, va < kernbase → InRange oldsz newsz va → NewPage m' d va) ∧
    (r = 0 → (∀ va, va < kernbase → InRange oldsz newsz va → ¬ Present m' d va) ∧
      ∀ f ∈ m.freelist, f ∉ m'.freelist → ∃ i, Holds m' d f (.table i)) ∧
    (∀ va, va < 2 ^ 32 → ¬ InRange oldsz newsz va → pteOf m' d va = pteOf m d va) ∧
    ∀ va x, va < kernbase → ¬ InRange oldsz newsz va → Present m d va →
      pgrounddown x = pageOf m d va → m'.byte x = m.byte x

/-- Wherever there is a page for the `k`-th page of the range, there is one for its page table too,
if it needs one. -/
def TablesCovered (m : PhysMem) (d oldsz newsz : ℕ) : Prop :=
  ∀ k, pgroundup oldsz + 4096 * k < newsz →
    CanAlloc m (growCost m d (pgroundup oldsz) k + 1) →
    CanAlloc m (growCost m d (pgroundup oldsz) (k + 1))

theorem inRange_lt_kernbase (hnew : newsz < kernbase) (h : InRange oldsz newsz va) :
    va < 0x80000000 := by
  have h1 := h.2
  simp only [kernbase, pgrounddown, pgsize] at *
  omega

theorem GrowUpTo.means (h : GrowUpTo m m' d (pgroundup oldsz) k) (hpos : 0 < newsz)
    (hend : newsz ≤ pgroundup oldsz + 4096 * k)
    (hlt : ∀ j, j < k → pgroundup oldsz + 4096 * j < newsz)
    (hr : allocuvm m d oldsz newsz = .ok (newsz, m')) : AllocMeans m d oldsz newsz := by
  have hup := pgroundup_mod oldsz
  have hiff : ∀ va, InRange oldsz newsz va ↔ pgrounddown va % 4096 = 0 ∧
      pgroundup oldsz ≤ pgrounddown va ∧ pgrounddown va < pgroundup oldsz + 4096 * k := by
    intro va
    have hmod := pgrounddown_mod va
    constructor
    · rintro ⟨h1, h2⟩
      exact ⟨hmod, h1, by omega⟩
    · rintro ⟨-, h1, h2⟩
      have hj := hlt ((pgrounddown va - pgroundup oldsz) / 4096) (by omega)
      exact ⟨h1, by omega⟩
  refine ⟨newsz, m', hr, .inl rfl, fun _ va hv hin => ?_, fun h0 => absurd h0 hpos.ne',
    fun va hv hout => ?_, fun va x hv _ hp hx => h.allocs.byte va x hv hp hx⟩
  · have hS := (hiff va).mp hin
    have hp := (h.allocs.present_iff hv).mpr (.inr hS)
    have hwf := h.conserves.wf
    exact ⟨hp, h.allocs.flags va hv hS, fun x hx => h.allocs.zero va x hv hS hx,
      fun r hr => hwf.unique hr (.user' hv hp), hwf.notFree (.user' hv hp)⟩
  · exact h.allocs.kept va hv fun hc => hout ((hiff va).mpr hc.2)

/-- What was mapped before the pages ran out is unmapped again: the first of them has a page table,
so the loop of `deallocuvm` finds them all. -/
theorem GrowUpTo.visited (h : GrowUpTo m₀ m d a k) (ha : a % 4096 = 0) (hnew : newsz < 0x80000000)
    (hpos : 0 < k) (hle : a ≤ va) (hv : va < newsz) : Visited m d a newsz va := by
  have ht : HasTable m d (pdx a) := by
    have hmem : pdx a ∈ Xv6.tables m d := by
      rw [h.tables, Finset.mem_union, Finset.mem_image]
      exact .inr ⟨0, Finset.mem_range.mpr hpos, by simp⟩
    exact (mem_tables.mp hmem).2
  refine ⟨hle, hv, ?_⟩
  by_cases hreg : pdx a < pdx va
  · exact .inl ⟨pdx a, Nat.le_refl _, hreg, ht⟩
  · right
    simp only [pdx, ptx, pgsize, npdentries, nptentries] at *
    omega

section

variable (hwf : WF m d) (hold : oldsz ≤ newsz) (hnew : newsz < kernbase) (hpos : 0 < newsz)
  (habs : ∀ va, va < kernbase → InRange oldsz newsz va → ¬ Present m d va)

include hnew habs

include hwf hpos in
theorem GrowUpTo.rolledBack (h : GrowUpTo m m₀ d (pgroundup oldsz) k)
    (hlt : pgroundup oldsz + 4096 * k < newsz) (hk : kalloc m₀ = (none, m₁))
    (hun : Unmaps m₁ m' d (Visited m₁ d (pgroundup oldsz) newsz))
    (hr : allocuvm m d oldsz newsz = .ok (0, m')) : AllocMeans m d oldsz newsz := by
  obtain ⟨hbyte, hlist, -⟩ := kalloc_eq_none hk
  have hview : SameView m₀ m₁ d := .of_eq hbyte
  have hwf₁ := h.conserves.wf.kalloc_none hk
  have hrange : ∀ va, Visited m₁ d (pgroundup oldsz) newsz (pgrounddown va) →
      InRange oldsz newsz va := fun va hvis => ⟨hvis.1, hvis.2.1⟩
  have hgone : ∀ va, va < kernbase → InRange oldsz newsz va → ¬ Present m' d va := by
    intro va hv hin hp
    obtain ⟨hp₁, hvis⟩ := (hun.present_iff hv).mp hp
    have hmapped := ((h.present_iff hv).mp (hview.present.mp hp₁)).resolve_left (habs va hv hin)
    refine hvis ((visited_congr fun i hi => hview.hasTable hi).mpr ?_)
    exact h.visited (pgroundup_mod oldsz) hnew (Nat.pos_of_ne_zero fun h0 => by subst h0; omega)
      hin.1 hin.2
  have hkept : ∀ va, va < 2 ^ 32 → ¬ InRange oldsz newsz va → pteOf m' d va = pteOf m d va := by
    intro va hv hout
    rw [hun.kept va hv fun hc => hout (hrange va hc.2.1), hview.pteOf, h.allocs.kept va hv]
    rintro ⟨-, -, h1, h2⟩
    exact hout ⟨h1, by omega⟩
  refine ⟨0, m', hr, .inr rfl, fun h0 => absurd h0.symm hpos.ne', fun _ => ⟨hgone, ?_⟩, hkept,
    fun va x hv hout hp hx => ?_⟩
  · -- nothing is lost, and pages that are present were so before
    have hcons := (h.conserves.trans (hview.conserves hwf₁ hlist)).trans hun.conserves
    intro f hf hnot
    obtain ⟨r, hr⟩ := ((hcons.frames f).mpr (.inr hf)).resolve_right hnot
    cases hr with
    | dir => exact absurd hf (hwf.notFree .dir)
    | table hi ht => exact ⟨_, .table hi ht⟩
    | @user va ha hv hp =>
      have hout : ¬ InRange oldsz newsz va := fun hin => hgone va hv hin hp
      have hsame := hkept va (by omega) hout
      have hp₀ : Present m d va := by rwa [Present, ← hsame]
      rw [pageOf, hsame] at hf
      exact absurd hf (hwf.notFree (.user' hv hp₀))
  · have hp₀ := (h.present_iff hv).mpr (.inl hp)
    have hpage := h.allocs.pageOf_eq hv hp
    rw [hun.byte va x hv (fun hvis => hout (hrange va hvis)) (hview.present.mpr hp₀)
      (by rw [hview.pageOf, hpage, hx]), hbyte]
    exact h.allocs.byte va x hv hp hx

theorem LosesPage.not_means (hlose : LosesPage m₀ m₁ d a f)
    (h : GrowUpTo m m₀ d (pgroundup oldsz) k) (ha : a = pgroundup oldsz + 4096 * k)
    (hlt : a < newsz) {g : Growth}
    (hends : g.Ends m₁ d oldsz newsz (a + 4096) (allocuvm m d oldsz newsz)) :
    ¬ AllocMeans m d oldsz newsz := by
  have hup := pgroundup_mod oldsz
  have hdown : pgrounddown a = a := pgrounddown_of_mod (by omega)
  have hin : InRange oldsz newsz a := by
    rw [InRange, hdown]
    omega
  have hv := inRange_lt_kernbase hnew hin
  rintro ⟨r, m', hr, hcases, hfull, hback, -⟩
  rw [hr] at hends
  cases g with
  | remap => cases hends.1
  | full S =>
    -- the page is not there
    obtain ⟨m₂, he, hal, hS, -⟩ := hends
    cases he
    have hp := (hfull rfl a hv hin).present
    rcases (hal.present_iff hv).mp hp with hp | hs
    · rcases (h.present_iff hv).mp (hlose.view.present.mp hp) with hp | hs
      · exact habs a hv hin hp
      · rw [hdown] at hs
        omega
    · have hrange := hS _ hs
      rw [hdown] at hrange
      omega
  | short S =>
    -- nor is its frame anywhere
    obtain ⟨m₂, m₃, he, hal, hS, hun, -⟩ := hends
    cases he
    have hkeeps := hal.keeps.trans hun.keeps
    have hnot : ¬ (f ∈ owned m' d ∨ f ∈ m'.freelist) := by
      intro hf
      rcases hkeeps.transfer.sub f hf with ⟨r, hr⟩ | hf
      · exact hlose.fresh.notHeld r hr
      · exact hlose.fresh.notFree hf
    have hf : f ∈ m.freelist := by
      refine h.draws.suffix.subset ?_
      rw [hlose.freelist]
      exact mem_cons_self
    obtain ⟨i, hi⟩ := (hback rfl).2 f hf fun hf => hnot (.inr hf)
    exact hnot (.inl ⟨_, hi⟩)

include hwf hold hpos

theorem allocuvm_means_or_lost :
    (TablesCovered m d oldsz newsz ∧ AllocMeans m d oldsz newsz) ∨
      (¬ TablesCovered m d oldsz newsz ∧ ¬ AllocMeans m d oldsz newsz) := by
  have hup := pgroundup_mod oldsz
  have hstops := allocuvm_grows hwf hold hnew
  generalize hres : allocuvm m d oldsz newsz = res at hstops
  cases hstops with
  | @remap va ha hle hlt hp =>
    have hdown := pgrounddown_of_mod ha
    refine absurd hp (habs va ?_ ?_)
    · simp only [kernbase] at hnew ⊢
      omega
    · rw [InRange, hdown]
      exact ⟨hle, hlt⟩
  | @full m' k h hend hlt =>
    refine .inl ⟨fun j hj _ => ?_, h.means hpos hend hlt hres⟩
    have hjk : j < k := by omega
    exact h.draws.can.mono (growCost_mono hjk)
  | @page m' m₁ m'' k h hlt hk hun =>
    refine .inl ⟨fun j hj hcan => ?_, h.rolledBack hwf hnew hpos habs hlt hk hun hres⟩
    by_cases hjk : j < k
    · exact h.draws.can.mono (growCost_mono hjk)
    · -- the page before which it stopped comes first
      have hle := growCost_mono (m := m) (d := d) (a := pgroundup oldsz) (Nat.le_of_not_lt hjk)
      exact absurd (h.draws.canAlloc.mp (hcan.mono (Nat.add_le_add_right hle 1)))
        (not_canAlloc_of_none hk)
  | @table m' m₁ k f res _ h hlt hcan hlose hends =>
    refine .inr ⟨fun hcov => ?_, hlose.not_means hnew habs h rfl hlt (hres ▸ hends)⟩
    have hmore := hcov k hlt (h.draws.canAlloc.mpr hcan)
    rw [h.cost, if_neg hlose.noTable] at hmore
    exact hlose.short (h.draws.canAlloc.mp hmore)

/-- **`allocuvm` means what it returns** exactly if no page table is missing for a page it has. -/
theorem allocuvm_means_iff : AllocMeans m d oldsz newsz ↔ TablesCovered m d oldsz newsz := by
  obtain ⟨hcov, hmeans⟩ | ⟨hcov, hmeans⟩ := allocuvm_means_or_lost hwf hold hnew hpos habs
  · exact iff_of_true hmeans hcov
  · exact iff_of_false hmeans hcov

end

theorem Tiny.absent {free : List ℕ} (hle : 0x3000 ≤ oldsz) (hold : oldsz < 0x80000000) :
    ∀ va, va < kernbase → InRange oldsz newsz va → ¬ Present (Tiny.mem free) 0x200000 va := by
  rintro va hv ⟨h1, -⟩
  have h2 := pgrounddown_le va
  have h3 := le_pgroundup (Nat.le_of_lt hold)
  rw [Present, Tiny.pteOf_eq (by simp only [kernbase] at hv; omega), Tiny.userEntry, kernelPte,
    if_pos hv]
  split_ifs <;> first | omega | decide

theorem Tiny.mem_wf {free : List ℕ} (hnd : free.Nodup)
    (hfree : ∀ f ∈ free, IsFrame f ∧ 0x246000 ≤ f) : WF (Tiny.mem free) 0x200000 :=
  (Tiny.image_isImage hnd hfree).wf

/-- With one free page it can grow by a page. -/
theorem allocuvm_means_iff_tiny : AllocMeans (Tiny.mem [0x300000]) 0x200000 0x3000 0x4000 := by
  refine (allocuvm_means_iff (Tiny.mem_wf (by decide) (by decide)) (by decide) (by decide)
    (by decide) (Tiny.absent (by decide) (by decide))).mpr fun k hk hcan => ?_
  have hk0 : k = 0 := by
    simp only [pgroundup, u32, pgsize] at hk
    omega
  have htab : pdx (pgroundup 0x3000 + 4096 * 0) ∈ tables (Tiny.mem [0x300000]) 0x200000 :=
    mem_tables.mpr ⟨by decide, (Tiny.hasTable_iff (by decide)).mpr (.inl (by decide))⟩
  rw [hk0] at hcan ⊢
  rwa [growCost_succ, if_pos (Finset.mem_union_left _ htab)]

/-- With one free page it cannot grow into a new region, but `allocuvm` says it did. -/
theorem allocuvm_loses_page : WF (Tiny.mem [0x300000]) 0x200000 ∧
    (∀ va, va < kernbase → InRange 0x400000 0x401000 va →
      ¬ Present (Tiny.mem [0x300000]) 0x200000 va) ∧
    ¬ AllocMeans (Tiny.mem [0x300000]) 0x200000 0x400000 0x401000 := by
  have hwf : WF (Tiny.mem [0x300000]) 0x200000 := Tiny.mem_wf (by decide) (by decide)
  have habs : ∀ va, va < kernbase → InRange 0x400000 0x401000 va →
      ¬ Present (Tiny.mem [0x300000]) 0x200000 va := Tiny.absent (by decide) (by decide)
  refine ⟨hwf, habs, ?_⟩
  obtain ⟨hcov, -⟩ | ⟨-, hmeans⟩ :=
    allocuvm_means_or_lost hwf (by decide) (by decide) (by decide) habs
  · have hcan := hcov 0 (by decide) (by rw [growCost_zero]; exact ⟨by decide, by simp [Tiny.mem]⟩)
    have htab : pdx (pgroundup 0x400000 + 4096 * 0) ∉ tables (Tiny.mem [0x300000]) 0x200000 := by
      rw [mem_tables, Tiny.hasTable_iff (by decide)]
      decide
    rw [growCost_succ, growCost_zero, if_neg (by simpa using htab)] at hcan
    exact absurd hcan.1 (by decide)
  · exact hmeans

/-! ### `fork` -/

/-- A `fork` that fails leaves no trace: the free frames and their number are as before, and so is
the state of every slot. -/
def LeaksNothing (m : PhysMem) (t : Ptable) (cur : ℕ) : Prop :=
  ∀ m' t', fork m t cur = .ok (-1, m', t') →
    (∀ f, f ∈ m'.freelist ↔ f ∈ m.freelist) ∧ m'.freeFrameCnt = m.freeFrameCnt ∧
      ∀ i, (t'.proc i).state = (t.proc i).state

/-- Wherever there is a page for the directory, there are enough for the kernel's part; and wherever
there is one for a page of the parent, there is one for its page table too, if it needs one. -/
def CopyCovered (m : PhysMem) (sz : ℕ) : Prop :=
  (CanAlloc m 2 → CanAlloc m 66) ∧
    ∀ i, i % 4096 = 0 → i < sz → CanAlloc m (copyCost i + 2) → CanAlloc m (copyCost (i + 4096) + 1)

theorem FreeOk.cnt_eq (h : FreeOk m) (h' : FreeOk m')
    (hiff : ∀ f, f ∈ m'.freelist ↔ f ∈ m.freelist) : m'.freeFrameCnt = m.freeFrameCnt := by
  have hperm : m'.freelist.Perm m.freelist :=
    (perm_ext_iff_of_nodup h'.nodup h.nodup).mpr hiff
  rw [h'.cnt, h.cnt, hperm.length_eq]

theorem FreeOk.cons (h : FreeOk m) (hf : IsFrame f) (hn : f ∉ m.freelist) :
    FreeOk { m.setPage f 1 with
      freelist := f :: m.freelist, freeFrameCnt := m.freeFrameCnt + 1 } where
  nodup := nodup_cons.mpr ⟨hn, h.nodup⟩
  isFrame g hg := by
    rcases mem_cons.mp hg with rfl | hg
    · exact hf
    · exact h.isFrame g hg
  cnt := by simp [h.cnt]

theorem CopyCovered.of_short (h : ¬ CanAlloc m 2) : CopyCovered m sz :=
  ⟨fun hc => absurd hc h, fun _ _ _ hc => absurd (hc.mono (Nat.le_add_left 2 _)) h⟩

theorem CopyCovered.of_page {i : ℕ} (hi : i % 4096 = 0) (h : CanAlloc m (copyCost i + 1))
    (hno : ¬ CanAlloc m (copyCost i + 2)) : CopyCovered m sz := by
  refine ⟨fun _ => h.mono (by simp only [copyCost]; omega), fun j hj _ hc => ?_⟩
  by_cases hlt : j < i
  · have hle : copyCost (j + 4096) ≤ copyCost i := copyCost_mono (by omega)
    exact h.mono (Nat.add_le_add_right hle 1)
  · have hle : copyCost i ≤ copyCost j := copyCost_mono (Nat.le_of_not_lt hlt)
    exact absurd (hc.mono (Nat.add_le_add_right hle 2)) hno

theorem CopyCovered.of_enough (hsz : sz < 0x80000000) (h : CanAlloc m (copyCost (pgroundup sz) + 1))
    : CopyCovered m sz := by
  have hup := le_pgroundup (Nat.le_of_lt hsz)
  have hmod := pgroundup_mod sz
  refine ⟨fun _ => h.mono (by simp only [copyCost]; omega), fun j hj hlt _ => ?_⟩
  have hle : copyCost (j + 4096) ≤ copyCost (pgroundup sz) := copyCost_mono (by omega)
  exact h.mono (Nat.add_le_add_right hle 1)

section Fork

variable {t t₁ : Ptable} {cur i s : ℕ}

section

variable (hal : allocproc m t = (some i, m₁, t₁)) (hstack : (t₁.proc i).kstack = s) (hs : IsFrame s)
  (hcopy : copyuvm m₁ (t.proc cur).pgdir (t.proc cur).sz = .ok (none, m'))

include hal hstack hs hcopy

theorem fork_of_copyuvm :
    fork m t cur = .ok (-1, { m'.setPage s 1 with
        freelist := s :: m'.freelist, freeFrameCnt := m'.freeFrameCnt + 1 },
      t₁.set i { t₁.proc i with pgdir := 0, kstack := 0, state := .unused }) := by
  rw [fork, hal]
  simp only [hcopy, hstack, kfree_of_isFrame hs]

variable (hfree : FreeOk m) (hlist : m.freelist = s :: m₁.freelist)

include hfree hlist

theorem leaksNothing_of_copyuvm (hun : (t.proc i).state = .unused)
    (hrest : ∀ j, j ≠ i → t₁.proc j = t.proc j) (hfree' : FreeOk m')
    (hsame : ∀ f, f ∈ m'.freelist ↔ f ∈ m₁.freelist) : LeaksNothing m t cur := by
  intro m₂ t₂ hr
  rw [fork_of_copyuvm hal hstack hs hcopy] at hr
  cases hr
  have hnot : s ∉ m'.freelist := by
    rw [hsame]
    exact (nodup_cons.mp (hlist ▸ hfree.nodup)).1
  have hiff : ∀ f, f ∈ s :: m'.freelist ↔ f ∈ m.freelist := by
    intro f
    rw [hlist, mem_cons, mem_cons, hsame]
  refine ⟨hiff, hfree.cnt_eq (hfree'.cons hs hnot) hiff, fun j => ?_⟩
  by_cases hj : j = i
  · rw [hj, Ptable.set_self, hun]
  · rw [Ptable.set_of_ne _ hj, hrest j hj]

theorem not_leaksNothing (hf : f ∈ m₁.freelist) (hlost : f ∉ m'.freelist) :
    ¬ LeaksNothing m t cur := by
  intro h
  obtain ⟨hiff, -⟩ := h _ _ (fork_of_copyuvm hal hstack hs hcopy)
  have hnd := hlist ▸ hfree.nodup
  have hin := (hiff f).mpr (by rw [hlist]; exact mem_cons_of_mem s hf)
  rcases mem_cons.mp hin with rfl | hin
  · exact (nodup_cons.mp hnd).1 hf
  · exact hlost hin

end

/-- There was no page to copy to: the directory gives back all it has. -/
theorem CopyUpTo.bad_givesBack {src : ℕ} (h : CopyUpTo m m₀ src d k) (hk : k % 4096 = 0)
    (hle : k ≤ 0x80000000) (hfree : FreeOk m) (hno : kalloc m₀ = (none, m₁)) :
    ∃ m', copyuvmBad m₁ d = .ok (none, m') ∧ FreeOk m' ∧ ∀ f, f ∈ m'.freelist ↔ f ∈ m.freelist := by
  obtain ⟨hbyte, hlist, -⟩ := kalloc_eq_none hno
  have hview : SameView m₀ m₁ d := .of_eq hbyte
  obtain ⟨m', hrun, hfree', -, ⟨l, hl, hmem⟩, -⟩ := freevm_spec (h.wf.kalloc_none hno)
  refine ⟨m', by rw [copyuvmBad, hrun], hfree', fun f => ?_⟩
  rw [hl, mem_append, hmem, hview.owned, hlist]
  exact h.frames hk hle hfree

/-- There was no page table: the page in hand is not in the directory. -/
theorem LosesPage.bad_leaks (hlose : LosesPage m₀ m₁ d va f) :
    ∃ m', copyuvmBad m₁ d = .ok (none, m') ∧ f ∉ m'.freelist := by
  obtain ⟨m', hrun, -, htr, -⟩ := freevm_spec hlose.keeps.wf
  refine ⟨m', by rw [copyuvmBad, hrun], fun hf => ?_⟩
  rcases htr.sub f (.inr hf) with ⟨r, hr⟩ | hf
  · exact hlose.fresh.notHeld r hr
  · exact hlose.fresh.notFree hf

section

variable (hwf : WF m (t.proc cur).pgdir) (hsz : (t.proc cur).sz < kernbase)
  (hall : ∀ va, va < (t.proc cur).sz → Present m (t.proc cur).pgdir va)

include hwf hsz hall

theorem fork_leaks_cases :
    (((∀ i, i < nproc → (t.proc i).state ≠ .unused) ∨ CopyCovered m (t.proc cur).sz) ∧
        LeaksNothing m t cur) ∨
      (¬ ((∀ i, i < nproc → (t.proc i).state ≠ .unused) ∨ CopyCovered m (t.proc cur).sz) ∧
        ¬ LeaksNothing m t cur) := by
  obtain ⟨hal, hfull⟩ | ⟨i, m₁, hi, hun, ⟨hk, hal⟩ | ⟨s, hk, hal⟩⟩ := allocproc_cases m t
  · -- no slot
    refine .inl ⟨.inl hfull, fun m' t' hr => ?_⟩
    rw [fork, hal] at hr
    cases hr
    exact ⟨fun _ => Iff.rfl, rfl, fun _ => rfl⟩
  · -- no kernel stack
    refine .inl ⟨.inr (.of_short (not_canAlloc_of_none hk)), fun m' t' hr => ?_⟩
    rw [fork, hal] at hr
    cases hr
    obtain ⟨-, hlist, hcnt, -⟩ := kalloc_eq_none hk
    refine ⟨fun f => by rw [hlist], hcnt, fun j => ?_⟩
    by_cases hj : j = i
    · rw [hj, Ptable.set_self, hun]
    · rw [Ptable.set_of_ne _ hj]
  · generalize ht₁ : ({ t with nextpid := t.nextpid + 1 }.set i { t.proc i with
        state := .embryo, pid := t.nextpid, heapStart := 0, pageAllocatorType := 0
        kstack := s } : Ptable) = t₁ at hal
    have hstack : (t₁.proc i).kstack = s := by rw [← ht₁, Ptable.set_self]
    have hrest : ∀ j, j ≠ i → t₁.proc j = t.proc j := fun j hj => by
      rw [← ht₁, Ptable.set_of_ne _ hj]
    obtain ⟨hwf₁, hfresh⟩ := hwf.kalloc_some hk
    have hs := hfresh.isFrame
    obtain ⟨hbyte, hlist, -⟩ := kalloc_eq_some hk
    have hview : SameView m m₁ (t.proc cur).pgdir := .of_eq hbyte
    have hcan : ∀ n, CanAlloc m (n + 1) ↔ CanAlloc m₁ n := fun n => canAlloc_succ_iff hk
    have hslot : ¬ ∀ i, i < nproc → (t.proc i).state ≠ .unused := fun hfull => hfull i hi hun
    have hstops := copyuvm_stops hwf₁ hsz
    generalize hcopy : copyuvm m₁ (t.proc cur).pgdir (t.proc cur).sz = res at hstops
    cases hstops with
    | hole _ hlt hp => exact absurd (hview.present.mpr (hall _ hlt)) hp
    | kvm hfail =>
      obtain ⟨hno, hlist'⟩ | ⟨hone, g, hg, hlost⟩ := hfail.lost
      · exact .inl ⟨.inr (.of_short fun hc => hno ((hcan 1).mp hc)),
          leaksNothing_of_copyuvm hal hstack hs hcopy hwf.free hlist hun hrest hfail.free
            fun f => by rw [hlist']⟩
      · refine .inr ⟨?_, not_leaksNothing hal hstack hs hcopy hwf.free hlist hg hlost⟩
        rintro (hfull | hcov)
        · exact hslot hfull
        · exact hfail.short ((hcan 65).mp (hcov.1 ((hcan 1).mpr hone)))
    | page h hj hlt _ hno =>
      obtain ⟨m', hbad, hfree', hsame⟩ := h.bad_givesBack hj
        (by simp only [kernbase] at hsz; omega) hwf₁.free hno
      rw [hbad] at hcopy
      refine .inl ⟨.inr (.of_page hj ((hcan _).mpr h.draws.can) fun hc => ?_),
        leaksNothing_of_copyuvm hal hstack hs hcopy hwf.free hlist hun hrest hfree' hsame⟩
      exact not_canAlloc_of_none hno (h.draws.canAlloc.mp ((hcan _).mp hc) : CanAlloc _ (0 + 1))
    | @table m₂ m₃ d j f h hj hlt _ hone hlose =>
      obtain ⟨m', hbad, hlost⟩ := hlose.bad_leaks
      rw [hbad] at hcopy
      have hf : f ∈ m₁.freelist := by
        refine h.draws.suffix.subset ?_
        rw [hlose.freelist]
        exact mem_cons_self
      refine .inr ⟨?_, not_leaksNothing hal hstack hs hcopy hwf.free hlist hf hlost⟩
      rintro (hfull | hcov)
      · exact hslot hfull
      · have hmore := hcov.2 j hj hlt ((hcan _).mpr (h.draws.canAlloc.mpr hone))
        rw [h.cost hj (by simp only [kernbase] at hsz; omega), if_neg hlose.noTable] at hmore
        exact hlose.short (h.draws.canAlloc.mp ((hcan _).mp hmore))
    | copied _ h =>
      refine .inl ⟨.inr (.of_enough hsz ((hcan _).mpr h.draws.can)), fun m' t' hr => ?_⟩
      rw [fork, hal] at hr
      simp only [hcopy, Except.ok.injEq, Prod.mk.injEq] at hr
      omega

/-- **A failed `fork` leaks nothing** exactly if there was no slot for it, or what was missing was a
page to copy to, or one of the first two. -/
theorem fork_leaks_nothing_iff : LeaksNothing m t cur ↔
      (∀ i, i < nproc → (t.proc i).state ≠ .unused) ∨ CopyCovered m (t.proc cur).sz := by
  obtain ⟨hcov, hleaks⟩ | ⟨hcov, hleaks⟩ := fork_leaks_cases hwf hsz hall
  · exact iff_of_true hleaks hcov
  · exact iff_of_false hleaks hcov

theorem fork_fails (hshort : ¬ CanAlloc m (copyCost (pgroundup (t.proc cur).sz) + 1)) :
    ∃ m' t', fork m t cur = .ok (-1, m', t') := by
  obtain ⟨hal, -⟩ | ⟨i, m₁, -, -, ⟨-, hal⟩ | ⟨s, hk, hal⟩⟩ := allocproc_cases m t
  · exact ⟨_, _, by rw [fork, hal]⟩
  · exact ⟨_, _, by rw [fork, hal]⟩
  · obtain ⟨hwf₁, hfresh⟩ := hwf.kalloc_some hk
    obtain ⟨hbyte, -⟩ := kalloc_eq_some hk
    have hview : SameView m m₁ (t.proc cur).pgdir := .of_eq hbyte
    have hends := copyuvm_ends hwf₁ hsz
    generalize hcopy : copyuvm m₁ (t.proc cur).pgdir (t.proc cur).sz = res at hends
    cases hends with
    | hole hlt hp => exact absurd (hview.present.mpr (hall _ hlt)) hp
    | failed =>
      exact ⟨_, _, fork_of_copyuvm hal (by rw [Ptable.set_self]) hfresh.isFrame hcopy⟩
    | copied _ h => exact absurd ((canAlloc_succ_iff hk).mpr h.draws.can) hshort

end

end Fork

theorem Ptable.only_zero (p : Proc) : (Ptable.only p).proc 0 = p := rfl

theorem Tiny.parent_ok {n : ℕ} (hn : n ≤ 0x1000) {t : Ptable} (ht : t.proc 0 = (image []).proc) :
    WF (mem (frames n)) (t.proc 0).pgdir ∧ (t.proc 0).sz < kernbase ∧
      ∀ va, va < (t.proc 0).sz → Present (mem (frames n)) (t.proc 0).pgdir va := by
  obtain ⟨hnd, hfree⟩ := frames_ok hn
  rw [ht]
  exact ⟨mem_wf hnd hfree, by decide, fun va hv => image_full hv⟩

/-- With 69 free pages the smallest image cannot fork: there is none for the last of its three
pages. What `fork` has taken is given back. -/
theorem fork_leaks_nothing_iff_tiny : ∃ m' t',
    fork (Tiny.mem (Tiny.frames 69)) (.only (Tiny.image []).proc) 0 = .ok (-1, m', t') ∧
      ∀ f, f ∈ m'.freelist ↔ f ∈ Tiny.frames 69 := by
  have hparent := Ptable.only_zero (Tiny.image []).proc
  generalize Ptable.only (Tiny.image []).proc = t at hparent
  obtain ⟨hwf, hsz, hall⟩ := Tiny.parent_ok (by decide : 69 ≤ 0x1000) hparent
  have hcan : ∀ n, CanAlloc (Tiny.mem (Tiny.frames 69)) n ↔ n ≤ 69 := fun n => by
    simp [CanAlloc, Tiny.mem, Tiny.frames]
  have hcost : copyCost (pgroundup (t.proc 0).sz) = 69 := by
    rw [hparent]
    decide
  obtain ⟨m', t', hfork⟩ := fork_fails hwf hsz hall (by rw [hcan, hcost]; decide)
  have hcov : CopyCovered (Tiny.mem (Tiny.frames 69)) (t.proc 0).sz := by
    refine .of_page (i := 0x2000) (by decide) ?_ ?_ <;> rw [hcan] <;> decide
  exact ⟨m', t', hfork, ((fork_leaks_nothing_iff hwf hsz hall).mpr (.inr hcov) m' t' hfork).1⟩

/-- With two it loses the page of the new directory. -/
theorem fork_loses_directory : ∃ m t cur, WF m (t.proc cur).pgdir ∧ (t.proc cur).sz < kernbase ∧
    (∀ va, va < (t.proc cur).sz → Present m (t.proc cur).pgdir va) ∧ ¬ LeaksNothing m t cur := by
  have hparent := Ptable.only_zero (Tiny.image []).proc
  have hslot : ((Ptable.only (Tiny.image []).proc).proc 1).state = .unused := rfl
  generalize Ptable.only (Tiny.image []).proc = t at hparent hslot
  obtain ⟨hwf, hsz, hall⟩ := Tiny.parent_ok (by decide : 2 ≤ 0x1000) hparent
  refine ⟨Tiny.mem (Tiny.frames 2), t, 0, hwf, hsz, hall, ?_⟩
  obtain ⟨hfull | hcov, -⟩ | ⟨-, hleaks⟩ := fork_leaks_cases hwf hsz hall
  · exact absurd hslot (hfull 1 (by decide))
  · exact absurd (hcov.1 ⟨by decide, by simp [Tiny.mem]⟩).1 (by decide)
  · exact hleaks

end Xv6
