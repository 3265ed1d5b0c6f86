import Xv6.Vm.Process

/-!
# What a process's memory can become

One lemma for each operation says everything it can do: `sysSbrk_ends` for `sbrk` and
`pgflt_ends` for a page fault. Each is an inductive relation with one constructor per way to end,
so that a later proof is a case analysis on the ending and never unfolds the code again.

From them, `Inv` holds of every state a process reaches from the image it started with.

## Main results

* `sysSbrk_ends`, `pgflt_ends` — the endings
* `Inv.step`, `Inv.run`, `reachable_inv` — the invariant along runs
-/

namespace Xv6

open ByteMemory PhysMem Ownership

variable {c c' : Ctx} {m m' : PhysMem} {d va f heap : ℕ} {n : ℤ} {o : Obs} {op : Op} {i : ℕ}

/-- What holds of the memory of every process: its directory is well formed, the break lies below
the kernel, and a user page is mapped writeable, with `PTE_U` or (the guard page, below the start of
the heap) without. -/
structure Inv (heap : ℕ) (c : Ctx) : Prop where
  wf : WF c.mem c.proc.pgdir
  sz_pos : 0 < c.proc.sz
  sz_lt : c.proc.sz < 0x80000000
  flags : ∀ va, va < 0x80000000 → Present c.mem c.proc.pgdir va →
    pteFlags (pteOf c.mem c.proc.pgdir va) = 7 ∨
      (pteFlags (pteOf c.mem c.proc.pgdir va) = 3 ∧ va < heap)
  kernel : ∀ va, 0x80000000 ≤ va → va < 2 ^ 32 → pteOf c.mem c.proc.pgdir va = kernelPte va
  heapStart : c.proc.heapStart = 0
  allocator : c.proc.pageAllocatorType = 0 ∨ c.proc.pageAllocatorType = 1

/-- The memory of a process as `exec`, `fork` or `userinit` leave it: any layout of user pages
below the break and nothing above. -/
structure Image (heap : ℕ) (c : Ctx) : Prop extends Inv heap c where
  alive : c.proc.killed = false
  below : ∀ va, va < 0x80000000 → Present c.mem c.proc.pgdir va → va < pgroundup c.proc.sz

/-- A state some process reaches from its image by `sbrk`, `set_page_allocator`, and loads and
stores with the page faults they take. -/
def Reachable (c : Ctx) : Prop :=
  ∃ heap img ops os, Image heap img ∧ run ops img = .ok (os, c)

/-! ### Endings of `sbrk` -/

/-- How `sbrk(n)` can end. -/
inductive SbrkEnds (c : Ctx) (n : ℤ) : Except Panic (ℤ × Ctx) → Prop
  | same : n = 0 → SbrkEnds c n (.ok (c.proc.sz, c))
  | refused : 0 < n → 0x80000000 ≤ c.proc.sz + n → SbrkEnds c n (.ok (-1, c))
  | reserved {k : ℕ} : 0 < n → (k : ℤ) = c.proc.sz + n → k < 0x80000000 →
      c.proc.pageAllocatorType = 1 → SbrkEnds c n (.ok (c.proc.sz, c.setSz c.mem k))
  | allocated {k : ℕ} {m' : PhysMem} {S : ℕ → Prop} : 0 < n → (k : ℤ) = c.proc.sz + n →
      k < 0x80000000 → c.proc.pageAllocatorType ≠ 1 → Allocs c.mem m' c.proc.pgdir S →
      (∀ va, S va → va % 4096 = 0 ∧ pgroundup c.proc.sz ≤ va ∧ va < k) →
      (m'.failures = c.mem.failures →
        ∀ va, va % 4096 = 0 → pgroundup c.proc.sz ≤ va → va < k → S va) →
      SbrkEnds c n (.ok (c.proc.sz, c.setSz m' k))
  /-- It runs out of pages and takes back what it finds of the new ones. -/
  | failed {k : ℕ} {m₁ m' : PhysMem} {S : ℕ → Prop} : 0 < n → (k : ℤ) = c.proc.sz + n →
      k < 0x80000000 → c.proc.pageAllocatorType ≠ 1 → Allocs c.mem m₁ c.proc.pgdir S →
      (∀ va, S va → va % 4096 = 0 ∧ pgroundup c.proc.sz ≤ va ∧ va < k) →
      Unmaps m₁ m' c.proc.pgdir (Visited m₁ c.proc.pgdir (pgroundup c.proc.sz) k) →
      c.mem.failures < m'.failures → SbrkEnds c n (.ok (-1, { c with mem := m' }))
  | remap {k va : ℕ} : 0 < n → (k : ℤ) = c.proc.sz + n → k < 0x80000000 →
      c.proc.pageAllocatorType ≠ 1 → va % 4096 = 0 → pgroundup c.proc.sz ≤ va → va < k →
      Present c.mem c.proc.pgdir va → SbrkEnds c n (.error .remap)
  | shrunk {k : ℕ} {m' : PhysMem} : n < 0 → (k : ℤ) = c.proc.sz + n → 0 < k →
      Unmaps c.mem m' c.proc.pgdir (Visited c.mem c.proc.pgdir (pgroundup k) c.proc.sz) →
      SbrkEnds c n (.ok (c.proc.sz, c.setSz m' k))
  /-- Shrinking to nothing: the pages go, and the size 0 is taken for a failure. -/
  | emptied {m' : PhysMem} : n < 0 → c.proc.sz + n = 0 →
      Unmaps c.mem m' c.proc.pgdir (Visited c.mem c.proc.pgdir (pgroundup 0) c.proc.sz) →
      SbrkEnds c n (.ok (-1, { c with mem := m' }))
  /-- Shrinking by more than there is: the new size wraps around and nothing happens. -/
  | wrapped : c.proc.sz + n < 0 → SbrkEnds c n (.ok (c.proc.sz, c))

variable {k : ℕ}

theorem u32i_of_nonneg (h : (k : ℤ) = n) (hlt : k < 4294967296) : u32i n = k := by
  rw [u32i, ← h]; omega

theorem sysSbrk_lazy (ht : c.proc.pageAllocatorType = 1) {n : CInt} (hn : 0 < n.1)
    (hk : (k : ℤ) = c.proc.sz + n.1) (hlt : k < 0x80000000) :
    sysSbrk c n = .ok (c.proc.sz, c.setSz c.mem k) := by
  have hge : ¬ k ≥ kernbase := Nat.not_le.mpr hlt
  simp only [sysSbrk, growproc, if_pos hn, if_pos ht, u32i_of_nonneg hk (by omega), if_neg hge]
  rfl

theorem sysSbrk_enough (h : Inv heap c) (ht : c.proc.pageAllocatorType ≠ 1) {n : CInt}
    (hn : 0 < n.1) {k l : ℕ} (hk : (k : ℤ) = c.proc.sz + n.1) (hlt : k < 0x80000000)
    (hlo : pgroundup c.proc.sz + 4096 * l < k) (hhi : k ≤ pgroundup c.proc.sz + 4096 * (l + 1))
    (habs : ∀ va, pgroundup c.proc.sz ≤ va → va < k → ¬ Present c.mem c.proc.pgdir va)
    (hcan : CanAlloc c.mem (growCost c.mem c.proc.pgdir (pgroundup c.proc.sz) (l + 1))) :
    ∃ m', sysSbrk c n = .ok (c.proc.sz, c.setSz m' k) ∧ Allocs c.mem m' c.proc.pgdir
        (fun va => va % 4096 = 0 ∧ pgroundup c.proc.sz ≤ va ∧ va < k) ∧
      Draws c.mem m' (growCost c.mem c.proc.pgdir (pgroundup c.proc.sz) (l + 1)) := by
  obtain ⟨m', hres, hal, hdraws⟩ := allocuvm_enough h.wf hlt hlo hhi (by omega) habs hcan
  have hpos : ¬ k = 0 := by omega
  refine ⟨m', ?_, hal, hdraws⟩
  simp only [sysSbrk, growproc, if_pos hn, if_neg ht, u32i_of_nonneg hk (by omega), hres,
    if_neg hpos]
  rfl

/-- **Everything `sbrk` can do.** -/
theorem sysSbrk_ends (h : Inv heap c) (n : CInt) : SbrkEnds c n (sysSbrk c n) := by
  obtain ⟨n, hlo, hhi⟩ := n
  have hsz := h.sz_lt
  have hpos := h.sz_pos
  simp only [sysSbrk, growproc, kernbase]
  rcases lt_trichotomy n 0 with hn | rfl | hn
  · rw [if_neg (by omega), if_pos hn]
    rcases lt_trichotomy ((c.proc.sz : ℤ) + n) 0 with hk | hk | hk
    · -- the new size is at least 2 ^ 31 as an unsigned number
      have hge : u32i (c.proc.sz + n) ≥ c.proc.sz := by simp only [u32i]; omega
      rw [deallocuvm, if_pos hge]
      simp only [if_neg (by omega : ¬ c.proc.sz = 0)]
      exact .wrapped hk
    · have hu : u32i (c.proc.sz + n) = 0 := by rw [hk]; rfl
      obtain ⟨m', hde, hun⟩ := deallocuvm_spec h.wf (Nat.le_of_lt hsz) hpos
      rw [hu, hde]
      exact .emptied hn hk hun
    · obtain ⟨k, hk'⟩ := Int.eq_ofNat_of_zero_le (Int.le_of_lt hk)
      have hu : u32i (c.proc.sz + n) = k := u32i_of_nonneg hk'.symm (by omega)
      have hlt : k < c.proc.sz := by omega
      obtain ⟨m', hde, hun⟩ := deallocuvm_spec h.wf (Nat.le_of_lt hsz) hlt
      rw [hu, hde]
      simp only [if_neg (by omega : ¬ k = 0)]
      exact .shrunk hn hk'.symm (by omega) hun
  · simp only [gt_iff_lt, lt_self_iff_false, if_false]
    exact .same rfl
  · rw [if_pos hn]
    obtain ⟨k, hk'⟩ := Int.eq_ofNat_of_zero_le (by omega : 0 ≤ (c.proc.sz : ℤ) + n)
    have hu : u32i (c.proc.sz + n) = k := u32i_of_nonneg hk'.symm (by omega)
    rw [hu]
    by_cases ht : c.proc.pageAllocatorType = 1
    · rw [if_pos ht]
      by_cases hbig : k ≥ 0x80000000
      · rw [if_pos hbig]
        exact .refused hn (by omega)
      · rw [if_neg hbig]
        exact .reserved hn hk'.symm (by omega) ht
    · rw [if_neg ht]
      by_cases hbig : k ≥ 0x80000000
      · rw [allocuvm, if_pos hbig]
        exact .refused hn (by omega)
      · have hends := allocuvm_spec h.wf (by omega : c.proc.sz ≤ k) (Nat.lt_of_not_ge hbig)
        generalize growth _ _ _ _ _ _ _ _ = g at hends
        cases g with
        | remap =>
          obtain ⟨herr, va, hva, h1, h2, hp⟩ := hends
          rw [herr]
          exact .remap hn hk'.symm (by omega) ht hva h1 h2 hp
        | full S =>
          obtain ⟨m', hok, hS, hrange, hall⟩ := hends
          rw [hok]
          simp only [if_neg (by omega : ¬ k = 0)]
          exact .allocated hn hk'.symm (by omega) ht hS hrange hall
        | short S =>
          obtain ⟨m₁, m', hok, hS, hrange, hun, hf⟩ := hends
          rw [hok]
          exact .failed hn hk'.symm (by omega) ht hS hrange hun hf

/-! ### Endings of a page fault -/

/-- The handler killed the process and mapped nothing. -/
structure FaultKills (c : Ctx) (va : ℕ) (m' : PhysMem) : Prop where
  keeps : Keeps c.mem m' c.proc.pgdir
  view : SameView c.mem m' c.proc.pgdir
  byte : ∀ va' x, va' < 0x80000000 → Present c.mem c.proc.pgdir va' →
    pgrounddown x = pageOf c.mem c.proc.pgdir va' → m'.byte x = c.mem.byte x
  failures : c.mem.failures ≤ m'.failures
  why : (c.proc.pageAllocatorType ≠ 1 ∨ c.proc.sz ≤ pgrounddown va) ∨
    c.mem.failures < m'.failures ∧ (¬ CanAlloc c.mem 1 ∨
      (¬ Present c.mem c.proc.pgdir va ∧ ¬ HasTable c.mem c.proc.pgdir (pdx va) ∧
        ¬ CanAlloc c.mem 2))

/-- The handler mapped the page. -/
structure FaultMaps (c : Ctx) (va : ℕ) (m' : PhysMem) : Prop where
  isLazy : c.proc.pageAllocatorType = 1
  below : pgrounddown va < c.proc.sz
  absent : ¬ Present c.mem c.proc.pgdir va
  can : CanAlloc c.mem 1
  enough : HasTable c.mem c.proc.pgdir (pdx va) ∨ CanAlloc c.mem 2
  allocs : Allocs c.mem m' c.proc.pgdir (· = pgrounddown va)
  failures : m'.failures = c.mem.failures

/-- How the page-fault handler can end. -/
inductive FaultEnds (c : Ctx) (va : ℕ) : Except Panic Ctx → Prop
  /-- The page is present: mapping it again panics. -/
  | remap : c.proc.pageAllocatorType = 1 → pgrounddown va < c.proc.sz →
      Present c.mem c.proc.pgdir va → CanAlloc c.mem 1 → FaultEnds c va (.error .remap)
  | killed {m' : PhysMem} : FaultKills c va m' → FaultEnds c va (.ok (c.kill m'))
  | mapped {m' : PhysMem} : FaultMaps c va m' → FaultEnds c va (.ok { c with mem := m' })

theorem WF.kfree_fresh (h : WF m d) (hf : Fresh m d f) :
    ∃ m', kfree m f = .ok m' ∧ WF m' d ∧ SameView m m' d ∧ m'.freelist = f :: m.freelist ∧
      (∀ x, pgrounddown x ≠ f → m'.byte x = m.byte x) ∧ m'.failures = m.failures := by
  refine ⟨_, kfree_of_isFrame hf.isFrame, ?_⟩
  generalize hm' : ({ m.setPage f 1 with
      freelist := f :: m.freelist, freeFrameCnt := m.freeFrameCnt + 1 } : PhysMem) = m'
  have hbyte : ∀ x, pgrounddown x ≠ f → m'.byte x = m.byte x := fun x hx => by
    rw [← hm']; exact setPage_byte hf.isFrame.mod hx
  have hlist : m'.freelist = f :: m.freelist := by rw [← hm']
  have hview : SameView m m' d := h.sameView fun a ⟨r, hr⟩ => hbyte a fun he =>
    hf.notHeld r (he ▸ hr)
  refine ⟨⟨⟨?_, fun g hg => ?_, ?_⟩, fun hh => h.isFrame (hview.holds hh),
    fun hh hh' => h.unique (hview.holds hh) (hview.holds hh'), fun {g r} hh hin => ?_,
    fun hi ht => ?_⟩, hview, hlist, hbyte, by rw [← hm']; rfl⟩
  · rw [hlist]; exact List.nodup_cons.mpr ⟨hf.notFree, h.free.nodup⟩
  · rw [hlist, List.mem_cons] at hg
    rcases hg with rfl | hg
    · exact hf.isFrame
    · exact h.free.isFrame g hg
  · rw [hlist, ← hm']; simp [h.free.cnt]
  · rw [hlist, List.mem_cons] at hin
    rcases hin with rfl | hin
    · exact hf.notHeld r (hview.holds hh)
    · exact h.notFree (hview.holds hh) hin
  · rw [hview.pde _ hi]; exact h.pdeFlags hi ((hview.hasTable hi).mp ht)

section

variable (h : Inv heap c)

include h

/-- **Everything a page fault can do.** -/
theorem pgflt_ends (va : ℕ) : FaultEnds c va (pgflt c va) := by
  have hsz := h.sz_lt
  have hdown := pgrounddown_mod va
  have hrefl : FaultEnds c va (.ok (c.kill c.mem)) ∨ c.proc.pageAllocatorType = 1 ∧
      pgrounddown va < c.proc.sz := by
    by_cases hok : c.proc.pageAllocatorType = 1 ∧ pgrounddown va < c.proc.sz
    · exact .inr hok
    · refine .inl (.killed ⟨.refl h.wf, .refl _ _, fun _ _ _ _ _ => rfl, Nat.le_refl _, .inl ?_⟩)
      by_cases ht : c.proc.pageAllocatorType = 1
      · exact .inr (Nat.le_of_not_lt fun hlt => hok ⟨ht, hlt⟩)
      · exact .inl ht
  unfold pgflt
  by_cases ht : c.proc.pageAllocatorType = 1
  · rw [if_pos ht, h.heapStart]
    by_cases hlt : pgrounddown va < c.proc.sz
    · simp only [if_neg (by omega : ¬ (pgrounddown va ≥ c.proc.sz ∨ pgrounddown va < 0))]
      rcases hk : kalloc c.mem with ⟨_ | f, m₁⟩
      · obtain ⟨hbyte, hlist, -, hfail⟩ := kalloc_eq_none hk
        have hgrow : Grows c.mem m₁ c.proc.pgdir := .of_same (h.wf.kalloc_none hk) hbyte hlist
        exact .killed ⟨⟨hgrow.wf, hgrow.transfer⟩, .of_eq hbyte,
          fun _ x _ _ _ => by rw [hbyte], by rw [hfail]; exact Nat.le_succ _,
          .inr ⟨by rw [hfail]; exact Nat.lt_succ_self _, .inl (not_canAlloc_of_none hk)⟩⟩
      · have hcan : CanAlloc c.mem 1 := (canAlloc_succ_iff hk).mpr (canAlloc_zero _)
        have hfm := (h.wf.kalloc_some hk).2.isFrame.mod
        have hb : ∀ x, pgrounddown x ≠ f → fill m₁.byte f 0 pgsize x = m₁.byte x :=
          fun x hx => setPage_byte (m := m₁) hfm hx
        have hcase := h.wf.alloc_page hk hb hdown (Nat.lt_trans hlt hsz)
          (show pteW ||| pteU < 4096 by decide)
        rw [show ({ m₁ with byte := fill m₁.byte f 0 pgsize } : PhysMem) = m₁.setPage f 0 from rfl]
          at hcase
        obtain ⟨hp, hmap⟩ | ⟨hp, m₂, hmap, hlose⟩ | ⟨hp, m₂, hmap, hadd⟩ := hcase
        · simp only [hmap]
          exact .remap ht hlt (present_pgrounddown.mp hp) hcan
        · obtain ⟨m₃, hfree, hwf₃, hview₃, hlist₃, hbyte₃, hfail₃⟩ :=
            hlose.keeps.wf.kfree_fresh hlose.fresh
          simp only [hmap, hfree]
          have hview : SameView c.mem m₃ c.proc.pgdir := hlose.view.trans hview₃
          have hf : f ∈ c.mem.freelist := by rw [hlose.freelist]; exact List.mem_cons_self
          have hbyte : ∀ x, pgrounddown x ≠ f → m₃.byte x = c.mem.byte x := fun x hx => by
            rw [hbyte₃ x hx, hlose.byte x hx]
          refine .killed ⟨⟨hwf₃, hwf₃.owns, fun g hg => ?_, fun a ha hfa => ?_⟩, hview,
            fun va' x hv hpv hx => hbyte x fun he => ?_, ?_, .inr ⟨?_, .inr ⟨?_, ?_, hlose.short⟩⟩⟩
          · rw [hview.owned] at hg
            rcases hg with hg | hg
            · exact .inl hg
            · refine .inr ?_
              rw [pool, hlist₃, ← hlose.freelist] at hg
              exact hg
          · exact hbyte a fun he => hfa (he ▸ hf)
          · exact h.wf.notFree (.user' hv hpv) (by rw [← hx, he]; exact hf)
          · rw [hfail₃, hlose.failures]; exact Nat.le_succ _
          · rw [hfail₃, hlose.failures]; exact Nat.lt_succ_self _
          · exact mt present_pgrounddown.mpr hp
          · rw [← pdx_pgrounddown]; exact hlose.noTable
        · simp only [hmap]
          have hal := hadd.allocs hdown (Nat.lt_trans hlt hsz) hp
            (by rw [pteFlags_entry hfm (by decide)]; decide)
            fun x hx => setPage_zero hfm (hx.trans (pteAddr_entry hfm (by decide)))
          exact .mapped ⟨ht, hlt, mt present_pgrounddown.mpr hp, hcan,
            by rw [← pdx_pgrounddown]; exact hadd.enough, hal, hadd.failures⟩
    · rw [if_pos (.inl (Nat.le_of_not_lt hlt))]
      exact hrefl.resolve_right fun hc => hlt hc.2
  · rw [if_neg ht]
    exact hrefl.resolve_right fun hc => ht hc.1

/-! ### The invariant -/

/-- The invariant allows entries to be cleared and user pages to be mapped for the user. -/
theorem Inv.of_pte (hwf : WF m' c.proc.pgdir)
    (hpte : ∀ va, va < 2 ^ 32 → pteOf m' c.proc.pgdir va = pteOf c.mem c.proc.pgdir va ∨
      (va < 0x80000000 ∧ (pteOf m' c.proc.pgdir va = 0 ∨ pteFlags (pteOf m' c.proc.pgdir va) = 7)))
      (hpos : 0 < k) (hlt : k < 0x80000000) {t : ℤ} (ht : t = 0 ∨ t = 1) (b : Bool) :
    Inv heap ⟨m', { c.proc with sz := k, killed := b, pageAllocatorType := t }⟩ where
  wf := hwf
  sz_pos := hpos
  sz_lt := hlt
  flags va hv hp := by
    rcases hpte va (by omega) with heq | ⟨-, hz | h7⟩
    · rw [Present, heq] at hp
      rw [heq]
      exact h.flags va hv hp
    · simp [Present, hz] at hp
    · exact .inl h7
  kernel va hle hlt := by
    rcases hpte va hlt with heq | ⟨hv, -⟩
    · rw [heq, h.kernel va hle hlt]
    · omega
  heapStart := h.heapStart
  allocator := ht

theorem Inv.allocs {S : ℕ → Prop} (hal : Allocs c.mem m' c.proc.pgdir S)
    (hpos : 0 < k) (hlt : k < 0x80000000) : Inv heap (c.setSz m' k) := by
  refine h.of_pte hal.keeps.wf (fun va hva => ?_) hpos hlt h.allocator _
  by_cases hin : va < 0x80000000 ∧ S (pgrounddown va)
  · exact .inr ⟨hin.1, .inr (hal.flags va hin.1 hin.2)⟩
  · exact .inl (hal.kept va hva hin)

theorem Inv.unmaps {S : ℕ → Prop} (hun : Unmaps c.mem m' c.proc.pgdir S)
    (hpos : 0 < k) (hlt : k < 0x80000000) : Inv heap (c.setSz m' k) := by
  refine h.of_pte hun.keeps.wf (fun va hva => ?_) hpos hlt h.allocator _
  by_cases hin : va < 0x80000000 ∧ S (pgrounddown va) ∧ Present c.mem c.proc.pgdir va
  · exact .inr ⟨hin.1, .inl (hun.unmapped va hin.1 hin.2.1 hin.2.2)⟩
  · exact .inl (hun.kept va hva hin)

theorem Inv.sameView (hwf : WF m' c.proc.pgdir)
    (hv : SameView c.mem m' c.proc.pgdir) {t : ℤ} (ht : t = 0 ∨ t = 1) (b : Bool) :
    Inv heap ⟨m', { c.proc with killed := b, pageAllocatorType := t }⟩ :=
  h.of_pte hwf (fun va _ => .inl (hv.pteOf va)) h.sz_pos h.sz_lt ht b

theorem SbrkEnds.inv {r : ℤ} (he : SbrkEnds c n (.ok (r, c'))) : Inv heap c' := by
  cases he with
  | same hn => exact h
  | refused hn hbig => exact h
  | reserved hn hk hlt ht =>
    have hpos := h.sz_pos
    exact h.allocs (.refl h.wf) (by omega) hlt
  | allocated hn hk hlt ht hal hrange hall =>
    have hpos := h.sz_pos
    exact h.allocs hal (by omega) hlt
  | failed hn hk hlt ht hal hrange hun hf =>
    exact (h.allocs hal h.sz_pos h.sz_lt).unmaps hun h.sz_pos h.sz_lt
  | shrunk hn hk hpos hun =>
    have hlt := h.sz_lt
    exact h.unmaps hun hpos (by omega)
  | emptied hn hk hun => exact h.unmaps hun h.sz_pos h.sz_lt
  | wrapped hk => exact h

theorem FaultEnds.inv (he : FaultEnds c va (.ok c')) : Inv heap c' := by
  cases he with
  | killed hk => exact h.sameView hk.keeps.wf hk.view h.allocator true
  | mapped hm => exact h.allocs hm.allocs h.sz_pos h.sz_lt

/-! ### Accesses -/

theorem Inv.userOk_iff (hv : va < 2 ^ 32) (write : Bool) : UserOk c.mem c.proc.pgdir va write ↔
      va < 0x80000000 ∧ pteFlags (pteOf c.mem c.proc.pgdir va) = 7 := by
  constructor
  · rintro ⟨-, -, -, hp, hu, -⟩
    by_cases hlt : va < 0x80000000
    · refine ⟨hlt, (h.flags va hlt hp).resolve_right fun h3 => hu ?_⟩
      rw [and_flags _ (by decide), h3.1]
      decide
    · rw [h.kernel va (Nat.le_of_not_lt hlt) hv] at hu
      exact absurd (kernelPte_and_pteU va) hu
  · rintro ⟨hlt, h7⟩
    have hp : Present c.mem c.proc.pgdir va := by
      rw [Present, and_flags _ (by decide), h7]
      decide
    have hpde := h.wf.pdeFlags (pdx_lt va) hp.hasTable
    refine ⟨hp.hasTable, ?_, fun _ => ?_, hp, ?_, fun _ => ?_⟩ <;>
    · rw [and_flags _ (by decide)]
      first | rw [hpde] | rw [h7]
      decide

end

/-- How a user access can end. -/
inductive AccessEnds (c : Ctx) (va : ℕ) (write : Bool) : Except Panic (Option ℕ × Ctx) → Prop
  | hit : UserOk c.mem c.proc.pgdir va write →
      AccessEnds c va write (.ok (some (physAddr c.mem c.proc.pgdir va), c))
  /-- The page is there but not for the user, and the handler panics. -/
  | remap : ¬ UserOk c.mem c.proc.pgdir va write → FaultEnds c va (.error .remap) →
      AccessEnds c va write (.error .remap)
  | killed {m' : PhysMem} : ¬ UserOk c.mem c.proc.pgdir va write → FaultKills c va m' →
      AccessEnds c va write (.ok (none, c.kill m'))
  | mapped {m' : PhysMem} : ¬ UserOk c.mem c.proc.pgdir va write → FaultMaps c va m' →
      AccessEnds c va write (.ok (some (physAddr m' c.proc.pgdir va), { c with mem := m' }))

theorem FaultMaps.lt (h : FaultMaps c va m') (hsz : c.proc.sz < 0x80000000) : va < 0x80000000 := by
  have h1 := lt_pgrounddown_add va
  have h2 := pgrounddown_mod va
  have h3 := h.below
  omega

theorem FaultMaps.userOk (hm : FaultMaps c va m') (h : Inv heap c) (hv : va < 2 ^ 32)
    (write : Bool) : UserOk m' c.proc.pgdir va write :=
  ((FaultEnds.mapped hm).inv h |>.userOk_iff hv write).mpr
    ⟨hm.lt h.sz_lt, hm.allocs.flags va (hm.lt h.sz_lt) rfl⟩

/-- The handler leaves the page accessible when it maps it, and only then. -/
theorem access_ends (h : Inv heap c) (hv : va < 2 ^ 32) (write : Bool) :
    AccessEnds c va write (access c va write) := by
  rw [access]
  by_cases hok : UserOk c.mem c.proc.pgdir va write
  · rw [if_pos hok]
    exact .hit hok
  · rw [if_neg hok]
    have hends := pgflt_ends h va
    generalize pgflt c va = res at hends
    cases hends with
    | remap ht hlt hpres hcan => exact .remap hok (.remap ht hlt hpres hcan)
    | @killed m' hk =>
      have hnot : ¬ UserOk m' c.proc.pgdir va write := by
        simpa only [UserOk, hk.view.hasTable (pdx_lt va), hk.view.pde _ (pdx_lt va),
          hk.view.present, hk.view.pteOf] using hok
      simp only
      rw [if_neg (by exact hnot)]
      exact .killed hok hk
    | @mapped m' hm =>
      simp only
      rw [if_pos (by exact hm.userOk h hv write)]
      exact .mapped hok hm

variable {write : Bool}

theorem AccessEnds.inv {r : Option ℕ} (h : Inv heap c)
    (he : AccessEnds c va write (.ok (r, c'))) : Inv heap c' := by
  cases he with
  | hit hok => exact h
  | killed hok hk => exact FaultEnds.inv h (.killed hk)
  | mapped hok hm => exact FaultEnds.inv h (.mapped hm)

theorem pgrounddown_physAddr (m : PhysMem) (d va : ℕ) :
    pgrounddown (physAddr m d va) = pageOf m d va := by
  refine (pgrounddown_eq_iff (pageOf_mod m d va)).mpr ?_
  simp only [physAddr]
  omega

/-- A page that user code can reach lies in a user frame, so writing it changes no mapping. -/
theorem Inv.setByte (h : Inv heap c) (hv : va < 2 ^ 32)
    (hok : UserOk c.mem c.proc.pgdir va write) (v : UInt8) :
    SameView c.mem (c.mem.setByte (physAddr c.mem c.proc.pgdir va) v) c.proc.pgdir ∧
      Inv heap { c with mem := c.mem.setByte (physAddr c.mem c.proc.pgdir va) v } ∧
      Keeps c.mem (c.mem.setByte (physAddr c.mem c.proc.pgdir va) v) c.proc.pgdir := by
  obtain ⟨hlt, -⟩ := (h.userOk_iff hv write).mp hok
  obtain ⟨-, -, -, hp, -⟩ := hok
  have hbyte : ∀ x, pgrounddown x ≠ pageOf c.mem c.proc.pgdir va →
      (c.mem.setByte (physAddr c.mem c.proc.pgdir va) v).byte x = c.mem.byte x := by
    intro x hx
    refine Function.update_of_ne ?_ _ _
    rintro rfl
    exact hx (pgrounddown_physAddr _ _ _)
  have hview : SameView c.mem (c.mem.setByte (physAddr c.mem c.proc.pgdir va) v) c.proc.pgdir := by
    refine .of_byte h.wf.dir_mod (fun x hx => hbyte x ?_) fun i x hi ht hx => hbyte x ?_
    · rw [hx]; exact (h.wf.pageOf_ne_dir hlt hp).symm
    · rw [hx]; exact (h.wf.pageOf_ne_pgtab hlt hp hi ht).symm
  have hwf := h.wf.of_sameView hview ⟨h.wf.free.nodup, h.wf.free.isFrame, h.wf.free.cnt⟩
    fun _ hf => hf
  refine ⟨hview, h.sameView hwf hview h.allocator _, hwf, ?_⟩
  rw [hview.owned]
  exact .write h.wf.owns rfl fun x hx => hbyte x fun he => hx (he ▸ pageOf_mem_owned hlt hp)

theorem AccessEnds.userOk {pa : ℕ} (h : Inv heap c) (hv : va < 2 ^ 32)
    (he : AccessEnds c va write (.ok (some pa, c'))) :
    UserOk c'.mem c'.proc.pgdir va write ∧ pa = physAddr c'.mem c'.proc.pgdir va := by
  cases he with
  | hit hok => exact ⟨hok, rfl⟩
  | mapped hok hm => exact ⟨hm.userOk h hv write, rfl⟩

/-! ### Runs -/

/-- What an operation can do to the process and its memory. -/
inductive StepEnds (c : Ctx) : Ctx → Prop
  | same : StepEnds c c
  | switched {t : ℤ} : t = 0 ∨ t = 1 →
      StepEnds c { c with proc := { c.proc with pageAllocatorType := t } }
  | sbrk {n r : ℤ} {c' : Ctx} : SbrkEnds c n (.ok (r, c')) → StepEnds c c'
  | access {va : ℕ} {write : Bool} {r : Option ℕ} {c' : Ctx} :
      AccessEnds c va write (.ok (r, c')) → StepEnds c c'
  | stored {va pa : ℕ} {c' : Ctx} {v : UInt8} : va < 2 ^ 32 →
      AccessEnds c va true (.ok (some pa, c')) →
      StepEnds c { c' with mem := c'.mem.setByte pa v }

section

variable (h : Inv heap c)

include h

theorem step_ends (hs : step c op = .ok (o, c')) : StepEnds c c' := by
  cases op with
  | setPageAllocator a =>
    simp only [step, sysSetPageAllocator] at hs
    by_cases ha : a.1 ≠ 0 ∧ a.1 ≠ 1
    · rw [if_pos ha] at hs
      cases hs
      exact .same
    · rw [if_neg ha] at hs
      cases hs
      exact .switched (by tauto)
  | sbrk n =>
    have he := sysSbrk_ends h n
    simp only [step] at hs
    cases hr : sysSbrk c n with
    | error e => rw [hr] at hs; cases hs
    | ok rc =>
      rw [hr] at hs he
      cases hs
      exact .sbrk he
  | load va =>
    have he := access_ends h va.2 false
    simp only [step] at hs
    cases hr : access c va false with
    | error e => rw [hr] at hs; cases hs
    | ok rc =>
      obtain ⟨r, c₁⟩ := rc
      rw [hr] at hs he
      cases r with
      | none => cases hs; exact .access he
      | some pa => cases hs; exact .access he
  | store va v =>
    have he := access_ends h va.2 true
    simp only [step] at hs
    cases hr : access c va true with
    | error e => rw [hr] at hs; cases hs
    | ok rc =>
      obtain ⟨r, c₁⟩ := rc
      rw [hr] at hs he
      cases r with
      | none => cases hs; exact .access he
      | some pa => cases hs; exact .stored va.2 he

theorem Inv.step (hs : Xv6.step c op = .ok (o, c')) : Inv heap c' := by
  cases step_ends h hs with
  | same => exact h
  | switched ht => exact h.sameView h.wf (.refl _ _) ht _
  | sbrk he => exact he.inv h
  | access he => exact he.inv h
  | stored hv he =>
    obtain ⟨hok, rfl⟩ := he.userOk h hv
    exact ((he.inv h).setByte hv hok _).2.1

theorem SbrkEnds.keeps {r : ℤ} (he : SbrkEnds c n (.ok (r, c'))) :
    Keeps c.mem c'.mem c.proc.pgdir ∧ c'.proc.pgdir = c.proc.pgdir := by
  cases he with
  | same hn => exact ⟨.refl h.wf, rfl⟩
  | refused hn hbig => exact ⟨.refl h.wf, rfl⟩
  | reserved hn hk hlt ht => exact ⟨.refl h.wf, rfl⟩
  | allocated hn hk hlt ht hal hrange hall => exact ⟨hal.keeps, rfl⟩
  | failed hn hk hlt ht hal hrange hun hf => exact ⟨hal.keeps.trans hun.keeps, rfl⟩
  | shrunk hn hk hpos hun => exact ⟨hun.keeps, rfl⟩
  | emptied hn hk hun => exact ⟨hun.keeps, rfl⟩
  | wrapped hk => exact ⟨.refl h.wf, rfl⟩

theorem AccessEnds.keeps {r : Option ℕ} (he : AccessEnds c va write (.ok (r, c'))) :
    Keeps c.mem c'.mem c.proc.pgdir ∧ c'.proc.pgdir = c.proc.pgdir := by
  cases he with
  | hit hok => exact ⟨.refl h.wf, rfl⟩
  | killed hok hk => exact ⟨hk.keeps, rfl⟩
  | mapped hok hm => exact ⟨hm.allocs.keeps, rfl⟩

theorem Inv.step_keeps (hs : Xv6.step c op = .ok (o, c')) :
    Keeps c.mem c'.mem c.proc.pgdir ∧ c'.proc.pgdir = c.proc.pgdir := by
  cases step_ends h hs with
  | same => exact ⟨.refl h.wf, rfl⟩
  | switched ht => exact ⟨.refl h.wf, rfl⟩
  | sbrk he => exact he.keeps h
  | access he => exact he.keeps h
  | @stored _ _ c₁ v hv he =>
    obtain ⟨hok, rfl⟩ := he.userOk h hv
    obtain ⟨hkeeps, hdir⟩ := he.keeps h
    have hset := ((he.inv h).setByte hv hok v).2.2
    rw [hdir] at hset ⊢
    exact ⟨hkeeps.trans hset, rfl⟩

end

variable {ops : List Op} {os : List Obs}

theorem run_cons (h : run (op :: ops) c = .ok (os, c')) :
    (c.proc.killed = true ∧ os = [] ∧ c' = c) ∨
      (c.proc.killed = false ∧ ∃ o c₁ os₁, step c op = .ok (o, c₁) ∧ run ops c₁ = .ok (os₁, c') ∧
        os = o :: os₁) := by
  rw [run] at h
  by_cases hk : c.proc.killed = true
  · rw [if_pos hk] at h
    cases h
    exact .inl ⟨hk, rfl, rfl⟩
  · rw [if_neg hk] at h
    refine .inr ⟨by simpa using hk, ?_⟩
    cases hs : step c op with
    | error e => rw [hs] at h; cases h
    | ok oc =>
      obtain ⟨o, c₁⟩ := oc
      simp only [hs] at h
      cases hr : run ops c₁ with
      | error e => rw [hr] at h; cases h
      | ok osc =>
        obtain ⟨os₁, c₂⟩ := osc
        rw [hr] at h
        cases h
        exact ⟨o, c₁, os₁, rfl, hr, rfl⟩

/-- **A property that every operation keeps holds after every run.** -/
theorem run_induct {P : Ctx → Prop}
    (hstep : ∀ c op o c', P c → c.proc.killed = false → step c op = .ok (o, c') → P c')
    (ops : List Op) : ∀ {c c' : Ctx} {os : List Obs}, P c → run ops c = .ok (os, c') → P c' := by
  induction ops with
  | nil =>
    intro c c' os h hr
    cases hr
    exact h
  | cons op ops ih =>
    intro c c' os h hr
    obtain ⟨-, -, rfl⟩ | ⟨hk, o, c₁, os₁, hs, hr', -⟩ := run_cons hr
    · exact h
    · exact ih (hstep c op o c₁ h hk hs) hr'

theorem Inv.run (h : Inv heap c) (hr : run ops c = .ok (os, c')) : Inv heap c' :=
  run_induct (fun _ _ _ _ h _ hs => h.step hs) ops h hr

theorem Inv.run_keeps (h : Inv heap c) (hr : Xv6.run ops c = .ok (os, c')) :
    Keeps c.mem c'.mem c.proc.pgdir ∧ c'.proc.pgdir = c.proc.pgdir := by
  let P : Ctx → Prop := fun c₁ =>
    Inv heap c₁ ∧ Keeps c.mem c₁.mem c.proc.pgdir ∧ c₁.proc.pgdir = c.proc.pgdir
  have hall : P c' := by
    refine run_induct (fun c₁ op o c₂ hP _ hs => ?_) ops ⟨h, .refl h.wf, rfl⟩ hr
    obtain ⟨hinv, hkeeps, hdir⟩ := hP
    obtain ⟨hkeeps', hdir'⟩ := hinv.step_keeps hs
    rw [hdir] at hkeeps' hdir'
    exact ⟨hinv.step hs, hkeeps.trans hkeeps', hdir'⟩
  exact hall.2

/-- **The invariant holds in every state a process reaches.** -/
theorem reachable_inv (h : Reachable c) : ∃ heap, Inv heap c := by
  obtain ⟨heap, img, ops, os, himg, hr⟩ := h
  exact ⟨heap, himg.toInv.run hr⟩

theorem run_append {ops₁ ops₂ : List Op} :
    ∀ {c c₁ c₂ : Ctx} {os₁ os₂ : List Obs}, run ops₁ c = .ok (os₁, c₁) →
      run ops₂ c₁ = .ok (os₂, c₂) → run (ops₁ ++ ops₂) c = .ok (os₁ ++ os₂, c₂) := by
  induction ops₁ with
  | nil =>
    intro c c₁ c₂ os₁ os₂ h₁ h₂
    cases h₁
    exact h₂
  | cons op ops ih =>
    intro c c₁ c₂ os₁ os₂ h₁ h₂
    obtain ⟨hk, rfl, rfl⟩ | ⟨hk, o, c', os, hs, hr, rfl⟩ := run_cons h₁
    · cases ops₂ with
      | nil => rw [List.append_nil, h₁]; cases h₂; rfl
      | cons op₂ ops₂ =>
        obtain ⟨-, rfl, rfl⟩ | ⟨hk', -⟩ := run_cons h₂
        · rw [List.cons_append, run, if_pos hk]; rfl
        · rw [hk] at hk'; cases hk'
    · have hnot : ¬ c.proc.killed = true := by rw [hk]; decide
      rw [List.cons_append, run, if_neg hnot, hs]
      simp only [ih hr h₂]
      rfl

theorem Reachable.run (h : Reachable c) (hr : Xv6.run ops c = .ok (os, c')) : Reachable c' := by
  obtain ⟨heap, img, ops₀, os₀, himg, hr₀⟩ := h
  exact ⟨heap, img, ops₀ ++ ops, os₀ ++ os, himg, run_append hr₀ hr⟩

/-! ### The smallest image

The process `exec` makes of a program with one page: the page, the guard page, the stack page, and
the kernel's mappings. It is what concrete runs start from. -/

namespace Tiny

/-- The directory: one table for the program, 56 for the direct map, 8 for the devices. -/
def dirEntry (i : ℕ) : ℕ :=
  if i = 0 then 0x201007
  else if 512 ≤ i ∧ i < 568 then 0x202007 + 4096 * (i - 512)
  else if 1016 ≤ i then 0x23A007 + 4096 * (i - 1016)
  else 0

/-- The program's table. -/
def userEntry (i : ℕ) : ℕ :=
  if i = 0 then 0x242007 else if i = 1 then 0x243003 else if i = 2 then 0x244007 else 0

/-- The words of memory. -/
def word (a : ℕ) : ℕ :=
  if a < 0x200000 then 0
  else if a < 0x201000 then dirEntry ((a - 0x200000) / 4)
  else if a < 0x202000 then userEntry ((a - 0x201000) / 4)
  else if a < 0x23A000 then kernelPte (0x80000000 + (a - 0x202000) / 4 * 4096)
  else if a < 0x242000 then kernelPte (0xFE000000 + (a - 0x23A000) / 4 * 4096)
  else 0

/-- The memory, with the given pages free. -/
def mem (free : List ℕ) : PhysMem := ⟨ofWords word, free, free.length, [], 0⟩

/-- The process. -/
def image (free : List ℕ) : Ctx :=
  ⟨mem free, ⟨0x3000, 0x200000, 0, 0x245000, .running, 3, 0, some 0, false, fun _ => none⟩⟩

/-- The process after it asked for the lazy allocator and then for `n` bytes. -/
def lazyImage (free : List ℕ) (n : ℕ) : Ctx :=
  ⟨mem free, { (image free).proc with sz := 0x3000 + n, pageAllocatorType := 1 }⟩

variable {free : List ℕ}

theorem pde_eq (hi : i < 1024) : pde (mem free) 0x200000 i = dirEntry i := by
  have hw : word (0x200000 + 4 * i) = dirEntry i := by
    rw [word, if_neg (by omega), if_pos (by omega),
      show (0x200000 + 4 * i - 0x200000) / 4 = i by omega]
  refine (load32_ofWords (by omega) ?_).trans hw
  rw [hw, dirEntry]
  split_ifs <;> omega

theorem hasTable_iff (hi : i < 1024) :
    HasTable (mem free) 0x200000 i ↔ i = 0 ∨ (512 ≤ i ∧ i < 568) ∨ 1016 ≤ i := by
  rw [HasTable, pde_eq hi, Nat.and_one_is_mod, dirEntry]
  split_ifs <;> omega

theorem pgtab_eq (hi : i < 1024) (ht : HasTable (mem free) 0x200000 i) :
    pgtab (mem free) 0x200000 i = if i = 0 then 0x201000
      else if i < 568 then 0x202000 + 4096 * (i - 512) else 0x23A000 + 4096 * (i - 1016) := by
  have hcase := (hasTable_iff hi).mp ht
  rw [pgtab, pde_eq hi, dirEntry, pteAddr]
  split_ifs <;> omega

theorem pteOf_eq (hv : va < 2 ^ 32) : pteOf (mem free) 0x200000 va =
    if va < 0x400000 then userEntry (va / 4096) else kernelPte va := by
  have hpd := pdx_lt va
  have hpt := ptx_lt va
  have hzero : kernelPte va = 0 ∨ (512 ≤ pdx va ∧ pdx va < 568) ∨ 1016 ≤ pdx va := by
    rw [kernelPte]
    simp only [pdx, npdentries, kernbase, kernlink, extmem, dataPhys, phystop, devspace]
    split_ifs <;> omega
  have hload : ∀ {a w : ℕ}, a % 4 = 0 → word a = w → w < 2 ^ 32 → (mem free).load a = w := by
    intro a w ha hw hlt
    exact (load32_ofWords ha (hw ▸ hlt)).trans hw
  by_cases ht : HasTable (mem free) 0x200000 (pdx va)
  · rw [pteOf_of_hasTable ht, pgtab_eq hpd ht]
    have hcase := (hasTable_iff hpd).mp ht
    by_cases h0 : pdx va = 0
    · have hlt : va < 0x400000 := by simp only [pdx, npdentries] at h0; omega
      have hidx : ptx va = va / 4096 := by simp only [ptx, pgsize, nptentries]; omega
      rw [if_pos h0, if_pos hlt, hidx]
      refine hload (by omega) ?_ (by rw [userEntry]; split_ifs <;> decide)
      rw [word, if_neg (by omega), if_neg (by omega), if_pos (by omega),
        show (0x201000 + 4 * (va / 4096) - 0x201000) / 4 = va / 4096 by omega]
    · have hge : ¬ va < 0x400000 := by simp only [pdx, npdentries] at h0; omega
      rw [if_neg h0, if_neg hge]
      rw [← kernelPte_pgrounddown va]
      have hlt : kernelPte (pgrounddown va) < 2 ^ 32 := by
        rw [kernelPte_pgrounddown]; exact kernelPte_lt hv
      by_cases hlow : pdx va < 568
      · rw [if_pos hlow]
        refine hload (by omega) ?_ hlt
        rw [word, if_neg (by omega), if_neg (by omega), if_neg (by omega), if_pos (by omega)]
        congr 1
        simp only [pdx, ptx, pgsize, npdentries, nptentries, pgrounddown] at hcase h0 hlow ⊢
        omega
      · rw [if_neg hlow]
        refine hload (by omega) ?_ hlt
        rw [word, if_neg (by omega), if_neg (by omega), if_neg (by omega), if_neg (by omega),
          if_pos (by omega)]
        congr 1
        simp only [pdx, ptx, pgsize, npdentries, nptentries, pgrounddown] at hcase h0 hlow ⊢
        omega
  · rw [pteOf_of_not_hasTable ht]
    have hcase := mt (hasTable_iff hpd).mpr ht
    have hge : ¬ va < 0x400000 := by simp only [pdx, npdentries] at hcase; omega
    rw [if_neg hge]
    omega

theorem image_full (hv : va < 0x3000) : Present (mem free) 0x200000 va := by
  have hcase : va / 4096 = 0 ∨ va / 4096 = 1 ∨ va / 4096 = 2 := by omega
  rw [Present, pteOf_eq (by omega), if_pos (by omega)]
  rcases hcase with h | h | h <;> rw [h] <;> decide

/-- **It is an image**, whatever pages are free. -/
theorem image_isImage (hnd : free.Nodup) (hfree : ∀ f ∈ free, IsFrame f ∧ 0x246000 ≤ f) :
    Image 0x3000 (image free) := by
  have hpresent : ∀ va, va < 0x80000000 → Present (mem free) 0x200000 va → va < 0x3000 := by
    intro va hv hp
    by_contra hge
    have hz : pteOf (mem free) 0x200000 va = 0 := by
      rw [pteOf_eq (by omega), kernelPte, if_pos (show va < kernbase from hv), userEntry]
      split_ifs <;> omega
    rw [Present, hz] at hp
    exact hp rfl
  have hpage : ∀ va, va < 0x3000 → pageOf (mem free) 0x200000 va = 0x242000 + va / 4096 * 4096 := by
    intro va hv
    rw [pageOf, pteOf_eq (by omega), if_pos (by omega), userEntry, pteAddr]
    split_ifs <;> omega
  -- every frame in use determines its role
  have hrole : ∀ f r, Holds (mem free) 0x200000 f r → f % 4096 = 0 ∧ 0x200000 ≤ f ∧ f < 0x245000 ∧
      r = if f = 0x200000 then .dir else if f = 0x201000 then .table 0
        else if f < 0x23A000 then .table ((f - 0x202000) / 4096 + 512)
        else if f < 0x242000 then .table ((f - 0x23A000) / 4096 + 1016)
        else .user (f - 0x242000) := by
    intro f r hf
    cases hf with
    | dir => simp
    | @table i hi ht =>
      have hcase := (hasTable_iff hi).mp ht
      rw [pgtab_eq hi ht]
      by_cases h0 : i = 0
      · simp [h0]
      · rw [if_neg h0]
        by_cases hlow : i < 568
        · rw [if_pos hlow, if_neg (by omega), if_neg (by omega), if_pos (by omega)]
          exact ⟨by omega, by omega, by omega, by congr 1; omega⟩
        · rw [if_neg hlow, if_neg (by omega), if_neg (by omega), if_neg (by omega),
            if_pos (by omega)]
          exact ⟨by omega, by omega, by omega, by congr 1; omega⟩
    | @user va ha hv hp =>
      have hlt := hpresent va hv hp
      have hr : va = 0x242000 + va / 4096 * 4096 - 0x242000 := by omega
      rw [hpage va hlt, if_neg (by omega), if_neg (by omega), if_neg (by omega), if_neg (by omega)]
      exact ⟨by omega, by omega, by omega, congrArg Role.user hr⟩
  refine ⟨⟨⟨⟨hnd, fun f hf => (hfree f hf).1, rfl⟩, fun {f r} hf => ?_, fun {f r r'} hf hf' => ?_,
    fun {f r} hf hin => ?_, fun {i} hi ht => ?_⟩, show 0 < 0x3000 by decide,
    show 0x3000 < 0x80000000 by decide, fun va hv hp => ?_, fun va hle hlt => ?_, rfl, .inl rfl⟩,
    rfl, fun va hv hp => ?_⟩
  · obtain ⟨h0, h1, h2, -⟩ := hrole f r hf
    exact ⟨h0, Nat.le_trans (by decide) h1, Nat.lt_trans h2 (by decide)⟩
  · exact (hrole f r hf).2.2.2.trans (hrole f r' hf').2.2.2.symm
  · have h1 := (hrole f r hf).2.2.1
    have h2 := (hfree f hin).2
    omega
  · have hcase := (hasTable_iff hi).mp ht
    change pteFlags (pde (mem free) 0x200000 i) = 7
    rw [pde_eq hi, dirEntry, pteFlags]
    split_ifs <;> omega
  · have hlt := hpresent va hv hp
    change pteFlags (pteOf (mem free) 0x200000 va) = 7 ∨
      (pteFlags (pteOf (mem free) 0x200000 va) = 3 ∧ va < 0x3000)
    rw [pteOf_eq (by omega), if_pos (by omega), userEntry, pteFlags]
    split_ifs <;> omega
  · change pteOf (mem free) 0x200000 va = kernelPte va
    rw [pteOf_eq hlt, if_neg (by omega)]
  · change va < pgroundup 0x3000
    rw [pgroundup_of_mod (by decide) (by decide)]
    exact hpresent va hv hp

theorem image_reachable (hnd : free.Nodup) (hfree : ∀ f ∈ free, IsFrame f ∧ 0x246000 ≤ f) :
    Reachable (image free) :=
  ⟨_, _, [], [], image_isImage hnd hfree, rfl⟩

theorem lazyImage_run (free : List ℕ) (n : CInt) (hn : 0 < n.1) (hlt : n.1 < 0x7FFFD000) :
    run [.setPageAllocator ⟨1, by decide⟩, .sbrk n] (image free) =
      .ok ([.ret 0, .ret 0x3000], lazyImage free n.1.toNat) := by
  have hset : sysSetPageAllocator (image free) ⟨1, by decide⟩ = (0, lazyImage free 0) := rfl
  have hsbrk : sysSbrk (lazyImage free 0) n = .ok (0x3000, lazyImage free n.1.toNat) :=
    sysSbrk_lazy rfl hn (k := 0x3000 + n.1.toNat)
      (by change _ = (0x3000 : ℤ) + n.1; push_cast; omega) (by omega)
  simp only [run, step, hset, hsbrk]
  rfl

theorem lazyImage_reachable (hnd : free.Nodup) (hfree : ∀ f ∈ free, IsFrame f ∧ 0x246000 ≤ f)
    (n : CInt) (hn : 0 < n.1) (hlt : n.1 < 0x7FFFD000) : Reachable (lazyImage free n.1.toNat) :=
  ⟨_, _, _, _, image_isImage hnd hfree, lazyImage_run free n hn hlt⟩

end Tiny

end Xv6
