import Xv6.File.Read

/-!
# Loading a program

`loaduvm` and `clearpteu` from `vm.c`, which `exec` calls to fill the pages of a new address space
and to take the page below the stack from the user.

`loaduvm` writes through the kernel's own mapping of physical memory, at the frame the entry of each
page names. It does not look whether the entry is present. A clear entry names the page at address
0, so what is read then goes there. Nor does it look whether the address is one of the user's: at
an address of the kernel's part it writes where that is mapped, be it a page table.

## Main results

* `loaduvm_loads` — a segment below `KERNBASE` is written to user pages and to page 0 only
* `clearpteu_clears` — one entry loses its `PTE_U`
-/

namespace Xv6

open ByteMemory PhysMem

/-- The kernel address of a physical address. -/
def p2v (pa : ℕ) : ℕ := u32 (pa + kernbase)

/-- The physical address of a kernel address. -/
def v2p (a : ℕ) : ℕ := u32 (a + 4294967296 - kernbase)

/-- Stores at addresses of the kernel's mapping of physical memory. -/
def PhysMem.storeAll (m : PhysMem) (stores : List (ℕ × UInt8)) : PhysMem :=
  { m with byte := writeAll m.byte (stores.map fun s => (v2p s.1, s.2)) }

/-- The loop of `loaduvm`, at the page `i` of the segment. Where `ip` is the console, reading takes
from `input`, and a read that sleeps for more does not return. -/
def loaduvmLoop (ip : Inode) (killed : Bool) : ℕ → PhysMem → List UInt8 →
    (pgdir addr offset sz i : ℕ) → Except Panic (ℤ × PhysMem × List UInt8)
  | 0, _, _, _, _, _, _, _ => .error .diverges
  | k + 1, m, input, pgdir, addr, offset, sz, i =>
    if i < sz then
      match walkpgdir m pgdir (u32 (addr + i)) false with
      | (none, _) => .error .loaduvmExist
      | (some pte, m) =>
        let pa := pteAddr (m.load pte)
        let n := if sz - i < pgsize then sz - i else pgsize
        let (t, input) := readi ip killed input (p2v pa) (u32 (offset + i)) n
        let m := m.storeAll t.stores
        match t.ret with
        | none => .error .diverges
        | some r =>
          if u32i r ≠ n then .ok (-1, m, input)
          else loaduvmLoop ip killed k m input pgdir addr offset sz (u32 (i + pgsize))
    else .ok (0, m, input)

/-- Load a program segment into `pgdir`. `addr` must be page-aligned and the pages from `addr` to
`addr + sz` must already be mapped. -/
def loaduvm (m : PhysMem) (killed : Bool) (input : List UInt8) (pgdir addr : ℕ) (ip : Inode)
    (offset sz : ℕ) : Except Panic (ℤ × PhysMem × List UInt8) :=
  if addr % pgsize ≠ 0 then .error .loaduvmAlign
  else loaduvmLoop ip killed (npages + 1) m input pgdir addr offset sz 0

/-- Clear `PTE_U` on a page. Used to create an inaccessible page beneath the user stack. -/
def clearpteu (m : PhysMem) (pgdir uva : ℕ) : Except Panic PhysMem :=
  match walkpgdir m pgdir uva false with
  | (none, _) => .error .clearpteu
  | (some pte, m) => .ok (m.store pte (m.load pte &&& (4294967295 - pteU)))

variable {m m' m'' : PhysMem} {d va f : ℕ}

/-- Entries of user pages that are not present are zero. -/
def Clear (m : PhysMem) (d : ℕ) : Prop :=
  ∀ va, va < 0x80000000 → ¬ Present m d va → pteOf m d va = 0

theorem SameView.clear (hv : SameView m m' d) (h : Clear m d) : Clear m' d := by
  intro va hlt hp
  rw [hv.pteOf]
  exact h va hlt (mt hv.present.mpr hp)

/-! ### `loaduvm` -/

/-- What a memory looks like after bytes of the user pages of `d` were overwritten, and perhaps
bytes of the page at address 0. -/
structure Loads (m m' : PhysMem) (d : ℕ) : Prop where
  rest : m' = { m with byte := m'.byte }
  byte : ∀ x, pgrounddown x ≠ 0 →
    (∀ va, va < 0x80000000 → Present m d va → pgrounddown x ≠ pageOf m d va) →
    m'.byte x = m.byte x

theorem Loads.refl (m : PhysMem) (d : ℕ) : Loads m m d := ⟨rfl, fun _ _ _ => rfl⟩

section

variable (h : Loads m m' d)

include h

theorem Loads.view (hwf : WF m d) : SameView m m' d := by
  refine .of_byte hwf.dir_mod (fun x hx => h.byte x ?_ fun va hv hp => ?_)
    fun i x hi ht hx => h.byte x ?_ fun va hv hp => ?_
  · rw [hx]
    exact (hwf.isFrame .dir).pos.ne'
  · rw [hx]
    exact (hwf.pageOf_ne_dir hv hp).symm
  · rw [hx]
    exact (hwf.isFrame (.table hi ht)).pos.ne'
  · rw [hx]
    exact (hwf.pageOf_ne_pgtab hv hp hi ht).symm

theorem Loads.freelist : m'.freelist = m.freelist := by
  rw [h.rest]

theorem Loads.wf (hwf : WF m d) : WF m' d := by
  have hfree : FreeOk m' := by
    rw [h.rest]
    exact ⟨hwf.free.nodup, hwf.free.isFrame, hwf.free.cnt⟩
  exact hwf.of_sameView (h.view hwf) hfree fun f hf => h.freelist ▸ hf

theorem Loads.trans (h' : Loads m' m'' d) (hwf : WF m d) : Loads m m'' d := by
  have hview := h.view hwf
  refine ⟨by rw [h'.rest, h.rest], fun x h0 hx => ?_⟩
  rw [h'.byte x h0 fun va hv hp => ?_, h.byte x h0 hx]
  rw [hview.pageOf]
  exact hx va hv (hview.present.mp hp)

end

theorem readi_addr (ip : Inode) (killed : Bool) (input : List UInt8) {dst off n : ℕ}
    (hn : n ≤ 4096) (hdst : dst + n < 2 ^ 32) :
    ∀ s ∈ (readi ip killed input dst off n).1.stores, dst ≤ s.1 ∧ s.1 < dst + n := by
  intro s hs
  rw [readi] at hs
  by_cases hdev : ip.type = .dev
  · rw [if_pos hdev] at hs
    by_cases hmaj : ip.major = console
    · have hint : toInt n = n := if_pos (by omega)
      rw [if_pos hmaj, hint] at hs
      exact consolereadLoop_addr killed n input hdst s hs
    · rw [if_neg hmaj] at hs
      cases hs
  · rw [if_neg hdev] at hs
    by_cases hoff : off > ip.size ∨ u32 (off + n) < off
    · rw [if_pos hoff] at hs
      cases hs
    · rw [if_neg hoff] at hs
      simp only [readiLoop_eq, List.mem_map, List.mem_range] at hs
      obtain ⟨i, hi, rfl⟩ := hs
      have hlt : i < n := by
        have := hoff
        split_ifs at hi <;> simp only [u32] at * <;> omega
      simp only [u32]
      omega

theorem readi_loads (hwf : WF m d) (hclear : Clear m d) (hva : va < 0x80000000) (ip : Inode)
    (killed : Bool) (input : List UInt8) {n : ℕ} (hn : n ≤ 4096) (off : ℕ) :
    Loads m (m.storeAll (readi ip killed input (p2v (pageOf m d va)) off n).1.stores) d := by
  have hmod := pageOf_mod m d va
  have hpa : pageOf m d va < 0xE000000 := by
    by_cases hp : Present m d va
    · exact (hwf.isFrame (.user' hva hp)).lt
    · rw [pageOf, hclear va hva hp]
      decide
  have hdst : p2v (pageOf m d va) = pageOf m d va + 0x80000000 := by
    simp only [p2v, u32, kernbase]
    omega
  refine ⟨rfl, fun x h0 hx => writeAll_of_notMem fun s hs he => ?_⟩
  obtain ⟨t, ht, rfl⟩ := List.mem_map.mp hs
  have hin := readi_addr ip killed input hn (by rw [hdst]; omega) t ht
  rw [hdst] at hin
  have hpage : pgrounddown x = pageOf m d va := by
    refine (pgrounddown_eq_iff hmod).mpr ?_
    simp only [v2p, u32, kernbase] at he
    omega
  by_cases hp : Present m d va
  · exact hx va hva hp hpage
  · rw [hpage, pageOf, hclear va hva hp] at h0
    exact h0 rfl

theorem loaduvmLoop_loads (ip : Inode) (killed : Bool) {addr offset sz : ℕ}
    (hle : addr + sz ≤ 0x80000000) (k : ℕ) :
    ∀ {m : PhysMem} {input : List UInt8} {i : ℕ} {r : ℤ} {input' : List UInt8}, WF m d → Clear m d →
      loaduvmLoop ip killed k m input d addr offset sz i = .ok (r, m', input') → Loads m m' d := by
  induction k with
  | zero =>
    intro m input i r input' _ _ hr
    cases hr
  | succ k ih =>
    intro m input i r input' hwf hclear hr
    rw [loaduvmLoop] at hr
    by_cases hlt : i < sz
    · have hva : u32 (addr + i) = addr + i := by simp only [u32]; omega
      have hnext : u32 (i + pgsize) = i + 4096 := by simp only [u32, pgsize]; omega
      rw [if_pos hlt, walkpgdir_false, hva] at hr
      by_cases ht : HasTable m d (pdx (addr + i))
      · rw [if_pos ht] at hr
        simp only [← pteOf_of_hasTable ht, ← pageOf.eq_1] at hr
        have hn : (if sz - i < pgsize then sz - i else pgsize) ≤ 4096 := by
          split_ifs <;> simp only [pgsize] at * <;> omega
        generalize (if sz - i < pgsize then sz - i else pgsize) = n at hr hn
        have hload := readi_loads hwf hclear (by omega : addr + i < 0x80000000) ip killed input hn
          (u32 (offset + i))
        generalize readi ip killed input (p2v (pageOf m d (addr + i))) (u32 (offset + i)) n = res
          at hr hload
        obtain ⟨⟨_ | r', stores⟩, input₁⟩ := res
        · cases hr
        · simp only at hr
          by_cases hshort : u32i r' ≠ n
          · rw [if_pos hshort] at hr
            cases hr
            exact hload
          · rw [if_neg hshort, hnext] at hr
            exact hload.trans (ih (hload.wf hwf) ((hload.view hwf).clear hclear) hr) hwf
      · rw [if_neg ht] at hr
        cases hr
    · rw [if_neg hlt] at hr
      cases hr
      exact .refl _ d

/-- **Loading a segment** below `KERNBASE` writes user pages, and page 0 where there are none. -/
theorem loaduvm_loads (hwf : WF m d) (hclear : Clear m d) {ip : Inode} {killed : Bool}
    {input input' : List UInt8} {addr offset sz : ℕ} {r : ℤ} (hle : addr + sz ≤ 0x80000000)
    (hr : loaduvm m killed input d addr ip offset sz = .ok (r, m', input')) : Loads m m' d := by
  rw [loaduvm] at hr
  split_ifs at hr
  exact loaduvmLoop_loads ip killed hle _ hwf hclear hr

/-! ### `clearpteu` -/

/-- What a memory looks like after the entry of `uva` lost its `PTE_U`. -/
structure ClearsU (m m' : PhysMem) (d uva : ℕ) : Prop where
  rest : m' = { m with byte := m'.byte }
  pde : ∀ i, i < 1024 → pde m' d i = pde m d i
  pteOf : ∀ va, pteOf m' d va =
    if pdx va = pdx uva ∧ ptx va = ptx uva then pteOf m d va &&& (4294967295 - pteU)
    else pteOf m d va

theorem pteAddr_clear {e : ℕ} (he : e < 2 ^ 32) :
    pteAddr (e &&& (4294967295 - pteU)) = pteAddr e := by
  have hdiv : (e &&& (4294967295 - pteU)) / 2 ^ 12 = e / 2 ^ 12 &&& (2 ^ 20 - 1) :=
    Nat.and_div_two_pow
  rw [Nat.and_two_pow_sub_one_eq_mod, Nat.mod_eq_of_lt (by omega)] at hdiv
  simp only [pteAddr]
  exact congrArg (· * 4096) hdiv

theorem clear_and_pteP (e : ℕ) : (e &&& (4294967295 - pteU)) &&& pteP = e &&& pteP := by
  rw [Nat.and_assoc]
  rfl

section

variable (h : ClearsU m m' d va)

include h

theorem ClearsU.present {va' : ℕ} : Present m' d va' ↔ Present m d va' := by
  rw [Present, Present, h.pteOf]
  split_ifs
  · rw [clear_and_pteP]
  · rfl

theorem ClearsU.pageOf {va' : ℕ} : pageOf m' d va' = pageOf m d va' := by
  rw [Xv6.pageOf, Xv6.pageOf, h.pteOf]
  split_ifs
  · exact pteAddr_clear (pteOf_lt m d va')
  · rfl

theorem ClearsU.holds {r : Role} : Holds m' d f r ↔ Holds m d f r := by
  have htab : ∀ {i}, i < 1024 → (HasTable m' d i ↔ HasTable m d i) := fun hi => by
    rw [HasTable, HasTable, h.pde _ hi]
  constructor
  · intro hf
    cases hf with
    | dir => exact .dir
    | table hi ht => rw [pgtab, h.pde _ hi]; exact .table hi ((htab hi).mp ht)
    | user ha hv hp => rw [h.pageOf]; exact .user ha hv (h.present.mp hp)
  · intro hf
    cases hf with
    | dir => exact .dir
    | table hi ht => rw [pgtab, ← h.pde _ hi]; exact .table hi ((htab hi).mpr ht)
    | user ha hv hp => rw [← h.pageOf]; exact .user ha hv (h.present.mpr hp)

theorem ClearsU.freelist : m'.freelist = m.freelist := by
  rw [h.rest]

theorem ClearsU.wf (hwf : WF m d) : WF m' d where
  free := by
    rw [h.rest]
    exact ⟨hwf.free.nodup, hwf.free.isFrame, hwf.free.cnt⟩
  isFrame hf := hwf.isFrame (h.holds.mp hf)
  unique hf hf' := hwf.unique (h.holds.mp hf) (h.holds.mp hf')
  notFree hf := h.freelist ▸ hwf.notFree (h.holds.mp hf)
  pdeFlags hi ht := by
    rw [HasTable, h.pde _ hi] at ht
    rw [h.pde _ hi]
    exact hwf.pdeFlags hi ht

theorem ClearsU.clear (hclear : Clear m d) : Clear m' d := by
  intro va' hlt hp
  have hz := hclear va' hlt (mt h.present.mpr hp)
  rw [h.pteOf, hz]
  simp

end

/-- **Taking a page from the user.** -/
theorem clearpteu_clears (hwf : WF m d) (hr : clearpteu m d va = .ok m') : ClearsU m m' d va := by
  rw [clearpteu, walkpgdir_false] at hr
  by_cases ht : HasTable m d (pdx va)
  · simp only [if_pos ht, ← pteOf_of_hasTable ht] at hr
    cases hr
    have hw : pteOf m d va &&& (4294967295 - pteU) < 2 ^ 32 :=
      Nat.lt_of_le_of_lt Nat.and_le_left (pteOf_lt m d va)
    obtain ⟨hpde, hpte⟩ := pteOf_store hwf.pageDir ht hw
    refine ⟨rfl, hpde, fun va' => ?_⟩
    rw [hpte]
    by_cases hidx : pdx va' = pdx va ∧ ptx va' = ptx va
    · rw [if_pos hidx, if_pos hidx, pteOf_congr_va hidx.1 hidx.2]
    · rw [if_neg hidx, if_neg hidx]
  · simp only [if_neg ht] at hr
    cases hr

end Xv6
