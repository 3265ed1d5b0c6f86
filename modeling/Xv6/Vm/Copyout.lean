import Xv6.Vm.Account

/-!
# Copying to another address space

`uva2ka` and `copyout` from `vm.c`, with which `exec` puts the arguments on the stack of an address
space that is not the current one.

`uva2ka` tests the entry that `walkpgdir` finds, but not whether it found one. Where a region has no
page table it reads its entry at address 0, which is a word of the current process, and `copyout`
goes on with whatever that names. The model stops there.

## Main results

* `copyout_eq` — what a call does, by the first byte whose page is not the user's
* `copyout_exact_iff` — it is right when that page has a page table
-/

namespace Xv6

open ByteMemory PhysMem Function List

/-- Map user virtual address to kernel address, 0 for a page that is not the user's. -/
def uva2ka (m : PhysMem) (pgdir uva : ℕ) : Except Panic ℕ :=
  match walkpgdir m pgdir uva false with
  | (none, _) => .error .nullPte
  | (some pte, m) =>
    if m.load pte &&& pteP = 0 then .ok 0
    else if m.load pte &&& pteU = 0 then .ok 0
    else .ok (p2v (pteAddr (m.load pte)))

/-- The stores of `memmove(dst, src, n)`. -/
def memmoveStores (dst : ℕ) (src : List UInt8) (n : ℕ) : List (ℕ × UInt8) :=
  (List.range n).map fun i => (u32 (dst + i), src.getD i 0)

/-- The loop of `copyout`. The list is what is left of the buffer, its length `len`. -/
def copyoutLoop : ℕ → PhysMem → (pgdir va : ℕ) → List UInt8 → Except Panic (ℤ × PhysMem)
  | 0, _, _, _, _ => .error .diverges
  | k + 1, m, pgdir, va, buf =>
    if buf.length > 0 then
      let va0 := pgrounddown va
      match uva2ka m pgdir va0 with
      | .error e => .error e
      | .ok pa0 =>
        if pa0 = 0 then .ok (-1, m)
        else
          let n := if pgsize - (va - va0) > buf.length then buf.length else pgsize - (va - va0)
          copyoutLoop k (m.storeAll (memmoveStores (pa0 + (va - va0)) buf n)) pgdir
            (u32 (va0 + pgsize)) (buf.drop n)
    else .ok (0, m)

/-- Copy the bytes of `p` to user address `va` in page table `pgdir`. -/
def copyout (m : PhysMem) (pgdir va : ℕ) (p : List UInt8) : Except Panic (ℤ × PhysMem) :=
  copyoutLoop (npages + 2) m pgdir va p

variable {m m' : PhysMem} {d va : ℕ} {buf : List UInt8} {n : ℕ}

theorem u32_lt (n : ℕ) : u32 n < 2 ^ 32 := Nat.mod_lt n (by decide)

/-! ### Address spaces -/

/-- A page directory as `setupkvm` makes it and the operations on user memory leave it. -/
structure Pgdir (m : PhysMem) (d : ℕ) : Prop where
  wf : WF m d
  kernel : ∀ va, 0x80000000 ≤ va → va < 2 ^ 32 → pteOf m d va = kernelPte va

theorem NewKvm.pgdir {m₀ : PhysMem} (h : NewKvm m₀ m d) : Pgdir m d :=
  ⟨h.wf, fun va _ hlt => h.pteOf va hlt⟩

theorem CopyUpTo.pgdir {m₀ : PhysMem} {src i : ℕ} (h : CopyUpTo m₀ m src d i) : Pgdir m d :=
  ⟨h.wf, h.kernel⟩

theorem Inv.pgdir {heap : ℕ} {c : Ctx} (h : Inv heap c) : Pgdir c.mem c.proc.pgdir :=
  ⟨h.wf, h.kernel⟩

theorem Pgdir.allocs {S : ℕ → Prop} (h : Pgdir m d) (hal : Allocs m m' d S) : Pgdir m' d :=
  ⟨hal.keeps.wf, fun va hle hlt => (hal.kept va hlt (by omega)).trans (h.kernel va hle hlt)⟩

theorem Pgdir.unmaps {S : ℕ → Prop} (h : Pgdir m d) (hun : Unmaps m m' d S) : Pgdir m' d :=
  ⟨hun.keeps.wf, fun va hle hlt => (hun.kept va hlt (by omega)).trans (h.kernel va hle hlt)⟩

theorem Pgdir.loads (h : Pgdir m d) (hl : Loads m m' d) : Pgdir m' d :=
  ⟨hl.wf h.wf, fun va hle hlt => ((hl.view h.wf).pteOf va).trans (h.kernel va hle hlt)⟩

theorem Pgdir.clearsU {uva : ℕ} (h : Pgdir m d) (hc : ClearsU m m' d uva) (hu : uva < 0x80000000) :
    Pgdir m' d := by
  refine ⟨hc.wf h.wf, fun va hle hlt => ?_⟩
  have hne : ¬ (pdx va = pdx uva ∧ ptx va = ptx uva) := fun he => by
    have := pdx_lt_user hu
    have := le_pdx_kernel hle hlt
    omega
  rw [hc.pteOf, if_neg hne, h.kernel va hle hlt]

/-- The page of `va` is present with `PTE_U`. -/
def UserPage (m : PhysMem) (d va : ℕ) : Prop := Present m d va ∧ pteOf m d va &&& pteU ≠ 0

/-- The byte of physical memory at the address `va`. -/
def phys (m : PhysMem) (d va : ℕ) : ℕ := pageOf m d va + va % 4096

theorem userPage_pgrounddown : UserPage m d (pgrounddown va) ↔ UserPage m d va := by
  rw [UserPage, UserPage, present_pgrounddown, pteOf_pgrounddown]

theorem userPage_congr {va' : ℕ} (h : pgrounddown va = pgrounddown va') :
    UserPage m d va ↔ UserPage m d va' := by
  rw [← userPage_pgrounddown, h, userPage_pgrounddown]

theorem SameView.userPage (h : SameView m m' d) : UserPage m' d va ↔ UserPage m d va := by
  rw [UserPage, UserPage, h.present, h.pteOf]

theorem SameView.phys (h : SameView m m' d) (va : ℕ) : phys m' d va = phys m d va := by
  rw [Xv6.phys, Xv6.phys, h.pageOf]

theorem pgrounddown_phys (m : PhysMem) (d va : ℕ) : pgrounddown (phys m d va) = pageOf m d va := by
  have := pageOf_mod m d va
  rw [pgrounddown_eq_iff this, phys]
  omega

theorem Pgdir.lt_of_userPage (h : Pgdir m d) (hva : va < 2 ^ 32) (hu : UserPage m d va) :
    va < 0x80000000 := by
  by_contra hge
  refine hu.2 ?_
  rw [h.kernel va (by omega) hva]
  exact kernelPte_and_pteU va

theorem Pgdir.phys_inj (h : Pgdir m d) {va' : ℕ} (hva : va < 2 ^ 32) (hva' : va' < 2 ^ 32)
    (hu : UserPage m d va) (hu' : UserPage m d va') (he : phys m d va = phys m d va') :
    va = va' := by
  have hpage : pageOf m d va = pageOf m d va' := by
    rw [← pgrounddown_phys, he, pgrounddown_phys]
  have := h.wf.pageOf_inj (h.lt_of_userPage hva hu) (h.lt_of_userPage hva' hu') hu.1 hu'.1 hpage
  simp only [phys, hpage, pgrounddown, pgsize] at he this
  omega

/-! ### What is copied -/

/-- The memory after the first `n` bytes of the buffer were copied to `va`. -/
def copied (m : PhysMem) (d va : ℕ) (buf : List UInt8) (n : ℕ) : PhysMem :=
  { m with
    byte := writeAll m.byte ((List.range n).map fun i => (phys m d (u32 (va + i)), buf.getD i 0)) }

theorem copied_zero (m : PhysMem) (d va : ℕ) (buf : List UInt8) : copied m d va buf 0 = m := rfl

theorem copied_of_ne {x : ℕ} (h : ∀ i, i < n → x ≠ phys m d (u32 (va + i))) :
    (copied m d va buf n).byte x = m.byte x := by
  refine writeAll_of_notMem fun s hs he => ?_
  obtain ⟨i, hi, rfl⟩ := mem_map.mp hs
  exact h i (mem_range.mp hi) he.symm

theorem Pgdir.copied_loads (h : Pgdir m d) (hu : ∀ i, i < n → UserPage m d (u32 (va + i))) :
    Loads m (copied m d va buf n) d := by
  refine ⟨rfl, fun x _ hx => copied_of_ne fun i hi he => ?_⟩
  have hlt := h.lt_of_userPage (u32_lt _) (hu i hi)
  refine hx _ hlt (hu i hi).1 ?_
  rw [he, pgrounddown_phys]

theorem copied_add {k : ℕ} (hv : SameView m (copied m d va buf n) d) :
    copied (copied m d va buf n) d (u32 (va + n)) (buf.drop n) k = copied m d va buf (n + k) := by
  have hrest : ((List.range k).map fun i =>
      (phys (copied m d va buf n) d (u32 (u32 (va + n) + i)), (buf.drop n).getD i 0)) =
      ((List.range k).map (n + ·)).map fun i => (phys m d (u32 (va + i)), buf.getD i 0) := by
    rw [map_map]
    refine map_congr_left fun i _ => ?_
    have hu : u32 (u32 (va + n) + i) = u32 (va + (n + i)) := by simp only [u32]; omega
    simp only [comp_apply, hv.phys, hu, getD_eq_getElem?_getD, List.getElem?_drop]
  rw [copied, hrest]
  simp only [copied, writeAll, range_add, map_append, foldl_append]

theorem Pgdir.copied_byte (h : Pgdir m d) (hlen : n < 2 ^ 32)
    (hu : ∀ i, i < n → UserPage m d (u32 (va + i))) :
    ∀ i, i < n → (copied m d va buf n).byte (phys m d (u32 (va + i))) = buf.getD i 0 := by
  induction n with
  | zero => exact fun i hi => absurd hi (Nat.not_lt_zero i)
  | succ n ih =>
    intro i hi
    have hstep : (copied m d va buf (n + 1)).byte = update (copied m d va buf n).byte
        (phys m d (u32 (va + n))) (buf.getD n 0) := by
      simp only [copied, writeAll, range_succ, map_append, foldl_append]
      rfl
    rw [hstep]
    by_cases hin : i = n
    · rw [hin, update_self]
    · have hne : phys m d (u32 (va + i)) ≠ phys m d (u32 (va + n)) := fun he => by
        have := h.phys_inj (u32_lt _) (u32_lt _) (hu i hi) (hu n (Nat.lt_succ_self n)) he
        simp only [u32] at this
        omega
      rw [update_of_ne hne]
      exact ih (by omega) (fun i hi => hu i (by omega)) i (by omega)

/-! ### The loop -/

theorem uva2ka_eq (m : PhysMem) (d va : ℕ) : uva2ka m d (pgrounddown va) =
    if HasTable m d (pdx va) then
      .ok (if pteOf m d va &&& pteP = 0 ∨ pteOf m d va &&& pteU = 0 then 0 else p2v (pageOf m d va))
    else .error .nullPte := by
  rw [uva2ka, walkpgdir_false, pdx_pgrounddown, ptx_pgrounddown]
  by_cases ht : HasTable m d (pdx va)
  · rw [if_pos ht, if_pos ht, pageOf, pteOf_of_hasTable ht]
    by_cases hP : m.load (pgtab m d (pdx va) + 4 * ptx va) &&& pteP = 0
    · rw [if_pos (.inl hP)]
      exact if_pos hP
    · by_cases hU : m.load (pgtab m d (pdx va) + 4 * ptx va) &&& pteU = 0
      · rw [if_pos (.inr hU)]
        exact (if_neg hP).trans (if_pos hU)
      · rw [if_neg (not_or.mpr ⟨hP, hU⟩)]
        exact (if_neg hP).trans (if_neg hU)
  · rw [if_neg ht, if_neg ht]

theorem Pgdir.storeAll_memmove (h : Pgdir m d) (hva : va < 2 ^ 32) (hu : UserPage m d va)
    (hn : n ≤ 4096 - va % 4096) :
    m.storeAll (memmoveStores (p2v (pageOf m d va) + (va - pgrounddown va)) buf n) =
      copied m d va buf n := by
  have hlt := h.lt_of_userPage hva hu
  have hpa := (h.wf.isFrame (.user' hlt hu.1)).lt
  have hmod := pageOf_mod m d va
  suffices hstores : (memmoveStores (p2v (pageOf m d va) + (va - pgrounddown va)) buf n).map
      (fun s => (v2p s.1, s.2)) =
        (List.range n).map fun i => (phys m d (u32 (va + i)), buf.getD i 0) by
    rw [storeAll, copied, hstores]
  rw [memmoveStores, map_map]
  refine map_congr_left fun i hi => ?_
  have hi := mem_range.mp hi
  have hui : u32 (va + i) = va + i := by simp only [u32]; omega
  have hpage : pageOf m d (va + i) = pageOf m d va := by
    have hdown : pgrounddown (va + i) = pgrounddown va := by
      simp only [pgrounddown, pgsize]
      omega
    rw [← pageOf_pgrounddown, hdown, pageOf_pgrounddown]
  simp only [comp_apply, Prod.mk.injEq, and_true, phys, hui, hpage]
  simp only [v2p, u32, p2v, kernbase, pgrounddown, pgsize]
  omega

/-- **What the loop does**, if `j` is the first byte whose page is not the user's. -/
theorem copyoutLoop_eq (k : ℕ) : ∀ {m : PhysMem} {va : ℕ} {buf : List UInt8} {j : ℕ}, Pgdir m d →
    va < 2 ^ 32 → buf.length < 2 ^ 32 → va % 4096 + buf.length ≤ 4096 * k → j ≤ buf.length →
    (∀ i, i < j → UserPage m d (u32 (va + i))) → (j < buf.length → ¬ UserPage m d (u32 (va + j))) →
    copyoutLoop (k + 1) m d va buf = if j = buf.length then .ok (0, copied m d va buf j)
      else if HasTable m d (pdx (u32 (va + j))) then .ok (-1, copied m d va buf j)
      else .error .nullPte := by
  induction k with
  | zero =>
    intro m va buf j _ _ _ hk hj _ _
    have hj0 : j = buf.length := by omega
    rw [copyoutLoop, if_neg (by omega), if_pos hj0, show j = 0 by omega, copied_zero]
  | succ k ih =>
    intro m va buf j h hva hlen hk hj hu hnot
    have hva0 : u32 (va + 0) = va := Nat.mod_eq_of_lt hva
    rw [copyoutLoop]
    by_cases hpos : buf.length > 0
    · simp only [if_pos hpos, uva2ka_eq]
      by_cases hj0 : j = 0
      · -- the first page is not the user's
        have hno := hnot (by omega)
        rw [hj0, hva0] at hno
        rw [hj0, hva0, if_neg (show 0 ≠ buf.length by omega)]
        by_cases ht : HasTable m d (pdx va)
        · have hbit : pteOf m d va &&& pteP = 0 ∨ pteOf m d va &&& pteU = 0 := by
            simp only [UserPage, Present] at hno
            tauto
          simp only [if_pos ht, if_pos hbit, if_true, copied_zero]
        · simp only [if_neg ht]
      · have hfirst := hu 0 (by omega)
        rw [hva0] at hfirst
        have hlt := h.lt_of_userPage hva hfirst
        have hpa := (h.wf.isFrame (.user' hlt hfirst.1)).lt
        have hbit : ¬ (pteOf m d va &&& pteP = 0 ∨ pteOf m d va &&& pteU = 0) :=
          not_or.mpr hfirst
        have hne : p2v (pageOf m d va) ≠ 0 := by
          simp only [p2v, u32, kernbase]; omega
        have hoff : va - pgrounddown va = va % 4096 := by simp only [pgrounddown, pgsize]; omega
        simp only [if_pos hfirst.1.hasTable, if_neg hbit, if_neg hne]
        generalize hn : (if pgsize - (va - pgrounddown va) > buf.length then buf.length
          else pgsize - (va - pgrounddown va)) = n
        have hncases : n = buf.length ∧ n < 4096 - va % 4096 ∨
            n = 4096 - va % 4096 ∧ n ≤ buf.length := by
          rw [hoff] at hn
          by_cases hbig : pgsize - va % 4096 > buf.length
          · rw [if_pos hbig] at hn
            exact .inl ⟨hn.symm, hn ▸ hbig⟩
          · rw [if_neg hbig] at hn
            exact .inr ⟨hn.symm, hn ▸ Nat.le_of_not_lt hbig⟩
        -- the bytes of one page are all the user's
        have hnj : n ≤ j := by
          by_contra hlt'
          refine hnot (by omega) ((userPage_congr ?_).mpr hfirst)
          simp only [u32, pgrounddown, pgsize]
          omega
        rw [h.storeAll_memmove hva hfirst (by omega)]
        have hloads : Loads m (copied m d va buf n) d :=
          h.copied_loads fun i hi => hu i (by omega)
        have hview := hloads.view h.wf
        have hlenn : (buf.drop n).length = buf.length - n := length_drop
        by_cases hend : n = buf.length
        · have hk' : copyoutLoop (k + 1) (copied m d va buf n) d (u32 (pgrounddown va + pgsize))
              (buf.drop n) = .ok (0, copied m d va buf n) := by
            rw [copyoutLoop, if_neg (by omega)]
          rw [hk', if_pos (by omega), show j = n by omega]
        · have hnext : u32 (pgrounddown va + pgsize) = u32 (va + n) := by
            simp only [pgrounddown, pgsize, u32]; omega
          have hsum : ∀ i, u32 (u32 (va + n) + i) = u32 (va + (n + i)) := fun i => by
            simp only [u32]; omega
          rw [hnext, ih (h.loads hloads) (u32_lt _) (by omega)
            (by simp only [u32]; omega) (show j - n ≤ _ by omega)
            (fun i hi => by rw [hsum, hview.userPage]; exact hu _ (by omega))
            (fun hi => by
              rw [hsum, hview.userPage, Nat.add_sub_cancel' hnj]
              exact hnot (by omega)),
            copied_add hview, hsum, Nat.add_sub_cancel' hnj]
          refine if_congr (by omega) rfl (if_congr (hview.hasTable (pdx_lt _)) rfl rfl)
    · have hj0 : j = 0 := by omega
      rw [if_neg hpos, if_pos (by omega), hj0, copied_zero]

theorem copyout_eq (h : Pgdir m d) (hva : va < 2 ^ 32) (hlen : buf.length < 2 ^ 32) {j : ℕ}
    (hj : j ≤ buf.length) (hu : ∀ i, i < j → UserPage m d (u32 (va + i)))
    (hnot : j < buf.length → ¬ UserPage m d (u32 (va + j))) : copyout m d va buf =
      if j = buf.length then .ok (0, copied m d va buf j)
      else if HasTable m d (pdx (u32 (va + j))) then .ok (-1, copied m d va buf j)
      else .error .nullPte :=
  copyoutLoop_eq (npages + 1) h hva hlen (by simp only [npages]; omega) hj hu hnot

/-! ### Exactness -/

/-- What a call of `copyout` is for: all bytes are copied and nothing else changes, or the call
fails and what it wrote went to pages of the user. -/
def CopiesExactly (m : PhysMem) (d va : ℕ) (buf : List UInt8) :
    Except Panic (ℤ × PhysMem) → Prop
  | .error _ => False
  | .ok (r, m') =>
    SameView m m' d ∧ m' = { m with byte := m'.byte } ∧
    ((∀ i, i < buf.length → UserPage m d (u32 (va + i))) → r = 0 ∧
      (∀ i, i < buf.length → m'.byte (phys m d (u32 (va + i))) = buf.getD i 0) ∧
      ∀ x, (∀ i, i < buf.length → x ≠ phys m d (u32 (va + i))) → m'.byte x = m.byte x) ∧
    (¬ (∀ i, i < buf.length → UserPage m d (u32 (va + i))) → r = -1 ∧
      ∀ x, (∀ a, a < 2 ^ 32 → UserPage m d a → x ≠ phys m d a) → m'.byte x = m.byte x)

/-- **When `copyout` is exact.** In every address space, for every address and buffer, the call
does what it is for if and only if the first page that is not the user's, should there be one, has
an entry to be found. -/
theorem copyout_exact_iff (h : Pgdir m d) (hva : va < 2 ^ 32) (hlen : buf.length < 2 ^ 32) :
    CopiesExactly m d va buf (copyout m d va buf) ↔
      ∀ j, j < buf.length → (∀ i, i < j → UserPage m d (u32 (va + i))) →
        ¬ UserPage m d (u32 (va + j)) → HasTable m d (pdx (u32 (va + j))) := by
  by_cases hall : ∀ i, i < buf.length → UserPage m d (u32 (va + i))
  · rw [copyout_eq h hva hlen (Nat.le_refl _) hall (absurd · (Nat.lt_irrefl _)), if_pos rfl]
    refine ⟨fun _ j hj _ hno => absurd (hall j hj) hno, fun _ => ?_⟩
    exact ⟨(h.copied_loads hall).view h.wf, rfl,
      fun _ => ⟨rfl, h.copied_byte hlen hall, fun _ hx => copied_of_ne hx⟩,
      fun hno => absurd hall hno⟩
  · have hex : ∃ j, j < buf.length ∧ ¬ UserPage m d (u32 (va + j)) := by
      simpa using hall
    classical
    obtain ⟨hj, hno⟩ := Nat.find_spec hex
    have hu : ∀ i, i < Nat.find hex → UserPage m d (u32 (va + i)) := fun i hi => by
      by_contra hn
      exact Nat.find_min hex hi ⟨by omega, hn⟩
    generalize Nat.find hex = j at hj hno hu
    rw [copyout_eq h hva hlen hj.le hu fun _ => hno, if_neg hj.ne]
    have huniq : ∀ j', (∀ i, i < j' → UserPage m d (u32 (va + i))) →
        ¬ UserPage m d (u32 (va + j')) → j' = j := by
      intro j' hu' hno'
      rcases Nat.lt_trichotomy j' j with hlt | heq | hlt
      · exact absurd (hu j' hlt) hno'
      · exact heq
      · exact absurd (hu' j hlt) hno
    by_cases ht : HasTable m d (pdx (u32 (va + j)))
    · rw [if_pos ht]
      refine ⟨fun _ j' _ hu' hno' => huniq j' hu' hno' ▸ ht, fun _ => ?_⟩
      exact ⟨(h.copied_loads hu).view h.wf, rfl, fun hyes => absurd hyes hall,
        fun _ => ⟨rfl, fun x hx => copied_of_ne fun i hi => hx _ (u32_lt _) (hu i hi)⟩⟩
    · rw [if_neg ht]
      exact ⟨False.elim, fun htab => ht (htab j hj hu hno)⟩

/-- A buffer goes to an address space of two pages, to the end of the first and on to the second;
and one that is longer does not fit. -/
theorem copyout_exact_page : ∃ d m, Pgdir m d ∧ ∀ buf : List UInt8,
    buf.length = 200 ∨ buf.length = 5000 → CopiesExactly m d 4000 buf (copyout m d 4000 buf) := by
  obtain ⟨d, m₁, m, -, hnew, -, hal, -⟩ :=
    Tiny.blank_grow (by decide) (by decide : 4096 * 1 < 0x2000) (by decide)
  have h : Pgdir m d := hnew.pgdir.allocs hal
  have hu : ∀ va, va < 0x2000 → UserPage m d va := fun va hva => by
    have hflags := hal.flags va (by omega)
      ⟨pgrounddown_mod va, Nat.zero_le _, (pgrounddown_le va).trans_lt hva⟩
    rw [UserPage, Present, and_flags (pteOf m d va) (show pteP < 4096 by decide),
      and_flags (pteOf m d va) (show pteU < 4096 by decide), hflags]
    decide
  refine ⟨d, m, h, fun buf hbuf => ?_⟩
  refine (copyout_exact_iff h (by decide) (by omega)).mpr fun j hj _ _ => ?_
  -- one table serves the two pages and those behind them
  have hpdx : pdx (u32 (4000 + j)) = pdx 0 := by
    simp only [pdx, u32, npdentries]
    omega
  rw [hpdx]
  exact (hu 0 (by decide)).1.hasTable

/-- An argument of 32 MB and some more for a program of one page: the stack pointer wraps to an
address below the devices, where no directory has a table. -/
theorem copyout_nullPte : ∃ d m₁ m₂ m, setupkvm Tiny.blank = .ok (some d, m₁) ∧
    allocuvm m₁ d 0 0x3000 = .ok (0x3000, m₂) ∧ clearpteu m₂ d 0x1000 = .ok m ∧
    ∀ arg : List UInt8, arg.length = 0x2004000 →
      copyout m d (u32 (0x3000 + 4294967296 - arg.length)) arg = .error .nullPte := by
  obtain ⟨d, m₁, m₂, hset, hnew, hall, hal, -⟩ :=
    Tiny.blank_grow (by decide) (by decide : 4096 * 2 < 0x3000) (by decide)
  have hguard : Present m₂ d 0x1000 := (hal.present_iff (by decide)).mpr (.inr (by decide))
  obtain ⟨m, hclear⟩ : ∃ m, clearpteu m₂ d 0x1000 = .ok m := by
    rw [clearpteu, walkpgdir_of_hasTable hguard.hasTable]
    exact ⟨_, rfl⟩
  have hcl := clearpteu_clears hal.keeps.wf hclear
  have h : Pgdir m d := (hnew.pgdir.allocs hal).clearsU hcl (by decide)
  refine ⟨d, m₁, m₂, m, hset, hall, hclear, fun arg harg => ?_⟩
  generalize hsp : u32 (0x3000 + 4294967296 - arg.length) = va
  have hpdx : pdx va = 1015 := by simp only [← hsp, u32, pdx, npdentries]; omega
  have hva : u32 (va + 0) = va := by simp only [← hsp, u32]; omega
  have hnone : ¬ HasTable m d (pdx (u32 (va + 0))) := by
    rw [hva, hpdx, HasTable, hcl.pde _ (by decide), ← HasTable, hal.hasTable _ (by decide),
      hnew.hasTable _ (by decide)]
    rintro (hk | ⟨va', hv, -, hpdx'⟩)
    · omega
    · have := pdx_lt_user hv
      omega
  rw [copyout_eq h (hva ▸ u32_lt _) (by omega) (Nat.zero_le _)
    (fun i hi => absurd hi (Nat.not_lt_zero i)) fun _ hu => hnone hu.1.hasTable,
    if_neg (by omega)]
  exact if_neg hnone

end Xv6
