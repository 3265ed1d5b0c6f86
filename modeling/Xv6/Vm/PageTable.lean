import Xv6.Vm.Machine

/-!
# Two-level page tables

`walkpgdir` and `mappages` from `vm.c`, over tables that lie in physical memory as words, and the
view of a page directory that all later files reason with.

## The view

`pde` reads a directory entry and `pteOf` the second-level entry of an address, taken as `0` where
the directory entry is absent. A page directory *holds* frames in one of three roles: itself, its
page tables, and the user pages below `KERNBASE` its tables map. What lies above `KERNBASE` is the
kernel's mapping of all of memory and holds nothing.

`WF` says that a directory holds each frame in one role only and none that is free. It is what
makes writing one table entry change one mapping: two tables in one frame, or a table in the
directory's own frame, would make the store show up elsewhere.

## Main results

* `pteOf_store` — the effect of storing an entry
* `WF.store` — storing a fresh page or a zero keeps a directory well formed
* `walkpgdir_alloc_cases` — a walk that may allocate changes no mapping
* `mappages_page` — mapping one page
* `mappages_exact` — mapping a range, which may end with the address space
-/

namespace Xv6

open ByteMemory PhysMem

/-- The address of the PTE for `va` in `pgdir`, creating the page table page if `alloc`. -/
def walkpgdir (m : PhysMem) (pgdir va : ℕ) (alloc : Bool) : Option ℕ × PhysMem :=
  let pde := pgdir + 4 * pdx va
  if m.load pde &&& pteP ≠ 0 then
    (some (pteAddr (m.load pde) + 4 * ptx va), m)
  else if !alloc then (none, m)
  else
    match kalloc m with
    | (none, m) => (none, m)
    | (some pgtab, m) =>
      -- the permissions are generous; the table's own entries restrict them
      let m := m.setPage pgtab 0
      (some (pgtab + 4 * ptx va), m.store pde (pgtab ||| pteP ||| pteW ||| pteU))

/-- The number of pages of a 32-bit address space, a bound on the steps of every loop over
pages. -/
def npages : ℕ := 1048576

/-- The loop of `mappages`, from the page `a` to the page `last`. -/
def mappagesLoop : ℕ → PhysMem → (pgdir a last pa perm : ℕ) → Except Panic (ℤ × PhysMem)
  | 0, _, _, _, _, _, _ => .error .diverges
  | n + 1, m, pgdir, a, last, pa, perm =>
    match walkpgdir m pgdir a true with
    | (none, m) => .ok (-1, m)
    | (some pte, m) =>
      if m.load pte &&& pteP ≠ 0 then .error .remap
      else
        let m := m.store pte (pa ||| perm ||| pteP)
        if a = last then .ok (0, m)
        else mappagesLoop n m pgdir (u32 (a + pgsize)) last (u32 (pa + pgsize)) perm

/-- Create PTEs for `size` bytes of virtual addresses from `va` on that refer to physical
addresses from `pa` on. -/
def mappages (m : PhysMem) (pgdir va size pa perm : ℕ) : Except Panic (ℤ × PhysMem) :=
  mappagesLoop npages m pgdir (pgrounddown va) (pgrounddown (u32 (va + size + 4294967295))) pa perm

/-! ### The view of a directory -/

/-- The `i`-th entry of the directory. -/
def pde (m : PhysMem) (d i : ℕ) : ℕ := m.load (d + 4 * i)

/-- The directory has a page table for its `i`-th 4 MB region. -/
def HasTable (m : PhysMem) (d i : ℕ) : Prop := pde m d i &&& pteP ≠ 0

/-- The page table of the `i`-th region. -/
def pgtab (m : PhysMem) (d i : ℕ) : ℕ := pteAddr (pde m d i)

instance (m : PhysMem) (d i : ℕ) : Decidable (HasTable m d i) := by
  unfold HasTable; infer_instance

/-- The second-level entry for `va`, zero where there is no page table. -/
def pteOf (m : PhysMem) (d va : ℕ) : ℕ :=
  if HasTable m d (pdx va) then m.load (pgtab m d (pdx va) + 4 * ptx va) else 0

/-- The page of `va` is present. -/
def Present (m : PhysMem) (d va : ℕ) : Prop := pteOf m d va &&& pteP ≠ 0

/-- The page frame `va` is mapped to. -/
def pageOf (m : PhysMem) (d va : ℕ) : ℕ := pteAddr (pteOf m d va)

instance (m : PhysMem) (d va : ℕ) : Decidable (Present m d va) := by
  unfold Present; infer_instance

variable {m m' : PhysMem} {d va va' i j f t w : ℕ} {a p pa perm x : ℕ}

theorem walkpgdir_false (m : PhysMem) (d va : ℕ) : walkpgdir m d va false =
      (if HasTable m d (pdx va) then some (pgtab m d (pdx va) + 4 * ptx va) else none, m) := by
  by_cases h : HasTable m d (pdx va)
  · rw [if_pos h]
    exact if_pos h
  · rw [if_neg h]
    exact if_neg h

theorem walkpgdir_of_hasTable (h : HasTable m d (pdx va)) (b : Bool) :
    walkpgdir m d va b = (some (pgtab m d (pdx va) + 4 * ptx va), m) :=
  if_pos h

theorem pteOf_of_hasTable (h : HasTable m d (pdx va)) :
    pteOf m d va = m.load (pgtab m d (pdx va) + 4 * ptx va) :=
  if_pos h

theorem pteOf_of_not_hasTable (h : ¬ HasTable m d (pdx va)) : pteOf m d va = 0 :=
  if_neg h

theorem Present.hasTable (h : Present m d va) : HasTable m d (pdx va) := by
  by_contra hn
  rw [Present, pteOf_of_not_hasTable hn] at h
  simp at h

theorem pteOf_congr_va (hd : pdx va = pdx va') (ht : ptx va = ptx va') :
    pteOf m d va = pteOf m d va' := by
  simp only [pteOf, hd, ht]

theorem pteOf_pgrounddown (m : PhysMem) (d va : ℕ) : pteOf m d (pgrounddown va) = pteOf m d va :=
  pteOf_congr_va (pdx_pgrounddown va) (ptx_pgrounddown va)

theorem present_pgrounddown : Present m d (pgrounddown va) ↔ Present m d va := by
  simp only [Present, pteOf_pgrounddown]

theorem pageOf_pgrounddown (m : PhysMem) (d va : ℕ) :
    pageOf m d (pgrounddown va) = pageOf m d va := by
  simp only [pageOf, pteOf_pgrounddown]

theorem pgtab_mod (m : PhysMem) (d i : ℕ) : pgtab m d i % 4096 = 0 := pteAddr_mod _

theorem pageOf_mod (m : PhysMem) (d va : ℕ) : pageOf m d va % 4096 = 0 := pteAddr_mod _

theorem pteOf_lt (m : PhysMem) (d va : ℕ) : pteOf m d va < 2 ^ 32 := by
  unfold pteOf
  split
  · exact load32_lt _ _
  · decide

/-! ### Roles -/

/-- What a directory uses a frame for. -/
inductive Role
  | dir
  | table (i : ℕ)
  | user (va : ℕ)
  deriving DecidableEq

/-- The directory `d` uses the frame in the given role. -/
inductive Holds (m : PhysMem) (d : ℕ) : ℕ → Role → Prop
  | dir : Holds m d d .dir
  | table {i : ℕ} : i < 1024 → HasTable m d i → Holds m d (pgtab m d i) (.table i)
  | user {va : ℕ} : va % 4096 = 0 → va < 0x80000000 → Present m d va →
      Holds m d (pageOf m d va) (.user va)

/-- The frames a directory uses. -/
def owned (m : PhysMem) (d : ℕ) : Set ℕ := {f | ∃ r, Holds m d f r}

/-- The free list is in order: every entry is an allocatable page, none is listed twice, and
`free_frame_cnt` counts them. -/
structure FreeOk (m : PhysMem) : Prop where
  nodup : m.freelist.Nodup
  isFrame : ∀ f ∈ m.freelist, IsFrame f
  cnt : m.freeFrameCnt = m.freelist.length

/-- A well-formed page directory: every frame in use has one role and is not free. -/
structure WF (m : PhysMem) (d : ℕ) : Prop where
  free : FreeOk m
  isFrame : ∀ {f r}, Holds m d f r → IsFrame f
  unique : ∀ {f r r'}, Holds m d f r → Holds m d f r' → r = r'
  notFree : ∀ {f r}, Holds m d f r → f ∉ m.freelist
  /-- Directory entries are user-writable; the page tables restrict them. -/
  pdeFlags : ∀ {i}, i < 1024 → HasTable m d i → pteFlags (pde m d i) = 7

/-- What makes the tables of a directory tables: they are pages of their own, none of them free. It
says nothing of the pages that they map. -/
structure PageDir (m : PhysMem) (d : ℕ) : Prop where
  free : FreeOk m
  dir_mod : d % 4096 = 0
  dir_notFree : d ∉ m.freelist
  pgtab_ne_dir : ∀ {i}, i < 1024 → HasTable m d i → pgtab m d i ≠ d
  pgtab_inj : ∀ {i j}, i < 1024 → j < 1024 → HasTable m d i → HasTable m d j →
    pgtab m d i = pgtab m d j → i = j
  pgtab_notFree : ∀ {i}, i < 1024 → HasTable m d i → pgtab m d i ∉ m.freelist

theorem WF.dir_mod (h : WF m d) : d % 4096 = 0 := (h.isFrame .dir).mod

theorem Holds.user' (h : va < 0x80000000) (hp : Present m d va) :
    Holds m d (pageOf m d va) (.user (pgrounddown va)) := by
  rw [← pageOf_pgrounddown]
  exact .user (pgrounddown_mod va) (Nat.lt_of_le_of_lt (pgrounddown_le va) h)
    (present_pgrounddown.mpr hp)

theorem Holds.of_table (h : Holds m d f (.table i)) :
    i < 1024 ∧ HasTable m d i ∧ f = pgtab m d i := by
  cases h with | table hi ht => exact ⟨hi, ht, rfl⟩

section

variable (h : WF m d)

include h

theorem WF.pgtab_ne_dir (hi : i < 1024) (ht : HasTable m d i) : pgtab m d i ≠ d :=
  fun he => by cases h.unique (he ▸ Holds.table hi ht) Holds.dir

theorem WF.pgtab_inj (hi : i < 1024) (hj : j < 1024) (hti : HasTable m d i)
    (htj : HasTable m d j) (he : pgtab m d i = pgtab m d j) : i = j := by
  cases h.unique (he ▸ Holds.table hi hti) (Holds.table hj htj); rfl

theorem WF.pageDir : PageDir m d :=
  ⟨h.free, h.dir_mod, h.notFree .dir, h.pgtab_ne_dir, h.pgtab_inj,
    fun hi ht => h.notFree (.table hi ht)⟩

theorem WF.pageOf_inj (hv : va < 0x80000000) (hv' : va' < 0x80000000)
    (hp : Present m d va) (hp' : Present m d va') (he : pageOf m d va = pageOf m d va') :
    pgrounddown va = pgrounddown va' :=
  Role.user.inj (h.unique (he ▸ Holds.user' hv hp) (Holds.user' hv' hp'))

theorem WF.pageOf_ne_pgtab (hv : va < 0x80000000) (hp : Present m d va)
    (hi : i < 1024) (ht : HasTable m d i) : pageOf m d va ≠ pgtab m d i :=
  fun he => by cases h.unique (he ▸ Holds.user' hv hp) (Holds.table hi ht)

theorem WF.pageOf_ne_dir (hv : va < 0x80000000) (hp : Present m d va) : pageOf m d va ≠ d :=
  fun he => by cases h.unique (he ▸ Holds.user' hv hp) Holds.dir

theorem WF.owns : Ownership.Owns m.pool (owned m d) :=
  ⟨h.free.nodup, fun _ ⟨_, hr⟩ => h.notFree hr⟩

end

/-! ### Memories with the same view -/

/-- Two memories in which the directory reads the same. -/
structure SameView (m m' : PhysMem) (d : ℕ) : Prop where
  pde : ∀ i, i < 1024 → pde m' d i = pde m d i
  pteOf : ∀ va, pteOf m' d va = pteOf m d va

theorem SameView.refl (m : PhysMem) (d : ℕ) : SameView m m d := ⟨fun _ _ => rfl, fun _ => rfl⟩

section

variable (h : SameView m m' d)

include h

theorem SameView.trans {m'' : PhysMem} (h' : SameView m' m'' d) : SameView m m'' d :=
  ⟨fun i hi => (h'.pde i hi).trans (h.pde i hi), fun va => (h'.pteOf va).trans (h.pteOf va)⟩

theorem SameView.hasTable (hi : i < 1024) : HasTable m' d i ↔ HasTable m d i := by
  simp only [HasTable, h.pde i hi]

theorem SameView.pgtab (hi : i < 1024) : Xv6.pgtab m' d i = Xv6.pgtab m d i := by
  simp only [Xv6.pgtab, h.pde i hi]

theorem SameView.present : Present m' d va ↔ Present m d va := by
  simp only [Present, h.pteOf]

theorem SameView.pageOf : Xv6.pageOf m' d va = Xv6.pageOf m d va := by
  simp only [Xv6.pageOf, h.pteOf]

theorem SameView.holds {r : Role} (hf : Holds m' d f r) : Holds m d f r := by
  cases hf with
  | dir => exact .dir
  | table hi ht => rw [h.pgtab hi]; exact .table hi ((h.hasTable hi).mp ht)
  | user ha hv hp => rw [h.pageOf]; exact .user ha hv (h.present.mp hp)

theorem SameView.symm : SameView m' m d :=
  ⟨fun i hi => (h.pde i hi).symm, fun va => (h.pteOf va).symm⟩

theorem SameView.owned : owned m' d = owned m d :=
  Set.ext fun _ => ⟨fun ⟨r, hr⟩ => ⟨r, h.holds hr⟩, fun ⟨r, hr⟩ => ⟨r, h.symm.holds hr⟩⟩

end

theorem SameView.of_eq (h : m'.byte = m.byte) : SameView m m' d := by
  cases m
  cases m'
  cases h
  exact ⟨fun _ _ => rfl, fun _ => rfl⟩

/-- Writing outside a directory and its tables does not change what it reads. -/
theorem SameView.of_byte (hd : d % 4096 = 0) (hdir : ∀ a, pgrounddown a = d → m'.byte a = m.byte a)
    (htab : ∀ i a, i < 1024 → HasTable m d i → pgrounddown a = Xv6.pgtab m d i →
      m'.byte a = m.byte a) : SameView m m' d := by
  have hpde : ∀ i, i < 1024 → Xv6.pde m' d i = Xv6.pde m d i := fun i hi =>
    load32_congr fun x hx hx' => hdir x ((pgrounddown_eq_iff hd).mpr (by omega))
  refine ⟨hpde, fun va => ?_⟩
  have hi := pdx_lt va
  have hj := ptx_lt va
  have hiff : HasTable m' d (pdx va) ↔ HasTable m d (pdx va) := by
    simp only [HasTable, hpde _ hi]
  by_cases ht : HasTable m d (pdx va)
  · rw [pteOf_of_hasTable ht, pteOf_of_hasTable (hiff.mpr ht), Xv6.pgtab, hpde _ hi]
    refine load32_congr fun x hx hx' => htab _ x hi ht ?_
    exact (pgrounddown_eq_iff (pteAddr_mod _)).mpr (by omega)
  · rw [pteOf_of_not_hasTable ht, pteOf_of_not_hasTable (mt hiff.mp ht)]

theorem WF.of_view (h : WF m d) (hv : SameView m m' d) (hfree : FreeOk m')
    (hnot : ∀ f r, Holds m d f r → f ∉ m'.freelist) : WF m' d where
  free := hfree
  isFrame hf := h.isFrame (hv.holds hf)
  unique hf hf' := h.unique (hv.holds hf) (hv.holds hf')
  notFree hf := hnot _ _ (hv.holds hf)
  pdeFlags hi ht := by
    rw [hv.pde _ hi]
    exact h.pdeFlags hi ((hv.hasTable hi).mp ht)

theorem WF.of_sameView (h : WF m d) (hv : SameView m m' d) (hfree : FreeOk m')
    (hsub : ∀ f ∈ m'.freelist, f ∈ m.freelist) : WF m' d :=
  h.of_view hv hfree fun f _ hf hin => h.notFree hf (hsub f hin)

theorem WF.sameView (h : WF m d)
    (hbyte : ∀ a, pgrounddown a ∈ owned m d → m'.byte a = m.byte a) : SameView m m' d :=
  SameView.of_byte h.dir_mod (fun a ha => hbyte a (ha ▸ ⟨_, .dir⟩))
    fun _ a hi ht ha => hbyte a (ha ▸ ⟨_, .table hi ht⟩)

/-! ### Storing an entry -/

variable {w : ℕ}

theorem pteOf_store (h : PageDir m d) (ht : HasTable m d (pdx va)) (hw : w < 2 ^ 32) :
    (∀ i, i < 1024 → pde (m.store (pgtab m d (pdx va) + 4 * ptx va) w) d i = pde m d i) ∧
      ∀ va', pteOf (m.store (pgtab m d (pdx va) + 4 * ptx va) w) d va' =
        if pdx va' = pdx va ∧ ptx va' = ptx va then w else pteOf m d va' := by
  have hd := h.dir_mod
  have hi := pdx_lt va
  have hj := ptx_lt va
  have htm := pteAddr_mod (pde m d (pdx va))
  have hne := h.pgtab_ne_dir hi ht
  have hpde : ∀ k, k < 1024 →
      pde (m.store (pgtab m d (pdx va) + 4 * ptx va) w) d k = pde m d k := by
    intro k hk
    refine load32_store32_of_ne (by simp only [pgtab]; omega) (by omega) ?_
    simp only [pgtab] at hne ⊢
    omega
  refine ⟨hpde, fun va' => ?_⟩
  have hi' := pdx_lt va'
  have hj' := ptx_lt va'
  have hpg : pgtab (m.store (pgtab m d (pdx va) + 4 * ptx va) w) d (pdx va') =
      pgtab m d (pdx va') := by
    rw [pgtab, hpde _ hi', ← pgtab]
  have hiff : HasTable (m.store (pgtab m d (pdx va) + 4 * ptx va) w) d (pdx va') ↔
      HasTable m d (pdx va') := by
    simp only [HasTable, hpde _ hi']
  by_cases hsame : pdx va' = pdx va ∧ ptx va' = ptx va
  · rw [if_pos hsame, pteOf_of_hasTable (hiff.mpr (hsame.1 ▸ ht)), hpg, hsame.1, hsame.2]
    exact load32_store32_self hw
  · rw [if_neg hsame]
    by_cases ht' : HasTable m d (pdx va')
    · rw [pteOf_of_hasTable ht', pteOf_of_hasTable (hiff.mpr ht'), hpg]
      have htm' := pteAddr_mod (pde m d (pdx va'))
      refine load32_store32_of_ne (by simp only [pgtab]; omega) (by simp only [pgtab]; omega) ?_
      -- different tables lie in different frames, and one table has different slots
      intro he
      have htab : pgtab m d (pdx va) = pgtab m d (pdx va') := by
        simp only [pgtab] at he ⊢; omega
      have hidx := h.pgtab_inj hi hi' ht ht' htab
      exact hsame ⟨hidx.symm, by rw [htab] at he; omega⟩
    · rw [pteOf_of_not_hasTable ht', pteOf_of_not_hasTable (mt hiff.mp ht')]

theorem store_byte {w : ℕ} (ha : a % 4 = 0) (hx : pgrounddown x ≠ pgrounddown a) :
    (m.store a w).byte x = m.byte x := by
  refine store32_of_notMem ?_
  by_contra hc
  apply hx
  have h1 := pgrounddown_le a
  have h2 := lt_pgrounddown_add a
  have h3 := pgrounddown_mod a
  exact (pgrounddown_eq_iff (pgrounddown_mod a)).mpr (by omega)

theorem pgrounddown_slot {j : ℕ} (hp : p % 4096 = 0) (hj : j < 1024) :
    pgrounddown (p + 4 * j) = p :=
  (pgrounddown_eq_iff hp).mpr (by omega)

theorem setPage_byte {c : UInt8} (hp : p % 4096 = 0) (hx : pgrounddown x ≠ p) :
    (m.setPage p c).byte x = m.byte x := by
  refine fill_of_notMem ?_
  by_contra hc
  exact hx ((pgrounddown_eq_iff hp).mpr (by simp only [pgsize] at hc; omega))

theorem copyPage_byte {q : ℕ} (hp : p % 4096 = 0) (hx : pgrounddown x ≠ p) :
    (m.copyPage p q).byte x = m.byte x := by
  refine blit_of_notMem ?_
  by_contra hc
  exact hx ((pgrounddown_eq_iff hp).mpr (by simp only [pgsize] at hc; omega))

/-- What the directory holds after storing an entry: what it held elsewhere, and the new page. -/
theorem holds_store (h : WF m d) (ht : HasTable m d (pdx va)) (hva : va < 2 ^ 32)
    (hw : w < 2 ^ 32) {r : Role} (hf : Holds (m.store (pgtab m d (pdx va) + 4 * ptx va) w) d f r) :
    (Holds m d f r ∧ r ≠ .user (pgrounddown va)) ∨
      (f = pteAddr w ∧ r = .user (pgrounddown va) ∧ va < 0x80000000 ∧ w &&& pteP ≠ 0) := by
  obtain ⟨hpde, hpte⟩ := pteOf_store h.pageDir ht hw
  cases hf with
  | dir => exact .inl ⟨.dir, by simp⟩
  | table hi hti =>
    refine .inl ⟨?_, by simp⟩
    rw [pgtab, hpde _ hi]
    exact .table hi (by simpa only [HasTable, hpde _ hi] using hti)
  | @user va' ha' hv' hp' =>
    rw [pageOf, hpte]
    simp only [Present, hpte] at hp'
    by_cases hsame : pdx va' = pdx va ∧ ptx va' = ptx va
    · rw [if_pos hsame] at hp' ⊢
      have heq := pgrounddown_eq_of_index (by omega) hva hsame.1 hsame.2
      rw [pgrounddown_of_mod ha'] at heq
      have hlt := lt_pgrounddown_add va
      exact .inr ⟨rfl, by rw [heq], by omega, hp'⟩
    · rw [if_neg hsame] at hp' ⊢
      refine .inl ⟨.user ha' hv' hp', fun he => hsame ?_⟩
      rw [Role.user.inj he]
      exact ⟨pdx_pgrounddown va, ptx_pgrounddown va⟩

/-- A frame that is neither free nor in use by the directory. -/
structure Fresh (m : PhysMem) (d f : ℕ) : Prop where
  isFrame : IsFrame f
  notFree : f ∉ m.freelist
  notHeld : ∀ r, ¬ Holds m d f r

/-- Storing an entry that is absent, that maps a fresh page, or that belongs to the kernel's part
keeps the directory well formed. -/
theorem WF.store (h : WF m d) (ht : HasTable m d (pdx va)) (hva : va < 2 ^ 32)
    (hw : w < 2 ^ 32) (hfresh : va < 0x80000000 → w &&& pteP ≠ 0 → Fresh m d (pteAddr w)) :
    WF (m.store (pgtab m d (pdx va) + 4 * ptx va) w) d where
  free := ⟨h.free.nodup, h.free.isFrame, h.free.cnt⟩
  isFrame hf := by
    rcases holds_store h ht hva hw hf with ⟨hf, -⟩ | ⟨rfl, -, hv, hp⟩
    · exact h.isFrame hf
    · exact (hfresh hv hp).isFrame
  unique hf hf' := by
    rcases holds_store h ht hva hw hf with ⟨hf, -⟩ | ⟨rfl, rfl, hv, hp⟩ <;>
      rcases holds_store h ht hva hw hf' with ⟨hf', -⟩ | ⟨he, rfl, hv', hp'⟩
    · exact h.unique hf hf'
    · exact absurd (he ▸ hf) ((hfresh hv' hp').notHeld _)
    · exact absurd hf' ((hfresh hv hp).notHeld _)
    · rfl
  notFree hf := by
    rcases holds_store h ht hva hw hf with ⟨hf, -⟩ | ⟨rfl, -, hv, hp⟩
    · exact h.notFree hf
    · exact (hfresh hv hp).notFree
  pdeFlags hi' ht' := by
    have hpde := (pteOf_store h.pageDir ht hw).1 _ hi'
    rw [HasTable, hpde] at ht'
    rw [hpde]
    exact h.pdeFlags hi' ht'

/-! ### Allocating a page table -/

/-- The page `t`, zeroed, becomes the table of the `i`-th region. -/
def addTable (m : PhysMem) (d i t : ℕ) : PhysMem :=
  (m.setPage t 0).store (d + 4 * i) (t ||| (pteW ||| pteU) ||| pteP)

/-- A page that is neither the directory nor one of its tables. -/
structure Spare (m : PhysMem) (d t : ℕ) : Prop where
  isFrame : IsFrame t
  ne_dir : t ≠ d
  ne_pgtab : ∀ k, k < 1024 → HasTable m d k → pgtab m d k ≠ t

theorem Fresh.spare (h : Fresh m d t) : Spare m d t :=
  ⟨h.isFrame, fun he => h.notHeld .dir (he ▸ Holds.dir),
    fun _ hk ht he => h.notHeld _ (he ▸ Holds.table hk ht)⟩

theorem addTable_byte (hd : d % 4096 = 0) (hi : i < 1024) (ht : t % 4096 = 0)
    (hx : pgrounddown x ≠ d) (hx' : pgrounddown x ≠ t) : (addTable m d i t).byte x = m.byte x := by
  rw [addTable, store_byte (by omega) (by rwa [pgrounddown_slot hd hi]), setPage_byte ht hx']

theorem newTable_view (hd : d % 4096 = 0)
    (htab : ∀ {k}, k < 1024 → HasTable m d k → pgtab m d k ≠ d) (hi : i < 1024)
    (hn : ¬ HasTable m d i) (hspare : Spare m d t) :
    (∀ k, k < 1024 → pde (addTable m d i t) d k =
        if k = i then t ||| (pteW ||| pteU) ||| pteP else pde m d k) ∧
      ∀ va, pteOf (addTable m d i t) d va = pteOf m d va := by
  have htm := hspare.isFrame.mod
  have hne := hspare.ne_dir
  have hwlt : t ||| (pteW ||| pteU) ||| pteP < 2 ^ 32 :=
    entry_lt htm (by have := hspare.isFrame.lt; omega) (by decide)
  have hpde : ∀ k, k < 1024 → pde (addTable m d i t) d k =
      if k = i then t ||| (pteW ||| pteU) ||| pteP else pde m d k := by
    intro k hk
    by_cases hki : k = i
    · subst hki
      rw [if_pos rfl]
      exact load32_store32_self hwlt
    · rw [if_neg hki]
      refine (load32_store32_of_ne (by omega) (by omega) (by omega)).trans ?_
      exact load32_congr fun x hx hx' => setPage_byte htm (by
        rw [(pgrounddown_eq_iff hd).mpr (by omega)]
        exact hne.symm)
  refine ⟨hpde, fun va => ?_⟩
  have hk := pdx_lt va
  have hj := ptx_lt va
  have hent := hpde _ hk
  by_cases hki : pdx va = i
  · -- the new table is all zero, which is what an absent table reads as
    rw [if_pos hki] at hent
    have hhas : HasTable (addTable m d i t) d (pdx va) := by
      rw [HasTable, hent]
      exact entry_present htm (by decide)
    rw [pteOf_of_hasTable hhas, pteOf_of_not_hasTable (hki ▸ hn), pgtab, hent,
      pteAddr_entry htm (by decide)]
    refine (load32_store32_of_ne (by omega) (by omega) (by omega)).trans ?_
    exact load32_fill_zero (by omega) (by simp only [pgsize]; omega)
  · rw [if_neg hki] at hent
    have hiff : HasTable (addTable m d i t) d (pdx va) ↔ HasTable m d (pdx va) := by
      simp only [HasTable, hent]
    by_cases hhas : HasTable m d (pdx va)
    · rw [pteOf_of_hasTable hhas, pteOf_of_hasTable (hiff.mpr hhas), pgtab, hent, ← pgtab]
      refine load32_congr fun x hx hx' => ?_
      have hslot : pgrounddown x = pgtab m d (pdx va) :=
        (pgrounddown_eq_iff (pgtab_mod m d _)).mpr (by omega)
      refine addTable_byte hd hi htm ?_ ?_
      · rw [hslot]; exact htab hk hhas
      · rw [hslot]; exact hspare.ne_pgtab _ hk hhas
    · rw [pteOf_of_not_hasTable hhas, pteOf_of_not_hasTable (mt hiff.mp hhas)]

/-- What a memory looks like after a directory gained page tables from the free list and nothing
else: mappings read as before, and only the directory page and pages that were free changed. -/
structure Grows (m m' : PhysMem) (d : ℕ) : Prop where
  wf : WF m' d
  pteOf : ∀ va, pteOf m' d va = pteOf m d va
  pde : ∀ i, i < 1024 → HasTable m d i → pde m' d i = pde m d i
  sub : ∀ f r, Holds m' d f r → Holds m d f r ∨ f ∈ m.freelist
  freelist : m'.freelist <:+ m.freelist
  byte : ∀ a, pgrounddown a ≠ d → pgrounddown a ∉ m.freelist → m'.byte a = m.byte a

theorem Grows.fresh (h : Grows m m' d) (hf : Fresh m d f) : Fresh m' d f where
  isFrame := hf.isFrame
  notFree hin := hf.notFree (h.freelist.subset hin)
  notHeld r hr := (h.sub f r hr).elim (hf.notHeld r) hf.notFree

theorem WF.kalloc_some (h : WF m d) (hk : kalloc m = (some f, m')) : WF m' d ∧ Fresh m' d f := by
  obtain ⟨hbyte, hlist, hcnt, -⟩ := kalloc_eq_some hk
  have hview : SameView m m' d := h.sameView fun a _ => by rw [hbyte]
  have hnd := h.free.nodup
  rw [hlist] at hnd
  have hfree : FreeOk m' := by
    refine ⟨hnd.of_cons, fun g hg => h.free.isFrame g ?_, ?_⟩
    · rw [hlist]; exact List.mem_cons_of_mem _ hg
    · rw [hcnt, h.free.cnt, hlist]; simp
  have hf : f ∈ m.freelist := by rw [hlist]; exact List.mem_cons_self
  refine ⟨h.of_sameView hview hfree fun g hg => ?_, h.free.isFrame f hf, ?_, fun r hr => ?_⟩
  · rw [hlist]; exact List.mem_cons_of_mem _ hg
  · exact (List.nodup_cons.mp hnd).1
  · exact h.notFree (hview.holds hr) hf

theorem WF.kalloc_none (h : WF m d) (hk : kalloc m = (none, m')) : WF m' d := by
  obtain ⟨hbyte, hlist, hcnt, -⟩ := kalloc_eq_none hk
  refine h.of_sameView (h.sameView fun a _ => by rw [hbyte]) ⟨?_, ?_, ?_⟩ fun f hf => ?_
  · rw [hlist]; exact h.free.nodup
  · rw [hlist]; exact h.free.isFrame
  · rw [hcnt, hlist]; exact h.free.cnt
  · rwa [hlist] at hf

theorem Grows.newTable (h : WF m d) (hi : i < 1024) (hn : ¬ HasTable m d i)
    (hfresh : Fresh m d t) {m₀ : PhysMem} (hbyte : m.byte = m₀.byte)
    (hlist : m₀.freelist = t :: m.freelist) :
    Grows m₀ (addTable m d i t) d := by
  obtain ⟨hpde, hpte⟩ := newTable_view h.dir_mod h.pgtab_ne_dir hi hn hfresh.spare
  have htm := hfresh.isFrame.mod
  have hview : SameView m₀ m d := .of_eq hbyte
  -- the only frame held that was not held before is the new table
  have hholds : ∀ f r, Holds (addTable m d i t) d f r →
      Holds m d f r ∨ (f = t ∧ r = .table i) := by
    intro f r hf
    cases hf with
    | dir => exact .inl .dir
    | @table k hk htk =>
      by_cases hki : k = i
      · subst hki
        refine .inr ⟨?_, rfl⟩
        rw [pgtab, hpde _ hk, if_pos rfl, pteAddr_entry htm (by decide)]
      · have hent := hpde _ hk
        rw [if_neg hki] at hent
        rw [pgtab, hent]
        exact .inl (.table hk (by rwa [HasTable, hent] at htk))
    | user ha hv hp =>
      rw [pageOf, hpte]
      exact .inl (.user ha hv (by rwa [Present, hpte] at hp))
  refine ⟨⟨⟨h.free.nodup, h.free.isFrame, h.free.cnt⟩, fun hf => ?_, fun hf hf' => ?_,
    fun hf => ?_, fun {k} hk htk => ?_⟩, fun va => ?_, fun k hk hk' => ?_, fun f r hf => ?_, ?_,
    fun a ha ha' => ?_⟩
  · rcases hholds _ _ hf with hf | ⟨rfl, -⟩
    · exact h.isFrame hf
    · exact hfresh.isFrame
  · rcases hholds _ _ hf with hf | ⟨rfl, rfl⟩ <;> rcases hholds _ _ hf' with hf' | ⟨he, rfl⟩
    · exact h.unique hf hf'
    · exact absurd (he ▸ hf) (hfresh.notHeld _)
    · exact absurd hf' (hfresh.notHeld _)
    · rfl
  · rcases hholds _ _ hf with hf | ⟨rfl, -⟩
    · exact h.notFree hf
    · exact hfresh.notFree
  · rw [hpde k hk]
    by_cases hki : k = i
    · rw [if_pos hki, pteFlags_entry htm (by decide)]
      decide
    · rw [HasTable, hpde k hk, if_neg hki] at htk
      rw [if_neg hki]
      exact h.pdeFlags hk htk
  · rw [hpte, hview.pteOf]
  · have hki : k ≠ i := by
      rintro rfl
      exact hn ((hview.hasTable hk).mpr hk')
    rw [hpde _ hk, if_neg hki, hview.pde k hk]
  · rcases hholds _ _ hf with hf | ⟨rfl, -⟩
    · exact .inl (hview.holds hf)
    · exact .inr (by rw [hlist]; exact List.mem_cons_self)
  · rw [hlist]; exact List.suffix_cons _ _
  · rw [hlist, List.mem_cons, not_or] at ha'
    rw [addTable_byte h.dir_mod hi htm ha ha'.1, hbyte]

theorem Grows.of_same (h : WF m' d) (hbyte : m'.byte = m.byte) (hlist : m'.freelist = m.freelist) :
    Grows m m' d := by
  have hview : SameView m m' d := .of_eq hbyte
  exact ⟨h, hview.pteOf, fun i hi _ => hview.pde i hi, fun f r hf => .inl (hview.holds hf),
    hlist ▸ List.suffix_refl _, fun a _ _ => by rw [hbyte]⟩

variable {r : Option ℕ}

theorem walkpgdir_true_cases (hw : walkpgdir m d va true = (r, m')) :
    (m' = m ∧ r = some (pgtab m d (pdx va) + 4 * ptx va) ∧ HasTable m d (pdx va)) ∨
      ¬ HasTable m d (pdx va) ∧ ((r = none ∧ kalloc m = (none, m')) ∨
        ∃ t m₁, kalloc m = (some t, m₁) ∧ r = some (t + 4 * ptx va) ∧
          m' = addTable m₁ d (pdx va) t) := by
  by_cases ht : HasTable m d (pdx va)
  · rw [walkpgdir_of_hasTable ht] at hw
    cases hw
    exact .inl ⟨rfl, rfl, ht⟩
  · have ht' : ¬ (m.load (d + 4 * pdx va) &&& pteP ≠ 0) := ht
    simp only [walkpgdir, if_neg ht', Bool.not_true, Bool.false_eq_true, if_false] at hw
    rcases hk : kalloc m with ⟨_ | t, m₁⟩ <;> simp only [hk, Prod.mk.injEq] at hw <;>
      obtain ⟨rfl, rfl⟩ := hw
    · exact .inr ⟨ht, .inl ⟨rfl, rfl⟩⟩
    · exact .inr ⟨ht, .inr ⟨t, m₁, rfl, rfl, by simp only [addTable, Nat.or_assoc]; rfl⟩⟩

theorem PageDir.of_pde (h : PageDir m d) (hpde : ∀ i, i < 1024 → pde m' d i = pde m d i)
    (hlist : m'.freelist = m.freelist) (hcnt : m'.freeFrameCnt = m.freeFrameCnt) :
    PageDir m' d := by
  have htab : ∀ {i}, i < 1024 → HasTable m' d i → HasTable m d i ∧ pgtab m' d i = pgtab m d i :=
    fun hi ht => ⟨by rwa [HasTable, hpde _ hi] at ht, by rw [pgtab, hpde _ hi, pgtab]⟩
  refine ⟨⟨hlist ▸ h.free.nodup, hlist ▸ h.free.isFrame, by rw [hcnt, hlist, h.free.cnt]⟩,
    h.dir_mod, hlist ▸ h.dir_notFree, fun hi ht => ?_, fun hi hj hti htj => ?_, fun hi ht => ?_⟩
  · rw [(htab hi ht).2]
    exact h.pgtab_ne_dir hi (htab hi ht).1
  · rw [(htab hi hti).2, (htab hj htj).2]
    exact h.pgtab_inj hi hj (htab hi hti).1 (htab hj htj).1
  · rw [(htab hi ht).2, hlist]
    exact h.pgtab_notFree hi (htab hi ht).1

theorem PageDir.walkpgdir (h : PageDir m d) (hw : walkpgdir m d va true = (r, m')) :
    PageDir m' d ∧ (∀ x, pteOf m' d x = pteOf m d x) ∧
      (∀ k, k < 1024 → k ≠ pdx va → pde m' d k = pde m d k) ∧
      (r = none ∧ m'.failures = m.failures + 1 ∨ r = some (pgtab m' d (pdx va) + 4 * ptx va) ∧
        HasTable m' d (pdx va) ∧ m'.failures = m.failures) := by
  obtain ⟨rfl, rfl, ht⟩ | ⟨ht, ⟨rfl, hk⟩ | ⟨t, m₁, hk, rfl, rfl⟩⟩ := walkpgdir_true_cases hw
  · exact ⟨h, fun _ => rfl, fun _ _ _ => rfl, .inr ⟨rfl, ht, rfl⟩⟩
  · obtain ⟨hbyte, hlist, hcnt, hfail⟩ := kalloc_eq_none hk
    have hview : SameView m m' d := .of_eq hbyte
    exact ⟨h.of_pde hview.pde hlist hcnt, hview.pteOf, fun k hk _ => hview.pde k hk,
      .inl ⟨rfl, hfail⟩⟩
  obtain ⟨hbyte, hlist, hcnt, hfail⟩ := kalloc_eq_some hk
  -- the table is a page that was free
  have hview : SameView m m₁ d := .of_eq hbyte
  have hmem : t ∈ m.freelist := by simp [hlist]
  have hspare : Spare m₁ d t := by
    refine ⟨h.free.isFrame t hmem, fun he => h.dir_notFree (he ▸ hmem), fun k hk htk he => ?_⟩
    rw [hview.pgtab hk] at he
    exact h.pgtab_notFree hk ((hview.hasTable hk).mp htk) (he ▸ hmem)
  have hpd := pdx_lt va
  obtain ⟨hpde, hpte⟩ := newTable_view h.dir_mod (fun hk htk => by
    rw [hview.pgtab hk]
    exact h.pgtab_ne_dir hk ((hview.hasTable hk).mp htk)) hpd (mt (hview.hasTable hpd).mp ht) hspare
  set m₂ := addTable m₁ d (pdx va) t
  have hent := hpde _ hpd
  rw [if_pos rfl] at hent
  have hnew : pgtab m₂ d (pdx va) = t := by
    rw [pgtab, hent, pteAddr_entry hspare.isFrame.mod (by decide)]
  have hsame : ∀ k, k < 1024 → k ≠ pdx va → pde m₂ d k = pde m d k := fun k hk hki => by
    rw [hpde k hk, if_neg hki, hview.pde k hk]
  have hold : ∀ k, k < 1024 → HasTable m₂ d k → k ≠ pdx va →
      HasTable m d k ∧ pgtab m₂ d k = pgtab m d k := fun k hk htk hki => by
    rw [HasTable, hsame k hk hki] at htk
    rw [pgtab, hsame k hk hki]
    exact ⟨htk, rfl⟩
  have hother : ∀ k, k < 1024 → HasTable m₂ d k → pgtab m₂ d k = t → k = pdx va := by
    intro k hk htk he
    by_contra hki
    obtain ⟨htk, hpg⟩ := hold k hk htk hki
    exact h.pgtab_notFree hk htk (hpg ▸ he ▸ hmem)
  have hnodup : (t :: m₁.freelist).Nodup := hlist ▸ h.free.nodup
  have hsub : ∀ f, f ∉ m.freelist → f ∉ m₂.freelist := fun f hf => by
    rw [hlist] at hf
    exact fun hin => hf (List.mem_cons_of_mem _ hin)
  refine ⟨⟨⟨hnodup.of_cons, fun f hf => h.free.isFrame f ?_, ?_⟩, h.dir_mod, hsub d h.dir_notFree,
    fun {k} hk htk => ?_, fun {i j} hi hj hti htj he => ?_, fun {k} hk htk => ?_⟩,
    fun x => (hpte x).trans (hview.pteOf x), hsame, .inr ⟨by rw [hnew], ?_, hfail⟩⟩
  · rw [hlist]
    exact List.mem_cons_of_mem _ hf
  · have hcnt₀ := h.free.cnt
    rw [hlist, List.length_cons] at hcnt₀
    change m₁.freeFrameCnt = m₁.freelist.length
    omega
  · by_cases hki : k = pdx va
    · rw [hki, hnew]
      exact hspare.ne_dir
    · rw [(hold k hk htk hki).2]
      exact h.pgtab_ne_dir hk (hold k hk htk hki).1
  · by_cases hii : i = pdx va
    · rw [hii, hnew] at he
      rw [hii, hother j hj htj he.symm]
    by_cases hjj : j = pdx va
    · rw [hjj, hnew] at he
      rw [hjj, hother i hi hti he]
    · obtain ⟨hti', hpi⟩ := hold i hi hti hii
      obtain ⟨htj', hpj⟩ := hold j hj htj hjj
      exact h.pgtab_inj hi hj hti' htj' (hpi.symm.trans (he.trans hpj))
  · by_cases hki : k = pdx va
    · rw [hki, hnew]
      exact (List.nodup_cons.mp hnodup).1
    · rw [(hold k hk htk hki).2]
      exact hsub _ (h.pgtab_notFree hk (hold k hk htk hki).1)
  · rw [HasTable, hent]
    exact entry_present hspare.isFrame.mod (by decide)

theorem walkpgdir_alloc_cases (h : WF m d) (hw : walkpgdir m d va true = (r, m')) : Grows m m' d ∧
      ((r = none ∧ (¬ HasTable m d (pdx va) ∧ ¬ CanAlloc m 1) ∧ m'.byte = m.byte ∧
          m'.freelist = m.freelist ∧ m'.failures = m.failures + 1 ∧ m'.starve = m.starve.tail) ∨
        (r = some (pgtab m' d (pdx va) + 4 * ptx va) ∧ HasTable m' d (pdx va) ∧
          Draws m m' (if HasTable m d (pdx va) then 0 else 1) ∧
          ∀ k, k < 1024 → k ≠ pdx va → (HasTable m' d k ↔ HasTable m d k))) := by
  obtain ⟨rfl, rfl, ht⟩ | ⟨ht, ⟨rfl, hk⟩ | ⟨t, m₁, hk, rfl, rfl⟩⟩ := walkpgdir_true_cases hw
  · exact ⟨.of_same h rfl rfl, .inr ⟨rfl, ht, by rw [if_pos ht]; exact .refl _,
      fun _ _ _ => Iff.rfl⟩⟩
  · obtain ⟨hbyte, hlist, -, hfail⟩ := kalloc_eq_none hk
    exact ⟨.of_same (h.kalloc_none hk) hbyte hlist, .inl ⟨rfl,
      ⟨ht, not_canAlloc_of_none hk⟩, hbyte, hlist, hfail, kalloc_starve hk⟩⟩
  · obtain ⟨hbyte, hlist, -⟩ := kalloc_eq_some hk
    obtain ⟨hwf, hfresh⟩ := h.kalloc_some hk
    obtain ⟨-, -, hpde, ⟨hr, -⟩ | ⟨hr, ht', -⟩⟩ := h.pageDir.walkpgdir hw
    · cases hr
    have hn : ¬ HasTable m₁ d (pdx va) := mt ((SameView.of_eq hbyte).hasTable (pdx_lt va)).mp ht
    refine ⟨.newTable hwf (pdx_lt va) hn hfresh hbyte hlist, .inr ⟨hr, ht', ?_, fun k hk hne => ?_⟩⟩
    · rw [if_neg ht]
      exact (Draws.of_kalloc hk).trans (.of_byte m₁ _)
    · rw [HasTable, hpde k hk hne, HasTable]

/-! ### Mapping one page -/

/-- What a memory looks like after the entry of `va` was set to `w`, with a page table allocated
for it if there was none. -/
structure MapsPage (m m' : PhysMem) (d va w : ℕ) : Prop where
  wf : WF m' d
  pteOf : ∀ va', pteOf m' d va' =
    if pdx va' = pdx va ∧ ptx va' = ptx va then w else pteOf m d va'
  hasTable : ∀ k, k < 1024 → (HasTable m' d k ↔ HasTable m d k ∨ k = pdx va)
  holds : ∀ f r, Holds m' d f r → Holds m d f r ∨ f ∈ m.freelist ∨
    (f = pteAddr w ∧ r = .user (pgrounddown va) ∧ va < 0x80000000)
  draws : Draws m m' (if HasTable m d (pdx va) then 0 else 1)
  byte : ∀ a, pgrounddown a ≠ d → (∀ i, i < 1024 → HasTable m d i → pgrounddown a ≠ pgtab m d i) →
    pgrounddown a ∉ m.freelist → m'.byte a = m.byte a

theorem MapsPage.failures (h : MapsPage m m' d va w) : m'.failures = m.failures :=
  h.draws.failures

theorem MapsPage.of_grows {m₁ : PhysMem} (hg : Grows m m₁ d) (hva : va < 2 ^ 32)
    (ht : HasTable m₁ d (pdx va)) (hother : ∀ k, k < 1024 → k ≠ pdx va →
      (HasTable m₁ d k ↔ HasTable m d k))
    (hdraws : Draws m m₁ (if HasTable m d (pdx va) then 0 else 1)) (hw : w < 2 ^ 32)
    (hfresh : va < 0x80000000 → w &&& pteP ≠ 0 → Fresh m d (pteAddr w)) :
    MapsPage m (m₁.store (pgtab m₁ d (pdx va) + 4 * ptx va) w) d va w := by
  obtain ⟨hpde, hpte⟩ := pteOf_store hg.wf.pageDir ht hw
  have hi := pdx_lt va
  have htm := pgtab_mod m₁ d (pdx va)
  refine ⟨hg.wf.store ht hva hw fun hv hp => hg.fresh (hfresh hv hp), fun va' => ?_,
    fun k hk => ?_, fun f r hf => ?_, hdraws.trans (.of_byte m₁ _), fun a had hat haf => ?_⟩
  · rw [hpte, hg.pteOf]
  · rw [HasTable, hpde k hk, ← HasTable]
    by_cases hkv : k = pdx va
    · subst hkv; simp [ht]
    · simp [hother k hk hkv, hkv]
  · rcases holds_store hg.wf ht hva hw hf with ⟨hf, -⟩ | ⟨hf, hr, hv, -⟩
    · exact (hg.sub f r hf).imp_right .inl
    · exact .inr (.inr ⟨hf, hr, hv⟩)
  · rw [store_byte (by omega), hg.byte a had haf]
    rw [pgrounddown_slot htm (ptx_lt va)]
    intro he
    -- the table is one the directory had, or one that was free
    rcases hg.sub _ _ (.table hi ht) with hold | hfree
    · obtain ⟨hk, htk, hpg⟩ := hold.of_table
      exact hat _ hk htk (he.trans hpg)
    · exact haf (he ▸ hfree)

/-- One round of `mappages`: the page is present and it panics; there is no page table and none to
be had; or it sets the entry and goes on. -/
theorem mappagesLoop_step (h : WF m d) (hva : va < 2 ^ 32) (hpa : pa % 4096 = 0) (hlt : pa < 2 ^ 32)
    (hperm : perm < 4096) (hfresh : va < 0x80000000 → Fresh m d pa) (n last : ℕ) :
    (Present m d va ∧ mappagesLoop (n + 1) m d va last pa perm = .error .remap) ∨
      (¬ Present m d va ∧ (¬ HasTable m d (pdx va) ∧ ¬ CanAlloc m 1) ∧
        ∃ m', mappagesLoop (n + 1) m d va last pa perm = .ok (-1, m') ∧ Grows m m' d ∧
          m'.byte = m.byte ∧ m'.freelist = m.freelist ∧ m'.failures = m.failures + 1 ∧
          m'.starve = m.starve.tail) ∨
      (¬ Present m d va ∧ ∃ m', MapsPage m m' d va (pa ||| perm ||| pteP) ∧
        mappagesLoop (n + 1) m d va last pa perm = if va = last then .ok (0, m')
          else mappagesLoop n m' d (u32 (va + pgsize)) last (u32 (pa + pgsize)) perm) := by
  rw [mappagesLoop]
  rcases hw : walkpgdir m d va true with ⟨r, m₁⟩
  obtain ⟨hg, ⟨rfl, hn, hbyte, hlist, hfail⟩ | ⟨rfl, ht, hdraws, hother⟩⟩ :=
    walkpgdir_alloc_cases h hw
  · exact .inr (.inl ⟨fun hp => hn.1 hp.hasTable, hn, m₁, rfl, hg, hbyte, hlist, hfail⟩)
  · have hload : m₁.load (pgtab m₁ d (pdx va) + 4 * ptx va) = pteOf m d va := by
      rw [← pteOf_of_hasTable ht, hg.pteOf]
    simp only [hload]
    by_cases hp : Present m d va
    · exact .inl ⟨hp, if_pos hp⟩
    · refine .inr (.inr ⟨hp, m₁.store (pgtab m₁ d (pdx va) + 4 * ptx va) (pa ||| perm ||| pteP),
        .of_grows hg hva ht hother hdraws (entry_lt hpa hlt hperm) fun hv _ => ?_,
        if_neg (by exact hp)⟩)
      rw [pteAddr_entry hpa hperm]
      exact hfresh hv

/-- **Mapping one page.** Either the page is present and the call panics, or it is not and the
call fails for want of a page table, or it sets the entry. -/
theorem mappages_page (h : WF m d) (ha : va % 4096 = 0) (hva : va < 2 ^ 32) (hpa : pa % 4096 = 0)
    (hlt : pa < 2 ^ 32) (hperm : perm < 4096) (hfresh : va < 0x80000000 → Fresh m d pa) :
    (Present m d va ∧ mappages m d va pgsize pa perm = .error .remap) ∨
      (¬ Present m d va ∧ (¬ HasTable m d (pdx va) ∧ ¬ CanAlloc m 1) ∧
        ∃ m', mappages m d va pgsize pa perm = .ok (-1, m') ∧ Grows m m' d ∧ m'.byte = m.byte ∧
          m'.freelist = m.freelist ∧ m'.failures = m.failures + 1 ∧ m'.starve = m.starve.tail) ∨
      (¬ Present m d va ∧ ∃ m', mappages m d va pgsize pa perm = .ok (0, m') ∧
        MapsPage m m' d va (pa ||| perm ||| pteP)) := by
  have hfirst : pgrounddown va = va := pgrounddown_of_mod ha
  have hlast : pgrounddown (u32 (va + pgsize + 4294967295)) = va := by
    simp only [pgrounddown, u32, pgsize]; omega
  rw [mappages, hfirst, hlast]
  obtain hrem | hfail | ⟨hp, m', hm, hloop⟩ :=
    mappagesLoop_step h hva hpa hlt hperm hfresh 1048575 va
  · exact .inl hrem
  · exact .inr (.inl hfail)
  · exact .inr (.inr ⟨hp, m', hloop.trans (if_pos rfl), hm⟩)

/-! ### Mapping a range -/

theorem index_eq_iff (ha : a % 4096 = 0) (halt : a < 2 ^ 32) (hx : x < 2 ^ 32) :
    pdx x = pdx a ∧ ptx x = ptx a ↔ a ≤ x ∧ x < a + 4096 := by
  simp only [pdx, ptx, pgsize, npdentries, nptentries]
  omega

theorem index_iff_page (ha : a % 4096 = 0) (halt : a < 2 ^ 32) (hx : x < 2 ^ 32) :
    pdx x = pdx a ∧ ptx x = ptx a ↔ pgrounddown x = a :=
  (index_eq_iff ha halt hx).trans (pgrounddown_eq_iff ha).symm

/-- The pages from `a` to `e` are mapped to those from `pa` on, and nothing else has changed. -/
def MapsTo (m m' : PhysMem) (d a e pa perm : ℕ) : Prop :=
  ∀ x, x < 2 ^ 32 → pteOf m' d x =
    if a ≤ x ∧ pgrounddown x < e then u32 (pa + (pgrounddown x - a)) ||| perm ||| pteP
    else pteOf m d x

theorem MapsTo.trans {m₁ : PhysMem} {e : ℕ} (h : MapsTo m m₁ d a (a + 4096) pa perm)
    (h' : MapsTo m₁ m' d (a + 4096) e (u32 (pa + 4096)) perm) (ha : a % 4096 = 0)
    (he : a + 4096 ≤ e) : MapsTo m m' d a e pa perm := by
  intro x hx
  have hmod := pgrounddown_mod x
  have hle := pgrounddown_le x
  have hlt := lt_pgrounddown_add x
  rw [h' x hx, h x hx]
  by_cases hfirst : a ≤ x ∧ pgrounddown x < a + 4096
  · rw [if_neg (by omega), if_pos hfirst, if_pos (by omega)]
  · rw [if_neg hfirst]
    by_cases hrest : a + 4096 ≤ x ∧ pgrounddown x < e
    · rw [if_pos hrest, if_pos (by omega),
        show u32 (u32 (pa + 4096) + (pgrounddown x - (a + 4096))) =
        u32 (pa + (pgrounddown x - a)) by simp only [u32]; omega]
    · rw [if_neg hrest, if_neg (by omega)]

variable {a pa perm : ℕ}

theorem PageDir.mappagesLoop_succ (h : PageDir m d) (ha : a % 4096 = 0) (halt : a < 2 ^ 32)
    (hpa : pa < 2 ^ 32) (hperm : perm < 2 ^ 32) (hp : ¬ Present m d a) (n last : ℕ) :
    ∃ m', PageDir m' d ∧
      ((mappagesLoop (n + 1) m d a last pa perm = .ok (-1, m') ∧ m'.failures = m.failures + 1 ∧
          MapsTo m m' d a a pa perm) ∨
        m'.failures = m.failures ∧ MapsTo m m' d a (a + 4096) pa perm ∧
          mappagesLoop (n + 1) m d a last pa perm = if a = last then .ok (0, m')
            else mappagesLoop n m' d (u32 (a + pgsize)) last (u32 (pa + pgsize)) perm) := by
  rw [mappagesLoop]
  rcases hw : Xv6.walkpgdir m d a true with ⟨r, m₁⟩
  obtain ⟨h₁, hpte, -, ⟨rfl, hfail⟩ | ⟨rfl, ht, hfail⟩⟩ := h.walkpgdir hw
  · refine ⟨m₁, h₁, .inl ⟨rfl, hfail, fun x _ => ?_⟩⟩
    have hmod := pgrounddown_mod x
    have hlt := lt_pgrounddown_add x
    rw [hpte, if_neg (by omega)]
  · have hlt : pa ||| perm ||| pteP < 2 ^ 32 :=
      Nat.or_lt_two_pow (Nat.or_lt_two_pow hpa hperm) (by decide)
    obtain ⟨hpde, hstore⟩ := pteOf_store h₁ ht hlt
    refine ⟨m₁.store (pgtab m₁ d (pdx a) + 4 * ptx a) (pa ||| perm ||| pteP),
      h₁.of_pde hpde rfl rfl, .inr ⟨hfail, fun x hx => ?_, ?_⟩⟩
    · have hmod := pgrounddown_mod x
      have hle := pgrounddown_le x
      have hlt := lt_pgrounddown_add x
      rw [hstore, hpte, if_congr (index_eq_iff ha halt hx) rfl rfl]
      by_cases hin : a ≤ x ∧ x < a + 4096
      · rw [if_pos hin, if_pos (by omega),
          show pgrounddown x = a by omega, Nat.sub_self, Nat.add_zero,
          show u32 pa = pa from Nat.mod_eq_of_lt hpa]
      · rw [if_neg hin, if_neg (by omega)]
    · simp only [← pteOf_of_hasTable ht, hpte]
      exact if_neg hp

theorem PageDir.mappagesLoop (h : PageDir m d) (hperm : perm < 2 ^ 32) (k : ℕ) {n : ℕ} (hn : k < n)
    (ha : a % 4096 = 0) (hend : a + (k + 1) * 4096 ≤ 2 ^ 32) (hpa : pa < 2 ^ 32)
    (habs : ∀ x, a ≤ x → x < a + (k + 1) * 4096 → ¬ Present m d x) :
    ∃ r m', mappagesLoop n m d a (a + k * 4096) pa perm = .ok (r, m') ∧ PageDir m' d ∧
      ∃ e, (r = 0 ∧ m'.failures = m.failures ∧ e = k + 1 ∨
        r = -1 ∧ m'.failures = m.failures + 1 ∧ e ≤ k) ∧
        MapsTo m m' d a (a + e * 4096) pa perm := by
  induction k generalizing m a pa n with
  | zero =>
    obtain ⟨n, rfl⟩ := Nat.exists_eq_add_of_lt hn
    obtain ⟨m', h', ⟨hloop, hfail, hmaps⟩ | ⟨hfail, hmaps, hloop⟩⟩ :=
      h.mappagesLoop_succ ha (by omega) hpa hperm (habs a le_rfl (by omega)) (0 + n) (a + 0 * 4096)
    · exact ⟨-1, m', hloop, h', 0, .inr ⟨rfl, hfail, le_rfl⟩, hmaps⟩
    · exact ⟨0, m', hloop.trans (if_pos rfl), h', 1, .inl ⟨rfl, hfail, rfl⟩, hmaps⟩
  | succ k ih =>
    obtain ⟨n, rfl⟩ := Nat.exists_eq_add_of_lt hn
    have halt : a + 4096 < 2 ^ 32 := by omega
    obtain ⟨m₁, h₁, ⟨hloop, hfail, hmaps⟩ | ⟨hfail, hmaps, hloop⟩⟩ :=
      h.mappagesLoop_succ ha (by omega) hpa hperm (habs a le_rfl (by omega)) (k + 1 + n)
        (a + (k + 1) * 4096)
    · exact ⟨-1, m₁, hloop, h₁, 0, .inr ⟨rfl, hfail, Nat.zero_le _⟩, hmaps⟩
    rw [if_neg (by omega), show u32 (a + pgsize) = a + 4096 from Nat.mod_eq_of_lt halt] at hloop
    rw [show a + (k + 1) * 4096 = a + 4096 + k * 4096 by omega] at hloop ⊢
    obtain ⟨r, m', hrest, h', e, hr, hmaps'⟩ := ih h₁ (n := k + 1 + n) (a := a + 4096)
      (by omega) (by omega) (by omega) (show u32 (pa + pgsize) < 2 ^ 32 from Nat.mod_lt _
        (by decide))
      fun x hx hx' => by
        have hmod := pgrounddown_mod x
        have hlt := lt_pgrounddown_add x
        rw [Present, hmaps x (by omega), if_neg (by omega)]
        exact habs x (by omega) (by omega)
    refine ⟨r, m', ?_, h', e + 1, ?_, ?_⟩
    · rw [hloop, hrest]
    · omega
    · rw [show a + (e + 1) * 4096 = a + 4096 + e * 4096 by omega]
      exact hmaps.trans hmaps' ha (Nat.le_add_right _ _)

/-- **`mappages` is exact.** It ends. If it returns 0, the pages of the range are mapped as they
should be and nothing else has changed; if it returns −1, `kalloc` has failed, and this holds of a
first part of the range. The range may end with the last page. -/
theorem mappages_exact (h : PageDir m d) {size : ℕ} (hsize : 0 < size) (hva : va + size ≤ 2 ^ 32)
    (hpa : pa < 2 ^ 32) (hperm : perm < 2 ^ 32)
    (habs : ∀ x, pgrounddown va ≤ x → pgrounddown x < va + size → ¬ Present m d x) :
    ∃ r m', mappages m d va size pa perm = .ok (r, m') ∧
      (r = 0 ∧ m'.failures = m.failures ∧ MapsTo m m' d (pgrounddown va) (va + size) pa perm ∨
        r = -1 ∧ m'.failures = m.failures + 1 ∧
          ∃ e < va + size, MapsTo m m' d (pgrounddown va) e pa perm) := by
  obtain ⟨k, hk⟩ : ∃ k, k = (va + size - 1) / 4096 - va / 4096 := ⟨_, rfl⟩
  have hlast : pgrounddown (u32 (va + size + 4294967295)) = pgrounddown va + k * 4096 := by
    rw [hk]
    simp only [pgrounddown, u32, pgsize]
    omega
  have hend : ∀ x, pgrounddown x < pgrounddown va + (k + 1) * 4096 ↔ pgrounddown x < va + size := by
    intro x
    rw [hk]
    simp only [pgrounddown, pgsize]
    omega
  obtain ⟨r, m', hloop, -, e, hr, hmaps⟩ := h.mappagesLoop hperm k (n := npages)
    (by rw [hk, npages]; omega) (pgrounddown_mod va)
    (by rw [hk]; simp only [pgrounddown, pgsize]; omega) hpa
    fun x hx hx' => habs x hx ((hend x).mp ((pgrounddown_le x).trans_lt hx'))
  refine ⟨r, m', by rw [mappages, hlast, hloop], ?_⟩
  rcases hr with ⟨hr, hfail, rfl⟩ | ⟨hr, hfail, he⟩
  · refine .inl ⟨hr, hfail, fun x hx => ?_⟩
    rw [hmaps x hx, if_congr (and_congr_right' (hend x)) rfl rfl]
  · refine .inr ⟨hr, hfail, _, ?_, hmaps⟩
    rw [hk] at he
    simp only [pgrounddown, pgsize]
    omega

/-- Memory that is all zero, with two free pages. -/
def blank : PhysMem := ⟨fun _ => 0, [0x400000, 0x401000], 2, [], 0⟩

theorem blank_pde (d i : ℕ) : pde blank d i = 0 := by
  simp [pde, blank, load, load32]

theorem blank_pageDir : PageDir blank 0x500000 := by
  have hno : ∀ i, ¬ HasTable blank 0x500000 i := fun i => by simp [HasTable, blank_pde]
  exact ⟨⟨by decide, by decide, rfl⟩, rfl, by decide, fun _ ht => absurd ht (hno _),
    fun _ _ ht => absurd ht (hno _), fun _ ht => absurd ht (hno _)⟩

/-- The last two pages of the address space are mapped. -/
theorem mappages_exact_last : ∃ m', mappages blank 0x500000 0xFFFFE000 0x2000 0 2 = .ok (0, m') ∧
    MapsTo blank m' 0x500000 0xFFFFE000 (2 ^ 32) 0 2 := by
  have habs : ∀ x, pgrounddown 0xFFFFE000 ≤ x → pgrounddown x < 0xFFFFE000 + 0x2000 →
      ¬ Present blank 0x500000 x := fun x _ _ => by
    simp [Present, pteOf, HasTable, blank_pde]
  obtain ⟨r, m', hrun, hr⟩ :
      ∃ r m', mappages blank 0x500000 0xFFFFE000 0x2000 0 2 = .ok (r, m') ∧ _ :=
    mappages_exact blank_pageDir (by decide) (by decide) (by decide) (by decide) habs
  have hzero : (mappages blank 0x500000 0xFFFFE000 0x2000 0 2).map Prod.fst = .ok 0 := by
    decide +kernel
  rw [hrun] at hzero
  obtain rfl : r = 0 := Except.ok.inj hzero
  rcases hr with ⟨-, -, hmaps⟩ | ⟨hneg, -⟩
  · exact ⟨m', hrun, hmaps⟩
  · cases hneg

end Xv6
