import Xv6.Library.ByteMemory
import Xv6.Library.Ownership

/-!
# Physical memory and the page allocator

The constants of `mmu.h` and `memlayout.h`, physical memory as bytes, and `kalloc` and `kfree`
from `kalloc.c`.

Everything is indexed by *physical* address. The kernel reaches physical memory through the
direct map at `KERNBASE`, so its `p2v`/`v2p` conversions are the identity here: `kalloc` returns
the physical address of a page where the source returns the kernel pointer to it.

## The free list

`kmem.freelist` is a linked list threaded through the free pages. It is a `List` of page addresses
here; nothing reads a free page, so the link words are not written into it.

## When `kalloc` returns 0

On one CPU `kalloc` returns 0 when the list is empty. With several, it may find the list empty
because the others hold the last pages, and find pages again a moment later. `starve` is the
schedule of such moments: each call consumes one entry, and `true` makes it return 0 whatever the
list holds. `failures` counts the calls that returned 0, so that a statement can ask for runs
without one.
-/

namespace Xv6

open ByteMemory

/-! ### Layout constants -/

/-- `PGSIZE`: bytes mapped by a page. -/
abbrev pgsize : ℕ := 4096
/-- `NPDENTRIES`: entries of a page directory. -/
abbrev npdentries : ℕ := 1024
/-- `NPTENTRIES`: entries of a page table. -/
abbrev nptentries : ℕ := 1024
/-- `KERNBASE`: the first kernel virtual address. -/
abbrev kernbase : ℕ := 0x80000000
/-- `EXTMEM`: the start of extended memory. -/
abbrev extmem : ℕ := 0x100000
/-- `KERNLINK`: the address where the kernel is linked. -/
abbrev kernlink : ℕ := kernbase + extmem
/-- `PHYSTOP`: the top of physical memory. -/
abbrev phystop : ℕ := 0xE000000
/-- `DEVSPACE`: memory-mapped devices are from here on. -/
abbrev devspace : ℕ := 0xFE000000
/-- `V2P(data)`, the linker symbol of `kernel.ld`, at the value `kernel.sym` records. It is page
aligned by the `ALIGN` in front of it. -/
abbrev dataPhys : ℕ := 0x10a000
/-- `V2P(end)`, the first physical address after the loaded kernel, likewise. -/
abbrev endPhys : ℕ := 0x116360

/-- `PTE_P`: present. -/
abbrev pteP : ℕ := 1
/-- `PTE_W`: writeable. -/
abbrev pteW : ℕ := 2
/-- `PTE_U`: user. -/
abbrev pteU : ℕ := 4

/-- The value of a C expression of type `uint`. -/
def u32 (n : ℕ) : ℕ := n % 4294967296

/-- The value of a C expression of type `uint` computed from a signed operand. -/
def u32i (n : ℤ) : ℕ := (n % 4294967296).toNat

/-- `PGROUNDUP(sz)`. -/
def pgroundup (sz : ℕ) : ℕ := u32 (sz + pgsize - 1) / pgsize * pgsize

/-- `PGROUNDDOWN(a)`. -/
def pgrounddown (a : ℕ) : ℕ := a / pgsize * pgsize

/-- `PDX(va)`: the page directory index. -/
def pdx (va : ℕ) : ℕ := va / 4194304 % npdentries

/-- `PTX(va)`: the page table index. -/
def ptx (va : ℕ) : ℕ := va / pgsize % nptentries

/-- `PTE_ADDR(pte)`: the address in an entry. -/
def pteAddr (e : ℕ) : ℕ := e / 4096 * 4096

/-- `PTE_FLAGS(pte)`: the flags in an entry. -/
def pteFlags (e : ℕ) : ℕ := e % 4096

/-! ### Panics -/

/-- The calls of `panic` that the modelled code makes, by message. -/
inductive Panic
  | remap -- "remap"
  | kfree -- "kfree"
  | phystopTooHigh -- "PHYSTOP too high"
  | loaduvmAlign -- "loaduvm: addr must be page aligned"
  | loaduvmExist -- "loaduvm: address should exist"
  | freevmNoPgdir -- "freevm: no pgdir"
  | clearpteu -- "clearpteu"
  | copyuvmExist -- "copyuvm: pte should exist"
  | copyuvmPresent -- "copyuvm: page not present"
  | fileread -- "fileread"
  /-- Not a panic of the source: `uva2ka` reads the page-table entry at address 0. -/
  | nullPte
  /-- Not a panic of the source: a loop ran longer than the number of pages in the address
  space. -/
  | diverges
  deriving DecidableEq, Repr

/-! ### Physical memory -/

/-- Physical memory and the state of the allocator, `kmem` with `free_frame_cnt`. -/
structure PhysMem where
  byte : ℕ → UInt8
  /-- `kmem.freelist`, as the addresses of the free pages. -/
  freelist : List ℕ
  freeFrameCnt : ℤ
  /-- When `kalloc` finds the list empty although it is not. -/
  starve : List Bool
  /-- How many calls of `kalloc` have returned 0. -/
  failures : ℕ

namespace PhysMem

/-- Read a word. -/
def load (m : PhysMem) (a : ℕ) : ℕ := load32 m.byte a

/-- Write a word. -/
def store (m : PhysMem) (a w : ℕ) : PhysMem := { m with byte := store32 m.byte a w }

/-- `memset(p, c, PGSIZE)`. -/
def setPage (m : PhysMem) (p : ℕ) (c : UInt8) : PhysMem :=
  { m with byte := fill m.byte p c pgsize }

/-- `memmove(dst, src, PGSIZE)`. -/
def copyPage (m : PhysMem) (dst src : ℕ) : PhysMem :=
  { m with byte := blit m.byte dst src pgsize }

/-- Write one byte. -/
def setByte (m : PhysMem) (a : ℕ) (v : UInt8) : PhysMem :=
  { m with byte := Function.update m.byte a v }

/-- Memory as a pool of frames, the form the ownership rules take. -/
def pool (m : PhysMem) : Ownership.Pool ℕ UInt8 ℕ := ⟨m.byte, m.freelist⟩

end PhysMem

open PhysMem

/-- A page the allocator may hand out: what `kfree` tests. -/
def IsFrame (f : ℕ) : Prop := f % pgsize = 0 ∧ endPhys ≤ f ∧ f < phystop

instance (f : ℕ) : Decidable (IsFrame f) := by unfold IsFrame; infer_instance

/-- Allocate one page. Returns `none` where the source returns 0. -/
def kalloc (m : PhysMem) : Option ℕ × PhysMem :=
  if m.starve.head? = some true then
    (none, { m with starve := m.starve.tail, failures := m.failures + 1 })
  else
    match m.freelist with
    | [] => (none, { m with starve := m.starve.tail, failures := m.failures + 1 })
    | r :: rs =>
      (some r, { m with
        freelist := rs, freeFrameCnt := m.freeFrameCnt - 1, starve := m.starve.tail })

/-- Free the page `v`, filling it with junk. -/
def kfree (m : PhysMem) (v : ℕ) : Except Panic PhysMem :=
  if IsFrame v then
    .ok { m.setPage v 1 with
      freelist := v :: m.freelist, freeFrameCnt := m.freeFrameCnt + 1 }
  else .error .kfree

/-! ### Rounding and indexing

The statements below carry the constants as literals, the form linear arithmetic works on. -/

theorem pgrounddown_mod (a : ℕ) : pgrounddown a % 4096 = 0 := by
  simp only [pgrounddown, pgsize]; omega

theorem pgrounddown_le (a : ℕ) : pgrounddown a ≤ a := by
  simp only [pgrounddown, pgsize]; omega

theorem lt_pgrounddown_add (a : ℕ) : a < pgrounddown a + 4096 := by
  simp only [pgrounddown, pgsize]; omega

theorem pgrounddown_eq_iff {a p : ℕ} (hp : p % 4096 = 0) :
    pgrounddown a = p ↔ p ≤ a ∧ a < p + 4096 := by
  simp only [pgrounddown, pgsize]; omega

variable {a : ℕ} {k va : ℕ}

theorem pgrounddown_of_mod (h : a % 4096 = 0) : pgrounddown a = a := by
  simp only [pgrounddown, pgsize]; omega

theorem pgroundup_mod (a : ℕ) : pgroundup a % 4096 = 0 := by
  simp only [pgroundup, pgsize]; omega

theorem le_pgroundup (h : a ≤ 0x80000000) : a ≤ pgroundup a := by
  simp only [pgroundup, pgsize, u32]; omega

theorem pgroundup_lt (h : a ≤ 0x80000000) : pgroundup a < a + 4096 := by
  simp only [pgroundup, pgsize, u32]; omega

theorem pgroundup_le (h : a ≤ 0x80000000) : pgroundup a ≤ 0x80000000 := by
  simp only [pgroundup, pgsize, u32]; omega

theorem pgroundup_of_mod (h : a % 4096 = 0) (h' : a ≤ 0x80000000) : pgroundup a = a := by
  simp only [pgroundup, pgsize, u32]; omega

theorem pdx_lt (va : ℕ) : pdx va < 1024 := Nat.mod_lt _ (by decide)

theorem ptx_lt (va : ℕ) : ptx va < 1024 := Nat.mod_lt _ (by decide)

theorem pdx_pgrounddown (va : ℕ) : pdx (pgrounddown va) = pdx va := by
  simp only [pdx, pgrounddown, pgsize, npdentries]; omega

theorem ptx_pgrounddown (va : ℕ) : ptx (pgrounddown va) = ptx va := by
  simp only [ptx, pgrounddown, pgsize, nptentries]; omega

theorem pgrounddown_eq_of_index {va' : ℕ} (h : va < 2 ^ 32) (h' : va' < 2 ^ 32)
    (hd : pdx va = pdx va') (ht : ptx va = ptx va') : pgrounddown va = pgrounddown va' := by
  simp only [pdx, ptx, pgrounddown, pgsize, npdentries, nptentries] at *; omega

theorem pdx_lt_user (h : va < 0x80000000) : pdx va < 512 := by
  simp only [pdx, npdentries]; omega

theorem le_pdx_kernel (h : 0x80000000 ≤ va) (h' : va < 2 ^ 32) : 512 ≤ pdx va := by
  simp only [pdx, npdentries]; omega

/-! ### Entries -/

theorem pteAddr_mod (e : ℕ) : pteAddr e % 4096 = 0 := by
  simp only [pteAddr]; omega

section Entry

variable {pa perm : ℕ}

theorem flags_lt (hperm : perm < 4096) : perm ||| pteP < 4096 :=
  Nat.or_lt_two_pow (n := 12) hperm (by decide)

section

variable (hpa : pa % 4096 = 0)

include hpa

theorem entry_eq (hperm : perm < 4096) : pa ||| perm ||| pteP = pa + (perm ||| pteP) := by
  obtain ⟨k, rfl⟩ : ∃ k, pa = 4096 * k := ⟨pa / 4096, by omega⟩
  rw [Nat.or_assoc, mul_or_eq_add (flags_lt hperm)]

theorem entry_lt (hlt : pa < 2 ^ 32) (hperm : perm < 4096) : pa ||| perm ||| pteP < 2 ^ 32 := by
  have hlt' := flags_lt hperm
  rw [entry_eq hpa hperm]
  omega

theorem pteAddr_entry (hperm : perm < 4096) : pteAddr (pa ||| perm ||| pteP) = pa := by
  have hlt := flags_lt hperm
  rw [entry_eq hpa hperm, pteAddr]
  omega

theorem pteFlags_entry (hperm : perm < 4096) : pteFlags (pa ||| perm ||| pteP) = perm ||| pteP := by
  have hlt := flags_lt hperm
  rw [entry_eq hpa hperm, pteFlags]
  omega

end

theorem and_flags (e : ℕ) {b : ℕ} (hb : b < 4096) : e &&& b = pteFlags e &&& b := by
  have h : e = 4096 * (e / 4096) + pteFlags e := by simp only [pteFlags]; omega
  conv_lhs => rw [h]
  exact mul_add_and hb

theorem entry_present (hpa : pa % 4096 = 0) (hperm : perm < 4096) :
    (pa ||| perm ||| pteP) &&& pteP ≠ 0 := by
  rw [and_flags _ (by decide), pteFlags_entry hpa hperm, Nat.and_one_is_mod]
  simp [Nat.or_mod_two_eq_one]

end Entry

/-! ### `kalloc` and `kfree` -/

variable {m m' : PhysMem}

theorem kalloc_eq_none (h : kalloc m = (none, m')) : m'.byte = m.byte ∧
    m'.freelist = m.freelist ∧ m'.freeFrameCnt = m.freeFrameCnt ∧ m'.failures = m.failures + 1 := by
  unfold kalloc at h
  split at h
  · cases h
    exact ⟨rfl, rfl, rfl, rfl⟩
  · split at h <;> cases h
    exact ⟨rfl, rfl, rfl, rfl⟩

theorem kalloc_eq_some {f : ℕ} (h : kalloc m = (some f, m')) : m'.byte = m.byte ∧
    m.freelist = f :: m'.freelist ∧ m'.freeFrameCnt = m.freeFrameCnt - 1 ∧
      m'.failures = m.failures := by
  unfold kalloc at h
  split at h
  · cases h
  · split at h
    · cases h
    · rename_i r rs hl
      cases h
      exact ⟨rfl, hl, rfl, rfl⟩

theorem kalloc_starve {r : Option ℕ} (h : kalloc m = (r, m')) : m'.starve = m.starve.tail := by
  unfold kalloc at h
  split at h
  · cases h; rfl
  · split at h <;> cases h <;> rfl

theorem kfree_of_isFrame {m : PhysMem} {v : ℕ} (h : IsFrame v) :
    kfree m v = .ok { m.setPage v 1 with
      freelist := v :: m.freelist, freeFrameCnt := m.freeFrameCnt + 1 } :=
  if_pos h

variable {f : ℕ}

theorem IsFrame.mod (h : IsFrame f) : f % 4096 = 0 := h.1

theorem IsFrame.pos (h : IsFrame f) : 0 < f := Nat.lt_of_lt_of_le (by decide) h.2.1

theorem IsFrame.lt (h : IsFrame f) : f < 0xE000000 := h.2.2

/-- The next `k` calls of `kalloc` succeed. -/
def CanAlloc (m : PhysMem) (k : ℕ) : Prop :=
  k ≤ m.freelist.length ∧ ∀ b ∈ m.starve.take k, b = false

instance (m : PhysMem) (k : ℕ) : Decidable (CanAlloc m k) := by
  unfold CanAlloc; infer_instance

theorem canAlloc_succ_iff {f : ℕ} (h : kalloc m = (some f, m')) :
    CanAlloc m (k + 1) ↔ CanAlloc m' k := by
  unfold kalloc at h
  split at h
  · cases h
  · rename_i hst
    split at h
    · cases h
    · rename_i r rs hl
      cases h
      rcases hs : m.starve with _ | ⟨c, cs⟩
      · simp [CanAlloc, hl, hs]
      · have hc : c = false := by simpa [hs] using hst
        simp [CanAlloc, hl, hs, hc]

theorem not_canAlloc_of_none (h : kalloc m = (none, m')) : ¬ CanAlloc m (k + 1) := by
  rintro ⟨hlen, hst⟩
  rcases hs : m.starve with _ | ⟨c, cs⟩ <;> rcases hl : m.freelist with _ | ⟨r, rs⟩
  · simp [hl] at hlen
  · simp [kalloc, hs, hl] at h
  · simp [hl] at hlen
  · have hc : c = false := hst c (by simp [hs])
    simp [kalloc, hs, hl, hc] at h

theorem CanAlloc.mono {m : PhysMem} {l : ℕ} (h : CanAlloc m k) (hl : l ≤ k) : CanAlloc m l :=
  ⟨Nat.le_trans hl h.1, fun b hb => h.2 b (List.take_subset_take_left _ hl hb)⟩

theorem canAlloc_zero (m : PhysMem) : CanAlloc m 0 := ⟨Nat.zero_le _, by simp⟩

/-- Between the two memories `n` pages were taken from the free list, no call of `kalloc` failed and
nothing was freed. Bytes may have changed. -/
structure Draws (m m' : PhysMem) (n : ℕ) : Prop where
  can : CanAlloc m n
  freelist : m'.freelist = m.freelist.drop n
  cnt : m'.freeFrameCnt = m.freeFrameCnt - n
  starve : m'.starve = m.starve.drop n
  failures : m'.failures = m.failures

namespace Draws

variable {m m' m'' : PhysMem} {j n : ℕ}

theorem of_byte (m : PhysMem) (b : ℕ → UInt8) : Draws m { m with byte := b } 0 :=
  ⟨canAlloc_zero m, by simp, by simp, by simp, rfl⟩

theorem refl (m : PhysMem) : Draws m m 0 := of_byte m m.byte

theorem of_kalloc (h : kalloc m = (some f, m')) : Draws m m' 1 := by
  have hcan : CanAlloc m 1 := (canAlloc_succ_iff h).mpr (canAlloc_zero m')
  unfold kalloc at h
  split at h
  · cases h
  · split at h
    · cases h
    · rename_i r rs hl
      cases h
      exact ⟨hcan, by simp [hl], by simp, by simp, rfl⟩

theorem canAlloc (h : Draws m m' n) : CanAlloc m (n + j) ↔ CanAlloc m' j := by
  obtain ⟨hlen, hst⟩ := h.can
  simp only [CanAlloc, h.freelist, h.starve, List.length_drop, List.take_add, List.mem_append]
  constructor
  · rintro ⟨h1, h2⟩
    exact ⟨by omega, fun b hb => h2 b (.inr hb)⟩
  · rintro ⟨h1, h2⟩
    exact ⟨by omega, fun b hb => hb.elim (hst b) (h2 b)⟩

theorem trans (h : Draws m m' n) (h' : Draws m' m'' j) : Draws m m'' (n + j) where
  can := h.canAlloc.mpr h'.can
  freelist := by rw [h'.freelist, h.freelist, List.drop_drop]
  cnt := by rw [h'.cnt, h.cnt]; omega
  starve := by rw [h'.starve, h.starve, List.drop_drop]
  failures := h'.failures.trans h.failures

theorem suffix (h : Draws m m' n) : m'.freelist <:+ m.freelist :=
  h.freelist ▸ List.drop_suffix n m.freelist

end Draws

end Xv6
