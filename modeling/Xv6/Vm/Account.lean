import Xv6.Library.Runs
import Xv6.Vm.Fork
import Xv6.Vm.Segment

/-!
# Accounting for frames

Of all the operations on the user part of a directory, none loses a frame (`Conserves`) unless it
finds no free page for a page table. A process therefore gives back what it took.

## Main results

* `CopyUpTo.frames` — a copy consists of the pages that were taken for it
* `freevm_givesBack` — an address space that lost nothing gives everything back
* `run_givesBack` — the same after any calls on the user part
-/

namespace Xv6

open ByteMemory PhysMem Ownership List
open Finset (mem_union mem_image mem_Icc card_le_card card_le_one)

variable {m m' m'' m₀ m₁ : PhysMem} {d va a i k n f oldsz newsz src : ℕ}

/-! ### Conservation -/

variable {S : ℕ → Prop}

theorem Unmaps.conserves (h : Unmaps m m' d S) : Conserves m m' d := by
  refine ⟨h.keeps.wf, fun f => ⟨h.keeps.transfer.sub f, ?_⟩⟩
  obtain ⟨l, hl, -, hmem⟩ := h.freelist
  rw [hl, mem_append]
  rintro (⟨r, hr⟩ | hf)
  · cases hr with
    | dir => exact .inl ⟨_, .dir⟩
    | @table i hi ht =>
      refine .inl ⟨.table i, ?_⟩
      rw [pgtab, ← h.pde i hi]
      exact .table hi ((h.hasTable hi).mpr ht)
    | @user va ha hv hp =>
      by_cases hS : S va
      · exact .inr (.inl ((hmem _).mpr ⟨va, ha, hv, hS, hp, rfl⟩))
      · have hS' : ¬ S (pgrounddown va) := by rwa [pgrounddown_of_mod ha]
        refine .inl ⟨.user va, ?_⟩
        rw [pageOf, ← h.kept va (by omega) fun hc => hS' hc.2.1]
        exact .user ha hv ((h.present_iff hv).mpr ⟨hp, hS'⟩)
  · exact .inr (.inr hf)

theorem SameView.conserves (hview : SameView m m' d) (hwf : WF m' d)
    (hlist : m'.freelist = m.freelist) : Conserves m m' d :=
  ⟨hwf, fun f => by rw [hview.owned, hlist]⟩

theorem Loads.conserves (h : Loads m m' d) (hwf : WF m d) : Conserves m m' d :=
  (h.view hwf).conserves (h.wf hwf) h.freelist

theorem ClearsU.conserves (h : ClearsU m m' d va) (hwf : WF m d) : Conserves m m' d := by
  refine ⟨h.wf hwf, fun f => ?_⟩
  rw [h.freelist]
  exact or_congr_left (exists_congr fun r => h.holds)

/-! ### New address spaces -/

theorem kernelPte_present (h : 0x80000000 ≤ va ∧ va < 0x8E000000 ∨ 0xFE000000 ≤ va)
    (hlt : va < 2 ^ 32) : kernelPte va &&& pteP ≠ 0 := by
  obtain ⟨hio, htext, hdata, hdev⟩ := kernelPte_kmap
  have hmod := pgrounddown_mod va
  rcases h with ⟨h1, h2⟩ | h1
  · by_cases h3 : va < 0x80100000
    · rw [hio va h1 (by omega)]
      exact entry_present (by simp only [pgrounddown, pgsize] at *; omega) (by decide)
    · by_cases h4 : va < 0x8010a000
      · rw [htext va (by omega) (by omega)]
        exact entry_present (by simp only [pgrounddown, pgsize] at *; omega) (by decide)
      · rw [hdata va (by omega) (by omega)]
        exact entry_present (by simp only [pgrounddown, pgsize] at *; omega) (by decide)
  · rw [hdev va h1 (by omega)]
    exact entry_present (by simp only [pgrounddown, pgsize] at *; omega) (by decide)

/-- The page tables of the kernel's part. -/
def kernelTables : Finset ℕ := Finset.Icc 512 567 ∪ Finset.Icc 1016 1023

theorem card_kernelTables : kernelTables.card = 64 := by decide +kernel

section

variable (h : CopyUpTo m₀ m src d i)

include h

theorem CopyUpTo.kernelTables_subset : kernelTables ⊆ tables m d := by
  intro k hk
  rw [kernelTables, mem_union, mem_Icc, mem_Icc] at hk
  have hp : Present m d (k * 4194304) := by
    rw [Present, h.kernel _ (by omega) (by omega)]
    exact kernelPte_present (by omega) (by omega)
  have hidx : pdx (k * 4194304) = k := by simp only [pdx, npdentries]; omega
  exact mem_tables.mpr ⟨by omega, hidx ▸ hp.hasTable⟩

theorem CopyUpTo.cost_le (hi : i % 4096 = 0) (hle : i ≤ 0x80000000) :
    copyCost i ≤ (owned m d).ncard := by
  have hpages : i / 4096 ≤ (pages m d).card := by
    rw [← Finset.card_range (i / 4096)]
    refine card_le_card fun k hk => ?_
    have hk := Finset.mem_range.mp hk
    exact mem_pages.mpr ⟨by omega, (h.flags _ (by omega)).1⟩
  have huser : Finset.range ((i + 4194303) / 4194304) ⊆ tables m d := by
    intro k hk
    have hk := Finset.mem_range.mp hk
    exact mem_tables.mpr ⟨by omega, (h.hasTable k (by omega)).mpr (by omega)⟩
  have hdis : Disjoint (Finset.range ((i + 4194303) / 4194304)) kernelTables := by
    refine Finset.disjoint_left.mpr fun k hk hk' => ?_
    rw [kernelTables, mem_union, mem_Icc, mem_Icc] at hk'
    have hk := Finset.mem_range.mp hk
    omega
  have htables := card_le_card (Finset.union_subset huser h.kernelTables_subset)
  rw [Finset.card_union_of_disjoint hdis, Finset.card_range, card_kernelTables] at htables
  rw [h.wf.ncard_owned, copyCost]
  omega

/-- **A copy consists of the pages that were taken for it.** -/
theorem CopyUpTo.frames (hi : i % 4096 = 0) (hle : i ≤ 0x80000000)
    (hfree : FreeOk m₀) : f ∈ owned m d ∨ f ∈ m.freelist ↔ f ∈ m₀.freelist := by
  have hnone : Owns m₀.pool ∅ := ⟨hfree.nodup, fun _ hf => hf.elim⟩
  have hcost := h.cost_le hi hle
  have hlen := h.draws.can.1
  have hdrop : m.freelist.length = m₀.freelist.length - copyCost i := by
    rw [h.draws.freelist, length_drop]
  have hcons := h.transfer.conserves hnone Set.finite_empty (f := f)
    (by rw [Set.ncard_empty]; simp only [pool]; omega)
  constructor
  · intro hf
    exact (h.transfer.sub f hf).resolve_left id
  · intro hf
    exact hcons (.inr hf)

end

/-! ### Giving everything back -/

/-- `freevm` gives back the frames of the directory, each once, and with them the free frames are
those of `m₀` again. -/
def GivesBack (m₀ m : PhysMem) (d : ℕ) : Prop :=
  ∃ m' l, freevm m d = .ok m' ∧ m'.freelist = l ++ m.freelist ∧ l.Nodup ∧
    (∀ f, f ∈ l ↔ f ∈ owned m d) ∧ ∀ f, f ∈ m'.freelist ↔ f ∈ m₀.freelist

theorem freevm_givesBack (h : WF m d)
    (hframes : ∀ f, f ∈ owned m d ∨ f ∈ m.freelist ↔ f ∈ m₀.freelist) : GivesBack m₀ m d := by
  obtain ⟨m', hrun, hfree, -, ⟨l, hl, hmem⟩, -⟩ := freevm_spec h
  have hnd : l.Nodup := (nodup_append'.mp (hl ▸ hfree.nodup)).1
  refine ⟨m', l, hrun, hl, hnd, hmem, fun f => ?_⟩
  rw [hl, mem_append, hmem]
  exact hframes f

/-- The calls that change the user part of an address space. A page fault comes from a process. -/
inductive UserCall
  | allocuvm (oldsz newsz : ℕ)
  | deallocuvm (oldsz newsz : ℕ)
  | loaduvm (killed : Bool) (input : List UInt8) (addr : ℕ) (ip : Inode) (offset sz : ℕ)
  | clearpteu (uva : ℕ)
  | pgflt (p : Proc) (cr2 : ℕ)

/-- The memory after a call on the directory `d`. -/
def UserCall.exec (d : ℕ) (m : PhysMem) : UserCall → Except Panic PhysMem
  | .allocuvm oldsz newsz => (Xv6.allocuvm m d oldsz newsz).map Prod.snd
  | .deallocuvm oldsz newsz => (Xv6.deallocuvm m d oldsz newsz).map Prod.snd
  | .loaduvm killed input addr ip offset sz =>
    (Xv6.loaduvm m killed input d addr ip offset sz).map fun r => r.2.1
  | .clearpteu uva => Xv6.clearpteu m d uva
  | .pgflt p cr2 => (Xv6.pgflt ⟨m, { p with pgdir := d }⟩ cr2).map Ctx.mem

/-- The call stays below `KERNBASE`. Growing and `clearpteu` do so by themselves. -/
def UserCall.Within : UserCall → Prop
  | .deallocuvm oldsz _ => oldsz ≤ kernbase
  | .loaduvm _ _ addr _ _ sz => addr + sz ≤ kernbase
  | .pgflt p _ => p.sz ≤ kernbase
  | _ => True

/-- From `m` to `m'` by calls that satisfy `P`, in all of which `kalloc` never failed. -/
inductive Calls (P : UserCall → Prop) (d : ℕ) (m : PhysMem) : PhysMem → Prop
  | nil : Calls P d m m
  | call {m' m'' : PhysMem} {c : UserCall} : Calls P d m m' → P c → c.exec d m' = .ok m'' →
      m''.failures = m'.failures → Calls P d m m''

theorem Allocs.clear (h : Allocs m m' d S) (hclear : Clear m d) : Clear m' d := by
  intro va hv hp
  have hS : ¬ S (pgrounddown va) := fun hs => hp ((h.present_iff hv).mpr (.inr hs))
  rw [h.kept va (by omega) fun hc => hS hc.2]
  exact hclear va hv fun hp' => hp ((h.present_iff hv).mpr (.inl hp'))

theorem Unmaps.clear (h : Unmaps m m' d S) (hclear : Clear m d) : Clear m' d := by
  intro va hv hp
  by_cases hS : S (pgrounddown va) ∧ Present m d va
  · exact h.unmapped va hv hS.1 hS.2
  · rw [h.kept va (by omega) fun hc => hS hc.2]
    refine hclear va hv fun hp' => hp ((h.present_iff hv).mpr ⟨hp', fun hs => hS ⟨hs, hp'⟩⟩)

theorem CopyUpTo.clear (h : CopyUpTo m₀ m src d i) : Clear m d := by
  intro va hv hp
  have hle : i ≤ va := Nat.le_of_not_lt fun hlt => hp (h.flags va hlt).1
  exact h.rest va hle hv

theorem allocuvm_conserves {r : ℕ} (hwf : WF m d) (hclear : Clear m d)
    (hr : allocuvm m d oldsz newsz = .ok (r, m')) (hf : m'.failures = m.failures) :
    Conserves m m' d ∧ Clear m' d := by
  by_cases hhi : newsz ≥ kernbase
  · rw [allocuvm, if_pos hhi] at hr
    cases hr
    exact ⟨.refl hwf, hclear⟩
  by_cases hlo : newsz < oldsz
  · rw [allocuvm, if_neg hhi, if_pos hlo] at hr
    cases hr
    exact ⟨.refl hwf, hclear⟩
  have hstops := allocuvm_grows hwf (Nat.le_of_not_lt hlo) (Nat.lt_of_not_le hhi)
  rw [hr] at hstops
  generalize hres : (Except.ok (r, m') : Except Panic (ℕ × PhysMem)) = res at hstops
  cases hstops with
  | remap => cases hres
  | full h =>
    cases hres
    exact ⟨h.conserves, h.allocs.clear hclear⟩
  | page h _ hk hun =>
    cases hres
    obtain ⟨-, -, -, hfail⟩ := kalloc_eq_none hk
    have h1 := hun.failures.1
    have h2 := h.draws.failures
    omega
  | @table _ _ _ _ _ g h _ _ hlose hends =>
    subst hres
    have h1 := hlose.failures
    have h2 := h.draws.failures
    cases g with
    | remap => cases hends.1
    | full S =>
      obtain ⟨m₂, he, hal, -⟩ := hends
      cases he
      have h3 := hal.failures
      omega
    | short S =>
      obtain ⟨m₂, m₃, he, -, -, -, h3⟩ := hends
      cases he
      omega

theorem pgflt_conserves {p : Proc} {cr2 : ℕ} {c : Ctx} (hwf : WF m d) (hclear : Clear m d)
    (hsz : p.sz ≤ kernbase) (hr : pgflt ⟨m, { p with pgdir := d }⟩ cr2 = .ok c)
    (hf : c.mem.failures = m.failures) : Conserves m c.mem d ∧ Clear c.mem d := by
  rw [pgflt] at hr
  by_cases ht : p.pageAllocatorType = 1
  · by_cases hout : pgrounddown cr2 ≥ p.sz ∨ pgrounddown cr2 < p.heapStart
    · simp only [if_pos ht, if_pos hout] at hr
      cases hr
      exact ⟨.refl hwf, hclear⟩
    · simp only [if_pos ht, if_neg hout] at hr
      have hv : pgrounddown cr2 < 0x80000000 := by
        simp only [kernbase] at hsz
        omega
      rcases hk : kalloc m with ⟨_ | g, m₁⟩
      · rw [hk] at hr
        cases hr
        obtain ⟨-, -, -, hfail⟩ := kalloc_eq_none hk
        simp only [Ctx.kill_mem] at hf
        omega
      · have hgm := (hwf.kalloc_some hk).2.isFrame.mod
        have hb : ∀ x, pgrounddown x ≠ g → fill m₁.byte g 0 pgsize x = m₁.byte x :=
          fun x hx => setPage_byte (m := m₁) hgm hx
        have hcase := hwf.alloc_page hk hb (pgrounddown_mod cr2) hv
          (show pteW ||| pteU < 4096 by decide)
        rw [show ({ m₁ with byte := fill m₁.byte g 0 pgsize } : PhysMem) = m₁.setPage g 0 from rfl]
          at hcase
        rw [hk] at hr
        obtain ⟨-, hmap⟩ | ⟨-, m₂, hmap, hlose⟩ | ⟨hp, m₂, hmap, hadd⟩ := hcase
        · simp only [hmap] at hr
          cases hr
        · simp only [hmap, kfree_of_isFrame hlose.fresh.isFrame] at hr
          rw [if_pos (by decide)] at hr
          cases hr
          have h1 := hlose.failures
          simp only [Ctx.kill_mem] at hf
          exact absurd hf (by simp only [setPage]; omega)
        · simp only [hmap] at hr
          rw [if_neg (by decide)] at hr
          cases hr
          have hal := hadd.allocs (pgrounddown_mod cr2) hv hp
            (by rw [pteFlags_entry hgm (by decide)]; decide)
            fun x hx => setPage_zero hgm (hx.trans (pteAddr_entry hgm (by decide)))
          have hdraws : Draws m m₂ (1 + if HasTable m d (pdx (pgrounddown cr2)) then 0 else 1) := by
            have hdraws := hadd.draws
            split_ifs at hdraws ⊢ <;> exact hdraws
          exact ⟨hal.conserves hwf (pgrounddown_mod cr2) hv
            (tables_insert (pdx_lt _) hadd.hasTable) hdraws, hal.clear hclear⟩
  · simp only [if_neg ht] at hr
    cases hr
    exact ⟨.refl hwf, hclear⟩

/-- **One call** below `KERNBASE` without a failure loses no frame. -/
theorem UserCall.conserves {c : UserCall} (hwf : WF m d) (hclear : Clear m d) (hw : c.Within)
    (hr : c.exec d m = .ok m') (hf : m'.failures = m.failures) : Conserves m m' d ∧ Clear m' d := by
  cases c with
  | allocuvm oldsz newsz =>
    obtain ⟨⟨r, m₁⟩, hcall, rfl⟩ := Runs.of_map_ok hr
    exact allocuvm_conserves hwf hclear hcall hf
  | deallocuvm oldsz newsz =>
    obtain ⟨⟨r, m₁⟩, hcall, rfl⟩ := Runs.of_map_ok hr
    by_cases hlt : newsz < oldsz
    · obtain ⟨m₂, hde, hun⟩ := deallocuvm_spec hwf hw hlt
      rw [hde] at hcall
      cases hcall
      exact ⟨hun.conserves, hun.clear hclear⟩
    · rw [Xv6.deallocuvm, if_pos (Nat.le_of_not_lt hlt)] at hcall
      cases hcall
      exact ⟨.refl hwf, hclear⟩
  | loaduvm killed input addr ip offset sz =>
    obtain ⟨⟨r, m₁, input'⟩, hcall, rfl⟩ := Runs.of_map_ok hr
    have hload := loaduvm_loads hwf hclear hw hcall
    exact ⟨hload.conserves hwf, (hload.view hwf).clear hclear⟩
  | clearpteu uva =>
    have hcl := clearpteu_clears hwf hr
    exact ⟨hcl.conserves hwf, hcl.clear hclear⟩
  | pgflt p cr2 =>
    obtain ⟨c, hcall, rfl⟩ := Runs.of_map_ok hr
    exact pgflt_conserves hwf hclear hw hcall hf

theorem Calls.conserves (h : Calls UserCall.Within d m m') (hwf : WF m d) (hclear : Clear m d) :
    Conserves m m' d ∧ Clear m' d := by
  induction h with
  | nil => exact ⟨.refl hwf, hclear⟩
  | call _ hw hr hf ih =>
    obtain ⟨hcons, hclear'⟩ := ih
    obtain ⟨hcons', hclear''⟩ := UserCall.conserves hcons.wf hclear' hw hr hf
    exact ⟨hcons.trans hcons', hclear''⟩

/-- The directory `d` came from `setupkvm`, or from `copyuvm` of a process's address space. -/
inductive Made (m₀ m : PhysMem) (d : ℕ) : Prop
  | kvm : FreeOk m₀ → setupkvm m₀ = .ok (some d, m) → Made m₀ m d
  | copy {src sz : ℕ} : WF m₀ src → sz < kernbase → copyuvm m₀ src sz = .ok (some d, m) →
      Made m₀ m d

theorem Made.copyUpTo (h : Made m₀ m d) : FreeOk m₀ ∧ ∃ src i, i % 4096 = 0 ∧ i ≤ 0x80000000 ∧
    CopyUpTo m₀ m src d i := by
  cases h with
  | kvm hfree hset =>
    refine ⟨hfree, 0, 0, rfl, by decide, ?_⟩
    obtain ⟨m', hset', -⟩ | ⟨d', m', hset', hnew⟩ := setupkvm_cases hfree
    · rw [hset'] at hset
      cases hset
    · rw [hset'] at hset
      cases hset
      exact hnew.copyUpTo 0
  | @copy src sz hsrc hsz hcopy =>
    refine ⟨hsrc.free, src, pgroundup sz, pgroundup_mod sz, pgroundup_le (Nat.le_of_lt hsz), ?_⟩
    have hstops := copyuvm_stops hsrc hsz
    rw [hcopy] at hstops
    generalize hres : (Except.ok (some d, m) : Except Panic (Option ℕ × PhysMem)) = res at hstops
    cases hstops with
    | hole => cases hres
    | kvm => cases hres
    | page h _ _ _ hk =>
      obtain ⟨m', hfree, -⟩ := freevm_spec (h.wf.kalloc_none hk)
      rw [copyuvmBad, hfree] at hres
      cases hres
    | table h _ _ _ _ hlose =>
      obtain ⟨m', hfree, -⟩ := freevm_spec hlose.keeps.wf
      rw [copyuvmBad, hfree] at hres
      cases hres
    | copied _ h =>
      cases hres
      exact h

/-- **A process gives back every frame.** -/
theorem run_givesBack (hmade : Made m₀ m₁ d) (hcalls : Calls UserCall.Within d m₁ m) :
    GivesBack m₀ m d := by
  obtain ⟨hfree, src, i, hi, hle, hcopy⟩ := hmade.copyUpTo
  obtain ⟨hcons, -⟩ := hcalls.conserves hcopy.wf hcopy.clear
  exact freevm_givesBack hcons.wf fun f => (hcons.frames f).trans (hcopy.frames hi hle hfree)

/-- A memory with nothing in it but 80 free pages. -/
def Tiny.blank : PhysMem := ⟨fun _ => 0, Tiny.frames 80, 80, [], 0⟩

theorem Tiny.blank_free : FreeOk Tiny.blank := by
  obtain ⟨hnd, hok⟩ := Tiny.frames_ok (by decide : 80 ≤ 0x1000)
  exact ⟨hnd, fun f hf => (hok f hf).1, by simp [blank, frames]⟩

theorem Tiny.blank_canAlloc (h : n ≤ 80) : CanAlloc Tiny.blank n :=
  ⟨by simpa [blank, frames] using h, by simp [blank]⟩

theorem Tiny.blank_setupkvm : ∃ d m, setupkvm Tiny.blank = .ok (some d, m) ∧
    NewKvm Tiny.blank m d := by
  obtain ⟨m, -, hfail⟩ | hnew := setupkvm_cases Tiny.blank_free
  · exact absurd (blank_canAlloc (by decide)) hfail.short
  · exact hnew

theorem Tiny.blank_grow {newsz j : ℕ} (hj : j < 13) (hlo : 4096 * j < newsz)
    (hhi : newsz ≤ 4096 * (j + 1)) : ∃ d m₁ m, setupkvm Tiny.blank = .ok (some d, m₁) ∧
    NewKvm Tiny.blank m₁ d ∧ allocuvm m₁ d 0 newsz = .ok (newsz, m) ∧
      Allocs m₁ m d (fun va => va % 4096 = 0 ∧ 0 ≤ va ∧ va < newsz) ∧
      ∃ k, Draws m₁ m k ∧ k ≤ j + 2 := by
  obtain ⟨d, m₁, hset, hnew⟩ := Tiny.blank_setupkvm
  have hup : pgroundup 0 = 0 := by decide
  have hcost : growCost m₁ d (pgroundup 0) (j + 1) ≤ j + 2 := by
    refine Nat.add_le_add_left (card_le_one.mpr ?_) (j + 1)
    simp only [hup, Finset.mem_sdiff, mem_image, Finset.mem_range, pdx, npdentries]
    omega
  have hcan : CanAlloc m₁ (j + 2) := hnew.draws.canAlloc.mp (Tiny.blank_canAlloc (by omega))
  have habs : ∀ va, pgroundup 0 ≤ va → va < newsz → ¬ Present m₁ d va := by
    intro va _ hv
    rw [Present, hnew.pteOf va (by omega), kernelPte, if_pos (by simp only [kernbase]; omega)]
    decide
  have hlo' : pgroundup 0 + 4096 * j < newsz := by simpa only [hup, Nat.zero_add] using hlo
  have hhi' : newsz ≤ pgroundup 0 + 4096 * (j + 1) := by
    simpa only [hup, Nat.zero_add] using hhi
  obtain ⟨m, hall, hal, hdraws⟩ := allocuvm_enough hnew.wf (by omega : newsz < 0x80000000) hlo' hhi'
    (Nat.zero_le _) habs (hcan.mono hcost)
  rw [hup] at hal
  exact ⟨d, m₁, m, hset, hnew, hall, hal, _, hdraws, hcost⟩

theorem run_givesBack_page : ∃ d m₁ m, Made Tiny.blank m₁ d ∧ Calls UserCall.Within d m₁ m ∧
    GivesBack Tiny.blank m d := by
  obtain ⟨d, m₁, m, hset, -, hall, -, k, hdraws, -⟩ :=
    Tiny.blank_grow (by decide) (by decide : 4096 * 0 < 1) (by decide)
  have hmade : Made Tiny.blank m₁ d := .kvm Tiny.blank_free hset
  have hcalls : Calls UserCall.Within d m₁ m := by
    refine .call (c := .allocuvm 0 1) .nil trivial ?_ hdraws.failures
    rw [UserCall.exec, hall]
    rfl
  exact ⟨d, m₁, m, hmade, hcalls, run_givesBack hmade hcalls⟩

theorem loaduvm_page (ip : Inode) {addr : ℕ} (offset : ℕ) (ht : HasTable m d (pdx addr))
    (ha : addr % 4096 = 0) (hlt : addr < 2 ^ 32) (htype : ip.type ≠ .dev)
    (hoff : offset + 4096 ≤ ip.size) (killed : Bool) (input : List UInt8) :
    loaduvm m killed input d addr ip offset 4096 = .ok (0, m.storeAll
      ((List.range 4096).map fun i => (u32 (p2v (pageOf m d addr) + i), ip.byte (offset + i))),
      input) := by
  have hsize := ip.size_le
  simp only [maxfile, bsize] at hsize
  have hread : readi ip killed input (p2v (pageOf m d addr)) (u32 (offset + 0)) 4096 =
      (⟨some 4096, (List.range 4096).map fun i =>
        (u32 (p2v (pageOf m d addr) + i), ip.byte (offset + i))⟩, input) := by
    have hu : u32 (offset + 0) = offset := by simp only [u32]; omega
    have hu' : u32 (offset + 4096) = offset + 4096 := by simp only [u32]; omega
    rw [readi, hu, if_neg htype, hu', if_neg (by omega), if_neg (by omega)]
    simp only [readiLoop_eq, Nat.sub_zero]
    rfl
  have hva : u32 (addr + 0) = addr := by simp only [u32]; omega
  rw [loaduvm, if_neg (by simpa [pgsize] using ha), loaduvmLoop, if_pos (by decide),
    walkpgdir_false, hva, if_pos ht]
  simp only [← pteOf_of_hasTable ht, ← pageOf.eq_1, Nat.sub_zero,
    if_neg (show ¬ 4096 < pgsize by decide), hread]
  rw [show npages = 1048575 + 1 from rfl, if_neg (by decide), loaduvmLoop, if_neg (by decide)]

/-- A file of zeros. -/
def Tiny.zeros : Inode where
  type := .file
  major := 0
  size := 4096
  size_le := by decide
  block _ _ := 0

/-- `exec` does not look where a segment is loaded. With a segment of zeros over the directory of
the new address space, its page tables and pages are lost. -/
theorem loaduvm_over_directory : ∃ d m₁ m, Made Tiny.blank m₁ d ∧ Calls (fun _ => True) d m₁ m ∧
    ¬ GivesBack Tiny.blank m d := by
  obtain ⟨d, m₁, m₂, hset, hnew, hall, hal, k, hdraws, hk⟩ :=
    Tiny.blank_grow (by decide) (by decide : 4096 * 0 < 1) (by decide)
  have hwf := hal.keeps.wf
  have hdf := hwf.isFrame .dir
  have hmod := hdf.mod
  have hlt := hdf.lt
  have hkern : pteOf m₂ d (0x80000000 + d) = kernelPte (0x80000000 + d) := by
    rw [hal.kept _ (by omega) (by omega), hnew.pteOf _ (by omega)]
  have hp : Present m₂ d (0x80000000 + d) := by
    rw [Present, hkern]
    exact kernelPte_present (by omega) (by omega)
  have hpage : pageOf m₂ d (0x80000000 + d) = d := by
    have hge := hdf.2.1
    simp only [endPhys] at hge
    rw [pageOf, hkern, kernelPte_kmap.2.2.1 _ (by omega) (by omega),
      pgrounddown_of_mod (by omega), show 0x10a000 + (0x80000000 + d - 0x8010a000) = d by omega]
    exact pteAddr_entry hmod (by decide)
  have hload := loaduvm_page Tiny.zeros 0 hp.hasTable (by omega) (by omega) (by decide) (by decide)
    false []
  rw [hpage] at hload
  generalize hm : m₂.storeAll ((List.range 4096).map fun i =>
    (u32 (p2v d + i), Tiny.zeros.byte (0 + i))) = m at hload
  have hbyte : ∀ x, d ≤ x → x < d + 4096 → m.byte x = 0 := by
    have hlist : ((List.range 4096).map fun i => (u32 (p2v d + i), Tiny.zeros.byte (0 + i))).map
        (fun s => (v2p s.1, s.2)) = (List.range 4096).map fun i => (d + i, (0 : UInt8)) := by
      rw [map_map]
      refine map_congr_left fun i hi => ?_
      have hi := mem_range.mp hi
      refine Prod.ext ?_ rfl
      simp only [Function.comp_apply, v2p, p2v, u32, kernbase]
      omega
    intro x h1 h2
    rw [← hm, storeAll, hlist]
    dsimp only
    rw [writeAll_range, if_pos ⟨h1, h2⟩]
  -- the directory is empty, so it holds itself and nothing else
  have htab : ∀ i, i < 1024 → ¬ HasTable m d i := by
    intro i hi
    rw [HasTable, pde, load, load32, hbyte _ (by omega) (by omega), hbyte _ (by omega) (by omega),
      hbyte _ (by omega) (by omega), hbyte _ (by omega) (by omega)]
    decide
  have howned : ∀ f, f ∈ owned m d → f = d := by
    rintro f ⟨r, hr⟩
    cases hr with
    | dir => rfl
    | table hi ht => exact absurd ht (htab _ hi)
    | user _ _ hp => exact absurd hp.hasTable (htab _ (pdx_lt _))
  have hfree : m.freelist = (Tiny.frames 80).drop (65 + k) := by
    rw [← hm, storeAll, hdraws.freelist, hnew.draws.freelist, drop_drop]
    rfl
  refine ⟨d, m₁, m, .kvm Tiny.blank_free hset, ?_, ?_⟩
  · refine .call (c := .loaduvm false [] (0x80000000 + d) Tiny.zeros 0 4096)
      (.call (c := .allocuvm 0 1) .nil trivial ?_ hdraws.failures) trivial ?_ ?_
    · rw [UserCall.exec, hall]
      rfl
    · rw [UserCall.exec, hload]
      rfl
    · rw [← hm, storeAll]
  · -- two of the pages that were taken cannot both be the directory
    rintro ⟨m', l, -, hl, -, hmem, hback⟩
    have hdir : ∀ f, f ∈ Tiny.frames 80 → f ∉ (Tiny.frames 80).drop 65 → f = d := by
      intro f hf hnot
      have hin := (hback f).mpr hf
      rw [hl, mem_append, hmem, hfree, ← drop_drop] at hin
      exact howned f (hin.resolve_right fun hd => hnot (drop_subset _ _ hd))
    have h1 := hdir 0x301000 (by decide) (by decide)
    have h2 := hdir 0x302000 (by decide) (by decide)
    omega

end Xv6
