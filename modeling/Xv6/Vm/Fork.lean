import Xv6.Vm.ProcessInv

/-!
# `fork`

`allocproc` and `fork` from `proc.c` and `copyuvm` from `vm.c`.

`copyuvm` walks the pages below the break and takes it for granted that all of them are present. The
lazy allocator leaves pages out, and so does the default one when a page table is not to be had; the
copy panics at the first such hole, unless it runs out of pages before it gets there. `copyCost` is
the number of pages it takes to get to an address, so the condition under which `fork` works can be
said exactly.

## Main results

* `copyuvm_stops` — the places where the copy can stop, `copyuvm_ends` — the three ways it can end
* `fork_works_iff` — when `fork` works
-/

namespace Xv6

open ByteMemory PhysMem Ownership Function

/-- `NPROC`. -/
abbrev nproc : ℕ := 64

/-- `ptable`, with the next process id. -/
structure Ptable where
  /-- The slots, of which there are `nproc`. -/
  proc : ℕ → Proc
  nextpid : ℕ

/-- The table with a slot changed. -/
def Ptable.set (t : Ptable) (i : ℕ) (p : Proc) : Ptable :=
  { t with proc := update t.proc i p }

theorem Ptable.set_self (t : Ptable) (i : ℕ) (p : Proc) : (t.set i p).proc i = p :=
  update_self ..

theorem Ptable.set_of_ne (t : Ptable) {i j : ℕ} (h : j ≠ i) (p : Proc) :
    (t.set i p).proc j = t.proc j :=
  update_of_ne h ..

/-- Look in the process table for an UNUSED proc. If found, change state to EMBRYO and initialize
state required to run in the kernel. -/
def allocproc (m : PhysMem) (t : Ptable) : Option ℕ × PhysMem × Ptable :=
  match (List.range nproc).find? fun i => (t.proc i).state = .unused with
  | none => (none, m, t)
  | some i =>
    let p := { t.proc i with
      state := .embryo, pid := t.nextpid, heapStart := 0, pageAllocatorType := 0 }
    let t := { t with nextpid := t.nextpid + 1 }
    match kalloc m with
    | (none, m) => (none, m, t.set i { p with kstack := 0, state := .unused })
    | (some kstack, m) => (some i, m, t.set i { p with kstack := kstack })

/-- The way out of `copyuvm` after a failure. A page that could not be mapped is lost. -/
def copyuvmBad (m : PhysMem) (d : ℕ) : Except Panic (Option ℕ × PhysMem) :=
  match freevm m d with
  | .error e => .error e
  | .ok m => .ok (none, m)

/-- The loop of `copyuvm`, at the page `i`. -/
def copyuvmLoop : ℕ → PhysMem → (pgdir d i sz : ℕ) → Except Panic (Option ℕ × PhysMem)
  | 0, _, _, _, _, _ => .error .diverges
  | n + 1, m, pgdir, d, i, sz =>
    if i < sz then
      match walkpgdir m pgdir i false with
      | (none, _) => .error .copyuvmExist
      | (some pte, m) =>
        if m.load pte &&& pteP = 0 then .error .copyuvmPresent
        else
          let pa := pteAddr (m.load pte)
          let flags := pteFlags (m.load pte)
          match kalloc m with
          | (none, m) => copyuvmBad m d
          | (some mem, m) =>
            match mappages (m.copyPage mem pa) d i pgsize mem flags with
            | .error e => .error e
            | .ok (r, m) =>
              if r < 0 then copyuvmBad m d
              else copyuvmLoop n m pgdir d (u32 (i + pgsize)) sz
    else .ok (some d, m)

/-- Given a parent process's page table, create a copy of it for a child. -/
def copyuvm (m : PhysMem) (pgdir sz : ℕ) : Except Panic (Option ℕ × PhysMem) :=
  match setupkvm m with
  | .error e => .error e
  | .ok (none, m) => .ok (none, m)
  | .ok (some d, m) => copyuvmLoop (npages + 1) m pgdir d 0 sz

/-- Create a new process copying the process in slot `cur` as the parent. Returns the new process id
or -1. -/
def fork (m : PhysMem) (t : Ptable) (cur : ℕ) : Except Panic (ℤ × PhysMem × Ptable) :=
  let proc := t.proc cur
  match allocproc m t with
  | (none, m, t) => .ok (-1, m, t)
  | (some i, m, t) =>
    let np := t.proc i
    match copyuvm m proc.pgdir proc.sz with
    | .error e => .error e
    | .ok (none, m) =>
      match kfree m np.kstack with
      | .error e => .error e
      | .ok m => .ok (-1, m, t.set i { np with pgdir := 0, kstack := 0, state := .unused })
    | .ok (some d, m) =>
      .ok (np.pid, m, t.set i { np with
        pgdir := d, sz := proc.sz, parent := some cur, state := .runnable
        ofile := fun fd => (proc.ofile fd).orElse fun _ => np.ofile fd })

variable {m m' m₀ m₁ : PhysMem} {src d va i sz f : ℕ}

/-! ### Copying an address space -/

/-- The number of pages `copyuvm` has taken when it gets to the page `i`: 65 for the kernel's part,
one for each page, and one for each page table. -/
def copyCost (i : ℕ) : ℕ := 65 + i / 4096 + (i + 4194303) / 4194304

theorem copyCost_mono {i j : ℕ} (h : i ≤ j) : copyCost i ≤ copyCost j := by
  simp only [copyCost]; omega

/-- The directory `d` is a copy of `src` up to the page `i`. -/
structure CopyUpTo (m₀ m : PhysMem) (src d i : ℕ) : Prop where
  wf : WF m d
  transfer : Transfer pgrounddown m₀.pool ∅ m.pool (owned m d)
  kernel : ∀ va, 0x80000000 ≤ va → va < 2 ^ 32 → pteOf m d va = kernelPte va
  flags : ∀ va, va < i → Present m d va ∧ pteFlags (pteOf m d va) = pteFlags (pteOf m₀ src va)
  byte : ∀ va, va < i → m.byte (physAddr m d va) = m₀.byte (physAddr m₀ src va)
  rest : ∀ va, i ≤ va → va < 0x80000000 → pteOf m d va = 0
  hasTable : ∀ k, k < 512 → (HasTable m d k ↔ k * 4194304 < i)
  draws : Draws m₀ m (copyCost i)

theorem NewKvm.copyUpTo (h : NewKvm m₀ m d) (src : ℕ) : CopyUpTo m₀ m src d 0 where
  wf := h.wf
  transfer := h.transfer
  kernel va _ hlt := h.pteOf va hlt
  flags _ hv := absurd hv (Nat.not_lt_zero _)
  byte _ hv := absurd hv (Nat.not_lt_zero _)
  rest va _ hv := by
    rw [h.pteOf va (by omega), kernelPte, if_pos (by exact hv)]
  hasTable k hk := by
    rw [h.hasTable k (by omega)]
    omega
  draws := h.draws

section

variable (h : CopyUpTo m₀ m src d i)

include h

theorem CopyUpTo.absent (hle : i ≤ va) (hv : va < 0x80000000) : ¬ Present m d va := by
  simp [Present, h.rest va hle hv]

theorem CopyUpTo.untouched (hsrc : WF m₀ src) : Untouched m₀ m src :=
  hsrc.untouched h.transfer (Set.empty_disjoint _) h.wf.free

theorem CopyUpTo.cost (hi : i % 4096 = 0) (hlt : i < 0x80000000) :
    copyCost (i + 4096) = copyCost i + if HasTable m d (pdx i) then 1 else 2 := by
  have htab : HasTable m d (pdx i) ↔ i % 4194304 ≠ 0 := by
    rw [h.hasTable _ (pdx_lt_user hlt)]
    simp only [pdx, npdentries]
    omega
  rw [if_congr htab rfl rfl]
  simp only [copyCost]
  split_ifs <;> omega

end

theorem Present.flags_or (h : Present m d va) :
    pteFlags (pteOf m d va) ||| pteP = pteFlags (pteOf m d va) := by
  rw [Present, and_flags _ (by decide)] at h
  generalize pteFlags (pteOf m d va) = fl at h
  have hodd : fl % 2 = 1 := by
    simp only [pteP, Nat.and_one_is_mod] at h
    omega
  refine Nat.eq_of_testBit_eq fun j => ?_
  rw [Nat.testBit_or]
  cases j with
  | zero => simp [pteP, Nat.testBit_zero, hodd]
  | succ j => simp [pteP, Nat.testBit_succ]

theorem CopyUpTo.next (h : CopyUpTo m₀ m src d i) (hi : i % 4096 = 0) (hlt : i < 0x80000000)
    (hp₀ : Present m₀ src i) {b : ℕ → UInt8}
    (hb : ∀ x, pgrounddown x = f → b x = m₀.byte (pageOf m₀ src i + (x - f))) (hf : f % 4096 = 0)
    (hadd : AddsPage m m' d i (f ||| pteFlags (pteOf m₀ src i) ||| pteP) b) :
    CopyUpTo m₀ m' src d (i + 4096) := by
  have hfl : pteFlags (pteOf m₀ src i) < 4096 := Nat.mod_lt _ (by decide)
  have hent : pteFlags (f ||| pteFlags (pteOf m₀ src i) ||| pteP) = pteFlags (pteOf m₀ src i) := by
    rw [pteFlags_entry hf hfl, hp₀.flags_or]
  have haddr := pteAddr_entry hf hfl
  -- the entry of every address but those of the new page stays
  have hpage : ∀ va, va < 2 ^ 32 → (pdx va = pdx i ∧ ptx va = ptx i ↔ i ≤ va ∧ va < i + 4096) := by
    intro va hva
    simp only [pdx, ptx, pgsize, npdentries, nptentries]
    omega
  have hpte : ∀ va, va < 2 ^ 32 → pteOf m' d va =
      if i ≤ va ∧ va < i + 4096 then f ||| pteFlags (pteOf m₀ src i) ||| pteP
      else pteOf m d va := by
    intro va hva
    rw [hadd.pteOf]
    exact if_congr (hpage va hva) rfl rfl
  have hsrc : ∀ va, i ≤ va → va < i + 4096 → pteOf m₀ src va = pteOf m₀ src i := by
    intro va h1 h2
    obtain ⟨hd, ht⟩ := (hpage va (by omega)).mpr ⟨h1, h2⟩
    exact pteOf_congr_va hd ht
  refine ⟨hadd.keeps.wf, h.transfer.trans hadd.keeps.transfer, fun va hle hva => ?_,
    fun va hv => ?_, fun va hv => ?_, fun va hle hv => ?_, fun k hk => ?_, ?_⟩
  · rw [hpte va hva, if_neg (by omega), h.kernel va hle hva]
  · by_cases hold : va < i
    · rw [Present, hpte va (by omega), if_neg (by omega)]
      exact h.flags va hold
    · rw [Present, hpte va (by omega), if_pos (by omega), hsrc va (by omega) hv]
      exact ⟨entry_present hf hfl, hent⟩
  · by_cases hold : va < i
    · have hv' : va < 0x80000000 := by omega
      have hp := (h.flags va hold).1
      have hsame : pageOf m' d va = pageOf m d va := by
        rw [pageOf, hpte va (by omega), if_neg (by omega), pageOf]
      rw [← h.byte va hold, physAddr, hsame]
      exact hadd.byte va _ hv' hp (pgrounddown_physAddr m d va)
    · have hnew : pageOf m' d va = f := by
        rw [pageOf, hpte va (by omega), if_pos (by omega), haddr]
      have hdown : pgrounddown (f + va % 4096) = f :=
        (pgrounddown_eq_iff hf).mpr (by omega)
      rw [physAddr, hnew, hadd.filled _ (hdown.trans haddr.symm), hb _ hdown, physAddr, pageOf,
        pageOf, hsrc va (by omega) hv, Nat.add_sub_cancel_left]
  · rw [hpte va (by omega), if_neg (by omega)]
    exact h.rest va (by omega) hv
  · rw [hadd.hasTable k (by omega), h.hasTable k hk]
    simp only [pdx, npdentries]
    omega
  · rw [h.cost hi hlt]
    exact h.draws.trans hadd.draws

/-- Where copying an address space can stop. -/
inductive CopyStops (m₀ : PhysMem) (src sz : ℕ) : Except Panic (Option ℕ × PhysMem) → Prop
  | hole {e : Panic} {m : PhysMem} {d i : ℕ} : CopyUpTo m₀ m src d i → i < sz →
      ¬ Present m₀ src i → CopyStops m₀ src sz (.error e)
  | kvm {m' : PhysMem} : KvmFails m₀ m' → CopyStops m₀ src sz (.ok (none, m'))
  /-- For want of a page to copy to. -/
  | page {m m₁ : PhysMem} {d i : ℕ} : CopyUpTo m₀ m src d i → i % 4096 = 0 → i < sz →
      (∀ va, va < i + 4096 → Present m₀ src va) → kalloc m = (none, m₁) →
      CopyStops m₀ src sz (copyuvmBad m₁ d)
  /-- For want of a page table. -/
  | table {m m₁ : PhysMem} {d i f : ℕ} : CopyUpTo m₀ m src d i → i % 4096 = 0 → i < sz →
      (∀ va, va < i + 4096 → Present m₀ src va) → CanAlloc m 1 → LosesPage m m₁ d i f →
      CopyStops m₀ src sz (copyuvmBad m₁ d)
  | copied {m' : PhysMem} {d : ℕ} : (∀ va, va < pgroundup sz → Present m₀ src va) →
      CopyUpTo m₀ m' src d (pgroundup sz) → CopyStops m₀ src sz (.ok (some d, m'))

theorem copied_byte {pa x : ℕ} (hk : kalloc m = (some f, m₁)) (hf : f % 4096 = 0)
    (hx : pgrounddown x = f) (hpa : pa % 4096 = 0)
    (hsame : ∀ y, pgrounddown y = pa → m.byte y = m₀.byte y) :
    (m₁.copyPage f pa).byte x = m₀.byte (pa + (x - f)) := by
  obtain ⟨hbyte, -⟩ := kalloc_eq_some hk
  obtain ⟨h1, h2⟩ := (pgrounddown_eq_iff hf).mp hx
  have hcopy : (m₁.copyPage f pa).byte x = m₁.byte (pa + (x - f)) :=
    blit_of_mem h1 (by simpa only [pgsize] using h2)
  rw [hcopy, hbyte, hsame _ ((pgrounddown_eq_iff hpa).mpr (by omega))]

theorem copyuvmLoop_stops (hsrc : WF m₀ src) (hsz : sz < 0x80000000) (n : ℕ) :
    ∀ {m : PhysMem} {i : ℕ}, CopyUpTo m₀ m src d i → i % 4096 = 0 → i ≤ pgroundup sz →
      sz ≤ i + 4096 * n → (∀ va, va < i → Present m₀ src va) →
      CopyStops m₀ src sz (copyuvmLoop (n + 1) m src d i sz) := by
  have hup := le_pgroundup (Nat.le_of_lt hsz)
  have hup' := pgroundup_lt (Nat.le_of_lt hsz)
  have hupm := pgroundup_mod sz
  have hdone : ∀ {m : PhysMem} {i : ℕ}, CopyUpTo m₀ m src d i → i % 4096 = 0 → i ≤ pgroundup sz →
      sz ≤ i → (∀ va, va < i → Present m₀ src va) → CopyStops m₀ src sz (.ok (some d, m)) := by
    intro m i h hi hle hge hall
    obtain rfl : i = pgroundup sz := by omega
    exact .copied hall h
  induction n with
  | zero =>
    intro m i h hi hle hfuel hall
    rw [copyuvmLoop, if_neg (by omega)]
    exact hdone h hi hle (by omega) hall
  | succ n ih =>
    intro m i h hi hle hfuel hall
    rw [copyuvmLoop]
    by_cases hlt : i < sz
    · have hu := h.untouched hsrc
      have hnext : u32 (i + pgsize) = i + 4096 := by simp only [u32, pgsize]; omega
      rw [if_pos hlt, walkpgdir_false]
      by_cases hp : Present m₀ src i
      · have ht := (hu.view.present.mpr hp).hasTable
        rw [if_pos ht]
        simp only [← pteOf_of_hasTable ht, hu.view.pteOf]
        rw [if_neg (by exact hp)]
        have hall' : ∀ va, va < i + 4096 → Present m₀ src va := by
          intro va hv
          by_cases hold : va < i
          · exact hall va hold
          · rw [← present_pgrounddown, (pgrounddown_eq_iff hi).mpr (by omega)]
            exact hp
        rcases hk : kalloc m with ⟨_ | f, m₁⟩
        · exact .page h hi hlt hall' hk
        · have hfm := (h.wf.kalloc_some hk).2.isFrame.mod
          have hfl : pteFlags (pteOf m₀ src i) < 4096 := Nat.mod_lt _ (by decide)
          have hb : ∀ x, pgrounddown x ≠ f → (m₁.copyPage f (pageOf m₀ src i)).byte x = m₁.byte x :=
            fun x hx => copyPage_byte hfm hx
          obtain ⟨hpd, -⟩ | ⟨-, m₂, hmap, hlose⟩ | ⟨-, m₂, hmap, hadd⟩ :=
            h.wf.alloc_page hk hb hi (by omega) hfl
          · exact absurd hpd (h.absent (Nat.le_refl _) (by omega))
          · replace hmap : mappages (m₁.copyPage f (pteAddr (pteOf m₀ src i))) d i pgsize f
                (pteFlags (pteOf m₀ src i)) = .ok (-1, m₂) := hmap
            simp only [hmap]
            rw [if_pos (by decide)]
            exact .table h hi hlt hall' (Draws.of_kalloc hk).can hlose
          · replace hmap : mappages (m₁.copyPage f (pteAddr (pteOf m₀ src i))) d i pgsize f
                (pteFlags (pteOf m₀ src i)) = .ok (0, m₂) := hmap
            simp only [hmap]
            rw [if_neg (by decide), hnext]
            refine ih (h.next hi (by omega) hp (fun x hx => ?_) hfm hadd)
              (by omega) (by omega) (by omega) hall'
            exact copied_byte hk hfm hx (pageOf_mod _ _ _) fun y hy => hu.page (by omega) hp hy
      · -- whether there is a page table or not, it panics
        by_cases ht : HasTable m src (pdx i)
        · rw [if_pos ht]
          simp only [← pteOf_of_hasTable ht, hu.view.pteOf]
          rw [if_pos (not_not.mp hp)]
          exact .hole h hlt hp
        · rw [if_neg ht]
          exact .hole h hlt hp
    · rw [if_neg hlt]
      exact hdone h hi hle (by omega) hall

/-- **Where copying an address space stops.** -/
theorem copyuvm_stops (hsrc : WF m src) (hsz : sz < 0x80000000) :
    CopyStops m src sz (copyuvm m src sz) := by
  obtain ⟨m', hset, hfail⟩ | ⟨d, m', hset, hnew⟩ := setupkvm_cases hsrc.free
  · rw [copyuvm, hset]
    exact .kvm hfail
  · rw [copyuvm, hset]
    exact copyuvmLoop_stops hsrc hsz npages (hnew.copyUpTo src) (by decide) (Nat.zero_le _)
      (by simp only [npages]; omega) fun va hv => absurd hv (Nat.not_lt_zero _)

/-- How copying an address space can end. -/
inductive CopyEnds (m₀ : PhysMem) (src sz : ℕ) : Except Panic (Option ℕ × PhysMem) → Prop
  | hole {e : Panic} {va : ℕ} : va < sz → ¬ Present m₀ src va → CanAlloc m₀ (copyCost va) →
      CopyEnds m₀ src sz (.error e)
  /-- It runs out of pages, and before it comes to any such page. -/
  | failed {m' : PhysMem} : (∀ va, va < sz → ¬ Present m₀ src va → ¬ CanAlloc m₀ (copyCost va)) →
      ¬ CanAlloc m₀ (copyCost (pgroundup sz)) → FreeOk m' →
      Transfer pgrounddown m₀.pool ∅ m'.pool ∅ → CopyEnds m₀ src sz (.ok (none, m'))
  | copied {m' : PhysMem} {d : ℕ} : (∀ va, va < pgroundup sz → Present m₀ src va) →
      CopyUpTo m₀ m' src d (pgroundup sz) → CopyEnds m₀ src sz (.ok (some d, m'))

theorem copyuvmBad_ends (hwf : WF m d) (htr : Transfer pgrounddown m₀.pool ∅ m.pool (owned m d))
    (hle : i + 4096 ≤ pgroundup sz) (hall : ∀ va, va < i + 4096 → Present m₀ src va)
    (hcan : ¬ CanAlloc m₀ (copyCost (i + 4096))) : CopyEnds m₀ src sz (copyuvmBad m d) := by
  obtain ⟨m', hfree, hok, htr', -⟩ := freevm_spec hwf
  rw [copyuvmBad, hfree]
  refine .failed (fun va _ hp hc => ?_) (fun hc => hcan (hc.mono (copyCost_mono hle))) hok
    (htr.trans htr')
  have hle : i + 4096 ≤ va := Nat.le_of_not_lt fun hlt => hp (hall va hlt)
  exact hcan (hc.mono (copyCost_mono hle))

/-- **Copying an address space.** -/
theorem copyuvm_ends (hsrc : WF m src) (hsz : sz < 0x80000000) :
    CopyEnds m src sz (copyuvm m src sz) := by
  have hstops := copyuvm_stops hsrc hsz
  have hup := le_pgroundup (Nat.le_of_lt hsz)
  have hupm := pgroundup_mod sz
  generalize copyuvm m src sz = res at hstops
  cases hstops with
  | hole h hlt hp => exact .hole hlt hp h.draws.can
  | kvm hfail =>
    have hshort : ∀ va, ¬ CanAlloc m (copyCost va) := fun va hc =>
      hfail.short (hc.mono (by simp only [copyCost]; omega))
    exact .failed (fun va _ _ => hshort va) (hshort _) hfail.free hfail.transfer
  | @page m' m₁ d i h hi hlt hall hk =>
    obtain ⟨hbyte, hlist, -⟩ := kalloc_eq_none hk
    have hgrow : Grows m' m₁ d := .of_same (h.wf.kalloc_none hk) hbyte hlist
    refine copyuvmBad_ends hgrow.wf (h.transfer.trans hgrow.transfer) (by omega) hall fun hc => ?_
    refine not_canAlloc_of_none hk (h.draws.canAlloc.mp (hc.mono ?_) : CanAlloc m' (0 + 1))
    rw [h.cost hi (by omega)]
    split_ifs <;> omega
  | table h hi hlt hall _ hlose =>
    refine copyuvmBad_ends hlose.keeps.wf (h.transfer.trans hlose.keeps.transfer) (by omega) hall
      fun hc => hlose.short (h.draws.canAlloc.mp ?_)
    rwa [h.cost hi (by omega), if_neg hlose.noTable] at hc
  | copied hall h => exact .copied hall h

/-! ### Two processes -/

variable {c c' : Ctx} {heap : ℕ}

/-- A load at `va` finds the byte `v`. -/
def Reads (c : Ctx) (va : Va) (v : UInt8) : Prop := ∃ c', step c (.load va) = .ok (.byte v, c')

theorem reads_iff (h : Inv heap c) {va : Va} (hlt : va.1 < 0x80000000)
    (hp : Present c.mem c.proc.pgdir va.1) (v : UInt8) :
    Reads c va v ↔ pteFlags (pteOf c.mem c.proc.pgdir va.1) = 7 ∧
      c.mem.byte (physAddr c.mem c.proc.pgdir va.1) = v := by
  have hends := access_ends h va.2 false
  have hok := h.userOk_iff va.2 false
  simp only [hlt, true_and] at hok
  rw [Reads, ← hok]
  simp only [step]
  generalize access c va.1 false = res at hends
  cases hends with
  | hit hu => simp [hu]
  | remap hn hf => simp [hn]
  | killed hn hk => simp [hn]
  | mapped hn hm => exact absurd hp hm.absent

theorem reads_untouched (h : Inv heap c) (hu : Untouched c.mem m' c.proc.pgdir) {va : Va}
    (hlt : va.1 < 0x80000000) (hp : Present c.mem c.proc.pgdir va.1) (v : UInt8) :
    Reads { c with mem := m' } va v ↔ Reads c va v := by
  have hinv : Inv heap { c with mem := m' } := h.sameView hu.wf hu.view h.allocator c.proc.killed
  rw [reads_iff h hlt hp v, reads_iff hinv hlt (hu.view.present.mpr hp) v, hu.view.pteOf]
  refine and_congr_right fun _ => ?_
  have hphys : physAddr m' c.proc.pgdir va.1 = physAddr c.mem c.proc.pgdir va.1 := by
    rw [physAddr, hu.view.pageOf, physAddr]
  rw [hphys, hu.page hlt hp (pgrounddown_physAddr _ _ _)]

/-- The process `child` is a copy of `c`, of which `parent` is what became: it reads the same below
the break, and from now on neither sees what the other does. -/
structure Cloned (c parent child : Ctx) : Prop where
  sz : child.proc.sz = c.proc.sz
  reads : ∀ va v, va.1 < pgroundup c.proc.sz → (Reads child va v ↔ Reads c va v)
  childApart : ∀ ops os c', run ops parent = .ok (os, c') → ∀ va v, va.1 < pgroundup c.proc.sz →
    (Reads { child with mem := c'.mem } va v ↔ Reads child va v)
  parentApart : ∀ ops os c', run ops child = .ok (os, c') → ∀ va v, va.1 < pgroundup c.proc.sz →
    (Reads { parent with mem := c'.mem } va v ↔ Reads parent va v)

section

variable {p : Proc} (h : Inv heap c) (hbyte : m₁.byte = c.mem.byte) (hsrc : WF m₁ c.proc.pgdir)
  (hc : CopyUpTo m₁ m' c.proc.pgdir p.pgdir (pgroundup c.proc.sz))
  (hall : ∀ va, va < pgroundup c.proc.sz → Present m₁ c.proc.pgdir va) (hsz : p.sz = c.proc.sz)
  (hheap : p.heapStart = 0) (ht : p.pageAllocatorType = 0)

include h hbyte hsrc hc hall hsz hheap ht

theorem CopyUpTo.apart : Inv heap { c with mem := m' } ∧ Inv heap ⟨m', p⟩ ∧
    Disjoint (owned m' p.pgdir) (owned m' c.proc.pgdir) := by
  have h₁ : Inv heap { c with mem := m₁ } :=
    h.sameView hsrc (.of_eq hbyte) h.allocator c.proc.killed
  have hu := hc.untouched hsrc
  refine ⟨h₁.sameView hu.wf hu.view h.allocator c.proc.killed,
    ⟨hc.wf, hsz ▸ h.sz_pos, hsz ▸ h.sz_lt, fun va hv hp => ?_, hc.kernel, hheap, .inl ht⟩, ?_⟩
  · by_cases hlt : va < pgroundup c.proc.sz
    · rw [(hc.flags va hlt).2]
      exact h₁.flags va hv (hall va hlt)
    · exact absurd hp (hc.absent (Nat.le_of_not_lt hlt) hv)
  · rw [hu.view.owned]
    exact hc.transfer.disjoint hsrc.owns (Set.empty_disjoint _)

theorem CopyUpTo.cloned : Cloned c { c with mem := m' } ⟨m', p⟩ := by
  have hup := pgroundup_le (Nat.le_of_lt h.sz_lt)
  have hview : SameView c.mem m₁ c.proc.pgdir := .of_eq hbyte
  have h₁ : Inv heap { c with mem := m₁ } := h.sameView hsrc hview h.allocator c.proc.killed
  have hu := hc.untouched hsrc
  obtain ⟨hparent, hchild, hdis⟩ := hc.apart h hbyte hsrc hall hsz hheap ht
  refine ⟨hsz, fun va v hv => ?_, fun ops os c' hr va v hv => ?_, fun ops os c' hr va v hv => ?_⟩
  · have hlt := Nat.lt_of_lt_of_le hv hup
    have hp := hall va.1 hv
    have hp₀ := hview.present.mp hp
    rw [reads_iff hchild hlt (hc.flags va.1 hv).1 v, (hc.flags va.1 hv).2, hc.byte va.1 hv,
      ← reads_iff h₁ hlt hp v]
    exact reads_untouched h ⟨hsrc, hview, fun x _ => congrFun hbyte x⟩ hlt hp₀ v
  · have hkeeps := (hparent.run_keeps hr).1
    exact reads_untouched hchild (hc.wf.untouched hkeeps.transfer hdis.symm hkeeps.wf.free)
      (Nat.lt_of_lt_of_le hv hup) (hc.flags va.1 hv).1 v
  · have hkeeps := (hchild.run_keeps hr).1
    exact reads_untouched hparent (hu.wf.untouched hkeeps.transfer hdis hkeeps.wf.free)
      (Nat.lt_of_lt_of_le hv hup) (hu.view.present.mpr (hall va.1 hv)) v

end

/-! ### `fork` -/

/-- `fork`, called by `c` in slot `cur`, returned -1 or made a clone of `c`. -/
def ForkWorks (c : Ctx) (cur : ℕ) : Except Panic (ℤ × PhysMem × Ptable) → Prop
  | .error _ => False
  | .ok (r, m', t') => r = -1 ∨ ∃ i, i ≠ cur ∧ (t'.proc i).pid = r ∧
      (t'.proc i).state = .runnable ∧ t'.proc cur = c.proc ∧
        Cloned c ⟨m', t'.proc cur⟩ ⟨m', t'.proc i⟩

/-- There is no slot for a child, or before the copy comes to a page that is not present it runs out
of pages. -/
def ForkSafe (c : Ctx) (t : Ptable) : Prop :=
  (∀ i, i < nproc → (t.proc i).state ≠ .unused) ∨
    ∀ va, va < c.proc.sz → ¬ Present c.mem c.proc.pgdir va → ¬ CanAlloc c.mem (copyCost va + 1)

/-- What `allocproc` does: find no slot, find no kernel stack and give the slot back, or make a new
process. -/
theorem allocproc_cases (m : PhysMem) (t : Ptable) :
    (allocproc m t = (none, m, t) ∧ ∀ i, i < nproc → (t.proc i).state ≠ .unused) ∨
      ∃ i m', i < nproc ∧ (t.proc i).state = .unused ∧
        ((kalloc m = (none, m') ∧ allocproc m t = (none, m',
            { t with nextpid := t.nextpid + 1 }.set i { t.proc i with
              state := .unused, pid := t.nextpid, heapStart := 0, pageAllocatorType := 0
              kstack := 0 })) ∨
          ∃ k, kalloc m = (some k, m') ∧ allocproc m t = (some i, m',
            { t with nextpid := t.nextpid + 1 }.set i { t.proc i with
              state := .embryo, pid := t.nextpid, heapStart := 0, pageAllocatorType := 0
              kstack := k })) := by
  rw [allocproc]
  cases hfind : (List.range nproc).find? fun i => (t.proc i).state = .unused with
  | none =>
    refine .inl ⟨rfl, fun i hi hun => ?_⟩
    simpa [hun] using List.find?_eq_none.mp hfind i (List.mem_range.mpr hi)
  | some i =>
    have hun : (t.proc i).state = .unused := by simpa using List.find?_some hfind
    have hi := List.mem_range.mp (List.mem_of_find?_eq_some hfind)
    rcases hk : kalloc m with ⟨_ | k, m'⟩
    · exact .inr ⟨i, m', hi, hun, .inl ⟨rfl, rfl⟩⟩
    · exact .inr ⟨i, m', hi, hun, .inr ⟨k, rfl, rfl⟩⟩

theorem fork_cases (h : Inv heap c) (hrun : c.proc.state = .running) {t : Ptable} {cur : ℕ}
    (ht : t.proc cur = c.proc) : (ForkSafe c t ∧ ForkWorks c cur (fork c.mem t cur)) ∨
      (¬ ForkSafe c t ∧ ∃ e, fork c.mem t cur = .error e) := by
  obtain ⟨hal, hfull⟩ | ⟨i, m₁, hi, hun, ⟨hk, hal⟩ | ⟨k, hk, hal⟩⟩ := allocproc_cases c.mem t
  · refine .inl ⟨.inl hfull, ?_⟩
    rw [fork, hal]
    exact .inl rfl
  · refine .inl ⟨.inr fun va _ _ hc => not_canAlloc_of_none hk hc, ?_⟩
    rw [fork, hal]
    exact .inl rfl
  · have hne : i ≠ cur := by
      rintro rfl
      rw [ht, hrun] at hun
      cases hun
    obtain ⟨hwf, hfresh⟩ := h.wf.kalloc_some hk
    obtain ⟨hbyte, -⟩ := kalloc_eq_some hk
    have hview : SameView c.mem m₁ c.proc.pgdir := .of_eq hbyte
    have hcan : ∀ n, CanAlloc c.mem (n + 1) ↔ CanAlloc m₁ n := fun n => canAlloc_succ_iff hk
    have hends := copyuvm_ends hwf h.sz_lt
    rw [fork, hal, ht]
    simp only
    generalize copyuvm m₁ c.proc.pgdir c.proc.sz = res at hends
    cases hends with
    | @hole e va hlt hp hc =>
      refine .inr ⟨?_, e, rfl⟩
      rintro (hfull | hsafe)
      · exact hfull i hi hun
      · exact hsafe va hlt (fun hp₀ => hp (hview.present.mpr hp₀)) ((hcan _).mpr hc)
    | failed hno _ hfree htr =>
      refine .inl ⟨.inr fun va hlt hp hc => ?_, ?_⟩
      · exact hno va hlt (fun hp₁ => hp (hview.present.mp hp₁)) ((hcan _).mp hc)
      · simp only [Ptable.set, update_self, kfree_of_isFrame hfresh.isFrame]
        exact .inl rfl
    | copied hall hcopy =>
      refine .inl ⟨.inr fun va hlt hp => absurd (hview.present.mp (hall va ?_)) hp, ?_⟩
      · exact Nat.lt_of_lt_of_le hlt (le_pgroundup (Nat.le_of_lt h.sz_lt))
      · simp only [Ptable.set, update_self, update_idem]
        refine .inr ⟨i, hne, ?_⟩
        simp only [update_self, update_of_ne hne.symm, ht]
        exact ⟨trivial, trivial, trivial, hcopy.cloned h hbyte hwf hall rfl rfl rfl⟩

/-- **When `fork` works.** In a state a process can reach, for every outcome of `kalloc`: `fork`
does not panic, and returns -1 or makes a clone, exactly if it is safe. -/
theorem fork_works_iff (hr : Reachable c) (hrun : c.proc.state = .running) (t : Ptable) (cur : ℕ)
    (ht : t.proc cur = c.proc) : ForkWorks c cur (fork c.mem t cur) ↔ ForkSafe c t := by
  obtain ⟨heap, h⟩ := reachable_inv hr
  obtain ⟨hsafe, hworks⟩ | ⟨hsafe, e, herr⟩ := fork_cases h hrun ht
  · exact iff_of_true hworks hsafe
  · rw [herr]
    exact iff_of_false id hsafe

/-- A process table with one process in it. -/
def Ptable.only (p : Proc) : Ptable where
  proc i := if i = 0 then p else { p with state := .unused, killed := false }
  nextpid := 4

/-- The pages from 3 MB on. -/
def Tiny.frames (n : ℕ) : List ℕ := (List.range n).map fun i => 0x300000 + 4096 * i

theorem Tiny.frames_ok {n : ℕ} (hn : n ≤ 0x1000) :
    (frames n).Nodup ∧ ∀ f ∈ frames n, IsFrame f ∧ 0x246000 ≤ f := by
  refine ⟨List.nodup_range.map fun i j hij => by simpa using hij, fun f hf => ?_⟩
  obtain ⟨i, hi, rfl⟩ := List.mem_map.mp hf
  have hi := List.mem_range.mp hi
  simp only [IsFrame, pgsize, endPhys, phystop]
  omega

/-- The smallest image, which has no holes, forks. -/
theorem fork_works_iff_tiny :
    ForkWorks (Tiny.image (Tiny.frames 80)) 0
      (fork (Tiny.image (Tiny.frames 80)).mem (.only (Tiny.image (Tiny.frames 80)).proc) 0) := by
  have hok := Tiny.frames_ok (by decide : 80 ≤ 0x1000)
  generalize Tiny.frames 80 = free at hok ⊢
  refine (fork_works_iff (Tiny.image_reachable hok.1 hok.2) rfl _ 0 rfl).mpr (.inr ?_)
  intro va hv hp
  exact fun _ => hp (Tiny.image_full hv)

/-- The smallest image turns to the lazy allocator, asks for a page, does not touch it, and forks:
the kernel panics. -/
theorem fork_panics_on_hole :
    ∃ c t, Reachable c ∧ c.proc.state = .running ∧ t.proc 0 = c.proc ∧
      (∃ e, fork c.mem t 0 = .error e) ∧ ¬ ForkWorks c 0 (fork c.mem t 0) := by
  have hok := Tiny.frames_ok (by decide : 70 ≤ 0x1000)
  let c := Tiny.lazyImage (Tiny.frames 70) 4096
  have hr : Reachable c :=
    Tiny.lazyImage_reachable hok.1 hok.2 ⟨4096, by decide⟩ (by decide) (by decide)
  obtain ⟨heap, h⟩ := reachable_inv hr
  have hunsafe : ¬ ForkSafe c (.only c.proc) := by
    rintro (hfull | hsafe)
    · exact hfull 1 (by decide) rfl
    · refine hsafe 0x3000 (by decide) ?_ ⟨by decide, by simp [c, Tiny.lazyImage, Tiny.mem]⟩
      have hpte : pteOf c.mem c.proc.pgdir 0x3000 = 0 := Tiny.pteOf_eq (by decide)
      rw [Present, hpte]
      decide
  obtain ⟨hsafe, -⟩ | ⟨-, e, herr⟩ := fork_cases h rfl (rfl : (Ptable.only c.proc).proc 0 = c.proc)
  · exact absurd hsafe hunsafe
  · exact ⟨c, .only c.proc, hr, rfl, rfl, ⟨e, herr⟩, by rw [herr]; exact id⟩

end Xv6
