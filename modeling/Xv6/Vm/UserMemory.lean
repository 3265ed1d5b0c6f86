import Xv6.Vm.Frames

/-!
# Growing and shrinking user memory

`allocuvm` and `deallocuvm` from `vm.c`.

## What `deallocuvm` visits

The loop of `deallocuvm` goes page by page, and where a 4 MB region has no page table it adds
`(NPTENTRIES - 1) * PGSIZE` before the loop adds `PGSIZE`. That lands at the *same offset* of the
next region, not at its start. `Visited` is the set of pages the loop looks at, in closed form: a
page is passed over when no region between the starting one and its own has a table and its offset
lies below the starting offset. `deallocuvm_spec` says the call unmaps and frees exactly the
present pages among those.

## Main results

* `deallocuvm_spec` — shrinking
* `allocuvm_spec` — growing, with its three ways to end, and which of them it takes
-/

namespace Xv6

open ByteMemory PhysMem Ownership

/-- The loop of `deallocuvm`, at the page `a`. -/
def deallocuvmLoop : ℕ → PhysMem → (pgdir a oldsz : ℕ) → Except Panic PhysMem
  | 0, _, _, _, _ => .error .diverges
  | n + 1, m, pgdir, a, oldsz =>
    if a < oldsz then
      match walkpgdir m pgdir a false with
      | (none, m) =>
        deallocuvmLoop n m pgdir (u32 (u32 (a + (nptentries - 1) * pgsize) + pgsize)) oldsz
      | (some pte, m) =>
        if m.load pte &&& pteP ≠ 0 then
          let pa := pteAddr (m.load pte)
          if pa = 0 then .error .kfree
          else
            match kfree m pa with
            | .error e => .error e
            | .ok m => deallocuvmLoop n (m.store pte 0) pgdir (u32 (a + pgsize)) oldsz
        else deallocuvmLoop n m pgdir (u32 (a + pgsize)) oldsz
    else .ok m

/-- Deallocate user pages to bring the process size from `oldsz` to `newsz`. Returns the new
process size. -/
def deallocuvm (m : PhysMem) (pgdir oldsz newsz : ℕ) : Except Panic (ℕ × PhysMem) :=
  if newsz ≥ oldsz then .ok (oldsz, m)
  else
    match deallocuvmLoop (npages + 1) m pgdir (pgroundup newsz) oldsz with
    | .error e => .error e
    | .ok m => .ok (newsz, m)

/-- The loop of `allocuvm`, at the page `a`. The result of `mappages` is not looked at. -/
def allocuvmLoop : ℕ → PhysMem → (pgdir oldsz newsz a : ℕ) → Except Panic (ℕ × PhysMem)
  | 0, _, _, _, _, _ => .error .diverges
  | n + 1, m, pgdir, oldsz, newsz, a =>
    if a < newsz then
      match kalloc m with
      | (none, m) =>
        match deallocuvm m pgdir newsz oldsz with
        | .error e => .error e
        | .ok (_, m) => .ok (0, m)
      | (some mem, m) =>
        match mappages (m.setPage mem 0) pgdir a pgsize mem (pteW ||| pteU) with
        | .error e => .error e
        | .ok (_, m) => allocuvmLoop n m pgdir oldsz newsz (u32 (a + pgsize))
    else .ok (newsz, m)

/-- Allocate page tables and physical memory to grow a process from `oldsz` to `newsz`. Returns
the new size, or 0 on error. -/
def allocuvm (m : PhysMem) (pgdir oldsz newsz : ℕ) : Except Panic (ℕ × PhysMem) :=
  if newsz ≥ kernbase then .ok (0, m)
  else if newsz < oldsz then .ok (oldsz, m)
  else allocuvmLoop (npages + 1) m pgdir oldsz newsz (pgroundup oldsz)

variable {m m' m'' m₁ : PhysMem} {d va a oldsz newsz : ℕ} {S S' : ℕ → Prop} {f : ℕ}

/-! ### Shrinking -/

/-- The pages the loop of `deallocuvm` looks at when it starts at `a`, among those whose region
has a page table. -/
def Visited (m : PhysMem) (d a oldsz va : ℕ) : Prop :=
  a ≤ va ∧ va < oldsz ∧ ((∃ j, pdx a ≤ j ∧ j < pdx va ∧ HasTable m d j) ∨ ptx a ≤ ptx va)

theorem visited_congr (h : ∀ i, i < 1024 → (HasTable m' d i ↔ HasTable m d i)) :
    Visited m' d a oldsz va ↔ Visited m d a oldsz va := by
  refine and_congr_right fun _ => and_congr_right fun _ => or_congr_left (exists_congr fun j =>
    and_congr_right fun _ => and_congr_right fun hj => h j ?_)
  exact Nat.lt_trans hj (pdx_lt va)

theorem visited_step (ht : HasTable m d (pdx a)) (ha : a % 4096 = 0) (hva : va % 4096 = 0)
    (hlt : a < oldsz) (hold : oldsz ≤ 0x80000000) :
    Visited m d a oldsz va ↔ va = a ∨ Visited m d (a + 4096) oldsz va := by
  constructor
  · rintro ⟨hle, hvo, -⟩
    by_cases heq : va = a
    · exact .inl heq
    · refine .inr ⟨by omega, hvo, ?_⟩
      by_cases hreg : pdx va = pdx a ∨ pdx (a + 4096) = pdx a + 1
      · right
        simp only [pdx, ptx, pgsize, npdentries, nptentries] at hreg ⊢
        omega
      · refine .inl ⟨pdx a, ?_, ?_, ht⟩ <;>
        · simp only [pdx, npdentries] at hreg ⊢
          omega
  · rintro (rfl | ⟨hle, hvo, -⟩)
    · exact ⟨Nat.le_refl _, hlt, .inr (Nat.le_refl _)⟩
    · refine ⟨by omega, hvo, ?_⟩
      by_cases hreg : pdx va = pdx a
      · right
        simp only [pdx, ptx, pgsize, npdentries, nptentries] at hreg ⊢
        omega
      · refine .inl ⟨pdx a, Nat.le_refl _, ?_, ht⟩
        simp only [pdx, npdentries] at hreg ⊢
        omega

theorem visited_skip (hn : ¬ HasTable m d (pdx a)) (ht : HasTable m d (pdx va))
    (ha : a % 4096 = 0) (hva : va % 4096 = 0) (hold : oldsz ≤ 0x80000000) :
    Visited m d a oldsz va ↔ Visited m d (a + 4194304) oldsz va := by
  have hne : pdx va ≠ pdx a := fun he => hn (he ▸ ht)
  constructor
  · rintro ⟨hle, hvo, ⟨j, hj, hjv, htj⟩ | hoff⟩
    · have hja : j ≠ pdx a := by rintro rfl; exact hn htj
      refine ⟨?_, hvo, .inl ⟨j, ?_, hjv, htj⟩⟩ <;>
      · simp only [pdx, npdentries] at *
        omega
    · refine ⟨?_, hvo, .inr ?_⟩ <;>
      · simp only [pdx, ptx, pgsize, npdentries, nptentries] at *
        omega
  · rintro ⟨hle, hvo, ⟨j, hj, hjv, htj⟩ | hoff⟩
    · refine ⟨by omega, hvo, .inl ⟨j, ?_, hjv, htj⟩⟩
      simp only [pdx, npdentries] at *
      omega
    · refine ⟨by omega, hvo, .inr ?_⟩
      simp only [ptx, pgsize, nptentries] at *
      omega

/-- The loop of `deallocuvm` ends and unmaps the pages it visits. -/
theorem deallocuvmLoop_spec (hold : oldsz ≤ 0x80000000) (n : ℕ) :
    ∀ {m : PhysMem} {a : ℕ}, WF m d → a % 4096 = 0 → oldsz ≤ a + 4096 * n →
      ∃ m', deallocuvmLoop (n + 1) m d a oldsz = .ok m' ∧ Unmaps m m' d (Visited m d a oldsz) := by
  induction n with
  | zero =>
    intro m a h ha hfuel
    refine ⟨m, ?_, .refl h fun va _ hv _ => ?_⟩
    · rw [deallocuvmLoop, if_neg (by omega)]
    · have h1 := hv.1
      have h2 := hv.2.1
      omega
  | succ n ih =>
    intro m a h ha hfuel
    rw [deallocuvmLoop]
    by_cases hlt : a < oldsz
    · rw [if_pos hlt, walkpgdir_false]
      by_cases ht : HasTable m d (pdx a)
      · rw [if_pos ht]
        have hnext : u32 (a + pgsize) = a + 4096 := by simp only [u32, pgsize]; omega
        simp only [← pteOf_of_hasTable ht, hnext]
        by_cases hp : Present m d a
        · obtain ⟨m₁, hfree, hun⟩ := h.free_page ha (by omega) hp
          have hfr := h.isFrame (.user' (by omega) hp)
          rw [if_pos (by exact hp), if_neg (by exact Nat.ne_of_gt hfr.pos)]
          rw [show pteAddr (pteOf m d a) = pageOf m d a from rfl, hfree]
          obtain ⟨m', hloop, hun'⟩ := ih hun.keeps.wf (by omega : (a + 4096) % 4096 = 0) (by omega)
          refine ⟨m', hloop, (hun.trans hun').congr fun va hva _ _ => ?_⟩
          rw [visited_step ht ha hva hlt hold, visited_congr fun i hi => hun.hasTable hi]
        · rw [if_neg (by exact hp)]
          obtain ⟨m', hloop, hun⟩ := ih h (by omega : (a + 4096) % 4096 = 0) (by omega)
          refine ⟨m', hloop, hun.congr fun va hva _ hpv => ?_⟩
          rw [visited_step ht ha hva hlt hold, or_iff_right]
          rintro rfl
          exact hp hpv
      · rw [if_neg ht]
        have hnext : u32 (u32 (a + (nptentries - 1) * pgsize) + pgsize) = a + 4194304 := by
          simp only [u32, nptentries, pgsize]; omega
        simp only [hnext]
        obtain ⟨m', hloop, hun⟩ := ih h (by omega : (a + 4194304) % 4096 = 0) (by omega)
        refine ⟨m', hloop, hun.congr fun va hva _ hpv => ?_⟩
        rw [visited_skip ht hpv.hasTable ha hva hold]
    · refine ⟨m, if_neg hlt, .refl h fun va _ hv _ => ?_⟩
      have h1 := hv.1
      have h2 := hv.2.1
      omega

/-- **Shrinking.** `deallocuvm` does not panic, and unmaps and frees the pages it visits. -/
theorem deallocuvm_spec (h : WF m d) (hold : oldsz ≤ 0x80000000) (hlt : newsz < oldsz) :
    ∃ m', deallocuvm m d oldsz newsz = .ok (newsz, m') ∧
      Unmaps m m' d (Visited m d (pgroundup newsz) oldsz) := by
  obtain ⟨m', hloop, hun⟩ := deallocuvmLoop_spec hold npages h (pgroundup_mod newsz)
    (by simp only [npages]; omega)
  exact ⟨m', by rw [deallocuvm, if_neg (by omega), hloop], hun⟩

/-! ### Growing -/

/-- What a memory looks like after zeroed pages were mapped, user-writable, at the addresses in
`S`. -/
structure Allocs (m m' : PhysMem) (d : ℕ) (S : ℕ → Prop) : Prop where
  keeps : Keeps m m' d
  absent : ∀ va, va < 0x80000000 → S (pgrounddown va) → ¬ Present m d va
  flags : ∀ va, va < 0x80000000 → S (pgrounddown va) → pteFlags (pteOf m' d va) = 7
  kept : ∀ va, va < 2 ^ 32 → ¬ (va < 0x80000000 ∧ S (pgrounddown va)) →
    pteOf m' d va = pteOf m d va
  zero : ∀ va x, va < 0x80000000 → S (pgrounddown va) → pgrounddown x = pageOf m' d va →
    m'.byte x = 0
  byte : ∀ va x, va < 0x80000000 → Present m d va → pgrounddown x = pageOf m d va →
    m'.byte x = m.byte x
  hasTable : ∀ k, k < 1024 →
    (HasTable m' d k ↔ HasTable m d k ∨ ∃ va, va < 0x80000000 ∧ S va ∧ pdx va = k)
  failures : m.failures ≤ m'.failures

theorem Keeps.allocs (h : Keeps m m' d) (hview : SameView m m' d)
    (hbyte : ∀ va x, va < 0x80000000 → Present m d va → pgrounddown x = pageOf m d va →
      m'.byte x = m.byte x) (hfail : m.failures ≤ m'.failures) : Allocs m m' d fun _ => False :=
  ⟨h, fun _ _ hs => hs.elim, fun _ _ hs => hs.elim, fun va _ _ => hview.pteOf va,
    fun _ _ _ hs => hs.elim, hbyte, fun k hk => by simp [hview.hasTable hk], hfail⟩

theorem Allocs.refl (h : WF m d) : Allocs m m d fun _ => False :=
  (Keeps.refl h).allocs (.of_eq rfl) (fun _ _ _ _ _ => rfl) (Nat.le_refl _)

section

variable (h : Allocs m m' d S)

include h

theorem Allocs.present_iff (hv : va < 0x80000000) :
    Present m' d va ↔ Present m d va ∨ S (pgrounddown va) := by
  by_cases hS : S (pgrounddown va)
  · have hf := h.flags va hv hS
    have hp : Present m' d va := by
      rw [Present, and_flags _ (by decide), hf]
      decide
    exact ⟨fun _ => .inr hS, fun _ => hp⟩
  · rw [Present, h.kept va (by omega) (fun hc => hS hc.2), ← Present, or_iff_left hS]

theorem Allocs.pageOf_eq (hv : va < 0x80000000) (hp : Present m d va) :
    pageOf m' d va = pageOf m d va := by
  rw [pageOf, h.kept va (by omega) fun hc => h.absent va hv hc.2 hp, pageOf]

theorem Allocs.trans (h' : Allocs m' m'' d S') : Allocs m m'' d fun va => S va ∨ S' va := by
  refine ⟨h.keeps.trans h'.keeps, fun va hv hs => ?_, fun va hv hs => ?_, fun va hlt hn => ?_,
    fun va x hv hs hx => ?_, fun va x hv hp hx => ?_, fun k hk => ?_,
    Nat.le_trans h.failures h'.failures⟩
  · rcases hs with hs | hs
    · exact h.absent va hv hs
    · exact fun hp => h'.absent va hv hs ((h.present_iff hv).mpr (.inl hp))
  · by_cases hS' : S' (pgrounddown va)
    · exact h'.flags va hv hS'
    · rw [h'.kept va (by omega) fun hc => hS' hc.2]
      exact h.flags va hv (hs.resolve_right hS')
  · rw [h'.kept va hlt fun hc => hn ⟨hc.1, .inr hc.2⟩, h.kept va hlt fun hc => hn ⟨hc.1, .inl hc.2⟩]
  · by_cases hS' : S' (pgrounddown va)
    · exact h'.zero va x hv hS' hx
    · have hS := hs.resolve_right hS'
      have hp := (h.present_iff hv).mpr (.inr hS)
      rw [h'.pageOf_eq hv hp] at hx
      rw [h'.byte va x hv hp hx, h.zero va x hv hS hx]
  · rw [h'.byte va x hv ((h.present_iff hv).mpr (.inl hp)) (by rw [h.pageOf_eq hv hp, hx]),
      h.byte va x hv hp hx]
  · rw [h'.hasTable k hk, h.hasTable k hk]
    constructor
    · rintro ((ht | ⟨va, hv, hs, hk⟩) | ⟨va, hv, hs, hk⟩)
      · exact .inl ht
      · exact .inr ⟨va, hv, .inl hs, hk⟩
      · exact .inr ⟨va, hv, .inr hs, hk⟩
    · rintro (ht | ⟨va, hv, hs | hs, hk⟩)
      · exact .inl (.inl ht)
      · exact .inl (.inr ⟨va, hv, hs, hk⟩)
      · exact .inr ⟨va, hv, hs, hk⟩

theorem Allocs.congr (hS : ∀ va, S va ↔ S' va) : Allocs m m' d S' := by
  rwa [show S' = S from funext fun va => propext (hS va).symm]

end

theorem AddsPage.allocs {w : ℕ} {b : ℕ → UInt8} (h : AddsPage m m' d a w b) (ha : a % 4096 = 0)
    (hv : a < 0x80000000) (hp : ¬ Present m d a) (hw : pteFlags w = 7)
    (hb : ∀ x, pgrounddown x = pteAddr w → b x = 0) : Allocs m m' d (· = a) := by
  have halt : a < 2 ^ 32 := by omega
  have hent : ∀ va, va < 0x80000000 → pgrounddown va = a →
      Xv6.pteOf m' d va = w := fun va hv hs => by
    rw [h.pteOf, if_pos ((index_iff_page ha halt (by omega)).mpr hs)]
  refine ⟨h.keeps, fun va _ hs hpv => hp ?_, fun va hv hs => by rw [hent va hv hs, hw],
    fun va hlt hn => ?_, fun va x hv hs hx => ?_, fun va x hv hpv hx => h.byte va x hv hpv hx,
    fun k hk => ?_, Nat.le_of_eq h.failures.symm⟩
  · rw [← hs]; exact present_pgrounddown.mpr hpv
  · rw [h.pteOf, if_neg]
    intro hc
    have heq := (index_iff_page ha halt hlt).mp hc
    have hlt' := lt_pgrounddown_add va
    exact hn ⟨by omega, heq⟩
  · rw [pageOf, hent va hv hs] at hx
    rw [h.filled x hx, hb x hx]
  · rw [h.hasTable k hk]
    refine or_congr_right ⟨?_, ?_⟩
    · rintro rfl
      exact ⟨a, hv, rfl, rfl⟩
    · rintro ⟨va, -, rfl, hk⟩
      exact hk.symm

theorem LosesPage.allocs (h : LosesPage m m' d a f) (hwf : WF m d) :
    Allocs m m' d fun _ => False := by
  refine h.keeps.allocs h.view (fun va x hv hp hx => h.byte x fun he => ?_) ?_
  · refine hwf.notFree (.user' hv hp) ?_
    rw [← hx, he, h.freelist]
    exact List.mem_cons_self
  · rw [h.failures]; exact Nat.le_succ _

theorem setPage_zero (hf : f % 4096 = 0) {x : ℕ} (hx : pgrounddown x = f) :
    fill m.byte f 0 pgsize x = 0 := by
  obtain ⟨h1, h2⟩ := (pgrounddown_eq_iff hf).mp hx
  exact fill_of_mem h1 (by simpa only [pgsize] using h2)

theorem WF.allocs_none (h : WF m d) (hk : kalloc m = (none, m₁)) :
    Allocs m m₁ d fun _ => False := by
  obtain ⟨hbyte, hlist, -, hfail⟩ := kalloc_eq_none hk
  have hgrow : Grows m m₁ d := .of_same (h.kalloc_none hk) hbyte hlist
  exact Keeps.allocs ⟨hgrow.wf, hgrow.transfer⟩ (.of_eq hbyte) (fun _ x _ _ _ => by rw [hbyte])
    (by omega)

/-- What one round of the loop can do: run out of pages, panic, lose a page for want of a page
table, or map it. -/
inductive AllocRound (m : PhysMem) (d oldsz newsz a n : ℕ) : Except Panic (ℕ × PhysMem) → Prop
  /-- There is no page. What was mapped is unmapped again. -/
  | failed {m₁ m' : PhysMem} : kalloc m = (none, m₁) →
      Unmaps m₁ m' d (Visited m₁ d (pgroundup oldsz) newsz) →
      AllocRound m d oldsz newsz a n (.ok (0, m'))
  | remap : CanAlloc m 1 → Present m d a → AllocRound m d oldsz newsz a n (.error .remap)
  /-- There is no page table. The loop goes on. -/
  | lost {m₁ : PhysMem} {f : ℕ} : CanAlloc m 1 → LosesPage m m₁ d a f →
      AllocRound m d oldsz newsz a n (allocuvmLoop n m₁ d oldsz newsz (a + 4096))
  | mapped {m₁ : PhysMem} : Allocs m m₁ d (· = a) →
      (∀ k, k < 1024 → (HasTable m₁ d k ↔ HasTable m d k ∨ k = pdx a)) →
      Draws m m₁ (1 + if HasTable m d (pdx a) then 0 else 1) →
      AllocRound m d oldsz newsz a n (allocuvmLoop n m₁ d oldsz newsz (a + 4096))

theorem allocuvmLoop_round (h : WF m d) (ha : a % 4096 = 0) (hlt : a < newsz)
    (hnew : newsz < 0x80000000) (hold : oldsz < newsz) (n : ℕ) :
    AllocRound m d oldsz newsz a n (allocuvmLoop (n + 1) m d oldsz newsz a) := by
  rw [allocuvmLoop, if_pos hlt]
  rcases hk : kalloc m with ⟨_ | f, m₁⟩
  · obtain ⟨m', hde, hun⟩ := deallocuvm_spec (h.kalloc_none hk) (Nat.le_of_lt hnew) hold
    simp only [hde]
    exact .failed hk hun
  · have hfm := (h.kalloc_some hk).2.isFrame.mod
    have hb : ∀ x, pgrounddown x ≠ f → fill m₁.byte f 0 pgsize x = m₁.byte x :=
      fun x hx => setPage_byte (m := m₁) hfm hx
    have hnext : u32 (a + pgsize) = a + 4096 := by simp only [u32, pgsize]; omega
    have hcase := h.alloc_page hk hb ha (by omega : a < 0x80000000)
      (show pteW ||| pteU < 4096 by decide)
    rw [show ({ m₁ with byte := fill m₁.byte f 0 pgsize } : PhysMem) = m₁.setPage f 0 from rfl]
      at hcase
    obtain ⟨hp, hmap⟩ | ⟨hp, m₂, hmap, hlose⟩ | ⟨hp, m₂, hmap, hadd⟩ := hcase
    · simp only [hmap]
      exact .remap (Draws.of_kalloc hk).can hp
    · simp only [hmap, hnext]
      exact .lost (Draws.of_kalloc hk).can hlose
    · simp only [hmap, hnext]
      refine .mapped (hadd.allocs ha (by omega) hp ?_ fun x hx => ?_) hadd.hasTable ?_
      · rw [pteFlags_entry hfm (by decide)]
        decide
      · exact setPage_zero hfm (hx.trans (pteAddr_entry hfm (by decide)))
      · have hdraws := hadd.draws
        split_ifs at hdraws ⊢ <;> exact hdraws

/-! #### The rounds, told before -/

/-- The call `j` of `kalloc` from now on succeeds, if `i` calls did so before. -/
def Gets (m : PhysMem) (i j : ℕ) : Prop := i < m.freelist.length ∧ m.starve[j]? ≠ some true

instance (m : PhysMem) (i j : ℕ) : Decidable (Gets m i j) := by unfold Gets; infer_instance

theorem canAlloc_one : CanAlloc m 1 ↔ Gets m 0 0 := by
  cases hs : m.starve <;> simp [CanAlloc, Gets, hs, Nat.one_le_iff_ne_zero, Nat.pos_iff_ne_zero]

theorem canAlloc_two : CanAlloc m 2 ↔ CanAlloc m 1 ∧ Gets m 1 1 := by
  rcases hs : m.starve with _ | ⟨b, _ | ⟨b', l⟩⟩ <;> simp [CanAlloc, Gets, hs] <;> grind

/-- The region `k` has a page table when the pages `S` are mapped. -/
def Tabled (m : PhysMem) (d : ℕ) (S : List ℕ) (k : ℕ) :
    Prop := HasTable m d k ∨ ∃ va ∈ S, pdx va = k

instance (m : PhysMem) (d : ℕ) (S : List ℕ) (k : ℕ) : Decidable (Tabled m d S k) := by
  unfold Tabled; infer_instance

/-- How the loop of `allocuvm` goes: to the end, into a page that is present, or until there is no
page. `S` are the pages it maps. -/
inductive Growth
  | full (S : List ℕ)
  | remap
  | short (S : List ℕ)

/-- How the loop goes on from the page `a`, told from the memory before the call, when it has mapped
the pages `S` and `i` of `j` calls of `kalloc` succeeded. A page takes one call and, where the
region has no page table, a second one. If this one fails, the page is left out. -/
def growth (m : PhysMem) (d newsz : ℕ) : ℕ → ℕ → ℕ → List ℕ → ℕ → Growth
  | 0, _, _, S, _ => .full S
  | n + 1, i, j, S, a =>
    if newsz ≤ a then .full S
    else if ¬ Gets m i j then .short S
    else if Present m d a then .remap
    else if Tabled m d S (pdx a) then growth m d newsz n (i + 1) (j + 1) (a :: S) (a + 4096)
    else if Gets m (i + 1) (j + 1) then growth m d newsz n (i + 2) (j + 2) (a :: S) (a + 4096)
    else growth m d newsz n (i + 1) (j + 2) S (a + 4096)

/-- How the loop of `allocuvm` ends when it goes so from `a` on: in the `remap` panic, because a
page of the range was present; with every page mapped for which there was a page table; or having
run out of pages, after undoing what it did as far as `deallocuvm` finds it. -/
def Growth.Ends (m : PhysMem) (d oldsz newsz a : ℕ) (res : Except Panic (ℕ × PhysMem)) :
    Growth → Prop
  | .full S => ∃ m', res = .ok (newsz, m') ∧ Allocs m m' d (· ∈ S) ∧
      (∀ va ∈ S, va % 4096 = 0 ∧ a ≤ va ∧ va < newsz) ∧
      (m'.failures = m.failures → ∀ va, va % 4096 = 0 → a ≤ va → va < newsz → va ∈ S)
  | .remap => res = .error .remap ∧ ∃ va, va % 4096 = 0 ∧ a ≤ va ∧ va < newsz ∧ Present m d va
  | .short S => ∃ m₁ m', res = .ok (0, m') ∧ Allocs m m₁ d (· ∈ S) ∧
      (∀ va ∈ S, va % 4096 = 0 ∧ a ≤ va ∧ va < newsz) ∧
      Unmaps m₁ m' d (Visited m₁ d (pgroundup oldsz) newsz) ∧ m.failures < m'.failures

/-- The pages `S` from `a₀` up to `a` have been mapped, with `j` calls of `kalloc` of which `i`
succeeded. -/
structure Grown (m₀ m : PhysMem) (d newsz a₀ i j : ℕ) (S : List ℕ) (a : ℕ) : Prop where
  allocs : Allocs m₀ m d (· ∈ S)
  range : ∀ va ∈ S, va % 4096 = 0 ∧ a₀ ≤ va ∧ va < a ∧ va < newsz
  all : m.failures = m₀.failures → ∀ va, va % 4096 = 0 → a₀ ≤ va → va < a → va ∈ S
  freelist : m.freelist = m₀.freelist.drop i
  starve : m.starve = m₀.starve.drop j

theorem Grown.refl (h : WF m d) (newsz a : ℕ) : Grown m m d newsz a 0 0 [] a where
  allocs := (Allocs.refl h).congr fun va => by simp
  range := nofun
  all _ va _ h1 h2 := absurd h1 (Nat.not_le.mpr h2)
  freelist := rfl
  starve := rfl

namespace Grown

variable {m₀ : PhysMem} {a₀ i j : ℕ} {S : List ℕ} (h : Grown m₀ m d newsz a₀ i j S a)

include h

theorem gets (x : ℕ) : Gets m x x ↔ Gets m₀ (i + x) (j + x) := by
  rw [Gets, Gets, h.freelist, h.starve, List.length_drop, List.getElem?_drop]
  exact and_congr_left fun _ => by omega

theorem tabled (hnew : newsz < 0x80000000) : Tabled m₀ d S (pdx a) ↔ HasTable m d (pdx a) := by
  rw [h.allocs.hasTable _ (pdx_lt a)]
  refine or_congr_right (exists_congr fun va => ⟨fun hs => ⟨?_, hs⟩, fun hs => hs.2⟩)
  have := (h.range va hs.1).2.2.2
  omega

theorem present (ha : a % 4096 = 0) (hv : a < 0x80000000) : Present m d a ↔ Present m₀ d a := by
  rw [h.allocs.present_iff hv, pgrounddown_of_mod ha]
  exact or_iff_left fun hs => Nat.lt_irrefl a (h.range a hs).2.2.1

theorem lose (hl : LosesPage m m₁ d a f) (hwf : WF m d) :
    Grown m₀ m₁ d newsz a₀ (i + 1) (j + 2) S (a + 4096) where
  allocs := (h.allocs.trans (hl.allocs hwf)).congr fun va => by rw [or_false]
  range va hs := by
    obtain ⟨h1, h2, h3, h4⟩ := h.range va hs
    exact ⟨h1, h2, by omega, h4⟩
  all hf := by
    have := h.allocs.failures
    have := hl.failures
    omega
  freelist := by rw [← List.tail_drop, ← h.freelist, hl.freelist, List.tail_cons]
  starve := by rw [hl.starve, h.starve, List.tail_drop, List.tail_drop]

theorem map {x : ℕ} (hal : Allocs m m₁ d (· = a)) (hdraws : Draws m m₁ x) (ha : a % 4096 = 0)
    (hle : a₀ ≤ a) (hlt : a < newsz) :
    Grown m₀ m₁ d newsz a₀ (i + x) (j + x) (a :: S) (a + 4096) where
  allocs := (h.allocs.trans hal).congr fun va => by rw [List.mem_cons, or_comm]
  range va hs := by
    rcases List.mem_cons.mp hs with rfl | hs
    · exact ⟨ha, hle, by omega, hlt⟩
    · obtain ⟨h1, h2, h3, h4⟩ := h.range va hs
      exact ⟨h1, h2, by omega, h4⟩
  all hf va h0 h1 h2 := by
    by_cases heq : va = a
    · exact heq ▸ List.mem_cons_self
    · exact List.mem_cons_of_mem _ (h.all (hdraws.failures ▸ hf) va h0 h1 (by omega))
  freelist := by rw [hdraws.freelist, h.freelist, List.drop_drop]
  starve := by rw [hdraws.starve, h.starve, List.drop_drop]

theorem done (hge : newsz ≤ a) : (Growth.full S).Ends m₀ d oldsz newsz a₀ (.ok (newsz, m)) := by
  refine ⟨m, rfl, h.allocs, fun va hs => ?_, fun hf va h0 h1 h2 => h.all hf va h0 h1 (by omega)⟩
  obtain ⟨h1, h2, -, h4⟩ := h.range va hs
  exact ⟨h1, h2, h4⟩

theorem fail (hwf : WF m d) (hk : kalloc m = (none, m₁))
    (hun : Unmaps m₁ m' d (Visited m₁ d (pgroundup oldsz) newsz)) :
    (Growth.short S).Ends m₀ d oldsz newsz a₀ (.ok (0, m')) := by
  refine ⟨m₁, m', rfl, (h.allocs.trans (hwf.allocs_none hk)).congr fun va => by rw [or_false],
    fun va hs => ?_, hun, ?_⟩
  · obtain ⟨h1, h2, -, h4⟩ := h.range va hs
    exact ⟨h1, h2, h4⟩
  · obtain ⟨-, -, -, hfail⟩ := kalloc_eq_none hk
    have := h.allocs.failures
    rw [hun.failures.1, hfail]
    omega

end Grown

/-- **The loop of `allocuvm` goes as it was told.** -/
theorem allocuvmLoop_spec {m₀ : PhysMem} {a₀ : ℕ} (hnew : newsz < 0x80000000) (n : ℕ) :
    ∀ {m : PhysMem} {i j : ℕ} {S : List ℕ} {a : ℕ}, WF m d →
      Grown m₀ m d newsz a₀ i j S a → a % 4096 = 0 → oldsz ≤ a → a₀ ≤ a → newsz ≤ a + 4096 * n →
      (growth m₀ d newsz n i j S a).Ends m₀ d oldsz newsz a₀
        (allocuvmLoop (n + 1) m d oldsz newsz a) := by
  induction n with
  | zero =>
    intro m i j S a hwf h ha hle hle₀ hfuel
    rw [allocuvmLoop, if_neg (by omega)]
    exact h.done (by omega)
  | succ n ih =>
    intro m i j S a hwf h ha hle hle₀ hfuel
    rw [growth]
    by_cases hlt : a < newsz
    · rw [if_neg (Nat.not_le.mpr hlt)]
      have hround : AllocRound m d oldsz newsz a (n + 1) _ :=
        allocuvmLoop_round hwf ha hlt hnew (by omega) (n + 1)
      have hone : CanAlloc m 1 ↔ Gets m₀ i j := canAlloc_one.trans (h.gets 0)
      have hpres := h.present ha (by omega)
      have htab := h.tabled hnew
      generalize allocuvmLoop (n + 1 + 1) m d oldsz newsz a = res at hround
      cases hround with
      | failed hk hun =>
        rw [if_pos fun hg => not_canAlloc_of_none hk (hone.mpr hg)]
        exact h.fail hwf hk hun
      | remap hcan hp =>
        rw [if_neg (not_not.mpr (hone.mp hcan)), if_pos (hpres.mp hp)]
        exact ⟨rfl, a, ha, hle₀, hlt, hpres.mp hp⟩
      | lost hcan hlose =>
        rw [if_neg (not_not.mpr (hone.mp hcan)),
          if_neg fun hp => hlose.noTable (hpres.mpr hp).hasTable, if_neg (mt htab.mp hlose.noTable),
          if_neg fun hg => hlose.short (canAlloc_two.mpr ⟨hcan, (h.gets 1).mpr hg⟩)]
        exact ih hlose.keeps.wf (h.lose hlose hwf) (by omega) (by omega) (by omega) (by omega)
      | mapped hal _ hdraws =>
        have hnp : ¬ Present m₀ d a := fun hp =>
          hal.absent a (by omega) (pgrounddown_of_mod ha) (hpres.mpr hp)
        rw [if_neg (not_not.mpr (hone.mp (hdraws.can.mono (Nat.le_add_right 1 _)))), if_neg hnp]
        have hnext := ih hal.keeps.wf (h.map hal hdraws ha hle₀ hlt) (by omega) (by omega)
          (by omega) (by omega)
        by_cases ht : HasTable m d (pdx a)
        · rw [if_pos (htab.mpr ht)]
          rwa [if_pos ht] at hnext
        · rw [if_neg ht] at hdraws hnext
          rwa [if_neg (mt htab.mp ht), if_pos ((h.gets 1).mp (canAlloc_two.mp hdraws.can).2)]
    · rw [allocuvmLoop, if_neg hlt, if_pos (Nat.le_of_not_lt hlt)]
      exact h.done (Nat.le_of_not_lt hlt)

/-- **Growing.** -/
theorem allocuvm_spec (h : WF m d) (hold : oldsz ≤ newsz) (hnew : newsz < 0x80000000) :
    (growth m d newsz npages 0 0 [] (pgroundup oldsz)).Ends m d oldsz newsz (pgroundup oldsz)
      (allocuvm m d oldsz newsz) := by
  rw [allocuvm, if_neg (by simp only [kernbase]; omega), if_neg (by omega)]
  exact allocuvmLoop_spec hnew npages h (.refl h _ _) (pgroundup_mod oldsz)
    (le_pgroundup (by omega)) (Nat.le_refl _) (by simp only [npages]; omega)

end Xv6
