import Xv6.Vm.Fault

/-!
# What `sbrk` promises

Two promises of `sbrk` and the exact states in which the code keeps them.

*Shrinking is exact* when `deallocuvm` comes across every page it should free. It starts at the new
break and, where a 4 MB region has no page table, goes on at the same offset of the next region. A
page of a later region at a smaller offset is then passed over, stays mapped above the break, and is
found again by the next `sbrk` that grows.

*All or nothing* fails when `sbrk` is asked to give back all memory or more: the size 0 is taken for
an error after the pages have been freed, and a negative size wraps around and is taken for a
growth that needs nothing. It also fails when growing meets a page that is present already, or is
undone in part only, or undoes too much.

## Main results

* `shrink_exact_iff` — when shrinking is exact
* `sbrk_allOrNothing` — when `sbrk` does all or nothing
-/

namespace Xv6

open PhysMem

variable {c c' : Ctx} {m' : PhysMem} {va heap k : ℕ} {n : ℤ}

/-! ### Shrinking -/

/-- What a process and its memory look like after it shrank to `k` bytes: no page is left at or
above the new break, what was there is on the free list once, all below is as it was, and growing
again, by either allocator, finds fresh zeroed memory. -/
structure ShrinkExact (c : Ctx) (k : ℕ) (c' : Ctx) : Prop where
  gone : ∀ va, pgroundup k ≤ va → va < 0x80000000 → ¬ Present c'.mem c'.proc.pgdir va
  freed : ∃ l : List ℕ, c'.mem.freelist = l ++ c.mem.freelist ∧ l.Nodup ∧ ∀ f, f ∈ l ↔
    ∃ va, va % 4096 = 0 ∧ pgroundup k ≤ va ∧ va < 0x80000000 ∧
      Present c.mem c.proc.pgdir va ∧ f = pageOf c.mem c.proc.pgdir va
  kept : ∀ va, va < pgroundup k →
    pteOf c'.mem c'.proc.pgdir va = pteOf c.mem c.proc.pgdir va
  byte : ∀ va x, va < pgroundup k → Present c.mem c.proc.pgdir va →
    pgrounddown x = pageOf c.mem c.proc.pgdir va → c'.mem.byte x = c.mem.byte x
  regrow : ∀ (a n' : CInt) e, 0 < n'.1 → sysSbrk (sysSetPageAllocator c' a).2 n' ≠ .error e
  /-- What the memory then holds is zero, whether it was mapped at once or by a fault. -/
  zero : ∀ (a n' : CInt) r c₂, 0 < n'.1 → sysSbrk (sysSetPageAllocator c' a).2 n' = .ok (r, c₂) →
    ∀ (va : Va) v c₃, pgroundup k ≤ va.1 → step c₂ (.load va) = .ok (.byte v, c₃) → v = 0

/-- Whatever is mapped from `a` on holds zeros. -/
def ZeroFrom (m : PhysMem) (d a : ℕ) : Prop :=
  ∀ va x, a ≤ va → va < 0x80000000 → Present m d va → pgrounddown x = pageOf m d va →
    m.byte x = 0

section ZeroFrom

variable {m m' : PhysMem} {d a : ℕ} {S : ℕ → Prop}

theorem ZeroFrom.of_absent (h : ∀ va, a ≤ va → va < 0x80000000 → ¬ Present m d va) :
    ZeroFrom m d a :=
  fun va _ hle hv hp _ => absurd hp (h va hle hv)

theorem ZeroFrom.allocs (h : ZeroFrom m d a) (hal : Allocs m m' d S) : ZeroFrom m' d a := by
  intro va x hle hv hp hx
  by_cases hS : S (pgrounddown va)
  · exact hal.zero va x hv hS hx
  · have hp₀ := ((hal.present_iff hv).mp hp).resolve_right hS
    rw [hal.pageOf_eq hv hp₀] at hx
    rw [hal.byte va x hv hp₀ hx, h va x hle hv hp₀ hx]

theorem ZeroFrom.unmaps (h : ZeroFrom m d a) (hun : Unmaps m m' d S) : ZeroFrom m' d a := by
  intro va x hle hv hp hx
  obtain ⟨hp₀, hS⟩ := (hun.present_iff hv).mp hp
  have hpage : pageOf m' d va = pageOf m d va := by
    rw [pageOf, hun.kept va (by omega) fun hc => hS hc.2.1, pageOf]
  rw [hpage] at hx
  rw [hun.byte va x hv hS hp₀ hx, h va x hle hv hp₀ hx]

end ZeroFrom

theorem SbrkEnds.zeroFrom {r : ℤ} {a : ℕ} (he : SbrkEnds c n (.ok (r, c')))
    (h : ZeroFrom c.mem c.proc.pgdir a) : ZeroFrom c'.mem c'.proc.pgdir a := by
  cases he with
  | same hn => exact h
  | refused hn hbig => exact h
  | reserved hn hk hlt ht => exact h
  | allocated hn hk hlt ht hal hrange hall => exact h.allocs hal
  | failed hn hk hlt ht hal hrange hun hf => exact (h.allocs hal).unmaps hun
  | shrunk hn hk hpos hun => exact h.unmaps hun
  | emptied hn hk hun => exact h.unmaps hun
  | wrapped hk => exact h

theorem ZeroFrom.load (h : Inv heap c) {a : ℕ} (hz : ZeroFrom c.mem c.proc.pgdir a) {va : Va}
    {v : UInt8} (hle : a ≤ va.1) (hs : step c (.load va) = .ok (.byte v, c')) : v = 0 := by
  have hends := access_ends h va.2 false
  simp only [step] at hs
  cases hacc : access c va.1 false with
  | error e => rw [hacc] at hs; cases hs
  | ok rc =>
    obtain ⟨r, c₁⟩ := rc
    rw [hacc] at hs hends
    have hinv := hends.inv h
    cases r with
    | none => cases hs
    | some pa =>
      obtain ⟨hok, hpa⟩ := hends.userOk h va.2
      have hlt := ((hinv.userOk_iff va.2 false).mp hok).1
      have hz₁ : ZeroFrom c₁.mem c₁.proc.pgdir a := by
        cases hends with
        | hit hu => exact hz
        | mapped hn hm => exact hz.allocs hm.allocs
      simp only [hpa] at hs
      cases hs
      refine hz₁ va.1 _ hle hlt hok.2.2.2.1 ?_
      refine (pgrounddown_eq_iff (pageOf_mod _ _ _)).mpr ?_
      simp only [physAddr]
      omega

theorem sysSbrk_shrink (h : Inv heap c) {n : CInt} (hn : n.1 < 0) (hk : (k : ℤ) = c.proc.sz + n.1)
    (hpos : 0 < k) : ∃ m', sysSbrk c n = .ok (c.proc.sz, c.setSz m' k) ∧
      Unmaps c.mem m' c.proc.pgdir (Visited c.mem c.proc.pgdir (pgroundup k) c.proc.sz) := by
  have hends := sysSbrk_ends h n
  generalize sysSbrk c n = res at hends
  cases hends with
  | same hz => omega
  | refused hgt => omega
  | reserved hgt => omega
  | allocated hgt => omega
  | failed hgt => omega
  | remap hgt => omega
  | @shrunk k' m' _ hk' _ hun =>
    obtain rfl : k' = k := by omega
    exact ⟨m', rfl, hun⟩
  | emptied _ hz => omega
  | wrapped hneg => omega

theorem sysSbrk_no_panic (h : Inv heap c) (hgone : ∀ va, pgroundup c.proc.sz ≤ va →
    va < 0x80000000 → ¬ Present c.mem c.proc.pgdir va) (n : CInt) (e : Panic) :
    sysSbrk c n ≠ .error e := by
  intro he
  have hends := sysSbrk_ends h n
  rw [he] at hends
  cases hends with
  | remap hn hk hlt ht hva h1 h2 hp => exact hgone _ h1 (by omega) hp

/-- **When shrinking is exact.** In every state a process can reach, giving memory back down to a
positive size succeeds, and it is exact if and only if `deallocuvm` visits each page that is present
at or above the new break: the page lies below the old break, and its offset in its region is not
smaller than that of the new break unless some region from the new break's up to its own has a page
table. -/
theorem shrink_exact_iff (hr : Reachable c) {n : CInt} (hn : n.1 < 0)
    (hk : (k : ℤ) = c.proc.sz + n.1) (hpos : 0 < k) :
    ∃ c', sysSbrk c n = .ok (c.proc.sz, c') ∧ c'.proc.sz = k ∧ (ShrinkExact c k c' ↔
      ∀ va, pgroundup k ≤ va → va < 0x80000000 → Present c.mem c.proc.pgdir va →
        pgrounddown va < c.proc.sz ∧ (ptx (pgroundup k) ≤ ptx va ∨
          ∃ j, pdx (pgroundup k) ≤ j ∧ j < pdx va ∧ HasTable c.mem c.proc.pgdir j)) := by
  obtain ⟨heap, h⟩ := reachable_inv hr
  obtain ⟨m', hsb, hun⟩ := sysSbrk_shrink h hn hk hpos
  have hsz := h.sz_lt
  have hklt : k < 0x80000000 := by omega
  have hup := pgroundup_le (Nat.le_of_lt hklt)
  have hinv : Inv heap (c.setSz m' k) := h.unmaps hun hpos hklt
  -- the condition says that the pages above the break are visited
  have hvis : ∀ va, pgroundup k ≤ va → (Visited c.mem c.proc.pgdir (pgroundup k) c.proc.sz
      (pgrounddown va) ↔ pgrounddown va < c.proc.sz ∧ (ptx (pgroundup k) ≤ ptx va ∨
        ∃ j, pdx (pgroundup k) ≤ j ∧ j < pdx va ∧ HasTable c.mem c.proc.pgdir j)) := by
    intro va hle
    rw [Visited, pdx_pgrounddown, ptx_pgrounddown, or_comm]
    exact and_iff_right (pgrounddown_ge (pgroundup_mod k) hle)
  refine ⟨_, hsb, rfl, fun hex va hle hv hp => ?_, fun hall => ?_⟩
  · refine (hvis va hle).mp (by_contra fun hnv => ?_)
    exact hex.gone va hle hv ((hun.present_iff hv).mpr ⟨hp, hnv⟩)
  · have hgone : ∀ va, pgroundup k ≤ va → va < 0x80000000 → ¬ Present m' c.proc.pgdir va := by
      intro va hle hv hp
      obtain ⟨hp₀, hnv⟩ := (hun.present_iff hv).mp hp
      exact hnv ((hvis va hle).mpr (hall va hle hv hp₀))
    have hbelow : ∀ va, va < pgroundup k →
        ¬ Visited c.mem c.proc.pgdir (pgroundup k) c.proc.sz (pgrounddown va) := fun va hlt hv =>
      absurd (Nat.le_trans hv.1 (pgrounddown_le va)) (Nat.not_le.mpr hlt)
    obtain ⟨l, hl, hnd, hmem⟩ := hun.freelist
    -- switching the allocator changes neither the memory nor the break
    have hset : ∀ a : CInt, Inv heap (sysSetPageAllocator (c.setSz m' k) a).2 ∧
        (sysSetPageAllocator (c.setSz m' k) a).2.mem = m' ∧
        (sysSetPageAllocator (c.setSz m' k) a).2.proc.pgdir = c.proc.pgdir ∧
        (sysSetPageAllocator (c.setSz m' k) a).2.proc.sz = k := by
      intro a
      have hstep : step (c.setSz m' k) (.setPageAllocator a) = .ok
          (.ret (sysSetPageAllocator (c.setSz m' k) a).1,
            (sysSetPageAllocator (c.setSz m' k) a).2) :=
        rfl
      refine ⟨hinv.step hstep, ?_, ?_, ?_⟩ <;>
      · simp only [sysSetPageAllocator]
        split <;> rfl
    refine ⟨hgone, ⟨l, hl, hnd, fun f => (hmem f).trans (exists_congr fun va => ?_)⟩,
      fun va hlt => hun.kept va (by omega) fun hc => hbelow va hlt hc.2.1,
      fun va x hlt hp hx => hun.byte va x (by omega) (hbelow va hlt) hp hx,
      fun a n' e _ => ?_, fun a n' r c₂ _ hs va v c₃ hle hld => ?_⟩
    · constructor
      · rintro ⟨ha, hv, hvis', hp, hf⟩
        exact ⟨ha, hvis'.1, hv, hp, hf⟩
      · rintro ⟨ha, hle, hv, hp, hf⟩
        have hv' := (hvis va hle).mpr (hall va hle hv hp)
        rw [pgrounddown_of_mod ha] at hv'
        exact ⟨ha, hv, hv', hp, hf⟩
    · obtain ⟨hi, hm, hd, hs⟩ := hset a
      refine sysSbrk_no_panic hi (fun va hle hv => ?_) n' e
      rw [hm, hd]
      rw [hs] at hle
      exact hgone va hle hv
    · obtain ⟨hi, hm, hd, -⟩ := hset a
      have he := sysSbrk_ends hi n'
      rw [hs] at he
      have hz : ZeroFrom (sysSetPageAllocator (c.setSz m' k) a).2.mem
          (sysSetPageAllocator (c.setSz m' k) a).2.proc.pgdir (pgroundup k) := by
        rw [hm, hd]
        exact .of_absent hgone
      exact (he.zeroFrom hz).load (he.inv hi) hle hld

/-- The smallest image gives back a page it never touched. -/
theorem shrink_exact_iff_tiny :
    ∃ c', sysSbrk (Tiny.lazyImage [] 4096) ⟨-4096, by decide⟩ = .ok (0x4000, c') ∧
      ShrinkExact (Tiny.lazyImage [] 4096) 0x3000 c' := by
  have hr : Reachable (Tiny.lazyImage [] 4096) :=
    Tiny.lazyImage_reachable List.nodup_nil (by simp) ⟨4096, by decide⟩ (by decide) (by decide)
  obtain ⟨c', hs, -, hiff⟩ := shrink_exact_iff hr (n := ⟨-4096, by decide⟩) (by decide)
    (k := 0x3000) rfl (by decide)
  refine ⟨c', hs, hiff.mpr fun va hle hv hp => ?_⟩
  have himg := Tiny.image_isImage List.nodup_nil (by simp)
  exact absurd (himg.below va hv hp) (Nat.not_lt.mpr hle)

/-- A heap of 12 MB of which one page, at 8 MB, was touched. Shrinking to just above 4 MB leaves the
page mapped: the region at 4 MB has no page table, and `deallocuvm` goes on at 8 MB + 4 KB. -/
theorem shrink_leaves_page :
    ∃ c c', Reachable c ∧ sysSbrk c ⟨-0x7FF000, by decide⟩ = .ok (c.proc.sz, c') ∧
      c'.proc.sz = 0x401000 ∧ Present c'.mem c'.proc.pgdir 0x800000 ∧
      ¬ ShrinkExact c 0x401000 c' := by
  let c₀ : Ctx := Tiny.lazyImage [0x300000, 0x301000] 0xBFD000
  have hr₀ : Reachable c₀ :=
    Tiny.lazyImage_reachable (by decide) (by decide) ⟨0xBFD000, by decide⟩ (by decide) (by decide)
  obtain ⟨heap, h₀⟩ := reachable_inv hr₀
  have hpte : pteOf c₀.mem c₀.proc.pgdir 0x800000 = 0 := Tiny.pteOf_eq (by decide)
  have habs : ¬ Present c₀.mem c₀.proc.pgdir 0x800000 := by
    rw [Present, hpte]; decide
  -- the page is touched
  have hmaps : ∃ m₁, pgflt c₀ 0x800000 = .ok { c₀ with mem := m₁ } ∧ FaultMaps c₀ 0x800000 m₁ :=
    (pgflt_maps_iff h₀).mpr ⟨rfl, by decide, habs, by decide, .inr (by decide)⟩
  obtain ⟨m₁, hpf, hm⟩ := hmaps
  have hrun : run [.load ⟨0x800000, by decide⟩] c₀ =
      .ok ([.byte (m₁.byte (physAddr m₁ c₀.proc.pgdir 0x800000))], { c₀ with mem := m₁ }) := by
    simp only [run, step, access_of_maps h₀ (by decide) hpf hm]
    rfl
  have hr₁ := hr₀.run hrun
  obtain ⟨heap₁, h₁⟩ := reachable_inv hr₁
  have hp₁ : Present m₁ c₀.proc.pgdir 0x800000 :=
    (hm.allocs.present_iff (by decide)).mpr (.inr rfl)
  have hntab : ¬ HasTable m₁ c₀.proc.pgdir 1 := by
    intro ht
    rcases (hm.allocs.hasTable 1 (by decide)).mp ht with ht₀ | ⟨va, -, rfl, hpd⟩
    · exact absurd ((Tiny.hasTable_iff (by decide)).mp ht₀) (by decide)
    · exact absurd hpd (by decide)
  -- and passed over
  obtain ⟨m₂, hsb, hun⟩ := sysSbrk_shrink h₁ (n := ⟨-0x7FF000, by decide⟩) (by decide)
    (k := 0x401000) (show (0x401000 : ℤ) = 0xC00000 + -0x7FF000 by decide) (by decide)
  have hp₂ : Present m₂ c₀.proc.pgdir 0x800000 := by
    refine (hun.present_iff (by decide)).mpr ⟨hp₁, fun hv => ?_⟩
    obtain ⟨-, -, ⟨j, hj, hj', ht⟩ | hoff⟩ := hv
    · obtain rfl : j = 1 := by
        rw [show pdx (pgroundup 0x401000) = 1 by decide] at hj
        rw [show pdx (pgrounddown 0x800000) = 2 by decide] at hj'
        omega
      exact hntab ht
    · exact absurd hoff (by decide)
  refine ⟨_, _, hr₁, hsb, rfl, hp₂, fun hex => ?_⟩
  exact hex.gone 0x800000 (by decide) (by decide) hp₂

/-! ### All or nothing -/

/-- The same user pages are present, with the same contents. -/
def SamePages (c c' : Ctx) : Prop :=
  ∀ va, va < 0x80000000 →
    (Present c'.mem c'.proc.pgdir va ↔ Present c.mem c.proc.pgdir va) ∧
      (Present c.mem c.proc.pgdir va →
        pteOf c'.mem c'.proc.pgdir va = pteOf c.mem c.proc.pgdir va ∧
          ∀ x, pgrounddown x = pageOf c.mem c.proc.pgdir va → c'.mem.byte x = c.mem.byte x)

/-- `sbrk(n)` returned the old break and moved it by `n`, or returned -1 and changed nothing. -/
def AllOrNothing (c : Ctx) (n : ℤ) : Except Panic (ℤ × Ctx) → Prop
  | .error _ => False
  | .ok (r, c') =>
    (r = c.proc.sz ∧ (c'.proc.sz : ℤ) = c.proc.sz + n ∧ 0 ≤ c.proc.sz + n ∧
        c.proc.sz + n < 0x80000000) ∨
      (r = -1 ∧ c'.proc.sz = c.proc.sz ∧ SamePages c c')

/-- The loop of `deallocuvm` comes across the page, once the pages `S` are mapped, when it starts at
`a`. -/
def Met (m : PhysMem) (d a : ℕ) (S : List ℕ) (va : ℕ) : Prop :=
  (∃ j, pdx a ≤ j ∧ j < pdx va ∧ Tabled m d S j) ∨ ptx a ≤ ptx va

/-- It does not end in a panic, and where it is undone, `deallocuvm` comes across the pages that
were mapped, and across no page that was present before. -/
def Growth.Undone (m : PhysMem) (d a newsz : ℕ) : Growth → Prop
  | .full _ => True
  | .remap => False
  | .short S => (∀ va ∈ S, Met m d a S va) ∧
      ∀ va, va % 4096 = 0 → a ≤ va → va < newsz → Present m d va → ¬ Met m d a S va

/-- Nothing is asked for; or something is given back and something is left, or there is nothing to
give back; or more is asked for, which is too much, or the lazy allocator is on, or what the default
allocator does is complete or undone. -/
def SbrkSafe (c : Ctx) (n : ℤ) : Prop :=
  n = 0 ∨ (n < 0 ∧ 0 < c.proc.sz + n) ∨
    (c.proc.sz + n = 0 ∧ ∀ va, pgrounddown va < c.proc.sz → ¬ Present c.mem c.proc.pgdir va) ∨
    (0 < n ∧ (0x80000000 ≤ c.proc.sz + n ∨ c.proc.pageAllocatorType = 1 ∨
      (growth c.mem c.proc.pgdir (c.proc.sz + n).toNat npages 0 0 [] (pgroundup c.proc.sz)).Undone
        c.mem c.proc.pgdir (pgroundup c.proc.sz) (c.proc.sz + n).toNat))

theorem SamePages.refl (c : Ctx) :
    SamePages c c := fun _ _ => ⟨Iff.rfl, fun _ => ⟨rfl, fun _ _ => rfl⟩⟩

theorem SamePages.unmaps {S : ℕ → Prop} (hun : Unmaps c.mem m' c.proc.pgdir S)
    (hS : ∀ va, va < 0x80000000 → S (pgrounddown va) → ¬ Present c.mem c.proc.pgdir va) :
    SamePages c { c with mem := m' } := by
  intro va hv
  refine ⟨?_, fun hp => ⟨?_, fun x hx => ?_⟩⟩
  · rw [hun.present_iff hv]
    exact and_iff_left_of_imp fun hp hs => hS va hv hs hp
  · exact hun.kept va (by omega) fun hc => hS va hv hc.2.1 hp
  · exact hun.byte va x hv (fun hs => hS va hv hs hp) hp hx

theorem SamePages.undo {S T : ℕ → Prop} {m₁ : PhysMem} (hal : Allocs c.mem m₁ c.proc.pgdir S)
    (hun : Unmaps m₁ m' c.proc.pgdir T) (hST : ∀ va, S va → T va)
    (hT : ∀ va, va < 0x80000000 → T (pgrounddown va) → ¬ Present c.mem c.proc.pgdir va) :
    SamePages c { c with mem := m' } := by
  intro va hv
  refine ⟨?_, fun hp => ?_⟩
  · rw [hun.present_iff hv, hal.present_iff hv]
    constructor
    · rintro ⟨hp | hs, hn⟩
      · exact hp
      · exact absurd (hST _ hs) hn
    · exact fun hp => ⟨.inl hp, fun ht => hT va hv ht hp⟩
  · have hnT : ¬ T (pgrounddown va) := fun ht => hT va hv ht hp
    have hnS : ¬ S (pgrounddown va) := fun hs => hnT (hST _ hs)
    have hp₁ := (hal.present_iff hv).mpr (.inl hp)
    refine ⟨?_, fun x hx => ?_⟩
    · exact (hun.kept va (by omega) fun hc => hnT hc.2.1).trans
        (hal.kept va (by omega) fun hc => hnS hc.2)
    · rw [← hal.byte va x hv hp hx]
      exact hun.byte va x hv hnT hp₁ (by rw [hal.pageOf_eq hv hp, hx])

theorem samePages_undo_iff {m₁ : PhysMem} {S : List ℕ} (hal : Allocs c.mem m₁ c.proc.pgdir (· ∈ S))
    (hrange : ∀ va ∈ S, va % 4096 = 0 ∧ pgroundup c.proc.sz ≤ va ∧ va < k) (hlt : k < 0x80000000)
    (hun : Unmaps m₁ m' c.proc.pgdir (Visited m₁ c.proc.pgdir (pgroundup c.proc.sz) k)) :
    SamePages c { c with mem := m' } ↔
      (Growth.short S).Undone c.mem c.proc.pgdir (pgroundup c.proc.sz) k := by
  have hS : ∀ va ∈ S, va < 0x80000000 ∧ pgrounddown va = va := fun va hs =>
    ⟨Nat.lt_trans (hrange va hs).2.2 hlt, pgrounddown_of_mod (hrange va hs).1⟩
  have hvis : ∀ va, Visited m₁ c.proc.pgdir (pgroundup c.proc.sz) k va ↔
      pgroundup c.proc.sz ≤ va ∧ va < k ∧ Met c.mem c.proc.pgdir (pgroundup c.proc.sz) S va := by
    refine fun va => and_congr_right fun _ => and_congr_right fun _ => or_congr_left
      (exists_congr fun j => and_congr_right fun _ => and_congr_right fun hj => ?_)
    rw [hal.hasTable j (Nat.lt_trans hj (pdx_lt va))]
    exact or_congr_right (exists_congr fun x => ⟨And.right, fun hx => ⟨(hS x hx.1).1, hx⟩⟩)
  constructor
  · refine fun hsame => ⟨fun va hs => ?_, fun va hva h1 h2 hp hmet => ?_⟩
    · obtain ⟨hv, hdown⟩ := hS va hs
      rw [← hdown] at hs
      by_contra hmet
      refine hal.absent va hv hs ((hsame va hv).1.mp ((hun.present_iff hv).mpr
        ⟨(hal.present_iff hv).mpr (.inr hs), fun hc => hmet ?_⟩))
      rw [hdown] at hc
      exact ((hvis va).mp hc).2.2
    · refine ((hun.present_iff (by omega)).mp ((hsame va (by omega)).1.mpr hp)).2 ?_
      rw [pgrounddown_of_mod hva]
      exact (hvis va).mpr ⟨h1, h2, hmet⟩
  · rintro ⟨hmet, hnot⟩
    refine .undo hal hun (fun va hs => ?_) fun va hv hc hp => ?_
    · exact (hvis va).mpr ⟨(hrange va hs).2.1, (hrange va hs).2.2, hmet va hs⟩
    · obtain ⟨h1, h2, h3⟩ := (hvis _).mp hc
      exact hnot _ (pgrounddown_mod va) h1 h2 (present_pgrounddown.mpr hp) h3

theorem sysSbrk_growth (h : Inv heap c) {n : CInt} (hn : 0 < n.1)
    (ht : c.proc.pageAllocatorType ≠ 1) (hk : (k : ℤ) = c.proc.sz + n.1) (hlt : k < 0x80000000) :
    AllOrNothing c n (sysSbrk c n) ↔
      (growth c.mem c.proc.pgdir k npages 0 0 [] (pgroundup c.proc.sz)).Undone c.mem c.proc.pgdir
        (pgroundup c.proc.sz) k := by
  have hends := allocuvm_spec h.wf (by omega : c.proc.sz ≤ k) hlt
  simp only [sysSbrk, growproc, if_pos hn, if_neg ht, u32i_of_nonneg hk (by omega)]
  generalize growth _ _ _ _ _ _ _ _ = g at hends
  cases g with
  | full S =>
    obtain ⟨m', hres, -⟩ := hends
    simp only [hres, if_neg (by omega : ¬ k = 0)]
    exact iff_of_true (.inl ⟨rfl, hk, by omega, by omega⟩) trivial
  | remap =>
    rw [hends.1]
    exact iff_of_false id id
  | short S =>
    obtain ⟨m₁, m', hres, hal, hrange, hun, -⟩ := hends
    simp only [hres]
    refine Iff.trans ⟨fun haon => ?_, fun hsame => .inr ⟨rfl, rfl, hsame⟩⟩
      (samePages_undo_iff hal hrange hlt hun)
    rcases haon with ⟨hbad, -⟩ | ⟨-, -, hsame⟩
    · omega
    · exact hsame

/-- **`sbrk` is all or nothing exactly when the call is a safe one**, in every state a process can
reach and for every outcome of `kalloc`. -/
theorem sbrk_allOrNothing (hr : Reachable c) (n : CInt) :
    AllOrNothing c n (sysSbrk c n) ↔ SbrkSafe c n := by
  obtain ⟨heap, h⟩ := reachable_inv hr
  have hsz := h.sz_lt
  have hpos := h.sz_pos
  by_cases hgrow : 0 < n.1 ∧ c.proc.pageAllocatorType ≠ 1 ∧ c.proc.sz + n.1 < 0x80000000
  · obtain ⟨hn, ht, hlt⟩ := hgrow
    rw [sysSbrk_growth h hn ht (Int.toNat_of_nonneg (by omega)) (by omega)]
    refine ⟨fun hu => .inr (.inr (.inr ⟨hn, .inr (.inr hu)⟩)), fun hsafe => ?_⟩
    rcases hsafe with hz | hz | hz | ⟨-, hz | hz | hu⟩
    · omega
    · omega
    · omega
    · omega
    · exact absurd hz ht
    · exact hu
  have hends := sysSbrk_ends h n
  generalize sysSbrk c n = res at hends
  cases hends with
  | same hn => exact iff_of_true (.inl ⟨rfl, by omega, by omega, by omega⟩) (.inl hn)
  | refused hn hbig =>
    exact iff_of_true (.inr ⟨rfl, rfl, .refl c⟩) (.inr (.inr (.inr ⟨hn, .inl hbig⟩)))
  | reserved hn hk hlt ht =>
    exact iff_of_true (.inl ⟨rfl, hk, by omega, by omega⟩) (.inr (.inr (.inr ⟨hn, .inr (.inl ht)⟩)))
  | allocated hn hk hlt ht => exact absurd ⟨hn, ht, by omega⟩ hgrow
  | failed hn hk hlt ht => exact absurd ⟨hn, ht, by omega⟩ hgrow
  | remap hn hk hlt ht => exact absurd ⟨hn, ht, by omega⟩ hgrow
  | shrunk hn hk hkpos hun =>
    exact iff_of_true (.inl ⟨rfl, hk, by omega, by omega⟩) (.inr (.inl ⟨hn, by omega⟩))
  | @emptied m' hn hk hun =>
    refine ⟨fun haon => .inr (.inr (.inl ⟨hk, fun va hlt hp => ?_⟩)), fun hsafe =>
      .inr ⟨rfl, rfl, .unmaps hun fun va hv hvis => ?_⟩⟩
    · have hv : va < 0x80000000 := by
        have h1 := lt_pgrounddown_add va
        have h2 := pgrounddown_mod va
        omega
      rcases haon with ⟨hbad, -⟩ | ⟨-, -, hsame⟩
      · omega
      · refine ((hun.present_iff hv).mp ((hsame va hv).1.mpr hp)).2 ⟨Nat.zero_le _, hlt, .inr ?_⟩
        exact Nat.zero_le _
    · rcases hsafe with hz | hz | ⟨-, hz⟩ | hz
      · omega
      · omega
      · exact hz va hvis.2.1
      · omega
  | wrapped hk =>
    refine iff_of_false (fun haon => ?_) fun hsafe => ?_
    · rcases haon with ⟨-, hbad, -⟩ | ⟨hbad, -⟩ <;> omega
    · rcases hsafe with hz | hz | hz | hz <;> omega

/-- The smallest image asks for two pages where there is one. It is mapped and unmapped again. -/
theorem sbrk_allOrNothing_tiny :
    AllOrNothing (Tiny.image [0x300000]) 0x2000
      (sysSbrk (Tiny.image [0x300000]) ⟨0x2000, by decide⟩) := by
  have hr : Reachable (Tiny.image [0x300000]) := Tiny.image_reachable (by decide) (by decide)
  have himg : Image 0x3000 (Tiny.image [0x300000]) := Tiny.image_isImage (by decide) (by decide)
  have habs : ∀ va, 0x3000 ≤ va → va < 0x5000 → ¬ Present (Tiny.mem [0x300000]) 0x200000 va :=
    fun va h1 h2 hp => absurd (himg.below va (by omega) hp) (Nat.not_lt.mpr h1)
  have htab : HasTable (Tiny.mem [0x300000]) 0x200000 (pdx 0x3000) :=
    (Tiny.hasTable_iff (by decide)).mpr (.inl rfl)
  refine (sbrk_allOrNothing hr ⟨0x2000, by decide⟩).mpr
    (.inr (.inr (.inr ⟨by decide, .inr (.inr ?_)⟩)))
  show (growth (Tiny.mem [0x300000]) 0x200000 0x5000 npages 0 0 [] 0x3000).Undone
    (Tiny.mem [0x300000]) 0x200000 0x3000 0x5000
  rw [show npages = 1048574 + 1 + 1 from rfl, growth, if_neg (by decide), if_neg (by decide),
    if_neg (habs _ (by decide) (by decide)), if_pos (.inl htab), growth, if_neg (by decide),
    if_pos (by decide)]
  refine ⟨fun va hs => ?_, fun va _ h1 h2 hp => absurd hp (habs va h1 h2)⟩
  rw [List.mem_singleton.mp hs]
  exact .inr (Nat.le_refl _)

/-- The smallest image gives back all it has: the answer is -1 and the first page is gone. -/
theorem sbrk_frees_and_fails :
    ∃ c', Reachable (Tiny.image []) ∧
      sysSbrk (Tiny.image []) ⟨-0x3000, by decide⟩ = .ok (-1, c') ∧
      Present (Tiny.image []).mem (Tiny.image []).proc.pgdir 0 ∧
      ¬ Present c'.mem c'.proc.pgdir 0 ∧
      ¬ AllOrNothing (Tiny.image []) (-0x3000)
        (sysSbrk (Tiny.image []) ⟨-0x3000, by decide⟩) := by
  have hr : Reachable (Tiny.image []) := Tiny.image_reachable List.nodup_nil (by simp)
  obtain ⟨heap, h⟩ := reachable_inv hr
  have hpte : pteOf (Tiny.mem []) 0x200000 0 = 0x242007 := Tiny.pteOf_eq (by decide)
  have hp : Present (Tiny.mem []) 0x200000 0 := by rw [Present, hpte]; decide
  have hends := sysSbrk_ends h ⟨-0x3000, by decide⟩
  generalize sysSbrk (Tiny.image []) ⟨-0x3000, by decide⟩ = res at hends
  have hsz : ((Tiny.image []).proc.sz : ℤ) = 0x3000 := rfl
  simp only at hends
  cases hends with
  | same hn => omega
  | refused hn => omega
  | reserved hn => omega
  | allocated hn => omega
  | failed hn => omega
  | remap hn => omega
  | shrunk _ hk hpos => omega
  | wrapped hneg => omega
  | @emptied m' _ _ hun =>
    have hgone : ¬ Present m' 0x200000 0 := by
      intro hp'
      refine ((hun.present_iff (by decide)).mp hp').2 ⟨by decide, by decide, .inr (by decide)⟩
    refine ⟨_, hr, rfl, hp, hgone, fun haon => ?_⟩
    rcases haon with ⟨hbad, -⟩ | ⟨-, -, hsame⟩
    · omega
    · exact hgone ((hsame 0 (by decide)).1.mpr hp)

end Xv6
