import Xv6.Vm.Fault

/-!
# Two allocators, one memory

What a program sees of its memory, as long as it only grows it, is a flat array of bytes that
starts as the program's image and is zero beyond: `Space`. Both allocators implement it. The default
one keeps every page below the break mapped; the lazy one may have a page unmapped as long as the
array is zero there, and maps it when it is touched.

Since `Space` is deterministic, two processes that implement the same space see the same, which is
the equivalence of the allocators. The pages touched so far are a ghost component of the space.

## Main results

* `Implements.step`, `Implements.run` — both allocators implement the space
* `lazy_equiv_eager` — so a program cannot tell them apart
-/

namespace Xv6

open PhysMem Function

variable {c c' : Ctx} {m' : PhysMem} {va B : ℕ} {op : Op}

/-! ### The memory a program sees -/

/-- A break and an array of bytes, whether the process was killed, and the pages touched. -/
structure Space where
  brk : ℕ
  /-- The bytes, zero from the end of the last page on. -/
  data : ℕ → UInt8
  killed : Bool
  touched : Set ℕ

namespace Space

/-- A load or store at `va` that is answered by `o` and leaves the bytes as given. -/
def access (A : Space) (va : ℕ) (o : Obs) (data : ℕ → UInt8) : Obs × Space :=
  if va < pgroundup A.brk then
    (o, { A with data := data, touched := insert (pgrounddown va) A.touched })
  else (.killed, { A with killed := true })

/-- One operation. Accesses beyond the last page kill the process. -/
def step (A : Space) : Op → Obs × Space
  | .setPageAllocator _ => (.ret 0, A)
  | .sbrk n =>
    if (A.brk : ℤ) + n.1 < 0x80000000 then
      (.ret A.brk, { A with brk := ((A.brk : ℤ) + n.1).toNat })
    else (.ret (-1), A)
  | .load va => A.access va.1 (.byte (A.data va.1)) A.data
  | .store va v => A.access va.1 .stored (update A.data va.1 v)

/-- A run, which ends where the process is killed. -/
def run : List Op → Space → List Obs × Space
  | [], A => ([], A)
  | op :: ops, A =>
    if A.killed then ([], A)
    else ((A.step op).1 :: (run ops (A.step op).2).1, (run ops (A.step op).2).2)

end Space

/-! ### Implementing it -/

/-- The process `c`, which uses allocator `t`, implements the space `A`. Pages below `B` come from
its image, and `flags` are the flags they have there. -/
structure Implements (B : ℕ) (flags : ℕ → ℕ) (t : ℤ) (c : Ctx) (A : Space) : Prop where
  inv : Inv B c
  kind : c.proc.pageAllocatorType = t
  brk : c.proc.sz = A.brk
  base : B ≤ pgroundup c.proc.sz
  killed : c.proc.killed = A.killed
  image : ∀ va, va < B → Present c.mem c.proc.pgdir va ∧
    pteFlags (pteOf c.mem c.proc.pgdir va) = flags va
  mapped : ∀ va, B ≤ va → va < pgroundup c.proc.sz →
    c.proc.pageAllocatorType = 1 ∨ Present c.mem c.proc.pgdir va
  lazily : c.proc.pageAllocatorType = 1 → ∀ va, B ≤ va → va < 0x80000000 →
    (Present c.mem c.proc.pgdir va ↔ pgrounddown va ∈ A.touched)
  beyond : ∀ va, pgroundup c.proc.sz ≤ va → va < 0x80000000 →
    ¬ Present c.mem c.proc.pgdir va ∧ A.data va = 0
  data : ∀ va, va < pgroundup c.proc.sz → Present c.mem c.proc.pgdir va →
    c.mem.byte (physAddr c.mem c.proc.pgdir va) = A.data va
  zero : ∀ va, va < pgroundup c.proc.sz → ¬ Present c.mem c.proc.pgdir va → A.data va = 0

/-- The operations the two allocators are compared on: growing, and accesses outside the guard
page. -/
def Plain (B : ℕ) (flags : ℕ → ℕ) : Op → Prop
  | .setPageAllocator _ => False
  | .sbrk n => 0 ≤ n.1
  | .load va => va.1 < B → flags va.1 = 7
  | .store va _ => va.1 < B → flags va.1 = 7

variable {flags : ℕ → ℕ} {t : ℤ} {A : Space}

theorem pgrounddown_lt_iff {sz : ℕ} (h : sz < 0x80000000) :
    pgrounddown va < sz ↔ va < pgroundup sz := by
  simp only [pgrounddown, pgroundup, u32, pgsize]; omega

theorem pgroundup_mono {a b : ℕ} (h : a ≤ b) (hb : b < 0x80000000) : pgroundup a ≤ pgroundup b := by
  simp only [pgroundup, u32, pgsize]; omega

section

variable (h : Implements B flags t c A)

include h

theorem Implements.userOk (hplain : va < B → flags va = 7)
    (hv : va < 0x80000000) (hp : Present c.mem c.proc.pgdir va) (write : Bool) :
    UserOk c.mem c.proc.pgdir va write := by
  refine (h.inv.userOk_iff (by omega) write).mpr ⟨hv, ?_⟩
  by_cases hlt : va < B
  · rw [(h.image va hlt).2, hplain hlt]
  · exact (h.inv.flags va hv hp).resolve_right fun h3 => hlt h3.2

theorem Implements.allocs {S : ℕ → Prop} {k : ℕ} {T : Set ℕ}
    (hal : Allocs c.mem m' c.proc.pgdir S) (hle : c.proc.sz ≤ k) (hk : k < 0x80000000)
    (hS : ∀ va, S va → va < pgroundup k) (hmap : ∀ va, B ≤ va → va < pgroundup k →
      c.proc.pageAllocatorType = 1 ∨ Present c.mem c.proc.pgdir va ∨ S (pgrounddown va))
    (hT : c.proc.pageAllocatorType = 1 → ∀ va, B ≤ va → va < 0x80000000 →
      ((Present c.mem c.proc.pgdir va ∨ S (pgrounddown va)) ↔ pgrounddown va ∈ T)) :
    Implements B flags t (c.setSz m' k) { A with brk := k, touched := T } := by
  have hsz := h.inv.sz_lt
  have hup := pgroundup_le (Nat.le_of_lt hk)
  have hmono := pgroundup_mono hle hk
  have hpos := h.inv.sz_pos
  -- the space is zero wherever nothing was mapped
  have hzero : ∀ va, va < pgroundup k → ¬ Present c.mem c.proc.pgdir va → A.data va = 0 := by
    intro va hv hp
    by_cases hlt : va < pgroundup c.proc.sz
    · exact h.zero va hlt hp
    · exact (h.beyond va (by omega) (by omega)).2
  refine ⟨h.inv.allocs hal (by omega) hk, h.kind, rfl, Nat.le_trans h.base hmono, h.killed,
    fun va hv => ?_, fun va hB hv => ?_, fun ht va hB hv => ?_, fun va hle' hv => ?_,
    fun va hv hp => ?_, fun va hv hp => ?_⟩
  · have hv' : va < 0x80000000 := by have hb := h.base; omega
    obtain ⟨hp, hf⟩ := h.image va hv
    have hpte := hal.kept va (by omega) fun hc => hal.absent va hv' hc.2 hp
    exact ⟨(hal.present_iff hv').mpr (.inl hp), by rw [Ctx.setSz_mem, Ctx.setSz_pgdir, hpte, hf]⟩
  · have hv' : va < 0x80000000 := Nat.lt_of_lt_of_le hv hup
    exact (hmap va hB hv).imp_right (hal.present_iff hv').mpr
  · exact (hal.present_iff hv).trans (hT ht va hB hv)
  · have hold := h.beyond va (Nat.le_trans hmono hle') hv
    refine ⟨fun hp => ?_, hold.2⟩
    rcases (hal.present_iff hv).mp hp with hp | hs
    · exact hold.1 hp
    · have hlt := hS _ hs
      have hmod := pgroundup_mod k
      have hge := pgrounddown_ge hmod hle'
      omega
  · have hv' : va < 0x80000000 := Nat.lt_of_lt_of_le hv hup
    by_cases hp₀ : Present c.mem c.proc.pgdir va
    · have hlt : va < pgroundup c.proc.sz := by
        by_contra hge
        exact (h.beyond va (by omega) hv').1 hp₀
      rw [← h.data va hlt hp₀]
      have hpage := hal.pageOf_eq hv' hp₀
      change m'.byte (pageOf m' c.proc.pgdir va + va % 4096) = _
      rw [hpage]
      exact hal.byte va _ hv' hp₀ (pgrounddown_physAddr _ _ _)
    · have hs := ((hal.present_iff hv').mp hp).resolve_left hp₀
      rw [hzero va hv hp₀]
      exact hal.zero va _ hv' hs (pgrounddown_physAddr _ _ _)
  · have hv' : va < 0x80000000 := Nat.lt_of_lt_of_le hv hup
    exact hzero va hv fun hp₀ => hp ((hal.present_iff hv').mpr (.inl hp₀))

theorem Implements.sbrk {n : CInt} (hn : 0 ≤ n.1)
    (hquiet : ∀ r c', sysSbrk c n = .ok (r, c') → c'.mem.failures = c.mem.failures) :
    ∃ r c', sysSbrk c n = .ok (r, c') ∧ (A.step (.sbrk n)).1 = .ret r ∧
      Implements B flags t c' (A.step (.sbrk n)).2 := by
  have hends := sysSbrk_ends h.inv n
  have hsz := h.inv.sz_lt
  have hbrk := h.brk
  have hstep : (c.proc.sz : ℤ) + n.1 < 0x80000000 → A.step (.sbrk n) =
      (.ret c.proc.sz, { A with brk := ((c.proc.sz : ℤ) + n.1).toNat }) := by
    intro hlt
    rw [hbrk] at hlt ⊢
    exact if_pos hlt
  generalize sysSbrk c n = res at hends hquiet
  cases hends with
  | same hz =>
    rw [hstep (by omega)]
    refine ⟨_, c, rfl, rfl, ?_⟩
    rw [show ((c.proc.sz : ℤ) + n.1).toNat = A.brk by omega]
    exact h
  | refused hgt hbig =>
    have hbig' : ¬ (A.brk : ℤ) + n.1 < 0x80000000 := by omega
    have hrefuse : A.step (.sbrk n) = (.ret (-1), A) := if_neg hbig'
    rw [hrefuse]
    exact ⟨_, c, rfl, rfl, h⟩
  | @reserved k hgt hk hlt ht =>
    rw [hstep (by omega), show ((c.proc.sz : ℤ) + n.1).toNat = k by omega]
    refine ⟨_, _, rfl, rfl, h.allocs (.refl h.inv.wf) (by omega) hlt (fun _ hs => hs.elim)
      (fun _ _ _ => .inl ht) fun _ va hB hv => ?_⟩
    rw [or_false]
    exact h.lazily ht va hB hv
  | @allocated k m' S hgt hk hlt ht hal hrange hall =>
    rw [hstep (by omega), show ((c.proc.sz : ℤ) + n.1).toNat = k by omega]
    have hup := le_pgroundup (Nat.le_of_lt hlt)
    refine ⟨_, _, rfl, rfl, h.allocs hal (by omega) hlt (fun va hs => ?_) (fun va hB hv => ?_)
      fun ht' => absurd ht' ht⟩
    · have hr := (hrange va hs).2.2
      omega
    · by_cases hlow : va < pgroundup c.proc.sz
      · exact (h.mapped va hB hlow).imp_right .inl
      · refine .inr (.inr (hall (hquiet _ _ rfl) _ (pgrounddown_mod va) ?_ ?_))
        · exact pgrounddown_ge (pgroundup_mod _) (Nat.le_of_not_lt hlow)
        · exact (pgrounddown_lt_iff hlt).mpr hv
  | failed hgt hk hlt ht hal hrange hun hf =>
    have hq := hquiet _ _ rfl
    simp only at hq
    omega
  | remap hgt hk hlt ht hva h1 h2 hp => exact absurd hp (h.beyond _ h1 (by omega)).1
  | shrunk hlt => omega
  | emptied hlt => omega
  | wrapped hlt => omega

theorem Implements.kill (hk : FaultKills c va m') :
    Implements B flags t (c.kill m') { A with killed := true } := by
  have hview := hk.view
  have hup := pgroundup_le (Nat.le_of_lt h.inv.sz_lt)
  refine ⟨FaultEnds.inv h.inv (.killed hk), h.kind, h.brk, h.base, rfl, fun va hv => ?_,
    fun va hB hv => ?_, fun ht va hB hv => ?_, fun va hle hv => ?_, fun va hv hp => ?_,
    fun va hv hp => ?_⟩
  · obtain ⟨hp, hf⟩ := h.image va hv
    exact ⟨hview.present.mpr hp, by rw [← hf]; exact congrArg pteFlags (hview.pteOf va)⟩
  · exact (h.mapped va hB hv).imp_right hview.present.mpr
  · exact hview.present.trans (h.lazily ht va hB hv)
  · exact ⟨fun hp => (h.beyond va hle hv).1 (hview.present.mp hp), (h.beyond va hle hv).2⟩
  · have hp₀ := hview.present.mp hp
    rw [← h.data va hv hp₀]
    change m'.byte (pageOf m' c.proc.pgdir va + va % 4096) = _
    rw [hview.pageOf]
    exact hk.byte va _ (Nat.lt_of_lt_of_le hv hup) hp₀ (pgrounddown_physAddr _ _ _)
  · exact h.zero va hv fun hp₀ => hp (hview.present.mpr hp₀)

/-- An access, by either allocator: it completes below the last page and kills the process beyond
it. -/
theorem Implements.access (hv : va < 2 ^ 32) (hplain : va < B → flags va = 7) (write : Bool)
    (hquiet : ∀ r c', Xv6.access c va write = .ok (r, c') → c'.mem.failures = c.mem.failures) :
    (va < pgroundup A.brk ∧ ∃ c', Xv6.access c va write =
        .ok (some (physAddr c'.mem c'.proc.pgdir va), c') ∧ UserOk c'.mem c'.proc.pgdir va write ∧
        Implements B flags t c' { A with touched := insert (pgrounddown va) A.touched }) ∨
      (¬ va < pgroundup A.brk ∧ ∃ c', Xv6.access c va write = .ok (none, c') ∧
        Implements B flags t c' { A with killed := true }) := by
  have hends := access_ends h.inv hv write
  have hsz := h.inv.sz_lt
  have hbrk : pgroundup A.brk = pgroundup c.proc.sz := congrArg pgroundup h.brk.symm
  rw [hbrk]
  generalize Xv6.access c va write = res at hends hquiet
  cases hends with
  | hit hu =>
    have hlt := ((h.inv.userOk_iff hv write).mp hu).1
    have hp := hu.2.2.2.1
    have hin : va < pgroundup c.proc.sz := by
      by_contra hge
      exact (h.beyond va (Nat.le_of_not_lt hge) hlt).1 hp
    refine .inl ⟨hin, c, rfl, hu, ⟨h.inv, h.kind, h.brk, h.base, h.killed, h.image, h.mapped,
      fun ht va' hB hv' => ?_, h.beyond, h.data, h.zero⟩⟩
    rw [Set.mem_insert_iff, ← h.lazily ht va' hB hv', iff_or_self]
    intro he
    rw [← present_pgrounddown, he, present_pgrounddown]
    exact hp
  | remap hn hf =>
    cases hf with
    | remap ht hlt hp hcan =>
      have hlt' : va < 0x80000000 := by
        have h1 := (pgrounddown_lt_iff hsz).mp hlt
        have h2 := pgroundup_le (Nat.le_of_lt hsz)
        omega
      exact absurd (h.userOk hplain hlt' hp write) hn
  | @killed m' hn hk =>
    have hq := hquiet _ _ rfl
    refine .inr ⟨fun hin => hn ?_, _, rfl, h.kill hk⟩
    have hlt : va < 0x80000000 := Nat.lt_of_lt_of_le hin (pgroundup_le (Nat.le_of_lt hsz))
    refine h.userOk hplain hlt ?_ write
    by_cases hB : va < B
    · exact (h.image va hB).1
    · refine (h.mapped va (Nat.le_of_not_lt hB) hin).resolve_left fun ht => ?_
      rcases hk.why with (hw | hw) | ⟨hw, -⟩
      · exact hw ht
      · exact Nat.not_lt.mpr hw ((pgrounddown_lt_iff hsz).mpr hin)
      · simp only [Ctx.kill_mem] at hq
        omega
  | @mapped m' hn hm =>
    have hin := (pgrounddown_lt_iff hsz).mp hm.below
    refine .inl ⟨hin, { c with mem := m' }, rfl, hm.userOk h.inv hv write, ?_⟩
    have hsame :
      ({ A with brk := c.proc.sz, touched := insert (pgrounddown va) A.touched } : Space) =
        { A with touched := insert (pgrounddown va) A.touched } := by rw [h.brk]
    have hset : Implements B flags t { c with mem := m' }
        { A with brk := c.proc.sz, touched := insert (pgrounddown va) A.touched } := by
      refine h.allocs hm.allocs (Nat.le_refl _) hsz (fun va' hs => ?_) (fun va' hB hv' => ?_)
        fun ht va' hB hv' => ?_
      · rw [hs]
        exact Nat.lt_of_le_of_lt (pgrounddown_le va) hin
      · exact .inl hm.isLazy
      · rw [h.lazily ht va' hB hv', Set.mem_insert_iff, or_comm]
    exact hsame ▸ hset

theorem Implements.store (hv : va < 2 ^ 32) {write : Bool}
    (hok : UserOk c.mem c.proc.pgdir va write) (v : UInt8) :
    Implements B flags t { c with mem := c.mem.setByte (physAddr c.mem c.proc.pgdir va) v }
      { A with data := update A.data va v } := by
  obtain ⟨hview, hinv, -⟩ := h.inv.setByte hv hok v
  have hup := pgroundup_le (Nat.le_of_lt h.inv.sz_lt)
  obtain ⟨hlt, -⟩ := (h.inv.userOk_iff hv write).mp hok
  obtain ⟨-, -, -, hp, -⟩ := hok
  have hin : va < pgroundup c.proc.sz := by
    by_contra hge
    exact (h.beyond va (Nat.le_of_not_lt hge) hlt).1 hp
  refine ⟨hinv, h.kind, h.brk, h.base, h.killed, fun va' hv' => ?_, fun va' hB hv' => ?_,
    fun ht va' hB hv' => ?_, fun va' hle hv' => ?_, fun va' hv' hp' => ?_, fun va' hv' hp' => ?_⟩
  · obtain ⟨hp', hf⟩ := h.image va' hv'
    exact ⟨hview.present.mpr hp', by rw [← hf]; exact congrArg pteFlags (hview.pteOf va')⟩
  · exact (h.mapped va' hB hv').imp_right hview.present.mpr
  · exact hview.present.trans (h.lazily ht va' hB hv')
  · have hne : va' ≠ va := by
      rintro rfl
      exact Nat.not_lt.mpr hle hin
    exact ⟨fun hp' => (h.beyond va' hle hv').1 (hview.present.mp hp'),
      by rw [← (h.beyond va' hle hv').2]; exact update_of_ne hne _ _⟩
  · have hp₀ := hview.present.mp hp'
    have hphys : physAddr (c.mem.setByte (physAddr c.mem c.proc.pgdir va) v) c.proc.pgdir va' =
        physAddr c.mem c.proc.pgdir va' := by
      rw [physAddr, hview.pageOf, physAddr]
    have hbyte : ∀ x, (c.mem.setByte (physAddr c.mem c.proc.pgdir va) v).byte x =
        update c.mem.byte (physAddr c.mem c.proc.pgdir va) v x := fun _ => rfl
    simp only [hbyte, hphys]
    by_cases heq : va' = va
    · subst heq
      rw [update_self, update_self]
    · rw [update_of_ne heq, ← h.data va' hv' hp₀]
      refine update_of_ne (fun hsame => heq ?_) _ _
      -- equal physical addresses lie in one frame, hence in one page
      have hframe : pageOf c.mem c.proc.pgdir va' = pageOf c.mem c.proc.pgdir va := by
        rw [← pgrounddown_physAddr, hsame, pgrounddown_physAddr]
      have hpage := h.inv.wf.pageOf_inj (Nat.lt_of_lt_of_le hv' hup) hlt hp₀ hp hframe
      simp only [physAddr, hframe] at hsame
      simp only [pgrounddown, pgsize] at hpage
      omega
  · have hp₀ : ¬ Present c.mem c.proc.pgdir va' := fun hp₀ => hp' (hview.present.mpr hp₀)
    have hne : va' ≠ va := by
      rintro rfl
      exact hp₀ hp
    rw [← h.zero va' hv' hp₀]
    exact update_of_ne hne _ _

/-- **One operation.** Whichever allocator it uses, a process that implements a space answers as the
space does and goes on to implement it. -/
theorem Implements.step (hop : Plain B flags op)
    (hquiet : ∀ o c', Xv6.step c op = .ok (o, c') → c'.mem.failures = c.mem.failures) :
    ∃ c', Xv6.step c op = .ok ((A.step op).1, c') ∧ Implements B flags t c' (A.step op).2 := by
  cases op with
  | setPageAllocator a => exact hop.elim
  | sbrk n =>
    have hq : ∀ r c', sysSbrk c n = .ok (r, c') → c'.mem.failures = c.mem.failures := by
      intro r c' hs
      exact hquiet (.ret r) c' (by rw [Xv6.step, hs])
    obtain ⟨r, c', hs, ho, himp⟩ := h.sbrk hop hq
    exact ⟨c', by rw [Xv6.step, hs, ho], himp⟩
  | load va =>
    have hq : ∀ r c', Xv6.access c va.1 false = .ok (r, c') → c'.mem.failures = c.mem.failures := by
      intro r c' hs
      cases r with
      | none => exact hquiet .killed c' (by rw [Xv6.step, hs])
      | some pa => exact hquiet (.byte (c'.mem.byte pa)) c' (by rw [Xv6.step, hs])
    obtain ⟨hin, c', hs, hu, himp⟩ | ⟨hout, c', hs, himp⟩ := h.access va.2 hop false hq
    · have hp := hu.2.2.2.1
      have hdata := himp.data va.1 (by rw [himp.brk]; exact hin) hp
      have hA : A.step (.load va) = (.byte (A.data va.1),
          { A with touched := insert (pgrounddown va.1) A.touched }) := if_pos hin
      rw [hA]
      exact ⟨c', by rw [Xv6.step, hs]; simp only [hdata], himp⟩
    · have hA : A.step (.load va) = (.killed, { A with killed := true }) := if_neg hout
      rw [hA]
      exact ⟨c', by rw [Xv6.step, hs], himp⟩
  | store va v =>
    have hq : ∀ r c', Xv6.access c va.1 true = .ok (r, c') → c'.mem.failures = c.mem.failures := by
      intro r c' hs
      cases r with
      | none => exact hquiet .killed c' (by rw [Xv6.step, hs])
      | some pa =>
        exact hquiet .stored { c' with mem := c'.mem.setByte pa v } (by rw [Xv6.step, hs])
    obtain ⟨hin, c', hs, hu, himp⟩ | ⟨hout, c', hs, himp⟩ := h.access va.2 hop true hq
    · have hA : A.step (.store va v) = (.stored, { A with
            data := update A.data va.1 v
            touched := insert (pgrounddown va.1) A.touched }) := if_pos hin
      rw [hA]
      exact ⟨_, by rw [Xv6.step, hs], himp.store va.2 hu v⟩
    · have hA : A.step (.store va v) = (.killed, { A with killed := true }) := if_neg hout
      rw [hA]
      exact ⟨c', by rw [Xv6.step, hs], himp⟩

end

/-! ### Runs -/

/-- In the whole run no call of `kalloc` fails. -/
def Quiet (c : Ctx) (ops : List Op) : Prop :=
  ∀ ops', ops' <+: ops → ∀ os c', run ops' c = .ok (os, c') → c'.mem.failures = c.mem.failures

variable {ops : List Op} {o : Obs}

theorem run_cons_of_step {os : List Obs} {c₁ : Ctx} (hk : c.proc.killed = false)
    (hs : Xv6.step c op = .ok (o, c₁)) (hr : run ops c₁ = .ok (os, c')) :
    run (op :: ops) c = .ok (o :: os, c') := by
  have hnot : ¬ c.proc.killed = true := by rw [hk]; decide
  rw [Xv6.run, if_neg hnot, hs]
  simp only [hr]

theorem Quiet.step (h : Quiet c (op :: ops)) (hk : c.proc.killed = false)
    (hs : Xv6.step c op = .ok (o, c')) :
    c'.mem.failures = c.mem.failures :=
  h [op] ⟨ops, rfl⟩ [o] c' (run_cons_of_step hk hs rfl)

theorem Quiet.tail (h : Quiet c (op :: ops)) (hk : c.proc.killed = false)
    (hs : Xv6.step c op = .ok (o, c')) : Quiet c' ops := by
  intro ops' hpre os c'' hr
  rw [h.step hk hs]
  exact h (op :: ops') ((List.cons_prefix_cons).mpr ⟨rfl, hpre⟩) _ _ (run_cons_of_step hk hs hr)

theorem Quiet.of_prefix {ops ops' : List Op} (h : Quiet c ops) (hpre : ops' <+: ops) :
    Quiet c ops' :=
  fun ops'' hpre' => h ops'' (hpre'.trans hpre)

/-- **A whole run.** -/
theorem Implements.run (ops : List Op) : ∀ {c : Ctx} {A : Space}, Implements B flags t c A →
    (∀ op ∈ ops, Plain B flags op) → Quiet c ops →
    ∃ c', Xv6.run ops c = .ok ((A.run ops).1, c') ∧ Implements B flags t c' (A.run ops).2 := by
  induction ops with
  | nil =>
    intro c A h _ _
    exact ⟨c, rfl, h⟩
  | cons op ops ih =>
    intro c A h hplain hquiet
    by_cases hk : c.proc.killed = true
    · have hA : A.run (op :: ops) = ([], A) := by rw [Space.run, if_pos (h.killed ▸ hk)]
      rw [hA]
      exact ⟨c, by rw [Xv6.run, if_pos hk], h⟩
    · have hk' : c.proc.killed = false := by simpa using hk
      have hA : A.run (op :: ops) =
          ((A.step op).1 :: ((A.step op).2.run ops).1, ((A.step op).2.run ops).2) := by
        rw [Space.run, if_neg (h.killed ▸ hk)]
      obtain ⟨c₁, hs, h₁⟩ := h.step (hplain op List.mem_cons_self) fun o c' => hquiet.step hk'
      obtain ⟨c', hr, h'⟩ := ih h₁ (fun op' hin => hplain op' (List.mem_cons_of_mem _ hin))
        (hquiet.tail hk' hs)
      rw [hA]
      exact ⟨c', run_cons_of_step hk' hs hr, h'⟩

/-- The pages that the accesses among the operations touched, going by what was observed. -/
def touchedBy : List Op → List Obs → Set ℕ
  | .load va :: ops, .byte _ :: os => insert (pgrounddown va.1) (touchedBy ops os)
  | .store va _ :: ops, .stored :: os => insert (pgrounddown va.1) (touchedBy ops os)
  | _ :: ops, _ :: os => touchedBy ops os
  | _, _ => ∅

theorem Space.touched_run (ops : List Op) : ∀ A : Space,
    (A.run ops).2.touched = A.touched ∪ touchedBy ops (A.run ops).1 := by
  induction ops with
  | nil =>
    intro A
    simp [Space.run, touchedBy]
  | cons op ops ih =>
    intro A
    rw [Space.run]
    split_ifs with hk
    · simp [touchedBy]
    · rw [ih]
      cases op with
      | setPageAllocator a => rfl
      | sbrk n =>
        simp only [Space.step]
        split_ifs <;> rfl
      | load va =>
        simp only [Space.step, Space.access]
        split_ifs
        · rw [touchedBy, Set.insert_union, Set.union_insert]
        · rfl
      | store va v =>
        simp only [Space.step, Space.access]
        split_ifs
        · rw [touchedBy, Set.insert_union, Set.union_insert]
        · rfl

/-! ### The two allocators -/

/-- The process with an allocator chosen. -/
def Ctx.withAllocator (c : Ctx) (a : CInt) : Ctx := (sysSetPageAllocator c a).2

/-- The flags of the pages of a process. -/
def Ctx.pageFlags (c : Ctx) (va : ℕ) : ℕ := pteFlags (pteOf c.mem c.proc.pgdir va)

/-- The space a complete image implements. -/
def Ctx.space (c : Ctx) : Space where
  brk := c.proc.sz
  data va := if va < pgroundup c.proc.sz then c.mem.byte (physAddr c.mem c.proc.pgdir va) else 0
  killed := false
  touched := ∅

theorem Image.implements {heap : ℕ} {img : Ctx} (h : Image heap img)
    (hfull : ∀ va, va < pgroundup img.proc.sz → Present img.mem img.proc.pgdir va)
    {a : CInt} (ha : a.1 = 0 ∨ a.1 = 1) :
    Implements (pgroundup img.proc.sz) img.pageFlags a (img.withAllocator a) img.space := by
  have hset : img.withAllocator a = { img with proc := { img.proc with pageAllocatorType := a } } :=
    congrArg Prod.snd (if_neg (by omega))
  have hinv : Inv (pgroundup img.proc.sz) (img.withAllocator a) := by
    rw [hset]
    refine ⟨h.wf, h.sz_pos, h.sz_lt, fun va hv hp => ?_, h.kernel, h.heapStart, ha⟩
    exact (h.flags va hv hp).imp_right fun h3 => ⟨h3.1, h.below va hv hp⟩
  have hnot : ∀ va, pgroundup img.proc.sz ≤ va → va < 0x80000000 →
      ¬ Present img.mem img.proc.pgdir va := by
    intro va hle hv hp
    exact Nat.not_lt.mpr hle (h.below va hv hp)
  rw [hset] at hinv ⊢
  refine ⟨hinv, rfl, rfl, Nat.le_refl _, h.alive, fun va hv => ⟨hfull va hv, rfl⟩,
    fun va _ hv => .inr (hfull va hv), fun _ va hB hv => ?_, fun va hle hv => ⟨hnot va hle hv, ?_⟩,
    fun va hv _ => ?_, fun va hv hp => absurd (hfull va hv) hp⟩
  · exact iff_of_false (hnot va hB hv) (Set.notMem_empty _)
  · exact if_neg (Nat.not_lt.mpr hle)
  · exact (if_pos hv).symm

/-- **A program cannot tell the allocators apart.** Start the same image with the lazy allocator and
with the default one, and let it grow and access its memory outside the guard page, while `kalloc`
finds a page whenever it is called. Then at every point of the two runs neither has panicked, the
program has seen the same, it has been killed in both or in neither, and above the image the lazy
run has mapped the pages that were touched, all of which the other run has mapped as well. -/
theorem lazy_equiv_eager {heap : ℕ} {img : Ctx} (himg : Image heap img)
    (hfull : ∀ va, va < pgroundup img.proc.sz → Present img.mem img.proc.pgdir va) (ops : List Op)
    (hops : ∀ op ∈ ops, Plain (pgroundup img.proc.sz) img.pageFlags op)
    (hlazy : Quiet (img.withAllocator ⟨1, by decide⟩) ops)
    (heager : Quiet (img.withAllocator ⟨0, by decide⟩) ops) :
    ∀ ops', ops' <+: ops → ∃ os cl ce,
      run ops' (img.withAllocator ⟨1, by decide⟩) = .ok (os, cl) ∧
      run ops' (img.withAllocator ⟨0, by decide⟩) = .ok (os, ce) ∧
      cl.proc.killed = ce.proc.killed ∧
      ∀ va, pgroundup img.proc.sz ≤ va → va < 0x80000000 →
        (Present cl.mem cl.proc.pgdir va ↔ pgrounddown va ∈ touchedBy ops' os) ∧
        (Present cl.mem cl.proc.pgdir va → Present ce.mem ce.proc.pgdir va) := by
  intro ops' hpre
  have hplain : ∀ op ∈ ops', Plain (pgroundup img.proc.sz) img.pageFlags op :=
    fun op hin => hops op (hpre.subset hin)
  obtain ⟨cl, hrl, hl⟩ := Implements.run ops' (himg.implements hfull (.inr rfl)) hplain
    (hlazy.of_prefix hpre)
  obtain ⟨ce, hre, he⟩ := Implements.run ops' (himg.implements hfull (.inl rfl)) hplain
    (heager.of_prefix hpre)
  refine ⟨_, cl, ce, hrl, hre, hl.killed.trans he.killed.symm, fun va hB hv => ⟨?_, fun hp => ?_⟩⟩
  · rw [hl.lazily hl.kind va hB hv, Space.touched_run]
    exact iff_of_eq (congrArg (pgrounddown va ∈ ·) (Set.empty_union _))
  · have hin : va < pgroundup ce.proc.sz := by
      rw [he.brk, ← hl.brk]
      by_contra hge
      exact (hl.beyond va (Nat.le_of_not_lt hge) hv).1 hp
    refine (he.mapped va hB hin).resolve_left fun h1 => ?_
    rw [he.kind] at h1
    exact absurd h1 (by decide)

theorem Quiet.nil (c : Ctx) : Quiet c [] := by
  intro ops' hpre os c' hr
  rw [List.prefix_nil.mp hpre] at hr
  cases hr
  rfl

theorem Quiet.cons (h : ∀ o c', Xv6.step c op = .ok (o, c') →
    c'.mem.failures = c.mem.failures ∧ Quiet c' ops) : Quiet c (op :: ops) := by
  intro ops' hpre os c' hr
  cases ops' with
  | nil => cases hr; rfl
  | cons op' ops' =>
    obtain ⟨rfl, hpre'⟩ := List.cons_prefix_cons.mp hpre
    obtain ⟨-, -, rfl⟩ | ⟨-, o, c₁, os₁, hs, hr', -⟩ := run_cons hr
    · rfl
    · obtain ⟨hf, hq⟩ := h o c₁ hs
      rw [← hf]
      exact hq ops' hpre' _ _ hr'

theorem step_load_eager (ht : c.proc.pageAllocatorType ≠ 1) {va : Va}
    (hs : Xv6.step c (.load va) = .ok (o, c')) : c'.mem = c.mem := by
  have hacc : ∃ r c₁, Xv6.access c va.1 false = .ok (r, c₁) ∧ c₁.mem = c.mem := by
    rw [Xv6.access, pgflt, if_neg ht]
    split_ifs
    · exact ⟨_, c, rfl, rfl⟩
    · exact ⟨_, _, if_neg ‹_›, rfl⟩
  obtain ⟨r, c₁, hacc, hmem⟩ := hacc
  rw [Xv6.step, hacc] at hs
  cases r with
  | none => cases hs; exact hmem
  | some pa => cases hs; exact hmem

/-- The smallest image asks for a page and reads from it. -/
theorem lazy_equiv_eager_tiny :
    ∃ os cl ce,
      run [.sbrk ⟨4096, by decide⟩, .load ⟨0x3000, by decide⟩]
        ((Tiny.image [0x300000]).withAllocator ⟨1, by decide⟩) = .ok (os, cl) ∧
      run [.sbrk ⟨4096, by decide⟩, .load ⟨0x3000, by decide⟩]
        ((Tiny.image [0x300000]).withAllocator ⟨0, by decide⟩) = .ok (os, ce) ∧
      cl.proc.killed = ce.proc.killed := by
  have himg : Image 0x3000 (Tiny.image [0x300000]) := Tiny.image_isImage (by simp) (by decide)
  have hup : pgroundup (Tiny.image [0x300000]).proc.sz = 0x3000 := by decide
  have hfull : ∀ va, va < pgroundup (Tiny.image [0x300000]).proc.sz →
      Present (Tiny.image [0x300000]).mem (Tiny.image [0x300000]).proc.pgdir va := by
    intro va hv
    rw [hup] at hv
    exact Tiny.image_full hv
  have hpte : pteOf (Tiny.mem [0x300000]) 0x200000 0x3000 = 0 := Tiny.pteOf_eq (by decide)
  have htab : HasTable (Tiny.mem [0x300000]) 0x200000 (pdx 0x3000) :=
    (Tiny.hasTable_iff (by decide)).mpr (.inl (by decide))
  have habs : ¬ Present (Tiny.mem [0x300000]) 0x200000 0x3000 := by
    rw [Present, hpte]
    decide
  have hplain : ∀ op ∈ [Op.sbrk ⟨4096, by decide⟩, .load ⟨0x3000, by decide⟩],
      Plain (pgroundup (Tiny.image [0x300000]).proc.sz) (Tiny.image [0x300000]).pageFlags op := by
    rw [hup]
    intro op hin
    rcases List.mem_pair.mp hin with rfl | rfl
    · exact (by decide : (0 : ℤ) ≤ 4096)
    · exact fun hlt => absurd hlt (Nat.lt_irrefl _)
  have hlazy : Quiet ((Tiny.image [0x300000]).withAllocator ⟨1, by decide⟩)
      [.sbrk ⟨4096, by decide⟩, .load ⟨0x3000, by decide⟩] := by
    have hsbrk : sysSbrk ((Tiny.image [0x300000]).withAllocator ⟨1, by decide⟩)
        ⟨4096, by decide⟩ = .ok (0x3000, Tiny.lazyImage [0x300000] 4096) :=
      sysSbrk_lazy rfl (by decide) (k := 0x4000) rfl (by decide)
    have hreach : Reachable (Tiny.lazyImage [0x300000] 4096) :=
      Tiny.lazyImage_reachable (by simp) (by decide) ⟨4096, by decide⟩ (by decide) (by decide)
    obtain ⟨heap, hinv⟩ := reachable_inv hreach
    have hload : ∃ m', access (Tiny.lazyImage [0x300000] 4096) 0x3000 false =
        .ok (some (physAddr m' 0x200000 0x3000),
          { Tiny.lazyImage [0x300000] 4096 with mem := m' }) ∧
        m'.failures = 0 := by
      obtain ⟨m', hpf, hm⟩ := (pgflt_maps_iff hinv).mpr
        ⟨rfl, (by decide : pgrounddown 0x3000 < 0x4000), habs, by decide, .inl htab⟩
      exact ⟨m', access_of_maps hinv (by decide) hpf hm false, hm.failures⟩
    obtain ⟨m', hacc, hfail⟩ := hload
    refine .cons fun o c' hs => ?_
    rw [step, hsbrk] at hs
    cases hs
    refine ⟨rfl, .cons fun o c' hs => ?_⟩
    simp only [step, hacc] at hs
    cases hs
    exact ⟨hfail, .nil _⟩
  have heager : Quiet ((Tiny.image [0x300000]).withAllocator ⟨0, by decide⟩)
      [.sbrk ⟨4096, by decide⟩, .load ⟨0x3000, by decide⟩] := by
    have hcost : growCost (Tiny.image [0x300000]).mem (Tiny.image [0x300000]).proc.pgdir
        (pgroundup (Tiny.image [0x300000]).proc.sz) 1 = 1 := by
      rw [hup, growCost_one]
      exact congrArg (1 + ·) (if_pos htab)
    have hsbrk : ∃ m', sysSbrk (Tiny.image [0x300000]) ⟨4096, by decide⟩ =
        .ok (0x3000, (Tiny.image [0x300000]).setSz m' 0x4000) ∧ m'.failures = 0 := by
      have hnone : ∀ va, pgroundup (Tiny.image [0x300000]).proc.sz ≤ va → va < 0x4000 →
          ¬ Present (Tiny.image [0x300000]).mem (Tiny.image [0x300000]).proc.pgdir va := by
        intro va h1 h2
        have hdown : pgrounddown va = 0x3000 := by
          rw [hup] at h1
          simp only [pgrounddown, pgsize]
          omega
        rw [← present_pgrounddown, hdown]
        exact habs
      obtain ⟨m', hs, -, hdraws⟩ := sysSbrk_enough himg.toInv (n := ⟨4096, by decide⟩) (by decide)
        (by decide) rfl (by decide) (by decide : pgroundup 0x3000 + 4096 * 0 < 0x4000) (by decide)
        hnone (by rw [hcost]; decide)
      exact ⟨m', hs, hdraws.failures⟩
    obtain ⟨m', hs', hfail⟩ := hsbrk
    refine .cons fun o c' hs => ?_
    rw [step, show (Tiny.image [0x300000]).withAllocator ⟨0, by decide⟩ = Tiny.image [0x300000]
      from rfl, hs'] at hs
    cases hs
    refine ⟨hfail, .cons fun o c' hs => ⟨?_, .nil c'⟩⟩
    exact congrArg PhysMem.failures (step_load_eager (show (0 : ℤ) ≠ 1 by decide) hs)
  obtain ⟨os, cl, ce, hl, he, hk, -⟩ :=
    lazy_equiv_eager himg hfull _ hplain hlazy heager _ List.prefix_rfl
  exact ⟨os, cl, ce, hl, he, hk⟩

end Xv6
