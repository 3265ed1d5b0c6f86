import Xv6.Vm.ProcessInv

/-!
# What page faults come to

The page-fault branch of `trap` decides by comparing the faulting address with the break. It does
not look at the page tables, and it returns from `trap` by itself on every path. Three things
follow, and this file has the exact condition for each.

* A fault on a page that is present, which for user code means the guard page below the stack,
  runs into the `remap` panic of `mappages`.
* A fault that kills the process returns to the instruction that faulted, instead of going through
  `exit` as all other traps do.
* Pages reserved under the lazy allocator cannot be touched any more once the process has switched
  to the default one.

## Main results

* `pgflt_error_iff`, `pgflt_maps_iff` — when the handler panics, and when it maps the page
* `userFault_panics_iff`, `fault_progress_iff`, `access_completes_iff`
-/

namespace Xv6

open PhysMem

variable {c c' : Ctx} {m' : PhysMem} {va heap : ℕ} {write : Bool}

/-! ### The handler, exactly -/

theorem pgflt_error_iff (h : Inv heap c) : (∃ e, pgflt c va = .error e) ↔
    c.proc.pageAllocatorType = 1 ∧ pgrounddown va < c.proc.sz ∧ Present c.mem c.proc.pgdir va ∧
      CanAlloc c.mem 1 := by
  have hends := pgflt_ends h va
  generalize pgflt c va = res at hends
  cases hends with
  | remap ht hlt hp hcan => exact ⟨fun _ => ⟨ht, hlt, hp, hcan⟩, fun _ => ⟨_, rfl⟩⟩
  | killed hk =>
    refine ⟨fun ⟨_, he⟩ => (nomatch he), fun ⟨ht, hlt, hp, hcan⟩ => ?_⟩
    rcases hk.why with (hn | hn) | ⟨-, hn | hn⟩
    · exact absurd ht hn
    · exact absurd hlt (Nat.not_lt.mpr hn)
    · exact absurd hcan hn
    · exact absurd hp hn.1
  | mapped hm => exact ⟨fun ⟨_, he⟩ => (nomatch he), fun ⟨_, _, hp, _⟩ => absurd hp hm.absent⟩

theorem pgflt_remap (h : Inv heap c) (hc : c.proc.pageAllocatorType = 1 ∧
    pgrounddown va < c.proc.sz ∧ Present c.mem c.proc.pgdir va ∧ CanAlloc c.mem 1) :
    pgflt c va = .error .remap := by
  obtain ⟨e, he⟩ := (pgflt_error_iff h).mpr hc
  have hends := pgflt_ends h va
  rw [he] at hends ⊢
  cases hends
  rfl

theorem pgflt_maps_iff (h : Inv heap c) :
    (∃ m', pgflt c va = .ok { c with mem := m' } ∧ FaultMaps c va m') ↔
      c.proc.pageAllocatorType = 1 ∧ pgrounddown va < c.proc.sz ∧
        ¬ Present c.mem c.proc.pgdir va ∧ CanAlloc c.mem 1 ∧
          (HasTable c.mem c.proc.pgdir (pdx va) ∨ CanAlloc c.mem 2) := by
  refine ⟨fun ⟨m', _, hm⟩ => ⟨hm.isLazy, hm.below, hm.absent, hm.can, hm.enough⟩, ?_⟩
  rintro ⟨ht, hlt, hp, hcan, htab⟩
  have hends := pgflt_ends h va
  generalize pgflt c va = res at hends
  cases hends with
  | remap _ _ hp' _ => exact absurd hp' hp
  | killed hk =>
    exfalso
    rcases hk.why with (hn | hn) | ⟨-, hn | ⟨-, hn, hn'⟩⟩
    · exact hn ht
    · exact Nat.not_lt.mpr hn hlt
    · exact hn hcan
    · exact htab.elim hn hn'
  | mapped hm => exact ⟨_, rfl, hm⟩

theorem access_of_maps (h : Inv heap c) (hv : va < 2 ^ 32)
    (hpf : pgflt c va = .ok { c with mem := m' }) (hm : FaultMaps c va m') (write : Bool) :
    access c va write = .ok (some (physAddr m' c.proc.pgdir va), { c with mem := m' }) := by
  rw [access, if_neg fun hok => hm.absent hok.2.2.2.1, hpf]
  exact if_pos (hm.userOk h hv write)

/-! ### Panics -/

/-- The kernel panicked. -/
def Panics : Except Panic TrapEnd → Prop
  | .error _ => True
  | .ok .panics => True
  | .ok (.returns _) => False
  | .ok (.exits _) => False

theorem panics_pgflt_iff (syscall : Ctx → Except Panic Ctx) (mode : Mode) :
    Panics (trap syscall c .pgflt mode va) ↔ ∃ e, pgflt c va = .error e := by
  rw [trap]
  cases pgflt c va with
  | error e => exact ⟨fun _ => ⟨e, rfl⟩, fun _ => trivial⟩
  | ok c' => exact ⟨fun h => h.elim, fun ⟨_, he⟩ => by cases he⟩

/-- **User accesses and the `remap` panic.** In every state a process can reach, a fault at any
user address leaves the kernel standing unless the lazy allocator is on, the page lies between the
heap's start and the break, and is present. -/
theorem userFault_panics_iff (hr : Reachable c) (va : ℕ) (syscall : Ctx → Except Panic Ctx) :
    ¬ Panics (trap syscall c .pgflt .user va) ↔
      ¬ (c.proc.pageAllocatorType = 1 ∧ c.proc.heapStart ≤ pgrounddown va ∧
        pgrounddown va < c.proc.sz ∧ Present c.mem c.proc.pgdir va ∧ CanAlloc c.mem 1) := by
  obtain ⟨heap, h⟩ := reachable_inv hr
  rw [panics_pgflt_iff, pgflt_error_iff h, h.heapStart]
  simp only [Nat.zero_le, true_and]

/-- A fault just above the break of the smallest image is survived. -/
theorem userFault_panics_iff_tiny :
    ¬ Panics (trap (fun c => .ok c) (Tiny.image []) .pgflt .user 0x3000) :=
  (userFault_panics_iff (Tiny.image_reachable List.nodup_nil (by simp)) 0x3000 _).mpr
    fun h => absurd h.1 (by decide)

/-- The guard page of the smallest image panics the kernel once the lazy allocator is on: user code
may not read it, and the handler tries to map it again. -/
theorem guardPage_panics :
    Reachable (Tiny.lazyImage [0x300000] 4096) ∧
      Faults (Tiny.lazyImage [0x300000] 4096) .user 0x1000 false ∧
      trap (fun c => .ok c) (Tiny.lazyImage [0x300000] 4096) .pgflt .user 0x1000 =
        .error .remap := by
  have hr : Reachable (Tiny.lazyImage [0x300000] 4096) :=
    Tiny.lazyImage_reachable (List.nodup_singleton _) (by decide) ⟨4096, by decide⟩ (by decide)
      (by decide)
  obtain ⟨heap, h⟩ := reachable_inv hr
  have hpte : pteOf (Tiny.mem [0x300000]) 0x200000 0x1000 = 0x243003 :=
    Tiny.pteOf_eq (by decide)
  have hpresent : Present (Tiny.mem [0x300000]) 0x200000 0x1000 := by
    rw [Present, hpte]; decide
  refine ⟨hr, fun hok => ?_, ?_⟩
  · have h7 := ((h.userOk_iff (by decide) false).mp hok).2
    change pteFlags (pteOf (Tiny.mem [0x300000]) 0x200000 0x1000) = 7 at h7
    rw [hpte] at h7
    exact absurd h7 (by decide)
  · rw [trap, pgflt_remap h ⟨rfl, by decide, hpresent, by decide⟩]

/-! ### Progress -/

/-- A page fault at `va` made progress: `trap` returned with the page mapped for the user and the
process alive if it was, or it did not return and ended the process or the kernel, depending on
where the fault came from. -/
def Progress (c : Ctx) (mode : Mode) (va : ℕ) : Except Panic TrapEnd → Prop
  | .ok (.returns c') => UserOk c'.mem c'.proc.pgdir va true ∧
      (c'.proc.killed = true → c.proc.killed = true)
  | .ok (.exits _) => mode = .user
  | .ok .panics => mode = .kernel
  | .error _ => mode = .kernel

theorem Inv.not_present_of_faults (h : Inv heap c) (hlt : va < 0x80000000)
    (hfault : Faults c .kernel va write) : ¬ Present c.mem c.proc.pgdir va := by
  intro hp
  refine hfault ⟨hp.hasTable, fun _ => ?_, hp, fun _ => ?_⟩
  · rw [and_flags _ (by decide), h.wf.pdeFlags (pdx_lt va) hp.hasTable]
    decide
  · rw [and_flags _ (by decide)]
    rcases h.flags va hlt hp with h7 | ⟨h3, -⟩
    · rw [h7]; decide
    · rw [h3]; decide

/-- **Progress of page faults.** In every state a process can reach, a fault from user mode or from
the kernel makes progress exactly when the handler maps the page: the lazy allocator is on, the page
lies between the heap's start and the break, is absent, and `kalloc` has a page for it and one for
its page table if there is none. -/
theorem fault_progress_iff (hr : Reachable c) (hv : va < 2 ^ 32) (mode : Mode)
    (hfault : Faults c mode va write) (syscall : Ctx → Except Panic Ctx) :
    Progress c mode va (trap syscall c .pgflt mode va) ↔
      c.proc.pageAllocatorType = 1 ∧ c.proc.heapStart ≤ pgrounddown va ∧
        pgrounddown va < c.proc.sz ∧ ¬ Present c.mem c.proc.pgdir va ∧ CanAlloc c.mem 1 ∧
          (HasTable c.mem c.proc.pgdir (pdx va) ∨ CanAlloc c.mem 2) := by
  obtain ⟨heap, h⟩ := reachable_inv hr
  simp only [h.heapStart, Nat.zero_le, true_and]
  rw [← pgflt_maps_iff h, trap]
  have hends := pgflt_ends h va
  generalize pgflt c va = res at hends
  cases hends with
  | remap ht hlt hp hcan =>
    refine ⟨fun hmode => ?_, fun ⟨_, he, _⟩ => by cases he⟩
    -- a present page below the break does not fault in the kernel
    have hlt' : va < 0x80000000 := by
      have h1 := lt_pgrounddown_add va
      have h2 := pgrounddown_mod va
      have h3 := h.sz_lt
      omega
    rw [show mode = .kernel from hmode] at hfault
    exact absurd hp (h.not_present_of_faults hlt' hfault)
  | @killed m' hk =>
    have hview := hk.view
    refine ⟨fun ⟨hok, hkill⟩ => ?_, fun ⟨m'', he, hm⟩ => ?_⟩
    · -- the page was accessible before as well, to the user and so to the kernel
      have hok' : UserOk c.mem c.proc.pgdir va true := by
        simpa only [UserOk, Ctx.kill, hview.hasTable (pdx_lt va), hview.pde _ (pdx_lt va),
          hview.present, hview.pteOf] using hok
      obtain ⟨hlt, h7⟩ := (h.userOk_iff hv true).mp hok'
      cases mode with
      | user => exact absurd ((h.userOk_iff hv write).mpr ⟨hlt, h7⟩) hfault
      | kernel => exact absurd hok'.2.2.2.1 (h.not_present_of_faults hlt hfault)
    · rcases hk.why with (hn | hn) | ⟨-, hn | ⟨-, hn, hn'⟩⟩
      · exact absurd hm.isLazy hn
      · exact absurd hm.below (Nat.not_lt.mpr hn)
      · exact absurd hm.can hn
      · exact absurd hm.enough (not_or.mpr ⟨hn, hn'⟩)
  | @mapped m' hm =>
    exact ⟨fun _ => ⟨m', rfl, hm⟩, fun _ => ⟨hm.userOk h hv true, fun hk => hk⟩⟩

theorem tiny_faults (c : Ctx) (hm : c.mem = Tiny.mem [0x300000]) (hd : c.proc.pgdir = 0x200000) :
    ¬ Present c.mem c.proc.pgdir 0x3000 ∧ Faults c .user 0x3000 true := by
  have hpte : pteOf c.mem c.proc.pgdir 0x3000 = 0 := by
    rw [hm, hd]; exact Tiny.pteOf_eq (by decide)
  have hn : ¬ Present c.mem c.proc.pgdir 0x3000 := by
    rw [Present, hpte]; decide
  exact ⟨hn, fun hok => hn hok.2.2.2.1⟩

/-- The first page of a lazily grown heap is faulted in. -/
theorem fault_progress_iff_tiny :
    Progress (Tiny.lazyImage [0x300000] 4096) .user 0x3000
      (trap (fun c => .ok c) (Tiny.lazyImage [0x300000] 4096) .pgflt .user 0x3000) := by
  have hr : Reachable (Tiny.lazyImage [0x300000] 4096) :=
    Tiny.lazyImage_reachable (List.nodup_singleton _) (by decide) ⟨4096, by decide⟩ (by decide)
      (by decide)
  obtain ⟨hn, hf⟩ := tiny_faults (Tiny.lazyImage [0x300000] 4096) rfl rfl
  exact (fault_progress_iff hr (by decide) .user hf _).mpr
    ⟨rfl, by decide, by decide, hn, by decide,
      .inl ((Tiny.hasTable_iff (by decide)).mpr (.inl rfl))⟩

/-- With the default allocator, a store just above the break sets `killed` and goes back to the
store. -/
theorem userFault_returns_killed :
    Reachable (Tiny.image [0x300000]) ∧ Faults (Tiny.image [0x300000]) .user 0x3000 true ∧
      trap (fun c => .ok c) (Tiny.image [0x300000]) .pgflt .user 0x3000 =
        .ok (.returns ((Tiny.image [0x300000]).kill (Tiny.mem [0x300000]))) ∧
      ¬ Progress (Tiny.image [0x300000]) .user 0x3000
        (trap (fun c => .ok c) (Tiny.image [0x300000]) .pgflt .user 0x3000) := by
  refine ⟨Tiny.image_reachable (List.nodup_singleton _) (by decide),
    (tiny_faults (Tiny.image [0x300000]) rfl rfl).2, rfl, fun hprog => ?_⟩
  exact absurd (hprog.2 rfl) (by decide)

/-! ### Switching allocators -/

/-- An access completes and the process stays alive. -/
def Completes (c : Ctx) (va : ℕ) (write : Bool) : Prop :=
  ∃ pa c', access c va write = .ok (some pa, c') ∧ c'.proc.killed = false

/-- **Granted memory across allocator switches.** After any run, an access to the heap below the
break completes, when two frames are free, exactly if the page is present or the lazy allocator is
on. -/
theorem access_completes_iff {img : Ctx} (himg : Image heap img) {ops : List Op} {os : List Obs}
    (hr : run ops img = .ok (os, c)) (hk : c.proc.killed = false) (hheap : heap ≤ va)
    (hlt : va < c.proc.sz) (hcan : CanAlloc c.mem 2) (write : Bool) :
    Completes c va write ↔ c.proc.pageAllocatorType = 1 ∨ Present c.mem c.proc.pgdir va := by
  have h : Inv heap c := himg.toInv.run hr
  have hsz := h.sz_lt
  have hv : va < 2 ^ 32 := by omega
  have hdown : pgrounddown va < c.proc.sz := Nat.lt_of_le_of_lt (pgrounddown_le va) hlt
  -- guard pages lie below the heap
  have hok : Present c.mem c.proc.pgdir va → UserOk c.mem c.proc.pgdir va write := by
    intro hp
    refine (h.userOk_iff hv write).mpr ⟨by omega, ?_⟩
    exact (h.flags va (by omega) hp).resolve_right fun h3 => by omega
  have hends := access_ends h hv write
  rw [Completes]
  generalize access c va write = res at hends
  cases hends with
  | hit hu => exact ⟨fun _ => .inr hu.2.2.2.1, fun _ => ⟨_, _, rfl, hk⟩⟩
  | remap hn hf =>
    cases hf with
    | remap ht hlt' hp hcan' => exact absurd (hok hp) hn
  | killed hn hkill =>
    refine ⟨fun ⟨_, _, he, _⟩ => (nomatch he), fun hor => ?_⟩
    rcases hor with ht | hp
    · rcases hkill.why with (hw | hw) | ⟨-, hw | ⟨-, -, hw⟩⟩
      · exact absurd ht hw
      · omega
      · exact absurd (hcan.mono (by decide)) hw
      · exact absurd hcan hw
    · exact absurd (hok hp) hn
  | mapped hn hm => exact ⟨fun _ => .inl hm.isLazy, fun _ => ⟨_, _, rfl, hk⟩⟩

/-- The first page of a lazily grown heap can be stored to. -/
theorem access_completes_iff_tiny :
    Completes (Tiny.lazyImage [0x300000, 0x301000] 4096) 0x3000 true :=
  (access_completes_iff (Tiny.image_isImage (by decide) (by decide))
    (Tiny.lazyImage_run [0x300000, 0x301000] ⟨4096, by decide⟩ (by decide) (by decide)) rfl
    (by decide) (by decide) (by decide) true).mpr (.inl rfl)

/-- The same page after the process has switched back to the default allocator: the store kills
it. -/
theorem access_killed_after_switch :
    ∃ img c os, Image 0x3000 img ∧
      run [.setPageAllocator ⟨1, by decide⟩, .sbrk ⟨4096, by decide⟩,
        .setPageAllocator ⟨0, by decide⟩] img = .ok (os, c) ∧
      c.proc.killed = false ∧ c.proc.sz = 0x4000 ∧ CanAlloc c.mem 2 ∧
      ¬ Completes c 0x3000 true := by
  let free : List ℕ := [0x300000, 0x301000]
  have himg : Image 0x3000 (Tiny.image free) := Tiny.image_isImage (by decide) (by decide)
  have hset : sysSetPageAllocator (Tiny.image free) ⟨1, by decide⟩ = (0, Tiny.lazyImage free 0) :=
    rfl
  have hsbrk : sysSbrk (Tiny.lazyImage free 0) ⟨4096, by decide⟩ =
      .ok (0x3000, Tiny.lazyImage free 4096) :=
    sysSbrk_lazy rfl (by decide) (k := 0x4000) rfl (by decide)
  have hback : sysSetPageAllocator (Tiny.lazyImage free 4096) ⟨0, by decide⟩ =
      (0, (Tiny.image free).setSz (Tiny.mem free) 0x4000) := rfl
  have hrun : run [.setPageAllocator ⟨1, by decide⟩, .sbrk ⟨4096, by decide⟩,
      .setPageAllocator ⟨0, by decide⟩] (Tiny.image free) =
      .ok ([.ret 0, .ret 0x3000, .ret 0], (Tiny.image free).setSz (Tiny.mem free) 0x4000) := by
    simp only [run, step, hset, hsbrk, hback]
    rfl
  refine ⟨_, _, _, himg, hrun, rfl, rfl, by decide, ?_⟩
  rintro ⟨pa, c', hacc, hk⟩
  have hn : ¬ UserOk (Tiny.mem free) 0x200000 0x3000 true := by
    have hpte : pteOf (Tiny.mem free) 0x200000 0x3000 = 0 := Tiny.pteOf_eq (by decide)
    intro hok
    have hp := hok.2.2.2.1
    rw [Present, hpte] at hp
    exact hp rfl
  have hkill : access ((Tiny.image free).setSz (Tiny.mem free) 0x4000) 0x3000 true =
      .ok (none, ((Tiny.image free).setSz (Tiny.mem free) 0x4000).kill (Tiny.mem free)) := by
    rw [access, if_neg (by exact hn)]
    exact if_neg (by exact hn)
  rw [hkill] at hacc
  cases hacc

end Xv6
