import Mathlib.Data.Set.Card
import Xv6.Bio.Cache

/-!
# When the buffer cache runs out

`bget` panics if the block is not cached and every buffer is busy or dirty. A buffer is dirty while
the log still has to install it, and busy while a process holds it, inside a transaction or not.
Nothing bounds the two together by the number of buffers, so it does happen; `bget_panics_iff`
counts the blocks.

## Main results

* `bget_panics_iff` — one call, from any reachable state
* `run_never_out_of_buffers_iff` — a whole run
* `readers_exhaust_bcache` — thirty-one readers
-/

namespace Xv6.Bcache

/-- The blocks whose buffers cannot be recycled: those that some process holds, and those that the
log has not installed yet. -/
def State.inUse (s : State) : Set (ℕ × ℕ) :=
  {k | ∃ i, s.Caches i k.1 k.2 ∧ ((∃ p, i ∈ s.held p) ∨ (s.buf i).dirty = true)}

variable {disk : ℕ → ℕ → Block} {s s' : State} {l : List Slot}

theorem Order.bget_eq_noBuffers_iff (ho : Order s l) {p dev n : ℕ} :
    s.bget p dev n = .error .noBuffers ↔
      (∀ i, ¬s.Caches i dev n) ∧ ∀ i, (s.buf i).busy = true ∨ (s.buf i).dirty = true := by
  have hlook : s.lookup dev n = none ↔ ∀ i, ¬s.Caches i dev n := by
    rw [ho.lookup_eq, List.find?_eq_none]
    simp only [decide_eq_true_eq]
    exact ⟨fun h i => h i (ho.all i), fun h i _ => h i⟩
  have hrec : s.recyclable = none ↔ ∀ i, (s.buf i).busy = true ∨ (s.buf i).dirty = true := by
    rw [ho.recyclable_eq, List.find?_eq_none]
    simp only [List.mem_reverse, Bool.and_eq_true, Bool.not_eq_true', not_and_or, Bool.not_eq_false]
    exact ⟨fun h i => h i (ho.all i), fun h i _ => h i⟩
  rw [State.bget, ← hlook, ← hrec]
  cases s.lookup dev n with
  | some i => by_cases hb : (s.buf i).busy = true <;> simp [hb]
  | none =>
    cases s.recyclable with
    | some i => simp
    | none => simp

theorem Inv.inUse_eq (hi : Inv s) : s.inUse = (fun i => ((s.buf i).dev, (s.buf i).blockno)) ''
      {i | (s.buf i).busy = true ∨ (s.buf i).dirty = true} := by
  ext ⟨dev, n⟩
  simp only [State.inUse, State.Caches, ← hi.busy, Set.mem_ofPred_eq, Set.mem_image, Prod.mk.injEq]
  exact exists_congr fun i => and_comm

theorem Inv.all_inUse_iff (hi : Inv s) :
    nbuf ≤ s.inUse.ncard ↔ ∀ i, (s.buf i).busy = true ∨ (s.buf i).dirty = true := by
  have hcard : s.inUse.ncard = {i | (s.buf i).busy = true ∨ (s.buf i).dirty = true}.ncard := by
    rw [hi.inUse_eq]
    refine Set.InjOn.ncard_image fun i hu j _ hij => ?_
    rw [Prod.mk.injEq] at hij
    exact (hi.unique i j (hi.used i hu) ⟨hij.1.symm, hij.2.symm⟩).symm
  have huniv : (Set.univ : Set Slot).ncard = nbuf := by
    rw [Set.ncard_univ, Nat.card_eq_fintype_card, Fintype.card_fin]
  rw [hcard, ← huniv]
  refine ⟨fun h i => ?_, fun h => ?_⟩
  · exact Set.eq_univ_iff_forall.mp (Set.eq_of_subset_of_ncard_le (Set.subset_univ _) h) i
  · exact (congrArg Set.ncard (Set.eq_univ_iff_forall.mpr h)).ge

/-- **One call of `bget`.** It panics if and only if its block is not among those in use and these
take up all the buffers. -/
theorem bget_panics_iff (hr : Reachable disk s) {p dev n : ℕ} (hp : s.pc p = .bget dev n) :
    s.step (.go p) = .error .noBuffers ↔ (dev, n) ∉ s.inUse ∧ nbuf ≤ s.inUse.ncard := by
  have hi := reachable_inv hr
  obtain ⟨l, ho⟩ := hi.order
  have hstep : s.step (.go p) = s.bget p dev n := by simp only [State.step, hp]
  rw [hstep, ho.bget_eq_noBuffers_iff, hi.all_inUse_iff]
  refine and_congr_left fun hall => ?_
  -- with all buffers in use, a block that is cached is in use
  rw [hi.inUse_eq]
  simp [State.Caches, hall]

theorem step_eq_noBuffers {act : Act} (h : s.step act = .error .noBuffers) :
    ∃ p dev n, act = .go p ∧ s.pc p = .bget dev n := by
  have hio : ∀ i, s.iderw i ≠ .error .noBuffers := fun i h => by
    rw [State.iderw] at h
    split_ifs at h <;> cases h
  cases act with
  | go p =>
    simp only [State.step] at h
    cases hp : s.pc p with
    | bget dev n => exact ⟨p, dev, n, rfl, hp⟩
    | reading i dev n =>
      cases ht : s.iderw i with
      | error e =>
        simp only [hp, ht, Except.error.injEq] at h
        exact absurd (h ▸ ht) (hio i)
      | ok t => simp [hp, ht] at h
    | writing i =>
      cases ht : s.iderw i with
      | error e =>
        simp only [hp, ht, Except.error.injEq] at h
        exact absurd (h ▸ ht) (hio i)
      | ok t => simp [hp, ht] at h
    | run | asleep => simp [hp] at h
  | wake p =>
    simp only [State.step] at h
    cases hp : s.pc p <;> simp [hp] at h
  | brelse p i =>
    rw [State.step, State.brelse] at h
    split_ifs at h <;> simp at h
  | bread p dev n | modify p i d | logWrite p i | bwrite p i =>
    rw [State.step] at h
    split_ifs at h <;> cases h

theorem State.next_eq_error {act : Act} {e : Stuck} :
    s.next act = .error e ↔ s.step act = .error e := by
  rw [State.next]
  cases s.step act with
  | error e' => exact ⟨fun h => congrArg _ (Except.error.inj h),
      fun h => congrArg _ (Except.error.inj h)⟩
  | ok rs => exact ⟨(fun h => by cases h), (fun h => by cases h)⟩

/-- **When a run never runs out of buffers.** Each time a process looks for a block, either the
block is in use or fewer than `nbuf` blocks are. -/
theorem run_never_out_of_buffers_iff (disk : ℕ → ℕ → Block) (acts : List Act) :
    (binit disk).run acts ≠ .error .noBuffers ↔
      ∀ acts₁ p acts₂ s dev n, acts = acts₁ ++ .go p :: acts₂ → (binit disk).run acts₁ = .ok s →
        s.pc p = .bget dev n → (dev, n) ∈ s.inUse ∨ s.inUse.ncard < nbuf := by
  refine ⟨fun h acts₁ p acts₂ s dev n hacts hrun hp => ?_, fun h hrun => ?_⟩
  · by_contra hout
    rw [not_or, not_lt] at hout
    refine h (Runs.run_eq_error_iff.mpr ⟨acts₁, .go p, acts₂, s, hacts, hrun, ?_⟩)
    exact State.next_eq_error.mpr ((bget_panics_iff ⟨_, hrun⟩ hp).mpr hout)
  · obtain ⟨acts₁, act, acts₂, s, hacts, hrun₁, hstep⟩ := Runs.run_eq_error_iff.mp hrun
    rw [State.next_eq_error] at hstep
    obtain ⟨p, dev, n, rfl, hp⟩ := step_eq_noBuffers hstep
    have hout := (bget_panics_iff ⟨_, hrun₁⟩ hp).mp hstep
    rcases h acts₁ p acts₂ s dev n hacts hrun₁ hp with hin | hlt
    · exact hout.1 hin
    · exact absurd hlt (not_lt.mpr hout.2)

/-- Thirty processes have each been given a buffer for a block of their own and wait for the disk;
one more looks for its block. -/
def readers : List Act :=
  (List.range nbuf).flatMap (fun p => [.bread p 1 (100 + p), .go p]) ++ [.bread nbuf 1 (100 + nbuf)]

/-- **Thirty-one readers exhaust the cache.** None of them is in a transaction or holds more than
one buffer. -/
theorem readers_exhaust_bcache :
    ∃ s, (binit fun _ _ _ => 0).run readers = .ok s ∧ (∀ p < 64, (s.held p).card ≤ 1) ∧
      s.step (.go nbuf) = .error .noBuffers := by
  obtain ⟨s, hs, htest⟩ := Runs.exists_of_endsIn
    (fun s : State => decide (∀ p ∈ List.range 64, (s.held p).card ≤ 1) &&
      (match s.step (.go nbuf) with
      | .error e => decide (e = .noBuffers)
      | .ok _ => false)) ((binit fun _ _ _ => 0).run readers) (by decide +kernel)
  simp only [Bool.and_eq_true, decide_eq_true_eq] at htest
  refine ⟨s, hs, fun p hp => htest.1 p (List.mem_range.mpr hp), ?_⟩
  cases hstep : s.step (.go nbuf) with
  | ok rs => simp [hstep] at htest
  | error e =>
    simp only [hstep, decide_eq_true_eq] at htest
    rw [htest.2]

end Xv6.Bcache
