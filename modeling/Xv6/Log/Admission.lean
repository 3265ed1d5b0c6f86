import Xv6.Library.Runs
import Xv6.Log.Log

/-!
# Admission to the log and group commit

What `begin_op`, `log_write`, `end_op` and `commit` do with the log's lock and counters, for any
number of processes. The contents of the blocks play no part in it and are left out; the model of
`Xv6.Log.Log` has them.

## Granularity

What is done with `log.lock` held is one step, so between steps the lock is free. `begin_op` is such
a step each time it gets the lock. `log_write` makes its tests without the lock. `commit` runs
without it too, and goes on by one pass through a loop or one `write_head`. A process that sleeps in
`begin_op` is woken by `end_op`, and may be woken by `kill`.

`log_write` and `end_op` are called between `begin_op` and `end_op` of the same process.

## Main results

* `Inv.step` — what each step keeps of the counters, the header, the committer and the sleepers
* `group_commit_exclusive` — commits exclude operations, and no sleeper is forgotten
* `run_never_tooBig_iff` — when `log_write` does not panic
* `three_full_operations_panic` — three operations that are admitted together and write ten blocks
  each do not fit
-/

namespace Xv6.Log.Group

open Function

/-- Where a process is. -/
inductive Pc
  | idle
  | begin
  | asleep
  | inOp
  /-- In `log_write` for this block, past the tests and before the lock. -/
  | logging (b : ℕ)
  /-- In `commit`, in `write_log`; past the last entry, before `write_head`. -/
  | writeLog (tail : ℕ)
  /-- In `commit`, in `install_trans`; past the last entry, before the header is cleared. -/
  | install (tail : ℕ)
  /-- In `commit`, before the cleared header is written. -/
  | erase
  | finish
  deriving DecidableEq

/-- The process is counted in `log.outstanding`. -/
def Pc.InOp : Pc → Prop
  | .inOp | .logging _ => True
  | _ => False

/-- The process has set `log.committing`. -/
def Pc.InCommit : Pc → Prop
  | .writeLog _ | .install _ | .erase | .finish => True
  | _ => False

variable {c : Pc} {q : ℕ}

theorem Pc.InCommit.not_inOp (hc : c.InCommit) : ¬c.InOp := by
  cases c with
  | writeLog | install | erase | finish => exact id
  | idle | begin | asleep | inOp | logging => exact absurd hc id

/-- `log`, and the processes. -/
structure State where
  lh : List ℕ
  outstanding : ℤ
  committing : Bool
  pc : ℕ → Pc
  /-- The blocks that the operation of each process has logged. No step looks at it. -/
  mine : ℕ → Finset ℕ
  /-- The blocks logged by the operations that will be committed together. No step looks at it. -/
  written : Finset ℕ

/-- `initlog` has returned. -/
def init : State := ⟨[], 0, false, fun _ => .idle, fun _ => ∅, ∅⟩

/-- What can happen. -/
inductive Act
  | beginOp (p : ℕ)
  | logWrite (p b : ℕ)
  | endOp (p : ℕ)
  | go (p : ℕ)
  /-- Process `p` is woken by `kill`. -/
  | wake (p : ℕ)

namespace State

variable (a : Area) (s : State)

/-- The state with process `p` somewhere else. -/
def setPc (p : ℕ) (c : Pc) : State := { s with pc := update s.pc p c }

/-- `wakeup(&log)`. -/
def wakeup : State := { s with pc := fun q => if s.pc q = .asleep then .begin else s.pc q }

/-- `begin_op`, from where it has the lock. -/
def beginOp (p : ℕ) : State :=
  if s.committing then s.setPc p .asleep
  else if s.lh.length + (s.outstanding + 1) * maxopblocks > logsize then s.setPc p .asleep
  else { s.setPc p .inOp with
    outstanding := s.outstanding + 1, mine := update s.mine p ∅ }

/-- The tests of `log_write`. -/
def logTest (p b : ℕ) : Except Stuck State :=
  if s.lh.length ≥ logsize ∨ s.lh.length ≥ a.size - 1 then .error .tooBig
  else if s.outstanding < 1 then .error .outsideTrans
  else .ok (s.setPc p (.logging b))

/-- The locked part of `log_write`. -/
def logWrite (p b : ℕ) : State :=
  { s.setPc p .inOp with
    lh := absorb s.lh b
    mine := update s.mine p (insert b (s.mine p))
    written := insert b s.written }

/-- `end_op` up to the call of `commit`, which does nothing if no block was logged. -/
def endOp (p : ℕ) : Except Stuck State :=
  let s := { s with outstanding := s.outstanding - 1 }
  if s.committing then .error .committing
  else if s.outstanding = 0 then
    .ok { s.setPc p (if s.lh.length > 0 then .writeLog 0 else .finish) with committing := true }
  else .ok (s.wakeup.setPc p .idle)

/-- One step. -/
def step : Act → Except Stuck State
  | .beginOp p => if s.pc p = .idle then .ok (s.setPc p .begin) else .error .disabled
  | .logWrite p b => if s.pc p = .inOp then s.logTest a p b else .error .disabled
  | .endOp p => if s.pc p = .inOp then s.endOp p else .error .disabled
  | .wake p => if s.pc p = .asleep then .ok (s.setPc p .begin) else .error .disabled
  | .go p =>
    match s.pc p with
    | .begin => .ok (s.beginOp p)
    | .logging b => .ok (s.logWrite p b)
    | .writeLog tail =>
      if tail < s.lh.length then .ok (s.setPc p (.writeLog (tail + 1)))
      else .ok (s.setPc p (.install 0))
    | .install tail =>
      if tail < s.lh.length then .ok (s.setPc p (.install (tail + 1)))
      else .ok { s.setPc p .erase with lh := [], written := ∅ }
    | .erase => .ok (s.setPc p .finish)
    | .finish => .ok { s.wakeup.setPc p .idle with committing := false }
    | .idle | .asleep | .inOp => .error .disabled

/-- A run, until something goes wrong. -/
def run (acts : List Act) : Except Stuck State := Runs.run (step a) acts s

end State

/-- The states that the log can be in. -/
def Reachable (a : Area) (s : State) : Prop := ∃ acts, init.run a acts = .ok s

/-! ### The invariant -/

/-- What holds whenever `log.lock` is free. -/
structure Inv (s : State) : Prop where
  counts : ∃ A : Finset ℕ, (∀ p, p ∈ A ↔ (s.pc p).InOp) ∧ s.outstanding = A.card
  committing : s.committing = true ↔ ∃ p, (s.pc p).InCommit
  sole : ∀ p q, (s.pc p).InCommit → (s.pc q).InCommit → p = q
  exclusive : s.committing = true → s.outstanding = 0
  quiet : s.committing = false → s.outstanding = 0 → s.lh = []
  cleared : ∀ p, s.pc p = .erase ∨ s.pc p = .finish → s.lh = []
  asleep : ∀ p, s.pc p = .asleep → 0 < s.outstanding ∨ s.committing = true
  nodup : s.lh.Nodup
  logged : s.lh.toFinset = s.written

theorem Inv.init : Inv init where
  counts := ⟨∅, fun _ => iff_of_false (Finset.notMem_empty _) id, rfl⟩
  committing := iff_of_false Bool.false_ne_true fun ⟨_, h⟩ => h
  sole := fun _ _ h => absurd h id
  exclusive := fun h => absurd h Bool.false_ne_true
  quiet := fun _ _ => rfl
  cleared := fun _ _ => rfl
  asleep := fun _ h => by cases h
  nodup := List.nodup_nil
  logged := rfl

variable {a : Area} {s s' t : State}

/-- Process `p` comes to `c`, and sleepers may be woken. -/
structure Moves (s : State) (p : ℕ) (c : Pc) (pc : ℕ → Pc) : Prop where
  self : pc p = c
  others : ∀ q ≠ p, pc q = s.pc q ∨ s.pc q = .asleep ∧ pc q = .begin

theorem moves_setPc (s : State) (p : ℕ) (c : Pc) : Moves s p c (update s.pc p c) :=
  ⟨update_self .., fun _ hq => .inl (update_of_ne hq ..)⟩

theorem moves_wakeup (s : State) (p : ℕ) (c : Pc) : Moves s p c (update s.wakeup.pc p c) := by
  refine ⟨update_self .., fun q hq => ?_⟩
  rw [update_of_ne hq]
  by_cases h : s.pc q = .asleep
  · exact .inr ⟨h, if_pos h⟩
  · exact .inl (if_neg h)

theorem wakeup_ne_asleep (s : State) (p q : ℕ) : (s.wakeup.setPc p .idle).pc q ≠ .asleep := by
  intro hq
  rw [State.setPc] at hq
  by_cases hqp : q = p
  · subst hqp
    cases (update_self ..).symm.trans hq
  · have hq' : (if s.pc q = .asleep then .begin else s.pc q) = .asleep :=
      (update_of_ne hqp ..).symm.trans hq
    by_cases h : s.pc q = .asleep <;> simp [h] at hq'

namespace Moves

variable {p : ℕ} {c : Pc} {pc : ℕ → Pc}

section

variable (hm : Moves s p c pc)

include hm

theorem inOp (hq : q ≠ p) : (pc q).InOp ↔ (s.pc q).InOp := by
  rcases hm.others q hq with h | ⟨hs, ht⟩
  · rw [h]
  · rw [hs, ht]
    exact Iff.rfl

theorem inCommit (hq : q ≠ p) : (pc q).InCommit ↔ (s.pc q).InCommit := by
  rcases hm.others q hq with h | ⟨hs, ht⟩
  · rw [h]
  · rw [hs, ht]
    exact Iff.rfl

theorem eq_or (hb : pc q ≠ .begin) : pc q = c ∨ s.pc q = pc q := by
  by_cases hq : q = p
  · exact .inl (hq ▸ hm.self)
  · rcases hm.others q hq with h | ⟨-, ht⟩
    · exact .inr h.symm
    · exact absurd ht hb

theorem cleared (hi : Inv s) (hc : ¬(c = .erase ∨ c = .finish)) (q : ℕ)
    (hq : pc q = .erase ∨ pc q = .finish) : s.lh = [] := by
  have hb : pc q ≠ .begin := fun h => by simp [h] at hq
  rcases hm.eq_or hb with h | h
  · exact absurd (h ▸ hq) hc
  · exact hi.cleared q (h.symm ▸ hq)

theorem asleep (hi : Inv s) (hc : c ≠ .asleep) (q : ℕ)
    (hq : pc q = .asleep) : 0 < s.outstanding ∨ s.committing = true := by
  have hb : pc q ≠ .begin := fun h => by cases hq.symm.trans h
  rcases hm.eq_or hb with h | h
  · exact absurd (h.symm.trans hq) hc
  · exact hi.asleep q (h.trans hq)

theorem commits (hi : Inv s) (hc : c.InCommit ↔ (s.pc p).InCommit) :
    (s.committing = true ↔ ∃ q, (pc q).InCommit) ∧
      ∀ q r, (pc q).InCommit → (pc r).InCommit → q = r := by
  have hiff : ∀ q, (pc q).InCommit ↔ (s.pc q).InCommit := by
    intro q
    by_cases hq : q = p
    · rw [hq, hm.self, hc]
    · exact hm.inCommit hq
  exact ⟨hi.committing.trans (exists_congr fun q => (hiff q).symm),
    fun q r hq hr => hi.sole q r ((hiff q).mp hq) ((hiff r).mp hr)⟩

end

end Moves

section Counting

variable {p : ℕ} {c : Pc} {pc : ℕ → Pc}

theorem Inv.counts_same (hi : Inv s) (hm : Moves s p c pc) (hc : c.InOp ↔ (s.pc p).InOp) :
    ∃ A : Finset ℕ, (∀ q, q ∈ A ↔ (pc q).InOp) ∧ s.outstanding = A.card := by
  obtain ⟨A, hA, hcard⟩ := hi.counts
  refine ⟨A, fun q => (hA q).trans ?_, hcard⟩
  by_cases hq : q = p
  · rw [hq, hm.self, hc]
  · exact (hm.inOp hq).symm

theorem Inv.counts_enter (hi : Inv s) (hm : Moves s p c pc) (hp : ¬(s.pc p).InOp) (hc : c.InOp) :
    ∃ A : Finset ℕ, (∀ q, q ∈ A ↔ (pc q).InOp) ∧ s.outstanding + 1 = A.card := by
  obtain ⟨A, hA, hcard⟩ := hi.counts
  refine ⟨insert p A, fun q => ?_, ?_⟩
  · by_cases hq : q = p
    · rw [hq, hm.self]
      exact iff_of_true (Finset.mem_insert_self p A) hc
    · rw [Finset.mem_insert, or_iff_right hq, hA, hm.inOp hq]
  · rw [Finset.card_insert_of_notMem (mt (hA p).mp hp), hcard]
    push_cast
    rfl

theorem Inv.counts_leave (hi : Inv s) (hm : Moves s p c pc) (hp : (s.pc p).InOp) (hc : ¬c.InOp) :
    ∃ A : Finset ℕ, (∀ q, q ∈ A ↔ (pc q).InOp) ∧ s.outstanding - 1 = A.card := by
  obtain ⟨A, hA, hcard⟩ := hi.counts
  have hpA := (hA p).mpr hp
  refine ⟨A.erase p, fun q => ?_, ?_⟩
  · by_cases hq : q = p
    · rw [hq, hm.self]
      exact iff_of_false (Finset.notMem_erase p A) hc
    · rw [Finset.mem_erase, and_iff_right hq, hA, hm.inOp hq]
  · rw [Finset.card_erase_of_mem hpA, Nat.cast_sub (Finset.card_pos.mpr ⟨p, hpA⟩), hcard]
    rfl

end Counting

variable {p : ℕ}

section

variable (hi : Inv s)

include hi

/-- A process in an operation is counted, so that nobody commits. -/
theorem Inv.of_inOp (hp : (s.pc p).InOp) : 0 < s.outstanding ∧ s.committing = false := by
  obtain ⟨A, hA, hcard⟩ := hi.counts
  have hpos : 0 < s.outstanding := by
    rw [hcard]
    exact_mod_cast Finset.card_pos.mpr ⟨p, (hA p).mpr hp⟩
  refine ⟨hpos, Bool.eq_false_of_not_eq_true fun h => ?_⟩
  exact hpos.ne' (hi.exclusive h)

theorem Inv.outstanding_nonneg : 0 ≤ s.outstanding := by
  obtain ⟨A, -, hcard⟩ := hi.counts
  rw [hcard]
  exact Int.natCast_nonneg _

theorem Inv.outside (hp : ¬(s.pc p).InOp ∧ ¬(s.pc p).InCommit)
    (hc : ¬c.InOp ∧ ¬c.InCommit) (hsleep : c = .asleep → 0 < s.outstanding ∨ s.committing = true) :
    Inv (s.setPc p c) := by
  have hm := moves_setPc s p c
  obtain ⟨hcommit, hsole⟩ := hm.commits hi (iff_of_false hc.2 hp.2)
  refine ⟨hi.counts_same hm (iff_of_false hc.1 hp.1), hcommit, hsole, hi.exclusive, hi.quiet,
    hm.cleared hi ?_, fun q hq => ?_, hi.nodup, hi.logged⟩
  · rintro (rfl | rfl)
    · exact hc.2 trivial
    · exact hc.2 trivial
  · by_cases hcs : c = .asleep
    · exact hsleep hcs
    · exact hm.asleep hi hcs q hq

/-- `begin_op`: an operation is admitted, or waits for one that will wake it. -/
theorem Inv.beginOp (hp : s.pc p = .begin) : Inv (s.beginOp p) := by
  have hout : ¬(s.pc p).InOp ∧ ¬(s.pc p).InCommit := by
    rw [hp]
    exact ⟨id, id⟩
  rw [State.beginOp]
  split_ifs with hcom hfull
  · exact hi.outside hout ⟨id, id⟩ fun _ => .inr hcom
  · refine hi.outside hout ⟨id, id⟩ fun _ => .inl ?_
    -- an empty log has room for an operation
    by_contra hpos
    have hzero : s.outstanding = 0 := le_antisymm (not_lt.mp hpos) hi.outstanding_nonneg
    rw [hi.quiet (Bool.eq_false_of_not_eq_true hcom) hzero, hzero] at hfull
    exact absurd hfull (by decide)
  · have hm := moves_setPc s p .inOp
    obtain ⟨hcommit, hsole⟩ := hm.commits hi (iff_of_false id hout.2)
    refine ⟨hi.counts_enter hm hout.1 trivial, hcommit, hsole, fun h => absurd h hcom,
      fun _ h => ?_, hm.cleared hi (fun h => by simp at h), fun q hq => ?_, hi.nodup, hi.logged⟩
    · have hpos := Int.lt_add_one_of_le hi.outstanding_nonneg
      exact absurd h hpos.ne'
    · exact .inl (Int.lt_add_one_of_le hi.outstanding_nonneg)

theorem Inv.inside (hp : (s.pc p).InOp) (hc : c.InOp)
    (hm : Moves s p c t.pc) (hout : t.outstanding = s.outstanding)
    (hcom : t.committing = s.committing) (hnd : t.lh.Nodup) (hlog : t.lh.toFinset = t.written) :
    Inv t := by
  obtain ⟨hpos, hncom⟩ := hi.of_inOp hp
  have hpc : ¬(s.pc p).InCommit := fun h => by
    rw [hi.committing.mpr ⟨p, h⟩] at hncom
    exact absurd hncom Bool.true_eq_false.mp
  have hcc : ¬c.InCommit := fun h => h.not_inOp hc
  obtain ⟨hsame, hsole⟩ := hm.commits hi (iff_of_false hcc hpc)
  refine ⟨hout ▸ hi.counts_same hm (iff_of_true hc hp), hcom ▸ hsame, hsole, fun h => ?_,
    fun _ h => ?_, fun q hq => ?_, fun q hq => .inl (hout ▸ hpos), hnd, hlog⟩
  · rw [hcom, hncom] at h
    exact absurd h Bool.false_ne_true
  · exact absurd (hout ▸ h) hpos.ne'
  · have hq' : (t.pc q).InCommit := by
      rcases hq with h | h
      · rw [h]
        trivial
      · rw [h]
        trivial
    rw [hncom] at hsame
    exact absurd (hsame.mpr ⟨q, hq'⟩) Bool.false_ne_true

theorem Inv.logWrite {p b : ℕ} (hp : s.pc p = .logging b) : Inv (s.logWrite p b) := by
  refine hi.inside (p := p) (by rw [hp]; trivial) (c := .inOp) trivial (moves_setPc s p _) rfl rfl
    (nodup_absorb hi.nodup b) ?_
  ext c
  simp only [State.logWrite, List.mem_toFinset, mem_absorb, Finset.mem_insert, ← hi.logged]

theorem Inv.leaveLast (hp : s.pc p = .inOp) (hlast : s.outstanding - 1 = 0) (hc : c.InCommit)
    (hclear : c = .erase ∨ c = .finish → s.lh = []) :
    Inv { s.setPc p c with outstanding := s.outstanding - 1, committing := true } := by
  have hm := moves_setPc s p c
  have hpin : (s.pc p).InOp := by
    rw [hp]
    trivial
  have hncom := (hi.of_inOp hpin).2
  have hnone : ∀ q, ¬(s.pc q).InCommit := fun q h => by
    rw [hi.committing.mpr ⟨q, h⟩] at hncom
    exact absurd hncom Bool.true_eq_false.mp
  have honly : ∀ q, (update s.pc p c q).InCommit → q = p := fun q hq => by
    by_contra hqp
    exact hnone q ((hm.inCommit hqp).mp hq)
  refine ⟨hi.counts_leave hm hpin hc.not_inOp, iff_of_true rfl ⟨p, ?_⟩, fun q r hq hr => ?_,
    fun _ => hlast, fun h => absurd h Bool.true_eq_false.mp, fun q hq => ?_, fun _ _ => .inr rfl,
    hi.nodup, hi.logged⟩
  · change (update s.pc p c p).InCommit
    rwa [hm.self]
  · exact (honly q hq).trans (honly r hr).symm
  · change update s.pc p c q = _ ∨ update s.pc p c q = _ at hq
    by_cases hclr : c = .erase ∨ c = .finish
    · exact hclear hclr
    · exact hm.cleared hi hclr q hq

theorem Inv.leave (hp : s.pc p = .inOp) (hmore : s.outstanding - 1 ≠ 0) :
    Inv (({ s with outstanding := s.outstanding - 1 } : State).wakeup.setPc p .idle) := by
  have hm := moves_wakeup s p .idle
  have hpin : (s.pc p).InOp := by
    rw [hp]
    trivial
  obtain ⟨hpos, hncom⟩ := hi.of_inOp hpin
  obtain ⟨hcommit, hsole⟩ := hm.commits hi (by rw [hp]; exact Iff.rfl)
  refine ⟨hi.counts_leave hm hpin id, hcommit, hsole, fun h => ?_, fun _ h => absurd h hmore,
    hm.cleared hi (fun h => by simp at h), fun q hq => .inl ?_, hi.nodup, hi.logged⟩
  · exact absurd (hncom.symm.trans h) Bool.false_ne_true
  · change 0 < s.outstanding - 1
    omega

theorem Inv.commitStep (hp : (s.pc p).InCommit) (hc : c.InCommit)
    (hclear : c = .erase ∨ c = .finish → s.lh = []) : Inv (s.setPc p c) := by
  have hm := moves_setPc s p c
  have hcom := hi.committing.mpr ⟨p, hp⟩
  obtain ⟨hcommit, hsole⟩ := hm.commits hi (iff_of_true hc hp)
  refine ⟨hi.counts_same hm (iff_of_false hc.not_inOp hp.not_inOp), hcommit, hsole, hi.exclusive,
    hi.quiet, fun q hq => ?_, fun _ _ => .inr hcom, hi.nodup, hi.logged⟩
  by_cases hclr : c = .erase ∨ c = .finish
  · exact hclear hclr
  · exact hm.cleared hi hclr q hq

theorem Inv.clear {tail : ℕ} (hp : s.pc p = .install tail) :
    Inv { s.setPc p .erase with lh := [], written := ∅ } := by
  have hm := moves_setPc s p .erase
  have hpc : (s.pc p).InCommit := by
    rw [hp]
    trivial
  have hcom := hi.committing.mpr ⟨p, hpc⟩
  obtain ⟨hcommit, hsole⟩ := hm.commits hi (iff_of_true trivial hpc)
  exact ⟨hi.counts_same hm (by rw [hp]; exact Iff.rfl), hcommit, hsole, hi.exclusive,
    fun _ _ => rfl, fun _ _ => rfl, fun _ _ => .inr hcom, List.nodup_nil, rfl⟩

theorem Inv.finish (hp : s.pc p = .finish) :
    Inv { s.wakeup.setPc p .idle with committing := false } := by
  have hm := moves_wakeup s p .idle
  have hpc : (s.pc p).InCommit := by
    rw [hp]
    trivial
  have hnone : ∀ q, ¬(update s.wakeup.pc p .idle q).InCommit := fun q hq => by
    by_cases hqp : q = p
    · rw [hqp, update_self] at hq
      exact hq
    · exact hqp (hi.sole q p ((hm.inCommit hqp).mp hq) hpc)
  exact ⟨hi.counts_same hm (by rw [hp]; exact Iff.rfl),
    iff_of_false Bool.false_ne_true fun ⟨q, hq⟩ => hnone q hq, fun q _ hq => absurd hq (hnone q),
    fun h => absurd h Bool.false_ne_true, fun _ _ => hi.cleared p (.inr hp),
    hm.cleared hi (fun h => by simp at h), fun q hq => absurd hq (wakeup_ne_asleep s p q),
    hi.nodup, hi.logged⟩

/-- **Every step keeps the invariant.** -/
theorem Inv.step {act : Act} (h : s.step a act = .ok s') : Inv s' := by
  cases act with
  | beginOp p =>
    rw [State.step] at h
    split_ifs at h with hp
    cases h
    exact hi.outside (by rw [hp]; exact ⟨id, id⟩) ⟨id, id⟩ fun h => by cases h
  | logWrite p b =>
    rw [State.step, State.logTest] at h
    split_ifs at h with hp
    cases h
    exact hi.inside (p := p) (by rw [hp]; trivial) (c := .logging b) trivial (moves_setPc s p _)
      rfl rfl hi.nodup hi.logged
  | endOp p =>
    rw [State.step, State.endOp] at h
    split_ifs at h with hp hcom hlast hlen
    · cases h
      exact hi.leaveLast hp hlast trivial fun h => by simp at h
    · cases h
      refine hi.leaveLast hp hlast trivial fun _ => ?_
      exact List.length_eq_zero_iff.mp (Nat.le_zero.mp (not_lt.mp hlen))
    · cases h
      exact hi.leave hp hlast
  | wake p =>
    rw [State.step] at h
    split_ifs at h with hp
    cases h
    exact hi.outside (by rw [hp]; exact ⟨id, id⟩) ⟨id, id⟩ fun h => by cases h
  | go p =>
    simp only [State.step] at h
    cases hp : s.pc p with
    | begin =>
      simp only [hp] at h
      cases h
      exact hi.beginOp hp
    | logging b =>
      simp only [hp] at h
      cases h
      exact hi.logWrite hp
    | writeLog tail =>
      simp only [hp] at h
      split_ifs at h
      · cases h
        exact hi.commitStep (by rw [hp]; trivial) trivial fun h => by simp at h
      · cases h
        exact hi.commitStep (by rw [hp]; trivial) trivial fun h => by simp at h
    | install tail =>
      simp only [hp] at h
      split_ifs at h
      · cases h
        exact hi.commitStep (by rw [hp]; trivial) trivial fun h => by simp at h
      · cases h
        exact hi.clear hp
    | erase =>
      simp only [hp] at h
      cases h
      exact hi.commitStep (by rw [hp]; trivial) trivial fun _ => hi.cleared p (.inl hp)
    | finish =>
      simp only [hp] at h
      cases h
      exact hi.finish hp
    | idle | asleep | inOp => simp [hp] at h

end

theorem reachable_inv (hr : Reachable a s) : Inv s := by
  obtain ⟨acts, h⟩ := hr
  exact Runs.run_induct (fun _ _ _ hi hs => hi.step hs) Inv.init h

theorem Inv.step_ne_committing (hi : Inv s) (act : Act) : s.step a act ≠ .error .committing := by
  intro h
  cases act with
  | endOp p =>
    rw [State.step, State.endOp] at h
    split_ifs at h with hp hcom
    · have hno := (hi.of_inOp (p := p) (by rw [hp]; trivial)).2
      exact absurd (hno.symm.trans hcom) Bool.false_ne_true
    · cases h
  | beginOp p | wake p =>
    rw [State.step] at h
    split_ifs at h
    cases h
  | logWrite p b =>
    rw [State.step, State.logTest] at h
    split_ifs at h <;> cases h
  | go p =>
    simp only [State.step] at h
    cases hp : s.pc p with
    | writeLog tail | install tail =>
      simp only [hp] at h
      split_ifs at h
    | begin | logging b | erase | finish | idle | asleep | inOp => simp [hp] at h

theorem awake_of_end (h : s.step a (.endOp p) = .ok s' ∨
      s.pc p = .finish ∧ s.step a (.go p) = .ok s') (hcom : s'.committing = false) (q : ℕ) :
    s'.pc q ≠ .asleep := by
  rcases h with h | ⟨hp, h⟩
  · rw [State.step, State.endOp] at h
    split_ifs at h with hp hc hlast hlen
    · cases h
      exact absurd hcom Bool.true_eq_false.mp
    · cases h
      exact absurd hcom Bool.true_eq_false.mp
    · cases h
      exact wakeup_ne_asleep _ p q
  · simp only [State.step, hp] at h
    cases h
    exact wakeup_ne_asleep s p q

/-- **Group commit excludes operations and strands no waiter.** Whenever `log.lock` is free: during
a commit no operation is counted and none can log a block; `end_op` does not panic; with neither
operations nor a commit the log is empty; a process that sleeps in `begin_op` has somebody to wake
it, and every `end_op` that does not commit and every end of a commit wakes all of them. -/
theorem group_commit_exclusive (hr : Reachable a s) :
    (s.committing = true → s.outstanding = 0 ∧
      ∀ p b, s.pc p ≠ .logging b ∧ s.step a (.logWrite p b) = .error .disabled) ∧
    (∀ act, s.step a act ≠ .error .committing) ∧
    (s.outstanding = 0 → s.committing = false → s.lh = []) ∧
    (∀ p, s.pc p = .asleep → 0 < s.outstanding ∨ s.committing = true) ∧
    ∀ p s', s.step a (.endOp p) = .ok s' ∨ s.pc p = .finish ∧ s.step a (.go p) = .ok s' →
      s'.committing = false → ∀ q, s'.pc q ≠ .asleep := by
  have hi := reachable_inv hr
  have hno : s.committing = true → ∀ p, ¬(s.pc p).InOp := fun hcom p hp =>
    absurd ((hi.of_inOp hp).2.symm.trans hcom) Bool.false_ne_true
  refine ⟨fun hcom => ⟨hi.exclusive hcom, fun p b => ⟨fun hp => hno hcom p ?_, ?_⟩⟩,
    hi.step_ne_committing, fun hout hcom => hi.quiet hcom hout, hi.asleep,
    fun p s' hs hcom => awake_of_end hs hcom⟩
  · rw [hp]
    trivial
  · refine if_neg fun hp => hno hcom p ?_
    rw [hp]
    trivial

/-- A process sleeps while three operations are open; then one of them ends. -/
def crowd : List Act :=
  [.beginOp 0, .go 0, .beginOp 1, .go 1, .beginOp 2, .go 2, .beginOp 3, .go 3]

theorem group_commit_exclusive_crowd :
    ∃ s, init.run mkfsArea crowd = .ok s ∧ s.pc 3 = .asleep ∧
      ((∀ act, s.step mkfsArea act ≠ .error .committing) ∧
        (0 < s.outstanding ∨ s.committing = true)) := by
  obtain ⟨s, hs, hp⟩ := Runs.exists_of_endsIn (fun s : State => decide (s.pc 3 = .asleep))
    (init.run mkfsArea crowd) (by decide +kernel)
  rw [decide_eq_true_eq] at hp
  have h := group_commit_exclusive ⟨_, hs⟩
  exact ⟨s, hs, hp, h.2.1, h.2.2.2.1 3 hp⟩

/-! ### Room in the log -/

/-- **`log_write` panics if and only if** the operations to be committed together have already
logged as many blocks as the log has room for. -/
theorem logTest_panics_iff (hr : Reachable mkfsArea s) {p b : ℕ} (hp : s.pc p = .inOp) :
    s.step mkfsArea (.logWrite p b) = .error .tooBig ↔ logsize - 1 ≤ s.written.card := by
  have hi := reachable_inv hr
  have hlen : s.lh.length = s.written.card := by
    rw [← hi.logged, List.toFinset_card_of_nodup hi.nodup]
  have hpos := (hi.of_inOp (p := p) (by rw [hp]; trivial)).1
  have hsize : ∀ n : ℕ, n ≥ logsize ∨ n ≥ mkfsArea.size - 1 ↔ logsize - 1 ≤ n := fun n => by
    simp only [mkfsArea, logsize, maxopblocks]
    omega
  rw [State.step, if_pos hp, State.logTest, hlen]
  simp only [hsize]
  split_ifs with h hout
  · exact iff_of_true rfl h
  · exact iff_of_false (fun h => by cases h) h
  · exact iff_of_false (fun h => by cases h) h

theorem step_eq_tooBig {act : Act} (h : s.step a act = .error .tooBig) :
    ∃ p b, act = .logWrite p b ∧ s.pc p = .inOp := by
  cases act with
  | logWrite p b =>
    rw [State.step] at h
    split_ifs at h with hp
    · exact ⟨p, b, rfl, hp⟩
    · cases h
  | endOp p =>
    rw [State.step, State.endOp] at h
    split_ifs at h <;> cases h
  | beginOp p | wake p =>
    rw [State.step] at h
    split_ifs at h
    cases h
  | go p =>
    simp only [State.step] at h
    cases hp : s.pc p with
    | writeLog tail | install tail =>
      simp only [hp] at h
      split_ifs at h
    | begin | logging b | erase | finish | idle | asleep | inOp => simp [hp] at h

/-- **When `log_write` never panics.** Each time it is called, the operations of its group have
logged fewer than `LOGSIZE - 1` blocks so far. -/
theorem run_never_tooBig_iff (acts : List Act) :
    init.run mkfsArea acts ≠ .error .tooBig ↔
      ∀ acts₁ p b acts₂ s, acts = acts₁ ++ .logWrite p b :: acts₂ →
        init.run mkfsArea acts₁ = .ok s → s.pc p = .inOp → s.written.card < logsize - 1 := by
  refine ⟨fun h acts₁ p b acts₂ s hacts hrun hp => ?_, fun h hrun => ?_⟩
  · by_contra hfull
    refine h (Runs.run_eq_error_iff.mpr ⟨acts₁, .logWrite p b, acts₂, s, hacts, hrun, ?_⟩)
    exact (logTest_panics_iff ⟨_, hrun⟩ hp).mpr (not_lt.mp hfull)
  · obtain ⟨acts₁, act, acts₂, s, hacts, hrun₁, hstep⟩ := Runs.run_eq_error_iff.mp hrun
    obtain ⟨p, b, rfl, hp⟩ := step_eq_tooBig hstep
    have hfull := (logTest_panics_iff ⟨_, hrun₁⟩ hp).mp hstep
    exact absurd (h acts₁ p b acts₂ s hacts hrun₁ hp) (not_lt.mpr hfull)

/-- Three operations are admitted; two log ten blocks each, and the third one nine. -/
def threeOps : List Act :=
  [.beginOp 0, .go 0, .beginOp 1, .go 1, .beginOp 2, .go 2] ++
    (List.range (logsize - 1)).flatMap fun i => [.logWrite (i / 10) (100 + i), .go (i / 10)]

/-- **Three full operations do not fit.** Each has logged at most ten blocks, and the third one is
not over its ten when it logs one more. -/
theorem three_full_operations_panic :
    ∃ s, init.run mkfsArea threeOps = .ok s ∧
      (s.mine 0).card = maxopblocks ∧ (s.mine 1).card = maxopblocks ∧
      (insert 129 (s.mine 2)).card = maxopblocks ∧
      s.step mkfsArea (.logWrite 2 129) = .error .tooBig := by
  obtain ⟨s, hs, htest⟩ := Runs.exists_of_endsIn
    (fun s : State => decide (s.pc 2 = .inOp) && decide ((s.mine 0).card = maxopblocks) &&
      decide ((s.mine 1).card = maxopblocks) &&
      decide ((insert 129 (s.mine 2)).card = maxopblocks) &&
      decide (s.lh.length = logsize - 1)) (init.run mkfsArea threeOps) (by decide +kernel)
  simp only [Bool.and_eq_true, decide_eq_true_eq] at htest
  obtain ⟨⟨⟨⟨hp, h0⟩, h1⟩, h2⟩, hlen⟩ := htest
  refine ⟨s, hs, h0, h1, h2, ?_⟩
  rw [State.step, if_pos hp, State.logTest, hlen]
  rfl

end Xv6.Log.Group
