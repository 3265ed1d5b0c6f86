import Xv6.Log.Invariant

/-!
# Crash atomicity of the log

Every step of the system keeps the invariant of `Log.Invariant`, and the invariant says what a
restart finds.

A group is what is logged between two commits. The history lists the groups in the order in which
their commits began; those that a restart undid are taken off the list when the recovery after it
ends, so the list is always that of the groups the disk is to hold. `recover_atomic` is about the
moment when `recover_from_log` ends, in a run with any number of operations, commits and restarts
before it, restarts during earlier recoveries included.

## Main results

* `Inv.step`, `reachable_inv` — the invariant on all runs
* `recover_atomic` — crash atomicity
-/

namespace Xv6.Log

open ByteMemory RedoLog Function List
open Except (ok)

variable {a : Area} {init : ℕ → Block} {s s' : Sys} {h : Hist} {V : ℕ → Block} {p : ℕ} {w : World}
  {b : ℕ}

/-! ### Histories -/

theorem applyEvents_append (D : ℕ → Block) (g : List Event) (e : Event) :
    applyEvents D (g ++ [e]) = Event.apply (applyEvents D g) e := by
  simp [applyEvents]

theorem applyGroups_append (D : ℕ → Block) (gs : List (List Event)) (g : List Event) :
    applyGroups D (gs ++ [g]) = applyEvents (applyGroups D gs) g := by
  simp [applyGroups]

theorem openAfter_append (g : List Event) (e : Event) :
    openAfter (g ++ [e]) = (openAfter g).bind fun A => e.opens A := by
  simp [openAfter]

variable {g : List Event} {proc : ℕ → Pc} {n : ℕ}

theorem Ops.enter (ho : Ops g n proc) (hp : proc p = .idle) :
    Ops (g ++ [.beginOp p]) (n + 1) (update proc p .inOp) := by
  obtain ⟨A, hA, hcard, hproc⟩ := ho
  have hpA : p ∉ A := fun hin => (hproc p).mp hin hp
  refine ⟨insert p A, ?_, ?_, fun q => ?_⟩
  · rw [openAfter_append, hA]
    exact if_neg hpA
  · rw [Finset.card_insert_of_notMem hpA, hcard]
  · by_cases hq : q = p
    · simp [hq]
    · rw [Finset.mem_insert, update_of_ne hq, or_iff_right hq]
      exact hproc q

theorem Ops.stay (ho : Ops g n proc) {pc : Pc}
    (hp : proc p ≠ .idle) (hpc : pc ≠ .idle) : Ops g n (update proc p pc) := by
  obtain ⟨A, hA, hcard, hproc⟩ := ho
  refine ⟨A, hA, hcard, fun q => ?_⟩
  by_cases hq : q = p
  · rw [hq, update_self]
    exact iff_of_true ((hproc p).mpr hp) hpc
  · rw [update_of_ne hq]
    exact hproc q

theorem Ops.write (ho : Ops g n proc)
    (hp : proc p ≠ .idle) (b : ℕ) (d : Block) : Ops (g ++ [.write p b d]) n proc := by
  obtain ⟨A, hA, hcard, hproc⟩ := ho
  refine ⟨A, ?_, hcard, hproc⟩
  rw [openAfter_append, hA]
  exact if_pos ((hproc p).mpr hp)

theorem Ops.leave (ho : Ops g n proc) (hp : proc p ≠ .idle) :
    Ops (g ++ [.endOp p]) (n - 1) (update proc p .idle) := by
  obtain ⟨A, hA, hcard, hproc⟩ := ho
  have hpA : p ∈ A := (hproc p).mpr hp
  refine ⟨A.erase p, ?_, ?_, fun q => ?_⟩
  · rw [openAfter_append, hA]
    exact if_pos hpA
  · rw [Finset.card_erase_of_mem hpA, hcard]
  · by_cases hq : q = p
    · simp [hq]
    · rw [Finset.mem_erase, update_of_ne hq, and_iff_right hq]
      exact hproc q

theorem Ops.whole (ho : Ops g 0 proc) : Whole g ∧ Ops [] 0 proc := by
  obtain ⟨A, hA, hcard, hproc⟩ := ho
  obtain rfl := Finset.card_eq_zero.mp hcard
  exact ⟨hA, ∅, rfl, rfl, hproc⟩

/-! ### Steps of processes -/

theorem Inv.at_phase (hi : Inv a init s h V) {ph : Phase} (hph : s.phase = ph) :
    Coherent s.io V (pinned ph s.lh) (modifying s.use) ∧ Stage a init s.lh s.committing h V ph :=
  hph ▸ ⟨hi.coherent, hi.stage⟩

theorem pinned_running_nil : pinned .running [] = ∅ :=
  Set.eq_empty_of_forall_notMem fun _ hb => absurd hb not_mem_nil

variable {lh : List ℕ}

theorem Stage.note {committing : Bool} {e : Event} (hst : Stage a init lh committing h V .running)
    (he : ∀ D, e.apply D = D) :
    Stage a init lh committing { h with current := h.current ++ [e] } V .running := by
  refine ⟨hst.committing, hst.clear, hst.nodup, hst.home, hst.fits, fun b hb => ?_, hst.durable⟩
  rw [hst.view b hb]
  show _ = applyEvents _ (_ ++ [_]) b
  rw [applyEvents_append, he]
  rfl

theorem Inv.beginOp (hi : Inv a init s h V) (hs : beginOp s p = .ok s') :
    Inv a init s' (note s s' h (.beginOp p)) V := by
  unfold Log.beginOp at hs
  split_ifs at hs with hcond hcom hfull
  obtain rfl := ok.inj hs
  have hph := hi.running_of_booted hcond.1 (Bool.eq_false_iff.mpr hcom)
  obtain ⟨-, hst⟩ := hi.at_phase hph
  refine ⟨hi.coherent, hi.held, hi.recoverable, hi.whole, hi.returned_le, hi.durable_le,
    hi.ops.enter hcond.2, ?_⟩
  show Stage a init s.lh s.committing _ V s.phase
  rw [hph]
  exact Stage.note hst fun _ => rfl

variable {i : Slot}

theorem Inv.logTest (hi : Inv a init s h V) (hs : logTest a s p i = .ok s') :
    Inv a init s' h V := by
  unfold Log.logTest at hs
  split_ifs at hs with hcond hbig hout
  obtain rfl := ok.inj hs
  have hne : s.proc p ≠ .idle := by simp [hcond.1]
  exact ⟨hi.coherent, hi.held, hi.recoverable, hi.whole, hi.returned_le, hi.durable_le,
    hi.ops.stay hne (fun hc => by cases hc), hi.stage⟩

variable {io : Bio}

theorem Inv.handOver {use : Slot → Use} (hi : Inv a init s h V)
    (hc : Coherent io V (pinned s.phase s.lh) (modifying s.use)) (hdisk : io.disk = s.io.disk)
    (hmod : modifying use = modifying s.use) (hheld : ∀ i, use i ≠ .free → (io.buf i).busy = true) :
    Inv a init { s with io := io, use := use } h V := by
  refine ⟨?_, hheld, ?_, hi.whole, hi.returned_le, hi.durable_le, hi.ops, hi.stage⟩
  · show Coherent io V (pinned s.phase s.lh) (modifying use)
    rw [hmod]
    exact hc
  · show Recoverable a.layout io.disk _
    rw [hdisk]
    exact hi.recoverable

theorem modifying_update {use : Slot → Use} {u : Use} (hi : i ∉ modifying use)
    (hu : ∀ p, u ≠ .modified p) : modifying (update use i u) = modifying use := by
  ext j
  by_cases hj : j = i
  · subst hj
    simp only [modifying, Set.mem_ofPred_eq, update_self]
    exact iff_of_false (fun ⟨p, hp⟩ => hu p hp) hi
  · simp only [modifying, Set.mem_ofPred_eq, update_of_ne hj]

theorem Inv.bread (hi : Inv a init s h V) (hs : step a s (.bread p n) = .ok s') :
    Inv a init s' h V := by
  simp only [step] at hs
  split_ifs at hs with hcond
  cases hb : Xv6.bread s.io n with
  | error e => simp [hb] at hs
  | ok r =>
    obtain ⟨i, io⟩ := r
    simp only [hb] at hs
    obtain rfl := ok.inj hs
    have ho := hi.coherent.bread hb
    refine hi.handOver ho.coherent ho.disk
      (modifying_update (ho.notMem hi.coherent) fun q hq => by cases hq) fun j hj => ?_
    by_cases hji : j = i
    · rw [hji]
      exact ho.busy
    · rw [update_of_ne hji] at hj
      rw [ho.other j hji]
      exact hi.held j hj

theorem Inv.brelse (hi : Inv a init s h V) (hs : step a s (.brelse p i) = .ok s') :
    Inv a init s' h V := by
  simp only [step] at hs
  split_ifs at hs with hcond
  cases hb : Xv6.brelse s.io i with
  | error e => simp [hb] at hs
  | ok io =>
    simp only [hb] at hs
    obtain rfl := ok.inj hs
    have hclean : i ∉ modifying s.use := fun ⟨q, hq⟩ => by cases hcond.1.symm.trans hq
    obtain ⟨hc, hdisk, hbuf⟩ := hi.coherent.brelse hclean hb
    refine hi.handOver hc hdisk (modifying_update hclean fun q hq => by cases hq) fun j hj => ?_
    by_cases hji : j = i
    · rw [hji, update_self] at hj
      exact absurd rfl hj
    · rw [update_of_ne hji] at hj
      rw [hbuf j hji]
      exact hi.held j hj

theorem homeBlock_some (hb : homeBlock a s i = some b) :
    (s.io.buf i).blockno = some b ∧ ¬ a.Contains b := by
  unfold homeBlock at hb
  cases hno : (s.io.buf i).blockno with
  | none => simp [hno] at hb
  | some c =>
    simp only [hno] at hb
    split_ifs at hb with hc
    obtain rfl := Option.some.inj hb
    exact ⟨rfl, hc⟩

theorem Inv.modify {d : Block} (hi : Inv a init s h V)
    (hs : step a s (.modify p i d) = .ok s') : Inv a init s' h V := by
  simp only [step] at hs
  split_ifs at hs with hcond
  obtain rfl := ok.inj hs
  obtain ⟨hproc, huse, hblock⟩ := hcond
  obtain ⟨b, hb⟩ := Option.isSome_iff_exists.mp hblock
  have hbusy : (s.io.buf i).busy = true := by
    refine hi.held i fun hfree => ?_
    rw [hfree] at huse
    rcases huse with hu | hu <;> cases hu
  have hmod : modifying (update s.use i (.modified p)) = insert i (modifying s.use) := by
    ext j
    by_cases hj : j = i
    · subst hj
      simp [modifying]
    · simp [modifying, hj]
  refine ⟨?_, fun j hj => ?_, hi.recoverable, hi.whole, hi.returned_le, hi.durable_le, hi.ops,
    hi.stage⟩
  · show Coherent _ V (pinned s.phase s.lh) (modifying (update s.use i (.modified p)))
    rw [hmod]
    exact hi.coherent.putData (homeBlock_some hb).1 hbusy d
  · show ((putData s.io i d).buf j).busy = true
    by_cases hji : j = i
    · subst hji
      rw [putData, Bio.set_buf_self]
      exact hbusy
    · rw [putData, Bio.set_buf_of_ne _ _ hji]
      have hj' : update s.use i (.modified p) j ≠ .free := hj
      rw [update_of_ne hji] at hj'
      exact hi.held j hj'

/-- The test of `log_write` still holds when it has the lock, or the log is as large as `mkfs`
makes it. -/
def Fits (a : Area) (s : Sys) : Act → Prop
  | .logWrite p => logsize ≤ a.size ∨ ∀ i b, s.proc p = .logging i → homeBlock a s i = some b →
      b ∈ s.lh ∨ (s.lh.length < logsize ∧ s.lh.length < a.size - 1)
  | _ => True

theorem length_absorb_lt (hfit : b ∈ lh ∨ (lh.length < logsize ∧ lh.length < a.size - 1))
    (hlt : lh.length < a.size) : (absorb lh b).length < a.size := by
  unfold absorb
  split_ifs with hb
  · exact hlt
  · rw [length_append, length_singleton]
    have := (hfit.resolve_left hb).2
    omega

theorem Inv.logWrite (hi : Inv a init s h V) (hfit : Fits a s (.logWrite p))
    (hs : logWrite a s p = .ok s') : ∃ V', Inv a init s' (note s s' h (.logWrite p)) V' := by
  unfold Log.logWrite at hs
  cases hproc : s.proc p with
  | idle => simp [hproc] at hs
  | inOp => simp [hproc] at hs
  | logging i =>
    simp only [hproc] at hs
    split_ifs at hs with huse
    cases hblock : homeBlock a s i with
    | none => simp [hblock] at hs
    | some b =>
      simp only [hblock] at hs
      obtain rfl := ok.inj hs
      obtain ⟨hno, hout⟩ := homeBlock_some hblock
      have hne : s.proc p ≠ .idle := by simp [hproc]
      have hph := hi.running hne
      obtain ⟨hcoh, hst⟩ := hi.at_phase hph
      have hheld : s.use i ≠ .free := fun hfree => by
        rw [hfree] at huse
        rcases huse with hu | hu <;> cases hu
      have hmod : modifying (update s.use i (.clean p)) = modifying s.use \ {i} := by
        ext j
        by_cases hj : j = i
        · subst hj
          simp [modifying]
        · simp [modifying, hj]
      have hpin : pinned .running (absorb s.lh b) = insert b (pinned .running s.lh) := by
        ext c
        exact mem_absorb
      have hnote : note s { s with
          io := markDirty s.io i, lh := absorb s.lh b
          proc := update s.proc p .inOp, use := update s.use i (.clean p) } h
            (.logWrite p) = { h with current := h.current ++ [.write p b (s.io.buf i).data] } := by
        simp only [note, hproc, hno]
      rw [hnote]
      refine ⟨update V b (s.io.buf i).data, ?_, fun j hj => ?_, hi.recoverable, hi.whole,
        hi.returned_le, hi.durable_le, (hi.ops.write hne _ _).stay hne (fun hc => by cases hc), ?_⟩
      · show Coherent (markDirty s.io i) _ (pinned s.phase (absorb s.lh b))
          (modifying (update s.use i (.clean p)))
        rw [hph, hpin, hmod]
        exact hcoh.markDirty hno
      · show ((markDirty s.io i).buf j).busy = true
        have hj' : update s.use i (.clean p) j ≠ .free := hj
        by_cases hji : j = i
        · subst hji
          rw [markDirty, Bio.set_buf_self]
          exact hi.held j hheld
        · rw [update_of_ne hji] at hj'
          rw [markDirty, Bio.set_buf_of_ne _ _ hji]
          exact hi.held j hj'
      · show Stage a init (absorb s.lh b) s.committing _ _ s.phase
        rw [hph]
        refine ⟨hst.committing, ?_, nodup_absorb hst.nodup b, fun c hc => ?_, ?_, fun c hc => ?_,
          hst.durable⟩
        · have hstart : a.start ≠ b := (a.layout.ne_header hout).symm
          rw [update_of_ne hstart]
          exact hst.clear
        · rcases mem_absorb.mp hc with rfl | hc
          · exact hout
          · exact hst.home c hc
        · rcases hfit with hsize | hfit
          · exact .inr hsize
          · exact hst.fits.imp (length_absorb_lt (hfit i b hproc hblock)) id
        · show _ = applyEvents _ (_ ++ [_]) c
          rw [applyEvents_append]
          show _ = update (h.latest init) b (s.io.buf i).data c
          by_cases hcb : c = b
          · rw [hcb, update_self, update_self]
          · rw [update_of_ne hcb, update_of_ne hcb]
            exact hst.view c hc

theorem Hist.close (init : ℕ → Block) (h : Hist) (hle : h.durable ≤ h.groups.length) (p : ℕ) :
    let h' : Hist := { h with current := [], groups := h.groups ++ [h.current ++ [.endOp p]] }
    h'.committed init = h.committed init ∧ h'.latest init = h.latest init := by
  constructor
  · show applyGroups init ((h.groups ++ _).take h.durable) = _
    rw [take_append_of_le_length hle]
    rfl
  · show applyGroups init (h.groups ++ _) = _
    rw [applyGroups_append, applyEvents_append]
    rfl

theorem endOp_cases (hs : endOp s p = .ok s') :
    s.proc p = .inOp ∧
      ((s.outstanding - 1 = 0 ∧ s' = { s with
          outstanding := 0, committing := true, proc := update s.proc p .idle
          phase := if s.lh = [] then .done else .writeLog 0 }) ∨
        (s.outstanding - 1 ≠ 0 ∧ s' = { s with
          outstanding := s.outstanding - 1, proc := update s.proc p .idle })) := by
  unfold endOp at hs
  by_cases hcond : s.proc p = .inOp ∧ ∀ i, ¬ (s.use i).By p
  · rw [if_pos hcond] at hs
    by_cases hcom : s.committing = true
    · rw [if_pos hcom] at hs
      cases hs
    · rw [if_neg hcom] at hs
      by_cases hlast : s.outstanding - 1 = 0
      · rw [if_pos hlast] at hs
        exact ⟨hcond.1, .inl ⟨hlast, (ok.inj hs).symm⟩⟩
      · rw [if_neg hlast] at hs
        exact ⟨hcond.1, .inr ⟨hlast, (ok.inj hs).symm⟩⟩
  · rw [if_neg hcond] at hs
    cases hs

theorem Inv.endOp (hi : Inv a init s h V) (hs : endOp s p = .ok s') :
    Inv a init s' (note s s' h (.endOp p)) V := by
  obtain ⟨hproc, hcases⟩ := endOp_cases hs
  have hne : s.proc p ≠ .idle := by simp [hproc]
  have hph := hi.running hne
  obtain ⟨hcoh, hst⟩ := hi.at_phase hph
  have hops := hi.ops.leave hne
  obtain ⟨hlast, rfl⟩ | ⟨hlast, rfl⟩ := hcases
  · -- the last operation: the group is closed and `commit` begins
    rw [hlast] at hops
    obtain ⟨hwhole, hops⟩ := hops.whole
    obtain ⟨hcommitted, hlatest⟩ := Hist.close init h hi.durable_le p
    have hnote : note s { s with
        outstanding := 0, committing := true, proc := update s.proc p .idle
        phase := if s.lh = [] then .done else .writeLog 0 } h (.endOp p) =
          { h with current := [], groups := h.groups ++ [h.current ++ [.endOp p]] } := by
      simp only [note, if_true]
    rw [hnote]
    refine ⟨?_, hi.held, hcommitted ▸ hi.recoverable, fun g hg => ?_, hi.returned_le, ?_, hops, ?_⟩
    · show Coherent s.io V (pinned (if s.lh = [] then .done else .writeLog 0) s.lh) _
      split_ifs with hnil
      · rw [hnil] at hcoh ⊢
        rwa [pinned_running_nil] at hcoh
      · exact hcoh
    · rcases mem_append.mp hg with hg | hg
      · exact hi.whole g hg
      · rw [mem_singleton.mp hg]
        exact hwhole
    · show h.durable ≤ (h.groups ++ _).length
      rw [length_append]
      exact hi.durable_le.trans (Nat.le_add_right _ _)
    · show Stage a init s.lh true _ V (if s.lh = [] then .done else .writeLog 0)
      split_ifs with hnil
      · exact ⟨rfl, hnil, hst.clear, fun b hb => by rw [hlatest]; exact hst.view b hb, rfl⟩
      · exact ⟨rfl, hst.clear, hnil, hst.nodup, hst.home, hst.fits.imp id fun hsz => ⟨rfl, hsz⟩,
          fun b hb => by rw [hlatest]; exact hst.view b hb, rfl, Nat.zero_le _,
          fun i _ hlt => absurd hlt (Nat.not_lt_zero i)⟩
  · have hnote : note s { s with
        outstanding := s.outstanding - 1, proc := update s.proc p .idle } h (.endOp p) =
          { h with current := h.current ++ [.endOp p] } := by
      simp only [note, if_neg hlast]
    rw [hnote]
    refine ⟨hi.coherent, hi.held, hi.recoverable, hi.whole, hi.returned_le, hi.durable_le, hops, ?_⟩
    show Stage a init s.lh s.committing _ V s.phase
    rw [hph]
    exact Stage.note hst fun _ => rfl

/-! ### Steps of `commit` -/

theorem Area.contains_start (a : Area) : a.Contains a.start :=
  ⟨le_rfl, Nat.lt_add_of_pos_right a.size_pos⟩

variable {t : ℕ}

theorem Area.contains_slot (ht : t + 1 < a.size) : a.Contains (a.start + t + 1) :=
  ⟨by omega, by omega⟩

theorem Inv.held_of (hi : Inv a init s h V) (hu : Undisturbed s.io io) :
    ∀ i, s.use i ≠ .free → (io.buf i).busy = true := by
  intro i hfree
  have hbusy := hi.held i hfree
  rw [hu i hbusy]
  exact hbusy

theorem update_home {c : ℕ} (hc : a.Contains c) (v : Block) (hb : ¬ a.Contains b) :
    update V c v b = V b := by
  have hbc : b ≠ c := fun hbc => hb (hbc ▸ hc)
  rw [update_of_ne hbc]

theorem Inv.writeLogBody (hi : Inv a init s h V)
    (hph : s.phase = .writeLog t) (ht : t < s.lh.length)
    (hw : writeLogBody a s.io s.lh t = .ok io) :
    ∃ V', Inv a init { s with io := io, phase := .writeLog (t + 1) } h V' := by
  obtain ⟨hcoh, hst⟩ := hi.at_phase hph
  have hslot : a.Contains (a.start + t + 1) := by
    refine Area.contains_slot ?_
    rcases hst.fits with hlt | ⟨rfl, hsize⟩
    · omega
    · exact lt_of_lt_of_le (by decide) hsize
  have hhome : ∀ c, a.Contains c → c ∉ pinned (.writeLog t) s.lh := fun c hc hin =>
    hst.home c hin hc
  obtain ⟨⟨hc, hdisk, hu⟩, hlen⟩ := writeLogBody_spec hcoh (hhome _ hslot) ht hw
  have hfits : s.lh.length < a.size := by
    rcases hst.fits with hlt | ⟨-, hsize⟩
    · exact hlt
    · exact (hlen hst.nodup fun b hb => hb).trans_le hsize
  have hcap : s.lh.length ≤ a.layout.cap := Nat.le_sub_one_of_lt hfits
  have hclear : a.layout.entries (s.io.disk a.layout.header) = [] := by
    show getHead (s.io.disk a.start) = []
    rw [hcoh.disk _ (hhome _ a.contains_start)]
    exact hst.clear
  refine ⟨_, hc, hi.held_of hu, ?_, hi.whole, hi.returned_le, hi.durable_le, hi.ops, ?_⟩
  · show Recoverable a.layout io.disk _
    rw [hdisk]
    exact hi.recoverable.write_slot hclear (ht.trans_le hcap) _
  · refine ⟨hst.committing, ?_, hst.ne_nil, hst.nodup, hst.home, .inl hfits, fun b hb => ?_,
      hst.current, ht, ?_⟩
    · have hne : a.start ≠ a.start + t + 1 := by omega
      rw [update_of_ne hne]
      exact hst.clear
    · rw [update_home hslot _ hb]
      exact hst.view b hb
    · exact (hst.slots.write_slot hcap ht).congr (fun _ _ => rfl) fun b hb =>
        update_home hslot _ (hst.home b hb)

/-- The write of the header commits the group. -/
theorem Inv.writeHead (hi : Inv a init s h V) (hph : s.phase = .writeLog t)
    (ht : ¬ t < s.lh.length) (hw : writeHead a s.io s.lh = .ok io) :
    ∃ V', Inv a init { s with io := io, phase := .install 0 }
      { h with durable := h.groups.length } V' := by
  obtain ⟨hcoh, hst⟩ := hi.at_phase hph
  obtain rfl : t = s.lh.length := le_antisymm hst.le_length (not_lt.mp ht)
  have hfits : s.lh.length < a.size :=
    hst.fits.resolve_right fun hzero => hst.ne_nil (length_eq_zero_iff.mp hzero.1)
  have hhome : ∀ c, a.Contains c → c ∉ pinned (.writeLog s.lh.length) s.lh := fun c hc hin =>
    hst.home c hin hc
  have hhead : getHead (putHead (V a.start) s.lh) = s.lh := by
    refine getHead_putHead _ ?_ fun b hb => ?_
    · exact (hcoh.length_le_fssize hst.nodup fun b hb => hb).trans_lt (by decide)
    · exact (hcoh.lt_of_mem hb).trans (by decide)
  obtain ⟨hc, hdisk, hu⟩ := writeHead_spec hcoh (hhome _ a.contains_start) hw
  -- with the header written, all groups are committed
  have hcommitted : ({ h with durable := h.groups.length } : Hist).committed init =
      h.latest init := by
    show applyGroups init (h.groups.take h.groups.length) = applyEvents _ h.current
    rw [take_length, hst.current]
    rfl
  have hcap : s.lh.length ≤ a.layout.cap := Nat.le_sub_one_of_lt hfits
  refine ⟨_, hc, hi.held_of hu, ?_, hi.whole, hi.returned_le.trans hi.durable_le, le_rfl,
    hi.ops, ?_⟩
  · show Recoverable a.layout io.disk _
    rw [hdisk, hcommitted]
    refine Recoverable.commit ⟨hst.nodup, hst.home, hcap⟩ ?_ (fun b hb hn => ?_) hhead
    · refine hst.slots.congr (fun i hlt => ?_) fun b hb => (hst.view b (hst.home b hb)).symm
      exact hcoh.disk _ (hhome _ (Area.contains_slot (by omega)))
    · rw [hcoh.disk b hn]
      exact hst.view b hb
  · refine ⟨hst.committing, ?_, hst.home, fun b hb => ?_, hst.current, Nat.zero_le _, rfl⟩
    · rw [update_self]
      exact hhead
    · rw [update_home a.contains_start _ hb]
      exact hst.view b hb

theorem pinned_install (hnd : lh.Nodup) (ht : t < lh.length) :
    pinned (.install t) lh \ {lh[t]} = pinned (.install (t + 1)) lh := by
  have hdrop : lh.drop t = lh[t] :: lh.drop (t + 1) := drop_eq_getElem_cons ht
  have hnotin : lh[t] ∉ lh.drop (t + 1) := by
    have hnd' := hnd.sublist (drop_sublist t lh)
    rw [hdrop] at hnd'
    exact (nodup_cons.mp hnd').1
  ext b
  show b ∈ lh.drop t ∧ b ≠ lh[t] ↔ b ∈ lh.drop (t + 1)
  rw [hdrop, mem_cons]
  constructor
  · rintro ⟨hb | hb, hne⟩
    · exact absurd hb hne
    · exact hb
  · intro hb
    exact ⟨.inr hb, fun hbt => hnotin (hbt ▸ hb)⟩

theorem Installing.latest_eq {committing : Bool}
    (hst : Installing a init lh committing h V t) : h.latest init = h.committed init := by
  show applyEvents _ h.current = applyGroups init (h.groups.take h.durable)
  rw [hst.durable, take_length, hst.current]
  rfl

section

variable (hi : Inv a init s h V)

include hi

theorem Inv.installing (hph : s.phase = .install t) :
    (∀ c, a.Contains c → c ∉ pinned (.install t) s.lh) ∧
      a.layout.entries (s.io.disk a.layout.header) = s.lh := by
  obtain ⟨hcoh, hst⟩ := hi.at_phase hph
  have hhome : ∀ c, a.Contains c → c ∉ pinned (.install t) s.lh := fun c hc hin =>
    hst.home c (mem_of_mem_drop hin) hc
  refine ⟨hhome, ?_⟩
  show getHead (s.io.disk a.start) = s.lh
  rw [hcoh.disk _ (hhome _ a.contains_start)]
  exact hst.header

theorem Inv.install
    (hentries : a.layout.entries (s.io.disk a.layout.header) = s.lh) (ht : t < s.lh.length)
    (hlog : s.io.disk (a.start + t + 1) = V (a.start + t + 1))
    (hw : installBody a s.io s.lh t = .ok io) :
    Coherent io (update V s.lh[t] (h.committed init s.lh[t])) (pinned s.phase s.lh \ {s.lh[t]})
        (modifying s.use) ∧ Recoverable a.layout io.disk (h.committed init) ∧
        Undisturbed s.io io := by
  have hslots := hi.recoverable.slots
  have hinst := hi.recoverable.install (i := t)
  simp only [hentries] at hslots hinst
  obtain ⟨hc, hdisk, hu⟩ := installBody_spec hi.coherent ht hw
  rw [← hlog, show s.io.disk (a.start + t + 1) = _ from hslots t ht ht] at hc hdisk
  exact ⟨hc, hdisk ▸ hinst ht, hu⟩

/-- What `install_trans` copies is what the block holds already, so readers see no change. -/
theorem Inv.installBody (hph : s.phase = .install t)
    (ht : t < s.lh.length) (hw : installBody a s.io s.lh t = .ok io) :
    Inv a init { s with io := io, phase := .install (t + 1) } h V := by
  obtain ⟨hhome, hentries⟩ := hi.installing hph
  obtain ⟨hcoh, hst⟩ := hi.at_phase hph
  have hlog := hentries ▸ hi.recoverable.loggable
  have hslot : a.Contains (a.start + t + 1) := Area.contains_slot (by
    have : s.lh.length ≤ a.size - 1 := hlog.length_le
    omega)
  have hsame : V s.lh[t] = h.committed init s.lh[t] := by
    rw [← hst.latest_eq]
    exact hst.view _ (hst.home _ (getElem_mem ht))
  obtain ⟨hc, hrec, hu⟩ := hi.install hentries ht (hcoh.disk _ (hhome _ hslot)) hw
  rw [← hsame, update_eq_self, hph, pinned_install hlog.nodup ht] at hc
  exact ⟨hc, hi.held_of hu, hrec, hi.whole, hi.returned_le, hi.durable_le, hi.ops,
    hst.committing, hst.header, hst.home, hst.view, hst.current, ht, hst.durable⟩

theorem Inv.clearHead (hph : s.phase = .install t)
    (ht : ¬ t < s.lh.length) (hw : Log.writeHead a s.io [] = .ok io) :
    ∃ V', Inv a init { s with io := io, lh := [], phase := .done }
      { h with returned := h.groups.length } V' := by
  obtain ⟨hhome, hentries⟩ := hi.installing hph
  obtain ⟨hcoh, hst⟩ := hi.at_phase hph
  obtain rfl : t = s.lh.length := le_antisymm hst.le_length (not_lt.mp ht)
  have hempty : pinned (.install s.lh.length) s.lh = ∅ := by
    refine Set.eq_empty_of_forall_notMem fun b hb => ?_
    have hb' : b ∈ s.lh.drop s.lh.length := hb
    rw [drop_length] at hb'
    exact absurd hb' not_mem_nil
  obtain ⟨hc, hdisk, hu⟩ := writeHead_spec hcoh (hhome _ a.contains_start) hw
  rw [hempty] at hc hcoh
  refine ⟨_, hc, hi.held_of hu, ?_, hi.whole, hst.durable.ge, hi.durable_le, hi.ops, ?_⟩
  · show Recoverable a.layout io.disk _
    rw [hdisk]
    refine hi.recoverable.clear ?_ (getHead_putHead_nil (V a.start))
    rw [hentries]
    intro i hlt _
    rw [hcoh.disk _ (Set.notMem_empty _), hst.view _ (hst.home _ (getElem_mem hlt)), hst.latest_eq]
  · refine ⟨hst.committing, rfl, ?_, fun b hb => ?_, hst.current⟩
    · rw [update_self]
      exact getHead_putHead_nil _
    · rw [update_home a.contains_start _ hb]
      exact hst.view b hb

theorem Inv.done (hph : s.phase = .done) :
    Inv a init { s with committing := false, phase := .running }
      { h with durable := h.groups.length, returned := h.groups.length } V := by
  obtain ⟨hcoh, hst⟩ := hi.at_phase hph
  refine ⟨?_, hi.held, ?_, hi.whole, le_rfl, le_rfl, hi.ops, ?_⟩
  · show Coherent s.io V (pinned .running s.lh) _
    rw [hst.lh, pinned_running_nil]
    exact hcoh
  · refine Recoverable.of_clear ?_ fun b hb => ?_
    · show getHead (s.io.disk a.start) = []
      rw [hcoh.disk _ (Set.notMem_empty _)]
      exact hst.clear
    · rw [hcoh.disk _ (Set.notMem_empty _), hst.view b hb]
      show applyEvents _ h.current b = applyGroups init (h.groups.take h.groups.length) b
      rw [take_length, hst.current]
      rfl
  · exact ⟨rfl, hst.clear, hst.lh ▸ nodup_nil, fun b hb => by
      rw [hst.lh] at hb
      exact absurd hb not_mem_nil, .inl (by rw [hst.lh]; exact a.size_pos), hst.view, rfl⟩

theorem Inv.commit (hs : commit a s = .ok s') : ∃ V', Inv a init s' (note s s' h .commit) V' := by
  unfold Log.commit at hs
  cases hph : s.phase with
  | writeLog t =>
    simp only [hph] at hs
    by_cases ht : t < s.lh.length
    · rw [if_pos ht] at hs
      rcases hw : Log.writeLogBody a s.io s.lh t with e | io <;> rw [hw] at hs <;> cases hs
      simp only [note, hph]
      exact hi.writeLogBody hph ht hw
    · rw [if_neg ht] at hs
      rcases hw : Log.writeHead a s.io s.lh with e | io <;> rw [hw] at hs <;> cases hs
      simp only [note, hph]
      exact hi.writeHead hph ht hw
  | install t =>
    simp only [hph] at hs
    by_cases ht : t < s.lh.length
    · rw [if_pos ht] at hs
      rcases hw : Log.installBody a s.io s.lh t with e | io <;> rw [hw] at hs <;> cases hs
      simp only [note, hph]
      exact ⟨V, hi.installBody hph ht hw⟩
    · rw [if_neg ht] at hs
      rcases hw : Log.writeHead a s.io [] with e | io <;> rw [hw] at hs <;> cases hs
      simp only [note, hph]
      exact hi.clearHead hph ht hw
  | done =>
    simp only [hph] at hs
    obtain rfl := ok.inj hs
    simp only [note, hph]
    exact ⟨V, hi.done hph⟩
  | running => simp [hph] at hs
  | readHead => simp [hph] at hs
  | reinstall t => simp [hph] at hs

/-! ### Recovery -/

theorem Inv.readHead (hph : s.phase = .readHead) (hr : readHead a s.io = .ok (lh, io)) :
    Inv a init { s with io := io, lh := lh, phase := .reinstall 0 } h V := by
  obtain ⟨hcoh, hst⟩ := hi.at_phase hph
  obtain ⟨hc, hdisk, hu, rfl⟩ := readHead_spec hcoh hr
  refine ⟨hc, hi.held_of hu, ?_, hi.whole, hi.returned_le, hi.durable_le, hi.ops, ?_⟩
  · show Recoverable a.layout io.disk _
    rw [hdisk]
    exact hi.recoverable
  · exact ⟨hst.2.1, rfl, hst.2.2, Nat.zero_le _, fun i _ hlt => absurd hlt (Nat.not_lt_zero i)⟩

section

variable (hph : s.phase = .reinstall t)

include hph

theorem Inv.reinstalling : s.io.disk = V ∧ a.layout.entries (s.io.disk a.layout.header) = s.lh := by
  obtain ⟨hcoh, hst⟩ := hi.at_phase hph
  have hdisk : s.io.disk = V := funext fun b => hcoh.disk b (Set.notMem_empty b)
  refine ⟨hdisk, ?_⟩
  rw [hdisk]
  exact hst.header

theorem Inv.reinstallBody (ht : t < s.lh.length) (hw : Log.installBody a s.io s.lh t = .ok io) :
    ∃ V', Inv a init { s with io := io, phase := .reinstall (t + 1) } h V' := by
  obtain ⟨hV, hentries⟩ := hi.reinstalling hph
  obtain ⟨-, hst⟩ := hi.at_phase hph
  have hlog := hentries ▸ hi.recoverable.loggable
  obtain ⟨hc, hrec, hu⟩ := hi.install hentries ht (by rw [hV]) hw
  have hempty : pinned (.reinstall t) s.lh \ {s.lh[t]} = ∅ := Set.empty_sdiff _
  rw [hph, hempty] at hc
  refine ⟨_, hc, hi.held_of hu, hrec, hi.whole, hi.returned_le, hi.durable_le, hi.ops,
    hst.committing, ?_, hst.current, ht, hst.installed.install ht⟩
  have hne : a.start ≠ s.lh[t] := (a.layout.ne_header (hlog.home _ (getElem_mem ht))).symm
  rw [update_of_ne hne]
  exact hst.header

/-- Recovery ends: the disk holds exactly the committed groups. -/
theorem Inv.recovered (ht : ¬ t < s.lh.length) (hw : Log.writeHead a s.io [] = .ok io) :
    (∀ b, ¬ a.Contains b → io.disk b = h.committed init b) ∧
      ∃ V', Inv a init { s with io := io, lh := [], phase := .running }
        { h with groups := h.groups.take h.durable, returned := h.durable } V' := by
  obtain ⟨hV, hentries⟩ := hi.reinstalling hph
  obtain ⟨hcoh, hst⟩ := hi.at_phase hph
  obtain rfl : t = s.lh.length := le_antisymm hst.le_length (not_lt.mp ht)
  obtain ⟨hc, hdisk, hu⟩ := writeHead_spec hcoh (Set.notMem_empty _) hw
  have hclear : getHead (update V a.start (putHead (V a.start) []) a.start) = [] := by
    rw [update_self]
    exact getHead_putHead_nil _
  have hrec : Recoverable a.layout io.disk (h.committed init) := by
    rw [hdisk]
    refine hi.recoverable.clear ?_ (getHead_putHead_nil (V a.start))
    rw [hentries, hV]
    exact hst.installed
  have hhome : ∀ b, ¬ a.Contains b → io.disk b = h.committed init b := by
    refine hrec.recovered ?_
    rw [hdisk, hV]
    exact hclear
  have htake : (h.groups.take h.durable).length = h.durable :=
    length_take_of_le hi.durable_le
  have hcommitted : ({ h with groups := h.groups.take h.durable, returned := h.durable } :
      Hist).committed init = h.committed init := by
    show applyGroups init ((h.groups.take h.durable).take h.durable) = _
    rw [take_take, min_self]
    rfl
  refine ⟨hhome, update V a.start (putHead (V a.start) []), ?_, hi.held_of hu,
    hcommitted ▸ hrec, fun g hg => ?_, le_rfl, htake.ge, hi.ops, ?_⟩
  · show Coherent io _ (pinned .running []) _
    rw [pinned_running_nil]
    exact hc
  · exact hi.whole g (mem_of_mem_take hg)
  · refine ⟨hst.committing, hclear, nodup_nil, fun b hb => absurd hb not_mem_nil,
      .inl a.size_pos, fun b hb => ?_, htake.symm⟩
    rw [← hc.disk b (Set.notMem_empty b), hhome b hb]
    show _ = applyEvents _ h.current b
    rw [hst.current]
    rfl

end

theorem Inv.recover (hs : recover a s = .ok s') :
    (s'.phase = .running → ∀ b, ¬ a.Contains b → s'.io.disk b = h.committed init b) ∧
      ∃ V', Inv a init s' (note s s' h .recover) V' := by
  unfold Log.recover at hs
  cases hph : s.phase with
  | readHead =>
    simp only [hph] at hs
    rcases hr : Log.readHead a s.io with e | ⟨lh, io⟩ <;> rw [hr] at hs <;> cases hs
    exact ⟨(fun hrun => by cases hrun), V, hi.readHead hph hr⟩
  | reinstall t =>
    simp only [hph] at hs
    by_cases ht : t < s.lh.length
    · rw [if_pos ht] at hs
      rcases hw : Log.installBody a s.io s.lh t with e | io <;> rw [hw] at hs <;> cases hs
      exact ⟨(fun hrun => by cases hrun), hi.reinstallBody hph ht hw⟩
    · rw [if_neg ht] at hs
      rcases hw : Log.writeHead a s.io [] with e | io <;> rw [hw] at hs <;> cases hs
      obtain ⟨hdisk, hinv⟩ := hi.recovered hph ht hw
      exact ⟨fun _ => hdisk, hinv⟩
  | running => simp [hph] at hs
  | writeLog t => simp [hph] at hs
  | install t => simp [hph] at hs
  | done => simp [hph] at hs

end

/-- A restart leaves the disk, and the disk stands for the committed groups. -/
theorem inv_boot {disk : ℕ → Block} (hrec : Recoverable a.layout disk (h.committed init))
    (hwhole : ∀ g ∈ h.groups, Whole g) (hreturned : h.returned ≤ h.durable)
    (hdurable : h.durable ≤ h.groups.length) (hcurrent : h.current = []) :
    Inv a init (.boot disk) h disk := by
  have hnone : modifying (fun _ => .free) = ∅ := Set.eq_empty_of_forall_notMem fun i hi => by
    obtain ⟨p, hp⟩ := hi
    cases hp
  refine ⟨?_, fun i hfree => absurd rfl hfree, hrec, hwhole, hreturned, hdurable,
    hcurrent ▸ ⟨∅, rfl, rfl, fun p => ?_⟩, rfl, rfl, hcurrent⟩
  · show Coherent (binit disk) disk ∅ (modifying fun _ => .free)
    rw [hnone]
    exact coherent_binit _
  · exact iff_of_false (Finset.notMem_empty p) fun hp => hp rfl

/-! ### Runs -/

theorem Inv.step {w' : World} {act : Act} (hi : Inv a init w.sys w.hist V) (hfit : Fits a w.sys act)
    (hs : w.step a act = .ok w') :
    ∃ V', Inv a init w'.sys w'.hist V' := by
  unfold World.step at hs
  cases hstep : Log.step a w.sys act with
  | error e => simp [hstep] at hs
  | ok s' =>
    simp only [hstep] at hs
    obtain rfl := ok.inj hs
    cases act with
    | beginOp p => exact ⟨V, hi.beginOp hstep⟩
    | bread p n => exact ⟨V, hi.bread hstep⟩
    | modify p i d => exact ⟨V, hi.modify hstep⟩
    | logTest p i => exact ⟨V, hi.logTest hstep⟩
    | logWrite p => exact hi.logWrite hfit hstep
    | brelse p i => exact ⟨V, hi.brelse hstep⟩
    | endOp p => exact ⟨V, hi.endOp hstep⟩
    | commit => exact hi.commit hstep
    | recover => exact (hi.recover hstep).2
    | crash =>
      obtain rfl := ok.inj hstep
      exact ⟨_, inv_boot hi.recoverable hi.whole hi.returned_le hi.durable_le rfl⟩

/-- A run of steps. -/
def World.run (a : Area) : List Act → World → Except Stuck World
  | [], w => .ok w
  | act :: acts, w =>
    match w.step a act with
    | .error e => .error e
    | .ok w => World.run a acts w

/-- The states that a machine started with `init` on its disk can be in, as long as the group that
is being logged fits. -/
inductive Reachable (a : Area) (init : ℕ → Block) : World → Prop
  | boot : Reachable a init (.boot init)
  | step {w w' : World} {act : Act} : Reachable a init w → Fits a w.sys act →
      w.step a act = .ok w' → Reachable a init w'

theorem reachable_inv (hclear : getHead (init a.start) = []) (hr : Reachable a init w) :
    ∃ V, Inv a init w.sys w.hist V := by
  induction hr with
  | boot =>
    exact ⟨init, inv_boot (.of_clear hclear fun b _ => rfl) (fun g hg => absurd hg not_mem_nil)
      le_rfl le_rfl rfl⟩
  | step _ hfit hs ih =>
    obtain ⟨V, hi⟩ := ih
    exact hi.step hfit hs

/-- **Crash atomicity.** Whenever `recover_from_log` completes, the blocks outside the log hold the
initial disk with the updates of exactly the first `k` groups. Every group consists of whole
operations, and `k` counts at least those whose `commit` had returned. -/
theorem recover_atomic (hclear : getHead (init a.start) = []) {w w' : World}
    (hr : Reachable a init w) (hs : w.step a .recover = .ok w')
    (hdone : w'.sys.phase = .running) :
    (∀ g ∈ w.hist.groups, Whole g) ∧
      ∃ k, w.hist.returned ≤ k ∧ k ≤ w.hist.groups.length ∧
        w'.hist.groups = w.hist.groups.take k ∧ w'.hist.returned = k ∧
          ∀ b, ¬ a.Contains b →
            w'.sys.io.disk b = applyGroups init (w.hist.groups.take k) b := by
  obtain ⟨V, hi⟩ := reachable_inv hclear hr
  unfold World.step at hs
  cases hstep : Log.step a w.sys .recover with
  | error e => simp [hstep] at hs
  | ok s' =>
    simp only [hstep] at hs
    obtain rfl := Except.ok.inj hs
    have hnote : note w.sys s' w.hist .recover = { w.hist with
        groups := w.hist.groups.take w.hist.durable, returned := w.hist.durable } := if_pos hdone
    refine ⟨hi.whole, w.hist.durable, hi.returned_le, hi.durable_le, ?_, ?_, ?_⟩
    · rw [hnote]
    · rw [hnote]
    · exact (hi.recover hstep).1 hdone

theorem Reachable.run (hsize : logsize ≤ a.size) (acts : List Act) {w' : World}
    (hr : Reachable a init w) (hs : w.run a acts = .ok w') : Reachable a init w' := by
  induction acts generalizing w with
  | nil => exact ok.inj hs ▸ hr
  | cons act acts ih =>
    rw [World.run] at hs
    cases hstep : w.step a act with
    | error e => simp [hstep] at hs
    | ok w₁ =>
      simp only [hstep] at hs
      have hfit : Fits a w.sys act := by
        cases act with
        | logWrite p => exact .inl hsize
        | _ => exact trivial
      exact ih (hr.step hfit hstep) hs

/-- One operation writes block 40. The machine stops when its group has just been committed, and
again before the committed block is copied to its home. -/
def crashTwice : List Act :=
  [.recover, .recover, .beginOp 0, .bread 0 40, .modify 0 1 (fun _ => 7), .logTest 0 1,
    .logWrite 0, .brelse 0 1, .endOp 0, .commit, .commit, .crash, .recover, .crash, .recover,
    .recover]

theorem recover_atomic_crashTwice :
    ∃ w w' : World, (World.boot fun _ _ => 0).run mkfsArea crashTwice = .ok w ∧
      w.step mkfsArea .recover = .ok w' ∧ w.hist.returned = 0 ∧ w.hist.groups.length = 1 ∧
        w'.sys.io.disk 40 0 = 7 ∧
          ∃ k, k ≤ w.hist.groups.length ∧
            ∀ b, ¬ mkfsArea.Contains b →
              w'.sys.io.disk b = applyGroups (fun _ _ => 0) (w.hist.groups.take k) b := by
  have hrun : (match (World.boot fun _ _ => 0).run mkfsArea crashTwice with
      | .error _ => false
      | .ok w =>
        match w.step mkfsArea .recover with
        | .error _ => false
        | .ok w' => decide (w.hist.returned = 0 ∧ w.hist.groups.length = 1 ∧
            w'.sys.phase = .running ∧ w'.sys.io.disk 40 0 = 7)) = true := by decide +kernel
  cases hw : (World.boot fun _ _ => 0).run mkfsArea crashTwice with
  | error e => simp [hw] at hrun
  | ok w =>
    cases hs : w.step mkfsArea .recover with
    | error e => simp [hw, hs] at hrun
    | ok w' =>
      simp only [hw, hs, decide_eq_true_eq] at hrun
      obtain ⟨hret, hlen, hph, hbyte⟩ := hrun
      have hreach : Reachable mkfsArea (fun _ _ => 0) w :=
        Reachable.boot.run (by decide) crashTwice hw
      obtain ⟨-, k, -, hk, -, -, hdisk⟩ := recover_atomic (by decide) hreach hs hph
      exact ⟨w, w', rfl, hs, hret, hlen, hbyte, k, hk, hdisk⟩

/-- Two processes log a block each, and both make the test before either takes the lock. -/
def overrun : List Act :=
  [.recover, .recover, .beginOp 0, .beginOp 1, .bread 0 10, .bread 1 11,
    .modify 0 1 (fun _ => 7), .modify 1 2 (fun _ => 9), .logTest 0 1, .logTest 1 2, .logWrite 0,
    .logWrite 1, .brelse 0 1, .brelse 1 2, .endOp 0, .endOp 1, .commit, .commit, .crash, .recover,
    .recover]

-- In a log with one data block, the second is copied to the block after the log. No group was
-- committed, and yet that block has changed.
example :
    (match (World.boot fun _ _ => 0).run ⟨2, 2, by decide⟩ overrun with
      | .error _ => false
      | .ok w => decide (w.sys.phase = .running ∧ w.hist.groups.length = 0 ∧
          w.sys.io.disk 4 0 = 9)) = true := by
  decide +kernel

end Xv6.Log
