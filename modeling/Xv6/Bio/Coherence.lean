import Xv6.Bio.Cache

/-!
# The buffer cache is a plain array of blocks

Whatever is evicted and recycled in between, `bread` returns what the block contained when it was
last released, and before that what was on the disk. This needs a discipline of the holders: a
buffer whose data has been changed is handed to `log_write` or `bwrite` before it is released.

## Main results

* `Coherent.effect` — what the flags of a buffer say about its data, along every step
* `bread_returns_released` — what `bread` returns
-/

namespace Xv6.Bcache

open Function
open Bool (true_eq_false false_ne_true)

/-- What has happened, as far as the holders know. No step depends on it. -/
structure Hist where
  /-- The data of a block when it was last released. -/
  last : ℕ → ℕ → Option Block
  /-- The holder has changed the data since it was last handed to `log_write` or `bwrite`. -/
  touched : Slot → Bool

/-- The cache with its history. -/
structure World where
  state : State
  hist : Hist

namespace World

/-- What a step adds to the history. -/
def note (w : World) : Act → Hist
  | .modify _ i _ => { w.hist with touched := update w.hist.touched i true }
  | .logWrite _ i => { w.hist with touched := update w.hist.touched i false }
  | .bwrite _ i => { w.hist with touched := update w.hist.touched i false }
  | .brelse _ i =>
    let b := w.state.buf i
    { w.hist with
      last := update w.hist.last b.dev
        (update (w.hist.last b.dev) b.blockno (some b.data)) }
  | .bread .. | .go _ | .wake _ => w.hist

/-- One step, with its history. -/
def step (w : World) (act : Act) : Except Stuck (Option Slot × World) :=
  match w.state.step act with
  | .error e => .error e
  | .ok (r, s) => .ok (r, ⟨s, w.note act⟩)

/-- What holders must not do: release a buffer that they have changed and not handed over. -/
def Allowed (w : World) : Act → Prop
  | .brelse _ i => w.hist.touched i = false
  | _ => True

instance (w : World) : DecidablePred w.Allowed := fun act => by
  cases act <;> unfold Allowed <;> infer_instance

/-- A step that the discipline allows. -/
def next (w : World) (act : Act) : Except Stuck World :=
  if w.Allowed act then (w.step act).map Prod.snd else .error .disabled

/-- A run of holders who keep to the discipline. -/
def run (w : World) (acts : List Act) : Except Stuck World := Runs.run next acts w

/-- The array that the cache stands for. -/
def array (disk : ℕ → ℕ → Block) (w : World) (dev n : ℕ) : Block :=
  (w.hist.last dev n).getD (disk dev n)

/-- Where a run starts. -/
def boot (disk : ℕ → ℕ → Block) : World := ⟨binit disk, fun _ _ => none, fun _ => false⟩

/-- The worlds that holders who keep to the discipline can get to. -/
def Reachable (disk : ℕ → ℕ → Block) (w : World) : Prop := ∃ acts, (boot disk).run acts = .ok w

end World

/-- The block that a process has called `bread` for. -/
def Pc.request : Pc → Option (ℕ × ℕ)
  | .bget dev n => some (dev, n)
  | .asleep _ dev n => some (dev, n)
  | .reading _ dev n => some (dev, n)
  | .run => none
  | .writing _ => none

/-- What the flags of a buffer say about its data. -/
structure Coherent (disk : ℕ → ℕ → Block) (w : World) : Prop where
  released : ∀ i, (w.state.buf i).valid = true → (w.state.buf i).busy = false →
    (w.state.buf i).data = w.array disk (w.state.buf i).dev (w.state.buf i).blockno
  clean : ∀ i, (w.state.buf i).valid = true → (w.state.buf i).dirty = false →
    w.hist.touched i = false →
    w.state.disk (w.state.buf i).dev (w.state.buf i).blockno = (w.state.buf i).data
  absent : ∀ dev n, dev ≠ nodev → (∀ i, w.state.Caches i dev n → (w.state.buf i).valid = false) →
    w.state.disk dev n = w.array disk dev n
  dirty : ∀ i, (w.state.buf i).dirty = true → (w.state.buf i).valid = true
  touched : ∀ i, w.hist.touched i = true → (w.state.buf i).busy = true
  held : ∀ p, ∀ i ∈ w.state.held p, (w.state.buf i).valid = false →
    ∃ dev n, w.state.pc p = .reading i dev n
  reading : ∀ p i dev n, w.state.pc p = .reading i dev n → (w.state.buf i).valid = false

variable {disk : ℕ → ℕ → Block} {w w' : World} {s s' : State} {act : Act} {b : Buf} {c : Pc}
  {i : Slot} {t : State} {dev n p : ℕ}

theorem Coherent.init (disk : ℕ → ℕ → Block) : Coherent disk (.boot disk) where
  released := fun _ h => absurd h false_ne_true
  clean := fun _ h => absurd h false_ne_true
  absent := fun _ _ _ _ => rfl
  dirty := fun _ h => absurd h false_ne_true
  touched := fun _ h => absurd h false_ne_true
  held := fun _ _ h => absurd h (Finset.notMem_empty _)
  reading := fun _ _ _ _ h => by cases h

section

variable (hc : Coherent disk w)

include hc

theorem Coherent.calls (hi : Inv w.state) (hm : Moves w.state p c t.pc)
    (hheld : ∀ q ≠ p, t.held q = w.state.held q)
    (hvalid : ∀ q ≠ p, ∀ i ∈ w.state.held q, (t.buf i).valid = (w.state.buf i).valid)
    (hself : ∀ i ∈ t.held p, (t.buf i).valid = false → ∃ dev n, c = .reading i dev n)
    (hread : ∀ i dev n, c = .reading i dev n → (t.buf i).valid = false) :
    (∀ q, ∀ i ∈ t.held q, (t.buf i).valid = false → ∃ dev n, t.pc q = .reading i dev n) ∧
      ∀ q i dev n, t.pc q = .reading i dev n → (t.buf i).valid = false := by
  have hpc : ∀ q ≠ p, ∀ i dev n, t.pc q = .reading i dev n ↔ w.state.pc q = .reading i dev n := by
    intro q hq i dev n
    rcases hm.others q hq with h | ⟨j, dev', n', hs, ht⟩
    · rw [h]
    · rw [hs, ht]
      exact ⟨(fun h => by cases h), (fun h => by cases h)⟩
  refine ⟨fun q i hiq hv => ?_, fun q i dev n hq => ?_⟩
  · by_cases hqp : q = p
    · subst hqp
      rw [hm.self]
      exact hself i hiq hv
    · rw [hheld q hqp] at hiq
      rw [hvalid q hqp i hiq] at hv
      obtain ⟨dev, n, h⟩ := hc.held q i hiq hv
      exact ⟨dev, n, (hpc q hqp i dev n).mpr h⟩
  · by_cases hqp : q = p
    · subst hqp
      exact hread i dev n (hm.self ▸ hq)
    · have hs := (hpc q hqp i dev n).mp hq
      rw [hvalid q hqp i (hi.held_of_io (.inr ⟨dev, n, hs⟩))]
      exact hc.reading q i dev n hs

theorem Coherent.valid_of_held (hi : i ∈ w.state.held p)
    (hp : ∀ dev n, w.state.pc p ≠ .reading i dev n) :
    (w.state.buf i).valid = true := by
  by_contra hv
  obtain ⟨dev, n, h⟩ := hc.held p i hi (Bool.eq_false_of_not_eq_true hv)
  exact hp dev n h

theorem Coherent.not_touched (hfree : (w.state.buf i).busy = false) : w.hist.touched i = false :=
  Bool.eq_false_of_not_eq_true fun h => false_ne_true (hfree.symm.trans (hc.touched i h))

theorem Coherent.move (hi : Inv w.state) {pc : ℕ → Pc}
    (hp : ∀ i dev n, w.state.pc p ≠ .reading i dev n) (hm : Moves w.state p c pc)
    (hcr : ∀ i dev n, c ≠ .reading i dev n) :
    Coherent disk ⟨{ w.state with pc := pc }, w.hist⟩ := by
  obtain ⟨hheld, hreading⟩ := hc.calls hi (t := { w.state with pc := pc }) hm (fun _ _ => rfl)
    (fun _ _ _ _ => rfl)
    (fun i hi hv => by
      rw [hc.valid_of_held hi (hp i)] at hv
      exact absurd hv true_eq_false.mp)
    (fun i dev n h => absurd h (hcr i dev n))
  exact ⟨hc.released, hc.clean, hc.absent, hc.dirty, hc.touched, hheld, hreading⟩

/-- **One buffer changes.** What has to be shown is about this buffer and the block it is for, and
about the block it was for before. -/
theorem Coherent.assign {h : Hist} (hbuf : t.buf = update w.state.buf i b)
    (hfor : ∀ j, w.state.Caches j b.dev b.blockno → j = i)
    (helse : ∀ dev n, ¬(b.dev = dev ∧ b.blockno = n) →
      t.disk dev n = w.state.disk dev n ∧ h.last dev n = w.hist.last dev n)
    (htouched : ∀ j ≠ i, h.touched j = w.hist.touched j)
    (hreleased : b.valid = true → b.busy = false → b.data = World.array disk ⟨t, h⟩ b.dev b.blockno)
    (hclean : b.valid = true → b.dirty = false → h.touched i = false →
      t.disk b.dev b.blockno = b.data)
    (hnew : b.valid = false → t.disk b.dev b.blockno = World.array disk ⟨t, h⟩ b.dev b.blockno)
    (hold : ∀ dev n, dev ≠ nodev → w.state.Caches i dev n → ¬(b.dev = dev ∧ b.blockno = n) →
      w.state.disk dev n = w.array disk dev n) (hdirty : b.dirty = true → b.valid = true)
    (hbusy : h.touched i = true → b.busy = true)
    (hcalls : (∀ q, ∀ j ∈ t.held q, (t.buf j).valid = false → ∃ dev n, t.pc q = .reading j dev n) ∧
      ∀ q j dev n, t.pc q = .reading j dev n → (t.buf j).valid = false) : Coherent disk ⟨t, h⟩ := by
  have hbi : t.buf i = b := by rw [hbuf, update_self]
  have hbj : ∀ j ≠ i, t.buf j = w.state.buf j := fun j hj => by rw [hbuf, update_of_ne hj]
  have hne : ∀ j ≠ i, ¬(b.dev = (w.state.buf j).dev ∧ b.blockno = (w.state.buf j).blockno) :=
    fun j hj hk => hj (hfor j ⟨hk.1.symm, hk.2.symm⟩)
  have harray : ∀ dev n, ¬(b.dev = dev ∧ b.blockno = n) →
      World.array disk ⟨t, h⟩ dev n = w.array disk dev n := fun dev n hk => by
    simp only [World.array, (helse dev n hk).2]
  refine ⟨fun j => ?_, fun j => ?_, fun dev n hdev hall => ?_, fun j => ?_, fun j => ?_, hcalls.1,
    hcalls.2⟩
  · by_cases hj : j = i
    · subst hj
      simpa only [hbi] using hreleased
    · simp only [hbj j hj, harray _ _ (hne j hj)]
      exact hc.released j
  · by_cases hj : j = i
    · subst hj
      simpa only [hbi] using hclean
    · simp only [hbj j hj, htouched j hj, (helse _ _ (hne j hj)).1]
      exact hc.clean j
  · by_cases hk : b.dev = dev ∧ b.blockno = n
    · obtain ⟨rfl, rfl⟩ := hk
      exact hnew (hbi ▸ hall i ⟨congrArg Buf.dev hbi, congrArg Buf.blockno hbi⟩)
    · rw [(helse dev n hk).1, harray dev n hk]
      by_cases hi : w.state.Caches i dev n
      · exact hold dev n hdev hi hk
      · refine hc.absent dev n hdev fun j hj => ?_
        have hji : j ≠ i := fun h => hi (h ▸ hj)
        have hv := hall j
        simp only [State.Caches, hbj j hji] at hv
        exact hv hj
  · by_cases hj : j = i
    · subst hj
      simpa only [hbi] using hdirty
    · simp only [hbj j hj]
      exact hc.dirty j
  · by_cases hj : j = i
    · subst hj
      simpa only [hbi] using hbusy
    · simp only [hbj j hj, htouched j hj]
      exact hc.touched j

end

theorem Inv.dev_of_held (hi : Inv s) (hheld : i ∈ s.held p) :
    (s.buf i).dev ≠ nodev :=
  hi.used i (.inl ((hi.busy i).mpr ⟨p, hheld⟩))

/-- The block of a buffer without data is as it was released. -/
theorem Coherent.array_of_stale (hc : Coherent disk w) (hi : Inv w.state)
    (hdev : (w.state.buf i).dev ≠ nodev) (hstale : (w.state.buf i).valid = false) :
    w.state.disk (w.state.buf i).dev (w.state.buf i).blockno =
      w.array disk (w.state.buf i).dev (w.state.buf i).blockno :=
  hc.absent _ _ hdev fun j hj => hi.unique i j hdev hj ▸ hstale

theorem Coherent.calls_give (hc : Coherent disk w) (hi : Inv w.state)
    (hp : w.state.pc p = .bget dev n) (hfree : (w.state.buf i).busy = false)
    (hm : Moves w.state p c t.pc) (hbuf : t.buf = update w.state.buf i b)
    (hheld : t.held = update w.state.held p (insert i (w.state.held p)))
    (hcv : b.valid = true ∧ c = .run ∨ b.valid = false ∧ c = .reading i dev n) :
    (∀ q, ∀ j ∈ t.held q, (t.buf j).valid = false → ∃ dev n, t.pc q = .reading j dev n) ∧
      ∀ q j dev n, t.pc q = .reading j dev n → (t.buf j).valid = false := by
  have hbi : t.buf i = b := by rw [hbuf, update_self]
  have hbj : ∀ q, ∀ j ∈ w.state.held q, t.buf j = w.state.buf j := fun q j hj => by
    have hji : j ≠ i := fun h => hi.not_held hfree q (h ▸ hj)
    rw [hbuf, update_of_ne hji]
  refine hc.calls hi hm (fun q hq => ?_) (fun q _ j hj => by rw [hbj q j hj]) (fun j hj hv => ?_)
    (fun j dev' n' h => ?_)
  · rw [hheld, update_of_ne hq]
  · rw [hheld, update_self, Finset.mem_insert] at hj
    rcases hj with rfl | hj
    · rcases hcv with ⟨hb, -⟩ | ⟨-, hr⟩
      · exact absurd (hb.symm.trans (hbi ▸ hv)) true_eq_false.mp
      · exact ⟨dev, n, hr⟩
    · have hval := hc.valid_of_held hj fun _ _ h => by cases hp.symm.trans h
      rw [hbj p j hj] at hv
      exact absurd (hval.symm.trans hv) true_eq_false.mp
  · rcases hcv with ⟨-, rfl⟩ | ⟨hb, rfl⟩
    · cases h
    · cases h
      rw [hbi]
      exact hb

theorem not_reading_of_io (hp : s.pc p = .writing i ∨ ∃ dev n, s.pc p = .reading i dev n) (j : Slot)
    (hj : j ≠ i) (dev n : ℕ) : s.pc p ≠ .reading j dev n := by
  intro h
  rcases hp with hp | ⟨dev', n', hp⟩
  · cases hp.symm.trans h
  · cases hp.symm.trans h
    exact hj rfl

theorem update_update_of_ne {α : Type*} (f : ℕ → ℕ → α) {d m : ℕ} (x : α) (hk : ¬(d = dev ∧ m = n))
    : update f d (update (f d) m x) dev n = f dev n := by
  by_cases hd : dev = d
  · subst hd
    have hn : n ≠ m := fun h => hk ⟨rfl, h.symm⟩
    rw [update_self, update_of_ne hn]
  · rw [update_of_ne hd]

theorem Coherent.change (hc : Coherent disk w) (hi : Inv w.state) {h : Hist}
    (hheldi : i ∈ w.state.held p) (hp : ∀ j ≠ i, ∀ dev n, w.state.pc p ≠ .reading j dev n)
    (hm : Moves w.state p c t.pc) (hcr : ∀ j dev n, c ≠ .reading j dev n)
    (hbuf : t.buf = update w.state.buf i b) (hkey : w.state.Caches i b.dev b.blockno)
    (hb : b.valid = true) (hheld : ∀ q ≠ p, t.held q = w.state.held q)
    (hsub : t.held p ⊆ w.state.held p) (helse : ∀ dev n, ¬(b.dev = dev ∧ b.blockno = n) →
      t.disk dev n = w.state.disk dev n ∧ h.last dev n = w.hist.last dev n)
    (htouched : ∀ j ≠ i, h.touched j = w.hist.touched j)
    (hreleased : b.busy = false → b.data = World.array disk ⟨t, h⟩ b.dev b.blockno)
    (hclean : b.dirty = false → h.touched i = false → t.disk b.dev b.blockno = b.data)
    (hbusy : h.touched i = true → b.busy = true) : Coherent disk ⟨t, h⟩ := by
  have hbi : t.buf i = b := by rw [hbuf, update_self]
  have hbj : ∀ j ≠ i, t.buf j = w.state.buf j := fun j hj => by rw [hbuf, update_of_ne hj]
  have hfor : ∀ j, w.state.Caches j b.dev b.blockno → j = i := by
    rw [← hkey.1, ← hkey.2]
    exact (hi.unique i · (hi.dev_of_held hheldi))
  refine hc.assign hbuf hfor helse htouched (fun _ => hreleased) (fun _ => hclean)
    (fun hv => absurd (hb.symm.trans hv) true_eq_false.mp) (fun dev n _ hk hn => ?_)
    (fun _ => hb) hbusy
    (hc.calls hi hm hheld (fun q hq j hj => ?_) (fun j hj hv => ?_)
      (fun j dev n h => absurd h (hcr j dev n)))
  · exact absurd ⟨hkey.1.symm.trans hk.1, hkey.2.symm.trans hk.2⟩ hn
  · rw [hbj j fun h => hq (hi.sole q p i (h ▸ hj) hheldi)]
  · by_cases hji : j = i
    · rw [hji, hbi] at hv
      exact absurd (hb.symm.trans hv) true_eq_false.mp
    · rw [hbj j hji, hc.valid_of_held (hsub hj) (hp j hji)] at hv
      exact absurd hv true_eq_false.mp

/-- **Every step keeps the cache coherent.** -/
theorem Coherent.effect (hc : Coherent disk w) (hi : Inv w.state) (hallow : w.Allowed act)
    (he : Effect w.state act s') : Coherent disk ⟨s', w.note act⟩ := by
  have hdev : ∀ {p dev n}, w.state.pc p = .bget dev n → dev ≠ nodev := fun {p dev n} hp => by
    have hok := hi.calls p
    rw [hp] at hok
    exact hok
  have hlive : ∀ {p}, ∀ i ∈ w.state.held p, (w.state.buf i).busy = true := fun {p} i h =>
    (hi.busy i).mpr ⟨p, h⟩
  have hvalid : ∀ {p}, w.state.pc p = .run → ∀ i ∈ w.state.held p, (w.state.buf i).valid = true :=
    fun hp i h => hc.valid_of_held h fun _ _ h => by cases hp.symm.trans h
  cases he with
  | call hp hdev hpc =>
    exact hc.move hi (fun _ _ _ h => by cases hp.symm.trans h) hpc fun _ _ _ h => by cases h
  | sleep hp hpc =>
    exact hc.move hi (fun _ _ _ h => by cases hp.symm.trans h) hpc fun _ _ _ h => by cases h
  | wake hp hpc =>
    exact hc.move hi (fun _ _ _ h => by cases hp.symm.trans h) hpc fun _ _ _ h => by cases h
  | @lock p i dev n pc c hp hkey hfree hpc hcv =>
    have hd : (w.state.buf i).dev ≠ nodev := hkey.1.symm ▸ hdev hp
    exact hc.assign rfl (hi.unique i · hd) (fun _ _ _ => ⟨rfl, rfl⟩) (fun _ _ => rfl)
      (fun _ h => absurd h.symm false_ne_true) (hc.clean i) (hc.array_of_stale hi hd)
      (fun _ _ _ h hn => absurd h hn) (hc.dirty i) (fun _ => rfl)
      (hc.calls_give hi hp hfree hpc rfl rfl hcv)
  | @recycle p i dev n pc hp hnew hfree hclean hpc =>
    refine hc.assign rfl (fun j hj => absurd hj (hnew j)) (fun _ _ _ => ⟨rfl, rfl⟩)
      (fun _ _ => rfl) (fun h => absurd h false_ne_true)
      (fun h => absurd h false_ne_true)
      (fun _ => hc.absent dev n (hdev hp) fun j hj => absurd hj (hnew j)) (fun d m hd hk _ => ?_)
      (fun h => absurd h false_ne_true) (fun _ => rfl)
      (hc.calls_give hi hp hfree hpc rfl rfl (.inr ⟨rfl, rfl⟩))
    -- the buffer that is given up is clean, so what it had is on the disk
    obtain ⟨rfl, rfl⟩ := hk
    cases hv : (w.state.buf i).valid with
    | false => exact hc.array_of_stale hi hd hv
    | true => rw [hc.clean i hv hclean (hc.not_touched hfree), hc.released i hv hfree]
  | read hp hclean hstale hpc =>
    have hbusy := hlive _ (hi.held_of_io hp)
    exact hc.change hi (hi.held_of_io hp) (not_reading_of_io hp) hpc (fun _ _ _ h => by cases h)
      rfl ⟨rfl, rfl⟩ rfl (fun _ _ => rfl) subset_rfl (fun _ _ _ => ⟨rfl, rfl⟩) (fun _ _ => rfl)
      (fun h => absurd (hbusy.symm.trans h) true_eq_false.mp) (fun _ _ => rfl) (fun _ => hbusy)
  | write hp hdirty hpc =>
    have hbusy := hlive _ (hi.held_of_io hp)
    exact hc.change hi (hi.held_of_io hp) (not_reading_of_io hp) hpc (fun _ _ _ h => by cases h)
      rfl ⟨rfl, rfl⟩ rfl (fun _ _ => rfl) subset_rfl
      (fun _ _ hk => ⟨update_update_of_ne _ _ hk, rfl⟩) (fun _ _ => rfl)
      (fun h => absurd (hbusy.symm.trans h) true_eq_false.mp) (fun _ _ => by simp)
      (fun _ => hbusy)
  | modify hp hheld =>
    have hbusy := hlive _ hheld
    exact hc.change hi hheld (fun _ _ _ _ h => by cases hp.symm.trans h) (.refl ..)
      (fun _ _ _ h => by cases hp.symm.trans h) rfl ⟨rfl, rfl⟩ (hvalid hp _ hheld)
      (fun _ _ => rfl) subset_rfl (fun _ _ _ => ⟨rfl, rfl⟩) (fun _ hj => update_of_ne hj ..)
      (fun h => absurd (hbusy.symm.trans h) true_eq_false.mp)
      (fun _ h => absurd ((update_self ..).symm.trans h) true_eq_false.mp) (fun _ => hbusy)
  | logWrite hp hheld =>
    have hbusy := hlive _ hheld
    exact hc.change hi hheld (fun _ _ _ _ h => by cases hp.symm.trans h) (.refl ..)
      (fun _ _ _ h => by cases hp.symm.trans h) rfl ⟨rfl, rfl⟩ (hvalid hp _ hheld)
      (fun _ _ => rfl) subset_rfl (fun _ _ _ => ⟨rfl, rfl⟩) (fun _ hj => update_of_ne hj ..)
      (fun h => absurd (hbusy.symm.trans h) true_eq_false.mp)
      (fun h => absurd h true_eq_false.mp) (fun _ => hbusy)
  | bwrite hp hheld hpc =>
    have hbusy := hlive _ hheld
    exact hc.change hi hheld (fun _ _ _ _ h => by cases hp.symm.trans h) hpc
      (fun _ _ _ h => by cases h) rfl ⟨rfl, rfl⟩ (hvalid hp _ hheld)
      (fun _ _ => rfl) subset_rfl (fun _ _ _ => ⟨rfl, rfl⟩) (fun _ hj => update_of_ne hj ..)
      (fun h => absurd (hbusy.symm.trans h) true_eq_false.mp)
      (fun h => absurd h true_eq_false.mp) (fun _ => hbusy)
  | @brelse p i pc hp hheld hpc =>
    refine hc.change hi hheld (fun _ _ _ _ h => by cases hp.symm.trans h) hpc
      (fun _ _ _ h => by cases h) rfl ⟨rfl, rfl⟩ (hvalid hp _ hheld)
      (fun q hq => update_of_ne hq ..) ?_ (fun _ _ hk => ⟨rfl, update_update_of_ne _ _ hk⟩)
      (fun _ _ => rfl) (fun _ => by simp [World.array, World.note])
      (fun hd _ => hc.clean i (hvalid hp i hheld) hd hallow)
      (fun h => absurd (hallow.symm.trans h) false_ne_true)
    change update w.state.held p ((w.state.held p).erase i) p ⊆ w.state.held p
    rw [update_self]
    exact Finset.erase_subset i _

theorem World.step_ok {r : Option Slot} (h : w.step act = .ok (r, w')) :
    ∃ s', w.state.step act = .ok (r, s') ∧ w' = ⟨s', w.note act⟩ := by
  rw [World.step] at h
  cases hs : w.state.step act with
  | error e => simp [hs] at h
  | ok rs =>
    obtain ⟨r', s'⟩ := rs
    simp only [hs, Except.ok.injEq, Prod.mk.injEq] at h
    obtain ⟨rfl, rfl⟩ := h
    exact ⟨s', rfl, rfl⟩

theorem World.next_ok (h : w.next act = .ok w') :
    w.Allowed act ∧ ∃ r s', w.state.step act = .ok (r, s') ∧ w' = ⟨s', w.note act⟩ := by
  rw [World.next] at h
  split_ifs at h with hallow
  cases hs : w.step act with
  | error e =>
    rw [hs] at h
    cases h
  | ok rw =>
    rw [hs] at h
    cases h
    exact ⟨hallow, rw.1, World.step_ok hs⟩

theorem World.reachable_coherent (hr : World.Reachable disk w) : Inv w.state ∧ Coherent disk w := by
  obtain ⟨acts, h⟩ := hr
  refine Runs.run_induct (I := fun w => Inv w.state ∧ Coherent disk w) (fun w act w' hw hnext => ?_)
    ⟨.binit disk, .init disk⟩ h
  obtain ⟨hallow, r, s', hs, rfl⟩ := World.next_ok hnext
  have he := hw.1.step_effect hs
  exact ⟨hw.1.effect he, hw.2.effect hw.1 hallow he⟩

theorem Order.bget_returns {l : List Slot} (ho : Order s l) (h : s.bget p dev n = .ok (some i, s'))
    :
    s.Caches i dev n ∧ (s.buf i).valid = true ∧ (s.buf i).busy = false ∧
      s'.buf i = { s.buf i with busy := true } ∧ i ∈ s'.held p := by
  rw [State.bget, ho.lookup_eq, ho.recyclable_eq] at h
  cases hlook : l.find? fun i => decide ((s.buf i).dev = dev ∧ (s.buf i).blockno = n) with
  | some j =>
    have hkey : (s.buf j).dev = dev ∧ (s.buf j).blockno = n := by
      simpa using List.find?_some hlook
    simp only [hlook] at h
    by_cases hbusy : (s.buf j).busy = true
    · simp [hbusy] at h
    · simp only [hbusy, Bool.false_eq_true, if_false, Except.ok.injEq, State.grant, State.setBuf,
        update_self] at h
      split_ifs at h with hvalid
      · cases h
        refine ⟨hkey, hvalid, Bool.eq_false_of_not_eq_true hbusy, update_self .., ?_⟩
        simp [State.setPc]
      · cases h
  | none =>
    simp only [hlook] at h
    cases hrec : l.reverse.find? fun i => !(s.buf i).busy && !(s.buf i).dirty with
    | none => simp [hrec] at h
    | some j => simp [hrec, State.grant, State.setBuf] at h

theorem iderw_reads (hclean : (s.buf i).dirty = false) (h : s.iderw i = .ok t) :
    t.buf i = { s.buf i with valid := true, data := s.disk (s.buf i).dev (s.buf i).blockno } ∧
      t.held = s.held := by
  rw [State.iderw] at h
  split_ifs at h with hbusy hnothing hn hdirty
  · exact absurd (hclean.symm.trans hdirty) false_ne_true
  · cases h
    exact ⟨update_self .., rfl⟩

/-- **What `bread` returns.** In any interleaving in which changed buffers are handed to `log_write`
or `bwrite` before they are released, a `bread` returns a buffer for its block, with the data that
the block had when it was last released, or else that of the disk. -/
theorem bread_returns_released (hr : World.Reachable disk w) {p dev n : ℕ} {i : Slot}
    (hp : (w.state.pc p).request = some (dev, n)) (h : w.step (.go p) = .ok (some i, w')) :
    w'.state.Caches i dev n ∧ i ∈ w'.state.held p ∧
      (w'.state.buf i).data = (w.hist.last dev n).getD (disk dev n) := by
  obtain ⟨hi, hc⟩ := World.reachable_coherent hr
  obtain ⟨s', hs, rfl⟩ := World.step_ok h
  obtain ⟨l, ho⟩ := hi.order
  simp only [State.step] at hs
  cases hpc : w.state.pc p with
  | bget dev' n' =>
    simp only [hpc, Pc.request, Option.some.injEq, Prod.mk.injEq] at hp
    obtain ⟨rfl, rfl⟩ := hp
    simp only [hpc] at hs
    obtain ⟨hkey, hvalid, hfree, hbuf, hheld⟩ := ho.bget_returns hs
    refine ⟨?_, hheld, ?_⟩
    · rw [State.Caches, hbuf]
      exact hkey
    · rw [hbuf]
      have hdata := hc.released i hvalid hfree
      rwa [hkey.1, hkey.2] at hdata
  | reading j dev' n' =>
    simp only [hpc, Pc.request, Option.some.injEq, Prod.mk.injEq] at hp
    obtain ⟨rfl, rfl⟩ := hp
    have hok := hi.calls p
    rw [hpc] at hok
    have hstale := hc.reading p j dev' n' hpc
    have hclean : (w.state.buf j).dirty = false :=
      Bool.eq_false_of_not_eq_true fun hd =>
        Bool.false_ne_true (hstale.symm.trans (hc.dirty j hd))
    cases ht : w.state.iderw j with
    | error e => simp [hpc, ht] at hs
    | ok t =>
      simp only [hpc, ht, Except.ok.injEq, Prod.mk.injEq, Option.some.injEq] at hs
      obtain ⟨rfl, rfl⟩ := hs
      obtain ⟨hbuf, hheld⟩ := iderw_reads hclean ht
      have hbuf' : (t.setPc p .run).buf j = t.buf j := rfl
      refine ⟨?_, ?_, ?_⟩
      · rw [State.Caches, hbuf', hbuf]
        exact hok.2
      · change j ∈ t.held p
        rw [hheld]
        exact hok.1
      · have hdata := hc.array_of_stale hi (hi.dev_of_held hok.1) hstale
        rw [hbuf', hbuf]
        refine hdata.trans ?_
        rw [hok.2.1, hok.2.2]
        rfl
  | asleep => simp [hpc] at hs
  | run => simp [hpc] at hs
  | writing j =>
    cases ht : w.state.iderw j with
    | error e => simp [hpc, ht] at hs
    | ok t => simp [hpc, ht] at hs

/-- One process reads block 5, changes it, writes it and releases it, and another one reads it. -/
def rereads : List Act :=
  [.bread 0 1 5, .go 0, .go 0, .modify 0 0 fun _ => 7, .bwrite 0 0, .go 0, .brelse 0 0,
    .bread 1 1 5]

theorem bread_returns_released_rereads :
    ∃ w w' i, (World.boot fun _ _ _ => 0).run rereads = .ok w ∧
      w.step (.go 1) = .ok (some i, w') ∧ (w'.state.buf i).data 0 = 7 := by
  obtain ⟨w, hw, htest⟩ := Runs.exists_of_endsIn
    (fun w : World => decide ((w.state.pc 1).request = some (1, 5)) &&
      decide ((w.hist.last 1 5).map (· 0) = some 7) &&
      ((w.step (.go 1)).toOption.bind Prod.fst).isSome) ((World.boot fun _ _ _ => 0).run rereads)
      (by decide +kernel)
  simp only [Bool.and_eq_true, decide_eq_true_eq] at htest
  obtain ⟨⟨hreq, hlast⟩, hstep⟩ := htest
  rcases hs : w.step (.go 1) with e | ⟨_ | i, w'⟩
  · simp [hs, Except.toOption] at hstep
  · simp [hs, Except.toOption] at hstep
  · refine ⟨w, w', i, hw, hs, ?_⟩
    obtain ⟨d, hd, hd7⟩ := Option.map_eq_some_iff.mp hlast
    rw [(bread_returns_released ⟨_, hw⟩ hreq hs).2.2, hd]
    exact hd7

end Xv6.Bcache
