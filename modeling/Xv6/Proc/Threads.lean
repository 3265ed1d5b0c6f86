import Xv6.Proc.Table

/-!
# Which CPU runs which process
-/

namespace Xv6.Sched

open State

open Function (update update_of_ne update_self)

/-- Where a thread is. -/
inductive At
  | unborn
  | run (held : Bool)
  /-- It has given up its state `RUNNING` and holds the lock. -/
  | leave
  /-- It has made itself a zombie and holds the lock. -/
  | gone
  | away
  /-- It has been switched from for the last time. -/
  | dead
  | idle
  | scan
  | pick (i : Slot)
  /-- It is about to switch to it. -/
  | lift (i : Slot)
  | sent
  deriving DecidableEq

/-- A process that runs or can run again. -/
def Live (p : Proc) : Prop := p.state = .runnable ∨ p.state = .sleeping ∨ p.state = .running

variable {κ : Type} {p p' : Proc} {i : Slot} {c : κ}

/-- The thread is executed by CPU `c`, as the process in its slot. -/
structure Runs (s : State κ) (k : ℕ) (c : κ) : Prop where
  on : s.on (.proc k) = some c
  cur : s.cur c = some (s.slot k)
  context : (s.proc (s.slot k)).context = k

/-- What it means for a thread to be there. -/
def Own (s : State κ) : Thread κ → At → Prop
  | .proc k, .unborn => s.started k = false ∧ ∀ c, s.on (.proc k) = some c →
      Runs s k c ∧ s.lock = some c ∧ (s.proc (s.slot k)).state = .running
  | .proc k, .run held => s.started k = true ∧ ∃ c, Runs s k c ∧ (s.lock = some c ↔ held = true) ∧
      (s.proc (s.slot k)).state = .running
  | .proc k, .leave => s.started k = true ∧ ∃ c, Runs s k c ∧ s.lock = some c ∧
      ((s.proc (s.slot k)).state = .runnable ∨ (s.proc (s.slot k)).state = .sleeping)
  | .proc k, .gone => s.started k = true ∧ ∃ c, Runs s k c ∧ s.lock = some c ∧
      (s.proc (s.slot k)).state = .zombie
  | .proc k, .away => s.started k = true ∧ (s.proc (s.slot k)).context = k ∧
      Live (s.proc (s.slot k)) ∧ ∀ c, s.on (.proc k) = some c →
        Runs s k c ∧ s.lock = some c ∧ (s.proc (s.slot k)).state = .running
  | .proc k, .dead => s.started k = true ∧ s.on (.proc k) = none
  | .sched c, .idle => s.on (.sched c) = some c ∧ s.cur c = none ∧ s.lock ≠ some c
  | .sched c, .scan => s.on (.sched c) = some c ∧ s.cur c = none ∧ s.lock = some c
  | .sched c, .pick i => s.on (.sched c) = some c ∧ s.cur c = some i ∧ s.lock = some c ∧
      (s.proc i).state = .runnable ∧ s.on (.proc (s.proc i).context) = none
  | .sched c, .lift i => s.on (.sched c) = some c ∧ s.cur c = some i ∧ s.lock = some c ∧
      (s.proc i).state = .running ∧ s.on (.proc (s.proc i).context) = none
  | .sched c, .sent => ∀ c', s.on (.sched c) = some c' → c' = c ∧ s.lock = some c ∧
      ∀ i, s.cur c = some i → (s.proc i).state ≠ .running
  | _, _ => False

/-- How threads, CPUs and processes fit together. -/
structure Cpus (at' : Thread κ → At) (s : State κ) : Prop where
  own : ∀ t, Own s t (at' t)
  one : ∀ t t' c, s.on t = some c → s.on t' = some c → t = t'
  inj : ∀ c c' i, s.cur c = some i → s.cur c' = some i → c = c'
  run : ∀ i, (s.proc i).state = .running → ∃ c, s.cur c = some i
  cur : ∀ c i, s.cur c = some i → (s.proc i).state = .running ∨ s.lock = some c
  live : ∀ i, Live (s.proc i) → s.slot (s.proc i).context = i ∧ (s.proc i).context < s.born ∧
    at' (.proc (s.proc i).context) ≠ .dead ∧ at' (.proc (s.proc i).context) ≠ .gone
  fresh : ∀ k, s.born ≤ k → at' (.proc k) = .unborn ∧ s.on (.proc k) = none

/-- What can happen to a slot by a step of a thread that has not to do with it. -/
structure Mild (p p' : Proc) : Prop where
  context : p'.context = p.context
  state : p'.state = p.state ∨ (p.state = .sleeping ∧ p'.state = .runnable) ∨
    (p.state = .unused ∧ p'.state = .embryo) ∨ (p.state = .embryo ∧ p'.state = .unused) ∨
    (p.state = .embryo ∧ p'.state = .runnable) ∨ (p.state = .zombie ∧ p'.state = .unused)

theorem Mild.refl (p : Proc) : Mild p p := ⟨rfl, .inl rfl⟩

/-- The slot is that of the thread. -/
def Mine (s : State κ) (t : Thread κ) (i : Slot) : Prop :=
  ∃ k, t = .proc k ∧ s.slot k = i ∧ (s.proc i).context = k

/-- What a step of thread `t` on CPU `c` leaves alone, if it is not a switch. -/
structure Stays (s s' : State κ) (t : Thread κ) (c : κ) : Prop where
  on : s'.on = s.on
  cur : s'.cur = s.cur
  slot : s'.slot = s.slot
  started : ∀ k, t ≠ .proc k → s'.started k = s.started k
  lock : s'.lock = s.lock ∨ (s.lock = none ∧ s'.lock = some c) ∨ (s.lock = some c ∧ s'.lock = none)
  proc : ∀ i, Mine s t i ∨ Mild (s.proc i) (s'.proc i)
  reap : ∀ i, (s.proc i).state = .zombie → (s'.proc i).state = .zombie ∨ s.lock = some c
  running : ∀ i, (s'.proc i).state = .running → (s.proc i).state = .running

theorem Mild.of_running (h : Mild p p') (hp : p.state = .running) :
    p'.state = .running := by
  rcases h.state with h | h | h | h | h | h <;> simp_all

theorem Mild.of_waiting (h : Mild p p') (hp : p.state = .runnable ∨ p.state = .sleeping) :
    p'.state = .runnable ∨ p'.state = .sleeping := by
  rcases h.state with h | h | h | h | h | h <;> simp_all

theorem Mild.of_live (h : Mild p p') (hp : Live p) : Live p' := by
  rw [Live] at hp ⊢
  rcases h.state with h | h | h | h | h | h <;> simp_all

namespace Stays

variable {s s' : State κ} {t : Thread κ} {c c' : κ} {k : ℕ} (h : Stays s s' t c)

include h

theorem lock_iff (hc : c' ≠ c) : s'.lock = some c' ↔ s.lock = some c' := by
  rcases h.lock with h | ⟨h, h'⟩ | ⟨h, h'⟩ <;> simp_all [Ne.symm hc]

theorem mild (hk : t ≠ .proc k) (hctx : (s.proc (s.slot k)).context = k) :
    Mild (s.proc (s.slot k)) (s'.proc (s'.slot k)) := by
  rw [h.slot]
  refine (h.proc (s.slot k)).resolve_left ?_
  rintro ⟨k', rfl, -, hctx'⟩
  rw [hctx] at hctx'
  exact hk (by rw [hctx'])

theorem runs (hk : t ≠ .proc k) (hr : Runs s k c') : Runs s' k c' :=
  ⟨by rw [h.on, hr.on], by rw [h.cur, h.slot, hr.cur],
    by rw [(h.mild hk hr.context).context, hr.context]⟩

/-- **The other threads stay where they are.** -/
theorem own {t' : Thread κ} {a : At} (hc : s.on t = some c)
    (hone : ∀ t t' c, s.on t = some c → s.on t' = some c → t = t') (ht : t' ≠ t)
    (hown : Own s t' a) : Own s' t' a := by
  have hcpu : ∀ c', s.on t' = some c' → c' ≠ c := by
    rintro c' hc' rfl
    exact ht (hone _ _ _ hc' hc)
  cases t' with
  | proc k =>
    have hk := Ne.symm ht
    have hstart := h.started k hk
    -- what holds of a thread when it has been switched to
    have hback : ∀ c', s.on (.proc k) = some c' → Runs s k c' → s.lock = some c' →
        (s.proc (s.slot k)).state = .running →
        Runs s' k c' ∧ s'.lock = some c' ∧ (s'.proc (s'.slot k)).state = .running :=
      fun c' hc' hr hlock hstate => ⟨h.runs hk hr, (h.lock_iff (hcpu c' hc')).mpr hlock,
        (h.mild hk hr.context).of_running hstate⟩
    cases a with
    | unborn =>
      obtain ⟨hs, hr⟩ := hown
      refine ⟨by rw [hstart, hs], fun c' hc' => ?_⟩
      rw [h.on] at hc'
      obtain ⟨hruns, hlock, hstate⟩ := hr c' hc'
      exact hback c' hc' hruns hlock hstate
    | run held =>
      obtain ⟨hs, c', hr, hlock, hstate⟩ := hown
      exact ⟨by rw [hstart, hs], c', h.runs hk hr, (h.lock_iff (hcpu c' hr.on)).trans hlock,
        (h.mild hk hr.context).of_running hstate⟩
    | leave =>
      obtain ⟨hs, c', hr, hlock, hstate⟩ := hown
      exact ⟨by rw [hstart, hs], c', h.runs hk hr, (h.lock_iff (hcpu c' hr.on)).mpr hlock,
        (h.mild hk hr.context).of_waiting hstate⟩
    | gone =>
      obtain ⟨hs, c', hr, hlock, hstate⟩ := hown
      refine ⟨by rw [hstart, hs], c', h.runs hk hr, (h.lock_iff (hcpu c' hr.on)).mpr hlock, ?_⟩
      rw [h.slot]
      refine (h.reap _ hstate).resolve_right fun hlock' => hcpu c' hr.on ?_
      exact Option.some.inj (hlock.symm.trans hlock')
    | away =>
      obtain ⟨hs, hctx, hlive, hr⟩ := hown
      have hmild := h.mild hk hctx
      refine ⟨by rw [hstart, hs], by rw [hmild.context, hctx], hmild.of_live hlive,
        fun c' hc' => ?_⟩
      rw [h.on] at hc'
      obtain ⟨hruns, hlock, hstate⟩ := hr c' hc'
      exact hback c' hc' hruns hlock hstate
    | dead => exact ⟨by rw [hstart, hown.1], by rw [h.on, hown.2]⟩
    | _ => exact hown
  | sched c' =>
    -- a process that is not executed is not the one that moves
    have hmild : ∀ i, s.on (.proc (s.proc i).context) = none → Mild (s.proc i) (s'.proc i) := by
      intro i hi
      refine (h.proc i).resolve_left ?_
      rintro ⟨k, rfl, -, hctx⟩
      rw [hctx, hc] at hi
      cases hi
    cases a with
    | idle =>
      obtain ⟨hon, hcur, hlock⟩ := hown
      exact ⟨by rw [h.on, hon], by rw [h.cur, hcur], mt (h.lock_iff (hcpu c' hon)).mp hlock⟩
    | scan =>
      obtain ⟨hon, hcur, hlock⟩ := hown
      exact ⟨by rw [h.on, hon], by rw [h.cur, hcur], (h.lock_iff (hcpu c' hon)).mpr hlock⟩
    | pick i =>
      obtain ⟨hon, hcur, hlock, hstate, hoff⟩ := hown
      refine ⟨by rw [h.on, hon], by rw [h.cur, hcur], (h.lock_iff (hcpu c' hon)).mpr hlock, ?_,
        by rw [(hmild i hoff).context, h.on, hoff]⟩
      rcases (hmild i hoff).state with h | h | h | h | h | h <;> simp_all
    | lift i =>
      obtain ⟨hon, hcur, hlock, hstate, hoff⟩ := hown
      exact ⟨by rw [h.on, hon], by rw [h.cur, hcur], (h.lock_iff (hcpu c' hon)).mpr hlock,
        (hmild i hoff).of_running hstate, by rw [(hmild i hoff).context, h.on, hoff]⟩
    | sent =>
      intro c'' hc''
      rw [h.on] at hc''
      obtain ⟨rfl, hlock, hrun⟩ := hown c'' hc''
      refine ⟨rfl, (h.lock_iff (hcpu _ hc'')).mpr hlock, fun i hi hstate => ?_⟩
      rw [h.cur] at hi
      exact hrun i hi (h.running i hstate)
    | _ => exact hown

end Stays

theorem Own.runs {s : State κ} {k : ℕ} {a : At} (h : Own s (.proc k) a)
    (hc : s.on (.proc k) = some c) : Runs s k c := by
  have hcpu : ∀ c', Runs s k c' → Runs s k c := fun c' hr => by
    obtain rfl : c' = c := Option.some.inj (hr.on.symm.trans hc)
    exact hr
  cases a with
  | unborn => exact (h.2 c hc).1
  | run held => exact hcpu _ h.2.choose_spec.1
  | leave => exact hcpu _ h.2.choose_spec.1
  | gone => exact hcpu _ h.2.choose_spec.1
  | away => exact (h.2.2.2 c hc).1
  | dead => cases hc.symm.trans h.2
  | _ => exact h.elim

variable [DecidableEq κ] {t : Thread κ} {s s' : State κ} {x : At}

/-- **A step that is not a switch.** -/
theorem Cpus.stays {a : Thread κ → At} (h : Cpus a s) (hs : Stays s s' t c) (hc : s.on t = some c)
    (hborn : s'.born = s.born) (hown : Own s' t x)
    (hcur : ∀ i, s.cur c = some i → (s'.proc i).state = .running ∨ s'.lock = some c)
    (hlive : ∀ i, Live (s'.proc i) → s.slot (s'.proc i).context = i ∧ (s'.proc i).context < s.born ∧
      update a t x (.proc (s'.proc i).context) ≠ .dead ∧
      update a t x (.proc (s'.proc i).context) ≠ .gone) : Cpus (update a t x) s' where
  own := fun t' => by
    by_cases ht : t' = t
    · subst ht
      rwa [update_self]
    · rw [update_of_ne ht]
      exact hs.own hc h.one ht (h.own t')
  one := by
    rw [hs.on]
    exact h.one
  inj := by
    rw [hs.cur]
    exact h.inj
  run := fun i hi => by
    rw [hs.cur]
    exact h.run i (hs.running i hi)
  cur := fun c' i hi => by
    rw [hs.cur] at hi
    by_cases hcc : c' = c
    · subst hcc
      exact hcur i hi
    · refine (h.cur c' i hi).imp (fun hstate => ?_) (hs.lock_iff hcc).mpr
      rcases hs.proc i with ⟨k, rfl, rfl, hctx⟩ | hmild
      · exact absurd (h.inj c' c _ hi ((h.own (.proc k)).runs hc).cur) hcc
      · exact hmild.of_running hstate
  live := fun i hi => by
    rw [hs.slot, hborn]
    exact hlive i hi
  fresh := fun k hk => by
    rw [hborn] at hk
    obtain ⟨hunborn, hoff⟩ := h.fresh k hk
    have ht : .proc k ≠ t := by
      rintro rfl
      rw [hoff] at hc
      cases hc
    rw [update_of_ne ht, hs.on]
    exact ⟨hunborn, hoff⟩

theorem Cpus.live_update {a : Thread κ → At} (h : Cpus a s) (hx : x ≠ .dead ∧ x ≠ .gone)
    (hlive : ∀ i, Live (s'.proc i) → Live (s.proc i) ∧ (s'.proc i).context = (s.proc i).context)
    (i : Slot) (hi : Live (s'.proc i)) :
    s.slot (s'.proc i).context = i ∧ (s'.proc i).context < s.born ∧
      update a t x (.proc (s'.proc i).context) ≠ .dead ∧
      update a t x (.proc (s'.proc i).context) ≠ .gone := by
  obtain ⟨hold, hctx⟩ := hlive i hi
  obtain ⟨hslot, hlt, hdead, hgone⟩ := h.live i hold
  rw [hctx]
  refine ⟨hslot, hlt, ?_⟩
  by_cases ht : .proc (s.proc i).context = t
  · subst ht
    rwa [update_self]
  · rw [update_of_ne ht]
    exact ⟨hdead, hgone⟩

/-! ### Switching -/

omit [DecidableEq κ] in
theorem Own.switch {a : At} (hown : Own s t a) (hlock : s.lock = some c) (hlock' : s'.lock = s.lock)
    (hslot : s'.slot = s.slot) (hstart : s'.started = s.started) (hon : s'.on t = s.on t)
    (hoff : s.on t ≠ some c) (hcur : ∀ c', c' ≠ c → s'.cur c' = s.cur c')
    (hproc : ∀ i, (s'.proc i).context = (s.proc i).context ∧ ((s'.proc i).state = (s.proc i).state ∨
      (s.proc i).state = .runnable ∧ (s'.proc i).state = .running)) : Own s' t a := by
  have hother : ∀ c', s.on t = some c' → s.lock ≠ some c' := by
    rintro c' hc' hl
    rw [hlock] at hl
    exact hoff (hl ▸ hc')
  cases t with
  | proc k =>
    cases a with
    | unborn =>
      refine ⟨by rw [hstart, hown.1], fun c' hc' => ?_⟩
      rw [hon] at hc'
      exact absurd (hown.2 c' hc').2.1 (hother c' hc')
    | run held =>
      obtain ⟨hs, c', hr, hheld, hstate⟩ := hown
      have hne : c' ≠ c := by
        rintro rfl
        exact hoff hr.on
      refine ⟨by rw [hstart, hs], c', ⟨by rw [hon, hr.on], by rw [hcur c' hne, hslot, hr.cur],
        by rw [hslot, (hproc _).1, hr.context]⟩, by rw [hlock', hheld], ?_⟩
      rw [hslot]
      rcases (hproc (s.slot k)).2 with h | h
      · rw [h, hstate]
      · exact h.2
    | leave =>
      obtain ⟨-, c', hr, hl, -⟩ := hown
      exact absurd hl (hother c' hr.on)
    | gone =>
      obtain ⟨-, c', hr, hl, -⟩ := hown
      exact absurd hl (hother c' hr.on)
    | away =>
      obtain ⟨hs, hctx, hlive, hr⟩ := hown
      refine ⟨by rw [hstart, hs], by rw [hslot, (hproc _).1, hctx], ?_, fun c' hc' => ?_⟩
      · rw [hslot, Live]
        rcases (hproc (s.slot k)).2 with h | h
        · rwa [h]
        · exact .inr (.inr h.2)
      · rw [hon] at hc'
        exact absurd (hr c' hc').2.1 (hother c' hc')
    | dead => exact ⟨by rw [hstart, hown.1], by rw [hon, hown.2]⟩
    | _ => exact hown
  | sched c' =>
    cases a with
    | idle =>
      obtain ⟨hon', hcur', hl⟩ := hown
      have hne : c' ≠ c := by
        rintro rfl
        exact hoff hon'
      exact ⟨by rw [hon, hon'], by rw [hcur c' hne, hcur'], by rwa [hlock']⟩
    | scan => exact absurd hown.2.2 (hother c' hown.1)
    | pick i => exact absurd hown.2.2.1 (hother c' hown.1)
    | lift i => exact absurd hown.2.2.1 (hother c' hown.1)
    | sent =>
      intro c'' hc''
      rw [hon] at hc''
      obtain ⟨rfl, hl, -⟩ := hown c'' hc''
      exact absurd hl (hother _ hc'')
    | _ => exact hown

section Switch

variable {a : Thread κ → At} {s s' : State κ} {c : κ} (h : Cpus a s)

include h

omit [DecidableEq κ] in
theorem Cpus.off {t t' : Thread κ} (hc : s.on t = some c) (ht : t' ≠ t) : s.on t' ≠ some c :=
  fun hc' => ht (h.one _ _ _ hc' hc)

theorem Cpus.one_swap {t u : Thread κ} (hc : s.on t = some c) (t₁ t₂ : Thread κ) (c' : κ)
    (h₁ : update (update s.on t none) u (some c) t₁ = some c')
    (h₂ : update (update s.on t none) u (some c) t₂ = some c') : t₁ = t₂ := by
  have hother : ∀ t', t' ≠ u → update (update s.on t none) u (some c) t' = some c' → c' ≠ c ∧
        s.on t' = some c' := by
    intro t' hu ht'
    rw [update_of_ne hu] at ht'
    by_cases htt : t' = t
    · rw [htt, update_self] at ht'
      cases ht'
    · rw [update_of_ne htt] at ht'
      refine ⟨?_, ht'⟩
      rintro rfl
      exact h.off hc htt ht'
  by_cases hu₁ : t₁ = u <;> by_cases hu₂ : t₂ = u
  · rw [hu₁, hu₂]
  · rw [hu₁, update_self] at h₁
    exact absurd (Option.some.inj h₁).symm (hother t₂ hu₂ h₂).1
  · rw [hu₂, update_self] at h₂
    exact absurd (Option.some.inj h₂).symm (hother t₁ hu₁ h₁).1
  · exact h.one _ _ _ (hother t₁ hu₁ h₁).2 (hother t₂ hu₂ h₂).2

/-- **CPU `c`, which holds the lock, switches** to another thread or another process. -/
theorem Cpus.switch (hc : s.on t = some c) (hlock : s.lock = some c)
    (hlock' : s'.lock = s.lock) (hslot : s'.slot = s.slot) (hstart : s'.started = s.started)
    (hborn : s'.born = s.born) (hcur : ∀ c', c' ≠ c → s'.cur c' = s.cur c')
    (hproc : ∀ i, (s'.proc i).context = (s.proc i).context ∧ ((s'.proc i).state = (s.proc i).state ∨
      (s.proc i).state = .runnable ∧ (s'.proc i).state = .running))
    (hon : ∀ u, u ≠ t → s'.on u = s.on u ∨ Own s' u (a u)) (hown : Own s' t x)
    (hone : ∀ t t' c, s'.on t = some c → s'.on t' = some c → t = t')
    (hinj : ∀ i c', s'.cur c = some i → c' ≠ c → s.cur c' ≠ some i)
    (hrun : ∀ i, (s'.proc i).state = .running → (s.proc i).state = .running → s.cur c = some i →
      s'.cur c = some i)
    (hrun' : ∀ i, (s'.proc i).state = .running → (s.proc i).state = .runnable → s'.cur c = some i)
    (hdead : x = .dead ∨ x = .gone → a t = .dead ∨ a t = .gone)
    (hfresh : ∀ k, s.born ≤ k → t ≠ .proc k ∧ s'.on (.proc k) = none) : Cpus (update a t x) s' where
  own := fun u => by
    by_cases hu : u = t
    · subst hu
      rwa [update_self]
    · rw [update_of_ne hu]
      rcases hon u hu with hsame | hu'
      · exact (h.own u).switch hlock hlock' hslot hstart hsame (h.off hc hu) hcur hproc
      · exact hu'
  one := hone
  inj := fun c₁ c₂ i h₁ h₂ => by
    by_cases hc₁ : c₁ = c <;> by_cases hc₂ : c₂ = c
    · rw [hc₁, hc₂]
    · rw [hc₁] at h₁
      rw [hcur c₂ hc₂] at h₂
      exact absurd h₂ (hinj i c₂ h₁ hc₂)
    · rw [hc₂] at h₂
      rw [hcur c₁ hc₁] at h₁
      exact absurd h₁ (hinj i c₁ h₂ hc₁)
    · rw [hcur c₁ hc₁] at h₁
      rw [hcur c₂ hc₂] at h₂
      exact h.inj c₁ c₂ i h₁ h₂
  run := fun i hi => by
    rcases (hproc i).2 with hsame | hnew
    · rw [hsame] at hi
      obtain ⟨c', hc'⟩ := h.run i hi
      by_cases hcc : c' = c
      · subst hcc
        exact ⟨c', hrun i (hsame.trans hi) hi hc'⟩
      · exact ⟨c', by rw [hcur c' hcc, hc']⟩
    · exact ⟨c, hrun' i hi hnew.1⟩
  cur := fun c' i hi => by
    by_cases hcc : c' = c
    · right
      rw [hlock', hlock, hcc]
    · rw [hcur c' hcc] at hi
      refine (h.cur c' i hi).imp (fun hstate => ?_) fun hl => by rw [hlock', hl]
      rcases (hproc i).2 with hsame | hnew
      · rw [hsame, hstate]
      · exact hnew.2
  live := fun i hi => by
    have hold : Live (s.proc i) := by
      rw [Live] at hi ⊢
      rcases (hproc i).2 with hsame | hnew
      · rwa [hsame] at hi
      · exact .inl hnew.1
    obtain ⟨hs, hlt, hd, hg⟩ := h.live i hold
    rw [(hproc i).1, hslot, hborn]
    refine ⟨hs, hlt, ?_⟩
    by_cases ht : .proc (s.proc i).context = t
    · subst ht
      rw [update_self]
      exact ⟨fun hx => (hdead (.inl hx)).elim hd hg, fun hx => (hdead (.inr hx)).elim hd hg⟩
    · rw [update_of_ne ht]
      exact ⟨hd, hg⟩
  fresh := fun k hk => by
    rw [hborn] at hk
    obtain ⟨ht, hon'⟩ := hfresh k hk
    rw [update_of_ne (Ne.symm ht)]
    exact ⟨(h.fresh k hk).1, hon'⟩

theorem Cpus.pick (ha : a (.sched c) = .scan) (hi : (s.proc i).state = .runnable) :
    Cpus (update a (.sched c) (.pick i)) { s with cur := update s.cur c (some i) } := by
  obtain ⟨hon, hcur, hlock⟩ : Own s (.sched c) .scan := ha ▸ h.own _
  -- nobody has this process
  have hnone : ∀ c', s.cur c' ≠ some i := fun c' hc' => by
    rcases h.cur c' i hc' with hrun | hl
    · rw [hi] at hrun
      cases hrun
    · rw [hlock] at hl
      cases hl
      rw [hcur] at hc'
      cases hc'
  have hoff : s.on (.proc (s.proc i).context) = none := by
    by_contra hne
    obtain ⟨c', hc'⟩ := Option.ne_none_iff_exists'.mp hne
    have hr := ((h.own (.proc (s.proc i).context)).runs hc').cur
    rw [(h.live i (.inl hi)).1] at hr
    exact hnone c' hr
  refine h.switch hon hlock rfl rfl rfl rfl (fun c' hc' => update_of_ne hc' ..)
    (fun _ => ⟨rfl, .inl rfl⟩) (fun _ _ => .inl rfl) ?_ h.one ?_ ?_ ?_ (by simp) fun k hk => ?_
  · exact ⟨hon, update_self .., hlock, hi, hoff⟩
  · intro j c' hj _
    simp only [update_self] at hj
    rw [← hj]
    exact hnone c'
  · intro j _ _ hj
    rw [hcur] at hj
    cases hj
  · intro j hj hj'
    rw [hj'] at hj
    cases hj
  · exact ⟨nofun, (h.fresh k hk).2⟩

theorem Cpus.lift (ha : a (.sched c) = .pick i) :
    Cpus (update a (.sched c) (.lift i)) (s.setState i .running) := by
  obtain ⟨hon, hcur, hlock, hi, hoff⟩ : Own s (.sched c) (.pick i) := ha ▸ h.own _
  have hproc : ∀ j, ((s.setState i .running).proc j).context = (s.proc j).context ∧
      (((s.setState i .running).proc j).state = (s.proc j).state ∨
        (s.proc j).state = .runnable ∧ ((s.setState i .running).proc j).state = .running) := by
    intro j
    by_cases hj : j = i
    · subst hj
      simp [setState, setProc, hi]
    · simp [setState, setProc, hj]
  refine h.switch hon hlock rfl rfl rfl rfl (fun _ _ => rfl) hproc (fun _ _ => .inl rfl) ?_
    h.one ?_ ?_ ?_ (by simp) fun k hk => ?_
  · refine ⟨hon, hcur, hlock, ?_, ?_⟩
    · simp [setState, setProc]
    · rw [(hproc i).1]
      exact hoff
  · intro j c' hj hc' hcur'
    exact hc' (h.inj c' c j hcur' hj)
  · intro j _ _ hj
    exact hj
  · intro j hj hj'
    by_cases hji : j = i
    · rw [hji]
      exact hcur
    · simp [setState, setProc, hji, hj'] at hj
  · exact ⟨nofun, (h.fresh k hk).2⟩

theorem Cpus.swtch (ha : a (.sched c) = .lift i) :
    Cpus (update a (.sched c) .sent) { s with
      on := update (update s.on (.sched c) none) (.proc (s.proc i).context)
        (some c) } := by
  obtain ⟨hon, hcur, hlock, hi, hoff⟩ : Own s (.sched c) (.lift i) := ha ▸ h.own _
  obtain ⟨hslot, hlt, hdead, hgone⟩ := h.live i (.inr (.inr hi))
  -- what the thread of the process is told when it goes on
  have hback : ∀ s' : State κ, s'.on (.proc (s.proc i).context) = some c → s'.cur = s.cur →
      s'.proc = s.proc → s'.slot = s.slot → s'.lock = s.lock → ∀ c',
      s'.on (.proc (s.proc i).context) = some c' → Runs s' (s.proc i).context c' ∧
        s'.lock = some c' ∧ (s'.proc (s'.slot (s.proc i).context)).state = .running := by
    intro s' hon' hcur' hproc' hslot' hlock' c' hc'
    obtain rfl : c = c' := Option.some.inj (hon'.symm.trans hc')
    exact ⟨⟨hc', by rw [hcur', hslot', hslot, hcur], by rw [hproc', hslot', hslot]⟩,
      by rw [hlock', hlock], by rw [hproc', hslot', hslot, hi]⟩
  refine h.switch hon hlock rfl rfl rfl rfl (fun _ _ => rfl) (fun _ => ⟨rfl, .inl rfl⟩) ?_ ?_
    (h.one_swap hon) (fun j c' hj hc' hj' => hc' (h.inj c' c j hj' hj)) (fun _ _ _ hj => hj)
    (fun j hj hj' => ?_) (by simp) fun k hk => ⟨nofun, ?_⟩
  · intro u hu
    by_cases hk : u = .proc (s.proc i).context
    · subst hk
      right
      have hown := h.own (.proc (s.proc i).context)
      cases hat : a (.proc (s.proc i).context) with
      | unborn =>
        rw [hat] at hown
        exact ⟨hown.1, hback _ (update_self ..) rfl rfl rfl rfl⟩
      | away =>
        rw [hat] at hown
        exact ⟨hown.1, hown.2.1, hown.2.2.1, hback _ (update_self ..) rfl rfl rfl rfl⟩
      | run held =>
        rw [hat] at hown
        obtain ⟨-, c', hr, -⟩ := hown
        cases hoff.symm.trans hr.on
      | leave =>
        rw [hat] at hown
        obtain ⟨-, c', hr, -⟩ := hown
        cases hoff.symm.trans hr.on
      | dead => exact absurd hat hdead
      | gone => exact absurd hat hgone
      | _ =>
        rw [hat] at hown
        exact hown.elim
    · left
      exact (update_of_ne hk ..).trans (update_of_ne hu ..)
  · intro c' hc'
    simp at hc'
  · rw [hj'] at hj
    cases hj
  · have hne : k ≠ (s.proc i).context := by omega
    exact ((update_of_ne (by simpa using hne) ..).trans
      (update_of_ne (by simp) ..)).trans (h.fresh k hk).2

theorem Cpus.back (ha : a (.sched c) = .sent) (hc : s.on (.sched c) = some c) :
    Cpus (update a (.sched c) .scan) { s with cur := update s.cur c none } := by
  have hown : Own s (.sched c) .sent := ha ▸ h.own _
  obtain ⟨-, hlock, hcur⟩ := hown c hc
  refine h.switch hc hlock rfl rfl rfl rfl (fun c' hc' => update_of_ne hc' ..)
    (fun _ => ⟨rfl, .inl rfl⟩) (fun _ _ => .inl rfl) ⟨hc, update_self .., hlock⟩ h.one ?_ ?_ ?_
    (by simp) fun k hk => ⟨nofun, (h.fresh k hk).2⟩
  · intro j c' hj
    simp at hj
  · intro j _ hj hj'
    exact absurd hj (hcur j hj')
  · intro j hj hj'
    rw [hj'] at hj
    cases hj

theorem Cpus.sched {k : ℕ} (hc : s.on (.proc k) = some c)
    (ha : a (.proc k) = .leave ∧ x = .away ∨ a (.proc k) = .gone ∧ x = .dead) :
    Cpus (update a (.proc k) x) { s with
      on := update (update s.on (.proc k) none) (.sched c) (some c) } := by
  have hown := h.own (.proc k)
  have hr := hown.runs hc
  -- the process is not RUNNING any more
  have hleft : s.started k = true ∧ s.lock = some c ∧ (s.proc (s.slot k)).state ≠ .running := by
    rcases ha with ⟨ha, -⟩ | ⟨ha, -⟩
    · rw [ha] at hown
      obtain ⟨hs, c', hr', hlock, hstate⟩ := hown
      obtain rfl : c' = c := Option.some.inj (hr'.on.symm.trans hc)
      exact ⟨hs, hlock, by rcases hstate with h | h <;> simp [h]⟩
    · rw [ha] at hown
      obtain ⟨hs, c', hr', hlock, hstate⟩ := hown
      obtain rfl : c' = c := Option.some.inj (hr'.on.symm.trans hc)
      exact ⟨hs, hlock, by simp [hstate]⟩
  obtain ⟨hs, hlock, hstate⟩ := hleft
  have hoff : update (update s.on (.proc k) none) (.sched c) (some c) (.proc k) =
      none := (update_of_ne (by simp) ..).trans (update_self ..)
  -- the scheduler of this CPU has been waiting for it
  have hsent : a (.sched c) = .sent := by
    have hsched := h.own (.sched c)
    have hne : s.on (.sched c) ≠ some c := h.off hc nofun
    cases hat : a (.sched c) with
    | sent => rfl
    | idle | scan | pick i | lift i =>
      rw [hat] at hsched
      exact absurd hsched.1 hne
    | _ =>
      rw [hat] at hsched
      exact hsched.elim
  refine h.switch hc hlock rfl rfl rfl rfl (fun _ _ => rfl) (fun _ => ⟨rfl, .inl rfl⟩) ?_ ?_
    (h.one_swap hc) (fun j c' hj hc' hj' => hc' (h.inj c' c j hj' hj)) (fun _ _ _ hj => hj)
    (fun j hj hj' => ?_) ?_ fun k' hk' => ?_
  · intro u hu
    by_cases hcu : u = .sched c
    · subst hcu
      right
      rw [hsent]
      intro c' hc'
      obtain rfl : c = c' := by simpa using hc'
      refine ⟨rfl, hlock, fun i hi => ?_⟩
      obtain rfl : s.slot k = i := Option.some.inj (hr.cur.symm.trans hi)
      exact hstate
    · left
      exact (update_of_ne hcu ..).trans (update_of_ne hu ..)
  · rcases ha with ⟨ha, rfl⟩ | ⟨ha, rfl⟩
    · rw [ha] at hown
      obtain ⟨-, c', -, -, hst⟩ := hown
      refine ⟨hs, hr.context, ?_, fun c' hc' => absurd (hoff.symm.trans hc') nofun⟩
      rw [Live]
      exact hst.imp_right .inl
    · exact ⟨hs, hoff⟩
  · rw [hj'] at hj
    cases hj
  · rcases ha with ⟨-, rfl⟩ | ⟨ha, rfl⟩
    · simp
    · exact fun _ => .inr ha
  · obtain ⟨-, hnone⟩ := h.fresh k' hk'
    have hne : k' ≠ k := by
      rintro rfl
      cases hnone.symm.trans hc
    exact ⟨by simpa using Ne.symm hne, by simp [hne, hnone]⟩

end Switch

/-! ### A thread is set up -/

/-- The state after a thread has been set up for slot `j`. -/
def State.beget (s : State κ) (j : Slot) : State κ :=
  { s.setProc j { s.proc j with context := s.born } with
    born := s.born + 1, slot := update s.slot s.born j }

section Beget

variable {a : Thread κ → At} {s : State κ} {j : Slot}

omit [DecidableEq κ]

theorem State.beget_state (i : Slot) : ((s.beget j).proc i).state = (s.proc i).state := by
  by_cases hi : i = j
  · subst hi
    simp [beget, setProc]
  · simp [beget, setProc, hi]

theorem State.beget_of_ne (hi : i ≠ j) : (s.beget j).proc i = s.proc i :=
  update_of_ne hi ..

theorem Own.beget (h : Own s t x) (hj : (s.proc j).state = .embryo)
    (hborn : s.on (.proc s.born) = none) (hunborn : t = .proc s.born → x = .unborn) :
    Own (s.beget j) t x := by
  have hne : ∀ i, (s.proc i).state ≠ .embryo → i ≠ j := by
    rintro i hi rfl
    exact hi hj
  cases t with
  | proc k =>
    have hruns : ∀ c, Runs s k c → (s.proc (s.slot k)).state ≠ .embryo → Runs (s.beget j) k c ∧
        ((s.beget j).proc ((s.beget j).slot k)).state = (s.proc (s.slot k)).state := by
      intro c hr hstate
      have hk : k ≠ s.born := by
        rintro rfl
        cases hborn.symm.trans hr.on
      have hslot : (s.beget j).slot k = s.slot k := update_of_ne hk ..
      refine ⟨⟨hr.on, by rw [hslot]; exact hr.cur, ?_⟩, by rw [hslot, beget_state]⟩
      rw [hslot, beget_of_ne (hne _ hstate), hr.context]
    have hback : ∀ c, Runs s k c ∧ s.lock = some c ∧ (s.proc (s.slot k)).state = .running →
        Runs (s.beget j) k c ∧ (s.beget j).lock = some c ∧
          ((s.beget j).proc ((s.beget j).slot k)).state = .running := by
      rintro c ⟨hr, hlock, hstate⟩
      obtain ⟨hr', hstate'⟩ := hruns c hr (by simp [hstate])
      exact ⟨hr', hlock, hstate'.trans hstate⟩
    cases x with
    | unborn => exact ⟨h.1, fun c hc => hback c (h.2 c hc)⟩
    | run held =>
      obtain ⟨hs, c, hr, hlock, hstate⟩ := h
      obtain ⟨hr', hstate'⟩ := hruns c hr (by simp [hstate])
      exact ⟨hs, c, hr', hlock, hstate'.trans hstate⟩
    | leave =>
      obtain ⟨hs, c, hr, hlock, hstate⟩ := h
      obtain ⟨hr', hstate'⟩ := hruns c hr (by rcases hstate with h | h <;> simp [h])
      exact ⟨hs, c, hr', hlock, by rwa [hstate']⟩
    | gone =>
      obtain ⟨hs, c, hr, hlock, hstate⟩ := h
      obtain ⟨hr', hstate'⟩ := hruns c hr (by simp [hstate])
      exact ⟨hs, c, hr', hlock, hstate'.trans hstate⟩
    | away =>
      obtain ⟨hs, hctx, hlive, hr⟩ := h
      have hk : k ≠ s.born := by
        rintro rfl
        cases hunborn rfl
      have hslot : (s.beget j).slot k = s.slot k := update_of_ne hk ..
      have hsame : (s.beget j).proc (s.slot k) = s.proc (s.slot k) :=
        beget_of_ne (hne _ (by rcases hlive with h | h | h <;> simp [h]))
      exact ⟨hs, by rw [hslot, hsame, hctx], by rwa [hslot, hsame], fun c hc => hback c (hr c hc)⟩
    | dead => exact h
    | _ => exact h
  | sched c =>
    cases x with
    | idle | scan => exact h
    | pick i =>
      obtain ⟨hon, hcur, hlock, hstate, hoff⟩ := h
      exact ⟨hon, hcur, hlock, by rw [beget_state, hstate],
        by rw [beget_of_ne (hne i (by simp [hstate]))]; exact hoff⟩
    | lift i =>
      obtain ⟨hon, hcur, hlock, hstate, hoff⟩ := h
      exact ⟨hon, hcur, hlock, by rw [beget_state, hstate],
        by rw [beget_of_ne (hne i (by simp [hstate]))]; exact hoff⟩
    | sent =>
      intro c' hc'
      obtain ⟨rfl, hlock, hrun⟩ := h c' hc'
      exact ⟨rfl, hlock, fun i hi => by rw [beget_state]; exact hrun i hi⟩
    | _ => exact h

/-- **A thread is set up** for a process that is being made. -/
theorem Cpus.beget (h : Cpus a s) (hj : (s.proc j).state = .embryo) : Cpus a (s.beget j) where
  own := fun t => by
    obtain ⟨hunborn, hoff⟩ := h.fresh s.born le_rfl
    exact (h.own t).beget hj hoff fun ht => ht ▸ hunborn
  one := h.one
  inj := h.inj
  run := fun i hi => h.run i (by rwa [beget_state] at hi)
  cur := fun c i hi => by
    rw [beget_state]
    exact h.cur c i hi
  live := fun i hi => by
    rw [Live, beget_state] at hi
    have hne : i ≠ j := by
      rintro rfl
      simp [hj] at hi
    obtain ⟨hslot, hlt, hat⟩ := h.live i hi
    rw [beget_of_ne hne]
    exact ⟨(update_of_ne hlt.ne ..).trans hslot, Nat.lt_succ_of_lt hlt, hat⟩
  fresh := fun k hk => h.fresh k (Nat.le_of_succ_le hk)

end Beget

end Xv6.Sched
