import Xv6.Proc.Invariant

/-!
# The functions of `proc.c` keep the invariant
-/

namespace Xv6.Sched

open Concurrent State
open Function (update update_of_ne update_self update_eq_self update_eq_self_iff forall_update_iff)

variable {κ : Type} {few strict : Prop} {t : Thread κ} {k : ℕ} {l : Local} {x : At}

/-! ### Steps -/

variable [DecidableEq κ]

/-- What thread `t` does keeps the invariant. -/
abbrev Does (few strict : Prop) (t : Thread κ) {α : Type} (m : Code κ α) (Q : α → Local → Prop)
    (l : Local) : Prop :=
  Wp (Inv few strict) (contract few strict) t m Q l

variable {β : Type}

theorem onCpu_wp {f : κ → State κ → Except Panic (β × State κ)} {Q : β → Local → Prop}
    (herr : ∀ g s c e, Inv few strict g s → g t = l → s.on t = some c → f c s = .error e →
      e ≠ .zombieExit ∧ e ≠ .twice)
    (hok : ∀ g s c b s', Inv few strict g s → g t = l → s.on t = some c → f c s = .ok (b, s') →
      (few → FewProcs s') ∧ (strict → Spares s'.trace) →
      Honest s s' ∧ ∃ l', Inv few strict (update g t l') s' ∧ Q b l') :
    Does few strict t (onCpu t f) Q l := by
  refine Wp.step (fun g s e hI hg he => ?_) fun g s b s' hI hg hs' hrel => ?_
  · obtain ⟨c, hc, hf⟩ := Option.map_eq_some_iff.mp he
    exact herr g s c e hI hg hc hf
  · obtain ⟨c, hc, hf⟩ := Option.map_eq_some_iff.mp hs'
    exact hok g s c b s' hI hg hc hf hrel

theorem modify_wp {f : State κ → β × State κ} {Q : β → Local → Prop}
    (hok : ∀ g s c, Inv few strict g s → g t = l → s.on t = some c →
      (few → FewProcs (f s).2) ∧ (strict → Spares (f s).2.trace) →
      Honest s (f s).2 ∧ ∃ l', Inv few strict (update g t l') (f s).2 ∧ Q (f s).1 l') :
    Does few strict t (onCpu t fun _ s => .ok (f s)) Q l := by
  refine onCpu_wp (fun g s c e _ _ _ he => by cases he) fun g s c b s' hI hg hc hf hrel => ?_
  obtain ⟨rfl, rfl⟩ := Prod.mk.inj (Except.ok.inj hf)
  exact hok g s c hI hg hc hrel

theorem self_wp {f : Slot → State κ → β × State κ} {Q : β → Local → Prop}
    (hok : ∀ g s c, Inv few strict g s → g (.proc k) = l → Runs s k c →
      (few → FewProcs (f (s.slot k) s).2) ∧ (strict → Spares (f (s.slot k) s).2.trace) →
      Honest s (f (s.slot k) s).2 ∧
        ∃ l', Inv few strict (update g (.proc k) l') (f (s.slot k) s).2 ∧ Q (f (s.slot k) s).1 l') :
    Does few strict (.proc k) (self (.proc k) f) Q l := by
  refine onCpu_wp (fun g s c e hI hg hc he => ?_) fun g s c b s' hI hg hc hf hrel => ?_
  · split at he <;> cases he
    simp
  · have hr := (hI.cpus.own (.proc k)).runs hc
    rw [hr.cur] at hf
    obtain ⟨rfl, rfl⟩ := Prod.mk.inj (Except.ok.inj hf)
    exact hok g s c hI hg hr hrel

/-! ### The lock -/

variable {Q : Unit → Local → Prop}

theorem acquire_wp (hl : l.place = .run false) (hQ : Q () { l with place := .run true }) :
    Does few strict (.proc k : Thread κ) (acquire (.proc k)) Q l := by
  refine Wp.step (fun g s e hI hg he => ?_) fun g s b s' hI hg hs' hrel => ?_
  · obtain ⟨c, hc, hf⟩ := Option.bind_eq_some_iff.mp he
    split_ifs at hf <;> cases hf
    exact ⟨nofun, nofun⟩
  · obtain ⟨c, hc, hf⟩ := Option.bind_eq_some_iff.mp hs'
    split_ifs at hf with hheld hfree <;> cases hf
    have hown := hI.cpus.own (.proc k)
    have hknows := hI.knows (.proc k)
    rw [hg, hl] at hown hknows
    obtain ⟨hst, c', hr, -, hrun⟩ := hown
    obtain rfl : c' = c := Option.some.inj (hr.on.symm.trans hc)
    exact ⟨.quiet rfl, { l with place := .run true }, hI.relock hc (fun _ _ => rfl)
      (.inl ⟨by simpa using hfree, rfl⟩)
      ⟨hst, c', ⟨hr.on, hr.cur, hr.context⟩, by simp, hrun⟩ ⟨nofun, nofun⟩ nofun (by rw [hg])
      (hknows.place (hknows.plain (by simp)) _), hQ⟩

variable {w : Know}

theorem release_wp (hl : l.place = .run true ∨ l.place = .away)
    (hw : w = .nothing ∨ w = .mortal ∧ l.know = .mortal)
    (hQ : Q () { l with place := .run false, know := w }) :
    Does few strict (.proc k : Thread κ) (release (.proc k)) Q l := by
  refine onCpu_wp (fun g s c e hI hg hc he => ?_) fun g s c b s' hI hg hc hf hrel => ?_
  · split_ifs at he
    cases he
    exact ⟨nofun, nofun⟩
  · split_ifs at hf with hlock
    cases hf
    have hlock : s.lock = some c := by simpa using hlock
    have hown := hI.cpus.own (.proc k)
    have hr := hown.runs hc
    have hrun : s.started k = true ∧ (s.proc (s.slot k)).state = .running := by
      rw [hg] at hown
      rcases hl with hl | hl <;> rw [hl] at hown
      · obtain ⟨hst, -, -, -, hrun⟩ := hown
        exact ⟨hst, hrun⟩
      · exact ⟨hown.1, (hown.2.2.2 c hc).2.2⟩
    refine ⟨.quiet rfl, { l with place := .run false, know := w },
      hI.relock hc (fun _ _ => rfl) (.inr ⟨hlock, rfl⟩)
      ⟨hrun.1, c, ⟨hr.on, hr.cur, hr.context⟩, by simp, hrun.2⟩ ⟨nofun, nofun⟩ ?_ (by rw [hg]) ?_,
      hQ⟩
    · intro _ i hi
      obtain rfl : s.slot k = i := Option.some.inj (hr.cur.symm.trans hi)
      exact hrun.2
    · rcases hw with rfl | ⟨rfl, hmortal⟩
      · trivial
      · have hknows := hI.knows (.proc k)
        rw [hg, hmortal] at hknows
        exact hknows

/-- **The scheduler is entered**: the process has given up the CPU for now, or for good. -/
theorem sched_wp (hl : l.place = .leave ∧ x = .away ∨ l.place = .gone ∧ x = .dead)
    (hk : l.know.Plain) (hQ : Q () { l with place := x }) :
    Does few strict (.proc k : Thread κ) (sched (.proc k)) Q l := by
  refine onCpu_wp (fun g s c e hI hg hc he => ?_) fun g s c b s' hI hg hc hf hrel => ?_
  · split_ifs at he
    · cases he
      exact ⟨nofun, nofun⟩
    · split at he
      · cases he
        exact ⟨nofun, nofun⟩
      · split_ifs at he
        cases he
        exact ⟨nofun, nofun⟩
  · split_ifs at hf with hlock
    split at hf
    · cases hf
    · split_ifs at hf
      cases hf
      have hplace : (g (.proc k)).place = .leave ∧ x = .away ∨ (g (.proc k)).place = .gone ∧
          x = .dead := by
        rwa [hg]
      refine ⟨.quiet rfl, { l with place := x }, hI.switch hc (by simpa using hlock)
        (hI.cpus.sched hc hplace) (by rw [hg]) ?_ (fun i => .inl rfl) rfl rfl rfl rfl rfl ?_, hQ⟩
      · rw [hg]
        exact hk.imp_right fun hk => ⟨hk, hk⟩
      · intro k' hst hoff _
        have hne : k' ≠ k := by
          rintro rfl
          cases hoff.symm.trans hc
        exact ⟨hst, by simp [hne, hoff]⟩

/-! ### Sleeping -/

variable {g : Thread κ → Local} {s : State κ} {c : κ}

omit [DecidableEq κ] in
theorem Inv.running (h : Inv few strict g s)
    (hc : s.on (.proc k) = some c) (hl : (g (.proc k)).place = .run true ∨
      (g (.proc k)).place = .away) :
    s.started k = true ∧ s.lock = some c ∧ (s.proc (s.slot k)).state = .running := by
  have hown := h.cpus.own (.proc k)
  rcases hl with hl | hl <;> rw [hl] at hown
  · obtain ⟨hst, c', hr, hheld, hrun⟩ := hown
    obtain rfl : c' = c := Option.some.inj (hr.on.symm.trans hc)
    exact ⟨hst, hheld.mpr rfl, hrun⟩
  · obtain ⟨hst, -, -, hback⟩ := hown
    exact ⟨hst, (hback c hc).2⟩

/-- **A process changes its own state** and does not end with that. -/
theorem Inv.setMine {p : Proc} (h : Inv few strict g s) (hr : Runs s k c)
    (hl : (g (.proc k)).place = .run true ∨ (g (.proc k)).place = .away)
    (hp : p.pid = (s.proc (s.slot k)).pid ∧ p.parent = (s.proc (s.slot k)).parent ∧
      p.killed = (s.proc (s.slot k)).killed ∧ p.context = k)
    (hx : p.state = .running ∧ x = .run true ∨ (p.state = .runnable ∨ p.state = .sleeping) ∧
      x = .leave)
    (hquiet : p.state = .sleeping → p.chan = some (.proc (s.slot k)) → Quiet s.proc (s.slot k))
    (hw : w = .nothing ∨ w = .mortal ∧ (g (.proc k)).know = .mortal) :
    Inv few strict (update g (.proc k) { g (.proc k) with place := x, know := w })
      (s.setProc (s.slot k) p) := by
  obtain ⟨hst, hlock, hrun⟩ := h.running hr.on hl
  have hlive : Live p := by
    rcases hx with ⟨hp, -⟩ | ⟨hp | hp, -⟩ <;> simp [Live, hp]
  have hupdate : ∀ i, Same (s.proc i) (update s.proc (s.slot k) p i) ∧
      (update s.proc (s.slot k) p i).killed = (s.proc i).killed :=
    (forall_update_iff s.proc fun i q => Same (s.proc i) q ∧ q.killed = (s.proc i).killed).mpr
      ⟨⟨⟨hp.1, hp.2.1, .inr ⟨.inr (.inr hrun), hlive⟩⟩, hp.2.2.1⟩, fun i _ => ⟨.refl _, rfl⟩⟩
  refine h.mine hr hlock hrun hp.2.2.2 ?_ (fun _ => ?_) rfl ?_ ?_ ?_ ?_
  · have hruns : Runs (s.setProc (s.slot k) p) k c :=
      ⟨hr.on, hr.cur, by simp [setProc, hp.2.2.2]⟩
    have hself : ((s.setProc (s.slot k) p).proc (s.slot k)).state = p.state := by simp [setProc]
    rcases hx with ⟨hp, rfl⟩ | ⟨hp, rfl⟩
    · exact ⟨hst, c, hruns, by simpa [setProc] using hlock, hself.trans hp⟩
    · refine ⟨hst, c, hruns, hlock, ?_⟩
      rw [← hself] at hp
      exact hp
  · rcases hx with ⟨-, rfl⟩ | ⟨-, rfl⟩ <;> simp
  · rcases hw with rfl | ⟨rfl, hmortal⟩
    · exact .inl rfl
    · have hknows := h.knows (.proc k)
      rw [hmortal] at hknows
      obtain ⟨k', hk, -, hne⟩ := hknows
      cases hk
      exact .inr ⟨rfl, hne⟩
  · refine h.family.same (fun i => (hupdate i).1) fun i hi => ?_
    by_cases hik : i = s.slot k
    · subst hik
      rw [Waiting, update_self] at hi
      exact .inr (hquiet hi.1 hi.2)
    · rw [Waiting, update_of_ne hik] at hi
      exact .inl hi
  · exact fun hf => (h.past hf).same fun i => (hupdate i).1
  · exact fun hs => (h.kills hs).same (fun i => (hupdate i).1) fun i => (hupdate i).2

theorem yield_wp (hl : l.place = .run false) (hk : l.know.Plain)
    (hQ : Q () l) : Does few strict (.proc k : Thread κ) (yield (.proc k)) Q l := by
  have hk' : l.know = .nothing ∨ l.know = .mortal ∧ l.know = .mortal := hk.imp_right fun h => ⟨h, h⟩
  refine Wp.bind (acquire_wp hl (Wp.bind (self_wp fun g s c hI hg hr _ => ⟨.quiet rfl, _,
    hI.setMine hr (.inl (by rw [hg])) ⟨rfl, rfl, rfl, hr.context⟩ (.inr ⟨.inl rfl, rfl⟩) nofun
      (w := l.know) (by rw [hg]; exact hk'), ?_⟩)))
  rw [hg]
  refine Wp.bind (sched_wp (.inl ⟨rfl, rfl⟩) hk (release_wp (.inr rfl) hk' ?_))
  rw [← hl]
  exact hQ

/-- **Sleeping.** A process that sleeps in `wait` has no child that is a zombie. -/
theorem doze_wp {chan : Slot → Chan} (hl : l.place = .run true)
    (hchan : l.know = .quiet ∨ ∀ i, chan i ≠ .proc i) (hw : w = .nothing ∨ w = .mortal ∧
      l.know = .mortal)
    (hQ : Q () { l with know := w }) :
    Does few strict (.proc k : Thread κ) (doze (.proc k) chan) Q l := by
  refine Wp.bind (self_wp fun g s c hI hg hr _ => ⟨.quiet rfl, _,
    hI.setMine hr (.inl (by rw [hg, hl])) ⟨rfl, rfl, rfl, hr.context⟩ (.inr ⟨.inr rfl, rfl⟩) ?_
      (w := w) (by rw [hg]; exact hw), ?_⟩)
  · intro _ hself
    rcases hchan with hq | hne
    · have hknows := hI.knows (.proc k)
      rw [hg, hq] at hknows
      obtain ⟨k', hk, -, -, hquiet⟩ := hknows
      cases hk
      exact hquiet
    · exact absurd (Option.some.inj hself) (hne _)
  · rw [hg]
    have hplain : w.Plain := hw.imp_right And.left
    refine Wp.bind (sched_wp (.inl ⟨rfl, rfl⟩) hplain ?_)
    refine self_wp fun g s c hI hg hr _ => ⟨.quiet rfl, _,
      hI.setMine hr (.inr (by rw [hg])) ⟨rfl, rfl, rfl, hr.context⟩
        (.inl ⟨(hI.running hr.on (.inr (by rw [hg]))).2.2, rfl⟩) ?_ (w := w)
        (by rw [hg]; exact hplain.imp_right fun h => ⟨h, h⟩), ?_⟩
    · intro hsleep
      rw [(hI.running hr.on (.inr (by rw [hg]))).2.2] at hsleep
      cases hsleep
    · rw [hg, ← hl]
      exact hQ

theorem sleep_wp {a : ℕ} (hl : l.place = .run false) (hk : l.know.Plain)
    (hQ : Q () l) : Does few strict (.proc k : Thread κ) (sleep (.proc k) a) Q l := by
  have hk' : l.know = .nothing ∨ l.know = .mortal ∧ l.know = .mortal := hk.imp_right fun h => ⟨h, h⟩
  refine Wp.bind (acquire_wp hl (Wp.bind (doze_wp rfl (.inr fun _ => nofun) hk'
    (release_wp (.inl rfl) hk' ?_))))
  rw [← hl]
  exact hQ

theorem Inv.wake {chan : Option Chan}
    (h : Inv few strict g s) (hc : s.on t = some c) (hlock : s.lock = some c)
    (hrun : (g t).place = .run true ∨ (g t).place = .scan)
    (hw : Knows { s with proc := wakeup1 chan s.proc } t (g t).place w) :
    Inv few strict (update g t { g t with know := w }) { s with proc := wakeup1 chan s.proc } := by
  have hsame := wakeup1_same chan s.proc
  have hembryo : ∀ j, (s.proc j).state = .embryo → Embryo (s.proc j) (wakeup1 chan s.proc j) := by
    intro j hj
    rw [wakeup1, if_neg (by simp [hj])]
    exact .refl _
  refine h.table (l := { g t with know := w }) hc hlock rfl hrun (wakeup1_mild chan s.proc)
    (fun i hi hne => absurd ((hsame i).live_iff.mp hi) hne) (fun j hj _ => hembryo j hj)
    (h.kid_same rfl rfl (fun _ hst _ => hst) rfl hembryo) (fun j hj => .inl hj) hw
    (h.family.wakeup1 chan)
    (fun hf => (h.past hf).same hsame) fun hs => (h.kills hs).same hsame fun i => ?_
  rw [wakeup1]
  split_ifs <;> rfl

theorem wakeup_wp {chan : Chan} (hl : l.place = .run false) (hk : l.know.Plain) (hQ : Q () l) :
    Does few strict (.proc k : Thread κ) (wakeup (.proc k) chan) Q l := by
  refine Wp.bind (acquire_wp hl (Wp.bind (modify_wp fun g s c hI hg hc _ =>
    ⟨.quiet rfl, _, hI.wake hc (hI.running hc (.inl (by rw [hg]))).2.1 (.inl (by rw [hg]))
      (w := l.know) ?_, ?_⟩)))
  · have hknows := hI.knows (.proc k)
    rw [hg] at hknows ⊢
    rcases hk with hk | hk <;> rw [hk] at hknows ⊢
    · trivial
    · exact hknows
  · rw [hg]
    refine release_wp (.inl rfl) (hk.imp_right fun h => ⟨h, h⟩) ?_
    rw [← hl]
    exact hQ

theorem work_wp {ws : List Work} (hl : l.place = .run false)
    (hk : l.know.Plain) (hQ : Q () l) :
    Does few strict (.proc k : Thread κ) (work (.proc k) ws) Q l := by
  induction ws with
  | nil => exact hQ
  | cons w ws ih =>
    cases w with
    | yield => exact Wp.bind (yield_wp hl hk ih)
    | sleep a => exact Wp.bind (sleep_wp hl hk ih)
    | wakeup chan => exact Wp.bind (wakeup_wp hl hk ih)

/-! ### Making a process -/

variable {j : Slot}

/-- **A slot is allocated.** -/
theorem Inv.alloc (h : Inv few strict g s)
    (hc : s.on (.proc k) = some c) (hl : (g (.proc k)).place = .run true)
    (hk : (g (.proc k)).know = .nothing) (hj : (s.proc j).state = .unused)
    (hlt : few → s.nextpid + 1 < 2 ^ 31) :
    Inv few strict (update g (.proc k) { g (.proc k) with child := .raw j })
      (({ s.setProc j { s.proc j with state := .embryo, pid := s.nextpid } with
        nextpid := incr s.nextpid }).note (.assigned s.nextpid j)) := by
  have hne : ∀ i, (s.proc i).state = .embryo → i ≠ j := by
    rintro i hi rfl
    rw [hj] at hi
    cases hi
  refine h.table (l := { g (.proc k) with child := .raw j }) hc (h.running hc (.inl hl)).2.1 rfl
    (.inl hl)
    ?_ (fun i hi hold => ?_) (fun i hi _ => ?_) ?_ (fun j' hj' => ?_) (by rw [hk]; trivial) ?_
    (fun hf => ?_) fun hs => ?_
  · exact (forall_update_iff s.proc fun i q => Mild (s.proc i) q).mpr
      ⟨⟨rfl, by simp [hj]⟩, fun i _ => .refl _⟩
  · by_cases hij : i = j
    · subst hij
      simp [Live, setProc] at hi
    · simp only [setProc, update_of_ne hij] at hi
      exact absurd hi hold
  · simp only [setProc, update_of_ne (hne i hi)]
    exact .refl _
  · simp [Kid, setProc]
  · cases hj'
    exact .inr hj
  · exact h.family.empty (.inl hj) (.inr rfl) (h.family.kin j)
  · rw [incr_eq (h.past hf).nextpid_pos.le (hlt hf)]
    exact (h.past hf).alloc
  · refine (h.kills hs).assign (fun i pid hi hk => ⟨hi.symm, hk⟩) (List.subset_cons_self ..)
      (fun hu => ?_) fun hk => ?_
    · cases hu
    · cases ((h.kills hs j).1 hj).1.symm.trans hk

theorem allocTest_wp {Q : Bool → Local → Prop} (hl : l.place = .run true)
    (hk : l.know = .nothing) (hfalse : Q false l) (htrue : Q true { l with child := .raw j }) :
    Does few strict (.proc k : Thread κ) (allocTest (.proc k) j) Q l := by
  refine onCpu_wp (fun g s c e hI hg hc he => ?_) fun g s c b s' hI hg hc hf hrel => ?_
  · split_ifs at he
  · subst hg
    split_ifs at hf with hj <;> cases hf
    · have hlt : few → s.nextpid + 1 < 2 ^ 31 := by
        intro hf
        have hcount : created (.assigned s.nextpid j :: s.trace) = created s.trace + 1 :=
          List.countP_cons_of_pos rfl
        have hfew : created (.assigned s.nextpid j :: s.trace) < 2 ^ 31 - 1 := hrel.1 hf
        rw [(hI.past hf).count]
        omega
      exact ⟨.cons rfl nofun nofun, _, hI.alloc hc hl hk hj hlt, htrue⟩
    · refine ⟨.quiet rfl, _, ?_, hfalse⟩
      rwa [update_eq_self]

theorem allocLoop_wp {Q : Option Slot → Local → Prop} {js : List Slot} (hl : l.place = .run true)
    (hk : l.know = .nothing) (hnone : Q none l)
    (hsome : ∀ j, Q (some j) { l with child := .raw j }) :
    Does few strict (.proc k : Thread κ) (allocLoop (.proc k) js) Q l := by
  induction js with
  | nil => exact hnone
  | cons j js ih => exact Wp.bind (allocTest_wp hl hk ih (hsome j))

theorem giveUp_wp (hl : l.place = .run false)
    (hk : l.know = .nothing) (hch : l.child.slot = some j) (hQ : Q () { l with child := .none }) :
    Does few strict (.proc k : Thread κ) (giveUp (.proc k) j) Q l := by
  refine modify_wp fun g s c hI hg hc hrel =>
    ⟨.cons rfl nofun nofun, { l with child := .none }, ?_, hQ⟩
  have hstate := (hI.kid (.proc k)).state (j := j) (by rw [hg, hch])
  have hkilled : strict → (s.proc j).killed = false := fun hs =>
    Bool.eq_false_iff.mpr fun hk => hrel.2 hs j ((hI.kills hs j).2 hk).mem
  exact hI.outside (l := { l with child := .none }) hc (by rw [hg, hl]) (by rw [hg, hch]) hstate rfl
    (.inr rfl) (.inl rfl) hl hk (by rintro _ ⟨⟩) trivial
    (hI.family.empty (.inr (.inl hstate)) (.inl rfl) (hI.family.kin j))
    (fun hf => (hI.past hf).fail)
    fun hs => (hI.kills hs).assign (fun _ _ _ => id) (List.subset_cons_self ..)
      (fun _ => ⟨hkilled hs, .inr List.mem_cons_self⟩) fun hk => by cases hk.symm.trans (hkilled hs)

theorem allocproc_wp {Q : Option Slot → Local → Prop} {kstack : Bool} {w : List Work}
    (hl : l.place = .run false) (hk : l.know = .nothing) (hch : l.child = .none) (hnone : Q none l)
    (hsome : ∀ j, Q (some j) { l with child := .ready j }) :
    Does few strict (.proc k : Thread κ) (allocproc (.proc k) kstack w) Q l := by
  refine Wp.bind (acquire_wp hl (Wp.bind (allocLoop_wp rfl hk ?_ fun j => ?_)))
  · refine Wp.bind (release_wp (.inl rfl) (.inl rfl) (Wp.bind (work_wp rfl (.inl rfl) ?_)))
    rw [← hl, ← hk]
    exact hnone
  · refine Wp.bind (release_wp (.inl rfl) (.inl rfl) (Wp.bind (work_wp rfl (.inl rfl) ?_)))
    cases kstack with
    | true =>
      refine Wp.bind (modify_wp fun g s c hI hg hc _ => ⟨.quiet rfl, _,
        hI.beget (l := { l with child := .ready j, place := .run false, know := .nothing }) hc
          (by rw [hg]) (by rw [hg]) rfl rfl, ?_⟩)
      rw [← hl, ← hk]
      exact hsome j
    | false =>
      refine Wp.bind (giveUp_wp rfl rfl rfl ?_)
      rw [← hl, ← hk, ← hch]
      exact hnone

theorem setParent_wp (hl : l.place = .run false)
    (hk : l.know = .nothing) (hch : l.child = .ready j) (hQ : Q () { l with child := .named j }) :
    Does few strict (.proc k : Thread κ)
      (self (.proc k) fun i s => ((), s.setProc j { s.proc j with parent := some i })) Q l := by
  refine self_wp fun g s c hI hg hr _ => ⟨.quiet rfl, { l with child := .named j }, ?_, hQ⟩
  have hown := hI.cpus.own (.proc k)
  have hkid := hI.kid (.proc k)
  rw [hg, hl] at hown
  rw [hg, hch] at hkid
  obtain ⟨-, c', -, -, hrun⟩ := hown
  obtain ⟨hstate, hslot, hlt, hst, hoff⟩ := hkid
  refine hI.outside (l := { l with child := .named j }) hr.on (by rw [hg, hl])
    (by rw [hg, hch]; rfl) hstate
    rfl (.inl hstate) (.inr rfl) hl hk (fun j' hj' => (Option.some.inj hj').symm) ?_
    (hI.family.empty (.inr (.inl hstate)) (.inr hstate) fun q hq => ?_)
    (fun hf => (hI.past hf).set rfl id id) fun hs =>
      (hI.kills hs).assign (fun _ _ _ => id) (List.Subset.refl _) (hI.kills hs j).1
      (hI.kills hs j).2
  · simpa [Kid] using ⟨hstate, hslot, hlt, hst, hoff⟩
  · cases hq
    refine ⟨?_, .inr (.inr hrun)⟩
    rintro rfl
    rw [hrun] at hstate
    cases hstate

theorem read_wp {f : State κ → β} {Q : β → Local → Prop} (hQ : ∀ b, Q b l) :
    Does few strict t (onCpu t fun _ s => .ok (f s, s)) Q l := by
  refine modify_wp fun g s c hI hg hc _ => ⟨.quiet rfl, l, ?_, hQ _⟩
  rwa [← hg, update_eq_self]

/-- **The new process is ready to run.** -/
theorem ready_wp (hl : l.place = .run true)
    (hk : l.know = .nothing) (hch : l.child = .named j) (hQ : Q () { l with child := .none }) :
    Does few strict (.proc k : Thread κ)
      (onCpu (.proc k) fun _ s => .ok ((), s.setState j .runnable)) Q l := by
  refine modify_wp fun g s c hI hg hc _ => ⟨.quiet rfl, { l with child := .none }, ?_, hQ⟩
  have hkid := hI.kid (.proc k)
  rw [hg, hch] at hkid
  obtain ⟨hstate, hslot, hlt, hst, hoff, hpar⟩ := hkid
  have hmild : ∀ i, Mild (s.proc i) (update s.proc j { s.proc j with state := .runnable } i) :=
    (forall_update_iff s.proc fun i q => Mild (s.proc i) q).mpr
      ⟨⟨rfl, by simp [hstate]⟩, fun i _ => .refl _⟩
  refine hI.table (l := { l with child := .none }) hc (hI.running hc (.inl (by rw [hg, hl]))).2.1
    (by rw [hg]) (.inl hl) hmild (fun i hi hold => ?_) (fun i hi hne => ?_) trivial nofun
    (by rw [hk]; trivial) (hI.family.ready hstate hpar)
    (fun hf => (hI.past hf).set rfl nofun fun _ => by simp [hstate])
    fun hs => (hI.kills hs).assign (fun _ _ _ => id) (List.Subset.refl _) nofun (hI.kills hs j).2
  · by_cases hij : i = j
    · subst hij
      exact ⟨hslot, hlt, hst⟩
    · rw [update_of_ne hij] at hi
      exact absurd hi hold
  · have hij : i ≠ j := by
      rintro rfl
      exact hne (by rw [hg, hch]; rfl)
    rw [update_of_ne hij]
    exact .refl _

theorem fork_wp {Q : ℤ → Local → Prop} {kstack pgdir : Bool} {w : ℕ → List Work}
    (hl : l.place = .run false) (hk : l.know = .nothing) (hch : l.child = .none) (hQ : ∀ r, Q r l) :
    Does few strict (.proc k : Thread κ) (fork (.proc k) kstack pgdir w) Q l := by
  refine Wp.bind (allocproc_wp hl hk hch (hQ _) fun j => ?_)
  refine Wp.bind (work_wp hl (.inl hk) ?_)
  cases pgdir with
  | false =>
    refine Wp.bind (giveUp_wp hl hk rfl ?_)
    rw [← hch]
    exact hQ _
  | true =>
    refine Wp.bind
      (setParent_wp hl hk rfl (Wp.bind (work_wp hl (.inl hk) (Wp.bind (read_wp fun pid => ?_)))))
    refine Wp.bind (acquire_wp hl (Wp.bind (ready_wp rfl hk rfl ?_)))
    refine Wp.bind (release_wp (.inl rfl) (.inl rfl) (Wp.bind (work_wp rfl (.inl rfl) ?_)))
    rw [← hl, ← hk, ← hch]
    exact hQ pid

/-! ### Exit -/

theorem Inv.learn (h : Inv few strict g s) (hc : s.on t = some c) (hw : Knows s t (g t).place w) :
    Inv few strict (update g t { g t with know := w }) s := by
  refine h.step hc ?_ (h.kid t) (fun j hj => .inl hj) hw h.family h.past h.kills rfl
    (fun _ _ _ => .refl _)
    (fun _ _ => rfl) le_rfl (fun _ hst hoff _ => ⟨hst, hoff⟩) (.inr fun _ => .inl rfl)
  rw [update_eq_self_iff.mpr rfl]
  exact h.cpus

section

variable (hl : l.place = .run true)

include hl

theorem called_wp (hk : l.know = .mortal) (hQ : Q () { l with know := .called }) :
    Does few strict (.proc k : Thread κ) (self (.proc k) fun i s =>
      ((), { s with proc := wakeup1 ((s.proc i).parent.map .proc) s.proc })) Q l := by
  refine self_wp fun g s c hI hg hr _ => ⟨.quiet rfl, { l with know := .called }, ?_, hQ⟩
  subst hg
  refine hI.wake hr.on (hI.running hr.on (.inl hl)).2.1 (.inl hl) ?_
  have hknows := hI.knows (.proc k)
  rw [hk] at hknows
  obtain ⟨k', hk', hlt, hne⟩ := hknows
  cases hk'
  refine ⟨k, rfl, hlt, hl, hne, fun q hq hw => ?_⟩
  rw [(wakeup1_same _ _ _).parent] at hq
  exact (waiting_wakeup1 hw).2 (by rw [hq]; rfl)

/-- **Children are passed to init.** -/
theorem abandon_wp (hk : l.know = .called) (hQ : Q () { l with know := .alone }) :
    Does few strict (.proc k : Thread κ) (self (.proc k) fun i s =>
      ((), { s with proc := abandon i s.initproc slots s.proc })) Q l := by
  refine self_wp fun g s c hI hg hr _ => ⟨.quiet rfl, { l with know := .alone }, ?_, hQ⟩
  subst hg
  have hknows := hI.knows (.proc k)
  rw [hk] at hknows
  obtain ⟨k', hk', hlt, -, hne, hcalled⟩ := hknows
  cases hk'
  have hab := abandon_abandons hne slots s.proc
  obtain ⟨n, hn, -, -⟩ := hI.family.init
  have hembryo : ∀ j, (s.proc j).state = .embryo →
      Embryo (s.proc j) (abandon (s.slot k) s.initproc slots s.proc j) := by
    intro j hj
    refine ⟨?_, (hab j).context, fun hpar => ?_⟩
    · rw [hj, (hab j).state_iff (.inr (.inl rfl)), hj]
    · rcases (hab j).parent with hp | hp
      · rwa [hp]
      · rw [hp.2, hn]
        exact Option.some_ne_none n
  refine hI.table (l := { g (.proc k) with know := .alone }) hr.on
    (hI.running hr.on (.inl hl)).2.1 rfl
    (.inl hl) (fun i => ⟨(hab i).context, (hab i).state.imp_right .inl⟩)
    (fun i hi hold => absurd ((hab i).live_iff.mp hi) hold) (fun j hj _ => hembryo j hj)
    (hI.kid_same rfl rfl (fun _ hst _ => hst) rfl hembryo) (fun j hj => .inl hj)
    ⟨k, rfl, hlt, hl, hne, fun q hq hw => ?_, fun j => abandon_parent hne (mem_slots j)⟩
    (hI.family.abandon hne)
    (fun hf => (hI.past hf).mono (fun i => (hab i).pid)
      (fun i => ((hab i).state_iff (.inr (.inr rfl))).mp)
      fun i hi => mt ((hab i).state_iff (.inl rfl)).mpr hi)
    fun hs => (hI.kills hs).mono (fun i => (hab i).pid) (fun i => (hab i).killed)
      fun i => ((hab i).state_iff (.inl rfl)).mp
  rcases (hab (s.slot k)).parent with hp | hp
  · rw [hp] at hq
    refine hcalled q hq ⟨?_, by rw [← (hab q).chan]; exact hw.2⟩
    rcases (hab q).state with hst | hst
    · rw [← hst]
      exact hw.1
    · exact hst.1
  · exact (hI.family.kin _ _ hp.1).1 rfl

/-- **The process ends.** -/
theorem zombie_wp (hk : l.know = .alone) (hQ : Q () { l with place := .gone, know := .nothing }) :
    Does few strict (.proc k : Thread κ) (self (.proc k) fun i s =>
      ((), (s.setState i .zombie).note (.exited (s.proc i).pid))) Q l := by
  refine self_wp fun g s c hI hg hr _ => ⟨.cons rfl nofun nofun,
    { l with place := .gone, know := .nothing }, ?_, hQ⟩
  subst hg
  obtain ⟨hst, hlock, hrun⟩ := hI.running hr.on (.inl hl)
  have hknows := hI.knows (.proc k)
  rw [hk] at hknows
  obtain ⟨k', hk', -, -, hne, hcalled, halone⟩ := hknows
  cases hk'
  refine hI.mine (l := { g (.proc k) with place := .gone, know := .nothing }) hr hlock hrun
    hr.context
    ?_ (by simp [Live]) rfl (.inl rfl) (hI.family.zombie hne halone (.inr (.inr hrun)) hcalled)
    (fun hf => (hI.past hf).zombie (by simp [hrun]))
    fun hs => (hI.kills hs).assign (fun _ _ _ => id) (List.subset_cons_self ..) nofun
      (hI.kills hs _).2
  exact ⟨hst, c, ⟨hr.on, hr.cur, by simp [hr.context]⟩, hlock, by simp⟩

end

theorem exit_wp {w : List Work} (hl : l.place = .run false)
    (hk : l.know = .nothing) : Does few strict (.proc k : Thread κ) (exit (.proc k) w) Q l := by
  refine Wp.bind (self_wp fun g s c hI hg hr _ => ?_)
  subst hg
  by_cases hinit : s.initproc = some (s.slot k)
  · refine ⟨.quiet rfl, g (.proc k), by rwa [update_eq_self], ?_⟩
    rw [decide_eq_true hinit]
    exact Wp.panic ⟨by rintro ⟨⟩, by rintro ⟨⟩⟩
  · refine ⟨.quiet rfl, _, hI.learn (w := .mortal) hr.on ⟨k, rfl, hI.lt_born hr.on, hinit⟩, ?_⟩
    rw [decide_eq_false hinit]
    refine Wp.bind (work_wp hl (.inr rfl) (Wp.bind (acquire_wp hl ?_)))
    refine Wp.bind
      (called_wp rfl rfl (Wp.bind (abandon_wp rfl rfl (Wp.bind (zombie_wp rfl rfl ?_)))))
    refine Wp.bind (sched_wp (.inr ⟨rfl, rfl⟩) (.inl rfl) ?_)
    -- the thread is not executed any more
    refine onCpu_wp (fun g s c e hI hg hc _ => ?_) fun g s c b s' _ _ _ hf _ => by cases hf
    have hown := hI.cpus.own (.proc k)
    rw [hg] at hown
    cases hown.2.symm.trans hc

/-! ### Wait -/

/-- **A zombie is freed.** -/
theorem Inv.reap {i j : Slot} (h : Inv few strict g s)
    (hc : s.on (.proc k) = some c) (hl : (g (.proc k)).place = .run true)
    (hk : (g (.proc k)).know = .nothing) (hj : (s.proc j).state = .zombie) :
    Inv few strict g ((s.setProc j (freed (s.proc j))).note (.waited i (s.proc j).pid)) := by
  have hmild : ∀ i, Mild (s.proc i) (update s.proc j (freed (s.proc j)) i) :=
    (forall_update_iff s.proc fun i q => Mild (s.proc i) q).mpr
      ⟨⟨rfl, by simp [freed, hj]⟩, fun i _ => .refl _⟩
  have hembryo : ∀ i, (s.proc i).state = .embryo →
      Embryo (s.proc i) (update s.proc j (freed (s.proc j)) i) := by
    intro i hi
    rw [update_of_ne]
    · exact .refl _
    · rintro rfl
      rw [hj] at hi
      cases hi
  have htable := h.table (l := g (.proc k)) hc (h.running hc (.inl hl)).2.1 rfl (.inl hl) hmild
    (fun i hi hold => ?_) (fun i hi _ => hembryo i hi)
    (h.kid_same rfl rfl (fun _ hst _ => hst) rfl hembryo) (fun j hj => .inl hj)
    (by rw [hk]; trivial)
    (h.family.empty (.inr (.inr hj)) (.inl rfl) nofun) (fun hf => (h.past hf).reap (i := i) hj)
    fun hs => (h.kills hs).assign (fun _ _ _ => id) (List.subset_cons_self ..)
      (fun _ => ⟨rfl, .inl rfl⟩) nofun
  · rwa [update_eq_self] at htable
  · by_cases hij : i = j
    · subst hij
      simp [Live, freed] at hi
    · rw [update_of_ne hij] at hi
      exact absurd hi hold

/-- **A scan of `wait`.** If it finds no zombie, there is none. -/
theorem collect_wp {Q : Option ℤ → Local → Prop} (hl : l.place = .run true) (hk : l.know = .nothing)
    (hsome : ∀ pid, Q (some pid) l) (hnone : Q none { l with know := .quiet }) :
    Does few strict (.proc k : Thread κ) (collect (.proc k)) Q l := by
  refine self_wp fun g s c hI hg hr _ => ?_
  subst hg
  rw [scan]
  match hfind : slots.find? fun j => (s.proc j).parent = some (s.slot k) ∧
    (s.proc j).state = .zombie with
  | some j =>
    have hj := List.find?_some hfind
    simp only [decide_eq_true_eq] at hj
    refine ⟨.cons rfl (fun i pid he => ?_) nofun, g (.proc k), ?_, hsome _⟩
    · obtain ⟨rfl, rfl⟩ := Event.waited.inj he
      exact ⟨j, rfl, hj⟩
    · rw [update_eq_self]
      exact hI.reap hr.on hl hk hj.2
  | none =>
    have hquiet : Quiet s.proc (s.slot k) := by
      intro j hj hz
      have := List.find?_eq_none.mp hfind j (mem_slots j)
      simp [hj, hz] at this
    dsimp only
    split_ifs
    · exact ⟨.quiet rfl, _, hI.learn (w := .quiet) hr.on ⟨k, rfl, hI.lt_born hr.on, hl, hquiet⟩,
        hnone⟩
    · exact ⟨.quiet rfl, g (.proc k), by rwa [update_eq_self], hsome _⟩

theorem waitLoop_wp {Q : ℤ → Local → Prop} {n : ℕ} (hl : l.place = .run true)
    (hk : l.know = .nothing) (hQ : ∀ pid, Q pid { l with place := .run false }) :
    Does few strict (.proc k : Thread κ) (waitLoop (.proc k) n) Q l := by
  induction n with
  | zero => exact fun g s _ _ => ⟨nofun, nofun⟩
  | succ n ih =>
    refine Wp.bind (collect_wp hl hk (fun pid => Wp.bind (release_wp (.inl hl) (.inl rfl) ?_))
      (Wp.bind (doze_wp hl (.inl rfl) (.inl rfl) ?_)))
    · rw [← hk]
      exact hQ pid
    · rw [← hk]
      exact ih

theorem wait_wp {Q : ℤ → Local → Prop} {n : ℕ} (hl : l.place = .run false) (hk : l.know = .nothing)
    (hQ : ∀ pid, Q pid l) : Does few strict (.proc k : Thread κ) (wait (.proc k) n) Q l := by
  refine Wp.bind (acquire_wp hl (waitLoop_wp rfl hk fun pid => ?_))
  rw [← hl]
  exact hQ pid

/-! ### Kill -/

/-- **A process is marked as killed.** -/
theorem Inv.kill {st : ProcState}
    (h : Inv few strict g s) (hc : s.on (.proc k) = some c) (hl : (g (.proc k)).place = .run true)
    (hk : (g (.proc k)).know = .nothing)
    (hst : st = (s.proc j).state ∨ (s.proc j).state = .sleeping ∧ st = .runnable)
    (hu : strict → (s.proc j).state ≠ .unused) :
    Inv few strict g ((s.setProc j { s.proc j with killed := true, state := st }).note
      (.killed (s.proc j).pid j)) := by
  have hupdate : ∀ i, Mild (s.proc i)
        (update s.proc j { s.proc j with killed := true, state := st } i) ∧
      Same (s.proc i) (update s.proc j { s.proc j with killed := true, state := st } i) ∧
      ((s.proc i).state = .embryo →
        Embryo (s.proc i) (update s.proc j { s.proc j with killed := true, state := st } i)) :=
    (forall_update_iff s.proc fun i q =>
      Mild (s.proc i) q ∧ Same (s.proc i) q ∧
      ((s.proc i).state = .embryo → Embryo (s.proc i) q)).mpr
      ⟨⟨⟨rfl, hst.imp_right .inl⟩,
        ⟨rfl, rfl, hst.imp_right fun hs => ⟨.inr (.inl hs.1), .inl hs.2⟩⟩,
        fun he => ⟨hst.resolve_right (by simp [he]), rfl, id⟩⟩,
      fun i _ => ⟨.refl _, .refl _, fun _ => .refl _⟩⟩
  have htable := h.table (l := g (.proc k)) hc (h.running hc (.inl hl)).2.1 rfl (.inl hl)
    (fun i => (hupdate i).1) (fun i hi hold => absurd ((hupdate i).2.1.live_iff.mp hi) hold)
    (fun i hi _ => (hupdate i).2.2 hi)
    (h.kid_same rfl rfl (fun _ hst _ => hst) rfl fun i => (hupdate i).2.2) (fun j hj => .inl hj)
    (by rw [hk]; trivial) (h.family.same (fun i => (hupdate i).2.1) fun i hi => .inl ?_)
    (fun hf => (h.past hf).kill (fun hz => ?_) fun hne => ?_) fun hs => ?_
  · rwa [update_eq_self] at htable
  · by_cases hij : i = j
    · subst hij
      simp only [Waiting, update_self] at hi
      rcases hst with hst | ⟨-, hst⟩
      · exact ⟨by rw [← hst, hi.1], hi.2⟩
      · rw [hst] at hi
        cases hi.1
    · rwa [Waiting, update_of_ne hij] at hi
  · rcases hst with hst | ⟨-, hst⟩
    · rw [← hst, hz]
    · rw [hst] at hz
      cases hz
  · rcases hst with hst | ⟨hsleep, -⟩
    · rwa [← hst]
    · simp [hsleep]
  · refine (h.kills hs).assign (fun _ _ _ => .inr) (List.subset_cons_self ..)
      (fun hst' => ?_) fun _ => .inl ⟨rfl, rfl⟩
    rcases hst with hst | ⟨-, hst⟩
    · exact absurd (hst.symm.trans hst') (hu hs)
    · cases hst.symm.trans hst'

theorem kill_wp {Q : ℤ → Local → Prop} {pid : ℤ} (hl : l.place = .run false)
    (hk : l.know = .nothing)
    (hQ : ∀ r, Q r l) : Does few strict (.proc k : Thread κ) (kill (.proc k) pid) Q l := by
  refine Wp.bind (acquire_wp hl (Wp.bind (onCpu_wp (fun g s c e hI hg hc he => ?_)
    fun g s c b s' hI hg hc hf hrel => ?_)))
  · split at he <;> cases he
  · have hdone : ∀ r, Does few strict (.proc k : Thread κ)
        (release (.proc k) >>= fun _ => (pure r : Code κ ℤ)) Q { l with place := .run true } := by
      intro r
      refine Wp.bind (release_wp (.inl rfl) (.inl rfl) ?_)
      rw [← hl, ← hk]
      exact hQ r
    split at hf <;> cases hf
    · exact ⟨.quiet rfl, g (.proc k), by rwa [update_eq_self], hg ▸ hdone _⟩
    · rename_i j hfind
      have hpid : (s.proc j).pid = pid := by simpa using List.find?_some hfind
      subst hpid
      refine ⟨.cons rfl (by rintro _ _ ⟨⟩) fun p j' he => ?_, g (.proc k), ?_, hg ▸ hdone _⟩
      · obtain ⟨rfl, rfl⟩ := Event.killed.inj he
        rfl
      · rw [update_eq_self]
        refine hI.kill hc (by rw [hg]) (by rw [hg, hk]) ?_ fun hs hu => ?_
        rotate_left
        · exact ((hI.kills hs j).1 hu).2.elim (hrel.2 hs).1 (hrel.2 hs).2
        split_ifs with hsleep
        · exact .inr ⟨hsleep, rfl⟩
        · exact .inl rfl

/-! ### The scheduler -/

section Scheduler

variable {c : κ}

theorem acquire_sched (hl : l.place = .idle) (hk : l.know = .nothing)
    (hQ : Q () { l with place := .scan }) :
    Does few strict (.sched c) (acquire (.sched c)) Q l := by
  refine Wp.step (fun g s e hI hg he => ?_) fun g s b s' hI hg hs' hrel => ?_
  · obtain ⟨c, hc, hf⟩ := Option.bind_eq_some_iff.mp he
    split_ifs at hf <;> cases hf
    exact ⟨nofun, nofun⟩
  · obtain ⟨c', hc, hf⟩ := Option.bind_eq_some_iff.mp hs'
    split_ifs at hf with hheld hfree <;> cases hf
    have hown := hI.cpus.own (.sched c)
    rw [hg, hl] at hown
    obtain rfl : c = c' := Option.some.inj (hown.1.symm.trans hc)
    exact ⟨.quiet rfl, { l with place := .scan }, hI.relock hc (fun _ _ => rfl)
      (.inl ⟨by simpa using hfree, rfl⟩) ⟨hown.1, hown.2.1, rfl⟩ ⟨nofun, nofun⟩ nofun (by rw [hg])
      (by rw [hk]; trivial), hQ⟩

theorem release_sched (hl : l.place = .scan) (hk : l.know = .nothing)
    (hQ : Q () { l with place := .idle }) :
    Does few strict (.sched c) (release (.sched c)) Q l := by
  refine onCpu_wp (fun g s c e hI hg hc he => ?_) fun g s c' b s' hI hg hc hf hrel => ?_
  · split_ifs at he
    cases he
    exact ⟨nofun, nofun⟩
  · split_ifs at hf with hlock
    cases hf
    have hown := hI.cpus.own (.sched c)
    rw [hg, hl] at hown
    obtain rfl : c = c' := Option.some.inj (hown.1.symm.trans hc)
    refine ⟨.quiet rfl, { l with place := .idle }, hI.relock hc (fun _ _ => rfl)
      (.inr ⟨hown.2.2, rfl⟩) ⟨hown.1, hown.2.1, nofun⟩ ⟨nofun, nofun⟩ (fun _ i hi => ?_)
      (by rw [hg]) (by rw [hk]; trivial), hQ⟩
    rw [hown.2.1] at hi
    cases hi

theorem Inv.schedule {s s' : State κ} (h : Inv few strict g s) (hc : s.on (.sched c) = some c)
    (hlock : s.lock = some c) (hk : (g (.sched c)).know = .nothing)
    (hcpus : Cpus (update (fun u => (g u).place) (.sched c) x) s')
    (hproc : ∀ i, s'.proc i = s.proc i ∨ Live (s.proc i) ∧ Same (s.proc i) (s'.proc i) ∧
      (s'.proc i).killed = (s.proc i).killed ∧ (s'.proc i).state ≠ .sleeping)
    (hslot : s'.slot = s.slot) (hborn : s'.born = s.born) (hnext : s'.nextpid = s.nextpid)
    (htr : s'.trace = s.trace) (hinit : s'.initproc = s.initproc) (hstart : s'.started = s.started)
    (hon : ∀ k, s.on (.proc k) = none → (s.proc (s.slot k)).state = .embryo →
      s'.on (.proc k) = none) :
    Inv few strict (update g (.sched c) { g (.sched c) with place := x }) s' :=
  h.switch (l := { g (.sched c) with place := x }) hc hlock hcpus rfl (.inl hk) hproc hslot
    hborn hnext htr hinit fun k hst hoff he => ⟨by rw [hstart, hst], hon k hoff he⟩

/-- **The loop of the scheduler.** -/
theorem schedulerLoop_wp {is : List Slot} (hl : l.place = .scan)
    (hk : l.know = .nothing) (hQ : Q () l) :
    Does few strict (.sched c) (schedulerLoop c is) Q l := by
  induction is with
  | nil => exact hQ
  | cons i is ih =>
    refine Wp.bind (onCpu_wp (fun g s c e hI hg hc he => ?_) fun g s c' b s' hI hg hc hf hrel => ?_)
    · split_ifs at he
    · subst hg
      have hown := hI.cpus.own (.sched c)
      rw [hl] at hown
      obtain rfl : c = c' := Option.some.inj (hown.1.symm.trans hc)
      split_ifs at hf with hi <;> cases hf
      · exact ⟨.quiet rfl, g (.sched c), by rwa [update_eq_self], ih⟩
      · refine ⟨.quiet rfl, _, hI.schedule (x := .pick i) hc hown.2.2 hk
          (hI.cpus.pick hl (by simpa using hi)) (fun _ => .inl rfl) rfl rfl rfl rfl rfl rfl
            fun _ h _ => h, ?_⟩
        -- the process is made RUNNING
        refine Wp.bind (modify_wp fun g₁ s₁ c₁ hI₁ hg₁ hc₁ _ => ?_)
        have hplace : (g₁ (.sched c)).place = .pick i := by rw [hg₁]
        have hown₁ := hI₁.cpus.own (.sched c)
        rw [hplace] at hown₁
        refine ⟨.quiet rfl, _, hI₁.schedule (x := .lift i) hown₁.1 hown₁.2.2.1 (by rw [hg₁, ← hk])
          (hI₁.cpus.lift hplace) (fun j => ?_) rfl rfl rfl rfl rfl rfl fun _ h _ => h, ?_⟩
        · by_cases hji : j = i
          · subst hji
            have hlive : Live (s₁.proc j) := .inl hown₁.2.2.2.1
            refine .inr ⟨hlive, ⟨?_, ?_, .inr ⟨hlive, ?_⟩⟩, ?_, ?_⟩ <;>
              simp [setState, setProc, Live]
          · exact .inl (update_of_ne hji ..)
        rw [hg₁]
        -- the switch to the process
        refine Wp.bind (onCpu_wp (fun g₂ s₂ c₂ e hI₂ hg₂ hc₂ he => ?_)
          fun g₂ s₂ c₂ b s' hI₂ hg₂ hc₂ hf hrel => ?_)
        all_goals
          have hplace : (g₂ (.sched c)).place = .lift i := by rw [hg₂]
          have hown₂ := hI₂.cpus.own (.sched c)
          rw [hplace] at hown₂
          obtain rfl : c = c₂ := Option.some.inj (hown₂.1.symm.trans hc₂)
        · rw [hown₂.2.1] at he
          dsimp only at he
          rw [if_neg (by simp [hown₂.2.2.2.2])] at he
          cases he
        · rw [hown₂.2.1] at hf
          dsimp only at hf
          rw [if_neg (by simp [hown₂.2.2.2.2])] at hf
          cases hf
          refine ⟨.quiet rfl, _, hI₂.schedule (x := .sent) hown₂.1 hown₂.2.2.1 (by rw [hg₂, ← hk])
            (hI₂.cpus.swtch hplace) (fun _ => .inl rfl) rfl rfl rfl rfl rfl rfl
            (fun k' hoff he => ?_), ?_⟩
          · have hne : k' ≠ (s₂.proc i).context := by
              rintro rfl
              rw [(hI₂.cpus.live i (.inr (.inr hown₂.2.2.2.1))).1, hown₂.2.2.2.1] at he
              cases he
            simp [hne, hoff]
          rw [hg₂]
          -- the process is done running for now
          refine Wp.bind (onCpu_wp (fun g₃ s₃ c₃ e _ _ _ he => by cases he)
            fun g₃ s₃ c₃ b s' hI₃ hg₃ hc₃ hf hrel => ?_)
          cases hf
          have hplace : (g₃ (.sched c)).place = .sent := by rw [hg₃]
          have hown₃ := hI₃.cpus.own (.sched c)
          rw [hplace] at hown₃
          obtain ⟨rfl, hlock, -⟩ := hown₃ c₃ hc₃
          refine ⟨.quiet rfl, _, hI₃.schedule (x := .scan) hc₃ hlock (by rw [hg₃, ← hk])
            (hI₃.cpus.back hplace hc₃) (fun _ => .inl rfl) rfl rfl rfl rfl rfl rfl fun _ h _ => h,
            ?_⟩
          rw [hg₃, ← hl]
          exact ih

theorem scheduler_wp (hl : l.place = .idle) (hk : l.know = .nothing)
    (hQ : Q () l) : Does few strict (.sched c) (scheduler c) Q l := by
  refine Wp.bind (acquire_sched hl hk (Wp.bind (schedulerLoop_wp rfl hk (release_sched rfl hk ?_))))
  rw [← hl]
  exact hQ

theorem intr_wp {chan : Chan} (hl : l.place = .idle) (hk : l.know = .nothing)
    (hQ : Q () l) : Does few strict (.sched c) (wakeup (.sched c) chan) Q l := by
  refine Wp.bind (acquire_sched hl hk (Wp.bind (modify_wp fun g s c' hI hg hc _ => ?_)))
  have hown := hI.cpus.own (.sched c)
  rw [hg] at hown
  refine ⟨.quiet rfl, _, hI.wake hown.1 hown.2.2 (.inr (by rw [hg])) (w := .nothing) trivial, ?_⟩
  rw [hg]
  refine release_sched rfl rfl ?_
  rw [← hl, ← hk]
  exact hQ

end Scheduler

/-! ### Threads -/

/-- What a thread knows that has not been called to do anything. -/
structure Idle (l : Local) : Prop where
  place : l.place = .unborn ∨ l.place = .run false ∨ l.place = .idle
  child : l.child = .none
  know : l.know = .nothing

/-- **A process leaves `forkret`.** -/
theorem forkret_wp (hl : Idle l) (hQ : Q () { l with place := .run false }) :
    Does few strict (.proc k : Thread κ) (forkret k) Q l := by
  refine Wp.bind (modify_wp fun g s c hI hg hc _ => ⟨.quiet rfl, l, ?_, ?_⟩)
  · rwa [← hg, update_eq_self]
  · have hown := hI.cpus.own (.proc k)
    rw [hg] at hown
    rcases hl.place with hp | hp | hp
    · rw [hp] at hown
      dsimp only
      rw [hown.1]
      refine onCpu_wp (fun g s c e hI hg hc he => ?_) fun g s c b s' hI hg hc hf hrel => ?_
      · split_ifs at he
        cases he
        exact ⟨nofun, nofun⟩
      · split_ifs at hf with hlock
        cases hf
        have hown := hI.cpus.own (.proc k)
        rw [hg, hp] at hown
        obtain ⟨hr, hlock, hrun⟩ := hown.2 c hc
        refine ⟨.quiet rfl, { l with place := .run false }, hI.relock hc (fun k' hk' => ?_)
          (.inr ⟨hlock, rfl⟩) ⟨update_self .., c, ⟨hr.on, hr.cur, hr.context⟩, by simp, hrun⟩
          ⟨nofun, nofun⟩ (fun _ i hi => ?_) (by rw [hg]) (by rw [hl.know]; trivial), hQ⟩
        · exact update_of_ne (fun heq => hk' (by rw [heq])) ..
        · obtain rfl : s.slot k = i := Option.some.inj (hr.cur.symm.trans hi)
          exact hrun
    · rw [hp] at hown
      dsimp only
      rw [hown.1]
      rw [← hp] at hQ
      exact hQ
    · rw [hp] at hown
      exact hown.elim

/-- **What threads do keeps the invariant.** -/
theorem kernel_wp {a : Call} (hl : Idle l) :
    Does few strict t (kernel t a) (fun _ l => Idle l) l := by
  have hidle : Idle { l with place := .run false } := ⟨.inr (.inl rfl), hl.child, hl.know⟩
  cases t with
  | sched c =>
    -- this is the only place where a scheduler can be
    have hplace : ∀ g s, Inv few strict g s → g (.sched c) = l → l.place = .idle := by
      intro g s hI hg
      have hown := hI.cpus.own (.sched c)
      rw [hg] at hown
      rcases hl.place with hp | hp | hp
      · rw [hp] at hown
        exact hown.elim
      · rw [hp] at hown
        exact hown.elim
      · exact hp
    cases a with
    | round => exact fun g s hI hg => scheduler_wp (hplace g s hI hg) hl.know hl g s hI hg
    | intr chan => exact fun g s hI hg => intr_wp (hplace g s hI hg) hl.know hl g s hI hg
    | _ => exact hl
  | proc k =>
    cases a with
    | round => exact hl
    | intr chan => exact hl
    | fork kstack pgdir w =>
      exact Wp.bind (forkret_wp hl (Wp.bind (fork_wp rfl hl.know hl.child fun _ => hidle)))
    | exit w => exact Wp.bind (forkret_wp hl (exit_wp rfl hl.know))
    | wait n => exact Wp.bind (forkret_wp hl (Wp.bind (wait_wp rfl hl.know fun _ => hidle)))
    | kill pid => exact Wp.bind (forkret_wp hl (Wp.bind (kill_wp rfl hl.know fun _ => hidle)))
    | work w => exact Wp.bind (forkret_wp hl (work_wp rfl (.inl hl.know) hidle))

end Xv6.Sched
