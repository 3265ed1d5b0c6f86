import Xv6.Proc.Threads

/-!
# Parents, children and process IDs
-/

namespace Xv6.Sched

open Function (update update_of_ne update_self forall_update_iff)

/-- The process in slot `i` sleeps in `wait`. -/
def Waiting (f : Slot → Proc) (i : Slot) : Prop :=
  (f i).state = .sleeping ∧ (f i).chan = some (.proc i)

/-- No child of slot `i` is a zombie. -/
def Quiet (f : Slot → Proc) (i : Slot) : Prop := ∀ j, (f j).parent = some i → (f j).state ≠ .zombie

/-- How processes and their parents fit together. -/
structure Family (f : Slot → Proc) (initproc : Option Slot) : Prop where
  parent : ∀ i, Live (f i) ∨ (f i).state = .zombie → initproc ≠ some i → (f i).parent ≠ none
  kin : ∀ i q, (f i).parent = some q → q ≠ i ∧ Live (f q)
  init : ∃ n, initproc = some n ∧ Live (f n) ∧ (f n).parent = none
  quiet : ∀ i, Waiting f i → Quiet f i

/-- What is the same of a process after a step that does not make it or end it. -/
structure Same (p p' : Proc) : Prop where
  pid : p'.pid = p.pid
  parent : p'.parent = p.parent
  state : p'.state = p.state ∨ Live p ∧ Live p'

theorem Same.refl (p : Proc) : Same p p := ⟨rfl, rfl, .inl rfl⟩

variable {p p' : Proc} {tr : List Event}

theorem Same.live_iff (h : Same p p') : Live p' ↔ Live p := by
  rcases h.state with hs | ⟨hp, hp'⟩
  · rw [Live, Live, hs]
  · exact iff_of_true hp' hp

variable {st : ProcState}

theorem Same.state_iff (h : Same p p')
    (hst : st = .unused ∨ st = .embryo ∨ st = .zombie) : p'.state = st ↔ p.state = st := by
  rcases h.state with hs | ⟨hp, hp'⟩
  · rw [hs]
  · rw [Live] at hp hp'
    rcases hst with rfl | rfl | rfl <;> rcases hp with h | h | h <;>
      rcases hp' with h' | h' | h' <;>
      simp [h, h']

variable {f f' : Slot → Proc} {nextpid : ℤ} {initproc : Option Slot} {i j : Slot}

/-- **A step that makes no process and ends none.** -/
theorem Family.same (h : Family f initproc) (hsame : ∀ i, Same (f i) (f' i))
    (hquiet : ∀ i, Waiting f' i → Waiting f i ∨ Quiet f i) : Family f' initproc where
  parent := fun i hi hne => by
    rw [(hsame i).live_iff, (hsame i).state_iff (.inr (.inr rfl))] at hi
    rw [(hsame i).parent]
    exact h.parent i hi hne
  kin := fun i q hq => by
    rw [(hsame i).parent] at hq
    exact (h.kin i q hq).imp_right (hsame q).live_iff.mpr
  init := by
    obtain ⟨n, hn, hlive, hpar⟩ := h.init
    exact ⟨n, hn, (hsame n).live_iff.mpr hlive, by rw [(hsame n).parent, hpar]⟩
  quiet := fun i hi j hj => by
    rw [(hsame j).parent] at hj
    rw [ne_eq, (hsame j).state_iff (.inr (.inr rfl))]
    exact (hquiet i hi).elim (fun hw => h.quiet i hw j hj) fun hq => hq j hj

/-! ### Waking up -/

theorem wakeup1_same (chan : Option Chan) (f : Slot → Proc) (i : Slot) :
    Same (f i) (wakeup1 chan f i) := by
  rw [wakeup1]
  split_ifs with h
  · exact ⟨rfl, rfl, .inr ⟨.inr (.inl h.1), .inl rfl⟩⟩
  · exact .refl _

theorem wakeup1_sleeping {chan : Option Chan} (h : (wakeup1 chan f i).state = .sleeping) :
    wakeup1 chan f i = f i ∧ (f i).chan ≠ chan := by
  rw [wakeup1] at h ⊢
  split_ifs at h ⊢ with hi
  exact ⟨rfl, fun hc => hi ⟨h, hc⟩⟩

theorem wakeup1_mild (chan : Option Chan) (f : Slot → Proc) (i : Slot) :
    Mild (f i) (wakeup1 chan f i) := by
  rw [wakeup1]
  split_ifs with h
  · exact ⟨rfl, .inr (.inl ⟨h.1, rfl⟩)⟩
  · exact .refl _

theorem waiting_wakeup1 {chan : Option Chan} (h : Waiting (wakeup1 chan f) i) :
    Waiting f i ∧ chan ≠ some (.proc i) := by
  obtain ⟨hsame, hchan⟩ := wakeup1_sleeping h.1
  rw [Waiting, hsame] at h
  exact ⟨h, fun hc => hchan (h.2.trans hc.symm)⟩

theorem Family.wakeup1 (h : Family f initproc) (chan : Option Chan) :
    Family (wakeup1 chan f) initproc :=
  h.same (wakeup1_same chan f) fun _ hi => .inl (waiting_wakeup1 hi).1

/-! ### Passing children to init -/

/-- What the loop of `exit` does to a slot. -/
structure Abandons (i : Slot) (initproc : Option Slot) (p p' : Proc) : Prop where
  pid : p'.pid = p.pid
  context : p'.context = p.context
  chan : p'.chan = p.chan
  killed : p'.killed = p.killed
  state : p'.state = p.state ∨ p.state = .sleeping ∧ p'.state = .runnable
  parent : p'.parent = p.parent ∨ p.parent = some i ∧ p'.parent = initproc

theorem Abandons.refl (p : Proc) :
    Abandons i initproc p p := ⟨rfl, rfl, rfl, rfl, .inl rfl, .inl rfl⟩

theorem Abandons.trans {p p' p'' : Proc} (hinit : initproc ≠ some i) (h : Abandons i initproc p p')
    (h' : Abandons i initproc p' p'') : Abandons i initproc p p'' := by
  refine ⟨by rw [h'.pid, h.pid], by rw [h'.context, h.context], by rw [h'.chan, h.chan],
    by rw [h'.killed, h.killed], ?_, ?_⟩
  · rcases h.state with hs | hs <;> rcases h'.state with hs' | hs' <;> simp_all
  · rcases h.parent with hp | hp <;> rcases h'.parent with hp' | hp' <;> simp_all

theorem Abandons.wakeup1 (chan : Option Chan) (f : Slot → Proc) (j : Slot) :
    Abandons i initproc (f j) (wakeup1 chan f j) := by
  rw [Sched.wakeup1]
  split_ifs with h
  · exact ⟨rfl, rfl, rfl, rfl, .inr ⟨h.1, rfl⟩, .inl rfl⟩
  · exact .refl _

theorem Abandons.assign (hj : (f j).parent = some i) (x : Slot) :
    Abandons i initproc (f x) (update f j { f j with parent := initproc } x) := by
  by_cases hx : x = j
  · subst hx
    rw [update_self]
    exact ⟨rfl, rfl, rfl, rfl, .inl rfl, .inr ⟨hj, rfl⟩⟩
  · rw [update_of_ne hx]
    exact .refl _

theorem abandon_abandons (hinit : initproc ≠ some i) (js : List Slot) (f : Slot → Proc) (x : Slot) :
    Abandons i initproc (f x) (abandon i initproc js f x) := by
  induction js generalizing f with
  | nil => exact .refl _
  | cons j js ih =>
    simp only [abandon]
    split_ifs with hj hz
    · exact (Abandons.assign hj x).trans hinit ((Abandons.wakeup1 _ _ x).trans hinit (ih _))
    · exact (Abandons.assign hj x).trans hinit (ih _)
    · exact ih f

theorem abandon_parent (hinit : initproc ≠ some i) {js : List Slot} {x : Slot} (hx : x ∈ js) :
    (abandon i initproc js f x).parent ≠ some i := by
  induction js generalizing f with
  | nil => cases hx
  | cons j js ih =>
    have hkeep : ∀ f' : Slot → Proc, (f' x).parent ≠ some i →
        (abandon i initproc js f' x).parent ≠ some i := by
      intro f' hf'
      rcases (abandon_abandons hinit js f' x).parent with h | h
      · rwa [h]
      · exact absurd h.1 hf'
    rcases List.mem_cons.mp hx with rfl | hx
    · simp only [abandon]
      split_ifs with hj hz
      · refine hkeep _ ?_
        rw [(wakeup1_same _ _ _).parent, update_self]
        exact hinit
      · refine hkeep _ ?_
        rw [update_self]
        exact hinit
      · exact hkeep f hj
    · simp only [abandon]
      split_ifs with hj hz
      · exact ih hx
      · exact ih hx
      · exact ih hx

/-- If init gets a zombie, it does not sleep in `wait`. -/
theorem abandon_quiet {js : List Slot} (h : ∀ x, Waiting f x → Quiet f x) (x : Slot)
    (hx : Waiting (abandon i initproc js f) x) : Quiet (abandon i initproc js f) x := by
  induction js generalizing f with
  | nil => exact h x hx
  | cons j js ih =>
    simp only [abandon] at hx ⊢
    split_ifs at hx ⊢ with hj hz
    all_goals refine ih (fun y hy => ?_) hx
    · obtain ⟨hy, hne⟩ := waiting_wakeup1 hy
      intro z hz' hzombie
      rw [(wakeup1_same _ _ _).parent] at hz'
      rw [(wakeup1_same _ _ _).state_iff (.inr (.inr rfl))] at hzombie
      have hyf : Waiting f y := by
        rw [Waiting] at hy ⊢
        by_cases hyj : y = j
        · subst hyj
          simpa using hy
        · simpa [hyj] using hy
      by_cases hzj : z = j
      · subst hzj
        simp only [update_self] at hz'
        exact hne (by rw [hz']; rfl)
      · rw [update_of_ne hzj] at hz' hzombie
        exact h y hyf z hz' hzombie
    · intro z hz' hzombie
      have hyf : Waiting f y := by
        rw [Waiting] at hy ⊢
        by_cases hyj : y = j
        · subst hyj
          simpa using hy
        · simpa [hyj] using hy
      by_cases hzj : z = j
      · subst hzj
        exact hz hzombie
      · rw [update_of_ne hzj] at hz' hzombie
        exact h y hyf z hz' hzombie
    · exact h y hy

theorem Abandons.live_iff (h : Abandons i initproc p p') : Live p' ↔ Live p := by
  rw [Live, Live]
  rcases h.state with hs | ⟨hs, hs'⟩
  · rw [hs]
  · simp [hs, hs']

theorem Abandons.state_iff (h : Abandons i initproc p p')
    (hst : st = .unused ∨ st = .embryo ∨ st = .zombie) : p'.state = st ↔ p.state = st := by
  rcases h.state with hs | ⟨hs, hs'⟩
  · rw [hs]
  · rcases hst with rfl | rfl | rfl <;> simp [hs, hs']

/-- **Abandoned children are passed to init.** -/
theorem Family.abandon (h : Family f initproc) (hinit : initproc ≠ some i) :
    Family (abandon i initproc slots f) initproc := by
  have hab := abandon_abandons hinit slots f
  obtain ⟨n, hn, hlive, hpar⟩ := h.init
  refine ⟨fun x hx hne => ?_, fun x q hq => ?_, ?_, ?_⟩
  · rw [(hab x).live_iff, (hab x).state_iff (.inr (.inr rfl))] at hx
    rcases (hab x).parent with hp | hp
    · rw [hp]
      exact h.parent x hx hne
    · rw [hp.2, hn]
      exact Option.some_ne_none n
  · rw [(hab q).live_iff]
    rcases (hab x).parent with hp | hp
    · rw [hp] at hq
      exact h.kin x q hq
    · rw [hp.2, hn] at hq
      cases hq
      refine ⟨?_, hlive⟩
      rintro rfl
      cases hpar.symm.trans hp.1
  · refine ⟨n, hn, (hab n).live_iff.mpr hlive, ?_⟩
    rcases (hab n).parent with hp | hp
    · rw [hp, hpar]
    · cases hpar.symm.trans hp.1
  · exact fun x => abandon_quiet h.quiet x

/-! ### One slot changes -/

variable {p : Proc}

theorem Quiet.assign (h : Quiet f i) (hp : p.parent = some i → p.state ≠ .zombie) :
    Quiet (update f j p) i := by
  intro x hx
  by_cases hxj : x = j
  · subst hxj
    rw [update_self] at hx ⊢
    exact hp hx
  · rw [update_of_ne hxj] at hx ⊢
    exact h x hx

/-- **One slot changes**, in which there was no live process, or one that has no children. -/
theorem Family.assign (h : Family f initproc)
    (hj : Live (f j) → initproc ≠ some j ∧ ∀ x, (f x).parent ≠ some j)
    (hpar : Live p ∨ p.state = .zombie → initproc ≠ some j → p.parent ≠ none)
    (hkin : ∀ q, p.parent = some q → q ≠ j ∧ Live (f q))
    (hquiet : p.state = .zombie → ∀ q, p.parent = some q → ¬Waiting f q)
    (hwait : p.state ≠ .sleeping) : Family (update f j p) initproc := by
  have hlive : ∀ q, q ≠ j → Live (f q) → Live (update f j p q) := by
    intro q hqj hq
    rwa [update_of_ne hqj]
  refine ⟨?_, ?_, ?_, fun x hx => ?_⟩
  · exact (forall_update_iff f fun x q =>
      Live q ∨ q.state = .zombie → initproc ≠ some x → q.parent ≠ none).mpr
        ⟨hpar, fun x _ => h.parent x⟩
  · refine (forall_update_iff f fun x p' => ∀ q, p'.parent = some q →
      q ≠ x ∧ Live (update f j p q)).mpr ⟨fun q hq => ?_, fun x _ q hq => ?_⟩
    · obtain ⟨hqj, hlive'⟩ := hkin q hq
      exact ⟨hqj, hlive q hqj hlive'⟩
    · obtain ⟨hqx, hlive'⟩ := h.kin x q hq
      refine ⟨hqx, hlive q ?_ hlive'⟩
      rintro rfl
      exact (hj hlive').2 x hq
  · obtain ⟨n, hn, hlive', hpar'⟩ := h.init
    have hnj : n ≠ j := by
      rintro rfl
      exact (hj hlive').1 hn
    exact ⟨n, hn, hlive n hnj hlive', by rw [update_of_ne hnj, hpar']⟩
  · have hxj : x ≠ j := by
      rintro rfl
      rw [Waiting, update_self] at hx
      exact hwait hx.1
    rw [Waiting, update_of_ne hxj] at hx
    exact (h.quiet x hx).assign fun hp hz => hquiet hz x hp hx

section Slots

variable (h : Family f initproc)

include h

theorem Family.empty (hj : (f j).state = .unused ∨ (f j).state = .embryo ∨ (f j).state = .zombie)
    (hp : p.state = .unused ∨ p.state = .embryo)
    (hkin : ∀ q, p.parent = some q → q ≠ j ∧ Live (f q)) : Family (update f j p) initproc := by
  have hlive : ¬Live (f j) := by
    rcases hj with hj | hj | hj <;> simp [Live, hj]
  refine h.assign (fun hl => absurd hl hlive) ?_ hkin ?_ ?_
  all_goals rcases hp with hp | hp <;> simp [Live, hp]

theorem Family.ready (hj : (f j).state = .embryo) (hpar : (f j).parent ≠ none) :
    Family (update f j { f j with state := .runnable }) initproc := by
  have hlive : ¬Live (f j) := by simp [Live, hj]
  exact h.assign (fun hl => absurd hl hlive) (fun _ _ => hpar) (h.kin j) (by rintro ⟨⟩)
    (by rintro ⟨⟩)

theorem Family.zombie (hinit : initproc ≠ some i) (halone : ∀ x, (f x).parent ≠ some i)
    (hi : Live (f i)) (hcalled : ∀ q, (f i).parent = some q → ¬Waiting f q) :
    Family (update f i { f i with state := .zombie }) initproc :=
  h.assign (fun _ => ⟨hinit, halone⟩) (fun _ => h.parent i (.inl hi)) (h.kin i)
    (fun _ => hcalled) nofun

end Slots

/-! ### What has happened -/

/-- How many processes have been made. -/
def created (tr : List Event) : ℕ := tr.countP fun
  | .assigned _ _ => true
  | _ => false

/-- `wait` returns an ID once, and after the process with this ID has exited. -/
def Sound : List Event → Prop
  | [] => True
  | .waited _ pid :: tr => Sound tr ∧ .exited pid ∈ tr ∧ ∀ i, .waited i pid ∉ tr
  | _ :: tr => Sound tr

/-- How process IDs fit what has happened. -/
structure Past (f : Slot → Proc) (nextpid : ℤ) (tr : List Event) : Prop where
  lt : ∀ i, 0 ≤ (f i).pid ∧ (f i).pid < nextpid
  inj : ∀ i j, i ≠ j → (f i).pid = (f j).pid → (f i).pid = 0
  ne : ∀ i, (f i).state ≠ .unused → (f i).pid ≠ 0
  count : nextpid = created tr + 1
  exited : ∀ i, (f i).state = .zombie → .exited (f i).pid ∈ tr
  waited : ∀ i pid, .waited i pid ∈ tr → pid ≠ 0 ∧ pid < nextpid ∧ ∀ j, (f j).pid ≠ pid
  sound : Sound tr

theorem incr_eq {n : ℤ} (h0 : 0 ≤ n) (h : n + 1 < 2 ^ 31) : incr n = n + 1 := by
  rw [incr, Int.bmod_eq_of_le] <;> omega

section Past

variable {nextpid : ℤ} {tr : List Event} (h : Past f nextpid tr)

include h

theorem Past.nextpid_pos : 0 < nextpid := by
  rw [h.count]
  omega

/-- A step that makes no process and ends none. -/
theorem Past.mono (hpid : ∀ i, (f' i).pid = (f i).pid)
    (hzombie : ∀ i, (f' i).state = .zombie → (f i).state = .zombie)
    (hunused : ∀ i, (f' i).state ≠ .unused → (f i).state ≠ .unused) : Past f' nextpid tr where
  lt := fun i => by
    rw [hpid]
    exact h.lt i
  inj := fun i j => by
    rw [hpid, hpid]
    exact h.inj i j
  ne := fun i hi => by
    rw [hpid]
    exact h.ne i (hunused i hi)
  count := h.count
  exited := fun i hi => by
    rw [hpid]
    exact h.exited i (hzombie i hi)
  waited := fun i pid hi => by
    obtain ⟨hne, hlt, hj⟩ := h.waited i pid hi
    refine ⟨hne, hlt, fun j => ?_⟩
    rw [hpid]
    exact hj j
  sound := h.sound

theorem Past.same (hsame : ∀ i, Same (f i) (f' i)) : Past f' nextpid tr :=
  h.mono (fun i => (hsame i).pid) (fun i => ((hsame i).state_iff (.inr (.inr rfl))).mp)
    fun i hi => mt ((hsame i).state_iff (.inl rfl)).mpr hi

theorem Past.set (hpid : p.pid = (f j).pid) (hzombie : p.state = .zombie → (f j).state = .zombie)
    (hunused : p.state ≠ .unused → (f j).state ≠ .unused) : Past (update f j p) nextpid tr :=
  h.mono ((forall_update_iff f fun i q => q.pid = (f i).pid).mpr ⟨hpid, fun _ _ => rfl⟩)
    ((forall_update_iff f fun i q => q.state = .zombie → (f i).state = .zombie).mpr
      ⟨hzombie, fun _ _ => id⟩)
    ((forall_update_iff f fun i q => q.state ≠ .unused → (f i).state ≠ .unused).mpr
      ⟨hunused, fun _ _ => id⟩)

/-- **One slot changes**, and an event is noted. -/
theorem Past.assign {nextpid' : ℤ} {e : Event} (hnext : nextpid ≤ nextpid')
    (hlt : 0 ≤ p.pid ∧ p.pid < nextpid') (hinj : ∀ x, x ≠ j → (f x).pid = p.pid → p.pid = 0)
    (hne : p.state ≠ .unused → p.pid ≠ 0) (hcount : nextpid' = created (e :: tr) + 1)
    (hexited : p.state = .zombie → .exited p.pid ∈ e :: tr)
    (hold : ∀ i pid, .waited i pid ∈ tr → p.pid ≠ pid)
    (hnew : ∀ i pid, e = .waited i pid → pid ≠ 0 ∧ pid < nextpid' ∧ p.pid ≠ pid ∧
      ∀ x, x ≠ j → (f x).pid ≠ pid)
    (hsound : Sound (e :: tr)) : Past (update f j p) nextpid' (e :: tr) where
  lt := (forall_update_iff f fun _ q => 0 ≤ q.pid ∧ q.pid < nextpid').mpr
    ⟨hlt, fun x _ => ⟨(h.lt x).1, (h.lt x).2.trans_le hnext⟩⟩
  inj := fun x y hxy => by
    by_cases hxj : x = j <;> by_cases hyj : y = j
    · exact absurd (hxj.trans hyj.symm) hxy
    · subst hxj
      rw [update_self, update_of_ne hyj]
      exact fun heq => hinj y hyj heq.symm
    · subst hyj
      rw [update_self, update_of_ne hxj]
      exact fun heq => heq.trans (hinj x hxj heq)
    · rw [update_of_ne hxj, update_of_ne hyj]
      exact h.inj x y hxy
  ne := (forall_update_iff f fun _ q => q.state ≠ .unused → q.pid ≠ 0).mpr ⟨hne, fun x _ => h.ne x⟩
  count := hcount
  exited := (forall_update_iff f fun _ q => q.state = .zombie → .exited q.pid ∈ e :: tr).mpr
    ⟨hexited, fun x _ hx => List.mem_cons_of_mem _ (h.exited x hx)⟩
  waited := fun i pid hi => by
    rw [forall_update_iff f fun _ q => q.pid ≠ pid]
    rcases List.mem_cons.mp hi with heq | hi
    · exact hnew i pid heq.symm
    · obtain ⟨hne, hlt, hpid⟩ := h.waited i pid hi
      exact ⟨hne, hlt.trans_le hnext, hold i pid hi, fun x _ => hpid x⟩
  sound := hsound

theorem Past.alloc : Past (update f j { f j with state := .embryo, pid := nextpid }) (nextpid + 1)
      (.assigned nextpid j :: tr) := by
  have hcount : created (.assigned nextpid j :: tr) = created tr + 1 := List.countP_cons_of_pos rfl
  have hpos := h.nextpid_pos
  refine h.assign (by omega) ⟨hpos.le, by simp⟩ (fun x _ hx => ?_) (fun _ => hpos.ne') ?_
    nofun ?_ nofun h.sound
  · have := (h.lt x).2
    simp only at hx
    omega
  · rw [hcount, h.count]
    push_cast
    rfl
  · intro i pid hi heq
    have := (h.waited i pid hi).2.1
    simp only at heq
    omega

theorem Past.zombie (hi : (f i).state ≠ .unused) :
    Past (update f i { f i with state := .zombie }) nextpid (.exited (f i).pid :: tr) :=
  h.assign le_rfl (h.lt i) (fun x hx heq => h.inj i x hx.symm heq.symm) (fun _ => h.ne i hi) h.count
    (fun _ => List.mem_cons_self) (fun x pid hx => (h.waited x pid hx).2.2 i) nofun h.sound

theorem Past.reap (hj : (f j).state = .zombie) :
    Past (update f j (freed (f j))) nextpid (.waited i (f j).pid :: tr) := by
  have hne := h.ne j (by simp [hj])
  have hlt := h.lt j
  refine h.assign le_rfl ⟨le_rfl, hlt.1.trans_lt hlt.2⟩ (fun _ _ _ => rfl)
    (fun hu => absurd rfl hu) h.count
    nofun (fun x pid hx => (h.waited x pid hx).1.symm) ?_ ⟨h.sound, h.exited j hj, ?_⟩
  · intro x pid hx
    cases hx
    exact ⟨hne, hlt.2, hne.symm, fun y hy heq => hne (h.inj j y hy.symm heq.symm)⟩
  · exact fun x hx => (h.waited x _ hx).2.2 j rfl

theorem Past.kill {b : Bool} (hz : st = .zombie → (f j).state = .zombie)
    (hu : st ≠ .unused → (f j).state ≠ .unused) :
    Past (update f j { f j with killed := b, state := st }) nextpid (.killed (f j).pid j :: tr) :=
  h.assign le_rfl (h.lt j) (fun x hx heq => h.inj j x hx.symm heq.symm)
    (fun hst => h.ne j (hu hst)) h.count (fun hst => List.mem_cons_of_mem _ (h.exited j (hz hst)))
    (fun x pid hx => (h.waited x pid hx).2.2 j) nofun h.sound

theorem Past.fail : Past (update f j { f j with state := .unused }) nextpid
    (.failed (f j).pid :: tr) :=
  h.assign le_rfl (h.lt j) (fun x hx heq => h.inj j x hx.symm heq.symm) (fun hst => absurd rfl hst)
    h.count nofun (fun x pid hx => (h.waited x pid hx).2.2 j) nofun h.sound

end Past

/-! ### Who has been killed -/

/-- Since slot `j` was last allocated, `kill` was called with this ID and has marked the slot. -/
def KilledSince (j : Slot) (pid : ℤ) : List Event → Prop
  | [] => False
  | .killed p i :: tr => p = pid ∧ i = j ∨ KilledSince j pid tr
  | .assigned _ i :: tr => i ≠ j ∧ KilledSince j pid tr
  | _ :: tr => KilledSince j pid tr

theorem KilledSince.mem {pid : ℤ} (h : KilledSince j pid tr) :
    .killed pid j ∈ tr := by
  induction tr with
  | nil => exact h.elim
  | cons e tr ih =>
    cases e with
    | killed p i =>
      rcases h with ⟨rfl, rfl⟩ | h
      · exact List.mem_cons_self
      · exact List.mem_cons_of_mem _ (ih h)
    | assigned p i => exact List.mem_cons_of_mem _ (ih h.2)
    | exited | waited | failed => exact List.mem_cons_of_mem _ (ih h)

/-- An `UNUSED` slot is not marked as killed, and has no ID or that of a process that has not come
into being. Who is marked has been killed. -/
def Kills (f : Slot → Proc) (tr : List Event) : Prop :=
  ∀ i, ((f i).state = .unused → (f i).killed = false ∧ ((f i).pid = 0 ∨ .failed (f i).pid ∈ tr)) ∧
    ((f i).killed = true → KilledSince i (f i).pid tr)

theorem Kills.mono (h : Kills f tr) (hpid : ∀ i, (f' i).pid = (f i).pid)
    (hkilled : ∀ i, (f' i).killed = (f i).killed)
    (hunused : ∀ i, (f' i).state = .unused → (f i).state = .unused) : Kills f' tr := by
  intro i
  rw [hkilled, hpid]
  exact ⟨fun hu => (h i).1 (hunused i hu), (h i).2⟩

theorem Kills.same (h : Kills f tr) (hsame : ∀ i, Same (f i) (f' i))
    (hkilled : ∀ i, (f' i).killed = (f i).killed) : Kills f' tr :=
  h.mono (fun i => (hsame i).pid) hkilled fun i => ((hsame i).state_iff (.inl rfl)).mp

theorem Kills.assign {tr' : List Event} (h : Kills f tr)
    (htr : ∀ i pid, i ≠ j → KilledSince i pid tr → KilledSince i pid tr') (hsub : tr ⊆ tr')
    (hu : p.state = .unused → p.killed = false ∧ (p.pid = 0 ∨ .failed p.pid ∈ tr'))
    (hk : p.killed = true → KilledSince j p.pid tr') : Kills (update f j p) tr' :=
  (forall_update_iff f fun i q =>
    (q.state = .unused → q.killed = false ∧ (q.pid = 0 ∨ Event.failed q.pid ∈ tr')) ∧
      (q.killed = true → KilledSince i q.pid tr')).mpr
    ⟨⟨hu, hk⟩, fun i hi => ⟨fun hst => ((h i).1 hst).imp_right (Or.imp_right fun hm => hsub hm),
      fun hst => htr i _ hi ((h i).2 hst)⟩⟩

end Xv6.Sched
