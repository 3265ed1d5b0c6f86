import Xv6.Proc.Family

/-!
# The invariant of the process table

What each thread knows, and what holds in every state.
-/

namespace Xv6.Sched

open Function (update update_of_ne update_self update_eq_self_iff forall_update_iff)

/-- The process that a thread is making. -/
inductive Child
  | none
  /-- The slot has been allocated. -/
  | raw (j : Slot)
  /-- The thread has been set up. -/
  | ready (j : Slot)
  /-- It has got its parent. -/
  | named (j : Slot)
  deriving DecidableEq

/-- Its slot. -/
def Child.slot : Child → Option Slot
  | .none => Option.none
  | .raw j | .ready j | .named j => some j

/-- What a thread knows about processes. -/
inductive Know
  | nothing
  /-- It is not init. -/
  | mortal
  /-- With the lock held: none of its children is a zombie. -/
  | quiet
  /-- With the lock held: it is not init, and its parent does not sleep in `wait`. -/
  | called
  /-- With the lock held: moreover it has no children. -/
  | alone
  deriving DecidableEq

/-- What a thread knows. -/
structure Local where
  place : At
  child : Child
  know : Know

variable {κ : Type} {tr : List Event} {j : Slot} {k : ℕ}

/-- What a thread has to do with the process that it is making. -/
def Kid (s : State κ) : Child → Prop
  | .none => True
  | .raw j => (s.proc j).state = .embryo
  | .ready j => (s.proc j).state = .embryo ∧ s.slot (s.proc j).context = j ∧
      (s.proc j).context < s.born ∧ s.started (s.proc j).context = false ∧
      s.on (.proc (s.proc j).context) = none
  | .named j => (s.proc j).state = .embryo ∧ s.slot (s.proc j).context = j ∧
      (s.proc j).context < s.born ∧ s.started (s.proc j).context = false ∧
      s.on (.proc (s.proc j).context) = none ∧ (s.proc j).parent ≠ none

/-- What other threads do to a process that is being made. -/
structure Embryo (p p' : Proc) : Prop where
  state : p'.state = p.state
  context : p'.context = p.context
  parent : p.parent ≠ none → p'.parent ≠ none

theorem Embryo.refl (p : Proc) : Embryo p p := ⟨rfl, rfl, id⟩

variable {s : State κ}

theorem Kid.state {x : Child} (h : Kid s x) (hj : x.slot = some j) :
    (s.proc j).state = .embryo := by
  cases x with
  | none => cases hj
  | raw j' =>
    cases hj
    exact h
  | ready j' | named j' =>
    cases hj
    exact h.1

variable {s s' : State κ}

theorem Kid.same {x : Child} (h : Kid s x)
    (hembryo : ∀ j, x.slot = some j → Embryo (s.proc j) (s'.proc j))
    (hslot : ∀ k, k < s.born → s'.slot k = s.slot k) (hborn : s.born ≤ s'.born)
    (hfresh : ∀ k, s.started k = false → s.on (.proc k) = none →
      (s.proc (s.slot k)).state = .embryo → s'.started k = false ∧ s'.on (.proc k) = none) :
    Kid s' x := by
  cases x with
  | none => trivial
  | raw j =>
    rw [Kid, (hembryo j rfl).state]
    exact h
  | ready j =>
    obtain ⟨he, hs, hlt, hst, hoff⟩ := h
    obtain ⟨hst', hoff'⟩ := hfresh _ hst hoff (by rwa [hs])
    rw [Kid, (hembryo j rfl).state, (hembryo j rfl).context]
    exact ⟨he, by rw [hslot _ hlt, hs], hlt.trans_le hborn, hst', hoff'⟩
  | named j =>
    obtain ⟨he, hs, hlt, hst, hoff, hpar⟩ := h
    obtain ⟨hst', hoff'⟩ := hfresh _ hst hoff (by rwa [hs])
    rw [Kid, (hembryo j rfl).state, (hembryo j rfl).context]
    exact ⟨he, by rw [hslot _ hlt, hs], hlt.trans_le hborn, hst', hoff',
      (hembryo j rfl).parent hpar⟩

/-- The parent of slot `i` does not sleep in `wait`. -/
def Called (f : Slot → Proc) (i : Slot) : Prop := ∀ q, (f i).parent = some q → ¬Waiting f q

/-- What it means to know this. -/
def Knows (s : State κ) (t : Thread κ) (place : At) : Know → Prop
  | .nothing => True
  | .mortal => ∃ k, t = .proc k ∧ k < s.born ∧ s.initproc ≠ some (s.slot k)
  | .quiet => ∃ k, t = .proc k ∧ k < s.born ∧ place = .run true ∧ Quiet s.proc (s.slot k)
  | .called => ∃ k, t = .proc k ∧ k < s.born ∧ place = .run true ∧ s.initproc ≠ some (s.slot k) ∧
      Called s.proc (s.slot k)
  | .alone => ∃ k, t = .proc k ∧ k < s.born ∧ place = .run true ∧ s.initproc ≠ some (s.slot k) ∧
      Called s.proc (s.slot k) ∧ ∀ j, (s.proc j).parent ≠ some (s.slot k)

/-- What can be known without the lock. -/
def Know.Plain (w : Know) : Prop := w = .nothing ∨ w = .mortal

theorem Knows.plain {t : Thread κ} {x : At} {w : Know} (h : Knows s t x w)
    (hx : x ≠ .run true) : w.Plain := by
  cases w with
  | nothing => exact .inl rfl
  | mortal => exact .inr rfl
  | quiet | called | alone =>
    obtain ⟨-, -, -, hrun, -⟩ := h
    exact absurd hrun hx

theorem Knows.place {t : Thread κ} {x : At} {w : Know} (h : Knows s t x w) (hw : w.Plain)
    (y : At) : Knows s t y w := by
  rcases hw with rfl | rfl
  · trivial
  · exact h

/-- **The invariant.** -/
structure Inv (few strict : Prop) (g : Thread κ → Local) (s : State κ) : Prop where
  cpus : Cpus (fun t => (g t).place) s
  kid : ∀ t, Kid s (g t).child
  kid_inj : ∀ t t' j, (g t).child.slot = some j → (g t').child.slot = some j → t = t'
  knows : ∀ t, Knows s t (g t).place (g t).know
  family : Family s.proc s.initproc
  past : few → Past s.proc s.nextpid s.trace
  kills : strict → Kills s.proc s.trace

/-- The last call of `kill` was not made with 0, or with an ID for which `fork` has failed before,
and `fork` has not just failed for an ID with which `kill` was called. -/
def Spares : List Event → Prop
  | .killed pid _ :: tr => pid ≠ 0 ∧ .failed pid ∉ tr
  | .failed pid :: tr => ∀ j, .killed pid j ∉ tr
  | _ => True

/-- The number of processes that are made in the run is less than 2^31 - 1. -/
def FewProcs (s : State κ) : Prop := created s.trace < 2 ^ 31 - 1

/-- What is done is what the events say. -/
structure Honest (s s' : State κ) : Prop where
  waits : ∀ i pid, s'.trace = .waited i pid :: s.trace →
    ∃ j, (s.proc j).pid = pid ∧ (s.proc j).parent = some i ∧ (s.proc j).state = .zombie
  kills : ∀ pid j, s'.trace = .killed pid j :: s.trace → (s.proc j).pid = pid

theorem Honest.quiet (h : s'.trace = s.trace) : Honest s s' := by
  refine ⟨fun i pid hcons => ?_, fun pid j hcons => ?_⟩
  all_goals
    rw [h] at hcons
    exact absurd hcons (List.cons_ne_self _ _).symm

theorem Honest.cons {e : Event} (h : s'.trace = e :: s.trace) (hwait : ∀ i pid, e = .waited i pid →
      ∃ j, (s.proc j).pid = pid ∧ (s.proc j).parent = some i ∧ (s.proc j).state = .zombie)
    (hkill : ∀ pid j, e = .killed pid j → (s.proc j).pid = pid) : Honest s s' := by
  refine ⟨fun i pid hcons => ?_, fun pid j hcons => ?_⟩
  · exact hwait i pid (List.cons.inj (h.symm.trans hcons)).1
  · exact hkill pid j (List.cons.inj (h.symm.trans hcons)).1

/-- What is assumed and promised of each step. -/
def contract (few strict : Prop) : Concurrent.Contract (State κ) Panic where
  ok := fun e => e ≠ .zombieExit ∧ e ≠ .twice
  rel := fun _ s' => (few → FewProcs s') ∧ (strict → Spares s'.trace)
  guar := Honest

/-! ### One thread moves -/

section Step

variable {few strict : Prop} {g : Thread κ → Local} {s s' : State κ} {t : Thread κ} {c : κ}
  {l : Local}

theorem Inv.holder (h : Inv few strict g s) (hlock : s.lock = some c) (hc : s.on t = some c)
    {t' : Thread κ} (ht : t' ≠ t) : (g t').place ≠ .run true := by
  intro hrun
  have hown := h.cpus.own t'
  rw [hrun] at hown
  cases t' with
  | proc k =>
    obtain ⟨-, c', hr, hl, -⟩ := hown
    have hl := hl.mpr rfl
    rw [hlock] at hl
    cases hl
    exact h.cpus.off hc ht hr.on
  | sched c' => exact hown

variable [DecidableEq κ]

theorem places_update (g : Thread κ → Local) (t : Thread κ) (l : Local) :
    (fun u => (update g t l u).place) = update (fun u => (g u).place) t l.place := by
  funext u
  by_cases hu : u = t
  · subst hu
    simp
  · simp [hu]

/-- What a step of a thread that does not hold the lock does to the table: it changes the process
that it is making. -/
def Outside (s s' : State κ) (t : Thread κ) : Prop :=
  ∀ j, s'.proc j = s.proc j ∨ (s.proc j).state = .embryo ∧
    ((s'.proc j).state = .embryo ∨ (s'.proc j).state = .unused) ∧
    ((s'.proc j).parent = (s.proc j).parent ∨ ∃ k, t = .proc k ∧
      (s'.proc j).parent = some (s.slot k))

section

variable (h : Inv few strict g s)

include h

omit [DecidableEq κ] in
theorem Inv.knows_of_ne (hc : s.on t = some c) {u : Thread κ} (hu : u ≠ t)
    (hinit : s'.initproc = s.initproc) (hslot : ∀ k, k < s.born → s'.slot k = s.slot k)
    (hborn : s.born ≤ s'.born) (hout : s.lock = some c ∨ Outside s s' t) :
    Knows s' u (g u).place (g u).know := by
  have hold := h.knows u
  -- if the thread relies on the lock, the other one does not hold it
  have hlock : (g u).place = .run true → Outside s s' t ∧ ∀ k, u = .proc k →
      s'.proc (s.slot k) = s.proc (s.slot k) ∧ ∀ k', t = .proc k' → s.slot k' ≠ s.slot k := by
    intro hrun
    have hout := hout.resolve_left fun hl => h.holder hl hc hu hrun
    refine ⟨hout, fun k hk => ?_⟩
    subst hk
    have hown := h.cpus.own (.proc k)
    rw [hrun] at hown
    obtain ⟨-, c', hr, -, hstate⟩ := hown
    refine ⟨(hout (s.slot k)).resolve_right fun he => ?_, fun k' hk' heq => ?_⟩
    · rw [hstate] at he
      cases he.1
    · subst hk'
      have hctx := ((h.cpus.own (.proc k')).runs hc).context
      rw [heq, hr.context] at hctx
      exact hu (by rw [hctx])
  have hwait : Outside s s' t → ∀ q, Waiting s'.proc q → Waiting s.proc q := by
    intro hout q hq
    rw [Waiting] at hq ⊢
    rcases hout q with heq | ⟨-, hst, -⟩
    · rwa [heq] at hq
    · rcases hst with hst | hst <;> simp [hst] at hq
  have hcalled : ∀ k, Outside s s' t → s'.proc (s.slot k) = s.proc (s.slot k) →
      Called s.proc (s.slot k) → Called s'.proc (s.slot k) := by
    intro k hout heq hcalled q hq hw
    rw [heq] at hq
    exact hcalled q hq (hwait hout q hw)
  cases hk : (g u).know with
  | nothing => trivial
  | mortal =>
    rw [hk] at hold
    obtain ⟨k, hu, hlt, hne⟩ := hold
    exact ⟨k, hu, hlt.trans_le hborn, by rwa [hinit, hslot k hlt]⟩
  | quiet =>
    rw [hk] at hold
    obtain ⟨k, hu, hlt, hrun, hquiet⟩ := hold
    refine ⟨k, hu, hlt.trans_le hborn, hrun, ?_⟩
    rw [hslot k hlt]
    intro j hj
    rcases (hlock hrun).1 j with heq | ⟨-, hst, -⟩
    · rw [heq] at hj ⊢
      exact hquiet j hj
    · rcases hst with hst | hst <;> simp [hst]
  | called =>
    rw [hk] at hold
    obtain ⟨k, hu, hlt, hrun, hne, hcall⟩ := hold
    refine ⟨k, hu, hlt.trans_le hborn, hrun, by rwa [hinit, hslot k hlt], ?_⟩
    rw [hslot k hlt]
    exact hcalled k (hlock hrun).1 ((hlock hrun).2 k hu).1 hcall
  | alone =>
    rw [hk] at hold
    obtain ⟨k, hu, hlt, hrun, hne, hcall, halone⟩ := hold
    obtain ⟨hout, hmine⟩ := hlock hrun
    refine ⟨k, hu, hlt.trans_le hborn, hrun, by rwa [hinit, hslot k hlt], ?_, fun j => ?_⟩
    · rw [hslot k hlt]
      exact hcalled k hout (hmine k hu).1 hcall
    · rw [hslot k hlt]
      rcases hout j with heq | ⟨-, -, hpar | ⟨k', ht, hpar⟩⟩
      · rw [heq]
        exact halone j
      · rw [hpar]
        exact halone j
      · rw [hpar]
        exact fun hs => (hmine k hu).2 k' ht (Option.some.inj hs)

/-- **A step.** What the other threads know is still so, and what the thread that moves knows is. -/
theorem Inv.step (hc : s.on t = some c)
    (hcpus : Cpus (update (fun u => (g u).place) t l.place) s') (hkid : Kid s' l.child)
    (hchild : ∀ j, l.child.slot = some j → (g t).child.slot = some j ∨ (s.proc j).state = .unused)
    (hknows : Knows s' t l.place l.know) (hfamily : Family s'.proc s'.initproc)
    (hpast : few → Past s'.proc s'.nextpid s'.trace) (hkills : strict → Kills s'.proc s'.trace)
    (hinit : s'.initproc = s.initproc)
    (hembryo : ∀ j, (s.proc j).state = .embryo → (g t).child.slot ≠ some j →
      Embryo (s.proc j) (s'.proc j))
    (hslot : ∀ k, k < s.born → s'.slot k = s.slot k) (hborn : s.born ≤ s'.born)
    (hfresh : ∀ k, s.started k = false → s.on (.proc k) = none →
      (s.proc (s.slot k)).state = .embryo → s'.started k = false ∧ s'.on (.proc k) = none)
    (hout : s.lock = some c ∨ Outside s s' t) : Inv few strict (update g t l) s' where
  cpus := by rwa [places_update]
  kid := fun u => by
    by_cases hu : u = t
    · subst hu
      rwa [update_self]
    · rw [update_of_ne hu]
      have hold := h.kid u
      exact hold.same (fun j hj => hembryo j (hold.state hj) fun hj' => hu (h.kid_inj u t j hj hj'))
        hslot hborn hfresh
  kid_inj := fun u u' j hu hu' => by
    have hother : ∀ v, v ≠ t → (g v).child.slot = some j → l.child.slot = some j → False := by
      intro v hv hj hl
      rcases hchild j hl with hl | hl
      · exact hv (h.kid_inj v t j hj hl)
      · have he := (h.kid v).state hj
        rw [hl] at he
        cases he
    by_cases hut : u = t <;> by_cases hut' : u' = t
    · rw [hut, hut']
    · rw [hut, update_self] at hu
      rw [update_of_ne hut'] at hu'
      exact (hother u' hut' hu' hu).elim
    · rw [hut', update_self] at hu'
      rw [update_of_ne hut] at hu
      exact (hother u hut hu hu').elim
    · rw [update_of_ne hut] at hu
      rw [update_of_ne hut'] at hu'
      exact h.kid_inj u u' j hu hu'
  knows := fun u => by
    by_cases hu : u = t
    · subst hu
      rwa [update_self]
    · rw [update_of_ne hu]
      exact h.knows_of_ne hc hu hinit hslot hborn hout
  family := hfamily
  past := hpast
  kills := hkills

/-- **A step that is not a switch.** -/
theorem Inv.stays (hc : s.on t = some c) (hs : Stays s s' t c)
    (hborn : s'.born = s.born) (hown : Own s' t l.place)
    (hcur : ∀ i, s.cur c = some i → (s'.proc i).state = .running ∨ s'.lock = some c)
    (hlive : ∀ i, Live (s'.proc i) → s.slot (s'.proc i).context = i ∧ (s'.proc i).context < s.born ∧
      update (fun u => (g u).place) t l.place (.proc (s'.proc i).context) ≠ .dead ∧
      update (fun u => (g u).place) t l.place (.proc (s'.proc i).context) ≠ .gone)
    (hkid : Kid s' l.child)
    (hchild : ∀ j, l.child.slot = some j → (g t).child.slot = some j ∨ (s.proc j).state = .unused)
    (hknows : Knows s' t l.place l.know) (hfamily : Family s'.proc s'.initproc)
    (hpast : few → Past s'.proc s'.nextpid s'.trace) (hkills : strict → Kills s'.proc s'.trace)
    (hinit : s'.initproc = s.initproc)
    (hembryo : ∀ j, (s.proc j).state = .embryo → (g t).child.slot ≠ some j →
      Embryo (s.proc j) (s'.proc j))
    (hout : s.lock = some c ∨ Outside s s' t) : Inv few strict (update g t l) s' := by
  refine h.step hc (h.cpus.stays hs hc hborn hown hcur hlive) hkid hchild hknows hfamily hpast
    hkills hinit hembryo (fun k _ => by rw [hs.slot]) hborn.ge (fun k hst hoff _ => ?_) hout
  have hne : t ≠ .proc k := by
    rintro rfl
    cases hoff.symm.trans hc
  exact ⟨by rw [hs.started k hne, hst], by rw [hs.on, hoff]⟩

omit [DecidableEq κ] in
theorem Inv.kid_same (hslot : s'.slot = s.slot) (hborn : s'.born = s.born)
    (hstart : ∀ k, s.started k = false → s.on (.proc k) = none → s'.started k = false)
    (hon : s'.on = s.on) (hproc : ∀ j, (s.proc j).state = .embryo → Embryo (s.proc j) (s'.proc j)) :
    Kid s' (g t).child :=
  (h.kid t).same (fun j hj => hproc j ((h.kid t).state hj)) (fun _ _ => by rw [hslot]) hborn.ge
    fun k hst hoff _ => ⟨hstart k hst hoff, by rw [hon, hoff]⟩

/-! ### The lock -/

/-- **The lock is acquired or released.** Nothing else changes, except that a thread may have left
`forkret`. -/
theorem Inv.relock (hc : s.on t = some c) {lock : Option κ} {started : ℕ → Bool}
    (hs : ∀ k, t ≠ .proc k → started k = s.started k)
    (hlock : s.lock = none ∧ lock = some c ∨ s.lock = some c ∧ lock = none)
    (hown : Own { s with lock := lock, started := started } t l.place)
    (hplace : l.place ≠ .dead ∧ l.place ≠ .gone)
    (hcur : lock = none → ∀ i, s.cur c = some i → (s.proc i).state = .running)
    (hchild : l.child = (g t).child) (hknows : Knows s t l.place l.know) :
    Inv few strict (update g t l) { s with lock := lock, started := started } := by
  refine h.stays hc ⟨rfl, rfl, rfl, hs, .inr hlock, fun i => .inr (.refl _), fun i hi => .inl hi,
    fun i hi => hi⟩ rfl hown ?_ (h.cpus.live_update hplace fun i hi => ⟨hi, rfl⟩) ?_ ?_
      hknows h.family
    h.past h.kills rfl (fun _ _ _ => .refl _) (.inr fun j => .inl rfl)
  · intro i hi
    rcases hlock with ⟨-, rfl⟩ | ⟨-, rfl⟩
    · exact .inr rfl
    · exact .inl (hcur rfl i hi)
  · rw [hchild]
    refine h.kid_same rfl rfl (fun k hst hoff => ?_) rfl fun _ _ => .refl _
    have hne : t ≠ .proc k := by
      rintro rfl
      cases hoff.symm.trans hc
    exact (hs k hne).trans hst
  · intro j hj
    rw [hchild] at hj
    exact .inl hj

/-! ### The slot of the thread -/

omit [DecidableEq κ] in
theorem Inv.lt_born (hc : s.on (.proc k) = some c) : k < s.born := by
  by_contra hk
  cases (h.cpus.fresh k (not_lt.mp hk)).2.symm.trans hc

/-- **A process changes its own slot**, with the lock held. -/
theorem Inv.mine (hr : Runs s k c) (hlock : s.lock = some c)
    (hstate : (s.proc (s.slot k)).state = .running) {p : Proc} (hctx : p.context = k)
    (hown : Own { s with proc := update s.proc (s.slot k) p, trace := tr } (.proc k) l.place)
    (hplace : Live p → l.place ≠ .dead ∧ l.place ≠ .gone) (hchild : l.child = (g (.proc k)).child)
    (hknows : l.know = .nothing ∨ l.know = .mortal ∧ s.initproc ≠ some (s.slot k))
    (hfamily : Family (update s.proc (s.slot k) p) s.initproc)
    (hpast : few → Past (update s.proc (s.slot k) p) s.nextpid tr)
    (hkills : strict → Kills (update s.proc (s.slot k) p) tr) :
    Inv few strict (update g (.proc k) l)
      { s with proc := update s.proc (s.slot k) p, trace := tr } := by
  have hembryo : ∀ j, (s.proc j).state = .embryo →
      Embryo (s.proc j) (update s.proc (s.slot k) p j) := by
    intro j hj
    rw [update_of_ne]
    · exact .refl _
    · rintro rfl
      rw [hstate] at hj
      cases hj
  refine h.stays hr.on ⟨rfl, rfl, rfl, fun _ _ => rfl, .inl rfl, fun i => ?_, fun i hi => ?_,
    fun i hi => ?_⟩ rfl hown (fun _ _ => .inr hlock) (fun i hi => ?_) ?_ ?_ ?_ hfamily hpast
      hkills rfl
    (fun j hj _ => hembryo j hj) (.inl hlock)
  · by_cases hi : i = s.slot k
    · exact .inl ⟨k, rfl, hi.symm, by rw [hi, hr.context]⟩
    · right
      simp only [update_of_ne hi]
      exact .refl _
  · left
    have hik : i ≠ s.slot k := by
      rintro rfl
      rw [hstate] at hi
      cases hi
    simpa [hik] using hi
  · by_cases hik : i = s.slot k
    · rw [hik, hstate]
    · simpa [hik] using hi
  · by_cases hik : i = s.slot k
    · subst hik
      simp only [update_self] at hi ⊢
      rw [hctx, update_self]
      exact ⟨rfl, h.lt_born hr.on, hplace hi⟩
    · simp only [update_of_ne hik] at hi ⊢
      obtain ⟨hs, hlt, hat⟩ := h.cpus.live i hi
      refine ⟨hs, hlt, ?_⟩
      rw [update_of_ne]
      · exact hat
      · intro heq
        cases heq
        exact hik (by rw [hs])
  · rw [hchild]
    exact h.kid_same rfl rfl (fun _ hst _ => hst) rfl hembryo
  · intro j hj
    rw [hchild] at hj
    exact .inl hj
  · rcases hknows with hk | ⟨hk, hne⟩
    · rw [hk]
      trivial
    · rw [hk]
      exact ⟨k, rfl, h.lt_born hr.on, hne⟩

end

/-! ### The table -/

omit [DecidableEq κ] in
theorem Own.table (hown : Own s t l.place) (hlock : l.place = .run true ∨ l.place = .scan)
    {f : Slot → Proc} {n : ℤ} (hmild : ∀ i, Mild (s.proc i) (f i)) :
    Own { s with proc := f, nextpid := n, trace := tr } t l.place := by
  cases t with
  | proc k =>
    rcases hlock with hl | hl <;> rw [hl] at hown ⊢
    · obtain ⟨hs, c, hr, hheld, hstate⟩ := hown
      exact ⟨hs, c, ⟨hr.on, hr.cur, by rw [(hmild _).context]; exact hr.context⟩, hheld,
        (hmild _).of_running hstate⟩
    · exact hown
  | sched c =>
    rcases hlock with hl | hl <;> rw [hl] at hown ⊢
    · exact hown
    · exact hown

section

variable (h : Inv few strict g s)

include h

/-- **The table is changed**, with the lock held. -/
theorem Inv.table (hc : s.on t = some c) (hlock : s.lock = some c) (hplace : l.place = (g t).place)
    (hrun : l.place = .run true ∨ l.place = .scan) {f : Slot → Proc} {n : ℤ}
    (hmild : ∀ i, Mild (s.proc i) (f i))
    (hlive : ∀ i, Live (f i) → ¬Live (s.proc i) → s.slot (s.proc i).context = i ∧
      (s.proc i).context < s.born ∧ s.started (s.proc i).context = false)
    (hembryo : ∀ j, (s.proc j).state = .embryo → (g t).child.slot ≠ some j →
      Embryo (s.proc j) (f j)) (hkid : Kid { s with proc := f, nextpid := n, trace := tr } l.child)
    (hchild : ∀ j, l.child.slot = some j → (g t).child.slot = some j ∨ (s.proc j).state = .unused)
    (hknows : Knows { s with proc := f, nextpid := n, trace := tr } t l.place l.know)
    (hfamily : Family f s.initproc) (hpast : few → Past f n tr) (hkills : strict → Kills f tr) :
    Inv few strict (update g t l) { s with proc := f, nextpid := n, trace := tr } := by
  refine h.stays hc ⟨rfl, rfl, rfl, fun _ _ => rfl, .inl rfl, fun i => .inr (hmild i),
    fun _ _ => .inr hlock, fun i hi => ?_⟩ rfl ((hplace ▸ h.cpus.own t).table hrun hmild)
    (fun _ _ => .inr hlock) (fun i hi => ?_) hkid hchild hknows hfamily hpast hkills rfl hembryo
    (.inl hlock)
  · rcases (hmild i).state with h | h | h | h | h | h <;> simp_all
  · have hsame : update (fun u => (g u).place) t l.place = fun u => (g u).place :=
      update_eq_self_iff.mpr hplace
    simp only [(hmild i).context, hsame]
    by_cases hold : Live (s.proc i)
    · exact h.cpus.live i hold
    · obtain ⟨hs, hlt, hst⟩ := hlive i hi hold
      refine ⟨hs, hlt, fun hd => ?_, fun hg => ?_⟩
      · have hown := h.cpus.own (.proc (s.proc i).context)
        rw [hd] at hown
        cases hst.symm.trans hown.1
      · have hown := h.cpus.own (.proc (s.proc i).context)
        rw [hg] at hown
        cases hst.symm.trans hown.1

/-! ### The process that is being made -/

/-- **The process that is being made is changed**, without the lock. -/
theorem Inv.outside {p : Proc} (hc : s.on (.proc k) = some c)
    (hplace : (g (.proc k)).place = .run false) (hj : (g (.proc k)).child.slot = some j)
    (hstate : (s.proc j).state = .embryo) (hctx : p.context = (s.proc j).context)
    (hp : p.state = .embryo ∨ p.state = .unused)
    (hpar : p.parent = (s.proc j).parent ∨ p.parent = some (s.slot k)) (hl : l.place = .run false)
    (hknow : l.know = .nothing) (hchild : ∀ j', l.child.slot = some j' → j' = j)
    (hkid : Kid { s with proc := update s.proc j p, trace := tr } l.child)
    (hfamily : Family (update s.proc j p) s.initproc)
    (hpast : few → Past (update s.proc j p) s.nextpid tr)
    (hkills : strict → Kills (update s.proc j p) tr) :
    Inv few strict (update g (.proc k) l) { s with proc := update s.proc j p, trace := tr } := by
  have hmild : ∀ i, Mild (s.proc i) (update s.proc j p i) := by
    rw [forall_update_iff s.proc fun i q => Mild (s.proc i) q]
    refine ⟨⟨hctx, ?_⟩, fun i _ => .refl _⟩
    rcases hp with hp | hp <;> simp [hstate, hp]
  have hown : Own s (.proc k) (.run false) := hplace ▸ h.cpus.own _
  refine h.stays hc ⟨rfl, rfl, rfl, fun _ _ => rfl, .inl rfl, fun i => .inr (hmild i),
    fun i hi => ?_,
    fun i hi => ?_⟩ rfl ?_ ?_ (h.cpus.live_update (by simp [hl]) fun i hi => ?_) hkid
    (fun j' hj' => .inl (by rw [hchild j' hj', hj])) (by rw [hknow]; trivial) hfamily hpast
      hkills rfl ?_
    (.inr fun i => ?_)
  · left
    have hij : i ≠ j := by
      rintro rfl
      rw [hstate] at hi
      cases hi
    simpa [hij] using hi
  · by_cases hij : i = j
    · subst hij
      rcases hp with hp | hp <;> simp [hp] at hi
    · simpa [hij] using hi
  · rw [hl]
    obtain ⟨hs, c', hr, hheld, hrun⟩ := hown
    exact ⟨hs, c', ⟨hr.on, hr.cur, by rw [(hmild _).context]; exact hr.context⟩, hheld,
      (hmild _).of_running hrun⟩
  · intro i hi
    obtain ⟨-, c', hr, -, hrun⟩ := hown
    obtain rfl : c' = c := Option.some.inj (hr.on.symm.trans hc)
    obtain rfl : s.slot k = i := Option.some.inj (hr.cur.symm.trans hi)
    exact .inl ((hmild _).of_running hrun)
  · by_cases hij : i = j
    · subst hij
      rcases hp with hp | hp <;> simp [Live, hp] at hi
    · simpa [hij] using hi
  · intro i _ hi
    have hij : i ≠ j := by
      rintro rfl
      exact hi hj
    simp only [update_of_ne hij]
    exact .refl _
  · by_cases hij : i = j
    · subst hij
      simp only [update_self]
      exact .inr ⟨hstate, hp, hpar.imp_right fun hpar => ⟨k, rfl, hpar⟩⟩
    · exact .inl (update_of_ne hij ..)

/-- **A thread is set up** for the process that is being made. -/
theorem Inv.beget (hc : s.on (.proc k) = some c) (hj : (g (.proc k)).child = .raw j)
    (hl : l.place = (g (.proc k)).place) (hknow : l.know = .nothing) (hchild : l.child = .ready j) :
    Inv few strict (update g (.proc k) l) (s.beget j) := by
  have hstate : (s.proc j).state = .embryo := by
    have hkid := h.kid (.proc k)
    rwa [hj] at hkid
  have hpid : ∀ i, ((s.beget j).proc i).pid = (s.proc i).pid ∧
      ((s.beget j).proc i).killed = (s.proc i).killed := by
    intro i
    by_cases hi : i = j
    · subst hi
      simp [State.beget, State.setProc]
    · simp [State.beget, State.setProc, hi]
  have hborn := h.cpus.fresh s.born le_rfl
  refine h.step hc ?_ ?_ (fun j' hj' => ?_) (by rw [hknow]; trivial) ?_ (fun hf => ?_)
    (fun hs => ?_) rfl (fun i _ hi => ?_)
    (fun k hk => update_of_ne hk.ne ..) (Nat.le_succ _) (fun _ hst hoff _ => ⟨hst, hoff⟩)
    (.inr fun i => ?_)
  · rw [hl, update_eq_self_iff.mpr rfl]
    exact h.cpus.beget hstate
  · rw [hchild]
    have hctx : ((s.beget j).proc j).context = s.born := by simp [State.beget, State.setProc]
    have hunborn := h.cpus.own (.proc s.born)
    rw [hborn.1] at hunborn
    rw [Kid, hctx, State.beget_state]
    exact ⟨hstate, update_self .., Nat.lt_succ_self _, hunborn.1, hborn.2⟩
  · rw [hchild] at hj'
    rw [hj]
    exact .inl hj'
  · exact h.family.empty (.inr (.inl hstate)) (.inr hstate) (h.family.kin j)
  · refine (h.past hf).mono (fun i => (hpid i).1) (fun i hi => ?_) fun i hi => ?_
    · rwa [State.beget_state] at hi
    · rwa [State.beget_state] at hi
  · refine (h.kills hs).mono (fun i => (hpid i).1) (fun i => (hpid i).2) fun i hi => ?_
    rwa [State.beget_state] at hi
  · rw [State.beget_of_ne]
    · exact .refl _
    · rintro rfl
      exact hi (by rw [hj]; rfl)
  · by_cases hi : i = j
    · subst hi
      refine .inr ⟨hstate, .inl (by rw [State.beget_state, hstate]), .inl ?_⟩
      simp [State.beget, State.setProc]
    · exact .inl (State.beget_of_ne hi)

/-! ### Switching -/

theorem Inv.switch (hc : s.on t = some c) (hlock : s.lock = some c)
    (hcpus : Cpus (update (fun u => (g u).place) t l.place) s')
    (hchild : l.child = (g t).child) (hknow : l.know = .nothing ∨ l.know = .mortal ∧
      (g t).know = .mortal)
    (hproc : ∀ i, s'.proc i = s.proc i ∨ Live (s.proc i) ∧ Same (s.proc i) (s'.proc i) ∧
      (s'.proc i).killed = (s.proc i).killed ∧ (s'.proc i).state ≠ .sleeping)
    (hslot : s'.slot = s.slot) (hborn : s'.born = s.born) (hnext : s'.nextpid = s.nextpid)
    (htr : s'.trace = s.trace) (hinit : s'.initproc = s.initproc)
    (hfresh : ∀ k, s.started k = false → s.on (.proc k) = none →
      (s.proc (s.slot k)).state = .embryo → s'.started k = false ∧ s'.on (.proc k) = none) :
    Inv few strict (update g t l) s' := by
  have hembryo : ∀ j, (s.proc j).state = .embryo → Embryo (s.proc j) (s'.proc j) := by
    intro j hj
    rw [(hproc j).resolve_right fun hl => by simp [Live, hj] at hl]
    exact .refl _
  have hsame : ∀ i, Same (s.proc i) (s'.proc i) := by
    intro i
    rcases hproc i with heq | hl
    · rw [heq]
      exact .refl _
    · exact hl.2.1
  refine h.step hc hcpus ?_ (fun j hj => .inl (hchild ▸ hj)) ?_ ?_ (fun hf => ?_)
    (fun hs => ?_) hinit (fun j hj _ => hembryo j hj)
    (fun k _ => by rw [hslot]) hborn.ge hfresh (.inl hlock)
  · rw [hchild]
    exact (h.kid t).same (fun j hj => hembryo j ((h.kid t).state hj))
      (fun _ _ => by rw [hslot]) hborn.ge hfresh
  · rcases hknow with hk | ⟨hk, hold⟩
    · rw [hk]
      trivial
    · have hknows := h.knows t
      rw [hold] at hknows
      rw [hk, Knows, hborn, hinit, hslot]
      exact hknows
  · rw [hinit]
    refine h.family.same hsame fun i hi => .inl ?_
    rcases hproc i with heq | hl
    · rwa [Waiting, heq] at hi
    · exact absurd hi.1 hl.2.2.2
  · rw [hnext, htr]
    exact (h.past hf).same hsame
  · rw [htr]
    refine (h.kills hs).same hsame fun i => ?_
    rcases hproc i with heq | hl
    · rw [heq]
    · exact hl.2.2.1

end

end Step

end Xv6.Sched
