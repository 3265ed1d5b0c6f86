import Xv6.Library.Runs

/-!
# Programs that run at the same time

A program is a tree of atomic steps on a shared state. A step may have to wait, may fail for good,
or takes place and tells the program how to go on. `eval` runs a program alone; `Pool` has one
program for each process and takes one step of one of them at a time.

## How to verify a pool

There is one invariant for the shared state and what each process knows, its *local* value. `Wp`
says that a process that knows `l` can take all steps of a program, each of them keeping the
invariant and telling the process what it knows afterwards, and that at the end the postcondition
holds of what it returns and knows. In a proof about a step, what the other processes know is as it
was: the invariant has to say what they rely on.

A `Contract` has the rest: which failures are allowed, what is assumed of every step of the run, for
statements about those runs in which every step is such, and what is promised of every step.

## Main results

* `Wp.bind`, `Wp.mono` — composition and consequence
* `Wp.onFst`, `Wp.onSnd` — programs that use one half of the state only
* `Wp.zoom` — programs of a part of a larger system
* `Reach.sound`, `Recorded.sound` — the invariant holds in every state that a pool reaches, and so
  does what can be said about the history of the run
* `Verified.panics` — the only failures are those that the proof allows
-/

/-- A program on the shared state `S` that can fail with `E` and returns an `α`. -/
inductive Prog (S E α : Type) : Type 1
  | ret (a : α) : Prog S E α
  /-- It takes a step: `none` to wait, an error to fail. -/
  | act {β : Type} (f : S → Option (Except E (β × S))) (k : β → Prog S E α) : Prog S E α

namespace Prog

variable {S E α β γ : Type}

/-- One program after the other. -/
def bind : Prog S E α → (α → Prog S E β) → Prog S E β
  | .ret a, k => k a
  | .act f k', k => .act f fun b => (k' b).bind k

instance : Monad (Prog S E) where
  pure := .ret
  bind := .bind

@[simp] theorem pure_eq (a : α) : (pure a : Prog S E α) = .ret a := rfl
@[simp] theorem bind_eq (m : Prog S E α) (k : α → Prog S E β) : m >>= k = m.bind k := rfl
@[simp] theorem ret_bind (a : α) (k : α → Prog S E β) : (ret a : Prog S E α).bind k = k a := rfl

/-- A step. -/
def step (f : S → Option (Except E (β × S))) : Prog S E β := .act f .ret

/-- A step that changes the state and always takes place. -/
def modify (f : S → S) : Prog S E Unit := step fun s => some (.ok ((), f s))

/-- A step that reads the state. -/
def read (f : S → β) : Prog S E β := step fun s => some (.ok (f s, s))

/-- A failure. -/
def panic (e : E) : Prog S E α := step fun _ => some (.error e)

/-- Run a program with nobody else on the machine. -/
def eval : Prog S E α → S → Option (Except E (α × S))
  | .ret a, s => some (.ok (a, s))
  | .act f k, s =>
    match f s with
    | none => none
    | some (.error e) => some (.error e)
    | some (.ok (b, s')) => (k b).eval s'

@[simp] theorem eval_ret (a : α) (s : S) : (ret a : Prog S E α).eval s = some (.ok (a, s)) := rfl

@[simp] theorem eval_step (f : S → Option (Except E (β × S))) (s : S) : (step f).eval s = f s := by
  simp only [step, eval]
  match f s with
  | none => rfl
  | some (.error e) => rfl
  | some (.ok (b, s')) => rfl

@[simp] theorem eval_modify (f : S → S) (s : S) :
    (modify f : Prog S E Unit).eval s = some (.ok ((), f s)) := rfl

@[simp] theorem eval_read (f : S → β) (s : S) :
    (read f : Prog S E β).eval s = some (.ok (f s, s)) := rfl

@[simp] theorem eval_panic (e : E) (s : S) :
    (panic e : Prog S E α).eval s = some (.error e) := rfl

/-- **One program after the other**, with nobody else on the machine. -/
theorem eval_bind (m : Prog S E α) (k : α → Prog S E β) (s : S) :
    (m.bind k).eval s =
      match m.eval s with
      | none => none
      | some (.error e) => some (.error e)
      | some (.ok (a, s')) => (k a).eval s' := by
  induction m generalizing s with
  | ret a => rfl
  | act f k' ih =>
    simp only [bind, eval]
    match f s with
    | none => rfl
    | some (.error e) => rfl
    | some (.ok (b, s₁)) => exact ih b s₁

/-- Run a program with nobody else on the machine, as long as every step meets the condition `rel`.
-/
def evalIf (rel : S → S → Prop) [DecidableRel rel] :
    Prog S E α → S → Option (Except E (α × S))
  | .ret a, s => some (.ok (a, s))
  | .act f k, s =>
    match f s with
    | none => none
    | some (.error e) => some (.error e)
    | some (.ok (b, s')) => if rel s s' then (k b).evalIf rel s' else none

/-- A program that uses the first half of the state. -/
def onFst {T : Type} : Prog S E α → Prog (S × T) E α
  | .ret a => .ret a
  | .act f k =>
    .act (fun x => (f x.1).map fun r => r.map fun y => (y.1, y.2, x.2)) fun b => (k b).onFst

section Part

variable {γ : Type} {o : Option (Except E α)} {F : α → γ}

theorem error_of_map {e : E} (h : o.map (fun r => r.map F) = some (.error e)) :
    o = some (.error e) := by
  match o with
  | none => simp at h
  | some (.ok r) => simp [Except.map] at h
  | some (.error e') => simpa [Except.map] using h

theorem ok_of_map {y : γ} (h : o.map (fun r => r.map F) = some (.ok y)) :
    ∃ r, o = some (.ok r) ∧ F r = y := by
  match o with
  | none => simp at h
  | some (.error e) => simp [Except.map] at h
  | some (.ok r) => exact ⟨r, rfl, by simpa [Except.map] using h⟩

end Part

theorem onFst_bind {T : Type} (m : Prog S E α) (k : α → Prog S E β) :
    (m.bind k).onFst (T := T) = m.onFst.bind fun a => (k a).onFst := by
  induction m with
  | ret a => rfl
  | act f k' ih =>
    simp only [bind, onFst, ih]

theorem eval_onFst {T : Type} (m : Prog S E α) (x : S × T) :
    m.onFst.eval x = (m.eval x.1).map fun r => r.map fun y => (y.1, y.2, x.2) := by
  induction m generalizing x with
  | ret a => rfl
  | act f k ih =>
    simp only [onFst, eval]
    rcases f x.1 with _ | e | ⟨b, s⟩
    · rfl
    · rfl
    · exact ih b (s, x.2)

end Prog

namespace Concurrent

open Function

/-- Why a move does not take place. -/
inductive Halt (E : Type)
  | waits
  | panics (e : E)

/-- The shared state, and where the program of each process has got to. -/
structure Pool (ι S E : Type) : Type 1 where
  state : S
  prog : ι → Prog S E Unit

/-- What can happen. -/
inductive Move (ι C : Type)
  /-- A process that has nothing to do makes a call. -/
  | call (p : ι) (c : C)
  /-- A process takes the next step of its call. -/
  | go (p : ι)

variable {ι S E C L : Type} [DecidableEq ι]

namespace Pool

/-- Nobody is in a call. -/
def idle (s : S) : Pool ι S E := ⟨s, fun _ => .ret ()⟩

/-- Process `p` is not in a call. -/
def Ready (t : Pool ι S E) (p : ι) : Prop := t.prog p = .ret ()

/-- One move. -/
def move (code : ι → C → Prog S E Unit) (t : Pool ι S E) : Move ι C → Except (Halt E) (Pool ι S E)
  | .call p c =>
    match t.prog p with
    | .ret _ => .ok { t with prog := update t.prog p (code p c) }
    | .act _ _ => .error .waits
  | .go p =>
    match t.prog p with
    | .ret _ => .error .waits
    | .act f k =>
      match f t.state with
      | none => .error .waits
      | some (.error e) => .error (.panics e)
      | some (.ok (b, s)) => .ok ⟨s, update t.prog p (k b)⟩

end Pool

/-- The pools that are reached by moves that all meet the condition `rel`. -/
inductive Reach (code : ι → C → Prog S E Unit) (rel : S → S → Prop) (t₀ : Pool ι S E) :
    Pool ι S E → Prop
  | refl : Reach code rel t₀ t₀
  | step {t t' : Pool ι S E} {m : Move ι C} : Reach code rel t₀ t → t.move code m = .ok t' →
      rel t.state t'.state → Reach code rel t₀ t'

/-- The pools that are reached by such moves, with a history that `note` keeps of them. -/
inductive Recorded {H : Type} (code : ι → C → Prog S E Unit) (rel : S → S → Prop)
    (note : H → S → S → H) (t₀ : Pool ι S E) (h₀ : H) : Pool ι S E → H → Prop
  | refl : Recorded code rel note t₀ h₀ t₀ h₀
  | step {t t' : Pool ι S E} {h : H} {m : Move ι C} : Recorded code rel note t₀ h₀ t h →
      t.move code m = .ok t' → rel t.state t'.state →
      Recorded code rel note t₀ h₀ t' (note h t.state t'.state)

section Calls

variable {code : ι → C → Prog S E Unit} {t₀ : Pool ι S E} {t : Pool ι S E}

theorem Reach.mono {rel rel' : S → S → Prop} (h : Reach code rel t₀ t)
    (hrel : ∀ s s', rel s s' → rel' s s') : Reach code rel' t₀ t := by
  induction h with
  | refl => exact .refl
  | step _ hm hr ih => exact .step ih hm (hrel _ _ hr)

theorem Reach.recorded {H : Type} (note : H → S → S → H) (h₀ : H) {rel : S → S → Prop}
    (hr : Reach code rel t₀ t) : ∃ h, Recorded code rel note t₀ h₀ t h := by
  induction hr with
  | refl => exact ⟨h₀, .refl⟩
  | step _ hm hrel ih =>
    obtain ⟨h, ih⟩ := ih
    exact ⟨_, .step ih hm hrel⟩

theorem Recorded.mono {H : Type} {note : H → S → S → H} {h₀ h : H} {rel rel' : S → S → Prop}
    (hr : Recorded code rel note t₀ h₀ t h)
    (hrel : ∀ s s', rel s s' → rel' s s') : Recorded code rel' note t₀ h₀ t h := by
  induction hr with
  | refl => exact .refl
  | step _ hm hr ih => exact .step ih hm (hrel _ _ hr)

/-- Calls that are made one after the other, as long as every step meets the condition `rel`. -/
def evalCalls (code : ι → C → Prog S E Unit) (rel : S → S → Prop) [DecidableRel rel] :
    List (ι × C) → S → Option (Except E S)
  | [], s => some (.ok s)
  | (p, a) :: cs, s =>
    match (code p a).evalIf rel s with
    | none => none
    | some (.error e) => some (.error e)
    | some (.ok (_, s')) => evalCalls code rel cs s'

variable {rel : S → S → Prop} [DecidableRel rel]

/-- A process can finish its program with nobody else moving. -/
theorem Reach.evalIf {m : Prog S E Unit} {s s' : S} {p : ι}
    (hr : Reach code rel t₀ ⟨s, update (fun _ => .ret ()) p m⟩)
    (hm : m.evalIf rel s = some (.ok ((), s'))) : Reach code rel t₀ (.idle s') := by
  induction m generalizing s with
  | ret a =>
    cases hm
    have hidle : update (fun _ => (.ret () : Prog S E Unit)) p (.ret ()) =
        fun _ => .ret () := update_eq_self p _
    rwa [hidle] at hr
  | act f k ih =>
    simp only [Prog.evalIf] at hm
    match hf : f s with
    | none => simp [hf] at hm
    | some (.error e) => simp [hf] at hm
    | some (.ok (b, s₁)) =>
      simp only [hf] at hm
      split_ifs at hm with hrel
      refine ih b (hr.step (m := .go p) ?_ hrel) hm
      simp [Pool.move, hf]

/-- **Calls made one after the other** are a run of the pool. -/
theorem Reach.evalCalls (hrefl : ∀ s, rel s s) {cs : List (ι × C)} {s s' : S}
    (hr : Reach code rel t₀ (.idle s))
    (h : evalCalls code rel cs s = some (.ok s')) : Reach code rel t₀ (.idle s') := by
  induction cs generalizing s with
  | nil =>
    cases h
    exact hr
  | cons x cs ih =>
    obtain ⟨p, a⟩ := x
    simp only [Concurrent.evalCalls] at h
    match hm : (code p a).evalIf rel s with
    | none => simp [hm] at h
    | some (.error e) => simp [hm] at h
    | some (.ok ((), s₁)) =>
      simp only [hm] at h
      exact ih (Reach.evalIf (hr.step (m := .call p a) rfl (hrefl s)) hm) h

/-- The calls come to their ends, in a state that passes a test. -/
def endsIn (code : ι → C → Prog S E Unit) (rel : S → S → Prop) [DecidableRel rel]
    (cs : List (ι × C)) (s : S) (test : S → Bool) : Bool :=
  match evalCalls code rel cs s with
  | some (.ok s') => test s'
  | _ => false

theorem Reach.of_endsIn (hrefl : ∀ s, rel s s) {cs : List (ι × C)} {s : S} {test : S → Bool}
    (h : endsIn code rel cs s test = true) :
    ∃ s', Reach code rel (.idle s) (.idle s') ∧ test s' = true := by
  rw [endsIn] at h
  match hrun : Concurrent.evalCalls code rel cs s with
  | none => simp [hrun] at h
  | some (.error e) => simp [hrun] at h
  | some (.ok s') =>
    simp only [hrun] at h
    exact ⟨s', .evalCalls hrefl .refl hrun, h⟩

end Calls

section Turns

variable (code : ι → C → Prog S E Unit) (rel : S → S → Prop) [DecidableRel rel]

/-- Process `p` moves as often as it can, but at most `n` times, with steps that meet the
condition `rel`. -/
def Pool.goes (p : ι) : ℕ → Pool ι S E → Pool ι S E
  | 0, t => t
  | n + 1, t =>
    match t.move code (.go p) with
    | .ok t' => if rel t.state t'.state then t'.goes p n else t
    | .error _ => t

/-- A process may make a call, and then moves as often as it can, but at most `n` times. -/
def Pool.turn (t : Pool ι S E) : ι × Option C × ℕ → Pool ι S E
  | (p, none, n) => t.goes code rel p n
  | (p, some a, n) =>
    match t.move code (.call p a) with
    | .ok t' => if rel t.state t'.state then t'.goes code rel p n else t
    | .error _ => t

variable {code rel} {t₀ t : Pool ι S E}

theorem Reach.goes (hr : Reach code rel t₀ t) (p : ι) (n : ℕ) :
    Reach code rel t₀ (t.goes code rel p n) := by
  induction n generalizing t with
  | zero => exact hr
  | succ n ih =>
    rw [Pool.goes]
    match hm : t.move code (.go p) with
    | .error _ => exact hr
    | .ok t' =>
      dsimp only
      split_ifs with hrel
      · exact ih (hr.step hm hrel)
      · exact hr

/-- **Turns** of processes are a run of the pool. -/
theorem Reach.turns (hr : Reach code rel t₀ t) (xs : List (ι × Option C × ℕ)) :
    Reach code rel t₀ (xs.foldl (Pool.turn code rel) t) := by
  induction xs generalizing t with
  | nil => exact hr
  | cons x xs ih =>
    refine ih ?_
    obtain ⟨p, a, n⟩ := x
    cases a with
    | none => exact hr.goes p n
    | some a =>
      rw [Pool.turn]
      match hm : t.move code (.call p a) with
      | .error _ => exact hr
      | .ok t' =>
        dsimp only
        split_ifs with hrel
        · exact (hr.step hm hrel).goes p n
        · exact hr

theorem Pool.exists_move (code : ι → C → Prog S E Unit) (t : Pool ι S E) (m : Move ι C)
    (test : Pool ι S E → Bool)
    (h : (match t.move code m with | .ok t' => test t' | .error _ => false) = true) :
    ∃ t', t.move code m = .ok t' ∧ test t' = true := by
  match hm : t.move code m with
  | .error _ => simp [hm] at h
  | .ok t' =>
    rw [hm] at h
    exact ⟨t', rfl, h⟩

end Turns

/-! ### Verification -/

/-- What is assumed and what is promised. -/
structure Contract (S E : Type) where
  /-- The failures that are allowed. -/
  ok : E → Prop
  /-- What is assumed of each step. -/
  rel : S → S → Prop
  /-- What is promised of each step. -/
  guar : S → S → Prop

/-- Process `p`, which knows `l`, can run the program: every step keeps the invariant `I`, fails
only as the contract allows, and in the end `Q` holds of the result and of what the process knows.
-/
def Wp (I : (ι → L) → S → Prop) (c : Contract S E) (p : ι) {α : Type} :
    Prog S E α → (α → L → Prop) → L → Prop
  | .ret a, Q, l => Q a l
  | .act f k, Q, l => ∀ g s, I g s → g p = l →
    (∀ e, f s = some (.error e) → c.ok e) ∧
      ∀ b s', f s = some (.ok (b, s')) → c.rel s s' →
        c.guar s s' ∧ ∃ l', I (update g p l') s' ∧ Wp I c p (k b) Q l'

section Families

variable {g : ι → L} {p : ι} {l : L}

theorem exists_update {P : L → Prop} :
    (∃ q, P (update g p l q)) ↔ P l ∨ ∃ q, q ≠ p ∧ P (g q) := by
  constructor
  · rintro ⟨q, hq⟩
    by_cases hqp : q = p
    · subst hqp
      rw [update_self] at hq
      exact .inl hq
    · rw [update_of_ne hqp] at hq
      exact .inr ⟨q, hqp, hq⟩
  · rintro (h | ⟨q, hqp, hq⟩)
    · exact ⟨p, by rwa [update_self]⟩
    · exact ⟨q, by rwa [update_of_ne hqp]⟩

theorem fst_update {X : Type} (G : ι → L × X) (p : ι) (y : L × X) :
    (fun q => (update G p y q).1) = update (fun q => (G q).1) p y.1 := by
  funext q
  by_cases hqp : q = p
  · subst hqp
    simp
  · simp [hqp]

theorem update_eq_some {β : Type} {g : ι → Option β} {q : ι} {v : Option β} {c : β}
    (h : update g p v q = some c) : q = p ∧ v = some c ∨ q ≠ p ∧ g q = some c := by
  by_cases hqp : q = p
  · subst hqp
    exact .inl ⟨rfl, by rwa [update_self] at h⟩
  · exact .inr ⟨hqp, by rwa [update_of_ne hqp] at h⟩

theorem exists_ne_of_exists (P : L → Prop) (h : ∃ q, P (g q)) (hp : P (g p) → P l) :
    P l ∨ ∃ q, q ≠ p ∧ P (g q) := by
  obtain ⟨q, hq⟩ := h
  by_cases hqp : q = p
  · exact .inl (hp (hqp ▸ hq))
  · exact .inr ⟨q, hqp, hq⟩

variable [Fintype ι]

theorem sum_eq_off {a b : ι → ℕ} {p : ι} (h : ∀ q, q ≠ p → a q = b q) :
    ∑ q, a q + b p = ∑ q, b q + a p := by
  have ha := Finset.add_sum_erase Finset.univ a (Finset.mem_univ p)
  have hb := Finset.add_sum_erase Finset.univ b (Finset.mem_univ p)
  have hrest : ∑ q ∈ Finset.univ.erase p, a q = ∑ q ∈ Finset.univ.erase p, b q :=
    Finset.sum_congr rfl fun q hq => h q (Finset.ne_of_mem_erase hq)
  omega

theorem sum_update (f : L → ℕ) (g : ι → L) (p : ι) (l : L) :
    ∑ q, f (update g p l q) + f (g p) = ∑ q, f (g q) + f l := by
  have hsum := sum_eq_off (a := fun q => f (update g p l q)) (b := fun q => f (g q))
    (p := p) fun q hq => by rw [update_of_ne hq]
  rwa [update_self] at hsum

theorem add_le_sum (f : L → ℕ) (g : ι → L) {p q : ι} (hpq : p ≠ q) :
    f (g p) + f (g q) ≤ ∑ r, f (g r) := by
  rw [← Finset.add_sum_erase _ _ (Finset.mem_univ p)]
  have hq : f (g q) ≤ ∑ r ∈ Finset.univ.erase p, f (g r) :=
    Finset.single_le_sum (f := fun r => f (g r)) (fun _ _ => Nat.zero_le _)
      (Finset.mem_erase.mpr ⟨Ne.symm hpq, Finset.mem_univ q⟩)
  omega

end Families

variable {I : (ι → L) → S → Prop} {c : Contract S E} {p : ι} {α β : Type} {l : L} {m : Prog S E α}

/-- **Consequence.** -/
theorem Wp.mono {Q Q' : α → L → Prop} (h : Wp I c p m Q l)
    (hQ : ∀ a l, Q a l → Q' a l) : Wp I c p m Q' l := by
  induction m generalizing l with
  | ret a => exact hQ a l h
  | act f k ih =>
    intro g s hI hg
    obtain ⟨herr, hok⟩ := h g s hI hg
    refine ⟨herr, fun b s' hf hrel => ?_⟩
    obtain ⟨hguar, l', hI', hk⟩ := hok b s' hf hrel
    exact ⟨hguar, l', hI', ih b hk⟩

variable {Q : β → L → Prop}

/-- **One program after the other.** -/
theorem Wp.bind {k : α → Prog S E β}
    (h : Wp I c p m (fun a l => Wp I c p (k a) Q l) l) : Wp I c p (m.bind k) Q l := by
  induction m generalizing l with
  | ret a => exact h
  | act f k' ih =>
    intro g s hI hg
    obtain ⟨herr, hok⟩ := h g s hI hg
    refine ⟨herr, fun b s' hf hrel => ?_⟩
    obtain ⟨hguar, l', hI', hk⟩ := hok b s' hf hrel
    exact ⟨hguar, l', hI', ih b hk⟩

theorem Wp.step {f : S → Option (Except E (β × S))}
    (herr : ∀ g s e, I g s → g p = l → f s = some (.error e) → c.ok e)
    (hok : ∀ g s b s', I g s → g p = l → f s = some (.ok (b, s')) → c.rel s s' →
      c.guar s s' ∧ ∃ l', I (update g p l') s' ∧ Q b l') : Wp I c p (Prog.step f) Q l :=
  fun g s hI hg => ⟨fun e => herr g s e hI hg, fun b s' => hok g s b s' hI hg⟩

/-- A step that reads. The process may learn something from it. -/
theorem Wp.read {f : S → β} (hguar : ∀ s, c.guar s s)
    (h : ∀ g s, I g s → g p = l → ∃ l', I (update g p l') s ∧ Q (f s) l') :
    Wp I c p (Prog.read f) Q l := by
  refine Wp.step (fun g s e _ _ hf => by cases hf) fun g s b s' hI hg hf _ => ?_
  cases hf
  exact ⟨hguar s, h g s hI hg⟩

theorem Wp.modify {f : S → S} {Q : Unit → L → Prop} (h : ∀ g s, I g s → g p = l → c.rel s (f s) →
      c.guar s (f s) ∧ ∃ l', I (update g p l') (f s) ∧ Q () l') : Wp I c p (Prog.modify f) Q l := by
  refine Wp.step (fun g s e _ _ hf => by cases hf) fun g s b s' hI hg hf hrel => ?_
  cases hf
  exact h g s hI hg hrel

theorem Wp.panic {e : E} {Q : α → L → Prop} (h : c.ok e) :
    Wp I c p (Prog.panic e : Prog S E α) Q l := by
  refine fun g s _ _ => ⟨fun e' he' => ?_, fun b s' hs' => ?_⟩
  · cases he'
    exact h
  · cases hs'

section Product

variable {T L' : Type}

/-- A contract about the first half of the state. -/
def Contract.onFst (c : Contract S E) : Contract (S × T) E :=
  ⟨c.ok, fun x y => c.rel x.1 y.1, fun x y => c.guar x.1 y.1⟩

/-- **A program that uses the first half of the state** keeps what is said about the second. -/
theorem Wp.onFst {I' : (ι → L') → T → Prop} {Q : α → L × L' → Prop}
    {l' : L'} (h : Wp I c p m (fun a l => Q a (l, l')) l) :
    Wp (fun g (x : S × T) => I (fun q => (g q).1) x.1 ∧ I' (fun q => (g q).2) x.2) c.onFst p
      m.onFst Q (l, l') := by
  induction m generalizing l with
  | ret a => exact h
  | act f k ih =>
    intro g x hI hg
    obtain ⟨herr, hok⟩ := h _ x.1 hI.1 (congrArg Prod.fst hg)
    refine ⟨fun e he => herr e (Prog.error_of_map he), fun b x' hx' hrel => ?_⟩
    obtain ⟨r, hf, hr⟩ := Prog.ok_of_map hx'
    cases hr
    obtain ⟨hguar, l₁, hI₁, hk⟩ := hok r.1 r.2 hf hrel
    refine ⟨hguar, (l₁, l'), ⟨?_, ?_⟩, ih r.1 hk⟩
    · convert hI₁ using 1
      exact fst_update ..
    · convert hI.2 using 1
      funext q
      by_cases hq : q = p
      · subst hq
        simp [hg]
      · simp [hq]

/-- A step on the first half of the state, when the invariant is about both. -/
theorem Wp.fstStep {I : (ι → L) → S × T → Prop} {f : S → Option (Except E (β × S))}
    (herr : ∀ g s u e, I g (s, u) → g p = l → f s = some (.error e) → c.ok e)
    (hok : ∀ g s u b s', I g (s, u) → g p = l → f s = some (.ok (b, s')) → c.rel s s' →
      c.guar s s' ∧ ∃ l', I (update g p l') (s', u) ∧ Q b l') :
    Wp I c.onFst p (Prog.step f).onFst Q l := by
  intro g x hI hg
  refine ⟨fun e he => herr g x.1 x.2 e hI hg (Prog.error_of_map he), fun b x' hx' hrel => ?_⟩
  obtain ⟨r, hf, hr⟩ := Prog.ok_of_map hx'
  cases hr
  exact hok g x.1 x.2 r.1 r.2 hI hg hf hrel

/-- **A program seen from a larger system.** What the larger invariant says about a state contains
the smaller one, for some second half that the program cannot change; and what the process knows in
the larger system is made from what it knows in the smaller one by `put`. -/
theorem Wp.zoom {U : Type} {I : (ι → L) → S × U → Prop} {J : (ι → L') → S × T → Prop} {Q : α → L' →
    Prop} (put : L → L') (hJ : ∀ g s t l, J g (s, t) → g p = put l → ∃ h u, I h (s, u) ∧ h p = l ∧
      ∀ l₁ s₁, I (update h p l₁) (s₁, u) → J (update g p (put l₁)) (s₁, t))
    (h : Wp I c.onFst p m.onFst (fun a l => Q a (put l)) l) : Wp J c.onFst p m.onFst Q (put l) := by
  induction m generalizing l with
  | ret a => exact h
  | act f k ih =>
    intro g x hx hg
    obtain ⟨h₀, u, hI, hl, hback⟩ := hJ g x.1 x.2 l hx hg
    obtain ⟨herr, hok⟩ := h h₀ (x.1, u) hI hl
    refine ⟨fun e he => herr e (by simp [Prog.error_of_map he, Except.map]),
      fun b x' hx' hrel => ?_⟩
    obtain ⟨r, hf, hr⟩ := Prog.ok_of_map hx'
    cases hr
    obtain ⟨hguar, l', hI', hk⟩ := hok r.1 (r.2, u) (by simp [hf, Except.map]) hrel
    exact ⟨hguar, put l', hback l' r.2 hI', ih r.1 hk⟩

/-- **A step that uses the second half of the state** keeps what is said about the first. -/
theorem Wp.onSnd {I' : (ι → L') → T → Prop} {f : T → β × T} {Q : β → L × L' → Prop}
    {l' : L'} (hguar : ∀ s, c.guar s s) (h : ∀ g t, I' g t → g p = l' →
      ∃ l₁, I' (update g p l₁) (f t).2 ∧ Q (f t).1 (l, l₁)) :
    Wp (fun g (x : S × T) => I (fun q => (g q).1) x.1 ∧ I' (fun q => (g q).2) x.2) c.onFst p
      (Prog.step fun x => some (.ok ((f x.2).1, x.1, (f x.2).2))) Q (l, l') := by
  refine Wp.step (fun g s e _ _ hf => by cases hf) fun g x b x' hI hg hf _ => ?_
  cases hf
  obtain ⟨l₁, hI₁, hQ⟩ := h _ x.2 hI.2 (congrArg Prod.snd hg)
  refine ⟨hguar _, (l, l₁), ⟨?_, ?_⟩, hQ⟩
  · convert hI.1 using 1
    funext q
    by_cases hq : q = p
    · subst hq
      simp [hg]
    · simp [hq]
  · convert hI₁ using 1
    funext q
    by_cases hq : q = p
    · subst hq
      simp
    · simp [hq]

end Product

section Soundness

variable {code : ι → C → Prog S E Unit} {Idle : L → Prop} {t₀ t t' : Pool ι S E}

/-- What a verified pool satisfies at every moment: each process knows something with which it can
finish its call. -/
def Verified (I : (ι → L) → S → Prop) (c : Contract S E) (Idle : L → Prop) (t : Pool ι S E) :
    Prop :=
  ∃ g, I g t.state ∧ ∀ p, Wp I c p (t.prog p) (fun _ l => Idle l) (g p)

section

variable (hcode : ∀ p a l, Idle l → Wp I c p (code p a) (fun _ l => Idle l) l)

include hcode

/-- **Every move keeps a pool verified**, and a move that changes the state is as promised. -/
theorem Verified.move (hv : Verified I c Idle t) {m : Move ι C} (hm : t.move code m = .ok t')
    (hrel : c.rel t.state t'.state) :
    Verified I c Idle t' ∧ (t'.state = t.state ∨ c.guar t.state t'.state) := by
  obtain ⟨g, hI, hg⟩ := hv
  cases m with
  | call p a =>
    simp only [Pool.move] at hm
    cases hp : t.prog p with
    | act f k => simp [hp] at hm
    | ret r =>
      simp only [hp] at hm
      cases hm
      refine ⟨⟨g, hI, fun q => ?_⟩, .inl rfl⟩
      by_cases hq : q = p
      · subst hq
        have hidle := hg q
        rw [hp] at hidle
        simpa using hcode q a (g q) hidle
      · simpa [hq] using hg q
  | go p =>
    simp only [Pool.move] at hm
    cases hp : t.prog p with
    | ret a => simp [hp] at hm
    | act f k =>
      simp only [hp] at hm
      match hf : f t.state with
      | none => simp [hf] at hm
      | some (.error e) => simp [hf] at hm
      | some (.ok (b, s)) =>
        simp only [hf] at hm
        cases hm
        have hwp := hg p
        rw [hp] at hwp
        obtain ⟨hguar, l', hI', hk⟩ := (hwp g t.state hI rfl).2 b s hf hrel
        refine ⟨⟨update g p l', hI', fun q => ?_⟩, .inr hguar⟩
        by_cases hq : q = p
        · subst hq
          simpa using hk
        · simpa [hq] using hg q

/-- **The invariant holds in every state that a pool reaches.** -/
theorem Reach.sound (hv : Verified I c Idle t₀) (hr : Reach code c.rel t₀ t) :
    Verified I c Idle t := by
  induction hr with
  | refl => exact hv
  | step _ hm hrel ih => exact (ih.move hcode hm hrel).1

/-- **What is said about the history holds in every state that a pool reaches**, if every step that
is as promised keeps it. -/
theorem Recorded.sound {H : Type} {note : H → S → S → H} {h₀ h : H} {K : S → H → Prop}
    (hv : Verified I c Idle t₀) (hK₀ : K t₀.state h₀)
    (hK : ∀ g g' s s' h, I g s → I g' s' → s' = s ∨ c.guar s s' → K s h → K s' (note h s s'))
    (hr : Recorded code c.rel note t₀ h₀ t h) : Verified I c Idle t ∧ K t.state h := by
  induction hr with
  | refl => exact ⟨hv, hK₀⟩
  | step _ hm hrel ih =>
    have hmove := ih.1.move hcode hm hrel
    obtain ⟨g, hg, -⟩ := ih.1
    obtain ⟨g', hg', -⟩ := hmove.1
    exact ⟨hmove.1, hK g g' _ _ _ hg hg' hmove.2 ih.2⟩

end

theorem Verified.idle {g : ι → L} {p : ι}
    (hg : ∀ p, Wp I c p (t.prog p) (fun _ l => Idle l) (g p)) (hp : t.Ready p) : Idle (g p) := by
  have h := hg p
  rw [hp] at h
  exact h

/-- **The only failures are those that the proof allows.** -/
theorem Verified.panics (hv : Verified I c Idle t) {m : Move ι C} {e : E}
    (hm : t.move code m = .error (.panics e)) : c.ok e := by
  obtain ⟨g, hI, hg⟩ := hv
  cases m with
  | call p a =>
    simp only [Pool.move] at hm
    cases hp : t.prog p <;> simp [hp] at hm
  | go p =>
    simp only [Pool.move] at hm
    cases hp : t.prog p with
    | ret a => simp [hp] at hm
    | act f k =>
      simp only [hp] at hm
      have hwp := hg p
      rw [hp] at hwp
      match hf : f t.state with
      | none => simp [hf] at hm
      | some (.ok (b, s)) => simp [hf] at hm
      | some (.error e') =>
        simp only [hf] at hm
        cases hm
        exact (hwp g t.state hI rfl).1 e hf

end Soundness

end Concurrent
