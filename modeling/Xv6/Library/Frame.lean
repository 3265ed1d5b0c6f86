import Xv6.Library.Concurrent

/-!
# Programs that change little

A program of many steps often matters only for what all its steps leave alone. `Prog.Keeps` says
that every step is as a relation requires, without any state in between; it is proved function by
function, following the text of the program. `Prog.on` runs a program on a part of the state.

## Main results

* `Prog.Keeps.bind`, `Prog.Keeps.on` — composition, and programs on a part of the state
* `Prog.Keeps.eval` — what the program as a whole leaves alone
* `Prog.Looks.eval`, `Prog.Looks.on` — programs that change nothing at all
* `Concurrent.Wp.keeps` — such a program keeps every invariant that the relation keeps
* `Concurrent.Wp.onStep` — a step on a part of the state
-/

namespace Prog

variable {S T E α β : Type} {m : Prog S E α}

/-- Every step changes the state as `R` says, and the program fails only as `ok` allows. -/
def Keeps (ok : E → Prop) (R : S → S → Prop) : Prog S E α → Prop
  | .ret _ => True
  | .act f k => (∀ s e, f s = some (.error e) → ok e) ∧
    (∀ s b s', f s = some (.ok (b, s')) → R s s') ∧ ∀ b, (k b).Keeps ok R

variable {ok : E → Prop} {R : S → S → Prop}

theorem Keeps.ret (a : α) : (Prog.ret a : Prog S E α).Keeps ok R := trivial

/-- **One program after the other.** -/
theorem Keeps.bind {k : α → Prog S E β} (hm : m.Keeps ok R) (hk : ∀ a, (k a).Keeps ok R) :
    (m.bind k).Keeps ok R := by
  induction m with
  | ret a => exact hk a
  | act f k' ih => exact ⟨hm.1, hm.2.1, fun b => ih b (hm.2.2 b)⟩

theorem Keeps.step {f : S → Option (Except E (β × S))} (herr : ∀ s e, f s = some (.error e) → ok e)
    (hok : ∀ s b s', f s = some (.ok (b, s')) → R s s') : (Prog.step f).Keeps ok R :=
  ⟨herr, hok, fun _ => trivial⟩

theorem Keeps.modify {f : S → S} (h : ∀ s, R s (f s)) :
    (Prog.modify f : Prog S E Unit).Keeps ok R := by
  refine .step (fun s e he => by cases he) fun s b s' hs => ?_
  cases hs
  exact h s

theorem Keeps.read {f : S → β} (h : ∀ s, R s s) : (Prog.read f : Prog S E β).Keeps ok R := by
  refine .step (fun s e he => by cases he) fun s b s' hs => ?_
  cases hs
  exact h s

theorem Keeps.panic {e : E} (he : ok e) : (Prog.panic e : Prog S E α).Keeps ok R := by
  refine ⟨fun s e' h => ?_, fun s b s' h => (nomatch h), fun _ => trivial⟩
  cases h
  exact he

theorem Keeps.eval (hrefl : ∀ s, R s s) (htrans : ∀ s t u, R s t → R t u → R s u) (h : m.Keeps ok R)
    {s s' : S} {a : α} (he : m.eval s = some (.ok (a, s'))) :
    R s s' := by
  induction m generalizing s with
  | ret b =>
    cases he
    exact hrefl _
  | act f k ih =>
    rw [Prog.eval] at he
    rcases hf : f s with _ | e | ⟨b, s₁⟩
    · simp [hf] at he
    · simp [hf] at he
    · exact htrans s s₁ s' (h.2.1 s b s₁ hf) (ih b (h.2.2 b) (by simpa only [hf] using he))

/-- Run a program on the part of the state that `get` shows, and put the result back. -/
def on (get : T → S) (put : T → S → T) : Prog S E α → Prog T E α
  | .ret a => .ret a
  | .act f k =>
    .act (fun t => (f (get t)).map fun r => r.map fun y => (y.1, put t y.2)) fun b =>
      (k b).on get put

variable {get : T → S} {put : T → S → T}

theorem on_bind (m : Prog S E α) (k : α → Prog S E β) :
    (m.bind k).on get put = (m.on get put).bind fun a => (k a).on get put := by
  induction m with
  | ret a => rfl
  | act f k' ih => simp only [bind, on, ih]

/-- **A program on a part of the state.** -/
theorem Keeps.on (hm : m.Keeps ok R) :
    (m.on get put).Keeps ok fun t t' => ∃ s', R (get t) s' ∧ t' = put t s' := by
  induction m with
  | ret a => trivial
  | act f k ih =>
    refine ⟨fun t e he => ?_, fun t b t' ht => ?_, fun b => ih b (hm.2.2 b)⟩
    · exact hm.1 _ e (error_of_map he)
    · obtain ⟨⟨b', s'⟩, hf, hr⟩ := ok_of_map ht
      cases hr
      exact ⟨s', hm.2.1 _ b' s' hf, rfl⟩

/-! ### Programs that only look -/

/-- Run from `s`, the program returns `a`, and no step changes anything. -/
def Looks (s : S) (a : α) : Prog S E α → Prop
  | .ret b => b = a
  | .act f k => ∃ b, f s = some (.ok (b, s)) ∧ (k b).Looks s a

variable {s : S} {a : α}

theorem Looks.read (f : S → β) (s : S) : (Prog.read f : Prog S E β).Looks s (f s) := ⟨_, rfl, rfl⟩

theorem Looks.bind {k : α → Prog S E β} {b : β} (hm : m.Looks s a) (hk : (k a).Looks s b) :
    (m.bind k).Looks s b := by
  induction m with
  | ret a' => exact (show a' = a from hm) ▸ hk
  | act f k' ih =>
    obtain ⟨b', hf, hk'⟩ := hm
    exact ⟨b', hf, ih b' hk'⟩

theorem Looks.eval (h : m.Looks s a) : m.eval s = some (.ok (a, s)) := by
  induction m with
  | ret b => exact (show b = a from h) ▸ rfl
  | act f k ih =>
    obtain ⟨b, hf, hk⟩ := h
    rw [Prog.eval, hf]
    exact ih b hk

variable (get put) in
theorem Looks.on {t : T} (h : m.Looks (get t) a) (hput : put t (get t) = t) :
    (m.on get put).Looks t a := by
  induction m with
  | ret b => exact h
  | act f k ih =>
    obtain ⟨b, hf, hk⟩ := h
    refine ⟨b, ?_, ih b hk⟩
    simp [hf, Except.map, hput]

end Prog

namespace Concurrent

variable {ι S T U E L α β : Type} [DecidableEq ι] {I : (ι → L) → S × U → Prop} {c : Contract S E}
  {p : ι} {l : L}

/-- **A program that keeps what the invariant needs** is verified. -/
theorem Wp.keeps {m : Prog S E α} {R : S → S → Prop} {Q : α → L → Prop} (hm : m.Keeps c.ok R)
    (hR : ∀ g s s' u, I g (s, u) → g p = l → R s s' → c.guar s s' ∧ I g (s', u))
    (hQ : ∀ a, Q a l) : Wp I c.onFst p m.onFst Q l := by
  induction m with
  | ret a => exact hQ a
  | act f k ih =>
    intro g x hI hg
    refine ⟨fun e he => hm.1 _ e (Prog.error_of_map he), fun b x' hx' _ => ?_⟩
    obtain ⟨r, hf, hr⟩ := Prog.ok_of_map hx'
    cases hr
    obtain ⟨hguar, hI'⟩ := hR g x.1 r.2 x.2 hI hg (hm.2.1 _ r.1 r.2 hf)
    refine ⟨hguar, l, ?_, ih r.1 (hm.2.2 r.1)⟩
    rwa [← hg, Function.update_eq_self]

/-- **A step on a part of the state.** -/
theorem Wp.onStep {I : (ι → L) → T × U → Prop} {c : Contract T E} {get : T → S} {put : T → S → T}
    {f : S → Option (Except E (β × S))} {Q : β → L → Prop}
    (herr : ∀ g t u e, I g (t, u) → g p = l → f (get t) = some (.error e) → c.ok e)
    (hok : ∀ g t u b s', I g (t, u) → g p = l → f (get t) = some (.ok (b, s')) →
      c.guar t (put t s') ∧ ∃ l', I (Function.update g p l') (put t s', u) ∧ Q b l') :
    Wp I c.onFst p ((Prog.step f).on get put).onFst Q l := by
  refine Wp.fstStep (fun g t u e hI hg he => herr g t u e hI hg (Prog.error_of_map he))
    fun g t u b t' hI hg ht _ => ?_
  obtain ⟨⟨b', s'⟩, hf, hr⟩ := Prog.ok_of_map ht
  cases hr
  exact hok g t u b' s' hI hg hf

end Concurrent
