import Xv6.Library.Concurrent

/-!
# Programs that keep an account

A program on `S × T` that works on `S` and notes on the side, in `T`, what it does. `Erases` says
that without the notes it is a given program on `S`: it waits, fails and returns in the same way. It
is proved function by function, following the text of the two programs.

## Main results

* `Prog.Erases.onFst` — a program that notes nothing
* `Prog.Erases.bind`, `Prog.Erases.note` — composition, and a note in between
-/

namespace Prog

variable {S T E α β : Type}

/-- Note something on the side. -/
def note (f : T → T) : Prog (S × T) E Unit := .modify fun x => (x.1, f x.2)

@[simp] theorem eval_note (f : T → T) (x : S × T) :
    (note f : Prog (S × T) E Unit).eval x = some (.ok ((), x.1, f x.2)) := rfl

/-- Without its account, the program `m'` is `m`. -/
def Erases (m' : Prog (S × T) E α) (m : Prog S E α) : Prop :=
  ∀ x, (m'.eval x).map (fun r => r.map fun y => (y.1, y.2.1)) = m.eval x.1

namespace Erases

variable {m' : Prog (S × T) E α} {m : Prog S E α}

theorem ret (a : α) : (Prog.ret a : Prog (S × T) E α).Erases (.ret a) := fun _ => rfl

theorem panic (e : E) : (Prog.panic e : Prog (S × T) E α).Erases (.panic e) := fun _ => rfl

theorem onFst (m : Prog S E α) : (m.onFst : Prog (S × T) E α).Erases m := fun x => by
  rw [eval_onFst]
  match m.eval x.1 with
  | none => rfl
  | some (.error e) => rfl
  | some (.ok (a, s)) => rfl

/-- **One program after the other.** -/
theorem bind {k' : α → Prog (S × T) E β} {k : α → Prog S E β} (hm : m'.Erases m)
    (hk : ∀ a, (k' a).Erases (k a)) : (m'.bind k').Erases (m.bind k) := fun x => by
  have hx := hm x
  rw [eval_bind, eval_bind, ← hx]
  match m'.eval x with
  | none => rfl
  | some (.error e) => rfl
  | some (.ok (a, y)) => exact hk a y

theorem note {f : T → T} {k' : Unit → Prog (S × T) E α} (hk : (k' ()).Erases m) :
    ((Prog.note f).bind k').Erases m := fun x => hk (x.1, f x.2)

theorem note_last {m' : Prog (S × T) E Unit} {m : Prog S E Unit} {f : T → T} (hm : m'.Erases m) :
    (m'.bind fun _ => Prog.note f).Erases m := fun x => by
  have hx := hm x
  rw [eval_bind, ← hx]
  match m'.eval x with
  | none => rfl
  | some (.error e) => rfl
  | some (.ok (a, y)) => rfl

end Erases

end Prog
