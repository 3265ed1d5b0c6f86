import Xv6.Library.Concurrent

/-!
# Programs over an interface

A program that asks for operations of an interface, without saying how they are carried out: a tree
with one node for each operation and one branch for each answer. `Call.run` carries the operations
out, each as a program of its own.

## How to verify such a program

A `Spec` says what may be asked for by a process that knows `l`, and what the process knows after
each answer. `Call.wp` is what a whole program needs, by recursion on the tree; no state occurs in
it. An implementation that meets the specification of each operation then runs the whole program as
`Wp` requires, with any other processes at the same time.

## Main results

* `Call.wp_bind` — composition
* `Call.eval_run` — a verified program that runs alone
* `Concurrent.Wp.run` — the implementation of a verified program is verified
-/

/-- A program over the interface with operations `O` that are answered by `Ret`. -/
inductive Call (O : Type) (Ret : O → Type) (α : Type) : Type 1
  | ret (a : α) : Call O Ret α
  | op (o : O) (k : Ret o → Call O Ret α) : Call O Ret α

namespace Call

variable {O : Type} {Ret : O → Type} {α β S E L : Type}

/-- One program after the other. -/
def bind : Call O Ret α → (α → Call O Ret β) → Call O Ret β
  | .ret a, k => k a
  | .op o k', k => .op o fun r => (k' r).bind k

instance : Monad (Call O Ret) where
  pure := .ret
  bind := .bind

@[simp] theorem pure_eq (a : α) : (pure a : Call O Ret α) = .ret a := rfl
theorem bind_eq (m : Call O Ret α) (k : α → Call O Ret β) : m >>= k = m.bind k := rfl
@[simp] theorem ret_bind (a : α) (k : α → Call O Ret β) : (ret a : Call O Ret α).bind k = k a := rfl

/-- Ask for an operation. -/
def ask (o : O) : Call O Ret (Ret o) := .op o .ret

/-- Carry the operations out. -/
def run (impl : (o : O) → Prog S E (Ret o)) : Call O Ret α → Prog S E α
  | .ret a => .ret a
  | .op o k => (impl o).bind fun r => (k r).run impl

end Call

/-- What may be asked for, and what is known after the answer. -/
abbrev Spec (O : Type) (Ret : O → Type) (L : Type) : Type :=
  (o : O) → (Ret o → L → Prop) → L → Prop

namespace Call

variable {O : Type} {Ret : O → Type} {α β S E L : Type} {Φ : Spec O Ret L}

/-- A process that knows `l` may run the program, and in the end `Q` holds. -/
def wp (Φ : Spec O Ret L) : Call O Ret α → (α → L → Prop) → L → Prop
  | .ret a, Q, l => Q a l
  | .op o k, Q, l => Φ o (fun r l => (k r).wp Φ Q l) l

@[simp] theorem wp_ret (a : α) (Q : α → L → Prop) (l : L) :
    (ret a : Call O Ret α).wp Φ Q l = Q a l := rfl

@[simp] theorem wp_ask (o : O) (Q : Ret o → L → Prop) (l : L) : (ask o).wp Φ Q l = Φ o Q l := rfl

/-- **One program after the other.** -/
@[simp] theorem wp_bind (m : Call O Ret α) (k : α → Call O Ret β) (Q : β → L → Prop) (l : L) :
    (m >>= k).wp Φ Q l = m.wp Φ (fun a l => (k a).wp Φ Q l) l := by
  rw [bind_eq]
  induction m generalizing l with
  | ret a => rfl
  | op o k' ih => exact congrArg (fun R => Φ o R l) (funext fun r => funext fun l => ih r l)

/-- What operations do when a program runs alone: what is known is the state. -/
def alone (impl : (o : O) → Prog S E (Ret o)) : Spec O Ret S := fun o Q s =>
  ∃ r s', (impl o).eval s = some (.ok (r, s')) ∧ Q r s'

/-- **A program that runs alone** comes to its end. -/
theorem eval_run {impl : (o : O) → Prog S E (Ret o)} {m : Call O Ret α} {Q : α → S → Prop} {s : S}
    (h : m.wp (alone impl) Q s) : ∃ a s', (m.run impl).eval s = some (.ok (a, s')) ∧ Q a s' := by
  induction m generalizing s with
  | ret a => exact ⟨a, s, rfl, h⟩
  | op o k ih =>
    obtain ⟨r, s₁, ho, hk⟩ := h
    obtain ⟨a, s', hrun, hQ⟩ := ih r hk
    refine ⟨a, s', ?_, hQ⟩
    rw [run, Prog.eval_bind, ho]
    exact hrun

end Call

namespace Concurrent

variable {ι O S E L α : Type} {Ret : O → Type} [DecidableEq ι] {I : (ι → L) → S → Prop}
  {c : Contract S E} {p : ι} {Φ : Spec O Ret L} {impl : (o : O) → Prog S E (Ret o)}

/-- **The implementation of a verified program is verified**, if each operation is implemented as it
is specified. -/
theorem Wp.run (himpl : ∀ o Q l, Φ o Q l → Wp I c p (impl o) Q l) {m : Call O Ret α}
    {Q : α → L → Prop} {l : L} (h : m.wp Φ Q l) : Wp I c p (m.run impl) Q l := by
  induction m generalizing l with
  | ret a => exact h
  | op o k ih =>
    refine Wp.bind ((himpl o _ l h).mono fun r l hr => ?_)
    exact ih r hr

/-- **The implementation of a verified program is verified**, also if the processes know more while
an operation is carried out: `idle` is what they know in addition when it is not. -/
theorem Wp.runIdle {X : Type} {I : (ι → L × X) → S → Prop} {idle : X}
    (himpl : ∀ o Q l, Φ o Q l → Wp I c p (impl o) (fun r y => y.2 = idle ∧ Q r y.1) (l, idle))
    {m : Call O Ret α} {Q : α → L → Prop} {l : L} (h : m.wp Φ Q l) :
    Wp I c p (m.run impl) (fun a y => y.2 = idle ∧ Q a y.1) (l, idle) := by
  induction m generalizing l with
  | ret a => exact ⟨rfl, h⟩
  | op o k ih =>
    refine Wp.bind ((himpl o _ l h).mono fun r y hr => ?_)
    obtain ⟨l', x⟩ := y
    obtain ⟨rfl, hr⟩ := hr
    exact ih r hr

end Concurrent
