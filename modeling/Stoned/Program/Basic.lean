import Mathlib.Tactic

namespace stoned.program

/-- The interface a program is written against: the operations it may perform
and the type of the answer to each. -/
structure Signature where
  Op : Type
  Answer : Op → Type

/-- A program over a signature. It performs one operation at a time and
continues with the operation's answer; `halt` is a computation that was cut
off before it returned. -/
inductive Program (S : Signature) (α : Type) : Type where
  | ret (value : α)
  | step (op : S.Op) (next : S.Answer op → Program S α)
  | halt

variable {S : Signature} {α β γ : Type}

/-- Sequential composition. -/
def Program.bind : Program S α → (α → Program S β) → Program S β
  | .ret value, f => f value
  | .step op next, f => .step op fun answer => (next answer).bind f
  | .halt, _ => .halt

instance : Monad (Program S) where
  pure := .ret
  bind := .bind

/-- One operation, returning its answer. -/
def perform (op : S.Op) : Program S (S.Answer op) := .step op .ret

@[simp] theorem pure_eq_ret (value : α) : (pure value : Program S α) = .ret value := rfl

@[simp] theorem ret_bind (value : α) (f : α → Program S β) : (Program.ret value >>= f) = f value := rfl

@[simp] theorem step_bind (op : S.Op) (next : S.Answer op → Program S α) (f : α → Program S β) :
    (Program.step op next >>= f) = .step op fun answer => next answer >>= f := rfl

@[simp] theorem halt_bind (f : α → Program S β) : (Program.halt >>= f) = .halt := rfl

private theorem program_bind_ret (p : Program S α) : (p >>= Program.ret) = p := by
  induction p with
  | ret value => rfl
  | step op next ih => exact congrArg (Program.step op) (funext ih)
  | halt => rfl

private theorem program_bind_assoc (p : Program S α) (f : α → Program S β) (g : β → Program S γ) :
    (p >>= f >>= g) = p >>= fun value => f value >>= g := by
  induction p with
  | ret value => rfl
  | step op next ih => exact congrArg (Program.step op) (funext ih)
  | halt => rfl

instance : LawfulMonad (Program S) :=
  LawfulMonad.mk' (Program S) program_bind_ret (fun value f => ret_bind value f) program_bind_assoc

end stoned.program
