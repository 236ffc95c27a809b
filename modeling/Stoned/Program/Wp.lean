import Stoned.Program.Run

namespace stoned.program

/-- What is known of each operation: the states from which performing it
leads to a given postcondition. -/
def Transformer (S : Signature) (σ : Type) : Type :=
  (op : S.Op) → σ → (S.Answer op → σ → Prop) → Prop

variable {S : Signature} {σ α β : Type} {T : Transformer S σ}

/-- The weakest condition under which a program, if it returns, ends in `Q`. -/
def Program.wp (T : Transformer S σ) : Program S α → (α → σ → Prop) → σ → Prop
  | .ret value, Q, s => Q value s
  | .step op next, Q, s => T op s fun answer t => (next answer).wp T Q t
  | .halt, _, _ => True

@[simp] theorem wp_ret (value : α) (Q : α → σ → Prop) (s : σ) :
    (Program.ret value).wp T Q s = Q value s := rfl

@[simp] theorem wp_step (op : S.Op) (next : S.Answer op → Program S α) (Q : α → σ → Prop) (s : σ) :
    (Program.step op next).wp T Q s = T op s fun answer t => (next answer).wp T Q t := rfl

@[simp] theorem wp_halt (Q : α → σ → Prop) (s : σ) :
    (Program.halt : Program S α).wp T Q s = True := rfl

@[simp] theorem wp_perform (op : S.Op) (Q : S.Answer op → σ → Prop) (s : σ) :
    (perform op).wp T Q s = T op s Q := rfl

@[simp] theorem wp_bind (p : Program S α) (f : α → Program S β) (Q : β → σ → Prop) (s : σ) :
    (p >>= f).wp T Q s = p.wp T (fun value t => (f value).wp T Q t) s := by
  induction p generalizing s with
  | ret value => rfl
  | step op next ih => exact congrArg (T op s) (funext fun answer => funext (ih answer))
  | halt => rfl

theorem Program.wp_ite {c : Prop} [Decidable c] {p q : Program S α} {Q : α → σ → Prop} {s : σ}
    (hp : c → p.wp T Q s) (hq : ¬c → q.wp T Q s) : (if c then p else q).wp T Q s := by
  split
  case isTrue h => exact hp h
  case isFalse h => exact hq h

/-- A weaker postcondition asks no more of any operation. -/
def Transformer.Monotone (T : Transformer S σ) : Prop :=
  ∀ op s (P Q : S.Answer op → σ → Prop), (∀ answer t, P answer t → Q answer t) →
    T op s P → T op s Q

theorem Program.wp_mono (hT : T.Monotone) {p : Program S α} {P Q : α → σ → Prop} {s : σ}
    (h : ∀ value t, P value t → Q value t) (hp : p.wp T P s) : p.wp T Q s := by
  induction p generalizing s with
  | ret value => exact h value s hp
  | step op next ih => exact hT op s _ _ (fun answer t => ih answer) hp
  | halt => trivial

/-- Every operation the run performs meets `φ` in the state it is performed
in. Nothing is said about operations the run does not reach. -/
def Program.Along (M : Machine S σ) (φ : S.Op → σ → Prop) : Program S α → σ → Prop
  | .ret _, _ => True
  | .step op next, s =>
    φ op s ∧ ∀ answer t, M.exec op s = some (answer, t) → (next answer).Along M φ t
  | .halt, _ => True

variable {M : Machine S σ} {φ : S.Op → σ → Prop}

@[simp] theorem along_ret (value : α) (s : σ) : (Program.ret value).Along M φ s := trivial

@[simp] theorem along_halt (s : σ) : (Program.halt : Program S α).Along M φ s := trivial

theorem along_step (op : S.Op) (next : S.Answer op → Program S α) (s : σ) :
    (Program.step op next).Along M φ s ↔ φ op s ∧
      ∀ answer t, M.exec op s = some (answer, t) → (next answer).Along M φ t := Iff.rfl

/-- A composition meets a step condition when its first part does and, if that
part returns, what follows does. -/
theorem along_bind (p : Program S α) (f : α → Program S β) (s : σ) :
    (p >>= f).Along M φ s ↔
      p.Along M φ s ∧ ∀ value t, p.run M s = some (value, t) → (f value).Along M φ t := by
  induction p generalizing s with
  | ret value =>
    simp only [ret_bind, along_ret, true_and, run_ret, Option.some.injEq, Prod.mk.injEq]
    constructor
    · rintro h _ _ ⟨rfl, rfl⟩
      exact h
    · exact fun h => h value s ⟨rfl, rfl⟩
  | step op next ih =>
    cases hexec : M.exec op s with
    | none => simp [along_step, hexec]
    | some out =>
      obtain ⟨answer, u⟩ := out
      simp [along_step, hexec, ih, and_assoc]
  | halt => simp

/-- What a transformer promises of an operation holds on the machine whenever
the operation meets the step condition. -/
def Transformer.Sound (T : Transformer S σ) (M : Machine S σ) (φ : S.Op → σ → Prop) : Prop :=
  ∀ op s Q, φ op s → T op s Q → ∀ answer t, M.exec op s = some (answer, t) → Q answer t

/-- A run all of whose operations meet the step condition ends where the
weakest precondition says. -/
theorem Program.wp_run (hT : T.Sound M φ) {p : Program S α} {Q : α → σ → Prop} {s t : σ}
    {value : α} (hsteps : p.Along M φ s) (hp : p.wp T Q s)
    (hrun : p.run M s = some (value, t)) : Q value t := by
  induction p generalizing s with
  | ret v =>
    simp only [run_ret, Option.some.injEq, Prod.mk.injEq] at hrun
    obtain ⟨rfl, rfl⟩ := hrun
    exact hp
  | step op next ih =>
    obtain ⟨hop, hrest⟩ := hsteps
    simp only [run_step, Option.bind_eq_some_iff] at hrun
    obtain ⟨⟨answer, u⟩, hexec, hrun⟩ := hrun
    exact ih answer (hrest answer u hexec) (hT op s _ hop hp answer u hexec) hrun
  | halt => simp at hrun

/-- The invariant rule. What every operation that meets the step condition
preserves, a run all of whose operations meet it preserves. -/
theorem Program.preserves {I : σ → Prop}
    (hstep : ∀ op s answer t, φ op s → M.exec op s = some (answer, t) → I s → I t) {p : Program S α} {s t : σ}
    {value : α} (hsteps : p.Along M φ s) (hrun : p.run M s = some (value, t)) (hs : I s) : I t := by
  induction p generalizing s with
  | ret v =>
    cases hrun
    exact hs
  | step op next ih =>
    obtain ⟨hop, hrest⟩ := hsteps
    obtain ⟨⟨answer, u⟩, hexec, hrun⟩ := Option.bind_eq_some_iff.mp hrun
    exact ih answer (hrest answer u hexec) hrun (hstep op s answer u hop hexec hs)
  | halt => cases hrun

/-- What is left of a run whose operations meet a step condition meets it too. -/
theorem Program.ComesTo.along {p q : Program S α} {s t : σ} (h : p.ComesTo M s q t)
    (hsteps : p.Along M φ s) : q.Along M φ t := by
  induction h with
  | now => exact hsteps
  | step exec _ ih => exact ih (hsteps.2 _ _ exec)

end stoned.program
