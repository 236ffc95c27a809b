import Stoned.Program.Wp

namespace stoned.program

/-- The operations of `S` together with calls to the procedures of `C`. -/
def Signature.withCalls (S C : Signature) : Signature where
  Op := S.Op ⊕ C.Op
  Answer
    | .inl op => S.Answer op
    | .inr call => C.Answer call

/-- What calls do to the state: their answers, where they return. -/
def Oracle (C : Signature) (σ : Type) : Type :=
  (call : C.Op) → σ → Option (C.Answer call × σ)

variable {S C : Signature} {σ α : Type}

/-- A machine for the operations of `S` whose calls are answered by an oracle. -/
def Machine.withCalls (M : Machine S σ) (answers : Oracle C σ) : Machine (S.withCalls C) σ where
  exec
    | .inl op => M.exec op
    | .inr call => answers call

/-- The bodies of the procedures. A body is given a bound on the turns its own
loops may take. -/
def Procedures (S C : Signature) : Type :=
  Nat → (call : C.Op) → Program (S.withCalls C) (C.Answer call)

/-- Calls answered by running the bodies, nested at most `depth` deep. -/
def Procedures.oracle (body : Procedures S C) (M : Machine S σ) : Nat → Oracle C σ
  | 0 => fun _ _ => none
  | depth + 1 => fun call s => (body depth call).run (M.withCalls (body.oracle M depth)) s

/-- The machine on which calls run the procedures' bodies. -/
abbrev Procedures.machine (body : Procedures S C) (M : Machine S σ) (depth : Nat) :
    Machine (S.withCalls C) σ := M.withCalls (body.oracle M depth)

/-- A step condition on the operations of `S`, imposed on a call through every
operation its body performs, at any depth. -/
def Procedures.Admits (body : Procedures S C) (M : Machine S σ) (φ : S.Op → σ → Prop) :
    Nat → (S.withCalls C).Op → σ → Prop
  | _, .inl op, s => φ op s
  | 0, .inr _, _ => True
  | depth + 1, .inr call, s =>
    (body depth call).Along (body.machine M depth) (body.Admits M φ depth) s

/-- What is known of the operations of `S` on a machine under a step condition,
and of each call through its specification: from which state it may lead to
which answer and state. -/
def specTransformer (M : Machine S σ) (φ : S.Op → σ → Prop)
    (spec : (call : C.Op) → σ → C.Answer call → σ → Prop) : Transformer (S.withCalls C) σ
  | .inl op, s, Q => φ op s → ∀ answer t, M.exec op s = some (answer, t) → Q answer t
  | .inr call, s, Q => ∀ answer t, spec call s answer t → Q answer t

variable {M : Machine S σ} {φ : S.Op → σ → Prop} {spec : (call : C.Op) → σ → C.Answer call → σ → Prop}
  {body : Procedures S C}

theorem specTransformer_monotone : (specTransformer M φ spec).Monotone := by
  intro op s P Q h hP
  cases op with
  | inl op => exact fun hop answer t hexec => h answer t (hP hop answer t hexec)
  | inr call => exact fun answer t hspec => h answer t (hP answer t hspec)

/-- The rule for mutually recursive procedures. If every body meets its
specification when the calls it makes are only known by theirs, then every call
meets its specification, at any depth, along runs that meet the step condition. -/
theorem Procedures.meets_spec
    (hbody : ∀ fuel call s, (body fuel call).wp (specTransformer M φ spec) (spec call s) s) :
    ∀ depth call s, body.Admits M φ depth (.inr call) s →
      ∀ answer t, body.oracle M depth call s = some (answer, t) → spec call s answer t := by
  intro depth
  induction depth with
  | zero => intro call s _ answer t h; cases h
  | succ depth ih =>
    intro call s hadmits answer t hrun
    refine Program.wp_run (T := specTransformer M φ spec) ?_ hadmits (hbody depth call s) hrun
    intro op u Q hop hT value v hexec
    cases op with
    | inl op => exact hT (by cases depth <;> exact hop) value v hexec
    | inr inner => exact hT value v (ih inner u hop value v hexec)

/-- The invariant rule for procedures: what the operations of `S` preserve,
calls preserve, at any depth. -/
theorem Procedures.preserves {I : σ → Prop}
    (hstep : ∀ op s answer t, φ op s → M.exec op s = some (answer, t) → I s → I t) :
    ∀ depth op s answer t, body.Admits M φ depth op s → (body.machine M depth).exec op s = some (answer, t) →
      I s → I t := by
  intro depth
  induction depth with
  | zero =>
    intro op s answer t hop hexec hs
    cases op with
    | inl op => exact hstep op s answer t hop hexec hs
    | inr call => cases hexec
  | succ depth ih =>
    intro op s answer t hop hexec hs
    cases op with
    | inl op => exact hstep op s answer t hop hexec hs
    | inr call => exact Program.preserves ih hop hexec hs

theorem Program.along_true (p : Program S α) (s : σ) : p.Along M (fun _ _ => True) s := by
  induction p generalizing s with
  | ret value => trivial
  | step op next ih => exact ⟨trivial, fun answer t _ => ih answer t⟩
  | halt => trivial

theorem Procedures.admits_true (depth : Nat) (op : (S.withCalls C).Op) (s : σ) :
    body.Admits M (fun _ _ => True) depth op s := by
  induction depth generalizing op s with
  | zero => cases op <;> exact trivial
  | succ depth ih =>
    cases op with
    | inl op => exact trivial
    | inr call =>
      have hall : body.Admits M (fun _ _ => True) depth = fun _ _ => True := by
        funext inner t
        exact eq_true (ih inner t)
      have hbody := Program.along_true (M := body.machine M depth) (body depth call) s
      rw [← hall] at hbody
      exact hbody

/-- What every operation of `S` preserves, a program that makes calls preserves. -/
theorem Procedures.run_preserves {I : σ → Prop}
    (hstep : ∀ op s answer t, M.exec op s = some (answer, t) → I s → I t) {depth : Nat}
    {p : Program (S.withCalls C) α} {s t : σ} {value : α} (hrun : p.run (body.machine M depth) s = some (value, t))
    (hs : I s) : I t := by
  refine Program.preserves ?_ (Program.along_true p s) hrun hs
  intro op u answer v _ hexec
  exact body.preserves (fun op u answer v _ => hstep op u answer v) depth op u answer v (body.admits_true depth op u) hexec

end stoned.program
