import Stoned.Program.Total

namespace stoned.program

variable {S C : Signature} {σ α : Type}

/-- Along a run a step condition may be weakened, and answers may be taken
away. -/
theorem Program.Along.weaken {M N : Machine S σ} {φ ψ : S.Op → σ → Prop}
    (hN : ∀ op s out, N.exec op s = some out → M.exec op s = some out) (hψ : ∀ op s, φ op s → ψ op s)
    {p : Program S α} {s : σ} (h : p.Along M φ s) : p.Along N ψ s := by
  induction p generalizing s with
  | ret value => trivial
  | step op next ih => exact ⟨hψ op s h.1, fun answer t hexec => ih answer (h.2 answer t (hN op s _ hexec))⟩
  | halt => trivial

section
variable {body : (call : C.Op) → Program (S.withCalls C) (C.Answer call)} {M : Machine S σ} {φ : S.Op → σ → Prop}

theorem machine_below {depth depth' : Nat} (h : depth ≤ depth') {op : (S.withCalls C).Op} {s : σ}
    {out : (S.withCalls C).Answer op × σ} (hexec : ((Procedures.loopless body).machine M depth).exec op s = some out) :
    ((Procedures.loopless body).machine M depth').exec op s = some out := by
  cases op with
  | inl op => exact hexec
  | inr call => exact oracle_below h call s out hexec

/-- What is admitted at some depth is admitted at a smaller one. -/
theorem admits_of_deeper {depth : Nat} {op : (S.withCalls C).Op} {s : σ}
    (h : (Procedures.loopless body).Admits M φ (depth + 1) op s) : (Procedures.loopless body).Admits M φ depth op s := by
  induction depth generalizing op s with
  | zero =>
    cases op with
    | inl op => exact h
    | inr call => trivial
  | succ depth ih =>
    cases op with
    | inl op => exact h
    | inr call => exact Program.Along.weaken (fun _ _ _ => machine_below (Nat.le_succ depth)) (fun _ _ => ih) h

theorem along_of_deeper {depth depth' : Nat} (h : depth ≤ depth') {p : Program (S.withCalls C) α} {s : σ}
    (hp : p.Along ((Procedures.loopless body).machine M depth') ((Procedures.loopless body).Admits M φ depth') s) :
    p.Along ((Procedures.loopless body).machine M depth) ((Procedures.loopless body).Admits M φ depth) s := by
  induction h with
  | refl => exact hp
  | step _ ih => exact ih (hp.weaken (fun _ _ _ => machine_below (Nat.le_succ _)) fun _ _ => admits_of_deeper)

/-- A run that meets a step condition at every depth, as far as it gets. -/
def AdmittedAlong (body : (call : C.Op) → Program (S.withCalls C) (C.Answer call)) (M : Machine S σ)
    (φ : S.Op → σ → Prop) (p : Program (S.withCalls C) α) (s : σ) : Prop :=
  ∀ depth, p.Along ((Procedures.loopless body).machine M depth) ((Procedures.loopless body).Admits M φ depth) s

theorem AdmittedAlong.op {op : S.Op} {next : S.Answer op → Program (S.withCalls C) α} {s : σ}
    (h : AdmittedAlong body M φ (.step (.inl op) next) s) : φ op s := (h 0).1

/-- A call that meets a step condition has a body that does. -/
theorem AdmittedAlong.call {call : C.Op} {next : C.Answer call → Program (S.withCalls C) α} {s : σ}
    (h : AdmittedAlong body M φ (.step (.inr call) next) s) : AdmittedAlong body M φ (body call) s :=
  fun depth => (h (depth + 1)).1

theorem AdmittedAlong.after_op {op : S.Op} {next : S.Answer op → Program (S.withCalls C) α} {s t : σ}
    {answer : S.Answer op} (h : AdmittedAlong body M φ (.step (.inl op) next) s)
    (hexec : M.exec op s = some (answer, t)) : AdmittedAlong body M φ (next answer) t :=
  fun depth => (h depth).2 answer t hexec

theorem AdmittedAlong.after_call {call : C.Op} {next : C.Answer call → Program (S.withCalls C) α} {s t : σ}
    {answer : C.Answer call} (h : AdmittedAlong body M φ (.step (.inr call) next) s)
    (hcall : limit body M call s = some (answer, t)) : AdmittedAlong body M φ (next answer) t := by
  intro depth
  obtain ⟨calls, hcalls⟩ := limit_eq_some_iff.mp hcall
  have hboth : ((Procedures.loopless body).machine M (max depth calls)).exec (.inr call) s = some (answer, t) :=
    oracle_below (Nat.le_max_right depth calls) call s _ hcalls
  exact along_of_deeper (Nat.le_max_left depth calls) ((h (max depth calls)).2 answer t hboth)

end

section
variable {body : (call : C.Op) → Program (S.withCalls C) (C.Answer call)} {M : Machine S σ} {φ : S.Op → σ → Prop}
  {spec : (call : C.Op) → σ → C.Answer call → σ → Prop}

/-- A run that meets a step condition ends where the weakest precondition says,
when the procedures' bodies meet their specifications. -/
theorem AdmittedAlong.wp_run (hbody : ∀ call s, (body call).wp (specTransformer M φ spec) (spec call s) s)
    {p : Program (S.withCalls C) α} {Q : α → σ → Prop} {s t : σ} {value : α} (hsteps : AdmittedAlong body M φ p s)
    (hp : p.wp (specTransformer M φ spec) Q s) (hrun : p.run (M.withCalls (limit body M)) s = some (value, t)) :
    Q value t := by
  obtain ⟨depth, hdepth⟩ := run_limit_iff.mp hrun
  refine Program.wp_run (T := specTransformer M φ spec) ?_ (hsteps depth) hp hdepth
  intro op u P hop hT answer v hexec
  cases op with
  | inl op => exact hT (by cases depth <;> exact hop) answer v hexec
  | inr call => exact hT answer v (Procedures.meets_spec (fun _ => hbody) depth call u hop answer v hexec)

end

/-- What is known of an operation that meets the step condition; calls are known
by their specification, and only calls of a smaller measure are made. -/
def admitting (M : Machine S σ) (φ : S.Op → σ → Prop) (measure : C.Op → σ → Nat) (bound : Nat)
    (spec : (call : C.Op) → σ → C.Answer call → σ → Prop) : Transformer (S.withCalls C) σ
  | .inl op, s, Q => φ op s → ∃ answer t, M.exec op s = some (answer, t) ∧ Q answer t
  | .inr call, s, Q => measure call s < bound ∧ ∀ answer t, spec call s answer t → Q answer t

section
variable {M : Machine S σ} {φ : S.Op → σ → Prop} {measure : C.Op → σ → Nat} {bound : Nat}
  {spec : (call : C.Op) → σ → C.Answer call → σ → Prop}
  {body : (call : C.Op) → Program (S.withCalls C) (C.Answer call)}

theorem admitting_monotone : (admitting M φ measure bound spec).Monotone := by
  intro op s P Q h hP
  cases op with
  | inl op =>
    intro hφ
    obtain ⟨answer, t, hexec, hP⟩ := hP hφ
    exact ⟨answer, t, hexec, h answer t hP⟩
  | inr call => exact ⟨hP.1, fun answer t hspec => h answer t (hP.2 answer t hspec)⟩

theorem Program.admitted_run
    (hcalls : ∀ call s, measure call s < bound → AdmittedAlong body M φ (body call) s →
      ∃ answer t, limit body M call s = some (answer, t) ∧ spec call s answer t)
    {p : Program (S.withCalls C) α} {Q : α → σ → Prop} {s : σ} (hp : p.total (admitting M φ measure bound spec) Q s)
    (hsteps : AdmittedAlong body M φ p s) :
    ∃ value t, p.run (M.withCalls (limit body M)) s = some (value, t) ∧ Q value t := by
  induction p generalizing s with
  | ret value => exact ⟨value, s, rfl, hp⟩
  | step op next ih =>
    cases op with
    | inl op =>
      obtain ⟨answer, t, hexec, hnext⟩ := hp hsteps.op
      obtain ⟨value, u, hrun, hQ⟩ := ih answer hnext (hsteps.after_op hexec)
      exact ⟨value, u, Option.bind_eq_some_iff.mpr ⟨(answer, t), hexec, hrun⟩, hQ⟩
    | inr call =>
      obtain ⟨answer, t, hcall, hspec⟩ := hcalls call s hp.1 hsteps.call
      obtain ⟨value, u, hrun, hQ⟩ := ih answer (hp.2 answer t hspec) (hsteps.after_call hcall)
      exact ⟨value, u, Option.bind_eq_some_iff.mpr ⟨(answer, t), hcall, hrun⟩, hQ⟩
  | halt => exact hp.elim

/-- The rule for mutually recursive procedures with a measure that falls along
runs that meet a step condition. -/
theorem admitted_returns
    (hbody : ∀ call s, (body call).total (admitting M φ measure (measure call s) spec) (spec call s) s) (call : C.Op)
    (s : σ) (hsteps : AdmittedAlong body M φ (body call) s) :
    ∃ answer t, limit body M call s = some (answer, t) ∧ spec call s answer t := by
  induction hbound : measure call s using Nat.strong_induction_on generalizing call s with
  | _ bound ih =>
    rw [limit_call]
    exact Program.admitted_run (fun inner t hinner hadmits => ih _ hinner inner t hadmits rfl)
      (hbound ▸ hbody call s) hsteps

end
end stoned.program
