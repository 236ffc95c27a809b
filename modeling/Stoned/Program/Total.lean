import Stoned.Program.Limit

namespace stoned.program

variable {S C : Signature} {σ α β : Type}

/-- The condition under which a program returns and ends in `Q`. -/
def Program.total (T : Transformer S σ) : Program S α → (α → σ → Prop) → σ → Prop
  | .ret value, Q, s => Q value s
  | .step op next, Q, s => T op s fun answer t => (next answer).total T Q t
  | .halt, _, _ => False

/-- No branch of a program is cut off, whatever its operations answer. -/
@[class] inductive Program.Whole : Program S α → Prop where
  | ret (value : α) : Whole (.ret value)
  | step {op : S.Op} {next : S.Answer op → Program S α} (h : ∀ answer, Whole (next answer)) : Whole (.step op next)

section
variable {p q : Program S α} {f : α → Program S β}

instance (value : α) : (pure value : Program S α).Whole := .ret value

instance (op : S.Op) : (perform op).Whole := .step fun answer => .ret answer

theorem Program.Whole.seq (hp : p.Whole) (hf : ∀ value, (f value).Whole) : (p >>= f).Whole := by
  induction hp with
  | ret value => exact hf value
  | step _ ih => exact .step ih

instance [hp : p.Whole] [hf : ∀ value, (f value).Whole] : (p >>= f).Whole := hp.seq hf

instance {c : Prop} [Decidable c] [hp : p.Whole] [hq : q.Whole] : (if c then p else q).Whole := by
  split
  · exact hp
  · exact hq

end

section
variable {T : Transformer S σ}

theorem total_bind (p : Program S α) (f : α → Program S β) (Q : β → σ → Prop) (s : σ) :
    (p >>= f).total T Q s = p.total T (fun value t => (f value).total T Q t) s := by
  induction p generalizing s with
  | ret value => rfl
  | step op next ih => exact congrArg (T op s) (funext fun answer => funext (ih answer))
  | halt => rfl

theorem Program.total_mono (hT : T.Monotone) {p : Program S α} {P Q : α → σ → Prop} {s : σ}
    (h : ∀ value t, P value t → Q value t) (hp : p.total T P s) : p.total T Q s := by
  induction p generalizing s with
  | ret value => exact h value s hp
  | step op next ih => exact hT op s _ _ (fun answer t => ih answer) hp
  | halt => exact hp

/-- Programs in sequence. -/
theorem Program.total_seq (hT : T.Monotone) {p : Program S α} {f : α → Program S β}
    {P : α → σ → Prop} {Q : β → σ → Prop} {s : σ} (hp : p.total T P s)
    (hf : ∀ value t, P value t → (f value).total T Q t) : (p >>= f).total T Q s := by
  rw [total_bind]
  exact Program.total_mono hT hf hp

/-- Programs in sequence. What follows is known to be whole with the rest. -/
theorem Program.Whole.total_seq (hT : T.Monotone) {p : Program S α} {f : α → Program S β} {P : α → σ → Prop}
    {Q : β → σ → Prop} {s : σ} (hwhole : (p >>= f).Whole) (hp : p.total T P s)
    (hf : ∀ value t, P value t → (f value).Whole → (f value).total T Q t) : (p >>= f).total T Q s := by
  induction p generalizing s with
  | ret value => exact hf value s hp hwhole
  | step op next ih =>
    cases hwhole with
    | step hnext => exact hT op s _ _ (fun answer t => ih answer (hnext answer)) hp
  | halt => exact hp.elim

/-- What a transformer asks of an operation is enough for the machine to
perform it. -/
def Transformer.Enables (T : Transformer S σ) (M : Machine S σ) : Prop :=
  ∀ op s Q, T op s Q → ∃ answer t, M.exec op s = some (answer, t) ∧ Q answer t

theorem Program.total_run {M : Machine S σ} (hT : T.Enables M) {p : Program S α} {Q : α → σ → Prop} {s : σ}
    (hp : p.total T Q s) : ∃ value t, p.run M s = some (value, t) ∧ Q value t := by
  induction p generalizing s with
  | ret value => exact ⟨value, s, rfl, hp⟩
  | step op next ih =>
    obtain ⟨answer, t, hexec, hnext⟩ := hT op s _ hp
    obtain ⟨value, u, hrun, hQ⟩ := ih answer hnext
    refine ⟨value, u, ?_, hQ⟩
    rw [run_step, hexec]
    exact hrun
  | halt => exact hp.elim

/-- What is left of a program meets what its beginning did. -/
theorem Program.ComesTo.total {M : Machine S σ} (hT : T.Enables M) {p q : Program S α} {s t : σ}
    (h : p.ComesTo M s q t) {Q : α → σ → Prop} (hp : p.total T Q s) : q.total T Q t := by
  induction h with
  | now => exact hp
  | step exec _ ih =>
    obtain ⟨answer, u, hexec, hnext⟩ := hT _ _ _ hp
    cases hexec.symm.trans exec
    exact ih hnext

end

/-- Calls are known by their specification, and only calls of a smaller measure
are made. -/
def measured (M : Machine S σ) (measure : C.Op → σ → Nat) (bound : Nat)
    (spec : (call : C.Op) → σ → C.Answer call → σ → Prop) : Transformer (S.withCalls C) σ
  | .inl op, s, Q => ∃ answer t, M.exec op s = some (answer, t) ∧ Q answer t
  | .inr call, s, Q => measure call s < bound ∧ ∀ answer t, spec call s answer t → Q answer t

section
variable {M : Machine S σ} {measure : C.Op → σ → Nat} {bound : Nat}
  {spec : (call : C.Op) → σ → C.Answer call → σ → Prop}
  {body : (call : C.Op) → Program (S.withCalls C) (C.Answer call)}

theorem measured_monotone : (measured M measure bound spec).Monotone := by
  intro op s P Q h hP
  cases op with
  | inl op =>
    obtain ⟨answer, t, hexec, hP⟩ := hP
    exact ⟨answer, t, hexec, h answer t hP⟩
  | inr call => exact ⟨hP.1, fun answer t hspec => h answer t (hP.2 answer t hspec)⟩

/-- With a greater bound more calls may be made. -/
theorem Program.total_bound {bound' : Nat} (hbound : bound ≤ bound') {p : Program (S.withCalls C) α}
    {Q : α → σ → Prop} {s : σ} (hp : p.total (measured M measure bound spec) Q s) :
    p.total (measured M measure bound' spec) Q s := by
  induction p generalizing s with
  | ret value => exact hp
  | step op next ih =>
    cases op with
    | inl op =>
      obtain ⟨answer, t, hexec, hnext⟩ := hp
      exact ⟨answer, t, hexec, ih answer hnext⟩
    | inr call => exact ⟨hp.1.trans_le hbound, fun answer t hspec => ih answer (hp.2 answer t hspec)⟩
  | halt => exact hp

/-- Where calls of a smaller measure return, all calls that are made do. -/
theorem measured_enables
    (hcalls : ∀ call s, measure call s < bound → ∃ answer t, limit body M call s = some (answer, t) ∧ spec call s answer t) :
    (measured M measure bound spec).Enables (M.withCalls (limit body M)) := by
  intro op s Q hT
  cases op with
  | inl op => exact hT
  | inr call =>
    obtain ⟨answer, t, hcall, hspec⟩ := hcalls call s hT.1
    exact ⟨answer, t, hcall, hT.2 answer t hspec⟩

/-- The rule for mutually recursive procedures with a measure. If every body
returns as specified when it makes only calls of a smaller measure, every call
returns as specified. -/
theorem limit_returns
    (hbody : ∀ call s, (body call).total (measured M measure (measure call s) spec) (spec call s) s) (call : C.Op)
    (s : σ) : ∃ answer t, limit body M call s = some (answer, t) ∧ spec call s answer t := by
  induction hbound : measure call s using Nat.strong_induction_on generalizing call s with
  | _ bound ih =>
    rw [limit_call]
    refine Program.total_run ?_ (hbound ▸ hbody call s)
    exact measured_enables fun inner t hinner => ih _ hinner inner t rfl

/-- A call made by a body has a smaller measure than the body's own. -/
theorem limit_decreases
    (hbody : ∀ call s, (body call).total (measured M measure (measure call s) spec) (spec call s) s)
    {call inner : C.Op} {s t : σ} {next : C.Answer inner → Program (S.withCalls C) (C.Answer call)}
    (h : (body call).ComesTo (M.withCalls (limit body M)) s (.step (.inr inner) next) t) :
    measure inner t < measure call s := by
  have hT : (measured M measure (measure call s) spec).Enables (M.withCalls (limit body M)) :=
    measured_enables fun inner t _ => limit_returns hbody inner t
  exact (h.total hT (hbody call s)).1

end

/-- A run whose measure falls in every step comes to its end. -/
theorem exists_iterate {μ : Type} [Preorder μ] [WellFoundedLT μ] (step : σ → σ) (measure : σ → μ) (inv done : σ → Prop)
    (h : ∀ s, inv s → done s ∨ (inv (step s) ∧ measure (step s) < measure s)) (s : σ) (hs : inv s) :
    ∃ n, done (step^[n] s) := by
  induction hm : measure s using WellFoundedLT.induction generalizing s with
  | _ m ih =>
    obtain hdone | ⟨hinv, hlt⟩ := h s hs
    · exact ⟨0, hdone⟩
    · obtain ⟨n, hn⟩ := ih _ (hm ▸ hlt) (step s) hinv rfl
      exact ⟨n + 1, hn⟩

end stoned.program
