import Stoned.Program.Basic

namespace stoned.program

/-- A deterministic implementation of a signature on states `σ`. An operation
that does not return answers nothing. -/
structure Machine (S : Signature) (σ : Type) where
  exec : (op : S.Op) → σ → Option (S.Answer op × σ)

variable {S : Signature} {σ α β : Type}

/-- The run of a program on a machine: its value and final state, or nothing
when it does not return. -/
def Program.run (M : Machine S σ) : Program S α → σ → Option (α × σ)
  | .ret value, s => some (value, s)
  | .step op next, s => (M.exec op s).bind fun out => (next out.1).run M out.2
  | .halt, _ => none

/-- The operations a run performs, in order. -/
def Program.performed (M : Machine S σ) : Program S α → σ → List S.Op
  | .ret _, _ => []
  | .step op next, s =>
    op :: match M.exec op s with
      | some out => (next out.1).performed M out.2
      | none => []
  | .halt, _ => []

variable {M : Machine S σ}

@[simp] theorem run_ret (value : α) (s : σ) : (Program.ret value).run M s = some (value, s) := rfl

@[simp] theorem run_step (op : S.Op) (next : S.Answer op → Program S α) (s : σ) :
    (Program.step op next).run M s = (M.exec op s).bind fun out => (next out.1).run M out.2 := rfl

@[simp] theorem run_halt (s : σ) : (Program.halt : Program S α).run M s = none := rfl

@[simp] theorem run_perform (op : S.Op) (s : σ) : (perform op).run M s = M.exec op s := by
  cases h : M.exec op s <;> simp [perform, h]

@[simp] theorem performed_ret (value : α) (s : σ) : (Program.ret value).performed M s = [] := rfl

@[simp] theorem performed_halt (s : σ) : (Program.halt : Program S α).performed M s = [] := rfl

theorem performed_step {op : S.Op} {next : S.Answer op → Program S α} {s t : σ}
    {answer : S.Answer op} (h : M.exec op s = some (answer, t)) :
    (Program.step op next).performed M s = op :: (next answer).performed M t := by
  simp [Program.performed, h]

/-- The first operation performed is the one a program begins with. -/
theorem performed_step_head (op : S.Op) (next : S.Answer op → Program S α) (s : σ) :
    ((Program.step op next).performed M s).head? = some op := by
  rw [Program.performed]
  rfl

/-- A composition runs its first part and hands the value and state on. -/
theorem run_bind (p : Program S α) (f : α → Program S β) (s : σ) :
    (p >>= f).run M s = (p.run M s).bind fun out => (f out.1).run M out.2 := by
  induction p generalizing s with
  | ret value => rfl
  | step op next ih => cases h : M.exec op s <;> simp [h, ih]
  | halt => rfl

theorem run_bind_some {p : Program S α} {f : α → Program S β} {s t : σ} {value : α}
    (h : p.run M s = some (value, t)) : (p >>= f).run M s = (f value).run M t := by
  rw [run_bind, h]
  rfl

theorem run_bind_congr {p q : Program S α} {f g : α → Program S β} {s : σ} (hp : p.run M s = q.run M s)
    (hf : ∀ value t, (f value).run M t = (g value).run M t) : (p >>= f).run M s = (q >>= g).run M s := by
  rw [run_bind, run_bind, hp]
  exact Option.bind_congr fun out _ => hf out.1 out.2

theorem run_bind_eq_some_iff {p : Program S α} {f : α → Program S β} {s : σ} {out : β × σ} :
    (p >>= f).run M s = some out ↔
      ∃ value t, p.run M s = some (value, t) ∧ (f value).run M t = some out := by
  rw [run_bind, Option.bind_eq_some_iff]
  exact ⟨fun ⟨⟨value, t⟩, h⟩ => ⟨value, t, h⟩, fun ⟨value, t, h⟩ => ⟨(value, t), h⟩⟩

/-- It is also the first that is seen, if it is looked at. -/
theorem seen_step_head {seen : S.Op → Bool} {op : S.Op} (hseen : seen op = true) (next : S.Answer op → Program S α)
    (s : σ) : (((Program.step op next).performed M s).filter seen).head? = some op := by
  rw [Program.performed, List.filter_cons_of_pos hseen]
  rfl

/-- Once its first part returned, a composition performs that part's
operations and then those of the rest. -/
theorem performed_bind {p : Program S α} {f : α → Program S β} {s t : σ} {value : α}
    (h : p.run M s = some (value, t)) :
    (p >>= f).performed M s = p.performed M s ++ (f value).performed M t := by
  induction p generalizing s with
  | ret v =>
    simp only [run_ret, Option.some.injEq, Prod.mk.injEq] at h
    obtain ⟨rfl, rfl⟩ := h
    rfl
  | step op next ih =>
    cases hexec : M.exec op s with
    | none => simp [hexec] at h
    | some out =>
      simp only [run_step, hexec, Option.bind_some] at h
      simp [step_bind, performed_step hexec, ih _ h]
  | halt => simp at h

/-- What comes behind a part that does not return is never performed. -/
theorem performed_bind_none {p : Program S α} {f : α → Program S β} {s : σ} (h : p.run M s = none) :
    (p >>= f).performed M s = p.performed M s := by
  induction p generalizing s with
  | ret value => cases h
  | step op next ih =>
    cases hexec : M.exec op s with
    | none => simp [Program.performed, hexec]
    | some out =>
      simp only [run_step, hexec, Option.bind_some] at h
      simp [step_bind, performed_step hexec, ih _ h]
  | halt => rfl

/-- A program, run from a state, comes to have another program left to run, in
the state it has then reached. -/
inductive Program.ComesTo (M : Machine S σ) : Program S α → σ → Program S α → σ → Prop where
  | now (p : Program S α) (s : σ) : ComesTo M p s p s
  | step {op : S.Op} {next : S.Answer op → Program S α} {s t u : σ} {answer : S.Answer op} {q : Program S α}
      (exec : M.exec op s = some (answer, t)) (rest : ComesTo M (next answer) t q u) :
      ComesTo M (.step op next) s q u

theorem Program.ComesTo.run {p q : Program S α} {s t : σ} (h : p.ComesTo M s q t) :
    p.run M s = q.run M t := by
  induction h with
  | now => rfl
  | step exec _ ih => rw [run_step, exec, Option.bind_some, ih]

theorem Program.ComesTo.trans {p q r : Program S α} {s t u : σ} (h : p.ComesTo M s q t)
    (h' : q.ComesTo M t r u) : p.ComesTo M s r u := by
  induction h with
  | now => exact h'
  | step exec _ ih => exact .step exec (ih h')

/-- Once its first part has returned, what is left of a composition is the rest. -/
theorem Program.ComesTo.bind {p : Program S α} {f : α → Program S β} {s t : σ} {value : α}
    (h : p.run M s = some (value, t)) : (p >>= f).ComesTo M s (f value) t := by
  induction p generalizing s with
  | ret v =>
    simp only [run_ret, Option.some.injEq, Prod.mk.injEq] at h
    obtain ⟨rfl, rfl⟩ := h
    exact .now _ _
  | step op next ih =>
    obtain ⟨⟨answer, u⟩, hexec, hrest⟩ := Option.bind_eq_some_iff.mp h
    exact .step hexec (ih answer hrest)
  | halt => cases h

/-- What a first part comes to, a composition comes to with the rest behind it. -/
theorem Program.ComesTo.before {p q : Program S α} {s t : σ} (h : p.ComesTo M s q t)
    (f : α → Program S β) : (p >>= f).ComesTo M s (q >>= f) t := by
  induction h with
  | now p s => exact .now _ s
  | step exec _ ih => exact .step exec ih

/-- The operations performed on the way stand in front of those left to perform. -/
theorem Program.ComesTo.performed {p q : Program S α} {s t : σ} (h : p.ComesTo M s q t) :
    ∃ before, p.performed M s = before ++ q.performed M t := by
  induction h with
  | now => exact ⟨[], rfl⟩
  | @step op next _ _ _ _ _ exec _ ih =>
    obtain ⟨before, hbefore⟩ := ih
    exact ⟨op :: before, by rw [performed_step exec, hbefore, List.cons_append]⟩

/-- Two programs do the same from a state: they perform the same operations
and end alike. -/
def Program.Agree (M : Machine S σ) (p q : Program S α) (s : σ) : Prop :=
  p.run M s = q.run M s ∧ p.performed M s = q.performed M s

theorem Program.Agree.refl (p : Program S α) (s : σ) : p.Agree M p s := ⟨rfl, rfl⟩

/-- Two programs are seen to do the same from a state: they perform the same of
the operations that are looked at and end alike. -/
def Program.AgreeOn (M : Machine S σ) (seen : S.Op → Bool) (p q : Program S α) (s : σ) : Prop :=
  p.run M s = q.run M s ∧ (p.performed M s).filter seen = (q.performed M s).filter seen

section
variable {seen : S.Op → Bool} {p q r : Program S α} {s : σ}

theorem Program.AgreeOn.refl (p : Program S α) (s : σ) : p.AgreeOn M seen p s := ⟨rfl, rfl⟩

theorem Program.AgreeOn.symm (h : p.AgreeOn M seen q s) : q.AgreeOn M seen p s := ⟨h.1.symm, h.2.symm⟩

theorem Program.AgreeOn.trans (h : p.AgreeOn M seen q s) (h' : q.AgreeOn M seen r s) : p.AgreeOn M seen r s :=
  ⟨h.1.trans h'.1, h.2.trans h'.2⟩

/-- Programs that are seen to do the same can stand for each other. -/
theorem Program.AgreeOn.congr {p' q' : Program S α} (hp : p.AgreeOn M seen p' s) (hq : q.AgreeOn M seen q' s) :
    p.AgreeOn M seen q s ↔ p'.AgreeOn M seen q' s :=
  ⟨fun h => hp.symm.trans (h.trans hq), fun h => hp.trans (h.trans hq.symm)⟩

theorem Program.AgreeOn.bind (h : p.AgreeOn M seen q s) (f : α → Program S β) :
    (p >>= f).AgreeOn M seen (q >>= f) s := by
  obtain ⟨hrun, hperformed⟩ := h
  refine ⟨by rw [run_bind, run_bind, hrun], ?_⟩
  cases hp : p.run M s with
  | none => rw [performed_bind_none hp, performed_bind_none (hrun.symm.trans hp), hperformed]
  | some out =>
    rw [performed_bind hp, performed_bind (hrun.symm.trans hp), List.filter_append, List.filter_append, hperformed]

end

/-- Behind the same part two programs are seen to do the same exactly when what
follows that part is. -/
theorem agreeOn_bind_iff {seen : S.Op → Bool} {p : Program S α} {f g : α → Program S β} {s : σ} :
    (p >>= f).AgreeOn M seen (p >>= g) s ↔
      ∀ value t, p.run M s = some (value, t) → (f value).AgreeOn M seen (g value) t := by
  induction p generalizing s with
  | ret value =>
    simp only [ret_bind, run_ret, Option.some.injEq, Prod.mk.injEq]
    constructor
    · rintro h _ _ ⟨rfl, rfl⟩
      exact h
    · exact fun h => h value s ⟨rfl, rfl⟩
  | step op next ih =>
    cases hexec : M.exec op s with
    | none => simp [Program.AgreeOn, Program.performed, hexec]
    | some out =>
      have hfirst (r : S.Answer op → Program S β) :
          (Program.step op r).performed M s = op :: (r out.1).performed M out.2 := performed_step hexec
      simp only [step_bind, run_step, hexec, Option.bind_some, Program.AgreeOn, hfirst]
      refine Iff.trans (and_congr_right fun _ => ?_) (ih out.1)
      cases hseen : seen op <;> simp [hseen]
  | halt => simp [Program.AgreeOn]

/-- Doing the same is being seen to when everything is looked at. -/
theorem agree_iff_agreeOn {p q : Program S α} {s : σ} :
    p.Agree M q s ↔ p.AgreeOn M (fun _ => true) q s := by
  simp [Program.Agree, Program.AgreeOn]

/-- Two programs that begin with the same part do the same exactly when what
follows that part does. -/
theorem agree_bind_iff {p : Program S α} {f g : α → Program S β} {s : σ} :
    (p >>= f).Agree M (p >>= g) s ↔
      ∀ value t, p.run M s = some (value, t) → (f value).Agree M (g value) t := by
  simp only [agree_iff_agreeOn, agreeOn_bind_iff]

/-- A program that performs only allowed operations and does not stop. -/
inductive Program.Within (allowed : S.Op → Prop) : Program S α → Prop where
  | ret (value : α) : Within allowed (.ret value)
  | step {op : S.Op} {next : S.Answer op → Program S α} (allows : allowed op)
      (rest : ∀ answer, Within allowed (next answer)) : Within allowed (.step op next)

variable {allowed : S.Op → Prop}

theorem Program.Within.bind {p : Program S α} {f : α → Program S β} (hp : p.Within allowed)
    (hf : ∀ value, (f value).Within allowed) : (p >>= f).Within allowed := by
  induction hp with
  | ret value => exact hf value
  | step allows _ ih => exact .step allows ih

/-- A program returns where the operations it may perform do. -/
theorem Program.Within.returns {p : Program S α} (hp : p.Within allowed)
    (hM : ∀ op s, allowed op → ∃ out, M.exec op s = some out) (s : σ) :
    ∃ value t, p.run M s = some (value, t) := by
  induction hp generalizing s with
  | ret value => exact ⟨value, s, rfl⟩
  | step allows _ ih =>
    obtain ⟨⟨answer, t⟩, hexec⟩ := hM _ s allows
    obtain ⟨value, u, hrun⟩ := ih answer t
    exact ⟨value, u, by rw [run_step, hexec, Option.bind_some, hrun]⟩

end stoned.program
