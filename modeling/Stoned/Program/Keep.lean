import Stoned.Program.Procedure

namespace stoned.program

variable {S C : Signature} {σ α β : Type}

/-- A condition on what a program has left to do, in the state it is in. It
does not depend on what comes behind the program. -/
structure Watch (S : Signature) (σ : Type) where
  holds : {α : Type} → Program S α → σ → Prop
  before : ∀ {α β : Type} {p : Program S α} {f : α → Program S β} {s : σ}, holds (p >>= f) s → holds p s

/-- The condition is met wherever the run comes to. -/
def Program.Always (M : Machine S σ) (W : Watch S σ) (p : Program S α) (s : σ) : Prop :=
  ∀ q t, p.ComesTo M s q t → W.holds q t

section
variable {M : Machine S σ} {W : Watch S σ} {p : Program S α} {f : α → Program S β} {s t : σ} {value : α}

theorem Program.Always.here (h : p.Always M W s) : W.holds p s := h p s (.now p s)

theorem Program.Always.before (h : (p >>= f).Always M W s) : p.Always M W s :=
  fun q u hq => W.before (h (q >>= f) u (hq.before f))

theorem Program.Always.behind (h : (p >>= f).Always M W s) (hrun : p.run M s = some (value, t)) :
    (f value).Always M W t :=
  fun q u hq => h q u ((ComesTo.bind hrun).trans hq)

end

/-- What programs are to keep on a machine, along runs that meet a condition:
the states before and after are alike. -/
structure Keep (S : Signature) (σ : Type) where
  machine : Machine S σ
  watch : Watch S σ
  alike : Setoid σ

/-- A program keeps what is to be kept. -/
class Program.Keeps (K : Keep S σ) (p : Program S α) : Prop where
  keeps : ∀ {s t : σ} {value : α}, p.Always K.machine K.watch s → p.run K.machine s = some (value, t) → K.alike.r s t

section
variable {K : Keep S σ} {p q : Program S α} {f : α → Program S β}

instance Program.Keeps.ret (value : α) : (Program.ret value : Program S α).Keeps K where
  keeps := by
    intro s t result _ hrun
    cases hrun
    exact K.alike.iseqv.refl s

instance (value : α) : (pure value : Program S α).Keeps K := .ret value

instance : (Program.halt : Program S α).Keeps K where
  keeps := fun _ hrun => nomatch hrun

theorem Program.Keeps.seq (hp : p.Keeps K) (hf : ∀ value, (f value).Keeps K) : (p >>= f).Keeps K where
  keeps := by
    intro s t result halways hrun
    obtain ⟨value, u, hfirst, hrest⟩ := run_bind_eq_some_iff.mp hrun
    have hbefore := hp.keeps halways.before hfirst
    have hbehind := (hf value).keeps (halways.behind hfirst) hrest
    exact K.alike.iseqv.trans hbefore hbehind

instance [hp : p.Keeps K] [hf : ∀ value, (f value).Keeps K] : (p >>= f).Keeps K := hp.seq hf

theorem Program.Keeps.ite {c : Prop} [Decidable c] (hp : p.Keeps K) (hq : q.Keeps K) : (if c then p else q).Keeps K := by
  split
  · exact hp
  · exact hq

instance {c : Prop} [Decidable c] [hp : p.Keeps K] [hq : q.Keeps K] : (if c then p else q).Keeps K := hp.ite hq

end

/-- No condition. -/
def Watch.any : Watch S σ where
  holds _ _ := True
  before _ := trivial

/-- A condition, and another on each call that is about to be made. -/
def Watch.withCalls (W : Watch (S.withCalls C) σ) (calls : C.Op → σ → Prop) : Watch (S.withCalls C) σ where
  holds p s := W.holds p s ∧ ∀ call next, p = .step (.inr call) next → calls call s
  before := by
    rintro α β p f s ⟨hW, hcalls⟩
    refine ⟨W.before hW, ?_⟩
    rintro call next rfl
    exact hcalls call _ rfl

section
variable (body : Procedures S C) (M : Machine S σ) (W : Machine (S.withCalls C) σ → Watch (S.withCalls C) σ)

/-- A call is watched when the condition is met wherever the run of its body
comes to, and the calls made there are watched. -/
def Procedures.Watched : Nat → C.Op → σ → Prop
  | 0, _, _ => True
  | depth + 1, call, s =>
    (body depth call).Always (body.machine M depth)
      ((W (body.machine M depth)).withCalls (Procedures.Watched depth)) s

/-- What is to be kept where calls are nested at most `depth` deep and are watched. -/
def Procedures.keep (V : Watch (S.withCalls C) σ) (alike : Setoid σ) (depth : Nat) : Keep (S.withCalls C) σ where
  machine := body.machine M depth
  watch := V.withCalls (body.Watched M W depth)
  alike := alike

/-- Watched calls keep what is to be kept. -/
def Procedures.CallsKeep (alike : Setoid σ) (depth : Nat) : Prop :=
  ∀ {call s t answer}, body.Watched M W depth call s → body.oracle M depth call s = some (answer, t) → alike.r s t

variable {body M W}

theorem Procedures.CallsKeep.call {alike : Setoid σ} {depth : Nat} (h : body.CallsKeep M W alike depth)
    (V : Watch (S.withCalls C) σ) (call : C.Op) :
    (perform (S := S.withCalls C) (.inr call)).Keeps (body.keep M W V alike depth) where
  keeps := by
    intro s t answer halways hrun
    have hcall := (run_perform (S := S.withCalls C) (.inr call) s).symm.trans hrun
    exact h (halways.here.2 call _ rfl) hcall

/-- The rule for mutually recursive procedures. What the bodies keep when the
calls they make keep it, watched calls keep at any depth. -/
theorem Procedures.keeps_watched {alike : Setoid σ}
    (hbody : ∀ depth, body.CallsKeep M W alike depth →
      ∀ call, (body depth call).Keeps (body.keep M W (W (body.machine M depth)) alike depth)) (depth : Nat) :
    body.CallsKeep M W alike depth := by
  induction depth with
  | zero => exact fun _ hrun => nomatch hrun
  | succ depth ih => exact fun hwatched hrun => (hbody depth ih _).keeps hwatched hrun

end

/-- The states a run passes, those within its operations included. -/
def Program.passed (M : Machine S σ) (within : S.Op → σ → List σ) : Program S α → σ → List σ
  | .ret _, s => [s]
  | .step op next, s =>
    s :: within op s ++ match M.exec op s with
      | some out => (next out.1).passed M within out.2
      | none => []
  | .halt, s => [s]

section
variable {M : Machine S σ} {within : S.Op → σ → List σ}

theorem Program.ComesTo.passed {p q : Program S α} {s t : σ} (h : p.ComesTo M s q t) :
    ∀ u ∈ q.passed M within t, u ∈ p.passed M within s := by
  induction h with
  | now => exact fun _ hu => hu
  | step exec _ ih =>
    intro u hu
    rw [Program.passed, exec]
    exact List.mem_append_right _ (ih u hu)

theorem mem_passed (p : Program S α) (s : σ) : s ∈ p.passed M within s := by
  cases p <;> simp [Program.passed]

theorem mem_passed_within {op : S.Op} {next : S.Answer op → Program S α} {s t : σ} (h : t ∈ within op s) :
    t ∈ (Program.step op next).passed M within s := by
  rw [Program.passed]
  exact List.mem_append_left _ (List.mem_cons_of_mem _ h)

end

/-- The states passed by the run of a call's body and of the calls made there. -/
def Procedures.passed (body : Procedures S C) (M : Machine S σ) : Nat → C.Op → σ → List σ
  | 0, _, _ => []
  | depth + 1, call, s =>
    (body depth call).passed (body.machine M depth) (fun
      | .inl _, _ => []
      | .inr inner, t => Procedures.passed body M depth inner t) s

/-- A call is watched when each state passed is enough for the condition. -/
theorem Procedures.watched_of_passed {body : Procedures S C} {M : Machine S σ}
    {W : Machine (S.withCalls C) σ → Watch (S.withCalls C) σ} {P : σ → Prop}
    (hW : ∀ N {α : Type} (p : Program (S.withCalls C) α) s, P s → (W N).holds p s) :
    ∀ {depth : Nat} {call : C.Op} {s : σ}, (∀ t ∈ body.passed M depth call s, P t) → body.Watched M W depth call s := by
  intro depth
  induction depth with
  | zero => exact fun _ => trivial
  | succ depth ih =>
    intro call s hpassed q t hq
    refine ⟨hW _ q t (hpassed t (hq.passed t (mem_passed q t))), ?_⟩
    rintro inner next rfl
    exact ih fun u hu => hpassed u (hq.passed u (mem_passed_within hu))

end stoned.program
