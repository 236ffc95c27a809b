import Stoned.Program.Admitted

namespace stoned.program

variable {S C : Signature} {σ α : Type} {M N : Machine S σ} {φ : S.Op → σ → Prop} {p : Program S α} {s : σ}

/-! Putting other bodies in the place of procedures. -/

/-- Machines that agree on what a run performs run it alike. -/
theorem Program.run_along (h : p.Along M (fun op t => N.exec op t = M.exec op t) s) : p.run N s = p.run M s := by
  induction p generalizing s with
  | ret value => rfl
  | step op next ih =>
    obtain ⟨hop, hrest⟩ := h
    rw [run_step, run_step, hop]
    cases hexec : M.exec op s with
    | none => rfl
    | some out => exact ih out.1 (hrest out.1 out.2 hexec)
  | halt => rfl

theorem Program.Along.move (h : p.Along M (fun op t => N.exec op t = M.exec op t) s) (hφ : p.Along M φ s) :
    p.Along N φ s := by
  induction p generalizing s with
  | ret value => trivial
  | step op next ih =>
    obtain ⟨hop, hrest⟩ := h
    refine ⟨hφ.1, fun answer t hexec => ?_⟩
    have hexec' : M.exec op s = some (answer, t) := hop.symm.trans hexec
    exact ih answer (hrest answer t hexec') (hφ.2 answer t hexec')
  | halt => trivial

/-- A condition on calls as one on all operations. -/
def on_calls (φ : C.Op → σ → Prop) : (S.withCalls C).Op → σ → Prop
  | .inl _, _ => True
  | .inr call, s => φ call s

/-- A call and all calls made on its behalf, at any depth, meet `φ` where they
are made. -/
def Procedures.Throughout (body : Procedures S C) (M : Machine S σ) (φ : Nat → C.Op → σ → Prop) :
    Nat → C.Op → σ → Prop
  | 0, _, _ => True
  | depth + 1, call, s =>
    φ depth call s ∧ (body depth call).Along (body.machine M depth) (on_calls (body.Throughout M φ depth)) s

/-- The rule for replacing bodies. When a body that meets `φ` runs as another
wherever its calls are answered alike, calls that meet `φ` throughout are
answered as if the other bodies stood in their place. -/
theorem Procedures.replace {body other : Procedures S C} {φ : Nat → C.Op → σ → Prop}
    (h : ∀ depth call s answers, φ depth call s →
      (body depth call).Along (body.machine M depth)
        (fun op t => (M.withCalls answers).exec op t = (body.machine M depth).exec op t) s →
      (body depth call).run (M.withCalls answers) s = (other depth call).run (M.withCalls answers) s) :
    ∀ depth call s, body.Throughout M φ depth call s → body.oracle M depth call s = other.oracle M depth call s := by
  intro depth
  induction depth with
  | zero => intro call s _; rfl
  | succ depth ih =>
    intro call s hcall
    obtain ⟨hφ, hcalls⟩ := hcall
    have halike : (body depth call).Along (body.machine M depth)
        (fun op t => (other.machine M depth).exec op t = (body.machine M depth).exec op t) s := by
      refine hcalls.weaken (fun _ _ _ hexec => hexec) fun op t hop => ?_
      cases op with
      | inl op => rfl
      | inr inner => exact (ih inner t hop).symm
    exact (Program.run_along halike).symm.trans (h depth call s _ hφ halike)

end stoned.program
