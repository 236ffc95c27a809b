import Mathlib.Tactic

namespace stoned.program

/-! Computations on a state that may not return, and what holds if they do. -/

variable {σ α β : Type}

/-- A run that starts with the one property and returns ends with the other one. -/
def Triple (P : σ → Prop) (p : StateT σ Option α) (Q : α → σ → Prop) : Prop :=
  ∀ s a t, P s → p s = some (a, t) → Q a t

/-- What a computation keeps. -/
def Invariant (P : σ → Prop) (p : StateT σ Option α) : Prop := Triple P p fun _ => P

section
variable {P P' : σ → Prop} {Q Q' : α → σ → Prop} {R : β → σ → Prop} {p q : StateT σ Option α}
  {f : α → StateT σ Option β} {s t : σ} {a : α} {b : β}

theorem state_bind_some : (p >>= f) s = some (b, t) ↔ ∃ a u, p s = some (a, u) ∧ f a u = some (b, t) := by
  simp only [bind, StateT.bind]
  constructor
  · intro h
    obtain ⟨⟨a, u⟩, hp, hf⟩ := Option.bind_eq_some_iff.mp h
    exact ⟨a, u, hp, hf⟩
  · rintro ⟨a, u, hp, hf⟩
    rw [hp]
    exact hf

theorem Triple.pure (h : ∀ s, P s → Q a s) : Triple P (pure a) Q := by
  intro s b t hs hrun
  obtain ⟨rfl, rfl⟩ := Prod.mk.inj (Option.some.inj hrun)
  exact h s hs

theorem Triple.bind (hp : Triple P p Q) (hf : ∀ a, Triple (Q a) (f a) R) : Triple P (p >>= f) R := by
  intro s b t hs hrun
  obtain ⟨a, u, hfirst, hrest⟩ := state_bind_some.mp hrun
  exact hf a u b t (hp s a u hs hfirst) hrest

theorem Triple.weaken (hp : Triple P p Q) (hpre : ∀ s, P' s → P s) (hpost : ∀ a s, Q a s → Q' a s) :
    Triple P' p Q' := fun s a t hs hrun => hpost a t (hp s a t (hpre s hs) hrun)

theorem Triple.never : Triple P (fun _ => none : StateT σ Option α) Q := fun _ _ _ _ hrun => nomatch hrun

/-- What is known beforehand of no state in particular. -/
theorem Triple.fact {fact : Prop} (h : fact → Triple P p Q) : Triple (fun s => P s ∧ fact) p Q :=
  fun s a t hs hrun => h hs.2 s a t hs.1 hrun

theorem Triple.ite {c : Prop} [Decidable c] (hyes : c → Triple P p Q) (hno : ¬ c → Triple P q Q) :
    Triple P (if c then p else q) Q := by
  split
  · exact hyes ‹_›
  · exact hno ‹_›

/-- A computation beside the state. -/
theorem Triple.lift {o : Option α} (h : ∀ a, o = some a → ∀ s, P s → Q a s) : Triple P (StateT.lift o) Q := by
  intro s a t hs hrun
  simp only [StateT.lift] at hrun
  obtain ⟨b, hb, hpair⟩ := Option.bind_eq_some_iff.mp hrun
  obtain ⟨rfl, rfl⟩ := Prod.mk.inj (Option.some.inj hpair)
  exact h b hb s hs

theorem Invariant.pure : Invariant P (Pure.pure a : StateT σ Option α) := Triple.pure fun _ hs => hs

theorem Invariant.bind (hp : Invariant P p) (hf : ∀ a, Invariant P (f a)) : Invariant P (p >>= f) :=
  Triple.bind hp hf

end

end stoned.program
