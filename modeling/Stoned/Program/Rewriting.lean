import Mathlib.Logic.Relation

namespace stoned.program

/-! Rewriting whose normal forms a function computes. -/

section
variable {α : Type} (step : α → α → Prop)

/-- No step leads on. -/
def Normal (x : α) : Prop := ∀ y, ¬ step x y

/-- Steps lead to what no step leads on from. -/
def Resolves (x n : α) : Prop := Relation.ReflTransGen step x n ∧ Normal step n

/-- A function that every step keeps, and whose values are normal forms of their
arguments. -/
structure Normalizes (normalize : α → α) : Prop where
  invariant : ∀ {x y}, step x y → normalize x = normalize y
  reaches : ∀ x, Relation.ReflTransGen step x (normalize x)
  normal : ∀ x, Normal step (normalize x)

variable {step} {normalize : α → α}

theorem Normal.eq_of_steps {x y : α} (hx : Normal step x) (h : Relation.ReflTransGen step x y) : y = x := by
  cases h.cases_head with
  | inl heq => exact heq.symm
  | inr hstep =>
    obtain ⟨z, hz, -⟩ := hstep
    exact absurd hz (hx z)

theorem Normalizes.steps (h : Normalizes step normalize) {x y : α} (hsteps : Relation.ReflTransGen step x y) :
    normalize x = normalize y := by
  induction hsteps with
  | refl => rfl
  | tail _ hstep ih => exact ih.trans (h.invariant hstep)

/-- Its values are the only normal forms. -/
theorem Normalizes.resolves_iff (h : Normalizes step normalize) {x n : α} :
    Resolves step x n ↔ n = normalize x := by
  constructor
  · rintro ⟨hsteps, hnormal⟩
    rw [h.steps hsteps]
    exact (hnormal.eq_of_steps (h.reaches n)).symm
  · rintro rfl
    exact ⟨h.reaches x, h.normal x⟩

/-- Two have a normal form in common exactly when the function makes them the same. -/
theorem Normalizes.common_iff (h : Normalizes step normalize) {x y : α} :
    (∃ n, Resolves step x n ∧ Resolves step y n) ↔ normalize x = normalize y := by
  simp only [h.resolves_iff]
  constructor
  · rintro ⟨n, hx, hy⟩
    exact hx.symm.trans hy
  · exact fun heq => ⟨_, rfl, heq⟩

end

end stoned.program
