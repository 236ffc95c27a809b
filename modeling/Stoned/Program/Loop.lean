import Stoned.Program.Run

namespace stoned.program

/-- A loop with turns `ι`, body outcomes `ω` and results `ρ`. A turn is entered,
unless the loop is done; an outcome of the body ends the loop or does not; what
is left at the end of a turn may still end it. -/
structure Loop (S : Signature) (ι ω ρ : Type) where
  enter : ι → Program S (Option ρ)
  body : ι → Program S ω
  ends : ω → Option ρ
  leave : ι → ω → Program S (Option ρ)
  next : ι → ω → ι

variable {S : Signature} {σ ι ω ρ : Type}

/-- The loop as a program, cut off after a number of turns. -/
def Loop.program (L : Loop S ι ω ρ) : Nat → ι → Program S ρ
  | 0, _ => .halt
  | fuel + 1, i => do
    match ← L.enter i with
    | some result => return result
    | none =>
      let outcome ← L.body i
      match L.ends outcome with
      | some result => return result
      | none =>
        match ← L.leave i outcome with
        | some result => return result
        | none => L.program fuel (L.next i outcome)

theorem Loop.program_succ (L : Loop S ι ω ρ) (fuel : Nat) (i : ι) :
    L.program (fuel + 1) i = L.enter i >>= fun
      | some result => return result
      | none => L.body i >>= fun outcome =>
        match L.ends outcome with
        | some result => return result
        | none => L.leave i outcome >>= fun
          | some result => return result
          | none => L.program fuel (L.next i outcome) := rfl

/-- A whole turn after which the loop goes on. -/
structure Loop.Turn (M : Machine S σ) (L : Loop S ι ω ρ) (i : ι) (s : σ) (outcome : ω) (t : σ) : Prop where
  run : ∃ u v, (L.enter i).run M s = some (none, u) ∧ (L.body i).run M u = some (outcome, v) ∧
    (L.leave i outcome).run M v = some (none, t)
  goes_on : L.ends outcome = none

/-- Any number of turns after which the loop goes on. -/
inductive Loop.Turns (M : Machine S σ) (L : Loop S ι ω ρ) : ι → σ → ι → σ → Prop where
  | start (i : ι) (s : σ) : L.Turns M i s i s
  | turn {i j : ι} {s t u : σ} {outcome : ω} (first : L.Turn M i s outcome t)
      (rest : L.Turns M (L.next i outcome) t j u) : L.Turns M i s j u

/-- The turn in which the loop ends, with the result and the state it ends in. -/
inductive Loop.LastTurn (M : Machine S σ) (L : Loop S ι ω ρ) (i : ι) (s : σ) (result : ρ) (t : σ) : Prop where
  | done (enters : (L.enter i).run M s = some (some result, t))
  | outcome {u : σ} {outcome : ω} (enters : (L.enter i).run M s = some (none, u))
      (body : (L.body i).run M u = some (outcome, t)) (ends : L.ends outcome = some result)
  | left {u v : σ} {outcome : ω} (enters : (L.enter i).run M s = some (none, u))
      (body : (L.body i).run M u = some (outcome, v)) (goes_on : L.ends outcome = none)
      (leaves : (L.leave i outcome).run M v = some (some result, t))

variable {M : Machine S σ} {L : Loop S ι ω ρ}

/-- What one turn of the program is. -/
theorem Loop.program_run_succ (fuel : Nat) (i : ι) (s t : σ) (result : ρ) :
    (L.program (fuel + 1) i).run M s = some (result, t) ↔
      L.LastTurn M i s result t ∨ ∃ outcome u, L.Turn M i s outcome u ∧
        (L.program fuel (L.next i outcome)).run M u = some (result, t) := by
  constructor
  · intro hrun
    rw [Loop.program, run_bind_eq_some_iff] at hrun
    obtain ⟨entered, u, henter, hrun⟩ := hrun
    cases entered with
    | some r =>
      simp only [pure_eq_ret, run_ret, Option.some.injEq, Prod.mk.injEq] at hrun
      obtain ⟨rfl, rfl⟩ := hrun
      exact .inl (.done henter)
    | none =>
      obtain ⟨outcome, v, hbody, hrun⟩ := run_bind_eq_some_iff.mp hrun
      cases hends : L.ends outcome with
      | some r =>
        simp only [hends, pure_eq_ret, run_ret, Option.some.injEq, Prod.mk.injEq] at hrun
        obtain ⟨rfl, rfl⟩ := hrun
        exact .inl (.outcome henter hbody hends)
      | none =>
        simp only [hends] at hrun
        obtain ⟨left, w, hleave, hrun⟩ := run_bind_eq_some_iff.mp hrun
        cases left with
        | some r =>
          simp only [pure_eq_ret, run_ret, Option.some.injEq, Prod.mk.injEq] at hrun
          obtain ⟨rfl, rfl⟩ := hrun
          exact .inl (.left henter hbody hends hleave)
        | none => exact .inr ⟨outcome, w, ⟨⟨u, v, henter, hbody, hleave⟩, hends⟩, hrun⟩
  · rintro (hlast | ⟨outcome, u, ⟨⟨v, w, henter, hbody, hleave⟩, hgoes_on⟩, hrest⟩)
    · cases hlast with
      | done henter => simp [Loop.program, run_bind, henter]
      | outcome henter hbody hends => simp [Loop.program, run_bind, henter, hbody, hends]
      | left henter hbody hgoes_on hleave =>
        simp [Loop.program, run_bind, henter, hbody, hgoes_on, hleave]
    · simp [Loop.program, run_bind, henter, hbody, hgoes_on, hleave, hrest]

/-- A loop returns exactly when some number of turns goes on and the turn
behind them is the last. -/
theorem Loop.run_iff (i : ι) (s t : σ) (result : ρ) :
    (∃ fuel, (L.program fuel i).run M s = some (result, t)) ↔
      ∃ j u, L.Turns M i s j u ∧ L.LastTurn M j u result t := by
  constructor
  · rintro ⟨fuel, hrun⟩
    induction fuel generalizing i s with
    | zero => cases hrun
    | succ fuel ih =>
      obtain hlast | ⟨outcome, u, hturn, hrest⟩ := (program_run_succ fuel i s t result).mp hrun
      · exact ⟨i, s, .start i s, hlast⟩
      · obtain ⟨j, v, hturns, hlast⟩ := ih _ _ hrest
        exact ⟨j, v, .turn hturn hturns, hlast⟩
  · rintro ⟨j, u, hturns, hlast⟩
    induction hturns with
    | start j u => exact ⟨1, (program_run_succ 0 j u t result).mpr (.inl hlast)⟩
    | turn hturn _ ih =>
      obtain ⟨fuel, hrest⟩ := ih hlast
      exact ⟨fuel + 1, (program_run_succ fuel _ _ t result).mpr (.inr ⟨_, _, hturn, hrest⟩)⟩

/-- The same loop with other outcomes ending it. -/
def Loop.endingOn (L : Loop S ι ω ρ) (ends : ω → Option ρ) : Loop S ι ω ρ := { L with ends }

/-- A loop that goes on wherever another one does makes the other one's turns. -/
theorem Loop.Turns.endingOn {ends : ω → Option ρ} (hends : ∀ outcome, ends outcome = none → L.ends outcome = none)
    {i j : ι} {s t : σ} (hturns : (L.endingOn ends).Turns M i s j t) : L.Turns M i s j t := by
  induction hturns with
  | start i s => exact .start i s
  | turn hturn _ ih => exact .turn ⟨hturn.run, hends _ hturn.goes_on⟩ ih

end stoned.program
