import Stoned.Program.Signed
import Mathlib.Tactic.Ring
import Mathlib.Tactic.Positivity

namespace stoned.program

open signed

/-! Loops that count with a signed integer of 64 bits, which may overflow. -/

/-- `for (int64_t i = first; goes(i); i += step)` -/
structure Counter where
  goes : Int64 → Bool
  step : Int64

/-- The numbers from one on, a step apart. -/
def progression (first step : Int) (count : Nat) : List Int64 := (List.range count).map fun (k : Nat) => Int64.ofInt (first + k * step)

@[simp] theorem length_progression (first step : Int) (count : Nat) : (progression first step count).length = count := by
  simp [progression]

theorem getElem_progression (first step : Int) {count k : Nat} (h : k < (progression first step count).length) :
    (progression first step count)[k] = Int64.ofInt (first + k * step) := by
  simp [progression]

namespace Counter

section
variable {σ ρ : Type}

/-- The body may leave the loop. -/
def loop (c : Counter) (body : Int64 → σ → Except ρ σ) : Nat → Int64 → σ → Option (Except ρ σ)
  | 0, _, _ => none
  | fuel + 1, i, s =>
    if c.goes i then
      match body i s with
      | .error r => some (.error r)
      | .ok s => (add i c.step).bind fun i => c.loop body fuel i s
    else some (.ok s)

/-- What the body does for some numbers one after the other. -/
def through (body : Int64 → σ → Except ρ σ) : List Int64 → σ → Except ρ σ
  | [], s => .ok s
  | i :: is, s => (body i s).bind (through body is)

end

/-- The numbers that the body is run for, when it does not leave. -/
structure Takes (c : Counter) (first : Int64) (is : List Int64) : Prop where
  value : ∀ k (h : k < is.length), is[k].toInt = first.toInt + k * c.step.toInt
  goes : ∀ i ∈ is, c.goes i = true
  stops : ∀ i : Int64, i.toInt = first.toInt + is.length * c.step.toInt → c.goes i = false

/-- The number behind the last one: the counter is to take it before the loop ends. -/
def beyond (c : Counter) (first : Int64) (is : List Int64) : Int := first.toInt + is.length * c.step.toInt

section
variable {σ ρ : Type} {c : Counter} {body : Int64 → σ → Except ρ σ} {first i : Int64} {is : List Int64} {s : σ}

theorem Takes.head (h : c.Takes first (i :: is)) : i = first :=
  Int64.toInt_inj.mp (by simpa using h.value 0 (Nat.zero_lt_succ _))

theorem beyond_cons {next : Int64} (hnext : next.toInt = first.toInt + c.step.toInt) :
    c.beyond first (i :: is) = c.beyond next is := by
  simp only [beyond, List.length_cons, hnext]
  push_cast
  ring

theorem Takes.tail {next : Int64} (h : c.Takes first (i :: is)) (hnext : next.toInt = first.toInt + c.step.toInt) :
    c.Takes next is where
  value k hk := by
    have hvalue := h.value (k + 1) (Nat.succ_lt_succ hk)
    rw [List.getElem_cons_succ] at hvalue
    rw [hvalue, hnext]
    push_cast
    ring
  goes i hi := h.goes i (List.mem_cons_of_mem _ hi)
  stops j hj := h.stops j (by rw [hj]; exact (beyond_cons hnext).symm)

/-- Where the numbers go on the counter does not overflow. -/
theorem Takes.next {j : Int64} (h : c.Takes first (i :: j :: is)) : j.toInt = first.toInt + c.step.toInt := by
  have hvalue := h.value 1 (by simp)
  simpa using hvalue

/-- The loop runs its body for these numbers, and overflows if there is no number to
end with. -/
theorem loop_eq (h : c.Takes first is) {fuel : Nat} (hfuel : is.length < fuel) :
    c.loop body fuel first s =
      match through body is s with
      | .error r => some (.error r)
      | .ok s' => if Fits (c.beyond first is) then some (.ok s') else none := by
  induction is generalizing first fuel s with
  | nil =>
    obtain ⟨fuel, rfl⟩ : ∃ fuel', fuel = fuel' + 1 := ⟨fuel - 1, by omega⟩
    have hbeyond : c.beyond first [] = first.toInt := by simp [beyond]
    rw [loop, h.stops first hbeyond.symm, hbeyond]
    exact (if_pos (toInt_bounds first)).symm
  | cons i is ih =>
    obtain ⟨fuel, rfl⟩ : ∃ fuel', fuel = fuel' + 1 := ⟨fuel - 1, by omega⟩
    obtain rfl := h.head
    rw [loop, h.goes i List.mem_cons_self, through]
    cases body i s with
    | error r => rfl
    | ok s' =>
      simp only [if_true, Except.bind]
      by_cases hfits : Fits (i.toInt + c.step.toInt)
      · obtain ⟨next, hadd, hnext⟩ := exists_fit_eq hfits
        rw [show add i c.step = some next from hadd, Option.bind_some, beyond_cons hnext]
        exact ih (h.tail hnext) (Nat.lt_of_succ_lt_succ hfuel)
      · have hnone : add i c.step = none := Option.eq_none_iff_forall_ne_some.mpr fun n hn => hfits (fits_of_fit hn)
        -- Then there is no other number, and none to end with.
        cases is with
        | nil =>
          have hbeyond : c.beyond i [i] = i.toInt + c.step.toInt := by simp [beyond]
          rw [hnone, hbeyond]
          exact (if_neg hfits).symm
        | cons j is => exact absurd (h.next ▸ toInt_bounds j) hfits

theorem loop_more {r : Except ρ σ} {fuel fuel' : Nat} (hrun : c.loop body fuel first s = some r) (hle : fuel ≤ fuel') :
    c.loop body fuel' first s = some r := by
  induction fuel generalizing first s fuel' with
  | zero => cases hrun
  | succ fuel ih =>
    obtain ⟨fuel', rfl⟩ : ∃ n, fuel' = n + 1 := ⟨fuel' - 1, by omega⟩
    rw [loop] at hrun ⊢
    split at hrun
    · next hgoes =>
      rw [if_pos hgoes]
      cases hbody : body first s with
      | error r => rwa [hbody] at hrun
      | ok s' =>
        rw [hbody] at hrun
        obtain ⟨next, hadd, hrest⟩ := Option.bind_eq_some_iff.mp hrun
        exact Option.bind_eq_some_iff.mpr ⟨next, hadd, ih hrest (by omega)⟩
    · next hgoes => rwa [if_neg hgoes]

/-- A loop that is to go on when there is no number to go on with does not end. -/
theorem loop_overflows {s' : σ} (h : c.Takes first is) (hthrough : through body is s = .ok s') (hfits : ¬ Fits (c.beyond first is))
    (fuel : Nat) : c.loop body fuel first s = none := by
  refine Option.eq_none_iff_forall_ne_some.mpr fun r hrun => ?_
  have hmore := loop_more hrun (Nat.le_max_left fuel (is.length + 1))
  rw [loop_eq h (Nat.lt_of_lt_of_le (Nat.lt_succ_self _) (Nat.le_max_right ..)), hthrough] at hmore
  simp only [if_neg hfits] at hmore
  cases hmore

end

/-! ### The numbers themselves -/

section
variable {c : Counter} {first : Int64} {last step : Int} {count : Nat}

/-- How many numbers there are up to a last one, counting up. -/
def ascending (first last step : Int) : Nat := ((last - first) / step + 1).toNat

theorem lt_ascending_iff (first last : Int) (hstep : 0 < step) (k : Nat) :
    k < ascending first last step ↔ first + k * step ≤ last := by
  have hdiv : (k : Int) ≤ (last - first) / step ↔ k * step ≤ last - first := Int.le_ediv_iff_mul_le hstep
  unfold ascending
  omega

theorem takes_up (hstep : 0 < c.step.toInt) (hlast : last < 2 ^ 63) (hgoes : ∀ i, c.goes i = true ↔ i.toInt ≤ last) :
    c.Takes first (progression first.toInt c.step.toInt (ascending first.toInt last c.step.toInt)) := by
  have hfirst := toInt_bounds first
  have hvalue : ∀ k, k < ascending first.toInt last c.step.toInt →
      (Int64.ofInt (first.toInt + k * c.step.toInt)).toInt = first.toInt + k * c.step.toInt := by
    intro k hk
    have hle := (lt_ascending_iff first.toInt last hstep k).mp hk
    have hnonneg : 0 ≤ (k : Int) * c.step.toInt := by positivity
    exact Int64.toInt_ofInt_of_le (by omega) (by omega)
  refine ⟨fun k hk => ?_, fun i hi => ?_, fun i hi => ?_⟩
  · rw [getElem_progression]
    exact hvalue k (by simpa using hk)
  · obtain ⟨k, hk, rfl⟩ := List.mem_map.mp hi
    rw [List.mem_range] at hk
    rw [hgoes, hvalue k hk]
    exact (lt_ascending_iff first.toInt last hstep k).mp hk
  · rw [Bool.eq_false_iff, Ne, hgoes, hi, length_progression]
    exact fun hle => Nat.lt_irrefl _ ((lt_ascending_iff first.toInt last hstep _).mpr hle)

/-- Counting down goes through the same numbers turned around. -/
theorem takes_down (hstep : c.step.toInt < 0) (hlast : -2 ^ 63 ≤ last) (hgoes : ∀ i, c.goes i = true ↔ last ≤ i.toInt) :
    c.Takes first (progression first.toInt c.step.toInt (ascending last first.toInt (-c.step.toInt))) := by
  have hfirst := toInt_bounds first
  have hcount : ∀ k, k < ascending last first.toInt (-c.step.toInt) ↔ last ≤ first.toInt + k * c.step.toInt := by
    intro k
    rw [lt_ascending_iff last first.toInt (by omega) k, mul_neg]
    omega
  have hvalue : ∀ k, k < ascending last first.toInt (-c.step.toInt) →
      (Int64.ofInt (first.toInt + k * c.step.toInt)).toInt = first.toInt + k * c.step.toInt := by
    intro k hk
    have hle := (hcount k).mp hk
    have hnonneg : 0 ≤ (k : Int) * -c.step.toInt := mul_nonneg (by positivity) (by omega)
    rw [mul_neg] at hnonneg
    exact Int64.toInt_ofInt_of_le (by omega) (by omega)
  refine ⟨fun k hk => ?_, fun i hi => ?_, fun i hi => ?_⟩
  · rw [getElem_progression]
    exact hvalue k (by simpa using hk)
  · obtain ⟨k, hk, rfl⟩ := List.mem_map.mp hi
    rw [List.mem_range] at hk
    rw [hgoes, hvalue k hk]
    exact (hcount k).mp hk
  · rw [Bool.eq_false_iff, Ne, hgoes, hi, length_progression]
    exact fun hle => Nat.lt_irrefl _ ((hcount _).mpr hle)

end
end Counter
end stoned.program
