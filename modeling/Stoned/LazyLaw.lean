import Mathlib.Data.List.TakeWhile
import Stoned.Lazy

namespace stoned.lazy

/-! When lazy enumerators give what the methods of arrays give. -/

/-- What a `flat_map` makes of what its block returned: an array is spliced in. -/
def spliced {α : Type} [Values α] (v : α) : List α := (Values.elements v).getD [v]

/-- What a lazy `flat_map` makes of it: what answers to `to_a` is spliced in. -/
def expansion {α : Type} [Values α] (v : α) : List α := (Values.to_a v).getD [v]

namespace array
variable {α : Type} {p : α → Bool} {f : α → α} {n : Int} {xs result : List α}

theorem select_each_eq : select_each p result xs = result ++ xs.filter p := by
  induction xs generalizing result with
  | nil => simp [select_each]
  | cons x xs ih => cases hx : p x <;> simp [select_each, ih, hx]

@[simp] theorem select_eq : select p xs = xs.filter p := select_each_eq

theorem reject_each_eq : reject_each p result xs = result ++ xs.filter fun x => !p x := by
  induction xs generalizing result with
  | nil => simp [reject_each]
  | cons x xs ih => cases hx : p x <;> simp [reject_each, ih, hx]

@[simp] theorem reject_eq : reject p xs = xs.filter fun x => !p x := reject_each_eq

theorem map_each_eq : map_each f result xs = result ++ xs.map f := by
  induction xs generalizing result with
  | nil => simp [map_each]
  | cons x xs ih => simp [map_each, ih]

@[simp] theorem map_eq : map f xs = xs.map f := map_each_eq

theorem flat_map_each_eq [Values α] : flat_map_each f result xs = result ++ xs.flatMap fun x => spliced (f x) := by
  induction xs generalizing result with
  | nil => simp [flat_map_each]
  | cons x xs ih =>
    rw [flat_map_each]
    split <;> rename_i hx <;> simp [ih, spliced, hx]

@[simp] theorem flat_map_eq [Values α] : flat_map f xs = xs.flatMap fun x => spliced (f x) := flat_map_each_eq

theorem take_each_eq : take_each n result xs = result ++ xs.take (n - result.length).toNat := by
  induction xs generalizing result with
  | nil => simp [take_each]
  | cons x xs ih =>
    rw [take_each]
    split
    · have hnone : (n - result.length).toNat = 0 := by omega
      simp [hnone]
    · have hone : (n - result.length).toNat = (n - (result ++ [x]).length).toNat + 1 := by
        simp only [List.length_append, List.length_singleton]
        omega
      rw [ih, hone]
      simp

@[simp] theorem take_eq : take n xs = xs.take n.toNat := by
  have h : take_each n [] xs = [] ++ xs.take (n - ([] : List α).length).toNat := take_each_eq
  simpa [take] using h

theorem take_while_each_eq : take_while_each p result xs = result ++ xs.takeWhile p := by
  induction xs generalizing result with
  | nil => simp [take_while_each]
  | cons x xs ih => cases hx : p x <;> simp [take_while_each, ih, hx]

@[simp] theorem take_while_eq : take_while p xs = xs.takeWhile p := take_while_each_eq

theorem drop_each_eq {i : Int} : drop_each n result i xs = result ++ xs.drop (n - i).toNat := by
  induction xs generalizing result i with
  | nil => simp [drop_each]
  | cons x xs ih =>
    rw [drop_each, ih]
    split
    · have hnone : (n - i).toNat = 0 := by omega
      have hnext : (n - (i + 1)).toNat = 0 := by omega
      simp [hnone, hnext]
    · have hone : (n - i).toNat = (n - (i + 1)).toNat + 1 := by omega
      simp [hone]

@[simp] theorem drop_eq : drop n xs = xs.drop n.toNat := by
  have h : drop_each n [] 0 xs = [] ++ xs.drop (n - 0).toNat := drop_each_eq
  simpa [drop] using h

theorem drop_while_each_eq {dropping : Bool} :
    drop_while_each p result dropping xs = result ++ if dropping then xs.dropWhile p else xs := by
  induction xs generalizing result dropping with
  | nil => simp [drop_while_each]
  | cons x xs ih =>
    rw [drop_while_each]
    cases dropping <;> cases hx : p x <;> simp [ih, hx]

@[simp] theorem drop_while_eq : drop_while p xs = xs.dropWhile p := drop_while_each_eq

end array

theorem spliced_expanded {α : Type} [Values α] (arg : α → α) (v : α) :
    spliced (expanded arg v) = expansion (arg v) := by
  unfold spliced expanded expansion
  split <;> rename_i h <;> simp [h, Values.elements_array]

section
variable {α : Type} {arg : α → Bool} {vals new_vals : List α}

theorem take_while_vals_eq :
    take_while_vals arg new_vals vals = (new_vals ++ vals.takeWhile arg, !vals.all arg) := by
  induction vals generalizing new_vals with
  | nil => simp [take_while_vals]
  | cons v vals ih => cases hv : arg v <;> simp [take_while_vals, ih, hv]

theorem drop_vals_eq {n : Int} {count : Nat} : drop_vals n count new_vals vals =
    (new_vals ++ vals.drop (n - count).toNat, count + min (n - count).toNat vals.length) := by
  induction vals generalizing count new_vals with
  | nil => simp [drop_vals]
  | cons v vals ih =>
    rw [drop_vals]
    split
    · have hone : (n - count).toNat = (n - (count + 1 : Nat)).toNat + 1 := by omega
      rw [ih, hone, Prod.mk.injEq, List.drop_succ_cons, List.length_cons]
      exact ⟨rfl, by omega⟩
    · have hnone : (n - count).toNat = 0 := by omega
      rw [ih, hnone]
      simp

theorem drop_while_vals_eq {done : Bool} : drop_while_vals arg done new_vals vals =
    (new_vals ++ (if done then vals else vals.dropWhile arg), done || !vals.all arg) := by
  induction vals generalizing done new_vals with
  | nil => simp [drop_while_vals]
  | cons v vals ih =>
    rw [drop_while_vals]
    cases done <;> cases hv : arg v <;> simp [ih, hv]

end

/-! ### What the pipeline computes -/

section
variable {α : Type} [Values α]

/-- What a stage makes of the values that come yet. -/
def Op.rest (flags : Flags) (idx : Nat) : Op α → List α → List α
  | .select arg, xs => xs.filter arg
  | .reject arg, xs => xs.filter fun x => !arg x
  | .map arg, xs => xs.map arg
  | .flat_map arg, xs => xs.flatMap fun x => expansion (arg x)
  | .take _, xs => xs
  | .take_while arg, xs => xs.takeWhile arg
  | .drop n, xs => xs.drop (n - flags.drop_counts idx).toNat
  | .drop_while arg, xs => if flags.drop_while_done idx then xs else xs.dropWhile arg

/-- What the stages from `idx` on make of them. -/
def flow (flags : Flags) : Nat → List (Op α) → List α → List α
  | _, [], xs => xs
  | idx, op :: ops, xs => flow flags (idx + 1) ops (op.rest flags idx xs)

/-- The stages that pass every value on. -/
def Op.idle : Op α → Prop
  | .take _ => True
  | .drop n => n ≤ 0
  | _ => False

/-- A `take_while` that may be given several values at once is the last stage,
or never stops. -/
def stops_clean : Bool → List (Op α) → Prop
  | _, [] => True
  | _, .flat_map _ :: ops => stops_clean true ops
  | many, .take_while arg :: ops =>
    (many = true → (∀ v, arg v = true) ∨ ∀ op ∈ ops, op.idle) ∧ stops_clean many ops
  | many, _ :: ops => stops_clean many ops

/-- The flags of all stages but one are the same. -/
def Flags.same_at (flags flags' : Flags) (idx : Nat) : Prop :=
  flags.drop_counts idx = flags'.drop_counts idx ∧ flags.drop_while_done idx = flags'.drop_while_done idx

variable {flags flags' : Flags} {op : Op α} {ops : List (Op α)} {idx : Nat} {vals xs : List α} {many : Bool}

@[simp] theorem Op.rest_nil : op.rest flags idx [] = [] := by cases op <;> simp [Op.rest]

@[simp] theorem flow_nil : flow flags idx ops [] = [] := by
  induction ops generalizing idx with
  | nil => rfl
  | cons op ops ih => rw [flow, Op.rest_nil, ih]

theorem Op.rest_same (hsame : flags.same_at flags' idx) : op.rest flags idx xs = op.rest flags' idx xs := by
  cases op <;> simp [Op.rest, hsame.1, hsame.2]

theorem flow_same (hsame : ∀ j, idx ≤ j → flags.same_at flags' j) :
    flow flags idx ops xs = flow flags' idx ops xs := by
  induction ops generalizing idx xs with
  | nil => rfl
  | cons op ops ih =>
    rw [flow, flow, Op.rest_same (hsame idx le_rfl), ih fun j hj => hsame j (by omega)]

theorem Op.rest_idle (hidle : op.idle) : op.rest flags idx xs = xs := by
  cases op with
  | take n => rfl
  | drop n =>
    have hnone : (n - flags.drop_counts idx).toNat = 0 := by
      have : n ≤ 0 := hidle
      omega
    rw [Op.rest, hnone, List.drop_zero]
  | _ => exact hidle.elim

theorem flow_idle (hidle : ∀ op ∈ ops, op.idle) : flow flags idx ops xs = xs := by
  induction ops generalizing idx xs with
  | nil => rfl
  | cons op ops ih =>
    rw [flow, Op.rest_idle (hidle op List.mem_cons_self), ih fun op hop => hidle op (List.mem_cons_of_mem _ hop)]

/-- What one stage does. -/
structure Staged (op : Op α) (idx : Nat) (vals : List α) (flags : Flags) (vals' : List α) (skip : Bool)
    (flags' : Flags) : Prop where
  passes : flags'.stop = false → ∀ more, op.rest flags idx (vals ++ more) = vals' ++ op.rest flags' idx more
  stops : flags'.stop = true → ∃ arg, op = .take_while arg ∧ vals.all arg = false ∧ vals' = vals.takeWhile arg
  skips : skip = true → vals' = []
  others : ∀ j, j ≠ idx → flags.same_at flags' j
  shrinks : (∀ arg, op ≠ .flat_map arg) → vals'.length ≤ vals.length

theorem stage_staged (hstop : flags.stop = false) : Staged op idx vals flags (stage op idx vals flags).1
    (stage op idx vals flags).2.1 (stage op idx vals flags).2.2 := by
  cases op with
  | select arg => constructor <;> simp [stage, hstop, Op.rest, Flags.same_at, List.length_filter_le]
  | reject arg => constructor <;> simp [stage, hstop, Op.rest, Flags.same_at, List.length_filter_le]
  | map arg => constructor <;> simp [stage, hstop, Op.rest, Flags.same_at]
  | flat_map arg => constructor <;> simp [stage, hstop, Op.rest, Flags.same_at, spliced_expanded]
  | take n => constructor <;> simp [stage, hstop, Op.rest, Flags.same_at]
  | take_while arg =>
    constructor <;> simp only [stage, take_while_vals_eq, hstop, List.nil_append, Bool.false_or]
    · intro hall more
      have hvals : vals.takeWhile arg = vals := List.takeWhile_eq_self_iff.mpr (by simpa using hall)
      simp [Op.rest, List.takeWhile_append, hvals]
    · intro hall
      exact ⟨arg, rfl, by simpa using hall, rfl⟩
    · simp
    · simp [Flags.same_at]
    · exact fun _ => (List.takeWhile_sublist _).length_le
  | drop n =>
    constructor <;> simp only [stage, drop_vals_eq, hstop, List.nil_append]
    · intro _ more
      have hcount : (n - (flags.drop_counts idx + min (n - flags.drop_counts idx).toNat vals.length : Nat)).toNat =
          (n - flags.drop_counts idx).toNat - vals.length := by omega
      simp only [Op.rest, Function.update_self, List.drop_append, hcount]
    · simp
    · simp
    · intro j hj
      simp [Flags.same_at, Function.update_of_ne hj]
    · exact fun _ => by simp
  | drop_while arg =>
    constructor <;> simp only [stage, drop_while_vals_eq, hstop, List.nil_append]
    · intro _ more
      cases hdone : flags.drop_while_done idx with
      | true => simp [Op.rest, hdone]
      | false =>
        cases hall : vals.all arg with
        | true =>
          have hvals : vals.dropWhile arg = [] := List.dropWhile_eq_nil_iff.mpr (by simpa using hall)
          simp [Op.rest, hdone, List.dropWhile_append, hvals]
        | false =>
          have hvals : vals.dropWhile arg ≠ [] := fun h => by
            have := List.all_eq_true.mpr (List.dropWhile_eq_nil_iff.mp h)
            simp [hall] at this
          simp [Op.rest, hdone, List.dropWhile_append, hvals]
    · simp
    · simp
    · intro j hj
      simp [Flags.same_at, Function.update_of_ne hj]
    · intro _
      split
      · exact le_rfl
      · exact (List.dropWhile_sublist _).length_le

theorem stages_halted {skip : Bool} (hhalt : (skip || flags.stop) = true) :
    stages ops idx vals skip flags = (vals, skip, flags) := by
  cases ops with
  | nil => rfl
  | cons op ops => rw [stages, if_pos hhalt]

theorem stages_cons (hstop : flags.stop = false) : stages (op :: ops) idx vals false flags =
    stages ops (idx + 1) (stage op idx vals flags).1 (stage op idx vals flags).2.1 (stage op idx vals flags).2.2 := by
  rw [stages, if_neg (by simp [hstop])]

/-- What the stages do to some values at once. -/
structure Flowed (ops : List (Op α)) (idx : Nat) (vals : List α) (flags : Flags) (vals' : List α) (skip : Bool)
    (flags' : Flags) : Prop where
  flows : ∀ more, flow flags idx ops (vals ++ more) = vals' ++ if flags'.stop then [] else flow flags' idx ops more
  skips : skip = true → vals' = []
  before : ∀ j < idx, flags.same_at flags' j

omit [Values α] in
theorem stops_clean_tail (hclean : stops_clean many (op :: ops)) :
    ∃ many', stops_clean many' ops ∧ (many' = false → many = false ∧ ∀ arg, op ≠ .flat_map arg) := by
  cases op with
  | flat_map arg => exact ⟨true, hclean, nofun⟩
  | take_while arg => exact ⟨many, hclean.2, fun h => ⟨h, nofun⟩⟩
  | _ => exact ⟨many, hclean, fun h => ⟨h, nofun⟩⟩

/-- Where a stop is clean, what it leaves is what the other stages would make of it. -/
theorem flow_stopped {arg : α → Bool} (hclean : stops_clean many (.take_while arg :: ops))
    (hmany : many = false → vals.length ≤ 1) (hall : vals.all arg = false) :
    flow flags idx ops (vals.takeWhile arg) = vals.takeWhile arg := by
  cases many with
  | true =>
    obtain hnever | hidle := hclean.1 rfl
    · have : vals.all arg = true := List.all_eq_true.mpr fun v _ => hnever v
      rw [this] at hall
      cases hall
    · exact flow_idle hidle
  | false =>
    have hnone : vals.takeWhile arg = [] := by
      match vals, hmany rfl with
      | [], _ => rfl
      | [v], _ => simpa using hall
    rw [hnone, flow_nil]

theorem stages_flow (hclean : stops_clean many ops) (hmany : many = false → vals.length ≤ 1)
    (hstop : flags.stop = false) : Flowed ops idx vals flags (stages ops idx vals false flags).1
      (stages ops idx vals false flags).2.1 (stages ops idx vals false flags).2.2 := by
  induction ops generalizing idx vals flags many with
  | nil =>
    refine ⟨?_, nofun, fun _ _ => ⟨rfl, rfl⟩⟩
    simp [stages, flow, hstop]
  | cons op ops ih =>
    have hstage : Staged op idx vals flags _ _ _ := stage_staged hstop
    rw [stages_cons hstop]
    generalize (stage op idx vals flags).1 = vals₁ at hstage ⊢
    generalize (stage op idx vals flags).2.1 = skip₁ at hstage ⊢
    generalize (stage op idx vals flags).2.2 = flags₁ at hstage ⊢
    have hbehind : ∀ j, idx + 1 ≤ j → flags.same_at flags₁ j := fun j hj => hstage.others j (by omega)
    have hbefore : ∀ j < idx, flags.same_at flags₁ j := fun j hj => hstage.others j (by omega)
    cases hstop₁ : flags₁.stop with
    | true =>
      obtain ⟨arg, rfl, hall, hvals⟩ := hstage.stops hstop₁
      rw [stages_halted (by simp [hstop₁])]
      refine ⟨?_, hstage.skips, hbefore⟩
      intro more
      have htake : (vals ++ more).takeWhile arg = vals.takeWhile arg := by
        have hne : ¬ (vals.takeWhile arg).length = vals.length := by
          intro hlen
          have hself := (List.takeWhile_prefix arg).eq_of_length hlen
          have := List.all_eq_true.mpr (List.takeWhile_eq_self_iff.mp hself)
          simp [hall] at this
        rw [List.takeWhile_append, if_neg hne]
      rw [flow, Op.rest, htake, flow_stopped hclean hmany hall]
      simp [hstop₁, hvals]
    | false =>
      have hpasses := hstage.passes hstop₁
      cases hskip : skip₁ with
      | true =>
        obtain rfl : vals₁ = [] := hstage.skips hskip
        rw [stages_halted (by simp)]
        refine ⟨?_, fun _ => rfl, hbefore⟩
        intro more
        simp [flow, hpasses, flow_same hbehind, hstop₁]
      | false =>
        obtain ⟨many', hclean', hmany'⟩ := stops_clean_tail hclean
        have hshrinks : many' = false → vals₁.length ≤ 1 := fun h =>
          (hstage.shrinks (hmany' h).2).trans (hmany (hmany' h).1)
        have hrest : Flowed ops (idx + 1) vals₁ flags₁ _ _ _ := ih hclean' hshrinks hstop₁
        refine ⟨?_, hrest.skips, ?_⟩
        · intro more
          rw [flow, hpasses, flow_same hbehind, hrest.flows, flow, Op.rest_same (hrest.before idx (by omega))]
        · intro j hj
          have h₁ := hbefore j hj
          have h₂ := hrest.before j (by omega)
          exact ⟨h₁.1.trans h₂.1, h₁.2.trans h₂.2⟩

/-- The first elements up to a limit. -/
def upto (limit : Option Int) (xs : List α) : List α := limit.elim xs fun n => xs.take n.toNat

omit [Values α] in
@[simp] theorem reached_none {result : List α} : reached none result = false := rfl

omit [Values α] in
@[simp] theorem reached_some {n : Int} {result : List α} : reached (some n) result = true ↔ n ≤ result.length := by
  simp [reached]

omit [Values α] in
theorem push_vals_eq {limit : Option Int} {result : List α} (hroom : ∀ n ∈ limit, (result.length : Int) < n) :
    push_vals limit result vals = upto limit (result ++ vals) := by
  induction vals generalizing result with
  | nil =>
    cases limit with
    | none => simp [push_vals, upto]
    | some n =>
      have := hroom n rfl
      have hall : result.take n.toNat = result := List.take_of_length_le (by omega)
      simp [push_vals, upto, hall]
  | cons v vals ih =>
    rw [push_vals]
    cases limit with
    | none => simp [ih, upto]
    | some n =>
      have hlen := hroom n rfl
      simp only [reached_some, List.length_append, List.length_singleton]
      split
      · have hn : n.toNat = (result ++ [v]).length := by
          simp only [List.length_append, List.length_singleton]
          omega
        rw [upto, Option.elim_some, hn, List.append_cons result v vals,
          List.take_left' rfl]
      · rw [ih (fun m hm => by cases hm; simp only [List.length_append, List.length_singleton]; omega)]
        simp

/-- With room for an element, the pipeline gives what flows through it, up to
the limit. -/
theorem collect_each_eq {limit : Option Int} {result : List α} {src : List α} (hclean : stops_clean false ops)
    (hroom : ∀ n ∈ limit, (result.length : Int) < n) (hstop : flags.stop = false) :
    collect_each ops limit result flags src = upto limit (result ++ flow flags 0 ops src) := by
  induction src generalizing result flags with
  | nil =>
    rw [flow_nil, ← push_vals_eq hroom]
    rfl
  | cons x src ih =>
    have hflow : Flowed ops 0 [x] flags _ _ _ := stages_flow hclean (fun _ => le_rfl) hstop
    rw [collect_each, if_neg (by simp [hstop])]
    obtain ⟨vals, skip, flags', hr⟩ : ∃ vals skip flags', stages ops 0 [x] false flags = (vals, skip, flags') :=
      ⟨_, _, _, rfl⟩
    rw [hr] at hflow ⊢
    have hflows := hflow.flows src
    simp only [List.singleton_append] at hflows ⊢
    rw [hflows]
    have hpush : (if skip then result else push_vals limit result vals) = upto limit (result ++ vals) := by
      cases hskip : skip with
      | false => exact push_vals_eq hroom
      | true =>
        obtain rfl : vals = [] := hflow.skips hskip
        have hsame : push_vals limit result [] = upto limit (result ++ []) := push_vals_eq hroom
        exact hsame
    rw [hpush]
    cases limit with
    | none =>
      simp only [reached_none, upto, Option.elim_none, Bool.false_eq_true, if_false]
      cases hstop' : flags'.stop with
      | true => cases src <;> simp [collect_each, hstop']
      | false => simp [ih nofun hstop', upto]
    | some n =>
      have hlen := hroom n rfl
      simp only [reached_some, upto, Option.elim_some]
      split
      · rename_i hfull
        have hover : n.toNat ≤ (result ++ vals).length := by
          have := List.length_take_le' n.toNat (result ++ vals)
          omega
        rw [← List.append_assoc, List.take_append_of_le_length hover]
      · rename_i hfull
        have hall : (result ++ vals).take n.toNat = result ++ vals := by
          apply List.take_of_length_le
          by_contra hover
          simp only [List.length_take] at hfull
          omega
        rw [hall] at hfull ⊢
        cases hstop' : flags'.stop with
        | true => cases src <;> simp [collect_each, hstop', hall]
        | false =>
          rw [ih (fun m hm => by cases hm; omega) hstop']
          simp [upto]

end

end stoned.lazy
