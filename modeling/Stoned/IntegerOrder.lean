import Stoned.Numbers
import Stoned.DoubleOrder

namespace stoned

open program

/-! How integers compare: by their doubles, but for `==` (eval_dispatch.c,
eval_binop; value.h, val_equal). -/

/-- Built-ins with the `==` of every value that is no object written out. -/
def equality_builtins (rest : Builtins) : Builtins
  | .dispatch .common { env, recv, name, args, blk, site, public_only, explicit_receiver } =>
    match name, recv, args with
    | "==", .object o, args =>
      rest (.dispatch .common { env, recv := .object o, name := "==", args, blk, site, public_only, explicit_receiver })
    | "==", _, [] => return some (.bool false)
    | "==", recv, other :: _ => return some (.bool (← val_equal recv other))
    | name, recv, args => rest (.dispatch .common { env, recv, name, args, blk, site, public_only, explicit_receiver })
  | b => rest b

/-- `==` of a value whose built-ins compare it is met before any method of its class. -/
theorem run_equal_method {builtins : Builtins} {env : Env} (span : Span) (left_node : Node) {left right : Value}
    {same : Bool} {depth : Nat} {s : State}
    (hexpand : apply_binop env span "==" left_node left right = get >>= fun _ =>
      dispatch_method { env, recv := left, name := "==", args := [right], site := some span })
    (hsingleton : (dispatch_singleton { env, recv := left, name := "==", args := [right], site := some span }).run
      (builtins.machine (depth + 2)) s = some (none, s))
    (hfirst : (dispatch_object_first { env, recv := left, name := "==", args := [right], site := some span }).run
      (builtins.machine (depth + 2)) s = some (none, s))
    (hbuiltin : builtins (.dispatch .common { env, recv := left, name := "==", args := [right], site := some span }) =
      val_equal left right >>= fun same => (return some (.bool same) : P (Option Value)))
    (hequal : (val_equal left right).run (builtins.machine (depth + 1)) s = some (same, s)) :
    (apply_binop env span "==" left_node left right).run (builtins.machine (depth + 3)) s = some (.bool same, s) := by
  let send : Send := { env, recv := left, name := "==", args := [right], site := some span }
  have hbody : (builtins (.dispatch .common send)).run (builtins.machine (depth + 1)) s =
      some (some (.bool same), s) := by
    rw [hbuiltin]
    exact (run_bind_some (f := fun same => (return some (.bool same) : P (Option Value))) hequal).trans rfl
  have hcommon : (dispatch_builtin .common send).run (builtins.machine (depth + 2)) s =
      some (some (.bool same), s) := by
    refine (run_builtin_value builtins (depth + 1) (.dispatch .common send) id s).trans ?_
    rw [hbody]
    rfl
  have hstage : (dispatch_common send).run (builtins.machine (depth + 2)) s = some (some (.bool same), s) := by
    unfold dispatch_common
    rw [run_bind_some hcommon]
    rfl
  rw [hexpand, run_bind_some (run_get _ s)]
  refine (run_call builtins (depth + 2) (.dispatch_method send) s).trans ?_
  change (dispatch_method_body send).run (builtins.machine (depth + 2)) s = _
  unfold dispatch_method_body or_else
  rw [run_bind_some hsingleton]
  simp only
  rw [run_bind_some hfirst]
  simp only
  rw [run_bind_some hstage]
  rfl

section
variable (fpu : Fpu) (rest : Builtins) (env : Env) (span : Span) (left_node : Node) (a b : Int64) (depth : Nat) (s : State)

/-- `==` of two integers is exact. -/
theorem apply_binop_equal_int :
    (apply_binop env span "==" left_node (.int a) (.int b)).run
        ((fpu.builtins (equality_builtins rest)).machine (depth + 3)) s = some (.bool (a = b), s) := by
  let builtins := fpu.builtins (equality_builtins rest)
  have hequal : (val_equal (.int a) (.int b)).run (builtins.machine (depth + 1)) s = some (decide (a = b), s) :=
    run_call builtins depth (.val_equal (.int a) (.int b)) s
  exact run_equal_method _ _ rfl rfl rfl rfl hequal

end

/-- What the comparison operators say about two integers. -/
structure Comparison where
  less : Bool
  equal : Bool
  greater : Bool
  at_most : Bool
  at_least : Bool
  order : Int64

/-- An operator comes to the same value in every state, and changes none. -/
def Evaluates (builtins : Builtins) (op : String) (a b : Int64) (v : Value) : Prop :=
  ∀ env span left_node depth s,
    (apply_binop env span op left_node (.int a) (.int b)).run (builtins.machine (depth + 3)) s = some (v, s)

/-- What eval_binop makes of the comparison operators. -/
structure Comparison.Of (builtins : Builtins) (a b : Int64) (c : Comparison) : Prop where
  less : Evaluates builtins "<" a b (.bool c.less)
  equal : Evaluates builtins "==" a b (.bool c.equal)
  greater : Evaluates builtins ">" a b (.bool c.greater)
  at_most : Evaluates builtins "<=" a b (.bool c.at_most)
  at_least : Evaluates builtins ">=" a b (.bool c.at_least)
  order : Evaluates builtins "<=>" a b (.int c.order)

/-- The comparison of integers as numbers. -/
structure Comparison.Total (a b : Int64) (c : Comparison) : Prop where
  less : c.less = true ↔ a < b
  equal : c.equal = true ↔ a = b
  greater : c.greater = true ↔ b < a
  /-- `<`, `==` and `>` exclude each other, and one of them holds. -/
  exclusive : ¬ (c.less = true ∧ c.equal = true) ∧ ¬ (c.equal = true ∧ c.greater = true) ∧
    ¬ (c.less = true ∧ c.greater = true)
  exhaustive : c.less = true ∨ c.equal = true ∨ c.greater = true
  order : (c.order = 0 ↔ c.equal = true) ∧ (c.order = -1 ↔ c.less = true) ∧ (c.order = 1 ↔ c.greater = true)
  at_most : c.at_most = (c.less || c.equal)
  at_least : c.at_least = (c.greater || c.equal)

/-- The comparison of two integers by the doubles they are converted to. -/
def double_comparison (a b : Int64) : Comparison where
  less := (Double.of_int a).less (.of_int b)
  equal := a = b
  greater := (Double.of_int b).less (.of_int a)
  at_most := (Double.of_int a).at_most (.of_int b)
  at_least := (Double.of_int b).at_most (.of_int a)
  order := if (Double.of_int a).less (.of_int b) then -1 else if (Double.of_int b).less (.of_int a) then 1 else 0

section
variable (fpu : Fpu) (rest : Builtins) (a b : Int64)

theorem evaluates_of_operation {op : String} {v : Value} (hop : op ∈ integer_operators)
    (h : ∀ env site, integer_operation fpu floor_remainder env op a b site = return v) :
    Evaluates (fpu.builtins rest) op a b v := by
  intro env span left_node depth s
  rw [apply_binop_int fpu env a b rest (depth + 2) s span left_node hop, h]
  rfl

theorem double_comparison_of : (double_comparison a b).Of (fpu.builtins (equality_builtins rest)) a b where
  less := evaluates_of_operation fpu _ a b (by decide) fun _ _ => rfl
  equal := fun env span left_node depth s => apply_binop_equal_int fpu rest env span left_node a b depth s
  greater := evaluates_of_operation fpu _ a b (by decide) fun _ _ => rfl
  at_most := evaluates_of_operation fpu _ a b (by decide) fun _ _ => rfl
  at_least := evaluates_of_operation fpu _ a b (by decide) fun _ _ => rfl
  order := evaluates_of_operation fpu _ a b (by decide) fun _ _ => rfl

end

theorem Evaluates.unique {builtins : Builtins} {op : String} {a b : Int64} {v w : Value}
    (hv : Evaluates builtins op a b v) (hw : Evaluates builtins op a b w) : v = w := by
  have h := (hv 0 no_span (.nil no_span) 0 bare_state).symm.trans (hw 0 no_span (.nil no_span) 0 bare_state)
  exact congrArg Prod.fst (Option.some.inj h)

/-- The operators come to one comparison only. -/
theorem Comparison.Of.unique {builtins : Builtins} {a b : Int64} {c d : Comparison}
    (hc : c.Of builtins a b) (hd : d.Of builtins a b) : c = d := by
  have hless := Value.bool.inj (hc.less.unique hd.less)
  have hequal := Value.bool.inj (hc.equal.unique hd.equal)
  have hgreater := Value.bool.inj (hc.greater.unique hd.greater)
  have hat_most := Value.bool.inj (hc.at_most.unique hd.at_most)
  have hat_least := Value.bool.inj (hc.at_least.unique hd.at_least)
  have horder := Value.int.inj (hc.order.unique hd.order)
  cases c
  cases d
  simp_all

theorem lt_trichotomy_int (a b : Int64) : a < b ∧ ¬ b < a ∧ a ≠ b ∨ a = b ∧ ¬ b < a ∨ b < a ∧ ¬ a < b ∧ a ≠ b := by
  have h : a = b ↔ a.toInt = b.toInt := Int64.toInt_inj.symm
  simp only [Int64.lt_iff_toInt_lt, ne_eq, h]
  omega

/-- Doubles that differ are in the order of the integers. -/
theorem double_comparison_total {a b : Int64} (h : a = b ∨ Double.of_int a ≠ .of_int b) :
    (double_comparison a b).Total a b := by
  have hne : a ≠ b → Double.of_int a ≠ .of_int b := h.resolve_left
  have hle : ∀ x y : Int64, x ≤ y ↔ x < y ∨ x = y := by
    intro x y
    rw [Int64.le_iff_toInt_le, Int64.lt_iff_toInt_lt, ← Int64.toInt_inj]
    omega
  have hab : (Double.of_int a).less (.of_int b) = decide (a < b) := by
    rw [Bool.eq_iff_iff, Double.of_int_less_iff, decide_eq_true_iff]
    rcases lt_trichotomy_int a b with ⟨hlt, -, hdiff⟩ | ⟨rfl, hlt⟩ | ⟨-, hnot, -⟩
    · simp [hlt, hne hdiff]
    · simp [hlt]
    · simp [hnot]
  have hba : (Double.of_int b).less (.of_int a) = decide (b < a) := by
    rw [Bool.eq_iff_iff, Double.of_int_less_iff, decide_eq_true_iff]
    rcases lt_trichotomy_int a b with ⟨-, hnot, -⟩ | ⟨rfl, hlt⟩ | ⟨hlt, -, hdiff⟩
    · simp [hnot]
    · simp [hlt]
    · simp [hlt, (hne hdiff).symm]
  have hmost : (Double.of_int a).at_most (.of_int b) = (decide (a < b) || decide (a = b)) := by
    rw [Bool.eq_iff_iff, Double.of_int_at_most_iff, hle]
    by_cases hsame : a = b
    · simp [hsame]
    · simp [hsame, hne hsame]
  have hleast : (Double.of_int b).at_most (.of_int a) = (decide (b < a) || decide (a = b)) := by
    rw [Bool.eq_iff_iff, Double.of_int_at_most_iff, hle]
    by_cases hsame : a = b
    · simp [hsame]
    · simp [hsame, Ne.symm hsame, (hne hsame).symm]
  constructor
  all_goals simp only [double_comparison, hab, hba, hmost, hleast]
  all_goals rcases lt_trichotomy_int a b with ⟨hlt, hnot, hdiff⟩ | ⟨rfl, hnot⟩ | ⟨hlt, hnot, hdiff⟩
  all_goals first | simp [hlt, hnot, hdiff] | simp [hnot]

/-- Integers that are one double are not ordered, though they may be different. -/
theorem not_total_of_same {a b : Int64} (hdiff : a ≠ b) (hsame : Double.of_int a = .of_int b) :
    ¬ (double_comparison a b).Total a b := by
  intro htotal
  have hless : (double_comparison a b).less = false := by simp [double_comparison, hsame, Double.less]
  have hgreater : (double_comparison a b).greater = false := by simp [double_comparison, hsame, Double.less]
  have hequal : (double_comparison a b).equal = false := by simp [double_comparison, hdiff]
  have hsome := htotal.exhaustive
  simp [hless, hgreater, hequal] at hsome

/-- The operators order two integers as numbers exactly when these are equal or
differ as doubles. -/
theorem comparison_total_iff (fpu : Fpu) (rest : Builtins) (a b : Int64) :
    (∃ c : Comparison, c.Of (fpu.builtins (equality_builtins rest)) a b ∧ c.Total a b) ↔
      (a = b ∨ Double.of_int a ≠ .of_int b) := by
  constructor
  · rintro ⟨c, hof, htotal⟩
    cases hof.unique (double_comparison_of fpu rest a b)
    by_contra hnot
    obtain ⟨hdiff, hsame⟩ := not_or.mp hnot
    exact not_total_of_same hdiff (not_ne_iff.mp hsame) htotal
  · intro h
    exact ⟨_, double_comparison_of fpu rest a b, double_comparison_total h⟩

/-- 9007199254740993 is neither less than, equal to nor greater than
9007199254740992. -/
theorem neighbours_not_ordered :
    ¬ ∃ c : Comparison, c.Of (nan_fpu.builtins (equality_builtins no_builtins)) 9007199254740993 9007199254740992 ∧
      c.Total 9007199254740993 9007199254740992 := by
  rintro ⟨c, hof, htotal⟩
  rw [hof.unique (double_comparison_of nan_fpu no_builtins _ _)] at htotal
  exact not_total_of_same (by decide) (by decide) htotal

end stoned
