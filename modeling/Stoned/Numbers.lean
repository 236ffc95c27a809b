import Stoned.Evaluator

namespace stoned

open program

/-! Arithmetic, as operators (eval_dispatch.c, eval_binop) and as methods
(eval_dispatch_primitives.c, dispatch_integer). -/

/-- What the processor and the mathematical library do with doubles. The
conversion to an integer is the compiled one, also where C leaves it open, as
are sums and products of integers, which wrap, and shifts, whose counts are
taken modulo 64. -/
structure Fpu where
  add : Double → Double → Double
  sub : Double → Double → Double
  mul : Double → Double → Double
  div : Double → Double → Double
  fmod : Double → Double → Double
  pow : Double → Double → Double
  to_int : Double → Int64

/-- The operators that are compared. -/
def integer_operators : List String :=
  ["+", "-", "*", "/", "%", "**", "<", "<=", ">", ">=", "<=>", "&", "|", "^", "<<", ">>"]

/-- The operand of an operation on doubles. What is no number counts as 0. -/
def double_operand : Value → Double
  | .int i => .of_int i
  | .float f => f
  | _ => .of_int 0

def compare_doubles (lf rf : Double) : Value := .int (if lf.less rf then -1 else if rf.less lf then 1 else 0)

/-- Division rounded down. -/
def floor_quotient (n d : Int64) : Int64 :=
  let q := n / d
  let r := n % d
  if r ≠ 0 ∧ r ^^^ d < 0 then q - 1 else q

section
variable (fpu : Fpu)

/-- The remainder of eval_binop, which has the sign of the divisor. -/
def floor_remainder (n d : Int64) : Int64 :=
  let r := n % d
  if r ≠ 0 ∧ decide (r < 0) ≠ decide (d < 0) then r + d else r

def floor_fmod (lf rf : Double) : Double :=
  let r := fpu.fmod lf rf
  let zero := Double.of_int 0
  if r != zero ∧ r.less zero ≠ rf.less zero then fpu.add r rf else r

/-- `base ** exponent` of integers: a Rational for a negative exponent, where
there is such a class. -/
def integer_power (env : Env) (base exponent : Int64) (site : Option Span) : P Value := do
  let lf := Double.of_int base
  let rf := Double.of_int exponent
  if exponent < 0 then
    match ← top_class "Rational" with
    | some rat_class =>
      let denom := fpu.pow lf (-rf)
      dispatch_method { env, recv := .klass rat_class, name := "new", args := [.int 1, .int (fpu.to_int denom)], site }
    | none => return .float (fpu.pow lf rf)
  else return .int (fpu.to_int (fpu.pow lf rf))

/-- The number operators of eval_binop, with a number on the left. -/
def binop_number (env : Env) (op : String) (left right : Value) (site : Option Span) : P (Option Value) := do
  let lf := double_operand left
  let rf := double_operand right
  match op, left, right with
  | "+", .int a, .int b => return some (.int (a + b))
  | "+", _, _ => return some (.float (fpu.add lf rf))
  | "-", .int a, .int b => return some (.int (a - b))
  | "-", _, _ => return some (.float (fpu.sub lf rf))
  | "*", .int a, .int b => return some (.int (a * b))
  | "*", .int a, .string sval frozen enc =>
    return some (← dispatch_method { env, recv := .string sval frozen enc, name := "*", args := [.int a], site })
  | "*", _, _ => return some (.float (fpu.mul lf rf))
  | "/", .int a, .int b =>
    if b = 0 then return some (← eval_raise_class site "ZeroDivisionError" "divided by 0")
    else return some (.int (floor_quotient a b))
  | "/", _, _ => return some (.float (fpu.div lf rf))
  | "%", .int a, .int b =>
    if b = 0 then return some (← eval_raise_class site "ZeroDivisionError" "divided by 0")
    else return some (.int (floor_remainder a b))
  | "%", _, _ => return some (.float (floor_fmod fpu lf rf))
  | "**", .int a, .int b => return some (← integer_power fpu env a b site)
  | "**", _, _ => return some (.float (fpu.pow lf rf))
  | "<", _, _ => return some (.bool (lf.less rf))
  | "<=", _, _ => return some (.bool (lf.at_most rf))
  | ">", _, _ => return some (.bool (rf.less lf))
  | ">=", _, _ => return some (.bool (rf.at_most lf))
  | "<=>", _, _ => return some (compare_doubles lf rf)
  | "&", .int a, .int b => return some (.int (a &&& b))
  | "|", .int a, .int b => return some (.int (a ||| b))
  | "^", .int a, .int b => return some (.int (a ^^^ b))
  | "<<", .int a, .int b => return some (.int (a <<< b))
  | ">>", .int a, .int b => return some (.int (a >>> b))
  | _, _, _ => return none

/-- An operand of another number class is met with an object of that class. -/
def coerce_integer (env : Env) (name class_name : String) (args : List Value) (r : Value) (site : Option Span) :
    P (Option Value) := do
  let ev ← get
  let named := match r with
    | .object o => (ev.class_of_object o).any fun k => (ev.klass k).name = class_name
    | _ => false
  if ["+", "-", "*", "/"].contains name && named then
    match ← top_class class_name with
    | some klass =>
      let coerced ← dispatch_method { env, recv := .klass klass, name := "new", args, site }
      if val_is_signal coerced then return none
      return some (← dispatch_method { env, recv := coerced, name, args := [r], site })
    | none => return none
  else return none

/-- The operators of dispatch_integer. -/
def integer_method (env : Env) (n : Int64) (name : String) (r : Value) (site : Option Span) : P (Option Value) := do
  let lf := Double.of_int n
  let rf := double_operand r
  match name, r with
  | "+", .int m => return some (.int (n + m))
  | "+", _ => return some (.float (fpu.add lf rf))
  | "-", .int m => return some (.int (n - m))
  | "-", _ => return some (.float (fpu.sub lf rf))
  | "*", .int m => return some (.int (n * m))
  | "*", _ => return some (.float (fpu.mul lf rf))
  | "/", .int m =>
    if m = 0 then return some (← eval_raise_class site "ZeroDivisionError" "divided by 0")
    else return some (.int (floor_quotient n m))
  | "/", _ => return some (.float (fpu.div lf rf))
  | "%", .int m =>
    if m = 0 then return some (← eval_raise_class site "ZeroDivisionError" "divided by 0")
    else return some (.int (n % m))
  | "%", _ => return some (.float (fpu.fmod lf rf))
  | "**", .int m => return some (← integer_power fpu env n m site)
  | "**", _ => return some (.float (fpu.pow lf rf))
  | "<", _ => return some (.bool (lf.less rf))
  | "<=", _ => return some (.bool (lf.at_most rf))
  | ">", _ => return some (.bool (rf.less lf))
  | ">=", _ => return some (.bool (rf.at_most lf))
  | "<=>", .int _ | "<=>", .float _ => return some (compare_doubles lf rf)
  | "<=>", _ => return some .nil
  | "&", .int m => return some (.int (n &&& m))
  | "|", .int m => return some (.int (n ||| m))
  | "^", .int m => return some (.int (n ^^^ m))
  | "<<", .int m => return some (.int (n <<< m))
  | ">>", .int m => return some (.int (n >>> m))
  | _, _ => return none

/-- dispatch_integer with one argument, as far as its operators go. -/
def dispatch_integer (env : Env) (n : Int64) (name : String) (r : Value) (site : Option Span) : P (Option Value) := do
  match ← coerce_integer env name "Complex" [.int n, .int 0] r site with
  | some v => return some v
  | none =>
    match ← coerce_integer env name "Rational" [.int n] r site with
    | some v => return some v
    | none => integer_method fpu env n name r site

/-- Built-ins with the operators of numbers written out. -/
def Fpu.builtins (rest : Builtins) : Builtins
  | .arithmetic env op (.int a) right site => binop_number fpu env op (.int a) right site
  | .arithmetic env op (.float f) right site => binop_number fpu env op (.float f) right site
  | .dispatch .primitive { env, recv := .int n, name, args := [r], blk, site, public_only, explicit_receiver } =>
    if integer_operators.contains name then dispatch_integer fpu env n name r site
    else rest (.dispatch .primitive { env, recv := .int n, name, args := [r], blk, site, public_only, explicit_receiver })
  | b => rest b

end

/-- What both do with two integers, but for the remainder. -/
def integer_operation (fpu : Fpu) (remainder : Int64 → Int64 → Int64) (env : Env) (op : String) (a b : Int64)
    (site : Option Span) : P Value := do
  let lf := Double.of_int a
  let rf := Double.of_int b
  match op with
  | "+" => return .int (a + b)
  | "-" => return .int (a - b)
  | "*" => return .int (a * b)
  | "/" =>
    if b = 0 then eval_raise_class site "ZeroDivisionError" "divided by 0"
    else return .int (floor_quotient a b)
  | "%" =>
    if b = 0 then eval_raise_class site "ZeroDivisionError" "divided by 0"
    else return .int (remainder a b)
  | "**" => integer_power fpu env a b site
  | "<" => return .bool (lf.less rf)
  | "<=" => return .bool (lf.at_most rf)
  | ">" => return .bool (rf.less lf)
  | ">=" => return .bool (rf.at_most lf)
  | "<=>" => return compare_doubles lf rf
  | "&" => return .int (a &&& b)
  | "|" => return .int (a ||| b)
  | "^" => return .int (a ^^^ b)
  | "<<" => return .int (a <<< b)
  | _ => return .int (a >>> b)

/-- A built-in's answer is passed on. -/
theorem run_builtin_value (builtins : Builtins) (depth : Nat) (b : Builtin) (value : b.Answer → Option Value) (s : State) :
    (builtin_value b value).run (builtins.machine (depth + 1)) s =
      ((builtins b).run (builtins.machine depth) s).map fun out => (value out.1, out.2) := by
  have hcall := run_call builtins depth (.builtin b) s
  unfold builtin_value
  cases hrun : (builtins b).run (builtins.machine depth) s with
  | none =>
    rw [run_bind, hcall.trans hrun]
    rfl
  | some out =>
    obtain ⟨answer, t⟩ := out
    rw [run_bind_some (hcall.trans hrun)]
    rfl

theorem run_some_answer {builtins : Builtins} {depth : Nat} {p : P (Option Value)} {q : P Value} {s : State}
    (h : p = q >>= fun v => return some v) :
    (p.run (builtins.machine depth) s).map (fun out => (id out.1, out.2)) =
      (q.run (builtins.machine depth) s).map fun out => (some out.1, out.2) := by
  rw [h, run_bind]
  cases q.run (builtins.machine depth) s with
  | none => rfl
  | some out => rfl

section
variable (fpu : Fpu) (env : Env) {op : String} (a b : Int64) (site : Option Span)

theorem binop_number_int (hop : op ∈ integer_operators) :
    binop_number fpu env op (.int a) (.int b) site =
      integer_operation fpu floor_remainder env op a b site >>= fun v => return some v := by
  simp only [integer_operators, List.mem_cons, List.not_mem_nil, or_false] at hop
  rcases hop with rfl | rfl | rfl | rfl | rfl | rfl | rfl | rfl | rfl | rfl | rfl | rfl | rfl | rfl | rfl | rfl
  case inr.inr.inr.inl => by_cases hb : b = 0 <;> simp [binop_number, integer_operation, hb]
  case inr.inr.inr.inr.inl => by_cases hb : b = 0 <;> simp [binop_number, integer_operation, hb]
  all_goals rfl

theorem integer_method_int (hop : op ∈ integer_operators) :
    integer_method fpu env a op (.int b) site =
      integer_operation fpu (· % ·) env op a b site >>= fun v => return some v := by
  simp only [integer_operators, List.mem_cons, List.not_mem_nil, or_false] at hop
  rcases hop with rfl | rfl | rfl | rfl | rfl | rfl | rfl | rfl | rfl | rfl | rfl | rfl | rfl | rfl | rfl | rfl
  case inr.inr.inr.inl => by_cases hb : b = 0 <;> simp [integer_method, integer_operation, hb]
  case inr.inr.inr.inr.inl => by_cases hb : b = 0 <;> simp [integer_method, integer_operation, hb]
  all_goals rfl

theorem integer_operation_congr (rem : Int64 → Int64 → Int64) (h : op = "%" → b ≠ 0 → floor_remainder a b = rem a b) :
    integer_operation fpu floor_remainder env op a b site = integer_operation fpu rem env op a b site := by
  unfold integer_operation
  by_cases hop : op = "%"
  · subst hop
    by_cases hb : b = 0
    · simp [hb]
    · simp [hb, h rfl hb]
  · split <;> first | rfl | exact absurd rfl hop

section
variable (rest : Builtins) (depth : Nat) (s : State)

/-- The expression does what the operation on two integers does. -/
theorem apply_binop_int (span : Span) (left_node : Node) (hop : op ∈ integer_operators) :
    (apply_binop env span op left_node (.int a) (.int b)).run ((fpu.builtins rest).machine (depth + 1)) s =
      (integer_operation fpu floor_remainder env op a b (some span)).run ((fpu.builtins rest).machine depth) s := by
  have hplain : op ≠ "==" ∧ op ≠ "!=" := by
    constructor <;> rintro rfl <;> exact absurd hop (by decide)
  have hexpand : apply_binop env span op left_node (.int a) (.int b) = get >>= fun _ =>
      arithmetic env op (.int a) (.int b) (some span) >>= fun out =>
        match out with
        | some result => return result
        | none => send_operator env span op left_node (.int a) (.int b) := by
    unfold apply_binop
    simp only [hplain, decide_false, Bool.or_self, is_rational_operand, Bool.false_eq_true, ↓reduceIte]
    all_goals rfl
  have harith : (arithmetic env op (.int a) (.int b) (some span)).run ((fpu.builtins rest).machine (depth + 1)) s =
      ((integer_operation fpu floor_remainder env op a b (some span)).run ((fpu.builtins rest).machine depth) s).map
        fun out => (some out.1, out.2) := by
    refine (run_builtin_value _ depth (.arithmetic env op (.int a) (.int b) (some span)) id s).trans ?_
    exact run_some_answer (binop_number_int fpu env a b (some span) hop)
  rw [hexpand, run_bind_some (run_get _ s), run_bind, harith]
  cases (integer_operation fpu floor_remainder env op a b (some span)).run ((fpu.builtins rest).machine depth) s with
  | none => rfl
  | some out => rfl

/-- So does the method, with the remainder of C. -/
theorem dispatch_integer_int (hop : op ∈ integer_operators) :
    (dispatch_builtin .primitive { env, recv := .int a, name := op, args := [.int b], site }).run
        ((fpu.builtins rest).machine (depth + 1)) s =
      ((integer_operation fpu (· % ·) env op a b site).run ((fpu.builtins rest).machine depth) s).map
        fun out => (some out.1, out.2) := by
  have hbody : fpu.builtins rest (.dispatch .primitive { env, recv := .int a, name := op, args := [.int b], site }) =
      dispatch_integer fpu env a op (.int b) site := by
    unfold Fpu.builtins
    exact if_pos (List.contains_iff_mem.mpr hop)
  have hcoerce : ∀ class_name args t, (coerce_integer env op class_name args (.int b) site).run
      ((fpu.builtins rest).machine depth) t = some (none, t) := by
    intro class_name args t
    unfold coerce_integer
    rw [run_bind_some (run_get _ t)]
    simp
  have hdispatch : (dispatch_integer fpu env a op (.int b) site).run ((fpu.builtins rest).machine depth) s =
      (integer_method fpu env a op (.int b) site).run ((fpu.builtins rest).machine depth) s := by
    unfold dispatch_integer
    rw [run_bind_some (hcoerce _ _ _)]
    simp only
    rw [run_bind_some (hcoerce _ _ _)]
  refine (run_builtin_value _ depth (.dispatch .primitive { env, recv := .int a, name := op, args := [.int b], site })
    id s).trans ?_
  rw [hbody]
  refine Eq.trans ?_ (run_some_answer (integer_method_int fpu env a b site hop))
  exact congrArg (Option.map _) hdispatch

end

end

/-- A remainder other than 0 has the sign of the dividend. -/
theorem remainder_neg_iff {a b : Int64} (h : a % b ≠ 0) : a % b < 0 ↔ a < 0 := by
  rw [Int64.lt_iff_toInt_lt, Int64.lt_iff_toInt_lt, Int64.toInt_mod, Int64.toInt_zero]
  have hsign := Int.sign_tmod a.toInt b.toInt
  have hdvd : ¬ b.toInt ∣ a.toInt := by
    intro hdvd
    refine h (Int64.toInt_inj.mp ?_)
    rw [Int64.toInt_mod, Int64.toInt_zero]
    exact Int.tmod_eq_zero_of_dvd hdvd
  rw [if_neg hdvd] at hsign
  rw [← Int.sign_eq_neg_one_iff_neg, hsign, Int.sign_eq_neg_one_iff_neg]

theorem floor_remainder_eq_iff {a b : Int64} (hb : b ≠ 0) :
    floor_remainder a b = a % b ↔ a % b = 0 ∨ (a < 0 ↔ b < 0) := by
  unfold floor_remainder
  by_cases hzero : a % b = 0
  · simp [hzero]
  · have hneg := remainder_neg_iff hzero
    by_cases hsame : a < 0 ↔ b < 0
    · simp [hsame, hneg]
    · have hadd : a % b + b ≠ a % b := by
        intro hadd
        exact hb (by simpa using hadd)
      simp only [hzero, hneg, ne_eq, not_false_eq_true, decide_eq_decide, hsame, and_self, if_true, or_self, iff_false]
      exact hadd

/-- A processor on which every operation fails. -/
def nan_fpu : Fpu :=
  let nan : Double := ⟨0x7ff8000000000000⟩
  { add _ _ := nan, sub _ _ := nan, mul _ _ := nan, div _ _ := nan, fmod _ _ := nan, pow _ _ := nan, to_int _ := 0 }

end stoned
