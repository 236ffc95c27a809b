import Mathlib.Data.List.Lex
import Stoned.IntegerOrder

namespace stoned

open program

/-! How strings compare: up to the first NUL, but for `==` (eval_dispatch.c,
eval_binop; value.h, val_equal). -/

/-- The operators of two strings. -/
def binop_string (env : Env) (op : String) (left right : Value) (a b : String) (site : Option Span) :
    P (Option Value) := do
  let r := strcmp a.toList b.toList
  match op with
  | "<=>" => return some (.int (if r < 0 then -1 else if 0 < r then 1 else 0))
  | "<" => return some (.bool (r < 0))
  | "<=" => return some (.bool (r ≤ 0))
  | ">" => return some (.bool (0 < r))
  | ">=" => return some (.bool (0 ≤ r))
  | "*" => return some (← dispatch_method { env, recv := left, name := "*", args := [right], site })
  | _ => return none

/-- Built-ins with the operators of strings written out. -/
def operator_builtins (rest : Builtins) : Builtins
  | .arithmetic env op (.string a frozen encoding) (.string b frozen' encoding') site =>
    binop_string env op (.string a frozen encoding) (.string b frozen' encoding') a b site
  | b => equality_builtins rest b

/-! ### The order of C strings -/

/-- The characters of a C string as numbers, whose order is that of the bytes. -/
def c_codes (s : List Char) : List Nat := (s.takeWhile (· ≠ '\x00')).map Char.toNat

section bytes
variable {a b : Char} {s t u : List Char}

theorem c_codes_nul (s : List Char) : c_codes ('\x00' :: s) = [] := rfl

theorem c_codes_cons (h : a ≠ '\x00') (s : List Char) : c_codes (a :: s) = a.toNat :: c_codes s := by
  rw [c_codes, List.takeWhile_cons_of_pos (by simpa using h), List.map_cons]
  rfl

theorem toNat_pos (h : a ≠ '\x00') : 0 < a.toNat := by
  rw [Nat.pos_iff_ne_zero]
  intro hzero
  exact h (Char.toNat_inj.mp hzero)

/-- A C string ends at a NUL as it does at its end. -/
theorem strcmp_ends (s t : List Char) : strcmp ('\x00' :: s) t = strcmp [] t ∧ strcmp t ('\x00' :: s) = strcmp t [] := by
  cases t with
  | nil => exact ⟨rfl, rfl⟩
  | cons b t =>
    have hleft : ¬ ('\x00' = b ∧ '\x00' ≠ '\x00') := fun h => h.2 rfl
    have hright : ¬ (b = '\x00' ∧ b ≠ '\x00') := fun h => h.2 h.1
    rw [strcmp, strcmp, strcmp, strcmp, if_neg hleft, if_neg hright]
    constructor <;> simp

theorem strcmp_swap (s t : List Char) : strcmp t s = -strcmp s t := by
  induction s generalizing t with
  | nil => cases t <;> simp [strcmp]
  | cons a s ih =>
    cases t with
    | nil => simp [strcmp]
    | cons b t =>
      rw [strcmp, strcmp]
      by_cases hsame : a = b ∧ a ≠ '\x00'
      · rw [if_pos hsame, if_pos ⟨hsame.1.symm, hsame.1 ▸ hsame.2⟩, ih]
      · have hswap : ¬ (b = a ∧ b ≠ '\x00') := fun h => hsame ⟨h.1.symm, h.1 ▸ h.2⟩
        rw [if_neg hsame, if_neg hswap]
        omega

/-- strcmp is the order of the bytes in front of the first NUL. -/
theorem strcmp_neg_iff (s t : List Char) : strcmp s t < 0 ↔ c_codes s < c_codes t := by
  induction s generalizing t with
  | nil =>
    cases t with
    | nil => simp [strcmp, c_codes]
    | cons b t =>
      by_cases hb : b = '\x00'
      · subst hb
        simp [strcmp, c_codes]
      · have hpos := toNat_pos hb
        rw [c_codes_cons hb, strcmp]
        exact iff_of_true (by omega) (List.nil_lt_cons _ _)
  | cons a s ih =>
    by_cases ha : a = '\x00'
    · subst ha
      rw [(strcmp_ends s t).1, c_codes_nul]
      cases t with
      | nil => simp [strcmp, c_codes]
      | cons b t =>
        by_cases hb : b = '\x00'
        · subst hb
          simp [strcmp, c_codes]
        · have hpos := toNat_pos hb
          rw [c_codes_cons hb, strcmp]
          exact iff_of_true (by omega) (List.nil_lt_cons _ _)
    · have hpos := toNat_pos ha
      rw [c_codes_cons ha]
      cases t with
      | nil =>
        rw [strcmp]
        exact iff_of_false (by omega) (List.not_lt_nil _)
      | cons b t =>
        by_cases hb : b = '\x00'
        · subst hb
          rw [(strcmp_ends t (a :: s)).2, strcmp, c_codes_nul]
          exact iff_of_false (by omega) (List.not_lt_nil _)
        · rw [c_codes_cons hb, strcmp, List.cons_lt_cons_iff]
          by_cases hab : a = b
          · subst hab
            rw [if_pos ⟨rfl, ha⟩, ih]
            simp
          · have hne : a.toNat ≠ b.toNat := fun h => hab (Char.toNat_inj.mp h)
            rw [if_neg fun h => hab h.1]
            simp only [hne, false_and, or_false]
            omega

theorem strcmp_nonpos_iff (s t : List Char) : strcmp s t ≤ 0 ↔ c_codes s ≤ c_codes t := by
  have hswap := strcmp_swap s t
  have hless := strcmp_neg_iff t s
  rw [← not_lt (a := c_codes t), ← hless]
  omega

theorem strcmp_eq_zero_iff (s t : List Char) : strcmp s t = 0 ↔ c_codes s = c_codes t := by
  have hswap := strcmp_swap s t
  have hle := strcmp_nonpos_iff s t
  have hge := strcmp_nonpos_iff t s
  rw [le_antisymm_iff (a := c_codes s), ← hle, ← hge]
  omega

theorem c_codes_inj : c_codes s = c_codes t ↔ s.takeWhile (· ≠ '\x00') = t.takeWhile (· ≠ '\x00') := by
  refine List.map_inj_right ?_
  exact fun _ _ h => Char.toNat_inj.mp h

end bytes

/-! ### The operators -/

/-- An operator on strings comes to the same value in every state and changes
none, whether they are frozen or not and in every encoding. -/
def OnStrings (builtins : Builtins) (op : String) (a b : String) (v : Value) : Prop :=
  ∀ env span left_node frozen encoding frozen' encoding' depth s,
    (apply_binop env span op left_node (.string a frozen encoding) (.string b frozen' encoding')).run
      (builtins.machine (depth + 3)) s = some (v, s)

/-- What eval_binop makes of the comparison operators. -/
structure Comparison.OfStrings (builtins : Builtins) (a b : String) (c : Comparison) : Prop where
  less : OnStrings builtins "<" a b (.bool c.less)
  equal : OnStrings builtins "==" a b (.bool c.equal)
  greater : OnStrings builtins ">" a b (.bool c.greater)
  at_most : OnStrings builtins "<=" a b (.bool c.at_most)
  at_least : OnStrings builtins ">=" a b (.bool c.at_least)
  order : OnStrings builtins "<=>" a b (.int c.order)

/-- `<=>` is 0 for equal strings only, orders the two and what lies beyond, and
the other operators agree with it. -/
structure Orders (compared : String → String → Comparison) (a b : String) : Prop where
  equal : (compared a b).order = 0 ↔ (compared a b).equal = true
  antisymm : (compared a b).order ≤ 0 → (compared b a).order ≤ 0 → (compared a b).equal = true
  total : (compared a b).order ≤ 0 ∨ (compared b a).order ≤ 0
  trans : ∀ c, (compared a b).order ≤ 0 → (compared b c).order ≤ 0 → (compared a c).order ≤ 0
  less : (compared a b).less = true ↔ (compared a b).order < 0
  at_most : (compared a b).at_most = true ↔ (compared a b).order ≤ 0
  greater : (compared a b).greater = true ↔ 0 < (compared a b).order
  at_least : (compared a b).at_least = true ↔ 0 ≤ (compared a b).order

/-- The comparison of two strings as C strings. -/
def string_comparison (a b : String) : Comparison where
  less := strcmp a.toList b.toList < 0
  equal := a = b
  greater := 0 < strcmp a.toList b.toList
  at_most := strcmp a.toList b.toList ≤ 0
  at_least := 0 ≤ strcmp a.toList b.toList
  order := if strcmp a.toList b.toList < 0 then -1 else if 0 < strcmp a.toList b.toList then 1 else 0

/-- Different strings that are the same up to their first NUL. -/
def DifferBehindNul (a b : String) : Prop := a ≠ b ∧ c_string a = c_string b

section operators
variable (rest : Builtins) (a b : String)

/-- Strings are ordered by the arithmetic built-in, where it takes the operator. -/
theorem apply_binop_strings {op : String} (hop : op = "<" ∨ op = ">" ∨ op = "<=" ∨ op = ">=" ∨ op = "<=>") (env : Env)
    (span : Span) (left_node : Node) (frozen frozen' : Bool) (encoding encoding' : StringEncodingTag) :
    apply_binop env span op left_node (.string a frozen encoding) (.string b frozen' encoding') = get >>= fun _ =>
      arithmetic env op (.string a frozen encoding) (.string b frozen' encoding') (some span) >>= fun out =>
        match out with
        | some result => return result
        | none => send_operator env span op left_node (.string a frozen encoding) (.string b frozen' encoding') := by
  rcases hop with rfl | rfl | rfl | rfl | rfl <;> rfl

theorem on_strings_of_binop {op : String} {v : Value}
    (hop : op = "<" ∨ op = ">" ∨ op = "<=" ∨ op = ">=" ∨ op = "<=>")
    (h : ∀ env left right site, binop_string env op left right a b site = return some v) :
    OnStrings (operator_builtins rest) op a b v := by
  intro env span left_node frozen encoding frozen' encoding' depth s
  let left := Value.string a frozen encoding
  let right := Value.string b frozen' encoding'
  have harith : (arithmetic env op left right (some span)).run ((operator_builtins rest).machine (depth + 3)) s =
      some (some v, s) := by
    refine (run_builtin_value _ (depth + 2) (.arithmetic env op left right (some span)) id s).trans ?_
    have hbody : operator_builtins rest (.arithmetic env op left right (some span)) = return some v :=
      h env left right (some span)
    rw [hbody]
    rfl
  rw [apply_binop_strings a b hop, run_bind_some (run_get _ s), run_bind_some harith]
  rfl

theorem on_strings_equal : OnStrings (operator_builtins rest) "==" a b (.bool (a = b)) := by
  intro env span left_node frozen encoding frozen' encoding' depth s
  let send : Send :=
    { env, recv := .string a frozen encoding, name := "==", args := [.string b frozen' encoding'], site := some span }
  have hequal : (val_equal send.recv (.string b frozen' encoding')).run ((operator_builtins rest).machine (depth + 1)) s =
      some (decide (a = b), s) := run_call (operator_builtins rest) depth (.val_equal _ _) s
  exact run_equal_method span left_node rfl rfl rfl rfl hequal

theorem string_comparison_of : (string_comparison a b).OfStrings (operator_builtins rest) a b where
  less := on_strings_of_binop rest a b (by simp) fun _ _ _ _ => rfl
  equal := on_strings_equal rest a b
  greater := on_strings_of_binop rest a b (by simp) fun _ _ _ _ => rfl
  at_most := on_strings_of_binop rest a b (by simp) fun _ _ _ _ => rfl
  at_least := on_strings_of_binop rest a b (by simp) fun _ _ _ _ => rfl
  order := on_strings_of_binop rest a b (by simp) fun _ _ _ _ => rfl

end operators

theorem OnStrings.unique {builtins : Builtins} {op a b : String} {v w : Value} (hv : OnStrings builtins op a b v)
    (hw : OnStrings builtins op a b w) : v = w := by
  have h := (hv 0 no_span (.nil no_span) false .utf8 false .utf8 0 bare_state).symm.trans
    (hw 0 no_span (.nil no_span) false .utf8 false .utf8 0 bare_state)
  exact congrArg Prod.fst (Option.some.inj h)

/-- The operators come to one comparison only. -/
theorem Comparison.OfStrings.unique {builtins : Builtins} {a b : String} {c d : Comparison}
    (hc : c.OfStrings builtins a b) (hd : d.OfStrings builtins a b) : c = d := by
  have hless := Value.bool.inj (hc.less.unique hd.less)
  have hequal := Value.bool.inj (hc.equal.unique hd.equal)
  have hgreater := Value.bool.inj (hc.greater.unique hd.greater)
  have hat_most := Value.bool.inj (hc.at_most.unique hd.at_most)
  have hat_least := Value.bool.inj (hc.at_least.unique hd.at_least)
  have horder := Value.int.inj (hc.order.unique hd.order)
  cases c
  cases d
  simp_all

section order
variable (a b : String)

/-- What `<=>` says, as the order of the C strings. -/
theorem string_order_spec :
    ((string_comparison a b).order = 0 ↔ c_codes a.toList = c_codes b.toList) ∧
      ((string_comparison a b).order ≤ 0 ↔ c_codes a.toList ≤ c_codes b.toList) ∧
      ((string_comparison a b).order < 0 ↔ strcmp a.toList b.toList < 0) ∧
      (0 < (string_comparison a b).order ↔ 0 < strcmp a.toList b.toList) ∧
      (0 ≤ (string_comparison a b).order ↔ 0 ≤ strcmp a.toList b.toList) := by
  rw [← strcmp_eq_zero_iff, ← strcmp_nonpos_iff]
  simp only [string_comparison]
  generalize strcmp a.toList b.toList = r
  rcases lt_trichotomy r 0 with hneg | rfl | hpos
  · rw [if_pos hneg]
    exact ⟨iff_of_false (by decide) (by omega), iff_of_true (by decide) (by omega), iff_of_true (by decide) hneg,
      iff_of_false (by decide) (by omega), iff_of_false (by decide) (by omega)⟩
  · decide
  · rw [if_neg (by omega), if_pos hpos]
    exact ⟨iff_of_false (by decide) (by omega), iff_of_false (by decide) (by omega), iff_of_false (by decide) (by omega),
      iff_of_true (by decide) hpos, iff_of_true (by decide) (by omega)⟩

theorem c_string_inj {a b : String} : c_string a = c_string b ↔ c_codes a.toList = c_codes b.toList := by
  rw [c_codes_inj]
  exact ⟨fun h => String.ofList_injective h, fun h => congrArg String.ofList h⟩

theorem orders_of_not_hidden (h : ¬ DifferBehindNul a b) : Orders string_comparison a b := by
  obtain ⟨hzero, hnonpos, hneg, hpos, hnonneg⟩ := string_order_spec a b
  have hequal : (string_comparison a b).equal = true ↔ c_codes a.toList = c_codes b.toList := by
    rw [← c_string_inj]
    refine decide_eq_true_iff.trans ⟨fun heq => congrArg c_string heq, fun hsame => ?_⟩
    by_contra hdiff
    exact h ⟨hdiff, hsame⟩
  have hback := (string_order_spec b a).2.1
  constructor
  · exact hzero.trans hequal.symm
  · intro hle hge
    exact hequal.mpr (le_antisymm (hnonpos.mp hle) (hback.mp hge))
  · rw [hnonpos, hback]
    exact le_total _ _
  · intro c hab hbc
    exact (string_order_spec a c).2.1.mpr ((hnonpos.mp hab).trans ((string_order_spec b c).2.1.mp hbc))
  · exact decide_eq_true_iff.trans hneg.symm
  · exact decide_eq_true_iff.trans (hnonpos.trans (strcmp_nonpos_iff _ _).symm).symm
  · exact decide_eq_true_iff.trans hpos.symm
  · exact decide_eq_true_iff.trans hnonneg.symm

/-- Strings that differ behind a NUL are in no order, though they are not equal. -/
theorem not_orders_of_hidden {a b : String} (h : DifferBehindNul a b) : ¬ Orders string_comparison a b := by
  intro horders
  have hzero := (string_order_spec a b).1.mpr (c_string_inj.mp h.2)
  exact h.1 (decide_eq_true_iff.mp (horders.equal.mp hzero))

theorem compared_unique {rest : Builtins} {compared : String → String → Comparison}
    (hof : ∀ x y, (compared x y).OfStrings (operator_builtins rest) x y) : compared = string_comparison := by
  funext x y
  exact (hof x y).unique (string_comparison_of rest x y)

end order

/-- The operators order two strings consistently with `==` exactly when these do
not differ behind a NUL only. -/
theorem string_order_iff (rest : Builtins) (a b : String) :
    (∃ compared : String → String → Comparison,
      (∀ x y, (compared x y).OfStrings (operator_builtins rest) x y) ∧ Orders compared a b) ↔ ¬ DifferBehindNul a b := by
  constructor
  · rintro ⟨compared, hof, horders⟩ hhidden
    rw [compared_unique hof] at horders
    exact not_orders_of_hidden hhidden horders
  · intro h
    exact ⟨string_comparison, string_comparison_of rest, orders_of_not_hidden a b h⟩

/-- "a\0b" <=> "a\0c" is 0. -/
theorem not_ordered_behind_nul :
    ¬ ∃ compared : String → String → Comparison,
      (∀ x y, (compared x y).OfStrings (operator_builtins no_builtins) x y) ∧ ∀ a b, Orders compared a b := by
  rintro ⟨compared, hof, horders⟩
  rw [compared_unique hof] at horders
  have hhidden : DifferBehindNul "a\x00b" "a\x00c" := ⟨by decide, by decide +kernel⟩
  exact not_orders_of_hidden hhidden (horders _ _)

end stoned
