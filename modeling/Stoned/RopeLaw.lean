import Stoned.Parsing

namespace stoned.parser

open program

/-! What becomes of a string with an interpolated expression. -/

/-- A string literal. -/
def is_string : Node → Bool
  | .string .. => true
  | _ => false

/-- A rope with an expression in it. -/
def is_dynamic (rope : Option (RopeNode Node)) : Bool := rope.elim false fun rope => !rope_is_static rope

/-- An expression in a string stays, an operator makes no string literal, and
statements are added at the end. -/
def rope_spec (L : Type) : (c : ParserCall) → Parser L → c.Answer → Parser L → Prop
  | .interp_segments _ rope _, _, (rope', _), _ => is_dynamic rope = true → is_dynamic rope' = true
  | .interp_strings _ _ rope _, _, (rope', _), _ => is_dynamic rope = true → is_dynamic rope' = true
  | .parse_expr_continue left _, _, n, _ => n = left ∨ is_string n = false
  | .program_stmts stmts, _, stmts', _ => stmts <+: stmts'
  | _, _, _, _ => True

section
variable {L : Type} [TokenSource L]

theorem is_dynamic_append {rope : Option (RopeNode Node)} (h : is_dynamic rope = true) (part : RopeNode Node) :
    is_dynamic (some (rope_append rope part)) = true := by
  cases rope with
  | none => cases h
  | some rope =>
    simp only [is_dynamic, Option.elim, rope_append, rope_is_static, Bool.not_and, Bool.or_eq_true] at h ⊢
    exact .inl h

theorem is_dynamic_expr (rope : Option (RopeNode Node)) (n : Node) :
    is_dynamic (some (rope_append rope (.expr n))) = true := by
  cases rope with
  | none => rfl
  | some rope => simp [is_dynamic, rope_append, rope_is_static]

theorem assign_node_is_string (left right : Node) : is_string (assign_node left right) = false := by
  unfold assign_node
  split
  · split
    · rfl
    · split <;> rfl
  · rfl

/-- What is known of each operation and call of the parser. -/
abbrev rope_rules (L : Type) [TokenSource L] : Transformer (parser_ops.withCalls parser_calls) (Parser L) :=
  specTransformer (parser_machine L) (fun _ _ => True) (rope_spec L)

/-- No string literal is answered. -/
def NoString (m : Parse (Option Node)) : Prop :=
  ∀ p : Parser L, m.wp (rope_rules L) (fun answer _ => ∀ n, answer = some n → is_string n = false) p

theorem NoString.behind {α : Type} {m : Parse α} {f : α → Parse (Option Node)}
    (h : ∀ value, NoString (L := L) (f value)) : NoString (L := L) (m >>= f) :=
  Program.wp_behind h

theorem NoString.some {n : Node} (h : is_string n = false) : NoString (L := L) (return some n) := by
  rintro p _ ⟨⟩
  exact h

theorem NoString.none : NoString (L := L) (return .none) := fun _ _ h => nomatch h

theorem parse_index_no_string (left : Node) :
    NoString (L := L) (do return some (← parse_index left)) := by
  simp only [parse_index, bind_assoc, pure_bind]
  refine .behind fun _ => .behind fun _ => ?_
  exact .some rfl

theorem parse_method_call_no_string (left : Node) (op name_tok : Token) :
    NoString (L := L) (parse_method_call left op name_tok) := by
  refine .behind fun name => ?_
  cases name with
  | none => exact .none
  | some name => exact .behind fun _ => .behind fun _ => .behind fun _ => .some rfl

theorem parse_dot_no_string (left : Node) (op : Token) : NoString (L := L) (parse_dot left op) := by
  refine .behind fun name_tok => ?_
  split
  · refine .behind fun nxt => .behind fun after => ?_
    split
    · exact parse_method_call_no_string left op name_tok
    · cases left <;> exact .some rfl
  · exact parse_method_call_no_string left op name_tok

/-- An operator makes no string literal of its left operand. -/
theorem parse_infix_no_string (left : Node) (op : Token) : NoString (L := L) ( parse_infix left op) := by
  unfold parse_infix
  dsimp only
  split
  · simp only [parse_ternary, bind_assoc]
    exact .behind fun _ => .behind fun _ => .behind fun _ => .behind fun _ => .behind fun _ => .behind fun _ => .some rfl
  · exact parse_index_no_string left
  · simp only [parse_assign, bind_assoc]
    exact .behind fun _ => .behind fun _ => .behind fun _ => .some (assign_node_is_string ..)
  · exact parse_dot_no_string left op
  · exact parse_dot_no_string left op
  · exact parse_dot_no_string left op
  · simp only [parse_range, bind_assoc]
    exact .behind fun _ => .some rfl
  · simp only [parse_range, bind_assoc]
    exact .behind fun _ => .some rfl
  · split
    · simp only [parse_op_assign, bind_assoc]
      exact .behind fun _ => .behind fun _ => .some rfl
    · simp only [parse_binop, bind_assoc]
      exact .behind fun _ => .behind fun _ => .some rfl

theorem parse_expr_continue_body_meets (left : Node) (min_bp : Nat) (p : Parser L) :
    (parse_expr_continue_body left min_bp).wp (rope_rules L) (fun n _ => n = left ∨ is_string n = false) p := by
  have hmore (n : Node) (h : is_string n = false) (q : Parser L) :
      (parse_expr_continue n min_bp).wp (rope_rules L) (fun n _ => n = left ∨ is_string n = false) q := by
    intro answer _ hanswer
    rcases hanswer with heq | hanswer
    · exact .inr (heq ▸ h)
    · exact .inr hanswer
  refine Program.wp_behind (fun t p => ?_) p
  refine Program.wp_behind (fun m p => ?_) p
  refine Program.wp_ite (fun _ => .inl rfl) fun _ => ?_
  refine Program.wp_behind (fun op p => ?_) p
  refine Program.wp_ite (fun _ => ?_) fun _ => .inl rfl
  refine Program.wp_behind (fun _ p => ?_) p
  rw [wp_bind]
  refine Program.wp_mono specTransformer_monotone ?_ (parse_infix_no_string left op p)
  intro answer q hanswer
  cases answer with
  | none => exact .inl rfl
  | some n => exact hmore n (hanswer n rfl) q

theorem interp_segments_body_meets (is_regex : Bool) (rope : Option (RopeNode Node)) (regex_flags : Nat)
    (h : is_dynamic rope = true) (p : Parser L) :
    (interp_segments_body is_regex rope regex_flags).wp (rope_rules L) (fun r _ => is_dynamic r.1 = true) p := by
  have hmore (rope : Option (RopeNode Node)) (h : is_dynamic rope = true) (q : Parser L) :
      (call (.interp_segments is_regex rope regex_flags)).wp (rope_rules L) (fun r _ => is_dynamic r.1 = true) q :=
    fun _ _ hrest => hrest h
  refine Program.wp_behind (fun seg p => ?_) p
  refine Program.wp_ite (fun _ => ?_) fun _ => Program.wp_ite (fun _ => ?_) fun _ =>
    Program.wp_ite (fun _ => ?_) fun _ => ?_
  · refine Program.wp_behind (fun _ p => ?_) p
    exact h
  · refine Program.wp_behind (fun _ p => ?_) p
    exact hmore _ (is_dynamic_append h _) p
  · refine Program.wp_behind (fun _ p => ?_) p
    refine Program.wp_behind (fun empty p => ?_) p
    refine Program.wp_ite (fun _ => ?_) fun _ => ?_
    · refine Program.wp_behind (fun _ p => ?_) p
      exact hmore rope h p
    · refine Program.wp_behind (fun _ p => ?_) p
      refine Program.wp_behind (fun _ p => ?_) p
      exact hmore _ (is_dynamic_append h _) p
  · refine Program.wp_behind (fun _ p => ?_) p
    refine Program.wp_behind (fun _ p => ?_) p
    exact h

theorem interp_strings_body_meets (is_backtick is_regex : Bool) (rope : Option (RopeNode Node)) (regex_flags : Nat)
    (h : is_dynamic rope = true) (p : Parser L) :
    (interp_strings_body is_backtick is_regex rope regex_flags).wp (rope_rules L) (fun r _ => is_dynamic r.1 = true) p := by
  rw [interp_strings_body, wp_bind]
  rintro ⟨rope', flags⟩ p hrope
  refine Program.wp_ite (fun _ => hrope h) fun _ => Program.wp_behind (fun t p => ?_) p
  refine Program.wp_ite (fun _ => ?_) fun _ => Program.wp_ite (fun _ => ?_) fun _ => hrope h
  · refine Program.wp_behind (fun _ p => ?_) p
    exact fun _ _ hrest => hrest (hrope h)
  · refine Program.wp_behind (fun _ p => ?_) p
    exact is_dynamic_append (hrope h) _

theorem program_stmts_body_meets (stmts : List Node) (p : Parser L) :
    (program_stmts_body stmts).wp (rope_rules L) (fun r _ => stmts <+: r) p := by
  have hmore (more : List Node) (p : Parser L) :
      (call (.program_stmts (stmts ++ more))).wp (rope_rules L) (fun r _ => stmts <+: r) p :=
    fun _ _ hrest => (List.prefix_append stmts more).trans hrest
  have hsame (p : Parser L) : (call (.program_stmts stmts)).wp (rope_rules L) (fun r _ => stmts <+: r) p :=
    fun _ _ hrest => hrest
  refine Program.wp_behind (fun t p => ?_) p
  refine Program.wp_ite (fun _ => List.prefix_rfl) fun _ => Program.wp_ite (fun _ => ?_) fun _ => ?_
  · refine Program.wp_behind (fun _ p => ?_) p
    refine Program.wp_behind (fun _ p => ?_) p
    refine Program.wp_behind (fun _ p => ?_) p
    exact hsame p
  · refine Program.wp_behind (fun stmt p => ?_) p
    refine Program.wp_behind (fun panicking p => ?_) p
    refine Program.wp_ite (fun _ => ?_) fun _ => ?_
    · refine Program.wp_behind (fun _ p => ?_) p
      exact hsame p
    · refine Program.wp_behind (fun _ p => ?_) p
      exact hmore stmt.toList p

/-- Every call of the parser meets its specification. -/
theorem rope_spec_holds {num : Numerals} {c : ParserCall} {p p' : Parser L} {answer : c.Answer}
    (h : (call c).run (parsing num L) p = some (answer, p')) : rope_spec L c p answer p' := by
  have hlimit : (limit (body num) (parser_machine L) : Oracle parser_calls (Parser L)) c p = some (answer, p') :=
    (run_perform (S := parser_ops.withCalls parser_calls) (.inr c) p).symm.trans h
  refine limit_meets_spec (C := parser_calls) (fun c p => ?_) hlimit
  cases c
  case interp_segments is_regex rope regex_flags =>
    by_cases hrope : is_dynamic rope = true
    · exact Program.wp_mono specTransformer_monotone (fun _ _ h _ => h)
        (interp_segments_body_meets is_regex rope regex_flags hrope p)
    · exact Program.wp_of_forall (fun _ _ h => absurd h hrope) _ p
  case interp_strings is_backtick is_regex rope regex_flags =>
    by_cases hrope : is_dynamic rope = true
    · exact Program.wp_mono specTransformer_monotone (fun _ _ h _ => h)
        (interp_strings_body_meets is_backtick is_regex rope regex_flags hrope p)
    · exact Program.wp_of_forall (fun _ _ h => absurd h hrope) _ p
  case parse_expr_continue left min_bp => exact parse_expr_continue_body_meets left min_bp p
  case program_stmts stmts => exact program_stmts_body_meets stmts p
  all_goals exact Program.wp_of_forall (fun _ _ => trivial) _ p

end
end stoned.parser
