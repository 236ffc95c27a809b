import Stoned.Returning

namespace stoned.parser

open program

/-! What each function of the parser does before it takes a token. -/

section
variable {L : Type} [TokenSource L] [Ending L] {α : Type} {r : Nat} {kind : TokenKind}

theorem returns_parse_expr (hr : 2 < r) (min_bp : Nat) : Returns L r (parse_expr min_bp) := returns_call fun _ => hr

theorem returns_parse_pattern (hr : 3 < r) : Returns L r parse_pattern := returns_call fun _ => hr

theorem returns_skip_terminators (hr : 0 < r) : Returns L r skip_terminators := returns_call fun _ => hr

theorem returns_advance : Returns L r advance := returns_op .advance

theorem returns_error (message : String) (t : Token) : Returns L r (error message t) :=
  returns_op (.error message t.line t.col)

theorem returns_modify_mode (f : ParserMode → ParserMode) : Returns L r (modify_mode f) :=
  (returns_op .mode).bind fun m => returns_op (.set_mode (f m))

theorem returns_accept_only (kind : TokenKind) : Returns L r (accept kind) := by
  unfold accept
  refine Returns.bind ((returns_op .peek).bind fun t => returns_pure _) fun found => ?_
  split
  · exact returns_advance.bind fun _ => returns_pure true
  · exact returns_pure false

theorem returns_expect (kind : TokenKind) (message : String) : Returns L r (expect kind message) := by
  unfold expect
  refine Returns.bind (returns_op .peek) fun t => ?_
  split
  · exact returns_advance.bind fun _ => returns_pure ()
  · exact returns_error message t

theorem returns_with_mode {parse : Parse α} (h : Returns L r parse) (change restore : ParserMode → ParserMode) :
    Returns L r (with_mode change restore parse) :=
  (returns_modify_mode change).bind fun _ => h.bind fun value =>
    (returns_modify_mode restore).bind fun _ => returns_pure value

theorem returns_in_command_arg {parse : Parse α} (h : Returns L r parse) : Returns L r (in_command_arg parse) :=
  returns_with_mode h _ _

/-! Arguments. -/

theorem takes_parse_block (hkind : kind ≠ .eof) : Takes L kind r parse_block :=
  takes_advance hkind (inferInstanceAs parse_block.Whole)

theorem returns_attach_pending_do_block (arg : Option Node) (min_bp : Nat) :
    Returns L r (attach_pending_do_block arg min_bp) := by
  unfold attach_pending_do_block
  cases arg with
  | none => exact returns_pure none
  | some arg =>
    refine returns_check ?_ (returns_pure (some arg))
    simp only [if_true]
    split
    · exact ((takes_parse_block (by decide)).then inferInstance).at
    · exact (returns_pure _).at

theorem returns_parse_command_hash (hr : 2 < r) (key : Node) : Returns L r (parse_command_hash key) :=
  (returns_expect _ _).bind fun _ => (returns_parse_expr hr 0).bind fun _ => returns_pure _

theorem returns_parse_arrow_hash (hr : 3 < r) (first_key : Node) : Returns L r (parse_arrow_hash first_key) := by
  refine Returns.bind ?_ fun pairs => returns_pure _
  exact returns_call fun _ => hr

theorem returns_parse_arg_expr (hr : 3 < r) : Returns L r parse_arg_expr := by
  have hexpr : Returns L r (in_command_arg (parse_expr 0)) :=
    returns_in_command_arg (returns_parse_expr (by omega) 0)
  unfold parse_arg_expr
  refine returns_peek fun t => ?_
  split
  case isTrue hstar => exact (takes_advance (hstar.trans_ne (by decide)) inferInstance).at
  case isFalse =>
    refine (hexpr.bind fun arg => ?_).at
    cases arg with
    | none => exact returns_pure none
    | some arg =>
      refine Returns.bind (returns_op .peek) fun nxt => ?_
      split
      · exact (returns_parse_command_hash (by omega) _).bind fun _ => returns_pure _
      · exact (returns_parse_arrow_hash hr _).bind fun _ => returns_pure _
      · exact returns_pure _

theorem returns_parse_splat_arg (hr : 2 < r) (s : Span) : Returns L r (parse_splat_arg s) :=
  returns_advance.bind fun _ => (returns_parse_expr hr 0).bind fun operand =>
    (returns_attach_pending_do_block operand 0).bind fun _ => returns_pure _

theorem returns_parse_block_pass (hr : 2 < r) (s : Span) : Returns L r (parse_block_pass s) :=
  returns_advance.bind fun _ => (returns_parse_expr hr 0).bind fun _ => returns_pure _

theorem returns_parse_command_arg (hr : 3 < r) (t : Token) : Returns L r (parse_command_arg t) := by
  unfold parse_command_arg
  split
  · exact (returns_parse_splat_arg (by omega) _).bind fun _ => returns_pure _
  · exact (returns_parse_arg_expr hr).bind fun _ => returns_pure _

theorem returns_parse_paren_arg (hr : 3 < r) (t : Token) : Returns L r (parse_paren_arg t) := by
  unfold parse_paren_arg
  split
  · exact (returns_parse_splat_arg (by omega) _).bind fun _ => returns_pure _
  · refine (returns_parse_arg_expr hr).bind fun arg => ?_
    exact (returns_attach_pending_do_block arg 0).bind fun _ => returns_pure _

theorem returns_behind_comma (hr : 0 < r) (last : α) (next : Parse α) [next.Whole] :
    Returns L r (behind_comma last next) :=
  (returns_skip_terminators hr).bind fun _ => returns_accept (by decide) (returns_pure last)

/-! Pairs. -/

theorem returns_parse_pair (hr : 2 < r) (ps : Span) (key : Option Node) (pairs : List Node) :
    Returns L r (parse_pair ps key pairs) := by
  refine (returns_parse_expr hr 0).bind fun val => ?_
  cases val with
  | none => exact returns_pure pairs
  | some val => exact returns_behind_comma (by omega) _ _

theorem returns_parse_hash_key (hr : 2 < r) : Returns L r parse_hash_key := by
  unfold parse_hash_key
  refine returns_peek fun t => ?_
  refine (Returns.bind (returns_op .mode) fun m => ?_).at
  split
  · refine returns_advance.bind fun _ => returns_accept (by decide) ?_
    exact (returns_error _ _).bind fun _ => returns_pure _
  · exact (returns_parse_expr hr 0).bind fun _ => returns_pure _

/-! Parameters and patterns. -/

theorem returns_parse_named_param (s : Span) (name : Option String) (allow_default : Bool) :
    Returns L r (parse_named_param s name allow_default) := by
  unfold parse_named_param
  refine returns_check (takes_advance (by decide) inferInstance).at ?_
  simp only [Bool.false_eq_true, if_false]
  split
  · exact returns_accept (by decide) (returns_pure _)
  · exact returns_pure _

theorem returns_parse_rest_name : Returns L r parse_rest_name := by
  unfold parse_rest_name
  refine returns_check (takes_advance (by decide) inferInstance).at ?_
  exact returns_pure none

theorem returns_parse_key_pattern (hr : 3 < r) (key_tok : Token) (key_name : String) :
    Returns L r (parse_key_pattern key_tok key_name) := by
  unfold parse_key_pattern
  refine returns_check_any fun kind => Returns.at ?_
  split
  · exact (returns_op (.mark_local key_name)).bind fun _ => returns_pure _
  · exact (returns_parse_pattern hr).bind fun _ => returns_pure _

theorem returns_parse_capture (s : Span) (pat : Node) : Returns L r (parse_capture s pat) :=
  returns_accept (by decide) (returns_pure pat)

/-! Statements. -/

theorem returns_parse_expr_list (hr : 0 < r) (first : Option Node) (elem_min_bp : Nat) (assignment_target : Bool) :
    Returns L r (parse_expr_list first elem_min_bp assignment_target) := by
  cases first with
  | none => exact returns_pure none
  | some first =>
    refine returns_check (Returns.at ?_) (returns_pure _)
    exact (returns_call (c := .expr_list elem_min_bp assignment_target [first]) fun _ => hr).bind fun _ =>
      returns_pure _

theorem returns_parse_target_list (hr : 0 < r) (first : Option Node) : Returns L r (parse_target_list first) := by
  refine returns_check (Returns.at ?_) (returns_pure first)
  exact returns_parse_expr_list hr first 7 true

theorem returns_parse_stmt_expr (hr : 3 < r) (s : Span) (t : Token) : Returns L r (parse_stmt_expr s t) := by
  unfold parse_stmt_expr
  split
  · refine (returns_call (c := .parse_assignment_target_elem) fun _ => hr).bind fun first => ?_
    refine (returns_parse_target_list (by omega) first).bind fun lhs => returns_accept (by decide) ?_
    exact (returns_op .peek).bind fun t => (returns_error _ t).bind fun _ => returns_pure _
  · refine (returns_parse_expr (by omega) 0).bind fun expr => ?_
    cases expr with
    | none => exact returns_pure _
    | some expr =>
      refine returns_check (Returns.at ?_) (returns_pure _)
      refine (returns_parse_expr_list (by omega) (some expr) 7 true).bind fun lhs => returns_accept (by decide) ?_
      refine Returns.bind (returns_op .mode) fun m => ?_
      split
      · exact returns_pure _
      · exact (returns_op .peek).bind fun t => (returns_error _ t).bind fun _ => returns_pure _

theorem returns_parse_modifier_cond (hr : 2 < r) : Returns L r parse_modifier_cond :=
  returns_advance.bind fun _ => (returns_skip_terminators (by omega)).bind fun _ =>
    (returns_parse_expr hr 0).bind fun _ => returns_pure _

theorem returns_parse_expr_stmt (hr : 3 < r) (s : Span) (t : Token) : Returns L r (parse_expr_stmt s t) := by
  have hcond : Returns L r parse_modifier_cond := returns_parse_modifier_cond (by omega)
  refine (returns_parse_stmt_expr hr s t).bind fun stmt => ?_
  cases stmt with
  | inl stmt => exact returns_pure stmt
  | inr expr =>
    refine Returns.bind (returns_accept (by decide) (returns_pure expr)) fun expr => ?_
    refine Returns.bind (returns_op .peek) fun nxt => ?_
    split
    all_goals first | exact hcond.bind fun _ => returns_pure _ | exact returns_pure _

/-! The bodies. -/

theorem returns_skip_terminators_body : Returns L r skip_terminators_body := by
  refine returns_check_any fun kind => ?_
  split
  case isTrue hkind =>
    have hne : kind ≠ .eof := by
      rintro rfl
      exact absurd hkind (by decide)
    exact (takes_advance hne inferInstance).at
  case isFalse => exact (returns_pure ()).at

theorem returns_sync_body : Returns L r sync_body := by
  refine Returns.bind (returns_op .calm) fun _ => returns_check_any fun kind => ?_
  split
  case isTrue => exact (returns_pure ()).at
  case isFalse hkind =>
    have hne : kind ≠ .eof := by
      rintro rfl
      exact hkind rfl
    exact (takes_advance hne inferInstance).at

theorem takes_parse_stmt (hkind : kind ≠ .eof) : Takes L kind 7 parse_stmt := by
  refine takes_call (c := .parse_stmt) rfl hkind ?_
  simp only [rank]
  split <;> decide

theorem returns_program_stmts_body (stmts : List Node) : Returns L 7 (program_stmts_body stmts) := by
  refine returns_peek fun t => ?_
  split
  case isTrue => exact (returns_pure stmts).at
  case isFalse hkind =>
    split
    · exact (takes_advance hkind inferInstance).at
    · exact ((takes_parse_stmt hkind).then inferInstance).at

/-- A turn of a loop over statements: it takes a token. -/
theorem takes_append_stmt (hkind : kind ≠ .eof) (stmts : List Node) (next : List Node → Parse α)
    [∀ stmts, (next stmts).Whole] : Takes L kind 7 (append_stmt stmts next) :=
  (takes_parse_stmt hkind).then (inferInstanceAs (append_stmt stmts next).Whole)

theorem returns_body_stmts_body (stop_at_rbrace : Bool) (stmts : List Node) :
    Returns L 7 (body_stmts_body stop_at_rbrace stmts) := by
  refine (returns_skip_terminators (by decide)).bind fun _ => returns_check_any fun kind => ?_
  split
  case isTrue => exact (returns_pure stmts).at
  case isFalse hkind =>
    have hne : kind ≠ .eof := by
      rintro rfl
      exact hkind rfl
    exact (takes_append_stmt hne stmts _).at

theorem returns_rparen_stmts_body (stmts : List Node) : Returns L 7 (rparen_stmts_body stmts) := by
  refine (returns_skip_terminators (by decide)).bind fun _ => returns_check_any fun kind => ?_
  split
  case isTrue => exact (returns_pure stmts).at
  case isFalse hkind =>
    have hne : kind ≠ .eof := by
      rintro rfl
      exact hkind rfl
    exact (takes_append_stmt hne stmts _).at

theorem takes_parse_stmt_expr (hkind : kind ≠ .eof) (hr : 3 < r) (s : Span) (t : Token) :
    Takes L kind r (parse_stmt_expr s t) := by
  have hwhole : (parse_stmt_expr s t).Whole := inferInstance
  unfold parse_stmt_expr at hwhole ⊢
  split at hwhole
  case isTrue hstar =>
    rw [if_pos hstar]
    exact (takes_call (c := .parse_assignment_target_elem) rfl hkind hr).then hwhole
  case isFalse hstar =>
    rw [if_neg hstar]
    have hlt : 2 < r := by omega
    exact (takes_call (c := .parse_expr 0) rfl hkind hlt).then hwhole

theorem takes_parse_expr_stmt (hkind : kind ≠ .eof) (hr : 3 < r) (s : Span) (t : Token) :
    Takes L kind r (parse_expr_stmt s t) :=
  (takes_parse_stmt_expr hkind hr s t).then (inferInstanceAs (parse_expr_stmt s t).Whole)

theorem takes_parse_hook (hkind : kind ≠ .eof) (s : Span) (t : Token) : Takes L kind r (parse_hook s t) :=
  takes_advance hkind (inferInstanceAs (parse_hook s t).Whole)

theorem takes_parse_stmt_body (hkind : kind ≠ .eof) : Takes L kind (rank kind .parse_stmt) parse_stmt_body := by
  refine takes_peek fun t ht => takes_op (o := .look 1) rfl fun nxt => ?_
  split
  case isTrue => exact (takes_parse_hook hkind _ t).then inferInstance
  case isFalse =>
    split
    case isTrue => exact takes_advance hkind inferInstance
    case isFalse hkeyword =>
      refine takes_parse_expr_stmt hkind ?_ _ t
      rw [ht] at hkeyword
      rw [rank, if_neg hkeyword]
      decide

theorem returns_parse_stmt_body : At L .eof 6 parse_stmt_body := by
  refine at_peek fun t ht => Returns.at ?_
  refine Returns.bind (returns_op (.look 1)) fun nxt => ?_
  simp only [ht]
  exact returns_parse_expr_stmt (by decide) _ t

theorem takes_parse_expr_body (hkind : kind ≠ .eof) (min_bp : Nat) : Takes L kind 2 (parse_expr_body min_bp) := by
  refine (takes_call (c := .parse_primary) rfl hkind Nat.one_lt_two).then ?_
  refine .seq (whole_call _) fun left => ?_
  split <;> infer_instance

theorem returns_parse_expr_body (min_bp : Nat) : Returns L 2 (parse_expr_body min_bp) := by
  refine Returns.bind (returns_call (c := .parse_primary) fun _ => Nat.one_lt_two) fun left => ?_
  cases left with
  | none => exact returns_pure none
  | some left =>
    exact (returns_call (c := .parse_expr_continue left min_bp) fun _ => Nat.two_pos).bind fun _ => returns_pure _

/-- The token an operator was taken for still comes next. -/
theorem at_next_operator {f : Token → Parse α} [∀ op, (f op).Whole] (h : ∀ op, At L op.kind r (f op)) :
    Returns L r (next_operator >>= f) := by
  unfold next_operator
  rw [bind_assoc]
  refine returns_peek fun op => ?_
  split
  case isTrue hline =>
    have hne : op.kind ≠ .eof := hline.trans_ne (by decide)
    rw [bind_assoc]
    refine at_op (o := .look 1) rfl fun nxt => ?_
    split
    · rw [bind_assoc]
      exact (takes_advance hne inferInstance).at
    · exact h op
  case isFalse => exact h op

theorem whole_infix (left : Node) (min_bp : Nat) (op : Token) : Program.Whole (do
    let _ ← advance
    match ← parse_infix left op with
    | some left => parse_expr_continue left min_bp
    | none => return left) := by
  refine .seq inferInstance fun _ => .seq inferInstance fun next => ?_
  split <;> infer_instance

theorem returns_parse_expr_continue_body (left : Node) (min_bp : Nat) :
    Returns L r (parse_expr_continue_body left min_bp) := by
  refine Returns.bind (returns_op .peek) fun t => ?_
  refine Returns.bind (returns_op .mode) fun m => ?_
  split
  case isTrue => exact returns_pure left
  case isFalse =>
    have hwhole := whole_infix left min_bp
    refine at_next_operator fun op => ?_
    split
    case isTrue htakes =>
      have hne : op.kind ≠ .eof := by
        intro heof
        rw [heof] at htakes
        have hrefused : takes .eof min_bp = false := rfl
        rw [hrefused] at htakes
        cases htakes
      exact (takes_advance hne (hwhole op)).at
    case isFalse => exact (returns_pure left).at

theorem takes_parse_primary_body (num : Numerals) (hkind : kind ≠ .eof) : Takes L kind 1 (parse_primary_body num) := by
  refine takes_peek fun t ht => ?_
  split
  case isTrue => exact takes_advance hkind inferInstance
  case isFalse =>
    split
    case isTrue hstmt =>
      refine takes_call (c := .parse_stmt) rfl hkind ?_
      have hkeyword : begins_keyword_stmt kind = true := by
        rw [ht] at hstmt
        cases kind <;> first | rfl | cases hstmt
      rw [rank, if_pos hkeyword]
      exact Nat.one_pos
    case isFalse =>
      split
      · exact takes_advance hkind inferInstance
      · exact takes_op (o := .error _ _ _) rfl fun _ => takes_advance hkind inferInstance

theorem returns_parse_primary_body (num : Numerals) : At L .eof 1 (parse_primary_body num) := by
  refine at_peek fun t ht => Returns.at ?_
  simp only [ht]
  exact (returns_error _ t).bind fun _ => returns_advance.bind fun _ => returns_pure none

theorem takes_parse_assignment_target_elem_body (hkind : kind ≠ .eof) :
    Takes L kind 3 parse_assignment_target_elem_body := by
  refine takes_peek fun t ht => ?_
  split
  · exact takes_advance hkind inferInstance
  · exact takes_advance hkind inferInstance
  · exact takes_call (c := .parse_expr 7) rfl hkind (Nat.lt_succ_self 2)

theorem returns_parse_assignment_target_elem_body : At L .eof 3 parse_assignment_target_elem_body := by
  refine at_peek fun t ht => Returns.at ?_
  simp only [ht]
  exact returns_parse_expr (by decide) 7

/-! Loops that go on behind a comma or a keyword. -/

theorem returns_jump_values_body (values : List Node) : Returns L r (jump_values_body values) :=
  returns_accept (by decide) (returns_pure values)

theorem returns_subscripts_body (args : List Node) : Returns L r (subscripts_body args) :=
  returns_accept (by decide) (returns_pure args)

theorem returns_expr_list_body (elem_min_bp : Nat) (assignment_target : Bool) (elems : List Node) :
    Returns L r (expr_list_body elem_min_bp assignment_target elems) :=
  returns_accept (by decide) (returns_pure elems)

theorem returns_elsifs_body (branches : List (Node × Node)) : Returns L r (elsifs_body branches) :=
  returns_accept (by decide) (returns_pure branches)

theorem returns_when_patterns_body (patterns : List Node) : Returns L r (when_patterns_body patterns) :=
  returns_accept (by decide) (returns_pure patterns)

theorem returns_rescue_clauses_body (s : Span) (rescues : List Node) : Returns L r (rescue_clauses_body s rescues) :=
  returns_accept (by decide) (returns_pure (some rescues))

theorem returns_const_path_name_body (name : String) : Returns L r (const_path_name_body name) :=
  returns_accept (by decide) (returns_pure (some name))

theorem returns_def_parts_body (parts : List String) : Returns L r (def_parts_body parts) :=
  returns_accept (by decide) (returns_pure (some parts))

theorem returns_when_clauses_body (whens : List Node) : Returns L r (when_clauses_body whens) := by
  refine returns_peek fun t => ?_
  split
  case isTrue hwhen => exact (takes_advance (hwhen.trans_ne (by decide)) inferInstance).at
  case isFalse => exact (returns_pure whens).at

theorem returns_in_clauses_body (ins : List Node) : Returns L r (in_clauses_body ins) := by
  refine returns_peek fun t => ?_
  split
  case isTrue hin => exact (takes_advance (hin.trans_ne (by decide)) inferInstance).at
  case isFalse => exact (returns_pure ins).at

theorem returns_adjacent_strings_body (sval : String) : Returns L r (adjacent_strings_body sval) := by
  refine returns_peek fun t => ?_
  split
  case isTrue hstring =>
    have hkind : t.kind = .string := by
      simp only [Bool.and_eq_true, decide_eq_true_eq] at hstring
      exact hstring.1
    exact (takes_advance (hkind.trans_ne (by decide)) inferInstance).at
  case isFalse => exact (returns_pure sval).at

theorem returns_const_path_body (name : String) : Returns L r (const_path_body name) := by
  refine returns_check (at_op (o := .look 1) rfl fun part => ?_) (returns_pure name)
  refine at_op (o := .look 2) rfl fun nxt => at_op (o := .look 3) rfl fun after => ?_
  split
  · exact (returns_pure name).at
  · exact (takes_advance (by decide) inferInstance).at

theorem returns_interp_segments_body (is_regex : Bool) (rope : Option (RopeNode Node)) (regex_flags : Nat) :
    Returns L r (interp_segments_body is_regex rope regex_flags) := by
  refine returns_peek fun seg => ?_
  split
  case isTrue => exact (returns_advance.bind fun _ => returns_pure _).at
  case isFalse hend =>
    have hne : seg.kind ≠ .eof := fun heof => hend (by simp [heof])
    split
    · exact (takes_advance hne inferInstance).at
    · split
      · exact (takes_advance hne inferInstance).at
      · exact ((returns_error _ seg).bind fun _ => returns_advance.bind fun _ => returns_pure _).at

theorem returns_interp_strings_body (is_backtick is_regex : Bool) (rope : Option (RopeNode Node)) (regex_flags : Nat) :
    Returns L 1 (interp_strings_body is_backtick is_regex rope regex_flags) := by
  refine Returns.bind (returns_call (c := .interp_segments is_regex rope regex_flags) fun _ => Nat.one_pos) ?_
  rintro ⟨rope, regex_flags⟩
  dsimp only
  split
  · exact returns_pure _
  · refine returns_peek fun t => ?_
    split
    case isTrue hbeg =>
      have hkind : t.kind = .interp_beg := by
        simp only [Bool.and_eq_true, decide_eq_true_eq] at hbeg
        exact hbeg.1
      exact (takes_advance (hkind.trans_ne (by decide)) inferInstance).at
    case isFalse =>
      refine Returns.at ?_
      split
      · exact returns_advance.bind fun _ => returns_pure _
      · exact returns_pure _

/-! Elements, one after the other. -/

theorem returns_arrow_pairs_body (key : Node) (pairs : List Node) : Returns L 3 (arrow_pairs_body key pairs) := by
  refine (returns_expect _ _).bind fun _ => (returns_parse_expr (by decide) 0).bind fun val => ?_
  refine returns_accept_then (by decide) ?_ (returns_pure _)
  refine .seq inferInstance fun next => ?_
  split <;> infer_instance

theorem returns_exception_classes_body (classes : List Node) : Returns L 3 (exception_classes_body classes) :=
  (returns_parse_expr (by decide) 0).bind fun _ => returns_accept (by decide) (returns_pure _)

theorem returns_command_args_body (saved_allow_commas : Bool) (args : List Node) :
    Returns L 4 (command_args_body saved_allow_commas args) := by
  refine returns_peek fun t => Returns.at ?_
  split
  · exact (returns_parse_block_pass (by decide) _).bind fun _ => returns_pure _
  · refine (returns_parse_command_arg (by decide) t).bind fun arg => ?_
    split
    · exact returns_accept (by decide) (returns_pure _)
    · exact returns_pure _

theorem returns_paren_args_body (args : List Node) : Returns L 4 (paren_args_body args) := by
  refine returns_peek fun t => Returns.at ?_
  split
  · exact returns_pure args
  · split
    · refine (returns_parse_block_pass (by decide) _).bind fun _ => ?_
      exact (returns_skip_terminators (by decide)).bind fun _ => returns_pure _
    · refine (returns_parse_paren_arg (by decide) t).bind fun arg => returns_accept (by decide) ?_
      exact (returns_skip_terminators (by decide)).bind fun _ => returns_pure _

theorem returns_array_elements_body (elems : List Node) : Returns L 4 (array_elements_body elems) := by
  refine returns_check_any fun kind => Returns.at ?_
  split
  · exact returns_pure elems
  · exact (returns_parse_expr (by decide) 0).bind fun _ => returns_behind_comma (by decide) _ _

theorem returns_hash_pairs_body (pairs : List Node) : Returns L 4 (hash_pairs_body pairs) := by
  refine returns_peek fun t => Returns.at ?_
  split
  · exact returns_pure pairs
  · split
    · exact returns_advance.bind fun _ => returns_parse_pair (by decide) _ _ _
    · refine (returns_parse_hash_key (by decide)).bind fun key => ?_
      split
      · exact returns_pure pairs
      · split
        · exact returns_parse_pair (by decide) _ _ _
        · exact (returns_expect _ _).bind fun _ => returns_parse_pair (by decide) _ _ _

theorem returns_parse_pattern_operand (num : Numerals) (t : Token) :
    At L t.kind 3 (parse_pattern_operand num t) := by
  unfold parse_pattern_operand
  split
  case isTrue hbegins =>
    have hne : t.kind ≠ .eof := by
      intro heof
      rw [heof] at hbegins
      cases hbegins
    exact (takes_advance hne inferInstance).at
  case isFalse => exact (returns_parse_expr (by decide) 0).at

theorem returns_parse_pattern_body (num : Numerals) : Returns L 3 (parse_pattern_body num) := by
  refine (returns_skip_terminators (by decide)).bind fun _ => returns_peek fun t => ?_
  refine (returns_parse_pattern_operand num t).bind fun pat => ?_
  cases pat with
  | none => exact returns_pure none
  | some pat => exact (returns_parse_capture _ pat).bind fun pat => returns_accept (by decide) (returns_pure _)

theorem returns_array_pattern_body (first : Bool) (c : PatternCollection) : Returns L 4 (array_pattern_body first c) := by
  refine returns_check_any fun kind => Returns.at ?_
  split
  · exact returns_pure c
  · refine (returns_skip_terminators (by decide)).bind fun _ => Returns.bind (returns_op .peek) fun t => ?_
    split
    · exact returns_pure c
    · split
      · exact returns_advance.bind fun _ => returns_parse_rest_name.bind fun _ =>
          returns_accept (by decide) (returns_pure _)
      · exact (returns_parse_pattern (by decide)).bind fun _ => returns_accept (by decide) (returns_pure _)

theorem returns_parse_hash_rest (rest_name : Option String) : Returns L r (parse_hash_rest rest_name) := by
  refine returns_accept (by decide) ?_
  refine returns_check (Returns.at ?_) (returns_pure rest_name)
  exact returns_parse_rest_name

theorem returns_hash_pattern_body (c : PatternCollection) : Returns L 4 (hash_pattern_body c) := by
  refine returns_check_any fun kind => Returns.at ?_
  split
  · exact returns_pure c
  · refine (returns_skip_terminators (by decide)).bind fun _ => Returns.bind (returns_op .peek) fun t => ?_
    split
    · exact returns_pure c
    · split
      · exact returns_advance.bind fun _ => (returns_parse_hash_rest _).bind fun _ =>
          returns_accept (by decide) (returns_pure _)
      · refine returns_advance.bind fun key_tok => (returns_accept_only .colon).bind fun _ => ?_
        exact (returns_parse_key_pattern (by decide) _ _).bind fun _ => returns_accept (by decide) (returns_pure _)

/-! Parameters. -/

theorem returns_parse_param_node_body (allow_default : Bool) : Returns L 4 (parse_param_node_body allow_default) := by
  have hwhole : (parse_param_node_body allow_default).Whole := by
    refine .seq inferInstance fun t => ?_
    dsimp only
    split <;> infer_instance
  refine returns_take hwhole fun t ht => ?_
  simp only [ht]
  exact returns_parse_named_param _ t.name allow_default

theorem returns_parse_param_node (hr : 4 < r) (allow_default : Bool) : Returns L r (parse_param_node allow_default) :=
  returns_call fun _ => hr

theorem returns_param_group_body (elems : List Node) : Returns L 5 (param_group_body elems) := by
  refine returns_check_any fun kind => Returns.at ?_
  split
  · exact returns_pure elems
  · exact (returns_parse_param_node (by decide) false).bind fun _ => returns_accept (by decide) (returns_pure _)

theorem returns_param_list_body (params : List Node) : Returns L 5 (param_list_body params) := by
  refine returns_check_any fun kind => Returns.at ?_
  split
  · exact returns_pure params
  · exact (returns_parse_param_node (by decide) true).bind fun _ => returns_accept (by decide) (returns_pure _)

theorem returns_params_unparen_body (def_line : Nat) (params : List Node) :
    Returns L 5 (params_unparen_body def_line params) := by
  refine Returns.bind (returns_op .peek) fun nxt => ?_
  split
  · exact returns_pure params
  · refine (returns_parse_param_node (by decide) true).bind fun param => returns_peek fun nxt => ?_
    split
    case isTrue hcomma =>
      have hkind : nxt.kind = .comma := by
        simp only [Bool.and_eq_true, decide_eq_true_eq] at hcomma
        exact hcomma.1
      exact (takes_advance (hkind.trans_ne (by decide)) inferInstance).at
    case isFalse => exact (returns_pure _).at

/-! All of them together. -/

theorem total_of_returns {c : ParserCall} {num : Numerals} {p : Parser L} (hc : consumes c = false)
    (h : Returns L (rank (next_kind p) c) (body num c)) :
    (body num c).total (allowed L (left p) (rank (next_kind p) c)) (Leaves c p) p :=
  Program.total_mono measured_monotone (fun _ _ hleft => ⟨hleft, fun hconsumes => by simp [hc] at hconsumes⟩)
    (h (left p) p le_rfl)

theorem total_of_takes {c : ParserCall} {num : Numerals} {p : Parser L}
    (hend : next_kind p = .eof → At L .eof (rank .eof c) (body num c))
    (h : next_kind p ≠ .eof → Takes L (next_kind p) (rank (next_kind p) c) (body num c)) :
    (body num c).total (allowed L (left p) (rank (next_kind p) c)) (Leaves c p) p := by
  by_cases hkind : next_kind p = .eof
  · rw [hkind]
    exact Program.total_mono measured_monotone (fun _ _ hleft => ⟨hleft, fun _ => .inl hkind⟩)
      (hend hkind (left p) p hkind le_rfl)
  · exact Program.total_mono measured_monotone (fun _ _ hlt => ⟨hlt.le, fun _ => .inr hlt⟩)
      (h hkind (left p) p rfl le_rfl)

/-- Every function of the parser returns, if those it calls with fewer tokens
left or of a lower rank do. -/
theorem body_total (num : Numerals) (c : ParserCall) (p : Parser L) :
    (body num c).total (measured (C := parser_calls) (parser_machine L) measure (measure c p) Leaves) (Leaves c p) p := by
  cases c with
  | skip_terminators => exact total_of_returns rfl returns_skip_terminators_body
  | sync => exact total_of_returns rfl returns_sync_body
  | program_stmts stmts => exact total_of_returns rfl (returns_program_stmts_body stmts)
  | body_stmts stop_at_rbrace stmts => exact total_of_returns rfl (returns_body_stmts_body stop_at_rbrace stmts)
  | rparen_stmts stmts => exact total_of_returns rfl (returns_rparen_stmts_body stmts)
  | parse_stmt => exact total_of_takes (fun _ => returns_parse_stmt_body) takes_parse_stmt_body
  | parse_expr min_bp =>
    exact total_of_takes (fun _ => (returns_parse_expr_body min_bp).at) fun h => takes_parse_expr_body h min_bp
  | parse_expr_continue left min_bp => exact total_of_returns rfl (returns_parse_expr_continue_body left min_bp)
  | parse_primary => exact total_of_takes (fun _ => returns_parse_primary_body num) (takes_parse_primary_body num)
  | jump_values values => exact total_of_returns rfl (returns_jump_values_body values)
  | arrow_pairs key pairs => exact total_of_returns rfl (returns_arrow_pairs_body key pairs)
  | command_args saved_allow_commas args =>
    exact total_of_returns rfl (returns_command_args_body saved_allow_commas args)
  | subscripts args => exact total_of_returns rfl (returns_subscripts_body args)
  | paren_args args => exact total_of_returns rfl (returns_paren_args_body args)
  | parse_param_node allow_default => exact total_of_returns rfl (returns_parse_param_node_body allow_default)
  | param_group elems => exact total_of_returns rfl (returns_param_group_body elems)
  | param_list params => exact total_of_returns rfl (returns_param_list_body params)
  | params_unparen def_line params => exact total_of_returns rfl (returns_params_unparen_body def_line params)
  | adjacent_strings sval => exact total_of_returns rfl (returns_adjacent_strings_body sval)
  | interp_segments is_regex rope regex_flags =>
    exact total_of_returns rfl (returns_interp_segments_body is_regex rope regex_flags)
  | interp_strings is_backtick is_regex rope regex_flags =>
    exact total_of_returns rfl (returns_interp_strings_body is_backtick is_regex rope regex_flags)
  | const_path name => exact total_of_returns rfl (returns_const_path_body name)
  | array_elements elems => exact total_of_returns rfl (returns_array_elements_body elems)
  | hash_pairs pairs => exact total_of_returns rfl (returns_hash_pairs_body pairs)
  | parse_pattern => exact total_of_returns rfl (returns_parse_pattern_body num)
  | array_pattern first collection => exact total_of_returns rfl (returns_array_pattern_body first collection)
  | hash_pattern collection => exact total_of_returns rfl (returns_hash_pattern_body collection)
  | const_path_name name => exact total_of_returns rfl (returns_const_path_name_body name)
  | exception_classes classes => exact total_of_returns rfl (returns_exception_classes_body classes)
  | rescue_clauses span rescues => exact total_of_returns rfl (returns_rescue_clauses_body span rescues)
  | parse_assignment_target_elem =>
    exact total_of_takes (fun _ => returns_parse_assignment_target_elem_body) takes_parse_assignment_target_elem_body
  | expr_list elem_min_bp assignment_target elems =>
    exact total_of_returns rfl (returns_expr_list_body elem_min_bp assignment_target elems)
  | elsifs branches => exact total_of_returns rfl (returns_elsifs_body branches)
  | def_parts parts => exact total_of_returns rfl (returns_def_parts_body parts)
  | when_patterns patterns => exact total_of_returns rfl (returns_when_patterns_body patterns)
  | when_clauses whens => exact total_of_returns rfl (returns_when_clauses_body whens)
  | in_clauses ins => exact total_of_returns rfl (returns_in_clauses_body ins)

/-- Whatever the parser is made to parse, it comes back, and gives back no token. -/
theorem run_returns (num : Numerals) (program : Parse α) [program.Whole] (p : Parser L) :
    ∃ value p', program.run (parsing num L) p = some (value, p') ∧ left p' ≤ left p := by
  have hcalls := limit_returns (C := parser_calls) (body_total (L := L) num)
  refine Program.total_run ?_ (returns_whole program (left p) p le_rfl)
  exact measured_enables fun call q _ => hcalls call q

/-- A loop goes on with its next turn. -/
inductive Again : ParserCall → ParserCall → Prop where
  | skip_terminators : Again .skip_terminators .skip_terminators
  | sync : Again .sync .sync
  | program_stmts (stmts stmts' : List Node) : Again (.program_stmts stmts) (.program_stmts stmts')
  | body_stmts (stop_at_rbrace : Bool) (stmts stmts' : List Node) :
    Again (.body_stmts stop_at_rbrace stmts) (.body_stmts stop_at_rbrace stmts')
  | rparen_stmts (stmts stmts' : List Node) : Again (.rparen_stmts stmts) (.rparen_stmts stmts')

theorem Again.rank_eq {c inner : ParserCall} (h : Again c inner) (kind' : TokenKind) : rank kind inner = rank kind' c := by
  cases h <;> rfl

/-- A turn of a loop that is followed by another has taken a token. -/
theorem Again.left_lt {num : Numerals} {c inner : ParserCall} (h : Again c inner) {p q : Parser L}
    {next : inner.Answer → Parse c.Answer} (hcomes : (body num c).ComesTo (parsing num L) p (.step (.inr inner) next) q) :
    left q < left p := by
  have hmeasure : measure inner q < measure c p :=
    limit_decreases (C := parser_calls) (body_total num) hcomes
  rw [measure, measure, h.rank_eq (next_kind p)] at hmeasure
  exact Nat.lt_of_mul_lt_mul_right (Nat.add_lt_add_iff_right.mp hmeasure)

end

/-- On any tokens, behind which the text is at its end, the parser returns. Each
turn of its loops over statements and of its recovery from errors leaves the
loop or fewer tokens. -/
theorem parser_progresses (num : Numerals) (p : Parser (List Token)) :
    (∃ n p', parse_program.run (parsing num (List Token)) p = some (n, p')) ∧
    ∀ (c inner : ParserCall) (q : Parser (List Token)) (next : inner.Answer → Parse c.Answer), Again c inner →
      (body num c).ComesTo (parsing num (List Token)) p (.step (.inr inner) next) q →
      q.lexer.length < p.lexer.length := by
  constructor
  · obtain ⟨n, p', hrun, -⟩ := run_returns num parse_program p
    exact ⟨n, p', hrun⟩
  · exact fun c inner q next hagain hcomes => hagain.left_lt hcomes

/-- At a stray `end` recovery stops at once; behind a closing brace it goes on. -/
theorem parser_progresses_at_strays :
    let tokens : Parser (List Token) := { lexer := [{ eof_token with kind := .rbrace }, { eof_token with kind := .end_ }] }
    (∃ n p', parse_program.run (parsing { ival := fun _ => 0, fval := fun _ => .of_int 0 } (List Token)) tokens =
      some (n, p')) ∧ tokens.lexer.tail.length < tokens.lexer.length := by
  intro tokens
  obtain ⟨hreturns, hprogresses⟩ := parser_progresses { ival := fun _ => 0, fval := fun _ => .of_int 0 } tokens
  refine ⟨hreturns, ?_⟩
  exact hprogresses .sync .sync { tokens with lexer := tokens.lexer.tail } _ .sync
    (.step rfl (.step rfl (.step rfl (.now _ _))))

end stoned.parser
