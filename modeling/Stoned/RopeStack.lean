import Stoned.Progress
import Stoned.RopeRun

namespace stoned.sema

open program parser

/-! How the semantic pass walks through an interpolated string (sema.c,
resolve): a stack of pointers instead of a recursion. -/

/-- The entries of the stack. -/
def stack_size : Nat := 256

def rope_size : RopeNode Node → Nat
  | .lit _ => 1
  | .expr _ => 1
  | .cat left right => rope_size left + rope_size right + 1

/-- The expressions that are resolved while the stack is emptied, its top first:
nothing where an entry is written behind its end. -/
def resolve_rope : List (RopeNode Node) → Option (List Node)
  | [] => some []
  | .lit _ :: stack => resolve_rope stack
  | .expr node :: stack => (resolve_rope stack).map (node :: ·)
  | .cat left right :: stack =>
    if stack.length + 2 ≤ stack_size then resolve_rope (left :: right :: stack) else none
  termination_by stack => (stack.map rope_size).sum
  decreasing_by
    · simp [rope_size]
    · simp [rope_size]
    · simp [rope_size]
      omega

/-- What resolve does with the node of a string. -/
def resolve_string : Node → Option (List Node)
  | .rope _ rope => resolve_rope [rope]
  | _ => some []

/-- The expressions among the parts of a string. -/
def expressions (parts : List RopePart) : List Node :=
  parts.filterMap fun
    | .lit _ => none
    | .expr node => some node

/-- A rope to which parts are added, one after the other. -/
def grow (rope : Option (RopeNode Node)) (parts : List RopePart) : Option (RopeNode Node) :=
  parts.foldl (fun rope part => some (rope_append rope part.rope)) rope

section
variable {rope : RopeNode Node} {parts : List RopePart} {stack : List (RopeNode Node)}

theorem grow_concat (start : Option (RopeNode Node)) (front : List RopePart) (part : RopePart) :
    grow start (front ++ [part]) = some (rope_append (grow start front) part.rope) :=
  List.foldl_concat _ start part front

theorem grow_append (start : Option (RopeNode Node)) (front back : List RopePart) :
    grow start (front ++ back) = grow (grow start front) back := List.foldl_append

theorem exists_grow (start : Option (RopeNode Node)) (h : parts ≠ []) : ∃ rope, grow start parts = some rope := by
  obtain ⟨front, part, rfl⟩ := List.eq_nil_or_concat parts |>.resolve_left h
  exact ⟨_, by rw [List.concat_eq_append, grow_concat]⟩

theorem grow_some (start : RopeNode Node) (parts : List RopePart) :
    ∃ rope, grow (some start) parts = some rope ∧ rope_parts rope = rope_parts start ++ parts := by
  induction parts generalizing start with
  | nil => exact ⟨start, rfl, (List.append_nil _).symm⟩
  | cons part parts ih =>
    obtain ⟨rope, hgrow, hparts⟩ := ih (.cat start part.rope)
    refine ⟨rope, hgrow, ?_⟩
    rw [hparts, rope_parts]
    cases part <;> simp [RopePart.rope, rope_parts]

theorem resolve_part (part : RopePart) (stack : List (RopeNode Node)) :
    resolve_rope (part.rope :: stack) = (resolve_rope stack).map (expressions [part] ++ ·) := by
  cases part with
  | lit bytes =>
    rw [RopePart.rope, resolve_rope]
    exact Option.map_id'.symm
  | expr node =>
    rw [RopePart.rope, resolve_rope]
    rfl

/-- A rope that grew by one part at a time needs an entry for each part. -/
theorem resolve_grown (h : grow none parts = some rope) (hstack : stack.length + 1 ≤ stack_size) :
    resolve_rope (rope :: stack) =
      if stack.length + parts.length ≤ stack_size then (resolve_rope stack).map (expressions parts ++ ·) else none := by
  induction parts using List.reverseRecOn generalizing rope stack with
  | nil => cases h
  | append_singleton front part ih =>
    rw [grow_concat] at h
    obtain rfl := Option.some_inj.mp h
    rw [List.length_append, List.length_singleton]
    rcases List.eq_nil_or_concat front with rfl | ⟨init, last, rfl⟩
    · rw [if_pos (by rw [List.length_nil]; omega)]
      exact resolve_part part stack
    · obtain ⟨left, hleft⟩ := exists_grow none (show init.concat last ≠ [] from List.concat_eq_append ▸ List.concat_ne_nil last init)
      rw [hleft, rope_append, Option.elim, resolve_rope]
      have hlength : 1 ≤ (init.concat last).length := by
        rw [List.length_concat]
        exact Nat.le_add_left 1 _
      by_cases hroom : stack.length + 2 ≤ stack_size
      · rw [if_pos hroom, ih hleft (by rw [List.length_cons]; omega), List.length_cons, resolve_part, Option.map_map]
        have hcount : stack.length + 1 + (init.concat last).length = stack.length + ((init.concat last).length + 1) := by omega
        rw [hcount]
        congr 1
        refine congrArg (Option.map · (resolve_rope stack)) (funext fun seen => ?_)
        simp only [Function.comp_apply, expressions, List.filterMap_append, List.append_assoc]
      · rw [if_neg hroom, if_neg (by omega)]

theorem parts_of_grown (h : grow none parts = some rope) : rope_parts rope = parts := by
  cases parts with
  | nil => cases h
  | cons part parts =>
    obtain ⟨rope', hrope', hparts⟩ := grow_some part.rope parts
    obtain rfl := Option.some_inj.mp (hrope'.symm.trans h)
    rw [hparts]
    cases part <;> rfl

theorem expressions_static (h : rope_is_static rope = true) : expressions (rope_parts rope) = [] := by
  induction rope with
  | lit bytes => rfl
  | expr node => cases h
  | cat left right hleft hright =>
    rw [rope_is_static, Bool.and_eq_true] at h
    have happend : expressions (rope_parts (.cat left right)) = expressions (rope_parts left) ++ expressions (rope_parts right) :=
      List.filterMap_append
    rw [happend, hleft h.1, hright h.2]
    rfl

end

/-- A string grows by the parts that are read. -/
def grow_spec (L : Type) : (c : ParserCall) → Parser L → c.Answer → Parser L → Prop
  | .interp_segments _ rope _, _, (rope', _), _ => ∃ parts, rope' = grow rope parts
  | .interp_strings _ _ rope _, _, (rope', _), _ => ∃ parts, rope' = grow rope parts
  | _, _, _, _ => True

section
variable {L : Type} [TokenSource L]

abbrev grow_rules (L : Type) [TokenSource L] : Transformer (parser_ops.withCalls parser_calls) (Parser L) :=
  specTransformer (parser_machine L) (fun _ _ => True) (grow_spec L)

theorem grown_more {rope rope' : Option (RopeNode Node)} (part : RopePart)
    (h : ∃ parts, rope' = grow (some (rope_append rope part.rope)) parts) : ∃ parts, rope' = grow rope parts := by
  obtain ⟨parts, rfl⟩ := h
  exact ⟨part :: parts, rfl⟩

theorem interp_segments_body_grows (is_regex : Bool) (rope : Option (RopeNode Node)) (regex_flags : Nat) (p : Parser L) :
    (interp_segments_body is_regex rope regex_flags).wp (grow_rules L) (fun r _ => ∃ parts, r.1 = grow rope parts) p := by
  refine Program.wp_behind (fun seg p => ?_) p
  refine Program.wp_ite (fun _ => ?_) fun _ => Program.wp_ite (fun _ => ?_) fun _ =>
    Program.wp_ite (fun _ => ?_) fun _ => ?_
  · refine Program.wp_behind (fun _ p => ?_) p
    exact ⟨[], rfl⟩
  · refine Program.wp_behind (fun _ p => ?_) p
    exact fun _ _ h => grown_more (.lit seg.text) h
  · refine Program.wp_behind (fun _ p => ?_) p
    refine Program.wp_behind (fun empty p => ?_) p
    refine Program.wp_ite (fun _ => ?_) fun _ => ?_
    · refine Program.wp_behind (fun _ p => ?_) p
      exact fun _ _ h => h
    · refine Program.wp_behind (fun expr p => ?_) p
      refine Program.wp_behind (fun _ p => ?_) p
      exact fun _ _ h => grown_more (.expr (node_of expr)) h
  · refine Program.wp_behind (fun _ p => ?_) p
    refine Program.wp_behind (fun _ p => ?_) p
    exact ⟨[], rfl⟩

/-- The strings that follow a string directly. -/
theorem interp_strings_body_grows (is_backtick is_regex : Bool) (rope : Option (RopeNode Node)) (regex_flags : Nat) (p : Parser L) :
    (interp_strings_body is_backtick is_regex rope regex_flags).wp (grow_rules L) (fun r _ => ∃ parts, r.1 = grow rope parts) p := by
  rw [interp_strings_body, wp_bind]
  rintro ⟨rope', flags⟩ p ⟨parts, rfl⟩
  refine Program.wp_ite (fun _ => ⟨parts, rfl⟩) fun _ => Program.wp_behind (fun t p => ?_) p
  refine Program.wp_ite (fun _ => ?_) fun _ => Program.wp_ite (fun _ => ?_) fun _ => ⟨parts, rfl⟩
  · refine Program.wp_behind (fun _ p => ?_) p
    rintro ⟨rope', flags⟩ _ ⟨more, rfl⟩
    exact ⟨parts ++ more, (grow_append rope parts more).symm⟩
  · refine Program.wp_behind (fun sq p => ?_) p
    refine ⟨parts ++ [.lit sq.text], ?_⟩
    exact (grow_concat rope parts (.lit sq.text)).symm

theorem grow_spec_holds {num : Numerals} {c : ParserCall} {p p' : Parser L} {answer : c.Answer}
    (h : (parser.call c).run (parsing num L) p = some (answer, p')) : grow_spec L c p answer p' := by
  have hlimit : (limit (body num) (parser_machine L) : Oracle parser_calls (Parser L)) c p = some (answer, p') :=
    (run_perform (S := parser_ops.withCalls parser_calls) (.inr c) p).symm.trans h
  refine limit_meets_spec (C := parser_calls) (fun c p => ?_) hlimit
  cases c
  case interp_segments is_regex rope regex_flags => exact interp_segments_body_grows is_regex rope regex_flags p
  case interp_strings is_backtick is_regex rope regex_flags =>
    exact interp_strings_body_grows is_backtick is_regex rope regex_flags p
  all_goals exact Program.wp_of_forall (fun _ _ => trivial) _ p

/-- A string as the parser reads it behind its opening token. -/
structure Literal (num : Numerals) (L : Type) [TokenSource L] where
  is_backtick : Bool
  is_regex : Bool
  before : Parser L
  after : Parser L
  rope : Option (RopeNode Node)
  regex_flags : Nat
  read : (interp_strings is_backtick is_regex none 0).run (parsing num L) before = some ((rope, regex_flags), after)

variable {num : Numerals}

/-- The rope of the node, of which there is always one. -/
def Literal.built (literal : Literal num L) : RopeNode Node := literal.rope.getD (.lit "")

/-- resolve goes on with each expression in the string once, from the left, and
writes no entry behind the stack. -/
def Literal.Visited (literal : Literal num L) : Prop :=
  ∀ s, resolve_string (rope_node s literal.rope) = some (expressions (rope_parts literal.built))

theorem Literal.grown (literal : Literal num L) : ∃ parts, grow none parts = some literal.built := by
  have hspec : ∃ parts, literal.rope = grow none parts :=
    @grow_spec_holds L _ num (.interp_strings literal.is_backtick literal.is_regex none 0) _ _ _ literal.read
  obtain ⟨parts, hparts⟩ := hspec
  rw [Literal.built, hparts]
  cases hgrown : grow none parts with
  | none => exact ⟨[.lit ""], rfl⟩
  | some rope => exact ⟨parts, hgrown⟩

/-- What resolve does with the string built from these parts. -/
theorem resolve_built {parts : List RopePart} {rope : Option (RopeNode Node)} (hparts : grow none parts = some (rope.getD (.lit "")))
    (s : Span) : resolve_string (rope_node s rope) =
      if rope_is_static (rope.getD (.lit "")) = true ∨ parts.length ≤ stack_size then some (expressions parts) else none := by
  have hnode : rope_node s rope = if rope_is_static (rope.getD (.lit "")) then .string s (rope_flatten (rope.getD (.lit "")))
      else .rope s (rope.getD (.lit "")) := rfl
  by_cases hstatic : rope_is_static (rope.getD (.lit "")) = true
  · have hnone := expressions_static hstatic
    rw [parts_of_grown hparts] at hnone
    rw [hnode, if_pos hstatic, if_pos (.inl hstatic), hnone]
    rfl
  · have hresolve := @resolve_grown _ _ [] hparts (by decide)
    rw [List.length_nil, Nat.zero_add] at hresolve
    rw [hnode, if_neg hstatic, resolve_string, hresolve, resolve_rope]
    simp only [hstatic, false_or, Option.map_some, List.append_nil, Bool.false_eq_true]

/-- The stack is large enough exactly for 256 parts; a string without
expressions is a plain one by then. -/
theorem literal_visited_iff (literal : Literal num L) :
    literal.Visited ↔ rope_is_static literal.built = true ∨ (rope_parts literal.built).length ≤ stack_size := by
  obtain ⟨parts, hparts⟩ := literal.grown
  rw [Literal.Visited, parts_of_grown hparts]
  constructor
  · intro h
    by_contra hlong
    have hnone := (resolve_built hparts no_span).symm.trans (h no_span)
    cases (if_neg hlong).symm.trans hnone
  · intro h s
    rw [resolve_built hparts]
    exact if_pos h

end

section long
variable {num : Numerals} {p : Parser (List Token)} {rope : Option (RopeNode Node)} {rest : List Token} {t : Token}

theorem segments_lit (ht : t.kind = .interp_lit) (hp : p.lexer = t :: rest) :
    (interp_segments false rope 0).run (parsing num (List Token)) p =
      (interp_segments false (grow rope [.lit t.text]) 0).run (parsing num (List Token)) { p with lexer := rest } := by
  have hpeek : p.peek = (t, p) := by
    rw [Parser.peek, hp]
    exact congrArg (Prod.mk t) (by rw [← hp])
  have hadvance : p.advance = (t, { p with lexer := rest }) := by
    rw [Parser.advance, hp]
    rfl
  rw [run_interp_segments, interp_segments_body, run_bind_some (run_peek ..), hpeek]
  simp only [ht, reduceCtorEq, decide_false, Bool.or_self, Bool.false_eq_true, if_false, if_true]
  rw [run_bind_some (run_advance ..), hadvance]
  rfl

theorem segments_lits (ht : t.kind = .interp_lit) (k : Nat) (hp : p.lexer = List.replicate k t ++ rest) :
    (interp_segments false rope 0).run (parsing num (List Token)) p =
      (interp_segments false (grow rope (List.replicate k (.lit t.text))) 0).run (parsing num (List Token))
        { p with lexer := rest } := by
  induction k generalizing p rope with
  | zero =>
    rw [← show p.lexer = rest from hp]
    rfl
  | succ k ih =>
    rw [segments_lit ht hp]
    exact ih rfl

/-- An expression that is not empty is one more part. -/
theorem segments_expr {beg first : Token} (hbeg : beg.kind = .interp_expr_beg) (hfirst : first.kind ≠ .interp_expr_end)
    (hp : p.lexer = beg :: first :: rest) {r : Option (RopeNode Node) × Nat} {p' : Parser (List Token)}
    (hrun : (interp_segments false rope 0).run (parsing num (List Token)) p = some (r, p')) :
    ∃ node parts, r.1 = grow rope (.expr node :: parts) := by
  have hpeek : p.peek = (beg, p) := by
    rw [Parser.peek, hp]
    exact congrArg (Prod.mk beg) (by rw [← hp])
  have hadvance : p.advance = (beg, { p with lexer := first :: rest }) := by
    rw [Parser.advance, hp]
    rfl
  rw [run_interp_segments, interp_segments_body, run_bind_some (run_peek ..), hpeek] at hrun
  simp only [hbeg, reduceCtorEq, decide_false, Bool.or_self, Bool.false_eq_true, if_false, if_true] at hrun
  rw [run_bind_some (run_advance ..), hadvance, run_bind_some (run_check ..)] at hrun
  have hnext : (Parser.peek { p with lexer := first :: rest }).1 = first := rfl
  simp only [hnext, hfirst, decide_false, Bool.false_eq_true, if_false] at hrun
  obtain ⟨expr, q, -, hrun⟩ := run_bind_eq_some_iff.mp hrun
  obtain ⟨_, q, -, hrun⟩ := run_bind_eq_some_iff.mp hrun
  obtain ⟨parts, hparts⟩ := grow_spec_holds hrun
  exact ⟨node_of expr, parts, hparts⟩

/-- What follows a string directly is added to it. -/
theorem strings_grow {r : Option (RopeNode Node) × Nat} {p' : Parser (List Token)}
    (hrun : (interp_strings false false none 0).run (parsing num (List Token)) p = some (r, p')) :
    ∃ segments q parts, (interp_segments false none 0).run (parsing num (List Token)) p = some (segments, q) ∧
      r.1 = grow segments.1 parts := by
  rw [run_interp_strings, interp_strings_body] at hrun
  obtain ⟨⟨segments, flags⟩, q, hsegments, hrun⟩ := run_bind_eq_some_iff.mp hrun
  suffices h : ∃ parts, r.1 = grow segments parts by
    obtain ⟨parts, hparts⟩ := h
    exact ⟨(segments, flags), q, parts, hsegments, hparts⟩
  simp only [Bool.false_eq_true, if_false] at hrun
  rw [run_bind_some (run_peek ..)] at hrun
  split at hrun
  · obtain ⟨_, q', -, hrun⟩ := run_bind_eq_some_iff.mp hrun
    exact grow_spec_holds hrun
  · split at hrun
    · obtain ⟨sq, q', -, hrun⟩ := run_bind_eq_some_iff.mp hrun
      cases hrun
      exact ⟨[.lit sq.text], rfl⟩
    · cases hrun
      exact ⟨[], rfl⟩

/-- A string of 256 lines with an expression behind them. -/
def long_tokens : List Token :=
  List.replicate 256 { eof_token with kind := .interp_lit, sval := some "x" } ++
    [{ eof_token with kind := .interp_expr_beg }, { eof_token with kind := .int }]

/-- The parser reads a literal that the stack is too small for. -/
theorem long_literal_not_visited :
    ¬ ∀ literal : Literal { ival := fun _ => 0, fval := fun _ => .of_int 0 } (List Token), literal.Visited := by
  intro hall
  obtain ⟨⟨rope, flags⟩, after, hrun, -⟩ := run_returns (L := List Token) { ival := fun _ => 0, fval := fun _ => .of_int 0 }
    (interp_strings false false none 0) { lexer := long_tokens }
  obtain ⟨segments, q, more, hsegments, hmore⟩ := strings_grow hrun
  rw [segments_lits rfl 256 rfl] at hsegments
  obtain ⟨node, parts, hparts⟩ := segments_expr rfl (by decide) rfl hsegments
  have hgrown : grow none (List.replicate 256 (.lit "x") ++ (.expr node :: parts) ++ more) = rope := by
    rw [grow_append, grow_append]
    exact (congrArg (grow · more) hparts.symm).trans hmore.symm
  obtain ⟨built, rfl⟩ : ∃ built, rope = some built := by
    obtain ⟨built, hbuilt⟩ := exists_grow none (List.append_ne_nil_of_left_ne_nil
      (List.append_ne_nil_of_right_ne_nil (List.replicate 256 (.lit "x")) (List.cons_ne_nil (.expr node) parts)) more)
    exact ⟨built, hgrown.symm.trans hbuilt⟩
  have hparts := parts_of_grown hgrown
  have hvisited := hall ⟨false, false, _, after, some built, flags, hrun⟩ no_span
  have hlong : ¬ (rope_is_static built = true ∨
      (List.replicate 256 (RopePart.lit "x") ++ (RopePart.expr node :: parts) ++ more).length ≤ stack_size) := by
    rintro (hstatic | hshort)
    · have hnone := expressions_static hstatic
      have hexpr : node ∈ expressions (rope_parts built) := by
        rw [hparts, expressions, List.filterMap_append, List.filterMap_append, List.filterMap_cons]
        exact List.mem_append_left _ (List.mem_append_right _ List.mem_cons_self)
      exact absurd hexpr (hnone ▸ List.not_mem_nil)
    · rw [List.length_append, List.length_append, List.length_replicate, List.length_cons, stack_size] at hshort
      omega
  have hnone := (resolve_built hgrown no_span).symm.trans hvisited
  cases (if_neg hlong).symm.trans hnone

end long

end stoned.sema
