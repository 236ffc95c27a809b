import Stoned.DestructLaw
import Stoned.Parsing

namespace stoned

open program

/-! Array patterns, from the text to the match. -/

/-- What stands between the commas of an array pattern: a pattern, if there is
one, or a splat with its name. -/
inductive PatternItem where
  | sub (pattern : Option Node)
  | splat (name : Option String)

namespace parser

/-- Reads one item and whether another follows; nothing at the end. -/
def read_item : Parse (Option (PatternItem × Bool)) := do
  if ← check_any fun k => k = .rbracket || k = .eof then return none
  else
    skip_terminators
    let t ← peek
    if t.kind = .rbracket then return none
    else if t.kind = .star then
      let _ ← advance
      let rname ← parse_rest_name
      return some (.splat rname, ← accept .comma)
    else
      let elem ← parse_pattern
      return some (.sub elem, ← accept .comma)

/-- What the parser notes of an item. -/
def note (first : Bool) (c : PatternCollection) : PatternItem → PatternCollection
  | .sub elem => { c with elements := c.elements ++ elem.toList }
  | .splat name =>
    if first then { c with has_pre_rest := true, pre_rest_name := name }
    else { c with has_rest := true, rest_name := name }

def note_all : Bool → PatternCollection → List PatternItem → PatternCollection
  | _, c, [] => c
  | first, c, item :: items => note_all false (note first c item) items

section
variable {L : Type} [TokenSource L] {num : Numerals}

/-- The items the parser reads one after the other, and where it is then. -/
inductive Reads (num : Numerals) : Parser L → List PatternItem → Parser L → Prop where
  | stop {p p'} (h : read_item.run (parsing num L) p = some (none, p')) : Reads num p [] p'
  | last {p p' item} (h : read_item.run (parsing num L) p = some (some (item, false), p')) : Reads num p [item] p'
  | more {p p' p'' item items} (h : read_item.run (parsing num L) p = some (some (item, true), p'))
    (rest : Reads num p' items p'') : Reads num p (item :: items) p''

theorem array_pattern_body_eq (first : Bool) (c : PatternCollection) :
    array_pattern_body first c = read_item >>= fun read =>
      match read with
      | none => return c
      | some (item, more) => if more then array_pattern false (note first c item) else return (note first c item) := by
  rw [array_pattern_body, read_item, bind_assoc]
  refine bind_congr fun ended => ?_
  cases ended with
  | true => rfl
  | false =>
    simp only [Bool.false_eq_true, if_false, bind_assoc]
    refine bind_congr fun _ => bind_congr fun t => ?_
    by_cases hbracket : t.kind = .rbracket
    · simp [hbracket]
    · by_cases hstar : t.kind = .star
      · simp [hstar, note]
      · simp [hbracket, hstar, note]

/-- The parser notes the items it reads. -/
theorem array_pattern_reads {first : Bool} {c c' : PatternCollection} {p p' : Parser L}
    (h : (array_pattern first c).run (parsing num L) p = some (c', p')) :
    ∃ items, Reads num p items p' ∧ c' = note_all first c items := by
  have hcall : limit (C := parser_calls) (body num) (parser_machine L) (.array_pattern first c) p = some (c', p') :=
    (run_perform (S := parser_ops.withCalls parser_calls) (.inr (.array_pattern first c)) p).symm.trans h
  obtain ⟨depth, hdepth⟩ := limit_eq_some_iff.mp hcall
  clear h hcall
  induction depth generalizing first c p with
  | zero => cases hdepth
  | succ depth ih =>
    have hbody : (array_pattern_body first c).run
        ((Procedures.loopless (body num)).machine (parser_machine L) depth) p = some (c', p') := hdepth
    rw [array_pattern_body_eq, run_bind_eq_some_iff] at hbody
    obtain ⟨read, q, hread, hnext⟩ := hbody
    have hread : read_item.run (parsing num L) p = some (read, q) := (oracle_below_limit depth).run hread
    cases read with
    | none =>
      cases hnext
      exact ⟨[], .stop hread, rfl⟩
    | some read =>
      obtain ⟨item, more⟩ := read
      cases more with
      | false =>
        cases hnext
        exact ⟨[item], .last hread, rfl⟩
      | true =>
        have hcall : (Procedures.loopless (C := parser_calls) (body num)).oracle (parser_machine L) depth
            (.array_pattern false (note first c item)) q = some (c', p') :=
          (run_perform (S := parser_ops.withCalls parser_calls) (.inr (.array_pattern false (note first c item)))
            q).symm.trans hnext
        obtain ⟨items, hitems, rfl⟩ := ih hcall
        exact ⟨item :: items, .more hread hitems, rfl⟩

/-- The node of an array pattern. -/
def pattern_node (span : Span) (items : List PatternItem) : Node :=
  let c := note_all true {} items
  .pattern_array span c.elements c.has_rest c.has_pre_rest c.rest_name c.pre_rest_name

theorem parse_array_pattern_reads {span : Span} {p p' : Parser L} {node : Node}
    (h : (parse_array_pattern span).run (parsing num L) p = some (node, p')) :
    ∃ items q, Reads num p items q ∧ node = pattern_node span items := by
  rw [parse_array_pattern, run_bind_eq_some_iff] at h
  obtain ⟨c, q, hc, hrest⟩ := h
  obtain ⟨items, hitems, rfl⟩ := array_pattern_reads hc
  rw [run_bind_eq_some_iff] at hrest
  obtain ⟨_, _, _, hrest⟩ := hrest
  rw [run_bind_eq_some_iff] at hrest
  obtain ⟨_, _, _, hrest⟩ := hrest
  cases hrest
  exact ⟨items, q, hitems, rfl⟩

end
end parser

/-- An array pattern with a splat, or without one: what stands before the splat
and behind it. -/
structure ArrayPattern where
  front : List (Option Node)
  splat : Option (Option String)
  back : List (Option Node)
  back_nil : splat = none → back = []

namespace ArrayPattern

def items (t : ArrayPattern) : List PatternItem :=
  t.front.map .sub ++ t.splat.toList.map .splat ++ t.back.map .sub

/-- The sub-patterns before the splat, as far as they could be parsed. -/
def before (t : ArrayPattern) : List Node := t.front.flatMap Option.toList

def behind (t : ArrayPattern) : List Node := t.back.flatMap Option.toList

/-- Matching an array of `n` elements with a splat: the first elements match the
patterns before it and the last ones those behind it, and it takes what is in between. -/
def match_around (t : ArrayPattern) (name : Option String) (env binding_env : Env) (array : Ref) (n : Nat) : P Bool := do
  if n < t.before.length + t.behind.length then return false
  if ← match_elements env binding_env array 0 t.before then
    if ← match_elements env binding_env array (n - t.behind.length) t.behind then
      bind_stretch binding_env name array t.before.length (n - t.behind.length)
      return true
    else return false
  else return false

/-- The law of matching; without a splat the array has as many elements as the
pattern and each matches. -/
def match_law (t : ArrayPattern) (env binding_env : Env) (array : Ref) : P Bool := do
  let n := ((← get).elems array).length
  match t.splat with
  | none => if n = t.before.length then match_elements env binding_env array 0 t.before else return false
  | some name => t.match_around name env binding_env array n

/-- There is no splat or it stands at an end, or there is nothing for it. -/
def Room (t : ArrayPattern) (n : Nat) : Prop :=
  t.splat = none ∨ t.front = [] ∨ t.behind = [] ∨ n ≤ t.before.length + t.behind.length

end ArrayPattern

theorem match_elements_append (env binding_env : Env) (array : Ref) (ai : Nat) (first rest : List Node) :
    match_elements env binding_env array ai (first ++ rest) =
      match_elements env binding_env array ai first >>= fun ok =>
        if ok then match_elements env binding_env array (ai + first.length) rest else return false := by
  induction first generalizing ai with
  | nil => rfl
  | cons pat first ih =>
    rw [List.cons_append, match_elements, match_elements, bind_assoc]
    refine bind_congr fun elem => ?_
    rw [bind_assoc]
    refine bind_congr fun ok => ?_
    cases ok with
    | false => rfl
    | true =>
      simp only [if_true]
      rw [ih, List.length_cons, Nat.add_right_comm, Nat.add_assoc]

/-- An empty stretch is empty wherever it is taken from. -/
theorem bind_stretch_empty (binding_env : Env) (name : Option String) (array : Ref) (i j : Nat) :
    bind_stretch binding_env name array i i = bind_stretch binding_env name array j j := by
  cases name with
  | none => rfl
  | some name => simp [bind_stretch]

namespace parser

theorem note_all_append (first : Bool) (c : PatternCollection) (items rest : List PatternItem) :
    note_all first c (items ++ rest) = note_all (first && items.isEmpty) (note_all first c items) rest := by
  induction items generalizing first c with
  | nil => simp [note_all]
  | cons item items ih => simp [note_all, ih]

theorem note_all_subs (first : Bool) (c : PatternCollection) (subs : List (Option Node)) :
    note_all first c (subs.map .sub) = { c with elements := c.elements ++ subs.flatMap Option.toList } := by
  induction subs generalizing first c with
  | nil => simp [note_all]
  | cons elem subs ih => simp [note_all, note, ih]

end parser

namespace ArrayPattern

/-- What is noted of a pattern: the sub-patterns without their places, and
whether the splat came first. -/
theorem noted (t : ArrayPattern) :
    parser.note_all true {} t.items =
      { elements := t.before ++ t.behind
        has_rest := t.splat.isSome && !t.front.isEmpty
        has_pre_rest := t.splat.isSome && t.front.isEmpty
        rest_name := if t.front.isEmpty then none else t.splat.join
        pre_rest_name := if t.front.isEmpty then t.splat.join else none } := by
  rw [items, parser.note_all_append, parser.note_all_append, parser.note_all_subs, parser.note_all_subs]
  cases hsplat : t.splat with
  | none => simp [parser.note_all, before, behind]
  | some name =>
    cases hfront : t.front with
    | nil => simp [parser.note_all, parser.note, before, behind, hfront]
    | cons => simp [parser.note_all, parser.note, before, behind, hfront]

/-- The same with the splat taken to stand behind all sub-patterns. -/
def match_behind (t : ArrayPattern) (name : Option String) (env binding_env : Env) (array : Ref) (n : Nat) : P Bool := do
  if n < t.before.length + t.behind.length then return false
  if ← match_elements env binding_env array 0 (t.before ++ t.behind) then
    bind_stretch binding_env name array (t.before.length + t.behind.length) n
    return true
  else return false

/-- Matching the node of a pattern with an array. -/
def match_noted (t : ArrayPattern) (env binding_env : Env) (array : Ref) : P Bool :=
  let c := parser.note_all true {} t.items
  match_array env binding_env array c.elements c.has_rest c.has_pre_rest c.rest_name c.pre_rest_name

section
variable (t : ArrayPattern) (env binding_env : Env) (array : Ref)

theorem match_noted_none (h : t.splat = none) : t.match_noted env binding_env array = t.match_law env binding_env array := by
  have hbehind : t.behind = [] := by rw [behind, t.back_nil h, List.flatMap_nil]
  rw [match_noted, t.noted, match_array, match_law]
  refine bind_congr fun ev => ?_
  by_cases hlength : (ev.elems array).length = t.before.length
  · have hanswer : (match_elements env binding_env array 0 t.before >>= fun ok =>
        if ok then Program.ret true else .ret false) = match_elements env binding_env array 0 t.before := by
      rw [← bind_pure (match_elements env binding_env array 0 t.before)]
      refine (bind_assoc _ _ _).trans (bind_congr fun ok => ?_)
      cases ok <;> rfl
    simp [h, hbehind, hlength, hanswer]
  · simp [h, hbehind, hlength, Ne.symm hlength]

theorem match_noted_front {name : Option String} (h : t.splat = some name) (hfront : t.front = []) :
    t.match_noted env binding_env array = get >>= fun ev =>
      t.match_around name env binding_env array (ev.elems array).length := by
  have hbefore : t.before = [] := by rw [before, hfront, List.flatMap_nil]
  rw [match_noted, t.noted, match_array]
  refine bind_congr fun ev => ?_
  simp [h, hfront, hbefore, match_around, match_elements]

theorem match_noted_later {name : Option String} (h : t.splat = some name) (hfront : t.front ≠ []) :
    t.match_noted env binding_env array = get >>= fun ev =>
      t.match_behind name env binding_env array (ev.elems array).length := by
  rw [match_noted, t.noted, match_array]
  refine bind_congr fun ev => ?_
  simp [h, hfront, match_behind]

theorem match_law_splat {name : Option String} (h : t.splat = some name) :
    t.match_law env binding_env array = get >>= fun ev =>
      t.match_around name env binding_env array (ev.elems array).length := by
  rw [match_law]
  refine bind_congr fun ev => ?_
  rw [h]

theorem match_behind_eq_around {name : Option String} {n : Nat}
    (hroom : t.behind = [] ∨ n ≤ t.before.length + t.behind.length) :
    t.match_behind name env binding_env array n = t.match_around name env binding_env array n := by
  rw [match_behind, match_around]
  by_cases hshort : n < t.before.length + t.behind.length
  · rw [if_pos hshort, if_pos hshort]
  · rw [if_neg hshort, if_neg hshort, match_elements_append, bind_assoc]
    refine bind_congr fun ok => ?_
    cases ok with
    | false => rfl
    | true =>
      rcases hroom with hnone | hroom
      · simp [hnone, match_elements]
      · have hn : n = t.before.length + t.behind.length := by omega
        simp only [if_true, hn, Nat.add_sub_cancel, Nat.zero_add]
        refine bind_congr fun ok => ?_
        cases ok with
        | false => rfl
        | true => rw [bind_stretch_empty _ _ _ _ t.before.length]

end
/-- The pattern of a text matches arrays of `n` elements by the law. -/
def Matches (t : ArrayPattern) (node : Node) (n : Nat) : Prop :=
  ∀ env binding_env array answers s, (s.ev.elems array).length = n →
    (match_pattern_body env binding_env (.array array) (some node)).AgreeOn (answering answers) is_effect
      (t.match_law env binding_env array) s

end ArrayPattern

/-- Answers under which every pattern matches. -/
def matching : Oracle evaluator_calls State
  | .match_pattern .., s => some (true, s)
  | _, _ => none

theorem match_elements_matching (env binding_env : Env) (array : Ref) (ai : Nat) (pats : List Node) (s : State) :
    (match_elements env binding_env array ai pats).run (answering matching) s = some (true, s) := by
  induction pats generalizing ai with
  | nil => rfl
  | cons pat pats ih =>
    rw [match_elements, run_bind_some (rfl : (elem_of array ai).run _ s = some ((s.ev.elems array).getD ai .nil, s)),
      run_bind_some (rfl : (match_pattern env binding_env _ (some pat)).run (answering matching) s = some (true, s))]
    exact ih (ai + 1)

/-- The first thing seen of a match is the first element being matched. -/
theorem first_matched (env binding_env : Env) (array : Ref) (ai : Nat) (pat : Node) (pats : List Node)
    (f : Bool → P Bool) (s : State) :
    (((match_elements env binding_env array ai (pat :: pats) >>= f).performed (answering matching) s).filter
      is_effect).head? =
      some (.inr (.match_pattern env binding_env ((s.ev.elems array).getD ai .nil) (some pat))) := rfl

namespace ArrayPattern

theorem body_pattern_node (t : ArrayPattern) (span : Span) (env binding_env : Env) (array : Ref) :
    match_pattern_body env binding_env (.array array) (some (parser.pattern_node span t.items)) =
      t.match_noted env binding_env array := rfl

/-- A state with an array of `n` elements of which one differs. -/
def marked_state (n marked : Nat) : State :=
  bare_state.with_array ((List.range n).map fun i => .bool (i = marked))

theorem marked_elem {n marked i : Nat} (hi : i < n) :
    ((marked_state n marked).ev.elems 0).getD i .nil = .bool (i = marked) := by
  have helems : (marked_state n marked).ev.elems 0 = (List.range n).map fun i => .bool (i = marked) := rfl
  simp [helems, hi]

theorem match_behind_run (t : ArrayPattern) (name : Option String) {n : Nat}
    (hn : ¬ n < t.before.length + t.behind.length) (env binding_env : Env) (array : Ref) :
    t.match_behind name env binding_env array n =
      match_elements env binding_env array 0 t.before >>= fun ok =>
        (if ok then match_elements env binding_env array t.before.length t.behind else return false) >>= fun ok =>
          if ok then (do
            bind_stretch binding_env name array (t.before.length + t.behind.length) n
            return true)
          else return false := by
  rw [match_behind, if_neg hn, match_elements_append, bind_assoc, Nat.zero_add]

/-- Where a splat in the middle has something to take, the first pattern behind
it is matched with the wrong element. -/
theorem match_behind_differs (t : ArrayPattern) (name : Option String) {n : Nat} (hbehind : t.behind ≠ [])
    (hn : t.before.length + t.behind.length < n) :
    ¬ (t.match_behind name 0 0 0 n).AgreeOn (answering matching) is_effect (t.match_around name 0 0 0 n)
      (marked_state n t.before.length) := by
  obtain ⟨pat, pats, hpats⟩ := List.exists_cons_of_ne_nil hbehind
  have hlength : t.behind.length = pats.length + 1 := by rw [hpats, List.length_cons]
  intro hagree
  rw [t.match_behind_run name (by omega), match_around, if_neg (by omega)] at hagree
  have hrest := agreeOn_bind_iff.mp hagree true _ (match_elements_matching _ _ _ _ _ _)
  simp only [if_true, hpats] at hrest
  have hfirst := congrArg List.head? hrest.2
  have hlast : t.before.length < n - (pat :: pats).length ∧ n - (pat :: pats).length < n := by
    rw [← hpats]
    omega
  rw [first_matched, first_matched, marked_elem (by omega), marked_elem hlast.2] at hfirst
  have hwrong : n - (pat :: pats).length ≠ t.before.length := hlast.1.ne'
  simp only [hwrong, decide_true, decide_false] at hfirst
  cases hfirst

theorem matches_iff (t : ArrayPattern) (span : Span) (n : Nat) :
    t.Matches (parser.pattern_node span t.items) n ↔ t.Room n := by
  constructor
  · intro hmatches
    by_contra hroom
    simp only [Room, not_or, Nat.not_le] at hroom
    obtain ⟨hsplat, hfront, hbehind, hn⟩ := hroom
    obtain ⟨name, hname⟩ := Option.ne_none_iff_exists'.mp hsplat
    have hlength : ((marked_state n t.before.length).ev.elems 0).length = n :=
      (List.length_map _).trans List.length_range
    have hagree := hmatches 0 0 0 matching (marked_state n t.before.length) hlength
    rw [body_pattern_node, t.match_noted_later 0 0 0 hname hfront, t.match_law_splat 0 0 0 hname] at hagree
    have hrest := agreeOn_bind_iff.mp hagree _ _ (run_get matching (marked_state n t.before.length))
    rw [hlength] at hrest
    exact t.match_behind_differs name hbehind hn hrest
  · intro hroom env binding_env array answers s hlength
    rw [body_pattern_node]
    cases hsplat : t.splat with
    | none =>
      rw [t.match_noted_none _ _ _ hsplat]
      exact .refl _ s
    | some name =>
      rw [t.match_law_splat _ _ _ hsplat]
      by_cases hfront : t.front = []
      · rw [t.match_noted_front _ _ _ hsplat hfront]
        exact .refl _ s
      · rw [t.match_noted_later _ _ _ hsplat hfront]
        refine agreeOn_bind_iff.mpr fun ev u hget => ?_
        rw [run_get] at hget
        obtain ⟨rfl, rfl⟩ := Prod.mk.inj (Option.some.inj hget)
        have hrest : t.behind = [] ∨ n ≤ t.before.length + t.behind.length := by
          simpa [Room, hsplat, hfront] using hroom
        rw [hlength, t.match_behind_eq_around _ _ _ hrest]
        exact .refl _ s

end ArrayPattern

/-- An array pattern, as it is parsed, matches arrays of `n` elements by the law
exactly when its splat, if it has one, stands at an end or has nothing to take. -/
theorem array_pattern_law {L : Type} [TokenSource L] {num : parser.Numerals} {span : Span} {p p' : Parser L} {node : Node}
    (h : (parser.parse_array_pattern span).run (parser.parsing num L) p = some (node, p')) :
    ∃ items q, parser.Reads num p items q ∧
      ∀ t : ArrayPattern, t.items = items → ∀ n, t.Matches node n ↔ t.Room n := by
  obtain ⟨items, q, hitems, rfl⟩ := parser.parse_array_pattern_reads h
  refine ⟨items, q, hitems, ?_⟩
  rintro t rfl n
  exact t.matches_iff span n

def sample_token (kind : TokenKind) (sval : Option String) : Token := { eof_token with kind, sval }

/-- The tokens of `a, *b, c]`. -/
def splat_tokens : List Token :=
  [sample_token .ident (some "a"), sample_token .comma none, sample_token .star none, sample_token .ident (some "b"),
    sample_token .comma none, sample_token .ident (some "c"), sample_token .rbracket none]

def capture (name : String) : Option Node := some (.pattern_capture no_span none (some name))

/-- The pattern of these tokens. -/
def splat_pattern : ArrayPattern where
  front := [capture "a"]
  splat := some (some "b")
  back := [capture "c"]
  back_nil := nofun

def no_numerals : parser.Numerals where
  ival _ := 0
  fval _ := .of_int 0

/-- The parser as it runs with calls nested eight deep. -/
abbrev sample_parsing : Machine (parser_ops.withCalls parser_calls) (Parser (List Token)) :=
  (Procedures.loopless (parser.body no_numerals)).machine (parser_machine (List Token)) 8

theorem splat_tokens_parsed :
    ((parser.parse_array_pattern no_span).run sample_parsing { lexer := splat_tokens }).map Prod.fst =
      some (parser.pattern_node no_span splat_pattern.items) := rfl

/-- The law applied to what is read of these tokens. -/
theorem array_pattern_law_of_tokens :
    ∃ items q, parser.Reads no_numerals { lexer := splat_tokens } items q ∧
      ∀ t : ArrayPattern, t.items = items → ∀ n,
        t.Matches (parser.pattern_node no_span splat_pattern.items) n ↔ t.Room n := by
  obtain ⟨⟨node, p'⟩, hrun, hnode⟩ := Option.map_eq_some_iff.mp splat_tokens_parsed
  obtain rfl : node = parser.pattern_node no_span splat_pattern.items := hnode
  exact array_pattern_law (run_limit_iff.mpr ⟨8, hrun⟩)

/-- `case [1, nil, 3] in [a, *b, c]` takes `nil` for `c`. -/
theorem middle_splat_takes_the_last :
    ((parser.parse_array_pattern no_span).run sample_parsing { lexer := splat_tokens }).map Prod.fst =
      some (parser.pattern_node no_span splat_pattern.items) ∧
    ¬ (match_pattern_body 0 0 (.array 0) (some (parser.pattern_node no_span splat_pattern.items))).AgreeOn
      (no_builtins.machine 3) is_effect (splat_pattern.match_law 0 0 0)
      (bare_state.with_array [.int 1, .nil, .int 3]) := by
  refine ⟨rfl, ?_⟩
  rintro ⟨hrun, -⟩
  have hlast := congrArg (Option.map fun out => (out.2.envs.env_get 0 "c").map Value.kind) hrun
  revert hlast
  decide

end stoned
