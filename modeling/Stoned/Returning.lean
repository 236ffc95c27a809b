import Stoned.Parsing
import Stoned.Whole

namespace stoned.parser

open program

/-! How far the parser gets with each of its functions. -/

/-- A source that comes to an end: what it has left shrinks with every token
up to the end of the text. -/
class Ending (L : Type) [TokenSource L] where
  left : L → Nat
  left_peek : ∀ l : L, left (TokenSource.lexer_peek l).2 = left l
  peek_peek : ∀ l : L, (TokenSource.lexer_peek (TokenSource.lexer_peek l).2).1 = (TokenSource.lexer_peek l).1
  next_eq_peek : ∀ l : L, (TokenSource.lexer_next l).1 = (TokenSource.lexer_peek l).1
  left_next : ∀ l : L, left (TokenSource.lexer_next l).2 ≤ left l
  left_next_lt : ∀ l : L, (TokenSource.lexer_peek l).1.kind ≠ .eof → left (TokenSource.lexer_next l).2 < left l
  left_mark : ∀ (l : L) (name : String), left (TokenSource.lexer_mark_local l name) = left l

instance : Ending (List Token) where
  left := List.length
  left_peek _ := rfl
  peek_peek _ := rfl
  next_eq_peek _ := rfl
  left_next tokens := List.length_tail.trans_le (Nat.sub_le _ 1)
  left_next_lt tokens h := by
    cases tokens with
    | nil => exact absurd rfl h
    | cons t tokens => exact Nat.lt_succ_self _
  left_mark _ _ := rfl

/-- The tokens that are left to a parser. -/
def left {L : Type} [TokenSource L] [Ending L] (p : Parser L) : Nat := Ending.left p.lexer

/-- The kind of the token that comes next. -/
def next_kind {L : Type} [TokenSource L] (p : Parser L) : TokenKind := p.peek.1.kind

/-- The functions that take a token, unless the text has ended. -/
def consumes : ParserCall → Bool
  | .parse_stmt | .parse_expr _ | .parse_primary | .parse_assignment_target_elem => true
  | _ => false

/-- A function calls those of a lower rank without having taken a token. Only a
statement that begins with a keyword is below the operands. -/
def rank (kind : TokenKind) : ParserCall → Nat
  | .parse_stmt => if begins_keyword_stmt kind then 0 else 6
  | .parse_primary => 1
  | .parse_expr _ => 2
  | .parse_assignment_target_elem | .parse_pattern | .exception_classes _ | .arrow_pairs .. => 3
  | .command_args .. | .paren_args _ | .array_elements _ | .hash_pairs _ | .parse_param_node _ | .array_pattern ..
  | .hash_pattern _ => 4
  | .param_group _ | .param_list _ | .params_unparen .. => 5
  | .interp_strings .. => 1
  | .body_stmts .. | .rparen_stmts _ | .program_stmts _ => 7
  | _ => 0

/-- Above every rank. -/
def above : Nat := 8

theorem rank_lt (kind : TokenKind) (c : ParserCall) : rank kind c < above := by
  cases c <;> simp only [rank, above] <;> try omega
  split <;> omega

section
variable {L : Type} [TokenSource L] [Ending L] {α β : Type}

def measure (c : ParserCall) (p : Parser L) : Nat := left p * above + rank (next_kind p) c

/-- What a call leaves: no more than there was, and less when it is one that
takes a token. -/
def Leaves (c : ParserCall) (p : Parser L) (_ : c.Answer) (p' : Parser L) : Prop :=
  left p' ≤ left p ∧ (consumes c = true → next_kind p = .eof ∨ left p' < left p)

/-- What is known of calls where `n` tokens are left and those of a rank below
`r` may be made. -/
abbrev allowed (L : Type) [TokenSource L] [Ending L] (n r : Nat) :
    Transformer (parser_ops.withCalls parser_calls) (Parser L) :=
  measured (C := parser_calls) (parser_machine L) measure (n * above + r) Leaves

/-- The program returns and takes back no token. Before it takes one it only
calls functions of a rank below `r`. -/
def Returns (L : Type) [TokenSource L] [Ending L] (r : Nat) (program : Parse α) : Prop :=
  ∀ (n : Nat) (p : Parser L), left p ≤ n → program.total (allowed L n r) (fun _ p' => left p' ≤ left p) p

section
variable {r r' : Nat} {program : Parse α} {n : Nat} {p : Parser L}

/-- Behind a token any function may be called. -/
theorem Returns.behind (h : Returns L above program) (hp : left p < n) :
    program.total (allowed L n r) (fun _ p' => left p' ≤ left p) p := by
  refine Program.total_bound ?_ (h (left p) p le_rfl)
  have hn : (left p + 1) * above ≤ n * above := Nat.mul_le_mul_right above hp
  rw [Nat.add_mul] at hn
  omega

theorem Returns.bind {f : α → Parse β} (h : Returns L r program) (hf : ∀ value, Returns L r (f value)) :
    Returns L r (program >>= f) := by
  intro n p hp
  refine Program.total_seq measured_monotone (h n p hp) fun value p' hp' => ?_
  exact Program.total_mono measured_monotone (fun _ q hq => hq.trans hp') (hf value n p' (hp'.trans hp))

theorem returns_pure (value : α) : Returns L r (pure value) := fun _ _ _ => le_rfl

theorem left_exec {o : ParserOp} {answer : o.Answer} {p' : Parser L}
    (h : (parser_machine L).exec o p = some (answer, p')) : left p' ≤ left p := by
  cases o <;> cases h
  case peek => exact (Ending.left_peek p.lexer).le
  case advance => exact Ending.left_next p.lexer
  case mark_local name => exact (Ending.left_mark p.lexer name).le
  all_goals exact le_rfl

theorem returns_op (o : ParserOp) : Returns L r (op o) := by
  intro n p _
  have hexec : ∃ answer p', (parser_machine L).exec o p = some (answer, p') := by
    cases o <;> exact ⟨_, _, rfl⟩
  obtain ⟨answer, p', hexec⟩ := hexec
  exact ⟨answer, p', hexec, left_exec hexec⟩

/-- A function of a lower rank may be called at once. -/
theorem returns_call {c : ParserCall} (h : ∀ kind, rank kind c < r) : Returns L r (call c) := by
  intro n p hp
  refine ⟨?_, fun _ _ hleaves => hleaves.1⟩
  have hleft : left p * above ≤ n * above := Nat.mul_le_mul_right above hp
  have hrank := h (next_kind p)
  rw [measure]
  omega

theorem returns_whole (program : Parse α) [hwhole : program.Whole] : Returns L above program := by
  induction hwhole with
  | ret value => exact returns_pure value
  | @step o next _ ih =>
    cases o with
    | inl o => exact (returns_op o).bind ih
    | inr c => exact (returns_call fun kind => rank_lt kind c).bind ih

/-! Steps over a token. -/

theorem left_peek (p : Parser L) : left p.peek.2 = left p := Ending.left_peek p.lexer

theorem next_kind_peek (p : Parser L) : next_kind p.peek.2 = next_kind p :=
  congrArg Token.kind (Ending.peek_peek p.lexer)

theorem left_advance (p : Parser L) : left p.advance.2 ≤ left p := Ending.left_next p.lexer

theorem left_advance_lt (h : next_kind p ≠ .eof) : left p.advance.2 < left p := Ending.left_next_lt p.lexer h

section
variable {T : Transformer (parser_ops.withCalls parser_calls) (Parser L)} {Q : β → Parser L → Prop}

/-- An operation is performed, and what follows goes on from where it ends. -/
theorem total_op {o : ParserOp} {answer : o.Answer} {p' : Parser L}
    (hexec : (parser_machine L).exec o p = some (answer, p')) {f : o.Answer → Parse β}
    (h : (f answer).total (allowed L n r) Q p') : (op o >>= f).total (allowed L n r) Q p :=
  ⟨answer, p', hexec, h⟩

theorem total_peek {f : Token → Parse β} (h : (f p.peek.1).total (allowed L n r) Q p.peek.2) :
    (peek >>= f).total (allowed L n r) Q p := total_op (o := .peek) rfl h

theorem total_advance {f : Token → Parse β} (h : (f p.advance.1).total (allowed L n r) Q p.advance.2) :
    (advance >>= f).total (allowed L n r) Q p := total_op (o := .advance) rfl h

end

/-- The program returns and takes back no token, from where a token of a kind
comes next. -/
def At (L : Type) [TokenSource L] [Ending L] (kind : TokenKind) (r : Nat) (program : Parse α) : Prop :=
  ∀ (n : Nat) (p : Parser L), next_kind p = kind → left p ≤ n →
    program.total (allowed L n r) (fun _ p' => left p' ≤ left p) p

/-- From there it returns having taken a token. -/
def Takes (L : Type) [TokenSource L] [Ending L] (kind : TokenKind) (r : Nat) (program : Parse α) : Prop :=
  ∀ (n : Nat) (p : Parser L), next_kind p = kind → left p ≤ n →
    program.total (allowed L n r) (fun _ p' => left p' < left p) p

section
variable {kind : TokenKind}

theorem Returns.at (h : Returns L r program) : At L kind r program := fun n p _ hp => h n p hp

theorem Takes.at (h : Takes L kind r program) : At L kind r program :=
  fun n p hkind hp => Program.total_mono measured_monotone (fun _ _ hq => hq.le) (h n p hkind hp)

theorem At.bind {f : α → Parse β} (h : At L kind r program) (hf : ∀ value, Returns L r (f value)) :
    At L kind r (program >>= f) := by
  intro n p hkind hp
  refine Program.total_seq measured_monotone (h n p hkind hp) fun value p' hp' => ?_
  exact Program.total_mono measured_monotone (fun _ q hq => hq.trans hp') (hf value n p' (hp'.trans hp))

/-- Behind a token that is taken anything may be done. -/
theorem Takes.then {f : α → Parse β} (h : Takes L kind r program) (hwhole : (program >>= f).Whole) :
    Takes L kind r (program >>= f) := by
  intro n p hkind hp
  refine hwhole.total_seq measured_monotone (h n p hkind hp) fun value p' hlt _ => ?_
  have hrest := (returns_whole (f value)).behind (r := r) (hlt.trans_le hp)
  exact Program.total_mono measured_monotone (fun _ q hq => hq.trans_lt hlt) hrest

theorem takes_advance (hkind : kind ≠ .eof) {f : Token → Parse α} (hwhole : (advance >>= f).Whole) :
    Takes L kind r (advance >>= f) := by
  refine Takes.then (fun n p hnext hp => ?_) hwhole
  exact ⟨_, _, rfl, left_advance_lt (hnext.trans_ne hkind)⟩

/-- A token is taken whatever it is; behind the end of the text there is still
none. -/
theorem returns_take {f : Token → Parse α} (hwhole : (advance >>= f).Whole)
    (h : ∀ t, t.kind = .eof → Returns L r (f t)) : Returns L r (advance >>= f) := by
  intro n p hp
  by_cases hend : next_kind p = .eof
  · have hkind : p.advance.1.kind = .eof := (congrArg Token.kind (Ending.next_eq_peek p.lexer)).trans hend
    refine total_advance ?_
    have hrest := h p.advance.1 hkind n p.advance.2 ((left_advance p).trans hp)
    exact Program.total_mono measured_monotone (fun _ q hq => hq.trans (left_advance p)) hrest
  · exact (takes_advance hend hwhole).at n p rfl hp

/-- A function that takes a token, where there is one. -/
theorem takes_call {c : ParserCall} (hc : consumes c = true) (hkind : kind ≠ .eof) (hrank : rank kind c < r) :
    Takes L kind r (call c) := by
  intro n p hnext hp
  refine ⟨?_, fun _ p' hleaves => ?_⟩
  · have hleft : left p * above ≤ n * above := Nat.mul_le_mul_right above hp
    rw [measure, hnext]
    omega
  · obtain heof | hlt := hleaves.2 hc
    · exact absurd (hnext.symm.trans heof) hkind
    · exact hlt

/-- The operations behind which the same token comes next. -/
def stays : ParserOp → Bool
  | .advance | .mark_local _ => false
  | _ => true

theorem stays_exec {o : ParserOp} (ho : stays o = true) {answer : o.Answer} {p' : Parser L}
    (h : (parser_machine L).exec o p = some (answer, p')) : next_kind p' = next_kind p ∧ left p' = left p := by
  cases o <;> cases h
  case peek => exact ⟨next_kind_peek p, left_peek p⟩
  case advance | mark_local => cases ho
  all_goals exact ⟨rfl, rfl⟩

theorem takes_op {o : ParserOp} (ho : stays o = true) {f : o.Answer → Parse α} (h : ∀ answer, Takes L kind r (f answer)) :
    Takes L kind r (op o >>= f) := by
  intro n p hkind hp
  obtain ⟨answer, p', hexec, -⟩ := returns_op (L := L) (r := r) o n p hp
  obtain ⟨hnext, hleft⟩ := stays_exec ho hexec
  refine total_op hexec ?_
  rw [← hleft] at hp ⊢
  exact h answer n p' (hnext.trans hkind) hp

theorem at_op {o : ParserOp} (ho : stays o = true) {f : o.Answer → Parse α} (h : ∀ answer, At L kind r (f answer)) :
    At L kind r (op o >>= f) := by
  intro n p hkind hp
  obtain ⟨answer, p', hexec, -⟩ := returns_op (L := L) (r := r) o n p hp
  obtain ⟨hnext, hleft⟩ := stays_exec ho hexec
  refine total_op hexec ?_
  rw [← hleft] at hp ⊢
  exact h answer n p' (hnext.trans hkind) hp

/-! A look at the next token. -/

theorem takes_peek {f : Token → Parse α} (h : ∀ t, t.kind = kind → Takes L kind r (f t)) :
    Takes L kind r (peek >>= f) := by
  intro n p hkind hp
  refine total_peek ?_
  have hrest := h p.peek.1 hkind n p.peek.2 ((next_kind_peek p).trans hkind) ((left_peek p).trans_le hp)
  rw [left_peek] at hrest
  exact hrest

theorem at_peek {f : Token → Parse α} (h : ∀ t, t.kind = kind → At L kind r (f t)) : At L kind r (peek >>= f) := by
  intro n p hkind hp
  refine total_peek ?_
  have hrest := h p.peek.1 hkind n p.peek.2 ((next_kind_peek p).trans hkind) ((left_peek p).trans_le hp)
  rw [left_peek] at hrest
  exact hrest

theorem returns_peek {f : Token → Parse α} (h : ∀ t, At L t.kind r (f t)) : Returns L r (peek >>= f) :=
  fun n p hp => at_peek (fun t ht => ht ▸ h t) n p (rfl : next_kind p = next_kind p) hp

theorem returns_check_any {kinds : TokenKind → Bool} {f : Bool → Parse α} (h : ∀ kind, At L kind r (f (kinds kind))) :
    Returns L r (check_any kinds >>= f) := by
  have heq : check_any kinds >>= f = peek >>= fun t => f (kinds t.kind) := by
    simp only [check_any, bind_assoc, pure_eq_ret, ret_bind]
  rw [heq]
  exact returns_peek fun t => h t.kind

theorem returns_check {f : Bool → Parse α} (htrue : At L kind r (f true)) (hfalse : Returns L r (f false)) :
    Returns L r (check kind >>= f) := by
  have heq : check kind >>= f = peek >>= fun t => f (decide (t.kind = kind)) := by
    simp only [check, bind_assoc, pure_eq_ret, ret_bind]
  rw [heq]
  refine returns_peek fun t => ?_
  by_cases h : t.kind = kind
  · rw [decide_eq_true h, h]
    exact htrue
  · rw [decide_eq_false h]
    exact hfalse.at

theorem accept_bind (kind : TokenKind) (f : Bool → Parse α) :
    accept kind >>= f = check kind >>= fun found => if found then advance >>= fun _ => f true else f false := by
  simp only [accept, bind_assoc, pure_eq_ret]
  refine bind_congr fun found => ?_
  split <;> rfl

/-- A token that is taken when it is of a kind, and what is done with it or
without. -/
theorem returns_accept_then (hkind : kind ≠ .eof) {f : Bool → Parse α} (htrue : (f true).Whole)
    (hfalse : Returns L r (f false)) : Returns L r (accept kind >>= f) := by
  rw [accept_bind]
  exact returns_check (takes_advance hkind inferInstance).at hfalse

theorem returns_accept (hkind : kind ≠ .eof) {f : Bool → Parse α} [htrue : (f true).Whole]
    (hfalse : Returns L r (f false)) : Returns L r (accept kind >>= f) := returns_accept_then hkind htrue hfalse

end
end
end
end stoned.parser
