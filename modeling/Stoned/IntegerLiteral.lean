import Stoned.Passing
import Stoned.Program.Strtoll

namespace stoned

open program

/-! The values of integer literals (lexer.c, scan_number). -/

/-- The characters the buffer of parse_int_with_underscores has room for. -/
def INT_BUFFER : Nat := 63

/-- Reads a number from here on, whatever the token's end is. -/
def parse_int_with_underscores (s : List Char) (base : Nat) : Int64 :=
  strtoll.convert base (((s.takeWhile (· ≠ '\x00')).filter (· ≠ '_')).take INT_BUFFER)

namespace Lexer

/-- The ival scan_number gives its token; a float has none. -/
def scan_number_ival (l : Lexer) (start : Nat) : Option Int64 :=
  let prefix_is (lower upper : Char) := l.peek_ch = '0' && (l.peek2 = lower || l.peek2 = upper)
  if prefix_is 'x' 'X' then some (parse_int_with_underscores (l.src.drop start) 0)
  else if prefix_is 'b' 'B' then some (parse_int_with_underscores (l.src.drop start) 0)
  else if prefix_is 'o' 'O' then
    let digits_start := l.advance.advance.pos
    some (parse_int_with_underscores (l.src.drop digits_start) 8)
  else
    let l := l.advance_while fun c => isdigit c || c = '_'
    let fraction := l.peek_ch = '.' && isdigit l.peek2
    let exponent := l.peek_ch = 'e' || l.peek_ch = 'E'
    if fraction || exponent then none else some (parse_int_with_underscores (l.src.drop start) 10)

end Lexer

inductive Radix where
  | decimal | hexadecimal | octal | binary
  deriving DecidableEq

namespace Radix

def base : Radix → Nat
  | decimal => 10
  | hexadecimal => 16
  | octal => 8
  | binary => 2

def is_digit : Radix → Char → Bool
  | decimal => isdigit
  | hexadecimal => isxdigit
  | octal => fun c => '0' ≤ c && c ≤ '7'
  | binary => fun c => c = '0' || c = '1'

/-- What a literal of the radix begins with. -/
def marks : Radix → List (List Char)
  | decimal => [[]]
  | hexadecimal => [['0', 'x'], ['0', 'X']]
  | octal => [['0', 'o'], ['0', 'O']]
  | binary => [['0', 'b'], ['0', 'B']]

/-- The digits that are read. The prefix takes up room too, but for that of octal
literals, which is not copied. -/
def room : Radix → Nat
  | decimal | octal => INT_BUFFER
  | hexadecimal | binary => INT_BUFFER - 2

end Radix

/-- An integer literal: a prefix, and digits among which there may be underscores. -/
structure IntLiteral where
  radix : Radix
  mark : List Char
  first : Char
  body : List Char
  marked : mark ∈ radix.marks
  begins : radix.is_digit first = true
  spelled : ∀ c ∈ body, (radix.is_digit c || c = '_') = true

namespace IntLiteral
variable (lit : IntLiteral)

def text : List Char := lit.mark ++ lit.first :: lit.body

def digits : List Char := lit.first :: lit.body.filter (· ≠ '_')

def value : Nat := strtoll.number lit.radix.base lit.digits

/-- What follows makes a float of a decimal literal. -/
def makes_float : List Char → Bool
  | '.' :: c :: _ => isdigit c
  | c :: _ => c = 'e' || c = 'E'
  | [] => false

/-- The letters behind which a 0 is a prefix. -/
def radix_letters : List Char := ['x', 'X', 'b', 'B', 'o', 'O']

/-- The literal ends where this follows. -/
def Ends (after : List Char) : Prop :=
  (∀ c ∈ after.head?, (lit.radix.is_digit c || c = '_') = false) ∧
  (lit.radix = .decimal → makes_float after = false ∧
    (lit.first = '0' → lit.body = [] → ∀ c ∈ after.head?, c ∉ radix_letters))

end IntLiteral

theorem char_le_iff {a c : Char} : a ≤ c ↔ a.toNat ≤ c.toNat := Iff.rfl

theorem char_eq_iff {a c : Char} : c = a ↔ c.toNat = a.toNat := (Char.toNat_inj).symm

/-- The lexer's digits are those of strtoll. -/
theorem Radix.is_digit_eq (r : Radix) (c : Char) : r.is_digit c = strtoll.is_digit r.base c := by
  rw [Bool.eq_iff_iff, strtoll.is_digit_iff]
  cases r with
  | decimal =>
    simp only [is_digit, base, isdigit, char_le_iff, Bool.and_eq_true, decide_eq_true_iff, Char.reduceToNat]
    omega
  | hexadecimal =>
    simp only [is_digit, base, isxdigit, isdigit, char_le_iff, Bool.and_eq_true, Bool.or_eq_true, decide_eq_true_iff,
      Char.reduceToNat]
    omega
  | octal =>
    simp only [is_digit, base, char_le_iff, Bool.and_eq_true, decide_eq_true_iff, Char.reduceToNat]
    omega
  | binary =>
    simp only [is_digit, base, char_eq_iff, Bool.or_eq_true, decide_eq_true_iff, Char.reduceToNat]
    omega

theorem Radix.two_le_base (r : Radix) : 2 ≤ r.base := by cases r <;> decide

theorem Radix.is_digit_ne {r : Radix} {c : Char} (h : r.is_digit c = true) : c ≠ '_' ∧ c ≠ '\x00' := by
  rw [Radix.is_digit_eq, strtoll.is_digit_iff] at h
  constructor
  all_goals
    rintro rfl
    simp only [Char.reduceToNat] at h
    have := r.two_le_base
    have : r.base ≤ 16 := by cases r <;> decide
    omega

namespace IntLiteral
variable {lit : IntLiteral} {after : List Char}

theorem is_digit_of_mem {c : Char} (hc : c ∈ lit.digits) : lit.radix.is_digit c = true := by
  rcases List.mem_cons.mp hc with rfl | hc
  · exact lit.begins
  · obtain ⟨hbody, hne⟩ := List.mem_filter.mp hc
    simpa [of_decide_eq_true hne] using lit.spelled c hbody

theorem strtoll_digits : ∀ c ∈ lit.digits, strtoll.is_digit lit.radix.base c = true :=
  fun c hc => (lit.radix.is_digit_eq c).symm.trans (is_digit_of_mem hc)

/-- The copy has the digits, and then something that is none. -/
theorem copied (hend : lit.Ends after) :
    ∃ tail, (((lit.first :: lit.body ++ after).takeWhile (· ≠ '\x00')).filter (· ≠ '_')) = lit.digits ++ tail ∧
      ∀ c ∈ tail.head?, strtoll.is_digit lit.radix.base c = false := by
  have hnul : ∀ c ∈ lit.first :: lit.body, decide (c ≠ '\x00') = true := by
    intro c hc
    rcases List.mem_cons.mp hc with rfl | hc
    · exact decide_eq_true (Radix.is_digit_ne lit.begins).2
    · rcases Bool.or_eq_true_iff.mp (lit.spelled c hc) with hdigit | hscore
      · exact decide_eq_true (Radix.is_digit_ne hdigit).2
      · rw [of_decide_eq_true hscore]
        decide
  refine ⟨(after.takeWhile (· ≠ '\x00')).filter (· ≠ '_'), ?_, ?_⟩
  · rw [List.takeWhile_append_of_pos hnul, List.filter_append,
      List.filter_cons_of_pos (by simpa using (Radix.is_digit_ne lit.begins).1)]
    rfl
  · cases after with
    | nil => exact nofun
    | cons d rest =>
      obtain ⟨hdigit, hscore⟩ := Bool.or_eq_false_iff.mp (hend.1 d rfl)
      rw [Radix.is_digit_eq] at hdigit
      have hne : d ≠ '_' := of_decide_eq_false hscore
      by_cases hd : d = '\x00'
      · simp [hd]
      · intro c hc
        have hhead : c = d := by simpa [hd, hne] using hc.symm
        rw [hhead]
        exact hdigit

/-- A prefix of the digits is no greater number. -/
theorem number_take_lt (h : lit.value < 2 ^ 63) (n : Nat) :
    strtoll.number lit.radix.base (lit.digits.take n) < 2 ^ 63 := by
  have hbase := lit.radix.two_le_base
  have hle := strtoll.number_le_append lit.radix.base (lit.digits.take n) (lit.digits.drop n) (by omega)
  rw [List.take_append_drop] at hle
  exact hle.trans_lt h

/-- The number of as many digits as are read is the value exactly when that is all of
them, or the value is 0. -/
theorem number_take_iff (n : Nat) :
    strtoll.number lit.radix.base (lit.digits.take n) = lit.value ↔ lit.digits.length ≤ n ∨ lit.value = 0 := by
  by_cases hlength : lit.digits.length ≤ n
  · rw [List.take_of_length_le hlength]
    exact ⟨fun _ => .inl hlength, fun _ => rfl⟩
  · have hne : lit.digits.drop n ≠ [] := by
      rw [ne_eq, List.drop_eq_nil_iff]
      exact hlength
    have h := strtoll.number_eq_append_iff (lit.digits.take n) lit.radix.two_le_base hne
    rw [List.take_append_drop] at h
    rw [or_iff_right hlength]
    exact h

/-- Of what is copied behind the prefix, the digits count that there is room for. -/
theorem take_copied (hend : lit.Ends after) (n : Nat) (hn : 0 < n) :
    ∃ digits rest,
      ((((lit.first :: lit.body ++ after).takeWhile (· ≠ '\x00')).filter (· ≠ '_')).take n) = lit.first :: digits ++ rest ∧
      lit.digits.take n = lit.first :: digits ∧ (∀ c ∈ rest.head?, strtoll.is_digit lit.radix.base c = false) := by
  obtain ⟨tail, hcopy, htail⟩ := copied hend
  obtain ⟨n, rfl⟩ := Nat.exists_eq_succ_of_ne_zero hn.ne'
  refine ⟨(lit.body.filter (· ≠ '_')).take n, tail.take (n + 1 - lit.digits.length), ?_, rfl, ?_⟩
  · rw [hcopy, List.take_append]
    rfl
  · intro c hc
    refine htail c ?_
    rw [List.head?_take] at hc
    split at hc
    · cases hc
    · exact hc

theorem digits_of_take {digits : List Char} {n : Nat} (h : lit.digits.take n = lit.first :: digits) :
    ∀ c ∈ lit.first :: digits, strtoll.is_digit lit.radix.base c = true := by
  intro c hc
  rw [← h] at hc
  exact strtoll_digits c (List.mem_of_mem_take hc)

/-- Digits in base 8 or 10 are read without a prefix. -/
theorem parse_plain (hbase : lit.radix.base = 8 ∨ lit.radix.base = 10) (hend : lit.Ends after) (h : lit.value < 2 ^ 63) :
    parse_int_with_underscores (lit.first :: lit.body ++ after) lit.radix.base =
      .ofInt (strtoll.number lit.radix.base (lit.digits.take INT_BUFFER)) := by
  obtain ⟨digits, rest, hcopy, htake, hrest⟩ := take_copied hend INT_BUFFER (by decide)
  have hlt := number_take_lt h INT_BUFFER
  have hdigits := digits_of_take htake
  have hfirst : '0' ≤ lit.first ∧ lit.first ≤ '9' := by
    have hdigit := strtoll.is_digit_iff.mp (hdigits lit.first List.mem_cons_self)
    simp only [char_le_iff, Char.reduceToNat]
    omega
  rw [htake] at hlt ⊢
  unfold parse_int_with_underscores
  rw [hcopy]
  exact strtoll.convert_plain hbase hfirst hdigits hrest hlt

/-- The prefixes of hexadecimal and binary literals are read too. -/
theorem parse_prefixed {mark : Char}
    (hmark : lit.radix.base = 16 ∧ (mark = 'x' ∨ mark = 'X') ∨ lit.radix.base = 2 ∧ (mark = 'b' ∨ mark = 'B'))
    (hend : lit.Ends after) (h : lit.value < 2 ^ 63) :
    parse_int_with_underscores ('0' :: mark :: (lit.first :: lit.body ++ after)) 0 =
      .ofInt (strtoll.number lit.radix.base (lit.digits.take (INT_BUFFER - 2))) := by
  obtain ⟨digits, rest, hcopy, htake, hrest⟩ := take_copied hend (INT_BUFFER - 2) (by decide)
  have hlt := number_take_lt h (INT_BUFFER - 2)
  have hdigits := digits_of_take htake
  have hplain : mark ≠ '\x00' ∧ mark ≠ '_' := by rcases hmark with ⟨-, rfl | rfl⟩ | ⟨-, rfl | rfl⟩ <;> decide
  rw [htake] at hlt ⊢
  unfold parse_int_with_underscores
  rw [List.takeWhile_cons_of_pos (by decide), List.takeWhile_cons_of_pos (by simpa using hplain.1),
    List.filter_cons_of_pos (by decide), List.filter_cons_of_pos (by simpa using hplain.2)]
  have hroom : INT_BUFFER = INT_BUFFER - 2 + 1 + 1 := rfl
  rw [hroom, List.take_succ_cons, List.take_succ_cons, hcopy]
  exact strtoll.convert_prefixed hmark hdigits hrest hlt

end IntLiteral

namespace Lexer
variable {l : Lexer} {lit : IntLiteral} {after : List Char} (line col : Nat)

/-- The digits are passed over up to where the literal ends. -/
theorem takeWhile_body (hend : lit.Ends after) :
    (lit.first :: lit.body ++ after).takeWhile (fun c => lit.radix.is_digit c || c = '_') = lit.first :: lit.body := by
  have hbody : ∀ c ∈ lit.first :: lit.body, (lit.radix.is_digit c || decide (c = '_')) = true := by
    intro c hc
    rcases List.mem_cons.mp hc with rfl | hc
    · simp [lit.begins]
    · exact lit.spelled c hc
  rw [List.takeWhile_append_of_pos hbody]
  cases after with
  | nil => simp
  | cons c rest => rw [List.takeWhile_cons_of_neg (by simpa using hend.1 c rfl), List.append_nil]

theorem text_ahead {text : List Char} (h : l.ahead = text ++ after) {stop : Nat} (hstop : stop = l.pos + text.length) :
    l.text l.pos stop = intern text := by
  have hdrop : l.src.drop l.pos = text ++ after := h
  rw [Lexer.text, hdrop, hstop, Nat.add_sub_cancel_left, List.take_left]
  rfl

/-- A literal with a prefix. -/
theorem scan_prefixed_literal {zero mark : Char} (hmark : lit.mark = [zero, mark]) (h : l.ahead = lit.text ++ after)
    (hend : lit.Ends after) :
    (l.scan_prefixed l.pos line col lit.radix.is_digit).1.kind = .int ∧
      (l.scan_prefixed l.pos line col lit.radix.is_digit).1.sval = some (intern lit.text) := by
  refine ⟨rfl, congrArg some ?_⟩
  have hbehind : l.advance.advance.ahead = lit.first :: lit.body ++ after := by
    rw [ahead_advance, ahead_advance, h, IntLiteral.text, hmark]
    rfl
  have hpos : (l.advance.advance.advance_while fun c => lit.radix.is_digit c || c = '_').pos =
      l.pos + lit.text.length := by
    rw [pos_advance_while, hbehind, takeWhile_body hend, IntLiteral.text, hmark]
    simp only [advance_pos, List.length_cons, List.length_append, List.length_nil]
    omega
  have hsrc : (l.advance.advance.advance_while fun c => lit.radix.is_digit c || c = '_').src = l.src :=
    ((l.passed_advance.trans l.advance.passed_advance).trans (passed_advance_while _ _)).src
  have htext := text_ahead h hpos
  change Lexer.text _ l.pos _ = intern lit.text
  unfold Lexer.text at htext ⊢
  rw [hsrc]
  exact htext

theorem peeks (h : l.ahead = lit.text ++ after) :
    l.peek_ch = (lit.text ++ after).headD '\x00' ∧ l.peek2 = (lit.text ++ after).tail.headD '\x00' := by
  rw [peek_ch_eq, peek2_eq, h]
  exact ⟨rfl, rfl⟩

/-- A decimal literal does not begin like one with a prefix. -/
theorem not_marked (hradix : lit.radix = .decimal) (h : l.ahead = lit.text ++ after) (hend : lit.Ends after) :
    l.peek_ch = '0' → ∀ x ∈ IntLiteral.radix_letters, l.peek2 ≠ x := by
  obtain ⟨hpeek, hpeek2⟩ := peeks h
  have hmark : lit.mark = [] := by
    have hmarked := lit.marked
    rw [hradix] at hmarked
    exact List.mem_singleton.mp hmarked
  rw [hpeek, hpeek2, IntLiteral.text, hmark]
  intro hzero x hx hsecond
  have hfirst : lit.first = '0' := hzero
  cases hbody : lit.body with
  | nil =>
    rw [hbody] at hsecond
    cases after with
    | nil =>
      have hnul : x = '\x00' := hsecond.symm
      rw [hnul] at hx
      exact absurd hx (by decide)
    | cons c rest =>
      have hc : c = x := hsecond
      exact (hend.2 hradix).2 hfirst hbody c rfl (hc ▸ hx)
  | cons c rest =>
    rw [hbody] at hsecond
    have hc : c = x := hsecond
    have hspelled := lit.spelled c (by rw [hbody]; exact List.mem_cons_self)
    rw [hc, hradix] at hspelled
    simp only [IntLiteral.radix_letters, List.mem_cons, List.not_mem_nil, or_false] at hx
    revert hspelled
    rcases hx with rfl | rfl | rfl | rfl | rfl | rfl <;> decide

theorem not_float (hfloat : IntLiteral.makes_float after = false) (h : l.ahead = after) :
    (decide (l.peek_ch = '.') && isdigit l.peek2) = false ∧
      (decide (l.peek_ch = 'e') || decide (l.peek_ch = 'E')) = false := by
  rw [peek_ch_eq, peek2_eq, h]
  cases after with
  | nil => decide
  | cons c rest =>
    by_cases hdot : c = '.'
    · subst hdot
      cases rest with
      | nil => decide
      | cons d rest =>
        have hdigit : isdigit d = false := hfloat
        simp [hdigit]
    · have hletter : (decide (c = 'e') || decide (c = 'E')) = false := by
        unfold IntLiteral.makes_float at hfloat
        split at hfloat
        · rename_i heq
          exact absurd (List.cons.inj heq).1 hdot
        · rename_i heq
          obtain ⟨rfl, -⟩ := List.cons.inj heq
          exact hfloat
        · rename_i heq
          cases heq
      simp only [List.headD_cons, hdot, decide_false, Bool.false_and, true_and]
      exact hletter

theorem peeks_mark {zero mark : Char} (hmark : lit.mark = [zero, mark]) (h : l.ahead = lit.text ++ after) :
    l.peek_ch = zero ∧ l.peek2 = mark ∧ l.ahead = zero :: mark :: (lit.first :: lit.body ++ after) := by
  obtain ⟨hpeek, hpeek2⟩ := peeks h
  rw [IntLiteral.text, hmark] at h hpeek hpeek2
  exact ⟨hpeek, hpeek2, h⟩

/-- A literal with a prefix that is read from its prefix on. -/
theorem scan_marked {mark : Char} (hmark : lit.mark = ['0', mark])
    (hbase : lit.radix = .hexadecimal ∧ (mark = 'x' ∨ mark = 'X') ∨ lit.radix = .binary ∧ (mark = 'b' ∨ mark = 'B'))
    (h : l.ahead = lit.text ++ after) (hend : lit.Ends after) (hvalue : lit.value < 2 ^ 63) :
    l.scan_number l.pos line col = l.scan_prefixed l.pos line col lit.radix.is_digit ∧
      l.scan_number_ival l.pos =
        some (.ofInt (strtoll.number lit.radix.base (lit.digits.take lit.radix.room))) := by
  obtain ⟨hpeek, hpeek2, hahead⟩ := peeks_mark hmark h
  have hmark' : lit.radix.base = 16 ∧ (mark = 'x' ∨ mark = 'X') ∨ lit.radix.base = 2 ∧ (mark = 'b' ∨ mark = 'B') := by
    rcases hbase with ⟨hradix, hx⟩ | ⟨hradix, hb⟩
    · exact .inl ⟨by rw [hradix]; rfl, hx⟩
    · exact .inr ⟨by rw [hradix]; rfl, hb⟩
  have hroom : lit.radix.room = INT_BUFFER - 2 := by
    rcases hbase with ⟨hradix, -⟩ | ⟨hradix, -⟩ <;> rw [hradix] <;> rfl
  have hparse := IntLiteral.parse_prefixed hmark' hend hvalue
  have hdrop : l.src.drop l.pos = '0' :: mark :: (lit.first :: lit.body ++ after) := hahead
  rw [hroom, ← hparse, ← hdrop]
  unfold scan_number scan_number_ival
  simp only [hpeek, hpeek2]
  rcases hbase with ⟨hradix, rfl | rfl⟩ | ⟨hradix, rfl | rfl⟩ <;> simp [hradix, Radix.is_digit]

theorem scan_octal {mark : Char} (hmark : lit.mark = ['0', mark]) (hradix : lit.radix = .octal)
    (hletter : mark = 'o' ∨ mark = 'O') (h : l.ahead = lit.text ++ after) (hend : lit.Ends after)
    (hvalue : lit.value < 2 ^ 63) :
    l.scan_number l.pos line col = l.scan_prefixed l.pos line col lit.radix.is_digit ∧
      l.scan_number_ival l.pos =
        some (.ofInt (strtoll.number lit.radix.base (lit.digits.take lit.radix.room))) := by
  obtain ⟨hpeek, hpeek2, hahead⟩ := peeks_mark hmark h
  have hbase : lit.radix.base = 8 := by rw [hradix]; rfl
  have hroom : lit.radix.room = INT_BUFFER := by rw [hradix]; rfl
  have hparse := IntLiteral.parse_plain (.inl hbase) hend hvalue
  have hdrop : l.src.drop l.advance.advance.pos = lit.first :: lit.body ++ after := by
    have hbehind : l.advance.advance.ahead = lit.first :: lit.body ++ after := by
      rw [ahead_advance, ahead_advance, hahead]
      rfl
    rw [ahead, advance_src, advance_src] at hbehind
    exact hbehind
  rw [hroom, ← hparse, ← hdrop, hbase]
  unfold scan_number scan_number_ival
  simp only [hpeek, hpeek2]
  rcases hletter with rfl | rfl <;> simp [hradix, Radix.is_digit]

theorem scan_decimal (hradix : lit.radix = .decimal) (h : l.ahead = lit.text ++ after) (hend : lit.Ends after)
    (hvalue : lit.value < 2 ^ 63) :
    (l.scan_number l.pos line col).1.kind ∈ [TokenKind.int, .rational, .imaginary] ∧
      (l.scan_number l.pos line col).1.sval = some (intern lit.text) ∧
      l.scan_number_ival l.pos =
        some (.ofInt (strtoll.number lit.radix.base (lit.digits.take lit.radix.room))) := by
  have hmark : lit.mark = [] := by
    have hmarked := lit.marked
    rw [hradix] at hmarked
    exact List.mem_singleton.mp hmarked
  have htext : lit.text = lit.first :: lit.body := by rw [IntLiteral.text, hmark, List.nil_append]
  have hprefix : ∀ lower ∈ IntLiteral.radix_letters, ∀ upper ∈ IntLiteral.radix_letters,
      (decide (l.peek_ch = '0') && (decide (l.peek2 = lower) || decide (l.peek2 = upper))) = false := by
    intro lower hlower upper hupper
    by_cases hzero : l.peek_ch = '0'
    · have hne := not_marked hradix h hend hzero
      simp [hzero, hne lower hlower, hne upper hupper]
    · simp [hzero]
  have hx := hprefix 'x' (by decide) 'X' (by decide)
  have hb := hprefix 'b' (by decide) 'B' (by decide)
  have ho := hprefix 'o' (by decide) 'O' (by decide)
  have hdigit : (fun c => isdigit c || decide (c = '_')) = fun c => lit.radix.is_digit c || decide (c = '_') := by
    rw [hradix]
    rfl
  have hahead : l.ahead = lit.first :: lit.body ++ after := by rw [h, htext]
  have hbody := takeWhile_body hend
  generalize hbehind : (l.advance_while fun c => isdigit c || decide (c = '_')) = behind
  have hafter : behind.ahead = after := by
    have hsplit := List.takeWhile_append_dropWhile (p := fun c => lit.radix.is_digit c || decide (c = '_'))
      (l := lit.first :: lit.body ++ after)
    rw [hbody] at hsplit
    rw [← hbehind, ahead_advance_while, hahead, hdigit]
    exact List.append_cancel_left hsplit
  have hpos : behind.pos = l.pos + lit.text.length := by
    rw [← hbehind, pos_advance_while, hahead, hdigit, hbody, htext]
  have hsrc : behind.src = l.src := by rw [← hbehind]; exact (passed_advance_while _ _).src
  have hread : behind.text l.pos behind.pos = intern lit.text := by
    have hread := text_ahead h hpos
    unfold Lexer.text at hread ⊢
    rw [hsrc]
    exact hread
  obtain ⟨hfraction, hexponent⟩ := not_float (hend.2 hradix).1 hafter
  have hbase : lit.radix.base = 10 := by rw [hradix]; rfl
  have hroom : lit.radix.room = INT_BUFFER := by rw [hradix]; rfl
  have hparse := IntLiteral.parse_plain (.inr hbase) hend hvalue
  have hdrop : l.src.drop l.pos = lit.first :: lit.body ++ after := hahead
  rw [hroom, ← hparse, ← hdrop, hbase]
  unfold scan_number scan_number_ival
  simp only [hx, hb, ho, hbehind, hfraction, hexponent, Bool.or_self, Bool.false_eq_true, if_false]
  refine ⟨?_, ?_, by rw [hsrc]⟩
  · split
    · simp
    · split <;> simp [text_tok, make_tok]
  · split
    · exact congrArg some hread
    · split <;> exact congrArg some hread

/-- The scanner finds the literal. -/
theorem scan_number_literal (h : l.ahead = lit.text ++ after) (hend : lit.Ends after) (hvalue : lit.value < 2 ^ 63) :
    (l.scan_number l.pos line col).1.kind ∈ [TokenKind.int, .rational, .imaginary] ∧
      (l.scan_number l.pos line col).1.sval = some (intern lit.text) ∧
      l.scan_number_ival l.pos =
        some (.ofInt (strtoll.number lit.radix.base (lit.digits.take lit.radix.room))) := by
  have hmarked := lit.marked
  cases hradix : lit.radix with
  | decimal =>
    rw [← hradix]
    exact scan_decimal line col hradix h hend hvalue
  | hexadecimal =>
    rw [hradix] at hmarked
    obtain ⟨mark, hmark, hletter⟩ : ∃ mark, lit.mark = ['0', mark] ∧ (mark = 'x' ∨ mark = 'X') := by
      simpa [Radix.marks, and_or_left, exists_or] using hmarked
    obtain ⟨hscan, hival⟩ := scan_marked line col hmark (.inl ⟨hradix, hletter⟩) h hend hvalue
    obtain ⟨hkind, htext⟩ := scan_prefixed_literal line col hmark h hend
    rw [← hradix, hscan, hkind, htext]
    exact ⟨by decide, rfl, hival⟩
  | octal =>
    rw [hradix] at hmarked
    obtain ⟨mark, hmark, hletter⟩ : ∃ mark, lit.mark = ['0', mark] ∧ (mark = 'o' ∨ mark = 'O') := by
      simpa [Radix.marks, and_or_left, exists_or] using hmarked
    obtain ⟨hscan, hival⟩ := scan_octal line col hmark hradix hletter h hend hvalue
    obtain ⟨hkind, htext⟩ := scan_prefixed_literal line col hmark h hend
    rw [← hradix, hscan, hkind, htext]
    exact ⟨by decide, rfl, hival⟩
  | binary =>
    rw [hradix] at hmarked
    obtain ⟨mark, hmark, hletter⟩ : ∃ mark, lit.mark = ['0', mark] ∧ (mark = 'b' ∨ mark = 'B') := by
      simpa [Radix.marks, and_or_left, exists_or] using hmarked
    obtain ⟨hscan, hival⟩ := scan_marked line col hmark (.inr ⟨hradix, hletter⟩) h hend hvalue
    obtain ⟨hkind, htext⟩ := scan_prefixed_literal line col hmark h hend
    rw [← hradix, hscan, hkind, htext]
    exact ⟨by decide, rfl, hival⟩

end Lexer

/-- The token of a literal below 2^63 has its value exactly when all of its digits have
room in the buffer, or all are 0. -/
theorem literal_value_iff (l : Lexer) (line col : Nat) (lit : IntLiteral) (after : List Char)
    (h : l.ahead = lit.text ++ after) (hend : lit.Ends after) (hvalue : lit.value < 2 ^ 63) :
    ((l.scan_number l.pos line col).1.kind ∈ [TokenKind.int, .rational, .imaginary] ∧
      (l.scan_number l.pos line col).1.sval = some (intern lit.text) ∧
      l.scan_number_ival l.pos = some (.ofInt lit.value)) ↔
      (lit.digits.length ≤ lit.radix.room ∨ lit.value = 0) := by
  obtain ⟨hkind, htext, hival⟩ := Lexer.scan_number_literal line col h hend hvalue
  rw [← IntLiteral.number_take_iff]
  constructor
  · rintro ⟨-, -, hsame⟩
    have hint := congrArg Int64.toInt (Option.some.inj (hival.symm.trans hsame))
    have hlt := IntLiteral.number_take_lt hvalue lit.radix.room
    rw [Int64.toInt_ofInt_of_le (by omega) (by omega), Int64.toInt_ofInt_of_le (by omega) (by omega)] at hint
    exact_mod_cast hint
  · intro hsame
    exact ⟨hkind, htext, by rw [hival, hsame]⟩

/-- `0x1_F`. -/
def short_literal : IntLiteral where
  radix := .hexadecimal
  mark := ['0', 'x']
  first := '1'
  body := ['_', 'F']
  marked := by decide
  begins := by decide
  spelled := List.all_eq_true.mp (by decide)

theorem short_literal_ends : short_literal.Ends [';'] := by
  refine ⟨?_, nofun⟩
  intro c hc
  cases hc
  rfl

theorem short_literal_value :
    (lexer_init (short_literal.text ++ [';'])).scan_number_ival 0 = some 31 :=
  ((literal_value_iff (lexer_init (short_literal.text ++ [';'])) 1 1 short_literal [';'] rfl short_literal_ends
    (by decide)).mpr (.inl (by decide))).2.2

/-- The binary literal of 2^61, which has 62 digits. -/
def long_literal : IntLiteral where
  radix := .binary
  mark := ['0', 'b']
  first := '1'
  body := List.replicate 61 '0'
  marked := by decide
  begins := by decide
  spelled := by
    intro c hc
    rw [List.eq_of_mem_replicate hc]
    decide

theorem long_literal_digits : strtoll.number 2 (long_literal.digits.take 61) = 1152921504606846976 := by decide +kernel

theorem long_literal_value : long_literal.value = 2305843009213693952 := by decide +kernel

/-- Its token has the value of 61 digits, which is 2^60. -/
theorem long_literal_cut :
    long_literal.value = 2305843009213693952 ∧
      (lexer_init long_literal.text).scan_number_ival 0 = some 1152921504606846976 := by
  have hahead : (lexer_init long_literal.text).ahead = long_literal.text ++ [] := (List.append_nil _).symm
  have hsmall : long_literal.value < 2 ^ 63 := by rw [long_literal_value]; decide
  have hival := (Lexer.scan_number_literal 1 1 hahead ⟨nofun, nofun⟩ hsmall).2.2
  have hread : strtoll.number long_literal.radix.base (long_literal.digits.take long_literal.radix.room) =
      1152921504606846976 := long_literal_digits
  rw [hread] at hival
  exact ⟨long_literal_value, hival⟩

end stoned
