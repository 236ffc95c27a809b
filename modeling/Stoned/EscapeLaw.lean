import Stoned.SquigglyLaw

namespace stoned

/-! Escapes in heredocs and in strings in double quotes. -/

open Lexer (simple_escape)

/-- The escapes a heredoc knows, and those that neither a heredoc nor a string knows. -/
def shared_escape (esc : Char) : Bool :=
  esc = 'n' || esc = 't' || esc = 'r' || esc = '\\' || esc = '#' ||
    (simple_escape esc = none && esc ≠ 'x' && esc ≠ 'u' && !is_octal esc)

/-- Behind every backslash stands an escape that is shared. -/
def shared_escapes : List Char → Bool
  | '\\' :: esc :: s => shared_escape esc && shared_escapes s
  | c :: s => c ≠ '\\' && shared_escapes s
  | [] => true

/-- Outside of escapes there is neither a closing quote nor the beginning of an
interpolation. -/
def uninterrupted : List Char → Bool
  | '\\' :: _ :: s => uninterrupted s
  | c :: s => c ≠ '"' && !(c = '#' && s.headD '\x00' = '{') && uninterrupted s
  | [] => true

/-- What a heredoc's body stands for. -/
def heredoc_text : List Char → List Char
  | '\\' :: esc :: s => heredoc_escape esc ++ heredoc_text s
  | c :: s => c :: heredoc_text s
  | [] => []

section texts
variable {c esc : Char} {s : List Char}

@[elab_as_elim]
theorem escapes_induction {motive : List Char → Prop} (nil : motive []) (lone : motive ['\\'])
    (escape : ∀ esc s, motive s → motive ('\\' :: esc :: s)) (char : ∀ c s, c ≠ '\\' → motive s → motive (c :: s))
    (s : List Char) : motive s := by
  induction s using heredoc_text.induct with
  | case1 esc s ih => exact escape esc s ih
  | case2 c s hnot ih =>
    by_cases hc : c = '\\'
    · cases s with
      | nil =>
        rw [hc]
        exact lone
      | cons esc s => exact absurd rfl (hnot esc s hc)
    · exact char c s hc ih
  | case3 => exact nil

theorem heredoc_text_escape : heredoc_text ('\\' :: esc :: s) = heredoc_escape esc ++ heredoc_text s := by
  rw [heredoc_text]

theorem heredoc_text_char (hc : c ≠ '\\') : heredoc_text (c :: s) = c :: heredoc_text s := by
  rw [heredoc_text.eq_def]
  split
  · exact absurd (List.cons.inj ‹_›).1 hc
  · rename_i heq
    obtain ⟨rfl, rfl⟩ := List.cons.inj heq
    rfl
  · cases ‹_ :: _ = []›

theorem shared_escapes_escape : shared_escapes ('\\' :: esc :: s) = (shared_escape esc && shared_escapes s) := by
  rw [shared_escapes]

theorem shared_escapes_char (hc : c ≠ '\\') : shared_escapes (c :: s) = shared_escapes s := by
  rw [shared_escapes.eq_def]
  split
  · exact absurd (List.cons.inj ‹_›).1 hc
  · rename_i heq
    obtain ⟨rfl, rfl⟩ := List.cons.inj heq
    simp [hc]
  · cases ‹_ :: _ = []›

theorem uninterrupted_escape : uninterrupted ('\\' :: esc :: s) = uninterrupted s := by rw [uninterrupted]

theorem uninterrupted_char (hc : c ≠ '\\') :
    uninterrupted (c :: s) = (c ≠ '"' && !(c = '#' && s.headD '\x00' = '{') && uninterrupted s) := by
  rw [uninterrupted.eq_def]
  split
  · exact absurd (List.cons.inj ‹_›).1 hc
  · rename_i heq
    obtain ⟨rfl, rfl⟩ := List.cons.inj heq
    rfl
  · cases ‹_ :: _ = []›

/-- How a text begins that is not interrupted. -/
theorem uninterrupted_begins (h : uninterrupted (c :: s) = true) :
    c ≠ '"' ∧ (!(decide (c = '#') && decide (s.headD '\x00' = '{'))) = true := by
  by_cases hc : c = '\\'
  · rw [hc]
    exact ⟨by decide, rfl⟩
  · rw [uninterrupted_char hc, Bool.and_eq_true, Bool.and_eq_true] at h
    exact ⟨by simpa using h.1.1, h.1.2⟩

/-- What a heredoc makes of an escape has one character, or two. -/
theorem length_heredoc_escape (esc : Char) : 1 ≤ (heredoc_escape esc).length ∧ (heredoc_escape esc).length ≤ 2 := by
  unfold heredoc_escape
  split <;> simp

end texts

/-! ### The escapes of strings -/

/-- The bytes a string's scanner may make of an escape and the text that goes
with it. -/
structure Unescaped (esc : Char) (more bytes : List Char) : Prop where
  length : 1 ≤ bytes.length ∧ bytes.length ≤ 2 + more.length / 2
  shared : shared_escape esc = true → more = [] ∧ bytes = heredoc_escape esc
  other : shared_escape esc = false → heredoc_escape esc = ['\\', esc] ∧
    (bytes.length = 1 ∨ bytes.head? ≠ some '\\')

/-- The bytes a string's scanner may make of a text. -/
inductive StringText : List Char → List Char → Prop where
  | nil : StringText [] []
  | char {c : Char} {s bytes : List Char} (plain : c ≠ '\\') (rest : StringText s bytes) :
    StringText (c :: s) (c :: bytes)
  | escape {esc : Char} {more s bytes rest_bytes : List Char} (unescaped : Unescaped esc more bytes)
      (rest : StringText s rest_bytes) : StringText ('\\' :: esc :: (more ++ s)) (bytes ++ rest_bytes)

theorem StringText.append {s s' bytes bytes' : List Char} (h : StringText s bytes) (h' : StringText s' bytes') :
    StringText (s ++ s') (bytes ++ bytes') := by
  induction h with
  | nil => exact h'
  | char plain _ ih => exact .char plain ih
  | escape unescaped _ ih =>
    rw [List.cons_append, List.cons_append, List.append_assoc, List.append_assoc]
    exact .escape unescaped ih

/-- A heredoc makes so many bytes of a text, also where it takes the backslash in
front for a part of it. -/
structure NoLonger (bytes s : List Char) : Prop where
  aligned : bytes.length ≤ (heredoc_text s).length
  behind : ∀ c s', s = c :: s' → bytes.length ≤ 1 + (heredoc_text s').length

theorem NoLonger.more {bytes s : List Char} (h : NoLonger bytes s) (more : List Char) :
    bytes.length + more.length / 2 ≤ (heredoc_text (more ++ s)).length := by
  induction more using escapes_induction with
  | nil => exact h.aligned
  | lone =>
    cases s with
    | nil =>
      have hnone := h.aligned
      rw [heredoc_text] at hnone
      exact Nat.le_succ_of_le hnone
    | cons c s =>
      have hbehind := h.behind c s rfl
      have hescape := (length_heredoc_escape c).1
      rw [List.singleton_append, heredoc_text_escape, List.length_append, List.length_singleton]
      omega
  | escape esc more ih =>
    have hescape := (length_heredoc_escape esc).1
    rw [List.cons_append, List.cons_append, heredoc_text_escape, List.length_append, List.length_cons, List.length_cons]
    omega
  | char c more hc ih =>
    rw [List.cons_append, heredoc_text_char hc, List.length_cons, List.length_cons]
    omega

/-- A string's scanner makes no more bytes of a text than a heredoc. -/
theorem StringText.noLonger {s bytes : List Char} (h : StringText s bytes) : NoLonger bytes s := by
  induction h with
  | nil => exact ⟨Nat.le_refl 0, nofun⟩
  | @char c s bytes plain rest ih =>
    have haligned := ih.aligned
    refine ⟨?_, fun c' s' heq => ?_⟩
    · rw [heredoc_text_char plain, List.length_cons, List.length_cons]
      omega
    · obtain ⟨-, rfl⟩ := List.cons.inj heq
      rw [List.length_cons]
      omega
  | @escape esc more s bytes rest_bytes unescaped rest ih =>
    have hlength := unescaped.length.2
    have hmore := ih.more more
    refine ⟨?_, fun c' s' heq => ?_⟩
    · rw [heredoc_text_escape, List.length_append, List.length_append]
      cases hshared : shared_escape esc with
      | true =>
        obtain ⟨rfl, rfl⟩ := unescaped.shared hshared
        rw [List.nil_append] at hmore ⊢
        omega
      | false =>
        have htwo : (heredoc_escape esc).length = 2 := by
          rw [(unescaped.other hshared).1]
          rfl
        omega
    · obtain ⟨-, rfl⟩ := List.cons.inj heq
      rw [List.length_append]
      by_cases hesc : esc = '\\'
      · subst hesc
        obtain ⟨rfl, rfl⟩ := unescaped.shared rfl
        have hlone := ih.more ['\\']
        have hone : (heredoc_escape '\\').length = 1 := rfl
        rw [List.nil_append]
        rw [List.singleton_append, List.length_singleton] at hlone
        omega
      · rw [heredoc_text_char hesc, List.length_cons]
        omega

/-- The bytes are the same only if all escapes are shared. -/
theorem StringText.shared {s bytes : List Char} (h : StringText s bytes) (hbytes : bytes = heredoc_text s) :
    shared_escapes s = true := by
  induction h with
  | nil => rfl
  | @char c s bytes plain rest ih =>
    rw [heredoc_text_char plain] at hbytes
    rw [shared_escapes_char plain]
    exact ih (List.cons.inj hbytes).2
  | @escape esc more s bytes rest_bytes unescaped rest ih =>
    rw [heredoc_text_escape] at hbytes
    rw [shared_escapes_escape]
    cases hshared : shared_escape esc with
    | true =>
      obtain ⟨rfl, rfl⟩ := unescaped.shared hshared
      rw [List.nil_append] at hbytes ⊢
      rw [ih (List.append_cancel_left hbytes)]
      rfl
    | false =>
      obtain ⟨htext, hfirst⟩ := unescaped.other hshared
      rw [htext] at hbytes
      refine absurd hbytes fun hsame => ?_
      obtain hone | hhead := hfirst
      · have hmore := rest.noLonger.more more
        have hlength := congrArg List.length hsame
        simp only [List.length_append, List.length_cons, List.length_nil] at hlength
        omega
      · have hpos := unescaped.length.1
        cases bytes with
        | nil => exact absurd hpos (by decide)
        | cons b bytes => exact hhead (congrArg some (List.cons.inj hsame).1)

theorem hex_value_lt {c : Char} {digit : Nat} (h : hex_value c = some digit) : digit < 16 := by
  have hle : ∀ a b : Char, a ≤ b ↔ a.toNat ≤ b.toNat := fun _ _ => Iff.rfl
  unfold hex_value at h
  simp only [isdigit, Bool.and_eq_true, decide_eq_true_eq, hle, Char.reduceToNat] at h
  split_ifs at h
  all_goals
    have hvalue := Option.some.inj h
    omega

theorem push_hex_lt {cp k : Nat} (h : cp < 16 ^ k) (c : Char) : push_hex cp c < 16 ^ (k + 1) := by
  have hpow : 16 ^ (k + 1) = 16 ^ k * 16 := pow_succ 16 k
  unfold push_hex
  split
  case h_1 digit hdigit =>
    have hlt := hex_value_lt hdigit
    have hmod := Nat.mod_le (cp * 16 + digit) (2 ^ 64)
    omega
  case h_2 => omega

/-- A code point of so many digits has no more bytes. -/
theorem length_utf8_bytes {cp k : Nat} (h : cp < 16 ^ k) : (utf8_bytes cp).length ≤ 2 + k / 2 := by
  have hpow : ∀ m, k ≤ m → cp < 16 ^ m := fun m hm => Nat.lt_of_lt_of_le h (Nat.pow_le_pow_right (by decide) hm)
  unfold utf8_bytes
  split
  · simp only [List.length_singleton]
    omega
  · split
    · simp only [List.length_cons, List.length_nil]
      omega
    · have hk : 2 ≤ k := by
        by_contra hnot
        have hsmall := hpow 1 (by omega)
        omega
      split
      · simp only [List.length_cons, List.length_nil]
        omega
      · have hk : 4 ≤ k := by
          by_contra hnot
          have hsmall := hpow 3 (by omega)
          omega
        simp only [List.length_cons, List.length_nil]
        omega

theorem length_utf8_bytes_pos (cp : Nat) : 1 ≤ (utf8_bytes cp).length := by
  unfold utf8_bytes
  split_ifs
  all_goals exact Nat.succ_le_succ (Nat.zero_le _)

/-- Only the code point of a backslash has bytes that begin with one. -/
theorem utf8_bytes_head (cp : Nat) : (utf8_bytes cp).length = 1 ∨ (utf8_bytes cp).head? ≠ some '\\' := by
  -- the first of several bytes has its highest bit set
  have hhigh : ∀ mark rest : Nat, mark.testBit 7 = true → byte (mark ||| rest) ≠ '\\' := by
    intro mark rest hmark hbyte
    have hchar : byte (mark ||| rest) = char_of (UInt8.ofNat (mark ||| rest)) := by
      rw [char_of, UInt8.toNat_ofNat']
      rfl
    have hvalue : (mark ||| rest) % 256 = 92 := by
      have htoNat := congrArg Char.toNat (hchar.symm.trans hbyte)
      rw [char_of_toNat, UInt8.toNat_ofNat'] at htoNat
      exact htoNat
    have hbit : ((mark ||| rest) % 2 ^ 8).testBit 7 = true := by
      rw [Nat.testBit_mod_two_pow, Nat.testBit_or, hmark]
      rfl
    rw [show (mark ||| rest) % 2 ^ 8 = 92 from hvalue] at hbit
    exact absurd hbit (by decide)
  unfold utf8_bytes
  split
  · exact .inl rfl
  · refine .inr ?_
    split
    · exact fun h => hhigh 0xC0 _ rfl (Option.some.inj h)
    · split
      · exact fun h => hhigh 0xE0 _ rfl (Option.some.inj h)
      · exact fun h => hhigh 0xF0 _ rfl (Option.some.inj h)

namespace Lexer

/-- The lexer passes over a text. -/
def Reads (l : Lexer) (text : List Char) (l' : Lexer) : Prop := Passed l l' ∧ l.ahead = text ++ l'.ahead

section reading
variable {l l' l'' : Lexer} {text : List Char}

theorem Reads.refl (l : Lexer) : Reads l [] l := ⟨.refl l, rfl⟩

theorem Reads.trans {more : List Char} (h : Reads l text l') (h' : Reads l' more l'') : Reads l (text ++ more) l'' :=
  ⟨h.1.trans h'.1, by rw [h.2, h'.2, List.append_assoc]⟩

theorem reads_advance (h : l.at_end = false) : Reads l [l.peek_ch] l.advance := by
  refine ⟨l.passed_advance, ?_⟩
  rw [at_end_eq] at h
  rw [ahead_advance, peek_ch_eq]
  cases hahead : l.ahead with
  | nil =>
    rw [hahead] at h
    cases h
  | cons c rest => rfl

theorem reads_hex_digits (count : Nat) (l : Lexer) (val digits : Nat) :
    ∃ text, Reads l text (hex_digits count l val digits).2.2 := by
  induction count generalizing l val digits with
  | zero => exact ⟨[], .refl l⟩
  | succ count ih =>
    simp only [hex_digits]
    split
    case h_1 digit hdigit =>
      have hend : l.at_end = false := by
        rw [Bool.eq_false_iff]
        intro hend
        rw [if_pos hend] at hdigit
        cases hdigit
      obtain ⟨text, htext⟩ := ih l.advance (val * 16 + digit) (digits + 1)
      exact ⟨_, (reads_advance hend).trans htext⟩
    case h_2 => exact ⟨[], .refl l⟩

theorem reads_octal_digits (count : Nat) (l : Lexer) (val : Nat) :
    ∃ text, Reads l text (octal_digits count l val).2 := by
  induction count generalizing l val with
  | zero => exact ⟨[], .refl l⟩
  | succ count ih =>
    simp only [octal_digits]
    split
    case isTrue hgoes =>
      obtain ⟨hend, -⟩ := Bool.and_eq_true_iff.mp hgoes
      obtain ⟨text, htext⟩ := ih l.advance (val * 8 + (l.peek_ch.toNat - '0'.toNat))
      exact ⟨_, (reads_advance (by simpa using hend)).trans htext⟩
    case isFalse => exact ⟨[], .refl l⟩

theorem reads_plain_digits (count : Nat) (l : Lexer) {cp k : Nat} (h : cp < 16 ^ k) :
    ∃ text, Reads l text (plain_digits count l cp).2 ∧ (plain_digits count l cp).1 < 16 ^ (k + text.length) := by
  induction count generalizing l cp k with
  | zero => exact ⟨[], .refl l, h⟩
  | succ count ih =>
    simp only [plain_digits]
    split
    case isTrue => exact ⟨[], .refl l, h⟩
    case isFalse hend =>
      obtain ⟨text, htext, hcp⟩ := ih l.advance (push_hex_lt h l.peek_ch)
      refine ⟨_, (reads_advance (by simpa using hend)).trans htext, ?_⟩
      rw [List.length_append, List.length_singleton, ← Nat.add_assoc]
      exact hcp

theorem reads_braced_digits (fuel : Nat) (l : Lexer) {cp k : Nat} (h : cp < 16 ^ k) :
    ∃ text, Reads l text (braced_digits fuel l cp).2 ∧ (braced_digits fuel l cp).1 < 16 ^ (k + text.length) := by
  induction fuel generalizing l cp k with
  | zero => exact ⟨[], .refl l, h⟩
  | succ fuel ih =>
    simp only [braced_digits]
    split
    case isTrue => exact ⟨[], .refl l, h⟩
    case isFalse hend =>
      have hgoes : l.at_end = false := by
        simp only [Bool.or_eq_true, decide_eq_true_eq, not_or, Bool.not_eq_true] at hend
        exact hend.1
      obtain ⟨text, htext, hcp⟩ := ih l.advance (push_hex_lt h l.peek_ch)
      refine ⟨_, (reads_advance hgoes).trans htext, ?_⟩
      rw [List.length_append, List.length_singleton, ← Nat.add_assoc]
      exact hcp

theorem escapes_simple {esc c : Char} (h : simple_escape esc = some c) :
    (shared_escape esc = true → [c] = heredoc_escape esc) ∧
      (shared_escape esc = false → heredoc_escape esc = ['\\', esc]) := by
  unfold simple_escape at h
  split at h
  all_goals first | (cases h; exact ⟨by decide, by decide⟩) | cases h

theorem not_shared {esc : Char} (h : esc = 'x' ∨ esc = 'u' ∨ is_octal esc = true) :
    shared_escape esc = false ∧ heredoc_escape esc = ['\\', esc] := by
  obtain rfl | rfl | hoctal := h
  · exact ⟨rfl, rfl⟩
  · exact ⟨rfl, rfl⟩
  · have hplain : ∀ c : Char, is_octal c = false → esc ≠ c := fun c hc heq => by
      rw [heq, hc] at hoctal
      cases hoctal
    constructor
    · simp only [shared_escape, hplain 'n' rfl, hplain 't' rfl, hplain 'r' rfl, hplain '\\' rfl, hplain '#' rfl, hoctal]
      simp
    · unfold heredoc_escape
      split
      case h_1 => exact absurd rfl (hplain 'n' rfl)
      case h_2 => exact absurd rfl (hplain 't' rfl)
      case h_3 => exact absurd rfl (hplain 'r' rfl)
      case h_4 => exact absurd rfl (hplain '\\' rfl)
      case h_5 => exact absurd rfl (hplain '#' rfl)
      case h_6 => rfl

/-- An escape that neither of the two knows. -/
theorem shared_unknown {esc : Char} (hsimple : simple_escape esc = none) (hx : esc ≠ 'x') (hu : esc ≠ 'u')
    (hoctal : is_octal esc = false) : shared_escape esc = true ∧ heredoc_escape esc = ['\\', esc] := by
  have hplain : ∀ c : Char, simple_escape c ≠ none → esc ≠ c := fun c hc heq => hc (heq ▸ hsimple)
  constructor
  · simp [shared_escape, hsimple, hx, hu, hoctal]
  · unfold heredoc_escape
    split
    case h_1 => exact absurd rfl (hplain 'n' (by decide))
    case h_2 => exact absurd rfl (hplain 't' (by decide))
    case h_3 => exact absurd rfl (hplain 'r' (by decide))
    case h_4 => exact absurd rfl (hplain '\\' (by decide))
    case h_5 => exact absurd rfl (hplain '#' (by decide))
    case h_6 => rfl

theorem reads_hex_escape (l : Lexer) : ∃ text, Reads l text l.hex_escape.2 ∧ l.hex_escape.1.length = 1 := by
  obtain ⟨text, htext⟩ := reads_hex_digits 2 l 0 0
  refine ⟨text, htext, ?_⟩
  simp only [hex_escape]
  split <;> rfl

theorem reads_unicode_escape (l : Lexer) :
    ∃ text cp, Reads l text l.unicode_escape.2 ∧ l.unicode_escape.1 = utf8_bytes cp ∧ cp < 16 ^ text.length := by
  simp only [unicode_escape]
  split
  case isTrue hbrace =>
    have hgoes : l.at_end = false := by
      simpa using (Bool.and_eq_true_iff.mp hbrace).1
    obtain ⟨text, htext, hcp⟩ := reads_braced_digits (l.len - l.pos) l.advance (show 0 < 16 ^ 0 by decide)
    have hopen := (reads_advance hgoes).trans htext
    rw [Nat.zero_add] at hcp
    generalize braced_digits (l.len - l.pos) l.advance 0 = read at *
    have hmore : ∀ k, text.length ≤ k → read.1 < 16 ^ k := fun k hk =>
      Nat.lt_of_lt_of_le hcp (Nat.pow_le_pow_right (by decide) hk)
    dsimp only
    split
    case isTrue =>
      refine ⟨_, read.1, hopen, rfl, hmore _ ?_⟩
      rw [List.length_append]
      omega
    case isFalse hclosed =>
      refine ⟨_, read.1, hopen.trans (reads_advance (by simpa using hclosed)), rfl, hmore _ ?_⟩
      rw [List.length_append, List.length_append]
      omega
  case isFalse =>
    obtain ⟨text, htext, hcp⟩ := reads_plain_digits 4 l (show 0 < 16 ^ 0 by decide)
    rw [Nat.zero_add] at hcp
    exact ⟨text, _, htext, rfl, hcp⟩

theorem escapes_string_escape (l : Lexer) (hend : l.at_end = false) :
    ∃ more, Reads l (l.peek_ch :: more) l.string_escape.2 ∧ Unescaped l.peek_ch more l.string_escape.1 := by
  have hadvance := reads_advance hend
  simp only [string_escape]
  split
  case h_1 c hsimple =>
    obtain ⟨hshared, hother⟩ := escapes_simple hsimple
    exact ⟨[], hadvance, ⟨Nat.le_refl 1, Nat.le_succ 1⟩, fun h => ⟨rfl, hshared h⟩, fun h => ⟨hother h, .inl rfl⟩⟩
  case h_2 hsimple =>
    split
    case isTrue hx =>
      obtain ⟨hother, htext⟩ := not_shared (.inl hx)
      obtain ⟨text, hreads, hlength⟩ := reads_hex_escape l.advance
      refine ⟨text, hadvance.trans hreads, by omega, fun h => ?_, fun _ => ⟨htext, .inl hlength⟩⟩
      rw [hother] at h
      cases h
    case isFalse hx =>
      split
      case isTrue hu =>
        obtain ⟨hother, htext⟩ := not_shared (.inr (.inl hu))
        obtain ⟨text, cp, hreads, hbytes, hcp⟩ := reads_unicode_escape l.advance
        refine ⟨text, hadvance.trans hreads, ?_, fun h => ?_, fun _ => ⟨htext, ?_⟩⟩
        · rw [hbytes]
          exact ⟨length_utf8_bytes_pos cp, length_utf8_bytes hcp⟩
        · rw [hother] at h
          cases h
        · rw [hbytes]
          exact utf8_bytes_head cp
      case isFalse hu =>
        split
        case isTrue hoctal =>
          obtain ⟨hother, htext⟩ := not_shared (.inr (.inr hoctal))
          obtain ⟨text, hreads⟩ := reads_octal_digits 2 l.advance (l.peek_ch.toNat - '0'.toNat)
          refine ⟨text, hadvance.trans hreads, ⟨Nat.le_refl 1, ?_⟩, fun h => ?_, fun _ => ⟨htext, .inl rfl⟩⟩
          · rw [List.length_singleton]
            omega
          · rw [hother] at h
            cases h
        case isFalse hoctal =>
          obtain ⟨hshared, htext⟩ := shared_unknown hsimple hx hu (by simpa using hoctal)
          refine ⟨[], hadvance, ⟨Nat.le_succ 1, Nat.le_refl 2⟩, fun _ => ⟨rfl, htext.symm⟩, fun h => ?_⟩
          rw [hshared] at h
          cases h

end reading

/-! ### The scanners -/

/-- The lexer is inside a string in double quotes. -/
structure InQuotes (l : Lexer) : Prop where
  peeked : l.peeked = none
  top : l.imode_top = .interp_str
  not_body : l.in_body = false
  close : l.closing_char = '"'

section scanning
variable {l l' : Lexer} {n : Nat} {at_bol : Bool} {s tail : List Char}

theorem Passed.inQuotes (h : Passed l l') (hl : InQuotes l) : InQuotes l' := by
  cases h
  exact ⟨hl.peeked, hl.top, hl.not_body, hl.close⟩

theorem InQuotes.after_token (h : InQuotes l) (t : Token) : InQuotes (l.after_token t) := by
  obtain ⟨state, prev_was_dot, after_def, heq⟩ := l.after_token_frame t
  rw [heq]
  exact ⟨h.peeked, h.top, h.not_body, h.close⟩

/-- What a string's scanner has read, where the text does not end. -/
theorem string_content_text (close_ch : Char) (fuel : Nat) (l : Lexer) :
    ∃ text, Reads l text (string_content close_ch fuel l).2 ∧
      ((string_content close_ch fuel l).2.ahead ≠ [] → StringText text (string_content close_ch fuel l).1) := by
  induction fuel generalizing l with
  | zero => exact ⟨[], .refl l, fun _ => .nil⟩
  | succ fuel ih =>
    simp only [string_content]
    split
    case isTrue => exact ⟨[], .refl l, fun _ => .nil⟩
    case isFalse hgoes =>
      have hend : l.at_end = false := by
        simp only [Bool.or_eq_true, not_or, Bool.not_eq_true] at hgoes
        exact hgoes.1.1
      have hadvance := reads_advance hend
      split
      case isTrue hescape =>
        split
        case isTrue hlast =>
          rw [at_end_eq, List.isEmpty_iff] at hlast
          exact ⟨_, hadvance, fun hbehind => absurd hlast hbehind⟩
        case isFalse hlast =>
          obtain ⟨more, hreads, hunescaped⟩ := escapes_string_escape l.advance (by simpa using hlast)
          obtain ⟨text, htext, hbytes⟩ := ih l.advance.string_escape.2
          refine ⟨l.peek_ch :: l.advance.peek_ch :: (more ++ text), (hadvance.trans hreads).trans htext, ?_⟩
          intro hbehind
          rw [hescape]
          exact .escape hunescaped (hbytes hbehind)
      case isFalse hplain =>
        obtain ⟨text, htext, hbytes⟩ := ih l.advance
        exact ⟨l.peek_ch :: text, hadvance.trans htext, fun hbehind => .char hplain (hbytes hbehind)⟩

theorem not_at_interpolation {c : Char} {rest : List Char} (hahead : l.ahead = c :: s ++ '"' :: rest)
    (hopener : (!(decide (c = '#') && decide (s.headD '\x00' = '{'))) = true) : l.at_interpolation = false := by
  have hhead : (s ++ '"' :: rest).headD '\x00' = '{' → s.headD '\x00' = '{' := by
    cases s with
    | nil => exact fun h => absurd h (by decide : ¬ '"' = '{')
    | cons d s => exact id
  rw [at_interpolation, peek_ch_eq, peek2_eq, hahead, List.cons_append, List.tail_cons, List.headD_cons, Bool.eq_false_iff]
  intro hboth
  rw [Bool.and_eq_true, decide_eq_true_eq, decide_eq_true_eq] at hboth
  rw [hboth.1, hhead hboth.2] at hopener
  exact absurd hopener (by decide)

/-- Shared escapes are read by a string as by a heredoc. -/
theorem string_content_shared (s : List Char) {rest : List Char} (hshared : shared_escapes s = true)
    (hs : uninterrupted s = true) {fuel : Nat} (hfuel : s.length ≤ fuel) (hahead : l.ahead = s ++ '"' :: rest) :
    ∃ l', string_content '"' fuel l = (heredoc_text s, l') ∧ Passed l l' ∧ l'.ahead = '"' :: rest := by
  induction s using escapes_induction generalizing l fuel with
  | nil =>
    have hclose : l.peek_ch = '"' := by
      rw [peek_ch_eq, hahead]
      rfl
    refine ⟨l, ?_, .refl l, hahead⟩
    cases fuel with
    | zero => rfl
    | succ fuel =>
      rw [string_content, hclose]
      simp only [decide_true, Bool.or_true, Bool.true_or, if_true]
      rfl
  | lone => exact absurd hshared (by decide)
  | escape esc s ih =>
    rw [shared_escapes_escape, Bool.and_eq_true] at hshared
    rw [uninterrupted_escape] at hs
    simp only [List.length_cons] at hfuel
    obtain ⟨fuel, rfl⟩ : ∃ k, fuel = k + 1 := ⟨fuel - 1, by omega⟩
    have hless : s.length ≤ fuel := by omega
    have hpeek : l.peek_ch = '\\' := by
      rw [peek_ch_eq, hahead]
      rfl
    have hnext : l.advance.ahead = esc :: (s ++ '"' :: rest) := by
      rw [ahead_advance, hahead]
      rfl
    have hend : l.at_end = false ∧ l.advance.at_end = false := by
      rw [at_end_eq, at_end_eq, hahead, hnext]
      exact ⟨rfl, rfl⟩
    have hopener : l.at_interpolation = false := by
      rw [at_interpolation, hpeek]
      rfl
    have hesc : l.advance.peek_ch = esc := by
      rw [peek_ch_eq, hnext]
      rfl
    obtain ⟨more, hreads, hunescaped⟩ := escapes_string_escape l.advance hend.2
    rw [hesc] at hreads hunescaped
    obtain ⟨rfl, hbytes⟩ := hunescaped.shared hshared.1
    have hbehind : l.advance.string_escape.2.ahead = s ++ '"' :: rest := by
      have hsplit := hreads.2
      rw [hnext] at hsplit
      exact (List.cons.inj hsplit).2.symm
    obtain ⟨l', hcontent, hpassed, hquote⟩ := ih hshared.2 hs hless hbehind
    refine ⟨l', ?_, l.passed_advance.trans (hreads.1.trans hpassed), hquote⟩
    rw [string_content, hpeek]
    simp only [hend, hopener, Char.reduceEq, decide_false, Bool.or_self, Bool.false_eq_true, if_false, if_true, hbytes,
      hcontent, heredoc_text_escape]
  | char c s hc ih =>
    rw [shared_escapes_char hc] at hshared
    rw [uninterrupted_char hc, Bool.and_eq_true, Bool.and_eq_true] at hs
    obtain ⟨⟨hquote, hopener⟩, hs⟩ := hs
    simp only [List.length_cons] at hfuel
    obtain ⟨fuel, rfl⟩ : ∃ k, fuel = k + 1 := ⟨fuel - 1, by omega⟩
    have hless : s.length ≤ fuel := by omega
    have hpeek : l.peek_ch = c := by
      rw [peek_ch_eq, hahead]
      rfl
    have hend : l.at_end = false := by
      rw [at_end_eq, hahead]
      rfl
    have hnext : l.advance.ahead = s ++ '"' :: rest := by
      rw [ahead_advance, hahead]
      rfl
    have hgoes := not_at_interpolation hahead hopener
    obtain ⟨l', hcontent, hpassed, hclose⟩ := ih hshared hs hless hnext
    refine ⟨l', ?_, l.passed_advance.trans hpassed, hclose⟩
    have hnot : c ≠ '"' := by simpa using hquote
    rw [string_content, hpeek]
    simp only [hend, hgoes, hnot, hc, decide_false, Bool.or_self, Bool.false_eq_true, if_false, hcontent,
      heredoc_text_char hc]

/-- No interpolation begins with a character that none begins with in the text. -/
theorem InBody.goes_on {c : Char} (h : InBody n at_bol (c :: s) l)
    (hopener : (!(decide (c = '#') && decide (s.headD '\x00' = '{'))) = true) :
    (decide (c = '#') && decide (l.pos + 1 < l.hd_body_end) && decide (l.peek2 = '{')) = false := by
  rw [Bool.eq_false_iff]
  intro hboth
  simp only [Bool.and_eq_true, decide_eq_true_eq] at hboth
  obtain ⟨⟨rfl, hinside⟩, hbrace⟩ := hboth
  have hleft := h.left
  obtain ⟨behind, hahead⟩ := h.ahead
  cases s with
  | nil =>
    rw [List.length_singleton] at hleft
    omega
  | cons d s =>
    rw [peek2_eq, hahead] at hbrace
    obtain rfl : d = '{' := hbrace
    simp at hopener

/-- A heredoc's body is read up to its end. -/
theorem InBody.content_text (s : List Char) (hs : uninterrupted s = true) (hline : 0 < n → '\n' ∉ s) {fuel : Nat}
    (hfuel : s.length ≤ fuel) (h : InBody n at_bol s l) :
    ∃ l', heredoc_content fuel l = (heredoc_text s, l') ∧ InBody n at_bol [] l' := by
  induction s using escapes_induction generalizing l fuel with
  | nil =>
    refine ⟨l, ?_, h⟩
    cases fuel with
    | zero => rfl
    | succ fuel =>
      rw [heredoc_content]
      simp only [h.at_end, decide_true, Bool.true_or, if_true]
      rfl
  | lone =>
    obtain ⟨fuel, rfl⟩ : ∃ k, fuel = k + 1 := ⟨fuel - 1, by rw [List.length_singleton] at hfuel; omega⟩
    refine ⟨l.advance, ?_, h.advance⟩
    rw [heredoc_content, h.peek_ch]
    simp only [Nat.not_le.mpr h.not_at_end, h.advance.at_end, Char.reduceEq, decide_false, Bool.false_and,
      Bool.or_self, Bool.false_eq_true, if_false, if_true]
    rfl
  | escape esc s ih =>
    rw [uninterrupted_escape] at hs
    simp only [List.length_cons] at hfuel
    obtain ⟨fuel, rfl⟩ : ∃ k, fuel = k + 1 := ⟨fuel - 1, by omega⟩
    have hless : s.length ≤ fuel := by omega
    have hmore : 0 < n → '\n' ∉ s := fun hn hmem =>
      hline hn (List.mem_cons_of_mem _ (List.mem_cons_of_mem _ hmem))
    obtain ⟨l', hcontent, hend⟩ := ih hs hmore hless h.advance.advance
    refine ⟨l', ?_, hend⟩
    rw [heredoc_content, h.peek_ch]
    simp only [Nat.not_le.mpr h.not_at_end, Nat.not_le.mpr h.advance.not_at_end, h.advance.peek_ch, Char.reduceEq,
      decide_false, Bool.false_and, Bool.or_self, Bool.false_eq_true, if_false, if_true, hcontent, heredoc_text_escape]
  | char c s hc ih =>
    rw [uninterrupted_char hc, Bool.and_eq_true, Bool.and_eq_true] at hs
    obtain ⟨⟨-, hopener⟩, hs⟩ := hs
    simp only [List.length_cons] at hfuel
    obtain ⟨fuel, rfl⟩ : ∃ k, fuel = k + 1 := ⟨fuel - 1, by omega⟩
    have hless : s.length ≤ fuel := by omega
    have hmore : 0 < n → '\n' ∉ s := fun hn hmem => hline hn (List.mem_cons_of_mem _ hmem)
    obtain ⟨l', hcontent, hend⟩ := ih hs hmore hless h.advance
    refine ⟨l', ?_, hend⟩
    have hdivides : (decide (c = '\n') && decide (0 < l.hd_min_indent)) = false := by
      rw [h.min_indent, Bool.eq_false_iff]
      intro hboth
      rw [Bool.and_eq_true, decide_eq_true_eq, decide_eq_true_eq] at hboth
      exact hline hboth.2 (hboth.1 ▸ List.mem_cons_self)
    rw [heredoc_content, h.peek_ch]
    simp only [Nat.not_le.mpr h.not_at_end, h.goes_on hopener, hc, hdivides, decide_false, Bool.or_self,
      Bool.false_eq_true, if_false, hcontent, heredoc_text_char hc]

theorem Segments.unique {text text' : List Char} {stop stop' : Lexer} (h : Segments l text stop)
    (h' : Segments l text' stop') : text = text' := by
  induction h generalizing text' with
  | done peeked ends behind =>
    cases h' with
    | done => rfl
    | literal _ kind =>
      rw [ends] at kind
      cases kind
  | @literal l stop text rest peeked kind sval slen more ih =>
    cases h' with
    | done _ ends =>
      rw [kind] at ends
      cases ends
    | literal _ _ sval' _ more' =>
      rw [sval] at sval'
      rw [String.ofList_injective (Option.some.inj sval'), ih more']

theorem after_token_ahead (l : Lexer) (t : Token) : (l.after_token t).ahead = l.ahead := by
  obtain ⟨_, _, _, heq⟩ := l.after_token_frame t
  rw [heq]
  rfl

theorem InQuotes.lexer_next_eq (h : InQuotes l) :
    l.lexer_next = (l.scan_interp_str_content.1,
      l.scan_interp_str_content.2.after_token l.scan_interp_str_content.1) := by
  have hscan : l.scan = l.scan_interp_str_content := by
    have hbody := h.not_body
    simp only [in_body, h.top, decide_true, Bool.true_and] at hbody
    simp only [scan, h.top, hbody, Bool.false_eq_true, if_false]
  simp only [lexer_next, h.peeked, hscan]

theorem InQuotes.literal (h : InQuotes l) {text : List Char} (kind : l.lexer_next.1.kind = .interp_lit)
    (sval : l.lexer_next.1.sval = some (intern text)) :
    ∃ l', string_content '"' (l.len - l.pos) l = (text, l') ∧ l.lexer_next.2 = l'.after_token l.lexer_next.1 := by
  have hnext := h.lexer_next_eq
  generalize l.lexer_next = next at *
  subst hnext
  dsimp only at kind sval ⊢
  rw [scan_interp_str_content, h.close] at kind sval ⊢
  dsimp only at kind sval ⊢
  split at kind
  · cases kind
  · rename_i hclose
    split at kind
    · cases kind
    · rename_i hopener
      rw [if_neg hclose, if_neg hopener] at sval ⊢
      generalize string_content '"' (l.len - l.pos) l = content at *
      exact ⟨content.2, congrArg (·, content.2) (String.ofList_injective (Option.some.inj sval)), rfl⟩

/-- The segments of a string are made of the text in front of its end. -/
theorem Segments.stringText {bytes : List Char} {stop : Lexer} (h : Segments l bytes stop) (hl : InQuotes l)
    (hstop : stop.ahead ≠ []) : ∃ s, l.ahead = s ++ stop.ahead ∧ StringText s bytes := by
  induction h with
  | done => exact ⟨[], rfl, .nil⟩
  | @literal l stop text rest peeked kind sval slen more ih =>
    obtain ⟨l', hcontent, hnext⟩ := hl.literal kind sval
    have hstring := string_content_text '"' (l.len - l.pos) l
    rw [hcontent] at hstring
    obtain ⟨front, hreads, hfront⟩ := hstring
    obtain ⟨s, hs, hbytes⟩ := ih (hnext ▸ (hreads.1.inQuotes hl).after_token _) hstop
    rw [hnext, after_token_ahead] at hs
    have hne : l'.ahead ≠ [] := fun hnil => by
      rw [hnil] at hs
      exact hstop (List.append_eq_nil_iff.mp hs.symm).2
    refine ⟨front ++ s, ?_, (hfront hne).append hbytes⟩
    rw [hreads.2, hs, List.append_assoc]

/-- The law: both scanners read a text as the same bytes, that of strings up to the
closing quote. -/
def SameBytes (rest : List Char) (body string : Lexer) : Prop :=
  ∃ bytes stop stop', Segments body bytes stop ∧ Segments string bytes stop' ∧ stop'.ahead = '"' :: rest

/-- A string that ends here. -/
theorem InQuotes.segments_quote {rest : List Char} (h : InQuotes l) (hahead : l.ahead = '"' :: rest) : Segments l [] l := by
  have hquote : l.peek_ch = '"' := by
    rw [peek_ch_eq, hahead]
    rfl
  have hend : l.at_end = false := by
    rw [at_end_eq, hahead]
    rfl
  have hnext := h.lexer_next_eq
  rw [scan_interp_str_content, h.close, hquote] at hnext
  simp only [hend, decide_true, Bool.or_true, if_true, Bool.false_eq_true, if_false] at hnext
  refine .done h.peeked ?_ ?_
  · rw [hnext]
  · rw [hnext, after_token_peeked]
    exact l.passed_advance.peeked.trans h.peeked

theorem InQuotes.segments_shared {rest : List Char} (h : InQuotes l) (hahead : l.ahead = s ++ '"' :: rest)
    (hs : uninterrupted s = true) (hshared : shared_escapes s = true) :
    ∃ stop, Segments l (heredoc_text s) stop ∧ stop.ahead = '"' :: rest := by
  cases s with
  | nil => exact ⟨l, h.segments_quote hahead, hahead⟩
  | cons c s =>
    obtain ⟨hquote, hopener⟩ := uninterrupted_begins hs
    have hfuel : (c :: s).length ≤ l.len - l.pos := by
      rw [← ahead_length, hahead, List.length_append]
      exact Nat.le_add_right _ _
    obtain ⟨l', hcontent, hpassed, hbehind⟩ := string_content_shared (c :: s) hshared hs hfuel hahead
    have hpeek : l.peek_ch = c := by
      rw [peek_ch_eq, hahead]
      rfl
    have hend : l.at_end = false := by
      rw [at_end_eq, hahead]
      rfl
    have hnext := h.lexer_next_eq
    rw [scan_interp_str_content, h.close, hpeek] at hnext
    simp only [hend, hquote, not_at_interpolation hahead hopener, decide_false, Bool.or_self, Bool.false_eq_true, if_false,
      hcontent, literal_segment] at hnext
    have hinside := (hpassed.inQuotes h).after_token l.lexer_next.1
    have hstop : l.lexer_next.2 = l'.after_token l.lexer_next.1 := by rw [hnext]
    rw [← hstop] at hinside
    have hahead' : l.lexer_next.2.ahead = '"' :: rest := by rw [hstop, after_token_ahead, hbehind]
    have hsegments : Segments l (heredoc_text (c :: s) ++ []) l.lexer_next.2 :=
      .literal h.peeked (by rw [hnext]) (by rw [hnext]) (by rw [hnext]) (hinside.segments_quote hahead')
    rw [List.append_nil] at hsegments
    exact ⟨_, hsegments, hahead'⟩

theorem InBody.segments_text (h : InBody n false s l) (hs : uninterrupted s = true) (hline : 0 < n → '\n' ∉ s) :
    ∃ stop, Segments l (heredoc_text s) stop := by
  have hsame : l.after_indent = l := by
    rw [Lexer.after_indent, h.at_bol]
    rfl
  cases s with
  | nil => exact ⟨l, h.segments_done⟩
  | cons c s =>
    have hinside := h
    rw [← hsame] at hinside
    obtain ⟨l', hcontent, hdone⟩ := hinside.content_text (c :: s) hs hline (Nat.le_refl _)
    have hopener : (decide (c = '#') && decide (l.after_indent.pos + 1 < l.after_indent.hd_body_end) &&
        decide (l.after_indent.peek2 = '{')) = false := hinside.goes_on (uninterrupted_begins hs).2
    obtain ⟨hkind, hsval, hslen, hnext⟩ := h.next_literal hinside hopener hcontent
    have hend := hdone.after_token l.lexer_next.1
    rw [← hnext] at hend
    have hsegments := Segments.literal h.peeked hkind hsval hslen hend.segments_done
    rw [List.append_nil] at hsegments
    exact ⟨_, hsegments⟩

theorem shared_of_same_bytes {rest : List Char} (h : InBody n false s l) (hs : uninterrupted s = true)
    (hline : 0 < n → '\n' ∉ s) (hl' : InQuotes l') (hahead : l'.ahead = s ++ '"' :: rest) (hsame : SameBytes rest l l') :
    shared_escapes s = true := by
  obtain ⟨stop, hsegments⟩ := h.segments_text hs hline
  obtain ⟨bytes, _, stop', hbytes, hquotes, hstop⟩ := hsame
  obtain rfl := hbytes.unique hsegments
  have hne : stop'.ahead ≠ [] := by
    rw [hstop]
    exact List.cons_ne_nil _ _
  obtain ⟨s', hs', htext⟩ := hquotes.stringText hl' hne
  rw [hahead, hstop] at hs'
  obtain rfl := List.append_cancel_right hs'
  exact htext.shared rfl

end scanning

/-- A heredoc and a string read a text as the same bytes exactly if all its escapes
are shared. -/
theorem same_bytes_iff {n : Nat} {s rest : List Char} {body string : Lexer} (hs : uninterrupted s = true)
    (hbody : InBody n false s body) (hline : 0 < n → '\n' ∉ s) (hstring : InQuotes string)
    (hahead : string.ahead = s ++ '"' :: rest) :
    SameBytes rest body string ↔ shared_escapes s = true := by
  refine ⟨shared_of_same_bytes hbody hs hline hstring hahead, fun hshared => ?_⟩
  obtain ⟨stop, hsegments⟩ := hbody.segments_text hs hline
  obtain ⟨stop', hquotes, hstop⟩ := hstring.segments_shared hahead hs hshared
  exact ⟨_, stop, stop', hsegments, hquotes, hstop⟩

theorem same_bytes_newline : SameBytes [] (behind 1 "<<A\n\\n\nA\n") (behind 1 "\"\\n\n\"") :=
  (same_bytes_iff (n := 0) (s := ['\\', 'n', '\n']) rfl ⟨rfl, rfl, rfl, rfl, rfl, rfl, ⟨['A', '\n'], by decide +kernel⟩, by decide +kernel⟩ nofun
    ⟨rfl, rfl, rfl, rfl⟩ (by decide +kernel)).mpr rfl

/-- A heredoc keeps the backslash of `\e`. -/
theorem escape_not_the_same : ¬ SameBytes [] (behind 1 "<<A\n\\e\nA\n") (behind 1 "\"\\e\n\"") := by
  intro hsame
  have hshared := shared_of_same_bytes (n := 0) (s := ['\\', 'e', '\n'])
    ⟨rfl, rfl, rfl, rfl, rfl, rfl, ⟨['A', '\n'], by decide +kernel⟩, by decide +kernel⟩ rfl nofun ⟨rfl, rfl, rfl, rfl⟩ (by decide +kernel) hsame
  exact absurd hshared (by decide)

end Lexer
end stoned
