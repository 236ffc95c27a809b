import Mathlib.Data.List.TakeWhile
import Stoned.Primary
import Stoned.PercentLaw

namespace stoned

/-! Lists of words, `%w[...]`, and single-quoted strings: what they are made of is
read back. -/

namespace quoted

/-- The characters that stand for something else in a list of words. -/
def is_special (c : Char) : Bool := parser.is_blank c || c = '\\' || c = '[' || c = ']'

/-- A word with a backslash before each of them. -/
def shielded (word : List Char) : List Char := word.flatMap fun c => if is_special c then ['\\', c] else [c]

/-- Words with blanks between them. -/
inductive Written : List (List Char) → List Char → Prop where
  | nil : Written [] []
  | single {word : List Char} (h : word ≠ []) : Written [word] (shielded word)
  | cons {word next blanks text : List Char} {words : List (List Char)} (h : word ≠ []) (hblanks : blanks ≠ [])
    (hblank : ∀ c ∈ blanks, parser.is_blank c = true) (hnext : Written (next :: words) text) :
    Written (word :: next :: words) (shielded word ++ (blanks ++ text))

/-- A text in which no bracket counts. -/
inductive Shut : List Char → Prop where
  | nil : Shut []
  | plain {c : Char} {text : List Char} (hc : c ≠ '\\' ∧ c ≠ '[' ∧ c ≠ ']') (h : Shut text) : Shut (c :: text)
  | pair {text : List Char} (c : Char) (h : Shut text) : Shut ('\\' :: c :: text)

/-- A string with a backslash before each quote and backslash. -/
def escaped (s : List Char) : List Char := s.flatMap fun c => if c = '\'' ∨ c = '\\' then ['\\', c] else [c]

theorem Shut.append {text rest : List Char} (h : Shut text) (hrest : Shut rest) : Shut (text ++ rest) := by
  induction h with
  | nil => exact hrest
  | plain hc _ ih => exact .plain hc ih
  | pair c _ ih => exact .pair c ih

/-- It stands inside a pair of brackets. -/
theorem Shut.inner {text : List Char} (h : Shut text) : percent.Inner '[' ']' 0 text := by
  induction h with
  | nil => exact .nil
  | plain hc _ ih => exact .plain hc ih
  | pair c _ ih => exact .pair c ih

theorem shut_of_blank {blanks : List Char} (h : ∀ c ∈ blanks, parser.is_blank c = true) : Shut blanks := by
  induction blanks with
  | nil => exact .nil
  | cons c blanks ih =>
    refine .plain ⟨?_, ?_, ?_⟩ (ih fun c hc => h c (List.mem_cons_of_mem _ hc))
    all_goals
      rintro rfl
      exact absurd (h _ (List.mem_cons_self ..)) (by decide)

theorem shut_shielded (word : List Char) : Shut (shielded word) := by
  induction word with
  | nil => exact .nil
  | cons c word ih =>
    unfold shielded at ih ⊢
    rw [List.flatMap_cons]
    split
    · exact .pair c ih
    · rename_i hplain
      refine .plain ⟨?_, ?_, ?_⟩ ih
      all_goals
        rintro rfl
        exact hplain (by decide)

theorem Written.shut {words : List (List Char)} {text : List Char} (h : Written words text) : Shut text := by
  induction h with
  | nil => exact .nil
  | single _ => exact shut_shielded _
  | cons _ _ hblank _ ih => exact (shut_shielded _).append ((shut_of_blank hblank).append ih)

end quoted

namespace Lexer
open quoted

/-- The content of a list of words is its text. -/
theorem scan_words {l : Lexer} {text after : List Char} (h : Shut text)
    (hahead : l.ahead = '%' :: 'w' :: '[' :: (text ++ ']' :: after)) :
    l.scan_here.1.kind = .words ∧ l.scan_here.1.sval = some (String.ofList text) ∧ l.scan_here.2.ahead = after := by
  have hw : l.advance.ahead = 'w' :: '[' :: (text ++ ']' :: after) := ahead_behind hahead
  have hbracket : l.advance.advance.ahead = '[' :: (text ++ ']' :: after) := ahead_behind hw
  have hcontent : l.advance.advance.advance.ahead = text ++ ']' :: after := ahead_behind hbracket
  have hlength : text.length < l.advance.advance.advance.len - l.advance.advance.advance.pos + 1 := by
    rw [← ahead_length, hcontent, List.length_append]
    omega
  obtain ⟨l', hl', hsrc, hpos⟩ := find_close_inner h.inner (by decide) (by decide) hcontent hlength
  have hscan : l.scan_here = (l'.text_tok l.pos l.line (l.col_of l.pos) .words l.advance.advance.advance.pos l'.pos, l'.advance) := by
    have hpercent : l.peek_ch = '%' := by rw [peek_ch_eq, hahead, List.headD_cons]
    have hw' : l.advance.peek_ch = 'w' := by rw [peek_ch_eq, hw, List.headD_cons]
    have hbracket' : l.advance.advance.peek_ch = '[' := by rw [peek_ch_eq, hbracket, List.headD_cons]
    have hclose : paired_delim '[' = ']' := rfl
    simp only [advance_pos] at hl'
    simp [scan_here, at_end_eq, hahead, hbracket, hpercent, scan_char, scan_percent, hw', scan_percent_list, hbracket', hclose, hl']
  have hbehind : l'.ahead = ']' :: after := by
    have hdrop : l'.ahead = l.advance.advance.advance.ahead.drop text.length := by
      rw [ahead, ahead, hsrc, hpos, List.drop_drop]
    rw [hdrop, hcontent, List.drop_left]
  rw [hscan]
  refine ⟨rfl, ?_, ?_⟩
  · change some (l'.text l.advance.advance.advance.pos l'.pos) = _
    rw [Lexer.text, hpos, hsrc, Nat.add_sub_cancel_left]
    change some (String.ofList (l.advance.advance.advance.ahead.take text.length)) = _
    rw [hcontent, List.take_left]
  · change l'.advance.ahead = after
    rw [ahead_advance, hbehind, List.tail_cons]

/-- A quoted string is read up to its closing quote. -/
theorem string_sq_content_escaped {s after : List Char} {l : Lexer} (hahead : l.ahead = escaped s ++ '\'' :: after) {fuel : Nat}
    (hfuel : s.length ≤ fuel) (buf : List Char) :
    ∃ l', string_sq_content fuel l buf = (buf ++ s, l') ∧ l'.ahead = '\'' :: after := by
  induction s generalizing l fuel buf with
  | nil =>
    refine ⟨l, ?_, hahead⟩
    rw [List.append_nil]
    cases fuel with
    | zero => rfl
    | succ fuel =>
      have hquote : l.peek_ch = '\'' := by rw [peek_ch_eq, hahead]; rfl
      simp [string_sq_content, hquote]
  | cons c s ih =>
    obtain ⟨fuel, rfl⟩ := Nat.exists_eq_succ_of_ne_zero (Nat.ne_of_gt (Nat.lt_of_lt_of_le (Nat.succ_pos _) hfuel))
    rw [escaped, List.flatMap_cons] at hahead
    by_cases hc : c = '\'' ∨ c = '\\'
    · rw [if_pos hc] at hahead
      have hskip : l.advance.ahead = c :: (escaped s ++ '\'' :: after) := by rw [ahead_advance, hahead]; rfl
      have hnext : l.advance.advance.ahead = escaped s ++ '\'' :: after := ahead_behind hskip
      obtain ⟨l', hl', hbehind⟩ := ih hnext (Nat.le_of_succ_le_succ hfuel) (buf ++ [c])
      have hpeek : l.peek_ch = '\\' := by rw [peek_ch_eq, hahead]; rfl
      have hpeek2 : l.peek2 = c := by rw [peek2_eq, ← ahead_advance, hskip, List.headD_cons]
      have hpeek' : l.advance.peek_ch = c := by rw [peek_ch_eq, hskip, List.headD_cons]
      have hend : l.at_end = false := by rw [at_end_eq, hahead]; rfl
      refine ⟨l', ?_, hbehind⟩
      rw [List.append_assoc] at hl'
      simp [string_sq_content, hend, hpeek, hpeek2, hc, hpeek']
      exact hl'
    · rw [if_neg hc] at hahead
      rw [not_or] at hc
      have hnext : l.advance.ahead = escaped s ++ '\'' :: after := by rw [ahead_advance, hahead]; rfl
      obtain ⟨l', hl', hbehind⟩ := ih hnext (Nat.le_of_succ_le_succ hfuel) (buf ++ [c])
      have hpeek : l.peek_ch = c := by rw [peek_ch_eq, hahead]; rfl
      have hend : l.at_end = false := by rw [at_end_eq, hahead]; rfl
      refine ⟨l', ?_, hbehind⟩
      rw [List.append_assoc] at hl'
      simp [string_sq_content, hend, hpeek, hc]
      exact hl'

theorem length_le_escaped (s : List Char) : s.length ≤ (escaped s).length := by
  unfold escaped
  induction s with
  | nil => exact Nat.le_refl 0
  | cons c s ih =>
    rw [List.flatMap_cons, List.length_append, List.length_cons]
    split
    · rw [List.length_cons]
      omega
    · rw [List.length_singleton]
      omega

theorem scan_quoted {l : Lexer} {s after : List Char} (hahead : l.ahead = '\'' :: (escaped s ++ '\'' :: after)) :
    l.scan_here.1.kind = .string ∧ l.scan_here.1.sval = some (String.ofList s) ∧ l.scan_here.1.slen = s.length ∧
      l.scan_here.2.ahead = after := by
  have hcontent : l.advance.ahead = escaped s ++ '\'' :: after := ahead_behind hahead
  have hlength : s.length ≤ l.advance.len - l.advance.pos := by
    have hescaped := length_le_escaped s
    rw [← ahead_length, hcontent, List.length_append]
    omega
  obtain ⟨l', hl', hbehind⟩ := string_sq_content_escaped hcontent hlength []
  have hscan : l.scan_here = ({ l'.make_tok .string l.pos l.line (l.col_of l.pos) with
      sval := some (intern s), slen := s.length }, l'.advance) := by
    have hquote : l.peek_ch = '\'' := by rw [peek_ch_eq, hahead, List.headD_cons]
    have hend : l.at_end = false := by rw [at_end_eq, hahead]; rfl
    have hend' : l'.at_end = false := by rw [at_end_eq, hbehind]; rfl
    simp only [advance_pos] at hl'
    simp [scan_here, hend, hquote, scan_char, scan_string_sq, hl', hend']
  rw [hscan]
  refine ⟨rfl, rfl, rfl, ?_⟩
  change l'.advance.ahead = after
  rw [ahead_advance, hbehind, List.tail_cons]

end Lexer

namespace parser
open quoted

/-- A word is read up to the blank behind it. -/
theorem percent_elem_shielded (word : List Char) {rest : List Char} (hrest : ∀ c ∈ rest.head?, is_blank c = true) :
    percent_elem (shielded word ++ rest) = (word, rest) := by
  induction word with
  | nil =>
    cases rest with
    | nil => rfl
    | cons c rest =>
      have hblank : is_blank c = true := hrest c rfl
      have hc : c ≠ '\\' := by
        rintro rfl
        exact absurd hblank (by decide)
      change percent_elem (c :: rest) = ([], c :: rest)
      rw [percent_elem]
      · rw [if_pos hblank]
      · rintro d text heq
        cases heq
        exact absurd rfl hc
  | cons c word ih =>
    unfold shielded at ih ⊢
    rw [List.flatMap_cons]
    split
    · simp [percent_elem, ih]
    · rename_i hplain
      have hc : c ≠ '\\' ∧ is_blank c = false := by
        simp [is_special] at hplain
        exact ⟨hplain.1.1.2, hplain.1.1.1⟩
      simp [percent_elem, ih, hc.1, hc.2]

/-- Blanks before a word are passed over. -/
theorem percent_elems_blanks {blanks : List Char} (hblank : ∀ c ∈ blanks, is_blank c = true) (fuel : Nat) (text : List Char) :
    percent_elems fuel (blanks ++ text) = percent_elems fuel text := by
  cases fuel with
  | zero => rfl
  | succ fuel => rw [percent_elems, percent_elems, List.dropWhile_append_of_pos hblank]

theorem percent_elems_word {word rest : List Char} (hword : word ≠ []) (hrest : ∀ c ∈ rest.head?, is_blank c = true) (fuel : Nat) :
    percent_elems (fuel + 1) (shielded word ++ rest) = intern word :: percent_elems fuel rest := by
  obtain ⟨c, word, rfl⟩ := List.exists_cons_of_ne_nil hword
  have hhead : ∃ d text, shielded (c :: word) = d :: text ∧ is_blank d = false := by
    unfold shielded
    rw [List.flatMap_cons]
    split
    · exact ⟨'\\', _, rfl, rfl⟩
    · rename_i hplain
      simp [is_special] at hplain
      exact ⟨c, _, rfl, hplain.1.1.1⟩
  obtain ⟨d, text, htext, hd⟩ := hhead
  have helem := percent_elem_shielded (c :: word) hrest
  have hkept : (shielded (c :: word) ++ rest).dropWhile is_blank = shielded (c :: word) ++ rest := by
    rw [htext, List.cons_append, List.dropWhile_cons_of_neg (by rw [hd]; decide)]
  rw [percent_elems, hkept]
  rw [htext, List.cons_append] at helem ⊢
  simp only [helem]

/-- The words are found again. -/
theorem percent_elems_written {words : List (List Char)} {text : List Char} (h : Written words text) {fuel : Nat}
    (hfuel : words.length ≤ fuel) : percent_elems fuel text = words.map intern := by
  induction h generalizing fuel with
  | nil =>
    cases fuel with
    | zero => rfl
    | succ fuel => rfl
  | @single word hword =>
    obtain ⟨fuel, rfl⟩ := Nat.exists_eq_succ_of_ne_zero (Nat.ne_of_gt hfuel)
    have hnone : percent_elems fuel [] = [] := by cases fuel <;> rfl
    rw [← List.append_nil (shielded word), percent_elems_word hword (fun c hc => by cases hc), hnone]
    rfl
  | @cons word next blanks text words hword hblanks hblank _ ih =>
    obtain ⟨fuel, rfl⟩ := Nat.exists_eq_succ_of_ne_zero (Nat.ne_of_gt (Nat.lt_of_lt_of_le (Nat.succ_pos _) hfuel))
    have hrest : ∀ c ∈ (blanks ++ text).head?, is_blank c = true := by
      obtain ⟨b, blanks, rfl⟩ := List.exists_cons_of_ne_nil hblanks
      intro c hc
      cases hc
      exact hblank _ (List.mem_cons_self ..)
    rw [percent_elems_word hword hrest, percent_elems_blanks hblank, ih (Nat.le_of_succ_le_succ hfuel)]
    rfl

end parser

namespace quoted

theorem Written.length_le {words : List (List Char)} {text : List Char} (h : Written words text) : words.length ≤ text.length := by
  have hshielded {word : List Char} (hword : word ≠ []) : 1 ≤ (shielded word).length := by
    obtain ⟨c, word, rfl⟩ := List.exists_cons_of_ne_nil hword
    unfold shielded
    rw [List.flatMap_cons, List.length_append]
    split <;> exact Nat.le_add_right_of_le (Nat.succ_le_succ (Nat.zero_le _))
  induction h with
  | nil => exact Nat.le_refl 0
  | single hword => exact hshielded hword
  | cons hword _ _ _ ih =>
    have := hshielded hword
    rw [List.length_append, List.length_append, List.length_cons]
    omega

theorem Written.no_nul {words : List (List Char)} {text : List Char} (h : Written words text) (hnul : ∀ word ∈ words, '\x00' ∉ word) :
    '\x00' ∉ text := by
  have hshielded {word : List Char} (hword : '\x00' ∉ word) : '\x00' ∉ shielded word := by
    unfold shielded
    rw [List.mem_flatMap]
    rintro ⟨c, hc, hmem⟩
    split at hmem
    · rcases List.mem_cons.mp hmem with hbackslash | hsame
      · cases hbackslash
      · rw [List.mem_singleton] at hsame
        exact hword (hsame ▸ hc)
    · rw [List.mem_singleton] at hmem
      exact hword (hmem ▸ hc)
  induction h with
  | nil => exact List.not_mem_nil
  | single _ => exact hshielded (hnul _ (List.mem_singleton_self _))
  | cons _ _ hblank _ ih =>
    rw [List.mem_append, List.mem_append, not_or, not_or]
    refine ⟨hshielded (hnul _ (List.mem_cons_self ..)), fun hmem => absurd (hblank _ hmem) (by decide), ?_⟩
    exact ih fun word hword => hnul word (List.mem_cons_of_mem _ hword)

end quoted

namespace Lexer
open quoted

theorem ahead_after_token (l : Lexer) (t : Token) : (l.after_token t).ahead = l.ahead := by
  obtain ⟨state, prev_was_dot, after_def, hframe⟩ := l.after_token_frame t
  rw [hframe]
  rfl

/-- Wherever code is expected, a list of words written so is the array of the
words, and a string written so is the string. -/
theorem quoted_law {l l₂ : Lexer} {words : List (List Char)} {text after s after₂ : List Char} (hwritten : Written words text)
    (hnul : ∀ word ∈ words, '\x00' ∉ word) (hpeeked : l.peeked = none) (hcode : l.imode_top = .normal ∨ l.imode_top = .interp_expr)
    (hahead : l.skip_between.ahead = '%' :: 'w' :: '[' :: (text ++ ']' :: after))
    (hpeeked₂ : l₂.peeked = none) (hcode₂ : l₂.imode_top = .normal ∨ l₂.imode_top = .interp_expr)
    (hahead₂ : l₂.skip_between.ahead = '\'' :: (escaped s ++ '\'' :: after₂)) :
    (l.lexer_next.1.kind = .words ∧ l.lexer_next.2.ahead = after ∧
      ∀ span, parser.parse_percent_list span l.lexer_next.1 .string = .array span (words.map fun word => .string span (String.ofList word))) ∧
    l₂.lexer_next.1.kind = .string ∧ l₂.lexer_next.2.ahead = after₂ ∧ l₂.lexer_next.1.sval = some (String.ofList s) ∧
      l₂.lexer_next.1.slen = s.length := by
  obtain ⟨hkind, hsval, hbehind⟩ := scan_words hwritten.shut hahead
  obtain ⟨hkind₂, hsval₂, hslen₂, hbehind₂⟩ := scan_quoted hahead₂
  rw [lexer_next_here hpeeked hcode, lexer_next_here hpeeked₂ hcode₂]
  refine ⟨⟨hkind, ?_, ?_⟩, hkind₂, ?_, hsval₂, hslen₂⟩
  · rw [ahead_after_token, hbehind]
  · intro span
    have htext : l.skip_between.scan_here.1.text = String.ofList text := by
      rw [Token.text, Token.name, hkind, hsval]
      rfl
    have hkept : text.takeWhile (· ≠ '\x00') = text := by
      rw [List.takeWhile_eq_self_iff]
      intro c hc
      rw [decide_eq_true_iff]
      rintro rfl
      exact hwritten.no_nul hnul hc
    unfold parser.parse_percent_list
    simp only [htext, c_string, String.toList_ofList, hkept, parser.percent_elems_written hwritten hwritten.length_le, List.map_map]
    rfl
  · rw [ahead_after_token, hbehind₂]

/-- `%w[a\ b c]` and `'it\'s'`. -/
theorem quoted_words :
    ((lexer_init "%w[a\\ b c]".toList).lexer_next.1.kind = .words ∧ (lexer_init "%w[a\\ b c]".toList).lexer_next.2.ahead = [] ∧
      ∀ span, parser.parse_percent_list span (lexer_init "%w[a\\ b c]".toList).lexer_next.1 .string =
        .array span (["a b".toList, "c".toList].map fun word => .string span (String.ofList word))) ∧
    (lexer_init "'it\\'s'".toList).lexer_next.1.kind = .string ∧ (lexer_init "'it\\'s'".toList).lexer_next.2.ahead = [] ∧
      (lexer_init "'it\\'s'".toList).lexer_next.1.sval = some (String.ofList "it's".toList) ∧
      (lexer_init "'it\\'s'".toList).lexer_next.1.slen = 4 :=
  have hblank : ∀ c ∈ [' '], parser.is_blank c = true := by
    intro c hc
    rw [List.mem_singleton.mp hc]
    rfl
  have hwritten : Written ["a b".toList, "c".toList] "a\\ b c".toList :=
    @Written.cons "a b".toList "c".toList [' '] _ [] (by decide) (by decide) hblank (.single (by decide))
  quoted_law hwritten (by decide) rfl (.inl rfl) rfl rfl (.inl rfl) rfl

end Lexer

end stoned
