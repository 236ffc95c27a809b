import Stoned.Passing

namespace stoned

/-! Percent literals: what stands between their delimiters. -/

namespace percent

section
variable (opening closing : Char)

/-- A text in which every bracket is closed. The character behind a backslash
means nothing; where one character opens and closes, it does not stand inside. -/
inductive Content : List Char → Prop where
  | nil : Content []
  | plain {c : Char} {text : List Char} (hc : c ≠ '\\' ∧ c ≠ opening ∧ c ≠ closing) (h : Content text) : Content (c :: text)
  | pair {text : List Char} (c : Char) (h : Content text) : Content ('\\' :: c :: text)
  | nest {inner text : List Char} (hnested : opening ≠ closing) (hinner : Content inner) (h : Content text) :
    Content (opening :: (inner ++ closing :: text))

/-- A text inside `depth` brackets, in which all of them are closed. -/
inductive Inner : Nat → List Char → Prop where
  | nil : Inner 0 []
  | plain {depth : Nat} {c : Char} {text : List Char} (hc : c ≠ '\\' ∧ c ≠ opening ∧ c ≠ closing) (h : Inner depth text) :
    Inner depth (c :: text)
  | pair {depth : Nat} {text : List Char} (c : Char) (h : Inner depth text) : Inner depth ('\\' :: c :: text)
  | opened {depth : Nat} {text : List Char} (hnested : opening ≠ closing) (h : Inner (depth + 1) text) :
    Inner depth (opening :: text)
  | closed {depth : Nat} {text : List Char} (h : Inner depth text) : Inner (depth + 1) (closing :: text)

/-- A text between closing brackets. -/
def Layers : Nat → List Char → Prop
  | 0, text => Content opening closing text
  | depth + 1, text => ∃ inner rest, Content opening closing inner ∧ Layers depth rest ∧ text = inner ++ closing :: rest

end

variable {opening closing : Char} {text : List Char} {depth : Nat}

theorem Content.inner (h : Content opening closing text) {rest : List Char} (hrest : Inner opening closing depth rest) :
    Inner opening closing depth (text ++ rest) := by
  induction h generalizing depth rest with
  | nil => exact hrest
  | plain hc _ ih => exact .plain hc (ih hrest)
  | pair c _ ih => exact .pair c (ih hrest)
  | nest hnested _ _ ih_inner ih =>
    rw [List.cons_append, List.append_assoc]
    exact .opened hnested (ih_inner (.closed (ih hrest)))

theorem Layers.behind (front : List Char) (hfront : ∀ text, Content opening closing text → Content opening closing (front ++ text))
    (h : Layers opening closing depth text) : Layers opening closing depth (front ++ text) := by
  cases depth with
  | zero => exact hfront text h
  | succ depth =>
    obtain ⟨inner, rest, hinner, hrest, rfl⟩ := h
    exact ⟨front ++ inner, rest, hfront inner hinner, hrest, (List.append_assoc ..).symm⟩

theorem Inner.layers (h : Inner opening closing depth text) : Layers opening closing depth text := by
  induction h with
  | nil => exact .nil
  | @plain _ c _ hc _ ih => exact ih.behind [c] fun _ => .plain hc
  | @pair _ _ c _ ih => exact ih.behind ['\\', c] fun _ => .pair c
  | opened hnested _ ih =>
    -- The bracket is closed where the text inside it ends.
    obtain ⟨inner, rest, hinner, hrest, rfl⟩ := ih
    have hbehind := hrest.behind (opening :: (inner ++ [closing])) fun text htext => by
      rw [List.cons_append, List.append_assoc]
      exact .nest hnested hinner htext
    rwa [List.cons_append, List.append_assoc] at hbehind
  | closed _ ih => exact ⟨[], _, .nil, ih, rfl⟩

/-- Where a literal's content ends in what is behind its opening delimiter. -/
def Closed (opening : Char) (text behind after : List Char) : Prop :=
  Content opening (Lexer.paired_delim opening) text ∧ behind = text ++ Lexer.paired_delim opening :: after

end percent

namespace Lexer
open percent

section
variable {l l' : Lexer} {opening closing : Char} {depth fuel : Nat} {text after : List Char}

theorem ahead_behind {c : Char} {rest : List Char} (h : l.ahead = c :: rest) : l.advance.ahead = rest := by
  rw [ahead_advance, h, List.tail_cons]

/-- The delimiter behind such a text is found. -/
theorem find_close_inner (h : percent.Inner opening closing depth text) (hopening : opening ≠ '\\') (hclosing : closing ≠ '\\')
    (hahead : l.ahead = text ++ closing :: after) (hfuel : text.length < fuel) :
    ∃ l', find_close opening closing fuel depth l = some l' ∧ l'.src = l.src ∧ l'.pos = l.pos + text.length := by
  induction h generalizing l fuel with
  | nil =>
    obtain ⟨fuel, rfl⟩ := Nat.exists_eq_succ_of_ne_zero (Nat.ne_of_gt hfuel)
    refine ⟨l, ?_, rfl, rfl⟩
    by_cases hsame : opening = closing
    · simp [find_close, at_end_eq, peek_ch_eq, hahead, hclosing, hsame]
    · simp [find_close, at_end_eq, peek_ch_eq, hahead, hclosing, Ne.symm hsame]
  | @plain depth c text hc _ ih =>
    obtain ⟨fuel, rfl⟩ := Nat.exists_eq_succ_of_ne_zero (Nat.ne_of_gt (Nat.zero_lt_of_lt hfuel))
    obtain ⟨l', hl', hsrc, hpos⟩ := ih (ahead_behind hahead) (Nat.lt_of_succ_lt_succ hfuel)
    refine ⟨l', ?_, hsrc.trans l.advance_src, ?_⟩
    · simp [find_close, at_end_eq, peek_ch_eq, hahead, hc.1, hc.2.1, hc.2.2, hl']
    · rw [hpos, advance_pos, List.length_cons]
      omega
  | @pair depth text c _ ih =>
    obtain ⟨fuel, rfl⟩ := Nat.exists_eq_succ_of_ne_zero (Nat.ne_of_gt (Nat.zero_lt_of_lt hfuel))
    have hskip : l.advance.ahead = c :: (text ++ closing :: after) := ahead_behind hahead
    rw [List.length_cons, List.length_cons] at hfuel
    obtain ⟨l', hl', hsrc, hpos⟩ := ih (ahead_behind hskip) (show text.length < fuel by omega)
    refine ⟨l', ?_, hsrc.trans ((advance_src _).trans l.advance_src), ?_⟩
    · simp [find_close, at_end_eq, peek_ch_eq, hahead, hskip, hl']
    · rw [hpos, advance_pos, advance_pos, List.length_cons, List.length_cons]
      omega
  | @opened depth text hnested _ ih =>
    obtain ⟨fuel, rfl⟩ := Nat.exists_eq_succ_of_ne_zero (Nat.ne_of_gt (Nat.zero_lt_of_lt hfuel))
    obtain ⟨l', hl', hsrc, hpos⟩ := ih (ahead_behind hahead) (Nat.lt_of_succ_lt_succ hfuel)
    refine ⟨l', ?_, hsrc.trans l.advance_src, ?_⟩
    · simp [find_close, at_end_eq, peek_ch_eq, hahead, hopening, hnested, hl']
    · rw [hpos, advance_pos, List.length_cons]
      omega
  | @closed depth text _ ih =>
    obtain ⟨fuel, rfl⟩ := Nat.exists_eq_succ_of_ne_zero (Nat.ne_of_gt (Nat.zero_lt_of_lt hfuel))
    obtain ⟨l', hl', hsrc, hpos⟩ := ih (ahead_behind hahead) (Nat.lt_of_succ_lt_succ hfuel)
    refine ⟨l', ?_, hsrc.trans l.advance_src, ?_⟩
    · by_cases hsame : opening = closing
      · subst hsame
        simp [find_close, at_end_eq, peek_ch_eq, hahead, hclosing, hl']
      · simp [find_close, at_end_eq, peek_ch_eq, hahead, hclosing, Ne.symm hsame, hl']
    · rw [hpos, advance_pos, List.length_cons]
      omega

/-- A delimiter that is found has such a text before it. -/
theorem inner_of_find_close (h : find_close opening closing fuel depth l = some l') :
    ∃ text after, percent.Inner opening closing depth text ∧ l.ahead = text ++ closing :: after := by
  induction fuel generalizing l depth with
  | zero => cases h
  | succ fuel ih =>
    simp only [find_close, at_end_eq l, peek_ch_eq] at h
    cases hahead : l.ahead with
    | nil => simp [hahead] at h
    | cons c rest =>
      have hnext := ahead_behind hahead
      simp only [hahead, List.isEmpty_cons, Bool.false_eq_true, if_false, List.headD_cons] at h
      split_ifs at h with hescape hend hopen hclose
      · obtain ⟨text, after, -, hrest⟩ := ih h
        rw [at_end_eq, hnext, List.isEmpty_iff] at hend
        rw [hnext, hend] at hrest
        cases text <;> cases hrest
      · obtain ⟨text, after, htext, hrest⟩ := ih h
        rw [at_end_eq, hnext, List.isEmpty_iff] at hend
        obtain ⟨c', rest', rfl⟩ := List.exists_cons_of_ne_nil hend
        rw [ahead_advance, hnext, List.tail_cons] at hrest
        exact ⟨'\\' :: c' :: text, after, .pair c' htext, by rw [hescape, hrest]; rfl⟩
      · obtain ⟨text, after, htext, hrest⟩ := ih h
        simp only [Bool.and_eq_true, decide_eq_true_eq] at hopen
        obtain ⟨hnested, rfl⟩ := hopen
        exact ⟨c :: text, after, .opened hnested htext, by rw [← hnext, hrest]; rfl⟩
      · cases depth with
        | zero => exact ⟨[], rest, .nil, by rw [hclose]; rfl⟩
        | succ depth =>
          obtain ⟨text, after, htext, hrest⟩ := ih h
          subst hclose
          exact ⟨c :: text, after, .closed htext, by rw [← hnext, hrest]; rfl⟩
      · obtain ⟨text, after, htext, hrest⟩ := ih h
        have hplain : c ≠ opening := by
          rintro rfl
          simp only [Bool.and_eq_true, decide_eq_true_eq, and_true, not_not] at hopen
          exact hclose hopen
        exact ⟨c :: text, after, .plain ⟨hescape, hplain, hclose⟩ htext, by rw [← hnext, hrest]; rfl⟩

theorem paired_delim_ne (h : opening ≠ '\\') : paired_delim opening ≠ '\\' := by
  unfold paired_delim
  split
  all_goals first | exact h | decide

/-- A delimiter is found exactly where a text in which every bracket is closed
stands before one. -/
theorem find_close_iff (hopening : opening ≠ '\\') (hfuel : l.ahead.length ≤ fuel) :
    (∃ l', find_close opening (paired_delim opening) fuel 0 l = some l') ↔ ∃ text after, Closed opening text l.ahead after := by
  constructor
  · rintro ⟨l', h⟩
    obtain ⟨text, after, htext, hahead⟩ := inner_of_find_close h
    exact ⟨text, after, htext.layers, hahead⟩
  · rintro ⟨text, after, htext, hahead⟩
    have hinner := htext.inner .nil
    rw [List.append_nil] at hinner
    have hshort : text.length < fuel := by
      rw [hahead, List.length_append, List.length_cons] at hfuel
      omega
    obtain ⟨l', hl', -⟩ := find_close_inner hinner hopening (paired_delim_ne hopening) hahead hshort
    exact ⟨l', hl'⟩

/-- `%q` ends behind the delimiter that the other literals end at. -/
theorem percent_q_content_found (hnested : opening ≠ closing) (h : find_close opening closing fuel depth l = some l') :
    percent_q_content opening closing fuel (depth + 1) l = (l'.advance, true) := by
  induction fuel generalizing l depth with
  | zero => cases h
  | succ fuel ih =>
    simp only [find_close] at h
    split_ifs at h with hend hescape hend' hopen hclose
    · -- Behind the last backslash there is nothing.
      cases fuel with
      | zero => cases h
      | succ fuel => simp [find_close, hend'] at h
    · simp [percent_q_content, hend, hescape, hend', ih h]
    · simp only [Bool.and_eq_true, decide_eq_true_eq] at hopen
      have hplain : opening ≠ '\\' := hopen.2 ▸ hescape
      have hnext := ih h
      simp [percent_q_content, hend, hopen.2, hplain, hnext]
    · -- One bracket fewer is open; the last one is the delimiter.
      have hplain : closing ≠ '\\' := hclose ▸ hescape
      have hne : closing ≠ opening := hnested.symm
      cases depth with
      | zero =>
        cases h
        cases fuel <;> simp [percent_q_content, hend, hclose, hplain, hne]
      | succ depth => simp [percent_q_content, hend, hclose, hplain, hne, ih h]
    · have hplain : l.peek_ch ≠ opening := fun hopening => hopen (by simp [hnested, hopening])
      simp [percent_q_content, hend, hescape, hplain, hclose, ih h]

end
end Lexer
end stoned
