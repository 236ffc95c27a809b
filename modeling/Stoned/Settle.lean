import Stoned.Forward

namespace stoned.Lexer

/-! The lexer's loops are given as many rounds as characters are left, and never
need more. -/

variable {α : Type} (l : Lexer)

/-- A loop comes to the same however many more rounds it is given. -/
def Settles (loop : Nat → α) (rounds : Nat) : Prop := ∀ fuel, rounds ≤ fuel → loop fuel = loop rounds

theorem settles_of_step {loop : Nat → α} {rounds : Nat} (h : ∀ fuel, rounds ≤ fuel → loop (fuel + 1) = loop fuel) :
    Settles loop rounds := by
  intro fuel hfuel
  induction fuel, hfuel using Nat.le_induction with
  | base => rfl
  | succ fuel hfuel ih => rw [h fuel hfuel, ih]

/-- The text has ended, or what is left of it has become shorter. -/
theorem nearer {l l' : Lexer} {fuel : Nat} (h : l.len ≤ l.pos + (fuel + 1)) (hframed : Framed l l') (hpos : l.pos + 1 ≤ l'.pos) :
    l'.len ≤ l'.pos + fuel := by
  have hlen : l'.len = l.len := congrArg List.length hframed.src
  rw [hlen]
  omega

theorem skip_while_succ (p : Char → Bool) {fuel : Nat} (h : l.len ≤ l.pos + fuel) :
    skip_while p (fuel + 1) l = skip_while p fuel l := by
  induction fuel generalizing l with
  | zero =>
    have hend : l.at_end = true := decide_eq_true h
    simp [skip_while, hend]
  | succ fuel ih =>
    have hadvance := ih l.advance (nearer h l.framed_advance (advance_pos l).symm.le)
    conv_lhs => rw [skip_while, hadvance]
    rfl

theorem skip_blanks_succ {fuel : Nat} (h : l.len ≤ l.pos + fuel) :
    skip_blanks (fuel + 1) l = skip_blanks fuel l := by
  induction fuel generalizing l with
  | zero =>
    have hend : l.at_end = true := decide_eq_true h
    simp [skip_blanks, hend]
  | succ fuel ih =>
    have hone : l.pos + 1 ≤ l.advance.pos := (advance_pos l).symm.le
    have hrest (l' : Lexer) (hframed : Framed l l') (hpos : l.pos + 1 ≤ l'.pos) :=
      ih l' (nearer h hframed hpos)
    unfold skip_blanks
    dsimp only
    split_ifs
    · rfl
    · exact hrest _ (l.passed_advance.spaced true).framed hone
    · exact hrest _ ((l.passed_advance.trans l.advance.passed_advance).spaced true).framed (hone.trans (le_advance _))
    · exact hrest _ ((l.passed_advance_while _).spaced true).framed (l.lt_advance_while (by simp_all) (by simp_all))
    · exact hrest _ (l.passed_advance.placed _ _ true).framed hone
    · rfl

theorem string_sq_content_succ {fuel : Nat} (buf : List Char) (h : l.len ≤ l.pos + fuel) :
    string_sq_content (fuel + 1) l buf = string_sq_content fuel l buf := by
  induction fuel generalizing l buf with
  | zero =>
    have hend : l.at_end = true := decide_eq_true h
    simp [string_sq_content, hend]
  | succ fuel ih =>
    have hone : l.pos + 1 ≤ l.advance.pos := (advance_pos l).symm.le
    unfold string_sq_content
    dsimp only
    split_ifs
    · rfl
    · exact ih _ _ (nearer h (l.framed_advance.trans (framed_advance _)) (hone.trans (le_advance _)))
    · exact ih _ _ (nearer h l.framed_advance hone)

theorem find_close_succ (opening closing : Char) {fuel : Nat} (depth : Nat) (h : l.len ≤ l.pos + fuel) :
    find_close opening closing (fuel + 1) depth l = find_close opening closing fuel depth l := by
  induction fuel generalizing l depth with
  | zero =>
    have hend : l.at_end = true := decide_eq_true h
    simp [find_close, hend]
  | succ fuel ih =>
    have hone : l.pos + 1 ≤ l.advance.pos := (advance_pos l).symm.le
    have hadvance (depth : Nat) := ih l.advance depth (nearer h l.framed_advance hone)
    unfold find_close
    dsimp only
    split_ifs
    · rfl
    · exact hadvance _
    · exact ih _ _ (nearer h (l.framed_advance.trans (framed_advance _)) (hone.trans (le_advance _)))
    · exact hadvance _
    · cases depth with
      | zero => rfl
      | succ depth => exact hadvance depth
    · exact hadvance _

theorem regexp_flags_succ {fuel : Nat} (flags : Nat) (h : l.len ≤ l.pos + fuel) :
    regexp_flags (fuel + 1) l flags = regexp_flags fuel l flags := by
  induction fuel generalizing l flags with
  | zero =>
    have hend : l.at_end = true := decide_eq_true h
    simp [regexp_flags, hend]
  | succ fuel ih =>
    have hadvance (flags : Nat) := ih l.advance flags (nearer h l.framed_advance (advance_pos l).symm.le)
    unfold regexp_flags
    dsimp only
    split_ifs
    · rfl
    · exact hadvance _
    · exact hadvance _
    · exact hadvance _
    · exact hadvance _
    · rfl

theorem braced_digits_succ {fuel : Nat} (cp : Nat) (h : l.len ≤ l.pos + fuel) :
    braced_digits (fuel + 1) l cp = braced_digits fuel l cp := by
  induction fuel generalizing l cp with
  | zero =>
    have hend : l.at_end = true := decide_eq_true h
    simp [braced_digits, hend]
  | succ fuel ih =>
    unfold braced_digits
    split_ifs
    · rfl
    · exact ih _ _ (nearer h l.framed_advance (advance_pos l).symm.le)

theorem string_content_succ (close_ch : Char) {fuel : Nat} (h : l.len ≤ l.pos + fuel) :
    string_content close_ch (fuel + 1) l = string_content close_ch fuel l := by
  induction fuel generalizing l with
  | zero =>
    have hend : l.at_end = true := decide_eq_true h
    simp [string_content, hend]
  | succ fuel ih =>
    have hone : l.pos + 1 ≤ l.advance.pos := (advance_pos l).symm.le
    have hescape := ih l.advance.string_escape.2 (nearer h (l.framed_advance.trans (framed_string_escape _))
      (hone.trans (lt_string_escape _).le))
    have hadvance := ih l.advance (nearer h l.framed_advance hone)
    unfold string_content
    dsimp only
    rw [hescape, hadvance]

theorem regexp_content_succ {fuel : Nat} (h : l.len ≤ l.pos + fuel) :
    regexp_content (fuel + 1) l = regexp_content fuel l := by
  induction fuel generalizing l with
  | zero =>
    have hend : l.at_end = true := decide_eq_true h
    simp [regexp_content, hend]
  | succ fuel ih =>
    have hone : l.pos + 1 ≤ l.advance.pos := (advance_pos l).symm.le
    have hadvance := ih l.advance (nearer h l.framed_advance hone)
    have hclass (in_class : Bool) := ih (l.advance.set_in_class in_class)
      (nearer h (l.framed_advance.trans (framed_modify_top ..)) hone)
    have htwo := ih l.advance.advance (nearer h (l.framed_advance.trans (framed_advance _)) (hone.trans (le_advance _)))
    unfold regexp_content
    dsimp only
    rw [hadvance, htwo]
    split_ifs
    · rfl
    · rfl
    · rfl
    · rw [hclass]
    · rw [hclass]
    · rw [hadvance]

theorem regexp_interpolates_succ {fuel : Nat} (in_cls : Bool) (h : l.len ≤ l.pos + fuel) :
    regexp_interpolates (fuel + 1) in_cls l = regexp_interpolates fuel in_cls l := by
  induction fuel generalizing l in_cls with
  | zero =>
    have hend : l.at_end = true := decide_eq_true h
    simp [regexp_interpolates, hend]
  | succ fuel ih =>
    have hmove (in_cls : Bool) (n : Nat) (hn : 1 ≤ n) := ih { l with pos := l.pos + n } in_cls
      (nearer h (.mk ..) (Nat.add_le_add_left hn _))
    unfold regexp_interpolates
    dsimp only
    rw [hmove in_cls 2 (by decide), hmove in_cls 1 le_rfl, hmove true 1 le_rfl, hmove false 1 le_rfl]

theorem plain_regexp_succ {fuel : Nat} (in_cls : Bool) (h : l.len ≤ l.pos + fuel) :
    plain_regexp (fuel + 1) in_cls l = plain_regexp fuel in_cls l := by
  induction fuel generalizing l in_cls with
  | zero =>
    have hend : l.at_end = true := decide_eq_true h
    simp [plain_regexp, hend]
  | succ fuel ih =>
    have hone : l.pos + 1 ≤ l.advance.pos := (advance_pos l).symm.le
    have hadvance (in_cls : Bool) := ih l.advance in_cls (nearer h l.framed_advance hone)
    have htwo := ih l.advance.advance in_cls
      (nearer h (l.framed_advance.trans (framed_advance _)) (hone.trans (le_advance _)))
    unfold plain_regexp
    dsimp only
    rw [htwo, hadvance]

theorem percent_q_content_succ (opening closing : Char) {fuel : Nat} (depth : Nat) (h : l.len ≤ l.pos + fuel) :
    percent_q_content opening closing (fuel + 1) depth l = percent_q_content opening closing fuel depth l := by
  induction fuel generalizing l depth with
  | zero =>
    have hend : l.at_end = true := decide_eq_true h
    cases depth <;> simp [percent_q_content, hend]
  | succ fuel ih =>
    have hone : l.pos + 1 ≤ l.advance.pos := (advance_pos l).symm.le
    have hadvance (depth : Nat) := ih l.advance depth (nearer h l.framed_advance hone)
    have htwo (depth : Nat) := ih l.advance.advance depth
      (nearer h (l.framed_advance.trans (framed_advance _)) (hone.trans (le_advance _)))
    cases depth with
    | zero => rfl
    | succ depth =>
      unfold percent_q_content
      dsimp only
      rw [htwo, hadvance, hadvance, hadvance]

theorem heredoc_content_succ {fuel : Nat} (h : l.hd_body_end ≤ l.pos + fuel) :
    heredoc_content (fuel + 1) l = heredoc_content fuel l := by
  induction fuel generalizing l with
  | zero => simp [heredoc_content, show l.hd_body_end ≤ l.pos from h]
  | succ fuel ih =>
    have hend : l.advance.hd_body_end = l.hd_body_end := l.framed_advance.hd_body_end
    have hend₂ : l.advance.advance.hd_body_end = l.hd_body_end := l.advance.framed_advance.hd_body_end.trans hend
    have hadvance := ih l.advance (by rw [hend, advance_pos]; omega)
    have htwo := ih l.advance.advance (by rw [hend₂, advance_pos, advance_pos]; omega)
    unfold heredoc_content
    dsimp only
    rw [htwo, hadvance]

theorem find_terminator_succ (term : List Char) (indent_ok : Bool) {fuel : Nat} (h : l.len ≤ l.pos + fuel) :
    find_terminator term indent_ok (fuel + 1) l = find_terminator term indent_ok fuel l := by
  induction fuel generalizing l with
  | zero =>
    have hend : l.at_end = true := decide_eq_true h
    simp [find_terminator, hend]
  | succ fuel ih =>
    unfold find_terminator
    split_ifs with hend
    · rfl
    · have hline : Framed l l.next_line := (l.framed_advance_while _).trans (framed_advance_if ..)
      rw [ih l.next_line (nearer h hline (l.lt_next_line (by simpa using hend)))]

/-- No loop of the lexer is cut off. -/
structure LoopsSettle : Prop where
  skip_while : ∀ p, Settles (fun fuel => skip_while p fuel l) (l.len - l.pos)
  skip_blanks : Settles (fun fuel => skip_blanks fuel l) (l.len - l.pos)
  string_sq_content : ∀ buf, Settles (fun fuel => string_sq_content fuel l buf) (l.len - l.pos)
  find_close : ∀ opening closing depth,
    Settles (fun fuel => find_close opening closing fuel depth l) (l.len - l.pos + 1)
  regexp_flags : ∀ flags, Settles (fun fuel => regexp_flags fuel l flags) (l.len - l.pos)
  braced_digits : ∀ cp, Settles (fun fuel => braced_digits fuel l.advance cp) (l.len - l.pos)
  string_content : ∀ close_ch, Settles (fun fuel => string_content close_ch fuel l) (l.len - l.pos)
  regexp_content : Settles (fun fuel => regexp_content fuel l) (l.len - l.pos)
  regexp_interpolates : ∀ in_cls, Settles (fun fuel => regexp_interpolates fuel in_cls l) (l.len - l.pos)
  plain_regexp : ∀ in_cls, Settles (fun fuel => plain_regexp fuel in_cls l) (l.len - l.pos)
  percent_q_content : ∀ opening closing depth,
    Settles (fun fuel => percent_q_content opening closing fuel depth l) (l.len - l.pos + 1)
  heredoc_content : Settles (fun fuel => heredoc_content fuel l) (l.hd_body_end - l.pos)
  find_terminator : ∀ term indent_ok, Settles (fun fuel => find_terminator term indent_ok fuel l) (l.len - l.pos)

theorem loopsSettle : l.LoopsSettle where
  skip_while p := settles_of_step fun fuel h => l.skip_while_succ p (Nat.sub_le_iff_le_add'.mp h)
  skip_blanks := settles_of_step fun fuel h => l.skip_blanks_succ (Nat.sub_le_iff_le_add'.mp h)
  string_sq_content buf := settles_of_step fun fuel h => l.string_sq_content_succ buf (Nat.sub_le_iff_le_add'.mp h)
  find_close opening closing depth :=
    settles_of_step fun fuel h => l.find_close_succ opening closing depth (by omega)
  regexp_flags flags := settles_of_step fun fuel h => l.regexp_flags_succ flags (Nat.sub_le_iff_le_add'.mp h)
  braced_digits cp := settles_of_step fun fuel h => l.advance.braced_digits_succ cp (by
    have hlen : l.advance.len = l.len := congrArg List.length l.advance_src
    rw [hlen, advance_pos]
    omega)
  string_content close_ch := settles_of_step fun fuel h => l.string_content_succ close_ch (Nat.sub_le_iff_le_add'.mp h)
  regexp_content := settles_of_step fun fuel h => l.regexp_content_succ (Nat.sub_le_iff_le_add'.mp h)
  regexp_interpolates in_cls :=
    settles_of_step fun fuel h => l.regexp_interpolates_succ in_cls (Nat.sub_le_iff_le_add'.mp h)
  plain_regexp in_cls := settles_of_step fun fuel h => l.plain_regexp_succ in_cls (Nat.sub_le_iff_le_add'.mp h)
  percent_q_content opening closing depth :=
    settles_of_step fun fuel h => l.percent_q_content_succ opening closing depth (by omega)
  heredoc_content := settles_of_step fun fuel h => l.heredoc_content_succ (Nat.sub_le_iff_le_add'.mp h)
  find_terminator term indent_ok :=
    settles_of_step fun fuel h => l.find_terminator_succ term indent_ok (Nat.sub_le_iff_le_add'.mp h)

end stoned.Lexer
