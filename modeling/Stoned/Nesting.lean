import Stoned.Ends
import Stoned.HeredocLayout

namespace stoned

/-! What a token does to the mode stack. -/

/-- Only the newest entry differs, and not in its mode. -/
structure SameModes (imode imode' : List LexLevel) : Prop where
  modes : imode'.map LexLevel.mode = imode.map LexLevel.mode
  tail : imode'.tail = imode.tail

/-- The mode stack behind a token. Where there is no room for it, a mode that a
token opens is left out. -/
inductive Nests (imode : List LexLevel) : Turn → List LexLevel → Prop where
  | stays {imode' : List LexLevel} (same : SameModes imode imode') : Nests imode .stays imode'
  | opens {imode' : List LexLevel} (level : LexLevel) (room : imode.length < LEX_INTERP_DEPTH)
      (same : SameModes imode imode') : Nests imode .opens (level :: imode')
  | full {imode' : List LexLevel} (room : ¬ imode.length < LEX_INTERP_DEPTH) (same : SameModes imode imode') :
    Nests imode .opens imode'
  | closes (nonempty : imode ≠ []) : Nests imode .closes imode.tail

section modes
variable {imode imode' imode'' : List LexLevel}

theorem SameModes.refl (imode : List LexLevel) : SameModes imode imode := ⟨rfl, rfl⟩

theorem SameModes.trans (h : SameModes imode imode') (h' : SameModes imode' imode'') : SameModes imode imode'' :=
  ⟨h'.modes.trans h.modes, h'.tail.trans h.tail⟩

theorem SameModes.length (h : SameModes imode imode') : imode'.length = imode.length := by
  have hlength := congrArg List.length h.modes
  rwa [List.length_map, List.length_map] at hlength

end modes

namespace Lexer

/-- What the mode stack depends on is as it was. -/
structure Still (l l' : Lexer) : Prop where
  src : l'.src = l.src
  peeked : l'.peeked = l.peeked
  local_vars : l'.local_vars = l.local_vars
  imode : l'.imode = l.imode
  percent_close : l'.percent_close = l.percent_close
  hd_active : l'.hd_active = l.hd_active
  hd_imode_depth : l'.hd_imode_depth = l.hd_imode_depth

/-- What a token leaves as it is: among others the closing delimiters of all
modes but the newest, and the depth of a heredoc further down. -/
structure Effect (turn : Turn) (l l' : Lexer) : Prop where
  src : l'.src = l.src
  peeked : l'.peeked = l.peeked
  local_vars : l'.local_vars = l.local_vars
  imode : Nests l.imode turn l'.imode
  close : ∀ i, i + 1 < l.imode_depth → l'.percent_close.getD i '\x00' = l.percent_close.getD i '\x00'
  body : ∀ depth < l.imode_depth, l'.hd_active = true → l'.hd_imode_depth = depth →
    l.hd_active = true ∧ l.hd_imode_depth = depth

section
variable {l l' l'' : Lexer} {turn : Turn}

theorem Still.trans (h : Still l l') (h' : Still l' l'') : Still l l'' :=
  ⟨h'.src.trans h.src, h'.peeked.trans h.peeked, h'.local_vars.trans h.local_vars, h'.imode.trans h.imode,
    h'.percent_close.trans h.percent_close, h'.hd_active.trans h.hd_active, h'.hd_imode_depth.trans h.hd_imode_depth⟩

theorem Passed.still (h : Passed l l') : Still l l' := by
  cases h
  exact ⟨rfl, rfl, rfl, rfl, rfl, rfl, rfl⟩

theorem Still.effect (h : Still l l') (he : Effect turn l' l'') : Effect turn l l'' := by
  have hdepth : l'.imode_depth = l.imode_depth := congrArg List.length h.imode
  refine ⟨he.src.trans h.src, he.peeked.trans h.peeked, he.local_vars.trans h.local_vars, h.imode ▸ he.imode, ?_, ?_⟩
  · intro i hi
    rw [← h.percent_close]
    exact he.close i (hdepth.symm ▸ hi)
  · intro depth hlt hactive heq
    rw [← h.hd_active, ← h.hd_imode_depth]
    exact he.body depth (hdepth.symm ▸ hlt) hactive heq

theorem Effect.still (he : Effect turn l l') (h : Still l' l'') : Effect turn l l'' where
  src := h.src.trans he.src
  peeked := h.peeked.trans he.peeked
  local_vars := h.local_vars.trans he.local_vars
  imode := h.imode.symm ▸ he.imode
  close := h.percent_close.symm ▸ he.close
  body := by
    rw [h.hd_active, h.hd_imode_depth]
    exact he.body

theorem still_skip_between (l : Lexer) : Still l l.skip_between := by
  obtain ⟨hd_pending, hpassed⟩ := l.passed_skip_between
  have hfirst : Still l { l with hd_pending } := ⟨rfl, rfl, rfl, rfl, rfl, rfl, rfl⟩
  exact hfirst.trans hpassed.still

/-- The small steps inside a token leave all but the newest entries. -/
theorem Moved.same (h : Moved l l') : SameModes l.imode l'.imode := by
  induction h with
  | refl => exact .refl _
  | @advance l' _ ih => exact l'.advance_imode.symm ▸ ih
  | expect _ _ _ _ ih => exact ih
  | @top l' _ f hmode ih =>
    refine ih.trans ⟨?_, ?_⟩
    · rw [modify_top]
      cases l'.imode with
      | nil => rfl
      | cons level levels => exact congrArg (· :: levels.map LexLevel.mode) (hmode level)
    · rw [modify_top]
      cases l'.imode <;> rfl
  | close _ _ ih => exact ih

theorem Moved.imode_depth (h : Moved l l') : l'.imode_depth = l.imode_depth := h.same.length

theorem Moved.peeked (h : Moved l l') : l'.peeked = l.peeked := by
  induction h with
  | refl => rfl
  | @advance l' _ ih => exact l'.passed_advance.peeked.trans ih
  | expect _ _ _ _ ih => exact ih
  | top _ _ _ ih => exact ih
  | close _ _ ih => exact ih

theorem Moved.local_vars (h : Moved l l') : l'.local_vars = l.local_vars := by
  induction h with
  | refl => rfl
  | @advance l' _ ih => exact l'.passed_advance.still.local_vars.trans ih
  | expect _ _ _ _ ih => exact ih
  | top _ _ _ ih => exact ih
  | close _ _ ih => exact ih

theorem Moved.percent_close (h : Moved l l') (i : Nat) (hi : i + 1 < l.imode_depth) :
    l'.percent_close.getD i '\x00' = l.percent_close.getD i '\x00' := by
  induction h with
  | refl => rfl
  | @advance l' _ ih => exact l'.passed_advance.still.percent_close ▸ ih
  | expect _ _ _ _ ih => exact ih
  | top _ _ _ ih => exact ih
  | @close l' hmoved c ih =>
    have hne : l'.imode_depth - 1 ≠ i := by
      rw [hmoved.imode_depth]
      omega
    rw [← ih, set_percent_close, List.getD_eq_getElem?_getD, List.getD_eq_getElem?_getD, List.getElem?_set_ne hne]

theorem Framed.hd_imode_depth (h : Framed l l') : l'.hd_imode_depth = l.hd_imode_depth := by cases h; rfl

theorem Moved.nests {imode' : List LexLevel} (h : Moved l l') (hnests : Nests l'.imode turn imode') :
    Nests l.imode turn imode' := by
  have hsame := h.same
  cases hnests with
  | stays same => exact .stays (hsame.trans same)
  | opens level room same => exact .opens level (hsame.length ▸ room) (hsame.trans same)
  | full room same => exact .full (hsame.length ▸ room) (hsame.trans same)
  | closes nonempty =>
    rw [hsame.tail]
    refine .closes fun hnil => nonempty ?_
    have hlength := hsame.length
    rw [hnil] at hlength
    exact List.eq_nil_of_length_eq_zero hlength

theorem imode_top_nonempty (h : l.imode_top ≠ .normal) : l.imode ≠ [] := by
  intro hnil
  rw [imode_top, hnil] at h
  exact h rfl

theorem nests_push (mode : LexMode) (h : Moved (l.imode_push mode) l') : Nests l.imode .opens l'.imode := by
  have hsame := h.same
  rw [imode_push] at hsame
  split at hsame
  case isTrue hroom =>
    have htail : l'.imode.tail = l.imode := hsame.tail
    have hlength := hsame.length
    cases himode : l'.imode with
    | nil =>
      rw [himode] at hlength
      cases hlength
    | cons level levels =>
      rw [himode, List.tail_cons] at htail
      rw [htail]
      exact .opens level hroom (.refl _)
  case isFalse hroom => exact .full hroom hsame

theorem still_push (l : Lexer) (mode : LexMode) :
    (l.imode_push mode).peeked = l.peeked ∧ (l.imode_push mode).local_vars = l.local_vars ∧
      (l.imode_push mode).percent_close = l.percent_close ∧ l.imode_depth ≤ (l.imode_push mode).imode_depth := by
  unfold imode_push
  split
  · exact ⟨rfl, rfl, rfl, Nat.le_succ _⟩
  · exact ⟨rfl, rfl, rfl, Nat.le_refl _⟩

theorem Turned.effect (h : Turned l turn l') : Effect turn l l' := by
  have hframed := h.framed
  have hbody : ∀ depth < l.imode_depth, l'.hd_active = true → l'.hd_imode_depth = depth →
      l.hd_active = true ∧ l.hd_imode_depth = depth := by
    intro depth _ hactive heq
    rw [hframed.hd_active] at hactive
    rw [hframed.hd_imode_depth] at heq
    exact ⟨hactive, heq⟩
  cases h with
  | stays hmoved =>
    exact ⟨hframed.src, hmoved.peeked, hmoved.local_vars, .stays hmoved.same, hmoved.percent_close, hbody⟩
  | @opens l₁ _ mode hmoved hbehind =>
    obtain ⟨hpeeked, hlocal, hclose, hdepth⟩ := l₁.still_push mode
    have hnests : Nests l₁.imode .opens l'.imode := nests_push mode hbehind
    refine ⟨hframed.src, ?_, ?_, hmoved.nests hnests, fun i hi => ?_, hbody⟩
    · rw [hbehind.peeked, hpeeked, hmoved.peeked]
    · rw [hbehind.local_vars, hlocal, hmoved.local_vars]
    · have hlt : i + 1 < (l₁.imode_push mode).imode_depth := by
        rw [hmoved.imode_depth] at hdepth
        omega
      rw [hbehind.percent_close i hlt, hclose, hmoved.percent_close i hi]
  | @closes l₁ hmoved hmode =>
    exact ⟨hframed.src, hmoved.peeked, hmoved.local_vars, hmoved.nests (.closes (imode_top_nonempty hmode)),
      hmoved.percent_close, hbody⟩

end

/-! ### Heredocs -/

section heredocs
variable {l l' : Lexer}

theorem still_mark_rest_of_line (l : Lexer) : Still l l.mark_rest_of_line := by
  have hline := l.passed_next_line.still
  exact ⟨hline.src, hline.peeked, hline.local_vars, hline.imode, hline.percent_close, hline.hd_active,
    hline.hd_imode_depth⟩

theorem still_behind_line (l : Lexer) : Still l l.behind_line :=
  l.passed_opener.still.trans l.opener.2.still_mark_rest_of_line

theorem leave_heredoc_still (l : Lexer) (resume line line_start : Nat) :
    Still l (l.leave_heredoc resume line line_start) := by
  unfold leave_heredoc
  split <;> exact ⟨rfl, rfl, rfl, rfl, rfl, rfl, rfl⟩

/-- A body is a mode of its own. -/
theorem effect_push_body (hsrc : l'.src = l.src) (hpeeked : l'.peeked = l.peeked) (hlocal : l'.local_vars = l.local_vars)
    (himode : l'.imode = l.imode) (hclose : l'.percent_close = l.percent_close) :
    Effect .opens l { l'.imode_push .interp_str with hd_imode_depth := (l'.imode_push .interp_str).imode_depth } := by
  obtain ⟨hpeeked', hlocal', hclose', hdepth⟩ := l'.still_push .interp_str
  have hnests : Nests l'.imode .opens (l'.imode_push .interp_str).imode := nests_push .interp_str .refl
  refine ⟨(framed_imode_push _ _).src.trans hsrc, hpeeked'.trans hpeeked, hlocal'.trans hlocal, himode ▸ hnests, ?_, ?_⟩
  · intro i _
    exact congrArg (·.getD i '\x00') (hclose'.trans hclose)
  · intro depth hlt _ heq
    have hsame : l'.imode_depth = l.imode_depth := congrArg List.length himode
    dsimp only at heq
    omega

theorem begin_heredoc_effect {behind : Lexer} (h : Still l behind) (start line col : Nat) (style : HeredocStyle)
    (body_end : Nat) : Effect .opens l (l.begin_heredoc start line col style body_end behind).2 :=
  effect_push_body h.src h.peeked h.local_vars h.imode h.percent_close

theorem Still.stays (h : Still l l') : Effect .stays l l' where
  src := h.src
  peeked := h.peeked
  local_vars := h.local_vars
  imode := h.imode.symm ▸ .stays (.refl _)
  close _ _ := h.percent_close ▸ rfl
  body _ _ hactive heq := ⟨h.hd_active ▸ hactive, h.hd_imode_depth ▸ heq⟩

theorem scan_opener_effect (h : l.at_opener = true) : Effect l.scan_here.1.kind.turn l l.scan_here.2 := by
  have hline := l.still_behind_line
  have hfound : Passed l.behind_line l.body_found.2 := (find_terminator_spec ..).2.1
  rw [scan_at_opener_eq h]
  generalize l.body_found = found at hfound
  generalize l.behind_line = body at hline hfound
  dsimp only
  split
  · exact ((hline.trans hfound.still).trans (leave_heredoc_still ..)).stays
  · exact hline.effect (begin_heredoc_effect hfound.still ..)

theorem scan_here_effect (l : Lexer) : Effect l.scan_here.1.kind.turn l l.scan_here.2 := by
  cases hend : l.at_end with
  | true =>
    rw [scan_here, hend]
    exact (Passed.refl l).still.stays
  | false =>
    by_cases hline : l.peek_ch = '\n'
    · simp only [scan_here, hend, hline, scan_char, Bool.false_eq_true, if_false]
      exact l.passed_advance.still.stays
    · cases hopener : l.at_opener with
      | true => exact scan_opener_effect hopener
      | false => exact (l.stepped_here hend hline hopener).turned.effect

theorem after_indent_still (l : Lexer) : Still l l.after_indent := by
  have hskip (n : Nat) (l : Lexer) : Passed l (skip_indent n l) := by
    induction n generalizing l with
    | zero => exact .refl l
    | succ n ih =>
      rw [skip_indent]
      split
      · exact l.passed_advance.trans (ih _)
      · exact .refl l
  unfold after_indent
  split
  · have hstill := (hskip l.hd_min_indent l).still
    exact ⟨hstill.src, hstill.peeked, hstill.local_vars, hstill.imode, hstill.percent_close, hstill.hd_active,
      hstill.hd_imode_depth⟩
  · exact (Passed.refl l).still

theorem heredoc_content_still (fuel : Nat) (l : Lexer) : Still l (heredoc_content fuel l).2 := by
  induction fuel generalizing l with
  | zero => exact (Passed.refl l).still
  | succ fuel ih =>
    simp only [heredoc_content]
    split_ifs
    · exact (Passed.refl l).still
    · exact l.passed_advance.still
    · exact (l.passed_advance.trans (passed_advance _)).still.trans (ih _)
    · have hstill := l.passed_advance.still
      exact ⟨hstill.src, hstill.peeked, hstill.local_vars, hstill.imode, hstill.percent_close, hstill.hd_active,
        hstill.hd_imode_depth⟩
    · exact l.passed_advance.still.trans (ih _)

theorem scan_heredoc_content_effect (hmode : l.imode_top ≠ .normal) :
    Effect l.scan_heredoc_content.1.kind.turn l l.scan_heredoc_content.2 := by
  have hindent := l.after_indent_still
  rw [scan_heredoc_content_eq]
  dsimp only
  split
  · have hpopped : Effect .closes l.after_indent { l.after_indent.imode_pop with hd_active := false } :=
      ⟨rfl, rfl, rfl, .closes (hindent.imode ▸ imode_top_nonempty hmode), fun _ _ => rfl, nofun⟩
    exact hindent.effect (hpopped.still (leave_heredoc_still ..))
  · split
    · exact hindent.effect (stepped_begin_interpolation _).turned.effect
    · exact (hindent.trans (heredoc_content_still ..)).stays

/-- The effect of the next token. -/
theorem scan_effect (l : Lexer) : Effect l.scan.1.kind.turn l l.scan.2 := by
  have hcode : Effect l.skip_between.scan_here.1.kind.turn l l.skip_between.scan_here.2 :=
    l.still_skip_between.effect (scan_here_effect _)
  unfold scan
  split
  case h_1 hmode =>
    have hmode := hmode.trans_ne (show LexMode.interp_str ≠ .normal by decide)
    split
    · exact scan_heredoc_content_effect hmode
    · exact (l.stepped_interp_str_content hmode).turned.effect
  case h_2 hmode => exact (l.stepped_interp_str_content (hmode.trans_ne (by decide))).turned.effect
  case h_3 hmode => exact (l.stepped_interp_regex_content (hmode.trans_ne (by decide))).turned.effect
  case h_4 => exact hcode
  case h_5 => exact hcode

end heredocs

/-! ### Below a depth -/

section below
variable {l l' l'' : Lexer} {depth : Nat}

end below
end Lexer
end stoned
