import Stoned.MatchesLaw
import Stoned.PackLaw

namespace stoned.strings

open format

/-! What sub and gsub make of a string. -/

/-! ### String patterns -/

/-- The places at which a string stands, looked for from `p` on. -/
def needle_matches (s : List UInt8) (first : UInt8) (later : List UInt8) (p : Nat) : List RegexMatch :=
  if p < s.length then
    if (first :: later).isPrefixOf (s.drop p) then
      needle_match (first :: later) p :: needle_matches s first later (p + (first :: later).length)
    else needle_matches s first later (p + 1)
  else []
termination_by s.length - p
decreasing_by
  · simp only [List.length_cons]
    omega
  · omega

section
variable {s : List UInt8} {first : UInt8} {later : List UInt8}

theorem needle_matches_bound (p : Nat) : ∀ m ∈ needle_matches s first later p, p ≤ m.beg := by
  fun_induction needle_matches s first later p with
  | case1 p _ _ ih =>
    rw [List.forall_mem_cons]
    exact ⟨le_rfl, fun m hm => (Nat.le_add_right _ _).trans (ih m hm)⟩
  | case2 p _ _ ih => exact fun m hm => (Nat.le_succ p).trans (ih m hm)
  | case3 =>
    intro _ hm
    cases hm

theorem needle_matches_in_turn (p : Nat) : InTurn (needle_matches s first later p) := by
  fun_induction needle_matches s first later p with
  | case1 p _ _ ih =>
    refine List.Pairwise.cons (fun m hm => ?_) ih
    have hbound := needle_matches_bound _ m hm
    rw [List.length_cons] at hbound
    exact ⟨by simp only [needle_match]; omega, by simp only [needle_match, List.length_cons]; omega⟩
  | case2 p _ _ ih => exact ih
  | case3 => exact .nil

/-- They are places at which it stands. -/
theorem needle_matches_stand (p : Nat) :
    ∀ m ∈ needle_matches s first later p,
      stretch s m.beg m.ending = first :: later ∧ m.beg ≤ m.ending ∧ m.ending ≤ s.length := by
  fun_induction needle_matches s first later p with
  | case1 p _ hstands ih =>
    rw [List.forall_mem_cons]
    refine ⟨?_, ih⟩
    obtain ⟨rest, hrest⟩ := List.isPrefixOf_iff_prefix.mp hstands
    have hlength := congrArg List.length hrest
    rw [List.length_append, List.length_drop] at hlength
    refine ⟨?_, Nat.le_add_right _ _, by simp only [needle_match]; omega⟩
    rw [stretch, needle_match, Nat.add_sub_cancel_left, ← hrest, List.take_left]
  | case2 p _ _ ih => exact ih
  | case3 =>
    intro _ hm
    cases hm

end

section
variable {M : Type → Type} [Monad M] [LawfulMonad M] (s : CString) (first : UInt8) (later : List UInt8)
  (replace : RegexMatch → M (Except Value CString))

theorem splice_needle {p : Nat} {ms : List RegexMatch} (hms : ∀ m ∈ ms, p + 1 ≤ m.beg) (hp : p < s.bytes.length)
    (texts : List (List UInt8)) :
    splice s.bytes p (ms.zip texts) = s.bytes.getD p 0 :: splice s.bytes (p + 1) (ms.zip texts) := by
  rw [splice_succ, if_pos hp]
  · rfl
  · intro piece hpiece
    have hmem := List.mem_of_mem_head? hpiece
    exact hms piece.1 (List.of_mem_zip hmem).1

/-- The loop of gsub over a string pattern replaces these places and copies the rest. -/
theorem gsub_string_each_eq (p : Nat) (replaced : Bool) (buf : List UInt8) :
    gsub_string_each s first later true replace p replaced buf =
      visit_all replace (needle_matches s.bytes first later p) >>= fun done =>
        pure (done.map fun texts => buf ++ splice s.bytes p ((needle_matches s.bytes first later p).zip (texts.map CString.bytes))) := by
  fun_induction needle_matches s.bytes first later p generalizing replaced buf with
  | case1 p hp hstands ih =>
    rw [gsub_string_each, if_pos hp, if_neg (by simp [hstands]), visit_all, bind_assoc]
    refine bind_congr fun done => ?_
    cases done with
    | error out => simp [Except.map]
    | ok text =>
      simp only
      rw [ih, bind_assoc]
      refine bind_congr fun rest => ?_
      cases rest with
      | error out => simp [Except.map]
      | ok texts =>
        have hnone : stretch s.bytes p p = [] := by rw [stretch, Nat.sub_self, List.take_zero]
        simp only [Except.map, List.map_cons, List.zip_cons_cons, splice, List.append_assoc, pure_bind, needle_match, hnone,
          List.nil_append]
  | case2 p hp hstands ih =>
    rw [gsub_string_each, if_pos hp, if_pos (by simp [hstands]), ih]
    refine bind_congr fun done => ?_
    cases done with
    | error out => rfl
    | ok texts =>
      have hbound : ∀ m ∈ needle_matches s.bytes first later (p + 1), p + 1 ≤ m.beg := needle_matches_bound (p + 1)
      simp only [Except.map, splice_needle s hbound hp, List.append_assoc, List.singleton_append]
  | case3 p hp =>
    rw [gsub_string_each, if_neg hp, visit_all, pure_bind]
    simp [Except.map, splice, List.drop_eq_nil_of_le (Nat.not_lt.mp hp)]

omit [LawfulMonad M] in
theorem gsub_string_each_done (p : Nat) (buf : List UInt8) :
    gsub_string_each s first later false replace p true buf = pure (.ok (buf ++ s.bytes.drop p)) := by
  induction hleft : s.bytes.length - p generalizing p buf with
  | zero =>
    rw [gsub_string_each, if_neg (by omega), List.drop_eq_nil_of_le (by omega), List.append_nil]
  | succ left ih =>
    have hp : p < s.bytes.length := by omega
    rw [gsub_string_each, if_pos hp, if_pos (by simp), ih _ _ (by omega), drop_succ s.bytes p, if_pos hp, List.append_assoc]

theorem sub_string_each_eq (p : Nat) (buf : List UInt8) :
    gsub_string_each s first later false replace p false buf =
      visit_all replace ((needle_matches s.bytes first later p).take 1) >>= fun done =>
        pure (done.map fun texts =>
          buf ++ splice s.bytes p (((needle_matches s.bytes first later p).take 1).zip (texts.map CString.bytes))) := by
  fun_induction needle_matches s.bytes first later p generalizing buf with
  | case1 p hp hstands ih =>
    rw [gsub_string_each, if_pos hp, if_neg (by simp [hstands]), List.take_succ_cons, List.take_zero, visit_all,
      bind_assoc]
    refine bind_congr fun done => ?_
    cases done with
    | error out => simp [Except.map]
    | ok text =>
      have hnone : stretch s.bytes p p = [] := by rw [stretch, Nat.sub_self, List.take_zero]
      simp only [gsub_string_each_done, visit_all, pure_bind, Except.map, List.map_cons, List.zip_cons_cons, List.zip_nil_left, splice,
        needle_match, hnone, List.nil_append, List.append_assoc]
  | case2 p hp hstands ih =>
    rw [gsub_string_each, if_pos hp, if_pos (by simp [hstands]), ih]
    refine bind_congr fun done => ?_
    cases done with
    | error out => rfl
    | ok texts =>
      have hbound : ∀ m ∈ needle_matches s.bytes first later (p + 1), p + 1 ≤ m.beg := needle_matches_bound (p + 1)
      have hfirst : ∀ m ∈ (needle_matches s.bytes first later (p + 1)).take 1, p + 1 ≤ m.beg :=
        fun m hm => hbound m (List.mem_of_mem_take hm)
      simp only [Except.map, splice_needle s hfirst hp, List.append_assoc, List.singleton_append]
  | case3 p hp =>
    rw [gsub_string_each, if_neg hp, List.take_nil, visit_all, pure_bind]
    simp [Except.map, splice, List.drop_eq_nil_of_le (Nat.not_lt.mp hp)]

end

/-! ### Texts -/

section
variable {M : Type → Type} (caller : Caller M)

theorem text_val_string (b : List UInt8) : caller.text (val_string_n b) = .of b :=
  CString.ext (c_bytes_text b)

end

theorem stretch_no_nul (s : CString) (beg ending : Nat) : 0 ∉ stretch s.bytes beg ending :=
  fun hmem => s.no_nul (List.mem_of_mem_drop (List.mem_of_mem_take hmem))

theorem splice_no_nul (s : CString) (pos : Nat) (ms : List RegexMatch) (texts : List CString) :
    0 ∉ splice s.bytes pos (ms.zip (texts.map CString.bytes)) := by
  induction ms generalizing pos texts with
  | nil => exact fun hmem => s.no_nul (List.mem_of_mem_drop hmem)
  | cons m ms ih =>
    cases texts with
    | nil => exact fun hmem => s.no_nul (List.mem_of_mem_drop hmem)
    | cons text texts =>
      simp only [List.map_cons, List.zip_cons_cons, splice, List.mem_append, not_or]
      exact ⟨⟨stretch_no_nul s pos _, text.no_nul⟩, ih _ texts⟩

/-- A string with its own texts in the place of matches is the string. -/
theorem splice_own (s : CString) {pos : Nat} {ms : List RegexMatch} (hturn : InTurn ms)
    (hms : ∀ m ∈ ms, pos ≤ m.beg ∧ m.beg ≤ m.ending) :
    splice s.bytes pos (ms.map fun m => (m, stretch s.bytes m.beg m.ending)) = s.bytes.drop pos := by
  induction ms generalizing pos with
  | nil => rfl
  | cons m ms ih =>
    obtain ⟨hpos, hbeg⟩ := hms m List.mem_cons_self
    obtain ⟨hfirst, hrest⟩ := List.pairwise_cons.mp hturn
    have hlater : ∀ later ∈ ms, m.ending ≤ later.beg ∧ later.beg ≤ later.ending :=
      fun later hlater => ⟨(hfirst later hlater).2, (hms later (List.mem_cons_of_mem _ hlater)).2⟩
    rw [List.map_cons, splice, ih hrest hlater, List.append_assoc, stretch, stretch]
    have hown : (s.bytes.drop m.beg).take (m.ending - m.beg) ++ s.bytes.drop m.ending = s.bytes.drop m.beg := by
      conv_rhs => rw [← List.take_append_drop (m.ending - m.beg) (s.bytes.drop m.beg), List.drop_drop]
      rw [show m.beg + (m.ending - m.beg) = m.ending by omega]
    have hbefore : (s.bytes.drop pos).take (m.beg - pos) ++ s.bytes.drop m.beg = s.bytes.drop pos := by
      conv_rhs => rw [← List.take_append_drop (m.beg - pos) (s.bytes.drop pos), List.drop_drop]
      rw [show pos + (m.beg - pos) = m.beg by omega]
    rw [hown, hbefore]

/-- Texts put in the place of the same matches can be told from the results. -/
theorem splice_inj (s : List UInt8) {pos : Nat} {ms : List RegexMatch} (hms : ms ≠ []) {a b : List UInt8}
    (h : splice s pos (ms.map fun m => (m, a)) = splice s pos (ms.map fun m => (m, b))) : a = b := by
  have hlength (c : List UInt8) (pos : Nat) (ms : List RegexMatch) : (splice s pos (ms.map fun m => (m, c))).length =
      (splice s pos (ms.map fun m => (m, []))).length + ms.length * c.length := by
    induction ms generalizing pos with
    | nil => simp [splice]
    | cons m ms ih =>
      simp only [List.map_cons, splice, List.length_append, ih, List.length_cons, Nat.add_mul, List.length_nil]
      omega
  obtain ⟨m, rest, rfl⟩ := List.exists_cons_of_ne_nil hms
  have hsame : a.length = b.length := by
    have hlengths := congrArg List.length h
    rw [hlength a, hlength b] at hlengths
    exact Nat.eq_of_mul_eq_mul_left (by simp) (Nat.add_left_cancel hlengths)
  simp only [List.map_cons, splice, List.append_assoc] at h
  exact List.append_inj_left (List.append_cancel_left h) hsame

/-! ### Doubled backslashes -/

/-- A text with every backslash doubled. -/
def doubled (t : List UInt8) : List UInt8 := t.flatMap fun b => if b = 92 then [92, 92] else [b]

theorem doubled_cons (b : UInt8) (t : List UInt8) :
    doubled (b :: t) = (if b = 92 then [92, 92] else [b]) ++ doubled t := List.flatMap_cons

theorem c_str_cons {b : UInt8} (hb : b ≠ 0) (t : List UInt8) : c_str (b :: t) = b :: c_str t :=
  List.takeWhile_cons_of_pos (by simpa using hb)

theorem c_str_doubled (t : List UInt8) : c_str (doubled t) = doubled (c_str t) := by
  induction t with
  | nil => rfl
  | cons b t ih =>
    by_cases hnul : b = 0
    · subst hnul
      rfl
    · rw [doubled_cons, c_str_cons hnul, doubled_cons, ← ih]
      by_cases hslash : b = 92
      · rw [if_pos hslash, List.cons_append, List.singleton_append, c_str_cons (by decide), c_str_cons (by decide)]
        rfl
      · rw [if_neg hslash, List.singleton_append, c_str_cons hnul]
        rfl

theorem doubled_length (t : List UInt8) : (doubled t).length = t.length + t.count 92 := by
  induction t with
  | nil => rfl
  | cons b t ih =>
    rw [doubled_cons, List.length_append, ih, List.length_cons, List.count_cons]
    by_cases hslash : b = 92
    · simp [hslash]
      omega
    · simp [hslash]
      omega

theorem doubled_eq_iff (t : List UInt8) : doubled t = t ↔ 92 ∉ t := by
  constructor
  · intro h
    have hlength := congrArg List.length h
    rw [doubled_length] at hlength
    exact List.count_eq_zero.mp (by omega)
  · intro h
    induction t with
    | nil => rfl
    | cons b t ih =>
      obtain ⟨hb, ht⟩ := not_or.mp (mt List.mem_cons.mpr h)
      rw [doubled_cons, if_neg (Ne.symm hb), ih ht, List.singleton_append]

section
variable (s : CString) (source : Option (List UInt8)) (m : RegexMatch)

theorem expand_plain {b : UInt8} (hb : b ≠ 92) (raw : List UInt8) :
    expand s source m (b :: raw) = b :: expand s source m raw := by
  cases raw with
  | nil => simp [expand]
  | cons next rest => rw [expand, if_pos hb]

/-- The expansion of a text with every backslash doubled is the text. -/
theorem expand_doubled (t : List UInt8) : expand s source m (doubled t) = t := by
  induction t with
  | nil => simp [doubled, expand]
  | cons b t ih =>
    rw [doubled_cons]
    by_cases hslash : b = 92
    · subst hslash
      rw [if_pos rfl, List.cons_append, List.singleton_append, expand, if_neg (by decide), if_neg (by decide),
        if_neg (by decide), if_neg (fun h => absurd h.1 (by decide)), if_pos rfl, ih]
    · rw [if_neg hslash, List.singleton_append, expand_plain s source m hslash, ih]

end
/-! ### The law -/

namespace Pattern

/-- The matches of a pattern, which gsub replaces. -/
def all_matches {s : CString} : Pattern s.bytes.length → List RegexMatch
  | .regexp re _ => re.gsub_matches 0
  | .text ⟨[], _⟩ => []
  | .text ⟨first :: later, _⟩ => needle_matches s.bytes first later 0

/-- The matches that are replaced: all by gsub, the first by sub. -/
def replaced {s : CString} (pattern : Pattern s.bytes.length) (global : Bool) : List RegexMatch :=
  if global then pattern.all_matches else pattern.all_matches.take 1

/-- What a pattern matches: what its regexp does, or its own bytes. -/
def Matches {s : CString} (m : RegexMatch) : Pattern s.bytes.length → Prop
  | .regexp re _ => re.match_at m.beg = some m
  | .text needle => stretch s.bytes m.beg m.ending = needle.bytes

/-- What takes the place of a match. -/
def replace {M : Type → Type} [Monad M] (caller : Caller M) {s : CString} (pattern : Pattern s.bytes.length)
    (global blk : Bool) (replacement : Option Value) : RegexMatch → M (Except Value CString) :=
  match pattern with
  | .regexp _ source => replace_match caller s source global blk replacement
  | .text _ => replace_needle caller s global blk replacement

section
variable {s : CString} (pattern : Pattern s.bytes.length)

theorem all_matches_in_turn : InTurn pattern.all_matches := by
  rcases pattern with ⟨re, source⟩ | ⟨_ | ⟨first, later⟩, _⟩
  · exact re.gsub_matches_in_turn 0
  · exact .nil
  · exact needle_matches_in_turn 0

theorem all_matches_match : ∀ m ∈ pattern.all_matches, pattern.Matches m ∧ m.beg ≤ m.ending ∧ m.ending ≤ s.bytes.length := by
  rcases pattern with ⟨re, source⟩ | ⟨_ | ⟨first, later⟩, _⟩
  · exact re.gsub_matches_match 0
  · exact fun _ hm => nomatch hm
  · exact needle_matches_stand 0

end
end Pattern

section
variable {M : Type → Type} [Monad M] [LawfulMonad M] (caller : Caller M) {s : CString} (global blk : Bool)
  (recv : Value) (pattern : Pattern s.bytes.length) (replacement : Option Value)

/-- A loop that puts the texts in their places leaves them there. -/
theorem finish_text {each : M (Except Value (List UInt8))} {ms : List RegexMatch}
    (heach : each = visit_all (pattern.replace caller global blk replacement) ms >>= fun done =>
      pure (done.map fun texts => [] ++ splice s.bytes 0 (ms.zip (texts.map CString.bytes)))) :
    (fun v => (caller.text v).bytes) <$> (do
      match ← each with
      | .error out => return out
      | .ok buf => return val_string_n (c_str buf)) =
    visit_all (pattern.replace caller global blk replacement) ms >>= fun done =>
      pure (match done with
        | .error out => (caller.text out).bytes
        | .ok texts => splice s.bytes 0 (ms.zip (texts.map CString.bytes))) := by
  rw [heach, bind_assoc, map_bind]
  refine bind_congr fun done => ?_
  cases done with
  | error out => simp [Except.map]
  | ok texts =>
    have hnul := splice_no_nul s 0 ms texts
    simp only [Except.map, List.nil_append, pure_bind, map_pure, text_val_string, CString.bytes_of, c_str_eq hnul]

/-- sub and gsub put texts in the place of the matches they replace. -/
theorem substitute_text (hrecv : caller.text recv = s) :
    (fun v => (caller.text v).bytes) <$> substitute caller s global recv (some pattern) blk replacement =
      visit_all (pattern.replace caller global blk replacement) (pattern.replaced global) >>= fun done =>
        pure (match done with
          | .error out => (caller.text out).bytes
          | .ok texts => splice s.bytes 0 ((pattern.replaced global).zip (texts.map CString.bytes))) := by
  rcases pattern with ⟨re, source⟩ | ⟨_ | ⟨first, later⟩, hnul⟩
  · cases global with
    | true => exact finish_text caller _ blk _ replacement (gsub_each_eq re _ 0 false [])
    | false => exact finish_text caller _ blk _ replacement (sub_each_eq re _ 0 [])
  · have hnone : Pattern.replaced (s := s) (.text ⟨[], hnul⟩) global = [] := by
      cases global <;> rfl
    rw [hnone, visit_all, pure_bind, substitute, map_pure, hrecv]
    rfl
  · cases global with
    | true => exact finish_text caller _ blk _ replacement (gsub_string_each_eq s first later _ 0 false [])
    | false => exact finish_text caller _ blk _ replacement (sub_string_each_eq s first later _ 0 [])

end

/-- sub and gsub copy what they do not replace, also when a block answers what it is
handed, and put a text with every backslash doubled in as the text itself. -/
structure Substitutes {s : CString} (pattern : Pattern s.bytes.length) (t : List UInt8) : Prop where
  in_turn : InTurn pattern.all_matches
  matched : ∀ m ∈ pattern.all_matches, pattern.Matches m ∧ m.beg ≤ m.ending ∧ m.ending ≤ s.bytes.length
  copies : ∀ (M : Type → Type) [Monad M] [LawfulMonad M] (caller : Caller M) (global blk : Bool) (recv : Value)
    (replacement : Option Value), caller.text recv = s →
    (fun v => (caller.text v).bytes) <$> substitute caller s global recv (some pattern) blk replacement =
      visit_all (pattern.replace caller global blk replacement) (pattern.replaced global) >>= fun done =>
        pure (match done with
          | .error out => (caller.text out).bytes
          | .ok texts => splice s.bytes 0 ((pattern.replaced global).zip (texts.map CString.bytes)))
  own : ∀ (M : Type → Type) [Monad M] [LawfulMonad M] (caller : Caller M) (global : Bool) (recv : Value)
    (replacement : Option Value), caller.text recv = s →
    (∀ v, caller.call_block [v] = pure { value := v, errored := false }) →
    ∃ before : M Unit, (fun v => (caller.text v).bytes) <$> substitute caller s global recv (some pattern) true replacement =
      before >>= fun _ => pure s.bytes
  inserted : ∀ (M : Type → Type) [Monad M] [LawfulMonad M] (caller : Caller M) (global : Bool) (recv : Value),
    caller.text recv = s →
    (fun v => (caller.text v).bytes) <$>
        substitute caller s global recv (some pattern) false (some (val_string_n (doubled t))) =
      pure (splice s.bytes 0 ((pattern.replaced global).map fun m => (m, t)))

theorem zip_map_self {α β : Type} (f : α → β) (l : List α) : l.zip (l.map f) = l.map fun a => (a, f a) := by
  induction l with
  | nil => rfl
  | cons a l ih => rw [List.map_cons, List.zip_cons_cons, ih, List.map_cons]

section
variable {M : Type → Type} [Monad M] [LawfulMonad M] (caller : Caller M) {s : CString} (global : Bool)
  (recv : Value) (pattern : Pattern s.bytes.length) (replacement : Option Value)

theorem visit_all_ok {α ε : Type} (before : RegexMatch → M Unit) (f : RegexMatch → α) (ms : List RegexMatch) :
    visit_all (ε := ε) (fun m => before m >>= fun _ => pure (.ok (f m))) ms =
      ms.forM before >>= fun _ => pure (.ok (ms.map f)) := by
  induction ms with
  | nil => simp [visit_all]
  | cons m ms ih => simp only [visit_all, bind_assoc, pure_bind, ih, List.forM_eq_forM, List.forM_cons, List.map_cons]

theorem visit_all_pure {α ε : Type} (f : RegexMatch → α) (ms : List RegexMatch) :
    visit_all (M := M) (ε := ε) (fun m => pure (.ok (f m))) ms = pure (.ok (ms.map f)) := by
  induction ms with
  | nil => rfl
  | cons m ms ih => simp only [visit_all, pure_bind, ih, List.map_cons]

/-- The text put in for a replacement text with every backslash doubled. -/
def Pattern.put (pattern : Pattern s.bytes.length) (t : List UInt8) : CString :=
  match pattern with
  | .regexp .. => .of t
  | .text _ => .of (doubled t)

/-- A block that answers what it is handed leaves each match in its place. -/
theorem replace_own (hblock : ∀ v, caller.call_block [v] = pure { value := v, errored := false }) :
    ∃ before : RegexMatch → M Unit, pattern.replace caller global true replacement =
      fun m => before m >>= fun _ => pure (.ok (.of (stretch s.bytes m.beg m.ending))) := by
  have htext (m : RegexMatch) : block_text caller s m = pure (.ok (.of (stretch s.bytes m.beg m.ending))) := by
    rw [block_text, hblock, pure_bind]
    simp only [Bool.false_eq_true, if_false]
    rw [if_neg (by simp [val_string_n, val_string, val_is_signal, Value.kind, ValueKind.is_signal]), text_val_string]
  cases pattern with
  | regexp re source =>
    refine ⟨fun m => do
      set_captures caller s m 0 ["1", "2", "3", "4", "5", "6", "7", "8", "9"]
      caller.global_set "~" (← caller.build_match_data m), funext fun m => ?_⟩
    simp only [Pattern.replace, replace_match, if_true, htext, bind_assoc]
  | text needle =>
    refine ⟨fun _ => pure (), funext fun m => ?_⟩
    have hblock_text : Pattern.replace caller (s := s) (.text needle) global true replacement m = block_text caller s m := rfl
    rw [hblock_text, htext, pure_bind]

omit [LawfulMonad M] in
theorem replace_text (t : List UInt8) :
    pattern.replace caller global false (some (val_string_n (doubled t))) = fun _ => pure (.ok (pattern.put t)) := by
  have htext : (caller.text (val_string_n (doubled t))).bytes = doubled (c_str t) := by
    rw [text_val_string, CString.bytes_of, c_str_doubled]
  funext m
  cases pattern with
  | regexp re source =>
    have hexpand : Pattern.replace caller (.regexp re source) global false (some (val_string_n (doubled t))) m =
        pure (.ok (.of (expand s source m (caller.text (val_string_n (doubled t))).bytes))) := rfl
    have hof : CString.of (c_str t) = .of t := CString.of_bytes (.of t)
    rw [hexpand, htext, expand_doubled, hof]
    rfl
  | text needle =>
    have hraw : Pattern.replace caller (s := s) (.text needle) global false (some (val_string_n (doubled t))) m =
        pure (.ok (caller.text (val_string_n (doubled t)))) := rfl
    rw [hraw, text_val_string]
    rfl

theorem substitute_own (hrecv : caller.text recv = s)
    (hblock : ∀ v, caller.call_block [v] = pure { value := v, errored := false }) :
    ∃ before : M Unit, (fun v => (caller.text v).bytes) <$> substitute caller s global recv (some pattern) true replacement =
      before >>= fun _ => pure s.bytes := by
  obtain ⟨before, hbefore⟩ := replace_own caller global pattern replacement hblock
  refine ⟨(pattern.replaced global).forM before, ?_⟩
  rw [substitute_text caller global true recv pattern replacement hrecv, hbefore, visit_all_ok, bind_assoc]
  refine bind_congr fun _ => ?_
  have hown : ((pattern.replaced global).map fun m => CString.of (stretch s.bytes m.beg m.ending)).map CString.bytes =
      (pattern.replaced global).map fun m => stretch s.bytes m.beg m.ending := by
    rw [List.map_map]
    exact List.map_congr_left fun m _ => c_str_eq (stretch_no_nul s _ _)
  have hsub : (pattern.replaced global).Sublist pattern.all_matches := by
    cases global with
    | true => exact List.Sublist.refl _
    | false => exact List.take_sublist 1 _
  have hspliced := splice_own s (pattern.all_matches_in_turn.sublist hsub)
    fun m hm => ⟨Nat.zero_le m.beg, (pattern.all_matches_match m (hsub.subset hm)).2.1⟩
  simp only [pure_bind, hown, zip_map_self, hspliced, List.drop_zero]

theorem substitute_put (hrecv : caller.text recv = s) (t : List UInt8) :
    (fun v => (caller.text v).bytes) <$>
        substitute caller s global recv (some pattern) false (some (val_string_n (doubled t))) =
      pure (splice s.bytes 0 ((pattern.replaced global).map fun m => (m, (pattern.put t).bytes))) := by
  rw [substitute_text caller global false recv pattern _ hrecv, replace_text, visit_all_pure, pure_bind]
  simp only [List.map_map, Function.comp_def, zip_map_self]

end

/-- The doubled backslashes go where there is something to replace and the text has
no NUL and, for a string pattern, no backslash. -/
theorem put_eq_iff {s : CString} (pattern : Pattern s.bytes.length) (t : List UInt8) :
    (pattern.put t).bytes = t ↔ 0 ∉ t ∧ (92 ∈ t → ∃ re source, pattern = .regexp re source) := by
  cases pattern with
  | regexp re source =>
    constructor
    · intro h
      have hnul := c_str_no_nul t
      rw [show c_str t = t from h] at hnul
      exact ⟨hnul, fun _ => ⟨re, source, rfl⟩⟩
    · exact fun h => c_str_eq h.1
  | text needle =>
    have hput : (Pattern.put (s := s) (.text needle) t).bytes = doubled (c_str t) := c_str_doubled t
    rw [hput]
    constructor
    · intro h
      have hnul := c_str_no_nul (doubled t)
      rw [c_str_doubled, h] at hnul
      rw [c_str_eq hnul, doubled_eq_iff] at h
      exact ⟨hnul, fun hslash => absurd hslash h⟩
    · rintro ⟨hnul, hslash⟩
      rw [c_str_eq hnul]
      refine (doubled_eq_iff t).mpr fun hmem => ?_
      obtain ⟨_, _, heq⟩ := hslash hmem
      cases heq

/-- A caller whose functions do nothing. -/
def silent_caller : Caller Id where
  call_block _ := { value := .nil, errored := false }
  global_set _ _ := ()
  build_match_data _ := .nil
  eval_raise_class _ _ := .exception
  val_array_of _ := .nil
  host := { to_s := fun _ => [], hash_get := fun _ _ => none, fpu := nan_fpu }

theorem inserted_is_put {s : CString} {pattern : Pattern s.bytes.length} {t : List UInt8}
    (h : Substitutes pattern t) : pattern.all_matches = [] ∨ (pattern.put t).bytes = t := by
  by_cases hnone : pattern.all_matches = []
  · exact .inl hnone
  · have hrecv : silent_caller.text (val_string_n s.bytes) = s := by rw [text_val_string, CString.of_bytes]
    have hinserted := h.inserted Id silent_caller true _ hrecv
    rw [substitute_put silent_caller true _ pattern hrecv t] at hinserted
    exact .inr (splice_inj s.bytes hnone hinserted)

/-- `"a".gsub("a", "\\\\")`: the text put in has both backslashes. -/
theorem backslashes_stay_doubled :
    ¬ Substitutes (s := .of (program.ascii "a")) (.text (.of (program.ascii "a"))) (program.ascii "\\") := by
  intro h
  rcases inserted_is_put h with hnone | hput
  · have hfound : Pattern.all_matches (s := .of (program.ascii "a")) (.text (.of (program.ascii "a"))) =
        needle_match [97] 0 :: needle_matches [97] 97 [] 1 := by
      refine Eq.trans (b := needle_matches [97] 97 [] 0) rfl ?_
      rw [needle_matches, if_pos (by decide), if_pos (by decide)]
      rfl
    rw [hfound] at hnone
    cases hnone
  · cases hput

theorem substitutes_iff {s : CString} (pattern : Pattern s.bytes.length) (t : List UInt8) :
    Substitutes pattern t ↔
      pattern.all_matches = [] ∨ 0 ∉ t ∧ (92 ∈ t → ∃ re source, pattern = .regexp re source) := by
  rw [← put_eq_iff]
  constructor
  · exact inserted_is_put
  · intro h
    refine ⟨pattern.all_matches_in_turn, pattern.all_matches_match,
      fun M _ _ caller global blk recv replacement hrecv => substitute_text caller global blk recv pattern replacement hrecv,
      fun M _ _ caller global recv replacement hrecv hblock =>
        substitute_own caller global recv pattern replacement hrecv hblock,
      fun M _ _ caller global recv hrecv => ?_⟩
    rw [substitute_put caller global recv pattern hrecv]
    rcases h with hnone | hput
    · have hreplaced : pattern.replaced global = [] := by cases global <;> simp [Pattern.replaced, hnone]
      rw [hreplaced]
      rfl
    · rw [hput]

end stoned.strings
