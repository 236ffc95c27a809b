import Stoned.LockfileLaw

namespace stoned.bundle

open rubygems

/-! The settings of Bundler, and the file they are kept in (exe/bundle). -/

/-- The matches of the expressions for the lines of the file. -/
structure ConfigLines where
  /-- `/^(BUNDLE_\w+):\s*"([^"]*)"\s*$/` and its groups -/
  quoted : Text → Option (Text × Text)
  /-- `/^(BUNDLE_\w+):\s*(\S+)\s*$/` and its groups -/
  bare : Text → Option (Text × Text)

section
variable (E : ConfigLines)

/-- The setting on a line. -/
def config_entry (line : Text) : Option (Text × Text) :=
  let line := chomp line
  if line = bytes_of "---" ∨ strip line = [] then none else (E.quoted line).or (E.bare line)

def read_config_line (config : Gems) (line : Text) : Gems :=
  match config_entry E line with
  | some (k, v) => config.set k v
  | none => config

/-- What is read from a file, if there is one. -/
def read_bundle_config (file : Option Text) : Gems :=
  match file with
  | none => []
  | some text => (readlines text).foldl (read_config_line E) []

def config_line (k v : Text) : Text := k ++ bytes_of ": \"" ++ v ++ bytes_of "\""

/-- The text of the file. -/
def write_bundle_config (config : Gems) : Text :=
  [newline].intercalate (bytes_of "---" :: config.map fun setting => config_line setting.1 setting.2) ++ [newline]

/-- The key of a setting's name. -/
def config_env_key (upcase : Text → Text) (key : Text) : Text :=
  if (bytes_of "BUNDLE_").isPrefixOf (upcase key) then upcase key else bytes_of "BUNDLE_" ++ upcase key

/-- The file behind `config set`. -/
def config_set (upcase : Text → Text) (file : Option Text) (key value : Text) : Text :=
  write_bundle_config ((read_bundle_config E file).set (config_env_key upcase key) value)

end

def word_byte (c : UInt8) : Bool :=
  (0x30 ≤ c && c ≤ 0x39) || (0x41 ≤ c && c ≤ 0x5a) || (0x61 ≤ c && c ≤ 0x7a) || c = 0x5f

/-- The keys that are read: `BUNDLE_` and at least one character of a word. -/
def IsKey (k : Text) : Prop := ∃ w : Text, w ≠ [] ∧ (∀ c ∈ w, word_byte c = true) ∧ k = bytes_of "BUNDLE_" ++ w

/-- A line with a quoted value. -/
structure IsQuoted (line k v : Text) : Prop where
  key : IsKey k
  value : 0x22 ∉ v
  parts : ∃ b b' : Text, (∀ c ∈ b, Blank c) ∧ (∀ c ∈ b', Blank c) ∧ line = k ++ 0x3a :: (b ++ 0x22 :: (v ++ 0x22 :: b'))

/-- A line with a value without quotes. -/
structure IsBare (line k v : Text) : Prop where
  key : IsKey k
  value : Word v
  parts : ∃ b b' : Text, (∀ c ∈ b, Blank c) ∧ (∀ c ∈ b', Blank c) ∧ line = k ++ 0x3a :: (b ++ (v ++ b'))

/-- What read_bundle_config relies on its regular expressions for. -/
structure ConfigLines.Documented (E : ConfigLines) : Prop where
  quoted : ∀ line k v, newline ∉ line → (E.quoted line = some (k, v) ↔ IsQuoted line k v)
  bare : ∀ line k v, newline ∉ line → (E.bare line = some (k, v) ↔ IsBare line k v)

section keys
variable {k k' v rest : Text}

theorem IsKey.word (h : IsKey k) : ∀ c ∈ k, word_byte c = true := by
  obtain ⟨w, -, hw, rfl⟩ := h
  intro c hc
  rcases List.mem_append.mp hc with hfront | hback
  · exact List.all_eq_true.mp (show (bytes_of "BUNDLE_").all word_byte = true by decide) c hfront
  · exact hw c hback

theorem IsKey.not_mem (h : IsKey k) {c : UInt8} (hc : word_byte c = false) : c ∉ k := by
  intro hmem
  rw [h.word c hmem] at hc
  cases hc

theorem IsKey.length (h : IsKey k) : 8 ≤ k.length := by
  obtain ⟨w, hne, -, rfl⟩ := h
  have hpos := List.length_pos_iff.mpr hne
  rw [List.length_append]
  exact Nat.add_le_add (show 7 ≤ (bytes_of "BUNDLE_").length by decide) hpos

/-- A key ends at its colon. -/
theorem key_eq (h : IsKey k) (h' : IsKey k') {x y : Text} (heq : k ++ 0x3a :: x = k' ++ 0x3a :: y) : k = k' ∧ x = y := by
  have hcolon : 0x3a ∉ k := h.not_mem (by decide)
  have hcolon' : 0x3a ∉ k' := h'.not_mem (by decide)
  rcases List.append_eq_append_iff.mp heq with ⟨more, rfl, hmore⟩ | ⟨more, rfl, hmore⟩
  · cases more with
    | nil =>
      rw [List.append_nil]
      exact ⟨rfl, (List.cons.inj hmore).2⟩
    | cons c more =>
      obtain ⟨rfl, -⟩ := List.cons.inj hmore
      exact absurd (List.mem_append_right _ (List.mem_cons_self ..)) hcolon'
  · cases more with
    | nil =>
      rw [List.append_nil]
      exact ⟨rfl, (List.cons.inj hmore).2.symm⟩
    | cons c more =>
      obtain ⟨rfl, -⟩ := List.cons.inj hmore
      exact absurd (List.mem_append_right _ (List.mem_cons_self ..)) hcolon

/-- The blank behind the colon is passed over. -/
theorem blank_front {b x y : Text} (hb : ∀ c ∈ b, Blank c) (hx : ∀ c ∈ x.head?, ¬ Blank c)
    (heq : b ++ x = 0x20 :: 0x22 :: y) : x = 0x22 :: y := by
  cases b with
  | nil =>
    rw [List.nil_append] at heq
    exact absurd (show Blank 0x20 by decide) (hx 0x20 (by rw [heq]; rfl))
  | cons c b =>
    obtain ⟨-, hrest⟩ := List.cons.inj heq
    cases b with
    | nil => exact hrest
    | cons d b =>
      obtain ⟨rfl, -⟩ := List.cons.inj hrest
      exact absurd (hb 0x22 (by simp)) (by decide)

theorem quoted_after_key (hk : IsKey k) (h : IsQuoted (k ++ 0x3a :: 0x20 :: 0x22 :: rest) k' v) :
    k' = k ∧ 0x22 ∉ v ∧ ∃ b', (∀ c ∈ b', Blank c) ∧ rest = v ++ 0x22 :: b' := by
  obtain ⟨hkey, hvalue, b, b', hb, hb', hline⟩ := h
  obtain ⟨hsame, hbehind⟩ := key_eq hk hkey hline
  have hfront := blank_front hb (x := 0x22 :: (v ++ 0x22 :: b')) (by simp; decide) hbehind.symm
  exact ⟨hsame.symm, hvalue, b', hb', (List.cons.inj hfront).2.symm⟩

theorem bare_after_key (hk : IsKey k) (h : IsBare (k ++ 0x3a :: 0x20 :: 0x22 :: rest) k' v) :
    k' = k ∧ Word v ∧ ∃ b', (∀ c ∈ b', Blank c) ∧ v ++ b' = 0x22 :: rest := by
  obtain ⟨hkey, hvalue, b, b', hb, hb', hline⟩ := h
  obtain ⟨hsame, hbehind⟩ := key_eq hk hkey hline
  obtain ⟨c, v, rfl⟩ := List.exists_cons_of_ne_nil hvalue.1
  have hhead : ∀ d ∈ (c :: v ++ b').head?, ¬ Blank d := by
    intro d hd
    cases hd
    exact hvalue.2 c (List.mem_cons_self ..)
  have hfront := blank_front hb hhead hbehind.symm
  exact ⟨hsame.symm, hvalue, b', hb', hfront⟩

end keys

section lines
variable {E : ConfigLines} {k k' v v' rest : Text}

theorem utf8_decode_ascii : utf8_decode_one (0x42 :: rest) = some (0x42, 1) :=
  utf8_decode_one_eq_some_iff.mpr ⟨0x42, by decide, Nat.le_add_left 1 _, by rw [Nat.sub_self, List.take_zero]; rfl, by
    simp [utf8_refuses]⟩

theorem blank_width_key : blank_width (0x42 :: rest) = none := by
  rw [blank_width, utf8_decode_ascii]
  decide

/-- A text that begins with a letter is not blank. -/
theorem strip_right_key (n : Nat) (rest : Text) : ∃ rest', strip_right n (0x42 :: rest) = 0x42 :: rest' := by
  induction n generalizing rest with
  | zero => exact ⟨rest, rfl⟩
  | succ n ih =>
    rw [strip_right]
    split
    · rename_i hblank
      cases hprev : utf8_prev_char_start (0x42 :: rest) (0x42 :: rest).length with
      | zero =>
        rw [hprev, List.drop_zero, blank_width_key] at hblank
        exact absurd hblank.2 (by decide)
      | succ prev =>
        rw [List.take_succ_cons]
        exact ih _
    · exact ⟨rest, rfl⟩

theorem strip_key (rest : Text) : strip (0x42 :: rest) ≠ [] := by
  obtain ⟨rest', hrest⟩ := strip_right_key (0x42 :: rest).length rest
  have hleft : strip_left (0x42 :: rest).length (0x42 :: rest) = 0x42 :: rest := by
    rw [List.length_cons, strip_left, blank_width_key]
  rw [strip, hleft, hrest]
  exact List.cons_ne_nil _ _

/-- chomp drops a line end at most. -/
theorem chomp_cases {line : Text} (h : newline ∉ line) :
    chomp line = line ∨ ∃ front, line = front ++ [0x0d] ∧ chomp line = front := by
  by_cases hend : line.getLast? = some 0x0d
  · obtain ⟨front, rfl⟩ := List.getLast?_eq_some_iff.mp hend
    refine .inr ⟨front, rfl, ?_⟩
    unfold chomp
    rw [List.reverse_append, List.reverse_singleton, List.singleton_append]
    exact List.reverse_reverse front
  · exact .inl (chomp_none h hend)

/-- Behind the first quote: a value and the closing quote. -/
def QuotedRest (rest v : Text) : Prop := 0x22 ∉ v ∧ ∃ b' : Text, (∀ c ∈ b', Blank c) ∧ rest = v ++ 0x22 :: b'

/-- From the first quote on: a value without blanks. -/
def BareRest (rest v : Text) : Prop := Word v ∧ ∃ b' : Text, (∀ c ∈ b', Blank c) ∧ v ++ b' = 0x22 :: rest

/-- What is found behind the key of a written line. -/
def FoundRest (rest v : Text) : Prop := QuotedRest rest v ∨ (¬ ∃ v', QuotedRest rest v') ∧ BareRest rest v

/-- What is read of a line that was written, whole or up to a cut. -/
theorem entry_iff (hE : E.Documented) (hk : IsKey k) {piece : Text} (hrest : newline ∉ rest)
    (hpiece : chomp piece = k ++ 0x3a :: 0x20 :: 0x22 :: rest) : config_entry E piece = some (k', v) ↔ k' = k ∧ FoundRest rest v := by
  have hline : newline ∉ k ++ 0x3a :: 0x20 :: 0x22 :: rest := by
    have hkey : newline ∉ k := hk.not_mem (by decide)
    simp only [newline] at hkey hrest ⊢
    simp [hkey, hrest]
  have hquoted (k' v : Text) : E.quoted (k ++ 0x3a :: 0x20 :: 0x22 :: rest) = some (k', v) ↔ k' = k ∧ QuotedRest rest v := by
    rw [hE.quoted _ _ _ hline]
    constructor
    · intro h
      exact quoted_after_key hk h
    · rintro ⟨rfl, hv, b', hb', rfl⟩
      exact ⟨hk, hv, [0x20], b', by simp; decide, hb', rfl⟩
  have hbare (k' v : Text) : E.bare (k ++ 0x3a :: 0x20 :: 0x22 :: rest) = some (k', v) ↔ k' = k ∧ BareRest rest v := by
    rw [hE.bare _ _ _ hline]
    constructor
    · intro h
      exact bare_after_key hk h
    · rintro ⟨rfl, hv, b', hb', heq⟩
      exact ⟨hk, hv, [0x20], b', by simp; decide, hb', by rw [heq]; rfl⟩
  have hkept : ¬ (k ++ 0x3a :: 0x20 :: 0x22 :: rest = bytes_of "---" ∨ strip (k ++ 0x3a :: 0x20 :: 0x22 :: rest) = []) := by
    obtain ⟨w, -, -, rfl⟩ := hk
    rw [not_or]
    exact ⟨fun heq => absurd (List.cons.inj heq).1 (by decide), strip_key _⟩
  unfold config_entry
  simp only [hpiece]
  rw [if_neg hkept, Option.or_eq_some_iff, hquoted, hbare]
  have hnone : E.quoted (k ++ 0x3a :: 0x20 :: 0x22 :: rest) = none ↔ ¬ ∃ v', QuotedRest rest v' := by
    rw [Option.eq_none_iff_forall_ne_some, not_exists]
    constructor
    · exact fun h v' hv' => h (k, v') ((hquoted k v').mpr ⟨rfl, hv'⟩)
    · rintro h ⟨k', v'⟩ hsome
      exact h v' ((hquoted k' v').mp hsome).2
  rw [hnone]
  unfold FoundRest
  tauto

/-- A line that is read whole keeps a value without quotes. -/
theorem found_whole : FoundRest (v ++ [0x22]) v ↔ 0x22 ∉ v := by
  constructor
  · rintro (⟨hv, -⟩ | ⟨-, hword, b', hb', heq⟩)
    · exact hv
    · have hlength := congrArg List.length heq
      rw [List.length_append, List.length_cons, List.length_append, List.length_singleton] at hlength
      rcases b'.eq_nil_or_concat with rfl | ⟨front, c, rfl⟩
      · rw [List.length_nil] at hlength
        omega
      · rw [List.concat_eq_append, ← List.append_assoc, ← List.cons_append] at heq
        obtain ⟨-, hc⟩ := List.append_inj' heq rfl
        obtain rfl := List.singleton_inj.mp hc
        exact absurd (hb' 0x22 (by simp)) (by decide)
  · exact fun hv => .inl ⟨hv, [], by simp, rfl⟩

/-- No more is found than is shown. -/
theorem FoundRest.length_le (h : FoundRest rest v) : v.length ≤ rest.length + 1 := by
  rcases h with ⟨-, b', -, rfl⟩ | ⟨-, -, b', -, heq⟩
  · rw [List.length_append]
    omega
  · have hlength := congrArg List.length heq
    rw [List.length_append, List.length_cons] at hlength
    omega

/-- Without the last quote a value is not found. -/
theorem not_found_open : ¬ FoundRest v v := by
  rintro (⟨-, b', -, heq⟩ | ⟨-, hword, b', hb', heq⟩)
  · have hlength := congrArg List.length heq
    rw [List.length_append, List.length_cons] at hlength
    omega
  · have hlength := congrArg List.length heq
    rw [List.length_append, List.length_cons] at hlength
    obtain ⟨c, rfl⟩ := List.length_eq_one_iff.mp (show b'.length = 1 by omega)
    obtain ⟨front, last, rfl⟩ := (v.eq_nil_or_concat).resolve_left hword.1
    rw [List.concat_eq_append, ← List.cons_append] at heq
    obtain ⟨-, hc⟩ := List.append_inj' heq rfl
    obtain rfl := List.singleton_inj.mp hc
    exact hword.2 c (by simp) (hb' c (by simp))

theorem replicate_of_shift {u : Text} {c d : UInt8} (h : u ++ [c] = d :: u) : u ++ [c] = List.replicate (u.length + 1) d := by
  induction u with
  | nil => exact h
  | cons e u ih =>
    obtain ⟨rfl, hrest⟩ := List.cons.inj h
    rw [List.length_cons, List.replicate_succ, ← ih hrest]
    rfl

/-- With its last byte cut off too, only a value of quotes is found, but not one
of two. -/
theorem found_cut {u : Text} {c : UInt8} :
    FoundRest u (u ++ [c]) ↔ ∃ n, u ++ [c] = List.replicate n 0x22 ∧ n ≠ 2 := by
  constructor
  · rintro (⟨-, b', -, heq⟩ | ⟨hnone, hword, b', hb', heq⟩)
    · have hlength := congrArg List.length heq
      rw [List.length_append, List.length_append, List.length_cons] at hlength
      omega
    · have hlength := congrArg List.length heq
      simp only [List.length_append, List.length_cons, List.length_nil] at hlength
      obtain rfl : b' = [] := List.eq_nil_of_length_eq_zero (by omega)
      rw [List.append_nil] at heq
      refine ⟨u.length + 1, replicate_of_shift heq, fun htwo => hnone ⟨[], List.not_mem_nil, [], by simp, ?_⟩⟩
      obtain ⟨d, rfl⟩ := List.length_eq_one_iff.mp (show u.length = 1 by omega)
      exact congrArg (fun c => [c]) (List.cons.inj heq).1
  · rintro ⟨n, heq, hn⟩
    obtain ⟨n, rfl⟩ : ∃ m, n = m + 1 := by
      cases n with
      | zero => exact absurd heq (by simp)
      | succ n => exact ⟨n, rfl⟩
    rw [List.replicate_succ'] at heq
    obtain ⟨rfl, hc⟩ := List.append_inj' heq rfl
    obtain rfl := List.singleton_inj.mp hc
    refine .inr ⟨?_, ⟨by simp, ?_⟩, [], by simp, ?_⟩
    · rintro ⟨v', hv', b', hb', hrest⟩
      have hall : ∀ c ∈ v' ++ 0x22 :: b', c = 0x22 := by
        rw [← hrest]
        exact fun c hc => List.eq_of_mem_replicate hc
      cases v' with
      | cons c v' => exact hv' (hall c (by simp) ▸ List.mem_cons_self ..)
      | nil =>
        cases b' with
        | cons c b' =>
          have hquote := hall c (by simp)
          rw [hquote] at hb'
          exact absurd (hb' 0x22 (List.mem_cons_self ..)) (by decide)
        | nil =>
          have hlength := congrArg List.length hrest
          rw [List.length_replicate] at hlength
          exact hn (by rw [hlength]; rfl)
    · intro c hc
      rw [← List.replicate_succ'] at hc
      rw [List.eq_of_mem_replicate hc]
      decide
    · rw [List.append_nil, ← List.replicate_succ', List.replicate_succ]

theorem not_found_return : ¬ FoundRest rest (rest ++ [0x0d]) := by
  rintro (⟨-, b', -, heq⟩ | ⟨-, hword, -⟩)
  · have hlength := congrArg List.length heq
    simp only [List.length_append, List.length_cons] at hlength
    omega
  · exact hword.2 0x0d (by simp) (by decide)

/-- A line cut behind its colon shows no setting. -/
theorem entry_blank (hE : E.Documented) (hk : IsKey k) {piece blanks : Text} (hblanks : ∀ c ∈ blanks, c = 0x20)
    (hpiece : chomp piece = k ++ 0x3a :: blanks) : config_entry E piece = none := by
  have hblank : ∀ c ∈ blanks, Blank c := by
    intro c hc
    rw [hblanks c hc]
    decide
  have hline : newline ∉ k ++ 0x3a :: blanks := by
    have hkey : newline ∉ k := hk.not_mem (by decide)
    have hrest : newline ∉ blanks := fun hc => absurd (hblanks _ hc) (by decide)
    simp only [newline] at hkey hrest ⊢
    simp [hkey, hrest]
  have hquoted : E.quoted (k ++ 0x3a :: blanks) = none := by
    rw [Option.eq_none_iff_forall_ne_some]
    rintro ⟨k', v⟩ hsome
    obtain ⟨hkey, -, b, b', -, -, heq⟩ := (hE.quoted _ _ _ hline).mp hsome
    obtain ⟨-, rfl⟩ := key_eq hk hkey heq
    exact absurd (hblank 0x22 (by simp)) (by decide)
  have hbare : E.bare (k ++ 0x3a :: blanks) = none := by
    rw [Option.eq_none_iff_forall_ne_some]
    rintro ⟨k', v⟩ hsome
    obtain ⟨hkey, hword, b, b', -, -, heq⟩ := (hE.bare _ _ _ hline).mp hsome
    obtain ⟨-, rfl⟩ := key_eq hk hkey heq
    obtain ⟨c, v, rfl⟩ := List.exists_cons_of_ne_nil hword.1
    exact hword.2 c (List.mem_cons_self ..) (hblank c (by simp))
  unfold config_entry
  simp only [hpiece, hquoted, hbare]
  exact ite_self none

/-- Nor does a short piece. -/
theorem entry_short_piece (hE : E.Documented) {piece : Text} (hpiece : newline ∉ chomp piece) (hlength : (chomp piece).length < 8) :
    config_entry E piece = none := by
  have hquoted : E.quoted (chomp piece) = none := by
    rw [Option.eq_none_iff_forall_ne_some]
    rintro ⟨k', v⟩ hsome
    obtain ⟨hkey, -, b, b', -, -, heq⟩ := (hE.quoted _ _ _ hpiece).mp hsome
    have hkey := hkey.length
    rw [heq, List.length_append] at hlength
    omega
  have hbare : E.bare (chomp piece) = none := by
    rw [Option.eq_none_iff_forall_ne_some]
    rintro ⟨k', v⟩ hsome
    obtain ⟨hkey, -, b, b', -, -, heq⟩ := (hE.bare _ _ _ hpiece).mp hsome
    have hkey := hkey.length
    rw [heq, List.length_append] at hlength
    omega
  unfold config_entry
  simp only [hquoted, hbare]
  exact ite_self none

end lines

/-- The settings that are read back: the key is one of those that are read, and
the value has no quote and its line fits the buffer, or, of what does not fit, is
made of quotes where two bytes are cut off. -/
def Kept (setting : Text × Text) : Prop :=
  IsKey setting.1 ∧ (0x22 ∉ setting.2 ∧ (config_line setting.1 setting.2).length ≤ 4095 ∨
    (config_line setting.1 setting.2).length = 4097 ∧ ∃ n, setting.2 = List.replicate n 0x22 ∧ n ≠ 0 ∧ n ≠ 2)

section written
variable {E : ConfigLines} {k v : Text}

theorem config_line_eq (k v : Text) : config_line k v = k ++ 0x3a :: 0x20 :: 0x22 :: (v ++ [0x22]) := by
  have hopen : bytes_of ": \"" = [0x3a, 0x20, 0x22] := by decide
  have hclose : bytes_of "\"" = [0x22] := by decide
  rw [config_line, hopen, hclose]
  simp

theorem config_line_length (k v : Text) : (config_line k v).length = k.length + v.length + 4 := by
  rw [config_line_eq]
  simp only [List.length_append, List.length_cons, List.length_nil]
  omega

theorem newline_notMem_config_line (hk : IsKey k) (hv : newline ∉ v) : newline ∉ config_line k v := by
  have hkey : newline ∉ k := hk.not_mem (by decide)
  rw [config_line_eq]
  simp only [newline] at hkey hv ⊢
  simp [hkey, hv]

/-- What is found on a line up to a cut inside its value. -/
theorem entry_cut (hE : E.Documented) (hk : IsKey k) {u : Text} (hu : newline ∉ u) :
    ∃ rest, (rest = u ∨ u = rest ++ [0x0d]) ∧
      ∀ k' v', config_entry E (k ++ 0x3a :: 0x20 :: 0x22 :: u) = some (k', v') ↔ k' = k ∧ FoundRest rest v' := by
  have hline : newline ∉ k ++ 0x3a :: 0x20 :: 0x22 :: u := by
    have hkey : newline ∉ k := hk.not_mem (by decide)
    simp only [newline] at hkey hu ⊢
    simp [hkey, hu]
  rcases chomp_cases hline with hwhole | ⟨front, hfront, hchomp⟩
  · exact ⟨u, .inl rfl, fun k' v' => entry_iff hE hk hu hwhole⟩
  · rcases u.eq_nil_or_concat with rfl | ⟨rest, c, rfl⟩
    · have hend : k ++ 0x3a :: 0x20 :: [0x22] = (k ++ 0x3a :: [0x20]) ++ [0x22] := by simp
      rw [hend] at hfront
      exact absurd (List.singleton_inj.mp (List.append_inj' hfront rfl).2) (by decide)
    · rw [List.concat_eq_append] at *
      have hend : k ++ 0x3a :: 0x20 :: 0x22 :: (rest ++ [c]) = (k ++ 0x3a :: 0x20 :: 0x22 :: rest) ++ [c] := by simp
      rw [hend] at hfront hchomp
      obtain ⟨rfl, hc⟩ := List.append_inj' hfront rfl
      obtain rfl := List.singleton_inj.mp hc
      refine ⟨rest, .inr rfl, fun k' v' => ?_⟩
      rw [hend]
      exact entry_iff hE hk (fun hmem => hu (List.mem_append_left _ hmem)) hchomp

/-- Nothing is found, or the value is one of quotes and two bytes are cut off. -/
theorem entry_front (hE : E.Documented) (hk : IsKey k) (hv : newline ∉ v) {front back : Text} (hcut : config_line k v = front ++ back)
    (hpos : 1 ≤ back.length) (hback : back.length ≤ 3) :
    (∀ k' v', config_entry E front = some (k', v') → k' = k) ∧
      (config_entry E front = some (k, v) ↔ back.length = 2 ∧ ∃ n, v = List.replicate n 0x22 ∧ n ≠ 0 ∧ n ≠ 2) := by
  -- a cut inside the value, with the bytes of it that are lost
  have hinside {u z : Text} (hvu : v = u ++ z) (hfront : front = k ++ 0x3a :: 0x20 :: 0x22 :: u)
      (hfound : ∀ rest, rest = u ∨ u = rest ++ [0x0d] →
        (FoundRest rest v ↔ back.length = 2 ∧ ∃ n, v = List.replicate n 0x22 ∧ n ≠ 0 ∧ n ≠ 2)) :
      (∀ k' v', config_entry E front = some (k', v') → k' = k) ∧
        (config_entry E front = some (k, v) ↔ back.length = 2 ∧ ∃ n, v = List.replicate n 0x22 ∧ n ≠ 0 ∧ n ≠ 2) := by
    have hu : newline ∉ u := fun hmem => hv (hvu ▸ List.mem_append_left _ hmem)
    obtain ⟨rest, hrest, hentry⟩ := entry_cut hE hk hu
    rw [hfront]
    refine ⟨fun k' v' hsome => ((hentry k' v').mp hsome).1, ?_⟩
    rw [hentry, hfound rest hrest]
    exact and_iff_right rfl
  -- a cut before it
  have hbefore {b : Text} (hblanks : ∀ c ∈ b, c = 0x20) (hfront : front = k ++ 0x3a :: b)
      (hnone : ¬ (back.length = 2 ∧ ∃ n, v = List.replicate n 0x22 ∧ n ≠ 0 ∧ n ≠ 2)) :
      (∀ k' v', config_entry E front = some (k', v') → k' = k) ∧
        (config_entry E front = some (k, v) ↔ back.length = 2 ∧ ∃ n, v = List.replicate n 0x22 ∧ n ≠ 0 ∧ n ≠ 2) := by
    have hline : newline ∉ front := fun hmem =>
      newline_notMem_config_line hk hv (hcut ▸ List.mem_append_left _ hmem)
    have hchomp : chomp front = front := by
      refine chomp_none hline ?_
      rw [hfront]
      intro hend
      have hmem := List.mem_of_getLast? hend
      rcases List.mem_append.mp hmem with hkey | hrest
      · exact hk.not_mem (by decide) hkey
      · rcases List.mem_cons.mp hrest with hcolon | hblank
        · cases hcolon
        · exact absurd (hblanks _ hblank) (by decide)
    rw [entry_blank hE hk hblanks (hchomp.trans hfront)]
    exact ⟨fun k' v' hsome => (by cases hsome), iff_of_false (by simp) hnone⟩
  have hnotTwo (hne : back.length ≠ 2) : ¬ (back.length = 2 ∧ ∃ n, v = List.replicate n 0x22 ∧ n ≠ 0 ∧ n ≠ 2) := fun h => hne h.1
  have hempty (hv : v = []) : ¬ (back.length = 2 ∧ ∃ n, v = List.replicate n 0x22 ∧ n ≠ 0 ∧ n ≠ 2) := by
    rintro ⟨-, n, hn, hne, -⟩
    rw [hv] at hn
    exact hne (by simpa using (congrArg List.length hn).symm)
  rw [config_line_eq] at hcut
  -- the bytes that are cut off, from the end
  have hsplit {x y : Text} (hwhole : k ++ 0x3a :: 0x20 :: 0x22 :: (v ++ [0x22]) = x ++ y) (hlength : y.length = back.length) : front = x :=
    (List.append_inj' (hcut.symm.trans hwhole) hlength.symm).1
  rcases (show back.length = 1 ∨ back.length = 2 ∨ back.length = 3 by omega) with hone | htwo | hthree
  · refine hinside (List.append_nil v).symm (hsplit (y := [0x22]) (by simp) hone.symm) ?_
    rintro rest (rfl | rfl)
    · exact iff_of_false not_found_open (hnotTwo (by omega))
    · exact iff_of_false not_found_return (hnotTwo (by omega))
  · rcases v.eq_nil_or_concat with rfl | ⟨u, c, rfl⟩
    · exact hbefore (by simp) (hsplit (x := k ++ 0x3a :: [0x20]) (y := [0x22, 0x22]) (by simp) htwo.symm) (hempty rfl)
    · rw [List.concat_eq_append] at *
      refine hinside rfl (hsplit (y := [c, 0x22]) (by simp) htwo.symm) ?_
      rintro rest (rfl | rfl)
      · rw [found_cut]
        constructor
        · rintro ⟨n, hn, hne⟩
          refine ⟨htwo, n, hn, ?_, hne⟩
          rintro rfl
          exact absurd hn (by simp)
        · rintro ⟨-, n, hn, -, hne⟩
          exact ⟨n, hn, hne⟩
      · refine iff_of_false (fun h => ?_) ?_
        · have := h.length_le
          simp at this
        · rintro ⟨-, n, hn, -⟩
          have hreturn : (0x0d : UInt8) ∈ List.replicate n 0x22 := hn ▸ (by simp)
          exact absurd (List.eq_of_mem_replicate hreturn) (by decide)
  · rcases v.eq_nil_or_concat with rfl | ⟨v, c, rfl⟩
    · exact hbefore (b := []) (by simp) (hsplit (y := [0x20, 0x22, 0x22]) (by simp) hthree.symm) (hempty rfl)
    · rcases v.eq_nil_or_concat with rfl | ⟨u, d, rfl⟩
      · exact hbefore (by simp) (hsplit (x := k ++ 0x3a :: [0x20]) (y := [0x22, c, 0x22]) (by simp) hthree.symm) (hnotTwo (by omega))
      · rw [List.concat_eq_append, List.concat_eq_append] at *
        refine hinside (List.append_assoc u [d] [c]) (hsplit (x := k ++ 0x3a :: 0x20 :: 0x22 :: u) (y := [d, c, 0x22]) (by simp) hthree.symm) ?_
        intro rest hrest
        refine iff_of_false (fun h => ?_) (hnotTwo (by omega))
        have hlength := h.length_le
        rcases hrest with rfl | rfl
        · simp at hlength
        · simp at hlength

/-- What is found on a written line, in however many pieces it is read. -/
theorem line_entries (hE : E.Documented) (hk : IsKey k) (hv : newline ∉ v) (hlength : (config_line k v).length ≤ 4098) :
    ∃ found, (pieces (config_line k v)).filterMap (config_entry E) = found.toList ∧ (∀ k' v', found = some (k', v') → k' = k) ∧
      (found = some (k, v) ↔ Kept (k, v)) := by
  have hline := newline_notMem_config_line hk hv
  have hrest : newline ∉ v ++ [0x22] := by
    simp only [newline] at hv ⊢
    simp [hv]
  have hlast : (config_line k v).getLast? = some 0x22 := by
    rw [config_line_eq, show k ++ 0x3a :: 0x20 :: 0x22 :: (v ++ [0x22]) = (k ++ 0x3a :: 0x20 :: 0x22 :: v) ++ [0x22] by simp]
    exact List.getLast?_concat
  have hend : (config_line k v).getLast? ≠ some 0x0d := by
    rw [hlast]
    decide
  have hwhole {piece : Text} (hpiece : chomp piece = config_line k v) (hfits : (config_line k v).length ≤ 4095) :
      (∀ k' v', config_entry E piece = some (k', v') → k' = k) ∧ (config_entry E piece = some (k, v) ↔ Kept (k, v)) := by
    rw [config_line_eq] at hpiece
    refine ⟨fun k' v' hsome => ((entry_iff hE hk hrest hpiece).mp hsome).1, ?_⟩
    rw [entry_iff hE hk hrest hpiece, and_iff_right rfl, found_whole]
    unfold Kept
    rw [and_iff_right hk]
    constructor
    · exact fun hnone => .inl ⟨hnone, hfits⟩
    · rintro (⟨hnone, -⟩ | ⟨hlong, -⟩)
      · exact hnone
      · exact absurd hlong (by change (config_line k v).length ≠ 4097; omega)
  rcases Nat.lt_or_ge (config_line k v).length 4095 with hshort | hlong
  · refine ⟨config_entry E (config_line k v ++ [newline]), ?_, hwhole (chomp_newline hend) hshort.le⟩
    rw [pieces_short hline hshort]
    cases hentry : config_entry E (config_line k v ++ [newline]) <;> simp [hentry]
  · obtain ⟨front, back, hcut, hfront, hpieces⟩ := pieces_cut hline hlong
    have hlengths := congrArg List.length hcut
    rw [List.length_append] at hlengths
    have hback : newline ∉ back := fun hmem => hline (hcut ▸ List.mem_append_right _ hmem)
    have hbackend : back.getLast? ≠ some 0x0d := by
      intro hreturn
      rw [hcut, List.getLast?_append, hreturn] at hlast
      cases hlast
    have hnone : config_entry E (back ++ [newline]) = none := by
      refine entry_short_piece hE ?_ ?_
      · rwa [chomp_newline hbackend]
      · rw [chomp_newline hbackend]
        omega
    refine ⟨config_entry E front, ?_, ?_⟩
    · rw [hpieces, pieces_short hback (by omega)]
      cases hentry : config_entry E front <;> simp [hentry, hnone]
    · rcases Nat.eq_zero_or_pos back.length with hzero | hpos
      · obtain rfl := List.eq_nil_of_length_eq_zero hzero
        rw [List.append_nil] at hcut
        exact hwhole (hcut ▸ chomp_none hline hend) (by omega)
      · obtain ⟨hkey, hfound⟩ := entry_front hE hk hv hcut hpos (by omega)
        refine ⟨hkey, hfound.trans ?_⟩
        unfold Kept
        rw [and_iff_right hk]
        constructor
        · rintro ⟨htwo, hquotes⟩
          exact .inr ⟨by change (config_line k v).length = 4097; omega, hquotes⟩
        · rintro (⟨-, hfits⟩ | ⟨hlong, hquotes⟩)
          · change (config_line k v).length ≤ 4095 at hfits
            omega
          · change (config_line k v).length = 4097 at hlong
            exact ⟨by omega, hquotes⟩

end written

section round_trip
variable {E : ConfigLines} {config : Gems}

/-- What a piece shows has no line end and is no longer than the buffer. -/
theorem readlines_shape {buffer text piece : Text} (hbuffer : newline ∉ buffer) (hlength : buffer.length < 4095)
    (h : piece ∈ readlines_from buffer text) :
    ∃ front, newline ∉ front ∧ (piece = front ∨ piece = front ++ [newline]) ∧ front.length ≤ 4095 := by
  induction text generalizing buffer with
  | nil =>
    rw [readlines_from] at h
    split at h
    · cases h
    · rw [List.mem_singleton] at h
      exact ⟨buffer, hbuffer, .inl h, hlength.le⟩
  | cons c text ih =>
    rw [readlines_from] at h
    split at h
    · rename_i hcut
      rcases List.mem_cons.mp h with hpiece | hrest
      · by_cases hc : c = newline
        · exact ⟨buffer, hbuffer, .inr (hc ▸ hpiece), hlength.le⟩
        · refine ⟨buffer ++ [c], ?_, .inl hpiece, by rw [List.length_append]; exact hlength⟩
          rw [List.mem_append, List.mem_singleton, not_or]
          exact ⟨hbuffer, Ne.symm hc⟩
      · exact ih List.not_mem_nil (by decide) hrest
    · rename_i hcut
      rw [not_or] at hcut
      refine ih ?_ ?_ h
      · rw [List.mem_append, List.mem_singleton, not_or]
        exact ⟨hbuffer, Ne.symm hcut.1⟩
      · rw [List.length_append, List.length_singleton]
        omega

theorem chomp_piece {front piece : Text} (hfront : newline ∉ front) (hpiece : piece = front ∨ piece = front ++ [newline]) :
    newline ∉ chomp piece ∧ (chomp piece).length ≤ front.length := by
  have hreturn {x : Text} (hx : front = x ++ [0x0d]) : newline ∉ x ∧ x.length ≤ front.length := by
    rw [hx]
    exact ⟨fun hmem => hfront (hx ▸ List.mem_append_left _ hmem), by simp⟩
  rcases hpiece with rfl | rfl
  · rcases chomp_cases hfront with hsame | ⟨x, hx, hchomp⟩
    · rw [hsame]
      exact ⟨hfront, Nat.le_refl _⟩
    · rw [hchomp]
      exact hreturn hx
  · by_cases hend : front.getLast? = some 0x0d
    · obtain ⟨x, hx⟩ := List.getLast?_eq_some_iff.mp hend
      have hchomp : chomp (front ++ [newline]) = x := by
        rw [hx]
        unfold chomp
        rw [List.reverse_append, List.reverse_append]
        exact List.reverse_reverse x
      rw [hchomp]
      exact hreturn hx
    · rw [chomp_newline hend]
      exact ⟨hfront, Nat.le_refl _⟩

/-- A setting that is read stood on one piece, after a key. -/
theorem entry_bounds (hE : E.Documented) {piece k v : Text} (hpiece : newline ∉ chomp piece)
    (h : config_entry E piece = some (k, v)) : IsKey k ∧ newline ∉ v ∧ k.length + v.length < (chomp piece).length := by
  unfold config_entry at h
  simp only at h
  split at h
  · cases h
  · rcases Option.or_eq_some_iff.mp h with hquoted | ⟨-, hbare⟩
    · obtain ⟨hkey, -, b, b', -, -, heq⟩ := (hE.quoted _ _ _ hpiece).mp hquoted
      refine ⟨hkey, fun hmem => hpiece (by rw [heq]; simp [hmem]), ?_⟩
      rw [heq]
      simp only [List.length_append, List.length_cons]
      omega
    · obtain ⟨hkey, -, b, b', -, -, heq⟩ := (hE.bare _ _ _ hpiece).mp hbare
      refine ⟨hkey, fun hmem => hpiece (by rw [heq]; simp [hmem]), ?_⟩
      rw [heq]
      simp only [List.length_append, List.length_cons]
      omega

/-- The settings on the pieces, in their order. -/
def entries (E : ConfigLines) (text : Text) : Gems := (readlines text).filterMap (config_entry E)

theorem read_eq (text : Text) : read_bundle_config E (some text) = collect [] (entries E text) := by
  have hfold (lines : List Text) (found : Gems) : lines.foldl (read_config_line E) found = collect found (lines.filterMap (config_entry E)) := by
    induction lines generalizing found with
    | nil => rfl
    | cons line lines ih =>
      rw [List.foldl_cons, ih, read_config_line]
      cases hentry : config_entry E line with
      | none => rw [List.filterMap_cons_none hentry]
      | some setting =>
        rw [List.filterMap_cons_some hentry]
        rfl
  exact hfold (readlines text) []

theorem mem_of_collect_value {found : Gems} {k v : Text} (h : (collect [] found).value k = some v) : (k, v) ∈ found := by
  have hmem (found gems : Gems) (h : (collect gems found).value k = some v) : (k, v) ∈ found ∨ gems.value k = some v := by
    induction found generalizing gems with
    | nil => exact .inr h
    | cons setting found ih =>
      rcases ih (gems.set setting.1 setting.2) h with hlater | hnow
      · exact .inl (List.mem_cons_of_mem _ hlater)
      · rw [set_value] at hnow
        split at hnow
        · rename_i hkey
          refine .inl ?_
          rw [← hkey, ← Option.some.inj hnow]
          exact List.mem_cons_self ..
        · exact .inr hnow
  exact (hmem found [] h).resolve_right (by simp [Gems.value])

theorem write_eq (config : Gems) : write_bundle_config config =
    (bytes_of "---" :: config.map fun setting => config_line setting.1 setting.2).flatMap (· ++ [newline]) := by
  have hjoin (line : Text) (lines : List Text) :
      [newline].intercalate (line :: lines) ++ [newline] = (line :: lines).flatMap (· ++ [newline]) := by
    induction lines generalizing line with
    | nil => simp
    | cons next lines ih =>
      rw [List.intercalate_cons_of_ne_nil (List.cons_ne_nil _ _), List.append_assoc, ih]
      rfl
  exact hjoin _ _

/-- The settings of a file that was written are those of its lines. -/
theorem entries_write (hE : E.Documented) (config : Gems) : entries E (write_bundle_config config) =
    config.flatMap fun setting => (pieces (config_line setting.1 setting.2)).filterMap (config_entry E) := by
  have hhead : (pieces (bytes_of "---")).filterMap (config_entry E) = [] := by
    have hpiece : pieces (bytes_of "---") = [bytes_of "---" ++ [newline]] := pieces_short (by decide) (by decide)
    have hchomp : chomp (bytes_of "---" ++ [newline]) = bytes_of "---" := chomp_newline (by decide)
    have hnone : config_entry E (bytes_of "---" ++ [newline]) = none :=
      entry_short_piece hE (by rw [hchomp]; decide) (by rw [hchomp]; decide)
    rw [hpiece, List.filterMap_cons_none hnone, List.filterMap_nil]
  rw [entries, write_eq, readlines_lines, List.flatMap_cons, List.filterMap_append, hhead, List.nil_append, List.filterMap_flatMap,
    List.flatMap_map]

/-- Every setting that comes back was read on a piece that held it. -/
theorem bounds_of_kept (hE : E.Documented) {text k v : Text} (h : (k, v) ∈ entries E text) :
    IsKey k ∧ newline ∉ v ∧ k.length + v.length < 4095 := by
  obtain ⟨piece, hpiece, hentry⟩ := List.mem_filterMap.mp h
  obtain ⟨front, hfront, hshape, hlength⟩ := readlines_shape List.not_mem_nil (by decide) hpiece
  obtain ⟨hnewline, hchomp⟩ := chomp_piece hfront hshape
  obtain ⟨hkey, hvalue, hbound⟩ := entry_bounds hE hnewline hentry
  exact ⟨hkey, hvalue, by omega⟩

theorem entries_of_kept (hE : E.Documented) (hlines : ∀ setting ∈ config, newline ∉ setting.2) (h : ∀ setting ∈ config, Kept setting) :
    entries E (write_bundle_config config) = config := by
  rw [entries_write hE]
  induction config with
  | nil => rfl
  | cons setting config ih =>
    have hkept := h setting (List.mem_cons_self ..)
    have hlength : (config_line setting.1 setting.2).length ≤ 4098 := by
      rcases hkept.2 with ⟨-, hfits⟩ | ⟨hlong, -⟩ <;> omega
    obtain ⟨found, hfound, -, hiff⟩ := line_entries hE hkept.1 (hlines _ (List.mem_cons_self ..)) hlength
    rw [List.flatMap_cons, hfound, hiff.mpr hkept, ih (fun s hs => hlines s (List.mem_cons_of_mem _ hs)) (fun s hs => h s (List.mem_cons_of_mem _ hs))]
    rfl

/-- The settings come back exactly when each of them is one that is kept. -/
theorem read_write_config (hE : E.Documented) (hkeys : KeysUnique config) (hlines : ∀ setting ∈ config, newline ∉ setting.2) :
    (∀ k, (read_bundle_config E (some (write_bundle_config config))).value k = config.value k) ↔ ∀ setting ∈ config, Kept setting := by
  constructor
  · intro hsame
    have hentry {setting : Text × Text} (hmem : setting ∈ config) : setting ∈ entries E (write_bundle_config config) := by
      have hvalue := (hsame setting.1).trans ((value_iff hkeys setting.1 setting.2).mpr hmem)
      rw [read_eq] at hvalue
      exact mem_of_collect_value hvalue
    intro setting hmem
    have hfound := hentry hmem
    rw [entries_write hE, List.mem_flatMap] at hfound
    obtain ⟨written, hwritten, hfound⟩ := hfound
    obtain ⟨hkey, -, hlength⟩ := bounds_of_kept hE (hentry hwritten)
    have hfits : (config_line written.1 written.2).length ≤ 4098 := by
      rw [config_line_length]
      omega
    obtain ⟨found, hentries, hsamekey, hiff⟩ := line_entries hE hkey (hlines written hwritten) hfits
    rw [hentries, Option.mem_toList] at hfound
    have hname := hsamekey setting.1 setting.2 hfound
    have heq : setting = written := List.inj_on_of_nodup_map hkeys hmem hwritten hname
    rw [heq] at hfound ⊢
    exact hiff.mp hfound
  · intro hkept k
    rw [read_eq, entries_of_kept hE hlines hkept, collect_value [] hkeys]
    simp [Gems.value]

theorem keys_unique_singleton (setting : Text × Text) : KeysUnique [setting] :=
  List.nodup_singleton setting.1

theorem KeysUnique.set {gems : Gems} (h : KeysUnique gems) (k v : Text) : KeysUnique (gems.set k v) := by
  unfold Gems.set
  split
  · rename_i hany
    have hkeys : (gems.map fun gem => if gem.1 = k then (k, v) else gem).map Prod.fst = gems.map Prod.fst := by
      rw [List.map_map]
      refine List.map_congr_left fun gem _ => ?_
      rw [Function.comp_apply]
      split
      · rename_i hk
        exact hk.symm
      · rfl
    unfold KeysUnique
    rw [hkeys]
    exact h
  · rename_i hnew
    exact h.add hnew v

theorem mem_set {gems : Gems} {k v : Text} {setting : Text × Text} (h : setting ∈ gems.set k v) : setting = (k, v) ∨ setting ∈ gems := by
  unfold Gems.set at h
  split at h
  · obtain ⟨gem, hgem, rfl⟩ := List.mem_map.mp h
    split
    · exact .inl rfl
    · exact .inr hgem
  · rcases List.mem_append.mp h with hold | hnew
    · exact .inr hold
    · exact .inl (List.mem_singleton.mp hnew)

theorem collect_unique {gems found : Gems} (h : KeysUnique gems) : KeysUnique (collect gems found) := by
  induction found generalizing gems with
  | nil => exact h
  | cons setting found ih => exact ih (h.set setting.1 setting.2)

theorem mem_collect {gems found : Gems} {setting : Text × Text} (h : setting ∈ collect gems found) : setting ∈ gems ∨ setting ∈ found := by
  induction found generalizing gems with
  | nil => exact .inl h
  | cons first found ih =>
    rcases ih h with hset | hfound
    · rcases mem_set hset with hnew | hold
      · exact .inr (hnew ▸ List.mem_cons_self ..)
      · exact .inl hold
    · exact .inr (List.mem_cons_of_mem _ hfound)

/-- What is read has each key once, and no line ends. -/
theorem read_config (hE : E.Documented) (file : Option Text) :
    KeysUnique (read_bundle_config E file) ∧ ∀ setting ∈ read_bundle_config E file, newline ∉ setting.2 := by
  cases file with
  | none => exact ⟨List.nodup_nil, fun setting hsetting => (by cases hsetting)⟩
  | some text =>
    rw [read_eq]
    refine ⟨collect_unique List.nodup_nil, fun setting hsetting => ?_⟩
    have hmem := (mem_collect hsetting).resolve_left List.not_mem_nil
    exact (bounds_of_kept hE hmem).2.1

end round_trip

section example_lines

def is_key (k : Text) : Bool := (bytes_of "BUNDLE_").isPrefixOf k && 8 ≤ k.length && k.all word_byte

/-- The key of a line and what stands behind its colon and the blanks there. -/
def split_key (line : Text) : Option (Text × Text) :=
  if is_key (line.takeWhile word_byte) ∧ (line.dropWhile word_byte).head? = some 0x3a then
    some (line.takeWhile word_byte, (line.dropWhile word_byte).tail.dropWhile is_space)
  else none

/-- The matches of the expressions, computed. -/
def config_lines : ConfigLines where
  quoted line := (split_key line).bind fun cut =>
    let inner := cut.2.tail
    let behind := inner.dropWhile (· ≠ 0x22)
    if cut.2.head? = some 0x22 ∧ behind ≠ [] ∧ behind.tail.all is_space then some (cut.1, inner.takeWhile (· ≠ 0x22)) else none
  bare line := (split_key line).bind fun cut =>
    let v := cut.2.takeWhile (!is_space ·)
    if v ≠ [] ∧ (cut.2.dropWhile (!is_space ·)).all is_space then some (cut.1, v) else none

theorem is_key_iff {k : Text} : is_key k = true ↔ IsKey k := by
  unfold is_key
  rw [Bool.and_eq_true, Bool.and_eq_true, decide_eq_true_iff, List.all_eq_true, List.isPrefixOf_iff_prefix]
  constructor
  · rintro ⟨⟨⟨w, rfl⟩, hlength⟩, hword⟩
    refine ⟨w, ?_, fun c hc => hword c (List.mem_append_right _ hc), rfl⟩
    rintro rfl
    exact absurd hlength (by decide)
  · intro h
    have hlength := h.length
    have hword := h.word
    obtain ⟨w, -, -, rfl⟩ := h
    exact ⟨⟨List.prefix_append .., hlength⟩, hword⟩

theorem split_key_iff {line k x : Text} : split_key line = some (k, x) ↔
    IsKey k ∧ (∀ c ∈ x.head?, ¬ Blank c) ∧ ∃ b : Text, (∀ c ∈ b, Blank c) ∧ line = k ++ 0x3a :: (b ++ x) := by
  unfold split_key
  rw [Option.ite_none_right_eq_some, is_key_iff]
  constructor
  · rintro ⟨⟨hkey, hcolon⟩, hsome⟩
    cases hsome
    refine ⟨hkey, ?_, (line.dropWhile word_byte).tail.takeWhile is_space, fun c hc => List.mem_takeWhile_imp hc, ?_⟩
    · intro c hc hblank
      have hnot := List.head?_dropWhile_not is_space (line.dropWhile word_byte).tail
      rw [hc] at hnot
      exact absurd hblank (by simpa [Blank] using hnot)
    · obtain ⟨tail, htail⟩ := List.head?_eq_some_iff.mp hcolon
      have hsplit := List.takeWhile_append_dropWhile (p := word_byte) (l := line)
      rw [htail] at hsplit ⊢
      rw [List.tail_cons, List.takeWhile_append_dropWhile, hsplit]
  · rintro ⟨hkey, hx, b, hb, rfl⟩
    have hword : ∀ c ∈ k, word_byte c = true := hkey.word
    have htake : (k ++ 0x3a :: (b ++ x)).takeWhile word_byte = k := by
      rw [List.takeWhile_append_of_pos hword, List.takeWhile_cons_of_neg (by decide), List.append_nil]
    have hdrop : (k ++ 0x3a :: (b ++ x)).dropWhile word_byte = 0x3a :: (b ++ x) := by
      rw [List.dropWhile_append_of_pos hword, List.dropWhile_cons_of_neg (by decide)]
    have hrest : (b ++ x).dropWhile is_space = x := by
      rw [List.dropWhile_append_of_pos hb]
      cases x with
      | nil => rfl
      | cons c x => exact List.dropWhile_cons_of_neg (hx c rfl)
    rw [htake, hdrop, List.tail_cons, hrest]
    exact ⟨⟨hkey, rfl⟩, rfl⟩

theorem config_lines_documented : config_lines.Documented where
  quoted line k v _ := by
    change ((split_key line).bind _) = some (k, v) ↔ _
    rw [Option.bind_eq_some_iff]
    constructor
    · rintro ⟨⟨k', x⟩, hsplit, hfound⟩
      obtain ⟨hkey, -, b, hb, rfl⟩ := split_key_iff.mp hsplit
      obtain ⟨⟨hquote, hbehind, hblank⟩, hsome⟩ := Option.ite_none_right_eq_some.mp hfound
      cases hsome
      obtain ⟨inner, rfl⟩ := List.head?_eq_some_iff.mp hquote
      rw [List.tail_cons] at *
      refine ⟨hkey, fun hmem => ?_, b, (inner.dropWhile (· ≠ 0x22)).tail, hb, List.all_eq_true.mp hblank, ?_⟩
      · simpa using List.mem_takeWhile_imp hmem
      · obtain ⟨c, behind, hcut⟩ := List.exists_cons_of_ne_nil hbehind
        have hc : c = 0x22 := by
          have hnot := List.head?_dropWhile_not (· ≠ 0x22) inner
          rw [hcut] at hnot
          simpa using hnot
        have hwhole := List.takeWhile_append_dropWhile (p := (· ≠ 0x22)) (l := inner)
        rw [hcut, hc] at hwhole
        rw [hcut, List.tail_cons, hwhole]
    · rintro ⟨hkey, hv, b, b', hb, hb', rfl⟩
      have hfree : ∀ c ∈ v, decide (c ≠ 0x22) = true := by
        intro c hc
        rw [decide_eq_true_iff]
        rintro rfl
        exact hv hc
      have htake : (v ++ 0x22 :: b').takeWhile (· ≠ 0x22) = v := by
        rw [List.takeWhile_append_of_pos hfree, List.takeWhile_cons_of_neg (by decide), List.append_nil]
      have hdrop : (v ++ 0x22 :: b').dropWhile (· ≠ 0x22) = 0x22 :: b' := by
        rw [List.dropWhile_append_of_pos hfree, List.dropWhile_cons_of_neg (by decide)]
      refine ⟨(k, 0x22 :: (v ++ 0x22 :: b')), split_key_iff.mpr ⟨hkey, by simp; decide, b, hb, rfl⟩, ?_⟩
      refine Option.ite_none_right_eq_some.mpr ⟨⟨rfl, ?_, ?_⟩, ?_⟩
      · rw [List.tail_cons, hdrop]
        exact List.cons_ne_nil _ _
      · rw [List.tail_cons, hdrop, List.tail_cons, List.all_eq_true]
        exact hb'
      · rw [List.tail_cons, htake]
  bare line k v _ := by
    change ((split_key line).bind _) = some (k, v) ↔ _
    rw [Option.bind_eq_some_iff]
    constructor
    · rintro ⟨⟨k', x⟩, hsplit, hfound⟩
      obtain ⟨hkey, -, b, hb, rfl⟩ := split_key_iff.mp hsplit
      obtain ⟨⟨hne, hblank⟩, hsome⟩ := Option.ite_none_right_eq_some.mp hfound
      cases hsome
      refine ⟨hkey, ⟨hne, fun c hc => ?_⟩, b, x.dropWhile (!is_space ·), hb, List.all_eq_true.mp hblank, ?_⟩
      · simpa [Blank] using List.mem_takeWhile_imp hc
      · rw [List.takeWhile_append_dropWhile]
    · rintro ⟨hkey, hv, b, b', hb, hb', rfl⟩
      have hword : ∀ c ∈ v, (!is_space c) = true := fun c hc => by simpa [Blank] using hv.2 c hc
      have htake : (v ++ b').takeWhile (!is_space ·) = v := by
        rw [List.takeWhile_append_of_pos hword]
        cases b' with
        | nil => exact List.append_nil v
        | cons c b' => rw [List.takeWhile_cons_of_neg (by simpa [Blank] using hb' c (List.mem_cons_self ..)), List.append_nil]
      have hdrop : (v ++ b').dropWhile (!is_space ·) = b' := by
        rw [List.dropWhile_append_of_pos hword]
        cases b' with
        | nil => rfl
        | cons c b' => exact List.dropWhile_cons_of_neg (by simpa [Blank] using hb' c (List.mem_cons_self ..))
      obtain ⟨c, v, rfl⟩ := List.exists_cons_of_ne_nil hv.1
      have hhead : ∀ d ∈ (c :: v ++ b').head?, ¬ Blank d := by
        intro d hd
        cases hd
        exact hv.2 c (List.mem_cons_self ..)
      refine ⟨(k, c :: v ++ b'), split_key_iff.mpr ⟨hkey, hhead, b, hb, rfl⟩, ?_⟩
      refine Option.ite_none_right_eq_some.mpr ⟨⟨?_, ?_⟩, ?_⟩
      · rw [htake]
        exact List.cons_ne_nil _ _
      · rw [hdrop, List.all_eq_true]
        exact hb'
      · rw [htake]

def upcase_ascii (s : Text) : Text := s.map fun c => if 0x61 ≤ c ∧ c ≤ 0x7a then c - 0x20 else c

end example_lines

end stoned.bundle
