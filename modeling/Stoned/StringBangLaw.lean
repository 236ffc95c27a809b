import Stoned.StringMethods
import Stoned.SubstituteLaw
import Stoned.ReceiverLaw
import Stoned.ArityLaw

namespace stoned.strings

open program format

/-! How the forms with a bang agree with the plain ones. -/

/-! ### Characters -/

theorem zero_not_mem_encode {c : UInt32} (hmax : c.toNat ≤ 0x10FFFF) (hc : c ≠ 0) : 0 ∉ utf8_encode_one c := by
  have hne : c.toNat ≠ 0 := fun hzero => hc (UInt32.toNat_inj.mp hzero)
  have hbytes := toNat_utf8_encode_one hmax
  intro hmem
  have hzero : 0 ∈ (utf8_encode_one c).map UInt8.toNat := List.mem_map_of_mem hmem
  rw [hbytes] at hzero
  split_ifs at hzero
  all_goals
    simp only [List.mem_cons, List.not_mem_nil, or_false] at hzero
    omega

/-- What a mapping of characters is to do for its text to stay a C string. -/
def MapsText (f : UInt32 → UInt32) : Prop := ∀ cp, UnicodeScalar cp → cp ≠ 0 → (f cp).toNat ≤ 0x10FFFF ∧ f cp ≠ 0

theorem toNat_le_of_scalar {cp : UInt32} (h : UnicodeScalar cp) : cp.toNat ≤ 0x10FFFF := UInt32.le_iff_toNat_le.mp h.1

theorem maps_upcase : MapsText utf8_simple_upcase := by
  intro cp hscalar hne
  have hmax := toNat_le_of_scalar hscalar
  have hpos : cp.toNat ≠ 0 := fun hzero => hne (UInt32.toNat_inj.mp hzero)
  have hlower (h : 32 < cp.toNat) : (cp - 32).toNat = cp.toNat - 32 :=
    UInt32.toNat_sub_of_le _ _ (UInt32.le_iff_toNat_le.mpr h.le)
  simp only [utf8_simple_upcase, UInt32.le_iff_toNat_le, UInt32.reduceToNat, ne_eq, ← UInt32.toNat_inj]
  split_ifs
  case neg => omega
  all_goals
    rw [hlower (by omega)]
    omega

theorem maps_downcase : MapsText utf8_simple_downcase := by
  intro cp hscalar hne
  have hmax := toNat_le_of_scalar hscalar
  have hpos : cp.toNat ≠ 0 := fun hzero => hne (UInt32.toNat_inj.mp hzero)
  simp only [utf8_simple_downcase, UInt32.le_iff_toNat_le, UInt32.reduceToNat, ne_eq, ← UInt32.toNat_inj]
  split_ifs
  all_goals
    try simp only [UInt32.toNat_add, UInt32.reduceToNat]
    omega

theorem maps_swap : MapsText swap_char := by
  intro cp hscalar hne
  rw [swap_char]
  split
  · exact maps_upcase cp hscalar hne
  · exact maps_downcase cp hscalar hne

theorem map_chars_valid {f : Bool → UInt32 → UInt32} (hf : ∀ first, MapsText (f first)) {s : List UInt8} (hvalid : valid_utf8 s)
    (hnul : 0 ∉ s) (first : Bool) : ∃ out : CString, map_chars f first s = some out.bytes := by
  refine valid_utf8_induction
    (motive := fun s => 0 ∉ s → ∀ first, ∃ out : CString, map_chars f first s = some out.bytes) hvalid ?_ ?_ hnul first
  · intro _ first
    exact ⟨.of [], by rw [map_chars, if_pos rfl]; rfl⟩
  · intro c t hc _ ih hnul first
    obtain ⟨hhead, htail⟩ := not_or.mp (mt List.mem_append.mpr hnul)
    have hne : c ≠ 0 := by
      rintro rfl
      exact hhead (List.mem_singleton.mpr rfl)
    have hchar : utf8_encode_one c ++ t ≠ [] :=
      List.append_ne_nil_of_left_ne_nil (utf8_selfDelimiting.encode_ne_nil hc) t
    obtain ⟨out, hout⟩ := ih htail false
    obtain ⟨hmax, hmapped⟩ := hf first c hc hne
    have hclean : 0 ∉ utf8_encode_one (f first c) ++ out.bytes :=
      List.not_mem_append (zero_not_mem_encode hmax hmapped) out.no_nul
    refine ⟨⟨_, hclean⟩, ?_⟩
    rw [map_chars, if_neg hchar]
    split
    · next hnone => cases hnone.symm.trans (utf8_decode_encode hc t)
    · next cp width hdecode =>
      obtain ⟨rfl, rfl⟩ := Prod.mk.inj (Option.some.inj (hdecode.symm.trans (utf8_decode_encode hc t)))
      rw [List.drop_left, hout]
      rfl

/-! ### Blanks -/

/-- A blank in front of a text is a character. -/
theorem leading_space_spec {s : List UInt8} {width : Nat} (h : leading_space s = some width) :
    ∃ cp, UnicodeScalar cp ∧ width = (utf8_encode_one cp).length ∧ s = utf8_encode_one cp ++ s.drop width := by
  rw [leading_space] at h
  split at h
  · cases h
  · next cp w hdecode =>
    rw [Option.ite_none_right_eq_some] at h
    cases h.2
    obtain ⟨hscalar, htake⟩ := utf8_take_of_decode hdecode
    exact ⟨cp, hscalar, utf8_selfDelimiting.length_of_decode hdecode, by rw [← htake, List.take_append_drop]⟩

theorem skip_space_spec {s : List UInt8} {start : Nat} (hstart : start ≤ s.length) (hvalid : valid_utf8 (s.drop start)) :
    skip_space s start ≤ s.length ∧ valid_utf8 (s.drop (skip_space s start)) := by
  fun_induction skip_space s start with
  | case1 start hlt hnone => exact ⟨hstart, hvalid⟩
  | case2 start hlt width hblank ih =>
    obtain ⟨cp, hscalar, hwidth, hsplit⟩ := leading_space_spec hblank
    rw [List.drop_drop] at hsplit
    have hlength := congrArg List.length hsplit
    rw [List.length_append, ← hwidth, List.length_drop, List.length_drop] at hlength
    rw [hsplit, valid_utf8_character hscalar] at hvalid
    have hpos := leading_space_pos hblank
    exact ih (by omega) hvalid
  | case3 start hlt => exact ⟨hstart, hvalid⟩

theorem utf8_back_ge {s : List UInt8} {start i : Nat} (hle : start ≤ i) (hfirst : ¬ utf8_continues (s.getD start 0)) :
    start ≤ utf8_back s i := by
  induction i with
  | zero => exact hle
  | succ i ih =>
    rw [utf8_back]
    split
    · next hcontinues =>
      rcases Nat.lt_or_eq_of_le hle with hlt | rfl
      · exact ih (Nat.le_of_lt_succ hlt)
      · exact absurd hcontinues hfirst
    · exact hle

/-- Blanks are gone back over up to the start of a character at most. -/
theorem trim_space_ge {s : List UInt8} {start ending : Nat} (hle : start ≤ ending)
    (hfirst : start < ending → ¬ utf8_continues (s.getD start 0)) : start ≤ trim_space s start ending := by
  fun_induction trim_space s start ending with
  | case1 ending hlt hblank ih =>
    have hback : start ≤ utf8_prev_char_start s ending := by
      rw [utf8_prev_char_start, if_neg (Nat.zero_lt_of_lt hlt).ne']
      exact utf8_back_ge (Nat.le_sub_one_of_lt hlt) (hfirst hlt)
    exact ih hback fun _ => hfirst hlt
  | case2 ending hlt hblank => exact hle
  | case3 ending hlt => exact hle

theorem strip_valid {s : List UInt8} (hvalid : valid_utf8 s) :
    ∃ start ending, strip s = some (stretch s start ending) := by
  obtain ⟨hstart, hrest⟩ := skip_space_spec (Nat.zero_le s.length) hvalid
  have hge : skip_space s 0 ≤ trim_space s (skip_space s 0) s.length := by
    refine trim_space_ge hstart fun hlt => ?_
    rw [List.drop_eq_getElem_cons hlt] at hrest
    rw [List.getD_eq_getElem _ _ hlt]
    exact valid_utf8_head hrest
  exact ⟨_, _, if_pos hge⟩

/-! ### Texts -/

theorem reverse_from_subset (s : List UInt8) (ending : Nat) : ∀ b ∈ reverse_from s ending, b ∈ s := by
  fun_induction reverse_from s ending with
  | case1 ending hpos ih =>
    intro b hb
    rcases List.mem_append.mp hb with hfirst | hrest
    · exact List.mem_of_mem_drop (List.mem_of_mem_take hfirst)
    · exact ih b hrest
  | case2 ending hpos => exact fun b hb => nomatch hb

theorem chomp_front (s : List UInt8) (args : List Value) : chomp s args <+: s := by
  unfold chomp
  split
  · simp only
    split
    · exact List.take_prefix _ s
    · exact List.prefix_rfl
  · split_ifs
    all_goals first
      | exact List.take_prefix _ s
      | exact List.prefix_rfl

theorem chop_front (s : List UInt8) : chop s <+: s := by
  rw [chop]
  split_ifs
  · exact List.nil_prefix
  · exact List.take_prefix _ s
  · exact List.take_prefix _ s

/-! ### Substitution without a block -/

section
variable {M : Type → Type} [Monad M] [LawfulMonad M] (caller : Caller M) {s : CString} (global : Bool)
  (pattern : Pattern s.bytes.length) (replacement : Option Value)

omit [LawfulMonad M] in
/-- What takes the place of a match is a text, or else an argument is missing. -/
theorem replace_settles :
    (∃ f : RegexMatch → CString, pattern.replace caller global false replacement = fun m => pure (.ok (f m))) ∨
      pattern.replace caller global false replacement = fun _ => no_replacement caller global := by
  cases replacement with
  | none =>
    right
    cases pattern <;> rfl
  | some v =>
    left
    cases pattern with
    | regexp re source =>
      cases v with
      | hash h => exact ⟨hash_text caller s h, rfl⟩
      | _ => exact ⟨fun m => .of (expand s source m (caller.text _).bytes), rfl⟩
    | text needle =>
      cases v with
      | hash h => exact ⟨hash_text caller s h, rfl⟩
      | _ => exact ⟨fun _ => caller.text _, rfl⟩

/-- So the texts for all of them are there, or the first one raises. -/
theorem visit_settles (ms : List RegexMatch) :
    (∃ texts, visit_all (pattern.replace caller global false replacement) ms = pure (.ok texts)) ∨
      visit_all (pattern.replace caller global false replacement) ms = no_replacement caller global >>= fun r =>
        pure (r.map fun _ => []) := by
  rcases replace_settles caller global pattern replacement with ⟨f, hf⟩ | hnone
  · left
    rw [hf]
    exact ⟨_, visit_all_pure f ms⟩
  · cases ms with
    | nil => exact .inl ⟨[], rfl⟩
    | cons m ms =>
      right
      rw [hnone, visit_all, no_replacement, bind_assoc, bind_assoc]
      refine bind_congr fun v => ?_
      simp [Except.map]

/-- A loop that puts the texts in their places answers a string, or an argument is missing. -/
theorem finish_settles {each : M (Except Value (List UInt8))} {ms : List RegexMatch}
    (heach : each = visit_all (pattern.replace caller global false replacement) ms >>= fun done =>
      pure (done.map fun texts => [] ++ splice s.bytes 0 (ms.zip (texts.map CString.bytes)))) :
    (∃ t : CString, (do
      match ← each with
      | .error out => return out
      | .ok buf => return val_string_n (c_str buf)) = pure (val_string_n t.bytes)) ∨
    ∃ class_name message, (do
      match ← each with
      | .error out => return out
      | .ok buf => return val_string_n (c_str buf)) = caller.eval_raise_class class_name message := by
  rcases visit_settles caller global pattern replacement ms with ⟨texts, htexts⟩ | hnone
  · left
    rw [heach, htexts, pure_bind, pure_bind]
    exact ⟨.of _, rfl⟩
  · right
    refine ⟨"ArgumentError", "String#" ++ method_name global ++ " requires a replacement or block", ?_⟩
    rw [heach, hnone, no_replacement]
    simp [Except.map]

/-- Without a block sub and gsub answer a string, or an argument is missing. -/
theorem substitute_settles (recv : Value) :
    (∃ t : CString, substitute caller s global recv (some pattern) false replacement = pure (val_string_n t.bytes)) ∨
      substitute caller s global recv (some pattern) false replacement = pure recv ∨
        ∃ class_name message, substitute caller s global recv (some pattern) false replacement =
          caller.eval_raise_class class_name message := by
  have hsettled {p : M Value} (h : (∃ t : CString, p = pure (val_string_n t.bytes)) ∨
      ∃ class_name message, p = caller.eval_raise_class class_name message) :
      (∃ t : CString, p = pure (val_string_n t.bytes)) ∨ p = pure recv ∨
        ∃ class_name message, p = caller.eval_raise_class class_name message := h.imp_right .inr
  rcases pattern with ⟨re, source⟩ | ⟨_ | ⟨first, later⟩, hnul⟩
  · cases global with
    | true => exact hsettled (finish_settles caller _ (.regexp re source) replacement (gsub_each_eq re _ 0 false []))
    | false => exact hsettled (finish_settles caller _ (.regexp re source) replacement (sub_each_eq re _ 0 []))
  · exact .inr (.inl rfl)
  · cases global with
    | true => exact hsettled (finish_settles caller _ (.text ⟨first :: later, hnul⟩) replacement (gsub_string_each_eq s first later _ 0 false []))
    | false => exact hsettled (finish_settles caller _ (.text ⟨first :: later, hnul⟩) replacement (sub_string_each_eq s first later _ 0 []))

end

/-! ### Strings -/

/-- A string that is held, without a NUL. -/
structure HeldString where
  text : CString
  frozen : Bool
  encoding : StringEncodingTag

namespace HeldString

def value (r : HeldString) : Value := .string (text_of_bytes r.text.bytes) r.frozen r.encoding

def new (t : CString) : HeldString := { text := t, frozen := false, encoding := .utf8 }

theorem recv_text_value (r : HeldString) : recv_text r.value = r.text := by
  rw [value, recv_text, bytes_of_text, CString.of_bytes]

theorem is_frozen_value (r : HeldString) : is_frozen r.value = r.frozen := rfl

/-- A form with a bang answers nil for the string it was called on. -/
theorem changed_value (r w : HeldString) :
    changed r.value w.value = if w.text.bytes = r.text.bytes then .nil else w.value := by
  have hsame : c_str (bytes_of (text_of_bytes w.text.bytes)) = w.text.bytes := by
    rw [bytes_of_text, c_str_eq w.text.no_nul]
  have hcompare : changed r.value w.value =
      if c_str (bytes_of (text_of_bytes w.text.bytes)) = (recv_text r.value).bytes then .nil else w.value := rfl
  rw [hcompare, hsame, recv_text_value]

end HeldString

/-- A method comes to a string, or raises. -/
def Settles (site : Option Span) (p : P Value) : Prop :=
  (∃ w : HeldString, p = pure w.value) ∨ ∃ class_name message, p = eval_raise_class site class_name message

section
variable {lib : Library} {r : HeldString} {args : List Value} {site : Option Span}

theorem settles_text {t : List UInt8} (h : 0 ∉ t) : Settles site (answer (some t)) := .inl ⟨.new ⟨t, h⟩, rfl⟩

/-- What only has bytes of a C string is one. -/
theorem no_nul_of_subset {s : CString} {t : List UInt8} (h : ∀ b ∈ t, b ∈ s.bytes) : 0 ∉ t := fun hnul => s.no_nul (h 0 hnul)

theorem substituted_settles (global : Bool) : Settles site (substituted lib r.value args none site global) := by
  unfold substituted
  cases args with
  | nil => exact .inr ⟨_, _, rfl⟩
  | cons pattern more =>
    have hsubstitute (p : Pattern (recv_text r.value).bytes.length) : Settles site
        (substitute (lib.caller r.value (pattern :: more) none site) (recv_text r.value) global r.value (some p) false more.head?) := by
      rcases substitute_settles (lib.caller r.value (pattern :: more) none site) global p more.head? r.value with
        ⟨t, htext⟩ | hsame | hraises
      · exact .inl ⟨.new t, htext⟩
      · exact .inl ⟨r, hsame⟩
      · exact .inr hraises
    simp only
    split
    · exact .inr ⟨_, _, rfl⟩
    · exact hsubstitute _
    · exact hsubstitute _

section
variable {message : String} {stands : List UInt8 → List UInt8 → Bool} {remains : List UInt8 → List UInt8 → List UInt8}

/-- What is answered when there is an argument. -/
theorem delete_affix_given (arg : Value) (more : List Value) :
    delete_affix lib r.value (arg :: more) site message stands remains false =
      pure (if stands (lib.text arg).bytes r.text.bytes then val_string_n (remains (lib.text arg).bytes r.text.bytes)
        else val_string_n r.text.bytes) := by
  rw [delete_affix, HeldString.recv_text_value]
  simp only [Bool.false_and, Bool.false_eq_true, if_false]
  split <;> rfl

theorem delete_affix_bang (hfrozen : r.frozen = false) (arg : Value) (more : List Value) :
    delete_affix lib r.value (arg :: more) site message stands remains true =
      pure (if stands (lib.text arg).bytes r.text.bytes then val_string_n (remains (lib.text arg).bytes r.text.bytes)
        else .nil) := by
  rw [delete_affix, HeldString.recv_text_value, HeldString.is_frozen_value, hfrozen]
  simp only [Bool.and_false, Bool.false_eq_true, if_false, if_true]
  split <;> rfl

theorem delete_affix_settles (hremains : ∀ affix s, ∀ b ∈ remains affix s, b ∈ s) :
    Settles site (delete_affix lib r.value args site message stands remains false) := by
  cases args with
  | nil => exact .inr ⟨_, _, rfl⟩
  | cons arg more =>
    rw [delete_affix_given]
    split
    · exact settles_text (no_nul_of_subset (hremains _ _))
    · exact settles_text r.text.no_nul

theorem delete_affix_frozen {w : HeldString} (hfrozen : r.frozen = true)
    (hplain : delete_affix lib r.value args site message stands remains false = pure w.value) :
    delete_affix lib r.value args site message stands remains true =
      eval_raise_class site "FrozenError" "can't modify frozen String" := by
  cases args with
  | nil => cases hplain
  | cons arg more =>
    rw [delete_affix, HeldString.is_frozen_value, hfrozen]
    rfl

end

theorem drop_subset (affix s : List UInt8) : ∀ b ∈ s.drop affix.length, b ∈ s := fun _ hb => List.mem_of_mem_drop hb

theorem cut_subset (affix s : List UInt8) : ∀ b ∈ s.take (s.length - affix.length), b ∈ s :=
  fun _ hb => List.mem_of_mem_take hb

/-- On valid texts the methods come to an end. -/
theorem dispatch_plain_settles (hvalid : valid_utf8 r.text.bytes) (method : StringMethod) :
    Settles site (dispatch_plain lib r.value args none site method) := by
  have hmapped {f : Bool → UInt32 → UInt32} (hf : ∀ first, MapsText (f first)) :
      Settles site (answer (map_chars f true r.text.bytes)) := by
    obtain ⟨out, hout⟩ := map_chars_valid hf hvalid r.text.no_nul true
    rw [hout]
    exact settles_text out.no_nul
  simp only [dispatch_plain, HeldString.recv_text_value]
  cases method with
  | upcase => exact hmapped fun _ => maps_upcase
  | downcase => exact hmapped fun _ => maps_downcase
  | capitalize =>
    refine hmapped fun first => ?_
    cases first
    · exact maps_downcase
    · exact maps_upcase
  | swapcase => exact hmapped fun _ => maps_swap
  | reverse => exact settles_text (no_nul_of_subset (reverse_from_subset _ _))
  | chomp => exact settles_text (no_nul_of_subset fun b hb => (chomp_front _ args).subset hb)
  | chop => exact settles_text (no_nul_of_subset fun b hb => (chop_front _).subset hb)
  | strip =>
    obtain ⟨start, ending, hstrip⟩ := strip_valid hvalid
    simp only [hstrip]
    exact settles_text (stretch_no_nul r.text start ending)
  | lstrip => exact settles_text (no_nul_of_subset fun b hb => List.mem_of_mem_drop hb)
  | rstrip => exact settles_text (no_nul_of_subset fun b hb => List.mem_of_mem_take hb)
  | delete_prefix => exact delete_affix_settles drop_subset
  | delete_suffix => exact delete_affix_settles cut_subset
  | sub => exact substituted_settles false
  | gsub => exact substituted_settles true

/-! ### The forms with a bang -/

variable {method : StringMethod} {w : HeldString}

/-- A frozen string is refused. -/
theorem dispatch_bang_frozen (hfrozen : r.frozen = true) (hplain : dispatch_plain lib r.value args none site method = pure w.value) :
    ∃ message, dispatch_bang lib r.value args none site method = eval_raise_class site "FrozenError" message := by
  have hvalue : is_frozen r.value = true := hfrozen
  cases method with
  | delete_prefix =>
    have hgiven : delete_prefix lib r.value args site false = pure w.value := hplain
    rw [dispatch_bang]
    exact ⟨_, delete_affix_frozen hfrozen hgiven⟩
  | delete_suffix =>
    have hgiven : delete_suffix lib r.value args site false = pure w.value := hplain
    rw [dispatch_bang]
    exact ⟨_, delete_affix_frozen hfrozen hgiven⟩
  | _ => exact ⟨_, if_pos hvalue⟩

/-- The methods whose plain form is called in the same way. -/
def StringMethod.handed_on : StringMethod → Bool
  | .chomp | StringMethod.delete_prefix | .delete_suffix => false
  | _ => true

theorem dispatch_bang_handed (hmethod : method.handed_on = true) (hfrozen : r.frozen = false)
    (hplain : dispatch_plain lib r.value args none site method = pure w.value) :
    dispatch_bang lib r.value args none site method = pure (changed r.value w.value) := by
  have hthawed : ¬ is_frozen r.value = true := by rw [HeldString.is_frozen_value, hfrozen]; exact Bool.false_ne_true
  cases method with
  | chomp | delete_prefix | delete_suffix => cases hmethod
  | sub | gsub =>
    refine (if_neg hthawed).trans ?_
    rw [hplain]
    rfl
  | _ =>
    refine (if_neg hthawed).trans ?_
    exact congrArg (fun p : P Value => p >>= fun v => pure (changed r.value v)) hplain

/-- chomp! cuts a line end, whatever it is given. -/
theorem dispatch_bang_chomp (hfrozen : r.frozen = false) :
    dispatch_bang lib r.value args none site .chomp = pure (changed r.value (val_string_n (chomp r.text.bytes []))) := by
  have hthawed : ¬ is_frozen r.value = true := by rw [HeldString.is_frozen_value, hfrozen]; exact Bool.false_ne_true
  refine (if_neg hthawed).trans ?_
  rw [dispatch_plain, HeldString.recv_text_value]
  rfl

end

/-- The text of a string. -/
def string_text : Value → Option String
  | .string sval .. => some sval
  | _ => none

theorem string_text_eq_iff (a b : HeldString) : string_text a.value = string_text b.value ↔ a.text.bytes = b.text.bytes := by
  rw [HeldString.value, HeldString.value, string_text, string_text, Option.some.injEq]
  constructor
  · intro h
    rw [← bytes_of_text a.text.bytes, h, bytes_of_text]
  · exact congrArg text_of_bytes

theorem HeldString.value_inj {a b : HeldString} (h : a.value = b.value) : a = b := by
  have htext : a.text = b.text := CString.ext ((string_text_eq_iff a b).mp (congrArg string_text h))
  cases a
  cases b
  cases htext
  cases h
  rfl

/-! ### What is cut off -/

/-- The line end at the end of a text. -/
def line_end (s : List UInt8) : List UInt8 :=
  if [13, 10].isSuffixOf s then [13, 10]
  else if [10].isSuffixOf s then [10]
  else if [13].isSuffixOf s then [13]
  else []

/-- A text without a part at its end. -/
def cut (s t : List UInt8) : List UInt8 := s.take (s.length - t.length)

theorem cut_append {s t : List UInt8} (h : t <:+ s) : cut s t ++ t = s := by
  obtain ⟨front, rfl⟩ := h
  rw [cut, List.length_append, Nat.add_sub_cancel, List.take_left]

theorem cut_eq_iff {s t u : List UInt8} (ht : t <:+ s) (hu : u <:+ s) : cut s t = cut s u ↔ t = u := by
  constructor
  · intro h
    have hsame := (cut_append ht).trans (cut_append hu).symm
    rw [h] at hsame
    exact List.append_cancel_left hsame
  · exact fun h => h ▸ rfl

theorem line_end_suffix (s : List UInt8) : line_end s <:+ s := by
  rw [line_end]
  split_ifs with hboth hline hreturn
  · exact List.isSuffixOf_iff_suffix.mp hboth
  · exact List.isSuffixOf_iff_suffix.mp hline
  · exact List.isSuffixOf_iff_suffix.mp hreturn
  · exact List.nil_suffix

/-- Without a separator the line end is cut off. -/
theorem chomp_line (s : List UInt8) : chomp s [] = cut s (line_end s) := by
  have hchomp : chomp s [] = if [10].isSuffixOf s then
      if [13].isSuffixOf (s.take (s.length - 1)) then s.take (s.length - 2) else s.take (s.length - 1)
    else if [13].isSuffixOf s then s.take (s.length - 1)
    else s := rfl
  rw [hchomp, line_end]
  by_cases hline : [10].isSuffixOf s = true
  · obtain ⟨front, rfl⟩ := List.isSuffixOf_iff_suffix.mp hline
    have hfront : (front ++ [10]).take ((front ++ [10]).length - 1) = front := by simp
    have hboth : [13, 10].isSuffixOf (front ++ [10]) = [13].isSuffixOf front := by
      have hcancel : [13] ++ [10] <:+ front ++ [10] ↔ [13] <:+ front := List.suffix_append_self_iff
      rw [Bool.eq_iff_iff, List.isSuffixOf_iff_suffix, List.isSuffixOf_iff_suffix, ← hcancel]
      rfl
    rw [if_pos hline, hfront, hboth, if_pos hline]
    split
    · rfl
    · exact hfront.symm
  · have hboth : ¬ [13, 10].isSuffixOf s = true := by
      rw [List.isSuffixOf_iff_suffix] at hline ⊢
      exact fun h => hline ((List.suffix_cons 13 [10]).trans h)
    rw [if_neg hline, if_neg hboth, if_neg hline]
    split
    · rfl
    · rw [cut, List.length_nil, Nat.sub_zero, List.take_length]

/-- A separator is cut off where it stands at the end. -/
theorem chomp_separator (s : List UInt8) (sep : String) (frozen : Bool) (encoding : StringEncodingTag) (more : List Value) :
    chomp s (.string sep frozen encoding :: more) =
      if c_str (bytes_of sep) <:+ s then cut s (c_str (bytes_of sep)) else s := by
  have hchomp : chomp s (.string sep frozen encoding :: more) =
      if 0 < (c_str (bytes_of sep)).length && (c_str (bytes_of sep)).isSuffixOf s then cut s (c_str (bytes_of sep)) else s := rfl
  rw [hchomp]
  generalize c_str (bytes_of sep) = t
  simp only [Bool.and_eq_true, decide_eq_true_eq, List.isSuffixOf_iff_suffix]
  by_cases hempty : t = []
  · rw [hempty, if_neg (by simp), if_pos List.nil_suffix, cut, List.length_nil, Nat.sub_zero, List.take_length]
  · simp only [List.length_pos_iff.mpr hempty, true_and]

theorem chomp_eq_iff (s sep : List UInt8) :
    cut s (line_end s) = (if sep <:+ s then cut s sep else s) ↔ sep = line_end s ∨ line_end s = [] ∧ ¬ sep <:+ s := by
  have hwhole : s = cut s [] := by rw [cut, List.length_nil, Nat.sub_zero, List.take_length]
  by_cases hsep : sep <:+ s
  · rw [if_pos hsep, cut_eq_iff (line_end_suffix s) hsep, eq_comm]
    simp [hsep]
  · rw [if_neg hsep]
    conv_lhs => rhs; rw [hwhole]
    rw [cut_eq_iff (line_end_suffix s) List.nil_suffix]
    constructor
    · exact fun h => .inr ⟨h, hsep⟩
    · rintro (rfl | h)
      · exact absurd (line_end_suffix s) hsep
      · exact h.1

/-! ### Calls -/

/-- A method called on a local variable that holds a string. -/
structure StringCall where
  env : Env
  span : Span
  x : String
  recv : HeldString
  method : StringMethod
  args : List Value

namespace StringCall
variable (c : StringCall)

def variable_ : Variable := .lvar c.span c.x

/-- `x.name(args)` -/
def sent (name : String) : P Value := eval_receiver_call c.env c.span (.lvar c.span c.x) name c.args none false

/-- The variable holds the string, no exception is on its way, and String has not
got a method of its own for the name. -/
structure Ready (s : State) : Prop where
  frame : c.env < s.envs.frames.length
  held : s.envs.env_get c.env c.x = some c.recv.value
  quiet : s.ev.errored = false
  idle : s.ev.exception_msg = ""
  own : ∀ k class_env, s.envs.env_get s.ev.top_env "String" = some (.klass k) → (s.ev.klass k).class_env = some class_env →
    only_method (s.envs.env_get_own class_env c.method.name) = none ∧
      only_method (s.envs.env_get_own class_env c.method.bang_name) = none

/-- The program the string's built-ins have for one of the two forms. -/
def program (lib : Library) (bang : Bool) : P Value :=
  if bang then dispatch_bang lib c.recv.value c.args none (some c.span) c.method
  else dispatch_plain lib c.recv.value c.args none (some c.span) c.method

def form (bang : Bool) : String := if bang then c.method.bang_name else c.method.name

theorem named_form (bang : Bool) : StringMethod.named (c.form bang) = some (c.method, bang) := by
  rw [form]
  cases c.method <;> cases bang <;> decide

/-- The names the evaluator has for something else. -/
theorem form_ne {name : String} (h : StringMethod.named name = none) (bang : Bool) : c.form bang ≠ name := by
  intro heq
  have hnamed := c.named_form bang
  rw [heq, h] at hnamed
  cases hnamed

section
variable {c} {lib : Library} {rest : Builtins} {s : State}

def send (c : StringCall) (bang : Bool) : Send :=
  { env := c.env, recv := c.recv.value, name := c.form bang, args := c.args, site := some c.span }

theorem method_of_send_eq (bang : Bool) : method_of_send (c.send bang) = some (c.method, bang) := c.named_form bang

theorem dispatch_reopened_eq (bang : Bool) : dispatch_reopened (c.send bang) =
    ((top_class "String") >>= fun found => match found with
      | none => return none
      | some klass => get >>= fun ev => get_own (ev.klass klass).class_env (c.form bang) >>= fun entry =>
        match only_method entry with
        | some method => send_to (c.send bang) method (some klass) >>= fun v => return some v
        | none => return none) := rfl

/-- String has nothing of its own for the name. -/
theorem Ready.run_reopened (hready : c.Ready s) (answers : Oracle evaluator_calls State) (bang : Bool) :
    (dispatch_reopened (c.send bang)).run (answering answers) s = some (none, s) := by
  obtain ⟨found, hclass, hstring⟩ : ∃ found, (top_class "String").run (answering answers) s = some (found, s) ∧
      ∀ k, found = some k → s.envs.env_get s.ev.top_env "String" = some (.klass k) := by
    have hget : (env_get s.ev.top_env "String").run (answering answers) s =
      some (s.envs.env_get s.ev.top_env "String", s) := rfl
    rw [top_class, run_bind_some (run_get answers s), run_bind_some hget]
    cases s.envs.env_get s.ev.top_env "String" with
    | none => exact ⟨none, rfl, by rintro _ ⟨⟩⟩
    | some v =>
      cases v with
      | klass k =>
        refine ⟨some k, rfl, fun k' hk => ?_⟩
        cases hk
        rfl
      | _ => exact ⟨none, rfl, by rintro _ ⟨⟩⟩
  rw [dispatch_reopened_eq, run_bind_some hclass]
  cases found with
  | none => rfl
  | some k =>
    simp only
    rw [run_bind_some (run_get answers s)]
    cases henv : (s.ev.klass k).class_env with
    | none => rfl
    | some class_env =>
      obtain ⟨hplain, hbang⟩ := hready.own k class_env (hstring k rfl) henv
      have hnone : only_method (s.envs.env_get_own class_env (c.form bang)) = none := by
        cases bang
        · exact hplain
        · exact hbang
      have hown : (get_own (some class_env) (c.form bang)).run (answering answers) s =
        some (s.envs.env_get_own class_env (c.form bang), s) := rfl
      rw [run_bind_some hown, hnone]
      rfl

/-- The call comes to the string's built-ins. -/
theorem run_dispatch (hready : c.Ready s) (bang : Bool) (depth : Nat) :
    (dispatch_method (c.send bang)).run ((lib.builtins rest).machine (depth + 2)) s =
      (c.program lib bang).run ((lib.builtins rest).machine depth) s := by
  let M := (lib.builtins rest).machine (depth + 1)
  have hsingleton : (dispatch_singleton (c.send bang)).run M s = some (none, s) := rfl
  have hfirst : (dispatch_object_first (c.send bang)).run M s = some (none, s) := rfl
  have hnone : lib.builtins rest (.dispatch .common (c.send bang)) = return none := by
    rw [Library.builtins, method_of_send_eq]
  have hcommon : (dispatch_common (c.send bang)).run M s = some (none, s) := by
    have hbuiltin : (dispatch_builtin .common (c.send bang)).run M s = some (none, s) := by
      refine (run_builtin_value (lib.builtins rest) depth (.dispatch .common (c.send bang)) id s).trans ?_
      rw [hnone]
      rfl
    have hname {name : String} (h : StringMethod.named name = none) : decide ((c.send bang).name = name) = false :=
      decide_eq_false (c.form_ne h bang)
    have hpublic : (c.send bang).name ≠ "public_send" := c.form_ne (by decide) bang
    rw [dispatch_common, run_bind_some hbuiltin]
    simp only [hname (by decide : StringMethod.named "send" = none), hname (by decide : StringMethod.named "__send__" = none),
      Bool.or_self, Bool.false_eq_true, if_false, if_neg hpublic]
    rfl
  have hreopened : (dispatch_reopened (c.send bang)).run M s = some (none, s) := hready.run_reopened _ bang
  have hprimitive : (dispatch_builtin .primitive (c.send bang)).run M s =
      ((c.program lib bang).run ((lib.builtins rest).machine depth) s).map fun out => (some out.1, out.2) := by
    refine (run_builtin_value (lib.builtins rest) depth (.dispatch .primitive (c.send bang)) id s).trans ?_
    refine run_some_answer ?_
    rw [Library.builtins, method_of_send_eq]
    cases bang <;> rfl
  refine (run_call (lib.builtins rest) (depth + 1) (.dispatch_method (c.send bang)) s).trans ?_
  change (dispatch_method_body (c.send bang)).run M s = _
  unfold dispatch_method_body or_else
  rw [run_bind_some hsingleton]
  simp only
  rw [run_bind_some hfirst]
  simp only
  rw [run_bind_some hcommon]
  simp only
  rw [run_bind_some hreopened]
  simp only
  rw [run_bind, hprimitive]
  cases (c.program lib bang).run ((lib.builtins rest).machine depth) s <;> rfl

/-- Behind the built-in the variable may be given its answer. -/
def finish (c : StringCall) (bang : Bool) (v : Value) : P Value := do
  if val_is_signal v then return v
  write_back c.env (.lvar c.span c.x) c.recv.value (c.form bang) c.args v

theorem run_sent (hready : c.Ready s) (bang : Bool) (depth : Nat) :
    (c.sent (c.form bang)).run ((lib.builtins rest).machine (depth + 2)) s =
      ((c.program lib bang).run ((lib.builtins rest).machine depth) s).bind fun out =>
        (c.finish bang out.1).run ((lib.builtins rest).machine (depth + 2)) out.2 := by
  let M := (lib.builtins rest).machine (depth + 2)
  have hread : (eval_node c.env (some (.lvar c.span c.x))).run M s = some (c.recv.value, s) := by
    refine (run_call (lib.builtins rest) (depth + 1) (.eval_node c.env (some (.lvar c.span c.x))) s).trans ?_
    change (eval_node_body _ c.env (some (.lvar c.span c.x))).run _ s = _
    have hget : (env_get c.env c.x).run ((lib.builtins rest).machine (depth + 1)) s = some (some c.recv.value, s) :=
      congrArg (fun v => some (v, s)) hready.held
    rw [eval_node_body, run_bind_some (run_get _ s), hready.quiet]
    exact (run_bind_some hget).trans rfl
  have hgoes : GoesOn c.recv.value s := by
    rw [GoesOn, hready.quiet]
    rfl
  have hsent : (c.sent (c.form bang)).run M s = (dispatch_method (c.send bang) >>= c.finish bang).run M s := by
    refine (run_goes_on hread hgoes _ _).trans ?_
    rfl
  rw [hsent, run_bind, run_dispatch hready bang depth]

/-- What the variable holds. -/
def held (c : StringCall) (s : State) : Option Value := s.envs.env_get c.env c.x

/-- The answers that are stored in the variable. -/
def stores (c : StringCall) (bang : Bool) (v : Value) : Bool :=
  is_updatable v && mutating_methods.contains (c.form bang)

theorem finish_eq (bang : Bool) {v : Value} (hv : val_is_signal v = false) :
    c.finish bang v = (if c.stores bang v then update_receiver c.env (.lvar c.span c.x) v else pure ()) >>= fun _ => return v := by
  have hname {name : String} (h : StringMethod.named name = none) : decide (c.form bang = name) = false :=
    decide_eq_false (c.form_ne h bang)
  rw [finish, hv]
  unfold write_back
  simp only [hname (by decide : StringMethod.named "setbyte" = none), hname (by decide : StringMethod.named "[]=" = none),
    hname (by decide : StringMethod.named "slice!" = none), Bool.and_false, Bool.false_and, Bool.false_eq_true, if_false]
  rw [stores]
  cases is_updatable v && mutating_methods.contains (c.form bang) <;> rfl

/-- A call whose built-in answers a value: it is answered, and stored if it is to be. -/
theorem run_answered (hready : c.Ready s) {bang : Bool} {v : Value} (hprogram : c.program lib bang = pure v)
    (hv : val_is_signal v = false) (depth : Nat) :
    ∃ t, (c.sent (c.form bang)).run ((lib.builtins rest).machine (depth + 2)) s = some (v, t) ∧
      c.held t = some (if c.stores bang v then v else c.recv.value) := by
  rw [run_sent hready, hprogram, pure_eq_ret, run_ret, Option.bind_some, finish_eq bang hv]
  obtain ⟨t, hupdate, hstored, -⟩ := update_receiver_run ((evaluator (lib.builtins rest)).oracle state_machine (depth + 2))
    c.env (.lvar c.span c.x) v s
  cases hstores : c.stores bang v with
  | true => exact ⟨t, run_bind_some hupdate, hstored hready.frame⟩
  | false => exact ⟨s, rfl, hready.held⟩

/-- A call whose built-in raises: the variable is left as it was. -/
theorem run_raised (hready : c.Ready s) {bang : Bool} {class_name message : String}
    (hprogram : c.program lib bang = eval_raise_class (some c.span) class_name message) (depth : Nat) :
    ∃ t, (c.sent (c.form bang)).run ((lib.builtins rest).machine (depth + 2)) s = some (.exception, t) ∧
      t.ev.exception_class = some class_name ∧ c.held t = some c.recv.value := by
  let answers := (evaluator (lib.builtins rest)).oracle state_machine depth
  obtain ⟨t, hrun, hclass⟩ := eval_raise_class_raises answers hready.idle (some c.span) class_name message
  have henvs := (framesKept_raise_class (some c.span) class_name message).envs_eq answers hrun
  refine ⟨t, ?_, hclass, ?_⟩
  · rw [run_sent hready, hprogram]
    exact (congrArg (Option.bind · _) hrun).trans rfl
  · rw [held, henvs]
    exact hready.held

end

/-- The variable then holds what the plain form has answered; the answer is nil when that
equals the string and is it otherwise. -/
def Follows (M : Machine (state_ops.withCalls evaluator_calls) State) (s : State) (v : Value) : Prop :=
  ∃ r t x, (c.sent c.method.bang_name).run M s = some (r, t) ∧ c.held t = some x ∧ string_text x = string_text v ∧
    r = if string_text v = string_text c.recv.value then .nil else v

/-- FrozenError is raised and the variable is left as it was. -/
def Refused (M : Machine (state_ops.withCalls evaluator_calls) State) (s : State) : Prop :=
  ∃ t, (c.sent c.method.bang_name).run M s = some (.exception, t) ∧ t.ev.exception_class = some "FrozenError" ∧
    c.held t = some c.recv.value

/-- The plain form returns, and where it accepts its arguments, so that it answers a
string, the form with the bang agrees with it. -/
def Agrees (M : Machine (state_ops.withCalls evaluator_calls) State) (s : State) : Prop :=
  ∃ v t, (c.sent c.method.name).run M s = some (v, t) ∧
    (is_string v = true → if c.recv.frozen then c.Refused M s else c.Follows M s v)

/-- Where it is so: chomp! is to cut what chomp cuts, which is the separator it is given,
and delete_prefix! and delete_suffix! must have nothing to delete. -/
def Meets (lib : Library) : Prop :=
  c.recv.frozen = true ∨
    match c.method with
    | .chomp => ∀ sep frozen encoding, c.args.head? = some (.string sep frozen encoding) →
        c_str (bytes_of sep) = line_end c.recv.text.bytes ∨
          line_end c.recv.text.bytes = [] ∧ ¬ c_str (bytes_of sep) <:+ c.recv.text.bytes
    | StringMethod.delete_prefix => ∀ arg ∈ c.args.head?, ¬ (lib.text arg).bytes <+: c.recv.text.bytes
    | .delete_suffix => ∀ arg ∈ c.args.head?, ¬ (lib.text arg).bytes <:+ c.recv.text.bytes
    | _ => True

section
variable {c} {lib : Library} {rest : Builtins} {s : State} {w w' : HeldString}

/-- Where the plain form answers a string, agreeing is following it, or refusing. -/
theorem agrees_answered (hready : c.Ready s) (hplain : c.program lib false = pure w.value) (depth : Nat) :
    c.Agrees ((lib.builtins rest).machine (depth + 2)) s ↔
      if c.recv.frozen then c.Refused ((lib.builtins rest).machine (depth + 2)) s
      else c.Follows ((lib.builtins rest).machine (depth + 2)) s w.value := by
  obtain ⟨t, hrun, -⟩ := run_answered hready hplain rfl depth
  constructor
  · rintro ⟨v, t', hrun', hagrees⟩
    cases hrun.symm.trans hrun'
    exact hagrees rfl
  · exact fun hagrees => ⟨_, t, hrun, fun _ => hagrees⟩

theorem agrees_raised (hready : c.Ready s) {class_name message : String}
    (hplain : c.program lib false = eval_raise_class (some c.span) class_name message) (depth : Nat) :
    c.Agrees ((lib.builtins rest).machine (depth + 2)) s := by
  obtain ⟨t, hrun, -⟩ := run_raised hready hplain depth
  exact ⟨_, t, hrun, nofun⟩

/-- The variable is left with what a form with a bang has come to. -/
theorem run_changed (hready : c.Ready s) (hmutates : mutating_methods.contains c.method.bang_name = true)
    (hbang : c.program lib true = pure (changed c.recv.value w'.value)) (depth : Nat) :
    ∃ t x, (c.sent c.method.bang_name).run ((lib.builtins rest).machine (depth + 2)) s =
        some (if w'.text.bytes = c.recv.text.bytes then .nil else w'.value, t) ∧
      c.held t = some x ∧ string_text x = string_text w'.value := by
  rw [HeldString.changed_value] at hbang
  by_cases hsame : w'.text.bytes = c.recv.text.bytes
  · rw [if_pos hsame] at hbang ⊢
    obtain ⟨t, hrun, hheld⟩ := run_answered hready hbang rfl depth
    exact ⟨t, c.recv.value, hrun, hheld, ((string_text_eq_iff w' c.recv).mpr hsame).symm⟩
  · rw [if_neg hsame] at hbang ⊢
    obtain ⟨t, hrun, hheld⟩ := run_answered hready hbang rfl depth
    have hstores : c.stores true w'.value = true := by
      rw [stores, form, if_pos rfl, hmutates]
      rfl
    rw [hstores, if_pos rfl] at hheld
    exact ⟨t, w'.value, hrun, hheld, rfl⟩

/-- That is what the plain form answers where they have come to the same. -/
theorem follows_changed (hready : c.Ready s) (hmutates : mutating_methods.contains c.method.bang_name = true)
    (hbang : c.program lib true = pure (changed c.recv.value w'.value)) (hlike : w'.text.bytes = w.text.bytes → w' = w)
    (depth : Nat) : c.Follows ((lib.builtins rest).machine (depth + 2)) s w.value ↔ w'.text.bytes = w.text.bytes := by
  obtain ⟨t, x, hrun, hheld, htext⟩ := run_changed hready hmutates hbang depth
  constructor
  · rintro ⟨r, t', x', hrun', hheld', htext', -⟩
    cases hrun.symm.trans hrun'
    cases hheld.symm.trans hheld'
    exact (string_text_eq_iff w' w).mp (htext.symm.trans htext')
  · intro hsame
    cases hlike hsame
    refine ⟨_, t, x, hrun, hheld, htext, ?_⟩
    simp only [string_text_eq_iff]

/-- A variable that nothing is stored in follows where nothing is to be done. -/
theorem follows_kept (hready : c.Ready s) {v : Value} (hv : val_is_signal v = false) (hstores : c.stores true v = false)
    (hbang : c.program lib true = pure v) (depth : Nat) :
    c.Follows ((lib.builtins rest).machine (depth + 2)) s w.value ↔ w.text.bytes = c.recv.text.bytes ∧ v = .nil := by
  obtain ⟨t, hrun, hheld⟩ := run_answered hready hbang hv depth
  rw [hstores, if_neg Bool.false_ne_true] at hheld
  constructor
  · rintro ⟨r, t', x, hrun', hheld', htext, hr⟩
    cases hrun.symm.trans hrun'
    cases hheld.symm.trans hheld'
    rw [if_pos htext.symm] at hr
    exact ⟨(string_text_eq_iff w c.recv).mp htext.symm, hr⟩
  · rintro ⟨hsame, rfl⟩
    have htext := (string_text_eq_iff w c.recv).mpr hsame
    exact ⟨.nil, t, c.recv.value, hrun, hheld, htext.symm, (if_pos htext).symm⟩

theorem chomp_program (hmethod : c.method = .chomp) :
    c.program lib false = pure (val_string_n (chomp c.recv.text.bytes c.args)) := by
  rw [program, if_neg Bool.false_ne_true, hmethod, dispatch_plain, HeldString.recv_text_value]
  rfl

theorem prefix_program (hmethod : c.method = StringMethod.delete_prefix) (bang : Bool) :
    c.program lib bang = delete_prefix lib c.recv.value c.args (some c.span) bang := by
  rw [program, hmethod]
  cases bang <;> rfl

theorem suffix_program (hmethod : c.method = .delete_suffix) (bang : Bool) :
    c.program lib bang = delete_suffix lib c.recv.value c.args (some c.span) bang := by
  rw [program, hmethod]
  cases bang <;> rfl

/-- chomp! agrees where it cuts what chomp cuts. -/
theorem chomp_follows_iff (hready : c.Ready s) (hmethod : c.method = .chomp) (hfrozen : c.recv.frozen = false)
    (hplain : c.program lib false = pure w.value) (depth : Nat) :
    c.Follows ((lib.builtins rest).machine (depth + 2)) s w.value ↔
      chomp c.recv.text.bytes [] = chomp c.recv.text.bytes c.args := by
  have hclean (args : List Value) : 0 ∉ chomp c.recv.text.bytes args :=
    no_nul_of_subset fun b hb => (chomp_front _ args).subset hb
  have hw : w = .new ⟨_, hclean c.args⟩ := by
    have hanswer : c.program lib false = pure (HeldString.new ⟨_, hclean c.args⟩).value := chomp_program hmethod
    exact HeldString.value_inj (Program.ret.inj (hplain.symm.trans hanswer))
  have hbang : c.program lib true = pure (changed c.recv.value (HeldString.new ⟨_, hclean []⟩).value) := by
    rw [program, if_pos rfl, hmethod]
    exact dispatch_bang_chomp hfrozen
  have hmutates : mutating_methods.contains c.method.bang_name = true := by rw [hmethod]; decide
  subst hw
  refine follows_changed hready hmutates hbang (fun hsame => ?_) depth
  exact congrArg HeldString.new (CString.ext hsame)

theorem handed_follows (hready : c.Ready s) (hmethod : c.method.handed_on = true) (hfrozen : c.recv.frozen = false)
    (hplain : c.program lib false = pure w.value) (depth : Nat) :
    c.Follows ((lib.builtins rest).machine (depth + 2)) s w.value := by
  have hmutates : mutating_methods.contains c.method.bang_name = true := by
    revert hmethod
    cases c.method <;> decide
  have hbang : c.program lib true = pure (changed c.recv.value w.value) := dispatch_bang_handed hmethod hfrozen hplain
  exact (follows_changed hready hmutates hbang (fun _ => rfl) depth).mpr rfl

section
variable {message : String} {stands : List UInt8 → List UInt8 → Bool} {remains : List UInt8 → List UInt8 → List UInt8}

/-- They raise where they are given nothing. -/
theorem deleted_raises {class_name other : String}
    (hform : ∀ bang, c.program lib bang =
      delete_affix lib c.recv.value c.args (some c.span) message stands remains bang)
    (hraise : c.program lib false = eval_raise_class (some c.span) class_name other) : c.args = [] := by
  have hgiven := hform false
  cases hargs : c.args with
  | nil => rfl
  | cons arg more =>
    rw [hargs, delete_affix_given] at hgiven
    cases hraise.symm.trans hgiven

/-- delete_prefix! and delete_suffix! store nothing: they agree where nothing is to be deleted. -/
theorem deleted_follows_iff (hready : c.Ready s) (hkeeps : mutating_methods.contains c.method.bang_name = false) (hfrozen : c.recv.frozen = false)
    (hform : ∀ bang, c.program lib bang =
      delete_affix lib c.recv.value c.args (some c.span) message stands remains bang)
    (hplain : c.program lib false = pure w.value) (depth : Nat) :
    c.Follows ((lib.builtins rest).machine (depth + 2)) s w.value ↔
      ∀ arg ∈ c.args.head?, stands (lib.text arg).bytes c.recv.text.bytes = false := by
  have hstores (v : Value) : c.stores true v = false := by
    rw [stores, form, if_pos rfl, hkeeps, Bool.and_false]
  have hgiven := hform false
  have hbang := hform true
  cases hargs : c.args with
  | nil =>
    rw [hargs] at hgiven
    cases hplain.symm.trans hgiven
  | cons arg more =>
    rw [hargs, delete_affix_given] at hgiven
    rw [hargs, delete_affix_bang hfrozen] at hbang
    have hanswer := Program.ret.inj (hplain.symm.trans hgiven)
    have hhead : (∀ arg' ∈ (arg :: more).head?, stands (lib.text arg').bytes c.recv.text.bytes = false) ↔
        stands (lib.text arg).bytes c.recv.text.bytes = false := by simp
    rw [hhead]
    cases hstands : stands (lib.text arg).bytes c.recv.text.bytes with
    | true =>
      rw [hstands, if_pos rfl] at hbang
      rw [follows_kept hready rfl (hstores _) hbang depth]
      exact iff_of_false (fun h => nomatch h.2) nofun
    | false =>
      rw [hstands, if_neg Bool.false_ne_true] at hbang hanswer
      rw [follows_kept hready rfl (hstores _) hbang depth]
      refine iff_of_true ⟨?_, rfl⟩ rfl
      exact (string_text_eq_iff w (.new c.recv.text)).mp (congrArg string_text hanswer)

end

/-- A frozen string is refused by every method. -/
theorem frozen_refused (hready : c.Ready s) (hfrozen : c.recv.frozen = true) (hplain : c.program lib false = pure w.value)
    (depth : Nat) : c.Refused ((lib.builtins rest).machine (depth + 2)) s := by
  obtain ⟨message, hraise⟩ := dispatch_bang_frozen (w := w) hfrozen hplain
  have hbang : c.program lib true = eval_raise_class (some c.span) "FrozenError" message := hraise
  exact run_raised hready hbang depth

end

theorem chomp_same_iff (s : List UInt8) (args : List Value) :
    chomp s [] = chomp s args ↔ ∀ sep frozen encoding, args.head? = some (.string sep frozen encoding) →
      c_str (bytes_of sep) = line_end s ∨ line_end s = [] ∧ ¬ c_str (bytes_of sep) <:+ s := by
  rcases args with _ | ⟨arg, more⟩
  · exact iff_of_true rfl nofun
  · cases arg with
    | string sep frozen encoding =>
      rw [chomp_line, chomp_separator, chomp_eq_iff]
      simp
    | _ => exact iff_of_true rfl nofun

/-- The forms with a bang agree with the plain ones exactly where `Meets` says. -/
theorem string_bang_agrees_iff (lib : Library) (rest : Builtins) {s : State} (hready : c.Ready s)
    (hvalid : valid_utf8 c.recv.text.bytes) (depth : Nat) :
    c.Agrees ((lib.builtins rest).machine (depth + 2)) s ↔ c.Meets lib := by
  have hsettles : Settles (some c.span) (c.program lib false) := dispatch_plain_settles hvalid c.method
  rcases hsettles with ⟨w, hplain⟩ | ⟨class_name, message, hraise⟩
  · rw [agrees_answered hready hplain depth, Meets]
    cases hfrozen : c.recv.frozen with
    | true => exact iff_of_true (frozen_refused hready hfrozen hplain depth) (.inl rfl)
    | false =>
      rw [if_neg Bool.false_ne_true, or_iff_right Bool.false_ne_true]
      cases hmethod : c.method with
      | chomp => exact (chomp_follows_iff hready hmethod hfrozen hplain depth).trans (chomp_same_iff _ _)
      | delete_prefix =>
        rw [deleted_follows_iff hready (by rw [hmethod]; decide) hfrozen (prefix_program hmethod) hplain depth]
        simp only [← List.isPrefixOf_iff_prefix, Bool.not_eq_true]
      | delete_suffix =>
        rw [deleted_follows_iff hready (by rw [hmethod]; decide) hfrozen (suffix_program hmethod) hplain depth]
        simp only [← List.isSuffixOf_iff_suffix, Bool.not_eq_true]
      | _ => exact iff_of_true (handed_follows hready (by rw [hmethod]; rfl) hfrozen hplain depth) trivial
  · refine iff_of_true (agrees_raised hready hraise depth) (.inr ?_)
    cases hmethod : c.method with
    | chomp => cases hraise.symm.trans (chomp_program hmethod)
    | delete_prefix =>
      rw [deleted_raises (prefix_program hmethod) hraise]
      nofun
    | delete_suffix =>
      rw [deleted_raises (suffix_program hmethod) hraise]
      nofun
    | _ => trivial

/-- Values without texts of their own, and no regexps. -/
def bare_library : Library where
  host := { to_s := fun _ => [], hash_get := fun _ _ => none, fpu := nan_fpu }
  regexp_of _ _ := none
  build_match_data _ _ _ := pure .nil

/-- `x.delete_prefix!("a")` where x is "abc". -/
def deleting : StringCall where
  env := 0
  span := no_span
  x := "x"
  recv := .new (.of (program.ascii "abc"))
  method := StringMethod.delete_prefix
  args := [val_string "a"]

def deleting_state : State := { bare_state with envs := bare_state.envs.env_define 0 "x" deleting.recv.value }

theorem deleting_ready : deleting.Ready deleting_state where
  frame := by decide
  held := rfl
  quiet := rfl
  idle := rfl
  own k class_env hstring := nomatch (rfl : deleting_state.envs.env_get deleting_state.ev.top_env "String" = none).symm.trans hstring

theorem string_bang_agrees_iff_deleting :
    deleting.Agrees ((bare_library.builtins no_builtins).machine 2) deleting_state ↔ deleting.Meets bare_library :=
  string_bang_agrees_iff deleting bare_library no_builtins deleting_ready (valid_utf8_of_ascii (by decide)) 0

/-- x still is "abc". -/
theorem delete_prefix_bang_stores_nothing :
    ¬ deleting.Agrees ((bare_library.builtins no_builtins).machine 2) deleting_state := by
  have hplain : deleting.program bare_library false = pure (HeldString.new (.of (program.ascii "bc"))).value := rfl
  rw [agrees_answered deleting_ready hplain 0]
  intro hfollows
  have hnone := (deleted_follows_iff deleting_ready rfl rfl (prefix_program rfl) hplain 0).mp hfollows
  exact absurd (hnone (val_string "a") rfl) (by decide)

end StringCall

end stoned.strings
