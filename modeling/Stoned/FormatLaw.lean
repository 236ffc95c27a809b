import Stoned.Format
import Stoned.Utf8Text

namespace stoned.format

open program printf

/-! What a format string contributes to its text. -/

/-- The bytes of a part, however many they are. -/
def Piece.bytes : Piece → List UInt8
  | .literal b => [b]
  | .named text => text
  | .string c text => c.string text
  | .number _ written => written
  | .binary written => written
  | .char c b => c.char b

def Piece.is_directive : Piece → Bool
  | .literal _ => false
  | _ => true

variable (host : Host)

/-- The parts that a format string asks for. -/
def parts (args : List Value) (argi : Nat) : List UInt8 → Except Stop (List Piece)
  | [] => .ok []
  | b :: s =>
    if b ≠ '%'.toUInt8 then (parts args argi s).map (.literal b :: ·)
    else
      match _h : read_item host args argi s with
      | .error stop => .error stop
      | .ok (.piece p, argi, rest) => (parts args argi rest).map (p :: ·)
      | .ok (.typed mini_fmt val, argi, rest) =>
        match parts [val] 0 mini_fmt with
        | .error stop => .error stop
        | .ok inner => (parts args argi rest).map (inner ++ ·)
termination_by s => s.length
decreasing_by
  · exact Nat.lt_succ_self _
  · exact Nat.lt_succ_of_lt (read_item_rest _h)
  · exact read_item_mini _h
  · exact Nat.lt_succ_of_lt (read_item_rest _h)

/-- The values a format string can reach: its arguments, and those in hashes
among them. -/
inductive Given (args : List Value) : Value → Prop where
  | argument {v : Value} (mem : v ∈ args) : Given args v
  | entry {h : Ref} {key v : Value} (hash : Given args (.hash h)) (found : host.hash_get h key = some v) : Given args v

/-- The format string and the texts of the values are valid. -/
def ValidInput (fmt : List UInt8) (args : List Value) : Prop :=
  valid_utf8 fmt ∧ ∀ v, Given host args v → valid_utf8 (val_to_s host v)

/-- The law: the text is that of the parts in full, and valid as far as the input
is. A format string that is refused has no text. -/
def Copies (fmt : List UInt8) (args : List Value) : Prop :=
  match parts host args 0 fmt with
  | .error (.argument_error _) => True
  | .error .out_of_bounds => False
  | .ok ps =>
    eval_format_string host fmt args = .ok (ps.flatMap Piece.bytes) ∧
      (ValidInput host fmt args →
        (∀ p ∈ ps, p.is_directive → valid_utf8 p.bytes) ∧ valid_utf8 (ps.flatMap Piece.bytes))

/-- What printf writes is less than the buffer has room for, and without a NUL. -/
def FitsPrinted (c : Conversion) (written : List UInt8) : Prop :=
  0 ∉ written ∧ written.length < 4096 ∧ (c.InRange ∨ written = [])

def Piece.Fits : Piece → Prop
  | .literal b => b ≠ 0
  | .named text => 0 ∉ text
  | .string c text => FitsPrinted c (c.string text)
  | .number c written => FitsPrinted c written
  | .binary written => written.val.length < 4096
  | .char c b => FitsPrinted c (c.char b)

/-- No precision ends inside a character, and no byte of %c is beyond ASCII. -/
def Piece.KeepsCharacters : Piece → Prop
  | .string c text => ∀ n ∈ c.precision, ∀ b ∈ text[n]?, ¬ utf8_continues b
  | .char _ b => b < 0x80
  | _ => True

/-- A string is written in full where there is neither a width nor a precision. -/
theorem string_in_full {c : Conversion} (hwidth : c.width = 0) (hprecision : c.precision = none) (text : List UInt8) :
    c.string text = text := by
  rw [Conversion.string, hprecision, Conversion.pad, hwidth]
  simp

/-! ### Parts that fit -/

theorem not_nul {s : List UInt8} (h : 0 ∉ s) : ∀ b ∈ s, decide (b ≠ 0) = true := fun _ hb =>
  decide_eq_true fun hzero => h (hzero ▸ hb)

theorem c_str_eq {s : List UInt8} (h : 0 ∉ s) : c_str s = s := List.takeWhile_eq_self_iff.mpr (not_nul h)

theorem zero_not_mem_c_str (s : List UInt8) : 0 ∉ c_str s := fun h => by
  simpa using List.mem_takeWhile_imp h

theorem c_str_append {s : List UInt8} (t : List UInt8) (h : 0 ∉ s) : c_str (s ++ t) = s ++ c_str t :=
  List.takeWhile_append_of_pos (not_nul h)

theorem length_c_str_le (s : List UInt8) : (c_str s).length ≤ s.length := (List.takeWhile_prefix _).length_le

theorem length_c_str_append_le (s t : List UInt8) :
    (c_str (s ++ t)).length ≤ (c_str s).length + (c_str t).length := by
  induction s with
  | nil => exact Nat.le_add_left _ _
  | cons b s ih =>
    by_cases hb : b = 0
    · simp [c_str, hb]
    · have hcons : ∀ s, c_str (b :: s) = b :: c_str s := fun s => List.takeWhile_cons_of_pos (decide_eq_true hb)
      rw [List.cons_append, hcons, hcons, List.length_cons, List.length_cons]
      omega

theorem plain_no_nul {s : List UInt8} (h : Plain s) : 0 ∉ s := fun hmem => absurd (h 0 hmem).1 (by decide)

theorem take_c_str {s : List UInt8} {n : Nat} (h : 0 ∉ s.take n) : (c_str s).take n = s.take n := by
  conv_lhs => rw [← List.take_append_drop n s, c_str_append _ h]
  obtain hn | hn := Nat.le_total n s.length
  · rw [List.take_append_of_le_length (by rw [List.length_take_of_le hn]), List.take_of_length_le (by simp)]
  · rw [List.drop_eq_nil_of_le hn, c_str_eq (by simp), List.append_nil, List.take_of_length_le (by simp)]

theorem mem_pad {c : Conversion} {s : List UInt8} {b : UInt8} (hb : b ∈ s) : b ∈ c.pad s := by
  rw [Conversion.pad]
  split
  · exact List.mem_append_left _ hb
  · exact List.mem_append_right _ hb

/-- A NUL behind what is written of a text makes no difference. -/
theorem string_c_str {c : Conversion} {text : List UInt8} (h : 0 ∉ c.string text) :
    c.string (c_str text) = c.string text := by
  simp only [Conversion.string] at h ⊢
  have hwritten := fun hzero => h (mem_pad hzero)
  cases hprecision : c.precision with
  | none =>
    simp only [hprecision] at hwritten
    exact congrArg c.pad (c_str_eq hwritten)
  | some n =>
    simp only [hprecision] at hwritten
    exact congrArg c.pad (take_c_str hwritten)

theorem append_printed_eq {c : Conversion} {written : List UInt8} (h : written.length < 4096)
    (hrange : c.InRange ∨ written = []) : append_printed c written = some written := by
  rw [append_printed]
  obtain hrange | rfl := hrange
  · have htake : written.take 4095 = written := List.take_of_length_le (by omega)
    rw [if_neg (by rw [not_or, not_not]; exact ⟨hrange, by omega⟩), htake, if_pos (by simp), List.take_left]
  · split <;> rfl

/-- What is appended of what printf has written is no longer, up to a NUL, and
as long only if it fits. -/
theorem append_printed_length {c : Conversion} {written : List UInt8} :
    (c_str ((append_printed c written).getD [])).length ≤ written.length ∧
      (written.length ≤ (c_str ((append_printed c written).getD [])).length →
        written.length < 4096 ∧ (c.InRange ∨ written = [])) := by
  rw [append_printed]
  split
  case isTrue =>
    refine ⟨Nat.zero_le _, fun h => ?_⟩
    have hnil : written = [] := List.length_eq_zero_iff.mp (Nat.le_zero.mp h)
    exact ⟨by rw [hnil]; decide, .inr hnil⟩
  case isFalse hrange =>
    rw [not_or, not_not] at hrange
    split
    case isFalse hlong =>
      refine ⟨Nat.zero_le _, fun h => ?_⟩
      have hzero : written.length ≤ 0 := h
      exact absurd (Nat.le_trans hzero (Nat.zero_le _)) hlong
    case isTrue hlength =>
      have hle := length_c_str_le ((written.take 4095 ++ [0]).take written.length)
      rw [List.length_take_of_le hlength] at hle
      refine ⟨hle, fun h => ⟨?_, .inl hrange.1⟩⟩
      by_contra hlong
      have htmp : (written.take 4095 ++ [0]).length = 4096 := by
        rw [List.length_append, List.length_take_of_le (by omega), List.length_singleton]
      have hcut := length_c_str_append_le (written.take 4095) [0]
      have hfront := length_c_str_le (written.take 4095)
      rw [List.length_take_of_le (by omega)] at hfront
      rw [Option.getD_some, List.take_of_length_le (by omega)] at h
      have hnul : (c_str [0]).length = 0 := by decide
      omega

theorem Piece.appended_of_fits {p : Piece} (h : p.Fits) : p.appended = some p.bytes ∧ 0 ∉ p.bytes := by
  cases p with
  | literal b => exact ⟨rfl, fun hzero => h (List.mem_singleton.mp hzero).symm⟩
  | named text => exact ⟨congrArg some (c_str_eq h), h⟩
  | string c text =>
    obtain ⟨hnul, hlength, hrange⟩ := h
    exact ⟨by rw [appended, string_c_str hnul, append_printed_eq hlength hrange]; rfl, hnul⟩
  | number c written => exact ⟨append_printed_eq h.2.1 h.2.2, h.1⟩
  | binary written => exact ⟨if_pos h, plain_no_nul written.property⟩
  | char c b => exact ⟨append_printed_eq h.2.1 h.2.2, h.1⟩

/-- The bytes appended for a part, up to a NUL. -/
def Piece.kept (p : Piece) : Nat := (c_str (p.appended.getD [])).length

/-- Of a part without a NUL no more is appended than there is, and all of it only
if it fits. -/
theorem Piece.kept_le {p : Piece} (hnul : 0 ∉ p.bytes) :
    p.kept ≤ p.bytes.length ∧ (p.bytes.length ≤ p.kept → p.Fits) := by
  cases p with
  | literal b =>
    exact ⟨length_c_str_le [b], fun _ hzero => hnul (List.mem_singleton.mpr hzero.symm)⟩
  | named text => exact ⟨(length_c_str_le _).trans (length_c_str_le text), fun _ => hnul⟩
  | string c text =>
    rw [kept, appended, string_c_str hnul]
    exact ⟨append_printed_length.1, fun h => ⟨hnul, append_printed_length.2 h⟩⟩
  | number c written =>
    exact ⟨append_printed_length.1, fun h => ⟨hnul, append_printed_length.2 h⟩⟩
  | binary written =>
    rw [kept, appended]
    split
    case isTrue hlength => exact ⟨length_c_str_le _, fun _ => hlength⟩
    case isFalse hlength =>
      exact ⟨Nat.zero_le _, fun h => absurd (Nat.lt_of_le_of_lt h (by decide)) hlength⟩
  | char c b =>
    exact ⟨append_printed_length.1, fun h => ⟨hnul, append_printed_length.2 h⟩⟩

/-! ### Reading part by part -/

/-- A format string asks for parts. -/
inductive Asks : List Value → Nat → List UInt8 → List Piece → Prop where
  | done (args : List Value) (argi : Nat) : Asks args argi [] []
  | literal {args : List Value} {argi : Nat} {b : UInt8} {s : List UInt8} {ps : List Piece} (text : b ≠ '%'.toUInt8)
      (more : Asks args argi s ps) : Asks args argi (b :: s) (.literal b :: ps)
  | piece {args : List Value} {argi argi' : Nat} {p : Piece} {s rest : List UInt8} {ps : List Piece}
      (item : read_item host args argi s = .ok (.piece p, argi', rest)) (more : Asks args argi' rest ps) :
    Asks args argi ('%'.toUInt8 :: s) (p :: ps)
  | typed {args : List Value} {argi argi' : Nat} {mini_fmt s rest : List UInt8} {val : Value} {inner ps : List Piece}
      (item : read_item host args argi s = .ok (.typed mini_fmt val, argi', rest)) (reference : Asks [val] 0 mini_fmt inner)
      (more : Asks args argi' rest ps) : Asks args argi ('%'.toUInt8 :: s) (inner ++ ps)

section reading
variable {host} {args : List Value} {argi argi' : Nat} {buf out fmt s rest mini_fmt : List UInt8} {ps : List Piece}
  {p : Piece} {val : Value}

theorem map_ok {α β ε : Type} {x : Except ε α} {f : α → β} {b : β} (h : x.map f = .ok b) : ∃ a, x = .ok a ∧ f a = b := by
  cases x with
  | error e => cases h
  | ok a => exact ⟨a, rfl, Except.ok.inj h⟩

theorem asks_of_parts (h : parts host args argi fmt = .ok ps) : Asks host args argi fmt ps := by
  induction args, argi, fmt using parts.induct host generalizing ps with
  | case1 args argi =>
    rw [parts] at h
    cases h
    exact .done args argi
  | case2 args argi b s hb ih =>
    rw [parts, if_pos hb] at h
    obtain ⟨ps, hps, rfl⟩ := map_ok h
    exact .literal hb (ih hps)
  | case3 args argi b s hb stop hitem =>
    rw [parts, if_neg hb] at h
    split at h
    all_goals rename_i hread; cases hitem.symm.trans hread
    cases h
  | case4 args argi b s hb p argi' rest hitem ih =>
    rw [parts, if_neg hb] at h
    split at h
    all_goals rename_i hread; cases hitem.symm.trans hread
    obtain ⟨ps, hps, rfl⟩ := map_ok h
    rw [not_not.mp hb]
    exact .piece hitem (ih hps)
  | case5 args argi b s hb mini_fmt val argi' rest hitem stop hinner ih =>
    rw [parts, if_neg hb] at h
    split at h
    all_goals rename_i hread; cases hitem.symm.trans hread
    rw [hinner] at h
    cases h
  | case6 args argi b s hb mini_fmt val argi' rest hitem inner hinner ihinner ih =>
    rw [parts, if_neg hb] at h
    split at h
    all_goals rename_i hread; cases hitem.symm.trans hread
    rw [hinner] at h
    obtain ⟨ps, hps, rfl⟩ := map_ok h
    rw [not_not.mp hb]
    exact .typed hitem (ihinner hinner) (ih hps)

theorem format_loop_literal {b : UInt8} (hzero : b ≠ 0) (hb : b ≠ '%'.toUInt8) :
    format_loop host args argi buf (b :: s) = format_loop host args argi (buf ++ [b]) s := by
  rw [format_loop, if_neg hzero, if_pos hb]

theorem format_loop_piece (h : read_item host args argi s = .ok (.piece p, argi', rest)) :
    format_loop host args argi buf ('%'.toUInt8 :: s) =
      match p.appended with
      | none => .error .out_of_bounds
      | some bytes => format_loop host args argi' (buf ++ bytes) rest := by
  rw [format_loop, if_neg (by decide), if_neg (by decide)]
  split
  all_goals rename_i hread; cases h.symm.trans hread
  rfl

theorem format_loop_typed (h : read_item host args argi s = .ok (.typed mini_fmt val, argi', rest)) :
    format_loop host args argi buf ('%'.toUInt8 :: s) =
      match format_loop host [val] 0 [] mini_fmt with
      | .error stop => .error stop
      | .ok sv => format_loop host args argi' (buf ++ sv) rest := by
  rw [format_loop, if_neg (by decide), if_neg (by decide)]
  split
  all_goals rename_i hread; cases h.symm.trans hread
  rfl

/-- Parts that fit are appended in full. -/
theorem format_loop_fits (h : Asks host args argi fmt ps) (hfits : ∀ p ∈ ps, p.Fits) (buf : List UInt8) :
    format_loop host args argi buf fmt = .ok (c_str (buf ++ ps.flatMap Piece.bytes)) := by
  have hnul : ∀ ps : List Piece, (∀ p ∈ ps, p.Fits) → 0 ∉ ps.flatMap Piece.bytes := by
    intro ps hps hzero
    obtain ⟨p, hp, hmem⟩ := List.mem_flatMap.mp hzero
    exact (Piece.appended_of_fits (hps p hp)).2 hmem
  induction h generalizing buf with
  | done => rw [format_loop, List.flatMap_nil, List.append_nil]
  | literal text _ ih =>
    obtain ⟨hb, hmore⟩ := List.forall_mem_cons.mp hfits
    rw [format_loop_literal hb text, ih hmore, List.flatMap_cons, List.append_assoc]
    rfl
  | piece item _ ih =>
    obtain ⟨hp, hmore⟩ := List.forall_mem_cons.mp hfits
    rw [format_loop_piece item, (Piece.appended_of_fits hp).1, List.flatMap_cons, ← List.append_assoc]
    exact ih hmore _
  | typed item _ _ ihinner ih =>
    obtain ⟨hinner, hmore⟩ := List.forall_mem_append.mp hfits
    rw [format_loop_typed item, ihinner hinner, List.nil_append, c_str_eq (hnul _ hinner), List.flatMap_append,
      ← List.append_assoc]
    exact ih hmore _

/-- What the loop ends in has no NUL, and no more than what is appended for the
parts. -/
theorem format_loop_length (h : Asks host args argi fmt ps) (hrun : format_loop host args argi buf fmt = .ok out) :
    0 ∉ out ∧ out.length ≤ (c_str buf).length + (ps.map Piece.kept).sum := by
  induction h generalizing buf out with
  | done =>
    rw [format_loop] at hrun
    cases hrun
    exact ⟨zero_not_mem_c_str _, Nat.le_add_right _ _⟩
  | @literal args argi b s ps text _ ih =>
    by_cases hzero : b = 0
    · rw [format_loop, if_pos hzero] at hrun
      cases hrun
      exact ⟨zero_not_mem_c_str _, Nat.le_add_right _ _⟩
    · rw [format_loop_literal hzero text] at hrun
      obtain ⟨hnul, hlength⟩ := ih hrun
      have happend := length_c_str_append_le buf [b]
      have hkept : (Piece.literal b).kept = (c_str [b]).length := rfl
      rw [List.map_cons, List.sum_cons, hkept]
      exact ⟨hnul, by omega⟩
  | @piece args argi argi' p s rest ps item _ ih =>
    rw [format_loop_piece item] at hrun
    cases happended : p.appended with
    | none =>
      rw [happended] at hrun
      cases hrun
    | some bytes =>
      rw [happended] at hrun
      obtain ⟨hnul, hlength⟩ := ih hrun
      have happend := length_c_str_append_le buf bytes
      have hkept : p.kept = (c_str bytes).length := by rw [Piece.kept, happended, Option.getD_some]
      rw [List.map_cons, List.sum_cons, hkept]
      exact ⟨hnul, by omega⟩
  | @typed args argi argi' mini_fmt s rest val inner ps item _ _ ihinner ih =>
    rw [format_loop_typed item] at hrun
    cases hinner : format_loop host [val] 0 [] mini_fmt with
    | error stop =>
      rw [hinner] at hrun
      cases hrun
    | ok sv =>
      rw [hinner] at hrun
      obtain ⟨_, hsv⟩ := ihinner hinner
      obtain ⟨hnul, hlength⟩ := ih hrun
      have happend := length_c_str_append_le buf sv
      have hcut := length_c_str_le sv
      have hempty : (c_str []).length = 0 := rfl
      rw [List.map_append, List.sum_append]
      exact ⟨hnul, by omega⟩

/-- Where the text is that of the parts in full, all of them fit. -/
theorem fits_of_format (h : Asks host args argi fmt ps)
    (hrun : format_loop host args argi [] fmt = .ok (ps.flatMap Piece.bytes)) : ∀ p ∈ ps, p.Fits := by
  obtain ⟨hnul, hlength⟩ := format_loop_length h hrun
  have hkept : ∀ p ∈ ps, p.kept ≤ p.bytes.length ∧ (p.bytes.length ≤ p.kept → p.Fits) := fun p hp =>
    Piece.kept_le fun hzero => hnul (List.mem_flatMap_of_mem hp hzero)
  have hempty : (c_str []).length = 0 := rfl
  rw [hempty, Nat.zero_add, List.length_flatMap] at hlength
  clear h hrun hnul hempty
  induction ps with
  | nil => simp
  | cons p ps ih =>
    obtain ⟨hp, hps⟩ := List.forall_mem_cons.mp hkept
    have hsum : (ps.map Piece.kept).sum ≤ (ps.map fun p => p.bytes.length).sum :=
      List.sum_le_sum fun p hp => (hps p hp).1
    simp only [List.map_cons, List.sum_cons] at hlength
    refine List.forall_mem_cons.mpr ⟨hp.2 (by omega), ih ?_ hps⟩
    have hle := hp.1
    omega

end reading

/-! ### Characters -/

theorem char_bytes_append (s t : List Char) : char_bytes (s ++ t) = char_bytes s ++ char_bytes t := List.map_append

/-- The escapes of a byte are ASCII. A byte that is kept is so in a text only. -/
theorem inspect_byte_ascii (ascii_8bit : Bool) (b : UInt8) :
    Ascii (char_bytes (inspect_byte ascii_8bit b)) ∨ ascii_8bit = false ∧ 0x80 ≤ b := by
  have hall : ∀ ascii_8bit, ∀ n < 256,
      Ascii (char_bytes (inspect_byte ascii_8bit (.ofNat n))) ∨ ascii_8bit = false ∧ 0x80 ≤ UInt8.ofNat n := by
    decide +kernel
  have hb := hall ascii_8bit b.toNat b.toNat_lt
  rwa [UInt8.ofNat_toNat] at hb

theorem inspect_byte_beyond {b : UInt8} (hb : 0x80 ≤ b) : char_bytes (inspect_byte false b) = [b] := by
  have hall : ∀ n < 256, 128 ≤ n → char_bytes (inspect_byte false (.ofNat n)) = [UInt8.ofNat n] := by decide +kernel
  have hbyte := hall b.toNat b.toNat_lt (UInt8.le_iff_toNat_le.mp hb)
  rwa [UInt8.ofNat_toNat] at hbyte

/-- The inspection of a valid text is valid. -/
theorem valid_inspect_bytes (ascii_8bit : Bool) {s : List UInt8} (h : valid_utf8 s) :
    valid_utf8 (char_bytes (inspect_bytes ascii_8bit s)) := by
  refine valid_utf8_induction (motive := fun s => valid_utf8 (char_bytes (inspect_bytes ascii_8bit s))) h
    valid_utf8_nil ?_
  intro c t hc _ ih
  have happend : inspect_bytes ascii_8bit (utf8_encode_one c ++ t) =
      inspect_bytes ascii_8bit (utf8_encode_one c) ++ inspect_bytes ascii_8bit t := List.flatMap_append
  rw [happend, char_bytes_append]
  have hbytes : ∀ x ∈ char_bytes (inspect_bytes ascii_8bit (utf8_encode_one c)),
      ∃ b ∈ utf8_encode_one c, x ∈ char_bytes (inspect_byte ascii_8bit b) := by
    intro x hx
    obtain ⟨ch, hch, rfl⟩ := List.mem_map.mp hx
    obtain ⟨b, hb, hch⟩ := List.mem_flatMap.mp hch
    exact ⟨b, hb, List.mem_map_of_mem hch⟩
  by_cases hkept : ascii_8bit = false ∧ ∀ b ∈ utf8_encode_one c, 0x80 ≤ b
  · obtain ⟨rfl, hbeyond⟩ := hkept
    have hself : ∀ bytes : List UInt8, (∀ b ∈ bytes, 0x80 ≤ b) → char_bytes (inspect_bytes false bytes) = bytes := by
      intro bytes hbytes
      induction bytes with
      | nil => rfl
      | cons b bytes ih =>
        obtain ⟨hb, hbytes⟩ := List.forall_mem_cons.mp hbytes
        rw [inspect_bytes, List.flatMap_cons, char_bytes_append, inspect_byte_beyond hb]
        exact congrArg (b :: ·) (ih hbytes)
    rw [hself _ hbeyond, valid_utf8_character hc]
    exact ih
  · refine (valid_utf8_ascii_append ?_ _).mpr ih
    intro x hx
    obtain ⟨b, hb, hx⟩ := hbytes x hx
    obtain hascii | ⟨hfalse, hbeyond⟩ := inspect_byte_ascii ascii_8bit b
    · exact hascii x hx
    · -- a byte beyond ASCII is in no character with one of ASCII
      refine absurd ⟨hfalse, fun b' hb' => ?_⟩ hkept
      obtain ⟨lead, tail, hencode, _, htail, hsize⟩ := utf8_encode_one_bytes hc
      rw [hencode] at hb hb'
      obtain ⟨rfl, hlead⟩ | ⟨_, hlead⟩ := hsize
      · rw [List.mem_singleton] at hb
        exact absurd (hb ▸ hlead) (UInt8.not_lt.mpr hbeyond)
      · obtain rfl | hmem := List.mem_cons.mp hb'
        · exact hlead
        · exact UInt8.le_iff_toNat_le.mpr (utf8_continues_iff.mp (htail b' hmem)).1

theorem valid_inspect {v : Value} (h : valid_utf8 (val_to_s host v)) : valid_utf8 (val_inspect host v) := by
  cases v with
  | nil => exact valid_utf8_of_ascii (show Ascii (ascii "nil") by decide)
  | string sval frozen encoding =>
    have hquotes : char_bytes (val_inspect_string (encoding = .ascii_8bit) (bytes_of sval)) =
        '"'.toUInt8 :: (char_bytes (inspect_bytes (encoding = .ascii_8bit) (bytes_of sval)) ++ ['"'.toUInt8]) := by
      rw [val_inspect_string, char_bytes, List.map_cons, List.map_append]
      rfl
    rw [val_inspect, hquotes, valid_utf8_ascii (by decide), valid_utf8_append_ascii (by decide)]
    exact valid_inspect_bytes _ h
  | symbol sval => exact (valid_utf8_ascii_append (by decide) _).mpr h
  | _ => exact h

theorem plain_ascii {s : List UInt8} (h : Plain s) : Ascii s := fun b hb =>
  UInt8.lt_trans (h b hb).2 (by decide)

theorem valid_pad (c : Conversion) (s : List UInt8) : valid_utf8 (c.pad s) ↔ valid_utf8 s := by
  have hblanks : Ascii (List.replicate (c.width - s.length) 0x20) :=
    plain_ascii (plain_replicate _ (by decide))
  rw [Conversion.pad]
  split
  · exact valid_utf8_append_ascii hblanks s
  · exact valid_utf8_ascii_append hblanks s

def Piece.TextValid : Piece → Prop
  | .named text | .string _ text => valid_utf8 text
  | _ => True

/-- What a directive contributes is valid exactly if it keeps characters. -/
theorem Piece.valid_bytes_iff {p : Piece} (htext : p.TextValid) (hp : p.is_directive = true) :
    valid_utf8 p.bytes ↔ p.KeepsCharacters := by
  cases p with
  | literal b => cases hp
  | named text => exact iff_of_true htext trivial
  | string c text =>
    rw [bytes, Conversion.string, valid_pad, KeepsCharacters]
    cases c.precision with
    | none => exact iff_of_true htext (by simp)
    | some n =>
      rw [valid_utf8_take htext]
      simp
  | number c written => exact iff_of_true (valid_utf8_of_ascii (plain_ascii written.property)) trivial
  | binary written => exact iff_of_true (valid_utf8_of_ascii (plain_ascii written.property)) trivial
  | char c b => exact (valid_pad c [b]).trans valid_utf8_singleton

section reaching
variable {host} {args : List Value} {argi argi' : Nat} {fmt s rest mini_fmt key : List UInt8} {ps : List Piece} {p : Piece}
  {v val : Value}

theorem named_value_given (key : List UInt8) :
    named_value host args key = .nil ∨ Given host args (named_value host args key) := by
  unfold named_value
  split
  case h_1 h =>
    have hhash : Given host [.hash h] (.hash h) := .argument List.mem_cons_self
    dsimp only
    cases hsym : host.hash_get h (.symbol (text_of_bytes key)) with
    | some v => exact .inr (.entry hhash hsym)
    | none =>
      cases hstr : host.hash_get h (.string (text_of_bytes key) false .utf8) with
      | some v => exact .inr (.entry hhash hstr)
      | none => exact .inl rfl
  case h_2 => exact .inl rfl

/-- What a value leads to is reached from where that value is. -/
theorem given_single (hval : val = .nil ∨ Given host args val) (h : Given host [val] v) :
    v = .nil ∨ Given host args v := by
  induction h with
  | argument mem => exact List.mem_singleton.mp mem ▸ hval
  | entry _ found ih =>
    obtain hnil | hgiven := ih
    · cases hnil
    · exact .inr (.entry hgiven found)

theorem valid_of_given (hvalid : ∀ v, Given host args v → valid_utf8 (val_to_s host v)) (h : v = .nil ∨ Given host args v) :
    valid_utf8 (val_to_s host v) := by
  obtain rfl | hgiven := h
  · exact valid_utf8_nil
  · exact hvalid v hgiven

theorem argument_mem {index : Int} (h : argument args index argi = .ok (v, argi')) : v ∈ args := by
  rw [argument] at h
  split at h
  all_goals
    split at h
    · cases h
      exact List.mem_of_getElem? ‹_›
    · cases h

theorem directive_value {d : Directive} (h : directive args argi s = .ok (d, argi', rest)) : d.value ∈ args := by
  obtain ⟨⟨spec, argi₁, s₁⟩, _, h⟩ := ok_of_bind h
  obtain ⟨⟨spec', argi₂, s₂⟩, _, h⟩ := ok_of_bind h
  dsimp only at h
  split at h
  · cases h
  · obtain ⟨⟨value, argi₃⟩, hargument, h⟩ := ok_of_bind h
    cases h
    exact argument_mem hargument

theorem piece_text {d : Directive} (hvalid : valid_utf8 (val_to_s host d.value)) (h : d.piece host = .ok p) :
    p.TextValid := by
  simp only [Directive.piece] at h
  split at h
  case h_1 =>
    cases h
    exact hvalid
  case h_2 =>
    cases h
    exact valid_inspect host hvalid
  all_goals first | cases h; trivial | cases h

theorem read_item_text (hvalid : ∀ v, Given host args v → valid_utf8 (val_to_s host v))
    (h : read_item host args argi s = .ok (.piece p, argi', rest)) : p.TextValid := by
  rw [read_item] at h
  split at h
  · cases h
    trivial
  split at h
  · split at h
    · cases h
    · cases h
      exact valid_of_given hvalid (named_value_given _)
  split at h
  · split at h
    · cases h
    · dsimp only at h
      split at h
      · cases h
      · cases h
  · obtain ⟨⟨d, argi₁, s₁⟩, hdirective, h⟩ := ok_of_bind h
    obtain ⟨p', hpiece, h⟩ := ok_of_bind h
    cases h
    exact piece_text (hvalid _ (.argument (directive_value hdirective))) hpiece

/-- The only text that a `%` stands for is another one. -/
theorem read_item_literal {b : UInt8} (h : read_item host args argi s = .ok (.piece (.literal b), argi', rest)) :
    b = '%'.toUInt8 := by
  rw [read_item] at h
  split at h
  · cases h
    rfl
  split at h
  · split at h
    · cases h
    · cases h
  split at h
  · split at h
    · cases h
    · dsimp only at h
      split at h
      · cases h
      · cases h
  · obtain ⟨⟨d, argi₁, s₁⟩, _, h⟩ := ok_of_bind h
    obtain ⟨p, hpiece, h⟩ := ok_of_bind h
    cases h
    simp only [Directive.piece] at hpiece
    split at hpiece
    all_goals cases hpiece

theorem read_item_value (h : read_item host args argi s = .ok (.typed mini_fmt val, argi', rest)) :
    val = .nil ∨ Given host args val := by
  rw [read_item] at h
  split at h
  · cases h
  split at h
  · split at h
    · cases h
    · cases h
  split at h
  · split at h
    · cases h
    · dsimp only at h
      split at h
      · cases h
      · cases h
        exact named_value_given _
  · obtain ⟨_, _, h⟩ := ok_of_bind h
    obtain ⟨_, _, h⟩ := ok_of_bind h
    cases h

/-- The texts of the parts are valid as far as the values are. -/
theorem texts_valid (h : Asks host args argi fmt ps)
    (hvalid : ∀ v, Given host args v → valid_utf8 (val_to_s host v)) : ∀ p ∈ ps, p.TextValid := by
  induction h with
  | done => simp
  | literal _ _ ih => exact List.forall_mem_cons.mpr ⟨trivial, ih hvalid⟩
  | piece item _ ih => exact List.forall_mem_cons.mpr ⟨read_item_text hvalid item, ih hvalid⟩
  | typed item _ _ ihinner ih =>
    refine List.forall_mem_append.mpr ⟨ihinner fun v hv => ?_, ih hvalid⟩
    exact valid_of_given hvalid (given_single (read_item_value item) hv)

theorem spec_byte_ascii {b : UInt8} (h : SpecByte b) : b < 0x80 ∧ b ∉ last_bytes ∧ b ≠ '<'.toUInt8 := by
  have hall : ∀ n < 256, SpecByte (.ofNat n) →
      UInt8.ofNat n < 0x80 ∧ UInt8.ofNat n ∉ last_bytes ∧ UInt8.ofNat n ≠ '<'.toUInt8 := by
    unfold SpecByte
    decide +kernel
  have hb := hall b.toNat b.toNat_lt
  rw [UInt8.ofNat_toNat] at hb
  exact hb h

/-- The type of a reference is ASCII, unless it is refused. -/
theorem mini_type_ascii {spec : List UInt8} {type : UInt8} (hspec : ∀ b ∈ spec, SpecByte b)
    (h : Asks host args argi ('%'.toUInt8 :: (spec ++ [type])) ps) : type < 0x80 := by
  have hmem : ∀ {front last rest}, spec ++ [type] = front ++ last :: rest → last ∈ spec ∨ last = type := by
    intro front last rest heq
    have hlast : last ∈ spec ++ [type] := heq ▸ List.mem_append_right front List.mem_cons_self
    exact (List.mem_append.mp hlast).imp id List.mem_singleton.mp
  cases h with
  | literal text _ => exact absurd rfl text
  | piece item _ =>
    obtain ⟨front, last, heq, hwritten⟩ := read_item_written item
    cases hwritten with
    | piece _ _ mem =>
      obtain hlast | rfl := hmem heq
      · exact absurd mem (spec_byte_ascii (hspec _ hlast)).2.1
      · exact (last_bytes_ascii mem).2
  | typed item _ _ =>
    obtain ⟨front, last, heq, hwritten⟩ := read_item_written item
    cases hwritten with
    | typed _ _ _ _ =>
      cases spec with
      | nil =>
        obtain ⟨rfl, _⟩ := List.cons.inj heq
        decide
      | cons b spec =>
        obtain ⟨rfl, _⟩ := List.cons.inj heq
        exact absurd rfl (spec_byte_ascii (hspec _ List.mem_cons_self)).2.2

/-- Parts that keep characters are put together to a valid text. `front` is what
of a character has been read. -/
theorem valid_parts (h : Asks host args argi fmt ps) (hps : ∀ p ∈ ps, p.is_directive = true → valid_utf8 p.bytes)
    (front : List UInt8) (hfmt : valid_utf8 (front ++ fmt)) : valid_utf8 (front ++ ps.flatMap Piece.bytes) := by
  induction h generalizing front with
  | done => exact hfmt
  | @literal args argi b s ps _ _ ih =>
    have hliteral := ih (List.forall_mem_cons.mp hps).2 (front ++ [b])
    rw [List.append_assoc, List.append_assoc] at hliteral
    exact hliteral hfmt
  | @piece args argi argi' p s rest ps item _ ih =>
    obtain ⟨hfront, hs⟩ := (valid_utf8_around (by decide) _ _).mp hfmt
    obtain ⟨read, last, rfl, hwritten⟩ := read_item_written item
    obtain ⟨hp, hps⟩ := List.forall_mem_cons.mp hps
    have hrest : valid_utf8 rest := by
      cases hwritten with
      | piece _ _ mem => exact ((valid_utf8_around (last_bytes_ascii mem).2 _ _).mp hs).2
    have hbytes : valid_utf8 p.bytes := by
      cases p with
      | literal b => exact valid_utf8_singleton.mpr (read_item_literal item ▸ by decide)
      | _ => exact hp rfl
    rw [valid_utf8_append hfront, List.flatMap_cons, valid_utf8_append hbytes]
    exact ih hps [] hrest
  | @typed args argi argi' mini_fmt s rest val inner ps item reference _ ihinner ih =>
    obtain ⟨hfront, hs⟩ := (valid_utf8_around (by decide) _ _).mp hfmt
    obtain ⟨read, last, rfl, hwritten⟩ := read_item_written item
    obtain ⟨hinner, hps⟩ := List.forall_mem_append.mp hps
    cases hwritten with
    | @typed spec _ _ _ _ bytes =>
      have htype := mini_type_ascii bytes reference
      have hrest := ((valid_utf8_around htype _ _).mp hs).2
      have hmini : Ascii ('%'.toUInt8 :: (spec ++ [last])) := by
        refine List.forall_mem_cons.mpr ⟨by decide, List.forall_mem_append.mpr ⟨fun b hb => ?_, ?_⟩⟩
        · exact (spec_byte_ascii (bytes b hb)).1
        · exact List.forall_mem_singleton.mpr htype
      have hreference := ihinner hinner [] (valid_utf8_of_ascii hmini)
      rw [List.nil_append] at hreference
      rw [valid_utf8_append hfront, List.flatMap_append, valid_utf8_append hreference]
      exact ih hps [] hrest

end reaching

/-- What the condition is on the parts that are asked for. -/
def PartsKept (fmt : List UInt8) (args : List Value) : Prop :=
  match parts host args 0 fmt with
  | .error (.argument_error _) => True
  | .error .out_of_bounds => False
  | .ok ps => (∀ p ∈ ps, p.Fits) ∧ (ValidInput host fmt args → ∀ p ∈ ps, p.KeepsCharacters)

/-- A format string contributes what it asks for exactly if all of it fits and,
for valid input, no directive takes a character apart. -/
theorem copies_iff (fmt : List UInt8) (args : List Value) : Copies host fmt args ↔ PartsKept host fmt args := by
  rw [Copies, PartsKept]
  split
  case h_1 => rfl
  case h_2 => rfl
  case h_3 ps hparts =>
    have hasks := asks_of_parts hparts
    refine and_congr ⟨fits_of_format hasks, fun hfits => ?_⟩ (imp_congr_right fun hinput => ?_)
    · have hrun := format_loop_fits hasks hfits []
      have hnul : 0 ∉ ps.flatMap Piece.bytes := fun hzero => by
        obtain ⟨p, hp, hmem⟩ := List.mem_flatMap.mp hzero
        exact (Piece.appended_of_fits (hfits p hp)).2 hmem
      rw [List.nil_append, c_str_eq hnul] at hrun
      exact hrun
    · have htexts := texts_valid hasks hinput.2
      constructor
      · rintro ⟨hvalid, _⟩ p hp
        by_cases hdirective : p.is_directive = true
        · exact (Piece.valid_bytes_iff (htexts p hp) hdirective).mp (hvalid p hp hdirective)
        · cases p with
          | literal b => trivial
          | _ => exact absurd rfl hdirective
      · intro hkeeps
        have hvalid : ∀ p ∈ ps, p.is_directive = true → valid_utf8 p.bytes := fun p hp hdirective =>
          (Piece.valid_bytes_iff (htexts p hp) hdirective).mpr (hkeeps p hp)
        exact ⟨hvalid, valid_parts hasks hvalid [] hinput.1⟩

theorem parts_single {args : List Value} {argi argi' : Nat} {s : List UInt8} {p : Piece}
    (h : read_item host args argi s = .ok (.piece p, argi', [])) :
    parts host args argi ('%'.toUInt8 :: s) = .ok [p] := by
  rw [parts, if_neg (by decide)]
  split
  all_goals rename_i hread; cases h.symm.trans hread
  rw [parts]
  rfl

/-- No values of the heap. -/
def bare : Host := { to_s := fun _ => [], hash_get := fun _ _ => none, fpu := nan_fpu }

/-- A text of 4096 bytes loses its last one, and a precision leaves half of a
character. -/
theorem long_text_and_character_cut :
    ¬ Copies bare (ascii "%s") [.string (String.ofList (List.replicate 4096 'a')) false .utf8] ∧
      ¬ Copies bare (ascii "%.1s") [.string (String.ofList [char_of 0xC3, char_of 0xA9]) false .utf8] := by
  constructor
  · intro h
    have hbytes : bytes_of (String.ofList (List.replicate 4096 'a')) = List.replicate 4096 'a'.toUInt8 := by
      rw [bytes_of, String.toList_ofList, List.map_replicate]
      rfl
    have hparts : parts bare [.string (String.ofList (List.replicate 4096 'a')) false .utf8] 0 (ascii "%s") =
        .ok [.string (conversion []) (bytes_of (String.ofList (List.replicate 4096 'a')))] :=
      parts_single bare rfl
    rw [Copies, hparts] at h
    have hfits := fits_of_format (asks_of_parts hparts) h.1 _ List.mem_cons_self
    have hlength := hfits.2.1
    rw [string_in_full rfl rfl, hbytes, List.length_replicate] at hlength
    exact absurd hlength (by decide)
  · intro h
    have hbytes : bytes_of (String.ofList [char_of 0xC3, char_of 0xA9]) = utf8_encode_one 0xE9 := by
      rw [bytes_of, String.toList_ofList]
      decide
    have hparts : parts bare [.string (String.ofList [char_of 0xC3, char_of 0xA9]) false .utf8] 0 (ascii "%.1s") =
        .ok [.string (conversion (ascii ".1")) (bytes_of (String.ofList [char_of 0xC3, char_of 0xA9]))] :=
      parts_single bare rfl
    have hcharacter : valid_utf8 (utf8_encode_one 0xE9) := 
      valid_utf8_iff.mpr ⟨[0xE9], by simp [UnicodeScalar], rfl⟩
    have hinput : ValidInput bare (ascii "%.1s") [.string (String.ofList [char_of 0xC3, char_of 0xA9]) false .utf8] := by
      refine ⟨valid_utf8_of_ascii (by decide), fun v hv => ?_⟩
      cases hv with
      | argument mem =>
        rw [List.mem_singleton.mp mem, val_to_s, hbytes]
        exact hcharacter
      | entry _ found => cases found
    rw [Copies, hparts] at h
    have hpiece := (h.2 hinput).1 _ List.mem_cons_self rfl
    rw [hbytes] at hpiece
    have htext : (Piece.string (conversion (ascii ".1")) (utf8_encode_one 0xE9)).TextValid := hcharacter
    exact absurd ((Piece.valid_bytes_iff htext rfl).mp hpiece 1 rfl 0xA9 rfl) (by decide)

end stoned.format
