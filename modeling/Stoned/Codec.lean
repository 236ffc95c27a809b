import Mathlib.Data.List.Basic
import Mathlib.Data.List.Infix

namespace stoned.codec

/-! Codes whose words say themselves where they end. -/

/-- A way to write symbols as words and to read the word in front of a text:
the symbol it is of and its length. -/
structure Code (α β : Type) where
  encode : α → List β
  decode : List β → Option (α × Nat)

namespace Code

variable {α β : Type} (code : Code α β)

/-- What is read in front of a text is a word, and a word in front of a text is
read. -/
structure SelfDelimiting (valid : α → Prop) : Prop where
  decode_encode : ∀ {a} rest, valid a → code.decode (code.encode a ++ rest) = some (a, (code.encode a).length)
  valid_of_decode : ∀ {s a n}, code.decode s = some (a, n) → valid a
  take_of_decode : ∀ {s a n}, code.decode s = some (a, n) → s.take n = code.encode a
  decode_nil : code.decode [] = none

/-- The words of a list of symbols one behind the other. -/
def text (symbols : List α) : List β := symbols.flatMap code.encode

/-- Reading word by word leads from a text to what is behind the symbols read. -/
inductive Reads : List β → List α → List β → Prop where
  | done (s : List β) : Reads s [] s
  | word {s rest : List β} {a : α} {n : Nat} {symbols : List α} (decode : code.decode s = some (a, n))
      (more : Reads (s.drop n) symbols rest) : Reads s (a :: symbols) rest

variable {code} {valid : α → Prop}

@[simp] theorem text_nil : code.text [] = [] := rfl

@[simp] theorem text_cons (a : α) (symbols : List α) :
    code.text (a :: symbols) = code.encode a ++ code.text symbols := rfl

namespace SelfDelimiting

variable (h : code.SelfDelimiting valid)
include h

theorem eq_encode_append {s : List β} {a : α} {n : Nat} (hdecode : code.decode s = some (a, n)) :
    s = code.encode a ++ s.drop n := by
  rw [← h.take_of_decode hdecode, List.take_append_drop]

theorem length_of_decode {s : List β} {a : α} {n : Nat} (hdecode : code.decode s = some (a, n)) :
    n = (code.encode a).length := by
  have hread := h.decode_encode (s.drop n) (h.valid_of_decode hdecode)
  rw [← h.eq_encode_append hdecode, hdecode] at hread
  cases hread
  rfl

theorem encode_ne_nil {a : α} (ha : valid a) : code.encode a ≠ [] := by
  intro hnil
  have hread := h.decode_encode [] ha
  rw [hnil, List.append_nil, h.decode_nil] at hread
  cases hread

/-- The symbols read are those whose text is in front. -/
theorem reads_iff {s rest : List β} {symbols : List α} :
    code.Reads s symbols rest ↔ (∀ a ∈ symbols, valid a) ∧ s = code.text symbols ++ rest := by
  constructor
  · intro hreads
    induction hreads with
    | done s => exact ⟨fun _ ha => absurd ha List.not_mem_nil, rfl⟩
    | word decode _ ih =>
      obtain ⟨hvalid, htext⟩ := ih
      refine ⟨List.forall_mem_cons.mpr ⟨h.valid_of_decode decode, hvalid⟩, ?_⟩
      rw [text_cons, List.append_assoc, ← htext]
      exact h.eq_encode_append decode
  · rintro ⟨hvalid, rfl⟩
    induction symbols with
    | nil => exact .done _
    | cons a symbols ih =>
      obtain ⟨ha, hsymbols⟩ := List.forall_mem_cons.mp hvalid
      rw [text_cons, List.append_assoc]
      refine .word (h.decode_encode _ ha) ?_
      rw [List.drop_left]
      exact ih hsymbols

/-- Where no word is in front of the rest, no list of symbols reaches further
into the text than those read. -/
theorem prefix_of_reads {s rest : List β} {symbols others : List α} (hreads : code.Reads s symbols rest)
    (hstuck : code.decode rest = none) (hvalid : ∀ a ∈ others, valid a) (hothers : code.text others <+: s) :
    others <+: symbols := by
  induction hreads generalizing others with
  | done s =>
    cases others with
    | nil => exact List.nil_prefix
    | cons b others =>
      obtain ⟨rest, rfl⟩ := hothers
      rw [text_cons, List.append_assoc, h.decode_encode _ (hvalid b List.mem_cons_self)] at hstuck
      cases hstuck
  | @word s rest a n symbols decode _ ih =>
    cases others with
    | nil => exact List.nil_prefix
    | cons b others =>
      obtain ⟨hb, hvalid⟩ := List.forall_mem_cons.mp hvalid
      obtain ⟨behind, rfl⟩ := hothers
      rw [text_cons, List.append_assoc] at decode ih
      rw [h.decode_encode _ hb, Option.some.injEq, Prod.mk.injEq] at decode
      obtain ⟨rfl, rfl⟩ := decode
      rw [List.drop_left] at ih
      exact (List.prefix_cons_inj b).mpr (ih hstuck hvalid (List.prefix_append _ _))

/-- A text is that of one list of symbols only. -/
theorem text_injective {as bs : List α} (has : ∀ a ∈ as, valid a) (hbs : ∀ b ∈ bs, valid b)
    (htext : code.text as = code.text bs) : as = bs := by
  have hreads : ∀ {cs : List α}, (∀ c ∈ cs, valid c) → code.Reads (code.text cs) cs [] := fun hcs =>
    h.reads_iff.mpr ⟨hcs, (List.append_nil _).symm⟩
  have hab := h.prefix_of_reads (hreads hbs) h.decode_nil has (htext ▸ List.prefix_rfl)
  have hba := h.prefix_of_reads (hreads has) h.decode_nil hbs (htext ▸ List.prefix_rfl)
  exact hab.eq_of_length (Nat.le_antisymm hab.length_le hba.length_le)

end SelfDelimiting

end Code

end stoned.codec
