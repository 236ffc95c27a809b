import Mathlib.Data.List.DropRight
import Mathlib.Data.List.TakeWhile
import Stoned.BundleLaw
import Stoned.Lockfile

namespace stoned.bundle

open rubygems

/-! What is read from the lockfile that was written. -/

section lines

def headings : List Text :=
  [bytes_of "GEM", bytes_of "PATH", bytes_of "GIT", bytes_of "PLATFORMS", bytes_of "DEPENDENCIES",
    bytes_of "BUNDLED WITH"]

def Blank (c : UInt8) : Prop := is_space c = true

instance : DecidablePred Blank := fun c => inferInstanceAs (Decidable (is_space c = true))

/-- A text that is not empty and has no blanks. -/
def Word (s : Text) : Prop := s ≠ [] ∧ ∀ c ∈ s, ¬Blank c

instance (s : Text) : Decidable (Word s) := inferInstanceAs (Decidable (s ≠ [] ∧ ∀ c ∈ s, ¬Blank c))

/-- What can stand between parentheses. -/
def Enclosed (s : Text) : Prop := s ≠ [] ∧ 0x29 ∉ s

/-- A line of a gem: four blanks, its name, and its version in parentheses. -/
structure IsEntry (line name version : Text) : Prop where
  word : Word name
  enclosed : Enclosed version
  parts : ∃ front blanks rest : Text, front.length = 4 ∧ (∀ c ∈ front, Blank c) ∧ blanks ≠ [] ∧ (∀ c ∈ blanks, Blank c) ∧
    line = front ++ name ++ blanks ++ 0x28 :: version ++ 0x29 :: rest

/-- What Lockfile.read relies on its regular expressions for. -/
structure LockLines.Documented (E : LockLines) : Prop where
  heading : ∀ line h, newline ∉ line →
    (E.heading line = some h ↔ h ∈ headings ∧ ∃ blanks : Text, (∀ c ∈ blanks, Blank c) ∧ line = h ++ blanks)
  entry : ∀ line name version, newline ∉ line → (E.entry line = some (name, version) ↔ IsEntry line name version)

theorem readlines_from_line (line rest buffer : Text) :
    readlines_from buffer (line ++ newline :: rest) = readlines_from buffer (line ++ [newline]) ++ readlines rest := by
  induction line generalizing buffer with
  | nil => simp [readlines_from, readlines]
  | cons c line ih =>
    simp only [List.cons_append, readlines_from, ih]
    split <;> rfl

/-- The pieces that a line is read in. -/
def pieces (line : Text) : List Text := readlines (line ++ [newline])

theorem readlines_lines (lines : List Text) : readlines (lines.flatMap (· ++ [newline])) = lines.flatMap pieces := by
  induction lines with
  | nil => rfl
  | cons line lines ih =>
    rw [List.flatMap_cons, List.flatMap_cons, List.append_assoc, List.singleton_append, readlines,
      readlines_from_line, ih]
    rfl

theorem readlines_from_short {line buffer : Text} (hline : newline ∉ line) (hlength : buffer.length + line.length < 4095) :
    readlines_from buffer (line ++ [newline]) = [buffer ++ line ++ [newline]] := by
  induction line generalizing buffer with
  | nil => simp [readlines_from]
  | cons c line ih =>
    obtain ⟨hc, hline⟩ := not_or.mp (fun h => hline (List.mem_cons.mpr h))
    rw [List.length_cons] at hlength
    rw [List.cons_append, readlines_from, if_neg (not_or.mpr ⟨Ne.symm hc, by omega⟩), ih hline (by simp; omega)]
    simp

/-- A line that is cut is read first up to the cut. -/
theorem readlines_from_cut {line buffer : Text} (hline : newline ∉ line) (hbuffer : buffer.length < 4095)
    (hlength : 4095 ≤ buffer.length + line.length) :
    ∃ front back, line = front ++ back ∧ buffer.length + front.length = 4095 ∧
      readlines_from buffer (line ++ [newline]) = (buffer ++ front) :: pieces back := by
  induction line generalizing buffer with
  | nil =>
    rw [List.length_nil] at hlength
    omega
  | cons c line ih =>
    obtain ⟨hc, hline⟩ := not_or.mp (fun h => hline (List.mem_cons.mpr h))
    rw [List.length_cons] at hlength
    by_cases hfull : buffer.length + 1 = 4095
    · refine ⟨[c], line, rfl, hfull, ?_⟩
      rw [List.cons_append, readlines_from, if_pos (.inr hfull), pieces, readlines]
    · obtain ⟨front, back, rfl, hfront, hread⟩ := @ih (buffer ++ [c]) hline (by simp; omega) (by simp; omega)
      refine ⟨c :: front, back, rfl, by simp at hfront ⊢; omega, ?_⟩
      rw [List.cons_append, readlines_from, if_neg (not_or.mpr ⟨Ne.symm hc, hfull⟩), hread]
      simp

theorem pieces_short {line : Text} (hline : newline ∉ line) (hlength : line.length < 4095) :
    pieces line = [line ++ [newline]] :=
  @readlines_from_short _ [] hline (by simpa using hlength)

theorem pieces_cut {line : Text} (hline : newline ∉ line) (hlength : 4095 ≤ line.length) :
    ∃ front back, line = front ++ back ∧ front.length = 4095 ∧ pieces line = front :: pieces back := by
  obtain ⟨front, back, hsplit, hfront, hread⟩ := @readlines_from_cut _ [] hline (by simp) (by simpa using hlength)
  exact ⟨front, back, hsplit, by simpa using hfront, hread⟩

theorem chomp_newline {line : Text} (hend : line.getLast? ≠ some 0x0d) : chomp (line ++ [newline]) = line := by
  rcases line.eq_nil_or_concat with rfl | ⟨front, c, rfl⟩
  · rfl
  · have hc : c ≠ 0x0d := by simpa using hend
    simp only [chomp, List.concat_eq_append, List.reverse_append, List.reverse_cons, List.reverse_nil,
      List.nil_append, List.singleton_append, newline]
    split <;> simp_all

theorem chomp_none {line : Text} (hline : newline ∉ line) (hend : line.getLast? ≠ some 0x0d) : chomp line = line := by
  rcases line.eq_nil_or_concat with rfl | ⟨front, c, rfl⟩
  · rfl
  · have hc : c ≠ 0x0d := by simpa using hend
    have hn : newline ≠ c := by simpa using fun h => hline (by simp [h])
    simp only [chomp, List.concat_eq_append, List.reverse_append, List.reverse_cons, List.reverse_nil,
      List.nil_append, List.singleton_append, newline] at hn ⊢
    split <;> simp_all

variable {E : LockLines}

theorem LockLines.Documented.heading_none (hE : E.Documented) {line : Text} (hline : newline ∉ line)
    (h : ∀ h ∈ headings, ∀ blanks : Text, (∀ c ∈ blanks, Blank c) → line ≠ h ++ blanks) : E.heading line = none := by
  cases hread : E.heading line with
  | none => rfl
  | some heading =>
    obtain ⟨hmem, blanks, hblanks, heq⟩ := (hE.heading line heading hline).mp hread
    exact absurd heq (h heading hmem blanks hblanks)

theorem LockLines.Documented.entry_none (hE : E.Documented) {line : Text} (hline : newline ∉ line)
    (h : ∀ name version, ¬IsEntry line name version) : E.entry line = none := by
  cases hread : E.entry line with
  | none => rfl
  | some gem => exact absurd ((hE.entry line gem.1 gem.2 hline).mp hread) (h _ _)

/-- Headings begin and end with letters. -/
theorem heading_ends : ∀ h ∈ headings, h ≠ [] ∧ (∀ c ∈ h.head?, ¬Blank c) ∧
    (∀ d ∈ h.getLast?, ¬Blank d ∧ d ≠ 0x29) ∧ h.length ≤ 12 ∧ newline ∉ h := by decide +kernel

end lines

section pieces

variable {E : LockLines} (hE : E.Documented)

variable (E) in
/-- A line that says nothing of a gem and of no section, however it is cut. -/
def Plain (line : Text) : Prop := ∀ piece ∈ pieces line, E.heading (chomp piece) = none ∧ E.entry (chomp piece) = none

variable (E) in
/-- What is read of one line of the file. -/
def read_pieces (state : Option Text × Gems) (line : Text) : Option Text × Gems := (pieces line).foldl (read_line E) state

theorem read_plain {line : Text} (h : Plain E line) (state : Option Text × Gems) : read_pieces E state line = state := by
  rw [read_pieces]
  rw [Plain] at h
  generalize pieces line = all at h
  induction all with
  | nil => rfl
  | cons piece all ih =>
    obtain ⟨hheading, hentry⟩ := h piece (by simp)
    rw [List.foldl_cons, read_line, hheading, hentry]
    exact ih fun p hp => h p (by simp [hp])

theorem getLast_blank {h blanks : Text} {d : UInt8} (hmem : h ∈ headings) (hblanks : ∀ c ∈ blanks, Blank c)
    (hend : (h ++ blanks).getLast? = some d) : Blank d ∨ d ≠ 0x29 := by
  rcases blanks.eq_nil_or_concat with rfl | ⟨front, c, rfl⟩
  · rw [List.append_nil] at hend
    exact .inr ((heading_ends h hmem).2.2.1 d hend).2
  · refine .inl (hblanks d ?_)
    rw [List.concat_eq_append, ← List.append_assoc, List.getLast?_append_of_ne_nil _ (by simp)] at hend
    simp_all

include hE

/-- A line that begins with a blank is no heading. -/
theorem heading_indented {c : UInt8} {line : Text} (hline : newline ∉ c :: line) (hc : Blank c) :
    E.heading (c :: line) = none := by
  refine hE.heading_none hline fun h hmem blanks _ heq => ?_
  obtain ⟨hne, hhead, _⟩ := heading_ends h hmem
  obtain ⟨d, h, rfl⟩ := List.exists_cons_of_ne_nil hne
  obtain ⟨rfl, _⟩ := List.cons.inj heq
  exact hhead c rfl hc

/-- A line without four blanks in front is no entry. -/
theorem entry_few {line : Text} (hline : newline ∉ line) (h : ¬∀ c ∈ line.take 4, Blank c) : E.entry line = none := by
  refine hE.entry_none hline fun name version hentry => h fun c hc => ?_
  obtain ⟨front, blanks, rest, hfront, hblank, _, _, rfl⟩ := hentry.parts
  refine hblank c ?_
  simpa only [List.append_assoc, List.take_left' hfront] using hc

theorem entry_short {line : Text} (hline : newline ∉ line) (h : line.length < 4) : E.entry line = none := by
  refine hE.entry_none hline fun name version hentry => ?_
  obtain ⟨front, blanks, rest, hfront, _, _, _, rfl⟩ := hentry.parts
  simp only [List.length_append] at h
  omega

/-- A line with an indent, of which the first four bytes are not all blanks. -/
theorem plain_indented {line : Text} (hline : newline ∉ line) (hlength : line.length < 4095)
    (hend : line.getLast? ≠ some 0x0d) (hindent : ∀ c ∈ line.head?, Blank c)
    (hfew : line.length < 4 ∨ ¬∀ c ∈ line.take 4, Blank c) : Plain E line := by
  intro piece hpiece
  rw [pieces_short hline hlength, List.mem_singleton] at hpiece
  rw [hpiece, chomp_newline hend]
  refine ⟨?_, hfew.elim (entry_short hE hline) (entry_few hE hline)⟩
  cases line with
  | nil =>
    refine hE.heading_none hline fun h hmem blanks _ heq => ?_
    exact (heading_ends h hmem).1 (List.append_eq_nil_iff.mp heq.symm).1
  | cons c line => exact heading_indented hE hline (hindent c rfl)

theorem read_heading {h : Text} (hmem : h ∈ headings) (state : Option Text × Gems) :
    read_pieces E state h = (some h, state.2) := by
  obtain ⟨hne, _, hlast, hlength, hline⟩ := heading_ends h hmem
  have hend : h.getLast? ≠ some 0x0d := fun heq => (hlast _ heq).1 (by decide)
  have hread : E.heading h = some h := (hE.heading h h hline).mpr ⟨hmem, [], by simp, by simp⟩
  rw [read_pieces, pieces_short hline (by omega), List.foldl_cons, List.foldl_nil, read_line, chomp_newline hend, hread]

/-- What is left of a line that was cut in a gem's name or version. -/
structure Remnant (line : Text) : Prop where
  ends : line = [] ∨ line.getLast? = some 0x29
  blank : ∀ c ∈ line, Blank c → c = 0x20
  few : line.countP (Blank ·) ≤ 1

omit hE in
theorem count_take {line : Text} {n : Nat} (hlength : n ≤ line.length) (h : ∀ c ∈ line.take n, Blank c) :
    n ≤ line.countP (Blank ·) := by
  have hcount : (line.take n).countP (Blank ·) = n := by
    rw [List.countP_eq_length.mpr (by simpa using h), List.length_take_of_le hlength]
  have := (List.take_sublist n line).countP_le (p := (Blank ·))
  omega

omit hE in
theorem Remnant.no_newline {line : Text} (h : Remnant line) : newline ∉ line := fun hmem =>
  absurd (h.blank newline hmem (by decide)) (by decide)

omit hE in
theorem Remnant.no_return {line : Text} (h : Remnant line) : line.getLast? ≠ some 0x0d := fun heq =>
  absurd (h.blank 0x0d (List.mem_of_getLast? heq) (by decide)) (by decide)

omit hE in
theorem Remnant.front {front back : Text} (h : Remnant (front ++ back)) :
    (∀ c ∈ front, Blank c → c = 0x20) ∧ front.countP (Blank ·) ≤ 1 := by
  refine ⟨fun c hc => h.blank c (by simp [hc]), ?_⟩
  have := h.few
  rw [List.countP_append] at this
  omega

omit hE in
theorem Remnant.back {front back : Text} (h : Remnant (front ++ back)) : Remnant back := by
  refine ⟨?_, fun c hc => h.blank c (by simp [hc]), ?_⟩
  · rcases back.eq_nil_or_concat with rfl | ⟨back, c, rfl⟩
    · exact .inl rfl
    · rcases h.ends with hnil | hend
      · simp at hnil
      · right
        rwa [List.getLast?_append_of_ne_nil _ (by simp)] at hend
  · have := h.few
    rw [List.countP_append] at this
    omega

/-- At most one blank is not enough for an entry. -/
theorem entry_of_few {line : Text} (hline : newline ∉ line) (hfew : line.countP (Blank ·) ≤ 1) :
    E.entry line = none := by
  by_cases hlength : line.length < 4
  · exact entry_short hE hline hlength
  · refine entry_few hE hline fun h => ?_
    have := count_take (by omega) h
    omega

/-- Nothing is read from what is left of a gem's line. -/
theorem Remnant.plain {line : Text} (h : Remnant line) : Plain E line := by
  induction hn : line.length using Nat.strong_induction_on generalizing line with
  | _ n ih =>
    subst hn
    by_cases hlength : line.length < 4095
    · intro piece hpiece
      rw [pieces_short h.no_newline hlength, List.mem_singleton] at hpiece
      rw [hpiece, chomp_newline h.no_return]
      refine ⟨hE.heading_none h.no_newline fun heading hmem blanks hblanks heq => ?_,
        entry_of_few hE h.no_newline h.few⟩
      rcases h.ends with hnil | hend
      · rw [hnil] at heq
        exact (heading_ends heading hmem).1 (List.append_eq_nil_iff.mp heq.symm).1
      · rw [heq] at hend
        rcases getLast_blank hmem hblanks hend with hblank | hne
        · exact absurd hblank (by decide)
        · exact hne rfl
    · obtain ⟨front, back, rfl, hfront, hpieces⟩ := pieces_cut h.no_newline (by omega)
      intro piece hpiece
      rw [hpieces, List.mem_cons] at hpiece
      rcases hpiece with rfl | hpiece
      · have hline : newline ∉ piece := fun hmem => h.no_newline (by simp [hmem])
        have hend : piece.getLast? ≠ some 0x0d := fun heq =>
          absurd (h.front.1 0x0d (List.mem_of_getLast? heq) (by decide)) (by decide)
        rw [chomp_none hline hend]
        refine ⟨hE.heading_none hline fun heading hmem blanks hblanks heq => ?_, entry_of_few hE hline h.front.2⟩
        -- a heading is too short for this piece, so that it would have many blanks
        have hcount : blanks.countP (Blank ·) = blanks.length := List.countP_eq_length.mpr (by simpa using hblanks)
        have hfew := h.front.2
        have hheading := (heading_ends heading hmem).2.2.2.1
        rw [heq, List.countP_append] at hfew
        rw [heq, List.length_append] at hfront
        omega
      · exact ih back.length (by simp; omega) h.back rfl piece hpiece

/-- A gem's version: a word without a closing parenthesis. -/
def VersionText (version : Text) : Prop := Word version ∧ 0x29 ∉ version

instance (version : Text) : Decidable (VersionText version) :=
  inferInstanceAs (Decidable (Word version ∧ 0x29 ∉ version))

omit hE in
theorem entry_line_eq (name version : Text) :
    entry_line name version = [0x20, 0x20, 0x20, 0x20] ++ name ++ [0x20] ++ 0x28 :: version ++ [0x29] := by
  have h1 : bytes_of "    " = [0x20, 0x20, 0x20, 0x20] := by decide +kernel
  have h2 : bytes_of " (" = [0x20, 0x28] := by decide +kernel
  have h3 : bytes_of ")" = [0x29] := by decide +kernel
  rw [entry_line, h1, h2, h3]
  simp

omit hE in
theorem entry_line_entry {name version : Text} (hname : Word name) (hversion : VersionText version) :
    IsEntry (entry_line name version) name version := by
  have hblank : Blank 0x20 := by decide
  refine ⟨hname, ⟨hversion.1.1, hversion.2⟩, [0x20, 0x20, 0x20, 0x20], [0x20], [], rfl, by simp [hblank], by simp, by simp [hblank], ?_⟩
  rw [entry_line_eq]

omit hE in
/-- The line of a gem after its indent. -/
theorem remnant_entry {name version : Text} (hname : Word name) (hversion : VersionText version) :
    Remnant ((entry_line name version).drop 4) := by
  have hdrop : (entry_line name version).drop 4 = name ++ [0x20] ++ 0x28 :: version ++ [0x29] := by
    rw [entry_line_eq]
    rfl
  have hwords (s : Text) (hs : Word s) : s.countP (Blank ·) = 0 :=
    List.countP_eq_zero.mpr fun c hc => by simpa using hs.2 c hc
  rw [hdrop]
  refine ⟨.inr List.getLast?_concat, fun c hc hblank => ?_, ?_⟩
  · simp only [List.mem_append, List.mem_cons, List.not_mem_nil, or_false] at hc
    rcases hc with ((hc | rfl) | rfl | hc) | rfl
    · exact absurd hblank (hname.2 c hc)
    · rfl
    · exact absurd hblank (by decide)
    · exact absurd hblank (hversion.1.2 c hc)
    · exact absurd hblank (by decide)
  · simp only [List.countP_append, List.countP_cons, List.countP_nil, hwords name hname, hwords version hversion.1]
    decide

omit hE in
theorem entry_line_blank {name version : Text} (hname : Word name) (hversion : VersionText version) :
    ∀ c ∈ entry_line name version, Blank c → c = 0x20 := by
  have hrest := (remnant_entry hname hversion).blank
  intro c hc
  rw [← List.take_append_drop 4 (entry_line name version), List.mem_append] at hc
  refine hc.elim (fun hc _ => ?_) (hrest c)
  rw [entry_line_eq] at hc
  simpa using hc

/-- A line that is cut before its end is no entry. -/
theorem cut_entry {name version front back : Text} (hname : Word name) (hversion : VersionText version)
    (hline : newline ∉ entry_line name version) (hcut : entry_line name version = front ++ back) (hback : back ≠ []) :
    E.entry front = none := by
  refine hE.entry_none (fun h => hline (by simp [hcut, h])) fun n v hentry => ?_
  obtain ⟨f, blanks, rest, hf, hfblank, hblanks, hblank, rfl⟩ := hentry.parts
  have hlong : IsEntry (entry_line name version) n v :=
    ⟨hentry.word, hentry.enclosed, f, blanks, rest ++ back, hf, hfblank, hblanks, hblank, by rw [hcut]; simp⟩
  have hread := (hE.entry _ n v hline).mpr hlong
  rw [(hE.entry _ name version hline).mpr (entry_line_entry hname hversion), Option.some.injEq, Prod.mk.injEq] at hread
  obtain ⟨rfl, rfl⟩ := hread
  have hlength := congrArg List.length hcut
  rw [entry_line_eq] at hlength
  have := List.length_pos_iff.mpr hback
  have := List.length_pos_iff.mpr hblanks
  simp only [List.length_append, List.length_cons, List.length_nil] at hlength
  omega

/-- The section makes a gem one with a path. -/
def sourced (heading : Option Text) : Prop := heading = some (bytes_of "PATH") ∨ heading = some (bytes_of "GIT")

instance (heading : Option Text) : Decidable (sourced heading) :=
  inferInstanceAs (Decidable (heading = some (bytes_of "PATH") ∨ heading = some (bytes_of "GIT")))

theorem read_entry {name version : Text} (hname : Word name) (hversion : VersionText version)
    (heading : Option Text) (gems : Gems) :
    read_pieces E (heading, gems) (entry_line name version) =
      (heading, if (entry_line name version).length ≤ 4095 then
        gems.set name (if sourced heading then bytes_of "path" else version) else gems) := by
  have hblank := entry_line_blank hname hversion
  have hline : newline ∉ entry_line name version := fun hmem => absurd (hblank _ hmem (by decide)) (by decide)
  have hend {front back : Text} (h : entry_line name version = front ++ back) : front.getLast? ≠ some 0x0d := fun heq =>
    absurd (hblank 0x0d (by simp [h, List.mem_of_getLast? heq]) (by decide)) (by decide)
  have hindent {front back : Text} (h : entry_line name version = front ++ back) (hfront : 4 ≤ front.length) :
      E.heading front = none ∧ (entry_line name version).drop 4 = front.drop 4 ++ back := by
    refine ⟨?_, by rw [h, List.drop_append_of_le_length hfront]⟩
    obtain ⟨c, front, rfl⟩ := List.exists_cons_of_length_pos (by omega : 0 < front.length)
    refine heading_indented hE (fun hmem => hline (by simp_all)) ?_
    rw [entry_line_eq] at h
    obtain ⟨rfl, _⟩ := List.cons.inj h
    decide
  have hwhole : E.entry (entry_line name version) = some (name, version) :=
    (hE.entry _ _ _ hline).mpr (entry_line_entry hname hversion)
  have hlines : 4 ≤ (entry_line name version).length := by
    rw [entry_line_eq]
    simp
  by_cases hlength : (entry_line name version).length < 4095
  · rw [read_pieces, pieces_short hline hlength, List.foldl_cons, List.foldl_nil, read_line,
      chomp_newline (hend (List.append_nil _).symm), (hindent (List.append_nil _).symm hlines).1, hwhole, if_pos hlength.le]
    rfl
  · obtain ⟨front, back, hcut, hfront, hpieces⟩ := pieces_cut hline (by omega)
    have hnew : newline ∉ front := fun hmem => hline (by simp [hcut, hmem])
    have hplain : Plain E back := by
      have := remnant_entry hname hversion
      rw [(hindent hcut (by omega)).2] at this
      exact this.back.plain hE
    rw [read_pieces, hpieces, List.foldl_cons, read_line, chomp_none hnew (hend hcut), (hindent hcut (by omega)).1]
    rcases eq_or_ne back [] with rfl | hback
    · rw [List.append_nil] at hcut
      rw [← hcut, hwhole, if_pos (by rw [hcut]; omega)]
      exact read_plain hplain _
    · rw [cut_entry hE hname hversion hline hcut hback, if_neg]
      · exact read_plain hplain _
      · have := List.length_pos_iff.mpr hback
        rw [hcut, List.length_append]
        omega

end pieces

section lookups

theorem value_cons (name version k : Text) (gems : Gems) :
    Gems.value ((name, version) :: gems) k = if name = k then some version else Gems.value gems k := by
  rw [Gems.value, List.find?_cons]
  split <;> simp_all [Gems.value]

theorem set_value (gems : Gems) (name version k : Text) :
    (gems.set name version).value k = if name = k then some version else gems.value k := by
  have hadd (gems : Gems) : Gems.value (gems ++ [(name, version)]) k =
      (gems.value k).or (if name = k then some version else none) := by
    rw [Gems.value, List.find?_append, Gems.value]
    cases gems.find? (·.1 = k) with
    | some gem => rfl
    | none => by_cases hk : name = k <;> simp [hk]
  have hmap (gems : Gems) : Gems.value (gems.map fun gem => if gem.1 = name then (name, version) else gem) k =
      if name = k ∧ gems.any (·.1 = name) = true then some version else gems.value k := by
    induction gems with
    | nil => simp [Gems.value]
    | cons gem gems ih =>
      obtain ⟨n, v⟩ := gem
      rw [List.map_cons, value_cons]
      by_cases hn : n = name
      · subst hn
        by_cases hk : n = k
        · simp [hk]
        · simp [hk, value_cons, ih]
      · by_cases hk : n = k
        · subst hk
          simp [hn, value_cons, Ne.symm hn]
        · simp only [hn, if_false, value_cons, hk, ih, List.any_cons, decide_false, Bool.false_or]
  rw [Gems.set]
  split
  · rw [hmap]
    simp_all
  · rename_i hnew
    rw [hadd]
    by_cases hk : name = k
    · subst hk
      have hnone : gems.value name = none := by
        rw [Gems.value, List.find?_eq_none.mpr, Option.map_none]
        exact fun gem hgem hname => hnew (List.any_eq_true.mpr ⟨gem, hgem, hname⟩)
      simp [hnone]
    · simp [hk]

def KeysUnique (gems : Gems) : Prop := (gems.map Prod.fst).Nodup

theorem value_iff {gems : Gems} (h : KeysUnique gems) (name version : Text) :
    gems.value name = some version ↔ (name, version) ∈ gems := by
  constructor
  · intro hvalue
    obtain ⟨gem, hgem, rfl⟩ := Option.map_eq_some_iff.mp hvalue
    have hname : gem.1 = name := by simpa using List.find?_some hgem
    rw [← hname]
    exact List.mem_of_find?_eq_some hgem
  · intro hmem
    rw [Gems.value, Option.map_eq_some_iff]
    cases hfind : gems.find? (·.1 = name) with
    | none => simpa using List.find?_eq_none.mp hfind _ hmem
    | some gem =>
      have hname : gem.1 = name := by simpa using List.find?_some hfind
      exact ⟨gem, rfl, congrArg Prod.snd (List.inj_on_of_nodup_map h (List.mem_of_find?_eq_some hfind) hmem hname)⟩

/-- The gems that are set, one after the other. -/
def collect (gems found : Gems) : Gems := found.foldl (fun gems gem => gems.set gem.1 gem.2) gems

theorem collect_value (gems : Gems) {found : Gems} (h : KeysUnique found) (k : Text) :
    (collect gems found).value k = (found.value k).or (gems.value k) := by
  induction found generalizing gems with
  | nil => simp [collect, Gems.value]
  | cons gem found ih =>
    obtain ⟨name, version⟩ := gem
    obtain ⟨hnew, hfound⟩ := List.nodup_cons.mp h
    have hrest : collect gems ((name, version) :: found) = collect (gems.set name version) found := rfl
    rw [hrest, ih _ hfound, set_value, value_cons]
    by_cases hk : name = k
    · subst hk
      have hnone : Gems.value found name = none := by
        rw [Option.eq_none_iff_forall_ne_some]
        exact fun v hv => hnew (List.mem_map.mpr ⟨_, (value_iff hfound name v).mp hv, rfl⟩)
      simp [hnone]
    · simp [hk]

end lookups

section file

variable {E : LockLines} {F : Paths}

/-- The line of a gem is read in one piece. -/
def short (gem : Text × Text) : Bool := (entry_line gem.1 gem.2).length ≤ 4095

theorem read_lines (lines : List Text) (state : Option Text × Gems) :
    (lines.flatMap pieces).foldl (read_line E) state = lines.foldl (read_pieces E) state := by
  induction lines generalizing state with
  | nil => rfl
  | cons line lines ih => rw [List.flatMap_cons, List.foldl_append, ih, List.foldl_cons, read_pieces]

theorem read_entries (hE : E.Documented) {gems : List (Text × Text)}
    (hgems : ∀ gem ∈ gems, Word gem.1 ∧ VersionText gem.2) {heading : Option Text} (hheading : ¬sourced heading)
    (before : Gems) :
    (gems.map fun gem => entry_line gem.1 gem.2).foldl (read_pieces E) (heading, before) =
      (heading, collect before (gems.filter short)) := by
  induction gems generalizing before with
  | nil => rfl
  | cons gem gems ih =>
    obtain ⟨hname, hversion⟩ := hgems gem (by simp)
    rw [List.map_cons, List.foldl_cons, read_entry hE hname hversion, if_neg hheading,
      ih fun g hg => hgems g (by simp [hg]), List.filter_cons]
    simp only [short, decide_eq_true_eq]
    split <;> rfl

theorem read_paths (hE : E.Documented) {paths : List (Text × Text × Text)}
    (hpaths : ∀ gem ∈ paths, Word gem.1 ∧ VersionText gem.2.2)
    (hremote : ∀ gem ∈ paths, Plain E (bytes_of "  remote: " ++ F.expand_path gem.2.1))
    (heading : Option Text) (before : Gems) :
    ((paths.flatMap (path_lines F)).foldl (read_pieces E) (heading, before)).2 =
      collect before ((paths.filter fun gem => short (gem.1, gem.2.2)).map fun gem => (gem.1, bytes_of "path")) := by
  have hspecs : Plain E (bytes_of "  specs:") :=
    plain_indented hE (by decide +kernel) (by decide +kernel) (by decide +kernel) (by decide +kernel) (by decide +kernel)
  have hblank : Plain E [] := plain_indented hE (by simp) (by simp) (by simp) (by simp) (.inl (by simp))
  induction paths generalizing heading before with
  | nil => rfl
  | cons gem paths ih =>
    obtain ⟨hname, hversion⟩ := hpaths gem (by simp)
    have hpath : bytes_of "PATH" ∈ headings := by simp [headings]
    rw [List.flatMap_cons, List.foldl_append, path_lines]
    simp only [List.foldl_cons, List.foldl_nil]
    rw [read_heading hE hpath, read_plain (hremote gem (by simp)), read_plain hspecs, read_entry hE hname hversion,
      read_plain hblank, if_pos (show sourced (some (bytes_of "PATH")) from .inl rfl),
      ih (fun g hg => hpaths g (by simp [hg])) fun g hg => hremote g (by simp [hg]), List.filter_cons]
    by_cases hshort : (entry_line gem.1 gem.2.2).length ≤ 4095
    · simp [short, hshort, collect]
    · simp [short, hshort]

theorem sort_by_name_perm {α : Type} (name : α → Text) (xs : List α) :
    ∃ sorted, sort_by_name name xs = .ok sorted ∧ sorted.Perm xs := by
  refine @sort_perm _ _ _ _ (fun x => (Segment.text (name x)).rank) (fun a b => ?_) xs
  exact ⟨_, rfl, Segment.cmp_rank rfl⟩

/-- The version in the line that is written for a gem. -/
def written_version (path_by_name : List Dep) (gem : Text × Text) : Text :=
  match find_dep path_by_name gem.1 with
  | some dep => real_version dep gem.2
  | none => gem.2

/-- What the file says of the gems in it. -/
structure Recorded (path_by_name : List Dep) (m found : Gems) : Prop where
  unique : KeysUnique found
  mem : ∀ name version, (name, version) ∈ found ↔ ∃ gem ∈ m, gem.1 = name ∧
    short (gem.1, written_version path_by_name gem) = true ∧
    (((find_dep path_by_name name).isSome = true ∧ version = bytes_of "path") ∨
      ((find_dep path_by_name name).isSome = false ∧ gem.2 ≠ bytes_of "path" ∧ version = gem.2))

/-- The gems without a path, and those with one, that are read from a file. -/
def found_gems (gems : Gems) (paths : List (Text × Text × Text)) : Gems :=
  gems.filter short ++ (paths.filter fun gem => short (gem.1, gem.2.2)).map fun gem => (gem.1, bytes_of "path")

theorem mem_gem_gems {path_by_name : List Dep} {m : Gems} {gem : Text × Text} :
    gem ∈ gem_gems path_by_name m ↔ gem ∈ m ∧ (find_dep path_by_name gem.1).isSome = false ∧ gem.2 ≠ bytes_of "path" := by
  rw [gem_gems, List.mem_filter, Bool.and_eq_true, decide_eq_true_eq]
  cases find_dep path_by_name gem.1 <;> simp

theorem mem_path_gems {path_by_name : List Dep} {m : Gems} {gem : Text × Text × Text} :
    gem ∈ path_gems path_by_name m ↔ ∃ version, (gem.1, version) ∈ m ∧ ∃ dep, find_dep path_by_name gem.1 = some dep ∧
      gem.2 = (dep.path.getD [], real_version dep version) := by
  obtain ⟨name, path, version⟩ := gem
  simp only [path_gems, List.mem_filterMap, Option.map_eq_some_iff, Prod.mk.injEq]
  constructor
  · rintro ⟨⟨n, v⟩, hmem, dep, hdep, rfl, rfl, rfl⟩
    exact ⟨v, hmem, dep, hdep, rfl, rfl⟩
  · rintro ⟨v, hmem, dep, hdep, rfl, rfl⟩
    exact ⟨(name, v), hmem, dep, hdep, rfl, rfl, rfl⟩

theorem path_gems_names {path_by_name : List Dep} (m : Gems) :
    ((path_gems path_by_name m).map Prod.fst).Sublist (m.map Prod.fst) := by
  induction m with
  | nil => exact .slnil
  | cons gem m ih =>
    rw [path_gems, List.filterMap_cons]
    cases find_dep path_by_name gem.1 with
    | none => exact ih.cons _
    | some dep => exact ih.cons_cons _

theorem recorded_gems {path_by_name : List Dep} {m gems : Gems} {paths : List (Text × Text × Text)} (hm : KeysUnique m)
    (hgems : gems.Perm (gem_gems path_by_name m)) (hpaths : paths.Perm (path_gems path_by_name m)) :
    Recorded path_by_name m (found_gems gems paths) := by
  refine ⟨?_, fun name version => ?_⟩
  · rw [KeysUnique, found_gems, List.map_append, List.map_map]
    refine List.nodup_append.mpr ⟨?_, ?_, ?_⟩
    · refine List.Nodup.sublist (List.filter_sublist.map _) ?_
      rw [(hgems.map _).nodup_iff]
      exact hm.sublist (List.filter_sublist.map _)
    · refine List.Nodup.sublist (List.filter_sublist.map _) ?_
      rw [show ((Prod.fst : Text × Text → Text) ∘ fun gem : Text × Text × Text => (gem.1, bytes_of "path")) = Prod.fst from rfl,
        (hpaths.map _).nodup_iff]
      exact hm.sublist (path_gems_names m)
    · rintro n hn _ hn' rfl
      obtain ⟨gem, hgem, rfl⟩ := List.mem_map.mp hn
      obtain ⟨path, hpath, heq⟩ := List.mem_map.mp hn'
      obtain ⟨_, hnone, _⟩ := mem_gem_gems.mp (hgems.mem_iff.mp (List.mem_of_mem_filter hgem))
      obtain ⟨_, _, dep, hdep, _⟩ := mem_path_gems.mp (hpaths.mem_iff.mp (List.mem_of_mem_filter hpath))
      have heq : path.1 = gem.1 := heq
      simp [← heq, hdep] at hnone
  · rw [found_gems, List.mem_append, List.mem_filter, hgems.mem_iff, mem_gem_gems, List.mem_map]
    constructor
    · rintro (⟨⟨hmem, hnone, hversion⟩, hshort⟩ | ⟨path, hpath, heq⟩)
      · have hdep : find_dep path_by_name name = none := by simpa using hnone
        refine ⟨_, hmem, rfl, ?_, .inr ⟨hnone, hversion, rfl⟩⟩
        simpa only [written_version, hdep] using hshort
      · obtain ⟨hpath, hshort⟩ := List.mem_filter.mp hpath
        obtain ⟨v, hmem, dep, hdep, hwritten⟩ := mem_path_gems.mp (hpaths.mem_iff.mp hpath)
        obtain ⟨rfl, rfl⟩ := Prod.mk.inj heq
        refine ⟨_, hmem, rfl, ?_, .inl ⟨by simp [hdep], rfl⟩⟩
        rw [hwritten] at hshort
        simpa only [written_version, hdep] using hshort
    · rintro ⟨⟨n, v⟩, hmem, rfl, hshort, ⟨hsome, rfl⟩ | ⟨hnone, hversion, rfl⟩⟩
      · obtain ⟨dep, hdep⟩ := Option.isSome_iff_exists.mp hsome
        refine .inr ⟨(n, dep.path.getD [], real_version dep v), List.mem_filter.mpr ⟨?_, ?_⟩, rfl⟩
        · exact hpaths.mem_iff.mpr (mem_path_gems.mpr ⟨v, hmem, dep, hdep, rfl⟩)
        · simpa only [written_version, hdep] using hshort
      · have hdep : find_dep path_by_name n = none := by simpa using hnone
        refine .inl ⟨⟨hmem, hnone, hversion⟩, ?_⟩
        simpa only [written_version, hdep] using hshort

end file

section map

variable {R : Reginold} {W : World} {config : Config} {ds : List Dep} {force : Bool}

theorem KeysUnique.add {gems : Gems} (h : KeysUnique gems) {name : Text} (hnew : ¬gems.any (·.1 = name) = true)
    (version : Text) : KeysUnique (gems ++ [(name, version)]) := by
  rw [KeysUnique, List.map_append]
  refine List.nodup_append.mpr ⟨h, by simp, ?_⟩
  rintro n hn m hm rfl
  obtain ⟨gem, hgem, rfl⟩ := List.mem_map.mp hn
  have hname : gem.1 = name := by simpa using hm
  exact hnew (List.any_eq_true.mpr ⟨gem, hgem, by simpa using hname⟩)

theorem unique_turn {s t : Resolver} {dep : Dep} (h : KeysUnique s.resolved) (hnew : ¬s.maps dep.name = true)
    (hturn : Turn R W force dep s t) : KeysUnique t.resolved := by
  have hset (s' : Resolver) (hs : s'.resolved = s.resolved) (version : Text) (spec : Option Spec) :
      KeysUnique (Resolver.enqueue_runtime_deps spec dep.groups (s'.set dep.name version)).resolved := by
    obtain ⟨added, hadd, _⟩ := enqueue_spec spec dep.groups (s'.set dep.name version)
    rw [hadd]
    simpa only [Resolver.set, hs] using h.add hnew version
  cases hturn with
  | mapped | git | missing => exact h
  | path _ => exact hset s rfl _ _
  | found spec _ _ _ _ _ => exact hset s rfl _ _
  | fetched version _ _ _ => exact hset (s.install W dep.name version) rfl _ _

theorem run_unique {s : Resolver} (h : Relation.ReflTransGen (Next R W force) (initial W config ds) s) :
    KeysUnique s.resolved := by
  induction h with
  | refl => exact List.nodup_nil
  | @tail before after hreach hnext ih =>
    obtain ⟨dep, rest, hqueue, htake⟩ := hnext
    have hfresh := (run_invariant hreach).fresh dep (by simp [hqueue])
    exact unique_turn (s := { before with queue := rest }) ih hfresh (turn_of_take htake)

theorem lock_unique {locked : Gems} (h : KeysUnique locked) (dep : Dep) : KeysUnique (lock_each locked dep) := by
  rw [lock_each]
  split
  · exact h
  · split
    · exact h.add ‹_› _
    · split
      · exact h.add ‹_› _
      · exact h

/-- The map that is written has each gem once. -/
theorem locked_unique (W : World) (ds : List Dep) {resolved : Gems} (h : KeysUnique resolved) :
    KeysUnique (W.lockfile_resolved_dependencies ds resolved) := by
  rw [World.lockfile_resolved_dependencies]
  generalize W.expanded_dependencies ds = deps
  induction deps generalizing resolved with
  | nil => exact h
  | cons dep deps ih => exact ih (lock_unique h dep)

end map

section round_trip

variable {E : LockLines} {F : Paths} {R : Reginold} {W : World} {config : Config} {ds : List Dep} {force : Bool}

variable (E F W ds) in
/-- Names and versions are words, and the other lines of the file say nothing of gems. -/
structure Locking (m : Gems) : Prop where
  names : ∀ gem ∈ m, Word gem.1
  versions : ∀ gem ∈ m, VersionText gem.2
  specs : ∀ dep ∈ W.path_by_name ds, ∀ spec, dep.spec = some spec → VersionText spec.version
  server : Plain E (bytes_of "  remote: " ++ F.server ++ bytes_of "/")
  paths : ∀ dep ∈ W.path_by_name ds, Plain E (bytes_of "  remote: " ++ F.expand_path (dep.path.getD []))
  dependencies : ∀ dep ∈ top_deps ds, Plain E (dependency_line dep)
  bundle_version : Plain E (bytes_of "   " ++ F.bundle_version)

theorem Locking.written {m : Gems} (h : Locking E F W ds m) {gem : Text × Text} (hgem : gem ∈ m) :
    VersionText (written_version (W.path_by_name ds) gem) := by
  rw [written_version]
  cases hdep : find_dep (W.path_by_name ds) gem.1 with
  | none => exact h.versions gem hgem
  | some dep =>
    have hmem : dep ∈ W.path_by_name ds := List.mem_of_find?_eq_some hdep
    simp only [real_version]
    split
    · exact h.specs dep hmem _ ‹_›
    · split
      · decide +kernel
      · exact h.versions gem hgem

/-- The lines of the file with no gem in them change no gem. -/
theorem read_others (hE : E.Documented) {deps : List Dep} (hversion : Plain E (bytes_of "   " ++ F.bundle_version))
    (hdeps : ∀ dep ∈ deps, Plain E (dependency_line dep)) (state : Option Text × Gems) :
    ((platform_lines ++ dependency_lines deps ++ [bytes_of "BUNDLED WITH", bytes_of "   " ++ F.bundle_version]).foldl
      (read_pieces E) state).2 = state.2 := by
  have hruby : Plain E (bytes_of "  ruby") :=
    plain_indented hE (by decide +kernel) (by decide +kernel) (by decide +kernel) (by decide +kernel) (by decide +kernel)
  have hblank : Plain E [] := plain_indented hE (by simp) (by simp) (by simp) (by simp) (.inl (by simp))
  have hplain (lines : List Text) (hlines : ∀ line ∈ lines, Plain E line) (state : Option Text × Gems) :
      lines.foldl (read_pieces E) state = state := by
    induction lines with
    | nil => rfl
    | cons line lines ih =>
      rw [List.foldl_cons, read_plain (hlines line (by simp)), ih fun l hl => hlines l (by simp [hl])]
  have hdependencies (state : Option Text × Gems) : ((dependency_lines deps).foldl (read_pieces E) state).2 = state.2 := by
    rw [dependency_lines]
    split
    · rfl
    · rw [List.cons_append, List.foldl_cons, read_heading hE (by simp [headings]), hplain]
      intro line hline
      rcases List.mem_append.mp hline with hline | hline
      · obtain ⟨dep, hdep, rfl⟩ := List.mem_map.mp hline
        exact hdeps dep hdep
      · rw [List.mem_singleton.mp hline]
        exact hblank
  rw [List.foldl_append, List.foldl_append, platform_lines]
  simp only [List.foldl_cons, List.foldl_nil]
  rw [read_plain hversion, read_heading hE (by simp [headings])]
  simp only [hdependencies]
  rw [read_plain hblank, read_plain hruby, read_heading hE (by simp [headings])]

/-- The gems that are read from the file are those that it was written for. -/
theorem read_write (hE : E.Documented) {m : Gems} (hm : KeysUnique m) (h : Locking E F W ds m) :
    ∃ text found, write_lockfile F m (W.path_by_name ds) (top_deps ds) = .ok text ∧
      Recorded (W.path_by_name ds) m found ∧ read_lockfile E text = collect [] found := by
  obtain ⟨sorted, hsorted, hperm⟩ := sort_by_name_perm Prod.fst m
  obtain ⟨gems, hgems, hgperm⟩ := sort_by_name_perm Prod.fst (gem_gems (W.path_by_name ds) sorted)
  obtain ⟨paths, hpaths, hpperm⟩ := sort_by_name_perm Prod.fst (path_gems (W.path_by_name ds) sorted)
  obtain ⟨deps, hdeps, hdperm⟩ := sort_by_name_perm Dep.name (top_deps ds)
  have hgperm : gems.Perm (gem_gems (W.path_by_name ds) m) := hgperm.trans (hperm.filter _)
  have hpperm : paths.Perm (path_gems (W.path_by_name ds) m) := hpperm.trans (hperm.filterMap _)
  have hgem {gem : Text × Text} (hmem : gem ∈ gems) : Word gem.1 ∧ VersionText gem.2 := by
    obtain ⟨hmem, _⟩ := mem_gem_gems.mp (hgperm.mem_iff.mp hmem)
    exact ⟨h.names gem hmem, h.versions gem hmem⟩
  have hpath {gem : Text × Text × Text} (hmem : gem ∈ paths) :
      (Word gem.1 ∧ VersionText gem.2.2) ∧ Plain E (bytes_of "  remote: " ++ F.expand_path gem.2.1) := by
    obtain ⟨version, hmem, dep, hdep, heq⟩ := mem_path_gems.mp (hpperm.mem_iff.mp hmem)
    rw [heq]
    refine ⟨⟨h.names _ hmem, ?_⟩, h.paths dep (List.mem_of_find?_eq_some hdep)⟩
    simpa only [written_version, hdep] using h.written hmem
  refine ⟨[newline].intercalate (gem_lines F gems ++ paths.flatMap (path_lines F) ++ platform_lines ++
    dependency_lines deps ++ version_lines F), found_gems gems paths, ?_, recorded_gems hm hgperm hpperm, ?_⟩
  · rw [write_lockfile, hsorted]
    simp only [bind, Except.bind, hgems, hpaths, hdeps, pure, Except.pure]
  · have hspecs : Plain E (bytes_of "  specs:") :=
      plain_indented hE (by decide +kernel) (by decide +kernel) (by decide +kernel) (by decide +kernel) (by decide +kernel)
    have hblank : Plain E [] := plain_indented hE (by simp) (by simp) (by simp) (by simp) (.inl (by simp))
    have hsection : ¬sourced (some (bytes_of "GEM")) := by decide +kernel
    have hlines : (gem_lines F gems).foldl (read_pieces E) (none, []) =
        (if gems = [] then none else some (bytes_of "GEM"), collect [] (gems.filter short)) := by
      rw [gem_lines]
      split
      · simp [*, collect]
      · simp only [List.cons_append, List.nil_append, List.foldl_cons, List.foldl_append, List.foldl_nil]
        rw [read_heading hE (h := bytes_of "GEM") (by simp [headings]), read_plain h.server, read_plain hspecs,
          read_entries hE (fun gem hmem => hgem hmem) hsection, read_plain hblank]
    have hbody : gem_lines F gems ++ paths.flatMap (path_lines F) ++ platform_lines ++ dependency_lines deps ++
        version_lines F = (gem_lines F gems ++ (paths.flatMap (path_lines F) ++ (platform_lines ++ dependency_lines deps ++
          [bytes_of "BUNDLED WITH", bytes_of "   " ++ F.bundle_version]))) ++ [[]] := by
      simp [version_lines]
    rw [hbody, intercalate_concat, List.append_nil, read_lockfile, readlines_lines, read_lines, List.foldl_append, hlines,
      List.foldl_append, read_others hE h.bundle_version fun dep hdep => h.dependencies dep (hdperm.mem_iff.mp hdep),
      read_paths hE (fun gem hmem => (hpath hmem).1) (fun gem hmem => (hpath hmem).2), found_gems, collect, collect, collect,
      List.foldl_append]

variable (E F W ds) in
/-- What `install` writes is read back as it was, and `install --frozen` sees no drift. -/
def RoundTrip (m : Gems) : Prop :=
  ∃ text, write_lockfile F m (W.path_by_name ds) (top_deps ds) = .ok text ∧
    (∀ name, (read_lockfile E text).value name = m.value name) ∧ drift m (read_lockfile E text) = false

theorem no_drift {m existing : Gems} (h : ∀ name, existing.value name = m.value name) : drift m existing = false := by
  rw [drift, Bool.or_eq_false_iff]
  constructor
  · rw [List.any_eq_false]
    intro gem _
    simp [h]
  · rw [List.any_eq_false]
    intro gem hgem
    have hvalue : (existing.value gem.1).isSome = true := by
      rw [Gems.value, Option.isSome_map, List.find?_isSome]
      exact ⟨gem, hgem, by simp⟩
    rw [h, Gems.value, Option.isSome_map, List.find?_isSome] at hvalue
    simpa using hvalue

theorem Recorded.values_iff {path_by_name : List Dep} {m found : Gems} (h : Recorded path_by_name m found)
    (hm : KeysUnique m) : (∀ name, found.value name = m.value name) ↔
      ∀ gem ∈ m, (gem.2 = bytes_of "path" ↔ (find_dep path_by_name gem.1).isSome = true) ∧
        short (gem.1, written_version path_by_name gem) = true := by
  constructor
  · intro hvalues gem hgem
    have hvalue := (value_iff hm gem.1 gem.2).mpr hgem
    rw [← hvalues, value_iff h.unique, h.mem] at hvalue
    obtain ⟨other, hother, hname, hshort, hread⟩ := hvalue
    obtain rfl : other = gem := List.inj_on_of_nodup_map hm hother hgem hname
    refine ⟨?_, hshort⟩
    rcases hread with ⟨hsome, hversion⟩ | ⟨hnone, hversion, _⟩
    · exact iff_of_true hversion hsome
    · exact iff_of_false hversion (by simp [hnone])
  · intro hrecorded name
    refine Option.ext fun version => ?_
    rw [value_iff h.unique, value_iff hm, h.mem]
    constructor
    · rintro ⟨gem, hgem, rfl, _, hread⟩
      obtain ⟨hpath, _⟩ := hrecorded gem hgem
      rcases hread with ⟨hsome, rfl⟩ | ⟨_, _, rfl⟩
      · rw [← hpath.mpr hsome]
        exact hgem
      · exact hgem
    · intro hgem
      obtain ⟨hpath, hshort⟩ := hrecorded _ hgem
      refine ⟨_, hgem, rfl, hshort, ?_⟩
      cases hdep : (find_dep path_by_name name).isSome with
      | true => exact .inl ⟨rfl, hpath.mpr hdep⟩
      | false =>
        refine .inr ⟨rfl, fun hversion => ?_, rfl⟩
        simp [hpath.mp hversion] at hdep

end round_trip

section example_lines

/-- The matches of the expressions, computed. -/
def lock_lines : LockLines where
  heading line :=
    if headings.contains (line.rdropWhile is_space) then some (line.rdropWhile is_space) else none
  entry line :=
    let name := (line.drop 4).takeWhile (!is_space ·)
    let after := (line.drop 4).dropWhile (!is_space ·)
    match after.dropWhile is_space with
    | [] => none
    | c :: inner =>
      let version := inner.takeWhile (· ≠ 0x29)
      if 4 ≤ line.length ∧ (line.take 4).all is_space ∧ name ≠ [] ∧ after.takeWhile is_space ≠ [] ∧ c = 0x28 ∧
        version ≠ [] ∧ inner.dropWhile (· ≠ 0x29) ≠ [] then some (name, version) else none

theorem lock_heading {line h : Text} (hmem : h ∈ headings) {blanks : Text} (hblanks : ∀ c ∈ blanks, Blank c)
    (hline : line = h ++ blanks) : line.rdropWhile is_space = h := by
  obtain ⟨hne, _, hlast, _⟩ := heading_ends h hmem
  obtain ⟨front, d, rfl⟩ := (h.eq_nil_or_concat).resolve_left hne
  have hd : ¬Blank d := (hlast d (by simp)).1
  rw [hline, List.rdropWhile, List.reverse_append, List.dropWhile_append_of_pos (by simpa [Blank] using hblanks),
    List.concat_eq_append, List.reverse_append, List.reverse_singleton, List.singleton_append,
    List.dropWhile_cons_of_neg hd]
  simp

theorem lock_entry {line name version : Text} (h : IsEntry line name version) :
    lock_lines.entry line = some (name, version) := by
  obtain ⟨hname, hversion, front, blanks, rest, hfront, hfblank, hblanks, hblank, rfl⟩ := h
  have hdrop : (front ++ name ++ blanks ++ 0x28 :: version ++ 0x29 :: rest).drop 4 =
      name ++ (blanks ++ 0x28 :: (version ++ 0x29 :: rest)) := by
    simp [← hfront]
  have htake : (front ++ name ++ blanks ++ 0x28 :: version ++ 0x29 :: rest).take 4 = front := by
    simp [← hfront]
  obtain ⟨b, bs, rfl⟩ := List.exists_cons_of_ne_nil hblanks
  have hb : is_space b = true := hblank b (by simp)
  have hnonblank : ∀ c ∈ name, (!is_space c) = true := fun c hc => by simpa [Blank] using hname.2 c hc
  have hclose : ∀ c ∈ version, decide (c ≠ 0x29) = true := by
    intro c hc
    rw [decide_eq_true_eq]
    rintro rfl
    exact hversion.2 hc
  have hafter : (name ++ (b :: bs ++ 0x28 :: (version ++ 0x29 :: rest))).dropWhile (!is_space ·) =
      b :: bs ++ 0x28 :: (version ++ 0x29 :: rest) := by
    rw [List.dropWhile_append_of_pos hnonblank, List.cons_append, List.dropWhile_cons_of_neg (by simp [hb])]
  have hnamed : (name ++ (b :: bs ++ 0x28 :: (version ++ 0x29 :: rest))).takeWhile (!is_space ·) = name := by
    rw [List.takeWhile_append_of_pos hnonblank, List.cons_append, List.takeWhile_cons_of_neg (by simp [hb]), List.append_nil]
  have hinner : (b :: bs ++ 0x28 :: (version ++ 0x29 :: rest)).dropWhile is_space = 0x28 :: (version ++ 0x29 :: rest) := by
    rw [List.dropWhile_append_of_pos (by simpa [Blank] using hblank), List.dropWhile_cons_of_neg (by decide)]
  have hversioned : (version ++ 0x29 :: rest).takeWhile (· ≠ 0x29) = version := by
    rw [List.takeWhile_append_of_pos hclose, List.takeWhile_cons_of_neg (by decide), List.append_nil]
  have hclosed : (version ++ 0x29 :: rest).dropWhile (· ≠ 0x29) = 0x29 :: rest := by
    rw [List.dropWhile_append_of_pos hclose, List.dropWhile_cons_of_neg (by decide)]
  simp only [lock_lines]
  rw [hdrop, htake, hafter, hnamed, hinner]
  simp only
  rw [hversioned, hclosed, if_pos]
  refine ⟨?_, List.all_eq_true.mpr hfblank, hname.1, ?_, by trivial, hversion.1, by simp⟩
  · simp [← hfront]
  · rw [List.cons_append, List.takeWhile_cons_of_pos hb]
    simp

theorem lock_entry_of {line name version : Text} (h : lock_lines.entry line = some (name, version)) :
    IsEntry line name version := by
  simp only [lock_lines] at h
  split at h
  · cases h
  · rename_i c inner hinner
    split at h
    · rename_i hall
      obtain ⟨hlength, hfour, hname, hblanks, rfl, hversion, hclose⟩ := hall
      obtain ⟨rfl, rfl⟩ := Prod.mk.inj (Option.some.inj h)
      refine ⟨⟨hname, fun b hb => ?_⟩, ⟨hversion, fun hmem => ?_⟩, line.take 4, _,
        (inner.dropWhile (· ≠ 0x29)).tail, by simpa using hlength,
        List.all_eq_true.mp hfour, hblanks, fun b hb => List.mem_takeWhile_imp hb, ?_⟩
      · simpa [Blank] using List.mem_takeWhile_imp hb
      · simpa using List.mem_takeWhile_imp hmem
      · have hend : inner.dropWhile (· ≠ 0x29) = 0x29 :: (inner.dropWhile (· ≠ 0x29)).tail := by
          have hhead := List.head_dropWhile_not (fun c : UInt8 => decide (c ≠ 0x29)) hclose
          rw [decide_eq_false_iff_not, not_not] at hhead
          conv_lhs => rw [← List.cons_head_tail hclose, hhead]
        have hparts : inner = inner.takeWhile (· ≠ 0x29) ++ 0x29 :: (inner.dropWhile (· ≠ 0x29)).tail := by
          rw [← hend, List.takeWhile_append_dropWhile]
        have hafter := (List.takeWhile_append_dropWhile (p := is_space) (l := (line.drop 4).dropWhile (!is_space ·))).symm
        rw [hinner] at hafter
        have hrest := (List.takeWhile_append_dropWhile (p := (!is_space ·)) (l := line.drop 4)).symm
        have hdrop : line.drop 4 = (line.drop 4).takeWhile (!is_space ·) ++
            (((line.drop 4).dropWhile (!is_space ·)).takeWhile is_space ++
              0x28 :: (inner.takeWhile (· ≠ 0x29) ++ 0x29 :: (inner.dropWhile (· ≠ 0x29)).tail)) := by
          rwa [← hparts, ← hafter]
        calc line = line.take 4 ++ line.drop 4 := (List.take_append_drop 4 line).symm
          _ = line.take 4 ++ ((line.drop 4).takeWhile (!is_space ·) ++
            (((line.drop 4).dropWhile (!is_space ·)).takeWhile is_space ++
              0x28 :: (inner.takeWhile (· ≠ 0x29) ++ 0x29 :: (inner.dropWhile (· ≠ 0x29)).tail))) :=
            congrArg (line.take 4 ++ ·) hdrop
          _ = _ := by simp only [List.append_assoc, List.cons_append]
    · cases h

theorem lock_lines_documented : lock_lines.Documented where
  heading line h _ := by
    constructor
    · intro hread
      simp only [lock_lines] at hread
      split at hread
      · obtain rfl := Option.some.inj hread
        refine ⟨List.contains_iff_mem.mp ‹_›, line.rtakeWhile is_space, fun c hc => List.mem_rtakeWhile_imp hc, ?_⟩
        exact List.rdropWhile_append_rtakeWhile.symm
      · cases hread
    · rintro ⟨hmem, blanks, hblanks, hline⟩
      simp only [lock_lines]
      rw [lock_heading hmem hblanks hline, if_pos (List.contains_iff_mem.mpr hmem)]
  entry line name version _ := ⟨lock_entry_of, lock_entry⟩

/-- Two installed gems, of which one depends on the other, and another copy of that one in ./b. -/
def with_copy : World :=
  { offline [(bytes_of "a", ⟨bytes_of "1", [(bytes_of "b", [(Operator.ge.text, bytes_of "0")])]⟩),
      (bytes_of "b", ⟨bytes_of "1", []⟩)] with
    path_spec := fun path => if path = bytes_of "./b" then some ⟨bytes_of "1", []⟩ else none
    path_names := by
      intro path spec h rdep hrdep
      split at h
      · obtain rfl := Option.some.inj h
        cases hrdep
      · cases h }

/-- `gem "a"` and `gem "b", path: "./b", group: :test` -/
def with_group : List Dep :=
  [gem "a" [], { gem "b" [] with path := some (bytes_of "./b"), groups := [bytes_of "test"] }]

def in_app : Paths := ⟨bytes_of "https://rubygems.org", bytes_of "2.5.0.stoned", (bytes_of "/app/" ++ ·)⟩

/-- Both gems, the second one from its path. -/
def with_path : Gems := [(bytes_of "a", bytes_of "1"), (bytes_of "b", bytes_of "path")]

theorem with_path_locking : Locking lock_lines in_app with_copy with_group with_path where
  names := by decide +kernel
  versions := by decide +kernel
  specs dep hdep spec hspec := by
    have hall : ∀ dep ∈ with_copy.path_by_name with_group, (dep.spec.map Spec.version).all (VersionText ·) = true := by
      decide +kernel
    have := hall dep hdep
    simpa [hspec] using this
  server := plain_indented lock_lines_documented (by decide +kernel) (by decide +kernel) (by decide +kernel)
    (by decide +kernel) (by decide +kernel)
  paths dep hdep := by
    have hall : ∀ dep ∈ with_copy.path_by_name with_group, dep.path = some (bytes_of "./b") := by decide +kernel
    rw [hall dep hdep]
    exact plain_indented lock_lines_documented (by decide +kernel) (by decide +kernel) (by decide +kernel)
      (by decide +kernel) (by decide +kernel)
  dependencies dep hdep := by
    have hall : ∀ dep ∈ top_deps with_group, dependency_line dep = bytes_of "  a" ∨ dependency_line dep = bytes_of "  b!" := by
      decide +kernel
    rcases hall dep hdep with h | h <;> rw [h] <;>
      exact plain_indented lock_lines_documented (by decide +kernel) (by decide +kernel) (by decide +kernel)
        (by decide +kernel) (by decide +kernel)
  bundle_version := plain_indented lock_lines_documented (by decide +kernel) (by decide +kernel) (by decide +kernel)
    (by decide +kernel) (by decide +kernel)

/-- Whether the resolution ends in a map. -/
def resolves (config : Config) (resolved : Gems) : Prop :=
  ∃ s newly, resolve matcher with_copy config false 4 with_group = .ok (some s) ∧ s.outcome = some (resolved, newly)

theorem resolves_of {config : Config} {resolved : Gems}
    (h : (match resolve matcher with_copy config false 4 with_group with
      | .ok (some s) => decide (s.outcome = some (resolved, 0))
      | _ => false) = true) : resolves config resolved := by
  split at h
  · exact ⟨_, 0, ‹_›, by simpa using h⟩
  · cases h

def without_test : Config := ⟨[bytes_of "test"], []⟩

end example_lines

end stoned.bundle
