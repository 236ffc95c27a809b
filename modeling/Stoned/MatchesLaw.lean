import Stoned.Matches

namespace stoned.strings

/-! Which matches scan and gsub go through. -/

/-- Does something for each match in turn, until it answers an error. -/
def visit_all {M : Type → Type} [Monad M] {ε α : Type} (visit : RegexMatch → M (Except ε α)) :
    List RegexMatch → M (Except ε (List α))
  | [] => return .ok []
  | m :: ms => do
    match ← visit m with
    | .error out => return .error out
    | .ok value =>
      match ← visit_all visit ms with
      | .error out => return .error out
      | .ok values => return .ok (value :: values)

namespace RegexMatch

/-- Where gsub looks on behind a match. -/
def behind (m : RegexMatch) : Nat := if m.ending - m.beg = 0 then m.beg + 1 else m.ending

/-- Where scan looks on behind a match it has looked for from `pos`. -/
def behind_from (pos : Nat) (m : RegexMatch) : Nat := if m.ending - m.beg = 0 then pos + 1 else m.ending

end RegexMatch

namespace Regexp
variable {slen : Nat} (re : Regexp slen)

/-- The matches found in turn when the search goes on at `next`. -/
def matches_from (next : Nat → RegexMatch → Nat) (hnext : ∀ {pos m}, re.search pos = some m → pos < next pos m)
    (pos : Nat) : List RegexMatch :=
  if pos ≤ slen then
    match _hfound : re.search pos with
    | none => []
    | some m => m :: matches_from next hnext (next pos m)
  else []
termination_by slen + 1 - pos
decreasing_by
  have hlt := hnext _hfound
  omega

theorem pos_le_slen {pos : Nat} {m : RegexMatch} (h : re.search pos = some m) : pos ≤ slen := by
  have hwithin := re.search_within h
  omega

/-- What holds where no match is found, and of a place when it holds behind it, holds of every place. -/
theorem search_induction {motive : Nat → Prop} (none : ∀ pos, re.search pos = none → motive pos)
    (some : ∀ pos m, re.search pos = some m → (∀ later, pos < later → motive later) → motive pos) (pos : Nat) :
    motive pos := by
  induction hleft : slen + 1 - pos using Nat.strong_induction_on generalizing pos with
  | _ left ih =>
    cases hfound : re.search pos with
    | none => exact none pos hfound
    | some m =>
      have hpos := re.pos_le_slen hfound
      exact some pos m hfound fun later hlater => ih (slen + 1 - later) (by omega) later rfl

section
variable {next : Nat → RegexMatch → Nat} {hnext : ∀ {pos m}, re.search pos = some m → pos < next pos m} {pos : Nat}

theorem matches_from_none (h : re.search pos = none) : re.matches_from next hnext pos = [] := by
  rw [matches_from]
  split
  · split
    · rfl
    · next _ hfound => cases h.symm.trans hfound
  · rfl

theorem matches_from_some {m : RegexMatch} (h : re.search pos = some m) :
    re.matches_from next hnext pos = m :: re.matches_from next hnext (next pos m) := by
  rw [matches_from, if_pos (re.pos_le_slen h)]
  split
  · next hfound => cases h.symm.trans hfound
  · next _ hfound =>
    cases h.symm.trans hfound
    rfl

end

theorem lt_behind_from {pos : Nat} {m : RegexMatch} (h : re.search pos = some m) : pos < m.behind_from pos := by
  have hwithin := re.search_within h
  rw [RegexMatch.behind_from]
  split <;> omega

theorem lt_behind {pos : Nat} {m : RegexMatch} (h : re.search pos = some m) : pos < m.behind := by
  have hwithin := re.search_within h
  rw [RegexMatch.behind]
  split <;> omega

/-- The matches scan goes through from `pos` on. -/
def scan_matches : Nat → List RegexMatch := re.matches_from (fun pos m => m.behind_from pos) re.lt_behind_from

/-- The matches gsub goes through from `pos` on. -/
def gsub_matches : Nat → List RegexMatch := re.matches_from (fun _ m => m.behind) re.lt_behind

end Regexp

/-- A string with a text in the place of each of its matches: what stands before
them, between them and behind them stays. -/
def splice (s : List UInt8) : Nat → List (RegexMatch × List UInt8) → List UInt8
  | pos, [] => s.drop pos
  | pos, (m, text) :: rest => stretch s pos m.beg ++ text ++ splice s m.ending rest

section
variable {s : List UInt8} {pos : Nat}

theorem drop_succ (s : List UInt8) (pos : Nat) :
    s.drop pos = (if pos < s.length then [s.getD pos 0] else []) ++ s.drop (pos + 1) := by
  by_cases hpos : pos < s.length
  · rw [if_pos hpos, List.drop_eq_getElem_cons hpos]
    simp [hpos]
  · rw [if_neg hpos, List.drop_eq_nil_of_le (Nat.not_lt.mp hpos), List.drop_eq_nil_of_le (by omega)]
    rfl

theorem stretch_succ {ending : Nat} (hlt : pos < ending) :
    stretch s pos ending = (if pos < s.length then [s.getD pos 0] else []) ++ stretch s (pos + 1) ending := by
  obtain ⟨n, hn⟩ : ∃ n, ending - pos = n + 1 := ⟨ending - pos - 1, by omega⟩
  rw [stretch, stretch, drop_succ, hn, show ending - (pos + 1) = n by omega]
  by_cases hpos : pos < s.length
  · rw [if_pos hpos]
    rfl
  · rw [if_neg hpos, List.drop_eq_nil_of_le (by omega)]
    simp

theorem splice_succ {pieces : List (RegexMatch × List UInt8)} (hfirst : ∀ piece ∈ pieces.head?, pos < piece.1.beg) :
    splice s pos pieces = (if pos < s.length then [s.getD pos 0] else []) ++ splice s (pos + 1) pieces := by
  cases pieces with
  | nil => exact drop_succ s pos
  | cons piece rest =>
    have hlt := hfirst piece rfl
    rw [splice, splice, stretch_succ hlt]
    simp only [List.append_assoc]

end

section
variable {M : Type → Type} [Monad M] [LawfulMonad M]

/-- The loop of scan does its work for the matches scan goes through. -/
theorem scan_each_eq {slen : Nat} (re : Regexp slen) (visit : RegexMatch → M (Except Value Unit)) (pos : Nat) :
    scan_each re visit pos = visit_all visit (re.scan_matches pos) >>= fun done => pure (done.map fun _ => ()) := by
  induction pos using re.search_induction with
  | none pos h =>
    rw [Regexp.scan_matches, re.matches_from_none h, visit_all, pure_bind, scan_each]
    split
    · split
      · rfl
      · next _ hfound => cases h.symm.trans hfound
    · rfl
  | some pos m h ih =>
    rw [Regexp.scan_matches, re.matches_from_some h, visit_all, scan_each, if_pos (re.pos_le_slen h), bind_assoc]
    split
    · next hfound => cases h.symm.trans hfound
    · next _ hfound =>
      cases h.symm.trans hfound
      refine bind_congr fun done => ?_
      cases done with
      | error out => simp [Except.map]
      | ok _ =>
        have hrest := ih _ (re.lt_behind_from h)
        simp only
        rw [← RegexMatch.behind_from, hrest, bind_assoc, Regexp.scan_matches]
        refine bind_congr fun rest => ?_
        cases rest <;> simp [Except.map]

section
variable {s : CString} (re : Regexp s.bytes.length) (replace : RegexMatch → M (Except Value CString))

theorem gsub_matches_first {pos : Nat} {m : RegexMatch} (h : m ∈ (re.gsub_matches pos).head?) : pos ≤ m.beg := by
  cases hfound : re.search pos with
  | none =>
    rw [Regexp.gsub_matches, re.matches_from_none hfound] at h
    cases h
  | some found =>
    rw [Regexp.gsub_matches, re.matches_from_some hfound] at h
    cases h
    exact (re.search_within hfound).1

/-- What is copied behind a match that was replaced. -/
theorem splice_behind {m : RegexMatch} (hm : m.beg ≤ m.ending) {ms : List RegexMatch}
    (hms : ∀ later ∈ ms.head?, m.behind ≤ later.beg) (texts : List (List UInt8)) :
    splice s.bytes m.ending (ms.zip texts) =
      (if m.ending - m.beg = 0 ∧ m.beg < s.bytes.length then [s.bytes.getD m.beg 0] else []) ++
        splice s.bytes m.behind (ms.zip texts) := by
  by_cases hempty : m.ending - m.beg = 0
  · have hsame : m.ending = m.beg := by omega
    rw [RegexMatch.behind, if_pos hempty] at hms ⊢
    rw [hsame, splice_succ]
    · simp
    · intro piece hpiece
      cases ms with
      | nil => cases hpiece
      | cons later ms =>
        cases texts with
        | nil => cases hpiece
        | cons text texts =>
          cases hpiece
          exact hms later rfl
  · rw [RegexMatch.behind, if_neg hempty, if_neg fun h => hempty h.1]
    rfl

/-- The loop of gsub replaces the matches gsub goes through and copies the rest. -/
theorem gsub_each_eq (pos : Nat) (replaced : Bool) (buf : List UInt8) :
    gsub_each s re true replace pos replaced buf = visit_all replace (re.gsub_matches pos) >>= fun done =>
      pure (done.map fun texts => buf ++ splice s.bytes pos ((re.gsub_matches pos).zip (texts.map CString.bytes))) := by
  induction pos using re.search_induction generalizing replaced buf with
  | none pos h =>
    rw [Regexp.gsub_matches, re.matches_from_none h, visit_all, pure_bind, gsub_each]
    split
    · rw [if_neg (by simp)]
      split
      · rfl
      · next _ hfound => cases h.symm.trans hfound
    · next hpos => simp [Except.map, splice, List.drop_eq_nil_of_le (Nat.le_of_lt (Nat.not_le.mp hpos))]
  | some pos m h ih =>
    have hwithin := re.search_within h
    have hlist : re.gsub_matches pos = m :: re.gsub_matches m.behind := re.matches_from_some h
    rw [hlist, visit_all, gsub_each, if_pos (re.pos_le_slen h), if_neg (by simp), bind_assoc]
    split
    · next hfound => cases h.symm.trans hfound
    · next _ hfound =>
      cases h.symm.trans hfound
      refine bind_congr fun done => ?_
      cases done with
      | error out => simp [Except.map]
      | ok text =>
        have hbehind := splice_behind (s := s) hwithin.2.1 (fun later hlater => gsub_matches_first re hlater)
        have hgo : (if m.ending - m.beg = 0 then
              gsub_each s re true replace (m.beg + 1) true
                (if m.beg < s.bytes.length then buf ++ stretch s.bytes pos m.beg ++ text.bytes ++ [s.bytes.getD m.beg 0]
                else buf ++ stretch s.bytes pos m.beg ++ text.bytes)
            else gsub_each s re true replace m.ending true (buf ++ stretch s.bytes pos m.beg ++ text.bytes)) =
            gsub_each s re true replace m.behind true (buf ++ stretch s.bytes pos m.beg ++ text.bytes ++
              if m.ending - m.beg = 0 ∧ m.beg < s.bytes.length then [s.bytes.getD m.beg 0] else []) := by
          rw [RegexMatch.behind]
          by_cases hempty : m.ending - m.beg = 0
          · by_cases hbeg : m.beg < s.bytes.length <;> simp [hempty, hbeg]
          · simp [hempty]
        simp only
        rw [hgo, ih _ (re.lt_behind h), bind_assoc]
        refine bind_congr fun rest => ?_
        cases rest with
        | error out => simp [Except.map]
        | ok texts =>
          simp only [Except.map, List.map_cons, List.zip_cons_cons, splice, hbehind, List.append_assoc, pure_bind]

omit [LawfulMonad M] in
theorem gsub_each_done (pos : Nat) (buf : List UInt8) :
    gsub_each s re false replace pos true buf = pure (.ok (buf ++ s.bytes.drop pos)) := by
  rw [gsub_each]
  split
  · rfl
  · next hpos => rw [List.drop_eq_nil_of_le (Nat.le_of_lt (Nat.not_le.mp hpos)), List.append_nil]

/-- The loop of sub replaces the first of these matches and copies the rest. -/
theorem sub_each_eq (pos : Nat) (buf : List UInt8) :
    gsub_each s re false replace pos false buf = visit_all replace ((re.gsub_matches pos).take 1) >>= fun done =>
      pure (done.map fun texts => buf ++ splice s.bytes pos (((re.gsub_matches pos).take 1).zip (texts.map CString.bytes))) := by
  cases h : re.search pos with
  | none =>
    rw [Regexp.gsub_matches, re.matches_from_none h, List.take_nil, visit_all, pure_bind, gsub_each]
    split
    · rw [if_neg (by simp)]
      split
      · rfl
      · next _ hfound => cases h.symm.trans hfound
    · next hpos => simp [Except.map, splice, List.drop_eq_nil_of_le (Nat.le_of_lt (Nat.not_le.mp hpos))]
  | some m =>
    have hwithin := re.search_within h
    have hlist : re.gsub_matches pos = m :: re.gsub_matches m.behind := re.matches_from_some h
    rw [hlist, List.take_succ_cons, List.take_zero, visit_all, gsub_each, if_pos (re.pos_le_slen h),
      if_neg (by simp), bind_assoc]
    split
    · next hfound => cases h.symm.trans hfound
    · next _ hfound =>
      cases h.symm.trans hfound
      refine bind_congr fun done => ?_
      cases done with
      | error out => simp [Except.map]
      | ok text =>
        have hnone : ∀ later ∈ ([] : List RegexMatch).head?, m.behind ≤ later.beg := by rintro _ ⟨⟩
        have hbehind := splice_behind (s := s) hwithin.2.1 hnone []
        rw [List.zip_nil_left] at hbehind
        simp only [gsub_each_done, visit_all, pure_bind, Except.map, List.map_cons, List.zip_cons_cons, List.zip_nil_left]
        rw [splice, hbehind, splice, RegexMatch.behind]
        by_cases hempty : m.ending - m.beg = 0
        · by_cases hbeg : m.beg < s.bytes.length <;> simp [hempty, hbeg]
        · simp [hempty]

end
end

/-! ### The law -/

/-- Matches that begin one behind the other and do not overlap. -/
def InTurn (ms : List RegexMatch) : Prop := ms.Pairwise fun a b => a.beg < b.beg ∧ a.ending ≤ b.beg

theorem InTurn.nodup {ms : List RegexMatch} (h : InTurn ms) : ms.Nodup :=
  h.imp fun hlt heq => absurd (congrArg RegexMatch.beg heq) hlt.1.ne

theorem not_in_turn_twice {before after : List RegexMatch} {m : RegexMatch} : ¬ InTurn (before ++ m :: m :: after) := by
  intro h
  have hpair := List.pairwise_cons.mp (List.pairwise_append.mp h).2.1
  exact absurd (hpair.1 m List.mem_cons_self).1 (lt_irrefl _)

/-- scan, whatever it does with a match, and gsub, whatever takes its place, go
through the same matches, in turn. -/
def SameMatches {s : CString} (re : Regexp s.bytes.length) : Prop :=
  ∃ ms : List RegexMatch,
    (∀ (M : Type → Type) [Monad M] [LawfulMonad M] (visit : RegexMatch → M (Except Value Unit)),
      scan_each re visit 0 = visit_all visit ms >>= fun done => pure (done.map fun _ => ())) ∧
    (∀ (M : Type → Type) [Monad M] [LawfulMonad M] (replace : RegexMatch → M (Except Value CString)),
      ∃ finish, gsub_each s re true replace 0 false [] =
        visit_all replace ms >>= fun done => pure (done.map finish)) ∧
    InTurn ms ∧ ms.Nodup

namespace Regexp
variable {slen : Nat} (re : Regexp slen)

/-- The places from which gsub looks for matches. -/
inductive Cursor : Nat → Prop where
  | start : Cursor 0
  | behind {pos : Nat} {m : RegexMatch} (h : Cursor pos) (hm : re.search pos = some m) : Cursor m.behind

/-- An empty match is only found where it is looked for. -/
def EmptyAtCursor : Prop := ∀ pos m, re.Cursor pos → re.search pos = some m → m.ending - m.beg = 0 → m.beg = pos

theorem gsub_matches_bound (pos : Nat) : ∀ m ∈ re.gsub_matches pos, pos ≤ m.beg := by
  induction pos using re.search_induction with
  | none pos h =>
    rw [gsub_matches, re.matches_from_none h]
    exact fun _ hm => nomatch hm
  | some pos found h ih =>
    have hlist : re.gsub_matches pos = found :: re.gsub_matches found.behind := re.matches_from_some h
    rw [hlist, List.forall_mem_cons]
    have hlt := re.lt_behind h
    exact ⟨(re.search_within h).1, fun m hm => hlt.le.trans (ih _ hlt m hm)⟩

/-- They are what the regexp matches at their places. -/
theorem gsub_matches_match (pos : Nat) :
    ∀ m ∈ re.gsub_matches pos, re.match_at m.beg = some m ∧ m.beg ≤ m.ending ∧ m.ending ≤ slen := by
  induction pos using re.search_induction with
  | none pos h =>
    rw [gsub_matches, re.matches_from_none h]
    exact fun _ hm => nomatch hm
  | some pos found h ih =>
    have hlist : re.gsub_matches pos = found :: re.gsub_matches found.behind := re.matches_from_some h
    rw [hlist, List.forall_mem_cons]
    exact ⟨⟨(re.search_iff.mp h).2.1, (re.search_within h).2⟩, ih _ (re.lt_behind h)⟩

theorem gsub_matches_in_turn (pos : Nat) : InTurn (re.gsub_matches pos) := by
  induction pos using re.search_induction with
  | none pos h =>
    rw [gsub_matches, re.matches_from_none h]
    exact .nil
  | some pos found h ih =>
    have hlist : re.gsub_matches pos = found :: re.gsub_matches found.behind := re.matches_from_some h
    rw [hlist]
    refine List.Pairwise.cons (fun m hm => ?_) (ih _ (re.lt_behind h))
    have hbound := re.gsub_matches_bound found.behind m hm
    have hwithin := re.search_within h
    rw [RegexMatch.behind] at hbound
    split at hbound <;> omega

/-- Where empty matches are found only where they are looked for, scan looks on
where gsub does. -/
theorem scan_matches_eq (h : re.EmptyAtCursor) {pos : Nat} (hpos : re.Cursor pos) :
    re.scan_matches pos = re.gsub_matches pos := by
  induction pos using re.search_induction with
  | none pos hnone => rw [scan_matches, gsub_matches, re.matches_from_none hnone, re.matches_from_none hnone]
  | some pos m hm ih =>
    have hnext : m.behind_from pos = m.behind := by
      rw [RegexMatch.behind_from, RegexMatch.behind]
      split
      · next hempty => rw [h pos m hpos hm hempty]
      · rfl
    rw [scan_matches, gsub_matches, re.matches_from_some hm, re.matches_from_some hm, hnext]
    exact congrArg (m :: ·) (ih _ (re.lt_behind hm) (.behind hpos hm))

/-- An empty match found further on is found again. -/
theorem scan_matches_again {pos : Nat} {m : RegexMatch} (hm : re.search pos = some m) (hempty : m.ending - m.beg = 0)
    (hne : m.beg ≠ pos) : re.scan_matches pos = m :: m :: re.scan_matches (pos + 1 + 1) := by
  have hwithin := re.search_within hm
  have hagain : re.search (pos + 1) = some m := by
    obtain ⟨-, hmatch, hfirst⟩ := re.search_iff.mp hm
    exact re.search_iff.mpr ⟨by omega, hmatch, fun beg hbeg => hfirst beg (by omega)⟩
  have hnext (from_ : Nat) : m.behind_from from_ = from_ + 1 := by rw [RegexMatch.behind_from, if_pos hempty]
  rw [scan_matches, re.matches_from_some hm, hnext, re.matches_from_some hagain, hnext]

/-- Where scan goes through matches in turn, it comes to the places gsub looks from. -/
theorem cursor_reached (h : InTurn (re.scan_matches 0)) {pos : Nat} (hpos : re.Cursor pos) :
    ∃ before, re.scan_matches 0 = before ++ re.scan_matches pos := by
  induction hpos with
  | start => exact ⟨[], rfl⟩
  | @behind pos m _ hm ih =>
    obtain ⟨before, hbefore⟩ := ih
    have hlist : re.scan_matches pos = m :: re.scan_matches (m.behind_from pos) := re.matches_from_some hm
    refine ⟨before ++ [m], ?_⟩
    rw [hbefore, hlist, List.append_assoc, List.singleton_append]
    by_cases hempty : m.ending - m.beg = 0
    · have hpos : m.beg = pos := by
        by_contra hne
        rw [hbefore, re.scan_matches_again hm hempty hne] at h
        exact not_in_turn_twice h
      rw [RegexMatch.behind_from, RegexMatch.behind, hpos]
    · rw [RegexMatch.behind_from, RegexMatch.behind, if_neg hempty, if_neg hempty]

theorem empty_at_cursor_of_in_turn (h : InTurn (re.scan_matches 0)) : re.EmptyAtCursor := by
  intro pos m hpos hm hempty
  by_contra hne
  obtain ⟨before, hbefore⟩ := re.cursor_reached h hpos
  rw [hbefore, re.scan_matches_again hm hempty hne] at h
  exact not_in_turn_twice h

end Regexp

/-- A body that notes the matches it is handed. -/
def note_match (m : RegexMatch) : StateM (List RegexMatch) (Except Value Unit) := fun seen => (.ok (), seen ++ [m])

theorem visit_all_note (ms seen : List RegexMatch) : (visit_all note_match ms seen).2 = seen ++ ms := by
  induction ms generalizing seen with
  | nil => exact (List.append_nil seen).symm
  | cons m ms ih =>
    have hrest : (visit_all note_match (m :: ms) seen).2 = (visit_all note_match ms (seen ++ [m])).2 := by
      simp only [visit_all, note_match, bind, StateT.bind]
      rcases visit_all note_match ms (seen ++ [m]) with ⟨_ | _, later⟩ <;> rfl
    rw [hrest, ih, List.append_assoc, List.singleton_append]

/-- The matches scan goes through are told by what it hands on. -/
theorem scan_matches_unique {slen : Nat} (re : Regexp slen) {ms : List RegexMatch}
    (h : scan_each re note_match 0 = visit_all note_match ms >>= fun done => pure (done.map fun _ => ())) :
    ms = re.scan_matches 0 := by
  have heq := (scan_each_eq re note_match 0).symm.trans h
  have hseen := congrArg (fun run : StateM (List RegexMatch) (Except Value Unit) => (run []).2) heq
  have hleft : (visit_all note_match (re.scan_matches 0) []).2 = (visit_all note_match ms []).2 := hseen
  rw [visit_all_note, visit_all_note] at hleft
  exact hleft.symm

theorem not_same_of_late_empty {s : CString} (re : Regexp s.bytes.length) {pos : Nat} {m : RegexMatch}
    (hpos : re.Cursor pos) (hm : re.search pos = some m) (hempty : m.ending - m.beg = 0) (hne : m.beg ≠ pos) :
    ¬ SameMatches re := by
  rintro ⟨ms, hscan, -, hturn, -⟩
  obtain rfl := scan_matches_unique re (hscan _ note_match)
  exact hne (re.empty_at_cursor_of_in_turn hturn pos m hpos hm hempty)

def ab : CString := .of (program.ascii "ab")

/-- `(?=b)` on `ab`: it matches the empty string before the `b`. -/
def before_b : Regexp ab.bytes.length where
  search pos := if pos ≤ 1 then some { beg := 1, ending := 1, captures := [] } else none
  match_at beg := if beg = 1 then some { beg := 1, ending := 1, captures := [] } else none
  match_at_within := by
    intro beg m h
    split at h
    · next hbeg =>
      cases h
      exact ⟨hbeg.symm, hbeg.le, by decide⟩
    · cases h
  search_iff := by
    intro pos m
    constructor
    · intro h
      split at h
      · next hpos =>
        cases h
        exact ⟨hpos, rfl, fun beg _ hbeg => if_neg hbeg.ne⟩
      · cases h
    · rintro ⟨hpos, hmatch, -⟩
      split at hmatch
      · next hbeg =>
        cases hmatch
        exact if_pos hpos
      · cases hmatch

/-- `"ab".scan(/(?=b)/)` finds the empty string before the `b` twice. -/
theorem lookahead_found_twice : ¬ SameMatches before_b :=
  not_same_of_late_empty before_b (m := { beg := 1, ending := 1, captures := [] }) .start rfl rfl (by decide)

/-- scan and gsub see the same matches, in turn, exactly when each empty match is
found at the place it is looked for from. -/
theorem same_matches_iff (s : CString) (re : Regexp s.bytes.length) : SameMatches re ↔ re.EmptyAtCursor := by
  constructor
  · intro h pos m hpos hm hempty
    by_contra hne
    exact not_same_of_late_empty re hpos hm hempty hne h
  · intro h
    have hturn := re.gsub_matches_in_turn 0
    refine ⟨re.gsub_matches 0, fun M _ _ visit => ?_, fun M _ _ replace => ⟨_, gsub_each_eq re replace 0 false []⟩,
      hturn, hturn.nodup⟩
    rw [scan_each_eq, re.scan_matches_eq h .start]

end stoned.strings
