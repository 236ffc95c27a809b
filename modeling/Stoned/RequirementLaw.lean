import Stoned.VersionText

namespace stoned.rubygems

/-! Requirements written as text and read again. -/

/-- A requirement with these constraints. -/
def requirement_of (cs : List (Operator × Dotted)) : Requirement := cs.map fun (op, v) => (op.text, v.text)

def Reginold.Satisfied (R : Reginold) (requirement : Requirement) (version : Text) : Prop :=
  R.satisfied_by requirement version = .ok true

instance (R : Reginold) (requirement : Requirement) (version : Text) : Decidable (R.Satisfied requirement version) :=
  inferInstanceAs (Decidable (R.satisfied_by requirement version = .ok true))

/-- The requirement read from the text of a requirement means the same. -/
def Reginold.RoundTrips (R : Reginold) (requirement : Requirement) : Prop :=
  ∀ version, R.Satisfied (R.requirement_new [requirement.to_s]) version ↔ R.Satisfied requirement version

section text

theorem to_s_cons (c : Text × Text) {later : Requirement} (h : later ≠ []) :
    Requirement.to_s (c :: later) = c.1 ++ bytes_of " " ++ (c.2 ++ (bytes_of ", " ++ Requirement.to_s later)) := by
  rw [Requirement.to_s, List.map_cons, List.intercalate_cons_of_ne_nil (by simpa using h), ← Requirement.to_s]
  simp

theorem to_s_concat (front : Requirement) (c : Text × Text) :
    Requirement.to_s (front ++ [c]) =
      front.flatMap (fun c => c.1 ++ bytes_of " " ++ c.2 ++ bytes_of ", ") ++ (c.1 ++ bytes_of " " ++ c.2) := by
  rw [Requirement.to_s, List.map_append, List.map_singleton, intercalate_concat, List.flatMap_map]

theorem Dotted.mem_text {v : Dotted} {c : UInt8} (h : c ∈ v.text) : c = dot ∨ 0x30 ≤ c.toNat := by
  obtain ⟨front, last, _, htext, hlast, hfront⟩ := v.front_last
  rw [htext, List.mem_append, List.mem_flatMap] at h
  rcases h with ⟨s, hs, h⟩ | h
  · rcases List.mem_append.mp h with h | h
    · exact .inr ((hfront s hs).high c h)
    · exact .inl (by simpa using h)
  · exact .inr (hlast.high c h)

theorem Dotted.dot_mem_text {v : Dotted} : dot ∈ v.text ↔ 2 ≤ v.parts.length := by
  obtain ⟨front, last, hparts, htext, hlast, _⟩ := v.front_last
  rw [htext, hparts, List.mem_append, or_iff_left hlast.no_dot]
  cases front <;> simp

theorem Dotted.text_end (v : Dotted) : v.text.getLast? ≠ some dot := by
  obtain ⟨front, last, _, htext, hlast, _⟩ := v.front_last
  rw [htext, List.getLast?_append_of_ne_nil _ hlast.1]
  exact fun h => hlast.no_dot (List.mem_of_getLast? h)

theorem Operator.text_bytes (op : Operator) : dot ∉ op.text ∧ 0x0a ∉ op.text := by
  cases op <;> decide

theorem dot_mem_to_s {cs : List (Operator × Dotted)} (hcs : cs ≠ []) :
    dot ∈ (requirement_of cs).to_s ↔ ∃ c ∈ cs, 2 ≤ c.2.parts.length := by
  obtain ⟨front, c, rfl⟩ := List.eq_nil_or_concat cs |>.resolve_left hcs
  have hblank : dot ∉ bytes_of " " := by decide
  have hcomma : dot ∉ bytes_of ", " := by decide
  rw [requirement_of, List.concat_eq_append, List.map_append, List.map_singleton, to_s_concat]
  simp [Operator.text_bytes, hblank, hcomma, Dotted.dot_mem_text, or_comm, or_and_right, exists_or]

theorem newline_not_mem_to_s {cs : List (Operator × Dotted)} (hcs : cs ≠ []) :
    0x0a ∉ (requirement_of cs).to_s := by
  obtain ⟨front, c, rfl⟩ := List.eq_nil_or_concat cs |>.resolve_left hcs
  have hblank : (0x0a : UInt8) ∉ bytes_of " " := by decide
  have hcomma : (0x0a : UInt8) ∉ bytes_of ", " := by decide
  have htext (v : Dotted) : 0x0a ∉ v.text := by
    intro h
    rcases v.mem_text h with h | h
    · simp [dot] at h
    · simp at h
  rw [requirement_of, List.concat_eq_append, List.map_append, List.map_singleton, to_s_concat]
  simp [Operator.text_bytes, hblank, hcomma, htext]

theorem to_s_end {cs : List (Operator × Dotted)} (hcs : cs ≠ []) :
    (requirement_of cs).to_s ≠ [] ∧ (requirement_of cs).to_s.getLast? ≠ some dot := by
  obtain ⟨front, c, rfl⟩ := List.eq_nil_or_concat cs |>.resolve_left hcs
  rw [requirement_of, List.concat_eq_append, List.map_append, List.map_singleton, to_s_concat]
  refine ⟨by simp [c.2.text_nonempty], ?_⟩
  rw [← List.append_assoc, List.getLast?_append_of_ne_nil _ c.2.text_nonempty]
  exact c.2.text_end

end text

section reading

variable {R : Reginold}

/-- The one constraint that is read from a text of several: the operator of the
first, and a version in which the last part of the first is followed by the others. -/
theorem Reginold.Documented.read_again (hR : R.Documented) (op : Operator) {v : Dotted} {front : List Text}
    {l : Text} (hparts : v.parts = front ++ [l]) {later : List (Operator × Dotted)} (hlater : later ≠ []) :
    ∃ (whole r : Text) (rs : List Text),
      R.requirement_new [(requirement_of ((op, v) :: later)).to_s] = [(op.text, whole)] ∧
      split_dots whole = front ++ (l ++ 0x2c :: 0x20 :: r) :: rs ∧
      (rs = [] ↔ ∀ c ∈ later, c.2.parts.length < 2) := by
  have hfront : ∀ s ∈ front, Part s := fun s hs => v.parted s (by simp [hparts, hs])
  have hl : Part l := v.parted l (by simp [hparts])
  have htext : v.text = front.flatMap (· ++ [dot]) ++ l := by rw [Dotted.text, hparts, join_dots_concat]
  obtain ⟨hne, hend⟩ := to_s_end hlater
  have hcomma : bytes_of ", " = [0x2c, 0x20] := by decide
  have hdot : dot ∉ l ++ [0x2c, 0x20] := by
    have : dot ∉ ([0x2c, 0x20] : Text) := by decide
    exact fun h => (List.mem_append.mp h).elim hl.no_dot this
  -- what follows the first version has its own first part
  obtain ⟨r, rs, hr⟩ := List.exists_cons_of_ne_nil (List.splitOn_ne_nil dot (requirement_of later).to_s)
  have hsplit : (v.text ++ ([0x2c, 0x20] ++ (requirement_of later).to_s)).splitOn dot =
      front ++ (l ++ 0x2c :: 0x20 :: r) :: rs := by
    rw [htext, List.append_assoc, splitOn_parts fun s hs => (hfront s hs).no_dot, ← List.append_assoc,
      splitOn_append hdot, hr]
    simp
  refine ⟨v.text ++ ([0x2c, 0x20] ++ (requirement_of later).to_s), r, rs, ?_, ?_, ?_⟩
  · obtain ⟨c, cs, hcs⟩ := List.exists_cons_of_ne_nil v.text_nonempty
    have hspace : is_space c = false := by
      rcases v.mem_text (c := c) (by simp [hcs]) with rfl | h
      · decide
      · exact space_bounds h
    have hnewline : (0x0a : UInt8) ∉ c :: (cs ++ ([0x2c, 0x20] ++ (requirement_of later).to_s)) := by
      rw [← List.cons_append, ← hcs]
      intro h
      rcases List.mem_append.mp h with h | h
      · rcases v.mem_text h with h | h
        · simp [dot] at h
        · simp at h
      · rcases List.mem_append.mp h with h | h
        · simp at h
        · exact newline_not_mem_to_s hlater h
    have hread := hR.constraint op c _ hspace hnewline
    rw [Reginold.requirement_new, if_neg (by simp), List.map_singleton]
    rw [show requirement_of ((op, v) :: later) = (op.text, v.text) :: requirement_of later from rfl,
      to_s_cons _ (by simpa [requirement_of] using hlater), hcomma, hcs, List.cons_append, hread]
    rfl
  · rw [split_dots_of_end, hsplit]
    · simp
    · rw [← List.append_assoc, List.getLast?_append_of_ne_nil _ hne]
      exact hend
  · have hiff : rs = [] ↔ dot ∉ (requirement_of later).to_s := by
      constructor
      · rintro rfl hmem
        obtain ⟨a, b, hab⟩ := List.append_of_mem hmem
        rw [hab, List.splitOn_append_cons_self] at hr
        have := congrArg List.length hr
        have ha := List.length_pos_iff.mpr (List.splitOn_ne_nil dot a)
        have hb := List.length_pos_iff.mpr (List.splitOn_ne_nil dot b)
        simp only [List.length_append, List.length_cons, List.length_nil] at this
        omega
      · intro h
        rw [List.splitOn_eq_singleton h] at hr
        exact (List.cons.inj hr).2.symm
    rw [hiff, dot_mem_to_s hlater]
    simp

end reading

section compare

/-- A comparison with two arrays that begin alike and that differs between them
is decided after that beginning. -/
theorem array_cmp_after {w p xs ys : List Segment} {c d : Int} (hx : array_cmp w (p ++ xs) = some c)
    (hy : array_cmp w (p ++ ys) = some d) (hc : 0 ≤ c) (hd : d < 0) :
    ∃ ws, array_cmp ws xs = some c ∧ array_cmp ws ys = some d := by
  induction p generalizing w with
  | nil => exact ⟨w, hx, hy⟩
  | cons x p ih =>
    cases w with
    | nil =>
      obtain rfl : -1 = c := by simpa [array_cmp] using hx
      omega
    | cons w ws =>
      rw [List.cons_append, array_cmp] at hx hy
      cases hcmp : w.cmp x with
      | none => simp [hcmp] at hx
      | some e =>
        simp only [hcmp] at hx hy
        split at hx
        · rw [if_pos ‹_›] at hy
          obtain rfl := (Option.some.inj hx).symm.trans (Option.some.inj hy)
          omega
        · rw [if_neg ‹_›] at hy
          exact ih hx hy

/-- Nothing that follows `l` after a byte below digits and letters counts in a comparison with `t`. -/
def Clear (l t : Text) : Prop :=
  ∀ (c : UInt8) (z : Text), c.toNat < 0x30 → (l ++ c :: z < t ↔ l < t) ∧ (t < l ++ c :: z ↔ ¬l < t)

theorem Part.clear {t : Text} (ht : Part t) (l : Text) : Clear l t :=
  fun _ z hc => ⟨append_low_lt ht.high hc z, lt_append_low ht.high hc z⟩

theorem Part.minus_lt {l : Text} (hl : Part l) (z t : Text) : 0x2d :: t < l ++ z := by
  obtain ⟨c, l, rfl⟩ := List.exists_cons_of_ne_nil hl.1
  have := hl.high c (by simp)
  exact List.cons_lt_cons_iff.mpr (.inl (UInt8.lt_iff_toNat_lt.mpr (Nat.lt_of_lt_of_le (by decide) this)))

theorem Part.clear_minus {l : Text} (hl : Part l) (t : Text) : Clear l (0x2d :: t) := by
  have hlt : ¬l < 0x2d :: t := fun h => List.lt_irrefl _ (List.lt_trans h (by simpa using hl.minus_lt [] t))
  refine fun c z _ => ⟨iff_of_false ?_ hlt, iff_of_true (hl.minus_lt _ t) hlt⟩
  exact fun h => List.lt_irrefl _ (List.lt_trans h (hl.minus_lt _ t))

theorem cmp_clear {l t : Text} (h : Clear l t) {c : UInt8} (hc : c.toNat < 0x30) :
    Segment.cmp (.text (l ++ [c])) (.text t) = some (if l < t then -1 else 1) := by
  obtain ⟨hlt, hgt⟩ := h c [] hc
  rw [Segment.cmp]
  by_cases hless : l < t <;> simp [sign, hlt, hgt, hless]

/-- Two texts that differ in such a byte only compare alike. -/
theorem array_cmp_low {l : Text} {c d : UInt8} (hc : c.toNat < 0x30) (hd : d.toNat < 0x30) (p : List Segment)
    {q : List Segment} (hq : ∀ t, .text t ∈ q → Clear l t) :
    array_cmp (p ++ [.text (l ++ [c])]) q = array_cmp (p ++ [.text (l ++ [d])]) q := by
  induction p generalizing q with
  | nil =>
    cases q with
    | nil => rfl
    | cons y q =>
      cases y with
      | num n => rfl
      | text t =>
        have ht := hq t (by simp)
        rw [List.nil_append, List.nil_append, array_cmp, array_cmp, cmp_clear ht hc, cmp_clear ht hd]
  | cons x p ih =>
    cases q with
    | nil => rfl
    | cons y q =>
      rw [List.cons_append, List.cons_append, array_cmp, array_cmp, ih fun t ht => hq t (by simp [ht])]

end compare

section upper

variable {R : Reginold}

/-- One more is a greater double. -/
def increases (n : Int64) : Bool := (Double.of_int n).less (.of_int (n + 1))

theorem add_to_last_concat (ns : List Int64) (n : Int64) : add_to_last (ns ++ [n]) = ns ++ [n + 1] := by
  induction ns with
  | nil => rfl
  | cons m ns ih =>
    rw [List.cons_append, add_to_last, ih]
    · rfl
    · simp

theorem add_to_last_append (ns ms : List Int64) (hms : ms ≠ []) : add_to_last (ns ++ ms) = ns ++ add_to_last ms := by
  obtain ⟨ms, n, rfl⟩ := List.eq_nil_or_concat ms |>.resolve_left hms
  rw [List.concat_eq_append, ← List.append_assoc, add_to_last_concat, add_to_last_concat, List.append_assoc]

theorem succ_nonneg {n : Int64} (h : 0 ≤ n) (hinc : increases n = true) : 0 ≤ n + 1 := by
  by_cases hmax : n = Int64.maxValue
  · have : increases Int64.maxValue = false := by decide +kernel
    simp [hmax, this] at hinc
  · have hlt : n.toInt < 2 ^ 63 - 1 := by
      have := n.toInt_lt
      have : n.toInt ≠ Int64.maxValue.toInt := fun h => hmax (Int64.toInt_inj.mp h)
      rw [show Int64.maxValue.toInt = 2 ^ 63 - 1 by decide] at this
      omega
    rw [Int64.le_iff_toInt_le] at h ⊢
    rw [Int64.toInt_add, show (1 : Int64).toInt = 1 by decide, Int.bmod_eq_of_le (by simp at h; omega) (by omega)]
    simp at h ⊢
    omega

theorem number_segment_text {n : Int64} {t : Text} (h : number_segment n = .text t) :
    ∃ ds, t = 0x2d :: ds := by
  rw [number_segment] at h
  split at h
  · cases h
  · cases h
    exact ⟨_, by rw [decimal, if_pos (Int64.not_le.mp ‹_›)]; rfl⟩

/-- No version is below the upper bound of a version which it is not below itself,
where a part in front of that version's last one is no number. -/
theorem no_upper_of_text {w vs us : List Segment} {a : Text} {k : Int64} {c d : Int}
    (ha : ∀ t, 0x2d :: t < a) (hv : array_cmp w (.text a :: vs) = some c) (hc : 0 ≤ c)
    (hu : array_cmp w (number_segment k :: us) = some d) (hd : d < 0) : False := by
  cases w with
  | nil =>
    obtain rfl : -1 = c := by simpa [array_cmp] using hv
    omega
  | cons x w =>
    cases x with
    | num n => simp [array_cmp, Segment.cmp] at hv
    | text s =>
      have hs : a ≤ s := by
        intro hlt
        have : -1 = c := by simpa [array_cmp, Segment.cmp, sign, hlt] using hv
        omega
      cases hk : number_segment k with
      | num n => simp [hk, array_cmp, Segment.cmp] at hu
      | text t =>
        obtain ⟨ds, rfl⟩ := number_segment_text hk
        have hlt : 0x2d :: ds < s := by
          by_contra hle
          exact List.le_trans hs (List.not_lt.mp hle) (ha ds)
        have hnot : ¬s < 0x2d :: ds := fun h => List.lt_irrefl _ (List.lt_trans h hlt)
        have : 1 = d := by simpa [hk, array_cmp, Segment.cmp, sign, hlt, hnot] using hu
        omega

/-- The same where the bound is a number that is not greater. -/
theorem no_upper_of_number {w vs : List Segment} {n : Int64} {c d : Int} (hn : increases n = false)
    (hv : array_cmp w (.num n :: vs) = some c) (hc : 0 ≤ c)
    (hu : array_cmp w [number_segment (n + 1)] = some d) (hd : d < 0) : False := by
  cases w with
  | nil =>
    obtain rfl : -1 = c := by simpa [array_cmp] using hv
    omega
  | cons x w =>
    cases x with
    | text s => simp [array_cmp, Segment.cmp] at hv
    | num k =>
      have hle : (Double.of_int (n + 1)).value ≤ (Double.of_int n).value := by
        rw [increases, ← Bool.not_eq_true, less_iff] at hn
        omega
      have hk : ¬(Double.of_int k).less (.of_int n) = true := by
        intro hlt
        have : -1 = c := by simpa [array_cmp, Segment.cmp, sign, hlt] using hv
        omega
      rw [less_iff] at hk
      rw [number_segment] at hu
      split at hu
      · have hnot : (Double.of_int k).less (.of_int (n + 1)) = false := by
          rw [← Bool.not_eq_true, less_iff]
          omega
        rw [array_cmp, Segment.cmp, hnot] at hu
        by_cases hgt : (Double.of_int (n + 1)).less (.of_int k) = true
        · have : 1 = d := by simpa [sign, hgt] using hu
          omega
        · cases w with
          | nil =>
            have : 0 = d := by simpa [sign, hgt, array_cmp] using hu
            omega
          | cons _ _ =>
            have : 1 = d := by simpa [sign, hgt, array_cmp] using hu
            omega
      · simp [array_cmp, Segment.cmp] at hu

theorem pessimistic_iff {version other : Text} :
    R.pessimistic version other = .ok true ↔
      (∃ c, R.version_cmp version other = some c ∧ 0 ≤ c) ∧
        (2 ≤ (split_dots other).length →
          ∃ d, R.version_cmp version (Reginold.upper ((split_dots other).map strtoll)) = some d ∧ d < 0) := by
  rw [Reginold.pessimistic, Reginold.ge, Reginold.lt, List.length_map]
  cases hlower : R.version_cmp version other with
  | none => simp [compared, bind, Except.bind]
  | some c =>
    by_cases hc : 0 ≤ c
    · cases hupper : R.version_cmp version (Reginold.upper ((split_dots other).map strtoll)) with
      | none => by_cases h : 2 ≤ (split_dots other).length <;> simp [compared, bind, Except.bind, hc, h]
      | some d => by_cases h : 2 ≤ (split_dots other).length <;> simp [compared, bind, Except.bind, hc, h]
    · by_cases h : 2 ≤ (split_dots other).length <;> simp [compared, bind, Except.bind, hc, h]

theorem Reginold.Documented.map_numbers (hR : R.Documented) {parts : List Text}
    (h : ∀ s ∈ parts, R.all_digits s = true) :
    parts.map R.segment = (parts.map strtoll).map number_segment := by
  rw [List.map_map]
  refine List.map_congr_left fun s hs => ?_
  obtain ⟨hsegment, hnonneg⟩ := hR.segment_number (h s hs)
  rw [hsegment, Function.comp_apply, number_segment, if_pos hnonneg]

theorem exists_add_to_last (n : Int64) (ns : List Int64) :
    ∃ k ks, add_to_last (n :: ns) = k :: ks ∧ (ns = [] → k = n + 1 ∧ ks = []) := by
  cases ns with
  | nil => exact ⟨n + 1, [], rfl, fun _ => ⟨rfl, rfl⟩⟩
  | cons m ns => exact ⟨n, add_to_last (m :: ns), rfl, fun h => nomatch h⟩

/-- Nothing satisfies `~>` with a version that has a part which is no number before
its last, or whose last part but one is a number that one more does not make greater. -/
theorem Reginold.Documented.not_pessimistic (hR : R.Documented) {whole a last : Text} {before after : List Text}
    (hsplit : split_dots whole = before ++ a :: (after ++ [last])) (hbefore : ∀ s ∈ before, R.all_digits s = true)
    (ha : (R.all_digits a = false ∧ ∀ t, 0x2d :: t < a) ∨
      (R.all_digits a = true ∧ after = [] ∧ increases (strtoll a) = false)) (version : Text) :
    R.pessimistic version whole ≠ .ok true := by
  rw [Ne, pessimistic_iff, hsplit]
  rintro ⟨⟨c, hlower, hc⟩, hupper⟩
  obtain ⟨d, hupper, hd⟩ := hupper (by simp; omega)
  obtain ⟨k, ks, hadd, hlast⟩ := exists_add_to_last (strtoll a) (after.map strtoll)
  have hsegs : add_to_last ((before ++ a :: (after ++ [last])).map strtoll).dropLast =
      before.map strtoll ++ k :: ks := by
    rw [← hadd, ← add_to_last_append _ _ (by simp), ← List.cons_append, ← List.append_assoc, List.map_append,
      List.map_singleton, List.dropLast_concat, List.map_append, List.map_cons]
  rw [Reginold.version_cmp, Reginold.upper, hsegs, hR.segments_numbers (by simp), List.map_append,
    ← hR.map_numbers hbefore, List.map_cons] at hupper
  rw [Reginold.version_cmp, R.segments_eq whole, hsplit, List.map_append, List.map_cons] at hlower
  obtain ⟨ws, hv, hu⟩ := array_cmp_after hlower hupper hc hd
  rcases ha with ⟨htext, hhigh⟩ | ⟨hdigits, rfl, hinc⟩
  · rw [Reginold.segment, if_neg (by simp [htext])] at hv
    exact no_upper_of_text hhigh hv hc hu hd
  · obtain ⟨rfl, rfl⟩ := hlast rfl
    rw [(hR.segment_number hdigits).1] at hv
    exact no_upper_of_number hinc hv hc hu hd

end upper

section probes

variable {R : Reginold} {l : Text}

theorem Reginold.Documented.segments_low (hR : R.Documented) {front : List Text} (hfront : ∀ s ∈ front, Part s)
    (hl : Part l) {c : UInt8} (hdot : c ≠ dot) (hc : is_digit c = false) :
    R.segments (join_dots (front ++ [l ++ [c]])) = front.map R.segment ++ [.text (l ++ [c])] := by
  rw [Reginold.segments_eq, split_join (by simp), List.map_append, List.map_singleton,
    hR.segment_text (c := c) (by simp) hc]
  intro s hs
  rcases List.mem_append.mp hs with hs | hs
  · exact ⟨(hfront s hs).1, (hfront s hs).no_dot⟩
  · obtain rfl := List.mem_singleton.mp hs
    exact ⟨by simp, by simpa [hdot.symm] using hl.no_dot⟩

/-- Two versions compare alike with all versions whose texts are clear of `l`. -/
def Reginold.Alike (R : Reginold) (l version other : Text) : Prop :=
  ∀ v, (∀ t, .text t ∈ R.segments v → Clear l t) → R.version_cmp version v = R.version_cmp other v

theorem Dotted.segments_clear (v : Dotted) {t : Text} (h : .text t ∈ R.segments v.text) : Clear l t := by
  rw [R.segments_eq, v.split_text] at h
  obtain ⟨s, hs, hst⟩ := List.mem_map.mp h
  rw [Reginold.segment] at hst
  split at hst
  · cases hst
  · cases hst
    exact (v.parted _ hs).clear l

theorem Reginold.Documented.upper_clear (hR : R.Documented) (hl : Part l) {ns : List Int64}
    (hns : add_to_last ns.dropLast ≠ []) {t : Text} (h : .text t ∈ R.segments (Reginold.upper ns)) : Clear l t := by
  rw [Reginold.upper, hR.segments_numbers hns] at h
  obtain ⟨n, _, hn⟩ := List.mem_map.mp h
  obtain ⟨ds, rfl⟩ := number_segment_text hn
  exact hl.clear_minus ds

theorem Reginold.Documented.satisfied_alike (hR : R.Documented) (hl : Part l) {version other : Text}
    (h : R.Alike l version other) (cs : List (Operator × Dotted)) :
    R.satisfied_by (requirement_of cs) version = R.satisfied_by (requirement_of cs) other := by
  have hone (op : Operator) (v : Dotted) :
      R.constraint_satisfied version (op.text, v.text) = R.constraint_satisfied other (op.text, v.text) := by
    have hcmp := h v.text fun t => v.segments_clear
    have hpessimistic : R.pessimistic version v.text = R.pessimistic other v.text := by
      rw [Reginold.pessimistic, Reginold.pessimistic, Reginold.ge, Reginold.ge, hcmp, v.split_text]
      by_cases hlength : 2 ≤ (v.parts.map strtoll).length
      · have hns : add_to_last (v.parts.map strtoll).dropLast ≠ [] := by
          obtain ⟨n, m, ns, hns⟩ : ∃ n m ns, v.parts.map strtoll = n :: m :: ns := by
            rcases hns : v.parts.map strtoll with _ | ⟨n, _ | ⟨m, ns⟩⟩ <;> simp_all
          obtain ⟨k, ks, hadd, _⟩ := exists_add_to_last n (m :: ns).dropLast
          rw [hns, List.dropLast_cons_cons, hadd]
          simp
        rw [Reginold.lt, Reginold.lt, h _ fun t => hR.upper_clear hl hns]
      · rw [if_neg hlength, if_neg hlength]
    simp only [Reginold.constraint_satisfied, Reginold.gt, Reginold.lt, Reginold.ge, Reginold.le, hcmp, hpessimistic]
  rw [Reginold.satisfied_by, Reginold.satisfied_by]
  induction cs with
  | nil => rfl
  | cons c cs ih =>
    rw [requirement_of, List.map_cons, all_each, all_each, hone, ← requirement_of, ih]

theorem append_lt_append {c d : UInt8} (h : c < d) (l y z : Text) : l ++ c :: y < l ++ d :: z := by
  induction l with
  | nil => exact List.cons_lt_cons_iff.mpr (.inl h)
  | cons a l ih => exact List.cons_lt_cons_iff.mpr (.inr ⟨rfl, ih⟩)

theorem cmp_append {c d : UInt8} (h : c < d) (l y z : Text) :
    Segment.cmp (.text (l ++ c :: y)) (.text (l ++ d :: z)) = some (-1) ∧
      Segment.cmp (.text (l ++ d :: z)) (.text (l ++ c :: y)) = some 1 := by
  have hlt := append_lt_append h l y z
  have hnot : ¬l ++ d :: z < l ++ c :: y := fun hgt => List.lt_irrefl _ (List.lt_trans hlt hgt)
  simp [Segment.cmp, sign, hlt, hnot]

end probes

section law

variable {R : Reginold}

/-- The text of several constraints that begins with `~> v` is read with an upper bound
below it, or with none that compares with it. -/
def NoUpper (v : Dotted) (later : List (Operator × Dotted)) : Prop :=
  (∃ c ∈ later, 2 ≤ c.2.parts.length) ∨ (∃ s ∈ v.parts.dropLast, ∃ c ∈ s, is_digit c = false) ∨
    ∃ s, v.parts.dropLast.getLast? = some s ∧ increases (strtoll s) = false

/-- A version as it is read in front of more constraints. -/
structure ReadOn (front : List Text) (l z : Text) (rs : List Text) (whole : Text) : Prop where
  front_parts : ∀ s ∈ front, Part s
  last_part : Part l
  split : split_dots whole = front ++ (l ++ 0x2c :: z) :: rs

variable {front rs : List Text} {l z whole : Text}

def low (front : List Text) (l : Text) : Text := join_dots (front ++ [l ++ [0x2b]])
def high (front : List Text) (l : Text) : Text := join_dots (front ++ [l ++ [0x2d]])

theorem Reginold.Documented.segments_whole (hR : R.Documented) (h : ReadOn front l z rs whole) :
    R.segments whole = front.map R.segment ++ .text (l ++ 0x2c :: z) :: rs.map R.segment := by
  rw [R.segments_eq, h.split, List.map_append, List.map_cons, hR.segment_text (c := 0x2c) (by simp) (by decide)]

theorem Reginold.Documented.low_whole (hR : R.Documented) (h : ReadOn front l z rs whole) :
    R.version_cmp (low front l) whole = some (-1) := by
  rw [Reginold.version_cmp, low, hR.segments_low h.front_parts h.last_part (by decide) (by decide), hR.segments_whole h,
    array_cmp_append, array_cmp, (cmp_append (by decide) l [] z).1]
  rfl

theorem Reginold.Documented.high_whole (hR : R.Documented) (h : ReadOn front l z rs whole) :
    R.version_cmp (high front l) whole = some 1 := by
  rw [Reginold.version_cmp, high, hR.segments_low h.front_parts h.last_part (by decide) (by decide), hR.segments_whole h,
    array_cmp_append, array_cmp, (cmp_append (by decide) l z []).2]
  rfl

theorem Reginold.Documented.low_high_alike (hR : R.Documented) (hfront : ∀ s ∈ front, Part s) (hl : Part l) :
    R.Alike l (low front l) (high front l) := by
  intro v hv
  rw [Reginold.version_cmp, Reginold.version_cmp, low, high, hR.segments_low hfront hl (by decide) (by decide),
    hR.segments_low hfront hl (by decide) (by decide)]
  exact array_cmp_low (by decide) (by decide) _ hv

/-- The version as read is not equal to the version as written. -/
theorem Reginold.Documented.whole_ne (hR : R.Documented) (h : ReadOn front l z rs whole) {v : Dotted}
    (hparts : v.parts = front ++ [l]) :
    R.version_cmp whole v.text ≠ some 0 ∧ R.version_cmp v.text whole ≠ some 0 := by
  rw [Reginold.version_cmp, Reginold.version_cmp, hR.segments_whole h, R.segments_eq v.text, v.split_text, hparts,
    List.map_append, array_cmp_append, array_cmp_append, List.map_singleton]
  by_cases hl : R.all_digits l = true
  · rw [Reginold.segment, if_pos hl]
    constructor <;> rintro ⟨⟩
  · rw [Reginold.segment, if_neg hl, array_cmp, array_cmp]
    have hlt : l < l ++ 0x2c :: z :=
      (lt_append_low (l := l) (t := l) h.last_part.high (c := 0x2c) (by decide) z).mpr (List.lt_irrefl _)
    have hnot : ¬l ++ 0x2c :: z < l := fun hgt => List.lt_irrefl _ (List.lt_trans hlt hgt)
    simp [Segment.cmp, sign, hlt, hnot]

theorem Reginold.Documented.no_upper (hR : R.Documented) (h : ReadOn front l z rs whole) {v : Dotted}
    (hparts : v.parts = front ++ [l]) {later : List (Operator × Dotted)}
    (hrs : rs = [] ↔ ∀ c ∈ later, c.2.parts.length < 2) (hno : NoUpper v later) (version : Text) :
    R.pessimistic version whole ≠ .ok true := by
  have hdrop : v.parts.dropLast = front := by rw [hparts, List.dropLast_concat]
  rw [NoUpper, hdrop] at hno
  by_cases hfront : ∀ s ∈ front, R.all_digits s = true
  · rcases rs.eq_nil_or_concat with rfl | ⟨rs, last, rfl⟩
    · have hlater := hrs.mp rfl
      rcases hno with ⟨c, hc, hlength⟩ | ⟨s, hs, c, hc, hdigit⟩ | ⟨s, hs, hinc⟩
      · exact absurd (hlater c hc) (by omega)
      · have := ((hR.all_digits s).mp (hfront s hs)).2 c hc
        simp [hdigit] at this
      · obtain ⟨before, rfl⟩ := List.getLast?_eq_some_iff.mp hs
        have hbefore : ∀ t ∈ before, R.all_digits t = true := fun t ht => hfront t (by simp [ht])
        have hsplit : split_dots whole = before ++ s :: ([] ++ [l ++ 0x2c :: z]) := by
          rw [h.split]
          simp
        exact hR.not_pessimistic hsplit hbefore (.inr ⟨hfront s (by simp), rfl, hinc⟩) version
    · have hsplit : split_dots whole = front ++ (l ++ 0x2c :: z) :: (rs ++ [last]) := by
        rw [h.split, List.concat_eq_append]
      have hnumber : R.all_digits (l ++ 0x2c :: z) = false := by
        rw [← Bool.not_eq_true, hR.all_digits]
        rintro ⟨_, hdigits⟩
        exact absurd (hdigits 0x2c (by simp)) (by decide)
      exact hR.not_pessimistic hsplit hfront (.inl ⟨hnumber, h.last_part.minus_lt _⟩) version
  · -- the first part that is no number is what counts
    obtain ⟨a, rest, hrest⟩ : ∃ a rest, front.dropWhile R.all_digits = a :: rest := by
      apply List.exists_cons_of_ne_nil
      rwa [Ne, List.dropWhile_eq_nil_iff]
    have hfront : front.takeWhile R.all_digits ++ a :: rest = front := by
      rw [← hrest, List.takeWhile_append_dropWhile]
    have ha : Part a := h.front_parts a (by rw [← hfront]; simp)
    have hlast := List.dropLast_append_getLast (l := rest ++ (l ++ 0x2c :: z) :: rs) (by simp)
    have hnumber : R.all_digits a = false := by
      have := List.head?_dropWhile_not R.all_digits front
      simpa [hrest] using this
    have hsplit : split_dots whole = front.takeWhile R.all_digits ++
        a :: ((rest ++ (l ++ 0x2c :: z) :: rs).dropLast ++ [(rest ++ (l ++ 0x2c :: z) :: rs).getLast (by simp)]) := by
      rw [hlast, h.split, ← List.cons_append, ← List.append_assoc, hfront]
    exact hR.not_pessimistic hsplit (fun s hs => List.mem_takeWhile_imp hs)
      (.inl ⟨hnumber, fun t => by simpa using ha.minus_lt [] t⟩) version

/-- A version that is satisfied where there is an upper bound. -/
theorem Reginold.Documented.high_pessimistic (hR : R.Documented) (h : ReadOn front l z rs whole) {v : Dotted}
    (hparts : v.parts = front ++ [l]) {later : List (Operator × Dotted)}
    (hrs : rs = [] ↔ ∀ c ∈ later, c.2.parts.length < 2) (hno : ¬NoUpper v later) :
    R.pessimistic (high front l) whole = .ok true := by
  have hdrop : v.parts.dropLast = front := by rw [hparts, List.dropLast_concat]
  rw [NoUpper, hdrop, not_or, not_or] at hno
  obtain ⟨hlater, htext, hlast⟩ := hno
  obtain rfl : rs = [] := hrs.mpr fun c hc => by
    by_contra hlength
    exact hlater ⟨c, hc, by omega⟩
  have hdigits : ∀ s ∈ front, R.all_digits s = true := fun s hs => (hR.all_digits s).mpr
    ⟨(h.front_parts s hs).1, fun c hc => by
      by_contra hdigit
      exact htext ⟨s, hs, c, hc, by simpa using hdigit⟩⟩
  rw [pessimistic_iff]
  refine ⟨⟨1, hR.high_whole h, by decide⟩, fun hlength => ⟨-1, ?_, by decide⟩⟩
  rcases front.eq_nil_or_concat with rfl | ⟨before, s, rfl⟩
  · rw [h.split] at hlength
    simp at hlength
  · rw [List.concat_eq_append] at *
    have hinc : increases (strtoll s) = true := by
      by_contra hinc
      exact hlast ⟨s, by simp, by simpa using hinc⟩
    obtain ⟨hsegment, hnonneg⟩ := hR.segment_number (hdigits s (by simp))
    have hsegs : add_to_last ((before ++ [s] ++ [l ++ 0x2c :: z]).map strtoll).dropLast =
        before.map strtoll ++ [strtoll s + 1] := by
      rw [List.map_append, List.map_singleton, List.dropLast_concat, List.map_append, List.map_singleton,
        add_to_last_concat]
    rw [Reginold.version_cmp, high, hR.segments_low h.front_parts h.last_part (by decide) (by decide), h.split,
      Reginold.upper, hsegs, hR.segments_numbers (by simp), List.map_append, List.map_append, List.map_singleton,
      hR.map_numbers fun t ht => hdigits t (by simp [ht]), List.append_assoc, array_cmp_append, hsegment,
      List.map_singleton, number_segment, if_pos (succ_nonneg hnonneg hinc), List.singleton_append, array_cmp,
      Segment.cmp, sign]
    rw [increases] at hinc
    simp [hinc]

theorem Operator.text_inj {op op' : Operator} : op.text = op'.text ↔ op = op' := by
  cases op <;> cases op' <;> decide

theorem satisfied_cons {c : Text × Text} {cs : Requirement} {version : Text} :
    R.Satisfied (c :: cs) version ↔ R.constraint_satisfied version c = .ok true ∧ R.Satisfied cs version := by
  rw [Reginold.Satisfied, Reginold.Satisfied, Reginold.satisfied_by, Reginold.satisfied_by, all_each]
  rcases R.constraint_satisfied version c with _ | _ | _ <;> simp [bind, Except.bind]

theorem satisfied_singleton {c : Text × Text} {version : Text} :
    R.Satisfied [c] version ↔ R.constraint_satisfied version c = .ok true := by
  rw [satisfied_cons, and_iff_left]
  rfl

/-- An order comparison does not treat a version that is lower like one that is higher. -/
theorem Reginold.Documented.order_separates (hR : R.Documented) (h : ReadOn front l z rs whole) {op : Operator}
    (hop : op = .gt ∨ op = .lt ∨ op = .ge ∨ op = .le) :
    ¬(R.constraint_satisfied (low front l) (op.text, whole) = .ok true ↔
      R.constraint_satisfied (high front l) (op.text, whole) = .ok true) := by
  have hlow := hR.low_whole h
  have hhigh := hR.high_whole h
  rcases hop with rfl | rfl | rfl | rfl <;>
    simp [Reginold.constraint_satisfied, Operator.text_inj, Reginold.gt, Reginold.lt, Reginold.ge, Reginold.le,
      compared, hlow, hhigh]

/-- One constraint is read back as it is. -/
theorem Reginold.Documented.read_one (hR : R.Documented) (op : Operator) (v : Dotted) :
    R.requirement_new [(requirement_of [(op, v)]).to_s] = requirement_of [(op, v)] := by
  obtain ⟨c, cs, hcs⟩ := List.exists_cons_of_ne_nil v.text_nonempty
  have hmem (d : UInt8) (hd : d ∈ c :: cs) : d = dot ∨ 0x30 ≤ d.toNat := v.mem_text (by rwa [hcs])
  have hspace : is_space c = false := by
    rcases hmem c (by simp) with rfl | h
    · decide
    · exact space_bounds h
  have hnewline : (0x0a : UInt8) ∉ c :: cs := fun h => by
    rcases hmem _ h with h | h
    · simp [dot] at h
    · simp at h
  have hread := hR.constraint op c cs hspace hnewline
  have htext : (requirement_of [(op, v)]).to_s = op.text ++ bytes_of " " ++ v.text := by
    simp [requirement_of, Requirement.to_s]
  rw [htext, Reginold.requirement_new, if_neg (by simp), List.map_singleton, hcs, hread]
  simp [requirement_of, hcs]

end law

end stoned.rubygems
