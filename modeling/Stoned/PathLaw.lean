import Stoned.Require
import Stoned.Program.Rewriting

namespace stoned.loading

open program

/-! What normalize_path makes of a path (eval_support.c). -/

abbrev Segment : Type := List Char

/-- The segments the array of normalize_path has room for. -/
def MAX_SEGMENTS : Nat := 256

def is_absolute (path : List Char) : Bool := path.head? = some '/'

/-- All that stands between slashes, also where that is nothing. -/
def path_segments (path : List Char) : List Segment := path.splitOn '/'

/-- One more segment, where there is room. -/
def push_within (abs : Bool) (segments : List Segment) (part : Segment) : Option (List Segment) :=
  let segments' := push_segment abs segments part
  if segments'.length ≤ MAX_SEGMENTS then some segments' else none

/-- The text of a path without its useless segments. -/
def join_segments (abs : Bool) (segments : List Segment) : List Char :=
  let joined := ['/'].intercalate segments
  if abs then '/' :: joined else if segments = [] then ['.'] else joined

/-- normalize_path, which is undefined where its array overflows. -/
def normalize_within (path : List Char) : Option String :=
  let abs := is_absolute path
  (((path_segments path).filter (· ≠ [])).foldlM (push_within abs) []).map fun segments =>
    String.ofList (join_segments abs segments.reverse)

def dot : Segment := ['.']
def dot_dot : Segment := ['.', '.']

/-- A name of a file or a directory. -/
def Ordinary (s : Segment) : Prop := s ≠ [] ∧ s ≠ dot ∧ s ≠ dot_dot

/-- The lexical rules of paths. -/
inductive Simplifies (abs : Bool) : List Segment → List Segment → Prop
  | empty (front back) : Simplifies abs (front ++ [] :: back) (front ++ back)
  | dot (front back) : Simplifies abs (front ++ dot :: back) (front ++ back)
  | parent (front back) {s} (hs : Ordinary s) : Simplifies abs (front ++ s :: dot_dot :: back) (front ++ back)
  | root (back) (habs : abs = true) : Simplifies abs (dot_dot :: back) back

/-- Paths that lead to the same place, as far as their texts tell. -/
def SameResolution (abs : Bool) (p q : List Segment) : Prop :=
  ∃ n, Resolves (Simplifies abs) p n ∧ Resolves (Simplifies abs) q n

/-- The segments behind all steps of the loop. -/
def resolve (abs : Bool) (segments : List Segment) : List Segment :=
  ((segments.filter (· ≠ [])).foldl (push_segment abs) []).reverse

/-- No segment is empty or `.`, and `..` stands only at the front of a relative
path. -/
structure Tidy (abs : Bool) (segments : List Segment) : Prop where
  named : ∀ s ∈ segments, s ≠ [] ∧ s ≠ dot
  leading : segments.IsChain fun s t => t = dot_dot → s = dot_dot
  root : abs = true → dot_dot ∉ segments

theorem normalize_path_eq (path : List Char) :
    normalize_path path = String.ofList (join_segments (is_absolute path) (resolve (is_absolute path) (path_segments path))) := by
  unfold normalize_path join_segments resolve path_segments
  by_cases habs : is_absolute path = true
  · have habs' : path.head? = some '/' := of_decide_eq_true habs
    simp [habs, habs']
  · have habs' : ¬ path.head? = some '/' := fun h => habs (decide_eq_true h)
    simp [habs, habs']

section
variable {abs : Bool}

@[simp] theorem push_dot (st : List Segment) : push_segment abs st dot = st := rfl

theorem push_ordinary {s : Segment} (hs : Ordinary s) (st : List Segment) : push_segment abs st s = s :: st := by
  have hdot : s ≠ ['.'] := hs.2.1
  have hparent : s ≠ ['.', '.'] := hs.2.2
  simp [push_segment, hdot, hparent]

theorem push_parent {s : Segment} (hs : Ordinary s) (st : List Segment) :
    push_segment abs (s :: st) dot_dot = st := by
  have : s ≠ ['.', '.'] := hs.2.2
  simp [push_segment, dot_dot, this]

/-- A stack that leads to a tidy path. -/
def Stacked (abs : Bool) (st : List Segment) : Prop := Tidy abs st.reverse

theorem Stacked.tail {s : Segment} {st : List Segment} (h : Stacked abs (s :: st)) : Stacked abs st := by
  unfold Stacked at h ⊢
  rw [List.reverse_cons] at h
  refine ⟨fun t ht => h.named t (List.mem_append_left _ ht), ?_, fun habs ht => h.root habs (List.mem_append_left _ ht)⟩
  exact (List.isChain_append.mp h.leading).1

theorem Stacked.cons {s : Segment} {st : List Segment} (h : Stacked abs st) (hs : s ≠ [] ∧ s ≠ dot)
    (hparent : s = dot_dot → abs = false ∧ ∀ t ∈ st.head?, t = dot_dot) : Stacked abs (s :: st) := by
  unfold Stacked at h ⊢
  rw [List.reverse_cons]
  refine ⟨?_, ?_, ?_⟩
  · intro t ht
    rcases List.mem_append.mp ht with ht | ht
    · exact h.named t ht
    · rw [List.mem_singleton.mp ht]
      exact hs
  · rw [List.isChain_append]
    refine ⟨h.leading, by simp, ?_⟩
    intro t ht u hu heq
    rw [List.getLast?_reverse] at ht
    have hu : u = s := by simpa using hu.symm
    exact (hparent (hu.symm.trans heq)).2 t ht
  · intro habs ht
    rcases List.mem_append.mp ht with ht | ht
    · exact h.root habs ht
    · have hfalse := (hparent (List.mem_singleton.mp ht).symm).1
      rw [habs] at hfalse
      cases hfalse

/-- Where a stack stands, one more segment leads to the rest of it by the rules. -/
theorem push_segment_spec {st : List Segment} (h : Stacked abs st) {part : Segment} (hpart : part ≠ []) :
    Stacked abs (push_segment abs st part) ∧
      ∀ back, Relation.ReflTransGen (Simplifies abs) (st.reverse ++ part :: back)
        ((push_segment abs st part).reverse ++ back) := by
  by_cases hdot : part = dot
  · subst hdot
    exact ⟨h, fun back => .single (.dot _ _)⟩
  · by_cases hparent : part = dot_dot
    · subst hparent
      cases st with
      | nil =>
        cases abs with
        | false => exact ⟨h.cons ⟨nofun, hdot⟩ (fun _ => ⟨rfl, nofun⟩), fun back => .refl⟩
        | true => exact ⟨h, fun back => .single (.root _ rfl)⟩
      | cons last rest =>
        have hlast : last ∈ (last :: rest).reverse := by simp
        by_cases hup : last = dot_dot
        · subst hup
          cases abs with
          | false =>
            refine ⟨h.cons ⟨nofun, hdot⟩ (fun _ => ⟨rfl, by simp⟩), fun back => ?_⟩
            have hpush : push_segment false (dot_dot :: rest) dot_dot = dot_dot :: dot_dot :: rest := rfl
            rw [hpush, @List.reverse_cons _ _ (dot_dot :: rest), List.append_assoc]
            exact .refl
          | true => exact absurd hlast (h.root rfl)
        · have hs : Ordinary last := ⟨(h.named last hlast).1, (h.named last hlast).2, hup⟩
          rw [push_parent hs]
          refine ⟨h.tail, fun back => ?_⟩
          rw [List.reverse_cons, List.append_assoc]
          exact .single (.parent _ _ hs)
    · have hs : Ordinary part := ⟨hpart, hdot, hparent⟩
      rw [push_ordinary hs]
      refine ⟨h.cons ⟨hpart, hdot⟩ (fun heq => absurd heq hparent), fun back => ?_⟩
      rw [List.reverse_cons, List.append_assoc]
      exact .refl

/-- The loop from a stack on. -/
theorem resolve_from {st : List Segment} (h : Stacked abs st) (segments : List Segment) :
    Stacked abs ((segments.filter (· ≠ [])).foldl (push_segment abs) st) ∧
      Relation.ReflTransGen (Simplifies abs) (st.reverse ++ segments)
        ((segments.filter (· ≠ [])).foldl (push_segment abs) st).reverse := by
  induction segments generalizing st with
  | nil => exact ⟨h, by rw [List.append_nil]; exact .refl⟩
  | cons part rest ih =>
    by_cases hpart : part = []
    · subst hpart
      obtain ⟨hstacked, hsteps⟩ := ih h
      exact ⟨hstacked, .head (.empty _ _) hsteps⟩
    · obtain ⟨hpush, hstep⟩ := push_segment_spec h hpart
      obtain ⟨hstacked, hsteps⟩ := ih hpush
      rw [List.filter_cons_of_pos (by simpa using hpart)]
      exact ⟨hstacked, (hstep rest).trans hsteps⟩

theorem stacked_nil : Stacked abs [] := ⟨nofun, .nil, nofun⟩

theorem resolve_tidy (segments : List Segment) : Tidy abs (resolve abs segments) :=
  (resolve_from stacked_nil segments).1

theorem Tidy.normal {segments : List Segment} (h : Tidy abs segments) : Normal (Simplifies abs) segments := by
  intro other hstep
  cases hstep with
  | empty front back => exact (h.named [] (by simp)).1 rfl
  | dot front back => exact (h.named dot (by simp)).2 rfl
  | parent front back hs =>
    obtain ⟨-, hchain, -⟩ := List.isChain_append.mp h.leading
    exact hs.2.2 ((List.isChain_cons_cons.mp hchain).1 rfl)
  | root back habs => exact h.root habs (by simp)

/-- A rule changes nothing that the loop comes to. -/
theorem resolve_step {p q : List Segment} (h : Simplifies abs p q) : resolve abs p = resolve abs q := by
  unfold resolve
  cases h with
  | empty front back => simp
  | dot front back =>
    have hdot : dot ≠ [] := nofun
    simp [hdot]
  | parent front back hs =>
    have hparent : dot_dot ≠ [] := nofun
    simp [hparent, hs.1, push_ordinary hs, push_parent hs]
  | root back habs =>
    subst habs
    have hparent : dot_dot ≠ [] := nofun
    have hpush : push_segment true [] dot_dot = [] := rfl
    simp [hparent, hpush]

/-- The loop computes the normal forms of the rules. -/
theorem resolve_normalizes : Normalizes (Simplifies abs) (resolve abs) where
  invariant := resolve_step
  reaches := fun segments => (resolve_from stacked_nil segments).2
  normal := fun segments => (resolve_tidy segments).normal

theorem Tidy.resolve {segments : List Segment} (h : Tidy abs segments) : resolve abs segments = segments :=
  h.normal.eq_of_steps (resolve_normalizes.reaches segments)

theorem Simplifies.mem {p q : List Segment} (h : Simplifies abs p q) {s : Segment} (hs : s ∈ q) : s ∈ p := by
  cases h <;> grind

/-- No segment is made up. -/
theorem mem_of_mem_resolve {segments : List Segment} {s : Segment} (hs : s ∈ resolve abs segments) : s ∈ segments := by
  have hkeep : ∀ q, Relation.ReflTransGen (Simplifies abs) segments q → s ∈ q → s ∈ segments := by
    intro q hsteps
    induction hsteps with
    | refl => exact id
    | tail _ hstep ih => exact fun hq => ih (hstep.mem hq)
  exact hkeep _ (resolve_normalizes.reaches segments) hs

theorem slash_free {path : List Char} {s : Segment} (hs : s ∈ path_segments path) : '/' ∉ s := by
  unfold path_segments at hs
  induction path generalizing s with
  | nil =>
    rw [List.splitOn_nil, List.mem_singleton] at hs
    rw [hs]
    exact List.not_mem_nil
  | cons c rest ih =>
    rw [List.splitOn_cons_eq_if_modifyHead] at hs
    split at hs
    · rcases List.mem_cons.mp hs with rfl | hs
      · exact List.not_mem_nil
      · exact ih hs
    · rename_i hslash
      obtain ⟨first, others, heq⟩ := List.exists_cons_of_ne_nil (List.splitOn_ne_nil '/' rest)
      rw [heq, List.modifyHead_cons] at hs
      rcases List.mem_cons.mp hs with rfl | hs
      · have hfirst : '/' ∉ first := ih (heq ▸ List.mem_cons_self)
        have hne : '/' ≠ c := by
          rintro rfl
          exact hslash (by simp)
        simp [hfirst, hne]
      · exact ih (heq ▸ List.mem_cons_of_mem _ hs)

/-- The text of tidy segments is as absolute as they are. -/
theorem is_absolute_join {segments : List Segment} (h : Tidy abs segments) (hslash : ∀ s ∈ segments, '/' ∉ s) :
    is_absolute (join_segments abs segments) = abs := by
  cases abs with
  | true => rfl
  | false =>
    cases segments with
    | nil => rfl
    | cons s rest =>
      obtain ⟨c, s, rfl⟩ := List.exists_cons_of_ne_nil (h.named s (by simp)).1
      have hc : c ≠ '/' := by
        rintro rfl
        exact hslash ('/' :: s) List.mem_cons_self List.mem_cons_self
      have hhead : (['/'].intercalate ((c :: s) :: rest)).head? = some c := by
        cases rest with
        | nil => rw [List.intercalate_singleton, List.head?_cons]
        | cons t rest => rw [List.intercalate_cons_cons, List.cons_append, List.cons_append, List.head?_cons]
      have htext : join_segments false ((c :: s) :: rest) = ['/'].intercalate ((c :: s) :: rest) := rfl
      rw [is_absolute, htext, hhead]
      exact decide_eq_false fun heq => hc (Option.some.inj heq)

/-- The parts the loop finds in the text of tidy segments. -/
theorem join_parts {segments : List Segment} (h : Tidy abs segments) (hslash : ∀ s ∈ segments, '/' ∉ s) :
    (path_segments (join_segments abs segments)).filter (· ≠ []) =
      if abs = false ∧ segments = [] then [dot] else segments := by
  have hsplit (hne : segments ≠ []) : (['/'].intercalate segments).splitOn '/' = segments :=
    List.splitOn_intercalate '/' hslash hne
  have hnamed : segments.filter (· ≠ []) = segments :=
    List.filter_eq_self.mpr fun s hs => by simpa using (h.named s hs).1
  cases abs with
  | true =>
    have hcons : path_segments (join_segments true segments) = [] :: (['/'].intercalate segments).splitOn '/' :=
      (List.splitOn_cons_eq_if_modifyHead _ _).trans (if_pos (by simp))
    rw [hcons, List.filter_cons_of_neg (by simp), if_neg (by simp)]
    by_cases hne : segments = []
    · subst hne
      rfl
    · rw [hsplit hne, hnamed]
  | false =>
    by_cases hne : segments = []
    · subst hne
      rfl
    · have htext : join_segments false segments = ['/'].intercalate segments := by simp [join_segments, hne]
      rw [path_segments, htext, hsplit hne, hnamed, if_neg fun hand => hne hand.2]

/-- The text tells the segments. -/
theorem resolve_join {segments : List Segment} (h : Tidy abs segments) (hslash : ∀ s ∈ segments, '/' ∉ s) :
    resolve abs (path_segments (join_segments abs segments)) = segments := by
  have hnamed : segments.filter (· ≠ []) = segments :=
    List.filter_eq_self.mpr fun s hs => by simpa using (h.named s hs).1
  have hagain := h.resolve
  unfold loading.resolve at hagain ⊢
  rw [hnamed] at hagain
  rw [join_parts h hslash]
  split
  · rename_i hnone
    rw [hnone.2]
    rfl
  · exact hagain

theorem push_segment_length (st : List Segment) (part : Segment) :
    (push_segment abs st part).length ≤ st.length + 1 := by
  unfold push_segment
  split
  · omega
  · split
    · split
      · split
        · simp only [List.length_cons]
          omega
        · split <;> simp
      · split <;> simp
    · simp

/-- Few segments leave room in the array. -/
theorem foldlM_push_within {parts st : List Segment} (h : st.length + parts.length ≤ MAX_SEGMENTS) :
    parts.foldlM (push_within abs) st = some (parts.foldl (push_segment abs) st) := by
  induction parts generalizing st with
  | nil => rfl
  | cons part rest ih =>
    have hpush := @push_segment_length abs st part
    rw [List.length_cons] at h
    have hwithin : push_within abs st part = some (push_segment abs st part) := if_pos (by omega)
    rw [List.foldlM_cons, hwithin]
    exact ih (by omega)

end

/-- The array is large enough. -/
def FewSegments (path : List Char) : Prop := ((path_segments path).filter (· ≠ [])).length ≤ MAX_SEGMENTS

instance (path : List Char) : Decidable (FewSegments path) := Nat.decLe _ _

theorem normalize_within_eq {path : List Char} (h : FewSegments path) :
    normalize_within path =
      some (String.ofList (join_segments (is_absolute path) (resolve (is_absolute path) (path_segments path)))) := by
  have hloop : ((path_segments path).filter (· ≠ [])).foldlM (push_within (is_absolute path)) [] =
      some (((path_segments path).filter (· ≠ [])).foldl (push_segment (is_absolute path)) []) :=
    foldlM_push_within (by rwa [List.length_nil, Nat.zero_add])
  unfold normalize_within
  simp only [hloop, Option.map_some]
  rfl

/-- The array of normalize_path is the only thing its model leaves out. -/
theorem normalize_within_eq_normalize_path {path : List Char} (h : FewSegments path) :
    normalize_within path = some (normalize_path path) := by
  rw [normalize_within_eq h, normalize_path_eq]

theorem resolve_length {abs : Bool} (segments : List Segment) :
    (resolve abs segments).length ≤ (segments.filter (· ≠ [])).length := by
  unfold resolve
  rw [List.length_reverse]
  have hloop : ∀ (parts st : List Segment), (parts.foldl (push_segment abs) st).length ≤ st.length + parts.length := by
    intro parts
    induction parts with
    | nil => exact fun st => Nat.le_refl _
    | cons part rest ih =>
      intro st
      have hpush := @push_segment_length abs st part
      have hrest := ih (push_segment abs st part)
      rw [List.foldl_cons, List.length_cons]
      omega
  simpa using hloop (segments.filter (· ≠ [])) []

/-- A path is normalized to tidy segments, `.` when there are none in a relative
path, and normalizing it again changes nothing. -/
theorem normalize_within_tidy {path : List Char} (h : FewSegments path) :
    ∃ segments, Tidy (is_absolute path) segments ∧ (∀ s ∈ segments, '/' ∉ s) ∧
      normalize_within path = some (String.ofList (join_segments (is_absolute path) segments)) ∧
      normalize_within (join_segments (is_absolute path) segments) = normalize_within path := by
  have htidy : Tidy (is_absolute path) (resolve (is_absolute path) (path_segments path)) := resolve_tidy _
  have hslash : ∀ s ∈ resolve (is_absolute path) (path_segments path), '/' ∉ s :=
    fun s hs => slash_free (mem_of_mem_resolve hs)
  have habs := is_absolute_join htidy hslash
  refine ⟨_, htidy, hslash, normalize_within_eq h, ?_⟩
  have hfew : FewSegments (join_segments (is_absolute path) (resolve (is_absolute path) (path_segments path))) := by
    unfold FewSegments
    rw [join_parts htidy hslash]
    split
    · decide
    · exact (resolve_length _).trans h
  rw [normalize_within_eq hfew, habs, resolve_join htidy hslash, normalize_within_eq h]

/-- Paths of one kind are normalized to one text exactly when the rules lead both to
the same segments; what they are normalized to is tidy, and stays as it is. -/
theorem normalize_path_iff (p q : List Char) (habs : is_absolute p = is_absolute q) (hp : FewSegments p)
    (hq : FewSegments q) :
    (normalize_within p = normalize_within q ↔ SameResolution (is_absolute p) (path_segments p) (path_segments q)) ∧
    ∃ r : String, normalize_within p = some r ∧ normalize_within r.toList = some r ∧
      ∃ segments, Tidy (is_absolute p) segments ∧ (∀ s ∈ segments, '/' ∉ s) ∧
        r.toList = join_segments (is_absolute p) segments := by
  constructor
  · rw [SameResolution, resolve_normalizes.common_iff, normalize_within_eq hp, normalize_within_eq hq, ← habs]
    have hslash : ∀ path, ∀ s ∈ resolve (is_absolute p) (path_segments path), '/' ∉ s :=
      fun path s hs => slash_free (mem_of_mem_resolve hs)
    constructor
    · intro heq
      have htext : join_segments (is_absolute p) (resolve (is_absolute p) (path_segments p)) =
          join_segments (is_absolute p) (resolve (is_absolute p) (path_segments q)) := by
        simpa using congrArg (Option.map String.toList) heq
      have hread := congrArg (fun text => resolve (is_absolute p) (path_segments text)) htext
      simpa only [resolve_join (resolve_tidy _) (hslash p), resolve_join (resolve_tidy _) (hslash q)] using hread
    · intro heq
      rw [heq]
  · obtain ⟨segments, htidy, hslash, hnormalize, hagain⟩ := normalize_within_tidy hp
    refine ⟨_, hnormalize, ?_, segments, htidy, hslash, String.toList_ofList⟩
    rw [String.toList_ofList, hagain, hnormalize]

theorem normalize_path_iff_detour :
    normalize_within "lib/./a.rb".toList = normalize_within "lib/b/..//a.rb".toList :=
  (normalize_path_iff "lib/./a.rb".toList "lib/b/..//a.rb".toList (by decide) (by decide) (by decide)).1.mpr
    (resolve_normalizes.common_iff.mpr (by decide))

/-- A path that leads nowhere else is `.`, which is a segment. -/
theorem normalize_to_dot :
    ¬ ∀ path r, FewSegments path → normalize_within path = some r → dot ∉ path_segments r.toList := by
  intro hall
  exact hall "a/..".toList "." (by decide) (by decide) (by decide)

end stoned.loading
