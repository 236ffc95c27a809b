import Stoned.PathLaw

namespace stoned.loading

open program

/-! Where normalize_path writes its array of segments (eval_support.c). -/

/-- The place the loop writes a segment to, if it writes it. -/
def written_index (abs : Bool) (segments : List Segment) (part : Segment) : Option Nat :=
  if part = dot then none
  else if part = dot_dot then
    match segments with
    | last :: _ => if last ≠ dot_dot then none else if abs then none else some segments.length
    | [] => if abs then none else some 0
  else some segments.length

def writes (abs : Bool) : List Segment → List Segment → List Nat
  | _, [] => []
  | segments, part :: rest =>
    (written_index abs segments part).toList ++ writes abs (push_segment abs segments part) rest

/-- The segments the loop looks at. -/
def path_parts (path : List Char) : List Segment := (path_segments path).filter (· ≠ [])

/-- The places normalize_path writes, in the order of time. -/
def segment_writes (path : List Char) : List Nat := writes (is_absolute path) [] (path_parts path)

def WritesInside (path : List Char) : Prop := ∀ i ∈ segment_writes path, i < MAX_SEGMENTS

/-- How far a segment leads down. -/
def descent (part : Segment) : Int := if part = dot then 0 else if part = dot_dot then -1 else 1

/-- How far a path leads down below where it begins. -/
def balance (parts : List Segment) : Int := (parts.map descent).sum

/-- The level of the highest directory on the way. -/
def highest : List Segment → Int
  | [] => 0
  | part :: rest => min 0 (descent part + highest rest)

/-- The segments that are left of a path: those down from the highest directory
on its way, and in a relative path those that lead up to it. -/
def depth (abs : Bool) (parts : List Segment) : Int := balance parts - (if abs then 1 else 2) * highest parts

section
variable {abs : Bool}

theorem highest_nonpos (parts : List Segment) : highest parts ≤ 0 := by
  cases parts with
  | nil => exact le_rfl
  | cons part rest => exact min_le_left _ _

theorem balance_cons (part : Segment) (rest : List Segment) :
    balance (part :: rest) = descent part + balance rest := by
  rw [balance, List.map_cons, List.sum_cons]
  rfl

theorem descent_ordinary {part : Segment} (hdot : part ≠ dot) (hparent : part ≠ dot_dot) : descent part = 1 := by
  rw [descent, if_neg hdot, if_neg hparent]

theorem push_name {part : Segment} (hdot : part ≠ dot) (hparent : part ≠ dot_dot) (segments : List Segment) :
    push_segment abs segments part = part :: segments := by
  have hdot' : part ≠ ['.'] := hdot
  have hparent' : part ≠ ['.', '.'] := hparent
  simp [push_segment, hdot', hparent']

theorem push_parent_cons (last : Segment) (rest : List Segment) :
    push_segment abs (last :: rest) dot_dot =
      if last ≠ dot_dot then rest else if abs then last :: rest else dot_dot :: last :: rest := rfl

/-- A `..` at the end of a stack of `..` is put there or dropped. -/
theorem push_parent_up (ups : Nat) (habs : abs = true → ups = 0) :
    push_segment abs (List.replicate ups dot_dot) dot_dot =
      if abs then [] else List.replicate (ups + 1) dot_dot := by
  cases ups with
  | zero => cases abs <;> rfl
  | succ ups =>
    cases abs with
    | false => rfl
    | true => cases habs rfl

/-- What is left of a path behind names and `..` that are left already. -/
theorem length_push_all (parts names : List Segment) (ups : Nat) (hnames : ∀ s ∈ names, s ≠ dot_dot)
    (habs : abs = true → ups = 0) :
    ((parts.foldl (push_segment abs) (names ++ List.replicate ups dot_dot)).length : Int) =
      names.length + ups + balance parts + (if abs then 1 else 2) * max 0 (-highest parts - names.length) := by
  induction parts generalizing names ups with
  | nil =>
    simp [balance, highest]
  | cons part rest ih =>
    have hlow := highest_nonpos rest
    rw [List.foldl_cons, balance_cons, highest]
    by_cases hdot : part = dot
    · subst hdot
      have hdescent : descent dot = 0 := rfl
      rw [push_dot, ih names ups hnames habs, hdescent, zero_add, zero_add, min_eq_right hlow]
    by_cases hparent : part = dot_dot
    · subst hparent
      have hdescent : descent dot_dot = -1 := rfl
      have hmin : min 0 (-1 + highest rest) = -1 + highest rest := min_eq_right (by omega)
      rw [hdescent, hmin]
      cases names with
      | nil =>
        rw [List.nil_append, push_parent_up ups habs]
        cases abs with
        | true =>
          have hups := habs rfl
          subst hups
          have hrest := ih [] 0 hnames fun _ => rfl
          simp only [List.nil_append, List.replicate_zero, List.length_nil] at hrest
          simp only [if_pos, hrest, List.length_nil]
          omega
        | false =>
          have hrest := ih [] (ups + 1) hnames (by rintro ⟨⟩)
          simp only [List.nil_append, List.length_nil] at hrest
          simp only [Bool.false_eq_true, if_false, hrest, List.length_nil]
          omega
      | cons name names =>
        rw [List.cons_append, push_parent_cons, if_pos (hnames name List.mem_cons_self), ih names ups (fun s hs => hnames s (List.mem_cons_of_mem _ hs)) habs, List.length_cons]
        split <;> omega
    · have hnames' : ∀ s ∈ part :: names, s ≠ dot_dot := by
        intro s hs
        rcases List.mem_cons.mp hs with rfl | hs
        · exact hparent
        · exact hnames s hs
      rw [push_name hdot hparent, ← List.cons_append, ih (part :: names) ups hnames' habs, descent_ordinary hdot hparent, List.length_cons]
      split <;> omega

theorem length_parts (parts : List Segment) :
    ((parts.foldl (push_segment abs) []).length : Int) = depth abs parts := by
  have hlow := highest_nonpos parts
  have h := @length_push_all abs parts [] 0 (by simp) fun _ => rfl
  simp only [List.replicate_zero, List.append_nil, List.length_nil] at h
  rw [h, depth]
  split <;> omega

/-- A segment is written behind those that are there, and only then there is one more. -/
theorem written_index_cases (segments : List Segment) (part : Segment) :
    written_index abs segments part = some segments.length ∧
        (push_segment abs segments part).length = segments.length + 1 ∨
      written_index abs segments part = none ∧ (push_segment abs segments part).length ≤ segments.length := by
  by_cases hdot : part = dot
  · subst hdot
    exact .inr ⟨rfl, le_rfl⟩
  by_cases hparent : part = dot_dot
  · subst hparent
    cases segments with
    | nil =>
      cases abs with
      | true => exact .inr ⟨rfl, le_rfl⟩
      | false => exact .inl ⟨rfl, rfl⟩
    | cons last rest =>
      have hwritten : written_index abs (last :: rest) dot_dot =
          if last ≠ dot_dot then none else if abs then none else some (last :: rest).length := rfl
      rw [push_parent_cons, hwritten]
      by_cases hlast : last = dot_dot
      · rw [if_neg (not_not.mpr hlast), if_neg (not_not.mpr hlast)]
        cases abs with
        | true => exact .inr ⟨rfl, le_rfl⟩
        | false => exact .inl ⟨rfl, rfl⟩
      · rw [if_pos hlast, if_pos hlast]
        exact .inr ⟨rfl, Nat.le_succ _⟩
  · have hwritten : written_index abs segments part = some segments.length := by
      unfold written_index
      rw [if_neg hdot, if_neg hparent]
    rw [push_name hdot hparent, hwritten]
    exact .inl ⟨rfl, List.length_cons⟩

/-- Nothing is written behind the end of an array exactly when it holds what is
left of every beginning of the path. -/
theorem writes_lt_iff {n : Nat} {segments : List Segment} (parts : List Segment) (hfits : segments.length ≤ n) :
    (∀ i ∈ writes abs segments parts, i < n) ↔
      ∀ front, front <+: parts → (front.foldl (push_segment abs) segments).length ≤ n := by
  induction parts generalizing segments with
  | nil =>
    refine iff_of_true (fun i hi => absurd hi List.not_mem_nil) fun front hfront => ?_
    rw [List.prefix_nil.mp hfront]
    exact hfits
  | cons part rest ih =>
    have hfronts : (∀ front, front <+: part :: rest → (front.foldl (push_segment abs) segments).length ≤ n) ↔
        ∀ front, front <+: rest → (front.foldl (push_segment abs) (push_segment abs segments part)).length ≤ n := by
      constructor
      · intro hall front hfront
        exact hall (part :: front) ((List.prefix_cons_inj part).mpr hfront)
      · intro hall front hfront
        rcases List.prefix_cons_iff.mp hfront with rfl | ⟨front', rfl, hfront'⟩
        · exact hfits
        · exact hall front' hfront'
    rw [hfronts, writes]
    by_cases hpush : (push_segment abs segments part).length ≤ n
    · rw [← ih hpush]
      have hindex : ∀ i ∈ (written_index abs segments part).toList, i < n := by
        intro i hi
        rcases @written_index_cases abs segments part with ⟨hwritten, hlength⟩ | ⟨hwritten, -⟩
        · rw [hwritten, Option.toList_some, List.mem_singleton] at hi
          omega
        · rw [hwritten] at hi
          cases hi
      constructor
      · exact fun hall i hi => hall i (List.mem_append_right _ hi)
      · intro hall i hi
        rcases List.mem_append.mp hi with hi | hi
        · exact hindex i hi
        · exact hall i hi
    · refine iff_of_false ?_ fun hall => hpush (hall [] List.nil_prefix)
      intro hall
      rcases @written_index_cases abs segments part with ⟨hwritten, hlength⟩ | ⟨-, hlength⟩
      · have hlast := hall segments.length (List.mem_append_left _ (by rw [hwritten]; exact List.mem_singleton_self _))
        omega
      · omega

end

/-- All segments are written inside the array exactly when no beginning of the
path leaves more of them than it has room for. -/
theorem writes_inside_iff (path : List Char) :
    WritesInside path ↔ ∀ front, front <+: path_parts path → depth (is_absolute path) front ≤ MAX_SEGMENTS := by
  rw [WritesInside, segment_writes, writes_lt_iff (path_parts path) (Nat.zero_le _)]
  refine forall₂_congr fun front _ => ?_
  rw [← length_parts, Int.ofNat_le]

/-- 257 directories, each in the one before. -/
def deep_path : List Char := ['/'].intercalate (List.replicate 257 ['a'])

theorem deep_path_overflows : ¬ ∀ path, WritesInside path := by
  intro hall
  exact absurd (hall deep_path 256 (by decide +kernel)) (by decide)

end stoned.loading
