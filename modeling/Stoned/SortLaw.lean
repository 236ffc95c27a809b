import Stoned.BangLaw
import Stoned.DoubleExact
import Stoned.Program.Insertion
import Stoned.StringOrder

namespace stoned.arrays

open program

/-! Sorting puts elements in order where their comparisons say one. -/

section
variable {blk : Option Callee} {spaceship : Callee} {before : Value → Value → Bool} {lists : List Held} {r : Ref} {h : Held}
  {xs ys front behind done rest : List Value} {key : Value} {n : Nat}

/-- The comparisons that sorting makes of some elements do not fail, and say each time
which of the two comes first. -/
def Tells (blk : Option Callee) (spaceship : Callee) (before : Value → Value → Bool) (xs : List Value) : Prop :=
  ∀ n, ∀ a ∈ xs, ∀ b ∈ xs, (sort_less blk spaceship n a b).1 = .ok (before a b)

theorem Tells.mono (htells : Tells blk spaceship before xs) (hsub : ys ⊆ xs) : Tells blk spaceship before ys :=
  fun n a ha b hb => htells n a (hsub ha) b (hsub hb)

/-! ### The loops -/

theorem insert_down_tells (htells : Tells blk spaceship before (key :: front)) :
    ∃ n', list.insert_down (sort_less blk spaceship) key front behind n = .ok (insert_back before key front behind, n') := by
  induction front generalizing behind n with
  | nil => exact ⟨n, rfl⟩
  | cons prev front ih =>
    have hless := htells n key List.mem_cons_self prev (by simp)
    have hrest : Tells blk spaceship before (key :: front) := htells.mono fun a ha =>
      (List.mem_cons.mp ha).elim (fun heq => by simp [heq]) fun hin => by simp [hin]
    obtain ⟨n', hless⟩ : ∃ n', sort_less blk spaceship n key prev = (.ok (before key prev), n') := ⟨_, Prod.ext hless rfl⟩
    rw [list.insert_down, hless, insert_back]
    cases before key prev with
    | true => exact ih hrest
    | false => exact ⟨n', rfl⟩

theorem sort_on_tells (htells : Tells blk spaceship before (done ++ rest)) :
    list.sort_on (sort_less blk spaceship) done rest n = .ok (insertion before done rest) := by
  induction rest generalizing done n with
  | nil => rfl
  | cons key rest ih =>
    have hkey : Tells blk spaceship before (key :: done.reverse) := htells.mono fun a ha => by
      rcases List.mem_cons.mp ha with rfl | hin
      · exact List.mem_append_right _ List.mem_cons_self
      · exact List.mem_append_left _ (List.mem_reverse.mp hin)
    have hperm : (insert_back before key done.reverse [] ++ rest).Perm (done ++ key :: rest) :=
      (insert_back_perm_cons.append_right rest).trans List.perm_middle.symm
    obtain ⟨n', hins⟩ : ∃ n', list.insert_down (sort_less blk spaceship) key done.reverse [] n =
        .ok (insert_back before key done.reverse [], n') := insert_down_tells hkey
    rw [list.sort_on, hins]
    exact ih (htells.mono hperm.subset)

theorem sorted_tells (htells : Tells blk spaceship before xs) :
    list.sorted (sort_less blk spaceship) xs = .ok (insertion before [] xs) := by
  rw [list.sorted, sort_on_tells (by rwa [List.take_append_drop])]
  cases xs <;> rfl

/-- The array that `sort` gives is the list of insertion sort. -/
theorem sort_tells (hr : lists[r]? = some h) (htells : Tells blk spaceship before h.elems) :
    Returns (fun fuel => sort blk spaceship fuel r) lists (.list (insertion before [] h.elems)) := by
  refine returns_new (2 * h.elems.length + 2) fun fuel hfuel m hm => ?_
  obtain ⟨m', zs, hm', hrun⟩ := sort_ok blk spaceship fuel hm hr (by omega)
  rw [sorted_tells htells] at hrun
  obtain ⟨hrun, rfl⟩ := hrun
  exact ⟨m', hrun, hm'⟩

/-- However they are arranged, elements whose comparisons do not fail are sorted, with
those that compare equal in the order they were in, exactly when the comparisons are a
strict weak order of them. -/
theorem sort_law_iff (htells : Tells blk spaceship before xs) (hself : ∀ a ∈ xs, before a a = false) :
    (∀ (lists : List Held) (r : Ref) (h : Held), lists[r]? = some h → h.elems.Perm xs →
      ∃ ys, Returns (fun fuel => sort blk spaceship fuel r) lists (.list ys) ∧ Sorts before h.elems ys) ↔
    WeakOrder before xs := by
  constructor
  · intro hlaw
    refine weakOrder_of_inOrder hself fun zs hperm => ?_
    obtain ⟨ys, hreturns, hsorts⟩ := hlaw [{ elems := zs, frozen := false }] 0 _ rfl hperm
    have hmade : Returns (fun fuel => sort blk spaceship fuel 0) [{ elems := zs, frozen := false }]
        (.list (insertion before [] zs)) :=
      @sort_tells blk spaceship before _ 0 { elems := zs, frozen := false } rfl (htells.mono hperm.subset)
    obtain rfl := Outcome.list.inj (hreturns.unique hmade)
    exact hsorts.ordered
  · intro horders lists r h hr hperm
    exact ⟨_, sort_tells hr (htells.mono hperm.subset), insertion_sorts (horders.mono hperm.subset)⟩

end

/-! ### What is compared without a block -/

/-- Which of two elements comes first, where `<=>` is not asked. -/
def comes_before : Value → Value → Bool
  | .int a, .int b => a < b
  | .float a, .float b => a.less b
  | .int a, .float b => (Double.of_int a).less b
  | .float a, .int b => a.less (.of_int b)
  | .string a .., .string b .. => strcmp a.toList b.toList < 0
  | .symbol a, .symbol b => strcmp a.toList b.toList < 0
  | _, _ => false

/-- A number whose conversion to a float changes nothing. -/
def is_number : Value → Bool
  | .int n => n.toInt.natAbs ≤ 2 ^ 53
  | .float x => !x.nan
  | _ => false

/-- Elements of one kind: all are integers, or numbers, or strings, or symbols. -/
inductive Plain (xs : List Value) : Prop where
  | ints (h : ∀ v ∈ xs, v.kind = .int)
  | numbers (h : ∀ v ∈ xs, is_number v = true)
  | strings (h : ∀ v ∈ xs, v.kind = .string)
  | symbols (h : ∀ v ∈ xs, v.kind = .symbol)

section
variable {spaceship : Callee} {xs : List Value} {a b : Value}

/-- What a number is worth, as a float. -/
def num_value : Value → Int
  | .int n => (Double.of_int n).value
  | .float x => x.value
  | _ => 0

theorem number_cases (h : is_number a = true) :
    (∃ n, a = .int n ∧ n.toInt.natAbs ≤ 2 ^ 53) ∨ ∃ x, a = .float x ∧ x.nan = false := by
  cases a
  case int n => exact .inl ⟨n, rfl, of_decide_eq_true h⟩
  case float x => exact .inr ⟨x, rfl, by simpa [is_number] using h⟩
  all_goals cases h

theorem number_before (ha : is_number a = true) (hb : is_number b = true) : comes_before a b = true ↔ num_value a < num_value b := by
  have hless : ∀ x y : Double, x.nan = false → y.nan = false → (x.less y = true ↔ x.value < y.value) := by
    intro x y hx hy
    simp [Double.less, hx, hy]
  obtain ⟨m, rfl, hm⟩ | ⟨x, rfl, hx⟩ := number_cases ha <;> obtain ⟨n, rfl, hn⟩ | ⟨y, rfl, hy⟩ := number_cases hb
  · have hvalue := hless _ _ (Double.of_int_nan m) (Double.of_int_nan n)
    rw [Double.less_of_small hm hn] at hvalue
    exact hvalue
  · exact hless _ _ (Double.of_int_nan m) hy
  · exact hless _ _ hx (Double.of_int_nan n)
  · exact hless _ _ hx hy

theorem int_of_kind (h : a.kind = .int) : ∃ n, a = .int n := by
  cases a <;> first | exact ⟨_, rfl⟩ | cases h

theorem float_of_kind (h : a.kind = .float) : ∃ x, a = .float x := by
  cases a <;> first | exact ⟨_, rfl⟩ | cases h

theorem string_of_kind (h : a.kind = .string) : ∃ s encoding frozen, a = .string s encoding frozen := by
  cases a <;> first | exact ⟨_, _, _, rfl⟩ | cases h

theorem symbol_of_kind (h : a.kind = .symbol) : ∃ s, a = .symbol s := by
  cases a <;> first | exact ⟨_, rfl⟩ | cases h

def int_value : Value → Int
  | .int n => n.toInt
  | _ => 0

/-- The bytes of a string or a symbol, up to the first NUL. -/
def codes : Value → List Nat
  | .string sval .. | .symbol sval => c_codes sval.toList
  | _ => []

/-- On elements of one kind this is an order. -/
theorem Plain.weakOrder (h : Plain xs) : WeakOrder comes_before xs := by
  cases h with
  | ints h =>
    refine .of_rank int_value fun a ha b hb => ?_
    obtain ⟨m, rfl⟩ := int_of_kind (h a ha)
    obtain ⟨n, rfl⟩ := int_of_kind (h b hb)
    exact decide_eq_true_iff.trans Int64.lt_iff_toInt_lt
  | numbers h => exact .of_rank num_value fun a ha b hb => number_before (h a ha) (h b hb)
  | strings h =>
    refine .of_rank codes fun a ha b hb => ?_
    obtain ⟨s, _, _, rfl⟩ := string_of_kind (h a ha)
    obtain ⟨t, _, _, rfl⟩ := string_of_kind (h b hb)
    exact decide_eq_true_iff.trans (strcmp_neg_iff s.toList t.toList)
  | symbols h =>
    refine .of_rank codes fun a ha b hb => ?_
    obtain ⟨s, rfl⟩ := symbol_of_kind (h a ha)
    obtain ⟨t, rfl⟩ := symbol_of_kind (h b hb)
    exact decide_eq_true_iff.trans (strcmp_neg_iff s.toList t.toList)

/-- `<=>` is not asked for numbers. -/
theorem numbers_tell (h : ∀ v ∈ xs, v.kind = .int ∨ v.kind = .float) : Tells none spaceship comes_before xs := by
  have hcases : ∀ v ∈ xs, (∃ n, v = .int n) ∨ ∃ x, v = .float x := fun v hv => (h v hv).imp int_of_kind float_of_kind
  intro k a ha b hb
  obtain ⟨m, rfl⟩ | ⟨x, rfl⟩ := hcases a ha <;> obtain ⟨n, rfl⟩ | ⟨y, rfl⟩ := hcases b hb <;> rfl

/-- Nor is it for other elements of one kind. -/
theorem Plain.tells (h : Plain xs) : Tells none spaceship comes_before xs := by
  intro k a ha b hb
  cases h with
  | ints h =>
    obtain ⟨m, rfl⟩ := int_of_kind (h a ha)
    obtain ⟨n, rfl⟩ := int_of_kind (h b hb)
    rfl
  | numbers h =>
    refine numbers_tell (fun v hv => ?_) k a ha b hb
    obtain ⟨m, rfl, -⟩ | ⟨x, rfl, -⟩ := number_cases (h v hv)
    · exact .inl rfl
    · exact .inr rfl
  | strings h =>
    obtain ⟨s, _, _, rfl⟩ := string_of_kind (h a ha)
    obtain ⟨t, _, _, rfl⟩ := string_of_kind (h b hb)
    rfl
  | symbols h =>
    obtain ⟨s, rfl⟩ := symbol_of_kind (h a ha)
    obtain ⟨t, rfl⟩ := symbol_of_kind (h b hb)
    rfl

end

/-- Integers that a float tells apart, and those that it does not. -/
def close_numbers (n : Int64) : List Value := [.int (n + 1), .float (.of_int n), .int n]

/-- Beyond 2^53 the comparisons of integers with floats are no order. -/
theorem sort_law_iff_of_numbers :
    (∃ ys, Returns (fun fuel => sort none bare.spaceship fuel 0) [{ elems := close_numbers 5, frozen := false }] (.list ys) ∧
      Sorts comes_before (close_numbers 5) ys) ∧
    ¬ ∀ (lists : List Held) (r : Ref) (h : Held), lists[r]? = some h → h.elems.Perm (close_numbers 9007199254740992) →
      ∃ ys, Returns (fun fuel => sort none bare.spaceship fuel r) lists (.list ys) ∧ Sorts comes_before h.elems ys := by
  have hkind : ∀ n, ∀ v ∈ close_numbers n, v.kind = .int ∨ v.kind = .float := by
    intro n v hv
    simp only [close_numbers, List.mem_cons, List.not_mem_nil, or_false] at hv
    rcases hv with rfl | rfl | rfl
    · exact .inl rfl
    · exact .inr rfl
    · exact .inl rfl
  constructor
  · have hplain : Plain (close_numbers 5) := .numbers (by decide +kernel)
    exact (sort_law_iff (numbers_tell (hkind 5)) (by decide +kernel)).mpr hplain.weakOrder
      [{ elems := close_numbers 5, frozen := false }] 0 { elems := close_numbers 5, frozen := false } rfl (.refl _)
  · rw [sort_law_iff (numbers_tell (hkind _)) (by decide +kernel)]
    intro horders
    have hle := horders.trans (.int 9007199254740992) (by simp [close_numbers]) (.float (.of_int 9007199254740992))
      (by simp [close_numbers]) (.int 9007199254740993) (by simp [close_numbers]) (by decide +kernel) (by decide +kernel)
    exact absurd hle (by decide +kernel)

/-! Array#min and Array#max without a block (eval_dispatch_collections.c), beside `sort`. -/

/-- Whether an element replaces the one that was the least, or the greatest, so far.
What `<=>` cannot compare is passed over. -/
def replaces (greatest : Bool) (spaceship : Callee) (n : Nat) (cur m : Value) : Bool × Nat :=
  match cur, m with
  | .int a, .int b => (if greatest then b < a else a < b, n)
  | .float a, .float b => (if greatest then b.less a else a.less b, n)
  | .int a, .float b => (if greatest then b.less (.of_int a) else (Double.of_int a).less b, n)
  | .float a, .int b => (if greatest then (Double.of_int b).less a else a.less (.of_int b), n)
  | .string a .., .string b .. =>
    (if greatest then 0 < strcmp a.toList b.toList else strcmp a.toList b.toList < 0, n)
  | .symbol a, .symbol b => (if greatest then 0 < strcmp a.toList b.toList else strcmp a.toList b.toList < 0, n)
  | cur, m =>
    match (spaceship n [cur, m]).value with
    | .int order => (if greatest then 0 < order else order < 0, n + 1)
    | _ => (false, n + 1)

def extreme_each (greatest : Bool) (spaceship : Callee) (r : Ref) : Nat → Nat → Value → Nat → Run Value
  | 0, _, _, _ => stop .running
  | fuel + 1, i, m, n => do
    let size ← len r
    if i < size then do
      let cur ← read r i
      let (better, n) := replaces greatest spaceship n cur m
      extreme_each greatest spaceship r fuel (i + 1) (if better then cur else m) n
    else return m

/-- The elements in front of an index, a number of them, the last one first. -/
def push_down (result src : Ref) : Nat → Nat → Run Unit
  | 0, _ => return
  | count + 1, i => do
    let v ← read src (i - 1)
    val_array_push result v
    push_down result src count (i - 1)

/-- A number of elements from the front, or those from the back in reverse. -/
def push_from (greatest : Bool) (result src : Ref) (fuel count size : Nat) : Run Unit :=
  if greatest then push_down result src count size else push_while (pure count) result src fuel 0

/-- A number of elements: those that a sort brings to the front, or to the back. -/
def extremes (greatest : Bool) (spaceship : Callee) (fuel : Nat) (r : Ref) (n : Int64) : Run Reply := do
  match ← sort none spaceship fuel r with
  | .value (.array sorted_out) =>
    if n < 0 then return .raised "ArgumentError" "count must be positive"
    else do
      let size ← len sorted_out
      let n := min n.toInt.toNat size
      let result ← val_array_new
      push_from greatest result sorted_out fuel n size
      return .value (.array result)
  | _ => return .value .nil

def extreme_one (greatest : Bool) (spaceship : Callee) (fuel : Nat) (r : Ref) : Run Reply := do
  let size ← len r
  if size = 0 then return .value .nil
  else do
    let m ← read r 0
    let m ← extreme_each greatest spaceship r fuel 1 m 0
    return .value m

def extreme (greatest : Bool) (spaceship : Callee) (fuel : Nat) (r : Ref) (args : List Value) : Run Reply :=
  match int_arg args 0 with
  | some n => extremes greatest spaceship fuel r n
  | none => extreme_one greatest spaceship fuel r

def array_min := extreme false
def array_max := extreme true

section
variable {greatest : Bool} {spaceship : Callee} {before better : Value → Value → Bool} {lists : List Held} {r q : Ref}
  {h d : Held} {m m' : Memory} {xs ys rest : List Value} {v : Value} {n : Nat}

/-- With enough turns of its loops a method answers a value, and has changed nothing. -/
def Answers (method : Nat → Run Reply) (lists : List Held) (v : Value) : Prop :=
  ∃ enough, ∀ fuel, enough ≤ fuel → ∀ m, Holds m lists → method fuel m = .ok (.value v, m)

/-- How elements compare without a block: `sort` is told which of two comes first, and
`max` hears the same when it asks the other way around. -/
structure Compared (spaceship : Callee) (before : Value → Value → Bool) (xs : List Value) : Prop where
  tells : Tells none spaceship before xs
  greater : ∀ n, ∀ a ∈ xs, ∀ b ∈ xs, (replaces true spaceship n a b).1 = before b a

/-- `min` makes the comparisons of `sort`. -/
theorem replaces_less {n : Nat} {a b : Value} {less : Bool} (hless : (sort_less none spaceship n a b).1 = .ok less) :
    (replaces false spaceship n a b).1 = less := by
  simp only [sort_less] at hless
  split at hless
  case h_7 h₁ h₂ h₃ h₄ h₅ h₆ =>
    rw [replaces.eq_7 false spaceship n a b h₁ h₂ h₃ h₄ h₅ h₆]
    split at hless
    · next order hvalue => simpa only [hvalue, Bool.false_eq_true, if_false] using Except.ok.inj hless
    · cases hless
  all_goals exact Except.ok.inj hless

theorem Plain.compared (h : Plain xs) : Compared spaceship comes_before xs where
  tells := h.tells
  greater := by
    intro n a ha b hb
    have hstrcmp : ∀ s t : String, decide (0 < strcmp s.toList t.toList) = decide (strcmp t.toList s.toList < 0) := by
      intro s t
      rw [strcmp_swap s.toList t.toList, decide_eq_decide]
      omega
    cases h with
    | ints h =>
      obtain ⟨k, rfl⟩ := int_of_kind (h a ha)
      obtain ⟨l, rfl⟩ := int_of_kind (h b hb)
      rfl
    | numbers h =>
      obtain ⟨k, rfl, -⟩ | ⟨x, rfl, -⟩ := number_cases (h a ha) <;> obtain ⟨l, rfl, -⟩ | ⟨y, rfl, -⟩ := number_cases (h b hb) <;> rfl
    | strings h =>
      obtain ⟨s, _, _, rfl⟩ := string_of_kind (h a ha)
      obtain ⟨t, _, _, rfl⟩ := string_of_kind (h b hb)
      exact hstrcmp s t
    | symbols h =>
      obtain ⟨s, rfl⟩ := symbol_of_kind (h a ha)
      obtain ⟨t, rfl⟩ := symbol_of_kind (h b hb)
      exact hstrcmp s t

/-! ### One element -/

/-- One pass finds the first of the elements that are better than all others. -/
theorem extreme_each_ok (hr : lists[r]? = some h) (hm : Holds m lists) {front : List Value}
    (hxs : h.elems = front ++ rest) (hbetter : ∀ n, ∀ a ∈ h.elems, ∀ b ∈ h.elems, (replaces greatest spaceship n a b).1 = better a b)
    (hv : v ∈ h.elems) (fuel : Nat) (hfuel : rest.length < fuel) :
    extreme_each greatest spaceship r fuel front.length v n m = .ok (leader better v rest, m) := by
  induction rest generalizing fuel front v n with
  | nil =>
    obtain ⟨fuel, rfl⟩ : ∃ fuel', fuel = fuel' + 1 := ⟨fuel - 1, by omega⟩
    rw [List.append_nil] at hxs
    rw [extreme_each, bind_ok (len_ok hm hr), hxs, if_neg (Nat.lt_irrefl _)]
    rfl
  | cons cur rest ih =>
    obtain ⟨fuel, rfl⟩ : ∃ fuel', fuel = fuel' + 1 := ⟨fuel - 1, by omega⟩
    have hinside : front.length < h.elems.length := by simp [hxs]
    have hcur : h.elems[front.length] = cur := by simp [hxs]
    have hmem : cur ∈ h.elems := hcur ▸ List.getElem_mem hinside
    have hread := read_ok hm hr hinside
    rw [hcur] at hread
    have hpicks := hbetter n cur hmem v hv
    obtain ⟨n', hreplaces⟩ : ∃ n', replaces greatest spaceship n cur v = (better cur v, n') := ⟨_, Prod.ext hpicks rfl⟩
    rw [extreme_each, bind_ok (len_ok hm hr), if_pos hinside, bind_ok hread, hreplaces, leader]
    have hnext := @ih (if better cur v then cur else v) n' (front ++ [cur]) (by simp [hxs]) (by split <;> assumption) fuel
      (by simpa using hfuel)
    rwa [List.length_append, List.length_singleton] at hnext

theorem extreme_answers (hr : lists[r]? = some h) (hxs : h.elems = v :: rest)
    (hbetter : ∀ n, ∀ a ∈ h.elems, ∀ b ∈ h.elems, (replaces greatest spaceship n a b).1 = better a b) :
    Answers (fun fuel => extreme greatest spaceship fuel r []) lists (leader better v rest) := by
  refine ⟨rest.length + 1, fun fuel hfuel m hm => ?_⟩
  have hread := read_ok hm hr (i := 0) (by simp [hxs])
  simp only [hxs, List.getElem_cons_zero] at hread
  have hscan := @extreme_each_ok _ _ _ _ _ _ _ _ v 0 hr hm [v] hxs hbetter (by simp [hxs]) fuel (by omega)
  rw [List.length_singleton] at hscan
  have hne : h.elems.length ≠ 0 := by simp [hxs]
  change extreme_one greatest spaceship fuel r m = _
  rw [extreme_one, bind_ok (len_ok hm hr), if_neg hne, bind_ok hread, bind_ok hscan]
  rfl

theorem extreme_leads (hr : lists[r]? = some h) (hne : h.elems ≠ []) (horders : WeakOrder better h.elems)
    (hbetter : ∀ n, ∀ a ∈ h.elems, ∀ b ∈ h.elems, (replaces greatest spaceship n a b).1 = better a b) :
    ∃ v, Answers (fun fuel => extreme greatest spaceship fuel r []) lists v ∧ Leads better v h.elems := by
  obtain ⟨v, rest, hxs⟩ := List.exists_cons_of_ne_nil hne
  refine ⟨_, extreme_answers hr hxs hbetter, ?_⟩
  rw [hxs] at horders ⊢
  exact leader_leads_cons horders

/-- Of an empty array neither method has an element. -/
theorem extreme_empty (greatest : Bool) (spaceship : Callee) (hr : lists[r]? = some h) (hxs : h.elems = []) :
    Answers (fun fuel => extreme greatest spaceship fuel r []) lists .nil := by
  refine ⟨0, fun fuel _ m hm => ?_⟩
  change extreme_one greatest spaceship fuel r m = _
  rw [extreme_one, bind_ok (len_ok hm hr), hxs]
  rfl

/-! ### A number of elements -/

theorem push_down_ok (hne : r ≠ q) {i count : Nat} (hcount : count ≤ i) (hm : Holds m lists) (hr : lists[r]? = some h)
    (hq : lists[q]? = some d) (hi : i ≤ h.elems.length) :
    ∃ m', push_down q r count i m = .ok ((), m') ∧
      Holds m' (changed lists q (d.elems ++ (h.elems.take i).reverse.take count)) := by
  induction count generalizing m lists d i with
  | zero =>
    refine ⟨m, rfl, ?_⟩
    rwa [List.take_zero, List.append_nil, changed_same hq]
  | succ count ih =>
    obtain ⟨i, rfl⟩ : ∃ i', i = i' + 1 := ⟨i - 1, by omega⟩
    obtain ⟨m₁, hpush, hm₁⟩ := push_ok (v := h.elems[i]) hm hq
    obtain ⟨m₂, hrest, hm₂⟩ := ih (by omega) hm₁ (by rwa [changed_get_ne hne]) (changed_get hq) (Nat.le_of_succ_le hi)
    rw [push_down, Nat.add_sub_cancel, bind_ok (read_ok hm hr hi), bind_ok hpush]
    refine ⟨m₂, hrest, ?_⟩
    rw [changed_changed] at hm₂
    rw [List.take_succ_eq_append_getElem hi, List.reverse_append, List.reverse_singleton, List.singleton_append, List.take_succ_cons]
    simpa using hm₂

/-- From one end of an array a new one is filled. -/
theorem taken_ok (greatest : Bool) (fuel count : Nat) (hm : Holds m lists) (hr : lists[r]? = some h)
    (hcount : count ≤ h.elems.length) (hfuel : count < fuel) :
    ∃ m₁ m₂, val_array_new m = .ok (lists.length, m₁) ∧
      push_from greatest lists.length r fuel count h.elems.length m₁ = .ok ((), m₂) ∧
      Holds m₂ (lists ++ [{ elems := (if greatest then h.elems.reverse else h.elems).take count, frozen := false }]) := by
  cases greatest with
  | false => exact copied (pure count) fuel 0 hm hr (fun _ _ _ _ => rfl) hcount hfuel
  | true =>
    obtain ⟨m₁, hnew, hm₁⟩ := new_ok hm
    obtain ⟨hmade, hr₁⟩ := new_held hr []
    obtain ⟨m₂, hpush, hm₂⟩ := push_down_ok (lt_of_get hr).ne hcount hm₁ hr₁ hmade le_rfl
    rw [changed_new, List.nil_append, List.take_length] at hm₂
    exact ⟨m₁, m₂, hnew, hpush, hm₂⟩

/-- The elements are those that stand first, or last, among the sorted ones. -/
theorem extremes_return (greatest : Bool) (hr : lists[r]? = some h) (htells : Tells none spaceship before h.elems) {n : Int64}
    (hn : 0 ≤ n) :
    Returns (fun fuel => extreme greatest spaceship fuel r [.int n]) lists
      (.list ((if greatest then (insertion before [] h.elems).reverse else insertion before [] h.elems).take n.toInt.toNat)) := by
  obtain ⟨ys, hys⟩ : ∃ ys, insertion before [] h.elems = ys := ⟨_, rfl⟩
  have hlen : ys.length = h.elems.length := hys ▸ insertion_perm.length_eq
  refine ⟨2 * h.elems.length + 2, fun fuel hfuel m hm => ?_⟩
  obtain ⟨m₁, zs, hm₁, hsort⟩ := sort_ok none spaceship fuel hm hr (by omega)
  rw [sorted_tells htells, hys] at hsort
  obtain ⟨hsort, rfl⟩ := hsort
  obtain ⟨hsorted, -⟩ := new_held hr zs
  obtain ⟨m₂, m₃, hnew, htaken, hm₃⟩ := taken_ok greatest fuel (min n.toInt.toNat zs.length) hm₁ hsorted
    (min_le_right ..) (by omega)
  have hcut : (if greatest then zs.reverse else zs).take (min n.toInt.toNat zs.length) =
      (if greatest then zs.reverse else zs).take n.toInt.toNat := by
    have hsize : (if greatest then zs.reverse else zs).length = zs.length := by split <;> simp
    exact List.take_eq_take_iff.mpr (by rw [hsize]; omega)
  rw [hcut, List.append_assoc] at hm₃
  refine ⟨m₃, _, .value (.array (lists ++ [({ elems := zs, frozen := false } : Held)]).length), ?_, hm₃, _,
    { elems := (if greatest then zs.reverse else zs).take n.toInt.toNat, frozen := false }, rfl, ?_, by rw [hys]⟩
  · change extremes greatest spaceship fuel r n m = _
    rw [extremes, bind_ok hsort]
    simp only
    rw [if_neg (Int64.not_lt.mpr hn), bind_ok (len_ok hm₁ hsorted), bind_ok hnew, bind_ok htaken]
    rfl
  · rw [← List.append_assoc, List.getElem?_append_right le_rfl, Nat.sub_self]
    rfl

/-- Where comparisons give an order, `sort`, `min` and `max` are of one mind: the first of
the sorted elements is the least, the greatest is as good as the last one, and a number
of either are those from that end. -/
theorem extremes_law (hr : lists[r]? = some h) (hcompared : Compared spaceship before h.elems)
    (horders : WeakOrder before h.elems) :
    ∃ ys, Returns (fun fuel => sort none spaceship fuel r) lists (.list ys) ∧ Sorts before h.elems ys ∧
      Answers (fun fuel => array_min spaceship fuel r []) lists (ys.headD .nil) ∧
      (∃ v, Answers (fun fuel => array_max spaceship fuel r []) lists v ∧
        (ys = [] → v = .nil) ∧
        ∀ last ∈ ys.getLast?, Leads (fun a b => before b a) v h.elems ∧ before v last = false ∧ before last v = false) ∧
      ∀ n : Int64, 0 ≤ n →
        Returns (fun fuel => array_min spaceship fuel r [.int n]) lists (.list (ys.take n.toInt.toNat)) ∧
        Returns (fun fuel => array_max spaceship fuel r [.int n]) lists (.list (ys.reverse.take n.toInt.toNat)) := by
  have hsorts := insertion_sorts horders
  have hless : ∀ n, ∀ a ∈ h.elems, ∀ b ∈ h.elems, (replaces false spaceship n a b).1 = before a b :=
    fun n a ha b hb => replaces_less (hcompared.tells n a ha b hb)
  refine ⟨_, sort_tells hr hcompared.tells, hsorts, ?_, ?_, fun n hn => ⟨?_, ?_⟩⟩
  · cases hys : insertion before [] h.elems with
    | nil => exact extreme_empty false spaceship hr (hsorts.nil_of_nil hys)
    | cons m ys =>
      rw [hys] at hsorts
      obtain ⟨v, hanswers, hleads⟩ := extreme_leads hr (hsorts.leads horders).ne_nil horders hless
      rw [List.headD_cons, ← hleads.unique (hsorts.leads horders)]
      exact hanswers
  · cases hxs : h.elems with
    | nil => exact ⟨.nil, extreme_empty true spaceship hr hxs, fun _ => rfl, nofun⟩
    | cons v rest =>
      rw [← hxs]
      obtain ⟨v, hanswers, hleads⟩ := extreme_leads hr (by rw [hxs]; exact List.cons_ne_nil _ _) horders.flip hcompared.greater
      obtain ⟨hv, hgreatest⟩ := hleads.least horders.flip
      refine ⟨v, hanswers, fun hnil => ?_, fun last hlast => ?_⟩
      · exact absurd (hsorts.nil_of_nil hnil) (by rw [hxs]; exact List.cons_ne_nil _ _)
      · obtain ⟨hmem, hle⟩ := hsorts.last horders hlast
        exact ⟨hleads, hgreatest last hmem, hle v hv⟩
  · exact extremes_return false hr hcompared.tells hn
  · exact extremes_return true hr hcompared.tells hn

end

/-- A number compared with the others as floats are. -/
theorem extremes_law_of_three :
    ∃ ys, Returns (fun fuel => sort none bare.spaceship fuel 0) [{ elems := close_numbers 5, frozen := false }] (.list ys) ∧
      Answers (fun fuel => array_min bare.spaceship fuel 0 []) [{ elems := close_numbers 5, frozen := false }] (ys.headD .nil) ∧
      Returns (fun fuel => array_max bare.spaceship fuel 0 [.int 2]) [{ elems := close_numbers 5, frozen := false }]
        (.list (ys.reverse.take 2)) := by
  have hplain : Plain (close_numbers 5) := .numbers (by decide +kernel)
  obtain ⟨ys, hsort, -, hmin, -, htaken⟩ := @extremes_law bare.spaceship comes_before
    [{ elems := close_numbers 5, frozen := false }] 0 { elems := close_numbers 5, frozen := false } rfl hplain.compared
    hplain.weakOrder
  exact ⟨ys, hsort, hmin, (htaken 2 (by decide)).2⟩

end stoned.arrays
