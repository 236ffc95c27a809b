import Stoned.Keys

namespace stoned

/-! When structural equality is symmetric and transitive (value.h, val_equal). -/

/-- The arrays, hashes and ranges inside a value are nested less than `n` deep. -/
def KeyHeap.Within (heap : KeyHeap) : Nat → Value → Prop
  | 0, _ => False
  | n + 1, v =>
    match v with
    | .array array => ∀ elem ∈ heap.elems array, heap.Within n elem
    | .hash hash => ∀ pair ∈ (heap.hash hash).pairs, heap.Within n pair.1.value ∧ heap.Within n pair.2
    | .range begin_val end_val _ => heap.Within n begin_val ∧ heap.Within n end_val
    | _ => True

/-- Finite values, with all that is inside them, that can be told apart: no
float equals two integers, no hash holds one key twice, and hashes of one size
compare their keys in the same way. -/
structure KeyHeap.Orderly (heap : KeyHeap) (D : Value → Prop) : Prop where
  finite : ∀ v, D v → ∃ n, heap.Within n v
  elems : ∀ array, D (.array array) → ∀ elem ∈ heap.elems array, D elem
  pairs : ∀ hash, D (.hash hash) → ∀ pair ∈ (heap.hash hash).pairs, D pair.1.value ∧ D pair.2
  ends : ∀ begin_val end_val exclusive, D (.range begin_val end_val exclusive) → D begin_val ∧ D end_val
  one_integer : ∀ i j f, D (.int i) → D (.int j) → D (.float f) → (Double.of_int i == f) = true →
    (Double.of_int j == f) = true → i = j
  distinct : ∀ hash, D (.hash hash) → ∀ depth, (heap.hash hash).pairs.Pairwise fun p q =>
    heap.val_hash_key_equal depth (heap.hash hash).compare_by_identity p.1 q.1 ≠ some true
  one_mode : ∀ x y, D (.hash x) → D (.hash y) → (heap.hash x).pairs ≠ [] →
    (heap.hash x).pairs.length = (heap.hash y).pairs.length →
      (heap.hash x).compare_by_identity = (heap.hash y).compare_by_identity

/-- What a key is identified by, where it has an identity. -/
def HashKey.identity (key : HashKey) : Option Nat :=
  match key.value with
  | .object ref | .array ref | .hash ref | .klass ref => some ref
  | .string .. | .block .. => some key.address
  | _ => none

section
variable {equal : Value → Value → Option Bool} {D : Value → Prop}

theorem val_identity_equal_eq (a b : HashKey) :
    val_identity_equal equal a b =
      if a.value.kind = b.value.kind then
        if a.identity.isSome then some (decide (a.identity = b.identity)) else equal a.value b.value
      else some false := by
  obtain ⟨v, address⟩ := a
  obtain ⟨w, address'⟩ := b
  unfold val_identity_equal
  by_cases hkind : v.kind = w.kind
  · simp only [hkind, if_true]
    cases v <;> cases w <;> first | (cases hkind; done) | simp [HashKey.identity]
  · simp [hkind]

theorem identity_isSome {a b : HashKey} (hkind : a.value.kind = b.value.kind) :
    a.identity.isSome = b.identity.isSome := by
  obtain ⟨v, address⟩ := a
  obtain ⟨w, address'⟩ := b
  cases v <;> cases w <;> first | (cases hkind; done) | rfl

theorem val_identity_equal_iff {a b : HashKey} :
    val_identity_equal equal a b = some true ↔
      a.value.kind = b.value.kind ∧ a.identity = b.identity ∧
        (a.identity = none → equal a.value b.value = some true) := by
  rw [val_identity_equal_eq]
  by_cases hkind : a.value.kind = b.value.kind
  · have hsome := identity_isSome hkind
    cases ha : a.identity with
    | some x => simp [hkind]
    | none =>
      have hb : b.identity = none := by simpa [ha] using hsome.symm
      simp [hkind, hb]
  · simp [hkind]

/-- Identity is as orderly as the equality that it falls back on. -/
theorem key_equal_isPartialEquivalence (h : table.IsPartialEquivalence equal D) (compare_by_identity : Bool) :
    table.IsPartialEquivalence (key_equal equal compare_by_identity) fun key => D key.value := by
  cases compare_by_identity with
  | false =>
    exact ⟨fun a b => h.returns a.value b.value, fun a b => h.symm a.value b.value,
      fun a b c => h.trans a.value b.value c.value⟩
  | true =>
    have hidentity : key_equal equal true = val_identity_equal equal := rfl
    rw [hidentity]
    refine ⟨?_, ?_, ?_⟩
    · intro a b ha hb
      rw [val_identity_equal_eq]
      split
      · split
        · exact ⟨_, rfl⟩
        · exact h.returns _ _ ha hb
      · exact ⟨_, rfl⟩
    · intro a b ha hb hab
      obtain ⟨hkind, hsame, hequal⟩ := val_identity_equal_iff.mp hab
      exact val_identity_equal_iff.mpr ⟨hkind.symm, hsame.symm, fun hnone =>
        h.symm _ _ ha hb (hequal (hsame.trans hnone))⟩
    · intro a b c ha hb hc hab hbc
      obtain ⟨hkind, hsame, hequal⟩ := val_identity_equal_iff.mp hab
      obtain ⟨hkind', hsame', hequal'⟩ := val_identity_equal_iff.mp hbc
      exact val_identity_equal_iff.mpr ⟨hkind.trans hkind', hsame.trans hsame', fun hnone =>
        h.trans _ _ _ ha hb hc (hequal hnone) (hequal' (hsame.symm.trans hnone))⟩

theorem equal_elems_iff {pairs : List (Value × Value)} :
    equal_elems equal pairs = some true ↔ ∀ pair ∈ pairs, equal pair.1 pair.2 = some true := by
  induction pairs with
  | nil => simp [equal_elems]
  | cons pair pairs ih =>
    rw [List.forall_mem_cons, ← ih]
    cases hfirst : equal pair.1 pair.2 with
    | none => simp [equal_elems, hfirst]
    | some same => cases same <;> simp [equal_elems, hfirst]

theorem equal_elems_returns {pairs : List (Value × Value)} (h : ∀ pair ∈ pairs, ∃ same, equal pair.1 pair.2 = some same) :
    ∃ same, equal_elems equal pairs = some same := by
  induction pairs with
  | nil => exact ⟨true, rfl⟩
  | cons pair pairs ih =>
    obtain ⟨⟨same, hfirst⟩, hrest⟩ := List.forall_mem_cons.mp h
    cases same with
    | false => exact ⟨false, by simp [equal_elems, hfirst]⟩
    | true =>
      obtain ⟨same, hsame⟩ := ih hrest
      exact ⟨same, by simp [equal_elems, hfirst, hsame]⟩

theorem equal_pairs_iff {other : KeyedHash} {pairs : List (HashKey × Value)} :
    equal_pairs equal other pairs = some true ↔
      ∀ pair ∈ pairs, ∃ found, table.get (key_equal equal other.compare_by_identity) pair.1 other.pairs =
        some (some found) ∧ equal pair.2 found = some true := by
  induction pairs with
  | nil => simp [equal_pairs]
  | cons pair pairs ih =>
    rw [List.forall_mem_cons, ← ih, equal_pairs]
    cases hget : table.get (key_equal equal other.compare_by_identity) pair.1 other.pairs with
    | none => simp
    | some found =>
      cases found with
      | none => simp
      | some found =>
        cases hval : equal pair.2 found with
        | none => simp [hval]
        | some same => cases same <;> simp [hval]

theorem equal_pairs_returns {other : KeyedHash} {pairs : List (HashKey × Value)}
    (h : ∀ pair ∈ pairs, ∃ found, table.get (key_equal equal other.compare_by_identity) pair.1 other.pairs = some found ∧
      ∀ val, found = some val → ∃ same, equal pair.2 val = some same) :
    ∃ same, equal_pairs equal other pairs = some same := by
  induction pairs with
  | nil => exact ⟨true, rfl⟩
  | cons pair pairs ih =>
    obtain ⟨⟨found, hget, hval⟩, hrest⟩ := List.forall_mem_cons.mp h
    rw [equal_pairs, hget]
    cases found with
    | none => exact ⟨false, rfl⟩
    | some found =>
      obtain ⟨same, hsame⟩ := hval found rfl
      cases same with
      | false => exact ⟨false, by simp [hsame]⟩
      | true =>
        obtain ⟨same, hpairs⟩ := ih hrest
        exact ⟨same, by simp [hsame, hpairs]⟩

end

/-- Two values that a comparison with `n` more calls below it finds equal. -/
inductive KeyHeap.Agrees (heap : KeyHeap) (n : Nat) : Value → Value → Prop where
  | nil : heap.Agrees n .nil .nil
  | bool (b : Bool) : heap.Agrees n (.bool b) (.bool b)
  | int (i : Int64) : heap.Agrees n (.int i) (.int i)
  | int_float {i : Int64} {f : Double} (same : (.of_int i == f) = true) : heap.Agrees n (.int i) (.float f)
  | float_int {i : Int64} {f : Double} (same : (f == .of_int i) = true) : heap.Agrees n (.float f) (.int i)
  | float {f g : Double} (same : (f == g) = true) : heap.Agrees n (.float f) (.float g)
  | string (sval : String) (frozen frozen' : Bool) (enc enc' : StringEncodingTag) :
    heap.Agrees n (.string sval frozen enc) (.string sval frozen' enc')
  | symbol {s t : String} (same : c_string s = c_string t) : heap.Agrees n (.symbol s) (.symbol t)
  | klass (ref : Ref) : heap.Agrees n (.klass ref) (.klass ref)
  | object (ref : Ref) : heap.Agrees n (.object ref) (.object ref)
  | range {b b' e e' : Value} (exclusive : Bool) (begins : heap.val_equal n b b' = some true)
      (ends : heap.val_equal n e e' = some true) : heap.Agrees n (.range b e exclusive) (.range b' e' exclusive)
  | same_array (ref : Ref) : heap.Agrees n (.array ref) (.array ref)
  | array {x y : Ref}
      (elems : List.Forall₂ (fun v w => heap.val_equal n v w = some true) (heap.elems x) (heap.elems y)) :
      heap.Agrees n (.array x) (.array y)
  | same_hash (ref : Ref) : heap.Agrees n (.hash ref) (.hash ref)
  | hash {x y : Ref} (length : (heap.hash x).pairs.length = (heap.hash y).pairs.length)
      (found : ∀ pair ∈ (heap.hash x).pairs, ∃ val, table.get (key_equal (heap.val_equal n)
        (heap.hash y).compare_by_identity) pair.1 (heap.hash y).pairs = some (some val) ∧
          heap.val_equal n pair.2 val = some true) : heap.Agrees n (.hash x) (.hash y)

section
variable {heap : KeyHeap} {D : Value → Prop} {n : Nat}

attribute [local simp] KeyHeap.val_equal

theorem val_equal_range_iff {b b' e e' : Value} {exclusive exclusive' : Bool} :
    heap.val_equal (n + 1) (.range b e exclusive) (.range b' e' exclusive') = some true ↔
      exclusive = exclusive' ∧ heap.val_equal n b b' = some true ∧ heap.val_equal n e e' = some true := by
  rw [KeyHeap.val_equal]
  by_cases hexclusive : exclusive = exclusive'
  · rw [if_pos hexclusive]
    cases heap.val_equal n b b' with
    | none => simp
    | some same => cases same <;> simp [hexclusive]
  · simp [hexclusive]

theorem val_equal_array_iff {x y : Ref} :
    heap.val_equal (n + 1) (.array x) (.array y) = some true ↔
      x = y ∨ List.Forall₂ (fun v w => heap.val_equal n v w = some true) (heap.elems x) (heap.elems y) := by
  rw [KeyHeap.val_equal, List.forall₂_iff_zip]
  by_cases hsame : x = y
  · simp [hsame]
  · rw [if_neg hsame]
    by_cases hlength : (heap.elems x).length = (heap.elems y).length
    · rw [if_pos hlength, equal_elems_iff]
      simp [hsame, hlength]
    · simp [hsame, hlength]

theorem val_equal_hash_iff {x y : Ref} :
    heap.val_equal (n + 1) (.hash x) (.hash y) = some true ↔
      x = y ∨ (heap.hash x).pairs.length = (heap.hash y).pairs.length ∧
        ∀ pair ∈ (heap.hash x).pairs, ∃ val, table.get (key_equal (heap.val_equal n)
          (heap.hash y).compare_by_identity) pair.1 (heap.hash y).pairs = some (some val) ∧
            heap.val_equal n pair.2 val = some true := by
  rw [KeyHeap.val_equal]
  by_cases hsame : x = y
  · simp [hsame]
  · rw [if_neg hsame]
    by_cases hlength : (heap.hash x).pairs.length = (heap.hash y).pairs.length
    · rw [if_pos hlength, equal_pairs_iff]
      simp [hsame, hlength]
    · simp [hsame, hlength]

theorem KeyHeap.agrees_iff {a b : Value} : heap.Agrees n a b ↔ heap.val_equal (n + 1) a b = some true := by
  constructor
  · intro h
    cases h with
    | range exclusive begins ends => exact val_equal_range_iff.mpr ⟨rfl, begins, ends⟩
    | same_array => exact val_equal_array_iff.mpr (.inl rfl)
    | array elems => exact val_equal_array_iff.mpr (.inr elems)
    | same_hash => exact val_equal_hash_iff.mpr (.inl rfl)
    | hash length found => exact val_equal_hash_iff.mpr (.inr ⟨length, found⟩)
    | int_float same | float_int same | float same => rw [KeyHeap.val_equal, same]
    | symbol same => simp [KeyHeap.val_equal, same]
    | _ => simp [KeyHeap.val_equal]
  · intro h
    unfold KeyHeap.val_equal at h
    split at h
    · exact .int_float (Option.some.inj h)
    · exact .float_int (Option.some.inj h)
    · exact .nil
    · exact decide_eq_true_iff.mp (Option.some.inj h) ▸ .bool _
    · exact decide_eq_true_iff.mp (Option.some.inj h) ▸ .int _
    · exact .float (Option.some.inj h)
    · exact decide_eq_true_iff.mp (Option.some.inj h) ▸ .string _ _ _ _ _
    · exact .symbol (decide_eq_true_iff.mp (Option.some.inj h))
    · exact decide_eq_true_iff.mp (Option.some.inj h) ▸ .klass _
    · exact decide_eq_true_iff.mp (Option.some.inj h) ▸ .object _
    · obtain ⟨rfl, hbegins, hends⟩ := val_equal_range_iff.mp h
      exact .range _ hbegins hends
    · obtain rfl | helems := val_equal_array_iff.mp h
      · exact .same_array _
      · exact .array helems
    · obtain rfl | ⟨hlength, hfound⟩ := val_equal_hash_iff.mp h
      · exact .same_hash _
      · exact .hash hlength hfound
    · cases h

theorem forall₂_symm {R : Value → Value → Prop} {xs ys : List Value}
    (h : ∀ x ∈ xs, ∀ y ∈ ys, R x y → R y x) (hxy : List.Forall₂ R xs ys) : List.Forall₂ R ys xs := by
  induction hxy with
  | nil => exact .nil
  | cons hfirst _ ih =>
    refine .cons (h _ List.mem_cons_self _ List.mem_cons_self hfirst) (ih fun x hx y hy => ?_)
    exact h x (List.mem_cons_of_mem _ hx) y (List.mem_cons_of_mem _ hy)

theorem forall₂_trans {R : Value → Value → Prop} {xs ys zs : List Value}
    (h : ∀ x ∈ xs, ∀ y ∈ ys, ∀ z ∈ zs, R x y → R y z → R x z) (hxy : List.Forall₂ R xs ys)
    (hyz : List.Forall₂ R ys zs) : List.Forall₂ R xs zs := by
  induction hxy generalizing zs with
  | nil =>
    cases hyz
    exact .nil
  | cons hfirst _ ih =>
    cases hyz with
    | cons hfirst' hrest' =>
      refine .cons (h _ List.mem_cons_self _ List.mem_cons_self _ List.mem_cons_self hfirst hfirst') (ih ?_ hrest')
      intro x hx y hy z hz
      exact h x (List.mem_cons_of_mem _ hx) y (List.mem_cons_of_mem _ hy) z (List.mem_cons_of_mem _ hz)

/-- The values of a domain that are nested less than `n` deep. -/
def KeyHeap.Level (heap : KeyHeap) (D : Value → Prop) (n : Nat) (v : Value) : Prop := D v ∧ heap.Within n v

section
variable (h : heap.Orderly D)
include h

theorem level_elems {ref : Ref} (hlevel : heap.Level D (n + 1) (.array ref)) :
    ∀ elem ∈ heap.elems ref, heap.Level D n elem := fun elem hmem =>
  ⟨h.elems ref hlevel.1 elem hmem, hlevel.2 elem hmem⟩

theorem level_pairs {ref : Ref} (hlevel : heap.Level D (n + 1) (.hash ref)) :
    ∀ pair ∈ (heap.hash ref).pairs, heap.Level D n pair.1.value ∧ heap.Level D n pair.2 := fun pair hmem =>
  ⟨⟨(h.pairs ref hlevel.1 pair hmem).1, (hlevel.2 pair hmem).1⟩,
    ⟨(h.pairs ref hlevel.1 pair hmem).2, (hlevel.2 pair hmem).2⟩⟩

theorem level_ends {b e : Value} {exclusive : Bool} (hlevel : heap.Level D (n + 1) (.range b e exclusive)) :
    heap.Level D n b ∧ heap.Level D n e :=
  ⟨⟨(h.ends b e exclusive hlevel.1).1, hlevel.2.1⟩, ⟨(h.ends b e exclusive hlevel.1).2, hlevel.2.2⟩⟩

variable (ih : table.IsPartialEquivalence (heap.val_equal n) (heap.Level D n))
include ih

theorem val_equal_returns {a b : Value} (ha : heap.Level D (n + 1) a) (hb : heap.Level D (n + 1) b) :
    ∃ same, heap.val_equal (n + 1) a b = some same := by
  cases a <;> cases b <;> try exact ⟨_, rfl⟩
  case range.range =>
    obtain ⟨hbegin, hend⟩ := level_ends h ha
    obtain ⟨hbegin', hend'⟩ := level_ends h hb
    obtain ⟨begins, hbegins⟩ := ih.returns _ _ hbegin hbegin'
    obtain ⟨ends, hends⟩ := ih.returns _ _ hend hend'
    rw [KeyHeap.val_equal, hbegins]
    split
    · cases begins with
      | false => exact ⟨false, rfl⟩
      | true => exact ⟨ends, hends⟩
    · exact ⟨false, rfl⟩
  case array.array x y =>
    rw [KeyHeap.val_equal]
    split
    · exact ⟨true, rfl⟩
    · split
      · refine equal_elems_returns fun pair hpair => ?_
        obtain ⟨hx, hy⟩ := List.of_mem_zip hpair
        exact ih.returns _ _ (level_elems h ha _ hx) (level_elems h hb _ hy)
      · exact ⟨false, rfl⟩
  case hash.hash x y =>
    have hkeys := key_equal_isPartialEquivalence ih (heap.hash y).compare_by_identity
    rw [KeyHeap.val_equal]
    split
    · exact ⟨true, rfl⟩
    · split
      · refine equal_pairs_returns fun pair hpair => ?_
        obtain ⟨hkey, hval⟩ := level_pairs h ha pair hpair
        obtain ⟨found, hfound⟩ := hkeys.get_returns hkey fun other hother => (level_pairs h hb other hother).1
        refine ⟨found, hfound, ?_⟩
        rintro val rfl
        obtain ⟨stored, hmem, _⟩ := table.mem_of_get hfound
        exact ih.returns _ _ hval (level_pairs h hb _ hmem).2
      · exact ⟨false, rfl⟩

theorem agrees_hash_symm {x y : Ref} (hx : heap.Level D (n + 1) (.hash x)) (hy : heap.Level D (n + 1) (.hash y))
    (length : (heap.hash x).pairs.length = (heap.hash y).pairs.length)
    (found : ∀ pair ∈ (heap.hash x).pairs, ∃ val, table.get (key_equal (heap.val_equal n)
      (heap.hash y).compare_by_identity) pair.1 (heap.hash y).pairs = some (some val) ∧
        heap.val_equal n pair.2 val = some true) : heap.Agrees n (.hash y) (.hash x) := by
  refine .hash length.symm fun pair' hmem' => ?_
  have hnonempty : (heap.hash x).pairs ≠ [] := by
    intro hempty
    rw [hempty, List.length_nil] at length
    rw [List.length_eq_zero_iff.mp length.symm] at hmem'
    cases hmem'
  have hmode := h.one_mode x y hx.1 hy.1 hnonempty length
  rw [← hmode] at found
  have hkeys := key_equal_isPartialEquivalence ih (heap.hash x).compare_by_identity
  have hxkeys := fun pair hmem => (level_pairs h hx pair hmem).1
  have hykeys := fun pair hmem => (level_pairs h hy pair hmem).1
  have hdistinct := h.distinct x hx.1 n
  obtain ⟨pair, hmem, hequal, hval⟩ :=
    hkeys.found_all (R := fun v w => heap.val_equal n v w = some true) hxkeys hykeys hdistinct found (Nat.le_of_eq length.symm) pair' hmem'
  refine ⟨pair.2, ?_, ?_⟩
  · have hback := hkeys.symm _ _ (hykeys pair' hmem') (hxkeys pair hmem) hequal
    exact hkeys.get_of_mem (hykeys pair' hmem') hxkeys hdistinct hmem hback
  · exact ih.symm _ _ (level_pairs h hx pair hmem).2 (level_pairs h hy pair' hmem').2 hval

theorem agrees_symm {a b : Value} (ha : heap.Level D (n + 1) a) (hb : heap.Level D (n + 1) b)
    (hab : heap.Agrees n a b) : heap.Agrees n b a := by
  cases hab with
  | nil => exact .nil
  | bool b => exact .bool b
  | int i => exact .int i
  | int_float same => exact .float_int (Double.beq_symm same)
  | float_int same => exact .int_float (Double.beq_symm same)
  | float same => exact .float (Double.beq_symm same)
  | string sval frozen frozen' enc enc' => exact .string sval frozen' frozen enc' enc
  | symbol same => exact .symbol same.symm
  | klass ref => exact .klass ref
  | object ref => exact .object ref
  | range exclusive begins ends =>
    obtain ⟨hbegin, hend⟩ := level_ends h ha
    obtain ⟨hbegin', hend'⟩ := level_ends h hb
    exact .range exclusive (ih.symm _ _ hbegin hbegin' begins) (ih.symm _ _ hend hend' ends)
  | same_array ref => exact .same_array ref
  | array elems =>
    exact .array (forall₂_symm (fun v hv w hw => ih.symm v w (level_elems h ha v hv) (level_elems h hb w hw)) elems)
  | same_hash ref => exact .same_hash ref
  | hash length found => exact agrees_hash_symm h ih ha hb length found

theorem agrees_hash_trans {x y z : Ref} (hx : heap.Level D (n + 1) (.hash x)) (hy : heap.Level D (n + 1) (.hash y))
    (hz : heap.Level D (n + 1) (.hash z)) (hxy : heap.Agrees n (.hash x) (.hash y))
    (hyz : heap.Agrees n (.hash y) (.hash z)) : heap.Agrees n (.hash x) (.hash z) := by
  cases hxy with
  | same_hash => exact hyz
  | hash length found =>
    cases hyz with
    | same_hash => exact .hash length found
    | hash length' found' =>
      refine .hash (length.trans length') fun pair hmem => ?_
      have hnonempty : (heap.hash y).pairs ≠ [] := by
        intro hempty
        rw [hempty, List.length_nil] at length
        rw [List.length_eq_zero_iff.mp length] at hmem
        cases hmem
      rw [← h.one_mode y z hy.1 hz.1 hnonempty length'] at found' ⊢
      have hkeys := key_equal_isPartialEquivalence ih (heap.hash y).compare_by_identity
      have hzkeys := fun pair hmem => (level_pairs h hz pair hmem).1
      obtain ⟨hkey, hval⟩ := level_pairs h hx pair hmem
      obtain ⟨val, hget, hequal⟩ := found pair hmem
      obtain ⟨stored, hstored, hsame⟩ := table.mem_of_get hget
      obtain ⟨hkey', hval'⟩ := level_pairs h hy _ hstored
      obtain ⟨val', hget', hequal'⟩ := found' _ hstored
      obtain ⟨stored', hstored', _⟩ := table.mem_of_get hget'
      refine ⟨val', ?_, ?_⟩
      · rw [← hget']
        exact (hkeys.get_congr hkey' hkey hsame hzkeys).symm
      · exact ih.trans _ _ _ hval hval' (level_pairs h hz _ hstored').2 hequal hequal'

theorem agrees_trans {a b c : Value} (ha : heap.Level D (n + 1) a) (hb : heap.Level D (n + 1) b)
    (hc : heap.Level D (n + 1) c) (hab : heap.Agrees n a b) (hbc : heap.Agrees n b c) : heap.Agrees n a c := by
  cases hab with
  | nil | bool | int | klass | object | same_array | same_hash => exact hbc
  | int_float same =>
    cases hbc with
    | float_int same' =>
      obtain rfl := h.one_integer _ _ _ ha.1 hc.1 hb.1 same (Double.beq_symm same')
      exact .int _
    | float same' => exact .int_float (Double.beq_trans same same')
  | float_int same =>
    cases hbc with
    | int => exact .float_int same
    | int_float same' => exact .float (Double.beq_trans same same')
  | float same =>
    cases hbc with
    | float_int same' => exact .float_int (Double.beq_trans same same')
    | float same' => exact .float (Double.beq_trans same same')
  | string => cases hbc; exact .string _ _ _ _ _
  | symbol same =>
    cases hbc with
    | symbol same' => exact .symbol (same.trans same')
  | range exclusive begins ends =>
    cases hbc with
    | range _ begins' ends' =>
      obtain ⟨hbegin, hend⟩ := level_ends h ha
      obtain ⟨hbegin', hend'⟩ := level_ends h hb
      obtain ⟨hbegin'', hend''⟩ := level_ends h hc
      exact .range exclusive (ih.trans _ _ _ hbegin hbegin' hbegin'' begins begins')
        (ih.trans _ _ _ hend hend' hend'' ends ends')
  | array elems =>
    cases hbc with
    | same_array => exact .array elems
    | array elems' =>
      refine .array (forall₂_trans (fun v hv w hw u hu => ?_) elems elems')
      exact ih.trans v w u (level_elems h ha v hv) (level_elems h hb w hw) (level_elems h hc u hu)
  | hash length found =>
    cases hbc with
    | same_hash => exact .hash length found
    | hash length' found' => exact agrees_hash_trans h ih ha hb hc (.hash length found) (.hash length' found')

end

/-- Structural equality on the values of a domain up to a depth. -/
theorem val_equal_isPartialEquivalence (h : heap.Orderly D) (n : Nat) :
    table.IsPartialEquivalence (heap.val_equal n) (heap.Level D n) := by
  induction n with
  | zero => exact ⟨fun _ _ ha => absurd ha.2 id, fun _ _ ha => absurd ha.2 id, fun _ _ _ ha => absurd ha.2 id⟩
  | succ n ih =>
    refine ⟨fun a b ha hb => val_equal_returns h ih ha hb, ?_, ?_⟩
    · intro a b ha hb hab
      exact heap.agrees_iff.mp (agrees_symm h ih ha hb (heap.agrees_iff.mpr hab))
    · intro a b c ha hb hc hab hbc
      exact heap.agrees_iff.mp (agrees_trans h ih ha hb hc (heap.agrees_iff.mpr hab) (heap.agrees_iff.mpr hbc))

theorem KeyHeap.Within.succ {v : Value} (hv : heap.Within n v) : heap.Within (n + 1) v := by
  induction n generalizing v with
  | zero => exact hv.elim
  | succ n ih =>
    cases v with
    | array => exact fun elem hmem => ih (hv elem hmem)
    | hash => exact fun pair hmem => ⟨ih (hv pair hmem).1, ih (hv pair hmem).2⟩
    | range => exact ⟨ih hv.1, ih hv.2⟩
    | _ => trivial

theorem KeyHeap.Within.mono {v : Value} {m : Nat} (hv : heap.Within n v) (hle : n ≤ m) : heap.Within m v := by
  induction hle with
  | refl => exact hv
  | step _ ih => exact ih.succ

end

/-- Equality is symmetric and transitive on finite values that can be told
apart, and comparing them returns. -/
theorem val_equal_symm_and_trans (heap : KeyHeap) (D : Value → Prop) (h : heap.Orderly D) (a b c : Value)
    (ha : D a) (hb : D b) (hc : D c) :
    ∃ enough, ∀ depth, enough ≤ depth →
      (∃ same, heap.val_equal depth a b = some same ∧ heap.val_equal depth b a = some same) ∧
      (heap.val_equal depth a b = some true → heap.val_equal depth b c = some true →
        heap.val_equal depth a c = some true) := by
  obtain ⟨n, hn⟩ := h.finite a ha
  obtain ⟨m, hm⟩ := h.finite b hb
  obtain ⟨k, hk⟩ := h.finite c hc
  refine ⟨max n (max m k), fun depth hdepth => ?_⟩
  have hequal := val_equal_isPartialEquivalence h depth
  have hla : heap.Level D depth a := ⟨ha, hn.mono (by omega)⟩
  have hlb : heap.Level D depth b := ⟨hb, hm.mono (by omega)⟩
  have hlc : heap.Level D depth c := ⟨hc, hk.mono (by omega)⟩
  obtain ⟨same, hsame⟩ := hequal.returns a b hla hlb
  exact ⟨⟨same, hsame, hequal.same_order hla hlb ▸ hsame⟩, hequal.trans a b c hla hlb hlc⟩

/-- A hash that holds the key "x" twice, by identity, and one that compares by
value; then the integers 2^53 and 2^53 + 1 and the float between them. -/
def mixed_heap : KeyHeap where
  arrays := []
  hashes := [
    { pairs := [(⟨val_string "x", 0⟩, .int 1), (⟨val_string "x", 1⟩, .int 1)], compare_by_identity := true },
    { pairs := [(⟨val_string "x", 2⟩, .int 1), (⟨val_string "y", 3⟩, .int 1)], compare_by_identity := false }]

/-- Neither symmetric nor transitive in general. -/
theorem val_equal_not_symm_nor_trans :
    (mixed_heap.val_equal 2 (.hash 0) (.hash 1) = some true ∧ mixed_heap.val_equal 2 (.hash 1) (.hash 0) = some false) ∧
    mixed_heap.val_equal 1 (.int 9007199254740992) (.float ⟨0x4340000000000000⟩) = some true ∧
    mixed_heap.val_equal 1 (.float ⟨0x4340000000000000⟩) (.int 9007199254740993) = some true ∧
    mixed_heap.val_equal 1 (.int 9007199254740992) (.int 9007199254740993) = some false := by
  decide +kernel

/-- Two hashes of the integer 1 and the float 1.0, in both orders. -/
def one_heap : KeyHeap where
  arrays := []
  hashes := [
    { pairs := [(⟨.int 1, 0⟩, .nil), (⟨.nil, 0⟩, .int 1)], compare_by_identity := false },
    { pairs := [(⟨.nil, 0⟩, .float (.of_int 1)), (⟨.float (.of_int 1), 0⟩, .nil)], compare_by_identity := false }]

theorem one_heap_orderly :
    one_heap.Orderly fun v => v = .hash 0 ∨ v = .hash 1 ∨ v = .int 1 ∨ v = .float (.of_int 1) ∨ v = .nil where
  finite := by
    refine fun v hv => ⟨2, ?_⟩
    rcases hv with rfl | rfl | rfl | rfl | rfl
    · simp [KeyHeap.Within, KeyHeap.hash, one_heap]
    · simp [KeyHeap.Within, KeyHeap.hash, one_heap]
    all_goals trivial
  elems := by simp
  pairs := by
    intro hash hhash
    rcases hhash with hhash | hhash | hhash | hhash | hhash <;> cases hhash
    · simp [KeyHeap.hash, one_heap]
    · simp [KeyHeap.hash, one_heap]
  ends := by simp
  one_integer := by
    intro i j f hi hj _ _ _
    simp only [reduceCtorEq, Value.int.injEq, false_or, or_false] at hi hj
    exact hi.trans hj.symm
  distinct := by
    intro hash hhash depth
    rcases hhash with hhash | hhash | hhash | hhash | hhash <;> cases hhash
    · cases depth <;> simp [KeyHeap.hash, one_heap, KeyHeap.val_hash_key_equal, key_equal, KeyHeap.val_equal]
    · cases depth <;> simp [KeyHeap.hash, one_heap, KeyHeap.val_hash_key_equal, key_equal, KeyHeap.val_equal]
  one_mode := by
    intro x y hx hy _ _
    rcases hx with hx | hx | hx | hx | hx <;> cases hx <;>
      rcases hy with hy | hy | hy | hy | hy <;> cases hy <;> rfl

theorem val_equal_symm_and_trans_one :
    one_heap.val_equal 2 (.hash 0) (.hash 1) = some true ∧
    ∃ enough, ∀ depth, enough ≤ depth →
      (∃ same, one_heap.val_equal depth (.hash 0) (.hash 1) = some same ∧
        one_heap.val_equal depth (.hash 1) (.hash 0) = some same) ∧
      (one_heap.val_equal depth (.hash 0) (.hash 1) = some true →
        one_heap.val_equal depth (.hash 1) (.hash 0) = some true →
          one_heap.val_equal depth (.hash 0) (.hash 0) = some true) :=
  ⟨by decide +kernel, val_equal_symm_and_trans one_heap _ one_heap_orderly (.hash 0) (.hash 1) (.hash 0)
    (.inl rfl) (.inr (.inl rfl)) (.inl rfl)⟩

end stoned
