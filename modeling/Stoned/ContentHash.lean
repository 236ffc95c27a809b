import Stoned.EqualLaw

namespace stoned

/-! The hash codes of values (eval_dispatch.c, val_content_hash) against their
equality. -/

/-- A value as memory holds it. The word is the pointer of a text, a range, a
method, a proc or a signal; of a boolean it is the half that `bval` leaves as it
was. -/
structure Cell where
  value : Value
  word : UInt64

structure CellHash where
  pairs : List (Cell × Cell)
  compare_by_identity : Bool

/-- Where arrays, hashes, classes and objects are and what the first two hold. -/
structure Memory where
  arrays : List (List Cell)
  hashes : List CellHash
  klass_address : Ref → UInt64
  object_address : Ref → UInt64

namespace Memory

def elems (memory : Memory) (array : Ref) : List Cell := (memory.arrays[array]?).getD []

def hash (memory : Memory) (hash : Ref) : CellHash :=
  (memory.hashes[hash]?).getD { pairs := [], compare_by_identity := false }

/-- What comparisons see of memory. -/
def keyHeap (memory : Memory) : KeyHeap where
  arrays := memory.arrays.map (·.map Cell.value)
  hashes := memory.hashes.map fun hash => {
    pairs := hash.pairs.map fun pair => (⟨pair.1.value, pair.1.word.toNat⟩, pair.2.value)
    compare_by_identity := hash.compare_by_identity }

def mix (h x : UInt64) : UInt64 := (h ^^^ x) * 1099511628211

def mix_text (h : UInt64) (sval : String) : UInt64 :=
  (c_string sval).toList.foldl (fun h c => mix h c.toNat.toUInt8.toUInt64) h

/-- The hash code of a value, `level` levels above the one that counts as 0. Of
the two statements of the source's macro only the first is repeated for the
elements of an array. -/
def content_hash (memory : Memory) : Nat → Cell → UInt64
  | 0, _ => 0
  | level + 1, v =>
    let h : UInt64 := 14695981039346656037
    let mixed : UInt64 := match v.value with
      | .nil => mix h 1
      | .bool bval => mix h (if bval || v.word ≠ 0 then 3 else 5)
      | .int ival => mix h ival.toUInt64
      | .float fval => mix h fval.bits
      | .string sval .. => mix_text (mix h 4) sval
      | .symbol sval => mix_text (mix h 5) sval
      | .array array =>
        (memory.elems array).foldl (fun h elem => h ^^^ memory.content_hash level elem) (mix h 100) * 1099511628211
      | .hash hash =>
        (memory.hash hash).pairs.foldl
          (fun h pair => mix (mix h (memory.content_hash level pair.1)) (memory.content_hash level pair.2)) (mix h 200)
      | .klass klass => mix h (memory.klass_address klass)
      | .object obj => mix h (memory.object_address obj)
      | _ => mix h v.word
    mixed >>> 1

def val_content_hash (memory : Memory) (v : Cell) (depth : Nat) : UInt64 := memory.content_hash (17 - depth) v

/-- Comparing two values returns that they are equal. -/
def Equal (memory : Memory) (a b : Cell) : Prop := ∃ depth, memory.keyHeap.val_equal depth a.value b.value = some true

/-- Two values differ in nothing that equality overlooks and hash codes do not:
no integer stands for a float, no zero for the other one, no range for its copy,
and hashes hold their pairs in the same order. -/
def Alike (memory : Memory) : Nat → Cell → Cell → Prop
  | 0, _, _ => True
  | level + 1, a, b =>
    match a.value, b.value with
    | .int _, .float _ | .float _, .int _ => False
    | .bool _, .bool _ => a.word = 0 ↔ b.word = 0
    | .float f, .float g => f = g
    | .range .., .range .. => a.word = b.word
    | .array x, .array y => x = y ∨ List.Forall₂ (memory.Alike level) (memory.elems x) (memory.elems y)
    | .hash x, .hash y => x = y ∨ List.Forall₂ (fun p q => (memory.Equal p.1 q.1 ∧ memory.Alike level p.1 q.1) ∧
        memory.Equal p.2 q.2 ∧ memory.Alike level p.2 q.2) (memory.hash x).pairs (memory.hash y).pairs
    | _, _ => True

theorem keyHeap_elems (memory : Memory) (array : Ref) :
    memory.keyHeap.elems array = (memory.elems array).map Cell.value := by
  simp only [KeyHeap.elems, keyHeap, elems, List.getElem?_map]
  cases memory.arrays[array]? <;> rfl

theorem mix_text_congr {s t : String} (h : UInt64) (hst : c_string s = c_string t) : mix_text h s = mix_text h t := by
  rw [mix_text, mix_text, hst]

/-- Folding what is the same for both of two lists comes to the same. -/
theorem foldl_congr {α β : Type} {R : α → α → Prop} {f : β → α → β} {xs ys : List α} (hxy : List.Forall₂ R xs ys)
    (h : ∀ acc x y, R x y → f acc x = f acc y) (acc : β) : xs.foldl f acc = ys.foldl f acc := by
  induction hxy generalizing acc with
  | nil => rfl
  | cons hfirst _ ih => rw [List.foldl_cons, List.foldl_cons, h acc _ _ hfirst, ih]

/-- Equal elements in order, each alike. -/
theorem forall₂_equal_alike {memory : Memory} {n level : Nat} {xs ys : List Cell}
    (hequal : List.Forall₂ (fun v w => memory.keyHeap.val_equal n v w = some true) (xs.map Cell.value)
      (ys.map Cell.value)) (halike : List.Forall₂ (memory.Alike level) xs ys) :
    List.Forall₂ (fun v w => memory.Equal v w ∧ memory.Alike level v w) xs ys := by
  induction halike with
  | nil => exact .nil
  | cons hfirst _ ih =>
    obtain _ | ⟨hequal, hrest⟩ := hequal
    exact .cons ⟨⟨n, hequal⟩, hfirst⟩ (ih hrest)

/-- Equal values that are alike have the same hash code, at every level. -/
theorem content_hash_eq (memory : Memory) (level : Nat) {a b : Cell} (hequal : memory.Equal a b)
    (halike : memory.Alike level a b) : memory.content_hash level a = memory.content_hash level b := by
  induction level generalizing a b with
  | zero => rfl
  | succ level ih =>
    obtain ⟨depth, hequal⟩ := hequal
    obtain _ | depth := depth
    · cases hequal
    obtain ⟨v, word⟩ := a
    obtain ⟨w, word'⟩ := b
    have hagrees := KeyHeap.agrees_iff.mpr hequal
    simp only at hagrees
    cases hagrees with
    | nil | int | klass | object | string | same_array | same_hash => rfl
    | bool bval =>
      simp only [Alike] at halike
      simp only [content_hash, ne_eq, halike]
    | int_float | float_int => exact halike.elim
    | float =>
      simp only [Alike] at halike
      rw [content_hash, content_hash, halike]
    | symbol same => simp only [content_hash, mix_text_congr _ same]
    | range =>
      simp only [Alike] at halike
      simp only [content_hash, halike]
    | @array x y elems =>
      simp only [Alike] at halike
      obtain rfl | halike := halike
      · rfl
      · rw [keyHeap_elems, keyHeap_elems] at elems
        have hboth := forall₂_equal_alike elems halike
        have hfold := foldl_congr hboth (f := fun h elem => h ^^^ memory.content_hash level elem) (fun acc v w hvw => by
          rw [ih hvw.1 hvw.2]) (mix 14695981039346656037 100)
        simp only [content_hash, hfold]
    | @hash x y length found =>
      simp only [Alike] at halike
      obtain rfl | halike := halike
      · rfl
      · have hfold := foldl_congr halike
          (f := fun h pair => mix (mix h (memory.content_hash level pair.1)) (memory.content_hash level pair.2))
          (fun acc p q hpq => by rw [ih hpq.1.1 hpq.1.2, ih hpq.2.1 hpq.2.2]) (mix 14695981039346656037 200)
        simp only [content_hash, hfold]

/-- Equal values that are alike as deep as the hash code looks have the same hash
code. -/
theorem val_content_hash_eq (memory : Memory) (a b : Cell) (hequal : memory.Equal a b)
    (halike : memory.Alike 17 a b) :
    memory.val_content_hash a 0 = memory.val_content_hash b 0 :=
  memory.content_hash_eq 17 hequal halike

/-- `[{1 => "x", 3 => -0.0}]`, twice. -/
def nested_memory : Memory where
  arrays := [[⟨.hash 0, 0⟩], [⟨.hash 1, 0⟩]]
  hashes := [
    { pairs := [(⟨.int 1, 0⟩, ⟨val_string "x", 8⟩), (⟨.int 3, 0⟩, ⟨.float ⟨0x8000000000000000⟩, 0⟩)]
      compare_by_identity := false },
    { pairs := [(⟨.int 1, 0⟩, ⟨val_string "x", 16⟩), (⟨.int 3, 0⟩, ⟨.float ⟨0x8000000000000000⟩, 0⟩)]
      compare_by_identity := false }]
  klass_address _ := 0
  object_address _ := 0

theorem val_content_hash_eq_nested :
    nested_memory.val_content_hash ⟨.array 0, 0⟩ 0 = nested_memory.val_content_hash ⟨.array 1, 0⟩ 0 :=
  nested_memory.val_content_hash_eq ⟨.array 0, 0⟩ ⟨.array 1, 0⟩ ⟨3, by decide +kernel⟩
    (.inr (.cons (.inr (.cons ⟨⟨⟨1, by decide⟩, trivial⟩, ⟨1, by decide⟩, trivial⟩
      (.cons ⟨⟨⟨1, by decide⟩, trivial⟩, ⟨1, by decide +kernel⟩, rfl⟩ .nil))) .nil))

/-- `{1 => 2, 3 => 4}` and `{3 => 4, 1 => 2}`, `0.0` and `-0.0`, `[1]` and
`[1.0]`, and two ranges `1..2`. -/
def pairs_memory : Memory where
  arrays := [[⟨.int 1, 0⟩], [⟨.float (.of_int 1), 0⟩]]
  hashes := [
    { pairs := [(⟨.int 1, 0⟩, ⟨.int 2, 0⟩), (⟨.int 3, 0⟩, ⟨.int 4, 0⟩)], compare_by_identity := false },
    { pairs := [(⟨.int 3, 0⟩, ⟨.int 4, 0⟩), (⟨.int 1, 0⟩, ⟨.int 2, 0⟩)], compare_by_identity := false }]
  klass_address _ := 0
  object_address _ := 0

/-- Values that are equal and have different hash codes. -/
theorem val_content_hash_differs :
    (pairs_memory.Equal ⟨.hash 0, 0⟩ ⟨.hash 1, 0⟩ ∧
      pairs_memory.val_content_hash ⟨.hash 0, 0⟩ 0 ≠ pairs_memory.val_content_hash ⟨.hash 1, 0⟩ 0) ∧
    (pairs_memory.Equal ⟨.array 0, 0⟩ ⟨.array 1, 0⟩ ∧
      pairs_memory.val_content_hash ⟨.array 0, 0⟩ 0 ≠ pairs_memory.val_content_hash ⟨.array 1, 0⟩ 0) ∧
    (pairs_memory.Equal ⟨.float ⟨0⟩, 0⟩ ⟨.float ⟨0x8000000000000000⟩, 0⟩ ∧
      pairs_memory.val_content_hash ⟨.float ⟨0⟩, 0⟩ 0 ≠
        pairs_memory.val_content_hash ⟨.float ⟨0x8000000000000000⟩, 0⟩ 0) ∧
    pairs_memory.Equal ⟨.range (.int 1) (.int 2) false, 8⟩ ⟨.range (.int 1) (.int 2) false, 16⟩ ∧
      pairs_memory.val_content_hash ⟨.range (.int 1) (.int 2) false, 8⟩ 0 ≠
        pairs_memory.val_content_hash ⟨.range (.int 1) (.int 2) false, 16⟩ 0 :=
  ⟨⟨⟨2, by decide +kernel⟩, by decide +kernel⟩, ⟨⟨2, by decide +kernel⟩, by decide +kernel⟩,
    ⟨⟨1, by decide +kernel⟩, by decide +kernel⟩, ⟨2, by decide +kernel⟩, by decide +kernel⟩

end Memory

end stoned
