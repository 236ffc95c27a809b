import Stoned.Keys
import Stoned.Ast

namespace stoned

/-! When a hash is a map. -/

/-- The values that are equal to themselves. No comparison knows methods, procs
and signals. -/
def Value.equals_itself : Value → Bool
  | .float f => f == f
  | .range begin_val end_val _ => begin_val.equals_itself && end_val.equals_itself
  | .method .. | .undef_method | .block .. | .exception | .ret .. | .brk _ | .next _ | .retry | .throw .. => false
  | _ => true

/-- By identity a proc is itself. -/
def HashKey.equals_itself (compare_by_identity : Bool) (key : HashKey) : Bool :=
  key.value.equals_itself || (compare_by_identity && key.value.kind = .block)

/-- The keys of a domain are equal to themselves, and comparing them returns and
is symmetric and transitive. -/
structure Comparable (heap : KeyHeap) (depth : Nat) (compare_by_identity : Bool) (D : HashKey → Prop) : Prop where
  returns : ∀ a b, D a → D b → ∃ same, heap.val_hash_key_equal depth compare_by_identity a b = some same
  themselves : ∀ a, D a → a.equals_itself compare_by_identity = true
  symm : ∀ a b, D a → D b → heap.val_hash_key_equal depth compare_by_identity a b = some true →
    heap.val_hash_key_equal depth compare_by_identity b a = some true
  trans : ∀ a b c, D a → D b → D c → heap.val_hash_key_equal depth compare_by_identity a b = some true →
    heap.val_hash_key_equal depth compare_by_identity b c = some true →
      heap.val_hash_key_equal depth compare_by_identity a c = some true

/-- The hashes that sets and deletes of keys of a domain make of a new one. -/
inductive Made (heap : KeyHeap) (depth : Nat) (compare_by_identity : Bool) (D : HashKey → Prop) : KeyedHash → Prop where
  | new : Made heap depth compare_by_identity D { pairs := [], compare_by_identity }
  | set {hash hash' : KeyedHash} {key : HashKey} (val : Value) (before : Made heap depth compare_by_identity D hash)
      (mem : D key) (sets : heap.val_hash_set depth hash key val = some hash') :
      Made heap depth compare_by_identity D hash'
  | delete {hash hash' : KeyedHash} {key : HashKey} (before : Made heap depth compare_by_identity D hash)
      (mem : D key) (deletes : heap.val_hash_delete depth hash key = some hash') :
      Made heap depth compare_by_identity D hash'

section
variable {heap : KeyHeap} {depth : Nat} {compare_by_identity : Bool} {D : HashKey → Prop} {hash : KeyedHash}

/-- A comparison of a value with itself that returns tells whether it is equal
to itself. -/
theorem val_equal_self {v : Value} {same : Bool} (h : heap.val_equal depth v v = some same) :
    same = v.equals_itself := by
  induction depth generalizing v same with
  | zero => cases h
  | succ depth ih =>
    cases v with
    | range begin_val end_val exclusive =>
      simp only [KeyHeap.val_equal, if_true] at h
      obtain ⟨begin_same, hbegin, h⟩ := Option.bind_eq_some_iff.mp h
      rw [Value.equals_itself, ← ih hbegin]
      cases begin_same with
      | false => exact (Option.some.inj h).symm
      | true => exact ih h
    | _ => simpa [KeyHeap.val_equal, Value.equals_itself, eq_comm] using h

theorem key_equal_self {key : HashKey} {same : Bool}
    (h : heap.val_hash_key_equal depth compare_by_identity key key = some same) :
    same = key.equals_itself compare_by_identity := by
  rw [KeyHeap.val_hash_key_equal, key_equal] at h
  cases compare_by_identity with
  | false => simpa [HashKey.equals_itself] using val_equal_self h
  | true =>
    obtain ⟨v, address⟩ := key
    simp only [if_true, val_identity_equal] at h
    cases v with
    | string | array | hash | klass | object | block =>
      simpa [HashKey.equals_itself, Value.equals_itself, Value.kind, eq_comm] using h
    | _ =>
      have hsame := val_equal_self h
      simpa [HashKey.equals_itself, Value.kind] using hsame

theorem comparable_iff :
    Comparable heap depth compare_by_identity D ↔
      table.IsEquivalence (heap.val_hash_key_equal depth compare_by_identity) D := by
  constructor
  · intro h
    refine ⟨h.returns, ?_, h.symm, h.trans⟩
    intro a ha
    obtain ⟨same, hsame⟩ := h.returns a a ha ha
    rw [hsame, key_equal_self hsame, h.themselves a ha]
  · intro h
    exact ⟨h.returns, fun a ha => (key_equal_self (h.refl a ha)).symm, h.symm, h.trans⟩

theorem made_iff : Made heap depth compare_by_identity D hash ↔ hash.compare_by_identity = compare_by_identity ∧
    table.Reached (heap.val_hash_key_equal depth compare_by_identity) D hash.pairs := by
  constructor
  · intro hmade
    induction hmade with
    | new => exact ⟨rfl, .empty⟩
    | set val _ mem sets ih =>
      obtain ⟨rfl, hreached⟩ := ih
      obtain ⟨pairs, hpairs, rfl⟩ := Option.map_eq_some_iff.mp sets
      exact ⟨rfl, .set val hreached mem hpairs⟩
    | delete _ mem deletes ih =>
      obtain ⟨rfl, hreached⟩ := ih
      obtain ⟨pairs, hpairs, rfl⟩ := Option.map_eq_some_iff.mp deletes
      exact ⟨rfl, .delete hreached mem hpairs⟩
  · rintro ⟨rfl, hreached⟩
    obtain ⟨pairs, compare_by_identity⟩ := hash
    simp only at hreached ⊢
    induction hreached with
    | empty => exact .new
    | set val _ mem sets ih => exact .set val ih mem (by simp [KeyHeap.val_hash_set, sets])
    | delete _ mem deletes ih => exact .delete ih mem (by simp [KeyHeap.val_hash_delete, deletes])

instance : Nontrivial Value := ⟨.nil, .exception, nofun⟩

/-- Every hash made of keys of a domain is a map on them exactly when they are
comparable. -/
theorem hash_is_map_iff (heap : KeyHeap) (depth : Nat) (compare_by_identity : Bool) (D : HashKey → Prop) :
    (∀ hash, Made heap depth compare_by_identity D hash →
      table.IsMap (heap.val_hash_key_equal depth compare_by_identity) D hash.pairs) ↔
    Comparable heap depth compare_by_identity D := by
  rw [comparable_iff, ← table.isMap_iff (V := Value)]
  constructor
  · intro h pairs hreached
    exact h { pairs, compare_by_identity } (made_iff.mpr ⟨rfl, hreached⟩)
  · intro h hash hmade
    exact h hash.pairs (made_iff.mp hmade).2

end

/-- The key `proc {}`. -/
def proc_key : HashKey where
  value := .block (.block { line := 1, col := 1, len := 7 } [] none) 0 false true none
  address := 0

/-- What is set under a proc is not found again. -/
theorem proc_is_not_found :
    ¬ ∀ hash, Made { arrays := [], hashes := [] } 1 false (· = proc_key) hash →
      table.IsMap (KeyHeap.val_hash_key_equal { arrays := [], hashes := [] } 1 false) (· = proc_key) hash.pairs := by
  intro h
  obtain ⟨pairs, hset, hget⟩ := (h _ .new).set_get proc_key .nil rfl
  obtain rfl := Option.some.inj hset
  cases hget

end stoned
