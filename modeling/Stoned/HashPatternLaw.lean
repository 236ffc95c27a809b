import Stoned.Evaluator

namespace stoned

open program

/-! Hash patterns, and the hash that takes what they do not name. -/

/-- A state in which a hash has other pairs. -/
def State.with_pairs (s : State) (h : Ref) (pairs : List (Value × Value)) : State :=
  { s with ev := { s.ev with hashes := s.ev.hashes.modify h fun r => { r with pairs } } }

section collecting
variable {builtins : Builtins} {depth : Nat} {s : State} {h : Ref}

/-- A key differs from another while the pairs of a hash are set. -/
def Differs (builtins : Builtins) (depth : Nat) (s : State) (h : Ref) (stored key : Value) : Prop :=
  ∀ pairs, (val_equal stored key).run (builtins.machine depth) (s.with_pairs h pairs) =
    some (false, s.with_pairs h pairs)

theorem hash_with_pairs (hh : h < s.ev.hashes.length) (pairs : List (Value × Value)) :
    ((s.with_pairs h pairs).ev.hash h).pairs = pairs := by
  simp [State.with_pairs, Eval.hash, List.getElem?_eq_getElem hh]

theorem find_key_none {key : Value} {stored : List (Value × Value)} (pairs : List (Value × Value))
    (hdiffer : ∀ pair ∈ stored, Differs builtins depth s h pair.1 key) :
    (find_key key stored).run (builtins.machine depth) (s.with_pairs h pairs) = some (none, s.with_pairs h pairs) := by
  induction stored with
  | nil => rfl
  | cons pair stored ih =>
    have hrest := ih fun other hother => hdiffer other (List.mem_cons_of_mem _ hother)
    rw [find_key, run_bind_some (hdiffer pair List.mem_cons_self pairs)]
    exact run_bind_some hrest

/-- A new key is added behind the others. -/
theorem val_hash_set_new (hh : h < s.ev.hashes.length) {key : Value} {pairs : List (Value × Value)} (val : Value)
    (hdiffer : ∀ pair ∈ pairs, Differs builtins depth s h pair.1 key) :
    (val_hash_set h key val).run (builtins.machine depth) (s.with_pairs h pairs) =
      some ((), s.with_pairs h (pairs ++ [(key, val)])) := by
  rw [val_hash_set, run_bind_some (run_get _ _)]
  dsimp only
  rw [hash_with_pairs hh, run_bind_some (find_key_none pairs hdiffer)]
  refine (run_modify _ _ _).trans ?_
  simp only [State.with_pairs, List.modify_modify_eq]
  rfl

/-- Keys that differ from each other are set one behind the other. -/
theorem val_hash_set_all_new (hh : h < s.ev.hashes.length) {entries pairs : List (Value × Value)}
    (hdiffer : ((pairs ++ entries).map Prod.fst).Pairwise (Differs builtins depth s h)) :
    (val_hash_set_all h entries).run (builtins.machine depth) (s.with_pairs h pairs) =
      some ((), s.with_pairs h (pairs ++ entries)) := by
  induction entries generalizing pairs with
  | nil =>
    rw [List.append_nil]
    rfl
  | cons entry entries ih =>
    obtain ⟨key, val⟩ := entry
    have hnew : ∀ pair ∈ pairs, Differs builtins depth s h pair.1 key := by
      rw [List.map_append, List.pairwise_append] at hdiffer
      exact fun pair hpair => hdiffer.2.2 pair.1 (List.mem_map_of_mem hpair) key List.mem_cons_self
    rw [val_hash_set_all, run_bind_some (val_hash_set_new hh val hnew)]
    have hrest := @ih (pairs ++ [(key, val)]) (by simpa using hdiffer)
    rwa [List.append_assoc] at hrest

end collecting

/-- A new hash with some pairs. -/
def State.new_hash (s : State) (pairs : List (Value × Value)) : State :=
  let r : RubyHash := {
    pairs, singleton_env := none, default_value := .nil, default_proc := .nil
    compare_by_identity := false, frozen := false }
  { s with ev := { s.ev with hashes := s.ev.hashes ++ [r] } }

theorem new_hash_with_pairs (s : State) (pairs pairs' : List (Value × Value)) :
    (s.new_hash pairs).with_pairs s.ev.hashes.length pairs' = s.new_hash pairs' := by
  rw [State.with_pairs, State.new_hash, State.new_hash]
  dsimp only
  rw [modify_last]

section matching
variable (builtins : Builtins) (depth : Nat) (env binding_env : Env) (h : Ref)

/-- The keys are looked up and the patterns matched one after the other: a key
that is missing is passed over when its pattern is a bare capture, and a key
that is there has a value that its pattern matches. -/
inductive PairsMatched : State → List (Node × Node) → State → Prop where
  | done {s : State} : PairsMatched s [] s
  | missing {s t : State} {key pat : Node} {rest : List (Node × Node)}
      (hmissing : hash_get_symbol (key_text key) (s.ev.hash h).pairs = none) (hbare : is_bare_capture pat = true)
      (hrest : PairsMatched s rest t) : PairsMatched s ((key, pat) :: rest) t
  | present {s u t : State} {key pat : Node} {rest : List (Node × Node)} {val : Value}
      (hval : hash_get_symbol (key_text key) (s.ev.hash h).pairs = some val)
      (hmatch : (match_pattern env binding_env val (some pat)).run (builtins.machine depth) s = some (true, u))
      (hrest : PairsMatched u rest t) : PairsMatched s ((key, pat) :: rest) t

variable {builtins depth env binding_env h} {s t u : State}

theorem match_pairs_iff {pairs : List (Node × Node)} :
    (match_pairs env binding_env h pairs).run (builtins.machine depth) s = some (true, t) ↔
      PairsMatched builtins depth env binding_env h s pairs t := by
  induction pairs generalizing s with
  | nil =>
    constructor
    · rintro ⟨⟩
      exact .done
    · rintro ⟨⟩
      rfl
  | cons pair rest ih =>
    obtain ⟨key, pat⟩ := pair
    rw [match_pairs, run_bind_some (run_get _ s)]
    cases hget : hash_get_symbol (key_text key) (s.ev.hash h).pairs with
    | none =>
      dsimp only
      split
      · rename_i hbare
        rw [ih]
        constructor
        · exact .missing hget hbare
        · rintro (_ | ⟨_, _, hrest⟩ | ⟨hval, _, _⟩)
          · exact hrest
          · rw [hget] at hval
            cases hval
      · rename_i hbare
        constructor
        · rintro ⟨⟩
        · rintro (_ | ⟨_, hbare', _⟩ | ⟨hval, _, _⟩)
          · exact absurd hbare' hbare
          · rw [hget] at hval
            cases hval
    | some val =>
      dsimp only
      rw [run_bind_eq_some_iff]
      constructor
      · rintro ⟨answer, u, hmatch, hrest⟩
        cases answer with
        | true => exact .present hget hmatch (ih.mp hrest)
        | false => cases hrest
      · rintro (_ | ⟨hmissing, _, _⟩ | ⟨hval, hmatch, hrest⟩)
        · rw [hget] at hmissing
          cases hmissing
        · rw [hget] at hval
          cases hval
          exact ⟨true, _, hmatch, ih.mpr hrest⟩

/-- The entries of a hash whose keys a pattern does not name. -/
def unnamed (pairs : List (Node × Node)) (entries : List (Value × Value)) : List (Value × Value) :=
  entries.filter fun entry => !is_matched_key (pairs.map Prod.fst) entry.1

theorem hash_new_hash (s : State) (h : Ref) : ((s.new_hash []).ev.hash h).pairs = (s.ev.hash h).pairs := by
  rw [Eval.hash, Eval.hash, State.new_hash, List.getElem?_append]
  split
  · rfl
  · rename_i hout
    rw [List.getElem?_eq_none (Nat.not_lt.mp hout), List.getElem?_singleton]
    split <;> rfl

/-- What a pattern with a rest leaves: a new hash under its name. -/
def State.bound_rest (s : State) (binding_env : Env) (name : String) (entries : List (Value × Value)) : State :=
  { s.new_hash entries with envs := s.envs.env_define binding_env name (.hash s.ev.hashes.length) }

/-- What a hash pattern does when the keys match. -/
def bind_rest (binding_env : Env) (h : Ref) (pairs : List (Node × Node)) (has_rest : Bool) (rest_name : Option String) :
    P Bool := do
  match has_rest, rest_name with
  | true, some name =>
    let rest ← val_hash_new
    val_hash_set_all rest (((← get).hash h).pairs.filter fun pair => !is_matched_key (pairs.map Prod.fst) pair.1)
    env_define binding_env name (.hash rest)
    return true
  | _, _ => return true

theorem match_hash_eq (span : Span) (elems : List Node) (has_rest : Bool) (rest_name : Option String) :
    match_hash_pattern env binding_env (.hash h) span elems has_rest rest_name =
      match_pairs env binding_env h (pattern_pairs elems) >>= fun matched =>
        if matched then bind_rest binding_env h (pattern_pairs elems) has_rest rest_name else return false := rfl

theorem bind_rest_run {pairs : List (Node × Node)} {name : String}
    (hdiffer : ((unnamed pairs (s.ev.hash h).pairs).map Prod.fst).Pairwise
      (Differs builtins depth (s.new_hash []) s.ev.hashes.length)) :
    (bind_rest binding_env h pairs true (some name)).run (builtins.machine depth) s =
      some (true, s.bound_rest binding_env name (unnamed pairs (s.ev.hash h).pairs)) := by
  have hnew : val_hash_new.run (builtins.machine depth) s = some (s.ev.hashes.length, s.new_hash []) := rfl
  rw [bind_rest, run_bind_some hnew, run_bind_some (run_get _ _), hash_new_hash]
  have hin : s.ev.hashes.length < (s.new_hash []).ev.hashes.length := by simp [State.new_hash]
  have hset := @val_hash_set_all_new _ _ _ _ hin _ [] hdiffer
  rw [new_hash_with_pairs, new_hash_with_pairs, List.nil_append] at hset
  exact run_bind_some hset

end matching

/-- `{a: 1, b: 2}` -/
def two_pairs : State := bare_state.new_hash [(.symbol "a", .int 1), (.symbol "b", .int 2)]

end stoned
