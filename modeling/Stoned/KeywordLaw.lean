import Stoned.ArityLaw
import Stoned.HashPatternLaw

namespace stoned

open program

/-! Keywords and the parameters that take them. -/

/-- The keyword that a parameter takes, with its default. -/
def keyword_of : Node → Option (String × Option Node)
  | .param _ (some kname) default_val _ _ true _ => some (kname, default_val)
  | _ => none

def keyword_names (params : List Node) : List String := params.filterMap fun p => (keyword_of p).map Prod.fst

/-- The keywords of a parameter list that are there, in the order of the list. -/
def given_names (params : List Node) (entries : List (Value × Value)) : List String :=
  (keyword_names params).filter fun kname => (hash_get_symbol kname entries).isSome

/-- A required keyword is not there. -/
def MissingKeyword (params : List Node) (entries : List (Value × Value)) : Prop :=
  ∃ p ∈ params, ∃ kname, keyword_of p = some (kname, none) ∧ hash_get_symbol kname entries = none

/-- A key is the name of no keyword parameter. -/
def UnknownKeyword (params : List Node) (entries : List (Value × Value)) : Prop :=
  ∃ entry ∈ entries, is_consumed (keyword_names params) entry.1 = false

/-- The entries that no keyword parameter takes. -/
def unnamed_keywords (params : List Node) (entries : List (Value × Value)) : List (Value × Value) :=
  entries.filter fun entry => !is_consumed (keyword_names params) entry.1

def is_kwrest : Node → Bool
  | .param _ _ _ _ _ _ keyword_splat => keyword_splat
  | _ => false

/-- The name of the `**rest` of a parameter list, if there is one. -/
def kwrest_name (params : List Node) : Option (Option String) :=
  (params.find? is_kwrest).bind fun
    | .param _ name .. => some name
    | _ => none

/-- The entries of the keyword hash. -/
def State.kwargs (s : State) : Option Ref → List (Value × Value)
  | some h => (s.ev.hash h).pairs
  | none => []

def State.defined (s : State) (env : Env) (name : String) (val : Value) : State :=
  { s with envs := s.envs.env_define env name val }

section binding
variable (builtins : Builtins) (depth : Nat) (env : Env) (kwargs : Option Ref) (entries : List (Value × Value))

/-- The keywords are bound from the left, up to a required one that is not
there. One that is there gets its value, and one that is not gets what its
default evaluates to, which leaves the hash alone. -/
inductive KeywordsBound : State → List Node → State → Prop where
  | done {s : State} : KeywordsBound s [] s
  | other {s u : State} {p : Node} {rest : List Node} (hkeyword : keyword_of p = none)
      (hrest : KeywordsBound s rest u) : KeywordsBound s (p :: rest) u
  | given {s u : State} {p : Node} {rest : List Node} {kname : String} {default_val : Option Node} {val : Value}
      (hkeyword : keyword_of p = some (kname, default_val)) (hval : hash_get_symbol kname entries = some val)
      (hrest : KeywordsBound (s.defined env kname val) rest u) : KeywordsBound s (p :: rest) u
  | default {s t u : State} {p : Node} {rest : List Node} {kname : String} {default_val : Node} {val : Value}
      (hkeyword : keyword_of p = some (kname, some default_val)) (hval : hash_get_symbol kname entries = none)
      (heval : (eval_node env (some default_val)).run (builtins.machine depth) s = some (val, t))
      (hgoes : GoesOn val t) (hkwargs : t.kwargs kwargs = entries)
      (hrest : KeywordsBound (t.defined env kname val) rest u) : KeywordsBound s (p :: rest) u
  | missing {s : State} {p : Node} {rest : List Node} {kname : String}
      (hkeyword : keyword_of p = some (kname, none)) (hval : hash_get_symbol kname entries = none) :
      KeywordsBound s (p :: rest) s

variable {builtins depth env kwargs entries} {s u : State} {params rest : List Node} {p : Node} {kname : String}

theorem keyword_names_cons (p : Node) (rest : List Node) :
    keyword_names (p :: rest) = ((keyword_of p).map Prod.fst).toList ++ keyword_names rest := by
  rw [keyword_names, List.filterMap_cons]
  cases keyword_of p <;> rfl

theorem given_names_cons (p : Node) (rest : List Node) (entries : List (Value × Value)) :
    given_names (p :: rest) entries =
      ((keyword_of p).map Prod.fst).toList.filter (fun kname => (hash_get_symbol kname entries).isSome) ++
        given_names rest entries := by
  rw [given_names, keyword_names_cons, List.filter_append]
  rfl

/-- A parameter that is no missing keyword leaves it to the others. -/
theorem missing_cons_iff (hp : ∀ kname, keyword_of p = some (kname, none) → hash_get_symbol kname entries ≠ none) :
    MissingKeyword (p :: rest) entries ↔ MissingKeyword rest entries := by
  constructor
  · rintro ⟨q, hq, kname, hkeyword, hnone⟩
    rcases List.mem_cons.mp hq with rfl | hq
    · exact absurd hnone (hp kname hkeyword)
    · exact ⟨q, hq, kname, hkeyword, hnone⟩
  · rintro ⟨q, hq, hmissing⟩
    exact ⟨q, List.mem_cons_of_mem _ hq, hmissing⟩

theorem run_goes_on_ends (s : State) : goes_on.run (builtins.machine depth) s = some ((), s) := by
  rw [goes_on, run_bind_some (run_get _ s)]
  split <;> rfl

theorem run_define (s : State) (name : String) (val : Value) :
    (env_define env name val).run (builtins.machine depth) s = some ((), s.defined env name val) := rfl

theorem run_kwargs_pairs (s : State) :
    (kwargs_pairs kwargs).run (builtins.machine depth) s = some (s.kwargs kwargs, s) := by
  cases kwargs <;> rfl

theorem bind_keywords_other (hkeyword : keyword_of p = none) (consumed : List String) :
    bind_keywords env kwargs consumed (p :: rest) = bind_keywords env kwargs consumed rest := by
  cases p with
  | param span name default_val splat block_param keyword_param keyword_splat =>
    cases name with
    | none => rfl
    | some kname =>
      cases keyword_param with
      | true => cases hkeyword
      | false => rfl
  | _ => rfl

/-- What is done for one keyword. -/
theorem bind_keywords_eq {default_val : Option Node} (hkeyword : keyword_of p = some (kname, default_val))
    (consumed : List String) :
    bind_keywords env kwargs consumed (p :: rest) = kwargs_pairs kwargs >>= fun pairs =>
      match hash_get_symbol kname pairs, default_val with
      | some kval, _ => env_define env kname kval >>= fun _ =>
        bind_keywords env kwargs (if consumed.length < 64 then consumed ++ [kname] else consumed) rest
      | none, some default_val => goes_on >>= fun _ => eval_node env (some default_val) >>= fun kval =>
        stops kval >>= fun stop =>
          if stop then return none
          else env_define env kname kval >>= fun _ => bind_keywords env kwargs consumed rest
      | none, none => eval_raise_class none "ArgumentError" ("missing keyword: " ++ kname) >>= fun _ => return none := by
  cases p with
  | param span name default_val splat block_param keyword_param keyword_splat =>
    cases name with
    | none => cases hkeyword
    | some name =>
      cases keyword_param with
      | true =>
        cases hkeyword
        rfl
      | false => cases hkeyword
  | _ => cases hkeyword

/-- The table has room for 64 names, and what comes later is not noted. -/
theorem record_eq_take {consumed : List String} (hlength : consumed.length ≤ 64) (kname : String) :
    (if consumed.length < 64 then consumed ++ [kname] else consumed) = (consumed ++ [kname]).take 64 := by
  split
  · rw [List.take_of_length_le (by simpa using ‹consumed.length < 64›)]
  · rw [List.take_append_of_le_length (by omega), List.take_of_length_le hlength]

theorem take_take_append (n : Nat) (front back : List String) :
    (front.take n ++ back).take n = (front ++ back).take n := by
  rw [List.take_append, List.take_append, List.take_take, Nat.min_self, List.length_take]
  congr 2
  omega

/-- Binding the keywords notes the first 64 names that are there, or complains
about a keyword that is missing. -/
theorem bind_keywords_run (hbound : KeywordsBound builtins depth env kwargs entries s params u)
    (hkwargs : s.kwargs kwargs = entries) {consumed : List String} (hlength : consumed.length ≤ 64) :
    u.kwargs kwargs = entries ∧
    (¬MissingKeyword params entries ∧ (bind_keywords env kwargs consumed params).run (builtins.machine depth) s =
        some (some ((consumed ++ given_names params entries).take 64), u) ∨
      MissingKeyword params entries ∧ ∃ kname,
        (bind_keywords env kwargs consumed params).run (builtins.machine depth) s =
          (eval_raise_class none "ArgumentError" ("missing keyword: " ++ kname) >>= fun _ => return none).run
            (builtins.machine depth) u) := by
  induction hbound generalizing consumed with
  | done =>
    have hpresent : ¬MissingKeyword [] entries := by
      rintro ⟨p, hp, -⟩
      cases hp
    have hnone : given_names [] entries = [] := rfl
    refine ⟨hkwargs, .inl ⟨hpresent, ?_⟩⟩
    rw [hnone, List.append_nil, List.take_of_length_le hlength]
    rfl
  | other hkeyword hrest ih =>
    rw [bind_keywords_other hkeyword, missing_cons_iff (by simp [hkeyword]), given_names_cons, hkeyword]
    exact ih hkwargs hlength
  | @given s u p rest kname default_val val hkeyword hval hrest ih =>
    rw [bind_keywords_eq hkeyword, run_bind_some (run_kwargs_pairs _), hkwargs, hval,
      missing_cons_iff (by rintro kname hkeyword'; rw [hkeyword] at hkeyword'; cases hkeyword'; simp [hval]),
      given_names_cons, hkeyword, record_eq_take hlength]
    dsimp only
    rw [run_bind_some (run_define _ _ _)]
    have hnext := @ih hkwargs ((consumed ++ [kname]).take 64) (List.length_take_le _ _)
    rw [take_take_append, List.append_assoc] at hnext
    simpa [hval] using hnext
  | default hkeyword hval heval hgoes hentries hrest ih =>
    rw [bind_keywords_eq hkeyword, run_bind_some (run_kwargs_pairs _), hkwargs, hval,
      missing_cons_iff (by simp [hkeyword]), given_names_cons, hkeyword]
    dsimp only
    rw [run_bind_some (run_goes_on_ends _), run_goes_on heval hgoes,
      run_bind_some (run_define _ _ _)]
    simpa [hval] using ih hentries hlength
  | @missing s p rest kname hkeyword hval =>
    refine ⟨hkwargs, .inr ⟨⟨p, List.mem_cons_self, kname, hkeyword, hval⟩, kname, ?_⟩⟩
    rw [bind_keywords_eq hkeyword, run_bind_some (run_kwargs_pairs _), hkwargs, hval]

end binding

/-- What is done with the entries that were not noted. -/
def bind_unconsumed (env : Env) (kwrest : Option (Option String)) (rest : List (Value × Value)) : P Unit := do
  match kwrest with
  | some name =>
    let rest_hash ← val_hash_new
    val_hash_set_all rest_hash rest
    match name with
    | some name => env_define env name (.hash rest_hash)
    | none => return ()
  | none =>
    match rest with
    | [] => return ()
    | (key, _) :: _ =>
      let _ ← eval_raise_class none "ArgumentError" (unknown_keyword key)

theorem bind_kwrest_eq (env : Env) (params : List Node) (kwargs : Option Ref) (consumed : List String) :
    bind_kwrest env params kwargs consumed = kwargs_pairs kwargs >>= fun pairs =>
      bind_unconsumed env (kwrest_name params) (pairs.filter fun pair => !is_consumed consumed pair.1) := by
  refine congrArg (kwargs_pairs kwargs >>= ·) (funext fun pairs => ?_)
  dsimp only
  split
  · rename_i hfind
    have hkwrest : params.find? is_kwrest = _ := hfind
    rw [kwrest_name, hkwrest]
    rfl
  · rename_i hnone
    cases hfind : params.find? is_kwrest with
    | none =>
      rw [kwrest_name, hfind]
      rfl
    | some p =>
      have hp := List.find?_some hfind
      cases p with
      | param => exact absurd hfind (hnone _ _ _ _ _ _ _)
      | _ => cases hp

section rest
variable {builtins : Builtins} {depth : Nat} {env : Env} {rest : List (Value × Value)} {u : State}

/-- A `**rest` takes the entries in a new hash. -/
theorem bind_unconsumed_rest (name : Option String)
    (hkeys : (rest.map Prod.fst).Pairwise (Differs builtins depth (u.new_hash []) u.ev.hashes.length)) :
    (bind_unconsumed env (some name) rest).run (builtins.machine depth) u =
      some ((), match name with
        | some name => u.bound_rest env name rest
        | none => u.new_hash rest) := by
  have hnew : val_hash_new.run (builtins.machine depth) u = some (u.ev.hashes.length, u.new_hash []) := rfl
  have hin : u.ev.hashes.length < (u.new_hash []).ev.hashes.length := by simp [State.new_hash]
  have hset := @val_hash_set_all_new _ _ _ _ hin rest [] hkeys
  rw [new_hash_with_pairs, new_hash_with_pairs, List.nil_append] at hset
  simp only [bind_unconsumed]
  rw [run_bind_some hnew, run_bind_some hset]
  cases name <;> rfl

/-- Without one an entry is an error. -/
theorem bind_unconsumed_raises (hpending : u.ev.exception_msg = "") (hrest : rest ≠ []) :
    ∃ t, (bind_unconsumed env none rest).run (builtins.machine depth) u = some ((), t) ∧
      t.ev.exception_class = some "ArgumentError" := by
  cases rest with
  | nil => exact absurd rfl hrest
  | cons entry rest =>
    obtain ⟨t, hraise, hclass⟩ := eval_raise_class_raises
      ((evaluator builtins).oracle state_machine depth) hpending none "ArgumentError" (unknown_keyword entry.1)
    exact ⟨t, run_bind_some hraise, hclass⟩

theorem bound_rest_injective {name : String} {entries : List (Value × Value)}
    (h : u.bound_rest env name rest = u.bound_rest env name entries) : rest = entries := by
  have hpairs := congrArg (fun t : State => t.ev.hashes.getLast?.map RubyHash.pairs) h
  simpa [State.bound_rest, State.new_hash] using hpairs

end rest

section names
variable {params : List Node} {entries : List (Value × Value)} {kname : String} {entry : Value × Value}

/-- The table has room for the keywords that are there. -/
def KeywordsRecorded (params : List Node) (entries : List (Value × Value)) : Prop :=
  ∀ kname ∈ given_names params entries, kname ∈ (given_names params entries).take 64

/-- The entries whose names the table does not hold. -/
def unrecorded (params : List Node) (entries : List (Value × Value)) : List (Value × Value) :=
  entries.filter fun entry => !is_consumed ((given_names params entries).take 64) entry.1

theorem is_consumed_iff {consumed : List String} {key : Value} :
    is_consumed consumed key = true ↔ ∃ kname ∈ consumed, key = .symbol kname := by
  cases key <;> simp [is_consumed, eq_comm]

theorem hash_get_symbol_isSome_iff :
    (hash_get_symbol kname entries).isSome = true ↔ ∃ entry ∈ entries, entry.1 = .symbol kname := by
  rw [hash_get_symbol, Option.isSome_map, List.find?_isSome]
  constructor
  · rintro ⟨entry, hentry, hkey⟩
    refine ⟨entry, hentry, ?_⟩
    split at hkey
    · rename_i key hsymbol
      rw [hsymbol, of_decide_eq_true hkey]
    · cases hkey
  · rintro ⟨entry, hentry, hkey⟩
    exact ⟨entry, hentry, by simp [hkey]⟩

theorem mem_given_names_iff :
    kname ∈ given_names params entries ↔ kname ∈ keyword_names params ∧ ∃ entry ∈ entries, entry.1 = .symbol kname := by
  rw [given_names, List.mem_filter, hash_get_symbol_isSome_iff]

/-- What the table holds names a keyword parameter. -/
theorem is_consumed_names_of_take {key : Value}
    (hkey : is_consumed ((given_names params entries).take 64) key = true) :
    is_consumed (keyword_names params) key = true := by
  obtain ⟨kname, htake, rfl⟩ := is_consumed_iff.mp hkey
  exact is_consumed_iff.mpr ⟨kname, (mem_given_names_iff.mp (List.mem_of_mem_take htake)).1, rfl⟩

/-- What the table leaves are the entries no parameter takes when it has room. -/
theorem unrecorded_eq_iff :
    unrecorded params entries = unnamed_keywords params entries ↔ KeywordsRecorded params entries := by
  constructor
  · intro heq kname hgiven
    obtain ⟨hname, entry, hentry, hkey⟩ := mem_given_names_iff.mp hgiven
    by_contra hout
    have hleft : entry ∈ unrecorded params entries := by
      refine List.mem_filter.mpr ⟨hentry, ?_⟩
      rw [Bool.not_eq_true', ← Bool.not_eq_true, is_consumed_iff, hkey]
      rintro ⟨other, hother, hsame⟩
      exact hout (Value.symbol.inj hsame ▸ hother)
    rw [heq, unnamed_keywords, List.mem_filter, Bool.not_eq_true', ← Bool.not_eq_true, is_consumed_iff] at hleft
    exact hleft.2 ⟨kname, hname, hkey⟩
  · intro hrecorded
    refine List.filter_congr fun entry hentry => congrArg (!·) (Bool.eq_iff_iff.mpr ⟨is_consumed_names_of_take, ?_⟩)
    intro hconsumed
    obtain ⟨kname, hname, hkey⟩ := is_consumed_iff.mp hconsumed
    exact is_consumed_iff.mpr ⟨kname, hrecorded kname (mem_given_names_iff.mpr ⟨hname, entry, hentry, hkey⟩), hkey⟩

theorem unnamed_eq_nil_iff : unnamed_keywords params entries = [] ↔ ¬UnknownKeyword params entries := by
  rw [unnamed_keywords, List.filter_eq_nil_iff, UnknownKeyword]
  push Not
  simp

theorem unrecorded_ne_nil (hunknown : UnknownKeyword params entries) : unrecorded params entries ≠ [] := by
  obtain ⟨entry, hentry, hnot⟩ := hunknown
  refine List.ne_nil_of_mem (List.mem_filter.mpr ⟨hentry, ?_⟩)
  rw [Bool.not_eq_true', ← Bool.not_eq_true]
  intro htaken
  rw [is_consumed_names_of_take htaken] at hnot
  cases hnot

end names

/-- The law, for the outcome of binding the parameters and the state in which
each keyword is bound: an ArgumentError is raised exactly when a required
keyword is missing or, without a `**rest`, a key names no keyword parameter,
and a `**rest` is bound to the entries that no keyword parameter takes. -/
structure KeywordLaw (env : Env) (params : List Node) (entries : List (Value × Value)) (u : State)
    (outcome : Option (Unit × State)) : Prop where
  raises_iff : (∃ t, outcome = some ((), t) ∧ t.ev.exception_class = some "ArgumentError") ↔
    MissingKeyword params entries ∨ kwrest_name params = none ∧ UnknownKeyword params entries
  bound : ¬MissingKeyword params entries → kwrest_name params = none → ¬UnknownKeyword params entries →
    outcome = some ((), u)
  rest : ¬MissingKeyword params entries → ∀ name, kwrest_name params = some (some name) →
    outcome = some ((), u.bound_rest env name (unnamed_keywords params entries))
  nameless : ¬MissingKeyword params entries → kwrest_name params = some none →
    ∃ t, outcome = some ((), t) ∧ t.envs = u.envs

section law
variable {builtins : Builtins} {depth : Nat} {env : Env} {kwargs : Option Ref} {params : List Node}
  {entries : List (Value × Value)} {s u : State}

/-- What bind_params does for keywords. -/
def bind_keywords_and_rest (env : Env) (params : List Node) (kwargs : Option Ref) : P Unit := do
  match ← bind_keywords env kwargs [] params with
  | none => return ()
  | some consumed => bind_kwrest env params kwargs consumed

theorem bind_keyword_params_run (hbound : KeywordsBound builtins depth env kwargs entries s params u)
    (hkwargs : s.kwargs kwargs = entries) (hpending : u.ev.exception_msg = "") :
    ¬MissingKeyword params entries ∧ (bind_keywords_and_rest env params kwargs).run (builtins.machine depth) s =
        (bind_unconsumed env (kwrest_name params) (unrecorded params entries)).run (builtins.machine depth) u ∨
      MissingKeyword params entries ∧ ∃ t,
        (bind_keywords_and_rest env params kwargs).run (builtins.machine depth) s = some ((), t) ∧
          t.ev.exception_class = some "ArgumentError" := by
  obtain ⟨hkept, ⟨hpresent, hrun⟩ | ⟨hmissing, kname, hrun⟩⟩ :=
    @bind_keywords_run _ _ _ _ _ _ _ _ hbound hkwargs [] (Nat.zero_le 64)
  · refine .inl ⟨hpresent, (run_bind_some hrun).trans ?_⟩
    dsimp only
    rw [bind_kwrest_eq, run_bind_some (run_kwargs_pairs u), hkept]
    rfl
  · obtain ⟨t, hraise, hclass⟩ := eval_raise_class_raises
      ((evaluator builtins).oracle state_machine depth) hpending none "ArgumentError" ("missing keyword: " ++ kname)
    exact .inr ⟨hmissing, t, run_bind_some (hrun.trans (run_bind_some hraise)), hclass⟩

/-- Nothing is raised where no keyword is missing and none too many. -/
theorem not_raised {t : State} (hidle : u.ev.Idle) (hclass : t.ev.exception_class = u.ev.exception_class)
    (hpresent : ¬MissingKeyword params entries)
    (hknown : ¬(kwrest_name params = none ∧ UnknownKeyword params entries)) :
    (∃ t', some ((), t) = some ((), t') ∧ t'.ev.exception_class = some "ArgumentError") ↔
      MissingKeyword params entries ∨ kwrest_name params = none ∧ UnknownKeyword params entries := by
  refine iff_of_false ?_ (not_or.mpr ⟨hpresent, hknown⟩)
  rintro ⟨t', ⟨⟩, hraised⟩
  rw [hclass, hidle.exception_class] at hraised
  cases hraised

/-- A `**` without a name takes everything. -/
theorem keywordLaw_nameless (hpresent : ¬MissingKeyword params entries) (hidle : u.ev.Idle)
    (hkwrest : kwrest_name params = some none) (rest : List (Value × Value)) :
    KeywordLaw env params entries u (some ((), u.new_hash rest)) where
  raises_iff := not_raised hidle rfl hpresent (by simp [hkwrest])
  bound := by simp [hkwrest]
  rest := by simp [hkwrest]
  nameless := fun _ _ => ⟨_, rfl, rfl⟩

theorem keywordLaw_rest_iff {name : String} (hpresent : ¬MissingKeyword params entries) (hidle : u.ev.Idle)
    (hkwrest : kwrest_name params = some (some name)) :
    KeywordLaw env params entries u (some ((), u.bound_rest env name (unrecorded params entries))) ↔
      KeywordsRecorded params entries := by
  rw [← unrecorded_eq_iff]
  constructor
  · intro hlaw
    have hrest := hlaw.rest hpresent name hkwrest
    simp only [Option.some.injEq, Prod.mk.injEq, true_and] at hrest
    exact bound_rest_injective hrest
  · intro heq
    refine ⟨not_raised hidle rfl hpresent (by simp [hkwrest]), by simp [hkwrest], ?_, by simp [hkwrest]⟩
    intro _ other hother
    cases hkwrest.symm.trans hother
    rw [heq]

theorem keywordLaw_strict_iff (hpresent : ¬MissingKeyword params entries) (hidle : u.ev.Idle)
    (hkwrest : kwrest_name params = none) :
    KeywordLaw env params entries u
        ((bind_unconsumed env none (unrecorded params entries)).run (builtins.machine depth) u) ↔
      UnknownKeyword params entries ∨ KeywordsRecorded params entries := by
  by_cases hunknown : UnknownKeyword params entries
  · obtain ⟨t, hraise, hclass⟩ :=
      @bind_unconsumed_raises builtins depth env _ u hidle.exception_msg (unrecorded_ne_nil hunknown)
    refine iff_of_true ⟨iff_of_true ⟨t, hraise, hclass⟩ (.inr ⟨hkwrest, hunknown⟩), ?_, ?_, ?_⟩ (.inl hunknown)
    · exact fun _ _ hknown => absurd hunknown hknown
    · simp [hkwrest]
    · simp [hkwrest]
  · rw [← unrecorded_eq_iff, unnamed_eq_nil_iff.mpr hunknown]
    constructor
    · intro hlaw
      refine .inr ?_
      by_contra hne
      obtain ⟨t, hraise, hclass⟩ := @bind_unconsumed_raises builtins depth env _ u hidle.exception_msg hne
      cases hraise.symm.trans (hlaw.bound hpresent hkwrest hunknown)
      rw [hidle.exception_class] at hclass
      cases hclass
    · intro hcond
      rw [hcond.resolve_left hunknown]
      exact ⟨not_raised hidle rfl hpresent fun h => hunknown h.2, fun _ _ _ => rfl, by simp [hkwrest],
        by simp [hkwrest]⟩

/-- What is done with the entries that are left follows the law exactly when
they are those that no parameter takes, where that matters. -/
theorem keywordLaw_unconsumed_iff (hpresent : ¬MissingKeyword params entries) (hidle : u.ev.Idle)
    (hkeys : (entries.map Prod.fst).Pairwise (Differs builtins depth (u.new_hash []) u.ev.hashes.length)) :
    KeywordLaw env params entries u
        ((bind_unconsumed env (kwrest_name params) (unrecorded params entries)).run (builtins.machine depth) u) ↔
      kwrest_name params = some none ∨ kwrest_name params = none ∧ UnknownKeyword params entries ∨
        KeywordsRecorded params entries := by
  have hleft : ((unrecorded params entries).map Prod.fst).Pairwise
      (Differs builtins depth (u.new_hash []) u.ev.hashes.length) :=
    hkeys.sublist (List.filter_sublist.map Prod.fst)
  cases hkwrest : kwrest_name params with
  | none => simpa using keywordLaw_strict_iff hpresent hidle hkwrest
  | some name =>
    rw [bind_unconsumed_rest name hleft]
    cases name with
    | none => exact iff_of_true (keywordLaw_nameless hpresent hidle hkwrest _) (.inl rfl)
    | some name => simpa using keywordLaw_rest_iff hpresent hidle hkwrest

theorem keywordLaw_missing {t : State} (hmissing : MissingKeyword params entries)
    (hclass : t.ev.exception_class = some "ArgumentError") : KeywordLaw env params entries u (some ((), t)) where
  raises_iff := iff_of_true ⟨t, rfl, hclass⟩ (.inl hmissing)
  bound := fun hpresent => absurd hmissing hpresent
  rest := fun hpresent => absurd hmissing hpresent
  nameless := fun hpresent => absurd hmissing hpresent

end law

/-- `a:` -/
def keyword_param (kname : String) (default_val : Option Node) : Node :=
  .param no_span (some kname) default_val false false true false

/-- `def f(a:, b: 2, **rest)` with `{a: 1, c: 3}` -/
def rest_params : List Node :=
  [keyword_param "a" none, keyword_param "b" (some (.int no_span 2)),
    .param no_span (some "rest") none false false false true]

def rest_entries : List (Value × Value) := [(.symbol "a", .int 1), (.symbol "c", .int 3)]

/-- The state in which both keywords are bound. -/
def rest_state : State :=
  ((bare_state.new_hash rest_entries).defined 0 "a" (.int 1)).defined 0 "b" (.int 2)

theorem rest_params_bound :
    KeywordsBound no_builtins 2 0 (some 0) rest_entries (bare_state.new_hash rest_entries) rest_params rest_state := by
  have heval : (eval_node 0 (some (.int no_span 2))).run (no_builtins.machine 2)
      ((bare_state.new_hash rest_entries).defined 0 "a" (.int 1)) =
        some (.int 2, (bare_state.new_hash rest_entries).defined 0 "a" (.int 1)) := rfl
  have hgoes : GoesOn (.int 2) ((bare_state.new_hash rest_entries).defined 0 "a" (.int 1)) := rfl
  exact .given rfl rfl (.default rfl rfl heval hgoes rfl (.other rfl .done))

/-- The name of a keyword, "k00" to "k64". -/
def many_name (i : Nat) : String := String.ofList ['k', Char.ofNat (48 + i / 10), Char.ofNat (48 + i % 10)]

/-- A method with 65 required keywords. -/
def many_params : List Node := (List.range 65).map fun i => keyword_param (many_name i) none

/-- All of them. -/
def many_entries : List (Value × Value) := (List.range 65).map fun i => (.symbol (many_name i), .nil)

theorem digit_injective : ∀ a < 10, ∀ b < 10, Char.ofNat (48 + a) = Char.ofNat (48 + b) → a = b := by decide

theorem many_name_ne {i j : Nat} (hi : i < 65) (hj : j < 65) (hne : i ≠ j) : many_name i ≠ many_name j := by
  intro heq
  have hdigits := String.ofList_injective heq
  simp only [List.cons.injEq, true_and, and_true] at hdigits
  obtain ⟨htens, hones⟩ := hdigits
  have htens := digit_injective _ (by omega) _ (by omega) htens
  have hones := digit_injective _ (by omega) _ (by omega) hones
  omega

theorem many_entry_given {i : Nat} (hi : i ∈ List.range 65) :
    (hash_get_symbol (many_name i) many_entries).isSome = true :=
  hash_get_symbol_isSome_iff.mpr ⟨_, List.mem_map_of_mem hi, rfl⟩

theorem many_keyword_names : keyword_names many_params = (List.range 65).map many_name := by
  rw [keyword_names, many_params, List.filterMap_map]
  exact congrFun (List.filterMap_eq_map (f := many_name)) _

theorem many_given_names : given_names many_params many_entries = (List.range 65).map many_name := by
  rw [given_names, many_keyword_names, List.filter_eq_self]
  intro kname hkname
  obtain ⟨i, hi, rfl⟩ := List.mem_map.mp hkname
  exact many_entry_given hi

/-- The table has no room for the last one. -/
theorem many_unrecorded : unrecorded many_params many_entries = [(.symbol (many_name 64), .nil)] := by
  have hlast : (List.range 65).filter (fun i => 64 ≤ i) = [64] := by decide
  rw [unrecorded, many_given_names, ← List.map_take, List.take_range, many_entries, List.filter_map]
  refine (congrArg (List.map _) (List.filter_congr fun i hi => ?_)).trans (congrArg (List.map _) hlast)
  rw [Function.comp_apply, Bool.eq_iff_iff, Bool.not_eq_true', ← Bool.not_eq_true, is_consumed_iff, decide_eq_true_iff]
  constructor
  · intro hout
    by_contra hlow
    exact hout ⟨_, List.mem_map_of_mem (List.mem_range.mpr (by omega)), rfl⟩
  · rintro hlow ⟨kname, hkname, hsame⟩
    obtain ⟨j, hj, rfl⟩ := List.mem_map.mp hkname
    have hj := List.mem_range.mp hj
    exact many_name_ne (List.mem_range.mp hi) (by omega) (by omega) (Value.symbol.inj hsame)

/-- Keywords that are all there are bound. -/
theorem keywordsBound_of_given (builtins : Builtins) (depth : Nat) (env : Env) (kwargs : Option Ref)
    {entries : List (Value × Value)} {params : List Node}
    (hparams : ∀ p ∈ params, ∃ kname, keyword_of p = some (kname, none) ∧
      (hash_get_symbol kname entries).isSome = true) (s : State) :
    ∃ u, KeywordsBound builtins depth env kwargs entries s params u ∧ u.ev = s.ev := by
  induction params generalizing s with
  | nil => exact ⟨s, .done, rfl⟩
  | cons p rest ih =>
    obtain ⟨kname, hkeyword, hgiven⟩ := hparams p List.mem_cons_self
    obtain ⟨val, hval⟩ := Option.isSome_iff_exists.mp hgiven
    obtain ⟨u, hrest, hev⟩ := ih (fun q hq => hparams q (List.mem_cons_of_mem _ hq)) (s.defined env kname val)
    exact ⟨u, .given hkeyword hval hrest, hev⟩

/-- Keyword parameters take no positional argument. -/
theorem bind_positional_keywords (builtins : Builtins) (depth : Nat) (env : Env) (args : List Value) (post : Nat)
    (names : List String) (s : State) :
    (bind_positional env args post 0 (names.map (keyword_param · none))).run (builtins.machine depth) s =
      some ((), s) := by
  induction names with
  | nil => rfl
  | cons name rest ih => exact ih

end stoned
