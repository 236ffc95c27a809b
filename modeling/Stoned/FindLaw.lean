import Stoned.ArrayPatternLaw
import Stoned.EnvLaw
import Stoned.SingletonLaw

namespace stoned

open program

/-! The find pattern `[*a, p1, ..., pk, *b]`: which window of an array it takes
and what it binds. -/

section
variable {builtins : Builtins} {depth : Nat} {s t : State} {env : Env}

/-- No run makes a frame bind a name twice. -/
theorem stays_distinct {α : Type} {p : P α} {value : α} (hrun : p.run (builtins.machine depth) s = some (value, t))
    (hs : s.envs.Distinct env) : t.envs.Distinct env := by
  refine Procedures.run_preserves (I := fun u => u.envs.Distinct env) ?_ hrun hs
  intro op u answer v hexec hu
  obtain ⟨-, rfl⟩ := Prod.mk.inj (Option.some.inj hexec)
  cases op with
  | env_new outer is_def =>
    simp only [EnvHeap.Distinct, EnvHeap.env_new_vars]
    exact hu
  | set_block_arg frame block =>
    simp only [EnvHeap.Distinct, EnvHeap.set_block_arg_vars]
    exact hu
  | env_update frame key val =>
    simp only
    cases hupdate : u.envs.env_update frame key val with
    | none => exact hu
    | some h' => exact hu.env_update hupdate
  | env_set => exact hu.env_set
  | env_define => exact hu.set_entry
  | env_remove_own => exact hu.env_remove_own
  | _ => exact hu

end

/-! What a match writes. -/

/-- The calls by which a pattern has expressions evaluated, messages sent and
values compared. -/
def Outward : Call → Prop
  | .eval_node .. | .dispatch_method _ | .val_equal .. => True
  | _ => False

/-- A step of a match as a frame and the arrays see it: they stay, or an
expression or a message of the pattern is at work. -/
inductive Step (builtins : Builtins) (g : Env) (s t : State) : Prop where
  | own (vars : t.envs.vars g = s.envs.vars g) (elems : ∀ a < s.ev.arrays.length, t.ev.elems a = s.ev.elems a)
  | outward {depth : Nat} {c : Call} {answer : c.Answer} (hc : Outward c)
    (hcall : (evaluator builtins).oracle state_machine depth c s = some (answer, t))

/-- A match writes nothing to a frame itself. -/
def Spared (builtins : Builtins) (g : Env) : State → State → Prop := Relation.ReflTransGen (Step builtins g)

/-- A program writes nothing to a frame itself. -/
class Spares (builtins : Builtins) (depth : Nat) (g : Env) {α : Type} (p : P α) : Prop where
  spares : ∀ {s t : State} {value : α}, g < s.envs.frames.length →
    p.run (builtins.machine depth) s = some (value, t) → Spared builtins g s t

section
variable {builtins : Builtins} {depth : Nat} {g : Env} {α β : Type}

theorem Spares.ret (value : α) : Spares builtins depth g (Program.ret value : P α) where
  spares := by
    intro s t result _ hrun
    cases hrun
    exact .refl

instance (value : α) : Spares builtins depth g (pure value : P α) := .ret value

instance (value : α) : Spares builtins depth g (Program.ret value : P α) := .ret value

theorem Spares.seq {p : P α} {f : α → P β} (hp : Spares builtins depth g p)
    (hf : ∀ value, Spares builtins depth g (f value)) : Spares builtins depth g (p >>= f) where
  spares := by
    intro s t result hg hrun
    obtain ⟨value, u, hfirst, hrest⟩ := run_bind_eq_some_iff.mp hrun
    have hbefore := hp.spares hg hfirst
    have hbehind := (hf value).spares (hg.trans_le (frames_grow hfirst)) hrest
    exact hbefore.trans hbehind

instance {p : P α} {f : α → P β} [hp : Spares builtins depth g p] [hf : ∀ value, Spares builtins depth g (f value)] :
    Spares builtins depth g (p >>= f) := hp.seq hf

theorem Spares.ite {c : Prop} [Decidable c] {p q : P α} (hp : Spares builtins depth g p)
    (hq : Spares builtins depth g q) : Spares builtins depth g (if c then p else q) := by
  split
  · exact hp
  · exact hq

instance {c : Prop} [Decidable c] {p q : P α} [hp : Spares builtins depth g p] [hq : Spares builtins depth g q] :
    Spares builtins depth g (if c then p else q) := hp.ite hq

/-- Operations that keep a frame's bindings and the arrays there are. -/
theorem spares_op (o : Op) (hvars : ∀ s, g < s.envs.frames.length → (o.exec s).2.envs.vars g = s.envs.vars g)
    (helems : ∀ s, ∀ a < s.ev.arrays.length, (o.exec s).2.ev.elems a = s.ev.elems a) :
    Spares builtins depth g (op o) where
  spares := by
    intro s t answer hg hrun
    obtain ⟨-, rfl⟩ := Prod.mk.inj (Option.some.inj ((run_perform _ _).symm.trans hrun))
    exact .single (.own (hvars s hg) (helems s))

theorem spares_modify (f : Eval → Eval) (helems : ∀ ev : Eval, ∀ a < ev.arrays.length, (f ev).elems a = ev.elems a) :
    Spares builtins depth g (modify f) where
  spares := by
    intro s t answer _ hrun
    cases hrun
    exact .single (.own rfl (helems s.ev))

theorem spares_outward {c : Call} (hc : Outward c) : Spares builtins depth g (call c) where
  spares := by
    intro s t answer _ hrun
    exact .single (.outward hc ((run_perform (S := state_ops.withCalls evaluator_calls) (.inr c) s).symm.trans hrun))

instance : Spares builtins depth g get := spares_op _ (fun _ _ => rfl) fun _ _ _ => rfl
instance : Spares builtins depth g slip := spares_op _ (fun _ _ => rfl) fun _ _ _ => rfl
instance (env : Env) (name : String) : Spares builtins depth g (env_get env name) :=
  spares_op _ (fun _ _ => rfl) fun _ _ _ => rfl
instance (env : Env) (suffix : String) : Spares builtins depth g (env_vars env suffix) :=
  spares_op _ (fun _ _ => rfl) fun _ _ _ => rfl
instance : Spares builtins depth g eval_clear_exception := spares_modify _ fun _ _ _ => rfl
instance (env : Env) (node : Option Node) : Spares builtins depth g (eval_node env node) := spares_outward trivial
instance (send : Send) : Spares builtins depth g (dispatch_method send) := spares_outward trivial
instance (a b : Value) : Spares builtins depth g (val_equal a b) := spares_outward trivial

instance (elems : List Value) : Spares builtins depth g (val_array_of elems) where
  spares := by
    intro s t answer _ hrun
    cases hrun
    exact .single (.own rfl fun a ha => s.with_array_elems ha elems)

theorem spares_define {env : Env} (hne : g ≠ env) (name : String) (val : Value) :
    Spares builtins depth g (env_define env name val) :=
  spares_op _ (fun s _ => s.envs.set_vars_vars_ne env _ hne) fun _ _ _ => rfl

/-- A new frame is none of those there are. -/
theorem spares_new {parent : Option Env} {is_def : Bool} {f : Env → P α}
    (hf : ∀ env, g ≠ env → Spares builtins depth g (f env)) : Spares builtins depth g (env_new parent is_def >>= f) where
  spares := by
    intro s t result hg hrun
    obtain ⟨env, u, hnew, hrest⟩ := run_bind_eq_some_iff.mp hrun
    have hgrow := hg.trans_le (frames_grow hnew)
    obtain ⟨henv, hstate⟩ := Prod.mk.inj (Option.some.inj hnew)
    subst henv hstate
    have hstep : Step builtins g s { s with envs := (s.envs.env_new parent is_def).2 } :=
      .own (s.envs.env_new_vars parent is_def g) fun _ _ => rfl
    exact (Relation.ReflTransGen.single hstep).trans ((hf _ hg.ne).spares hgrow hrest)

end

/-! The matches of patterns spare every frame but the one they bind into. -/

section
variable {builtins : Builtins} {depth : Nat} {g : Env} {env binding_env : Env}

instance (signal : Value) : Spares builtins depth g (no_match signal) := by
  unfold no_match
  infer_instance

instance (recv : Value) (name : String) (arg : Value) (site : Option Span) :
    Spares builtins depth g (matches_by env recv name arg site) := by
  unfold matches_by
  infer_instance

instance (array : Ref) (i : Nat) : Spares builtins depth g (elem_of array i) := by
  unfold elem_of
  infer_instance

theorem spares_find_key (key : Value) (pairs : List (Value × Value)) : Spares builtins depth g (find_key key pairs) := by
  induction pairs with
  | nil =>
    unfold find_key
    infer_instance
  | cons pair rest ih =>
    unfold find_key
    infer_instance

theorem spares_hash_set_all (hash : Ref) (pairs : List (Value × Value)) :
    Spares builtins depth g (val_hash_set_all hash pairs) := by
  induction pairs with
  | nil => exact .ret _
  | cons pair rest ih =>
    unfold val_hash_set_all val_hash_set
    refine .seq ?_ fun _ => ih
    refine .seq inferInstance fun ev => .seq (spares_find_key _ _) fun found => spares_modify _ fun _ _ _ => rfl

instance : Spares builtins depth g val_hash_new where
  spares := by
    intro s t answer _ hrun
    cases hrun
    exact .single (.own rfl fun _ _ => rfl)

/-- Matches of the calls made spare the frame. -/
def SparedByCalls (builtins : Builtins) (depth : Nat) (g : Env) : Prop :=
  ∀ env binding_env val pat, g ≠ binding_env → Spares builtins depth g (match_pattern env binding_env val pat)

variable (hcalls : SparedByCalls builtins depth g) (hne : g ≠ binding_env)
include hcalls hne

theorem spares_match_elements (array : Ref) (ai : Nat) (pats : List Node) :
    Spares builtins depth g (match_elements env binding_env array ai pats) := by
  induction pats generalizing ai with
  | nil => exact .ret _
  | cons pat pats ih =>
    unfold match_elements
    exact .seq inferInstance fun elem => .seq (hcalls _ _ _ _ hne) fun ok => .ite (ih _) (.ret _)

omit hcalls in
theorem spares_bind_stretch (name : Option String) (array : Ref) (start stop : Nat) :
    Spares builtins depth g (bind_stretch binding_env name array start stop) := by
  unfold bind_stretch
  cases name with
  | none => exact .ret _
  | some name => exact .seq inferInstance fun ev => .seq inferInstance fun stretch => spares_define hne name stretch

omit hcalls in
theorem spares_define_all (vars : List (String × Value)) : Spares builtins depth g (define_all binding_env vars) := by
  induction vars with
  | nil => exact .ret _
  | cons var vars ih =>
    unfold define_all
    exact .seq (spares_define hne var.1 var.2) fun _ => ih

theorem spares_find_pattern (array : Ref) (elems : List Node) (arr_len : Nat) (rest_name pre_rest_name : Option String)
    (starts : List Nat) :
    Spares builtins depth g (find_pattern env binding_env array elems arr_len rest_name pre_rest_name starts) := by
  induction starts with
  | nil => exact .ret _
  | cons start starts ih =>
    unfold find_pattern
    refine spares_new fun trial htrial => .seq (spares_match_elements hcalls htrial array start elems) fun ok => .ite ?_ ih
    refine .seq inferInstance fun vars => .seq (spares_define_all hne vars) fun _ => ?_
    exact .seq (spares_bind_stretch hne _ _ _ _) fun _ => .seq (spares_bind_stretch hne _ _ _ _) fun _ => .ret _

theorem spares_match_array (array : Ref) (elems : List Node) (has_rest has_pre_rest : Bool)
    (rest_name pre_rest_name : Option String) :
    Spares builtins depth g
      (match_array env binding_env array elems has_rest has_pre_rest rest_name pre_rest_name) := by
  unfold match_array
  refine .seq inferInstance fun ev => .ite (.ite (.ret _) ?_) (.ite (.ite (.ret _) (.ite (.ret _) ?_))
    (.ite (.ite (.ret _) ?_) (.ret _)))
  · exact spares_find_pattern hcalls hne ..
  · refine .seq (spares_match_elements hcalls hne ..) fun ok => .ite ?_ (.ret _)
    refine .ite (.seq (spares_bind_stretch hne ..) fun _ => .ret _) (.ret _)
  · refine .seq (spares_match_elements hcalls hne ..) fun ok => .ite ?_ (.ret _)
    exact .seq (spares_bind_stretch hne ..) fun _ => .ret _

/-- What a pattern of an array does with the answer of `deconstruct`. -/
theorem spares_deconstructed (elems : List Node) (has_rest has_pre_rest : Bool)
    (rest_name pre_rest_name : Option String) (arr : Value) : Spares builtins depth g (match arr with
      | .array a => match_array env binding_env a elems has_rest has_pre_rest rest_name pre_rest_name
      | arr => if val_is_signal arr then no_match arr else return false) := by
  split
  · exact spares_match_array hcalls hne ..
  · infer_instance

theorem spares_match_array_pattern (val : Value) (span : Span) (elems : List Node) (has_rest has_pre_rest : Bool)
    (rest_name pre_rest_name : Option String) :
    Spares builtins depth g
      (match_array_pattern env binding_env val span elems has_rest has_pre_rest rest_name pre_rest_name) := by
  unfold match_array_pattern
  have hanswer := @spares_deconstructed builtins depth g env binding_env hcalls hne elems has_rest has_pre_rest rest_name
    pre_rest_name
  cases val with
  | array a => exact .seq (.ret _) hanswer
  | _ => exact .seq inferInstance hanswer

theorem spares_match_pairs (hash : Ref) (pairs : List (Node × Node)) :
    Spares builtins depth g (match_pairs env binding_env hash pairs) := by
  induction pairs with
  | nil => exact .ret _
  | cons pair pairs ih =>
    unfold match_pairs
    refine .seq inferInstance fun ev => ?_
    split
    · exact .ite ih (.ret _)
    · exact .seq (hcalls _ _ _ _ hne) fun ok => .ite ih (.ret _)

/-- What a pattern of a hash does with the answer of `deconstruct_keys`. -/
theorem spares_deconstructed_keys (elems : List Node) (has_rest : Bool) (rest_name : Option String) (h : Value) :
    Spares builtins depth g (match h with
      | .hash h => do
        if ← match_pairs env binding_env h (pattern_pairs elems) then
          match has_rest, rest_name with
          | true, some name =>
            let rest ← val_hash_new
            val_hash_set_all rest
              (((← get).hash h).pairs.filter fun pair => !is_matched_key ((pattern_pairs elems).map Prod.fst) pair.1)
            env_define binding_env name (.hash rest)
            return true
          | _, _ => return true
        else return false
      | h => if val_is_signal h then no_match h else return false) := by
  split
  · refine .seq (spares_match_pairs hcalls hne ..) fun ok => .ite ?_ (.ret _)
    split
    · refine .seq inferInstance fun rest => .seq inferInstance fun ev => ?_
      exact .seq (spares_hash_set_all _ _) fun _ => .seq (spares_define hne _ _) fun _ => .ret _
    · exact .ret _
  · infer_instance

theorem spares_match_hash_pattern (val : Value) (span : Span) (elems : List Node) (has_rest : Bool)
    (rest_name : Option String) :
    Spares builtins depth g (match_hash_pattern env binding_env val span elems has_rest rest_name) := by
  unfold match_hash_pattern
  have hanswer := @spares_deconstructed_keys builtins depth g env binding_env hcalls hne elems has_rest rest_name
  cases val with
  | hash h => exact .seq (.ret _) hanswer
  | _ => exact .seq inferInstance fun keys => .seq inferInstance hanswer

theorem spares_match_pattern_body (val : Value) (pat : Option Node) :
    Spares builtins depth g (match_pattern_body env binding_env val pat) := by
  unfold match_pattern_body
  split
  · exact .ret _
  · split
    case h_9 | h_10 =>
      refine .seq inferInstance fun klass => .ite inferInstance ?_
      split <;> infer_instance
    case h_11 =>
      refine .seq inferInstance fun range => ?_
      split <;> infer_instance
    case h_12 => exact spares_match_array_pattern hcalls hne ..
    case h_13 => exact spares_match_hash_pattern hcalls hne ..
    case h_14 =>
      refine .seq (hcalls _ _ _ _ hne) fun ok => .ite ?_ (.ret _)
      split
      · exact .seq (spares_define hne _ _) fun _ => .ret _
      · exact .ret _
    case h_15 =>
      refine .seq inferInstance fun pinned => ?_
      split <;> infer_instance
    case h_16 => exact .seq (hcalls _ _ _ _ hne) fun ok => .ite (.ret _) (hcalls _ _ _ _ hne)
    all_goals infer_instance

end

/-- A match, at any depth, writes nothing to frames it does not bind into. -/
theorem match_spares (builtins : Builtins) (depth : Nat) (g : Env) : SparedByCalls builtins depth g := by
  induction depth with
  | zero =>
    intro env binding_env val pat _
    exact ⟨fun _ hrun => nomatch (run_perform (S := state_ops.withCalls evaluator_calls) _ _).symm.trans hrun⟩
  | succ depth ih =>
    intro env binding_env val pat hne
    refine ⟨fun hg hrun => ?_⟩
    exact (spares_match_pattern_body ih hne val pat).spares hg ((run_call ..).symm.trans hrun)

/-! The windows of an array. -/

/-- Matches the window of an array that begins at `start`, into a frame of its own. -/
def try_window (env : Env) (array : Ref) (elems : List Node) (start : Nat) : P (Env × Bool) := do
  let trial ← env_new (some env) false
  let ok ← match_elements env trial array start elems
  return (trial, ok)

/-- The windows from `start` up to `stop` are tried in turn and none matches. -/
inductive Missed (builtins : Builtins) (depth : Nat) (env : Env) (array : Ref) (elems : List Node) :
    Nat → Nat → State → State → Prop where
  | none (start : Nat) (s : State) : Missed builtins depth env array elems start start s s
  | next {start stop : Nat} {s t u : State} {trial : Env}
    (hrun : (try_window env array elems start).run (builtins.machine depth) s = some ((trial, false), u))
    (rest : Missed builtins depth env array elems (start + 1) stop u t) :
    Missed builtins depth env array elems start stop s t

namespace State

def define (s : State) (env : Env) (name : String) (val : Value) : State :=
  { s with envs := s.envs.env_define env name val }

def define_all (env : Env) : List (String × Value) → State → State
  | [], s => s
  | (name, val) :: rest, s => define_all env rest (s.define env name val)

/-- A name, if there is one, is bound to a new array of a stretch of elements. -/
def stretch (s : State) (env : Env) (name : Option String) (array : Ref) (start stop : Nat) : State :=
  match name with
  | none => s
  | some name =>
    (s.with_array (((s.ev.elems array).take stop).drop start)).define env name (.array s.ev.arrays.length)

/-- What a window from `start` to `stop` that matched leaves behind. -/
def found (s : State) (binding_env trial : Env) (array : Ref) (start stop arr_len : Nat)
    (rest_name pre_rest_name : Option String) : State :=
  ((define_all binding_env (s.envs.vars trial) s).stretch binding_env pre_rest_name array 0 start).stretch binding_env
    rest_name array stop arr_len

end State

section
variable (answers : Oracle evaluator_calls State) (env : Env)

theorem define_all_run (vars : List (String × Value)) (s : State) :
    (define_all env vars).run (answering answers) s = some ((), State.define_all env vars s) := by
  induction vars generalizing s with
  | nil => rfl
  | cons var vars ih => exact ih (s.define env var.1 var.2)

theorem bind_stretch_run (name : Option String) (array : Ref) (start stop : Nat) (s : State) :
    (bind_stretch env name array start stop).run (answering answers) s = some ((), s.stretch env name array start stop) := by
  cases name with
  | none => rfl
  | some name => rfl

theorem env_vars_run (s : State) : (env_vars env "").run (answering answers) s = some (s.envs.vars env, s) := by
  have hall : ∀ var ∈ s.envs.vars env, is_suffix "" var.1 = true := fun _ _ => by simp [is_suffix]
  exact congrArg (fun vars => some (vars, s)) (List.filter_eq_self.mpr hall)

end

section
variable {builtins : Builtins} {depth : Nat} {env binding_env : Env} {array : Ref} {elems : List Node} {arr_len : Nat}
  {rest_name pre_rest_name : Option String}

theorem Missed.le {start stop : Nat} {s t : State} (h : Missed builtins depth env array elems start stop s t) :
    start ≤ stop := by
  induction h with
  | none => exact le_rfl
  | next _ _ ih => exact (Nat.le_succ _).trans ih

/-- One window of the find pattern. -/
theorem find_pattern_cons (start : Nat) (later : List Nat) :
    find_pattern env binding_env array elems arr_len rest_name pre_rest_name (start :: later) =
      try_window env array elems start >>= fun tried =>
        if tried.2 then do
          define_all binding_env (← env_vars tried.1 "")
          bind_stretch binding_env pre_rest_name array 0 start
          bind_stretch binding_env rest_name array (start + elems.length) arr_len
          return true
        else find_pattern env binding_env array elems arr_len rest_name pre_rest_name later := by
  rw [find_pattern, try_window, bind_assoc]
  refine bind_congr fun trial => ?_
  rw [bind_assoc]
  rfl

theorem found_run (trial : Env) (start : Nat) (s : State) :
    (do
      define_all binding_env (← env_vars trial "")
      bind_stretch binding_env pre_rest_name array 0 start
      bind_stretch binding_env rest_name array (start + elems.length) arr_len
      return true : P Bool).run (builtins.machine depth) s =
      some (true, s.found binding_env trial array start (start + elems.length) arr_len rest_name pre_rest_name) := by
  rw [run_bind_some (env_vars_run _ trial s), run_bind_some (define_all_run _ binding_env _ s),
    run_bind_some (bind_stretch_run ..), run_bind_some (bind_stretch_run ..)]
  rfl

/-- The find pattern tries the windows in turn and ends at the first that matches. -/
theorem find_pattern_run (start count : Nat) (s t : State) (ok : Bool) :
    (find_pattern env binding_env array elems arr_len rest_name pre_rest_name (List.range' start count)).run
        (builtins.machine depth) s = some (ok, t) ↔
      if ok then ∃ i trial u v, i < start + count ∧ Missed builtins depth env array elems start i s u ∧
        (try_window env array elems i).run (builtins.machine depth) u = some ((trial, true), v) ∧
        t = v.found binding_env trial array i (i + elems.length) arr_len rest_name pre_rest_name
      else Missed builtins depth env array elems start (start + count) s t := by
  induction count generalizing start s with
  | zero =>
    cases ok with
    | true =>
      refine iff_of_false (by rintro ⟨⟩) ?_
      rintro ⟨i, _, _, _, hi, hmissed, -⟩
      exact absurd hmissed.le (Nat.not_le.mpr hi)
    | false =>
      constructor
      · intro hrun
        cases hrun
        exact .none start _
      · intro hmissed
        cases hmissed with
        | none => rfl
        | next _ rest => exact absurd rest.le (Nat.not_succ_le_self start)
  | succ count ih =>
    rw [List.range'_succ, find_pattern_cons, run_bind_eq_some_iff]
    have hcount : start + 1 + count = start + (count + 1) := by omega
    constructor
    · rintro ⟨⟨trial, tried⟩, u, htry, hrest⟩
      cases tried with
      | true =>
        rw [if_pos rfl, found_run] at hrest
        cases hrest
        exact ⟨start, trial, s, u, by omega, .none start s, htry, rfl⟩
      | false =>
        rw [if_neg Bool.false_ne_true, ih, hcount] at hrest
        cases ok with
        | true =>
          obtain ⟨i, trial', v, w, hi, hmissed, hlast, ht⟩ := hrest
          exact ⟨i, trial', v, w, hi, .next htry hmissed, hlast, ht⟩
        | false => exact .next htry hrest
    · intro h
      cases ok with
      | true =>
        obtain ⟨i, trial, u, v, hi, hmissed, hlast, rfl⟩ := h
        cases hmissed with
        | none =>
          refine ⟨(trial, true), v, hlast, ?_⟩
          rw [if_pos rfl, found_run]
        | @next _ _ _ _ w trial' htry rest =>
          refine ⟨(trial', false), w, htry, ?_⟩
          rw [if_neg Bool.false_ne_true, ih, hcount]
          exact ⟨i, trial, u, v, hi, rest, hlast, rfl⟩
      | false =>
        cases h with
        | @next _ _ _ _ w trial' htry rest =>
          refine ⟨(trial', false), w, htry, ?_⟩
          rw [if_neg Bool.false_ne_true, ih, hcount]
          exact rest

end

/-! What a window that matched leaves bound. -/

namespace State

section
variable (s : State) {env : Env} (name : Option String) (array : Ref) (start stop : Nat)

theorem define_all_ev (env : Env) (vars : List (String × Value)) : (define_all env vars s).ev = s.ev := by
  induction vars generalizing s with
  | nil => rfl
  | cons var vars ih => exact ih (s.define env var.1 var.2)

theorem define_all_frames (env : Env) (vars : List (String × Value)) :
    (define_all env vars s).envs.frames.length = s.envs.frames.length := by
  induction vars generalizing s with
  | nil => rfl
  | cons var vars ih => exact (ih (s.define env var.1 var.2)).trans (List.length_modify ..)

theorem define_all_others {g : Env} (hne : g ≠ env) (vars : List (String × Value)) :
    (define_all env vars s).envs.vars g = s.envs.vars g := by
  induction vars generalizing s with
  | nil => rfl
  | cons var vars ih => exact (ih (s.define env var.1 var.2)).trans (s.envs.set_vars_vars_ne env _ hne)

theorem define_entry (henv : env < s.envs.frames.length) (key : String) (val : Value) (other : String) :
    entry other ((s.define env key val).envs.vars env) =
      if other = key then some val else entry other (s.envs.vars env) := by
  rw [define, EnvHeap.env_define, EnvHeap.set_vars_vars _ _ _ _ henv, if_pos rfl, entry_set_entry]

theorem define_all_entry (henv : env < s.envs.frames.length) {vars : List (String × Value)}
    (hvars : (vars.map Prod.fst).Nodup) (other : String) :
    entry other ((define_all env vars s).envs.vars env) = (entry other vars).or (entry other (s.envs.vars env)) := by
  induction vars generalizing s with
  | nil => rfl
  | cons var vars ih =>
    obtain ⟨key, val⟩ := var
    rw [List.map_cons, List.nodup_cons] at hvars
    have hlength : (s.define env key val).envs.frames.length = s.envs.frames.length := List.length_modify ..
    rw [define_all, ih _ (henv.trans_eq hlength.symm) hvars.2, s.define_entry henv, entry]
    by_cases hother : other = key
    · subst hother
      have hnone : entry other vars = none := by
        by_contra hsome
        exact hvars.1 (entry_mem_keys hsome)
      simp [hnone]
    · simp [hother, Ne.symm hother]

theorem stretch_frames : (s.stretch env name array start stop).envs.frames.length = s.envs.frames.length := by
  cases name with
  | none => rfl
  | some name => exact List.length_modify ..

theorem stretch_others {g : Env} (hne : g ≠ env) : (s.stretch env name array start stop).envs.vars g = s.envs.vars g := by
  cases name with
  | none => rfl
  | some name => exact s.envs.set_vars_vars_ne env _ hne

theorem stretch_entry (henv : env < s.envs.frames.length) (other : String) :
    entry other ((s.stretch env name array start stop).envs.vars env) =
      if name = some other then some (.array s.ev.arrays.length) else entry other (s.envs.vars env) := by
  cases name with
  | none => rfl
  | some name =>
    refine ((s.with_array _).define_entry henv name _ other).trans ?_
    simp [eq_comm, with_array]

theorem stretch_arrays :
    s.ev.arrays.length + (if name.isSome then 1 else 0) = (s.stretch env name array start stop).ev.arrays.length := by
  cases name with
  | none => rfl
  | some name => simp [stretch, define, with_array]

theorem stretch_elems {a : Ref} (ha : a < s.ev.arrays.length) :
    (s.stretch env name array start stop).ev.elems a = s.ev.elems a := by
  cases name with
  | none => rfl
  | some name => exact s.with_array_elems ha _

theorem stretch_new (hname : name.isSome) :
    (s.stretch env name array start stop).ev.elems s.ev.arrays.length = ((s.ev.elems array).take stop).drop start := by
  cases name with
  | none => cases hname
  | some name => simp [stretch, define, with_array, Eval.elems, Eval.array]

/-- The array a stretch is taken from stays, one that is not there too. -/
theorem stretch_same : (s.stretch env name array start stop).ev.elems array = s.ev.elems array := by
  by_cases harray : array < s.ev.arrays.length
  · exact s.stretch_elems name array start stop harray
  · have hnone : s.ev.elems array = [] := by
      simp [Eval.elems, Eval.array, List.getElem?_eq_none (Nat.not_lt.mp harray)]
    cases name with
    | none => rfl
    | some name =>
      simp only [stretch, hnone, List.take_nil, List.drop_nil]
      by_cases hnext : array = s.ev.arrays.length
      · simp [define, with_array, Eval.elems, Eval.array, hnext]
      · have hbeyond : s.ev.arrays.length + 1 ≤ array := Nat.lt_of_le_of_ne (Nat.not_lt.mp harray) (Ne.symm hnext)
        simp [define, with_array, Eval.elems, Eval.array, List.getElem?_eq_none, hbeyond]

end
end State

/-- What a match binds: the variables of the window's own frame, the elements
before the window and those behind it. The three make up the array. -/
structure Bound (env trial : Env) (array : Ref) (start stop arr_len : Nat) (rest_name pre_rest_name : Option String)
    (s t : State) : Prop where
  others : ∀ g, g ≠ env → t.envs.vars g = s.envs.vars g
  elems : ∀ a < s.ev.arrays.length, t.ev.elems a = s.ev.elems a
  window : ∀ name, pre_rest_name ≠ some name → rest_name ≠ some name →
    entry name (t.envs.vars env) = (entry name (s.envs.vars trial)).or (entry name (s.envs.vars env))
  before : ∀ name, pre_rest_name = some name → rest_name ≠ some name → ∃ a, s.ev.arrays.length ≤ a ∧
    entry name (t.envs.vars env) = some (.array a) ∧ t.ev.elems a = (s.ev.elems array).take start
  behind : ∀ name, rest_name = some name → ∃ b, s.ev.arrays.length ≤ b ∧
    entry name (t.envs.vars env) = some (.array b) ∧ t.ev.elems b = ((s.ev.elems array).take arr_len).drop stop
  whole : (s.ev.elems array).take start ++ ((s.ev.elems array).take stop).drop start ++
    ((s.ev.elems array).take arr_len).drop stop = (s.ev.elems array).take arr_len

theorem stretches_whole {start stop arr_len : Nat} (hstart : start ≤ stop) (hstop : stop ≤ arr_len) (xs : List Value) :
    xs.take start ++ (xs.take stop).drop start ++ (xs.take arr_len).drop stop = xs.take arr_len := by
  have hfirst : xs.take start = (xs.take stop).take start := by rw [List.take_take, Nat.min_eq_left hstart]
  have hsecond : xs.take stop = (xs.take arr_len).take stop := by rw [List.take_take, Nat.min_eq_left hstop]
  rw [hfirst, List.take_append_drop, hsecond, List.take_append_drop]

section
variable {s : State} {env trial : Env} {array : Ref} {start stop arr_len : Nat} {rest_name pre_rest_name : Option String}

theorem found_bound (henv : env < s.envs.frames.length) (htrial : s.envs.Distinct trial) (hstart : start ≤ stop)
    (hstop : stop ≤ arr_len) :
    Bound env trial array start stop arr_len rest_name pre_rest_name s
      (s.found env trial array start stop arr_len rest_name pre_rest_name) := by
  let u := State.define_all env (s.envs.vars trial) s
  let v := u.stretch env pre_rest_name array 0 start
  have hev : u.ev = s.ev := s.define_all_ev env _
  have henv_u : env < u.envs.frames.length := henv.trans_eq (s.define_all_frames env _).symm
  have henv_v : env < v.envs.frames.length := henv_u.trans_eq (u.stretch_frames pre_rest_name array 0 start).symm
  have harrays : u.ev.arrays.length + (if pre_rest_name.isSome then 1 else 0) = v.ev.arrays.length :=
    u.stretch_arrays pre_rest_name array 0 start
  have hgrows : s.ev.arrays.length ≤ v.ev.arrays.length := by
    rw [← hev]
    exact (Nat.le_add_right _ _).trans_eq harrays
  have hentry_v (other : String) : entry other (v.envs.vars env) =
      if pre_rest_name = some other then some (.array s.ev.arrays.length)
      else (entry other (s.envs.vars trial)).or (entry other (s.envs.vars env)) := by
    rw [u.stretch_entry pre_rest_name array 0 start henv_u, s.define_all_entry henv htrial, hev]
  have hentry (other : String) :
      entry other ((s.found env trial array start stop arr_len rest_name pre_rest_name).envs.vars env) =
        if rest_name = some other then some (.array v.ev.arrays.length) else entry other (v.envs.vars env) :=
    v.stretch_entry rest_name array stop arr_len henv_v other
  have hsame : v.ev.elems array = s.ev.elems array := by
    rw [u.stretch_same, hev]
  constructor
  case others =>
    intro g hne
    exact ((v.stretch_others _ _ _ _ hne).trans (u.stretch_others _ _ _ _ hne)).trans (s.define_all_others hne _)
  case elems =>
    intro a ha
    have hu : v.ev.elems a = u.ev.elems a := u.stretch_elems pre_rest_name array 0 start (hev.symm ▸ ha)
    rw [hev] at hu
    exact (v.stretch_elems _ _ _ _ (ha.trans_le hgrows)).trans hu
  case window =>
    intro name hpre hrest
    rw [hentry, if_neg hrest, hentry_v, if_neg hpre]
  case before =>
    intro name hpre hrest
    refine ⟨s.ev.arrays.length, le_rfl, by rw [hentry, if_neg hrest, hentry_v, if_pos hpre], ?_⟩
    have hnew : v.ev.elems u.ev.arrays.length = ((u.ev.elems array).take start).drop 0 :=
      u.stretch_new pre_rest_name array 0 start (by rw [hpre]; rfl)
    have hsome : pre_rest_name.isSome = true := by rw [hpre]; rfl
    rw [hev, if_pos hsome] at harrays
    have hlt : s.ev.arrays.length < v.ev.arrays.length := Nat.lt_of_succ_le harrays.le
    refine (v.stretch_elems _ _ _ _ hlt).trans ?_
    rw [hev] at hnew
    exact hnew
  case behind =>
    intro name hrest
    refine ⟨v.ev.arrays.length, hgrows, by rw [hentry, if_pos hrest], ?_⟩
    rw [← hsame]
    exact v.stretch_new rest_name array stop arr_len (by rw [hrest]; rfl)
  case whole => exact stretches_whole hstart hstop _

end

/-- Matching `[*a, p1, ..., pk, *b]` with an array from a state: it succeeds
exactly when a window matches and takes the first that does; what it binds is that
window's, for the windows before it have only written to frames of their own. -/
structure Finds (builtins : Builtins) (depth : Nat) (env binding_env : Env) (array : Ref) (elems : List Node)
    (rest_name pre_rest_name : Option String) (s : State) (outcome : Option (Bool × State)) : Prop where
  misses : ∀ t, outcome = some (false, t) ↔
    Missed builtins depth env array elems 0 ((s.ev.elems array).length + 1 - elems.length) s t
  finds : ∀ t, outcome = some (true, t) ↔ ∃ start trial u v, start + elems.length ≤ (s.ev.elems array).length ∧
    Missed builtins depth env array elems 0 start s u ∧
    (try_window env array elems start).run (builtins.machine depth) u = some ((trial, true), v) ∧
    t = v.found binding_env trial array start (start + elems.length) (s.ev.elems array).length rest_name pre_rest_name
  spared : ∀ start u, Missed builtins depth env array elems 0 start s u → Spared builtins binding_env s u
  binds : ∀ start trial u v, start + elems.length ≤ (s.ev.elems array).length →
    Missed builtins depth env array elems 0 start s u →
    (try_window env array elems start).run (builtins.machine depth) u = some ((trial, true), v) →
    Spared builtins binding_env u v ∧
      Bound binding_env trial array start (start + elems.length) (s.ev.elems array).length rest_name pre_rest_name v
        (v.found binding_env trial array start (start + elems.length) (s.ev.elems array).length rest_name pre_rest_name)

section
variable {builtins : Builtins} {depth : Nat} {g env : Env} {array : Ref} {elems : List Node}

instance spares_try_window (start : Nat) : Spares builtins depth g (try_window env array elems start) := by
  unfold try_window
  refine spares_new fun trial htrial => ?_
  exact .seq (spares_match_elements (match_spares builtins depth g) htrial ..) fun ok => .ret _

theorem try_window_distinct {start : Nat} {s t : State} {trial : Env} {ok : Bool}
    (hrun : (try_window env array elems start).run (builtins.machine depth) s = some ((trial, ok), t)) :
    t.envs.Distinct trial := by
  obtain ⟨frame, u, hnew, hrest⟩ := run_bind_eq_some_iff.mp hrun
  obtain ⟨found, v, hmatch, hret⟩ := run_bind_eq_some_iff.mp hrest
  cases hret
  refine stays_distinct hmatch ?_
  cases hnew
  have hempty : (s.envs.env_new (some env) false).2.vars s.envs.frames.length = [] := by
    rw [EnvHeap.env_new_vars, EnvHeap.vars_eq_nil _ le_rfl]
  exact (congrArg (fun vars => (vars.map Prod.fst).Nodup) hempty).mpr List.nodup_nil

/-- Windows that do not match spare the frames there are, and drop none. -/
theorem Missed.spared {start stop : Nat} {s t : State} (h : Missed builtins depth env array elems start stop s t)
    (hg : g < s.envs.frames.length) : Spared builtins g s t ∧ g < t.envs.frames.length := by
  induction h with
  | none => exact ⟨.refl, hg⟩
  | next hrun _ ih =>
    have hgrow := hg.trans_le (frames_grow hrun)
    obtain ⟨hrest, hlt⟩ := ih hgrow
    exact ⟨((spares_try_window _).spares hg hrun).trans hrest, hlt⟩

end

namespace parser

end parser

/-- The find pattern law, for every array and every pattern with a splat in
front, one behind and sub-patterns between them. -/
theorem find_pattern_law (builtins : Builtins) (depth : Nat) (env binding_env : Env) (array : Ref) (span : Span)
    (p : Node) (ps : List Node) (rest_name pre_rest_name : Option String) (s : State)
    (henv : binding_env < s.envs.frames.length) :
    Finds builtins depth env binding_env array (p :: ps) rest_name pre_rest_name s
      ((match_array_pattern env binding_env (.array array) span (p :: ps) true true rest_name pre_rest_name).run
        (builtins.machine depth) s) := by
  have hrun : (match_array_pattern env binding_env (.array array) span (p :: ps) true true rest_name pre_rest_name).run
      (builtins.machine depth) s =
      if (s.ev.elems array).length < (p :: ps).length then some (false, s)
      else (find_pattern env binding_env array (p :: ps) (s.ev.elems array).length rest_name pre_rest_name
        (List.range' 0 ((s.ev.elems array).length - (p :: ps).length + 1))).run (builtins.machine depth) s := by
    rw [match_array_pattern, ← List.range_eq_range']
    refine (run_bind_some (run_get _ s)).trans ?_
    rw [if_pos (by simp)]
    split
    · rfl
    · rfl
  have hlength : (p :: ps).length = ps.length + 1 := List.length_cons
  constructor
  case misses =>
    intro t
    rw [hrun]
    split
    · next hshort =>
      rw [show (s.ev.elems array).length + 1 - (p :: ps).length = 0 by omega]
      constructor
      · intro h
        cases h
        exact .none 0 _
      · intro h
        cases h with
        | none => rfl
        | next _ rest => exact absurd rest.le (Nat.not_succ_le_zero 0)
    · next hlong =>
      rw [find_pattern_run, if_neg Bool.false_ne_true, Nat.zero_add,
        show (s.ev.elems array).length - (p :: ps).length + 1 = (s.ev.elems array).length + 1 - (p :: ps).length by omega]
  case finds =>
    intro t
    rw [hrun]
    split
    · next hshort =>
      refine iff_of_false (by rintro ⟨⟩) ?_
      rintro ⟨start, _, _, _, hstart, -⟩
      omega
    · next hlong =>
      rw [find_pattern_run, if_pos rfl]
      have hbound : ∀ i, i < 0 + ((s.ev.elems array).length - (p :: ps).length + 1) ↔
          i + (p :: ps).length ≤ (s.ev.elems array).length := by
        intro i
        omega
      simp only [hbound]
  case spared => exact fun start u hmissed => (hmissed.spared henv).1
  case binds =>
    intro start trial u v hstart hmissed htry
    obtain ⟨-, hlt⟩ := hmissed.spared henv
    have hspared : Spared builtins binding_env u v := (spares_try_window start).spares hlt htry
    exact ⟨hspared, found_bound (hlt.trans_le (frames_grow htry)) (try_window_distinct htry) (Nat.le_add_right _ _) hstart⟩

/-- `case [1, 2, 3] in [*a, 2, *b]`: the second window matches. -/
theorem find_pattern_law_second :
    ((match_array_pattern 0 0 (.array 0) no_span [.int no_span 2] true true (some "b") (some "a")).run
      (no_builtins.machine 1) (bare_state.with_array [.int 1, .int 2, .int 3])).map Prod.fst = some true ∧
    Finds no_builtins 1 0 0 0 [.int no_span 2] (some "b") (some "a") (bare_state.with_array [.int 1, .int 2, .int 3])
      ((match_array_pattern 0 0 (.array 0) no_span [.int no_span 2] true true (some "b") (some "a")).run
        (no_builtins.machine 1) (bare_state.with_array [.int 1, .int 2, .int 3])) :=
  ⟨by decide +kernel, find_pattern_law no_builtins 1 0 0 0 no_span (.int no_span 2) [] (some "b") (some "a") _ (by decide)⟩

end stoned
