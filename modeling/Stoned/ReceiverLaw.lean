import Stoned.OpAssignLaw
import Stoned.Frames

namespace stoned

open program

/-! What a call does to the variable it finds its receiver in. -/

inductive Variable where
  | lvar (span : Span) (name : String)
  | ivar (span : Span) (name : String)
  | gvar (span : Span) (name : String)

def Variable.node : Variable → Node
  | .lvar span name => .lvar span name
  | .ivar span name => .ivar span name
  | .gvar span name => .gvar span name

/-- What a variable is bound to. -/
def Variable.read (env : Env) (s : State) : Variable → Option Value
  | .lvar _ name => s.envs.env_get env name
  | .ivar _ name =>
    match s.envs.env_get env "self" with
    | some (.object o) => entry name (s.ev.object o).ivars
    | some (.klass k) =>
      match (s.ev.klass k).class_env with
      | some class_env => s.envs.env_get class_env ("@" ++ name)
      | none => entry name s.ev.globals
    | _ => entry name s.ev.globals
  | .gvar _ name => entry name s.ev.globals

/-- A variable whose binding is replaced after a call. An instance variable's is
in an object only. -/
def Variable.Replaced (env : Env) (s : State) : Variable → Prop
  | .lvar _ _ => env < s.envs.frames.length
  | .ivar _ _ => ∃ o, s.envs.env_get env "self" = some (.object o) ∧ o < s.ev.objects.length
  | .gvar _ _ => True

/-- The expressions that send something to the value of a variable. -/
inductive Sending where
  /-- `x.method(args)` -/
  | call (span : Span) (method : String) (args : List Node) (block : Option Node) (safe_nav : Bool)
  /-- `x op right` -/
  | operator (span : Span) (op : String) (right : Node)

/-- A method that has returned an ordinary value. -/
structure Returned where
  recv : Value
  args : List Value
  result : Value

def Sending.eval (env : Env) (x : Variable) : Sending → P Value
  | .call span method args block safe_nav => eval_call env span (some x.node) method args block safe_nav
  | .operator span op right => eval_binop env span op x.node right

/-- A call up to the return of its method, or the value it ends with before. -/
def call_returned (env : Env) (span : Span) (recv_node : Node) (method : String) (arg_nodes : List Node)
    (block : Option Node) (safe_nav : Bool) : P (Value ⊕ Returned) := do
  if EVAL_MAX_DEPTH < (← get).call_depth then
    return .inl (← eval_raise_class (some span) "SystemStackError" "stack level too deep")
  match ← collect_arguments env no_arguments arg_nodes with
  | .inl signal => return .inl signal
  | .inr acc =>
    match ← block_of_call env block acc.block_pass with
    | .inl signal => return .inl signal
    | .inr blk =>
      let recv ← eval_node env (some recv_node)
      if ← stops recv then return .inl recv
      if safe_nav && recv.kind = .nil then return .inl .nil
      let subscript ←
        if recv.kind = .array && is_subscript method then array_subscript recv method acc.list (some span)
        else pure none
      match subscript with
      | some result => return .inl result
      | none =>
        let result ← dispatch_method { env, recv, name := method, args := acc.list, blk, site := some span }
        if val_is_signal result then return .inl result
        return .inr { recv, args := acc.list, result }

/-- The operators of the evaluator itself, and the method an operator sends. -/
def apply_returned (env : Env) (span : Span) (op : String) (left_node : Node) (left right : Value) :
    P (Value ⊕ Returned) := do
  match op, left, right with
  | "+", .string sval _ enc, right => return .inl (← string_plus env span sval enc right)
  | "+", .array _, .array _ => return .inl (← apply_binop env span op left_node left right)
  | "<<", .array _, _ => return .inl (← apply_binop env span op left_node left right)
  | _, _, _ =>
    if op = "==" || op = "!=" || is_rational_operand (← get) op left right then
      return .inl (← dispatch_method { env, recv := left, name := op, args := [right], site := some span })
    match ← arithmetic env op left right (some span) with
    | some result => return .inl result
    | none =>
      let result ← dispatch_method { env, recv := left, name := op, args := [right], site := some span }
      if (← get).errored then
        modify fun ev => { ev with errored := false }
        return .inl (← eval_raise_class (some span) "NoMethodError"
          ("undefined operator '" ++ op ++ "' for " ++ val_kind_name left.kind))
      return .inr { recv := left, args := [right], result }

/-- An operator up to the return of its method. -/
def operator_returned (env : Env) (span : Span) (op : String) (left_node right_node : Node) :
    P (Value ⊕ Returned) := do
  let left ← eval_node env (some left_node)
  if ← stops left then return .inl left
  if short_circuits op left then return .inl left
  if op = "&&" || op = "and" || op = "||" || op = "or" then return .inl (← eval_node env (some right_node))
  let right ← eval_node env (some right_node)
  if ← stops right then return .inl right
  apply_returned env span op left_node left right

def Sending.returned (env : Env) (x : Variable) : Sending → P (Value ⊕ Returned)
  | .call span method args block safe_nav => call_returned env span x.node method args block safe_nav
  | .operator span op right => operator_returned env span op x.node right

/-- What is done behind the return. -/
def Sending.finish (env : Env) (x : Variable) (r : Returned) : Sending → P Value
  | .call _ method _ _ _ => write_back env x.node r.recv method r.args r.result
  | .operator _ op _ => do
    if is_string r.result && (op = "<<" || op = "concat") then update_receiver env x.node r.result
    return r.result

/-- The results that are stored in the receiver's variable. -/
def Sending.stores (r : Returned) : Sending → Bool
  | .call _ method _ _ _ => is_updatable r.result && mutating_methods.contains method
  | .operator _ op _ => is_string r.result && (op = "<<" || op = "concat")

/-- A value ends the evaluation, a return goes on. -/
def Sending.rest (env : Env) (x : Variable) (form : Sending) : Value ⊕ Returned → P Value
  | .inl v => return v
  | .inr r => form.finish env x r

section
variable {env : Env} {x : Variable}

theorem subscript_returns (subscript : P (Option Value)) (span : Span) (method : String) {args : List Node}
    (block : Option Node) (safe_nav : Bool) (recv : Value) (arg_list : List Value) (blk : Option Value) :
    (do
      match ← subscript with
      | some result => return result
      | none =>
        let result ← dispatch_method { env, recv, name := method, args := arg_list, blk, site := some span }
        if val_is_signal result then return result
        write_back env x.node recv method arg_list result) = (do
      match ← subscript with
      | some result => return .inl result
      | none =>
        let result ← dispatch_method { env, recv, name := method, args := arg_list, blk, site := some span }
        if val_is_signal result then return .inl result
        return .inr { recv, args := arg_list, result }) >>=
          (Sending.call span method args block safe_nav).rest env x := by
  refine (bind_congr fun found => ?_).trans (bind_assoc _ _ _).symm
  cases found with
  | some result => rfl
  | none =>
    refine (bind_congr fun result => ?_).trans (bind_assoc _ _ _).symm
    cases val_is_signal result <;> rfl

theorem eval_call_returns (span : Span) (method : String) (args : List Node) (block : Option Node) (safe_nav : Bool) :
    eval_call env span (some x.node) method args block safe_nav =
      call_returned env span x.node method args block safe_nav >>=
        (Sending.call span method args block safe_nav).rest env x := by
  rw [eval_call, call_returned, bind_assoc]
  refine bind_congr fun ev => ?_
  by_cases hdeep : EVAL_MAX_DEPTH < ev.call_depth
  · simp only [if_pos hdeep, bind_assoc, pure_bind]
    exact (bind_pure _).symm
  · simp only [if_neg hdeep, bind_assoc]
    refine bind_congr fun collected => ?_
    cases collected with
    | inl signal => rfl
    | inr acc =>
      refine (bind_congr fun taken => ?_).trans (bind_assoc _ _ _).symm
      cases taken with
      | inl signal => rfl
      | inr blk =>
        refine (bind_congr fun recv => ?_).trans (bind_assoc _ _ _).symm
        refine (bind_congr fun stop => ?_).trans (bind_assoc _ _ _).symm
        cases stop with
        | true => rfl
        | false =>
          simp only [Bool.false_eq_true, if_false]
          cases safe_nav && decide (recv.kind = .nil) with
          | true => rfl
          | false =>
            simp only [Bool.false_eq_true, if_false]
            cases decide (recv.kind = .array) && is_subscript method <;>
              exact subscript_returns _ span method block safe_nav recv acc.list blk

theorem apply_binop_returns (span : Span) (op : String) (right_node : Node) (left right : Value) :
    apply_binop env span op x.node left right =
      apply_returned env span op x.node left right >>= (Sending.operator span op right_node).rest env x := by
  have hended (p : P Value) :
      p = (p >>= fun v => return .inl v) >>= (Sending.operator span op right_node).rest env x :=
    ((bind_assoc _ _ _).trans (bind_pure _)).symm
  unfold apply_returned
  split
  · exact hended _
  · exact hended _
  · exact hended _
  · unfold apply_binop
    split
    · next hplus _ _ => exact (hplus _ _ _ rfl rfl).elim
    · next _ _ hconcat => exact (hconcat _ _ rfl rfl rfl).elim
    · next _ hpush _ => exact (hpush _ rfl rfl).elim
    · refine (bind_congr fun ev => ?_).trans (bind_assoc _ _ _).symm
      by_cases hsent : (decide (op = "==") || decide (op = "!=") || is_rational_operand ev op left right) = true
      · rw [if_pos hsent, if_pos hsent]
        exact hended _
      · rw [if_neg hsent, if_neg hsent]
        refine (bind_congr fun computed => ?_).trans (bind_assoc _ _ _).symm
        cases computed with
        | some result => rfl
        | none =>
          refine (bind_congr fun result => ?_).trans (bind_assoc _ _ _).symm
          refine (bind_congr fun ev => ?_).trans (bind_assoc _ _ _).symm
          cases ev.errored with
          | true => exact (bind_congr fun _ => hended _).trans (bind_assoc _ _ _).symm
          | false => rfl

theorem eval_binop_returns (span : Span) (op : String) (right : Node) :
    eval_binop env span op x.node right =
      operator_returned env span op x.node right >>= (Sending.operator span op right).rest env x := by
  rw [eval_binop_eq, operator_returned, bind_assoc]
  refine bind_congr fun left => ?_
  refine (bind_congr fun stop => ?_).trans (bind_assoc _ _ _).symm
  cases stop with
  | true => rfl
  | false =>
    simp only [Bool.false_eq_true, if_false]
    cases short_circuits op left with
    | true => rfl
    | false =>
      simp only [Bool.false_eq_true, if_false, operand_value]
      by_cases hlogical : (op = "&&" || op = "and" || op = "||" || op = "or") = true
      · rw [if_pos hlogical, if_pos hlogical]
        exact ((bind_assoc _ _ _).trans (bind_pure _)).symm
      · rw [if_neg hlogical, if_neg hlogical]
        refine (bind_congr fun right => ?_).trans (bind_assoc _ _ _).symm
        refine (bind_congr fun stop => ?_).trans (bind_assoc _ _ _).symm
        cases stop with
        | true => rfl
        | false => exact apply_binop_returns ..

/-- An expression goes on only behind the return of its method. -/
theorem Sending.eval_returns (form : Sending) (env : Env) (x : Variable) :
    form.eval env x = form.returned env x >>= form.rest env x := by
  cases form with
  | call => exact eval_call_returns ..
  | operator => exact eval_binop_returns ..

/-- An instance variable is one of the object that is self. -/
theorem update_ivar_eq (answers : Oracle evaluator_calls State) (env : Env) (span : Span) (name : String)
    (result : Value) (s : State) : (update_receiver env (.ivar span name) result).run (answering answers) s =
      (match s.envs.env_get env "self" with
        | some (.object o) => val_object_set_ivar (.object o) name result
        | _ => pure ()).run (answering answers) s := rfl

/-- The new value is in the variable if that can be replaced, and nowhere else. -/
theorem update_receiver_run (answers : Oracle evaluator_calls State) (env : Env) (x : Variable) (result : Value)
    (s : State) :
    ∃ t, (update_receiver env x.node result).run (answering answers) s = some ((), t) ∧
      (x.Replaced env s → x.read env t = some result) ∧ (¬ x.Replaced env s → x.read env t = x.read env s) := by
  cases x with
  | lvar span name =>
    refine ⟨{ s with envs := s.envs.env_set env name result }, rfl, ?_, ?_⟩
    · exact fun henv => s.envs.env_get_env_set henv name result
    · intro henv
      have hframes := s.envs.env_set_of_le (Nat.not_lt.mp henv) name result
      have hsame (h h' : EnvHeap) (hframes : h'.frames = h.frames) : h' = h := by
        cases h
        cases h'
        cases hframes
        rfl
      exact congrArg (fun h => h.env_get env name) (hsame _ _ hframes)
  | ivar span name =>
    rw [Variable.node, update_ivar_eq]
    by_cases hself : ∃ o, s.envs.env_get env "self" = some (.object o)
    · obtain ⟨o, hself⟩ := hself
      let t : State := { s with ev := { s.ev with objects := s.ev.objects.modify o fun object =>
        { object with ivars := set_entry name result object.ivars } } }
      have hread (u : State) (hself : u.envs.env_get env "self" = some (.object o)) :
          Variable.read env u (.ivar span name) = entry name (u.ev.object o).ivars := by
        rw [Variable.read, hself]
      rw [hread s hself, hself]
      refine ⟨t, rfl, ?_, ?_⟩
      · rintro ⟨o', hself', ho⟩
        obtain rfl : o = o' := by simpa using hself.symm.trans hself'
        rw [hread t hself]
        simp [t, Eval.object, List.getElem?_eq_getElem ho, entry_set_entry]
      · intro hreplaced
        have ho : s.ev.objects.length ≤ o := Nat.not_lt.mp fun ho => hreplaced ⟨o, hself, ho⟩
        rw [hread t hself]
        simp [t, Eval.object, List.getElem?_eq_none ho]
    · refine ⟨s, ?_, ?_, fun _ => rfl⟩
      rotate_left
      · rintro ⟨o, hobject, -⟩
        exact absurd ⟨o, hobject⟩ hself
      split
      · next o hobject => exact absurd ⟨o, hobject⟩ hself
      · rfl
  | gvar span name =>
    refine ⟨_, rfl, ?_, fun h => absurd trivial h⟩
    intro
    exact (entry_set_entry name name result _).trans (if_pos rfl)

/-- Behind a method of something that is no string, all that is done is to
store the result. -/
theorem finish_eq {r : Returned} (hrecv : is_string r.recv = false) (env : Env) (x : Variable) (form : Sending) :
    ∃ v, form.finish env x r =
      (if form.stores r then update_receiver env x.node r.result else pure ()) >>= fun _ => return v := by
  cases form with
  | operator span op right =>
    refine ⟨r.result, ?_⟩
    rw [Sending.finish, Sending.stores]
    cases is_string r.result && (decide (op = "<<") || decide (op = "concat")) <;> rfl
  | call span method args block safe_nav =>
    refine ⟨if is_updatable r.result && mutating_methods.contains method && method = "setbyte" && 2 ≤ r.args.length
      then r.args.getD 1 .nil else r.result, ?_⟩
    have hreturns (again : Bool) : (if again = true then (return r.args.getD 1 .nil : P Value) else return r.result) =
        return if again = true then r.args.getD 1 .nil else r.result := by
      cases again <;> rfl
    rw [Sending.finish, Sending.stores, write_back]
    simp only [hrecv, Bool.and_false, Bool.false_and, Bool.false_eq_true, if_false, hreturns]
    · cases is_updatable r.result && mutating_methods.contains method <;> rfl
    · intro sval frozen encoding hstring
      rw [hstring] at hrecv
      cases hrecv

/-- A call or an operator leaves the variable of a receiver that is no string as
the method left it. -/
def KeepsReceiver (answers : Oracle evaluator_calls State) (env : Env) (x : Variable) (form : Sending) (s : State) :
    Prop :=
  ∀ r u, (form.returned env x).run (answering answers) s = some (.inr r, u) → is_string r.recv = false →
    ∀ v t, (form.finish env x r).run (answering answers) u = some (v, t) → x.read env t = x.read env u

/-- What is stored in the variable is what the method left in it. -/
def StoresNothingNew (answers : Oracle evaluator_calls State) (env : Env) (x : Variable) (form : Sending)
    (s : State) : Prop :=
  ∀ r u, (form.returned env x).run (answering answers) s = some (.inr r, u) → is_string r.recv = false →
    form.stores r → x.Replaced env u → x.read env u = some r.result

/-- The variable of a receiver is kept exactly when nothing new is stored in it. -/
theorem receiver_kept_iff (answers : Oracle evaluator_calls State) (env : Env) (x : Variable) (form : Sending)
    (s : State) :
    form.eval env x = form.returned env x >>= form.rest env x ∧
      (KeepsReceiver answers env x form s ↔ StoresNothingNew answers env x form s) := by
  refine ⟨form.eval_returns env x, forall_congr' fun r => forall_congr' fun u => ?_⟩
  refine imp_congr_right fun _ => imp_congr_right fun hrecv => ?_
  obtain ⟨v, hfinish⟩ := finish_eq hrecv env x form
  obtain ⟨t, hupdate, hstored, hkept⟩ := update_receiver_run answers env x r.result u
  cases hstores : form.stores r with
  | false =>
    refine iff_of_true ?_ (by rintro ⟨⟩)
    intro v' w hrun
    rw [hfinish, hstores] at hrun
    cases hrun
    rfl
  | true =>
    rw [hfinish, hstores, if_pos rfl, run_bind_some hupdate]
    constructor
    · intro hkeeps _ hreplaced
      exact (hkeeps v t rfl).symm.trans (hstored hreplaced)
    · intro hsame v' w hrun
      cases hrun
      by_cases hreplaced : x.Replaced env u
      · exact (hstored hreplaced).trans (hsame rfl hreplaced).symm
      · exact hkept hreplaced

end

/-- `x` is an object with a singleton method `insert` that returns an array. -/
def inserting_state : State :=
  let insert := Node.def_ no_span none "insert" [] (some (.array no_span []))
  { bare_state with
    ev := { bare_state.ev with
      objects := [{ klass := .nil, ivars := [], singleton_env := some 1, native := none, frozen := false }] }
    envs := ((bare_state.envs.env_new (some 0) false).2.env_define 1 "insert"
      (.method insert 0 .method_public none)).env_define 0 "x" (.object 0) }

/-- `x.insert` makes `x` the array. -/
theorem insert_replaces_receiver :
    ¬ KeepsReceiver ((evaluator no_builtins).oracle state_machine 4) 0 (.lvar no_span "x")
      (.call no_span "insert" [] none false) inserting_state := by
  intro hkeeps
  let x := Variable.lvar no_span "x"
  let form := Sending.call no_span "insert" [] none false
  have hreturned : ((form.returned 0 x).run (no_builtins.machine 4) inserting_state).map (fun out =>
      out.1.elim (fun _ => none) fun r => some (is_string r.recv, (x.read 0 out.2).map Value.kind,
        ((form.finish 0 x r).run (no_builtins.machine 4) out.2).map fun out => (x.read 0 out.2).map Value.kind)) =
        some (some (false, some .object, some (some .array))) := by decide
  obtain ⟨⟨returned, u⟩, hrun, hout⟩ := Option.map_eq_some_iff.mp hreturned
  cases returned with
  | inl v => cases hout
  | inr r =>
    simp only [Sum.elim_inr, Option.some.injEq, Prod.mk.injEq] at hout
    obtain ⟨hrecv, hbefore, hafter⟩ := hout
    obtain ⟨⟨v, t⟩, hfinish, hkind⟩ := Option.map_eq_some_iff.mp hafter
    have hsame := hkeeps r u hrun hrecv v t hfinish
    rw [hsame, hbefore] at hkind
    cases hkind

end stoned
