import Stoned.Kernel

namespace stoned

open program

/-! Array and hash literals (eval.c) and the arguments of a call (eval_dispatch.c, eval_call). -/

/-- What `*x` adds to an array literal: nothing for nil, the elements of an
array or of what `to_a` makes of it, and the value itself when that fails. -/
def splat_elems (env : Env) (span : Span) (splat : Value) : P (List Value) := do
  match splat with
  | .array a => return (← get).elems a
  | .nil => return []
  | splat =>
    let as_arr ← dispatch_method { env, recv := splat, name := "to_a", site := some span }
    let ev ← get
    match ev.errored, as_arr with
    | false, .array a => return ev.elems a
    | _, as_arr =>
      -- the message of a failed conversion stays behind
      if as_arr.kind = .exception then slip
      modify fun ev => { ev with errored := false, exception_class := none }
      return [splat]

def val_array_push_all (array : Ref) : List Value → P Unit
  | [] => return ()
  | elem :: rest => do
    val_array_push array elem
    val_array_push_all array rest

/-- The operand of a `*x` among elements or arguments. -/
def splat_operand : Node → Option Node
  | .unop _ op operand => if op = "*" then some operand else none
  | _ => none

def eval_elements (env : Env) (arr : Ref) : List Node → P Value
  | [] => return .array arr
  | el :: rest => do
    match splat_operand el with
    | some operand =>
      let splat ← eval_node env (some operand)
      check splat do
        val_array_push_all arr (← splat_elems env el.span splat)
        eval_elements env arr rest
    | none =>
      let elem ← eval_node env (some el)
      check elem do
        val_array_push arr elem
        eval_elements env arr rest

/-- An array literal. -/
def eval_array (env : Env) (elements : List Node) : P Value := do
  match ← val_array_of [] with
  | .array arr => eval_elements env arr elements
  | arr => return arr

def eval_pairs (env : Env) (hash : Ref) : List Node → P Value
  | [] => return .hash hash
  | .pair _ none value :: rest => do
    let splat ← eval_node env (some value)
    check splat do
      match splat with
      | .hash h => val_hash_set_all hash ((← get).hash h).pairs
      | _ => pure ()
      eval_pairs env hash rest
  | .pair _ (some key) value :: rest => do
    let key ← eval_node env (some key)
    check key do
      let val ← eval_node env (some value)
      check val do
        val_hash_set hash key val
        eval_pairs env hash rest
  | _ :: rest => eval_pairs env hash rest

/-- A hash literal, also the keywords of a call. -/
def eval_hash (env : Env) (pairs : List Node) : P Value := do
  eval_pairs env (← val_hash_new) pairs

/-- What has been collected of a call's arguments: the slots of the argument
buffer in use, the merged keywords and the block argument's expression. -/
structure Arguments where
  args : List Value
  kwargs : Option Ref
  block_pass : Option (Option Node)

/-- The slots of the argument buffer. -/
def MAX_ARGS : Nat := 64

/-- Fills the buffer from a list, as far as it goes. -/
def Arguments.push_all (acc : Arguments) (vals : List Value) : Arguments :=
  { acc with args := acc.args ++ vals.take (MAX_ARGS - acc.args.length) }

def Arguments.push (acc : Arguments) (val : Value) : Arguments := { acc with args := acc.args ++ [val] }

/-- Adds the pairs of a keyword hash to the merged one. A value that is no
hash becomes a plain argument. -/
def merge_keywords (acc : Arguments) (val : Value) : P Arguments := do
  match val with
  | .hash h =>
    let kwargs ← match acc.kwargs with
      | some kwargs => pure kwargs
      | none => val_hash_new
    val_hash_set_all kwargs ((← get).hash h).pairs
    return { acc with kwargs := some kwargs }
  | val => return acc.push val

/-- The form an argument has in a call. -/
inductive ArgumentForm where
  | block_pass (expr : Option Node)
  | splat (operand : Node)
  | keywords (hash : Node)
  | plain (node : Node)

def argument_form : Node → ArgumentForm
  | .block_pass _ expr => .block_pass expr
  | .unop span op operand =>
    if op = "*" then .splat operand
    else if op = "**" then .keywords operand
    else .plain (.unop span op operand)
  | .hash span pairs keyword_style =>
    if keyword_style then .keywords (.hash span pairs keyword_style) else .plain (.hash span pairs keyword_style)
  | node => .plain node

/-- Adds one argument, or answers the signal it evaluates to. -/
def collect_argument (env : Env) (acc : Arguments) (arg : Node) : P (Value ⊕ Arguments) := do
  match argument_form arg with
  | .block_pass expr => return .inr { acc with block_pass := some expr }
  | .splat operand =>
    let splat ← eval_node env (some operand)
    if ← stops splat then return .inl splat
    match splat with
    | .array a => return .inr (acc.push_all ((← get).elems a))
    | splat => return .inr (acc.push splat)
  | .keywords hash =>
    let khash ← eval_node env (some hash)
    if ← stops khash then return .inl khash
    return .inr (← merge_keywords acc khash)
  | .plain node =>
    let a ← eval_node env (some node)
    if ← stops a then return .inl a
    return .inr (acc.push a)

/-- Collects the arguments from the left. A full buffer ends the collection. -/
def collect_arguments (env : Env) : Arguments → List Node → P (Value ⊕ Arguments)
  | acc, [] => return .inr acc
  | acc, arg :: rest => do
    if MAX_ARGS ≤ acc.args.length then return .inr acc
    match ← collect_argument env acc arg with
    | .inl signal => return .inl signal
    | .inr acc => collect_arguments env acc rest

/-- The argument list of a call: what was collected, and behind it the merged
keywords if a slot is left. -/
def Arguments.list (acc : Arguments) : List Value :=
  match acc.kwargs with
  | some kwargs => if acc.args.length < MAX_ARGS then acc.args ++ [.hash kwargs] else acc.args
  | none => acc.args

end stoned
