import Stoned.State
import Stoned.Program.Procedure

namespace stoned

open program

/-- What the evaluator's functions do to the state besides calling each other.
The last three change nothing: `slip` names a branch in which the source lets
the exception fields and the returned signal part, `returned` marks the return
of a built-in that answers a value, `kept` of one that answers a text or a
flag, with the fields it found. -/
inductive Op where
  | get
  | set (ev : Eval)
  | env_new (parent : Option Env) (is_def : Bool)
  | env_nearest_def (env : Env)
  | env_get (env : Env) (name : String)
  | env_get_method (env : Env) (name : String)
  | env_get_own (env : Env) (name : String)
  | env_update (env : Env) (name : String) (val : Value)
  | env_set (env : Env) (name : String) (val : Value)
  | env_define (env : Env) (name : String) (val : Value)
  | env_remove_own (env : Env) (name : String)
  | env_vars (env : Env) (suffix : String)
  | env_own_block_arg (env : Env)
  | env_block_arg (env : Env)
  | set_block_arg (env : Env) (blk : Option Value)
  | host
  | slip
  | returned (v : Value)
  | kept (before : Eval)

def Op.Answer : Op → Type
  | .get => Eval
  | .env_new .. => Env
  | .env_nearest_def _ => Option Env
  | .env_get .. | .env_get_method .. | .env_get_own .. => Option Value
  | .env_update .. | .env_remove_own .. => Bool
  | .env_vars .. => List (String × Value)
  | .env_own_block_arg _ | .env_block_arg _ => Option Value
  | .host => Option String
  | .set _ | .env_set .. | .env_define .. | .set_block_arg .. | .slip | .returned _ | .kept _ => Unit

def state_ops : Signature where
  Op := Op
  Answer := Op.Answer

/-- A binding that is a method, when the value is of no use otherwise. -/
def only_method : Option Value → Option Value
  | some (.method def_node closure visibility def_file) =>
    some (.method def_node closure visibility def_file)
  | _ => none

def is_suffix (suffix text : String) : Bool := suffix.toList.isSuffixOf text.toList

def Op.exec : (op : Op) → State → op.Answer × State
  | .get, s => (s.ev, s)
  | .set ev, s => ((), { s with ev })
  | .env_new parent is_def, s =>
    ((s.envs.env_new parent is_def).1, { s with envs := (s.envs.env_new parent is_def).2 })
  | .env_nearest_def env, s => (s.envs.env_nearest_def env, s)
  | .env_get env name, s => (s.envs.env_get env name, s)
  | .env_get_method env name, s => (only_method (s.envs.env_get env name), s)
  | .env_get_own env name, s => (s.envs.env_get_own env name, s)
  | .env_update env name val, s =>
    ((s.envs.env_update env name val).isSome,
      { s with envs := (s.envs.env_update env name val).getD s.envs })
  | .env_set env name val, s => ((), { s with envs := s.envs.env_set env name val })
  | .env_define env name val, s => ((), { s with envs := s.envs.env_define env name val })
  | .env_remove_own env name, s =>
    ((s.envs.env_remove_own env name).1, { s with envs := (s.envs.env_remove_own env name).2 })
  | .env_vars env suffix, s => ((s.envs.vars env).filter fun var => is_suffix suffix var.1, s)
  | .env_own_block_arg env, s => (s.envs.block_arg env, s)
  | .env_block_arg env, s => (s.envs.env_block_arg env, s)
  | .set_block_arg env blk, s => ((), { s with envs := s.envs.set_block_arg env blk })
  | .host, s => (s.host.head?, { s with host := s.host.tail })
  | .slip, s => ((), s)
  | .returned _, s => ((), s)
  | .kept _, s => ((), s)

/-- The machine all runs are on. -/
def state_machine : Machine state_ops State where
  exec op s := some (op.exec s)

end stoned
