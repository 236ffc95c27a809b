import Stoned.Value

namespace stoned

/-- A frame. `is_def` marks a hard scope boundary; `block_arg` is the block
passed to the call the frame belongs to. -/
structure EnvFrame where
  vars : List (String × Value)
  parent : Option Env
  is_def : Bool
  block_arg : Option Value

/-- The frames made so far. A frame's parent was made before it, so every
chain of parents ends. -/
structure EnvHeap where
  frames : List EnvFrame
  parent_lt : ∀ (env : Env) (frame : EnvFrame), frames[env]? = some frame →
    ∀ outer, frame.parent = some outer → outer < env

namespace EnvHeap

def empty : EnvHeap where
  frames := []
  parent_lt := by simp

variable (h : EnvHeap)

def frame (env : Env) : Option EnvFrame := h.frames[env]?

/-- The bindings of one frame, the newest first. -/
def vars (env : Env) : List (String × Value) := (h.frame env).elim [] EnvFrame.vars

def is_def (env : Env) : Bool := (h.frame env).elim false EnvFrame.is_def

def parent (env : Env) : Option Env := (h.frame env).bind EnvFrame.parent

def block_arg (env : Env) : Option Value := (h.frame env).bind EnvFrame.block_arg

theorem parent_lt_self {env outer : Nat} (hparent : h.parent env = some outer) : outer < env := by
  obtain ⟨frame, hframe, hlink⟩ := Option.bind_eq_some_iff.mp hparent
  exact h.parent_lt env frame hframe outer hlink

/-- At most `fuel` frames of the walk `for (sc = env; sc; sc = sc->parent)`,
which `stop` may cut short behind a frame. -/
def walk (stop : Env → Bool) : Nat → Env → List Env
  | 0, _ => []
  | fuel + 1, env =>
    env :: if stop env then [] else
      match h.parent env with
      | some outer => walk stop fuel outer
      | none => []

/-- More fuel than the frame's index changes nothing: parents are older. -/
theorem walk_fuel (stop : Env → Bool) {fuel env : Nat} (hfuel : env < fuel) :
    h.walk stop fuel env = h.walk stop (env + 1) env := by
  induction fuel using Nat.strong_induction_on generalizing env with
  | _ fuel ih =>
    obtain ⟨fuel, rfl⟩ : ∃ n, fuel = n + 1 := ⟨fuel - 1, by omega⟩
    simp only [walk]
    congr 1
    split
    · rfl
    · cases hparent : h.parent env with
      | none => rfl
      | some outer =>
        have holder := h.parent_lt_self hparent
        have hleft := ih fuel (by omega) (Nat.lt_of_lt_of_le holder (by omega))
        by_cases henv : env = fuel
        · subst henv
          rfl
        · have hright := ih env (by omega) holder
          exact hleft.trans hright.symm

/-- The frames `for (sc = env; sc; sc = sc->parent)` visits. -/
def scopes (env : Env) : List Env := h.walk (fun _ => false) (env + 1) env

/-- The frames of the same walk when it ends behind a scope boundary. -/
def scopes_to_def (env : Env) : List Env := h.walk h.is_def (env + 1) env

theorem scopes_eq (env : Env) :
    h.scopes env = env :: ((h.parent env).elim [] h.scopes) := by
  unfold scopes
  rw [walk]
  cases hparent : h.parent env with
  | none => simp
  | some outer =>
    simp only [Bool.false_eq_true, if_false, Option.elim_some]
    rw [h.walk_fuel _ (h.parent_lt_self hparent)]

theorem scopes_to_def_eq (env : Env) :
    h.scopes_to_def env =
      env :: if h.is_def env then [] else (h.parent env).elim [] h.scopes_to_def := by
  unfold scopes_to_def
  rw [walk]
  cases hparent : h.parent env with
  | none => simp
  | some outer =>
    simp only [Option.elim_some]
    rw [h.walk_fuel _ (h.parent_lt_self hparent)]

/-- Replaces the bindings of one frame. -/
def set_vars (env : Env) (f : List (String × Value) → List (String × Value)) : EnvHeap where
  frames := h.frames.modify env fun frame => { frame with vars := f frame.vars }
  parent_lt := by
    intro other frame hframe outer hlink
    rw [List.getElem?_modify] at hframe
    obtain ⟨old, hold, rfl⟩ := Option.map_eq_some_iff.mp hframe
    refine h.parent_lt other old hold outer ?_
    split at hlink <;> exact hlink

def set_block_arg (env : Env) (block : Option Value) : EnvHeap where
  frames := h.frames.modify env fun frame => { frame with block_arg := block }
  parent_lt := by
    intro other frame hframe outer hlink
    rw [List.getElem?_modify] at hframe
    obtain ⟨old, hold, rfl⟩ := Option.map_eq_some_iff.mp hframe
    refine h.parent_lt other old hold outer ?_
    split at hlink <;> exact hlink

/-- A new frame, with no bindings. A parent that is not a frame made before is
left out. -/
def env_new (parent : Option Env) (is_def : Bool) : Env × EnvHeap where
  fst := h.frames.length
  snd := {
    frames := h.frames ++ [{
      vars := [], parent := parent.filter (· < h.frames.length), is_def, block_arg := none }]
    parent_lt := by
      intro env frame hframe outer hlink
      rw [List.getElem?_append] at hframe
      split at hframe
      · exact h.parent_lt env frame hframe outer hlink
      · next hnew =>
        rw [List.getElem?_singleton] at hframe
        split at hframe
        · obtain rfl := Option.some.inj hframe
          simp only [Option.filter_eq_some_iff, decide_eq_true_eq] at hlink
          exact lt_of_lt_of_le hlink.2 (not_lt.mp hnew)
        · cases hframe }

def env_nearest_def (env : Env) : Option Env := (h.scopes env).find? h.is_def

def env_get (env : Env) (name : String) : Option Value :=
  (h.scopes env).findSome? fun sc => entry name (h.vars sc)

/-- Looks only in this frame. -/
def env_get_own (env : Env) (name : String) : Option Value := entry name (h.vars env)

/-- Updates an existing binding, not crossing a scope boundary; nothing if
there is none. -/
def env_update (env : Env) (name : String) (val : Value) : Option EnvHeap :=
  ((h.scopes_to_def env).find? fun sc => (entry name (h.vars sc)).isSome).map fun sc =>
    h.set_vars sc (set_entry name val)

def env_set (env : Env) (name : String) (val : Value) : EnvHeap :=
  (h.env_update env name val).getD (h.set_vars env fun vars => (name, val) :: vars)

/-- Defines in the current frame only. -/
def env_define (env : Env) (name : String) (val : Value) : EnvHeap :=
  h.set_vars env (set_entry name val)

/-- Drops the newest binding of a name from the current frame. -/
def env_remove_own (env : Env) (name : String) : Bool × EnvHeap :=
  ((h.env_get_own env name).isSome, h.set_vars env fun vars => vars.eraseP fun var => var.1 = name)

/-- The block in effect: that of the nearest frame which has one, not crossing
a scope boundary. -/
def env_block_arg (env : Env) : Option Value :=
  (h.scopes_to_def env).findSome? h.block_arg

end EnvHeap
end stoned
