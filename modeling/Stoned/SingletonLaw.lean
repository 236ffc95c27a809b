import Stoned.Evaluator
import Stoned.EnvLaw

namespace stoned

open program

/-! What the body of `class << C` leaves in the frame of C. -/

/-- What a class's frame records for the definitions behind: the object that
takes them instead of the class, and their visibility. -/
structure Recorded where
  definee : Value
  visibility : String

def EnvHeap.recorded (h : EnvHeap) (class_env : Env) : Recorded where
  definee := (h.env_get class_env "__singleton_target__").getD .nil
  visibility :=
    match h.env_get class_env "__visibility__" with
    | some (.symbol visibility) => visibility
    | _ => visibility_name .method_public

/-- The frames as `class << C` gives them to its body. -/
def EnvHeap.open_singleton (h : EnvHeap) (class_env : Env) (k : Ref) : EnvHeap :=
  (((h.env_set class_env "self" (.klass k)).env_set class_env "__class__" (.klass k)).env_set class_env
    "__singleton_target__" (.klass k)).env_define class_env "__visibility__" (.symbol (visibility_name .method_public))

/-- The frames as `class << C` leaves them behind a body that ends in no signal. -/
def EnvHeap.close_singleton (h : EnvHeap) (class_env : Env) (definee visibility : Value) : EnvHeap :=
  let h' := h.env_set class_env "__singleton_target__" definee
  match visibility with
  | .symbol visibility => h'.env_set class_env "__visibility__" (.symbol visibility)
  | _ => h'.env_define class_env "__visibility__" (.symbol (visibility_name .method_public))

section
variable {builtins : Builtins} {depth : Nat} {s s₁ t : State} {class_env : Env} {k : Ref}

/-- No run drops a frame. -/
theorem frames_grow {α : Type} {p : P α} {value : α} (hrun : p.run (builtins.machine depth) s = some (value, t)) :
    s.envs.frames.length ≤ t.envs.frames.length := by
  refine Procedures.run_preserves (I := fun u => s.envs.frames.length ≤ u.envs.frames.length) ?_ hrun le_rfl
  intro op u answer v hexec hu
  obtain ⟨-, rfl⟩ := Prod.mk.inj (Option.some.inj hexec)
  refine hu.trans ?_
  cases op with
  | env_new outer is_def => exact (u.envs.env_new_chain outer is_def).length
  | set_block_arg frame block => exact (u.envs.set_block_arg_chain frame block).length
  | env_update frame key val =>
    cases hupdate : u.envs.env_update frame key val with
    | none => simp [hupdate]
    | some h' =>
      obtain ⟨sc, -, rfl⟩ := Option.map_eq_some_iff.mp hupdate
      simp only [hupdate, Option.getD_some]
      exact (u.envs.set_vars_chain sc _).length
  | env_set frame key val =>
    simp only [EnvHeap.env_set]
    cases hupdate : u.envs.env_update frame key val with
    | none => exact (u.envs.set_vars_chain frame _).length
    | some h' =>
      obtain ⟨sc, -, rfl⟩ := Option.map_eq_some_iff.mp hupdate
      exact (u.envs.set_vars_chain sc _).length
  | env_define frame key val => exact (u.envs.set_vars_chain frame _).length
  | env_remove_own frame removed => exact (u.envs.set_vars_chain frame _).length
  | _ => exact le_rfl

theorem recorded_of_le {h : EnvHeap} (henv : h.frames.length ≤ class_env) :
    h.recorded class_env = ⟨.nil, visibility_name .method_public⟩ := by
  rw [EnvHeap.recorded, EnvHeap.env_get_of_le henv, EnvHeap.env_get_of_le henv]
  rfl

/-- What was recorded before the body is recorded behind it. -/
theorem recorded_close {h h' : EnvHeap} (hframes : h.frames.length ≤ h'.frames.length) :
    (h'.close_singleton class_env ((h.env_get class_env "__singleton_target__").getD .nil)
      ((h.env_get class_env "__visibility__").getD .nil)).recorded class_env = h.recorded class_env := by
  have hkeys : "__singleton_target__" ≠ "__visibility__" := by decide
  generalize hdefinee : (h.env_get class_env "__singleton_target__").getD .nil = definee
  generalize hvisibility : (h.env_get class_env "__visibility__").getD .nil = visibility
  by_cases henv : class_env < h'.frames.length
  · have hset := h'.env_get_env_set henv "__singleton_target__" definee
    have henv' : class_env < (h'.env_set class_env "__singleton_target__" definee).frames.length := by
      rw [EnvHeap.env_set_length]
      exact henv
    rw [EnvHeap.recorded, EnvHeap.recorded, hdefinee]
    cases hget : h.env_get class_env "__visibility__" with
    | none =>
      rw [hget] at hvisibility
      obtain rfl : Value.nil = visibility := hvisibility
      simp only [EnvHeap.close_singleton, EnvHeap.env_get_env_define_ne hkeys, hset, EnvHeap.env_get_env_define henv',
        Option.getD_some]
    | some value =>
      rw [hget] at hvisibility
      obtain rfl : value = visibility := hvisibility
      cases value with
      | symbol visibility =>
        simp only [EnvHeap.close_singleton, EnvHeap.env_get_env_set_ne hkeys, hset, EnvHeap.env_get_env_set _ henv',
          Option.getD_some]
      | _ =>
        simp only [EnvHeap.close_singleton, EnvHeap.env_get_env_define_ne hkeys, hset, EnvHeap.env_get_env_define henv',
          Option.getD_some]
  · have hle := Nat.not_lt.mp henv
    have hclosed : (h'.close_singleton class_env definee visibility).frames.length ≤ class_env := by
      cases visibility <;>
        simpa only [EnvHeap.close_singleton, EnvHeap.env_define, EnvHeap.set_vars, List.length_modify,
          EnvHeap.env_set_length] using hle
    rw [recorded_of_le hclosed, recorded_of_le (hframes.trans hle)]

/-- What `class << C` does behind its body. -/
def close_sclass (class_env : Env) (definee visibility result : Value) : P Value := do
  env_set class_env "__singleton_target__" definee
  match visibility with
  | .symbol visibility => env_set class_env "__visibility__" (.symbol visibility)
  | _ => set_current_method_visibility class_env .method_public
  return result

theorem close_run (definee visibility result : Value) (u : State) :
    (close_sclass class_env definee visibility result).run (builtins.machine depth) u =
      some (result, { u with envs := u.envs.close_singleton class_env definee visibility }) := by
  cases visibility <;> rfl

/-- A class statement's `class << C`: with a body that ends in no signal it closes what it has opened. -/
theorem sclass_run {env : Env} {span : Span} {recv : Node} {body : Option Node} {result : Value}
    (hrecv : (eval_node env (some recv)).run (builtins.machine depth) s = some (.klass k, s₁))
    (hgoes : s₁.ev.errored = false) (hclass : (s₁.ev.klass k).class_env = some class_env)
    (hrun : (eval_sclass env span recv body).run (builtins.machine depth) s = some (result, t)) :
    (body = none ∧ t.envs = (s₁.envs.open_singleton class_env k).close_singleton class_env
      ((s₁.envs.env_get class_env "__singleton_target__").getD .nil)
      ((s₁.envs.env_get class_env "__visibility__").getD .nil)) ∨
    ∃ b u, body = some b ∧
      (eval_node class_env (some b)).run (builtins.machine depth)
        { s₁ with envs := s₁.envs.open_singleton class_env k } = some (result, u) ∧
      t.envs = if val_is_signal result then u.envs else u.envs.close_singleton class_env
        ((s₁.envs.env_get class_env "__singleton_target__").getD .nil)
        ((s₁.envs.env_get class_env "__visibility__").getD .nil) := by
  have henv : (singleton_class_env (.klass k)).run (builtins.machine depth) s₁ = some (some class_env, s₁) := by
    refine (run_bind_some (run_get _ s₁)).trans ?_
    rw [hclass]
    rfl
  rw [eval_sclass, run_bind_some hrecv, check, run_bind_some (run_stops _ s₁ _), hgoes] at hrun
  replace hrun := (run_bind_some henv).symm.trans hrun
  -- the values to restore are read behind the writes of self and its class
  have hread {key : String} (hself : key ≠ "self") (hclass : key ≠ "__class__") :
      ((s₁.envs.env_set class_env "self" (.klass k)).env_set class_env "__class__" (.klass k)).env_get class_env key =
        s₁.envs.env_get class_env key := by
    rw [EnvHeap.env_get_env_set_ne hclass, EnvHeap.env_get_env_set_ne hself]
  have hdefinee := hread (show "__singleton_target__" ≠ "self" by decide) (by decide)
  have hvisibility := hread (show "__visibility__" ≠ "self" by decide) (by decide)
  rw [← hdefinee, ← hvisibility]
  cases body with
  | none =>
    left
    refine ⟨rfl, ?_⟩
    have hclose := (close_run _ _ (.klass k) { s₁ with envs := s₁.envs.open_singleton class_env k }).symm.trans hrun
    obtain ⟨-, rfl⟩ := Prod.mk.inj (Option.some.inj hclose)
    rfl
  | some b =>
    right
    generalize hdefinee' : Option.getD _ Value.nil = definee
    generalize hvisibility' : Option.getD _ Value.nil = visibility
    have hrest : (eval_node class_env (some b) >>= fun v =>
        if val_is_signal v then pure v else close_sclass class_env definee visibility v).run (builtins.machine depth)
          { s₁ with envs := s₁.envs.open_singleton class_env k } = some (result, t) := by
      rw [← hdefinee', ← hvisibility']
      exact hrun
    obtain ⟨v, u, hbody, hclose⟩ := run_bind_eq_some_iff.mp hrest
    refine ⟨b, u, rfl, ?_⟩
    split at hclose
    · cases hclose
      rename_i hsignal
      exact ⟨hbody, (if_pos hsignal).symm⟩
    · obtain ⟨rfl, rfl⟩ := Prod.mk.inj (Option.some.inj ((close_run definee visibility v u).symm.trans hclose))
      rename_i hsignal
      exact ⟨hbody, (if_neg hsignal).symm⟩

/-- A body that ends in a signal has left what the frame recorded before it. -/
def BodyKeeps (builtins : Builtins) (depth : Nat) (s : State) (class_env : Env) (k : Ref) (body : Option Node) : Prop :=
  ∀ b v u, body = some b →
    (eval_node class_env (some b)).run (builtins.machine depth)
      { s with envs := s.envs.open_singleton class_env k } = some (v, u) →
    val_is_signal v = true → u.envs.recorded class_env = s.envs.recorded class_env

/-- `class << C` leaves the definee and the visibility in the frame of C as they
were exactly when its body ends in no signal or has left them so itself. -/
theorem sclass_keeps_iff {env : Env} {span : Span} {recv : Node} {body : Option Node} {result : Value}
    (hrecv : (eval_node env (some recv)).run (builtins.machine depth) s = some (.klass k, s₁))
    (hgoes : s₁.ev.errored = false) (hclass : (s₁.ev.klass k).class_env = some class_env)
    (hrun : (eval_sclass env span recv body).run (builtins.machine depth) s = some (result, t)) :
    t.envs.recorded class_env = s₁.envs.recorded class_env ↔ BodyKeeps builtins depth s₁ class_env k body := by
  have hopen : s₁.envs.frames.length ≤ (s₁.envs.open_singleton class_env k).frames.length := by
    rw [EnvHeap.open_singleton, EnvHeap.env_define, EnvHeap.set_vars, List.length_modify, EnvHeap.env_set_length,
      EnvHeap.env_set_length, EnvHeap.env_set_length]
  rcases sclass_run hrecv hgoes hclass hrun with ⟨rfl, hclosed⟩ | ⟨b, u, rfl, hbody, hclosed⟩
  · rw [hclosed, recorded_close hopen]
    refine iff_of_true rfl ?_
    rintro b v u ⟨⟩
  · constructor
    · rintro hkeeps b' v u' ⟨⟩ hbody' hsignal
      rw [hbody] at hbody'
      obtain ⟨rfl, rfl⟩ := Prod.mk.inj (Option.some.inj hbody')
      rw [if_pos hsignal] at hclosed
      rw [← hclosed]
      exact hkeeps
    · intro hkeeps
      rw [hclosed]
      by_cases hsignal : val_is_signal result = true
      · rw [if_pos hsignal]
        exact hkeeps b result u rfl hbody hsignal
      · rw [if_neg hsignal]
        exact recorded_close (hopen.trans (frames_grow hbody))

end

/-- `class C; private; …`, in the body of C. -/
def class_body_state : State :=
  let c : RubyClass := {
    name := "C", superclass := none, class_env := some 1, prepended_modules := []
    included_modules := [], extended_modules := [], is_module := false }
  let frames := (bare_state.envs.env_new (some 0) true).2.env_define 1 "self" (.klass 0)
  { bare_state with
    ev := { bare_state.ev with classes := [c] }
    envs := (frames.env_define 1 "__singleton_target__" .nil).env_define 1 "__visibility__" (.symbol "private") }

/-- `class << self; nil; end` leaves what is recorded. -/
theorem nil_body_keeps : ∃ t, (eval_sclass 1 no_span (.self no_span) (some (.nil no_span))).run (no_builtins.machine 2)
    class_body_state = some (.nil, t) ∧ t.envs.recorded 1 = class_body_state.envs.recorded 1 := by
  have hrecv : (eval_node 1 (some (.self no_span))).run (no_builtins.machine 2) class_body_state =
    some (.klass 0, class_body_state) := rfl
  obtain ⟨t, hrun⟩ : ∃ t, (eval_sclass 1 no_span (.self no_span) (some (.nil no_span))).run (no_builtins.machine 2)
    class_body_state = some (.nil, t) := ⟨_, rfl⟩
  refine ⟨t, hrun, (sclass_keeps_iff hrecv rfl rfl hrun).mpr ?_⟩
  rintro b v u ⟨⟩ hbody hsignal
  cases hbody
  cases hsignal

/-- `class << self; next; end` leaves C as the definee and the visibility public. -/
theorem next_body_leaves_singleton : ∃ t,
    (eval_sclass 1 no_span (.self no_span) (some (.next_ no_span none))).run (no_builtins.machine 2) class_body_state =
      some (.next .nil, t) ∧
    class_body_state.envs.recorded 1 = ⟨.nil, "private"⟩ ∧ t.envs.recorded 1 = ⟨.klass 0, "public"⟩ :=
  ⟨_, rfl, rfl, rfl⟩

end stoned
