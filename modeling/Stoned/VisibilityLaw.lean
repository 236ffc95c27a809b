import Stoned.ClassGraph
import Stoned.Keys

namespace stoned

open program

/-! Which calls of protected and private methods are allowed. -/

/-- The class that a constant of the top-level frame names. -/
def State.top_class (s : State) (name : String) : Option Ref :=
  match s.envs.env_get s.ev.top_env name with
  | some (.klass k) => some k
  | _ => none

/-- The class of a value, as `val_class_of` finds it. -/
def State.class_of (s : State) : Value → Option Ref
  | .object o => s.ev.class_of_object o
  | .klass k => s.top_class (if (s.ev.klass k).is_module then "Module" else "Class")
  | v => s.top_class (prim_class_name s.ev v)

/-- A value is an instance of a class or module. -/
def State.Instance (s : State) (v : Value) (target : Ref) : Prop :=
  ∃ k, s.class_of v = some k ∧ s.ev.Ancestor target k

section
variable (builtins : Builtins) (depth : Nat) (s : State)

/-- What `val_equal` answers. -/
def equal_answer (a b : Value) : Option Bool := ((val_equal a b).run (builtins.machine depth) s).map Prod.fst

/-- Two values are one object, as `equal?` has it: what has no identity goes by
value. The address is that of a string's text or of a block's node. -/
def SameObject (a b : HashKey) : Prop := val_identity_equal (equal_answer builtins depth s) a b = some true

/-- What the visibility of a method of an owner promises of a call with an
explicit receiver: whether it is allowed. -/
def VisibilityPromise (caller recv : HashKey) (owner : Ref) (allowed : Bool) : MethodVisibility → Prop
  | .method_public => allowed = true
  | .method_protected => allowed = true ↔ s.Instance recv.value owner ∧ s.Instance caller.value owner
  | .method_private => allowed = true → SameObject builtins depth s caller recv

/-- The class of an object has the owner among its superclasses. -/
def State.Inherits (s : State) (v : Value) (owner : Ref) : Prop :=
  ∃ o k, v = .object o ∧ s.ev.class_of_object o = some k ∧ owner ∈ s.ev.superclasses (some k)

/-- When the promise is kept: a protected method of a class that both inherit
from, or of an owner that not both are instances of; a private method, unless
two different strings, arrays or hashes are equal. -/
def PromiseCondition (caller recv : HashKey) (owner : Ref) : MethodVisibility → Prop
  | .method_public => True
  | .method_protected =>
    s.Instance recv.value owner ∧ s.Instance caller.value owner →
      s.Inherits recv.value owner ∧ s.Inherits caller.value owner
  | .method_private =>
    caller.value.kind = recv.value.kind → caller.value.kind = .string ∨ caller.value.kind = .array ∨ caller.value.kind = .hash →
      equal_answer builtins depth s caller.value recv.value = some true → SameObject builtins depth s caller recv

variable {builtins depth s}

/-- A class has its superclasses among its ancestors. -/
theorem instance_of_inherits (hrun : ClassRun s.ev) {v : Value} {owner : Ref} (h : s.Inherits v owner) :
    s.Instance v owner := by
  obtain ⟨o, k, rfl, hk, howner⟩ := h
  refine ⟨k, hk, .chain ?_⟩
  rw [hrun.chain_eq]
  exact howner

variable {env : Env} {caller recv : HashKey} {owner : Ref} {explicit_receiver : Int}

theorem self_run (hself : s.envs.env_get env "self" = some caller.value) :
    (env_get env "self").run (builtins.machine depth) s = some (some caller.value, s) :=
  congrArg (fun self => some (self, s)) hself

theorem not_inherits {v : Value} (hkind : v.kind ≠ .object) : ¬s.Inherits v owner := by
  rintro ⟨o, k, rfl, -, -⟩
  exact hkind rfl

/-- The check of a protected method goes along the superclasses. -/
theorem protected_allowed (hself : s.envs.env_get env "self" = some caller.value) (hexplicit : ¬explicit_receiver < 0)
    {allowed : Bool} {t : State}
    (h : (method_visibility_allows_call env recv.value (some owner) .method_protected false explicit_receiver).run
      (builtins.machine depth) s = some (allowed, t)) :
    allowed = true ↔ s.Inherits recv.value owner ∧ s.Inherits caller.value owner := by
  have hget : (env_get env "self").run (builtins.machine depth) s = some (some caller.value, s) := self_run hself
  rw [method_visibility_allows_call, if_neg hexplicit] at h
  replace h := (run_bind_some hget).symm.trans h
  generalize caller.value = c at h ⊢
  generalize recv.value = r at h ⊢
  by_cases hobjects : c.kind = .object ∧ r.kind = .object
  · obtain ⟨o, rfl⟩ : ∃ o, c = .object o := by cases c <;> first | exact ⟨_, rfl⟩ | cases hobjects.1
    obtain ⟨o', rfl⟩ : ∃ o', r = .object o' := by cases r <;> first | exact ⟨_, rfl⟩ | cases hobjects.2
    replace h := (run_bind_some (run_get _ s)).symm.trans h
    simp only [State.Inherits, Value.object.injEq, existsAndEq, true_and]
    cases hc : s.ev.class_of_object o with
    | none =>
      rw [hc] at h
      cases h
      simp
    | some k =>
      cases hr : s.ev.class_of_object o' with
      | none =>
        rw [hc, hr] at h
        cases h
        simp
      | some k' =>
        rw [hc, hr] at h
        cases h
        simp [class_inherits_from, and_comm]
  · have hnot : ¬(s.Inherits r owner ∧ s.Inherits c owner) := by
      rintro ⟨hr, hc⟩
      exact hobjects ⟨by_contra fun hkind => not_inherits hkind hc, by_contra fun hkind => not_inherits hkind hr⟩
    have hrefused : allowed = false := by
      cases c <;> first | (cases h; rfl) | skip
      cases r <;> first | (cases h; rfl) | exact absurd ⟨rfl, rfl⟩ hobjects
    rw [hrefused]
    simpa using hnot

/-- A private method may be called on what `val_equal` takes for the caller. -/
theorem private_allowed (hself : s.envs.env_get env "self" = some caller.value) (hexplicit : ¬explicit_receiver < 0)
    {allowed : Bool} {t : State}
    (h : (method_visibility_allows_call env recv.value (some owner) .method_private false explicit_receiver).run
      (builtins.machine depth) s = some (allowed, t)) :
    allowed = true ↔ caller.value.kind = recv.value.kind ∧
      equal_answer builtins depth s caller.value recv.value = some true := by
  have hget : (env_get env "self").run (builtins.machine depth) s = some (some caller.value, s) := self_run hself
  rw [method_visibility_allows_call, if_neg hexplicit] at h
  replace h := (run_bind_some hget).symm.trans h
  dsimp only at h
  split at h
  · rename_i hkind
    rw [equal_answer, h]
    simp [hkind]
  · rename_i hkind
    cases h
    simp [hkind]

theorem equal_body {a b : Value} (h : equal_answer builtins depth s a b = some true) :
    ∃ depth t, (val_equal_body a b).run (builtins.machine depth) s = some (true, t) := by
  obtain ⟨⟨answer, t⟩, hrun, rfl⟩ := Option.map_eq_some_iff.mp h
  cases depth with
  | zero => cases hrun
  | succ depth => exact ⟨depth, t, (run_call builtins depth (.val_equal a b) s).symm.trans hrun⟩

/-- What is equal is one object, strings, arrays and hashes apart. -/
theorem same_of_equal (hkind : caller.value.kind = recv.value.kind)
    (hequal : equal_answer builtins depth s caller.value recv.value = some true)
    (hother : ¬(caller.value.kind = .string ∨ caller.value.kind = .array ∨ caller.value.kind = .hash)) :
    SameObject builtins depth s caller recv := by
  obtain ⟨depth', t, hbody⟩ := equal_body hequal
  obtain ⟨c, caller_address⟩ := caller
  obtain ⟨r, recv_address⟩ := recv
  rw [SameObject, val_identity_equal, if_pos hkind]
  cases c with
  | object o | klass o =>
    -- objects and classes are compared by identity
    cases r <;> cases hkind
    obtain ⟨hsame, -⟩ := Prod.mk.inj (Option.some.inj hbody)
    exact congrArg some hsame
  | block =>
    cases r <;> cases hkind
    cases hbody
  | string | array | hash => simp [Value.kind] at hother
  | _ => cases r <;> first | cases hkind; exact hequal | cases hkind

theorem promise_public {allowed : Bool} {t : State}
    (h : (method_visibility_allows_call env recv.value (some owner) .method_public false explicit_receiver).run
      (builtins.machine depth) s = some (allowed, t)) : allowed = true := by
  rw [method_visibility_allows_call] at h
  split at h <;> (cases h; rfl)

end

/-- The check keeps the promise of a method's visibility exactly when the condition holds. -/
theorem visibility_promise_iff (builtins : Builtins) (depth : Nat) (s t : State) (hrun : ClassRun s.ev) (env : Env)
    (caller recv : HashKey) (owner : Ref) (visibility : MethodVisibility) (explicit_receiver : Int) (allowed : Bool)
    (hself : s.envs.env_get env "self" = some caller.value) (hexplicit : ¬explicit_receiver < 0)
    (h : (method_visibility_allows_call env recv.value (some owner) visibility false explicit_receiver).run
      (builtins.machine depth) s = some (allowed, t)) :
    VisibilityPromise builtins depth s caller recv owner allowed visibility ↔
      PromiseCondition builtins depth s caller recv owner visibility := by
  cases visibility with
  | method_public => simpa [VisibilityPromise, PromiseCondition] using promise_public h
  | method_protected =>
    rw [VisibilityPromise, PromiseCondition, protected_allowed hself hexplicit h]
    constructor
    · exact fun hiff => hiff.mpr
    · exact fun himp => ⟨fun hboth => ⟨instance_of_inherits hrun hboth.1, instance_of_inherits hrun hboth.2⟩, himp⟩
  | method_private =>
    rw [VisibilityPromise, PromiseCondition, private_allowed hself hexplicit h]
    constructor
    · exact fun himp hkind _ hequal => himp ⟨hkind, hequal⟩
    · rintro hcondition ⟨hkind, hequal⟩
      by_cases hother : caller.value.kind = .string ∨ caller.value.kind = .array ∨ caller.value.kind = .hash
      · exact hcondition hkind hother hequal
      · exact same_of_equal hkind hequal hother

/-- `module M; protected def g; end; end; class C; include M; end`, two instances
of C and a method of the first one that runs. -/
def protected_state : State :=
  let m := { new_class_or_module "M" none true with class_env := some 1 }
  let c := { new_class_or_module "C" (some 0) false with included_modules := [core_classes.length] }
  let object : RubyObject := {
    klass := .klass (core_classes.length + 1), ivars := [], singleton_env := none, native := none, frozen := false }
  let g := .method (.def_ no_span none "g" [] none) 0 .method_protected none
  { bare_state with
    ev := { bare_state.ev with classes := core_classes ++ [m] ++ [c], objects := [object, object] }
    envs := ((bare_state.envs.env_new (some 0) true).2.env_define 1 "g" g).env_define 0 "self" (.object 0) }

theorem protected_state_run : ClassRun protected_state.ev :=
  (two_more_run.weaken fun _ _ _ => trivial).between rfl

/-- A protected method of C may be called. -/
theorem class_owner_promise :
    VisibilityPromise no_builtins 0 protected_state ⟨.object 0, 0⟩ ⟨.object 1, 0⟩ (core_classes.length + 1) true
      .method_protected :=
  (visibility_promise_iff no_builtins 0 protected_state protected_state protected_state_run 0 ⟨.object 0, 0⟩
    ⟨.object 1, 0⟩ (core_classes.length + 1) .method_protected 1 true rfl (by decide) rfl).mpr fun _ =>
      ⟨⟨1, _, rfl, rfl, by decide +kernel⟩, ⟨0, _, rfl, rfl, by decide +kernel⟩⟩

/-- Both objects are instances of M, whose protected method the lookup finds, and
its call is refused. -/
theorem module_owner_refused :
    (∃ g, (ruby_class_find_instance_method (core_classes.length + 1) "g").run (no_builtins.machine 2) protected_state =
      some (some (g, some core_classes.length), protected_state)) ∧
    (method_visibility_allows_call 0 (.object 1) (some core_classes.length) .method_protected false 1).run
      (no_builtins.machine 0) protected_state = some (false, protected_state) ∧
    ¬VisibilityPromise no_builtins 0 protected_state ⟨.object 0, 0⟩ ⟨.object 1, 0⟩ core_classes.length false
      .method_protected := by
  refine ⟨⟨_, rfl⟩, rfl, fun hpromise => ?_⟩
  have hchain {k : Ref} (h : k ∈ protected_state.ev.superclasses (some k)) : k ∈ protected_state.ev.chain k := by
    rw [protected_state_run.chain_eq]
    exact h
  have habove : protected_state.ev.Ancestor core_classes.length (core_classes.length + 1) :=
    .module_ (hchain (by decide +kernel)) (by decide +kernel) (.chain (hchain (by decide +kernel)))
  have hallowed := hpromise.mpr ⟨⟨_, rfl, habove⟩, _, rfl, habove⟩
  cases hallowed

end stoned
