import Stoned.VisibilityLaw

namespace stoned

open program

/-! `is_a?` and the classes that a lookup goes through (eval_dispatch.c). -/

def Eval.class_includes_module (ev : Eval) (k : Ref) (mod_name : String) : Bool :=
  (ev.klass k).included_modules.any (fun m => (ev.klass m).name == mod_name) ||
    (ev.klass k).prepended_modules.any fun m => (ev.klass m).name == mod_name

/-- The singleton class that `extend` or `singleton_class` has given an object. -/
def Eval.sclass (ev : Eval) (o : Ref) : Option Ref :=
  match entry "__sclass__" (ev.object o).ivars with
  | some (.klass k) => some k
  | _ => none

def val_is_a (ev : Eval) (v klass_arg : Value) : Bool :=
  match klass_arg with
  | .klass target =>
    let kname := (ev.klass target).name
    if kname = "Object" ∨ kname = "BasicObject" then true
    else
      match v with
      | .klass k =>
        if kname = "Module" then true
        else if kname = "Class" then !(ev.klass k).is_module
        else false
      | .object o =>
        if (ev.sclass o).any fun sclass => ev.class_includes_module sclass kname then true
        else (ev.superclasses (ev.class_of_object o)).any fun k =>
          (ev.klass k).name == kname || ev.class_includes_module k kname
      | v =>
        if kname = "Numeric" then v.kind = .int || v.kind = .float
        else if kname = "Comparable" then v.kind = .int || v.kind = .float || v.kind = .string || v.kind = .symbol
        else if kname = "Enumerable" then v.kind = .range || v.kind = .array || v.kind = .hash
        else prim_class_name ev v == kname
  | _ => false

section
variable (s : State)

/-- A class or module that a lookup for the value goes through: an ancestor of
its class, or of a module that its singleton class has. -/
def State.IsEntry (v : Value) (target : Ref) : Prop :=
  s.Instance v target ∨
    ∃ o sclass, v = .object o ∧ s.ev.sclass o = some sclass ∧ ∃ mod ∈ s.ev.modules sclass, s.ev.Ancestor target mod

/-- A class among the superclasses of an object's class, a module of one of
them or one of the singleton class. -/
def State.Near (o target : Ref) : Prop :=
  (∃ k ∈ s.ev.superclasses (s.ev.class_of_object o), target = k ∨ target ∈ s.ev.modules k) ∨
    ∃ sclass, s.ev.sclass o = some sclass ∧ target ∈ s.ev.modules sclass

/-- A class is called `Object` or `BasicObject`, or like another one near. -/
def State.SharesName (o target : Ref) : Prop :=
  (s.ev.klass target).name = "Object" ∨ (s.ev.klass target).name = "BasicObject" ∨
    ∃ other ≠ target, s.Near o other ∧ (s.ev.klass other).name = (s.ev.klass target).name

/-- The names that a value without a class walk goes by. -/
def fixed_names (ev : Eval) : Value → List String
  | .klass k => ["Object", "BasicObject", "Module"] ++ if (ev.klass k).is_module then [] else ["Class"]
  | v => ["Object", "BasicObject", prim_class_name ev v] ++
    (if v.kind = .int ∨ v.kind = .float then ["Numeric"] else []) ++
    (if v.kind = .int ∨ v.kind = .float ∨ v.kind = .string ∨ v.kind = .symbol then ["Comparable"] else []) ++
    if v.kind = .range ∨ v.kind = .array ∨ v.kind = .hash then ["Enumerable"] else []

/-- When `is_a?` agrees with the lookup: an entry is near or shares a name with
what is near, and what is no entry does not. A value that is no object goes by
fixed names: those of its entries. -/
def IsACondition (v : Value) (target : Ref) : Prop :=
  match v with
  | .object o =>
    (s.IsEntry v target → s.Near o target ∨ s.SharesName o target) ∧ (s.SharesName o target → s.IsEntry v target)
  | v => (s.ev.klass target).name ∈ fixed_names s.ev v ↔ s.IsEntry v target

end

section
variable {s : State} {o target : Ref}

theorem class_includes_module_iff {k : Ref} {mod_name : String} :
    s.ev.class_includes_module k mod_name = true ↔ ∃ mod ∈ s.ev.modules k, (s.ev.klass mod).name = mod_name := by
  simp only [Eval.class_includes_module, Eval.modules, Bool.or_eq_true, List.any_eq_true, beq_iff_eq, List.mem_append]
  grind

/-- The test of an object goes by the names of what is near. -/
theorem object_is_a_iff :
    val_is_a s.ev (.object o) (.klass target) = true ↔ s.Near o target ∨ s.SharesName o target := by
  have hnear : (∃ other, s.Near o other ∧ (s.ev.klass other).name = (s.ev.klass target).name) ↔
      ((s.ev.sclass o).any fun sclass => s.ev.class_includes_module sclass (s.ev.klass target).name) = true ∨
      ((s.ev.superclasses (s.ev.class_of_object o)).any fun k =>
        (s.ev.klass k).name == (s.ev.klass target).name ||
          s.ev.class_includes_module k (s.ev.klass target).name) = true := by
    simp only [State.Near, Option.any_eq_true, List.any_eq_true, Bool.or_eq_true, beq_iff_eq, class_includes_module_iff]
    grind
  have hsplit : s.Near o target ∨ s.SharesName o target ↔
      (s.ev.klass target).name = "Object" ∨ (s.ev.klass target).name = "BasicObject" ∨
        ∃ other, s.Near o other ∧ (s.ev.klass other).name = (s.ev.klass target).name := by
    rw [State.SharesName]
    by_cases htarget : s.Near o target <;> grind
  rw [hsplit, hnear, val_is_a]
  split
  · rename_i hname
    simp only [true_iff]
    tauto
  · rename_i hname
    split <;> simp_all

/-- What is near is an entry. -/
theorem entry_of_near (hrun : ClassRun s.ev) (hnear : s.Near o target) : s.IsEntry (.object o) target := by
  have hself {k : Ref} (hmod : target ∈ s.ev.modules k) : s.ev.Ancestor target target :=
    .chain (mem_chain_self (Nat.zero_lt_of_lt (hrun.inside (link_of_modules hmod))) target)
  rcases hnear with ⟨k, hk, htarget⟩ | ⟨sclass, hsclass, hmod⟩
  · cases hclass : s.ev.class_of_object o with
    | none =>
      rw [hclass] at hk
      cases hlength : s.ev.classes.length <;> rw [Eval.superclasses, hlength] at hk <;> cases hk
    | some klass =>
      rw [hclass, ← hrun.chain_eq] at hk
      refine .inl ⟨klass, hclass, ?_⟩
      rcases htarget with rfl | hmod
      · exact .chain hk
      · exact .module_ hk hmod (hself hmod)
  · exact .inr ⟨o, sclass, rfl, hsclass, target, hmod, hself hmod⟩

theorem fixed_is_a_iff {v : Value} (hv : v.kind ≠ .object) :
    val_is_a s.ev v (.klass target) = true ↔ (s.ev.klass target).name ∈ fixed_names s.ev v := by
  cases v with
  | object => exact absurd rfl hv
  | klass k =>
    simp only [val_is_a, fixed_names]
    generalize (s.ev.klass target).name = kname
    cases (s.ev.klass k).is_module <;> grind
  | bool b =>
    simp only [val_is_a, fixed_names]
    generalize (s.ev.klass target).name = kname
    cases b <;> simp [prim_class_name, Value.kind] <;> grind
  | _ =>
    simp only [val_is_a, fixed_names]
    generalize (s.ev.klass target).name = kname
    simp [prim_class_name, Value.kind]
    grind

end

/-- The classes behind `module N; end; module M; end; class C; end`, and what M and C include. -/
def nested_classes (in_m in_c : List Ref) : Eval :=
  let n := new_class_or_module "N" none true
  let m := { new_class_or_module "M" none true with included_modules := in_m }
  let c := { new_class_or_module "C" (some 0) false with included_modules := in_c }
  let object : RubyObject := {
    klass := .klass (core_classes.length + 2), ivars := [], singleton_env := none, native := none, frozen := false }
  { bare_state.ev with classes := core_classes ++ [n] ++ [m] ++ [c], objects := [object] }

/-- M includes N, C includes M, and there is an instance of C. -/
def nested_state : State :=
  { bare_state with ev := nested_classes [core_classes.length] [core_classes.length + 1] }

end stoned
