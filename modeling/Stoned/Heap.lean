import Stoned.Calls

namespace stoned

open program

/-! Arrays, hashes, classes and objects (value.c). -/

def Eval.array (ev : Eval) (array : Ref) : RubyArray :=
  (ev.arrays[array]?).getD { elems := [], singleton_env := none, frozen := false }

def Eval.hash (ev : Eval) (hash : Ref) : RubyHash :=
  (ev.hashes[hash]?).getD {
    pairs := [], singleton_env := none, default_value := .nil, default_proc := .nil
    compare_by_identity := false, frozen := false }

def Eval.klass (ev : Eval) (klass : Ref) : RubyClass :=
  (ev.classes[klass]?).getD {
    name := "", superclass := none, class_env := none, prepended_modules := []
    included_modules := [], extended_modules := [], is_module := false }

def Eval.object (ev : Eval) (obj : Ref) : RubyObject :=
  (ev.objects[obj]?).getD {
    klass := .nil, ivars := [], singleton_env := none, native := none, frozen := false }

/-- The elements of an array value. -/
def Eval.elems (ev : Eval) (array : Ref) : List Value := (ev.array array).elems

/-- A class followed by its superclasses. The walk takes at most as many steps
as there are classes, which every finite chain of superclasses fits in. -/
def Eval.superclasses (ev : Eval) (klass : Option Ref) : List Ref := walk ev.classes.length klass
where
  walk : Nat → Option Ref → List Ref
    | _, none => []
    | 0, some _ => []
    | fuel + 1, some k => k :: walk fuel (ev.klass k).superclass

/-- The class of an object value. -/
def Eval.class_of_object (ev : Eval) (obj : Ref) : Option Ref :=
  match (ev.object obj).klass with
  | .klass k => some k
  | _ => none

def val_array_of (elems : List Value) : P Value := do
  let ev ← get
  set { ev with arrays := ev.arrays ++ [{ elems, singleton_env := none, frozen := false }] }
  return .array ev.arrays.length

def val_array_push (array : Ref) (elem : Value) : P Unit :=
  modify fun ev => { ev with arrays := ev.arrays.modify array fun a => { a with elems := a.elems ++ [elem] } }

def val_object (klass : Value) : P Value := do
  let ev ← get
  set { ev with objects := ev.objects ++ [{
    klass, ivars := [], singleton_env := none, native := none, frozen := false }] }
  return .object ev.objects.length

def val_object_set_ivar (obj : Value) (name : String) (val : Value) : P Unit :=
  match obj with
  | .object o => modify fun ev =>
    { ev with objects := ev.objects.modify o fun object =>
        { object with ivars := set_entry name val object.ivars } }
  | _ => return ()

def val_object_get_ivar (obj : Value) (name : String) : P (Option Value) :=
  match obj with
  | .object o => return entry name ((← get).object o).ivars
  | _ => return none

def val_class (name : String) (superclass : Option Ref) : P Ref := do
  let ev ← get
  set { ev with classes := ev.classes ++ [{
    name, superclass, class_env := none, prepended_modules := [], included_modules := []
    extended_modules := [], is_module := false }] }
  return ev.classes.length

def set_class (klass : Ref) (f : RubyClass → RubyClass) : P Unit :=
  modify fun ev => { ev with classes := ev.classes.modify klass f }

def val_hash_new : P Ref := do
  let ev ← get
  set { ev with hashes := ev.hashes ++ [{
    pairs := [], singleton_env := none, default_value := .nil, default_proc := .nil
    compare_by_identity := false, frozen := false }] }
  return ev.hashes.length

def val_equal (a b : Value) : P Bool := call (.val_equal a b)

/-- The index of the first pair whose key equals `key`. The hashes the
evaluator itself writes do not compare by identity. -/
def find_key (key : Value) : List (Value × Value) → P (Option Nat)
  | [] => return none
  | (stored, _) :: rest => do
    if ← val_equal stored key then return some 0
    return (← find_key key rest).map (· + 1)

def val_hash_set (hash : Ref) (key val : Value) : P Unit := do
  let pairs := ((← get).hash hash).pairs
  let found ← find_key key pairs
  modify fun ev => { ev with hashes := ev.hashes.modify hash fun h =>
    { h with pairs :=
        match found with
        | some i => h.pairs.modify i fun pair => (pair.1, val)
        | none => h.pairs ++ [(key, val)] } }

/-- The value under a symbol key: the only keys the evaluator itself looks up.
Symbols compare by name in either comparison mode. -/
def hash_get_symbol (name : String) (pairs : List (Value × Value)) : Option Value :=
  (pairs.find? fun pair => match pair.1 with
    | .symbol key => key = name
    | _ => false).map Prod.snd

def val_hash_set_all (hash : Ref) : List (Value × Value) → P Unit
  | [] => return ()
  | (key, val) :: rest => do
    val_hash_set hash key val
    val_hash_set_all hash rest

/-- Structural equality. -/
def val_equal_body (a b : Value) : P Bool := do
  match a, b with
  | .int i, .float f => return .of_int i == f
  | .float f, .int i => return f == .of_int i
  | .nil, .nil => return true
  | .bool x, .bool y => return x = y
  | .int x, .int y => return x = y
  | .float x, .float y => return x == y
  | .string x _ _, .string y _ _ => return x = y
  | .symbol x, .symbol y => return x = y
  | .klass x, .klass y => return x = y
  | .object x, .object y => return x = y
  | .range b1 e1 x1, .range b2 e2 x2 =>
    if x1 = x2 then
      if ← val_equal b1 b2 then val_equal e1 e2 else return false
    else return false
  | .array x, .array y =>
    if x = y then return true
    let ev ← get
    if (ev.elems x).length = (ev.elems y).length then
      all_equal ((ev.elems x).zip (ev.elems y))
    else return false
  | .hash x, .hash y => if x = y then return true else builtin (.hash_equal x y)
  | _, _ => return false
where
  all_equal : List (Value × Value) → P Bool
    | [] => return true
    | (x, y) :: rest => do
      if ← val_equal x y then all_equal rest else return false

def global_set (name : String) (val : Value) : P Unit :=
  modify fun ev => { ev with globals := set_entry name val ev.globals }

def global_get (name : String) : P (Option Value) := return entry name (← get).globals

theorem modify_last {α : Type} (l : List α) (a : α) (f : α → α) : (l ++ [a]).modify l.length f = l ++ [f a] := by
  induction l with
  | nil => rfl
  | cons b rest ih => exact congrArg (b :: ·) ih

end stoned
