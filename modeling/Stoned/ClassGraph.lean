import Mathlib.Order.Filter.AtTopBot.Basic
import Mathlib.Order.Filter.Finite
import Stoned.Mro

namespace stoned

open program

/-! The graph of classes and modules, and what a program adds to it. -/

section
variable {α : Type} {r : α → α → Prop} {below above : α}

/-- A relation with one more pair is well-founded when the pair closes no cycle. -/
theorem wellFounded_with_pair (hr : WellFounded r) (hcycle : ¬Relation.ReflTransGen r above below) :
    WellFounded fun x y => r x y ∨ x = below ∧ y = above := by
  have hfree (x : α) : ¬Relation.ReflTransGen r above x → Acc (fun x y => r x y ∨ x = below ∧ y = above) x := by
    induction x using hr.induction with
    | _ x ih =>
      intro hx
      refine .intro x fun y hy => ?_
      rcases hy with hy | ⟨-, rfl⟩
      · exact ih y hy fun hreach => hx (hreach.tail hy)
      · exact absurd .refl hx
  refine ⟨fun x => ?_⟩
  induction x using hr.induction with
  | _ x ih =>
    refine .intro x fun y hy => ?_
    rcases hy with hy | ⟨rfl, -⟩
    · exact ih y hy
    · exact hfree y hcycle

end

/-- Where a class's lookups go on, and whether it is a module. -/
structure ClassLinks where
  superclass : Option Ref
  prepended_modules : List Ref
  included_modules : List Ref
  extended_modules : List Ref
  is_module : Bool

def RubyClass.links (klass : RubyClass) : ClassLinks where
  superclass := klass.superclass
  prepended_modules := klass.prepended_modules
  included_modules := klass.included_modules
  extended_modules := klass.extended_modules
  is_module := klass.is_module

/-- A class made by `val_class`, or a module. -/
def new_class_or_module (name : String) (superclass : Option Ref) (is_module : Bool) : RubyClass where
  name := name
  superclass := superclass
  class_env := none
  prepended_modules := []
  included_modules := []
  extended_modules := []
  is_module := is_module

/-- A class statement, a module statement, or an `include`, `prepend` or
`extend` of one module. `Class.new`, `Struct.new` and the classes of single
objects are class statements here. -/
inductive GraphOp where
  | class_ (name : String) (superclass : Option Ref)
  | module_ (name : String)
  | include_ (base mod : Ref)
  | prepend (base mod : Ref)
  | extend (base mod : Ref)

/-- What is included must be a module. -/
def add_module (ev : Eval) (base mod : Ref) (f : RubyClass → RubyClass) : Option Eval :=
  if base < ev.classes.length ∧ mod < ev.classes.length ∧ (ev.klass mod).is_module then
    some { ev with classes := ev.classes.modify base f }
  else none

/-- The operation's change of the graph, when it is accepted. -/
def GraphOp.exec (ev : Eval) : GraphOp → Option Eval
  | .class_ name superclass =>
    if superclass.all (· < ev.classes.length) then
      some { ev with classes := ev.classes ++ [new_class_or_module name superclass false] }
    else none
  | .module_ name => some { ev with classes := ev.classes ++ [new_class_or_module name none true] }
  | .include_ base mod => add_module ev base mod fun k => { k with included_modules := mod :: k.included_modules }
  | .prepend base mod => add_module ev base mod fun k => { k with prepended_modules := mod :: k.prepended_modules }
  | .extend base mod => add_module ev base mod fun k => { k with extended_modules := mod :: k.extended_modules }

/-- The names the interpreter starts with (eval.c, `builtins`). -/
def builtin_classes : List String := [
  "Object", "BasicObject", "Numeric", "Integer", "Float", "String", "Symbol", "Array", "Hash", "Range", "NilClass",
  "TrueClass", "FalseClass", "IO", "File", "Dir", "Time", "Binding", "Struct", "Pathname", "Class", "Module", "Method",
  "UnboundMethod", "Proc", "Regexp", "MatchData", "Comparable", "Enumerable", "Kernel", "Thread", "Process",
  "Exception", "StandardError", "RuntimeError", "ArgumentError", "TypeError", "NameError", "NoMethodError",
  "RegexpError", "RangeError", "FloatDomainError", "ZeroDivisionError", "LocalJumpError", "KeyError", "LoadError",
  "StopIteration", "EOFError", "IndexError", "SystemExit", "SystemStackError", "IOError", "EncodingError",
  "FrozenError", "SystemCallError", "SignalException", "Interrupt", "SyntaxError", "ScriptError",
  "NotImplementedError", "FiberError", "Fiber", "NoMatchingPatternError"]

/-- A class and its superclass, in the order they are set in; the later ones
overwrite the earlier ones. -/
def hierarchy : List (String × String) := [
  ("Integer", "Numeric"), ("Float", "Numeric"), ("Numeric", "Object"), ("String", "Object"), ("Symbol", "Object"),
  ("Array", "Object"), ("Hash", "Object"), ("Range", "Object"), ("Regexp", "Object"), ("NilClass", "Object"),
  ("TrueClass", "Object"), ("FalseClass", "Object"), ("IO", "Object"), ("File", "IO"), ("Proc", "Object"),
  ("Method", "Object"), ("UnboundMethod", "Object"), ("Binding", "Object"), ("Exception", "Object"),
  ("StandardError", "Exception"), ("RuntimeError", "StandardError"), ("TypeError", "StandardError"),
  ("ArgumentError", "StandardError"), ("NameError", "StandardError"), ("NoMethodError", "NameError"),
  ("StopIteration", "IndexError"), ("RangeError", "StandardError"), ("FloatDomainError", "RangeError"),
  ("IOError", "StandardError"), ("ZeroDivisionError", "StandardError"), ("NotImplementedError", "StandardError"),
  ("EncodingError", "StandardError"), ("FrozenError", "RuntimeError"), ("LoadError", "StandardError"),
  ("SyntaxError", "StandardError"), ("ScriptError", "StandardError"), ("NotImplementedError", "ScriptError"),
  ("SystemExit", "Exception"), ("IndexError", "StandardError"), ("KeyError", "IndexError"),
  ("SignalException", "Exception"), ("Interrupt", "SignalException"), ("Object", "BasicObject"), ("Module", "Object"),
  ("Class", "Module"), ("FiberError", "StandardError"), ("Fiber", "Object"),
  ("NoMatchingPatternError", "StandardError"), ("StandardError", "Exception"), ("RuntimeError", "StandardError"),
  ("ArgumentError", "StandardError"), ("TypeError", "StandardError"), ("NameError", "StandardError"),
  ("NoMethodError", "StandardError"), ("RegexpError", "StandardError"), ("ZeroDivisionError", "StandardError"),
  ("LocalJumpError", "StandardError"), ("IndexError", "StandardError"), ("KeyError", "IndexError"),
  ("LoadError", "StandardError"), ("StopIteration", "IndexError"), ("EOFError", "StandardError"),
  ("SystemStackError", "StandardError"), ("IOError", "StandardError"), ("EncodingError", "StandardError"),
  ("FrozenError", "RuntimeError"), ("NoMethodError", "NameError"), ("SystemCallError", "StandardError")]

/-- Classes and modules without a superclass that are made behind the hierarchy. -/
def later_classes : List (String × Bool) := [
  ("Thread::Mutex", false), ("Marshal", true), ("Singleton", true), ("Prism", true), ("Prism::Visitor", false),
  ("Prism::CallNode", false), ("Prism::MatchWriteNode", false), ("Prism::EmbeddedStatementsNode", false),
  ("Prism::EmbeddedVariableNode", false), ("Prism::StringNode", false), ("Reline", true), ("Reline::Unicode", true),
  ("Reline::IOGate", true), ("Reline::Config", false), ("Reline::CursorPos", false),
  ("Reline::DialogRenderInfo", false), ("Shellwords", true), ("StringIO", false), ("Open3", true), ("Math", true),
  ("PP", false), ("Encoding", false), ("Errno", true)]

def errno_classes : List String := ["ENOENT", "EACCES", "EEXIST", "EBADF", "EPERM", "EINVAL", "ESPIPE"]

/-- The last superclass that is set for a builtin class. -/
def builtin_superclass (name : String) : Option Ref :=
  (hierarchy.reverse.find? fun link => link.1 == name).map fun link => builtin_classes.idxOf link.2

def core_classes : List RubyClass :=
  (builtin_classes.map fun name =>
    new_class_or_module name (builtin_superclass name) (["Comparable", "Enumerable", "Kernel", "Process"].contains name)) ++
  (later_classes.map fun later => new_class_or_module later.1 none later.2) ++
  errno_classes.map fun name =>
    new_class_or_module ("Errno::" ++ name) (some (builtin_classes.idxOf "SystemCallError")) false

/-- The classes and modules that a class's lookups go on to. -/
def Eval.linked (ev : Eval) (k : Ref) : List Ref :=
  (ev.klass k).superclass.toList ++ (ev.klass k).prepended_modules ++ (ev.klass k).included_modules

def Eval.Link (ev : Eval) (m k : Ref) : Prop := m ∈ ev.linked k

/-- A module is included in itself or in what it includes. -/
def GraphOp.ClosesCycle (ev : Eval) : GraphOp → Prop
  | .include_ base mod | .prepend base mod => Relation.ReflTransGen ev.Link base mod
  | _ => False

/-- The states of a run of operations that meet a condition. What happens
between two of them links no classes. -/
inductive GraphRun (meets : GraphOp → Eval → Prop) : Eval → Prop where
  | start {ev : Eval} (h : ev.classes = core_classes) : GraphRun meets ev
  | step {ev ev' : Eval} (graph_op : GraphOp) (hrun : GraphRun meets ev) (hmeets : meets graph_op ev)
    (hexec : graph_op.exec ev = some ev') : GraphRun meets ev'
  | between {ev ev' : Eval} (hrun : GraphRun meets ev)
    (hlinks : ev'.classes.map RubyClass.links = ev.classes.map RubyClass.links) : GraphRun meets ev'

/-- Any run. -/
abbrev ClassRun : Eval → Prop := GraphRun fun _ _ => True

/-- A run none of whose operations closes a cycle. -/
abbrev AcyclicRun : Eval → Prop := GraphRun fun graph_op ev => ¬graph_op.ClosesCycle ev

section links
variable {ev ev' : Eval} {m k : Ref}

/-- A class without links. -/
theorem linked_outside (hk : ev.classes.length ≤ k) : ev.linked k = [] := by
  rw [Eval.linked, Eval.klass, List.getElem?_eq_none hk]
  rfl

theorem klass_links (hlinks : ev'.classes.map RubyClass.links = ev.classes.map RubyClass.links) (k : Ref) :
    (ev'.klass k).links = (ev.klass k).links := by
  have hk := congrArg (·[k]?) hlinks
  simp only [List.getElem?_map] at hk
  rw [Eval.klass, Eval.klass]
  cases hnew : ev'.classes[k]? with
  | none =>
    rw [hnew] at hk
    rw [Option.map_eq_none_iff.mp hk.symm]
  | some klass =>
    rw [hnew] at hk
    obtain ⟨old, hold, hsame⟩ := Option.map_eq_some_iff.mp hk.symm
    rw [hold]
    exact hsame.symm

theorem linked_of_links (hlinks : ev'.classes.map RubyClass.links = ev.classes.map RubyClass.links) :
    ev'.linked k = ev.linked k := by
  have hk := klass_links hlinks k
  have hsuperclass : (ev'.klass k).superclass = (ev.klass k).superclass := congrArg ClassLinks.superclass hk
  have hprepended : (ev'.klass k).prepended_modules = (ev.klass k).prepended_modules :=
    congrArg ClassLinks.prepended_modules hk
  have hincluded : (ev'.klass k).included_modules = (ev.klass k).included_modules :=
    congrArg ClassLinks.included_modules hk
  rw [Eval.linked, Eval.linked, hsuperclass, hprepended, hincluded]

/-- The link an operation adds, from the upper to the lower. -/
def GraphOp.adds (ev : Eval) : GraphOp → Option (Ref × Ref)
  | .class_ _ superclass => superclass.map fun parent => (parent, ev.classes.length)
  | .module_ _ => none
  | .include_ base mod | .prepend base mod => some (mod, base)
  | .extend .. => none

theorem klass_append (klass : RubyClass) :
    ({ ev with classes := ev.classes ++ [klass] } : Eval).klass k =
      if k = ev.classes.length then klass else ev.klass k := by
  rw [Eval.klass, Eval.klass]
  split
  · rename_i hk
    rw [hk, List.getElem?_concat_length]
    rfl
  · rename_i hk
    rcases Nat.lt_or_gt_of_ne hk with hlt | hgt
    · rw [List.getElem?_append_left hlt]
    · rw [List.getElem?_eq_none (by simpa using hgt), List.getElem?_eq_none hgt.le]

theorem klass_modify {base : Ref} (hbase : base < ev.classes.length) (f : RubyClass → RubyClass) :
    ({ ev with classes := ev.classes.modify base f } : Eval).klass k =
      if k = base then f (ev.klass k) else ev.klass k := by
  rw [Eval.klass, Eval.klass, List.getElem?_modify]
  split
  · rename_i hk
    rw [← hk, if_pos rfl, List.getElem?_eq_getElem (hk ▸ hbase)]
    rfl
  · rename_i hk
    rw [if_neg fun h => hk h.symm]
    cases ev.classes[k]? <;> rfl

theorem link_add_module {base mod : Ref} {f : RubyClass → RubyClass} (h : add_module ev base mod f = some ev') :
    base < ev.classes.length ∧ mod < ev.classes.length ∧ (ev.klass mod).is_module = true ∧
      ev' = { ev with classes := ev.classes.modify base f } := by
  rw [add_module] at h
  split at h
  · rename_i hguard
    exact ⟨hguard.1, hguard.2.1, hguard.2.2, (Option.some.inj h).symm⟩
  · cases h

/-- An operation adds one link at most. -/
theorem link_of_exec {graph_op : GraphOp} (hexec : graph_op.exec ev = some ev') (hlink : ev'.Link m k) :
    ev.Link m k ∨ graph_op.adds ev = some (m, k) := by
  rw [Eval.Link, Eval.linked] at hlink
  rw [Eval.Link, Eval.linked]
  cases graph_op with
  | class_ name superclass =>
    rw [GraphOp.exec] at hexec
    split at hexec
    · obtain rfl := (Option.some.inj hexec).symm
      rw [klass_append] at hlink
      split at hlink
      · rename_i hk
        cases superclass <;> simp_all [new_class_or_module, GraphOp.adds]
      · exact .inl hlink
    · cases hexec
  | module_ name =>
    obtain rfl := (Option.some.inj hexec).symm
    rw [klass_append] at hlink
    split at hlink
    · simp [new_class_or_module] at hlink
    · exact .inl hlink
  | include_ base mod =>
    obtain ⟨hbase, -, -, rfl⟩ := link_add_module hexec
    rw [klass_modify hbase] at hlink
    split at hlink
    · simp only [List.mem_append, List.mem_cons] at hlink ⊢
      grind [GraphOp.adds]
    · exact .inl hlink
  | prepend base mod =>
    obtain ⟨hbase, -, -, rfl⟩ := link_add_module hexec
    rw [klass_modify hbase] at hlink
    split at hlink
    · simp only [List.mem_append, List.mem_cons] at hlink ⊢
      grind [GraphOp.adds]
    · exact .inl hlink
  | extend base mod =>
    obtain ⟨hbase, -, -, rfl⟩ := link_add_module hexec
    rw [klass_modify hbase] at hlink
    split at hlink <;> exact .inl hlink

end links

/-- Links stay inside and form no cycle. -/
structure Eval.Acyclic (ev : Eval) : Prop where
  inside : ∀ {m k}, ev.Link m k → m < ev.classes.length
  wellFounded : WellFounded ev.Link

section acyclic
variable {ev ev' : Eval}

theorem length_of_exec {graph_op : GraphOp} (hexec : graph_op.exec ev = some ev') :
    ev.classes.length ≤ ev'.classes.length := by
  cases graph_op with
  | class_ name superclass =>
    rw [GraphOp.exec] at hexec
    split at hexec
    · obtain rfl := (Option.some.inj hexec).symm
      simp
    · cases hexec
  | module_ name =>
    obtain rfl := (Option.some.inj hexec).symm
    simp
  | include_ base mod | prepend base mod | extend base mod =>
    obtain ⟨-, -, -, rfl⟩ := link_add_module hexec
    simp

theorem adds_inside {graph_op : GraphOp} (hexec : graph_op.exec ev = some ev') {m k : Ref}
    (hadds : graph_op.adds ev = some (m, k)) : m < ev.classes.length := by
  cases graph_op with
  | class_ name superclass =>
    obtain ⟨parent, rfl, hpair⟩ := Option.map_eq_some_iff.mp hadds
    obtain ⟨rfl, -⟩ := Prod.mk.inj hpair
    rw [GraphOp.exec] at hexec
    by_contra hout
    rw [if_neg (by simpa using hout)] at hexec
    cases hexec
  | include_ base mod | prepend base mod =>
    obtain ⟨rfl, -⟩ := Prod.mk.inj (Option.some.inj hadds)
    exact (link_add_module hexec).2.1
  | module_ | extend => cases hadds

/-- What is linked from a class that exists exists. -/
theorem Eval.Acyclic.reach_inside (h : ev.Acyclic) {m k : Ref} (hreach : Relation.ReflTransGen ev.Link m k)
    (hk : k < ev.classes.length) : m < ev.classes.length := by
  induction hreach using Relation.ReflTransGen.head_induction_on with
  | refl => exact hk
  | head hlink _ _ => exact h.inside hlink

/-- A new class is reached from none. -/
theorem adds_no_cycle (h : ev.Acyclic) {graph_op : GraphOp} (hexec : graph_op.exec ev = some ev')
    (hcycle : ¬graph_op.ClosesCycle ev) {m k : Ref} (hadds : graph_op.adds ev = some (m, k)) :
    ¬Relation.ReflTransGen ev.Link k m := by
  cases graph_op with
  | class_ name superclass =>
    have hm := adds_inside hexec hadds
    obtain ⟨parent, rfl, hpair⟩ := Option.map_eq_some_iff.mp hadds
    obtain ⟨rfl, rfl⟩ := Prod.mk.inj hpair
    intro hreach
    exact absurd (h.reach_inside hreach hm) (lt_irrefl _)
  | include_ base mod | prepend base mod =>
    obtain ⟨rfl, rfl⟩ := Prod.mk.inj (Option.some.inj hadds)
    exact hcycle
  | module_ | extend => cases hadds

/-- An operation that closes no cycle leaves none. -/
theorem Eval.Acyclic.exec (h : ev.Acyclic) {graph_op : GraphOp} (hexec : graph_op.exec ev = some ev')
    (hcycle : ¬graph_op.ClosesCycle ev) : ev'.Acyclic where
  inside {m k} hlink := by
    rcases link_of_exec hexec hlink with hold | hadds
    · exact (h.inside hold).trans_le (length_of_exec hexec)
    · exact (adds_inside hexec hadds).trans_le (length_of_exec hexec)
  wellFounded := by
    cases hadds : graph_op.adds ev with
    | none =>
      refine Subrelation.wf (fun {m k} hlink => ?_) h.wellFounded
      refine (link_of_exec hexec hlink).resolve_right ?_
      rw [hadds]
      rintro ⟨⟩
    | some pair =>
      refine Subrelation.wf (fun {m k} hlink => ?_)
        (wellFounded_with_pair h.wellFounded (adds_no_cycle h hexec hcycle hadds))
      refine (link_of_exec hexec hlink).imp_right fun hpair => ?_
      rw [hadds] at hpair
      obtain rfl := Option.some.inj hpair
      exact ⟨rfl, rfl⟩

theorem Eval.Acyclic.of_links (h : ev.Acyclic)
    (hlinks : ev'.classes.map RubyClass.links = ev.classes.map RubyClass.links) : ev'.Acyclic := by
  have hlength : ev'.classes.length = ev.classes.length := by simpa using congrArg List.length hlinks
  have hlink {m k : Ref} (hlink : ev'.Link m k) : ev.Link m k := by
    rw [Eval.Link, linked_of_links hlinks] at hlink
    exact hlink
  exact ⟨fun hl => hlength ▸ h.inside (hlink hl), Subrelation.wf hlink h.wellFounded⟩

/-- An evaluator as the interpreter starts it. -/
def core_ev : Eval := { bare_state.ev with classes := core_classes }

/-- How many superclasses a class the interpreter starts with has. -/
def core_height (k : Ref) : Nat := (core_ev.superclasses (some k)).length

theorem core_links_fall : ∀ k < core_classes.length, ∀ m ∈ core_ev.linked k,
    m < core_classes.length ∧ core_height m < core_height k := by
  decide +kernel

theorem core_acyclic : core_ev.Acyclic := by
  have hfall {m k : Ref} (hlink : core_ev.Link m k) : m < core_classes.length ∧ core_height m < core_height k := by
    by_cases hk : k < core_classes.length
    · exact core_links_fall k hk m hlink
    · rw [Eval.Link, linked_outside (Nat.le_of_not_lt hk)] at hlink
      cases hlink
  exact ⟨fun hlink => (hfall hlink).1, Subrelation.wf (fun hlink => (hfall hlink).2) (measure core_height).wf⟩

/-- Without a step that closes a cycle no cycle comes up. -/
theorem GraphRun.acyclic (hrun : AcyclicRun ev) : ev.Acyclic := by
  induction hrun with
  | start h => exact core_acyclic.of_links (congrArg _ h)
  | step _ _ hcycle hexec ih => exact ih.exec hexec hcycle
  | between _ hlinks ih => exact ih.of_links hlinks

theorem GraphRun.weaken {meets meets' : GraphOp → Eval → Prop} (h : ∀ graph_op ev, meets graph_op ev → meets' graph_op ev)
    (hrun : GraphRun meets ev) : GraphRun meets' ev := by
  induction hrun with
  | start hclasses => exact .start hclasses
  | step graph_op _ hmeets hexec ih => exact .step graph_op ih (h graph_op _ hmeets) hexec
  | between _ hlinks ih => exact .between ih hlinks

/-- Links stay inside in any run. -/
theorem GraphRun.inside {meets : GraphOp → Eval → Prop} (hrun : GraphRun meets ev) {m k : Ref}
    (hlink : ev.Link m k) : m < ev.classes.length := by
  induction hrun generalizing m k with
  | start h =>
    have hstart := core_acyclic.of_links (congrArg (List.map RubyClass.links) h)
    exact hstart.inside hlink
  | step graph_op _ _ hexec ih =>
    rcases link_of_exec hexec hlink with hold | hadds
    · exact (ih hold).trans_le (length_of_exec hexec)
    · exact (adds_inside hexec hadds).trans_le (length_of_exec hexec)
  | between _ hlinks ih =>
    have hlength := congrArg List.length hlinks
    rw [List.length_map, List.length_map] at hlength
    rw [hlength]
    rw [Eval.Link, linked_of_links hlinks] at hlink
    exact ih hlink

/-- The superclass of a module is never set. -/
theorem GraphRun.module_superclass {meets : GraphOp → Eval → Prop} (hrun : GraphRun meets ev) :
    ∀ klass ∈ ev.classes, klass.is_module = true → klass.superclass = none := by
  have hmodify {ev : Eval} {base : Ref} {f : RubyClass → RubyClass}
      (hf : ∀ klass, (f klass).is_module = klass.is_module ∧ (f klass).superclass = klass.superclass)
      (h : ∀ klass ∈ ev.classes, klass.is_module = true → klass.superclass = none) :
      ∀ klass ∈ ev.classes.modify base f, klass.is_module = true → klass.superclass = none := by
    intro klass hklass hmodule
    obtain ⟨k, hk, rfl⟩ := List.getElem_of_mem hklass
    rw [List.getElem_modify] at hmodule ⊢
    split
    · rename_i hbase
      rw [if_pos hbase, (hf _).1] at hmodule
      rw [(hf _).2]
      exact h _ (List.getElem_mem _) hmodule
    · rename_i hbase
      rw [if_neg hbase] at hmodule
      exact h _ (List.getElem_mem _) hmodule
  induction hrun with
  | start h =>
    rw [h]
    decide +kernel
  | between _ hlinks ih =>
    intro klass hklass hmodule
    have hmem := List.mem_map_of_mem (f := RubyClass.links) hklass
    rw [hlinks] at hmem
    obtain ⟨old, hold, hsame⟩ := List.mem_map.mp hmem
    have hsuperclass : old.superclass = klass.superclass := congrArg ClassLinks.superclass hsame
    have hmodule' : old.is_module = klass.is_module := congrArg ClassLinks.is_module hsame
    rw [← hsuperclass]
    exact ih old hold (hmodule'.trans hmodule)
  | step graph_op _ _ hexec ih =>
    cases graph_op with
    | class_ name superclass =>
      rw [GraphOp.exec] at hexec
      split at hexec
      · obtain rfl := (Option.some.inj hexec).symm
        intro klass hklass hmodule
        rcases List.mem_append.mp hklass with hklass | hklass
        · exact ih klass hklass hmodule
        · obtain rfl := List.mem_singleton.mp hklass
          cases hmodule
      · cases hexec
    | module_ name =>
      obtain rfl := (Option.some.inj hexec).symm
      intro klass hklass hmodule
      rcases List.mem_append.mp hklass with hklass | hklass
      · exact ih klass hklass hmodule
      · obtain rfl := List.mem_singleton.mp hklass
        rfl
    | include_ base mod | prepend base mod | extend base mod =>
      obtain ⟨-, -, -, rfl⟩ := link_add_module hexec
      exact hmodify (fun _ => ⟨rfl, rfl⟩) ih

/-- The chain of a class is all its superclasses. -/
theorem GraphRun.chain_eq {meets : GraphOp → Eval → Prop} (hrun : GraphRun meets ev) (klass : Ref) :
    ev.chain klass = ev.superclasses (some klass) := by
  rw [Eval.chain, Eval.superclasses]
  generalize ev.classes.length = fuel
  induction fuel generalizing klass with
  | zero => rfl
  | succ fuel ih =>
    rw [Eval.superclasses.walk, Eval.chain.up_to_module]
    split
    · rename_i hmodule
      have hnone : (ev.klass klass).superclass = none := by
        rw [Eval.klass] at hmodule ⊢
        cases hklass : ev.classes[klass]? with
        | none => rfl
        | some found =>
          rw [hklass] at hmodule
          exact hrun.module_superclass found (List.mem_of_getElem? hklass) hmodule
      rw [hnone]
      cases fuel <;> rfl
    · cases (ev.klass klass).superclass with
      | none => cases fuel <;> rfl
      | some parent => rw [ih]

end acyclic

section superclasses
variable {ev : Eval}

/-- The walk along the superclasses of a class comes to the one without. -/
def Eval.ComesToRoot (ev : Eval) (k : Ref) : Prop :=
  ∃ chain last, ev.superclasses (some k) = chain ++ [last] ∧ (ev.klass last).superclass = none

theorem link_of_superclass {k parent : Ref} (h : (ev.klass k).superclass = some parent) : ev.Link parent k := by
  rw [Eval.Link, Eval.linked, h]
  simp

/-- The classes a walk has passed are different ones. -/
theorem passed_nodup (h : ev.Acyclic) {k : Ref} {passed : List Ref} (hk : k < ev.classes.length)
    (hpassed : ∀ q ∈ passed, q < ev.classes.length ∧ Relation.TransGen ev.Link k q) (hnodup : passed.Nodup) :
    (k :: passed).Nodup ∧ passed.length < ev.classes.length := by
  have hnew : k ∉ passed := fun hmem => h.wellFounded.transGen.irrefl.irrefl k (hpassed k hmem).2
  have hall : (k :: passed).Nodup := List.nodup_cons.mpr ⟨hnew, hnodup⟩
  have hsub : k :: passed ⊆ List.range ev.classes.length := by
    intro q hq
    rcases List.mem_cons.mp hq with rfl | hq
    · exact List.mem_range.mpr hk
    · exact List.mem_range.mpr (hpassed q hq).1
  have hlength := (hall.subperm hsub).length_le
  rw [List.length_cons, List.length_range] at hlength
  exact ⟨hall, hlength⟩

theorem walk_comes_to_root (h : ev.Acyclic) {fuel : Nat} {k : Ref} {passed : List Ref} (hk : k < ev.classes.length)
    (hpassed : ∀ q ∈ passed, q < ev.classes.length ∧ Relation.TransGen ev.Link k q) (hnodup : passed.Nodup)
    (hfuel : ev.classes.length ≤ fuel + passed.length) :
    ∃ chain last, Eval.superclasses.walk ev fuel (some k) = chain ++ [last] ∧ (ev.klass last).superclass = none := by
  obtain ⟨hall, hroom⟩ := passed_nodup h hk hpassed hnodup
  induction fuel generalizing k passed with
  | zero => omega
  | succ fuel ih =>
    rw [Eval.superclasses.walk]
    cases hparent : (ev.klass k).superclass with
    | none => exact ⟨[], k, by cases fuel <;> rfl, hparent⟩
    | some parent =>
      have hlink := link_of_superclass hparent
      have hpassed' : ∀ q ∈ k :: passed, q < ev.classes.length ∧ Relation.TransGen ev.Link parent q := by
        intro q hq
        rcases List.mem_cons.mp hq with rfl | hq
        · exact ⟨hk, .single hlink⟩
        · exact ⟨(hpassed q hq).1, .head hlink (hpassed q hq).2⟩
      obtain ⟨hall', hroom'⟩ := passed_nodup h (h.inside hlink) hpassed' hall
      obtain ⟨chain, last, hwalk, hlast⟩ :=
        ih (h.inside hlink) hpassed' hall (by rw [List.length_cons]; omega) hall' hroom'
      exact ⟨k :: chain, last, by rw [hwalk]; rfl, hlast⟩

theorem comes_to_root (h : ev.Acyclic) {k : Ref} (hk : k < ev.classes.length) : ev.ComesToRoot k :=
  walk_comes_to_root h hk (by simp) List.nodup_nil le_rfl

end superclasses

/-- The modules of a class, in the order they are searched in. -/
def Eval.modules (ev : Eval) (k : Ref) : List Ref := (ev.klass k).prepended_modules ++ (ev.klass k).included_modules

/-- The first test to answer yes or not to answer. -/
def first_yes {α : Type} (test : α → Option Bool) : List α → Option Bool
  | [] => some false
  | a :: rest =>
    match test a with
    | some false => first_yes test rest
    | answer => answer

/-- `ruby_class_has_module` where modules are nested at most `depth` deep. -/
def Eval.ruby_class_has_module (ev : Eval) (target : Ref) : Nat → Ref → Option Bool
  | 0, _ => none
  | depth + 1, klass =>
    let in_module (mod : Ref) := if mod = target then some true else ev.ruby_class_has_module target depth mod
    first_yes (fun k => if k = target then some true else first_yes in_module (ev.modules k)) (ev.chain klass)

section lookup
variable {ev : Eval} {target : Ref}

theorem first_yes_some {α : Type} {test : α → Option Bool} {answer : α → Bool} {l : List α}
    (h : ∀ a ∈ l, test a = some (answer a)) : first_yes test l = some (l.any answer) := by
  induction l with
  | nil => rfl
  | cons a rest ih =>
    have hrest := ih fun b hb => h b (List.mem_cons_of_mem _ hb)
    rw [first_yes, h a List.mem_cons_self, List.any_cons]
    cases answer a with
    | true => rfl
    | false => exact hrest

theorem mapM_some {α β : Type} {f : α → Option β} {l : List α} (h : ∀ a ∈ l, (f a).isSome) : (l.mapM f).isSome := by
  induction l with
  | nil => rfl
  | cons a rest ih =>
    obtain ⟨b, hb⟩ := Option.isSome_iff_exists.mp (h a List.mem_cons_self)
    obtain ⟨bs, hbs⟩ := Option.isSome_iff_exists.mp (ih fun c hc => h c (List.mem_cons_of_mem _ hc))
    rw [List.mapM_cons, hb, hbs]
    rfl

theorem mem_up_to_module {l : List Ref} {k : Ref} (hk : k ∈ Eval.chain.up_to_module ev l) : k ∈ l := by
  induction l with
  | nil => cases hk
  | cons q rest ih =>
    rw [Eval.chain.up_to_module] at hk
    rcases List.mem_cons.mp hk with rfl | hk
    · exact List.mem_cons_self
    · split at hk
      · cases hk
      · exact List.mem_cons_of_mem _ (ih hk)

theorem reach_of_mem_walk {fuel : Nat} {klass k : Ref} (hk : k ∈ Eval.superclasses.walk ev fuel (some klass)) :
    Relation.ReflTransGen ev.Link k klass := by
  induction fuel generalizing klass with
  | zero => cases hk
  | succ fuel ih =>
    rw [Eval.superclasses.walk] at hk
    rcases List.mem_cons.mp hk with rfl | hk
    · exact .refl
    · cases hparent : (ev.klass klass).superclass with
      | none =>
        rw [hparent] at hk
        cases fuel <;> cases hk
      | some parent =>
        rw [hparent] at hk
        exact (ih hk).tail (link_of_superclass hparent)

/-- A class of the chain with its modules, in lookup order. -/
def Eval.part (ev : Eval) (depth : Nat) (k : Ref) : Option (List Ref) := do
  let prepended ← (ev.klass k).prepended_modules.mapM (ev.lookup_order depth)
  let included ← (ev.klass k).included_modules.mapM (ev.lookup_order depth)
  return prepended.flatten ++ k :: included.flatten

theorem lookup_order_succ (depth : Nat) (klass : Ref) :
    ev.lookup_order (depth + 1) klass = ((ev.chain klass).mapM (ev.part depth)).bind fun parts => some parts.flatten := rfl

theorem part_some {depth : Nat} {k : Ref} (h : ∀ mod ∈ ev.modules k, (ev.lookup_order depth mod).isSome) :
    (ev.part depth k).isSome := by
  obtain ⟨prepended, hprepended⟩ := Option.isSome_iff_exists.mp
    (mapM_some fun mod hmod => h mod (List.mem_append_left _ hmod))
  obtain ⟨included, hincluded⟩ := Option.isSome_iff_exists.mp
    (mapM_some fun mod hmod => h mod (List.mem_append_right _ hmod))
  rw [Eval.part, hprepended, hincluded]
  rfl

theorem link_of_modules {k mod : Ref} (hmod : mod ∈ ev.modules k) : ev.Link mod k := by
  rw [Eval.Link, Eval.linked, List.append_assoc]
  exact List.mem_append_right _ hmod

/-- The modules that a lookup in a class goes on to are below it. -/
theorem below_of_chain {klass k mod : Ref} (hk : k ∈ ev.chain klass) (hmod : mod ∈ ev.modules k) :
    Relation.TransGen ev.Link mod klass := .head' (link_of_modules hmod) (reach_of_mem_walk (mem_up_to_module hk))

/-- Without cycles each class has a lookup order. -/
theorem lookup_order_some (h : WellFounded ev.Link) (klass : Ref) :
    ∀ᶠ depth in Filter.atTop, (ev.lookup_order depth klass).isSome := by
  induction klass using h.transGen.induction with
  | _ klass ih =>
    let mods := (ev.chain klass).flatMap ev.modules
    have hmods : ∀ᶠ depth in Filter.atTop, ∀ mod ∈ {mod | mod ∈ mods}, (ev.lookup_order depth mod).isSome := by
      refine (Filter.eventually_all_finite mods.finite_toSet).mpr fun mod hmod => ?_
      obtain ⟨k, hk, hmod⟩ := List.mem_flatMap.mp hmod
      exact ih mod (below_of_chain hk hmod)
    obtain ⟨enough, henough⟩ := Filter.eventually_atTop.mp hmods
    refine Filter.eventually_atTop.mpr ⟨enough + 1, fun depth hdepth => ?_⟩
    obtain ⟨depth, rfl⟩ := Nat.exists_eq_add_of_le' (Nat.le_of_add_left_le hdepth : 1 ≤ depth)
    obtain ⟨parts, hparts⟩ := Option.isSome_iff_exists.mp <| mapM_some (f := ev.part depth) fun k hk =>
      part_some fun mod hmod => henough depth (by omega) mod (List.mem_flatMap.mpr ⟨k, hk, hmod⟩)
    rw [lookup_order_succ, hparts]
    rfl

theorem mapM_each {α β : Type} {f : α → Option β} {l : List α} {out : List β} (h : l.mapM f = some out) {a : α}
    (ha : a ∈ l) : ∃ b ∈ out, f a = some b := by
  induction l generalizing out with
  | nil => cases ha
  | cons c rest ih =>
    rw [List.mapM_cons] at h
    simp only [Option.bind_eq_bind, Option.bind_eq_some_iff, Option.pure_def, Option.some.injEq] at h
    obtain ⟨b, hb, bs, hbs, rfl⟩ := h
    rcases List.mem_cons.mp ha with rfl | ha
    · exact ⟨b, List.mem_cons_self, hb⟩
    · obtain ⟨d, hd, hfa⟩ := ih hbs ha
      exact ⟨d, List.mem_cons_of_mem _ hd, hfa⟩

theorem mem_mapM {α β : Type} {f : α → Option β} {l : List α} {out : List β} (h : l.mapM f = some out) {b : β} :
    b ∈ out ↔ ∃ a ∈ l, f a = some b := by
  induction l generalizing out with
  | nil =>
    cases h
    simp
  | cons c rest ih =>
    rw [List.mapM_cons] at h
    simp only [Option.bind_eq_bind, Option.bind_eq_some_iff, Option.pure_def, Option.some.injEq] at h
    obtain ⟨d, hd, ds, hds, rfl⟩ := h
    rw [List.mem_cons, ih hds]
    simp only [List.mem_cons, exists_eq_or_imp, hd, Option.some.injEq]
    exact or_congr_left eq_comm

theorem mem_part {depth : Nat} {k : Ref} {part : List Ref} (h : ev.part depth k = some part) :
    target ∈ part ↔ target = k ∨ ∃ mod ∈ ev.modules k, ∃ order, ev.lookup_order depth mod = some order ∧ target ∈ order := by
  rw [Eval.part] at h
  simp only [Option.bind_eq_bind, Option.bind_eq_some_iff, Option.pure_def, Option.some.injEq] at h
  obtain ⟨prepended, hprepended, included, hincluded, rfl⟩ := h
  simp only [List.mem_append, List.mem_cons, List.mem_flatten, mem_mapM hprepended, mem_mapM hincluded, Eval.modules]
  grind

/-- The lookup order of a class has the chain and the lookup orders of its modules. -/
theorem mem_lookup_order {depth : Nat} {klass : Ref} {order : List Ref}
    (h : ev.lookup_order (depth + 1) klass = some order) :
    target ∈ order ↔ ∃ k ∈ ev.chain klass, target = k ∨
      ∃ mod ∈ ev.modules k, ∃ below, ev.lookup_order depth mod = some below ∧ target ∈ below := by
  rw [lookup_order_succ] at h
  obtain ⟨parts, hparts, hflat⟩ := Option.bind_eq_some_iff.mp h
  obtain rfl := Option.some.inj hflat
  rw [List.mem_flatten]
  constructor
  · rintro ⟨part, hpart, htarget⟩
    obtain ⟨k, hk, hpart⟩ := (mem_mapM hparts).mp hpart
    exact ⟨k, hk, (mem_part hpart).mp htarget⟩
  · rintro ⟨k, hk, htarget⟩
    obtain ⟨part, hpart, hk⟩ := mapM_each hparts hk
    exact ⟨part, hpart, (mem_part hk).mpr htarget⟩

/-- The modules of a class with a lookup order have one. -/
theorem lookup_order_below {depth : Nat} {klass k mod : Ref} {order : List Ref}
    (h : ev.lookup_order (depth + 1) klass = some order) (hk : k ∈ ev.chain klass) (hmod : mod ∈ ev.modules k) :
    ∃ below, ev.lookup_order depth mod = some below := by
  rw [lookup_order_succ] at h
  obtain ⟨parts, hparts, -⟩ := Option.bind_eq_some_iff.mp h
  obtain ⟨part, -, hpart⟩ := mapM_each hparts hk
  rw [Eval.part] at hpart
  simp only [Option.bind_eq_bind, Option.bind_eq_some_iff] at hpart
  obtain ⟨prepended, hprepended, included, hincluded, -⟩ := hpart
  rcases List.mem_append.mp hmod with hmod | hmod
  · obtain ⟨below, -, hbelow⟩ := mapM_each hprepended hmod
    exact ⟨below, hbelow⟩
  · obtain ⟨below, -, hbelow⟩ := mapM_each hincluded hmod
    exact ⟨below, hbelow⟩

/-- An entry that a lookup in a class may come to. -/
inductive Eval.Ancestor (ev : Eval) (target : Ref) : Ref → Prop where
  | chain {klass : Ref} (hk : target ∈ ev.chain klass) : Ancestor ev target klass
  | module_ {klass k mod : Ref} (hk : k ∈ ev.chain klass) (hmod : mod ∈ ev.modules k)
    (habove : Ancestor ev target mod) : Ancestor ev target klass

/-- The chain of a class starts with it. -/
theorem mem_chain_self (hclasses : 0 < ev.classes.length) (klass : Ref) : klass ∈ ev.chain klass := by
  obtain ⟨fuel, hfuel⟩ := Nat.exists_eq_add_of_lt hclasses
  rw [Eval.chain, Eval.superclasses, hfuel, Eval.superclasses.walk, Eval.chain.up_to_module]
  exact List.mem_cons_self

theorem mem_lookup_order_self {depth : Nat} {klass : Ref} {order : List Ref} (hklass : klass < ev.classes.length)
    (h : ev.lookup_order depth klass = some order) : klass ∈ order := by
  cases depth with
  | zero => cases h
  | succ depth =>
    exact (mem_lookup_order h).mpr ⟨klass, mem_chain_self (Nat.zero_lt_of_lt hklass) klass, .inl rfl⟩

/-- `ruby_class_has_module` answers whether the target is in the lookup order. -/
theorem has_module_eq (hinside : ∀ {m k}, ev.Link m k → m < ev.classes.length) {depth : Nat} {klass : Ref}
    {order : List Ref} (horder : ev.lookup_order depth klass = some order) :
    ev.ruby_class_has_module target depth klass = some (decide (target ∈ order)) := by
  induction depth generalizing klass order with
  | zero => cases horder
  | succ depth ih =>
    have hmod {k mod : Ref} (hk : k ∈ ev.chain klass) (hmod : mod ∈ ev.modules k) :
        (if mod = target then some true else ev.ruby_class_has_module target depth mod) =
          some (decide (∃ below, ev.lookup_order depth mod = some below ∧ target ∈ below)) := by
      obtain ⟨below, hbelow⟩ := lookup_order_below horder hk hmod
      have hsame : (∃ order, ev.lookup_order depth mod = some order ∧ target ∈ order) ↔ target ∈ below := by
        rw [hbelow]
        simp
      split
      · rename_i htarget
        have hmem := mem_lookup_order_self (hinside (link_of_modules hmod)) hbelow
        rw [decide_eq_true (hsame.mpr (htarget ▸ hmem))]
      · rw [ih hbelow, decide_eq_decide.mpr hsame]
    have hclass {k : Ref} (hk : k ∈ ev.chain klass) :
        (if k = target then some true
          else first_yes (fun mod => if mod = target then some true else ev.ruby_class_has_module target depth mod)
            (ev.modules k)) =
          some (decide (target = k ∨
            ∃ mod ∈ ev.modules k, ∃ below, ev.lookup_order depth mod = some below ∧ target ∈ below)) := by
      split
      · rename_i htarget
        rw [decide_eq_true (.inl htarget.symm)]
      · rename_i htarget
        rw [first_yes_some fun mod hmem => hmod hk hmem]
        congr 1
        rw [Bool.eq_iff_iff, List.any_eq_true, decide_eq_true_iff]
        simp [Ne.symm htarget]
    rw [Eval.ruby_class_has_module, first_yes_some fun k hk => hclass hk]
    congr 1
    rw [Bool.eq_iff_iff, List.any_eq_true, decide_eq_true_iff, mem_lookup_order horder]
    simp

/-- In every state of a run that closes no cycle every lookup ends: the one of
methods, the one of super methods and the one of modules, and the walk along
the superclasses is complete. -/
theorem lookups_end (builtins : Builtins) (s : State) (hrun : AcyclicRun s.ev) (klass : Ref) (name : String)
    (after target : Ref) :
    (∃ enough, ∀ depth ≥ enough,
      (∃ found, (ruby_class_find_instance_method klass name).run (builtins.machine depth) s = some (found, s)) ∧
      (∃ found, (ruby_class_find_super_method klass after name).run (builtins.machine depth) s = some (found, s)) ∧
      ∃ answer, s.ev.ruby_class_has_module target depth klass = some answer) ∧
    (klass < s.ev.classes.length → s.ev.ComesToRoot klass) := by
  have hacyclic := hrun.acyclic
  obtain ⟨enough, henough⟩ := Filter.eventually_atTop.mp (lookup_order_some hacyclic.wellFounded klass)
  refine ⟨⟨enough, fun depth hdepth => ?_⟩, comes_to_root hacyclic⟩
  obtain ⟨order, horder⟩ := Option.isSome_iff_exists.mp (henough depth hdepth)
  exact ⟨⟨_, find_instance_method_run horder⟩, ⟨_, find_super_method_run horder⟩, _, has_module_eq hacyclic.inside horder⟩

end lookup

section operations
variable {builtins : Builtins} {depth : Nat} {s t : State}

/-- A class statement that makes a class is a step of a run. -/
theorem GraphRun.new_class {meets : GraphOp → Eval → Prop} (hrun : GraphRun meets s.ev)
    (hmeets : ∀ name superclass, meets (.class_ name superclass) s.ev ∧ meets (.module_ name) s.ev) {target_env : Env} {leaf_name full_name : String}
    {superclass : Option Ref} {is_module : Bool} {k : Ref} (hinside : superclass.all (· < s.ev.classes.length) = true)
    (hmodule : is_module = true → superclass = none)
    (hnew : (new_class target_env leaf_name full_name superclass is_module).run (builtins.machine depth) s = some (k, t)) :
    GraphRun meets t.ev := by
  have hlinks : t.ev.classes.map RubyClass.links =
      (s.ev.classes ++ [new_class_or_module full_name superclass is_module]).map RubyClass.links := by
    have hclasses : t.ev.classes =
        (s.ev.classes ++ [new_class_or_module full_name superclass false]).modify s.ev.classes.length fun klass =>
          { klass with class_env := some (s.envs.env_new (some target_env) true).1, is_module } := by
      obtain ⟨-, rfl⟩ := Prod.mk.inj (Option.some.inj hnew)
      rfl
    rw [hclasses, modify_last, List.map_append, List.map_append]
    rfl
  cases is_module with
  | true =>
    obtain rfl := hmodule rfl
    have hstep : GraphRun meets { s.ev with classes := s.ev.classes ++ [new_class_or_module full_name none true] } :=
      .step (.module_ full_name) hrun (hmeets full_name none).2 rfl
    exact hstep.between hlinks
  | false =>
    have hstep : GraphRun meets
        { s.ev with classes := s.ev.classes ++ [new_class_or_module full_name superclass false] } :=
      .step (.class_ full_name superclass) hrun (hmeets full_name superclass).1 (if_pos hinside)
    exact hstep.between hlinks

/-- `include` adds a module before it calls the module's hook. -/
theorem include_modules_adds {base mod : Ref} {ev : Eval} (hexec : (GraphOp.include_ base mod).exec s.ev = some ev)
    (site : Option Span) (rest : List Value) :
    (include_modules base site (.klass mod :: rest)).run (builtins.machine depth) s =
      (do
        let hook := only_method (← get_own ((← get).klass mod).class_env "self.included")
        call_module_hook mod hook "included" (.klass base) site
        define_singleton_instance base mod site
        include_modules base site rest : P Value).run (builtins.machine depth) { s with ev } := by
  obtain ⟨-, -, hmodule, rfl⟩ := link_add_module hexec
  rw [include_modules, run_bind_some (run_get _ s), if_pos hmodule]
  rfl

theorem prepend_modules_adds {base mod : Ref} {ev : Eval} (hexec : (GraphOp.prepend base mod).exec s.ev = some ev)
    (site : Option Span) (rest : List Value) :
    (prepend_modules base site (.klass mod :: rest)).run (builtins.machine depth) s =
      (do
        let hook ← get_method_from ((← get).klass mod).class_env "self.prepended"
        call_module_hook mod hook "prepended" (.klass base) site
        prepend_modules base site rest : P Value).run (builtins.machine depth) { s with ev } := by
  obtain ⟨-, -, hmodule, rfl⟩ := link_add_module hexec
  rw [prepend_modules, run_bind_some (run_get _ s), if_pos hmodule]
  rfl

end operations

section witness

/-- The classes behind `module M; end`, `class C; end` and a list of modules that C includes. -/
def two_more (included : List Ref) : Eval :=
  let c := { new_class_or_module "C" (some 0) false with included_modules := included }
  { core_ev with classes := core_classes ++ [new_class_or_module "M" none true] ++ [c] }

/-- `module M; end; class C; include M; end` closes no cycle. -/
theorem two_more_run : AcyclicRun (two_more [core_classes.length]) := by
  have hm : AcyclicRun { core_ev with classes := core_classes ++ [new_class_or_module "M" none true] } :=
    .step (.module_ "M") (.start rfl) id rfl
  have hc : AcyclicRun (two_more []) := .step (.class_ "C" (some 0)) hm id rfl
  refine .step (.include_ (core_classes.length + 1) core_classes.length) hc ?_ rfl
  intro hreach
  rcases Relation.ReflTransGen.cases_tail hreach with heq | ⟨k, -, hlink⟩
  · exact absurd heq (by decide)
  · have hnone : (two_more []).linked core_classes.length = [] := rfl
    rw [Eval.Link, hnone] at hlink
    cases hlink

/-- Lookups in C end. -/
theorem two_more_lookups_end : ∃ enough, ∀ depth ≥ enough, ∃ found,
    (ruby_class_find_instance_method (core_classes.length + 1) "m").run (no_builtins.machine depth)
      { bare_state with ev := two_more [core_classes.length] } =
        some (found, { bare_state with ev := two_more [core_classes.length] }) := by
  obtain ⟨⟨enough, hends⟩, -⟩ := lookups_end no_builtins { bare_state with ev := two_more [core_classes.length] }
    two_more_run (core_classes.length + 1) "m" 0 0
  exact ⟨enough, fun depth hdepth => (hends depth hdepth).1⟩

/-- What `module M; include M; end` leaves. -/
def self_including : Eval :=
  { core_ev with
    classes := core_classes ++ [{ new_class_or_module "M" none true with included_modules := [core_classes.length] }] }

/-- A module may include itself, and no lookup of a method that it does not define ends. -/
theorem self_including_never_ends :
    ((GraphOp.module_ "M").exec core_ev).bind (fun ev => (GraphOp.include_ core_classes.length core_classes.length).exec ev) =
      some self_including ∧
    ∀ depth, (ruby_class_find_instance_method core_classes.length "m").run (no_builtins.machine depth)
      { bare_state with ev := self_including } = none := by
  refine ⟨rfl, fun depth => ?_⟩
  induction depth with
  | zero => rfl
  | succ depth ih =>
    refine (run_call no_builtins depth (.ruby_class_find_instance_method core_classes.length "m") _).trans ?_
    have hmodules : (find_in_modules "m" [core_classes.length]).run (no_builtins.machine depth)
        { bare_state with ev := self_including } = none := by
      rw [find_in_modules, run_bind, ih]
      rfl
    have hstep : (find_instance_step core_classes.length "m").run (no_builtins.machine depth)
        { bare_state with ev := self_including } = none := hmodules
    have hwalk : (find_instance_walk "m" [core_classes.length]).run (no_builtins.machine depth)
        { bare_state with ev := self_including } = none := by
      rw [find_instance_walk, run_bind, hstep]
      rfl
    exact hwalk

end witness

end stoned
