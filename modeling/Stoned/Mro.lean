import Mathlib.Data.List.Dedup
import Mathlib.Data.List.TakeWhile
import Stoned.Evaluator

namespace stoned

open program

/-! The order in which methods are looked up. -/

section
variable {α β : Type} [DecidableEq α] {f : α → Option β} {entries before behind : List α} {after e : α}

/-- An entry keeps its rank when only its last occurrence counts: what answers
in front of that occurs again behind it. -/
def Kept (f : α → Option β) (entries : List α) (e : α) : Prop :=
  ∃ before behind, entries = before ++ e :: behind ∧ e ∉ behind ∧ ∀ d ∈ before, f d ≠ none → d = e ∨ d ∈ behind

/-- The first entry to answer keeps its rank. -/
def FirstKept (f : α → Option β) (entries : List α) : Prop :=
  ∀ before e behind, entries = before ++ e :: behind → f e ≠ none → (∀ d ∈ before, f d = none) → Kept f entries e

omit [DecidableEq α] in
theorem firstKept_of_nodup (hnodup : entries.Nodup) : FirstKept f entries := by
  rintro before e behind rfl - hfirst
  refine ⟨before, behind, rfl, ?_, ?_⟩
  · exact (List.nodup_cons.mp (List.nodup_append.mp hnodup).2.1).1
  · exact fun d hd hanswers => absurd (hfirst d hd) hanswers

/-- What keeps its rank is the first to answer without repetitions. -/
theorem findSome_dedup_of_kept {answer : β} (hkept : Kept f entries e) (he : f e = some answer) :
    entries.dedup.findSome? f = some answer := by
  obtain ⟨before, behind, rfl, hlast, hfound⟩ := hkept
  induction before with
  | nil => rw [List.nil_append, List.dedup_cons_of_notMem hlast, List.findSome?_cons, he]
  | cons d before ih =>
    have hrest := ih fun other hother => hfound other (List.mem_cons_of_mem _ hother)
    rw [List.cons_append]
    by_cases hd : d ∈ before ++ e :: behind
    · rw [List.dedup_cons_of_mem hd]
      exact hrest
    · rw [List.dedup_cons_of_notMem hd]
      have hnone : f d = none := by
        by_contra hanswers
        apply hd
        rcases hfound d List.mem_cons_self hanswers with rfl | hmem
        · exact List.mem_append_right _ List.mem_cons_self
        · exact List.mem_append_right _ (List.mem_cons_of_mem _ hmem)
      rw [List.findSome?_cons, hnone]
      exact hrest

theorem findSome_dedup_none (hnone : ∀ d ∈ entries, f d = none) : entries.dedup.findSome? f = none := by
  rw [List.findSome?_eq_none_iff]
  exact fun d hd => hnone d (List.mem_dedup.mp hd)

/-- Where the first entry to answer keeps its rank, repetitions do not matter. -/
theorem findSome_dedup (hkept : FirstKept f entries) : entries.dedup.findSome? f = entries.findSome? f := by
  cases hfind : entries.findSome? f with
  | none => exact findSome_dedup_none (List.findSome?_eq_none_iff.mp hfind)
  | some answer =>
    obtain ⟨before, e, behind, hsplit, he, hfirst⟩ := List.findSome?_eq_some_iff.mp hfind
    exact findSome_dedup_of_kept (hkept before e behind hsplit (by rw [he]; rintro ⟨⟩) hfirst) he

/-- The entries strictly behind one. -/
def strictly_behind (after : α) (entries : List α) : List α := (entries.dropWhile (· ≠ after)).drop 1

theorem strictly_behind_append (hfirst : after ∉ before) :
    strictly_behind after (before ++ after :: behind) = behind := by
  have hbefore : ∀ d ∈ before, decide (d ≠ after) = true := by
    intro d hd
    simp only [ne_eq, decide_eq_true_eq]
    rintro rfl
    exact hfirst hd
  rw [strictly_behind, List.dropWhile_append_of_pos hbefore, List.dropWhile_cons_of_neg (by simp), List.drop_succ_cons,
    List.drop_zero]

theorem strictly_behind_of_notMem (hnot : after ∉ entries) : strictly_behind after entries = [] := by
  have hall : ∀ d ∈ entries, decide (d ≠ after) = true := by
    intro d hd
    simp only [ne_eq, decide_eq_true_eq]
    rintro rfl
    exact hnot hd
  rw [strictly_behind, List.dropWhile_eq_nil_iff.mpr hall]
  rfl

/-- Without repetitions an entry is followed by what follows its last occurrence. -/
theorem strictly_behind_dedup (hlast : after ∉ behind) :
    strictly_behind after (before ++ after :: behind).dedup = behind.dedup := by
  induction before with
  | nil =>
    have hnil : after ∉ ([] : List α) := List.not_mem_nil
    rw [List.nil_append, List.dedup_cons_of_notMem hlast]
    exact strictly_behind_append hnil
  | cons d before ih =>
    rw [List.cons_append]
    by_cases hd : d ∈ before ++ after :: behind
    · rw [List.dedup_cons_of_mem hd]
      exact ih
    · rw [List.dedup_cons_of_notMem hd]
      have hne : d ≠ after := by
        rintro rfl
        exact hd (List.mem_append_right _ List.mem_cons_self)
      rw [strictly_behind, List.dropWhile_cons_of_pos (by simpa using hne)]
      exact ih

theorem last_occurrence (hmem : after ∈ entries) :
    ∃ before behind, entries = before ++ after :: behind ∧ after ∉ behind := by
  induction entries with
  | nil => cases hmem
  | cons d entries ih =>
    by_cases hrest : after ∈ entries
    · obtain ⟨before, behind, rfl, hlast⟩ := ih hrest
      exact ⟨d :: before, behind, rfl, hlast⟩
    · obtain rfl | hmem := List.mem_cons.mp hmem
      · exact ⟨[], entries, rfl, hrest⟩
      · exact absurd hmem hrest

/-- What follows the last occurrence follows the first. -/
theorem mem_strictly_behind {d : α} (hd : d ∈ behind) : d ∈ strictly_behind after (before ++ after :: behind) := by
  by_cases hfirst : after ∈ before
  · obtain ⟨front, rest, rfl, hfront⟩ := List.eq_append_cons_of_mem hfirst
    rw [List.append_assoc, List.cons_append, strictly_behind_append hfront]
    exact List.mem_append_right _ (List.mem_cons_of_mem _ hd)
  · rw [strictly_behind_append hfirst]
    exact hd

/-- In a list without repetitions what stands behind an entry has a later position. -/
theorem idxOf_lt_of_behind (hnodup : entries.Nodup) (he : e ∈ strictly_behind after entries) :
    entries.idxOf after < entries.idxOf e := by
  have hmem : after ∈ entries := by
    by_contra hnot
    rw [strictly_behind_of_notMem hnot] at he
    cases he
  obtain ⟨before, behind, rfl, hfirst⟩ := List.eq_append_cons_of_mem hmem
  rw [strictly_behind_append hfirst] at he
  have hbefore : e ∉ before := fun hb => (List.nodup_append.mp hnodup).2.2 e hb e (List.mem_cons_of_mem _ he) rfl
  have hne : after ≠ e := by
    rintro rfl
    exact (List.nodup_cons.mp (List.nodup_append.mp hnodup).2.1).1 he
  rw [List.idxOf_append_of_notMem hfirst, List.idxOf_append_of_notMem hbefore, List.idxOf_cons_self,
    List.idxOf_cons_ne _ hne]
  omega

end

/-- A class and its superclasses, up to the first module. -/
def Eval.chain (ev : Eval) (klass : Ref) : List Ref := up_to_module (ev.superclasses (some klass))
where
  up_to_module : List Ref → List Ref
    | [] => []
    | k :: rest => k :: if (ev.klass k).is_module then [] else up_to_module rest

/-- The lookup order with its repetitions: for each class of the chain the
prepended modules, itself and the included modules, the modules in the same
way. Modules nested more than `depth` deep have none. -/
def Eval.lookup_order (ev : Eval) : Nat → Ref → Option (List Ref)
  | 0, _ => none
  | depth + 1, klass => do
    let parts ← (ev.chain klass).mapM fun k => do
      let prepended ← (ev.klass k).prepended_modules.mapM (ev.lookup_order depth)
      let included ← (ev.klass k).included_modules.mapM (ev.lookup_order depth)
      return prepended.flatten ++ k :: included.flatten
    return parts.flatten

/-- What a class has of its own under a name. -/
def State.own_entry (s : State) (name : String) (k : Ref) : Option Value :=
  (s.ev.klass k).class_env.bind fun class_env => s.envs.env_get_own class_env name

/-- A class itself defines a method. -/
def State.defines (s : State) (name : String) (k : Ref) : Bool := (only_method (s.own_entry name k)).isSome

/-- What the lookup answers at a class: the method it defines, or that the
method is undefined there. -/
def State.found_at (s : State) (name : String) (k : Ref) : Option (Value × Option Ref) :=
  match s.own_entry name k with
  | some (.method def_node closure visibility def_file) => some (.method def_node closure visibility def_file, some k)
  | some .undef_method => some (.undef_method, none)
  | _ => none

/-- What a super lookup answers at a class: the method its frames bind. -/
def State.seen_at (s : State) (name : String) (k : Ref) : Option (Value × Ref) :=
  ((s.ev.klass k).class_env.bind fun class_env => only_method (s.envs.env_get class_env name)).map (·, k)

/-- The super lookup along an order: `seen` says whether the caller has been
passed. -/
def super_scan {β : Type} (sees : Ref → Option β) (after : Ref) : Bool → List Ref → Bool × Option β
  | seen, [] => (seen, none)
  | seen, k :: rest =>
    match if seen then sees k else none with
    | some found => (seen, some found)
    | none => super_scan sees after (seen || k == after) rest

theorem super_scan_cons {β : Type} (sees : Ref → Option β) (after : Ref) (seen : Bool) (k : Ref) (rest : List Ref) :
    super_scan sees after seen (k :: rest) =
      match if seen then sees k else none with
      | some found => (seen, some found)
      | none => super_scan sees after (seen || k == after) rest := rfl

theorem super_scan_append {β : Type} (sees : Ref → Option β) (after : Ref) (seen : Bool) (first rest : List Ref) :
    super_scan sees after seen (first ++ rest) =
      match super_scan sees after seen first with
      | (seen, some found) => (seen, some found)
      | (seen, none) => super_scan sees after seen rest := by
  induction first generalizing seen with
  | nil => rfl
  | cons k first ih =>
    rw [List.cons_append, super_scan_cons, super_scan_cons]
    cases (if seen then sees k else none) with
    | some found => rfl
    | none => exact ih _

theorem super_scan_seen {β : Type} (sees : Ref → Option β) (after : Ref) (order : List Ref) :
    (super_scan sees after true order).2 = order.findSome? sees := by
  induction order with
  | nil => rfl
  | cons k order ih =>
    rw [super_scan_cons, if_pos rfl, List.findSome?_cons]
    cases sees k with
    | some found => rfl
    | none => exact ih

/-- The scan answers what comes behind the first occurrence of the caller. -/
theorem super_scan_eq {β : Type} (sees : Ref → Option β) (after : Ref) (order : List Ref) :
    (super_scan sees after false order).2 = (strictly_behind after order).findSome? sees := by
  induction order with
  | nil => rfl
  | cons k order ih =>
    rw [super_scan_cons, if_neg Bool.false_ne_true, Bool.false_or]
    by_cases hk : k = after
    · have hbehind : strictly_behind after (k :: order) = order := by
        rw [hk]
        exact strictly_behind_append List.not_mem_nil
      rw [hbehind, beq_iff_eq.mpr hk]
      exact super_scan_seen sees after order
    · have hbehind : strictly_behind after (k :: order) = strictly_behind after order := by
        rw [strictly_behind, List.dropWhile_cons_of_pos (by simpa using hk)]
        rfl
      rw [hbehind, beq_eq_false_iff_ne.mpr hk]
      exact ih

section
variable {builtins : Builtins} {depth : Nat} {s : State} {name : String}

theorem get_own_run (env : Option Env) :
    (get_own env name).run (builtins.machine depth) s = some (env.bind fun env => s.envs.env_get_own env name, s) := by
  cases env <;> rfl

theorem get_method_from_run (env : Option Env) :
    (get_method_from env name).run (builtins.machine depth) s =
      some (env.bind fun env => only_method (s.envs.env_get env name), s) := by
  cases env <;> rfl

/-- A lookup in each module of a list is a lookup in all of them, in order. -/
theorem find_in_modules_run {mods : List Ref} {orders : List (List Ref)}
    (horders : mods.mapM (s.ev.lookup_order depth) = some orders)
    (hmod : ∀ mod order, s.ev.lookup_order depth mod = some order →
      (ruby_class_find_instance_method mod name).run (builtins.machine depth) s =
        some (order.findSome? (s.found_at name), s)) :
    (find_in_modules name mods).run (builtins.machine depth) s =
      some (orders.flatten.findSome? (s.found_at name), s) := by
  induction mods generalizing orders with
  | nil =>
    cases horders
    rfl
  | cons mod mods ih =>
    rw [List.mapM_cons, Option.bind_eq_bind, Option.bind_eq_some_iff] at horders
    obtain ⟨order, horder, hrest⟩ := horders
    rw [Option.bind_eq_bind, Option.bind_eq_some_iff] at hrest
    obtain ⟨rest, hrest, hcons⟩ := hrest
    cases hcons
    rw [find_in_modules, run_bind_some (hmod mod order horder), List.flatten_cons, List.findSome?_append]
    cases order.findSome? (s.found_at name) with
    | some found => rfl
    | none => exact ih hrest

/-- A class of the chain with its modules. -/
theorem find_instance_step_run {k : Ref} {prepended included : List (List Ref)}
    (hprepended : (s.ev.klass k).prepended_modules.mapM (s.ev.lookup_order depth) = some prepended)
    (hincluded : (s.ev.klass k).included_modules.mapM (s.ev.lookup_order depth) = some included)
    (hmod : ∀ mod order, s.ev.lookup_order depth mod = some order →
      (ruby_class_find_instance_method mod name).run (builtins.machine depth) s =
        some (order.findSome? (s.found_at name), s)) :
    (find_instance_step k name).run (builtins.machine depth) s =
      some ((prepended.flatten ++ k :: included.flatten).findSome? (s.found_at name), s) := by
  rw [find_instance_step, run_bind_some (run_get _ s), run_bind_some (find_in_modules_run hprepended hmod),
    List.findSome?_append, List.findSome?_cons]
  cases prepended.flatten.findSome? (s.found_at name) with
  | some found => rfl
  | none =>
    refine (run_bind_some (get_own_run _)).trans ?_
    have hincludes := find_in_modules_run hincluded hmod
    rw [State.found_at, State.own_entry]
    cases (s.ev.klass k).class_env.bind fun class_env => s.envs.env_get_own class_env name with
    | none => exact hincludes
    | some own =>
      cases own with
      | method => rfl
      | undef_method => rfl
      | _ => exact hincludes

theorem find_instance_walk_run {classes : List Ref} {parts : List (List Ref)}
    (hparts : (Eval.chain.up_to_module s.ev classes).mapM (fun k => do
      let prepended ← (s.ev.klass k).prepended_modules.mapM (s.ev.lookup_order depth)
      let included ← (s.ev.klass k).included_modules.mapM (s.ev.lookup_order depth)
      return prepended.flatten ++ k :: included.flatten) = some parts)
    (hmod : ∀ mod order, s.ev.lookup_order depth mod = some order →
      (ruby_class_find_instance_method mod name).run (builtins.machine depth) s =
        some (order.findSome? (s.found_at name), s)) :
    (find_instance_walk name classes).run (builtins.machine depth) s =
      some (parts.flatten.findSome? (s.found_at name), s) := by
  induction classes generalizing parts with
  | nil =>
    cases hparts
    rfl
  | cons k classes ih =>
    rw [Eval.chain.up_to_module, List.mapM_cons] at hparts
    simp only [Option.bind_eq_bind, Option.bind_eq_some_iff, Option.pure_def, Option.some.injEq] at hparts
    obtain ⟨part, ⟨prepended, hprepended, included, hincluded, rfl⟩, rest, hrest, rfl⟩ := hparts
    have hstep : (find_instance_step k name).run (builtins.machine depth) s = some (_, s) :=
      find_instance_step_run hprepended hincluded hmod
    generalize prepended.flatten ++ k :: included.flatten = part at hstep
    rw [find_instance_walk, run_bind_some hstep, List.flatten_cons, List.findSome?_append]
    cases part.findSome? (s.found_at name) with
    | some found => rfl
    | none =>
      refine (run_bind_some (run_get _ s)).trans ?_
      by_cases hmodule : (s.ev.klass k).is_module
      · rw [if_pos hmodule] at hrest
        cases hrest
        rw [if_pos hmodule]
        rfl
      · rw [if_neg hmodule] at hrest
        rw [if_neg hmodule]
        exact ih hrest

/-- The method lookup answers what the first class to answer has. -/
theorem find_instance_method_run {klass : Ref} {order : List Ref} (horder : s.ev.lookup_order depth klass = some order) :
    (ruby_class_find_instance_method klass name).run (builtins.machine depth) s =
      some (order.findSome? (s.found_at name), s) := by
  induction depth generalizing klass order with
  | zero => cases horder
  | succ depth ih =>
    rw [Eval.lookup_order, Option.bind_eq_bind, Option.bind_eq_some_iff] at horder
    obtain ⟨parts, hparts, horder⟩ := horder
    cases horder
    refine (run_call builtins depth (.ruby_class_find_instance_method klass name) s).trans ?_
    exact (run_bind_some (run_get _ s)).trans (find_instance_walk_run hparts fun mod order => ih)

theorem super_in_modules_run (after : Ref) (seen : Bool) {mods : List Ref} {orders : List (List Ref)}
    (horders : mods.mapM (s.ev.lookup_order depth) = some orders)
    (hmod : ∀ mod order seen, s.ev.lookup_order depth mod = some order →
      (ruby_class_find_super_method_inner mod after seen name).run (builtins.machine depth) s =
        some (super_scan (s.seen_at name) after seen order, s)) :
    (super_in_modules after name seen mods).run (builtins.machine depth) s =
      some (super_scan (s.seen_at name) after seen orders.flatten, s) := by
  induction mods generalizing orders seen with
  | nil =>
    cases horders
    rfl
  | cons mod mods ih =>
    rw [List.mapM_cons] at horders
    simp only [Option.bind_eq_bind, Option.bind_eq_some_iff, Option.pure_def, Option.some.injEq] at horders
    obtain ⟨order, horder, rest, hrest, rfl⟩ := horders
    rw [super_in_modules, run_bind_some (hmod mod order seen horder), List.flatten_cons, super_scan_append]
    cases super_scan (s.seen_at name) after seen order with
    | mk seen found =>
      cases found with
      | some found => rfl
      | none => exact ih _ hrest

theorem find_super_step_run (after : Ref) (seen : Bool) {k : Ref} {prepended included : List (List Ref)}
    (hprepended : (s.ev.klass k).prepended_modules.mapM (s.ev.lookup_order depth) = some prepended)
    (hincluded : (s.ev.klass k).included_modules.mapM (s.ev.lookup_order depth) = some included)
    (hmod : ∀ mod order seen, s.ev.lookup_order depth mod = some order →
      (ruby_class_find_super_method_inner mod after seen name).run (builtins.machine depth) s =
        some (super_scan (s.seen_at name) after seen order, s)) :
    (find_super_step k after seen name).run (builtins.machine depth) s =
      some (super_scan (s.seen_at name) after seen (prepended.flatten ++ k :: included.flatten), s) := by
  rw [find_super_step, run_bind_some (run_get _ s), run_bind_some (super_in_modules_run after seen hprepended hmod),
    super_scan_append]
  cases super_scan (s.seen_at name) after seen prepended.flatten with
  | mk seen found =>
    cases found with
    | some found => rfl
    | none =>
      have hincludes := super_in_modules_run after (seen || k == after) hincluded hmod
      cases seen with
      | false => exact hincludes
      | true =>
        refine (run_bind_some (get_method_from_run _)).trans ?_
        change _ = some (super_scan (s.seen_at name) after true (k :: included.flatten), s)
        rw [super_scan_cons, if_pos rfl, State.seen_at]
        cases (s.ev.klass k).class_env.bind fun class_env => only_method (s.envs.env_get class_env name) with
        | some method => rfl
        | none => exact hincludes

theorem find_super_walk_run (after : Ref) (seen : Bool) {classes : List Ref} {parts : List (List Ref)}
    (hparts : (Eval.chain.up_to_module s.ev classes).mapM (fun k => do
      let prepended ← (s.ev.klass k).prepended_modules.mapM (s.ev.lookup_order depth)
      let included ← (s.ev.klass k).included_modules.mapM (s.ev.lookup_order depth)
      return prepended.flatten ++ k :: included.flatten) = some parts)
    (hmod : ∀ mod order seen, s.ev.lookup_order depth mod = some order →
      (ruby_class_find_super_method_inner mod after seen name).run (builtins.machine depth) s =
        some (super_scan (s.seen_at name) after seen order, s)) :
    (find_super_walk after name seen classes).run (builtins.machine depth) s =
      some (super_scan (s.seen_at name) after seen parts.flatten, s) := by
  induction classes generalizing parts seen with
  | nil =>
    cases hparts
    rfl
  | cons k classes ih =>
    rw [Eval.chain.up_to_module, List.mapM_cons] at hparts
    simp only [Option.bind_eq_bind, Option.bind_eq_some_iff, Option.pure_def, Option.some.injEq] at hparts
    obtain ⟨part, ⟨prepended, hprepended, included, hincluded, rfl⟩, rest, hrest, rfl⟩ := hparts
    have hstep : (find_super_step k after seen name).run (builtins.machine depth) s = some (_, s) :=
      find_super_step_run after seen hprepended hincluded hmod
    generalize prepended.flatten ++ k :: included.flatten = part at hstep
    rw [find_super_walk, run_bind_some hstep, List.flatten_cons, super_scan_append]
    cases super_scan (s.seen_at name) after seen part with
    | mk seen found =>
      cases found with
      | some found => rfl
      | none =>
        refine (run_bind_some (run_get _ s)).trans ?_
        by_cases hmodule : (s.ev.klass k).is_module
        · rw [if_pos hmodule] at hrest
          cases hrest
          rw [if_pos hmodule]
          rfl
        · rw [if_neg hmodule] at hrest
          rw [if_neg hmodule]
          exact ih _ hrest

theorem find_super_inner_run (after : Ref) (seen : Bool) {klass : Ref} {order : List Ref}
    (horder : s.ev.lookup_order depth klass = some order) :
    (ruby_class_find_super_method_inner klass after seen name).run (builtins.machine depth) s =
      some (super_scan (s.seen_at name) after seen order, s) := by
  induction depth generalizing klass seen order with
  | zero => cases horder
  | succ depth ih =>
    rw [Eval.lookup_order, Option.bind_eq_bind, Option.bind_eq_some_iff] at horder
    obtain ⟨parts, hparts, horder⟩ := horder
    cases horder
    refine (run_call builtins depth (.ruby_class_find_super_method_inner klass after seen name) s).trans ?_
    exact (run_bind_some (run_get _ s)).trans (find_super_walk_run after seen hparts fun mod order seen => ih seen)

/-- The super lookup answers what the first class behind the caller's first
occurrence sees. -/
theorem find_super_method_run {klass after : Ref} {order : List Ref}
    (horder : s.ev.lookup_order depth klass = some order) :
    (ruby_class_find_super_method klass after name).run (builtins.machine depth) s =
      some ((strictly_behind after order).findSome? (s.seen_at name), s) := by
  have hinner : (ruby_class_find_super_method_inner klass after false name).run (builtins.machine depth) s =
      some (_, s) := find_super_inner_run after false horder
  rw [ruby_class_find_super_method, run_bind_some hinner, ← super_scan_eq]
  rfl

end

/-- The method a class itself defines. -/
def State.method_at (s : State) (name : String) (k : Ref) : Option (Value × Ref) :=
  (only_method (s.own_entry name k)).map (·, k)

/-- A class sees the method it defines itself. -/
theorem State.seen_of_method {s : State} {name : String} {k : Ref} {found : Value × Ref}
    (h : s.method_at name k = some found) : s.seen_at name k = some found := by
  rw [State.method_at, Option.map_eq_some_iff] at h
  obtain ⟨method, hmethod, rfl⟩ := h
  rw [State.own_entry] at hmethod
  rw [State.seen_at]
  cases henv : (s.ev.klass k).class_env with
  | none =>
    rw [henv] at hmethod
    cases hmethod
  | some class_env =>
    rw [henv, Option.bind_some, EnvHeap.env_get_own] at hmethod
    cases hown : entry name (s.envs.vars class_env) with
    | none =>
      rw [hown] at hmethod
      cases hmethod
    | some own =>
      rw [hown] at hmethod
      rw [Option.bind_some, EnvHeap.env_get, EnvHeap.scopes_eq, List.findSome?_cons, hown]
      simp only [hmethod, Option.map_some]

/-- A super lookup goes by the classes' own methods: the first class behind the
caller's first occurrence to see one defines it, stands behind the caller's
last occurrence too, and keeps its rank there. -/
def SuperClear (s : State) (name : String) (after : Ref) (order : List Ref) : Prop :=
  ∀ before e behind, strictly_behind after order = before ++ e :: behind → s.seen_at name e ≠ none →
    (∀ d ∈ before, s.seen_at name d = none) →
      s.method_at name e ≠ none ∧ ∃ front rest, order = front ++ after :: rest ∧ after ∉ rest ∧
        Kept (s.method_at name) rest e

/-- Where no class occurs twice and none sees a method it does not define, a
super lookup goes by the classes' own methods. -/
theorem superClear_of_nodup {s : State} {name : String} {after : Ref} {order : List Ref} (hnodup : order.Nodup)
    (hown : ∀ k ∈ order, s.seen_at name k ≠ none → s.method_at name k ≠ none) : SuperClear s name after order := by
  intro before e behind hsplit hsees hfirst
  have hafter : after ∈ order := by
    by_contra hnot
    rw [strictly_behind_of_notMem hnot] at hsplit
    simp at hsplit
  obtain ⟨front, rest, rfl, hfront⟩ := List.eq_append_cons_of_mem hafter
  rw [strictly_behind_append hfront] at hsplit
  obtain ⟨hlast, hrest⟩ := List.nodup_cons.mp (List.nodup_append.mp hnodup).2.1
  have hmem : e ∈ front ++ after :: rest := by
    rw [hsplit]
    simp
  refine ⟨hown e hmem hsees, front, rest, rfl, hlast, ?_⟩
  refine ⟨before, behind, hsplit, ?_, ?_⟩
  · rw [hsplit] at hrest
    exact (List.nodup_cons.mp (List.nodup_append.mp hrest).2.1).1
  · intro d hd hdefines
    obtain ⟨found, hfound⟩ := Option.ne_none_iff_exists'.mp hdefines
    have hnone := hfirst d hd
    rw [State.seen_of_method hfound] at hnone
    cases hnone

/-- A clear super lookup finds the first class strictly behind the caller, in
the order without repetitions, that itself defines the method. -/
theorem seen_eq_method {s : State} {name : String} {after : Ref} {order : List Ref}
    (hclear : SuperClear s name after order) :
    (strictly_behind after order).findSome? (s.seen_at name) =
      (strictly_behind after order.dedup).findSome? (s.method_at name) := by
  cases hfind : (strictly_behind after order).findSome? (s.seen_at name) with
  | none =>
    have hunseen := List.findSome?_eq_none_iff.mp hfind
    by_cases hafter : after ∈ order
    · obtain ⟨before, behind, rfl, hlast⟩ := last_occurrence hafter
      rw [strictly_behind_dedup hlast]
      refine (findSome_dedup_none ?_).symm
      intro d hd
      by_contra hdefines
      obtain ⟨found, hfound⟩ := Option.ne_none_iff_exists'.mp hdefines
      have hnone := hunseen d (mem_strictly_behind hd)
      rw [State.seen_of_method hfound] at hnone
      cases hnone
    · rw [strictly_behind_of_notMem fun hmem => hafter (List.mem_dedup.mp hmem)]
      rfl
  | some found =>
    obtain ⟨before, e, behind, hsplit, hsees, hfirst⟩ := List.findSome?_eq_some_iff.mp hfind
    obtain ⟨hdefines, front, rest, rfl, hlast, hkept⟩ := hclear before e behind hsplit (by rw [hsees]; rintro ⟨⟩) hfirst
    obtain ⟨method, hmethod⟩ := Option.ne_none_iff_exists'.mp hdefines
    have hsame := State.seen_of_method hmethod
    rw [hsees] at hsame
    cases hsame
    rw [strictly_behind_dedup hlast, findSome_dedup_of_kept hkept hmethod]

/-- A super call made by the method of `after`, on an instance of `klass`, runs
the method of `e`. -/
def SuperStep (builtins : Builtins) (depth : Nat) (s : State) (name : String) (klass after e : Ref) : Prop :=
  ∃ method, (ruby_class_find_super_method klass after name).run (builtins.machine depth) s = some (some (method, e), s)

theorem super_step_position {builtins : Builtins} {depth : Nat} {s : State} {name : String} {klass after e : Ref}
    {order : List Ref} (horder : s.ev.lookup_order depth klass = some order) (hclear : SuperClear s name after order)
    (hstep : SuperStep builtins depth s name klass after e) : order.dedup.idxOf after < order.dedup.idxOf e := by
  obtain ⟨method, hrun⟩ := hstep
  rw [find_super_method_run horder, seen_eq_method hclear] at hrun
  have hfound := congrArg Prod.fst (Option.some.inj hrun)
  obtain ⟨before, k, behind, hsplit, hk, -⟩ := List.findSome?_eq_some_iff.mp hfound
  obtain ⟨_, -, hpair⟩ := Option.map_eq_some_iff.mp hk
  obtain rfl : k = e := congrArg Prod.snd hpair
  refine idxOf_lt_of_behind order.nodup_dedup ?_
  rw [hsplit]
  simp

/-- A chain of super calls goes up the order and ends. -/
theorem super_chain_ends {builtins : Builtins} {depth : Nat} {s : State} {name : String} {klass : Ref}
    {order chain : List Ref} (horder : s.ev.lookup_order depth klass = some order)
    (hclear : ∀ after ∈ chain, SuperClear s name after order)
    (hchain : chain.IsChain (SuperStep builtins depth s name klass)) :
    (chain.map order.dedup.idxOf).Pairwise (· < ·) ∧ chain.length ≤ order.dedup.length + 1 := by
  have hrises : (chain.map order.dedup.idxOf).Pairwise (· < ·) := by
    rw [← List.isChain_iff_pairwise, List.isChain_map]
    refine List.IsChain.imp_of_mem_imp ?_ hchain
    intro after e hafter _ hstep
    exact super_step_position horder (hclear after hafter) hstep
  refine ⟨hrises, ?_⟩
  have hnodup : (chain.map order.dedup.idxOf).Nodup := hrises.imp fun hlt => hlt.ne
  have hsub : chain.map order.dedup.idxOf ⊆ List.range (order.dedup.length + 1) := by
    intro i hi
    obtain ⟨k, -, rfl⟩ := List.mem_map.mp hi
    exact List.mem_range.mpr (Nat.lt_succ_of_le List.idxOf_le_length)
  have hlength := (hnodup.subperm hsub).length_le
  rw [List.length_map, List.length_range] at hlength
  exact hlength

/-- `class A; def m; end; end; class B < A; undef m; end` -/
def undefining_state : State :=
  let a : RubyClass := {
    name := "A", superclass := none, class_env := some 1, prepended_modules := []
    included_modules := [], extended_modules := [], is_module := false }
  let frames := ((bare_state.envs.env_new (some 0) true).2.env_new (some 0) true).2
  { bare_state with
    ev := { bare_state.ev with classes := [a, { a with name := "B", superclass := some 0, class_env := some 2 }] }
    envs := (frames.env_define 1 "m" (.method (.def_ no_span none "m" [] none) 0 .method_public none)).env_define 2
      "m" .undef_method }

theorem undefining_state_own {k : Ref} (hk : k ∈ [1, 0]) (hsees : undefining_state.seen_at "m" k ≠ none) :
    undefining_state.method_at "m" k ≠ none := by
  obtain rfl | hk := List.mem_cons.mp hk
  · exact absurd rfl hsees
  · obtain rfl := List.mem_singleton.mp hk
    rintro ⟨⟩

end stoned
