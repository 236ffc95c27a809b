import Stoned.KeywordLaw
import Stoned.ParamLaw
import Stoned.SingletonLaw

namespace stoned

open program

/-! What a bare `super` passes on. -/

section forwarding
variable {answers : Oracle evaluator_calls State} {env : Env} {s : State} {ps : ParamList}

/-- The current value of a parameter that is passed on. -/
def State.forwarded (s : State) (env : Env) (p : Node) : Value :=
  ((forwarded_name p).bind (s.envs.env_get env)).getD .nil

/-- A parameter that is passed on under its name, which is bound. -/
def Forwardable (env : Env) (s : State) (p : Node) : Prop :=
  ∃ name, forwarded_name p = some name ∧ (s.envs.env_get env name).isSome = true

/-- The parameters that are passed on come first; behind them no parameter is. -/
theorem forwarded_args_run {params others : List Node} (hparams : ∀ p ∈ params, Forwardable env s p)
    (hothers : ∀ p ∈ others, forwarded_name p = none) {done : List Value} (hdone : done.length ≤ MAX_ARGS) :
    (forwarded_args env done (params ++ others)).run (answering answers) s =
      some ((done ++ params.map (s.forwarded env)).take MAX_ARGS, s) := by
  induction params generalizing done with
  | nil =>
    rw [List.map_nil, List.append_nil, List.take_of_length_le hdone, List.nil_append]
    induction others with
    | nil => rfl
    | cons p others ih =>
      rw [forwarded_args]
      split
      · rfl
      · rw [hothers p List.mem_cons_self]
        exact ih fun q hq => hothers q (List.mem_cons_of_mem _ hq)
  | cons p params ih =>
    rw [List.cons_append, forwarded_args]
    split
    · rename_i hfull
      rw [List.take_append_of_le_length hfull, List.take_of_length_le hdone]
      rfl
    · rename_i hroom
      obtain ⟨name, hname, hsome⟩ := hparams p List.mem_cons_self
      obtain ⟨val, hval⟩ := Option.isSome_iff_exists.mp hsome
      have hget : (env_get env name).run (answering answers) s = some (some val, s) := by
        rw [← hval]
        rfl
      have hforwarded : s.forwarded env p = val := by
        rw [State.forwarded, hname, Option.bind_some, hval]
        rfl
      rw [hname]
      refine (run_bind_some hget).trans ?_
      have hrest := @ih (fun q hq => hparams q (List.mem_cons_of_mem _ hq)) (done ++ [val]) (by
        rw [List.length_append]
        exact Nat.lt_of_not_le hroom)
      rw [List.append_assoc] at hrest
      rw [List.map_cons, hforwarded]
      exact hrest

end forwarding

namespace ParamList
variable (ps : ParamList)

/-- The parameters in front of the keywords and the block. -/
def passable : List Node := ps.lead ++ (ps.opts ++ (ps.splat.toList ++ ps.post))

theorem params_eq : ps.params = ps.passable ++ ps.others := by
  simp only [params, passable, List.append_assoc]

theorem forwarded_name_other {p : Node} (hp : is_other_param p = true) : forwarded_name p = none := by
  cases p with
  | param span name default_val splat block_param keyword_param keyword_splat =>
    simp only [is_other_param, Bool.and_eq_true] at hp
    rw [forwarded_name, if_pos hp.2]
  | _ => cases hp

end ParamList

/-- What the arguments of a splat are: the elements of an array, and any other
value itself. -/
def State.expanded (s : State) : Value → List Value
  | .array a => s.ev.elems a
  | v => [v]

section law
variable (env : Env) (s : State) (ps : ParamList)

/-- The arguments in front of the keywords that a bare super passes by the law. -/
def law_positional : List Value :=
  ps.lead.map (s.forwarded env) ++ (ps.opts.map (s.forwarded env) ++
    (ps.splat.toList.flatMap (fun p => s.expanded (s.forwarded env p)) ++ ps.post.map (s.forwarded env)))

/-- The keywords. -/
def law_keywords : List (Value × Value) :=
  (keyword_names ps.others).map fun kname => (.symbol kname, (s.envs.env_get env kname).getD .nil)

end law

/-- Arguments with keywords: a hash at the end holds them, if there are any. -/
def ArgumentList (s : State) (args positional : List Value) (keywords : List (Value × Value)) : Prop :=
  if keywords = [] then args = positional
  else ∃ h, args = positional ++ [.hash h] ∧ (s.ev.hash h).pairs = keywords

/-- What is in front of a list and what is behind it are the same if either way
it becomes the same list. -/
theorem eq_of_cons_eq_append {α : Type} {a b : α} {l : List α} (h : a :: l = l ++ [b]) : a = b := by
  induction l with
  | nil => exact List.head_eq_of_cons_eq h
  | cons c l ih =>
    obtain ⟨rfl, hrest⟩ := List.cons.inj h
    exact ih hrest

/-- The current values of the parameters are the arguments of the law exactly
when there are no keywords and a splat's value is the one argument that it
expands to. -/
theorem argumentList_forwarded_iff {env : Env} {s : State} {ps : ParamList} :
    ArgumentList s (ps.passable.map (s.forwarded env)) (law_positional env s ps) (law_keywords env s ps) ↔
      law_keywords env s ps = [] ∧ ∀ p ∈ ps.splat, s.expanded (s.forwarded env p) = [s.forwarded env p] := by
  rw [ArgumentList, ParamList.passable, law_positional]
  simp only [List.map_append]
  split
  · rename_i hkeywords
    rw [List.append_cancel_left_eq, List.append_cancel_left_eq, List.append_cancel_right_eq, and_iff_right hkeywords]
    cases ps.splat with
    | none => simp
    | some p => simp [eq_comm]
  · rename_i hkeywords
    refine iff_of_false ?_ fun h => hkeywords h.1
    rintro ⟨h, hargs, -⟩
    simp only [List.append_assoc, List.append_cancel_left_eq] at hargs
    cases hsplat : ps.splat with
    | none => simp [hsplat] at hargs
    | some p =>
      simp only [hsplat, Option.toList_some, List.map_singleton, List.singleton_append, List.flatMap_singleton] at hargs
      have hlength := congrArg List.length hargs
      simp only [List.length_cons, List.length_append, List.length_nil] at hlength
      cases hval : s.forwarded env p with
      | array a =>
        rw [hval] at hargs hlength
        have hempty : s.expanded (.array a) = [] := List.length_eq_zero_iff.mp (by omega)
        rw [hempty, List.nil_append] at hargs
        cases eq_of_cons_eq_append hargs
      | _ =>
        rw [hval, State.expanded] at hlength
        · simp only [List.length_singleton] at hlength
          omega
        all_goals
          intro other hother
          cases hother

/-! Binding the arguments of the law to the same parameter list again. -/

/-- The name that a parameter binds. -/
def bound_name : Node → Option String
  | .param _ name .. => name
  | _ => none

def is_param : Node → Bool
  | .param .. => true
  | _ => false

theorem bound_name_of_forwarded {p : Node} {name : String} (hname : forwarded_name p = some name) :
    bound_name p = some name := by
  cases p with
  | param span label default_val splat block_param keyword_param keyword_splat =>
    rw [forwarded_name] at hname
    split at hname
    · cases hname
    · exact hname
  | _ => cases hname

/-- The state when a parameter is bound. -/
def State.bound_param (s : State) (frame : Env) (p : Node) (val : Value) : State :=
  match bound_name p with
  | some name => s.defined frame name val
  | none => s

def State.new_array (s : State) (elems : List Value) : State :=
  { s with ev := { s.ev with arrays := s.ev.arrays ++ [{ elems, singleton_env := none, frozen := false }] } }

/-- The state when parameters are bound from the left, none to a default. -/
def slots_state (frame : Env) : State → List (Node × Slot) → State
  | s, [] => s
  | s, (p, .arg val) :: rest => slots_state frame (s.bound_param frame p val) rest
  | s, (p, .rest vals) :: rest =>
    slots_state frame ((s.new_array vals).bound_param frame p (.array s.ev.arrays.length)) rest
  | s, (p, .block) :: rest => slots_state frame (s.bound_param frame p ((s.envs.block_arg frame).getD .nil)) rest
  | s, (_, .default _) :: rest | s, (_, .keyword) :: rest => slots_state frame s rest

/-- A slot that is filled without evaluating anything. -/
def Slot.is_value : Slot → Bool
  | .arg _ | .rest _ | .block | .keyword => true
  | .default _ => false

section binding
variable {builtins : Builtins} {depth : Nat} {frame : Env} {s : State} {slots : List (Node × Slot)} {p : Node}
  {name : String}

theorem bind_param_run (hp : is_param p = true) (val : Value) :
    (bind_pattern frame p val).run (builtins.machine (depth + 1)) s = some ((), s.bound_param frame p val) := by
  refine (run_call builtins depth (.bind_pattern frame p val) s).trans ?_
  cases p with
  | param span name default_val => cases name <;> rfl
  | _ => cases hp

theorem bind_slots_run (hslots : ∀ slot ∈ slots, is_param slot.1 = true ∧ slot.2.is_value = true) :
    (bind_slots frame slots).run (builtins.machine (depth + 1)) s = some ((), slots_state frame s slots) := by
  induction slots generalizing s with
  | nil => rfl
  | cons slot slots ih =>
    obtain ⟨hp, hvalue⟩ := hslots slot List.mem_cons_self
    have hrest := fun u => @ih u fun other hother => hslots other (List.mem_cons_of_mem _ hother)
    obtain ⟨p, slot⟩ := slot
    cases slot with
    | arg val => exact (run_bind_some (bind_param_run hp val)).trans (hrest _)
    | rest vals =>
      have harray : (bind_slot frame p (.rest vals)).run (builtins.machine (depth + 1)) s =
          some ((), (s.new_array vals).bound_param frame p (.array s.ev.arrays.length)) := bind_param_run hp _
      exact (run_bind_some harray).trans (hrest _)
    | block =>
      have hblock : (bind_slot frame p .block).run (builtins.machine (depth + 1)) s =
          some ((), s.bound_param frame p ((s.envs.block_arg frame).getD .nil)) := bind_param_run hp _
      exact (run_bind_some hblock).trans (hrest _)
    | default => cases hvalue
    | keyword => exact hrest s

theorem bound_param_ev (val : Value) : (s.bound_param frame p val).ev = s.ev := by
  rw [State.bound_param]
  split <;> rfl

theorem bound_param_length (val : Value) :
    (s.bound_param frame p val).envs.frames.length = s.envs.frames.length := by
  rw [State.bound_param]
  split
  · exact List.length_modify ..
  · rfl

theorem bound_param_get (hname : bound_name p = some name) (hframe : frame < s.envs.frames.length) (val : Value) :
    (s.bound_param frame p val).envs.env_get frame name = some val := by
  rw [State.bound_param, hname]
  exact EnvHeap.env_get_env_define hframe val

theorem bound_param_get_ne (hname : bound_name p ≠ some name) (val : Value) :
    (s.bound_param frame p val).envs.env_get frame name = s.envs.env_get frame name := by
  rw [State.bound_param]
  split
  · rename_i other hother
    exact EnvHeap.env_get_env_define_ne (fun heq => hname (hother.trans (congrArg some heq.symm))) val
  · rfl

theorem new_array_length (vals : List Value) :
    (s.new_array vals).ev.arrays.length = s.ev.arrays.length + 1 := List.length_append

theorem new_array_elems_old {a : Ref} (ha : a < s.ev.arrays.length) (vals : List Value) :
    (s.new_array vals).ev.elems a = s.ev.elems a := by
  simp only [Eval.elems, Eval.array, State.new_array, List.getElem?_append_left ha]

theorem new_array_elems (vals : List Value) : (s.new_array vals).ev.elems s.ev.arrays.length = vals := by
  simp [Eval.elems, Eval.array, State.new_array]

/-- One slot filled, and the others behind it. -/
theorem slots_state_cons (slot : Node × Slot) :
    ∃ u : State, slots_state frame s (slot :: slots) = slots_state frame u slots ∧
      u.envs.frames.length = s.envs.frames.length ∧
      (bound_name slot.1 ≠ some name → u.envs.env_get frame name = s.envs.env_get frame name) ∧
      ∀ a, a < s.ev.arrays.length → a < u.ev.arrays.length ∧ u.ev.elems a = s.ev.elems a := by
  obtain ⟨p, slot⟩ := slot
  have hkept (val : Value) (a : Nat) (ha : a < s.ev.arrays.length) :
      a < (s.bound_param frame p val).ev.arrays.length ∧ (s.bound_param frame p val).ev.elems a = s.ev.elems a := by
    rw [bound_param_ev]
    exact ⟨ha, rfl⟩
  cases slot with
  | arg val => exact ⟨_, rfl, bound_param_length val, fun hname => bound_param_get_ne hname val, hkept val⟩
  | rest vals =>
    refine ⟨_, rfl, bound_param_length _, fun hname => bound_param_get_ne hname _, fun a ha => ?_⟩
    rw [bound_param_ev, new_array_length, new_array_elems_old ha]
    exact ⟨ha.trans (Nat.lt_succ_self _), rfl⟩
  | block => exact ⟨_, rfl, bound_param_length _, fun hname => bound_param_get_ne hname _, hkept _⟩
  | default | keyword => exact ⟨s, rfl, rfl, fun _ => rfl, fun a ha => ⟨ha, rfl⟩⟩

theorem slots_state_kept (hname : ∀ slot ∈ slots, bound_name slot.1 ≠ some name) :
    (slots_state frame s slots).envs.env_get frame name = s.envs.env_get frame name := by
  induction slots generalizing s with
  | nil => rfl
  | cons slot slots ih =>
    obtain ⟨u, hstate, -, hget, -⟩ := @slots_state_cons frame s slots name slot
    rw [hstate, ih fun other hother => hname other (List.mem_cons_of_mem _ hother)]
    exact hget (hname slot List.mem_cons_self)

theorem slots_state_elems {a : Ref} (ha : a < s.ev.arrays.length) :
    (slots_state frame s slots).ev.elems a = s.ev.elems a := by
  induction slots generalizing s with
  | nil => rfl
  | cons slot slots ih =>
    obtain ⟨u, hstate, -, -, helems⟩ := @slots_state_cons frame s slots "" slot
    rw [hstate, ih (helems a ha).1, (helems a ha).2]

/-- What a parameter is bound to when its slot has been filled. -/
def SlotHolds (frame : Env) (t : State) (name : String) : Slot → Prop
  | .arg val => t.envs.env_get frame name = some val
  | .rest vals => ∃ a, t.envs.env_get frame name = some (.array a) ∧ t.ev.elems a = vals
  | _ => True

theorem slotHolds_head (hframe : frame < s.envs.frames.length) (hname : bound_name p = some name) {slot : Slot}
    (hlater : ∀ other ∈ slots, bound_name other.1 ≠ some name) :
    SlotHolds frame (slots_state frame s ((p, slot) :: slots)) name slot := by
  cases slot with
  | arg val => exact (slots_state_kept hlater).trans (bound_param_get hname hframe val)
  | rest vals =>
    have hget := @bound_param_get frame (s.new_array vals) p name hname hframe (.array s.ev.arrays.length)
    refine ⟨s.ev.arrays.length, (slots_state_kept hlater).trans hget, ?_⟩
    rw [slots_state, slots_state_elems, bound_param_ev, new_array_elems]
    rw [bound_param_ev, new_array_length]
    exact Nat.lt_succ_self _
  | _ => trivial

/-- Parameters of different names keep what they are bound to. -/
theorem slotHolds_of_mem (hframe : frame < s.envs.frames.length)
    (hnames : (slots.filterMap fun slot => bound_name slot.1).Nodup) {slot : Slot} (hmem : (p, slot) ∈ slots)
    (hname : bound_name p = some name) : SlotHolds frame (slots_state frame s slots) name slot := by
  induction slots generalizing s with
  | nil => cases hmem
  | cons first slots ih =>
    rw [List.filterMap_cons] at hnames
    rcases List.mem_cons.mp hmem with rfl | hmem
    · rw [hname, List.nodup_cons] at hnames
      refine slotHolds_head hframe hname fun other hother heq => hnames.1 ?_
      exact List.mem_filterMap.mpr ⟨other, hother, heq⟩
    · obtain ⟨u, hstate, hlength, -, -⟩ := @slots_state_cons frame s slots name first
      rw [hstate]
      refine ih (by rwa [hlength]) ?_ hmem
      split at hnames
      · exact hnames
      · exact (List.nodup_cons.mp hnames).2

end binding

/-- A named keyword, or the block. -/
def keyword_or_block : Node → Bool
  | .param _ (some _) _ _ false true false => true
  | .param _ _ _ _ true false false => true
  | _ => false

theorem given_map (f : Node → Value) (params : List Node) (rest : List Value) :
    given params (params.map f ++ rest) = params.map fun p => (p, .arg (f p)) := by
  induction params with
  | nil => simp [given]
  | cons p params ih => exact congrArg (_ :: ·) ih

section rebinding
variable {env : Env} {s : State} {ps : ParamList}

/-- Each parameter takes its own value from the arguments of the law. -/
theorem slots_law_positional :
    ps.slots (law_positional env s ps) =
      ps.lead.map (fun p => (p, .arg (s.forwarded env p))) ++ (ps.opts.map (fun p => (p, .arg (s.forwarded env p))) ++
        (ps.splat.toList.map (fun p => (p, .rest (s.expanded (s.forwarded env p)))) ++
          (ps.post.map (fun p => (p, .arg (s.forwarded env p))) ++ ps.others.map fun p => (p, other_slot p)))) := by
  have hsplat : ps.splat.toList.map (fun p => (p, Slot.rest (ps.splat.toList.flatMap fun p =>
      s.expanded (s.forwarded env p)))) = ps.splat.toList.map fun p => (p, .rest (s.expanded (s.forwarded env p))) := by
    cases ps.splat with
    | none => rfl
    | some p => simp
  rw [ParamList.slots, ParamList.spare, law_positional]
  simp only [List.length_append, List.length_map]
  generalize hrest : ps.splat.toList.flatMap (fun p => s.expanded (s.forwarded env p)) = rest at hsplat ⊢
  have hspare : ps.lead.length + (ps.opts.length + (rest.length + ps.post.length)) - ps.lead.length - ps.post.length =
      ps.opts.length + rest.length := by omega
  have hback : ps.lead.length + (ps.opts.length + (rest.length + ps.post.length)) - ps.post.length =
      ps.lead.length + (ps.opts.length + rest.length) := by omega
  have hfirst : (ps.lead.map (s.forwarded env) ++ (ps.opts.map (s.forwarded env) ++
      (rest ++ ps.post.map (s.forwarded env)))).drop ps.lead.length =
        ps.opts.map (s.forwarded env) ++ (rest ++ ps.post.map (s.forwarded env)) := List.drop_left' (List.length_map _)
  have hmiddle : (ps.opts.map (s.forwarded env) ++ (rest ++ ps.post.map (s.forwarded env))).take
      (ps.opts.length + rest.length) = ps.opts.map (s.forwarded env) ++ rest := by
    rw [← List.append_assoc]
    exact List.take_left' (by simp)
  have hlast : (ps.lead.map (s.forwarded env) ++ (ps.opts.map (s.forwarded env) ++
      (rest ++ ps.post.map (s.forwarded env)))).drop (ps.lead.length + (ps.opts.length + rest.length)) =
        ps.post.map (s.forwarded env) := by
    rw [← List.append_assoc (ps.opts.map _), ← List.append_assoc]
    exact List.drop_left' (by simp)
  have hpost := given_map (s.forwarded env) ps.post []
  rw [List.append_nil] at hpost
  rw [hspare, hback, hfirst, hmiddle, hlast, given_map, given_map, hpost, List.drop_eq_nil_of_le (Nat.le_add_right _ _),
    List.drop_left' (List.length_map _), hsplat]
  simp only [List.map_nil, List.append_nil, List.append_assoc]

/-- A parameter that takes no keywords. -/
def takes_no_keywords : Node → Bool
  | .param _ _ _ _ _ keyword_param keyword_splat => !keyword_param && !keyword_splat
  | _ => true

theorem takes_no_keywords_of_forwarded {p : Node} {name : String} (hname : forwarded_name p = some name) :
    takes_no_keywords p = true ∧ is_param p = true := by
  cases p with
  | param span label default_val splat block_param keyword_param keyword_splat =>
    rw [forwarded_name] at hname
    cases keyword_param <;> cases keyword_splat <;> simp_all [takes_no_keywords, is_param]
  | _ => cases hname

/-- Where no keyword is passed by the law, the parameters that are left are blocks. -/
theorem others_block (hothers : ∀ p ∈ ps.others, keyword_or_block p = true) (hkeywords : law_keywords env s ps = []) :
    ∀ p ∈ ps.others, takes_no_keywords p = true ∧ is_param p = true := by
  intro p hp
  have hname : keyword_of p = none := by
    have hnames : keyword_names ps.others = [] := List.map_eq_nil_iff.mp hkeywords
    exact Option.map_eq_none_iff.mp (List.filterMap_eq_nil_iff.mp hnames p hp)
  have hkind := hothers p hp
  cases p with
  | param span name default_val splat block_param keyword_param keyword_splat =>
    cases name <;> cases block_param <;> cases keyword_param <;> cases keyword_splat <;>
      simp_all [keyword_or_block, keyword_of, takes_no_keywords, is_param]
  | _ => cases hkind

theorem no_kwargs {params : List Node} (hplain : ∀ p ∈ params, takes_no_keywords p = true) (args : List Value) :
    extract_kwargs params args = (none, args) := by
  have hnone : has_kwarg_params params = false := by
    rw [has_kwarg_params, List.any_eq_false]
    intro p hp
    have hkind := hplain p hp
    cases p with
    | param => simpa [takes_no_keywords] using hkind
    | _ => exact Bool.false_ne_true
  rw [extract_kwargs, hnone]

theorem keyword_of_plain {p : Node} (hplain : takes_no_keywords p = true) : keyword_of p = none ∧ is_kwrest p = false := by
  cases p with
  | param span name default_val splat block_param keyword_param keyword_splat =>
    simp only [takes_no_keywords, Bool.and_eq_true, Bool.not_eq_true'] at hplain
    obtain ⟨rfl, rfl⟩ := hplain
    cases name <;> exact ⟨rfl, rfl⟩
  | _ => exact ⟨rfl, rfl⟩

section
variable {builtins : Builtins} {depth : Nat} {frame : Env} {params : List Node} {t : State}

theorem no_keywords_bound (hplain : ∀ p ∈ params, takes_no_keywords p = true) :
    KeywordsBound builtins depth frame none [] t params t := by
  induction params with
  | nil => exact .done
  | cons p params ih =>
    have hrest := ih fun q hq => hplain q (List.mem_cons_of_mem _ hq)
    exact .other (keyword_of_plain (hplain p List.mem_cons_self)).1 hrest

/-- Without keyword parameters nothing more is bound. -/
theorem bind_no_keywords (hplain : ∀ p ∈ params, takes_no_keywords p = true) :
    (bind_keywords_and_rest frame params none).run (builtins.machine depth) t = some ((), t) := by
  have hgiven : given_names params [] = [] := by
    rw [given_names]
    exact List.filter_eq_nil_iff.mpr fun kname _ => Bool.false_ne_true
  have hkwrest : kwrest_name params = none := by
    rw [kwrest_name, List.find?_eq_none.mpr fun p hp => by simp [(keyword_of_plain (hplain p hp)).2]]
    rfl
  obtain ⟨-, ⟨-, hrun⟩ | ⟨⟨p, hp, kname, hkeyword, -⟩, -⟩⟩ :=
    @bind_keywords_run _ _ _ _ _ _ _ _ (no_keywords_bound hplain) rfl [] (Nat.zero_le 64)
  · rw [hgiven] at hrun
    refine (run_bind_some hrun).trans ?_
    dsimp only
    rw [bind_kwrest_eq, hkwrest]
    rfl
  · rw [(keyword_of_plain (hplain p hp)).1] at hkeyword
    cases hkeyword

end

/-- Each parameter is bound to what it is bound to in the frame of super: a
splat to an array of what its value expands to, the others to the same value. -/
def SameBindings (env frame : Env) (s t : State) (ps : ParamList) : Prop :=
  (∀ p ∈ ps.lead ++ (ps.opts ++ ps.post), ∀ name, bound_name p = some name →
    t.envs.env_get frame name = s.envs.env_get env name) ∧
  ∀ p ∈ ps.splat, ∀ name, bound_name p = some name →
    ∃ a, t.envs.env_get frame name = some (.array a) ∧ t.ev.elems a = s.expanded (s.forwarded env p)

theorem forwarded_eq {p : Node} {name : String} (hp : Forwardable env s p) (hname : bound_name p = some name) :
    s.envs.env_get env name = some (s.forwarded env p) := by
  obtain ⟨other, hforwarded, hsome⟩ := hp
  cases (bound_name_of_forwarded hforwarded).symm.trans hname
  obtain ⟨val, hval⟩ := Option.isSome_iff_exists.mp hsome
  rw [State.forwarded, hforwarded, Option.bind_some, hval]
  rfl

/-- The source hands out the arguments of the law as the law does. -/
theorem law_slots_eq (env : Env) (s : State) (ps : ParamList) :
    cursor_slots (law_positional env s ps) (post_splat_required ps.params) 0 ps.params =
        ps.slots (law_positional env s ps) ∧
      (ps.slots (law_positional env s ps)).map Prod.fst = ps.params := by
  have hlength : ps.lead.length + ps.opts.length + ps.post.length ≤ (law_positional env s ps).length := by
    simp only [law_positional, List.length_append, List.length_map]
    omega
  have harity : (law_positional env s ps).length ≤ ps.lead.length + ps.opts.length + ps.post.length ∨
      ps.splat.isSome := by
    cases hsplat : ps.splat with
    | none =>
      refine .inl (le_of_eq ?_)
      simp only [law_positional, hsplat, List.length_append, List.length_map, Option.toList_none, List.flatMap_nil,
        List.length_nil]
      omega
    | some p => exact .inr rfl
  exact ⟨ps.cursor_slots_eq_slots (by omega) harity (.inr (.inr hlength)), ps.slots_params (by omega)⟩

/-- No parameter is left to its default. -/
theorem law_slots_value : ∀ slot ∈ ps.slots (law_positional env s ps), slot.2.is_value = true := by
  intro slot hslot
  rw [slots_law_positional] at hslot
  simp only [List.mem_append, List.mem_map] at hslot
  rcases hslot with ⟨p, -, rfl⟩ | ⟨p, -, rfl⟩ | ⟨p, -, rfl⟩ | ⟨p, -, rfl⟩ | ⟨p, -, rfl⟩
  · rfl
  · rfl
  · rfl
  · rfl
  · cases p with
    | param span name default_val splat block_param => cases block_param <;> rfl
    | _ => rfl

theorem law_bind_run {builtins : Builtins} {depth : Nat} (frame : Env)
    (hplain : ∀ p ∈ ps.params, takes_no_keywords p = true ∧ is_param p = true) :
    (bind_params frame ps.params (law_positional env s ps)).run (builtins.machine (depth + 1)) s =
      some ((), slots_state frame s (ps.slots (law_positional env s ps))) := by
  obtain ⟨hslots, hparams⟩ := law_slots_eq env s ps
  have hvalues : ∀ slot ∈ ps.slots (law_positional env s ps), is_param slot.1 = true ∧ slot.2.is_value = true := by
    intro slot hslot
    refine ⟨(hplain slot.1 ?_).2, law_slots_value slot hslot⟩
    rw [← hparams]
    exact List.mem_map_of_mem hslot
  rw [bind_params, no_kwargs fun p hp => (hplain p hp).1]
  dsimp only
  rw [bind_positional_eq, hslots, run_bind_some (bind_slots_run hvalues)]
  exact bind_no_keywords fun p hp => (hplain p hp).1

/-- A method with the same parameter list binds each parameter to the same
value when it is called with the arguments of the law. -/
theorem law_rebinds {builtins : Builtins} {depth : Nat} {frame : Env} (hframe : frame < s.envs.frames.length)
    (hpass : ∀ p ∈ ps.passable, Forwardable env s p) (hothers : ∀ p ∈ ps.others, keyword_or_block p = true)
    (hkeywords : law_keywords env s ps = []) (hnames : (ps.params.filterMap bound_name).Nodup) :
    ∃ t, (bind_params frame ps.params (law_positional env s ps)).run (builtins.machine (depth + 1)) s = some ((), t) ∧
      SameBindings env frame s t ps := by
  have hplain : ∀ p ∈ ps.params, takes_no_keywords p = true ∧ is_param p = true := by
    intro p hp
    rw [ps.params_eq] at hp
    rcases List.mem_append.mp hp with hp | hp
    · obtain ⟨name, hname, -⟩ := hpass p hp
      exact takes_no_keywords_of_forwarded hname
    · exact others_block hothers hkeywords p hp
  have hlabels : (ps.slots (law_positional env s ps)).filterMap (fun slot => bound_name slot.1) =
      ps.params.filterMap bound_name := by
    rw [← (law_slots_eq env s ps).2, List.filterMap_map]
    rfl
  have hholds {p : Node} {slot : Slot} {name : String} (hmem : (p, slot) ∈ ps.slots (law_positional env s ps))
      (hname : bound_name p = some name) :
      SlotHolds frame (slots_state frame s (ps.slots (law_positional env s ps))) name slot :=
    slotHolds_of_mem hframe (by rwa [hlabels]) hmem hname
  refine ⟨_, law_bind_run frame hplain, fun p hp name hname => ?_, fun p hp name hname => ?_⟩
  · have hmem : (p, Slot.arg (s.forwarded env p)) ∈ ps.slots (law_positional env s ps) := by
      rw [slots_law_positional]
      simp only [List.mem_append, List.mem_map, Prod.mk.injEq] at hp ⊢
      rcases hp with hp | hp | hp
      · exact .inl ⟨p, hp, rfl, rfl⟩
      · exact .inr (.inl ⟨p, hp, rfl, rfl⟩)
      · exact .inr (.inr (.inr (.inl ⟨p, hp, rfl, rfl⟩)))
    have hpassed : p ∈ ps.passable := by
      simp only [ParamList.passable, List.mem_append] at hp ⊢
      tauto
    rw [forwarded_eq (hpass p hpassed) hname]
    exact hholds hmem hname
  · have hmem : (p, Slot.rest (s.expanded (s.forwarded env p))) ∈ ps.slots (law_positional env s ps) := by
      rw [slots_law_positional]
      simp only [List.mem_append, List.mem_map, Prod.mk.injEq]
      exact .inr (.inr (.inl ⟨p, by simpa using hp, rfl, rfl⟩))
    exact hholds hmem hname

end rebinding

end stoned
