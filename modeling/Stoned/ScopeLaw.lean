import Stoned.Evaluator
import Stoned.Frames

namespace stoned

open program

/-! The scope that rescue bodies and the bodies of `in` clauses run in. -/

/-- The scope of a frame binds a name: what is assigned to it there is assigned
in one of its frames, up to the method's own. -/
def Binds (h : EnvHeap) (env : Env) (name : String) : Prop :=
  ∃ sc ∈ h.scopes_to_def env, (entry name (h.vars sc)).isSome

/-- A frame `inner` lies directly inside the frame `env` and leaves `name` to
it: what is assigned to the name in the one is assigned in the other. -/
structure Transparent (env inner : Env) (name : String) (h : EnvHeap) : Prop where
  is_frame : inner < h.frames.length
  parent : h.parent inner = some env
  soft : h.is_def inner = false
  not_own : entry name (h.vars inner) = none
  bound : Binds h env name

/-- The steps that leave a name to the surrounding frame: they do not define it
in the inner frame itself, nor remove it from the scope around it. -/
def LeavesName (env inner : Env) (name : String) : Op → State → Prop
  | .env_define frame defined _, _ => ¬(frame = inner ∧ defined = name)
  | .env_remove_own frame removed, s => removed = name → frame ∉ s.envs.scopes_to_def env
  | _, _ => True

theorem entry_eraseP {name removed : String} (hname : name ≠ removed) (vars : List (String × Value)) :
    entry name (vars.eraseP fun var => var.1 = removed) = entry name vars := by
  induction vars with
  | nil => rfl
  | cons var vars ih =>
    obtain ⟨key, val⟩ := var
    by_cases hkey : key = removed
    · rw [List.eraseP_cons_of_pos (by simpa using hkey), entry_cons, if_neg (by rw [hkey]; exact hname.symm)]
    · rw [List.eraseP_cons_of_neg (by simpa using hkey), entry_cons, entry_cons, ih]

theorem entry_eraseP_none {name : String} (removed : String) {vars : List (String × Value)}
    (hnone : entry name vars = none) : entry name (vars.eraseP fun var => var.1 = removed) = none := by
  induction vars with
  | nil => rfl
  | cons var vars ih =>
    obtain ⟨key, val⟩ := var
    rw [entry_cons] at hnone
    by_cases hname : key = name
    · rw [if_pos hname] at hnone
      cases hnone
    · rw [if_neg hname] at hnone
      by_cases hkey : key = removed
      · rw [List.eraseP_cons_of_pos (by simpa using hkey)]
        exact hnone
      · rw [List.eraseP_cons_of_neg (by simpa using hkey), entry_cons, if_neg hname]
        exact ih hnone

namespace Transparent

variable {env inner : Env} {name : String} {h h' : EnvHeap}

theorem env_lt (ht : Transparent env inner name h) : env < h.frames.length :=
  (h.parent_lt_self ht.parent).trans ht.is_frame

/-- Changes that neither bind the name in the inner frame nor unbind it around it. -/
theorem of_chain (ht : Transparent env inner name h) (hchain : h.SameChain h')
    (hown : entry name (h'.vars inner) = none)
    (hbound : ∀ sc ∈ h.scopes_to_def env, (entry name (h.vars sc)).isSome → (entry name (h'.vars sc)).isSome) :
    Transparent env inner name h' where
  is_frame := ht.is_frame.trans_le hchain.length
  parent := (hchain.parent inner ht.is_frame).trans ht.parent
  soft := (hchain.is_def inner ht.is_frame).trans ht.soft
  not_own := hown
  bound := by
    obtain ⟨sc, hsc, hsome⟩ := ht.bound
    refine ⟨sc, ?_, hbound sc hsc hsome⟩
    rw [hchain.scopes_to_def ht.env_lt]
    exact hsc

/-- A frame's bindings change, in a way that keeps to the rules. -/
theorem set_vars (ht : Transparent env inner name h) (frame : Env)
    (f : List (String × Value) → List (String × Value))
    (hinner : frame = inner → entry name (f (h.vars inner)) = none)
    (hscope : frame ∈ h.scopes_to_def env → (entry name (h.vars frame)).isSome →
      (entry name (f (h.vars frame))).isSome) :
    Transparent env inner name (h.set_vars frame f) := by
  refine ht.of_chain (h.set_vars_chain frame f) ?_ ?_
  · by_cases hframe : frame = inner
    · rw [hframe, h.set_vars_vars _ _ _ ht.is_frame, if_pos rfl]
      exact hinner hframe
    · rw [h.set_vars_vars_ne _ _ (Ne.symm hframe)]
      exact ht.not_own
  · intro sc hsc hsome
    by_cases hframe : sc = frame
    · have hlt : sc < h.frames.length := (h.mem_walk_le _ _ hsc).trans_lt ht.env_lt
      rw [← hframe, h.set_vars_vars _ _ _ hlt, if_pos rfl, hframe]
      rw [hframe] at hsc hsome
      exact hscope hsc hsome
    · rw [h.set_vars_vars_ne _ _ hframe]
      exact hsome

theorem set_entry (ht : Transparent env inner name h) {frame : Env} {key : String} (val : Value)
    (hkey : ¬(frame = inner ∧ key = name)) : Transparent env inner name (h.set_vars frame (set_entry key val)) := by
  refine ht.set_vars frame _ ?_ ?_
  · intro hframe
    rw [entry_set_entry, if_neg fun hname => hkey ⟨hframe, hname.symm⟩]
    exact ht.not_own
  · intro _ hsome
    rw [entry_set_entry]
    split
    · rfl
    · exact hsome

/-- The walk from the inner frame goes on around it. -/
theorem scopes_to_def_inner (ht : Transparent env inner name h) :
    h.scopes_to_def inner = inner :: h.scopes_to_def env := by
  rw [h.scopes_to_def_eq, ht.soft, ht.parent]
  rfl

theorem found_of_bound (ht : Transparent env inner name h) :
    ∃ sc ∈ h.scopes_to_def env, (h.scopes_to_def inner).find? (fun sc => (entry name (h.vars sc)).isSome) = some sc := by
  obtain ⟨sc, hsc, hsome⟩ := ht.bound
  have hfind : ((h.scopes_to_def env).find? fun sc => (entry name (h.vars sc)).isSome).isSome := by
    rw [List.find?_isSome]
    exact ⟨sc, hsc, hsome⟩
  obtain ⟨found, hfound⟩ := Option.isSome_iff_exists.mp hfind
  refine ⟨found, List.mem_of_find?_eq_some hfound, ?_⟩
  rw [ht.scopes_to_def_inner, List.find?_cons_of_neg (by simp [ht.not_own])]
  exact hfound

theorem env_update (ht : Transparent env inner name h) {frame : Env} {key : String} {val : Value}
    (hupdate : h.env_update frame key val = some h') : Transparent env inner name h' := by
  obtain ⟨sc, hfound, rfl⟩ := Option.map_eq_some_iff.mp hupdate
  refine ht.set_entry val ?_
  rintro ⟨rfl, rfl⟩
  have hsome := List.find?_some hfound
  simp [ht.not_own] at hsome

theorem env_set (ht : Transparent env inner name h) (frame : Env) (key : String) (val : Value) :
    Transparent env inner name (h.env_set frame key val) := by
  cases hupdate : h.env_update frame key val with
  | some h' =>
    rw [EnvHeap.env_set, hupdate]
    exact ht.env_update hupdate
  | none =>
    rw [EnvHeap.env_set, hupdate]
    have hcreates : ¬(frame = inner ∧ key = name) := by
      rintro ⟨rfl, rfl⟩
      obtain ⟨sc, -, hfound⟩ := ht.found_of_bound
      rw [EnvHeap.env_update, hfound] at hupdate
      cases hupdate
    refine ht.set_vars frame _ ?_ ?_
    · intro hframe
      rw [entry_cons, if_neg fun hname => hcreates ⟨hframe, hname⟩]
      exact ht.not_own
    · intro _ hsome
      rw [entry_cons]
      split
      · rfl
      · exact hsome

theorem env_remove_own (ht : Transparent env inner name h) {frame : Env} {removed : String}
    (hscope : removed = name → frame ∉ h.scopes_to_def env) :
    Transparent env inner name (h.env_remove_own frame removed).2 := by
  refine ht.set_vars frame _ ?_ ?_
  · intro _
    exact entry_eraseP_none removed ht.not_own
  · intro hframe hsome
    have hname : name ≠ removed := fun hname => hscope hname.symm hframe
    rw [entry_eraseP hname]
    exact hsome

/-- What every step preserves that leaves the name to the surrounding frame. -/
theorem step {s : State} (ht : Transparent env inner name s.envs) (op : Op) (hop : LeavesName env inner name op s) :
    Transparent env inner name (op.exec s).2.envs := by
  cases op with
  | env_new outer is_def =>
    refine ht.of_chain (s.envs.env_new_chain outer is_def) ?_ ?_
    · exact (congrArg (entry name) (s.envs.env_new_vars outer is_def inner)).trans ht.not_own
    · intro sc _ hsome
      exact (congrArg (fun vars => (entry name vars).isSome) (s.envs.env_new_vars outer is_def sc)).trans hsome
  | set_block_arg frame block =>
    refine ht.of_chain (s.envs.set_block_arg_chain frame block) ?_ ?_
    · exact (congrArg (entry name) (s.envs.set_block_arg_vars frame block inner)).trans ht.not_own
    · intro sc _ hsome
      exact (congrArg (fun vars => (entry name vars).isSome) (s.envs.set_block_arg_vars frame block sc)).trans hsome
  | env_update frame key val =>
    cases hupdate : s.envs.env_update frame key val with
    | none =>
      simp only [Op.exec, hupdate, Option.getD_none]
      exact ht
    | some h' =>
      simp only [Op.exec, hupdate, Option.getD_some]
      exact ht.env_update hupdate
  | env_set frame key val => exact ht.env_set frame key val
  | env_define frame key val => exact ht.set_entry val hop
  | env_remove_own frame removed => exact ht.env_remove_own hop
  | _ => exact ht

/-- What is read through the inner frame is read through the surrounding one. -/
theorem reads (ht : Transparent env inner name h) : h.env_get inner name = h.env_get env name := by
  rw [EnvHeap.env_get, h.scopes_eq, ht.parent, List.findSome?_cons, ht.not_own]
  rfl

theorem update_inner (ht : Transparent env inner name h) (val : Value) :
    ∃ h', h.env_update env name val = some h' ∧ h.env_update inner name val = some h' := by
  have hinner : h.env_update inner name val = h.env_update env name val := by
    rw [EnvHeap.env_update, EnvHeap.env_update, ht.scopes_to_def_inner, List.find?_cons_of_neg (by simp [ht.not_own])]
  obtain ⟨sc, -, hfound⟩ := ht.found_of_bound
  have hsome : h.env_update inner name val = some (h.set_vars sc (stoned.set_entry name val)) := by
    rw [EnvHeap.env_update, hfound]
    rfl
  exact ⟨_, hinner ▸ hsome, hsome⟩

end Transparent

theorem assign_lvar_run (answers : Oracle evaluator_calls State) (env : Env) (name : String) (val : Value) (s : State) :
    (assign_lvar env name val).run (answering answers) s =
      some ((), { s with envs := s.envs.env_set env name val }) := by
  cases hupdate : s.envs.env_update env name val with
  | some h' =>
    have hop : (env_update env name val).run (answering answers) s = some (true, { s with envs := h' }) := by
      change some (Op.exec (.env_update env name val) s) = _
      simp [Op.exec, hupdate]
      rfl
    rw [assign_lvar, run_bind_some hop, EnvHeap.env_set, hupdate]
    rfl
  | none =>
    have hop : (env_update env name val).run (answering answers) s = some (false, s) := by
      change some (Op.exec (.env_update env name val) s) = _
      simp [Op.exec, hupdate]
      rfl
    rw [assign_lvar, run_bind_some hop]
    rfl

/-- An assignment in a frame directly inside another is read through that one
exactly when the inner frame does not bind the name and the scope around it does. -/
theorem assigned_is_read_iff {h : EnvHeap} {env inner : Env} (name : String) (hframe : inner < h.frames.length)
    (hparent : h.parent inner = some env) (hsoft : h.is_def inner = false) :
    (∀ val, (h.env_set inner name val).env_get env name = some val) ↔ Transparent env inner name h := by
  have henv : env < h.frames.length := (h.parent_lt_self hparent).trans hframe
  have hinner : h.scopes_to_def inner = inner :: h.scopes_to_def env := by
    rw [h.scopes_to_def_eq, hsoft, hparent]
    rfl
  constructor
  · intro hreads
    by_contra hnot
    have hkept : ∀ val, (h.env_set inner name val).env_get env name = h.env_get env name := by
      intro val
      by_cases hown : entry name (h.vars inner) = none
      · have hnone : h.env_update inner name val = none := by
          rw [EnvHeap.env_update, hinner, Option.map_eq_none_iff, List.find?_cons_of_neg (by simp [hown]),
            List.find?_eq_none]
          exact fun sc hsc hsome => hnot ⟨hframe, hparent, hsoft, hown, sc, hsc, hsome⟩
        rw [EnvHeap.env_set, hnone]
        exact h.env_get_set_vars (h.parent_lt_self hparent) _ name
      · have hsome : (entry name (h.vars inner)).isSome := Option.isSome_iff_ne_none.mpr hown
        have hupdate : h.env_update inner name val = some (h.set_vars inner (set_entry name val)) := by
          rw [EnvHeap.env_update, hinner, List.find?_cons_of_pos (by simpa using hsome)]
          rfl
        rw [EnvHeap.env_set, hupdate]
        exact h.env_get_set_vars (h.parent_lt_self hparent) _ name
    have htrue := (hkept (.bool true)).symm.trans (hreads (.bool true))
    have hfalse := (hkept (.bool false)).symm.trans (hreads (.bool false))
    rw [htrue] at hfalse
    cases hfalse
  · intro ht val
    obtain ⟨h', henvUpdate, hinnerUpdate⟩ := ht.update_inner val
    rw [EnvHeap.env_set, hinnerUpdate]
    exact EnvHeap.env_get_of_update henv henvUpdate

/-- A new frame inside a scope that binds the name leaves it to that scope. -/
theorem transparent_new {h : EnvHeap} {env : Env} {name : String}
    (hbound : Binds h env name) :
    Transparent env h.frames.length name (h.env_new (some env) false).2 := by
  obtain ⟨sc, hsc, hsome⟩ := hbound
  have henv : env < h.frames.length := by
    by_contra hout
    have hparent : h.parent env = none := by
      rw [EnvHeap.parent, EnvHeap.frame, List.getElem?_eq_none (Nat.not_lt.mp hout)]
      rfl
    rw [h.scopes_to_def_eq, hparent] at hsc
    have hself : sc = env := by simpa using hsc
    rw [hself, h.vars_eq_nil (Nat.not_lt.mp hout)] at hsome
    cases hsome
  have hchain := h.env_new_chain (some env) false
  constructor
  · simp [EnvHeap.env_new]
  · simp [EnvHeap.parent, EnvHeap.frame, EnvHeap.env_new, henv]
  · simp [EnvHeap.is_def, EnvHeap.frame, EnvHeap.env_new]
  · rw [h.env_new_vars, h.vars_eq_nil le_rfl]
    rfl
  · refine ⟨sc, ?_, ?_⟩
    · rw [hchain.scopes_to_def henv]
      exact hsc
    · rw [h.env_new_vars]
      exact hsome

/-- The frame a rescue body runs in. -/
def rescue_frame (env : Env) (exception_var : Option String) (s : State) : Env :=
  if exception_var.isSome then s.envs.frames.length else env

section
variable {builtins : Builtins} {depth : Nat} {env inner : Env} {name : String} {s t : State} {out : Value}

/-- A run that leaves the name to the surrounding scope. -/
abbrev Leaves (builtins : Builtins) (depth : Nat) (env inner : Env) (name : String) (p : P Value) (s : State) : Prop :=
  p.Along (builtins.machine depth) ((evaluator builtins).Admits state_machine (LeavesName env inner name) depth) s

theorem Transparent.run {p : P Value} (ht : Transparent env inner name s.envs)
    (hsteps : Leaves builtins depth env inner name p s) (hrun : p.run (builtins.machine depth) s = some (out, t)) :
    Transparent env inner name t.envs := by
  refine Program.preserves (I := fun s => Transparent env inner name s.envs) ?_ hsteps hrun ht
  refine Procedures.preserves ?_ depth
  intro op u answer v hop hexec hu
  have hv : (op.exec u).2 = v := congrArg Prod.snd (Option.some.inj hexec)
  rw [← hv]
  exact hu.step op hop

theorem rescue_reads {exception_var : String} {body : Option Node}
    (hbound : Binds s.envs env name)
    (hsteps : Leaves builtins depth env s.envs.frames.length name (run_rescue env (some exception_var) body) s)
    (hrun : (run_rescue env (some exception_var) body).run (builtins.machine depth) s = some (out, t)) :
    t.envs.env_get s.envs.frames.length name = t.envs.env_get env name := by
  obtain ⟨rest, u, hcomes, hu⟩ : ∃ rest u, (run_rescue env (some exception_var) body).ComesTo (builtins.machine depth) s
      rest u ∧ u.envs = (s.envs.env_new (some env) false).2 :=
    ⟨_, _, .step rfl (.step rfl (.step rfl (.step rfl (.step rfl (.step rfl (.step rfl (.step rfl (.step rfl
      (.now _ _))))))))), rfl⟩
  have htransparent : Transparent env s.envs.frames.length name u.envs := hu ▸ transparent_new hbound
  exact (htransparent.run (hcomes.along hsteps) (hcomes.run ▸ hrun)).reads

end

/-- A rescue body without a variable runs in the surrounding frame. One with a
variable, and the body of an `in` clause, run in a frame of their own; after
any run that leaves a name to the surrounding scope the name reads the same
there as in the body. An assignment in such a frame is read outside exactly
when the frame leaves the name to a scope that binds it. -/
theorem bodies_run_in_scope (builtins : Builtins) (depth : Nat) (env : Env) (name : String) (s t : State)
    (out : Value) :
    (∀ exception_var body, (run_rescue env exception_var body).run (builtins.machine depth) s = some (out, t) →
      (exception_var = none ∨ Binds s.envs env name ∧
        Leaves builtins depth env s.envs.frames.length name (run_rescue env exception_var body) s) →
      t.envs.env_get (rescue_frame env exception_var s) name = t.envs.env_get env name) ∧
    (∀ inner body, (run_in env inner body).run (builtins.machine depth) s = some (out, t) →
      Transparent env inner name s.envs → Leaves builtins depth env inner name (run_in env inner body) s →
      t.envs.env_get inner name = t.envs.env_get env name) ∧
    (∀ inner, inner < s.envs.frames.length → s.envs.parent inner = some env → s.envs.is_def inner = false →
      ((∀ val, ∃ u, (assign_lvar inner name val).run (builtins.machine depth) s = some ((), u) ∧
        u.envs.env_get env name = some val) ↔ Transparent env inner name s.envs)) := by
  refine ⟨?_, ?_, ?_⟩
  · intro exception_var body hrun hcondition
    cases exception_var with
    | none => rfl
    | some exception_var =>
      obtain hnone | ⟨hbound, hsteps⟩ := hcondition
      · cases hnone
      · exact rescue_reads hbound hsteps hrun
  · intro inner body hrun htransparent hsteps
    exact (htransparent.run hsteps hrun).reads
  · intro inner hframe hparent hsoft
    rw [← assigned_is_read_iff name hframe hparent hsoft]
    refine forall_congr' fun val => ?_
    rw [assign_lvar_run]
    simp

/-- `case 1; in y; y = 2; end` -/
def assigning_in : Node :=
  .patcase no_span (.int no_span 1) [.in_ no_span (some (.pattern_capture no_span none (some "y"))) none
    (some (.assign no_span (.lvar no_span "y") (.int no_span 2)))] none

def held_int : Value → Option Int64
  | .int i => some i
  | _ => none

/-- The y assigned in its body is the captured one again after it. -/
theorem assignment_to_capture_is_lost :
    ¬ ∃ t, (eval_body 0 [assigning_in, .lvar no_span "y"]).run (no_builtins.machine 8) bare_state =
      some (.int 2, t) := by
  rintro ⟨t, hrun⟩
  have hread : _ = some (some (2 : Int64)) := congrArg (Option.map fun out => held_int out.1) hrun
  revert hread
  decide

end stoned
