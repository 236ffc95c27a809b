import Stoned.Env

namespace stoned.EnvHeap

/-! What the operations on frames leave as it is. -/

variable (h : EnvHeap)

/-- The chain of parents stays as it is, and with it every walk. -/
structure SameChain (h h' : EnvHeap) : Prop where
  parent : ∀ env, env < h.frames.length → h'.parent env = h.parent env
  is_def : ∀ env, env < h.frames.length → h'.is_def env = h.is_def env
  length : h.frames.length ≤ h'.frames.length

namespace SameChain

variable {h h' : EnvHeap}

theorem walk (hchain : SameChain h h') {stop stop' : Env → Bool}
    (hstop : ∀ env, env < h.frames.length → stop' env = stop env) (fuel : Nat) {env : Env}
    (henv : env < h.frames.length) : h'.walk stop' fuel env = h.walk stop fuel env := by
  induction fuel generalizing env with
  | zero => rfl
  | succ fuel ih =>
    rw [EnvHeap.walk, EnvHeap.walk, hstop env henv, hchain.parent env henv]
    cases hparent : h.parent env with
    | none => rfl
    | some outer =>
      have houter : outer < h.frames.length := (h.parent_lt_self hparent).trans henv
      simp only [ih houter]

theorem scopes (hchain : SameChain h h') {env : Env} (henv : env < h.frames.length) :
    h'.scopes env = h.scopes env := hchain.walk (fun _ _ => rfl) _ henv

theorem scopes_to_def (hchain : SameChain h h') {env : Env} (henv : env < h.frames.length) :
    h'.scopes_to_def env = h.scopes_to_def env := hchain.walk hchain.is_def _ henv

end SameChain

/-! Walks stay inside the heap and begin where they are started. -/

theorem mem_walk_le (stop : Env → Bool) (fuel : Nat) {env sc : Env} (hsc : sc ∈ h.walk stop fuel env) : sc ≤ env := by
  induction fuel generalizing env with
  | zero => cases hsc
  | succ fuel ih =>
    rw [walk, List.mem_cons] at hsc
    rcases hsc with rfl | hsc
    · exact le_rfl
    · by_cases hstop : stop env
      · rw [if_pos hstop] at hsc
        cases hsc
      · rw [if_neg hstop] at hsc
        cases hparent : h.parent env with
        | none =>
          rw [hparent] at hsc
          cases hsc
        | some outer =>
          rw [hparent] at hsc
          exact (ih hsc).trans (h.parent_lt_self hparent).le

theorem vars_eq_nil {env : Env} (henv : h.frames.length ≤ env) : h.vars env = [] := by
  rw [vars, frame, List.getElem?_eq_none henv]
  rfl

/-! One lemma for each operation. -/

section
variable (env : Env) (f : List (String × Value) → List (String × Value)) (block : Option Value)

theorem set_vars_chain : SameChain h (h.set_vars env f) where
  parent other _ := by
    simp only [parent, frame, set_vars, List.getElem?_modify]
    by_cases henv : env = other <;> cases h.frames[other]? <;> simp [henv]
  is_def other _ := by
    simp only [is_def, frame, set_vars, List.getElem?_modify]
    by_cases henv : env = other <;> cases h.frames[other]? <;> simp [henv]
  length := by simp [set_vars]

theorem set_block_arg_chain : SameChain h (h.set_block_arg env block) where
  parent other _ := by
    simp only [parent, frame, set_block_arg, List.getElem?_modify]
    by_cases henv : env = other <;> cases h.frames[other]? <;> simp [henv]
  is_def other _ := by
    simp only [is_def, frame, set_block_arg, List.getElem?_modify]
    by_cases henv : env = other <;> cases h.frames[other]? <;> simp [henv]
  length := by simp [set_block_arg]

theorem env_new_chain (outer : Option Env) (is_def : Bool) : SameChain h (h.env_new outer is_def).2 where
  parent other hother := by simp [parent, frame, env_new, List.getElem?_append_left hother]
  is_def other hother := by simp [EnvHeap.is_def, frame, env_new, List.getElem?_append_left hother]
  length := by simp [env_new]

theorem set_vars_vars (other : Env) (henv : env < h.frames.length) :
    (h.set_vars env f).vars other = if other = env then f (h.vars env) else h.vars other := by
  simp only [vars, frame, set_vars, List.getElem?_modify]
  by_cases hother : other = env
  · subst hother
    rw [List.getElem?_eq_getElem henv]
    simp
  · rw [if_neg hother]
    cases h.frames[other]? <;> simp [Ne.symm hother]

/-- Writing into a frame that does not exist changes nothing. -/
theorem set_vars_of_le (henv : h.frames.length ≤ env) : (h.set_vars env f).frames = h.frames := by
  exact List.modify_eq_self henv

theorem set_vars_vars_ne {other : Env} (hother : other ≠ env) : (h.set_vars env f).vars other = h.vars other := by
  by_cases henv : env < h.frames.length
  · rw [set_vars_vars h env f other henv, if_neg hother]
  · simp only [vars, frame, set_vars_of_le h env f (Nat.not_lt.mp henv)]

theorem set_block_arg_vars (other : Env) : (h.set_block_arg env block).vars other = h.vars other := by
  simp only [vars, frame, set_block_arg, List.getElem?_modify]
  by_cases henv : env = other <;> cases h.frames[other]? <;> simp [henv]

theorem env_new_vars (outer : Option Env) (is_def : Bool) (other : Env) :
    (h.env_new outer is_def).2.vars other = h.vars other := by
  simp only [vars, frame, env_new]
  by_cases hother : other < h.frames.length
  · rw [List.getElem?_append_left hother]
  · rw [List.getElem?_append_right (Nat.not_lt.mp hother), List.getElem?_eq_none (Nat.not_lt.mp hother)]
    by_cases hfirst : other - h.frames.length = 0 <;> simp [hfirst]

end

/-! Reading what was written. -/

theorem walk_prefix (stop : Env → Bool) (fuel : Nat) (env : Env) :
    h.walk stop fuel env <+: h.walk (fun _ => false) fuel env := by
  induction fuel generalizing env with
  | zero => exact List.prefix_rfl
  | succ fuel ih =>
    rw [walk, walk, List.prefix_cons_inj]
    by_cases hstop : stop env
    · rw [if_pos hstop]
      exact List.nil_prefix
    · rw [if_neg hstop, if_neg Bool.false_ne_true]
      cases h.parent env with
      | none => exact List.prefix_rfl
      | some outer => exact ih outer

theorem scopes_to_def_prefix (env : Env) : h.scopes_to_def env <+: h.scopes env := h.walk_prefix _ _ _

theorem findSome_congr {f g : Env → Option Value} {scopes : List Env} (hsame : ∀ sc ∈ scopes, f sc = g sc) :
    scopes.findSome? f = scopes.findSome? g := by
  induction scopes with
  | nil => rfl
  | cons sc scopes ih =>
    rw [List.findSome?_cons, List.findSome?_cons, hsame sc List.mem_cons_self,
      ih fun other hother => hsame other (List.mem_cons_of_mem _ hother)]

/-- A write behind the frames a name is looked for in is not read. -/
theorem env_get_set_vars {env frame : Env} (hbehind : env < frame) (f : List (String × Value) → List (String × Value))
    (name : String) : (h.set_vars frame f).env_get env name = h.env_get env name := by
  by_cases henv : env < h.frames.length
  · rw [env_get, env_get, (h.set_vars_chain frame f).scopes henv]
    refine findSome_congr ?_
    intro sc hsc
    have hne : sc ≠ frame := ((h.mem_walk_le _ _ hsc).trans_lt hbehind).ne
    rw [h.set_vars_vars_ne _ _ hne]
  · have hframes := h.set_vars_of_le frame f ((Nat.not_lt.mp henv).trans hbehind.le)
    have hsame (h' : EnvHeap) (hframes : h'.frames = h.frames) : h' = h := by
      cases h
      cases h'
      cases hframes
      rfl
    rw [hsame _ hframes]

/-- The frame an update finds is the first one the name is read from. -/
theorem findSome_of_find {name : String} {val : Value} {sc : Env} (hsc : sc < h.frames.length) {scopes : List Env}
    (hfound : scopes.find? (fun sc => (entry name (h.vars sc)).isSome) = some sc) :
    scopes.findSome? (fun other => entry name ((h.set_vars sc (set_entry name val)).vars other)) = some val := by
  induction scopes with
  | nil => cases hfound
  | cons first scopes ih =>
    by_cases hfirst : (entry name (h.vars first)).isSome
    · rw [List.find?_cons_of_pos (by simpa using hfirst)] at hfound
      obtain rfl := Option.some.inj hfound
      rw [List.findSome?_cons, h.set_vars_vars _ _ _ hsc, if_pos rfl, entry_set_entry, if_pos rfl]
    · rw [List.find?_cons_of_neg (by simpa using hfirst)] at hfound
      have hne : first ≠ sc := by
        rintro rfl
        have hsome := List.find?_some hfound
        exact hfirst hsome
      rw [List.findSome?_cons, h.set_vars_vars_ne _ _ hne, Option.not_isSome_iff_eq_none.mp hfirst]
      exact ih hfound

/-- An update is read back. -/
theorem env_get_of_update {h h' : EnvHeap} {env : Env} {name : String} {val : Value} (henv : env < h.frames.length)
    (hupdate : h.env_update env name val = some h') : h'.env_get env name = some val := by
  obtain ⟨sc, hfound, rfl⟩ := Option.map_eq_some_iff.mp hupdate
  have hsc : sc < h.frames.length := (h.mem_walk_le _ _ (List.mem_of_find?_eq_some hfound)).trans_lt henv
  obtain ⟨rest, hrest⟩ := h.scopes_to_def_prefix env
  rw [env_get, (h.set_vars_chain sc _).scopes henv, ← hrest, List.findSome?_append,
    h.findSome_of_find hsc hfound]
  rfl

/-- A binding that was set is read back. -/
theorem env_get_env_set {env : Env} (henv : env < h.frames.length) (name : String) (val : Value) :
    (h.env_set env name val).env_get env name = some val := by
  rw [env_set]
  cases hupdate : h.env_update env name val with
  | some h' => exact env_get_of_update henv hupdate
  | none =>
    rw [Option.getD_none, env_get, scopes_eq, List.findSome?_cons, h.set_vars_vars _ _ _ henv, if_pos rfl,
      entry_cons, if_pos rfl]

/-- In a frame that does not exist nothing is set. -/
theorem env_set_of_le {env : Env} (henv : h.frames.length ≤ env) (name : String) (val : Value) :
    (h.env_set env name val).frames = h.frames := by
  have hframe : h.frame env = none := List.getElem?_eq_none henv
  have hscopes : h.scopes_to_def env = [env] := by
    rw [scopes_to_def_eq, is_def, parent, hframe]
    rfl
  have hupdate : h.env_update env name val = none := by
    rw [env_update, hscopes]
    simp [vars, hframe]
  rw [env_set, hupdate]
  exact h.set_vars_of_le env _ henv

end stoned.EnvHeap
