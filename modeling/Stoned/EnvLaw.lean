import Stoned.Frames

namespace stoned

/-! Environments (env.c): a frame binds no name twice, what is set is read, and
an assignment does not reach the frames above the nearest definition. -/

theorem overwrite_keys (name : String) (val : Value) (entries : List (String × Value)) :
    (set_entry.overwrite name val entries).map Prod.fst = entries.map Prod.fst := by
  induction entries with
  | nil => rfl
  | cons head rest ih =>
    obtain ⟨key, old⟩ := head
    rw [set_entry.overwrite]
    split
    · rfl
    · rw [List.map_cons, List.map_cons, ih]

theorem entry_isSome_of_mem {name : String} {entries : List (String × Value)} (hname : name ∈ entries.map Prod.fst) :
    (entry name entries).isSome := by
  induction entries with
  | nil => cases hname
  | cons head rest ih =>
    rw [entry]
    split
    · rfl
    · next hkey =>
      rw [List.map_cons, List.mem_cons] at hname
      exact ih (hname.resolve_left (Ne.symm hkey))

theorem entry_mem_keys {name : String} {entries : List (String × Value)} (hname : entry name entries ≠ none) :
    name ∈ entries.map Prod.fst := by
  induction entries with
  | nil => exact absurd rfl hname
  | cons head rest ih =>
    rw [entry] at hname
    rw [List.map_cons, List.mem_cons]
    split at hname
    · next hkey => exact .inl hkey.symm
    · exact .inr (ih hname)

theorem cons_entry_nodup {name : String} {val : Value} {entries : List (String × Value)}
    (hnone : (entry name entries).isSome = false) (hentries : (entries.map Prod.fst).Nodup) :
    (((name, val) :: entries).map Prod.fst).Nodup := by
  rw [List.map_cons, List.nodup_cons]
  refine ⟨fun hname => ?_, hentries⟩
  rw [entry_isSome_of_mem hname] at hnone
  cases hnone

theorem set_entry_nodup (name : String) (val : Value) {entries : List (String × Value)}
    (hentries : (entries.map Prod.fst).Nodup) : ((set_entry name val entries).map Prod.fst).Nodup := by
  rw [set_entry]
  split
  · rw [overwrite_keys]
    exact hentries
  · next hnone => exact cons_entry_nodup (Bool.eq_false_iff.mpr hnone) hentries

/-- A frame binds no name twice. -/
def EnvHeap.Distinct (h : EnvHeap) (env : Env) : Prop := ((h.vars env).map Prod.fst).Nodup

namespace EnvHeap.Distinct
variable {h : EnvHeap} {env frame : Env} {name : String} {val : Value}

theorem set_vars {f : List (String × Value) → List (String × Value)} (hd : h.Distinct env)
    (hf : env = frame → ((f (h.vars frame)).map Prod.fst).Nodup) : (h.set_vars frame f).Distinct env := by
  rw [Distinct]
  by_cases hframe : frame < h.frames.length
  · rw [h.set_vars_vars frame f env hframe]
    split
    · next heq => exact hf heq
    · exact hd
  · rw [EnvHeap.vars, EnvHeap.frame, h.set_vars_of_le frame f (Nat.not_lt.mp hframe)]
    exact hd

theorem set_entry (hd : h.Distinct env) : (h.set_vars frame (stoned.set_entry name val)).Distinct env := by
  refine hd.set_vars fun heq => ?_
  subst heq
  exact set_entry_nodup name val hd

theorem env_update {h' : EnvHeap} (hd : h.Distinct env) (hupdate : h.env_update frame name val = some h') :
    h'.Distinct env := by
  obtain ⟨sc, -, rfl⟩ := Option.map_eq_some_iff.mp hupdate
  exact hd.set_entry

theorem env_set (hd : h.Distinct env) : (h.env_set frame name val).Distinct env := by
  rw [EnvHeap.env_set]
  cases hupdate : h.env_update frame name val with
  | some h' => exact hd.env_update hupdate
  | none =>
    refine hd.set_vars fun heq => ?_
    subst heq
    have hnone := List.find?_eq_none.mp (Option.map_eq_none_iff.mp hupdate) env
      (by rw [h.scopes_to_def_eq]; exact List.mem_cons_self)
    exact cons_entry_nodup (Bool.eq_false_iff.mpr hnone) hd

theorem env_remove_own (hd : h.Distinct env) : (h.env_remove_own frame name).2.Distinct env := by
  refine hd.set_vars fun heq => ?_
  subst heq
  exact List.Nodup.sublist (List.eraseP_sublist.map Prod.fst) hd

end EnvHeap.Distinct

namespace EnvHeap
variable {h : EnvHeap} {env frame : Env} {name other : String}

theorem env_get_of_le (henv : h.frames.length ≤ env) : h.env_get env name = none := by
  have hframe : h.frame env = none := List.getElem?_eq_none henv
  rw [env_get, scopes_eq, parent, hframe, List.findSome?_cons, h.vars_eq_nil henv]
  rfl

/-- A change that leaves a name's entry is not read. -/
theorem env_get_set_vars_of {f : List (String × Value) → List (String × Value)}
    (hf : ∀ vars, entry other (f vars) = entry other vars) : (h.set_vars frame f).env_get env other = h.env_get env other := by
  by_cases henv : env < h.frames.length
  · rw [env_get, env_get, (h.set_vars_chain frame f).scopes henv]
    refine findSome_congr fun sc hsc => ?_
    by_cases hframe : sc = frame
    · have hsc' : sc < h.frames.length := (h.mem_walk_le _ _ hsc).trans_lt henv
      rw [← hframe, h.set_vars_vars _ _ _ hsc', if_pos rfl, hf]
    · rw [h.set_vars_vars_ne _ _ hframe]
  · have hlength : (h.set_vars frame f).frames.length = h.frames.length := by simp [set_vars]
    rw [env_get_of_le (Nat.not_lt.mp henv), env_get_of_le (hlength ▸ Nat.not_lt.mp henv)]

theorem env_get_env_set_ne (hne : other ≠ name) (val : Value) :
    (h.env_set frame name val).env_get env other = h.env_get env other := by
  rw [env_set]
  cases hupdate : h.env_update frame name val with
  | some h' =>
    obtain ⟨sc, -, rfl⟩ := Option.map_eq_some_iff.mp hupdate
    exact env_get_set_vars_of fun vars => by rw [entry_set_entry, if_neg hne]
  | none => exact env_get_set_vars_of fun vars => by rw [entry_cons, if_neg hne.symm]

theorem env_set_length (val : Value) : (h.env_set frame name val).frames.length = h.frames.length := by
  rw [env_set]
  cases hupdate : h.env_update frame name val with
  | some h' =>
    obtain ⟨sc, -, rfl⟩ := Option.map_eq_some_iff.mp hupdate
    simp [set_vars]
  | none => simp [set_vars]

theorem env_get_env_define (henv : env < h.frames.length) (val : Value) :
    (h.env_define env name val).env_get env name = some val := by
  rw [env_get, scopes_eq, List.findSome?_cons, env_define, h.set_vars_vars _ _ _ henv, if_pos rfl, entry_set_entry,
    if_pos rfl]

theorem env_get_env_define_ne (hne : other ≠ name) (val : Value) :
    (h.env_define frame name val).env_get env other = h.env_get env other :=
  env_get_set_vars_of fun vars => by rw [entry_set_entry, if_neg hne]

theorem set_vars_frame_ne {sc : Env} (hne : sc ≠ frame) (f : List (String × Value) → List (String × Value)) :
    (h.set_vars frame f).frame sc = h.frame sc :=
  List.getElem?_modify_ne _ _ hne.symm

/-- Without its only binding a name is not bound. -/
theorem entry_eraseP_self {entries : List (String × Value)} (hentries : (entries.map Prod.fst).Nodup) :
    entry name (entries.eraseP fun var => var.1 = name) = none := by
  induction entries with
  | nil => rfl
  | cons var rest ih =>
    obtain ⟨key, val⟩ := var
    rw [List.map_cons, List.nodup_cons] at hentries
    by_cases hkey : key = name
    · rw [List.eraseP_cons_of_pos (by simpa using hkey)]
      by_contra hbound
      exact hentries.1 (hkey ▸ entry_mem_keys hbound)
    · rw [List.eraseP_cons_of_neg (by simpa using hkey), entry_cons, if_neg hkey]
      exact ih hentries.2

theorem env_get_own_env_remove_own (hd : h.Distinct env) :
    (h.env_remove_own env name).2.env_get_own env name = none := by
  rw [env_get_own, env_remove_own]
  by_cases henv : env < h.frames.length
  · rw [h.set_vars_vars _ _ _ henv, if_pos rfl]
    exact entry_eraseP_self hd
  · have hlength : (h.set_vars env fun vars => vars.eraseP fun var => var.1 = name).frames.length = h.frames.length := by
      simp [set_vars]
    rw [vars_eq_nil _ (hlength ▸ Nat.not_lt.mp henv)]
    rfl

/-- An assignment looks at no frame above the nearest definition. -/
theorem nearest_def_le {d : Env} (hdef : h.env_nearest_def env = some d) {sc : Env} (hsc : sc ∈ h.scopes_to_def env) :
    d ≤ sc := by
  induction env using Nat.strong_induction_on generalizing sc with
  | _ env ih =>
    rw [env_nearest_def, scopes_eq] at hdef
    rw [scopes_to_def_eq] at hsc
    by_cases hdefines : h.is_def env = true
    · rw [List.find?_cons_of_pos hdefines] at hdef
      rw [if_pos hdefines, List.mem_singleton] at hsc
      rw [hsc, Option.some.inj hdef]
    · rw [List.find?_cons_of_neg hdefines] at hdef
      rw [if_neg hdefines] at hsc
      cases hparent : h.parent env with
      | none =>
        rw [hparent] at hdef
        cases hdef
      | some outer =>
        rw [hparent] at hdef hsc
        have houter := h.parent_lt_self hparent
        have hd : d ≤ outer := h.mem_walk_le _ _ (List.mem_of_find?_eq_some hdef)
        rcases List.mem_cons.mp hsc with rfl | hsc
        · exact hd.trans houter.le
        · exact ih outer houter hdef hsc

/-- The frames above the nearest definition of a frame. -/
def Above (h : EnvHeap) (env sc : Env) : Prop := ∃ d, h.env_nearest_def env = some d ∧ sc ∈ h.scopes d ∧ sc ≠ d

theorem Above.not_mem {sc : Env} (habove : h.Above env sc) : sc ∉ h.scopes_to_def env := by
  obtain ⟨d, hdef, hscopes, hne⟩ := habove
  intro hsc
  exact hne (Nat.le_antisymm (h.mem_walk_le _ _ hscopes) (nearest_def_le hdef hsc))

theorem env_update_above {h' : EnvHeap} {sc : Env} {val : Value} (habove : h.Above env sc)
    (hupdate : h.env_update env name val = some h') : h'.frame sc = h.frame sc := by
  obtain ⟨found, hfound, rfl⟩ := Option.map_eq_some_iff.mp hupdate
  refine set_vars_frame_ne ?_ _
  rintro rfl
  exact habove.not_mem (List.mem_of_find?_eq_some hfound)

theorem env_set_above {sc : Env} (habove : h.Above env sc) (val : Value) :
    (h.env_set env name val).frame sc = h.frame sc := by
  rw [env_set]
  cases hupdate : h.env_update env name val with
  | some h' => exact env_update_above habove hupdate
  | none =>
    refine set_vars_frame_ne ?_ _
    rintro rfl
    refine habove.not_mem ?_
    rw [scopes_to_def_eq]
    exact List.mem_cons_self

end EnvHeap

/-- The operations on environments. -/
inductive EnvOp where
  | env_new (parent : Option Env) (is_def : Bool)
  | env_define (env : Env) (name : String) (val : Value)
  | env_set (env : Env) (name : String) (val : Value)
  | env_update (env : Env) (name : String) (val : Value)
  | env_remove_own (env : Env) (name : String)

def EnvOp.exec (h : EnvHeap) : EnvOp → EnvHeap
  | env_new parent is_def => (h.env_new parent is_def).2
  | env_define env name val => h.env_define env name val
  | env_set env name val => h.env_set env name val
  | env_update env name val => (h.env_update env name val).getD h
  | env_remove_own env name => (h.env_remove_own env name).2

/-- The environments that operations make, from none on. -/
inductive EnvRun : EnvHeap → Prop where
  | start : EnvRun .empty
  | step {h : EnvHeap} (hrun : EnvRun h) (env_op : EnvOp) : EnvRun (env_op.exec h)

theorem EnvOp.exec_distinct {h : EnvHeap} {env : Env} (hd : h.Distinct env) (env_op : EnvOp) :
    (env_op.exec h).Distinct env := by
  cases env_op with
  | env_new parent is_def =>
    rw [EnvHeap.Distinct, EnvOp.exec, EnvHeap.env_new_vars]
    exact hd
  | env_define => exact hd.set_entry
  | env_set => exact hd.env_set
  | env_update frame name val =>
    rw [EnvOp.exec]
    cases hupdate : h.env_update frame name val with
    | none => exact hd
    | some h' => exact hd.env_update hupdate
  | env_remove_own => exact hd.env_remove_own

theorem EnvRun.distinct {h : EnvHeap} (hrun : EnvRun h) (env : Env) : h.Distinct env := by
  induction hrun with
  | start => exact List.nodup_nil
  | step _ env_op ih => exact env_op.exec_distinct ih

/-- What holds of environments. -/
structure EnvLaws (h : EnvHeap) : Prop where
  unique : ∀ env, ((h.vars env).map Prod.fst).Nodup
  removed : ∀ env name, (h.env_remove_own env name).2.env_get_own env name = none
  read : ∀ env name val, (h.frame env).isSome → (h.env_set env name val).env_get env name = some val
  others : ∀ env name val sc other, other ≠ name → (h.env_set env name val).env_get sc other = h.env_get sc other
  set_above : ∀ env name val sc, h.Above env sc → (h.env_set env name val).frame sc = h.frame sc
  update_above : ∀ env name val h' sc, h.Above env sc → h.env_update env name val = some h' → h'.frame sc = h.frame sc

/-- They hold of all environments that the operations make. -/
theorem env_laws (h : EnvHeap) (hrun : EnvRun h) : EnvLaws h where
  unique := hrun.distinct
  removed env _ := EnvHeap.env_get_own_env_remove_own (hrun.distinct env)
  read env name val henv := by
    obtain ⟨frame, hframe⟩ := Option.isSome_iff_exists.mp henv
    exact h.env_get_env_set (List.getElem?_eq_some_iff.mp hframe).1 name val
  others _ _ val _ _ hne := EnvHeap.env_get_env_set_ne hne val
  set_above _ _ val _ habove := EnvHeap.env_set_above habove val
  update_above _ _ _ _ _ habove hupdate := EnvHeap.env_update_above habove hupdate

/-- A method's frame above that of a block in it, which has a variable of its own. -/
def block_env : EnvHeap :=
  EnvOp.exec (EnvOp.exec (EnvOp.exec .empty (.env_new none true)) (.env_new (some 0) false)) (.env_define 1 "x" .nil)

theorem env_laws_in_block : EnvLaws block_env :=
  env_laws block_env (.step (.step (.step .start _) _) _)

end stoned
