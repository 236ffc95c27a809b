import Stoned.Require

namespace stoned.loading

open program

/-! When every file is evaluated once. -/

variable {S : Signature} {σ Tree : Type}

def Event.evaluates (path : String) : Event → Bool
  | .evaluated other => other = path
  | _ => false

/-- No file is evaluated twice, and a file whose evaluation has begun is refused
at once when it is required. -/
structure Lawful (trace : List Event) : Prop where
  once : ∀ path, trace.countP (Event.evaluates path) ≤ 1
  refused : ∀ path newer event older, trace = newer ++ event :: .required path :: older →
    .evaluated path ∈ older → event = .answered path (.bool false)

namespace World
variable (W : World S σ Tree)

/-- The machine on which the loader runs, with calls as deep as it takes. -/
noncomputable abbrev machine_of_files : Machine ((loader_ops S).withCalls (loader_calls Tree)) (Loader σ) :=
  W.loader_machine.withCalls (limit W.procedures W.loader_machine)

abbrev bodies : Procedures (loader_ops S) (loader_calls Tree) := Procedures.loopless W.procedures

/-- Evaluating the main file returns, and every file is evaluated once. -/
def EachFileOnce (main : String) (tree : Tree) (own : σ) : Prop :=
  ∃ v t, (W.eval_main main tree).run W.machine_of_files (eval_init own) = some (v, t) ∧ Lawful t.trace

/-- A file whose evaluation has begun is among the loaded ones when it is looked
for there. -/
def started_is_loaded : LoaderOp S → Loader σ → Prop
  | .has_loaded_file path, s => .evaluated path ∈ s.trace → path ∈ s.loaded_files
  | _, _ => True

def StartedIsLoaded (main : String) (tree : Tree) (own : σ) : Prop :=
  AdmittedAlong W.procedures W.loader_machine started_is_loaded (W.eval_main main tree) (eval_init own)

end World

theorem evaluates_iff (path : String) (event : Event) : event.evaluates path = true ↔ event = .evaluated path := by
  cases event <;> simp [Event.evaluates]

theorem started_iff {path : String} {trace : List Event} :
    0 < trace.countP (Event.evaluates path) ↔ .evaluated path ∈ trace := by
  simp only [List.countP_pos_iff, evaluates_iff, exists_eq_right]

theorem lawful_nil : Lawful [] where
  once _ := Nat.zero_le 1
  refused path newer event older h := by simp at h

/-- What has been lawful so far. -/
theorem Lawful.of_suffix {older trace : List Event} (h : Lawful trace) (hsuffix : older <:+ trace) : Lawful older where
  once path := (hsuffix.sublist.countP_le).trans (h.once path)
  refused path newer event rest hrest := by
    obtain ⟨newest, rfl⟩ := hsuffix
    exact h.refused path (newest ++ newer) event rest (by rw [hrest, List.append_assoc])

/-- A lawful trace goes on lawfully. -/
theorem Lawful.cons {trace : List Event} {event : Event} (h : Lawful trace)
    (honce : ∀ path, event = .evaluated path → .evaluated path ∉ trace)
    (hrefused : ∀ path older, trace = .required path :: older → .evaluated path ∈ older →
      event = .answered path (.bool false)) : Lawful (event :: trace) where
  once path := by
    rw [List.countP_cons]
    split
    case isTrue hevent =>
      have hnot := honce path ((evaluates_iff path event).mp hevent)
      have hzero : trace.countP (Event.evaluates path) = 0 := by
        rw [← Nat.le_zero]
        exact Nat.le_of_not_lt fun hpos => hnot (started_iff.mp hpos)
      rw [hzero]
    case isFalse => exact h.once path
  refused path newer newest older htrace hstarted := by
    cases newer with
    | nil =>
      obtain ⟨rfl, rfl⟩ := List.cons.inj htrace
      exact hrefused path older rfl hstarted
    | cons first rest => exact h.refused path rest newest older (List.cons.inj htrace).2 hstarted

/-- A lawful trace, in which every file that was required has been answered for
or begun. -/
structure Settled (trace : List Event) : Prop where
  lawful : Lawful trace
  no_request : ∀ path older, trace ≠ .required path :: older

theorem Settled.cons {trace : List Event} {event : Event} (h : Settled trace)
    (honce : ∀ path, event = .evaluated path → .evaluated path ∉ trace) : Lawful (event :: trace) :=
  h.lawful.cons honce fun path older htrace => absurd htrace (h.no_request path older)

theorem Settled.required {trace : List Event} (h : Settled trace) (path : String) : Lawful (.required path :: trace) :=
  h.cons nofun

theorem Settled.answered {trace : List Event} (h : Settled trace) (path : String) (v : Value) :
    Settled (.answered path v :: trace) :=
  ⟨h.cons nofun, nofun⟩

/-- A file that has not been begun may be begun or answered for. -/
theorem Settled.begun {trace : List Event} {path : String} (h : Settled trace) (hnew : .evaluated path ∉ trace) :
    Lawful (.evaluated path :: .required path :: trace) := by
  refine (h.required path).cons (fun other hother => ?_) fun other older htrace hstarted => ?_
  · cases hother
    simpa using hnew
  · cases htrace
    exact absurd hstarted hnew

theorem Settled.failed {trace : List Event} {path : String} (h : Settled trace) (hnew : .evaluated path ∉ trace)
    (v : Value) : Settled (.answered path v :: .required path :: trace) := by
  refine ⟨(h.required path).cons nofun fun other older htrace hstarted => ?_, nofun⟩
  cases htrace
  exact absurd hstarted hnew

theorem Settled.refused {trace : List Event} (h : Settled trace) (path : String) :
    Settled (.answered path (.bool false) :: .required path :: trace) := by
  refine ⟨(h.required path).cons nofun fun other older htrace _ => ?_, nofun⟩
  cases htrace
  rfl

/-- Every call leaves behind a trace in which every request is settled. -/
def settles : (c : LoaderCall Tree) → Loader σ → Value → Loader σ → Prop
  | .eval_file path _, s, _, t => Lawful (.evaluated path :: s.trace) → Settled t.trace
  | _, s, _, t => Settled s.trace → Settled t.trace

namespace World
variable {W : World S σ Tree}

/-- What is known of the loader's operations and calls. -/
abbrev settling (W : World S σ Tree) : Transformer ((loader_ops S).withCalls (loader_calls Tree)) (Loader σ) :=
  specTransformer W.loader_machine started_is_loaded settles

theorem settling_of_pre {α : Type} {P : Prop} {Q : Loader σ → Prop} {p : L S Tree α} {s : Loader σ}
    (h : P → p.wp W.settling (fun _ t => Q t) s) : p.wp W.settling (fun _ t => P → Q t) s := by
  by_cases hP : P
  · exact Program.wp_mono specTransformer_monotone (fun _ _ ht _ => ht) (h hP)
  · exact Program.wp_of_forall (fun _ _ hP' => absurd hP' hP) p s

theorem script_op_trace {o : ScriptOp S} {s t : Loader σ} {answer : (script_ops S).Answer o}
    (h : W.exec (.script o) s = some (answer, t)) : t.trace = s.trace := by
  cases o with
  | own o =>
    obtain ⟨out, -, hout⟩ := Option.map_eq_some_iff.mp h
    cases hout
    rfl
  | current_file =>
    cases h
    rfl
  | set_current_file file =>
    cases h
    rfl

theorem settles_script_step (o : ((script_ops S).withCalls script_calls).Op) (s : Loader σ) (hs : Settled s.trace) :
    (script_step o : L S Tree _).wp W.settling (fun _ t => Settled t.trace) s := by
  cases o with
  | inl o =>
    intro _ answer t hexec
    have htrace : Settled t.trace := (script_op_trace hexec).symm ▸ hs
    exact htrace
  | inr c => exact fun answer t hspec => hspec hs

theorem settles_statements (p : Script S) (s : Loader σ) (hs : Settled s.trace) :
    (statements p).wp W.settling (fun _ t => Settled t.trace) s :=
  Program.wp_interpret settles_script_step specTransformer_monotone hs

section
variable {α : Type} {Q : α → Loader σ → Prop} {s : Loader σ}

theorem wp_op {o : LoaderOp S} {f : (loader_ops S).Answer o → L S Tree α}
    (h : started_is_loaded o s → ∀ answer t, W.exec o s = some (answer, t) → (f answer).wp W.settling Q t) :
    (op o >>= f).wp W.settling Q s := h

theorem wp_call {c : LoaderCall Tree} {f : Value → L S Tree α}
    (h : ∀ v t, settles c s v t → (f v).wp W.settling Q t) : (call c >>= f).wp W.settling Q s := h

end

theorem settles_raise {class_name message : String} {s : Loader σ} (hs : Settled s.trace) :
    (eval_raise_class class_name message : L S Tree Value).wp W.settling (fun _ t => Settled t.trace) s := by
  refine wp_op fun _ answer t hexec => ?_
  cases hexec
  exact hs

theorem settles_require (path : String) (s : Loader σ) (hs : Settled s.trace) :
    (W.eval_require path).wp W.settling (fun _ t => Settled t.trace) s := by
  unfold eval_require
  split
  · exact hs
  · refine wp_call fun v t hspec => ?_
    split <;> exact hspec hs
  · exact fun v t hspec => hspec hs
  · refine wp_op fun _ file t hexec => ?_
    cases hexec
    split
    · exact fun v t hspec => hspec hs
    · refine wp_op fun _ entries t hexec => ?_
      cases hexec
      split
      · exact fun v t hspec => hspec hs
      · exact settles_raise hs

theorem settles_require_relative (path : String) (s : Loader σ) (hs : Settled s.trace) :
    (eval_require_relative path : L S Tree Value).wp W.settling (fun _ t => Settled t.trace) s := by
  refine wp_op fun _ file t hexec => ?_
  cases hexec
  split
  · exact settles_raise hs
  · exact fun v t hspec => hspec hs

theorem settles_patch_irb (path : String) {s : Loader σ} (hs : Settled s.trace) :
    (patch_irb path : L S Tree Unit).wp W.settling (fun _ t => Settled t.trace) s := by
  unfold patch_irb
  split
  · exact wp_call fun v t hspec => hspec hs
  · exact hs

/-- A file that may be begun is settled when its statements have been evaluated. -/
theorem settles_eval_loaded (path : String) (tree : Tree) {s : Loader σ} (hs : Lawful (.evaluated path :: s.trace)) :
    (eval_loaded path tree : L S Tree Value).wp W.settling (fun _ t => Settled t.trace) s := by
  refine wp_op fun _ previous_file t hexec => ?_
  cases hexec
  refine wp_op fun _ answer t hexec => ?_
  cases hexec
  refine wp_call fun v t hspec => ?_
  have ht : Settled t.trace := hspec hs
  refine wp_op fun _ answer u hexec => ?_
  cases hexec
  split
  · exact ht
  · refine wp_op fun _ answer u hexec => ?_
    cases hexec
    rw [wp_bind]
    exact settles_patch_irb path ht

/-- A file is refused when its evaluation has begun, and begun else. -/
theorem settles_require_path (resolved display_path : String) (s : Loader σ) (hs : Settled s.trace) :
    (W.procedures (.require_path resolved display_path)).wp W.settling (fun _ t => Settled t.trace) s := by
  have hanswer (v : Value) (t : Loader σ) (ht : Settled (.answered (W.canonical_existing_path resolved) v :: t.trace)) :
      (note (.answered (W.canonical_existing_path resolved) v) >>= fun _ => pure v : L S Tree Value).wp W.settling
        (fun _ t => Settled t.trace) t := by
    refine wp_op fun _ answer u hexec => ?_
    cases hexec
    exact ht
  unfold procedures
  refine wp_op fun _ answer t hexec => ?_
  cases hexec
  unfold eval_require_path
  rw [wp_bind]
  refine wp_op fun hloaded found t hexec => ?_
  cases hexec
  split
  case isTrue => exact hanswer _ _ (hs.refused _)
  case isFalse hnot =>
    have hnew : .evaluated (W.canonical_existing_path resolved) ∉ s.trace := by
      intro hstarted
      exact hnot (List.elem_iff.mpr (hloaded (List.mem_cons_of_mem _ hstarted)))
    split
    · refine wp_op fun _ answer t hexec => ?_
      cases hexec
      exact hanswer _ _ (hs.failed hnew _)
    · refine Program.wp_mono specTransformer_monotone (fun v t ht => ?_) (settles_eval_loaded _ _ (hs.begun hnew))
      exact hanswer v t (ht.answered _ v)

theorem procedures_settle (c : LoaderCall Tree) (s : Loader σ) : (W.procedures c).wp W.settling (settles c s) s := by
  cases c with
  | script c =>
    cases c with
    | require path => exact settling_of_pre (settles_require path s)
    | require_relative path => exact settling_of_pre (settles_require_relative path s)
  | require_path resolved display_path => exact settling_of_pre (settles_require_path resolved display_path s)
  | eval_file path tree =>
    refine settling_of_pre fun hs => ?_
    refine wp_op fun _ answer t hexec => ?_
    cases hexec
    exact settles_statements _ _ ⟨hs, nofun⟩
  | eval_shim name =>
    refine settling_of_pre fun hs => ?_
    exact Program.wp_interpret (fun o => settles_script_step (.inl o)) specTransformer_monotone hs

theorem settles_main (main : String) (tree : Tree) (own : σ) :
    (W.eval_main main tree).wp W.settling (fun _ t => Settled t.trace) (eval_init own) := by
  refine wp_op fun _ answer t hexec => ?_
  cases hexec
  refine fun v t hspec => hspec (lawful_nil.cons (fun _ _ => ?_) nofun)
  exact List.not_mem_nil

/-! Termination. -/

open Classical in
/-- The files that have not been begun. -/
noncomputable def unstarted_files (files : Finset String) (trace : List Event) : Finset String :=
  {path ∈ files | .evaluated path ∉ trace}

open Classical in
theorem mem_unstarted_files {files : Finset String} {trace : List Event} {path : String} :
    path ∈ unstarted_files files trace ↔ path ∈ files ∧ .evaluated path ∉ trace := Finset.mem_filter

noncomputable def unstarted (files : Finset String) (trace : List Event) : Nat := (unstarted_files files trace).card

/-- The files that can still be begun, and how far a call is from beginning
one. -/
noncomputable def measure (files : Finset String) : LoaderCall Tree → Loader σ → Nat
  | .eval_file path _, s => 5 * unstarted files (.evaluated path :: s.trace) + 4
  | .script (.require path), s =>
    5 * unstarted files s.trace + match library path with
      | some .rubygems_part => 3
      | _ => 2
  | .script (.require_relative _), s => 5 * unstarted files s.trace + 2
  | .require_path .., s => 5 * unstarted files s.trace + 1
  | .eval_shim _, s => 5 * unstarted files s.trace

theorem unstarted_le (files : Finset String) {older trace : List Event} (h : older <:+ trace) :
    unstarted files trace ≤ unstarted files older := by
  refine Finset.card_le_card fun path hpath => ?_
  rw [mem_unstarted_files] at hpath ⊢
  exact ⟨hpath.1, fun hstarted => hpath.2 (h.subset hstarted)⟩

/-- Beginning a file leaves fewer to begin. -/
theorem unstarted_lt {files : Finset String} {path : String} {trace : List Event} (hpath : path ∈ files)
    (hnew : .evaluated path ∉ trace) : unstarted files (.evaluated path :: trace) < unstarted files trace := by
  have hsubset : unstarted_files files (.evaluated path :: trace) ⊆ unstarted_files files trace := by
    intro other hother
    rw [mem_unstarted_files] at hother ⊢
    exact ⟨hother.1, fun hstarted => hother.2 (List.mem_cons_of_mem _ hstarted)⟩
  refine Finset.card_lt_card ((Finset.ssubset_iff_of_subset hsubset).mpr ⟨path, ?_, fun hleft => ?_⟩)
  · exact mem_unstarted_files.mpr ⟨hpath, hnew⟩
  · exact (mem_unstarted_files.mp hleft).2 List.mem_cons_self

/-- A file's statements return, whatever the files they require answer and
leave behind. -/
def alone (M : Machine S σ) : Transformer ((script_ops S).withCalls script_calls) (σ × Option String)
  | .inl (.own o), s, Q => ∃ answer t, M.exec o s.1 = some (answer, t) ∧ Q answer (t, s.2)
  | .inl .current_file, s, Q => Q s.2 s
  | .inl (.set_current_file file), s, Q => Q () (s.1, file)
  | .inr _, _, Q => ∀ answer t, Q answer t

/-- The same of the source of a library, which requires nothing. -/
def shim_alone (M : Machine S σ) : Transformer (script_ops S) (σ × Option String) := fun o => alone M (.inl o)

/-- Every body alone returns. -/
structure BodiesReturn (W : World S σ Tree) : Prop where
  files : ∀ tree s, (W.eval_node tree).total (alone W.machine) (fun _ _ => True) s
  shims : ∀ name s, (W.shim name).total (shim_alone W.machine) (fun _ _ => True) s

/-- All that is known of a call is that nothing noted is forgotten. -/
def grows (_ : LoaderCall Tree) (s : Loader σ) (_ : Value) (t : Loader σ) : Prop := s.trace <:+ t.trace

/-- What is known of the loader's operations and of calls that are nearer to the
end. -/
noncomputable abbrev ending (W : World S σ Tree) (files : Finset String) (bound : Nat) :
    Transformer ((loader_ops S).withCalls (loader_calls Tree)) (Loader σ) :=
  admitting W.loader_machine started_is_loaded (measure files) bound grows

section
variable {α : Type} {files : Finset String} {bound : Nat} {Q : α → Loader σ → Prop} {s : Loader σ}

theorem total_op {o : LoaderOp S} {f : (loader_ops S).Answer o → L S Tree α}
    (h : started_is_loaded o s → ∃ answer t, W.exec o s = some (answer, t) ∧
      (f answer).total (W.ending files bound) Q t) : (op o >>= f).total (W.ending files bound) Q s := h

theorem total_call {c : LoaderCall Tree} {f : Value → L S Tree α} (hbound : measure files c s < bound)
    (h : ∀ v t, s.trace <:+ t.trace → (f v).total (W.ending files bound) Q t) :
    (call c >>= f).total (W.ending files bound) Q s := ⟨hbound, h⟩

/-- A call whose answer is the program's. -/
theorem total_last_call {c : LoaderCall Tree} {s₀ : Loader σ} (hbound : measure files c s < bound)
    (hs : s₀.trace <:+ s.trace) : (call c).total (W.ending files bound) (fun _ t => s₀.trace <:+ t.trace) s :=
  ⟨hbound, fun _ _ hgrows => hs.trans hgrows⟩

end

/-- The state a file's statements see. -/
def Sees (x : σ × Option String) (s : Loader σ) : Prop := x = (s.own, s.current_file)

theorem measure_script_le (files : Finset String) (c : ScriptCall) (s : Loader σ) :
    measure files (.script c : LoaderCall Tree) s ≤ 5 * unstarted files s.trace + 3 := by
  cases c with
  | require path =>
    simp only [measure]
    split <;> omega
  | require_relative path => exact Nat.add_le_add_left (by decide) _

theorem ends_script_op {files : Finset String} {bound : Nat} {trace : List Event} (o : ScriptOp S)
    (x : σ × Option String) (s : Loader σ) (Q : (script_ops S).Answer o → σ × Option String → Prop)
    (hxs : Sees x s ∧ trace <:+ s.trace) (hQ : alone W.machine (.inl o) x Q) :
    (script_step (.inl o) : L S Tree _).total (W.ending files bound)
      (fun answer t => ∃ y, (Sees y t ∧ trace <:+ t.trace) ∧ Q answer y) s := by
  obtain ⟨hsees, hsuffix⟩ := hxs
  cases hsees
  intro _
  cases o with
  | own o =>
    obtain ⟨answer, t, hexec, hQ⟩ := hQ
    refine ⟨answer, { s with own := t }, ?_, _, ⟨rfl, hsuffix⟩, hQ⟩
    exact Option.map_eq_some_iff.mpr ⟨_, hexec, rfl⟩
  | current_file => exact ⟨_, s, rfl, _, ⟨rfl, hsuffix⟩, hQ⟩
  | set_current_file file => exact ⟨(), _, rfl, _, ⟨rfl, hsuffix⟩, hQ⟩

theorem ends_script_step {files : Finset String} {bound : Nat} {trace : List Event}
    (hbound : 5 * unstarted files trace + 3 < bound) (o : ((script_ops S).withCalls script_calls).Op)
    (x : σ × Option String) (s : Loader σ) (Q : ((script_ops S).withCalls script_calls).Answer o → σ × Option String → Prop)
    (hxs : Sees x s ∧ trace <:+ s.trace) (hQ : alone W.machine o x Q) :
    (script_step o : L S Tree _).total (W.ending files bound)
      (fun answer t => ∃ y, (Sees y t ∧ trace <:+ t.trace) ∧ Q answer y) s := by
  cases o with
  | inl o => exact ends_script_op o x s Q hxs hQ
  | inr c =>
    obtain ⟨hsees, hsuffix⟩ := hxs
    cases hsees
    refine ⟨?_, fun v t hgrows => ⟨_, ⟨rfl, hsuffix.trans hgrows⟩, hQ v _⟩⟩
    have hmeasure : measure files (.script c : LoaderCall Tree) s ≤ 5 * unstarted files s.trace + 3 :=
      measure_script_le files c s
    have hunstarted := unstarted_le files hsuffix
    omega

section
variable {files : Finset String}

theorem ends_statements {bound : Nat} {tree : Tree} {s₀ s : Loader σ} (halone : W.BodiesReturn)
    (hbound : 5 * unstarted files s.trace + 3 < bound) (hs : s₀.trace <:+ s.trace) :
    (statements (W.eval_node tree)).total (W.ending files bound) (fun _ t => s₀.trace <:+ t.trace) s := by
  have hsees : Sees (s.own, s.current_file) s ∧ s.trace <:+ s.trace := ⟨rfl, List.suffix_refl _⟩
  have hstatements := Program.total_interpret admitting_monotone (ends_script_step (W := W) hbound) hsees
    (halone.files tree (s.own, s.current_file))
  exact Program.total_mono admitting_monotone (fun v t ⟨_, ht, _⟩ => hs.trans ht.2) hstatements

theorem ends_shim {bound : Nat} {name : String} {s : Loader σ} (halone : W.BodiesReturn) :
    (shim_statements (W.shim name)).total (W.ending files bound) (fun _ t => s.trace <:+ t.trace) s := by
  have hsees : Sees (s.own, s.current_file) s ∧ s.trace <:+ s.trace := ⟨rfl, List.suffix_refl _⟩
  refine Program.total_mono admitting_monotone (P := fun _ t => ∃ x, (Sees x t ∧ s.trace <:+ t.trace) ∧ True)
    (fun v t ⟨_, ht, _⟩ => ht.2) ?_
  exact Program.total_interpret (R := fun x u => Sees x u ∧ s.trace <:+ u.trace) (T := shim_alone W.machine)
    admitting_monotone ends_script_op hsees (halone.shims name (s.own, s.current_file))

theorem ends_raise {class_name message : String} {bound : Nat} {s₀ s : Loader σ} (hs : s₀.trace <:+ s.trace) :
    (eval_raise_class class_name message : L S Tree Value).total (W.ending files bound)
      (fun _ t => s₀.trace <:+ t.trace) s :=
  total_op fun _ => ⟨(), _, rfl, hs⟩

theorem ends_require (path : String) (s : Loader σ) :
    (W.eval_require path).total (W.ending files (measure files (.script (.require path) : LoaderCall Tree) s))
      (fun _ t => s.trace <:+ t.trace) s := by
  have hself : s.trace <:+ s.trace := List.suffix_refl _
  unfold eval_require
  split
  · exact hself
  · refine total_call ?_ fun v t ht => ?_
    · simp only [measure]
      split <;> omega
    · split <;> exact ht
  case h_3 hpart =>
    refine total_last_call ?_ hself
    have hrubygems : library "rubygems" = some (.shim "rubygems_shim") := by decide
    simp only [measure, hpart, hrubygems]
    omega
  case h_4 hfile =>
    have hbound (resolved display_path : String) : measure files (.require_path resolved display_path : LoaderCall Tree) s <
        measure files (.script (.require path) : LoaderCall Tree) s := by
      simp only [measure, hfile]
      omega
    refine total_op fun _ => ⟨_, s, rfl, ?_⟩
    split
    · exact total_last_call (hbound _ _) hself
    · refine total_op fun _ => ⟨_, s, rfl, ?_⟩
      split
      · exact total_last_call (hbound _ _) hself
      · exact ends_raise hself

theorem ends_require_relative (path : String) (s : Loader σ) :
    (eval_require_relative path : L S Tree Value).total
      (W.ending files (measure files (.script (.require_relative path) : LoaderCall Tree) s))
      (fun _ t => s.trace <:+ t.trace) s := by
  have hself : s.trace <:+ s.trace := List.suffix_refl _
  refine total_op fun _ => ⟨_, s, rfl, ?_⟩
  split
  · exact ends_raise hself
  · exact total_last_call (Nat.lt_succ_self _) hself

theorem ends_patch_irb {path : String} {bound : Nat} {s₀ s : Loader σ}
    (hbound : 5 * unstarted files s.trace < bound) (hs : s₀.trace <:+ s.trace) :
    (patch_irb path : L S Tree Unit).total (W.ending files bound) (fun _ t => s₀.trace <:+ t.trace) s := by
  unfold patch_irb
  split
  · exact total_call hbound fun v t ht => hs.trans ht
  · exact hs

/-- A file is begun when it has not been, and fewer are then left. -/
theorem ends_eval_loaded {path : String} {tree : Tree} {bound : Nat} {s₀ s : Loader σ}
    (hfile : 5 * unstarted files (.evaluated path :: s.trace) + 4 < bound) (hpatch : 5 * unstarted files s.trace < bound)
    (hs : s₀.trace <:+ s.trace) :
    (eval_loaded path tree : L S Tree Value).total (W.ending files bound) (fun _ t => s₀.trace <:+ t.trace) s := by
  refine total_op fun _ => ⟨_, s, rfl, ?_⟩
  refine total_op fun _ => ⟨(), { s with current_file := some path }, rfl, ?_⟩
  refine total_call hfile fun v t ht => ?_
  refine total_op fun _ => ⟨(), { t with current_file := s.current_file }, rfl, ?_⟩
  split
  · exact hs.trans ht
  · refine total_op fun _ => ⟨(), { t with current_file := s.current_file, loaded_files := path :: t.loaded_files }, rfl, ?_⟩
    rw [total_bind]
    refine ends_patch_irb (lt_of_le_of_lt ?_ hpatch) (hs.trans ht)
    exact Nat.mul_le_mul_left 5 (unstarted_le files ht)

theorem ends_require_path (resolved display_path : String) (s : Loader σ)
    (hfiles : ∀ path display_path tree, W.load path display_path = .ok tree → path ∈ files) :
    (W.procedures (.require_path resolved display_path)).total
      (W.ending files (measure files (.require_path resolved display_path : LoaderCall Tree) s))
      (fun _ t => s.trace <:+ t.trace) s := by
  let s₁ : Loader σ := { s with trace := .required (W.canonical_existing_path resolved) :: s.trace }
  have hs₁ : s.trace <:+ s₁.trace := List.suffix_cons _ _
  have hanswer (v : Value) (t : Loader σ) (ht : s.trace <:+ t.trace) :
      (note (.answered (W.canonical_existing_path resolved) v) >>= fun _ => pure v : L S Tree Value).total
        (W.ending files (measure files (.require_path resolved display_path : LoaderCall Tree) s))
        (fun _ t => s.trace <:+ t.trace) t :=
    total_op fun _ => ⟨(), _, rfl, ht.trans (List.suffix_cons _ _)⟩
  unfold procedures
  refine total_op fun _ => ⟨(), s₁, rfl, ?_⟩
  rw [total_bind]
  refine Program.total_mono admitting_monotone hanswer ?_
  refine total_op fun hloaded => ⟨_, s₁, rfl, ?_⟩
  split
  case isTrue => exact hs₁
  case isFalse hnot =>
    have hnew : .evaluated (W.canonical_existing_path resolved) ∉ s₁.trace :=
      fun hstarted => hnot (List.elem_iff.mpr (hloaded hstarted))
    split
    · exact ends_raise hs₁
    case h_2 tree hload =>
      have hless := unstarted_lt (hfiles _ _ tree hload) hnew
      have hmore := unstarted_le files hs₁
      refine ends_eval_loaded ?_ ?_ hs₁
      · simp only [measure]
        omega
      · simp only [measure]
        omega

theorem procedures_end (halone : W.BodiesReturn)
    (hfiles : ∀ path display_path tree, W.load path display_path = .ok tree → path ∈ files) (c : LoaderCall Tree)
    (s : Loader σ) : (W.procedures c).total (W.ending files (measure files c s)) (grows c s) s := by
  cases c with
  | script c =>
    cases c with
    | require path => exact ends_require path s
    | require_relative path => exact ends_require_relative path s
  | require_path resolved display_path => exact ends_require_path resolved display_path s hfiles
  | eval_file path tree =>
    refine total_op fun _ => ⟨(), { s with trace := .evaluated path :: s.trace }, rfl, ?_⟩
    exact ends_statements halone (Nat.lt_succ_self _) (List.suffix_cons _ _)
  | eval_shim name => exact ends_shim halone

theorem ends_main (halone : W.BodiesReturn)
    (hfiles : ∀ path display_path tree, W.load path display_path = .ok tree → path ∈ files) {main : String} {tree : Tree}
    {own : σ} (hsteps : W.StartedIsLoaded main tree own) :
    ∃ v t, (W.eval_main main tree).run W.machine_of_files (eval_init own) = some (v, t) := by
  have hmain : (W.eval_main main tree).total
      (W.ending files (5 * unstarted files [.evaluated (W.canonical_existing_path main)] + 5)) (fun _ _ => True)
      (eval_init own) := by
    refine total_op fun _ => ⟨(), { eval_init own with current_file := some main }, rfl, ?_⟩
    exact ⟨Nat.lt_succ_self _, fun _ _ _ => trivial⟩
  obtain ⟨v, t, hrun, -⟩ := Program.admitted_run
    (fun c s _ hsteps => admitted_returns (procedures_end halone hfiles) c s hsteps) hmain hsteps
  exact ⟨v, t, hrun⟩

end

/-! A file that is begun twice is seen. -/

theorem grows_exec {o : LoaderOp S} {s t : Loader σ} {answer : (loader_ops S).Answer o}
    (h : W.exec o s = some (answer, t)) : s.trace <:+ t.trace := by
  cases o with
  | script o =>
    rw [script_op_trace h]
  | has_loaded_file path | load_path | mark_loaded_file path | raise class_name message =>
    cases h
    exact List.suffix_refl _
  | note event =>
    cases h
    exact List.suffix_cons _ _

/-- Nothing that was noted is forgotten. -/
theorem grows_run {α : Type} {p : L S Tree α} {s t : Loader σ} {value : α}
    (h : p.run W.machine_of_files s = some (value, t)) : s.trace <:+ t.trace :=
  limit_preserves (I := fun u => s.trace <:+ u.trace) (fun _ _ _ _ hexec hs => hs.trans (grows_exec hexec)) h
    (List.suffix_refl _)

/-- A program that does not look for a file among the loaded ones itself. -/
def unasking (_ : World S σ Tree) : Transformer ((loader_ops S).withCalls (loader_calls Tree)) (Loader σ) :=
  fun o _ Q => (∀ path, o ≠ .inl (.has_loaded_file path)) ∧ ∀ answer t, Q answer t

theorem unasking_monotone : W.unasking.Monotone :=
  fun _ _ _ _ h hP => ⟨hP.1, fun answer t => h answer t (hP.2 answer t)⟩

section
variable {α : Type} {s : Loader σ}

theorem unasking_op {o : LoaderOp S} {f : (loader_ops S).Answer o → L S Tree α} (h : ∀ path, o ≠ .has_loaded_file path)
    (hf : ∀ answer t, (f answer).wp W.unasking (fun _ _ => True) t) :
    (op o >>= f).wp W.unasking (fun _ _ => True) s :=
  ⟨fun path heq => h path (Sum.inl.inj heq), hf⟩

theorem unasking_call {c : LoaderCall Tree} {f : Value → L S Tree α}
    (hf : ∀ v t, (f v).wp W.unasking (fun _ _ => True) t) : (call c >>= f).wp W.unasking (fun _ _ => True) s :=
  ⟨nofun, hf⟩

theorem unasking_last_call {c : LoaderCall Tree} : (call c).wp W.unasking (fun _ _ => True) s :=
  ⟨nofun, fun _ _ => trivial⟩

theorem unasking_raise {class_name message : String} :
    (eval_raise_class class_name message : L S Tree Value).wp W.unasking (fun _ _ => True) s :=
  unasking_op nofun fun _ _ => trivial

theorem unasking_statements (p : Script S) : (statements p).wp W.unasking (fun _ _ => True) s := by
  refine Program.wp_interpret (I := fun _ => True) (fun o s _ => ?_) unasking_monotone trivial
  cases o with
  | inl o => exact ⟨nofun, fun _ _ => trivial⟩
  | inr c => exact unasking_last_call

theorem unasking_shim (p : Program (script_ops S) Value) :
    (shim_statements p).wp W.unasking (fun _ _ => True) s := by
  refine Program.wp_interpret (I := fun _ => True) (fun o s _ => ?_) unasking_monotone trivial
  exact ⟨nofun, fun _ _ => trivial⟩

theorem unasking_require (path : String) : (W.eval_require path).wp W.unasking (fun _ _ => True) s := by
  unfold eval_require
  split
  · trivial
  · refine unasking_call fun v t => ?_
    split <;> trivial
  · exact unasking_last_call
  · refine unasking_op nofun fun file t => ?_
    split
    · exact unasking_last_call
    · refine unasking_op nofun fun entries t => ?_
      split
      · exact unasking_last_call
      · exact unasking_raise

theorem unasking_require_relative (path : String) :
    (eval_require_relative path : L S Tree Value).wp W.unasking (fun _ _ => True) s := by
  refine unasking_op nofun fun file t => ?_
  split
  · exact unasking_raise
  · exact unasking_last_call

theorem unasking_eval_loaded (path : String) (tree : Tree) :
    (eval_loaded path tree : L S Tree Value).wp W.unasking (fun _ _ => True) s := by
  refine unasking_op nofun fun previous_file t => unasking_op nofun fun _ t => unasking_call fun result t => ?_
  refine unasking_op nofun fun _ t => ?_
  split
  · trivial
  · refine unasking_op nofun fun _ t => ?_
    unfold patch_irb
    split
    · exact unasking_call fun _ _ => trivial
    · trivial

end

/-- A call that ends lawfully has met the condition at some depth. -/
def MetByCalls (W : World S σ Tree) (depth : Nat) : Prop :=
  ∀ c s v t, limit W.procedures W.loader_machine c s = some (v, t) → Lawful t.trace →
    W.bodies.Admits W.loader_machine started_is_loaded depth (.inr c) s

/-- Only looking for a file can break the condition. -/
theorem along_unasking {depth : Nat} (hcalls : W.MetByCalls depth) {α : Type} {p : L S Tree α} {s t : Loader σ}
    {value : α} (hp : p.wp W.unasking (fun _ _ => True) s) (hrun : p.run W.machine_of_files s = some (value, t))
    (hlawful : Lawful t.trace) :
    p.Along (W.bodies.machine W.loader_machine depth)
      (W.bodies.Admits W.loader_machine started_is_loaded depth) s := by
  induction p generalizing s with
  | ret v => trivial
  | step o next ih =>
    obtain ⟨⟨answer, u⟩, hexec, hrest⟩ := Option.bind_eq_some_iff.mp hrun
    have hu : Lawful u.trace := hlawful.of_suffix (grows_run hrest)
    cases o with
    | inl o =>
      refine ⟨?_, fun answer' u' hexec' => ?_⟩
      · have hmet : started_is_loaded o s := by
          cases o with
          | has_loaded_file path => exact absurd rfl (hp.1 path)
          | _ => trivial
        cases depth <;> exact hmet
      · cases hexec'.symm.trans hexec
        exact ih answer (hp.2 answer u) hrest
    | inr c =>
      refine ⟨hcalls c s answer u hexec hu, fun answer' u' hexec' => ?_⟩
      cases (oracle_below_limit depth c s _ hexec').symm.trans hexec
      exact ih answer (hp.2 answer u) hrest
  | halt => trivial

/-- A file that is looked at although it has been begun is answered for
unlawfully, or begun again. -/
theorem not_lawful_begun_again {path : String} {older trace : List Event} {event : Event}
    (h : event :: .required path :: older <:+ trace) (hstarted : .evaluated path ∈ older)
    (hevent : event ≠ .answered path (.bool false)) : ¬ Lawful trace :=
  fun hlawful => hevent ((hlawful.of_suffix h).refused path [] event older rfl hstarted)

/-- Evaluating a file's statements is noted. -/
theorem evaluated_of_run {path : String} {tree : Tree} {s t : Loader σ} {v : Value}
    (hrun : (eval_loaded path tree).run W.machine_of_files s = some (v, t)) : .evaluated path :: s.trace <:+ t.trace := by
  obtain ⟨⟨previous_file, _⟩, hexec, hrun⟩ := Option.bind_eq_some_iff.mp hrun
  cases hexec
  obtain ⟨⟨_, _⟩, hexec, hrun⟩ := Option.bind_eq_some_iff.mp hrun
  cases hexec
  obtain ⟨⟨result, u⟩, hcall, hrest⟩ := Option.bind_eq_some_iff.mp hrun
  have hbody := (limit_call (C := loader_calls Tree) (.eval_file path tree) _).symm.trans hcall
  obtain ⟨⟨_, _⟩, hexec, hstatements⟩ := Option.bind_eq_some_iff.mp hbody
  cases hexec
  have hu := grows_run hstatements
  exact hu.trans (grows_run hrest)

/-- A file that is read when it has been begun is answered for with an exception
or begun again. -/
theorem not_lawful_read_again {path display_path : String} {s t : Loader σ} {v : Value}
    (hstarted : .evaluated path ∈ s.trace)
    (hrun : ((match W.load path display_path with
      | .error message => eval_raise_class "LoadError" message
      | .ok tree => eval_loaded path tree) >>= fun v => note (.answered path v) >>= fun _ => pure v :
        L S Tree Value).run W.machine_of_files { s with trace := .required path :: s.trace } = some (v, t)) :
    ¬ Lawful t.trace := by
  split at hrun
  · cases hrun
    exact not_lawful_begun_again (List.suffix_refl _) hstarted nofun
  · obtain ⟨result, u, hloaded, hrest⟩ := run_bind_eq_some_iff.mp hrun
    have hbegun := (evaluated_of_run hloaded).trans (grows_run hrest)
    exact not_lawful_begun_again hbegun hstarted nofun

/-- What is done with a file once it has been looked for among the loaded ones. -/
def go_on (W : World S σ Tree) (path display_path : String) (found : Bool) : L S Tree Value :=
  (if found then return .bool false
  else
    match W.load path display_path with
    | .error message => eval_raise_class "LoadError" message
    | .ok tree => eval_loaded path tree) >>= fun v => note (.answered path v) >>= fun _ => pure v

theorem unasking_go_on (path display_path : String) (found : Bool) (s : Loader σ) :
    (W.go_on path display_path found).wp W.unasking (fun _ _ => True) s := by
  have hanswer (v : Value) (t : Loader σ) :
      (note (.answered path v) >>= fun _ => pure v : L S Tree Value).wp W.unasking (fun _ _ => True) t :=
    unasking_op nofun fun _ _ => trivial
  unfold go_on
  rw [wp_bind]
  refine Program.wp_mono (P := fun _ _ => True) unasking_monotone (fun v t _ => hanswer v t) ?_
  split
  · trivial
  · split
    · exact unasking_raise
    · exact unasking_eval_loaded _ _

/-- A call that ends lawfully finds every file that has been begun among the
loaded ones. -/
theorem along_require_path {depth : Nat} (hcalls : W.MetByCalls depth) {resolved display_path : String} {s t : Loader σ}
    {v : Value}
    (hrun : (W.procedures (.require_path resolved display_path)).run W.machine_of_files s = some (v, t))
    (hlawful : Lawful t.trace) :
    (W.procedures (.require_path resolved display_path)).Along (W.bodies.machine W.loader_machine depth)
      (W.bodies.Admits W.loader_machine started_is_loaded depth) s := by
  obtain ⟨⟨_, _⟩, hexec, hasked⟩ := Option.bind_eq_some_iff.mp hrun
  cases hexec
  obtain ⟨⟨found, _⟩, hexec, hrest⟩ := Option.bind_eq_some_iff.mp hasked
  cases hexec
  replace hrest : (W.go_on (W.canonical_existing_path resolved) display_path
      (s.loaded_files.contains (W.canonical_existing_path resolved))).run W.machine_of_files
        { s with trace := .required (W.canonical_existing_path resolved) :: s.trace } = some (v, t) := hrest
  refine ⟨by cases depth <;> trivial, fun _ _ hexec => ?_⟩
  cases hexec
  refine ⟨?_, fun found' _ hexec => ?_⟩
  · have hmet : started_is_loaded (.has_loaded_file (W.canonical_existing_path resolved) : LoaderOp S)
        { s with trace := .required (W.canonical_existing_path resolved) :: s.trace } := by
      intro hstarted
      by_contra hnot
      have hbefore : .evaluated (W.canonical_existing_path resolved) ∈ s.trace :=
        (List.mem_cons.mp hstarted).resolve_left nofun
      have hfound : s.loaded_files.contains (W.canonical_existing_path resolved) = false := by simpa using hnot
      rw [hfound] at hrest
      exact not_lawful_read_again hbefore hrest hlawful
    cases depth <;> exact hmet
  · cases hexec
    exact along_unasking hcalls (unasking_go_on _ _ _ _) hrest hlawful

theorem met_by_calls (depth : Nat) : W.MetByCalls depth := by
  induction depth with
  | zero => exact fun _ _ _ _ _ _ => trivial
  | succ depth ih =>
    intro c s v t hcall hlawful
    have hrun : (W.procedures c).run W.machine_of_files s = some (v, t) := (limit_call c s).symm.trans hcall
    cases c with
    | script c =>
      cases c with
      | require path => exact along_unasking ih (unasking_require path) hrun hlawful
      | require_relative path => exact along_unasking ih (unasking_require_relative path) hrun hlawful
    | require_path resolved display_path => exact along_require_path ih hrun hlawful
    | eval_file path tree =>
      exact along_unasking ih (unasking_op nofun fun _ _ => unasking_statements _) hrun hlawful
    | eval_shim name => exact along_unasking ih (unasking_shim _) hrun hlawful

end World

/-- Every file is evaluated once exactly when no file is looked for that has
been begun and is not yet marked. -/
theorem each_file_once_iff (W : World S σ Tree) (files : Finset String)
    (hfiles : ∀ path display_path tree, W.load path display_path = .ok tree → path ∈ files) (halone : W.BodiesReturn)
    (main : String) (tree : Tree) (own : σ) : W.EachFileOnce main tree own ↔ W.StartedIsLoaded main tree own := by
  constructor
  · rintro ⟨v, t, hrun, hlawful⟩ depth
    refine World.along_unasking (World.met_by_calls depth) ?_ hrun hlawful
    exact World.unasking_op nofun fun _ _ => World.unasking_last_call
  · intro hsteps
    obtain ⟨v, t, hrun⟩ := World.ends_main halone hfiles hsteps
    have hsettled : Settled t.trace := hsteps.wp_run World.procedures_settle (World.settles_main main tree own) hrun
    exact ⟨v, t, hrun, hsettled.lawful⟩

/-- A step that answers true the first time. -/
def first_time : Signature where
  Op := Unit
  Answer _ := Bool

/-- A main file that requires `a.rb` and the statements of that file. -/
def requiring_a (a : Script first_time) : World first_time Bool Bool where
  machine := { exec _ first := some (first, false) }
  raise _ _ first := first
  load_path _ := []
  realpath := some
  fopen _ := true
  read_file_bytes path := if path = "lib/a.rb" then some [] else none
  utf8_validate _ := none
  parse_program _ := .ok false
  sema_run _ := none
  eval_node main := if main then .step (.inr (.require_relative "a")) .ret else a
  shim _ := .ret .nil

theorem requiring_a_load (a : Script first_time) {path display_path : String} {tree : Bool}
    (h : (requiring_a a).load path display_path = .ok tree) : path = "lib/a.rb" := by
  by_contra hpath
  have hmissing : (requiring_a a).read_file_bytes path = none := if_neg hpath
  rw [World.load, hmissing] at h
  cases h

/-- A file that requires nothing is evaluated once. -/
theorem each_file_once_iff_at_leaf :
    (requiring_a (.ret .nil)).EachFileOnce "lib/main.rb" true true ↔
      (requiring_a (.ret .nil)).StartedIsLoaded "lib/main.rb" true true :=
  each_file_once_iff (requiring_a (.ret .nil)) {"lib/a.rb"}
    (fun _ _ _ h => Finset.mem_singleton.mpr (requiring_a_load _ h))
    ⟨fun tree s => by cases tree <;> simp [requiring_a, Program.total, World.alone], fun _ _ => trivial⟩
    "lib/main.rb" true true

/-- A file that requires itself the first time. -/
def requires_itself : Script first_time :=
  .step (.inl (.own ())) fun (first : Bool) =>
    if first then .step (.inr (.require_relative "a")) .ret else .ret .nil

theorem requires_itself_alone : (requiring_a requires_itself).BodiesReturn where
  files tree s := by
    cases tree with
    | true => exact fun _ _ => trivial
    | false =>
      refine ⟨s.1, false, rfl, ?_⟩
      cases s.1
      · trivial
      · exact fun _ _ => trivial
  shims _ _ := trivial

theorem requires_itself_run :
    (((requiring_a requires_itself).eval_main "lib/main.rb" true).run
      ((requiring_a requires_itself).bodies.machine (requiring_a requires_itself).loader_machine 9) (eval_init true)).map
        (fun out => out.2.trace.countP (Event.evaluates "lib/a.rb")) = some 2 := by
  decide +kernel

/-- A file that requires itself is evaluated twice, although its statements
return. -/
theorem requires_itself_evaluated_twice :
    (requiring_a requires_itself).BodiesReturn ∧
      ¬ (requiring_a requires_itself).EachFileOnce "lib/main.rb" true true := by
  refine ⟨requires_itself_alone, ?_⟩
  rintro ⟨v, t, hrun, hlawful⟩
  obtain ⟨out, hout, htwice⟩ := Option.map_eq_some_iff.mp requires_itself_run
  have hlimit := run_limit_iff.mpr ⟨9, hout⟩
  cases hrun.symm.trans hlimit
  have honce := hlawful.once "lib/a.rb"
  rw [htwice] at honce
  omega

end stoned.loading
