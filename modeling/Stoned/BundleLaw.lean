import Mathlib.Data.List.Nodup
import Mathlib.Logic.Relation
import Stoned.Bundle
import Stoned.RequirementLaw
import Stoned.VersionLaw

namespace stoned.bundle

open rubygems

/-! The map that the resolution makes: what it maps, and whether the versions fit. -/

section dependencies

variable {W : World} {ds ordered : List Dep}

/-- The names of all gems that the Gemfile's specs, or those outside, depend on. -/
def all_names (W : World) (ds : List Dep) : List Text :=
  W.names ++ ds.flatMap fun d => (runtime_dependencies d.spec).map Prod.fst

/-- The Gemfile gives a gem a git source. -/
def GitDeclared (ds : List Dep) (name : Text) : Prop := ∃ d ∈ ds, d.name = name ∧ d.git.isSome = true

/-- Where a dependency of the Gemfile comes from. -/
structure Origin (W : World) (ds : List Dep) (d : Dep) : Prop where
  git : d.git.isSome = true → GitDeclared ds d.name
  spec : ∀ rdep ∈ runtime_dependencies d.spec, rdep.1 ∈ all_names W ds

/-- Dependencies of different names that come from the Gemfile. -/
structure Collected (W : World) (ds ordered : List Dep) : Prop where
  nodup : (ordered.map Dep.name).Nodup
  origin : ∀ d ∈ ordered, Origin W ds d

theorem change_names {name : Text} {f : Dep → Dep} (hf : ∀ d, (f d).name = d.name) :
    (change name f ordered).map Dep.name = ordered.map Dep.name := by
  rw [change, List.map_map]
  refine List.map_congr_left fun d _ => ?_
  simp only [Function.comp_apply]
  split
  · exact hf d
  · rfl

theorem Collected.change (h : Collected W ds ordered) {name : Text} {f : Dep → Dep}
    (hname : ∀ d, (f d).name = d.name) (horigin : ∀ d ∈ ordered, d.name = name → Origin W ds (f d)) :
    Collected W ds (change name f ordered) := by
  refine ⟨by rw [change_names hname]; exact h.nodup, fun d hd => ?_⟩
  obtain ⟨e, he, rfl⟩ := List.mem_map.mp hd
  split
  · exact horigin e he ‹_›
  · exact h.origin e he

theorem declares_iff {name : Text} : declares ordered name = true ↔ name ∈ ordered.map Dep.name := by
  simp [declares]

theorem Collected.add (h : Collected W ds ordered) {d : Dep} (hnew : ¬declares ordered d.name = true)
    (horigin : Origin W ds d) : Collected W ds (ordered ++ [d]) := by
  rw [declares_iff] at hnew
  refine ⟨?_, fun e he => ?_⟩
  · rw [List.map_append, List.map_singleton]
    exact List.nodup_append.mpr ⟨h.nodup, by simp, fun n hn m hm heq => hnew (by simp_all)⟩
  · rcases List.mem_append.mp he with he | he
    · exact h.origin e he
    · rwa [List.mem_singleton.mp he]

theorem Origin.declared {d : Dep} (hd : d ∈ ds) : Origin W ds d :=
  ⟨fun hgit => ⟨d, hd, rfl, hgit⟩, fun _ hrdep => List.mem_append_right _
    (List.mem_flatMap.mpr ⟨d, hd, List.mem_map_of_mem hrdep⟩)⟩

theorem Origin.injected (groups : List Text) (rdep : Text × Requirement) : Origin W ds (injected groups rdep) :=
  ⟨nofun, nofun⟩

theorem normalized_collected (W : World) (ds : List Dep) : Collected W ds (normalized_dependencies ds) := by
  have hfold (rest : List Dep) (hrest : ∀ d ∈ rest, d ∈ ds) (ordered : List Dep) (h : Collected W ds ordered) :
      Collected W ds (rest.foldl normalize_each ordered) := by
    induction rest generalizing ordered with
    | nil => exact h
    | cons dep rest ih =>
      refine ih (fun d hd => hrest d (by simp [hd])) _ ?_
      have hdep : Origin W ds dep := .declared (hrest dep (by simp))
      rw [normalize_each]
      split
      · refine h.change (fun d => rfl) fun d hd hname => ⟨fun hgit => ?_, fun rdep hrdep => ?_⟩
        · -- the git source is that of either declaration
          cases hg : dep.git with
          | some git => exact hname ▸ hdep.git (by simp [hg])
          | none => exact (h.origin d hd).git (by simpa [Dep.merge, hg] using hgit)
        · cases hs : dep.spec with
          | some spec => exact hdep.spec rdep (by simpa [Dep.merge, hs] using hrdep)
          | none => exact (h.origin d hd).spec rdep (by simpa [Dep.merge, hs] using hrdep)
      · exact h.add ‹_› hdep
  exact hfold ds (fun _ hd => hd) [] ⟨by simp, by simp⟩

theorem expand_each_collected (h : Collected W ds ordered) (groups : List Text) (rdep : Text × Requirement) :
    Collected W ds (expand_each groups ordered rdep) := by
  rw [expand_each]
  split
  · refine h.change (fun d => ?_) fun d hd _ => ?_
    · split <;> rfl
    · have := h.origin d hd
      split
      · exact ⟨this.git, this.spec⟩
      · exact this
  · exact h.add ‹_› (.injected groups rdep)

theorem path_spec_known {d : Dep} (h : Origin W ds d) :
    ∀ rdep ∈ runtime_dependencies (W.bundle_load_path_spec d), rdep.1 ∈ all_names W ds := by
  intro rdep hrdep
  cases hs : d.spec with
  | some spec => exact h.spec rdep (by simpa [World.bundle_load_path_spec, hs] using hrdep)
  | none =>
    cases hp : d.path with
    | none => simp [World.bundle_load_path_spec, hs, hp, runtime_dependencies] at hrdep
    | some path =>
      cases hps : W.path_spec path with
      | none => simp [World.bundle_load_path_spec, hs, hp, hps, runtime_dependencies] at hrdep
      | some spec =>
        have hrdep : rdep ∈ spec.runtime_dependencies := by
          simpa [World.bundle_load_path_spec, hs, hp, hps, runtime_dependencies] using hrdep
        exact List.mem_append_left _ (W.path_names path spec hps rdep hrdep)

theorem expand_at_collected (h : Collected W ds ordered) (index : Nat) :
    Collected W ds (W.expand_at ordered index) := by
  rw [World.expand_at]
  cases hdep : ordered[index]? with
  | none => exact h
  | some dep =>
    have hmem : dep ∈ ordered := List.mem_of_getElem? hdep
    have hset : Collected W ds (ordered.set index { dep with spec := W.bundle_load_path_spec dep }) := by
      obtain ⟨hlt, hget⟩ := List.getElem?_eq_some_iff.mp hdep
      refine ⟨?_, fun d hd => ?_⟩
      · have : (ordered.set index { dep with spec := W.bundle_load_path_spec dep }).map Dep.name =
            ordered.map Dep.name := by
          rw [List.map_set, ← hget, ← List.getElem_map (f := Dep.name) (h := by simpa using hlt)]
          exact List.set_getElem_self _
        rw [this]
        exact h.nodup
      · rcases List.mem_or_eq_of_mem_set hd with hd | rfl
        · exact h.origin d hd
        · exact ⟨(h.origin dep hmem).git, path_spec_known (h.origin dep hmem)⟩
    have hfold (rdeps : List (Text × Requirement)) (ordered : List Dep) (h : Collected W ds ordered) :
        Collected W ds (rdeps.foldl (expand_each dep.groups) ordered) := by
      induction rdeps generalizing ordered with
      | nil => exact h
      | cons rdep rdeps ih => exact ih _ (expand_each_collected h dep.groups rdep)
    exact hfold _ _ hset

theorem expanded_collected (W : World) (ds : List Dep) : Collected W ds (W.expanded_dependencies ds) := by
  have hloop (count index : Nat) (ordered : List Dep) (h : Collected W ds ordered) :
      Collected W ds (W.expand_from count index ordered) := by
    induction count generalizing index ordered with
    | zero => exact h
    | succ count ih =>
      rw [World.expand_from]
      split
      · exact ih _ _ (expand_at_collected h index)
      · exact h
  exact hloop _ _ _ (normalized_collected W ds)

/-- All dependencies from a place on have neither a gemspec nor a path. -/
def BareFrom (n : Nat) (ordered : List Dep) : Prop :=
  ∀ index d, n ≤ index → ordered[index]? = some d → d.spec = none ∧ d.path = none

theorem BareFrom.expand_each {n : Nat} (h : BareFrom n ordered) (groups : List Text) (rdep : Text × Requirement) :
    BareFrom n (expand_each groups ordered rdep) := by
  intro index d hindex hd
  rw [bundle.expand_each] at hd
  split at hd
  · rw [bundle.change, List.getElem?_map] at hd
    obtain ⟨e, he, rfl⟩ := Option.map_eq_some_iff.mp hd
    have := h index e hindex he
    split
    · split <;> exact this
    · exact this
  · rw [List.getElem?_append] at hd
    split at hd
    · exact h index d hindex hd
    · obtain ⟨_, rfl⟩ : _ ∧ injected groups rdep = d := by simpa using List.getElem?_eq_some_iff.mp hd
      exact ⟨rfl, rfl⟩

theorem BareFrom.expand_at {n index : Nat} (h : BareFrom n ordered) (hindex : index < n) :
    BareFrom n (W.expand_at ordered index) := by
  rw [World.expand_at]
  split
  · exact h
  · rename_i dep hdep
    have hset : BareFrom n (ordered.set index { dep with spec := W.bundle_load_path_spec dep }) := by
      intro other d hother hd
      rw [List.getElem?_set_ne (by omega)] at hd
      exact h other d hother hd
    have hfold (rdeps : List (Text × Requirement)) (ordered : List Dep) (h : BareFrom n ordered) :
        BareFrom n (rdeps.foldl (bundle.expand_each dep.groups) ordered) := by
      induction rdeps generalizing ordered with
      | nil => exact h
      | cons rdep rdeps ih => exact ih _ (h.expand_each dep.groups rdep)
    exact hfold _ _ hset

theorem BareFrom.expand_same {index : Nat} (h : BareFrom index ordered) : W.expand_at ordered index = ordered := by
  rw [World.expand_at]
  split
  · rfl
  · rename_i dep hdep
    obtain ⟨hspec, hpath⟩ := h index dep le_rfl hdep
    have hload : W.bundle_load_path_spec dep = none := by simp [World.bundle_load_path_spec, hspec, hpath]
    obtain ⟨hlt, hget⟩ := List.getElem?_eq_some_iff.mp hdep
    have hdep : { dep with spec := none } = dep := by rw [← hspec]
    simp only [hload, runtime_dependencies, Option.map_none, Option.getD_none, List.foldl_nil]
    rw [hdep, ← hget]
    exact List.set_getElem_self hlt

/-- Turns after the first ones change nothing: the loop of expanded_dependencies comes
to an end, with the list that is returned. -/
theorem expanded_dependencies_stable (W : World) (ds : List Dep) {count : Nat}
    (h : (normalized_dependencies ds).length ≤ count) :
    W.expand_from count 0 (normalized_dependencies ds) = W.expanded_dependencies ds := by
  have hsame (count index : Nat) (ordered : List Dep) (hbare : BareFrom index ordered) :
      W.expand_from count index ordered = ordered := by
    induction count generalizing index with
    | zero => rfl
    | succ count ih =>
      rw [World.expand_from, hbare.expand_same, ih _ fun i d hi hd => hbare i d (by omega) hd]
      split <;> rfl
  have hmore (turns more index : Nat) (ordered : List Dep) (hbare : BareFrom (index + turns) ordered) :
      W.expand_from (turns + more) index ordered = W.expand_from turns index ordered := by
    induction turns generalizing index ordered with
    | zero =>
      rw [Nat.zero_add]
      exact hsame _ _ _ hbare
    | succ turns ih =>
      rw [show turns + 1 + more = turns + more + 1 by omega, World.expand_from, World.expand_from]
      split
      · refine ih _ _ ?_
        rw [show index + 1 + turns = index + (turns + 1) by omega]
        exact hbare.expand_at (by omega)
      · rfl
  obtain ⟨more, rfl⟩ := Nat.exists_eq_add_of_le h
  refine hmore _ more 0 _ fun index d hindex hd => ?_
  rw [List.getElem?_eq_none (by omega)] at hd
  cases hd

theorem active_collected (W : World) (config : Config) (ds : List Dep) :
    Collected W ds (W.active_dependencies config ds) := by
  have h := expanded_collected W ds
  refine ⟨?_, fun d hd => h.origin d (List.mem_of_mem_filter hd)⟩
  exact h.nodup.sublist (List.Sublist.map _ List.filter_sublist)

end dependencies

section queue

/-- What is added to the queue: dependencies of new names, and all names that were asked for are queued then. -/
theorem enqueue_spec (spec : Option Spec) (groups : List Text) (s : Resolver) :
    ∃ added : List Dep,
      s.enqueue_runtime_deps spec groups =
        { s with queue := s.queue ++ added, queued := (added.map Dep.name).reverse ++ s.queued } ∧
      (added.map Dep.name).Nodup ∧
      (∀ d ∈ added, d.path = none ∧ d.git = none ∧ d.spec = none ∧ d.name ∉ s.queued ∧ ¬s.maps d.name = true ∧
        ∃ rdep ∈ runtime_dependencies spec, rdep.1 = d.name) ∧
      ∀ rdep ∈ runtime_dependencies spec, s.maps rdep.1 = true ∨ rdep.1 ∈ added.map Dep.name ∨ rdep.1 ∈ s.queued := by
  rw [Resolver.enqueue_runtime_deps]
  generalize runtime_dependencies spec = rdeps
  induction rdeps generalizing s with
  | nil => exact ⟨[], by simp, by simp, by simp, by simp⟩
  | cons rdep rdeps ih =>
    rw [List.foldl_cons, Resolver.enqueue_each]
    split
    · rename_i hknown
      obtain ⟨added, hs, hnodup, hadded, hall⟩ := ih s
      refine ⟨added, hs, hnodup, fun d hd => ?_, fun r hr => ?_⟩
      · obtain ⟨h1, h2, h3, h4, h5, r, hr, hname⟩ := hadded d hd
        exact ⟨h1, h2, h3, h4, h5, r, by simp [hr], hname⟩
      · rcases List.mem_cons.mp hr with rfl | hr
        · rw [Bool.or_eq_true, List.contains_iff_mem] at hknown
          exact hknown.imp id .inr
        · exact hall r hr
    · rename_i hnew
      rw [Bool.or_eq_true, List.contains_iff_mem, not_or] at hnew
      obtain ⟨added, hs, hnodup, hadded, hall⟩ := ih
        { s with queued := rdep.1 :: s.queued, queue := s.queue ++ [injected groups rdep] }
      refine ⟨injected groups rdep :: added, ?_, ?_, fun d hd => ?_, fun r hr => ?_⟩
      · rw [hs]
        simp [injected]
      · refine List.nodup_cons.mpr ⟨fun hmem => ?_, hnodup⟩
        obtain ⟨d, hd, hname⟩ := List.mem_map.mp hmem
        exact (hadded d hd).2.2.2.1 (by simp [hname, injected])
      · rcases List.mem_cons.mp hd with rfl | hd
        · exact ⟨rfl, rfl, rfl, hnew.2, hnew.1, rdep, by simp, rfl⟩
        · obtain ⟨h1, h2, h3, h4, h5, r, hr, hname⟩ := hadded d hd
          exact ⟨h1, h2, h3, fun h => h4 (by simp [h]), h5, r, by simp [hr], hname⟩
      · rcases List.mem_cons.mp hr with rfl | hr
        · exact .inr (.inl (by simp [injected]))
        · rcases hall r hr with h | h | h
          · exact .inl h
          · exact .inr (.inl (by simp [h]))
          · rcases List.mem_cons.mp h with h | h
            · exact .inr (.inl (by simp [injected, h]))
            · exact .inr (.inr h)

end queue

section steps

variable {R : Reginold} {W : World} {config : Config} {ds : List Dep} {force : Bool}

variable (W config ds) in
/-- The Gemfile's dependency of a name that has a path. -/
def path_gem (name : Text) : Option Dep :=
  (W.active_dependencies config ds).find? fun d => d.name = name && d.path.isSome

variable (W config ds) in
/-- The gemspec of a gem that is mapped. -/
def spec_of (installed : Text → Option Spec) (name : Text) : Option Spec :=
  match path_gem W config ds name with
  | some d => W.bundle_load_path_spec d
  | none => installed name

/-- A gemspec that a gem may get: that of the installed gem, or of a version on the server. -/
def Available (W : World) (force : Bool) (s : Resolver) (name : Text) (spec : Spec) : Prop :=
  (force = false ∧ s.installed name = some spec) ∨
    ∃ version, spec = W.published name version ∧
      ((∃ versions, W.listed name = some versions ∧ version ∈ versions) ∨ W.latest name = some version)

/-- The requirements that are kept for a gem accept a version. -/
def Keeps (R : Reginold) (reqs : List Text) (version : Text) : Prop :=
  relevant reqs = [] ∨ R.Satisfied (R.requirement_new (relevant reqs)) version

theorem accepts_iff {reqs : List Text} {version : Text} : accepts R reqs version = .ok true ↔ Keeps R reqs version := by
  rw [accepts, Keeps, Reginold.Satisfied]
  split <;> simp [*]

theorem accepted_some {reqs : List Text} {found : Option Spec} {spec : Spec}
    (h : accepted R reqs found = .ok (some spec)) : found = some spec ∧ Keeps R reqs spec.version := by
  cases found with
  | none => cases h
  | some spec' =>
    rw [accepted] at h
    cases hacc : accepts R reqs spec'.version with
    | error e => simp [hacc, bind, Except.bind] at h
    | ok b =>
      cases b with
      | false => simp [hacc, bind, Except.bind] at h
      | true =>
        obtain rfl : spec' = spec := by simpa [hacc, bind, Except.bind] using h
        exact ⟨rfl, accepts_iff.mp hacc⟩

theorem accepted_none {reqs : List Text} {found : Option Spec} {spec : Spec} (h : accepted R reqs found = .ok none)
    (hfound : found = some spec) : ¬Keeps R reqs spec.version := by
  subst hfound
  intro hkeeps
  simp [accepted, accepts_iff.mpr hkeeps, bind, Except.bind] at h

/-- Some listed version that the kept requirements accept. -/
def Listed (R : Reginold) (W : World) (name : Text) (reqs : List Text) (version : Text) : Prop :=
  relevant reqs ≠ [] ∧ R.Satisfied (R.requirement_new (relevant reqs)) version ∧
    ∃ versions, W.listed name = some versions ∧ version ∈ versions

theorem best_match_some {reqs versions : List Text} {best : Text} (h : R.best_match reqs versions = .ok (some best)) :
    best ∈ versions ∧ R.Satisfied (R.requirement_new reqs) best := by
  rw [Reginold.best_match] at h
  generalize hmatching : versions.filter _ = matching at h
  rcases eq_or_ne matching [] with hnil | hne
  · rw [hnil] at h
    simp [best_of, sort_by, sort, bind, Except.bind, pure, Except.pure] at h
  · obtain ⟨best', hmem, hbest, _⟩ := best_of_ok hne
    obtain rfl : best' = best := by simpa [hbest] using h
    rw [← hmatching] at hmem
    obtain ⟨hmem, hsat⟩ := List.mem_filter.mp hmem
    refine ⟨hmem, ?_⟩
    rw [Reginold.Satisfied]
    cases hs : R.satisfied_by (R.requirement_new reqs) best' with
    | error e => simp [hs] at hsat
    | ok satisfied =>
      obtain rfl : satisfied = true := by simpa [hs] using hsat
      rfl

theorem best_match_none {reqs versions : List Text} (h : R.best_match reqs versions = .ok none) {version : Text}
    (hmem : version ∈ versions) : ¬R.Satisfied (R.requirement_new reqs) version := by
  intro hsat
  rw [Reginold.best_match] at h
  generalize hmatching : versions.filter _ = matching at h
  have hne : matching ≠ [] := by
    rw [← hmatching]
    refine List.ne_nil_of_mem (List.mem_filter.mpr ⟨hmem, ?_⟩)
    rw [Reginold.Satisfied] at hsat
    rw [hsat]
  obtain ⟨best, _, hbest, _⟩ := best_of_ok hne
  simp [hbest] at h

theorem best_listed_some {name : Text} {reqs : List Text} {best : Text}
    (h : best_listed R W name reqs = .ok (some best)) : Listed R W name reqs best := by
  rw [best_listed] at h
  split at h
  · cases h
  · split at h
    · cases h
    · obtain ⟨hmem, hsat⟩ := best_match_some h
      exact ⟨‹_›, hsat, _, ‹_›, hmem⟩

theorem best_listed_none {name : Text} {reqs : List Text} (h : best_listed R W name reqs = .ok none)
    (version : Text) : ¬Listed R W name reqs version := by
  rintro ⟨hne, hsat, versions, hlisted, hmem⟩
  rw [best_listed, if_neg hne, hlisted] at h
  exact best_match_none h hmem hsat

/-- What one turn does. -/
inductive Turn (R : Reginold) (W : World) (force : Bool) (dep : Dep) (s : Resolver) : Resolver → Prop
  | mapped (h : s.maps dep.name = true) : Turn R W force dep s s
  | path (h : dep.path.isSome = true) :
      Turn R W force dep s ((s.set dep.name (Resolver.path_version dep (W.bundle_load_path_spec dep))).enqueue_runtime_deps
        (W.bundle_load_path_spec dep) dep.groups)
  | git (hpath : dep.path = none) (h : dep.git.isSome = true) : Turn R W force dep s s
  | found (spec : Spec) (hpath : dep.path = none) (hgit : dep.git = none) (hforce : force = false)
      (hinstalled : s.installed dep.name = some spec) (hkeeps : Keeps R dep.reqs spec.version) :
      Turn R W force dep s ((s.set dep.name spec.version).enqueue_runtime_deps (some spec) dep.groups)
  | missing (error : Text) (hpath : dep.path = none) (hgit : dep.git = none) :
      Turn R W force dep s { s with errors := s.errors ++ [error] }
  | fetched (version : Text) (hpath : dep.path = none) (hgit : dep.git = none)
      (hversion : Listed R W dep.name dep.reqs version ∨
        (W.latest dep.name = some version ∧ (∀ other, ¬Listed R W dep.name dep.reqs other) ∧
          (force = false → ∀ spec, s.installed dep.name = some spec → ¬Keeps R dep.reqs spec.version))) :
      Turn R W force dep s (((s.install W dep.name version).set dep.name version).enqueue_runtime_deps
        (some (W.published dep.name version)) dep.groups)

theorem fetch_version_some {found : Option Spec} {name : Text} {reqs : List Text} {version : Text}
    (hfound : accepted R reqs (if force then none else found) = .ok none)
    (h : fetch_version R W found name reqs force = .ok (some version)) :
    Listed R W name reqs version ∨
      (W.latest name = some version ∧ ∀ other, ¬Listed R W name reqs other) := by
  rw [fetch_version, hfound] at h
  cases hbest : best_listed R W name reqs with
  | error e => simp [hbest, bind, Except.bind] at h
  | ok best =>
    cases best with
    | none =>
      refine .inr ⟨?_, best_listed_none hbest⟩
      simpa [hbest, bind, Except.bind] using h
    | some best =>
      obtain rfl : best = version := by simpa [hbest, bind, Except.bind] using h
      exact .inl (best_listed_some hbest)

theorem turn_of_take {dep : Dep} {s t : Resolver} (h : Resolver.take R W force dep s = .ok t) : Turn R W force dep s t := by
  rw [Resolver.take] at h
  split at h
  · obtain rfl := Except.ok.inj h
    exact .mapped ‹_›
  · split at h
    · obtain rfl := Except.ok.inj h
      exact .path ‹_›
    · have hpath : dep.path = none := by simpa using ‹¬dep.path.isSome = true›
      split at h
      · obtain rfl := Except.ok.inj h
        exact .git hpath ‹_›
      · have hgit : dep.git = none := by simpa using ‹¬dep.git.isSome = true›
        cases hacc : accepted R dep.reqs (if force then none else s.installed dep.name) with
        | error e => simp [hacc, bind, Except.bind] at h
        | ok candidate =>
          cases candidate with
          | some spec =>
            obtain rfl : _ = t := by simpa [hacc, bind, Except.bind] using h
            obtain ⟨hfound, hkeeps⟩ := accepted_some hacc
            cases force with
            | true => cases hfound
            | false => exact .found spec hpath hgit rfl hfound hkeeps
          | none =>
            cases hfetch : fetch_version R W (s.installed dep.name) dep.name dep.reqs force with
            | error e => simp [hacc, hfetch, bind, Except.bind] at h
            | ok version =>
              cases version with
              | none =>
                obtain rfl : _ = t := by simpa [hacc, hfetch, bind, Except.bind] using h
                exact .missing _ hpath hgit
              | some version =>
                obtain rfl : _ = t := by simpa [hacc, hfetch, bind, Except.bind] using h
                refine .fetched version hpath hgit ((fetch_version_some hacc hfetch).imp id fun h => ⟨h.1, h.2, ?_⟩)
                rintro rfl spec hspec
                exact accepted_none hacc (by simpa using hspec)

variable (W config ds) in
/-- What holds before every turn. -/
structure Invariant (s : Resolver) : Prop where
  nodup : (s.queue.map Dep.name).Nodup
  queued : ∀ d ∈ s.queue, d.name ∈ s.queued
  active_queued : ∀ d ∈ W.active_dependencies config ds, d.name ∈ s.queued
  fresh : ∀ d ∈ s.queue, ¬s.maps d.name = true
  mapped_queued : ∀ name, s.maps name = true → name ∈ s.queued
  origin : ∀ d ∈ s.queue, d ∈ W.active_dependencies config ds ∨
    (d.path = none ∧ d.git = none ∧ d.spec = none ∧ d.name ∉ (W.active_dependencies config ds).map Dep.name)
  known : ∀ name spec, s.installed name = some spec → ∀ rdep ∈ spec.runtime_dependencies, rdep.1 ∈ W.names
  followed : ∀ name, s.maps name = true → ∀ rdep ∈ runtime_dependencies (spec_of W config ds s.installed name), rdep.1 ∈ s.queued
  settled : ∀ name ∈ s.queued, name ∈ s.queue.map Dep.name ∨ s.maps name = true ∨ GitDeclared ds name ∨ s.errors ≠ []

theorem initial_invariant (W : World) (config : Config) (ds : List Dep) :
    Invariant W config ds (initial W config ds) := by
  have h := active_collected W config ds
  refine ⟨h.nodup, ?_, ?_, ?_, ?_, ?_, W.found_names, ?_, ?_⟩
  · exact fun d hd => List.mem_map_of_mem hd
  · exact fun d hd => List.mem_map_of_mem hd
  · simp [initial, Resolver.maps]
  · simp [initial, Resolver.maps]
  · exact fun d hd => .inl hd
  · simp [initial, Resolver.maps]
  · exact fun name hname => .inl hname

@[simp] theorem maps_set {s : Resolver} {name version other : Text} :
    (s.set name version).maps other = (s.maps other || name = other) := by
  simp [Resolver.maps, Resolver.set]

/-- A dependency that was taken from the queue is the one of its name that has the path, if one has. -/
theorem Invariant.path_gem {s : Resolver} (h : Invariant W config ds s) {dep : Dep} (hdep : dep ∈ s.queue) :
    path_gem W config ds dep.name = if dep.path.isSome then some dep else none := by
  have hactive := (active_collected W config ds).nodup
  rw [bundle.path_gem]
  rcases h.origin dep hdep with hmem | ⟨hpath, _, _, hnew⟩
  · have hunique : ∀ d ∈ W.active_dependencies config ds, d.name = dep.name → d = dep :=
      fun d hd hname => List.inj_on_of_nodup_map hactive hd hmem hname
    split
    · cases hfind : (W.active_dependencies config ds).find? fun d => d.name = dep.name && d.path.isSome with
      | none =>
        rw [List.find?_eq_none] at hfind
        have := hfind dep hmem
        simp_all
      | some d =>
        have hd := List.find?_some hfind
        rw [Bool.and_eq_true, decide_eq_true_eq] at hd
        rw [hunique d (List.mem_of_find?_eq_some hfind) hd.1]
    · rw [List.find?_eq_none]
      intro d hd hboth
      rw [Bool.and_eq_true, decide_eq_true_eq] at hboth
      exact ‹¬_› (hunique d hd hboth.1 ▸ hboth.2)
  · rw [hpath, List.find?_eq_none.mpr]
    · rfl
    · intro d hd hboth
      rw [Bool.and_eq_true, decide_eq_true_eq] at hboth
      exact hnew (List.mem_map.mpr ⟨d, hd, hboth.1⟩)

/-- A gem is mapped, and what it depends on is queued. -/
theorem Invariant.map_gem {s t : Resolver} {dep : Dep} {rest : List Dep} (h : Invariant W config ds s)
    (hqueue : s.queue = dep :: rest) {version : Text} {spec : Option Spec} (installed : Text → Option Spec) (count : Nat)
    (hknown : ∀ name spec, installed name = some spec → ∀ rdep ∈ spec.runtime_dependencies, rdep.1 ∈ W.names)
    (hothers : ∀ name, s.maps name = true → installed name = s.installed name)
    (hspec : spec_of W config ds installed dep.name = spec)
    (ht : t = Resolver.enqueue_runtime_deps spec dep.groups
      (Resolver.set { s with queue := rest, installed, new_installed := count } dep.name version)) :
    Invariant W config ds t := by
  obtain ⟨added, hadd, hnodup, hadded, hall⟩ := enqueue_spec spec dep.groups
    (Resolver.set { s with queue := rest, installed, new_installed := count } dep.name version)
  rw [hadd] at ht
  have hdep : dep ∈ s.queue := by simp [hqueue]
  have hmaps (name : Text) : t.maps name = true ↔ s.maps name = true ∨ dep.name = name := by
    subst ht
    simp [Resolver.maps, Resolver.set]
  have hqueued (name : Text) : name ∈ t.queued ↔ name ∈ added.map Dep.name ∨ name ∈ s.queued := by
    subst ht
    simp [Resolver.set]
  have htqueue : t.queue = rest ++ added := by rw [ht]; rfl
  have htinstalled : t.installed = installed := by rw [ht]; rfl
  have hnodups : (dep.name :: rest.map Dep.name).Nodup := by
    have := h.nodup
    rwa [hqueue, List.map_cons] at this
  refine ⟨?_, ?_, ?_, ?_, ?_, ?_, ?_, ?_, ?_⟩
  · rw [htqueue, List.map_append]
    refine List.nodup_append.mpr ⟨(List.nodup_cons.mp hnodups).2, hnodup, ?_⟩
    rintro n hn m hm rfl
    obtain ⟨d, hd, rfl⟩ := List.mem_map.mp hn
    obtain ⟨e, he, hname⟩ := List.mem_map.mp hm
    exact (hadded e he).2.2.2.1 (hname ▸ h.queued d (by simp [hqueue, hd]))
  · intro d hd
    rw [htqueue] at hd
    rw [hqueued]
    rcases List.mem_append.mp hd with hd | hd
    · exact .inr (h.queued d (by simp [hqueue, hd]))
    · exact .inl (List.mem_map_of_mem hd)
  · exact fun d hd => (hqueued _).mpr (.inr (h.active_queued d hd))
  · intro d hd hmapped
    rw [htqueue] at hd
    rw [hmaps] at hmapped
    rcases List.mem_append.mp hd with hd | hd
    · rcases hmapped with hmapped | hname
      · exact h.fresh d (by simp [hqueue, hd]) hmapped
      · exact (List.nodup_cons.mp hnodups).1 (hname ▸ List.mem_map_of_mem hd)
    · have := (hadded d hd).2.2.2.2.1
      simp only [maps_set, Bool.or_eq_true, decide_eq_true_eq] at this
      exact this hmapped
  · intro name hmapped
    rw [hqueued]
    rcases (hmaps name).mp hmapped with hmapped | rfl
    · exact .inr (h.mapped_queued name hmapped)
    · exact .inr (h.queued dep hdep)
  · intro d hd
    rw [htqueue] at hd
    rcases List.mem_append.mp hd with hd | hd
    · exact h.origin d (by simp [hqueue, hd])
    · obtain ⟨h1, h2, h3, h4, _⟩ := hadded d hd
      refine .inr ⟨h1, h2, h3, fun hmem => h4 ?_⟩
      obtain ⟨e, he, hname⟩ := List.mem_map.mp hmem
      exact hname ▸ h.active_queued e he
  · rw [htinstalled]
    exact hknown
  · intro name hmapped rdep hrdep
    rw [hqueued]
    rw [htinstalled] at hrdep
    rcases (hmaps name).mp hmapped with hmapped | rfl
    · right
      refine h.followed name hmapped rdep ?_
      rw [spec_of] at hrdep ⊢
      rwa [hothers name hmapped] at hrdep
    · rw [hspec] at hrdep
      rcases hall rdep hrdep with hmapped | hnew | hold
      · right
        simp only [maps_set, Bool.or_eq_true, decide_eq_true_eq] at hmapped
        rcases hmapped with hmapped | hname
        · exact h.mapped_queued _ hmapped
        · exact hname ▸ h.queued dep hdep
      · exact .inl hnew
      · exact .inr hold
  · intro name hname
    rw [htqueue, hmaps, List.map_append, List.mem_append]
    rcases (hqueued name).mp hname with hname | hname
    · exact .inl (.inr hname)
    · rcases h.settled name hname with hname | hmapped | hgit | herrors
      · rw [hqueue, List.map_cons, List.mem_cons] at hname
        rcases hname with rfl | hname
        · exact .inr (.inl (.inr rfl))
        · exact .inl (.inl hname)
      · exact .inr (.inl (.inl hmapped))
      · exact .inr (.inr (.inl hgit))
      · exact .inr (.inr (.inr (by rw [ht]; exact herrors)))

/-- A gem is left out, with an error or because its source is not supported. -/
theorem Invariant.leave {s : Resolver} {dep : Dep} {rest : List Dep} (h : Invariant W config ds s)
    (hqueue : s.queue = dep :: rest) {errors : List Text} (herrors : s.errors ≠ [] → errors ≠ [])
    (hleft : GitDeclared ds dep.name ∨ errors ≠ []) : Invariant W config ds { s with queue := rest, errors } := by
  have hrest (d : Dep) (hd : d ∈ rest) : d ∈ s.queue := by simp [hqueue, hd]
  have hnodup := h.nodup
  rw [hqueue, List.map_cons] at hnodup
  refine ⟨(List.nodup_cons.mp hnodup).2, fun d hd => h.queued d (hrest d hd), h.active_queued,
    fun d hd => h.fresh d (hrest d hd), h.mapped_queued, fun d hd => h.origin d (hrest d hd), h.known, h.followed,
    fun name hname => ?_⟩
  rcases h.settled name hname with hname | hmapped | hgit | hold
  · rw [hqueue, List.map_cons, List.mem_cons] at hname
    rcases hname with rfl | hname
    · exact .inr (.inr hleft)
    · exact .inl hname
  · exact .inr (.inl hmapped)
  · exact .inr (.inr (.inl hgit))
  · exact .inr (.inr (.inr (herrors hold)))

theorem Invariant.origin_of {s : Resolver} (h : Invariant W config ds s) {dep : Dep} (hdep : dep ∈ s.queue) :
    Origin W ds dep := by
  rcases h.origin dep hdep with hmem | ⟨_, hgit, hspec, _⟩
  · exact (active_collected W config ds).origin dep hmem
  · exact ⟨by simp [hgit], by simp [hspec, runtime_dependencies]⟩

theorem Invariant.turn {s t : Resolver} {dep : Dep} {rest : List Dep} (h : Invariant W config ds s)
    (hqueue : s.queue = dep :: rest) (hturn : Turn R W force dep { s with queue := rest } t) :
    Invariant W config ds t := by
  have hdep : dep ∈ s.queue := by simp [hqueue]
  have hgem := h.path_gem hdep
  cases hturn with
  | mapped hmapped => exact absurd hmapped (h.fresh dep hdep)
  | path hpath =>
    refine h.map_gem hqueue s.installed s.new_installed h.known (fun _ _ => rfl) ?_ rfl
    rw [spec_of, hgem, if_pos hpath]
  | git hpath hgit => exact h.leave hqueue id (.inl ((h.origin_of hdep).git hgit))
  | found spec hpath hgit hforce hinstalled hkeeps =>
    refine h.map_gem hqueue s.installed s.new_installed h.known (fun _ _ => rfl) ?_ rfl
    rw [spec_of, hgem, hpath]
    exact hinstalled
  | missing error hpath hgit => exact h.leave hqueue (by simp) (.inr (by simp))
  | fetched version hpath hgit hversion =>
    refine h.map_gem hqueue
      (fun other => if other = dep.name then some (W.published dep.name version) else s.installed other)
      (s.new_installed + 1) ?_ (fun name hmapped => ?_) ?_ rfl
    · intro name spec hspec rdep hrdep
      split at hspec
      · obtain rfl := Option.some.inj hspec
        exact W.published_names _ _ rdep hrdep
      · exact h.known name spec hspec rdep hrdep
    · refine if_neg ?_
      rintro rfl
      exact h.fresh dep hdep hmapped
    · rw [spec_of, hgem, hpath]
      exact if_pos rfl

/-- How many gems may still be taken. -/
def todo (W : World) (ds : List Dep) (s : Resolver) : Nat :=
  ((all_names W ds).filter (· ∉ s.queued)).length + s.queue.length

theorem filter_added (names queued : List Text) {added : List Text} (hnodup : added.Nodup)
    (hadded : ∀ n ∈ added, n ∈ names ∧ n ∉ queued) :
    (names.filter (· ∉ added.reverse ++ queued)).length + added.length ≤ (names.filter (· ∉ queued)).length := by
  have hpart := List.length_eq_length_filter_add (l := names.filter (· ∉ queued)) (f := (· ∈ added))
  have hle : added.length ≤ ((names.filter (· ∉ queued)).filter (· ∈ added)).length := by
    refine (hnodup.subperm fun n hn => ?_).length_le
    simp [hadded n hn, hn]
  have hsame : names.filter (· ∉ added.reverse ++ queued) =
      (names.filter (· ∉ queued)).filter fun n => !decide (n ∈ added) := by
    rw [List.filter_filter]
    refine List.filter_congr fun n _ => ?_
    simp
  rw [hsame]
  omega

theorem todo_enqueue (spec : Option Spec) (groups : List Text) (s : Resolver)
    (hspec : ∀ rdep ∈ runtime_dependencies spec, rdep.1 ∈ all_names W ds) :
    todo W ds (s.enqueue_runtime_deps spec groups) ≤ todo W ds s := by
  obtain ⟨added, hadd, hnodup, hadded, _⟩ := enqueue_spec spec groups s
  have hle := filter_added (all_names W ds) s.queued hnodup fun n hn => by
    obtain ⟨d, hd, rfl⟩ := List.mem_map.mp hn
    obtain ⟨_, _, _, hnew, _, rdep, hrdep, hname⟩ := hadded d hd
    exact ⟨hname ▸ hspec rdep hrdep, hnew⟩
  rw [hadd, todo, todo]
  simp only [List.length_append]
  rw [List.length_map] at hle
  omega

theorem Invariant.todo_turn {s t : Resolver} {dep : Dep} {rest : List Dep} (h : Invariant W config ds s)
    (hqueue : s.queue = dep :: rest) (hturn : Turn R W force dep { s with queue := rest } t) :
    todo W ds t < todo W ds s := by
  have hdep : dep ∈ s.queue := by simp [hqueue]
  have hpop : todo W ds { s with queue := rest } < todo W ds s := by simp [todo, hqueue]
  refine Nat.lt_of_le_of_lt ?_ hpop
  have hnames {name : Text} (hname : name ∈ W.names) : name ∈ all_names W ds := List.mem_append_left _ hname
  cases hturn with
  | mapped => exact Nat.le_refl _
  | path => exact todo_enqueue _ _ _ (path_spec_known (h.origin_of hdep))
  | git => exact Nat.le_refl _
  | found spec _ _ _ hinstalled => exact todo_enqueue _ _ _ fun rdep hrdep => hnames (h.known _ _ hinstalled rdep hrdep)
  | missing => exact Nat.le_refl _
  | fetched version => exact todo_enqueue _ _ _ fun rdep hrdep => hnames (W.published_names _ _ rdep hrdep)

variable (R W force) in
/-- One turn of the loop. -/
def Next (s t : Resolver) : Prop :=
  ∃ dep rest, s.queue = dep :: rest ∧ Resolver.take R W force dep { s with queue := rest } = .ok t

theorem Invariant.next {s t : Resolver} (h : Invariant W config ds s) (hnext : Next R W force s t) :
    Invariant W config ds t ∧ todo W ds t < todo W ds s := by
  obtain ⟨dep, rest, hqueue, htake⟩ := hnext
  have hturn := turn_of_take htake
  exact ⟨h.turn hqueue hturn, h.todo_turn hqueue hturn⟩

/-- The loop ends: each turn leaves fewer gems to be taken. -/
theorem Invariant.loop_ends {s : Resolver} (h : Invariant W config ds s) {count : Nat} (hcount : todo W ds s < count) :
    s.loop R W force count ≠ .ok none := by
  induction count generalizing s with
  | zero => omega
  | succ count ih =>
    rw [Resolver.loop]
    cases hqueue : s.queue with
    | nil => nofun
    | cons dep rest =>
      cases htake : Resolver.take R W force dep { s with queue := rest } with
      | error e => simp [htake, bind, Except.bind]
      | ok t =>
        obtain ⟨ht, hless⟩ := h.next ⟨dep, rest, hqueue, htake⟩
        simp only [htake, bind, Except.bind]
        exact ih ht (by omega)

theorem loop_reaches {s t : Resolver} {count : Nat} (h : s.loop R W force count = .ok (some t)) :
    Relation.ReflTransGen (Next R W force) s t ∧ t.queue = [] := by
  induction count generalizing s with
  | zero => cases h
  | succ count ih =>
    rw [Resolver.loop] at h
    cases hqueue : s.queue with
    | nil =>
      rw [hqueue] at h
      obtain rfl := Option.some.inj (Except.ok.inj h)
      exact ⟨.refl, hqueue⟩
    | cons dep rest =>
      rw [hqueue] at h
      cases htake : Resolver.take R W force dep { s with queue := rest } with
      | error e => simp [htake, bind, Except.bind] at h
      | ok next =>
        simp only [htake, bind, Except.bind] at h
        obtain ⟨hreach, hempty⟩ := ih h
        exact ⟨.head ⟨dep, rest, hqueue, htake⟩ hreach, hempty⟩

end steps

section soundness

variable {R : Reginold} {W : World} {config : Config} {ds : List Dep} {force : Bool}

variable (R W config ds) in
/-- A requirement on a gem that the Gemfile states, or a gem that is mapped. -/
def Stated (s : Resolver) (name : Text) (r : Requirement) : Prop :=
  (∃ d ∈ ds, d.name = name ∧ d.reqs ≠ [] ∧ r = R.requirement_new d.reqs) ∨
    ∃ gem, s.maps gem = true ∧ (name, r) ∈ runtime_dependencies (spec_of W config ds s.installed gem)

variable (R W config ds) in
/-- The versions that gems are mapped to satisfy all that is stated on them. -/
def VersionsFit (s : Resolver) : Prop :=
  ∀ name version, (name, version) ∈ s.resolved → path_gem W config ds name = none → ¬GitDeclared ds name →
    ∀ r, Stated R W config ds s name r → R.Satisfied r version

variable (W config ds) in
/-- What mapped gems depend on is mapped. -/
def Closed (s : Resolver) : Prop :=
  ∀ gem, s.maps gem = true → ∀ rdep ∈ runtime_dependencies (spec_of W config ds s.installed gem),
    ¬GitDeclared ds rdep.1 → s.maps rdep.1 = true

variable (R W config ds force) in
/-- The resolution ends, and a map that it returns is closed and has versions that fit. -/
def ResolutionSound : Prop :=
  (∃ enough, ∀ count ≥ enough, resolve R W config force count ds ≠ .ok none) ∧
    ∀ count s map installed, resolve R W config force count ds = .ok (some s) → s.outcome = some (map, installed) →
      VersionsFit R W config ds s ∧ Closed W config ds s

variable (W force) in
/-- A gemspec that a gem taken from the queue may bring: that of its path, or one that
is available and that the requirements kept for it accept. -/
def MayBring (R : Reginold) (s : Resolver) (dep : Dep) (spec : Spec) : Prop :=
  if dep.path.isSome then W.bundle_load_path_spec dep = some spec
  else dep.git = none ∧ Available W force s dep.name spec ∧ Keeps R dep.reqs spec.version

variable (R W config ds force) in
/-- What has to be true when a gem is taken from the queue: what was stated on it so far
follows from the requirements that are kept for it; some version satisfies these, or at
least the latest does; and what it states itself is satisfied where it is too late. -/
structure Meets (s : Resolver) (dep : Dep) : Prop where
  kept : dep.path = none → ¬GitDeclared ds dep.name → ∀ spec, MayBring W force R s dep spec →
    ∀ r, Stated R W config ds s dep.name r → R.Satisfied r spec.version
  matched : dep.path = none → dep.git = none →
    (force = false ∧ ∃ spec, s.installed dep.name = some spec ∧ Keeps R dep.reqs spec.version) ∨
      (∃ version, Listed R W dep.name dep.reqs version) ∨
      ∀ version, W.latest dep.name = some version → Keeps R dep.reqs version
  later : ∀ spec, MayBring W force R s dep spec → ∀ rdep ∈ spec.runtime_dependencies,
    path_gem W config ds rdep.1 = none → ¬GitDeclared ds rdep.1 →
      (∀ version, (rdep.1, version) ∈ s.resolved → R.Satisfied rdep.2 version) ∧
        (rdep.1 = dep.name → R.Satisfied rdep.2 spec.version)

theorem mem_resolved_set {s : Resolver} {name version other v : Text} :
    (other, v) ∈ (s.set name version).resolved ↔ (other, v) ∈ s.resolved ∨ (other = name ∧ v = version) := by
  simp [Resolver.set]

theorem maps_of_mem {s : Resolver} {name version : Text} (h : (name, version) ∈ s.resolved) : s.maps name = true := by
  rw [Resolver.maps, List.any_eq_true]
  exact ⟨_, h, by simp⟩

theorem enqueue_fields (spec : Option Spec) (groups : List Text) (s : Resolver) :
    (s.enqueue_runtime_deps spec groups).resolved = s.resolved ∧
      (s.enqueue_runtime_deps spec groups).installed = s.installed := by
  obtain ⟨added, hadd, _⟩ := enqueue_spec spec groups s
  rw [hadd]
  exact ⟨rfl, rfl⟩

theorem maps_enqueue (spec : Option Spec) (groups : List Text) (s : Resolver) (name : Text) :
    (s.enqueue_runtime_deps spec groups).maps name = s.maps name := by
  rw [Resolver.maps, Resolver.maps, (enqueue_fields spec groups s).1]

/-- A gem is mapped to a version. -/
theorem VersionsFit.map_gem {s t : Resolver} {dep : Dep} {rest : List Dep} {version : Text} {spec : Option Spec}
    (h : VersionsFit R W config ds s) (installed : Text → Option Spec) (count : Nat)
    (hothers : ∀ other, s.maps other = true → installed other = s.installed other)
    (hspec : spec_of W config ds installed dep.name = spec)
    (hold : ∀ rdep ∈ runtime_dependencies spec, path_gem W config ds rdep.1 = none → ¬GitDeclared ds rdep.1 →
      ∀ v, (rdep.1, v) ∈ s.resolved → R.Satisfied rdep.2 v)
    (hnew : path_gem W config ds dep.name = none → ¬GitDeclared ds dep.name →
      (∀ r, Stated R W config ds s dep.name r → R.Satisfied r version) ∧
        ∀ rdep ∈ runtime_dependencies spec, rdep.1 = dep.name → R.Satisfied rdep.2 version)
    (ht : t = Resolver.enqueue_runtime_deps spec dep.groups
      (Resolver.set { s with queue := rest, installed, new_installed := count } dep.name version)) :
    VersionsFit R W config ds t := by
  have hresolved (other v : Text) :
      (other, v) ∈ t.resolved ↔ (other, v) ∈ s.resolved ∨ (other = dep.name ∧ v = version) := by
    rw [ht, (enqueue_fields _ _ _).1, mem_resolved_set]
  have hmaps (other : Text) : t.maps other = true ↔ s.maps other = true ∨ dep.name = other := by
    rw [ht, maps_enqueue, maps_set]
    simp [Resolver.maps]
  have hinstalled : t.installed = installed := by
    rw [ht, (enqueue_fields _ _ _).2]
    rfl
  intro other v hmem hpath hgit r hstated
  -- what is stated now was stated before, or is stated by the gem that is mapped
  have hstated : Stated R W config ds s other r ∨ (other, r) ∈ runtime_dependencies spec := by
    rcases hstated with hgemfile | ⟨gem, hgem, hrdep⟩
    · exact .inl (.inl hgemfile)
    · rw [hinstalled] at hrdep
      rcases (hmaps gem).mp hgem with hgem | rfl
      · refine .inl (.inr ⟨gem, hgem, ?_⟩)
        rw [spec_of] at hrdep ⊢
        rwa [hothers gem hgem] at hrdep
      · rw [hspec] at hrdep
        exact .inr hrdep
  rcases (hresolved other v).mp hmem with hmem | ⟨rfl, rfl⟩
  · rcases hstated with hstated | hrdep
    · exact h other v hmem hpath hgit r hstated
    · exact hold _ hrdep hpath hgit v hmem
  · obtain ⟨hbefore, hself⟩ := hnew hpath hgit
    rcases hstated with hstated | hrdep
    · exact hbefore r hstated
    · exact hself _ hrdep rfl

/-- The version that is fetched is available, and one that the kept requirements accept. -/
theorem Meets.fetched {s : Resolver} {dep : Dep} (h : Meets R W config ds force s dep) (hpath : dep.path = none)
    (hgit : dep.git = none) {version : Text}
    (hversion : Listed R W dep.name dep.reqs version ∨
      (W.latest dep.name = some version ∧ (∀ other, ¬Listed R W dep.name dep.reqs other) ∧
        (force = false → ∀ spec, s.installed dep.name = some spec → ¬Keeps R dep.reqs spec.version))) :
    MayBring W force R s dep (W.published dep.name version) := by
  rw [MayBring, hpath]
  refine ⟨hgit, .inr ⟨version, rfl, ?_⟩, ?_⟩
  · rcases hversion with ⟨_, _, hlisted⟩ | ⟨hlatest, _⟩
    · exact .inl hlisted
    · exact .inr hlatest
  · rw [W.published_version]
    rcases hversion with ⟨_, hsat, _⟩ | ⟨hlatest, hnone, hinstalled⟩
    · exact .inr hsat
    · rcases h.matched hpath hgit with ⟨hforce, spec, hspec, hkeeps⟩ | ⟨other, hlisted⟩ | hlatests
      · exact absurd hkeeps (hinstalled hforce spec hspec)
      · exact absurd hlisted (hnone other)
      · exact hlatests version hlatest

theorem VersionsFit.turn {s t : Resolver} {dep : Dep} {rest : List Dep} (h : VersionsFit R W config ds s)
    (hinv : Invariant W config ds s) (hqueue : s.queue = dep :: rest) (hmeets : Meets R W config ds force s dep)
    (hturn : Turn R W force dep { s with queue := rest } t) : VersionsFit R W config ds t := by
  have hdep : dep ∈ s.queue := by simp [hqueue]
  have hgem := hinv.path_gem hdep
  cases hturn with
  | mapped hmapped => exact absurd hmapped (hinv.fresh dep hdep)
  | git => exact h
  | missing => exact h
  | path hpath =>
    have hspec : spec_of W config ds s.installed dep.name = W.bundle_load_path_spec dep := by
      rw [spec_of, hgem, if_pos hpath]
    refine h.map_gem s.installed s.new_installed (fun _ _ => rfl) hspec ?_ (fun hnone => ?_) rfl
    · intro rdep hrdep hnone hgit v hmem
      cases hload : W.bundle_load_path_spec dep with
      | none => simp [hload, runtime_dependencies] at hrdep
      | some spec =>
        have hrdep : rdep ∈ spec.runtime_dependencies := by simpa [hload, runtime_dependencies] using hrdep
        have hbring : MayBring W force R s dep spec := by rwa [MayBring, if_pos hpath]
        exact (hmeets.later spec hbring rdep hrdep hnone hgit).1 v hmem
    · rw [hgem, if_pos hpath] at hnone
      cases hnone
  | found spec hpath hgit hforce hinstalled hkeeps =>
    have hspec : spec_of W config ds s.installed dep.name = some spec := by
      rw [spec_of, hgem, hpath]
      exact hinstalled
    have hbring : MayBring W force R s dep spec := by
      rw [MayBring, hpath]
      exact ⟨hgit, .inl ⟨hforce, hinstalled⟩, hkeeps⟩
    refine h.map_gem s.installed s.new_installed (fun _ _ => rfl) hspec ?_ (fun _ hnogit => ⟨?_, ?_⟩) rfl
    · exact fun rdep hrdep hnone hgit v hmem => (hmeets.later spec hbring rdep hrdep hnone hgit).1 v hmem
    · exact hmeets.kept hpath hnogit spec hbring
    · intro rdep hrdep hname
      have hnone : path_gem W config ds rdep.1 = none := by rw [hname, hgem, hpath]; rfl
      exact (hmeets.later spec hbring rdep hrdep hnone (hname ▸ hnogit)).2 hname
  | fetched version hpath hgit hversion =>
    have hbring := hmeets.fetched hpath hgit hversion
    refine h.map_gem (fun other => if other = dep.name then some (W.published dep.name version) else s.installed other)
      (s.new_installed + 1) (fun other hmapped => if_neg ?_) ?_ ?_ (fun _ hnogit => ⟨?_, ?_⟩) rfl
    · rintro rfl
      exact hinv.fresh dep hdep hmapped
    · rw [spec_of, hgem, hpath]
      exact if_pos rfl
    · exact fun rdep hrdep hnone hgit v hmem => (hmeets.later _ hbring rdep hrdep hnone hgit).1 v hmem
    · intro r hstated
      have := hmeets.kept hpath hnogit _ hbring r hstated
      rwa [W.published_version] at this
    · intro rdep hrdep hname
      have hnone : path_gem W config ds rdep.1 = none := by rw [hname, hgem, hpath]; rfl
      have := (hmeets.later _ hbring rdep hrdep hnone (hname ▸ hnogit)).2 hname
      rwa [W.published_version] at this

theorem run_invariant {s : Resolver} (h : Relation.ReflTransGen (Next R W force) (initial W config ds) s) :
    Invariant W config ds s := by
  induction h with
  | refl => exact initial_invariant W config ds
  | tail _ hnext ih => exact (ih.next hnext).1

/-- In a run whose turns all meet the conditions, the versions fit in every state. -/
theorem run_versionsFit
    (hmeets : ∀ s, Relation.ReflTransGen (Next R W force) (initial W config ds) s →
      ∀ dep ∈ s.queue.head?, Meets R W config ds force s dep)
    {s : Resolver} (h : Relation.ReflTransGen (Next R W force) (initial W config ds) s) : VersionsFit R W config ds s := by
  induction h with
  | refl => simp [VersionsFit, initial]
  | tail hreach hnext ih =>
    obtain ⟨dep, rest, hqueue, htake⟩ := hnext
    exact ih.turn (run_invariant hreach) hqueue (hmeets _ hreach dep (by simp [hqueue])) (turn_of_take htake)

/-- When nothing is queued any more, what mapped gems depend on is mapped. -/
theorem Invariant.closed {s : Resolver} (h : Invariant W config ds s) (hqueue : s.queue = []) (herrors : s.errors = []) :
    Closed W config ds s := by
  intro gem hgem rdep hrdep hgit
  rcases h.settled _ (h.followed gem hgem rdep hrdep) with hname | hmapped | hgit' | hne
  · simp [hqueue] at hname
  · exact hmapped
  · exact absurd hgit' hgit
  · exact absurd herrors hne

/-- A world of installed gems alone. -/
def offline (gems : List (Text × Spec)) : World where
  path_spec _ := none
  found name := (gems.find? fun gem => gem.1 = name).map Prod.snd
  listed _ := none
  latest _ := none
  published _ version := ⟨version, []⟩
  published_version _ _ := rfl
  names := gems.flatMap fun gem => gem.2.runtime_dependencies.map Prod.fst
  path_names := nofun
  found_names name spec h rdep hrdep := by
    obtain ⟨gem, hgem, rfl⟩ := Option.map_eq_some_iff.mp h
    exact List.mem_flatMap.mpr ⟨gem, List.mem_of_find?_eq_some hgem, List.mem_map_of_mem hrdep⟩
  published_names := nofun

/-- `gem name, *reqs` -/
def gem (name : String) (reqs : List String) : Dep :=
  { name := bytes_of name, reqs := reqs.map bytes_of, path := none, git := none, groups := [], spec := none,
    from_gemspec := false }

def all_groups : Config := ⟨[], []⟩

/-- One gem that is installed, and the Gemfile that declares it. -/
def one_gem : World := offline [(bytes_of "c", ⟨bytes_of "1", []⟩)]
def one : Dep := gem "c" [">= 1"]

/-- Two gems that require different versions of a third. -/
def conflicting : World := offline
  [(bytes_of "a", ⟨bytes_of "1", [(bytes_of "c", [(Operator.ge.text, bytes_of "1")])]⟩),
    (bytes_of "b", ⟨bytes_of "1", [(bytes_of "c", [(Operator.eq.text, bytes_of "2")])]⟩),
    (bytes_of "c", ⟨bytes_of "1", []⟩)]

/-- The resolution maps b and the version of c that b refuses. -/
def maps_refused : Bool :=
  match resolve matcher conflicting all_groups false 4 [gem "a" [], gem "b" []] with
  | .ok (some s) => s.outcome.isSome && s.maps (bytes_of "b") && decide ((bytes_of "c", bytes_of "1") ∈ s.resolved) &&
      decide ((bytes_of "c", [(Operator.eq.text, bytes_of "2")]) ∈ runtime_dependencies
        (spec_of conflicting all_groups [gem "a" [], gem "b" []] s.installed (bytes_of "b")))
  | _ => false

end soundness

end stoned.bundle
