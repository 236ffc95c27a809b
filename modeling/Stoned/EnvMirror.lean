import Stoned.HashUnique

namespace stoned.hashes

open stoned.program (Triple Invariant)

/-! The process environment mirrors the hash `ENV`. -/

def text (key : HashKey) : Option String :=
  match key.value with
  | .string sval .. => some sval
  | _ => none

/-- The keys and values are strings, the keys different ones, and a name is set
exactly when it is a key, with that value. -/
structure Mirrors (pairs : List (HashKey × HashKey)) (environ : String → Option String) : Prop where
  strings : ∀ pair ∈ pairs, (text pair.1).isSome ∧ (text pair.2).isSome
  distinct : pairs.Pairwise fun p q => text p.1 ≠ text q.1
  set : ∀ name value, environ name = some value ↔ ∃ pair ∈ pairs, text pair.1 = some name ∧ text pair.2 = some value

/-- A name that setenv and unsetenv take as it is. -/
structure IsName (name : String) : Prop where
  nonempty : name.isEmpty = false
  no_equals : name.toList.contains '=' = false
  no_nul : c_string name = name

section
variable {pairs before after : List (HashKey × HashKey)} {environ : String → Option String}
  {key stored old val : HashKey} {name value : String}

theorem distinct_middle (hdistinct : (before ++ (stored, old) :: after).Pairwise fun p q => text p.1 ≠ text q.1) :
    (before ++ after).Pairwise (fun p q => text p.1 ≠ text q.1) ∧
      ∀ pair ∈ before ++ after, text pair.1 ≠ text stored := by
  rw [List.pairwise_append, List.pairwise_cons] at hdistinct
  obtain ⟨hbefore, ⟨hstored, hafter⟩, hacross⟩ := hdistinct
  constructor
  · rw [List.pairwise_append]
    exact ⟨hbefore, hafter, fun p hp q hq => hacross p hp q (List.mem_cons_of_mem _ hq)⟩
  · intro pair hpair
    obtain hpair | hpair := List.mem_append.mp hpair
    · exact hacross pair hpair _ List.mem_cons_self
    · exact (hstored pair hpair).symm

theorem distinct_of_names {others : List (HashKey × HashKey)}
    (hdistinct : pairs.Pairwise fun p q => text p.1 ≠ text q.1)
    (hnames : others.map (fun pair => text pair.1) = pairs.map fun pair => text pair.1) :
    others.Pairwise fun p q => text p.1 ≠ text q.1 := by
  have hpairwise := List.pairwise_map.mpr hdistinct
  rw [← hnames] at hpairwise
  exact List.pairwise_map.mp hpairwise

/-- A pair is put in the place of what was there under its name. -/
theorem mirrors_put {others : List (HashKey × HashKey)}
    (hm : Mirrors others fun other => if other = name then none else environ other)
    (hkey : text key = some name) (hval : text val = some value)
    (hpairs : ∀ pair, pair ∈ pairs ↔ pair ∈ others ∨ pair = (key, val))
    (hdistinct : pairs.Pairwise fun p q => text p.1 ≠ text q.1) :
    Mirrors pairs fun other => if other = name then some value else environ other where
  strings := by
    intro pair hpair
    obtain hother | rfl := (hpairs pair).mp hpair
    · exact hm.strings pair hother
    · simp [hkey, hval]
  distinct := hdistinct
  set := by
    intro other v
    by_cases hname : other = name
    · subst hname
      have hnone : ∀ v, ¬ ∃ pair ∈ others, text pair.1 = some other ∧ text pair.2 = some v := by
        intro v hfound
        simpa using (hm.set other v).mpr hfound
      simp only [if_true]
      constructor
      · intro hv
        exact ⟨(key, val), (hpairs _).mpr (.inr rfl), hkey, hval.trans hv⟩
      · rintro ⟨pair, hpair, hfirst, hsecond⟩
        obtain hother | rfl := (hpairs pair).mp hpair
        · exact absurd ⟨pair, hother, hfirst, hsecond⟩ (hnone v)
        · exact hval.symm.trans hsecond
    · have hset := hm.set other v
      simp only [if_neg hname] at hset ⊢
      rw [hset]
      constructor
      · rintro ⟨pair, hpair, htexts⟩
        exact ⟨pair, (hpairs pair).mpr (.inl hpair), htexts⟩
      · rintro ⟨pair, hpair, hfirst, hsecond⟩
        obtain hother | rfl := (hpairs pair).mp hpair
        · exact ⟨pair, hother, hfirst, hsecond⟩
        · exact absurd (Option.some.inj (hfirst.symm.trans hkey)) hname

/-- The pair of a name is taken away. -/
theorem mirrors_remove (hm : Mirrors (before ++ (stored, old) :: after) environ) (hname : text stored = some name) :
    Mirrors (before ++ after) fun other => if other = name then none else environ other where
  strings := fun pair hpair => hm.strings pair (by
    obtain hpair | hpair := List.mem_append.mp hpair <;> simp [hpair])
  distinct := (distinct_middle hm.distinct).1
  set := by
    intro other v
    have hothers := (distinct_middle hm.distinct).2
    by_cases hsame : other = name
    · subst hsame
      simp only [if_true]
      constructor
      · nofun
      · rintro ⟨pair, hpair, hfirst, -⟩
        exact absurd (hfirst.trans hname.symm) (hothers pair hpair)
    · simp only [if_neg hsame]
      rw [hm.set other v]
      constructor
      · rintro ⟨pair, hpair, hfirst, hsecond⟩
        have hne : pair ≠ (stored, old) := by
          rintro rfl
          exact hsame (Option.some.inj (hfirst.symm.trans hname))
        refine ⟨pair, ?_, hfirst, hsecond⟩
        simpa [hne] using hpair
      · rintro ⟨pair, hpair, htexts⟩
        refine ⟨pair, ?_, htexts⟩
        obtain hpair | hpair := List.mem_append.mp hpair <;> simp [hpair]

/-- A name that is no key is not set. -/
theorem mirrors_absent (hm : Mirrors pairs environ) (habsent : ∀ pair ∈ pairs, text pair.1 ≠ some name) :
    (fun other => if other = name then none else environ other) = environ := by
  funext other
  split
  · rename_i hname
    subst hname
    cases hset : environ other with
    | none => rfl
    | some v =>
      obtain ⟨pair, hpair, hfirst, -⟩ := (hm.set other v).mp hset
      exact absurd hfirst (habsent pair hpair)
  · rfl

variable {eq : HashKey → HashKey → Option Bool} {pairs' : List (HashKey × HashKey)}

/-- Looking for a key is looking for its name. -/
def Knows (eq : HashKey → HashKey → Option Bool) (pairs : List (HashKey × HashKey)) (key : HashKey) : Prop :=
  ∀ pair ∈ pairs, ∀ same, eq pair.1 key = some same → (same = true ↔ text pair.1 = text key)

theorem mirrors_set (hm : Mirrors pairs environ) (hknows : Knows eq pairs key) (hkey : text key = some name)
    (hval : text val = some value) (hset : table.set eq key val pairs = some pairs') :
    Mirrors pairs' fun other => if other = name then some value else environ other := by
  obtain ⟨habsent, rfl⟩ | ⟨before, stored, old, after, rfl, rfl, -, hfound⟩ := table.set_cases hset
  · have hnone : ∀ pair ∈ pairs, text pair.1 ≠ some name := by
      intro pair hpair hsame
      exact Bool.false_ne_true ((hknows pair hpair false (habsent pair hpair)).mpr (hsame.trans hkey.symm))
    have hm' := hm
    rw [← mirrors_absent hm hnone] at hm'
    refine mirrors_put hm' hkey hval (by simp) ?_
    rw [List.pairwise_append]
    refine ⟨hm.distinct, List.pairwise_singleton _ _, fun p hp q hq => ?_⟩
    obtain rfl := List.mem_singleton.mp hq
    rw [hkey]
    exact hnone p hp
  · have hname : text stored = some name := by
      rw [← hkey]
      exact (hknows (stored, old) (by simp) true hfound).mp rfl
    refine mirrors_put (mirrors_remove hm hname) hname hval ?_ ?_
    · intro pair
      simp only [List.mem_append, List.mem_cons]
      tauto
    · exact distinct_of_names hm.distinct (by simp)

theorem mirrors_delete (hm : Mirrors pairs environ) (hknows : Knows eq pairs key) (hkey : text key = some name)
    (hdelete : table.delete eq key pairs = some pairs') :
    Mirrors pairs' fun other => if other = name then none else environ other := by
  obtain ⟨habsent, rfl⟩ | ⟨before, stored, old, after, rfl, rfl, -, hfound⟩ := table.delete_cases hdelete
  · have hnone : ∀ pair ∈ pairs', text pair.1 ≠ some name := by
      intro pair hpair hsame
      exact Bool.false_ne_true ((hknows pair hpair false (habsent pair hpair)).mpr (hsame.trans hkey.symm))
    rwa [mirrors_absent hm hnone]
  · have hname : text stored = some name := by
      rw [← hkey]
      exact (hknows (stored, old) (by simp) true hfound).mp rfl
    exact mirrors_remove hm hname

/-- Only the texts matter. -/
theorem mirrors_same (hm : Mirrors pairs environ)
    (hsame : pairs'.map (fun pair => (text pair.1, text pair.2)) = pairs.map fun pair => (text pair.1, text pair.2)) :
    Mirrors pairs' environ where
  strings := by
    intro pair hpair
    have hmem := List.mem_map_of_mem (f := fun pair : HashKey × HashKey => (text pair.1, text pair.2)) hpair
    rw [hsame] at hmem
    obtain ⟨other, hother, htexts⟩ := List.mem_map.mp hmem
    obtain ⟨hfirst, hsecond⟩ := Prod.mk.inj htexts
    rw [← hfirst, ← hsecond]
    exact hm.strings other hother
  distinct := by
    have hfst := congrArg (List.map Prod.fst) hsame
    exact distinct_of_names hm.distinct (by simpa [Function.comp_def] using hfst)
  set := by
    intro name value
    have hmem : ∀ pairs : List (HashKey × HashKey),
        (∃ pair ∈ pairs, text pair.1 = some name ∧ text pair.2 = some value) ↔
        (some name, some value) ∈ pairs.map fun pair => (text pair.1, text pair.2) := by
      intro pairs
      simp [List.mem_map, Prod.ext_iff]
    rw [hm.set, hmem, hmem, hsame]

end

end stoned.hashes
