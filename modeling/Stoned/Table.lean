import Mathlib.Tactic

namespace stoned.table

/-! Tables: lists of pairs that are searched from the front with a comparison
that may not return. -/

variable {K V : Type}

section
variable (eq : K → K → Option Bool)

/-- Replaces the value of the first key that equals `key`, or adds a pair at the end. -/
def set (key : K) (val : V) : List (K × V) → Option (List (K × V))
  | [] => some [(key, val)]
  | (stored, old) :: rest => do
    if ← eq stored key then return (stored, val) :: rest
    return (stored, old) :: (← set key val rest)

/-- The value of the first key that equals `key`. -/
def get (key : K) : List (K × V) → Option (Option V)
  | [] => some none
  | (stored, val) :: rest => do
    if ← eq stored key then return some val
    get key rest

/-- Removes the pair of the first key that equals `key`. -/
def delete (key : K) : List (K × V) → Option (List (K × V))
  | [] => some []
  | (stored, val) :: rest => do
    if ← eq stored key then return rest
    return (stored, val) :: (← delete key rest)

/-- The tables that sets and deletes of keys of a domain make of the empty one. -/
inductive Reached (D : K → Prop) : List (K × V) → Prop where
  | empty : Reached D []
  | set {t t' : List (K × V)} {key : K} (val : V) (before : Reached D t) (mem : D key)
      (sets : table.set eq key val t = some t') : Reached D t'
  | delete {t t' : List (K × V)} {key : K} (before : Reached D t) (mem : D key)
      (deletes : table.delete eq key t = some t') : Reached D t'

/-- What a table is to do: it is a finite map that keeps the order in which
its keys were added. -/
structure IsMap (D : K → Prop) (t : List (K × V)) : Prop where
  /-- the stored keys are pairwise different -/
  distinct : t.Pairwise fun p q => eq p.1 q.1 = some false ∧ eq q.1 p.1 = some false
  get_returns : ∀ key, D key → ∃ found, get eq key t = some found
  /-- what was set is found -/
  set_get : ∀ key val, D key → ∃ t', set eq key val t = some t' ∧ get eq key t' = some (some val)
  /-- an existing key keeps its position -/
  set_old : ∀ key val old t', D key → get eq key t = some (some old) → set eq key val t = some t' →
    t'.map Prod.fst = t.map Prod.fst
  /-- a new key comes last -/
  set_new : ∀ key val t', D key → get eq key t = some none → set eq key val t = some t' → t' = t ++ [(key, val)]
  /-- exactly the key is removed -/
  delete_get : ∀ key, D key → ∃ t', delete eq key t = some t' ∧ get eq key t' = some none ∧
    t' = t.filter fun pair => eq pair.1 key = some false
  /-- other keys are not affected -/
  others : ∀ key other t', D key → D other → eq key other = some false →
    ((∃ val, set eq key val t = some t') ∨ delete eq key t = some t') → get eq other t' = get eq other t

/-- The comparison returns on a domain and is an equivalence there. -/
structure IsEquivalence (D : K → Prop) : Prop where
  returns : ∀ a b, D a → D b → ∃ same, eq a b = some same
  refl : ∀ a, D a → eq a a = some true
  symm : ∀ a b, D a → D b → eq a b = some true → eq b a = some true
  trans : ∀ a b c, D a → D b → D c → eq a b = some true → eq b c = some true → eq a c = some true

end

section
variable {eq : K → K → Option Bool} {key : K} {val old : V} {t before after : List (K × V)} {stored : K}

theorem set_absent (habsent : ∀ pair ∈ t, eq pair.1 key = some false) :
    set eq key val t = some (t ++ [(key, val)]) := by
  induction t with
  | nil => rfl
  | cons pair t ih =>
    have hfirst := habsent pair List.mem_cons_self
    have hrest := ih fun other hother => habsent other (List.mem_cons_of_mem _ hother)
    simp [set, hfirst, hrest]

theorem get_absent (habsent : ∀ pair ∈ t, eq pair.1 key = some false) : get eq key t = some none := by
  induction t with
  | nil => rfl
  | cons pair t ih =>
    have hfirst := habsent pair List.mem_cons_self
    have hrest := ih fun other hother => habsent other (List.mem_cons_of_mem _ hother)
    simp [get, hfirst, hrest]

theorem delete_absent (habsent : ∀ pair ∈ t, eq pair.1 key = some false) : delete eq key t = some t := by
  induction t with
  | nil => rfl
  | cons pair t ih =>
    have hfirst := habsent pair List.mem_cons_self
    have hrest := ih fun other hother => habsent other (List.mem_cons_of_mem _ hother)
    simp [delete, hfirst, hrest]

section
variable (hbefore : ∀ pair ∈ before, eq pair.1 key = some false)
include hbefore

theorem get_append : get eq key (before ++ t) = get eq key t := by
  induction before with
  | nil => rfl
  | cons pair before ih =>
    have hfirst := hbefore pair List.mem_cons_self
    have hrest := ih fun other hother => hbefore other (List.mem_cons_of_mem _ hother)
    simp [get, hfirst, hrest]

variable (hfound : eq stored key = some true)
include hfound

theorem get_found : get eq key (before ++ (stored, old) :: after) = some (some old) := by
  rw [get_append hbefore]
  simp [get, hfound]

theorem set_found : set eq key val (before ++ (stored, old) :: after) = some (before ++ (stored, val) :: after) := by
  induction before with
  | nil => simp [set, hfound]
  | cons pair before ih =>
    have hfirst := hbefore pair List.mem_cons_self
    have hrest := ih fun other hother => hbefore other (List.mem_cons_of_mem _ hother)
    simp [set, hfirst, hrest]

theorem delete_found : delete eq key (before ++ (stored, old) :: after) = some (before ++ after) := by
  induction before with
  | nil => simp [delete, hfound]
  | cons pair before ih =>
    have hfirst := hbefore pair List.mem_cons_self
    have hrest := ih fun other hother => hbefore other (List.mem_cons_of_mem _ hother)
    simp [delete, hfirst, hrest]

end

/-- A search that returns finds a first equal key or none. -/
theorem absent_or_found (hreturns : ∀ pair ∈ t, ∃ same, eq pair.1 key = some same) :
    (∀ pair ∈ t, eq pair.1 key = some false) ∨
      ∃ before stored old after, t = before ++ (stored, old) :: after ∧
        (∀ pair ∈ before, eq pair.1 key = some false) ∧ eq stored key = some true := by
  induction t with
  | nil => exact .inl fun _ h => nomatch h
  | cons pair t ih =>
    obtain ⟨same, hsame⟩ := hreturns pair List.mem_cons_self
    cases same with
    | true => exact .inr ⟨[], pair.1, pair.2, t, rfl, fun _ h => (nomatch h), hsame⟩
    | false =>
      obtain habsent | ⟨before, stored, old, after, rfl, hbefore, hfound⟩ :=
        ih fun other hother => hreturns other (List.mem_cons_of_mem _ hother)
      · exact .inl (List.forall_mem_cons.mpr ⟨hsame, habsent⟩)
      · exact .inr ⟨pair :: before, stored, old, after, rfl, List.forall_mem_cons.mpr ⟨hsame, hbefore⟩, hfound⟩

end

/-- What is found is stored under an equal key. -/
theorem mem_of_get {eq : K → K → Option Bool} {key : K} {val : V} {t : List (K × V)}
    (hget : get eq key t = some (some val)) : ∃ stored, (stored, val) ∈ t ∧ eq stored key = some true := by
  induction t with
  | nil => cases hget
  | cons pair t ih =>
    rw [get] at hget
    obtain ⟨same, hsame, hget⟩ := Option.bind_eq_some_iff.mp hget
    cases same with
    | true =>
      obtain rfl := Option.some.inj (Option.some.inj hget)
      exact ⟨pair.1, List.mem_cons_self, hsame⟩
    | false =>
      obtain ⟨stored, hmem, hequal⟩ := ih hget
      exact ⟨stored, List.mem_cons_of_mem _ hmem, hequal⟩

section
variable {eq : K → K → Option Bool} {D : K → Prop} {t t' : List (K × V)} {key other : K} {val : V}

/-- A pair whose key is another one is passed over. -/
theorem get_skip {before after : List (K × V)} {stored : K} {old : V} (hother : eq stored other = some false) :
    get eq other (before ++ (stored, old) :: after) = get eq other (before ++ after) := by
  induction before with
  | nil => simp [get, hother]
  | cons pair before ih => simp [get, ih]

/-- The invariant of a table: its keys are of the domain and pairwise different. -/
structure Distinct (eq : K → K → Option Bool) (D : K → Prop) (t : List (K × V)) : Prop where
  mem : ∀ key ∈ t.map Prod.fst, D key
  differ : (t.map Prod.fst).Pairwise fun a b => eq a b = some false ∧ eq b a = some false

namespace IsEquivalence
variable (h : IsEquivalence eq D)
include h

theorem differs {a b : K} (ha : D a) (hb : D b) (hdiffer : eq a b = some false) : eq b a = some false := by
  obtain ⟨same, hsame⟩ := h.returns b a hb ha
  cases same with
  | false => exact hsame
  | true =>
    have hequal := h.symm b a hb ha hsame
    rw [hdiffer] at hequal
    cases hequal

/-- What equals a key differs from whatever the key differs from. -/
theorem differs_of_equal {a b c : K} (ha : D a) (hb : D b) (hc : D c) (hequal : eq a b = some true)
    (hdiffer : eq b c = some false) : eq a c = some false := by
  obtain ⟨same, hsame⟩ := h.returns a c ha hc
  cases same with
  | false => exact hsame
  | true =>
    have hback := h.trans b a c hb ha hc (h.symm a b ha hb hequal) hsame
    rw [hdiffer] at hback
    cases hback

variable (ht : Distinct eq D t)
include ht

theorem search (hkey : D key) :
    (∀ pair ∈ t, eq pair.1 key = some false) ∨
      ∃ before stored old after, t = before ++ (stored, old) :: after ∧
        (∀ pair ∈ before, eq pair.1 key = some false) ∧ eq stored key = some true :=
  absent_or_found fun pair hpair => h.returns pair.1 key (ht.mem _ (List.mem_map_of_mem hpair)) hkey

theorem distinct_set (hkey : D key) (hset : set eq key val t = some t') : Distinct eq D t' := by
  obtain habsent | ⟨before, stored, old, after, rfl, hbefore, hfound⟩ := h.search ht hkey
  · rw [set_absent habsent] at hset
    obtain rfl := Option.some.inj hset
    constructor
    · rw [List.map_append]
      exact List.forall_mem_append.mpr ⟨ht.mem, by simpa using hkey⟩
    · rw [List.map_append, List.pairwise_append]
      refine ⟨ht.differ, List.pairwise_singleton _ _, ?_⟩
      intro stored hstored b hb
      obtain ⟨pair, hpair, rfl⟩ := List.mem_map.mp hstored
      obtain rfl := List.mem_singleton.mp hb
      exact ⟨habsent pair hpair, h.differs (ht.mem _ hstored) hkey (habsent pair hpair)⟩
  · rw [set_found hbefore hfound] at hset
    obtain rfl := Option.some.inj hset
    have hkeys : (before ++ (stored, val) :: after).map Prod.fst = (before ++ (stored, old) :: after).map Prod.fst := by
      simp
    exact ⟨hkeys ▸ ht.mem, hkeys ▸ ht.differ⟩

theorem distinct_delete (hkey : D key) (hdelete : delete eq key t = some t') : Distinct eq D t' := by
  obtain habsent | ⟨before, stored, old, after, rfl, hbefore, hfound⟩ := h.search ht hkey
  · rw [delete_absent habsent] at hdelete
    obtain rfl := Option.some.inj hdelete
    exact ht
  · rw [delete_found hbefore hfound] at hdelete
    obtain rfl := Option.some.inj hdelete
    have hsublist : ((before ++ after).map Prod.fst).Sublist ((before ++ (stored, old) :: after).map Prod.fst) :=
      (List.Sublist.append_left (List.sublist_cons_self _ _) _).map _
    exact ⟨fun key hmem => ht.mem key (hsublist.subset hmem), ht.differ.sublist hsublist⟩

end IsEquivalence

theorem IsEquivalence.distinct (h : IsEquivalence eq D) (hreached : Reached eq D t) : Distinct eq D t := by
  induction hreached with
  | empty => exact ⟨fun _ hmem => (nomatch hmem), List.Pairwise.nil⟩
  | set val _ mem sets ih => exact h.distinct_set ih mem sets
  | delete _ mem deletes ih => exact h.distinct_delete ih mem deletes

section
variable (h : IsEquivalence eq D) (ht : Distinct eq D t)
include h ht

theorem set_get_of (hkey : D key) : ∃ t', set eq key val t = some t' ∧ get eq key t' = some (some val) := by
  obtain habsent | ⟨before, stored, old, after, rfl, hbefore, hfound⟩ := h.search ht hkey
  · refine ⟨_, set_absent habsent, ?_⟩
    rw [get_append habsent]
    simp [get, h.refl key hkey]
  · exact ⟨_, set_found hbefore hfound, get_found hbefore hfound⟩

theorem delete_get_of (hkey : D key) : ∃ t', delete eq key t = some t' ∧ get eq key t' = some none ∧
    t' = t.filter fun pair => eq pair.1 key = some false := by
  obtain habsent | ⟨before, stored, old, after, rfl, hbefore, hfound⟩ := h.search ht hkey
  · refine ⟨t, delete_absent habsent, get_absent habsent, ?_⟩
    exact (List.filter_eq_self.mpr fun pair hpair => decide_eq_true (habsent pair hpair)).symm
  · have hstored : D stored := ht.mem stored (by simp)
    have hdiffer := ht.differ
    rw [List.map_append, List.pairwise_append, List.map_cons, List.pairwise_cons] at hdiffer
    have hafter : ∀ pair ∈ after, eq pair.1 key = some false := by
      intro pair hpair
      have hmem : D pair.1 := ht.mem pair.1 (by simpa using .inr (.inr ⟨pair.2, hpair⟩))
      have hother := (hdiffer.2.1.1 pair.1 (List.mem_map_of_mem hpair)).1
      exact h.differs hkey hmem
        (h.differs_of_equal hkey hstored hmem (h.symm stored key hstored hkey hfound) hother)
    have hrest : ∀ pair ∈ before ++ after, eq pair.1 key = some false := List.forall_mem_append.mpr ⟨hbefore, hafter⟩
    refine ⟨_, delete_found hbefore hfound, get_absent hrest, ?_⟩
    have hself : (before ++ after).filter (fun pair => eq pair.1 key = some false) = before ++ after :=
      List.filter_eq_self.mpr fun pair hpair => decide_eq_true (hrest pair hpair)
    rw [List.filter_append] at hself
    rw [List.filter_append, List.filter_cons_of_neg (by simp [hfound]), hself]

theorem others_of (hkey : D key) (hother : D other) (hdiffer : eq key other = some false)
    (hstep : (∃ val, set eq key val t = some t') ∨ delete eq key t = some t') :
    get eq other t' = get eq other t := by
  obtain habsent | ⟨before, stored, old, after, rfl, hbefore, hfound⟩ := h.search ht hkey
  · obtain ⟨val, hset⟩ | hdelete := hstep
    · rw [set_absent habsent] at hset
      obtain rfl := Option.some.inj hset
      rw [get_skip hdiffer, List.append_nil]
    · rw [delete_absent habsent] at hdelete
      obtain rfl := Option.some.inj hdelete
      rfl
  · have hstored : D stored := ht.mem stored (by simp)
    have hskip := h.differs_of_equal hstored hkey hother hfound hdiffer
    obtain ⟨val, hset⟩ | hdelete := hstep
    · rw [set_found hbefore hfound] at hset
      obtain rfl := Option.some.inj hset
      rw [get_skip hskip, get_skip hskip]
    · rw [delete_found hbefore hfound] at hdelete
      obtain rfl := Option.some.inj hdelete
      rw [get_skip hskip]

/-- A table with different keys is a map. -/
theorem isMap_of : IsMap eq D t where
  distinct := List.pairwise_map.mp ht.differ
  get_returns key hkey := by
    obtain habsent | ⟨before, stored, old, after, rfl, hbefore, hfound⟩ := h.search ht hkey
    · exact ⟨_, get_absent habsent⟩
    · exact ⟨_, get_found hbefore hfound⟩
  set_get _ _ hkey := set_get_of h ht hkey
  set_old key val old t' hkey hget hset := by
    obtain habsent | ⟨before, stored, old, after, rfl, hbefore, hfound⟩ := h.search ht hkey
    · rw [get_absent habsent] at hget
      cases hget
    · rw [set_found hbefore hfound] at hset
      obtain rfl := Option.some.inj hset
      simp
  set_new key val t' hkey hget hset := by
    obtain habsent | ⟨before, stored, old, after, rfl, hbefore, hfound⟩ := h.search ht hkey
    · rw [set_absent habsent] at hset
      exact (Option.some.inj hset).symm
    · rw [get_found hbefore hfound] at hget
      cases hget
  delete_get _ hkey := delete_get_of h ht hkey
  others _ _ _ hkey hother hdiffer hstep := others_of h ht hkey hother hdiffer hstep

end

/-- The comparison returns on a domain and is symmetric and transitive there. What
it never finds equal, itself included, is left out of every class. -/
structure IsPartialEquivalence (eq : K → K → Option Bool) (D : K → Prop) : Prop where
  returns : ∀ a b, D a → D b → ∃ same, eq a b = some same
  symm : ∀ a b, D a → D b → eq a b = some true → eq b a = some true
  trans : ∀ a b c, D a → D b → D c → eq a b = some true → eq b c = some true → eq a c = some true

namespace IsPartialEquivalence
variable (h : IsPartialEquivalence eq D)
include h

theorem of_not {a b : K} (ha : D a) (hb : D b) (hnot : eq a b ≠ some true) : eq a b = some false := by
  obtain ⟨same, hsame⟩ := h.returns a b ha hb
  cases same with
  | false => exact hsame
  | true => exact absurd hsame hnot

theorem same_order {a b : K} (ha : D a) (hb : D b) : eq a b = eq b a := by
  obtain ⟨same, hsame⟩ := h.returns a b ha hb
  cases same with
  | true => rw [hsame, h.symm a b ha hb hsame]
  | false =>
    refine hsame.trans (h.of_not hb ha fun hba => ?_).symm
    have hab := h.symm b a hb ha hba
    rw [hsame] at hab
    cases hab

/-- Equal keys find the same. -/
theorem get_congr {a b : K} (ha : D a) (hb : D b) (hab : eq a b = some true) (ht : ∀ pair ∈ t, D pair.1) :
    get eq a t = get eq b t := by
  induction t with
  | nil => rfl
  | cons pair t ih =>
    obtain ⟨hpair, ht⟩ := List.forall_mem_cons.mp ht
    have hsame : eq pair.1 a = eq pair.1 b := by
      obtain ⟨same, hsame⟩ := h.returns pair.1 a hpair ha
      cases same with
      | true => rw [hsame, h.trans pair.1 a b hpair ha hb hsame hab]
      | false =>
        refine hsame.trans (h.of_not hpair hb fun hpb => ?_).symm
        have hpa := h.trans pair.1 b a hpair hb ha hpb (h.symm a b ha hb hab)
        rw [hsame] at hpa
        cases hpa
    rw [get, get, hsame, ih ht]

theorem get_returns {a : K} (ha : D a) (ht : ∀ pair ∈ t, D pair.1) : ∃ found, get eq a t = some found := by
  obtain habsent | ⟨before, stored, old, after, rfl, hbefore, hfound⟩ :=
    absent_or_found fun pair hpair => h.returns pair.1 a (ht pair hpair) ha
  · exact ⟨_, get_absent habsent⟩
  · exact ⟨_, get_found hbefore hfound⟩

/-- Among different keys the only one that equals another is what it finds. -/
theorem get_of_mem {a : K} {pair : K × V} (ha : D a) (ht : ∀ other ∈ t, D other.1)
    (hdistinct : t.Pairwise fun p q => eq p.1 q.1 ≠ some true) (hmem : pair ∈ t) (hpair : eq pair.1 a = some true) :
    get eq a t = some (some pair.2) := by
  obtain ⟨before, after, rfl⟩ := List.append_of_mem hmem
  refine get_found (fun other hother => ?_) hpair
  have hDother := ht other (List.mem_append_left _ hother)
  refine h.of_not hDother ha fun hequal => ?_
  have hDpair := ht pair hmem
  exact (List.pairwise_append.mp hdistinct).2.2 other hother pair List.mem_cons_self
    (h.trans other.1 a pair.1 hDother ha hDpair hequal (h.symm pair.1 a hDpair ha hpair))

/-- Where every key of a table of different keys is found in a table that is no
longer, every key of the latter is one of those found. -/
theorem found_all {R : V → V → Prop} (ht : ∀ pair ∈ t, D pair.1) (ht' : ∀ pair ∈ t', D pair.1)
    (hdistinct : t.Pairwise fun p q => eq p.1 q.1 ≠ some true)
    (hfound : ∀ pair ∈ t, ∃ val, get eq pair.1 t' = some (some val) ∧ R pair.2 val) (hlength : t'.length ≤ t.length) :
    ∀ pair' ∈ t', ∃ pair ∈ t, eq pair'.1 pair.1 = some true ∧ R pair.2 pair'.2 := by
  induction t generalizing t' with
  | nil =>
    rw [List.length_nil, Nat.le_zero, List.length_eq_zero_iff] at hlength
    rw [hlength]
    exact fun _ hmem => nomatch hmem
  | cons pair t ih =>
    obtain ⟨hpair, ht⟩ := List.forall_mem_cons.mp ht
    obtain ⟨hfirst, hdistinct⟩ := List.pairwise_cons.mp hdistinct
    obtain ⟨⟨val, hget, hval⟩, hfound⟩ := List.forall_mem_cons.mp hfound
    obtain habsent | ⟨before, stored, old, after, rfl, hbefore, hstored⟩ :=
      absent_or_found fun other hother => h.returns other.1 pair.1 (ht' other hother) hpair
    · rw [get_absent habsent] at hget
      cases hget
    · rw [get_found hbefore hstored, Option.some.injEq, Option.some.injEq] at hget
      subst hget
      have hDstored : D stored := ht' (stored, old) (List.mem_append_right _ List.mem_cons_self)
      have hrest : ∀ other ∈ before ++ after, D other.1 := by
        intro other hother
        refine ht' other ?_
        rcases List.mem_append.mp hother with hother | hother
        · exact List.mem_append_left _ hother
        · exact List.mem_append_right _ (List.mem_cons_of_mem _ hother)
      have hothers := ih ht hrest hdistinct (fun other hother => by
        obtain ⟨val, hget, hval⟩ := hfound other hother
        refine ⟨val, ?_, hval⟩
        rw [← hget]
        refine (get_skip (h.of_not hDstored (ht other hother) fun hequal => hfirst other hother ?_)).symm
        exact h.trans pair.1 stored other.1 hpair hDstored (ht other hother)
          (h.symm stored pair.1 hDstored hpair hstored) hequal)
        (by simp only [List.length_append, List.length_cons] at hlength ⊢; omega)
      intro pair' hmem
      rcases List.mem_append.mp hmem with hmem | hmem
      · obtain ⟨other, hother, hequal⟩ := hothers pair' (List.mem_append_left _ hmem)
        exact ⟨other, List.mem_cons_of_mem _ hother, hequal⟩
      · rcases List.mem_cons.mp hmem with rfl | hmem
        · exact ⟨pair, List.mem_cons_self, hstored, hval⟩
        · obtain ⟨other, hother, hequal⟩ := hothers pair' (List.mem_append_right _ hmem)
          exact ⟨other, List.mem_cons_of_mem _ hother, hequal⟩

end IsPartialEquivalence

/-- Where every table that is reached is a map, the comparison is an equivalence. -/
theorem isEquivalence_of [Nontrivial V] (h : ∀ t : List (K × V), Reached eq D t → IsMap eq D t) :
    IsEquivalence eq D := by
  obtain ⟨val, val', hval⟩ := exists_pair_ne V
  have hsingle (a : K) (ha : D a) : IsMap eq D [(a, val)] := h _ (.set val .empty ha rfl)
  have hreturns (a b : K) (ha : D a) (hb : D b) : ∃ same, eq a b = some same := by
    obtain ⟨found, hfound⟩ := (hsingle a ha).get_returns b hb
    cases hsame : eq a b with
    | none => simp [get, hsame] at hfound
    | some same => exact ⟨same, rfl⟩
  have hsymm (a b : K) (ha : D a) (hb : D b) (hequal : eq a b = some true) : eq b a = some true := by
    obtain ⟨same, hsame⟩ := hreturns b a hb ha
    cases same with
    | true => exact hsame
    | false =>
      have hboth := h _ (.set val (.set val .empty hb rfl) ha (set_absent (by simpa using hsame)))
      have hpair := (List.pairwise_pair.mp hboth.distinct).2
      rw [hequal] at hpair
      cases hpair
  refine ⟨hreturns, ?_, hsymm, ?_⟩
  · intro a ha
    obtain ⟨t', hset, hget⟩ := (h [] .empty).set_get a val ha
    obtain rfl := Option.some.inj hset
    obtain ⟨same, hsame⟩ := hreturns a a ha ha
    cases same with
    | true => exact hsame
    | false => simp [get, hsame] at hget
  · intro a b c ha hb hc hab hbc
    obtain ⟨same, hsame⟩ := hreturns a c ha hc
    cases same with
    | true => exact hsame
    | false =>
      -- setting `a` changes the value stored under `b`, which `c` finds
      have hba := hsymm a b ha hb hab
      have hset : set eq a val' [(b, val)] = some [(b, val')] := by simp [set, hba]
      have hkept := (hsingle b hb).others a c _ ha hc hsame (.inl ⟨val', hset⟩)
      simp [get, hbc] at hkept
      exact absurd hkept.symm hval

/-- Sets and deletes keep a map on a domain exactly when the comparison is an
equivalence there. -/
theorem isMap_iff [Nontrivial V] :
    (∀ t : List (K × V), Reached eq D t → IsMap eq D t) ↔ IsEquivalence eq D :=
  ⟨isEquivalence_of, fun h _ hreached => isMap_of h (h.distinct hreached)⟩

end

/-! ### Tables that are changed whatever the comparison is -/

section
variable {eq : K → K → Option Bool} {t t' : List (K × V)} {key : K} {val : V}

theorem set_cases (hset : set eq key val t = some t') :
    ((∀ pair ∈ t, eq pair.1 key = some false) ∧ t' = t ++ [(key, val)]) ∨
      ∃ before stored old after, t = before ++ (stored, old) :: after ∧ t' = before ++ (stored, val) :: after ∧
        (∀ pair ∈ before, eq pair.1 key = some false) ∧ eq stored key = some true := by
  induction t generalizing t' with
  | nil => exact .inl ⟨fun _ h => (nomatch h), (Option.some.inj hset).symm⟩
  | cons pair t ih =>
    obtain ⟨stored, old⟩ := pair
    rw [set] at hset
    obtain ⟨same, hsame, hset⟩ := Option.bind_eq_some_iff.mp hset
    cases same with
    | true => exact .inr ⟨[], stored, old, t, rfl, (Option.some.inj hset).symm, fun _ h => (nomatch h), hsame⟩
    | false =>
      obtain ⟨rest, hrest, hset⟩ := Option.bind_eq_some_iff.mp hset
      obtain rfl := Option.some.inj hset
      obtain ⟨habsent, rfl⟩ | ⟨before, found, old', after, rfl, rfl, hbefore, hfound⟩ := ih hrest
      · exact .inl ⟨List.forall_mem_cons.mpr ⟨hsame, habsent⟩, rfl⟩
      · exact .inr ⟨(stored, old) :: before, found, old', after, rfl, rfl,
          List.forall_mem_cons.mpr ⟨hsame, hbefore⟩, hfound⟩

theorem delete_cases (hdelete : delete eq key t = some t') :
    ((∀ pair ∈ t, eq pair.1 key = some false) ∧ t' = t) ∨
      ∃ before stored old after, t = before ++ (stored, old) :: after ∧ t' = before ++ after ∧
        (∀ pair ∈ before, eq pair.1 key = some false) ∧ eq stored key = some true := by
  induction t generalizing t' with
  | nil => exact .inl ⟨fun _ h => (nomatch h), (Option.some.inj hdelete).symm⟩
  | cons pair t ih =>
    obtain ⟨stored, old⟩ := pair
    rw [delete] at hdelete
    obtain ⟨same, hsame, hdelete⟩ := Option.bind_eq_some_iff.mp hdelete
    cases same with
    | true => exact .inr ⟨[], stored, old, t, rfl, (Option.some.inj hdelete).symm, fun _ h => (nomatch h), hsame⟩
    | false =>
      obtain ⟨rest, hrest, hdelete⟩ := Option.bind_eq_some_iff.mp hdelete
      obtain rfl := Option.some.inj hdelete
      obtain ⟨habsent, rfl⟩ | ⟨before, found, old', after, rfl, rfl, hbefore, hfound⟩ := ih hrest
      · exact .inl ⟨List.forall_mem_cons.mpr ⟨hsame, habsent⟩, rfl⟩
      · exact .inr ⟨(stored, old) :: before, found, old', after, rfl, rfl,
          List.forall_mem_cons.mpr ⟨hsame, hbefore⟩, hfound⟩

/-- No two keys are equal, either way round. -/
def Unique (eq : K → K → Option Bool) (t : List (K × V)) : Prop :=
  (t.map Prod.fst).Pairwise fun a b => eq a b ≠ some true ∧ eq b a ≠ some true

theorem Unique.nil : Unique eq ([] : List (K × V)) := List.Pairwise.nil

theorem Unique.of_keys {W : Type} {u : List (K × W)} (ht : Unique eq t) (hkeys : u.map Prod.fst = t.map Prod.fst) :
    Unique eq u := by
  rw [Unique, hkeys]
  exact ht

theorem Unique.sublist (ht : Unique eq t) (hsub : t'.Sublist t) : Unique eq t' :=
  List.Pairwise.sublist (hsub.map Prod.fst) ht

/-- A new key is added where no stored key equals it; the other way round has to be known. -/
theorem Unique.set (ht : Unique eq t) (hsymm : ∀ pair ∈ t, eq key pair.1 = some true → eq pair.1 key = some true)
    (hset : set eq key val t = some t') : Unique eq t' := by
  obtain ⟨habsent, rfl⟩ | ⟨before, stored, old, after, rfl, rfl, -, -⟩ := set_cases hset
  · rw [Unique, List.map_append, List.pairwise_append]
    refine ⟨ht, List.pairwise_singleton _ _, ?_⟩
    intro stored hstored b hb
    obtain ⟨pair, hpair, rfl⟩ := List.mem_map.mp hstored
    have hkey : b = key := by simpa using hb
    have hone : eq pair.1 key ≠ some true := by simp [habsent pair hpair]
    rw [hkey]
    exact ⟨hone, fun hother => hone (hsymm pair hpair hother)⟩
  · exact ht.of_keys (by simp)

theorem absent_of_get (hget : get eq key t = some none) : ∀ pair ∈ t, eq pair.1 key = some false := by
  induction t with
  | nil => nofun
  | cons pair t ih =>
    obtain ⟨same, hsame, hget⟩ := Option.bind_eq_some_iff.mp hget
    cases same with
    | true => cases hget
    | false => exact List.forall_mem_cons.mpr ⟨hsame, ih hget⟩

theorem delete_sublist (hdelete : delete eq key t = some t') : t'.Sublist t := by
  obtain ⟨-, rfl⟩ | ⟨before, stored, old, after, rfl, rfl, -, -⟩ := delete_cases hdelete
  · exact List.Sublist.refl t'
  · exact List.Sublist.append_left (List.sublist_cons_self _ _) _

/-- Every key of the new table was there or is the one that was set. -/
theorem key_of_set (hset : set eq key val t = some t') {pair : K × V} (hmem : pair ∈ t') :
    pair.1 = key ∨ ∃ old, (pair.1, old) ∈ t := by
  obtain ⟨-, rfl⟩ | ⟨before, stored, old, after, rfl, rfl, -, -⟩ := set_cases hset
  · obtain hmem | hmem := List.mem_append.mp hmem
    · exact .inr ⟨pair.2, hmem⟩
    · exact .inl (by rw [List.mem_singleton.mp hmem])
  · obtain hmem | hmem := List.mem_append.mp hmem
    · exact .inr ⟨pair.2, List.mem_append_left _ hmem⟩
    · obtain rfl | hmem := List.mem_cons.mp hmem
      · exact .inr ⟨old, by simp⟩
      · exact .inr ⟨pair.2, by simp [hmem]⟩

end

end stoned.table
