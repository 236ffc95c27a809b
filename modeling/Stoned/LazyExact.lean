import Stoned.LazyChain

namespace stoned.lazy

/-! Chains that are not safe: blocks and an array that tell them apart. -/

section
variable {α : Type} [Values α]

@[simp] theorem spliced_array (xs : List α) : spliced (Values.array xs) = xs := by simp [spliced, Values.elements_array]

@[simp] theorem expansion_array (xs : List α) : expansion (Values.array xs) = xs := by
  simp [expansion, Values.to_a_elements _ _ (Values.elements_array xs)]

@[simp] theorem spliced_nil : spliced (Values.nil : α) = [Values.nil] := by simp [spliced, Values.elements_nil]

@[simp] theorem expansion_nil : expansion (Values.nil : α) = [] := by simp [expansion, Values.to_a_nil]

omit [Values α] in
@[simp] theorem take_while_all (xs : List α) : xs.takeWhile (fun _ => true) = xs :=
  List.takeWhile_eq_self_iff.mpr fun _ _ => rfl

omit [Values α] in
@[simp] theorem drop_while_none (xs : List α) : xs.dropWhile (fun _ => false) = xs := by cases xs <;> simp

theorem array_ne_nil (xs : List α) : Values.array xs ≠ (Values.nil : α) := by
  intro h
  have helements := congrArg Values.elements h
  rw [Values.elements_array, Values.elements_nil] at helements
  cases helements

/-- A stage that lets every value pass, but for the blocks of `flat_map`. -/
def Kind.pass (block : Bool → α → α) : Kind → Op α
  | .select => .select fun _ => true
  | .reject => .reject fun _ => false
  | .map => .map id
  | .flat_map plain => .flat_map (block plain)
  | .take n => .take n
  | .take_while => .take_while fun _ => true
  | .drop n => .drop n
  | .drop_while => .drop_while fun _ => false

/-- The block that gives every value back. -/
def single (_ : Bool) (v : α) : α := Values.array [v]

/-- No `take_while` ever stops. -/
def never_stops (ops : List (Op α)) : Prop := ∀ op ∈ ops, ∀ arg, op = .take_while arg → ∀ v, arg v = true

variable {block : Bool → α → α} {kinds : List Kind} {kind : Kind} {ops ops' : List (Op α)} {op : Op α}
  {xs vals : List α} {flags : Flags} {idx : Nat} {cap : Option Int} {many : Bool}

theorem pass_kind (hplain : ∀ v, expansion (block true v) = spliced (block true v)) :
    (kind.pass block).IsKind kind := by
  cases kind with
  | flat_map plain => exact .flat_map _ (by rintro rfl; exact hplain)
  | _ => constructor

theorem pass_kinds (block : Bool → α → α) (hplain : ∀ v, expansion (block true v) = spliced (block true v))
    (kinds : List Kind) : List.Forall₂ Op.IsKind (kinds.map (Kind.pass block)) kinds := by
  induction kinds with
  | nil => exact .nil
  | cons kind kinds ih => exact .cons (pass_kind hplain) ih

theorem single_kinds (kinds : List Kind) : List.Forall₂ Op.IsKind (kinds.map (Kind.pass (α := α) single)) kinds :=
  pass_kinds single (fun v => by simp [single]) kinds

omit [Values α] in
theorem pass_never_stops : never_stops (kinds.map (Kind.pass block)) := by
  intro op hop arg harg v
  obtain ⟨kind, -, rfl⟩ := List.mem_map.mp hop
  cases kind <;> cases harg
  rfl

omit [Values α] in
theorem never_stops_append (h : never_stops ops) (h' : never_stops ops') : never_stops (ops ++ ops') := by
  intro op hop
  rcases List.mem_append.mp hop with hop | hop
  · exact h op hop
  · exact h' op hop

omit [Values α] in
theorem never_stops_cons (hop : ∀ arg, op = .take_while arg → ∀ v, arg v = true) (h : never_stops ops) :
    never_stops (op :: ops) := by
  intro op' hmem
  rcases List.mem_cons.mp hmem with rfl | hmem
  · exact hop
  · exact h op' hmem

omit [Values α] in
/-- A `take_while` at the end may stop. -/
theorem stops_clean_snoc (hnever : never_stops ops) (arg : α → Bool) :
    stops_clean many (ops ++ [.take_while arg]) := by
  induction ops generalizing many with
  | nil => exact ⟨fun _ => .inr nofun, trivial⟩
  | cons op ops ih =>
    have hops : never_stops ops := fun op' hmem => hnever op' (List.mem_cons_of_mem _ hmem)
    cases op with
    | take_while arg' => exact ⟨fun _ => .inl (hnever _ List.mem_cons_self arg' rfl), ih hops⟩
    | _ => exact ih hops

omit [Values α] in
theorem stops_clean_of_never (hnever : never_stops ops) : stops_clean many ops := by
  induction ops generalizing many with
  | nil => trivial
  | cons op ops ih =>
    have hops : never_stops ops := fun op' hmem => hnever op' (List.mem_cons_of_mem _ hmem)
    cases op with
    | take_while arg' => exact ⟨fun _ => .inl (hnever _ List.mem_cons_self arg' rfl), ih hops⟩
    | _ => exact ih hops

theorem flow_append : flow flags idx (ops ++ ops') xs = flow flags (idx + ops.length) ops' (flow flags idx ops xs) := by
  induction ops generalizing idx xs with
  | nil => rfl
  | cons op ops ih =>
    rw [List.cons_append, flow, flow, ih, List.length_cons]
    congr 1
    omega

theorem eagerly_append : eagerly (ops ++ ops') xs = eagerly ops' (eagerly ops xs) := List.foldl_append

@[simp] theorem eagerly_done : eagerly [] xs = xs := rfl

theorem flow_single : flow new_flags idx (kinds.map (Kind.pass single)) xs = xs.drop (Kind.dropped kinds) := by
  induction kinds generalizing idx xs with
  | nil => rfl
  | cons kind kinds ih =>
    rw [List.map_cons, flow, ih]
    cases kind <;> simp [Kind.pass, Op.rest, Kind.dropped, new_flags, single]

theorem eagerly_single (kinds : List Kind) (xs : List α) :
    eagerly (kinds.map (Kind.pass single)) xs <+: xs.drop (Kind.dropped kinds) := by
  induction kinds generalizing xs with
  | nil => exact List.prefix_rfl
  | cons kind kinds ih =>
    rw [List.map_cons, eagerly_cons]
    refine (ih _).trans ?_
    cases kind with
    | take n =>
      simp only [Kind.pass, Op.eagerly, array.take_eq, Kind.dropped, List.drop_take]
      exact List.take_prefix _ _
    | _ => simp [Kind.pass, Op.eagerly, Kind.dropped, single]

/-- Whatever was dropped before, what passes is an end of what came. -/
theorem flow_single_suffix : flow flags idx (kinds.map (Kind.pass single)) xs <:+ xs := by
  induction kinds generalizing idx xs with
  | nil => exact List.suffix_rfl
  | cons kind kinds ih =>
    rw [List.map_cons, flow]
    refine ih.trans ?_
    cases kind with
    | drop n => exact List.drop_suffix _ _
    | _ => simp [Kind.pass, Op.rest, single]

omit [Values α] in
theorem upto_sublist {limit : Option Int} : (upto limit xs).Sublist xs := by
  cases limit with
  | none => exact List.Sublist.refl _
  | some n => exact List.take_sublist _ _

omit [Values α] in
theorem upto_ne_nil {limit : Option Int} (hroom : ∀ n ∈ limit, 0 < n) (hne : xs ≠ []) : upto limit xs ≠ [] := by
  cases limit with
  | none => exact hne
  | some n =>
    have hn := hroom n rfl
    have hpos : n.toNat ≠ 0 := by omega
    simp [upto, hpos, hne]

/-- The claim, for all blocks of the stages and all arrays. -/
def Agrees (α : Type) [Values α] (cap : Option Int) (kinds : List Kind) : Prop :=
  ∀ ops : List (Op α), List.Forall₂ Op.IsKind ops kinds → ∀ xs,
    (lazily ops xs)._collect cap = upto cap (eagerly ops xs)

/-! ### A limit that lets nothing pass -/

/-- The loop is left behind the first value. -/
theorem collect_nonpos {n : Int} (hkinds : List.Forall₂ Op.IsKind ops kinds) (hclean : stops_clean false ops)
    (hlimit : Kind.limit cap kinds = some n) (hnone : n ≤ 0) (x : α) :
    (lazily ops [x])._collect cap = (flow new_flags 0 ops [x]).take 1 := by
  rw [lazily_eq, Lazy._collect, take_limit_eq hkinds, ← Kind.limit, hlimit]
  have hstop : new_flags.stop = false := rfl
  have hflow : Flowed ops 0 [x] new_flags _ _ _ := stages_flow hclean (fun _ => le_rfl) hstop
  rw [collect_each, if_neg (by simp [hstop])]
  obtain ⟨vals, skip, flags', hr⟩ : ∃ vals skip flags', stages ops 0 [x] false new_flags = (vals, skip, flags') :=
    ⟨_, _, _, rfl⟩
  rw [hr] at hflow ⊢
  have hvals : flow new_flags 0 ops [x] = vals := by simpa using hflow.flows []
  rw [hvals]
  cases vals with
  | nil => simp [push_vals, hnone]
  | cons v vals =>
    have hskip : skip = false := by
      by_contra hskip
      cases hflow.skips (by simpa using hskip)
    have hone : n ≤ 1 := by omega
    have hfull : n ≤ (([] ++ [v] : List α).length : Int) := hone
    simp [hskip, push_vals, hone]

/-- Where every `flat_map` makes more of a value than is dropped, a value passes. -/
theorem flow_copies {copies : Nat} (hcopies : Kind.dropped kinds < copies)
    (hpass : Kind.cut kinds = false ∧ xs ≠ [] ∨ Kind.dropped kinds < xs.length) :
    flow new_flags idx (kinds.map (Kind.pass fun _ v => Values.array (List.replicate copies v))) xs ≠ [] := by
  induction kinds generalizing idx xs with
  | nil =>
    rcases hpass with ⟨-, hne⟩ | hlen
    · exact hne
    · exact List.ne_nil_of_length_pos (Nat.zero_lt_of_lt hlen)
  | cons kind kinds ih =>
    rw [List.map_cons, flow]
    cases kind with
    | flat_map plain =>
      refine ih hcopies (.inr ?_)
      have hne : xs ≠ [] := by
        rcases hpass with ⟨-, hne⟩ | hlen
        · exact hne
        · exact List.ne_nil_of_length_pos (Nat.zero_lt_of_lt hlen)
      obtain ⟨x, rest, rfl⟩ := List.exists_cons_of_ne_nil hne
      simp only [Kind.dropped] at hcopies
      simp only [Kind.pass, Op.rest, List.flatMap_cons, expansion_array, List.length_append, List.length_replicate]
      omega
    | drop n =>
      simp only [Kind.dropped] at hcopies hpass
      refine ih (by omega) ?_
      rcases hpass with ⟨hcut, hne⟩ | hlen
      · simp only [Kind.cut, Bool.or_eq_false_iff, decide_eq_false_iff_not] at hcut
        have hzero : n.toNat = 0 := by omega
        simp [Kind.pass, Op.rest, new_flags, hzero, hcut.2, hne]
      · refine .inr ?_
        simp only [Kind.pass, Op.rest, new_flags, List.length_drop, Nat.cast_zero, sub_zero]
        omega
    | _ => exact ih hcopies (by simpa [Kind.pass, Op.rest, new_flags, Kind.cut, Kind.dropped] using hpass)

theorem cut_of_agrees {n : Int} (hagrees : Agrees α cap kinds) (hlimit : Kind.limit cap kinds = some n)
    (hnone : n ≤ 0) : Kind.cut kinds = true := by
  by_contra hcut
  have hkinds := pass_kinds (fun _ v => Values.array (α := α) (List.replicate (Kind.dropped kinds + 1) v))
    (fun v => by simp) kinds
  have heq := hagrees _ hkinds [Values.nil]
  rw [collect_nonpos hkinds (stops_clean_of_never pass_never_stops) hlimit hnone,
    upto_nonpos hkinds hlimit hnone] at heq
  have hone : [(Values.nil : α)] ≠ [] := by simp
  have hflow := (List.take_eq_nil_iff.mp heq).resolve_left one_ne_zero
  exact flow_copies (Nat.lt_succ_self (Kind.dropped kinds)) (.inl ⟨by simpa using hcut, hone⟩) hflow

/-! ### A `take` that cuts off too much -/

omit [Values α] in
/-- A `take` is not the last word: its argument is too small, or a stage behind
it may need more values. -/
theorem takes_last_false {limit : Int} (htakes : Kind.takes_last limit kinds = false) :
    ∃ before n behind, kinds = before ++ .take n :: behind ∧
      (n < limit + Kind.dropped behind ∨ ∃ kind ∈ behind, kind.in_step = false) := by
  induction kinds with
  | nil => cases htakes
  | cons kind kinds ih =>
    have hbehind : Kind.takes_last limit kinds = false → ∃ before n behind,
        kind :: kinds = before ++ .take n :: behind ∧
          (n < limit + Kind.dropped behind ∨ ∃ kind ∈ behind, kind.in_step = false) := by
      intro h
      obtain ⟨before, n, behind, rfl, hn⟩ := ih h
      exact ⟨kind :: before, n, behind, rfl, hn⟩
    cases kind with
    | take n =>
      simp only [Kind.takes_last, Bool.and_eq_false_iff, decide_eq_false_iff_not, List.all_eq_false,
        Bool.not_eq_true] at htakes
      rcases htakes with (hn | hkind) | htakes
      · exact ⟨[], n, kinds, rfl, .inl (by omega)⟩
      · exact ⟨[], n, kinds, rfl, .inr hkind⟩
      · exact hbehind htakes
    | _ => exact hbehind htakes

open Classical in
/-- A stage that loses one value, or makes another one of it. -/
noncomputable def Kind.without (lost other : α) : Kind → Op α
  | .select => .select fun v => v ≠ lost
  | .reject => .reject fun v => v = lost
  | .map => .map fun v => if v = lost then other else v
  | .flat_map _ => .flat_map fun v => Values.array (if v = lost then [] else [v])
  | .take n => .take n
  | .take_while => .take_while fun v => v ≠ lost
  | .drop n => .drop n
  | .drop_while => .drop_while fun v => v = lost

section
variable {lost other : α} {n m : Nat}

theorem without_kind (lost other : α) : (kind.without lost other).IsKind kind := by
  cases kind with
  | flat_map plain => exact .flat_map _ fun _ v => by simp
  | _ => constructor

/-- What comes behind the lost values passes. -/
theorem rest_without (hstep : kind.in_step = false) (hother : other ≠ lost) :
    (kind.without lost other).rest new_flags idx (List.replicate n lost ++ List.replicate m other) =
      List.replicate m other := by
  induction n with
  | zero => cases kind <;> cases m <;> simp_all [Kind.without, Op.rest, new_flags, List.replicate_succ, Kind.in_step,
    List.flatMap_replicate]
  | succ n ih =>
    rw [List.replicate_succ, List.cons_append]
    cases kind <;> simp_all [Kind.without, Op.rest, new_flags, Kind.in_step]

theorem eagerly_without (hstep : kind.in_step = false) :
    (kind.without lost other).eagerly (List.replicate n lost) = [] := by
  induction n with
  | zero => cases kind <;> simp [Kind.without, Op.eagerly]
  | succ n ih =>
    rw [List.replicate_succ]
    cases kind <;> simp_all [Kind.without, Op.eagerly, Kind.in_step]

end

theorem eagerly_single_replicate (kinds : List Kind) (n : Nat) (v : α) :
    ∃ m, eagerly (kinds.map (Kind.pass single)) (List.replicate n v) = List.replicate m v := by
  have hbegins := (eagerly_single kinds (List.replicate n v)).trans (by simp :
    (List.replicate n v).drop (Kind.dropped kinds) <+: List.replicate (n - Kind.dropped kinds) v)
  exact ⟨_, (List.prefix_replicate_iff.mp hbegins).2⟩

/-- With too small an argument, a `take` leaves less than the limit lets pass. -/
theorem take_too_small (before : List Kind) {behind : List Kind} {m n : Int} (hsmall : m < n + Kind.dropped behind)
    (hroom : 0 < n) (xs : List α) : (eagerly ((before ++ .take m :: behind).map (Kind.pass single)) xs).length < n.toNat := by
  rw [List.map_append, List.map_cons, eagerly_append, eagerly_cons]
  refine lt_of_le_of_lt (eagerly_single _ _).length_le ?_
  simp only [Kind.pass, Op.eagerly, array.take_eq, List.length_drop, List.length_take]
  omega

/-- Behind a `take` of the lost values nothing is left. -/
theorem take_lost {before between behind : List Kind} {m : Int} {kind : Kind} {lost other : α} {k : Nat}
    (hstep : kind.in_step = false) :
    eagerly (before.map (Kind.pass single) ++ .take m :: (between.map (Kind.pass single) ++
      kind.without lost other :: behind.map (Kind.pass single)))
      (List.replicate (Kind.dropped before + m.toNat) lost ++ List.replicate k other) = [] := by
  rw [eagerly_append, eagerly_cons, eagerly_append, eagerly_cons]
  have htaken : ∃ i, (Op.take m).eagerly (eagerly (before.map (Kind.pass single))
      (List.replicate (Kind.dropped before + m.toNat) lost ++ List.replicate k other)) = List.replicate i lost := by
    have hbefore := (eagerly_single before
      (List.replicate (Kind.dropped before + m.toNat) lost ++ List.replicate k other)).take m.toNat
    rw [List.drop_append, List.drop_replicate, Nat.add_sub_cancel_left, List.take_left' (by simp)] at hbefore
    rw [Op.eagerly, array.take_eq]
    exact ⟨_, (List.prefix_replicate_iff.mp hbefore).2⟩
  obtain ⟨i, hi⟩ := htaken
  obtain ⟨j, hj⟩ := eagerly_single_replicate between i lost
  rw [hi, hj, eagerly_without hstep, eagerly_nil]

/-- The pipeline goes on to the values behind them. -/
theorem flow_past_lost {before between behind : List Kind} {m : Int} {kind : Kind} {lost other : α} {k n : Nat}
    (hstep : kind.in_step = false) (hother : other ≠ lost)
    (hmore : Kind.dropped before + Kind.dropped between + Kind.dropped behind < k) :
    flow new_flags 0 (before.map (Kind.pass single) ++ .take m :: (between.map (Kind.pass single) ++
      kind.without lost other :: behind.map (Kind.pass single)))
      (List.replicate n lost ++ List.replicate k other) ≠ [] := by
  rw [flow_append, flow_single, flow, Op.rest, flow_append, flow_single, flow, List.drop_drop, List.drop_append,
    List.drop_replicate, List.drop_replicate, rest_without hstep hother, flow_single, List.drop_replicate]
  simp only [List.length_replicate, ne_eq, List.replicate_eq_nil_iff]
  omega

theorem takes_last_of_agrees {n : Int} (hagrees : Agrees α cap kinds) (hlimit : Kind.limit cap kinds = some n)
    (hroom : 0 < n) : Kind.takes_last n kinds = true := by
  by_contra htakes
  have hroom' : ∀ m ∈ Kind.limit cap kinds, 0 < m := by
    rintro m hm
    rw [hlimit] at hm
    cases hm
    exact hroom
  obtain ⟨before, m, behind, rfl, hsmall | ⟨kind, hmem, hstep⟩⟩ := takes_last_false (by simpa using htakes)
  · have hkinds := single_kinds (α := α) (before ++ .take m :: behind)
    have heq := hagrees _ hkinds
      (List.replicate (Kind.dropped (before ++ .take m :: behind) + n.toNat) Values.nil)
    rw [collect_eq hkinds (stops_clean_of_never pass_never_stops) hroom', flow_single, hlimit, List.drop_replicate,
      Nat.add_sub_cancel_left] at heq
    have hshort := take_too_small before hsmall hroom
      (List.replicate (Kind.dropped (before ++ .take m :: behind) + n.toNat) (Values.nil : α))
    have hlen := (congrArg List.length heq).trans_le upto_sublist.length_le
    simp only [upto, Option.elim_some, List.take_replicate, List.length_replicate, min_self] at hlen
    omega
  · obtain ⟨between, behind, rfl⟩ := List.append_of_mem hmem
    have hkinds : List.Forall₂ Op.IsKind (before.map (Kind.pass single) ++ .take m :: (between.map (Kind.pass single) ++
        kind.without Values.nil (Values.array []) :: behind.map (Kind.pass (α := α) single)))
        (before ++ .take m :: (between ++ kind :: behind)) :=
      List.rel_append (single_kinds before)
        (.cons (.take m) (List.rel_append (single_kinds between) (.cons (without_kind _ _) (single_kinds behind))))
    have hclean : stops_clean false (before.map (Kind.pass single) ++ .take m :: (between.map (Kind.pass single) ++
        kind.without Values.nil (Values.array []) :: behind.map (Kind.pass (α := α) single))) := by
      refine stops_clean_of_never (never_stops_append pass_never_stops (never_stops_cons (by rintro _ ⟨⟩)
        (never_stops_append pass_never_stops (never_stops_cons ?_ pass_never_stops))))
      rintro arg harg
      cases kind <;> cases harg
      cases hstep
    have heq := hagrees _ hkinds
      (List.replicate (Kind.dropped before + m.toNat) Values.nil ++
        List.replicate (Kind.dropped before + Kind.dropped between + Kind.dropped behind + 1) (Values.array []))
    rw [take_lost hstep, collect_eq hkinds hclean hroom', List.sublist_nil.mp upto_sublist] at heq
    exact upto_ne_nil hroom' (flow_past_lost hstep (array_ne_nil _) (Nat.lt_succ_self _)) heq

/-! ### A `flat_map` whose block gives something else -/

/-- The block that returns nil, where a block may do so. -/
def sometimes_nil (plain : Bool) (v : α) : α := if plain then Values.array [v] else Values.nil

theorem flow_nils (hmem : .flat_map false ∈ kinds) :
    flow flags idx (kinds.map (Kind.pass sometimes_nil)) xs = ([] : List α) := by
  induction kinds generalizing idx xs with
  | nil => cases hmem
  | cons kind kinds ih =>
    rw [List.map_cons, flow]
    rcases List.mem_cons.mp hmem with rfl | hmem
    · have hnone : (xs.flatMap fun _ => ([] : List α)) = [] := List.flatMap_eq_nil_iff.mpr fun _ _ => rfl
      simp [Kind.pass, Op.rest, sometimes_nil, hnone]
    · exact ih hmem

theorem spliced_sometimes_nil (plain : Bool) (xs : List α) :
    (xs.flatMap fun x => spliced (sometimes_nil plain x)).length = xs.length := by
  cases plain <;> simp [sometimes_nil]

theorem eagerly_nils {n : Int} (hroom : 0 < n) (htakes : Kind.takes_last n kinds = true)
    (hmore : Kind.dropped kinds < xs.length) : eagerly (kinds.map (Kind.pass sometimes_nil)) xs ≠ [] := by
  induction kinds generalizing xs with
  | nil => exact List.ne_nil_of_length_pos (Nat.zero_lt_of_lt hmore)
  | cons kind kinds ih =>
    rw [List.map_cons, eagerly_cons]
    cases kind with
    | take m =>
      simp only [Kind.takes_last, Bool.and_eq_true, decide_eq_true_eq] at htakes
      refine ih htakes.2 ?_
      simp only [Kind.dropped] at hmore
      simp only [Kind.pass, Op.eagerly, array.take_eq, List.length_take]
      omega
    | drop m =>
      refine ih htakes ?_
      simp only [Kind.dropped] at hmore
      simp only [Kind.pass, Op.eagerly, array.drop_eq, List.length_drop]
      omega
    | flat_map plain =>
      refine ih htakes ?_
      rw [Kind.pass, Op.eagerly, array.flat_map_eq, spliced_sometimes_nil]
      exact hmore
    | _ => exact ih htakes (by simpa [Kind.pass, Op.eagerly, Kind.dropped] using hmore)

theorem takes_last_of_none {n : Int} (hnone : Kind.take_limit kinds = none) : Kind.takes_last n kinds = true := by
  induction kinds with
  | nil => rfl
  | cons kind kinds ih =>
    cases kind with
    | take m => simp [Kind.take_limit] at hnone
    | _ => exact ih hnone

theorem cap_pos {n : Int} (hroom : ∀ n ∈ Kind.limit cap kinds, 0 < n) (hcap : cap = some n) : 0 < n := by
  subst hcap
  rw [Kind.limit] at hroom
  cases hlast : Kind.take_limit kinds with
  | none => exact hroom n (by simp [hlast])
  | some last => exact (hroom (min n last) (by simp [hlast])).trans_le (min_le_left _ _)

theorem plain_of_agrees (hagrees : Agrees α cap kinds) (hroom : ∀ n ∈ Kind.limit cap kinds, 0 < n) :
    .flat_map false ∉ kinds := by
  intro hmem
  have hkinds := pass_kinds (sometimes_nil (α := α)) (fun v => by simp [sometimes_nil]) kinds
  have heq := hagrees _ hkinds (List.replicate (Kind.dropped kinds + 1) Values.nil)
  rw [collect_eq hkinds (stops_clean_of_never pass_never_stops) hroom, flow_nils hmem,
    List.sublist_nil.mp upto_sublist] at heq
  have htakes : ∃ n, 0 < n ∧ Kind.takes_last n kinds = true := by
    cases hlimit : Kind.limit cap kinds with
    | some n => exact ⟨n, hroom n hlimit, takes_last_of_agrees hagrees hlimit (hroom n hlimit)⟩
    | none =>
      refine ⟨1, Int.one_pos, takes_last_of_none ?_⟩
      rw [Kind.limit] at hlimit
      cases cap with
      | none => simpa using hlimit
      | some c => cases hlast : Kind.take_limit kinds <;> simp [hlast] at hlimit
  obtain ⟨n, hn, htakes⟩ := htakes
  have hmore : Kind.dropped kinds < (List.replicate (Kind.dropped kinds + 1) (Values.nil : α)).length := by simp
  exact upto_ne_nil (fun m hm => cap_pos hroom hm) (eagerly_nils hn htakes hmore) heq.symm

/-! ### A `take_while` that stops in the middle -/

theorem stops_last_false (hstops : Kind.stops_last many kinds = false) :
    many = true ∧ (∃ between behind, kinds = between ++ .take_while :: behind ∧ behind.all Kind.idle = false) ∨
    ∃ before plain between behind, kinds = before ++ .flat_map plain :: (between ++ .take_while :: behind) ∧
      behind.all Kind.idle = false := by
  induction kinds generalizing many with
  | nil => cases hstops
  | cons kind kinds ih =>
    cases kind with
    | flat_map plain =>
      rcases ih hstops with ⟨-, between, behind, rfl, hidle⟩ | ⟨before, plain', between, behind, rfl, hidle⟩
      · exact .inr ⟨[], plain, between, behind, rfl, hidle⟩
      · exact .inr ⟨_ :: before, plain', between, behind, rfl, hidle⟩
    | take_while =>
      simp only [Kind.stops_last, Bool.and_eq_false_iff, Bool.or_eq_false_iff, Bool.not_eq_false'] at hstops
      rcases hstops with ⟨rfl, hidle⟩ | hstops
      · exact .inl ⟨rfl, [], kinds, rfl, hidle⟩
      · rcases ih hstops with ⟨hmany, between, behind, rfl, hidle⟩ | ⟨before, plain', between, behind, rfl, hidle⟩
        · exact .inl ⟨hmany, _ :: between, behind, rfl, hidle⟩
        · exact .inr ⟨_ :: before, plain', between, behind, rfl, hidle⟩
    | _ =>
      rcases ih hstops with ⟨hmany, between, behind, rfl, hidle⟩ | ⟨before, plain', between, behind, rfl, hidle⟩
      · exact .inl ⟨hmany, _ :: between, behind, rfl, hidle⟩
      · exact .inr ⟨_ :: before, plain', between, behind, rfl, hidle⟩

theorem stages_append {skip : Bool} : stages (ops ++ ops') idx vals skip flags =
    stages ops' (idx + ops.length) (stages ops idx vals skip flags).1 (stages ops idx vals skip flags).2.1
      (stages ops idx vals skip flags).2.2 := by
  induction ops generalizing idx vals skip flags with
  | nil => rfl
  | cons op ops ih =>
    cases hhalt : skip || flags.stop with
    | true => rw [stages_halted hhalt, stages_halted hhalt, stages_halted hhalt]
    | false =>
      obtain ⟨rfl, hstop⟩ := Bool.or_eq_false_iff.mp hhalt
      rw [List.cons_append, stages_cons hstop, stages_cons hstop, ih, List.length_cons]
      congr 1
      omega

theorem stages_never_stop (hnever : never_stops ops) (hstop : flags.stop = false) :
    (stages ops idx vals false flags).2.2.stop = false := by
  induction ops generalizing idx vals flags with
  | nil => exact hstop
  | cons op ops ih =>
    have hstage : Staged op idx vals flags _ _ _ := stage_staged hstop
    have hstop₁ : (stage op idx vals flags).2.2.stop = false := by
      by_contra hstopped
      obtain ⟨arg, rfl, hall, -⟩ := hstage.stops (by simpa using hstopped)
      have : vals.all arg = true := List.all_eq_true.mpr fun v _ => hnever _ List.mem_cons_self arg rfl v
      rw [this] at hall
      cases hall
    rw [stages_cons hstop]
    cases (stage op idx vals flags).2.1 with
    | true => rwa [stages_halted (by simp)]
    | false => exact ih (fun op' hmem => hnever op' (List.mem_cons_of_mem _ hmem)) hstop₁

/-- Where a part of the chain always halts, the stages behind it never run. -/
theorem collect_each_halts {limit : Option Int} {x : α} {result : List α} {k : Nat}
    (hhalts : ∀ flags : Flags, flags.stop = false →
      ((stages ops 0 [x] false flags).2.1 || (stages ops 0 [x] false flags).2.2.stop) = true) :
    collect_each (ops ++ ops') limit result flags (List.replicate k x) =
      collect_each ops limit result flags (List.replicate k x) := by
  induction k generalizing result flags with
  | zero => rfl
  | succ k ih =>
    rw [List.replicate_succ, collect_each, collect_each]
    cases hstop : flags.stop with
    | true => rfl
    | false =>
      rw [stages_append, stages_halted (hhalts flags hstop)]
      simp only [ih]

/-- Many times one value, then another one. -/
def bunch (lost other : α) (n : Nat) : α := Values.array (List.replicate n lost ++ [other])

/-- The stages up to a `take_while` that is given a bunch. -/
def bunched (lost other : α) (before between : List Kind) : List (Op α) :=
  before.map (Kind.pass single) ++ .flat_map (fun _ => bunch lost other (Kind.dropped between + 1)) ::
    between.map (Kind.pass single)

open Classical in
/-- The stages with the `take_while`, which stops at the end of the bunch. -/
noncomputable def stopping (lost other : α) (before between : List Kind) : List (Op α) :=
  bunched lost other before between ++ [.take_while fun v => v ≠ other]

section
variable {lost other x : α} {before between behind : List Kind}

theorem bunched_kinds (plain : Bool) :
    List.Forall₂ Op.IsKind (bunched lost other before between) (before ++ .flat_map plain :: between) :=
  List.rel_append (single_kinds before) (.cons (.flat_map _ fun _ v => by simp [bunch]) (single_kinds between))

theorem bunched_never_stops : never_stops (bunched lost other before between) :=
  never_stops_append pass_never_stops (never_stops_cons nofun pass_never_stops)

/-- Whatever was dropped before, the other value is the last one. -/
theorem flow_bunched : flow flags idx (bunched lost other before between) [x] = [] ∨
    other ∈ flow flags idx (bunched lost other before between) [x] := by
  rw [bunched, flow_append, flow]
  have hfirst : ∀ xs : List α, xs <:+ [x] → xs = [] ∨ xs = [x] := by
    intro xs hxs
    rcases List.suffix_cons_iff.mp hxs with h | h
    · exact .inr h
    · exact .inl (List.suffix_nil.mp h)
  rcases hfirst _ flow_single_suffix with h | h
  · rw [h]
    simp
  · rw [h]
    simp only [Op.rest, bunch, List.flatMap_cons, List.flatMap_nil, expansion_array, List.append_nil]
    generalize hlast : List.replicate (Kind.dropped between + 1) lost ++ [other] = ys
    have hends : ∀ zs : List α, zs <:+ ys → zs = [] ∨ other ∈ zs := by
      rintro zs ⟨ws, hws⟩
      rcases List.eq_nil_or_concat zs with rfl | ⟨zs, z, rfl⟩
      · exact .inl rfl
      · rw [← hlast, List.concat_eq_append, ← List.append_assoc] at hws
        have hz : z = other := by simpa using (List.append_inj' hws rfl).2
        exact .inr (by simp [hz])
    exact hends _ flow_single_suffix

theorem stopping_kinds (lost other : α) (before between : List Kind) (plain : Bool) : List.Forall₂ Op.IsKind
    (stopping lost other before between) (before ++ .flat_map plain :: between ++ [.take_while]) :=
  List.rel_append (bunched_kinds plain) (.cons (.take_while _) .nil)

theorem stopping_clean : stops_clean many (stopping lost other before between) :=
  stops_clean_snoc bunched_never_stops _

theorem stopping_halts (hstop : flags.stop = false) :
    ((stages (stopping lost other before between) 0 [x] false flags).2.1 ||
      (stages (stopping lost other before between) 0 [x] false flags).2.2.stop) = true := by
  rw [stopping, stages_append]
  have hflow : Flowed (bunched lost other before between) 0 [x] flags _ _ _ :=
    stages_flow (stops_clean_of_never bunched_never_stops : stops_clean false _) (fun _ => le_rfl) hstop
  have hrun : (stages (bunched lost other before between) 0 [x] false flags).2.2.stop = false :=
    stages_never_stop bunched_never_stops hstop
  have hvals := hflow.flows []
  simp only [List.append_nil, flow_nil, ite_self] at hvals
  generalize stages (bunched lost other before between) 0 [x] false flags = r at hrun hvals ⊢
  obtain ⟨vals, skip, flags'⟩ := r
  cases skip with
  | true =>
    rw [stages_halted (by simp)]
    rfl
  | false =>
    simp only at hrun hvals
    rw [stages_cons hrun]
    simp only [stages, stage, take_while_vals_eq, List.nil_append, Bool.or_eq_true, Bool.not_eq_true', List.isEmpty_iff]
    rcases (flow_bunched : flow flags 0 (bunched lost other before between) [x] = [] ∨ _) with h | h
    · rw [← hvals, h]
      exact .inl rfl
    · rw [hvals] at h
      refine .inr (.inr (List.all_eq_false.mpr ⟨other, h, ?_⟩))
      simp

/-- What flows through is one of the many. -/
theorem flow_stopping (hother : other ≠ lost) : flow new_flags 0 (stopping lost other before between)
    (List.replicate (Kind.dropped before + 1) x) = [lost] := by
  have hbunched : flow new_flags 0 (bunched lost other before between)
      (List.replicate (Kind.dropped before + 1) x) = [lost, other] := by
    rw [bunched, flow_append, flow_single, List.drop_replicate, Nat.add_sub_cancel_left, flow, flow_single]
    simp [Op.rest, bunch, List.drop_append]
  rw [stopping, flow_append, hbunched]
  simp [flow, Op.rest, hother.symm]

omit [Values α] in
theorem take_while_begins {ys : List α} (p : α → Bool) (hbegins : xs <+: ys) : xs.takeWhile p <+: ys.takeWhile p := by
  rw [List.prefix_iff_eq_take.mp hbegins, ← take_take_while]
  exact List.take_prefix _ _

omit [Values α] in
theorem prefix_one {v : α} (hxs : xs <+: [v]) : xs = [] ∨ xs = [v] := by
  rcases List.prefix_cons_iff.mp hxs with h | ⟨zs, h, hzs⟩
  · exact .inl h
  · exact .inr (by rw [h, List.prefix_nil.mp hzs])

/-- The methods of arrays make at most as much of it. -/
theorem eagerly_stopping (hother : other ≠ lost) : eagerly (stopping lost other before between)
    (List.replicate (Kind.dropped before + 1) x) <+: [lost] := by
  have hbefore := eagerly_single before (List.replicate (Kind.dropped before + 1) x)
  rw [List.drop_replicate, Nat.add_sub_cancel_left, List.replicate_one] at hbefore
  have hbunch : (Op.flat_map fun _ => bunch lost other (Kind.dropped between + 1)).eagerly
      (eagerly (before.map (Kind.pass single)) (List.replicate (Kind.dropped before + 1) x)) <+:
        List.replicate (Kind.dropped between + 1) lost ++ [other] := by
    rcases prefix_one hbefore with h | h <;> simp [h, Op.eagerly, bunch]
  have hbetween := (eagerly_single between _).trans (hbunch.drop (Kind.dropped between))
  have htwo : (List.replicate (Kind.dropped between + 1) lost ++ [other]).drop (Kind.dropped between) =
      [lost, other] := by
    simp [List.drop_append]
  rw [htwo] at hbetween
  rw [stopping, bunched, eagerly_append, eagerly_append, eagerly_cons]
  simp only [eagerly_cons, eagerly_done, Op.eagerly, array.take_while_eq] at hbetween ⊢
  refine (take_while_begins _ hbetween).trans ?_
  simp [hother.symm]

/-- A stage that is not idle does not pass the one value as it is. -/
theorem not_mem_without (hidle : kind.idle = false) (hother : other ≠ lost) (hxs : xs <+: [lost]) :
    lost ∉ (kind.without lost other).eagerly xs := by
  rcases prefix_one hxs with rfl | rfl
  · cases kind <;> simp [Kind.without, Op.eagerly]
  · cases kind with
    | take n => cases hidle
    | drop n =>
      have hn : 0 < n := by simpa [Kind.idle] using hidle
      have hnone : [lost].drop n.toNat = [] := List.drop_eq_nil_of_le (by simp; omega)
      simp [Kind.without, Op.eagerly, hnone]
    | _ => simp [Kind.without, Op.eagerly, hother.symm]

omit [Values α] in
theorem upto_one {limit : Option Int} {v : α} (hroom : ∀ n ∈ limit, 0 < n) : upto limit [v] = [v] := by
  have hsub : (upto limit [v]).Sublist [v] := upto_sublist
  exact (List.sublist_singleton.mp hsub).resolve_left (upto_ne_nil hroom (List.cons_ne_nil v []))

theorem stops_last_of_agrees (hagrees : Agrees α cap kinds) (hroom : ∀ n ∈ Kind.limit cap kinds, 0 < n) :
    Kind.stops_last false kinds = true := by
  by_contra hstops
  rcases stops_last_false (by simpa using hstops) with ⟨hmany, -⟩ | ⟨before, plain, between, behind, hparts, hidle⟩
  · cases hmany
  obtain ⟨kind, hmem, hkind⟩ := List.all_eq_false.mp hidle
  obtain ⟨front, back, rfl⟩ := List.append_of_mem hmem
  have hother : (Values.nil : α) ≠ Values.array [] := (array_ne_nil []).symm
  have hbehind : List.Forall₂ Op.IsKind (front.map (Kind.pass (α := α) single) ++
      kind.without (Values.array []) Values.nil :: back.map (Kind.pass single)) (front ++ kind :: back) :=
    List.rel_append (single_kinds front) (.cons (without_kind _ _) (single_kinds back))
  have hsame : before ++ .flat_map plain :: between ++ [.take_while] ++ (front ++ kind :: back) = kinds := by
    simp [hparts]
  have hkinds : List.Forall₂ Op.IsKind (stopping (Values.array []) Values.nil before between ++
      (front.map (Kind.pass (α := α) single) ++
        kind.without (Values.array []) Values.nil :: back.map (Kind.pass single))) kinds :=
    hsame ▸ List.rel_append (stopping_kinds (Values.array []) Values.nil before between plain) hbehind
  have heq := hagrees _ hkinds (List.replicate (Kind.dropped before + 1) Values.nil)
  rw [lazily_eq, Lazy._collect, take_limit_eq hkinds, ← Kind.limit] at heq
  simp only at heq
  rw [collect_each_halts fun flags hstop => stopping_halts hstop,
    collect_each_eq stopping_clean hroom rfl, flow_stopping hother, List.nil_append, upto_one hroom] at heq
  have hlost : Values.array [] ∈ eagerly (stopping (Values.array []) Values.nil before between ++
      (front.map (Kind.pass (α := α) single) ++
        kind.without (Values.array []) Values.nil :: back.map (Kind.pass single)))
      (List.replicate (Kind.dropped before + 1) Values.nil) :=
    upto_sublist.subset (heq ▸ List.mem_singleton_self _)
  rw [eagerly_append, eagerly_append, eagerly_cons] at hlost
  have hfront : eagerly (front.map (Kind.pass single)) (eagerly (stopping (Values.array []) Values.nil before between)
      (List.replicate (Kind.dropped before + 1) (Values.nil : α))) <+: [Values.array []] := by
    refine (eagerly_single front _).trans ?_
    rcases prefix_one (eagerly_stopping hother) with h | h
    · rw [h, List.drop_nil]
      exact List.nil_prefix
    · rw [h]
      cases Kind.dropped front <;> simp
  have hback := (eagerly_single back _).subset hlost
  exact not_mem_without (by simpa using hkind) hother hfront ((List.drop_subset _ _) hback)

end

/-- When lazy and eager are the same, for all blocks and all arrays. -/
theorem agrees_iff : Agrees α cap kinds ↔ Kind.safe cap kinds = true := by
  constructor
  · intro hagrees
    rw [Kind.safe]
    split
    · rename_i hnone
      obtain ⟨n, hlimit, hn⟩ : ∃ n, Kind.limit cap kinds = some n ∧ n ≤ 0 := by
        simpa [Option.any_eq_true] using hnone
      exact cut_of_agrees hagrees hlimit hn
    · rename_i hpos
      have hroom : ∀ n ∈ Kind.limit cap kinds, 0 < n := fun n hn => by simpa [Option.mem_def.mp hn] using hpos
      have htakes : (Kind.limit cap kinds).all (Kind.takes_last · kinds) = true := by
        cases hlimit : Kind.limit cap kinds with
        | none => rfl
        | some n => exact takes_last_of_agrees hagrees hlimit (hroom n hlimit)
      simp [htakes, stops_last_of_agrees hagrees hroom, plain_of_agrees hagrees hroom]
  · intro hsafe ops hkinds xs
    exact collect_of_safe hkinds hsafe

/-- Lazy equals eager for all blocks and all arrays exactly on the safe chains. -/
theorem lazy_is_eager_iff (α : Type) [Values α] (kinds : List Kind) :
    ((∀ ops : List (Op α), List.Forall₂ Op.IsKind ops kinds → ∀ xs, (lazily ops xs).to_a = eagerly ops xs) ↔
      Kind.safe none kinds = true) ∧
    ∀ n, (∀ ops : List (Op α), List.Forall₂ Op.IsKind ops kinds → ∀ xs,
        (lazily ops xs).first n = (eagerly ops xs).take n.toNat) ↔ Kind.safe (some n) kinds = true :=
  ⟨agrees_iff, fun _ => agrees_iff⟩

end

/-- Integers, and arrays of them. -/
inductive Item where
  | nil
  | int (i : Int)
  | array (xs : List Item)

def Item.elements : Item → Option (List Item)
  | .array xs => some xs
  | _ => none

def Item.to_a : Item → Option (List Item)
  | .nil => some []
  | .array xs => some xs
  | .int _ => none

instance : Values Item where
  nil := .nil
  array := .array
  elements := Item.elements
  to_a := Item.to_a
  elements_array _ := rfl
  elements_nil := rfl
  to_a_elements v xs h := by cases v <;> cases h; rfl
  to_a_nil := rfl

def Item.even : Item → Bool
  | .int i => i % 2 == 0
  | _ => false

/-- `[1, 2, 3, 4].lazy.take(2).select(&:even?).to_a` is `[2, 4]`, and `[1].lazy.first(0)` is `[1]`. -/
theorem lazy_is_not_eager :
    (lazily [.take 2, .select Item.even] [.int 1, .int 2, .int 3, .int 4]).to_a ≠
      eagerly [.take 2, .select Item.even] [.int 1, .int 2, .int 3, .int 4] ∧
    (lazily [] [Item.int 1]).first 0 ≠ (eagerly [] [Item.int 1]).take 0 := by
  have hlazy : (lazily [.take 2, .select Item.even] [.int 1, .int 2, .int 3, .int 4]).to_a = [.int 2, .int 4] := rfl
  have hfirst : (lazily [] [Item.int 1]).first 0 = [.int 1] := rfl
  rw [hlazy, hfirst]
  exact ⟨by simp [Op.eagerly, Item.even], by simp⟩

example : Kind.safe none [.select, .map, .drop 1, .take 5, .map, .take 3] = true := by decide

end stoned.lazy
