import Stoned.LazyLaw

namespace stoned.lazy

/-! ### Chains without their blocks -/

/-- A stage without its block. The block of a `plain` `flat_map` returns only values
of which `flat_map` makes the same on an array and on its lazy enumerator. -/
inductive Kind where
  | select
  | reject
  | map
  | flat_map (plain : Bool)
  | take (n : Int)
  | take_while
  | drop (n : Int)
  | drop_while
  deriving DecidableEq

inductive Op.IsKind {α : Type} [Values α] : Op α → Kind → Prop where
  | select (arg : α → Bool) : (Op.select arg).IsKind .select
  | reject (arg : α → Bool) : (Op.reject arg).IsKind .reject
  | map (arg : α → α) : (Op.map arg).IsKind .map
  | flat_map {plain : Bool} (arg : α → α) (hplain : plain = true → ∀ v, expansion (arg v) = spliced (arg v)) :
      (Op.flat_map arg).IsKind (.flat_map plain)
  | take (n : Int) : (Op.take n).IsKind (.take n)
  | take_while (arg : α → Bool) : (Op.take_while arg).IsKind .take_while
  | drop (n : Int) : (Op.drop n).IsKind (.drop n)
  | drop_while (arg : α → Bool) : (Op.drop_while arg).IsKind .drop_while

namespace Kind

/-- The kinds that pass every value on. -/
def idle : Kind → Bool
  | .take _ => true
  | .drop n => decide (n ≤ 0)
  | _ => false

/-- The kinds that need no more values for a part of their result than for the same part of another. -/
def in_step : Kind → Bool
  | .map | .take _ | .take_while | .drop _ => true
  | _ => false

/-- How many values the `drop`s of a chain take away. -/
def dropped : List Kind → Nat
  | [] => 0
  | .drop n :: kinds => n.toNat + dropped kinds
  | _ :: kinds => dropped kinds

/-- The argument of the last `take`. -/
def take_limit : List Kind → Option Int
  | [] => none
  | .take n :: kinds => (take_limit kinds).or (some n)
  | _ :: kinds => take_limit kinds

/-- No `take` cuts off what the limit of the whole chain would let pass. -/
def takes_last (limit : Int) : List Kind → Bool
  | [] => true
  | .take n :: kinds => decide (limit + dropped kinds ≤ n) && kinds.all in_step && takes_last limit kinds
  | _ :: kinds => takes_last limit kinds

/-- Behind a `flat_map`, nothing but idle stages comes behind a `take_while`. -/
def stops_last : Bool → List Kind → Bool
  | _, [] => true
  | _, .flat_map _ :: kinds => stops_last true kinds
  | many, .take_while :: kinds => (!many || kinds.all idle) && stops_last many kinds
  | many, _ :: kinds => stops_last many kinds

/-- The first value is dropped. -/
def cut : List Kind → Bool
  | [] => false
  | .drop n :: kinds => decide (0 < n) || cut kinds
  | .flat_map _ :: _ => false
  | _ :: kinds => cut kinds

def limit (cap : Option Int) (kinds : List Kind) : Option Int := min_limit cap (take_limit kinds)

/-- The chains whose lazy form gives the elements, or the first `cap` of them, that
the methods of arrays give. -/
def safe (cap : Option Int) (kinds : List Kind) : Bool :=
  if (limit cap kinds).any (· ≤ 0) then cut kinds
  else (limit cap kinds).all (takes_last · kinds) && stops_last false kinds && !kinds.contains (.flat_map false)

end Kind

section
variable {α : Type} [Values α] {ops : List (Op α)} {op : Op α} {kinds : List Kind} {kind : Kind} {xs ys : List α}
  {idx : Nat} {cap : Option Int}

/-! ### Safe chains -/

omit [Values α] in
theorem lazily_eq : lazily ops xs = { src := xs, ops } := by
  have happend : ∀ lazy : Lazy α, ops.foldl Op.lazily lazy = { lazy with ops := lazy.ops ++ ops } := by
    induction ops with
    | nil => simp
    | cons op ops ih =>
      intro lazy
      rw [List.foldl_cons, ih]
      cases op <;> simp [Op.lazily, Lazy.select, Lazy.reject, Lazy.map, Lazy.flat_map, Lazy.take, Lazy.take_while,
        Lazy.drop, Lazy.drop_while]
  rw [lazily, happend]
  rfl

theorem take_limit_eq (hkinds : List.Forall₂ Op.IsKind ops kinds) : take_limit ops = Kind.take_limit kinds := by
  have hor : ∀ limit : Option Int, ops.foldl Op.take_limit limit = (Kind.take_limit kinds).or limit := by
    induction hkinds with
    | nil => simp [Kind.take_limit]
    | cons hkind _ ih =>
      intro limit
      rw [List.foldl_cons, ih]
      cases hkind <;> simp [Kind.take_limit, Op.take_limit]
  simpa [take_limit] using hor none

/-- With a limit that lets a value pass, the lazy chain gives what flows through
it up to the limit. -/
theorem collect_eq (hkinds : List.Forall₂ Op.IsKind ops kinds) (hclean : stops_clean false ops)
    (hroom : ∀ n ∈ Kind.limit cap kinds, 0 < n) :
    (lazily ops xs)._collect cap = upto (Kind.limit cap kinds) (flow new_flags 0 ops xs) := by
  rw [lazily_eq, Lazy._collect, take_limit_eq hkinds]
  have hroom' : ∀ n ∈ Kind.limit cap kinds, (([] : List α).length : Int) < n := hroom
  exact collect_each_eq hclean hroom' rfl

@[simp] theorem eagerly_cons : eagerly (op :: ops) xs = eagerly ops (op.eagerly xs) := rfl

@[simp] theorem eagerly_nil : eagerly ops ([] : List α) = [] := by
  induction ops with
  | nil => rfl
  | cons op ops ih => cases op <;> simp [Op.eagerly, ih]

/-- Apart from `take`, a plain stage does the same on an array. -/
theorem eagerly_eq_rest (hkind : op.IsKind kind) (hplain : kind ≠ .flat_map false) (htake : ∀ n, kind ≠ .take n) :
    op.eagerly xs = op.rest new_flags idx xs := by
  cases hkind with
  | flat_map arg hexpand =>
    rename_i plain
    cases plain with
    | false => exact absurd rfl hplain
    | true => simp [Op.eagerly, Op.rest, hexpand rfl]
  | take n => exact absurd rfl (htake n)
  | _ => simp [Op.eagerly, Op.rest, new_flags]

omit [Values α] in
theorem take_take_while (p : α → Bool) (n : Nat) : (xs.takeWhile p).take n = (xs.take n).takeWhile p := by
  induction xs generalizing n with
  | nil => simp
  | cons x xs ih =>
    cases n with
    | zero => simp
    | succ n => cases hx : p x <;> simp [hx, ih]

/-- Behind a `take`: where two lists begin with the same `m` values, what the
limit lets pass is the same. -/
theorem flow_upto (hkinds : List.Forall₂ Op.IsKind ops kinds) (hstep : ∀ kind ∈ kinds, kind.in_step = true)
    {limit : Int}
    (htakes : Kind.takes_last limit kinds = true) {m : Nat} (hm : limit + Kind.dropped kinds ≤ m)
    (hsame : xs.take m = ys.take m) :
    (flow new_flags idx ops xs).take limit.toNat = (eagerly ops ys).take limit.toNat := by
  induction hkinds generalizing idx xs ys m with
  | nil =>
    have hle : limit.toNat ≤ m := by
      simp only [Kind.dropped] at hm
      omega
    have htake := congrArg (List.take limit.toNat) hsame
    rwa [List.take_take, List.take_take, min_eq_left hle] at htake
  | cons hkind hkinds ih =>
    have hstep' := fun kind hmem => hstep kind (List.mem_cons_of_mem _ hmem)
    rw [flow, eagerly_cons]
    cases hkind with
    | map arg =>
      refine ih hstep' htakes hm ?_
      rw [Op.rest, Op.eagerly, array.map_eq, ← List.map_take, ← List.map_take, hsame]
    | take n =>
      simp only [Kind.takes_last, Bool.and_eq_true, decide_eq_true_eq] at htakes
      refine ih hstep' htakes.2 (m := min m n.toNat) ?_ ?_
      · simp only [Kind.dropped] at hm
        omega
      · rw [Op.rest, Op.eagerly, array.take_eq, List.take_take, min_assoc, min_self, ← List.take_take,
          List.take_take, min_comm, ← List.take_take, hsame, List.take_take, min_comm]
    | take_while arg =>
      refine ih hstep' htakes hm ?_
      rw [Op.rest, Op.eagerly, array.take_while_eq, take_take_while, take_take_while, hsame]
    | drop n =>
      refine ih hstep' htakes (m := m - n.toNat) ?_ ?_
      · simp only [Kind.dropped] at hm
        omega
      · have hdrop := congrArg (List.drop n.toNat) hsame
        simpa [Op.rest, Op.eagerly, new_flags, List.drop_take] using hdrop
    | _ => cases hstep _ List.mem_cons_self

/-- The takes only cut off what the limit would cut off. -/
theorem flow_eagerly (hkinds : List.Forall₂ Op.IsKind ops kinds) (hplain : Kind.flat_map false ∉ kinds) {limit : Int}
    (htakes : Kind.takes_last limit kinds = true) :
    (flow new_flags idx ops xs).take limit.toNat = (eagerly ops xs).take limit.toNat := by
  induction hkinds generalizing idx xs with
  | nil => rfl
  | cons hkind hkinds ih =>
    rename_i op kind ops kinds
    have hplain' : Kind.flat_map false ∉ kinds := fun h => hplain (List.mem_cons_of_mem _ h)
    rw [flow, eagerly_cons]
    by_cases htake : ∃ n, kind = .take n
    · obtain ⟨n, rfl⟩ := htake
      cases hkind
      simp only [Kind.takes_last, Bool.and_eq_true, decide_eq_true_eq, List.all_eq_true] at htakes
      obtain ⟨⟨hn, hstep⟩, htakes⟩ := htakes
      refine flow_upto hkinds hstep htakes (m := n.toNat) (by omega) ?_
      simp [Op.rest, Op.eagerly]
    · have hstage : op.eagerly xs = op.rest new_flags idx xs :=
        eagerly_eq_rest hkind (fun h => hplain (h ▸ List.mem_cons_self)) (fun n h => htake ⟨n, h⟩)
      rw [hstage]
      refine ih hplain' ?_
      cases kind with
      | take n => exact absurd ⟨n, rfl⟩ htake
      | _ => exact htakes

/-- Without a `take` nothing is cut off. -/
theorem flow_eq_eagerly (hkinds : List.Forall₂ Op.IsKind ops kinds) (hplain : Kind.flat_map false ∉ kinds)
    (hnone : Kind.take_limit kinds = none) : flow new_flags idx ops xs = eagerly ops xs := by
  induction hkinds generalizing idx xs with
  | nil => rfl
  | cons hkind hkinds ih =>
    rename_i op kind ops kinds
    have htake : ∀ n, kind ≠ .take n := by
      rintro n rfl
      simp [Kind.take_limit] at hnone
    rw [flow, eagerly_cons, eagerly_eq_rest hkind (fun h => hplain (h ▸ List.mem_cons_self)) htake]
    refine ih (fun h => hplain (List.mem_cons_of_mem _ h)) ?_
    cases kind with
    | take n => exact absurd rfl (htake n)
    | _ => exact hnone

theorem length_eagerly_le (hkinds : List.Forall₂ Op.IsKind ops kinds) (hstep : ∀ kind ∈ kinds, kind.in_step = true) :
    (eagerly ops xs).length ≤ xs.length := by
  induction hkinds generalizing xs with
  | nil => exact le_rfl
  | cons hkind _ ih =>
    refine (ih fun kind hmem => hstep kind (List.mem_cons_of_mem _ hmem)).trans ?_
    cases hkind with
    | map | take | drop => simp [Op.eagerly]
    | take_while arg => simpa [Op.eagerly] using (List.takeWhile_sublist arg).length_le
    | _ => cases hstep _ List.mem_cons_self

/-- Behind the last `take` no values are added. -/
theorem length_eagerly_le_limit (hkinds : List.Forall₂ Op.IsKind ops kinds) {limit last : Int}
    (htakes : Kind.takes_last limit kinds = true) (hlast : Kind.take_limit kinds = some last) :
    (eagerly ops xs).length ≤ last.toNat := by
  induction hkinds generalizing xs with
  | nil => cases hlast
  | cons hkind hkinds ih =>
    rw [eagerly_cons]
    cases hkind with
    | take n =>
      simp only [Kind.takes_last, Bool.and_eq_true, decide_eq_true_eq, List.all_eq_true] at htakes
      rw [Kind.take_limit] at hlast
      cases hbehind : Kind.take_limit _ with
      | some m =>
        rw [hbehind] at hlast
        cases hlast
        exact ih htakes.2 hbehind
      | none =>
        rw [hbehind] at hlast
        cases hlast
        refine (length_eagerly_le hkinds htakes.1.2).trans ?_
        simp [Op.eagerly]
    | _ => exact ih htakes hlast

theorem eagerly_nonpos (hkinds : List.Forall₂ Op.IsKind ops kinds) {last : Int}
    (hlast : Kind.take_limit kinds = some last) (hnone : last ≤ 0) : eagerly ops xs = [] := by
  induction hkinds generalizing xs with
  | nil => cases hlast
  | cons hkind hkinds ih =>
    rw [eagerly_cons]
    cases hkind with
    | take n =>
      rw [Kind.take_limit] at hlast
      cases hbehind : Kind.take_limit _ with
      | some m =>
        rw [hbehind] at hlast
        cases hlast
        exact ih hbehind
      | none =>
        rw [hbehind] at hlast
        cases hlast
        have hzero : last.toNat = 0 := by omega
        simp [Op.eagerly, hzero]
    | _ => exact ih hlast

@[simp] theorem min_limit_none (limit : Option Int) : min_limit none limit = limit := by cases limit <;> rfl

@[simp] theorem min_limit_some_none (n : Int) : min_limit (some n) none = some n := rfl

@[simp] theorem min_limit_some_some (n m : Int) : min_limit (some n) (some m) = some (min n m) := rfl

/-- Where the limit lets nothing pass, the methods of arrays give nothing. -/
theorem upto_nonpos (hkinds : List.Forall₂ Op.IsKind ops kinds) {n : Int} (hlimit : Kind.limit cap kinds = some n)
    (hnone : n ≤ 0) : upto cap (eagerly ops xs) = [] := by
  rw [Kind.limit] at hlimit
  cases hlast : Kind.take_limit kinds with
  | none =>
    rw [hlast] at hlimit
    cases cap with
    | none => cases hlimit
    | some c =>
      have hcap : c = n := Option.some.inj hlimit
      have hzero : c.toNat = 0 := by omega
      simp [upto, hzero]
  | some last =>
    rw [hlast] at hlimit
    cases cap with
    | none =>
      cases hlimit
      exact eagerly_nonpos hkinds hlast hnone
    | some c =>
      simp only [min_limit_some_some, Option.some.injEq] at hlimit
      by_cases hcap : c ≤ 0
      · have hzero : c.toNat = 0 := by omega
        simp [upto, hzero]
      · rw [eagerly_nonpos hkinds hlast (by omega)]
        simp [upto]

/-- The first value gets lost on its way. -/
theorem stages_cut (hkinds : List.Forall₂ Op.IsKind ops kinds) (hcut : Kind.cut kinds = true) {vals : List α}
    (hone : vals.length ≤ 1) {flags : Flags} (hstop : flags.stop = false)
    (hfresh : ∀ j, idx ≤ j → flags.drop_counts j = 0) : (stages ops idx vals false flags).1 = [] := by
  induction hkinds generalizing idx vals flags with
  | nil => cases hcut
  | cons hkind hkinds ih =>
    rename_i op kind ops kinds
    rw [stages_cons hstop]
    have hstage := (stage_staged hstop : Staged op idx vals flags _ _ _)
    by_cases hdrop : ∃ n, kind = .drop n ∧ 0 < n
    · obtain ⟨n, rfl, hn⟩ := hdrop
      cases hkind
      have hnone : vals.drop n.toNat = [] := List.drop_eq_nil_of_le (by omega)
      simp [stage, drop_vals_eq, hfresh idx le_rfl, hnone, stages_halted]
    have hflat : ∀ plain, kind ≠ .flat_map plain := by
      rintro plain rfl
      cases hcut
    have hcut' : Kind.cut kinds = true := by
      cases kind with
      | drop n =>
        simp only [Kind.cut, Bool.or_eq_true, decide_eq_true_eq] at hcut
        exact hcut.resolve_left fun hn => hdrop ⟨n, rfl, hn⟩
      | flat_map plain => exact absurd rfl (hflat plain)
      | _ => exact hcut
    have hshrinks := (hstage.shrinks (by rintro arg rfl; cases hkind; exact hflat _ rfl)).trans hone
    generalize (stage op idx vals flags).1 = vals₁ at hstage hshrinks ⊢
    generalize (stage op idx vals flags).2.1 = skip₁ at hstage ⊢
    generalize (stage op idx vals flags).2.2 = flags₁ at hstage ⊢
    cases hstop₁ : flags₁.stop with
    | true =>
      obtain ⟨arg, rfl, hall, hvals⟩ := hstage.stops hstop₁
      rw [stages_halted (by simp [hstop₁]), hvals]
      cases vals with
      | nil => rfl
      | cons v later =>
        cases later with
        | nil => simpa using hall
        | cons => simp at hone
    | false =>
      cases hskip : skip₁ with
      | true => rw [stages_halted (by simp), hstage.skips hskip]
      | false =>
        refine ih hcut' hshrinks hstop₁ ?_
        intro j hj
        rw [← (hstage.others j (by omega)).1, hfresh j (by omega)]

theorem collect_cut (hkinds : List.Forall₂ Op.IsKind ops kinds) (hcut : Kind.cut kinds = true) {n : Int}
    (hlimit : Kind.limit cap kinds = some n) (hnone : n ≤ 0) : (lazily ops xs)._collect cap = [] := by
  rw [lazily_eq, Lazy._collect, take_limit_eq hkinds, ← Kind.limit, hlimit]
  cases xs with
  | nil => rfl
  | cons x xs =>
    have hlost : (stages ops 0 [x] false new_flags).1 = [] := stages_cut hkinds hcut le_rfl rfl fun _ _ => rfl
    have hstop : new_flags.stop = false := rfl
    rw [collect_each, if_neg (by simp [hstop])]
    obtain ⟨vals, skip, flags', hr⟩ : ∃ vals skip flags', stages ops 0 [x] false new_flags = (vals, skip, flags') :=
      ⟨_, _, _, rfl⟩
    rw [hr] at hlost ⊢
    obtain rfl : vals = [] := hlost
    simp [push_vals, hnone]

theorem idle_of_kind (hkind : op.IsKind kind) (hidle : kind.idle = true) : op.idle := by
  cases hkind with
  | take n => trivial
  | drop n =>
    have hn : n ≤ 0 := of_decide_eq_true hidle
    exact hn
  | _ => cases hidle

theorem stops_clean_of_kinds (hkinds : List.Forall₂ Op.IsKind ops kinds) {many : Bool}
    (hstops : Kind.stops_last many kinds = true) : stops_clean many ops := by
  induction hkinds generalizing many with
  | nil => trivial
  | cons hkind hkinds ih =>
    cases hkind with
    | take_while arg =>
      simp only [Kind.stops_last, Bool.and_eq_true, Bool.or_eq_true, Bool.not_eq_true', List.all_eq_true] at hstops
      refine ⟨?_, ih hstops.2⟩
      rintro rfl
      have hidle := hstops.1.resolve_left Bool.noConfusion
      refine .inr fun op hop => ?_
      obtain ⟨i, hi, rfl⟩ := List.getElem_of_mem hop
      have hlen := hkinds.length_eq
      exact idle_of_kind (hkinds.get hi (hlen ▸ hi)) (hidle _ (List.get_mem _ _))
    | _ => exact ih hstops

/-- On a safe chain, lazy and eager are the same. -/
theorem collect_of_safe (hkinds : List.Forall₂ Op.IsKind ops kinds) (hsafe : Kind.safe cap kinds = true) :
    (lazily ops xs)._collect cap = upto cap (eagerly ops xs) := by
  rw [Kind.safe] at hsafe
  split at hsafe
  · rename_i hnone
    obtain ⟨n, hlimit, hn⟩ : ∃ n, Kind.limit cap kinds = some n ∧ n ≤ 0 := by
      simpa [Option.any_eq_true] using hnone
    rw [collect_cut hkinds hsafe hlimit hn, upto_nonpos hkinds hlimit hn]
  · rename_i hroom
    simp only [Bool.and_eq_true, Bool.not_eq_true', List.contains_eq_mem, decide_eq_false_iff_not] at hsafe
    obtain ⟨⟨htakes, hstops⟩, hplain⟩ := hsafe
    rw [collect_eq hkinds (stops_clean_of_kinds hkinds hstops)
      fun n hn => by simpa [Option.mem_def.mp hn] using hroom]
    cases hlimit : Kind.limit cap kinds with
    | none =>
      cases cap with
      | none =>
        rw [Kind.limit, min_limit_none] at hlimit
        exact flow_eq_eagerly hkinds hplain hlimit
      | some c =>
        rw [Kind.limit] at hlimit
        cases hlast : Kind.take_limit kinds <;> simp [hlast] at hlimit
    | some n =>
      have htakes' : Kind.takes_last n kinds = true := by simpa [hlimit] using htakes
      rw [upto, Option.elim_some, flow_eagerly hkinds hplain htakes']
      rw [Kind.limit] at hlimit
      cases hlast : Kind.take_limit kinds with
      | none =>
        rw [hlast] at hlimit
        cases cap with
        | none => cases hlimit
        | some c =>
          cases hlimit
          rfl
      | some last =>
        have hlen : (eagerly ops xs).length ≤ last.toNat := length_eagerly_le_limit hkinds htakes' hlast
        rw [hlast] at hlimit
        cases cap with
        | none =>
          cases hlimit
          exact List.take_of_length_le hlen
        | some c =>
          simp only [min_limit_some_some, Option.some.injEq] at hlimit
          subst hlimit
          rw [upto, Option.elim_some]
          rcases le_total c last with hle | hle
          · rw [min_eq_left hle]
          · rw [min_eq_right hle, List.take_of_length_le hlen, List.take_of_length_le (by omega)]

end

end stoned.lazy
