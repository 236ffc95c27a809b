import Mathlib.Data.List.TakeWhile
import Stoned.OpAssignLaw
import Stoned.Program.Replace

namespace stoned

open program

/-! Which part of an array each target of a destructuring pattern gets. -/

/-- What a target is handed: a value, or an array of several. -/
inductive Share where
  | elem (val : Value)
  | rest (vals : List Value)

def hand (bind : Node → Value → P Unit) (target : Node) : Share → P Unit
  | .elem val => bind target val
  | .rest vals => do bind target (← val_array_of vals)

/-- Hands each target its share, from the left. -/
def hand_out (bind : Node → Value → P Unit) : List Node → List Share → P Unit
  | target :: targets, share :: shares => do
    hand bind target share
    hand_out bind targets shares
  | _, _ => return ()

/-- The targets of a pattern before a splat, the splat, and those after it. -/
structure Targets where
  front : List Node
  splat : Node
  back : List Node
  front_plain : ∀ target ∈ front, is_splat target = false
  splat_collects : is_splat splat = true
  back_plain : ∀ target ∈ back, is_splat target = false

def Targets.elements (t : Targets) : List Node := t.front ++ t.splat :: t.back

/-- What `p` targets before a splat, the splat and `q` targets after it are due:
the first targets the first elements, the last targets the last elements that
are left, the splat what is in between. -/
def due (p q : Nat) (elems : List Value) : List Share :=
  (List.range p).map (fun i => .elem (elems.getD i .nil)) ++
    .rest ((elems.take (elems.length - q)).drop p) ::
      (List.range q).map fun j => .elem (elems.getD (max p (elems.length - q) + j) .nil)

def Targets.due (t : Targets) (elems : List Value) : List Share :=
  stoned.due t.front.length t.back.length elems

def Share.vals : Share → List Value
  | .elem val => [val]
  | .rest vals => vals

theorem elems_getD (elems : List Value) {n : Nat} (hn : n ≤ elems.length) :
    (List.range n).map (fun i => elems.getD i .nil) = elems.take n := by
  refine List.ext_getElem (by simp [hn]) fun i hi _ => ?_
  have hi : i < elems.length := by simp at hi; omega
  simp [hi]

theorem vals_of_elems (f : Nat → Value) (indices : List Nat) :
    (indices.map fun i => Share.elem (f i)).flatMap Share.vals = indices.map f := by
  rw [List.flatMap_map]
  exact List.map_eq_flatMap.symm

/-- No element is lost or due twice; targets that get none are due nil. -/
theorem due_vals (p q : Nat) (elems : List Value) :
    (due p q elems).flatMap Share.vals = elems ++ List.replicate (p + q - elems.length) .nil := by
  rw [due, List.flatMap_append, List.flatMap_cons, vals_of_elems, vals_of_elems, Share.vals]
  by_cases hroom : p + q ≤ elems.length
  · have hlast : (List.range q).map (fun j => elems.getD (elems.length - q + j) .nil) =
        elems.drop (elems.length - q) := by
      refine List.ext_getElem (by simp; omega) fun j hj _ => ?_
      have hj : elems.length - q + j < elems.length := by simp at hj; omega
      simp [hj]
    have htake : elems.take p = (elems.take (elems.length - q)).take p := by
      rw [List.take_take, Nat.min_eq_left (by omega)]
    rw [elems_getD elems (by omega), show max p (elems.length - q) = elems.length - q by omega, hlast, htake,
      ← List.append_assoc, List.take_append_drop, List.take_append_drop]
    simp [hroom]
  · have hnone : (elems.take (elems.length - q)).drop p = [] := List.drop_eq_nil_of_le (by simp; omega)
    rw [hnone, List.nil_append, show max p (elems.length - q) = p by omega]
    refine List.ext_getElem (by simp; omega) fun i hi _ => ?_
    by_cases hi : i < p
    · by_cases hsome : i < elems.length
      · simp [List.getElem_append_left, hi, hsome]
      · simp [List.getElem_append_left, List.getElem_append_right, hi, Nat.not_lt.mp hsome]
    · by_cases hsome : i < elems.length
      · simp [List.getElem_append_left, List.getElem_append_right, Nat.not_lt.mp hi, hsome,
          Nat.add_sub_cancel' (Nat.not_lt.mp hi)]
      · simp [List.getElem_append_right, Nat.not_lt.mp hi, Nat.not_lt.mp hsome,
          Nat.add_sub_cancel' (Nat.not_lt.mp hi)]

/-- There are elements for all targets, or none at all, or none are counted from the end. -/
def Targets.Room (t : Targets) (n : Nat) : Prop :=
  t.back = [] ∨ n = 0 ∨ t.front.length + t.back.length ≤ n

/-- The two places where patterns are taken apart. -/
inductive Destructuring where
  | assignment
  | parameter

def Destructuring.bind : Destructuring → Env → Node → Value → P Unit
  | .assignment => assign_target
  | .parameter => bind_pattern

def Destructuring.body : Destructuring → Env → Node → Value → P Unit
  | .assignment => assign_target_body
  | .parameter => bind_pattern_body

/-- The share the source hands to an element of a pattern. -/
def source_share (elements : List Node) (val : Value) (array : Option (List Value)) (idx : Nat)
    (element : Node) : Share :=
  if is_splat element then .rest (destructured_rest elements.length idx val array)
  else .elem (destructured_elem elements.length idx (splat_index elements) val array)

def source_shares (elements : List Node) (val : Value) (array : Option (List Value)) : Nat → List Node → List Share
  | _, [] => []
  | idx, element :: rest =>
    source_share elements val array idx element :: source_shares elements val array (idx + 1) rest

theorem destructure_cons (bind : Node → Value → P Unit) (elements : List Node) (val : Value) (idx : Nat)
    (element : Node) (rest : List Node) :
    destructure bind elements val idx (element :: rest) =
      array_elems val >>= fun array => hand bind element (source_share elements val array idx element) >>=
        fun _ => destructure bind elements val (idx + 1) rest := by
  rw [destructure]
  refine bind_congr fun array => ?_
  cases hsplat : is_splat element with
  | true => simp [source_share, hand, hsplat]
  | false => simp [source_share, hand, hsplat]

theorem array_elems_agrees (answers : Oracle evaluator_calls State) (a : Ref) (f : Option (List Value) → P Unit)
    (s : State) :
    (array_elems (.array a) >>= f).AgreeOn (answering answers) is_effect (f (some (s.ev.elems a))) s :=
  ⟨rfl, rfl⟩

/-- While the array stays as it is, each target is handed its share of it. -/
theorem destructure_agrees {answers : Oracle evaluator_calls State} {bind : Node → Value → P Unit}
    {elements : List Node} {a : Ref} {elems : List Value} {idx : Nat} {rest : List Node} {s : State}
    (h : (destructure bind elements (.array a) idx rest).Along (answering answers)
      (fun _ t => t.ev.elems a = elems) s) :
    (destructure bind elements (.array a) idx rest).AgreeOn (answering answers) is_effect
      (hand_out bind rest (source_shares elements (.array a) (some elems) idx rest)) s := by
  induction rest generalizing idx s with
  | nil => exact .refl _ s
  | cons element rest ih =>
    rw [destructure_cons] at h ⊢
    obtain ⟨hget, hbehind⟩ := (along_bind _ _ _).mp h
    have helems : s.ev.elems a = elems := hget.1
    have hread : (array_elems (.array a)).run (answering answers) s = some (some (s.ev.elems a), s) := rfl
    refine (array_elems_agrees answers a _ s).trans ?_
    rw [helems, source_shares, hand_out]
    refine agreeOn_bind_iff.mpr fun _ t hhand => ih ?_
    have hrest := hbehind _ _ hread
    rw [helems] at hrest
    exact ((along_bind _ _ _).mp hrest).2 _ t hhand

section
variable {elements : List Node} {val : Value} {array : Option (List Value)}

theorem source_shares_append (idx : Nat) (first rest : List Node) :
    source_shares elements val array idx (first ++ rest) =
      source_shares elements val array idx first ++ source_shares elements val array (idx + first.length) rest := by
  induction first generalizing idx with
  | nil => simp [source_shares]
  | cons element first ih =>
    rw [List.cons_append, source_shares, source_shares, ih, List.cons_append, List.length_cons]
    congr 3
    omega

/-- Targets that are no splats are each handed one value. -/
theorem source_shares_plain {idx : Nat} {nodes : List Node} (hplain : ∀ node ∈ nodes, is_splat node = false) :
    source_shares elements val array idx nodes =
      (List.range nodes.length).map fun i =>
        .elem (destructured_elem elements.length (idx + i) (splat_index elements) val array) := by
  induction nodes generalizing idx with
  | nil => rfl
  | cons node nodes ih =>
    have hnode : is_splat node = false := hplain node (List.mem_cons_self ..)
    rw [source_shares, ih fun other h => hplain other (List.mem_cons_of_mem _ h), List.length_cons,
      List.range_succ_eq_map, List.map_cons, List.map_map]
    congr 1
    · simp [source_share, hnode]
    · refine List.map_congr_left fun i _ => ?_
      simp only [Function.comp_apply, Nat.succ_eq_add_one]
      congr 2
      omega

end

namespace Targets

variable (t : Targets) (elems : List Value)

theorem splat_index_elements : splat_index t.elements = some t.front.length := by
  have hlength : t.elements.length = t.front.length + (t.back.length + 1) := by simp [elements]
  have hbehind : ∀ i ∈ List.range' (t.front.length + 1) t.back.length, (t.elements[i]?).any is_splat = false := by
    intro i hi
    obtain ⟨j, hj, rfl⟩ : ∃ j < t.back.length, i = t.front.length + 1 + j := by
      obtain ⟨hlow, hhigh⟩ := List.mem_range'_1.mp hi
      exact ⟨i - (t.front.length + 1), by omega, by omega⟩
    have hget : t.elements[t.front.length + 1 + j]? = some t.back[j] := by
      rw [elements, List.getElem?_append_right (by omega)]
      simp [show t.front.length + 1 + j - t.front.length = j + 1 by omega, hj]
    rw [hget]
    exact t.back_plain _ (List.getElem_mem hj)
  have hat : (t.elements[t.front.length]?).any is_splat = true := by
    simp [elements, t.splat_collects]
  rw [splat_index, hlength, List.range_eq_range', ← List.range'_append_1, List.reverse_append, List.find?_append,
    Nat.zero_add, List.range'_succ, List.reverse_cons, List.find?_append]
  rw [List.find?_eq_none.mpr fun i hi => by simp [hbehind i (List.mem_reverse.mp hi)]]
  simp [hat]

/-- The shares the source hands to the targets. -/
def dealt : List Share :=
  (List.range t.front.length).map (fun i => .elem (elems.getD i .nil)) ++
    .rest ((elems.take (elems.length - t.back.length)).drop t.front.length) ::
      (List.range t.back.length).map fun j =>
        .elem (if t.back.length - j ≤ elems.length then elems.getD (elems.length - (t.back.length - j)) .nil else .nil)

theorem source_shares_elements (a : Ref) :
    source_shares t.elements (.array a) (some elems) 0 t.elements = t.dealt elems := by
  have hlength : t.elements.length = t.front.length + (t.back.length + 1) := by simp [elements]
  have hsplit : source_shares t.elements (.array a) (some elems) 0 t.elements =
      source_shares t.elements (.array a) (some elems) 0 (t.front ++ t.splat :: t.back) := rfl
  rw [hsplit, source_shares_append, source_shares_plain t.front_plain, source_shares,
    source_shares_plain t.back_plain, dealt]
  congr 1
  · refine List.map_congr_left fun i hi => ?_
    have hi : i < t.front.length := List.mem_range.mp hi
    have hbefore : ¬ t.front.length < i := by omega
    simp [destructured_elem, splat_index_elements, hbefore]
  · congr 1
    · rw [source_share, if_pos t.splat_collects, destructured_rest, hlength]
      congr 1
      refine List.ext_getElem (by simp) fun i hi _ => ?_
      have hi : i < elems.length - t.back.length - t.front.length := by simp at hi; omega
      simp [show t.front.length + i < elems.length by omega]
    · refine List.map_congr_left fun j hj => ?_
      have hj : j < t.back.length := List.mem_range.mp hj
      have hbehind : t.front.length < 0 + t.front.length + 1 + j := by omega
      have hoffset : t.elements.length - (0 + t.front.length + 1 + j) = t.back.length - j := by omega
      rw [destructured_elem, splat_index_elements]
      simp only [Option.any_some, hbehind, decide_true, if_true, hoffset]

/-- With room for all targets each is dealt what it is due. -/
theorem dealt_eq_due (hroom : t.Room elems.length) : t.dealt elems = t.due elems := by
  rw [dealt, due, stoned.due]
  congr 2
  refine List.map_congr_left fun j hj => ?_
  have hj : j < t.back.length := List.mem_range.mp hj
  rcases hroom with hback | hnone | hroom
  · simp [hback] at hj
  · simp [List.eq_nil_of_length_eq_zero hnone]
  · rw [if_pos (by omega), show max t.front.length (elems.length - t.back.length) + j =
      elems.length - (t.back.length - j) by omega]

/-- Without it the last target is dealt the last element, which it is not due. -/
theorem dealt_last (hroom : ¬ t.Room elems.length) :
    (∃ shares, t.dealt elems = shares ++ [.elem (elems.getD (elems.length - 1) .nil)] ∧
      shares.length + 1 = t.elements.length) ∧
    ∃ shares, t.due elems = shares ++ [.elem .nil] ∧ shares.length + 1 = t.elements.length := by
  simp only [Room, not_or, Nat.not_le] at hroom
  obtain ⟨hback, hsome, hshort⟩ := hroom
  obtain ⟨q, hq⟩ : ∃ q, t.back.length = q + 1 :=
    Nat.exists_eq_succ_of_ne_zero fun h => hback (List.eq_nil_of_length_eq_zero h)
  have hlength : t.elements.length = t.front.length + 1 + (q + 1) := by simp [elements, hq]; omega
  constructor
  · rw [dealt, hq, List.range_succ, List.map_append, ← List.cons_append, ← List.append_assoc, List.map_singleton]
    refine ⟨_, congrArg (_ ++ [Share.elem ·]) ?_, by simp [hlength]; omega⟩
    rw [if_pos (by omega), show q + 1 - q = 1 by omega]
  · rw [due, stoned.due, hq, List.range_succ, List.map_append, ← List.cons_append, ← List.append_assoc, List.map_singleton]
    refine ⟨_, congrArg (_ ++ [Share.elem ·]) ?_, by simp [hlength]; omega⟩
    rw [List.getD_eq_getElem?_getD, List.getElem?_eq_none (by omega), Option.getD_none]

end Targets

theorem hand_out_append {bind : Node → Value → P Unit} {targets later : List Node} {shares rest : List Share}
    (hlength : targets.length = shares.length) :
    hand_out bind (targets ++ later) (shares ++ rest) =
      hand_out bind targets shares >>= fun _ => hand_out bind later rest := by
  induction targets generalizing shares with
  | nil =>
    cases shares with
    | nil => rfl
    | cons => cases hlength
  | cons target targets ih =>
    cases shares with
    | nil => cases hlength
    | cons share shares =>
      rw [List.cons_append, List.cons_append, hand_out, hand_out, ih (Nat.succ.inj hlength), bind_assoc]

/-- Answers under which targets take what they are handed. -/
def taking : Oracle evaluator_calls State
  | .assign_target .., s => some ((), s)
  | .bind_pattern .., s => some ((), s)
  | _, _ => none

/-- The call that hands a value to a target. -/
def Destructuring.call : Destructuring → Env → Node → Value → Call
  | .assignment => .assign_target
  | .parameter => .bind_pattern

section
variable (d : Destructuring) (env : Env)

theorem bind_taking (target : Node) (val : Value) (s : State) :
    (d.bind env target val).run (answering taking) s = some ((), s) := by
  cases d with
  | assignment => rfl
  | parameter => rfl

/-- The state with one more array. -/
def State.with_array (s : State) (elems : List Value) : State :=
  { s with ev := { s.ev with arrays := s.ev.arrays ++ [{ elems, singleton_env := none, frozen := false }] } }

theorem val_array_of_run (answers : Oracle evaluator_calls State) (elems : List Value) (s : State) :
    (val_array_of elems).run (answering answers) s = some (.array s.ev.arrays.length, s.with_array elems) := rfl

theorem State.with_array_elems {s : State} {a : Ref} (ha : a < s.ev.arrays.length) (elems : List Value) :
    (s.with_array elems).ev.elems a = s.ev.elems a := by
  simp [with_array, Eval.elems, Eval.array, List.getElem?_append_left ha]

theorem hand_taking (target : Node) (share : Share) (s : State) :
    ∃ t, (hand (d.bind env) target share).run (answering taking) s = some ((), t) ∧
      ∀ a < s.ev.arrays.length, a < t.ev.arrays.length ∧ t.ev.elems a = s.ev.elems a := by
  cases share with
  | elem val => exact ⟨s, bind_taking d env target val s, fun _ ha => ⟨ha, rfl⟩⟩
  | rest vals =>
    refine ⟨s.with_array vals, ?_, fun a ha => ⟨?_, s.with_array_elems ha vals⟩⟩
    · rw [hand, run_bind_some (val_array_of_run taking vals s), bind_taking]
    · rw [State.with_array, List.length_append]
      omega

theorem hand_out_taking (targets : List Node) (shares : List Share) (s : State) :
    ∃ t, (hand_out (d.bind env) targets shares).run (answering taking) s = some ((), t) := by
  induction targets generalizing shares s with
  | nil => exact ⟨s, rfl⟩
  | cons target targets ih =>
    cases shares with
    | nil => exact ⟨s, rfl⟩
    | cons share shares =>
      obtain ⟨t, hhand, -⟩ := hand_taking d env target share s
      obtain ⟨u, hrest⟩ := ih shares t
      exact ⟨u, by rw [hand_out, run_bind_some hhand, hrest]⟩

/-- The last call is the one for the last target. -/
theorem last_handed {targets : List Node} {last : Node} {shares : List Share} {val : Value}
    (hlength : targets.length = shares.length) (s : State) :
    (((hand_out (d.bind env) (targets ++ [last]) (shares ++ [.elem val])).performed (answering taking) s).filter
      is_effect).getLast? = some (.inr (d.call env last val)) := by
  obtain ⟨t, hrun⟩ := hand_out_taking d env targets shares s
  rw [hand_out_append hlength, performed_bind hrun, List.filter_append]
  have hlast : ((hand_out (d.bind env) [last] [.elem val]).performed (answering taking) t).filter is_effect =
      [.inr (d.call env last val)] := by
    cases d with
    | assignment => rfl
    | parameter => rfl
  rw [hlast]
  exact List.getLast?_concat

theorem hand_untouched {a : Ref} {s : State} (ha : a < s.ev.arrays.length) (target : Node) (share : Share) :
    (hand (d.bind env) target share).Along (answering taking) (fun _ t => t.ev.elems a = s.ev.elems a) s := by
  have hbind (val : Value) {t : State} (ht : t.ev.elems a = s.ev.elems a) :
      (d.bind env target val).Along (answering taking) (fun _ t => t.ev.elems a = s.ev.elems a) t := by
    cases d with
    | assignment => exact ⟨ht, fun _ _ _ => trivial⟩
    | parameter => exact ⟨ht, fun _ _ _ => trivial⟩
  cases share with
  | elem val => exact hbind val rfl
  | rest vals =>
    refine (along_bind _ _ _).mpr ⟨⟨rfl, ?_⟩, fun array t hrun => ?_⟩
    · rintro _ _ ⟨⟩
      exact ⟨rfl, fun _ _ _ => trivial⟩
    · rw [val_array_of_run] at hrun
      cases hrun
      exact hbind _ (State.with_array_elems ha vals)

theorem destructure_untouched {elements rest : List Node} {a : Ref} {idx : Nat} {s : State} {elems : List Value}
    (ha : a < s.ev.arrays.length) (helems : s.ev.elems a = elems) :
    (destructure (d.bind env) elements (.array a) idx rest).Along (answering taking)
      (fun _ t => t.ev.elems a = elems) s := by
  subst helems
  induction rest generalizing idx s with
  | nil => trivial
  | cons element rest ih =>
    rw [destructure_cons]
    refine (along_bind _ _ _).mpr ⟨⟨rfl, fun _ _ _ => trivial⟩, ?_⟩
    rintro _ _ ⟨⟩
    refine (along_bind _ _ _).mpr ⟨hand_untouched d env ha element _, fun _ t hhand => ?_⟩
    obtain ⟨u, hrun, hkeeps⟩ := hand_taking d env element
      (source_share elements (.array a) (some (s.ev.elems a)) idx element) s
    cases hrun.symm.trans hhand
    obtain ⟨hu, helems⟩ := hkeeps a ha
    rw [← helems]
    exact ih hu

theorem body_array (span : Span) (elements : List Node) (a : Ref) :
    d.body env (.array span elements) (.array a) = destructure (d.bind env) elements (.array a) 0 elements := by
  cases d with
  | assignment => rfl
  | parameter => rfl

end

/-- The array stays as it is while a pattern takes it apart. -/
def Untouched (M : Machine (state_ops.withCalls evaluator_calls) State) (a : Ref) (p : P Unit) (s : State) : Prop :=
  p.Along M (fun _ t => t.ev.elems a = s.ev.elems a) s

/-- Both places hand out what is due of every array of `n` elements. -/
def Targets.Follows (t : Targets) (n : Nat) : Prop :=
  ∀ (d : Destructuring) env span a answers s, (s.ev.elems a).length = n →
    Untouched (answering answers) a (d.body env (.array span t.elements) (.array a)) s →
    (d.body env (.array span t.elements) (.array a)).AgreeOn (answering answers) is_effect
      (hand_out (d.bind env) t.elements (t.due (s.ev.elems a))) s

theorem Targets.dealt_agrees {t : Targets} {d : Destructuring} {env : Env} {span : Span} {a : Ref}
    {answers : Oracle evaluator_calls State} {s : State}
    (h : Untouched (answering answers) a (d.body env (.array span t.elements) (.array a)) s) :
    (d.body env (.array span t.elements) (.array a)).AgreeOn (answering answers) is_effect
      (hand_out (d.bind env) t.elements (t.dealt (s.ev.elems a))) s := by
  rw [Untouched, body_array] at h
  rw [body_array, ← t.source_shares_elements _ a]
  exact destructure_agrees h

/-- A state with an array of `n` elements. -/
def state_of_length (n : Nat) : State := bare_state.with_array (List.replicate n (.int 1))

theorem Targets.follows_iff (t : Targets) (n : Nat) : t.Follows n ↔ t.Room n := by
  constructor
  · intro hfollows
    by_contra hroom
    have helems : (state_of_length n).ev.elems 0 = List.replicate n (.int 1) := rfl
    have hlength : ((state_of_length n).ev.elems 0).length = n := by rw [helems, List.length_replicate]
    have huntouched : Untouched (answering taking) 0
        (Destructuring.assignment.body 0 (.array no_span t.elements) (.array 0)) (state_of_length n) := by
      rw [Untouched, body_array]
      exact destructure_untouched _ _ (Nat.lt_succ_self 0) rfl
    have hboth := (dealt_agrees huntouched).symm.trans
      (hfollows .assignment 0 no_span 0 taking _ hlength huntouched)
    obtain ⟨⟨dealt, hdealt, hdealt_length⟩, due, hdue, hdue_length⟩ :=
      t.dealt_last ((state_of_length n).ev.elems 0) (by rwa [hlength])
    obtain ⟨targets, last, htargets⟩ : ∃ targets last, t.elements = targets ++ [last] :=
      ⟨_, _, (List.dropLast_append_getLast (by simp [elements])).symm⟩
    rw [htargets, List.length_append, List.length_singleton] at hdealt_length hdue_length
    have hcalls := congrArg List.getLast? hboth.2
    rw [htargets, hdealt, hdue, last_handed _ _ (by omega), last_handed _ _ (by omega)] at hcalls
    have hn : n - 1 < n := by
      simp only [Room, not_or] at hroom
      omega
    rw [hlength, helems, List.getD_eq_getElem?_getD, List.getElem?_replicate_of_lt hn] at hcalls
    cases hcalls
  · intro hroom d env span a answers s hlength huntouched
    rw [← t.dealt_eq_due (s.ev.elems a) (by rwa [hlength])]
    exact dealt_agrees huntouched

/-- What the elements of any pattern are due. -/
def due_shares (elements : List Node) (elems : List Value) : List Share :=
  match elements.dropWhile fun element => !is_splat element with
  | [] => (List.range elements.length).map fun i => .elem (elems.getD i .nil)
  | _ :: back => due (elements.takeWhile fun element => !is_splat element).length back.length elems

/-- Taking a pattern apart by the law. -/
def lawful_body (d : Destructuring) (env : Env) (pattern : Node) (val : Value) : P Unit :=
  match pattern, val with
  | .array _ elements, .array a => do
    hand_out (d.bind env) elements (due_shares elements ((← get).elems a))
  | pattern, val => d.body env pattern val

/-- The evaluator with both places replaced by the law. -/
def lawful_evaluator (builtins : Builtins) : Procedures state_ops evaluator_calls := fun fuel call =>
  match call with
  | .assign_target env target val => lawful_body .assignment env target val
  | .bind_pattern env pattern val => lawful_body .parameter env pattern val
  | call => evaluator builtins fuel call

/-- A pattern has one splat at most, and an array of `n` elements has room for its targets. -/
def Fits (elements : List Node) (n : Nat) : Prop :=
  elements.countP is_splat ≤ 1 ∧ ∀ t : Targets, t.elements = elements → t.Room n

/-- A call that takes an array apart finds room for the targets, and the array
stays as it is meanwhile. -/
def FitsCall (builtins : Builtins) (depth : Nat) (call : Call) (s : State) : Prop :=
  ∀ (d : Destructuring) env span elements a, call = d.call env (.array span elements) (.array a) →
    Fits elements (s.ev.elems a).length ∧
      Untouched (builtins.machine depth) a (d.body env (.array span elements) (.array a)) s

theorem Targets.due_shares_elements (t : Targets) (elems : List Value) :
    due_shares t.elements elems = t.due elems := by
  have hfront : ∀ target ∈ t.front, (!is_splat target) = true := by
    simpa using t.front_plain
  rw [due_shares, elements, List.dropWhile_append_of_pos hfront, List.takeWhile_append_of_pos hfront]
  simp [t.splat_collects, due]

/-- A pattern without a splat, or one with targets around its splat. -/
theorem pattern_cases {elements : List Node} (h : elements.countP is_splat ≤ 1) :
    (∀ element ∈ elements, is_splat element = false) ∨ ∃ t : Targets, t.elements = elements := by
  by_cases hplain : ∀ element ∈ elements, is_splat element = false
  · exact .inl hplain
  · simp only [not_forall, Bool.not_eq_false] at hplain
    obtain ⟨splat, hmem, hsplat⟩ := hplain
    obtain ⟨front, back, rfl⟩ := List.append_of_mem hmem
    rw [List.countP_append, List.countP_cons_of_pos hsplat] at h
    have hfront : front.countP is_splat = 0 := by omega
    have hback : back.countP is_splat = 0 := by omega
    refine .inr ⟨⟨front, splat, back, fun target htarget => ?_, hsplat, fun target htarget => ?_⟩, rfl⟩
    · simpa using List.countP_eq_zero.mp hfront target htarget
    · simpa using List.countP_eq_zero.mp hback target htarget

theorem source_shares_eq_due {elements : List Node} {elems : List Value} (hfits : Fits elements elems.length) (a : Ref) :
    source_shares elements (.array a) (some elems) 0 elements = due_shares elements elems := by
  rcases pattern_cases hfits.1 with hplain | ⟨t, rfl⟩
  · have hnone : splat_index elements = none := by
      refine List.find?_eq_none.mpr fun i _ => ?_
      cases helement : elements[i]? with
      | none => simp
      | some element => simp [hplain element (List.mem_of_getElem? helement)]
    rw [source_shares_plain hplain, due_shares, List.dropWhile_eq_nil_iff.mpr (by simpa using hplain), hnone]
    simp [destructured_elem]
  · rw [t.source_shares_elements, t.due_shares_elements, t.dealt_eq_due elems (hfits.2 t rfl)]

theorem body_run_lawful {d : Destructuring} {env : Env} {span : Span} {elements : List Node} {a : Ref}
    {answers : Oracle evaluator_calls State} {s : State} (hfits : Fits elements (s.ev.elems a).length)
    (h : Untouched (answering answers) a (d.body env (.array span elements) (.array a)) s) :
    (d.body env (.array span elements) (.array a)).run (answering answers) s =
      (lawful_body d env (.array span elements) (.array a)).run (answering answers) s := by
  rw [Untouched, body_array] at h
  rw [body_array, (destructure_agrees h).1, source_shares_eq_due hfits]
  rfl

/-- In a run in which every pattern fits its array, patterns are taken apart by the law. -/
theorem runs_lawfully (builtins : Builtins) (depth : Nat) (call : Call) (s : State)
    (h : (evaluator builtins).Throughout state_machine (FitsCall builtins) depth call s) :
    (evaluator builtins).oracle state_machine depth call s =
      (lawful_evaluator builtins).oracle state_machine depth call s := by
  refine Procedures.replace (S := state_ops) (C := evaluator_calls) ?_ depth call s h
  intro depth call s answers hfits halike
  cases call with
  | assign_target env target val =>
    cases target with
    | array span elements =>
      cases val with
      | array a =>
        obtain ⟨hfits, huntouched⟩ := hfits .assignment env span elements a rfl
        exact body_run_lawful (d := .assignment) hfits (halike.move huntouched)
      | _ => rfl
    | _ => rfl
  | bind_pattern env pattern val =>
    cases pattern with
    | array span elements =>
      cases val with
      | array a =>
        obtain ⟨hfits, huntouched⟩ := hfits .parameter env span elements a rfl
        exact body_run_lawful (d := .parameter) hfits (halike.move huntouched)
      | _ => rfl
    | _ => rfl
  | _ => rfl

/-- Patterns hand out what is due exactly when there is room for their targets,
what is due is every element once, and runs in which all patterns fit follow the law
at every level of nesting. -/
theorem destructuring_law (builtins : Builtins) (t : Targets) (n : Nat) :
    (t.Follows n ↔ t.Room n) ∧
    (∀ p q elems, (due p q elems).flatMap Share.vals = elems ++ List.replicate (p + q - elems.length) .nil) ∧
    ∀ depth call s,
      (evaluator builtins).Throughout state_machine (FitsCall builtins) depth call s →
        (evaluator builtins).oracle state_machine depth call s =
          (lawful_evaluator builtins).oracle state_machine depth call s :=
  ⟨t.follows_iff n, due_vals, runs_lawfully builtins⟩

/-- A variable as a target, or with a splat. -/
def var_target (name : String) (splat : Bool) : Node := .param no_span (some name) none splat false false false

/-- The targets of `a, *b, c`. -/
def splat_in_the_middle : Targets where
  front := [var_target "a" false]
  splat := var_target "b" true
  back := [var_target "c" false]
  front_plain := by decide
  splat_collects := by decide
  back_plain := by decide

/-- Three elements are enough for them. -/
theorem destructuring_law_three : splat_in_the_middle.Follows 3 :=
  (destructuring_law no_builtins splat_in_the_middle 3).1.mpr (.inr (.inr (by decide)))

/-- In `a, *b, c = [1]` the only element goes to both `a` and `c`. -/
theorem only_element_bound_twice :
    ¬ (assign_target_body 0 (.array no_span splat_in_the_middle.elements) (.array 0)).AgreeOn (no_builtins.machine 2)
      is_effect (hand_out (assign_target 0) splat_in_the_middle.elements (splat_in_the_middle.due [.int 1]))
      (state_of_length 1) := by
  rintro ⟨hrun, -⟩
  have hlast := congrArg (Option.map fun out => (out.2.envs.env_get 0 "c").map Value.kind) hrun
  revert hlast
  decide

end stoned
