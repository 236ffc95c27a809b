import Mathlib.Data.List.TakeWhile
import Stoned.Evaluator

namespace stoned

open program

/-! Which argument each parameter gets. -/

/-- What a parameter is bound to: an argument, the value of its default, an
array of arguments, the call's block, or nothing yet for a keyword. -/
inductive Slot where
  | arg (val : Value)
  | default (node : Node)
  | rest (vals : List Value)
  | block
  | keyword

/-- Binds one parameter. -/
def bind_slot (env : Env) (p : Node) : Slot → P Unit
  | .arg val => bind_pattern env p val
  | .default node => do
    goes_on
    bind_pattern env p (← eval_node env (some node))
  | .rest vals => do bind_pattern env p (← val_array_of vals)
  | .block => do bind_pattern env p ((← op (.env_own_block_arg env)).getD .nil)
  | .keyword => return ()

/-- Binds parameters from the left. -/
def bind_slots (env : Env) : List (Node × Slot) → P Unit
  | [] => return ()
  | (p, slot) :: rest => do
    bind_slot env p slot
    bind_slots env rest

/-- A parameter the arguments may leave to its default. -/
def is_optional_param : Node → Bool
  | .param _ _ default_val splat block_param keyword_param keyword_splat =>
    default_val.isSome && !splat && !block_param && !keyword_param && !keyword_splat
  | _ => false

/-- A parameter that takes the arguments nothing else takes. -/
def is_rest_param : Node → Bool
  | .param _ _ _ splat block_param keyword_param keyword_splat =>
    splat && !block_param && !keyword_param && !keyword_splat
  | _ => false

/-- A block or keyword parameter. -/
def is_other_param : Node → Bool
  | .param _ _ _ splat block_param keyword_param keyword_splat =>
    !splat && (block_param || keyword_param || keyword_splat)
  | _ => false

/-- A parameter list by its groups, in their order. -/
structure ParamList where
  lead : List Node
  opts : List Node
  splat : Option Node
  post : List Node
  others : List Node
  lead_required : ∀ p ∈ lead, is_required_param p
  opts_optional : ∀ p ∈ opts, is_optional_param p
  splat_rest : ∀ p ∈ splat, is_rest_param p
  post_required : ∀ p ∈ post, is_required_param p
  others_other : ∀ p ∈ others, is_other_param p

theorem no_required : ∀ p ∈ ([] : List Node), is_required_param p := by simp
theorem no_optional : ∀ p ∈ ([] : List Node), is_optional_param p := by simp
theorem no_rest : ∀ p ∈ (none : Option Node), is_rest_param p := by simp
theorem no_other : ∀ p ∈ ([] : List Node), is_other_param p := by simp

namespace ParamList

def params (ps : ParamList) : List Node :=
  ps.lead ++ (ps.opts ++ (ps.splat.toList ++ (ps.post ++ ps.others)))

/-- The arguments left for the optional parameters and the splat. -/
def spare (ps : ParamList) (args : List Value) : Nat := args.length - ps.lead.length - ps.post.length

end ParamList

/-- Parameters with an argument each. -/
def given (params : List Node) (vals : List Value) : List (Node × Slot) :=
  params.zipWith (fun p val => (p, .arg val)) vals

def default_slot : Node → Slot
  | .param _ _ (some default_val) .. => .default default_val
  | _ => .arg .nil

def other_slot : Node → Slot
  | .param _ _ _ _ block_param _ _ => if block_param then .block else .keyword
  | _ => .keyword

/-- The law. The required parameters take their arguments from the front and
from the back, the optional ones take what is spared from the left and are
left to their defaults behind that, the splat takes the rest. -/
def ParamList.slots (ps : ParamList) (args : List Value) : List (Node × Slot) :=
  let middle := (args.drop ps.lead.length).take (ps.spare args)
  given ps.lead args ++
  given ps.opts middle ++
  (ps.opts.drop (ps.spare args)).map (fun p => (p, default_slot p)) ++
  ps.splat.toList.map (fun p => (p, .rest (middle.drop ps.opts.length))) ++
  given ps.post (args.drop (args.length - ps.post.length)) ++
  ps.others.map fun p => (p, other_slot p)

/-- bind_params with the positional parameters bound by the law. -/
def bind_params_law (env : Env) (ps : ParamList) (args : List Value) : P Unit := do
  let (kwargs, positional) := extract_kwargs ps.params args
  bind_slots env (ps.slots positional)
  match ← bind_keywords env kwargs [] ps.params with
  | none => return ()
  | some consumed => bind_kwrest env ps.params kwargs consumed

/-- The arguments of slots, in order. -/
def slot_args : Slot → List Value
  | .arg val => [val]
  | .rest vals => vals
  | _ => []

/-- Arguments beyond the parameters, and parameters beyond the arguments, add nothing. -/
theorem given_append {params : List Node} {vals : List Value} (rest : List Node) (vals' : List Value)
    (hlength : params.length = vals.length) :
    given (params ++ rest) (vals ++ vals') = given params vals ++ given rest vals' :=
  List.zipWith_append hlength

theorem given_params {params : List Node} {vals : List Value} (hlength : params.length ≤ vals.length) :
    (given params vals).map Prod.fst = params := by
  induction params generalizing vals with
  | nil => rfl
  | cons p params ih =>
    cases vals with
    | nil => cases hlength
    | cons val vals =>
      have hrest : (given params vals).map Prod.fst = params := ih (Nat.le_of_succ_le_succ hlength)
      exact congrArg (p :: ·) hrest

/-- No parameter is left out or bound twice by the law. -/
theorem ParamList.slots_params (ps : ParamList) {args : List Value}
    (hrequired : ps.lead.length + ps.post.length ≤ args.length) : (ps.slots args).map Prod.fst = ps.params := by
  have hlead : (given ps.lead args).map Prod.fst = ps.lead := given_params (by omega)
  have hpost : (given ps.post (args.drop (args.length - ps.post.length))).map Prod.fst = ps.post :=
    given_params (by rw [List.length_drop]; omega)
  have hmiddle : ((args.drop ps.lead.length).take (ps.spare args)).length = ps.spare args := by
    rw [List.length_take, List.length_drop, ParamList.spare]
    omega
  have hopts : (given ps.opts ((args.drop ps.lead.length).take (ps.spare args))).map Prod.fst ++
      ps.opts.drop (ps.spare args) = ps.opts := by
    by_cases hspare : ps.opts.length ≤ ps.spare args
    · rw [given_params (by rw [hmiddle]; exact hspare), List.drop_eq_nil_of_le hspare, List.append_nil]
    · have hlength : (ps.opts.take (ps.spare args)).length =
          ((args.drop ps.lead.length).take (ps.spare args)).length := by
        rw [hmiddle, List.length_take]
        omega
      have happend := given_append (ps.opts.drop (ps.spare args)) [] hlength
      rw [List.take_append_drop, List.append_nil] at happend
      have htaken := given_params hlength.le
      rw [happend, List.map_append, htaken]
      simp [given]
  simp only [ParamList.slots, ParamList.params, List.map_append, List.map_map, hlead, hpost]
  simp only [Function.comp_def, List.map_id', ← List.append_assoc]
  rw [List.append_assoc ps.lead, hopts]

/-- The parameters take no more arguments than there are parameters. -/
theorem given_take {params : List Node} {vals : List Value} {count : Nat} (hcount : params.length ≤ count) :
    given params (vals.take count) = given params vals := by
  induction params generalizing vals count with
  | nil => rfl
  | cons p params ih =>
    rw [List.length_cons] at hcount
    obtain ⟨count, rfl⟩ : ∃ n, count = n + 1 := ⟨count - 1, by omega⟩
    cases vals with
    | nil => rfl
    | cons val vals =>
      have hrest : given params (vals.take count) = given params vals := ih (by omega)
      exact congrArg ((p, Slot.arg val) :: ·) hrest

/-- The source's cursor: what each parameter gets when the arguments are handed
out from the left and only the splat leaves some for those behind it. -/
def cursor_slots (args : List Value) (post : Nat) : Nat → List Node → List (Node × Slot)
  | _, [] => []
  | argi, p :: rest =>
    match p with
    | .param _ _ default_val splat block_param keyword_param keyword_splat =>
      if block_param then (p, .block) :: cursor_slots args post argi rest
      else if keyword_param || keyword_splat then (p, .keyword) :: cursor_slots args post argi rest
      else if splat then
        let splat_end := max argi (args.length - post)
        (p, .rest ((args.take splat_end).drop argi)) :: cursor_slots args post splat_end rest
      else
        (p, match args[argi]?, default_val with
          | some arg, _ => .arg arg
          | none, some default_val => .default default_val
          | none, none => .arg .nil) :: cursor_slots args post (argi + 1) rest
    | _ => (p, .arg (args.getD argi .nil)) :: cursor_slots args post (argi + 1) rest

theorem bind_positional_eq (env : Env) (args : List Value) (post argi : Nat) (params : List Node) :
    bind_positional env args post argi params = bind_slots env (cursor_slots args post argi params) := by
  induction params generalizing argi with
  | nil => rfl
  | cons p rest ih =>
    cases p with
    | param span name default_val splat block_param keyword_param keyword_splat =>
      simp only [bind_positional, cursor_slots]
      split
      · simp only [bind_slots, bind_slot, bind_assoc, ih]
      · split
        · simp only [bind_slots, bind_slot, pure_bind, ih]
        · split
          · simp only [bind_slots, bind_slot, bind_assoc, ih]
          · cases hget : args[argi]? with
            | some arg => simp only [bind_slots, bind_slot, ih]
            | none =>
              cases default_val with
              | some default_val => simp only [bind_slots, bind_slot, bind_assoc, ih]
              | none => simp only [bind_slots, bind_slot, ih]
    | _ => simp only [bind_positional, cursor_slots, bind_slots, bind_slot, ih]

section
variable {args : List Value} {post argi : Nat} {p : Node} {rest : List Node}

attribute [local simp] cursor_slots

theorem cursor_slots_required (hp : is_required_param p) (hargi : argi < args.length) :
    cursor_slots args post argi (p :: rest) =
      (p, .arg args[argi]) :: cursor_slots args post (argi + 1) rest := by
  cases p with
  | param span name default_val splat block_param keyword_param keyword_splat =>
    simp only [is_required_param, Bool.and_eq_true, Bool.not_eq_true', Option.isNone_iff_eq_none] at hp
    obtain ⟨⟨⟨⟨rfl, rfl⟩, rfl⟩, rfl⟩, rfl⟩ := hp
    simp [cursor_slots, hargi]
  | array span elements => simp [cursor_slots, hargi]
  | _ => cases hp

theorem cursor_slots_optional (hp : is_optional_param p) :
    cursor_slots args post argi (p :: rest) =
      (p, (args[argi]?).elim (default_slot p) .arg) :: cursor_slots args post (argi + 1) rest := by
  cases p with
  | param span name default_val splat block_param keyword_param keyword_splat =>
    simp only [is_optional_param, Bool.and_eq_true, Bool.not_eq_true'] at hp
    obtain ⟨⟨⟨⟨hdefault, rfl⟩, rfl⟩, rfl⟩, rfl⟩ := hp
    obtain ⟨default_val, rfl⟩ := Option.isSome_iff_exists.mp hdefault
    cases hget : args[argi]? <;> simp [cursor_slots, hget, default_slot]
  | _ => cases hp

theorem cursor_slots_rest (hp : is_rest_param p) :
    cursor_slots args post argi (p :: rest) =
      (p, .rest ((args.take (max argi (args.length - post))).drop argi)) ::
        cursor_slots args post (max argi (args.length - post)) rest := by
  cases p with
  | param span name default_val splat block_param keyword_param keyword_splat =>
    simp only [is_rest_param, Bool.and_eq_true, Bool.not_eq_true'] at hp
    obtain ⟨⟨⟨rfl, rfl⟩, rfl⟩, rfl⟩ := hp
    simp [cursor_slots]
  | _ => cases hp

theorem cursor_slots_other (hp : is_other_param p) :
    cursor_slots args post argi (p :: rest) = (p, other_slot p) :: cursor_slots args post argi rest := by
  cases p with
  | param span name default_val splat block_param keyword_param keyword_splat =>
    simp only [is_other_param, Bool.and_eq_true, Bool.not_eq_true', Bool.or_eq_true] at hp
    obtain ⟨rfl, hkind⟩ := hp
    cases block_param with
    | true => simp [cursor_slots, other_slot]
    | false =>
      have hkeyword : (keyword_param || keyword_splat) = true := by simpa using hkind
      simp [cursor_slots, other_slot, hkeyword]
  | _ => cases hp

end

/-- Required parameters that the arguments suffice for take the next ones. -/
theorem cursor_slots_lead {args : List Value} (post argi : Nat) {lead : List Node} (rest : List Node)
    (hlead : ∀ p ∈ lead, is_required_param p) (hargs : argi + lead.length ≤ args.length) :
    cursor_slots args post argi (lead ++ rest) =
      given lead (args.drop argi) ++ cursor_slots args post (argi + lead.length) rest := by
  induction lead generalizing argi with
  | nil => simp [given]
  | cons p lead ih =>
    rw [List.length_cons] at hargs
    have hargi : argi < args.length := by omega
    have hlead' : ∀ q ∈ lead, is_required_param q := fun q hq => hlead q (List.mem_cons_of_mem _ hq)
    rw [List.cons_append, cursor_slots_required (hlead p List.mem_cons_self) hargi, ih _ hlead' (by omega),
      List.drop_eq_getElem_cons hargi, List.length_cons]
    simp only [given, List.zipWith_cons_cons, List.cons_append, Nat.add_assoc, Nat.add_comm 1]

/-- Optional parameters take the next arguments as long as there are any. -/
theorem cursor_slots_opts (args : List Value) (post argi : Nat) {opts : List Node} (rest : List Node)
    (hopts : ∀ p ∈ opts, is_optional_param p) :
    cursor_slots args post argi (opts ++ rest) =
      given opts (args.drop argi) ++ (opts.drop (args.length - argi)).map (fun p => (p, default_slot p)) ++
        cursor_slots args post (argi + opts.length) rest := by
  induction opts generalizing argi with
  | nil => simp [given]
  | cons p opts ih =>
    have hopts' : ∀ q ∈ opts, is_optional_param q := fun q hq => hopts q (List.mem_cons_of_mem _ hq)
    rw [List.cons_append, cursor_slots_optional (hopts p List.mem_cons_self), ih _ hopts', List.length_cons]
    by_cases hargi : argi < args.length
    · have hleft : args.length - argi = args.length - (argi + 1) + 1 := by omega
      rw [List.drop_eq_getElem_cons hargi, hleft, List.drop_succ_cons, List.getElem?_eq_getElem hargi]
      simp only [given, List.zipWith_cons_cons, List.cons_append, Option.elim_some, Nat.add_assoc, Nat.add_comm 1]
    · have hdrop : args.drop argi = [] := List.drop_eq_nil_of_le (by omega)
      have hdrop' : args.drop (argi + 1) = [] := List.drop_eq_nil_of_le (by omega)
      have hnone : args[argi]? = none := List.getElem?_eq_none (by omega)
      have hleft : args.length - argi = 0 := by omega
      have hleft' : args.length - (argi + 1) = 0 := by omega
      simp [given, hdrop, hdrop', hnone, hleft, hleft', Nat.add_assoc, Nat.add_comm 1]

theorem cursor_slots_others {args : List Value} {post argi : Nat} {others : List Node}
    (hothers : ∀ p ∈ others, is_other_param p) :
    cursor_slots args post argi others = others.map fun p => (p, other_slot p) := by
  induction others with
  | nil => rfl
  | cons p others ih =>
    rw [cursor_slots_other (hothers p List.mem_cons_self),
      ih fun q hq => hothers q (List.mem_cons_of_mem _ hq), List.map_cons]

/-- The arguments the source's cursor keeps for the parameters behind the splat. -/
theorem post_splat_required_eq (ps : ParamList) :
    post_splat_required ps.params = if ps.splat.isSome then ps.post.length else 0 := by
  have hplain : ∀ p, is_required_param p ∨ is_optional_param p ∨ is_other_param p → is_splat p = false := by
    intro p hp
    cases p with
    | param => rcases hp with hp | hp | hp <;> simp_all [is_required_param, is_optional_param, is_other_param, is_splat]
    | _ => rfl
  have hfront : ∀ p ∈ ps.lead ++ ps.opts, (!is_splat p) = true := by
    intro p hp
    have hkind : is_splat p = false := by
      rcases List.mem_append.mp hp with hp | hp
      · exact hplain p (.inl (ps.lead_required p hp))
      · exact hplain p (.inr (.inl (ps.opts_optional p hp)))
    simp [hkind]
  have hback : ∀ p ∈ ps.post ++ ps.others, (!is_splat p) = true := by
    intro p hp
    have hkind : is_splat p = false := by
      rcases List.mem_append.mp hp with hp | hp
      · exact hplain p (.inl (ps.post_required p hp))
      · exact hplain p (.inr (.inr (ps.others_other p hp)))
    simp [hkind]
  have hskip : ∀ rest, (ps.lead ++ ps.opts ++ rest).dropWhile (fun p => !is_splat p) =
      rest.dropWhile (fun p => !is_splat p) := fun rest => List.dropWhile_append_of_pos hfront
  have hothers : ps.others.countP (fun p => !is_splat p && is_required_param p) = 0 := by
    rw [List.countP_eq_zero]
    intro p hp
    have hother := ps.others_other p hp
    cases p with
    | param => simp only [is_other_param, is_required_param] at hother ⊢; grind
    | _ => cases hother
  have hposts : ps.post.countP (fun p => !is_splat p && is_required_param p) = ps.post.length := by
    rw [List.countP_eq_length]
    intro p hp
    have hrequired := ps.post_required p hp
    simp [hrequired, hplain p (.inl hrequired)]
  rw [post_splat_required, ParamList.params, ← List.append_assoc, hskip]
  cases hsplat : ps.splat with
  | none =>
    have hnone : (ps.post ++ ps.others).dropWhile (fun p => !is_splat p) = [] := List.dropWhile_eq_nil_iff.mpr hback
    simp [hnone]
  | some p =>
    have hrest : is_splat p = true := by
      have hrest := ps.splat_rest p (by simp [hsplat])
      cases p with
      | param => simp_all [is_rest_param, is_splat]
      | _ => cases hrest
    simp [hrest, hposts, hothers]

/-- The slots the source makes of a parameter list. -/
theorem ParamList.cursor_slots_eq (ps : ParamList) {args : List Value} (hlead : ps.lead.length ≤ args.length) :
    cursor_slots args (post_splat_required ps.params) 0 ps.params =
      given ps.lead args ++ (given ps.opts (args.drop ps.lead.length) ++
        (ps.opts.drop (args.length - ps.lead.length)).map (fun p => (p, default_slot p)) ++
        cursor_slots args (post_splat_required ps.params) (ps.lead.length + ps.opts.length)
          (ps.splat.toList ++ (ps.post ++ ps.others))) := by
  have hopts := cursor_slots_opts args (post_splat_required ps.params) ps.lead.length
    (ps.splat.toList ++ (ps.post ++ ps.others)) ps.opts_optional
  rw [← hopts]
  have hargs : 0 + ps.lead.length ≤ args.length := by omega
  have hfirst := cursor_slots_lead (post_splat_required ps.params) 0
    (ps.opts ++ (ps.splat.toList ++ (ps.post ++ ps.others))) ps.lead_required hargs
  rw [List.drop_zero, Nat.zero_add] at hfirst
  exact hfirst

/-- Behind the optional parameters the source follows the law when the cursor
has not run into the arguments of the last parameters. -/
theorem ParamList.cursor_slots_tail (ps : ParamList) {args : List Value}
    (hroom : ps.lead.length + ps.opts.length + ps.post.length ≤ args.length ∨ ps.post = [])
    (harity : args.length ≤ ps.lead.length + ps.opts.length + ps.post.length ∨ ps.splat.isSome) :
    cursor_slots args (post_splat_required ps.params) (ps.lead.length + ps.opts.length)
        (ps.splat.toList ++ (ps.post ++ ps.others)) =
      ps.splat.toList.map (fun p => (p, .rest ((args.take (args.length - ps.post.length)).drop
        (ps.lead.length + ps.opts.length)))) ++
      (given ps.post (args.drop (args.length - ps.post.length)) ++ ps.others.map fun p => (p, other_slot p)) := by
  have hpost : ps.post.length ≤ args.length := by
    rcases hroom with h | h
    · omega
    · simp [h]
  have hlast : ∀ kept argi, argi = args.length - ps.post.length ∨ ps.post = [] →
      cursor_slots args kept argi (ps.post ++ ps.others) =
        given ps.post (args.drop (args.length - ps.post.length)) ++ ps.others.map fun p => (p, other_slot p) := by
    rintro kept argi (rfl | hnil)
    · rw [cursor_slots_lead _ _ ps.others ps.post_required (by omega), cursor_slots_others ps.others_other]
    · rw [hnil, List.nil_append, cursor_slots_others ps.others_other]
      simp [given]
  rw [post_splat_required_eq]
  cases hsplat : ps.splat with
  | none =>
    rw [hsplat] at harity
    refine hlast _ _ ?_
    rcases hroom with h | h
    · left
      simp only [Option.isSome_none, Bool.false_eq_true, or_false] at harity
      omega
    · exact .inr h
  | some p =>
    have hrest : is_rest_param p = true := ps.splat_rest p (by simp [hsplat])
    rw [Option.toList_some, List.singleton_append, cursor_slots_rest hrest, List.map_singleton,
      List.singleton_append, Option.isSome_some, if_pos rfl]
    congr 1
    · congr 2
      by_cases henough : ps.lead.length + ps.opts.length ≤ args.length - ps.post.length
      · rw [max_eq_right henough]
      · rw [max_eq_left (by omega), List.drop_eq_nil_of_le (by simp), List.drop_eq_nil_of_le (by simp; omega)]
    · refine hlast _ _ ?_
      rcases hroom with h | h
      · exact .inl (max_eq_right (by omega))
      · exact .inr h

/-- Where nothing is short, the source's slots are those of the law. -/
theorem ParamList.cursor_slots_eq_slots (ps : ParamList) {args : List Value}
    (hrequired : ps.lead.length + ps.post.length ≤ args.length)
    (harity : args.length ≤ ps.lead.length + ps.opts.length + ps.post.length ∨ ps.splat.isSome)
    (hroom : ps.opts = [] ∨ ps.post = [] ∨ ps.lead.length + ps.opts.length + ps.post.length ≤ args.length) :
    cursor_slots args (post_splat_required ps.params) 0 ps.params = ps.slots args := by
  have hroom' : ps.lead.length + ps.opts.length + ps.post.length ≤ args.length ∨ ps.post = [] := by
    rcases hroom with h | h | h
    · left
      simp only [h, List.length_nil]
      omega
    · exact .inr h
    · exact .inl h
  have hmiddle : given ps.opts ((args.drop ps.lead.length).take (ps.spare args)) =
      given ps.opts (args.drop ps.lead.length) := by
    rcases hroom with h | h | h
    · simp [h, given]
    · rw [ParamList.spare, h, List.take_of_length_le (by simp)]
    · exact given_take (by rw [ParamList.spare]; omega)
  have hdefaults : ps.opts.drop (ps.spare args) = ps.opts.drop (args.length - ps.lead.length) := by
    rcases hroom with h | h | h
    · simp [h]
    · simp [ParamList.spare, h]
    · rw [List.drop_eq_nil_of_le (by rw [ParamList.spare]; omega), List.drop_eq_nil_of_le (by omega)]
  have hrest : ((args.drop ps.lead.length).take (ps.spare args)).drop ps.opts.length =
      (args.take (args.length - ps.post.length)).drop (ps.lead.length + ps.opts.length) := by
    have hspare : ps.spare args = args.length - ps.post.length - ps.lead.length := by
      rw [ParamList.spare]
      omega
    rw [hspare, ← List.drop_take, List.drop_drop]
  rw [ps.cursor_slots_eq (by omega), ps.cursor_slots_tail hroom' harity, ParamList.slots, hmiddle, hdefaults, hrest]
  simp only [List.append_assoc]

theorem bind_slots_append (env : Env) (slots rest : List (Node × Slot)) :
    bind_slots env (slots ++ rest) = bind_slots env slots >>= fun _ => bind_slots env rest := by
  induction slots with
  | nil => rfl
  | cons slot slots ih =>
    obtain ⟨p, slot⟩ := slot
    rw [List.cons_append, bind_slots, bind_slots, ih, bind_assoc]

/-- Answers under which parameters can be bound and nothing can be evaluated. -/
def binding_answers : Oracle evaluator_calls State
  | .bind_pattern .., s => some ((), s)
  | _, _ => none

theorem bind_given_run (env : Env) (params : List Node) (vals : List Value) (s : State) :
    (bind_slots env (given params vals)).run (answering binding_answers) s = some ((), s) := by
  induction params generalizing vals with
  | nil => rfl
  | cons p params ih =>
    cases vals with
    | nil => rfl
    | cons val vals => exact ih vals

/-- Where the optional parameters run into the arguments of the last ones, the
source binds an argument to one that the law leaves to its default. -/
theorem ParamList.cursor_slots_diverge (ps : ParamList) {args : List Value}
    (hrequired : ps.lead.length + ps.post.length ≤ args.length) (hpost : ps.post ≠ [])
    (hshort : args.length < ps.lead.length + ps.opts.length + ps.post.length) :
    ∃ p ∈ ps.opts, ∃ vals val source law,
      cursor_slots args (post_splat_required ps.params) 0 ps.params =
        given ps.lead args ++ (given (ps.opts.take (ps.spare args)) vals ++ (p, .arg val) :: source) ∧
      ps.slots args =
        given ps.lead args ++ (given (ps.opts.take (ps.spare args)) vals ++ (p, default_slot p) :: law) := by
  have hposts : 0 < ps.post.length := List.length_pos_iff.mpr hpost
  have hspare : ps.spare args < ps.opts.length := by
    rw [ParamList.spare]
    omega
  have hopts : ps.opts = ps.opts.take (ps.spare args) ++ ps.opts[ps.spare args] :: ps.opts.drop (ps.spare args + 1) := by
    rw [← List.drop_eq_getElem_cons hspare, List.take_append_drop]
  have hdrop : ps.spare args < (args.drop ps.lead.length).length := by
    rw [List.length_drop, ParamList.spare]
    omega
  have hvals : args.drop ps.lead.length = (args.drop ps.lead.length).take (ps.spare args) ++
      (args.drop ps.lead.length)[ps.spare args] :: (args.drop ps.lead.length).drop (ps.spare args + 1) := by
    rw [← List.drop_eq_getElem_cons hdrop, List.take_append_drop]
  have hlength : (ps.opts.take (ps.spare args)).length = ((args.drop ps.lead.length).take (ps.spare args)).length := by
    rw [List.length_take, List.length_take]
    omega
  have hsource : ∃ source, cursor_slots args (post_splat_required ps.params) 0 ps.params =
      given ps.lead args ++ (given (ps.opts.take (ps.spare args)) ((args.drop ps.lead.length).take (ps.spare args)) ++
        (ps.opts[ps.spare args], .arg (args.drop ps.lead.length)[ps.spare args]) :: source) := by
    have hgiven : given ps.opts (args.drop ps.lead.length) =
        given (ps.opts.take (ps.spare args)) ((args.drop ps.lead.length).take (ps.spare args)) ++
          (ps.opts[ps.spare args], .arg (args.drop ps.lead.length)[ps.spare args]) ::
            given (ps.opts.drop (ps.spare args + 1)) ((args.drop ps.lead.length).drop (ps.spare args + 1)) := by
      conv_lhs => rw [hopts, hvals]
      exact given_append _ _ hlength
    apply Exists.intro
    rw [ps.cursor_slots_eq (by omega), hgiven]
    simp only [List.append_assoc, List.cons_append]
    rfl
  have hlaw : ∃ law, ps.slots args =
      given ps.lead args ++ (given (ps.opts.take (ps.spare args)) ((args.drop ps.lead.length).take (ps.spare args)) ++
        (ps.opts[ps.spare args], default_slot ps.opts[ps.spare args]) :: law) := by
    have hgiven : given ps.opts ((args.drop ps.lead.length).take (ps.spare args)) =
        given (ps.opts.take (ps.spare args)) ((args.drop ps.lead.length).take (ps.spare args)) := by
      have happend := given_append (ps.opts.drop (ps.spare args)) [] hlength
      rw [List.take_append_drop, List.append_nil] at happend
      rw [happend]
      simp [given]
    have hdefaults : (ps.opts.drop (ps.spare args)).map (fun p => (p, default_slot p)) =
        (ps.opts[ps.spare args], default_slot ps.opts[ps.spare args]) ::
          (ps.opts.drop (ps.spare args + 1)).map fun p => (p, default_slot p) := by
      rw [List.drop_eq_getElem_cons hspare, List.map_cons]
    apply Exists.intro
    rw [ParamList.slots, hgiven, hdefaults]
    simp only [List.append_assoc, List.cons_append]
    rfl
  obtain ⟨source, hsource⟩ := hsource
  obtain ⟨law, hlaw⟩ := hlaw
  exact ⟨_, List.getElem_mem hspare, _, _, source, law, hsource, hlaw⟩

/-- The arguments for the positional parameters. -/
def ParamList.positional (ps : ParamList) (args : List Value) : List Value := (extract_kwargs ps.params args).2

/-- What follows the positional parameters. -/
def bind_keyword_params (env : Env) (ps : ParamList) (args : List Value) : P Unit := do
  match ← bind_keywords env (extract_kwargs ps.params args).1 [] ps.params with
  | none => return ()
  | some consumed => bind_kwrest env ps.params (extract_kwargs ps.params args).1 consumed

theorem bind_params_eq (env : Env) (ps : ParamList) (args : List Value) :
    bind_params env ps.params args =
      bind_slots env (cursor_slots (ps.positional args) (post_splat_required ps.params) 0 ps.params) >>=
        fun _ => bind_keyword_params env ps args := by
  rw [← bind_positional_eq]
  rfl

theorem bind_params_law_eq (env : Env) (ps : ParamList) (args : List Value) :
    bind_params_law env ps args =
      bind_slots env (ps.slots (ps.positional args)) >>= fun _ => bind_keyword_params env ps args := rfl

/-- Binding an argument is a call, leaving a parameter to its default is not. -/
theorem bind_default_differs (M : Machine (state_ops.withCalls evaluator_calls) State) (env : Env) {p : Node}
    (hp : is_optional_param p) (val : Value) (source law : List (Node × Slot)) (f : Unit → P Unit) (s : State) :
    (bind_slots env ((p, .arg val) :: source) >>= f).performed M s ≠
      (bind_slots env ((p, default_slot p) :: law) >>= f).performed M s := by
  obtain ⟨node, hdefault⟩ : ∃ node, default_slot p = .default node := by
    cases p with
    | param span name default_val =>
      cases default_val with
      | none => cases hp
      | some node => exact ⟨node, rfl⟩
    | _ => cases hp
  intro hperformed
  have hfirst := congrArg List.head? hperformed
  have hsource : ((bind_slots env ((p, .arg val) :: source) >>= f).performed M s).head? =
      some (.inr (.bind_pattern env p val)) := performed_step_head _ _ _
  have hlaw : ((bind_slots env ((p, default_slot p) :: law) >>= f).performed M s).head? = some (.inl .get) := by
    rw [hdefault]
    exact performed_step_head _ _ _
  rw [hsource, hlaw] at hfirst
  cases hfirst

/-- bind_params follows the law exactly when no optional parameter stands
before a parameter bound from the back, or there are arguments for all. -/
theorem bind_params_follows_law_iff (env : Env) (ps : ParamList) (args : List Value)
    (hrequired : ps.lead.length + ps.post.length ≤ (ps.positional args).length)
    (harity : (ps.positional args).length ≤ ps.lead.length + ps.opts.length + ps.post.length ∨ ps.splat.isSome) :
    (∀ answers s, (bind_params env ps.params args).Agree (answering answers) (bind_params_law env ps args) s) ↔
      ps.opts = [] ∨ ps.post = [] ∨
        ps.lead.length + ps.opts.length + ps.post.length ≤ (ps.positional args).length := by
  constructor
  · intro hagree
    by_contra hshort
    simp only [not_or, Nat.not_le] at hshort
    obtain ⟨-, hpost, hshort⟩ := hshort
    obtain ⟨p, hp, vals, val, source, law, hsource, hlaw⟩ := ps.cursor_slots_diverge hrequired hpost hshort
    have hboth := hagree binding_answers bare_state
    rw [bind_params_eq, bind_params_law_eq, hsource, hlaw] at hboth
    simp only [bind_slots_append env (given _ _), bind_assoc] at hboth
    have hopts := agree_bind_iff.mp hboth () bare_state (bind_given_run _ _ _ _)
    have hfirst := agree_bind_iff.mp hopts () bare_state (bind_given_run _ _ _ _)
    exact bind_default_differs _ env (ps.opts_optional p hp) _ _ _ _ _ hfirst.2
  · intro hroom answers s
    rw [bind_params_eq, bind_params_law_eq, ps.cursor_slots_eq_slots hrequired harity hroom]
    exact .refl _ s

/-- The parameters of `def f(a, b = 1, c)`. -/
def optional_in_the_middle : ParamList where
  lead := [.param no_span (some "a") none false false false false]
  opts := [.param no_span (some "b") (some (.int no_span 1)) false false false false]
  splat := none
  post := [.param no_span (some "c") none false false false false]
  others := []
  lead_required := by decide
  opts_optional := by decide
  splat_rest := no_rest
  post_required := by decide
  others_other := no_other

/-- With three arguments there are enough. -/
theorem bind_params_follows_law_three :
    (bind_params 0 optional_in_the_middle.params [.int 1, .int 2, .int 3]).Agree (answering binding_answers)
      (bind_params_law 0 optional_in_the_middle [.int 1, .int 2, .int 3]) bare_state :=
  (bind_params_follows_law_iff 0 optional_in_the_middle [.int 1, .int 2, .int 3] (by decide) (by decide)).mpr
    (by decide) binding_answers bare_state

/-- In `f(1, 2)` the optional parameter takes the argument of the last one, which is nil. -/
theorem optional_takes_last_argument :
    ¬ (bind_params 0 optional_in_the_middle.params [.int 1, .int 2]).Agree (no_builtins.machine 3)
      (bind_params_law 0 optional_in_the_middle [.int 1, .int 2]) bare_state := by
  rintro ⟨hrun, -⟩
  have hlast := congrArg (Option.map fun out => (out.2.envs.env_get 0 "c").map Value.kind) hrun
  revert hlast
  decide

end stoned
