import Stoned.ParamLaw

namespace stoned

open program

/-! A block that takes a lone array apart. -/

/-- What arguments are bound to: the hash that keywords are taken from, and what
each parameter gets. -/
def bound (params : List Node) (args : List Value) : Option Ref × List (Node × Slot) :=
  ((extract_kwargs params args).1, cursor_slots (extract_kwargs params args).2 (post_splat_required params) 0 params)

def bind_bound (env : Env) (params : List Node) (b : Option Ref × List (Node × Slot)) : P Unit := do
  bind_slots env b.2
  match ← bind_keywords env b.1 [] params with
  | none => return ()
  | some consumed => bind_kwrest env params b.1 consumed

theorem bind_params_bound (env : Env) (params : List Node) (args : List Value) :
    bind_params env params args = bind_bound env params (bound params args) := by
  rw [bind_bound, bound, ← bind_positional_eq]
  rfl

/-- A parameter that takes one argument. -/
def takes_one : Node → Bool
  | .param _ _ _ splat block_param keyword_param keyword_splat =>
    !block_param && !(keyword_param || keyword_splat) && !splat
  | _ => true

section cursor
variable {args : List Value} {post argi : Nat}

/-- A parameter that is no splat and takes none. -/
theorem takes_none {p : Node} (hone : ¬takes_one p = true) (hrest : ¬is_rest_param p = true) :
    ∃ slot, (slot = .block ∨ slot = .keyword) ∧ ∀ args post argi rest,
      cursor_slots args post argi (p :: rest) = (p, slot) :: cursor_slots args post argi rest := by
  cases p with
  | param span name default_val splat block_param keyword_param keyword_splat =>
    cases block_param with
    | true => exact ⟨.block, .inl rfl, fun _ _ _ _ => rfl⟩
    | false =>
      have hkeyword : (keyword_param || keyword_splat) = true := by
        cases splat <;> cases keyword_param <;> simp_all [takes_one, is_rest_param]
      exact ⟨.keyword, .inr rfl, fun _ _ _ _ => by simp [cursor_slots, hkeyword]⟩
  | _ => exact absurd rfl hone

/-- What a parameter that takes one argument gets. -/
def one_slot (p : Node) (arg : Option Value) : Slot :=
  match p, arg with
  | .param _ _ default_val .., none => (default_val.elim (.arg .nil) .default)
  | _, arg => .arg (arg.getD .nil)

theorem cursor_slots_takes {p : Node} (hone : takes_one p = true) (rest : List Node) :
    cursor_slots args post argi (p :: rest) =
      (p, one_slot p args[argi]?) :: cursor_slots args post (argi + 1) rest := by
  cases p with
  | param span name default_val splat block_param keyword_param keyword_splat =>
    simp only [takes_one, Bool.and_eq_true, Bool.not_eq_true'] at hone
    obtain ⟨⟨rfl, hkeyword⟩, rfl⟩ := hone
    simp only [cursor_slots, hkeyword, Bool.false_eq_true, if_false]
    congr 2
    cases args[argi]? with
    | some arg => rfl
    | none => cases default_val <;> rfl
  | _ => simp [cursor_slots, one_slot]

/-- The integers among the arguments that parameters get. -/
def int_count (slots : List (Node × Slot)) : Nat :=
  (slots.flatMap fun slot => slot_args slot.2).countP fun v => v.kind = .int

theorem int_count_cons (p : Node) (slot : Slot) (slots : List (Node × Slot)) :
    int_count ((p, slot) :: slots) = (slot_args slot).countP (fun v => v.kind = .int) + int_count slots := by
  rw [int_count, List.flatMap_cons, List.countP_append]
  rfl

theorem int_count_none {p : Node} {slot : Slot} (hslot : slot = .block ∨ slot = .keyword)
    (slots : List (Node × Slot)) :
    int_count ((p, slot) :: slots) = int_count slots := by
  rw [int_count_cons]
  rcases hslot with rfl | rfl <;> simp [slot_args]

theorem int_count_one (p : Node) (count argi : Nat) :
    (slot_args (one_slot p (List.replicate count (Value.int 0))[argi]?)).countP (fun v => v.kind = .int) =
      if argi < count then 1 else 0 := by
  by_cases hargi : argi < count
  · rw [if_pos hargi, List.getElem?_replicate_of_lt hargi]
    cases p <;> simp [one_slot, slot_args, Value.kind]
  · rw [if_neg hargi, List.getElem?_eq_none (by simpa using hargi)]
    cases p with
    | param span name default_val => cases default_val <;> simp [one_slot, slot_args, Value.kind]
    | _ => simp [one_slot, slot_args, Value.kind]

/-- Behind the splat, or without one, each parameter takes one argument. -/
theorem int_count_ones (count post argi : Nat) (params : List Node)
    (h : count - post ≤ argi ∨ ∀ p ∈ params, ¬is_rest_param p = true) :
    int_count (cursor_slots (List.replicate count (.int 0)) post argi params) =
      min (count - argi) (params.countP takes_one) := by
  induction params generalizing argi with
  | nil => simp [cursor_slots, int_count]
  | cons p params ih =>
    have hlater : ∀ argi', argi ≤ argi' → count - post ≤ argi' ∨ ∀ p ∈ params, ¬is_rest_param p = true :=
      fun argi' hle => h.imp (fun h => h.trans hle) fun h q hq => h q (by simp [hq])
    by_cases hone : takes_one p = true
    · rw [cursor_slots_takes hone, int_count_cons, int_count_one, ih _ (hlater _ (by omega)),
        List.countP_cons_of_pos hone]
      split <;> omega
    · rw [List.countP_cons_of_neg hone]
      by_cases hrest : is_rest_param p = true
      · have hend : count - post ≤ argi := h.resolve_right fun h => h p (by simp) hrest
        rw [cursor_slots_rest hrest, int_count_cons, List.length_replicate, max_eq_left hend, ih _ (hlater _ le_rfl),
          List.drop_eq_nil_of_le (List.length_take_le _ _)]
        simp [slot_args]
      · obtain ⟨slot, hslot, hcursor⟩ := takes_none hone hrest
        rw [hcursor, int_count_none hslot, ih _ (hlater _ le_rfl)]

/-- With a splat no argument is left over. -/
theorem int_count_splat (count post argi : Nat) {before after : List Node} {p : Node} (hp : is_rest_param p = true)
    (hbefore : ∀ q ∈ before, ¬is_rest_param q = true) (hafter : post ≤ after.countP takes_one) :
    int_count (cursor_slots (List.replicate count (.int 0)) post argi (before ++ p :: after)) = count - argi := by
  induction before generalizing argi with
  | nil =>
    rw [List.nil_append, cursor_slots_rest hp, int_count_cons, List.length_replicate,
      int_count_ones _ _ _ _ (.inl (le_max_right _ _)), slot_args, List.countP_eq_length.mpr]
    · rw [List.length_drop, List.length_take, List.length_replicate]
      omega
    · intro v hv
      have := List.mem_of_mem_take (List.mem_of_mem_drop hv)
      rw [List.eq_of_mem_replicate this]
      rfl
  | cons q before ih =>
    have hrest : ¬is_rest_param q = true := hbefore q (by simp)
    rw [List.cons_append]
    by_cases hone : takes_one q = true
    · rw [cursor_slots_takes hone, int_count_cons, int_count_one, ih _ fun r hr => hbefore r (by simp [hr])]
      split <;> omega
    · obtain ⟨slot, hslot, hcursor⟩ := takes_none hone hrest
      rw [hcursor, int_count_none hslot, ih _ fun r hr => hbefore r (by simp [hr])]

/-- The arguments that neither the parameters before a splat take nor those behind it. -/
def spared (before : List Node) (post : Nat) (args : List Value) : List Value :=
  (args.take (args.length - post)).drop (before.countP takes_one)

theorem drop_take_max (args : List Value) (argi stop : Nat) :
    (args.take (max argi stop)).drop argi = (args.take stop).drop argi := by
  by_cases h : argi ≤ stop
  · rw [max_eq_right h]
  · rw [max_eq_left (by omega), List.drop_eq_nil_of_le (List.length_take_le _ _),
      List.drop_eq_nil_of_le ((List.length_take_le _ _).trans (by omega))]

/-- The splat gets what is spared. -/
theorem rest_slot_mem (args : List Value) (post : Nat) {before : List Node} (after : List Node) {p : Node}
    (hp : is_rest_param p = true) (hbefore : ∀ q ∈ before, ¬is_rest_param q = true) (argi : Nat) :
    (p, .rest ((args.take (args.length - post)).drop (argi + before.countP takes_one))) ∈
      cursor_slots args post argi (before ++ p :: after) := by
  induction before generalizing argi with
  | nil =>
    rw [List.nil_append, cursor_slots_rest hp, drop_take_max]
    exact List.mem_cons_self
  | cons q before ih =>
    have hlater := ih fun r hr => hbefore r (by simp [hr])
    rw [List.cons_append]
    by_cases hone : takes_one q = true
    · have hcount : argi + (before.countP takes_one + 1) = argi + 1 + before.countP takes_one := by omega
      rw [cursor_slots_takes hone, List.countP_cons_of_pos hone, hcount]
      exact List.mem_cons_of_mem _ (hlater _)
    · obtain ⟨slot, _, hcursor⟩ := takes_none hone (hbefore q (by simp))
      rw [hcursor, List.countP_cons_of_neg hone]
      exact List.mem_cons_of_mem _ (hlater _)

/-- Parameters that take few arguments do not see those beyond. -/
theorem cursor_slots_cut (post' : Nat) {params : List Node} (hrest : ∀ p ∈ params, ¬is_rest_param p = true)
    (hfew : argi + params.countP takes_one ≤ 64) :
    cursor_slots (args.take 64) post argi params = cursor_slots args post' argi params := by
  induction params generalizing argi with
  | nil => rfl
  | cons p params ih =>
    have hlater (argi : Nat) := @ih argi fun q hq => hrest q (by simp [hq])
    by_cases hone : takes_one p = true
    · rw [List.countP_cons_of_pos hone] at hfew
      rw [cursor_slots_takes hone, cursor_slots_takes hone, List.getElem?_take_of_lt (by omega), hlater _ (by omega)]
    · rw [List.countP_cons_of_neg hone] at hfew
      obtain ⟨slot, _, hcursor⟩ := takes_none hone (hrest p (by simp))
      rw [hcursor, hcursor, hlater _ hfew]

end cursor

section lossless
variable {params : List Node}

/-- The binding is that of the elements given one by one, and a splat gets all of
them that the others do not take. -/
structure Lossless (params : List Node) (args elems : List Value) : Prop where
  same : bound params args = bound params elems
  rest : ∀ before p after, params = before ++ p :: after → is_rest_param p = true →
    (∀ q ∈ before, ¬is_rest_param q = true) →
      (p, .rest (spared before (post_splat_required params) (extract_kwargs params elems).2)) ∈ (bound params args).2

theorem Lossless.of_same {args elems : List Value} (h : bound params args = bound params elems) :
    Lossless params args elems := by
  refine ⟨h, fun before p after hparams hp hbefore => ?_⟩
  have hmem := rest_slot_mem (extract_kwargs params elems).2 (post_splat_required params) after hp hbefore 0
  rw [Nat.zero_add, ← hparams] at hmem
  rw [h]
  exact hmem

theorem extract_none (h : has_kwarg_params params = false) (args : List Value) :
    extract_kwargs params args = (none, args) := by
  rw [extract_kwargs, h]

/-- What stands behind the splat takes an argument each. -/
theorem post_splat_required_le (hsplat : ∀ p ∈ params, is_splat p = true → is_rest_param p = true)
    {p : Node} (hmem : p ∈ params) (hp : is_rest_param p = true) :
    ∃ before q after, params = before ++ q :: after ∧ is_rest_param q = true ∧
      (∀ r ∈ before, ¬is_rest_param r = true) ∧ post_splat_required params ≤ after.countP takes_one := by
  have hsplats : ∀ q ∈ params, is_splat q = is_rest_param q := by
    intro q hq
    by_cases hs : is_splat q = true
    · rw [hs, hsplat q hq hs]
    · cases q with
      | param => simp_all [is_splat, is_rest_param]
      | _ => rfl
  have hsplit := List.takeWhile_append_dropWhile (p := fun q => !is_splat q) (l := params)
  rw [post_splat_required]
  cases hdrop : params.dropWhile (fun q => !is_splat q) with
  | nil =>
    have hall := List.dropWhile_eq_nil_iff.mp hdrop p hmem
    simp [hsplats p hmem, hp] at hall
  | cons q after =>
    rw [hdrop] at hsplit
    have hq : is_splat q = true := by
      have := List.head_dropWhile_not (fun q => !is_splat q) (l := params) (by simp [hdrop])
      simpa [hdrop] using this
    have hmem : q ∈ params := hsplit ▸ by simp
    refine ⟨_, q, after, hsplit.symm, by rw [← hsplats q hmem, hq], fun r hr => ?_, ?_⟩
    · have hr' : r ∈ params := hsplit ▸ List.mem_append_left _ hr
      have := List.mem_takeWhile_imp hr
      simpa [← hsplats r hr'] using this
    · refine List.countP_mono_left fun r _ hr => ?_
      cases r with
      | param => simp_all [is_required_param, takes_one]
      | _ => rfl

theorem bound_integers_differ (hsplat : ∀ p ∈ params, is_splat p = true → is_rest_param p = true) {count : Nat}
    (hcount : 64 < count) (hmany : (∃ p ∈ params, is_rest_param p = true) ∨ 64 < params.countP takes_one)
    (hkeywords : has_kwarg_params params = false) :
    bound params (List.replicate 64 (.int 0)) ≠ bound params (List.replicate count (.int 0)) := by
  intro hsame
  have hints := congrArg (fun b => int_count b.2) hsame
  simp only [bound, extract_none hkeywords] at hints
  by_cases hrest : ∃ p ∈ params, is_rest_param p = true
  · obtain ⟨p, hmem, hp⟩ := hrest
    obtain ⟨before, q, after, hparams, hq, hbefore, hpost⟩ := post_splat_required_le hsplat hmem hp
    rw [hparams] at hints hpost
    rw [int_count_splat _ _ _ hq hbefore hpost, int_count_splat _ _ _ hq hbefore hpost] at hints
    omega
  · have hnone : ∀ p ∈ params, ¬is_rest_param p = true := fun p hp h => hrest ⟨p, hp, h⟩
    have hmany := hmany.resolve_left hrest
    rw [int_count_ones _ _ _ _ (.inr hnone), int_count_ones _ _ _ _ (.inr hnone)] at hints
    omega

/-- `{}`. -/
def no_hash : RubyHash :=
  { pairs := [], singleton_env := none, default_value := .nil, default_proc := .nil, compare_by_identity := false
    frozen := false }

/-- A state in which an array has given elements. -/
def state_with (elems : List Value) : State :=
  { bare_state with
    ev := { bare_state.ev with arrays := [{ elems, singleton_env := none, frozen := false }], hashes := [no_hash] } }

/-- A block binds a lone array of some length without loss exactly when the array has at most 64 elements, or
the block takes no more than 64 of them and has neither a splat nor keywords. No parameter that is parsed is a
splat and a block or a keyword at once. -/
theorem autosplat_lossless_iff (hsplat : ∀ p ∈ params, is_splat p = true → is_rest_param p = true)
    (hseveral : 1 < count_bindable_params params) (count : Nat) :
    (∀ (builtins : Builtins) (depth : Nat) (s : State) (a : Ref), (s.ev.elems a).length = count →
      ∃ args, (block_args false params [.array a]).run (builtins.machine depth) s = some (args, s) ∧
        Lossless params args (s.ev.elems a)) ↔
      count ≤ 64 ∨ ((∀ p ∈ params, ¬is_rest_param p = true) ∧ has_kwarg_params params = false ∧
        params.countP takes_one ≤ 64) := by
  have hargs (builtins : Builtins) (depth : Nat) (s : State) (a : Ref) :
      (block_args false params [.array a]).run (builtins.machine depth) s = some ((s.ev.elems a).take 64, s) := by
    simp only [block_args, Bool.not_false, Bool.true_and, decide_eq_true_eq, if_pos hseveral]
    exact run_bind_some (run_get _ s)
  constructor
  · intro h
    have hsame (elems : List Value) (hlength : elems.length = count) :
        bound params (elems.take 64) = bound params elems := by
      obtain ⟨args, hrun, hlossless⟩ := h no_builtins 0 (state_with elems) 0 hlength
      rw [hargs] at hrun
      obtain ⟨rfl, -⟩ := Prod.mk.inj (Option.some.inj hrun)
      exact hlossless.same
    by_contra hcond
    simp only [not_or, Nat.not_le] at hcond
    obtain ⟨hcount, hbad⟩ := hcond
    cases hkeywords : has_kwarg_params params with
    | true =>
      -- a hash behind the 64th element gives the keywords
      have hkwargs := congrArg Prod.fst (hsame (List.replicate (count - 1) (.int 0) ++ [Value.hash 0]) (by simp; omega))
      have htake : (List.replicate (count - 1) (Value.int 0) ++ [Value.hash 0]).take 64 =
          List.replicate 64 (.int 0) := by
        rw [List.take_append_of_le_length (by simp; omega), List.take_replicate, Nat.min_eq_left (by omega)]
      rw [htake] at hkwargs
      simp [bound, extract_kwargs, hkeywords, List.getLast?_replicate] at hkwargs
    | false =>
      have hmany : (∃ p ∈ params, is_rest_param p = true) ∨ 64 < params.countP takes_one := by
        by_contra hfew
        simp only [not_or, not_exists, not_and, Nat.not_lt] at hfew
        exact hbad ⟨hfew.1, hkeywords, hfew.2⟩
      have hints := hsame (List.replicate count (.int 0)) (by simp)
      rw [List.take_replicate, Nat.min_eq_left hcount.le] at hints
      exact bound_integers_differ hsplat hcount hmany hkeywords hints
  · intro hcond builtins depth s a hlength
    refine ⟨_, hargs builtins depth s a, .of_same ?_⟩
    rcases hcond with hcount | ⟨hrest, hkeywords, hfew⟩
    · rw [List.take_of_length_le (by omega)]
    · simp only [bound, extract_none hkeywords]
      rw [cursor_slots_cut _ hrest (by omega)]

/-- The parameters of `|a, *b|`. -/
def one_and_rest : List Node :=
  [.param no_span (some "a") none false false false false, .param no_span (some "b") none true false false false]

/-- `[1, 2, 3]` is bound without loss. -/
theorem autosplat_lossless_three : ∃ args,
    (block_args false one_and_rest [.array 0]).run (no_builtins.machine 0) (state_with [.int 1, .int 2, .int 3]) =
      some (args, state_with [.int 1, .int 2, .int 3]) ∧ Lossless one_and_rest args [.int 1, .int 2, .int 3] :=
  (autosplat_lossless_iff (by decide) (by decide) 3).mpr (.inl (by decide)) no_builtins 0 (state_with _) 0 rfl

/-- Of 65 elements `|a, *b|` loses the last one. -/
theorem autosplat_loses_last :
    ¬ ∃ args, (block_args false one_and_rest [.array 0]).run (no_builtins.machine 0)
        (state_with (List.replicate 65 (.int 0))) = some (args, state_with (List.replicate 65 (.int 0))) ∧
      Lossless one_and_rest args (List.replicate 65 (.int 0)) := by
  rintro ⟨args, hrun, hlossless⟩
  obtain rfl : List.replicate 64 (.int 0) = args := congrArg Prod.fst (Option.some.inj hrun)
  have hrest : ∃ p ∈ one_and_rest, is_rest_param p = true :=
    ⟨_, List.mem_cons_of_mem _ List.mem_cons_self, rfl⟩
  exact bound_integers_differ (by decide) (by decide) (.inl hrest) rfl hlossless.same

end lossless

end stoned
