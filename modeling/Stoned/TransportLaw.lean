import Stoned.Evaluator

namespace stoned

open program

/-! What the arguments of a call add to the list the callee receives. -/

/-- What is evaluated of an argument. -/
def ArgumentForm.operand : ArgumentForm → Option Node
  | .block_pass _ => none
  | .splat operand => some operand
  | .keywords hash => some hash
  | .plain node => some node

/-- No arguments yet. -/
def no_arguments : Arguments := { args := [], kwargs := none, block_pass := none }

/-- In the law `**x` merges the pairs of a hash and, as in a hash literal,
nothing of any other value. -/
def merge_law (acc : Arguments) : Value → P Arguments
  | .hash h => merge_keywords acc (.hash h)
  | _ => return acc

section
variable (answers : Oracle evaluator_calls State) (env : Env)

/-- What the law has of an argument's value: a plain value is one more
argument, a splat adds what it adds to an array literal, keywords are merged. -/
def AddsByLaw (acc : Arguments) (arg : Node) (s : State) (v : Value) (t : State) : Prop :=
  match argument_form arg with
  | .block_pass _ => True
  | .plain _ => (collect_arguments env acc [arg]).run (answering answers) s = some (.inr (acc.push v), t)
  | .splat _ => ∀ vals u, (splat_elems env arg.span v).run (answering answers) t = some (vals, u) →
      (collect_arguments env acc [arg]).run (answering answers) s =
        some (.inr { acc with args := acc.args ++ vals }, t)
  | .keywords _ => ∀ merged u, (merge_law acc v).run (answering answers) t = some (merged, u) →
      (collect_arguments env acc [arg]).run (answering answers) s = some (.inr merged, u)

/-- An argument is evaluated, and what it evaluates to adds what it must. A
block argument is noted. -/
def ArgumentLaw (acc : Arguments) (arg : Node) (s : State) : Prop :=
  match argument_form arg with
  | .block_pass expr => (collect_arguments env acc [arg]).run (answering answers) s =
      some (.inr { acc with block_pass := some expr }, s)
  | .splat operand | .keywords operand | .plain operand =>
    ((collect_arguments env acc [arg]).performed (answering answers) s).head? =
        some (.inr (.eval_node env (some operand))) ∧
      ∀ v t, (eval_node env (some operand)).run (answering answers) s = some (v, t) → GoesOn v t →
        AddsByLaw answers env acc arg s v t

/-- The splats the source treats as the law does: arrays the buffer has room
for, and what an array literal takes as one element. -/
def FittingSplat (acc : Arguments) (span : Span) (v : Value) (t : State) : Prop :=
  match v with
  | .array a => acc.args.length + (t.ev.elems a).length ≤ MAX_ARGS
  | v => ∀ vals u, (splat_elems env span v).run (answering answers) t = some (vals, u) → vals = [v]

/-- The values the source treats as the law does. Keywords are to be a hash. -/
def Fitting (acc : Arguments) (arg : Node) (v : Value) (t : State) : Prop :=
  match argument_form arg with
  | .splat _ => FittingSplat answers env acc arg.span v t
  | .keywords _ => v.kind = .hash
  | _ => True

/-- There is room for an argument, and it fits. -/
def ArgumentFits (acc : Arguments) (arg : Node) (s : State) : Prop :=
  match argument_form arg with
  | .block_pass expr => acc.args.length < MAX_ARGS ∨ acc.block_pass = some expr
  | .splat operand | .keywords operand | .plain operand =>
    acc.args.length < MAX_ARGS ∧
      ∀ v t, (eval_node env (some operand)).run (answering answers) s = some (v, t) → GoesOn v t →
        Fitting answers env acc arg v t

/-- Something holds of every argument when its turn comes. -/
def EachArgument (P : Arguments → Node → State → Prop) (acc : Arguments) (args : List Node) (s : State) : Prop :=
  ∀ before arg after reached t, args = before ++ arg :: after →
    (collect_arguments env acc before).run (answering answers) s = some (.inr reached, t) → P reached arg t

/-- The law: every argument adds what it must, and the merged keywords come last. -/
def ArgumentsLaw (args : List Node) (s : State) : Prop :=
  EachArgument answers env (ArgumentLaw answers env) no_arguments args s ∧
    ∀ acc t, (collect_arguments env no_arguments args).run (answering answers) s = some (.inr acc, t) →
      acc.list = acc.args ++ acc.kwargs.toList.map .hash

/-- Every argument fits, and the merged keywords too. -/
def ArgumentsFit (args : List Node) (s : State) : Prop :=
  EachArgument answers env (ArgumentFits answers env) no_arguments args s ∧
    ∀ acc t, (collect_arguments env no_arguments args).run (answering answers) s = some (.inr acc, t) →
      acc.kwargs.isSome → acc.args.length < MAX_ARGS

/-- A run of the law: the arguments from the left, with what each adds. -/
inductive Transport : Arguments → State → List Node → Arguments → State → Prop where
  | done (acc : Arguments) (s : State) : Transport acc s [] acc s
  | block_pass {acc merged : Arguments} {s t : State} {arg : Node} {args : List Node} {expr : Option Node}
      (form : argument_form arg = .block_pass expr)
      (rest : Transport { acc with block_pass := some expr } s args merged t) :
      Transport acc s (arg :: args) merged t
  | plain {acc merged : Arguments} {s t u : State} {arg operand : Node} {args : List Node} {v : Value}
      (form : argument_form arg = .plain operand)
      (eval : (eval_node env (some operand)).run (answering answers) s = some (v, t)) (goes_on : GoesOn v t)
      (rest : Transport (acc.push v) t args merged u) : Transport acc s (arg :: args) merged u
  | splat {acc merged : Arguments} {s t u w : State} {arg operand : Node} {args : List Node} {v : Value}
      {vals : List Value} (form : argument_form arg = .splat operand)
      (eval : (eval_node env (some operand)).run (answering answers) s = some (v, t)) (goes_on : GoesOn v t)
      (expands : (splat_elems env arg.span v).run (answering answers) t = some (vals, w))
      (rest : Transport { acc with args := acc.args ++ vals } t args merged u) :
      Transport acc s (arg :: args) merged u
  | keywords {acc acc' merged : Arguments} {s t u w : State} {arg operand : Node} {args : List Node} {v : Value}
      (form : argument_form arg = .keywords operand)
      (eval : (eval_node env (some operand)).run (answering answers) s = some (v, t)) (goes_on : GoesOn v t)
      (merges : (merge_law acc v).run (answering answers) t = some (acc', w))
      (rest : Transport acc' w args merged u) : Transport acc s (arg :: args) merged u

end

section
variable {answers : Oracle evaluator_calls State} {env : Env} {acc : Arguments} {arg : Node} {s : State}

theorem collect_cons (env : Env) (acc : Arguments) (arg : Node) (rest : List Node) :
    collect_arguments env acc (arg :: rest) =
      if MAX_ARGS ≤ acc.args.length then return .inr acc
      else collect_argument env acc arg >>= fun
        | .inl signal => return .inl signal
        | .inr acc => collect_arguments env acc rest := rfl

theorem collect_append (env : Env) (acc : Arguments) (before rest : List Node) :
    collect_arguments env acc (before ++ rest) = collect_arguments env acc before >>= fun
      | .inl signal => return .inl signal
      | .inr acc => collect_arguments env acc rest := by
  induction before generalizing acc with
  | nil => rfl
  | cons arg before ih =>
    rw [List.cons_append, collect_cons, collect_cons]
    by_cases hfull : MAX_ARGS ≤ acc.args.length
    · rw [if_pos hfull, if_pos hfull, pure_bind]
      cases rest with
      | nil => rfl
      | cons => exact ((collect_cons ..).trans (if_pos hfull)).symm
    · rw [if_neg hfull, if_neg hfull, bind_assoc]
      congr 1
      funext out
      cases out with
      | inl signal => rfl
      | inr acc => exact ih acc

/-- In a full buffer an argument is passed over. -/
theorem collect_full (hfull : MAX_ARGS ≤ acc.args.length) (args : List Node) :
    collect_arguments env acc args = return .inr acc := by
  cases args with
  | nil => rfl
  | cons => rw [collect_cons, if_pos hfull]

theorem collect_one (hroom : acc.args.length < MAX_ARGS) (arg : Node) :
    collect_arguments env acc [arg] = collect_argument env acc arg := by
  rw [collect_cons, if_neg (Nat.not_le.mpr hroom)]
  conv_rhs => rw [← bind_pure (collect_argument env acc arg)]
  congr 1
  funext out
  cases out with
  | inl signal => rfl
  | inr acc => rfl

/-- The first argument has its turn, and those behind it have theirs. -/
theorem eachArgument_cons {P : Arguments → Node → State → Prop} {args : List Node} :
    EachArgument answers env P acc (arg :: args) s ↔
      P acc arg s ∧ ∀ reached t, (collect_arguments env acc [arg]).run (answering answers) s = some (.inr reached, t) →
        EachArgument answers env P reached args t := by
  constructor
  · intro h
    refine ⟨h [] arg args acc s rfl rfl, ?_⟩
    intro reached t hfirst before arg' after reached' u hsplit hrun
    refine h (arg :: before) arg' after reached' u (by rw [hsplit]; rfl) ?_
    have happend := collect_append env acc [arg] before
    rw [List.singleton_append] at happend
    rw [happend, run_bind_some hfirst]
    exact hrun
  · rintro ⟨hfirst, hrest⟩ before arg' after reached t hsplit hrun
    cases before with
    | nil =>
      obtain ⟨rfl, rfl⟩ := List.cons.inj hsplit
      obtain ⟨hacc, rfl⟩ := Prod.mk.inj (Option.some.inj hrun)
      cases hacc
      exact hfirst
    | cons first before =>
      obtain ⟨rfl, hargs⟩ := List.cons.inj hsplit
      have happend := collect_append env acc [arg] before
      rw [List.singleton_append] at happend
      rw [happend, run_bind_eq_some_iff] at hrun
      obtain ⟨out, u, hone, hrun⟩ := hrun
      cases out with
      | inl signal => cases hrun
      | inr middle => exact hrest middle u hone before arg' after reached t hargs hrun

/-- With room in the buffer the operand of an argument is evaluated first. -/
theorem collect_performs {operand : Node} (hform : (argument_form arg).operand = some operand) :
    ((collect_arguments env acc [arg]).performed (answering answers) s).head? =
        some (.inr (.eval_node env (some operand))) ↔ acc.args.length < MAX_ARGS := by
  by_cases hroom : acc.args.length < MAX_ARGS
  · rw [collect_one hroom, collect_argument]
    cases h : argument_form arg with
    | block_pass expr => rw [h] at hform; cases hform
    | splat node | keywords node | plain node =>
      rw [h] at hform
      cases hform
      exact iff_of_true (performed_step_head _ _ _) hroom
  · rw [collect_full (Nat.not_lt.mp hroom)]
    exact iff_of_false (by rintro ⟨⟩) hroom

section
variable {operand : Node} {v : Value} {t : State} (hroom : acc.args.length < MAX_ARGS)
  (heval : (eval_node env (some operand)).run (answering answers) s = some (v, t)) (hgoes : GoesOn v t)
include hroom heval hgoes

theorem collect_plain (hform : argument_form arg = .plain operand) :
    (collect_arguments env acc [arg]).run (answering answers) s = some (.inr (acc.push v), t) := by
  rw [collect_one hroom, collect_argument, hform]
  exact run_goes_on heval hgoes _ _

theorem collect_splat_array {a : Ref} (hform : argument_form arg = .splat operand) (hv : v = .array a) :
    (collect_arguments env acc [arg]).run (answering answers) s = some (.inr (acc.push_all (t.ev.elems a)), t) := by
  subst hv
  rw [collect_one hroom, collect_argument, hform]
  exact run_goes_on heval hgoes _ _

theorem collect_splat_other (hform : argument_form arg = .splat operand) (hv : ∀ a, v ≠ .array a) :
    (collect_arguments env acc [arg]).run (answering answers) s = some (.inr (acc.push v), t) := by
  rw [collect_one hroom, collect_argument, hform]
  refine (run_goes_on heval hgoes _ _).trans ?_
  cases v with
  | array a => exact absurd rfl (hv a)
  | _ => rfl

theorem splat_adds_iff (hform : argument_form arg = .splat operand) :
    (∀ vals u, (splat_elems env arg.span v).run (answering answers) t = some (vals, u) →
      (collect_arguments env acc [arg]).run (answering answers) s =
        some (.inr { acc with args := acc.args ++ vals }, t)) ↔ FittingSplat answers env acc arg.span v t := by
  by_cases harray : ∃ a, v = .array a
  · obtain ⟨a, rfl⟩ := harray
    have helems : (splat_elems env arg.span (.array a)).run (answering answers) t = some (t.ev.elems a, t) := rfl
    simp only [collect_splat_array hroom heval hgoes hform rfl, helems, Arguments.push_all, Option.some.injEq,
      Prod.mk.injEq, Sum.inr.injEq, Arguments.mk.injEq, List.append_cancel_left_eq, and_true, FittingSplat]
    constructor
    · intro h
      have htake := congrArg List.length (h _ _ ⟨rfl, rfl⟩)
      rw [List.length_take] at htake
      omega
    · rintro h vals u ⟨rfl, rfl⟩
      exact List.take_of_length_le (by omega)
  · have hother : ∀ a, v ≠ .array a := fun a h => harray ⟨a, h⟩
    simp only [collect_splat_other hroom heval hgoes hform hother, Arguments.push, Option.some.injEq,
      Prod.mk.injEq, Sum.inr.injEq, Arguments.mk.injEq, List.append_cancel_left_eq, and_true]
    cases v with
    | array a => exact absurd rfl (hother a)
    | _ => exact forall_congr' fun vals => forall_congr' fun u => imp_congr_right fun _ => eq_comm

theorem collect_keywords (hform : argument_form arg = .keywords operand) :
    (collect_arguments env acc [arg]).run (answering answers) s =
      ((merge_keywords acc v).run (answering answers) t).map fun out => (.inr out.1, out.2) := by
  rw [collect_one hroom, collect_argument, hform]
  refine (run_goes_on heval hgoes _ _).trans ?_
  rw [run_bind]
  cases (merge_keywords acc v).run (answering answers) t <;> rfl

end

/-- The merged keywords are those of the law exactly when a hash was merged. -/
theorem merge_iff {v : Value} {t : State} :
    (∀ merged u, (merge_law acc v).run (answering answers) t = some (merged, u) →
      ((merge_keywords acc v).run (answering answers) t).map (fun out => ((.inr out.1 : Value ⊕ Arguments), out.2)) =
        some (.inr merged, u)) ↔ v.kind = .hash := by
  cases v with
  | hash h =>
    refine iff_of_true ?_ rfl
    intro merged u hmerge
    rw [merge_law] at hmerge
    rw [hmerge]
    rfl
  | _ =>
    refine iff_of_false ?_ (by rintro ⟨⟩)
    intro h
    have hpush := h acc t rfl
    simp only [merge_keywords, pure_eq_ret, run_ret, Option.map_some, Option.some.injEq, Prod.mk.injEq,
      Sum.inr.injEq, and_true] at hpush
    have hlength := congrArg (fun acc => acc.args.length) hpush
    simp [Arguments.push] at hlength

theorem evaluated_iff {operand : Node} (hform : (argument_form arg).operand = some operand)
    (hadds : ∀ v t, acc.args.length < MAX_ARGS →
      (eval_node env (some operand)).run (answering answers) s = some (v, t) → GoesOn v t →
        (AddsByLaw answers env acc arg s v t ↔ Fitting answers env acc arg v t)) :
    (((collect_arguments env acc [arg]).performed (answering answers) s).head? =
        some (.inr (.eval_node env (some operand))) ∧
      ∀ v t, (eval_node env (some operand)).run (answering answers) s = some (v, t) → GoesOn v t →
        AddsByLaw answers env acc arg s v t) ↔
    acc.args.length < MAX_ARGS ∧
      ∀ v t, (eval_node env (some operand)).run (answering answers) s = some (v, t) → GoesOn v t →
        Fitting answers env acc arg v t := by
  rw [collect_performs hform]
  exact and_congr_right fun hroom => forall_congr' fun v => forall_congr' fun t =>
    imp_congr_right fun heval => imp_congr_right fun hgoes => hadds v t hroom heval hgoes

/-- An argument adds what it must exactly when there is room for it and it fits. -/
theorem argumentLaw_iff : ArgumentLaw answers env acc arg s ↔ ArgumentFits answers env acc arg s := by
  rw [ArgumentLaw, ArgumentFits]
  cases hform : argument_form arg with
  | block_pass expr =>
    by_cases hroom : acc.args.length < MAX_ARGS
    · have hone : (collect_arguments env acc [arg]).run (answering answers) s =
          some (.inr { acc with block_pass := some expr }, s) := by
        rw [collect_one hroom, collect_argument, hform]
        rfl
      exact iff_of_true hone (.inl hroom)
    · rw [collect_full (Nat.not_lt.mp hroom)]
      obtain ⟨args, kwargs, block_pass⟩ := acc
      simp [hroom, pure_eq_ret]
  | plain operand =>
    refine evaluated_iff (by rw [hform]; rfl) ?_
    intro v t hroom heval hgoes
    rw [AddsByLaw, Fitting, hform]
    exact iff_of_true (collect_plain hroom heval hgoes hform) trivial
  | splat operand =>
    refine evaluated_iff (by rw [hform]; rfl) ?_
    intro v t hroom heval hgoes
    rw [AddsByLaw, Fitting, hform]
    exact splat_adds_iff hroom heval hgoes hform
  | keywords operand =>
    refine evaluated_iff (by rw [hform]; rfl) ?_
    intro v t hroom heval hgoes
    rw [AddsByLaw, Fitting, hform]
    simp only [collect_keywords hroom heval hgoes hform]
    exact merge_iff

/-- The merged keywords come last exactly when there is a slot for them. -/
theorem list_eq_iff (acc : Arguments) :
    acc.list = acc.args ++ acc.kwargs.toList.map .hash ↔ (acc.kwargs.isSome → acc.args.length < MAX_ARGS) := by
  rw [Arguments.list]
  cases acc.kwargs with
  | none => simp
  | some kwargs => by_cases hroom : acc.args.length < MAX_ARGS <;> simp [hroom]

/-- Work behind a value: the value stopped it, or it was done. -/
theorem stopped_or_done {α : Type} {p : P Value} {stopped goes : Value → P α} {out : α × State}
    (h : (p >>= fun v => stops v >>= fun stop => if stop then stopped v else goes v).run (answering answers) s =
      some out) :
    ∃ v t, (stopped v).run (answering answers) t = some out ∨ (goes v).run (answering answers) t = some out := by
  obtain ⟨v, t, -, h⟩ := run_bind_eq_some_iff.mp h
  rw [run_bind_some (run_stops answers t v)] at h
  refine ⟨v, t, ?_⟩
  by_cases hstop : (t.ev.errored || val_is_signal v) = true
  · rw [if_pos hstop] at h
    exact .inl h
  · rw [if_neg hstop] at h
    exact .inr h

theorem merge_keywords_length {v : Value} {merged : Arguments} {t : State} (hroom : acc.args.length < MAX_ARGS)
    (h : (merge_keywords acc v).run (answering answers) s = some (merged, t)) : merged.args.length ≤ MAX_ARGS := by
  cases v with
  | hash pairs =>
    have hmerge : merge_keywords acc (.hash pairs) =
        (acc.kwargs.elim val_hash_new pure >>= fun kwargs => get >>= fun ev =>
          val_hash_set_all kwargs (ev.hash pairs).pairs >>= fun _ => return { acc with kwargs := some kwargs }) := by
      rw [merge_keywords]
      cases acc.kwargs <;> rfl
    rw [hmerge] at h
    obtain ⟨kwargs, u, -, h⟩ := run_bind_eq_some_iff.mp h
    obtain ⟨ev, w, -, h⟩ := run_bind_eq_some_iff.mp h
    obtain ⟨_, _, -, h⟩ := run_bind_eq_some_iff.mp h
    cases h
    exact hroom.le
  | _ =>
    cases h
    simp only [Arguments.push, List.length_append, List.length_singleton]
    omega

theorem collect_argument_length {reached : Arguments} {t : State} (hroom : acc.args.length < MAX_ARGS)
    (h : (collect_argument env acc arg).run (answering answers) s = some (.inr reached, t)) :
    reached.args.length ≤ MAX_ARGS := by
  have hpush (v : Value) : (acc.push v).args.length ≤ MAX_ARGS := by
    simp only [Arguments.push, List.length_append, List.length_singleton]
    omega
  rw [collect_argument] at h
  cases hform : argument_form arg with
  | block_pass expr =>
    rw [hform] at h
    cases h
    exact hroom.le
  | plain node =>
    rw [hform] at h
    obtain ⟨v, u, h | h⟩ := stopped_or_done h
    · cases h
    · cases h
      exact hpush v
  | splat operand =>
    rw [hform] at h
    obtain ⟨v, u, h | h⟩ := stopped_or_done h
    · cases h
    · cases v with
      | array a =>
        cases h
        simp only [Arguments.push_all, List.length_append, List.length_take]
        omega
      | _ =>
        cases h
        exact hpush _
  | keywords hash =>
    rw [hform] at h
    obtain ⟨v, u, h | h⟩ := stopped_or_done h
    · cases h
    · obtain ⟨merged, w, hmerge, h⟩ := run_bind_eq_some_iff.mp h
      cases h
      exact merge_keywords_length hroom hmerge

/-- The argument buffer never runs over. -/
theorem collect_arguments_length {args : List Node} {reached : Arguments} {t : State}
    (hroom : acc.args.length ≤ MAX_ARGS)
    (h : (collect_arguments env acc args).run (answering answers) s = some (.inr reached, t)) :
    reached.args.length ≤ MAX_ARGS := by
  induction args generalizing acc s with
  | nil =>
    cases h
    exact hroom
  | cons arg args ih =>
    rw [collect_cons] at h
    by_cases hfull : MAX_ARGS ≤ acc.args.length
    · rw [if_pos hfull] at h
      cases h
      exact hroom
    · rw [if_neg hfull] at h
      obtain ⟨out, u, hone, h⟩ := run_bind_eq_some_iff.mp h
      cases out with
      | inl signal => cases h
      | inr middle => exact ih (collect_argument_length (Nat.not_le.mp hfull) hone) h

/-- `method_missing` receives all that was collected. -/
theorem method_missing_takes_all {args : List Node} {reached : Arguments} {t : State}
    (h : (collect_arguments env no_arguments args).run (answering answers) s = some (.inr reached, t)) :
    reached.list.take MAX_ARGS = reached.list := by
  have hargs : reached.args.length ≤ MAX_ARGS := collect_arguments_length (Nat.zero_le _) h
  refine List.take_of_length_le ?_
  rw [Arguments.list]
  cases reached.kwargs with
  | none => exact hargs
  | some kwargs =>
    by_cases hroom : reached.args.length < MAX_ARGS
    · simp only [hroom, if_true, List.length_append, List.length_singleton]
      omega
    · simp only [hroom, if_false]
      exact hargs

/-- An argument that adds what it must takes the collection where the law takes it. -/
theorem collect_append_of_law {args : List Node} {out : Value ⊕ Arguments} {reached : Arguments} {t u : State}
    (hone : (collect_arguments env acc [arg]).run (answering answers) s = some (.inr reached, t))
    (hrest : (collect_arguments env reached args).run (answering answers) t = some (out, u)) :
    (collect_arguments env acc (arg :: args)).run (answering answers) s = some (out, u) := by
  have happend := collect_append env acc [arg] args
  rw [List.singleton_append] at happend
  rw [happend, run_bind_some hone]
  exact hrest

/-- Where every argument adds what it must, the source collects what the law collects. -/
theorem Transport.collected {args : List Node} {merged : Arguments} {t : State}
    (h : Transport answers env acc s args merged t)
    (hlaw : EachArgument answers env (ArgumentLaw answers env) acc args s) :
    (collect_arguments env acc args).run (answering answers) s = some (.inr merged, t) := by
  induction h with
  | done => rfl
  | block_pass form _ ih =>
    obtain ⟨hone, hrest⟩ := eachArgument_cons.mp hlaw
    rw [ArgumentLaw, form] at hone
    exact collect_append_of_law hone (ih (hrest _ _ hone))
  | plain form eval goes_on _ ih =>
    obtain ⟨hone, hrest⟩ := eachArgument_cons.mp hlaw
    rw [ArgumentLaw, form] at hone
    have hadds := hone.2 _ _ eval goes_on
    rw [AddsByLaw, form] at hadds
    exact collect_append_of_law hadds (ih (hrest _ _ hadds))
  | splat form eval goes_on expands _ ih =>
    obtain ⟨hone, hrest⟩ := eachArgument_cons.mp hlaw
    rw [ArgumentLaw, form] at hone
    have hadds := hone.2 _ _ eval goes_on
    rw [AddsByLaw, form] at hadds
    have hadded := hadds _ _ expands
    exact collect_append_of_law hadded (ih (hrest _ _ hadded))
  | keywords form eval goes_on merges _ ih =>
    obtain ⟨hone, hrest⟩ := eachArgument_cons.mp hlaw
    rw [ArgumentLaw, form] at hone
    have hadds := hone.2 _ _ eval goes_on
    rw [AddsByLaw, form] at hadds
    have hadded := hadds _ _ merges
    exact collect_append_of_law hadded (ih (hrest _ _ hadded))

/-- The law holds exactly where everything fits. -/
theorem argumentsLaw_iff {args : List Node} : ArgumentsLaw answers env args s ↔ ArgumentsFit answers env args s := by
  refine and_congr ?_ ?_
  · refine forall_congr' fun before => forall_congr' fun arg => forall_congr' fun after => ?_
    exact forall_congr' fun reached => forall_congr' fun t => imp_congr_right fun _ => imp_congr_right fun _ =>
      argumentLaw_iff
  · exact forall_congr' fun acc => forall_congr' fun t => imp_congr_right fun _ => list_eq_iff acc

/-- The arguments of a call reach the callee as the law has it exactly where
they fit, and its argument list is then the one the law collects, with the
merged keywords behind it. -/
theorem arguments_follow_law_iff (answers : Oracle evaluator_calls State) (env : Env) (args : List Node) (s : State) :
    (ArgumentsLaw answers env args s ↔ ArgumentsFit answers env args s) ∧
    (ArgumentsFit answers env args s → ∀ merged t, Transport answers env no_arguments s args merged t →
      ∃ acc, (collect_arguments env no_arguments args).run (answering answers) s = some (.inr acc, t) ∧
        acc.list = merged.args ++ merged.kwargs.toList.map .hash) := by
  refine ⟨argumentsLaw_iff, ?_⟩
  intro hfit merged t htransport
  have hlaw := argumentsLaw_iff.mpr hfit
  have hcollected := htransport.collected hlaw.1
  exact ⟨merged, hcollected, hlaw.2 merged t hcollected⟩

end

/-- `*nil` -/
def splat_of_nil : Node := .unop no_span "*" (.nil no_span)

/-- `f(*nil)` passes nil, while `[*nil]` is empty. -/
theorem splat_of_nil_is_passed :
    ¬ ArgumentsLaw ((evaluator no_builtins).oracle state_machine 2) 0 [splat_of_nil] bare_state := by
  rintro ⟨hlaw, -⟩
  have hsplat := hlaw [] splat_of_nil [] no_arguments bare_state rfl rfl
  have hadds := hsplat.2 .nil bare_state rfl rfl [] bare_state rfl
  have hcount := congrArg (Option.map fun out => out.1.elim (fun _ => 0) fun acc => acc.args.length) hadds
  revert hcount
  decide

end stoned
