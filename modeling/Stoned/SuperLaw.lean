import Stoned.BareSuper
import Stoned.TransportLaw

namespace stoned

open program

/-! The arguments of `super(...)`, next to those of an ordinary call. -/

/-- The argument list of an ordinary call. -/
def call_list (env : Env) (args : List Node) : P (Value ⊕ List Value) := do
  match ← collect_arguments env no_arguments args with
  | .inl signal => return .inl signal
  | .inr acc => return .inr acc.list

/-- A call passes its keywords in a hash of its own: the hash at the end of a
list that has keywords is copied. -/
def own_keywords (has_keywords : Bool) : Value ⊕ List Value → P (Value ⊕ List Value)
  | .inl signal => return .inl signal
  | .inr list =>
    match has_keywords, list.getLast? with
    | true, some (.hash h) => do
      let kwargs ← val_hash_new
      val_hash_set_all kwargs ((← get).hash h).pairs
      return .inr (list.dropLast ++ [.hash kwargs])
    | _, _ => return .inr list

def is_plain_arg (arg : Node) : Bool :=
  match argument_form arg with
  | .plain _ => true
  | _ => false

/-- An argument in front of the keywords. -/
def is_positional_arg (arg : Node) : Bool :=
  match argument_form arg with
  | .plain _ | .splat _ => true
  | _ => false

/-- A keyword, or the keywords out of a hash. -/
def is_keyword_arg (arg : Node) : Bool :=
  match argument_form arg with
  | .keywords _ => true
  | _ => false

/-- A keyword as it is written, no `**`. -/
def is_literal_keyword : Node → Bool
  | .hash _ _ keyword_style => keyword_style
  | _ => false

/-- The keywords of a list are looked at while the buffer has room. -/
def keywords_reached (pos kws : List Node) : Bool := pos.length < MAX_ARGS && !kws.isEmpty

section plain
variable {env : Env}

theorem argument_form_plain {arg : Node} (hplain : is_plain_arg arg = true) : argument_form arg = .plain arg := by
  rw [is_plain_arg] at hplain
  cases arg with
  | unop span op operand =>
    rw [argument_form] at hplain ⊢
    split
    · rename_i hop
      rw [if_pos hop] at hplain
      cases hplain
    · rename_i hop
      rw [if_neg hop] at hplain
      split
      · rename_i hop'
        rw [if_pos hop'] at hplain
        cases hplain
      · rfl
  | hash span pairs keyword_style =>
    cases keyword_style with
    | true => cases hplain
    | false => rfl
  | block_pass => cases hplain
  | _ => rfl

/-- A plain argument is evaluated alike in both places. -/
theorem collect_plain_eq {arg : Node} (hplain : is_plain_arg arg = true) {acc : Arguments}
    (hroom : ¬MAX_ARGS ≤ acc.args.length) (rest : List Node) :
    collect_arguments env acc (arg :: rest) = eval_node env (some arg) >>= fun a => stops a >>= fun stop =>
      if stop then return .inl a else collect_arguments env (acc.push a) rest := by
  rw [collect_cons, if_neg hroom, collect_argument, argument_form_plain hplain]
  simp only [bind_assoc]
  refine congrArg (eval_node env (some arg) >>= ·) (funext fun a => congrArg (stops a >>= ·) (funext fun stop => ?_))
  cases stop <;> rfl

theorem eval_super_cons {done : List Value} (hroom : ¬MAX_ARGS ≤ done.length) (arg : Node) (rest : List Node) :
    eval_super_args env done (arg :: rest) = eval_node env (some arg) >>= fun a => stops a >>= fun stop =>
      if stop then return .inl a else eval_super_args env (done ++ [a]) rest := by
  rw [eval_super_args, if_neg hroom]

theorem eval_super_full {done : List Value} (hfull : MAX_ARGS ≤ done.length) (args : List Node) :
    eval_super_args env done args = return .inr done := by
  cases args with
  | nil => rfl
  | cons => rw [eval_super_args, if_pos hfull]

/-- A call's argument list from what has been collected. -/
def finished (result : Value ⊕ Arguments) : P (Value ⊕ List Value) :=
  match result with
  | .inl signal => return .inl signal
  | .inr acc => return .inr acc.list

theorem call_list_eq (env : Env) (args : List Node) :
    call_list env args = collect_arguments env no_arguments args >>= finished := rfl

/-- The arguments in front of a list's keywords. -/
def plain_args (done : List Value) : Arguments := { args := done, kwargs := none, block_pass := none }

/-- One keyword, as it is written, becomes the hash at the end of both lists. -/
theorem collect_keyword {kw : Node} (hliteral : is_literal_keyword kw = true) {done : List Value}
    (hroom : ¬MAX_ARGS ≤ done.length) :
    collect_arguments env (plain_args done) [kw] >>= finished =
      eval_super_args env done [kw] >>= own_keywords true := by
  cases kw with
  | hash span pairs keyword_style =>
    cases keyword_style with
    | false => cases hliteral
    | true =>
      have hroom' : ¬MAX_ARGS ≤ (plain_args done).args.length := hroom
      rw [collect_cons, if_neg hroom', collect_argument, eval_super_cons hroom]
      simp only [argument_form, if_true, bind_assoc]
      refine congrArg (eval_node env _ >>= ·) (funext fun a => congrArg (stops a >>= ·) (funext fun stop => ?_))
      cases stop with
      | true => rfl
      | false =>
        have hlist (kwargs : Ref) : Arguments.list { plain_args done with kwargs := some kwargs } =
            done ++ [.hash kwargs] := if_pos (Nat.lt_of_not_le hroom)
        have hlast : (done ++ [a]).getLast? = some a := List.getLast?_concat
        cases a with
        | hash h =>
          simp only [Bool.false_eq_true, if_false, merge_keywords, plain_args, eval_super_args, own_keywords, hlast,
            List.dropLast_concat, bind_assoc, pure_bind, collect_arguments, finished]
          simp only [plain_args] at hlist
          simp only [hlist]
        | _ =>
          simp only [Bool.false_eq_true, if_false, merge_keywords, eval_super_args, own_keywords, hlast, pure_bind,
            collect_arguments, finished]
          rfl
  | _ => cases hliteral

/-- With plain arguments and at most one keyword, which is no `**`, super passes
what a call passes. -/
theorem call_list_eq_super {pos kws : List Node} {done : List Value}
    (hplain : ∀ arg ∈ pos.take (MAX_ARGS - done.length), is_plain_arg arg = true)
    (hkws : MAX_ARGS ≤ done.length + pos.length ∨ kws = [] ∨ ∃ kw, kws = [kw] ∧ is_literal_keyword kw = true) :
    collect_arguments env (plain_args done) (pos ++ kws) >>= finished =
      eval_super_args env done (pos ++ kws) >>=
        own_keywords (done.length + pos.length < MAX_ARGS && !kws.isEmpty) := by
  induction pos generalizing done with
  | nil =>
    by_cases hfull : MAX_ARGS ≤ done.length
    · rw [collect_full hfull, eval_super_full hfull, decide_eq_false (by simpa using hfull)]
      rfl
    · rcases hkws with hfull' | rfl | ⟨kw, rfl, hliteral⟩
      · exact absurd hfull' hfull
      · rw [List.isEmpty_nil, Bool.not_true, Bool.and_false]
        rfl
      · rw [decide_eq_true (by simpa using hfull)]
        exact collect_keyword hliteral hfull
  | cons arg pos ih =>
    by_cases hfull : MAX_ARGS ≤ done.length
    · rw [collect_full hfull, eval_super_full hfull, decide_eq_false (by simp; omega)]
      rfl
    · have hstep : MAX_ARGS - done.length = (MAX_ARGS - (done.length + 1)) + 1 := by omega
      rw [hstep, List.take_succ_cons] at hplain
      rw [List.length_cons] at hkws ⊢
      have hlength : ∀ a : Value, (done ++ [a]).length = done.length + 1 := fun a => List.length_append
      have hrest (a : Value) := @ih (done ++ [a])
        (by rw [hlength]; exact fun other hother => hplain other (List.mem_cons_of_mem _ hother))
        (by rw [hlength, Nat.add_right_comm]; exact hkws)
      rw [List.cons_append, collect_plain_eq (hplain arg List.mem_cons_self) hfull, eval_super_cons hfull]
      simp only [bind_assoc]
      refine congrArg (eval_node env _ >>= ·) (funext fun a => congrArg (stops a >>= ·) (funext fun stop => ?_))
      cases stop with
      | true => rfl
      | false =>
        have hnext := hrest a
        rw [hlength, Nat.add_right_comm] at hnext
        exact hnext

end plain

/-! Runs in which the two lists differ. -/

/-- A state in which one more expression was answered. -/
def State.one_more (s : State) : State := { s with ev := { s.ev with call_depth := s.ev.call_depth + 1 } }

/-- Answers the expressions, and nothing else: the answer depends on how many
came before. -/
def counting (f : Int → Node → Value) : Oracle evaluator_calls State
  | .eval_node _ (some n), s => some (f s.ev.call_depth n, s.one_more)
  | _, _ => none

/-- So many expressions have been answered, and all hashes are empty. -/
structure Counted (s : State) (count : Nat) : Prop where
  errored : s.ev.errored = false
  call_depth : s.ev.call_depth = count
  pairs : ∀ h, (s.ev.hash h).pairs = []

section counting
variable {f : Int → Node → Value} {env : Env} {s : State} {count : Nat}

theorem Counted.more (hs : Counted s count) : Counted s.one_more (count + 1) := by
  refine ⟨hs.errored, ?_, hs.pairs⟩
  rw [State.one_more, hs.call_depth]
  exact (Nat.cast_succ count).symm

theorem Counted.eval (hs : Counted s count) (n : Node) :
    (eval_node env (some n)).run (answering (counting f)) s = some (f count n, s.one_more) := by
  rw [← hs.call_depth]
  rfl

/-- An expression whose value is checked. -/
theorem counting_check (hs : Counted s count) (n : Node) {α : Type} (stopped goes : Value → P α) :
    (eval_node env (some n) >>= fun a => stops a >>= fun stop => if stop then stopped a else goes a).run
        (answering (counting f)) s =
      (if val_is_signal (f count n) then stopped (f count n) else goes (f count n)).run
        (answering (counting f)) s.one_more := by
  rw [run_bind_some (hs.eval n), run_bind_some (run_stops _ _ _), hs.more.errored, Bool.false_or]

/-- The expression `b` raises when it comes as the one behind `i` others. -/
noncomputable def raising_at (i : Nat) (b : Node) (count : Int) (n : Node) : Value :=
  open Classical in if count = i ∧ n = b then .exception else .int 0

/-- The expression behind 64 others raises. -/
def raising_behind (count : Int) (_ : Node) : Value := if count = 64 then .exception else .hash 0

theorem raising_at_ne {i : Nat} {b n : Node} (h : count ≠ i ∨ n ≠ b) : raising_at i b count n = .int 0 := by
  rw [raising_at, if_neg]
  rintro ⟨hcount, hn⟩
  rcases h with h | h
  · exact h (by exact_mod_cast hcount)
  · exact h hn

theorem raising_at_self (i : Nat) (b : Node) : raising_at i b i b = .exception := if_pos ⟨rfl, rfl⟩

/-- super evaluates an argument as it stands. -/
theorem super_raises {b : Node} {rest front : List Node} {done : List Value} (hs : Counted s done.length)
    (hroom : done.length + front.length < MAX_ARGS) :
    ∃ t, (eval_super_args env done (front ++ b :: rest)).run
      (answering (counting (raising_at (done.length + front.length) b))) s = some (.inl .exception, t) := by
  induction front generalizing s done with
  | nil =>
    rw [List.nil_append, eval_super_cons (Nat.not_le.mpr hroom)]
    refine ⟨s.one_more, (counting_check hs b _ _).trans ?_⟩
    rw [List.length_nil, Nat.add_zero, raising_at_self]
    rfl
  | cons n front ih =>
    rw [List.length_cons] at hroom
    rw [List.cons_append, List.length_cons, eval_super_cons (by omega)]
    have hlength : (done ++ [Value.int 0]).length = done.length + 1 := List.length_append
    have hmore := hs.more
    rw [← hlength] at hmore
    obtain ⟨u, hrest⟩ := ih hmore (by omega)
    rw [hlength, Nat.add_right_comm, Nat.add_assoc] at hrest
    refine ⟨u, (counting_check hs n _ _).trans ?_⟩
    rw [raising_at_ne (.inl (by omega))]
    exact hrest

/-- An integer is one more argument, in whatever form it stands. -/
theorem collect_int {arg n : Node} (hs : Counted s count) (hoperand : (argument_form arg).operand = some n)
    (hvalue : f count n = .int 0) (acc : Arguments) :
    (collect_argument env acc arg).run (answering (counting f)) s = some (.inr (acc.push (.int 0)), s.one_more) := by
  rw [collect_argument]
  cases hform : argument_form arg with
  | block_pass expr =>
    rw [hform] at hoperand
    cases hoperand
  | splat operand | keywords operand | plain operand =>
    rw [hform] at hoperand
    cases hoperand
    refine (counting_check hs n _ _).trans ?_
    rw [hvalue]
    rfl

/-- Behind the place where `b` would raise nothing does. -/
theorem collect_behind {i : Nat} {b : Node} (hs : Counted s count) (hcount : i < count) (acc : Arguments)
    (args : List Node) :
    ∃ acc' t, (collect_arguments env acc args).run (answering (counting (raising_at i b))) s = some (.inr acc', t) := by
  induction args generalizing s count acc with
  | nil => exact ⟨acc, s, rfl⟩
  | cons arg rest ih =>
    rw [collect_cons]
    split
    · exact ⟨acc, s, rfl⟩
    · cases hoperand : (argument_form arg).operand with
      | none =>
        have hform : ∃ expr, argument_form arg = .block_pass expr := by
          cases hform : argument_form arg with
          | block_pass expr => exact ⟨expr, rfl⟩
          | splat | keywords | plain =>
            rw [hform] at hoperand
            cases hoperand
        obtain ⟨expr, hform⟩ := hform
        obtain ⟨acc', t, hrest⟩ := ih hs hcount { acc with block_pass := some expr }
        refine ⟨acc', t, ?_⟩
        rw [collect_argument, hform]
        exact hrest
      | some n =>
        have hone := @collect_int (raising_at i b) env s count arg n hs hoperand (raising_at_ne (.inl (by omega))) acc
        obtain ⟨acc', u, hrest⟩ := ih hs.more (by omega) (acc.push (.int 0))
        exact ⟨acc', u, (run_bind_some hone).trans hrest⟩

/-- A call evaluates the operand of `b`, which does not raise. -/
theorem collect_goes {b n : Node} (hoperand : (argument_form b).operand = some n) (hn : n ≠ b) (rest : List Node)
    {front : List Node} (hplain : ∀ arg ∈ front, is_plain_arg arg = true) (hs : Counted s count) (acc : Arguments) :
    ∃ acc' t, (collect_arguments env acc (front ++ b :: rest)).run
      (answering (counting (raising_at (count + front.length) b))) s = some (.inr acc', t) := by
  induction front generalizing s count acc with
  | nil =>
    rw [List.nil_append, collect_cons]
    split
    · exact ⟨acc, s, rfl⟩
    · have hone := @collect_int (raising_at count b) env s count b n hs hoperand (raising_at_ne (.inr hn)) acc
      obtain ⟨acc', u, hrest⟩ := @collect_behind env s.one_more (count + 1) count b hs.more (Nat.lt_succ_self _)
        (acc.push (.int 0)) rest
      exact ⟨acc', u, (run_bind_some hone).trans hrest⟩
  | cons arg front ih =>
    rw [List.cons_append, collect_cons]
    split
    · exact ⟨acc, s, rfl⟩
    · have hform : (argument_form arg).operand = some arg := by
        rw [argument_form_plain (hplain arg List.mem_cons_self)]
        rfl
      rw [List.length_cons]
      have hone := @collect_int (raising_at (count + (front.length + 1)) b) env s count arg arg hs hform
        (raising_at_ne (.inl (by omega))) acc
      obtain ⟨acc', u, hrest⟩ := ih (fun other hother => hplain other (List.mem_cons_of_mem _ hother)) hs.more
        (acc.push (.int 0))
      rw [Nat.add_right_comm, Nat.add_assoc] at hrest
      exact ⟨acc', u, (run_bind_some hone).trans hrest⟩

theorem raising_behind_hash (h : count < MAX_ARGS) (n : Node) : raising_behind count n = .hash 0 := by
  refine if_neg fun heq => ?_
  rw [MAX_ARGS] at h
  omega

/-- super passes one argument for each, as far as the buffer goes. -/
theorem super_counts {done : List Value} (hs : Counted s done.length) (hdone : done.length ≤ MAX_ARGS)
    (args : List Node) :
    ∃ list t, (eval_super_args env done args).run (answering (counting raising_behind)) s = some (.inr list, t) ∧
      list.length = min MAX_ARGS (done.length + args.length) := by
  induction args generalizing s done with
  | nil => exact ⟨done, s, rfl, (Nat.min_eq_right hdone).symm⟩
  | cons arg rest ih =>
    by_cases hfull : MAX_ARGS ≤ done.length
    · rw [eval_super_full hfull]
      exact ⟨done, s, rfl, by omega⟩
    · have hlength : (done ++ [Value.hash 0]).length = done.length + 1 := List.length_append
      have hmore := hs.more
      rw [← hlength] at hmore
      obtain ⟨list, t, hrest, hcount⟩ := ih hmore (by omega)
      rw [eval_super_cons hfull]
      refine ⟨list, t, (counting_check hs arg _ _).trans ?_, ?_⟩
      · rw [raising_behind_hash (Nat.lt_of_not_le hfull)]
        exact hrest
      · rw [hcount, hlength, List.length_cons, Nat.add_right_comm, Nat.add_assoc]

theorem collect_hashes {pos : List Node} (kws : List Node) (hplain : ∀ arg ∈ pos, is_plain_arg arg = true)
    (hs : Counted s count) (acc : Arguments) (hcount : count + pos.length ≤ MAX_ARGS)
    (hroom : acc.args.length + pos.length ≤ MAX_ARGS) :
    ∃ acc' t, Counted t (count + pos.length) ∧ acc'.args.length = acc.args.length + pos.length ∧
      (collect_arguments env acc (pos ++ kws)).run (answering (counting raising_behind)) s =
        (collect_arguments env acc' kws).run (answering (counting raising_behind)) t := by
  induction pos generalizing s count acc with
  | nil => exact ⟨acc, s, hs, rfl, rfl⟩
  | cons arg pos ih =>
    rw [List.length_cons] at hcount hroom
    have hlength : (acc.push (.hash 0)).args.length = acc.args.length + 1 := List.length_append
    obtain ⟨acc', t, ht, hargs, hrun⟩ := ih (fun other hother => hplain other (List.mem_cons_of_mem _ hother)) hs.more
      (acc.push (.hash 0)) (by omega) (by omega)
    refine ⟨acc', t, ?_, ?_, ?_⟩
    · rw [List.length_cons, ← Nat.add_assoc, Nat.add_right_comm]
      exact ht
    · rw [hargs, hlength, List.length_cons, Nat.add_right_comm, Nat.add_assoc]
    · rw [List.cons_append, collect_plain_eq (hplain arg List.mem_cons_self) (by omega)]
      refine (counting_check hs arg _ _).trans ?_
      rw [raising_behind_hash (by omega)]
      exact hrun

/-- Merging an empty hash makes room for keywords and adds none. -/
theorem merge_empty (hs : Counted s count) (acc : Arguments) :
    ∃ kwargs t, Counted t count ∧ (merge_keywords acc (.hash 0)).run (answering (counting f)) s =
      some ({ acc with kwargs := some kwargs }, t) := by
  have hset (kwargs : Ref) {t : State} (ht : Counted t count) :
      (get >>= fun ev => val_hash_set_all kwargs (ev.hash 0).pairs >>= fun _ =>
        (return { acc with kwargs := some kwargs } : P Arguments)).run (answering (counting f)) t =
          some ({ acc with kwargs := some kwargs }, t) := by
    rw [run_bind_some (run_get _ t), ht.pairs]
    rfl
  cases hkwargs : acc.kwargs with
  | some kwargs =>
    refine ⟨kwargs, s, hs, ?_⟩
    simp only [merge_keywords, hkwargs, pure_bind]
    exact hset kwargs hs
  | none =>
    have hnew : Counted (s.new_hash []) count :=
      ⟨hs.errored, hs.call_depth, fun h => (hash_new_hash s h).trans (hs.pairs h)⟩
    refine ⟨s.ev.hashes.length, s.new_hash [], hnew, ?_⟩
    simp only [merge_keywords, hkwargs]
    have hrun : val_hash_new.run (answering (counting f)) s = some (s.ev.hashes.length, s.new_hash []) := rfl
    exact (run_bind_some hrun).trans (hset s.ev.hashes.length hnew)

theorem keyword_form {arg : Node} (hkeyword : is_keyword_arg arg = true) : ∃ n, argument_form arg = .keywords n := by
  rw [is_keyword_arg] at hkeyword
  cases hform : argument_form arg with
  | keywords n => exact ⟨n, rfl⟩
  | block_pass | splat | plain =>
    rw [hform] at hkeyword
    cases hkeyword

/-- Keywords become one hash, unless one raises. -/
theorem collect_kws {kws : List Node} (hkeywords : ∀ arg ∈ kws, is_keyword_arg arg = true) (hs : Counted s count)
    (hcount : count ≤ MAX_ARGS) {acc : Arguments} (hroom : acc.args.length < MAX_ARGS) :
    (count + kws.length ≤ MAX_ARGS ∧ ∃ acc' t,
      (collect_arguments env acc kws).run (answering (counting raising_behind)) s = some (.inr acc', t) ∧
        acc'.args = acc.args ∧ (kws ≠ [] ∨ acc.kwargs.isSome = true → acc'.kwargs.isSome = true)) ∨
    MAX_ARGS < count + kws.length ∧ ∃ t,
      (collect_arguments env acc kws).run (answering (counting raising_behind)) s = some (.inl .exception, t) := by
  induction kws generalizing s count acc with
  | nil => exact .inl ⟨hcount, acc, s, rfl, rfl, fun h => h.resolve_left fun hne => hne rfl⟩
  | cons arg kws ih =>
    obtain ⟨n, hform⟩ := keyword_form (hkeywords arg List.mem_cons_self)
    rw [collect_cons, if_neg (Nat.not_le.mpr hroom), collect_argument, hform, List.length_cons]
    by_cases hlast : count = MAX_ARGS
    · refine .inr ⟨by omega, s.one_more, ?_⟩
      have hone := @counting_check raising_behind env _ _ hs n _ (fun a => return .inl a) fun a =>
        merge_keywords acc a >>= fun acc => (return .inr acc : P (Value ⊕ Arguments))
      rw [hlast] at hone
      exact run_bind_some hone
    · obtain ⟨kwargs, t, ht, hmerge⟩ := @merge_empty raising_behind s.one_more (count + 1) hs.more acc
      have hone := @counting_check raising_behind env _ _ hs n _ (fun a => return .inl a) fun a =>
        merge_keywords acc a >>= fun acc => (return .inr acc : P (Value ⊕ Arguments))
      rw [raising_behind_hash (by omega)] at hone
      have hstep := hone.trans (run_bind_some hmerge)
      have hrest := @ih t (count + 1) (fun other hother => hkeywords other (List.mem_cons_of_mem _ hother)) ht (by omega)
        { acc with kwargs := some kwargs } hroom
      rcases hrest with ⟨hle, acc', u, hrun, hargs, hsome⟩ | ⟨hlt, u, hrun⟩
      · exact .inl ⟨by omega, acc', u, (run_bind_some hstep).trans hrun, hargs, fun _ => hsome (.inr rfl)⟩
      · exact .inr ⟨by omega, u, (run_bind_some hstep).trans hrun⟩

end counting

/-- Copying the keywords leaves a signal, and the number of arguments. -/
theorem own_keywords_run {answers : Oracle evaluator_calls State} {has_keywords : Bool} {s t : State}
    {result out : Value ⊕ List Value}
    (hrun : (own_keywords has_keywords result).run (answering answers) s = some (out, t)) :
    (∃ signal, result = .inl signal ∧ out = .inl signal) ∨
      ∃ before list, result = .inr before ∧ out = .inr list ∧ list.length = before.length := by
  cases result with
  | inl signal =>
    cases hrun
    exact .inl ⟨signal, rfl, rfl⟩
  | inr before =>
    rw [own_keywords.eq_def] at hrun
    dsimp only at hrun
    split at hrun
    · rename_i h hlast
      obtain ⟨kwargs, u, -, hrun⟩ := run_bind_eq_some_iff.mp hrun
      obtain ⟨ev, v, -, hrun⟩ := run_bind_eq_some_iff.mp hrun
      obtain ⟨-, w, -, hrun⟩ := run_bind_eq_some_iff.mp hrun
      cases hrun
      refine .inr ⟨before, _, rfl, rfl, ?_⟩
      have hne : before ≠ [] := by
        rintro rfl
        cases hlast
      have hpos := List.length_pos_iff.mpr hne
      rw [List.length_append, List.length_dropLast, List.length_singleton]
      omega
    · cases hrun
      exact .inr ⟨before, before, rfl, rfl, rfl⟩

/-- super with arguments passes what a call passes, the keywords in a hash of
its own. -/
def PassesSame (env : Env) (pos kws : List Node) : Prop :=
  ∀ (answers : Oracle evaluator_calls State) (s : State),
    (call_list env (pos ++ kws)).run (answering answers) s =
      (eval_super_args env [] (pos ++ kws) >>= own_keywords (keywords_reached pos kws)).run (answering answers) s

/-- A splat or `**` is not what is evaluated of it. -/
theorem operand_ne {b : Node} (hform : is_positional_arg b = true ∨ is_keyword_arg b = true)
    (hplain : ¬is_plain_arg b = true) (hliteral : ¬is_literal_keyword b = true) :
    ∃ n, (argument_form b).operand = some n ∧ n ≠ b := by
  cases b with
  | unop span op operand =>
    have hne : operand ≠ .unop span op operand := fun h => by
      have hsize := congrArg sizeOf h
      simp only [Node.unop.sizeOf_spec] at hsize
      omega
    rw [argument_form]
    split
    · exact ⟨operand, rfl, hne⟩
    · split
      · exact ⟨operand, rfl, hne⟩
      · rename_i hop hop'
        exact absurd (by rw [is_plain_arg, argument_form, if_neg hop, if_neg hop']) hplain
  | hash span pairs keyword_style =>
    cases keyword_style with
    | true => exact absurd rfl hliteral
    | false => exact absurd rfl hplain
  | block_pass => rcases hform with h | h <;> cases h
  | _ => exact absurd rfl hplain

section
variable {env : Env} {pos kws : List Node}

theorem counted_bare : Counted bare_state 0 := ⟨rfl, rfl, fun _ => rfl⟩

/-- With a splat or `**` behind plain arguments super raises where the call does not. -/
theorem not_passesSame_operand {b n : Node} {front rest : List Node} (hargs : pos ++ kws = front ++ b :: rest)
    (hplain : ∀ arg ∈ front, is_plain_arg arg = true) (hroom : front.length < MAX_ARGS)
    (hoperand : (argument_form b).operand = some n) (hn : n ≠ b) : ¬PassesSame env pos kws := by
  intro hsame
  have hrun := hsame (counting (raising_at front.length b)) bare_state
  obtain ⟨acc, t, hcall⟩ := @collect_goes env bare_state 0 b n hoperand hn rest front hplain counted_bare no_arguments
  obtain ⟨u, hsuper⟩ := @super_raises env bare_state b rest front [] counted_bare (by simpa using hroom)
  rw [Nat.zero_add] at hcall
  rw [List.length_nil, Nat.zero_add] at hsuper
  rw [hargs, call_list_eq, run_bind_some hcall, run_bind_some hsuper] at hrun
  cases hrun

/-- Two keywords are two arguments of super and one of the call. -/
theorem not_passesSame_keywords (hplain : ∀ arg ∈ pos, is_plain_arg arg = true)
    (hkeywords : ∀ arg ∈ kws, is_keyword_arg arg = true) (hroom : pos.length < MAX_ARGS) (htwo : 2 ≤ kws.length) :
    ¬PassesSame env pos kws := by
  intro hsame
  have hrun := hsame (counting raising_behind) bare_state
  obtain ⟨list, u, hsuper, hlength⟩ :=
    @super_counts env bare_state [] counted_bare (Nat.zero_le _) (pos ++ kws)
  obtain ⟨acc, t, ht, hargs, hcall⟩ := @collect_hashes env bare_state 0 pos kws hplain counted_bare no_arguments
    (by omega) (by simpa [no_arguments] using hroom.le)
  have hargs' : acc.args.length = pos.length := hargs.trans (Nat.zero_add _)
  rw [Nat.zero_add] at ht
  rw [List.length_nil, Nat.zero_add, List.length_append] at hlength
  rw [run_bind_some hsuper, call_list_eq, run_bind, hcall] at hrun
  obtain ⟨hle, acc', v, hkws, hsameargs, hsome⟩ | ⟨hlt, v, hkws⟩ :=
    @collect_kws env t pos.length kws hkeywords ht hroom.le acc (hargs' ▸ hroom)
  · rw [hkws] at hrun
    obtain ⟨kwargs, hkwargs⟩ := Option.isSome_iff_exists.mp (hsome (.inl (by rintro rfl; cases htwo)))
    have hlist : acc'.list.length = pos.length + 1 := by
      rw [Arguments.list, hkwargs]
      dsimp only
      rw [hsameargs, if_pos (hargs' ▸ hroom), List.length_append, hargs', List.length_singleton]
    rcases own_keywords_run hrun.symm with ⟨signal, hresult, -⟩ | ⟨before, after, hresult, hout, hcount⟩
    · cases hresult
    · cases hresult
      cases hout
      omega
  · rw [hkws] at hrun
    rcases own_keywords_run hrun.symm with ⟨signal, hresult, -⟩ | ⟨before, after, -, hout, -⟩
    · cases hresult
    · cases hout

end

/-- The first element without a property, among the first `n` of a list. -/
theorem exists_first_not {α : Type} {p : α → Bool} {l : List α} {n : Nat} (h : ¬∀ a ∈ l.take n, p a = true) :
    ∃ front b rest, l = front ++ b :: rest ∧ (∀ a ∈ front, p a = true) ∧ front.length < n ∧ ¬p b = true := by
  induction l generalizing n with
  | nil => exact absurd (by simp) h
  | cons a l ih =>
    cases n with
    | zero => exact absurd (by simp) h
    | succ n =>
      by_cases ha : p a = true
      · rw [List.take_succ_cons, List.forall_mem_cons, not_and] at h
        obtain ⟨front, b, rest, rfl, hfront, hlength, hb⟩ := ih (h ha)
        exact ⟨a :: front, b, rest, rfl, List.forall_mem_cons.mpr ⟨ha, hfront⟩, Nat.succ_lt_succ hlength, hb⟩
      · exact ⟨[], a, l, rfl, nofun, Nat.succ_pos n, ha⟩

/-- super passes what a call passes exactly when, as far as the buffer goes, its
arguments are no splats, and of the keywords there is at most one, no `**`. -/
theorem passesSame_iff {env : Env} {pos kws : List Node} (hpos : ∀ arg ∈ pos, is_positional_arg arg = true)
    (hkws : ∀ arg ∈ kws, is_keyword_arg arg = true) :
    PassesSame env pos kws ↔ (∀ arg ∈ pos.take MAX_ARGS, is_plain_arg arg = true) ∧
      (MAX_ARGS ≤ pos.length ∨ kws = [] ∨ ∃ kw, kws = [kw] ∧ is_literal_keyword kw = true) := by
  constructor
  · intro hsame
    have hplain : ∀ arg ∈ pos.take MAX_ARGS, is_plain_arg arg = true := by
      by_contra hsplat
      obtain ⟨front, b, rest, rfl, hfront, hroom, hb⟩ := exists_first_not hsplat
      have hform := hpos b (by simp)
      have hliteral : ¬is_literal_keyword b = true := by
        intro hliteral
        cases b with
        | hash span pairs keyword_style =>
          rw [is_literal_keyword] at hliteral
          rw [hliteral] at hform
          cases hform
        | _ => cases hliteral
      obtain ⟨n, hoperand, hn⟩ := operand_ne (.inl hform) hb hliteral
      exact not_passesSame_operand (List.append_assoc front (b :: rest) kws) hfront hroom hoperand hn hsame
    refine ⟨hplain, ?_⟩
    by_contra hkw
    push Not at hkw
    obtain ⟨hroom, hsome, hone⟩ := hkw
    rw [List.take_of_length_le hroom.le] at hplain
    obtain ⟨kw, rest, rfl⟩ := List.exists_cons_of_ne_nil hsome
    have hkw := hkws kw List.mem_cons_self
    by_cases hliteral : is_literal_keyword kw = true
    · cases rest with
      | nil => exact hone kw rfl hliteral
      | cons other rest => exact not_passesSame_keywords hplain hkws hroom (Nat.le_add_left 2 _) hsame
    · have hnot : ¬is_plain_arg kw = true := by
        obtain ⟨n, hform⟩ := keyword_form hkw
        rw [is_plain_arg, hform]
        exact Bool.false_ne_true
      obtain ⟨n, hoperand, hn⟩ := operand_ne (.inr hkw) hnot hliteral
      exact not_passesSame_operand rfl hplain hroom hoperand hn hsame
  · rintro ⟨hplain, hkeywords⟩ answers s
    have heq := @call_list_eq_super env pos kws [] hplain (by simpa using hkeywords)
    rw [List.length_nil, Nat.zero_add] at heq
    rw [call_list_eq, keywords_reached, ← heq]
    rfl

/-- A bare super in a method made by def: its enclosing method is found, the
parameters in front of the keywords are bound, and behind them are keywords and
the block. -/
structure BareSuper (builtins : Builtins) (depth : Nat) where
  env : Env
  self : Value
  cur_class : Ref
  method_name : String
  ps : ParamList
  span : Span
  receiver : Option Node
  name : String
  body : Option Node
  closure : Env
  visibility : MethodVisibility
  def_file : Option String
  state : State
  found : (enclosing_method self (state.ev.klass cur_class).class_env method_name).run (builtins.machine depth) state =
    some (some (.method (.def_ span receiver name ps.params body) closure visibility def_file), state)
  bound : ∀ p ∈ ps.passable, Forwardable env state p
  others : ∀ p ∈ ps.others, keyword_or_block p = true

namespace BareSuper
variable {builtins : Builtins} {depth : Nat} (b : BareSuper builtins depth)

/-- It passes the current values of the parameters, a splat expanded again and
the keywords in a hash. -/
def Passes : Prop :=
  ∃ args, (super_args b.env b.self b.cur_class b.method_name [] true).run (builtins.machine depth) b.state =
      some (.inr args, b.state) ∧
    ArgumentList b.state args (law_positional b.env b.state b.ps) (law_keywords b.env b.state b.ps)

/-- There are no keyword parameters, and a splat's value is the one argument
that it expands to. With more parameters than the buffer takes, the first values
happen to be what is to be passed. -/
def Fits : Prop :=
  if b.ps.passable.length ≤ MAX_ARGS then
    law_keywords b.env b.state b.ps = [] ∧
      ∀ p ∈ b.ps.splat, b.state.expanded (b.state.forwarded b.env p) = [b.state.forwarded b.env p]
  else
    ArgumentList b.state ((b.ps.passable.map (b.state.forwarded b.env)).take MAX_ARGS)
      (law_positional b.env b.state b.ps) (law_keywords b.env b.state b.ps)

theorem super_args_run :
    (super_args b.env b.self b.cur_class b.method_name [] true).run (builtins.machine depth) b.state =
      some (.inr ((b.ps.passable.map (b.state.forwarded b.env)).take MAX_ARGS), b.state) := by
  have hargs : (forwarded_args b.env [] b.ps.params).run (builtins.machine depth) b.state =
      some ((b.ps.passable.map (b.state.forwarded b.env)).take MAX_ARGS, b.state) := by
    rw [b.ps.params_eq]
    exact forwarded_args_run b.bound (fun p hp => ParamList.forwarded_name_other (b.ps.others_other p hp))
      (Nat.zero_le _)
  rw [super_args, if_pos rfl, run_bind_some (run_get _ b.state), run_bind_some b.found]
  exact run_bind_some hargs

theorem passes_iff : b.Passes ↔ b.Fits := by
  have hpasses : b.Passes ↔ ArgumentList b.state ((b.ps.passable.map (b.state.forwarded b.env)).take MAX_ARGS)
      (law_positional b.env b.state b.ps) (law_keywords b.env b.state b.ps) := by
    rw [Passes, b.super_args_run]
    constructor
    · rintro ⟨args, hrun, hargs⟩
      cases hrun
      exact hargs
    · exact fun hargs => ⟨_, rfl, hargs⟩
  rw [hpasses, Fits]
  split
  · rename_i hcount
    rw [List.take_of_length_le (by rwa [List.length_map]), argumentList_forwarded_iff]
  · rfl

end BareSuper

/-- `def f(params)` with its parameters bound, in a class. -/
def super_state (params : List Node) (bindings : List (String × Value)) : State :=
  let f : Value := .method (.def_ no_span none "f" params none) 0 .method_public none
  { bare_state with
    ev := { bare_state.ev with
      arrays := [{ elems := [.int 1], singleton_env := none, frozen := false }]
      classes := [{ name := "C", superclass := none, class_env := some 0, prepended_modules := []
                    included_modules := [], extended_modules := [], is_module := false }] }
    envs := bindings.foldl (fun envs binding => envs.env_define 0 binding.1 binding.2)
      (bare_state.envs.env_define 0 "f" f) }

def plain_param (name : String) (default_val : Option Node) (splat : Bool) : Node :=
  .param no_span (some name) default_val splat false false false

theorem no_others : ∀ p ∈ ([] : List Node), keyword_or_block p = true := by simp

/-- `def f(a, b = 2)` with a = 1 and b = 2. -/
def plain_super : BareSuper no_builtins 1 where
  env := 0
  self := .nil
  cur_class := 0
  method_name := "f"
  ps := {
    lead := [plain_param "a" none false]
    opts := [plain_param "b" (some (.int no_span 2)) false]
    splat := none, post := [], others := []
    lead_required := by decide
    opts_optional := by decide
    splat_rest := no_rest
    post_required := no_required
    others_other := no_other }
  span := no_span
  receiver := none
  name := "f"
  body := none
  closure := 0
  visibility := .method_public
  def_file := none
  state := super_state [plain_param "a" none false, plain_param "b" (some (.int no_span 2)) false]
    [("a", .int 1), ("b", .int 2)]
  found := rfl
  bound := by
    intro p hp
    rcases List.mem_cons.mp hp with rfl | hp
    · exact ⟨"a", rfl, rfl⟩
    · cases List.mem_singleton.mp hp
      exact ⟨"b", rfl, rfl⟩
  others := no_others

/-- `def f(*r)` with r = [1]. -/
def splat_super : BareSuper no_builtins 1 where
  env := 0
  self := .nil
  cur_class := 0
  method_name := "f"
  ps := {
    lead := [], opts := [], splat := some (plain_param "r" none true), post := [], others := []
    lead_required := no_required
    opts_optional := no_optional
    splat_rest := by decide
    post_required := no_required
    others_other := no_other }
  span := no_span
  receiver := none
  name := "f"
  body := none
  closure := 0
  visibility := .method_public
  def_file := none
  state := super_state [plain_param "r" none true] [("r", .array 0)]
  found := rfl
  bound := by
    intro p hp
    cases List.mem_singleton.mp hp
    exact ⟨"r", rfl, rfl⟩
  others := no_others

end stoned
