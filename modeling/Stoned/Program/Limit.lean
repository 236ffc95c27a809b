import Stoned.Program.Procedure

namespace stoned.program

variable {S C : Signature} {σ α : Type}

/-- Where the first oracle answers, the second gives the same answer. -/
def Oracle.Below (answers others : Oracle C σ) : Prop :=
  ∀ call s out, answers call s = some out → others call s = some out

theorem Oracle.Below.trans {answers others third : Oracle C σ} (h : answers.Below others)
    (h' : others.Below third) : answers.Below third :=
  fun call s out hcall => h' call s out (h call s out hcall)

/-- With more answers a program still runs as it did. -/
theorem Oracle.Below.run {M : Machine S σ} {answers others : Oracle C σ} (h : answers.Below others)
    {p : Program (S.withCalls C) α} {s : σ} {out : α × σ} (hrun : p.run (M.withCalls answers) s = some out) :
    p.run (M.withCalls others) s = some out := by
  induction p generalizing s with
  | ret value => exact hrun
  | step op next ih =>
    obtain ⟨⟨answer, t⟩, hexec, hrest⟩ := Option.bind_eq_some_iff.mp hrun
    have hop : (M.withCalls others).exec op s = some (answer, t) := by
      cases op with
      | inl op => exact hexec
      | inr call => exact h call s _ hexec
    rw [run_step, hop, Option.bind_some]
    exact ih answer hrest
  | halt => cases hrun

/-- Procedures without loops of their own: their bodies do not look at the
bound on turns. -/
def Procedures.loopless (body : (call : C.Op) → Program (S.withCalls C) (C.Answer call)) : Procedures S C :=
  fun _ => body

section
variable (body : (call : C.Op) → Program (S.withCalls C) (C.Answer call)) (M : Machine S σ)

/-- The answers of calls that are nested as deep as it takes. -/
noncomputable def limit : Oracle C σ := fun call s =>
  open Classical in
  if h : ∃ depth out, (Procedures.loopless body).oracle M depth call s = some out then
    (Procedures.loopless body).oracle M h.choose call s
  else none

variable {body M}

theorem oracle_below_succ (depth : Nat) :
    Oracle.Below ((Procedures.loopless body).oracle M depth) ((Procedures.loopless body).oracle M (depth + 1)) := by
  induction depth with
  | zero => intro call s out h; cases h
  | succ depth ih => exact fun call s out h => ih.run h

theorem oracle_below {depth depth' : Nat} (h : depth ≤ depth') :
    Oracle.Below ((Procedures.loopless body).oracle M depth) ((Procedures.loopless body).oracle M depth') := by
  induction h with
  | refl => exact fun _ _ _ h => h
  | step _ ih => exact ih.trans (oracle_below_succ _)

theorem limit_eq_some_iff {call : C.Op} {s : σ} {out : C.Answer call × σ} :
    limit body M call s = some out ↔ ∃ depth, (Procedures.loopless body).oracle M depth call s = some out := by
  unfold limit
  constructor
  · intro hlimit
    split at hlimit
    · exact ⟨_, hlimit⟩
    · cases hlimit
  · rintro ⟨depth, hdepth⟩
    have hexists : ∃ depth out, (Procedures.loopless body).oracle M depth call s = some out := ⟨depth, out, hdepth⟩
    rw [dif_pos hexists]
    obtain ⟨other, hother⟩ := hexists.choose_spec
    have hleft := oracle_below (Nat.le_max_left depth hexists.choose) call s out hdepth
    have hright := oracle_below (Nat.le_max_right depth hexists.choose) call s other hother
    rw [hother, ← hright, hleft]

theorem oracle_below_limit (depth : Nat) :
    Oracle.Below ((Procedures.loopless body).oracle M depth) (limit body M) :=
  fun _ _ _ h => limit_eq_some_iff.mpr ⟨depth, h⟩

/-- A run takes calls to some depth only. -/
theorem run_limit_iff {p : Program (S.withCalls C) α} {s : σ} {out : α × σ} :
    p.run (M.withCalls (limit body M)) s = some out ↔
      ∃ depth, p.run ((Procedures.loopless body).machine M depth) s = some out := by
  constructor
  · intro hrun
    induction p generalizing s with
    | ret value => exact ⟨0, hrun⟩
    | step op next ih =>
      obtain ⟨⟨answer, t⟩, hexec, hrest⟩ := Option.bind_eq_some_iff.mp hrun
      obtain ⟨depth, hdepth⟩ := ih answer hrest
      cases op with
      | inl op => exact ⟨depth, Option.bind_eq_some_iff.mpr ⟨_, hexec, hdepth⟩⟩
      | inr call =>
        obtain ⟨calls, hcalls⟩ := limit_eq_some_iff.mp hexec
        have hcall := oracle_below (Nat.le_max_left calls depth) call s _ hcalls
        have hnext := (oracle_below (Nat.le_max_right calls depth)).run hdepth
        exact ⟨max calls depth, Option.bind_eq_some_iff.mpr ⟨_, hcall, hnext⟩⟩
    | halt => cases hrun
  · rintro ⟨depth, hdepth⟩
    exact (oracle_below_limit depth).run hdepth

/-- A call does what its body does. -/
theorem limit_call (call : C.Op) (s : σ) :
    limit body M call s = (body call).run (M.withCalls (limit body M)) s := by
  refine Option.ext fun out => ?_
  rw [limit_eq_some_iff, run_limit_iff]
  constructor
  · rintro ⟨depth, hdepth⟩
    cases depth with
    | zero => cases hdepth
    | succ depth => exact ⟨depth, hdepth⟩
  · rintro ⟨depth, hdepth⟩
    exact ⟨depth + 1, hdepth⟩

theorem Program.along_of_forall {N : Machine S σ} {φ : S.Op → σ → Prop} (h : ∀ op s, φ op s) (p : Program S α)
    (s : σ) : p.Along N φ s := by
  induction p generalizing s with
  | ret value => trivial
  | step op next ih => exact ⟨h op s, fun answer t _ => ih answer t⟩
  | halt => trivial

theorem Procedures.admits_of_forall {procedures : Procedures S C} {φ : S.Op → σ → Prop} (h : ∀ op s, φ op s)
    (depth : Nat) (op : (S.withCalls C).Op) (s : σ) : procedures.Admits M φ depth op s := by
  induction depth generalizing op s with
  | zero =>
    cases op with
    | inl op => exact h op s
    | inr call => trivial
  | succ depth ih =>
    cases op with
    | inl op => exact h op s
    | inr call => exact Program.along_of_forall ih _ _

/-- What always holds, holds behind any program. -/
theorem Program.wp_of_forall {φ : S.Op → σ → Prop} {spec : (call : C.Op) → σ → C.Answer call → σ → Prop}
    {Q : α → σ → Prop} (h : ∀ value t, Q value t) (p : Program (S.withCalls C) α) (s : σ) :
    p.wp (specTransformer M φ spec) Q s := by
  induction p generalizing s with
  | ret value => exact h value s
  | step op next ih =>
    cases op with
    | inl op => exact fun _ answer t _ => ih answer t
    | inr call => exact fun answer t _ => ih answer t
  | halt => trivial

/-- A composition ends where its second part always does. -/
theorem Program.wp_behind {β : Type} {φ : S.Op → σ → Prop} {spec : (call : C.Op) → σ → C.Answer call → σ → Prop}
    {Q : β → σ → Prop} {p : Program (S.withCalls C) α} {f : α → Program (S.withCalls C) β}
    (h : ∀ value t, (f value).wp (specTransformer M φ spec) Q t) (s : σ) :
    (p >>= f).wp (specTransformer M φ spec) Q s := by
  rw [wp_bind]
  exact Program.wp_of_forall h p s

/-- The rule for mutually recursive procedures without a step condition. -/
theorem limit_meets_spec {spec : (call : C.Op) → σ → C.Answer call → σ → Prop}
    (hbody : ∀ call s, (body call).wp (specTransformer M (fun _ _ => True) spec) (spec call s) s)
    {call : C.Op} {s t : σ} {answer : C.Answer call} (h : limit body M call s = some (answer, t)) :
    spec call s answer t := by
  obtain ⟨depth, hdepth⟩ := limit_eq_some_iff.mp h
  exact Procedures.meets_spec (fun _ call s => hbody call s) depth call s
    (Procedures.admits_of_forall (fun _ _ => trivial) depth _ s) answer t hdepth

/-- What the operations preserve, programs with calls preserve. -/
theorem limit_preserves {I : σ → Prop} (hstep : ∀ op s answer t, M.exec op s = some (answer, t) → I s → I t)
    {p : Program (S.withCalls C) α} {s t : σ} {value : α} (h : p.run (M.withCalls (limit body M)) s = some (value, t))
    (hs : I s) : I t := by
  obtain ⟨depth, hdepth⟩ := run_limit_iff.mp h
  refine Program.preserves (Procedures.preserves (M := M) (φ := fun _ _ => True) ?_ depth) ?_ hdepth hs
  · exact fun op s answer t _ => hstep op s answer t
  · exact Program.along_of_forall (Procedures.admits_of_forall (fun _ _ => trivial) depth) p s

end
end stoned.program
