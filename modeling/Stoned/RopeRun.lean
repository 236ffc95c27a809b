import Mathlib.Data.List.TakeWhile
import Stoned.Evaluator

namespace stoned

open program

/-! The bytes of an interpolated string. -/

/-- A part of an interpolated string. -/
inductive RopePart where
  | lit (bytes : String)
  | expr (node : Node)

def RopePart.rope : RopePart → RopeNode Node
  | .lit bytes => .lit bytes
  | .expr node => .expr node

def RopePart.is_lit : RopePart → Bool
  | .lit _ => true
  | .expr _ => false

/-- The parts of a rope from the left. -/
def rope_parts : RopeNode Node → List RopePart
  | .lit bytes => [.lit bytes]
  | .expr node => [.expr node]
  | .cat left right => rope_parts left ++ rope_parts right

/-- The bytes of an object, given what its to_s answers: nothing when that is
a signal. -/
def object_bytes (v ts : Value) : P (Option String) := do
  match ts with
  | .string sval .. => return some sval
  | ts =>
    let text ← val_to_s v
    return if val_is_signal ts then none else some text

/-- The bytes of a value's to_s. -/
def to_s_bytes (env : Env) (v : Value) : P (Option String) := do
  match v.kind with
  | .object | .klass => object_bytes v (← dispatch_method { env, recv := v, name := "to_s", site := none })
  | _ => return some (← val_to_s v)

/-- The bytes of a part, or nothing when it gives a signal. -/
def part_bytes (env : Env) : RopePart → P (Option String)
  | .lit bytes => return some bytes
  | .expr node => do
    let v ← eval_node env (some node)
    if ← stops v then return none
    let bytes ← to_s_bytes env v
    return if (← get).errored then none else bytes

/-- The law: the bytes of the parts from the left, or, behind a signal, the
parts that are left. -/
def parts_bytes (env : Env) : List RopePart → P (Except (List RopePart) (List String))
  | [] => return .ok []
  | seg :: rest => do
    match ← part_bytes env seg with
    | none => return .error rest
    | some bytes => return (← parts_bytes env rest).map (bytes :: ·)

/-- rope_collect on the parts. -/
def collect_parts (env : Env) : String → List RopePart → P String
  | text, [] => return text
  | text, seg :: rest => do collect_parts env (← rope_collect env text seg.rope) rest

section collecting
variable {env : Env}

theorem collect_parts_append (text : String) (front back : List RopePart) :
    collect_parts env text (front ++ back) =
      collect_parts env text front >>= fun text => collect_parts env text back := by
  induction front generalizing text with
  | nil => rfl
  | cons seg front ih =>
    rw [List.cons_append, collect_parts, collect_parts, bind_assoc]
    exact congrArg (rope_collect env text seg.rope >>= ·) (funext fun text => ih text)

theorem collect_part_alone (text : String) (seg : RopePart) :
    collect_parts env text [seg] = rope_collect env text seg.rope := bind_pure _

/-- Both children of a node are visited, from the left. -/
theorem rope_collect_eq (rope : RopeNode Node) (text : String) :
    rope_collect env text rope = collect_parts env text (rope_parts rope) := by
  induction rope generalizing text with
  | lit bytes => exact (collect_part_alone text (.lit bytes)).symm
  | expr node => exact (collect_part_alone text (.expr node)).symm
  | cat left right hleft hright =>
    rw [rope_parts, collect_parts_append, rope_collect, hleft]
    exact congrArg (_ >>= ·) (funext fun text => hright text)

end collecting

section running
variable {answers : Oracle evaluator_calls State} {env : Env} {s t : State} {α β : Type}

def is_call : (state_ops.withCalls evaluator_calls).Op → Bool
  | .inr _ => true
  | .inl _ => false

/-- The calls a run makes, in order. -/
def calls (answers : Oracle evaluator_calls State) (p : P α) (s : State) :
    List (state_ops.withCalls evaluator_calls).Op := (p.performed (answering answers) s).filter is_call

theorem calls_bind {p : P α} {v : α} (hrun : p.run (answering answers) s = some (v, t)) (f : α → P β) :
    calls answers (p >>= f) s = calls answers p s ++ calls answers (f v) t := by
  rw [calls, performed_bind hrun, List.filter_append]
  rfl

/-- Calls that are made in front of a part that makes none. -/
theorem calls_front {p : P α} {f : α → P β} (hf : ∀ v t, calls answers (f v) t = []) :
    calls answers (p >>= f) s = calls answers p s := by
  cases hrun : p.run (answering answers) s with
  | none => rw [calls, performed_bind_none hrun, calls]
  | some out => rw [calls_bind hrun, hf, List.append_nil]

/-- A program answers text and makes the calls that another makes, which
answers the same bytes if it answers any. -/
def RopeReads (answers : Oracle evaluator_calls State) (p : P String) (q : P (Option String)) : Prop :=
  ∀ s answer t, q.run (answering answers) s = some (answer, t) →
    ∃ text, p.run (answering answers) s = some (text, t) ∧ calls answers p s = calls answers q s ∧
      ∀ bytes, answer = some bytes → text = bytes

theorem reads_map (p : P String) (f : String → Option String) (hf : ∀ text bytes, f text = some bytes → text = bytes) :
    RopeReads answers p (p >>= fun text => return f text) := by
  intro s answer t hrun
  obtain ⟨text, u, hp, hanswer⟩ := run_bind_eq_some_iff.mp hrun
  cases hanswer
  exact ⟨text, hp, (calls_front fun _ _ => rfl).symm, hf text⟩

theorem reads_bind (p : P α) {f : α → P String} {g : α → P (Option String)} (h : ∀ v, RopeReads answers (f v) (g v)) :
    RopeReads answers (p >>= f) (p >>= g) := by
  intro s answer t hrun
  obtain ⟨v, u, hp, hg⟩ := run_bind_eq_some_iff.mp hrun
  obtain ⟨text, hf, hcalls, hbytes⟩ := h v u answer t hg
  exact ⟨text, by rw [run_bind_some hp, hf], by rw [calls_bind hp, calls_bind hp, hcalls], hbytes⟩

theorem reads_object (v ts : Value) :
    RopeReads answers (match ts with
      | .string sval .. => return sval
      | ts => if ts.kind = .exception then slip >>= fun _ => val_to_s v else val_to_s v) (object_bytes v ts) := by
  have hother (c : Prop) [Decidable c] (f : String → Option String)
      (hf : ∀ text bytes, f text = some bytes → text = bytes) :
      RopeReads answers (if c then slip >>= fun _ => val_to_s v else val_to_s v)
        (val_to_s v >>= fun text => return f text) := by
    split
    · exact reads_map (val_to_s v) f hf
    · exact reads_map (val_to_s v) f hf
  have hpart (b : Bool) (text bytes : String) (h : (if b then none else some text) = some bytes) : text = bytes := by
    cases b with
    | true => cases h
    | false => exact Option.some.inj h
  cases ts with
  | string sval =>
    rintro s answer t ⟨⟩
    exact ⟨sval, rfl, rfl, fun bytes h => Option.some.inj h⟩
  | _ => exact hother _ _ (hpart _)

theorem reads_to_s (env : Env) (v : Value) : RopeReads answers (rope_text env v) (to_s_bytes env v) := by
  rw [rope_text, to_s_bytes]
  cases v.kind with
  | object | klass => exact reads_bind _ (reads_object v)
  | _ => exact reads_map (val_to_s v) some fun _ _ => Option.some.inj

/-- Marking that an exception is passed over changes nothing. -/
theorem slip_when (c : Prop) [Decidable c] (p : P α) :
    (if c then slip >>= fun _ => p else p).run (answering answers) s = p.run (answering answers) s ∧
      calls answers (if c then slip >>= fun _ => p else p) s = calls answers p s := by
  split <;> exact ⟨rfl, rfl⟩

/-- What a part adds to a text. -/
def Adds (cut bytes : String) : Prop := cut = bytes ∨ cut = c_string bytes

/-- A part adds its bytes, those of a value as a C string. -/
theorem collect_part_run {seg : RopePart} {answer : Option String}
    (hrun : (part_bytes env seg).run (answering answers) s = some (answer, t)) (text : String) :
    ∃ cut, (rope_collect env text seg.rope).run (answering answers) s = some (text ++ cut, t) ∧
      calls answers (rope_collect env text seg.rope) s = calls answers (part_bytes env seg) s ∧
      ∀ bytes, answer = some bytes → Adds cut bytes ∧ (s.ev.errored = false → t.ev.errored = false) := by
  cases seg with
  | lit bytes =>
    cases hrun
    exact ⟨bytes, rfl, rfl, fun _ h => ⟨.inl (Option.some.inj h), id⟩⟩
  | expr node =>
    rw [part_bytes] at hrun ⊢
    rw [RopePart.rope, rope_collect]
    obtain ⟨v, u, heval, hrest⟩ := run_bind_eq_some_iff.mp hrun
    rw [run_bind_some heval, calls_bind heval, calls_bind heval]
    rw [run_bind_some (run_stops answers u v)] at hrest ⊢
    rw [calls_bind (run_stops answers u v), calls_bind (run_stops answers u v)]
    cases hstop : u.ev.errored || val_is_signal v with
    | true =>
      rw [hstop] at hrest
      cases hrest
      have hslip := @slip_when answers t String (v.kind = .exception) _ (return text)
      refine ⟨"", ?_, congrArg₂ (· ++ ·) rfl (congrArg₂ (· ++ ·) rfl hslip.2), by rintro _ ⟨⟩⟩
      rw [String.append_empty]
      exact hslip.1
    | false =>
      rw [hstop] at hrest
      obtain ⟨bytes, w, hbytes, hlast⟩ := run_bind_eq_some_iff.mp hrest
      obtain ⟨found, hfound, hcalls, hsame⟩ := reads_to_s env v u bytes w hbytes
      have hanswer : answer = (if w.ev.errored then none else bytes) ∧ t = w := by
        cases hlast
        exact ⟨rfl, rfl⟩
      obtain ⟨rfl, rfl⟩ := hanswer
      refine ⟨c_string found, run_bind_some hfound, ?_, ?_⟩
      · refine congrArg₂ (· ++ ·) rfl (congrArg₂ (· ++ ·) rfl ?_)
        exact (calls_front fun _ _ => rfl).trans (hcalls.trans (calls_front fun _ _ => rfl).symm)
      · intro bytes' h
        cases herrored : t.ev.errored with
        | true => simp [herrored] at h
        | false => exact ⟨.inr (congrArg c_string (hsame bytes' (by simpa [herrored] using h))), fun _ => rfl⟩

/-- The parts of a string without signals are added one behind the other. -/
theorem collect_parts_ok {segs : List RopePart} {parts : List String}
    (hrun : (parts_bytes env segs).run (answering answers) s = some (.ok parts, t)) (text : String) :
    ∃ cuts, (collect_parts env text segs).run (answering answers) s = some (text ++ String.join cuts, t) ∧
      List.Forall₂ Adds cuts parts ∧ (s.ev.errored = false → t.ev.errored = false) := by
  induction segs generalizing s text parts with
  | nil =>
    cases hrun
    refine ⟨[], ?_, .nil, id⟩
    rw [String.join_nil, String.append_empty]
    rfl
  | cons seg rest ih =>
    obtain ⟨answer, u, hseg, hrest⟩ := run_bind_eq_some_iff.mp hrun
    obtain ⟨cut, hcollect, -, hadds⟩ := collect_part_run hseg text
    cases answer with
    | none => cases hrest
    | some bytes =>
      obtain ⟨result, w, hrun', hlast⟩ := run_bind_eq_some_iff.mp hrest
      cases result with
      | error behind => cases hlast
      | ok parts' =>
        cases hlast
        obtain ⟨hadd, hquiet⟩ := hadds bytes rfl
        obtain ⟨cuts, hcuts, hforall, hquiet'⟩ := ih hrun' (text ++ cut)
        refine ⟨cut :: cuts, (run_bind_some hcollect).trans ?_, .cons hadd hforall, hquiet' ∘ hquiet⟩
        rw [hcuts, String.join_cons, String.append_assoc]

/-- Behind a signal the parts that are left are still collected. -/
theorem collect_parts_error {segs behind : List RopePart}
    (hrun : (parts_bytes env segs).run (answering answers) s = some (.error behind, t)) (text : String) :
    ∃ text', calls answers (collect_parts env text segs) s =
      calls answers (parts_bytes env segs) s ++ calls answers (collect_parts env text' behind) t := by
  induction segs generalizing s text with
  | nil => cases hrun
  | cons seg rest ih =>
    obtain ⟨answer, u, hseg, hrest⟩ := run_bind_eq_some_iff.mp hrun
    obtain ⟨cut, hcollect, hcalls, -⟩ := collect_part_run hseg text
    rw [collect_parts, parts_bytes, calls_bind hcollect, calls_bind hseg, hcalls]
    cases answer with
    | none =>
      cases hrest
      exact ⟨text ++ cut, by rw [List.append_assoc]; rfl⟩
    | some bytes =>
      obtain ⟨result, w, hrun', hlast⟩ := run_bind_eq_some_iff.mp hrest
      cases result with
      | ok parts => cases hlast
      | error behind' =>
        cases hlast
        obtain ⟨text', hcalls'⟩ := ih hrun' (text ++ cut)
        refine ⟨text', ?_⟩
        dsimp only
        rw [hcalls', calls_front fun _ _ => rfl, List.append_assoc]

/-- Only literal parts make no calls. -/
theorem calls_collect_eq_nil_iff {segs : List RopePart} (text : String) :
    calls answers (collect_parts env text segs) s = [] ↔ ∀ seg ∈ segs, seg.is_lit = true := by
  induction segs generalizing text with
  | nil => exact iff_of_true rfl nofun
  | cons seg rest ih =>
    cases seg with
    | lit bytes =>
      have hlit : collect_parts env text (.lit bytes :: rest) = collect_parts env (text ++ bytes) rest := rfl
      rw [hlit, ih, List.forall_mem_cons]
      exact (and_iff_right rfl).symm
    | expr node =>
      refine iff_of_false ?_ fun h => Bool.false_ne_true (h _ List.mem_cons_self)
      intro hnil
      have hhead : (calls answers (collect_parts env text (.expr node :: rest)) s).head? =
          some (.inr (.eval_node env (some node))) := seen_step_head rfl _ s
      rw [hnil] at hhead
      cases hhead

end running

section bytes
variable {bytes : String} {parts cuts : List String}

theorem nul_notMem_c_string (bytes : String) : '\x00' ∉ (c_string bytes).toList := by
  rw [c_string, String.toList_ofList]
  intro hmem
  simpa using List.mem_takeWhile_imp hmem

theorem c_string_eq_iff : c_string bytes = bytes ↔ '\x00' ∉ bytes.toList := by
  constructor
  · intro heq
    rw [← heq]
    exact nul_notMem_c_string bytes
  · intro hnul
    rw [c_string, List.takeWhile_eq_self_iff.mpr, String.ofList_toList]
    exact fun c hc => decide_eq_true fun h => hnul (h ▸ hc)

/-- What the parts add, taken as a C string, is their bytes when no NUL is
among them. -/
theorem join_cuts_iff (hadds : List.Forall₂ Adds cuts parts) :
    c_string (String.join cuts) = String.join parts ↔ ∀ part ∈ parts, '\x00' ∉ part.toList := by
  constructor
  · intro heq part hpart hnul
    refine nul_notMem_c_string (String.join cuts) ?_
    rw [heq, String.toList_join]
    exact List.mem_flatMap.mpr ⟨part, hpart, hnul⟩
  · intro hparts
    have hsame : cuts = parts := by
      induction hadds with
      | nil => rfl
      | cons hadd _ ih =>
        rw [List.forall_mem_cons] at hparts
        rw [ih hparts.2]
        obtain rfl | rfl := hadd
        · rfl
        · rw [c_string_eq_iff.mpr hparts.1]
    rw [hsame, c_string_eq_iff, String.toList_join, List.mem_flatMap]
    rintro ⟨part, hpart, hnul⟩
    exact hparts part hpart hnul

end bytes

/-- What is promised of an interpolated string, given the bytes of its parts or
the parts behind a signal: the string has these bytes, and behind a signal
nothing is evaluated. -/
def Interpolates (answers : Oracle evaluator_calls State) (env : Env) (rope : RopeNode Node) (s t : State) :
    Except (List RopePart) (List String) → Prop
  | .ok parts => (eval_rope env rope).run (answering answers) s = some (val_string (String.join parts), t)
  | .error _ => calls answers (eval_rope env rope) s = calls answers (parts_bytes env (rope_parts rope)) s

/-- No part has a NUL byte, and behind a signal all parts are literal. -/
def PlainParts : Except (List RopePart) (List String) → Prop
  | .ok parts => ∀ part ∈ parts, '\x00' ∉ part.toList
  | .error behind => ∀ seg ∈ behind, seg.is_lit = true

/-- An interpolated string keeps the promise exactly when no part has a NUL
byte and, behind a signal, all parts that are left are literal. -/
theorem interpolates_iff (answers : Oracle evaluator_calls State) (env : Env) (rope : RopeNode Node) {s t : State}
    {result : Except (List RopePart) (List String)} (herrored : s.ev.errored = false)
    (hrun : (parts_bytes env (rope_parts rope)).run (answering answers) s = some (result, t)) :
    Interpolates answers env rope s t result ↔ PlainParts result := by
  have heval : eval_rope env rope = collect_parts env "" (rope_parts rope) >>= fun s => get >>= fun ev =>
      if ev.errored then return .nil else return val_string (c_string s) := by
    rw [← rope_collect_eq]
    rfl
  cases result with
  | ok parts =>
    obtain ⟨cuts, hcollect, hadds, hquiet⟩ := collect_parts_ok hrun ""
    have hvalue : (eval_rope env rope).run (answering answers) s =
        some (val_string (c_string (String.join cuts)), t) := by
      rw [heval, run_bind_some hcollect, run_bind_some (run_get answers t), hquiet herrored, String.empty_append]
      rfl
    rw [Interpolates, PlainParts, ← join_cuts_iff hadds, hvalue]
    simp [val_string]
  | error behind =>
    obtain ⟨text', hcalls⟩ := collect_parts_error hrun ""
    rw [Interpolates, PlainParts, ← calls_collect_eq_nil_iff text', heval, calls_front, hcalls,
      List.append_right_eq_self]
    intro text u
    rw [calls_bind (run_get answers u)]
    split <;> rfl

/-- Integers evaluate and print; a call raises. -/
def printing : Oracle evaluator_calls State
  | .eval_node _ (some (.int _ i)), s => some (.int i, s)
  | .eval_node _ (some (.call ..)), s => some (.exception, s)
  | .builtin (.val_to_s (.int i)), s => some (toString i.toInt, s)
  | _, _ => none

/-- `"a#{1}b"` -/
def interpolated_one : RopeNode Node := .cat (.cat (.lit "a") (.expr (.int no_span 1))) (.lit "b")

theorem interpolated_one_interpolates :
    Interpolates printing 0 interpolated_one bare_state bare_state (.ok ["a", "1", "b"]) := by
  have hplain : PlainParts (.ok ["a", "1", "b"]) := by
    rw [PlainParts]
    decide
  exact (interpolates_iff printing 0 interpolated_one rfl rfl).mpr hplain

/-- `"a\0b#{1}"` -/
def nul_rope : RopeNode Node := .cat (.lit "a\x00b") (.expr (.int no_span 1))

/-- `"#{f}#{1}"` where f raises -/
def raising_rope : RopeNode Node :=
  .cat (.expr (.call no_span none "f" [] none false)) (.expr (.int no_span 1))

/-- The first one is "a", and of the second one the other expression is still
evaluated. -/
theorem nul_and_signal_break_interpolation :
    ((parts_bytes 0 (rope_parts nul_rope)).run (answering printing) bare_state =
        some (.ok ["a\x00b", "1"], bare_state) ∧
      (eval_rope 0 nul_rope).run (answering printing) bare_state = some (val_string "a", bare_state) ∧
      ¬Interpolates printing 0 nul_rope bare_state bare_state (.ok ["a\x00b", "1"])) ∧
    ((parts_bytes 0 (rope_parts raising_rope)).run (answering printing) bare_state =
        some (.error [.expr (.int no_span 1)], bare_state) ∧
      ¬Interpolates printing 0 raising_rope bare_state bare_state (.error [.expr (.int no_span 1)])) := by
  have hcut : (eval_rope 0 nul_rope).run (answering printing) bare_state = some (val_string "a", bare_state) := rfl
  refine ⟨⟨rfl, hcut, fun hkept => ?_⟩, rfl, fun hkept => ?_⟩
  · have hbytes := congrArg (Option.map fun out => out.1) (hcut.symm.trans hkept)
    simp only [Option.map_some, Option.some.injEq, val_string, Value.string.injEq, and_true] at hbytes
    exact absurd hbytes (by decide)
  · exact absurd (congrArg List.length hkept) (by decide)

end stoned
