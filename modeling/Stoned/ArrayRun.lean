import Stoned.ArraySlice

namespace stoned.arrays

/-! Sequences of the methods that change an array. -/

variable {hashes : List KeyedHash} {depth : Nat} {m : Memory} {lists : List Held} {h : Held} {call : Call}

/-- A frozen array refuses. -/
theorem dispatch_frozen {fuel : Nat} (hm : Holds m lists) (hr : lists[call.recv]? = some h) (hf : h.frozen = true)
    (hchecks : checks_frozen call.method call.args = true) :
    dispatch_array hashes depth fuel call m =
      .ok (.raised "FrozenError" "can't modify frozen Array", m) := by
  obtain ⟨method, r, args, blk⟩ := call
  cases method with
  | replace =>
    cases args with
    | nil => cases hchecks
    | cons => exact unless_frozen_raises hm hr hf
  | slice_bang =>
    cases args with
    | nil => cases hchecks
    | cons => exact unless_frozen_raises hm hr hf
  | _ => exact unless_frozen_raises hm hr hf

/-- Without an argument these answer before they look at the flag. -/
theorem dispatch_without {method : Method} {r : Ref} {args : List Value} {blk : Option (List Value → Value)}
    {equal : Value → Value → Bool} (hr : lists[r]? = some h)
    (hchecks : checks_frozen method args = false) :
    ComesTo (fun fuel => dispatch_array hashes depth fuel { method, recv := r, args, blk }) lists r
      (effect_of equal lists r h.elems args blk method) := by
  cases method with
  | replace =>
    cases args with
    | nil => exact comes_to_same hr fun _ _ _ => rfl
    | cons => cases hchecks
  | slice_bang =>
    cases args with
    | nil => exact comes_to_same hr fun _ _ _ => rfl
    | cons => cases hchecks
  | _ => cases hchecks

/-- Every sound call comes to its effect. -/
theorem dispatch_comes_to {method : Method} {r : Ref} {args : List Value} {blk : Option (List Value → Value)}
    (hr : lists[r]? = some h) (hf : h.frozen = false)
    (hvalid : Valid lists { method, recv := r, args, blk })
    (hsound : Sound hashes depth lists { method, recv := r, args, blk }) :
    ComesTo (fun fuel => dispatch_array hashes depth fuel { method, recv := r, args, blk }) lists r
      (effect_of (fun a b => equal_in hashes depth lists a b = some true) lists r h.elems args blk method) := by
  have hsmall : h.elems.length < 2 ^ 60 := hvalid.small h (List.mem_of_getElem? hr)
  have hstep := hsound h hr hf
  cases method with
  | push => exact push_comes_to hr hf
  | concat => exact concat_comes_to hr hf hvalid.args hstep
  | pop => exact pop_comes_to hr hf
  | delete => exact delete_comes_to hr hf hstep
  | delete_at => exact delete_at_comes_to hr hf (by omega)
  | clear => exact clear_comes_to hr hf
  | shift => exact shift_comes_to hr hf
  | unshift => exact unshift_comes_to hr hf
  | insert => exact insert_comes_to hr hf (by omega)
  | fill => exact fill_comes_to hr hf hsmall hvalid.blk hstep
  | replace => exact replace_comes_to hr hf hvalid.args
  | slice_bang =>
    cases args with
    | nil => exact dispatch_without hr rfl
    | cons arg args => exact slice_bang_comes_to hr hf hsmall nofun hstep

/-- One call does to the array what it does to the list. -/
theorem dispatch_ok (hvalid : Valid lists call) (hsound : Sound hashes depth lists call) :
    ∃ enough, ∀ fuel, enough ≤ fuel → ∀ m, Holds m lists → ∃ m',
      dispatch_array hashes depth fuel call m = .ok ((listed hashes depth lists call).1, m') ∧
      Holds m' (listed hashes depth lists call).2 := by
  obtain ⟨h, hr⟩ : ∃ h, lists[call.recv]? = some h := ⟨_, List.getElem?_eq_getElem hvalid.recv⟩
  simp only [listed, hr]
  cases hrefuses : h.frozen && checks_frozen call.method call.args with
  | true =>
    obtain ⟨hf, hchecks⟩ := (Bool.and_eq_true_iff).mp hrefuses
    exact ⟨0, fun fuel _ m hm => ⟨m, dispatch_frozen hm hr hf hchecks, hm⟩⟩
  | false =>
    cases hf : h.frozen with
    | false => exact dispatch_comes_to hr hf hvalid hsound
    | true =>
      rw [hf, Bool.true_and] at hrefuses
      exact dispatch_without hr hrefuses

theorem Holds.len_le_cap (hm : Holds m lists) : ∀ c ∈ m, c.buffer.len ≤ c.buffer.cap := by
  induction hm with
  | nil => nofun
  | cons hhead _ ih =>
    intro c hc
    rcases List.mem_cons.mp hc with rfl | hc
    · exact hhead.1.len_le_cap
    · exact ih c hc

theorem run_calls_ok {calls : List Call} (hsound : SoundCalls hashes depth lists calls) :
    ∃ enough, ∀ fuel, enough ≤ fuel → ∀ m, Holds m lists → ∃ m',
      run_calls hashes depth fuel calls m = .ok ((listed_calls hashes depth lists calls).1, m') ∧
      Holds m' (listed_calls hashes depth lists calls).2 := by
  induction calls generalizing lists with
  | nil => exact ⟨0, fun fuel _ m hm => ⟨m, rfl, hm⟩⟩
  | cons call calls ih =>
    obtain ⟨hvalid, hstep, hrest⟩ := hsound
    obtain ⟨enough, hcall⟩ := dispatch_ok hvalid hstep
    obtain ⟨enough', hcalls⟩ := ih hrest
    refine ⟨max enough enough', fun fuel hfuel m hm => ?_⟩
    obtain ⟨m₁, hreply, hm₁⟩ := hcall fuel (by omega) m hm
    obtain ⟨m₂, hreplies, hm₂⟩ := hcalls fuel (by omega) m₁ hm₁
    refine ⟨m₂, ?_, hm₂⟩
    rw [run_calls, bind_ok hreply, bind_ok hreplies, pure_ok]
    rfl

/-- While an array is added to itself its end moves away. -/
theorem push_self_runs {r : Ref} {fuel j : Nat} (hm : Holds m lists) (hr : lists[r]? = some h)
    (hj : j < h.elems.length) :
    push_while (len r) r r fuel j m = .error .running := by
  induction fuel generalizing m lists h j with
  | zero => rfl
  | succ fuel ih =>
    rw [push_while, bind_ok (len_ok hm hr), if_pos hj, bind_ok (read_ok hm hr hj)]
    obtain ⟨m₁, hpush, hm₁⟩ := push_ok (v := h.elems[j]) hm hr
    rw [bind_ok hpush]
    exact ih hm₁ (changed_get hr) (by simpa using hj)

/-- `concat` with the receiver itself does not end, whatever is in the array. -/
theorem concat_self_runs {r : Ref} (args : List Value) (fuel : Nat) (hm : Holds m lists) (hr : lists[r]? = some h)
    (hf : h.frozen = false) (hxs : h.elems ≠ []) : concat fuel r (.array r :: args) m = .error .running := by
  rw [concat, unless_frozen_ok hm hr hf, concat_all]
  simp only [bind, StateT.bind, push_self_runs hm hr (List.length_pos_iff.mpr hxs), Except.bind]

end stoned.arrays
