import Stoned.HashUnique

namespace stoned.hashes

open stoned.program (Triple Invariant)

/-! Sequences of methods on hashes: the keys stay different, and `transform_keys!`
does what `transform_keys` does. -/

/-- The new keys are different ones, and what comes behind the 256th key stays as
it is. -/
structure Renames (heap : KeyHeap) (depth : Nat) (block : Block) (h : HashCell) : Prop where
  differ : (h.pairs.map fun pair => block [pair.1]).Pairwise fun a b =>
    key_equal_for_mode heap depth h.compare_by_identity a b = some false
  room : ∀ pair ∈ h.pairs.drop 256, block [pair.1] = pair.1

section
variable {heap : KeyHeap} {depth : Nat} {D : HashKey → Prop} {r : Ref} {h : HashCell} {mode : Bool} {block : Block}
  {pairs sets built : List (HashKey × HashKey)}

def renamed (block : Block) (pairs : List (HashKey × HashKey)) : List (HashKey × HashKey) :=
  pairs.map fun pair => (block [pair.1], pair.2)

theorem renamed_keys : (renamed block pairs).map Prod.fst = pairs.map fun pair => block [pair.1] := by
  simp [renamed, Function.comp_def]

/-- Different keys are added one behind the other. -/
theorem build_differ (hdiffer : ((pairs ++ sets).map Prod.fst).Pairwise fun a b =>
    key_equal_for_mode heap depth mode a b = some false) :
    build heap depth mode pairs sets = some (pairs ++ sets) := by
  induction sets generalizing pairs with
  | nil => simp [build]
  | cons pair sets ih =>
    obtain ⟨key, val⟩ := pair
    have habsent : ∀ pair ∈ pairs, key_equal_for_mode heap depth mode pair.1 key = some false := by
      intro pair hpair
      rw [List.map_append, List.pairwise_append] at hdiffer
      exact hdiffer.2.2 pair.1 (List.mem_map_of_mem hpair) key (by simp)
    have hset : table.set (key_equal_for_mode heap depth mode) key val pairs = some (pairs ++ [(key, val)]) :=
      table.set_absent habsent
    have hsplit : pairs ++ (key, val) :: sets = pairs ++ [(key, val)] ++ sets := by simp
    rw [hsplit] at hdiffer ⊢
    simp only [build, hset, Option.bind_eq_bind, Option.bind_some]
    exact ih hdiffer

theorem length_build (hbuild : build heap depth mode pairs sets = some built) :
    built.length ≤ pairs.length + sets.length := by
  induction sets generalizing pairs with
  | nil =>
    obtain rfl := Option.some.inj hbuild
    simp
  | cons pair sets ih =>
    obtain ⟨pairs₁, hset, hrest⟩ := Option.bind_eq_some_iff.mp hbuild
    have hle := ih hrest
    obtain ⟨-, rfl⟩ | ⟨before, stored, old, after, rfl, rfl, -, -⟩ := table.set_cases hset
    · simp only [List.length_append, List.length_cons, List.length_nil] at hle ⊢
      omega
    · simp only [List.length_append, List.length_cons] at hle ⊢
      omega

/-- A table that has grown by every pair has them at its end, and their keys are
different ones. -/
theorem differ_of_build (hdiffer : (pairs.map Prod.fst).Pairwise fun a b =>
      key_equal_for_mode heap depth mode a b = some false)
    (hbuild : build heap depth mode pairs sets = some built)
    (hlen : built.length = pairs.length + sets.length) :
    built = pairs ++ sets ∧ ((pairs ++ sets).map Prod.fst).Pairwise fun a b =>
      key_equal_for_mode heap depth mode a b = some false := by
  induction sets generalizing pairs with
  | nil =>
    obtain rfl := Option.some.inj hbuild
    simpa using hdiffer
  | cons pair sets ih =>
    obtain ⟨key, val⟩ := pair
    obtain ⟨pairs₁, hset, hrest⟩ := Option.bind_eq_some_iff.mp hbuild
    have hle := length_build hrest
    obtain ⟨habsent, rfl⟩ | ⟨before, stored, old, after, rfl, rfl, -, -⟩ := table.set_cases hset
    · have hsplit : pairs ++ (key, val) :: sets = pairs ++ [(key, val)] ++ sets := by simp
      rw [hsplit]
      refine ih ?_ hrest ?_
      · rw [List.map_append, List.pairwise_append]
        refine ⟨hdiffer, List.pairwise_singleton _ _, ?_⟩
        intro a ha b hb
        obtain ⟨pair, hpair, rfl⟩ := List.mem_map.mp ha
        have hkey : b = key := by simpa using hb
        rw [hkey]
        exact habsent pair hpair
      · simp only [List.length_append, List.length_cons, List.length_nil] at hlen ⊢
        omega
    · simp only [List.length_append, List.length_cons] at hle hlen
      omega

theorem overwrite_eq (hroom : ∀ pair ∈ pairs.drop 256, block [pair.1] = pair.1) :
    overwrite_keys block pairs = renamed block pairs := by
  have hrest : (pairs.drop 256).map (fun pair => (block [pair.1], pair.2)) = pairs.drop 256 := by
    refine (List.map_congr_left fun pair hpair => ?_).trans (List.map_id _)
    rw [hroom pair hpair]
    rfl
  have hsplit : renamed block pairs = (pairs.take 256).map (fun pair => (block [pair.1], pair.2)) ++
      (pairs.drop 256).map (fun pair => (block [pair.1], pair.2)) := by
    rw [← List.map_append, List.take_append_drop, renamed]
  rw [hsplit, hrest, overwrite_keys]

theorem room_of_overwrite (heq : overwrite_keys block pairs = renamed block pairs) :
    ∀ pair ∈ pairs.drop 256, block [pair.1] = pair.1 := by
  have hsplit : renamed block pairs = (pairs.take 256).map (fun pair => (block [pair.1], pair.2)) ++
      (pairs.drop 256).map (fun pair => (block [pair.1], pair.2)) := by
    rw [← List.map_append, List.take_append_drop, renamed]
  rw [hsplit, overwrite_keys] at heq
  have hrest := (List.append_inj heq rfl).2
  intro pair hpair
  obtain ⟨i, hi, rfl⟩ := List.mem_iff_getElem.mp hpair
  have hat := congrArg (fun pairs => pairs[i]?) hrest
  simp only [List.getElem?_map, List.getElem?_eq_getElem hi, Option.map_some, Option.some.injEq] at hat
  exact (congrArg Prod.fst hat).symm

/-- Setting the renamed pairs in a new hash makes what overwriting the keys makes
exactly where the new keys are different and there is room for them. -/
theorem renames_iff :
    build heap depth h.compare_by_identity [] (renamed block h.pairs) = some (overwrite_keys block h.pairs) ↔
      Renames heap depth block h := by
  constructor
  · intro hbuild
    have hlen : (overwrite_keys block h.pairs).length =
        ([] : List (HashKey × HashKey)).length + (renamed block h.pairs).length := by
      simp only [overwrite_keys, renamed, List.length_append, List.length_map, List.length_take, List.length_drop,
        List.length_nil]
      omega
    obtain ⟨heq, hdiffer⟩ := differ_of_build List.Pairwise.nil hbuild hlen
    rw [List.nil_append, renamed_keys] at hdiffer
    exact ⟨hdiffer, room_of_overwrite heq⟩
  · intro hrenames
    rw [overwrite_eq hrenames.room]
    have hdiffer := hrenames.differ
    rw [← renamed_keys] at hdiffer
    exact build_differ (by simpa using hdiffer)

theorem transform_keys_bang_keeps_tidy (hD : Mutual heap depth D) :
    Triple (fun world => AllTidy heap depth D world ∧ ∀ h, world.cells[r]? = some h → h.frozen = false →
      Renames heap depth block h ∧ ∀ key ∈ h.pairs.map fun pair => block [pair.1], D key)
      (transform_keys_bang r (some block)) fun _ => AllTidy heap depth D := by
  refine unless_frozen_keeps fun h hf => ?_
  refine Triple.bind (Q := fun _ => AllTidy heap depth D) ?_ fun _ => Invariant.pure
  refine (update_tidy (P := fun world => world.cells[r]? = some h ∧ Renames heap depth block h ∧
    ∀ key ∈ h.pairs.map fun pair => block [pair.1], D key) ?_).weaken
      (fun world hw => ⟨hw.1.1, hw.2, hw.1.2 h hw.2 hf⟩) fun _ _ => id
  rintro world c c' ⟨hget, hrenames, hkeys⟩ hget' htidy hchange
  obtain rfl := Option.some.inj (hget.symm.trans hget')
  obtain rfl := Option.some.inj hchange
  rw [overwrite_eq hrenames.room]
  constructor
  · change ((renamed block h.pairs).map Prod.fst).Pairwise _
    rw [renamed_keys]
    refine hrenames.differ.imp_of_mem fun ha hb hdiffer => ?_
    have hone := fun htrue : key_equal_for_mode heap depth h.compare_by_identity _ _ = some true =>
      Bool.false_ne_true (Option.some.inj (hdiffer.symm.trans htrue))
    exact ⟨hone, fun hback => hone (hD _ _ _ (hkeys _ hb) (hkeys _ ha) hback)⟩
  · intro pair hpair
    refine hkeys pair.1 ?_
    rw [← renamed_keys]
    exact List.mem_map_of_mem hpair

end

/-! ### Runs -/

/-- The arguments that a call may store as keys. -/
def argument_keys (call : Call) : List HashKey :=
  match call.method with
  | .store => call.args.take 1
  | .slice => call.args
  | _ => []

/-- The other keys a call may store besides those that hashes have. -/
def new_keys (elems : HashKey → List HashKey) (h : HashCell) (call : Call) : List HashKey :=
  match call.method, call.blk with
  | .invert, _ => h.pairs.map Prod.snd
  | .to_h, blk => (to_h_pairs elems h blk).map Prod.fst
  | .transform_keys, some block => h.pairs.map fun pair => block [pair.1]
  | .transform_keys_bang, some block => h.pairs.map fun pair => block [pair.1]
  | .group_by, some block => h.pairs.map fun pair => block [pair.1, pair.2]
  | _, _ => []

section
variable (s : Setting) (fuel : Nat) (D : HashKey → Prop)

/-- For the receiver: the new keys are of the domain; `transform_keys!` makes
different keys and has room for them; `compare_by_identity` finds different ones. -/
structure Fits (call : Call) (h : HashCell) : Prop where
  keys : ∀ key ∈ new_keys s.elems h call, D key
  renames : call.method = .transform_keys_bang → h.frozen = false → ∀ block, call.blk = some block →
    Renames s.heap s.depth block h
  identity : call.method = .compare_by_identity → h.frozen = false →
    table.Unique (key_equal_for_mode s.heap s.depth true) h.pairs

structure Sound (world : World) (call : Call) : Prop where
  args : ∀ key ∈ argument_keys call, D key
  recv : ∀ h, world.cells[call.recv]? = some h → Fits s D call h

/-- Every call of a sequence is sound where it is made. -/
def SoundCalls (world : World) : List Call → Prop
  | [] => True
  | call :: calls => Sound s D world call ∧
    ∀ reply world', dispatch_hash s fuel call world = some (reply, world') → SoundCalls world' calls

/-- What `transform_keys!` leaves in the receiver is what `transform_keys` makes of it. -/
def Transforms (world world' : World) (call : Call) : Prop :=
  ∀ block h, call.method = .transform_keys_bang → call.blk = some block → world.cells[call.recv]? = some h →
    h.frozen = false → ∃ made other c h', transform_keys s.heap s.depth call.recv (some block) world =
        some (.hash made, other) ∧ other.cells[made]? = some c ∧ world'.cells[call.recv]? = some h' ∧
      h'.pairs = c.pairs ∧ h'.compare_by_identity = c.compare_by_identity

variable {s fuel D} {world world' : World} {call : Call} {reply : Reply}

theorem dispatch_keeps_tidy (hD : Mutual s.heap s.depth D) :
    Triple (fun world => AllTidy s.heap s.depth D world ∧ Sound s D world call)
      (dispatch_hash s fuel call) fun _ => AllTidy s.heap s.depth D := by
  obtain ⟨method, r, args, blk⟩ := call
  -- most methods keep the hashes tidy whatever the receiver is
  have hkeeps : ∀ {p : Run Reply} {P : World → Prop}, Invariant (AllTidy s.heap s.depth D) p →
      Triple (fun world => AllTidy s.heap s.depth D world ∧ P world) p fun _ => AllTidy s.heap s.depth D :=
    fun hp => Triple.weaken hp (fun _ hw => hw.1) fun _ _ => id
  cases method with
  | store => exact fun world reply world' hw => store_keeps_tidy hD hw.2.args world reply world' hw.1
  | delete => exact hkeeps delete_keeps_tidy
  | merge_bang => exact hkeeps (merge_bang_keeps_tidy hD)
  | select_bang => exact hkeeps prune_keeps_tidy
  | keep_if => exact hkeeps prune_keeps_tidy
  | reject_bang => exact hkeeps prune_keeps_tidy
  | delete_if => exact hkeeps prune_keeps_tidy
  | clear => exact hkeeps clear_keeps_tidy
  | transform_values_bang => exact hkeeps transform_values_bang_keeps_tidy
  | transform_keys_bang =>
    cases blk with
    | none => exact hkeeps Invariant.pure
    | some block =>
      refine (transform_keys_bang_keeps_tidy hD).weaken (fun world hw => ⟨hw.1, fun h hr hf => ?_⟩) fun _ _ => id
      have hfits := hw.2.recv h hr
      exact ⟨hfits.renames rfl hf block rfl, hfits.keys⟩
  | set_default => exact hkeeps set_default_keeps_tidy
  | set_default_proc => exact hkeeps set_default_proc_keeps_tidy
  | rehash => exact hkeeps rehash_keeps_tidy
  | compare_by_identity =>
    refine compare_by_identity_keeps_tidy.weaken (fun world hw => ⟨hw.1, fun h hr hf => ?_⟩) fun _ _ => id
    exact (hw.2.recv h hr).identity rfl hf
  | compact_bang => exact hkeeps compact_bang_keeps_tidy
  | replace => exact hkeeps (replace_keeps_tidy hD)
  | merge => exact hkeeps (merge_keeps_tidy hD)
  | select => exact hkeeps (select_keeps_tidy hD)
  | reject => exact hkeeps (reject_keeps_tidy hD)
  | dup => exact hkeeps (dup_keeps_tidy hD)
  | transform_values => exact hkeeps (transform_values_keeps_tidy hD)
  | transform_keys =>
    cases blk with
    | none => exact hkeeps Invariant.pure
    | some block =>
      exact (transform_keys_keeps_tidy hD).weaken (fun world hw => ⟨hw.1, fun h hr => (hw.2.recv h hr).keys⟩)
        fun _ _ => id
  | compact => exact hkeeps (compact_keeps_tidy hD)
  | invert =>
    exact (invert_keeps_tidy hD).weaken (fun world hw => ⟨hw.1, fun h hr => (hw.2.recv h hr).keys⟩) fun _ _ => id
  | slice => exact fun world reply world' hw => slice_keeps_tidy hD hw.2.args world reply world' hw.1
  | except => exact hkeeps (except_keeps_tidy hD)
  | to_h =>
    exact (to_h_keeps_tidy hD).weaken (fun world hw => ⟨hw.1, fun h hr => (hw.2.recv h hr).keys⟩) fun _ _ => id
  | group_by =>
    cases blk with
    | none => exact hkeeps Invariant.pure
    | some block =>
      exact (group_by_keeps_tidy hD).weaken (fun world hw => ⟨hw.1, fun h hr => (hw.2.recv h hr).keys⟩)
        fun _ _ => id

/-- `transform_keys!` and `transform_keys` agree in a call that fits. -/
theorem dispatch_transforms (hsound : Sound s D world call)
    (hrun : dispatch_hash s fuel call world = some (reply, world')) : Transforms s world world' call := by
  obtain ⟨method, r, args, blk⟩ := call
  rintro block h rfl rfl hr hf
  simp only at hr
  have hrenames := (hsound.recv h hr).renames rfl hf block rfl
  have hbuild := renames_iff.mpr hrenames
  have hbang : world' = { world with cells := world.cells.set r (set_pairs h (overwrite_keys block h.pairs)) } := by
    simp only [dispatch_hash, transform_keys_bang, unless_frozen, cell, update, hr, hf, bind, StateT.bind,
      Option.map_some, Option.bind_some, Bool.false_eq_true, if_false] at hrun
    exact (Prod.mk.inj (Option.some.inj hrun)).2.symm
  have hlt : r < world.cells.length := (List.getElem?_eq_some_iff.mp hr).1
  let made : HashCell :=
    { h with pairs := overwrite_keys block h.pairs, default_value := nil_key, default_proc := nil_key, frozen := false }
  refine ⟨world.cells.length, { world with cells := world.cells ++ [made] }, made, set_pairs h (overwrite_keys block h.pairs), ?_, by simp, ?_, rfl, rfl⟩
  · rw [renamed] at hbuild
    simp only [transform_keys, with_block, make, cell, hr, bind, StateT.bind, StateT.lift, Option.map_some,
      Option.bind_some, hbuild, val_hash_new]
    rfl
  · rw [hbang]
    simp [hlt]

/-- In a run of calls that fit, after every call the keys of every hash are
different, and `transform_keys!` has done what `transform_keys` does. -/
theorem keys_stay_unique (s : Setting) (fuel : Nat) (D : HashKey → Prop) (world : World) (calls : List Call)
    (hD : Mutual s.heap s.depth D) (hworld : AllTidy s.heap s.depth D world)
    (hsound : SoundCalls s fuel D world calls) (before : List Call) (call : Call) (behind : List Call)
    (world₁ world₂ : World) (replies : List Reply) (reply : Reply) (hcalls : calls = before ++ call :: behind)
    (hbefore : run_calls s fuel before world = some (replies, world₁))
    (hcall : dispatch_hash s fuel call world₁ = some (reply, world₂)) :
    AllTidy s.heap s.depth D world₂ ∧ Transforms s world₁ world₂ call := by
  subst hcalls
  induction before generalizing world replies with
  | nil =>
    obtain ⟨-, rfl⟩ := Prod.mk.inj (Option.some.inj hbefore)
    exact ⟨dispatch_keeps_tidy hD world reply world₂ ⟨hworld, hsound.1⟩ hcall, dispatch_transforms hsound.1 hcall⟩
  | cons first before ih =>
    obtain ⟨reply₁, world', hfirst, hrest⟩ := stoned.program.state_bind_some.mp hbefore
    obtain ⟨replies₁, world'', hrun, hdone⟩ := stoned.program.state_bind_some.mp hrest
    obtain ⟨-, rfl⟩ := Prod.mk.inj (Option.some.inj hdone)
    exact ih world' (dispatch_keeps_tidy hD world reply₁ world' ⟨hworld, hsound.1⟩ hfirst) replies₁
      hrun (hsound.2 reply₁ world' hfirst)

end

/-- An empty hash, and nothing else. -/
def new_world : World where
  cells := [{ pairs := [], compare_by_identity := false, default_value := nil_key, default_proc := nil_key,
              frozen := false }]
  arrays := 0
  environ := fun _ => none

def plain_setting : Setting where
  heap := { arrays := [], hashes := [] }
  depth := 1
  env_hash := 1
  to_s := fun _ => ""
  elems := fun _ => []

def int_key (n : Int64) : HashKey := { value := .int n, address := 0 }

def one_world : World := { new_world with cells := new_world.cells.map fun h => set_pairs h [(int_key 1, int_key 1)] }

def two_world : World := { new_world with cells := new_world.cells.map fun h => set_pairs h [(int_key 2, int_key 1)] }

/-- A key is stored and becomes another one. -/
theorem keys_stay_unique_one_key :
    AllTidy plain_setting.heap plain_setting.depth (fun key => ∃ n, key = int_key n) two_world ∧
      Transforms plain_setting one_world two_world ⟨.transform_keys_bang, 0, [], some fun _ => int_key 2⟩ := by
  have hD : Mutual plain_setting.heap plain_setting.depth fun key => ∃ n, key = int_key n := by
    rintro mode a b ⟨n, rfl⟩ ⟨k, rfl⟩ hequal
    cases mode <;> simpa [key_equal_for_mode, KeyHeap.val_hash_key_equal, key_equal, val_identity_equal, plain_setting,
      KeyHeap.val_equal, int_key, eq_comm, Value.kind] using hequal
  have hworld : AllTidy plain_setting.heap plain_setting.depth (fun key => ∃ n, key = int_key n) new_world := by
    intro h hh
    obtain rfl := List.mem_singleton.mp hh
    exact ⟨table.Unique.nil, by rintro _ ⟨⟩⟩
  refine keys_stay_unique plain_setting 9 _ new_world
    [⟨.store, 0, [int_key 1, int_key 1], none⟩, ⟨.transform_keys_bang, 0, [], some fun _ => int_key 2⟩] hD hworld ?_
    [⟨.store, 0, [int_key 1, int_key 1], none⟩] _ [] one_world two_world [.value (int_key 1)] (.hash 0) rfl rfl rfl
  refine ⟨⟨fun key hkey => ⟨1, List.mem_singleton.mp hkey⟩, fun h _ =>
    ⟨fun _ hkey => absurd hkey List.not_mem_nil, fun hmethod => absurd hmethod (by decide),
      fun hmethod => absurd hmethod (by decide)⟩⟩, ?_⟩
  intro reply world' hrun
  obtain ⟨-, rfl⟩ := Prod.mk.inj (Option.some.inj hrun)
  refine ⟨⟨fun _ hkey => absurd hkey List.not_mem_nil, fun h hh => ?_⟩, fun _ _ _ => trivial⟩
  obtain rfl := Option.some.inj hh
  refine ⟨fun key hkey => ⟨2, List.mem_singleton.mp hkey⟩, fun _ _ block hblock => ?_, fun hmethod => absurd hmethod (by decide)⟩
  obtain rfl := Option.some.inj hblock
  exact ⟨List.pairwise_singleton _ _, fun _ hmem => absurd hmem List.not_mem_nil⟩

/-- Two keys, and both become nil. -/
theorem transform_keys_bang_repeats :
    ¬ ∀ (calls : List Call) (replies : List Reply) (world : World),
      run_calls plain_setting 9 calls new_world = some (replies, world) →
      ∀ h ∈ world.cells, table.Unique (key_equal_for_mode plain_setting.heap plain_setting.depth h.compare_by_identity)
        h.pairs := by
  intro hall
  have hunique := hall [⟨.store, 0, [int_key 1, int_key 1], none⟩, ⟨.store, 0, [int_key 2, int_key 2], none⟩,
    ⟨.transform_keys_bang, 0, [], some fun _ => nil_key⟩] _ _ rfl _ (List.mem_singleton.mpr rfl)
  exact ((List.pairwise_cons.mp hunique).1 _ List.mem_cons_self).1 rfl

end stoned.hashes
