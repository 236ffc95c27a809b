import Stoned.EnvMirror

namespace stoned.hashes

open stoned.program (Triple Invariant)

/-! The methods on `ENV`, and when they keep the mirror. -/

/-- The hash and the environment mirror each other. -/
def Mirrored (r : Ref) (world : World) : Prop := ∃ h, world.cells[r]? = some h ∧ Mirrors h.pairs world.environ

/-- What a hash and the environment are. -/
def Sees (r : Ref) (h : HashCell) (environ : String → Option String) (world : World) : Prop :=
  world.cells[r]? = some h ∧ world.environ = environ

/-- They mirror each other, and a condition on the hash holds unless it is frozen. -/
def Ready (r : Ref) (C : HashCell → Prop) (world : World) : Prop :=
  ∃ h, world.cells[r]? = some h ∧ Mirrors h.pairs world.environ ∧ (h.frozen = false → C h)

section
variable {heap : KeyHeap} {depth : Nat} {α β : Type} {r : Ref} {key val : HashKey} {h h' : HashCell}
  {environ : String → Option String} {name value : String} {mode : Bool} {pairs : List (HashKey × HashKey)}

/-! ### Hashes in memory -/

theorem Sees.mirrored {world : World} (hsees : Sees r h environ world) (hm : Mirrors h.pairs environ) :
    Mirrored r world := ⟨h, hsees.1, hsees.2 ▸ hm⟩

theorem update_sees {change : HashCell → Option HashCell} :
    Triple (Sees r h environ) (update r change) fun _ world => ∃ h', change h = some h' ∧ Sees r h' environ world := by
  rintro world u world' ⟨hget, henv⟩ hrun
  unfold update at hrun
  simp only [hget] at hrun
  obtain ⟨h', hchange, hpair⟩ := Option.map_eq_some_iff.mp hrun
  obtain ⟨-, rfl⟩ := Prod.mk.inj hpair
  have hlt : r < world.cells.length := (List.getElem?_eq_some_iff.mp hget).1
  exact ⟨h', hchange, by simp [hlt], henv⟩

theorem cell_sees : Triple (Sees r h environ) (cell r) fun found world => found = h ∧ Sees r h environ world := by
  rintro world found world' ⟨hget, henv⟩ hrun
  simp only [cell, hget, Option.map_some] at hrun
  obtain ⟨rfl, rfl⟩ := Prod.mk.inj (Option.some.inj hrun)
  exact ⟨rfl, hget, henv⟩

theorem setenv_sees (hname : IsName name) :
    Triple (Sees r h environ) (setenv name value)
      fun _ => Sees r h fun other => if other = name then some value else environ other := by
  rintro world u world' ⟨hget, rfl⟩ hrun
  simp only [setenv, hname.nonempty, hname.no_equals, Bool.or_false, Bool.false_eq_true, if_false] at hrun
  obtain ⟨-, rfl⟩ := Prod.mk.inj (Option.some.inj hrun)
  exact ⟨hget, rfl⟩

theorem unsetenv_sees (hname : IsName name) :
    Triple (Sees r h environ) (unsetenv name)
      fun _ => Sees r h fun other => if other = name then none else environ other := by
  rintro world u world' ⟨hget, rfl⟩ hrun
  simp only [unsetenv, hname.nonempty, hname.no_equals, Bool.or_false, Bool.false_eq_true, if_false] at hrun
  obtain ⟨-, rfl⟩ := Prod.mk.inj (Option.some.inj hrun)
  exact ⟨hget, rfl⟩

variable {to_s : Value → String}

theorem text_to_s (to_s : Value → String) (hkey : text key = some name) : val_to_s to_s key.value = c_string name := by
  unfold text at hkey
  split at hkey
  · rename_i sval _ _ hvalue
    obtain rfl := Option.some.inj hkey
    simp [val_to_s, hvalue]
  · cases hkey

theorem text_not_nil (hval : text val = some value) : val.value.kind ≠ .nil := by
  unfold text at hval
  split at hval
  · rename_i hvalue
    simp [hvalue, Value.kind]
  · cases hval

theorem sync_pair_sees (hkey : text key = some name) (hname : IsName name) (hval : text val = some value)
    (hvalue : c_string value = value) :
    Triple (Sees r h environ) (sync_process_env_pair r to_s r key val)
      fun _ => Sees r h fun other => if other = name then some value else environ other := by
  have hk := text_to_s to_s hkey
  have hv := text_to_s to_s hval
  rw [hname.no_nul] at hk
  rw [hvalue] at hv
  have henv : ¬ (r ≠ r ∨ (val_to_s to_s key.value).isEmpty = true) := by simp [hk, hname.nonempty]
  rw [sync_process_env_pair, if_neg henv, if_neg (text_not_nil hval), hk, hv]
  exact setenv_sees hname

theorem sync_delete_sees (hkey : text key = some name) (hname : IsName name) :
    Triple (Sees r h environ) (sync_process_env_delete r to_s r key)
      fun _ => Sees r h fun other => if other = name then none else environ other := by
  have hk := text_to_s to_s hkey
  rw [hname.no_nul] at hk
  have henv : ¬ (r ≠ r ∨ (val_to_s to_s key.value).isEmpty = true) := by simp [hk, hname.nonempty]
  rw [sync_process_env_delete, if_neg henv, hk]
  exact unsetenv_sees hname

/-- A name that is empty or has a `=` is not unset. -/
theorem sync_delete_refused (hkey : text key = some name) (hnul : c_string name = name) (hname : ¬ IsName name) :
    Invariant (Sees r h environ) (sync_process_env_delete r to_s r key) := by
  have hk := text_to_s to_s hkey
  rw [hnul] at hk
  unfold sync_process_env_delete
  refine Triple.ite (fun _ => Invariant.pure) fun _ => ?_
  rintro world u world' hsees hrun
  have hrefused : (name.isEmpty || name.toList.contains '=') = true := by
    by_contra hnot
    rw [Bool.not_eq_true, Bool.or_eq_false_iff] at hnot
    exact hname ⟨hnot.1, hnot.2, hnul⟩
  rw [hk] at hrun
  simp only [unsetenv, hrefused, if_true] at hrun
  obtain ⟨-, rfl⟩ := Prod.mk.inj (Option.some.inj hrun)
  exact hsees

theorem unless_frozen_run {world world' : World} {method : HashCell → Run Reply} {reply : Reply}
    (hget : world.cells[r]? = some h) (hrun : unless_frozen r method world = some (reply, world')) :
    world' = world ∨ (h.frozen = false ∧ method h world = some (reply, world')) := by
  simp only [unless_frozen, bind, StateT.bind, cell, hget, Option.map_some, Option.bind_some] at hrun
  cases hf : h.frozen with
  | true =>
    rw [hf] at hrun
    exact .inl (Prod.mk.inj (Option.some.inj hrun)).2.symm
  | false =>
    rw [hf] at hrun
    exact .inr ⟨rfl, hrun⟩

theorem unless_frozen_mirrored {C : HashCell → Prop} {method : HashCell → Run Reply}
    (hmethod : ∀ h environ, h.frozen = false → Mirrors h.pairs environ → C h →
      Triple (Sees r h environ) (method h) fun _ => Mirrored r) :
    Triple (Ready r C) (unless_frozen r method) fun _ => Mirrored r := by
  rintro world reply world' ⟨h, hget, hm, hC⟩ hrun
  obtain rfl | ⟨hf, hrest⟩ := unless_frozen_run hget hrun
  · exact ⟨h, hget, hm⟩
  · exact hmethod h world.environ hf hm (hC hf) world reply world' ⟨hget, rfl⟩ hrest

/-! ### Methods that change the receiver -/

theorem update_mirrored {change : HashCell → HashCell} {reply : Reply} (hm : Mirrors (change h).pairs environ) :
    Triple (Sees r h environ) (do update r fun h => some (change h); return reply) fun _ => Mirrored r := by
  refine Triple.bind update_sees fun _ => Triple.pure ?_
  rintro world ⟨h', hchange, hsees⟩
  obtain rfl := Option.some.inj hchange
  exact hsees.mirrored hm

structure StoreFits (heap : KeyHeap) (depth : Nat) (h : HashCell) (key val : HashKey) : Prop where
  knows : Knows (key_equal_for_mode heap depth h.compare_by_identity) h.pairs key
  name : ∃ name, text key = some name ∧ IsName name
  value : ∃ value, text val = some value ∧ c_string value = value

theorem store_mirrored {args : List HashKey} :
    Triple (Ready r fun h => ∀ key val rest, args = key :: val :: rest → StoreFits heap depth h key val)
      (store heap depth r to_s r args) fun _ => Mirrored r := by
  unfold store
  split
  · rename_i key val rest
    refine unless_frozen_mirrored fun h environ _ hm hfits => ?_
    obtain ⟨hknows, ⟨name, hkey, hname⟩, ⟨value, hval, hvalue⟩⟩ := hfits key val rest rfl
    refine Triple.bind update_sees fun _ => ?_
    rintro world reply world' ⟨h', hchange, hsees⟩ hrun
    obtain ⟨pairs, hset, rfl⟩ := Option.map_eq_some_iff.mp hchange
    have hsync : Triple (Sees r (set_pairs h pairs) environ) (do
        sync_process_env_pair r to_s r key val
        return Reply.value val) fun _ => Mirrored r :=
      Triple.bind (sync_pair_sees hkey hname hval hvalue) fun _ => Triple.pure fun _ hsees =>
        hsees.mirrored (mirrors_set hm hknows hkey hval hset)
    exact hsync world reply world' hsees hrun
  · exact Triple.pure fun world ⟨h, hget, hm, _⟩ => ⟨h, hget, hm⟩

/-- The key is a name, or one that is not stored. -/
structure DeleteFits (heap : KeyHeap) (depth : Nat) (h : HashCell) (key : HashKey) : Prop where
  knows : Knows (key_equal_for_mode heap depth h.compare_by_identity) h.pairs key
  name : ∃ name, text key = some name ∧ c_string name = name ∧
    (IsName name ∨ ∀ pair ∈ h.pairs, text pair.1 ≠ some name)

theorem delete_mirrored {args : List HashKey} {blk : Option Block} :
    Triple (Ready r fun h => ∀ key rest, args = key :: rest → DeleteFits heap depth h key)
      (delete heap depth r to_s r args blk) fun _ => Mirrored r := by
  unfold delete
  split
  · rename_i key rest
    refine unless_frozen_mirrored fun h environ _ hm hfits => ?_
    obtain ⟨hknows, name, hkey, hnul, hname⟩ := hfits key rest rfl
    refine Triple.bind val_hash_get_keeps fun found => ?_
    refine Triple.bind update_sees fun _ => ?_
    refine Triple.bind (Q := fun _ => Mirrored r) ?_ fun _ => ?_
    · rintro world u world' ⟨h', hchange, hsees⟩ hrun
      obtain ⟨pairs, hdelete, rfl⟩ := Option.map_eq_some_iff.mp hchange
      by_cases hvalid : IsName name
      · exact (sync_delete_sees hkey hvalid world u world' hsees hrun).mirrored (mirrors_delete hm hknows hkey hdelete)
      · have habsent := hname.resolve_left hvalid
        have hm' := mirrors_delete hm hknows hkey hdelete
        rw [mirrors_absent hm habsent] at hm'
        exact (sync_delete_refused hkey hnul hvalid world u world' hsees hrun).mirrored hm'
    · split <;> exact Triple.pure fun _ => id
  · exact Triple.pure fun world ⟨h, hget, hm, _⟩ => ⟨h, hget, hm⟩

theorem clear_mirrored : Triple (Ready r fun h => h.pairs = []) (clear r) fun _ => Mirrored r := by
  refine unless_frozen_mirrored fun h environ _ hm hnone => update_mirrored ?_
  rw [hnone] at hm
  exact hm

theorem transform_values_bang_mirrored {blk : Option Block} :
    Triple (Ready r fun h => ∀ block, blk = some block → ∀ pair ∈ h.pairs, text (block [pair.2]) = text pair.2)
      (transform_values_bang r blk) fun _ => Mirrored r := by
  unfold transform_values_bang
  split
  · exact Triple.pure fun world ⟨h, hget, hm, _⟩ => ⟨h, hget, hm⟩
  · rename_i block
    refine unless_frozen_mirrored fun h environ _ hm hsame => update_mirrored ?_
    refine mirrors_same hm ?_
    simp only [set_pairs, List.map_map]
    refine List.map_congr_left fun pair hpair => ?_
    simp [hsame block rfl pair hpair]

theorem transform_keys_bang_mirrored {blk : Option Block} :
    Triple (Ready r fun h => ∀ block, blk = some block → ∀ pair ∈ h.pairs.take 256, text (block [pair.1]) = text pair.1)
      (transform_keys_bang r blk) fun _ => Mirrored r := by
  unfold transform_keys_bang
  split
  · exact Triple.pure fun world ⟨h, hget, hm, _⟩ => ⟨h, hget, hm⟩
  · rename_i block
    refine unless_frozen_mirrored fun h environ _ hm hsame => update_mirrored ?_
    refine mirrors_same hm ?_
    have hfront : ((h.pairs.take 256).map fun pair => (block [pair.1], pair.2)).map
        (fun pair => (text pair.1, text pair.2)) = (h.pairs.take 256).map fun pair => (text pair.1, text pair.2) := by
      rw [List.map_map]
      refine List.map_congr_left fun pair hpair => ?_
      simp [hsame block rfl pair hpair]
    simp only [set_pairs, overwrite_keys]
    rw [List.map_append, hfront, ← List.map_append, List.take_append_drop]

theorem set_default_mirrored {args : List HashKey} :
    Triple (Ready r fun _ => True) (set_default r args) fun _ => Mirrored r := by
  unfold set_default
  split
  · exact Triple.pure fun world ⟨h, hget, hm, _⟩ => ⟨h, hget, hm⟩
  · exact unless_frozen_mirrored fun h environ _ hm _ => update_mirrored hm

theorem set_default_proc_mirrored {args : List HashKey} :
    Triple (Ready r fun _ => True) (set_default_proc r args) fun _ => Mirrored r := by
  unfold set_default_proc
  split
  · exact Triple.pure fun world ⟨h, hget, hm, _⟩ => ⟨h, hget, hm⟩
  · refine unless_frozen_mirrored fun h environ _ hm _ => update_mirrored ?_
    split
    · exact hm
    · split <;> exact hm

theorem rehash_mirrored : Triple (Ready r fun _ => True) (rehash r) fun _ => Mirrored r :=
  unless_frozen_mirrored fun _ _ _ hm _ => Triple.pure fun _ hsees => hsees.mirrored hm

theorem compare_by_identity_mirrored : Triple (Ready r fun _ => True) (compare_by_identity r) fun _ => Mirrored r :=
  unless_frozen_mirrored fun _ _ _ hm _ => update_mirrored hm

/-- No value is nil. -/
theorem compact_bang_mirrored : Triple (Ready r fun _ => True) (compact_bang r) fun _ => Mirrored r := by
  refine unless_frozen_mirrored fun h environ _ hm _ => ?_
  have hall : without_nil h.pairs = h.pairs := by
    refine List.filter_eq_self.mpr fun pair hpair => ?_
    obtain ⟨value, hvalue⟩ := Option.isSome_iff_exists.mp (hm.strings pair hpair).2
    exact decide_eq_true (text_not_nil hvalue)
  refine update_mirrored ?_
  simpa [set_pairs, hall] using hm

/-- The block answers for every pair that it stays. -/
theorem prune_mirrored {keep always : Bool} {fuel : Nat} {blk : Option Block} :
    Triple (Ready r fun h => ∀ block, blk = some block → ∀ pair ∈ h.pairs,
      val_truthy (block [pair.1, pair.2]).value = keep) (prune heap depth keep always fuel r blk)
      fun _ => Mirrored r := by
  unfold prune
  split
  · exact Triple.pure fun world ⟨h, hget, hm, _⟩ => ⟨h, hget, hm⟩
  · rename_i block
    refine unless_frozen_mirrored fun h environ _ hm hkeep => ?_
    have hloop : ∀ fuel i changed,
        Invariant (Sees r h environ) (prune_each heap depth r block keep fuel i changed) := by
      intro fuel
      induction fuel with
      | zero => exact fun _ _ => Triple.never
      | succ fuel ih =>
        intro i changed
        refine Triple.bind cell_sees fun found => ?_
        rintro world result world' ⟨rfl, hsees⟩ hrun
        cases hpair : found.pairs[i]? with
        | none =>
          simp only [hpair] at hrun
          obtain ⟨-, rfl⟩ := Prod.mk.inj (Option.some.inj hrun)
          exact hsees
        | some pair =>
          simp only [hpair, if_pos (hkeep block rfl pair (List.mem_of_getElem? hpair))] at hrun
          exact ih (i + 1) changed world result world' hsees hrun
    exact Triple.bind (hloop fuel 0 false) fun _ => Triple.pure fun _ hsees => hsees.mirrored hm

/-! ### merge! -/

/-- The pair is stored already, and a block would not change its value. -/
structure Kept (heap : KeyHeap) (depth : Nat) (h : HashCell) (blk : Option Block) (key val : HashKey) : Prop where
  knows : Knows (key_equal_for_mode heap depth h.compare_by_identity) h.pairs key
  stored : ∃ pair ∈ h.pairs, text pair.1 = text key ∧
    match blk with
    | some block => ∀ old val', text old = text pair.2 → text val' = text val →
      text (block [key, old, val']) = text pair.2
    | none => text val = text pair.2

/-- The same keys and the same texts of values. -/
structure SameTexts (h h' : HashCell) : Prop where
  pairs : h'.pairs.map (fun pair => (pair.1, text pair.2)) = h.pairs.map fun pair => (pair.1, text pair.2)
  mode : h'.compare_by_identity = h.compare_by_identity

theorem SameTexts.mirrors (hsame : SameTexts h h') (hm : Mirrors h.pairs environ) : Mirrors h'.pairs environ := by
  refine mirrors_same hm ?_
  have htexts := congrArg (List.map fun pair : HashKey × Option String => (text pair.1, pair.2)) hsame.pairs
  simpa [Function.comp_def] using htexts

theorem SameTexts.mem (hsame : SameTexts h h') {pair : HashKey × HashKey} (hmem : pair ∈ h.pairs) :
    ∃ val, (pair.1, val) ∈ h'.pairs ∧ text val = text pair.2 := by
  have hpair := List.mem_map_of_mem (f := fun pair : HashKey × HashKey => (pair.1, text pair.2)) hmem
  rw [← hsame.pairs] at hpair
  obtain ⟨other, hother, heq⟩ := List.mem_map.mp hpair
  obtain ⟨hfirst, hsecond⟩ := Prod.mk.inj heq
  exact ⟨other.2, hfirst ▸ hother, hsecond⟩

theorem SameTexts.symm (hsame : SameTexts h h') : SameTexts h' h := ⟨hsame.pairs.symm, hsame.mode.symm⟩

theorem SameTexts.trans {h'' : HashCell} (hsame : SameTexts h h') (hsame' : SameTexts h' h'') : SameTexts h h'' :=
  ⟨hsame'.pairs.trans hsame.pairs, hsame'.mode.trans hsame.mode⟩

theorem SameTexts.knows (hsame : SameTexts h h') {eq : HashKey → HashKey → Option Bool}
    (hknows : Knows eq h.pairs key) :
    Knows eq h'.pairs key := by
  intro pair hpair
  obtain ⟨val, hmem, -⟩ := hsame.symm.mem hpair
  exact hknows (pair.1, val) hmem

/-- What is stored under a name has one text. -/
theorem Mirrors.value_unique (hm : Mirrors pairs environ) {p q : HashKey × HashKey} (hp : p ∈ pairs) (hq : q ∈ pairs)
    (hname : text p.1 = text q.1) : text p.2 = text q.2 := by
  obtain ⟨name, hp₁⟩ := Option.isSome_iff_exists.mp (hm.strings p hp).1
  obtain ⟨value, hp₂⟩ := Option.isSome_iff_exists.mp (hm.strings p hp).2
  obtain ⟨value', hq₂⟩ := Option.isSome_iff_exists.mp (hm.strings q hq).2
  have hset := (hm.set name value).mpr ⟨p, hp, hp₁, hp₂⟩
  have hset' := (hm.set name value').mpr ⟨q, hq, hname.symm.trans hp₁, hq₂⟩
  rw [hset] at hset'
  rw [hp₂, hq₂, hset']

/-- Setting a stored key to a value of the same text. -/
theorem set_same_text (hm : Mirrors h.pairs environ)
    (hknows : Knows (key_equal_for_mode heap depth h.compare_by_identity) h.pairs key) {pair : HashKey × HashKey}
    (hpair : pair ∈ h.pairs) (hname : text pair.1 = text key) (hval : text val = text pair.2)
    {pairs : List (HashKey × HashKey)}
    (hset : table.set (key_equal_for_mode heap depth h.compare_by_identity) key val h.pairs = some pairs) :
    SameTexts h (set_pairs h pairs) := by
  refine ⟨?_, rfl⟩
  obtain ⟨habsent, -⟩ | ⟨before, stored, old, after, heq, rfl, -, hfound⟩ := table.set_cases hset
  · exact absurd ((hknows pair hpair false (habsent pair hpair)).mpr hname) Bool.false_ne_true
  · have hmem : (stored, old) ∈ h.pairs := by simp [heq]
    have hsame : text stored = text key := (hknows _ hmem true hfound).mp rfl
    have hold := hm.value_unique hmem hpair (hsame.trans hname.symm)
    rw [heq]
    simp [set_pairs, hval, ← hold]

/-- The receiver has the texts it had, and the other hashes are as they were. -/
def Merging (r : Ref) (h : HashCell) (environ : String → Option String) (world₀ world : World) : Prop :=
  (∃ h', Sees r h' environ world ∧ SameTexts h h') ∧ ∀ other ≠ r, world.cells[other]? = world₀.cells[other]?

theorem merge_pair_keeps {world₀ : World} {blk : Option Block} (hm : Mirrors h.pairs environ)
    {val₁ : HashKey} (hval₁ : text val₁ = text val) (hkept : Kept heap depth h blk key val) :
    Invariant (Merging r h environ world₀) (do
      let existing ← existing_value heap depth r key blk
      val_hash_set heap depth r key (resolved blk key val₁ existing)) := by
  rintro world u world' ⟨⟨h', hsees, hsame⟩, hothers⟩ hrun
  obtain ⟨pair, hpair, hname, hval⟩ := hkept.stored
  obtain ⟨val', hmem', htext'⟩ := hsame.mem hpair
  have hm' := hsame.mirrors hm
  have hknows' : Knows (key_equal_for_mode heap depth h'.compare_by_identity) h'.pairs key := by
    rw [hsame.mode]
    exact hsame.knows hkept.knows
  obtain ⟨existing, world₁, hexisting, hset⟩ := stoned.program.state_bind_some.mp hrun
  -- whatever is found, the text stays
  have htext : text (resolved blk key val₁ existing) = text pair.2 ∧ world₁ = world := by
    cases blk with
    | none =>
      obtain ⟨rfl, rfl⟩ := Prod.mk.inj (Option.some.inj hexisting)
      exact ⟨hval₁.trans hval, rfl⟩
    | some block =>
      simp only [existing_value, val_hash_get, hsees.1] at hexisting
      obtain ⟨found, hget, hpair'⟩ := Option.map_eq_some_iff.mp hexisting
      obtain ⟨rfl, rfl⟩ := Prod.mk.inj hpair'
      refine ⟨?_, rfl⟩
      cases found with
      | none =>
        have habsent := table.absent_of_get hget (pair.1, val') hmem'
        exact absurd ((hknows' (pair.1, val') hmem' false habsent).mpr hname) Bool.false_ne_true
      | some old =>
        obtain ⟨stored, hstored, hequal⟩ := table.mem_of_get hget
        have hfirst : text stored = text key := (hknows' (stored, old) hstored true hequal).mp rfl
        have hold := hm'.value_unique hstored hmem' (hfirst.trans hname.symm)
        exact hval old val₁ (hold.trans htext') hval₁
  obtain ⟨htext, rfl⟩ := htext
  obtain ⟨hcells, henv⟩ := hsees
  unfold val_hash_set update at hset
  simp only [hcells] at hset
  obtain ⟨h'', hchange, hpair'⟩ := Option.map_eq_some_iff.mp hset
  obtain ⟨-, rfl⟩ := Prod.mk.inj hpair'
  obtain ⟨pairs, hpairs, rfl⟩ := Option.map_eq_some_iff.mp hchange
  have hlt : r < world₁.cells.length := (List.getElem?_eq_some_iff.mp hcells).1
  have hstep := set_same_text hm' hknows' hmem' hname (htext.trans htext'.symm) hpairs
  refine ⟨⟨set_pairs h' pairs, ⟨by simp [hlt], henv⟩, hsame.trans hstep⟩, fun other hother => ?_⟩
  simp only [List.getElem?_set_ne hother.symm]
  exact hothers other hother

/-- The other hash may be the receiver. -/
theorem merge_each_keeps {world₀ : World} {blk : Option Block} {other : Ref} {fuel j : Nat}
    (hm : Mirrors h.pairs environ) (hget : world₀.cells[r]? = some h)
    (hkept : ∀ o, world₀.cells[other]? = some o → ∀ pair ∈ o.pairs, Kept heap depth h blk pair.1 pair.2) :
    Invariant (Merging r h environ world₀) (merge_each heap depth r other blk fuel j) := by
  induction fuel generalizing j with
  | zero => exact Triple.never
  | succ fuel ih =>
    refine Triple.bind cell_triple fun o => ?_
    split
    · exact Triple.pure fun _ hw => hw.1
    · rename_i key val₁ hpair
      rw [← bind_assoc]
      rintro world u world' ⟨hmerging, ho⟩ hrun
      obtain ⟨val, hval₁, hpairkept⟩ : ∃ val, text val₁ = text val ∧ Kept heap depth h blk key val := by
        have hmem := List.mem_of_getElem? hpair
        by_cases hself : other = r
        · obtain ⟨h', hsees, hsame⟩ := hmerging.1
          rw [hself, hsees.1] at ho
          obtain rfl := Option.some.inj ho
          obtain ⟨val, hval, htext⟩ := hsame.symm.mem hmem
          exact ⟨val, htext.symm, hkept h (hself ▸ hget) (key, val) hval⟩
        · rw [hmerging.2 other hself] at ho
          exact ⟨val₁, rfl, hkept o ho (key, val₁) hmem⟩
      exact Invariant.bind (merge_pair_keeps hm hval₁ hpairkept) (fun _ => ih) world u world' hmerging hrun

theorem merge_bang_mirrored {fuel : Nat} {args : List HashKey} {blk : Option Block} :
    Triple (fun world₀ => ∃ h, world₀.cells[r]? = some h ∧ Mirrors h.pairs world₀.environ ∧ (h.frozen = false →
        ∀ arg ∈ args, ∀ other o, arg.value = .hash other → world₀.cells[other]? = some o →
          ∀ pair ∈ o.pairs, Kept heap depth h blk pair.1 pair.2))
      (merge_bang heap depth fuel r args blk) fun _ => Mirrored r := by
  rintro world₀ reply world' ⟨h, hget, hm, hkept⟩ hrun
  have hall : ∀ args : List HashKey, (∀ arg ∈ args, ∀ other o, arg.value = .hash other →
      world₀.cells[other]? = some o → ∀ pair ∈ o.pairs, Kept heap depth h blk pair.1 pair.2) →
      Invariant (Merging r h world₀.environ world₀) (merge_all heap depth fuel r blk args) := by
    intro args hkept
    induction args with
    | nil => exact Invariant.pure
    | cons arg args ih =>
      unfold merge_all
      split
      · rename_i other hother
        refine Invariant.bind (merge_each_keeps hm hget ?_) fun _ => ?_
        · exact fun o ho => hkept arg List.mem_cons_self other o hother ho
        · exact ih fun arg harg => hkept arg (List.mem_cons_of_mem _ harg)
      · exact Invariant.pure
  obtain rfl | ⟨hf, hrest⟩ := unless_frozen_run hget hrun
  · exact ⟨h, hget, hm⟩
  · have hsees : Sees r h world₀.environ world₀ := ⟨hget, rfl⟩
    obtain ⟨⟨h', hsees', hsame'⟩, -⟩ := hall args (hkept hf) world₀ reply world'
      ⟨⟨h, hsees, rfl, rfl⟩, fun _ _ => rfl⟩ hrest
    exact hsees'.mirrored (hsame'.mirrors hm)

/-! ### replace -/

/-- The pairs of the other hash are strings under different names, and no name of
the receiver is missing. -/
structure Replaces (heap : KeyHeap) (depth : Nat) (h o : HashCell) : Prop where
  texts : ∀ pair ∈ o.pairs, (∃ name, text pair.1 = some name ∧ IsName name) ∧
    ∃ value, text pair.2 = some value ∧ c_string value = value
  distinct : o.pairs.Pairwise fun p q => text p.1 ≠ text q.1 ∧
    ∀ same, key_equal_for_mode heap depth o.compare_by_identity p.1 q.1 = some same → same = false
  names : ∀ pair ∈ h.pairs, ∃ other ∈ o.pairs, text other.1 = text pair.1

/-- The environment after some pairs were written. -/
def written (environ : String → Option String) : List (HashKey × HashKey) → String → Option String
  | [] => environ
  | (key, val) :: pairs => written (fun other => if text key = some other then text val else environ other) pairs

theorem written_iff (htexts : ∀ pair ∈ pairs, (text pair.1).isSome ∧ (text pair.2).isSome)
    (hdistinct : pairs.Pairwise fun p q => text p.1 ≠ text q.1) (name value : String) :
    written environ pairs name = some value ↔ (∃ pair ∈ pairs, text pair.1 = some name ∧ text pair.2 = some value) ∨
      (∀ pair ∈ pairs, text pair.1 ≠ some name) ∧ environ name = some value := by
  induction pairs generalizing environ with
  | nil => simp [written]
  | cons pair pairs ih =>
    obtain ⟨key, val⟩ := pair
    obtain ⟨hhead, hrest⟩ := List.pairwise_cons.mp hdistinct
    rw [written, ih (fun other hother => htexts other (List.mem_cons_of_mem _ hother)) hrest]
    by_cases hname : text key = some name
    · have hothers : ∀ other ∈ pairs, text other.1 ≠ some name := fun other hother hsame =>
        hhead other hother (hname.trans hsame.symm)
      have hnone : ¬ ∃ pair ∈ pairs, text pair.1 = some name ∧ text pair.2 = some value :=
        fun ⟨other, hother, hfirst, _⟩ => hothers other hother hfirst
      simp only [List.mem_cons, exists_eq_or_imp, forall_eq_or_imp, hname]
      tauto
    · simp [hname]

theorem replace_each_sees (done : List (HashKey × HashKey)) (environ : String → Option String) (c : HashCell)
    (htexts : ∀ pair ∈ pairs, (∃ name, text pair.1 = some name ∧ IsName name) ∧
      ∃ value, text pair.2 = some value ∧ c_string value = value)
    (hdistinct : (done ++ pairs).Pairwise fun p q => text p.1 ≠ text q.1 ∧
      ∀ same, key_equal_for_mode heap depth c.compare_by_identity p.1 q.1 = some same → same = false) :
    Triple (Sees r (set_pairs c done) environ) (replace_each heap depth r to_s r pairs)
      fun _ => Sees r (set_pairs c (done ++ pairs)) (written environ pairs) := by
  induction pairs generalizing done environ with
  | nil =>
    rw [List.append_nil]
    exact Triple.pure fun _ => id
  | cons pair pairs ih =>
    obtain ⟨key, val⟩ := pair
    obtain ⟨⟨name, hkey, hname⟩, value, hval, hvalue⟩ := htexts _ List.mem_cons_self
    have hsplit : done ++ (key, val) :: pairs = done ++ [(key, val)] ++ pairs := by simp
    refine Triple.bind update_sees fun _ => ?_
    rintro world u world' ⟨h', hchange, hsees⟩ hrun
    obtain ⟨pairs', hset, rfl⟩ := Option.map_eq_some_iff.mp hchange
    -- no key of those before is this one
    have hpairs' : pairs' = done ++ [(key, val)] := by
      obtain ⟨-, rfl⟩ | ⟨before, stored, old, after, heq, -, -, hfound⟩ := table.set_cases hset
      · rfl
      · have hmem : (stored, old) ∈ done := by
          change done = _ at heq
          simp [heq]
        have hdiffer := (List.pairwise_append.mp hdistinct).2.2 _ hmem (key, val) List.mem_cons_self
        exact absurd (hdiffer.2 true hfound) (by decide)
    subst hpairs'
    rw [hsplit] at hdistinct ⊢
    have hrest := ih (done ++ [(key, val)]) (fun other => if text key = some other then text val else environ other)
      (fun other hother => htexts other (List.mem_cons_of_mem _ hother)) hdistinct
    have hsync : Triple (Sees r (set_pairs c (done ++ [(key, val)])) environ) (sync_process_env_pair r to_s r key val)
        fun _ => Sees r _ fun other => if other = name then some value else environ other :=
      sync_pair_sees hkey hname hval hvalue
    have henv : (fun other => if other = name then some value else environ other) =
        fun other => if text key = some other then text val else environ other := by
      funext other
      simp only [hkey, hval, Option.some.injEq, eq_comm]
    rw [henv] at hsync
    exact Triple.bind hsync (fun _ => hrest) world u world' hsees hrun

theorem replaced_mirrors {o : HashCell} (hm : Mirrors h.pairs environ) (hfits : Replaces heap depth h o) :
    Mirrors o.pairs (written environ o.pairs) := by
  have hstrings : ∀ pair ∈ o.pairs, (text pair.1).isSome ∧ (text pair.2).isSome := by
    intro pair hpair
    obtain ⟨⟨name, hname, -⟩, value, hvalue, -⟩ := hfits.texts pair hpair
    simp [hname, hvalue]
  have hdistinct : o.pairs.Pairwise fun p q => text p.1 ≠ text q.1 := hfits.distinct.imp fun h => h.1
  refine ⟨hstrings, hdistinct, fun name value => ?_⟩
  rw [written_iff hstrings hdistinct]
  constructor
  · rintro (hfound | ⟨habsent, hset⟩)
    · exact hfound
    · obtain ⟨pair, hpair, hname, -⟩ := (hm.set name value).mp hset
      obtain ⟨other, hother, hsame⟩ := hfits.names pair hpair
      exact absurd (hsame.trans hname) (habsent other hother)
  · exact .inl

theorem replace_mirrored {args : List HashKey} :
    Triple (fun world₀ => ∃ h, world₀.cells[r]? = some h ∧ Mirrors h.pairs world₀.environ ∧ (h.frozen = false →
        ∀ arg rest other o, args = arg :: rest → arg.value = .hash other → other ≠ r →
          world₀.cells[other]? = some o → Replaces heap depth h o))
      (replace heap depth r to_s r args) fun _ => Mirrored r := by
  rintro world₀ reply world' ⟨h, hget, hm, hreplaces⟩ hrun
  have hdone : Mirrored r world₀ := ⟨h, hget, hm⟩
  unfold replace at hrun
  split at hrun
  · obtain ⟨-, rfl⟩ := Prod.mk.inj (Option.some.inj hrun)
    exact hdone
  · rename_i arg rest
    obtain rfl | ⟨hf, hrest⟩ := unless_frozen_run hget hrun
    · exact hdone
    by_cases hhash : ∃ other, arg.value = .hash other
    · obtain ⟨other, hother⟩ := hhash
      simp only [replace_with, hother] at hrest
      split at hrest
      · obtain ⟨-, rfl⟩ := Prod.mk.inj (Option.some.inj hrest)
        exact hdone
      · rename_i hne
        obtain ⟨o, world₁, hcell, hrest⟩ := stoned.program.state_bind_some.mp hrest
        obtain ⟨o', ho, hpair⟩ := Option.map_eq_some_iff.mp hcell
        obtain ⟨rfl, rfl⟩ := Prod.mk.inj hpair
        have hfits := hreplaces hf arg rest other o' rfl hother hne ho
        have hloop : Triple (Sees r h world₀.environ) (do
            update r fun h => some { o' with pairs := [], frozen := h.frozen }
            replace_each heap depth r to_s r o'.pairs
            return Reply.hash r) fun _ => Mirrored r := by
          refine Triple.bind update_sees fun _ => ?_
          rintro world u world' ⟨h', hchange, hsees⟩ hrun
          obtain rfl := Option.some.inj hchange
          have heach : Triple (Sees r { o' with pairs := [], frozen := h.frozen } world₀.environ)
              (replace_each heap depth r to_s r o'.pairs) fun _ =>
                Sees r (set_pairs { o' with frozen := h.frozen } ([] ++ o'.pairs)) (written world₀.environ o'.pairs) :=
            replace_each_sees [] world₀.environ { o' with frozen := h.frozen } hfits.texts hfits.distinct
          have hmirrors : Mirrors o'.pairs (written world₀.environ o'.pairs) := replaced_mirrors hm hfits
          have hall : Triple (Sees r { o' with pairs := [], frozen := h.frozen } world₀.environ) (do
              replace_each heap depth r to_s r o'.pairs
              return Reply.hash r) fun _ => Mirrored r :=
            Triple.bind heach fun _ => Triple.pure fun world hsees => hsees.mirrored hmirrors
          exact hall world u world' hsees hrun
        exact hloop world₀ reply world' ⟨hget, rfl⟩ hrest
    · have hraised : replace_with heap depth r to_s r arg =
          pure (.raised "TypeError" "no implicit conversion into Hash") := by
        unfold replace_with
        split
        · exact absurd ⟨_, ‹_›⟩ hhash
        · rfl
      rw [hraised] at hrest
      obtain ⟨-, rfl⟩ := Prod.mk.inj (Option.some.inj hrest)
      exact hdone

/-! ### Methods that make a hash -/

/-- A computation that at most adds hashes and arrays. -/
def Appends (p : Run α) : Prop :=
  ∀ world a world', p world = some (a, world') →
    world'.environ = world.environ ∧ ∃ more, world'.cells = world.cells ++ more

theorem Appends.pure (a : α) : Appends (pure a : Run α) := by
  intro world b world' hrun
  obtain ⟨-, rfl⟩ := Prod.mk.inj (Option.some.inj hrun)
  exact ⟨rfl, [], (List.append_nil _).symm⟩

theorem Appends.bind {p : Run α} {f : α → Run β} (hp : Appends p) (hf : ∀ a, Appends (f a)) : Appends (p >>= f) := by
  intro world b world' hrun
  obtain ⟨a, world₁, hfirst, hrest⟩ := stoned.program.state_bind_some.mp hrun
  obtain ⟨henv, more, hcells⟩ := hp world a world₁ hfirst
  obtain ⟨henv', more', hcells'⟩ := hf a world₁ b world' hrest
  exact ⟨henv'.trans henv, more ++ more', by rw [hcells', hcells, List.append_assoc]⟩

theorem Appends.lift {o : Option α} : Appends (StateT.lift o : Run α) := by
  intro world a world' hrun
  obtain ⟨b, -, hpair⟩ := Option.bind_eq_some_iff.mp hrun
  obtain ⟨-, rfl⟩ := Prod.mk.inj (Option.some.inj hpair)
  exact ⟨rfl, [], (List.append_nil _).symm⟩

theorem appends_cell : Appends (cell r) := by
  intro world found world' hrun
  obtain ⟨found', -, hpair⟩ := Option.map_eq_some_iff.mp hrun
  obtain ⟨-, rfl⟩ := Prod.mk.inj hpair
  exact ⟨rfl, [], (List.append_nil _).symm⟩

theorem appends_hash_new : Appends (val_hash_new h) := by
  intro world r world' hrun
  obtain ⟨-, rfl⟩ := Prod.mk.inj (Option.some.inj hrun)
  exact ⟨rfl, [h], rfl⟩

theorem appends_array_new : Appends val_array_new := by
  intro world v world' hrun
  obtain ⟨-, rfl⟩ := Prod.mk.inj (Option.some.inj hrun)
  exact ⟨rfl, [], (List.append_nil _).symm⟩

theorem Appends.mirrored {p : Run α} (hp : Appends p) : Invariant (Mirrored r) p := by
  rintro world a world' ⟨h, hget, hm⟩ hrun
  obtain ⟨henv, more, hcells⟩ := hp world a world' hrun
  refine ⟨h, ?_, henv ▸ hm⟩
  rw [hcells, List.getElem?_append_left (List.getElem?_eq_some_iff.mp hget).1, hget]

theorem appends_make {default_value default_proc : HashKey} {sets : List (HashKey × HashKey)} :
    Appends (make heap depth mode default_value default_proc sets) :=
  Appends.lift.bind fun _ => appends_hash_new.bind fun _ => .pure _

theorem appends_merge_args {blk : Option Block} {args : List HashKey} :
    Appends (merge_args heap depth mode blk pairs args) := by
  induction args generalizing pairs with
  | nil => exact .pure _
  | cons arg args ih =>
    unfold merge_args
    split
    · exact appends_cell.bind fun _ => Appends.lift.bind fun _ => ih
    · exact .pure _

theorem appends_merge {args : List HashKey} {blk : Option Block} : Appends (merge heap depth r args blk) := by
  refine appends_cell.bind fun _ => Appends.lift.bind fun _ => appends_merge_args.bind fun result => ?_
  split
  · exact .pure _
  · exact appends_hash_new.bind fun _ => .pure _

theorem appends_with_block {blk : Option Block} {method : HashCell → Block → Run Reply}
    (hmethod : ∀ h block, Appends (method h block)) : Appends (with_block r blk method) := by
  cases blk with
  | none => exact .pure _
  | some block => exact appends_cell.bind fun h => hmethod h block

theorem appends_group_each {block : Block} {groups : List (HashKey × HashKey)} :
    Appends (group_each heap depth block groups pairs) := by
  induction pairs generalizing groups with
  | nil => exact .pure _
  | cons pair pairs ih =>
    refine Appends.lift.bind fun found => Appends.bind ?_ fun group => Appends.lift.bind fun _ => ih
    cases found with
    | none => exact appends_array_new
    | some group => exact .pure _

theorem appends_to_h {elems : HashKey → List HashKey} {blk : Option Block} :
    Appends (to_h heap depth elems r blk) := by
  unfold to_h
  split
  · exact .pure _
  · exact appends_cell.bind fun _ => appends_make

end

/-! ### Runs -/

section
variable (s : Setting) (fuel : Nat)

/-- When a method keeps the mirror, for an `ENV` that is not frozen. What a method
does beyond setting and deleting keys does not reach the environment, except the
pairs `replace` sets. -/
def KeepsMirror (world : World) (call : Call) (h : HashCell) : Prop :=
  match call.method with
  | .store => ∀ key val rest, call.args = key :: val :: rest → StoreFits s.heap s.depth h key val
  | .delete => ∀ key rest, call.args = key :: rest → DeleteFits s.heap s.depth h key
  | .merge_bang => ∀ arg ∈ call.args, ∀ other o, arg.value = .hash other → world.cells[other]? = some o →
    ∀ pair ∈ o.pairs, Kept s.heap s.depth h call.blk pair.1 pair.2
  | .select_bang | .keep_if => ∀ block, call.blk = some block → ∀ pair ∈ h.pairs,
    val_truthy (block [pair.1, pair.2]).value = true
  | .reject_bang | .delete_if => ∀ block, call.blk = some block → ∀ pair ∈ h.pairs,
    val_truthy (block [pair.1, pair.2]).value = false
  | .clear => h.pairs = []
  | .transform_values_bang => ∀ block, call.blk = some block → ∀ pair ∈ h.pairs, text (block [pair.2]) = text pair.2
  | .transform_keys_bang => ∀ block, call.blk = some block → ∀ pair ∈ h.pairs.take 256,
    text (block [pair.1]) = text pair.1
  | .replace => ∀ arg rest other o, call.args = arg :: rest → arg.value = .hash other → other ≠ s.env_hash →
    world.cells[other]? = some o → Replaces s.heap s.depth h o
  | _ => True

/-- Every call of a sequence is one on `ENV` and keeps the mirror where it is made. -/
def MirrorCalls (world : World) : List Call → Prop
  | [] => True
  | call :: calls => call.recv = s.env_hash ∧
    (∀ h, world.cells[s.env_hash]? = some h → h.frozen = false → KeepsMirror s world call h) ∧
    ∀ reply world', dispatch_hash s fuel call world = some (reply, world') → MirrorCalls world' calls

variable {s fuel} {world world' : World} {call : Call} {reply : Reply}

theorem dispatch_mirrored (hm : Mirrored s.env_hash world) (hrecv : call.recv = s.env_hash)
    (hkeeps : ∀ h, world.cells[s.env_hash]? = some h → h.frozen = false → KeepsMirror s world call h)
    (hrun : dispatch_hash s fuel call world = some (reply, world')) : Mirrored s.env_hash world' := by
  obtain ⟨method, r, args, blk⟩ := call
  simp only at hrecv
  subst hrecv
  obtain ⟨h, hget, hpairs⟩ := hm
  have hfits := hkeeps h hget
  have hm : Mirrored s.env_hash world := ⟨h, hget, hpairs⟩
  have hready : Ready s.env_hash (fun _ => True) world := ⟨h, hget, hpairs, fun _ => trivial⟩
  cases method with
  | store => exact store_mirrored world reply world' ⟨h, hget, hpairs, hfits⟩ hrun
  | delete => exact delete_mirrored world reply world' ⟨h, hget, hpairs, hfits⟩ hrun
  | merge_bang => exact merge_bang_mirrored world reply world' ⟨h, hget, hpairs, hfits⟩ hrun
  | select_bang => exact prune_mirrored world reply world' ⟨h, hget, hpairs, hfits⟩ hrun
  | keep_if => exact prune_mirrored world reply world' ⟨h, hget, hpairs, hfits⟩ hrun
  | reject_bang => exact prune_mirrored world reply world' ⟨h, hget, hpairs, hfits⟩ hrun
  | delete_if => exact prune_mirrored world reply world' ⟨h, hget, hpairs, hfits⟩ hrun
  | clear => exact clear_mirrored world reply world' ⟨h, hget, hpairs, hfits⟩ hrun
  | transform_values_bang => exact transform_values_bang_mirrored world reply world' ⟨h, hget, hpairs, hfits⟩ hrun
  | transform_keys_bang => exact transform_keys_bang_mirrored world reply world' ⟨h, hget, hpairs, hfits⟩ hrun
  | set_default => exact set_default_mirrored world reply world' hready hrun
  | set_default_proc => exact set_default_proc_mirrored world reply world' hready hrun
  | rehash => exact rehash_mirrored world reply world' hready hrun
  | compare_by_identity => exact compare_by_identity_mirrored world reply world' hready hrun
  | compact_bang => exact compact_bang_mirrored world reply world' hready hrun
  | replace =>
    refine replace_mirrored world reply world' ⟨h, hget, hpairs, fun hf arg rest other o hargs => ?_⟩ hrun
    exact hfits hf arg rest other o hargs
  | merge => exact appends_merge.mirrored world reply world' hm hrun
  | select => exact (appends_with_block fun _ _ => appends_make).mirrored world reply world' hm hrun
  | reject => exact (appends_with_block fun _ _ => appends_make).mirrored world reply world' hm hrun
  | dup => exact (appends_cell.bind fun _ => appends_make).mirrored world reply world' hm hrun
  | transform_values => exact (appends_with_block fun _ _ => appends_make).mirrored world reply world' hm hrun
  | transform_keys => exact (appends_with_block fun _ _ => appends_make).mirrored world reply world' hm hrun
  | compact => exact (appends_cell.bind fun _ => appends_make).mirrored world reply world' hm hrun
  | invert => exact (appends_cell.bind fun _ => appends_make).mirrored world reply world' hm hrun
  | slice =>
    exact (appends_cell.bind fun _ => Appends.lift.bind fun _ => appends_make).mirrored world reply world' hm hrun
  | except =>
    exact (appends_cell.bind fun _ => Appends.lift.bind fun _ => appends_make).mirrored world reply world' hm hrun
  | to_h => exact appends_to_h.mirrored world reply world' hm hrun
  | group_by =>
    refine (appends_with_block fun _ _ => appends_group_each.bind fun _ => ?_).mirrored world reply world' hm hrun
    exact appends_hash_new.bind fun _ => .pure _

end

def string_key (text : String) : HashKey := { value := val_string text, address := 0 }

def env_setting : Setting where
  heap := { arrays := [], hashes := [] }
  depth := 1
  env_hash := 0
  to_s := fun _ => ""
  elems := fun _ => []

/-- `ENV` and the environment with one name. -/
def one_name : World where
  cells := [{ pairs := [(string_key "A", string_key "1")], compare_by_identity := false, default_value := nil_key,
              default_proc := nil_key, frozen := false }]
  arrays := 0
  environ := fun name => if name = "A" then some "1" else none

theorem one_name_mirrored : Mirrored 0 one_name := by
  refine ⟨_, rfl, ?_, List.pairwise_singleton _ _, ?_⟩
  · intro pair hpair
    obtain rfl := List.mem_singleton.mp hpair
    exact ⟨rfl, rfl⟩
  · intro name value
    simp only [one_name, List.mem_singleton, exists_eq_left, text, string_key, val_string, Option.some.injEq]
    split <;> simp_all [eq_comm]

end stoned.hashes
