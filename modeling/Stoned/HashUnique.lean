import Stoned.Hashes
import Stoned.Program.Triple

namespace stoned.hashes

open stoned.program (Triple Invariant)

/-! No two keys of a hash are equal. -/

/-- Keys that compare the same both ways round. -/
def Mutual (heap : KeyHeap) (depth : Nat) (D : HashKey → Prop) : Prop :=
  ∀ mode a b, D a → D b → key_equal_for_mode heap depth mode a b = some true →
    key_equal_for_mode heap depth mode b a = some true

/-- The keys are of a domain and pairwise different. -/
structure Tidy (heap : KeyHeap) (depth : Nat) (D : HashKey → Prop) (h : HashCell) : Prop where
  unique : table.Unique (key_equal_for_mode heap depth h.compare_by_identity) h.pairs
  within : ∀ pair ∈ h.pairs, D pair.1

/-- All hashes are tidy. -/
def AllTidy (heap : KeyHeap) (depth : Nat) (D : HashKey → Prop) (world : World) : Prop :=
  ∀ h ∈ world.cells, Tidy heap depth D h

section
variable {heap : KeyHeap} {depth : Nat} {D : HashKey → Prop} {α : Type} {r : Ref} {key val : HashKey}
  {pairs pairs' : List (HashKey × HashKey)} {mode : Bool} {h : HashCell}

/-! ### Hashes in memory -/

/-- What is known of a hash once it is read. -/
theorem cell_triple {P : World → Prop} :
    Triple P (cell r) fun h world => P world ∧ world.cells[r]? = some h := by
  intro world h world' hw hrun
  obtain ⟨h', hget, hpair⟩ := Option.map_eq_some_iff.mp hrun
  obtain ⟨rfl, rfl⟩ := Prod.mk.inj hpair
  exact ⟨hw, hget⟩

theorem update_run {world world' : World} {change : HashCell → Option HashCell} {u : Unit}
    (hrun : update r change world = some (u, world')) :
    ∃ h h', world.cells[r]? = some h ∧ change h = some h' ∧ world' = { world with cells := world.cells.set r h' } := by
  unfold update at hrun
  split at hrun
  · rename_i h hget
    obtain ⟨h', hchange, hpair⟩ := Option.map_eq_some_iff.mp hrun
    exact ⟨h, h', hget, hchange, (Prod.mk.inj hpair).2.symm⟩
  · cases hrun

/-- A change keeps the hashes tidy where it keeps the one tidy that it changes. -/
theorem update_tidy {P : World → Prop} {change : HashCell → Option HashCell}
    (hchange : ∀ world h h', P world → world.cells[r]? = some h → Tidy heap depth D h → change h = some h' →
      Tidy heap depth D h') :
    Triple (fun world => AllTidy heap depth D world ∧ P world) (update r change) fun _ => AllTidy heap depth D := by
  rintro world u world' ⟨hall, hp⟩ hrun
  obtain ⟨h, h', hget, hh', rfl⟩ := update_run hrun
  intro c hc
  obtain hc | rfl := List.mem_or_eq_of_mem_set hc
  · exact hall c hc
  · exact hchange world h _ hp hget (hall h (List.mem_of_getElem? hget)) hh'

theorem update_keeps_tidy {change : HashCell → Option HashCell}
    (hchange : ∀ h h', Tidy heap depth D h → change h = some h' → Tidy heap depth D h') :
    Invariant (AllTidy heap depth D) (update r change) :=
  (update_tidy (P := fun _ => True) fun _ h h' _ _ htidy => hchange h h' htidy).weaken (fun _ hs => ⟨hs, trivial⟩)
    fun _ _ => id

theorem within_set (hwithin : ∀ pair ∈ pairs, D pair.1) (hkey : D key) {eq : HashKey → HashKey → Option Bool}
    (hset : table.set eq key val pairs = some pairs') : ∀ pair ∈ pairs', D pair.1 := by
  intro pair hpair
  obtain hsame | ⟨old, hold⟩ := table.key_of_set hset hpair
  · rwa [hsame]
  · exact hwithin (pair.1, old) hold

variable (hD : Mutual heap depth D)
include hD

theorem tidy_set (hunique : table.Unique (key_equal_for_mode heap depth mode) pairs)
    (hwithin : ∀ pair ∈ pairs, D pair.1) (hkey : D key)
    (hset : table.set (key_equal_for_mode heap depth mode) key val pairs = some pairs') :
    table.Unique (key_equal_for_mode heap depth mode) pairs' ∧ ∀ pair ∈ pairs', D pair.1 :=
  ⟨hunique.set (fun pair hpair => hD mode key pair.1 hkey (hwithin pair hpair)) hset, within_set hwithin hkey hset⟩

theorem val_hash_set_keeps_tidy (hkey : D key) :
    Invariant (AllTidy heap depth D) (val_hash_set heap depth r key val) := by
  refine update_keeps_tidy fun h h' htidy hchange => ?_
  obtain ⟨pairs, hset, rfl⟩ := Option.map_eq_some_iff.mp hchange
  obtain ⟨hunique, hwithin⟩ := tidy_set hD htidy.unique htidy.within hkey hset
  exact ⟨hunique, hwithin⟩

omit hD in
theorem val_hash_delete_keeps_tidy : Invariant (AllTidy heap depth D) (val_hash_delete heap depth r key) := by
  refine update_keeps_tidy fun h h' htidy hchange => ?_
  obtain ⟨pairs, hdelete, rfl⟩ := Option.map_eq_some_iff.mp hchange
  have hsub := table.delete_sublist hdelete
  exact ⟨htidy.unique.sublist hsub, fun pair hpair => htidy.within pair (hsub.subset hpair)⟩

omit hD in
theorem val_hash_get_keeps {P : World → Prop} : Invariant P (val_hash_get heap depth r key) := by
  intro world found world' hw hrun
  unfold val_hash_get at hrun
  split at hrun
  · obtain ⟨found', -, hpair⟩ := Option.map_eq_some_iff.mp hrun
    obtain ⟨-, rfl⟩ := Prod.mk.inj hpair
    exact hw
  · cases hrun

/-! ### Methods that change the receiver -/

omit hD in
theorem environ_keeps_tidy {p : Run α}
    (hcells : ∀ world a world', p world = some (a, world') → world'.cells = world.cells) :
    Invariant (AllTidy heap depth D) p := by
  intro world a world' hall hrun c hc
  rw [hcells world a world' hrun] at hc
  exact hall c hc

omit hD in
theorem setenv_keeps_tidy {name value : String} : Invariant (AllTidy heap depth D) (setenv name value) := by
  refine environ_keeps_tidy fun world u world' hrun => ?_
  unfold setenv at hrun
  split at hrun <;> obtain ⟨-, rfl⟩ := Prod.mk.inj (Option.some.inj hrun) <;> rfl

omit hD in
theorem unsetenv_keeps_tidy {name : String} : Invariant (AllTidy heap depth D) (unsetenv name) := by
  refine environ_keeps_tidy fun world u world' hrun => ?_
  unfold unsetenv at hrun
  split at hrun <;> obtain ⟨-, rfl⟩ := Prod.mk.inj (Option.some.inj hrun) <;> rfl

variable {env_hash : Ref} {to_s : Value → String} {fuel : Nat} {args : List HashKey} {blk : Option Block}

omit hD in
theorem sync_pair_keeps_tidy :
    Invariant (AllTidy heap depth D) (sync_process_env_pair env_hash to_s r key val) :=
  Triple.ite (fun _ => Invariant.pure) fun _ =>
    Triple.ite (fun _ => unsetenv_keeps_tidy) fun _ => setenv_keeps_tidy

omit hD in
theorem sync_delete_keeps_tidy : Invariant (AllTidy heap depth D) (sync_process_env_delete env_hash to_s r key) :=
  Triple.ite (fun _ => Invariant.pure) fun _ => unsetenv_keeps_tidy

omit hD in
/-- A frozen hash stays as it is. -/
theorem unless_frozen_keeps {P : World → Prop} {method : HashCell → Run Reply}
    (hmethod : ∀ h, h.frozen = false →
      Triple (fun world => (AllTidy heap depth D world ∧ P world) ∧ world.cells[r]? = some h) (method h)
        fun _ => AllTidy heap depth D) :
    Triple (fun world => AllTidy heap depth D world ∧ P world) (unless_frozen r method)
      fun _ => AllTidy heap depth D := by
  refine Triple.bind cell_triple fun h => ?_
  cases hf : h.frozen with
  | true => exact Triple.pure fun _ hw => hw.1.1
  | false => exact hmethod h hf

omit hD in
theorem unless_frozen_keeps_tidy {method : HashCell → Run Reply}
    (hmethod : ∀ h, Invariant (AllTidy heap depth D) (method h)) :
    Invariant (AllTidy heap depth D) (unless_frozen r method) :=
  (unless_frozen_keeps (P := fun _ => True) fun h _ => (hmethod h).weaken (fun _ hw => hw.1.1) fun _ _ => id).weaken
    (fun _ hw => ⟨hw, trivial⟩) fun _ _ => id

theorem store_keeps_tidy (hargs : ∀ key ∈ args.take 1, D key) :
    Invariant (AllTidy heap depth D) (store heap depth env_hash to_s r args) := by
  unfold store
  split
  · refine unless_frozen_keeps_tidy fun h => ?_
    refine Invariant.bind (val_hash_set_keeps_tidy hD (hargs _ List.mem_cons_self)) fun _ => ?_
    exact Invariant.bind sync_pair_keeps_tidy fun _ => Invariant.pure
  · exact Invariant.pure

omit hD in
theorem delete_keeps_tidy : Invariant (AllTidy heap depth D) (delete heap depth env_hash to_s r args blk) := by
  unfold delete
  split
  · refine unless_frozen_keeps_tidy fun h => ?_
    refine Invariant.bind val_hash_get_keeps fun found => ?_
    refine Invariant.bind val_hash_delete_keeps_tidy fun _ => ?_
    refine Invariant.bind sync_delete_keeps_tidy fun _ => ?_
    split <;> exact Invariant.pure
  · exact Invariant.pure

theorem merge_each_keeps_tidy {other : Ref} {j : Nat} :
    Invariant (AllTidy heap depth D) (merge_each heap depth r other blk fuel j) := by
  induction fuel generalizing j with
  | zero => exact Triple.never
  | succ fuel ih =>
    refine Triple.bind cell_triple fun o => ?_
    split
    · exact Triple.pure fun _ hw => hw.1
    · rename_i key val hpair
      -- the key is one of the other hash
      have hset : ∀ val, Triple (fun world => AllTidy heap depth D world ∧ world.cells[other]? = some o)
          (val_hash_set heap depth r key val) fun _ => AllTidy heap depth D := by
        intro val world u world' hw hrun
        have hkey := (hw.1 o (List.mem_of_getElem? hw.2)).within _ (List.mem_of_getElem? hpair)
        exact val_hash_set_keeps_tidy hD hkey world u world' hw.1 hrun
      have hexisting : Invariant (fun world => AllTidy heap depth D world ∧ world.cells[other]? = some o)
          (existing_value heap depth r key blk) := by
        cases blk with
        | none => exact Invariant.pure
        | some block => exact val_hash_get_keeps
      exact Triple.bind hexisting fun existing => Triple.bind (hset _) fun _ => ih

theorem merge_bang_keeps_tidy : Invariant (AllTidy heap depth D) (merge_bang heap depth fuel r args blk) := by
  refine unless_frozen_keeps_tidy fun _ => ?_
  induction args with
  | nil => exact Invariant.pure
  | cons arg args ih =>
    unfold merge_all
    split
    · exact Invariant.bind (merge_each_keeps_tidy hD) fun _ => ih
    · exact Invariant.pure

omit hD in
theorem prune_each_keeps_tidy {block : Block} {keep changed : Bool} {i : Nat} :
    Invariant (AllTidy heap depth D) (prune_each heap depth r block keep fuel i changed) := by
  induction fuel generalizing i changed with
  | zero => exact Triple.never
  | succ fuel ih =>
    refine Triple.bind cell_triple fun h => ?_
    refine Triple.weaken (P := AllTidy heap depth D) (Q := fun _ => AllTidy heap depth D) ?_ (fun _ hw => hw.1)
      fun _ _ => id
    split
    · exact Invariant.pure
    · refine Triple.ite (fun _ => ih) fun _ => ?_
      exact Invariant.bind val_hash_delete_keeps_tidy fun _ => ih

omit hD in
theorem prune_keeps_tidy {keep always : Bool} :
    Invariant (AllTidy heap depth D) (prune heap depth keep always fuel r blk) := by
  unfold prune
  split
  · exact Invariant.pure
  · refine unless_frozen_keeps_tidy fun _ => ?_
    exact Invariant.bind prune_each_keeps_tidy fun _ => Invariant.pure

omit hD in
theorem update_then {change : HashCell → Option HashCell} {reply : Reply}
    (hchange : ∀ h h', Tidy heap depth D h → change h = some h' → Tidy heap depth D h') :
    Invariant (AllTidy heap depth D) (do update r change; return reply) :=
  Invariant.bind (update_keeps_tidy hchange) fun _ => Invariant.pure

omit hD in
/-- The keys stay the same, or some go. -/
theorem Tidy.sublist (htidy : Tidy heap depth D h) (hkeys : (pairs.map Prod.fst).Sublist (h.pairs.map Prod.fst)) :
    Tidy heap depth D (set_pairs h pairs) where
  unique := List.Pairwise.sublist hkeys htidy.unique
  within := by
    intro pair hpair
    obtain ⟨other, hother, hsame⟩ := List.mem_map.mp (hkeys.subset (List.mem_map_of_mem hpair))
    rw [← hsame]
    exact htidy.within other hother

omit hD in
theorem clear_keeps_tidy : Invariant (AllTidy heap depth D) (clear r) := by
  refine unless_frozen_keeps_tidy fun _ => update_then fun h h' htidy hchange => ?_
  obtain rfl := Option.some.inj hchange
  exact htidy.sublist (List.nil_sublist _)

omit hD in
theorem transform_values_bang_keeps_tidy : Invariant (AllTidy heap depth D) (transform_values_bang r blk) := by
  unfold transform_values_bang
  split
  · exact Invariant.pure
  · refine unless_frozen_keeps_tidy fun _ => update_then fun h h' htidy hchange => ?_
    obtain rfl := Option.some.inj hchange
    refine htidy.sublist ?_
    rw [List.map_map]
    exact List.Sublist.refl _

omit hD in
theorem set_default_keeps_tidy : Invariant (AllTidy heap depth D) (set_default r args) := by
  unfold set_default
  split
  · exact Invariant.pure
  · refine unless_frozen_keeps_tidy fun _ => update_then fun h h' htidy hchange => ?_
    obtain rfl := Option.some.inj hchange
    exact ⟨htidy.unique, htidy.within⟩

omit hD in
theorem set_default_proc_keeps_tidy : Invariant (AllTidy heap depth D) (set_default_proc r args) := by
  unfold set_default_proc
  split
  · exact Invariant.pure
  · refine unless_frozen_keeps_tidy fun _ => update_then fun h h' htidy hchange => ?_
    obtain rfl := Option.some.inj hchange
    split
    · exact ⟨htidy.unique, htidy.within⟩
    · split
      · exact ⟨htidy.unique, htidy.within⟩
      · exact htidy

omit hD in
theorem rehash_keeps_tidy : Invariant (AllTidy heap depth D) (rehash r) :=
  unless_frozen_keeps_tidy fun _ => Invariant.pure

omit hD in
theorem compact_bang_keeps_tidy : Invariant (AllTidy heap depth D) (compact_bang r) := by
  refine unless_frozen_keeps_tidy fun _ => update_then fun h h' htidy hchange => ?_
  obtain rfl := Option.some.inj hchange
  exact htidy.sublist (List.filter_sublist.map _)

omit hD in
/-- Under identity the keys have to be different already. -/
theorem compare_by_identity_keeps_tidy :
    Triple (fun world => AllTidy heap depth D world ∧ ∀ h, world.cells[r]? = some h → h.frozen = false →
      table.Unique (key_equal_for_mode heap depth true) h.pairs)
      (compare_by_identity r) fun _ => AllTidy heap depth D := by
  refine unless_frozen_keeps fun h hf => ?_
  refine Triple.bind (Q := fun _ => AllTidy heap depth D) ?_ fun _ => Invariant.pure
  refine (update_tidy (P := fun world => world.cells[r]? = some h ∧
    table.Unique (key_equal_for_mode heap depth true) h.pairs) ?_).weaken
      (fun world hw => ⟨hw.1.1, hw.2, hw.1.2 h hw.2 hf⟩) fun _ _ => id
  rintro world c c' ⟨hget, hunique⟩ hget' htidy hchange
  obtain rfl := Option.some.inj (hget.symm.trans hget')
  obtain rfl := Option.some.inj hchange
  exact ⟨hunique, htidy.within⟩

theorem replace_each_keeps_tidy (hpairs : ∀ pair ∈ pairs, D pair.1) :
    Invariant (AllTidy heap depth D) (replace_each heap depth env_hash to_s r pairs) := by
  induction pairs with
  | nil => exact Invariant.pure
  | cons pair pairs ih =>
    obtain ⟨key, val⟩ := pair
    refine Invariant.bind (val_hash_set_keeps_tidy hD (hpairs _ List.mem_cons_self)) fun _ => ?_
    refine Invariant.bind sync_pair_keeps_tidy fun _ => ?_
    exact ih fun other hother => hpairs other (List.mem_cons_of_mem _ hother)

theorem replace_keeps_tidy : Invariant (AllTidy heap depth D) (replace heap depth env_hash to_s r args) := by
  unfold replace
  split
  · exact Invariant.pure
  · refine unless_frozen_keeps_tidy fun _ => ?_
    unfold replace_with
    split
    · refine Triple.ite (fun _ => Invariant.pure) fun _ => ?_
      refine Triple.bind cell_triple fun o => ?_
      intro world reply world' hw hrun
      have hkeys := (hw.1 o (List.mem_of_getElem? hw.2)).within
      -- the receiver starts anew, with the comparison of the other hash
      refine Invariant.bind (update_keeps_tidy ?_) (fun _ => Invariant.bind (replace_each_keeps_tidy hD hkeys)
        fun _ => Invariant.pure) world reply world' hw.1 hrun
      intro h h' _ hchange
      obtain rfl := Option.some.inj hchange
      exact ⟨table.Unique.nil, nofun⟩
    · exact Invariant.pure

/-! ### Methods that make a hash -/

theorem build_tidy {sets : List (HashKey × HashKey)}
    (hunique : table.Unique (key_equal_for_mode heap depth mode) pairs) (hwithin : ∀ pair ∈ pairs, D pair.1)
    (hsets : ∀ pair ∈ sets, D pair.1) (hbuild : build heap depth mode pairs sets = some pairs') :
    table.Unique (key_equal_for_mode heap depth mode) pairs' ∧ ∀ pair ∈ pairs', D pair.1 := by
  induction sets generalizing pairs with
  | nil =>
    obtain rfl := Option.some.inj hbuild
    exact ⟨hunique, hwithin⟩
  | cons pair sets ih =>
    obtain ⟨key, val⟩ := pair
    obtain ⟨pairs₁, hset, hrest⟩ := Option.bind_eq_some_iff.mp hbuild
    obtain ⟨hunique₁, hwithin₁⟩ := tidy_set hD hunique hwithin (hsets _ List.mem_cons_self) hset
    exact ih hunique₁ hwithin₁ (fun other hother => hsets other (List.mem_cons_of_mem _ hother)) hrest

theorem merge_into_tidy {sets : List (HashKey × HashKey)} {block : Block}
    (hunique : table.Unique (key_equal_for_mode heap depth mode) pairs) (hwithin : ∀ pair ∈ pairs, D pair.1)
    (hsets : ∀ pair ∈ sets, D pair.1) (hmerge : merge_into heap depth mode block pairs sets = some pairs') :
    table.Unique (key_equal_for_mode heap depth mode) pairs' ∧ ∀ pair ∈ pairs', D pair.1 := by
  induction sets generalizing pairs with
  | nil =>
    obtain rfl := Option.some.inj hmerge
    exact ⟨hunique, hwithin⟩
  | cons pair sets ih =>
    obtain ⟨key, val⟩ := pair
    obtain ⟨existing, -, hset⟩ := Option.bind_eq_some_iff.mp hmerge
    obtain ⟨pairs₁, hset, hrest⟩ := Option.bind_eq_some_iff.mp hset
    obtain ⟨hunique₁, hwithin₁⟩ := tidy_set hD hunique hwithin (hsets _ List.mem_cons_self) hset
    exact ih hunique₁ hwithin₁ (fun other hother => hsets other (List.mem_cons_of_mem _ hother)) hrest

omit hD in
theorem new_keeps_tidy (htidy : Tidy heap depth D h) : Invariant (AllTidy heap depth D) (val_hash_new h) := by
  intro world r world' hall hrun
  obtain ⟨-, rfl⟩ := Prod.mk.inj (Option.some.inj hrun)
  intro c hc
  obtain hc | hc := List.mem_append.mp hc
  · exact hall c hc
  · rwa [List.mem_singleton.mp hc]

theorem make_keeps_tidy {default_value default_proc : HashKey} {sets : List (HashKey × HashKey)}
    (hsets : ∀ pair ∈ sets, D pair.1) :
    Invariant (AllTidy heap depth D) (make heap depth mode default_value default_proc sets) := by
  refine Triple.bind (Q := fun pairs world => AllTidy heap depth D world ∧
    table.Unique (key_equal_for_mode heap depth mode) pairs ∧ ∀ pair ∈ pairs, D pair.1) ?_ fun pairs => ?_
  · refine Triple.lift fun pairs hbuild world hw => ?_
    exact ⟨hw, build_tidy hD table.Unique.nil nofun hsets hbuild⟩
  · refine Triple.fact fun hpairs => ?_
    exact Invariant.bind (new_keeps_tidy ⟨hpairs.1, hpairs.2⟩) fun _ => Invariant.pure

omit hD in
/-- A method that reads the receiver. -/
theorem cell_keeps {P : World → Prop} {method : HashCell → Run Reply}
    (hmethod : ∀ h, Tidy heap depth D h →
      Triple (fun world => (AllTidy heap depth D world ∧ P world) ∧ world.cells[r]? = some h) (method h)
        fun _ => AllTidy heap depth D) :
    Triple (fun world => AllTidy heap depth D world ∧ P world) (do let h ← cell r; method h)
      fun _ => AllTidy heap depth D := by
  refine Triple.bind cell_triple fun h world reply world' hw hrun => ?_
  exact hmethod h (hw.1.1 h (List.mem_of_getElem? hw.2)) world reply world' hw hrun

omit hD in
theorem cell_keeps_tidy {method : HashCell → Run Reply}
    (hmethod : ∀ h, Tidy heap depth D h → Invariant (AllTidy heap depth D) (method h)) :
    Invariant (AllTidy heap depth D) (do let h ← cell r; method h) :=
  (cell_keeps (P := fun _ => True) fun h htidy => (hmethod h htidy).weaken (fun _ hw => hw.1.1) fun _ _ => id).weaken
    (fun _ hw => ⟨hw, trivial⟩) fun _ _ => id

theorem merge_args_tidy (hunique : table.Unique (key_equal_for_mode heap depth mode) pairs)
    (hwithin : ∀ pair ∈ pairs, D pair.1) :
    Triple (AllTidy heap depth D) (merge_args heap depth mode blk pairs args) fun result world =>
      AllTidy heap depth D world ∧ ∀ pairs', result = .ok pairs' →
        table.Unique (key_equal_for_mode heap depth mode) pairs' ∧ ∀ pair ∈ pairs', D pair.1 := by
  induction args generalizing pairs with
  | nil =>
    refine Triple.pure fun world hw => ⟨hw, ?_⟩
    rintro pairs' hpairs
    obtain rfl := Except.ok.inj hpairs
    exact ⟨hunique, hwithin⟩
  | cons arg args ih =>
    unfold merge_args
    split
    · refine Triple.bind cell_triple fun o => ?_
      refine Triple.bind (Q := fun pairs world => AllTidy heap depth D world ∧
        table.Unique (key_equal_for_mode heap depth mode) pairs ∧ ∀ pair ∈ pairs, D pair.1) ?_ fun pairs₁ => ?_
      · refine Triple.lift fun pairs₁ hmerged world hw => ⟨hw.1, ?_⟩
        have hkeys := (hw.1 o (List.mem_of_getElem? hw.2)).within
        cases blk with
        | none => exact build_tidy hD hunique hwithin hkeys hmerged
        | some block => exact merge_into_tidy hD hunique hwithin hkeys hmerged
      · exact Triple.fact fun hpairs => ih hpairs.1 hpairs.2
    · exact Triple.pure fun world hw => ⟨hw, nofun⟩

theorem merge_keeps_tidy : Invariant (AllTidy heap depth D) (merge heap depth r args blk) := by
  refine cell_keeps_tidy fun h htidy => ?_
  refine Triple.bind (Q := fun pairs world => AllTidy heap depth D world ∧
    table.Unique (key_equal_for_mode heap depth h.compare_by_identity) pairs ∧ ∀ pair ∈ pairs, D pair.1) ?_
    fun pairs => ?_
  · refine Triple.lift fun pairs hbuild world hw => ⟨hw, ?_⟩
    exact build_tidy hD table.Unique.nil nofun htidy.within hbuild
  · refine Triple.fact fun hpairs => ?_
    refine Triple.bind (merge_args_tidy hD hpairs.1 hpairs.2) fun result => ?_
    split
    · exact Triple.pure fun _ hw => hw.1
    · rename_i pairs'
      refine Triple.fact fun hok => ?_
      obtain ⟨hunique, hwithin⟩ := hok pairs' rfl
      exact Invariant.bind (new_keeps_tidy ⟨hunique, hwithin⟩) fun _ => Invariant.pure

theorem dup_keeps_tidy : Invariant (AllTidy heap depth D) (dup heap depth r) :=
  cell_keeps_tidy fun _ htidy => make_keeps_tidy hD htidy.within

omit hD in
theorem with_block_keeps_tidy {method : HashCell → Block → Run Reply}
    (hmethod : ∀ h block, Tidy heap depth D h → Invariant (AllTidy heap depth D) (method h block)) :
    Invariant (AllTidy heap depth D) (with_block r blk method) := by
  cases blk with
  | none => exact Invariant.pure
  | some block => exact cell_keeps_tidy fun h htidy => hmethod h block htidy

omit hD in
theorem within_filter {keep : HashKey × HashKey → Bool} (hwithin : ∀ pair ∈ pairs, D pair.1) :
    ∀ pair ∈ pairs.filter keep, D pair.1 := fun pair hpair => hwithin pair (List.mem_filter.mp hpair).1

theorem select_keeps_tidy : Invariant (AllTidy heap depth D) (select heap depth r blk) :=
  with_block_keeps_tidy fun _ _ htidy => make_keeps_tidy hD (within_filter htidy.within)

theorem reject_keeps_tidy : Invariant (AllTidy heap depth D) (reject heap depth r blk) :=
  with_block_keeps_tidy fun _ _ htidy => make_keeps_tidy hD (within_filter htidy.within)

theorem transform_values_keeps_tidy : Invariant (AllTidy heap depth D) (transform_values heap depth r blk) := by
  refine with_block_keeps_tidy fun h block htidy => make_keeps_tidy hD fun pair hpair => ?_
  obtain ⟨other, hother, rfl⟩ := List.mem_map.mp hpair
  exact htidy.within other hother

theorem compact_keeps_tidy : Invariant (AllTidy heap depth D) (compact heap depth r) :=
  cell_keeps_tidy fun _ htidy => make_keeps_tidy hD (within_filter htidy.within)

omit hD in
/-- A method that makes a hash of keys of the domain. -/
theorem cell_makes_tidy {K : HashCell → List HashKey} {method : HashCell → Run Reply}
    (hmethod : ∀ h, Tidy heap depth D h → (∀ key ∈ K h, D key) → Invariant (AllTidy heap depth D) (method h)) :
    Triple (fun world => AllTidy heap depth D world ∧ ∀ h, world.cells[r]? = some h → ∀ key ∈ K h, D key)
      (do let h ← cell r; method h) fun _ => AllTidy heap depth D :=
  cell_keeps fun h htidy world reply world' hw hrun =>
    hmethod h htidy (hw.1.2 h hw.2) world reply world' hw.1.1 hrun

theorem invert_keeps_tidy :
    Triple (fun world => AllTidy heap depth D world ∧
      ∀ h, world.cells[r]? = some h → ∀ key ∈ h.pairs.map Prod.snd, D key)
      (invert heap depth r) fun _ => AllTidy heap depth D := by
  refine cell_makes_tidy fun h _ hkeys => make_keeps_tidy hD fun pair hpair => ?_
  obtain ⟨other, hother, rfl⟩ := List.mem_map.mp hpair
  exact hkeys _ (List.mem_map_of_mem hother)

omit hD in
theorem slice_pairs_keys {sets : List (HashKey × HashKey)} (hslice : slice_pairs heap depth h args = some sets) :
    ∀ pair ∈ sets, pair.1 ∈ args := by
  induction args generalizing sets with
  | nil =>
    obtain rfl := Option.some.inj hslice
    nofun
  | cons key args ih =>
    obtain ⟨found, -, hslice⟩ := Option.bind_eq_some_iff.mp hslice
    obtain ⟨rest, hrest, hslice⟩ := Option.bind_eq_some_iff.mp hslice
    obtain rfl := Option.some.inj hslice
    intro pair hpair
    cases found with
    | none => exact List.mem_cons_of_mem _ (ih hrest pair hpair)
    | some val =>
      obtain rfl | hpair := List.mem_cons.mp hpair
      · exact List.mem_cons_self
      · exact List.mem_cons_of_mem _ (ih hrest pair hpair)

theorem slice_keeps_tidy (hargs : ∀ key ∈ args, D key) :
    Invariant (AllTidy heap depth D) (slice heap depth r args) := by
  refine cell_keeps_tidy fun h _ => ?_
  refine Triple.bind (Q := fun sets world => AllTidy heap depth D world ∧ ∀ pair ∈ sets, pair.1 ∈ args) ?_
    fun sets => ?_
  · exact Triple.lift fun sets hslice world hw => ⟨hw, slice_pairs_keys hslice⟩
  · exact Triple.fact fun hsets => make_keeps_tidy hD fun pair hpair => hargs _ (hsets pair hpair)

omit hD in
theorem except_pairs_mem {sets : List (HashKey × HashKey)}
    (hexcept : except_pairs heap depth mode args pairs = some sets) : ∀ pair ∈ sets, pair ∈ pairs := by
  induction pairs generalizing sets with
  | nil =>
    obtain rfl := Option.some.inj hexcept
    exact fun _ => id
  | cons pair pairs ih =>
    obtain ⟨out, -, hexcept⟩ := Option.bind_eq_some_iff.mp hexcept
    obtain ⟨rest, hrest, hexcept⟩ := Option.bind_eq_some_iff.mp hexcept
    obtain rfl := Option.some.inj hexcept
    intro other hother
    cases out with
    | true => exact List.mem_cons_of_mem _ (ih hrest other hother)
    | false =>
      obtain rfl | hother := List.mem_cons.mp hother
      · exact List.mem_cons_self
      · exact List.mem_cons_of_mem _ (ih hrest other hother)

theorem except_keeps_tidy : Invariant (AllTidy heap depth D) (except heap depth r args) := by
  refine cell_keeps_tidy fun h htidy => ?_
  refine Triple.bind (Q := fun sets world => AllTidy heap depth D world ∧ ∀ pair ∈ sets, pair ∈ h.pairs) ?_
    fun sets => ?_
  · exact Triple.lift fun sets hexcept world hw => ⟨hw, except_pairs_mem hexcept⟩
  · exact Triple.fact fun hsets => make_keeps_tidy hD fun pair hpair => htidy.within _ (hsets pair hpair)

/-- The pairs among the answers of a block. -/
theorem to_h_keeps_tidy {elems : HashKey → List HashKey} :
    Triple (fun world => AllTidy heap depth D world ∧ ∀ h, world.cells[r]? = some h →
      ∀ key ∈ (to_h_pairs elems h blk).map Prod.fst, D key) (to_h heap depth elems r blk)
      fun _ => AllTidy heap depth D := by
  cases blk with
  | none => exact Triple.pure fun _ hw => hw.1
  | some block =>
    refine cell_makes_tidy fun h _ hkeys => make_keeps_tidy hD fun pair hpair => ?_
    exact hkeys _ (List.mem_map_of_mem hpair)

theorem transform_keys_keeps_tidy {block : Block} :
    Triple (fun world => AllTidy heap depth D world ∧ ∀ h, world.cells[r]? = some h →
      ∀ key ∈ h.pairs.map fun pair => block [pair.1], D key) (transform_keys heap depth r (some block))
      fun _ => AllTidy heap depth D := by
  refine cell_makes_tidy fun h _ hkeys => make_keeps_tidy hD fun pair hpair => ?_
  obtain ⟨other, hother, rfl⟩ := List.mem_map.mp hpair
  exact hkeys _ (List.mem_map_of_mem hother)

omit hD in
theorem array_new_keeps_tidy : Invariant (AllTidy heap depth D) val_array_new := by
  refine environ_keeps_tidy fun world v world' hrun => ?_
  obtain ⟨-, rfl⟩ := Prod.mk.inj (Option.some.inj hrun)
  rfl

theorem group_each_tidy {block : Block} {groups : List (HashKey × HashKey)}
    (hunique : table.Unique (key_equal_for_mode heap depth false) groups) (hwithin : ∀ pair ∈ groups, D pair.1)
    (hkeys : ∀ pair ∈ pairs, D (block [pair.1, pair.2])) :
    Triple (AllTidy heap depth D) (group_each heap depth block groups pairs) fun groups world =>
      AllTidy heap depth D world ∧
        table.Unique (key_equal_for_mode heap depth false) groups ∧ ∀ pair ∈ groups, D pair.1 := by
  induction pairs generalizing groups with
  | nil => exact Triple.pure fun world hw => ⟨hw, hunique, hwithin⟩
  | cons pair pairs ih =>
    refine Triple.bind (Q := fun _ => AllTidy heap depth D) (Triple.lift fun _ _ _ => id) fun found => ?_
    refine Triple.bind (Q := fun _ => AllTidy heap depth D) ?_ fun group => ?_
    · cases found with
      | some group => exact Invariant.pure
      | none => exact array_new_keeps_tidy
    · refine Triple.bind (Q := fun groups world => AllTidy heap depth D world ∧
        table.Unique (key_equal_for_mode heap depth false) groups ∧ ∀ pair ∈ groups, D pair.1) ?_ fun groups₁ => ?_
      · refine Triple.lift fun groups₁ hset world hw => ⟨hw, ?_⟩
        exact tidy_set hD hunique hwithin (hkeys pair List.mem_cons_self) hset
      · refine Triple.fact fun hgroups => ?_
        exact ih hgroups.1 hgroups.2 fun other hother => hkeys other (List.mem_cons_of_mem _ hother)

theorem group_by_keeps_tidy {block : Block} :
    Triple (fun world => AllTidy heap depth D world ∧ ∀ h, world.cells[r]? = some h →
      ∀ key ∈ h.pairs.map fun pair => block [pair.1, pair.2], D key) (group_by heap depth r (some block))
      fun _ => AllTidy heap depth D := by
  refine cell_makes_tidy fun h _ hkeys => ?_
  refine Triple.bind (group_each_tidy hD table.Unique.nil nofun fun pair hpair => hkeys _ (List.mem_map_of_mem hpair))
    fun groups => ?_
  refine Triple.fact fun hgroups => ?_
  exact Invariant.bind (new_keeps_tidy ⟨hgroups.1, hgroups.2⟩) fun _ => Invariant.pure

end

end stoned.hashes
