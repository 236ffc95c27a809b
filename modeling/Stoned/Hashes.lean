import Stoned.Keys

namespace stoned.hashes

/-! The built-in methods that change a hash or make a new one
(eval_dispatch_collections.c), and the process environment that the hash `ENV`
mirrors. Blocks are pure and return ordinary values. -/

/-- A hash. Its keys and values come with their addresses. -/
structure HashCell where
  pairs : List (HashKey × HashKey)
  compare_by_identity : Bool
  default_value : HashKey
  default_proc : HashKey
  frozen : Bool

/-- The hashes, how many arrays were made, and the environment of the process. -/
structure World where
  cells : List HashCell
  arrays : Ref
  environ : String → Option String

/-- A computation that may not return. -/
abbrev Run := StateT World Option

def nil_key : HashKey := { value := .nil, address := 0 }

/-- The answer of a method. -/
inductive Reply where
  | value (v : HashKey)
  | hash (h : Ref)
  /-- an Enumerator over the receiver, without a block -/
  | enumerator
  | raised (klass message : String)

abbrev Block := List HashKey → HashKey

/-- The methods under one of their names. -/
inductive Method where
  | store | delete | merge_bang | select_bang | keep_if | reject_bang | delete_if | clear | transform_values_bang
  | transform_keys_bang | set_default | set_default_proc | rehash | compare_by_identity | compact_bang | replace
  | merge | select | reject | dup | transform_values | transform_keys | compact | invert | slice | except | to_h
  | group_by
  deriving DecidableEq

structure Call where
  method : Method
  recv : Ref
  args : List HashKey
  blk : Option Block

section
variable (heap : KeyHeap) (depth : Nat)

/-- The comparison of a hash. -/
abbrev key_equal_for_mode (compare_by_identity : Bool) : HashKey → HashKey → Option Bool :=
  heap.val_hash_key_equal depth compare_by_identity

/-! ### Hashes in memory -/

def cell (r : Ref) : Run HashCell := fun world => (world.cells[r]?).map fun h => (h, world)

/-- Changes a hash, unless that does not return. -/
def update (r : Ref) (change : HashCell → Option HashCell) : Run Unit := fun world =>
  match world.cells[r]? with
  | some h => (change h).map fun h => ((), { world with cells := world.cells.set r h })
  | none => none

def set_pairs (h : HashCell) (pairs : List (HashKey × HashKey)) : HashCell := { h with pairs }

def val_hash_set (r : Ref) (key val : HashKey) : Run Unit := update r fun h =>
  (table.set (key_equal_for_mode heap depth h.compare_by_identity) key val h.pairs).map (set_pairs h)

def val_hash_delete (r : Ref) (key : HashKey) : Run Unit := update r fun h =>
  (table.delete (key_equal_for_mode heap depth h.compare_by_identity) key h.pairs).map (set_pairs h)

def val_hash_get (r : Ref) (key : HashKey) : Run (Option HashKey) := fun world =>
  match world.cells[r]? with
  | some h =>
    (table.get (key_equal_for_mode heap depth h.compare_by_identity) key h.pairs).map fun found => (found, world)
  | none => none

def val_hash_new (h : HashCell) : Run Ref := fun world =>
  some (world.cells.length, { world with cells := world.cells ++ [h] })

def val_array_new : Run HashKey := fun world =>
  some ({ value := .array world.arrays, address := 0 }, { world with arrays := world.arrays + 1 })

/-! ### The process environment -/

/-- setenv refuses a name that is empty or has a `=`. -/
def setenv (name value : String) : Run Unit := fun world =>
  if name.isEmpty || name.toList.contains '=' then some ((), world)
  else some ((), { world with environ := fun other => if other = name then some value else world.environ other })

def unsetenv (name : String) : Run Unit := fun world =>
  if name.isEmpty || name.toList.contains '=' then some ((), world)
  else some ((), { world with environ := fun other => if other = name then none else world.environ other })

variable (env_hash : Ref) (to_s : Value → String)

/-- The text of a value as a C string. -/
def val_to_s : Value → String
  | .string sval .. => c_string sval
  | v => c_string (to_s v)

def sync_process_env_pair (r : Ref) (key value : HashKey) : Run Unit :=
  if r ≠ env_hash ∨ (val_to_s to_s key.value).isEmpty then return
  else if value.value.kind = .nil then unsetenv (val_to_s to_s key.value)
  else setenv (val_to_s to_s key.value) (val_to_s to_s value.value)

def sync_process_env_delete (r : Ref) (key : HashKey) : Run Unit :=
  if r ≠ env_hash ∨ (val_to_s to_s key.value).isEmpty then return
  else unsetenv (val_to_s to_s key.value)

/-! ### Methods that change the receiver -/

def argument_error (message : String) : Reply := .raised "ArgumentError" message

/-- The check before a change. -/
def unless_frozen (r : Ref) (method : HashCell → Run Reply) : Run Reply := do
  let h ← cell r
  if h.frozen then return .raised "FrozenError" "can't modify frozen Hash" else method h

def store (r : Ref) (args : List HashKey) : Run Reply :=
  match args with
  | key :: val :: _ => unless_frozen r fun _ => do
    val_hash_set heap depth r key val
    sync_process_env_pair env_hash to_s r key val
    return .value val
  | _ => return argument_error "Hash#[]= requires key and value"

def delete (r : Ref) (args : List HashKey) (blk : Option Block) : Run Reply :=
  match args with
  | key :: _ => unless_frozen r fun _ => do
    let found ← val_hash_get heap depth r key
    val_hash_delete heap depth r key
    sync_process_env_delete env_hash to_s r key
    match found, blk with
    | some val, _ => return .value val
    | none, some block => return .value (block [key])
    | none, none => return .value nil_key
  | [] => return argument_error "Hash#delete requires a key"

/-- The value under a key, where there is a block to resolve a conflict. -/
def existing_value (r : Ref) (key : HashKey) : Option Block → Run (Option HashKey)
  | some _ => val_hash_get heap depth r key
  | none => return none

def resolved (blk : Option Block) (key val : HashKey) (existing : Option HashKey) : HashKey :=
  match blk, existing with
  | some block, some old => block [key, old, val]
  | _, _ => val

/-- Sets the pairs of another hash, which may be the receiver, from the j-th on. -/
def merge_each (r other : Ref) (blk : Option Block) : Nat → Nat → Run Unit
  | 0, _ => fun _ => none
  | fuel + 1, j => do
    let o ← cell other
    match o.pairs[j]? with
    | none => return
    | some (key, val) => do
      let existing ← existing_value heap depth r key blk
      val_hash_set heap depth r key (resolved blk key val existing)
      merge_each r other blk fuel (j + 1)

def merge_all (fuel : Nat) (r : Ref) (blk : Option Block) : List HashKey → Run Reply
  | [] => return .hash r
  | arg :: args =>
    match arg.value with
    | .hash other => do
      merge_each heap depth r other blk fuel 0
      merge_all fuel r blk args
    | _ => return .raised "TypeError" "Hash#merge! requires Hash arguments"

def merge_bang (fuel : Nat) (r : Ref) (args : List HashKey) (blk : Option Block) : Run Reply :=
  unless_frozen r fun _ => merge_all heap depth fuel r blk args

/-- Deletes the pairs for which the block does not answer as asked, from the i-th
on. Tells whether there was one. -/
def prune_each (r : Ref) (block : Block) (keep : Bool) : Nat → Nat → Bool → Run Bool
  | 0, _, _ => fun _ => none
  | fuel + 1, i, changed => do
    let h ← cell r
    match h.pairs[i]? with
    | none => return changed
    | some (key, val) =>
      if val_truthy (block [key, val]).value = keep then prune_each r block keep fuel (i + 1) changed
      else do
        val_hash_delete heap depth r key
        prune_each r block keep fuel i true

/-- `always`: the answer is the receiver even where nothing changed. -/
def prune (keep always : Bool) (fuel : Nat) (r : Ref) (blk : Option Block) : Run Reply :=
  match blk with
  | none => return .enumerator
  | some block => unless_frozen r fun _ => do
    let changed ← prune_each heap depth r block keep fuel 0 false
    return if always || changed then .hash r else .value nil_key

def select_bang := prune heap depth true false
def keep_if := prune heap depth true true
def reject_bang := prune heap depth false false
def delete_if := prune heap depth false true

def clear (r : Ref) : Run Reply := unless_frozen r fun _ => do
  update r fun h => some (set_pairs h [])
  return .hash r

def transform_values_bang (r : Ref) (blk : Option Block) : Run Reply :=
  match blk with
  | none => return .enumerator
  | some block => unless_frozen r fun _ => do
    update r fun h => some (set_pairs h (h.pairs.map fun pair => (pair.1, block [pair.2])))
    return .hash r

/-- The keys are overwritten; there is room for 256 new ones. -/
def overwrite_keys (block : Block) (pairs : List (HashKey × HashKey)) : List (HashKey × HashKey) :=
  (pairs.take 256).map (fun pair => (block [pair.1], pair.2)) ++ pairs.drop 256

def transform_keys_bang (r : Ref) (blk : Option Block) : Run Reply :=
  match blk with
  | none => return .enumerator
  | some block => unless_frozen r fun _ => do
    update r fun h => some (set_pairs h (overwrite_keys block h.pairs))
    return .hash r

def set_default (r : Ref) (args : List HashKey) : Run Reply :=
  match args with
  | [] => return argument_error "wrong number of arguments"
  | arg :: _ => unless_frozen r fun _ => do
    update r fun h => some { h with default_value := arg, default_proc := nil_key }
    return .value arg

def set_default_proc (r : Ref) (args : List HashKey) : Run Reply :=
  match args with
  | [] => return argument_error "wrong number of arguments"
  | arg :: _ => unless_frozen r fun _ => do
    update r fun h => some (
      if arg.value.kind = .block then { h with default_proc := arg, default_value := nil_key }
      else if arg.value.kind = .nil then { h with default_proc := nil_key }
      else h)
    return .value arg

def rehash (r : Ref) : Run Reply := unless_frozen r fun _ => return .hash r

/-- The keys stay as they are. -/
def compare_by_identity (r : Ref) : Run Reply := unless_frozen r fun _ => do
  update r fun h => some { h with compare_by_identity := true }
  return .hash r

def without_nil (pairs : List (HashKey × HashKey)) : List (HashKey × HashKey) :=
  pairs.filter fun pair => pair.2.value.kind ≠ .nil

def compact_bang (r : Ref) : Run Reply := unless_frozen r fun h => do
  update r fun h => some (set_pairs h (without_nil h.pairs))
  return if (without_nil h.pairs).length = h.pairs.length then .value nil_key else .hash r

def replace_each (r : Ref) : List (HashKey × HashKey) → Run Unit
  | [] => return
  | (key, val) :: pairs => do
    val_hash_set heap depth r key val
    sync_process_env_pair env_hash to_s r key val
    replace_each r pairs

/-- The receiver takes over the pairs, the comparison and the defaults of another hash. -/
def replace_with (r : Ref) (arg : HashKey) : Run Reply :=
  match arg.value with
  | .hash other =>
    if other = r then return .hash r
    else do
      let o ← cell other
      update r fun h => some { o with pairs := [], frozen := h.frozen }
      replace_each heap depth env_hash to_s r o.pairs
      return .hash r
  | _ => return .raised "TypeError" "no implicit conversion into Hash"

def replace (r : Ref) (args : List HashKey) : Run Reply :=
  match args with
  | [] => return argument_error "Hash#replace requires an argument"
  | arg :: _ => unless_frozen r fun _ => replace_with heap depth env_hash to_s r arg

/-! ### Methods that make a hash -/

/-- Sets some pairs in a new hash. -/
def build (mode : Bool) : List (HashKey × HashKey) → List (HashKey × HashKey) → Option (List (HashKey × HashKey))
  | pairs, [] => some pairs
  | pairs, (key, val) :: rest => do
    let pairs ← table.set (key_equal_for_mode heap depth mode) key val pairs
    build mode pairs rest

/-- A new hash of some pairs. -/
def make (mode : Bool) (default_value default_proc : HashKey) (sets : List (HashKey × HashKey)) : Run Reply := do
  let pairs ← StateT.lift (build heap depth mode [] sets)
  let r ← val_hash_new { pairs, compare_by_identity := mode, default_value, default_proc, frozen := false }
  return .hash r

/-- Sets the pairs of another hash in a new one; a block resolves conflicts. -/
def merge_into (mode : Bool) (block : Block) :
    List (HashKey × HashKey) → List (HashKey × HashKey) → Option (List (HashKey × HashKey))
  | pairs, [] => some pairs
  | pairs, (key, val) :: rest => do
    let existing ← table.get (key_equal_for_mode heap depth mode) key pairs
    let pairs ← table.set (key_equal_for_mode heap depth mode) key (resolved (some block) key val existing) pairs
    merge_into mode block pairs rest

def merge_args (mode : Bool) (blk : Option Block) :
    List (HashKey × HashKey) → List HashKey → Run (Except Reply (List (HashKey × HashKey)))
  | pairs, [] => return .ok pairs
  | pairs, arg :: args =>
    match arg.value with
    | .hash other => do
      let o ← cell other
      let pairs ← StateT.lift (match blk with
        | some block => merge_into heap depth mode block pairs o.pairs
        | none => build heap depth mode pairs o.pairs)
      merge_args mode blk pairs args
    | _ => return .error (.raised "TypeError" "Hash#merge requires Hash arguments")

def merge (r : Ref) (args : List HashKey) (blk : Option Block) : Run Reply := do
  let h ← cell r
  let pairs ← StateT.lift (build heap depth h.compare_by_identity [] h.pairs)
  match ← merge_args heap depth h.compare_by_identity blk pairs args with
  | .error reply => return reply
  | .ok pairs => do
    let result ← val_hash_new { h with pairs, frozen := false }
    return .hash result

def dup (r : Ref) : Run Reply := do
  let h ← cell r
  make heap depth h.compare_by_identity h.default_value h.default_proc h.pairs

/-- A method that makes a hash of what a block says of the pairs. -/
def with_block (r : Ref) (blk : Option Block) (method : HashCell → Block → Run Reply) : Run Reply :=
  match blk with
  | none => return .enumerator
  | some block => do
    let h ← cell r
    method h block

def select (r : Ref) (blk : Option Block) : Run Reply := with_block r blk fun h block =>
  make heap depth h.compare_by_identity nil_key nil_key
    (h.pairs.filter fun pair => val_truthy (block [pair.1, pair.2]).value)

def reject (r : Ref) (blk : Option Block) : Run Reply := with_block r blk fun h block =>
  make heap depth h.compare_by_identity h.default_value h.default_proc
    (h.pairs.filter fun pair => !val_truthy (block [pair.1, pair.2]).value)

def transform_values (r : Ref) (blk : Option Block) : Run Reply := with_block r blk fun h block =>
  make heap depth h.compare_by_identity h.default_value h.default_proc
    (h.pairs.map fun pair => (pair.1, block [pair.2]))

def transform_keys (r : Ref) (blk : Option Block) : Run Reply := with_block r blk fun h block =>
  make heap depth h.compare_by_identity nil_key nil_key (h.pairs.map fun pair => (block [pair.1], pair.2))

def compact (r : Ref) : Run Reply := do
  let h ← cell r
  make heap depth h.compare_by_identity nil_key nil_key (without_nil h.pairs)

def invert (r : Ref) : Run Reply := do
  let h ← cell r
  make heap depth false nil_key nil_key (h.pairs.map Prod.swap)

/-- The arguments that are keys, with their values. -/
def slice_pairs (h : HashCell) : List HashKey → Option (List (HashKey × HashKey))
  | [] => some []
  | key :: args => do
    let found ← table.get (key_equal_for_mode heap depth h.compare_by_identity) key h.pairs
    let rest ← slice_pairs h args
    return match found with | some val => (key, val) :: rest | none => rest

def slice (r : Ref) (args : List HashKey) : Run Reply := do
  let h ← cell r
  let sets ← StateT.lift (slice_pairs heap depth h args)
  make heap depth h.compare_by_identity nil_key nil_key sets

def excluded (mode : Bool) (key : HashKey) : List HashKey → Option Bool
  | [] => some false
  | arg :: args => do
    if ← key_equal_for_mode heap depth mode key arg then return true else excluded mode key args

def except_pairs (mode : Bool) (args : List HashKey) : List (HashKey × HashKey) → Option (List (HashKey × HashKey))
  | [] => some []
  | pair :: pairs => do
    let out ← excluded heap depth mode pair.1 args
    let rest ← except_pairs mode args pairs
    return if out then rest else pair :: rest

def except (r : Ref) (args : List HashKey) : Run Reply := do
  let h ← cell r
  let sets ← StateT.lift (except_pairs heap depth h.compare_by_identity args h.pairs)
  make heap depth h.compare_by_identity nil_key nil_key sets

/-- The pairs the block answers with; what is none is left out. -/
def to_h_pairs (elems : HashKey → List HashKey) (h : HashCell) : Option Block → List (HashKey × HashKey)
  | none => []
  | some block => h.pairs.filterMap fun pair =>
    match elems (block [pair.1, pair.2]) with
    | key :: val :: _ => some (key, val)
    | _ => none

def to_h (elems : HashKey → List HashKey) (r : Ref) (blk : Option Block) : Run Reply :=
  if blk.isNone then return .hash r
  else do
    let h ← cell r
    make heap depth false nil_key nil_key (to_h_pairs elems h blk)

/-- The array of a group, a new one where there is none. -/
def group_of : Option HashKey → Run HashKey
  | some group => return group
  | none => val_array_new

def group_each (block : Block) :
    List (HashKey × HashKey) → List (HashKey × HashKey) → Run (List (HashKey × HashKey))
  | groups, [] => return groups
  | groups, pair :: pairs => do
    let key := block [pair.1, pair.2]
    let found ← StateT.lift (table.get (key_equal_for_mode heap depth false) key groups)
    let group ← group_of found
    let groups ← StateT.lift (table.set (key_equal_for_mode heap depth false) key group groups)
    group_each block groups pairs

def group_by (r : Ref) (blk : Option Block) : Run Reply := with_block r blk fun h block => do
  let pairs ← group_each heap depth block [] h.pairs
  let result ← val_hash_new
    { pairs, compare_by_identity := false, default_value := nil_key, default_proc := nil_key, frozen := false }
  return .hash result

/-! ### dispatch_hash -/

/-- What is fixed: the values the keys refer to, how deep a comparison may go,
which hash `ENV` is, the texts of values that are no strings, and the elements of
the arrays. -/
structure Setting where
  heap : KeyHeap
  depth : Nat
  env_hash : Ref
  to_s : Value → String
  elems : HashKey → List HashKey

end

section
variable (s : Setting) (fuel : Nat)

def dispatch_hash (call : Call) : Run Reply :=
  match call.method with
  | .store => store s.heap s.depth s.env_hash s.to_s call.recv call.args
  | .delete => delete s.heap s.depth s.env_hash s.to_s call.recv call.args call.blk
  | .merge_bang => merge_bang s.heap s.depth fuel call.recv call.args call.blk
  | .select_bang => select_bang s.heap s.depth fuel call.recv call.blk
  | .keep_if => keep_if s.heap s.depth fuel call.recv call.blk
  | .reject_bang => reject_bang s.heap s.depth fuel call.recv call.blk
  | .delete_if => delete_if s.heap s.depth fuel call.recv call.blk
  | .clear => clear call.recv
  | .transform_values_bang => transform_values_bang call.recv call.blk
  | .transform_keys_bang => transform_keys_bang call.recv call.blk
  | .set_default => set_default call.recv call.args
  | .set_default_proc => set_default_proc call.recv call.args
  | .rehash => rehash call.recv
  | .compare_by_identity => compare_by_identity call.recv
  | .compact_bang => compact_bang call.recv
  | .replace => replace s.heap s.depth s.env_hash s.to_s call.recv call.args
  | .merge => merge s.heap s.depth call.recv call.args call.blk
  | .select => select s.heap s.depth call.recv call.blk
  | .reject => reject s.heap s.depth call.recv call.blk
  | .dup => dup s.heap s.depth call.recv
  | .transform_values => transform_values s.heap s.depth call.recv call.blk
  | .transform_keys => transform_keys s.heap s.depth call.recv call.blk
  | .compact => compact s.heap s.depth call.recv
  | .invert => invert s.heap s.depth call.recv
  | .slice => slice s.heap s.depth call.recv call.args
  | .except => except s.heap s.depth call.recv call.args
  | .to_h => to_h s.heap s.depth s.elems call.recv call.blk
  | .group_by => group_by s.heap s.depth call.recv call.blk

/-- A sequence of calls, with the answer of each. -/
def run_calls : List Call → Run (List Reply)
  | [] => return []
  | call :: calls => do
    let reply ← dispatch_hash s fuel call
    let replies ← run_calls calls
    return reply :: replies

end

end stoned.hashes
