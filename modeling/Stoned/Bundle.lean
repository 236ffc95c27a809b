import Stoned.Utf8
import Stoned.Versions

namespace stoned.bundle

open rubygems

/-! Resolving the gems of a Gemfile (exe/bundle), without `--local`. -/

section strip

def utf8_space (cp : UInt32) : Bool :=
  cp ∈ ([0x0009, 0x000A, 0x000B, 0x000C, 0x000D, 0x0020, 0x0085, 0x00A0, 0x1680, 0x2000, 0x2001, 0x2002, 0x2003,
    0x2004, 0x2005, 0x2006, 0x2007, 0x2008, 0x2009, 0x200A, 0x2028, 0x2029, 0x202F, 0x205F, 0x3000] : List UInt32)

/-- The width of the blank that a text begins with. A malformed sequence is none. -/
def blank_width (s : Text) : Option Nat :=
  match utf8_decode_one s with
  | some (cp, width) => if utf8_space cp then some width else none
  | none => none

def strip_left : Nat → Text → Text
  | 0, s => s
  | n + 1, s =>
    match blank_width s with
    | some width => strip_left n (s.drop width)
    | none => s

/-- Where the last character begins, of the first `stop` bytes. -/
def utf8_prev_char_start (s : Text) : Nat → Nat
  | 0 => 0
  | stop + 1 =>
    if 0 < stop ∧ s.getD stop 0 &&& 0xC0 = 0x80 then utf8_prev_char_start s stop else stop

def strip_right : Nat → Text → Text
  | 0, s => s
  | n + 1, s =>
    let prev := utf8_prev_char_start s s.length
    if s ≠ [] ∧ (blank_width (s.drop prev)).isSome then strip_right n (s.take prev) else s

/-- String#strip. -/
def strip (s : Text) : Text :=
  let s := strip_left s.length s
  strip_right s.length s

example : strip (bytes_of " >= 0 ") = bytes_of ">= 0" := by decide +kernel

end strip

/-- A gemspec: its version, and the requirements it states on other gems. -/
structure Spec where
  version : Text
  runtime_dependencies : List (Text × Requirement)

/-- A dependency, as the Gemfile declares it and as it is queued. -/
structure Dep where
  name : Text
  reqs : List Text
  path : Option Text
  git : Option Text
  groups : List Text
  spec : Option Spec
  from_gemspec : Bool

/-- What is outside: the gemspec in a directory, the gem that `find_by_name` finds, and
the server's versions of a gem, its latest one and their gemspecs. The gems that specs
depend on are finitely many. -/
structure World where
  path_spec : Text → Option Spec
  found : Text → Option Spec
  listed : Text → Option (List Text)
  latest : Text → Option Text
  published : Text → Text → Spec
  published_version : ∀ name version, (published name version).version = version
  names : List Text
  path_names : ∀ path spec, path_spec path = some spec → ∀ rdep ∈ spec.runtime_dependencies, rdep.1 ∈ names
  found_names : ∀ name spec, found name = some spec → ∀ rdep ∈ spec.runtime_dependencies, rdep.1 ∈ names
  published_names : ∀ name version, ∀ rdep ∈ (published name version).runtime_dependencies, rdep.1 ∈ names

section dependencies

/-- A later declaration of a gem. -/
def Dep.merge (existing dep : Dep) : Dep :=
  { existing with
    path := dep.path <|> existing.path
    git := dep.git <|> existing.git
    spec := dep.spec <|> existing.spec
    reqs := if existing.reqs = [] ∧ dep.reqs ≠ [] then dep.reqs else existing.reqs
    groups := (existing.groups ++ dep.groups).eraseDups }

/-- The dependency of a name, changed. -/
def change (name : Text) (f : Dep → Dep) (ordered : List Dep) : List Dep :=
  ordered.map fun existing => if existing.name = name then f existing else existing

def declares (ordered : List Dep) (name : Text) : Bool := ordered.any (·.name = name)

def normalize_each (ordered : List Dep) (dep : Dep) : List Dep :=
  if declares ordered dep.name then change dep.name (·.merge dep) ordered else ordered ++ [dep]

def normalized_dependencies (dependencies : List Dep) : List Dep := dependencies.foldl normalize_each []

def World.bundle_load_path_spec (W : World) (dep : Dep) : Option Spec := dep.spec <|> dep.path.bind W.path_spec

/-- A dependency that is there because of another one. -/
def injected (groups : List Text) (rdep : Text × Requirement) : Dep :=
  { name := rdep.1, reqs := [rdep.2.to_s], path := none, git := none, groups, spec := none, from_gemspec := false }

def expand_each (groups : List Text) (ordered : List Dep) (rdep : Text × Requirement) : List Dep :=
  if declares ordered rdep.1 then
    change rdep.1 (fun existing => if existing.reqs = [] then { existing with reqs := [rdep.2.to_s] } else existing) ordered
  else ordered ++ [injected groups rdep]

def runtime_dependencies (spec : Option Spec) : List (Text × Requirement) :=
  (spec.map Spec.runtime_dependencies).getD []

def World.expand_at (W : World) (ordered : List Dep) (index : Nat) : List Dep :=
  match ordered[index]? with
  | none => ordered
  | some dep =>
    let spec := W.bundle_load_path_spec dep
    (runtime_dependencies spec).foldl (expand_each dep.groups) (ordered.set index { dep with spec })

/-- `count` turns of the loop. -/
def World.expand_from (W : World) : Nat → Nat → List Dep → List Dep
  | 0, _, ordered => ordered
  | count + 1, index, ordered =>
    if index < ordered.length then W.expand_from count (index + 1) (W.expand_at ordered index) else ordered

/-- The loop also comes to the dependencies it has added, but these have no gemspec. -/
def World.expanded_dependencies (W : World) (dependencies : List Dep) : List Dep :=
  W.expand_from (normalized_dependencies dependencies).length 0 (normalized_dependencies dependencies)

/-- The groups that the configuration leaves out, and those it takes all the same. -/
structure Config where
  excluded : List Text
  included : List Text

def World.active_dependencies (W : World) (config : Config) (dependencies : List Dep) : List Dep :=
  (W.expanded_dependencies dependencies).filter fun dep =>
    !(dep.groups.any (config.excluded.contains ·) && !dep.groups.any (config.included.contains ·))

end dependencies

section resolve

variable (R : Reginold) (W : World)

/-- The requirements that say something. -/
def relevant (reqs : List Text) : List Text :=
  reqs.filter fun r => !(strip r = [] || strip r = bytes_of ">= 0")

/-- A version is tried only against requirements that say something. -/
def accepts (reqs : List Text) (version : Text) : Except Raised Bool :=
  if relevant reqs = [] then .ok true else R.satisfied_by (R.requirement_new (relevant reqs)) version

/-- A gem that is found, unless the requirements refuse it. -/
def accepted (reqs : List Text) : Option Spec → Except Raised (Option Spec)
  | none => .ok none
  | some spec => do if ← accepts R reqs spec.version then .ok (some spec) else .ok none

/-- The best of the versions the server lists. -/
def best_listed (name : Text) (reqs : List Text) : Except Raised (Option Text) :=
  if relevant reqs = [] then .ok none
  else match W.listed name with
    | none => .ok none
    | some versions => R.best_match (relevant reqs) versions

def fetch_version (found : Option Spec) (name : Text) (reqs : List Text) (force_remote : Bool) :
    Except Raised (Option Text) := do
  match ← accepted R reqs (if force_remote then none else found) with
  | some spec => .ok (some spec.version)
  | none =>
    match ← best_listed R W name reqs with
    | some best => .ok (some best)
    | none => .ok (W.latest name)

/-- The state of the resolution: the queue, the names that were queued, the map that is
made, the errors, the number of installed gems, and what `find_by_name` finds. -/
structure Resolver where
  queue : List Dep
  queued : List Text
  resolved : List (Text × Text)
  errors : List Text
  new_installed : Nat
  installed : Text → Option Spec

namespace Resolver

def maps (s : Resolver) (name : Text) : Bool := s.resolved.any (·.1 = name)

def set (s : Resolver) (name version : Text) : Resolver := { s with resolved := s.resolved ++ [(name, version)] }

def enqueue_each (groups : List Text) (s : Resolver) (rdep : Text × Requirement) : Resolver :=
  if s.maps rdep.1 || s.queued.contains rdep.1 then s
  else { s with queued := rdep.1 :: s.queued, queue := s.queue ++ [injected groups rdep] }

def enqueue_runtime_deps (spec : Option Spec) (groups : List Text) (s : Resolver) : Resolver :=
  (runtime_dependencies spec).foldl (enqueue_each groups) s

def install (s : Resolver) (name version : Text) : Resolver :=
  { s with
    installed := fun other => if other = name then some (W.published name version) else s.installed other
    new_installed := s.new_installed + 1 }

/-- The value a gem with a path is mapped to. -/
def path_version (dep : Dep) (spec : Option Spec) : Text :=
  match spec with
  | some spec => if dep.from_gemspec then spec.version else bytes_of "path"
  | none => bytes_of "path"

/-- One turn, for a dependency that was taken from the queue. -/
def take (force_update : Bool) (dep : Dep) (s : Resolver) : Except Raised Resolver :=
  if s.maps dep.name then .ok s
  else if dep.path.isSome then
    let spec := W.bundle_load_path_spec dep
    .ok ((s.set dep.name (path_version dep spec)).enqueue_runtime_deps spec dep.groups)
  else if dep.git.isSome then .ok s
  else do
    match ← accepted R dep.reqs (if force_update then none else s.installed dep.name) with
    | some spec => .ok ((s.set dep.name spec.version).enqueue_runtime_deps (some spec) dep.groups)
    | none =>
      match ← fetch_version R W (s.installed dep.name) dep.name dep.reqs force_update with
      | none => .ok { s with errors := s.errors ++ [bytes_of "Could not find gem '" ++ dep.name ++ bytes_of "'"] }
      | some version =>
        let spec := W.published dep.name version
        .ok (((s.install W dep.name version).set dep.name version).enqueue_runtime_deps (some spec) dep.groups)

/-- At most `count` turns; without a state if these are too few. -/
def loop (force_update : Bool) : Nat → Resolver → Except Raised (Option Resolver)
  | 0, _ => .ok none
  | count + 1, s =>
    match s.queue with
    | [] => .ok (some s)
    | dep :: rest => do loop force_update count (← take R W force_update dep { s with queue := rest })

end Resolver

def initial (config : Config) (dependencies : List Dep) : Resolver :=
  let queue := W.active_dependencies config dependencies
  { queue, queued := queue.map Dep.name, resolved := [], errors := [], new_installed := 0, installed := W.found }

/-- The state in which the loop of resolve_and_install ends. -/
def resolve (config : Config) (force_update : Bool) (count : Nat) (dependencies : List Dep) :
    Except Raised (Option Resolver) :=
  (initial W config dependencies).loop R W force_update count

/-- What resolve_and_install returns at that state. -/
def Resolver.outcome (s : Resolver) : Option (List (Text × Text) × Nat) :=
  if s.errors = [] then some (s.resolved, s.new_installed) else none

end resolve

end stoned.bundle
