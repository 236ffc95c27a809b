import Stoned.Bundle

namespace stoned.bundle

open rubygems

/-! The lockfile: its text, and what is read from it (exe/bundle). -/

section read

def newline : UInt8 := 0x0a

/-- The matches of the expressions for the lines of a lockfile. -/
structure LockLines where
  /-- `/^(GEM|PATH|GIT|PLATFORMS|DEPENDENCIES|BUNDLED WITH)\s*$/` and its group -/
  heading : Text → Option Text
  /-- `/^\s{4}(\S+)\s+\(([^)]+)\)/` and its groups -/
  entry : Text → Option (Text × Text)

/-- File.readlines: at most 4095 bytes at a time, up to the end of a line. -/
def readlines_from (line : Text) : Text → List Text
  | [] => if line = [] then [] else [line]
  | c :: rest =>
    if c = newline ∨ line.length + 1 = 4095 then (line ++ [c]) :: readlines_from [] rest
    else readlines_from (line ++ [c]) rest

def readlines (text : Text) : List Text := readlines_from [] text

/-- String#chomp. -/
def chomp (s : Text) : Text :=
  match s.reverse with
  | 0x0a :: 0x0d :: before => before.reverse
  | 0x0a :: before => before.reverse
  | 0x0d :: before => before.reverse
  | _ => s

/-- A hash of strings. -/
abbrev Gems := List (Text × Text)

def Gems.set (gems : Gems) (name version : Text) : Gems :=
  if gems.any (·.1 = name) then gems.map fun gem => if gem.1 = name then (name, version) else gem
  else gems ++ [(name, version)]

variable (E : LockLines)

/-- One line, read in a section. -/
def read_line (state : Option Text × Gems) (line : Text) : Option Text × Gems :=
  let stripped := chomp line
  match E.heading stripped with
  | some heading => (some heading, state.2)
  | none =>
    match E.entry stripped with
    | none => state
    | some (name, version) =>
      let sourced := state.1 = some (bytes_of "PATH") ∨ state.1 = some (bytes_of "GIT")
      (state.1, state.2.set name (if sourced then bytes_of "path" else version))

/-- Lockfile.read. -/
def read_lockfile (text : Text) : Gems := ((readlines text).foldl (read_line E) (none, [])).2

end read

section write

/-- Enumerable#sort_by with a name as the key. -/
def sort_by_name {α : Type} (name : α → Text) (xs : List α) : Except Raised (List α) :=
  sort (fun a b => Segment.cmp (.text (name a)) (.text (name b))) xs

def entry_line (name version : Text) : Text := bytes_of "    " ++ name ++ bytes_of " (" ++ version ++ bytes_of ")"

/-- The version written for a gem with a path. -/
def real_version (dep : Dep) (version : Text) : Text :=
  match dep.spec with
  | some spec => spec.version
  | none => if version = bytes_of "path" then bytes_of "0" else version

/-- The server's address, this program's version, and File.expand_path. -/
structure Paths where
  server : Text
  bundle_version : Text
  expand_path : Text → Text

variable (F : Paths)

def gem_lines (gem_gems : Gems) : List Text :=
  if gem_gems = [] then []
  else [bytes_of "GEM", bytes_of "  remote: " ++ F.server ++ bytes_of "/", bytes_of "  specs:"] ++
    gem_gems.map (fun gem => entry_line gem.1 gem.2) ++ [[]]

/-- The lines of a gem with a path: its name, its path, and its version. -/
def path_lines (gem : Text × Text × Text) : List Text :=
  [bytes_of "PATH", bytes_of "  remote: " ++ F.expand_path gem.2.1, bytes_of "  specs:",
    entry_line gem.1 gem.2.2, []]

def dependency_line (dep : Dep) : Text :=
  let suffix := if dep.path.isSome then bytes_of "!" else []
  let req := if dep.reqs = [] then [] else bytes_of " (" ++ (bytes_of ", ").intercalate dep.reqs ++ bytes_of ")"
  bytes_of "  " ++ dep.name ++ req ++ suffix

def dependency_lines (top_deps : List Dep) : List Text :=
  if top_deps = [] then [] else bytes_of "DEPENDENCIES" :: top_deps.map dependency_line ++ [[]]

def platform_lines : List Text := [bytes_of "PLATFORMS", bytes_of "  ruby", []]

def version_lines : List Text := [bytes_of "BUNDLED WITH", bytes_of "   " ++ F.bundle_version, []]

def find_dep (deps : List Dep) (name : Text) : Option Dep := deps.find? (·.name = name)

/-- The gems that are written without a path. -/
def gem_gems (path_by_name : List Dep) (resolved : Gems) : Gems :=
  resolved.filter fun gem => (find_dep path_by_name gem.1).isNone && gem.2 ≠ bytes_of "path"

/-- The gems that are written with their paths. -/
def path_gems (path_by_name : List Dep) (resolved : Gems) : List (Text × Text × Text) :=
  resolved.filterMap fun gem =>
    (find_dep path_by_name gem.1).map fun dep => (gem.1, dep.path.getD [], real_version dep gem.2)

/-- Lockfile.write: the text of the file. -/
def write_lockfile (resolved : Gems) (path_by_name top_deps : List Dep) : Except Raised Text := do
  let resolved ← sort_by_name Prod.fst resolved
  let gems ← sort_by_name Prod.fst (gem_gems path_by_name resolved)
  let paths ← sort_by_name Prod.fst (path_gems path_by_name resolved)
  let deps ← sort_by_name Dep.name top_deps
  return [newline].intercalate (gem_lines F gems ++ paths.flatMap (path_lines F) ++ platform_lines ++
    dependency_lines deps ++ version_lines F)

end write

section arguments

/-- The dependencies of lockfile_write_args that have a path. -/
def World.path_by_name (W : World) (dependencies : List Dep) : List Dep :=
  (W.expanded_dependencies dependencies).filter fun dep => dep.path.isSome && !dep.from_gemspec

/-- One declaration. One with a path takes the place of an earlier one without. -/
def top_dep_each (top_deps : List Dep) (dep : Dep) : List Dep :=
  match find_dep top_deps dep.name with
  | none => top_deps ++ [dep]
  | some existing =>
    if dep.path.isSome && existing.path.isNone then
      top_deps.map fun other => if other.name = dep.name then dep else other
    else top_deps

def top_deps (dependencies : List Dep) : List Dep :=
  (dependencies.filter fun dep => !dep.from_gemspec).foldl top_dep_each []

def lock_each (locked : Gems) (dep : Dep) : Gems :=
  if locked.any (·.1 = dep.name) then locked
  else if dep.path.isSome && !dep.from_gemspec then locked ++ [(dep.name, bytes_of "path")]
  else
    match dep.spec with
    | some spec => locked ++ [(dep.name, spec.version)]
    | none => locked

def World.lockfile_resolved_dependencies (W : World) (dependencies : List Dep) (resolved : Gems) : Gems :=
  (W.expanded_dependencies dependencies).foldl lock_each resolved

/-- The value a hash has for a key. -/
def Gems.value (gems : Gems) (name : Text) : Option Text := (gems.find? (·.1 = name)).map Prod.snd

/-- The test of `install --frozen`. -/
def drift (new_lock existing : Gems) : Bool :=
  new_lock.any (fun gem => existing.value gem.1 ≠ new_lock.value gem.1) ||
    existing.any fun gem => !new_lock.any (·.1 = gem.1)

end arguments

end stoned.bundle
