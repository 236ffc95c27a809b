import Stoned.Raise
import Stoned.Program.Interpret

namespace stoned.loading

open program

/-! Loading source files (eval_support.c). -/

/-- A path with the ending of a source file. -/
def with_rb (path : List Char) : List Char := if ".rb".toList.isSuffixOf path then path else path ++ ".rb".toList

/-- One more segment of a path, whose newest segment is first. -/
def push_segment (abs : Bool) (segments : List (List Char)) (part : List Char) : List (List Char) :=
  if part = ['.'] then segments
  else if part = ['.', '.'] then
    match segments with
    | last :: rest => if last ≠ ['.', '.'] then rest else if abs then segments else part :: segments
    | [] => if abs then [] else [part]
  else part :: segments

def normalize_path (path : List Char) : String :=
  let abs := path.head? = some '/'
  let parts := (path.splitOn '/').filter (· ≠ [])
  let segments := parts.foldl (push_segment abs) []
  let joined := ['/'].intercalate segments.reverse
  String.ofList (if abs then '/' :: joined else if segments = [] then ['.'] else joined)

def normalize_require_target (path : List Char) : String := normalize_path (with_rb path)

/-- The directory of a file, without its slash. -/
def dir_of (file : List Char) : List Char := ((file.reverse.dropWhile (· ≠ '/')).drop 1).reverse

def join_dir (dir rel : List Char) : List Char := if dir = [] then rel else dir ++ '/' :: rel

def resolve_relative_path (base_file rel : String) : String :=
  if rel.toList.head? = some '/' then normalize_require_target rel.toList
  else normalize_require_target (join_dir (dir_of base_file.toList) rel.toList)

def resolve_from_dir (dir rel : String) : String :=
  if rel.toList.head? = some '/' then normalize_require_target rel.toList
  else normalize_require_target (join_dir dir.toList rel.toList)

/-- A path without a slash is looked for under the base, also when that is a
file. -/
def resolve_require_path (base path : String) (base_is_dir : Bool) : String :=
  if path.toList.head? = some '/' then normalize_require_target path.toList
  else if path.toList.contains '/' then
    if base_is_dir then resolve_from_dir base path else resolve_relative_path base path
  else resolve_from_dir base path

/-- The libraries that come with the interpreter: those that are always there,
those whose source it has, and the parts of rubygems. -/
inductive Library where
  | ready
  | shim (name : String)
  | rubygems_part
  deriving DecidableEq

/-- The libraries that are there without being loaded. -/
def READY : List String :=
  ["singleton", "pathname", "io/console", "io/console/size", "shellwords", "open3", "color_printer", "cgi", "yaml",
    "uri", "logger", "digest", "base64", "observer", "tmpdir", "socket", "fileutils"]

def SHIMS : List (String × String) :=
  [("prism", "prism_shim"), ("reline", "reline_shim"), ("stringio", "stringio_shim"), ("pp", "pp_shim"),
    ("json", "json_shim"), ("set", "set_shim"), ("date", "date_shim"), ("thread", "thread_shim"),
    ("forwardable", "forwardable_shim"), ("ostruct", "ostruct_shim"), ("tempfile", "tempfile_shim"),
    ("etc", "etc_shim"), ("weakref", "weakref_shim"), ("timeout", "timeout_shim"), ("monitor", "monitor_shim"),
    ("zlib", "zlib_shim"), ("strscan", "strscan_shim"), ("rubygems", "rubygems_shim")]

def RUBYGEMS_PARTS : List String :=
  ["rubygems/dependency", "rubygems/deprecate", "rubygems/platform", "rubygems/specification",
    "rubygems/stub_specification", "rubygems/name_tuple", "rubygems/source", "rubygems/user_interaction",
    "rubygems/command"]

/-- A library is named with or without its ending. -/
def names (path library : String) : Bool := path = library || path = library ++ ".rb"

def library (path : String) : Option Library :=
  if READY.any (names path) then some .ready
  else if path = "json/common" || path = "json/pure" then some (.shim "json_shim")
  else if RUBYGEMS_PARTS.any (names path) then some .rubygems_part
  else (SHIMS.find? fun shim => names path shim.1).map fun shim => .shim shim.2

/-- What evaluating a file's statements does besides loading files: steps of its
own, and changes of `current_file` for the methods and blocks it calls. -/
inductive ScriptOp (S : Signature) where
  | own (op : S.Op)
  | current_file
  | set_current_file (file : Option String)

def script_ops (S : Signature) : Signature where
  Op := ScriptOp S
  Answer
    | .own op => S.Answer op
    | .current_file => Option String
    | .set_current_file _ => Unit

inductive ScriptCall where
  | require (path : String)
  | require_relative (path : String)

def script_calls : Signature where
  Op := ScriptCall
  Answer _ := Value

/-- The statements of a file. -/
abbrev Script (S : Signature) : Type := Program ((script_ops S).withCalls script_calls) Value

/-- What is noted of a run, of which the source keeps nothing. -/
inductive Event where
  | required (path : String)
  | evaluated (path : String)
  | answered (path : String) (v : Value)

inductive LoaderOp (S : Signature) where
  | script (op : ScriptOp S)
  | has_loaded_file (path : String)
  | mark_loaded_file (path : String)
  | load_path
  | raise (class_name message : String)
  | note (event : Event)

def loader_ops (S : Signature) : Signature where
  Op := LoaderOp S
  Answer
    | .script op => (script_ops S).Answer op
    | .has_loaded_file _ => Bool
    | .load_path => List (Option String)
    | .mark_loaded_file _ | .raise .. | .note _ => Unit

inductive LoaderCall (Tree : Type) where
  | script (call : ScriptCall)
  | require_path (resolved display_path : String)
  | eval_file (path : String) (tree : Tree)
  | eval_shim (name : String)

def loader_calls (Tree : Type) : Signature where
  Op := LoaderCall Tree
  Answer _ := Value

/-- The state of a loading evaluator. The newest entries of both lists are
first. -/
structure Loader (σ : Type) where
  own : σ
  current_file : Option String
  loaded_files : List String
  trace : List Event

/-- The files and what evaluating their statements does. -/
structure World (S : Signature) (σ Tree : Type) where
  machine : Machine S σ
  /-- eval_raise_class -/
  raise : String → String → σ → σ
  /-- the entries of `$LOAD_PATH`, of which only the strings count -/
  load_path : σ → List (Option String)
  realpath : String → Option String
  /-- a file that can be opened -/
  fopen : String → Bool
  read_file_bytes : String → Option (List Char)
  /-- the line and column of the first byte that is no UTF-8 -/
  utf8_validate : List Char → Option (Nat × Nat)
  /-- the tree, or the first error's message -/
  parse_program : List Char → Except String Tree
  sema_run : Tree → Option String
  eval_node : Tree → Script S
  /-- the source of a library that comes with the interpreter -/
  shim : String → Program (script_ops S) Value

section
variable {S : Signature} {σ Tree : Type}

/-- Programs of the loader. -/
abbrev L (S : Signature) (Tree α : Type) : Type := Program ((loader_ops S).withCalls (loader_calls Tree)) α

def op (o : LoaderOp S) : L S Tree ((loader_ops S).Answer o) :=
  perform (S := (loader_ops S).withCalls (loader_calls Tree)) (.inl o)

def call (c : LoaderCall Tree) : L S Tree Value :=
  perform (S := (loader_ops S).withCalls (loader_calls Tree)) (.inr c)

def current_file : L S Tree (Option String) := op (.script .current_file)
def set_current_file (file : Option String) : L S Tree Unit := op (.script (.set_current_file file))
def eval_has_loaded_file (path : String) : L S Tree Bool := op (.has_loaded_file path)
def eval_mark_loaded_file (path : String) : L S Tree Unit := op (.mark_loaded_file path)
def eval_load_path : L S Tree (List (Option String)) := op .load_path
def note (event : Event) : L S Tree Unit := op (.note event)

def eval_raise_class (class_name message : String) : L S Tree Value := do
  op (.raise class_name message)
  return .exception

/-- A step of a file's statements, whose calls are the loader's. -/
def script_step : (o : ((script_ops S).withCalls script_calls).Op) →
    L S Tree (((script_ops S).withCalls script_calls).Answer o)
  | .inl o => op (.script o)
  | .inr c => call (.script c)

def statements (p : Script S) : L S Tree Value := p.interpret script_step

/-- The source of a library, which loads no files. -/
def shim_statements (p : Program (script_ops S) Value) : L S Tree Value := p.interpret fun o => script_step (.inl o)

def eval_require_relative (path : String) : L S Tree Value := do
  match ← current_file with
  | none => eval_raise_class "LoadError" "require_relative requires a current file"
  | some file => call (.require_path (resolve_relative_path file path) path)

/-- What is done behind irb.rb, for its effects. -/
def patch_irb (path : String) : L S Tree Unit :=
  if "/irb.rb".toList.isSuffixOf path.toList then call (.eval_shim "irb_patch") >>= fun _ => return () else return ()

/-- The statements of a file are evaluated and the file is marked. -/
def eval_loaded (canonical_path : String) (tree : Tree) : L S Tree Value := do
  let previous_file ← current_file
  set_current_file (some canonical_path)
  let result ← call (.eval_file canonical_path tree)
  set_current_file previous_file
  if val_is_signal result then return result
  eval_mark_loaded_file canonical_path
  patch_irb canonical_path
  return .bool true

namespace World
variable (W : World S σ Tree)

def canonical_existing_path (path : String) : String := (W.realpath path).getD path

/-- Reads a file up to its tree, or answers the message of the LoadError. -/
def load (path display_path : String) : Except String Tree :=
  match W.read_file_bytes path with
  | none => .error ("cannot load such file -- " ++ display_path)
  | some src =>
    match W.utf8_validate src with
    | some (line, col) =>
      .error ("invalid UTF-8 in source -- " ++ display_path ++ ":" ++ toString line ++ ":" ++ toString col)
    | none =>
      match W.parse_program src with
      | .error message => .error ("parse error in " ++ display_path ++ ": " ++ message)
      | .ok tree =>
        match W.sema_run tree with
        | some message => .error ("sema error in " ++ display_path ++ ": " ++ message)
        | none => .ok tree

def eval_require_path (resolved display_path : String) : L S Tree Value := do
  let canonical_path := W.canonical_existing_path resolved
  if ← eval_has_loaded_file canonical_path then return .bool false
  match W.load canonical_path display_path with
  | .error message => eval_raise_class "LoadError" message
  | .ok tree => eval_loaded canonical_path tree

/-- A path that a file can be opened at, when looked for from a base. -/
def found_from (path : String) (base : Option String) (base_is_dir : Bool) : Option String :=
  (base.map fun base => resolve_require_path base path base_is_dir).filter W.fopen

/-- A file is looked for from the current one and then in `$LOAD_PATH`. -/
def require_file (path : String) : L S Tree Value := do
  match W.found_from path (← current_file) false with
  | some resolved => call (.require_path resolved resolved)
  | none =>
    match (← eval_load_path).findSome? fun entry => W.found_from path entry true with
    | some resolved => call (.require_path resolved resolved)
    | none => eval_raise_class "LoadError" ("cannot load such file -- " ++ path)

def eval_require (path : String) : L S Tree Value :=
  match library path with
  | some .ready => return .bool true
  | some (.shim name) => do
    let result ← call (.eval_shim name)
    if val_is_signal result then return result
    return .bool true
  | some .rubygems_part => call (.script (.require "rubygems"))
  | none => W.require_file path

/-- The loader's functions, with what is noted of them. -/
def procedures : (c : LoaderCall Tree) → L S Tree Value
  | .script (.require path) => W.eval_require path
  | .script (.require_relative path) => eval_require_relative path
  | .require_path resolved display_path => do
    let canonical_path := W.canonical_existing_path resolved
    note (.required canonical_path)
    let v ← W.eval_require_path resolved display_path
    note (.answered canonical_path v)
    return v
  | .eval_file path tree => do
    note (.evaluated path)
    statements (W.eval_node tree)
  | .eval_shim name => shim_statements (W.shim name)

def exec : (o : LoaderOp S) → Loader σ → Option ((loader_ops S).Answer o × Loader σ)
  | .script (.own o), s => (W.machine.exec o s.own).map fun out => (out.1, { s with own := out.2 })
  | .script .current_file, s => some (s.current_file, s)
  | .script (.set_current_file current_file), s => some ((), { s with current_file })
  | .has_loaded_file path, s => some (s.loaded_files.contains path, s)
  | .mark_loaded_file path, s => some ((), { s with loaded_files := path :: s.loaded_files })
  | .load_path, s => some (W.load_path s.own, s)
  | .raise class_name message, s => some ((), { s with own := W.raise class_name message s.own })
  | .note event, s => some ((), { s with trace := event :: s.trace })

def loader_machine : Machine (loader_ops S) (Loader σ) where
  exec := W.exec

/-- The main file is evaluated without being marked (main.c). -/
def eval_main (path : String) (tree : Tree) : L S Tree Value := do
  set_current_file (some path)
  call (.eval_file (W.canonical_existing_path path) tree)

end World

/-- The evaluator before the main file. -/
def eval_init (own : σ) : Loader σ := { own, current_file := none, loaded_files := [], trace := [] }

end
end stoned.loading
