import Stoned.Program.Basic
import Stoned.Double

namespace stoned

/-- Source location; every node carries one. -/
structure Span where
  line : UInt32
  col : UInt32
  len : UInt32
  deriving DecidableEq, Repr

/-- An interpolated string over nodes of type `N`. -/
inductive RopeNode (N : Type) where
  | lit (bytes : String)
  | expr (node : N)
  | cat (left right : RopeNode N)

/-- The syntax tree, one constructor for each node kind, with the fields of
that kind in the order of the source. A pointer that may be null is an
`Option`; the lists hold no null entries. -/
inductive Node where
  | int (span : Span) (ival : Int64)
  | float (span : Span) (fval : Double)
  | string (span : Span) (sval : String)
  | symbol (span : Span) (sval : String)
  | nil (span : Span)
  | true (span : Span)
  | false (span : Span)
  | self (span : Span)
  | array (span : Span) (elements : List Node)
  | hash (span : Span) (pairs : List Node) (keyword_style : Bool)
  | pair (span : Span) (key : Option Node) (value : Node)
  | range (span : Span) (beginning ending : Option Node) (exclusive : Bool)
  | lvar (span : Span) (sval : String)
  | ivar (span : Span) (sval : String)
  | cvar (span : Span) (sval : String)
  | gvar (span : Span) (sval : String)
  | const (span : Span) (sval : String)
  | const_access (span : Span) (recv : Node) (name : String)
  | assign (span : Span) (target value : Node)
  | op_assign (span : Span) (op : String) (left right : Node)
  | binop (span : Span) (op : String) (left right : Node)
  | unop (span : Span) (op : String) (operand : Node)
  | call (span : Span) (recv : Option Node) (method : String) (args : List Node)
      (block : Option Node) (safe_nav : Bool)
  | block (span : Span) (params : List Node) (body : Option Node)
  | if_ (span : Span) (cond : Node) (then_body else_body : Option Node)
  | unless_ (span : Span) (cond : Node) (then_body else_body : Option Node)
  | while_ (span : Span) (cond : Node) (body : Option Node) (post_test : Bool)
  | until_ (span : Span) (cond : Node) (body : Option Node) (post_test : Bool)
  | for_ (span : Span) (target iterable : Node) (body : Option Node)
  | begin_ (span : Span) (body : Option Node) (rescues : List Node) (else_body ensure_body : Option Node)
  | rescue_ (span : Span) (exception_classes : List Node) (exception_var : Option String)
      (body : Option Node)
  | return_ (span : Span) (value : Option Node)
  | break_ (span : Span) (value : Option Node)
  | next_ (span : Span) (value : Option Node)
  | retry_ (span : Span)
  | def_ (span : Span) (recv : Option Node) (name : String) (params : List Node) (body : Option Node)
  | class_ (span : Span) (name : String) (superclass body : Option Node)
  | sclass (span : Span) (recv : Node) (body : Option Node)
  | module_ (span : Span) (name : String) (body : Option Node)
  | alias_ (span : Span) (new_name old_name : String)
  | param (span : Span) (name : Option String) (default_val : Option Node)
      (splat block_param keyword_param keyword_splat : Bool)
  | case_ (span : Span) (subject : Option Node) (whens : List Node) (else_body : Option Node)
  | when_ (span : Span) (patterns : List Node) (body : Option Node)
  | patcase (span : Span) (subject : Node) (ins : List Node) (else_body : Option Node)
  | in_ (span : Span) (pattern guard body : Option Node)
  | pattern_array (span : Span) (elements : List Node) (has_rest has_pre_rest : Bool)
      (rest_name pre_rest_name : Option String)
  | pattern_hash (span : Span) (elements : List Node) (has_rest : Bool) (rest_name : Option String)
  | pattern_capture (span : Span) (pattern : Option Node) (name : Option String)
  | pattern_pin (span : Span) (sval : String)
  | pattern_or (span : Span) (left right : Node)
  | super (span : Span) (args : List Node) (forward_args : Bool)
  | block_pass (span : Span) (expr : Option Node)
  | defined (span : Span) (expr : Option Node)
  | regexp (span : Span) (pattern : String) (options : UInt32)
  | rope (span : Span) (rope : RopeNode Node)
  | prog_begin (span : Span) (body : Option Node)
  | prog_end (span : Span) (body : Option Node)
  | body (span : Span) (stmts : List Node)
  | program (span : Span) (stmts : List Node)

def Node.span : Node → Span
  | .int span .. | .float span .. | .string span .. | .symbol span .. | .nil span ..
  | .true span .. | .false span .. | .self span .. | .array span .. | .hash span .. | .pair span ..
  | .range span .. | .lvar span .. | .ivar span .. | .cvar span .. | .gvar span .. | .const span ..
  | .const_access span .. | .assign span .. | .op_assign span .. | .binop span .. | .unop span ..
  | .call span .. | .block span .. | .if_ span .. | .unless_ span .. | .while_ span ..
  | .until_ span .. | .for_ span .. | .begin_ span .. | .rescue_ span .. | .return_ span ..
  | .break_ span .. | .next_ span .. | .retry_ span .. | .def_ span .. | .class_ span ..
  | .sclass span .. | .module_ span .. | .alias_ span .. | .param span .. | .case_ span ..
  | .when_ span .. | .patcase span .. | .in_ span .. | .pattern_array span ..
  | .pattern_hash span .. | .pattern_capture span .. | .pattern_pin span .. | .pattern_or span ..
  | .super span .. | .block_pass span .. | .defined span .. | .regexp span .. | .rope span ..
  | .prog_begin span .. | .prog_end span .. | .body span .. | .program span .. => span

end stoned
