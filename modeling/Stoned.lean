import Stoned.Program.Basic
import Stoned.Program.Run
import Stoned.Program.Loop
import Stoned.Program.Wp
import Stoned.Program.Procedure
import Stoned.Program.Limit
import Stoned.Program.Total
import Stoned.Double
import Stoned.Ast
import Stoned.Value
import Stoned.Env
import Stoned.Frames
import Stoned.State
import Stoned.Ops
import Stoned.Calls
import Stoned.Heap
import Stoned.Raise
import Stoned.Params
import Stoned.Classes
import Stoned.Invoke
import Stoned.Dispatch
import Stoned.Constants
import Stoned.Assign
import Stoned.Pattern
import Stoned.Begin
import Stoned.Loops
import Stoned.Kernel
import Stoned.Arguments
import Stoned.CallNode
import Stoned.Super
import Stoned.Define
import Stoned.Operators
import Stoned.Cases
import Stoned.Node
import Stoned.Evaluator
import Stoned.Numbers
import Stoned.BeginLaw
import Stoned.LoopLaw
import Stoned.Throw
import Stoned.ParamLaw
import Stoned.TransportLaw
import Stoned.ArityLaw
import Stoned.ScopeLaw
import Stoned.Mro
import Stoned.CallLaw
import Stoned.OpAssignLaw
import Stoned.ReceiverLaw
import Stoned.HashLaw
import Stoned.EqualLaw
import Stoned.ContentHash
import Stoned.Keys
import Stoned.Lexer
import Stoned.Interpolation
import Stoned.Scan
import Stoned.Passing
import Stoned.OperandLaw
import Stoned.Scanned
import Stoned.HeredocLaw
import Stoned.HeredocRun
import Stoned.Forward
import Stoned.Settle
import Stoned.Ends
import Stoned.HeredocLayout
import Stoned.Parser
import Stoned.Expression
import Stoned.Primary
import Stoned.Statement
import Stoned.Closing
import Stoned.Inspect
import Stoned.InString
import Stoned.Parsing
import Stoned.Whole
import Stoned.Returning
import Stoned.Progress
import Stoned.RopeLaw
import Stoned.InspectLaw
import Stoned.Codec
import Stoned.Utf8
import Stoned.Program.Admitted
import Stoned.Program.Interpret
import Stoned.Require
import Stoned.RequireLaw
import Stoned.Context
import Stoned.Keeping
import Stoned.KeepingNode
import Stoned.StackLaw
import Stoned.FileLaw
import Stoned.Lazy
import Stoned.LazyLaw
import Stoned.LazyChain
import Stoned.LazyExact
import Stoned.Arrays
import Stoned.Program.Buffer
import Stoned.ArrayList
import Stoned.ArrayMemory
import Stoned.ArrayEnds
import Stoned.ArrayMiddle
import Stoned.ArraySlice
import Stoned.ArrayRun
import Stoned.Hashes
import Stoned.Program.Triple
import Stoned.HashUnique
import Stoned.HashRun
import Stoned.EnvMirror
import Stoned.EnvRun
import Stoned.Program.Replace
import Stoned.DestructLaw
import Stoned.ArrayPatternLaw
import Stoned.Program.Bytes
import Stoned.Pack
import Stoned.PackLaw
import Stoned.Versions
import Stoned.VersionText
import Stoned.RequirementLaw
import Stoned.VersionLaw
import Stoned.Bundle
import Stoned.BundleLaw
import Stoned.Lockfile
import Stoned.LockfileLaw
import Stoned.AutosplatLaw
import Stoned.ClassGraph
import Stoned.VisibilityLaw
import Stoned.IsALaw
import Stoned.SingletonLaw
import Stoned.HashPatternLaw
import Stoned.KeywordLaw
import Stoned.RopeRun
import Stoned.BareSuper
import Stoned.SuperLaw
import Stoned.Program.Printf
import Stoned.Utf8Text
import Stoned.Format
import Stoned.FormatLaw
import Stoned.DoubleOrder
import Stoned.IntegerDivision
import Stoned.PathLaw
import Stoned.IntegerLiteral
import Stoned.Program.Numeral
import Stoned.FormatInteger
import Stoned.SquigglyLaw
import Stoned.EscapeLaw
import Stoned.Nesting
import Stoned.PositionLaw
import Stoned.StringOrder
import Stoned.Utf8Index
import Stoned.Subscript
import Stoned.SubscriptLaw
import Stoned.SliceAssignLaw
import Stoned.Iterators
import Stoned.FilterLaw
import Stoned.IteratorRun
import Stoned.BangLaw
import Stoned.FindLaw
import Stoned.Matches
import Stoned.MatchesLaw
import Stoned.SubstituteLaw
import Stoned.StringMethods
import Stoned.StringBangLaw
import Stoned.PathBound
import Stoned.IntegerRounding
import Stoned.PessimisticLaw
import Stoned.RopeStack
import Stoned.DoubleExact
import Stoned.Powers
import Stoned.Rational
import Stoned.RationalRounding
import Stoned.RationalLaw
import Stoned.Date
import Stoned.QuotedLaw
import Stoned.BundleConfig
import Stoned.Combinations
import Stoned.CombinationsLaw
import Stoned.Bsearch
import Stoned.BsearchLaw
import Stoned.Program.Counting
import Stoned.Program.Insertion
import Stoned.RangeQuery
import Stoned.SortLaw
import Stoned.PercentLaw
