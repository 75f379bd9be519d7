import Excerpt.Closure.Basic
import Excerpt.Closure.Dependency
import Excerpt.Closure.Memo
import Excerpt.Command.Argument
import Excerpt.Command.Options
import Excerpt.Command.Outcome
import Excerpt.Config.Basic
import Excerpt.Config.Decode
import Excerpt.Constant.Expression
import Excerpt.Constant.Literal
import Excerpt.Constant.Operator
import Excerpt.Data.Sorted
import Excerpt.Draft.Basic
import Excerpt.Draft.Declare
import Excerpt.Draft.File
import Excerpt.Draft.Macro
import Excerpt.Emission.Basic
import Excerpt.Emission.Edit
import Excerpt.Error
import Excerpt.Extraction
import Excerpt.File.Header
import Excerpt.File.Path
import Excerpt.File.System
import Excerpt.Main
import Excerpt.Program.Basic
import Excerpt.Program.Build
import Excerpt.Program.EnumValue
import Excerpt.Program.Outermost
import Excerpt.Program.Pointer
import Excerpt.Program.Region
import Excerpt.Program.Stmt
import Excerpt.Program.Timeline
import Excerpt.Program.Walk
import Excerpt.Proofs.Closure.ArraySizes
import Excerpt.Proofs.Closure.Chains
import Excerpt.Proofs.Closure.Enclosure
import Excerpt.Proofs.Closure.Exactness
import Excerpt.Proofs.Closure.Marking
import Excerpt.Proofs.Closure.Memo
import Excerpt.Proofs.Closure.Monotone
import Excerpt.Proofs.Closure.Order
import Excerpt.Proofs.Closure.Pointers
import Excerpt.Proofs.Closure.Replacements
import Excerpt.Proofs.Closure.Rules
import Excerpt.Proofs.Closure.Run
import Excerpt.Proofs.Closure.Saturation
import Excerpt.Proofs.Closure.Termination
import Excerpt.Proofs.Command.Normalization
import Excerpt.Proofs.Constant.Arithmetic
import Excerpt.Proofs.Constant.Evaluation
import Excerpt.Proofs.Constant.Grammar
import Excerpt.Proofs.Constant.Literals
import Excerpt.Proofs.Constant.Substitution
import Excerpt.Proofs.Data.Halving
import Excerpt.Proofs.Data.Search
import Excerpt.Proofs.Data.Sorted
import Excerpt.Proofs.Draft.Agreement
import Excerpt.Proofs.Draft.Arrays
import Excerpt.Proofs.Draft.Carrying
import Excerpt.Proofs.Draft.Comments
import Excerpt.Proofs.Draft.Confining
import Excerpt.Proofs.Draft.Consistency
import Excerpt.Proofs.Draft.Cycles
import Excerpt.Proofs.Draft.Declarators
import Excerpt.Proofs.Draft.Definitions
import Excerpt.Proofs.Draft.Expansion
import Excerpt.Proofs.Draft.Files
import Excerpt.Proofs.Draft.Folding
import Excerpt.Proofs.Draft.Formation
import Excerpt.Proofs.Draft.Forming
import Excerpt.Proofs.Draft.Interning
import Excerpt.Proofs.Draft.ItemCode
import Excerpt.Proofs.Draft.ItemLayout
import Excerpt.Proofs.Draft.Laying
import Excerpt.Proofs.Draft.Layout
import Excerpt.Proofs.Draft.Lowering
import Excerpt.Proofs.Draft.MacroLines
import Excerpt.Proofs.Draft.MacroReferences
import Excerpt.Proofs.Draft.MacroTable
import Excerpt.Proofs.Draft.MacroUses
import Excerpt.Proofs.Draft.Numbering
import Excerpt.Proofs.Draft.Openings
import Excerpt.Proofs.Draft.Places
import Excerpt.Proofs.Draft.ReadOnce
import Excerpt.Proofs.Draft.Reader
import Excerpt.Proofs.Draft.Reading
import Excerpt.Proofs.Draft.ScopeDiscipline
import Excerpt.Proofs.Draft.Scoping
import Excerpt.Proofs.Draft.Sizes
import Excerpt.Proofs.Draft.Sorts
import Excerpt.Proofs.Draft.Steps
import Excerpt.Proofs.Draft.Tour
import Excerpt.Proofs.Draft.Tracing
import Excerpt.Proofs.Draft.Uncommented
import Excerpt.Proofs.Draft.UnitSizes
import Excerpt.Proofs.Draft.Units
import Excerpt.Proofs.Draft.WellFormed
import Excerpt.Proofs.Draft.Written
import Excerpt.Proofs.Emission.Edits
import Excerpt.Proofs.Emission.Fidelity
import Excerpt.Proofs.Emission.Inclusions
import Excerpt.Proofs.Emission.Items
import Excerpt.Proofs.Emission.Overlaps
import Excerpt.Proofs.Emission.Pointers
import Excerpt.Proofs.Emission.Presence
import Excerpt.Proofs.Emission.Redefinitions
import Excerpt.Proofs.Emission.References
import Excerpt.Proofs.Emission.Rewriting
import Excerpt.Proofs.Emission.Sources
import Excerpt.Proofs.Emission.Specifiers
import Excerpt.Proofs.Emission.Stream
import Excerpt.Proofs.Program.Access
import Excerpt.Proofs.Program.Build
import Excerpt.Proofs.Program.EnumValue
import Excerpt.Proofs.Program.Nesting
import Excerpt.Proofs.Program.Outermost
import Excerpt.Proofs.Program.Reduction
import Excerpt.Proofs.Program.Region
import Excerpt.Proofs.Program.Timeline
import Excerpt.Proofs.Program.Visibility
import Excerpt.Proofs.Program.Walk
import Excerpt.Proofs.Surface.Fit
import Excerpt.Proofs.Surface.Laminar
import Excerpt.Proofs.Surface.Placement
import Excerpt.Proofs.Surface.Tidy
import Excerpt.Proofs.Text.Keywords
import Excerpt.Proofs.Text.Lexemes
import Excerpt.Proofs.Text.Lines
import Excerpt.Proofs.Text.Respacing
import Excerpt.Proofs.Text.Slices
import Excerpt.Proofs.Text.Tiling
import Excerpt.Proofs.Text.Tokens
import Excerpt.Report.Basic
import Excerpt.Report.Json
import Excerpt.Session
import Excerpt.Span
import Excerpt.Surface.Basic
import Excerpt.Surface.Reading
import Excerpt.Text.Blank
import Excerpt.Text.Bytes
import Excerpt.Text.Keyword
import Excerpt.Text.Lines
import Excerpt.Text.Word
import Excerpt.Token
import Excerpt.Tree.Node
import Excerpt.Tree.Text
import Excerpt.Yaml.Basic
import Excerpt.Yaml.Document
import Excerpt.Yaml.Scalar
import Excerpt.Yaml.Source
import Excerpt.Yaml.Token
