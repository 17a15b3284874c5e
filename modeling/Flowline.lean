import Flowline.Text.Blank
import Flowline.Text.Range
import Flowline.Text.Mark
import Flowline.Text.Unassigned
import Flowline.Text.Hidden
import Flowline.Text.Split
import Flowline.Text.Quote
import Flowline.Text.Template
import Flowline.Number.Binary64
import Flowline.Number.Literal
import Flowline.Number.Shortest
import Flowline.Json.Basic
import Flowline.Json.Printer
import Flowline.Tree.Basic
import Flowline.Tree.Search
import Flowline.Tree.Dotted
import Flowline.Tree.Malformed
import Flowline.Tree.Codec
import Flowline.Diagnostic
import Flowline.Tree.Shape
import Flowline.Value.Basic
import Flowline.Value.Codec
import Flowline.Value.Reader
import Flowline.Line
import Flowline.Manifest
import Flowline.Manifest.Check
import Flowline.Scope
import Flowline.Store
import Flowline.LineStore
import Flowline.Lowering.Action
import Flowline.Lowering.Service
import Flowline.Lowering.Operand
import Flowline.Lowering.Plain
import Flowline.Lowering.Block
import Flowline.Lowering.Program
import Flowline.IndexedStore
import Flowline.Session
import Flowline.Proofs.Address
import Flowline.Proofs.Lines
import Flowline.Proofs.Links
import Flowline.Proofs.Action
import Flowline.Proofs.Moments
import Flowline.Proofs.Emission
import Flowline.Proofs.Lowers
import Flowline.Proofs.Growth
import Flowline.Proofs.Checked
import Flowline.Proofs.Layout
import Flowline.Proofs.Scoping
import Flowline.Proofs.Sessions
import Flowline.Proofs.Branches
import Flowline.Proofs.Frame
import Flowline.Proofs.Calls
import Flowline.Proofs.Grammar
import Flowline.Proofs.Reading
import Flowline.Proofs.Progress
import Flowline.Proofs.Bracketing
import Flowline.Proofs.Continuation
import Flowline.Proofs.Leaving
import Flowline.Proofs.Failing
import Flowline.Proofs.Changes
import Flowline.Proofs.Declarations
import Flowline.Proofs.Services
import Flowline.Proofs.Operands
import Flowline.Proofs.Reports
import Flowline.Proofs.Keys
import Flowline.Proofs.Alike
import Flowline.Proofs.Renumbering
import Flowline.Proofs.Rounding
import Flowline.Proofs.Numerals
import Flowline.Proofs.JsonText
import Flowline.Proofs.Encoding
import Flowline.Proofs.Decoding
import Flowline.Proofs.Templates
import Flowline.Proofs.Atomic
import Flowline.Proofs.Loops
import Flowline.Proofs.Expressions
import Flowline.Proofs.Placeholders
import Flowline.Proofs.SetLines
import Flowline.Proofs.Literals
import Flowline.Proofs.Traversal
import Flowline.Proofs.Integers
import Flowline.Proofs.Requests
import Flowline.Proofs.Arguments
import Flowline.Proofs.DocumentOrder
import Flowline.Proofs.Paths
import Flowline.Proofs.Tables
import Flowline.Proofs.Refinement
