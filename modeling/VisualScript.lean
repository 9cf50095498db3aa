import VisualScript.Assoc
import VisualScript.Blueprint
import VisualScript.Class.Basic
import VisualScript.Class.Function
import VisualScript.Class.Listing
import VisualScript.Class.Property
import VisualScript.Class.Value
import VisualScript.Compile.ClassShape
import VisualScript.Compile.Compilation
import VisualScript.Compile.Context
import VisualScript.Compile.ContextDocument
import VisualScript.Compile.Defaults
import VisualScript.Compile.Emit
import VisualScript.Compile.Environment
import VisualScript.Compile.Finish
import VisualScript.Compile.FunctionList
import VisualScript.Compile.Inline
import VisualScript.Compile.Jumps
import VisualScript.Compile.Lower
import VisualScript.Compile.Names
import VisualScript.Compile.NetName
import VisualScript.Compile.Order
import VisualScript.Compile.Precompile
import VisualScript.Compile.Properties
import VisualScript.Compile.Prune
import VisualScript.Compile.Schedule
import VisualScript.Compile.Statement
import VisualScript.Compile.Terminal
import VisualScript.Compile.Validate
import VisualScript.Component
import VisualScript.Error
import VisualScript.Expand.EventGraph
import VisualScript.Expand.Macros
import VisualScript.Expand.SpawnGrid
import VisualScript.Expand.Timelines
import VisualScript.Flags
import VisualScript.Graph.Basic
import VisualScript.Graph.Fragment
import VisualScript.Graph.Id
import VisualScript.Graph.Link
import VisualScript.Graph.Node
import VisualScript.Graph.NodeKind
import VisualScript.Graph.Pin
import VisualScript.Graph.PinType
import VisualScript.Graph.Slots
import VisualScript.Handler.Call
import VisualScript.Handler.Dispatch
import VisualScript.Handler.Entry
import VisualScript.Handler.Flow
import VisualScript.Handler.State
import VisualScript.Handler.Variable
import VisualScript.Json.Basic
import VisualScript.Json.Codec
import VisualScript.Json.Reader
import VisualScript.Json.Writer
import VisualScript.Log
import VisualScript.Metadata
import VisualScript.Name
import VisualScript.Numeric.Binary32
import VisualScript.Numeric.Decimal
import VisualScript.Numeric.Literal
import VisualScript.Numeric.Rounding
import VisualScript.Options
import VisualScript.Proofs.Class.Carrying
import VisualScript.Proofs.Class.Clashes
import VisualScript.Proofs.Class.Defaults
import VisualScript.Proofs.Class.Extension
import VisualScript.Proofs.Class.Layout
import VisualScript.Proofs.Class.Members
import VisualScript.Proofs.Code.Appending
import VisualScript.Proofs.Code.Comments
import VisualScript.Proofs.Code.Inlining
import VisualScript.Proofs.Code.Literals
import VisualScript.Proofs.Code.Schedule
import VisualScript.Proofs.Code.Supplies
import VisualScript.Proofs.Code.Twins
import VisualScript.Proofs.Code.Walk
import VisualScript.Proofs.Compile.Categories
import VisualScript.Proofs.Compile.Comments
import VisualScript.Proofs.Compile.Descent
import VisualScript.Proofs.Compile.Entering
import VisualScript.Proofs.Compile.EventGraph
import VisualScript.Proofs.Compile.Events
import VisualScript.Proofs.Compile.FallThrough
import VisualScript.Proofs.Compile.Floats
import VisualScript.Proofs.Compile.Frames
import VisualScript.Proofs.Compile.Handling
import VisualScript.Proofs.Compile.Isolation
import VisualScript.Proofs.Compile.Layout
import VisualScript.Proofs.Compile.Lineage
import VisualScript.Proofs.Compile.Listing
import VisualScript.Proofs.Compile.Origins
import VisualScript.Proofs.Compile.Overriding
import VisualScript.Proofs.Compile.Provenance
import VisualScript.Proofs.Compile.Pruning
import VisualScript.Proofs.Compile.Recompiling
import VisualScript.Proofs.Compile.Reroutes
import VisualScript.Proofs.Compile.Saving
import VisualScript.Proofs.Compile.Signatures
import VisualScript.Proofs.Compile.Simplification
import VisualScript.Proofs.Compile.Skeleton
import VisualScript.Proofs.Compile.Sources
import VisualScript.Proofs.Compile.Storage
import VisualScript.Proofs.Compile.Straightening
import VisualScript.Proofs.Compile.StubRuns
import VisualScript.Proofs.Compile.StubScripts
import VisualScript.Proofs.Compile.Targets
import VisualScript.Proofs.Compile.Twins
import VisualScript.Proofs.Compile.Walking
import VisualScript.Proofs.Flags
import VisualScript.Proofs.Graph.Cells
import VisualScript.Proofs.Graph.Consolidation
import VisualScript.Proofs.Graph.Expansion
import VisualScript.Proofs.Graph.Faults
import VisualScript.Proofs.Graph.Framing
import VisualScript.Proofs.Graph.Isomorphism
import VisualScript.Proofs.Graph.Linking
import VisualScript.Proofs.Graph.Operations
import VisualScript.Proofs.Graph.Pins
import VisualScript.Proofs.Graph.Splicing
import VisualScript.Proofs.Graph.Stubs
import VisualScript.Proofs.Graph.Transfer
import VisualScript.Proofs.Graph.Widening
import VisualScript.Proofs.Json.Classes
import VisualScript.Proofs.Json.Codecs
import VisualScript.Proofs.Json.Documents
import VisualScript.Proofs.Json.Graphs
import VisualScript.Proofs.Json.Numbers
import VisualScript.Proofs.Jumps.Comments
import VisualScript.Proofs.Jumps.Confined
import VisualScript.Proofs.Jumps.Redundant
import VisualScript.Proofs.Jumps.Resolution
import VisualScript.Proofs.Macros.Ancestry
import VisualScript.Proofs.Macros.Arrays
import VisualScript.Proofs.Macros.Carrying
import VisualScript.Proofs.Macros.Copies
import VisualScript.Proofs.Macros.Descent
import VisualScript.Proofs.Macros.Leftovers
import VisualScript.Proofs.Macros.Places
import VisualScript.Proofs.Macros.Telling
import VisualScript.Proofs.Macros.Transparency
import VisualScript.Proofs.Macros.Tunnels
import VisualScript.Proofs.Macros.Wildcards
import VisualScript.Proofs.Names.GraphNames
import VisualScript.Proofs.Names.Members
import VisualScript.Proofs.Names.NetNames
import VisualScript.Proofs.Names.Outcome
import VisualScript.Proofs.Names.Pins
import VisualScript.Proofs.Names.References
import VisualScript.Proofs.Names.Renames
import VisualScript.Proofs.Names.Settling
import VisualScript.Proofs.Names.Unique
import VisualScript.Proofs.Names.Warnings
import VisualScript.Proofs.Run.Code
import VisualScript.Proofs.Run.Script
import VisualScript.Proofs.Terminals.Nets
import VisualScript.Proofs.Terminals.Outputs
import VisualScript.Proofs.Terminals.Storage
import VisualScript.Proofs.Timelines.Unrolling
import VisualScript.Proofs.Tracing
import VisualScript.Reach
import VisualScript.Schema
import VisualScript.Script
import VisualScript.Session
import VisualScript.Text.Blank
import VisualScript.Text.CharRange
import VisualScript.Text.Hexadecimal
import VisualScript.Text.Hidden
import VisualScript.Text.Letter
import VisualScript.Text.Lines
import VisualScript.Text.Lowercase
import VisualScript.Text.Quoted
import VisualScript.Timeline
