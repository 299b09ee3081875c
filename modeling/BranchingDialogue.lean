import BranchingDialogue.CommandLine.Arguments
import BranchingDialogue.CommandLine.Run
import BranchingDialogue.Curve.Basic
import BranchingDialogue.Curve.Change
import BranchingDialogue.Decimal.Layout
import BranchingDialogue.Decimal.Numeral
import BranchingDialogue.Decimal.Shortest
import BranchingDialogue.Dictionary
import BranchingDialogue.Document.Basic
import BranchingDialogue.Document.Error
import BranchingDialogue.Document.Excerpt
import BranchingDialogue.Document.Load
import BranchingDialogue.Document.Read
import BranchingDialogue.Document.Save
import BranchingDialogue.Document.Schema
import BranchingDialogue.Files.Basic
import BranchingDialogue.Files.Tree
import BranchingDialogue.Graph.Basic
import BranchingDialogue.Graph.Dot
import BranchingDialogue.Graph.Node
import BranchingDialogue.Graph.Reachable
import BranchingDialogue.Json.Basic
import BranchingDialogue.Json.Fault
import BranchingDialogue.Json.Number
import BranchingDialogue.Json.Read
import BranchingDialogue.Json.Record
import BranchingDialogue.Json.Skip
import BranchingDialogue.Json.Text
import BranchingDialogue.Main
import BranchingDialogue.Markup.Attribute
import BranchingDialogue.Markup.Color
import BranchingDialogue.Markup.Effects
import BranchingDialogue.Markup.Error
import BranchingDialogue.Markup.Registry
import BranchingDialogue.Markup.Strip
import BranchingDialogue.Markup.Tag
import BranchingDialogue.NodeKind
import BranchingDialogue.Payload
import BranchingDialogue.Port
import BranchingDialogue.Processor.Basic
import BranchingDialogue.Processor.Comparison
import BranchingDialogue.Processor.Error
import BranchingDialogue.Processor.Pull
import BranchingDialogue.Proofs.Brackets
import BranchingDialogue.Proofs.Codecs
import BranchingDialogue.Proofs.Curve.Blending
import BranchingDialogue.Proofs.Curve.Change
import BranchingDialogue.Proofs.Curve.Cubic
import BranchingDialogue.Proofs.Curve.Interpolating
import BranchingDialogue.Proofs.Curve.Locating
import BranchingDialogue.Proofs.Curve.Outside
import BranchingDialogue.Proofs.Curve.Rising
import BranchingDialogue.Proofs.Curve.Scaling
import BranchingDialogue.Proofs.Curve.Searching
import BranchingDialogue.Proofs.Curve.Segments
import BranchingDialogue.Proofs.Curve.Sound
import BranchingDialogue.Proofs.Curve.Stepped
import BranchingDialogue.Proofs.Curve.Tracing
import BranchingDialogue.Proofs.Dictionary
import BranchingDialogue.Proofs.Document.Alike
import BranchingDialogue.Proofs.Document.Cutting
import BranchingDialogue.Proofs.Document.Edges
import BranchingDialogue.Proofs.Document.Excerpts
import BranchingDialogue.Proofs.Document.Faulty
import BranchingDialogue.Proofs.Document.Floats
import BranchingDialogue.Proofs.Document.Loaded
import BranchingDialogue.Proofs.Document.Loading
import BranchingDialogue.Proofs.Document.Nodes
import BranchingDialogue.Proofs.Document.Reloading
import BranchingDialogue.Proofs.Document.Reordered
import BranchingDialogue.Proofs.Document.RoundTrip
import BranchingDialogue.Proofs.Document.Sized
import BranchingDialogue.Proofs.Document.Stocked
import BranchingDialogue.Proofs.Document.Underlining
import BranchingDialogue.Proofs.Document.WellFormed
import BranchingDialogue.Proofs.Document.Written
import BranchingDialogue.Proofs.Exact
import BranchingDialogue.Proofs.Extended
import BranchingDialogue.Proofs.Finite
import BranchingDialogue.Proofs.Graph.Adjacency
import BranchingDialogue.Proofs.Graph.Building
import BranchingDialogue.Proofs.Graph.Closure
import BranchingDialogue.Proofs.Graph.Connecting
import BranchingDialogue.Proofs.Graph.Counting
import BranchingDialogue.Proofs.Graph.Drawing
import BranchingDialogue.Proofs.Graph.Reaching
import BranchingDialogue.Proofs.Graph.Renumbering
import BranchingDialogue.Proofs.Graph.Sockets
import BranchingDialogue.Proofs.Graph.Tables
import BranchingDialogue.Proofs.Identifier
import BranchingDialogue.Proofs.Json.Decimals
import BranchingDialogue.Proofs.Json.Numbers
import BranchingDialogue.Proofs.Json.Reading
import BranchingDialogue.Proofs.Json.Rereading
import BranchingDialogue.Proofs.Json.RoundTrip
import BranchingDialogue.Proofs.Json.Scaling
import BranchingDialogue.Proofs.Json.Writing
import BranchingDialogue.Proofs.Loops
import BranchingDialogue.Proofs.Markup.Again
import BranchingDialogue.Proofs.Markup.Attributes
import BranchingDialogue.Proofs.Markup.Blaming
import BranchingDialogue.Proofs.Markup.Bytewise
import BranchingDialogue.Proofs.Markup.Coloring
import BranchingDialogue.Proofs.Markup.Cut
import BranchingDialogue.Proofs.Markup.Effects
import BranchingDialogue.Proofs.Markup.Enclosing
import BranchingDialogue.Proofs.Markup.Grammar
import BranchingDialogue.Proofs.Markup.Nesting
import BranchingDialogue.Proofs.Markup.Placing
import BranchingDialogue.Proofs.Markup.Quoting
import BranchingDialogue.Proofs.Markup.Registering
import BranchingDialogue.Proofs.Markup.Scanning
import BranchingDialogue.Proofs.Markup.Step
import BranchingDialogue.Proofs.Markup.Unambiguous
import BranchingDialogue.Proofs.Orbit
import BranchingDialogue.Proofs.Processor.Answering
import BranchingDialogue.Proofs.Processor.Applying
import BranchingDialogue.Proofs.Processor.Depending
import BranchingDialogue.Proofs.Processor.Depth
import BranchingDialogue.Proofs.Reveal.Advancing
import BranchingDialogue.Proofs.Reveal.Fitting
import BranchingDialogue.Proofs.Reveal.Forward
import BranchingDialogue.Proofs.Reveal.Holding
import BranchingDialogue.Proofs.Reveal.Pausing
import BranchingDialogue.Proofs.Reveal.Refusing
import BranchingDialogue.Proofs.Reveal.Reshaping
import BranchingDialogue.Proofs.Reveal.Sampling
import BranchingDialogue.Proofs.Reveal.Visible
import BranchingDialogue.Proofs.Rounding.Arithmetic
import BranchingDialogue.Proofs.Rounding.Count
import BranchingDialogue.Proofs.Rounding.Double
import BranchingDialogue.Proofs.Rounding.Error
import BranchingDialogue.Proofs.Rounding.Interval
import BranchingDialogue.Proofs.Rounding.Nearest
import BranchingDialogue.Proofs.Rounding.Packed
import BranchingDialogue.Proofs.Rounding.Ranked
import BranchingDialogue.Proofs.Rounding.Shortest
import BranchingDialogue.Proofs.Rounding.Single
import BranchingDialogue.Proofs.Rounding.Special
import BranchingDialogue.Proofs.Rounding.Unpacked
import BranchingDialogue.Proofs.Stored
import BranchingDialogue.Proofs.Story.Bound
import BranchingDialogue.Proofs.Story.Faults
import BranchingDialogue.Proofs.Story.Guard
import BranchingDialogue.Proofs.Story.Influence
import BranchingDialogue.Proofs.Story.OneLoop
import BranchingDialogue.Proofs.Story.Options
import BranchingDialogue.Proofs.Story.Passing
import BranchingDialogue.Proofs.Story.Reordering
import BranchingDialogue.Proofs.Story.Saved
import BranchingDialogue.Proofs.Story.Showing
import BranchingDialogue.Proofs.Story.Timeline
import BranchingDialogue.Proofs.Story.Touching
import BranchingDialogue.Proofs.Story.Turn
import BranchingDialogue.Proofs.Story.Variables
import BranchingDialogue.Proofs.Story.Waiting
import BranchingDialogue.Proofs.Story.Writing
import BranchingDialogue.Proofs.Text.Bytes
import BranchingDialogue.Proofs.Text.Cuts
import BranchingDialogue.Proofs.Value
import BranchingDialogue.Report.Basic
import BranchingDialogue.Report.Json
import BranchingDialogue.Report.Yaml
import BranchingDialogue.Reveal.Basic
import BranchingDialogue.Reveal.Pauses
import BranchingDialogue.Runtime
import BranchingDialogue.Scalar
import BranchingDialogue.Scalar.Binary32
import BranchingDialogue.Settings.Basic
import BranchingDialogue.Settings.Read
import BranchingDialogue.Story.Clip
import BranchingDialogue.Story.Error
import BranchingDialogue.Story.Moment
import BranchingDialogue.Story.Passage
import BranchingDialogue.Story.Suspension
import BranchingDialogue.Story.Walk
import BranchingDialogue.Text.Blank
import BranchingDialogue.Text.Quoted
import BranchingDialogue.Text.Utf8
import BranchingDialogue.Text.Visible
import BranchingDialogue.Toml.Basic
import BranchingDialogue.Toml.Read
import BranchingDialogue.Toml.Scalar
import BranchingDialogue.Toml.Text
import BranchingDialogue.Uuid
import BranchingDialogue.Value
