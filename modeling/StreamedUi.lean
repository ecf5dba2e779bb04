import StreamedUi.Analysis
import StreamedUi.Catalog.Basic
import StreamedUi.Catalog.Source
import StreamedUi.CommandLine.Arguments
import StreamedUi.CommandLine.Run
import StreamedUi.CommandLine.Usage
import StreamedUi.Condition.Basic
import StreamedUi.Condition.Eval
import StreamedUi.Condition.Parser
import StreamedUi.Condition.Paths
import StreamedUi.Edit.Config
import StreamedUi.Edit.Context
import StreamedUi.Edit.Html
import StreamedUi.Edit.Instructions
import StreamedUi.Edit.Reply
import StreamedUi.FileSystem
import StreamedUi.Json.Path
import StreamedUi.Json.Raw
import StreamedUi.Json.Reader
import StreamedUi.Json.Value
import StreamedUi.Json.Writer
import StreamedUi.Main
import StreamedUi.Markup.Attribute
import StreamedUi.Markup.Page
import StreamedUi.Markup.Quoted
import StreamedUi.Model.Fallback
import StreamedUi.Model.Request
import StreamedUi.Notice
import StreamedUi.Numeric.Binary
import StreamedUi.Numeric.Decimal
import StreamedUi.Numeric.Extended
import StreamedUi.Numeric.Layout
import StreamedUi.Numeric.Scale
import StreamedUi.Numeric.Shortest
import StreamedUi.OrderedMap
import StreamedUi.Paint.Painter
import StreamedUi.Paint.Stream
import StreamedUi.Patch.Operation
import StreamedUi.Patch.Stream
import StreamedUi.Project.Basic
import StreamedUi.Project.Source
import StreamedUi.Proofs.Analysis
import StreamedUi.Proofs.Condition.Mentions
import StreamedUi.Proofs.Condition.Stored
import StreamedUi.Proofs.Json.Numeral
import StreamedUi.Proofs.Json.Quoted
import StreamedUi.Proofs.Json.Reader
import StreamedUi.Proofs.Json.Shape
import StreamedUi.Proofs.Json.Written
import StreamedUi.Proofs.Markup.Nesting
import StreamedUi.Proofs.Numeric.Rounding
import StreamedUi.Proofs.Numeric.Scale
import StreamedUi.Proofs.Numeric.Shortest
import StreamedUi.Proofs.OrderedMap
import StreamedUi.Proofs.Paint.Painter
import StreamedUi.Proofs.Patch.Apply
import StreamedUi.Proofs.Patch.Session
import StreamedUi.Proofs.Patch.Truncation
import StreamedUi.Proofs.Text.Blank
import StreamedUi.Proofs.Text.Bytewise
import StreamedUi.Proofs.Text.Encoding
import StreamedUi.Proofs.Text.Lines
import StreamedUi.Proofs.Text.Lossy
import StreamedUi.Proofs.Text.Placed
import StreamedUi.Proofs.Text.Search
import StreamedUi.Proofs.Tree.Received
import StreamedUi.Proofs.Tree.RoundTrip
import StreamedUi.Proofs.Walk.Reachable
import StreamedUi.Proofs.Walk.Recursive
import StreamedUi.Proofs.Walk.Routes
import StreamedUi.Text.Blank
import StreamedUi.Text.Lines
import StreamedUi.Text.Search
import StreamedUi.Text.Utf8
import StreamedUi.Tree.Basic
import StreamedUi.Tree.Element
import StreamedUi.Tree.Json
import StreamedUi.Walk
import StreamedUi.Yaml.Block
import StreamedUi.Yaml.Lexer
import StreamedUi.Yaml.Node
import StreamedUi.Yaml.Plain
import StreamedUi.Yaml.Quoted
import StreamedUi.Yaml.Resolve
import StreamedUi.Yaml.Token
import StreamedUi.Yaml.Writer
import StreamedUi.Proofs.Patch.LastWrite
import StreamedUi.Proofs.Project.Agreement
import StreamedUi.Proofs.Model.Fallback
import StreamedUi.Proofs.Paint.Turns
import StreamedUi.Proofs.Paint.Pacing
import StreamedUi.Proofs.Paint.Completion
import StreamedUi.Proofs.Text.Separated
import StreamedUi.Proofs.Markup.Quoted
import StreamedUi.Proofs.Markup.Form
import StreamedUi.Proofs.Markup.Attribute
import StreamedUi.Proofs.Json.Reordered
import StreamedUi.Proofs.Condition.Grammar
import StreamedUi.Proofs.Condition.Rearranged
import StreamedUi.Proofs.Condition.Normal
import StreamedUi.Proofs.Condition.Support
import StreamedUi.Proofs.Visibility
import StreamedUi.Proofs.Json.Equality
import StreamedUi.Proofs.Json.Float
import StreamedUi.Proofs.Tree.Session
import StreamedUi.Proofs.Text.Joined
import StreamedUi.Proofs.Markup.Lines
import StreamedUi.Proofs.Markup.Tags
import StreamedUi.Proofs.Project.Consistency
import StreamedUi.Proofs.Edit.Context
import StreamedUi.Proofs.Json.Marks
import StreamedUi.Proofs.Edit.Reply
import StreamedUi.Proofs.FileSystem.Places
import StreamedUi.Proofs.FileSystem.Actions
import StreamedUi.Proofs.CommandLine.Failure
import StreamedUi.Proofs.Json.Levels
import StreamedUi.Proofs.Condition.Deepened
import StreamedUi.Proofs.Tree.ReadBack
import StreamedUi.Proofs.Condition.Named
import StreamedUi.Proofs.Patch.Addressed
import StreamedUi.Proofs.Paint.Reading
import StreamedUi.Proofs.Paint.BrokenOff
import StreamedUi.Proofs.Walk.Cycles
import StreamedUi.Proofs.Edit.Prompt
import StreamedUi.Proofs.Condition.Equality
import StreamedUi.Proofs.Edit.Cleaning
import StreamedUi.Proofs.Markup.Number
import StreamedUi.Proofs.Walk.Stack
import StreamedUi.Proofs.Json.Path
