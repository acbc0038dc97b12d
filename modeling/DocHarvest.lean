import DocHarvest.Text.Basic
import DocHarvest.Text.Units
import DocHarvest.Text.Lines
import DocHarvest.Number.Decimal
import DocHarvest.Number.Reader
import DocHarvest.Data.Instant
import DocHarvest.Data.Value
import DocHarvest.Data.Json.Reader
import DocHarvest.Data.Json.Printer
import DocHarvest.TypeTerm.Token
import DocHarvest.TypeTerm.Reading
import DocHarvest.TypeTerm.Tail
import DocHarvest.Memo
import DocHarvest.Settings.Basic
import DocHarvest.Comment.Marker
import DocHarvest.Comment.Annotation
import DocHarvest.Cursor
import DocHarvest.Parser
import DocHarvest.Signature
import DocHarvest.Block
import DocHarvest.Record
import DocHarvest.Hierarchy
import DocHarvest.Settings.Key
import DocHarvest.Settings.Check
import DocHarvest.Config
import DocHarvest.Log
import DocHarvest.Problem
import DocHarvest.Arguments
import DocHarvest.Text.Escape
import DocHarvest.Data.Yaml.Place
import DocHarvest.Data.Yaml.Scalar
import DocHarvest.Data.Yaml.Style
import DocHarvest.Data.Yaml.Node
import DocHarvest.Data.Yaml.Reader
import DocHarvest.Files.Path
import DocHarvest.Files.Tree
import DocHarvest.Glob.Braces
import DocHarvest.Glob.Segment
import DocHarvest.Glob.Search
import DocHarvest.Config.Load
import DocHarvest.Document
import DocHarvest.Harvest
import DocHarvest.CommandLine.Suggestion
import DocHarvest.CommandLine.Flag
import DocHarvest.CommandLine.Plan
import DocHarvest.CommandLine.Session
import DocHarvest.Main
import DocHarvest.Proofs.Text.Trim
import DocHarvest.Proofs.Text.Lines
import DocHarvest.Proofs.TypeTerm.Spelling
import DocHarvest.Proofs.TypeTerm.Grammar
import DocHarvest.Proofs.TypeTerm.Longest
import DocHarvest.Proofs.Comment.Line
import DocHarvest.Proofs.Comment.Acceptance
import DocHarvest.Proofs.Block.Run
import DocHarvest.Proofs.Block.Segmentation
import DocHarvest.Proofs.Block.Rendering
import DocHarvest.Proofs.Block.RoundTrip
import DocHarvest.Proofs.Parser.Window
import DocHarvest.Proofs.Record.Decomposition
import DocHarvest.Proofs.Record.Sections
import DocHarvest.Proofs.Record.Separation
import DocHarvest.Proofs.Signature.ParameterList
import DocHarvest.Proofs.Signature.Shape
import DocHarvest.Proofs.Record.FenceText
import DocHarvest.Proofs.Settings.Resolve
import DocHarvest.Proofs.Comment.Shape
import DocHarvest.Proofs.Record.WellFormed
import DocHarvest.Proofs.Parser.Advance
import DocHarvest.Proofs.Record.PrivateNames
import DocHarvest.Proofs.Record.Rounds
import DocHarvest.Proofs.Files.Names
import DocHarvest.Proofs.Files.Leads
import DocHarvest.Proofs.Files.Writing
import DocHarvest.Proofs.Harvest.Sources
import DocHarvest.Proofs.Harvest.Delivery
import DocHarvest.Proofs.Harvest.Targets
import DocHarvest.Proofs.Harvest.Pages
import DocHarvest.Proofs.Harvest.Results
import DocHarvest.Proofs.TypeTerm.Optional
import DocHarvest.Proofs.Harvest.Unread
import DocHarvest.Proofs.Config.Layers
import DocHarvest.Proofs.Signature.Written
import DocHarvest.Proofs.TypeTerm.Nesting
import DocHarvest.Proofs.Signature.Assigned
import DocHarvest.Proofs.Record.Commented
import DocHarvest.Proofs.Comment.Exclusion
import DocHarvest.Proofs.Block.Opening
import DocHarvest.Proofs.Block.Blanks
import DocHarvest.Proofs.Record.Endings
import DocHarvest.Proofs.Hierarchy.Primary
import DocHarvest.Proofs.Record.Parameters
import DocHarvest.Proofs.Config.Validation
import DocHarvest.Proofs.Hierarchy.Order
import DocHarvest.Proofs.Hierarchy.Segments
import DocHarvest.Comment.Recall
import DocHarvest.Proofs.Comment.Recall
import DocHarvest.Proofs.Parser.Limit
import DocHarvest.Proofs.TypeTerm.Lexing
import DocHarvest.Proofs.Glob.Braces
import DocHarvest.Proofs.Glob.Route
import DocHarvest.Proofs.Harvest.Inputs
