import Recheck.Analysis.Basic
import Recheck.Analysis.Plan
import Recheck.Analysis.Progress
import Recheck.Analysis.Run
import Recheck.Changes
import Recheck.Command.Execute
import Recheck.Command.Help
import Recheck.Command.Invocation
import Recheck.Command.Options
import Recheck.Command.Summary
import Recheck.Config.Basic
import Recheck.Config.Load
import Recheck.Content
import Recheck.Decimal
import Recheck.Declaration
import Recheck.Digest
import Recheck.Digest.Blake3
import Recheck.FileTree.Basic
import Recheck.FileTree.Edit
import Recheck.Glob.Match
import Recheck.Glob.Pattern
import Recheck.Graph.Basic
import Recheck.Graph.Cycles
import Recheck.Graph.Dependents
import Recheck.Graph.Layers
import Recheck.Graph.Order
import Recheck.Ignore.Rule
import Recheck.Ignore.Tree
import Recheck.Json.Basic
import Recheck.Json.Printer
import Recheck.Json.Reader
import Recheck.Main
import Recheck.Path
import Recheck.Project
import Recheck.Proofs.Changes
import Recheck.Proofs.Changes.Fallback
import Recheck.Proofs.Changes.Report
import Recheck.Proofs.Command.Check
import Recheck.Proofs.Content
import Recheck.Proofs.Content.Encoding
import Recheck.Proofs.Content.Lines
import Recheck.Proofs.Content.Tidied
import Recheck.Proofs.Decimal
import Recheck.Proofs.FileTree
import Recheck.Proofs.FileTree.Edit
import Recheck.Proofs.Graph.Building
import Recheck.Proofs.Graph.Cycles
import Recheck.Proofs.Graph.Dependents
import Recheck.Proofs.Graph.EdgeLists
import Recheck.Proofs.Graph.Edges
import Recheck.Proofs.Graph.Layers
import Recheck.Proofs.Graph.Levels
import Recheck.Proofs.Graph.Order
import Recheck.Proofs.Graph.Partition
import Recheck.Proofs.Graph.Schedule
import Recheck.Proofs.Graph.Sort
import Recheck.Proofs.Graph.Worklist
import Recheck.Proofs.Json
import Recheck.Proofs.Path
import Recheck.Proofs.Path.Canonical
import Recheck.Proofs.Path.Names
import Recheck.Proofs.Path.Order
import Recheck.Proofs.Path.Pieces
import Recheck.Proofs.References
import Recheck.Proofs.References.Accounting
import Recheck.Proofs.References.Spellings
import Recheck.Proofs.Run.Convergence
import Recheck.Proofs.Run.Duplicates
import Recheck.Proofs.Run.History
import Recheck.Proofs.Run.Incremental
import Recheck.Proofs.Run.Independence
import Recheck.Proofs.Run.Invalidation
import Recheck.Proofs.Run.Isolation
import Recheck.Proofs.Run.Outcome
import Recheck.Proofs.Run.Plan
import Recheck.Proofs.Run.Progress
import Recheck.Proofs.Run.Remembered
import Recheck.Proofs.Run.Resolution
import Recheck.Proofs.Run.Resume
import Recheck.Proofs.Run.Retry
import Recheck.Proofs.Run.Stopping
import Recheck.Proofs.Source.Bodies
import Recheck.Proofs.Source.Braces
import Recheck.Proofs.Source.ByteMask
import Recheck.Proofs.Source.Constants
import Recheck.Proofs.Source.Constructors
import Recheck.Proofs.Source.Directives
import Recheck.Proofs.Source.Faults
import Recheck.Proofs.Source.Headers
import Recheck.Proofs.Source.Heads
import Recheck.Proofs.Source.InPlace
import Recheck.Proofs.Source.Lexemes
import Recheck.Proofs.Source.LineIndex
import Recheck.Proofs.Source.Lines
import Recheck.Proofs.Source.Marks
import Recheck.Proofs.Source.Masking
import Recheck.Proofs.Source.MemberNames
import Recheck.Proofs.Source.Names
import Recheck.Proofs.Source.Offsets
import Recheck.Proofs.Source.Padded
import Recheck.Proofs.Source.Printing
import Recheck.Proofs.Source.Reading
import Recheck.Proofs.Store
import Recheck.Proofs.Store.Disk
import Recheck.Proofs.Store.Format
import Recheck.Proofs.Store.Session
import Recheck.Proofs.Symbols
import Recheck.Proofs.Symbols.History
import Recheck.Proofs.Table
import Recheck.Proofs.Timestamp
import Recheck.Proofs.Warnings
import Recheck.Proofs.Watch
import Recheck.References
import Recheck.Report
import Recheck.Resolve
import Recheck.Sort
import Recheck.Source.Directives
import Recheck.Source.Header
import Recheck.Source.Lines
import Recheck.Source.Mask
import Recheck.Source.Members
import Recheck.Source.Scan
import Recheck.Source.Words
import Recheck.Statistics
import Recheck.Store.Basic
import Recheck.Store.Disk
import Recheck.Store.Format
import Recheck.Symbols
import Recheck.Table
import Recheck.Text.Blank
import Recheck.Text.Order
import Recheck.Text.Raw
import Recheck.Text.Split
import Recheck.Text.Utf8
import Recheck.Text.Word
import Recheck.Timestamp
import Recheck.Toml.Document
import Recheck.Toml.Value
import Recheck.Watch.Filter
import Recheck.Watch.Session
import Recheck.Yaml.Cursor
import Recheck.Yaml.Document
import Recheck.Yaml.Scalar
import Recheck.Yaml.Token
import Recheck.Yaml.Value
