import Restyle.Batch
import Restyle.Buffer.Basic
import Restyle.Buffer.Lines
import Restyle.Cache
import Restyle.CommandLine.Arguments
import Restyle.CommandLine.Flag
import Restyle.Fault
import Restyle.FileTree.Access
import Restyle.FileTree.Basic
import Restyle.Formatting
import Restyle.Glob
import Restyle.Main
import Restyle.Number.Binary64
import Restyle.Path
import Restyle.Program
import Restyle.Proofs.Ancestors
import Restyle.Proofs.Batch.Accounting
import Restyle.Proofs.Batch.Concurrency
import Restyle.Proofs.Batch.InPlace
import Restyle.Proofs.Batch.Independence
import Restyle.Proofs.Batch.Inside
import Restyle.Proofs.Batch.Isolation
import Restyle.Proofs.Batch.Mirrored
import Restyle.Proofs.Batch.MirroredRerun
import Restyle.Proofs.Batch.OtherRules
import Restyle.Proofs.Batch.Rerun
import Restyle.Proofs.Batch.Turns
import Restyle.Proofs.Batch.Unlinked
import Restyle.Proofs.Batch.Visits
import Restyle.Proofs.Buffer.Navigation
import Restyle.Proofs.Cache
import Restyle.Proofs.CacheFile
import Restyle.Proofs.CommandLine.Serialized
import Restyle.Proofs.FileTree.Access
import Restyle.Proofs.FileTree.Agreement
import Restyle.Proofs.FileTree.Clearing
import Restyle.Proofs.FileTree.Following
import Restyle.Proofs.FileTree.Making
import Restyle.Proofs.FileTree.Shape
import Restyle.Proofs.Formatting.AtWork
import Restyle.Proofs.Formatting.CodeKept
import Restyle.Proofs.Formatting.Convergence
import Restyle.Proofs.Formatting.Delay
import Restyle.Proofs.Formatting.Idempotence
import Restyle.Proofs.Formatting.Iterates
import Restyle.Proofs.Formatting.NormalForm
import Restyle.Proofs.Formatting.PagePass
import Restyle.Proofs.Formatting.Passes
import Restyle.Proofs.Formatting.Refusal
import Restyle.Proofs.Formatting.Rest
import Restyle.Proofs.Formatting.Settling
import Restyle.Proofs.Formatting.Statements
import Restyle.Proofs.Inference.Recovered
import Restyle.Proofs.Inference.Tally
import Restyle.Proofs.Inference.Votes
import Restyle.Proofs.KeyOrigin
import Restyle.Proofs.Keys
import Restyle.Proofs.Layout.Indented
import Restyle.Proofs.Layout.Relaid
import Restyle.Proofs.Layout.Rules
import Restyle.Proofs.Layout.Semicolons
import Restyle.Proofs.Lexing.CommentBytes
import Restyle.Proofs.Lexing.Comments
import Restyle.Proofs.Lexing.Extent
import Restyle.Proofs.Lexing.Forms
import Restyle.Proofs.Lexing.Legible
import Restyle.Proofs.Lexing.Literals
import Restyle.Proofs.Lexing.Scopes
import Restyle.Proofs.Lexing.WellFormed
import Restyle.Proofs.Loops.Basic
import Restyle.Proofs.Loops.BlockEnds
import Restyle.Proofs.Loops.Braces
import Restyle.Proofs.Loops.Catalog
import Restyle.Proofs.Loops.Indentation
import Restyle.Proofs.Loops.Lines
import Restyle.Proofs.Loops.Punctuation
import Restyle.Proofs.Loops.Spaces
import Restyle.Proofs.Page.Basic
import Restyle.Proofs.Page.Gaps
import Restyle.Proofs.Page.Lines
import Restyle.Proofs.Page.Outline
import Restyle.Proofs.Page.Spacing
import Restyle.Proofs.Path
import Restyle.Proofs.Program.DryRun
import Restyle.Proofs.Settings.Merging
import Restyle.Proofs.Settings.Places
import Restyle.Proofs.Settings.Spelling
import Restyle.Proofs.Stability.Lines
import Restyle.Proofs.Stability.Spaces
import Restyle.Proofs.Toml.Keys
import Restyle.Proofs.Walk.Depth
import Restyle.Proofs.Walk.Eligible
import Restyle.Proofs.Walk.Order
import Restyle.Proofs.Walk.Replay
import Restyle.Proofs.Walk.Visited
import Restyle.Rule.Basic
import Restyle.Rule.Braces
import Restyle.Rule.Catalog
import Restyle.Rule.Indentation
import Restyle.Rule.Linebreaks
import Restyle.Rule.Semicolons
import Restyle.Rule.Spacing
import Restyle.Selection
import Restyle.Settings.Basic
import Restyle.Settings.Discovery
import Restyle.StringMap.Basic
import Restyle.StringMap.Json
import Restyle.Style.Basic
import Restyle.Style.Field
import Restyle.Style.Inference
import Restyle.Text.Blank
import Restyle.Text.Decimal
import Restyle.Text.Letters
import Restyle.Text.Numerals
import Restyle.Text.Ranges
import Restyle.Token.Basic
import Restyle.Token.Keyword
import Restyle.Token.Lexer
import Restyle.Toml.Document
import Restyle.Toml.Scalar
import Restyle.Toml.Value
import Restyle.Walk
import Restyle.Work
