import LabelTree.Batch
import LabelTree.Checked.Basic
import LabelTree.Checked.Edit
import LabelTree.Checked.Engine
import LabelTree.Checked.Path
import LabelTree.Checked.Resolve
import LabelTree.Checked.Session
import LabelTree.Checked.Store
import LabelTree.Command.Basic
import LabelTree.Command.Parse
import LabelTree.Command.Split
import LabelTree.Command.Written
import LabelTree.CommandLine.Arguments
import LabelTree.CommandLine.FileTree
import LabelTree.CommandLine.Run
import LabelTree.Engine
import LabelTree.Entry
import LabelTree.Error
import LabelTree.Json.Number
import LabelTree.Json.Reader
import LabelTree.Json.Scan
import LabelTree.Json.Skip
import LabelTree.Locate
import LabelTree.Main
import LabelTree.Operation
import LabelTree.Path.Basic
import LabelTree.Path.Compile
import LabelTree.Path.Cursor
import LabelTree.Path.Error
import LabelTree.Path.Grammar
import LabelTree.Path.Label
import LabelTree.Path.Lexemes
import LabelTree.Path.Token
import LabelTree.Path.Written
import LabelTree.Resolve
import LabelTree.Resolve.Chain
import LabelTree.SaveMode
import LabelTree.Script
import LabelTree.Session.Basic
import LabelTree.Session.Edit
import LabelTree.Session.Read
import LabelTree.Snapshot.Basic
import LabelTree.Snapshot.Graft
import LabelTree.Snapshot.Printer
import LabelTree.Snapshot.Reader
import LabelTree.Store.Basic
import LabelTree.Store.Change
import LabelTree.Store.Edit
import LabelTree.Store.Invariant
import LabelTree.Store.Walk
import LabelTree.Text.Class
import LabelTree.Text.Cut
import LabelTree.Text.Letter
import LabelTree.Text.Quoted
import LabelTree.Proofs.Store.Effect
import LabelTree.Proofs.Store.Lineage
import LabelTree.Proofs.Store.Subtree
import LabelTree.Proofs.Store.Preservation
import LabelTree.Proofs.Store.Labelled
import LabelTree.Proofs.Snapshot.Graft
import LabelTree.Proofs.Store.Size
import LabelTree.Proofs.Path.Labels
import LabelTree.Proofs.Store.Runs
import LabelTree.Proofs.Store.Made
import LabelTree.Proofs.Store.Place
import LabelTree.Proofs.Store.Rooted
import LabelTree.Proofs.Resolve.Level
import LabelTree.Proofs.Resolve.Meaning
import LabelTree.Proofs.Resolve.Locate
import LabelTree.Proofs.Session.Create
import LabelTree.Proofs.Engine.Runs
import LabelTree.Proofs.Engine.Operations
import LabelTree.Proofs.Text.Classes
import LabelTree.Proofs.Path.Complete
import LabelTree.Proofs.Path.Glyphs
import LabelTree.Proofs.Path.Words
import LabelTree.Proofs.Path.Writing
import LabelTree.Proofs.Address.Steps
import LabelTree.Proofs.Address.Resolve
import LabelTree.Proofs.Address.Ending
import LabelTree.Proofs.Address.Trimmed
import LabelTree.Proofs.Session.Read
import LabelTree.Proofs.Entry.Listing
import LabelTree.Proofs.Engine.Addresses
import LabelTree.Proofs.Json.Text
import LabelTree.Proofs.Snapshot.RoundTrip
import LabelTree.Proofs.Snapshot.Subtree
import LabelTree.Proofs.Snapshot.Copy
import LabelTree.Proofs.Session.Files
import LabelTree.Proofs.Batch.Seed
import LabelTree.Proofs.Path.Printing
import LabelTree.Proofs.Path.Offsets
import LabelTree.Proofs.Path.Sentences
import LabelTree.Proofs.Resolve.Deepest
import LabelTree.Proofs.Session.Prepare
import LabelTree.Proofs.Engine.Handed
import LabelTree.Proofs.Store.Frame
import LabelTree.Proofs.Session.Effects
import LabelTree.Proofs.Text.Lines
import LabelTree.Proofs.Engine.Lines
import LabelTree.Proofs.Batch.Script
import LabelTree.Proofs.Engine.Steps
import LabelTree.Proofs.Engine.Effects
import LabelTree.Proofs.Engine.Frame
import LabelTree.Proofs.Engine.Snapshots
import LabelTree.Proofs.Session.Frame
import LabelTree.Proofs.Session.Outside
import LabelTree.Proofs.Session.MetaTops
import LabelTree.Proofs.Session.Unmarked
import LabelTree.Proofs.Session.Marks
import LabelTree.Proofs.Session.Overlooked
import LabelTree.Proofs.Session.Saved
import LabelTree.Proofs.Engine.Notice
import LabelTree.Proofs.Engine.Saves
import LabelTree.Proofs.Engine.Record
import LabelTree.Proofs.Session.Siblings
import LabelTree.Proofs.Session.Chains
import LabelTree.Proofs.Session.Writes
import LabelTree.Proofs.Engine.Values
import LabelTree.Proofs.Resolve.Unchanged
import LabelTree.Proofs.Session.Lookup
import LabelTree.Proofs.Engine.Lookup
import LabelTree.Proofs.Checked.Path
import LabelTree.Proofs.Checked.Resolve
import LabelTree.Proofs.Checked.Store
import LabelTree.Proofs.Checked.Session
import LabelTree.Proofs.Checked.Agreement
import LabelTree.Proofs.Checked.Edit
import LabelTree.Proofs.Checked.Engine
import LabelTree.Proofs.Session.Strands
import LabelTree.Proofs.Session.Moves
import LabelTree.Proofs.Engine.Moves
import LabelTree.Proofs.Store.Prune
import LabelTree.Proofs.Resolve.Positive
import LabelTree.Proofs.Session.Removals
import LabelTree.Proofs.Engine.Removals
import LabelTree.Proofs.Resolve.Composed
import LabelTree.Proofs.Path.Faults
import LabelTree.Proofs.Path.Joined
import LabelTree.Proofs.Path.Rebased
import LabelTree.Proofs.Path.Markers
import LabelTree.Proofs.Engine.Refused
import LabelTree.Store.Issued
import LabelTree.Proofs.Store.Relink
import LabelTree.Proofs.Store.Stale
import LabelTree.Snapshot.Worklist
import LabelTree.Proofs.Snapshot.Grafted
import LabelTree.Proofs.Command.Written
import LabelTree.Proofs.Error.Marked
import LabelTree.Proofs.Path.Progress
import LabelTree.Proofs.Store.Rounds
import LabelTree.Proofs.Command.Whole
import LabelTree.Proofs.CommandLine.Runs
