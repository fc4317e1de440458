import Unstamp.Charset.Basic
import Unstamp.Charset.Piece
import Unstamp.Charset.Utf16
import Unstamp.Charset.Utf8
import Unstamp.Cleaner.Basic
import Unstamp.Cleaner.CommentLines
import Unstamp.Cleaner.GeneratedSource
import Unstamp.Cleaner.InTree
import Unstamp.Cleaner.Outcome
import Unstamp.CommandLine.Arguments
import Unstamp.CommandLine.Program
import Unstamp.Comment
import Unstamp.FileTree.Access
import Unstamp.FileTree.Basic
import Unstamp.FileTree.Resolve
import Unstamp.Glob.Library
import Unstamp.Glob.Pattern
import Unstamp.Glob.Reading
import Unstamp.Ignore.Level
import Unstamp.Ignore.Rule
import Unstamp.Main
import Unstamp.Path.Basic
import Unstamp.Path.Display
import Unstamp.Proofs.Charset.Bytewise
import Unstamp.Proofs.Charset.Faults
import Unstamp.Proofs.Charset.Inverse
import Unstamp.Proofs.Charset.Lossy
import Unstamp.Proofs.Charset.RoundTrip
import Unstamp.Proofs.Charset.Units
import Unstamp.Proofs.Charset.Utf16
import Unstamp.Proofs.Charset.Utf8
import Unstamp.Proofs.Cleaner.Bytewise
import Unstamp.Proofs.Cleaner.Canonical
import Unstamp.Proofs.Cleaner.CommentLines
import Unstamp.Proofs.Cleaner.Endings
import Unstamp.Proofs.Cleaner.GeneratedSource
import Unstamp.Proofs.Cleaner.InTree
import Unstamp.Proofs.Cleaner.LostLines
import Unstamp.Proofs.Cleaner.Repeated
import Unstamp.Proofs.Cleaner.Selection
import Unstamp.Proofs.Cleaner.Streams
import Unstamp.Proofs.Cleaner.Transcoding
import Unstamp.Proofs.Comment.Canonical
import Unstamp.Proofs.Comment.Documentation
import Unstamp.Proofs.Comment.Removal
import Unstamp.Proofs.Comment.Search
import Unstamp.Proofs.Comment.Segments
import Unstamp.Proofs.Comment.Spelling
import Unstamp.Proofs.FileTree.Beside
import Unstamp.Proofs.FileTree.Directories
import Unstamp.Proofs.FileTree.Growth
import Unstamp.Proofs.FileTree.Leads
import Unstamp.Proofs.FileTree.Overlay
import Unstamp.Proofs.FileTree.Places
import Unstamp.Proofs.FileTree.Placing
import Unstamp.Proofs.FileTree.Shape
import Unstamp.Proofs.FileTree.Ways
import Unstamp.Proofs.FileTree.Writing
import Unstamp.Proofs.Line
import Unstamp.Proofs.Line.Endings
import Unstamp.Proofs.Path
import Unstamp.Proofs.Path.Below
import Unstamp.Proofs.Path.Display
import Unstamp.Proofs.Path.FileName
import Unstamp.Proofs.Run.Account
import Unstamp.Proofs.Run.Answer
import Unstamp.Proofs.Run.Check
import Unstamp.Proofs.Run.Course
import Unstamp.Proofs.Run.Delivery
import Unstamp.Proofs.Run.Excludes
import Unstamp.Proofs.Run.InPlace
import Unstamp.Proofs.Run.Opening
import Unstamp.Proofs.Run.Order
import Unstamp.Proofs.Run.Originals
import Unstamp.Proofs.Run.OutDir
import Unstamp.Proofs.Run.Outlet
import Unstamp.Proofs.Run.Policy
import Unstamp.Proofs.Run.Prediction
import Unstamp.Proofs.Run.Repeated
import Unstamp.Proofs.Signature
import Unstamp.Proofs.Stream.Buffer
import Unstamp.Proofs.Stream.Sink
import Unstamp.Proofs.Stream.Source
import Unstamp.Proofs.Walk
import Unstamp.Proofs.Walk.Links
import Unstamp.Proofs.Walk.Order
import Unstamp.Proofs.Walk.Pruning
import Unstamp.Run.Basic
import Unstamp.Run.Event
import Unstamp.Run.Report
import Unstamp.Run.Result
import Unstamp.Run.Setup
import Unstamp.Stream.Buffer
import Unstamp.Stream.Fault
import Unstamp.Stream.Sink
import Unstamp.Stream.Source
import Unstamp.Text.Basic
import Unstamp.Text.Shown
import Unstamp.Walk
