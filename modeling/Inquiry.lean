import Inquiry.Text.Blank
import Inquiry.Text.LowerCase
import Inquiry.Json.Shortest
import Inquiry.Json.Reader
import Inquiry.Json.Writer
import Inquiry.Calendar.Timestamp
import Inquiry.Result.Wire
import Inquiry.Config.Place
import Inquiry.Config.Fields
import Inquiry.Task.Chain
import Inquiry.Task.Compile
import Inquiry.Filter.Parse
import Inquiry.Filter.Match
import Inquiry.Corpus.Sample
import Inquiry.Run.Journal
import Inquiry.Run.Script
import Inquiry.Config.Catalogue
import Inquiry.Remote
import Inquiry.Service.Router
import Inquiry.Proofs.Run.Sequential
import Inquiry.Proofs.Task.Numbering
import Inquiry.Proofs.Run.Causality
import Inquiry.Proofs.Run.Failure
import Inquiry.Proofs.Run.Order
import Inquiry.Proofs.Run.Moment
import Inquiry.Proofs.Run.FailFast
import Inquiry.Proofs.Run.Heads
import Inquiry.Proofs.Run.LargeGroup
import Inquiry.Proofs.Task.Grammar
import Inquiry.Proofs.Task.Mirror
import Inquiry.Proofs.Run.Cancellation
import Inquiry.Proofs.Run.Conservation
import Inquiry.Proofs.Task.Descent
import Inquiry.Proofs.Task.Merge
import Inquiry.Proofs.Corpus.Audience
import Inquiry.Proofs.Text.ByteOrder
import Inquiry.Proofs.Corpus.Frequencies
import Inquiry.Proofs.Corpus.Bucket
import Inquiry.Proofs.Corpus.TimeSeries
import Inquiry.Proofs.Corpus.Narrowing
import Inquiry.Proofs.Task.NormalForm
import Inquiry.Proofs.Filter.Clauses
import Inquiry.Proofs.Result.Wire
import Inquiry.Proofs.Corpus.FollowUp
import Inquiry.Proofs.Corpus.Visible
import Inquiry.Proofs.Filter.Conjunction
import Inquiry.Proofs.Corpus.Reproduction
import Inquiry.Proofs.Remote
import Inquiry.Proofs.Reply
import Inquiry.Proofs.Filter.Containment
import Inquiry.Proofs.Filter.Hierarchy
import Inquiry.Proofs.Filter.Faults
import Inquiry.Proofs.Task.Traversal
import Inquiry.Proofs.Task.Linking
import Inquiry.Proofs.Task.Dispatch
import Inquiry.Proofs.Run.Duration
import Inquiry.Proofs.Service.Process
import Inquiry.Proofs.Corpus.Partition
import Inquiry.Proofs.Corpus.RollUp
import Inquiry.Proofs.Corpus.Safety
import Inquiry.Proofs.Task.FirstFault
import Inquiry.Proofs.Task.Labels
import Inquiry.Proofs.Run.Abandonment
import Inquiry.Proofs.Run.Collision
import Inquiry.Proofs.Run.Line
import Inquiry.Proofs.Run.FirstCome
import Inquiry.Proofs.Run.Concurrency
import Inquiry.Proofs.Run.Echo
import Inquiry.Proofs.Task.Copy
