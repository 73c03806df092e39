import DottedPath.Text.Blank
import DottedPath.Text.Printable
import DottedPath.Text.Quoted
import DottedPath.Number.Binary64
import DottedPath.Table
import DottedPath.Value
import DottedPath.Heap.Basic
import DottedPath.Heap.Clone
import DottedPath.Heap.Equality
import DottedPath.Literal
import DottedPath.Path.Step
import DottedPath.Path.Memory
import DottedPath.Path.Parser
import DottedPath.Config
import DottedPath.Fault
import DottedPath.Record
import DottedPath.Heap.Shape
import DottedPath.Heap.Edit
import DottedPath.Scan.Basic
import DottedPath.Scan.Move
import DottedPath.Scan.Read
import DottedPath.Scan.Remove
import DottedPath.Scan.Write
import DottedPath.Scan.Scanner
import DottedPath.OneShot
import DottedPath.Assertion
import DottedPath.Catalogue
import DottedPath.Session.Request
import DottedPath.Session.Turn
import DottedPath.Session.Run
import DottedPath.Proofs.Path.Hops
import DottedPath.Proofs.Scan.Effect
import DottedPath.Proofs.Heap.Slot
import DottedPath.Proofs.Heap.Reach
import DottedPath.Proofs.Scan.Write
import DottedPath.Proofs.Write.OneSlot
import DottedPath.Proofs.Scan.Read
import DottedPath.Proofs.Write.ReadBack
import DottedPath.Proofs.Path.Spelling
import DottedPath.Proofs.Write.Numbering
import DottedPath.Proofs.Tree.Basic
import DottedPath.Proofs.Tree.Lays
import DottedPath.Proofs.Tree.Clone
import DottedPath.Proofs.Tree.Access
import DottedPath.Proofs.Tree.Focus
import DottedPath.Proofs.Tree.Owns
import DottedPath.Proofs.Tree.Write
import DottedPath.Proofs.Tree.Read
import DottedPath.Proofs.Scan.Remove
import DottedPath.Proofs.Tree.Remove
import DottedPath.Proofs.Tree.Run
import DottedPath.Proofs.Isolation.Area
import DottedPath.Proofs.Isolation.Scans
import DottedPath.Proofs.Isolation.Edits
import DottedPath.Proofs.Isolation.Run
import DottedPath.Proofs.Write.Failure
import DottedPath.Proofs.Path.Join
import DottedPath.Proofs.Write.Success
import DottedPath.Proofs.SubScanner.Walk
import DottedPath.Proofs.Heap.Renumber
import DottedPath.Proofs.SubScanner.Interchange
import DottedPath.Proofs.Tree.Unordered
import DottedPath.Proofs.Tree.Plant
import DottedPath.Proofs.Heap.Veil
import DottedPath.Proofs.Write.Order
import DottedPath.Proofs.Scan.Blind
import DottedPath.Proofs.Session.Cache
import DottedPath.Proofs.Scan.Seek
import DottedPath.Proofs.Scan.Misfit
import DottedPath.Proofs.Remove.Thins
import DottedPath.Proofs.Write.Length
import DottedPath.Proofs.Write.Limit
import DottedPath.Proofs.Copy.Settled
import DottedPath.Proofs.Copy.Removal
import DottedPath.Proofs.Copy.Edits
import DottedPath.Proofs.Path.Decoding
import DottedPath.Proofs.Path.Memory
import DottedPath.Proofs.Path.Parser
import DottedPath.Proofs.Path.Recency
import DottedPath.Proofs.Scan.Presence
import DottedPath.Proofs.Remove.Kept
import DottedPath.Proofs.Remove.Bulk
import DottedPath.Proofs.Remove.Final
import DottedPath.Proofs.Remove.Addressed
import DottedPath.Proofs.Tree.Unshared
import DottedPath.Proofs.Write.Verdict
import DottedPath.Proofs.Write.ReadOnly
import DottedPath.Proofs.SubScanner.Create
import DottedPath.Proofs.Path.Segments
import DottedPath.Proofs.Scan.Grounds
import DottedPath.Proofs.Remove.Failure
import DottedPath.Proofs.Tree.Equal
import DottedPath.Proofs.Tree.Twins
import DottedPath.Proofs.Copy.Asserted
import DottedPath.Proofs.Write.Records
import DottedPath.Proofs.Write.Account
import DottedPath.Proofs.Acyclic.Write
import DottedPath.Proofs.Acyclic.Run
import DottedPath.Proofs.Path.Labels
import DottedPath.Proofs.Scan.Parallel
