import BoundaryTag.Audit
import BoundaryTag.Census
import BoundaryTag.ClassTable
import BoundaryTag.Event
import BoundaryTag.Failure
import BoundaryTag.FreeIndex
import BoundaryTag.Heap.Basic
import BoundaryTag.Heap.Operations
import BoundaryTag.Heap.Reshape
import BoundaryTag.Json.Numeral
import BoundaryTag.Json.Quoted
import BoundaryTag.Json.Skip
import BoundaryTag.Json.Token
import BoundaryTag.Layout
import BoundaryTag.Layout.Lemmas
import BoundaryTag.Memory.Basic
import BoundaryTag.Memory.Lemmas
import BoundaryTag.Memory.LittleEndian
import BoundaryTag.Region
import BoundaryTag.Request
import BoundaryTag.Settings.Basic
import BoundaryTag.Settings.Printer
import BoundaryTag.Settings.Reader
import BoundaryTag.Steps
import BoundaryTag.Tag
import BoundaryTag.Traced
import BoundaryTag.Word
import BoundaryTag.Proofs.Memory.Frame
import BoundaryTag.Proofs.Span
import BoundaryTag.Proofs.FreeIndex.Ring
import BoundaryTag.Proofs.FreeIndex.Threaded
import BoundaryTag.Proofs.FreeIndex.Search
import BoundaryTag.Proofs.FreeIndex.Complete
import BoundaryTag.Proofs.Chart
import BoundaryTag.Proofs.Coverage
import BoundaryTag.Proofs.Heap.Merge
import BoundaryTag.Proofs.Heap.Plan
import BoundaryTag.Proofs.Audit.Lists
import BoundaryTag.Proofs.Audit.Blocks
import BoundaryTag.Proofs.Heap.Check
import BoundaryTag.Proofs.Heap.Allocate
import BoundaryTag.Proofs.Heap.Free
import BoundaryTag.Proofs.Heap.Outcome
import BoundaryTag.Proofs.Heap.Payload
import BoundaryTag.Proofs.Heap.Resize
import BoundaryTag.Proofs.Heap.Init
import BoundaryTag.Proofs.Session.Basic
import BoundaryTag.Proofs.Session.Invariant
import BoundaryTag.Proofs.Session.Effect
import BoundaryTag.Proofs.Session.Consistent
import BoundaryTag.Proofs.Session.Prologue
import BoundaryTag.Proofs.Heap.Contents
import BoundaryTag.Proofs.Session.Payload
import BoundaryTag.Proofs.Audit.Index
import BoundaryTag.Proofs.Heap.Verdict
import BoundaryTag.Proofs.Heap.Misled
import BoundaryTag.Proofs.Heap.Refree
import BoundaryTag.Proofs.Heap.Relists
import BoundaryTag.Proofs.Session.Spent
import BoundaryTag.Proofs.FreeIndex.Twice
import BoundaryTag.Proofs.Heap.Unowned
import BoundaryTag.Proofs.Session.Refusals
import BoundaryTag.Proofs.Heap.Reports
import BoundaryTag.Proofs.Session.Answers
import BoundaryTag.Proofs.Heap.Agree
import BoundaryTag.Proofs.Session.Noninterference
import BoundaryTag.Proofs.Audit.Total
import BoundaryTag.Proofs.Heap.Acceptance
import BoundaryTag.Proofs.Coalesced
import BoundaryTag.Proofs.Heap.Reuse
import BoundaryTag.Proofs.Session.Accounts
import BoundaryTag.Proofs.Session.Frees
import BoundaryTag.Proofs.Session.Undoing
import BoundaryTag.Proofs.Session.Carving
import BoundaryTag.Provider.Basic
import BoundaryTag.Provider.Stores
import BoundaryTag.Proofs.Audit.Alike
import BoundaryTag.Proofs.Provider.Reserving
import BoundaryTag.Proofs.Provider.Refines
import BoundaryTag.Proofs.Provider.Stores
import BoundaryTag.Proofs.Provider.Heap
import BoundaryTag.Proofs.Provider.Runs
import BoundaryTag.Proofs.Provider.Interchange
import BoundaryTag.Proofs.Json.Grammar
import BoundaryTag.Proofs.Json.Tokens
import BoundaryTag.Proofs.Settings.RoundTrip
import BoundaryTag.Proofs.Json.Skipping
import BoundaryTag.Proofs.Settings.Members
import BoundaryTag.Proofs.Settings.Objects
import BoundaryTag.Proofs.Heap.Shown
import BoundaryTag.Proofs.Session.FirstFit
import BoundaryTag.Proofs.Session.Resizing
import BoundaryTag.Proofs.Session.Freeing
import BoundaryTag.Proofs.Session.Rounding
import BoundaryTag.Proofs.Session.Exhaustion
import BoundaryTag.Proofs.Audit.BrokenLists
import BoundaryTag.Proofs.Audit.BrokenBlocks
import BoundaryTag.Proofs.Heap.Diagnosis
import BoundaryTag.Proofs.Heap.Inventory
import BoundaryTag.Proofs.FreeIndex.Sequences
import BoundaryTag.Proofs.Layout.Navigation
