import GraphStore.Contents.Record
import GraphStore.Document
import GraphStore.Query.Rows
import GraphStore.Simulation.Run
import GraphStore.Proofs.Encoding
import GraphStore.Proofs.ByteOrder
import GraphStore.Proofs.LawfulEncoding
import GraphStore.Proofs.Lookup
import GraphStore.Proofs.StemRange
import GraphStore.Proofs.UpperBound
import GraphStore.Proofs.Counting
import GraphStore.Proofs.Consistency
import GraphStore.Proofs.Run
import GraphStore.Proofs.Refinement
import GraphStore.Proofs.Chunks
import GraphStore.Proofs.Paging
import GraphStore.Proofs.BulkReads
import GraphStore.Proofs.Tree
import GraphStore.Proofs.Meaning
import GraphStore.Proofs.Measure
import GraphStore.Proofs.Step
import GraphStore.Proofs.Intersection
import GraphStore.Proofs.Construction
import GraphStore.Proofs.Bindings
import GraphStore.Proofs.History
import GraphStore.Proofs.Optimize
import GraphStore.Proofs.Collisions
import GraphStore.Proofs.Lifetime
import GraphStore.Proofs.Isolation
import GraphStore.Proofs.Membership
import GraphStore.Proofs.Interning
import GraphStore.Proofs.Rows
import GraphStore.Proofs.Restart
import GraphStore.Proofs.Probing
import GraphStore.Proofs.Checking
import GraphStore.Proofs.Simulation
import GraphStore.Proofs.Materialize
import GraphStore.Proofs.Closing
import GraphStore.Proofs.Growing
import GraphStore.Proofs.Joining
import GraphStore.Proofs.Resuming
import GraphStore.Proofs.Effects
import GraphStore.Proofs.Replay
import GraphStore.Proofs.Sizes
import GraphStore.Proofs.Batches
import GraphStore.Proofs.Recounting
import GraphStore.Proofs.Exhaustion
import GraphStore.Proofs.Matching
import GraphStore.Proofs.Lockstep
import GraphStore.Proofs.Scanning
import GraphStore.Proofs.Tallies
import GraphStore.Proofs.Progress
import GraphStore.Proofs.Termination
import GraphStore.Proofs.Degrees
import GraphStore.Proofs.Analyses
