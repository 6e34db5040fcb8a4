import Replicore.Chunk.Assembly
import Replicore.Chunk.Insert
import Replicore.Config.Diff
import Replicore.Config.Display
import Replicore.Config.Reload
import Replicore.Conflict.Asserts
import Replicore.Conflict.Copies
import Replicore.Conflict.Losses
import Replicore.Conflict.Names
import Replicore.Conflict.Naming
import Replicore.Conflict.Order
import Replicore.Conflict.Plan
import Replicore.Conflict.Winner
import Replicore.Disk.Apply
import Replicore.Disk.Containment
import Replicore.Disk.Metadata
import Replicore.Disk.NameLengths
import Replicore.Disk.Publish
import Replicore.Disk.Spelling
import Replicore.Engine.Acks
import Replicore.Engine.Echo
import Replicore.Engine.Harness
import Replicore.Engine.Lanes
import Replicore.Engine.Lifecycle
import Replicore.Engine.Pause
import Replicore.Engine.Process
import Replicore.Engine.Supervise
import Replicore.Engine.Wake
import Replicore.Fetch.Basic
import Replicore.Fetch.Classify
import Replicore.Fetch.Paging
import Replicore.Ingest.Pipeline
import Replicore.Ingest.Rescan
import Replicore.Ingest.Walk
import Replicore.Lib.Bincode
import Replicore.Lib.Bytes
import Replicore.Lib.Calls
import Replicore.Lib.Causal
import Replicore.Lib.Code
import Replicore.Lib.Consecutive
import Replicore.Lib.Contain
import Replicore.Lib.Debounce
import Replicore.Lib.DirTree
import Replicore.Lib.Hier
import Replicore.Lib.Hoare
import Replicore.Lib.Inode
import Replicore.Lib.Lts
import Replicore.Lib.Lww
import Replicore.Lib.Maximal
import Replicore.Lib.OpenFile
import Replicore.Lib.OrdMap
import Replicore.Lib.Posix
import Replicore.Lib.Printed
import Replicore.Lib.Replace
import Replicore.Lib.Rerun
import Replicore.Lib.Result
import Replicore.Lib.Slices
import Replicore.Lib.Text
import Replicore.Lib.Transaction
import Replicore.Membership.Converge
import Replicore.Membership.Dissemination
import Replicore.Membership.Durable
import Replicore.Membership.Gossip
import Replicore.Membership.Handle
import Replicore.Membership.Identity
import Replicore.Membership.Reload
import Replicore.Membership.Roster
import Replicore.Merkle.Agree
import Replicore.Merkle.Build
import Replicore.Merkle.Complete
import Replicore.Merkle.Descent
import Replicore.Merkle.Leaf
import Replicore.Merkle.Listing
import Replicore.Merkle.Pull
import Replicore.Merkle.Root
import Replicore.Merkle.Session
import Replicore.Merkle.Tree
import Replicore.Mesh.Agreement
import Replicore.Mesh.Basic
import Replicore.Mesh.Causal
import Replicore.Mesh.Confluence
import Replicore.Mesh.Eventual
import Replicore.Mesh.Fleet
import Replicore.Mesh.HappenedBefore
import Replicore.Mesh.History
import Replicore.Mesh.Normal
import Replicore.Mesh.Partitioned
import Replicore.Mesh.Pulls
import Replicore.Mesh.RowOf
import Replicore.Mesh.Settled
import Replicore.Proto.Framing
import Replicore.Proto.Wire
import Replicore.Replica.Basic
import Replicore.Replica.CopyRows
import Replicore.Replica.Handled
import Replicore.Replica.Handling
import Replicore.Replica.Receive
import Replicore.Store.Advance
import Replicore.Store.Blob
import Replicore.Store.Columns
import Replicore.Store.Commands
import Replicore.Store.Cursors
import Replicore.Store.Database
import Replicore.Store.Decisions
import Replicore.Store.Effects
import Replicore.Store.Frame
import Replicore.Store.Manifests
import Replicore.Store.Monotone
import Replicore.Store.NormalForm
import Replicore.Store.OpLog
import Replicore.Store.Open
import Replicore.Store.Refines
import Replicore.Store.Resolve
import Replicore.Store.Types
import Replicore.Stream.Basic
import Replicore.Stream.Join
import Replicore.Stream.NoGap
import Replicore.Stream.Once
import Replicore.Stream.Push
import Replicore.Vv.Basic
import Replicore.Vv.Lattice
import Replicore.Watch.Bounds
import Replicore.Watch.Fanotify
