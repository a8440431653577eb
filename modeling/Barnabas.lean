import Barnabas.Lib.MachineInt
import Barnabas.Lib.Run
import Barnabas.Lib.Action
import Barnabas.Lib.Attempts
import Barnabas.Lib.Grouping
import Barnabas.Lib.Levels
import Barnabas.Lib.Turns
import Barnabas.Lib.Text
import Barnabas.Lib.Base64
import Barnabas.Lib.Scram
import Barnabas.Lib.Register
import Barnabas.Lib.Crc
import Barnabas.Lib.GoBack
import Barnabas.Lib.Temporal
import Barnabas.Lib.Polling
import Barnabas.Spec.ProducerWindow
import Barnabas.Core.TopicPartition
import Barnabas.Core.ProducerState
import Barnabas.Core.Sequencing
import Barnabas.Core.Transactions
import Barnabas.Core.Error
import Barnabas.Core.Records
import Barnabas.Core.Integers
import Barnabas.Core.Frame
import Barnabas.Core.Conn
import Barnabas.Core.Needed
import Barnabas.Core.Unsent
import Barnabas.Core.Framing
import Barnabas.Core.Filter
import Barnabas.Core.FilterAgreement
import Barnabas.Core.ReadCommitted
import Barnabas.Core.Passing
import Barnabas.Core.PartitionLog
import Barnabas.Core.Delivery
import Barnabas.Core.Varint
import Barnabas.Core.Layout
import Barnabas.Core.Progress
import Barnabas.Core.Reading
import Barnabas.Core.Containment
import Barnabas.Core.Accessors
import Barnabas.Core.Arithmetic
import Barnabas.Core.Group
import Barnabas.Core.Placement
import Barnabas.Core.Blocks
import Barnabas.Core.Handover
import Barnabas.Core.Balance
import Barnabas.Core.Stability
import Barnabas.Core.Ring
import Barnabas.Core.Symmetry
import Barnabas.Core.Member
import Barnabas.Core.Dating
import Barnabas.Core.Ownership
import Barnabas.Core.Metadata
import Barnabas.Core.Leadership
import Barnabas.Core.Partitioner
import Barnabas.Core.Murmur
import Barnabas.Core.Crc
import Barnabas.Client.Message
import Barnabas.Client.Transport
import Barnabas.Client.Tape
import Barnabas.Client.Sasl
import Barnabas.Client.Scram
import Barnabas.Client.Cluster
import Barnabas.Client.Producer
import Barnabas.Client.Reporting
import Barnabas.Client.Requests
import Barnabas.Client.Counts
import Barnabas.Client.Session
import Barnabas.Client.Accounting
import Barnabas.Client.Ordering
import Barnabas.Client.Overflow
import Barnabas.Client.Fencing
import Barnabas.Client.Boundary
import Barnabas.Client.World
import Barnabas.Client.Link
import Barnabas.Client.Wiring
import Barnabas.Client.Window
import Barnabas.Client.Classic
import Barnabas.Client.Blobs
import Barnabas.Client.Revocation
import Barnabas.Client.Answers
import Barnabas.Client.Receipts
import Barnabas.Client.Health
import Barnabas.Client.Draining
import Barnabas.Client.Recovery
import Barnabas.Client.Settling
import Barnabas.Client.Holdings
import Barnabas.Client.Ledger
import Barnabas.Client.Attribution
import Barnabas.Client.Commit
import Barnabas.Client.Consumer
import Barnabas.Client.ConsumerRules
import Barnabas.Client.Passing
import Barnabas.Client.Lookups
import Barnabas.Client.FetchSessions
import Barnabas.Client.Truncation
import Barnabas.Client.Growth
import Barnabas.Client.Enrolment
import Barnabas.Client.Reassignment
import Barnabas.Client.Sentinels
import Barnabas.Client.InStep
import Barnabas.Client.Pools
import Barnabas.Client.Journal
import Barnabas.Client.Authentication
import Barnabas.Client.ProducerRules
import Barnabas.Client.Refusals
import Barnabas.Client.Spread
import Barnabas.Client.Linger
import Barnabas.Client.Routes
import Barnabas.Client.Moved
import Barnabas.Client.Desync
import Barnabas.Client.Serving
import Barnabas.Client.Chronicle
import Barnabas.Client.Upkeep
import Barnabas.Client.Numbering
import Barnabas.Client.ExactlyOnce
import Barnabas.Client.Unfenced
import Barnabas.Client.Mirroring
import Barnabas.Client.Socket
import Barnabas.Client.Join
import Barnabas.Client.Gather
import Barnabas.Client.Admin
import Barnabas.Client.Building
import Barnabas.Client.Commits
