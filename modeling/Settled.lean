import Settled.Lib.Traced
import Settled.Lib.Pow2
import Settled.Lib.OrdMap
import Settled.Lib.Run
import Settled.Core.Hash
import Settled.Core.Merkle
import Settled.Core.Proof
import Settled.Core.Sha256
import Settled.Core.Sth
import Settled.Core.ProofShape
import Settled.Core.Completeness
import Settled.Core.TamperEvidence
import Settled.Core.MerkleTree
import Settled.Sdk.Verifier
import Settled.Sdk.Simulation
import Settled.Sdk.TamperEvidence
import Settled.Sdk.Forgery
import Settled.Storage.Store
import Settled.Storage.TreeStore
import Settled.Server.Machine
import Settled.Server.Steps
import Settled.Server.Invariant
import Settled.Server.ProofRequests
import Settled.Server.Watch
import Settled.Server.Signing
import Settled.Server.AppendCalls
import Settled.Core.DomainSeparation
import Settled.Core.WireFormat
import Settled.Sdk.FixedWidth
import Settled.Sdk.TreeHead
import Settled.Server.Heads
import Settled.Server.KeyChain
import Settled.Check.Verify
import Settled.Server.Activation
import Settled.Server.Durability
import Settled.Storage.Keys
import Settled.Lib.Utf8
import Settled.Server.Feed
import Settled.Server.Handover
import Settled.Server.Pagination
import Settled.Storage.Concurrent
import Settled.Ui.Payload
import Settled.Sdk.OutOfRange
import Settled.Sdk.SigningPayload
import Settled.Sdk.AppendStream
import Settled.Ui.Entries
import Settled.Core.Audit
import Settled.Lib.Paired
import Settled.Server.Freshness
import Settled.Server.Queries
import Settled.Lib.Protobuf
import Settled.Storage.Proto
import Settled.Storage.Disk
import Settled.Server.Progress
import Settled.Lib.Decimal
import Settled.Lib.Lru
import Settled.Server.OwedProofs
import Settled.Ui.Routes
import Settled.Core.Vectors
import Settled.Server.Accounting
import Settled.Sdk.WatchEntries
import Settled.Ui.Events
import Settled.Sdk.GoAppendStream
