import UpiMesh.Lib.Program
import UpiMesh.Lib.Run
import UpiMesh.Lib.Serial
import UpiMesh.Lib.Int64
import UpiMesh.Lib.Ledger
import UpiMesh.Lib.Table
import UpiMesh.Types
import UpiMesh.Database
import UpiMesh.SettleBlock
import UpiMesh.Ingestion
import UpiMesh.SettlementSpec
import UpiMesh.IngestionSpec
import UpiMesh.Crypto
import UpiMesh.Mesh
import UpiMesh.Api
import UpiMesh.Books
import UpiMesh.Reconciliation
import UpiMesh.SelfPayment
import UpiMesh.SaveFaults
import UpiMesh.SettlementRows
import UpiMesh.InstructionReplay
import UpiMesh.Forgetting
import UpiMesh.DroppedPayments
import UpiMesh.ExactlyOnce
import UpiMesh.Lib.Protocol
import UpiMesh.SettlementActions
import UpiMesh.MeshActions
import UpiMesh.Untouched
import UpiMesh.Delivery
import UpiMesh.Lib.Linearize
import UpiMesh.LostUpdates
import UpiMesh.Independence
import UpiMesh.ResetBarrier
import UpiMesh.Overdraft
import UpiMesh.Connection
import UpiMesh.Isolation
import UpiMesh.Balances
import UpiMesh.CoveredBatch
import UpiMesh.Lib.Lockstep
import UpiMesh.RoutingData
import UpiMesh.Reflush
import UpiMesh.Answers
import UpiMesh.Lib.Interference
import UpiMesh.Retries
import UpiMesh.FaithfulCopies
import UpiMesh.HopCounts
import UpiMesh.GossipEffect
import UpiMesh.GossipSaturation
import UpiMesh.GossipOrder
import UpiMesh.Lib.Optimistic
import UpiMesh.OptimisticLocking
import UpiMesh.NamedParties
import UpiMesh.CacheTrace
import UpiMesh.Lib.Firsts
import UpiMesh.TransactionLog
import UpiMesh.Lib.Rounding
import UpiMesh.PaymentJson
import UpiMesh.Lib.Base64
import UpiMesh.WireFormat
import UpiMesh.BridgeIngest
import UpiMesh.Lib.Atomicity
import UpiMesh.Lib.Progress
import UpiMesh.Endpoints
import UpiMesh.Locks
import UpiMesh.Sections
import UpiMesh.CallEffects
import UpiMesh.Lib.Collect
import UpiMesh.OpActions
import UpiMesh.OpenTransaction
import UpiMesh.Growth
import UpiMesh.Sessions
import UpiMesh.ConcurrentDelivery
import UpiMesh.Provenance
import UpiMesh.HttpApi
import UpiMesh.HttpOutcomes
import UpiMesh.ListedPayments
import UpiMesh.EvictorCadence
