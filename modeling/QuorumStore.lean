import QuorumStore.Bytes
import QuorumStore.Names
import QuorumStore.Fault
import QuorumStore.Record
import QuorumStore.Reply
import QuorumStore.Gossip
import QuorumStore.Quorum
import QuorumStore.Lifecycle
import QuorumStore.Arrangement
import QuorumStore.Hash.Murmur
import QuorumStore.Text.Printable
import QuorumStore.Text.Quoted
import QuorumStore.Json.Value
import QuorumStore.Json.Printer
import QuorumStore.Json.Reader
import QuorumStore.Placement.Arena
import QuorumStore.Placement.Index
import QuorumStore.Placement.Ring
import QuorumStore.Hint.Filter
import QuorumStore.Hint.Bits
import QuorumStore.Hint.Octets
import QuorumStore.Store.Bucketed
import QuorumStore.Store.Frame
import QuorumStore.Registry.State
import QuorumStore.Registry.Selection
import QuorumStore.Registry.Sharing
import QuorumStore.Cluster.Fleet
import QuorumStore.Cluster.Line
import QuorumStore.Cluster.Replicas
import QuorumStore.Coordinator.Agreement
import QuorumStore.Coordinator.FieldTable
import QuorumStore.Coordinator.Outcome
import QuorumStore.Coordinator.Verdict
import QuorumStore.Coordinator.Operation
import QuorumStore.Repair.Diagnosis
import QuorumStore.Repair.Pass
import QuorumStore.Repair.Turns
import QuorumStore.Repair.Shift
import QuorumStore.Repair.Backlog
import QuorumStore.Membership.Bus
import QuorumStore.Membership.Network
import QuorumStore.Membership.Directory
import QuorumStore.Membership.Mesh
import QuorumStore.Cluster.Assembly
import QuorumStore.Rpc.Wire
import QuorumStore.Rpc.Envelope
import QuorumStore.Rpc.Server
import QuorumStore.Rpc.Client
import QuorumStore.Rpc.Member
import QuorumStore.Settings.Toml.Scalar
import QuorumStore.Settings.Toml.Document
import QuorumStore.Settings
import QuorumStore.Proofs.LastWrite
import QuorumStore.Proofs.Convergence
import QuorumStore.Proofs.RedBlack.Shape
import QuorumStore.Proofs.RedBlack.Balance
import QuorumStore.Proofs.RedBlack.Rewiring
import QuorumStore.Proofs.RedBlack.Searching
import QuorumStore.Proofs.RedBlack.Insertion
import QuorumStore.Proofs.RedBlack.Refilling
import QuorumStore.Proofs.RedBlack.Unlinking
import QuorumStore.Proofs.RedBlack.Deletion
import QuorumStore.Proofs.RedBlack.Walking
import QuorumStore.Proofs.SearchOrder
import QuorumStore.Proofs.FiniteMap
import QuorumStore.Proofs.RedBlack.Invariants
import QuorumStore.Proofs.Owners
import QuorumStore.Proofs.SharedPositions
import QuorumStore.Proofs.Peers
import QuorumStore.Proofs.StrictMajority
import QuorumStore.Proofs.Contacted
import QuorumStore.Proofs.Diagnosed
import QuorumStore.Proofs.Honest
import QuorumStore.Proofs.Reissue
import QuorumStore.Proofs.Plans
import QuorumStore.Proofs.Answers
import QuorumStore.Proofs.Unanimity
import QuorumStore.Proofs.WriteVerdicts
import QuorumStore.Proofs.Acknowledged
import QuorumStore.Proofs.HintFlow
import QuorumStore.Proofs.ReadAfterWrite
import QuorumStore.Proofs.Choices
import QuorumStore.Proofs.BusRuns
import QuorumStore.Proofs.HintAgreement
import QuorumStore.Proofs.SharingLoops
import QuorumStore.Proofs.HintCount
import QuorumStore.Proofs.PeerClocks
import QuorumStore.Proofs.Tallies
import QuorumStore.Proofs.ServedRecord
import QuorumStore.Proofs.SingleReplies
import QuorumStore.Proofs.Ballots
import QuorumStore.Proofs.Healthy
import QuorumStore.Proofs.Restored
import QuorumStore.Proofs.EqualScores
import QuorumStore.Proofs.Following
import QuorumStore.Proofs.Reconciling
import QuorumStore.Proofs.Findable
import QuorumStore.Proofs.DeliveryOrder
import QuorumStore.Proofs.Attempts
import QuorumStore.Proofs.Shipping
import QuorumStore.Proofs.Traffic
import QuorumStore.Proofs.Broadcasting
import QuorumStore.Proofs.Posting
import QuorumStore.Proofs.Returning
import QuorumStore.Proofs.WriteOutcomes
import QuorumStore.Proofs.WriteOrder
import QuorumStore.Proofs.ReadOutcomes
import QuorumStore.Proofs.QuietReads
import QuorumStore.Proofs.ReadOrder
import QuorumStore.Proofs.SingleMap
import QuorumStore.Proofs.ConflictRules
import QuorumStore.Proofs.HealthyReads
import QuorumStore.Proofs.OutvotedDeletions
import QuorumStore.Proofs.BatchOutcomes
import QuorumStore.Proofs.ReadBack
import QuorumStore.Proofs.HintOctets
import QuorumStore.Proofs.Undisturbed
import QuorumStore.Proofs.NoGhosts
import QuorumStore.Proofs.Placeable
import QuorumStore.Proofs.HintMemory
import QuorumStore.Proofs.HintJoin
import QuorumStore.Proofs.SpareBits
import QuorumStore.Proofs.ScoreLimit
import QuorumStore.Proofs.Staff
import QuorumStore.Proofs.ScoreRoom
import QuorumStore.Proofs.RemoteNodes
import QuorumStore.Proofs.FieldTables
import QuorumStore.Proofs.Surveys
import QuorumStore.Proofs.Corroborated
import QuorumStore.Proofs.Recorded
import QuorumStore.Proofs.Hearings
import QuorumStore.Proofs.PassAccounts
import QuorumStore.Proofs.MajorityShare
import QuorumStore.Proofs.Listeners
import QuorumStore.Proofs.SlotAccount
import QuorumStore.Proofs.Deliveries
import QuorumStore.Proofs.Dispatching
import QuorumStore.Proofs.Envelopes
