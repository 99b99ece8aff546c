import RustTron.State.Session.Handles
import RustTron.Consensus.Rewards
import RustTron.Consensus.Tally
import RustTron.Consensus.Agreement
import RustTron.Consensus.PbftMarker
import RustTron.Consensus.Solidified
import RustTron.Consensus.Statistics
import RustTron.Consensus.Production
import RustTron.Consensus.Planning
import RustTron.Consensus.VoteFaults
import RustTron.Consensus.Expiry
import RustTron.Consensus.Earnings
import RustTron.Consensus.Voting
import RustTron.Staking.Effects
import RustTron.Staking.Weight
import RustTron.Tvm.Refinement
import RustTron.Tvm.Legacy
import RustTron.Consensus.Governance
import RustTron.Execution.Replica
import RustTron.Execution.NonInterference
import RustTron.Execution.Restoration
import RustTron.Execution.OnWire.Transaction
import RustTron.Staking.Indexes
import RustTron.Staking.Conservation
import RustTron.Staking.Settlement
import RustTron.Tvm.MemoryEnergy
import RustTron.Tvm.Arithmetic
import RustTron.Tvm.Metering
import RustTron.Tvm.WellFormed
import RustTron.Tvm.AbiDecoding
import RustTron.Staking.Windows
import RustTron.Storage.Durability
import RustTron.State.Khaos.Retention
import RustTron.State.Khaos.Bounds
import RustTron.State.Khaos.Branch
import RustTron.State.TimeTravel
import RustTron.State.Restart
import RustTron.State.Session.Isolation
import RustTron.Storage.MarketOrder
import RustTron.Storage.Format
import RustTron.Library.FMap
import RustTron.Library.Rows
import RustTron.Library.Results
import RustTron.Library.Prog
import RustTron.Network.SyncRound
import RustTron.Network.SyncService
import RustTron.Network.Announcements
import RustTron.Network.Registry
import RustTron.Network.Delivery
import RustTron.Execution.SolidityReplica
import RustTron.Network.Backups
import RustTron.Execution.EnergyPlan
import RustTron.State.Publication
import RustTron.Apis.SectionBloom
import RustTron.Network.Discovery.ConnectionPool
import RustTron.Network.Discovery.Kademlia
import RustTron.Storage.ManifestCodec
import RustTron.Shielded.MerkleCodec
import RustTron.Tvm.ShieldedFrontier
import RustTron.Primitives.Market
import RustTron.Execution.MerkleRoot
import RustTron.Crypto.Address
import RustTron.Apis.Json.Normalizer
import RustTron.Apis.Json.Lenient
import RustTron.Apis.Json.Admission
