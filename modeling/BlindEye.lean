import BlindEye.Library.Epochs
import BlindEye.Library.Fallible
import BlindEye.Library.Families
import BlindEye.Library.FiniteMap
import BlindEye.Library.LittleEndian
import BlindEye.Library.Codec
import BlindEye.Library.LockOrder
import BlindEye.Library.Blake3
import BlindEye.Library.PairTree
import BlindEye.Library.ParentWalk
import BlindEye.Library.Runs
import BlindEye.Library.RoundNearest
import BlindEye.Library.Schedules
import BlindEye.Library.ShortestPrefix
import BlindEye.Library.SpendHistory
import BlindEye.Blockchain
import BlindEye.ChainViews
import BlindEye.Mempool
import BlindEye.Node
import BlindEye.WalletApp
import BlindEye.Reference
import BlindEye.WalletReference
import BlindEye.AddBlock
import BlindEye.ChainState
import BlindEye.Atomicity
import BlindEye.HeightDiscipline
import BlindEye.Emission
import BlindEye.LedgerRules
import BlindEye.Supply
import BlindEye.DeliveryOrder
import BlindEye.CoinHistory
import BlindEye.CoinCreation
import BlindEye.SpendOnce
import BlindEye.MerkleCommitment
import BlindEye.ForkChoice
import BlindEye.DifficultyRule
import BlindEye.MempoolRules
import BlindEye.FeeFloor
import BlindEye.SharedTurns
import BlindEye.PoolInvariants
import BlindEye.Submission
import BlindEye.Confirmation
import BlindEye.CoinOrigin
import BlindEye.BlockValidity
import BlindEye.PoolSources
import BlindEye.SpendablePool
import BlindEye.TemplateAcceptance
import BlindEye.HonestCoinbase
import BlindEye.WalletAdmission
import BlindEye.WalletSelection
import BlindEye.FeeEstimate
import BlindEye.AddressSpelling
import BlindEye.WalletSessions
import BlindEye.NodeLocks
import BlindEye.P2p
import BlindEye.BincodeFormat
import BlindEye.Framing
import BlindEye.Sync
import BlindEye.RootedState
import BlindEye.SyncConvergence
import BlindEye.Reconciliation
import BlindEye.RegistryRaces
import BlindEye.RpcRegistry
import BlindEye.SocketAddr
import BlindEye.Peers
import BlindEye.PeerLimit
import BlindEye.Gossip
import BlindEye.GossipBound
import BlindEye.Library.Rounding
import BlindEye.CompactTarget
import BlindEye.TargetRounding
import BlindEye.Difficulty
import BlindEye.DifficultyLaw
import BlindEye.MiningThreads
import BlindEye.MiningSearch
import BlindEye.MinerSessions
import BlindEye.MiningProgress
import BlindEye.HonestMiners
import BlindEye.MiningNetwork
import BlindEye.NodeRestarts
import BlindEye.EmissionTotal
import BlindEye.Library.Decimal
import BlindEye.AmountText
import BlindEye.Library.Greedy
import BlindEye.BlockSelection
import BlindEye.HistoryView
import BlindEye.AddrText
import BlindEye.Privacy
import BlindEye.Preimages
import BlindEye.GenesisWalk
import BlindEye.PeerViews
import BlindEye.PeerExit
import BlindEye.SyncPeers
import BlindEye.Exchange
import BlindEye.ExchangeSteps
import BlindEye.SelfPeering
