import ZentraChain.Lib.Cursor
import ZentraChain.Lib.FinmapSum
import ZentraChain.Lib.Saturating
import ZentraChain.Lib.Wrapping
import ZentraChain.Lib.Walk
import ZentraChain.Lib.Ancestry
import ZentraChain.Lib.UndoStack
import ZentraChain.Core.Records
import ZentraChain.Core.Utxo
import ZentraChain.Core.UtxoUndo
import ZentraChain.Core.UtxoValue
import ZentraChain.Consensus.Emission
import ZentraChain.Consensus.Ghostdag
import ZentraChain.Consensus.Mergeset
import ZentraChain.Consensus.Cluster
import ZentraChain.Consensus.Difficulty
import ZentraChain.Consensus.TargetBytes
import ZentraChain.Consensus.Compact
import ZentraChain.Consensus.Retarget
import ZentraChain.Consensus.Miner
import ZentraChain.Core.Mempool
import ZentraChain.Core.Dag
import ZentraChain.Core.MerkleProof
import ZentraChain.Node.Chain
import ZentraChain.Node.Validate
import ZentraChain.Node.ValidateSpec
import ZentraChain.Node.Payable
import ZentraChain.Node.Reorganize
import ZentraChain.Node.Connect
import ZentraChain.Node.DagWf
import ZentraChain.Node.Replay
import ZentraChain.Node.Disconnect
import ZentraChain.Node.ConnectSpec
import ZentraChain.Node.Run
import ZentraChain.Node.Window
import ZentraChain.Node.Root
import ZentraChain.Node.MedianTime
import ZentraChain.Node.BlueScore
import ZentraChain.Node.Converge
import ZentraChain.Node.DagIndex
import ZentraChain.Node.ChainEnds
import ZentraChain.Node.GhostdagBytes
import ZentraChain.Node.Mining
import ZentraChain.Node.Admission
import ZentraChain.Node.Agrees
import ZentraChain.Node.Reorg
import ZentraChain.Node.FreshReorg
import ZentraChain.Node.Live
import ZentraChain.Node.Conservation
import ZentraChain.Node.Maturity
import ZentraChain.Node.Supply
import ZentraChain.Node.CoinbaseOnce
import ZentraChain.Finance.Amm
import ZentraChain.Finance.AmmErrors
import ZentraChain.Node.Body
import ZentraChain.Node.Structure
import ZentraChain.Node.Orphans
import ZentraChain.Node.ExactDifficulty
import ZentraChain.Node.Pending
import ZentraChain.Node.BlocksAbove
import ZentraChain.Node.Frames
import ZentraChain.Core.Writes
import ZentraChain.Node.Crash
import ZentraChain.Lib.Collisions
import ZentraChain.Node.MergePay
import ZentraChain.Node.Pull
import ZentraChain.Lib.Runs
import ZentraChain.Finance.Tss
import ZentraChain.Finance.Pol
import ZentraChain.Finance.Vault
import ZentraChain.Finance.VaultBacking
import ZentraChain.Finance.VaultThreshold
import ZentraChain.Finance.VaultMessage
import ZentraChain.Core.Address
import ZentraChain.Node.VaultRpc
import ZentraChain.Node.Pool
import ZentraChain.Node.Share
import ZentraChain.Node.ShareOnce
import ZentraChain.Node.ShareQueue
import ZentraChain.Node.Payout
import ZentraChain.Node.Rollover
import ZentraChain.Finance.Quarantine
import ZentraChain.Finance.EncryptedMempool
import ZentraChain.Runtime.Governance
import ZentraChain.Runtime.Engine
import ZentraChain.Node.FaucetLimit
import ZentraChain.Core.MempoolWf
import ZentraChain.Node.FaucetClaim
import ZentraChain.Runtime.State
import ZentraChain.Lib.Listing
import ZentraChain.Runtime.History
import ZentraChain.Node.SwapRpc
import ZentraChain.Core.Resigning
import ZentraChain.Node.BlockValidator
import ZentraChain.Lib.Greedy
import ZentraChain.Wallet.Transfer
import ZentraChain.Node.Peers
import ZentraChain.Runtime.HostPanics
import ZentraChain.Lib.Visited
import ZentraChain.Node.Ancestor
import ZentraChain.Lib.Newton
import ZentraChain.Finance.IntegerSqrt
import ZentraChain.Finance.AmmReserves
import ZentraChain.Lib.Codec
import ZentraChain.Core.Decoding
import ZentraChain.Node.Wire
import ZentraChain.Lib.Table
import ZentraChain.Node.Database
import ZentraChain.Node.DagGraph
import ZentraChain.Lib.Threads
import ZentraChain.Node.NonceSearch
import ZentraChain.Lib.Dialogue
import ZentraChain.Node.Session
import ZentraChain.Node.SyncFromPeer
import ZentraChain.Node.Traffic
import ZentraChain.Node.PoolMember
import ZentraChain.Lib.DepthFirst
import ZentraChain.Node.Explorer
import ZentraChain.Node.AddressHistory
import ZentraChain.Node.AddressBalance
