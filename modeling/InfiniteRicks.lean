import InfiniteRicks.Library.WriteBatch
import InfiniteRicks.Script
import InfiniteRicks.Transaction
import InfiniteRicks.BigNum
import InfiniteRicks.Block
import InfiniteRicks.TxDb
import InfiniteRicks.Mempool
import InfiniteRicks.Node
import InfiniteRicks.Connect
import InfiniteRicks.Ledger
import InfiniteRicks.ConnectSpec
import InfiniteRicks.Difficulty
import InfiniteRicks.Accept
import InfiniteRicks.History
import InfiniteRicks.Value
import InfiniteRicks.BestChain
import InfiniteRicks.BestChainSpec
import InfiniteRicks.Paths
import InfiniteRicks.Consistency
import InfiniteRicks.BlockIndex
import InfiniteRicks.Heaviest
import InfiniteRicks.Wallet
import InfiniteRicks.Library.MerkleTree
import InfiniteRicks.Merkle
import InfiniteRicks.MempoolSpec
import InfiniteRicks.Kernel
import InfiniteRicks.ProofOfStake
import InfiniteRicks.Checkpoints
import InfiniteRicks.AcceptSpec
import InfiniteRicks.SyncCheckpoint
import InfiniteRicks.Orphans
import InfiniteRicks.OrphanSpec
import InfiniteRicks.OrphanStakes
import InfiniteRicks.Maturity
import InfiniteRicks.Miner
import InfiniteRicks.MinerSpec
import InfiniteRicks.StakedBlock
import InfiniteRicks.PoolSupport
import InfiniteRicks.LevelDb
import InfiniteRicks.Library.Codec
import InfiniteRicks.Serialize
import InfiniteRicks.SignatureHash
import InfiniteRicks.CheckSig
import InfiniteRicks.Interpreter
import InfiniteRicks.Library.Hoare
import InfiniteRicks.InterpreterSpec
import InfiniteRicks.NetMessage
import InfiniteRicks.SendQueue
import InfiniteRicks.Alert
import InfiniteRicks.OrphanTx
import InfiniteRicks.OrphanTxSpec
import InfiniteRicks.Keystore
import InfiniteRicks.KeystoreSpec
import InfiniteRicks.KeyPool
import InfiniteRicks.KeyPoolSpec
import InfiniteRicks.SpentFlags
import InfiniteRicks.WalletCache
import InfiniteRicks.WalletRecord
import InfiniteRicks.WalletRecordSpec
import InfiniteRicks.AddrMan
import InfiniteRicks.AddrManSpec
import InfiniteRicks.AddrTried
import InfiniteRicks.AddrCheck
import InfiniteRicks.Locator
import InfiniteRicks.StakeReward
import InfiniteRicks.Depth
import InfiniteRicks.Passphrase
import InfiniteRicks.PassphraseSpec
import InfiniteRicks.Relock
import InfiniteRicks.Base58
import InfiniteRicks.WalletDump
import InfiniteRicks.WalletDumpSpec
import InfiniteRicks.Accounts
import InfiniteRicks.AccountsSpec
import InfiniteRicks.ListAccounts
import InfiniteRicks.Confirmations
import InfiniteRicks.Library.Assignment
import InfiniteRicks.MultiSig
import InfiniteRicks.FixSpent
import InfiniteRicks.Groupings
import InfiniteRicks.GroupingsSpec
import InfiniteRicks.Supply
import InfiniteRicks.Library.Flagged
import InfiniteRicks.SelectCoins
import InfiniteRicks.SelectCoinsSpec
import InfiniteRicks.CreateTransaction
import InfiniteRicks.CreateTransactionSpec
import InfiniteRicks.CoinStake
import InfiniteRicks.Solver
import InfiniteRicks.Signing
import InfiniteRicks.SigningSpec
import InfiniteRicks.TxTools
import InfiniteRicks.TxToolsSpec
import InfiniteRicks.CreateTool
import InfiniteRicks.Library.SortedMap
import InfiniteRicks.CreateToolSpec
import InfiniteRicks.KeyReuse
import InfiniteRicks.AlertEffect
import InfiniteRicks.OrphanNotices
import InfiniteRicks.Library.Shuffle
import InfiniteRicks.TriedEviction
import InfiniteRicks.TimeData
import InfiniteRicks.Money
import InfiniteRicks.MoneySpec
import InfiniteRicks.Library.Regroup
import InfiniteRicks.Base64
import InfiniteRicks.Base64Spec
import InfiniteRicks.AddrFile
import InfiniteRicks.AddrFileSpec
import InfiniteRicks.Library.Insertion
import InfiniteRicks.Reorder
import InfiniteRicks.ReorderSpec
import InfiniteRicks.Conservation
import InfiniteRicks.AddrRoundTrip
import InfiniteRicks.Library.Wildcard
import InfiniteRicks.Wildcard
import InfiniteRicks.SolverSpec
import InfiniteRicks.Fork
import InfiniteRicks.Lookups
import InfiniteRicks.DiskPos
import InfiniteRicks.BlockTimes
import InfiniteRicks.Rescan
import InfiniteRicks.RescanSpec
import InfiniteRicks.Library.WorkQueue
import InfiniteRicks.SupportingTx
import InfiniteRicks.SupportingTxSpec
import InfiniteRicks.Reaccept
import InfiniteRicks.ReacceptSpec
import InfiniteRicks.ImportFile
import InfiniteRicks.ImportFileSpec
import InfiniteRicks.Template
import InfiniteRicks.TemplateSpec
import InfiniteRicks.MoneyRange
import InfiniteRicks.BigNumSpec
import InfiniteRicks.ScriptBuild
import InfiniteRicks.BitcoinUnits
import InfiniteRicks.BitcoinUnitsSpec
import InfiniteRicks.SendMany
import InfiniteRicks.Dependers
import InfiniteRicks.DependersSpec
import InfiniteRicks.NetText
import InfiniteRicks.NetTextSpec
import InfiniteRicks.ListTransactions
import InfiniteRicks.ListTransactionsSpec
import InfiniteRicks.RawSigning
import InfiniteRicks.RawSigningSpec
import InfiniteRicks.TransactionRecord
import InfiniteRicks.CachedAmounts
import InfiniteRicks.TransactionRecordSpec
import InfiniteRicks.BaseUint
import InfiniteRicks.Library.Words
import InfiniteRicks.MruSet
import InfiniteRicks.BaseUintSpec
import InfiniteRicks.SigOpBudget
import InfiniteRicks.StandardRun
import InfiniteRicks.MineSigned
import InfiniteRicks.RelaySpec
import InfiniteRicks.LevelLogSpec
import InfiniteRicks.ChainDownload
import InfiniteRicks.AskFor
