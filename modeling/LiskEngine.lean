import LiskEngine.AccountableSafety
import LiskEngine.AbiRecovery
import LiskEngine.GeneratedBlocks
import LiskEngine.BlockStorage
import LiskEngine.EventRoot
import LiskEngine.FinalizedBlocks
import LiskEngine.FailedCommand
import LiskEngine.AppliedHeaders
import LiskEngine.HostileBits
import LiskEngine.OwnHeaders
import LiskEngine.ParamsStore
import LiskEngine.ParamsUpdates
import LiskEngine.ValidatorsHash
import LiskEngine.CommonBlock
import LiskEngine.Download
import LiskEngine.CommitAdmission
import LiskEngine.CommitSelection
import LiskEngine.GeneratorStatus
import LiskEngine.SmtQuery
import LiskEngine.SmtVerify
import LiskEngine.TieBreak
import LiskEngine.CodecInputs
import LiskEngine.RmtRoots
import LiskEngine.SmtVariants
import LiskEngine.DiffdbScans
import LiskEngine.DiffdbSnapshots
import LiskEngine.BlockRestart
import LiskEngine.TxListRun
import LiskEngine.ResponseSafety
import LiskEngine.PoolSize
