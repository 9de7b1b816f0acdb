import TheChannel.SavannaSafety
import TheChannel.BlockState
import TheChannel.ForkDbFile
import TheChannel.HeaderPaths
import TheChannel.LegacyHeader
import TheChannel.ProposerRun
import TheChannel.TransactionOnce
import TheChannel.RamBilling
import TheChannel.PermissionTree
import TheChannel.QcMetrics
import TheChannel.QcData
import TheChannel.ForkDbBranch
import TheChannel.UndoIndexDelta
import TheChannel.UndoIndexFail
import TheChannel.ResourceLimits
import TheChannel.FinalizerProposal
import TheChannel.RamCost
import TheChannel.VarInt
import TheChannel.QcConcurrent
import TheChannel.MerkleLegacy
import TheChannel.Multisig
import TheChannel.ClaimDeposits
import TheChannel.OrgCalendar
import TheChannel.ResourcePool
import TheChannel.BpGossip
import TheChannel.FlexTokenFees
import TheChannel.StakeConservation
import TheChannel.BlockPaySelection
import TheChannel.ElasticLimits
import TheChannel.UnappliedQueue
import TheChannel.MoreKeys
import TheChannel.SetCode
import TheChannel.SnapshotScheduler
import TheChannel.ProducerWakeUp
import TheChannel.Endpoint
import TheChannel.PendingAgreement
