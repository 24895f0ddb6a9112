import BitzPool.Lib.Broadcast
import BitzPool.Lib.Run
import BitzPool.Lib.Table
import BitzPool.Lib.Split
import BitzPool.Lib.LittleEndian
import BitzPool.Lib.FixedCodec
import BitzPool.Lib.Update
import BitzPool.Lib.Maxima
import BitzPool.Lib.Locks
import BitzPool.Lib.Discipline
import BitzPool.Database
import BitzPool.UpdateRewards
import BitzPool.MineSuccess
import BitzPool.PayoutTask
import BitzPool.Payout
import BitzPool.Claims
import BitzPool.Treasury
import BitzPool.Ledger
import BitzPool.Steps
import BitzPool.TreasurySteps
import BitzPool.ClaimOnce
import BitzPool.ClaimCover
import BitzPool.Solvency
import BitzPool.Reconcile
import BitzPool.Epoch
import BitzPool.Submission
import BitzPool.Mining
import BitzPool.MiningSteps
import BitzPool.Window
import BitzPool.EpochReset
import BitzPool.Rounds
import BitzPool.Distribution
import BitzPool.EpochSound
import BitzPool.BestKept
import BitzPool.Epochs
import BitzPool.ClaimFee
import BitzPool.Connections
import BitzPool.WorkerNames
import BitzPool.PayoutFaults
import BitzPool.Completeness
import BitzPool.ClaimBooked
import BitzPool.ClaimQueued
import BitzPool.ClaimRemoved
import BitzPool.ClaimAuth
import BitzPool.ClaimCooldown
import BitzPool.EpochEntry
import BitzPool.ProofOrder
import BitzPool.Assignment
import BitzPool.StartMining
import BitzPool.ResetOrder
import BitzPool.NonceOwners
import BitzPool.Assigned
import BitzPool.Serving
import BitzPool.Attribution
import BitzPool.Eviction
import BitzPool.ChallengeCredit
import BitzPool.PayoutOrder
import BitzPool.WireMessages
import BitzPool.ClientFrames
import BitzPool.NonceWire
import BitzPool.Signup
import BitzPool.SignupLoop
import BitzPool.CreditBatches
import BitzPool.MoreWork
import BitzPool.Commission
import BitzPool.ClaimOrder
import BitzPool.EnsureChallenge
import BitzPool.RewardSent
import BitzPool.OtherTasks
import BitzPool.Server
import BitzPool.Billing
import BitzPool.Enrolled
import BitzPool.ServerBooks
import BitzPool.PaidWork
import BitzPool.Startup
import BitzPool.Crashes
import BitzPool.Transfers
import BitzPool.Reopened
import BitzPool.Locking
import BitzPool.DeadConnections
