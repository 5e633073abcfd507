import DigitalBits.Scp.ClosestVBlocking
import DigitalBits.Scp.BallotCounter
import DigitalBits.Scp.HeardFromQuorum
import DigitalBits.Scp.ConfirmPhase
import DigitalBits.Scp.CommitSearch
import DigitalBits.Scp.Recovery
import DigitalBits.Scp.Nomination
import DigitalBits.Transactions.OfferConversion
import DigitalBits.Transactions.SignatureWeight
import DigitalBits.Transactions.ValidatedTransaction
import DigitalBits.Transactions.ClaimPredicates
import DigitalBits.Herder.FeeGates
import DigitalBits.Herder.TransactionQueueRuns
import DigitalBits.Herder.SurgePricing
import DigitalBits.Herder.CloseTimeFilter
import DigitalBits.Ledger.LedgerManager
import DigitalBits.Bucket.SkipList
import DigitalBits.Bucket.BucketMergeMap
import DigitalBits.Crypto.StrKey
import DigitalBits.Herder.QuorumIntersection
import DigitalBits.Overlay.SurveyMessageLimiter
import DigitalBits.Overlay.ItemFetcher
import DigitalBits.Main.Config
import DigitalBits.Catchup.CatchupWork
import DigitalBits.Invariant.AccountSubEntriesCountIsValid
