import SyrocePms.Provider.Lifecycle
import SyrocePms.Provider.LockAgreement
import SyrocePms.Exely.NewestVersion
import SyrocePms.Exely.Handover
import SyrocePms.Import.AfterCancellation
import SyrocePms.Import.OneBooking
import SyrocePms.Import.Announced
import SyrocePms.NightAudit.DateOrder
import SyrocePms.Ledger.YearEndClose
import SyrocePms.Ledger.ClosedPeriods
import SyrocePms.Folio.Transfer
import SyrocePms.Folio.Checkout
import SyrocePms.Reservation.StatusWrites
import SyrocePms.Ari.Convergence
import SyrocePms.Ari.Suppression
import SyrocePms.Outbox.Attempts
import SyrocePms.Hold.Agreement
import SyrocePms.NightAudit.Books
import SyrocePms.NightAudit.Abort
import SyrocePms.NightAudit.Eligible
import SyrocePms.Atomic.LockSets
import SyrocePms.Outbox.Deduplication
import SyrocePms.Idempotency.Claims
import SyrocePms.Folio.KeyScope
import SyrocePms.Folio.Voids
import SyrocePms.Ledger.VoucherAgreement
import SyrocePms.Ledger.ChartCalls
import SyrocePms.Audit.Appends
import SyrocePms.Billing.FundConservation
import SyrocePms.Billing.InstrumentUse
import SyrocePms.Ari.AckedContent
import SyrocePms.Provider.Delivered
import SyrocePms.Ingest.RoomsInStep
import SyrocePms.Agency.AllotmentRespected
import SyrocePms.PosFolio.Settled
import SyrocePms.Cashier.OneShift
import SyrocePms.OperationalGl.PostedOnce
import SyrocePms.AgencyCredit.CreditFence
import SyrocePms.MinibarStock.DepletedOnce
import SyrocePms.CardCollection.ChargedOnce
import SyrocePms.AutoCollection.OncePerKind
import SyrocePms.KbsDispatch.NotifiedOnce
import SyrocePms.PosCheck.OneLife
import SyrocePms.RecipeStock.FollowsSale
import SyrocePms.Quota.Counted
import SyrocePms.InvoiceGl.Steps
import SyrocePms.RoomMove.Consistent
import SyrocePms.InvoiceActions.OnceAtProvider
import SyrocePms.InvoiceReturns.Conserved
import SyrocePms.Exely.ChangedRanges
import SyrocePms.Exely.RoomStays
import SyrocePms.ChannelCalendar.Selection
import SyrocePms.ExelyAri.PriceEnvelopes
import SyrocePms.Ingest.Skips
import SyrocePms.PushQueue.Merges
import SyrocePms.ExelyAri.Redelivery
import SyrocePms.Payables.Sound
import SyrocePms.Department.ChargedOnce
import SyrocePms.RoomLocks.ManualRepair
import SyrocePms.Reservation.OverlapGuard
import SyrocePms.EditLock.Leases
import SyrocePms.Ledger.OrdinalsResolved
import SyrocePms.Atomic.AllOrNothing
import SyrocePms.Ledger.RevaluationRuns
import SyrocePms.Ari.DriftRepair
import SyrocePms.NightAudit.Classification
import SyrocePms.Ari.DateMerging
import SyrocePms.Folio.RoomRevenue
import SyrocePms.Folio.ExactParts
import SyrocePms.Folio.AllocatedDebt
import SyrocePms.Idempotency.ShortWindow
import SyrocePms.Loyalty.LedgerBalance
import SyrocePms.Ari.AttemptCounts
import SyrocePms.PosCheck.TenderRefunds
import SyrocePms.PosCheck.Benefits
import SyrocePms.NightAudit.StayPrice
import SyrocePms.Occupancy.Quote
import SyrocePms.Crypto.Envelope
import SyrocePms.FixedAssets.Depreciation
import SyrocePms.AgencyCredit.Clearing
