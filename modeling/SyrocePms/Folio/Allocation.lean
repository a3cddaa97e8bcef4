import Mathlib.Data.Finset.Dedup
import SyrocePms.Department.Posting

/-! Allocation of posted debt between two windows of a booking. Whole charges are moved, or a
pair of adjustments shifts an amount. Amounts are in cents and may have fractions of a cent.
The store is that of one hotel, and an allocation is one transaction on it. -/

namespace SyrocePms.Folio.Allocation

open Lib
open Department (Code Payment deduplicateReportPayments rounded)

/-! ### Records -/

/-- The id of a charge. The two adjustments of an allocation take theirs from the request. -/
inductive ChargeId where
  | row (n : ℕ)
  | adjustment (request : ℕ) (onTarget : Bool)
  deriving DecidableEq

inductive Category where
  | splitAdjustment
  | other (n : ℕ)
  deriving DecidableEq

/-- A row of `folio_charges`. Old rows may have no id. -/
structure Charge where
  id : Option ChargeId
  folioId : Option ℕ
  category : Category := .other 0
  currency : Option Code
  total : Option ℚ
  chargeAmount : Option ℚ := none
  amount : Option ℚ := none
  invoiceId : Option ℕ := none
  businessDate : Option ℤ := none
  voided : Bool := false

structure Booking where
  id : ℕ
  currency : Option Code

structure FolioDoc where
  id : ℕ
  bookingId : ℕ
  isOpen : Bool := true
  currency : Option Code
  invoiceId : Option ℕ := none
  openingBalance : ℚ := 0
  balance : ℤ := 0

structure Invoice where
  bookingId : Option ℕ
  folioId : Option ℕ := none
  folioIds : List ℕ := []
  voided : Bool := false
  /-- The status is one of `cancelled`, `canceled`, `void` and `voided`. -/
  cancelled : Bool := false

/-! ### Requests -/

/-- What is to be allocated: charges that come to an expected amount, or an amount. -/
inductive Share where
  | items (chargeIds : List ChargeId) (expected : ℕ)
  | amount (cents : ℕ)

/-- A positive amount of at most 14 digits. -/
def ValidAmount (n : ℕ) : Prop := 0 < n ∧ n < 10 ^ 14

/-- The checks of `validate_allocation` and of the fields. -/
def Share.Valid : Share → Prop
  | .items ids expected => ids ≠ [] ∧ ids.Nodup ∧ ids.length ≤ 200 ∧ ValidAmount expected
  | .amount n => ValidAmount n

def Share.chargeIds : Share → List ChargeId
  | .items ids _ => ids
  | .amount _ => []

def Share.amountField : Share → Option ℕ
  | .items .. => none
  | .amount n => some n

/-- The field `expected_amount`. -/
def Share.expectedAmount : Share → Option ℕ
  | .items _ expected => some expected
  | .amount _ => none

def Share.asked : Share → ℕ
  | .items _ expected => expected
  | .amount n => n

/-- `FolioAllocationRequest`. -/
structure Request where
  requestId : ℕ
  bookingId : ℕ
  sourceFolioId : ℕ
  targetFolioId : ℕ
  share : Share
  reason : ℕ
  distinct : sourceFolioId ≠ targetFolioId
  valid : share.Valid

def Request.folioIds (body : Request) : List ℕ := [body.sourceFolioId, body.targetFolioId]

/-- What the fingerprint is taken of. The charges are sorted, so their order does not count. -/
structure Payload where
  bookingId : ℕ
  sourceFolioId : ℕ
  targetFolioId : ℕ
  chargeIds : Finset ChargeId
  amount : Option ℕ
  expectedAmount : Option ℕ
  reason : ℕ
  deriving DecidableEq

def Request.fingerprint (body : Request) : Payload where
  bookingId := body.bookingId
  sourceFolioId := body.sourceFolioId
  targetFolioId := body.targetFolioId
  chargeIds := body.share.chargeIds.toFinset
  amount := body.share.amountField
  expectedAmount := body.share.expectedAmount
  reason := body.reason

/-! ### The store -/

structure Result where
  allocationId : ℕ
  currency : Code
  transferredAmount : ℤ
  sourceFolioId : ℕ
  targetFolioId : ℕ
  sourceBalance : ℤ
  targetBalance : ℤ
  deriving DecidableEq

/-- A row of `folio_operations` that an allocation writes. -/
structure Operation where
  requestId : ℕ
  bookingId : ℕ
  chargeIds : List ChargeId
  reason : ℕ
  businessDate : ℤ
  fingerprint : Payload
  result : Result

/-- The balances of an audit row, of the source and of the target. -/
structure AuditEntry where
  requestId : ℕ
  result : Result
  before : ℤ × ℤ
  after : ℤ × ℤ

structure Store where
  bookings : List Booking
  folios : Collection FolioDoc FolioDoc.id
  charges : List Charge
  payments : List Payment := []
  invoices : List Invoice := []
  businessDate : Option ℤ
  operations : Collection Operation Operation.requestId
  audit : List AuditEntry := []

/-! ### The ledger of a folio -/

/-- `charge_amount` without rounding. -/
def Charge.value (c : Charge) : ℚ := (c.total.or (c.chargeAmount.or c.amount)).getD 0

def Charge.isPosted (folioId : ℕ) (c : Charge) : Bool := decide (c.folioId = some folioId) && !c.voided

def codeIn (folioCode : Code) (currency : Option Code) : Code := (currency.getD folioCode).ledger

/-- `currency_code(folio.get("currency") or booking.get("currency"), fallback)`. -/
def FolioDoc.code (f : FolioDoc) (booking : Option Booking) (fallback : Code) : Code :=
  ((f.currency.or (booking.bind Booking.currency)).getD fallback).ledger

def FolioDoc.openingIn (f : FolioDoc) (folioCode code : Code) : ℚ := if folioCode = code then f.openingBalance else 0

namespace Store

variable (s : Store)

def findBooking (id : ℕ) : Option Booking := s.bookings.find? fun b => b.id = id

def folioCode (f : FolioDoc) (fallback : Code) : Code := f.code (s.findBooking f.bookingId) fallback

def chargeRows (f : FolioDoc) : List Charge := s.charges.filter (Charge.isPosted f.id)

/-- The payments that count, of the folios that are read together. -/
def paymentRows (ids : List ℕ) : List Payment :=
  (deduplicateReportPayments (s.payments.filter fun x => x.folioId.any fun id => ids.contains id)).filter
    Payment.isValid

/-- `charges_by_currency` before its rounding. -/
def chargesIn (folioId : ℕ) (folioCode code : Code) : ℚ :=
  Documents.sumOf (fun c => c.isPosted folioId && decide (codeIn folioCode c.currency = code)) Charge.value s.charges

def paymentsIn (ids : List ℕ) (folioId : ℕ) (folioCode code : Code) : ℚ :=
  Documents.sumOf (fun x => decide (x.folioId = some folioId) && decide (codeIn folioCode x.currency = code))
    Payment.value (s.paymentRows ids)

def owed (ids : List ℕ) (f : FolioDoc) (fallback code : Code) : ℚ :=
  s.chargesIn f.id (s.folioCode f fallback) code - s.paymentsIn ids f.id (s.folioCode f fallback) code +
    f.openingIn (s.folioCode f fallback) code

def folioCodes (ids : List ℕ) (f : FolioDoc) (fallback : Code) : List Code :=
  (s.chargeRows f).map (fun c => codeIn (s.folioCode f fallback) c.currency) ++
    ((s.paymentRows ids).filter fun x => x.folioId = some f.id).map
        (fun x => codeIn (s.folioCode f fallback) x.currency) ++
      if f.openingBalance ≠ 0 then [s.folioCode f fallback] else []

def balanceByCurrency (ids : List ℕ) (f : FolioDoc) (fallback code : Code) : Option ℤ :=
  if code ∈ s.folioCodes ids f fallback then some (rounded (s.owed ids f fallback code)) else none

def isMixed (ids : List ℕ) (f : FolioDoc) (currency : Code) : Bool :=
  (s.folioCodes ids f currency).any fun code =>
    decide (code ≠ currency) && decide (s.balanceByCurrency ids f currency code ≠ some 0)

end Store

/-! ### The checks -/

inductive Refusal where
  | noTransaction | keyReused
  | bookingNotFound | folioNotFound | folioNotOpen
  | currencyUnknown | currencyMismatch
  | folioInvoiced | bookingInvoiced
  | businessDateInvalid
  | mixedCurrency
  | selectionChanged | chargeNotMovable | amountChanged | exceedsDebt
  | chargeChanged | folioChanged | duplicateKey
  /-- A write of the database fails. -/
  | rolledBack
  deriving DecidableEq

def require (p : Bool) (e : Refusal) : Except Refusal Unit := if p then .ok () else .error e

def found {α : Type} (x : Option α) (e : Refusal) : Except Refusal α :=
  match x with
  | some a => .ok a
  | none => .error e

/-- The two folios, with the currency that they share and the open business day. -/
structure Windows where
  source : FolioDoc
  target : FolioDoc
  currency : Code
  businessDate : ℤ

structure Plan extends Windows where
  selected : List Charge
  amount : ℤ
  sourceBefore : ℤ
  targetBefore : ℤ

def Charge.isMovable (folioCode : Code) (c : Charge) : Bool :=
  c.invoiceId.isNone && decide (c.category ≠ .splitAdjustment) && decide (0 < c.value) &&
    decide (c.value = rounded c.value) && decide (codeIn folioCode c.currency = folioCode)

def Share.amountOf (share : Share) (rows : List Charge) : Option ℤ :=
  if rows.isEmpty then share.amountField.map fun n => (n : ℤ) else some (rounded (rows.map Charge.value).sum)

namespace Store

variable (s : Store)

def selectBookingFolio (bookingId folioId : ℕ) : Except Refusal FolioDoc := do
  let f ← found (s.folios.findOne fun f => decide (f.bookingId = bookingId) && decide (f.id = folioId)) .folioNotFound
  require f.isOpen .folioNotOpen
  .ok f

def hasInvoice (body : Request) : Bool :=
  s.invoices.any fun i => !i.voided && !i.cancelled &&
    (decide (i.bookingId = some body.bookingId) || i.folioId.any body.folioIds.contains ||
      i.folioIds.any body.folioIds.contains)

def windows (body : Request) : Except Refusal Windows := do
  let b ← found (s.findBooking body.bookingId) .bookingNotFound
  let source ← s.selectBookingFolio body.bookingId body.sourceFolioId
  let target ← s.selectBookingFolio body.bookingId body.targetFolioId
  require (b.currency.isSome || source.currency.isSome && target.currency.isSome) .currencyUnknown
  require (source.code (some b) .TRY = target.code (some b) .TRY) .currencyMismatch
  require (source.invoiceId.isNone && target.invoiceId.isNone) .folioInvoiced
  require (!s.hasInvoice body) .bookingInvoiced
  let day ← found s.businessDate .businessDateInvalid
  .ok ⟨source, target, source.code (some b) .TRY, day⟩

/-- The balance of a folio in the currency of the windows, in cents. -/
def before (ids : List ℕ) (f : FolioDoc) (currency : Code) : ℤ := (s.balanceByCurrency ids f currency currency).getD 0

def selected (source : FolioDoc) (ids : List ChargeId) : List Charge :=
  (s.chargeRows source).filter fun c => c.id.any ids.contains

def plan (body : Request) : Except Refusal Plan := do
  let w ← s.windows body
  require (!s.isMixed body.folioIds w.source w.currency && !s.isMixed body.folioIds w.target w.currency) .mixedCurrency
  let rows := s.selected w.source body.share.chargeIds
  require (body.share.chargeIds.all fun i => (rows.map Charge.id).contains (some i)) .selectionChanged
  require (rows.all (Charge.isMovable w.currency)) .chargeNotMovable
  let amount ← found (body.share.amountOf rows) .exceedsDebt
  require (rows.isEmpty || decide (body.share.expectedAmount.map (fun n => (n : ℤ)) = some amount)) .amountChanged
  require (decide (0 < amount) && decide (amount ≤ s.before body.folioIds w.source w.currency)) .exceedsDebt
  .ok { w with
    selected := rows, amount := amount
    sourceBefore := s.before body.folioIds w.source w.currency
    targetBefore := s.before body.folioIds w.target w.currency }

/-! ### The writes -/

def move (source target : ℕ) (c : Charge) : Transaction Store Refusal Unit := fun s =>
  match s.charges.find? fun d => decide (d.id = c.id) && d.isPosted source with
  | none => .error .chargeChanged
  | some _ => .ok ({ s with
      charges := Documents.updateOne (fun d => decide (d.id = c.id) && d.isPosted source)
        (fun d => { d with folioId := some target }) s.charges }, ())

end Store

def adjustment (body : Request) (w : Windows) (onTarget : Bool) (amount : ℤ) : Charge where
  id := some (.adjustment body.requestId onTarget)
  folioId := some (if onTarget then w.target.id else w.source.id)
  category := .splitAdjustment
  currency := some w.currency
  total := some amount
  amount := some amount
  businessDate := some w.businessDate

def Plan.sourceAfter (p : Plan) : ℤ := p.sourceBefore - p.amount

def Plan.targetAfter (p : Plan) : ℤ := p.targetBefore + p.amount

def Plan.result (p : Plan) (body : Request) : Result where
  allocationId := body.requestId
  currency := p.currency
  transferredAmount := p.amount
  sourceFolioId := p.source.id
  targetFolioId := p.target.id
  sourceBalance := p.sourceAfter
  targetBalance := p.targetAfter

def Plan.operation (p : Plan) (body : Request) : Operation where
  requestId := body.requestId
  bookingId := body.bookingId
  chargeIds := body.share.chargeIds
  reason := body.reason
  businessDate := p.businessDate
  fingerprint := body.fingerprint
  result := p.result body

def Plan.auditEntry (p : Plan) (body : Request) : AuditEntry where
  requestId := body.requestId
  result := p.result body
  before := (p.sourceBefore, p.targetBefore)
  after := (p.sourceAfter, p.targetAfter)

/-- The answer. A replay gives the result of the first call. -/
structure Answer where
  result : Result
  replayed : Bool
  deriving DecidableEq

namespace Store

variable (s : Store)

/-- The rows of `folio_charges` that change. -/
def allocateCharges (body : Request) (p : Plan) : Except Refusal Store :=
  match body.share with
  | .items .. => (Transaction.forEach (move p.source.id p.target.id) p.selected s).map Prod.fst
  | .amount _ => .ok { s with
      charges := s.charges ++ [adjustment body p.toWindows false (-p.amount)] ++
        [adjustment body p.toWindows true p.amount] }

def setBalance (folioId : ℕ) (balance : ℤ) : Except Refusal Store := do
  let _ ← found (s.folios.findOne fun f => decide (f.id = folioId) && f.isOpen) .folioChanged
  .ok { s with folios := s.folios.update folioId fun f => { f with balance := balance } }

/-- The operation of the allocation, under the key of the request, and its audit row. -/
def record (body : Request) (p : Plan) : Except Refusal Store := do
  let operations ← found (s.operations.insertOne (p.operation body)) .duplicateKey
  .ok { s with operations := operations, audit := s.audit ++ [p.auditEntry body] }

def write (body : Request) (p : Plan) (fails : Bool) : Except Refusal (Store × Answer) := do
  let s₁ ← s.allocateCharges body p
  let s₂ ← s₁.setBalance p.source.id p.sourceAfter
  let s₃ ← s₂.setBalance p.target.id p.targetAfter
  let s₄ ← s₃.record body p
  require (!fails) .rolledBack
  .ok (s₄, ⟨p.result body, false⟩)

end Store

def allocatePostedDebt (body : Request) (session fails : Bool) : Transaction Store Refusal Answer := fun s => do
  require session .noTransaction
  match s.operations.get? body.requestId with
  | some op =>
    require (op.fingerprint = body.fingerprint) .keyReused
    .ok (s, ⟨op.result, true⟩)
  | none => do
    let p ← s.plan body
    s.write body p fails

def Store.allocate (s : Store) (body : Request) (session fails : Bool) : Store × Except Refusal Answer :=
  (allocatePostedDebt body session fails).run s

end SyrocePms.Folio.Allocation
