import SyrocePms.Lib.Collection
import SyrocePms.Lib.Decimal
import SyrocePms.Lib.Documents
import SyrocePms.Lib.Machine
import SyrocePms.Lib.Transaction
import SyrocePms.Reservation.Stay

/-! Charges that a department posts to the folio of a stay, each from a source of its own, and
the close of the business day. Amounts that are stored are in cents; what a source or an old
record says is a number in whole units, or nothing that reads as one. A posting is one
transaction, and transactions are serializable. -/

namespace SyrocePms.Department

open Lib Reservation

/-! ### Sources -/

inductive Kind where
  | concierge | mice | transfer | parking | upsell | roomService | roomServiceOrder | activity
  | functionSpace
  deriving DecidableEq

/-- A field of a charge that names its source. -/
inductive RefField where
  | sourceConciergeRequestId | sourceMiceEventId | sourceTransportBookingId | sourceUpsellOfferId
  | sourceQrSubmissionLineId | sourceRoomServiceOrderLineId | sourceActivityBookingId
  | sourceFunctionBookingId | miceEventId | upsellOfferId
  deriving DecidableEq

def Kind.sourceField : Kind → RefField
  | .concierge => .sourceConciergeRequestId
  | .mice => .sourceMiceEventId
  | .transfer | .parking => .sourceTransportBookingId
  | .upsell => .sourceUpsellOfferId
  | .roomService => .sourceQrSubmissionLineId
  | .roomServiceOrder => .sourceRoomServiceOrderLineId
  | .activity => .sourceActivityBookingId
  | .functionSpace => .sourceFunctionBookingId

/-- The fields that the source query asks for. A charge of the kind has all of them. -/
def Kind.fields (k : Kind) : List RefField :=
  match k with
  | .mice => [k.sourceField, .miceEventId]
  | .upsell => [k.sourceField, .upsellOfferId]
  | _ => [k.sourceField]

inductive Code where
  | TRY | TL
  | other (n : ℕ)
  deriving DecidableEq

def Code.ledger : Code → Code
  | .TL => .TRY
  | c => c

/-- What is to be charged. `rest` stands for the other fields: texts, dates, reason, reference. -/
structure Source where
  kind : Kind
  id : ℕ
  bookingId : Option ℕ
  folioId : Option ℕ
  currency : Code
  gross : Option ℚ
  tax : Option (Option ℚ)
  rest : ℕ := 0
  deriving DecidableEq

def Source.on (src : Source) (folioId : ℕ) : Source := { src with folioId := some folioId }

/-- Cents of an amount from 0 to 10⁹ without fractions of a cent. -/
def money : Option ℚ → Option ℕ
  | some q => if 0 ≤ q ∧ q ≤ 10 ^ 9 ∧ (q * 100).den = 1 then some (q * 100).num.toNat else none
  | none => none

/-! ### Records -/

structure Booking where
  id : ℕ
  status : BookingStatus
  merged : Bool := false
  currency : Option Code
  isFullComp : Bool := false

/-- A charge that an old version kept in the folio itself. -/
structure EmbeddedCharge where
  conciergeRequestId : Option ℕ
  amount : Option ℚ
  currency : Option Code
  deriving DecidableEq

structure Folio where
  id : ℕ
  bookingId : ℕ
  isOpen : Bool := true
  currency : Option Code
  openingBalance : ℚ := 0
  charges : List EmbeddedCharge := []
  balance : ℤ := 0
  deriving DecidableEq

/-- The ids of a charge, which its kind and its source give. -/
inductive Key where
  | department (kind : Kind) (source : ℕ)
  | other (n : ℕ)
  deriving DecidableEq

structure Charge where
  key : Key
  id : Key
  bookingId : Option ℕ
  folioId : Option ℕ
  refs : List (RefField × ℕ)
  currency : Option Code
  total : Option ℚ
  chargeAmount : Option ℚ := none
  amount : Option ℚ
  vatAmount : Option ℚ := none
  businessDate : Option ℤ
  fingerprint : Option Source := none
  voided : Bool := false
  isComplimentary : Bool := false
  complimentaryOriginal : Option ℚ := none

/-- A payment. `identity` is what makes two rows one payment. -/
structure Payment where
  identity : ℕ
  folioId : Option ℕ
  amount : ℚ
  currency : Option Code
  isValid : Bool := true
  isRefund : Bool := false

/-- A row that the MICE module keeps for a charge of an event. -/
structure MicePosting where
  reference : ℕ
  reservationId : Option ℕ
  amount : Option ℚ
  currency : Option Code
  folioId : Option ℕ := none
  chargeId : Option Key := none
  businessDate : Option ℤ := none

/-- A night audit of a business date. -/
structure AuditRun where
  id : ℕ
  businessDate : ℤ
  completed : Bool := false

/-- What postings read and write. `postRevision` counts the postings of the day. -/
structure Desk where
  bookings : List Booking
  folios : Collection Folio Folio.id
  charges : Collection Charge Charge.key
  payments : List Payment
  micePostings : List MicePosting
  businessDate : Option ℤ
  postRevision : ℕ := 0
  runs : Collection AuditRun AuditRun.id

/-! ### The ledger of a folio -/

def Charge.value (c : Charge) : ℚ := (c.total.or (c.chargeAmount.or c.amount)).getD 0

/-- `effective_folio_payment`. -/
def Payment.value (x : Payment) : ℚ := if x.isValid then if x.isRefund then -|x.amount| else x.amount else 0

/-- One row more: a second row of a payment is left out, or takes the place of an invalid one. -/
def addUnique (unique : List Payment) (x : Payment) : List Payment :=
  if unique.any fun u => u.identity = x.identity then
    unique.map fun u => if u.identity = x.identity ∧ u.isValid = false ∧ x.isValid = true then x else u
  else unique ++ [x]

def deduplicateReportPayments (payments : List Payment) : List Payment := payments.foldl addUnique []

/-- Half up, away from zero. -/
def rounded (q : ℚ) : ℤ := if 0 ≤ q then Decimal.halfUp q else -Decimal.halfUp (-q)

namespace Desk

variable (s : Desk)

def findBooking (id : ℕ) : Option Booking := s.bookings.find? fun b => b.id = id

def folioCurrency (f : Folio) (fallback : Code) : Code :=
  ((f.currency.or ((s.findBooking f.bookingId).bind Booking.currency)).getD fallback).ledger

def chargeRows (f : Folio) : List Charge :=
  s.charges.rows.filter fun c => decide (c.folioId = some f.id) && !c.voided

def paymentRows (f : Folio) : List Payment :=
  (deduplicateReportPayments (s.payments.filter fun x => x.folioId = some f.id)).filter Payment.isValid

def chargesIn (f : Folio) (fallback code : Code) : ℚ :=
  Documents.sumOf (fun c => decide ((c.currency.getD (s.folioCurrency f fallback)).ledger = code)) Charge.value
    (s.chargeRows f)

def paymentsIn (f : Folio) (fallback code : Code) : ℚ :=
  Documents.sumOf (fun x => decide ((x.currency.getD (s.folioCurrency f fallback)).ledger = code)) Payment.value
    (s.paymentRows f)

def openingIn (f : Folio) (fallback code : Code) : ℚ :=
  if s.folioCurrency f fallback = code then f.openingBalance else 0

def folioCodes (f : Folio) (fallback : Code) : List Code :=
  (s.chargeRows f).map (fun c => (c.currency.getD (s.folioCurrency f fallback)).ledger) ++
    (s.paymentRows f).map (fun x => (x.currency.getD (s.folioCurrency f fallback)).ledger) ++
      if f.openingBalance ≠ 0 then [s.folioCurrency f fallback] else []

def balanceByCurrency (f : Folio) (fallback code : Code) : Option ℤ :=
  if code ∈ s.folioCodes f fallback then
    some (rounded (s.chargesIn f fallback code - s.paymentsIn f fallback code + s.openingIn f fallback code))
  else none

/-! ### Posting -/

end Desk

/-- Why a posting is refused. Nothing is written then. -/
inductive Refusal where
  | bookingNotFound | bookingClosed
  | folioNotFound | folioNotOpen | severalOpenFolios | noOpenFolio
  | currencyMismatch | amountInvalid | taxExceedsTotal
  | priorMismatch | legacyConciergeMismatch | legacyMiceMismatch
  | businessDateInvalid | dayClosed | duplicateKey
  /-- The projection of the booking or the audit chain raises. -/
  | rolledBack

/-- What a source comes to at its booking: the folio, the amounts that are charged, and the
amount before a stay that is complimentary in full takes it away. -/
structure Target where
  folioId : ℕ
  embedded : List EmbeddedCharge
  gross : ℕ
  tax : Option ℕ
  original : ℕ
  fullComp : Bool

def Booking.target (b : Booking) (f : Folio) (gross : ℕ) (tax : Option ℕ) : Target where
  folioId := f.id
  embedded := f.charges
  gross := if b.isFullComp then 0 else gross
  tax := if b.isFullComp then tax.map fun _ => 0 else tax
  original := gross
  fullComp := b.isFullComp

def takesServices : BookingStatus → Bool
  | .checkedIn | .inHouse | .confirmed | .guaranteed => true
  | _ => false

def readMoney (raw : Option ℚ) : Except Refusal ℕ :=
  match money raw with
  | some cents => .ok cents
  | none => .error .amountInvalid

def readTax : Option (Option ℚ) → Except Refusal (Option ℕ)
  | none => .ok none
  | some raw => (readMoney raw).map some

namespace Desk

variable (s : Desk)

def selectBookingFolio (bookingId : ℕ) : Option ℕ → Except Refusal Folio
  | some id =>
    match s.folios.findOne fun f => decide (f.bookingId = bookingId) && decide (f.id = id) with
    | none => .error .folioNotFound
    | some f => if f.isOpen then .ok f else .error .folioNotOpen
  | none =>
    match s.folios.rows.filter fun f => decide (f.bookingId = bookingId) && f.isOpen with
    | [] => .error .noOpenFolio
    | [f] => .ok f
    | _ => .error .severalOpenFolios

/-- The checks of a source against its booking and folio. -/
def target (src : Source) : Except Refusal Target :=
  match src.bookingId.bind s.findBooking with
  | none => .error .bookingNotFound
  | some b =>
    if takesServices b.status = false ∨ b.merged = true then .error .bookingClosed
    else do
      let f ← s.selectBookingFolio b.id src.folioId
      if b.currency ≠ some src.currency ∨ f.currency ≠ some src.currency then .error .currencyMismatch
      else do
        let gross ← readMoney src.gross
        let tax ← readTax src.tax
        if gross < tax.getD 0 then .error .taxExceedsTotal else .ok (b.target f gross tax)

end Desk

def Charge.isOf (c : Charge) (kind : Kind) (id : ℕ) : Bool :=
  kind.fields.any fun field => c.refs.contains (field, id)

def Source.charge (src : Source) (t : Target) (day : ℤ) : Charge where
  key := .department src.kind src.id
  id := .department src.kind src.id
  bookingId := src.bookingId
  folioId := some t.folioId
  refs := src.kind.fields.map fun field => (field, src.id)
  currency := some src.currency
  total := some t.gross
  amount := some ((t.gross - t.tax.getD 0 : ℕ) : ℚ)
  vatAmount := t.tax.map fun tax => (tax : ℚ)
  businessDate := some day
  fingerprint := some (src.on t.folioId)
  isComplimentary := t.fullComp
  complimentaryOriginal := if t.fullComp then some t.original else none

def Charge.agrees (c : Charge) (src : Source) (t : Target) : Bool :=
  decide (c.id = .department src.kind src.id ∧ c.fingerprint = some (src.on t.folioId) ∧
    c.bookingId = src.bookingId ∧ c.folioId = some t.folioId ∧ c.currency = some src.currency ∧
      c.total = some (t.gross : ℚ) ∧ c.voided = false)

/-- The records of the old version for the same request say the same. -/
def checkEmbedded (src : Source) (t : Target) : List EmbeddedCharge → Except Refusal Unit
  | [] => .ok ()
  | e :: es =>
    if e.conciergeRequestId = some src.id then do
      let amount ← readMoney e.amount
      if amount ≠ t.original ∨ e.currency ≠ some src.currency then .error .legacyConciergeMismatch
      else checkEmbedded src t es
    else checkEmbedded src t es

/-- Only requests to the concierge have records of that kind. -/
def checkLegacy (src : Source) (t : Target) : Except Refusal Unit :=
  if src.kind = .concierge then checkEmbedded src t t.embedded else .ok ()

def Source.micePosting (src : Source) (t : Target) (day : ℤ) : MicePosting where
  reference := src.id
  reservationId := src.bookingId
  amount := some (t.gross / 100)
  currency := some src.currency
  folioId := some t.folioId
  chargeId := some (.department src.kind src.id)
  businessDate := some day

namespace Desk

variable (s : Desk)

def prior (src : Source) : Option Charge := s.charges.findOne fun c => c.isOf src.kind src.id

def isClosed (day : ℤ) : Bool := s.runs.any fun r => decide (r.businessDate = day) && r.completed

def openDay : Except Refusal ℤ :=
  match s.businessDate with
  | none => .error .businessDateInvalid
  | some day => if s.isClosed day then .error .dayClosed else .ok day

def insertCharge (c : Charge) : Except Refusal Desk :=
  match s.charges.insertOne c with
  | none => .error .duplicateKey
  | some charges => .ok { s with charges, postRevision := s.postRevision + 1 }

/-- The row of an event is written over the one that is there. -/
def reconcileMice (src : Source) (t : Target) (day : ℤ) : Desk :=
  { s with
    micePostings := Documents.updateOne (fun x => decide (x.reference = src.id))
      (fun _ => src.micePosting t day) s.micePostings }

/-- The row of an event is written anew, or over one that says the same. -/
def recordMice (src : Source) (t : Target) (day : ℤ) : Except Refusal Desk :=
  match s.micePostings.find? fun x => decide (x.reference = src.id) with
  | none => .ok { s with micePostings := s.micePostings ++ [src.micePosting t day] }
  | some x => do
    let amount ← readMoney x.amount
    if amount ≠ t.original ∨ x.currency ≠ some src.currency ∨ x.reservationId ≠ src.bookingId then
      .error .legacyMiceMismatch
    else .ok (s.reconcileMice src t day)

def recordEvent (src : Source) (t : Target) (day : ℤ) : Except Refusal Desk :=
  if src.kind = .mice then s.recordMice src t day else .ok s

def balanceFor (folioId : ℕ) (code : Code) : ℤ :=
  match s.folios.get? folioId with
  | none => 0
  | some f => (s.balanceByCurrency f code code).getD 0

def setBalance (folioId : ℕ) (balance : ℤ) : Desk :=
  { s with folios := s.folios.update folioId fun f => { f with balance := balance } }

end Desk

structure Posted where
  desk : Desk
  charge : Charge
  replayed : Bool

def Desk.posted (s : Desk) (t : Target) (src : Source) (day : ℤ) : Posted where
  desk := s.setBalance t.folioId (s.balanceFor t.folioId src.currency)
  charge := src.charge t day
  replayed := false

/-- The charge is written on the open day, with the row of an event and the balance of the folio. -/
def Desk.postNew (s : Desk) (src : Source) (t : Target) (fails : Bool) : Except Refusal Posted := do
  checkLegacy src t
  let day ← s.openDay
  let s₁ ← s.insertCharge (src.charge t day)
  let s₂ ← s₁.recordEvent src t day
  if fails then .error .rolledBack else .ok (s₂.posted t src day)

/-- `post_source_charge`. `fails` says that the projection of the booking or the audit chain
raises, which rolls everything back. -/
def postSourceCharge (s : Desk) (src : Source) (fails : Bool) : Except Refusal Posted := do
  let t ← s.target src
  match s.prior src with
  | some c => if c.agrees src t then .ok ⟨s, c, true⟩ else .error .priorMismatch
  | none => s.postNew src t fails

/-! ### Runs -/

inductive Act where
  | post (src : Source) (fails : Bool)
  | startAudit (run : ℕ) (businessDate : ℤ)
  /-- `_roll_business_date`, with the business date of the run. -/
  | roll (run : ℕ)
  | complete (run : ℕ)

namespace Desk

def post (s : Desk) (src : Source) (fails : Bool) : Desk :=
  match postSourceCharge s src fails with
  | .ok r => r.desk
  | .error _ => s

/-- The roll and the completion of an audit come in the order of the engine that runs it, and a
resumed one may roll again. -/
def next (s : Desk) : Act → Option Desk
  | .post src fails => some (s.post src fails)
  | .startAudit run businessDate =>
    (s.runs.insertOne { id := run, businessDate := businessDate }).map fun runs => { s with runs }
  | .roll run => (s.runs.get? run).map fun r => { s with businessDate := some (r.businessDate + 1) }
  | .complete run =>
    (s.runs.get? run).map fun _ =>
      { s with runs := s.runs.update run fun r => { r with completed := true } }

def OncePerSource (s : Desk) : Prop :=
  ∀ kind id, ∀ c ∈ s.charges, ∀ d ∈ s.charges, c.isOf kind id = true → d.isOf kind id = true →
    c.voided = false → d.voided = false → c = d

end Desk

/-- Runs start with any records, as old versions have left them. -/
def machine : Machine Desk Act where
  init := Desk.OncePerSource
  step := Desk.next

def postings (s : Desk) : Act → List (Source × Charge)
  | .post src fails =>
    match postSourceCharge s src fails with
    | .ok ⟨_, c, false⟩ => [(src, c)]
    | _ => []
  | _ => []

end SyrocePms.Department
