import SyrocePms.Billing.FundingEntries
import SyrocePms.Lib.CollectionSum
import SyrocePms.Lib.Machine

/-! The settlement instruments: `issue`, `apply` and `reverse`, each one transaction that takes
the lock document of the tenant, so that one takes effect after the other and a refused one
leaves nothing. The fingerprint of a request and the hash of an entry stand here for the
content that they cover. -/

namespace SyrocePms.Billing

open Lib Reservation

/-- `KINDS`. -/
inductive InstrumentKind where
  | giftCardRedemption
  | wallet
  | loyaltyRedemption
  | barter
  | writeOff
  | chequePendingClearance
  deriving DecidableEq

namespace InstrumentKind

def funded : InstrumentKind → Bool
  | .giftCardRedemption | .wallet => true
  | _ => false

def accountType : InstrumentKind → Ledger.AccountType
  | .giftCardRedemption | .wallet => .liability
  | .loyaltyRedemption | .writeOff => .expense
  | .barter | .chequePendingClearance => .asset

end InstrumentKind

def PointValue : Type := { n : ℤ // 0 < n ∧ n ≤ 100000 }

instance : DecidableEq PointValue :=
  inferInstanceAs (DecidableEq (Subtype fun n : ℤ => 0 < n ∧ n ≤ 100000))

/-- `rate_to_try` of a request, in millionths. -/
def Rate : Type := { n : ℤ // 0 < n ∧ n ≤ 1000000000000 }

instance : DecidableEq Rate :=
  inferInstanceAs (DecidableEq (Subtype fun n : ℤ => 0 < n ∧ n ≤ 1000000000000))

structure IssueFields where
  requestId : ℕ
  bookingId : ℕ
  kind : InstrumentKind
  currency : Currency
  amount : AmountMinor
  account : ℕ
  fundingEntryId : Option EntryId := none
  pointValue : Option PointValue := none
  expiresOn : Option ℕ := none
  dueOn : Option ℕ := none
  reference : String
  reason : String
  deriving DecidableEq

/-- The validator of `Issue`. A blank account code is zero. -/
def IssueFields.shape (b : IssueFields) : Bool :=
  b.account != 0 && b.currency.isCent && b.kind.funded == b.fundingEntryId.isSome &&
    (b.kind == .loyaltyRedemption) == b.pointValue.isSome &&
    (b.kind == .chequePendingClearance) == b.dueOn.isSome &&
    (b.kind != .chequePendingClearance || b.currency == .TRY) &&
    b.pointValue.all (fun v => b.amount.val % v.val == 0) &&
    b.dueOn.all fun due => b.expiresOn.all fun expires => due ≤ expires

structure Issue extends IssueFields where
  valid : toIssueFields.shape = true
  deriving DecidableEq

structure Apply where
  requestId : ℕ
  bookingId : ℕ
  folioId : ℕ
  amount : AmountMinor
  rateToTry : Rate
  rateReference : String
  fxGainAccount : Option ℕ := none
  fxLossAccount : Option ℕ := none
  reference : String
  reason : String
  deriving DecidableEq

structure Reverse where
  requestId : ℕ
  bookingId : ℕ
  reference : String
  reason : String
  deriving DecidableEq

inductive InstrumentStatus where
  | active
  | pending
  | exhausted
  | cleared
  | returned
  deriving DecidableEq

/-- What an instrument has of its funding. `entryHash` stands for the lines of the entry. -/
structure Funding where
  entryId : EntryId
  entryHash : GlLines
  issuedBase : ℤ
  remainingBase : ℤ

/-- A row of `billing_instruments`. Its id is the request that issued it. -/
structure Instrument where
  id : ℕ
  kind : InstrumentKind
  currency : Currency
  account : ℕ
  funding : Option Funding
  pointValue : Option PointValue
  expiresOn : Option ℕ
  dueOn : Option ℕ
  originBookingId : ℕ
  ownerGuestId : Option ℕ
  issued : ℤ
  remaining : ℤ
  status : InstrumentStatus
  reference : String
  reason : String
  businessDate : ℕ

namespace Instrument

def drawnOn (i : Instrument) (entryId : EntryId) (account : ℕ) : Bool :=
  i.account == account && i.funding.any fun f => f.entryId == entryId

def issuedBase (i : Instrument) : ℤ := (i.funding.map Funding.issuedBase).getD 0

end Instrument

structure Application where
  folioId : ℕ
  currency : Currency
  amount : ℤ
  sourceBase : ℤ
  settlementBase : ℤ
  points : Option ℤ
  remaining : ℤ
  balance : ℤ

inductive InstrumentResult where
  | issued (i : Instrument)
  | applied (a : Application)
  | reversed (amount remaining : ℤ)

inductive InstrumentContent where
  | issue (body : Issue)
  | apply (instrumentId : ℕ) (body : Apply)
  | reverse (operationId : ℕ) (body : Reverse)
  deriving DecidableEq

/-- A row of `billing_instrument_operations`. Its payment has the id of the operation. -/
structure InstrumentOperation where
  id : ℕ
  instrumentId : ℕ
  businessDate : ℕ
  bookingId : ℕ
  content : InstrumentContent
  result : InstrumentResult
  original : Option ℕ := none

/-- A row of `payments` that an operation made. -/
structure InstrumentPayment where
  id : ℕ
  bookingId : ℕ
  folioId : ℕ
  currency : Currency
  amount : ℤ
  reportingAmount : ℤ
  instrumentId : ℕ
  businessDate : ℕ

/-- `gl_operational_mappings`. -/
structure Mapping where
  enabled : Bool
  receivable : Option ℕ
  bank : Option ℕ

/-- A row of `loyalty_members`. -/
structure Member where
  guestId : ℕ
  points : ℤ

/-- What the operations read beside their own collections. `postingOpen` says that an entry of
the business date is numbered and sealed, and `altered` are the operations whose payment or
entry is not as they wrote it. -/
structure Hotel extends World where
  accounts : Collection Ledger.Account Ledger.Account.code
  mapping : Option Mapping
  members : List Member
  postingOpen : Bool
  altered : List ℕ

structure InstrumentStore where
  hotel : Hotel
  entries : Collection GlEntry GlEntry.id
  instruments : Collection Instrument Instrument.id
  operations : Collection InstrumentOperation InstrumentOperation.id
  payments : Collection InstrumentPayment InstrumentPayment.id

inductive InstrumentError where
  | keyReused
  | bookingNotFound
  | bookingFinished
  | businessDateMissing
  | alreadyExpired
  | referenceUsed
  | accountUnusable (code : ℕ)
  | guestRequired
  | memberUnclear
  | fundingUnverified
  | fundingReversed
  | fundingMixed
  | fundingCurrency
  | fundingExceeded
  | fundingTooFine
  | instrumentNotFound
  | otherGuest
  | otherBooking
  | expired
  | limitOrStatus
  | chequeTerms
  | folioNotFound
  | folioNotOpen
  | currencyDiffers
  | invoiced
  | exceedsDebt
  | noMapping
  | sameAccount
  | bankDiffers
  | valueTooSmall
  | fundingChanged
  | partTooSmall
  | pointsNotWhole
  | pointsInsufficient
  | rateTooCoarse
  | exchangeAccount
  | gl (r : GlRefusal)
  | postingRefused
  | noActiveShift
  | duplicateKey
  | operationNotFound
  | notReconciled
  | alreadyReversed
  | sourcesUnverified
  | exceedsIssued

namespace InstrumentStore

/-! ### What the operations share -/

def replay (s : InstrumentStore) (requestId : ℕ) (content : InstrumentContent) :
    Option (Except InstrumentError InstrumentResult) :=
  (s.operations.get? requestId).map fun op =>
    if op.content = content then .ok op.result else .error .keyReused

def booking (s : InstrumentStore) (id : ℕ) : Except InstrumentError Booking :=
  match s.hotel.booking? id with
  | none => .error .bookingNotFound
  | some b => if b.status.terminal || b.status == .archivedDemo then .error .bookingFinished else .ok b

def day (s : InstrumentStore) : Except InstrumentError ℕ :=
  match s.hotel.businessDate with
  | none => .error .businessDateMissing
  | some day => .ok day

def account (s : InstrumentStore) (code : ℕ) (type : Ledger.AccountType) :
    Except InstrumentError Unit :=
  refuse (¬ (s.hotel.accounts.get? code).any fun a => a.active && a.type == type)
    (.accountUnusable code)

def member (s : InstrumentStore) (guestId : Option ℕ) : Except InstrumentError Member :=
  match s.hotel.members.filter fun m => guestId == some m.guestId with
  | [m] => .ok m
  | _ => .error .memberUnclear

/-- `_assert_funding_not_reversed`, as a test. -/
def isReversed (s : InstrumentStore) (e : GlEntry) : Bool :=
  e.reverses.isSome || e.reversed || s.entries.any fun e' => e'.posted && e'.reverses == some e.id

def allocated (s : InstrumentStore) (entryId : EntryId) (account : ℕ) : ℤ :=
  s.instruments.sumOf (fun i => i.drawnOn entryId account) Instrument.issued

def baseAllocated (s : InstrumentStore) (entryId : EntryId) (account : ℕ) : ℤ :=
  s.instruments.sumOf (fun i => i.drawnOn entryId account) Instrument.issuedBase

def record (s : InstrumentStore) (op : InstrumentOperation) : Except InstrumentError InstrumentStore :=
  match s.operations.insertOne op with
  | none => .error .duplicateKey
  | some operations => .ok { s with operations := operations }

def pay (s : InstrumentStore) (p : InstrumentPayment) : Except InstrumentError InstrumentStore :=
  match s.payments.insertOne p with
  | none => .error .duplicateKey
  | some payments => .ok { s with payments := payments }

def post (s : InstrumentStore) (id : EntryId) (lines : List GlLine) (reverses : Option EntryId) :
    Except InstrumentError InstrumentStore := do
  let accepted ← (normalizeLines lines).mapError .gl
  refuse (¬ s.hotel.postingOpen) .postingRefused
  refuse (¬ lines.all fun x => (s.hotel.accounts.get? x.account).any Ledger.Account.active)
    .postingRefused
  match s.entries.insertOne { id := id, lines := accepted, reverses := reverses } with
  | none => .error .duplicateKey
  | some entries => .ok { s with entries := entries }

def paidOn (s : InstrumentStore) (folioId : ℕ) : List (Currency × ℤ) :=
  (s.payments.rows.filter fun p => p.folioId == folioId).map fun p => (p.currency, p.amount)

def project (s : InstrumentStore) (folio : Folio) (c : Currency) : InstrumentStore :=
  let balance := folio.balanceIn (s.paidOn folio.id) c
  { s with hotel := { s.hotel with toWorld := s.hotel.toWorld.setBalance folio.id balance } }

/-- `record_cash_transaction` with an open shift required. -/
def collect (s : InstrumentStore) (k : InstrumentKind) : Except InstrumentError Unit :=
  refuse (k = .chequePendingClearance ∧ s.hotel.activeShift = none) .noActiveShift

/-! ### Issuing -/

def funding (s : InstrumentStore) (b : Issue) (entryId : EntryId) : Except InstrumentError Funding :=
  match s.entries.get? entryId with
  | none => .error .fundingUnverified
  | some e => do
    refuse (¬ (e.posted && e.sealed)) .fundingUnverified
    refuse (s.isReversed e) .fundingReversed
    refuse (∃ x ∈ e.linesOn b.account, x.debit ≠ 0) .fundingMixed
    match e.nominalIn b.account b.currency with
    | none => .error .fundingCurrency
    | some nominal => do
      let allocated := s.allocated entryId b.account
      refuse (nominal ≤ 0 ∨ nominal < b.amount.val + allocated) .fundingExceeded
      let base := cumulativeBase (allocated + b.amount.val) (e.creditOn b.account) nominal -
        s.baseAllocated entryId b.account
      refuse (base ≤ 0) .fundingTooFine
      .ok ⟨entryId, e.lines, base, base⟩

def fundingFor (s : InstrumentStore) (b : Issue) : Except InstrumentError (Option Funding) :=
  match b.fundingEntryId with
  | none => .ok none
  | some entryId => (s.funding b entryId).map some

def newInstrument (b : Issue) (guest : Option ℕ) (day : ℕ) (f : Option Funding) : Instrument where
  id := b.requestId
  kind := b.kind
  currency := b.currency
  account := b.account
  funding := f
  pointValue := b.pointValue
  expiresOn := b.expiresOn
  dueOn := b.dueOn
  originBookingId := b.bookingId
  ownerGuestId := guest
  issued := b.amount.val
  remaining := b.amount.val
  status := if b.kind = .chequePendingClearance then .pending else .active
  reference := b.reference
  reason := b.reason
  businessDate := day

def insertInstrument (s : InstrumentStore) (i : Instrument) : Except InstrumentError InstrumentStore :=
  match s.instruments.insertOne i with
  | none => .error .duplicateKey
  | some instruments => .ok { s with instruments := instruments }

def issue (s : InstrumentStore) (b : Issue) : Except InstrumentError (InstrumentStore × InstrumentResult) :=
  match s.replay b.requestId (.issue b) with
  | some answer => answer.map fun r => (s, r)
  | none => do
    let k ← s.booking b.bookingId
    let day ← s.day
    refuse (b.expiresOn.any fun d => d < day) .alreadyExpired
    refuse (s.instruments.any fun i => i.kind == b.kind && i.reference == b.reference) .referenceUsed
    s.account b.account b.kind.accountType
    refuse ((b.kind = .wallet ∨ b.kind = .loyaltyRedemption) ∧ k.guestId = none) .guestRequired
    refuse (b.kind = .loyaltyRedemption ∧ (s.member k.guestId).toOption = none) .memberUnclear
    let f ← s.fundingFor b
    let i := newInstrument b k.guestId day f
    let s ← s.insertInstrument i
    let s ← s.record
      { id := b.requestId, instrumentId := i.id, businessDate := day, bookingId := b.bookingId,
        content := .issue b, result := .issued i }
    .ok (s, .issued i)

/-! ### Applying -/

def owned (i : Instrument) (b : Apply) (k : Booking) : Except InstrumentError Unit :=
  match i.ownerGuestId with
  | some guest => refuse (k.guestId ≠ some guest) .otherGuest
  | none => refuse (i.originBookingId ≠ b.bookingId) .otherBooking

/-- The checks of the instrument before the folio is read, and the business date. -/
def admitUse (s : InstrumentStore) (i : Instrument) (b : Apply) : Except InstrumentError (Booking × ℕ) := do
  let k ← s.booking b.bookingId
  owned i b k
  let day ← s.day
  refuse (i.expiresOn.any fun d => d < day) .expired
  let cheque := i.kind = .chequePendingClearance
  refuse (i.status ≠ (if cheque then .pending else .active) ∨ i.remaining < b.amount.val) .limitOrStatus
  refuse (cheque ∧ (b.amount.val ≠ i.remaining ∨ i.dueOn.any fun d => day < d)) .chequeTerms
  .ok (k, day)

def selectFolio (s : InstrumentStore) (bookingId folioId : ℕ) : Except InstrumentError Folio :=
  match s.hotel.folio? bookingId folioId with
  | none => .error .folioNotFound
  | some folio => if folio.isOpen then .ok folio else .error .folioNotOpen

def folioFor (s : InstrumentStore) (i : Instrument) (b : Apply) (k : Booking) :
    Except InstrumentError Folio := do
  let folio ← s.selectFolio b.bookingId b.folioId
  let code := (folio.currency.orElse k.currency).currency
  refuse (code ≠ some i.currency ∨ ¬ i.currency.isCent ∨ k.currency.currency ≠ code ∨
    (i.currency = .TRY ∧ b.rateToTry.val ≠ 1000000)) .currencyDiffers
  refuse folio.invoiced .invoiced
  refuse (folio.isMixed (s.paidOn folio.id) i.currency ∨
    folio.balanceIn (s.paidOn folio.id) i.currency < b.amount.val) .exceedsDebt
  .ok folio

def receivable (s : InstrumentStore) (i : Instrument) : Except InstrumentError ℕ :=
  match s.hotel.mapping with
  | none => .error .noMapping
  | some m => do
    refuse (¬ m.enabled) .noMapping
    match m.receivable with
    | none => .error .noMapping
    | some ar => do
      s.account ar .asset
      refuse (ar = i.account) .sameAccount
      refuse (i.kind = .chequePendingClearance ∧ m.bank ≠ some i.account) .bankDiffers
      s.account i.account i.kind.accountType
      .ok ar

def sourceBase (s : InstrumentStore) (i : Instrument) (amount paid : ℤ) : Except InstrumentError ℤ :=
  match i.funding with
  | none => .ok paid
  | some f =>
    match s.entries.get? f.entryId with
    | none => .error .fundingChanged
    | some e => do
      refuse (e.lines ≠ f.entryHash ∨ ¬ e.sealed) .fundingChanged
      refuse (s.isReversed e) .fundingReversed
      let source :=
        if amount = i.remaining then f.remainingBase else partBase amount f.remainingBase i.remaining
      refuse (source ≤ 0) .partTooSmall
      .ok source

/-- The points of an application, taken from the member. Loyalty instruments are those with
the value of a point. -/
def takePoints (s : InstrumentStore) (i : Instrument) (amount : ℤ) :
    Except InstrumentError (InstrumentStore × Option ℤ) :=
  match i.pointValue with
  | none => .ok (s, none)
  | some v => do
    refuse (amount % v.val ≠ 0) .pointsNotWhole
    let points := amount / v.val
    let m ← s.member i.ownerGuestId
    refuse (m.points < points) .pointsInsufficient
    let members := s.hotel.members.map fun m' =>
      if i.ownerGuestId == some m'.guestId then { m' with points := m'.points - points } else m'
    .ok ({ s with hotel := { s.hotel with members := members } }, some points)

def nativeLines (i : Instrument) (ar : ℕ) (b : Apply) (source paid : ℤ) :
    Except InstrumentError (List GlLine) :=
  if i.currency = .TRY then
    .ok [{ account := i.account, debit := source }, { account := ar, credit := paid }]
  else do
    let rate := sourceRate source b.amount.val
    refuse (1 < |base b.amount.val (rateValue rate) - source|) .rateTooCoarse
    .ok [{ account := i.account, debit := source, foreign := some ⟨i.currency, b.amount.val, rate⟩ },
      { account := ar, credit := paid, foreign := some ⟨i.currency, b.amount.val, b.rateToTry.val⟩ }]

def exchangeLines (s : InstrumentStore) (i : Instrument) (ar : ℕ) (b : Apply) (delta : ℤ) :
    Except InstrumentError (List GlLine) :=
  if delta = 0 then .ok []
  else
    match if 0 < delta then b.fxGainAccount else b.fxLossAccount with
    | none => .error .exchangeAccount
    | some code => do
      refuse (code = ar ∨ code = i.account) .exchangeAccount
      s.account code (if 0 < delta then .revenue else .expense)
      if 0 < delta then .ok [{ account := code, credit := delta }]
      else .ok [{ account := code, debit := -delta }]

def spent (amount source : ℤ) (i : Instrument) : Instrument :=
  let remaining := i.remaining - amount
  { i with
    remaining := remaining
    funding := i.funding.map fun f => { f with remainingBase := f.remainingBase - source }
    status :=
      if remaining = 0 then
        if i.kind = .chequePendingClearance then .cleared else .exhausted
      else i.status }

theorem spent_id (amount source : ℤ) (i : Instrument) : (spent amount source i).id = i.id := rfl

def spend (s : InstrumentStore) (id : ℕ) (amount source : ℤ) : InstrumentStore :=
  { s with instruments := s.instruments.update id (spent amount source) (spent_id amount source) }

def apply (s : InstrumentStore) (instrumentId : ℕ) (b : Apply) :
    Except InstrumentError (InstrumentStore × InstrumentResult) :=
  match s.replay b.requestId (.apply instrumentId b) with
  | some answer => answer.map fun r => (s, r)
  | none =>
    match s.instruments.get? instrumentId with
    | none => .error .instrumentNotFound
    | some i => do
      let (k, day) ← s.admitUse i b
      let folio ← s.folioFor i b k
      let ar ← s.receivable i
      let paid := base b.amount.val (rateValue b.rateToTry.val)
      refuse (paid ≤ 0) .valueTooSmall
      let source ← s.sourceBase i b.amount.val paid
      let (s, points) ← s.takePoints i b.amount.val
      let lines ← nativeLines i ar b source paid
      let exchange ← s.exchangeLines i ar b (source - paid)
      let s ← s.post (.settlement b.requestId) (lines ++ exchange) none
      s.collect i.kind
      let s ← s.pay
        { id := b.requestId, bookingId := b.bookingId, folioId := folio.id, currency := i.currency,
          amount := b.amount.val, reportingAmount := paid, instrumentId := i.id, businessDate := day }
      let s := (s.spend i.id b.amount.val source).project folio i.currency
      let result := InstrumentResult.applied
        { folioId := folio.id, currency := i.currency, amount := b.amount.val, sourceBase := source,
          settlementBase := paid, points := points, remaining := i.remaining - b.amount.val,
          balance := folio.balanceIn (s.paidOn folio.id) i.currency }
      let s ← s.record
        { id := b.requestId, instrumentId := i.id, businessDate := day, bookingId := b.bookingId,
          content := .apply instrumentId b, result := result }
      .ok (s, result)

/-! ### Reversing -/

def fundingHolds (s : InstrumentStore) (i : Instrument) : Bool :=
  i.funding.all fun f => (s.entries.get? f.entryId).any fun e =>
    e.lines = f.entryHash && e.sealed && !s.isReversed e

def reconciled (s : InstrumentStore) (bookingId : ℕ) : Bool :=
  s.operations.rows.all fun op =>
    match op.result with
    | .issued _ => true
    | .applied _ | .reversed _ _ => op.bookingId != bookingId ||
        (!s.hotel.altered.contains op.id && (s.instruments.get? op.instrumentId).any s.fundingHolds)

def applicationOf (s : InstrumentStore) (operationId bookingId : ℕ) :
    Option (InstrumentOperation × Application) :=
  (s.operations.get? operationId).bind fun op =>
    match op.result with
    | .applied a => if op.bookingId = bookingId then some (op, a) else none
    | .issued _ | .reversed _ _ => none

/-- The points of a reversed application, given back. -/
def returnPoints (s : InstrumentStore) (i : Instrument) (points : Option ℤ) :
    Except InstrumentError InstrumentStore :=
  match points with
  | none => .ok s
  | some n =>
    if s.hotel.members.any fun m => i.ownerGuestId == some m.guestId then
      let members := s.hotel.members.map fun m =>
        if i.ownerGuestId == some m.guestId then { m with points := m.points + n } else m
      .ok { s with hotel := { s.hotel with members := members } }
    else .error .memberUnclear

def restored (amount source : ℤ) (i : Instrument) : Instrument :=
  { i with
    remaining := i.remaining + amount
    funding := i.funding.map fun f => { f with remainingBase := f.remainingBase + source }
    status := if i.kind = .chequePendingClearance then .returned else .active }

theorem restored_id (amount source : ℤ) (i : Instrument) : (restored amount source i).id = i.id := rfl

def restore (s : InstrumentStore) (id : ℕ) (amount source : ℤ) : InstrumentStore :=
  { s with instruments := s.instruments.update id (restored amount source) (restored_id amount source) }

def reverse (s : InstrumentStore) (operationId : ℕ) (b : Reverse) :
    Except InstrumentError (InstrumentStore × InstrumentResult) :=
  match s.replay b.requestId (.reverse operationId b) with
  | some answer => answer.map fun r => (s, r)
  | none =>
    match s.applicationOf operationId b.bookingId with
    | none => .error .operationNotFound
    | some (op, a) => do
      refuse (¬ s.reconciled b.bookingId) .notReconciled
      refuse (s.operations.any fun op' => op'.original == some operationId) .alreadyReversed
      let _ ← s.booking b.bookingId
      let folio ← s.selectFolio b.bookingId a.folioId
      refuse folio.invoiced .invoiced
      match s.instruments.get? op.instrumentId, s.entries.get? (.settlement operationId) with
      | some i, some old => do
        refuse (¬ old.sealed ∨ operationId ∈ s.hotel.altered) .sourcesUnverified
        refuse (i.issued < i.remaining + a.amount) .exceedsIssued
        let day ← s.day
        let s ← s.post (.settlement b.requestId) (old.lines.lines.map GlLine.swapped) (some old.id)
        let s ← s.pay
          { id := b.requestId, bookingId := b.bookingId, folioId := a.folioId, currency := a.currency,
            amount := -a.amount, reportingAmount := -a.settlementBase, instrumentId := i.id,
            businessDate := day }
        let s ← s.returnPoints i a.points
        s.collect i.kind
        let s := (s.restore i.id a.amount a.sourceBase).project folio i.currency
        let result := InstrumentResult.reversed a.amount (i.remaining + a.amount)
        let s ← s.record
          { id := b.requestId, instrumentId := i.id, businessDate := day, bookingId := b.bookingId,
            content := .reverse operationId b, result := result, original := some operationId }
        .ok (s, result)
      | _, _ => .error .sourcesUnverified

end InstrumentStore

inductive InstrumentRequest where
  | issue (body : Issue)
  | apply (instrumentId : ℕ) (body : Apply)
  | reverse (operationId : ℕ) (body : Reverse)

def InstrumentRequest.run (s : InstrumentStore) :
    InstrumentRequest → Except InstrumentError (InstrumentStore × InstrumentResult)
  | .issue body => s.issue body
  | .apply instrumentId body => s.apply instrumentId body
  | .reverse operationId body => s.reverse operationId body

def InstrumentStore.handle (s : InstrumentStore) (q : InstrumentRequest) : InstrumentStore :=
  match q.run s with
  | .ok (s', _) => s'
  | .error _ => s

/-- Beside the requests the rest of the hotel goes on: entries are posted, and annotated as
reversed. -/
inductive InstrumentStep where
  | request (q : InstrumentRequest)
  | hotel (h : Hotel)
  | post (e : GlEntry)
  | annotate (id : EntryId)

theorem annotate_id (e : GlEntry) : ({ e with reversed := true } : GlEntry).id = e.id := rfl

def settlementInstruments : Machine InstrumentStore InstrumentStep where
  init s := s.instruments.rows = [] ∧ s.operations.rows = [] ∧ s.payments.rows = []
  step s
    | .request q => some (s.handle q)
    | .hotel h => some { s with hotel := h }
    | .post e => (s.entries.insertOne e).map fun entries => { s with entries := entries }
    | .annotate id =>
      let entries := s.entries.update id (fun e => { e with reversed := true }) annotate_id
      some { s with entries := entries }

end SyrocePms.Billing
