import SyrocePms.Billing.Folios
import SyrocePms.Lib.Machine

/-! The refundable security money of bookings: `receive` and `move`, each one transaction
that holds the financial lock of the tenant, so that one takes effect after the other and a
refused one leaves nothing. The fingerprint of a request is a hash of its content, and stands
here for the content itself. -/

namespace SyrocePms.Billing

open Lib Reservation

inductive Method where
  | cash
  | card
  | bankTransfer
  deriving DecidableEq

structure Receipt where
  requestId : ℕ
  bookingId : ℕ
  amount : AmountMinor
  currency : Currency
  method : Method
  reference : String
  reason : String
  deriving DecidableEq

inductive MoveAction where
  | refund
  | apply
  deriving DecidableEq

structure Movement where
  requestId : ℕ
  action : MoveAction
  amount : AmountMinor
  folioId : Option ℕ := none
  reference : String
  reason : String
  deriving DecidableEq

inductive FundStatus where
  | held
  | closed

/-- A row of `security_funds`. Its id is the request that made it. -/
structure Fund where
  id : ℕ
  bookingId : ℕ
  currency : Currency
  method : Method
  received : ℤ
  remaining : ℤ
  refunded : ℤ := 0
  applied : ℤ := 0
  reference : String
  reason : String
  status : FundStatus := .held
  businessDate : ℕ

/-- `security-fund:…` and `security-move:…`. -/
inductive OperationKey where
  | fund (requestId : ℕ)
  | move (requestId : ℕ)
  deriving DecidableEq

inductive OperationAction where
  | received
  | moved (a : MoveAction)
  deriving DecidableEq

inductive Content where
  | receipt (body : Receipt)
  | movement (fundId : ℕ) (body : Movement)
  deriving DecidableEq

/-- A row of `security_fund_operations`. -/
structure Operation where
  key : OperationKey
  fundId : ℕ
  action : OperationAction
  amount : ℤ
  businessDate : ℕ
  content : Content
  reference : String
  reason : String
  folioId : Option ℕ
  result : Fund

inductive CashKey where
  | operation (k : OperationKey)
  | other (n : ℕ)
  deriving DecidableEq

inductive Direction where
  | inn
  | out
  deriving DecidableEq

/-- A movement of the cash drawer, in the shift that it is pushed to. `fundId` is the
`ref_id` of a security fund. -/
structure CashMovement where
  shift : ℕ
  key : CashKey
  direction : Direction
  amount : ℤ
  fundId : Option ℕ

structure FundPayment where
  key : OperationKey
  bookingId : ℕ
  folioId : ℕ
  currency : Currency
  amount : ℤ
  fundId : ℕ
  businessDate : ℕ

structure FundStore where
  world : World
  funds : Collection Fund Fund.id
  operations : Collection Operation Operation.key
  cash : List CashMovement
  payments : Collection FundPayment FundPayment.key

inductive FundError where
  | keyReused
  | receiptReused
  | bookingNotFound
  | bookingFinished
  | currencyDiffers
  | currencyUnsupported
  | businessDateMissing
  | foreignCash
  | noActiveShift
  | fundNotFound
  | referenceReused
  | exceedsRemaining
  | folioRequired
  | folioNotFound
  | folioNotOpen
  | folioMixed
  | exceedsDebt
  | folioNotAllowed
  | duplicateKey

namespace FundStore

def replay (s : FundStore) (key : OperationKey) (content : Content) :
    Option (Except FundError Fund) :=
  (s.operations.get? key).map fun op =>
    if op.content = content then .ok op.result else .error .keyReused

/-- `record_cash_transaction` with an open shift required: a key that the shift has is not
pushed again. -/
def recordCash (s : FundStore) (key : OperationKey) (fundId : ℕ) (amount : ℤ) (d : Direction) :
    Except FundError FundStore :=
  match s.world.activeShift with
  | none => .error .noActiveShift
  | some shift =>
    if s.cash.any fun c => c.shift == shift && c.key == .operation key then .ok s
    else .ok { s with cash := s.cash ++ [⟨shift, .operation key, d, amount, some fundId⟩] }

def moveCash (s : FundStore) (f : Fund) (key : OperationKey) (amount : ℤ) (d : Direction) :
    Except FundError FundStore :=
  match f.method with
  | .cash => if f.currency ≠ .TRY then .error .foreignCash else s.recordCash key f.id amount d
  | .card | .bankTransfer => .ok s

def duplicate (s : FundStore) (body : Receipt) : Option Fund :=
  s.funds.findOne fun f => decide (f.bookingId = body.bookingId ∧ f.method = body.method ∧
    f.currency = body.currency ∧ f.reference = body.reference)

def admitReceipt (s : FundStore) (body : Receipt) : Except FundError ℕ :=
  match s.world.booking? body.bookingId with
  | none => .error .bookingNotFound
  | some b =>
    if b.status.terminal then .error .bookingFinished
    else if b.currency.currency ≠ some body.currency then .error .currencyDiffers
    else if !body.currency.isCent then .error .currencyUnsupported
    else
      match s.world.businessDate with
      | none => .error .businessDateMissing
      | some day => .ok day

/-- The document that `receive` inserts. -/
def newFund (body : Receipt) (day : ℕ) : Fund where
  id := body.requestId
  bookingId := body.bookingId
  currency := body.currency
  method := body.method
  received := body.amount.val
  remaining := body.amount.val
  reference := body.reference
  reason := body.reason
  businessDate := day

def evidence (s : FundStore) (op : Operation) : Except FundError FundStore :=
  match s.operations.insertOne op with
  | none => .error .duplicateKey
  | some operations => .ok { s with operations := operations }

def insertFund (s : FundStore) (f : Fund) : Except FundError FundStore :=
  match s.funds.insertOne f with
  | none => .error .duplicateKey
  | some funds => .ok { s with funds := funds }

def receiptOperation (body : Receipt) (f : Fund) : Operation where
  key := .fund body.requestId
  fundId := f.id
  action := .received
  amount := body.amount.val
  businessDate := f.businessDate
  content := .receipt body
  reference := body.reference
  reason := body.reason
  folioId := none
  result := f

def receive (s : FundStore) (body : Receipt) : Except FundError (FundStore × Fund) :=
  match s.replay (.fund body.requestId) (.receipt body) with
  | some answer => answer.map fun f => (s, f)
  | none =>
    match s.duplicate body with
    | some f =>
      if f.received ≠ body.amount.val ∨ f.reason ≠ body.reason then .error .receiptReused else .ok (s, f)
    | none => do
      let day ← s.admitReceipt body
      let f := newFund body day
      let s ← s.moveCash f (.fund body.requestId) body.amount.val .inn
      let s ← s.insertFund f
      let s ← s.evidence (receiptOperation body f)
      .ok (s, f)

def previous (s : FundStore) (fundId : ℕ) (body : Movement) : Option Operation :=
  s.operations.findOne fun op => decide (op.fundId = fundId ∧ op.action = .moved body.action ∧
    op.reference = body.reference)

def paidOn (s : FundStore) (folioId : ℕ) : List (Currency × ℤ) :=
  (s.payments.rows.filter fun p => p.folioId == folioId).map fun p => (p.currency, p.amount)

def applyToFolio (s : FundStore) (f : Fund) (body : Movement) (day : ℕ) : Except FundError FundStore :=
  match body.folioId with
  | none => .error .folioRequired
  | some folioId =>
    match s.world.folio? f.bookingId folioId with
    | none => .error .folioNotFound
    | some folio =>
      if !folio.isOpen then .error .folioNotOpen
      else if (folio.currency.orElse (.code f.currency)).currency ≠ some f.currency then
        .error .currencyDiffers
      else if folio.isMixed (s.paidOn folio.id) f.currency then .error .folioMixed
      else
        let debt := folio.balanceIn (s.paidOn folio.id) f.currency
        if debt < body.amount.val then .error .exceedsDebt
        else
          match s.payments.insertOne ⟨.move body.requestId, f.bookingId, folio.id, f.currency,
            body.amount.val, f.id, day⟩ with
          | none => .error .duplicateKey
          | some payments => .ok { s with
              payments := payments
              world := s.world.setBalance folio.id (debt - body.amount.val) }

def settle (s : FundStore) (f : Fund) (body : Movement) (day : ℕ) : Except FundError FundStore :=
  match body.action with
  | .apply => s.applyToFolio f body day
  | .refund =>
    if body.folioId.isSome then .error .folioNotAllowed
    else s.moveCash f (.move body.requestId) body.amount.val .out

def moved (f : Fund) (body : Movement) : Fund :=
  let remaining := f.remaining - body.amount.val
  { f with
    remaining := remaining
    status := if remaining = 0 then .closed else .held
    refunded := f.refunded + if body.action = .refund then body.amount.val else 0
    applied := f.applied + if body.action = .apply then body.amount.val else 0 }

theorem moved_id (body : Movement) (f : Fund) : (moved f body).id = f.id := rfl

def movementOperation (fundId : ℕ) (body : Movement) (f : Fund) (day : ℕ) : Operation where
  key := .move body.requestId
  fundId := f.id
  action := .moved body.action
  amount := body.amount.val
  businessDate := day
  content := .movement fundId body
  reference := body.reference
  reason := body.reason
  folioId := body.folioId
  result := f

def move (s : FundStore) (fundId : ℕ) (body : Movement) : Except FundError (FundStore × Fund) :=
  match s.replay (.move body.requestId) (.movement fundId body) with
  | some answer => answer.map fun f => (s, f)
  | none =>
    match s.funds.get? fundId with
    | none => .error .fundNotFound
    | some f =>
      match s.previous fundId body with
      | some op =>
        if op.amount ≠ body.amount.val ∨ op.reason ≠ body.reason ∨ op.folioId ≠ body.folioId then
          .error .referenceReused
        else .ok (s, op.result)
      | none =>
        if f.remaining < body.amount.val then .error .exceedsRemaining
        else
          match s.world.businessDate with
          | none => .error .businessDateMissing
          | some day => do
            let s ← s.settle f body day
            let s := { s with funds := s.funds.update fundId (moved · body) fun f => moved_id body f }
            let s ← s.evidence (movementOperation fundId body (moved f body) day)
            .ok (s, moved f body)

end FundStore

inductive FundRequest where
  | receive (body : Receipt)
  | move (fundId : ℕ) (body : Movement)

def FundRequest.run (s : FundStore) : FundRequest → Except FundError (FundStore × Fund)
  | .receive body => s.receive body
  | .move fundId body => s.move fundId body

def FundStore.handle (s : FundStore) (q : FundRequest) : FundStore :=
  match q.run s with
  | .ok (s', _) => s'
  | .error _ => s

/-- Beside the requests the rest of the hotel goes on. -/
inductive FundStep where
  | request (q : FundRequest)
  | world (w : World)
  | cash (shift n : ℕ) (d : Direction) (amount : ℤ)

def securityFunds : Machine FundStore FundStep where
  init s := s.funds.rows = [] ∧ s.operations.rows = [] ∧ s.payments.rows = [] ∧ s.cash = []
  step s
    | .request q => some (s.handle q)
    | .world w => some { s with world := w }
    | .cash shift n d amount => some { s with cash := s.cash ++ [⟨shift, .other n, d, amount, none⟩] }

end SyrocePms.Billing
