import SyrocePms.Lib.Collection
import SyrocePms.PosCheck.Pricing

/-! The collections of one property that its checks touch: orders, tables, sales with their
refunds, and the intents for the folios. -/

namespace SyrocePms.PosCheck

open Lib

/-- `payment_method`, any text that the terminal sends. -/
inductive Method
  | cash
  | card
  | mixed
  | roomCharge
  | other (name : String)
  deriving DecidableEq

/-- An outlet and a table number, which have one row of the layout. -/
structure Place where
  outlet : ℕ
  number : ℕ
  deriving DecidableEq

inductive TableStatus
  | available
  | occupied
  | reserved
  | dirty
  deriving DecidableEq

structure Table where
  place : Place
  status : TableStatus := .available
  currentOrder : Option ℕ := none
  currentTransaction : Option ℕ := none

def Table.isFree (t : Table) : Bool :=
  t.status = .available && t.currentOrder = none && t.currentTransaction = none

def Table.claim (i : ℕ) (t : Table) : Table := { t with status := .occupied, currentOrder := some i }

/-- The release by order `i`, which is conditional on its claim. -/
def Table.release (i : ℕ) (status : TableStatus) (t : Table) : Table :=
  if t.currentOrder = some i then { t with status, currentOrder := none } else t

theorem Table.claim_place (i : ℕ) (t : Table) : (t.claim i).place = t.place := rfl

theorem Table.release_place (i : ℕ) (status : TableStatus) (t : Table) : (t.release i status).place = t.place := by
  unfold Table.release
  split <;> rfl

/-- `checkout_quote`: what the benefits take off. Its `quote_id` is the fingerprint of all of it. -/
structure Quote where
  gross : ℤ
  coupon : ℤ
  loyalty : ℤ
  lines : List Line
  adjustments : List Adjustment
  deriving DecidableEq

def Quote.net (q : Quote) : ℤ := q.gross - q.coupon - q.loyalty

/-- A completed row of `pos_transactions`. -/
structure Sale where
  id : ℕ
  order : ℕ
  amount : ℤ
  totalAmount : ℤ
  method : Method
  lines : List Line
  folio : Option ℕ := none
  quote : Option Quote := none
  refundedAmount : Option ℤ := none
  idempotencyKey : Option ℕ := none
  requestHash : ℕ := 0

def Sale.paid (s : Sale) : ℤ := if s.totalAmount = 0 then s.amount else s.totalAmount

def Sale.refunded (s : Sale) : ℤ := s.refundedAmount.getD 0

def Sale.refund (amount : ℤ) (s : Sale) : Sale := { s with refundedAmount := some (s.refunded + amount) }

theorem Sale.refund_id (amount : ℤ) (s : Sale) : (s.refund amount).id = s.id := rfl

/-- A refund row of `pos_transactions`, its amount without the sign. -/
structure Refund where
  id : ℕ
  order : ℕ
  sale : ℕ
  amount : ℤ
  idempotencyKey : Option ℕ := none
  requestHash : ℕ := 0

/-- A row of `pos_order_item_batches` that has a key. -/
structure Batch where
  key : ℕ
  order : ℕ
  requestHash : ℕ

/-- `POS_CHARGE_POSTED` and `POS_CHARGE_REVERSED` of an order. -/
structure Intent where
  order : ℕ
  folio : ℕ
  deriving DecidableEq

structure Store where
  orders : Collection PosOrder PosOrder.id := .empty
  tables : Collection Table Table.place := .empty
  sales : Collection Sale Sale.id := .empty
  refunds : Collection Refund Refund.id := .empty
  batches : Collection Batch Batch.key := .empty
  postings : List Intent := []
  reversals : Collection Intent Intent.order := .empty

def PosOrder.place (o : PosOrder) : Option Place := o.table.map fun number => ⟨o.outlet, number⟩

/-- Neither closed nor voided. -/
def PosOrder.IsOpen (o : PosOrder) : Prop := o.status ≠ .closed ∧ o.status ≠ .voided

def claimed (tables : Collection Table Table.place) (i : ℕ) (place : Place) : Collection Table Table.place :=
  tables.update place (Table.claim i) (Table.claim_place i)

def released (tables : Collection Table Table.place) (i : ℕ) (status : TableStatus) :
    Option Place → Collection Table Table.place
  | some place => tables.update place (Table.release i status) (Table.release_place i status)
  | none => tables

inductive Edit
  | append (lines : List Line) (pricing : Pricing)
  | setLines (lines : List Line) (pricing : Pricing)
  | adjust (a : Adjustment) (pricing : Pricing)
  | moveTo (table : ℕ)
  | close
  | void
  | refund (full : Bool)
  | progress (status : Status)

def Edit.apply (o : PosOrder) : Edit → PosOrder
  | append lines pricing => { o with lines := o.lines ++ lines, pricing }
  | setLines lines pricing => { o with lines, pricing }
  | adjust a pricing => { o with adjustments := o.adjustments ++ [a], pricing }
  | moveTo table => { o with table := some table }
  | close => { o with status := .closed, paymentStatus := .paid }
  | void => { o with status := .voided }
  | refund full => { o with paymentStatus := if full then .refunded else .partiallyRefunded }
  | progress status => { o with status }

theorem Edit.apply_id (e : Edit) (o : PosOrder) : (e.apply o).id = o.id := by cases e <;> rfl

namespace Store

variable (s : Store)

/-! ### The writes -/

/-- `update_one` of an order. -/
def edit (i : ℕ) (e : Edit) : Store :=
  let orders := s.orders.update i (fun o => e.apply o) e.apply_id
  { s with orders }

def compareAndSet (i : ℕ) (p : PosOrder → Bool) (e : Edit) : Option Store :=
  match s.orders.get? i with
  | some o => if p o then some (s.edit i e) else none
  | none => none

def claim (i : ℕ) (place : Place) : Option Store :=
  match s.tables.get? place with
  | some t => if t.isFree then some { s with tables := claimed s.tables i place } else none
  | none => none

def release (i : ℕ) (status : TableStatus) (place : Option Place) : Store :=
  { s with tables := released s.tables i status place }

/-- `ux_pos_orders_tenant_idemp`, and the `_id` of an order with a key. -/
def insertOrder (o : PosOrder) : Option Store :=
  if o.idempotencyKey.isSome ∧ s.orders.any fun x => x.idempotencyKey = o.idempotencyKey then none
  else (s.orders.insertOne o).map fun orders => { s with orders }

/-- A row of `pos_transactions` has the key. -/
def isKeyUsed (key : Option ℕ) : Bool :=
  key.isSome && (s.sales.any (fun x => x.idempotencyKey = key) || s.refunds.any fun x => x.idempotencyKey = key)

/-- `ux_pos_txn_tenant_idemp` and `ux_pos_sale_per_order`. -/
def insertSale (sale : Sale) : Option Store :=
  if s.isKeyUsed sale.idempotencyKey ∨ s.sales.any fun x => x.order = sale.order then none
  else (s.sales.insertOne sale).map fun sales => { s with sales }

def insertRefund (r : Refund) : Option Store :=
  if s.isKeyUsed r.idempotencyKey then none
  else (s.refunds.insertOne r).map fun refunds => { s with refunds }

/-- `ux_pos_item_batch_tenant_idemp`. -/
def insertBatch (order requestHash : ℕ) : Option ℕ → Option Store
  | some key => (s.batches.insertOne ⟨key, order, requestHash⟩).map fun batches => { s with batches }
  | none => some s

/-- The intent that the charges of an order be posted to a folio. -/
def post (i : Option Intent) : Store := { s with postings := s.postings ++ i.toList }

def refundSale (i : ℕ) (amount paid : ℤ) : Option (Store × Sale) :=
  match s.sales.get? i with
  | some sale =>
    let sales := s.sales.update i (Sale.refund amount) (Sale.refund_id amount)
    if sale.refunded + amount ≤ paid then some ({ s with sales }, sale.refund amount) else none
  | none => none

/-- The intent that the charges of an order be reversed. Its key is that of the order, and a second
one is dropped. -/
def reverse (i : Intent) : Store :=
  match s.reversals.insertOne i with
  | some reversals => { s with reversals }
  | none => s

end Store

/-! What the operations compute outside their transactions, from what they have read. The plan of
a commit keeps the order as it was read. -/

/-- `round(x, 2)` of a price, in cents. -/
def cents (x : ℚ) : ℤ := Decimal.roundEven (x * 100)

structure Item where
  item : ℕ
  quantity : ℕ

/-- An item of the menu, at the price after the happy hour. -/
structure MenuItem where
  price : ℚ
  taxRate : ℚ

structure Opening where
  outlet : ℕ
  table : Option ℕ := none
  items : List Item
  dineIn : Bool := true
  key : Option ℕ := none
  requestHash : ℕ := 0
  expectedTotal : Option ℚ := none

structure Addition where
  order : ℕ
  items : List Item
  key : Option ℕ := none
  requestHash : ℕ := 0
  expectedTable : Option ℕ := none
  expectedTotal : Option ℚ := none

structure AdjustmentRequest where
  order : ℕ
  kind : Kind
  calculation : Calculation
  value : ℚ

/-- `isCheckout` is the presence of `checkout_options`, `hasBooking` that of `booking_id`. -/
structure Checkout where
  order : ℕ
  method : Method := .cash
  postToFolio : Bool := false
  hasBooking : Bool := false
  tip : ℚ := 0
  key : Option ℕ := none
  requestHash : ℕ := 0
  payments : List (Method × ℚ) := []
  isCheckout : Bool := false

structure RefundRequest where
  order : ℕ
  amount : Option ℚ := none
  key : Option ℕ := none
  requestHash : ℕ := 0

/-- A call. One without the role or the reason that its operation asks for reads nothing, and is
left out. -/
inductive Request
  | create (a : Opening)
  | addItems (a : Addition)
  | voidItem (order lineIndex : ℕ)
  | adjust (a : AdjustmentRequest)
  | transfer (order toTable : ℕ)
  | close (a : Checkout)
  | void (order : ℕ)
  | refund (a : RefundRequest)

inductive Answer
  | ok
  | idempotent
  | notFound
  | validationError
  | priceChanged
  | tableUnavailable
  | orderNotOpen
  | orderVoided
  | orderClosed
  | orderNotClosed
  | orderPricingInvalid
  | paymentMismatch
  | bookingRequired
  | folioNotOpen
  | refundLimit
  | conflict
  | unprocessable
  | raised

/-- What a call cannot foresee: the menu, the discounts of a coupon and of loyalty points, the
open folio of a guest in the house, and a transaction that fails. -/
structure Chance where
  menu : ℕ → Option MenuItem := fun _ => none
  benefits : Option (ℕ × ℕ) := none
  folio : Option ℕ := none
  fails : Bool := false

/-! ### Items -/

def catalogLine (id : ℕ × ℕ) (quantity : ℕ) (m : MenuItem) : Option Line :=
  if quantity < 1 ∨ 100 < quantity ∨ m.price < 0 ∨ m.taxRate < 0 ∨ 1 < m.taxRate then none
  else some ⟨id, rounded (quantity * m.price * 100), m.taxRate⟩

/-- `_catalog_lines` of call `k`, from place `n` on. -/
def catalogLines (k : ℕ) (menu : ℕ → Option MenuItem) (n : ℕ) : List Item → Option (List Line)
  | [] => some []
  | x :: xs => do
    let m ← menu x.item
    let line ← catalogLine (k, n) x.quantity m
    let lines ← catalogLines k menu (n + 1) xs
    some (line :: lines)

def isStalePrice (expected : Option ℚ) (total : ℤ) : Bool :=
  match expected with
  | some x => cents x ≠ total
  | none => false

/-! ### Plans -/

/-- What a commit goes by. `read` is the order as it was read. -/
inductive Plan
  | create (order : PosOrder) (claims : Option Place)
  | addItems (read : PosOrder) (lines : List Line) (pricing : Pricing) (key : Option ℕ) (requestHash : ℕ)
  | voidItem (read : PosOrder) (lines : List Line) (pricing : Pricing)
  | adjust (read : PosOrder) (a : Adjustment) (pricing : Pricing)
  | transfer (read : PosOrder) (target : ℕ)
  | close (read : PosOrder) (sale : Sale) (posting : Option Intent)
  | void (read : PosOrder)
  | refund (order sale : ℕ) (paid amount : ℤ) (key : Option ℕ) (requestHash : ℕ)

def PosOrder.isServable (o : PosOrder) : Bool :=
  (o.status = .pending ∨ o.status = .preparing ∨ o.status = .ready) ∧ o.paymentStatus ≠ .paid

/-- `create_order` after its look-ups. -/
def planCreate (k : ℕ) (a : Opening) (table : Option Table) (o : Chance) : Except Answer Plan :=
  if a.items = [] then .error .validationError
  else if table.any fun t => !t.isFree then .error .tableUnavailable
  else
    match catalogLines k o.menu 0 a.items with
    | none => .error .validationError
    | some lines =>
      let grand := subtotal lines + tax lines
      if isStalePrice a.expectedTotal grand then .error .priceChanged
      else
        .ok <| .create
          { id := k, outlet := a.outlet, table := a.table, lines
            pricing := { totalAmount := subtotal lines, taxAmount := tax lines, grandTotal := grand }
            idempotencyKey := a.key, requestHash := a.requestHash }
          (table.map fun t => t.place)

def planAddItems (k : ℕ) (a : Addition) (read : PosOrder) (o : Chance) : Except Answer Plan :=
  if a.expectedTable.any fun n => read.table ≠ some n then .error .orderNotOpen
  else if !read.isServable then .error .orderNotOpen
  else
    match catalogLines k o.menu 0 a.items with
    | none => .error .validationError
    | some lines =>
      if isStalePrice a.expectedTotal (subtotal lines + tax lines) then .error .priceChanged
      else
        match repriceOrder read (some (read.lines ++ lines)) with
        | none => .error .unprocessable
        | some pricing => .ok (.addItems read lines pricing a.key a.requestHash)

def planVoidItem (lineIndex : ℕ) (read : PosOrder) : Except Answer Plan :=
  let items := read.lines.eraseIdx lineIndex
  if !read.isServable then .error .orderNotOpen
  else if read.lines.length ≤ lineIndex then .error .notFound
  else if items = [] then .error .validationError
  else
    match repriceOrder read (some items) with
    | none => .error .unprocessable
    | some pricing => .ok (.voidItem read items pricing)

def planAdjust (k : ℕ) (a : AdjustmentRequest) (read : PosOrder) : Except Answer Plan :=
  let event : Adjustment := ⟨k, a.kind, a.calculation, a.value⟩
  if !read.isServable then .error .orderNotOpen
  else if a.value ≤ 0 then .error .validationError
  else
    match repriceOrder { read with adjustments := read.adjustments ++ [event] } none with
    | none => .error .unprocessable
    | some pricing => .ok (.adjust read event pricing)

def planTransfer (read : PosOrder) (target : ℕ) (table : Option Table) : Except Answer Plan :=
  match table with
  | none => .error .notFound
  | some t => if t.isFree then .ok (.transfer read target) else .error .tableUnavailable

def planVoid (read : PosOrder) : Except Answer Plan :=
  if read.status = .voided then .error .idempotent
  else if read.status = .closed ∨ read.paymentStatus ≠ .unpaid then .error .orderClosed
  else .ok (.void read)

/-! ### Checkout -/

def quoteCheckout (read : PosOrder) (o : Chance) : Option Quote :=
  match o.benefits with
  | none => none
  | some (coupon, loyalty) =>
    let gross := read.pricing.grandTotal
    if gross < 0 ∨ gross - coupon < 0 ∨ gross - coupon < loyalty then none
    else some ⟨gross, coupon, loyalty, read.lines, read.adjustments⟩

def splitMethod (payments : List (Method × ℚ)) (total : ℤ) : Except Answer Method :=
  if payments.any fun x => (x.1 ≠ .cash ∧ x.1 ≠ .card) ∨ cents x.2 ≤ 0 then .error .validationError
  else if (payments.map fun x => cents x.2).sum ≠ total then .error .paymentMismatch
  else .ok (match payments with
    | [x] => x.1
    | _ => .mixed)

def tender (a : Checkout) (total : ℤ) : Except Answer (Method × Bool) :=
  if a.payments = [] then .ok (a.method, a.postToFolio)
  else (splitMethod a.payments total).map fun m => (m, false)

def chargedFolio (a : Checkout) (posts : Bool) (o : Chance) : Except Answer (Option ℕ) :=
  if !posts then .ok none
  else if !a.hasBooking then .error .bookingRequired
  else
    match o.folio with
    | none => .error .folioNotOpen
    | some folio => .ok (some folio)

def benefitQuote (a : Checkout) (read : PosOrder) (o : Chance) : Except Answer (Option Quote) :=
  if !a.isCheckout then .ok none
  else
    match quoteCheckout read o with
    | none => .error .conflict
    | some q => .ok (some q)

def planClose (k : ℕ) (a : Checkout) (read : PosOrder) (o : Chance) : Except Answer Plan :=
  if read.status = .voided then .error .orderVoided
  else if read.status = .closed ∨ read.paymentStatus = .paid then .error .idempotent
  else if read.pricing.grandTotal < 0 then .error .orderPricingInvalid
  else do
    let quote ← benefitQuote a read o
    let amount := (quote.map Quote.net).getD read.pricing.grandTotal
    let total := Decimal.roundEven (amount + a.tip * 100)
    let (method, posts) ← tender a total
    let folio ← chargedFolio a posts o
    .ok <| .close read
      { id := k, order := read.id, amount, totalAmount := total, method, lines := read.lines, folio, quote
        idempotencyKey := a.key, requestHash := a.requestHash }
      (folio.map fun f => ⟨read.id, f⟩)

/-- `refund_order` after its look-up of the sale. -/
def planRefund (a : RefundRequest) (sale : Option Sale) : Except Answer Plan :=
  match sale with
  | none => .error .notFound
  | some sale =>
    let remaining := sale.paid - sale.refunded
    let amount := (a.amount.map cents).getD remaining
    if amount ≤ 0 ∨ remaining < amount then .error .refundLimit
    else if sale.method = .roomCharge ∧ amount ≠ remaining then .error .refundLimit
    else .ok (.refund a.order sale.id sale.paid amount a.key a.requestHash)

end SyrocePms.PosCheck
