import Mathlib.Algebra.BigOperators.Group.List.Basic
import Mathlib.Algebra.Order.Ring.Int
import SyrocePms.Lib.Fence
import SyrocePms.Lib.Threads

/-! The open credit exposure of an agency at a hotel: what its bookings owe, after statement
payments and collections, with the corrections of the statements. Amounts are in minor units;
one that cannot be read stands as a negative amount, which raises the same error. -/

namespace SyrocePms.AgencyCredit

open Lib

variable {id : ℕ}

structure Scope where
  tenant : ℕ
  agency : ℕ
  deriving DecidableEq

inductive CurrencyText
  | missing
  | invalid
  | code (n : ℕ)
  deriving DecidableEq

inductive CreditError
  | currency
  | money
  | missingNet
  | commission
  | saleCurrency
  | mixedCurrency (code : ℕ)
  | limitExceeded

def CurrencyText.parse : CurrencyText → Except CreditError ℕ
  | .code n => .ok n
  | .missing | .invalid => .error .currency

def CurrencyText.or : CurrencyText → CurrencyText → CurrencyText
  | .missing, y => y
  | x, _ => x

def money (x : ℤ) : Except CreditError ℤ := if x < 0 then .error .money else .ok x

/-! ### Bookings -/

inductive BookingStatus
  | confirmed
  | cancelled
  | other
  deriving DecidableEq

structure Booking where
  id : ℕ
  scope : Scope
  status : BookingStatus := .confirmed
  isPaid : Bool := false
  currency : CurrencyText
  creditCurrency : CurrencyText := .missing
  creditExposure : Option ℤ := none
  netToHotel : Option ℤ := none
  total : Option ℤ := none
  commission : Option ℤ := none
  deriving DecidableEq

def Booking.netExposure (r : Booking) : Except CreditError ℤ :=
  match r.creditExposure, r.netToHotel, r.total, r.commission with
  | some x, _, _, _ => money x
  | none, some x, _, _ => money x
  | none, none, some x, some y => do
    let total ← money x
    let commission ← money y
    if total < commission then .error .commission else .ok (total - commission)
  | none, none, _, _ => .error .missingNet

/-! ### Statements -/

inductive LineStatus
  | cancelled
  | noShow
  | other
  deriving DecidableEq

structure Owes where
  agency : ℤ
  hotel : ℤ
  deriving DecidableEq

def Owes.debt (x : Owes) : ℤ := x.agency - x.hotel

structure StatementLine where
  booking : Option ℕ
  status : LineStatus
  owes : Owes
  adjustment : Option (ℤ × Option Owes) := none
  deriving DecidableEq

structure StatementPayment where
  toHotel : Bool
  amount : ℤ
  deriving DecidableEq

/-- A statement. `agreement` is the revision that the hotel has agreed to, where agreements
are tracked. -/
structure Statement where
  scope : Scope
  isVoid : Bool := false
  hotelOwes : ℤ
  payments : List StatementPayment := []
  lines : List StatementLine
  revision : ℕ := 1
  agreement : Option (Option ℕ) := none
  hotelLines : List (Option ℕ × Owes) := []
  deriving DecidableEq

structure CreditLine where
  booking : Option ℕ
  owes : Owes
  creditAdjustment : ℤ

namespace Statement

variable (st : Statement)

def hotelAgreed : Bool := st.agreement.all fun a => a = some (if st.revision = 0 then 1 else st.revision)

def computed (l : StatementLine) : Owes := (l.adjustment.bind Prod.snd).getD l.owes

/-- The amounts that count: those of the hotel, where they are larger and it has not agreed. -/
def chosen (l : StatementLine) : Owes :=
  if st.hotelAgreed then l.owes
  else
    let baseline := ((st.hotelLines.reverse.find? fun x => x.1 = l.booking).map Prod.snd).getD (computed l)
    if l.owes.debt < baseline.debt then baseline else l.owes

def creditLines : List CreditLine :=
  st.lines.map fun l => ⟨l.booking, st.chosen l, (st.chosen l).debt - (computed l).debt⟩

/-- `totals.hotel_owes_agency` of `credit_view`. -/
def creditHotelOwes : ℤ :=
  if st.hotelAgreed then st.hotelOwes else (st.creditLines.map fun l => l.owes.hotel).sum

/-- The credit that `settled_by_booking` applies to the lines. -/
def credit : ℤ :=
  st.creditHotelOwes + (st.payments.map fun p => if p.toHotel then p.amount else -p.amount).sum

/-- The loop of `settled_by_booking`, for one booking. -/
def clear (booking : ℕ) (credit : ℤ) : List CreditLine → ℤ
  | [] => 0
  | l :: rest =>
    if l.owes.agency ≤ 0 ∨ l.booking = none ∨ credit ≤ 0 then clear booking credit rest
    else
      let portion := min l.owes.agency credit
      (if l.booking = some booking then portion else 0) + clear booking (credit - portion) rest

def settled (booking : ℕ) : ℤ := clear booking st.credit st.creditLines

def adjusted (booking : ℕ) : ℤ :=
  (st.creditLines.map fun l => if l.booking = some booking then l.creditAdjustment else 0).sum

def owed (booking : ℕ) : ℤ :=
  (st.creditLines.map fun l => if l.booking = some booking then l.owes.agency else 0).sum

def mentions (booking : ℕ) : Bool := st.lines.any fun l => l.booking = some booking

/-- The bookings of `_statement_debtor_ids` in one statement. -/
def debtors : List ℕ :=
  (st.lines.filterMap fun l =>
    if l.adjustment.isSome || l.status ≠ .other then l.booking else none) ++ st.hotelLines.filterMap Prod.fst

end Statement

/-! ### Payments -/

structure Payment where
  tenant : ℕ
  booking : Option ℕ
  amount : ℤ
  isRefund : Bool := false
  isEffective : Bool := true
  isTransfer : Bool := false
  isNonCash : Bool := false

def Payment.signed (p : Payment) : ℤ := if p.isRefund then -|p.amount| else p.amount

def collectedAmount (payments : List Payment) : ℤ :=
  max 0 ((payments.filter fun p => p.isEffective && !p.isTransfer && !p.isNonCash).map Payment.signed).sum

/-! ### The exposure -/

/-- What statements and payments say of each booking. -/
structure Evidence where
  settled : ℕ → ℤ
  adjusted : ℕ → ℤ
  owed : ℕ → ℤ
  collected : ℕ → ℤ

/-- `_settled_through_statements` and `_collected_by_booking`, on the rows that were read. -/
def evidence (statements : List Statement) (payments : List Payment) : Evidence where
  settled b := (statements.map fun st => st.settled b).sum
  adjusted b := (statements.map fun st => st.adjusted b).sum
  owed b := (statements.map fun st => st.owed b).sum
  collected b := collectedAmount (payments.filter fun p => p.booking = some b)

def Evidence.paid (e : Evidence) (booking : ℕ) : ℤ := max (e.settled booking) (e.collected booking)

def Booking.owes (r : Booking) (currency : ℕ) (e : Evidence) : Except CreditError ℤ := do
  let code ← (r.creditCurrency.or r.currency).parse
  if code ≠ currency then .error (.mixedCurrency code)
  else if r.status = .cancelled then .ok (e.owed r.id)
  else do
    let net ← r.netExposure
    .ok (net + e.adjusted r.id)

def Booking.remaining (r : Booking) (currency : ℕ) (e : Evidence) : Except CreditError ℤ :=
  (r.owes currency e).map fun owed => max 0 (owed - e.paid r.id)

def openDebt (currency : ℕ) (e : Evidence) (rows : List Booking) : Except CreditError ℤ :=
  rows.foldlM (fun debt r => (r.remaining currency e).map (debt + ·)) 0

structure Books where
  bookings : Collection Booking Booking.id
  statements : List Statement
  payments : List Payment

namespace Books

variable (b : Books) (scope : Scope)

def statementsOf : List Statement := b.statements.filter fun st => st.scope = scope && !st.isVoid

/-- `_statement_debtor_ids`. -/
def debtors : List ℕ := (b.statementsOf scope).flatMap Statement.debtors

/-- The bookings that the query of `open_credit_exposure` finds. -/
def openRows (debtors : List ℕ) (exclude : Option ℕ) : List Booking :=
  b.bookings.rows.filter fun r =>
    r.scope = scope && ((r.status ≠ .cancelled && !r.isPaid) || debtors.contains r.id) && exclude ≠ some r.id

def statementsFor (ids : List ℕ) : List Statement :=
  (b.statementsOf scope).filter fun st => ids.any st.mentions

def paymentsFor (ids : List ℕ) : List Payment :=
  b.payments.filter fun p => p.tenant = scope.tenant && p.booking.any ids.contains

/-- `open_credit_exposure` without an excluded booking, when nothing is written meanwhile. -/
def exposure (currency : ℕ) : Except CreditError ℤ :=
  let rows := b.openRows scope (b.debtors scope) none
  let ids := rows.map Booking.id
  openDebt currency (evidence (b.statementsFor scope ids) (b.paymentsFor scope ids)) rows

end Books

/-! ### The check -/

structure Contract where
  limit : Option ℤ
  currency : CurrencyText
  deriving DecidableEq

/-- A sale: a new booking, or the new amounts of the booking that it modifies. -/
structure Sale where
  contract : Contract
  currency : CurrencyText
  total : ℤ
  commission : ℤ
  modifies : Option ℕ := none
  deriving DecidableEq

/-- The limit and the currency that are checked. -/
structure Terms where
  limit : ℤ
  currency : ℕ
  deriving DecidableEq

namespace Sale

variable (x : Sale)

def net : ℤ := x.total - x.commission

/-- `assert_credit_capacity` before its reads: `none` when there is no limit. -/
def terms : Except CreditError (Option Terms) :=
  match x.contract.limit with
  | none => .ok none
  | some l => do
    let limit ← money l
    let currency ← x.contract.currency.parse
    let saleCurrency ← x.currency.parse
    if saleCurrency ≠ currency then .error .saleCurrency
    else do
      let _ ← money x.net
      .ok (some ⟨limit, currency⟩)

/-- The exposure that the sale adds: a modified booking replaces its old exposure, but what has
been paid for it still counts. -/
def newExposure (e : Evidence) : ℤ :=
  match x.modifies with
  | none => x.net
  | some b => max 0 (x.net - (e.paid b - e.adjusted b))

def capacity (t : Terms) (rows : List Booking) (e : Evidence) : Except CreditError Unit := do
  let debt ← openDebt t.currency e rows
  if t.limit < debt + x.newExposure e then .error .limitExceeded else .ok ()

/-- The bookings whose statements and payments are read. -/
def ids (rows : List Booking) : List ℕ := rows.map Booking.id ++ x.modifies.toList

def booking (scope : Scope) (id : ℕ) : Booking where
  id := id
  scope := scope
  currency := x.currency
  creditCurrency := x.currency
  creditExposure := some x.net
  netToHotel := some x.net
  total := some x.total
  commission := some x.commission

def amend (r : Booking) : Booking :=
  { r with
    creditCurrency := x.currency
    creditExposure := some x.net
    netToHotel := some x.net
    total := some x.total
    commission := some x.commission }

theorem amend_id (r : Booking) : (x.amend r).id = r.id := rfl

end Sale

variable {scope : Scope} {r : Booking}

namespace Books

variable (b : Books)

def isFresh (id : ℕ) : Bool :=
  b.bookings.rows.all (·.id ≠ id) && b.payments.all (·.booking ≠ some id) &&
    b.statements.all fun st => !st.mentions id && !st.debtors.contains id

def isModified (scope : Scope) (id : ℕ) (r : Booking) : Bool :=
  r.id = id && r.scope = scope && r.status = .confirmed

@[simp] theorem isModified_iff :
    isModified scope id r = true ↔ r.id = id ∧ r.scope = scope ∧ r.status = .confirmed := by
  simp [isModified, and_assoc]

def amended (scope : Scope) (x : Sale) (id : ℕ) : Books :=
  { b with bookings := b.bookings.updateMany (isModified scope id) x.amend x.amend_id }

theorem mem_amended {x : Sale} : r ∈ (b.amended scope x id).bookings ↔
      ∃ y ∈ b.bookings, r = if isModified scope id y then x.amend y else y := by
  change r ∈ b.bookings.updateMany (isModified scope id) x.amend x.amend_id ↔ _
  exact Collection.mem_updateMany

/-- The write of a sale: `none` when it raises. -/
def store (scope : Scope) (x : Sale) (newId : ℕ) : Option Books :=
  match x.modifies with
  | none => (b.bookings.insertOne (x.booking scope newId)).map fun bookings => { b with bookings }
  | some id =>
    if b.bookings.any (isModified scope id) then some (b.amended scope x id) else none

end Books

/-! The admission fence of an agency, with bodies that check the credit and store a sale, each
read and each write a step of its own. A body ends in any way before any of its steps, writes
of the clean-up fail, answers of writes are lost, and a call that crashes takes no further
step. Bookings, statements and payments are also written elsewhere. -/

/-- The token of a context: its number, or that of one before the run. -/
inductive Owner
  | call (k : ℕ)
  | earlier (n : ℕ)
  deriving DecidableEq

/-- What a fence stores for its recovery. -/
structure Purpose where
  operation : ℕ
  reference : Option ℕ
  idempotencyKey : Option ℕ := none
  deriving DecidableEq

structure Store where
  fences : Fences Scope Owner Purpose
  books : Books

/-- The arguments of `agency_sale_guard`. -/
structure Guard where
  scope : Scope
  purpose : Purpose
  resume : Bool := false
  deriving DecidableEq

/-- The fence is for the same operation on the same reference. -/
def Guard.fits (g : Guard) (x : Purpose) : Bool :=
  x.operation = g.purpose.operation && x.reference = g.purpose.reference

/-- Where a context stands: before its body, in the body, or in its clean-up. -/
inductive Pc
  | acquire
  | resume
  | check
  | debtors (t : Terms)
  | rows (t : Terms) (debtors : List ℕ)
  | statements (t : Terms) (rows : List Booking)
  | payments (t : Terms) (rows : List Booking) (statements : List Statement)
  | store (t : Option Terms)
  | stored
  | release
  | retain
  | left
  deriving DecidableEq

def Pc.inBody : Pc → Bool
  | .check | .debtors _ | .rows _ _ | .statements _ _ | .payments _ _ _ | .store _ | .stored => true
  | _ => false

structure Thread where
  guard : Guard
  sale : Sale
  pc : Pc
  deriving DecidableEq

/-- How a body ends: with a result, by an `HTTPException`, or by any other exception. -/
inductive Exit
  | result
  | rejected
  | failed

/-- What a context cannot foresee: the id of a booking, whether its body ends here, and whether
a write raises, without or with its effect. -/
structure Chance where
  newId : ℕ := 0
  exit : Option Exit := none
  fails : Bool := false
  lost : Bool := false

def Exit.cleanUp : Exit → Pc
  | .result | .rejected => .release
  | .failed => .retain

def orReject {α : Type*} (x : Except CreditError α) (f : α → Pc) : Pc :=
  match x with
  | .error _ => .release
  | .ok y => f y

def bodyStep (b : Books) (g : Guard) (x : Sale) (o : Chance) : Pc → Option (Books × Pc)
  | .check =>
    some (b, orReject x.terms fun t =>
      match t with
      | none => .store none
      | some t => .debtors t)
  | .debtors t => some (b, .rows t (b.debtors g.scope))
  | .rows t debtors => some (b, .statements t (b.openRows g.scope debtors x.modifies))
  | .statements t rows => some (b, .payments t rows (b.statementsFor g.scope (x.ids rows)))
  | .payments t rows statements =>
    some (b, orReject (x.capacity t rows (evidence statements (b.paymentsFor g.scope (x.ids rows)))) fun _ =>
      .store (some t))
  | .store _ =>
    -- a new id is a fresh uuid
    if b.isFresh o.newId then
      match b.store g.scope x o.newId with
      | none => some (b, .retain)
      | some b' => some (b', if o.lost then .retain else .stored)
    else none
  | .stored => some (b, .release)
  | _ => none

/-- A step of context `k`. -/
def advance (k : ℕ) (s : Store) (t : Thread) (o : Chance) : Option (Store × Pc) :=
  match t.pc with
  | .acquire =>
    if o.fails then some (s, .left)
    else
      match s.fences.acquire t.guard.scope (.call k) t.guard.purpose with
      | some fences => some ({ s with fences }, if o.lost then .left else .check)
      | none => some (s, if t.guard.resume && t.guard.purpose.reference.isSome then .resume else .left)
  | .resume =>
    if o.fails then some (s, .left)
    else
      match s.fences.takeOver t.guard.scope (.call k) t.guard.fits with
      | some fences => some ({ s with fences }, if o.lost then .left else .check)
      | none => some (s, .left)
  | .release =>
    some (if o.fails then s else { s with fences := s.fences.release t.guard.scope (.call k) }, .left)
  | .retain =>
    some (if o.fails then s else { s with fences := s.fences.retain t.guard.scope (.call k) }, .left)
  | .left => none
  | pc =>
    match o.exit with
    | some e => some (s, e.cleanUp)
    | none => (bodyStep s.books t.guard t.sale o pc).map fun r => ({ s with books := r.1 }, r.2)

structure Call where
  guard : Guard
  sale : Sale

/-- The fences of one store. Those that a run starts with have been left before. -/
def contexts : Program Store Thread Books Call Chance where
  init s := ∀ f ∈ s.fences, ∃ n, f.owner = .earlier n
  env s books := some { s with books }
  call _ c := some ⟨c.guard, c.sale, .acquire⟩
  step k s t o := (advance k s t o).map fun r => (r.1, { t with pc := r.2 })

end SyrocePms.AgencyCredit
