import Mathlib.Data.List.Dedup
import Mathlib.Data.List.Sort
import SyrocePms.OperationalGl.Lines

/-! The plan of a business day: its charges, payments and security movements become rows of a
manifest and lines of a journal entry, valued in TRY at the rates of that day. The plan depends
on no clock and no stored state. Ids, account codes and dates are numbered in the order of
their texts. -/

namespace SyrocePms.OperationalGl

open NightAudit (roundHalfUp)

/-- The texts of `method`. -/
inductive Method
  | cash
  | nakit
  | card
  | creditCard
  | debitCard
  | krediKarti
  | pos
  | bank
  | bankTransfer
  | transfer
  | online
  | eft
  | wire
  | havale
  | other (n : ℕ)
  deriving DecidableEq

inductive PaymentType
  | discount
  | compAdjustment
  | rateCorrection
  | other (n : ℕ)
  deriving DecidableEq

inductive ValuationError
  | runNotFound
  | mappingDisabled
  | notThisDay
  | referenceRequired
  | unsupportedCurrency (code : Currency)
  | invalidRate
  | fxAccountsRequired
  | fxAccountsNotSeparate
  | fxAccountType (code : ℕ)
  | inconsistentSources
  | unknownTax
  | taxBreakdown
  | vatDisagrees
  | aggregateTax
  | taxOutsideTotal
  | taxDirection
  | accommodationAccount
  | valuationRequired (code : Currency)
  | stableIds
  | adjustmentType (n : ℕ)
  | adjustmentAccount
  | adjustmentNotSeparate
  | adjustmentZero
  | unmappedMethod (method : Method)
  | receiptNotBound
  | receiptDifference
  | roundsToZero
  | netZeroRounding
  | securityRate
  | securityAccount
  | securityMovement
  | duplicateIds
  | posting (e : PostingError)
  | multipleOriginals
  | keyConflict
  | danglingLink
  | originalMismatch
  | evidenceChanged
  | sourceHistoryMissing
  | alreadyReversed
  | correctionDiffers
  | previewChanged

/-! ### Mapping and valuation -/

/-- The account codes of an operational mapping. -/
structure Accounts where
  receivable : ℕ
  revenue : ℕ
  tax : ℕ
  cash : ℕ
  card : ℕ
  bank : ℕ
  securityDeposit : Option ℕ := none
  accommodationTax : Option ℕ := none
  adjustment : Option ℕ := none
  deriving DecidableEq

namespace Accounts

variable (a : Accounts)

def others : List ℕ :=
  [a.receivable, a.revenue, a.tax, a.cash, a.card, a.bank] ++ a.securityDeposit.toList ++
    a.accommodationTax.toList

def codes : List ℕ := a.others ++ a.adjustment.toList

def payment : Method → Option ℕ
  | .cash | .nakit => some a.cash
  | .card | .creditCard | .debitCard | .krediKarti | .pos => some a.card
  | .bank | .bankTransfer | .transfer | .online | .eft | .wire | .havale => some a.bank
  | .other _ => none

end Accounts

structure Mapping where
  enabled : Bool
  autoNightAudit : Bool
  accounts : Accounts

structure FxAccounts where
  gain : ℕ
  loss : ℕ
  deriving DecidableEq

/-- The valuation that a call asks for. A rate that is no finite number is `none`. -/
structure ValuationRequest where
  businessDate : ℕ
  baseIsLira : Bool
  reference : String
  rates : List (Currency × Option ℚ)
  realisedFx : Option FxAccounts := none

structure Rates where
  usd : Option ℚ := none
  eur : Option ℚ := none
  gbp : Option ℚ := none
  chf : Option ℚ := none
  deriving DecidableEq

namespace Rates

variable (r : Rates)

def of : Currency → Option ℚ
  | .lira => some 1
  | .usd => r.usd
  | .eur => r.eur
  | .gbp => r.gbp
  | .chf => r.chf
  | .other _ => none

def value (code : Currency) (native : ℤ) : ℤ := roundHalfUp (native * (r.of code).getD 0)

def set (rate : ℚ) : Currency → Option Rates
  | .usd => some { r with usd := some rate }
  | .eur => some { r with eur := some rate }
  | .gbp => some { r with gbp := some rate }
  | .chf => some { r with chf := some rate }
  | .lira | .other _ => none

end Rates

structure Valuation where
  businessDate : ℕ
  reference : String
  rates : Rates
  realisedFx : Option FxAccounts
  deriving DecidableEq

def addRate (r : Rates) (x : Currency × Option ℚ) : Except ValuationError Rates :=
  if x.1 = .lira ∧ x.2 = some 1 then .ok r
  else
    match r.set (x.2.getD 0) x.1 with
    | none => .error (.unsupportedCurrency x.1)
    | some r' =>
      match x.2 with
      | none => .error .invalidRate
      | some rate =>
        if 0 < rate ∧ rate ≤ 1000000 ∧ (rate * 1000000).den = 1 then .ok r' else .error .invalidRate

def normalizedValuation (businessDate : ℕ) (x : ValuationRequest) : Except ValuationError Valuation :=
  if x.businessDate ≠ businessDate ∨ x.baseIsLira = false then .error .notThisDay
  else if x.reference.length < 3 ∨ 240 < x.reference.length then .error .referenceRequired
  else do
    let rates ← (x.rates.insertionSort fun a b => a.1.rank ≤ b.1.rank).foldlM addRate {}
    if x.realisedFx.any fun f => f.gain = 0 || f.loss = 0 || f.gain = f.loss then
      .error .fxAccountsRequired
    else
      .ok ⟨businessDate, x.reference, rates, x.realisedFx⟩

/-! ### Sources -/

inductive TaxBreakdown
  | none
  | unsupported
  | parts (vat accommodation : ℤ)

structure Charge where
  id : Option ℕ
  currency : Currency
  folioId : Option ℕ
  bookingId : Option ℕ
  gross : ℤ
  taxAmount : Option ℤ
  vatAmount : Option ℤ := none
  breakdown : TaxBreakdown := .none
  nightAudit : Bool := false
  demoReconstruction : Option ℕ := none

/-- What a payment has stored of its receipt in the reporting currency. -/
structure Receipt where
  amount : ℤ
  isLira : Bool
  rateDate : Option ℕ

structure Payment where
  id : Option ℕ
  currency : Currency
  folioId : Option ℕ
  bookingId : Option ℕ
  isAdjustment : Bool
  paymentType : PaymentType := .other 0
  folioAmount : ℤ := 0
  collection : ℤ
  method : Method
  receipt : Option Receipt := none
  receivedCurrency : Option Currency := none
  receivedAmount : Option ℤ := none
  concessionId : Option ℕ := none
  chargeIds : List ℕ := []
  demoReconstruction : Option ℕ := none

structure Movement where
  id : ℕ
  currency : Currency
  amount : ℤ
  action : Option SecurityAction
  method : Method
  fundId : ℕ
  bookingId : Option ℕ
  folioId : Option ℕ
  receiptRate : Option ℚ := none

/-- What `daily_sources` finds. -/
structure Sources where
  charges : List Charge := []
  payments : List Payment := []
  security : List Movement := []

/-- `source_tax_components` up to the bounds: the tax, the VAT and the accommodation tax. -/
def Charge.taxParts (c : Charge) (aggregate : ℤ) : Except ValuationError (ℤ × ℤ × ℤ) :=
  match c.breakdown, c.vatAmount with
  | .unsupported, _ => .error .taxBreakdown
  | .parts vat accommodation, some v =>
    if v ≠ vat then .error .vatDisagrees
    else if aggregate ≠ vat + accommodation ∧ aggregate ≠ accommodation then .error .taxBreakdown
    else .ok (vat + accommodation, vat, accommodation)
  | .parts vat accommodation, none =>
    if aggregate ≠ vat + accommodation then .error .taxBreakdown
    else .ok (vat + accommodation, vat, accommodation)
  | .none, some v =>
    if aggregate ≠ 0 ∨ c.nightAudit then .error .aggregateTax else .ok (v + aggregate, v, aggregate)
  | .none, none => .ok (aggregate, aggregate, 0)

def Charge.taxComponents (c : Charge) : Except ValuationError (ℤ × ℤ) :=
  match c.taxAmount with
  | none => .error .unknownTax
  | some aggregate => do
    let (tax, vat, accommodation) ← c.taxParts aggregate
    if (0 ≤ c.gross ∧ ¬ (0 ≤ tax ∧ tax ≤ c.gross)) ∨ (c.gross < 0 ∧ ¬ (c.gross ≤ tax ∧ tax ≤ 0)) then
      .error .taxOutsideTotal
    else if (0 ≤ tax ∧ (vat < 0 ∨ accommodation < 0)) ∨ (tax < 0 ∧ (0 < vat ∨ 0 < accommodation)) then
      .error .taxDirection
    else .ok (tax, accommodation)

/-! ### The rows of the manifest -/

structure RowHead where
  id : ℕ
  currency : Currency
  folioId : Option ℕ
  bookingId : Option ℕ
  deriving DecidableEq

structure ChargeRow extends RowHead where
  gross : ℤ
  tax : ℤ
  accommodationTax : ℤ
  demoReconstruction : Option ℕ
  deriving DecidableEq

/-- `valuation_amount_minor` and `realised_fx_minor`. -/
structure FxPart where
  valuationAmount : ℤ
  realisedFx : ℤ
  deriving DecidableEq

structure ReceiptPart where
  reportingAmount : ℤ
  receivedCurrency : Option Currency
  receivedAmount : Option ℤ
  fx : Option FxPart
  deriving DecidableEq

structure PaymentRow extends RowHead where
  amount : ℤ
  method : Method
  receipt : Option ReceiptPart
  demoReconstruction : Option ℕ
  deriving DecidableEq

structure AdjustmentRow extends RowHead where
  amount : ℤ
  paymentType : PaymentType
  concessionId : Option ℕ
  chargeIds : List ℕ
  deriving DecidableEq

structure SecurityRow extends RowHead where
  amount : ℤ
  action : SecurityAction
  method : Method
  fundId : ℕ
  deriving DecidableEq

/-- A row of a manifest; the last is the proof of a demo reclassification. -/
inductive Row
  | charge (x : ChargeRow)
  | payment (x : PaymentRow)
  | adjustment (x : AdjustmentRow)
  | security (x : SecurityRow)
  | reclassified (proof : ℕ)
  deriving DecidableEq

/-- `kind` and `id`, the kinds in the order of their texts. -/
def Row.key : Row → ℕ × ℕ
  | .adjustment x => (0, x.id)
  | .charge x => (1, x.id)
  | .reclassified n => (2, n)
  | .payment x => (3, x.id)
  | .security x => (4, x.id)

def Row.before (x y : Row) : Bool :=
  x.key.1 < y.key.1 || (x.key.1 = y.key.1 && x.key.2 ≤ y.key.2)

namespace Charge

def row (v : Valuation) (a : Accounts) (c : Charge) : Except ValuationError ChargeRow :=
  if (v.rates.of c.currency).isNone then .error (.valuationRequired c.currency)
  else
    match c.id with
    | none => .error .stableIds
    | some id => do
      let (tax, accommodation) ← c.taxComponents
      if accommodation ≠ 0 ∧ a.accommodationTax.isNone then .error .accommodationAccount
      else
        .ok { id, currency := c.currency, folioId := c.folioId, bookingId := c.bookingId, gross := c.gross, tax
              accommodationTax := accommodation, demoReconstruction := c.demoReconstruction }

end Charge

namespace Payment

variable (v : Valuation) (a : Accounts) (p : Payment)

def adjustmentRow (id : ℕ) : Except ValuationError AdjustmentRow :=
  match p.paymentType, a.adjustment with
  | .other n, _ => .error (.adjustmentType n)
  | _, none => .error .adjustmentAccount
  | type, some code =>
    if code ∈ a.others then .error .adjustmentNotSeparate
    else if p.folioAmount = 0 then .error .adjustmentZero
    else
      .ok { id, currency := p.currency, folioId := p.folioId, bookingId := p.bookingId, amount := p.folioAmount
            paymentType := type, concessionId := p.concessionId, chargeIds := p.chargeIds.insertionSort (· ≤ ·) }

def receiptPart (x : Receipt) : Except ValuationError ReceiptPart :=
  if x.isLira = false ∨ x.rateDate ≠ some v.businessDate then .error .receiptNotBound
  else
    let base := v.rates.value p.currency p.collection
    let receipt := |x.amount| * if 0 < p.collection then 1 else -1
    if receipt = base then .ok ⟨receipt, p.receivedCurrency, p.receivedAmount, none⟩
    else
      match v.realisedFx with
      | none => .error .receiptDifference
      | some fx =>
        if p.currency = .lira then .error .receiptDifference
        else if fx.gain ∈ a.codes ∨ fx.loss ∈ a.codes then .error .fxAccountsNotSeparate
        else .ok ⟨receipt, p.receivedCurrency, p.receivedAmount, some ⟨base, receipt - base⟩⟩

def collectionRow (id : ℕ) : Except ValuationError PaymentRow :=
  if (a.payment p.method).isNone then .error (.unmappedMethod p.method)
  else do
    let receipt ← p.receipt.mapM (receiptPart v a p)
    .ok { id, currency := p.currency, folioId := p.folioId, bookingId := p.bookingId, amount := p.collection
          method := p.method, receipt, demoReconstruction := p.demoReconstruction }

def row : Except ValuationError (PaymentRow ⊕ AdjustmentRow) :=
  if (v.rates.of p.currency).isNone then .error (.valuationRequired p.currency)
  else
    match p.id with
    | none => .error .stableIds
    | some id =>
      if p.isAdjustment then (p.adjustmentRow a id).map .inr else (p.collectionRow v a id).map .inl

end Payment

/-! ### The lines -/

/-- `line` of `build_plan`. -/
def line (r : Rates) (account : ℕ) (native : ℤ) (code : Currency) (side : Side) (memo : LineMemo)
    (base : ℤ) : Except ValuationError (List Line) :=
  if native = 0 then .ok []
  else if base = 0 then .error .roundsToZero
  else
    let foreign := if code = .lira then none else some ⟨code, |native|, (r.of code).getD 0⟩
    match if 0 < base then side else side.other with
    | .debit => .ok [{ account, debit := |base|, memo, foreign }]
    | .credit => .ok [{ account, credit := |base|, memo, foreign }]

def sortedKeys {κ : Type*} [DecidableEq κ] (le : κ → κ → Bool) (keys : List κ) : List κ :=
  keys.dedup.insertionSort fun x y => le x y = true

def sortedCurrencies (codes : List Currency) : List Currency :=
  sortedKeys (fun x y => x.rank ≤ y.rank) codes

section

variable (v : Valuation) (a : Accounts)

def chargeLines (rows : List ChargeRow) (code : Currency) : Except ValuationError (List Line) := do
  let group := rows.filter (·.currency = code)
  let gross := (group.map ChargeRow.gross).sum
  let tax := (group.map ChargeRow.tax).sum
  let accommodation := (group.map ChargeRow.accommodationTax).sum
  let baseGross := v.rates.value code gross
  let baseTax := v.rates.value code tax
  let baseAccommodation := v.rates.value code accommodation
  let receivable ← line v.rates a.receivable gross code .debit .folioAccrual baseGross
  let revenue ← line v.rates a.revenue (gross - tax) code .credit .netRevenue (baseGross - baseTax)
  let vat ← line v.rates a.tax (tax - accommodation) code .credit .recordedTax (baseTax - baseAccommodation)
  let accommodationTax ← line v.rates (a.accommodationTax.getD 0) accommodation code .credit
    .accommodationTax baseAccommodation
  return receivable ++ revenue ++ vat ++ accommodationTax

/-- A collection in TRY, and its difference to the receipt. -/
def PaymentRow.base (x : PaymentRow) : ℤ := v.rates.value x.currency x.amount

def PaymentRow.fx (x : PaymentRow) : ℤ := ((x.receipt.bind ReceiptPart.fx).map FxPart.realisedFx).getD 0

/-- The lines of a difference between receipt and valuation. -/
def fxLines (account : ℕ) (fx : ℤ) : Except ValuationError (List Line) := do
  let side := if 0 < fx then FxAccounts.gain else FxAccounts.loss
  let difference ← line v.rates account fx .lira .debit .receiptDifference fx
  let realised ← line v.rates ((v.realisedFx.map side).getD 0) |fx| .lira
    (if 0 < fx then .credit else .debit) .realisedFx |fx|
  return difference ++ realised

def PaymentRow.key (x : PaymentRow) : Currency × ℕ := (x.currency, (a.payment x.method).getD 0)

def paymentLines (rows : List PaymentRow) (key : Currency × ℕ) : Except ValuationError (List Line) := do
  let group := rows.filter fun x => x.key a = key
  let paid := (group.map PaymentRow.amount).sum
  let base := (group.map (PaymentRow.base v)).sum
  if paid = 0 ∧ base ≠ 0 then throw .netZeroRounding
  let collection ← line v.rates key.2 paid key.1 .debit .collection base
  let closing ← line v.rates a.receivable paid key.1 .credit .collectionClosing base
  let fx ← fxLines v key.2 (group.map PaymentRow.fx).sum
  return collection ++ closing ++ fx

def adjustmentLines (rows : List AdjustmentRow) (code : Currency) : Except ValuationError (List Line) := do
  let value := ((rows.filter (·.currency = code)).map AdjustmentRow.amount).sum
  let base := v.rates.value code value
  let adjustment ← line v.rates (a.adjustment.getD 0) value code .debit .adjustment base
  let closing ← line v.rates a.receivable value code .credit .adjustmentClosing base
  return adjustment ++ closing

def securityMethods : List Method := [.cash, .card, .bankTransfer]

/-- The account that a security movement moves against the liability. -/
def securityTarget (action : SecurityAction) (method : Method) : ℕ :=
  if action = .apply then a.receivable else (a.payment method).getD 0

def securityLines (x : Movement) : Except ValuationError (List Line × SecurityRow) :=
  match v.rates.of x.currency, a.securityDeposit, x.action with
  | none, _, _ => .error (.valuationRequired x.currency)
  | some rate, liability, action =>
    if x.receiptRate.any (· ≠ rate) then .error .securityRate
    else
      match liability, action with
      | none, _ => .error .securityAccount
      | some _, none => .error .securityMovement
      | some liability, some action =>
        if x.amount ≤ 0 then .error .securityMovement
        else if x.method ∉ securityMethods then .error (.unmappedMethod x.method)
        else do
          let received := action = .received
          let target := securityTarget a action x.method
          let base := v.rates.value x.currency x.amount
          let held ← line v.rates liability x.amount x.currency (if received then .credit else .debit)
            .securityLiability base
          let moved ← line v.rates target x.amount x.currency (if received then .debit else .credit)
            (.security action) base
          return (held ++ moved,
            { id := x.id, currency := x.currency, folioId := x.folioId, bookingId := x.bookingId
              amount := x.amount, action, method := x.method, fundId := x.fundId })

end

/-! ### The plan -/

/-- The manifest of a plan. Its hash stands for the manifest itself. -/
structure Manifest where
  valuation : Valuation
  accounts : Accounts
  sources : List Row
  deriving DecidableEq

structure Totals where
  charges : ℤ
  payments : ℤ
  adjustments : ℤ
  paymentByAccount : List (ℕ × ℤ)
  securityByAccount : List (ℕ × ℤ)

structure Plan where
  lines : List Line
  manifest : Manifest
  totals : Totals
  accepted : lines ≠ [] → linesError lines = none

def sumsBy (items : List (ℕ × ℤ)) : List (ℕ × ℤ) :=
  (sortedKeys (fun x y => x ≤ y) (items.map Prod.fst)).map fun k =>
    (k, ((items.filter (·.1 = k)).map Prod.snd).sum)

def totalsOf (v : Valuation) (a : Accounts) (charges : List ChargeRow) (payments : List PaymentRow)
    (adjustments : List AdjustmentRow) (security : List SecurityRow) : Totals where
  charges := ((sortedCurrencies (charges.map (·.currency))).map fun code =>
    v.rates.value code ((charges.filter (·.currency = code)).map ChargeRow.gross).sum).sum
  payments := (payments.map fun p => p.base v + p.fx).sum
  adjustments := ((sortedCurrencies (adjustments.map (·.currency))).map fun code =>
    v.rates.value code ((adjustments.filter (·.currency = code)).map AdjustmentRow.amount).sum).sum
  paymentByAccount := sumsBy (payments.map fun p => ((p.key a).2, p.base v + p.fx))
  securityByAccount := sumsBy ((security.filter (·.action ≠ .apply)).map fun s =>
    (securityTarget a s.action s.method,
      v.rates.value s.currency s.amount * if s.action = .received then 1 else -1))

def buildPlan (x : Sources) (a : Accounts) (v : Valuation) : Except ValuationError Plan := do
  let charges ← x.charges.mapM (Charge.row v a)
  let payments ← x.payments.mapM (Payment.row v a)
  let collections := payments.filterMap Sum.getLeft?
  let adjustments := payments.filterMap Sum.getRight?
  let chargePart ← (sortedCurrencies (charges.map (·.currency))).mapM (chargeLines v a charges)
  let keys := sortedKeys (fun k l : Currency × ℕ => k.1.rank < l.1.rank || (k.1 = l.1 && k.2 ≤ l.2))
    (collections.map (PaymentRow.key a))
  let paymentPart ← keys.mapM (paymentLines v a collections)
  let adjustmentPart ← (sortedCurrencies (adjustments.map (·.currency))).mapM (adjustmentLines v a adjustments)
  let security ← x.security.mapM (securityLines v a)
  let rows := charges.map Row.charge ++ payments.map (Sum.elim Row.payment Row.adjustment) ++
    security.map fun s => Row.security s.2
  if ¬ (rows.map Row.key).Nodup then throw .duplicateIds
  let lines := (chargePart ++ paymentPart ++ adjustmentPart ++ security.map Prod.fst).flatten
  let manifest : Manifest :=
    { valuation := v
      accounts := if adjustments = [] then { a with adjustment := none } else a
      sources := rows.insertionSort fun r r' => r.before r' = true }
  let totals := totalsOf v a charges collections adjustments (security.map Prod.snd)
  if h : lines ≠ [] → linesError lines = none then return ⟨lines, manifest, totals, h⟩
  else throw (.posting ((linesError lines).getD .noLines))

end SyrocePms.OperationalGl
