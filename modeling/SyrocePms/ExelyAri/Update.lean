import Mathlib.Data.String.Basic
import Mathlib.Data.List.Sort
import SyrocePms.Lib.Decimal

/-! Rate and availability updates for Exely, as callers hand them over, and the checks that an
update passes before anything is stored or sent. Tenants, properties, rooms and rate plans are
numbers; a code that is missing or blank is `none`. -/

namespace SyrocePms.ExelyAri

open Lib

inductive Operation where
  | availability | availabilityBatch | rate | rateBatch | restrictionBatch
  | stopSell | minLos | minLosArrival | maxLos | cta | ctd
  | other (name : ℕ)
  deriving DecidableEq

inductive Field where
  | tenantId | propertyId | roomTypeCode | ratePlanCode | startDate | endDate
  deriving DecidableEq

inductive Refusal where
  | operationUnsupported
  | missing (f : Field)
  | batchInvalid | dateFormatInvalid | dateRangeInvalid
  | availabilityInvalid | placementsInvalid | occupancyInvalid | rateInvalid | currencyInvalid
  | restrictionInvalid
  | invalid (o : Operation)
  deriving DecidableEq

/-- The text of a date: a day in ISO form, as a day number, or another text. -/
inductive DateText where
  | blank
  | day (d : ℤ)
  | other
  deriving DecidableEq

/-- What a field holds, as the checks see it. `amount` is a number that is no integer, or a text
that reads as a finite number. -/
inductive Scalar where
  | null
  | bool (b : Bool)
  | int (n : ℤ)
  | amount (q : ℚ)
  | other (text : ℕ)
  deriving DecidableEq

/-- Three capital letters, or another text. -/
inductive Currency where
  | letters (code : ℕ)
  | other (text : ℕ)
  deriving DecidableEq

inductive PriceKind where
  | adultMain | childMain | adultExtra | childExtra | childWithoutBed
  deriving DecidableEq

/-- One price of a placement. `none` is a field that the dictionary does not have, and `extra`
says that it has fields of other names. -/
structure GuestPrice where
  kind : Option PriceKind
  amount : Scalar
  numberOfGuests : Option Scalar := none
  minAge : Option Scalar := none
  maxAge : Option Scalar := none
  extra : Bool := false
  deriving DecidableEq

structure Message where
  roomTypeCode : Option ℕ
  ratePlanCode : Option ℕ
  startDate : DateText
  endDate : DateText
  availability : Scalar := .null
  guestPrices : Option (Option (List (Option GuestPrice))) := none
  numberOfGuests : Scalar := .null
  rateAmount : Scalar := .null
  currency : Option Currency := none
  operation : Operation := .other 0
  value : Scalar := .null
  deriving DecidableEq

/-- A single value, or the list of a batch, where `none` is an element that is no dictionary. -/
inductive AriValue where
  | scalar (v : Scalar)
  | messages (ms : List (Option Message))
  deriving DecidableEq

/-- An update with the tenant of the call. `operationIdentity` is the durable identity that the
caller may give. -/
structure Update where
  tenantId : Option ℕ
  propertyId : Option ℕ
  roomTypeCode : Option ℕ := none
  ratePlanCode : Option ℕ := none
  startDate : DateText := .blank
  endDate : DateText := .blank
  value : AriValue := .scalar .null
  currency : Option Currency := none
  numberOfGuests : Scalar := .null
  operationIdentity : Option ℕ := none
  deriving DecidableEq

/-! ### Placement prices -/

def money : Scalar → Option ℤ
  | .int n => if 0 ≤ n ∧ n ≤ 10 ^ 12 then some (n * 100) else none
  | .amount q => if 0 ≤ q ∧ q ≤ 10 ^ 12 then some (Decimal.halfUp (q * 100)) else none
  | _ => none

/-- What makes two prices of one list duplicates. -/
inductive PriceKey where
  | adultMain (count : ℤ)
  | child (kind : PriceKind) (low high : ℤ)
  | adultExtra
  deriving DecidableEq

def PriceKey.clearOf (kind : PriceKind) (low high : ℤ) : PriceKey → Bool
  | .child kind' low' high' => !(kind' == kind && decide (low < high' ∧ low' < high))
  | _ => true

def guestPriceKey (seen : List PriceKey) (p : GuestPrice) : Option PriceKey := do
  let kind ← p.kind
  let cents ← money p.amount
  match kind with
  | .adultMain =>
    match p.numberOfGuests with
    | some (.int count) =>
      if 1 ≤ count ∧ count ≤ 20 ∧ 0 < cents ∧ p.minAge = none ∧ p.maxAge = none ∧ p.extra = false
        ∧ .adultMain count ∉ seen then some (.adultMain count) else none
    | _ => none
  | .adultExtra =>
    if p.numberOfGuests = none ∧ p.minAge = none ∧ p.maxAge = none ∧ p.extra = false
      ∧ .adultExtra ∉ seen then some .adultExtra else none
  | _ =>
    match p.minAge, p.maxAge with
    | some (.int low), some (.int high) =>
      if 0 ≤ low ∧ low < high ∧ high ≤ 18 ∧ seen.all (PriceKey.clearOf kind low high)
        ∧ p.numberOfGuests = none ∧ p.extra = false then some (.child kind low high) else none
    | _, _ => none

def guestPriceKeys : List PriceKey → List (Option GuestPrice) → Option (List PriceKey)
  | seen, [] => some seen
  | _, none :: _ => none
  | seen, some p :: ps => (guestPriceKey seen p).bind fun key => guestPriceKeys (key :: seen) ps

def PriceKey.isAdultMain : PriceKey → Bool
  | .adultMain _ => true
  | _ => false

def validateGuestPrices (prices : Option (List (Option GuestPrice))) : Bool :=
  match prices with
  | none => false
  | some ps =>
    decide (1 ≤ ps.length ∧ ps.length ≤ 101) &&
      ((guestPriceKeys [] ps).map fun keys => keys.any PriceKey.isAdultMain).getD false

/-! ### Checks -/

def DateText.isBlank : DateText → Bool
  | .blank => true
  | _ => false

/-- The codes and the dates, which a single update and a message of a batch must have. -/
def checkPlace (room plan : Option ℕ) (start stop : DateText) : Option Refusal :=
  if room.isNone then some (.missing .roomTypeCode)
  else if plan.isNone then some (.missing .ratePlanCode)
  else if start.isBlank then some (.missing .startDate)
  else if stop.isBlank then some (.missing .endDate)
  else match start, stop with
    | .day a, .day b => if b < a then some .dateRangeInvalid else none
    | _, _ => some .dateFormatInvalid

def isCount (bound : Option ℤ) : Scalar → Bool
  | .int n => decide (0 ≤ n) && bound.all fun b => decide (n ≤ b)
  | _ => false

def isOccupancy : Scalar → Bool
  | .null => true
  | .int n => decide (1 ≤ n ∧ n ≤ 20)
  | _ => false

def isRate : Scalar → Bool
  | .int n => decide (0 ≤ n)
  | .amount q => decide (0 ≤ q)
  | _ => false

def isCurrency : Option Currency → Bool
  | some (.letters _) => true
  | _ => false

def Scalar.isBool : Scalar → Bool
  | .bool _ => true
  | _ => false

def checkRate (guests rate : Scalar) (currency : Option Currency) : Option Refusal :=
  if !isOccupancy guests then some .occupancyInvalid
  else if !isRate rate then some .rateInvalid
  else if !isCurrency currency then some .currencyInvalid
  else none

/-- The value of a restriction: a switch or a number of nights. -/
def checkRestriction (o : Operation) (v : Scalar) : Option Refusal :=
  match o with
  | .stopSell | .cta | .ctd => if v.isBool then none else some (.invalid o)
  | _ => if isCount none v then none else some (.invalid o)

def Operation.isRestriction : Operation → Bool
  | .stopSell | .minLos | .minLosArrival | .maxLos | .cta | .ctd => true
  | _ => false

def Operation.isBatch : Operation → Bool
  | .availabilityBatch | .rateBatch | .restrictionBatch => true
  | _ => false

def Operation.isSupported : Operation → Bool
  | .other _ => false
  | _ => true

def checkMessage (o : Operation) : Option Message → Option Refusal
  | none => some .batchInvalid
  | some m =>
    (checkPlace m.roomTypeCode m.ratePlanCode m.startDate m.endDate).or <|
      match o with
      | .availabilityBatch =>
        if isCount (some 999) m.availability then none else some .availabilityInvalid
      | .rateBatch =>
        if (m.guestPrices.map validateGuestPrices).getD true then
          checkRate m.numberOfGuests m.rateAmount m.currency
        else some .placementsInvalid
      | _ =>
        if m.operation.isRestriction then checkRestriction m.operation m.value
        else some .restrictionInvalid

def checkMessages (o : Operation) (ms : List (Option Message)) : Option Refusal :=
  ms.findSome? (checkMessage o)

def checkBatch (o : Operation) : AriValue → Option Refusal
  | .messages ms =>
    if ms = [] ∨ 200 < ms.length then some .batchInvalid else checkMessages o ms
  | .scalar _ => some .batchInvalid

def AriValue.scalarOr : AriValue → Scalar
  | .scalar v => v
  | .messages _ => .other 0

def checkValue (o : Operation) (u : Update) : Option Refusal :=
  match o with
  | .availability => if isCount none u.value.scalarOr then none else some .availabilityInvalid
  | .rate => checkRate u.numberOfGuests u.value.scalarOr u.currency
  | _ => checkRestriction o u.value.scalarOr

def validateUpdate (o : Operation) (u : Update) : Option Refusal :=
  if !o.isSupported then some .operationUnsupported
  else if u.tenantId.isNone then some (.missing .tenantId)
  else if u.propertyId.isNone then some (.missing .propertyId)
  else if o.isBatch then checkBatch o u.value
  else (checkPlace u.roomTypeCode u.ratePlanCode u.startDate u.endDate).or (checkValue o u)

/-! ### Identities -/

structure Payload where
  tenantId : Option ℕ
  propertyId : Option ℕ
  operation : Operation
  roomTypeCode : Option ℕ
  ratePlanCode : Option ℕ
  startDate : DateText
  endDate : DateText
  value : AriValue
  currency : Option Currency
  numberOfGuests : Scalar
  deriving DecidableEq

def Update.payload (u : Update) (o : Operation) : Payload where
  tenantId := u.tenantId
  propertyId := u.propertyId
  operation := o
  roomTypeCode := u.roomTypeCode
  ratePlanCode := u.ratePlanCode
  startDate := u.startDate
  endDate := u.endDate
  value := u.value
  currency := u.currency
  numberOfGuests := u.numberOfGuests

/-- What is hashed: the tenant with a durable identity, or a payload. -/
inductive Seed where
  | durable (tenantId : Option ℕ) (identity : ℕ)
  | payload (x : Payload)

variable (sha256 : Seed → ℕ)

def payloadFingerprint (x : Payload) : ℕ := sha256 (.payload x)

def operationIdentity (o : Operation) (u : Update) : ℕ :=
  match u.operationIdentity with
  | some identity => sha256 (.durable u.tenantId identity)
  | none => payloadFingerprint sha256 (u.payload o)

end SyrocePms.ExelyAri
