import Mathlib.Data.Rat.Floor

/-! The nightly price of a stay, as the night audit computes it: amounts are cents, taxes
are taken out of the price that the guest pays, and every amount is rounded half up. -/

namespace SyrocePms.NightAudit

/-- `quantize(..., rounding=ROUND_HALF_UP)` to an integer, away from zero. -/
def roundHalfUp (x : ℚ) : ℤ := if 0 ≤ x then ⌊x + 1 / 2⌋ else -⌊-x + 1 / 2⌋

/-- The fields of a booking that its price is computed from; amounts are money, and zero
stands for a missing one. `channelMarked` is what the legacy markers of
`is_channel_total_tax_inclusive` say. -/
structure PriceFields where
  totalAmount : ℚ := 0
  providerTotalAmount : ℚ := 0
  roomRate : ℚ := 0
  pricingTaxInclusive : Option Bool := none
  channelMarked : Bool := false
  migrationCutoverDate : Option ℤ := none
  deriving DecidableEq

def PriceFields.channelTotal (f : PriceFields) : Bool := f.pricingTaxInclusive.getD f.channelMarked

/-- `_nightly_gross`: the stay total by cent, with the remainder on the first nights. -/
def nightlyGross (f : PriceFields) (checkIn checkOut : Option ℤ) (businessDate : ℤ) : ℤ :=
  let total := if f.providerTotalAmount ≠ 0 then f.providerTotalAmount else f.totalAmount
  let totalCents := roundHalfUp (total * 100)
  let nights : ℕ :=
    match checkIn, checkOut with
    | some ci, some co => max (co - ci).toNat 1
    | _, _ => 1
  let index : ℕ :=
    match checkIn with
    | some ci => min (businessDate - ci).toNat (nights - 1)
    | none => 0
  let cents := totalCents / nights
  if (index : ℤ) < totalCents % nights then cents + 1 else cents

def manualNightlyGross (f : PriceFields) (checkIn checkOut : Option ℤ) (businessDate : ℤ) : ℤ :=
  if 0 < f.totalAmount then nightlyGross f checkIn checkOut businessDate
  else if 0 < f.roomRate then roundHalfUp (f.roomRate * 100)
  else nightlyGross f checkIn checkOut businessDate

/-- What `calculate_room_charge` answers, in cents. -/
structure RoomCharge where
  amount : ℤ
  vat : ℤ
  accommodationTax : ℤ
  total : ℤ
  deriving DecidableEq

def vatRate : ℚ := 1 / 10

def accommodationTaxRate : ℚ := 2 / 100

/-- The price that the guest pays for the night. The audit reads no nightly plan of the
provider, so the plan never decides here. -/
def grossOf (f : PriceFields) (checkIn checkOut : Option ℤ) (businessDate : ℤ)
    (explicitDailyRate : Option ℚ) : ℤ :=
  if f.migrationCutoverDate.any fun cutoff => businessDate < cutoff then 0
  else
    match explicitDailyRate with
    | some rate => roundHalfUp (rate * 100)
    | none =>
      if f.channelTotal then nightlyGross f checkIn checkOut businessDate
      else manualNightlyGross f checkIn checkOut businessDate

def calculateRoomCharge (f : PriceFields) (checkIn checkOut : Option ℤ) (businessDate : ℤ)
    (accommodationRate : ℚ) (explicitDailyRate : Option ℚ) : RoomCharge :=
  let gross := grossOf f checkIn checkOut businessDate explicitDailyRate
  let divisor := 1 + (vatRate + accommodationRate)
  let net := if 0 < divisor then roundHalfUp (gross / divisor) else gross
  let vat := roundHalfUp (net * vatRate)
  { amount := net
    vat := vat
    accommodationTax := gross - net - vat
    total := gross }

end SyrocePms.NightAudit
