import Mathlib.Algebra.BigOperators.Group.List.Basic
import Mathlib.Algebra.Order.Ring.Int
import SyrocePms.Lib.Collection
import SyrocePms.Reservation.Stay

/-! What the financial operations of a booking read beside their own collections: bookings,
folios, the business date and the cashier shift. Amounts are in minor units. -/

namespace SyrocePms.Billing

open Lib Reservation

inductive Currency where
  | TRY
  | USD
  | EUR
  | GBP
  | CHF
  | other (code : ℕ)
  deriving DecidableEq

def Currency.isCent : Currency → Bool
  | .other _ => false
  | _ => true

inductive CurrencyText where
  | missing
  | malformed
  | code (c : Currency)
  deriving DecidableEq

def CurrencyText.currency : CurrencyText → Option Currency
  | .code c => some c
  | .missing | .malformed => none

/-- Python's `or` on the text. -/
def CurrencyText.orElse (t fallback : CurrencyText) : CurrencyText :=
  if t = .missing then fallback else t

/-- A strict positive amount of a request. -/
def AmountMinor : Type := { n : ℤ // 0 < n ∧ n ≤ 100000000000 }

instance : DecidableEq AmountMinor :=
  inferInstanceAs (DecidableEq (Subtype fun n : ℤ => 0 < n ∧ n ≤ 100000000000))

theorem AmountMinor.pos (a : AmountMinor) : 0 < a.val := a.property.1

structure Booking where
  id : ℕ
  status : BookingStatus
  currency : CurrencyText
  guestId : Option ℕ := none

/-- A folio with what is posted on it beside the payments of the operations: charges less
other payments. `balance` is the stored projection. -/
structure Folio where
  id : ℕ
  bookingId : ℕ
  isOpen : Bool
  currency : CurrencyText
  invoiced : Bool := false
  postings : List (Currency × ℤ) := []
  balance : ℤ := 0

structure World where
  bookings : List Booking
  folios : List Folio
  businessDate : Option ℕ
  activeShift : Option ℕ

def sumIn (rows : List (Currency × ℤ)) (c : Currency) : ℤ :=
  ((rows.filter fun r => r.1 == c).map Prod.snd).sum

def Folio.balanceIn (f : Folio) (paid : List (Currency × ℤ)) (c : Currency) : ℤ :=
  sumIn f.postings c - sumIn paid c

def Folio.isMixed (f : Folio) (paid : List (Currency × ℤ)) (c : Currency) : Bool :=
  ((f.postings ++ paid).map Prod.fst).any fun c' => c' != c && f.balanceIn paid c' != 0

namespace World

def booking? (w : World) (id : ℕ) : Option Booking := w.bookings.find? fun b => b.id == id

def folio? (w : World) (bookingId id : ℕ) : Option Folio :=
  w.folios.find? fun f => f.bookingId == bookingId && f.id == id

/-- The update of an open folio's `balance`. -/
def setBalance (w : World) (id : ℕ) (balance : ℤ) : World :=
  { w with folios := w.folios.map fun f =>
    if f.id == id && f.isOpen then { f with balance := balance } else f }

end World

/-! ### Requests that are refused -/

/-- The refusal of a request in a case. -/
def refuse {ε : Type*} (c : Prop) [Decidable c] (e : ε) : Except ε Unit :=
  if c then .error e else .ok ()

theorem bind_eq_ok {ε α β : Type*} {x : Except ε α} {g : α → Except ε β} {b : β} :
    x.bind g = .ok b ↔ ∃ a, x = .ok a ∧ g a = .ok b := by
  cases x with
  | error e => simp [Except.bind]
  | ok a => simp [Except.bind]

theorem refuse_bind_eq_ok {ε β : Type*} {c : Prop} [Decidable c] {e : ε} {g : Unit → Except ε β}
    {b : β} : (refuse c e).bind g = .ok b ↔ ¬ c ∧ g () = .ok b := by
  unfold refuse
  split <;> simp [Except.bind, *]

end SyrocePms.Billing
