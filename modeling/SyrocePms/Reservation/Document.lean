import Mathlib.Algebra.Order.Ring.Unbundled.Rat
import SyrocePms.Reservation.Stay
import SyrocePms.Lib.Collection

/-! The booking document and the `bookings` collection of one tenant. Only the fields
that a modelled operation reads or writes are here; identifiers and texts that are only
ever compared are numbers. -/

namespace SyrocePms.Reservation

open Lib

/-- A provider version: the instant it parses to, under one of the spellings of that
instant, or a text that does not parse. -/
inductive VersionKey where
  | stamped (instant : ℤ) (spelling : ℕ)
  | malformed (text : ℕ)
  deriving DecidableEq

/-- `_compare_versions`: by instant, undefined when a text does not parse. -/
def compareVersions : VersionKey → VersionKey → Option Ordering
  | .stamped i _, .stamped j _ => some (compare i j)
  | _, _ => none

inductive BookingSource where
  | otaUnmatchedHold
  | exely
  | word (text : ℕ)
  deriving DecidableEq

inductive AllocationSource where
  | otaUnmatchedHold
  | archivedDemoCleanup
  | channel
  | word (text : ℕ)
  deriving DecidableEq

structure Booking where
  id : ℕ
  room : Option ℕ := none
  checkIn : Option Stamp := none
  checkOut : Option Stamp := none
  status : BookingStatus := .confirmed
  version : Option ℕ := none
  roomType : ℕ := 0
  guestName : ℕ := 0
  totalAmount : ℚ := 0
  paidAmount : ℚ := 0
  externalId : Option ℕ := none
  bookingSource : BookingSource := .word 0
  allocationSource : AllocationSource := .word 0
  sourceKindHold : Bool := false
  isInventoryHold : Bool := false
  presentationArchive : Bool := false
  lastSynced : Option ℕ := none
  providerVersionKey : Option VersionKey := none
  processingGeneration : Option ℕ := none
  inventoryReleasePending : Bool := false
  deriving DecidableEq

namespace Booking

theorem id_setStatus (status : BookingStatus) (b : Booking) : { b with status := status }.id = b.id :=
  rfl

def nights (b : Booking) : List ℤ := stayNights b.checkIn b.checkOut

/-- A non-terminal booking takes part in oversell checks. -/
def live (b : Booking) : Bool := !b.status.terminal

/-- The booking is assigned to `room` and its stay includes `night`. -/
def covers (b : Booking) (room : ℕ) (night : ℤ) : Prop :=
  b.room = some room ∧ night ∈ b.nights

instance (b : Booking) (room : ℕ) (night : ℤ) : Decidable (b.covers room night) :=
  inferInstanceAs (Decidable (_ ∧ _))

end Booking

abbrev Bookings := Collection Booking Booking.id

/-- Two distinct non-terminal bookings never share a room and a night. -/
def NoDoubleBooking (bookings : Bookings) : Prop :=
  ∀ b ∈ bookings, ∀ c ∈ bookings, b.live = true → c.live = true →
    ∀ room night, b.covers room night → c.covers room night → b = c

/-! ### The overlap query -/

def overlapCandidate (room : ℕ) (ci co : Stamp) (excluded : ℕ) (b : Booking) : Bool :=
  b.room == some room && b.live && b.id != excluded &&
    (b.checkIn.any fun s => s.textLt co) &&
    (b.checkOut.any fun s => Stamp.textLt ⟨ci.day, none⟩ s)

def overlapsByDate (ci co : Stamp) (b : Booking) : Bool :=
  match b.checkIn, b.checkOut with
  | some s, some t => s.day < co.day && ci.day < t.day
  | _, _ => true

def findOverlappingActiveBooking (bookings : Bookings) (room : ℕ) (ci co : Stamp)
    (excluded : ℕ) : Option Booking :=
  ((bookings.rows.filter (overlapCandidate room ci co excluded)).take 100).find?
    (overlapsByDate ci co)

end SyrocePms.Reservation
