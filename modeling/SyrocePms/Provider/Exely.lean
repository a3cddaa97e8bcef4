import SyrocePms.Reservation.Document

/-! The Exely writes to a booking: the document built for a room stay, the fences of the
update, the update of a stored booking, and the cancellation. The claim of the worker is
held; its generation is what the fences read. -/

namespace SyrocePms.Provider

open Reservation Lib

/-- One room stay of a reservation version. `amount` is the amount of the room stay, used
before the reservation total, which only stands in for a single room. -/
structure ExelyStay where
  bookingId : ℕ
  versionKey : VersionKey
  externalId : ℕ
  roomType : ℕ
  guestName : ℕ := 0
  checkIn : Stamp
  checkOut : Stamp
  amount : Option ℚ := none
  reservationTotal : ℚ := 0
  roomCount : ℕ := 1

def roomTotal (stay : ExelyStay) : ℚ :=
  match stay.amount with
  | some a => a
  | none => if stay.roomCount = 1 then stay.reservationTotal else 0

def bookingFields (stay : ExelyStay) (generation : ℕ) : Booking where
  id := stay.bookingId
  room := none
  checkIn := some stay.checkIn
  checkOut := some stay.checkOut
  status := .confirmed
  roomType := stay.roomType
  guestName := stay.guestName
  totalAmount := roomTotal stay
  paidAmount := 0
  externalId := some stay.externalId
  bookingSource := .exely
  allocationSource := .channel
  providerVersionKey := some stay.versionKey
  processingGeneration := some generation

def isArchived (b : Booking) : Bool :=
  b.status == .archivedDemo || b.presentationArchive ||
    b.allocationSource == .archivedDemoCleanup

def versionMayFollow (incoming : VersionKey) (b : Booking) : Option Bool :=
  match b.providerVersionKey with
  | none => some true
  | some stored => (compareVersions incoming stored).map fun o => o != .lt

/-- `_booking_fence_query` under `_unarchived_fence`, on the document that was read: for
an unchanged version a newer generation fences the worker off. -/
def fenceAdmits (b : Booking) (incoming : VersionKey) (generation : ℕ) : Bool :=
  !isArchived b && (b.providerVersionKey != some incoming ||
    b.processingGeneration.all fun g => g ≤ generation)

/-- `assignment_changed`: an assigned stay with another room type or other dates. -/
def assignmentChanged (stored fields : Booking) : Bool :=
  stored.room.isSome && (stored.roomType != fields.roomType ||
    stored.checkIn != fields.checkIn || stored.checkOut != fields.checkOut)

def releaseNeeded (stored fields : Booking) : Bool :=
  assignmentChanged stored fields || stored.inventoryReleasePending

/-- The document after the update and, where inventory is released, after the release:
every field of `fields` is written, an unchanged assignment keeps its room. -/
def upsertedBooking (stored fields : Booking) : Booking :=
  { stored with
    room := if stored.room.isSome && !assignmentChanged stored fields then stored.room
      else fields.room
    checkIn := fields.checkIn
    checkOut := fields.checkOut
    status := fields.status
    roomType := fields.roomType
    guestName := fields.guestName
    totalAmount := fields.totalAmount
    paidAmount := fields.paidAmount
    externalId := fields.externalId
    bookingSource := fields.bookingSource
    allocationSource := fields.allocationSource
    sourceKindHold := fields.sourceKindHold
    providerVersionKey := fields.providerVersionKey
    processingGeneration := fields.processingGeneration
    inventoryReleasePending := false }

theorem upsertedBooking_id (fields stored : Booking) :
    (upsertedBooking stored fields).id = stored.id := rfl

/-- `_upsert_booking` meets a stored document and writes it: not archived, not fenced off,
and the incoming version is not older. -/
def upsertWrites (b : Booking) (stay : ExelyStay) (generation : ℕ) : Bool :=
  !isArchived b && versionMayFollow stay.versionKey b == some true &&
    fenceAdmits b stay.versionKey generation

def cancellationNeeded (b : Booking) (version : VersionKey) : Bool :=
  b.status != .cancelled || b.providerVersionKey != some version

/-- The document after `_cancel_booking`, its release included. -/
def cancelledBooking (version : VersionKey) (generation : ℕ) (b : Booking) : Booking :=
  { b with
    processingGeneration := some generation
    status := if cancellationNeeded b version then .cancelled else b.status
    providerVersionKey :=
      if cancellationNeeded b version then some version else b.providerVersionKey
    inventoryReleasePending := false }

theorem cancelledBooking_id (version : VersionKey) (generation : ℕ) (b : Booking) :
    (cancelledBooking version generation b).id = b.id := rfl

/-- `_cancel_booking` writes a stored document. An archived booking is left as it is and
gets a receipt of its own. -/
def cancelWrites (b : Booking) (version : VersionKey) (generation : ℕ) : Bool :=
  versionMayFollow version b == some true && !isArchived b && fenceAdmits b version generation

/-- `_cancel_booking` releases the locks of the booking. -/
def cancelReleases (b : Booking) (version : VersionKey) : Bool :=
  b.inventoryReleasePending || cancellationNeeded b version

/-- `_upsert_booking` on the bookings, undefined when it raises. Without a stored document
the booking is created, unassigned and therefore without locks. -/
def upsertBooking (bookings : Bookings) (stay : ExelyStay) (generation : ℕ) :
    Option Bookings :=
  match bookings.get? stay.bookingId with
  | none => bookings.insertOne (bookingFields stay generation)
  | some b =>
    if upsertWrites b stay generation then
      some (bookings.update b.id (fun b => upsertedBooking b (bookingFields stay generation))
        (upsertedBooking_id _))
    else none

/-- `_cancel_booking` on the bookings, undefined when it raises. -/
def cancelBooking (bookings : Bookings) (booking : ℕ) (version : VersionKey)
    (generation : ℕ) : Option Bookings :=
  match bookings.get? booking with
  | none => some bookings
  | some b =>
    match versionMayFollow version b with
    | some true =>
      if isArchived b then some bookings
      else if fenceAdmits b version generation then
        some (bookings.update b.id (cancelledBooking version generation)
          (cancelledBooking_id version generation))
      else none
    | _ => none

@[simp] theorem upsertedBooking_status (stored : Booking) (stay : ExelyStay) (g : ℕ) :
    (upsertedBooking stored (bookingFields stay g)).status = .confirmed := rfl

@[simp] theorem upsertedBooking_paidAmount (stored : Booking) (stay : ExelyStay) (g : ℕ) :
    (upsertedBooking stored (bookingFields stay g)).paidAmount = 0 := rfl

theorem upsertedBooking_room (stored : Booking) (stay : ExelyStay) (g : ℕ) :
    (upsertedBooking stored (bookingFields stay g)).room =
      if assignmentChanged stored (bookingFields stay g) then none else stored.room := by
  have hroom : (bookingFields stay g).room = none := rfl
  cases h : stored.room <;>
    cases h' : assignmentChanged stored (bookingFields stay g) <;>
    simp [upsertedBooking, h, h', hroom]

/-- The answer of a second cancellation under the same version changes nothing but the
generation. -/
theorem cancelledBooking_status (version : VersionKey) (g : ℕ) (b : Booking) :
    (cancelledBooking version g b).status = .cancelled := by
  unfold cancelledBooking cancellationNeeded
  by_cases h : b.status = .cancelled
  · split <;> simp [h]
  · simp [h]

end SyrocePms.Provider
