import Mathlib.Algebra.BigOperators.Group.List.Defs
import Mathlib.Algebra.Ring.Rat
import SyrocePms.Reservation.Document

/-! The HotelRunner pull: the amount a guest pays, the guard against historical stays,
and the update of a stored booking from a provider payload. Amounts are exact numbers,
and payload texts that are only compared are numbers. -/

namespace SyrocePms.Provider

open Reservation Lib

variable {b c : Booking} {bookings : Bookings} {externalId : ℕ}

structure HrRoom where
  total : Option ℚ := none
  price : Option ℚ := none
  checkIn : Option ℤ := none
  checkOut : Option ℤ := none
  code : Option ℕ := none
  deriving DecidableEq

/-- The payload fields that the update reads. `guestName` is the composed name, zero
where it is empty. -/
structure HrPayload where
  exploded : Bool := false
  total : Option ℚ := none
  rooms : List HrRoom := []
  checkIn : Option ℤ := none
  checkOut : Option ℤ := none
  guestName : ℕ := 0

/-! ### Amounts -/

def hotelrunnerRoomGuestTotal (room : HrRoom) : Option ℚ := room.total.or room.price

def hotelrunnerGuestTotal (p : HrPayload) : Option ℚ :=
  match p.exploded, p.rooms with
  | true, room :: _ => hotelrunnerRoomGuestTotal room
  | _, _ =>
    match p.total, p.rooms with
    | some t, _ => some t
    | none, [] => none
    | none, rooms => (rooms.mapM hotelrunnerRoomGuestTotal).map List.sum

def matchesLegacyBeforeTaxTotal (current : ℚ) (p : HrPayload) : Bool :=
  match p.rooms with
  | [room] =>
    match room.price, hotelrunnerGuestTotal p with
    | some beforeTax, some guestTotal =>
      decide (|current - beforeTax| ≤ 1 / 100) && decide (1 / 100 < |guestTotal - beforeTax|)
    | _, _ => false
  | _ => false

/-! ### Historical stays -/

/-- `reservation_is_historical`: terminal stays, and stays that ended before the business
date unless the guest is in house. -/
def reservationIsHistorical (b : Booking) (businessDate : ℤ) : Bool :=
  if b.status.terminal then true
  else match b.status with
    | .checkedIn | .inHouse => false
    | _ => b.checkOut.any fun s => s.day < businessDate

/-! ### The update -/

/-- A provider state, as `hr_status_map` reads it. -/
inductive HrState where
  | confirmed
  | modified
  | canceled
  | cancelled
  | noShow
  | word (status : BookingStatus)
  deriving DecidableEq

/-- `hr_status_map.get(hr_state, hr_state)`: a state outside the map is stored as it is. -/
def mappedStatus : HrState → BookingStatus
  | .confirmed | .modified => .confirmed
  | .canceled | .cancelled => .cancelled
  | .noShow => .noShow
  | .word status => status

/-- One pulled reservation. `updatedAt` is missing where the provider sent no timestamp. -/
structure HrUpdate where
  externalId : ℕ
  payload : HrPayload
  state : HrState
  updatedAt : Option ℕ

/-- What the update reads besides the bookings: the active room mappings, from provider
room code to room type, and the business date. -/
structure HrEnv where
  roomMapping : ℕ → Option ℕ
  businessDate : ℤ

/-- The booking of an external reservation, where a temporary hold does not count. -/
def providerBooking (externalId : ℕ) (b : Booking) : Bool :=
  b.externalId == some externalId && b.bookingSource != .otaUnmatchedHold

def updateIsStale (b : Booking) (u : HrUpdate) : Bool :=
  match b.lastSynced, u.updatedAt with
  | some synced, some updated => updated ≤ synced
  | _, _ => false

/-- The operational fields of the booking are written: the update is news, and the stay
is not historical. -/
def appliesOperationally (env : HrEnv) (b : Booking) (u : HrUpdate) : Bool :=
  !updateIsStale b u && !reservationIsHistorical b env.businessDate

/-- The total may be repaired on a stale update, and is locked on a historical stay. -/
def appliesTotal (env : HrEnv) (b : Booking) (u : HrUpdate) : Bool :=
  if updateIsStale b u then matchesLegacyBeforeTaxTotal b.totalAmount u.payload
  else !reservationIsHistorical b env.businessDate

/-- `_calendar_date` of an incoming date, where it differs from the stored date. -/
def syncedStamp (incoming : Option ℤ) (stored : Option Stamp) : Option Stamp :=
  match incoming with
  | some d => if stored.map Stamp.day = some d then stored else some ⟨d, none⟩
  | none => stored

/-- `hr_payload.get("checkin_date") or room.get("checkin_date")`, and the same for the
departure. -/
def HrPayload.arrival (p : HrPayload) : Option ℤ :=
  p.checkIn.or (p.rooms.head?.bind HrRoom.checkIn)

def HrPayload.departure (p : HrPayload) : Option ℤ :=
  p.checkOut.or (p.rooms.head?.bind HrRoom.checkOut)

def syncedTotal (env : HrEnv) (u : HrUpdate) (b : Booking) : ℚ :=
  match hotelrunnerGuestTotal u.payload with
  | some total =>
    if appliesTotal env b u && decide (1 / 100 < |total - b.totalAmount|) then total
    else b.totalAmount
  | none => b.totalAmount

def syncedRoomType (env : HrEnv) (u : HrUpdate) (b : Booking) : ℕ :=
  match u.payload.rooms.head?.bind HrRoom.code with
  | some code => (env.roomMapping code).getD code
  | none => b.roomType

def syncedBooking (env : HrEnv) (u : HrUpdate) (b : Booking) : Booking :=
  let operational := appliesOperationally env b u
  { b with
    guestName :=
      if operational && u.payload.guestName != 0 then u.payload.guestName else b.guestName
    checkIn := if operational then syncedStamp u.payload.arrival b.checkIn else b.checkIn
    checkOut := if operational then syncedStamp u.payload.departure b.checkOut else b.checkOut
    roomType := if operational then syncedRoomType env u b else b.roomType
    status := if operational then mappedStatus u.state else b.status
    totalAmount := syncedTotal env u b }

/-- The document that the update leaves. Without any difference only the sync time is
written, and only where the provider sent one. -/
def syncedDocument (env : HrEnv) (u : HrUpdate) (b : Booking) : Booking :=
  { syncedBooking env u b with
    lastSynced :=
      if syncedBooking env u b = b then u.updatedAt.or b.lastSynced
      else if updateIsStale b u then b.lastSynced else u.updatedAt }

@[simp] theorem syncedDocument_id (env : HrEnv) (u : HrUpdate) (b : Booking) :
    (syncedDocument env u b).id = b.id := rfl

@[simp] theorem syncedDocument_status (env : HrEnv) (u : HrUpdate) (b : Booking) :
    (syncedDocument env u b).status =
      if appliesOperationally env b u then mappedStatus u.state else b.status := rfl

@[simp] theorem syncedDocument_paidAmount (env : HrEnv) (u : HrUpdate) (b : Booking) :
    (syncedDocument env u b).paidAmount = b.paidAmount := rfl

/-- `sync_reservation_update` on the stored bookings, with the answer of the function. A
stale update without a total to repair counts as already applied. -/
def syncReservationUpdate (env : HrEnv) (bookings : Bookings) (u : HrUpdate) :
    Bookings × Bool :=
  match bookings.findOne (providerBooking u.externalId) with
  | none => (bookings, false)
  | some b =>
    if updateIsStale b u && !matchesLegacyBeforeTaxTotal b.totalAmount u.payload then
      (bookings, true)
    else (bookings.update b.id (syncedDocument env u) (syncedDocument_id env u), true)

variable {env : HrEnv} {u : HrUpdate}

theorem not_appliesOperationally_of_stale (h : updateIsStale b u = true) :
    appliesOperationally env b u = false := by
  simp [appliesOperationally, h]

/-! The propagation of an ingested cancellation to the bookings: a temporary hold of the
reservation is released first, then the booking of the reservation is marked cancelled.
The second write does not look at the status it replaces. -/

/-- `_active_hold_query`: the current and the legacy marks of an unmatched hold. -/
def activeHold (externalId : ℕ) (b : Booking) : Bool :=
  b.externalId == some externalId &&
    (b.bookingSource == .otaUnmatchedHold || b.sourceKindHold || b.isInventoryHold ||
      b.allocationSource == .otaUnmatchedHold) &&
    b.status != .cancelled

/-- `release_unmatched_reservation_hold` with `delete_hold=False`: the hold is marked
cancelled. The answer is the booking whose locks are released. -/
def releaseUnmatchedReservationHold (bookings : Bookings) (externalId : ℕ) :
    Bookings × Option ℕ :=
  match bookings.findOne (activeHold externalId) with
  | none => (bookings, none)
  | some hold =>
    (bookings.update hold.id fun b =>
      { b with status := .cancelled, isInventoryHold := false }, some hold.id)

def propagateCancellationToBooking (bookings : Bookings) (externalId : ℕ) : Bookings :=
  let bookings := (releaseUnmatchedReservationHold bookings externalId).1
  match bookings.findOne (providerBooking externalId) with
  | none => bookings
  | some b => bookings.update b.id fun b => { b with status := .cancelled }

def isHold (bookings : Bookings) (externalId : ℕ) (x : Booking) : Bool :=
  (bookings.findOne (activeHold externalId)).any fun h => x.id = h.id

def isTarget (bookings : Bookings) (externalId : ℕ) (x : Booking) : Bool :=
  (bookings.findOne (providerBooking externalId)).any fun b => x.id = b.id

theorem mem_release : c ∈ (releaseUnmatchedReservationHold bookings externalId).1 ↔ ∃ x ∈ bookings,
      c = if isHold bookings externalId x then
        { x with status := .cancelled, isInventoryHold := false } else x := by
  unfold releaseUnmatchedReservationHold isHold
  split
  · rename_i hnone
    simp [hnone]
  · rename_i hold hsome
    rw [Collection.update, Collection.mem_updateMany]
    simp [hsome]

theorem findOne_release (bookings : Bookings) (externalId : ℕ) :
    (((releaseUnmatchedReservationHold bookings externalId).1.findOne
      (providerBooking externalId)).map Booking.id) =
        (bookings.findOne (providerBooking externalId)).map Booking.id := by
  unfold releaseUnmatchedReservationHold
  split
  · rfl
  · rename_i hold _
    rw [Collection.update, Collection.findOne_updateMany (fun r => by simp [providerBooking]),
      Option.map_map]
    congr 1
    funext r
    simp only [Function.comp]
    split <;> rfl

theorem mem_propagate : c ∈ propagateCancellationToBooking bookings externalId ↔ ∃ x ∈ bookings, c =
      let released := if isHold bookings externalId x then
        { x with status := .cancelled, isInventoryHold := false } else x
      if isTarget bookings externalId x then { released with status := .cancelled }
      else released := by
  have hfind := findOne_release bookings externalId
  have htarget : ∀ x y : Booking, y.id = x.id → isTarget bookings externalId x =
      ((releaseUnmatchedReservationHold bookings externalId).1.findOne
        (providerBooking externalId)).any fun b => y.id = b.id := by
    intro x y hid
    unfold isTarget
    have hany : ∀ o : Option Booking,
        (o.any fun b => x.id = b.id) = (o.map Booking.id).any fun i => x.id = i := by
      intro o
      cases o <;> rfl
    rw [hid, hany, hany, hfind]
  have hid : ∀ x : Booking, (if isHold bookings externalId x then
      { x with status := BookingStatus.cancelled, isInventoryHold := false } else x).id = x.id := by
    intro x
    split <;> rfl
  unfold propagateCancellationToBooking
  simp only
  split
  · rename_i hnone
    rw [mem_release]
    refine exists_congr fun x => and_congr_right fun _ => ?_
    rw [htarget x x rfl, hnone]
    simp
  · rename_i b hsome
    rw [Collection.update, Collection.mem_updateMany]
    constructor
    · rintro ⟨y, hy, rfl⟩
      obtain ⟨x, hx, rfl⟩ := mem_release.mp hy
      refine ⟨x, hx, ?_⟩
      rw [htarget x _ (hid x), hsome]
      simp
    · rintro ⟨x, hx, rfl⟩
      refine ⟨_, mem_release.mpr ⟨x, hx, rfl⟩, ?_⟩
      rw [htarget x _ (hid x), hsome]
      simp

end SyrocePms.Provider
