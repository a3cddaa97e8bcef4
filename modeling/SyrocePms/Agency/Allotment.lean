import Mathlib.Algebra.Order.Ring.Int
import Mathlib.Data.List.Sort
import SyrocePms.Lib.Collection
import SyrocePms.Lib.Threads

/-! The allotments of an agency and the recounts that guard them at write time. Dates are
numbered by day; a stored stay keeps the operational hour behind its date. -/

namespace SyrocePms.Agency

open Lib

/-- A field of a document: missing, null, or a value. -/
inductive Field (α : Type*)
  | missing
  | null
  | value (a : α)
  deriving DecidableEq

def Field.is {α : Type*} [DecidableEq α] (f : Field α) (arg : Option α) : Bool :=
  match f, arg with
  | .missing, none | .null, none => true
  | .value a, some b => a = b
  | _, _ => false

def Field.notExists {α : Type*} : Field α → Bool
  | .missing => true
  | _ => false

def Field.get? {α : Type*} : Field α → Option α
  | .value a => some a
  | _ => none

/-- `LEGACY` is the name that callers use for rows without a plan. -/
inductive Plan
  | legacy
  | code (n : ℕ)
  deriving DecidableEq

/-- A stored date: the day, and what follows the ten characters of the day. -/
structure Stamp where
  day : ℕ
  time : String := ""

/-- The comparison `stamp < day` of strings: a stamp of the same day is no shorter. -/
def Stamp.ltDay (a : Stamp) (day : ℕ) : Bool := a.day < day

def Stamp.gtDay (a : Stamp) (day : ℕ) : Bool := day < a.day || (a.day = day && a.time ≠ "")

inductive Status
  | confirmed
  | guaranteed
  | checkedIn
  | pending
  | checkedOut
  | cancelled
  | noShow

def Status.isActive : Status → Bool
  | .confirmed | .guaranteed | .checkedIn | .pending => true
  | _ => false

/-- What a booking keeps from its insert on. -/
structure Terms where
  tenantId : ℕ
  agencyId : Option ℕ
  roomId : ℕ
  roomType : ℕ
  ratePlanCode : Field Plan
  checkIn : Stamp
  checkOut : Stamp

structure Booking extends Terms where
  id : ℕ
  status : Status
  cancellationReason : Option String := none
  completionAborted : Bool := false

structure CalendarRow where
  tenantId : ℕ
  agencyId : ℕ
  roomTypeCode : ℕ
  ratePlanCode : Field Plan
  date : ℕ
  availability : Option ℤ
  deriving DecidableEq

structure Allotment where
  tenantId : ℕ
  agencyId : ℕ
  roomTypeId : ℕ
  startDate : ℕ
  endDate : ℕ
  releaseDays : ℤ
  allotmentCount : ℤ

structure Room where
  id : ℕ
  tenantId : ℕ
  roomType : ℕ

/-- What the hotel has agreed and bookings do not change. -/
structure Hotel where
  calendar : List CalendarRow
  allotments : List Allotment
  rooms : List Room

abbrev Bookings := Collection Booking (·.id)

/-! ### The overlap filter -/

/-- `stay_overlap_filter`: the plain range conditions, then the calendar dates. -/
def stayOverlapFilter (checkIn checkOut : ℕ) (b : Terms) : Bool :=
  b.checkIn.ltDay (checkOut + 1) && b.checkOut.gtDay checkIn &&
    (decide (b.checkIn.day < checkOut) && decide (checkIn < b.checkOut.day))

variable {b : Terms}

theorem stayOverlapFilter_iff {checkIn checkOut : ℕ} : stayOverlapFilter checkIn checkOut b = true ↔
      b.checkIn.day < checkOut ∧ checkIn < b.checkOut.day := by
  simp only [stayOverlapFilter, Stamp.ltDay, Stamp.gtDay, Bool.and_eq_true, Bool.or_eq_true,
    decide_eq_true_eq]
  omega

theorem stayOverlapFilter_of_night {night : ℕ} {c : Terms}
    (hb : stayOverlapFilter night (night + 1) b = true)
    (hc : stayOverlapFilter night (night + 1) c = true) :
    stayOverlapFilter c.checkIn.day c.checkOut.day b = true := by
  rw [stayOverlapFilter_iff] at hb hc ⊢
  omega

/-! ### The recounts -/

def nights (checkIn checkOut : ℕ) : List ℕ := List.range' checkIn (checkOut - checkIn)

def planFilter (ratePlanCode : Option Plan) (r : CalendarRow) : Bool :=
  if ratePlanCode = none ∨ ratePlanCode = some .legacy then r.ratePlanCode.notExists
  else r.ratePlanCode.is ratePlanCode

/-- The bookings counted against a row by a caller with `ratePlanCode`. -/
def planCounted (ratePlanCode : Option Plan) (b : Terms) : Bool :=
  b.ratePlanCode.is ratePlanCode || b.ratePlanCode.notExists

/-- The rows that a booking rechecks, as `to_list` cuts them off, in the order of dates. -/
def calendarRows (hotel : Hotel) (b : Terms) : List CalendarRow :=
  let stay := nights b.checkIn.day b.checkOut.day
  let found := hotel.calendar.filter fun r =>
    r.tenantId = b.tenantId && some r.agencyId = b.agencyId && r.roomTypeCode = b.roomType &&
      stay.contains r.date && planFilter b.ratePlanCode.get? r
  let limit := if stay.length * 4 = 0 then 1 else stay.length * 4
  (found.take limit).insertionSort fun r r' => r.date ≤ r'.date

def rowCounted (b : Terms) (night : ℕ) (x : Booking) : Bool :=
  x.tenantId = b.tenantId && x.agencyId = b.agencyId && x.roomType = b.roomType &&
    planCounted b.ratePlanCode.get? x.toTerms && x.status.isActive &&
    stayOverlapFilter night (night + 1) x.toTerms

/-- The body of the loop of `marketplace_allotment_overrun`. -/
def rowOverrun (s : Bookings) (b : Terms) (r : CalendarRow) : Bool :=
  match r.availability with
  | none => false
  | some n => decide (n < (s.rows.countP (rowCounted b r.date) : ℤ))

def legacyCounted (b : Terms) (roomIds : List ℕ) (x : Booking) : Bool :=
  x.tenantId = b.tenantId && x.agencyId = b.agencyId && roomIds.contains x.roomId &&
    x.status.isActive && stayOverlapFilter b.checkIn.day b.checkOut.day x.toTerms

def legacyAllotmentOverrun (s : Bookings) (b : Terms) (roomIds : List ℕ)
    (allotmentCount : ℤ) : Bool :=
  allotmentCount < (s.rows.countP (legacyCounted b roomIds) : ℤ)

def getB2bAllotment (hotel : Hotel) (b : Terms) (daysUntil : ℤ) : Option ℤ :=
  match hotel.allotments.find? fun a =>
      some a.agencyId = b.agencyId && a.tenantId = b.tenantId && a.roomTypeId = b.roomType &&
        decide (a.startDate ≤ b.checkIn.day) && decide (b.checkOut.day - 1 ≤ a.endDate) with
  | none => none
  | some a => if a.releaseDays ≤ daysUntil then some a.allotmentCount else none

def oversold (b : Booking) : Booking :=
  { b with
    status := .cancelled
    cancellationReason := some "agency_allotment_exceeded"
    completionAborted := true }

def rollbackOversoldBooking (s : Bookings) (tenantId bookingId : ℕ) : Bookings :=
  s.updateMany (fun b => b.id = bookingId && b.tenantId = tenantId) oversold

/-! Concurrent sales of agencies: each inserts its booking as active, counts again, and rolls
its booking back when an allotment is exceeded. -/

/-- The portal recounts the allotment of the room type and then the calendar, the
marketplace recounts the calendar. -/
inductive Channel
  | portal
  | marketplace
  deriving DecidableEq

/-- A sale: the booking that it stores, and the rooms of the type that the portal has found
for the party. -/
structure Sale where
  booking : Booking
  channel : Channel
  roomIds : List ℕ := []

inductive Pc
  | insert
  | legacy
  | find
  | rows (rest : List CalendarRow)
  | rollback
  | returned (sold : Bool)

structure Thread where
  sale : Sale
  pc : Pc := .insert

/-- What a sale cannot foresee: whether its nights are locked by another booking, and how
many days remain until the stay. -/
structure Chance where
  conflict : Bool := false
  daysUntil : ℤ := 0

/-- A booking gets another status elsewhere, and none is revived. -/
structure StatusChange where
  id : ℕ
  status : Status

def StatusChange.apply (e : StatusChange) (b : Booking) : Booking :=
  if e.status.isActive && !b.status.isActive then b else { b with status := e.status }

theorem StatusChange.apply_id (e : StatusChange) (b : Booking) : (e.apply b).id = b.id := by
  unfold apply
  split <;> rfl

def environment (s : Bookings) (e : StatusChange) : Option Bookings :=
  some (s.updateMany (fun b => b.id = e.id) e.apply e.apply_id)

def advance (hotel : Hotel) (s : Bookings) (t : Thread) (o : Chance) : Option (Bookings × Pc) :=
  let b := t.sale.booking
  match t.pc with
  | .insert =>
    if o.conflict then some (s, .returned false)
    else
      match s.insertOne b with
      | none => some (s, .returned false)
      | some s' => some (s', if t.sale.channel = .portal then .legacy else .find)
  | .legacy =>
    match getB2bAllotment hotel b.toTerms o.daysUntil with
    | none => some (s, .find)
    | some cap =>
      some (s, if legacyAllotmentOverrun s b.toTerms t.sale.roomIds cap then .rollback else .find)
  | .find => some (s, .rows (calendarRows hotel b.toTerms))
  | .rows [] => some (s, .returned true)
  | .rows (r :: rest) => some (s, if rowOverrun s b.toTerms r then .rollback else .rows rest)
  | .rollback => some (rollbackOversoldBooking s b.tenantId b.id, .returned false)
  | .returned _ => none

/-! ### The caps -/

/-- A calendar row, or one night of an allotment. -/
inductive Cap
  | row (r : CalendarRow)
  | night (a : Allotment) (date : ℕ)

namespace Cap

def bound : Cap → Option ℤ
  | .row r => r.availability
  | .night a _ => some a.allotmentCount

def planFor (row : Field Plan) (b : Terms) : Bool :=
  b.ratePlanCode.notExists || b.ratePlanCode.is row.get? ||
    (row.notExists && b.ratePlanCode.is (some .legacy))

def counts (hotel : Hotel) (c : Cap) (b : Terms) : Bool :=
  match c with
  | .row r =>
    b.tenantId = r.tenantId && b.agencyId = some r.agencyId && b.roomType = r.roomTypeCode &&
      planFor r.ratePlanCode b && stayOverlapFilter r.date (r.date + 1) b
  | .night a date =>
    b.tenantId = a.tenantId && b.agencyId = some a.agencyId &&
      hotel.rooms.any (fun x => x.id = b.roomId && x.tenantId = a.tenantId && x.roomType = a.roomTypeId) &&
      stayOverlapFilter date (date + 1) b

def consumes (hotel : Hotel) (c : Cap) (b : Booking) : Bool :=
  b.status.isActive && c.counts hotel b.toTerms

end Cap

/-- The days of an allotment, both ends included. -/
def Allotment.dates (a : Allotment) : List ℕ := List.range' a.startDate (a.endDate + 1 - a.startDate)

def Hotel.sets (hotel : Hotel) : Cap → Prop
  | .row r => r ∈ hotel.calendar
  | .night a date => a ∈ hotel.allotments ∧ date ∈ a.dates

def sold (hotel : Hotel) (c : Cap) (s : Bookings) : ℕ := s.rows.countP (c.consumes hotel)

def sales (hotel : Hotel) : Program Bookings Thread StatusChange Sale Chance where
  init s := ∀ c n, hotel.sets c → c.bound = some n → (sold hotel c s : ℤ) ≤ n
  env := environment
  call _ q := some ⟨q, .insert⟩
  step _ s t o := (advance hotel s t o).map fun r => (r.1, { t with pc := r.2 })

def Thread.finished (t : Thread) : Bool :=
  match t.pc with
  | .returned _ => true
  | _ => false

end SyrocePms.Agency
