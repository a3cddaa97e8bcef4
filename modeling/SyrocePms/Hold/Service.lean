import SyrocePms.Lib.Collection
import SyrocePms.Lib.Threads
import SyrocePms.Reservation.Stay

/-! `create_booking_hold`, `confirm_hold` and `sweep_expired_holds` for the holds of one
tenant. The updates and deletions of several locks take one document after the other, in
any order, and other calls may come between two of them. -/

namespace SyrocePms.Hold

open Reservation Lib List

variable {pick : ℕ}

inductive LockKind where
  | hold
  | booking
  | word (text : ℕ)
  deriving DecidableEq

/-- A row of `room_night_locks`. The expiry stands on holds alone. -/
structure Lock where
  id : ℕ
  room : ℕ
  night : ℤ
  booking : ℕ
  kind : LockKind
  expiresAt : Option ℤ := none
  createdAt : ℤ

namespace Lock

def cell (l : Lock) : ℕ × ℤ := (l.room, l.night)

/-- The filter of `confirm_hold`. -/
def holdOf (booking : ℕ) (l : Lock) : Bool := l.booking == booking && l.kind == .hold

/-- The filter of the sweep: a hold whose time is over. -/
def expired (now : ℤ) (l : Lock) : Bool :=
  l.kind == .hold && l.expiresAt.any fun t => decide (t ≤ now)

def expiredOf (booking : ℕ) (now : ℤ) (l : Lock) : Bool := l.booking == booking && l.expired now

/-- The update of `confirm_hold`. -/
def upgraded (l : Lock) : Lock := { l with kind := .booking, expiresAt := none }

end Lock

/-- What the sweep reads and writes of a booking. -/
structure Booking where
  id : ℕ
  status : BookingStatus
  holdExpiredAt : Option ℤ := none

def Booking.awaiting (b : Booking) : Bool := b.status == .pending || b.status == .other "hold"

def Booking.expire (now : ℤ) (b : Booking) : Booking :=
  { b with status := .other "hold_expired", holdExpiredAt := some now }

/-- `held` has the locks of the holds that were returned as held, `confirmed` those that a
confirmation answered for, `swept` the locks that a sweep deleted, and `marked` the locks
for which a booking was marked as expired. Nothing branches on these four. -/
structure Store where
  locks : Collection Lock Lock.cell
  bookings : Collection Booking Booking.id
  now : ℤ
  defaultTtl : ℤ := 15
  nextId : ℕ
  held : List Lock := []
  confirmed : List Lock := []
  swept : List ℕ := []
  marked : List (List ℕ) := []

/-- The arguments of `create_booking_hold`. -/
structure HoldArgs where
  booking : ℕ
  room : ℕ
  checkIn : Stamp
  checkOut : Stamp
  ttlMinutes : Option ℤ := none

def HoldArgs.ttl (a : HoldArgs) (default : ℤ) : ℤ :=
  match a.ttlMinutes with
  | some n => if n = 0 then default else n
  | none => default

def HoldArgs.nights (a : HoldArgs) : List ℤ := nightDates a.checkIn.day a.checkOut.day

inductive Answer where
  | noNights
  | conflict (night : ℤ)
  | held (expiresAt : ℤ) (nights : List ℤ)
  | confirmed (count : ℕ)
  | swept (released : ℕ) (bookings : List ℕ)
  | failed

inductive Thread where
  | create (a : HoldArgs)
  | claiming (a : HoldArgs) (expiresAt : ℤ) (claimed : List Lock) (rest : List ℤ)
  | rollback (a : HoldArgs) (claimed : List Lock) (night : ℤ)
  | confirming (booking : ℕ) (count : ℕ)
  | sweep
  | sweepFind (now : ℤ)
  | sweeping (now : ℤ) (released : ℕ) (done : List ℕ) (todo : List (ℕ × List Lock))
  | marking (now : ℤ) (released : ℕ) (done : List ℕ) (booking : ℕ) (found : List Lock)
      (todo : List (ℕ × List Lock))
  | returned (a : Answer)

inductive Call where
  | create (a : HoldArgs)
  | confirm (booking : ℕ)
  | sweep

def Thread.start : Call → Thread
  | .create a => .create a
  | .confirm booking => .confirming booking 0
  | .sweep => .sweep

def Store.newLock (s : Store) (a : HoldArgs) (expiresAt : ℤ) (night : ℤ) : Lock where
  id := s.nextId
  room := a.room
  night := night
  booking := a.booking
  kind := .hold
  expiresAt := some expiresAt
  createdAt := s.now

/-- The filter of the rollback, which looks at neither the type nor the document. -/
def ofRollback (a : HoldArgs) (claimed : List Lock) (l : Lock) : Bool :=
  l.booking == a.booking && l.room == a.room && (claimed.map Lock.night).contains l.night

/-- `bookings_map`: the expired locks by booking. -/
def grouped (found : List Lock) : List (ℕ × List Lock) :=
  (found.map Lock.booking).eraseDups.map fun b => (b, found.filter fun l => l.booking == b)

namespace Store

/-- The document that an update or a deletion of several takes next: the one that is
picked, or the first that is left. -/
def next (s : Store) (p : Lock → Bool) (pick : ℕ) : Option Lock :=
  (s.locks.rows.find? fun l => p l && l.id == pick).or (s.locks.rows.find? p)

def delete (s : Store) (id : ℕ) : Store :=
  { s with locks := s.locks.deleteMany fun l => decide (l.id = id) }

theorem upgraded_cell (l : Lock) : l.upgraded.cell = l.cell := rfl

def upgrade (s : Store) (id : ℕ) : Store :=
  { s with locks := s.locks.updateMany (fun l => decide (l.id = id)) Lock.upgraded upgraded_cell }

theorem expire_id (now : ℤ) (b : Booking) : (b.expire now).id = b.id := rfl

def expireBooking (s : Store) (booking : ℕ) (now : ℤ) : Store :=
  { s with
    bookings := s.bookings.updateMany (fun b => decide (b.id = booking) && b.awaiting)
      (Booking.expire now) (expire_id now) }

def awaits (s : Store) (booking : ℕ) : Bool :=
  s.bookings.any fun b => decide (b.id = booking) && b.awaiting

def stands (s : Store) (h : Lock) : Bool :=
  s.locks.any fun l => l.booking == h.booking && decide (l.cell = h.cell)

/-- The creation returns: its nights are held, next to the nights of the booking that were
held before and still are. -/
def hold (s : Store) (a : HoldArgs) (claimed : List Lock) : Store :=
  { s with held := s.held.filter (fun h => h.booking != a.booking || s.stands h) ++ claimed }

def confirm (s : Store) (booking : ℕ) : Store :=
  { s with confirmed := s.held.filter (fun h => h.booking == booking) ++ s.confirmed }

end Store

/-- One insert of `create_booking_hold`. -/
def claimStep (s : Store) (a : HoldArgs) (expiresAt : ℤ) (claimed : List Lock) (night : ℤ)
    (rest : List ℤ) : Store × Thread :=
  let l := s.newLock a expiresAt night
  match s.locks.insertOne l with
  | some locks =>
    ({ s with locks := locks, nextId := s.nextId + 1 }, .claiming a expiresAt (claimed ++ [l]) rest)
  | none => (s, if claimed.isEmpty then .returned (.conflict night) else .rollback a claimed night)

/-- One operation of a call. `pick` is the document that comes next where there are
several. -/
def advance (s : Store) (pick : ℕ) : Thread → Option (Store × Thread)
  | .create a =>
    some (s, if a.nights.isEmpty then .returned .noNights
      else .claiming a (s.now + 60 * a.ttl s.defaultTtl) [] a.nights)
  | .claiming a expiresAt claimed [] =>
    some (s.hold a claimed, .returned (.held expiresAt (claimed.map Lock.night)))
  | .claiming a expiresAt claimed (night :: rest) =>
    some (claimStep s a expiresAt claimed night rest)
  | .rollback a claimed night =>
    match s.next (ofRollback a claimed) pick with
    | some l => some (s.delete l.id, .rollback a claimed night)
    | none => some (s, .returned (.conflict night))
  | .confirming booking count =>
    match s.next (Lock.holdOf booking) pick with
    | some l => some (s.upgrade l.id, .confirming booking (count + 1))
    | none => some (s.confirm booking, .returned (.confirmed count))
  | .sweep => some (s, .sweepFind s.now)
  | .sweepFind now =>
    some (s, .sweeping now 0 [] (grouped ((s.locks.rows.filter (Lock.expired now)).take 10000)))
  | .sweeping _ released done [] => some (s, .returned (.swept released done))
  | .sweeping now released done ((booking, found) :: todo) =>
    match s.next (Lock.expiredOf booking now) pick with
    | some l =>
      some ({ s.delete l.id with swept := l.id :: s.swept },
        .sweeping now (released + 1) done ((booking, found) :: todo))
    | none => some (s, .marking now released done booking found todo)
  | .marking now released done booking found todo =>
    some ({ s.expireBooking booking now with
        marked := if s.awaits booking then found.map Lock.id :: s.marked else s.marked },
      .sweeping now released (done ++ [booking]) todo)
  | .returned _ => none

/-- An operation goes through, its answer is lost, or the call ends before it. -/
inductive Move where
  | advance (pick : ℕ)
  | lost (pick : ℕ)
  | stop

def Thread.step (s : Store) (t : Thread) : Move → Option (Store × Thread)
  | .advance pick => Hold.advance s pick t
  | .lost pick => (Hold.advance s pick t).map fun r => (r.1, .returned .failed)
  | .stop => some (s, .returned .failed)

/-- Beside the calls the clock goes on, and the bookings change their status. -/
inductive Env where
  | clock (seconds : ℕ)
  | setStatus (booking : ℕ) (status : BookingStatus)

def Booking.withStatus (status : BookingStatus) (b : Booking) : Booking := { b with status := status }

theorem withStatus_id (status : BookingStatus) (b : Booking) : (b.withStatus status).id = b.id := rfl

def Store.env (s : Store) : Env → Store
  | .clock n => { s with now := s.now + n }
  | .setStatus booking status =>
    { s with
      bookings := s.bookings.updateMany (fun b => decide (b.id = booking))
        (Booking.withStatus status) (withStatus_id status) }

/-- The calls of one tenant, before which there may be locks of any kind. -/
def calls : Program Store Thread Env Call Move where
  init s := s.held = [] ∧ s.confirmed = [] ∧ s.swept = [] ∧ s.marked = [] ∧
    (s.locks.rows.map Lock.id).Nodup ∧ ∀ l ∈ s.locks, l.id < s.nextId
  env s e := some (s.env e)
  call _ c := some (.start c)
  step _ s t m := t.step s m

variable {s : Store} {p : Lock → Bool} {l : Lock}

/-- The document that an operation takes next is one of those that meet the filter. -/
theorem Store.mem_of_next (h : s.next p pick = some l) : l ∈ s.locks ∧ p l = true := by
  obtain h | ⟨-, h⟩ := Option.or_eq_some_iff.mp h
  · have hp := find?_some h
    simp only [Bool.and_eq_true] at hp
    exact ⟨mem_of_find?_eq_some h, hp.1⟩
  · exact ⟨mem_of_find?_eq_some h, find?_some h⟩

/-- Several documents are done when none is left. -/
theorem Store.not_of_next (h : s.next p pick = none) (hl : l ∈ s.locks) : ¬ p l = true := by
  have hnone := (Option.or_eq_none_iff.mp h).2
  exact find?_eq_none.mp hnone l hl

end SyrocePms.Hold
