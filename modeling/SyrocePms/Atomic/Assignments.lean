import SyrocePms.Atomic.Operations
import SyrocePms.Lib.Threads

/-! The assignments of one booking side by side: calls of `assign_room_atomic` and the
callers that write the room and the stay into the booking document afterwards. A caller goes
on one database operation at a time, and any operation may fail, with or without its
effect. -/

namespace SyrocePms.Atomic.Assign

open Reservation Lib

/-- The room and the stay that a call is asked for. -/
structure Target where
  room : ℕ
  checkIn : Stamp
  checkOut : Stamp
  deriving DecidableEq

def Target.nights (x : Target) : List ℤ := nightDates x.checkIn.day x.checkOut.day

/-! ### One call of `assign_room_atomic` -/

/-- How a call ends: it returns, it raises a `BookingConflictError`, or something else. -/
inductive Outcome where
  | success
  | conflict
  | raised
  deriving DecidableEq

/-- The next database operation of a call. `created` is the timestamp of the lock document of
the current night, `existing` the row that blocked it. -/
inductive CallPc where
  | overlap
  | claim
  | lookup (created : ℕ)
  | owner (created : ℕ) (existing : Lock) (owner : ℕ) (old : Bool)
  | retire (created : ℕ) (existing : Lock)
  | reclaim (created : ℕ)
  | relookup
  | rollback
  | release
  | ended (outcome : Outcome)
  deriving DecidableEq

/-- A call: `todo` are the nights still ahead, `passed` those that the booking holds, and
`claimed` those among them that the call inserted. -/
structure Call where
  target : Target
  releaseObsolete : Bool
  todo : List ℤ
  passed : List ℤ := []
  claimed : List ℤ := []
  pc : CallPc := .overlap
  deriving DecidableEq

def Call.start (target : Target) (releaseObsolete : Bool) : Call where
  target := target
  releaseObsolete := releaseObsolete
  todo := target.nights

namespace Call

variable (c : Call)

/-- Control at the head of the loop over the nights. -/
def loop : Call :=
  match c.todo with
  | _ :: _ => { c with pc := .claim }
  | [] => { c with pc := if c.releaseObsolete then .release else .ended .success }

/-- The current night is held; `fresh` when this call inserted its lock. -/
def pass (night : ℤ) (fresh : Bool) : Call :=
  loop { c with
    todo := c.todo.tail
    passed := night :: c.passed
    claimed := if fresh then night :: c.claimed else c.claimed }

/-- The compensation of a conflict: there is something to delete only after a claim. -/
def compensate : Call := { c with pc := if c.claimed.isEmpty then .ended .conflict else .rollback }

/-- The night is taken by `existing`: a lock of the booking itself is accepted. -/
def refused (booking : ℕ) (night : ℤ) (existing : Option Lock) : Call :=
  if existing.any (·.owner == .booking booking) then c.pass night false else c.compensate

end Call

/-- The last call that has succeeded: its caller and what it was asked for. At first it is
the allocation that the document shows, which no caller of the run has made. -/
structure Holder where
  caller : Option ℕ
  target : Target

/-- The booking, its `auto_assignment_claim_id` with `auto_assignment_claimed_at`, and the
other bookings. -/
structure Store where
  booking : Booking
  claim : Option (ℕ × ℕ) := none
  others : Bookings
  locks : LockTable
  now : ℕ
  nextClaim : ℕ
  last : Option Holder

namespace Store

variable (s : Store)

def tryClaim (c : Call) (night : ℤ) (created : ℕ) (taken : CallPc) : LockTable × Call :=
  match s.locks c.target.room night with
  | none =>
    (s.locks.put c.target.room night ⟨.booking s.booking.id, some .booking, .stamped created⟩,
      c.pass night true)
  | some _ => (s.locks, { c with pc := taken })

def claimNight (c : Call) (night : ℤ) : LockTable × Call :=
  match c.pc with
  | .claim => s.tryClaim c night s.now (.lookup s.now)
  | .lookup created =>
    match s.locks c.target.room night with
    | none => (s.locks, c.refused s.booking.id night none)
    | some l =>
      match retirableOwner l s.booking.id with
      | none => (s.locks, c.refused s.booking.id night (some l))
      | some owner => (s.locks, { c with pc := .owner created l owner (lockIsOldEnough l s.now) })
  | .owner created l owner old =>
    match staleReason old c.target.room night (s.others.get? owner) with
    | none => (s.locks, c.refused s.booking.id night (some l))
    | some _ => (s.locks, { c with pc := .retire created l })
  | .retire created l =>
    if (s.locks c.target.room night).any (exactFilter l) then
      (s.locks.deleteMany fun r n _ => r == c.target.room && n == night,
        { c with pc := .reclaim created })
    else (s.locks, c.refused s.booking.id night (some l))
  | .reclaim created => s.tryClaim c night created .relookup
  | _ => (s.locks, c.refused s.booking.id night (s.locks c.target.room night))

def advanceCall (c : Call) : LockTable × Call :=
  match c.pc with
  | .overlap =>
    (s.locks,
      if (findOverlappingActiveBooking s.others c.target.room c.target.checkIn c.target.checkOut
        s.booking.id).isSome then { c with pc := .ended .conflict } else c.loop)
  | .rollback =>
    (s.locks.deleteMany (ofClaim s.booking.id c.target.room c.claimed),
      { c with pc := .ended .conflict })
  | .release =>
    (s.locks.deleteMany (obsolete s.booking.id c.target.room c.target.nights),
      { c with pc := .ended .success })
  | .ended _ => (s.locks, c)
  | _ =>
    match c.todo with
    | night :: _ => s.claimNight c night
    | [] => (s.locks, c.loop)

end Store

/-! ### The callers -/

/-- `assign_room_to_booking` and the room move of the front desk; `update_booking`;
`assign_pending_booking_with_auto_assignment` with its candidates; the acceptance of an agency
proposal with the rooms it tries. -/
inductive Job where
  | assignRoom (room : ℕ)
  | update (write : BookingWrite)
  | autoAssign (rooms : List ℕ)
  | agency (rooms : List ℕ) (checkIn checkOut : Stamp)

/-- What a call is for: the assignment before the booking write, the way back of
`update_booking` after a write that did not go through, and the second call of an agency
proposal, which releases the obsolete locks. -/
inductive Stage where
  | first
  | restore
  | confirm
  deriving DecidableEq

inductive Pc where
  | start
  | claim
  | call (stage : Stage) (c : Call)
  | write (target : Option Target)
  | check (target : Target) (raised : Bool)
  | compensate (target : Target)
  | unclaim
  | returned
  deriving DecidableEq

/-- A caller: the document that it has read, its claim, and the rooms that it has still to
try. -/
structure Thread where
  job : Job
  seen : Option Booking := none
  claim : ℕ := 0
  rooms : List ℕ := []
  pc : Pc := .start

namespace Thread

variable (t : Thread)

/-- The stay that a caller asks for, from its arguments or from the document it has read. -/
def stay : Option (Stamp × Stamp) :=
  match t.job with
  | .agency _ checkIn checkOut => some (checkIn, checkOut)
  | .update w =>
    match (t.seen.bind fun b => w.checkIn.or b.checkIn), t.seen.bind fun b => w.checkOut.or b.checkOut with
    | some checkIn, some checkOut => some (checkIn, checkOut)
    | _, _ => none
  | _ =>
    match t.seen.bind Booking.checkIn, t.seen.bind Booking.checkOut with
    | some checkIn, some checkOut => some (checkIn, checkOut)
    | _, _ => none

/-- The first call for a room. Without both dates it raises. -/
def assign (room : ℕ) (releaseObsolete : Bool) : Thread :=
  match t.stay with
  | some (checkIn, checkOut) =>
    { t with pc := .call .first (.start ⟨room, checkIn, checkOut⟩ releaseObsolete) }
  | none => { t with pc := .returned }

def nextRoom : Thread :=
  match t.job, t.rooms with
  | .autoAssign _, room :: rooms => { t with rooms := rooms }.assign room true
  | .autoAssign _, [] => { t with pc := .unclaim }
  | .agency .., room :: rooms => { t with rooms := rooms }.assign room false
  | _, _ => { t with pc := .returned }

/-- A caller that has read the document. -/
def begin (b : Booking) : Thread :=
  let t := { t with seen := some b }
  match t.job with
  | .assignRoom room => t.assign room true
  | .update w =>
    let stayChanged := w.room.isSome || w.checkIn.isSome || w.checkOut.isSome
    match w.room.or b.room with
    | some room =>
      if stayChanged && !b.status.terminal then t.assign room true else { t with pc := .write none }
    | none => { t with pc := .write none }
  | .autoAssign rooms => { t with rooms := rooms, pc := if b.room.isSome then .returned else .claim }
  | .agency rooms .. =>
    if b.status = .confirmed then { t with rooms := rooms }.nextRoom else { t with pc := .returned }

/-- `restore_original_allocation`: only after an assignment, and back to a room. -/
def restore (target : Option Target) : Thread :=
  match target, t.seen.bind Booking.room, t.seen.bind Booking.checkIn, t.seen.bind Booking.checkOut with
  | some _, some room, some checkIn, some checkOut =>
    { t with pc := .call .restore (.start ⟨room, checkIn, checkOut⟩ true) }
  | _, _, _, _ => { t with pc := .returned }

def bookingWrite (target : Option Target) : BookingWrite :=
  match t.job with
  | .update w => { w with versioned := true, expected := t.seen.bind Booking.version }
  | .agency .. =>
    { room := target.map Target.room
      checkIn := target.map Target.checkIn
      checkOut := target.map Target.checkOut }
  | _ => { room := target.map Target.room }

/-- The whole filter of the booking write. -/
def admits (s : Store) (target : Option Target) : Bool :=
  match t.job with
  | .autoAssign _ => s.booking.room.isNone && s.claim.any (·.1 == t.claim)
  | .agency .. => s.booking.status == .confirmed ||
      (t.bookingWrite target).apply s.booking == s.booking
  | _ => (t.bookingWrite target).admits s.booking

/-- Where a caller goes on after its booking write. -/
def written (target : Option Target) : Thread :=
  match t.job, target with
  | .agency .., some x => { t with pc := .call .confirm (.start x true) }
  | _, _ => { t with pc := .returned }

/-- Where a caller goes on after a booking write that raised or met no document. -/
def unwritten (target : Option Target) (raised : Bool) : Thread :=
  match t.job, target with
  | .update _, _ => t.restore target
  | .autoAssign _, some x => { t with pc := .check x raised }
  | _, _ => { t with pc := .returned }

def afterCall (stage : Stage) (c : Call) : Thread :=
  match c.pc with
  | .ended .success =>
    match stage with
    | .first => { t with pc := .write (some c.target) }
    | _ => { t with pc := .returned }
  | .ended .conflict =>
    match stage with
    | .first => t.nextRoom
    | _ => { t with pc := .returned }
  | .ended .raised => { t with pc := .returned }
  | _ => { t with pc := .call stage c }

end Thread

namespace Store

/-- The auto-assignment owns the promotion of the booking when nobody else does, or when the
claim is older than five minutes. -/
def claimable (s : Store) : Bool :=
  s.booking.room.isNone && s.claim.all fun x => x.2 + 300 < s.now

/-- A call that ends with success is the last that has succeeded. -/
def record (s : Store) (k : ℕ) (c : Call) : Store :=
  { s with last := if c.pc = .ended .success then some ⟨some k, c.target⟩ else s.last }

/-- The booking write. Of the auto-assignment it ends the claim. -/
def writeBooking (s : Store) (t : Thread) (target : Option Target) : Store :=
  { s with
    booking := (t.bookingWrite target).apply s.booking
    claim :=
      match t.job with
      | .autoAssign _ => none
      | _ => s.claim }

/-- One database operation of caller `k`. -/
def advance (s : Store) (k : ℕ) (t : Thread) : Store × Thread :=
  match t.pc with
  | .start => (s, t.begin s.booking)
  | .claim =>
    if s.claimable then
      ({ s with claim := some (s.nextClaim, s.now), nextClaim := s.nextClaim + 1 },
        { t with claim := s.nextClaim }.nextRoom)
    else (s, { t with pc := .returned })
  | .call stage c =>
    let r := s.advanceCall c
    ({ s with locks := r.1 }.record k r.2, t.afterCall stage r.2)
  | .write target =>
    if t.admits s target then (s.writeBooking t target, t.written target)
    else (s, t.unwritten target false)
  | .check target raised =>
    (s, if s.booking.room = some target.room then { t with pc := if raised then .unclaim else .returned }
      else { t with pc := .compensate target })
  | .compensate target =>
    ({ s with locks := s.locks.deleteMany (ofClaim s.booking.id target.room target.nights) },
      { t with pc := .unclaim })
  | .unclaim =>
    ({ s with claim := if s.claim.any (·.1 == t.claim) then none else s.claim }, { t with pc := .returned })
  | .returned => (s, t)

end Store

/-- Control when the current operation raises. -/
def Thread.failed (t : Thread) : Thread :=
  match t.pc with
  | .call _ _ => { t with pc := .returned }
  | .write target => t.unwritten target true
  | _ => { t with pc := .returned }

/-- An operation goes through, it fails, or it goes through and its answer is lost. -/
inductive Move where
  | advance
  | fail
  | unanswered
  deriving DecidableEq

def Thread.step (k : ℕ) (s : Store) (t : Thread) (m : Move) : Option (Store × Thread) :=
  if t.pc = .returned then none
  else
    match m with
    | .advance => some (s.advance k t)
    | .fail => some (s, t.failed)
    -- the call has not succeeded for its caller, whatever it has deleted
    | .unanswered => some ({ (s.advance k t).1 with last := s.last }, t.failed)

/-- Time passes, the other bookings change, and the locks of other owners come and go. -/
inductive Env where
  | tick
  | others (bookings : Bookings) (locks : LockTable)

def Store.env (s : Store) : Env → Store
  | .tick => { s with now := s.now + 1 }
  | .others bookings locks =>
    { s with
      others := bookings
      locks := fun r n =>
        if (s.locks r n).any (·.owner == .booking s.booking.id) then s.locks r n
        else (locks r n).filter fun l => !(l.owner == .booking s.booking.id) }

def Store.holds (s : Store) (room : ℕ) (nights : List ℤ) : Prop :=
  ∀ night ∈ nights, Owned s.locks s.booking.id room night

/-- The lock set of the room in the document is complete. -/
def Store.Complete (s : Store) : Prop :=
  ∀ room night, s.booking.covers room night → Owned s.locks s.booking.id room night

/-- The room and the stay in the document are those of the last call that has succeeded. -/
def Store.shows (s : Store) : Bool :=
  s.booking.room.all fun room => s.booking.nights.all fun night =>
    s.last.any fun h => h.target.room == room && h.target.nights.contains night

/-- The assignments of one booking. A run starts with the allocation that the document shows,
under a complete lock set. -/
def assignments : Program Store Thread Env Job Move where
  init s := s.Complete ∧ s.shows = true ∧
    ∀ h ∈ s.last, h.caller = none ∧ s.holds h.target.room h.target.nights
  env s x := some (s.env x)
  call _ j := some { job := j }
  step k s t m := t.step k s m

end SyrocePms.Atomic.Assign
