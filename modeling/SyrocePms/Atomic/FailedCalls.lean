import SyrocePms.Atomic.Agreement

/-! `create_booking_atomic` and `assign_room_atomic` when the database fails. Each operation
of a call goes through, raises before it has an effect, or takes effect and loses its answer.
A creation compensates in its `except` branch, an assignment only after a conflict. -/

namespace SyrocePms.Atomic.Failing

open Reservation Lib

inductive Answer where
  | ok
  | fail
  | lost
  deriving DecidableEq

/-- What becomes of each operation of a call. `prepare` is what comes before the first query,
such as the name of the guest and the encryption, and `rollback` the deletion of a conflict.
The operations on locks are given by their nights. -/
structure Faults where
  prepare : Answer := .ok
  overlap : Answer := .ok
  claim : ℤ → Answer := fun _ => .ok
  lookup : ℤ → Answer := fun _ => .ok
  owner : ℤ → Answer := fun _ => .ok
  retire : ℤ → Answer := fun _ => .ok
  reclaim : ℤ → Answer := fun _ => .ok
  relookup : ℤ → Answer := fun _ => .ok
  insertDoc : Answer := .ok
  rollback : Answer := .ok
  errorRollback : Answer := .ok
  release : Answer := .ok

/-- The bookings and locks that a call leaves, and whether it raises. -/
structure Result where
  bookings : Bookings
  locks : LockTable
  raised : Bool

/-! ### The locks of one night -/

inductive Inserted where
  | done
  | duplicate
  | raised

def insertLock (answer : Answer) (locks : LockTable) (room : ℕ) (night : ℤ) (l : Lock) :
    LockTable × Inserted :=
  match answer, locks room night with
  | .fail, _ => (locks, .raised)
  | .ok, none => (locks.put room night l, .done)
  | .ok, some _ => (locks, .duplicate)
  | .lost, none => (locks.put room night l, .raised)
  | .lost, some _ => (locks, .raised)

def deleteLocks (answer : Answer) (locks : LockTable) (p : ℕ → ℤ → Lock → Bool) :
    LockTable × Bool :=
  match answer with
  | .ok => (locks.deleteMany p, false)
  | .fail => (locks, true)
  | .lost => (locks.deleteMany p, true)

inductive Retired where
  | yes
  | no
  | raised

/-- The answer of `_claim_night_or_get_owner`. -/
inductive NightAnswer where
  | claimed
  | held (existing : Option Lock)
  | raised

section

variable (s : Store) (f : Faults) (booking room : ℕ)

def retireStaleBookingLock (locks : LockTable) (night : ℤ) (existing : Lock) :
    LockTable × Retired :=
  match retirableOwner existing booking with
  | none => (locks, .no)
  | some owner =>
    if f.owner night = .ok then
      match staleReason (lockIsOldEnough existing s.now) room night (s.bookings.get? owner) with
      | none => (locks, .no)
      | some _ =>
        if (locks room night).any (exactFilter existing) then
          match deleteLocks (f.retire night) locks fun r n _ => r == room && n == night with
          | (locks, true) => (locks, .raised)
          | (locks, false) => (locks, .yes)
        else (locks, if f.retire night = .ok then .no else .raised)
    else (locks, .raised)

def nightOwner (answer : Answer) (locks : LockTable) (night : ℤ) : NightAnswer :=
  if answer = .ok then .held (locks room night) else .raised

def claimNightOrGetOwner (locks : LockTable) (night : ℤ) : LockTable × NightAnswer :=
  match insertLock (f.claim night) locks room night (s.lockDoc booking) with
  | (locks, .done) => (locks, .claimed)
  | (locks, .raised) => (locks, .raised)
  | (locks, .duplicate) =>
    match nightOwner room (f.lookup night) locks night with
    | .held (some existing) =>
      match retireStaleBookingLock s f booking room locks night existing with
      | (locks, .no) => (locks, .held (some existing))
      | (locks, .raised) => (locks, .raised)
      | (locks, .yes) =>
        match insertLock (f.reclaim night) locks room night (s.lockDoc booking) with
        | (locks, .done) => (locks, .claimed)
        | (locks, .raised) => (locks, .raised)
        | (locks, .duplicate) => (locks, nightOwner room (f.relookup night) locks night)
    | answer => (locks, answer)

/-! ### The calls -/

inductive LoopEnd where
  | done
  | conflict
  | raised

/-- The loop over the nights, with the nights that it has claimed. With `adopt` a night that
the booking holds already is passed, as in `assign_room_atomic`. -/
def claimNights (adopt : Bool) : List ℤ → List ℤ → LockTable → LockTable × List ℤ × LoopEnd
  | [], claimed, locks => (locks, claimed, .done)
  | night :: rest, claimed, locks =>
    match claimNightOrGetOwner s f booking room locks night with
    | (locks, .claimed) => claimNights adopt rest (night :: claimed) locks
    | (locks, .raised) => (locks, claimed, .raised)
    | (locks, .held existing) =>
      if adopt && existing.any (·.owner == .booking booking) then claimNights adopt rest claimed locks
      else (locks, claimed, .conflict)

def compensate (answer : Answer) (claimed : List ℤ) (locks : LockTable) : LockTable × Bool :=
  if claimed.isEmpty then (locks, false)
  else deleteLocks answer locks (ofClaim booking room claimed)

def insertDoc (doc : Booking) : Bookings × Bool :=
  match f.insertDoc, s.bookings.insertOne doc with
  | .ok, some bookings => (bookings, false)
  | .lost, some bookings => (bookings, true)
  | _, _ => (s.bookings, true)

/-- The claim of the nights, the insert and the compensations of `create_booking_atomic`. A
deletion that raises after a conflict is in the same `try`, so it is made once more. -/
def claimAndInsert (doc : Booking) (nights : List ℤ) : Result :=
  match claimNights s f doc.id room false nights [] s.locks with
  | (locks, claimed, .done) =>
    let inserted := insertDoc s f doc
    if inserted.2 then
      ⟨inserted.1, (compensate doc.id room f.errorRollback claimed locks).1, true⟩
    else ⟨inserted.1, locks, false⟩
  | (locks, claimed, .conflict) =>
    match compensate doc.id room f.rollback claimed locks with
    | (locks, false) => ⟨s.bookings, locks, true⟩
    | (locks, true) => ⟨s.bookings, (compensate doc.id room f.errorRollback claimed locks).1, true⟩
  | (locks, claimed, .raised) =>
    ⟨s.bookings, (compensate doc.id room f.errorRollback claimed locks).1, true⟩

def insertOnly (doc : Booking) : Result :=
  ⟨(insertDoc s f doc).1, s.locks, (insertDoc s f doc).2⟩

def createBookingAtomic (doc : Booking) : Result :=
  if f.prepare ≠ .ok then ⟨s.bookings, s.locks, true⟩
  else if doc.status = .cancelled ∨ doc.status = .noShow then insertOnly s f doc
  else match doc.room, doc.checkIn, doc.checkOut with
    | some room, some ci, some co =>
      if f.overlap ≠ .ok ∨ s.overlaps room ci co doc.id = true then ⟨s.bookings, s.locks, true⟩
      else match nightDates ci.day co.day with
        | [] => insertOnly s f doc
        | night :: rest => claimAndInsert s f room doc (night :: rest)
    | _, _, _ => insertOnly s f doc

def claimAndRelease (releaseObsolete : Bool) (nights : List ℤ) : Result :=
  match claimNights s f booking room true nights [] s.locks with
  | (locks, _, .done) =>
    if releaseObsolete then
      let released := deleteLocks f.release locks (obsolete booking room nights)
      ⟨s.bookings, released.1, released.2⟩
    else ⟨s.bookings, locks, false⟩
  | (locks, claimed, .conflict) =>
    ⟨s.bookings, (compensate booking room f.rollback claimed locks).1, true⟩
  | (locks, _, .raised) => ⟨s.bookings, locks, true⟩

def assignRoomAtomic (ci co : Stamp) (releaseObsolete : Bool) : Result :=
  if f.overlap ≠ .ok ∨ s.overlaps room ci co booking = true then ⟨s.bookings, s.locks, true⟩
  else claimAndRelease s f booking room releaseObsolete (nightDates ci.day co.day)

end

theorem claimAndInsert_nil (s : Store) (f : Faults) (room : ℕ) (doc : Booking) :
    claimAndInsert s f room doc [] = insertOnly s f doc := by
  unfold claimAndInsert insertOnly
  simp only [claimNights, compensate, List.isEmpty_nil, if_true]
  cases hins : (insertDoc s f doc).2 <;> simp

end SyrocePms.Atomic.Failing
