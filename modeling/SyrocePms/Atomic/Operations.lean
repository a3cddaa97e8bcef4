import SyrocePms.Reservation.Document
import SyrocePms.Lib.Machine

/-! The room-night lock table of one tenant and the rule for stale locks. The unique
index on (room, night) is built into the type: a cell holds at most one lock. -/

namespace SyrocePms.Atomic

open Reservation

variable {r room : ℕ} {n night : ℤ}

/-- The owner written into a lock: a booking, or an inventory block whose identifier
carries one of the prefixes `OOO:`, `OOS:` and `MAINT:`. -/
inductive LockOwner where
  | booking (id : ℕ)
  | block (id : ℕ)
  deriving DecidableEq

inductive LockType where
  | booking
  | word (text : ℕ)
  deriving DecidableEq

/-- The `created_at` of a lock, in seconds. -/
inductive CreatedAt where
  | missing
  | stamped (time : ℕ)
  | unreadable (text : ℕ)
  deriving DecidableEq

structure Lock where
  owner : LockOwner
  lockType : Option LockType := some .booking
  createdAt : CreatedAt := .missing
  deriving DecidableEq

/-- `room_night_locks` under the unique index. -/
abbrev LockTable := ℕ → ℤ → Option Lock

variable {locks : LockTable} {l : Lock}

namespace LockTable

def put (locks : LockTable) (room : ℕ) (night : ℤ) (l : Lock) : LockTable :=
  fun r n => if r = room ∧ n = night then some l else locks r n

def deleteMany (locks : LockTable) (p : ℕ → ℤ → Lock → Bool) : LockTable :=
  fun r n => (locks r n).filter fun l => !p r n l

@[simp] theorem put_self (locks : LockTable) (room : ℕ) (night : ℤ) (l : Lock) :
    locks.put room night l room night = some l := by
  simp [put]

theorem put_of_ne (h : ¬ (r = room ∧ n = night)) : locks.put room night l r n = locks r n := by
  simp [put, h]

theorem put_eq_some {x : Lock} : locks.put room night l r n = some x ↔
      (r = room ∧ n = night ∧ x = l) ∨ (¬ (r = room ∧ n = night) ∧ locks r n = some x) := by
  unfold put
  split
  · rename_i h
    simp [h, eq_comm]
  · rename_i h
    constructor
    · exact fun hx => .inr ⟨h, hx⟩
    · rintro (⟨hr, hn, -⟩ | ⟨-, hx⟩)
      · exact absurd ⟨hr, hn⟩ h
      · exact hx

theorem deleteMany_eq_some {p : ℕ → ℤ → Lock → Bool} :
    locks.deleteMany p r n = some l ↔ locks r n = some l ∧ p r n l = false := by
  simp [deleteMany, Option.filter_eq_some_iff]

end LockTable

def Owned (locks : LockTable) (booking room : ℕ) (night : ℤ) : Prop :=
  ∃ l, locks room night = some l ∧ l.owner = .booking booking

/-- The deletion of all locks of a booking, as `release_booking_nights` does it. -/
def ofBooking (booking : ℕ) (_ : ℕ) (_ : ℤ) (l : Lock) : Bool := l.owner == .booking booking

def ofClaim (booking room : ℕ) (claimed : List ℤ) (r : ℕ) (n : ℤ) (l : Lock) : Bool :=
  l.owner == .booking booking && r == room && claimed.contains n

/-- The filter of step 3 of `assign_room_atomic`: every other room, and the nights of
the room that are not in the stay. -/
def obsolete (booking room : ℕ) (nights : List ℤ) (r : ℕ) (n : ℤ) (l : Lock) : Bool :=
  l.owner == .booking booking && (r != room || !nights.contains n)

/-! ### Stale locks -/

def staleLockMinAgeSeconds : ℕ := 60

def lockIsOldEnough (l : Lock) (now : ℕ) : Bool :=
  match l.createdAt with
  | .missing => true
  | .stamped t => t + staleLockMinAgeSeconds ≤ now
  | .unreadable _ => false

/-- The first tests of `_retire_stale_booking_lock`: only a lock of type `booking` that
another booking owns is considered. The answer is that owner. -/
def retirableOwner (existing : Lock) (requester : ℕ) : Option ℕ :=
  match existing.lockType.getD .booking, existing.owner with
  | .booking, .booking owner => if owner = requester then none else some owner
  | _, _ => none

inductive StaleReason where
  | bookingTerminal
  | bookingMissing
  | roomMismatch
  | nightOutsideStay
  deriving DecidableEq

/-- Why the lock on (`room`, `night`) is stale, given the document of its owner. A
terminal owner needs no grace period, every other reason does. -/
def staleReason (old : Bool) (room : ℕ) (night : ℤ) (owner : Option Booking) :
    Option StaleReason :=
  match owner with
  | none => if old then some .bookingMissing else none
  | some b =>
    if b.status.terminal then some .bookingTerminal
    else if !old then none
    else if b.room ≠ some room then some .roomMismatch
    else match b.checkIn, b.checkOut with
      | some ci, some co =>
        if (nightDates ci.day co.day).contains night then none else some .nightOutsideStay
      | _, _ => none

/-- The delete filter of the retirement: the owner, and the type and the timestamp where
the row that was read has them. -/
def exactFilter (existing l : Lock) : Bool :=
  l.owner == existing.owner &&
    (existing.lockType.isNone || l.lockType == existing.lockType) &&
    (existing.createdAt == .missing || l.createdAt == existing.createdAt)

theorem lockIsOldEnough_mono {now now' : ℕ} (h : now ≤ now') (ho : lockIsOldEnough l now = true) :
    lockIsOldEnough l now' = true := by
  unfold lockIsOldEnough at *
  split at ho <;> simp_all
  omega

variable {existing : Lock}

theorem retirableOwner_some {requester owner : ℕ}
    (h : retirableOwner existing requester = some owner) :
    existing.owner = .booking owner ∧ owner ≠ requester := by
  unfold retirableOwner at h
  split at h
  · rename_i o _ ho
    split at h
    · cases h
    · rename_i hne
      cases h
      exact ⟨ho, hne⟩
  · cases h

/-- A lock is retired because its owner is terminal, or because it is old. -/
theorem staleReason_some {old : Bool} {owner : Option Booking} {reason : StaleReason}
    (h : staleReason old room night owner = some reason) :
    (∃ b, owner = some b ∧ b.status.terminal = true) ∨ old = true := by
  unfold staleReason at h
  split at h
  · split at h
    · exact .inr (by assumption)
    · cases h
  · rename_i b
    by_cases hb : b.status.terminal = true
    · exact .inl ⟨b, rfl, hb⟩
    · cases old with
      | true => exact .inr rfl
      | false => simp [hb] at h

theorem exactFilter_owner (h : exactFilter existing l = true) : l.owner = existing.owner := by
  simp only [exactFilter, Bool.and_eq_true, beq_iff_eq] at h
  exact h.1.1

theorem exactFilter_createdAt (h : exactFilter existing l = true)
    (hc : existing.createdAt ≠ .missing) : l.createdAt = existing.createdAt := by
  simp only [exactFilter, Bool.and_eq_true, Bool.or_eq_true, beq_iff_eq] at h
  exact h.2.resolve_left hc

end SyrocePms.Atomic

/-! The atomic booking operations as interleaved tasks. One task is one call of
`create_booking_atomic`, of `assign_room_atomic` with the booking write of its caller,
or of a cancellation or no-show handler. A task advances by one database operation at a
time, together with the local code up to the next one, so every schedule of the awaits
of the source is a run. Any operation may raise, and a task may stop for good. A task
acts only while it is younger than the grace period of stale locks. -/

namespace SyrocePms.Atomic

open Reservation Lib

/-- The booking write of a caller of `assign_room_atomic`: the room or stay fields it
sets. `versioned` is the optimistic locking of `update_booking`; the front desk writes
the room unconditionally. -/
structure BookingWrite where
  room : Option ℕ := none
  checkIn : Option Stamp := none
  checkOut : Option Stamp := none
  versioned : Bool := false
  expected : Option ℕ := none

namespace BookingWrite

def admits (w : BookingWrite) (b : Booking) : Bool :=
  !w.versioned || w.expected.isNone || b.version == w.expected

def apply (w : BookingWrite) (b : Booking) : Booking :=
  { b with
    room := w.room.or b.room
    checkIn := w.checkIn.or b.checkIn
    checkOut := w.checkOut.or b.checkOut
    version := if w.versioned then some (w.expected.getD 0 + 1) else b.version }

@[simp] theorem apply_id (w : BookingWrite) (b : Booking) : (w.apply b).id = b.id := rfl

@[simp] theorem apply_status (w : BookingWrite) (b : Booking) :
    (w.apply b).status = b.status := rfl

@[simp] theorem apply_live (w : BookingWrite) (b : Booking) : (w.apply b).live = b.live := rfl

end BookingWrite

inductive Op where
  | create (doc : Booking)
  | assign (ci co : Stamp) (releaseObsolete : Bool) (write : Option BookingWrite)
  | close (status : BookingStatus)

def Op.isCreate : Op → Bool
  | .create _ => true
  | _ => false

/-- The next database operation of a task. `created` is the timestamp in the lock
document of the current night, `existing` the row that blocked it. -/
inductive Pc where
  | overlap
  | claim
  | lookup (created : ℕ)
  | owner (created : ℕ) (existing : Lock) (owner : ℕ) (old : Bool)
  | retire (created : ℕ) (existing : Lock) (reason : StaleReason)
  | reclaim (created : ℕ)
  | relookup
  | rollback
  | insertDoc
  | release
  | write
  | setStatus
  | releaseAll
  | done
  deriving DecidableEq

/-- A running call: `todo` are the nights of the loop still ahead, `passed` those it
holds, and `claimed` those among them whose lock it inserted itself. -/
structure Task where
  id : ℕ
  booking : ℕ
  startedAt : ℕ
  op : Op
  room : ℕ
  nights : List ℤ
  todo : List ℤ
  passed : List ℤ := []
  claimed : List ℤ := []
  pc : Pc

namespace Task

/-- Control at the head of the loop over the nights. -/
def loop (t : Task) : Task :=
  match t.todo with
  | _ :: _ => { t with pc := .claim }
  | [] =>
    match t.op with
    | .create _ => { t with pc := .insertDoc }
    | .assign _ _ releaseObsolete write =>
      if releaseObsolete then { t with pc := .release }
      else if write.isSome then { t with pc := .write } else { t with pc := .done }
    | .close _ => { t with pc := .done }

/-- The current night is held; `fresh` when this call inserted its lock. -/
def pass (t : Task) (fresh : Bool) : Task :=
  match t.todo with
  | n :: rest =>
    loop { t with
      todo := rest
      passed := n :: t.passed
      claimed := if fresh then n :: t.claimed else t.claimed }
  | [] => t.loop

def compensate (t : Task) : Task :=
  if t.claimed.isEmpty then { t with pc := .done } else { t with pc := .rollback }

/-- The night is taken by `existing`. An assignment accepts a lock of its own booking;
everything else is a conflict. -/
def refused (t : Task) (existing : Option Lock) : Task :=
  match t.op, existing with
  | .assign .., some l => if l.owner = .booking t.booking then t.pass false else t.compensate
  | _, _ => t.compensate

/-- Control when the current operation raises. Only the claim loop and the insert of a
creation sit in a `try` with a compensation. -/
def raised (t : Task) : Task :=
  match t.op, t.pc with
  | .create _, .overlap | .create _, .rollback => { t with pc := .done }
  | .create _, _ => t.compensate
  | _, _ => { t with pc := .done }

/-- The control of a call moves within the call. -/
structure Same (t t' : Task) : Prop where
  id : t'.id = t.id
  booking : t'.booking = t.booking
  op : t'.op = t.op

theorem same_pc (t : Task) (pc : Pc) : Same t { t with pc := pc } := ⟨rfl, rfl, rfl⟩

theorem same_loop (t : Task) : Same t t.loop := by
  unfold loop
  split
  · exact same_pc t _
  · split
    · exact same_pc t _
    · split
      · exact same_pc t _
      · split <;> exact same_pc t _
    · exact same_pc t _

theorem same_pass (t : Task) (fresh : Bool) : Same t (t.pass fresh) := by
  unfold pass
  split
  · exact ⟨(same_loop _).id, (same_loop _).booking, (same_loop _).op⟩
  · exact same_loop t

theorem same_compensate (t : Task) : Same t t.compensate := by
  unfold compensate
  split <;> exact same_pc t _

theorem same_refused (t : Task) (existing : Option Lock) : Same t (t.refused existing) := by
  unfold refused
  split
  · split
    · exact same_pass t false
    · exact same_compensate t
  · exact same_compensate t

theorem same_raised (t : Task) : Same t t.raised := by
  unfold raised
  split
  · exact same_pc t _
  · exact same_pc t _
  · exact same_compensate t
  · exact same_pc t _

end Task

structure State where
  bookings : Bookings
  locks : LockTable
  tasks : Collection Task Task.id
  now : ℕ
  nextBooking : ℕ
  nextTask : ℕ

namespace State

def putTask (s : State) (t : Task) : State := { s with tasks := s.tasks.upsert t }

def lockDoc (t : Task) (created : ℕ) : Lock :=
  ⟨.booking t.booking, some .booking, .stamped created⟩

/-- Inserts the lock of the current night, or goes on to `taken`. -/
def tryClaim (s : State) (t : Task) (night : ℤ) (created : ℕ) (taken : Pc) : State :=
  match s.locks t.room night with
  | none =>
    { s with locks := s.locks.put t.room night (lockDoc t created) }.putTask (t.pass true)
  | some _ => s.putTask { t with pc := taken }

/-- One operation of the inner protocol for the night at the head of the loop. -/
def claimStep (s : State) (t : Task) (night : ℤ) : State :=
  match t.pc with
  | .claim => s.tryClaim t night s.now (.lookup s.now)
  | .lookup created =>
    match s.locks t.room night with
    | none => s.putTask (t.refused none)
    | some l =>
      match retirableOwner l t.booking with
      | none => s.putTask (t.refused (some l))
      | some owner =>
        s.putTask { t with pc := .owner created l owner (lockIsOldEnough l s.now) }
  | .owner created l owner old =>
    match staleReason old t.room night (s.bookings.get? owner) with
    | none => s.putTask (t.refused (some l))
    | some reason => s.putTask { t with pc := .retire created l reason }
  | .retire created l _ =>
    if (s.locks t.room night).any (exactFilter l) then
      { s with
        locks := s.locks.deleteMany fun r n _ => r == t.room && n == night }.putTask
          { t with pc := .reclaim created }
    else s.putTask (t.refused (some l))
  | .reclaim created => s.tryClaim t night created .relookup
  | _ => s.putTask (t.refused (s.locks t.room night))

def insertDoc (s : State) (t : Task) : State :=
  match t.op with
  | .create doc =>
    match s.bookings.insertOne doc with
    | some bookings => { s with bookings := bookings }.putTask { t with pc := .done }
    | none => s.putTask t.raised
  | _ => s.putTask { t with pc := .done }

/-- The overlap query, which leaves out the booking itself. -/
def overlaps (s : State) (t : Task) (ci co : Stamp) : Bool :=
  (findOverlappingActiveBooking s.bookings t.room ci co t.booking).isSome

/-- The overlap check before the first claim. -/
def overlapStep (s : State) (t : Task) : State :=
  match t.op with
  | .create doc =>
    match doc.checkIn, doc.checkOut with
    | some ci, some co =>
      if s.overlaps t ci co then s.putTask { t with pc := .done } else s.putTask t.loop
    | _, _ => s.putTask t.loop
  | .assign ci co _ _ =>
    if s.overlaps t ci co then s.putTask { t with pc := .done } else s.putTask t.loop
  | .close _ => s.putTask { t with pc := .done }

/-- Control after the obsolete locks are gone. -/
def afterRelease (t : Task) : Task :=
  match t.op with
  | .assign _ _ _ (some _) => { t with pc := .write }
  | _ => { t with pc := .done }

def writeStep (s : State) (t : Task) : State :=
  match t.op with
  | .assign _ _ _ (some w) =>
    { s with
      bookings := s.bookings.updateMany (fun b => b.id = t.booking && w.admits b) w.apply
        }.putTask { t with pc := .done }
  | _ => s.putTask { t with pc := .done }

/-- The unconditional status write of a cancellation or no-show. -/
def statusStep (s : State) (t : Task) : State :=
  match t.op with
  | .close status =>
    { s with
      bookings := s.bookings.update t.booking fun b => { b with status := status } }.putTask
        { t with pc := .releaseAll }
  | _ => s.putTask { t with pc := .done }

theorem same_afterRelease (t : Task) : Task.Same t (afterRelease t) := by
  unfold afterRelease
  split <;> exact Task.same_pc t _

def advance (s : State) (t : Task) : State :=
  match t.pc with
  | .overlap => s.overlapStep t
  | .claim | .lookup _ | .owner .. | .retire .. | .reclaim _ | .relookup =>
    match t.todo with
    | night :: _ => s.claimStep t night
    | [] => s.putTask t.loop
  | .rollback =>
    { s with locks := s.locks.deleteMany (ofClaim t.booking t.room t.claimed) }.putTask
      { t with pc := .done }
  | .insertDoc => s.insertDoc t
  | .release =>
    { s with locks := s.locks.deleteMany (obsolete t.booking t.room t.nights) }.putTask
      (afterRelease t)
  | .write => s.writeStep t
  | .setStatus => s.statusStep t
  | .releaseAll =>
    { s with locks := s.locks.deleteMany (ofBooking t.booking) }.putTask { t with pc := .done }
  | .done => s

/-- A call that starts now, with its loop over `nights` ahead. -/
def newTask (s : State) (booking : ℕ) (op : Op) (room : ℕ) (nights : List ℤ) (pc : Pc) : Task where
  id := s.nextTask
  booking := booking
  startedAt := s.now
  op := op
  room := room
  nights := nights
  todo := nights
  pc := pc

/-- Starts a call under the next identifier. -/
def spawn (s : State) (booking : ℕ) (op : Op) (room : ℕ) (nights : List ℤ) (pc : Pc) : State :=
  { s with nextTask := s.nextTask + 1 }.putTask (s.newTask booking op room nights pc)

/-- The start of `create_booking_atomic` under a fresh booking identifier. Cancelled and
no-show bookings, and bookings without a room or a stay, take no locks. -/
def beginCreate (s : State) (doc : Booking) : State :=
  let doc := { doc with id := s.nextBooking }
  let s' := { s with nextBooking := s.nextBooking + 1 }
  if doc.status = .cancelled ∨ doc.status = .noShow then
    s'.spawn doc.id (.create doc) 0 [] .insertDoc
  else match doc.room, doc.checkIn, doc.checkOut with
    | some room, some ci, some co =>
      s'.spawn doc.id (.create doc) room (nightDates ci.day co.day) .overlap
    | _, _, _ => s'.spawn doc.id (.create doc) 0 [] .insertDoc

/-- A caller reads the booking and asks for the room and the stay that `target` leaves,
undefined without a booking, a room and a stay. With `writes` the booking write follows
the assignment, without it the call only moves locks. -/
def beginAssign (s : State) (booking : ℕ) (target : BookingWrite) (writes : Bool)
    (releaseObsolete : Bool) : Option State :=
  (s.bookings.get? booking).bind fun b =>
    let left := target.apply b
    match left.room, left.checkIn, left.checkOut with
    | some room, some ci, some co =>
      let write := if writes then some { target with expected := b.version } else none
      some (s.spawn booking (.assign ci co releaseObsolete write) room
        (nightDates ci.day co.day) .overlap)
    | _, _, _ => none

/-- The handler of a cancellation or no-show, behind its guard on the status it read. -/
def beginClose (s : State) (booking : ℕ) (status : BookingStatus) : Option State :=
  (s.bookings.get? booking).bind fun b =>
    if (status = .cancelled ∧ b.status.nonCancellable = false) ∨
        (status = .noShow ∧ b.status.noShowable = true) then
      some (s.spawn booking (.close status) 0 [] .setStatus)
    else none

end State

/-- The actions of a run: a second passes, a call begins, a task performs its next
operation, that operation raises, or the task is never heard of again. -/
inductive Action where
  | tick
  | create (doc : Booking)
  | assign (booking : ℕ) (target : BookingWrite) (writes releaseObsolete : Bool)
  | close (booking : ℕ) (status : BookingStatus)
  | advance (task : ℕ)
  | raise (task : ℕ)
  | crash (task : ℕ)

/-- A task acts while it runs and is younger than the grace period. -/
def Task.enabled (t : Task) (now : ℕ) : Bool :=
  t.pc != .done && now < t.startedAt + staleLockMinAgeSeconds

def State.step (s : State) : Action → Option State
  | .tick => some { s with now := s.now + 1 }
  | .create doc => some (s.beginCreate doc)
  | .assign booking target writes releaseObsolete =>
    s.beginAssign booking target writes releaseObsolete
  | .close booking status => s.beginClose booking status
  | .advance id =>
    (s.tasks.get? id).bind fun t => if t.enabled s.now then some (s.advance t) else none
  | .raise id =>
    (s.tasks.get? id).bind fun t => if t.enabled s.now then some (s.putTask t.raised) else none
  | .crash id => (s.tasks.get? id).map fun t => s.putTask { t with pc := .done }

def NoForeignLock (bookings : Bookings) (locks : LockTable) : Prop :=
  ∀ b ∈ bookings, b.live = true → ∀ room night, b.covers room night →
    ∀ l, locks room night = some l → l.owner = .booking b.id

def Stamped (locks : LockTable) : Prop :=
  ∀ room night l owner, locks room night = some l → l.owner = .booking owner →
    ∃ time, l.createdAt = .stamped time

/-- The atomic booking operations of one tenant. A run starts with no call in flight, in
a database without double bookings whose locks agree with its stays. -/
def atomicMachine : Machine State Action where
  init s := s.tasks = .empty ∧ (∀ b ∈ s.bookings, b.id < s.nextBooking) ∧
    NoDoubleBooking s.bookings ∧ NoForeignLock s.bookings s.locks ∧ Stamped s.locks
  step := State.step

end SyrocePms.Atomic
