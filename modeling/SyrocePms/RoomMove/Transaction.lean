import SyrocePms.Atomic.Operations
import SyrocePms.Lib.Decimal
import SyrocePms.Lib.Transaction

/-! The move of a reservation to another room, one transaction: the night locks of the stay, both
rooms, the booking, the fee and the history. -/

namespace SyrocePms.RoomMove

open Lib Atomic Reservation

/-- `status` of a room. -/
inductive RoomStatus
  | available
  | clean
  | inspected
  | occupied
  | dirty
  | outOfOrder
  | outOfService
  | maintenance
  | other (n : ℕ)
  deriving DecidableEq

def RoomStatus.isReady : RoomStatus → Bool
  | .available | .clean | .inspected => true
  | _ => false

def RoomStatus.isBlocked : RoomStatus → Bool
  | .outOfOrder | .outOfService | .maintenance => true
  | _ => false

inductive Housekeeping
  | dirty
  | cleaning
  | other (n : ℕ)
  deriving DecidableEq

structure Room where
  id : ℕ
  status : RoomStatus := .available
  housekeeping : Housekeeping := .other 0
  currentBooking : Option ℕ := none
  capacity : Option ℕ := none
  roomNumber : Option ℕ := none
  roomType : Option ℕ := none
  revision : ℕ := 0
  deriving DecidableEq

namespace Room

def claim (inhouse : Bool) (booking : ℕ) (x : Room) : Room :=
  { x with
    revision := x.revision + 1
    status := if inhouse then .occupied else x.status
    currentBooking := if inhouse then some booking else x.currentBooking }

/-- The update of the room that an in-house guest leaves. -/
def vacate (x : Room) : Room := { x with status := .dirty, housekeeping := .dirty, currentBooking := none }

theorem claim_id (inhouse : Bool) (booking : ℕ) (x : Room) : (x.claim inhouse booking).id = x.id := rfl

theorem vacate_id (x : Room) : x.vacate.id = x.id := rfl

end Room

structure Guest extends Booking where
  guestsCount : ℕ := 0
  adults : ℕ := 1
  children : ℕ := 0
  isFullComp : Bool := false
  currency : Option ℕ := none
  roomNumber : Option ℕ := none
  deriving DecidableEq

namespace Guest

def assign (x : Room) (g : Guest) : Guest :=
  { g with room := some x.id, roomNumber := x.roomNumber, roomType := x.roomType.getD g.roomType }

theorem assign_id (x : Room) (g : Guest) : (g.assign x).id = g.id := rfl

variable (g : Guest)

def isInHouse : Bool := g.status = .checkedIn

/-- `status` admits a move. -/
def isMovable : Bool :=
  g.status = .pending || g.status = .confirmed || g.status = .guaranteed || g.status = .checkedIn

def party : ℕ := if g.guestsCount ≠ 0 then g.guestsCount else g.adults + g.children

def isHistorical (businessDate : ℤ) : Bool :=
  g.status.terminal ||
    (!(g.status = .checkedIn || g.status = .inHouse) && g.checkOut.any fun co => co.day < businessDate)

/-- Both dates of the stay can be read. -/
def isReadable : Bool := g.checkIn.isSome && g.checkOut.isSome

end Guest

structure Folio where
  id : ℕ
  booking : ℕ
  isOpen : Bool := true
  currency : Option ℕ := none

/-- A row of `folio_charges` for a room upgrade. Amounts are in minor units. -/
structure Charge where
  booking : ℕ
  folio : ℕ
  currency : Option ℕ
  amount : ℤ
  originalAmount : Option ℚ
  businessDate : ℤ

/-- A row of `room_move_history`. -/
structure Move where
  booking : ℕ
  source : Option ℕ
  target : ℕ
  reason : ℕ

/-- `day` is the business date of the tenant, and `revision` its `room_move_revision`. -/
structure Store where
  day : ℤ
  revision : ℕ := 0
  rooms : Collection Room Room.id
  bookings : Collection Guest fun g => g.id
  locks : LockTable
  folios : List Folio := []
  charges : List Charge := []
  history : List Move := []

/-- The arguments of `move_reservation_room`. -/
structure Request where
  booking : ℕ
  newRoom : ℕ
  reason : ℕ
  extraCharge : ℚ
  businessDate : ℤ

/-- What the transaction cannot foresee: the time, the id of a new folio, and whether the audit
trail or the commit fails. -/
structure Chance where
  now : ℕ := 0
  newFolio : ℕ := 0
  fails : Bool := false

inductive MoveError
  | dayChanged
  | bookingNotFound
  | notMovable
  | sameRoom
  | roomNotFound
  | targetNotReady
  | overCapacity
  | sourceTaken
  | stayUnreadable
  | otherStayUnreadable
  | overlap
  | taken
  | failed

structure Plan where
  guest : Guest
  target : Room
  old : Option Room

namespace Store

variable (s : Store)

/-- The bookings that are assigned to the target, other than the one that is moved. -/
def others (r : Request) : List Guest :=
  s.bookings.rows.filter fun g => g.room = some r.newRoom && g.id ≠ r.booking && g.live

/-- The first stay in the target that cannot be read or shares a night. -/
def conflict (nights : List ℤ) (l : List Guest) : Option MoveError :=
  l.findSome? fun g =>
    if !g.isReadable then some .otherStayUnreadable
    else if nights.any fun n => g.nights.contains n then some .overlap
    else none

/-- The reads and checks of `move_reservation_room`. -/
def plan (r : Request) : Except MoveError Plan :=
  match s.bookings.get? r.booking with
  | none => .error .bookingNotFound
  | some g =>
    if g.isHistorical r.businessDate || !g.isMovable then .error .notMovable
    else if g.room = some r.newRoom then .error .sameRoom
    else
      match s.rooms.get? r.newRoom with
      | none => .error .roomNotFound
      | some x =>
        let old := g.room.bind s.rooms.get?
        if x.status.isBlocked || (g.isInHouse &&
            (!x.status.isReady || x.housekeeping = .dirty || x.housekeeping = .cleaning || x.currentBooking.isSome)) then
          .error .targetNotReady
        else if x.capacity.any fun c => c < g.party then .error .overCapacity
        else if g.isInHouse && old.any fun y => y.currentBooking.any fun b => b ≠ g.id then .error .sourceTaken
        else if !g.isReadable || g.nights = [] then .error .stayUnreadable
        else
          match conflict g.nights (s.others r) with
          | some e => .error e
          | none => .ok ⟨g, x, old⟩

/-! ### Writes -/

def lockNight (booking room now : ℕ) (night : ℤ) : Transaction LockTable MoveError Unit := fun locks =>
  match locks room night with
  | none => .ok (locks.put room night ⟨.booking booking, some .booking, .stamped now⟩, ())
  | some l => if l.owner = .booking booking then .ok (locks, ()) else .error .taken

def elsewhere (booking room : ℕ) (r : ℕ) (_ : ℤ) (l : Lock) : Bool := l.owner == .booking booking && r != room

def claimRoom (p : Plan) : Collection Room Room.id :=
  s.rooms.update p.target.id (Room.claim p.guest.isInHouse p.guest.id) (Room.claim_id _ _)

/-- An in-house guest leaves the old room dirty. -/
def setRooms (p : Plan) : Store :=
  { s with rooms := match p.old with
    | some y => if p.guest.isInHouse then (s.claimRoom p).update y.id Room.vacate Room.vacate_id else s.claimRoom p
    | none => s.claimRoom p }

def assign (p : Plan) : Store :=
  { s with bookings := s.bookings.update p.guest.id (Guest.assign p.target) (Guest.assign_id p.target) }

def ensureFolio (g : Guest) (newFolio : ℕ) : Folio × Store :=
  match s.folios.find? fun f => f.booking = g.id && f.isOpen with
  | some f => (f, s)
  | none =>
    let f : Folio := ⟨newFolio, g.id, true, none⟩
    (f, { s with folios := s.folios ++ [f] })

def amount (g : Guest) (extra : ℚ) : ℤ := if g.isFullComp then 0 else Decimal.roundEven (extra * 100)

def charge (r : Request) (p : Plan) (newFolio : ℕ) : Option ℕ × Store :=
  if 0 < r.extraCharge then
    let (f, s') := s.ensureFolio p.guest newFolio
    let c : Charge := ⟨p.guest.id, f.id, p.guest.currency.or f.currency, amount p.guest r.extraCharge,
      if p.guest.isFullComp then some r.extraCharge else none, r.businessDate⟩
    (some f.id, { s' with charges := s'.charges ++ [c] })
  else (none, s)

def finish (r : Request) (p : Plan) (o : Chance) (locks : LockTable) : Store × Option ℕ :=
  let s₁ := { s with locks := locks.deleteMany (elsewhere p.guest.id p.target.id) }
  let (folio, s₂) := ((s₁.assign p).setRooms p).charge r p o.newFolio
  ({ s₂ with history := s₂.history ++ [⟨p.guest.id, p.guest.room, p.target.id, r.reason⟩] }, folio)

end Store

def moveReservationRoom (r : Request) (o : Chance) : Transaction Store MoveError (Plan × Option ℕ) := fun s =>
  if s.day ≠ r.businessDate then .error .dayChanged
  else do
    let s := { s with revision := s.revision + 1 }
    let p ← s.plan r
    let (locks, _) ← Transaction.forEach (Store.lockNight p.guest.id p.target.id o.now) p.guest.nights s.locks
    let (s, folio) := s.finish r p o locks
    if o.fails then .error .failed else .ok (s, p, folio)

end SyrocePms.RoomMove

/-! Assignments over chains of moves. A move that goes through keeps rooms, bookings and night locks
in line, and one that is refused leaves the store as it was. -/

namespace SyrocePms.RoomMove

open Lib Atomic Reservation Store

variable {s s' : Store} {r : Request} {o : Chance} {p : Plan} {folio : Option ℕ} {g g' : Guest} {x y : Room}
  {locks locks' : LockTable} {nights : List ℤ} {booking room now : ℕ} {u : List Unit} {e : MoveError}

/-! ### The loop of the locks -/

theorem lockNight_ok {night : ℤ} (h : lockNight booking room now night locks = .ok (locks', ())) :
    Owned locks' booking room night ∧ (∀ i n l, locks i n = some l → locks' i n = some l) ∧
      ∀ i n l, locks' i n = some l → locks i n = some l ∨ (i = room ∧ n = night ∧ l.owner = .booking booking) := by
  unfold lockNight at h
  split at h
  · rename_i hfree
    cases h
    refine ⟨⟨_, LockTable.put_self .., rfl⟩, fun i n l hl => ?_, fun i n l hl => ?_⟩
    · rw [LockTable.put_of_ne, hl]
      rintro ⟨rfl, rfl⟩
      rw [hfree] at hl
      cases hl
    · obtain ⟨hi, hn, rfl⟩ | ⟨-, hl⟩ := LockTable.put_eq_some.mp hl
      · exact .inr ⟨hi, hn, rfl⟩
      · exact .inl hl
  · rename_i l hl
    split at h
    · rename_i howner
      cases h
      exact ⟨⟨l, hl, howner⟩, fun _ _ _ h => h, fun _ _ _ h => .inl h⟩
    · cases h

theorem lockNights_ok (h : Transaction.forEach (lockNight booking room now) nights locks = .ok (locks', u)) :
    (∀ n ∈ nights, Owned locks' booking room n) ∧ (∀ i n l, locks i n = some l → locks' i n = some l) ∧
      ∀ i n l, locks' i n = some l → locks i n = some l ∨ (i = room ∧ n ∈ nights ∧ l.owner = .booking booking) := by
  induction nights generalizing locks u with
  | nil =>
    cases h
    exact ⟨fun n hn => absurd hn List.not_mem_nil, fun _ _ _ h => h, fun _ _ _ h => .inl h⟩
  | cons night nights ih =>
    obtain ⟨locks₁, ⟨⟩, u₁, hnight, hrest, -⟩ := Transaction.forEach_cons h
    obtain ⟨hown, hkeep, hnew⟩ := lockNight_ok hnight
    obtain ⟨hown', hkeep', hnew'⟩ := ih hrest
    refine ⟨fun n hn => ?_, fun i n l hl => hkeep' i n l (hkeep i n l hl), fun i n l hl => ?_⟩
    · obtain rfl | hn := List.mem_cons.mp hn
      · obtain ⟨l, hl, howner⟩ := hown
        exact ⟨l, hkeep' _ _ l hl, howner⟩
      · exact hown' n hn
    · obtain hl | ⟨hi, hn, howner⟩ := hnew' i n l hl
      · obtain hl | ⟨hi, hn, howner⟩ := hnew i n l hl
        · exact .inl hl
        · exact .inr ⟨hi, hn ▸ List.mem_cons_self, howner⟩
      · exact .inr ⟨hi, List.mem_cons_of_mem _ hn, howner⟩

/-! ### What a move has found -/

/-- What the checks of a move say about its plan. -/
structure Found (s : Store) (r : Request) (p : Plan) : Prop where
  guest : p.guest ∈ s.bookings ∧ p.guest.id = r.booking
  target : p.target ∈ s.rooms ∧ p.target.id = r.newRoom
  old : p.old = p.guest.room.bind s.rooms.get?
  other : p.guest.room ≠ some p.target.id
  free : p.guest.isInHouse = true → p.target.currentBooking = none
  apart : ∀ g ∈ s.bookings, g.id ≠ p.guest.id → g.live = true → g.room = some p.target.id →
    ∀ n ∈ p.guest.nights, n ∉ g.nights

theorem conflict_eq_none {l : List Guest} (h : conflict nights l = none) :
    ∀ g ∈ l, ∀ n ∈ nights, n ∉ g.nights := by
  intro g hg n hn hmem
  have hnone := List.findSome?_eq_none_iff.mp h g hg
  have hany : (nights.any fun n => g.nights.contains n) = true :=
    List.any_eq_true.mpr ⟨n, hn, List.contains_iff_mem.mpr hmem⟩
  rw [hany] at hnone
  split at hnone <;> cases hnone

theorem plan_found (h : s.plan r = .ok p) : Found s r p := by
  unfold plan at h
  split at h
  · cases h
  rename_i g hg
  split at h
  · cases h
  split at h
  · cases h
  rename_i hroom
  split at h
  · cases h
  rename_i x hx
  obtain ⟨hg, hgid⟩ := Collection.get?_eq_some.mp hg
  obtain ⟨hx, hxid⟩ := Collection.get?_eq_some.mp hx
  simp only at h
  split at h
  · cases h
  rename_i hready
  split at h
  · cases h
  split at h
  · cases h
  split at h
  · cases h
  split at h
  · cases h
  rename_i hconflict
  cases h
  refine ⟨⟨hg, hgid⟩, ⟨hx, hxid⟩, rfl, by rw [hxid]; exact hroom, fun hin => ?_, fun g' hg' hne hlive hat n hn => ?_⟩
  · simp only [hin, Bool.true_and, Bool.or_eq_true, not_or, Bool.not_eq_true] at hready
    simpa using hready.2.2
  · refine conflict_eq_none hconflict g' (List.mem_filter.mpr ⟨hg', ?_⟩) n hn
    rw [hxid] at hat
    simp only at hne
    simp [hat, hlive, ← hgid, hne]

/-! ### What a move writes -/

/-- The store after a move: the folio, the fee and the history apart. -/
structure Moved (s s' : Store) (p : Plan) (locks : LockTable) : Prop where
  rooms : s'.rooms = (s.setRooms p).rooms
  bookings : s'.bookings = (s.assign p).bookings
  locks : s'.locks = locks.deleteMany (elsewhere p.guest.id p.target.id)

/-- The folio and the fee are apart from rooms, bookings and locks. -/
def SameBooks (s s' : Store) : Prop := s'.rooms = s.rooms ∧ s'.bookings = s.bookings ∧ s'.locks = s.locks

theorem ensureFolio_same (s : Store) (g : Guest) (n : ℕ) : SameBooks s (s.ensureFolio g n).2 := by
  unfold ensureFolio
  split <;> exact ⟨rfl, rfl, rfl⟩

theorem charge_same (s : Store) (r : Request) (p : Plan) (n : ℕ) : SameBooks s (s.charge r p n).2 := by
  unfold charge
  split
  · exact ensureFolio_same s p.guest n
  · exact ⟨rfl, rfl, rfl⟩

theorem finish_moved (s : Store) (r : Request) (p : Plan) (o : Chance) (locks : LockTable) :
    Moved s (s.finish r p o locks).1 p locks := by
  obtain ⟨hrooms, hbookings, hlocks⟩ := charge_same
    (({ s with locks := locks.deleteMany (elsewhere p.guest.id p.target.id) }.assign p).setRooms p) r p o.newFolio
  exact ⟨hrooms, hbookings, hlocks⟩

theorem moveReservationRoom_ok (h : moveReservationRoom r o s = .ok (s', p, folio)) :
    Found s r p ∧ ∃ locks u, Transaction.forEach (lockNight p.guest.id p.target.id o.now) p.guest.nights s.locks =
      .ok (locks, u) ∧ Moved s s' p locks := by
  unfold moveReservationRoom at h
  split at h
  · cases h
  obtain ⟨q, hplan, h⟩ := Transaction.bind_eq_ok h
  obtain ⟨⟨locks, u⟩, hlocks, h⟩ := Transaction.bind_eq_ok h
  simp only at h
  split at h
  · cases h
  cases h
  have hmoved := finish_moved { s with revision := s.revision + 1 } r p o locks
  exact ⟨plan_found (s := s) hplan, locks, u, hlocks, hmoved.rooms, hmoved.bookings, hmoved.locks⟩

end SyrocePms.RoomMove
