import SyrocePms.Atomic.NoDoubleBooking

/-! The inventory that a booking leaves behind. Four operations make a booking terminal, and
each has its own clean-up of the locks and of the room: the handlers of a cancellation and
of a no-show release the locks and swallow what goes wrong, check-out does everything in one
transaction, and the no-show of the night audit frees a room and no lock. -/

namespace SyrocePms.Atomic

open Reservation Lib

variable {booking : ℕ}

inductive RoomStatus where
  | available
  | inspected
  | clean
  | occupied
  | dirty
  | outOfOrder
  | outOfService
  | maintenance
  | word (text : ℕ)
  deriving DecidableEq

namespace RoomStatus

def blocked : RoomStatus → Bool
  | .outOfOrder | .outOfService | .maintenance => true
  | _ => false

/-- `allowed_room_statuses`. -/
def allowed : RoomStatus → Bool
  | .available | .inspected | .clean => true
  | _ => false

end RoomStatus

/-- A row of `rooms`, with `current_booking_id` as the occupant. -/
structure Room where
  id : ℕ
  status : RoomStatus := .available
  occupant : Option ℕ := none
  deriving DecidableEq

/-- A pending no-show item of the night audit, with the room of the booking when the item
was built. -/
structure NoShowItem where
  booking : ℕ
  room : Option ℕ

/-- The bookings and locks with the calls in flight, the rooms, and what the night audit
has still to post. -/
structure Premises where
  atomic : State
  rooms : Collection Room Room.id
  items : List NoShowItem := []
  businessDate : ℤ

inductive Deed where
  | atomic (a : Action)
  | checkIn (booking : ℕ) (override : Bool)
  | checkOut (booking : ℕ)
  | buildItems
  | postNoShowItem (item : ℕ)
  | roll
  | housekeeping (room : ℕ) (status : RoomStatus)

/-- `CHECKIN_ELIGIBLE_STATUSES`. -/
def checkInEligible (st : BookingStatus) : Bool := [.confirmed, .guaranteed, .pending].contains st

/-- A no-show candidate of the night audit. The query compares texts. -/
def noShowDue (businessDate : ℤ) (b : Booking) : Bool :=
  (b.status == .confirmed || b.status == .guaranteed) &&
    b.checkIn.any fun s => !(Stamp.textLt ⟨businessDate, none⟩ s)

/-- An action of the calls, whatever the age of the call. -/
def State.act (s : State) : Action → Option State
  | .advance id =>
    (s.tasks.get? id).bind fun t => if t.pc = .done then none else some (s.advance t)
  | .raise id =>
    (s.tasks.get? id).bind fun t => if t.pc = .done then none else some (s.putTask t.raised)
  | a => s.step a

def State.setStatus (s : State) (booking : ℕ) (status : BookingStatus) : State :=
  { s with bookings :=
      s.bookings.update booking (fun b => { b with status := status }) (Booking.id_setStatus status) }

namespace Premises

def setRoom (p : Premises) (room : Option ℕ) (status : RoomStatus) (occupant : Option ℕ) :
    Collection Room Room.id :=
  match room with
  | some id => p.rooms.update id fun r => { r with status := status, occupant := occupant }
  | none => p.rooms

/-- `check_in_booking_atomic`. -/
def checkIn (p : Premises) (id : ℕ) (override : Bool) : Option Premises :=
  (p.atomic.bookings.get? id).bind fun b =>
    match b.room, b.checkIn with
    | some room, some ci =>
      (p.rooms.get? room).bind fun r =>
        if checkInEligible b.status ∧ ci.day ≤ p.businessDate ∧ r.status.blocked = false ∧
            (r.status.allowed = true ∨ override = true) ∧
            ¬ (r.status = .occupied ∧ r.occupant = some id) then
          some { p with
            atomic := p.atomic.setStatus id .checkedIn
            rooms := p.setRoom (some room) .occupied (some id) }
        else none
    | _, _ => none

/-- `check_out_booking_atomic`. The guards on the balance and on the room revenue refuse
some more of the check-outs, and then nothing changes. -/
def checkOut (p : Premises) (id : ℕ) : Option Premises :=
  (p.atomic.bookings.get? id).bind fun b =>
    match b.checkOut with
    | some co =>
      if b.status = .checkedIn ∧ co.day ≤ p.businessDate then
        some { p with
          atomic := { p.atomic.setStatus id .checkedOut with
            locks := p.atomic.locks.deleteMany (ofBooking id) }
          rooms := p.setRoom b.room .dirty none }
      else none
    | none => none

def postNoShowItem (p : Premises) (item : ℕ) : Option Premises :=
  (p.items[item]?).map fun x => { p with
    atomic := p.atomic.setStatus x.booking .noShow
    rooms := p.setRoom x.room .available none
    items := p.items.eraseIdx item }

def step (p : Premises) : Deed → Option Premises
  | .atomic a => (p.atomic.act a).map fun s => { p with atomic := s }
  | .checkIn booking override => p.checkIn booking override
  | .checkOut booking => p.checkOut booking
  | .buildItems => some { p with
      items := p.items ++ (p.atomic.bookings.rows.filter (noShowDue p.businessDate)).map fun b =>
        ⟨b.id, b.room⟩ }
  | .postNoShowItem item => p.postNoShowItem item
  | .roll => some { p with businessDate := p.businessDate + 1 }
  | .housekeeping room status => some { p with
      rooms := p.rooms.update room fun r => { r with status := status } }

end Premises

/-- The inventory of one tenant. A run starts with no call in flight and no guest in house. -/
def inventory : Machine Premises Deed where
  init p := atomicMachine.init p.atomic ∧ p.items = [] ∧ (∀ b ∈ p.atomic.bookings, b.status ≠ .checkedIn) ∧
    ∀ r ∈ p.rooms, r.occupant = none
  step := Premises.step

/-- The booking that an action makes terminal, as the last of its writes to the inventory:
the release by the handler of a cancellation or no-show, which goes on also when the release
raises, a check-out, and the transaction of a no-show item. -/
def Premises.ended (p : Premises) : Deed → Option ℕ
  | .atomic (.advance id) | .atomic (.raise id) =>
    (p.atomic.tasks.get? id).bind fun t => if t.pc = .releaseAll then some t.booking else none
  | .checkOut booking => some booking
  | .postNoShowItem item => (p.items[item]?).map NoShowItem.booking
  | _ => none

def Unlocked (locks : LockTable) (booking : ℕ) : Prop :=
  ∀ room night, ¬ Owned locks booking room night

/-- The booking holds no inventory after the action: it owns no lock, and a room whose
status or occupant changed was occupied by it. -/
def LeavesNoInventory (p p' : Premises) (booking : ℕ) : Prop :=
  Unlocked p'.atomic.locks booking ∧ ∀ room r r', p.rooms.get? room = some r →
    p'.rooms.get? room = some r' → r' = r ∨ r.occupant = some booking

/-- The room, when it is there, is occupied by the booking, or it is already in the state
that is written. -/
def FreesOwn (p : Premises) (room : Option ℕ) (status : RoomStatus) (booking : ℕ) : Prop :=
  ∀ id ∈ room, ∀ r ∈ p.rooms.get? id,
    r.occupant = some booking ∨ r.status = status ∧ r.occupant = none

instance (p : Premises) (room : Option ℕ) (status : RoomStatus) (booking : ℕ) :
    Decidable (FreesOwn p room status booking) := by
  unfold FreesOwn
  infer_instance

def CleansUp (p : Premises) : Deed → Prop
  | .atomic (.raise id) => ∀ t ∈ p.atomic.tasks.get? id, Unlocked p.atomic.locks t.booking
  | .checkOut booking => ∀ b ∈ p.atomic.bookings.get? booking, FreesOwn p b.room .dirty booking
  | .postNoShowItem item => ∀ x ∈ p.items[item]?,
    Unlocked p.atomic.locks x.booking ∧ FreesOwn p x.room .available x.booking
  | _ => True

/-! ### What each operation leaves -/

theorem unlocked_deleteMany (locks : LockTable) (booking : ℕ) :
    Unlocked (locks.deleteMany (ofBooking booking)) booking := by
  rintro room night ⟨l, hl, ho⟩
  obtain ⟨-, hno⟩ := LockTable.deleteMany_eq_some.mp hl
  simp [ofBooking, ho] at hno

variable {p p' : Premises}

theorem leaves_iff_unlocked (hr : p'.rooms = p.rooms) :
    LeavesNoInventory p p' booking ↔ Unlocked p'.atomic.locks booking := by
  refine ⟨And.left, fun h => ⟨h, fun room r r' hroom hroom' => .inl ?_⟩⟩
  rw [hr, hroom] at hroom'
  exact (Option.some.inj hroom').symm

theorem leaves_setRoom {room : Option ℕ} {status : RoomStatus}
    (hr : p'.rooms = p.setRoom room status none) : LeavesNoInventory p p' booking ↔
      Unlocked p'.atomic.locks booking ∧ FreesOwn p room status booking := by
  refine and_congr_right fun _ => ?_
  cases room with
  | none =>
    refine ⟨fun _ id hid => (nomatch hid), fun _ room r r' hroom hroom' => .inl ?_⟩
    rw [hr, Premises.setRoom, hroom] at hroom'
    exact (Option.some.inj hroom').symm
  | some id =>
    have hget (room : ℕ) : p'.rooms.get? room = (p.rooms.get? room).map fun r =>
        if room = id then { r with status := status, occupant := none } else r := by
      rw [hr, Premises.setRoom, Collection.get?_update]
    constructor
    · intro h i hi r hroom
      cases hi
      obtain heq | hown := h id r _ hroom (by rw [hget, hroom, Option.map_some, if_pos rfl])
      · have hst := congrArg Room.status heq
        have hocc := congrArg Room.occupant heq
        exact .inr ⟨hst.symm, hocc.symm⟩
      · exact .inl hown
    · intro h room r r' hroom hroom'
      rw [hget, hroom, Option.map_some, Option.some.injEq] at hroom'
      by_cases hid : room = id
      · rw [if_pos hid] at hroom'
        subst hid
        obtain hown | ⟨hst, hocc⟩ := h room rfl r hroom
        · exact .inr hown
        · left
          rw [← hroom', ← hst, ← hocc]
      · rw [if_neg hid] at hroom'
        exact .inl hroom'.symm

/-- An operation that makes a booking terminal leaves it no inventory exactly when its
clean-up is the right one. -/
theorem terminal_inventory {p p' : Premises} {d : Deed} {booking : ℕ}
    (h : inventory.step p d = some p') (he : p.ended d = some booking) :
    LeavesNoInventory p p' booking ↔ CleansUp p d := by
  cases d with
  | atomic a =>
    obtain ⟨s, hs, rfl⟩ := Option.map_eq_some_iff.mp h
    have hrooms : ({ p with atomic := s } : Premises).rooms = p.rooms := rfl
    rw [leaves_iff_unlocked hrooms]
    cases a with
    | advance id =>
      obtain ⟨t, ht, he⟩ := Option.bind_eq_some_iff.mp he
      split at he
      · rename_i hpc
        cases he
        simp only [State.act, ht, Option.bind_some, hpc, reduceCtorEq, if_false] at hs
        cases hs
        simp only [State.advance, hpc]
        exact iff_of_true (unlocked_deleteMany _ _) trivial
      · cases he
    | raise id =>
      obtain ⟨t, ht, he⟩ := Option.bind_eq_some_iff.mp he
      split at he
      · rename_i hpc
        cases he
        simp only [State.act, ht, Option.bind_some, hpc, reduceCtorEq, if_false] at hs
        cases hs
        simp [CleansUp, ht, State.putTask]
      · cases he
    | _ => cases he
  | checkOut id =>
    cases he
    obtain ⟨b, hb, h⟩ := Option.bind_eq_some_iff.mp h
    split at h
    · split at h
      · cases h
        rw [leaves_setRoom rfl]
        simp [CleansUp, hb, unlocked_deleteMany]
      · cases h
    · cases h
  | postNoShowItem item =>
    obtain ⟨x, hx, rfl⟩ := Option.map_eq_some_iff.mp h
    obtain ⟨y, hy, rfl⟩ := Option.map_eq_some_iff.mp he
    rw [hx] at hy
    cases hy
    rw [leaves_setRoom rfl]
    simp [CleansUp, hx, State.setStatus]
  | _ => cases he

/-! ### Runs -/

def emptyPremises : Premises where
  atomic := emptyState
  rooms := ⟨[⟨5, .available, none⟩], List.nodup_singleton _⟩
  businessDate := 9

theorem init_emptyPremises : inventory.init emptyPremises := by
  refine ⟨init_emptyState, rfl, fun b hb => absurd hb Collection.not_mem_empty, fun r hr => ?_⟩
  cases List.mem_singleton.mp hr
  rfl

def nightIn (day : ℤ) : Booking where
  id := 0
  room := some 5
  checkIn := some ⟨day, none⟩
  checkOut := some ⟨day + 1, none⟩

/-- Booking 0 is created for day 9 and checks in. -/
def arrivalRun : List Deed :=
  [.atomic (.create (nightIn 9)), .atomic (.advance 0), .atomic (.advance 0),
   .atomic (.advance 0), .checkIn 0 false]

/-- The guest checks out of his own room. -/
theorem terminal_inventory_checkOut : ∃ p p', inventory.Reachable p ∧
    inventory.step p (.checkOut 0) = some p' ∧ p.rooms.get? 5 = some ⟨5, .occupied, some 0⟩ ∧
    p'.rooms.get? 5 = some ⟨5, .dirty, none⟩ ∧ LeavesNoInventory p p' 0 := by
  obtain ⟨p, hp, hv⟩ := Machine.exists_reachable_of_run (M := inventory)
    (f := fun p : Premises => (p.rooms.get? 5,
      decide (∀ b ∈ p.atomic.bookings.get? 0, FreesOwn p b.room .dirty 0),
      (p.checkOut 0).map fun p' => p'.rooms.get? 5))
    (v := (some ⟨5, .occupied, some 0⟩, true, some (some ⟨5, .dirty, none⟩)))
    (arrivalRun ++ [.roll]) init_emptyPremises (by decide +kernel)
  obtain ⟨hroom, hv⟩ := Prod.mk.inj hv
  obtain ⟨hfrees, hstep⟩ := Prod.mk.inj hv
  obtain ⟨p', hout, hroom'⟩ := Option.map_eq_some_iff.mp hstep
  have hs : inventory.step p (.checkOut 0) = some p' := hout
  have hown : ∀ b ∈ p.atomic.bookings.get? 0, FreesOwn p b.room .dirty 0 :=
    of_decide_eq_true hfrees
  exact ⟨p, p', hp, hs, hroom, hroom', (terminal_inventory hs rfl).mpr hown⟩

/-- Booking 1 follows in room 5 and does not come, while the guest of booking 0 has not left:
the no-show of the night audit keeps the lock of booking 1 and frees the room of the guest. -/
theorem no_show_keeps_lock : ∃ p p', inventory.Reachable p ∧
    inventory.step p (.postNoShowItem 0) = some p' ∧ p.ended (.postNoShowItem 0) = some 1 ∧
    Owned p'.atomic.locks 1 5 10 ∧ p.rooms.get? 5 = some ⟨5, .occupied, some 0⟩ ∧
    p'.rooms.get? 5 = some ⟨5, .available, none⟩ ∧ ¬ LeavesNoInventory p p' 1 := by
  obtain ⟨p, hp, hv⟩ := Machine.exists_reachable_of_run (M := inventory)
    (f := fun p : Premises => (p.ended (.postNoShowItem 0), p.rooms.get? 5,
      (p.postNoShowItem 0).map fun p' =>
        ((p'.atomic.locks 5 10).map Lock.owner, p'.rooms.get? 5)))
    (v := (some 1, some ⟨5, .occupied, some 0⟩,
      some (some (.booking 1), some ⟨5, .available, none⟩)))
    (List.flatten [arrivalRun, [.atomic (.create (nightIn 10)), .atomic (.advance 1),
      .atomic (.advance 1), .atomic (.advance 1), .roll, .buildItems]])
    init_emptyPremises (by decide +kernel)
  obtain ⟨hended, hv⟩ := Prod.mk.inj hv
  obtain ⟨hroom, hstep⟩ := Prod.mk.inj hv
  obtain ⟨p', hs, hobs⟩ := Option.map_eq_some_iff.mp hstep
  obtain ⟨hlock, hroom'⟩ := Prod.mk.inj hobs
  obtain ⟨l, hl, ho⟩ := Option.map_eq_some_iff.mp hlock
  have howned : Owned p'.atomic.locks 1 5 10 := ⟨l, hl, ho⟩
  exact ⟨p, p', hp, hs, hended, howned, hroom, hroom', fun hleaves => hleaves.1 5 10 howned⟩

end SyrocePms.Atomic
