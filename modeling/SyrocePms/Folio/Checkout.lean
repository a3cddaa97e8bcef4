import SyrocePms.Folio.Calls
import SyrocePms.Reservation.Stay

/-! The check-out of a booking. It is one transaction: the guard reads the balance of the
open folios from the ledger, the rest of the room revenue is posted as a charge, and the
folios are closed. Charges and payments of a booking are in collections of their own,
beside the ledger. -/

namespace SyrocePms.Folio

open Reservation List

/-- What check-out reads and writes of a booking. -/
structure Booking where
  id : ℕ
  status : BookingStatus
  checkOut : Option ℤ
  roomId : Option ℕ := none
  totalAmount : ℤ := 0
  accommodation : ℤ := 0

/-- A row of `folios`. -/
structure FolioDoc where
  id : ℕ
  booking : ℕ
  isOpen : Bool := true
  openingBalance : ℤ := 0
  balance : ℤ := 0

inductive ChargeKey where
  | reconciliation (booking : ℕ)
  | other (n : ℕ)
  deriving DecidableEq

/-- A row of `folio_charges`. `isRoom` says that type or category is that of the room. -/
structure Charge where
  folio : ℕ
  booking : ℕ
  total : Option ℤ := none
  amount : ℤ := 0
  isRoom : Bool := false
  voided : Bool := false
  key : Option ChargeKey := none

/-- `charge.get("total", charge.get("amount"))`. -/
def Charge.money (c : Charge) : ℤ := c.total.getD c.amount

/-- A row of `payments`. Old rows have no mark. -/
structure Payment where
  folio : ℕ
  booking : ℕ
  amount : ℤ
  voided : Option Bool := some false

structure Room where
  id : ℕ
  dirty : Bool := false
  currentBooking : Option ℕ := none

/-- A row of `housekeeping_tasks` for the cleaning after check-out. -/
structure CleaningTask where
  room : ℕ
  booking : ℕ
  cancelled : Bool := false

/-- What check-out sees of a tenant. `locks` has the booking of each room-night lock,
and `events` the bookings whose departure is in the outbox. -/
structure House where
  tenant : ℕ
  businessDate : Option ℤ
  bookings : List Booking := []
  folios : List FolioDoc := []
  ledger : Ledger := .empty
  charges : List Charge := []
  payments : List Payment := []
  rooms : List Room := []
  locks : List ℕ := []
  tasks : List CleaningTask := []
  events : List ℕ := []

inductive CheckOutError where
  | notFound
  | status (st : BookingStatus)
  | businessDateMissing
  | checkOutMissing
  | beforeCheckOut (businessDate checkOut : ℤ)
  | unpaid (folio : ℕ) (balance : ℤ)
  | noOpenFolio

variable {s s' : House}

namespace House

def booking (s : House) (id : ℕ) : Option Booking := s.bookings.find? fun b => b.id == id

def openFolios (s : House) (booking : ℕ) : List FolioDoc :=
  s.folios.filter fun f => f.booking == booking && f.isOpen

def dateError (s : House) (b : Booking) : Option CheckOutError :=
  match s.businessDate, b.checkOut with
  | none, _ => some .businessDateMissing
  | _, none => some .checkOutMissing
  | some today, some checkOut => if today < checkOut then some (.beforeCheckOut today checkOut) else none

/-- The balance guard: it looks at the ledger of the first ten open folios. -/
def guardError (s : House) (booking : ℕ) : Option CheckOutError :=
  ((s.openFolios booking).take 10).findSome? fun f =>
    let balance := s.ledger.balance s.tenant f.id
    if 1 < balance then some (.unpaid f.id balance) else none

/-! ### The rest of the room revenue -/

def chargesOf (s : House) (booking : ℕ) : List Charge :=
  (s.charges.filter fun c => c.booking == booking).take 10000

/-- A charge of an earlier reconciliation stands. -/
def reconciled (s : House) (booking : ℕ) : Bool :=
  (s.chargesOf booking).any fun c => c.key == some (.reconciliation booking) && !c.voided

def postedRoom (s : House) (booking : ℕ) : ℤ :=
  (((s.chargesOf booking).filter fun c => !c.voided && c.isRoom).map Charge.money).sum

def missingRoom (s : House) (b : Booking) : ℤ :=
  b.totalAmount - b.accommodation - s.postedRoom b.id

def lacksRoom (s : House) (b : Booking) : Bool :=
  1 < b.totalAmount - b.accommodation && !s.reconciled b.id && 1 < s.missingRoom b

def lateCharge (s : House) (b : Booking) (f : FolioDoc) : Charge where
  folio := f.id
  booking := b.id
  total := some (s.missingRoom b)
  isRoom := true
  key := some (.reconciliation b.id)

def bookedBalance (s : House) (b : Booking) (f : FolioDoc) : ℤ :=
  f.openingBalance + (((s.chargesOf b.id).filter fun c => !c.voided).map Charge.money).sum +
    s.missingRoom b -
    (((s.payments.filter fun p => p.booking == b.id && p.voided == some false).take 10000).map
      Payment.amount).sum

def reconcileUnpostedRoomCharge (s : House) (b : Booking) : Option House :=
  if s.lacksRoom b then
    match s.openFolios b.id with
    | [] => none
    | f :: _ =>
      some { s with
        charges := s.charges ++ [s.lateCharge b f]
        folios := s.folios.map fun x =>
          if x.id = f.id then { x with balance := s.bookedBalance b f } else x }
  else some s

/-! ### The check-out -/

/-- The writes of a check-out after the revenue is complete. -/
def depart (s : House) (b : Booking) : House := { s with
  bookings := s.bookings.map fun x => if x.id = b.id then { x with status := .checkedOut } else x
  rooms := s.rooms.map fun r =>
    if b.roomId = some r.id then { r with dirty := true, currentBooking := none } else r
  folios := s.folios.map fun f => if f.booking = b.id then { f with isOpen := false } else f
  locks := s.locks.filter fun booking => booking != b.id
  tasks := match b.roomId with
    | none => s.tasks
    | some room =>
      if s.tasks.any fun t => t.booking == b.id && !t.cancelled then s.tasks
      else s.tasks ++ [⟨room, b.id, false⟩]
  events := s.events ++ [b.id] }

def checkOutBookingAtomic (s : House) (id : ℕ) (force : Bool) : Except CheckOutError House :=
  match s.booking id with
  | none => .error .notFound
  | some b =>
    if b.status ≠ .checkedIn then .error (.status b.status)
    else
      match s.dateError b with
      | some e => .error e
      | none =>
        match if force then none else s.guardError id with
        | some e => .error e
        | none =>
          match s.reconcileUnpostedRoomCharge b with
          | none => .error .noOpenFolio
          | some s' => .ok (s'.depart b)

/-! ### What is owed -/

def activeCharges (s : House) (folio : ℕ) : ℤ :=
  ((s.charges.filter fun c => c.folio == folio && !c.voided).map Charge.money).sum

def activePayments (s : House) (folio : ℕ) : ℤ :=
  ((s.payments.filter fun p => p.folio == folio && p.voided != some true).map Payment.amount).sum

def outstanding (s : House) (f : FolioDoc) : ℤ :=
  f.openingBalance + s.activeCharges f.id - s.activePayments f.id

/-- Nothing is owed at the end on the folios that the check-out closes. -/
def SettledOut (s s' : House) (id : ℕ) : Prop := ∀ f ∈ s.openFolios id, s'.outstanding f ≤ 1

/-- The room revenue that a check-out brings to a folio. -/
def lateRoom (s : House) (b : Booking) (f : FolioDoc) : ℤ :=
  if s.lacksRoom b ∧ (s.openFolios b.id).head?.map FolioDoc.id = some f.id then s.missingRoom b else 0

/-- Before the check-out, what is owed on an open folio is paid together with the room
revenue that is missing. -/
def PaysAhead (s : House) (id : ℕ) : Prop :=
  ∀ b ∈ s.booking id, ∀ f ∈ s.openFolios id, s.outstanding f + s.lateRoom b f ≤ 1

/-- What is owed does not depend on the writes of the departure. -/
theorem outstanding_depart (s : House) (b : Booking) (f : FolioDoc) :
    (s.depart b).outstanding f = s.outstanding f := rfl

theorem outstanding_reconcile {b : Booking} (h : s.reconcileUnpostedRoomCharge b = some s')
    (f : FolioDoc) : s'.outstanding f = s.outstanding f + s.lateRoom b f := by
  simp only [reconcileUnpostedRoomCharge] at h
  split at h
  · rename_i hlacks
    cases hopen : s.openFolios b.id with
    | nil =>
      rw [hopen] at h
      cases h
    | cons x folios =>
      rw [hopen] at h
      cases h
      have hlate : s.lateRoom b f = if x.id = f.id then s.missingRoom b else 0 := by
        simp [lateRoom, hlacks, hopen]
      have hcharges : ((s.charges ++ [s.lateCharge b x]).filter
          fun c => c.folio == f.id && !c.voided) =
          (s.charges.filter fun c => c.folio == f.id && !c.voided) ++
            if x.id = f.id then [s.lateCharge b x] else [] := by
        rw [filter_append]
        by_cases hx : x.id = f.id <;> simp [lateCharge, hx]
      simp only [outstanding, activeCharges, activePayments, hcharges, hlate]
      by_cases hx : x.id = f.id
      · simp only [if_pos hx, map_append, sum_append, map_cons, map_nil,
          sum_cons, sum_nil]
        simp only [Charge.money, lateCharge, Option.getD_some]
        omega
      · simp only [if_neg hx, append_nil]
        omega
  · rename_i hlacks
    cases h
    simp [lateRoom, hlacks]

theorem checkOut_ok {id : ℕ} {force : Bool} (h : s.checkOutBookingAtomic id force = .ok s') :
    ∃ b s₁, s.booking id = some b ∧ s.reconcileUnpostedRoomCharge b = some s₁ ∧ s' = s₁.depart b := by
  simp only [checkOutBookingAtomic] at h
  cases hb : s.booking id with
  | none =>
    rw [hb] at h
    cases h
  | some b =>
    rw [hb] at h
    simp only at h
    split at h
    · cases h
    · split at h
      · cases h
      · split at h
        · cases h
        · split at h
          · cases h
          · rename_i s₁ hs₁
            cases h
            exact ⟨b, s₁, rfl, hs₁, rfl⟩

/-- A check-out that goes through leaves nothing owed on the folios it closes exactly when
they were paid ahead. -/
theorem checkOut_settledOut_iff {s s' : House} {id : ℕ}
    (h : s.checkOutBookingAtomic id false = .ok s') : SettledOut s s' id ↔ PaysAhead s id := by
  obtain ⟨b, s₁, hb, hs₁, rfl⟩ := checkOut_ok h
  simp only [SettledOut, PaysAhead, hb, Option.mem_def, Option.some.injEq, forall_eq',
    outstanding_depart, outstanding_reconcile hs₁]

/-! ### A stay of 100 -/

/-- A guest with one open folio, whose room revenue of 100 is not posted. -/
def departing (payments : List Payment) : House where
  tenant := 1
  businessDate := some 12
  bookings := [⟨1, .checkedIn, some 12, some 5, 10000, 0⟩]
  folios := [⟨7, 1, true, 0, 0⟩]
  payments := payments

/-- The guest has paid ahead. -/
theorem checkOut_settledOut_paid : ∃ s', (departing [⟨7, 1, 10000, some false⟩]).checkOutBookingAtomic 1 false
    = .ok s' ∧ SettledOut (departing [⟨7, 1, 10000, some false⟩]) s' 1 := by
  refine ⟨_, rfl, (checkOut_settledOut_iff rfl).mpr ?_⟩
  intro b hb f hf
  cases hb
  obtain rfl := mem_singleton.mp hf
  decide +kernel

/-- The guest has paid nothing, and the check-out goes through and posts the charge. -/
theorem checkOut_not_settledOut : ∃ s', (departing []).checkOutBookingAtomic 1 false = .ok s' ∧
    ¬ SettledOut (departing []) s' 1 := by
  refine ⟨_, rfl, fun h => ?_⟩
  have howed := h ⟨7, 1, true, 0, 0⟩ (mem_singleton.mpr rfl)
  revert howed
  decide +kernel

end House

end SyrocePms.Folio
