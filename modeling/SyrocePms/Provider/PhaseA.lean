import SyrocePms.Provider.Explode

/-! The pull of undelivered HotelRunner reservations. Every reservation is split into rooms, each
part is ingested and then looked for among the bookings, and the delivery is confirmed when all its
parts were found. What the ingest pipeline and the other services do to the database is left open:
they are functions on it. -/

namespace SyrocePms.Provider

open Reservation Lib

/-- `import_status` of an import record. -/
inductive ImportStatus where
  | pendingAutoImport | processing | retry
  | other (text : ℕ)

def ImportStatus.isPending : ImportStatus → Bool
  | .pendingAutoImport | .processing | .retry => true
  | .other _ => false

/-- The database of a tenant: the bookings, the import records, and whatever else. -/
structure Pms (ω : Type*) where
  bookings : Bookings
  imports : ℕ → Option ImportStatus
  rest : ω

inductive EventType where
  | reservationPull | reservationCancelPull

/-- `status` of a `PipelineResult`. -/
inductive PipelineStatus where
  | pending | duplicate | stale | retryLater | processed | failed
  deriving DecidableEq

structure PipelineResult where
  status : PipelineStatus
  decisionSkip : Bool := false

inductive Durability where
  | durable | pending | failed

inductive ConfirmAnswer where
  | success | rejected | raised
  deriving DecidableEq

/-- What the pull uses of the rest of the system. A service that raises answers `none`. The room
that the assignment picks is `none` when there is none. -/
structure Services (ω : Type*) where
  externalId : String → Option ℕ
  env : Pms ω → HrEnv
  reconciliationDisabled : Bool
  persistAndProcess : Pms ω → HrReservation → EventType → Pms ω × Option PipelineResult
  replayReviewedMappingImport : Pms ω → ℕ → Pms ω × Option Durability
  releaseBookingNights : ω → ℕ → ω × Bool
  pickRoom : Pms ω → Booking → Option ℕ → ω × Option (Option ℕ)
  confirmDelivery : ℕ → ℕ → ConfirmAnswer

variable {ω : Type*} (V : Services ω)

/-! ### One part -/

def HrReservation.update (r : HrReservation) (externalId : ℕ) : HrUpdate where
  externalId := externalId
  payload := r.payload
  state := if r.isCancellation then .cancelled else r.state.getD .confirmed
  updatedAt := r.updatedAt

def Pms.findBooking (s : Pms ω) (externalId : ℕ) : Option Booking :=
  s.bookings.findOne (providerBooking externalId)

/-- `release_unmatched_reservation_hold` with `delete_hold=True`. The answer is the hold that was
found, and whether its nights were released; only then is it deleted. -/
def deleteHold (s : Pms ω) (externalId : ℕ) : Pms ω × Option (Booking × Bool) :=
  match s.bookings.findOne (activeHold externalId) with
  | none => (s, none)
  | some hold =>
    let released := V.releaseBookingNights s.rest hold.id
    if released.2 then
      ({ s with rest := released.1, bookings := s.bookings.deleteMany fun b => b.id = hold.id },
        some (hold, true))
    else ({ s with rest := released.1 }, some (hold, false))

def assignRoom (room : ℕ) (b : Booking) : Booking :=
  { b with room := some room, allocationSource := .word 1 }

theorem assignRoom_id (room : ℕ) (b : Booking) : (assignRoom room b).id = b.id := rfl

def assignPendingBooking (s : Pms ω) (b : Booking) (preferred : Option ℕ) : Pms ω × Option Unit :=
  match V.pickRoom s b preferred with
  | (rest, none) => ({ s with rest }, none)
  | (rest, some none) => ({ s with rest }, some ())
  | (rest, some (some room)) =>
    ({ s with
        rest
        bookings := s.bookings.updateMany (fun c => c.id = b.id && c.room.isNone)
          (assignRoom room) (assignRoom_id room) },
      some ())

def syncFound (s : Pms ω) (r : HrReservation) (externalId : ℕ) : Pms ω :=
  if V.reconciliationDisabled then s
  else { s with bookings := (syncReservationUpdate (V.env s) s.bookings (r.update externalId)).1 }

/-- What follows the reconciliation of a delivery that is no cancellation: the hold is deleted,
and its room may be assigned to the booking. `some false` is a hold that stays, `none` an
exception. A booking that was found by a replay is not assigned. -/
def rebindHold (s : Pms ω) (b : Booking) (replayed : Bool) (externalId : ℕ) : Pms ω × Option Bool :=
  match deleteHold V s externalId with
  | (s, none) => (s, some true)
  | (s, some (_, false)) => (s, some false)
  | (s, some (hold, true)) =>
    if b.room.isNone && hold.room.isSome && !replayed then
      let assigned := assignPendingBooking V s b hold.room
      (assigned.1, assigned.2.map fun _ => true)
    else (s, some true)

def readBack (s : Pms ω) (r : HrReservation) (externalId : ℕ) : Durability :=
  match s.findBooking externalId with
  | none => .failed
  | some b =>
    if r.isCancellation then if b.status = .cancelled then .durable else .failed
    else if b.status = .cancelled then .failed else .durable

def ensureFound (s : Pms ω) (r : HrReservation) (b : Booking) (replayed : Bool) (externalId : ℕ) :
    Pms ω × Option Durability :=
  let s := syncFound V s r externalId
  if r.isCancellation then (s, some (readBack s r externalId))
  else match rebindHold V s b replayed externalId with
    | (s, none) => (s, none)
    | (s, some false) => (s, some .failed)
    | (s, some true) => (s, some (readBack s r externalId))

/-- Without a booking the import record decides whether the delivery is pending. -/
def importDurability (s : Pms ω) (externalId : ℕ) : Durability :=
  if (s.imports externalId).any ImportStatus.isPending then .pending else .failed

/-- The search for the booking, with a replay where the pipeline had nothing to do. The booking
comes with the mark of a replay. -/
def locateBooking (s : Pms ω) (result : PipelineResult) (externalId : ℕ) :
    Pms ω × Option (Durability ⊕ Option (Booking × Bool)) :=
  match s.findBooking externalId with
  | some b => (s, some (.inr (some (b, false))))
  | none =>
    if result.status = .duplicate ∨ result.decisionSkip then
      match V.replayReviewedMappingImport s externalId with
      | (s, none) => (s, none)
      | (s, some .pending) => (s, some (.inl .pending))
      | (s, some .failed) => (s, some (.inl .failed))
      | (s, some .durable) => (s, some (.inr ((s.findBooking externalId).map fun b => (b, true))))
    else (s, some (.inr none))

/-- The search and the reconciliation, with the database and the booking that were found before
the reconciliation. -/
def ensureLocated (s : Pms ω) (r : HrReservation) (result : PipelineResult) (externalId : ℕ) :
    Pms ω × Option Durability × Option (Pms ω × Booking) :=
  match locateBooking V s result externalId with
  | (s, none) => (s, none, none)
  | (s, some (.inl d)) => (s, some d, none)
  | (s, some (.inr none)) => (s, some (importDurability s externalId), none)
  | (s, some (.inr (some (b, replayed)))) =>
    let ensured := ensureFound V s r b replayed externalId
    (ensured.1, ensured.2, some (s, b))

def ensureDurablePmsResult (s : Pms ω) (r : HrReservation) (result : PipelineResult) :
    Pms ω × Option Durability × Option (Pms ω × Booking) :=
  if result.status = .pending ∨ result.status = .retryLater then (s, some .pending, none)
  else if result.status = .failed then (s, some .failed, none)
  else match V.externalId r.hrNumber with
    | none => (s, some .failed, none)
    | some externalId => ensureLocated V s r result externalId

def readDurablePmsNumber (s : Pms ω) (r : HrReservation) : Option ℕ :=
  (V.externalId r.hrNumber).bind fun externalId => (s.findBooking externalId).map Booking.id

inductive PartOutcome where
  | durable (pmsNumber : ℕ)
  | pending
  | failed
  deriving DecidableEq

/-- One part at its turn: the database after it, what it came to, and what was found before the
reconciliation. -/
structure Turn (ω : Type*) where
  part : HrReservation
  after : Pms ω
  outcome : PartOutcome
  found : Option (Pms ω × Booking)

def eventType (r : HrReservation) : EventType :=
  if r.isCancellation then .reservationCancelPull else .reservationPull

def partOutcome (s : Pms ω) (r : HrReservation) : Option Durability → PartOutcome
  | some .durable =>
    match readDurablePmsNumber V s r with
    | some number => .durable number
    | none => .failed
  | some .pending => .pending
  | some .failed | none => .failed

def processPart (s : Pms ω) (r : HrReservation) : Turn ω :=
  match V.persistAndProcess s r (eventType r) with
  | (s, none) => ⟨r, s, .failed, none⟩
  | (s, some result) =>
    let ensured := ensureDurablePmsResult V s r result
    ⟨r, ensured.1, partOutcome V ensured.1 r ensured.2.1, ensured.2.2⟩

/-! ### The pull -/

def processParts : Pms ω → List HrReservation → List (Turn ω)
  | _, [] => []
  | s, r :: rs =>
    let turn := processPart V s r
    turn :: processParts turn.after rs

def afterTurns (s : Pms ω) (turns : List (Turn ω)) : Pms ω := (turns.getLast?.map Turn.after).getD s

def PartOutcome.number : PartOutcome → Option ℕ
  | .durable number => some number
  | _ => none

/-- The booking number for the confirmation: the one of the first part, when all are durable. -/
def deliveryNumber (turns : List (Turn ω)) : Option ℕ :=
  if turns.all fun turn => turn.outcome.number.isSome then
    (turns.head?).bind fun turn => turn.outcome.number
  else none

/-- The confirmations that are to be sent, and the turns that led to them. -/
structure Pull (ω : Type*) where
  fireItems : List (ℕ × ℕ) := []
  turns : List (Turn ω) := []
  withoutUid : ℕ := 0

/-- One reservation of the pull. A uid that is on the list already is not added again. -/
def pullOne (pull : Pull ω) (r : HrReservation) (turns : List (Turn ω)) : Pull ω where
  fireItems :=
    match r.messageUid, deliveryNumber turns with
    | some uid, some number =>
      if uid ∈ pull.fireItems.map Prod.fst then pull.fireItems else pull.fireItems ++ [(uid, number)]
    | _, _ => pull.fireItems
  turns := pull.turns ++ turns
  withoutUid := pull.withoutUid +
    if r.messageUid = none ∧ (deliveryNumber turns).isSome then 1 else 0

def pullAll : Pms ω → Pull ω → List HrReservation → Pms ω × Pull ω
  | s, pull, [] => (s, pull)
  | s, pull, r :: rs =>
    let turns := processParts V s (explodeMultiRoomReservation r)
    pullAll (afterTurns s turns) (pullOne pull r turns) rs

inductive PageAnswer where
  | failed (rateLimited : Bool)
  | invalid
  | raised
  | page (reservations : List HrReservation) (pages : ℕ)

inductive PullError where
  | providerPullFailed (rateLimited : Bool)
  | providerResponseInvalid
  | providerPullException

/-- The pages from `page` on, by the answers of the provider. `none` is a request without an
answer yet. -/
def fetchPages : List PageAnswer → ℕ → ℕ → List HrReservation → Option (Except PullError (List HrReservation))
  | answers, page, total, fetched =>
    if total < page then some (.ok fetched)
    else match answers with
      | [] => none
      | .failed rateLimited :: _ => some (.error (.providerPullFailed rateLimited))
      | .invalid :: _ => some (.error .providerResponseInvalid)
      | .raised :: _ => some (.error .providerPullException)
      | .page reservations pages :: answers =>
        if pages < 1 then some (.error .providerResponseInvalid)
        else fetchPages answers (page + 1) pages (fetched ++ reservations)

/-- What a pull leaves: the database, the confirmations that were sent with their answers, and the
counts. -/
structure PhaseA (ω : Type*) where
  pms : Pms ω
  turns : List (Turn ω)
  confirmations : List (ℕ × ℕ × ConfirmAnswer)
  reservations : List HrReservation
  withoutUid : ℕ

/-- The confirmations follow when all reservations were processed. -/
def confirmAll (items : List (ℕ × ℕ)) : List (ℕ × ℕ × ConfirmAnswer) :=
  items.map fun item => (item.1, item.2, V.confirmDelivery item.1 item.2)

def processReservations (s : Pms ω) (reservations : List HrReservation) : PhaseA ω :=
  let pulled := pullAll V s {} reservations
  ⟨pulled.1, pulled.2.turns, confirmAll V pulled.2.fireItems, reservations, pulled.2.withoutUid⟩

def runPhaseA (s : Pms ω) (answers : List PageAnswer) : Option (Except PullError (PhaseA ω)) :=
  (fetchPages answers 1 1 []).map fun fetched => fetched.map (processReservations V s)

/-! ### Counts -/

def PhaseA.fired (a : PhaseA ω) : ℕ := a.confirmations.countP fun c => c.2.2 == .success

def PhaseA.processed (a : PhaseA ω) : ℕ := a.turns.countP fun turn => turn.outcome.number.isSome

def PhaseA.pending (a : PhaseA ω) : ℕ := a.turns.countP fun turn => turn.outcome == .pending

/-- Failed parts, durable reservations without a uid, and confirmations that did not go through. -/
def PhaseA.failed (a : PhaseA ω) : ℕ :=
  a.turns.countP (fun turn => turn.outcome == .failed) + a.withoutUid +
    a.confirmations.countP fun c => c.2.2 != .success

def PhaseA.success (a : PhaseA ω) : Bool :=
  a.failed == 0 && a.pending == 0 && a.fired == a.confirmations.length

end SyrocePms.Provider
