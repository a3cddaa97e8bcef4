import SyrocePms.Provider.Exely
import SyrocePms.Lib.Threads

/-! What the Exely lifecycle stores for one reservation: the current row, one row for
each version that was ever delivered, and the bookings that the versions are applied to.
The identity of a version is a hash of its key, so the key itself stands for it. -/

namespace SyrocePms.Exely

open Reservation Lib Provider

/-! ### Rooms and their mapping -/

/-- A delivered room stay. A blank text is zero. -/
structure RoomStay where
  index : ℕ := 0
  roomCode : ℕ := 1
  ratePlanCode : ℕ := 1

inductive MappingCode where
  | notApplicable
  | mapped
  | roomStaysMissing
  | roomStayIndexMissing
  | roomStayIndexDuplicate
  | roomCodeMissing
  | ratePlanCodeMissing
  | roomRateMappingMissing
  deriving DecidableEq

def indexes (rooms : List RoomStay) : List ℕ :=
  (rooms.map RoomStay.index).filter (· != 0)

def roomStaysProblem (rooms : List RoomStay) : Option MappingCode :=
  if rooms.isEmpty then some .roomStaysMissing
  else if 1 < rooms.length && rooms.any (·.index == 0) then some .roomStayIndexMissing
  else if ¬ (indexes rooms).Nodup then some .roomStayIndexDuplicate
  else none

/-- What the loop of `_mapping_status` finds wrong with one room. -/
def roomProblem (mappings : ℕ → ℕ → Bool) (room : RoomStay) : Option MappingCode :=
  if room.roomCode = 0 then some .roomCodeMissing
  else if room.ratePlanCode = 0 then some .ratePlanCodeMissing
  else if mappings room.roomCode room.ratePlanCode then none
  else some .roomRateMappingMissing

def mappingStatus (mappings : ℕ → ℕ → Bool) (rooms : List RoomStay) : MappingCode :=
  match roomStaysProblem rooms with
  | some code => code
  | none => (rooms.findSome? (roomProblem mappings)).getD .mapped

def allMapped (mappings : ℕ → ℕ → Bool) (rooms : List RoomStay) : Bool :=
  !rooms.isEmpty && rooms.all fun r => (roomProblem mappings r).isNone

/-! ### The documents -/

inductive ProcessingState where
  | received
  | holdMappingRequired
  | pmsProcessing
  | pmsFailed
  | pmsDurable
  | malformed
  deriving DecidableEq

inductive AckState where
  | notReady
  | pending
  | sending
  | acked
  | rejected
  | ambiguous
  | staleVersion
  deriving DecidableEq

/-- The provider has been called, or is about to be. -/
def AckState.handed : AckState → Bool
  | .sending | .acked | .rejected | .ambiguous => true
  | .notReady | .pending | .staleVersion => false

inductive PmsStatus where
  | pending
  | pendingMapping
  | cancellationPending
  | updated
  | imported
  | cancellationDone
  deriving DecidableEq

/-- A booking that confirms the version to the provider. -/
structure Confirmation where
  booking : ℕ
  createdAt : ℕ
  indexes : List ℕ

/-- What a read of a booking must show for the version to count as durable. -/
structure Expectation where
  booking : ℕ
  status : BookingStatus
  totalAmount : Option ℚ

/-- The row of the reservation in `exely_reservations`. It is only ever written for
timestamps that parse. -/
structure Row where
  instant : ℤ
  spelling : ℕ
  payload : ℕ
  cancelled : Bool
  rooms : List RoomStay
  pmsStatus : PmsStatus
  bookingIds : List ℕ := []
  delivery : AckState := .notReady
  generation : ℕ := 0

/-- `provider_version_key`, which also stands for `provider_version_identity`. -/
def Row.key (r : Row) : VersionKey := .stamped r.instant r.spelling

/-- A row of `exely_reservation_versions`. -/
structure VersionRow where
  processing : ProcessingState
  ack : AckState := .notReady
  mapping : MappingCode := .notApplicable
  cancellation : Bool := false
  rooms : List RoomStay := []
  generation : ℕ := 0
  owner : Option ℕ := none
  leaseUntil : Option ℕ := none
  confirmations : List Confirmation := []
  expectations : List Expectation := []
  hasTargets : Bool := false

/-- A call of `confirm_delivery` with status Reserved: whether the version was the
current one, the expectations it was sent under, and those that were read back. -/
structure Confirmed where
  key : VersionKey
  current : Bool
  expected : List Expectation
  verified : List Expectation

structure Store where
  row : Option Row
  versions : VersionKey → Option VersionRow
  bookings : Bookings
  mappings : ℕ → ℕ → Bool
  now : ℕ
  sent : List Confirmed

namespace Store

def isCurrent (s : Store) (key : VersionKey) : Bool := s.row.any fun r => r.key = key

def putVersion (s : Store) (key : VersionKey) (v : VersionRow) : Store :=
  { s with versions := Function.update s.versions key (some v) }

def setVersion (s : Store) (key : VersionKey) (f : VersionRow → VersionRow) : Store :=
  { s with versions := Function.update s.versions key ((s.versions key).map f) }

def setRow (s : Store) (key : VersionKey) (f : Row → Row) : Store :=
  { s with row := s.row.map fun r => if r.key = key then f r else r }

def markAck (s : Store) (key : VersionKey) (a : AckState) : Store :=
  s.setVersion key fun v => { v with ack := a }

/-- `mark_version_state` with both states. -/
def markVersion (s : Store) (key : VersionKey) (p : ProcessingState) (a : AckState) : Store :=
  s.setVersion key fun v => { v with processing := p, ack := a }

def setDelivery (s : Store) (key : VersionKey) (a : AckState) : Store :=
  s.setRow key fun r => { r with delivery := a }

variable (s : Store) (key k : VersionKey) (v : VersionRow) (f : VersionRow → VersionRow)

@[simp] theorem putVersion_self : (s.putVersion key v).versions key = some v := by
  simp [putVersion]

theorem putVersion_ne (h : k ≠ key) : (s.putVersion key v).versions k = s.versions k := by
  simp [putVersion, h]

@[simp] theorem setVersion_self :
    (s.setVersion key f).versions key = (s.versions key).map f := by
  simp [setVersion]

theorem setVersion_ne (h : k ≠ key) : (s.setVersion key f).versions k = s.versions k := by
  simp [setVersion, h]

theorem isCurrent_iff {s : Store} {key : VersionKey} :
    s.isCurrent key = true ↔ ∃ r, s.row = some r ∧ r.key = key := by
  simp [isCurrent, Option.any_eq_true]

theorem map_key_setRow (g : Row → Row) (hg : ∀ r, (g r).key = r.key) :
    (s.setRow key g).row.map Row.key = s.row.map Row.key := by
  simp only [setRow, Option.map_map]
  congr 1
  funext r
  simp only [Function.comp]
  split
  · exact hg r
  · rfl

theorem map_key_setDelivery (a : AckState) :
    (s.setDelivery key a).row.map Row.key = s.row.map Row.key :=
  map_key_setRow s key _ fun _ => rfl

theorem isCurrent_congr {s s' : Store} (h : s'.row.map Row.key = s.row.map Row.key)
    (key : VersionKey) : s'.isCurrent key = s.isCurrent key := by
  have hany : ∀ o : Option Row, (o.any fun r => decide (r.key = key)) =
      ((o.map Row.key).any fun k => decide (k = key)) := fun o => by cases o <;> rfl
  rw [isCurrent, isCurrent, hany, hany, h]

end Store

/-! ### Readback -/

/-- One round of `_durable_readback` and `_readback_expectations`. `archived` is the
answer of the archive's own readback. -/
def expectationMet (bookings : Bookings) (key : VersionKey) (archived : Bool)
    (e : Expectation) : Bool :=
  if e.status = .archivedDemo then archived
  else match bookings.get? e.booking with
    | none => false
    | some b =>
      b.status == e.status && b.providerVersionKey == some key &&
        !b.inventoryReleasePending && e.totalAmount.all (· == b.totalAmount)

def ackConfirmationsMatchVersion (v : VersionRow) : Bool :=
  let ids := v.confirmations.map Confirmation.booking
  let confirmed := (v.confirmations.flatMap Confirmation.indexes).filter (· != 0)
  !v.confirmations.isEmpty && ids.all (· != 0) && decide ids.Nodup &&
    v.confirmations.all (·.createdAt != 0) &&
    !(1 < v.confirmations.length && v.confirmations.any (·.indexes.isEmpty)) &&
    ((indexes v.rooms).isEmpty || confirmed.isPerm (indexes v.rooms))

/-! ### What lies outside the store -/

inductive DeliveryError where
  | temporary
  | parse
  | ackMalformed
  | other

/-- The result of `confirm_delivery`. -/
inductive DeliveryResult where
  | success
  | failed (e : DeliveryError)
  | raised

def DeliveryResult.ackState : DeliveryResult → AckState
  | .success => .acked
  | .failed .other => .rejected
  | .failed _ | .raised => .ambiguous

/-- One write of a version to the bookings, with the confirmation it adds. -/
inductive Mutation where
  | upsert (stay : ExelyStay) (confirm : Option Confirmation)
  | cancel (booking : ℕ) (confirm : Option Confirmation)

def Mutation.confirm : Mutation → Option Confirmation
  | .upsert _ c | .cancel _ c => c

/-- What a step cannot foresee: whether a concurrent upsert raises the duplicate-key
error, which slots the rooms are assigned to, whether the services it calls answer,
whether there are inventory targets, and what the provider answers. -/
structure Outside where
  raced : Bool := false
  plan : List Mutation := []
  ok : Bool := true
  archived : Bool := true
  targets : Bool := false
  result : DeliveryResult := .success

/-- A move of a call: its next operation, an operation that raises, the end of the
process, or a beat of the lease keeper beside it. -/
inductive Move where
  | advance (o : Outside)
  | raise
  | crash
  | heartbeat (ok : Bool)

end SyrocePms.Exely

/-! `persist_exely_event`, one database operation at a time: the comparison with the row
that was read, the upsert of the version row, and the write of the row, which is a
compare-and-set against the row that was read or, where none was read, an upsert. -/

namespace SyrocePms.Exely

open Reservation Lib

/-- A delivered event whose timestamps parse. -/
structure Delivery where
  instant : ℤ
  spelling : ℕ
  payload : ℕ
  eventCancels : Bool := false
  stateCancelled : Bool := false
  rooms : List RoomStay := []

namespace Delivery

def key (e : Delivery) : VersionKey := .stamped e.instant e.spelling

def isCancellation (e : Delivery) : Bool := e.eventCancels || e.stateCancelled

end Delivery

inductive PersistAnswer where
  | created (status : PmsStatus)
  | updated (status : PmsStatus)
  | cancelled (status : PmsStatus)
  | hold (code : MappingCode) (status : PmsStatus)
  | staleEvent
  | duplicatePayload
  | versionPayloadConflict
  | mappingAlarmNotDurable
  | raised
  deriving DecidableEq

/-- What the call decided before its first write: the row it read, the mapping, and the
status of the row to be. -/
structure Prepared where
  current : Option Row
  code : MappingCode
  status : PmsStatus

inductive PersistPc where
  | find
  | refind
  | mapping (current : Option Row)
  | storeVersion (p : Prepared)
  | storeRow (p : Prepared)
  | winner (p : Prepared)
  | retry (p : Prepared) (winner : Row)
  | markStale
  | markConflict
  | alarm (p : Prepared)
  | returned (a : PersistAnswer)
  | crashed

namespace PersistPc

def ended : PersistPc → Bool
  | .returned _ | .crashed => true
  | _ => false

/-- Control after the row was read: only a newer version goes on. -/
def compared (e : Delivery) (r : Row) : PersistPc :=
  match compare e.instant r.instant with
  | .lt => .returned .staleEvent
  | .eq =>
    if r.payload = e.payload then .returned .duplicatePayload
    else .returned .versionPayloadConflict
  | .gt => .mapping (some r)

end PersistPc

def isMapped (code : MappingCode) : Bool := code == .mapped || code == .notApplicable

/-- The decisions between the read and the first write. -/
def prepare (mappings : ℕ → ℕ → Bool) (e : Delivery) (current : Option Row) : Prepared :=
  let code := if e.isCancellation then .notApplicable else mappingStatus mappings e.rooms
  let known := current.any fun r => !r.bookingIds.isEmpty
  { current := current
    code := code
    status :=
      if e.isCancellation then .cancellationPending
      else if !isMapped code then .pendingMapping
      else if known then .updated else .pending }

/-- The `$set` of the upsert of the version row. What the event does not say is kept. -/
def versionDoc (e : Delivery) (p : Prepared) (old : Option VersionRow) : VersionRow :=
  let v := old.getD { processing := .received }
  { v with
    processing := if isMapped p.code then .received else .holdMappingRequired
    ack := .notReady
    mapping := p.code
    cancellation := e.isCancellation
    rooms := e.rooms }

def reservationDocument (e : Delivery) (status : PmsStatus) (old : Option Row) : Row where
  instant := e.instant
  spelling := e.spelling
  payload := e.payload
  cancelled := e.stateCancelled
  rooms := e.rooms
  pmsStatus := status
  bookingIds := (old.map Row.bookingIds).getD []

namespace Store

def putRow (s : Store) (e : Delivery) (status : PmsStatus) : Store :=
  { s with row := some (reservationDocument e status s.row) }

end Store

def stored (e : Delivery) (p : Prepared) : PersistPc :=
  if !isMapped p.code then .alarm p
  else if e.isCancellation then .returned (.cancelled p.status)
  else if p.current.isSome then .returned (.updated p.status)
  else .returned (.created p.status)

def compareAndSet (s : Store) (e : Delivery) (p : Prepared) (read : Row) :
    Store × PersistPc :=
  if s.isCurrent read.key then (s.putRow e p.status, stored e p) else (s, .markStale)

/-- The write of the row. Without a row read it is an upsert, whose filter a row that
appeared since matches, unless both inserts meet at the unique index. -/
def storeRow (s : Store) (e : Delivery) (p : Prepared) (raced : Bool) : Store × PersistPc :=
  match p.current, s.row with
  | some r, _ => compareAndSet s e p r
  | none, none => (s.putRow e p.status, stored e p)
  | none, some _ => if raced then (s, .winner p) else (s.putRow e p.status, stored e p)

/-- The row of the winner of the race is compared like the one of a first read. -/
def resolve (s : Store) (e : Delivery) (p : Prepared) : PersistPc :=
  match s.row with
  | none => .returned .raised
  | some w =>
    let clash := if w.payload = e.payload then .returned .duplicatePayload else .markConflict
    if w.key = e.key then clash
    else match compare e.instant w.instant with
      | .lt => .markStale
      | .eq => clash
      | .gt =>
        .retry { p with
          current := some w
          status := if w.bookingIds.isEmpty then p.status else .updated } w

/-- One operation of `persist_exely_event`. -/
def persistStep (s : Store) (e : Delivery) (o : Outside) : PersistPc → Option (Store × PersistPc)
  | .find =>
    match s.row with
    | none => some (s, .refind)
    | some r => some (s, .compared e r)
  | .refind =>
    match s.row with
    | none => some (s, .mapping none)
    | some r => some (s, .compared e r)
  | .mapping current => some (s, .storeVersion (prepare s.mappings e current))
  | .storeVersion p =>
    some (s.putVersion e.key (versionDoc e p (s.versions e.key)), .storeRow p)
  | .storeRow p => some (storeRow s e p o.raced)
  | .winner p => some (s, resolve s e p)
  | .retry p w => some (compareAndSet s e p w)
  | .markStale => some (s.markAck e.key .staleVersion, .returned .staleEvent)
  | .markConflict =>
    some (s.markVersion e.key .malformed .notReady, .returned .versionPayloadConflict)
  | .alarm p =>
    if o.ok then some (s, .returned (.hold p.code p.status))
    else some (s, .returned .mappingAlarmNotDurable)
  | .returned _ | .crashed => none

/-- The whole of `persist_exely_event` for an event whose timestamps do not parse: an
upsert of the version row. -/
def malformedDoc (old : Option VersionRow) : VersionRow :=
  { old.getD { processing := .malformed } with processing := .malformed, ack := .notReady }

/-- The row that the next operation writes takes the place of the one that was there. -/
def writesRow (s : Store) (o : Outside) : PersistPc → Bool
  | .storeRow p =>
    match p.current, s.row with
    | some r, _ => s.isCurrent r.key
    | none, none => true
    | none, some _ => !o.raced
  | .retry _ w => s.isCurrent w.key
  | _ => false

/-! ### What one operation does -/

theorem compareAndSet_eq (s : Store) (e : Delivery) (p : Prepared) (read : Row) :
    compareAndSet s e p read =
      if s.isCurrent read.key then (s.putRow e p.status, stored e p) else (s, .markStale) := rfl

theorem persistStep_store {s s' : Store} {e : Delivery} {o : Outside} {pc pc' : PersistPc}
    (h : persistStep s e o pc = some (s', pc')) :
    (writesRow s o pc = true ∧ ∃ status p, s' = s.putRow e status ∧ pc' = stored e p) ∨
    (writesRow s o pc = false ∧ (s' = s ∨
      (∃ p, pc = .storeVersion p ∧ pc' = .storeRow p ∧
        s' = s.putVersion e.key (versionDoc e p (s.versions e.key))) ∨
      (pc = .markStale ∧ pc' = .returned .staleEvent ∧ s' = s.markAck e.key .staleVersion) ∨
      (pc = .markConflict ∧ pc' = .returned .versionPayloadConflict ∧
        s' = s.markVersion e.key .malformed .notReady))) := by
  cases pc with
  | find | refind =>
    simp only [persistStep] at h
    split at h <;> cases h <;> exact .inr ⟨rfl, .inl rfl⟩
  | mapping current => cases h; exact .inr ⟨rfl, .inl rfl⟩
  | storeVersion p => cases h; exact .inr ⟨rfl, .inr (.inl ⟨p, rfl, rfl, rfl⟩)⟩
  | storeRow p =>
    simp only [persistStep, storeRow, Option.some.injEq] at h
    simp only [writesRow]
    split at h
    · rw [compareAndSet_eq] at h
      split at h
      · rename_i hcur
        cases h
        exact .inl ⟨by simp [hcur], _, p, rfl, rfl⟩
      · rename_i hcur
        cases h
        exact .inr ⟨by simpa using hcur, .inl rfl⟩
    · cases h
      exact .inl ⟨by simp, _, p, rfl, rfl⟩
    · split at h
      · rename_i hraced
        cases h
        exact .inr ⟨by simp [hraced], .inl rfl⟩
      · rename_i hraced
        cases h
        exact .inl ⟨by simpa using hraced, _, p, rfl, rfl⟩
  | winner p => cases h; exact .inr ⟨rfl, .inl rfl⟩
  | retry p w =>
    simp only [persistStep, compareAndSet_eq, Option.some.injEq] at h
    split at h
    · rename_i hcur
      cases h
      exact .inl ⟨hcur, _, p, rfl, rfl⟩
    · rename_i hcur
      cases h
      exact .inr ⟨by simpa [writesRow] using hcur, .inl rfl⟩
  | markStale => cases h; exact .inr ⟨rfl, .inr (.inr (.inl ⟨rfl, rfl, rfl⟩))⟩
  | markConflict => cases h; exact .inr ⟨rfl, .inr (.inr (.inr ⟨rfl, rfl, rfl⟩))⟩
  | alarm p =>
    simp only [persistStep] at h
    split at h <;> cases h <;> exact .inr ⟨rfl, .inl rfl⟩
  | returned a => cases h
  | crashed => cases h

end SyrocePms.Exely
