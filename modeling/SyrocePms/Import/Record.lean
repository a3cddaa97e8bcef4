import SyrocePms.Reservation.Stay
import SyrocePms.Lib.Collection
import SyrocePms.Lib.Threads

/-! What the import bridge stores for one external reservation: its lineage, its import
records under the unique index on the connector, the PMS bookings imported for it, and
the outbox. Texts are numbers; zero is the blank text. -/

namespace SyrocePms.Import

open Reservation Lib

inductive ImportStatus where
  | pendingAutoImport
  | processing
  | imported
  | reviewRequired
  | retry
  | failed
  | duplicate
  deriving DecidableEq

inductive ReviewReason where
  | reservationCancelled
  | invalidDateRange
  | missingGuestIdentity
  | unmappedRoomType
  | unmappedRatePlan

/-- A review that `replay_reviewed_mapping_import` takes up. -/
def ReviewReason.unmapped : ReviewReason → Bool
  | .unmappedRoomType | .unmappedRatePlan => true
  | _ => false

/-- The reservation data that a record is built from. `rateNamesRoom` is
`rate_code_belongs_to_room` of its two codes. -/
structure Snapshot where
  arrival : ℕ := 1
  departure : ℕ := 2
  guestNameLength : ℕ := 5
  roomTypeCode : ℕ := 1
  ratePlanCode : ℕ := 1
  rateNamesRoom : Bool := false

/-- Which of the two active mappings a read found. -/
structure Mapped where
  room : Bool := true
  rate : Bool := true

namespace Snapshot

def roomUnmapped (x : Snapshot) (m : Mapped) : Bool := x.roomTypeCode != 0 && !m.room

def rateUnmapped (x : Snapshot) (m : Mapped) : Bool :=
  x.ratePlanCode != 0 && !m.rate && !(x.roomTypeCode != 0 && m.room && x.rateNamesRoom)

end Snapshot

def classifyForImport (m : Mapped) (cancelled : Bool) (x : Snapshot) :
    ImportStatus × Option ReviewReason :=
  if cancelled then (.reviewRequired, some .reservationCancelled)
  else if x.arrival = 0 ∨ x.departure = 0 then (.reviewRequired, some .invalidDateRange)
  else if x.departure ≤ x.arrival then (.reviewRequired, some .invalidDateRange)
  else if x.guestNameLength < 2 then (.reviewRequired, some .missingGuestIdentity)
  else if x.roomUnmapped m then (.reviewRequired, some .unmappedRoomType)
  else if x.rateUnmapped m then (.reviewRequired, some .unmappedRatePlan)
  else (.pendingAutoImport, none)

theorem classifyForImport_fst (m : Mapped) (cancelled : Bool) (x : Snapshot) :
    (classifyForImport m cancelled x).1 = .pendingAutoImport ∨
      (classifyForImport m cancelled x).1 = .reviewRequired := by
  unfold classifyForImport
  repeat' split
  all_goals simp

/-- An import in this class may still be taken up: by a worker, after a recovery, or by a
replay. -/
def importableClass : ImportStatus × Option ReviewReason → Bool
  | (.pendingAutoImport, _) | (.retry, _) | (.processing, _) => true
  | (.reviewRequired, reason) => reason.any ReviewReason.unmapped
  | (.imported, _) | (.failed, _) | (.duplicate, _) => false

/-- A row of `imported_reservations`. `cancelled` is its field `status`, which is not the
status of the import. -/
structure Record where
  id : ℕ
  connector : ℕ
  importStatus : ImportStatus
  reviewReason : Option ReviewReason := none
  snapshot : Snapshot
  cancelled : Bool := false
  retryCount : ℕ := 0
  maxRetries : ℕ := 5
  nextRetryAt : Option ℕ := none
  bookingId : Option ℕ := none
  updatedAt : ℕ := 0

namespace Record

/-- `{"$or": [{"next_retry_at": None}, {"next_retry_at": {"$lte": now}}]}`. -/
def due (r : Record) (now : ℕ) : Bool := r.nextRetryAt.all (· ≤ now)

/-- The import may still be taken up. -/
def importable (r : Record) : Bool := importableClass (r.importStatus, r.reviewReason)

/-- The import has come to its end with a booking. -/
def resolved (r : Record) : Bool := r.importStatus == .imported || r.importStatus == .duplicate

def claimed (r : Record) : Bool := r.importStatus == .processing || r.resolved

def stuck (timeout now : ℕ) (r : Record) : Bool :=
  r.importStatus == .processing && decide (r.updatedAt + timeout ≤ now)

end Record

structure ImportedBooking where
  id : ℕ
  room : Option ℕ
  status : BookingStatus := .confirmed

/-- The lineage, as far as the import reads or writes it. -/
structure Lineage where
  snapshot : Snapshot
  cancelled : Bool := false
  reservationId : Option ℕ := none

/-- `cancelApplied` says that a cancellation was once written to the lineage; nothing
branches on it. -/
structure Store where
  lineage : Option Lineage
  cancelApplied : Bool
  records : Collection Record Record.connector
  bookings : List ImportedBooking
  outbox : List ℕ
  now : ℕ
  nextId : ℕ

def processingTimeout : ℕ := 120

/-- `IMPORT_RETRY_BACKOFF`, as `_compute_next_retry_at` reads it. -/
def importRetryBackoff : ℕ → ℕ
  | 1 => 30
  | 2 => 120
  | 3 => 600
  | 4 => 1800
  | _ => 7200

variable {s : Store} {x : Record}

namespace Store

def setRecord (s : Store) (id : ℕ) (f : Record → Record)
    (hf : ∀ r, (f r).connector = r.connector := by intro _; rfl) : Store :=
  { s with records := s.records.updateMany (fun r => r.id = id) f hf }

/-- `create_import_record`: undefined when the unique index refuses it. -/
def insertRecord (s : Store) (connector : ℕ) (x : Snapshot)
    (c : ImportStatus × Option ReviewReason) : Option Store :=
  (s.records.insertOne
    { id := s.nextId
      connector := connector
      importStatus := c.1
      reviewReason := c.2
      snapshot := x
      updatedAt := s.now }).map fun records =>
        { s with records := records, nextId := s.nextId + 1 }

def recoverStuck (s : Store) : Store :=
  { s with
    records := s.records.updateMany (Record.stuck processingTimeout s.now) fun r =>
      { r with importStatus := .retry, nextRetryAt := some s.now, updatedAt := s.now } }

def bookingSource (s : Store) : Option ℕ := s.bookings.head?.map ImportedBooking.id

def setRoom (s : Store) (booking room : ℕ) : Store :=
  { s with bookings := s.bookings.map fun b =>
    if b.id = booking then { b with room := some room } else b }

/-- The update of the first booking of the reservation by a cancellation. -/
def cancelBooking (s : Store) : Store :=
  { s with bookings :=
    match s.bookings with
    | [] => []
    | b :: bs => { b with status := .cancelled } :: bs }

theorem mem_setRecord {id : ℕ} {f : Record → Record} {hf : ∀ r, (f r).connector = r.connector} :
    x ∈ (s.setRecord id f hf).records ↔ ∃ r ∈ s.records, x = if r.id = id then f r else r := by
  simp [setRecord, Collection.mem_updateMany]

theorem mem_recoverStuck : x ∈ s.recoverStuck.records ↔ ∃ r ∈ s.records, x =
      if r.stuck processingTimeout s.now then
        { r with importStatus := .retry, nextRetryAt := some s.now, updatedAt := s.now }
      else r := by
  simp only [recoverStuck, Collection.mem_updateMany]

@[simp] theorem cancelBooking_eq_nil : s.cancelBooking.bookings = [] ↔ s.bookings = [] := by
  cases h : s.bookings <;> simp [cancelBooking, h]

@[simp] theorem setRoom_eq_nil {b x : ℕ} : (s.setRoom b x).bookings = [] ↔ s.bookings = [] := by
  simp [setRoom]

@[simp] theorem map_id_cancelBooking (s : Store) :
    s.cancelBooking.bookings.map ImportedBooking.id = s.bookings.map ImportedBooking.id := by
  cases h : s.bookings <;> simp [cancelBooking, h]

@[simp] theorem map_id_setRoom (s : Store) (b x : ℕ) :
    (s.setRoom b x).bookings.map ImportedBooking.id = s.bookings.map ImportedBooking.id := by
  simp only [setRoom, List.map_map]
  refine List.map_congr_left fun y _ => ?_
  simp only [Function.comp]
  split <;> rfl

end Store

/-! `auto_import_reservation_to_pms` after its claim, one database operation at a time, on
the copy of the record that the claim answered. An exception is handled where the source
handles it; a crash leaves the store as it is. -/

/-- The operations on a created booking, in their order. -/
inductive Stage where
  | note
  | releaseHold
  | assign
  | markImported
  | link
  | timeline
  | audit
  | notify
  | publish
  | enqueue
  deriving DecidableEq

inductive AttemptPc where
  | start (r : Record)
  | dupCheck (r : Record)
  | dupNote (r : Record) (booking : ℕ)
  | dupMark (r : Record) (booking : ℕ)
  | dupLink (r : Record) (booking : ℕ)
  | roomMapping (r : Record)
  | rateMapping (r : Record)
  | park (r : Record) (reason : ReviewReason)
  | parkHold (r : Record)
  | guest (r : Record)
  | create (r : Record)
  | after (r : Record) (booking : ℕ) (room : Option ℕ) (stage : Stage)
  | failRead (r : Record) (retryable : Bool)
  | failWrite (r : Record) (retryCount maxRetries : ℕ) (retryable : Bool)
  | returned (success : Bool)
  | crashed

/-- What an operation cannot foresee: the mappings it reads, the room that the placement
finds, and whether a hold was released. -/
structure Outside where
  mapped : Mapped := {}
  room : Option ℕ := none
  released : Bool := false
  ok : Bool := true

namespace AttemptPc

def ended : AttemptPc → Bool
  | .returned _ | .crashed => true
  | _ => false

def holds : AttemptPc → Option ℕ
  | .start r | .dupCheck r | .dupNote r _ | .dupMark r _ | .dupLink r _ | .roomMapping r
  | .rateMapping r | .park r _ | .guest r | .create r | .after r _ _ _ | .failRead r _
  | .failWrite r _ _ _ => some r.id
  | .parkHold _ | .returned _ | .crashed => none

def checked : AttemptPc → Bool
  | .roomMapping _ | .rateMapping _ | .guest _ | .create _ => true
  | _ => false

def booking : AttemptPc → Option ℕ
  | .dupNote _ b | .dupMark _ b | .dupLink _ b | .after _ b _ _ => some b
  | _ => none

/-- Control when the current operation raises: in the block around the import the failure
is handled, and around three operations it is only logged. -/
def raised (retryable : Bool) : AttemptPc → AttemptPc
  | .after r b room .releaseHold => .after r b room .markImported
  | .after r b room .notify => .after r b room .publish
  | .after _ _ _ .enqueue => .returned true
  | .dupCheck r | .dupNote r _ | .dupMark r _ | .dupLink r _ | .roomMapping r
  | .rateMapping r | .park r _ | .guest r | .create r | .after r _ _ _ => .failRead r retryable
  | .start _ | .parkHold _ | .failRead _ _ | .failWrite _ _ _ _ => .returned false
  | .returned b => .returned b
  | .crashed => .crashed

end AttemptPc

/-- One operation on the created booking. -/
def afterStep (s : Store) (o : Outside) (r : Record) (b : ℕ) (room : Option ℕ) :
    Stage → Store × AttemptPc
  | .note => (s, .after r b room .releaseHold)
  | .releaseHold =>
    (s, .after r b room (if room.isNone && o.released then .assign else .markImported))
  | .assign =>
    match o.room with
    | some x => (s.setRoom b x, .after r b (some x) .markImported)
    | none => (s, .after r b room .markImported)
  | .markImported =>
    (s.setRecord r.id fun x =>
      { x with importStatus := .imported, bookingId := some b, updatedAt := s.now },
      .after r b room .link)
  | .link =>
    ({ s with lineage := s.lineage.map fun l => { l with reservationId := some b } },
      .after r b room .timeline)
  | .timeline => (s, .after r b room .audit)
  | .audit => (s, .after r b room .notify)
  | .notify => (s, .after r b room .publish)
  | .publish => (s, .after r b room .enqueue)
  | .enqueue =>
    (match room with
      | some _ => { s with outbox := b :: s.outbox }
      | none => s, .returned true)

def failureStatus (retryCount maxRetries : ℕ) (retryable : Bool) : ImportStatus :=
  if !retryable || maxRetries ≤ retryCount then .failed else .retry

/-- One operation of `auto_import_reservation_to_pms`. -/
def attemptStep (s : Store) (o : Outside) : AttemptPc → Option (Store × AttemptPc)
  | .start r => some (s, .dupCheck r)
  | .dupCheck r =>
    match s.bookingSource with
    | some b => some (s, .dupNote r b)
    | none => some (s, .roomMapping r)
  | .dupNote r b => some (s, .dupMark r b)
  | .dupMark r b =>
    some (s.setRecord r.id fun x =>
      { x with importStatus := .duplicate, bookingId := some b, updatedAt := s.now },
      .dupLink r b)
  | .dupLink _ b =>
    some ({ s with lineage := s.lineage.map fun l => { l with reservationId := some b } },
      .returned true)
  | .roomMapping r =>
    if r.snapshot.roomUnmapped o.mapped then some (s, .park r .unmappedRoomType)
    else some (s, .rateMapping r)
  | .rateMapping r =>
    -- the room was mapped before, or has no code
    if r.snapshot.rateUnmapped { o.mapped with room := true } then
      some (s, .park r .unmappedRatePlan)
    else some (s, .guest r)
  | .park r reason =>
    some (s.setRecord r.id fun x =>
      { x with importStatus := .reviewRequired, reviewReason := some reason, updatedAt := s.now },
      .parkHold r)
  | .parkHold _ => some (s, .returned false)
  | .guest r => some (s, .create r)
  | .create r =>
    some ({ s with
      bookings := s.bookings ++ [{ id := s.nextId, room := o.room }]
      nextId := s.nextId + 1 }, .after r s.nextId o.room .note)
  | .after r b room stage => some (afterStep s o r b room stage)
  | .failRead r retryable =>
    let persisted := (s.records.findOne fun x => x.id = r.id).getD r
    some (s, .failWrite r (persisted.retryCount + 1) persisted.maxRetries retryable)
  | .failWrite r retryCount maxRetries retryable =>
    let status := failureStatus retryCount maxRetries retryable
    some (s.setRecord r.id fun x =>
      { x with
        importStatus := status
        retryCount := retryCount
        nextRetryAt :=
          if status = .retry then some (s.now + importRetryBackoff retryCount)
          else x.nextRetryAt
        updatedAt := s.now }, .returned false)
  | .returned _ | .crashed => none

inductive Move where
  | advance (o : Outside)
  | raise (retryable : Bool)
  | crash

def AttemptPc.step (s : Store) (pc : AttemptPc) : Move → Option (Store × AttemptPc)
  | .advance o => attemptStep s o pc
  | .raise retryable => if pc.ended then none else some (s, pc.raised retryable)
  | .crash => if pc.ended then none else some (s, .crashed)

/-! The calls around the import of one reservation: the ingest of its events, the worker
and the direct import with their claims, the replay of a reviewed record, and the
cancellation. A claim that finds a record turns its call into an attempt. -/

def Record.mappingReview (r : Record) : Bool :=
  r.importStatus == .reviewRequired && r.reviewReason.any ReviewReason.unmapped

/-- The four claims: of a pending record, of a due retry, of the oldest record that is
either, and of a reviewed record. -/
inductive Claim where
  | pending (id : ℕ)
  | retry (id : ℕ)
  | next
  | review (id : ℕ)

namespace Claim

def admits (now : ℕ) (r : Record) : Claim → Bool
  | .pending id => r.id == id && r.importStatus == .pendingAutoImport
  | .retry id => r.id == id && r.importStatus == .retry && r.due now
  | .next => (r.importStatus == .pendingAutoImport || r.importStatus == .retry) && r.due now
  | .review id => r.id == id && r.mappingReview

def takeUp (now : ℕ) (c : Claim) (r : Record) : Record :=
  { r with
    importStatus := .processing
    reviewReason :=
      match c with
      | .review _ => none
      | _ => r.reviewReason
    updatedAt := now }

@[simp] theorem takeUp_connector (now : ℕ) (c : Claim) (r : Record) :
    (c.takeUp now r).connector = r.connector := rfl

end Claim

def Store.takeUp (s : Store) (c : Claim) (r : Record) : Store :=
  { s with records := s.records.update r.connector (c.takeUp s.now) (c.takeUp_connector s.now) }

theorem Store.mem_takeUp {c : Claim} {r : Record} (hr : r ∈ s.records) :
    x ∈ (s.takeUp c r).records ↔
      (x ∈ s.records ∧ x.connector ≠ r.connector) ∨ x = c.takeUp s.now r := by
  simp only [takeUp, Collection.mem_update]
  refine or_congr Iff.rfl ⟨?_, fun h => ⟨r, hr, rfl, h⟩⟩
  rintro ⟨y, hy, hk, rfl⟩
  rw [Collection.eq_of_key hy hr hk]

/-- `process_event` for an event that is not a cancellation, up to its import record. -/
inductive IngestPc where
  | read
  | find (m : Mapped)
  | upsert (found : Bool) (m : Mapped)
  | check (m : Mapped)
  | insert (m : Mapped)

/-- `process_event` for a cancellation. -/
inductive CancelPc where
  | read
  | write (copy : Lineage)
  | releaseHold
  | booking
  | record
  | durable

/-- `replay_reviewed_mapping_import` up to its claim. -/
inductive ReplayPc where
  | check
  | find
  | lineage
  | classify (copy : Lineage)
  | insert (copy : Lineage) (m : Mapped)
  | refind
  | hold (r : Record)
  | mapping (r : Record)

inductive Thread where
  | ingest (connector : ℕ) (x : Snapshot) (pc : IngestPc)
  | cancel (pc : CancelPc)
  | replay (pc : ReplayPc)
  | claim (c : Claim)
  | attempt (pc : AttemptPc)
  | done

inductive Call where
  | ingest (connector : ℕ) (x : Snapshot)
  | cancel
  | importOne (id : ℕ)
  | work
  | replay

def Thread.start : Call → Thread
  | .ingest connector x => .ingest connector x .read
  | .cancel => .cancel .read
  | .importOne id => .claim (.pending id)
  | .work => .claim .next
  | .replay => .replay .check

def alreadyImported (s : Store) (connector : ℕ) : Bool :=
  s.records.any fun r => r.connector == connector &&
    (r.importStatus == .imported || r.importStatus == .processing ||
      r.importStatus == .pendingAutoImport)

/-- One operation of the ingest. A reservation without a lineage is created, for a new
mapping review as well; with a lineage, a repeated event or a mapping review gets to the
import, which `o.ok` says. -/
def ingestStep (s : Store) (o : Outside) (connector : ℕ) (x : Snapshot) :
    IngestPc → Store × Thread
  | .read =>
    match s.lineage with
    | none => (s, .ingest connector x (.find o.mapped))
    | some _ => (s, if o.ok then .ingest connector x (.check o.mapped) else .done)
  | .find m => (s, .ingest connector x (.upsert s.lineage.isSome m))
  | .upsert found m =>
    -- an insert beside a lineage that came in between meets the unique index
    if s.lineage.isSome && !found then (s, .done)
    else ({ s with lineage := some { snapshot := x } }, .ingest connector x (.check m))
  | .check m => (s, if alreadyImported s connector then .done else .ingest connector x (.insert m))
  | .insert m =>
    ((s.insertRecord connector x (classifyForImport m false x)).getD s, .done)

/-- One operation of the cancellation; `o.ok` says whether the lease on the lineage was
taken and kept. -/
def cancelStep (s : Store) (o : Outside) : CancelPc → Store × Thread
  | .read =>
    match s.lineage with
    | some l => (s, .cancel (.write l))
    | none => (s, .done)
  | .write copy =>
    if o.ok then
      ({ s with lineage := some { copy with cancelled := true }, cancelApplied := true },
        .cancel .releaseHold)
    else (s, .done)
  | .releaseHold => (s, .cancel .booking)
  | .booking => (s.cancelBooking, .cancel .record)
  | .record =>
    match s.records.findOne fun _ => true with
    | some r =>
      (s.setRecord r.id fun x => { x with cancelled := true, updatedAt := s.now }, .cancel .durable)
    | none => (s, .cancel .durable)
  | .durable => (s, .done)

def replayFound (r : Record) : Thread := if r.mappingReview then .replay (.hold r) else .done

/-- One operation of the replay before its claim; `o.ok` says whether the hold and its
alarm were made. A lineage names no connection, so the record that is rebuilt from it
gets the blank connector. -/
def replayStep (s : Store) (o : Outside) : ReplayPc → Store × Thread
  | .check => (s, if s.bookingSource.isSome then .done else .replay .find)
  | .find =>
    match s.records.findOne fun _ => true with
    | some r => (s, replayFound r)
    | none => (s, .replay .lineage)
  | .lineage =>
    match s.lineage with
    | some l => (s, .replay (.classify l))
    | none => (s, .done)
  | .classify l => (s, .replay (.insert l o.mapped))
  | .insert l m =>
    match s.insertRecord 0 l.snapshot (classifyForImport m l.cancelled l.snapshot) with
    | some s' => (s', ((s'.records.get? 0).map replayFound).getD .done)
    | none => (s, .replay .refind)
  | .refind =>
    match s.records.findOne fun _ => true with
    | some r => (s, replayFound r)
    | none => (s, .done)
  | .hold r => (s, if o.ok then .replay (.mapping r) else .done)
  | .mapping r =>
    (s, if r.snapshot.roomUnmapped o.mapped || r.snapshot.rateUnmapped o.mapped then .done
      else .claim (.review r.id))

/-- A claim of the oldest record that it admits, and the attempt on its document after the
update. A direct import looks for a due retry after it found nothing pending. -/
def claimStep (s : Store) (c : Claim) : Store × Thread :=
  match s.records.findOne fun r => c.admits s.now r with
  | some r => (s.takeUp c r, .attempt (.start (c.takeUp s.now r)))
  | none =>
    match c with
    | .pending id => (s, .claim (.retry id))
    | _ => (s, .done)

/-- One operation of a call. A failure to release the hold does not stop a
cancellation. -/
def Thread.step (s : Store) : Thread → Move → Option (Store × Thread)
  | .attempt pc, m => (pc.step s m).map fun r => (r.1, .attempt r.2)
  | .done, _ => none
  | .ingest connector x pc, .advance o => some (ingestStep s o connector x pc)
  | .cancel pc, .advance o => some (cancelStep s o pc)
  | .replay pc, .advance o => some (replayStep s o pc)
  | .claim c, .advance _ => some (claimStep s c)
  | .cancel .releaseHold, .raise _ => some (s, .cancel .booking)
  | _, .raise _ | _, .crash => some (s, .done)

/-- What happens beside the calls: time passes, the worker recovers stuck records, an
update event is written to the lineage. -/
inductive Env where
  | tick (seconds : ℕ)
  | recoverStuck
  | update (x : Snapshot)

def Store.env (s : Store) : Env → Store
  | .tick n => { s with now := s.now + n }
  | .recoverStuck => s.recoverStuck
  | .update x => { s with lineage := s.lineage.map fun l => { l with snapshot := x, cancelled := false } }

/-- The calls for one reservation. A run starts before its first event. -/
def calls : Program Store Thread Env Call Move where
  init s := s.lineage = none ∧ s.cancelApplied = false ∧ s.records.rows = [] ∧ s.bookings = [] ∧
    s.outbox = []
  env s e := some (s.env e)
  call _ c := some (.start c)
  step _ s t m := t.step s m

def emptyStore : Store where
  lineage := none
  cancelApplied := false
  records := .empty
  bookings := []
  outbox := []
  now := 0
  nextId := 0

theorem emptyStore_init : calls.machine.init ⟨emptyStore, []⟩ :=
  ⟨⟨rfl, rfl, rfl, rfl, rfl⟩, rfl⟩

/-- The next operation of thread `k`, `n` times, with the outside as it is by default. -/
def operations (k n : ℕ) : List (Act Env Call Move) := .replicate n (.step k (.advance {}))

end SyrocePms.Import
