import Mathlib.Algebra.Order.Ring.Unbundled.Rat
import SyrocePms.Lib.Threads

/-! The decision engine of the ingest pipeline: the normalised event, the lineage of a
reservation, and what is decided about an event on a copy of the lineage. Versions and
texts are numbers; zero is the blank text. -/

namespace SyrocePms.Ingest

variable {mapped : Bool}

inductive ReservationState where
  | pending
  | confirmed
  | modified
  | cancelled
  | checkedIn
  | checkedOut
  | noShow
  deriving DecidableEq

def stateTransitions : ReservationState → List ReservationState
  | .pending => [.confirmed, .cancelled]
  | .confirmed => [.modified, .cancelled, .checkedIn, .noShow]
  | .modified => [.confirmed, .modified, .cancelled, .checkedIn, .noShow]
  | .checkedIn => [.checkedOut]
  | .cancelled => [.confirmed]
  | .checkedOut => []
  | .noShow => []

def isValidTransition (old new : ReservationState) : Bool :=
  old == new || (stateTransitions old).contains new

/-- The status of a normalised event: a canonical state or another text. -/
inductive ProviderStatus where
  | state (s : ReservationState)
  | other (text : ℕ)
  deriving DecidableEq

def mapToCanonicalState : ProviderStatus → ReservationState
  | .state s => s
  | .other _ => .confirmed

/-- The fields that the canonical hash covers beside the status. -/
structure Details where
  checkIn : ℕ := 0
  checkOut : ℕ := 0
  roomTypeCode : ℕ := 0
  providerRoomNumber : ℕ := 0
  ratePlanCode : ℕ := 0
  adults : ℕ := 1
  children : ℕ := 0
  totalAmount : ℚ := 0
  guestEmail : ℕ := 0
  providerNote : ℕ := 0
  deriving DecidableEq

/-- The fields that are stored but not hashed. -/
structure Unhashed where
  guestName : ℕ := 0
  guestPhone : ℕ := 0
  currency : ℕ := 1
  deriving DecidableEq

/-- A normalised event. `version` is `provider_last_modified_at`, which is also the
`provider_version` of the event. -/
structure Canonical where
  version : ℕ
  status : ProviderStatus := .state .confirmed
  details : Details := {}
  unhashed : Unhashed := {}

namespace Canonical

def isCancelled (c : Canonical) : Bool := c.status == .state .cancelled

def hash (c : Canonical) : ProviderStatus × Details := (c.status, c.details)

end Canonical

structure LineageLock where
  owner : ℕ
  expiresAt : ℕ
  deriving DecidableEq

/-- The lineage of a reservation. `version` is `provider_version` and
`provider_last_modified`, which are always written together. -/
structure Lineage where
  id : ℕ
  version : ℕ
  hash : ProviderStatus × Details
  details : Details
  unhashed : Unhashed
  status : ReservationState
  lock : Option LineageLock := none
  deriving DecidableEq

inductive IngestDecision where
  | create
  | update
  | cancel
  | skipSameHash
  | skipStale
  | pendingMapping
  | manualReview
  deriving DecidableEq

/-- `_check_anomalies`: another currency, or an amount more than doubled or less than
halved. -/
def checkAnomalies (c : Canonical) (l : Lineage) : Bool :=
  (l.unhashed.currency != 0 && c.unhashed.currency != 0 &&
    l.unhashed.currency != c.unhashed.currency) ||
  (decide (0 < l.details.totalAmount) && decide (0 < c.details.totalAmount) &&
    (decide (2 * l.details.totalAmount < c.details.totalAmount) ||
      decide (2 * c.details.totalAmount < l.details.totalAmount)))

/-- The incoming version is not after that of the lineage. Blank versions are never
compared. -/
def staleVersion (version : ℕ) (l : Lineage) : Bool :=
  version != 0 && l.version != 0 && decide (version ≤ l.version)

/-- `decide`, where `mapped` is the answer of the two mapping validations. -/
def decideEvent (c : Canonical) (existing : Option Lineage) (mapped : Bool) : IngestDecision :=
  if c.isCancelled then .cancel
  else if !mapped then .pendingMapping
  else match existing with
    | none => .create
    | some l =>
      if l.hash = c.hash then .skipSameHash
      else if staleVersion c.version l then .skipStale
      else if checkAnomalies c l then .manualReview
      else if isValidTransition l.status (mapToCanonicalState c.status) then .update
      else .manualReview

/-! ### What is written -/

/-- The document of `_create_lineage`, whose lock fields are blank. -/
def createdLineage (id : ℕ) (c : Canonical) : Lineage where
  id := id
  version := c.version
  hash := c.hash
  details := c.details
  unhashed := c.unhashed
  status := .confirmed

def updatedLineage (copy : Lineage) (c : Canonical) (stored : Lineage) : Lineage :=
  { copy with
    version := c.version
    hash := c.hash
    details := c.details
    unhashed := c.unhashed
    status := .modified
    lock := stored.lock }

/-- The copy as `_cancel_lineage` changes it, over the stored lock. The version of the
cancellation is not written. -/
def cancelledLineage (copy stored : Lineage) : Lineage :=
  { copy with status := .cancelled, lock := stored.lock }

/-- The lineage shows the event: it is cancelled, or it is active with the fields of the
event. -/
def Carries (l : Lineage) (c : Canonical) : Prop :=
  if c.isCancelled then l.status = .cancelled
  else l.status ≠ .cancelled ∧ l.details = c.details ∧ l.unhashed = c.unhashed

instance (l : Lineage) (c : Canonical) : Decidable (Carries l c) := by
  unfold Carries
  infer_instance

variable {c : Canonical} {existing : Option Lineage}

theorem decideEvent_cancel : decideEvent c existing mapped = .cancel ↔ c.isCancelled = true := by
  unfold decideEvent
  split
  · simp_all
  · rename_i hc
    constructor
    · intro h
      split at h
      · cases h
      · split at h
        · cases h
        · repeat' split at h
          all_goals cases h
    · exact fun h => absurd h hc

/-- Every decision but a cancellation is about an active event. -/
theorem not_cancelled (h : decideEvent c existing mapped ≠ .cancel) : c.isCancelled = false :=
  Bool.eq_false_iff.mpr fun hc => h (decideEvent_cancel.mpr hc)

theorem decideEvent_skipStale (h : decideEvent c existing mapped = .skipStale) :
    ∃ l, existing = some l ∧ c.version ≤ l.version := by
  unfold decideEvent at h
  split at h
  · cases h
  · split at h
    · cases h
    · split at h
      · cases h
      · rename_i l
        split at h
        · cases h
        · split at h
          · rename_i hs
            simp only [staleVersion, Bool.and_eq_true, decide_eq_true_eq] at hs
            exact ⟨l, rfl, hs.2⟩
          · repeat' split at h
            all_goals cases h

theorem carries_created (id : ℕ) (h : c.isCancelled = false) : Carries (createdLineage id c) c := by
  unfold Carries
  rw [if_neg (by simp [h])]
  exact ⟨by simp [createdLineage], rfl, rfl⟩

theorem carries_updated (copy stored : Lineage) (h : c.isCancelled = false) :
    Carries (updatedLineage copy c stored) c := by
  unfold Carries
  rw [if_neg (by simp [h])]
  exact ⟨by simp [updatedLineage], rfl, rfl⟩

theorem carries_cancelled (copy stored : Lineage) (h : c.isCancelled = true) :
    Carries (cancelledLineage copy stored) c := by
  unfold Carries
  rw [if_pos h]
  rfl

end SyrocePms.Ingest

/-! `process_event` for the events of one reservation, one database operation at a time:
the duplicate checks, the read of the lineage, the decision on that copy, the lease, and
the write of the whole copy under the lease. The thread number is the owner token. -/

namespace SyrocePms.Ingest

open Lib

def lockTtlSeconds : ℕ := 30

structure RawEvent where
  canonical : Canonical
  providerEventId : ℕ
  payloadHash : ℕ
  replayOfFailed : Bool := false

inductive IngestAnswer where
  | created
  | updated
  | cancelled
  | skippedSameHash
  | skippedStale
  | stale
  | duplicate
  | cancelledUnknown
  | pendingMapping
  | manualReview
  | retryLater
  | failed
  deriving DecidableEq

namespace IngestAnswer

def processed : IngestAnswer → Bool
  | .created | .updated | .cancelled | .skippedSameHash | .skippedStale => true
  | _ => false

/-- The decision was carried out, or the event was found to be stale: it was not sent to
review, not put back and not answered before. -/
def settled (a : IngestAnswer) : Bool := a.processed || a == .stale

end IngestAnswer

/-- The two decisions that are carried out under the lease. -/
inductive LockedDecision where
  | update
  | cancel
  deriving DecidableEq

inductive IngestPc where
  | dedup
  | read
  | decide (copy : Option Lineage)
  | acquire (copy : Lineage) (d : LockedDecision)
  | write (copy : Lineage) (d : LockedDecision)
  | find (answer : IngestAnswer)
  | upsert (found : Option ℕ) (answer : IngestAnswer)
  | after (lineage : Option ℕ) (answer : IngestAnswer)
  | finalize (lineage : Option ℕ) (answer : IngestAnswer)
  | release (lineage : Option ℕ) (answer : IngestAnswer)
  | returned (answer : IngestAnswer)
  | crashed

namespace IngestPc

def ended : IngestPc → Bool
  | .returned _ | .crashed => true
  | _ => false

/-- The lineage whose lease the call believes to hold. -/
def leased : IngestPc → Option ℕ
  | .write copy _ => some copy.id
  | .after l _ | .finalize l _ | .release l _ => l
  | _ => none

/-- Control when the current operation raises: the event is marked as failed. -/
def raised : IngestPc → IngestPc
  | .finalize l .failed => .release l .failed
  | .finalize l _ => .finalize l .failed
  | .release _ a => .returned a
  | pc => .finalize pc.leased .failed

end IngestPc

structure Finalized where
  providerEventId : ℕ
  payloadHash : ℕ
  answer : IngestAnswer

/-- `applied` logs the events that the lineage was made to show, newest first: those that
were written, and those that were skipped for their hash while nothing newer was applied.
`unversioned` logs the versions of the cancellations and of these skips, which leave no
trace in the version of the lineage. Nothing branches on the two logs. -/
structure Store where
  lineage : Option Lineage
  finalized : List Finalized
  now : ℕ
  nextId : ℕ
  applied : List Canonical
  unversioned : List ℕ

namespace Store

/-- The event becomes the last one applied. -/
def apply (s : Store) (c : Canonical) (l : Lineage) : Store :=
  { s with
    lineage := some l
    applied := c :: s.applied
    unversioned := if c.isCancelled then c.version :: s.unversioned else s.unversioned }

/-- Nothing newer was applied. -/
def isNewest (s : Store) (c : Canonical) : Bool := s.applied.all fun x => x.version ≤ c.version

def noteSkip (s : Store) (c : Canonical) : Store :=
  if s.isNewest c then
    { s with applied := c :: s.applied, unversioned := c.version :: s.unversioned }
  else s

/-- `check_provider_event_exists` and `check_payload_hash_exists`. -/
def seen (s : Store) (e : RawEvent) : Bool :=
  s.finalized.any fun f =>
    (f.providerEventId == e.providerEventId && (f.answer.processed || f.answer == .duplicate)) ||
    (f.payloadHash == e.payloadHash && f.answer.processed)

def leaseHeld (s : Store) (k id : ℕ) : Bool :=
  s.lineage.any fun l => l.id == id && l.lock.any fun x => x.owner == k && decide (s.now ≤ x.expiresAt)

end Store

/-- What a step cannot foresee: the answer of the mapping validations, whether the
services after the write answer, and whether the cancellation was durable. -/
structure Outside where
  mapped : Bool := true
  ok : Bool := true

def decided (copy : Option Lineage) : IngestDecision → IngestPc
  | .create => .find .created
  | .update =>
    match copy with
    | some l => .acquire l .update
    | none => .finalize none .failed
  | .cancel =>
    match copy with
    | some l => .acquire l .cancel
    | none => .after none .cancelledUnknown
  | .skipSameHash => .after none .skippedSameHash
  | .skipStale => .after none .skippedStale
  | .pendingMapping =>
    match copy with
    | some _ => .after none .pendingMapping
    | none => .find .pendingMapping
  | .manualReview => .after none .manualReview

def writeStep (k : ℕ) (s : Store) (e : RawEvent) (lost : Bool) (copy : Lineage)
    (d : LockedDecision) : Store × IngestPc :=
  match s.lineage with
  | some l =>
    if !lost && s.leaseHeld k copy.id then
      match d with
      | .update =>
        (s.apply e.canonical (updatedLineage copy e.canonical l), .after (some copy.id) .updated)
      | .cancel =>
        (s.apply e.canonical (cancelledLineage copy l), .after (some copy.id) .cancelled)
    else (s, .finalize (some copy.id) .retryLater)
  | none => (s, .finalize (some copy.id) .retryLater)

/-- `upsert_reservation_lineage` after its read: an update of whatever lineage there is
under the id that was found, or an insert under the unique index. -/
def upsertStep (s : Store) (c : Canonical) (found : Option ℕ) (a : IngestAnswer) :
    Store × IngestPc :=
  let created := createdLineage s.nextId c
  match found, s.lineage with
  | some id, some l =>
    if l.id = id then
      ({ s.apply c created with nextId := s.nextId + 1 }, .after none a)
    else (s, .after none a)
  | none, none => ({ s.apply c created with nextId := s.nextId + 1 }, .after none a)
  | some _, none => (s, .after none a)
  | none, some _ => (s, .finalize none .failed)

/-- One operation of `process_event` by thread `k`; `lost` is the flag of the lease
keeper. -/
def ingestStep (k : ℕ) (s : Store) (e : RawEvent) (lost : Bool) (o : Outside) :
    IngestPc → Option (Store × IngestPc)
  | .dedup =>
    if !e.replayOfFailed && s.seen e then some (s, .finalize none .duplicate)
    else some (s, .read)
  | .read =>
    match s.lineage with
    | some l =>
      if !e.replayOfFailed && staleVersion e.canonical.version l then
        some (s, .finalize none .stale)
      else some (s, .decide (some l))
    | none => some (s, .decide none)
  | .decide copy =>
    let d := decideEvent e.canonical copy o.mapped
    some (if d = .skipSameHash then s.noteSkip e.canonical else s, decided copy d)
  | .acquire copy d =>
    match s.lineage with
    | some l =>
      if l.id = copy.id && l.lock.all fun x => decide (x.expiresAt < s.now) then
        some ({ s with lineage := some { l with lock := some ⟨k, s.now + lockTtlSeconds⟩ } },
          .write copy d)
      else some (s, .finalize none .retryLater)
    | none => some (s, .finalize none .retryLater)
  | .write copy d => some (writeStep k s e lost copy d)
  | .find a => some (s, .upsert (s.lineage.map Lineage.id) a)
  | .upsert found a => some (upsertStep s e.canonical found a)
  | .after l a =>
    if lost && a == .cancelled then some (s, .finalize l .retryLater)
    else if o.ok then some (s, .finalize l a) else some (s, .finalize l .failed)
  | .finalize l a =>
    some ({ s with finalized := ⟨e.providerEventId, e.payloadHash, a⟩ :: s.finalized },
      .release l a)
  | .release l a =>
    match l with
    | none => some (s, .returned a)
    | some id =>
      some ({ s with lineage := s.lineage.map fun x =>
        if x.id = id && x.lock.any (fun y => y.owner == k) then { x with lock := none } else x },
        .returned a)
  | .returned _ | .crashed => none

/-- A call for an event, with the flag of its lease keeper. -/
structure Thread where
  event : RawEvent
  lost : Bool := false
  pc : IngestPc := .dedup

inductive Move where
  | advance (o : Outside)
  | raise
  | crash
  | heartbeat (ok : Bool)

def extendReservationLock (k : ℕ) (s : Store) (id : ℕ) : Store :=
  { s with lineage := s.lineage.map fun l =>
    if l.id = id && s.leaseHeld k id then { l with lock := some ⟨k, s.now + lockTtlSeconds⟩ }
    else l }

def Thread.step (k : ℕ) (s : Store) (t : Thread) : Move → Option (Store × Thread)
  | .advance o =>
    (ingestStep k s t.event t.lost o t.pc).map fun r => (r.1, { t with pc := r.2 })
  | .raise => if t.pc.ended then none else some (s, { t with pc := t.pc.raised })
  | .crash => if t.pc.ended then none else some (s, { t with pc := .crashed })
  | .heartbeat ok =>
    t.pc.leased.map fun id =>
      if !t.lost && ok && s.leaseHeld k id then (extendReservationLock k s id, t)
      else (s, { t with lost := true })

/-- The calls for the events of one reservation. A run starts before its first event;
beside the calls only time passes. -/
def calls : Program Store Thread Unit RawEvent Move where
  init s := s.lineage = none ∧ s.applied = [] ∧ s.unversioned = []
  env s _ := some { s with now := s.now + 1 }
  call _ e := some { event := e }
  step k s t m := t.step k s m

def emptyStore : Store where
  lineage := none
  finalized := []
  now := 0
  nextId := 0
  applied := []
  unversioned := []

theorem emptyStore_init : calls.machine.init ⟨emptyStore, []⟩ := ⟨⟨rfl, rfl, rfl⟩, rfl⟩

end SyrocePms.Ingest
