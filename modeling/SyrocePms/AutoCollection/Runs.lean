import SyrocePms.CardCollection.Alone

/-! The bookings that autonomous collection reads, and the candidates of a day: open balances on
the day of check-in, and posted no-show fees. Amounts are in minor units, days are numbers. -/

namespace SyrocePms.AutoCollection

open Lib

/-- `CHARGE_KIND_VCC_CHECKIN` and `CHARGE_KIND_NO_SHOW`. -/
inductive Kind
  | vccCheckin
  | noShow
  deriving DecidableEq

namespace Kind

/-- The `collection_kind` of the intents. -/
def tag : Kind → ℕ
  | .vccCheckin => 0
  | .noShow => 1

/-- `autocollect:{kind}`. Other callers have scopes from 2 on. -/
def scope : Kind → ℕ := tag

/-- `PREPAYMENT` and `FINAL`. -/
def paymentType : Kind → ℕ
  | .vccCheckin => 0
  | .noShow => 1

theorem scope_lt (kind : Kind) : kind.scope < 2 := by
  cases kind <;> decide

end Kind

inductive BookingStatus
  | confirmed
  | guaranteed
  | checkedIn
  | noShow
  | other
  deriving DecidableEq

/-- `VCC_CHECKIN_STATUSES`. -/
def BookingStatus.mayCheckIn : BookingStatus → Bool
  | .confirmed | .guaranteed | .checkedIn => true
  | .noShow | .other => false

/-- A `no_show_fee` of `folio_charges`. -/
structure Fee where
  folio : ℕ
  total : Option ℤ
  amount : Option ℤ
  isVoided : Bool := false

/-- A total of zero counts as missing. -/
def Fee.value (f : Fee) : ℤ :=
  match f.total with
  | some (.ofNat 0) | none => f.amount.getD 0
  | some total => total

structure GuestFolio where
  id : ℕ
  currency : Option ℕ

/-- What the front desk and the night audit write: the open guest folio, the card in the vault
and the fees among it. -/
structure Front where
  status : BookingStatus
  checkIn : ℤ
  currency : Option ℕ := none
  card : Option ℕ := none
  guestFolio : Option GuestFolio := none
  fees : List Fee := []

/-- The values of `autocollect_{kind}_status`; with one of them the kind is done. -/
inductive MarkerStatus
  | collected
  | unrecorded
  | abandoned
  deriving DecidableEq

inductive JobStatus
  | succeeded
  | reconcile
  | requiresAction
  | unrecorded
  | failed
  | unknown
  | notConfigured

inductive ErrorCode
  | intent (st : CardCollection.IntentStatus)
  | requiresAction
  | recordFailed
  | payloadMismatch
  | provider
  | notConfigured

/-- A job of the operator's queue. `attempts` is missing until a failure counts. -/
structure Job where
  status : JobStatus
  resolved : Bool
  error : Option ErrorCode
  attempts : Option ℕ := none

/-- A booking with its markers, its jobs and the documents of its collections under the key that
is its own id. `calls` is the number of collections so far, the source of uuids. -/
structure Booking where
  id : ℕ
  front : Front
  ledger : CardCollection.Store
  marker : Kind → Option MarkerStatus := fun _ => none
  job : Kind → Option Job := fun _ => none
  calls : ℕ := 0

structure Candidate where
  kind : Kind
  booking : ℕ
  folio : ℕ
  vault : ℕ
  amount : ℤ
  currency : ℕ

structure Settings where
  maxAttempts : ℕ
  lookbackDays : ℕ
  turkishLira : ℕ

namespace Booking

variable (b : Booking)

def postedNoShowFee (folio : ℕ) : ℤ :=
  ((b.front.fees.filter fun f => f.folio = folio && !f.isVoided).map Fee.value).sum

def balance (folio : ℕ) : ℤ := ((b.ledger.folios.get? folio).map CardCollection.Folio.balance).getD 0

/-- What is open for a kind: the balance, or the part of it that is a posted no-show fee. -/
def amountDue (kind : Kind) (folio : ℕ) : Option ℤ :=
  match kind with
  | .vccCheckin => if b.balance folio ≤ 0 then none else some (b.balance folio)
  | .noShow =>
    let fee := b.postedNoShowFee folio
    if fee ≤ 0 then none
    else if min fee (b.balance folio) ≤ 0 then none
    else some (min fee (b.balance folio))

def buildCandidate (settings : Settings) (kind : Kind) : Option Candidate :=
  match b.front.card, b.front.guestFolio with
  | some card, some folio =>
    (b.amountDue kind folio.id).map fun amount =>
      { kind
        booking := b.id
        folio := folio.id
        vault := card
        amount
        currency := (b.front.currency <|> folio.currency).getD settings.turkishLira }
  | _, _ => none

/-- The queries of `_gather_candidates`. -/
def selects (settings : Settings) (day : ℤ) (kind : Kind) : Bool :=
  (match kind with
    | .vccCheckin => b.front.checkIn = day && b.front.status.mayCheckIn
    | .noShow => b.front.status = .noShow && day - settings.lookbackDays ≤ b.front.checkIn) &&
  (b.marker kind).isNone

end Booking

def gatherCandidates (settings : Settings) (bookings : List Booking) (day : ℤ) : List Candidate :=
  let ofKind kind := (bookings.filter fun b => b.selects settings day kind).filterMap fun b =>
    b.buildCandidate settings kind
  ofKind .vccCheckin ++ ofKind .noShow

/-! Runs of autonomous collection. A run gathers its candidates and processes them one by one;
between two of them the hotel goes on: bookings, folios and fees change, locks expire, and other
callers collect under the same key. -/

def mayHaveTaken : CardCollection.IntentStatus → Bool
  | .pending | .requiresAction | .unknown | .completed | .completedUnrecorded => true
  | .failed => false

theorem mayHaveTaken_eq_true {st : CardCollection.IntentStatus} : mayHaveTaken st = true ↔ st ≠ .failed := by
  cases st <;> decide

inductive Counter
  | charged
  | failed
  | skipped
  | requiresAction
  | unrecorded
  | notConfigured
  deriving DecidableEq

structure Summary where
  scanned : ℕ
  counts : Counter → ℕ := fun _ => 0

def Summary.add (s : Summary) (c : Counter) (n : ℕ) : Summary :=
  { s with counts := Function.update s.counts c (s.counts c + n) }

namespace Booking

variable (b : Booking)

def markBookingDone (kind : Kind) (st : MarkerStatus) : Booking :=
  { b with marker := Function.update b.marker kind (some st) }

def upsertJob (kind : Kind) (st : JobStatus) (resolved : Bool) (error : Option ErrorCode) (incAttempts : Bool) :
    Booking :=
  let attempts := (b.job kind).bind Job.attempts
  { b with job := Function.update b.job kind (some
      { status := st, resolved, error, attempts := if incAttempts then some (attempts.getD 0 + 1) else attempts }) }

def takenIntent (kind : Kind) : Option CardCollection.Intent :=
  b.ledger.intents.findOne fun i => i.kind = some kind.tag && mayHaveTaken i.status

def attempts (kind : Kind) : ℕ := ((b.job kind).bind Job.attempts).getD 1

/-- A failure goes to the operator's queue, and after the last attempt the kind is abandoned. -/
def fail (settings : Settings) (kind : Kind) (st : JobStatus) (error : ErrorCode) : Booking :=
  let failed := b.upsertJob kind st false (some error) true
  if settings.maxAttempts ≤ failed.attempts kind then failed.markBookingDone kind .abandoned else failed

def applyOutcome (settings : Settings) (kind : Kind) : CardCollection.Outcome → Booking × Counter
  | .paid _ => (b, .charged)
  | .replay _ => (b.markBookingDone kind .collected, .charged)
  | .inFlight _ => (b, .skipped)
  | .requiresAction _ _ => (b.upsertJob kind .requiresAction false (some .requiresAction) false, .requiresAction)
  | .paidUnrecorded _ =>
    ((b.markBookingDone kind .unrecorded).upsertJob kind .unrecorded false (some .recordFailed) false, .unrecorded)
  | .mismatch => (b.fail settings kind .failed .payloadMismatch, .failed)
  | .refused _ => (b.fail settings kind .failed .provider, .failed)
  | .unknown _ => (b.fail settings kind .unknown .provider, .failed)
  | .notConfigured => (b.fail settings kind .notConfigured .notConfigured, .failed)

/-- `_on_success`, which is committed with the payment. -/
def onSuccess (kind : Kind) : Booking :=
  (b.markBookingDone kind .collected).upsertJob kind .succeeded true none false

end Booking

def Candidate.call (c : Candidate) : CardCollection.Call where
  scope := c.kind.scope
  request := ⟨c.folio, c.amount, c.currency, c.vault, c.kind.paymentType⟩
  kind := some c.kind.tag

/-- The call is alone, and it was given its provider. -/
def Candidate.collect (c : Candidate) (o : CardCollection.Chance) (b : Booking) :
    CardCollection.Store × CardCollection.Pc × List CardCollection.Event :=
  CardCollection.callAlone b.calls c.call { o with configured := true } b.ledger

def isRecorded (o : CardCollection.Chance) : CardCollection.Outcome → Bool
  | .paid _ => true
  | .paidUnrecorded _ => o.commit = .ambiguous
  | _ => false

def chargesOf (amount : ℤ) (es : List CardCollection.Event) : List ℤ :=
  es.filterMap fun
    | .charged _ => some amount
    | _ => none

def processCandidate (settings : Settings) (b : Booking) (c : Candidate) (o : CardCollection.Chance) :
    Booking × Counter × List ℤ :=
  match b.takenIntent c.kind with
  | some i =>
    (if i.status = .completed then b.onSuccess c.kind
      else b.upsertJob c.kind .reconcile false (some (.intent i.status)) false, .skipped, [])
  | none =>
    let r := c.collect o b
    let collected := { b with ledger := r.1, calls := b.calls + 1 }
    let charges := chargesOf c.call.request.amount r.2.2
    match r.2.1 with
    | .returned out =>
      let done := (if isRecorded o out then collected.onSuccess c.kind else collected).applyOutcome settings c.kind out
      (done.1, done.2, charges)
    | _ => (collected, .skipped, charges)

/-! ### The machine -/

/-- The bookings of a tenant, the candidates that the run has left, and its summary. -/
structure Tenant where
  bookings : Collection Booking Booking.id
  pending : List Candidate := []
  summary : Summary := ⟨0, fun _ => 0⟩

inductive Action
  | book (id : ℕ) (front : Front)
  | edit (id : ℕ) (front : Front) (folios : Collection CardCollection.Folio CardCollection.Folio.id)
      (payments : List CardCollection.Payment) (paidAmount : ℤ)
  | expire (id scope : ℕ)
  | collect (id : ℕ) (c : CardCollection.Call) (o : CardCollection.Chance)
  | start (day : ℤ) (configured : Bool)
  | process (o : CardCollection.Chance)
  | raise

def newLedger : CardCollection.Store := ⟨.empty, .empty, [], .empty, 0⟩

def Booking.edit (front : Front) (folios : Collection CardCollection.Folio CardCollection.Folio.id)
    (payments : List CardCollection.Payment) (paidAmount : ℤ) (b : Booking) : Booking :=
  { b with front, ledger := { b.ledger with folios, payments, paidAmount } }

def Booking.expire (scope : ℕ) (b : Booking) : Booking := { b with ledger := b.ledger.dropLock scope }

/-- A collection of another caller, such as the front desk. -/
def Booking.collect (c : CardCollection.Call) (o : CardCollection.Chance) (b : Booking) : Booking :=
  { b with ledger := (CardCollection.callAlone b.calls c o b.ledger).1, calls := b.calls + 1 }

/-- A candidate of a run without a provider. -/
def Booking.notConfigured (kind : Kind) (b : Booking) : Booking :=
  b.upsertJob kind .notConfigured false (some .notConfigured) true

namespace Tenant

variable (t : Tenant)

theorem keep_id (f : Booking → Booking) (b : Booking) : { f b with id := b.id }.id = b.id := rfl

def update (id : ℕ) (f : Booking → Booking) : Tenant :=
  { t with bookings := t.bookings.update id (fun b => { f b with id := b.id }) (keep_id f) }

/-- The head of `run_autonomous_collection`. -/
def start (settings : Settings) (day : ℤ) (configured : Bool) : Tenant :=
  let candidates := gatherCandidates settings t.bookings.rows day
  let scanned := { t with summary := ⟨candidates.length, fun _ => 0⟩ }
  if configured then { scanned with pending := candidates }
  else
    let queued := candidates.foldl (fun t c => t.update c.booking (Booking.notConfigured c.kind)) scanned
    { queued with summary := queued.summary.add .notConfigured candidates.length }

end Tenant

def step (settings : Settings) (t : Tenant) : Action → Option Tenant
  | .book id front => (t.bookings.insertOne ⟨id, front, newLedger, fun _ => none, fun _ => none, 0⟩).map fun bookings =>
      { t with bookings }
  | .edit id front folios payments paidAmount => some (t.update id (Booking.edit front folios payments paidAmount))
  | .expire id scope => some (t.update id (Booking.expire scope))
  | .collect id c o => if c.kind = none ∧ 2 ≤ c.scope then some (t.update id (Booking.collect c o)) else none
  | .start day configured => if t.pending.isEmpty then some (t.start settings day configured) else none
  | .process o =>
    match t.pending with
    | [] => none
    | c :: rest =>
      match t.bookings.get? c.booking with
      | none => some { t with pending := rest }
      | some b =>
        let r := processCandidate settings b c o
        some { t.update c.booking fun b => (processCandidate settings b c o).1 with
          pending := rest, summary := t.summary.add r.2.1 1 }
  | .raise => some { t with pending := [] }

def collections (settings : Settings) : Machine Tenant Action where
  init t := t.bookings = .empty ∧ t.pending = []
  step := step settings

/-- A processed candidate: whether an intent of its kind may have taken money, whether one of
another kind or caller may have, what the provider would answer, and what it was asked to
charge. -/
structure Entry where
  booking : ℕ
  kind : Kind
  amount : ℤ
  taken : Bool
  others : Bool
  answer : CardCollection.Answer
  charges : List ℤ
  deriving DecidableEq

def entry (settings : Settings) (b : Booking) (c : Candidate) (o : CardCollection.Chance) : Entry where
  booking := b.id
  kind := c.kind
  amount := c.amount
  taken := b.ledger.intents.any fun i => i.kind = some c.kind.tag && mayHaveTaken i.status
  others := b.ledger.intents.any fun i => i.kind ≠ some c.kind.tag && mayHaveTaken i.status
  answer := o.answer
  charges := (processCandidate settings b c o).2.2

def entries (settings : Settings) (t : Tenant) : Action → List Entry
  | .process o =>
    match t.pending with
    | [] => []
    | c :: _ => ((t.bookings.get? c.booking).map fun b => entry settings b c o).toList
  | _ => []

end SyrocePms.AutoCollection
