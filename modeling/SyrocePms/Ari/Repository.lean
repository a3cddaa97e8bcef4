import Mathlib.Data.List.Sort
import SyrocePms.Ari.ChangeSet
import SyrocePms.Lib.Threads

/-! The collection of change sets, with the operations of its repository. An update by id
looks at nothing but the id. Two logs stand beside the collection: what was published, one
update for each write of an event, and what the providers have taken. -/

namespace SyrocePms.Ari

open Lib

inductive SetStatus where
  | pending
  | queued
  | pushed
  | acked
  | failedRetryable
  | manualReview
  | skipped
  | hardFail
  deriving DecidableEq

namespace SetStatus

/-- The statuses of the set that `upsert_change_set` merges into. -/
def mergeable : SetStatus → Bool
  | .pending | .queued => true
  | _ => false

def waiting : SetStatus → Bool
  | .pending | .queued | .failedRetryable => true
  | _ => false

def outstanding : SetStatus → Bool
  | .pushed => true
  | st => st.waiting

theorem outstanding_of_waiting {st : SetStatus} (h : st.waiting = true) : st.outstanding = true := by
  cases st <;> first | rfl | exact h

end SetStatus

/-- A row of `ari_change_sets`. `version` is the number of the published update whose
content it has. -/
structure ChangeSet where
  key : Key
  payload : Payload
  version : ℕ
  status : SetStatus := .pending
  attempts : ℕ := 0
  createdAt : ℤ
  ackedAt : Option ℤ := none
  deriving DecidableEq

def ChangeSet.update (E : Extranet) (x : ChangeSet) : Update Cell Value :=
  ⟨x.version, E.writes x.key x.payload⟩

def ChangeSet.deltaHash (E : Extranet) (x : ChangeSet) : ℕ := E.hash (Extranet.digest x.key x.payload)

/-- The update of `upsert_change_set`: the content of a row is replaced. -/
def ChangeSet.merge (d : Draft) (version : ℕ) (x : ChangeSet) : ChangeSet :=
  { x with payload := d.payload, version := version, status := .pending }

def ChangeSet.setStatus (now : ℤ) (st : SetStatus) (incAttempt : Bool) (x : ChangeSet) : ChangeSet :=
  { x with
    status := st
    ackedAt := if st = .acked then some now else x.ackedAt
    attempts := if incAttempt then x.attempts + 1 else x.attempts }

/-- A row as it was read, with its id. -/
structure Snapshot where
  id : ℕ
  set : ChangeSet
  deriving DecidableEq

/-- The rows in the order of their ids; a published update has the number of those before
it. -/
structure Store where
  sets : List ChangeSet := []
  clock : ℤ := 0
  published : List (Update Cell Value) := []
  delivered : List (Update Cell Value) := []

namespace Store

variable (E : Extranet)

/-! ### Change sets -/

/-- The set that `upsert_change_set` finds. -/
def findMergeable (s : Store) (k : Key) : Option ℕ :=
  s.sets.findIdx? fun x => x.key = k && x.status.mergeable

def publish (s : Store) (d : Draft) : Store :=
  { s with published := ⟨s.published.length, E.writes d.key d.payload⟩ :: s.published }

def insertSet (s : Store) (d : Draft) (createdAt : ℤ) : Store :=
  { s.publish E d with sets := s.sets ++ [⟨d.key, d.payload, s.published.length, .pending, 0, createdAt, none⟩] }

def mergeSet (s : Store) (k : ℕ) (d : Draft) : Store :=
  { s.publish E d with sets := s.sets.modify k (ChangeSet.merge d s.published.length) }

def isPending (tenant : ℕ) (provider : Option Provider) (x : ChangeSet) : Bool :=
  x.key.tenant = tenant && provider.all (x.key.provider = ·) &&
    (x.status = .pending || (x.status = .failedRetryable && x.key.provider ≠ .exely))

def getPendingChangeSets (s : Store) (tenant : ℕ) (provider : Option Provider) (limit : ℕ) : List Snapshot :=
  (((s.sets.zipIdx.filter fun x => isPending tenant provider x.1).map fun x => ⟨x.2, x.1⟩).insertionSort
    fun x y : Snapshot => x.set.createdAt ≤ y.set.createdAt).take limit

def updateStatus (s : Store) (k : ℕ) (st : SetStatus) (incAttempt : Bool := false) : Store :=
  { s with sets := s.sets.modify k (ChangeSet.setStatus s.clock st incAttempt) }

/-- The rows that `release_quarantine` puts back. -/
def isReleased (tenant room : ℕ) (plan : Option ℕ) (provider : Option Provider) (x : ChangeSet) : Bool :=
  x.key.tenant = tenant && x.status = .hardFail && x.key.room = room &&
    plan.all (x.key.ratePlan = some ·) && provider.all (x.key.provider = ·)

def releaseQuarantine (s : Store) (tenant room : ℕ) (plan : Option ℕ) (provider : Option Provider) : Store :=
  { s with
    sets := s.sets.map fun x =>
      if isReleased tenant room plan provider x then { x with status := .pending } else x }

/-! ### The idempotency check -/

def hour : ℤ := 3600000000

/-- Exely needs ordered dates, a rate plan for prices and restrictions, and the operation
of a restriction. -/
def exelyContext (x : ChangeSet) : Bool :=
  x.key.dateFrom ≤ x.key.dateTo && (x.key.scope = .availability || x.key.ratePlan.isSome) &&
    (x.key.scope ≠ .restriction || x.payload.operation.any Operation.isRestriction)

/-- The acknowledged sets of Exely that can have changed a cell of `x`. -/
def exelyQuery (x : ChangeSet) (cutoff : ℤ) (r : ChangeSet) : Bool :=
  r.key.connection = x.key.connection && r.key.room = x.key.room && r.key.scope = x.key.scope &&
    r.key.dateFrom ≤ x.key.dateTo && x.key.dateFrom ≤ r.key.dateTo &&
    r.status = .acked && r.ackedAt.any (cutoff ≤ ·) &&
    (x.key.scope = .availability || r.key.ratePlan = x.key.ratePlan) &&
    (x.key.scope ≠ .restriction || r.payload.operation = x.payload.operation ||
      r.payload.operation = none) &&
    (x.key.scope ≠ .rate || x.payload.numberOfGuests = none ||
      r.payload.numberOfGuests = x.payload.numberOfGuests || r.payload.numberOfGuests = none)

def exelyLatest (s : Store) (x : ChangeSet) : Option ChangeSet :=
  ((s.sets.filter (exelyQuery x (s.clock - hour))).insertionSort
    fun r r' => r'.ackedAt.getD 0 ≤ r.ackedAt.getD 0).head?

/-- A set with another hash that was acknowledged at `since` or after it. -/
def exelyConflict (s : Store) (x : ChangeSet) (since : ℤ) : Bool :=
  s.sets.any fun r => exelyQuery x since r && r.deltaHash E ≠ x.deltaHash E

/-- The acknowledged sets with the hash of `x`, for the other providers. -/
def equalAcked (s : Store) (x r : ChangeSet) : Bool :=
  r.key.provider = x.key.provider && r.key.property = x.key.property && r.deltaHash E = x.deltaHash E &&
    r.status = .acked && r.ackedAt.any (s.clock - hour ≤ ·)

/-! ### The provider -/

def deliver (s : Store) (x : ChangeSet) (missed : List Cell) : Store :=
  { s with delivered := (x.update E).without missed :: s.delivered }

def confirms (s : Store) (x : ChangeSet) (missed : List Cell) : Prop :=
  ∀ c ∈ (x.update E).cells, c ∈ missed → ∃ d ∈ s.delivered, d.version = x.version ∧ c ∈ d.cells

instance (s : Store) (x : ChangeSet) (missed : List Cell) : Decidable (s.confirms E x missed) := by
  unfold confirms
  infer_instance

end Store

/-! Publishing events and push cycles side by side. A cycle reads its batch once, and goes
through the rows as it has read them: gate, idempotency check, rate limit, compile, mark,
provider, acknowledgement. -/

/-! ### Acknowledgement -/

inductive DeliveryState where
  | confirmed
  | blocked
  | dryRun
  | ambiguous
  | reconciliationPending
  | partialFailure
  | rejected
  deriving DecidableEq

inductive ErrorText where
  | deliveryInProgress
  | timeout
  | connection
  | other
  deriving DecidableEq

/-- `ProviderResult`. No status code is 0. -/
structure ProviderResult where
  success : Bool
  statusCode : ℕ := 0
  error : Option ErrorText := none
  deliveryState : DeliveryState := .confirmed
  deriving DecidableEq

def ProviderResult.isConfirmed (r : ProviderResult) : Bool := r.success && r.deliveryState = .confirmed

inductive ErrorClass where
  | retryable
  | permanent
  | rateLimited

def classifyError (statusCode : ℕ) (error : Option ErrorText) : ErrorClass :=
  if statusCode = 429 then .rateLimited
  else if 500 ≤ statusCode then .retryable
  else if [400, 401, 403, 404, 422].contains statusCode then .permanent
  else if error = some .timeout then .retryable
  else if error = some .connection then .retryable
  else if statusCode = 0 && error.isSome then .retryable
  else .permanent

def maxRetryAttempts : ℕ := 5

def shouldRetry (attempt : ℕ) : Bool := attempt < maxRetryAttempts

def processAck (x : ChangeSet) (r : ProviderResult) : SetStatus × Bool :=
  if r.isConfirmed then (.acked, false)
  else if x.key.provider = .exely then
    if r.deliveryState = .blocked && r.error = some .deliveryInProgress then (.skipped, false)
    else (.manualReview, false)
  else if [.blocked, .dryRun, .ambiguous, .reconciliationPending, .partialFailure].contains r.deliveryState then
    (.manualReview, true)
  else match classifyError r.statusCode r.error with
    | .rateLimited => (.failedRetryable, true)
    | .retryable => if shouldRetry (x.attempts + 1) then (.failedRetryable, true) else (.manualReview, true)
    | .permanent => (.manualReview, true)

variable {x : ChangeSet} {r : ProviderResult}

theorem processAck_confirmed (h : r.isConfirmed = true) : processAck x r = (.acked, false) := by
  simp [processAck, h]

theorem processAck_not_acked (h : r.isConfirmed = false) : (processAck x r).1 ≠ .acked := by
  simp only [processAck, h, Bool.false_eq_true, if_false]
  (repeat' split) <;> simp

/-! ### Calls -/

/-- The two pushers: `push_pending_changes`, and the tenant of a cycle of the push loop. -/
inductive Pusher where
  | pushPendingChanges
  | pushLoop

inductive Call where
  | publish (e : Event) (active : List Provider)
  | push (pusher : Pusher) (tenant : ℕ) (provider : Option Provider) (limit : ℕ)

inductive Pc where
  | find (drafts : List Draft)
  | write (found : Option ℕ) (d : Draft) (createdAt : ℤ) (drafts : List Draft)
  | read (tenant : ℕ) (provider : Option Provider) (limit : ℕ)
  | gate (x : Snapshot) (rest : List Snapshot)
  | check (x : Snapshot) (rest : List Snapshot)
  | conflict (x : Snapshot) (since : ℤ) (rest : List Snapshot)
  | skip (x : Snapshot) (rest : List Snapshot)
  | mark (x : Snapshot) (rest : List Snapshot)
  | deliver (x : Snapshot) (rest : List Snapshot)
  | answer (x : Snapshot) (r : ProviderResult) (rest : List Snapshot)
  | returned
  deriving DecidableEq

structure Thread where
  call : Call
  pc : Pc

def Thread.begin (c : Call) : Thread where
  call := c
  pc := match c with
    | .publish e active => .find (coalesceEvents e active)
    | .push _ tenant provider limit => .read tenant provider limit

/-- What a step cannot foresee: the mapping, the rate limit, whether an adapter is
registered, what the provider answers and which cells it has not taken. -/
structure Chance where
  mapped : Bool := true
  allowed : Bool := true
  adapter : Bool := true
  result : ProviderResult := { success := true }
  missed : List Cell := []

def nextSet : List Snapshot → Pc
  | [] => .returned
  | x :: rest => .gate x rest

def noAdapterStatus : Call → SetStatus
  | .push .pushLoop _ _ _ => .pending
  | _ => .manualReview

def checkOutboundIdempotency (E : Extranet) (s : Store) (x : Snapshot) (rest : List Snapshot) : Pc :=
  match x.set.key.provider with
  | .exely =>
    if Store.exelyContext x.set then
      match s.exelyLatest x.set with
      | none => .mark x rest
      | some r =>
        if r.deltaHash E = x.set.deltaHash E then .conflict x (r.ackedAt.getD 0) rest else .mark x rest
    else .returned
  | _ => if s.sets.any (s.equalAcked E x.set) then .skip x rest else .mark x rest

def advance (E : Extranet) (s : Store) (t : Thread) (o : Chance) : Option (Store × Pc) :=
  match t.pc with
  | .find [] => some (s, .returned)
  | .find (d :: drafts) => some (s, .write (s.findMergeable d.key) d s.clock drafts)
  | .write none d createdAt drafts => some (s.insertSet E d createdAt, .find drafts)
  | .write (some k) d _ drafts => some (s.mergeSet E k d, .find drafts)
  | .read tenant provider limit => some (s, nextSet (s.getPendingChangeSets tenant provider limit))
  | .gate x rest =>
    some (if o.mapped then (s, .check x rest) else (s.updateStatus x.id .hardFail, nextSet rest))
  | .check x rest => some (s, checkOutboundIdempotency E s x rest)
  | .conflict x since rest =>
    some (s, if s.exelyConflict E x.set since then .mark x rest else .skip x rest)
  | .skip x rest => some (s.updateStatus x.id .skipped, nextSet rest)
  | .mark x rest =>
    some (if !o.allowed then (s, nextSet rest)
      else if (compileDelta x.set.key.provider x.set.key.scope x.set.payload).isNone then
        (s.updateStatus x.id .manualReview, nextSet rest)
      else (s.updateStatus x.id .pushed true, .deliver x rest))
  | .deliver x rest =>
    if !o.adapter then some (s.updateStatus x.id (noAdapterStatus t.call), nextSet rest)
    else if o.result.isConfirmed = true → s.confirms E x.set o.missed then
      some (s.deliver E x.set o.missed, .answer x o.result rest)
    else none
  | .answer x r rest =>
    some (s.updateStatus x.id (processAck x.set r).1 (processAck x.set r).2, nextSet rest)
  | .returned => none

inductive Move where
  | advance (o : Chance)
  | stop

/-- A call is stopped by an exception or a crash. -/
def Thread.step (E : Extranet) (s : Store) (t : Thread) : Move → Option (Store × Thread)
  | .advance o => (Ari.advance E s t o).map fun r => (r.1, { t with pc := r.2 })
  | .stop => some (s, { t with pc := .returned })

inductive Env where
  | tick (d : ℕ)
  | releaseQuarantine (tenant room : ℕ) (plan : Option ℕ) (provider : Option Provider)

/-- Publishing and pushing from an empty collection. -/
def calls (E : Extranet) : Program Store Thread Env Call Move where
  init s := s.sets = [] ∧ s.published = [] ∧ s.delivered = []
  env s e := some (match e with
    | .tick d => { s with clock := s.clock + d }
    | .releaseQuarantine tenant room plan provider => s.releaseQuarantine tenant room plan provider)
  call _ c := some (.begin c)
  step _ s t m := t.step E s m

end SyrocePms.Ari
