import Mathlib.Data.List.Infix
import Mathlib.Data.List.MinMax
import SyrocePms.Lib.Collection
import SyrocePms.Lib.Threads

/-! The rows of `outbox_events`: how an event is enqueued, and the four writes of the
workers, each with the filter that it has. -/

namespace SyrocePms.Outbox

open Lib

variable {event k left now : ℕ} {message : String}

inductive Status where
  | pending
  | processing
  | processed
  | retry
  | failed
  deriving DecidableEq

/-- No worker takes up a processed event, nor one that is parked as failed. -/
def Status.terminal : Status → Bool
  | .processed | .failed => true
  | _ => false

def Status.claimable : Status → Bool
  | .pending | .retry => true
  | _ => false

/-- A row of `outbox_events`. The events of the migration have no `max_attempts`, and the
tenants of the tests are known by their names. -/
structure Event where
  id : ℕ
  tenant : ℕ
  testTenant : Bool := false
  status : Status := .pending
  attemptCount : ℕ := 0
  maxAttempts : Option ℕ
  availableAt : ℕ
  lastError : Option String := none
  lastAttemptAt : Option ℕ := none
  processedAt : Option ℕ := none
  failedAt : Option ℕ := none
  deliveryMessage : Option String := none
  worker : Option ℕ := none
  idempotencyKey : ℕ
  createdAt : ℕ
  updatedAt : ℕ

def cut (n : ℕ) (text : String) : String := String.ofList (text.toList.take n)

/-! ### Errors -/

def retryableErrorKeywords : List String :=
  ["timeout", "timed out", "connection refused", "connection reset", "502", "503", "504", "429",
    "rate limit", "temporary", "unavailable", "network"]

def permanentErrorKeywords : List String :=
  ["mapping error", "invalid payload", "invalid_xml", "authentication failed", "401", "403",
    "permanent", "unsupported", "schema_mismatch"]

def mentions (text keyword : String) : Bool := decide (keyword.toList <:+: text.toList)

/-- `is_retryable_error`. An error that no keyword knows is retried. -/
def isRetryableError (errorMessage : String) : Bool :=
  let lower := errorMessage.toLower
  if permanentErrorKeywords.any (mentions lower) then false
  else if retryableErrorKeywords.any (mentions lower) then true
  else true

def exceptionMessage (error : String) : String :=
  if isRetryableError error then "retryable: " ++ cut 500 error else "permanent: " ++ cut 500 error

def retryBackoff : ℕ → ℕ
  | 1 => 0
  | 2 => 30
  | 3 => 120
  | 4 => 600
  | 5 => 1800
  | 6 => 14400
  | 7 => 28800
  | 8 => 43200
  | _ => 1800

def computeNextAvailableAt (now attemptCount : ℕ) : ℕ := now + retryBackoff attemptCount

/-! ### The store -/

/-- A worker. Without a tenant of its own it serves all tenants but those of the tests. -/
structure Worker where
  id : ℕ
  tenant : Option ℕ := none
  underTest : Bool := false
  batchSize : ℕ := 10
  processingTimeout : ℕ := 120

def Worker.serves (w : Worker) (e : Event) : Bool :=
  match w.tenant with
  | some t => e.tenant == t
  | none => w.underTest || !e.testTenant

/-- `claims` logs who claimed an event and `dispatches` the attempts that were handed to the
dispatcher, newest first; nothing branches on them. -/
structure Store where
  events : Collection Event Event.id
  now : ℕ
  nextId : ℕ
  claims : List (ℕ × ℕ) := []
  dispatches : List (ℕ × ℕ) := []

/-- The arguments of `enqueue_outbox_event`. -/
structure NewEvent where
  tenant : ℕ
  testTenant : Bool := false
  maxAttempts : ℕ := 5
  idempotencyKey : ℕ

namespace Store

def newEvent (s : Store) (a : NewEvent) : Event where
  id := s.nextId
  tenant := a.tenant
  testTenant := a.testTenant
  maxAttempts := some a.maxAttempts
  availableAt := s.now
  idempotencyKey := a.idempotencyKey
  createdAt := s.now
  updatedAt := s.now

/-- `enqueue_outbox_event`: the unique index on the idempotency key keeps a second row
out. -/
def enqueue (s : Store) (a : NewEvent) : Store :=
  if s.events.any fun e => e.idempotencyKey == a.idempotencyKey then s
  else
    match s.events.insertOne (s.newEvent a) with
    | some es => { s with events := es, nextId := s.nextId + 1 }
    | none => s

/-- The filter of `_recover_stuck`. -/
def stuck (w : Worker) (now : ℕ) (e : Event) : Bool :=
  e.status == .processing && e.lastAttemptAt.any (fun at' => decide (at' + w.processingTimeout ≤ now)) &&
    e.maxAttempts.isSome

def write (s : Store) (p : Event → Bool) (f : Event → Event)
    (hf : ∀ e, (f e).id = e.id := by intro _; rfl) : Store :=
  { s with events := s.events.updateMany p f hf }

/-- The update of `_recover_stuck`. -/
def recovered (now : ℕ) (e : Event) : Event :=
  { e with
    status := .retry
    availableAt := now
    updatedAt := now
    lastError := some "processing timeout — recovered by worker" }

def recover (s : Store) (w : Worker) (now : ℕ) (event : ℕ) : Store :=
  s.write (fun e => decide (e.id = event) && stuck w now e) (recovered now)

/-- The query of `_claim_event`. -/
def due (w : Worker) (now : ℕ) (e : Event) : Bool :=
  e.status.claimable && decide (e.availableAt ≤ now) && e.maxAttempts.isSome && w.serves e

def nextDue (s : Store) (w : Worker) : Option Event :=
  (s.events.rows.filter (due w s.now)).argmin Event.createdAt

def claimed (s : Store) (w : Worker) (e : Event) : Event :=
  { e with
    status := .processing
    lastAttemptAt := some s.now
    updatedAt := s.now
    worker := some w.id
    attemptCount := e.attemptCount + 1 }

theorem claimed_id (s : Store) (w : Worker) (e : Event) : (s.claimed w e).id = e.id := rfl

def claim (s : Store) (k : ℕ) (w : Worker) (e : Event) : Store :=
  { s.write (fun x => decide (x.id = e.id)) (s.claimed w) (s.claimed_id w) with
    claims := (e.id, k) :: s.claims }

/-- `_claim_event` of thread `k`, with the document after the update. -/
def claimEvent (s : Store) (k : ℕ) (w : Worker) : Option (Store × Event) :=
  (s.nextDue w).map fun e => (s.claim k w e, s.claimed w e)

/-- The filter of the outcome writes: the id and the status. -/
def inProcess (event : ℕ) (e : Event) : Bool := decide (e.id = event) && e.status == .processing

/-- The update of `_mark_processed`. -/
def completed (s : Store) (message : String) (e : Event) : Event :=
  { e with
    status := .processed
    processedAt := some s.now
    updatedAt := s.now
    lastError := none
    deliveryMessage := some (cut 500 message) }

def markProcessed (s : Store) (e : Event) (message : String) : Store :=
  s.write (inProcess e.id) (s.completed message)

/-- The failure is final: it says so, or the attempts of the worker's copy are used up. -/
def permanent (e : Event) (message : String) : Bool :=
  "permanent:".isPrefixOf message || decide (e.maxAttempts.getD 5 ≤ e.attemptCount)

/-- The update of `_handle_failure` when the failure is final. -/
def parked (s : Store) (message : String) (e : Event) : Event :=
  { e with
    status := .failed
    lastError := some (cut 1000 message)
    updatedAt := s.now
    failedAt := some s.now }

/-- The update of `_handle_failure` after attempt `attempt` when there is one more. -/
def rescheduled (s : Store) (message : String) (attempt : ℕ) (e : Event) : Event :=
  { e with
    status := .retry
    lastError := some (cut 1000 message)
    availableAt := computeNextAvailableAt s.now (attempt + 1)
    updatedAt := s.now }

def handleFailure (s : Store) (e : Event) (message : String) : Store :=
  if permanent e message then s.write (inProcess e.id) (s.parked message)
  else s.write (inProcess e.id) (s.rescheduled message e.attemptCount)

def holder (s : Store) (event : ℕ) : Option ℕ :=
  (s.claims.find? fun c => c.1 == event).map Prod.snd

def dispatchCount (s : Store) (event : ℕ) : ℕ := (s.dispatches.filter fun d => d.1 == event).length

end Store

/-! The loop of `OutboxWorker` for any number of workers: recovery, claims, dispatch and
the two outcome writes. A worker may stall between any two operations, lose the answer of
one that took effect, raise, or stop for good. -/

/-- Where a worker stands. The event in its hand is the copy that its claim returned, and
`left` counts the claims that are left in the batch. -/
inductive Pc where
  | tick
  | recovering (now : ℕ)
  | claim (left : ℕ)
  | dispatch (left : ℕ) (e : Event)
  | dispatched (left : ℕ) (e : Event)
  | markProcessed (left : ℕ) (e : Event) (message : String)
  | handleFailure (left : ℕ) (e : Event) (message : String) (guarded : Bool)
  | stopped

structure Thread where
  worker : Worker
  pc : Pc

inductive Outcome where
  | success (message : String)
  | failure (message : String)
  | exception (error : String)

/-- What the code cannot foresee: the stuck event that the update visits next, if there is
one, and the outcome of the dispatch. -/
structure Outside where
  stuck : Option ℕ := none
  outcome : Outcome := .success ""

def afterDispatch (left : ℕ) (e : Event) : Outcome → Pc
  | .success message => .markProcessed left e message
  | .failure message => .handleFailure left e message true
  | .exception error => .handleFailure left e (exceptionMessage error) false

/-- `_claim_event` in a batch, whose loop ends when there is no event. -/
def claimStep (s : Store) (k : ℕ) (w : Worker) (left : ℕ) : Store × Pc :=
  match left, s.claimEvent k w with
  | 0, _ | _, none => (s, .tick)
  | left + 1, some (s', e) => (s', .dispatch left e)

def advance (k : ℕ) (s : Store) (w : Worker) (o : Outside) : Pc → Option (Store × Pc)
  | .tick => some (s, .recovering s.now)
  | .recovering now =>
    match o.stuck with
    | some event => some (s.recover w now event, .recovering now)
    | none => some (s, .claim w.batchSize)
  | .claim left => some (claimStep s k w left)
  | .dispatch left e =>
    some ({ s with dispatches := (e.id, e.attemptCount) :: s.dispatches }, .dispatched left e)
  | .dispatched left e => some (s, afterDispatch left e o.outcome)
  | .markProcessed left e message => some (s.markProcessed e message, .claim left)
  | .handleFailure left e message _ => some (s.handleFailure e message, .claim left)
  | .stopped => none

/-- Control when the current operation raises: the outcome of a dispatch is handled as a
failure once more, everything else ends the tick. -/
def Pc.raised (error : String) : Pc → Pc
  | .markProcessed left e _ | .handleFailure left e _ true | .dispatched left e =>
    .handleFailure left e (exceptionMessage error) false
  | .stopped => .stopped
  | _ => .tick

def Pc.lost (error : String) : Pc → Pc
  | .dispatch left e => .handleFailure left e (exceptionMessage error) false
  | pc => pc.raised error

/-- An operation goes through, raises without or with its effect, or is the last one. -/
inductive Move where
  | advance (o : Outside)
  | raise (error : String)
  | lost (o : Outside) (error : String)
  | crash

def Thread.step (k : ℕ) (s : Store) (t : Thread) : Move → Option (Store × Thread)
  | .advance o => (advance k s t.worker o t.pc).map fun r => (r.1, { t with pc := r.2 })
  | .raise error => some (s, { t with pc := t.pc.raised error })
  | .lost o error =>
    (advance k s t.worker o t.pc).map fun r => (r.1, { t with pc := t.pc.lost error })
  | .crash => some (s, { t with pc := .stopped })

inductive Env where
  | clock (seconds : ℕ)
  | enqueue (a : NewEvent)

def Store.env (s : Store) : Env → Store
  | .clock n => { s with now := s.now + n }
  | .enqueue a => s.enqueue a

def calls : Program Store Thread Env Worker Move where
  init s := s.events = .empty ∧ s.claims = [] ∧ s.dispatches = []
  env s e := some (s.env e)
  call _ w := some ⟨w, .tick⟩
  step := Thread.step

def emptyOutbox : Store where
  events := .empty
  now := 0
  nextId := 0

theorem emptyOutbox_init : calls.machine.init ⟨emptyOutbox, []⟩ := ⟨⟨rfl, rfl, rfl⟩, rfl⟩

def operations (k n : ℕ) : List (Act Env Worker Move) := .replicate n (.step k (.advance {}))

def dispatchedOnce (maxAttempts : ℕ) : List (Act Env Worker Move) :=
  [.env (.enqueue { tenant := 1, maxAttempts := maxAttempts, idempotencyKey := 7 }),
    .call { id := 10 }, .call { id := 20 }] ++ operations 0 5

/-- The event is stuck for the time of the timeout, and worker 1 recovers and claims it. -/
def recoveredAndClaimed : List (Act Env Worker Move) :=
  [.env (.clock 120), .step 1 (.advance {}), .step 1 (.advance { stuck := some 0 })] ++
    operations 1 2

def Pc.event? : Pc → Option Event
  | .dispatch _ e | .dispatched _ e | .markProcessed _ e _ | .handleFailure _ e _ _ => some e
  | _ => none

def Pc.undispatched? : Pc → Option Event
  | .dispatch _ e => some e
  | _ => none

/-- The event whose outcome a worker writes next. -/
def Pc.settles? : Pc → Option Event
  | .markProcessed _ e _ | .handleFailure _ e _ _ => some e
  | _ => none

/-- The operation opens the event for one more claim. -/
def Pc.reopens (w : Worker) (o : Outside) : Pc → Event → Bool
  | .recovering now, x => o.stuck == some x.id && Store.stuck w now x
  | .handleFailure _ e message _, x => !Store.permanent e message && Store.inProcess e.id x
  | _, _ => false

def Move.outside? : Move → Option Outside
  | .advance o | .lost o _ => some o
  | .raise _ | .crash => none

/-! ### What a step does -/

/-- After a step that claims nothing the worker has the event of before in its hand or
none. -/
structure Holds (pc pc' : Pc) : Prop where
  event : pc'.event? = none ∨ pc'.event? = pc.event?
  undispatched : pc'.undispatched? = none

/-- What a step of thread `k` comes to: it lets go of events that are being processed, it
dispatches the event in its hand, it claims an event, or it writes nothing. -/
inductive Stepped (k : ℕ) (s : Store) (w : Worker) (m : Move) (pc : Pc) : Store → Pc → Prop
  | keep (pc' : Pc) (h : Holds pc pc') : Stepped k s w m pc s pc'
  | release (p : Event → Bool) (f : Event → Event) (hf : ∀ e, (f e).id = e.id)
      (hp : ∀ e, p e = true → e.status = .processing)
      (hc : ∀ e, (f e).attemptCount = e.attemptCount ∧ (f e).maxAttempts = e.maxAttempts)
      (hs : ∀ e, (f e).status ≠ .processing)
      (hr : ∀ e, p e = true → (f e).status.claimable = true →
        ∃ o, m.outside? = some o ∧ pc.reopens w o e = true)
      (pc' : Pc) (h : Holds pc pc') : Stepped k s w m pc (s.write p f hf) pc'
  | dispatch (left : ℕ) (e : Event) (hpc : pc = .dispatch left e) (pc' : Pc) (h : Holds pc pc') :
      Stepped k s w m pc { s with dispatches := (e.id, e.attemptCount) :: s.dispatches } pc'
  | claim (e : Event) (he : e ∈ s.events) (hc : e.status.claimable = true)
      (hpc : pc.event? = none) (pc' : Pc)
      (h : pc' = .tick ∨ ∃ left, pc' = .dispatch left (s.claimed w e)) :
      Stepped k s w m pc (s.claim k w e) pc'

variable {e : Event}

theorem inProcess_processing (h : Store.inProcess event e = true) :
    e.id = event ∧ e.status = .processing := by
  simpa [Store.inProcess] using h

variable {w : Worker}

theorem stuck_processing (h : Store.stuck w now e = true) : e.status = .processing := by
  simp only [Store.stuck, Bool.and_eq_true, beq_iff_eq] at h
  exact h.1.1

theorem due_claimable (h : Store.due w now e = true) : e.status.claimable = true := by
  simp only [Store.due, Bool.and_eq_true] at h
  exact h.1.1.1

variable {s s' : Store}

theorem claimEvent_some {e' : Event} (h : s.claimEvent k w = some (s', e')) :
    ∃ e ∈ s.events, e.status.claimable = true ∧
      e' = s.claimed w e ∧ s' = s.claim k w e := by
  obtain ⟨e, he, heq⟩ := Option.map_eq_some_iff.mp h
  cases heq
  have hmem := List.argmin_mem he
  obtain ⟨hrow, hdue⟩ := List.mem_filter.mp hmem
  exact ⟨e, hrow, due_claimable hdue, rfl, rfl⟩

/-- A failure of a dispatch keeps the event in the hand of the worker or drops it. -/
theorem holds_raised (error : String) (pc : Pc) : Holds pc (pc.raised error) := by
  cases pc with
  | handleFailure left e message guarded =>
    cases guarded with
    | false => exact ⟨.inl rfl, rfl⟩
    | true => exact ⟨.inr rfl, rfl⟩
  | markProcessed | dispatched => exact ⟨.inr rfl, rfl⟩
  | _ => exact ⟨.inl rfl, rfl⟩

theorem holds_lost (error : String) (pc : Pc) : Holds pc (pc.lost error) := by
  cases pc with
  | dispatch left e => exact ⟨.inr rfl, rfl⟩
  | _ => exact holds_raised error _

theorem holds_afterDispatch (left : ℕ) (e : Event) (outcome : Outcome) :
    Holds (.dispatched left e) (afterDispatch left e outcome) := by
  cases outcome <;> exact ⟨.inr rfl, rfl⟩

variable {m : Move} {o : Outside} {pc' : Pc}

theorem recover_stepped (hm : m.outside? = some o) (ho : o.stuck = some event)
    (h : Holds (.recovering now) pc') :
    Stepped k s w m (.recovering now) (s.recover w now event) pc' := by
  unfold Store.recover
  apply Stepped.release
  · intro x hx
    simp only [Bool.and_eq_true] at hx
    exact stuck_processing hx.2
  · exact fun _ => ⟨rfl, rfl⟩
  · exact fun _ => nofun
  · intro x hx _
    simp only [Bool.and_eq_true, decide_eq_true_eq] at hx
    exact ⟨o, hm, by simp [Pc.reopens, ho, hx.1, hx.2]⟩
  · exact h

theorem markProcessed_stepped (h : Holds (.markProcessed left e message) pc') :
    Stepped k s w m (.markProcessed left e message) (s.markProcessed e message) pc' := by
  unfold Store.markProcessed
  apply Stepped.release
  · exact fun _ hx => (inProcess_processing hx).2
  · exact fun _ => ⟨rfl, rfl⟩
  · exact fun _ => nofun
  · exact fun _ _ => nofun
  · exact h

theorem handleFailure_stepped {guarded : Bool} (hm : m.outside? = some o)
    (h : Holds (.handleFailure left e message guarded) pc') :
    Stepped k s w m (.handleFailure left e message guarded) (s.handleFailure e message) pc' := by
  unfold Store.handleFailure
  split
  · apply Stepped.release
    · exact fun _ hx => (inProcess_processing hx).2
    · exact fun _ => ⟨rfl, rfl⟩
    · exact fun _ => nofun
    · exact fun _ _ => nofun
    · exact h
  · rename_i hperm
    apply Stepped.release
    · exact fun _ hx => (inProcess_processing hx).2
    · exact fun _ => ⟨rfl, rfl⟩
    · exact fun _ => nofun
    · exact fun x hx _ => ⟨o, hm, by simp [Pc.reopens, hperm, hx]⟩
    · exact h

/-- An operation, with the control that the code has in mind and with the one of an answer
that is lost. -/
theorem advance_stepped {pc : Pc} (hm : m.outside? = some o)
    (h : advance k s w o pc = some (s', pc')) :
    Stepped k s w m pc s' pc' ∧ ∀ error, Stepped k s w m pc s' (pc.lost error) := by
  cases pc with
  | tick =>
    cases h
    exact ⟨.keep _ ⟨.inl rfl, rfl⟩, fun error => .keep _ (holds_lost error _)⟩
  | recovering now =>
    simp only [advance] at h
    split at h
    · rename_i event ho
      cases h
      exact ⟨recover_stepped hm ho ⟨.inl rfl, rfl⟩,
        fun error => recover_stepped hm ho (holds_lost error _)⟩
    · cases h
      exact ⟨.keep _ ⟨.inl rfl, rfl⟩, fun error => .keep _ (holds_lost error _)⟩
  | claim left =>
    simp only [advance, claimStep, Option.some.injEq] at h
    split at h
    · cases h
      exact ⟨.keep _ ⟨.inl rfl, rfl⟩, fun error => .keep _ (holds_lost error _)⟩
    · cases h
      exact ⟨.keep _ ⟨.inl rfl, rfl⟩, fun error => .keep _ (holds_lost error _)⟩
    · rename_i left s₁ e₁ hcl
      cases h
      obtain ⟨e, he, hc, rfl, rfl⟩ := claimEvent_some hcl
      exact ⟨.claim e he hc rfl _ (.inr ⟨left, rfl⟩), fun error => .claim e he hc rfl _ (.inl rfl)⟩
  | dispatch left e =>
    cases h
    exact ⟨.dispatch left e rfl _ ⟨.inr rfl, rfl⟩,
      fun error => .dispatch left e rfl _ (holds_lost error _)⟩
  | dispatched left e =>
    cases h
    exact ⟨.keep _ (holds_afterDispatch left e o.outcome),
      fun error => .keep _ (holds_lost error _)⟩
  | markProcessed left e message =>
    cases h
    exact ⟨markProcessed_stepped ⟨.inl rfl, rfl⟩,
      fun error => markProcessed_stepped (holds_lost error _)⟩
  | handleFailure left e message guarded =>
    cases h
    exact ⟨handleFailure_stepped hm ⟨.inl rfl, rfl⟩,
      fun error => handleFailure_stepped hm (holds_lost error _)⟩
  | stopped => cases h

theorem step_stepped {t t' : Thread} (h : t.step k s m = some (s', t')) :
    Stepped k s t.worker m t.pc s' t'.pc := by
  cases m with
  | advance o =>
    obtain ⟨⟨s₁, pc'⟩, hs, heq⟩ := Option.map_eq_some_iff.mp h
    cases heq
    exact (advance_stepped rfl hs).1
  | raise error =>
    cases h
    exact .keep _ (holds_raised error t.pc)
  | lost o error =>
    obtain ⟨⟨s₁, pc'⟩, hs, heq⟩ := Option.map_eq_some_iff.mp h
    cases heq
    exact (advance_stepped rfl hs).2 error
  | crash =>
    cases h
    exact .keep _ ⟨.inl rfl, rfl⟩

end SyrocePms.Outbox
