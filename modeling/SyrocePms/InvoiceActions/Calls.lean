import SyrocePms.Lib.Threads

/-! The lifecycle of one invoice action: an answer to an incoming invoice, or the creation of its
return. A worker claims a lease, marks the attempt, writes to the provider, marks the acceptance,
verifies at the provider and stores the result, access by access. A call that is stopped takes no
further step. -/

namespace SyrocePms.InvoiceActions

open Lib

/-! ### The action -/

/-- `InvoiceLifecycleActionType`. -/
inductive Kind
  | acceptIncoming
  | rejectIncoming
  | createReturn
  deriving DecidableEq

/-- `InvoiceLifecycleActionState`. -/
inductive ActionState
  | requested
  | processing
  | retryScheduled
  | providerPending
  | succeeded
  | reconciliationRequired
  | failed
  deriving DecidableEq

inductive ErrorCode
  | invalidProviderUuid
  | answerFeatureDisabled
  | returnFeatureDisabled
  | configurationUnavailable
  | credentialUnavailable
  | allocationNotReady
  | writeOutcomeUnknown
  | returnOutcomeUnknown
  | identifierUnavailable
  | identifierInvalid
  | draftStatusUnavailable
  | confirmationFailed
  | releaseFailed
  | reconciliationFailed
  | answerVerificationExhausted
  | returnVerificationExhausted
  | answerStatusUnavailable
  | localInvoiceUpdateFailed
  | answerStatusPending
  | answerStatusMismatch
  | provider (safeCode : ℕ)

/-- A row of `invoice_lifecycle_actions`. `hasUuid` says that its source uuid can be read, and
`isGuarded` that it has an `answer_guard_key`. -/
structure Action where
  kind : Kind
  hasUuid : Bool := true
  state : ActionState := .requested
  owner : Option ℕ := none
  expires : Option ℕ := none
  nextAttempt : Option ℕ := none
  attempted : Option ℕ := none
  accepted : Option ℕ := none
  generated : Option ℕ := none
  attemptCount : ℕ := 0
  verificationCount : ℕ := 0
  error : Option ErrorCode := none
  needsReconciliation : Bool := false
  completed : Option ℕ := none
  isGuarded : Bool := true

/-- The fields that `_finish` writes. -/
structure Result where
  state : ActionState
  error : Option ErrorCode
  nextAttempt : Option ℕ := none
  completed : Option ℕ := none
  needsReconciliation : Bool := false
  verificationCount : Option ℕ := none
  releasesGuard : Bool := false

namespace Action

variable (a : Action)

/-- The filter of `claim_action_lease`. -/
def isClaimable (now : ℕ) : Bool :=
  (a.state = .requested || a.state = .processing || a.state = .retryScheduled || a.state = .providerPending) &&
    a.nextAttempt.all (· ≤ now) && (a.owner.isNone || a.expires.any (· ≤ now))

def claim (worker now : ℕ) : Action :=
  { a with owner := some worker, expires := some (now + 60), state := .processing }

def startAttempt (worker now : ℕ) : Option Action :=
  if a.owner = some worker && a.attempted.isNone then some { a with attempted := some now } else none

/-- `mark_provider_request_accepted`, and `mark_provider_return_created` with the uuid of the return. -/
def accept (worker now : ℕ) (generated : Option ℕ) : Option Action :=
  if a.owner = some worker && a.attempted.isSome then
    some { a with accepted := some now, generated := generated.or a.generated }
  else none

def finish (worker attemptCount : ℕ) (r : Result) : Option Action :=
  if a.owner = some worker then
    some { a with
      state := r.state
      attemptCount := attemptCount
      nextAttempt := r.nextAttempt
      completed := r.completed
      error := r.error
      needsReconciliation := r.needsReconciliation
      verificationCount := r.verificationCount.getD a.verificationCount
      isGuarded := a.isGuarded && !r.releasesGuard
      owner := none
      expires := none }
  else none

end Action

/-! ### Results -/

def statusPollDelays : List ℕ := [30, 60, 120, 300, 900]

def nextPollDelay (attemptCount : ℕ) : ℕ := statusPollDelays.getD (min attemptCount 4) 0

namespace Result

def retry (code : ErrorCode) (next : ℕ) : Result := ⟨.retryScheduled, some code, some next, none, false, none, false⟩

def refused (code : ErrorCode) : Result := ⟨.failed, some code, none, none, false, none, true⟩

def reconciliation (code : ErrorCode) (count : Option ℕ) : Result :=
  ⟨.reconciliationRequired, some code, none, none, true, count, false⟩

def pending (code : ErrorCode) (next count : ℕ) : Result :=
  ⟨.providerPending, some code, some next, none, false, some count, false⟩

def success (now : ℕ) : Result := ⟨.succeeded, none, none, some now, false, none, false⟩

@[simp] theorem retry_state (code : ErrorCode) (next : ℕ) : (retry code next).state = .retryScheduled := rfl

@[simp] theorem refused_state (code : ErrorCode) : (refused code).state = .failed := rfl

@[simp] theorem reconciliation_state (code : ErrorCode) (count : Option ℕ) :
    (reconciliation code count).state = .reconciliationRequired := rfl

@[simp] theorem pending_state (code : ErrorCode) (next count : ℕ) : (pending code next count).state = .providerPending := rfl

@[simp] theorem success_state (now : ℕ) : (success now).state = .succeeded := rfl

end Result

/-! ### What the call cannot foresee -/

inductive Configuration
  | unavailable
  | noCredential
  | usable

/-- The outcome of the write: the uuid of a return, an error of the provider with its HTTP status,
another error, or an error before the request has left. -/
inductive Sending
  | accepted (uuid : ℕ)
  | apiError (status : Option ℕ) (code : ℕ)
  | failed
  | unsent
  deriving DecidableEq

/-- `NilveraIncomingAnswerState`. -/
inductive AnswerState
  | unknown
  | waiting
  | approved
  | rejected
  | answeredAutomatically
  deriving DecidableEq

inductive AnswerLook
  | state (x : AnswerState)
  | apiError (status : Option ℕ) (code : ℕ)
  | failed

inductive DraftLook
  | valid
  | apiError (status : Option ℕ) (code : ℕ)
  | malformed
  | failed
  deriving DecidableEq

/-- Feature flag, configuration, the allocations before the write and in the handlers, the outcome
of the write, what a verification sees, whether the local invoice is found, and whether the
reversal raises. -/
structure Chance where
  isEnabled : Bool := true
  configuration : Configuration := .usable
  isReady : Bool := true
  isHandled : Bool := true
  sending : Sending := .failed
  answer : AnswerLook := .failed
  draft : DraftLook := .failed
  isFound : Bool := true
  reversalRaises : Bool := false

/-! ### A call -/

/-- Where a call of `process_lifecycle_action` stands, with the action that it has claimed. A
result that is to be stored has the uuid of the return whose journal is reversed after it. -/
inductive Pc
  | claim
  | process (a : Action)
  | prepare (a : Action)
  | attempt (a : Action)
  | send (a : Action)
  | accept (a : Action) (generated : Option ℕ)
  | verifyAnswer (a : Action)
  | verifyDraft (a : Action) (generated : ℕ)
  | updateInvoice (a : Action)
  | confirm (a : Action) (generated : ℕ)
  | release (a : Action) (code : ErrorCode)
  | reconcile (a : Action) (code : ErrorCode) (count : Option ℕ)
  | finish (a : Action) (r : Result) (reversal : Option ℕ)
  | reverse (generated : ℕ)
  | returned (isProcessed : Bool)
  | stopped

namespace Pc

def isOver : Pc → Bool
  | .returned _ | .stopped => true
  | _ => false

def isSending : Pc → Bool
  | .send _ => true
  | _ => false

def isReversing : Pc → Bool
  | .reverse _ => true
  | _ => false

end Pc

/-- `isPosted` and `isReversed` say that the general ledger has the journal of the source invoice,
and its reversal. -/
structure Store where
  clock : ℕ := 0
  action : Action
  isPosted : Bool := false
  isReversed : Bool := false

/-- The statuses of a definite refusal. -/
def isValidationStatus (status : Option ℕ) : Bool :=
  status.any fun n => n = 400 || n = 401 || n = 403 || n = 404 || n = 422

def expectedAnswer : Kind → Option AnswerState
  | .acceptIncoming => some .approved
  | .rejectIncoming => some .rejected
  | .createReturn => none

def scheduleVerification (a : Action) (now : ℕ) (code : ErrorCode) : Pc :=
  let next := a.verificationCount + 1
  if statusPollDelays.length < next then .finish a (.reconciliation .answerVerificationExhausted (some next)) none
  else .finish a (.pending code (now + nextPollDelay a.verificationCount) next) none

def scheduleReturnVerification (a : Action) (now : ℕ) (code : ErrorCode) : Pc :=
  let next := a.verificationCount + 1
  if statusPollDelays.length < next then .reconcile a .returnVerificationExhausted (some next)
  else .finish a (.pending code (now + nextPollDelay a.verificationCount) next) none

/-- `_process_claimed_action` and `_process_return_action` up to the client. -/
def afterClaim (a : Action) (now : ℕ) (o : Chance) : Pc :=
  if !a.hasUuid then .finish a (.refused .invalidProviderUuid) none
  else if a.attempted.isNone && !o.isEnabled then
    .finish a (.retry (if a.kind = .createReturn then .returnFeatureDisabled else .answerFeatureDisabled) (now + 900)) none
  else
    match o.configuration with
    | .unavailable => .finish a (.retry .configurationUnavailable (now + 900)) none
    | .noCredential => .finish a (.retry .credentialUnavailable (now + 900)) none
    | .usable =>
      if a.kind = .createReturn then
        if a.attempted.isNone then .prepare a
        else
          match a.generated with
          | some uuid => .verifyDraft a uuid
          | none => .reconcile a .identifierUnavailable none
      else if a.attempted.isNone then .attempt a
      else .verifyAnswer a

def afterAnswer (a : Action) (now : ℕ) : Sending → Pc
  | .accepted _ => .accept a none
  | .apiError status code =>
    if isValidationStatus status then .finish a (.refused (.provider code)) none
    else scheduleVerification a now (.provider code)
  | .failed | .unsent => scheduleVerification a now .writeOutcomeUnknown

def afterReturn (a : Action) : Sending → Pc
  | .accepted uuid => .accept a (some uuid)
  | .apiError status code =>
    if isValidationStatus status then .release a (.provider code) else .reconcile a (.provider code) none
  | .failed | .unsent => .reconcile a .returnOutcomeUnknown none

def afterAccept (a : Action) : Option ℕ → Pc
  | some uuid => .verifyDraft a uuid
  | none => .verifyAnswer a

/-- `_verify_provider_answer` on what the provider shows. -/
def afterAnswerLook (a : Action) (now : ℕ) : AnswerLook → Pc
  | .state x =>
    if some x = expectedAnswer a.kind then .updateInvoice a
    else if x = .unknown || x = .waiting then scheduleVerification a now .answerStatusPending
    else .finish a (.reconciliation .answerStatusMismatch none) none
  | .apiError status code =>
    if status.any fun n => n = 401 || n = 403 || n = 404 then .finish a (.reconciliation (.provider code) none) none
    else scheduleVerification a now (.provider code)
  | .failed => scheduleVerification a now .answerStatusUnavailable

def afterDraftLook (a : Action) (generated now : ℕ) : DraftLook → Pc
  | .valid => .confirm a generated
  | .apiError status code =>
    if status.any fun n => n = 401 || n = 403 then .reconcile a (.provider code) none
    else scheduleReturnVerification a now (.provider code)
  | .malformed => .reconcile a .identifierInvalid none
  | .failed => scheduleReturnVerification a now .draftStatusUnavailable

namespace Store

variable (s : Store)

def setAction (a : Action) : Store := { s with action := a }

/-- One access of a call by `worker`. -/
def step (worker : ℕ) (o : Chance) : Pc → Option (Store × Pc)
  | .claim =>
    if s.action.isClaimable s.clock then
      let a := s.action.claim worker s.clock
      some (s.setAction a, .process a)
    else some (s, .returned false)
  | .process a => some (s, afterClaim a s.clock o)
  | .prepare a =>
    some (s, if o.isReady then .attempt a else .finish a (.retry .allocationNotReady (s.clock + 300)) none)
  | .attempt a =>
    some (match s.action.startAttempt worker s.clock with
      | some x => (s.setAction x, .send a)
      | none => (s, .returned true))
  | .send a =>
    some (s, if a.kind = .createReturn then afterReturn a o.sending else afterAnswer a s.clock o.sending)
  | .accept a generated =>
    some (match s.action.accept worker s.clock generated with
      | some x =>
        (s.setAction x, afterAccept a generated)
      | none => (s, .returned true))
  | .verifyAnswer a => some (s, afterAnswerLook a s.clock o.answer)
  | .verifyDraft a generated => some (s, afterDraftLook a generated s.clock o.draft)
  | .updateInvoice a =>
    some (s, .finish a (if o.isFound then .success s.clock else .reconciliation .localInvoiceUpdateFailed none) none)
  | .confirm a generated =>
    some (s, if o.isHandled then .finish a (.success s.clock) (some generated)
      else .reconcile a .confirmationFailed none)
  | .release a code =>
    some (s, if o.isHandled then .finish a (.refused code) none else .reconcile a .releaseFailed none)
  | .reconcile a code count =>
    some (s, .finish a (.reconciliation (if o.isHandled then code else .reconciliationFailed) count) none)
  | .finish a r reversal =>
    some (match s.action.finish worker (a.attemptCount + 1) r with
      | some x => (s.setAction x, (reversal.map Pc.reverse).getD (.returned true))
      | none => (s, .returned true))
  | .reverse _ =>
    some ({ s with isReversed := s.isReversed || s.isPosted && !o.reversalRaises }, .returned true)
  | .returned _ | .stopped => none

end Store

structure Thread where
  worker : ℕ
  pc : Pc := .claim

/-- Time passes, and the source invoice is posted. -/
inductive Event
  | wait (d : ℕ)
  | post

inductive Move
  | advance (o : Chance)
  | stop

def Thread.step (s : Store) (t : Thread) : Move → Option (Store × Thread)
  | .advance o => (s.step t.worker o t.pc).map fun r => (r.1, { t with pc := r.2 })
  | .stop => if t.pc.isOver then none else some (s, { t with pc := .stopped })

/-- The calls on one action, which is new. The argument of a call is its worker. -/
def lifecycle : Program Store Thread Event ℕ Move where
  init s := s.action.attempted = none ∧ s.action.generated = none ∧ s.action.state = .requested ∧ s.isReversed = false
  env s
    | .wait d => some { s with clock := s.clock + d }
    | .post => some { s with isPosted := true }
  call _ worker := some ⟨worker, .claim⟩
  step _ s t m := t.step s m

end SyrocePms.InvoiceActions
