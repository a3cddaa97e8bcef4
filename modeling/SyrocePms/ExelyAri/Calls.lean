import SyrocePms.Lib.Collection
import SyrocePms.Lib.Threads
import SyrocePms.ExelyAri.Update

/-! Calls of `deliver_exely_ari` that share the collection of deliveries. Every access to the
collection is a step, and so is the push to the provider. An access may fail, or fail after it
was carried out, and a call may stop anywhere. -/

namespace SyrocePms.ExelyAri

open Lib

inductive State where
  | prepared | sending | dryRun | blocked | rejected | ambiguous | confirmed | warningSuccess
  deriving DecidableEq

def State.isTerminal : State → Bool
  | .blocked | .confirmed | .warningSuccess | .rejected => true
  | _ => false

inductive StatusClass where
  | notSent | success | warningSuccess | malformed | ambiguous | writeOutcomeUnknown
  | rateLimited | definitiveRejection
  | other (text : ℕ)
  deriving DecidableEq

/-- The error type of the provider in capitals, or the status class in its place. -/
inductive ErrorType where
  | exelyTemporaryError | exelyParseError | malformed
  | rateLimit (text : ℕ)
  | other (text : ℕ)
  | ofStatus (c : StatusClass)
  deriving DecidableEq

inductive ErrorCode where
  | refused (r : Refusal)
  | runtime (reason : ℕ)
  | writeDisabled | identityPayloadMismatch | deliveryInProgress | deliveryStoreUnavailable
  | providerUnavailable
  | write (exception : ℕ)
  | confirmationStoreUnavailable
  | unconfirmedWarning783
  | provider (e : ErrorType)
  deriving DecidableEq

structure DeliveryResult where
  success : Bool
  state : State
  errorCode : Option ErrorCode
  providerStatusClass : StatusClass
  providerWriteCount : ℕ
  operationIdentity : ℕ
  warningCodes : List String := []
  deriving DecidableEq

/-- What `push_ari_operation` answers. `statusClass` and `warningCodes` are `none` when the
metadata have none, or are no dictionary. -/
structure ProviderResult where
  success : Bool
  providerWriteCount : ℕ
  statusClass : Option StatusClass
  errorType : Option ErrorType
  warningCodes : Option (List String)

/-! ### The collection -/

/-- A stored delivery. The payload itself is kept as its fingerprint, which is active until a
terminal state. -/
structure Delivery where
  operationIdentity : ℕ
  ownerToken : ℕ
  tenantId : Option ℕ
  propertyId : Option ℕ
  operation : Operation
  roomTypeCode : Option ℕ
  ratePlanCode : Option ℕ
  startDate : DateText
  endDate : DateText
  payloadFingerprint : ℕ
  activeFingerprint : Option ℕ
  state : State := .prepared
  attempts : ℕ := 0
  providerResultClass : StatusClass := .notSent
  errorCode : Option ErrorCode := none
  warningCodes : List String := []

/-- The deliveries under the unique index on the identity and the one on the active
fingerprints, which leaves out documents without one. -/
structure Deliveries where
  docs : Collection Delivery Delivery.operationIdentity
  active : ∀ d ∈ docs, ∀ e ∈ docs, ∀ f, d.activeFingerprint = some f → e.activeFingerprint = some f →
    d = e

namespace Deliveries

def empty : Deliveries := ⟨.empty, fun _ hd => absurd hd Collection.not_mem_empty⟩

def isActive (s : Deliveries) (f : ℕ) : Bool := s.docs.any fun d => d.activeFingerprint = some f

def insertOne (s : Deliveries) (d : Delivery) (f : ℕ) (hf : d.activeFingerprint = some f) :
    Option Deliveries :=
  if hactive : s.isActive f = true then none
  else match hdocs : s.docs.insertOne d with
    | none => none
    | some docs => some ⟨docs, by
        have hfree : ∀ e ∈ s.docs, e.activeFingerprint ≠ some f := by
          intro e he hef
          exact hactive (Collection.any_eq_true.mpr ⟨e, he, by simpa using hef⟩)
        intro a ha b hb g hag hbg
        obtain ha | rfl := (Collection.mem_insertOne hdocs).mp ha <;>
          obtain hb | rfl := (Collection.mem_insertOne hdocs).mp hb
        · exact s.active a ha b hb g hag hbg
        · exact absurd (hag.trans (hbg.symm.trans hf)) (hfree a ha)
        · exact absurd (hbg.trans (hag.symm.trans hf)) (hfree b hb)
        · rfl⟩

def updateMany (s : Deliveries) (q : Delivery → Bool) (f : Delivery → Delivery)
    (hid : ∀ d, (f d).operationIdentity = d.operationIdentity)
    (hactive : ∀ d, (f d).activeFingerprint = d.activeFingerprint ∨ (f d).activeFingerprint = none) :
    Deliveries where
  docs := s.docs.updateMany q f hid
  active := by
    have hkeep : ∀ (d : Delivery) g, (if q d then f d else d).activeFingerprint = some g →
        d.activeFingerprint = some g := by
      intro d g hg
      split at hg
      · obtain h | h := hactive d
        · exact h ▸ hg
        · rw [h] at hg
          cases hg
      · exact hg
    intro a ha b hb g hag hbg
    obtain ⟨d, hd, rfl⟩ := Collection.mem_updateMany.mp ha
    obtain ⟨e, he, rfl⟩ := Collection.mem_updateMany.mp hb
    rw [s.active d hd e he g (hkeep d g hag) (hkeep e g hbg)]

theorem mem_updateMany {s : Deliveries} {q : Delivery → Bool} {f : Delivery → Delivery}
    {hid : ∀ d, (f d).operationIdentity = d.operationIdentity}
    {hactive : ∀ d, (f d).activeFingerprint = d.activeFingerprint ∨ (f d).activeFingerprint = none} :
    d ∈ (s.updateMany q f hid hactive).docs ↔ ∃ e ∈ s.docs, d = if q e then f e else e :=
  @Collection.mem_updateMany _ _ _ s.docs q f hid d

end Deliveries

def isOwn (identity owner : ℕ) (d : Delivery) : Bool :=
  d.operationIdentity = identity ∧ d.ownerToken = owner

def markedSending (d : Delivery) : Delivery := { d with state := .sending, attempts := d.attempts + 1 }

/-- What `_finish` writes. -/
structure Finish where
  state : State
  errorCode : Option ErrorCode
  resultClass : StatusClass
  warningCodes : List String := []
  deriving DecidableEq

def Finish.write (w : Finish) (d : Delivery) : Delivery :=
  { d with
    state := w.state
    errorCode := w.errorCode
    providerResultClass := w.resultClass
    warningCodes := w.warningCodes
    activeFingerprint := if w.state.isTerminal then none else d.activeFingerprint }

theorem markedSending_identity (d : Delivery) :
    (markedSending d).operationIdentity = d.operationIdentity := rfl

theorem markedSending_active (d : Delivery) :
    (markedSending d).activeFingerprint = d.activeFingerprint ∨
      (markedSending d).activeFingerprint = none := .inl rfl

theorem Finish.write_identity (w : Finish) (d : Delivery) :
    (w.write d).operationIdentity = d.operationIdentity := rfl

theorem Finish.write_active (w : Finish) (d : Delivery) :
    (w.write d).activeFingerprint = d.activeFingerprint ∨ (w.write d).activeFingerprint = none := by
  unfold Finish.write
  dsimp only
  split
  · exact .inr rfl
  · exact .inl rfl

def Deliveries.markSending (s : Deliveries) (identity owner : ℕ) : Deliveries :=
  s.updateMany (fun d => isOwn identity owner d && decide (d.state = .prepared)) markedSending
    markedSending_identity markedSending_active

def Deliveries.finish (s : Deliveries) (identity owner : ℕ) (w : Finish) : Deliveries :=
  s.updateMany (isOwn identity owner) w.write w.write_identity w.write_active

theorem Deliveries.mem_markSending {s : Deliveries} {identity : ℕ} :
    d ∈ (s.markSending identity owner).docs ↔ ∃ e ∈ s.docs,
      d = if isOwn identity owner e && decide (e.state = .prepared) then markedSending e else e := by
  rw [markSending, mem_updateMany]

theorem Deliveries.mem_finish {s : Deliveries} {identity : ℕ} {w : Finish} :
    d ∈ (s.finish identity owner w).docs ↔
      ∃ e ∈ s.docs, d = if isOwn identity owner e then w.write e else e := by
  rw [finish, mem_updateMany]

/-! ### Calls -/

structure Call where
  operation : Operation
  update : Update
  /-- What the caller says about the write flag, when it says it. -/
  writeEnabled : Option Bool := none
  dryRun : Bool := false
  /-- Whether the caller hands over a provider. -/
  hasProvider : Bool := false
  deriving DecidableEq

variable (sha256 : Seed → ℕ)
variable {d : Delivery} {owner : ℕ}

def Call.identity (c : Call) : ℕ := operationIdentity sha256 c.operation c.update

def Call.payload (c : Call) : Payload := c.update.payload c.operation

def Call.fingerprint (c : Call) : ℕ := payloadFingerprint sha256 c.payload

/-- The document that the call inserts. -/
def Call.document (c : Call) (owner : ℕ) : Delivery where
  operationIdentity := c.identity sha256
  ownerToken := owner
  tenantId := c.update.tenantId
  propertyId := c.update.propertyId
  operation := c.operation
  roomTypeCode := c.update.roomTypeCode
  ratePlanCode := c.update.ratePlanCode
  startDate := c.update.startDate
  endDate := c.update.endDate
  payloadFingerprint := c.fingerprint sha256
  activeFingerprint := some (c.fingerprint sha256)

def Deliveries.prepareDelivery (s : Deliveries) (c : Call) (owner : ℕ) : Option Deliveries :=
  s.insertOne (c.document sha256 owner) (c.fingerprint sha256) rfl

/-- The oldest document that stands in the way of an insertion. -/
def Deliveries.findExisting (s : Deliveries) (c : Call) : Option Delivery :=
  s.docs.findOne fun d =>
    d.operationIdentity = c.identity sha256 ∨ d.activeFingerprint = some (c.fingerprint sha256)

def Call.notSent (c : Call) (state : State) (error : Option ErrorCode) : DeliveryResult where
  success := false
  state := state
  errorCode := error
  providerStatusClass := .notSent
  providerWriteCount := 0
  operationIdentity := c.identity sha256

def Call.blocked (c : Call) (error : ErrorCode) : DeliveryResult := c.notSent sha256 .blocked (some error)

/-- Where a call stands. `finish` has the results for a write that went through and for one that
did not. -/
inductive Pc where
  | gate
  | prepare
  | existing
  | provider
  | markSending
  | push
  | finish (w : Finish) (persisted unpersisted : DeliveryResult)
  | returned (r : DeliveryResult)
  | stopped
  deriving DecidableEq

structure Thread where
  call : Call
  pc : Pc
  deriving DecidableEq

/-- The answer to a push: an exception, by its name, or a result. -/
inductive Answer where
  | raised (exception : ℕ)
  | answered (r : ProviderResult)

/-- What the code cannot foresee in a step that is carried out. -/
structure Chance where
  runtimeBlock : Option ℕ := none
  /-- The flag of the active connection, if one is found. -/
  connection : Option Bool := none
  /-- Whether the factory gives a provider. -/
  factory : Bool := true
  answer : Answer := .raised 0

inductive Move where
  | advance (o : Chance)
  /-- The access raises and nothing is written. -/
  | fail
  /-- The access raises after it was carried out. -/
  | lost
  | stop

/-- The checks before anything is stored. -/
def Call.gate (c : Call) (o : Chance) : Pc :=
  match validateUpdate c.operation c.update with
  | some r => .returned (c.blocked sha256 (.refused r))
  | none =>
    if c.dryRun then .returned (c.notSent sha256 .dryRun none)
    else match o.runtimeBlock with
      | some reason => .returned (c.blocked sha256 (.runtime reason))
      | none =>
        if c.writeEnabled.getD (o.connection.getD false) then .prepare
        else .returned (c.blocked sha256 .writeDisabled)

def Call.refused (c : Call) : Option Delivery → DeliveryResult
  | none => c.blocked sha256 .deliveryStoreUnavailable
  | some d =>
    if d.payloadFingerprint ≠ c.fingerprint sha256 then c.blocked sha256 .identityPayloadMismatch
    else if d.state = .confirmed ∨ d.state = .warningSuccess then
      { success := true
        state := d.state
        errorCode := none
        providerStatusClass := if d.state = .warningSuccess then .warningSuccess else .success
        providerWriteCount := 0
        operationIdentity := c.identity sha256
        warningCodes := d.warningCodes }
    else c.blocked sha256 .deliveryInProgress

def isCodeChar (c : Char) : Bool :=
  c.isAlphanum || c == '_' || c == '.' || c == ':' || c == '-'

/-- The readable codes, cut to 64 characters, without repetitions and in order. -/
def safeCodes (values : Option (List String)) : List String :=
  let cut := (values.getD []).map fun v => String.ofList (v.toList.take 64)
  (cut.filter fun v => !v.toList.isEmpty && v.toList.all isCodeChar).dedup.insertionSort (· ≤ ·)

def ProviderResult.errorName (r : ProviderResult) (c : StatusClass) : ErrorType :=
  r.errorType.getD (.ofStatus c)

def StatusClass.isUnknown : StatusClass → Bool
  | .ambiguous | .malformed | .writeOutcomeUnknown => true
  | _ => false

def ErrorType.isUnknown : ErrorType → Bool
  | .exelyTemporaryError | .exelyParseError | .malformed => true
  | _ => false

def ErrorType.isRateLimit : ErrorType → Bool
  | .rateLimit _ => true
  | _ => false

def Call.afterAnswer (c : Call) (r : ProviderResult) : Pc :=
  let status := r.statusClass.getD .malformed
  let codes := safeCodes r.warningCodes
  let count := if r.providerWriteCount = 1 then 1 else 0
  if r.success ∧ (status = .success ∨ status = .warningSuccess) then
    let state := if status = .warningSuccess then State.warningSuccess else .confirmed
    .finish ⟨state, none, status, codes⟩
      ⟨true, state, none, status, count, c.identity sha256, codes⟩
      ⟨false, .ambiguous, some .confirmationStoreUnavailable, .writeOutcomeUnknown, 1, c.identity sha256, []⟩
  else if count = 0 then
    let error := ErrorCode.provider (r.errorName status)
    let result := DeliveryResult.mk false .blocked (some error) status 0 (c.identity sha256) []
    .finish ⟨.blocked, some error, status, []⟩ result result
  else
    let name := r.errorName status
    let unknown := status.isUnknown || name.isUnknown
    let state := if unknown then State.ambiguous else .rejected
    let resultClass :=
      if unknown then StatusClass.writeOutcomeUnknown
      else if name.isRateLimit then .rateLimited else .definitiveRejection
    let error := if "783" ∈ codes then ErrorCode.unconfirmedWarning783 else .provider name
    let result := DeliveryResult.mk false state (some error) resultClass count (c.identity sha256) codes
    .finish ⟨state, some error, resultClass, codes⟩ result result

def Call.afterException (c : Call) (exception : ℕ) : Pc :=
  let error := ErrorCode.write exception
  let result := DeliveryResult.mk false .ambiguous (some error) .writeOutcomeUnknown 1 (c.identity sha256) []
  .finish ⟨.ambiguous, some error, .writeOutcomeUnknown, []⟩ result result

def Call.afterPush (c : Call) : Answer → Pc
  | .raised exception => c.afterException sha256 exception
  | .answered r => c.afterAnswer sha256 r

/-- The write and the result when the factory gives no provider. -/
def Call.noProvider (c : Call) : Pc :=
  .finish ⟨.blocked, some .providerUnavailable, .notSent, []⟩ (c.blocked sha256 .providerUnavailable)
    (c.blocked sha256 .providerUnavailable)

/-- Whether `_mark_sending` finds the document of the call. -/
def Deliveries.canMark (s : Deliveries) (identity owner : ℕ) : Bool :=
  s.docs.any fun d => isOwn identity owner d && decide (d.state = .prepared)

def Deliveries.owns (s : Deliveries) (identity owner : ℕ) : Bool := s.docs.any (isOwn identity owner)

def advance (k : ℕ) (s : Deliveries) (t : Thread) (o : Chance) : Option (Deliveries × Pc) :=
  match t.pc with
  | .gate => some (s, t.call.gate sha256 o)
  | .prepare =>
    match s.prepareDelivery sha256 t.call k with
    | some s' => some (s', if t.call.hasProvider then .markSending else .provider)
    | none => some (s, .existing)
  | .existing => some (s, .returned (t.call.refused sha256 (s.findExisting sha256 t.call)))
  | .provider => some (s, if o.factory then .markSending else t.call.noProvider sha256)
  | .markSending =>
    some (s.markSending (t.call.identity sha256) k,
      if s.canMark (t.call.identity sha256) k then .push
      else .returned (t.call.blocked sha256 .deliveryStoreUnavailable))
  | .push => some (s, t.call.afterPush sha256 o.answer)
  | .finish w persisted unpersisted =>
    some (s.finish (t.call.identity sha256) k w,
      .returned (if s.owns (t.call.identity sha256) k then persisted else unpersisted))
  | .returned _ | .stopped => none

/-- Where a call goes on after an access that raised. Only accesses to the collection raise
here; the gate treats a failed read as no connection. -/
def onError (c : Call) : Pc → Option Pc
  | .prepare | .existing | .markSending => some (.returned (c.blocked sha256 .deliveryStoreUnavailable))
  | .finish _ _ unpersisted => some (.returned unpersisted)
  | _ => none

def stepOf (k : ℕ) (s : Deliveries) (t : Thread) : Move → Option (Deliveries × Thread)
  | .advance o => (advance sha256 k s t o).map fun r => (r.1, { t with pc := r.2 })
  | .fail => (onError sha256 t.call t.pc).map fun pc => (s, { t with pc })
  | .lost =>
    (onError sha256 t.call t.pc).bind fun pc =>
      (advance sha256 k s t {}).map fun r => (r.1, { t with pc })
  | .stop => some (s, { t with pc := .stopped })

/-- The calls of all workers. The owner token of a call is its number. -/
def calls : Program Deliveries Thread Empty Call Move where
  init s := s = .empty
  env _ e := e.elim
  call _ c := some ⟨c, .gate⟩
  step := stepOf sha256

end SyrocePms.ExelyAri
