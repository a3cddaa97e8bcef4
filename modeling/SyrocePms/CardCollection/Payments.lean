import Mathlib.Algebra.BigOperators.Group.List.Basic
import Mathlib.Algebra.Order.Ring.Int
import SyrocePms.Lib.Collection
import SyrocePms.Lib.Threads

/-! What a card collection reads and writes for one tenant, booking and idempotency key: the
intents of the key, its locks, one for each scope, and the ledger of the booking. Amounts are in
minor units. -/

namespace SyrocePms.CardCollection

open Lib

/-- A uuid: of call `k`, or from before the run. -/
inductive Token
  | call (k : ℕ)
  | earlier (n : ℕ)
  deriving DecidableEq

structure Request where
  folio : ℕ
  amount : ℤ
  currency : ℕ
  vault : ℕ
  paymentType : ℕ
  deriving DecidableEq

/-- The response of a successful collection: `isRecorded` is false for `paid_unrecorded`. -/
structure Response where
  payment : Token
  intent : Token
  folio : ℕ
  amount : ℤ
  currency : ℕ
  isRecorded : Bool := true
  deriving DecidableEq

inductive IntentStatus
  | pending
  | failed
  | unknown
  | requiresAction
  | completed
  | completedUnrecorded
  deriving DecidableEq

/-- An intent. `kind` is the `collection_kind` that a caller adds. -/
structure Intent where
  id : Token
  folio : ℕ
  amount : ℤ
  currency : ℕ
  fingerprint : Option Request
  kind : Option ℕ := none
  status : IntentStatus := .pending
  result : Option Response := none
  paymentId : Option Token := none
  actionUrl : Option ℕ := none
  deriving DecidableEq

structure Payment where
  id : Token
  folio : ℕ
  amount : ℤ
  isVoided : Bool := false

structure Folio where
  id : ℕ
  balance : ℤ

inductive LockStatus
  | processing
  | completed (response : Response)

structure Lock where
  scope : ℕ
  status : LockStatus

/-! ### The durable guard -/

/-- The answers of `collect_booking_payment`. -/
inductive Outcome
  | paid (r : Response)
  | paidUnrecorded (r : Response)
  | replay (r : Response)
  | inFlight (intent : Option Token)
  | requiresAction (intent : Token) (url : Option ℕ)
  | mismatch
  | refused (intent : Token)
  | unknown (intent : Token)
  | notConfigured
  deriving DecidableEq

namespace Request

variable (x : Request)

/-- The intent is of the same request. An old one without a fingerprint is judged by its folio,
amount and currency. -/
def compatible (i : Intent) : Bool :=
  match i.fingerprint with
  | some f => f = x
  | none => i.folio = x.folio && i.amount = x.amount && i.currency = x.currency

def answerOf (i : Intent) : Outcome ⊕ Token :=
  if x.compatible i then
    match i.status, i.result, i.paymentId, i.actionUrl with
    | .completed, some r, _, _ => .inl (.replay r)
    | .completedUnrecorded, some r, _, _ => .inl (.replay r)
    | .completed, none, some payment, _ => .inr payment
    | .requiresAction, _, _, some url => .inl (.requiresAction i.id (some url))
    | _, _, _, _ => .inl (.inFlight (some i.id))
  else .inl .mismatch

def response (payment intent : Token) : Response where
  payment := payment
  intent := intent
  folio := x.folio
  amount := x.amount
  currency := x.currency

def payment (id : Token) : Payment where
  id := id
  folio := x.folio
  amount := x.amount

def intent (id : Token) (kind : Option ℕ) : Intent where
  id := id
  folio := x.folio
  amount := x.amount
  currency := x.currency
  fingerprint := some x
  kind := kind

end Request

/-! ### The store -/

structure Store where
  locks : Collection Lock Lock.scope
  intents : Collection Intent Intent.id
  payments : List Payment
  folios : Collection Folio Folio.id
  paidAmount : ℤ

namespace Store

variable (s : Store)

def prior : Option Intent := s.intents.findOne fun i => i.status ≠ .failed

def hasPayment (id : Token) : Bool := s.payments.any fun p => p.id = id && !p.isVoided

theorem setIntent_id (g : Intent → Intent) (i : Intent) : { g i with id := i.id }.id = i.id := rfl

def setIntent (id : Token) (g : Intent → Intent) : Store :=
  { s with intents := s.intents.update id (fun i => { g i with id := i.id }) (setIntent_id g) }

theorem complete_scope (r : Response) (l : Lock) : { l with status := .completed r }.scope = l.scope := rfl

theorem charge_id (amount : ℤ) (f : Folio) : { f with balance := f.balance - amount }.id = f.id := rfl

def record (scope : ℕ) (x : Request) (payment intent : Token) : Store :=
  let r := x.response payment intent
  let completed := s.setIntent intent fun i => { i with status := .completed, paymentId := some payment, result := some r }
  { completed with
    payments := s.payments ++ [x.payment payment]
    folios := s.folios.update x.folio (fun f => { f with balance := f.balance - x.amount }) (charge_id x.amount)
    paidAmount := s.paidAmount + x.amount
    locks := s.locks.update scope (fun l => { l with status := .completed r }) (complete_scope r) }

/-- `release_idempotency`, and the expiry of a lock. -/
def dropLock (scope : ℕ) : Store := { s with locks := s.locks.deleteMany fun l => l.scope = scope }

variable {s}

theorem mem_setIntent {id : Token} {g : Intent → Intent} {i : Intent} :
    i ∈ (s.setIntent id g).intents ↔ (i ∈ s.intents ∧ i.id ≠ id) ∨
      ∃ e ∈ s.intents, e.id = id ∧ i = { g e with id := e.id } := by
  change i ∈ s.intents.update id _ (setIntent_id g) ↔ _
  exact Collection.mem_update

end Store

/-! Calls of `collect_booking_payment` for one tenant, booking and idempotency key, each access
a step of its own, and the charge two: the request leaves, and its answer arrives. Accesses fail,
answers of writes are lost, and a call that crashes takes no further step. A lock expires at any
time, since nothing bounds how long a call rests between two steps. -/

structure Call where
  scope : ℕ
  request : Request
  kind : Option ℕ := none

inductive Pc
  | guard
  | payment (i : Intent) (p : Token)
  | provider
  | claim
  | existing
  | insertIntent
  | charge
  | answer
  | markUnknown
  | markAction (url : Option ℕ)
  | markPending
  | markFailed
  | release
  | stamp
  | record
  | markUnrecorded (committed : Bool)
  | returned (o : Outcome)
  | raised
  deriving DecidableEq

structure Thread where
  call : Call
  pc : Pc

/-- What comes back from `provider.charge`: a `PaymentError` of the server or of the request, any
other exception, or a result. -/
inductive Answer
  | serverError
  | requestError
  | exception
  | requiresAction (url : Option ℕ)
  | pending
  | declined
  | ok
  deriving DecidableEq

/-- How the transaction of a success ends: it is committed, it is aborted, or it is committed
although it raises. -/
inductive Commit
  | done
  | aborted
  | ambiguous
  deriving DecidableEq

structure Chance where
  configured : Bool := true
  answer : Answer := .ok
  commit : Commit := .done
  fails : Bool := false
  lost : Bool := false

def Answer.next : Answer → Pc
  | .serverError | .exception => .markUnknown
  | .requestError | .declined => .markFailed
  | .requiresAction url => .markAction url
  | .pending => .markPending
  | .ok => .stamp

def Answer.isRefusal : Answer → Bool
  | .requestError | .declined => true
  | _ => false

def Call.response (c : Call) (k : ℕ) : Response := c.request.response (.call k) (.call k)

def perform (k : ℕ) (s : Store) (c : Call) (o : Chance) : Pc → Option (Store × Pc)
  | .guard =>
    some (s, match s.prior with
      | none => .provider
      | some i =>
        match c.request.answerOf i with
        | .inl answer => .returned answer
        | .inr p => .payment i p)
  | .payment i p =>
    some (s, .returned (if s.hasPayment p then .replay (c.request.response p i.id) else .inFlight (some i.id)))
  | .provider => some (s, if o.configured then .claim else .returned .notConfigured)
  | .claim =>
    match s.locks.insertOne ⟨c.scope, .processing⟩ with
    | some locks => some ({ s with locks }, .insertIntent)
    | none => some (s, .existing)
  | .existing =>
    some (s, .returned (match s.locks.get? c.scope with
      | some ⟨_, .completed r⟩ => .replay r
      | _ => .inFlight none))
  | .insertIntent =>
    (s.intents.insertOne (c.request.intent (.call k) c.kind)).map fun intents => ({ s with intents }, .charge)
  | .charge => some (s, .answer)
  | .answer => some (s, o.answer.next)
  | .markUnknown =>
    some (s.setIntent (.call k) fun i => { i with status := .unknown }, .returned (.unknown (.call k)))
  | .markAction url =>
    some (s.setIntent (.call k) fun i => { i with status := .requiresAction, actionUrl := url },
      .returned (.requiresAction (.call k) url))
  | .markPending =>
    some (s.setIntent (.call k) fun i => { i with status := .pending }, .returned (.inFlight (some (.call k))))
  | .markFailed => some (s.setIntent (.call k) fun i => { i with status := .failed }, .release)
  | .release => some (s.dropLock c.scope, .returned (.refused (.call k)))
  | .stamp => some (s, .record)
  | .record =>
    some (match o.commit with
      | .done => (s.record c.scope c.request (.call k) (.call k), .returned (.paid (c.response k)))
      | .aborted => (s, .markUnrecorded false)
      | .ambiguous => (s.record c.scope c.request (.call k) (.call k), .markUnrecorded true))
  | .markUnrecorded _ =>
    let r := { c.response k with isRecorded := false }
    some (s.setIntent (.call k) fun i => { i with status := .completedUnrecorded, result := some r },
      .returned (.paidUnrecorded r))
  | .returned _ | .raised => none

def Pc.isHandled : Pc → Bool
  | .charge | .answer | .record => true
  | _ => false

/-- A step of call `k`: an access that fails raises, and so does one whose answer is lost. -/
def advance (k : ℕ) (s : Store) (t : Thread) (o : Chance) : Option (Store × Pc) :=
  (perform k s t.call o t.pc).map fun r =>
    if t.pc.isHandled then r
    else if o.fails then (s, .raised)
    else (r.1, if o.lost then .raised else r.2)

/-- The ledger at the start: the balances of the folios and the paid amount of the booking. -/
structure Opening where
  balance : ℕ → ℤ
  paidAmount : ℤ

/-- Each payment was taken off its folio once, and added to the booking once. -/
structure Store.Balanced (s : Store) (opening : Opening) : Prop where
  folio : ∀ f ∈ s.folios,
    f.balance = opening.balance f.id - ((s.payments.filter fun p => p.folio = f.id).map Payment.amount).sum
  booking : s.paidAmount = opening.paidAmount + (s.payments.map Payment.amount).sum

/-- The calls, from any intents and payments of earlier ones. The environment is the expiry of a
lock. -/
def collections (opening : Opening) : Program Store Thread ℕ Call Chance where
  init s := s.Balanced opening ∧ (∀ i ∈ s.intents, ∃ n, i.id = .earlier n) ∧
    ∀ p ∈ s.payments, ∃ n, p.id = .earlier n
  env s scope := some (s.dropLock scope)
  call _ c := some ⟨c, .guard⟩
  step k s t o := (advance k s t o).map fun r => (r.1, { t with pc := r.2 })

/-- What the provider sees and answers, and the commits whose outcome is not known. -/
inductive Event
  | charged (k : ℕ)
  | refused (k : ℕ)
  | accepted (k : ℕ)
  | ambiguous (k : ℕ)
  deriving DecidableEq

def Pc.events (k : ℕ) (o : Chance) : Pc → List Event
  | .charge => [.charged k]
  | .answer => if o.answer.isRefusal then [.refused k] else if o.answer = .ok then [.accepted k] else []
  | .record => if o.commit = .ambiguous then [.ambiguous k] else []
  | _ => []

def events (p : Pool Store Thread) : Act ℕ Call Chance → List Event
  | .step k o => ((p.threads[k]?).map fun t => t.pc.events k o).getD []
  | _ => []

end SyrocePms.CardCollection
