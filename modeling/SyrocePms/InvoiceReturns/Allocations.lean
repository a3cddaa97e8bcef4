import SyrocePms.Lib.Collection
import SyrocePms.Lib.Decimal
import SyrocePms.Lib.Documents
import SyrocePms.Lib.Transaction
import SyrocePms.Lib.Threads

/-! What may be returned of the lines of incoming invoices. Each line has a balance under a version,
and allocations hold parts of it for an action. An allocation is addressed by an id that is derived
from its line and the time of the call, under no unique index. -/

namespace SyrocePms.InvoiceReturns

open Lib

variable {x y : ℚ}

/-! ### Decimals -/

/-- The sum in the decimal context, which has 28 digits. -/
def add (x y : ℚ) : ℚ := Decimal.digits 28 (x + y)

def sub (x y : ℚ) : ℚ := Decimal.digits 28 (x - y)

/-- The sum needs no more than 28 digits. -/
def addsExactly (x y : ℚ) : Bool := add x y = x + y

def subtractsExactly (x y : ℚ) : Bool := sub x y = x - y

theorem add_eq (h : addsExactly x y = true) : add x y = x + y := of_decide_eq_true h

theorem sub_eq (h : subtractsExactly x y = true) : sub x y = x - y := of_decide_eq_true h

/-! ### Balances and allocations -/

/-- `ReturnAllocationState`. -/
inductive AllocationState
  | reserved
  | providerPending
  | confirmed
  | released
  | reconciliationRequired
  deriving DecidableEq

def AllocationState.isOpen : AllocationState → Bool
  | .reserved | .providerPending | .reconciliationRequired => true
  | .confirmed | .released => false

/-- A row of `invoice_return_balances`. -/
structure Balance where
  invoice : ℕ
  line : ℕ
  original : ℚ
  reserved : ℚ := 0
  confirmed : ℚ := 0
  version : ℕ := 1

def Balance.key (b : Balance) : ℕ × ℕ := (b.invoice, b.line)

/-- `alloc_{tenant}_{line}_{timestamp}`. -/
structure AllocationId where
  line : ℕ
  stamp : ℕ
  deriving DecidableEq

/-- A row of `invoice_return_allocations`. -/
structure Allocation where
  id : AllocationId
  invoice : ℕ
  line : ℕ
  action : ℕ
  quantity : ℚ
  state : AllocationState := .reserved

def Allocation.key (a : Allocation) : ℕ × ℕ := (a.invoice, a.line)

def Allocation.setState (state : AllocationState) (a : Allocation) : Allocation := { a with state := state }

structure Store where
  balances : Collection Balance Balance.key := .empty
  allocations : List Allocation := []

/-- `ReturnQuantityRequest`. -/
structure Request where
  line : ℕ
  quantity : ℚ

inductive Error
  | nothingLeft
  | quantitiesMissing
  | invalidType
  | notPositive (line : ℕ)
  | onlyFull
  | balanceNotFound (line : ℕ)
  | insufficient (line : ℕ) (requested available : ℚ)
  | concurrentUpdate (line : ℕ)
  | concurrentTransition
  | transactionFailed

/-! ### The transactions -/

def Balance.set (read : Balance) (reserved : ℚ) (confirmed : Option ℚ) (b : Balance) : Balance :=
  { b with reserved := reserved, confirmed := confirmed.getD b.confirmed, version := read.version + 1 }

@[simp] theorem Balance.key_set (read : Balance) (reserved : ℚ) (confirmed : Option ℚ) (b : Balance) :
    (read.set reserved confirmed b).key = b.key := rfl

namespace Store

variable (s : Store)

def initializeBalance (invoice line : ℕ) (quantity : ℚ) : Store :=
  { s with balances := (s.balances.insertOne { invoice := invoice, line := line, original := quantity }).getD s.balances }

/-- `update_one` on a balance under the version that was read. -/
def updateBalance (read : Balance) (reserved : ℚ) (confirmed : Option ℚ) : Option Store :=
  if s.balances.any fun b => b.key = read.key && b.version = read.version then
    some { s with balances := s.balances.update read.key (read.set reserved confirmed) (read.key_set reserved confirmed) }
  else none

end Store

def allocateLine (invoice action stamp : ℕ) (r : Request) : Transaction Store Error Allocation := fun s =>
  match s.balances.get? (invoice, r.line) with
  | none => .error (.balanceNotFound r.line)
  | some b =>
    let used := add b.reserved b.confirmed
    if b.original < add used r.quantity then .error (.insufficient r.line r.quantity (sub b.original used))
    else
      match s.updateBalance b (add b.reserved r.quantity) none with
      | none => .error (.concurrentUpdate r.line)
      | some s' =>
        let a : Allocation :=
          { id := ⟨r.line, stamp⟩, invoice := invoice, line := r.line, action := action, quantity := r.quantity }
        .ok ({ s' with allocations := s'.allocations ++ [a] }, a)

def allocateWithinTransaction (invoice action stamp : ℕ) (requests : List Request) :
    Transaction Store Error (List Allocation) :=
  Transaction.forEach (allocateLine invoice action stamp) requests

def Store.adjustBalance (s : Store) (a : Allocation) (state : AllocationState) : Except Error Store :=
  match s.balances.get? a.key with
  | none => .ok s
  | some b =>
    let reserved := sub b.reserved a.quantity
    match state with
    | .confirmed =>
      ((s.updateBalance b reserved (some (add b.confirmed a.quantity))).map .ok).getD (.error .concurrentTransition)
    | .released => ((s.updateBalance b reserved none).map .ok).getD (.error .concurrentTransition)
    | _ => .ok s

def Store.allocation? (s : Store) (id : AllocationId) : Option Allocation := s.allocations.find? fun a => a.id = id

def Store.setState (s : Store) (id : AllocationId) (state : AllocationState) : Store :=
  { s with allocations := Documents.updateOne (fun a => a.id = id) (Allocation.setState state) s.allocations }

def updateAllocationState (id : AllocationId) (state : AllocationState) : Transaction Store Error (Option Allocation) :=
  fun s =>
    match s.allocation? id with
    | none => .ok (s, none)
    | some a =>
      if a.state = state then .ok (s, some a)
      else do
        let s' ← if a.state.isOpen then (s.setState id state).adjustBalance a state else .ok (s.setState id state)
        .ok (s', some (a.setState state))

/-! ### What the transactions meet -/

/-- No sum of an allocation needs more than 28 digits. -/
def Balance.addsExactly (b : Balance) (quantity : ℚ) : Bool :=
  InvoiceReturns.addsExactly b.reserved b.confirmed &&
    InvoiceReturns.addsExactly (b.reserved + b.confirmed) quantity && InvoiceReturns.addsExactly b.reserved quantity

/-- No sum of the entries, one after the other, needs more than 28 digits. -/
def allocatesExactly (invoice action stamp : ℕ) : List Request → Store → Bool
  | [], _ => true
  | r :: l, s => (allocateLine invoice action stamp r s).toOption.all fun x =>
    ((s.balances.get? (invoice, r.line)).all fun b => b.addsExactly r.quantity) &&
      allocatesExactly invoice action stamp l x.1

/-- The transition of an open allocation needs no more than 28 digits. -/
def Store.adjustsExactly (s : Store) (a : Allocation) (state : AllocationState) : Bool :=
  state.isOpen || (s.balances.get? a.key).all fun b =>
    subtractsExactly b.reserved a.quantity && (state = .released || addsExactly b.confirmed a.quantity)

/-- The id addresses an allocation that is open, or that has the new state already. -/
def Store.isSound (s : Store) (id : AllocationId) (state : AllocationState) : Bool :=
  (s.allocation? id).all fun a => a.state = state || a.state.isOpen && s.adjustsExactly a state

/-! The calls that move return quantities, access by access: the two that allocate, the preparation
for the provider, and the three handlers. A cursor reads one document after the other, and a handler
may read ahead of its updates. -/

inductive ReturnType
  | full
  | part
  | other
  deriving DecidableEq

inductive Service
  | request
  | reserve
  deriving DecidableEq

/-- A handler moves the allocations of an action from some states to one. -/
structure Handler where
  selected : List AllocationState
  target : AllocationState

def handleReturnActionSuccess : Handler := ⟨[.providerPending, .reconciliationRequired], .confirmed⟩

def handleReturnActionValidationFailure : Handler := ⟨[.reserved, .providerPending], .released⟩

def handleReturnActionUnknownFailure : Handler := ⟨[.providerPending], .reconciliationRequired⟩

inductive Answer
  | allocated (l : List Allocation)
  | duplicate
  | prepared (isReady : Bool)
  | handled
  | raised (e : Error)

/-- Where a call stands. A number says how many documents its cursor has passed. -/
inductive Pc
  | calculate (service : Service) (invoice action : ℕ) (found : List Request) (n : ℕ)
  | allocate (service : Service) (invoice action : ℕ) (requests : List Request)
  | count (action : ℕ)
  | find (action count : ℕ) (docs : List Allocation) (n : ℕ)
  | pend (action total : ℕ) (docs : List Allocation)
  | recount (action total : ℕ)
  | handle (h : Handler) (action : ℕ) (ids : List AllocationId) (n : ℕ)
  | returned (answer : Answer)
  | stopped

/-- The time of a transaction, whether the database aborts it, and whether the action is there already. -/
structure Chance where
  stamp : ℕ := 0
  fails : Bool := false
  isDuplicate : Bool := false

/-- The check of `process_return_request` on its quantities. -/
def validated (invoice action : ℕ) (requests : List Request) : Pc :=
  match requests.find? fun r => r.quantity ≤ 0 with
  | some r => .returned (.raised (.notPositive r.line))
  | none => .allocate .request invoice action requests

/-- What `calculate_full_return_quantities` adds for a balance. -/
def Balance.remaining (b : Balance) (invoice : ℕ) : List Request :=
  let remaining := sub b.original (add b.reserved b.confirmed)
  if b.invoice = invoice ∧ 0 < remaining then [⟨b.line, remaining⟩] else []

def afterCalculation (invoice action : ℕ) (found : List Request) (service : Service) : Pc :=
  if found.isEmpty then .returned (.raised .nothingLeft)
  else
    match service with
    | .request => validated invoice action found
    | .reserve => .allocate .reserve invoice action found

def afterFind (action count : ℕ) (docs : List Allocation) : Pc :=
  if docs.length = count then .pend action count docs else .returned (.prepared false)

def Handler.select (h : Handler) (action : ℕ) (a : Allocation) : List AllocationId :=
  if a.action = action ∧ a.state ∈ h.selected then [a.id] else []

/-- A transaction, which the database may abort, and what follows its value. -/
def Store.commit {α : Type} (s : Store) (o : Chance) (t : Transaction Store Error α) (next : α → Pc) : Store × Pc :=
  if o.fails then (s, .returned (.raised .transactionFailed))
  else
    match t.run s with
    | (s', .ok x) => (s', next x)
    | (s', .error e) => (s', .returned (.raised e))

namespace Store

variable (s : Store)

def countOf (action : ℕ) (p : AllocationState → Bool) : ℕ := s.allocations.countP fun a => a.action = action && p a.state

def afterPending (action total : ℕ) (docs : List Allocation) : Option Allocation → Pc
  | some _ => .pend action total docs
  | none => .returned (.prepared false)

def step (o : Chance) : Pc → Option (Store × Pc)
  | .calculate service invoice action found n =>
    some (s, match s.balances.rows[n]? with
      | some b => .calculate service invoice action (found ++ b.remaining invoice) (n + 1)
      | none => afterCalculation invoice action found service)
  | .allocate service invoice action requests =>
    if service = .reserve ∧ o.isDuplicate = true then some (s, .returned .duplicate)
    else some (s.commit o (allocateWithinTransaction invoice action o.stamp requests) fun l => .returned (.allocated l))
  | .count action =>
    let n := s.countOf action fun _ => true
    some (s, if n = 0 ∨ 1000 < n then .returned (.prepared false) else .find action n [] 0)
  | .find action count docs n =>
    some (s, match if docs.length = 1000 then none else s.allocations[n]? with
      | some a => .find action count (if a.action = action then docs ++ [a] else docs) (n + 1)
      | none => afterFind action count docs)
  | .pend action total [] => some (s, .recount action total)
  | .pend action total (a :: docs) =>
    if a.state = .reserved then
      some (s.commit o (updateAllocationState a.id .providerPending) (afterPending action total docs))
    else some (s, if a.state = .providerPending then .pend action total docs else .returned (.prepared false))
  | .recount action total => some (s, .returned (.prepared (s.countOf action (· = .providerPending) = total)))
  | .handle _ _ [] n => if s.allocations.length ≤ n then some (s, .returned .handled) else none
  | .handle h action (id :: ids) n => some (s.commit o (updateAllocationState id h.target) fun _ => .handle h action ids n)
  | .returned _ | .stopped => none

/-- The cursor of a handler reads the next document. -/
def fetch : Pc → Option Pc
  | .handle h action ids n => (s.allocations[n]?).map fun a => .handle h action (ids ++ h.select action a) (n + 1)
  | _ => none

end Store

inductive Call
  | processReturnRequest (type : ReturnType) (invoice action : ℕ) (parts : List Request)
  | reserveReturnAction (type : ReturnType) (invoice action : ℕ)
  | prepareReturnActionForProvider (action : ℕ)
  | success (action : ℕ)
  | validationFailure (action : ℕ)
  | unknownFailure (action : ℕ)

def Call.start : Call → Pc
  | .processReturnRequest .full invoice action _ => .calculate .request invoice action [] 0
  | .processReturnRequest .part invoice action parts =>
    if parts.isEmpty then .returned (.raised .quantitiesMissing) else validated invoice action parts
  | .processReturnRequest .other _ _ _ => .returned (.raised .invalidType)
  | .reserveReturnAction type invoice action =>
    if type = .full then .calculate .reserve invoice action [] 0 else .returned (.raised .onlyFull)
  | .prepareReturnActionForProvider action => .count action
  | .success action => .handle handleReturnActionSuccess action [] 0
  | .validationFailure action => .handle handleReturnActionValidationFailure action [] 0
  | .unknownFailure action => .handle handleReturnActionUnknownFailure action [] 0

/-- The balance of a line is initialized. Only a positive quantity is ingested. -/
inductive Event
  | line (invoice line : ℕ) (quantity : ℚ)

inductive Move
  | advance (o : Chance)
  | fetch
  | stop

def Pc.isOver : Pc → Bool
  | .returned _ | .stopped => true
  | _ => false

def Pc.move (s : Store) (pc : Pc) : Move → Option (Store × Pc)
  | .advance o => s.step o pc
  | .fetch => (s.fetch pc).map fun pc' => (s, pc')
  | .stop => if pc.isOver then none else some (s, .stopped)

/-- Runs start without balances and allocations. -/
def returns : Program Store Pc Event Call Move where
  init s := s.balances = .empty ∧ s.allocations = []
  env s
    | .line invoice line quantity => if 0 < quantity then some (s.initializeBalance invoice line quantity) else none
  call _ c := some c.start
  step _ s pc m := pc.move s m

end SyrocePms.InvoiceReturns
