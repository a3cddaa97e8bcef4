import Mathlib.Algebra.Order.Ring.Int
import Mathlib.Algebra.BigOperators.Group.List.Basic
import SyrocePms.Lib.Collection
import SyrocePms.Lib.Threads

/-! The shifts of the till, with the cash transactions that they hold, and the payments that a
reconciliation looks through. Amounts are in minor units, times count from an epoch, and all
documents are those of one tenant. -/

namespace SyrocePms.Cashier

open Lib List

inductive Method
  | cash
  | card
  | bankTransfer
  | online
  | other
  deriving DecidableEq

inductive Direction
  | into
  | out
  deriving DecidableEq

/-- An idempotency key: that of a payment, or one that the client has sent. -/
inductive Key
  | payment (id : ℕ)
  | other (n : ℕ)
  deriving DecidableEq

structure Transaction where
  amount : ℤ
  method : Method
  direction : Direction
  key : Option Key

inductive ShiftStatus
  | isOpen
  | closed
  | handedOver
  deriving DecidableEq

structure Shift where
  id : ℕ
  status : ShiftStatus := .isOpen
  openedAt : ℤ
  businessDate : Option ℕ
  openingAmount : ℤ
  cashIn : ℤ := 0
  cashOut : ℤ := 0
  transactions : List Transaction := []

namespace Shift

variable (x : Shift)

def isOpen : Bool := x.status = .isOpen

def keys : List Key := x.transactions.filterMap Transaction.key

def records (k : Key) : Prop := k ∈ x.keys

def cashOf (d : Direction) : ℤ :=
  ((x.transactions.filter fun t => t.method = .cash && t.direction = d).map Transaction.amount).sum

/-- The amount that close and handover expect in the drawer. -/
def expected : ℤ := x.openingAmount + x.cashIn - x.cashOut

/-- `$push` and `$inc` of `record_cash_transaction`. -/
def record (t : Transaction) : Shift :=
  { x with
    transactions := x.transactions ++ [t]
    cashIn := x.cashIn + if t.method = .cash ∧ t.direction = .into then t.amount else 0
    cashOut := x.cashOut + if t.method = .cash ∧ t.direction = .out then t.amount else 0 }

end Shift

/-- `cashier_shifts` under its unique indexes: the id, and one open shift. -/
structure Shifts extends Collection Shift (·.id) where
  oneOpen : ∀ x ∈ rows, ∀ y ∈ rows, x.isOpen = true → y.isOpen = true → x = y

namespace Shifts

variable (s : Shifts)

def empty : Shifts := ⟨.empty, fun _ hx => absurd hx not_mem_nil⟩

def active : Option Shift := s.rows.find? Shift.isOpen

/-- The insert of an open shift, refused while another is open. -/
def insertOpen (x : Shift) : Option Shifts :=
  if h : s.rows.any Shift.isOpen then none
  else
    match hc : s.toCollection.insertOne x with
    | none => none
    | some c => some ⟨c, by
      have hnone : ∀ y ∈ s.rows, y.isOpen = true → False := fun y hy ho =>
        h (any_eq_true.mpr ⟨y, hy, ho⟩)
      rw [(Collection.insertOne_eq_some hc).2]
      intro y hy z hz hoy hoz
      obtain hy | hy := mem_append.mp hy
      · exact absurd hoy (hnone y hy)
      · obtain hz | hz := mem_append.mp hz
        · exact absurd hoz (hnone z hz)
        · rw [mem_singleton.mp hy, mem_singleton.mp hz]⟩

theorem insertOpen_eq_some {s s' : Shifts} {x : Shift} (h : s.insertOpen x = some s') :
    s'.rows = s.rows ++ [x] ∧ (∀ y ∈ s.rows, y.isOpen = false) ∧ ∀ y ∈ s.rows, y.id ≠ x.id := by
  unfold insertOpen at h
  split at h
  · cases h
  · rename_i hany
    split at h
    · cases h
    · rename_i c hc
      cases h
      refine ⟨(Collection.insertOne_eq_some hc).2, fun y hy => ?_, (Collection.insertOne_eq_some hc).1⟩
      rw [Bool.eq_false_iff]
      exact fun ho => hany (any_eq_true.mpr ⟨y, hy, ho⟩)

def updateMany (p : Shift → Bool) (f : Shift → Shift) (hid : ∀ x, (f x).id = x.id)
    (hopen : ∀ x, (f x).isOpen = true → x.isOpen = true) : Shifts where
  toCollection := s.toCollection.updateMany p f hid
  oneOpen := by
    intro x hx y hy hox hoy
    obtain ⟨x', hx', rfl⟩ := Collection.mem_updateMany.mp hx
    obtain ⟨y', hy', rfl⟩ := Collection.mem_updateMany.mp hy
    have hox' : x'.isOpen = true := by
      split at hox
      · exact hopen x' hox
      · exact hox
    have hoy' : y'.isOpen = true := by
      split at hoy
      · exact hopen y' hoy
      · exact hoy
    rw [s.oneOpen x' hx' y' hy' hox' hoy']

end Shifts

/-! ### Payments -/

inductive PaymentStatus
  | void
  | voided
  | failed
  | cancelled
  | canceled
  | rejected
  | pending
  | processing
  | initiated
  | authorized
  | expired
  | declined
  | requiresAction
  | other

def PaymentStatus.isInvalid : PaymentStatus → Bool
  | .other => false
  | _ => true

/-- The statuses that the reconciliation skips besides. -/
def PaymentStatus.isSkipped : PaymentStatus → Bool
  | .void | .voided | .failed | .cancelled | .rejected => true
  | _ => false

/-- A time stamp of a payment that `_event_datetime` can or cannot read. -/
inductive Stamp
  | at (time : ℤ)
  | unreadable

structure Payment where
  id : Option ℕ
  businessDate : Option ℕ
  voided : Bool := false
  status : PaymentStatus := .other
  method : Method
  processedAt : Option Stamp
  createdAt : Option Stamp := none
  paymentDate : Option Stamp := none
  date : Option Stamp := none
  amount : ℤ
  refund : Bool := false
  drawerAmount : Option ℤ

namespace Payment

variable (p : Payment)

def isValid : Bool := !p.voided && !p.status.isInvalid

/-- `_event_datetime` of the first stamp that is set. -/
def eventAt : Option ℤ :=
  match p.processedAt <|> p.createdAt <|> p.paymentDate <|> p.date with
  | some (.at t) => some t
  | _ => none

def isRefund : Bool := p.refund || p.amount < 0

end Payment

structure Store where
  shifts : Shifts
  payments : List Payment
  clock : ℤ := 0

namespace Store

variable (s : Store)

/-- When the payment `id` was made. -/
def eventOf (id : ℕ) : Option ℤ := (s.payments.find? fun p => p.id = some id).bind Payment.eventAt

/-- The write of `record_cash_transaction`, with its filter. -/
def push (shift : ℕ) (t : Transaction) : Option Store :=
  if s.shifts.rows.any fun x => x.id = shift && x.isOpen && t.key.all fun k => !x.keys.contains k then
    some { s with
      shifts := s.shifts.updateMany
        (fun x => x.id = shift && x.isOpen && t.key.all fun k => !x.keys.contains k)
        (fun x => x.record t) (fun _ => rfl) fun _ h => h }
  else none

/-- The search for a stored transaction with the key, in any shift. -/
def hasKey (k : Key) : Bool := s.shifts.rows.any fun x => x.keys.contains k

/-- A business date for the shift of a reconciliation that has none. -/
def dateShift (shift date : ℕ) : Store :=
  { s with
    shifts := s.shifts.updateMany (fun x => x.id = shift && x.isOpen)
      (fun x => { x with businessDate := some date }) (fun _ => rfl) fun _ h => h }

def datePayment (id date : ℕ) : Store :=
  { s with
    payments := s.payments.map fun p =>
      if p.id = some id then { p with businessDate := some date } else p }

/-- The update of close and handover: the counters are those that have been read. -/
def closeShift (x : Shift) (status : ShiftStatus) (h : status ≠ .isOpen) : Option Store :=
  if s.shifts.rows.any fun y => y.id = x.id && y.isOpen && y.cashIn = x.cashIn && y.cashOut = x.cashOut then
    some { s with
      shifts := s.shifts.updateMany
        (fun y => y.id = x.id && y.isOpen && y.cashIn = x.cashIn && y.cashOut = x.cashOut)
        (fun y => { y with status }) (fun _ => rfl) fun _ ho => absurd (of_decide_eq_true ho) h }
  else none

def openShift (x : Shift) : Option Store :=
  (s.shifts.insertOpen x).map fun shifts => { s with shifts }

end Store

/-! Shifts are opened, closed and handed over while cash transactions are recorded and payments
are reconciled, each call in its own steps. The reconciliation before a close or a handover is
a call of its own. -/

/-- The arguments of `record_cash_transaction`. -/
structure Request where
  amount : ℤ
  method : Method
  direction : Option Direction
  key : Option Key
  requireOpenShift : Bool

/-- A reconciliation: what it has read of the shift, and the payments still to look at. -/
structure Sweep where
  openedAt : ℤ
  keys : List Key
  date : ℕ
  rest : List Payment

inductive Pc
  | look (q : Request) (back : Option Sweep)
  | push (q : Request) (d : Direction) (shift : ℕ) (back : Option Sweep)
  | refused (q : Request) (back : Option Sweep)
  | reconcile
  | stamp (x : Shift)
  | candidates (x : Shift) (date : ℕ)
  | sweep (w : Sweep)
  | opening (openingAmount : ℤ)
  | insert (openingAmount : ℤ) (openedAt : ℤ)
  | closing (handover : Bool)
  | update (x : Shift) (now : ℤ) (handover : Bool)
  | ended

/-- What a call cannot foresee: the business date, the id of a new shift, and whether a check
that is not about the till refuses it. -/
structure Chance where
  today : ℕ := 0
  newId : ℕ := 0
  refused : Bool := false

inductive Call
  | record (q : Request)
  | reconcile
  | openShift (openingAmount : ℤ)
  | closeShift
  | handoverShift

/-- Payments are made and voided, and time passes. -/
inductive Elsewhere
  | pay (p : Payment)
  | void (id : ℕ)
  | tick (seconds : ℕ)

def elsewhere (s : Store) : Elsewhere → Option Store
  | .pay p =>
    if s.payments.any fun x => x.id = p.id && p.id.isSome then none
    else some { s with payments := s.payments ++ [p] }
  | .void id =>
    some { s with
      payments := s.payments.map fun p => if p.id = some id then { p with voided := true } else p }
  | .tick n => some { s with clock := s.clock + n }

/-- The tests of `reconcile_open_shift_payments` on a payment. -/
def Sweep.selects (w : Sweep) (p : Payment) : Option (ℕ × ℤ) :=
  match p.id, p.eventAt, p.drawerAmount with
  | some id, some t, some amount =>
    if !w.keys.contains (.payment id) && p.isValid && !p.status.isSkipped && p.method = .cash &&
        decide (w.openedAt ≤ t) then some (id, amount)
    else none
  | _, _, _ => none

/-- The call of `record_cash_transaction` for a payment. -/
def Payment.request (p : Payment) (id : ℕ) (amount : ℤ) : Request where
  amount := amount
  method := .cash
  direction := some (if p.isRefund then .out else .into)
  key := some (.payment id)
  requireOpenShift := true

def resume (back : Option Sweep) (key : Option Key) : Pc :=
  match back with
  | none => .ended
  | some w => .sweep { w with keys := key.toList ++ w.keys }

/-- The step `pc` of a call. -/
def advance (s : Store) (o : Chance) : Pc → Option (Store × Pc)
  | .look q back =>
    match q.direction with
    | none => some (s, resume back none)
    | some d =>
      if q.amount ≤ 0 then some (s, resume back none)
      else
        match s.shifts.active with
        | some x => some (s, .push q d x.id back)
        | none =>
          some (s, if q.requireOpenShift && q.method = .cash then .ended else resume back none)
  | .push q d shift back =>
    match s.push shift ⟨q.amount, q.method, d, q.key⟩ with
    | some s' => some (s', resume back q.key)
    | none => some (s, .refused q back)
  | .refused q back =>
    some (s, if q.key.any s.hasKey then resume back q.key
      else if q.requireOpenShift && q.method = .cash then .ended
      else resume back none)
  | .reconcile =>
    match s.shifts.active with
    | none => some (s, .ended)
    | some x => some (s, .stamp x)
  | .stamp x =>
    match x.businessDate with
    | some date => some (s, .candidates x date)
    | none => some (s.dateShift x.id o.today, .candidates x o.today)
  | .candidates x date =>
    some (s, .sweep ⟨x.openedAt, x.keys, date,
      s.payments.filter fun p => p.businessDate = some date || p.businessDate = none⟩)
  | .sweep w =>
    match w.rest with
    | [] => some (s, .ended)
    | p :: rest =>
      match w.selects p with
      | none => some (s, .sweep { w with rest })
      | some (id, amount) =>
        some (if p.businessDate = none then s.datePayment id w.date else s,
          .look (p.request id amount) (some { w with rest }))
  | .opening openingAmount =>
    if s.shifts.rows.any Shift.isOpen then some (s, .ended)
    else some (s, .insert openingAmount s.clock)
  | .insert openingAmount openedAt =>
    match s.openShift ⟨o.newId, .isOpen, openedAt, some o.today, openingAmount, 0, 0, []⟩ with
    | some s' => some (s', .ended)
    | none => some (s, .ended)
  | .closing handover =>
    match s.shifts.active with
    | none => some (s, .ended)
    | some x => some (s, if o.refused then .ended else .update x s.clock handover)
  | .update x now handover =>
    if handover then
      match s.closeShift x .handedOver (by decide) with
      | some s' => some (s', .insert x.expected now)
      | none => some (s, .ended)
    else
      match s.closeShift x .closed (by decide) with
      | some s' => some (s', .ended)
      | none => some (s, .ended)
  | .ended => none

def Call.start : Call → Pc
  | .record q => .look q none
  | .reconcile => .reconcile
  | .openShift amount => .opening amount
  | .closeShift => .closing false
  | .handoverShift => .closing true

/-- Runs start without shifts. -/
def till : Program Store Pc Elsewhere Call Chance where
  init s := s.shifts = .empty
  env := elsewhere
  call _ c := some c.start
  step _ s pc o := advance s o pc

end SyrocePms.Cashier
