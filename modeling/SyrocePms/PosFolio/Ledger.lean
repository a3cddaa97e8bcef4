import Mathlib.Algebra.Order.Ring.Int
import Mathlib.Algebra.BigOperators.Group.List.Basic
import Mathlib.Data.List.Sort
import SyrocePms.Lib.Collection
import SyrocePms.Lib.Threads

/-! The charges of point-of-sale orders on folios: the ledger, the stored balances, the late
charges and the events that carry them. Orders and folios are known by their keys with the
tenant; amounts are in minor units. -/

namespace SyrocePms.PosFolio

open Lib

/-- The financial fields of a charge that a redelivery compares, with the total that may be
missing. -/
structure Terms where
  amount : Option ℤ
  total : Option ℤ
  currency : Option ℕ
  details : ℕ := 0
  deriving DecidableEq

/-- `{"$ifNull": ["$total", "$amount"]}`, summed. -/
def Terms.value (t : Terms) : ℤ := (t.total <|> t.amount).getD 0

structure Line where
  lineNo : ℕ
  terms : Terms
  deriving DecidableEq

/-- What the unique index of the charges sees: a source line, or a charge of another kind. -/
inductive Source
  | pos (order lineNo : ℕ)
  | other (id : ℕ)
  deriving DecidableEq

/-- A row of `folio_charges`. -/
structure Charge where
  source : Source
  folioId : ℕ
  terms : Terms
  voided : Bool := false

def Charge.isOf (c : Charge) (order : ℕ) : Bool :=
  match c.source with
  | .pos o _ => o = order
  | .other _ => false

structure Payment where
  folioId : ℕ
  amount : ℤ
  voided : Bool := false

inductive FolioStatus
  | isOpen
  | closed
  | checkedOut
  deriving DecidableEq

structure Folio where
  id : ℕ
  status : FolioStatus := .isOpen
  currency : Option ℕ := none
  bookingCurrency : Option ℕ := none
  balance : ℤ := 0
  deriving DecidableEq

/-- A row of `pos_late_charges`. -/
structure LateCharge where
  order : ℕ
  folioId : ℕ
  mismatch : Bool
  folioStatus : FolioStatus
  charges : List Line
  total : ℤ
  reversed : Bool

inductive Kind
  | posted
  | reversed
  deriving DecidableEq

structure Body where
  kind : Kind
  order : ℕ
  folioId : Option ℕ
  charges : List Line := []

/-- Pending, to be retried or in processing; processed; parked. -/
inductive EventState
  | outstanding
  | processed
  | failed
  deriving DecidableEq

structure Event where
  id : ℕ
  body : Body
  state : EventState := .outstanding

structure Store where
  events : Collection Event (·.id)
  charges : Collection Charge (·.source)
  payments : List Payment
  folios : Collection Folio (·.id)
  late : Collection LateCharge (·.order)

/-! ### The ledger -/

namespace Store

variable (s : Store)

def chargesTotal (folio : ℕ) : ℤ :=
  ((s.charges.rows.filter fun c => c.folioId = folio && !c.voided).map fun c => c.terms.value).sum

def paymentsTotal (folio : ℕ) : ℤ :=
  ((s.payments.filter fun p => p.folioId = folio && !p.voided).map Payment.amount).sum

/-- The charges minus the payments, without what is voided. -/
def ledger (folio : ℕ) : ℤ := s.chargesTotal folio - s.paymentsTotal folio

/-- The last write of `_recalc_folio_balance`. -/
def setBalance (folio : ℕ) (balance : ℤ) : Store :=
  { s with folios := s.folios.updateMany (fun f => f.id = folio) fun f => { f with balance } }

/-! ### Orders -/

def intent (order : ℕ) : Bool :=
  s.events.any fun e => e.body.kind = .reversed && e.body.order = order

/-- The folios that carry a line of an order, voided or not. -/
def carriers (order : ℕ) : List ℕ := (s.charges.rows.filter (·.isOf order)).map Charge.folioId

def insertLine (order folio : ℕ) (l : Line) : Option Store :=
  (s.charges.insertOne ⟨.pos order l.lineNo, folio, l.terms, false⟩).map fun cs =>
    { s with charges := cs }

/-- The stored source line of a redelivery with the same financial values. -/
def sameLine (order folio : ℕ) (l : Line) : Bool :=
  s.charges.any fun c => c.source = .pos order l.lineNo && c.folioId = folio && c.terms = l.terms

def storedLine (order folio : ℕ) (l : Line) : Bool :=
  s.charges.any fun c => c.source = .pos order l.lineNo && c.folioId = folio

/-- The compensation of `_apply_reversed`. -/
def voidOrder (order : ℕ) : Store :=
  { s with
    charges := s.charges.updateMany (fun c => c.isOf order && !c.voided)
      fun c => { c with voided := true } }

def reverseLate (order : ℕ) : Store :=
  { s with
    late := s.late.updateMany (fun l => l.order = order && !l.reversed)
      fun l => { l with reversed := true } }

end Store

/-! ### Folios that take charges -/

namespace Folio

def expectedCurrency (f : Folio) (charges : List Line) : Option ℕ :=
  match f.currency with
  | some c => some c
  | none =>
    if f.status = .isOpen ∧ charges.any (fun l => l.terms.currency.isSome) then f.bookingCurrency
    else none

def currencyMismatch (f : Folio) (charges : List Line) : Bool :=
  match f.expectedCurrency charges with
  | none => false
  | some c => charges.any fun l => l.terms.currency.isSome && l.terms.currency ≠ some c

def takes (f : Folio) (charges : List Line) : Bool :=
  f.status = .isOpen && !f.currencyMismatch charges

end Folio

def lateTotal (charges : List Line) : ℤ := (charges.map fun l => l.terms.value).sum

/-- The record that `_route_late_charge` writes. -/
def lateRecord (f : Folio) (charges : List Line) (order : ℕ) : LateCharge where
  order := order
  folioId := f.id
  mismatch := f.currencyMismatch charges
  folioStatus := f.status
  charges := charges
  total := lateTotal charges
  reversed := false

/-- The `$set` of `_route_late_charge` on a stored record. -/
def rewritten (f : Folio) (charges : List Line) (l : LateCharge) : LateCharge :=
  lateRecord f charges l.order

theorem rewritten_order (f : Folio) (charges : List Line) (l : LateCharge) :
    (rewritten f charges l).order = l.order := rfl

def Store.routeLateCharge (s : Store) (order : ℕ) (f : Folio) (charges : List Line) : Store :=
  match s.late.insertOne (lateRecord f charges order) with
  | some late => { s with late }
  | none =>
    { s with
      late := s.late.updateMany (fun l => l.order = order) (rewritten f charges)
        (rewritten_order f charges) }

/-- The body names an event on the folio `g` that has lines. -/
def Body.posts (b : Body) (g : ℕ) : Prop := b.kind = .posted ∧ b.folioId = some g ∧ b.charges ≠ []

/-! The deliveries of posting and reversal events, by workers and by the checkout, each in its
own steps on the store. -/

/-- `_recalc_folio_balance`: two reads, then the write. -/
inductive Recalc
  | charges
  | payments (charges : ℤ)
  | write (charges payments : ℤ)
  deriving DecidableEq

inductive Answer
  | success
  | permanent
  | retryable
  deriving DecidableEq

/-- The steps of `_apply_posted` from `check` to `recheck`, those of `_apply_reversed` from
`affected` to `balances`. -/
inductive Pc
  | check
  | folio
  | insert (rest : List Line) (inserted : Bool)
  | route (f : Folio)
  | posting (r : Recalc) (conflict : Option Answer)
  | recheck
  | affected
  | void (folios : List ℕ)
  | late (folios : List ℕ)
  | balances (folios : List ℕ) (r : Recalc)
  | mark (state : EventState)
  | ended
  deriving DecidableEq

def Answer.pc : Answer → Pc
  | .success => .mark .processed
  | .permanent => .mark .failed
  | .retryable => .ended

structure Delivery where
  eventId : ℕ
  body : Body
  pc : Pc

/-- What a delivery cannot foresee: the index cannot be ensured, and a stored line is a
proven split of its source. -/
structure Chance where
  indexUnavailable : Bool := false
  partitioned : Bool := false

inductive Move
  | advance (o : Chance)
  | fail

/-- Events are published and delivered again, and folios are closed and opened. -/
inductive Elsewhere
  | publish (id : ℕ) (b : Body)
  | redeliver (id : ℕ)
  | folio (id : ℕ) (status : FolioStatus)

namespace Store

variable (s : Store)

def publish (id : ℕ) (b : Body) : Option Store :=
  (s.events.insertOne ⟨id, b, .outstanding⟩).map fun events => { s with events }

def setEvent (id : ℕ) (state : EventState) : Store :=
  { s with events := s.events.updateMany (fun e => e.id = id) fun e => { e with state } }

def setStatus (id : ℕ) (status : FolioStatus) : Store :=
  { s with folios := s.folios.updateMany (fun f => f.id = id) fun f => { f with status } }

end Store

def elsewhere (s : Store) : Elsewhere → Option Store
  | .publish id b => s.publish id b
  | .redeliver id => some (s.setEvent id .outstanding)
  | .folio id status => some (s.setStatus id status)

def Recalc.next (s : Store) (folio : ℕ) : Recalc → Recalc
  | .charges => .payments (s.chargesTotal folio)
  | .payments c => .write c (s.paymentsTotal folio)
  | .write c q => .write c q

def postedStep (s : Store) (b : Body) (g : ℕ) (o : Chance) : Pc → Option (Store × Pc)
  | .check =>
    if b.charges = [] then some (s, Answer.success.pc)
    else some (s, if s.intent b.order then .affected else .folio)
  | .folio =>
    if o.indexUnavailable then some (s, Answer.retryable.pc)
    else
      match s.folios.get? g with
      | none => some (s, Answer.retryable.pc)
      | some f => some (s, if f.takes b.charges then .insert b.charges false else .route f)
  | .route f => some (s.routeLateCharge b.order f b.charges, .recheck)
  | .insert [] _ => some (s, .posting .charges none)
  | .insert (l :: rest) inserted =>
    match s.insertLine b.order g l with
    | some s' => some (s', .insert rest true)
    | none =>
      if s.sameLine b.order g l || (s.storedLine b.order g l && o.partitioned) then
        some (s, .insert rest inserted)
      else
        let a := if s.storedLine b.order g l then Answer.permanent else .retryable
        some (s, if inserted then .posting .charges (some a) else a.pc)
  | .posting (.write c q) conflict =>
    some (s.setBalance g (c - q), match conflict with
      | none => .recheck
      | some a => a.pc)
  | .posting r conflict => some (s, .posting (r.next s g) conflict)
  | .recheck => some (s, if s.intent b.order then .affected else Answer.success.pc)
  | _ => none

def reversedStep (s : Store) (b : Body) : Pc → Option (Store × Pc)
  | .affected => some (s, .void ((s.carriers b.order ++ b.folioId.toList).dedup))
  | .void folios => some (s.voidOrder b.order, .late folios)
  | .late folios => some (s.reverseLate b.order, .balances (folios.insertionSort (· ≤ ·)) .charges)
  | .balances [] _ => some (s, Answer.success.pc)
  | .balances (f :: rest) (.write c q) => some (s.setBalance f (c - q), .balances rest .charges)
  | .balances (f :: rest) r => some (s, .balances (f :: rest) (r.next s f))
  | _ => none

/-- A step of a delivery: the look at the event, then `_apply_posted`, the nested or the
delivered `_apply_reversed`, and the mark on the event. -/
def advance (s : Store) (t : Delivery) (o : Chance) : Option (Store × Pc) :=
  match t.pc with
  | .ended => none
  | .mark state => some (s.setEvent t.eventId state, .ended)
  | .affected | .void _ | .late _ | .balances _ _ => reversedStep s t.body t.pc
  | .check =>
    match t.body.folioId with
    | none => some (s, Answer.permanent.pc)
    | some g => postedStep s t.body g o .check
  | pc => t.body.folioId.bind fun g => postedStep s t.body g o pc

/-- A delivery takes up an event of the outbox, open or not. -/
def Store.deliver (s : Store) (id : ℕ) : Option Delivery :=
  (s.events.get? id).map fun e =>
    ⟨id, e.body, match e.body.kind with
      | .posted => .check
      | .reversed => .affected⟩

/-- Runs start with an empty outbox and correct balances. -/
def deliveries : Program Store Delivery Elsewhere ℕ Move where
  init s := s.events = .empty ∧ ∀ f ∈ s.folios, f.balance = s.ledger f.id
  env := elsewhere
  call s id := s.deliver id
  step _ s t m :=
    match m with
    | .advance o => (advance s t o).map fun r => (r.1, { t with pc := r.2 })
    | .fail => if t.pc = .ended then none else some (s, { t with pc := .ended })

/-! What is still due after a reversal or a posting, and who will see to it: a delivery in
flight, or an event that is delivered again. -/

/-- Something that the deliveries still have to put right: unvoided lines of a reversed order
on a folio, its late charge, or the balance of a folio. -/
inductive Due
  | line (order folio : ℕ)
  | late (order : ℕ)
  | balance (folio : ℕ)

namespace Store

variable (s : Store)

def isDue : Due → Prop
  | .line o f => s.intent o = true ∧ ∃ c ∈ s.charges, c.isOf o = true ∧ c.folioId = f ∧ c.voided = false
  | .late o => s.intent o = true ∧ ∃ l ∈ s.late, l.order = o ∧ l.reversed = false
  | .balance f => ∃ d ∈ s.folios, d.id = f ∧ d.balance ≠ s.ledger f

def takes (g : ℕ) (charges : List Line) : Bool := s.folios.any fun f => f.id = g && f.takes charges

end Store

/-- What a delivery of `b` from its start puts right. -/
def Body.covers (s : Store) (b : Body) : Due → Prop
  | .line o _ | .late o => b.order = o ∧ (b.kind = .reversed ∨ ∃ g, b.posts g)
  | .balance f =>
    match b.kind with
    | .reversed => f ∈ s.carriers b.order ∨ b.folioId = some f
    | .posted => ∃ g, b.posts g ∧ (f ∈ s.carriers b.order ∨ g = f) ∧
      (s.intent b.order = true ∨ (g = f ∧ f ∈ s.carriers b.order ∧ s.takes g b.charges = true))

/-- What a delivery of `b` in the state `pc` will still put right, if it does not fail. -/
def Pc.covers (s : Store) (b : Body) : Pc → Due → Prop
  | .check, d | .folio, d => b.covers s d
  | .insert _ _, .balance f | .posting _ _, .balance f =>
    (f ∈ s.carriers b.order ∨ b.folioId = some f) ∧
      (s.intent b.order = true ∨ (b.folioId = some f ∧ f ∈ s.carriers b.order))
  | .route _, .balance f | .recheck, .balance f =>
    (f ∈ s.carriers b.order ∨ b.folioId = some f) ∧ s.intent b.order = true
  | .affected, .balance f => f ∈ s.carriers b.order ∨ b.folioId = some f
  | .void fs, .balance f | .late fs, .balance f | .balances fs _, .balance f => f ∈ fs
  | .void fs, .line o f => b.order = o ∧ f ∈ fs
  | .late _, .line _ _ | .balances _ _, _ => False
  | .mark _, _ | .ended, _ => False
  | _, .line o _ | _, .late o => b.order = o

def Delivery.covers (s : Store) (t : Delivery) (d : Due) : Prop := t.pc.covers s t.body d

def Waits (p : Pool Store Delivery) (e : Event) : Prop :=
  e.state = .outstanding ∧ ∀ t ∈ p.threads, t.eventId = e.id → t.pc = .ended

def Covered (p : Pool Store Delivery) (d : Due) : Prop :=
  (∃ t ∈ p.threads, t.covers p.store d) ∨ ∃ e ∈ p.store.events, Waits p e ∧ e.body.covers p.store d

/-! ### The condition -/

/-- The delivery has begun to recalculate the balance of `f`. -/
def Delivery.reads (t : Delivery) (f : ℕ) : Bool :=
  match t.pc with
  | .posting r _ => r ≠ .charges && t.body.folioId = some f
  | .balances (g :: _) r => r ≠ .charges && g = f
  | _ => false

/-- No other delivery is between its reads of the ledger of `f` and its write. -/
def Undisturbed (p : Pool Store Delivery) (k : ℕ) (f : ℕ) : Prop :=
  ∀ j < p.threads.length, j ≠ k → ∀ u ∈ p.threads[j]?, u.reads f = false

def Pc.marks : Pc → Bool
  | .mark _ => true
  | _ => false

def Pc.isPosting : Pc → Bool
  | .insert _ _ | .posting _ _ => true
  | _ => false

/-- The delivery fails while its event is outstanding and has no other delivery in flight,
and, if it has begun to post, while the folio takes its lines or the order is reversed. -/
def FailsAlone (p : Pool Store Delivery) (k : ℕ) (t : Delivery) : Prop :=
  (∃ e ∈ p.store.events.rows, e.id = t.eventId ∧ e.state = .outstanding) ∧
    (∀ j < p.threads.length, j ≠ k → ∀ u ∈ p.threads[j]?, u.eventId = t.eventId → u.pc = .ended) ∧
    (t.pc.isPosting = true → p.store.intent t.body.order = true ∨
      ∀ g ∈ t.body.folioId, p.store.takes g t.body.charges = true)

def Matches (s : Store) (b : Body) (g : ℕ) (l : Line) (o : Chance) : Prop :=
  s.insertLine b.order g l = none →
    s.sameLine b.order g l = true ∨ (s.storedLine b.order g l = true ∧ o.partitioned = true)

def StepOrderly (p : Pool Store Delivery) (k : ℕ) (t : Delivery) : Move → Prop
  | .fail => t.pc.marks = true ∨ FailsAlone p k t
  | .advance o =>
    match t.pc with
    | .folio => o.indexUnavailable = true ∨ (∃ g ∈ t.body.folioId, p.store.folios.get? g = none) →
      FailsAlone p k t
    | .insert (l :: _) _ => ∀ g ∈ t.body.folioId, Matches p.store t.body g l o ∧
      (p.store.insertLine t.body.order g l ≠ none → Undisturbed p k g)
    | .void _ => ∀ c ∈ p.store.charges.rows, c.isOf t.body.order = true → c.voided = false →
      Undisturbed p k c.folioId
    | _ => True

/-- The postings to a folio that are outstanding or in flight have no lines on it yet, or
their order is reversed. -/
def NoHalfPosted (p : Pool Store Delivery) (folio : ℕ) : Prop :=
  ∀ e ∈ p.store.events.rows, e.body.kind = .posted → e.body.folioId = some folio →
    (e.state = .outstanding ∨ ∃ t ∈ p.threads, t.eventId = e.id ∧ t.pc ≠ .ended) →
      folio ∈ p.store.carriers e.body.order → p.store.intent e.body.order = true

/-- Recalculations are not overtaken, deliveries fail alone, redelivered lines match, and a
folio is not closed on a half posted event. -/
def Orderly (p : Pool Store Delivery) : Act Elsewhere ℕ Move → Prop
  | .step k m => ∀ t ∈ p.threads[k]?, StepOrderly p k t m
  | .env (.folio id status) => status = .isOpen ∨ NoHalfPosted p id
  | _ => True

end SyrocePms.PosFolio
