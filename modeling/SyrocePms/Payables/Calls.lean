import SyrocePms.Lib.CollectionSum
import SyrocePms.Lib.Threads

/-! Supplier invoices and their payments. Every access of a call to the database is a step. What
the general ledger answers is left open, and a call may stop anywhere. Money is in cents, and the
tolerance is half a cent. -/

namespace SyrocePms.Payables

open Lib Collection

/-! ### Documents -/

inductive InvoiceStatus where
  | opened | partly | paid | void
  deriving DecidableEq

inductive GlStatus where
  | posted | blocked | reversed

structure Invoice where
  id : ℕ
  total : ℕ
  paid : ℤ
  balance : ℤ
  overpaid : Bool := false
  status : InvoiceStatus := .opened
  /-- Whether the currency is TRY or TRL. -/
  isLira : Bool := true
  glStatus : Option GlStatus := none
  glEntry : Option ℕ := none
  glReversal : Option ℕ := none

structure Payment where
  id : ℕ
  invoiceId : ℕ
  amount : ℕ
  key : Option ℕ
  glStatus : Option GlStatus := none
  glEntry : Option ℕ := none

/-- What the general ledger answers to a posting. -/
inductive Posting where
  | disabled
  | blocked
  | posted (entry : ℕ)
  deriving DecidableEq

def Invoice.record (v : Invoice) : Posting → Invoice
  | .disabled => v
  | .blocked => { v with glStatus := some .blocked }
  | .posted entry => { v with glStatus := some .posted, glEntry := some entry }

def Payment.record (x : Payment) : Posting → Payment
  | .disabled => x
  | .blocked => { x with glStatus := some .blocked }
  | .posted entry => { x with glStatus := some .posted, glEntry := some entry }

def statusFor (total : ℕ) (paid : ℤ) : InvoiceStatus :=
  if 2 * paid ≤ 1 then .opened
  else if 2 * (total : ℤ) ≤ 2 * paid + 1 then .paid
  else .partly

def Invoice.recalculated (total : ℕ) (paid : ℤ) (v : Invoice) : Invoice :=
  { v with
    paid := paid
    balance := total - paid
    overpaid := decide (2 * (total : ℤ) + 1 < 2 * paid)
    status := statusFor total paid }

/-- What a void writes. `read` is the invoice as the call has read it. -/
def Invoice.voided (read : Invoice) (reversal : Option ℕ) (v : Invoice) : Invoice :=
  { v with
    status := .void
    glReversal := reversal
    glStatus := if reversal.isSome then some .reversed else read.glStatus }

theorem Invoice.id_record (v : Invoice) (o : Posting) : (v.record o).id = v.id := by cases o <;> rfl

theorem Payment.id_record (x : Payment) (o : Posting) : (x.record o).id = x.id := by cases o <;> rfl

/-! ### The ledger -/

/-- The invoices, and the payments with the unique index on the keys, which leaves out payments
without one. -/
structure Ledger where
  invoices : Collection Invoice Invoice.id
  payments : Collection Payment Payment.id
  keys : ∀ x ∈ payments, ∀ y ∈ payments, ∀ key, x.key = some key → y.key = some key → x = y

namespace Ledger

def empty : Ledger := ⟨.empty, .empty, fun _ hx => absurd hx not_mem_empty⟩

def insertInvoice (s : Ledger) (v : Invoice) : Option Ledger :=
  (s.invoices.insertOne v).map fun invoices => { s with invoices }

def findKey (s : Ledger) (key : Option ℕ) : Option Payment := s.payments.findOne fun x => x.key = key

def insertPayment (s : Ledger) (x : Payment) : Option Ledger :=
  if hkey : x.key.isSome = true ∧ (s.findKey x.key).isSome = true then none
  else match hpayments : s.payments.insertOne x with
    | none => none
    | some payments => some ⟨s.invoices, payments, by
        have hfree : ∀ key, x.key = some key → ∀ y ∈ s.payments, y.key ≠ some key := by
          intro key hx y hy hyk
          refine hkey ⟨by rw [hx]; rfl, ?_⟩
          cases hfind : s.findKey x.key with
          | some _ => rfl
          | none =>
            have hne := findOne_eq_none.mp hfind y hy
            exact absurd (decide_eq_true (hyk.trans hx.symm)) hne
        intro a ha b hb key hak hbk
        obtain ha | rfl := (mem_insertOne hpayments).mp ha <;>
          obtain hb | rfl := (mem_insertOne hpayments).mp hb
        · exact s.keys a ha b hb key hak hbk
        · exact absurd hak (hfree key hbk a ha)
        · exact absurd hbk (hfree key hak b hb)
        · rfl⟩

def updateInvoice (s : Ledger) (i : ℕ) (f : Invoice → Invoice) (hf : ∀ v, (f v).id = v.id) : Ledger :=
  { s with invoices := s.invoices.update i f hf }

theorem recordPayment_keys (s : Ledger) (j : ℕ) (o : Posting) :
    ∀ x ∈ s.payments.update j (Payment.record · o) (Payment.id_record · o),
      ∀ y ∈ s.payments.update j (Payment.record · o) (Payment.id_record · o),
        ∀ key, x.key = some key → y.key = some key → x = y := by
  have hkey : ∀ x : Payment, (x.record o).key = x.key := fun x => by cases o <;> rfl
  have hsource : ∀ x ∈ s.payments.update j (Payment.record · o) (Payment.id_record · o),
      ∃ x' ∈ s.payments, x'.key = x.key ∧ x'.id = x.id := by
    intro x hx
    obtain ⟨hx, -⟩ | ⟨x', hx', -, rfl⟩ := mem_update.mp hx
    · exact ⟨x, hx, rfl, rfl⟩
    · exact ⟨x', hx', (hkey x').symm, (Payment.id_record x' o).symm⟩
  intro x hx y hy key hxk hyk
  obtain ⟨x', hx', hxkey, hxid⟩ := hsource x hx
  obtain ⟨y', hy', hykey, hyid⟩ := hsource y hy
  have hxy := s.keys x' hx' y' hy' key (hxkey.trans hxk) (hykey.trans hyk)
  exact eq_of_key hx hy (hxid.symm.trans ((congrArg Payment.id hxy).trans hyid))

def recordPayment (s : Ledger) (j : ℕ) (o : Posting) : Ledger where
  invoices := s.invoices
  payments := s.payments.update j (Payment.record · o) (Payment.id_record · o)
  keys := s.recordPayment_keys j o

def paidSum (s : Ledger) (i : ℕ) : ℤ :=
  s.payments.sumOf (fun x => decide (x.invoiceId = i)) fun x => (x.amount : ℤ)

def readSum (s : Ledger) (i : ℕ) : ℤ :=
  (((s.payments.rows.filter fun x => decide (x.invoiceId = i)).take 10000).map fun x => (x.amount : ℤ)).sum

def hasPayment (s : Ledger) (i : ℕ) : Bool := s.payments.any fun x => x.invoiceId = i

end Ledger

/-! ### Calls -/

structure PaymentIn where
  invoiceId : ℕ
  amount : ℕ
  key : Option ℕ

inductive Request where
  | createInvoice (total : ℕ) (isLira : Bool)
  | applyPayment (q : PaymentIn)
  | voidInvoice (invoiceId : ℕ)
  | retryInvoiceGl (invoiceId : ℕ)
  | retryPaymentGl (paymentId : ℕ)

inductive Answer where
  | notFound | isVoid | hasPayments | exceedsBalance | reversalFailed
  | invoice (v : Option Invoice)
  | payment (v : Option Invoice) (x : Option Payment)
  | replay (v : Option Invoice) (x : Option Payment)

/-- What follows a recalculation: the answer to a replay, or to a payment that was stored. -/
inductive Reply where
  | replay (x : Option Payment)
  | stored (x : Payment)

/-- Who posts a payment to the general ledger. -/
inductive Poster where
  | applyPayment | retry

inductive Pc where
  | start
  | lookup (q : PaymentIn) (v : Invoice)
  | insert (q : PaymentIn) (v : Invoice)
  | duplicate (q : PaymentIn)
  | readInvoiceOf (x : Payment)
  | postPayment (x : Payment) (b : Poster)
  | recordPayment (x : Payment) (b : Poster) (o : Posting)
  | recalcRead (i : ℕ) (r : Reply)
  | recalcSum (i : ℕ) (r : Reply) (total : ℕ)
  | recalcWrite (i : ℕ) (r : Reply) (total : ℕ) (paid : ℤ)
  | recalcReread (i : ℕ) (r : Reply)
  | rereadPayment (v : Option Invoice) (x : Payment)
  | voidCheck (v : Invoice)
  | reverse (v : Invoice)
  | voidWrite (v : Invoice) (reversal : Option ℕ)
  | postInvoice (v : Invoice)
  | recordInvoice (i : ℕ) (o : Posting)
  | rereadInvoice (i : ℕ)
  | returned (a : Answer)
  | stopped

structure Thread where
  request : Request
  pc : Pc

/-- What the general ledger answers in a step. A reversal that fails is `none`. -/
structure Chance where
  posting : Posting := .disabled
  reversal : Option ℕ := none

inductive Move where
  | advance (o : Chance)
  | stop

/-- The invoice and the payment that a call stores have its number. -/
def newInvoice (k total : ℕ) (isLira : Bool) : Invoice where
  id := k
  total := total
  paid := 0
  balance := total
  isLira := isLira

def PaymentIn.payment (q : PaymentIn) (k : ℕ) : Payment where
  id := k
  invoiceId := q.invoiceId
  amount := q.amount
  key := q.key

def PaymentIn.check (q : PaymentIn) (v : Invoice) : Pc :=
  if 2 * ((v.total : ℤ) - v.paid) + 1 < 2 * (q.amount : ℤ) then .returned .exceedsBalance
  else .insert q v

/-- The posting of an invoice. A foreign currency has no mapping. -/
def Invoice.posting (v : Invoice) : Posting → Posting
  | .disabled => .disabled
  | o => if v.isLira then o else .blocked

def firstRead (s : Ledger) (k : ℕ) : Request → Option (Ledger × Pc)
  | .createInvoice total isLira =>
    (s.insertInvoice (newInvoice k total isLira)).map fun s' => (s', .postInvoice (newInvoice k total isLira))
  | .applyPayment q =>
    match s.invoices.get? q.invoiceId with
    | none => some (s, .returned .notFound)
    | some v =>
      if v.status = .void then some (s, .returned .isVoid)
      else some (s, if q.key.isSome then .lookup q v else q.check v)
  | .voidInvoice i =>
    match s.invoices.get? i with
    | none => some (s, .returned .notFound)
    | some v => some (s, if v.status = .void then .returned (.invoice (some v)) else .voidCheck v)
  | .retryInvoiceGl i =>
    match s.invoices.get? i with
    | none => some (s, .returned .notFound)
    | some v => some (s, if v.status = .void then .returned .isVoid else .postInvoice v)
  | .retryPaymentGl j =>
    match s.payments.get? j with
    | none => some (s, .returned .notFound)
    | some x => some (s, .readInvoiceOf x)

def afterPosting (x : Payment) : Poster → Pc
  | .applyPayment => .recalcRead x.invoiceId (.stored x)
  | .retry => .rereadPayment none x

def Reply.next (v : Option Invoice) : Reply → Pc
  | .replay x => .returned (.replay v x)
  | .stored x => .rereadPayment v x

def advance (k : ℕ) (s : Ledger) (t : Thread) (o : Chance) : Option (Ledger × Pc) :=
  match t.pc with
  | .start => firstRead s k t.request
  | .lookup q v =>
    match s.findKey q.key with
    | some x => some (s, .recalcRead q.invoiceId (.replay (some x)))
    | none => some (s, q.check v)
  | .insert q _ =>
    match s.insertPayment (q.payment k) with
    | some s' => some (s', .postPayment (q.payment k) .applyPayment)
    | none => some (s, .duplicate q)
  | .duplicate q => some (s, .recalcRead q.invoiceId (.replay (s.findKey q.key)))
  | .readInvoiceOf x =>
    some (s, if (s.invoices.get? x.invoiceId).isSome then .postPayment x .retry else .returned .notFound)
  | .postPayment x b =>
    some (s, if o.posting = .disabled then afterPosting x b else .recordPayment x b o.posting)
  | .recordPayment x b y => some (s.recordPayment x.id y, afterPosting x b)
  | .recalcRead i r =>
    match s.invoices.get? i with
    | none => some (s, .returned .notFound)
    | some v => some (s, if v.status = .void then r.next (some v) else .recalcSum i r v.total)
  | .recalcSum i r total => some (s, .recalcWrite i r total (s.readSum i))
  | .recalcWrite i r total paid =>
    some (s.updateInvoice i (Invoice.recalculated total paid) fun _ => rfl, .recalcReread i r)
  | .recalcReread i r => some (s, r.next (s.invoices.get? i))
  | .rereadPayment v x => some (s, .returned (.payment v ((s.payments.get? x.id).or (some x))))
  | .voidCheck v => some (s, if s.hasPayment v.id then .returned .hasPayments else .reverse v)
  | .reverse v =>
    some (s, if v.glEntry.isNone then .voidWrite v none
      else if o.reversal.isSome then .voidWrite v o.reversal else .returned .reversalFailed)
  | .voidWrite v reversal =>
    some (s.updateInvoice v.id (Invoice.voided v reversal) fun _ => rfl, .rereadInvoice v.id)
  | .postInvoice v =>
    some (s, if v.posting o.posting = .disabled then .rereadInvoice v.id
      else .recordInvoice v.id (v.posting o.posting))
  | .recordInvoice i y =>
    some (s.updateInvoice i (Invoice.record · y) (Invoice.id_record · y), .rereadInvoice i)
  | .rereadInvoice i => some (s, .returned (.invoice (s.invoices.get? i)))
  | .returned _ | .stopped => none

def stepOf (k : ℕ) (s : Ledger) (t : Thread) : Move → Option (Ledger × Thread)
  | .advance o => (advance k s t o).map fun r => (r.1, { t with pc := r.2 })
  | .stop => some (s, { t with pc := .stopped })

def calls : Program Ledger Thread Empty Request Move where
  init s := s = .empty
  env _ e := e.elim
  call _ q := some ⟨q, .start⟩
  step := stepOf

def Pc.isOver : Pc → Bool
  | .returned _ | .stopped => true
  | _ => false

def Pc.recalculates : Pc → Option ℕ
  | .postPayment x .applyPayment | .recordPayment x .applyPayment _ => some x.invoiceId
  | .recalcRead i _ | .recalcSum i _ _ | .recalcWrite i _ _ _ => some i
  | _ => none

end SyrocePms.Payables
