import SyrocePms.Lib.Threads
import SyrocePms.PosCheck.Store
import SyrocePms.Lib.CollectionSum

/-! The operations as threads: each read is a step of its own, and so is the transaction that
commits. It compares the order with what was read, each operation on other fields. -/

namespace SyrocePms.PosCheck

open Lib Collection

/-! ### Comparisons -/

namespace PosOrder

variable (read o : PosOrder)

/-- The filter of `_append_items_atomically` and of `void_order`. -/
def matchesCheck : Bool :=
  o.status = read.status && o.paymentStatus = read.paymentStatus && o.lines = read.lines &&
    o.pricing.grandTotal = read.pricing.grandTotal && o.table = read.table && o.outlet = read.outlet

/-- The filter of `void_order_item`. -/
def matchesLines : Bool :=
  o.status = read.status && o.lines = read.lines && o.pricing.grandTotal = read.pricing.grandTotal &&
    o.paymentStatus ≠ .paid

/-- The filter of `apply_order_adjustment`. -/
def matchesAdjustments : Bool := matchesLines read o && o.adjustments = read.adjustments

/-- The filter of `transfer_order_table`. -/
def matchesSeat : Bool :=
  o.status = read.status && o.paymentStatus = read.paymentStatus && o.table = read.table && o.outlet = read.outlet

/-- The filter of `_persist_txn_and_intent`. -/
def matchesBill : Bool :=
  matchesCheck read o && o.pricing.discountAmount = read.pricing.discountAmount &&
    o.pricing.serviceChargeAmount = read.pricing.serviceChargeAmount

end PosOrder

/-! ### Transactions -/

/-- An aborted transaction is `none`. -/
def persistOrderAndClaimTable (order : PosOrder) (claims : Option Place) (s : Store) : Option Store :=
  match claims with
  | some place => (s.claim order.id place).bind fun s => s.insertOrder order
  | none => s.insertOrder order

def appendItemsAtomically (read : PosOrder) (lines : List Line) (pricing : Pricing) (key : Option ℕ)
    (requestHash : ℕ) (s : Store) : Option Store :=
  (s.insertBatch read.id requestHash key).bind fun s =>
    s.compareAndSet read.id read.matchesCheck (.append lines pricing)

def transferTable (read : PosOrder) (target : ℕ) (s : Store) : Option Store :=
  (s.claim read.id ⟨read.outlet, target⟩).bind fun s =>
    (s.compareAndSet read.id read.matchesSeat (.moveTo target)).map fun s =>
      s.release read.id .available read.place

def commitBenefits (sale : Sale) (s : Store) (o : Chance) : Bool :=
  match sale.quote with
  | none => true
  | some q => (s.orders.get? sale.order).any fun fresh => quoteCheckout fresh o = some q

def persistTxnAndIntent (read : PosOrder) (sale : Sale) (posting : Option Intent) (s : Store) (o : Chance) :
    Option Store :=
  if commitBenefits sale s o then
    (s.insertSale sale).bind fun s =>
      ((s.post posting).compareAndSet read.id read.matchesBill .close).map fun s =>
        s.release read.id .dirty read.place
  else none

def voidOrder (read : PosOrder) (s : Store) : Option Store :=
  (s.compareAndSet read.id read.matchesCheck .void).map fun s => s.release read.id .available read.place

/-- What a look-up of a key of `pos_transactions` tells a refund: nothing, its own row, or another. -/
def priorRefund (order : ℕ) (key : Option ℕ) (requestHash : ℕ) (s : Store) : Option Bool :=
  if s.isKeyUsed key then
    some (s.refunds.any fun r => r.idempotencyKey = key && r.order = order && r.requestHash = requestHash)
  else none

def reversalFolio (s : Store) (sale : Sale) (o : Chance) : Option ℕ :=
  sale.folio <|> ((s.postings.find? fun i => i.order = sale.order).map fun i => i.folio) <|> o.folio

/-- The intent to reverse a room charge that is refunded in full. -/
def reverseCharge (s : Store) (sale : Sale) (paid : ℤ) (o : Chance) : Option Store :=
  if sale.method = .roomCharge ∧ paid ≤ sale.refunded then
    (reversalFolio s sale o).map fun folio => s.reverse ⟨sale.order, folio⟩
  else some s

def persistRefundAndState (k order sale : ℕ) (paid amount : ℤ) (key : Option ℕ) (requestHash : ℕ) (s : Store)
    (o : Chance) : Option Store :=
  match priorRefund order key requestHash s with
  | some own => if own then some s else none
  | none =>
    (s.refundSale sale amount paid).bind fun (s, updated) =>
      (reverseCharge s updated paid o).bind fun s =>
        (s.insertRefund ⟨k, order, sale, amount, key, requestHash⟩).map fun s =>
          s.edit order (.refund (paid ≤ updated.refunded))

def commit (k : ℕ) (s : Store) (o : Chance) : Plan → Option Store
  | .create order claims => persistOrderAndClaimTable order claims s
  | .addItems read lines pricing key requestHash => appendItemsAtomically read lines pricing key requestHash s
  | .voidItem read lines pricing => s.compareAndSet read.id read.matchesLines (.setLines lines pricing)
  | .adjust read a pricing => s.compareAndSet read.id read.matchesAdjustments (.adjust a pricing)
  | .transfer read target => transferTable read target s
  | .close read sale posting => persistTxnAndIntent read sale posting s o
  | .void read => voidOrder read s
  | .refund order sale paid amount key requestHash => persistRefundAndState k order sale paid amount key requestHash s o

/-! ### Threads -/

/-- Where a call stands: before the look-up of its key, before it reads the order, or the table of
a new one, before the look-up of a refund's sale or a transfer's target, and before its commit. -/
inductive Thread
  | asking (r : Request)
  | reading (r : Request)
  | selling (a : RefundRequest)
  | targeting (read : PosOrder) (target : ℕ)
  | committing (plan : Plan)
  | done (a : Answer)

def start (r : Request) : Thread :=
  match r with
  | .create _ | .addItems _ | .close _ | .refund _ => .asking r
  | _ => .reading r

def prior (s : Store) : Request → Option Bool
  | .create a =>
    if a.key.isSome then (s.orders.findOne fun o => o.idempotencyKey = a.key).map fun o => o.requestHash = a.requestHash
    else none
  | .addItems a =>
    (a.key.bind fun key => s.batches.get? key).map fun b => b.order = a.order && b.requestHash = a.requestHash
  | .close a =>
    if s.isKeyUsed a.key then
      some (s.sales.any (fun x => x.idempotencyKey = a.key && x.order = a.order && x.requestHash = a.requestHash) ||
        s.refunds.any fun x => x.idempotencyKey = a.key && x.order = a.order && x.requestHash = a.requestHash)
    else none
  | .refund a => priorRefund a.order a.key a.requestHash s
  | _ => none

def isInvalid : Request → Bool
  | .addItems a => a.items = []
  | .close a => a.tip < 0
  | _ => false

def ask (s : Store) (r : Request) : Thread :=
  if isInvalid r then .done .validationError
  else
    match prior s r with
    | none => .reading r
    | some own => .done (if own then .idempotent else .conflict)

def planned : Except Answer Plan → Thread
  | .ok plan => .committing plan
  | .error a => .done a

def withOrder (s : Store) (i : ℕ) (go : PosOrder → Thread) : Thread :=
  match s.orders.get? i with
  | some read => go read
  | none => .done .notFound

def read (k : ℕ) (s : Store) (o : Chance) : Request → Thread
  | .create a =>
    planned (planCreate k a (if a.dineIn then a.table.bind fun n => s.tables.get? ⟨a.outlet, n⟩ else none) o)
  | .addItems a => withOrder s a.order fun read => planned (planAddItems k a read o)
  | .voidItem i lineIndex => withOrder s i fun read => planned (planVoidItem lineIndex read)
  | .adjust a => withOrder s a.order fun read => planned (planAdjust k a read)
  | .transfer i target =>
    withOrder s i fun read => if read.isServable then .targeting read target else .done .orderNotOpen
  | .close a => withOrder s a.order fun read => planned (planClose k a read o)
  | .void i => withOrder s i fun read => planned (planVoid read)
  | .refund a =>
    withOrder s a.order fun read =>
      if read.status = .closed ∧ (read.paymentStatus = .paid ∨ read.paymentStatus = .partiallyRefunded) then .selling a
      else .done .orderNotClosed

def step (k : ℕ) (s : Store) (o : Chance) : Thread → Option (Store × Thread)
  | .asking r => some (s, ask s r)
  | .reading r => some (s, read k s o r)
  | .selling a => some (s, planned (planRefund a (s.sales.findOne fun x => x.order = a.order)))
  | .targeting r target => some (s, planned (planTransfer r target (s.tables.get? ⟨r.outlet, target⟩)))
  | .committing plan =>
    if o.fails then some (s, .done .raised)
    else
      match commit k s o plan with
      | some s' => some (s', .done .ok)
      | none => some (s, .done .conflict)
  | .done _ => none

/-! ### The others -/

/-- The kitchen moves an order on, tables are laid out, and the staff set their status. -/
inductive Staff
  | progress (order : ℕ) (status : Status)
  | layOut (place : Place)
  | setStatus (place : Place) (status : TableStatus)

/-- `allowed_transitions`. -/
def Status.mayBecome : Status → Status → Bool
  | .pending, .preparing | .pending, .cancelled | .preparing, .ready | .preparing, .cancelled | .ready, .served => true
  | _, _ => false

def Table.setStatus (status : TableStatus) (t : Table) : Table := { t with status }

theorem Table.setStatus_place (status : TableStatus) (t : Table) : (t.setStatus status).place = t.place := rfl

def staff (s : Store) : Staff → Option Store
  | .progress i status => s.compareAndSet i (fun o => o.status.mayBecome status) (.progress status)
  | .layOut place => (s.tables.insertOne { place }).map fun tables => { s with tables }
  | .setStatus place status =>
    let tables := s.tables.update place (Table.setStatus status) (Table.setStatus_place status)
    some { s with tables }

/-- Calls on a property without checks. Its tables are held by no order. -/
def checks : Program Store Thread Staff Request Chance where
  init s :=
    s = { tables := s.tables } ∧ ∀ t ∈ s.tables, t.currentOrder = none
  env := staff
  call _ r := some (start r)
  step k s t o := step k s o t

/-! What the writes of a transaction do when it is not aborted. -/

variable {s s' : Store} {i j k : ℕ} {e : Edit} {o o' read : PosOrder} {t : Table} {place : Place}
  {sale x : Sale} {paid amount : ℤ} {c : Chance} {key : Option ℕ} {hash : ℕ}
variable {tables : Collection Table Table.place} {status : TableStatus} {at' : Option Place}

/-! ### Orders -/

theorem mem_edit :
    o' ∈ (s.edit i e).orders ↔ (o' ∈ s.orders ∧ o'.id ≠ i) ∨ ∃ o ∈ s.orders, o.id = i ∧ o' = e.apply o := by
  change o' ∈ s.orders.update i (fun o => e.apply o) e.apply_id ↔ _
  exact mem_update

theorem mem_edit_self (ho : o ∈ s.orders) : e.apply o ∈ (s.edit o.id e).orders :=
  mem_edit.mpr (.inr ⟨o, ho, rfl, rfl⟩)

theorem of_mem_edit (ho : o ∈ s.orders) (h : o' ∈ (s.edit o.id e).orders) :
    (o' ∈ s.orders ∧ o'.id ≠ o.id) ∨ o' = e.apply o := by
  obtain h | ⟨r, hr, hid, rfl⟩ := mem_edit.mp h
  · exact .inl h
  · exact .inr (by rw [eq_of_key hr ho hid])

theorem compareAndSet_eq {p : PosOrder → Bool} (h : s.compareAndSet i p e = some s') :
    ∃ o ∈ s.orders, o.id = i ∧ p o = true ∧ s' = s.edit i e := by
  unfold Store.compareAndSet at h
  split at h
  · rename_i o ho
    obtain ⟨ho, hid⟩ := get?_eq_some.mp ho
    split at h
    · cases h
      exact ⟨o, ho, hid, ‹_›, rfl⟩
    · cases h
  · cases h

theorem insertOrder_eq (h : s.insertOrder o = some s') :
    ∃ orders, s.orders.insertOne o = some orders ∧ s' = { s with orders } := by
  unfold Store.insertOrder at h
  split at h
  · cases h
  · obtain ⟨orders, hins, rfl⟩ := Option.map_eq_some_iff.mp h
    exact ⟨orders, hins, rfl⟩

theorem insertBatch_eq (h : s.insertBatch i hash key = some s') : ∃ batches, s' = { s with batches } := by
  unfold Store.insertBatch at h
  split at h
  · obtain ⟨batches, -, rfl⟩ := Option.map_eq_some_iff.mp h
    exact ⟨batches, rfl⟩
  · cases h
    exact ⟨s.batches, rfl⟩

/-! ### Tables -/

theorem claim_eq (h : s.claim i place = some s') :
    ∃ t ∈ s.tables, t.place = place ∧ t.isFree = true ∧ s' = { s with tables := claimed s.tables i place } := by
  unfold Store.claim at h
  split at h
  · rename_i t ht
    obtain ⟨ht, hplace⟩ := get?_eq_some.mp ht
    split at h
    · cases h
      exact ⟨t, ht, hplace, ‹_›, rfl⟩
    · cases h
  · cases h

theorem mem_claimed : t ∈ claimed s.tables i place ↔
    (t ∈ s.tables ∧ t.place ≠ place) ∨ ∃ r ∈ s.tables, r.place = place ∧ t = r.claim i := mem_update

theorem Table.currentOrder_of_isFree (h : t.isFree = true) : t.currentOrder = none := by
  simp only [Table.isFree, Bool.and_eq_true, decide_eq_true_eq] at h
  exact h.1.2

theorem of_mem_released (h : t ∈ released tables i status at') (hj : t.currentOrder = some j) :
    t ∈ tables ∧ (j = i → at' ≠ some t.place) := by
  cases at' with
  | none => exact ⟨h, fun _ hp => (by cases hp)⟩
  | some place =>
    obtain ⟨ht, hne⟩ | ⟨r, hr, -, rfl⟩ := mem_update.mp h
    · exact ⟨ht, fun _ hp => hne (Option.some.inj hp).symm⟩
    · unfold Table.release at hj ⊢
      split at hj
      · cases hj
      · rw [if_neg ‹_›]
        exact ⟨hr, fun hji => absurd (hji ▸ hj) ‹_›⟩

theorem mem_released_of_ne (h : t ∈ tables) (hne : t.currentOrder ≠ some i) :
    t ∈ released tables i status at' := by
  cases at' with
  | none => exact h
  | some place =>
    refine mem_update.mpr ?_
    by_cases hp : t.place = place
    · exact .inr ⟨t, h, hp, (if_neg hne).symm⟩
    · exact .inl ⟨h, hp⟩

/-! ### Sales -/

theorem insertSale_eq (h : s.insertSale sale = some s') :
    ∃ sales, s.sales.insertOne sale = some sales ∧ s' = { s with sales } := by
  unfold Store.insertSale at h
  split at h
  · cases h
  · obtain ⟨sales, hins, rfl⟩ := Option.map_eq_some_iff.mp h
    exact ⟨sales, hins, rfl⟩

theorem insertRefund_eq {r : Refund} (h : s.insertRefund r = some s') :
    ∃ refunds, s.refunds.insertOne r = some refunds ∧ s' = { s with refunds } := by
  unfold Store.insertRefund at h
  split at h
  · cases h
  · obtain ⟨refunds, hins, rfl⟩ := Option.map_eq_some_iff.mp h
    exact ⟨refunds, hins, rfl⟩

theorem refundSale_eq {r : Store × Sale} (h : s.refundSale i amount paid = some r) :
    ∃ x ∈ s.sales, x.id = i ∧ x.refunded + amount ≤ paid ∧ r.2 = x.refund amount ∧
      r.1 = { s with sales := s.sales.update i (Sale.refund amount) (Sale.refund_id amount) } := by
  unfold Store.refundSale at h
  split at h
  · rename_i x hx
    obtain ⟨hx, hid⟩ := get?_eq_some.mp hx
    split at h
    · cases h
      exact ⟨x, hx, hid, ‹_›, rfl, rfl⟩
    · cases h
  · cases h

theorem reverse_eq (s : Store) (r : Intent) :
    ∃ reversals, s.reverse r = { s with reversals } ∧ (∀ x, x ∈ reversals → x ∈ s.reversals ∨ x = r) ∧
      (∀ x ∈ s.reversals, x ∈ reversals) ∧ ∃ x ∈ reversals, x.order = r.order := by
  unfold Store.reverse
  split
  · rename_i reversals hins
    have hmem := fun x => mem_insertOne (x := x) hins
    exact ⟨reversals, rfl, fun x hx => (hmem x).mp hx, fun x hx => (hmem x).mpr (.inl hx), r,
      (hmem r).mpr (.inr rfl), rfl⟩
  · rename_i hins
    refine ⟨s.reversals, rfl, fun x hx => .inl hx, fun x hx => hx, ?_⟩
    by_contra hnone
    obtain ⟨d, hd⟩ := exists_insertOne fun x hx he => hnone ⟨x, hx, he⟩
    rw [hins] at hd
    cases hd

/-! ### Transactions -/

theorem appendItems_eq {lines : List Line} {pricing : Pricing}
    (h : appendItemsAtomically read lines pricing key hash s = some s') :
    ∃ o ∈ s.orders, o.id = read.id ∧ read.matchesCheck o = true ∧
      ∃ batches, s' = ({ s with batches } : Store).edit o.id (.append lines pricing) := by
  obtain ⟨s₁, hins, h⟩ := Option.bind_eq_some_iff.mp h
  obtain ⟨batches, rfl⟩ := insertBatch_eq hins
  obtain ⟨o, ho, hid, hm, rfl⟩ := compareAndSet_eq h
  exact ⟨o, ho, hid, hm, batches, by rw [hid]⟩

theorem transferTable_eq {target : ℕ} (h : transferTable read target s = some s') :
    ∃ o ∈ s.orders, o.id = read.id ∧ read.matchesSeat o = true ∧
      (∃ t ∈ s.tables, t.place = ⟨read.outlet, target⟩ ∧ t.isFree = true) ∧
      s' = (({ s with tables := claimed s.tables o.id ⟨read.outlet, target⟩ } : Store).edit o.id (.moveTo target)).release
        o.id .available read.place := by
  obtain ⟨s₁, hclaim, h⟩ := Option.bind_eq_some_iff.mp h
  obtain ⟨t, ht, hplace, hfree, rfl⟩ := claim_eq hclaim
  obtain ⟨s₂, hset, rfl⟩ := Option.map_eq_some_iff.mp h
  obtain ⟨o, ho, hid, hm, rfl⟩ := compareAndSet_eq hset
  exact ⟨o, ho, hid, hm, ⟨t, ht, hplace, hfree⟩, by rw [hid]⟩

theorem voidOrder_eq (h : voidOrder read s = some s') :
    ∃ o ∈ s.orders, o.id = read.id ∧ read.matchesCheck o = true ∧
      s' = (s.edit o.id .void).release o.id .available read.place := by
  obtain ⟨s₁, hset, rfl⟩ := Option.map_eq_some_iff.mp h
  obtain ⟨o, ho, hid, hm, rfl⟩ := compareAndSet_eq hset
  exact ⟨o, ho, hid, hm, by rw [hid]⟩

theorem persistTxn_eq {posting : Option Intent} (h : persistTxnAndIntent read sale posting s c = some s') :
    ∃ sales, s.sales.insertOne sale = some sales ∧ ∃ o ∈ s.orders, o.id = read.id ∧ read.matchesBill o = true ∧
      s' = (((({ s with sales } : Store).post posting).edit o.id .close).release o.id .dirty read.place) := by
  unfold persistTxnAndIntent at h
  split at h
  · obtain ⟨s₁, hsale, h⟩ := Option.bind_eq_some_iff.mp h
    obtain ⟨sales, hins, rfl⟩ := insertSale_eq hsale
    obtain ⟨s₂, hset, rfl⟩ := Option.map_eq_some_iff.mp h
    obtain ⟨o, ho, hid, hm, rfl⟩ := compareAndSet_eq hset
    exact ⟨sales, hins, o, ho, hid, hm, by rw [hid]⟩
  · cases h

theorem reverseCharge_eq (h : reverseCharge s x paid c = some s') :
    ∃ reversals, s' = { s with reversals } ∧ (∀ y ∈ s.reversals, y ∈ reversals) ∧
      (∀ y ∈ reversals, y ∈ s.reversals ∨ (y.order = x.order ∧ paid ≤ x.refunded)) ∧
      (x.method = .roomCharge → paid ≤ x.refunded → ∃ y ∈ reversals, y.order = x.order) := by
  unfold reverseCharge at h
  split at h
  · rename_i hroom
    obtain ⟨folio, -, rfl⟩ := Option.map_eq_some_iff.mp h
    obtain ⟨reversals, heq, hnew, hold, hthere⟩ := reverse_eq s ⟨x.order, folio⟩
    refine ⟨reversals, heq, hold, fun y hy => ?_, fun _ _ => hthere⟩
    obtain hy | rfl := hnew y hy
    · exact .inl hy
    · exact .inr ⟨rfl, hroom.2⟩
  · rename_i hroom
    cases h
    exact ⟨s.reversals, rfl, fun y hy => hy, fun y hy => .inl hy, fun hm hp => absurd ⟨hm, hp⟩ hroom⟩

theorem persistRefund_eq {order : ℕ} (h : persistRefundAndState k order i paid amount key hash s c = some s') :
    s' = s ∨ ∃ x ∈ s.sales, x.id = i ∧ x.refunded + amount ≤ paid ∧ ∃ refunds reversals,
      s.refunds.insertOne ⟨k, order, i, amount, key, hash⟩ = some refunds ∧
      (∀ y ∈ s.reversals, y ∈ reversals) ∧
      (∀ y ∈ reversals, y ∈ s.reversals ∨ (y.order = x.order ∧ paid ≤ x.refunded + amount)) ∧
      (x.method = .roomCharge → paid ≤ x.refunded + amount → ∃ y ∈ reversals, y.order = x.order) ∧
      s' = ({ s with
        sales := s.sales.update x.id (Sale.refund amount) (Sale.refund_id amount), reversals, refunds } : Store).edit
          order (.refund (paid ≤ x.refunded + amount)) := by
  unfold persistRefundAndState at h
  split at h
  · split at h <;> cases h
    exact .inl rfl
  · obtain ⟨r, hrefund, h⟩ := Option.bind_eq_some_iff.mp h
    obtain ⟨x, hx, hid, hle, hr, hs⟩ := refundSale_eq hrefund
    obtain ⟨s₁, updated⟩ := r
    dsimp only at hr hs h
    subst hr hs
    obtain ⟨s₂, hrev, h⟩ := Option.bind_eq_some_iff.mp h
    obtain ⟨reversals, rfl, hold, hnew, hroom⟩ := reverseCharge_eq hrev
    obtain ⟨s₃, hrow, rfl⟩ := Option.map_eq_some_iff.mp h
    obtain ⟨refunds, hins, rfl⟩ := insertRefund_eq hrow
    subst hid
    exact .inr ⟨x, hx, rfl, hle, refunds, reversals, hins, hold, hnew, hroom, rfl⟩

end SyrocePms.PosCheck
