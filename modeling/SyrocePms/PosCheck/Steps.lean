import SyrocePms.PosCheck.Commits

/-! What every transaction keeps: the price of each order, one sale for each closed order, claims
of open orders only, and refunds within what was paid. -/

namespace SyrocePms.PosCheck

open Lib

/-- What a coupon and loyalty points took off. -/
def Sale.benefits (x : Sale) : ℤ := (x.quote.map fun q => (q.coupon + q.loyalty : ℤ)).getD 0

structure Sale.Settles (x : Sale) (o : PosOrder) : Prop where
  closed : o.status = .closed
  lines : x.lines = o.lines
  amount : x.amount + x.benefits = o.pricing.grandTotal

def Sale.RefundedInFull (x : Sale) : Prop := x.refundedAmount = some x.paid

def Sale.IsRoomCharge (x : Sale) : Prop := x.method = .roomCharge ∨ x.folio.isSome = true

def Store.refundsOf (s : Store) (i : ℕ) : ℤ := s.refunds.sumOf (fun r => r.sale = i) Refund.amount

structure Kept (s : Store) : Prop where
  priced : ∀ o ∈ s.orders, o.Priced
  sold : ∀ x ∈ s.sales, ∃ o ∈ s.orders, o.id = x.order ∧ x.Settles o
  oneSale : ∀ x ∈ s.sales, ∀ y ∈ s.sales, x.order = y.order → x = y
  paid : ∀ x ∈ s.sales, x.paid ≤ x.totalAmount
  seated : ∀ t ∈ s.tables, ∀ i, t.currentOrder = some i → ∃ o ∈ s.orders, o.id = i ∧ o.IsOpen ∧ o.place = some t.place
  refunded : ∀ x ∈ s.sales, s.refundsOf x.id = x.refunded ∧ x.refunded ≤ x.paid
  ofSale : ∀ r ∈ s.refunds, ∃ x ∈ s.sales, x.id = r.sale
  reversed : ∀ r ∈ s.reversals, ∃ x ∈ s.sales, x.order = r.order ∧ x.RefundedInFull
  charged : ∀ x ∈ s.sales, x.IsRoomCharge → x.RefundedInFull → ∃ r ∈ s.reversals, r.order = x.order

def Plan.Fits (s : Store) : Plan → Prop
  | .create order claims =>
    order.Priced ∧ order.IsOpen ∧ ∀ place, claims = some place → order.place = some place
  | .addItems read lines pricing _ _ => read.IsOpen ∧ ((Edit.append lines pricing).apply read).Priced
  | .voidItem read lines pricing => read.IsOpen ∧ ((Edit.setLines lines pricing).apply read).Priced
  | .adjust read a pricing => read.IsOpen ∧ ((Edit.adjust a pricing).apply read).Priced
  | .transfer read _ => read.IsOpen
  | .close read sale _ =>
    read.IsOpen ∧ sale.order = read.id ∧ sale.lines = read.lines ∧
      sale.amount + sale.benefits = read.pricing.grandTotal ∧ sale.refundedAmount = none ∧
      0 ≤ sale.paid ∧ sale.paid ≤ sale.totalAmount
  | .void read => read.IsOpen
  | .refund order sale paid amount _ _ => 0 < amount ∧ ∃ x ∈ s.sales, x.id = sale ∧ x.order = order ∧ x.paid = paid

/-- The transactions that meet no lost adjustment and no refund of a room charge under another
method: items are added and voided under the adjustments that were read, and a sale posted to a
folio that is now refunded in full has the method of a room charge. -/
def Plan.isSound (s : Store) : Plan → Bool
  | .addItems read _ _ _ _ =>
    (s.orders.get? read.id).all fun o => !read.matchesCheck o || o.adjustments = read.adjustments
  | .voidItem read _ _ =>
    (s.orders.get? read.id).all fun o => !read.matchesLines o || o.adjustments = read.adjustments
  | .refund _ sale paid amount _ _ =>
    (s.sales.get? sale).all fun x =>
      x.folio = none || x.refunded + amount < paid || x.method = .roomCharge
  | _ => true

variable {s s' : Store} {i j k : ℕ} {e : Edit} {o o' read : PosOrder} {t : Table} {place : Place}
  {sale x : Sale} {paid amount : ℤ} {c : Chance} {key : Option ℕ} {hash : ℕ} {plan : Plan} {pricing : Pricing}

theorem PosOrder.Priced.congr (h : o.Priced) (hl : o'.lines = o.lines) (ha : o'.adjustments = o.adjustments)
    (hp : o'.pricing = o.pricing) : o'.Priced := by
  refine ⟨?_, ?_, ?_⟩
  · rw [hl]
    exact h.lines
  · rw [PosOrder.total, hl, ha, hp]
    exact h.total
  · intro k hk
    rw [ha] at hk
    rw [hp]
    exact h.unadjusted k hk

namespace Kept

/-! ### Edits of an open order -/

theorem unsold (h : Kept s) (ho : o ∈ s.orders) (hopen : o.IsOpen) (hx : x ∈ s.sales) : x.order ≠ o.id := by
  intro hid
  obtain ⟨o', ho', hid', hs⟩ := h.sold x hx
  rw [Collection.eq_of_key ho' ho (hid'.trans hid)] at hs
  exact hopen.1 hs.closed

theorem priced_edit (h : Kept s) (ho : o ∈ s.orders) (hp : (e.apply o).Priced) :
    ∀ o' ∈ (s.edit o.id e).orders, o'.Priced := by
  intro o' ho'
  obtain ⟨ho', -⟩ | rfl := of_mem_edit ho ho'
  · exact h.priced o' ho'
  · exact hp

theorem sold_edit (h : Kept s) (ho : o ∈ s.orders) (hopen : o.IsOpen) (hx : x ∈ s.sales) :
    ∃ o' ∈ (s.edit o.id e).orders, o'.id = x.order ∧ x.Settles o' := by
  obtain ⟨o', ho', hid, hs⟩ := h.sold x hx
  exact ⟨o', mem_edit.mpr (.inl ⟨ho', hid ▸ h.unsold ho hopen hx⟩), hid, hs⟩

theorem seated_edit (h : Kept s) (ht : t ∈ s.tables) (hj : t.currentOrder = some j) (hne : j ≠ o.id) :
    ∃ o' ∈ (s.edit o.id e).orders, o'.id = j ∧ o'.IsOpen ∧ o'.place = some t.place := by
  obtain ⟨o', ho', hid, hs⟩ := h.seated t ht j hj
  exact ⟨o', mem_edit.mpr (.inl ⟨ho', hid ▸ hne⟩), hid, hs⟩

theorem seated_edit_self (h : Kept s) (ho : o ∈ s.orders) (he : (e.apply o).IsOpen) (hp : (e.apply o).place = o.place)
    (ht : t ∈ s.tables) (hj : t.currentOrder = some o.id) :
    ∃ o' ∈ (s.edit o.id e).orders, o'.id = o.id ∧ o'.IsOpen ∧ o'.place = some t.place := by
  obtain ⟨o', ho', hid, -, hplace⟩ := h.seated t ht _ hj
  rw [Collection.eq_of_key ho' ho hid] at hplace
  exact ⟨e.apply o, mem_edit_self ho, e.apply_id o, he, hp.trans hplace⟩

theorem edit (h : Kept s) (ho : o ∈ s.orders) (hopen : o.IsOpen) (he : (e.apply o).IsOpen)
    (hp : (e.apply o).place = o.place) (hpriced : (e.apply o).Priced) : Kept (s.edit o.id e) :=
  { h with
    priced := h.priced_edit ho hpriced
    sold := fun x hx => h.sold_edit ho hopen hx
    seated := by
      intro t ht j hj
      by_cases hji : j = o.id
      · subst hji
        exact h.seated_edit_self ho he hp ht hj
      · exact h.seated_edit ht hj hji }

theorem place_of_claim (h : Kept s) (ho : o ∈ s.orders) (t : Table) (ht : t ∈ s.tables)
    (hi : t.currentOrder = some o.id) : o.place = some t.place := by
  obtain ⟨o', ho', hid, -, hp⟩ := h.seated t ht _ hi
  rwa [Collection.eq_of_key ho' ho hid] at hp

theorem leave (h : Kept s) (ho : o ∈ s.orders) (hopen : o.IsOpen) (status : TableStatus) (hpriced : (e.apply o).Priced) :
    Kept ((s.edit o.id e).release o.id status o.place) :=
  { h with
    priced := h.priced_edit ho hpriced
    sold := fun x hx => h.sold_edit ho hopen hx
    seated := by
      intro t ht j hj
      obtain ⟨ht, hne⟩ := of_mem_released ht hj
      exact h.seated_edit ht hj fun hji => hne hji (h.place_of_claim ho t ht (hji ▸ hj)) }

/-! ### New orders, moves and sales -/

theorem claim_open (h : Kept s) {orders : Collection PosOrder PosOrder.id} {tables : Collection Table Table.place}
    (hins : s.orders.insertOne o = some orders) (hpriced : o.Priced) (hopen : o.IsOpen)
    (htables : ∀ t ∈ tables, t ∈ s.tables ∨ (t.currentOrder = some o.id ∧ o.place = some t.place)) :
    Kept { s with tables, orders } := by
  have hmem := fun x => Collection.mem_insertOne (x := x) hins
  refine
    { h with
      priced := fun o' ho' => ?_
      sold := fun x hx => ?_
      seated := fun t ht j hj => ?_ }
  · obtain ho' | rfl := (hmem o').mp ho'
    · exact h.priced o' ho'
    · exact hpriced
  · obtain ⟨o', ho', hs⟩ := h.sold x hx
    exact ⟨o', (hmem o').mpr (.inl ho'), hs⟩
  · obtain ht | ⟨hi, hp⟩ := htables t ht
    · obtain ⟨o', ho', hs⟩ := h.seated t ht j hj
      exact ⟨o', (hmem o').mpr (.inl ho'), hs⟩
    · exact ⟨o, (hmem o).mpr (.inr rfl), Option.some.inj (hi.symm.trans hj), hopen, hp⟩

theorem move (h : Kept s) (ho : o ∈ s.orders) (hopen : o.IsOpen) (status : TableStatus) (target : ℕ) :
    Kept ((({ s with tables := claimed s.tables o.id ⟨o.outlet, target⟩ } : Store).edit o.id (.moveTo target)).release
      o.id status o.place) :=
  { h with
    priced := h.priced_edit ho ((h.priced o ho).congr rfl rfl rfl)
    sold := fun x hx => h.sold_edit ho hopen hx
    seated := by
      intro t ht j hj
      obtain ⟨ht, hne⟩ := of_mem_released ht hj
      obtain ⟨ht, -⟩ | ⟨r, hr, hplace, rfl⟩ := mem_claimed.mp ht
      · exact h.seated_edit ht hj fun hji => hne hji (h.place_of_claim ho t ht (hji ▸ hj))
      · refine ⟨(Edit.moveTo target).apply o, mem_edit_self ho, Option.some.inj hj, hopen, ?_⟩
        rw [Table.claim_place, hplace]
        rfl }

theorem sell (h : Kept s) (ho : o ∈ s.orders) (hopen : o.IsOpen) {sales : Collection Sale Sale.id} {posting : Option Intent}
    (hins : s.sales.insertOne sale = some sales) (horder : sale.order = o.id) (hlines : sale.lines = o.lines)
    (hamount : sale.amount + sale.benefits = o.pricing.grandTotal) (hnew : sale.refundedAmount = none)
    (hpaid : 0 ≤ sale.paid) (htotal : sale.paid ≤ sale.totalAmount) :
    Kept (((({ s with sales } : Store).post posting).edit o.id .close).release o.id .dirty o.place) := by
  have hmem := fun x => Collection.mem_insertOne (x := x) hins
  have hfresh := (Collection.insertOne_eq_some hins).1
  refine
    { priced := h.priced_edit ho ((h.priced o ho).congr rfl rfl rfl)
      sold := fun x hx => ?_
      oneSale := fun x hx y hy hxy => ?_
      paid := fun x hx => ?_
      seated := fun t ht j hj => ?_
      refunded := fun x hx => ?_
      ofSale := fun r hr => ?_
      reversed := fun r hr => ?_
      charged := fun x hx hroom hfull => ?_ }
  · obtain hx | rfl := (hmem x).mp hx
    · exact h.sold_edit ho hopen hx
    · exact ⟨Edit.close.apply o, mem_edit_self ho, horder.symm, rfl, hlines, hamount⟩
  · obtain hx | rfl := (hmem x).mp hx <;> obtain hy | rfl := (hmem y).mp hy
    · exact h.oneSale x hx y hy hxy
    · exact absurd (hxy.trans horder) (h.unsold ho hopen hx)
    · exact absurd (hxy.symm.trans horder) (h.unsold ho hopen hy)
    · rfl
  · obtain hx | rfl := (hmem x).mp hx
    · exact h.paid x hx
    · exact htotal
  · obtain ⟨ht, hne⟩ := of_mem_released ht hj
    exact h.seated_edit ht hj fun hji => hne hji (h.place_of_claim ho t ht (hji ▸ hj))
  · obtain hx | rfl := (hmem x).mp hx
    · exact h.refunded x hx
    · have hnone : ∀ r ∈ s.refunds, (decide (r.sale = x.id)) = false := by
        intro r hr
        obtain ⟨y, hy, hid⟩ := h.ofSale r hr
        exact decide_eq_false fun hr => hfresh y hy (hid.trans hr)
      have hzero : x.refunded = 0 := by rw [Sale.refunded, hnew, Option.getD_none]
      rw [hzero]
      exact ⟨Collection.sumOf_eq_zero hnone, hpaid⟩
  · obtain ⟨y, hy, hid⟩ := h.ofSale r hr
    exact ⟨y, (hmem y).mpr (.inl hy), hid⟩
  · obtain ⟨y, hy, hid⟩ := h.reversed r hr
    exact ⟨y, (hmem y).mpr (.inl hy), hid⟩
  · obtain hx | rfl := (hmem x).mp hx
    · exact h.charged x hx hroom hfull
    · rw [Sale.RefundedInFull, hnew] at hfull
      cases hfull

/-! ### Refunds -/

theorem mem_refunded (hx : x ∈ s.sales) (amount : ℤ) (y : Sale) :
    y ∈ s.sales.update x.id (Sale.refund amount) (Sale.refund_id amount) ↔
      (y ∈ s.sales ∧ y.id ≠ x.id) ∨ y = x.refund amount := by
  refine Collection.mem_update.trans (or_congr_right ⟨?_, fun hy => ⟨x, hx, rfl, hy⟩⟩)
  rintro ⟨z, hz, hid, rfl⟩
  rw [Collection.eq_of_key hz hx hid]

theorem closed_refund (full : Bool) (i : ℕ) (ho : o ∈ s.orders) :
    ∃ o' ∈ (s.edit i (.refund full)).orders, o'.id = o.id ∧ o'.status = o.status ∧ o'.lines = o.lines ∧
      o'.adjustments = o.adjustments ∧ o'.pricing = o.pricing ∧ o'.place = o.place := by
  by_cases hid : o.id = i
  · subst hid
    exact ⟨_, mem_edit_self ho, rfl, rfl, rfl, rfl, rfl, rfl⟩
  · exact ⟨o, mem_edit.mpr (.inl ⟨ho, hid⟩), rfl, rfl, rfl, rfl, rfl, rfl⟩

theorem settles_congr (h : x.Settles o) (hs : o'.status = o.status) (hl : o'.lines = o.lines)
    (hp : o'.pricing = o.pricing) : x.Settles o' :=
  ⟨hs.trans h.closed, h.lines.trans hl.symm, h.amount.trans (congrArg _ hp.symm)⟩

theorem refund (h : Kept s) (hx : x ∈ s.sales) (hpos : 0 < amount) (hle : x.refunded + amount ≤ x.paid)
    {r : Refund} {refunds : Collection Refund Refund.id} {reversals : Collection Intent Intent.order}
    (hins : s.refunds.insertOne r = some refunds) (hsale : r.sale = x.id) (hamount : r.amount = amount)
    (hold : ∀ y ∈ s.reversals, y ∈ reversals)
    (hnew : ∀ y ∈ reversals, y ∈ s.reversals ∨ (y.order = x.order ∧ x.refunded + amount = x.paid))
    (hroom : x.IsRoomCharge → x.refunded + amount = x.paid → ∃ y ∈ reversals, y.order = x.order) (full : Bool) :
    Kept (({ s with
      sales := s.sales.update x.id (Sale.refund amount) (Sale.refund_id amount), reversals, refunds } : Store).edit
        x.order (.refund full)) := by
  have hmem := mem_refunded hx amount
  refine
    { priced := fun o' ho' => ?_
      sold := fun y hy => ?_
      oneSale := fun y hy z hz hyz => ?_
      paid := fun y hy => ?_
      seated := fun t ht j hj => ?_
      refunded := fun y hy => ?_
      ofSale := fun r' hr' => ?_
      reversed := fun r' hr' => ?_
      charged := fun y hy hr hfull => ?_ }
  · obtain ⟨ho', -⟩ | ⟨o, ho, -, rfl⟩ := mem_edit.mp ho'
    · exact h.priced o' ho'
    · exact (h.priced o ho).congr rfl rfl rfl
  · have hsold : ∃ o ∈ s.orders, o.id = y.order ∧ y.Settles o := by
      obtain ⟨hy, -⟩ | rfl := (hmem y).mp hy
      · exact h.sold y hy
      · obtain ⟨o, ho, hid, hs⟩ := h.sold x hx
        exact ⟨o, ho, hid, hs.closed, hs.lines, hs.amount⟩
    obtain ⟨o, ho, hid, hs⟩ := hsold
    obtain ⟨o', ho', hid', hst, hl, -, hp, -⟩ := closed_refund full x.order ho
    exact ⟨o', ho', hid'.trans hid, settles_congr hs hst hl hp⟩
  · obtain ⟨hy, hyx⟩ | rfl := (hmem y).mp hy <;> obtain ⟨hz, hzx⟩ | rfl := (hmem z).mp hz
    · exact h.oneSale y hy z hz hyz
    · exact absurd (congrArg Sale.id (h.oneSale y hy x hx hyz)) hyx
    · exact absurd (congrArg Sale.id (h.oneSale z hz x hx hyz.symm)) hzx
    · rfl
  · obtain ⟨hy, -⟩ | rfl := (hmem y).mp hy
    · exact h.paid y hy
    · exact h.paid x hx
  · obtain ⟨o, ho, hid, hopen, hplace⟩ := h.seated t ht j hj
    obtain ⟨o', ho', hid', hst, -, -, -, hp⟩ := closed_refund full x.order ho
    refine ⟨o', ho', hid'.trans hid, ?_, hp.trans hplace⟩
    rw [PosOrder.IsOpen, hst]
    exact hopen
  · have hsum : ∀ i, refunds.sumOf (fun r => r.sale = i) Refund.amount =
        s.refundsOf i + if r.sale = i then r.amount else 0 := by
      intro i
      rw [Collection.sumOf_insertOne hins]
      simp [Store.refundsOf]
    obtain ⟨hy, hne⟩ | rfl := (hmem y).mp hy
    · obtain ⟨heq, hyle⟩ := h.refunded y hy
      refine ⟨?_, hyle⟩
      change refunds.sumOf _ _ = _
      rw [hsum, if_neg (by rw [hsale]; exact hne.symm), heq, add_zero]
    · obtain ⟨heq, -⟩ := h.refunded x hx
      refine ⟨?_, hle⟩
      change refunds.sumOf (fun r => decide (r.sale = x.id)) _ = x.refunded + amount
      rw [hsum, if_pos hsale, heq, hamount]
  · obtain hr' | rfl := (Collection.mem_insertOne hins).mp hr'
    · obtain ⟨y, hy, hid⟩ := h.ofSale r' hr'
      by_cases hyx : y.id = x.id
      · exact ⟨_, (hmem _).mpr (.inr rfl), hyx.symm.trans hid⟩
      · exact ⟨y, (hmem y).mpr (.inl ⟨hy, hyx⟩), hid⟩
    · exact ⟨_, (hmem _).mpr (.inr rfl), hsale.symm⟩
  · obtain hr' | ⟨hid, hfull⟩ := hnew r' hr'
    · obtain ⟨y, hy, hid, hfull⟩ := h.reversed r' hr'
      have hyx : y.id ≠ x.id := by
        intro hyx
        rw [Collection.eq_of_key hy hx hyx] at hfull
        have hrefunded : x.refunded = x.paid := by rw [Sale.refunded, hfull, Option.getD_some]
        omega
      exact ⟨y, (hmem y).mpr (.inl ⟨hy, hyx⟩), hid, hfull⟩
    · exact ⟨_, (hmem _).mpr (.inr rfl), hid.symm, congrArg some hfull⟩
  · obtain ⟨hy, -⟩ | rfl := (hmem y).mp hy
    · obtain ⟨r', hr', hid⟩ := h.charged y hy hr hfull
      exact ⟨r', hold r' hr', hid⟩
    · exact hroom hr (Option.some.inj hfull)

end Kept

end SyrocePms.PosCheck

/-! What one step keeps and what it leaves: a closed order is final, a table is held as long as its
order is open at it, and a sale stays. -/

namespace SyrocePms.PosCheck

open Lib Program

variable {s s' : Store} {i j k : ℕ} {e : Edit} {o o' read : PosOrder} {t : Table} {place : Place}
  {sale x : Sale} {paid amount : ℤ} {c : Chance} {key : Option ℕ} {hash : ℕ} {plan : Plan} {pricing : Pricing}
  {lines : List Line} {thread : Thread} {claims : Option Place}
variable {p : PosOrder → Bool} {order target : ℕ} {posting : Option Intent}

def Store.Holds (s : Store) (place : Place) (i : ℕ) : Prop :=
  ∃ t ∈ s.tables, t.place = place ∧ t.currentOrder = some i

/-- Order `i` is open at a place. -/
def Store.Stays (s : Store) (place : Place) (i : ℕ) : Prop :=
  ∃ o ∈ s.orders, o.id = i ∧ o.IsOpen ∧ o.place = some place

structure Follows (s s' : Store) : Prop where
  final : ∀ o ∈ s.orders, o.status = .closed → ∃ o' ∈ s'.orders, o'.id = o.id ∧ o'.status = .closed ∧
    o'.lines = o.lines ∧ o'.adjustments = o.adjustments ∧ o'.pricing = o.pricing
  held : ∀ place i, s.Holds place i → s'.Stays place i → s'.Holds place i
  sales : ∀ x ∈ s.sales, ∃ x' ∈ s'.sales, x'.id = x.id ∧ x'.order = x.order ∧ x'.paid = x.paid

theorem Follows.refl (s : Store) : Follows s s :=
  ⟨fun o ho hc => ⟨o, ho, rfl, hc, rfl, rfl, rfl⟩, fun _ _ h _ => h, fun x hx => ⟨x, hx, rfl, rfl, rfl⟩⟩

theorem isOpen_congr (h : read.IsOpen) (hs : o.status = read.status) : o.IsOpen := by
  rw [PosOrder.IsOpen, hs]
  exact h

/-! ### What the comparisons say -/

theorem matchesCheck_eq (h : read.matchesCheck o = true) :
    o.status = read.status ∧ o.lines = read.lines ∧ o.pricing.grandTotal = read.pricing.grandTotal ∧
      o.place = read.place := by
  simp only [PosOrder.matchesCheck, Bool.and_eq_true, decide_eq_true_eq] at h
  obtain ⟨⟨⟨⟨⟨hs, -⟩, hl⟩, hg⟩, ht⟩, ho⟩ := h
  exact ⟨hs, hl, hg, by rw [PosOrder.place, PosOrder.place, ht, ho]⟩

theorem matchesLines_eq (h : read.matchesLines o = true) : o.status = read.status ∧ o.lines = read.lines := by
  simp only [PosOrder.matchesLines, Bool.and_eq_true, decide_eq_true_eq] at h
  exact ⟨h.1.1.1, h.1.1.2⟩

theorem matchesAdjustments_eq (h : read.matchesAdjustments o = true) :
    read.matchesLines o = true ∧ o.adjustments = read.adjustments := by
  simpa only [PosOrder.matchesAdjustments, Bool.and_eq_true, decide_eq_true_eq] using h

theorem matchesSeat_eq (h : read.matchesSeat o = true) :
    o.status = read.status ∧ o.outlet = read.outlet ∧ o.place = read.place := by
  simp only [PosOrder.matchesSeat, Bool.and_eq_true, decide_eq_true_eq] at h
  obtain ⟨⟨⟨hs, -⟩, ht⟩, ho⟩ := h
  exact ⟨hs, ho, by rw [PosOrder.place, PosOrder.place, ht, ho]⟩

theorem matchesBill_eq (h : read.matchesBill o = true) : read.matchesCheck o = true := by
  simp only [PosOrder.matchesBill, Bool.and_eq_true] at h
  exact h.1.1

/-! ### Transactions keep the invariant -/

theorem persistOrder_kept (h : Kept s) (hf : (Plan.create o claims).Fits s)
    (hc : persistOrderAndClaimTable o claims s = some s') : Kept s' := by
  obtain ⟨hpriced, hopen, hplace⟩ := hf
  cases claims with
  | none =>
    obtain ⟨orders, hins, rfl⟩ := insertOrder_eq hc
    exact h.claim_open hins hpriced hopen fun t ht => .inl ht
  | some place =>
    obtain ⟨s₁, hclaim, hc⟩ := Option.bind_eq_some_iff.mp hc
    obtain ⟨-, -, -, -, rfl⟩ := claim_eq hclaim
    obtain ⟨orders, hins, rfl⟩ := insertOrder_eq hc
    refine h.claim_open hins hpriced hopen fun t ht => ?_
    obtain ⟨ht, -⟩ | ⟨r, -, hr, rfl⟩ := mem_claimed.mp ht
    · exact .inl ht
    · exact .inr ⟨rfl, by rw [hplace place rfl, Table.claim_place, hr]⟩

theorem adjustments_of_isSound (ho : o ∈ s.orders) (hp : p o = true)
    (h : ((s.orders.get? o.id).all fun o => !p o || o.adjustments = read.adjustments) = true) :
    o.adjustments = read.adjustments := by
  rw [Collection.get?_eq_some.mpr ⟨ho, rfl⟩] at h
  simpa [hp] using h

theorem appendItems_kept (h : Kept s) (hf : (Plan.addItems read lines pricing key hash).Fits s)
    (hsound : (Plan.addItems read lines pricing key hash).isSound s = true)
    (hc : appendItemsAtomically read lines pricing key hash s = some s') : Kept s' := by
  obtain ⟨hopen, hpriced⟩ := hf
  obtain ⟨o, ho, hid, hm, batches, rfl⟩ := appendItems_eq hc
  obtain ⟨hst, hl, -, -⟩ := matchesCheck_eq hm
  have ha : o.adjustments = read.adjustments := by
    rw [Plan.isSound, ← hid] at hsound
    exact adjustments_of_isSound ho hm hsound
  have hopen := isOpen_congr hopen hst
  have hk : Kept { s with batches } := { h with }
  exact hk.edit ho hopen hopen rfl (hpriced.congr (congrArg (· ++ lines) hl) ha rfl)

theorem voidItem_kept (h : Kept s) (hf : (Plan.voidItem read lines pricing).Fits s)
    (hsound : (Plan.voidItem read lines pricing).isSound s = true)
    (hc : s.compareAndSet read.id read.matchesLines (.setLines lines pricing) = some s') : Kept s' := by
  obtain ⟨hopen, hpriced⟩ := hf
  obtain ⟨o, ho, hid, hm, rfl⟩ := compareAndSet_eq hc
  obtain ⟨hst, -⟩ := matchesLines_eq hm
  have ha : o.adjustments = read.adjustments := by
    rw [Plan.isSound, ← hid] at hsound
    exact adjustments_of_isSound ho hm hsound
  have hopen := isOpen_congr hopen hst
  rw [← hid]
  exact h.edit ho hopen hopen rfl (hpriced.congr rfl ha rfl)

theorem adjust_kept {a : Adjustment} (h : Kept s) (hf : (Plan.adjust read a pricing).Fits s)
    (hc : s.compareAndSet read.id read.matchesAdjustments (.adjust a pricing) = some s') : Kept s' := by
  obtain ⟨hopen, hpriced⟩ := hf
  obtain ⟨o, ho, hid, hm, rfl⟩ := compareAndSet_eq hc
  obtain ⟨hm, ha⟩ := matchesAdjustments_eq hm
  obtain ⟨hst, hl⟩ := matchesLines_eq hm
  have hopen := isOpen_congr hopen hst
  rw [← hid]
  exact h.edit ho hopen hopen rfl (hpriced.congr hl (congrArg (· ++ [a]) ha) rfl)

theorem transferTable_kept (h : Kept s) (hopen : read.IsOpen)
    (hc : transferTable read target s = some s') : Kept s' := by
  obtain ⟨o, ho, -, hm, -, rfl⟩ := transferTable_eq hc
  obtain ⟨hst, hout, hplace⟩ := matchesSeat_eq hm
  rw [← hplace, ← hout]
  exact h.move ho (isOpen_congr hopen hst) .available target

theorem voidOrder_kept (h : Kept s) (hopen : read.IsOpen) (hc : voidOrder read s = some s') : Kept s' := by
  obtain ⟨o, ho, -, hm, rfl⟩ := voidOrder_eq hc
  obtain ⟨hst, -, -, hplace⟩ := matchesCheck_eq hm
  rw [← hplace]
  exact h.leave ho (isOpen_congr hopen hst) .available ((h.priced o ho).congr rfl rfl rfl)

theorem persistTxn_kept (h : Kept s) (hf : (Plan.close read sale posting).Fits s)
    (hc : persistTxnAndIntent read sale posting s c = some s') : Kept s' := by
  obtain ⟨hopen, horder, hlines, hamount, hnew, hpaid, htotal⟩ := hf
  obtain ⟨sales, hins, o, ho, hid, hm, rfl⟩ := persistTxn_eq hc
  obtain ⟨hst, hl, hg, hplace⟩ := matchesCheck_eq (matchesBill_eq hm)
  rw [← hplace]
  exact h.sell ho (isOpen_congr hopen hst) hins (horder.trans hid.symm) (hlines.trans hl.symm)
    (hamount.trans hg.symm) hnew hpaid htotal

theorem persistRefund_kept (h : Kept s) (hf : (Plan.refund order i paid amount key hash).Fits s)
    (hsound : (Plan.refund order i paid amount key hash).isSound s = true)
    (hc : persistRefundAndState k order i paid amount key hash s c = some s') : Kept s' := by
  obtain ⟨hpos, y, hy, hyid, rfl, rfl⟩ := hf
  obtain rfl | ⟨x, hx, hid, hle, refunds, reversals, hins, hold, hnew, hroom, rfl⟩ := persistRefund_eq hc
  · exact h
  · obtain rfl : x = y := Collection.eq_of_key hx hy (hid.trans hyid.symm)
    refine h.refund hx hpos hle hins hid.symm rfl hold (fun z hz => ?_) (fun hcharge hfull => ?_) _
    · obtain hz | ⟨hz, hfull⟩ := hnew z hz
      · exact .inl hz
      · exact .inr ⟨hz, le_antisymm hle hfull⟩
    · refine hroom ?_ hfull.ge
      rw [Plan.isSound, ← hid, Collection.get?_eq_some.mpr ⟨hx, rfl⟩] at hsound
      simp only [Option.all_some, Bool.or_eq_true, decide_eq_true_eq] at hsound
      obtain hmethod | hfolio := hcharge
      · exact hmethod
      · obtain (hnone | hlt) | hmethod := hsound
        · rw [hnone] at hfolio
          cases hfolio
        · omega
        · exact hmethod

/-- A sound transaction keeps the invariant. -/
theorem commit_kept (h : Kept s) (hf : plan.Fits s) (hsound : plan.isSound s = true)
    (hc : commit k s c plan = some s') : Kept s' := by
  cases plan with
  | create order claims => exact persistOrder_kept h hf hc
  | addItems read lines pricing key hash => exact appendItems_kept h hf hsound hc
  | voidItem read lines pricing => exact voidItem_kept h hf hsound hc
  | adjust read a pricing => exact adjust_kept h hf hc
  | transfer read target => exact transferTable_kept h hf hc
  | close read sale posting => exact persistTxn_kept h hf hc
  | void read => exact voidOrder_kept h hf hc
  | refund order sale paid amount key hash => exact persistRefund_kept h hf hsound hc

/-! ### What a transaction leaves -/

theorem follows_edit (ho : o ∈ s.orders) (hopen : o.IsOpen) (horders : s'.orders = (s.edit o.id e).orders)
    (hsales : ∀ x ∈ s.sales, x ∈ s'.sales)
    (hheld : ∀ t ∈ s.tables, ∀ i, t.currentOrder = some i → s'.Stays t.place i → s'.Holds t.place i) :
    Follows s s' := by
  refine ⟨fun r hr hclosed => ?_, ?_, fun x hx => ⟨x, hsales x hx, rfl, rfl, rfl⟩⟩
  · have hne : r.id ≠ o.id := by
      intro hid
      rw [Collection.eq_of_key hr ho hid] at hclosed
      exact hopen.1 hclosed
    refine ⟨r, ?_, rfl, hclosed, rfl, rfl, rfl⟩
    rw [horders]
    exact mem_edit.mpr (.inl ⟨hr, hne⟩)
  · rintro place i ⟨t, ht, rfl, hi⟩ hstays
    exact hheld t ht i hi hstays

theorem held_release {tables : Collection Table Table.place} {status : TableStatus} {at' : Option Place}
    (hs : s'.tables = released tables o.id status at') (ht : t ∈ tables) (hi : t.currentOrder = some i)
    (hstays : s'.Stays t.place i) (hgone : ¬ s'.Stays t.place o.id) : s'.Holds t.place i := by
  have hne : i ≠ o.id := fun hio => hgone (hio ▸ hstays)
  refine ⟨t, ?_, rfl, hi⟩
  rw [hs]
  exact mem_released_of_ne ht fun hio => hne (Option.some.inj (hi.symm.trans hio))

theorem mem_claimed_of_held {r : Table} (hr : r ∈ s.tables) (hfree : r.isFree = true) (hplace : r.place = place)
    (ht : t ∈ s.tables) (hi : t.currentOrder = some i) : t ∈ claimed s.tables j place ∧ t.place ≠ place := by
  have hne : t.place ≠ place := by
    intro hp
    rw [Collection.eq_of_key ht hr (hp.trans hplace.symm), Table.currentOrder_of_isFree hfree] at hi
    cases hi
  exact ⟨mem_claimed.mpr (.inl ⟨ht, hne⟩), hne⟩

theorem not_stays_of_edit (ho : o ∈ s.orders) (horders : s'.orders = (s.edit o.id e).orders)
    (hgone : ¬ ((e.apply o).IsOpen ∧ (e.apply o).place = some place)) : ¬ s'.Stays place o.id := by
  rintro ⟨r, hr, hid, hr'⟩
  rw [horders] at hr
  obtain ⟨-, hne⟩ | rfl := of_mem_edit ho hr
  · exact hne hid
  · exact hgone hr'

theorem persistOrder_follows (hc : persistOrderAndClaimTable o claims s = some s') : Follows s s' := by
  have hopened : ∀ {tables : Collection Table Table.place} {orders : Collection PosOrder PosOrder.id},
      s.orders.insertOne o = some orders → (∀ t ∈ s.tables, ∀ i, t.currentOrder = some i → t ∈ tables) →
      Follows s { s with tables, orders } := by
    intro tables orders hins htables
    have hmem := fun r hr => (Collection.mem_insertOne (x := r) hins).mpr (.inl hr)
    refine ⟨fun r hr hclosed => ⟨r, hmem r hr, rfl, hclosed, rfl, rfl, rfl⟩, ?_, fun x hx => ⟨x, hx, rfl, rfl, rfl⟩⟩
    rintro place i ⟨t, ht, hp, hi⟩ -
    exact ⟨t, htables t ht i hi, hp, hi⟩
  cases claims with
  | none =>
    obtain ⟨orders, hins, rfl⟩ := insertOrder_eq hc
    exact hopened hins fun t ht _ _ => ht
  | some place =>
    obtain ⟨s₁, hclaim, hc⟩ := Option.bind_eq_some_iff.mp hc
    obtain ⟨r, hr, hplace, hfree, rfl⟩ := claim_eq hclaim
    obtain ⟨orders, hins, rfl⟩ := insertOrder_eq hc
    exact hopened hins fun t ht i hi => (mem_claimed_of_held hr hfree hplace ht hi).1

/-- Items and adjustments touch no table. -/
theorem edit_follows (hopen : read.IsOpen) (hp : ∀ o, p o = true → o.status = read.status)
    (hc : s.compareAndSet read.id p e = some s') : Follows s s' := by
  obtain ⟨o, ho, hid, hm, rfl⟩ := compareAndSet_eq hc
  rw [← hid]
  exact follows_edit ho (isOpen_congr hopen (hp o hm)) rfl (fun x hx => hx) fun t ht i hi _ => ⟨t, ht, rfl, hi⟩

theorem appendItems_follows (hopen : read.IsOpen)
    (hc : appendItemsAtomically read lines pricing key hash s = some s') : Follows s s' := by
  obtain ⟨o, ho, -, hm, batches, rfl⟩ := appendItems_eq hc
  exact follows_edit ho (isOpen_congr hopen (matchesCheck_eq hm).1) rfl (fun x hx => hx) fun t ht i hi _ =>
    ⟨t, ht, rfl, hi⟩

theorem transferTable_follows (hopen : read.IsOpen) (hc : transferTable read target s = some s') :
    Follows s s' := by
  obtain ⟨o, ho, -, hm, ⟨r, hr, hplace, hfree⟩, rfl⟩ := transferTable_eq hc
  obtain ⟨hst, hout, -⟩ := matchesSeat_eq hm
  refine follows_edit ho (isOpen_congr hopen hst) rfl (fun x hx => hx) fun t ht i hi hstays => ?_
  obtain ⟨ht, hne⟩ := mem_claimed_of_held hr hfree hplace ht hi
  -- the order is at its target now, which no order held
  refine held_release rfl ht hi hstays (not_stays_of_edit ho rfl fun hat => hne ?_)
  rw [← hout]
  exact (Option.some.inj hat.2).symm

theorem voidOrder_follows (hopen : read.IsOpen) (hc : voidOrder read s = some s') : Follows s s' := by
  obtain ⟨o, ho, -, hm, rfl⟩ := voidOrder_eq hc
  refine follows_edit ho (isOpen_congr hopen (matchesCheck_eq hm).1) rfl (fun x hx => hx) fun t ht i hi hstays => ?_
  exact held_release rfl ht hi hstays (not_stays_of_edit ho rfl fun hat => hat.1.2 rfl)

theorem persistTxn_follows (hopen : read.IsOpen)
    (hc : persistTxnAndIntent read sale posting s c = some s') : Follows s s' := by
  obtain ⟨sales, hins, o, ho, -, hm, rfl⟩ := persistTxn_eq hc
  have hst := (matchesCheck_eq (matchesBill_eq hm)).1
  refine follows_edit ho (isOpen_congr hopen hst) rfl (fun x hx => (Collection.mem_insertOne hins).mpr (.inl hx))
    fun t ht i hi hstays => ?_
  exact held_release rfl ht hi hstays (not_stays_of_edit ho rfl fun hat => hat.1.1 rfl)

theorem persistRefund_follows
    (hc : persistRefundAndState k order i paid amount key hash s c = some s') : Follows s s' := by
  obtain rfl | ⟨x, hx, -, -, refunds, reversals, -, -, -, -, rfl⟩ := persistRefund_eq hc
  · exact .refl s'
  · refine ⟨fun o ho hclosed => ?_, fun place i hh _ => hh, fun y hy => ?_⟩
    · obtain ⟨o', ho', hid, hst, hl, ha, hp, -⟩ := Kept.closed_refund _ order ho
      exact ⟨o', ho', hid, hst.trans hclosed, hl, ha, hp⟩
    · by_cases hyx : y.id = x.id
      · obtain rfl := Collection.eq_of_key hy hx hyx
        exact ⟨_, (Kept.mem_refunded hy amount _).mpr (.inr rfl), rfl, rfl, rfl⟩
      · exact ⟨y, (Kept.mem_refunded hx amount y).mpr (.inl ⟨hy, hyx⟩), rfl, rfl, rfl⟩

theorem commit_follows (hf : plan.Fits s) (hc : commit k s c plan = some s') : Follows s s' := by
  cases plan with
  | create order claims => exact persistOrder_follows hc
  | addItems read lines pricing key hash => exact appendItems_follows hf.1 hc
  | voidItem read lines pricing => exact edit_follows hf.1 (fun o hm => (matchesLines_eq hm).1) hc
  | adjust read a pricing =>
    exact edit_follows hf.1 (fun o hm => (matchesLines_eq (matchesAdjustments_eq hm).1).1) hc
  | transfer read target => exact transferTable_follows hf hc
  | close read sale posting => exact persistTxn_follows hf.1 hc
  | void read => exact voidOrder_follows hf hc
  | refund order sale paid amount key hash => exact persistRefund_follows hc

end SyrocePms.PosCheck
