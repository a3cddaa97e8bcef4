import SyrocePms.Lib.Transaction
import SyrocePms.PosCheck.Steps

/-! What the plans know when they are made: they fit the store they were read from. -/

namespace SyrocePms.PosCheck

open Lib

variable {s s' : Store} {k n : ℕ} {read : PosOrder} {c : Chance} {plan : Plan} {lines : List Line} {table : Option Table}
variable {xs : List Item} {a : Checkout}

/-! ### Items -/

theorem rounded_nonneg {x : ℚ} (h : 0 ≤ x) : 0 ≤ rounded x := by
  rw [rounded, if_neg (not_lt.mpr h)]
  exact Int.floor_nonneg.mpr (by positivity)

theorem catalogLine_nonneg {id : ℕ × ℕ} {quantity : ℕ} {m : MenuItem} {line : Line}
    (h : catalogLine id quantity m = some line) : 0 ≤ line.total ∧ 0 ≤ line.taxRate := by
  unfold catalogLine at h
  split at h
  · cases h
  · rename_i hok
    cases h
    push Not at hok
    obtain ⟨-, -, hprice, hrate, -⟩ := hok
    exact ⟨rounded_nonneg (by positivity), hrate⟩

theorem catalogLines_nonneg (h : catalogLines k c.menu n xs = some lines) :
    0 ≤ subtotal lines ∧ 0 ≤ tax lines := by
  induction xs generalizing n lines with
  | nil =>
    cases h
    exact ⟨le_rfl, le_rfl⟩
  | cons x xs ih =>
    obtain ⟨m, -, h⟩ := Option.bind_eq_some_iff.mp h
    obtain ⟨line, hline, h⟩ := Option.bind_eq_some_iff.mp h
    obtain ⟨rest, hrest, h⟩ := Option.bind_eq_some_iff.mp h
    cases h
    obtain ⟨htotal, hrate⟩ := catalogLine_nonneg hline
    obtain ⟨hsub, htax⟩ := ih hrest
    have hline : 0 ≤ rounded (line.total * line.taxRate) :=
      rounded_nonneg (mul_nonneg (by exact_mod_cast htotal) hrate)
    constructor
    · simpa [subtotal] using add_nonneg htotal hsub
    · simpa [tax] using add_nonneg hline htax

theorem catalogLines_ne_nil (hx : xs ≠ []) (h : catalogLines k c.menu n xs = some lines) :
    lines ≠ [] := by
  cases xs with
  | nil => exact absurd rfl hx
  | cons x xs =>
    obtain ⟨m, -, h⟩ := Option.bind_eq_some_iff.mp h
    obtain ⟨line, -, h⟩ := Option.bind_eq_some_iff.mp h
    obtain ⟨rest, -, h⟩ := Option.bind_eq_some_iff.mp h
    cases h
    exact List.cons_ne_nil _ _

theorem isOpen_of_isServable (h : read.isServable = true) : read.IsOpen := by
  simp only [PosOrder.isServable, Bool.decide_and, Bool.and_eq_true, decide_eq_true_eq] at h
  obtain ⟨h | h | h, -⟩ := h <;> simp [PosOrder.IsOpen, h]

/-! ### Plans -/

theorem planCreate_fits {a : Opening} (ht : ∀ t, table = some t → a.table.map (Place.mk a.outlet) = some t.place)
    (h : planCreate k a table c = .ok plan) : plan.Fits s := by
  unfold planCreate at h
  split at h
  · cases h
  · rename_i hitems
    split at h
    · cases h
    · split at h
      · cases h
      · rename_i lines hlines
        dsimp only at h
        split at h
        · cases h
        · cases h
          have hnonneg := catalogLines_nonneg hlines
          have hbase := add_nonneg hnonneg.1 hnonneg.2
          refine ⟨priced_new (catalogLines_ne_nil hitems hlines) rfl rfl hbase, ⟨by simp, by simp⟩, ?_⟩
          intro place hplace
          obtain ⟨t, htable, rfl⟩ := Option.map_eq_some_iff.mp hplace
          exact ht t htable

theorem planAddItems_fits {a : Addition} (hp : read.Priced) (h : planAddItems k a read c = .ok plan) : plan.Fits s := by
  unfold planAddItems at h
  split at h
  · cases h
  · split at h
    · cases h
    · rename_i hopen
      split at h
      · cases h
      · rename_i lines hlines
        split at h
        · cases h
        · split at h
          · cases h
          · rename_i pricing hpricing
            cases h
            have hne : read.lines ++ lines ≠ [] := List.append_ne_nil_of_left_ne_nil hp.lines _
            exact ⟨isOpen_of_isServable (by simpa using hopen), repriceOrder_priced hp.unadjusted hne rfl hpricing⟩

theorem planVoidItem_fits {lineIndex : ℕ} (hp : read.Priced) (h : planVoidItem lineIndex read = .ok plan) :
    plan.Fits s := by
  unfold planVoidItem at h
  dsimp only at h
  split at h
  · cases h
  · rename_i hopen
    split at h
    · cases h
    · split at h
      · cases h
      · rename_i hne
        split at h
        · cases h
        · rename_i pricing hpricing
          cases h
          exact ⟨isOpen_of_isServable (by simpa using hopen), repriceOrder_priced hp.unadjusted hne rfl hpricing⟩

theorem planAdjust_fits {a : AdjustmentRequest} (hp : read.Priced) (h : planAdjust k a read = .ok plan) :
    plan.Fits s := by
  unfold planAdjust at h
  dsimp only at h
  split at h
  · cases h
  · rename_i hopen
    split at h
    · cases h
    · split at h
      · cases h
      · rename_i pricing hpricing
        cases h
        exact ⟨isOpen_of_isServable (by simpa using hopen),
          repriceOrder_priced (hp.unadjusted.adjust _) hp.lines rfl hpricing⟩

theorem planTransfer_fits {target : ℕ} (hopen : read.IsOpen) (h : planTransfer read target table = .ok plan) :
    plan.Fits s := by
  unfold planTransfer at h
  split at h
  · cases h
  · split at h
    · cases h
      exact hopen
    · cases h

theorem planVoid_fits (h : planVoid read = .ok plan) : plan.Fits s := by
  unfold planVoid at h
  split at h
  · cases h
  · rename_i hvoided
    split at h
    · cases h
    · rename_i hclosed
      cases h
      exact ⟨fun hc => hclosed (.inl hc), hvoided⟩

theorem planRefund_fits {a : RefundRequest} (h : planRefund a (s.sales.findOne fun x => x.order = a.order) = .ok plan) :
    plan.Fits s := by
  unfold planRefund at h
  split at h
  · cases h
  · rename_i x hx
    obtain ⟨hx, horder⟩ := Collection.mem_of_findOne hx
    dsimp only at h
    split at h
    · cases h
    · rename_i hamount
      split at h
      · cases h
      · cases h
        exact ⟨by omega, x, hx, rfl, by simpa using horder, rfl⟩

/-! ### Checkout -/

theorem benefitQuote_eq {q : Option Quote} (hg : 0 ≤ read.pricing.grandTotal)
    (h : benefitQuote a read c = .ok q) : let amount := (q.map Quote.net).getD read.pricing.grandTotal
    amount + (q.map fun q => (q.coupon + q.loyalty : ℤ)).getD 0 = read.pricing.grandTotal ∧ 0 ≤ amount := by
  unfold benefitQuote at h
  split at h
  · cases h
    exact ⟨by simp, hg⟩
  · split at h
    · cases h
    · rename_i quote hquote
      cases h
      unfold quoteCheckout at hquote
      split at hquote
      · cases hquote
      · dsimp only at hquote
        split at hquote
        · cases hquote
        · cases hquote
          simp only [Option.map_some, Option.getD_some, Quote.net]
          omega

theorem planClose_fits (htip : 0 ≤ a.tip) (h : planClose k a read c = .ok plan) : plan.Fits s := by
  unfold planClose at h
  split at h
  · cases h
  · rename_i hvoided
    split at h
    · cases h
    · rename_i hclosed
      split at h
      · cases h
      · rename_i hgrand
        obtain ⟨q, hq, h⟩ := Transaction.bind_eq_ok h
        obtain ⟨⟨method, posts⟩, -, h⟩ := Transaction.bind_eq_ok h
        obtain ⟨folio, -, h⟩ := Transaction.bind_eq_ok h
        cases h
        obtain ⟨hamount, hnonneg⟩ := benefitQuote_eq (not_lt.mp hgrand) hq
        have htotal : (q.map Quote.net).getD read.pricing.grandTotal ≤
            Decimal.roundEven ((q.map Quote.net).getD read.pricing.grandTotal + a.tip * 100) :=
          Decimal.le_roundEven (by linarith)
        refine ⟨⟨fun hc => hclosed (.inl hc), hvoided⟩, rfl, rfl, hamount, rfl, ?_, ?_⟩
        · unfold Sale.paid
          split
          · exact hnonneg
          · exact hnonneg.trans htotal
        · unfold Sale.paid
          split
          · exact htotal
          · exact le_rfl

end SyrocePms.PosCheck

/-! The life of a check over whole runs: one sale at the price of the check, a table held while the
order is open at it, and refunds within what was paid. The filters of added and voided items leave
the adjustments out, and the reversal of a room charge goes by the payment method. -/

namespace SyrocePms.PosCheck

open Lib Program Machine

variable {s s' : Store} {k : ℕ} {c : Chance} {thread : Thread} {p p' : Pool Store Thread}
  {a : Act Staff Request Chance}
variable {plan : Plan} {e : Staff} {thread' : Thread}

/-! ### Threads -/

def Thread.Fits (s : Store) : Thread → Prop
  | .reading (.close a) => 0 ≤ a.tip
  | .targeting read _ => read.IsOpen
  | .committing plan => plan.Fits s
  | _ => True

theorem planned_fits {r : Except Answer Plan} (h : ∀ plan, r = .ok plan → plan.Fits s) : (planned r).Fits s := by
  cases r with
  | ok plan => exact h plan rfl
  | error a => trivial

theorem withOrder_fits {i : ℕ} {go : PosOrder → Thread} (h : ∀ o ∈ s.orders, (go o).Fits s) :
    (withOrder s i go).Fits s := by
  unfold withOrder
  split
  · exact h _ (Collection.get?_eq_some.mp ‹_›).1
  · trivial

theorem ask_fits (r : Request) : (ask s r).Fits s := by
  unfold ask
  split
  · trivial
  · rename_i hvalid
    split
    · cases r <;> try trivial
      simpa [Thread.Fits, isInvalid] using hvalid
    · trivial

theorem read_fits (h : Kept s) {r : Request} (hr : (Thread.reading r).Fits s) : (read k s c r).Fits s := by
  cases r with
  | create a =>
    refine planned_fits fun plan hp => planCreate_fits (fun t ht => ?_) hp
    split at ht
    · obtain ⟨n, hn, ht⟩ := Option.bind_eq_some_iff.mp ht
      rw [hn, (Collection.get?_eq_some.mp ht).2, Option.map_some]
    · cases ht
  | addItems a => exact withOrder_fits fun o ho => planned_fits fun plan => planAddItems_fits (h.priced o ho)
  | voidItem i n => exact withOrder_fits fun o ho => planned_fits fun plan => planVoidItem_fits (h.priced o ho)
  | adjust a => exact withOrder_fits fun o ho => planned_fits fun plan => planAdjust_fits (h.priced o ho)
  | transfer i target =>
    refine withOrder_fits fun o _ => ?_
    split
    · exact isOpen_of_isServable ‹_›
    · trivial
  | close a => exact withOrder_fits fun o _ => planned_fits fun plan => planClose_fits hr
  | void i => exact withOrder_fits fun o _ => planned_fits fun plan => planVoid_fits
  | refund a =>
    refine withOrder_fits fun o _ => ?_
    split <;> trivial

theorem Plan.Fits.follows (hs : Follows s s') (h : plan.Fits s) : plan.Fits s' := by
  cases plan with
  | refund order sale paid amount key hash =>
    obtain ⟨hpos, x, hx, hid, horder, hpaid⟩ := h
    obtain ⟨x', hx', hid', horder', hpaid'⟩ := hs.sales x hx
    exact ⟨hpos, x', hx', hid'.trans hid, horder'.trans horder, hpaid'.trans hpaid⟩
  | _ => exact h

theorem Thread.Fits.follows (hs : Follows s s') (h : thread.Fits s) : thread.Fits s' := by
  cases thread with
  | reading r => cases r <;> exact h
  | committing plan => exact Plan.Fits.follows hs h
  | _ => exact h

/-! ### The staff -/

theorem mem_setStatus {status : TableStatus} {place : Place} {t : Table} :
    t ∈ s.tables.update place (Table.setStatus status) (Table.setStatus_place status) ↔
      (t ∈ s.tables ∧ t.place ≠ place) ∨ ∃ r ∈ s.tables, r.place = place ∧ t = r.setStatus status :=
  Collection.mem_update

theorem isOpen_of_mayBecome {o : PosOrder} {status : Status} (h : o.status.mayBecome status = true) :
    o.IsOpen ∧ ((Edit.progress status).apply o).IsOpen := by
  unfold Status.mayBecome at h
  split at h <;> simp_all [PosOrder.IsOpen, Edit.apply]

theorem staff_kept (h : Kept s) (hs : staff s e = some s') : Kept s' := by
  cases e with
  | progress i status =>
    obtain ⟨o, ho, rfl, hmay, rfl⟩ := compareAndSet_eq hs
    obtain ⟨hopen, hopen'⟩ := isOpen_of_mayBecome hmay
    exact h.edit ho hopen hopen' rfl ((h.priced o ho).congr rfl rfl rfl)
  | layOut place =>
    obtain ⟨tables, hins, rfl⟩ := Option.map_eq_some_iff.mp hs
    refine { h with seated := fun t ht i hi => ?_ }
    obtain ht | rfl := (Collection.mem_insertOne hins).mp ht
    · exact h.seated t ht i hi
    · cases hi
  | setStatus place status =>
    cases hs
    refine { h with seated := fun t ht i hi => ?_ }
    obtain ⟨ht, -⟩ | ⟨r, hr, -, rfl⟩ := mem_setStatus.mp ht
    · exact h.seated t ht i hi
    · exact h.seated r hr i hi

theorem staff_follows (hs : staff s e = some s') : Follows s s' := by
  cases e with
  | progress i status =>
    obtain ⟨o, ho, rfl, hmay, rfl⟩ := compareAndSet_eq hs
    exact follows_edit ho (isOpen_of_mayBecome hmay).1 rfl (fun x hx => hx) fun t ht i hi _ => ⟨t, ht, rfl, hi⟩
  | layOut place =>
    obtain ⟨tables, hins, rfl⟩ := Option.map_eq_some_iff.mp hs
    refine { Follows.refl s with held := ?_ }
    rintro place i ⟨t, ht, hp, hi⟩ -
    exact ⟨t, (Collection.mem_insertOne hins).mpr (.inl ht), hp, hi⟩
  | setStatus place status =>
    cases hs
    refine { Follows.refl s with held := ?_ }
    rintro place' i ⟨t, ht, hp, hi⟩ -
    by_cases hplace : t.place = place
    · exact ⟨t.setStatus status, mem_setStatus.mpr (.inr ⟨t, ht, hplace, rfl⟩), hp, hi⟩
    · exact ⟨t, mem_setStatus.mpr (.inl ⟨ht, hplace⟩), hp, hi⟩

/-! ### Runs -/

def isSound (p : Pool Store Thread) : Act Staff Request Chance → Bool
  | .step k _ =>
    match p.threads[k]? with
    | some (.committing plan) => plan.isSound p.store
    | _ => true
  | _ => true

theorem step_done (h : step k s c (.committing plan) = some (s', thread')) :
    (∃ answer, thread' = .done answer) ∧ (s' = s ∨ commit k s c plan = some s') := by
  simp only [step] at h
  split at h
  · cases h
    exact ⟨⟨_, rfl⟩, .inl rfl⟩
  · split at h <;> cases h
    · exact ⟨⟨_, rfl⟩, .inr ‹_›⟩
    · exact ⟨⟨_, rfl⟩, .inl rfl⟩

theorem step_kept (h : Kept s) (hf : thread.Fits s)
    (hsound : ∀ plan, thread = .committing plan → plan.isSound s = true)
    (hs : step k s c thread = some (s', thread')) : Kept s' ∧ Follows s s' ∧ thread'.Fits s' := by
  cases thread with
  | asking r =>
    cases hs
    exact ⟨h, .refl s, ask_fits r⟩
  | reading r =>
    cases hs
    exact ⟨h, .refl s, read_fits h hf⟩
  | selling a =>
    cases hs
    exact ⟨h, .refl s, planned_fits fun plan => planRefund_fits⟩
  | targeting o target =>
    cases hs
    exact ⟨h, .refl s, planned_fits fun plan => planTransfer_fits hf⟩
  | committing plan =>
    obtain ⟨⟨answer, rfl⟩, rfl | hc⟩ := step_done hs
    · exact ⟨h, .refl s', trivial⟩
    · exact ⟨commit_kept h hf (hsound plan rfl) hc, commit_follows hf hc, trivial⟩
  | done answer => cases hs

theorem isSound_committing (ht : p.threads[k]? = some (.committing plan))
    (h : isSound p (.step k c) = true) : plan.isSound p.store = true := by
  simpa only [isSound, ht] using h

theorem kept_empty (ht : ∀ t ∈ s.tables, t.currentOrder = none) (hs : s = { tables := s.tables }) : Kept s := by
  rw [hs]
  refine ⟨?_, ?_, ?_, ?_, ?_, ?_, ?_, ?_, ?_⟩
  case refine_5 =>
    intro t h i hi
    rw [ht t h] at hi
    cases hi
  all_goals intro _ hx; exact absurd hx Collection.not_mem_empty

theorem checks_preserve : checks.Preserves (fun p a => isSound p a = true) Kept (fun s _ t => t.Fits s) (fun _ _ => True) where
  symm _ _ _ := trivial
  init s hs := kept_empty hs.2 hs.1
  env p e s' hp _ he := ⟨staff_kept hp.store he, fun k t ht => (hp.thread k t ht).follows (staff_follows he)⟩
  call p r t _ _ hr := by
    cases hr
    refine ⟨?_, fun _ _ => trivial⟩
    cases r <;> trivial
  step p k c t s' t' hp hc ht hs := by
    obtain ⟨hk, hfollows, hfits⟩ := step_kept hp.store (hp.thread k t ht)
      (fun plan hplan => isSound_committing (hplan ▸ ht) hc) hs
    exact ⟨hk, hfits, fun j u _ hu => ⟨(hp.thread j u hu).follows hfollows, trivial⟩⟩

theorem checks_follow (hp : Inv Kept (fun s _ t => t.Fits s) (fun _ _ => True) p) (ha : isSound p a = true)
    (hs : checks.machine.step p a = some p') : Follows p.store p'.store := by
  cases a with
  | env e => exact staff_follows (next_env hs).1
  | call r =>
    obtain ⟨t, -, hstore, -⟩ := next_call hs
    rw [hstore]
    exact .refl p.store
  | step k c =>
    obtain ⟨t, t', ht, hstep, -⟩ := next_step hs
    exact (step_kept hp.store (hp.thread k t ht) (fun plan hplan => isSound_committing (hplan ▸ ht) ha) hstep).2.1

/-! ### One life -/

structure OneLife (s : Store) : Prop where
  oneSale : ∀ x ∈ s.sales, ∀ y ∈ s.sales, x.order = y.order → x = y
  voided : ∀ o ∈ s.orders, o.status = .voided → ∀ x ∈ s.sales, x.order ≠ o.id
  amount : ∀ x ∈ s.sales, ∃ o ∈ s.orders, o.id = x.order ∧ o.status = .closed ∧ x.lines = o.lines ∧
    o.total = some (x.amount + x.benefits)
  oneTable : ∀ t ∈ s.tables, ∀ u ∈ s.tables, ∀ i, t.currentOrder = some i → u.currentOrder = some i → t = u
  claimed : ∀ t ∈ s.tables, ∀ i, t.currentOrder = some i → s.Stays t.place i
  refunds : ∀ x ∈ s.sales, s.refundsOf x.id ≤ x.totalAmount
  reversal : ∀ x ∈ s.sales, x.IsRoomCharge → ((∃ r ∈ s.reversals, r.order = x.order) ↔ x.RefundedInFull)

theorem Kept.oneLife (h : Kept s) : OneLife s where
  oneSale := h.oneSale
  voided o ho hvoided x hx hid := by
    obtain ⟨o', ho', hid', hs⟩ := h.sold x hx
    obtain rfl := Collection.eq_of_key ho' ho (hid'.trans hid)
    rw [hs.closed] at hvoided
    cases hvoided
  amount x hx := by
    obtain ⟨o, ho, hid, hs⟩ := h.sold x hx
    exact ⟨o, ho, hid, hs.closed, hs.lines, (h.priced o ho).total.trans (congrArg some hs.amount.symm)⟩
  oneTable t ht u hu i hti hui := by
    obtain ⟨o, ho, rfl, -, -⟩ := h.seated t ht i hti
    have hplace := (h.place_of_claim ho t ht hti).symm.trans (h.place_of_claim ho u hu hui)
    exact Collection.eq_of_key ht hu (Option.some.inj hplace)
  claimed := h.seated
  refunds x hx := by
    obtain ⟨heq, hle⟩ := h.refunded x hx
    rw [heq]
    exact hle.trans (h.paid x hx)
  reversal x hx hroom := by
    refine ⟨?_, h.charged x hx hroom⟩
    rintro ⟨r, hr, hid⟩
    obtain ⟨y, hy, hyid, hfull⟩ := h.reversed r hr
    rw [h.oneSale x hx y hy (hid.symm.trans hyid.symm)]
    exact hfull

/-- A table is held as long as its order is open at it. -/
def Store.ReleasesExactly (s s' : Store) : Prop :=
  ∀ place i, s.Holds place i → (s'.Holds place i ↔ s'.Stays place i)

/-- Items, adjustments and price of a closed order are those it was closed with. -/
def Store.KeepsClosed (s s' : Store) : Prop :=
  ∀ o ∈ s.orders, o.status = .closed → ∃ o' ∈ s'.orders, o'.id = o.id ∧ o'.status = .closed ∧
    o'.lines = o.lines ∧ o'.adjustments = o.adjustments ∧ o'.pricing = o.pricing

/-- While items change under the adjustments that were read, and no sale posted to a folio under
another method than a room charge is refunded in full, every check has one life. -/
theorem checks_have_one_life (hp : checks.machine.Reach (fun p a => isSound p a = true) p) :
    OneLife p.store ∧ ∀ a p', isSound p a = true → checks.machine.step p a = some p' →
      p.store.ReleasesExactly p'.store ∧ p.store.KeepsClosed p'.store := by
  have hinv := checks_preserve.reach hp
  refine ⟨hinv.store.oneLife, fun a p' ha hs => ?_⟩
  have hfollows := checks_follow hinv ha hs
  have hkept := (checks_preserve.next hinv ha hs).store
  refine ⟨fun place i hheld => ⟨?_, hfollows.held place i hheld⟩, hfollows.final⟩
  rintro ⟨t, ht, rfl, hi⟩
  exact hkept.seated t ht i hi

/-! ### Examples of runs -/

/-- One dish at 100.00 without tax, and folio 7. -/
def dishes : Chance := { menu := fun _ => some ⟨100, 0⟩, folio := some 7 }

/-- A call that runs alone: its look-ups and its commit. -/
def alone (k n : ℕ) (r : Request) : List (Act Staff Request Chance) := .call r :: List.replicate n (.step k dishes)

def oneTable : Pool Store Thread := ⟨{ tables := Collection.empty.upsert ⟨⟨1, 5⟩, .available, none, none⟩ }, []⟩

theorem oneTable_init : checks.machine.init oneTable := by
  refine ⟨⟨rfl, fun t ht => ?_⟩, rfl⟩
  obtain rfl | ⟨ht, -⟩ := Collection.mem_upsert.mp ht
  · rfl
  · exact absurd ht Collection.not_mem_empty

/-- A check at the table with a discount, charged to the room, and refunded in full. -/
theorem checks_have_one_life_room_charge :
    ∃ p, checks.machine.Reach (fun p a => isSound p a = true) p ∧ OneLife p.store ∧
      (p.store.sales.rows.map (fun x => (x.amount, x.refundedAmount)), p.store.reversals.rows) =
        ([(19000, some 19000)], [⟨0, 7⟩]) := by
  obtain ⟨p, hp, hv⟩ := exists_reach_of_runUnder (C := fun p a => isSound p a = true)
    (f := fun p => (p.store.sales.rows.map (fun x => (x.amount, x.refundedAmount)), p.store.reversals.rows))
    (v := ([(19000, some 19000)], [⟨0, 7⟩]))
    (alone 0 3 (.create { outlet := 1, table := some 5, items := [⟨1, 1⟩] }) ++
      alone 1 2 (.adjust { order := 0, kind := .discount, calculation := .fixed, value := 10 }) ++
      alone 2 3 (.addItems { order := 0, items := [⟨1, 1⟩] }) ++
      alone 3 3 (.close { order := 0, method := .roomCharge, postToFolio := true, hasBooking := true }) ++
      alone 4 4 (.refund { order := 0 })) oneTable_init (by decide +kernel)
  exact ⟨p, hp, (checks_have_one_life hp).1, hv⟩

/-- A sale that is not the price of its order. -/
def Store.isMispriced (s : Store) : Bool :=
  s.sales.any fun x => !s.orders.any fun o => o.id = x.order && o.total = some (x.amount + x.benefits)

theorem OneLife.not_isMispriced (h : OneLife s) : ¬ s.isMispriced = true := by
  intro hm
  obtain ⟨x, hx, hnone⟩ := Collection.any_eq_true.mp hm
  obtain ⟨o, ho, hid, -, -, htotal⟩ := h.amount x hx
  rw [Bool.not_eq_true', Collection.any_eq_false] at hnone
  exact hnone o ho (by simp [hid, htotal])

/-- Items are added from a read of the order before a discount of 10.00 and a service charge of a
tenth, which leave its total as it was: the sale is 200.00, and the check 210.00. -/
theorem lost_adjustments : ∃ p, checks.machine.Reachable p ∧ ¬ OneLife p.store := by
  obtain ⟨p, hp, hv⟩ := exists_reachable_of_run (M := checks.machine) (f := fun p => p.store.isMispriced) (v := true)
    (List.flatten [alone 0 3 (.create { outlet := 1, items := [⟨1, 1⟩] }),
      alone 1 2 (.addItems { order := 0, items := [⟨1, 1⟩] }),
      alone 2 2 (.adjust { order := 0, kind := .discount, calculation := .fixed, value := 10 }),
      alone 3 2 (.adjust { order := 0, kind := .serviceCharge, calculation := .percentage, value := 10 }),
      [.step 1 dishes], alone 4 3 (.close { order := 0 })]) oneTable_init (by decide +kernel)
  exact ⟨p, hp, fun h => h.not_isMispriced hv⟩

end SyrocePms.PosCheck
