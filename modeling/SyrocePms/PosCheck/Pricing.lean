import SyrocePms.Lib.Decimal

/-! The open check of a table and its price. Amounts are in cents. -/

namespace SyrocePms.PosCheck

open List

/-- Two decimals, a tie away from zero. -/
def rounded (x : ℚ) : ℤ := if x < 0 then -Lib.Decimal.halfUp (-x) else Lib.Decimal.halfUp x

/-- `line_id` is the call that ordered the line, and the place of the line in the request. -/
structure Line where
  id : ℕ × ℕ
  total : ℤ
  taxRate : ℚ
  deriving DecidableEq

inductive Kind
  | discount
  | serviceCharge
  deriving DecidableEq

inductive Calculation
  | percentage
  | fixed
  deriving DecidableEq

/-- An event of `adjustments`. -/
structure Adjustment where
  id : ℕ
  kind : Kind
  calculation : Calculation
  value : ℚ
  deriving DecidableEq

/-- The fields that `reprice_order` computes. A new order has the first three only. -/
structure Pricing where
  totalAmount : ℤ
  taxAmount : ℤ
  grandTotal : ℤ
  preAdjustmentTotal : Option ℤ := none
  originalTaxAmount : Option ℤ := none
  effectiveTaxAmount : Option ℤ := none
  discountAmount : Option ℤ := none
  serviceChargeAmount : Option ℤ := none

def Pricing.stored (p : Pricing) : Kind → Option ℤ
  | .discount => p.discountAmount
  | .serviceCharge => p.serviceChargeAmount

inductive Status
  | pending
  | preparing
  | ready
  | served
  | cancelled
  | closed
  | voided
  deriving DecidableEq

inductive PaymentStatus
  | unpaid
  | paid
  | partiallyRefunded
  | refunded
  deriving DecidableEq

/-- `requestHash` stands for the fingerprint of the request. -/
structure PosOrder where
  id : ℕ
  outlet : ℕ
  table : Option ℕ
  lines : List Line
  adjustments : List Adjustment := []
  pricing : Pricing
  status : Status := .pending
  paymentStatus : PaymentStatus := .unpaid
  idempotencyKey : Option ℕ := none
  requestHash : ℕ := 0

/-! ### Repricing -/

def subtotal (lines : List Line) : ℤ := (lines.map fun l => l.total).sum

def tax (lines : List Line) : ℤ := (lines.map fun l => rounded (l.total * l.taxRate)).sum

def policy (k : Kind) (adjustments : List Adjustment) : Option Adjustment :=
  (adjustments.filter fun a => a.kind = k).getLast?

def Adjustment.amount (base : ℤ) (a : Adjustment) : ℤ :=
  match a.calculation with
  | .percentage => rounded (base * a.value / 100)
  | .fixed => rounded (a.value * 100)

/-- Without a policy the stored amount stands. -/
def PosOrder.adjusted (o : PosOrder) (base : ℤ) (k : Kind) : ℤ :=
  match policy k o.adjustments with
  | some a => a.amount base
  | none => (o.pricing.stored k).getD 0

/-- The subtotal and the tax that `reprice_order` starts from. -/
def PosOrder.basis (o : PosOrder) (items : Option (List Line)) : ℤ × ℤ :=
  let lines := items.getD o.lines
  if lines ≠ [] then (subtotal lines, tax lines)
  else if items.isSome then (0, 0)
  else (o.pricing.totalAmount, o.pricing.originalTaxAmount.getD o.pricing.taxAmount)

/-- `none` is the error 422. -/
def repriceOrder (o : PosOrder) (items : Option (List Line)) : Option Pricing :=
  let (subtotal, tax) := o.basis items
  let base := subtotal + tax
  let discount := o.adjusted base .discount
  let service := o.adjusted base .serviceCharge
  if discount < 0 ∨ base < discount ∨ service < 0 then none
  else
    some
      { totalAmount := subtotal
        taxAmount := tax
        grandTotal := base - discount + service
        preAdjustmentTotal := some base
        originalTaxAmount := some tax
        effectiveTaxAmount := some (if base = 0 then 0 else rounded (tax * (base - discount : ℤ) / base))
        discountAmount := some discount
        serviceChargeAmount := some service }

/-! ### The price of a check -/

/-- The total of items and adjustments: the items with their tax, less the discount in force,
with the service charge in force. -/
def checkTotal (lines : List Line) (adjustments : List Adjustment) : Option ℤ :=
  let base := subtotal lines + tax lines
  let amount := fun k => ((policy k adjustments).map (Adjustment.amount base)).getD 0
  if amount .discount < 0 ∨ base < amount .discount ∨ amount .serviceCharge < 0 then none
  else some (base - amount .discount + amount .serviceCharge)

def PosOrder.total (o : PosOrder) : Option ℤ := checkTotal o.lines o.adjustments

/-- No amount is stored beside the policies. -/
def PosOrder.Unadjusted (o : PosOrder) : Prop :=
  ∀ k, policy k o.adjustments = none → (o.pricing.stored k).getD 0 = 0

/-- The stored total is that of the items and adjustments. -/
structure PosOrder.Priced (o : PosOrder) : Prop where
  lines : o.lines ≠ []
  total : o.total = some o.pricing.grandTotal
  unadjusted : o.Unadjusted

variable {o : PosOrder} {p : Pricing} {lines : List Line}

theorem PosOrder.Unadjusted.adjusted (h : o.Unadjusted) (base : ℤ) (k : Kind) :
    o.adjusted base k = ((policy k o.adjustments).map (Adjustment.amount base)).getD 0 := by
  unfold PosOrder.adjusted
  cases hk : policy k o.adjustments with
  | some a => rfl
  | none => exact h k hk

theorem basis_of_lines (h : lines ≠ []) (items : Option (List Line)) (hi : items.getD o.lines = lines) :
    o.basis items = (subtotal lines, tax lines) := by
  unfold PosOrder.basis
  rw [hi]
  exact if_pos h

/-- What `reprice_order` computes from a check without stray amounts is the price of the check. -/
theorem repriceOrder_priced (ho : o.Unadjusted) (h : lines ≠ []) {items : Option (List Line)}
    (hi : items.getD o.lines = lines) (hp : repriceOrder o items = some p) :
    ({ o with lines, pricing := p } : PosOrder).Priced := by
  unfold repriceOrder at hp
  rw [basis_of_lines h items hi] at hp
  dsimp only at hp
  rw [ho.adjusted, ho.adjusted] at hp
  split at hp
  · cases hp
  · rename_i hamounts
    cases hp
    refine ⟨h, ?_, ?_⟩
    · unfold PosOrder.total checkTotal
      exact if_neg hamounts
    · intro k hk
      dsimp only at hk
      cases k <;> simp [Pricing.stored, hk]

theorem policy_append_eq_none {k : Kind} {as : List Adjustment} {a : Adjustment}
    (h : policy k (as ++ [a]) = none) : policy k as = none := by
  simp only [policy, getLast?_eq_none_iff, filter_append, append_eq_nil_iff] at h ⊢
  exact h.1

theorem PosOrder.Unadjusted.adjust (h : o.Unadjusted) (a : Adjustment) :
    ({ o with adjustments := o.adjustments ++ [a] } : PosOrder).Unadjusted :=
  fun k hk => h k (policy_append_eq_none hk)

theorem priced_new (ho : o.lines ≠ []) (ha : o.adjustments = [])
    (hp : o.pricing = { totalAmount := subtotal o.lines, taxAmount := tax o.lines, grandTotal := subtotal o.lines + tax o.lines })
    (hbase : 0 ≤ subtotal o.lines + tax o.lines) : o.Priced := by
  refine ⟨ho, ?_, fun k _ => ?_⟩
  · simp only [PosOrder.total, checkTotal, ha, hp, policy, filter_nil, getLast?_nil, Option.map_none,
      Option.getD_none, sub_zero, add_zero]
    exact if_neg (by omega)
  · rw [hp]
    cases k <;> rfl

end SyrocePms.PosCheck
