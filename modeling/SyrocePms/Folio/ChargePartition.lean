import Mathlib.Data.String.Basic
import SyrocePms.Ledger.ForeignLines
import SyrocePms.Lib.Apportion
import SyrocePms.Lib.Dict

/-! The partition of a charge into the part that is moved and the part that remains. The money
fields of a row are read in cents, split, and written back into two copies of the row. -/

namespace SyrocePms.Folio.ChargePartition

open Lib

variable {extra : Bool} {n t total : ℤ} {d : Dict String ℕ}

/-! ### Rows -/

/-- The value of a field: null, a decimal, or a value that is no finite decimal. -/
inductive Value where
  | null
  | number (q : ℚ)
  | unreadable
  deriving DecidableEq

/-- `money`, which raises. -/
def money : Value → Option ℚ
  | .null => some 0
  | .number q => some q
  | .unreadable => none

/-- `cents`: what is finer than a cent raises as well. -/
def cents (v : Value) : Option ℤ :=
  (money v).bind fun q => if (q * 100).den = 1 then some (q * 100).num else none

def ofCents (c : ℤ) : Value := .number (c / 100)

inductive Field where
  | total
  | amount
  | subtotal
  | discountAmount
  | taxAmount
  | vatAmount
  | chargeAmount
  | enteredAmount
  | enteredTotal
  deriving DecidableEq

def Field.all : List Field :=
  [.total, .amount, .subtotal, .discountAmount, .taxAmount, .vatAmount, .chargeAmount,
    .enteredAmount, .enteredTotal]

/-- `tax_breakdown`: none, a dictionary, or another value. -/
inductive Breakdown where
  | none
  | components (d : Dict String Value)
  | other

structure Row where
  fields : Field → Option Value
  quantity : Option Value := none
  unitPrice : Option Value := none
  breakdown : Breakdown := .none

namespace Row

def get (r : Row) (k : Field) : Value := (r.fields k).getD .null

def has (r : Row) (k : Field) : Bool := r.get k ≠ .null

def set (r : Row) (k : Field) (c : ℤ) : Row :=
  { r with fields := fun k' => if k' = k then some (ofCents c) else r.fields k' }

def lineTotal (r : Row) : Option ℤ :=
  if r.has .total then cents (r.get .total)
  else if r.has .chargeAmount then cents (r.get .chargeAmount)
  else if r.has .amount then cents (r.get .amount)
  else some 0

def perLine (r : Row) (extra : Bool) (k : Field) : Option Value :=
  if extra && r.has k then
    (money (r.get k)).bind fun unit =>
      (money (r.quantity.getD (.number 1))).map fun quantity => .number (unit * quantity)
  else some (r.get k)

def normalized (r : Row) (extra : Bool) (total : ℤ) : Option (Field → Value) :=
  (r.perLine extra .amount).bind fun amount =>
    (r.perLine extra .enteredAmount).map fun entered => fun
      | .total => ofCents total
      | .amount => amount
      | .enteredAmount => entered
      | k => r.get k

end Row

/-! ### Components -/

/-- The money fields and the tax breakdown of a charge, in cents. -/
structure Components where
  fields : Field → Option ℤ
  taxes : Option (Dict String ℕ)

/-- A component may be missing, but not be unreadable or negative. -/
def acceptable (v : Value) : Bool := v = .null || (cents v).any (0 ≤ ·)

def Breakdown.read : Breakdown → Option (Option (Dict String ℕ))
  | .none => some Option.none
  | .components d =>
    if d.entries.all fun e => e.2 ≠ .null && acceptable e.2 then
      some (some (d.mapValues fun _ v => ((cents v).getD 0).toNat))
    else Option.none
  | .other => Option.none

def Row.components (r : Row) (extra : Bool) (total : ℤ) : Option Components :=
  (r.normalized extra total).bind fun N =>
    if Field.all.all fun k => acceptable (N k) then
      r.breakdown.read.map fun taxes => ⟨fun k => if N k = .null then none else cents (N k), taxes⟩
    else none

namespace Components

def netKnown (c : Components) : Bool := (c.fields .amount).isSome && (c.fields .taxAmount).isSome

def vatFollows (c : Components) : Bool :=
  match c.fields .vatAmount, c.taxes.bind (·.get? "vat") with
  | some v, some v' => v = v'
  | _, _ => false

def taxTotal (d : Dict String ℕ) : ℤ := Apportion.total d.entries

def fits (c : Components) (extra : Bool) (total : ℤ) : Bool :=
  (match c.fields .amount, c.fields .taxAmount with
    | some net, some tax =>
      net + tax = total &&
        (c.fields .subtotal).all fun subtotal => subtotal - (c.fields .discountAmount).getD 0 = net
    | some net, none => !extra || net = total
    | none, _ => true) &&
  c.taxes.all fun d => c.fields .taxAmount = some (taxTotal d)

/-- The components of a part. A known net is the rest of total and tax, and the subtotal that of
net and discount. -/
def partOf (c : Components) (pick : ℤ → ℤ) (tax : String → ℕ → ℕ) : Components where
  fields :=
    let picked k := (c.fields k).map pick
    let net := (picked .total).getD 0 - (picked .taxAmount).getD 0
    fun
      | .amount => if c.netKnown then some net else picked .amount
      | .subtotal =>
        if c.netKnown then (c.fields .subtotal).map fun _ => net + (picked .discountAmount).getD 0
        else picked .subtotal
      | .vatAmount =>
        if c.vatFollows then ((c.taxes.map fun d => d.mapValues tax).bind (·.get? "vat")).map fun v : ℕ => (v : ℤ)
        else picked .vatAmount
      | k => picked k
  taxes := c.taxes.map fun d => d.mapValues tax

def share (amount total component : ℤ) : ℤ := Decimal.halfUp (component * amount / total)

def wanted (c : Components) (amount total : ℤ) : ℕ :=
  (((c.fields .taxAmount).map (share amount total)).getD 0).toNat

def taxShare (c : Components) (amount total : ℤ) (key : String) (v : ℕ) : ℕ :=
  (c.taxes.map fun d => Apportion.part d.entries (c.wanted amount total) (key, v)).getD 0

def right (c : Components) (amount total : ℤ) : Components :=
  c.partOf (share amount total) (c.taxShare amount total)

def left (c : Components) (amount total : ℤ) : Components :=
  c.partOf (fun v => v - share amount total v) fun key v => v - c.taxShare amount total key v

end Components

/-! ### Partition -/

def Row.write (r : Row) (c : Components) : Row :=
  let fields k := ((c.fields k).map ofCents).or (r.fields k)
  { fields := fields
    quantity := some (.number 1)
    unitPrice := ((fields .subtotal).or (fields .amount)).or (fields .total)
    breakdown := (c.taxes.map fun d => .components (d.mapValues fun _ v => ofCents v)).getD r.breakdown }

def partitionCombined (r : Row) (amount : Value) (extra : Bool) : Option (Row × Row) :=
  match r.lineTotal, cents amount with
  | some total, some amount =>
    if total ≤ 0 ∨ amount ≤ 0 ∨ total < amount then none
    else (r.components extra total).bind fun c =>
      if c.fits extra total then some (r.write (c.left amount total), r.write (c.right amount total))
      else none
  | _, _ => none

/-- The whole tax of a row whose VAT is beside `tax_amount`; undefined when reading raises. -/
def Row.separateVat (r : Row) : Option (Option ℤ) :=
  match r.breakdown with
  | .components d =>
    if r.has .vatAmount && r.has .taxAmount then
      if d.entries.all fun e => e.2 ≠ .null && (cents e.2).isSome then
        let whole := (d.entries.map fun e => (cents e.2).getD 0).sum
        (cents (r.get .vatAmount)).bind fun vat =>
          if vat ≠ 0 ∧ (d.get? "vat").bind cents = some vat then
            (cents (r.get .taxAmount)).map fun tax => if tax + vat = whole then some whole else none
          else some none
      else none
    else some none
  | _ => some none

/-- A part with the VAT taken out of `tax_amount` again. -/
def Row.withoutVat (r : Row) : Row :=
  r.set .taxAmount ((cents (r.get .taxAmount)).getD 0 - (cents (r.get .vatAmount)).getD 0)

def partition (r : Row) (amount : Value) (extra : Bool) : Option (Row × Row) :=
  match r.separateVat with
  | none => none
  | some none => partitionCombined r amount extra
  | some (some whole) =>
    (partitionCombined (r.set .taxAmount whole) amount extra).map fun parts =>
      (parts.1.withoutVat, parts.2.withoutVat)

/-! ### Shares -/

/-- A choice of parts of the components, of which the total has `part`. -/
structure Fair (pick : ℤ → ℤ) (total part : ℤ) : Prop where
  whole : pick total = part
  nonneg : ∀ v, 0 ≤ v → 0 ≤ pick v
  le : ∀ v, 0 ≤ v → v ≤ total → pick v ≤ part

section Shares

variable {amount total v : ℤ}

open Components

theorem share_nonneg (ha : 0 ≤ amount) (ht : 0 < total) (hv : 0 ≤ v) : 0 ≤ share amount total v := by
  have htotal : (0 : ℚ) < total := by exact_mod_cast ht
  have hamount : (0 : ℚ) ≤ amount := by exact_mod_cast ha
  have hvalue : (0 : ℚ) ≤ v := by exact_mod_cast hv
  have hquot : (0 : ℚ) ≤ v * amount / total := by positivity
  refine Decimal.le_halfUp ?_
  push_cast
  linarith

theorem share_le_self (hle : amount ≤ total) (ht : 0 < total) (hv : 0 ≤ v) : share amount total v ≤ v := by
  have htotal : (0 : ℚ) < total := by exact_mod_cast ht
  have hamount : (amount : ℚ) ≤ total := by exact_mod_cast hle
  have hvalue : (0 : ℚ) ≤ v := by exact_mod_cast hv
  have hquot : (v : ℚ) * amount / total ≤ v := by
    rw [div_le_iff₀ htotal]
    exact mul_le_mul_of_nonneg_left hamount hvalue
  exact Decimal.halfUp_le (by linarith)

theorem share_le_amount (ha : 0 ≤ amount) (ht : 0 < total) (hle : v ≤ total) : share amount total v ≤ amount := by
  have htotal : (0 : ℚ) < total := by exact_mod_cast ht
  have hamount : (0 : ℚ) ≤ amount := by exact_mod_cast ha
  have hvalue : (v : ℚ) ≤ total := by exact_mod_cast hle
  have hquot : (v : ℚ) * amount / total ≤ amount := by
    rw [div_le_iff₀ htotal, mul_comm (amount : ℚ)]
    exact mul_le_mul_of_nonneg_right hvalue hamount
  exact Decimal.halfUp_le (by linarith)

/-- What a component leaves is no more than what the total leaves. -/
theorem le_share (ha : amount ≤ total) (ht : 0 < total) (hle : v ≤ total) :
    v - (total - amount) ≤ share amount total v := by
  have htotal : (0 : ℚ) < total := by exact_mod_cast ht
  have hamount : (0 : ℚ) ≤ total - amount := by exact_mod_cast sub_nonneg.mpr ha
  have hvalue : (0 : ℚ) ≤ total - v := by exact_mod_cast sub_nonneg.mpr hle
  have hprod := mul_nonneg hvalue hamount
  have hquot : (v : ℚ) - (total - amount) ≤ v * amount / total := by
    rw [le_div_iff₀ htotal]
    nlinarith
  refine Decimal.le_halfUp ?_
  push_cast
  linarith

theorem share_total (ht : 0 < total) : share amount total total = amount := by
  have htotal : (total : ℚ) ≠ 0 := by exact_mod_cast ht.ne'
  rw [share, mul_div_cancel_left₀ _ htotal]
  exact Decimal.halfUp_eq (by linarith) (by linarith)

theorem fair_right (ha : 0 ≤ amount) (ht : 0 < total) : Fair (share amount total) total amount where
  whole := share_total ht
  nonneg _ hv := share_nonneg ha ht hv
  le _ _ hle := share_le_amount ha ht hle

theorem fair_left (ha : amount ≤ total) (ht : 0 < total) :
    Fair (fun v => v - share amount total v) total (total - amount) where
  whole := by rw [share_total ht]
  nonneg _ hv := sub_nonneg.mpr (share_le_self ha ht hv)
  le v _ hle := by linarith [le_share ha ht hle]

end Shares

/-! ### Coherent components -/

structure Coherent (c : Components) (extra : Bool) (total : ℤ) : Prop where
  whole : c.fields .total = some total
  nonneg : ∀ k v, c.fields k = some v → 0 ≤ v
  net : ∀ net tax, c.fields .amount = some net → c.fields .taxAmount = some tax → net + tax = total
  gross : extra = true → c.fields .taxAmount = none → ∀ net, c.fields .amount = some net → net = total
  subtotal : ∀ net tax s, c.fields .amount = some net → c.fields .taxAmount = some tax →
    c.fields .subtotal = some s → s - (c.fields .discountAmount).getD 0 = net
  taxes : ∀ d, c.taxes = some d → c.fields .taxAmount = some (Components.taxTotal d)

variable {c : Components}

theorem Coherent.fits (h : Coherent c extra total) : c.fits extra total = true := by
  unfold Components.fits
  rw [Bool.and_eq_true]
  constructor
  · cases hnet : c.fields .amount with
    | none => cases c.fields .taxAmount <;> rfl
    | some net =>
      cases htax : c.fields .taxAmount with
      | none =>
        cases extra with
        | false => rfl
        | true => simp [h.gross rfl htax net hnet]
      | some tax =>
        cases hs : c.fields .subtotal with
        | none => simp [h.net net tax hnet htax]
        | some s => simp [h.net net tax hnet htax, h.subtotal net tax s hnet htax hs]
  · cases hd : c.taxes with
    | none => rfl
    | some d => simp [h.taxes d hd]

theorem coherent_of_fits (h : c.fits extra total = true) (hwhole : c.fields .total = some total)
    (hnonneg : ∀ k v, c.fields k = some v → 0 ≤ v) : Coherent c extra total := by
  unfold Components.fits at h
  rw [Bool.and_eq_true] at h
  obtain ⟨hfields, htaxes⟩ := h
  refine ⟨hwhole, hnonneg, fun net tax hnet htax => ?_, fun he htax net hnet => ?_,
    fun net tax s hnet htax hs => ?_, fun d hd => ?_⟩
  · rw [hnet, htax] at hfields
    simp only [Bool.and_eq_true, decide_eq_true_eq] at hfields
    exact hfields.1
  · rw [hnet, htax, he] at hfields
    simpa using hfields
  · rw [hnet, htax, hs] at hfields
    simp only [Bool.and_eq_true, decide_eq_true_eq, Option.all_some] at hfields
    exact hfields.2
  · rw [hd] at htaxes
    simpa using htaxes

theorem taxTotal_mapValues (d : Dict String ℕ) (f : String → ℕ → ℕ) :
    Components.taxTotal (d.mapValues f) = (d.entries.map fun e => f e.1 e.2).sum := by
  rw [Components.taxTotal, Apportion.total, Dict.mapValues, List.map_map]
  rfl

variable {k : Field}

section PartOf

variable {c : Components} {extra : Bool} {total part : ℤ} {pick : ℤ → ℤ} {tax : String → ℕ → ℕ}

theorem netKnown_iff : c.netKnown = true ↔
    ∃ n t, c.fields .amount = some n ∧ c.fields .taxAmount = some t := by
  simp only [Components.netKnown, Bool.and_eq_true, Option.isSome_iff_exists]
  constructor
  · rintro ⟨⟨n, hn⟩, t, ht⟩
    exact ⟨n, t, hn, ht⟩
  · rintro ⟨n, t, hn, ht⟩
    exact ⟨⟨n, hn⟩, t, ht⟩

theorem taxAmount_partOf : (c.partOf pick tax).fields .taxAmount = (c.fields .taxAmount).map pick := rfl

theorem Coherent.amount_partOf (h : Coherent c extra total) (hfair : Fair pick total part)
    (hn : c.fields .amount = some n) (ht : c.fields .taxAmount = some t) :
    (c.partOf pick tax).fields .amount = some (part - pick t) := by
  have hknown : c.netKnown = true := netKnown_iff.mpr ⟨n, t, hn, ht⟩
  simp [Components.partOf, hknown, h.whole, hfair.whole, ht]

theorem Coherent.subtotal_partOf (h : Coherent c extra total) (hfair : Fair pick total part)
    (hn : c.fields .amount = some n) (ht : c.fields .taxAmount = some t) :
    (c.partOf pick tax).fields .subtotal = (c.fields .subtotal).map fun _ =>
      part - pick t + ((c.fields .discountAmount).map pick).getD 0 := by
  have hknown : c.netKnown = true := netKnown_iff.mpr ⟨n, t, hn, ht⟩
  simp [Components.partOf, hknown, h.whole, hfair.whole, ht]

theorem fields_partOf_of_unknown (h : c.netKnown = false) (hk : k ≠ .vatAmount) :
    (c.partOf pick tax).fields k = (c.fields k).map pick := by
  cases k <;> first | exact absurd rfl hk | simp [Components.partOf, h]

theorem fields_partOf (hamount : k ≠ .amount) (hsubtotal : k ≠ .subtotal) (hvat : k ≠ .vatAmount) :
    (c.partOf pick tax).fields k = (c.fields k).map pick := by
  cases k <;> first | exact absurd rfl hamount | exact absurd rfl hsubtotal | exact absurd rfl hvat | rfl

theorem vatAmount_partOf : (c.partOf pick tax).fields .vatAmount =
    if c.vatFollows then ((c.taxes.bind (·.get? "vat")).map (tax "vat")).map fun v : ℕ => (v : ℤ)
    else (c.fields .vatAmount).map pick := by
  simp only [Components.partOf]
  congr 1
  cases c.taxes with
  | none => rfl
  | some d => simp [Dict.get?_mapValues]

theorem Coherent.tax_le (h : Coherent c extra total) (hn : c.fields .amount = some n)
    (ht : c.fields .taxAmount = some t) : 0 ≤ t ∧ t ≤ total := by
  have hnet := h.net n t hn ht
  have hn₀ := h.nonneg _ n hn
  have ht₀ := h.nonneg _ t ht
  omega

theorem Coherent.nonneg_partOf (h : Coherent c extra total) (hfair : Fair pick total part) (k : Field) (v : ℤ)
    (hv : (c.partOf pick tax).fields k = some v) : 0 ≤ v := by
  have hpicked : ∀ k, (c.fields k).map pick = some v → 0 ≤ v := by
    intro k hk
    obtain ⟨x, hx, rfl⟩ := Option.map_eq_some_iff.mp hk
    exact hfair.nonneg x (h.nonneg k x hx)
  by_cases hvat : k = .vatAmount
  · subst hvat
    rw [vatAmount_partOf] at hv
    split at hv
    · obtain ⟨x, -, rfl⟩ := Option.map_eq_some_iff.mp hv
      exact Int.natCast_nonneg x
    · exact hpicked _ hv
  · cases hknown : c.netKnown with
    | false =>
      rw [fields_partOf_of_unknown hknown hvat] at hv
      exact hpicked _ hv
    | true =>
      obtain ⟨n, t, hn, ht⟩ := netKnown_iff.mp hknown
      obtain ⟨ht₀, htotal⟩ := h.tax_le hn ht
      have hle := hfair.le t ht₀ htotal
      by_cases hamount : k = .amount
      · subst hamount
        rw [h.amount_partOf hfair hn ht] at hv
        cases hv
        omega
      · by_cases hsubtotal : k = .subtotal
        · subst hsubtotal
          rw [h.subtotal_partOf hfair hn ht] at hv
          obtain ⟨-, -, rfl⟩ := Option.map_eq_some_iff.mp hv
          cases hd : c.fields .discountAmount with
          | none => simpa using hle
          | some x =>
            have hx := hfair.nonneg x (h.nonneg _ x hd)
            simp only [Option.map_some, Option.getD_some]
            omega
        · rw [fields_partOf hamount hsubtotal hvat] at hv
          exact hpicked _ hv

theorem Coherent.partOf (h : Coherent c extra total) (hfair : Fair pick total part)
    (htax : ∀ d, c.taxes = some d →
      Components.taxTotal (d.mapValues tax) = pick (Components.taxTotal d)) :
    Coherent (c.partOf pick tax) extra part := by
  have hback : ∀ n t, (c.partOf pick tax).fields .amount = some n →
      (c.partOf pick tax).fields .taxAmount = some t →
        ∃ n' t', c.fields .amount = some n' ∧ c.fields .taxAmount = some t' ∧ t = pick t' := by
    intro n t hn ht
    obtain ⟨t', ht', rfl⟩ := Option.map_eq_some_iff.mp ht
    cases hn' : c.fields .amount with
    | some n' => exact ⟨n', t', rfl, ht', rfl⟩
    | none =>
      have hunknown : c.netKnown = false := by simp [Components.netKnown, hn']
      rw [fields_partOf_of_unknown hunknown (by decide), hn'] at hn
      cases hn
  refine ⟨?_, h.nonneg_partOf hfair, ?_, ?_, ?_, ?_⟩
  · rw [fields_partOf (by decide) (by decide) (by decide), h.whole, Option.map_some, hfair.whole]
  · intro n t hn ht
    obtain ⟨n', t', hn', ht', rfl⟩ := hback n t hn ht
    rw [h.amount_partOf hfair hn' ht'] at hn
    cases hn
    ring
  · intro he ht n hn
    have ht' : c.fields .taxAmount = none := Option.map_eq_none_iff.mp ht
    have hunknown : c.netKnown = false := by simp [Components.netKnown, ht']
    rw [fields_partOf_of_unknown hunknown (by decide)] at hn
    obtain ⟨n', hn', rfl⟩ := Option.map_eq_some_iff.mp hn
    rw [h.gross he ht' n' hn', hfair.whole]
  · intro n t s hn ht hs
    obtain ⟨n', t', hn', ht', rfl⟩ := hback n t hn ht
    rw [h.amount_partOf hfair hn' ht'] at hn
    rw [h.subtotal_partOf hfair hn' ht'] at hs
    obtain ⟨-, -, rfl⟩ := Option.map_eq_some_iff.mp hs
    cases hn
    rw [fields_partOf (by decide) (by decide) (by decide)]
    ring
  · intro d hd
    obtain ⟨d', hd', rfl⟩ := Option.map_eq_some_iff.mp hd
    rw [taxAmount_partOf, h.taxes d' hd', Option.map_some, htax d' hd']

end PartOf

/-! ### The two parts -/

section Parts

variable {c : Components} {extra : Bool} {amount total : ℤ}

theorem taxShare_eq (hd : c.taxes = some d) (key : String) (v : ℕ) :
    c.taxShare amount total key v = Apportion.part d.entries (c.wanted amount total) (key, v) := by
  rw [Components.taxShare, hd]
  rfl

theorem Coherent.wanted_eq (h : Coherent c extra total) (ha : 0 ≤ amount) (ht : 0 < total)
    (hd : c.taxes = some d) :
    (c.wanted amount total : ℤ) = Components.share amount total (Components.taxTotal d) := by
  rw [Components.wanted, h.taxes d hd, Option.map_some, Option.getD_some]
  exact Int.toNat_of_nonneg (share_nonneg ha ht (Int.natCast_nonneg _))

theorem Coherent.wanted_le (h : Coherent c extra total) (ha : 0 ≤ amount) (hle : amount ≤ total)
    (ht : 0 < total) (hd : c.taxes = some d) :
    c.wanted amount total ≤ Apportion.total d.entries := by
  have hself := share_le_self hle ht (Int.natCast_nonneg (Apportion.total d.entries))
  have hwanted := h.wanted_eq ha ht hd
  rw [Components.taxTotal] at hwanted
  omega

theorem Coherent.taxTotal_right (h : Coherent c extra total) (ha : 0 ≤ amount) (hle : amount ≤ total)
    (ht : 0 < total) (d : Dict String ℕ) (hd : c.taxes = some d) :
    Components.taxTotal (d.mapValues (c.taxShare amount total)) =
      Components.share amount total (Components.taxTotal d) := by
  have hsum := Apportion.sum_part d.nodup (h.wanted_le ha hle ht hd)
  rw [taxTotal_mapValues, ← h.wanted_eq ha ht hd, ← hsum]
  congr 2
  exact List.map_congr_left fun e _ => taxShare_eq hd e.1 e.2

theorem Coherent.taxTotal_left (h : Coherent c extra total) (ha : 0 ≤ amount) (hle : amount ≤ total)
    (ht : 0 < total) (d : Dict String ℕ) (hd : c.taxes = some d) :
    Components.taxTotal (d.mapValues fun key v => v - c.taxShare amount total key v) =
      Components.taxTotal d - Components.share amount total (Components.taxTotal d) := by
  have hwanted := h.wanted_le ha hle ht hd
  have hsum := Apportion.sum_sub_part d.nodup hwanted
  have hmap : (d.entries.map fun e => e.2 - c.taxShare amount total e.1 e.2) =
      d.entries.map fun e => e.2 - Apportion.part d.entries (c.wanted amount total) e :=
    List.map_congr_left fun e _ => by rw [taxShare_eq hd]
  rw [taxTotal_mapValues, hmap, hsum, ← h.wanted_eq ha ht hd, Components.taxTotal]
  omega

theorem Coherent.taxShare_le (h : Coherent c extra total) (ha : 0 ≤ amount) (hle : amount ≤ total)
    (ht : 0 < total) (hd : c.taxes = some d) {key : String} {v : ℕ} (hv : d.get? key = some v) :
    c.taxShare amount total key v ≤ v := by
  rw [taxShare_eq hd]
  exact Apportion.part_le d.nodup (h.wanted_le ha hle ht hd) (Dict.get?_eq_some.mp hv)

theorem Coherent.right (h : Coherent c extra total) (ha : 0 ≤ amount) (hle : amount ≤ total) (ht : 0 < total) :
    Coherent (c.right amount total) extra amount :=
  h.partOf (fair_right ha ht) (h.taxTotal_right ha hle ht)

theorem Coherent.left (h : Coherent c extra total) (ha : 0 ≤ amount) (hle : amount ≤ total) (ht : 0 < total) :
    Coherent (c.left amount total) extra (total - amount) :=
  h.partOf (fair_left hle ht) (h.taxTotal_left ha hle ht)

theorem Coherent.add_parts (h : Coherent c extra total) (ha : 0 ≤ amount) (hle : amount ≤ total)
    (ht : 0 < total) {v : ℤ} (hv : c.fields k = some v) :
    ∃ l r, (c.left amount total).fields k = some l ∧ (c.right amount total).fields k = some r ∧ l + r = v := by
  have hpicked : ∀ k v, c.fields k = some v →
      (c.fields k).map (fun v => v - Components.share amount total v) =
        some (v - Components.share amount total v) ∧
      (c.fields k).map (Components.share amount total) = some (Components.share amount total v) := by
    intro k v hk
    rw [hk]
    exact ⟨rfl, rfl⟩
  by_cases hvat : k = .vatAmount
  · subst hvat
    simp only [Components.left, Components.right, vatAmount_partOf]
    split
    · rename_i hfollows
      unfold Components.vatFollows at hfollows
      rw [hv] at hfollows
      cases hd : c.taxes with
      | none => simp [hd] at hfollows
      | some d =>
        cases hx : d.get? "vat" with
        | none => simp [hd, hx] at hfollows
        | some x =>
          have heq : v = x := by simpa [hd, hx] using hfollows
          have hshare := h.taxShare_le ha hle ht hd hx
          refine ⟨_, _, by simp [hx]; rfl, by simp [hx]; rfl, ?_⟩
          rw [heq]
          omega
    · exact ⟨_, _, (hpicked _ v hv).1, (hpicked _ v hv).2, by ring⟩
  · cases hknown : c.netKnown with
    | false =>
      refine ⟨_, _, ?_, ?_, sub_add_cancel v (Components.share amount total v)⟩
      · rw [Components.left, fields_partOf_of_unknown hknown hvat, (hpicked k v hv).1]
      · rw [Components.right, fields_partOf_of_unknown hknown hvat, (hpicked k v hv).2]
    | true =>
      obtain ⟨n, t, hn, htax⟩ := netKnown_iff.mp hknown
      by_cases hamount : k = .amount
      · subst hamount
        refine ⟨_, _, h.amount_partOf (fair_left hle ht) hn htax, h.amount_partOf (fair_right ha ht) hn htax, ?_⟩
        rw [hn] at hv
        have hnet := h.net n t hn htax
        cases hv
        linarith
      · by_cases hsubtotal : k = .subtotal
        · subst hsubtotal
          refine ⟨_, _, by rw [Components.left, h.subtotal_partOf (fair_left hle ht) hn htax, hv]; rfl,
            by rw [Components.right, h.subtotal_partOf (fair_right ha ht) hn htax, hv]; rfl, ?_⟩
          have hnet := h.net n t hn htax
          have hrest := h.subtotal n t v hn htax hv
          cases hdisc : c.fields .discountAmount with
          | none =>
            simp only [hdisc, Option.map_none, Option.getD_none] at hrest ⊢
            linarith
          | some x =>
            simp only [hdisc, Option.map_some, Option.getD_some] at hrest ⊢
            linarith
        · refine ⟨_, _, ?_, ?_, sub_add_cancel v (Components.share amount total v)⟩
          · rw [Components.left, fields_partOf hamount hsubtotal hvat, (hpicked k v hv).1]
          · rw [Components.right, fields_partOf hamount hsubtotal hvat, (hpicked k v hv).2]

end Parts

end SyrocePms.Folio.ChargePartition
