import Mathlib.Algebra.Order.Field.Rat
import Mathlib.Data.List.Perm.Subperm
import Mathlib.Tactic.Linarith
import Mathlib.Tactic.Positivity
import SyrocePms.NightAudit.Pricing

/-! The nightly prices of a stay with a confirmed total, and the taxes that are taken out of each. A
plan of nightly prices that reconciles with the total decides before the total is divided. -/

namespace SyrocePms.NightAudit

open List

/-- A row of `daily_rates`; a date or an amount that cannot be read is `none`. -/
structure PlanRow where
  date : Option ℤ
  amount : Option ℚ

/-- `_cents`: whole cents that are not negative. -/
def wholeCents (amount : ℚ) : Option ℤ :=
  if amount * 100 < 0 ∨ (amount * 100).den ≠ 1 then none else some (amount * 100).num

/-- A booking whose total is confirmed, with no price of its own for a night and no night before a
migration. `plan` is what `booking_daily_rate_plan` verifies. -/
structure Stay where
  price : PriceFields
  checkIn : ℤ
  checkOut : ℤ
  plan : Option (List PlanRow) := none
  confirmed : price.channelTotal = true ∨ 0 < price.totalAmount
  nonneg : 0 ≤ price.totalAmount ∧ 0 ≤ price.providerTotalAmount
  ongoing : price.migrationCutoverDate = none

structure TaxRates where
  vat : ℚ
  accommodation : ℚ
  nonneg : 0 ≤ vat ∧ 0 ≤ accommodation

def Stay.readRows (s : Stay) : List PlanRow → List (ℤ × ℤ) → Option (List (ℤ × ℤ))
  | [], amounts => some amounts
  | row :: rows, amounts =>
    match row.date, row.amount.bind wholeCents with
    | some day, some amount =>
      if s.checkIn ≤ day ∧ day < s.checkOut ∧ day ∉ amounts.map Prod.fst then
        s.readRows rows (amounts ++ [(day, amount)])
      else none
    | _, _ => none

/-- `_verified_plan`. -/
def Stay.verifiedPlan (s : Stay) : Option (List (ℤ × ℤ)) :=
  s.plan.bind fun rows =>
    if rows = [] ∨ s.checkOut - s.checkIn ≤ 0 ∨ (rows.length : ℤ) ≠ s.checkOut - s.checkIn then none
    else
      (s.readRows rows []).bind fun amounts =>
        if some (amounts.map Prod.snd).sum = wholeCents s.price.totalAmount then some amounts else none

/-- The night's price, without an explicit daily rate. -/
def Stay.gross (s : Stay) (day : ℤ) : ℤ :=
  if s.price.migrationCutoverDate.any fun cutoff => day < cutoff then 0
  else
    match s.verifiedPlan.bind fun amounts => amounts.lookup day with
    | some amount => amount
    | none => grossOf s.price (some s.checkIn) (some s.checkOut) day none

/-- The night's price divided into the net amount and the two taxes. -/
def chargeOf (gross : ℤ) (vatRate accommodationRate : ℚ) : RoomCharge :=
  let divisor := 1 + (vatRate + accommodationRate)
  let net := if 0 < divisor then roundHalfUp (gross / divisor) else gross
  let vat := roundHalfUp (net * vatRate)
  { amount := net
    vat := vat
    accommodationTax := gross - net - vat
    total := gross }

def Stay.roomCharge (s : Stay) (day : ℤ) (r : TaxRates) : RoomCharge :=
  chargeOf (s.gross day) r.vat r.accommodation

def Stay.nights (s : Stay) : ℕ := max (s.checkOut - s.checkIn).toNat 1

def Stay.days (s : Stay) : List ℤ := (range s.nights).map fun (i : ℕ) => s.checkIn + i

def Stay.confirmedGross (s : Stay) : ℤ :=
  if s.verifiedPlan.isNone ∧ s.price.providerTotalAmount ≠ 0 then
    roundHalfUp (s.price.providerTotalAmount * 100)
  else roundHalfUp (s.price.totalAmount * 100)

/-- The nights add up to the confirmed total, and no part of a night is negative. -/
structure Stay.AddsUp (s : Stay) (r : TaxRates) : Prop where
  totals : (s.days.map fun d => (s.roomCharge d r).total).sum = s.confirmedGross
  parts : ∀ d ∈ s.days, (s.roomCharge d r).amount + (s.roomCharge d r).vat +
    (s.roomCharge d r).accommodationTax = (s.roomCharge d r).total
  nonneg : ∀ d ∈ s.days, 0 ≤ (s.roomCharge d r).amount ∧ 0 ≤ (s.roomCharge d r).vat ∧
    0 ≤ (s.roomCharge d r).accommodationTax

/-- The prices that the nights have in some order: those of the plan, or the even parts of the total. -/
def Stay.prices (s : Stay) : List ℤ :=
  match s.verifiedPlan with
  | some amounts => amounts.map Prod.snd
  | none => (range s.nights).map fun (i : ℕ) =>
      s.confirmedGross / s.nights + if (i : ℤ) < s.confirmedGross % s.nights then 1 else 0

/-- No whole net amount is within half a cent of the price without taxes and at the same time leaves
no room for its VAT. -/
def TaxRates.Extracts (r : TaxRates) (price : ℤ) : Prop :=
  ¬∃ net : ℤ, (price + 1 / 2) / (1 + r.vat) ≤ net ∧ net ≤ price / (1 + (r.vat + r.accommodation)) + 1 / 2

variable {s : Stay} {r : TaxRates} {g : ℤ} {amounts : List (ℤ × ℤ)}

theorem roundHalfUp_nonneg {x : ℚ} (h : 0 ≤ x) : 0 ≤ roundHalfUp x := by
  rw [roundHalfUp, if_pos h]
  positivity

theorem calculateRoomCharge_eq (f : PriceFields) (checkIn checkOut : Option ℤ) (day : ℤ) (a : ℚ) (e : Option ℚ) :
    calculateRoomCharge f checkIn checkOut day a e = chargeOf (grossOf f checkIn checkOut day e) vatRate a :=
  rfl

/-! ### One night -/

theorem chargeOf_nonneg_iff (hg : 0 ≤ g) (r : TaxRates) :
    (0 ≤ (chargeOf g r.vat r.accommodation).amount ∧ 0 ≤ (chargeOf g r.vat r.accommodation).vat ∧
      0 ≤ (chargeOf g r.vat r.accommodation).accommodationTax) ↔ r.Extracts g := by
  obtain ⟨hv, ha⟩ := r.nonneg
  have hd : 0 < 1 + (r.vat + r.accommodation) := by positivity
  have hx : (0 : ℚ) ≤ g / (1 + (r.vat + r.accommodation)) := by positivity
  have hnet := roundHalfUp_nonneg hx
  have hvat : (0 : ℚ) ≤ roundHalfUp (g / (1 + (r.vat + r.accommodation))) * r.vat := by positivity
  have hvat' := roundHalfUp_nonneg hvat
  simp only [chargeOf, if_pos hd]
  rw [TaxRates.Extracts, and_iff_right hnet, and_iff_right hvat', ← not_lt, not_iff_not]
  rw [roundHalfUp, if_pos hx] at hvat ⊢
  constructor
  · intro hneg
    refine ⟨_, ?_, Int.floor_le _⟩
    rw [roundHalfUp, if_pos hvat] at hneg
    have hle : g - ⌊(g : ℚ) / (1 + (r.vat + r.accommodation)) + 1 / 2⌋ + 1 ≤
        ⌊(⌊(g : ℚ) / (1 + (r.vat + r.accommodation)) + 1 / 2⌋ : ℚ) * r.vat + 1 / 2⌋ := by omega
    rw [Int.le_floor] at hle
    push_cast at hle
    rw [div_le_iff₀ (by positivity)]
    linarith
  · rintro ⟨n, hlow, hhigh⟩
    rw [div_le_iff₀ (by positivity)] at hlow
    have hn : (n : ℚ) ≤ ⌊(g : ℚ) / (1 + (r.vat + r.accommodation)) + 1 / 2⌋ := by
      exact_mod_cast Int.le_floor.mpr hhigh
    have hmul := mul_le_mul_of_nonneg_right hn (by positivity : 0 ≤ 1 + r.vat)
    have hle : g - ⌊(g : ℚ) / (1 + (r.vat + r.accommodation)) + 1 / 2⌋ + 1 ≤
        roundHalfUp (⌊(g : ℚ) / (1 + (r.vat + r.accommodation)) + 1 / 2⌋ * r.vat) := by
      rw [roundHalfUp, if_pos hvat, Int.le_floor]
      push_cast
      linarith
    omega

/-! ### A stay without a plan -/

theorem nights_pos (s : Stay) : 0 < s.nights := lt_of_lt_of_le Nat.one_pos (le_max_right _ _)

theorem gross_of_none (h : s.verifiedPlan = none) {i : ℕ} (hi : i < s.nights) :
    s.gross (s.checkIn + i) =
      s.confirmedGross / s.nights + if (i : ℤ) < s.confirmedGross % s.nights then 1 else 0 := by
  have hnightly : grossOf s.price (some s.checkIn) (some s.checkOut) (s.checkIn + i) none =
      nightlyGross s.price (some s.checkIn) (some s.checkOut) (s.checkIn + i) := by
    simp only [grossOf, s.ongoing, Option.any_none, Bool.false_eq_true, if_false]
    rcases s.confirmed with hchannel | htotal
    · rw [if_pos hchannel]
    · rw [manualNightlyGross, if_pos htotal, ite_self]
  have htotal : s.confirmedGross = roundHalfUp
      ((if s.price.providerTotalAmount ≠ 0 then s.price.providerTotalAmount else s.price.totalAmount) * 100) := by
    rw [Stay.confirmedGross, h]
    split_ifs <;> simp_all
  have hparts : ∀ day, nightlyGross s.price (some s.checkIn) (some s.checkOut) day =
      if ((min (day - s.checkIn).toNat (s.nights - 1) : ℕ) : ℤ) < s.confirmedGross % s.nights
      then s.confirmedGross / s.nights + 1 else s.confirmedGross / s.nights := by
    intro day
    rw [htotal]
    rfl
  have hindex : min (s.checkIn + i - s.checkIn).toNat (s.nights - 1) = i := by omega
  simp only [Stay.gross, s.ongoing, h, Option.any_none, Bool.false_eq_true, if_false, Option.bind_none, hnightly]
  rw [hparts, hindex]
  split <;> simp

theorem sum_parts (q r : ℤ) (hr : 0 ≤ r) (n : ℕ) :
    ((range n).map fun (i : ℕ) => q + if (i : ℤ) < r then 1 else 0).sum = n * q + min (n : ℤ) r := by
  induction n with
  | zero => simp [hr]
  | succ n ih =>
    rw [range_succ, map_append, sum_append, ih, map_singleton, sum_singleton]
    push_cast
    split <;> rw [add_mul] <;> omega

theorem sum_prices_of_none (h : s.verifiedPlan = none) : s.prices.sum = s.confirmedGross := by
  have hpos : (0 : ℤ) < s.nights := Nat.cast_pos.mpr (nights_pos s)
  have hlt := Int.emod_lt_of_pos s.confirmedGross hpos
  rw [Stay.prices, h]
  rw [sum_parts _ _ (Int.emod_nonneg _ hpos.ne'), min_eq_right hlt.le]
  exact Int.mul_ediv_add_emod _ _

/-! ### A stay with a plan -/

theorem wholeCents_nonneg {x : ℚ} {n : ℤ} (h : wholeCents x = some n) : 0 ≤ n ∧ x * 100 = n := by
  unfold wholeCents at h
  split at h
  · cases h
  · rename_i hnot
    cases h
    rw [not_or, not_lt, not_not] at hnot
    exact ⟨Rat.num_nonneg.mpr hnot.1, (Rat.coe_int_num_of_den_eq_one hnot.2).symm⟩

theorem readRows_some {rows : List PlanRow} {read : List (ℤ × ℤ)}
    (h : s.readRows rows amounts = some read) (hn : (amounts.map Prod.fst).Nodup)
    (hd : ∀ e ∈ amounts, s.checkIn ≤ e.1 ∧ e.1 < s.checkOut ∧ 0 ≤ e.2) :
    (read.map Prod.fst).Nodup ∧ (∀ e ∈ read, s.checkIn ≤ e.1 ∧ e.1 < s.checkOut ∧ 0 ≤ e.2) ∧
      read.length = amounts.length + rows.length := by
  induction rows generalizing amounts with
  | nil =>
    cases h
    exact ⟨hn, hd, rfl⟩
  | cons row rows ih =>
    unfold Stay.readRows at h
    split at h
    · rename_i day amount hday hamount
      split at h
      · rename_i hin
        have hcents : 0 ≤ amount := by
          obtain ⟨x, -, hx⟩ := Option.bind_eq_some_iff.mp hamount
          exact (wholeCents_nonneg hx).1
        have hnodup : ((amounts ++ [(day, amount)]).map Prod.fst).Nodup := by
          rw [map_append]
          refine nodup_append.mpr ⟨hn, nodup_singleton _, fun a ha b hb hab => ?_⟩
          obtain rfl : a = day := hab.trans (mem_singleton.mp hb)
          exact hin.2.2 ha
        have hlength := ih h hnodup ?_
        · simpa [Nat.add_assoc, Nat.add_comm 1] using hlength
        · intro e he
          rcases mem_append.mp he with he | he
          · exact hd e he
          · rw [mem_singleton.mp he]
            exact ⟨hin.1, hin.2.1, hcents⟩
      · cases h
    · cases h

theorem verifiedPlan_some (h : s.verifiedPlan = some amounts) :
    (amounts.map Prod.fst).Nodup ∧ (∀ e ∈ amounts, s.checkIn ≤ e.1 ∧ e.1 < s.checkOut ∧ 0 ≤ e.2) ∧
      amounts.length = s.nights ∧ s.price.totalAmount * 100 = ((amounts.map Prod.snd).sum : ℤ) := by
  obtain ⟨rows, -, h⟩ := Option.bind_eq_some_iff.mp h
  split at h
  · cases h
  · rename_i hrows
    obtain ⟨read, hread, h⟩ := Option.bind_eq_some_iff.mp h
    split at h
    · rename_i hsum
      cases h
      obtain ⟨hn, hd, hl⟩ := readRows_some hread nodup_nil (by simp)
      refine ⟨hn, hd, ?_, (wholeCents_nonneg hsum.symm).2⟩
      rw [length_nil] at hl
      rw [Stay.nights]
      omega
    · cases h

theorem lookup_of_nodup {e : ℤ × ℤ} (hn : (amounts.map Prod.fst).Nodup) (he : e ∈ amounts) :
    amounts.lookup e.1 = some e.2 := by
  induction amounts with
  | nil => cases he
  | cons x amounts ih =>
    rw [map_cons, nodup_cons] at hn
    rcases mem_cons.mp he with rfl | he
    · exact lookup_cons_self
    · have hne : e.1 ≠ x.1 := fun heq => hn.1 (heq ▸ mem_map_of_mem he)
      rw [lookup_cons, beq_eq_false_iff_ne.mpr hne]
      exact ih hn.2 he

/-- The nights have the prices of the stay, in some order. -/
theorem gross_perm (s : Stay) : (s.days.map s.gross).Perm s.prices := by
  cases h : s.verifiedPlan with
  | none =>
    refine Perm.of_eq ?_
    rw [Stay.prices, h, Stay.days, map_map]
    exact map_congr_left fun i hi => gross_of_none h (mem_range.mp hi)
  | some amounts =>
    obtain ⟨hn, hd, hl, -⟩ := verifiedPlan_some h
    have hsub : amounts.map Prod.fst ⊆ s.days := by
      intro day hday
      obtain ⟨e, he, rfl⟩ := mem_map.mp hday
      have hin := hd e he
      refine mem_map.mpr ⟨(e.1 - s.checkIn).toNat, mem_range.mpr ?_, by omega⟩
      rw [Stay.nights]
      omega
    have hdays : (amounts.map Prod.fst).Perm s.days :=
      (hn.subperm hsub).perm_of_length_le (by simp [Stay.days, hl])
    have hprices : (amounts.map Prod.fst).map s.gross = s.prices := by
      rw [Stay.prices, h, map_map]
      refine map_congr_left fun e he => ?_
      simp [Stay.gross, s.ongoing, h, lookup_of_nodup hn he]
    exact hprices ▸ (hdays.map s.gross).symm

theorem roundHalfUp_intCast (n : ℤ) : roundHalfUp n = n := by
  unfold roundHalfUp
  split
  · rw [Int.floor_eq_iff]
    constructor <;> linarith
  · rw [neg_eq_iff_eq_neg, Int.floor_eq_iff]
    push_cast
    constructor <;> linarith

theorem sum_prices (s : Stay) : s.prices.sum = s.confirmedGross := by
  cases h : s.verifiedPlan with
  | none => exact sum_prices_of_none h
  | some amounts =>
    obtain ⟨-, -, -, htotal⟩ := verifiedPlan_some h
    rw [Stay.prices, Stay.confirmedGross, h, htotal, roundHalfUp_intCast]
    simp

theorem prices_nonneg (s : Stay) : ∀ g ∈ s.prices, 0 ≤ g := by
  intro g hg
  cases h : s.verifiedPlan with
  | none =>
    have hgross : 0 ≤ s.confirmedGross := by
      have hnonneg := s.nonneg
      unfold Stay.confirmedGross
      split <;> exact roundHalfUp_nonneg (by linarith [hnonneg.1, hnonneg.2])
    rw [Stay.prices, h] at hg
    obtain ⟨i, -, rfl⟩ := mem_map.mp hg
    have hdiv : 0 ≤ s.confirmedGross / s.nights := Int.ediv_nonneg hgross (Int.natCast_nonneg _)
    split <;> omega
  | some amounts =>
    rw [Stay.prices, h] at hg
    obtain ⟨e, he, rfl⟩ := mem_map.mp hg
    exact ((verifiedPlan_some h).2.1 e he).2.2

def oneNight : Stay :=
  { price := { totalAmount := 1105 / 100 }
    checkIn := 0
    checkOut := 1
    confirmed := .inr (by norm_num)
    nonneg := by norm_num
    ongoing := rfl }

/-- VAT of 10 percent, and no accommodation tax yet. -/
def untaxed : TaxRates := ⟨1 / 10, 0, by norm_num⟩

end SyrocePms.NightAudit
