import Mathlib.Data.List.Sort
import Mathlib.Data.Prod.Lex
import SyrocePms.Lib.Decimal

/-! The price of a party under the occupancy policy of a room type. A policy is normalised, with bands
that cover the ages of children, and the price counts the adults and children beyond the included
places. Amounts are in cents; `none` is an `OccupancyPricingError`. -/

namespace SyrocePms.Occupancy

open List Lib.Decimal

inductive PricingType
  | perPerson
  | perRoom

inductive RateType
  | fixed
  | percentage

inductive ChildPricing
  | free
  | fixed
  | adultPercentage
  | adultRate
  deriving DecidableEq

/-- `_decimal`; what is no finite number is `none`. -/
def decimal (value : Option ℚ) : Option ℕ :=
  value.bind fun x => if x < 0 then none else some (halfUp (x * 100)).toNat

def ageInteger (value : Option ℚ) : Option ℤ := value.bind fun x => if x.den = 1 then some x.num else none

/-! ### Policies -/

/-- A band as it is supplied. A pricing mode that is not one of `CHILD_PRICING_MODES` is `none`. -/
structure RawBand where
  minAge : Option ℚ
  maxAge : Option ℚ
  pricingMode : Option ChildPricing
  value : Option ℚ := some 0

/-- A rule as it is supplied. A type that is neither `per_person` nor `per_room` is `none`, and so is a
rate type that is not known. -/
structure RawRule where
  pricingType : Option PricingType := some .perRoom
  baseOccupancy : ℤ := 0
  maxOccupancy : Option ℤ := none
  childFreeAgeMax : Option ℚ := some 0
  extraAdultRateType : Option RateType := none
  extraAdultRate : Option ℚ := some 0
  extraChildRate : Option ℚ := some 0
  childAgeBands : List RawBand := []

@[ext] structure Band where
  minAge : ℕ
  maxAge : ℕ
  pricingMode : ChildPricing
  value : ℕ
  ages : minAge ≤ maxAge ∧ maxAge ≤ 17

def Band.covers (b : Band) (age : ℕ) : Bool := b.minAge ≤ age ∧ age ≤ b.maxAge

def normalizeBand (raw : RawBand) : Option Band :=
  (ageInteger raw.minAge).bind fun minAge =>
    (ageInteger raw.maxAge).bind fun maxAge =>
      if h : 0 ≤ minAge ∧ minAge ≤ maxAge ∧ maxAge ≤ 17 then
        raw.pricingMode.bind fun mode =>
          (decimal raw.value).bind fun value =>
            if mode = .adultPercentage ∧ 10000 < value then none
            else
              some
                { minAge := minAge.toNat
                  maxAge := maxAge.toNat
                  pricingMode := mode
                  value := if mode = .free ∨ mode = .adultRate then 0 else value
                  ages := by omega }
      else none

/-- The bands follow each other up to the age of 17. -/
def contiguous : ℕ → List Band → Bool
  | expected, [] => expected = 18
  | expected, b :: bands => b.minAge = expected && contiguous (b.maxAge + 1) bands

def Band.Before (b b' : Band) : Prop := b.minAge < b'.minAge ∨ b.minAge = b'.minAge ∧ b.maxAge ≤ b'.maxAge

instance (b b' : Band) : Decidable (b.Before b') := inferInstanceAs (Decidable (_ ∨ _))

structure AgeBands where
  list : List Band
  complete : contiguous 0 list = true

/-- The rule of the first version: a free age, and a fixed rate above it. -/
def legacyBands (freeAgeMax : ℕ) (h : freeAgeMax ≤ 17) (fixedRate : ℕ) : AgeBands where
  list :=
    { minAge := 0, maxAge := freeAgeMax, pricingMode := .free, value := 0, ages := ⟨Nat.zero_le _, h⟩ } ::
      if hlt : freeAgeMax < 17 then
        [{ minAge := freeAgeMax + 1, maxAge := 17, pricingMode := .fixed, value := fixedRate, ages := by omega }]
      else []
  complete := by
    split
    · simp [contiguous]
    · simp [contiguous]
      omega

def normalizeBands (supplied : List RawBand) (freeAgeMax : ℕ) (h : freeAgeMax ≤ 17) (fixedRate : ℕ) :
    Option AgeBands :=
  if supplied = [] then some (legacyBands freeAgeMax h fixedRate)
  else if 18 < supplied.length then none
  else
    (supplied.mapM normalizeBand).bind fun bands =>
      if hc : contiguous 0 (bands.insertionSort Band.Before) = true then some ⟨_, hc⟩ else none

structure Rule where
  pricingType : PricingType
  baseOccupancy : ℕ
  maxOccupancy : Option ℕ
  childFreeAgeMax : ℕ
  extraAdultRateType : RateType
  extraAdultRate : ℕ
  extraChildRate : ℕ
  childAgeBands : AgeBands
  occupancy : 1 ≤ baseOccupancy ∧ baseOccupancy ≤ 20 ∧ ∀ m ∈ maxOccupancy, baseOccupancy ≤ m ∧ m ≤ 50
  freeAge : childFreeAgeMax ≤ 17

def RawRule.base (raw : RawRule) : ℤ := if raw.baseOccupancy = 0 then 2 else raw.baseOccupancy

def normalizeRule (raw : RawRule) : Option Rule :=
  raw.pricingType.bind fun pricingType =>
    (ageInteger raw.childFreeAgeMax).bind fun freeAge =>
      if h : 1 ≤ raw.base ∧ raw.base ≤ 20 ∧ (∀ m ∈ raw.maxOccupancy, raw.base ≤ m ∧ m ≤ 50) ∧
          0 ≤ freeAge ∧ freeAge ≤ 17 then
        (decimal raw.extraAdultRate).bind fun adultRate =>
          (decimal raw.extraChildRate).bind fun childRate =>
            (normalizeBands raw.childAgeBands freeAge.toNat (by omega) childRate).map fun bands =>
              { pricingType := pricingType
                baseOccupancy := raw.base.toNat
                maxOccupancy := raw.maxOccupancy.map Int.toNat
                childFreeAgeMax := freeAge.toNat
                extraAdultRateType := raw.extraAdultRateType.getD .fixed
                extraAdultRate := adultRate
                extraChildRate := childRate
                childAgeBands := bands
                occupancy := by
                  refine ⟨by omega, by omega, fun m hm => ?_⟩
                  obtain ⟨x, hx, rfl⟩ := Option.mem_map.mp hm
                  have := h.2.2.1 x hx
                  omega
                freeAge := by omega }
      else none

/-! ### Quotes -/

structure ChildRow where
  age : ℕ
  pricingMode : ChildPricing
  rate : ℕ

/-- What a child pays who takes no included place. -/
def Band.amount (b : Band) (adultRate : ℕ) : ℕ :=
  match b.pricingMode with
  | .free => 0
  | .fixed => b.value
  | .adultPercentage => (halfUp ((adultRate * b.value : ℚ) / 10000)).toNat
  | .adultRate => adultRate

/-- The loop over the ages. A child at the adult rate takes an included place while there is one. -/
def childRows (bands : List Band) (adultRate : ℕ) : ℕ → List ℕ → Option (List ChildRow)
  | _, [] => some []
  | slots, age :: ages =>
    (bands.find? fun b => b.covers age).bind fun band =>
      if band.pricingMode = .adultRate ∧ 0 < slots then
        (childRows bands adultRate (slots - 1) ages).map ({ age, pricingMode := band.pricingMode, rate := 0 } :: ·)
      else
        (childRows bands adultRate slots ages).map
          ({ age, pricingMode := band.pricingMode, rate := band.amount adultRate } :: ·)

structure Quote where
  rule : Rule
  baseNightlyRate : ℕ
  nights : ℕ
  adults : ℕ
  childrenAges : List ℕ
  extraAdults : ℕ
  childBreakdown : List ChildRow
  chargeableChildren : ℕ
  freeChildren : ℕ
  adultSupplement : ℕ
  childSupplement : ℕ
  nightlyTotal : ℕ
  totalAmount : ℕ

def Rule.adultRate (r : Rule) (baseRate : ℕ) : ℕ :=
  match r.pricingType, r.extraAdultRateType with
  | .perRoom, _ => 0
  | .perPerson, .fixed => r.extraAdultRate
  | .perPerson, .percentage => (halfUp ((baseRate * r.extraAdultRate : ℚ) / 10000)).toNat

def Rule.extraAdults (r : Rule) (adults : ℕ) : ℕ :=
  match r.pricingType with
  | .perRoom => 0
  | .perPerson => adults - r.baseOccupancy

def Rule.childBreakdown (r : Rule) (baseRate adults : ℕ) (ages : List ℕ) : Option (List ChildRow) :=
  match r.pricingType with
  | .perRoom => some []
  | .perPerson => childRows r.childAgeBands.list (r.adultRate baseRate) (r.baseOccupancy - adults) ages

def quoteOf (r : Rule) (baseRate nights adults : ℕ) (ages : List ℕ) (rows : List ChildRow) : Quote :=
  let chargeable := rows.countP fun row => 0 < row.rate
  let adultSupplement := r.adultRate baseRate * r.extraAdults adults
  let childSupplement := (rows.map ChildRow.rate).sum
  let nightlyTotal := baseRate + adultSupplement + childSupplement
  { rule := r
    baseNightlyRate := baseRate
    nights := nights
    adults := adults
    childrenAges := ages
    extraAdults := r.extraAdults adults
    childBreakdown := rows
    chargeableChildren := chargeable
    freeChildren := rows.length - chargeable
    adultSupplement := adultSupplement
    childSupplement := childSupplement
    nightlyTotal := nightlyTotal
    totalAmount := nightlyTotal * nights }

/-- Nobody stays no night, without an adult, with a child of 18, or beyond the capacity. -/
def Rule.Refuses (r : Rule) (nights adults : ℤ) (ages : List ℤ) : Prop :=
  nights < 1 ∨ adults < 1 ∨ (∃ age ∈ ages, age < 0 ∨ 17 < age) ∨
    ∃ m ∈ r.maxOccupancy, (m : ℤ) < adults + ages.length

instance (r : Rule) (nights adults : ℤ) (ages : List ℤ) : Decidable (r.Refuses nights adults ages) :=
  inferInstanceAs (Decidable (_ ∨ _ ∨ _ ∨ _))

def calculateQuote (baseNightlyRate : Option ℚ) (nights adults : ℤ) (ages : List ℤ) (raw : RawRule) :
    Option Quote :=
  (normalizeRule raw).bind fun r =>
    (decimal baseNightlyRate).bind fun baseRate =>
      if r.Refuses nights adults ages then none
      else
        (r.childBreakdown baseRate adults.toNat (ages.map Int.toNat)).map
          (quoteOf r baseRate nights.toNat adults.toNat (ages.map Int.toNat))

/-! ### Bands -/

variable {bands : List Band} {age expected : ℕ}

theorem minAge_of_contiguous (h : contiguous expected bands = true) : ∀ b ∈ bands, expected ≤ b.minAge := by
  induction bands generalizing expected with
  | nil => simp
  | cons b bands ih =>
    rw [contiguous, Bool.and_eq_true, decide_eq_true_eq] at h
    intro x hx
    rcases mem_cons.mp hx with rfl | hx
    · exact h.1.ge
    · have hage := b.ages.1
      have hmin := ih h.2 x hx
      omega

/-- Every age up to 17 is in exactly one band. -/
theorem existsUnique_band (h : contiguous expected bands = true) (hle : expected ≤ age) (hage : age ≤ 17) :
    ∃ b, bands.find? (fun b => b.covers age) = some b ∧ ∀ b' ∈ bands, b'.covers age = true → b' = b := by
  induction bands generalizing expected with
  | nil =>
    rw [contiguous, decide_eq_true_eq] at h
    omega
  | cons b bands ih =>
    rw [contiguous, Bool.and_eq_true, decide_eq_true_eq] at h
    by_cases hb : age ≤ b.maxAge
    · have hcovers : b.covers age = true := by simp [Band.covers]; omega
      refine ⟨b, find?_cons_of_pos hcovers, fun b' hb' hcov => ?_⟩
      rcases mem_cons.mp hb' with rfl | hb'
      · rfl
      · have hmin := minAge_of_contiguous h.2 b' hb'
        simp only [Band.covers, decide_eq_true_eq] at hcov
        omega
    · have hcovers : ¬b.covers age = true := by simp [Band.covers]; omega
      obtain ⟨x, hx, hunique⟩ := ih h.2 (by omega)
      refine ⟨x, by simp [hcovers, hx], fun b' hb' hcov => ?_⟩
      rcases mem_cons.mp hb' with rfl | hb'
      · exact absurd hcov hcovers
      · exact hunique b' hb' hcov

/-! ### Normalised policies -/

theorem decimal_cents (n : ℕ) : decimal (some ((n : ℚ) / 100)) = some n := by
  have hn : (n : ℚ) / 100 * 100 = ((n : ℤ) : ℚ) := by simp
  rw [decimal, Option.bind_some, if_neg (not_lt.mpr (by positivity)), hn, halfUp_intCast, Int.toNat_natCast]

theorem ageInteger_natCast (n : ℕ) : ageInteger (some n) = some (n : ℤ) := by
  simp [ageInteger]

def Band.raw (b : Band) : RawBand where
  minAge := some b.minAge
  maxAge := some b.maxAge
  pricingMode := some b.pricingMode
  value := some (b.value / 100)

/-- A value is at most 100 percent, and zero where it has no meaning. -/
structure Band.Plain (b : Band) : Prop where
  percentage : b.pricingMode = .adultPercentage → b.value ≤ 10000
  unused : b.pricingMode = .free ∨ b.pricingMode = .adultRate → b.value = 0

theorem plain_of_normalizeBand {raw : RawBand} {b : Band} (h : normalizeBand raw = some b) : b.Plain := by
  obtain ⟨minAge, -, h⟩ := Option.bind_eq_some_iff.mp h
  obtain ⟨maxAge, -, h⟩ := Option.bind_eq_some_iff.mp h
  split at h
  · obtain ⟨mode, -, h⟩ := Option.bind_eq_some_iff.mp h
    obtain ⟨value, -, h⟩ := Option.bind_eq_some_iff.mp h
    split at h
    · cases h
    · rename_i hvalue
      cases h
      refine ⟨fun hmode => ?_, fun hmode => if_pos hmode⟩
      have hle : ¬10000 < value := fun hlt => hvalue ⟨hmode, hlt⟩
      dsimp only
      split <;> omega
  · cases h

theorem normalizeBand_raw {b : Band} (h : b.Plain) : normalizeBand b.raw = some b := by
  have hages := b.ages
  have hvalue : ¬(b.pricingMode = .adultPercentage ∧ 10000 < b.value) :=
    fun ⟨hmode, hlt⟩ => absurd (h.percentage hmode) (not_le.mpr hlt)
  simp only [normalizeBand, Band.raw, ageInteger_natCast, decimal_cents, Option.bind_some, if_neg hvalue]
  rw [dif_pos (by omega), Option.some.injEq]
  ext1
  · simp
  · simp
  · rfl
  · dsimp only
    split
    · rename_i hmode
      exact (h.unused hmode).symm
    · rfl

theorem mapM_normalizeBand_raw (h : ∀ b ∈ bands, b.Plain) : (bands.map Band.raw).mapM normalizeBand = some bands := by
  induction bands with
  | nil => rfl
  | cons b bands ih =>
    rw [map_cons, mapM_cons, normalizeBand_raw (h b mem_cons_self), ih fun x hx => h x (mem_cons_of_mem _ hx)]
    rfl

theorem mem_of_mapM {raws : List RawBand} (h : raws.mapM normalizeBand = some bands) : ∀ b ∈ bands, b.Plain := by
  induction raws generalizing bands with
  | nil =>
    cases h
    simp
  | cons raw raws ih =>
    rw [mapM_cons] at h
    obtain ⟨b, hb, h⟩ := Option.bind_eq_some_iff.mp h
    obtain ⟨rest, hrest, h⟩ := Option.bind_eq_some_iff.mp h
    cases h
    intro x hx
    rcases mem_cons.mp hx with rfl | hx
    · exact plain_of_normalizeBand hb
    · exact ih hrest x hx

theorem pairwise_of_contiguous (h : contiguous expected bands = true) : bands.Pairwise Band.Before := by
  induction bands generalizing expected with
  | nil => exact .nil
  | cons b bands ih =>
    rw [contiguous, Bool.and_eq_true] at h
    refine pairwise_cons.mpr ⟨fun x hx => .inl ?_, ih h.2⟩
    have hmin := minAge_of_contiguous h.2 x hx
    have hage := b.ages.1
    omega

theorem length_of_contiguous (h : contiguous expected bands = true) : expected + bands.length ≤ 18 := by
  induction bands generalizing expected with
  | nil =>
    rw [contiguous, decide_eq_true_eq] at h
    rw [h, length_nil]
  | cons b bands ih =>
    rw [contiguous, Bool.and_eq_true, decide_eq_true_eq] at h
    have hlen := ih h.2
    have hage := b.ages.1
    rw [length_cons]
    omega

/-- Bands that were normalised are read as they are. -/
theorem normalizeBands_raw (a : AgeBands) (h : ∀ b ∈ a.list, b.Plain) (freeAgeMax : ℕ) (hf : freeAgeMax ≤ 17)
    (fixedRate : ℕ) : normalizeBands (a.list.map Band.raw) freeAgeMax hf fixedRate = some a := by
  have hne : a.list ≠ [] := by
    intro heq
    have hc := a.complete
    rw [heq] at hc
    cases hc
  have hlen := length_of_contiguous a.complete
  have hsort : a.list.insertionSort Band.Before = a.list := (pairwise_of_contiguous a.complete).insertionSort_eq
  rw [normalizeBands, if_neg (by simpa using hne), if_neg (by rw [length_map]; omega),
    mapM_normalizeBand_raw h, Option.bind_some, dif_pos (hsort.symm ▸ a.complete)]
  simp only [hsort]

theorem plain_of_normalizeBands {raws : List RawBand} {freeAgeMax : ℕ} {hf : freeAgeMax ≤ 17} {fixedRate : ℕ}
    {a : AgeBands} (h : normalizeBands raws freeAgeMax hf fixedRate = some a) : ∀ b ∈ a.list, b.Plain := by
  unfold normalizeBands at h
  split at h
  · cases h
    intro b hb
    rcases mem_cons.mp hb with rfl | hb
    · exact ⟨by simp, fun _ => rfl⟩
    · split at hb
      · rw [mem_singleton.mp hb]
        exact ⟨by simp, by simp⟩
      · cases hb
  · split at h
    · cases h
    · obtain ⟨bands, hbands, h⟩ := Option.bind_eq_some_iff.mp h
      split at h
      · cases h
        exact fun b hb => mem_of_mapM hbands b ((mem_insertionSort _).mp hb)
      · cases h

def Rule.raw (r : Rule) : RawRule where
  pricingType := some r.pricingType
  baseOccupancy := r.baseOccupancy
  maxOccupancy := r.maxOccupancy.map Nat.cast
  childFreeAgeMax := some r.childFreeAgeMax
  extraAdultRateType := some r.extraAdultRateType
  extraAdultRate := some (r.extraAdultRate / 100)
  extraChildRate := some (r.extraChildRate / 100)
  childAgeBands := r.childAgeBands.list.map Band.raw

theorem plain_of_normalizeRule {raw : RawRule} {r : Rule} (h : normalizeRule raw = some r) :
    ∀ b ∈ r.childAgeBands.list, b.Plain := by
  obtain ⟨type, -, h⟩ := Option.bind_eq_some_iff.mp h
  obtain ⟨free, -, h⟩ := Option.bind_eq_some_iff.mp h
  split at h
  · obtain ⟨adultRate, -, h⟩ := Option.bind_eq_some_iff.mp h
    obtain ⟨childRate, -, h⟩ := Option.bind_eq_some_iff.mp h
    obtain ⟨bands, hbands, rfl⟩ := Option.map_eq_some_iff.mp h
    exact plain_of_normalizeBands hbands
  · cases h

theorem normalizeRule_raw {r : Rule} (h : ∀ b ∈ r.childAgeBands.list, b.Plain) : normalizeRule r.raw = some r := by
  obtain ⟨hbase, hbase', hmax⟩ := r.occupancy
  have hfree := r.freeAge
  have hraw : r.raw.base = r.baseOccupancy := if_neg (by simp only [Rule.raw]; omega)
  have hmaxCast : ∀ m ∈ r.maxOccupancy.map (Nat.cast : ℕ → ℤ), (r.baseOccupancy : ℤ) ≤ m ∧ m ≤ 50 := by
    intro m hm
    obtain ⟨x, hx, rfl⟩ := Option.mem_map.mp hm
    have hin := hmax x hx
    omega
  have hmap : (r.maxOccupancy.map (Nat.cast : ℕ → ℤ)).map Int.toNat = r.maxOccupancy := by
    simp [Option.map_map, Function.comp_def]
  simp only [normalizeRule, hraw]
  simp only [Rule.raw, Option.bind_some, ageInteger_natCast, decimal_cents, normalizeBands_raw _ h,
    Option.map_some, hmap, Int.toNat_natCast, Option.getD_some]
  rw [dif_pos ⟨by omega, by omega, hmaxCast, by omega, by omega⟩]

/-! ### What children pay -/

/-- What a child of an age pays at any place. -/
def plainRate (bands : List Band) (adultRate age : ℕ) : ℕ :=
  ((bands.find? fun b => b.covers age).map fun b => if b.pricingMode = .adultRate then 0 else b.amount adultRate).getD 0

/-- The included places that a child of an age may take. -/
def places (bands : List Band) (age : ℕ) : ℕ :=
  ((bands.find? fun b => b.covers age).map fun b => if b.pricingMode = .adultRate then 1 else 0).getD 0

/-- Children at the adult rate beyond the included places. -/
def placesOver (bands : List Band) (slots : ℕ) (ages : List ℕ) : ℕ := (ages.map (places bands)).sum - slots

def childTotal (bands : List Band) (adultRate slots : ℕ) (ages : List ℕ) : ℕ :=
  (ages.map (plainRate bands adultRate)).sum + adultRate * placesOver bands slots ages

def payingChildren (bands : List Band) (adultRate slots : ℕ) (ages : List ℕ) : ℕ :=
  (ages.map fun age => if 0 < plainRate bands adultRate age then 1 else 0).sum +
    if 0 < adultRate then placesOver bands slots ages else 0

theorem childRows_spec (h : contiguous 0 bands = true) (adultRate slots : ℕ) {ages : List ℕ}
    (hages : ∀ age ∈ ages, age ≤ 17) :
    ∃ rows, childRows bands adultRate slots ages = some rows ∧ rows.length = ages.length ∧
      (rows.map ChildRow.rate).sum = childTotal bands adultRate slots ages ∧
      (rows.countP fun row => 0 < row.rate) = payingChildren bands adultRate slots ages := by
  induction ages generalizing slots with
  | nil => exact ⟨[], rfl, rfl, by simp [childTotal, placesOver], by simp [payingChildren, placesOver]⟩
  | cons age ages ih =>
    obtain ⟨b, hb, -⟩ := existsUnique_band h (Nat.zero_le age) (hages age mem_cons_self)
    have hrest : ∀ a ∈ ages, a ≤ 17 := fun a ha => hages a (mem_cons_of_mem _ ha)
    by_cases hmode : b.pricingMode = .adultRate
    · have hplain : plainRate bands adultRate age = 0 := by simp [plainRate, hb, hmode]
      have hplaces : places bands age = 1 := by simp [places, hb, hmode]
      have hamount : b.amount adultRate = adultRate := by simp [Band.amount, hmode]
      by_cases hslots : 0 < slots
      · obtain ⟨rows, hrows, hlen, hsum, hcount⟩ := ih (slots - 1) hrest
        have hover : placesOver bands slots (age :: ages) = placesOver bands (slots - 1) ages := by
          simp only [placesOver, map_cons, sum_cons, hplaces]
          omega
        refine ⟨⟨age, b.pricingMode, 0⟩ :: rows, ?_, by simp [hlen], ?_, ?_⟩
        · simp [childRows, hb, hmode, hslots, hrows]
        · simp [hsum, childTotal, hover, hplain]
        · simp [hcount, payingChildren, hover, hplain]
      · obtain ⟨rows, hrows, hlen, hsum, hcount⟩ := ih slots hrest
        obtain rfl : slots = 0 := by omega
        have hover : placesOver bands 0 (age :: ages) = placesOver bands 0 ages + 1 := by
          simp only [placesOver, map_cons, sum_cons, hplaces]
          omega
        refine ⟨⟨age, b.pricingMode, b.amount adultRate⟩ :: rows, ?_, by simp [hlen], ?_, ?_⟩
        · simp [childRows, hb, hrows]
        · simp only [map_cons, sum_cons, hsum, childTotal, hover, hplain, hamount, Nat.mul_add]
          omega
        · simp only [countP_cons, hcount, payingChildren, hover, hplain, hamount, map_cons, sum_cons,
            decide_eq_true_eq]
          split
          · simp
            omega
          · simp
    · obtain ⟨rows, hrows, hlen, hsum, hcount⟩ := ih slots hrest
      have hplain : plainRate bands adultRate age = b.amount adultRate := by simp [plainRate, hb, hmode]
      have hplaces : places bands age = 0 := by simp [places, hb, hmode]
      have hover : placesOver bands slots (age :: ages) = placesOver bands slots ages := by
        simp [placesOver, hplaces]
      refine ⟨⟨age, b.pricingMode, b.amount adultRate⟩ :: rows, ?_, by simp [hlen], ?_, ?_⟩
      · simp [childRows, hb, hmode, hrows]
      · simp only [map_cons, sum_cons, hsum, childTotal, hover, hplain]
        omega
      · simp only [countP_cons, hcount, payingChildren, hover, hplain, map_cons, sum_cons, decide_eq_true_eq]
        omega

/-! ### Quotes of a party -/

/-- The amounts and counts of a quote. -/
def Quote.figures (q : Quote) : List ℕ :=
  [q.extraAdults, q.chargeableChildren, q.freeChildren, q.adultSupplement, q.childSupplement, q.nightlyTotal,
    q.totalAmount]

variable {r : Rule} {raw : RawRule} {base : Option ℚ} {nights adults : ℤ} {ages ages' : List ℤ} {q q' : Quote}

def Rule.childSupplement (r : Rule) (baseRate adults : ℕ) (ages : List ℕ) : ℕ :=
  match r.pricingType with
  | .perRoom => 0
  | .perPerson => childTotal r.childAgeBands.list (r.adultRate baseRate) (r.baseOccupancy - adults) ages

def Rule.payingChildren (r : Rule) (baseRate adults : ℕ) (ages : List ℕ) : ℕ :=
  match r.pricingType with
  | .perRoom => 0
  | .perPerson =>
    Occupancy.payingChildren r.childAgeBands.list (r.adultRate baseRate) (r.baseOccupancy - adults) ages

def Rule.listedChildren (r : Rule) (ages : List ℕ) : ℕ :=
  match r.pricingType with
  | .perRoom => 0
  | .perPerson => ages.length

def Rule.nightly (r : Rule) (baseRate adults : ℕ) (ages : List ℕ) : ℕ :=
  baseRate + r.adultRate baseRate * r.extraAdults adults + r.childSupplement baseRate adults ages

def Rule.figures (r : Rule) (baseRate nights adults : ℕ) (ages : List ℕ) : List ℕ :=
  [r.extraAdults adults, r.payingChildren baseRate adults ages,
    r.listedChildren ages - r.payingChildren baseRate adults ages,
    r.adultRate baseRate * r.extraAdults adults, r.childSupplement baseRate adults ages,
    r.nightly baseRate adults ages, r.nightly baseRate adults ages * nights]

theorem childBreakdown_spec (r : Rule) (baseRate adults : ℕ) {ages : List ℕ} (hages : ∀ age ∈ ages, age ≤ 17) :
    ∃ rows, r.childBreakdown baseRate adults ages = some rows ∧ rows.length = r.listedChildren ages ∧
      (rows.map ChildRow.rate).sum = r.childSupplement baseRate adults ages ∧
      (rows.countP fun row => 0 < row.rate) = r.payingChildren baseRate adults ages := by
  unfold Rule.childBreakdown Rule.listedChildren Rule.childSupplement Rule.payingChildren
  cases r.pricingType with
  | perRoom => exact ⟨[], rfl, rfl, rfl, rfl⟩
  | perPerson => exact childRows_spec r.childAgeBands.complete _ _ hages

/-- The figures of a quote, without the loop over the children. -/
theorem figures_calculateQuote (base : Option ℚ) (nights adults : ℤ) (ages : List ℤ) (raw : RawRule) :
    (calculateQuote base nights adults ages raw).map Quote.figures =
      (normalizeRule raw).bind fun r => (decimal base).bind fun baseRate =>
        if r.Refuses nights adults ages then none
        else some (r.figures baseRate nights.toNat adults.toNat (ages.map Int.toNat)) := by
  rw [calculateQuote, Option.map_bind]
  congr 1
  funext r
  rw [Function.comp_apply, Option.map_bind]
  congr 1
  funext baseRate
  rw [Function.comp_apply]
  split
  · rfl
  · rename_i hok
    have hages : ∀ age ∈ ages.map Int.toNat, age ≤ 17 := by
      intro age hage
      obtain ⟨a, ha, rfl⟩ := mem_map.mp hage
      have hin : ¬(a < 0 ∨ 17 < a) := fun hout => hok (.inr (.inr (.inl ⟨a, ha, hout⟩)))
      omega
    obtain ⟨rows, hrows, hlen, hsum, hcount⟩ := childBreakdown_spec r baseRate adults.toNat hages
    rw [hrows]
    simp only [Option.map_some, Quote.figures, quoteOf, hlen, hsum, hcount, Rule.figures, Rule.nightly]

theorem refuses_perm (h : ages.Perm ages') : r.Refuses nights adults ages ↔ r.Refuses nights adults ages' := by
  unfold Rule.Refuses
  simp only [h.mem_iff, h.length_eq]

theorem figures_perm {l l' : List ℕ} (h : l.Perm l') (r : Rule) (baseRate nights adults : ℕ) :
    r.figures baseRate nights adults l = r.figures baseRate nights adults l' := by
  have hsum : ∀ f : ℕ → ℕ, (l.map f).sum = (l'.map f).sum := fun f => (h.map f).sum_eq
  simp only [Rule.figures, Rule.nightly, Rule.childSupplement, Rule.payingChildren, Rule.listedChildren,
    childTotal, payingChildren, placesOver, hsum, h.length_eq]

/-- The ages of the children may be listed in any order. -/
theorem quote_perm (h : ages.Perm ages') (base : Option ℚ) (nights adults : ℤ) (raw : RawRule) :
    (calculateQuote base nights adults ages raw).map Quote.figures =
      (calculateQuote base nights adults ages' raw).map Quote.figures := by
  rw [figures_calculateQuote, figures_calculateQuote]
  simp only [refuses_perm h, figures_perm (h.map Int.toNat)]

/-- Another child, or another adult, costs nothing or more. -/
theorem nightly_le {m m' : ℕ} {l l' : List ℕ} (hm : m ≤ m') (hl : l.Subperm l') (r : Rule) (baseRate : ℕ) :
    r.nightly baseRate m l ≤ r.nightly baseRate m' l' := by
  have hsum : ∀ f : ℕ → ℕ, (l.map f).sum ≤ (l'.map f).sum := by
    intro f
    obtain ⟨k, hk, hsub⟩ := hl
    rw [← (hk.map f).sum_eq]
    exact (hsub.map f).sum_le_sum fun _ _ => Nat.zero_le _
  have hextra : r.extraAdults m ≤ r.extraAdults m' := by
    unfold Rule.extraAdults
    split <;> omega
  have hchild : r.childSupplement baseRate m l ≤ r.childSupplement baseRate m' l' := by
    unfold Rule.childSupplement
    split
    · exact Nat.le_refl _
    · have hplaces := hsum (places r.childAgeBands.list)
      have hplain := hsum (plainRate r.childAgeBands.list (r.adultRate baseRate))
      have hover : placesOver r.childAgeBands.list (r.baseOccupancy - m) l ≤
          placesOver r.childAgeBands.list (r.baseOccupancy - m') l' := by
        unfold placesOver
        omega
      have hmul := Nat.mul_le_mul_left (r.adultRate baseRate) hover
      unfold childTotal
      omega
  have hmul := Nat.mul_le_mul_left (r.adultRate baseRate) hextra
  unfold Rule.nightly
  omega

/-- A quote for a larger party under the same policy is no lower. -/
theorem quote_mono {adults' : ℤ} (hm : adults ≤ adults') (hl : ages.Subperm ages')
    (h : calculateQuote base nights adults ages raw = some q)
    (h' : calculateQuote base nights adults' ages' raw = some q') :
    q.nightlyTotal ≤ q'.nightlyTotal ∧ q.totalAmount ≤ q'.totalAmount := by
  have hf := figures_calculateQuote base nights adults ages raw
  have hf' := figures_calculateQuote base nights adults' ages' raw
  rw [h, Option.map_some] at hf
  rw [h', Option.map_some] at hf'
  obtain ⟨r, hr, hf⟩ := Option.bind_eq_some_iff.mp hf.symm
  obtain ⟨b, hb, hf⟩ := Option.bind_eq_some_iff.mp hf
  rw [hr, Option.bind_some, hb, Option.bind_some] at hf'
  rw [Option.ite_none_left_eq_some, Option.some.injEq] at hf
  rw [eq_comm, Option.ite_none_left_eq_some, Option.some.injEq] at hf'
  simp only [Quote.figures, Rule.figures, cons.injEq] at hf hf'
  obtain ⟨k, hk, hsub⟩ := hl
  have hl' : (ages.map Int.toNat).Subperm (ages'.map Int.toNat) := ⟨k.map Int.toNat, hk.map _, hsub.map _⟩
  have hle := nightly_le (Int.toNat_le_toNat hm) hl' r b
  have hmul := Nat.mul_le_mul_right nights.toNat hle
  omega

/-- The figures of a quote do not depend on the order of the ages, another adult or child never lowers
it, and a normalised policy has exactly one band for each age and is normalised to itself. -/
theorem occupancy_pricing (base : Option ℚ) (nights adults : ℤ) (ages : List ℤ) (raw : RawRule) :
    (∀ ages', ages.Perm ages' →
      (calculateQuote base nights adults ages raw).map Quote.figures =
        (calculateQuote base nights adults ages' raw).map Quote.figures) ∧
      (∀ q q', calculateQuote base nights adults ages raw = some q →
        calculateQuote base nights (adults + 1) ages raw = some q' →
        q.nightlyTotal ≤ q'.nightlyTotal ∧ q.totalAmount ≤ q'.totalAmount) ∧
      (∀ q q' age ages', ages'.Perm (age :: ages) → calculateQuote base nights adults ages raw = some q →
        calculateQuote base nights adults ages' raw = some q' →
        q.nightlyTotal ≤ q'.nightlyTotal ∧ q.totalAmount ≤ q'.totalAmount) ∧
      ∀ r, normalizeRule raw = some r → normalizeRule r.raw = some r ∧
        ∀ age ≤ 17, ∃! b, b ∈ r.childAgeBands.list ∧ b.covers age = true := by
  refine ⟨fun ages' h => quote_perm h base nights adults raw, fun q q' h h' => ?_,
    fun q q' age ages' hp h h' => ?_, fun r hr => ⟨normalizeRule_raw (plain_of_normalizeRule hr), fun age hage => ?_⟩⟩
  · exact quote_mono (Int.le.intro 1 rfl) (Subperm.refl _) h h'
  · exact quote_mono le_rfl ((sublist_cons_self age ages).subperm.trans hp.symm.subperm) h h'
  · obtain ⟨b, hb, hunique⟩ := existsUnique_band r.childAgeBands.complete (Nat.zero_le age) hage
    have hmem := mem_of_find?_eq_some hb
    have hcovers := find?_some hb
    exact ⟨b, ⟨hmem, hcovers⟩, fun b' hb' => hunique b' hb'.1 hb'.2⟩

/-- Every child is an adult-equivalent. -/
def adultEquivalent : RawRule :=
  { pricingType := some .perPerson
    extraAdultRate := some 40
    childAgeBands := [{ minAge := some 0, maxAge := some 17, pricingMode := some .adultRate }] }

theorem occupancy_pricing_family : ∃ q q', calculateQuote (some 100) 1 1 [8, 12] adultEquivalent = some q ∧
    calculateQuote (some 100) 1 2 [8, 12] adultEquivalent = some q' ∧ q.totalAmount ≤ q'.totalAmount := by
  have hone : (calculateQuote (some 100) 1 1 [8, 12] adultEquivalent).isSome = true := by decide +kernel
  have htwo : (calculateQuote (some 100) 1 2 [8, 12] adultEquivalent).isSome = true := by decide +kernel
  obtain ⟨q, h⟩ := Option.isSome_iff_exists.mp hone
  obtain ⟨q', h'⟩ := Option.isSome_iff_exists.mp htwo
  exact ⟨q, q', h, h', ((occupancy_pricing (some 100) 1 1 [8, 12] adultEquivalent).2.1 q q' h h').2⟩

end SyrocePms.Occupancy
