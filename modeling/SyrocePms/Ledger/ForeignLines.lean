import SyrocePms.Ledger.Journal
import SyrocePms.Lib.Decimal

/-! `normalize_journal_lines` on lines as they come in, with their foreign-currency fields.
Amounts and rates are exact decimals. A product has 28 significant digits, and so has the
coefficient of a quantized value. -/

namespace SyrocePms.Ledger.Foreign

open Lib List

variable {m n : ℤ} {q r : ℚ} {code index : ℕ}

/-- A number field: left out, the empty text, a decimal, or a value that is no finite
decimal. -/
inductive Number where
  | absent
  | empty
  | decimal (q : ℚ)
  | nonFinite
  | unreadable
  deriving DecidableEq

/-- A text: a word, if there is one, with blanks around it. -/
structure Text where
  blanks : ℕ
  word : Option ℕ

def Text.of (w : ℕ) : Text := ⟨0, some w⟩

/-- `(… or "").strip() or None`. -/
def stripped (t : Option Text) : Option ℕ := t.bind Text.word

/-- The text of a currency: blank, three letters in some spelling of blanks and cases, or
another text. The lira has an old and a new code. -/
inductive CurrencyText where
  | blank (spelling : ℕ)
  | foreign (code : ℕ) (spelling : ℕ)
  | lira (old : Bool) (spelling : ℕ)
  | other (n : ℕ)

structure RawLine where
  accountCode : Option Text
  accountName : Option Text := none
  debit : Number := .absent
  credit : Number := .absent
  memo : Option Text := none
  currency : Option CurrencyText := none
  foreignAmount : Number := .absent
  exchangeRate : Number := .absent

/-- The fields of a currency: its code, the amount in minor units, and the rate. -/
@[ext] structure ForeignPart where
  currency : ℕ
  amount : ℤ
  rate : ℚ
  deriving DecidableEq

/-- A line that is returned. Its amounts are in minor units. -/
structure PostedLine where
  lineNo : ℕ
  accountCode : ℕ
  accountName : Option ℕ
  debit : ℤ
  credit : ℤ
  memo : Option ℕ
  foreign : Option ForeignPart
  deriving DecidableEq

inductive LineError where
  | accountRequired
  | amount
  | negative
  | debitXorCredit
  | badCurrency
  | liraFields
  | foreignRequired
  | badRate
  | ratePositive
  | rateDigits
  | rateMismatch
  | currencyRequired
  deriving DecidableEq

inductive NormalizeError where
  | noLines
  | line (index : ℕ) (e : LineError)
  | zeroTotal
  | unbalanced (debit credit : ℤ)
  deriving DecidableEq

/-! ### Numbers -/

/-- `ROUND_HALF_UP`: the nearest integer, a tie away from zero. -/
def halfAway (x : ℚ) : ℤ := if 0 ≤ x then Decimal.halfUp x else -Decimal.halfUp (-x)

def moneyToMinor : Number → Option ℤ
  | .absent | .empty => some 0
  | .decimal q => if (moneyLimit : ℚ) < |q * 100| then none else some (halfAway (q * 100))
  | .nonFinite | .unreadable => none

def Number.ofMinor (m : ℤ) : Number := .decimal (m / 100)

/-- `quantize` to `scale` digits after the point, as a coefficient: a coefficient of more than
28 digits raises. -/
def quantize (x : ℚ) (scale : ℕ) : Option ℤ :=
  let n := halfAway (x * 10 ^ scale)
  if 10 ^ 28 ≤ |n| then none else some n

/-- The rate that is stored, with six digits after the point. -/
def roundedRate (rate : ℚ) : Option ℚ := (quantize rate 6).map fun n : ℤ => (n : ℚ) / 10 ^ 6

def expectedBase (amount : ℤ) (rate : ℚ) : Option ℤ :=
  quantize (Decimal.digits 28 (amount * rate)) 0

def readRate : Number → Except LineError ℚ
  | .decimal q => if q ≤ 0 then .error .ratePositive else .ok q
  | .nonFinite => .error .ratePositive
  | .absent | .empty | .unreadable => .error .badRate

/-! ### Lines -/

/-- The amounts of the two sides, of which exactly one is positive. -/
def readSides (l : RawLine) : Except LineError (ℤ × ℤ) :=
  match moneyToMinor l.debit, moneyToMinor l.credit with
  | some debit, some credit =>
    if debit < 0 ∨ credit < 0 then .error .negative
    else if (0 < debit ↔ 0 < credit) then .error .debitXorCredit
    else .ok (debit, credit)
  | _, _ => .error .amount

/-- `debit_minor or credit_minor`. -/
def baseOf (sides : ℤ × ℤ) : ℤ := if sides.1 ≠ 0 then sides.1 else sides.2

/-- The amount at the rate is the base amount, up to one minor unit; the rate is rounded
after the check. -/
def convert (code : ℕ) (amount : ℤ) (rate : ℚ) (base : ℤ) : Except LineError ForeignPart :=
  match roundedRate rate, expectedBase amount rate with
  | some rounded, some expected =>
    if 1 < |expected - base| then .error .rateMismatch else .ok ⟨code, amount, rounded⟩
  | _, _ => .error .rateDigits

def readForeign (code : ℕ) (l : RawLine) (base : ℤ) : Except LineError ForeignPart :=
  if l.foreignAmount = .absent ∨ l.exchangeRate = .absent then .error .foreignRequired
  else
    match moneyToMinor l.foreignAmount with
    | none => .error .amount
    | some amount =>
      match readRate l.exchangeRate with
      | .error e => .error e
      | .ok rate => convert code amount rate base

def readCurrency (l : RawLine) (base : ℤ) : Except LineError (Option ForeignPart) :=
  match l.currency with
  | none | some (.blank _) =>
    if l.foreignAmount = .absent ∧ l.exchangeRate = .absent then .ok none
    else .error .currencyRequired
  | some (.other _) => .error .badCurrency
  | some (.lira _ _) => .error .liraFields
  | some (.foreign code _) =>
    match readForeign code l base with
    | .error e => .error e
    | .ok f => .ok (some f)

def normalizeLine (index : ℕ) (l : RawLine) : Except LineError PostedLine :=
  match stripped l.accountCode with
  | none => .error .accountRequired
  | some code =>
    match readSides l with
    | .error e => .error e
    | .ok sides =>
      match readCurrency l (baseOf sides) with
      | .error e => .error e
      | .ok foreign =>
        .ok ⟨index, code, stripped l.accountName, sides.1, sides.2, stripped l.memo, foreign⟩

def normalizeFrom (index : ℕ) : List RawLine → Except NormalizeError (List PostedLine)
  | [] => .ok []
  | l :: lines =>
    match normalizeLine index l with
    | .error e => .error (.line index e)
    | .ok p =>
      match normalizeFrom (index + 1) lines with
      | .error e => .error e
      | .ok ps => .ok (p :: ps)

def debitOf (lines : List PostedLine) : ℤ := (lines.map PostedLine.debit).sum

def creditOf (lines : List PostedLine) : ℤ := (lines.map PostedLine.credit).sum

def checkTotals (lines : List PostedLine) : Except NormalizeError (List PostedLine) :=
  if debitOf lines ≤ 0 then .error .zeroTotal
  else if debitOf lines ≠ creditOf lines then .error (.unbalanced (debitOf lines) (creditOf lines))
  else .ok lines

def normalizeJournalLines (lines : List RawLine) : Except NormalizeError (List PostedLine) :=
  if lines = [] then .error .noLines
  else
    match normalizeFrom 0 lines with
    | .error e => .error e
    | .ok out => checkTotals out

/-- A returned line, read again as an input. -/
def PostedLine.raw (p : PostedLine) : RawLine where
  accountCode := some (.of p.accountCode)
  accountName := p.accountName.map Text.of
  debit := .ofMinor p.debit
  credit := .ofMinor p.credit
  memo := p.memo.map Text.of
  currency := p.foreign.map fun f => .foreign f.currency 0
  foreignAmount := p.foreign.elim .absent fun f => .ofMinor f.amount
  exchangeRate := p.foreign.elim .absent fun f => .decimal f.rate

def PostedLine.swap (p : PostedLine) : PostedLine := { p with debit := p.credit, credit := p.debit }

/-! ### Rounding -/

@[simp] theorem halfAway_intCast (n : ℤ) : halfAway n = n := by
  have hself : ∀ m : ℤ, Decimal.halfUp m = m := by
    intro m
    apply Decimal.halfUp_eq <;> linarith
  unfold halfAway
  split
  · exact hself n
  · rw [← Int.cast_neg, hself, neg_neg]

theorem abs_halfAway_le {x : ℚ} (h : |x| ≤ n) : |halfAway x| ≤ n := by
  have hbound : ∀ y : ℚ, 0 ≤ y → y ≤ n → 0 ≤ Decimal.halfUp y ∧ Decimal.halfUp y ≤ n := by
    intro y hy hyn
    constructor
    · apply Decimal.le_halfUp
      push_cast
      linarith
    · apply Decimal.halfUp_le
      linarith
  unfold halfAway
  split
  · rename_i hx
    rw [abs_of_nonneg hx] at h
    obtain ⟨hlo, hhi⟩ := hbound x hx h
    rw [abs_le]
    omega
  · rename_i hx
    rw [abs_of_neg (not_le.mp hx)] at h
    obtain ⟨hlo, hhi⟩ := hbound (-x) (by linarith) h
    rw [abs_le]
    omega

theorem moneyToMinor_le {x : Number} (h : moneyToMinor x = some m) : |m| ≤ moneyLimit := by
  cases x with
  | absent | empty =>
    cases h
    decide
  | decimal q =>
    simp only [moneyToMinor] at h
    split at h
    · cases h
    · rename_i hq
      cases h
      exact abs_halfAway_le (not_lt.mp hq)
  | nonFinite | unreadable => cases h

/-- An amount in the limit is read back as it was written. -/
theorem moneyToMinor_ofMinor (h : |m| ≤ moneyLimit) : moneyToMinor (.ofMinor m) = some m := by
  have hm : (m / 100 : ℚ) * 100 = m := by ring
  have hle : ¬ (moneyLimit : ℚ) < |(m : ℚ)| := by
    rw [not_lt]
    exact_mod_cast h
  simp only [moneyToMinor, Number.ofMinor, hm, if_neg hle, halfAway_intCast]

theorem moneyToMinor_ofMinor_eq (h : moneyToMinor (.ofMinor m) = some n) : n = m := by
  by_cases hm : |m| ≤ moneyLimit
  · rw [moneyToMinor_ofMinor hm] at h
    exact (Option.some.inj h).symm
  · have hscale : (m / 100 : ℚ) * 100 = m := by ring
    have hlt : (moneyLimit : ℚ) < |(m : ℚ)| := by exact_mod_cast not_le.mp hm
    simp [moneyToMinor, Number.ofMinor, hscale, hlt] at h

theorem roundedRate_eq_some (h : roundedRate q = some r) :
    ∃ n : ℤ, r = n / 10 ^ 6 ∧ |n| < 10 ^ 28 := by
  unfold roundedRate quantize at h
  simp only at h
  split at h
  · cases h
  · rename_i hn
    cases h
    exact ⟨_, rfl, not_le.mp hn⟩

theorem roundedRate_idem (h : roundedRate q = some r) : roundedRate r = some r := by
  obtain ⟨n, rfl, hn⟩ := roundedRate_eq_some h
  have hscale : (n / 10 ^ 6 : ℚ) * 10 ^ 6 = n := by ring
  simp only [roundedRate, quantize, hscale, halfAway_intCast, if_neg (not_le.mpr hn),
    Option.map_some]

/-! ### Lines that were accepted -/

/-- The rate is positive, and at this rate the amount is still the base amount, up to one minor
unit. -/
def ForeignPart.agrees (f : ForeignPart) (base : ℤ) : Bool :=
  decide (0 < f.rate) && (expectedBase f.amount f.rate).any fun e => |e - base| ≤ 1

/-- The amounts of a line that was accepted. -/
structure PostedLine.Normal (p : PostedLine) : Prop where
  debit : |p.debit| ≤ moneyLimit
  credit : |p.credit| ≤ moneyLimit
  nonneg : 0 ≤ p.debit ∧ 0 ≤ p.credit
  oneSide : ¬ (0 < p.debit ↔ 0 < p.credit)
  amount : ∀ f ∈ p.foreign, |f.amount| ≤ moneyLimit
  rate : ∀ f ∈ p.foreign, roundedRate f.rate = some f.rate

def PostedLine.base (p : PostedLine) : ℤ := baseOf (p.debit, p.credit)

def PostedLine.agrees (p : PostedLine) : Bool := p.foreign.all fun f => f.agrees p.base

variable {l : RawLine}

theorem readSides_ok {s : ℤ × ℤ} (h : readSides l = .ok s) :
    |s.1| ≤ moneyLimit ∧ |s.2| ≤ moneyLimit ∧ (0 ≤ s.1 ∧ 0 ≤ s.2) ∧ ¬ (0 < s.1 ↔ 0 < s.2) := by
  unfold readSides at h
  cases hd : moneyToMinor l.debit with
  | none =>
    rw [hd] at h
    cases h
  | some debit =>
    cases hc : moneyToMinor l.credit with
    | none =>
      rw [hd, hc] at h
      cases h
    | some credit =>
      rw [hd, hc] at h
      simp only at h
      split_ifs at h with hneg hxor
      cases h
      rw [not_or, not_lt, not_lt] at hneg
      exact ⟨moneyToMinor_le hd, moneyToMinor_le hc, hneg, hxor⟩

theorem readSides_ofMinor {debit credit : ℤ} (hd : |debit| ≤ moneyLimit)
    (hc : |credit| ≤ moneyLimit) (hn : 0 ≤ debit ∧ 0 ≤ credit) (hx : ¬ (0 < debit ↔ 0 < credit))
    (hld : l.debit = .ofMinor debit) (hlc : l.credit = .ofMinor credit) :
    readSides l = .ok (debit, credit) := by
  have hneg : ¬ (debit < 0 ∨ credit < 0) := by omega
  simp only [readSides, hld, hlc, moneyToMinor_ofMinor hd, moneyToMinor_ofMinor hc, if_neg hneg,
    if_neg hx]

variable {f : ForeignPart}

theorem convert_ok {amount : ℤ} {rate : ℚ} {base : ℤ} (h : convert code amount rate base = .ok f) :
    f.currency = code ∧ f.amount = amount ∧ roundedRate rate = some f.rate := by
  unfold convert at h
  cases hr : roundedRate rate with
  | none =>
    rw [hr] at h
    cases h
  | some r =>
    cases he : expectedBase amount rate with
    | none =>
      rw [hr, he] at h
      cases h
    | some e =>
      rw [hr, he] at h
      simp only at h
      split at h
      · cases h
      · cases h
        exact ⟨rfl, rfl, rfl⟩

/-- The line has the fields of a currency, and its amount and its rate as given. -/
structure ReadsForeign (l : RawLine) (f : ForeignPart) (rate : ℚ) : Prop where
  currency : ∃ spelling, l.currency = some (.foreign f.currency spelling)
  amount : moneyToMinor l.foreignAmount = some f.amount
  given : l.exchangeRate = .decimal rate
  rounded : roundedRate rate = some f.rate

theorem readForeign_ok {base : ℤ} (h : readForeign code l base = .ok f) :
    f.currency = code ∧ ∃ rate, moneyToMinor l.foreignAmount = some f.amount ∧
      l.exchangeRate = .decimal rate ∧ roundedRate rate = some f.rate := by
  unfold readForeign at h
  split at h
  · cases h
  · cases hm : moneyToMinor l.foreignAmount with
    | none =>
      rw [hm] at h
      cases h
    | some amount =>
      cases hr : l.exchangeRate with
      | decimal q =>
        rw [hm, hr] at h
        simp only [readRate] at h
        split at h
        · cases h
        · rename_i rate hrate
          split at hrate
          · cases hrate
          · cases hrate
            obtain ⟨hc, ha, hround⟩ := convert_ok h
            exact ⟨hc, q, by rw [ha], rfl, hround⟩
      | absent | empty | nonFinite | unreadable =>
        rw [hm, hr] at h
        cases h

theorem readCurrency_some {base : ℤ} (h : readCurrency l base = .ok (some f)) :
    ∃ rate, ReadsForeign l f rate := by
  unfold readCurrency at h
  split at h
  · split at h <;> cases h
  · split at h <;> cases h
  · cases h
  · cases h
  · rename_i code spelling hcur
    cases hf : readForeign code l base with
    | error e =>
      rw [hf] at h
      cases h
    | ok g =>
      rw [hf] at h
      cases h
      obtain ⟨hc, rate, hm, hr, hround⟩ := readForeign_ok hf
      exact ⟨rate, ⟨spelling, hc ▸ hcur⟩, hm, hr, hround⟩

def RawLine.rateAgrees (l : RawLine) : Bool :=
  match l.currency, moneyToMinor l.foreignAmount, l.exchangeRate, readSides l with
  | some (.foreign code _), some amount, .decimal rate, .ok sides =>
    (roundedRate rate).any fun r => (ForeignPart.mk code amount r).agrees (baseOf sides)
  | _, _, _, _ => true

variable {p : PostedLine}

theorem normalizeLine_fields (h : normalizeLine index l = .ok p) :
    p.lineNo = index ∧ stripped l.accountCode = some p.accountCode ∧
      readSides l = .ok (p.debit, p.credit) ∧ readCurrency l p.base = .ok p.foreign := by
  unfold normalizeLine at h
  cases hc : stripped l.accountCode with
  | none =>
    rw [hc] at h
    cases h
  | some code =>
    cases hs : readSides l with
    | error e =>
      rw [hc, hs] at h
      cases h
    | ok sides =>
      cases hf : readCurrency l (baseOf sides) with
      | error e =>
        simp only [hc, hs, hf] at h
        cases h
      | ok foreign =>
        simp only [hc, hs, hf] at h
        cases h
        exact ⟨rfl, rfl, rfl, hf⟩

theorem readCurrency_none {base : ℤ} (h : readCurrency l base = .ok none) (code spelling : ℕ) :
    l.currency ≠ some (.foreign code spelling) := by
  intro hcur
  simp only [readCurrency, hcur] at h
  split at h <;> cases h

theorem normalizeLine_ok (h : normalizeLine index l = .ok p) :
    p.Normal ∧ p.lineNo = index ∧ p.agrees = l.rateAgrees := by
  obtain ⟨hno, -, hs, hcur⟩ := normalizeLine_fields h
  obtain ⟨hd, hc, hn, hx⟩ := readSides_ok hs
  cases hf : p.foreign with
  | none =>
    rw [hf] at hcur
    refine ⟨⟨hd, hc, hn, hx, by simp [hf], by simp [hf]⟩, hno, ?_⟩
    unfold RawLine.rateAgrees
    split
    · rename_i hforeign _ _ _
      exact absurd hforeign (readCurrency_none hcur _ _)
    · simp [PostedLine.agrees, hf]
  | some f =>
    rw [hf] at hcur
    obtain ⟨rate, ⟨spelling, hcode⟩, hm, hr, hround⟩ := readCurrency_some hcur
    refine ⟨⟨hd, hc, hn, hx, ?_, ?_⟩, hno, ?_⟩
    · intro g hg
      obtain rfl := Option.some.inj (hf.symm.trans hg)
      exact moneyToMinor_le hm
    · intro g hg
      obtain rfl := Option.some.inj (hf.symm.trans hg)
      exact roundedRate_idem hround
    · simp only [PostedLine.agrees, hf, Option.all_some, RawLine.rateAgrees, hcode, hm, hr, hs,
        hround, Option.any_some]
      rfl

/-! ### Lines that are read again -/

theorem convert_agrees {base : ℤ} (hr : roundedRate f.rate = some f.rate) :
    convert f.currency f.amount f.rate base = .ok f ↔
      (expectedBase f.amount f.rate).any (fun e => |e - base| ≤ 1) = true := by
  unfold convert
  rw [hr]
  cases he : expectedBase f.amount f.rate with
  | none => simp
  | some e =>
    simp only [Option.any_some, decide_eq_true_eq]
    split
    · rename_i hlt
      simp only [reduceCtorEq, false_iff, not_le]
      exact hlt
    · rename_i hle
      simp only [true_iff]
      exact not_lt.mp hle

/-- A returned line with a currency is read again as it is, if its rate still fits, and is
refused otherwise. -/
theorem readForeign_raw (hp : p.Normal) (hf : p.foreign = some f) (base : ℤ) :
    (readForeign f.currency p.raw base = .ok f ↔ f.agrees base = true) ∧
      ∀ g, readForeign f.currency p.raw base = .ok g → g = f := by
  have hamount : moneyToMinor p.raw.foreignAmount = some f.amount := by
    simp only [PostedLine.raw, hf, Option.elim_some]
    exact moneyToMinor_ofMinor (hp.amount f hf)
  have hrate : p.raw.exchangeRate = .decimal f.rate := by
    simp only [PostedLine.raw, hf, Option.elim_some]
  have hgiven : ¬ (p.raw.foreignAmount = .absent ∨ p.raw.exchangeRate = .absent) := by
    simp [PostedLine.raw, hf, Number.ofMinor]
  have hround := hp.rate f hf
  have hread : readForeign f.currency p.raw base =
      if f.rate ≤ 0 then .error .ratePositive
      else convert f.currency f.amount f.rate base := by
    unfold readForeign
    rw [if_neg hgiven, hamount, hrate]
    simp only [readRate]
    split_ifs <;> rfl
  rw [hread]
  by_cases hpos : f.rate ≤ 0
  · simp [hpos, ForeignPart.agrees, not_lt.mpr hpos]
  · rw [if_neg hpos]
    constructor
    · rw [convert_agrees hround]
      simp [ForeignPart.agrees, not_le.mp hpos]
    · intro g hg
      obtain ⟨hc, ha, hr⟩ := convert_ok hg
      rw [hround] at hr
      exact ForeignPart.ext hc ha (Option.some.inj hr).symm

/-- A returned line is accepted again exactly when its rate still fits, and it is returned as it
is, under its number. -/
theorem normalizeLine_raw (hp : p.Normal) (index : ℕ) :
    (p.agrees = true → normalizeLine index p.raw = .ok { p with lineNo := index }) ∧
      ((∃ q, normalizeLine index p.raw = .ok q) → p.agrees = true) := by
  have hcode : stripped p.raw.accountCode = some p.accountCode := rfl
  have hsides : readSides p.raw = .ok (p.debit, p.credit) :=
    readSides_ofMinor hp.debit hp.credit hp.nonneg hp.oneSide rfl rfl
  have hname : stripped p.raw.accountName = p.accountName := by
    simp only [stripped, PostedLine.raw]
    cases p.accountName <;> rfl
  have hmemo : stripped p.raw.memo = p.memo := by
    simp only [stripped, PostedLine.raw]
    cases p.memo <;> rfl
  cases hf : p.foreign with
  | none =>
    have hcur : readCurrency p.raw (baseOf (p.debit, p.credit)) = .ok none := by
      simp [readCurrency, PostedLine.raw, hf]
    refine ⟨fun _ => ?_, fun _ => by simp [PostedLine.agrees, hf]⟩
    simp only [normalizeLine, hcode, hsides, hcur, hname, hmemo, ← hf]
  | some f =>
    have hcur : p.raw.currency = some (.foreign f.currency 0) := by
      simp [PostedLine.raw, hf]
    obtain ⟨hiff, honly⟩ := readForeign_raw hp hf p.base
    have hagrees : p.agrees = f.agrees p.base := by simp [PostedLine.agrees, hf]
    rw [hagrees, ← hiff]
    constructor
    · intro h
      simp only [PostedLine.base] at h
      simp only [normalizeLine, hcode, hsides, readCurrency, hcur, h, hname, hmemo, ← hf]
    · rintro ⟨q, hq⟩
      cases hread : readForeign f.currency p.raw p.base with
      | error e =>
        simp only [PostedLine.base] at hread
        simp only [normalizeLine, hcode, hsides, readCurrency, hcur, hread] at hq
        cases hq
      | ok g => rw [honly g hread]

/-- The exchange of debit and credit changes neither the bounds nor the fit of the rate. -/
theorem PostedLine.Normal.swap (hp : p.Normal) : p.swap.Normal where
  debit := hp.credit
  credit := hp.debit
  nonneg := hp.nonneg.symm
  oneSide h := hp.oneSide h.symm
  amount := hp.amount
  rate := hp.rate

theorem PostedLine.Normal.agrees_swap (hp : p.Normal) : p.swap.agrees = p.agrees := by
  have hbase : p.swap.base = p.base := by
    have hn := hp.nonneg
    have hx := hp.oneSide
    simp only [PostedLine.base, PostedLine.swap, baseOf]
    split_ifs <;> omega
  simp only [PostedLine.agrees, hbase]
  rfl

/-! ### The loop -/

variable {lines : List RawLine} {out : List PostedLine}

theorem normalizeFrom_cons (h : normalizeFrom index (l :: lines) = .ok out) :
    ∃ p ps, normalizeLine index l = .ok p ∧ normalizeFrom (index + 1) lines = .ok ps ∧
      out = p :: ps := by
  simp only [normalizeFrom] at h
  split at h
  · cases h
  · rename_i p hp
    split at h
    · cases h
    · rename_i ps hps
      cases h
      exact ⟨p, ps, hp, hps, rfl⟩

theorem normalizeFrom_ok (h : normalizeFrom index lines = .ok out) : (∀ p ∈ out, p.Normal) ∧
      ((∀ p ∈ out, p.agrees = true) ↔ ∀ l ∈ lines, l.rateAgrees = true) := by
  induction lines generalizing index out with
  | nil =>
    cases h
    simp
  | cons l lines ih =>
    obtain ⟨p, ps, hp, hps, rfl⟩ := normalizeFrom_cons h
    obtain ⟨hnormal, -, hagrees⟩ := normalizeLine_ok hp
    obtain ⟨hall, hiff⟩ := ih hps
    simp only [forall_mem_cons, hagrees, hiff, and_true]
    exact ⟨hnormal, hall⟩

theorem normalizeFrom_numbered (h : normalizeFrom index lines = .ok out) :
    ∀ k p, out[k]? = some p → p.lineNo = index + k := by
  induction lines generalizing index out with
  | nil =>
    cases h
    intro k p hk
    cases hk
  | cons l lines ih =>
    obtain ⟨p, ps, hp, hps, rfl⟩ := normalizeFrom_cons h
    intro k q hk
    cases k with
    | zero =>
      cases hk
      exact (normalizeLine_ok hp).2.1
    | succ k =>
      rw [ih hps k q hk]
      omega

/-- Lines whose rates fit are read again as they are. -/
theorem normalizeFrom_raw (hn : ∀ p ∈ out, p.Normal) (ha : ∀ p ∈ out, p.agrees = true)
    (hno : ∀ k p, out[k]? = some p → p.lineNo = index + k) :
    normalizeFrom index (out.map PostedLine.raw) = .ok out := by
  induction out generalizing index with
  | nil => rfl
  | cons p ps ih =>
    have hp := (normalizeLine_raw (hn p mem_cons_self) index).1 (ha p mem_cons_self)
    have hself : { p with lineNo := index } = p := by
      have hfirst := hno 0 p rfl
      rw [Nat.add_zero] at hfirst
      rw [← hfirst]
    have hps : normalizeFrom (index + 1) (ps.map PostedLine.raw) = .ok ps := by
      apply ih
      · exact fun q hq => hn q (mem_cons_of_mem _ hq)
      · exact fun q hq => ha q (mem_cons_of_mem _ hq)
      · intro k q hk
        rw [hno (k + 1) q hk]
        omega
    simp only [map_cons, normalizeFrom, hp, hps, hself]

/-- Lines that are read again without an error have rates that fit. -/
theorem agrees_of_normalizeFrom_raw {out' : List PostedLine} (hn : ∀ p ∈ out, p.Normal)
    (h : normalizeFrom index (out.map PostedLine.raw) = .ok out') : ∀ p ∈ out, p.agrees = true := by
  induction out generalizing index out' with
  | nil => simp
  | cons p ps ih =>
    obtain ⟨q, qs, hq, hqs, -⟩ := normalizeFrom_cons h
    rw [forall_mem_cons]
    exact ⟨(normalizeLine_raw (hn p mem_cons_self) index).2 ⟨q, hq⟩,
      ih (fun r hr => hn r (mem_cons_of_mem _ hr)) hqs⟩

/-! ### Lines that are accepted again -/

theorem normalizeJournalLines_ok : normalizeJournalLines lines = .ok out ↔
      normalizeFrom 0 lines = .ok out ∧ 0 < debitOf out ∧ debitOf out = creditOf out := by
  unfold normalizeJournalLines
  by_cases hl : lines = []
  · rw [if_pos hl, hl]
    constructor
    · intro h
      cases h
    · rintro ⟨h, hpos, -⟩
      cases h
      simp [debitOf] at hpos
  · rw [if_neg hl]
    cases hf : normalizeFrom 0 lines with
    | error e => simp
    | ok out' =>
      simp only [checkTotals, Except.ok.injEq]
      split_ifs with hzero hne
      · simp only [false_iff, not_and]
        rintro rfl hpos
        omega
      · simp only [false_iff, not_and]
        rintro rfl - heq
        exact hne heq
      · simp only [Except.ok.injEq]
        constructor
        · rintro rfl
          exact ⟨rfl, by omega, not_not.mp hne⟩
        · exact fun h => h.1

/-- The lines that are returned are accepted again and returned as they are, and they are
accepted with debit and credit exchanged. -/
def Stable (lines : List RawLine) : Prop :=
  ∀ out, normalizeJournalLines lines = .ok out →
    normalizeJournalLines (out.map PostedLine.raw) = .ok out ∧
      ∃ out', normalizeJournalLines (out.map fun p => p.swap.raw) = .ok out'

/-- Lines whose rates fit stay accepted, on both sides. -/
theorem stable_of_agrees (h : normalizeJournalLines lines = .ok out)
    (ha : ∀ p ∈ out, p.agrees = true) : normalizeJournalLines (out.map PostedLine.raw) = .ok out ∧
      normalizeJournalLines (out.map fun p => p.swap.raw) = .ok (out.map PostedLine.swap) := by
  obtain ⟨hf, hpos, heq⟩ := normalizeJournalLines_ok.mp h
  have hn := (normalizeFrom_ok hf).1
  have hno := normalizeFrom_numbered hf
  have hdebit : debitOf (out.map PostedLine.swap) = creditOf out := by
    simp only [debitOf, creditOf, map_map]
    rfl
  have hcredit : creditOf (out.map PostedLine.swap) = debitOf out := by
    simp only [debitOf, creditOf, map_map]
    rfl
  have hswap : normalizeFrom 0 ((out.map PostedLine.swap).map PostedLine.raw) =
      .ok (out.map PostedLine.swap) := by
    apply normalizeFrom_raw
    · intro q hq
      obtain ⟨p, hp, rfl⟩ := mem_map.mp hq
      exact (hn p hp).swap
    · intro q hq
      obtain ⟨p, hp, rfl⟩ := mem_map.mp hq
      rw [(hn p hp).agrees_swap]
      exact ha p hp
    · intro k q hk
      rw [getElem?_map] at hk
      obtain ⟨p, hp, rfl⟩ := Option.map_eq_some_iff.mp hk
      exact hno k p hp
  rw [map_map] at hswap
  refine ⟨normalizeJournalLines_ok.mpr ⟨normalizeFrom_raw hn ha hno, hpos, heq⟩, ?_⟩
  exact normalizeJournalLines_ok.mpr ⟨hswap, by rw [hdebit]; omega, by rw [hdebit, hcredit, heq]⟩

/-- Normalisation is stable exactly on the lines whose rates, rounded to six digits, are positive
and still fit the amounts, up to one minor unit. -/
theorem stable_iff (lines : List RawLine) :
    Stable lines ↔
      ((∃ out, normalizeJournalLines lines = .ok out) → ∀ l ∈ lines, l.rateAgrees = true) := by
  constructor
  · rintro h ⟨out, hout⟩
    obtain ⟨hf, -, -⟩ := normalizeJournalLines_ok.mp hout
    obtain ⟨hn, hiff⟩ := normalizeFrom_ok hf
    obtain ⟨hraw, -, -⟩ := normalizeJournalLines_ok.mp (h out hout).1
    exact hiff.mp (agrees_of_normalizeFrom_raw hn hraw)
  · intro h out hout
    obtain ⟨hf, -, -⟩ := normalizeJournalLines_ok.mp hout
    have ha := (normalizeFrom_ok hf).2.mpr (h ⟨out, hout⟩)
    obtain ⟨hraw, hswap⟩ := stable_of_agrees hout ha
    exact ⟨hraw, _, hswap⟩

/-- A million at the rate 1.0000004: the lines are accepted, and the rate is stored as one. -/
theorem not_stable_roundedRate : ¬ Stable
    [{ accountCode := some (.of 100), debit := .decimal (10000004 / 10),
       currency := some (.foreign 840 0), foreignAmount := .decimal 1000000,
       exchangeRate := .decimal (10000004 / 10000000) },
     { accountCode := some (.of 600), credit := .decimal (10000004 / 10) }] := by
  intro h
  have hagain := (h [⟨0, 100, none, 100000040, 0, none, some ⟨840, 100000000, 1⟩⟩,
    ⟨1, 600, none, 0, 100000040, none, none⟩] (by decide +kernel)).1
  revert hagain
  decide +kernel

end SyrocePms.Ledger.Foreign
