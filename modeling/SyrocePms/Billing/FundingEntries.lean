import SyrocePms.Billing.Folios
import SyrocePms.Ledger.Journal
import SyrocePms.Lib.Decimal

/-! Journal entries with lines in a foreign currency, and the shares of an amount in lira that
settlement instruments take of them. Quotients and products are decimals of 28 digits. -/

namespace SyrocePms.Billing

open Lib Lib.Decimal List

variable {c c' : Currency} {account : ℕ} {n : ℤ}

inductive EntryId where
  | posted (n : ℕ)
  | settlement (requestId : ℕ)
  deriving DecidableEq

/-- The native amount of a line, and its rate in millionths. -/
structure Foreign where
  currency : Currency
  amount : ℤ
  rate : ℤ
  deriving DecidableEq

structure GlLine where
  account : ℕ
  debit : ℤ := 0
  credit : ℤ := 0
  foreign : Option Foreign := none
  deriving DecidableEq

inductive GlRefusal where
  | posting (e : Ledger.PostingError)
  | foreignLira (line : ℕ)
  | rateNotPositive (line : ℕ)
  | foreignMismatch (line : ℕ)

def base (amount : ℤ) (rate : ℚ) : ℤ := halfUp (digits 28 (amount * rate))

def rateValue (rate : ℤ) : ℚ := rate / 1000000

variable {x : GlLine}

namespace GlLine

def plain (x : GlLine) : Ledger.Line := ⟨x.account, x.debit, x.credit, .text 0⟩

/-- The checks of the native amount. -/
def foreignError (index : ℕ) (x : GlLine) : Option GlRefusal :=
  match x.foreign with
  | none => none
  | some f =>
    if f.currency = .TRY then some (.foreignLira index)
    else if f.rate ≤ 0 then some (.rateNotPositive index)
    else if 1 < |base f.amount (rateValue f.rate) - (if x.debit ≠ 0 then x.debit else x.credit)| then
      some (.foreignMismatch index)
    else none

def lineError (index : ℕ) (x : GlLine) : Option GlRefusal :=
  match Ledger.lineError index x.plain with
  | some e => some (.posting e)
  | none => x.foreignError index

def inCurrency (c : Currency) (x : GlLine) : Bool :=
  match x.foreign with
  | none => c == .TRY
  | some f => c != .TRY && f.currency == c && f.amount != 0

def native (x : GlLine) : ℤ :=
  match x.foreign with
  | none => x.credit
  | some f => f.amount

theorem inCurrency_unique (h : x.inCurrency c = true) (h' : x.inCurrency c' = true) : c = c' := by
  unfold inCurrency at h h'
  split at h <;> simp_all

theorem native_of_lira (h : x.inCurrency .TRY = true) : x.native = x.credit := by
  unfold inCurrency at h
  unfold native
  split at h <;> simp_all

def swapped (x : GlLine) : GlLine := { x with debit := x.credit, credit := x.debit }

end GlLine

structure GlLines where
  lines : List GlLine
  nonneg : ∀ x ∈ lines, 0 ≤ x.credit
  limit : (lines.map GlLine.credit).sum ≤ Ledger.moneyLimit
  deriving DecidableEq

theorem GlLine.credit_nonneg {index : ℕ} (h : x.lineError index = none) : 0 ≤ x.credit := by
  unfold lineError at h
  split at h
  · cases h
  · rename_i hplain
    unfold Ledger.lineError at hplain
    split_ifs at hplain with _ _ hneg
    exact not_lt.mp fun hlt => hneg (.inr hlt)

theorem credit_nonneg_of_findSome? {lines : List GlLine}
    (h : (lines.zipIdx.findSome? fun x => x.1.lineError x.2) = none) :
    ∀ x ∈ lines, 0 ≤ x.credit := by
  intro x hx
  obtain ⟨n, hn, rfl⟩ := mem_iff_getElem.mp hx
  have hzip : (lines[n], n) ∈ lines.zipIdx := mem_zipIdx_iff_getElem?.mpr (by simp [hn])
  exact GlLine.credit_nonneg (findSome?_eq_none_iff.mp h _ hzip)

def normalizeLines (lines : List GlLine) : Except GlRefusal GlLines :=
  if lines = [] then .error (.posting .noLines)
  else
    match h : lines.zipIdx.findSome? fun x => x.1.lineError x.2 with
    | some e => .error e
    | none =>
      let debit := (lines.map GlLine.debit).sum
      let credit := (lines.map GlLine.credit).sum
      if debit ≤ 0 then .error (.posting .zeroTotal)
      else if debit ≠ credit then .error (.posting (.unbalanced debit credit))
      else if hl : credit ≤ Ledger.moneyLimit then .ok ⟨lines, credit_nonneg_of_findSome? h, hl⟩
      else .error (.posting .amountLimit)

/-- A row of `gl_journal_entries`. `sealed` says that its hash verifies, and `reversed` is the
annotation of a reversal. -/
structure GlEntry where
  id : EntryId
  lines : GlLines
  posted : Bool := true
  sealed : Bool := true
  reverses : Option EntryId := none
  reversed : Bool := false

variable {e : GlEntry}

namespace GlEntry

def linesOn (e : GlEntry) (account : ℕ) : List GlLine :=
  e.lines.lines.filter fun x => x.account == account

def creditOn (e : GlEntry) (account : ℕ) : ℤ := ((e.linesOn account).map GlLine.credit).sum

def nominalIn (e : GlEntry) (account : ℕ) (c : Currency) : Option ℤ :=
  if (e.linesOn account).all (GlLine.inCurrency c) then
    some ((e.linesOn account).map GlLine.native).sum
  else none

theorem creditOn_nonneg (e : GlEntry) (account : ℕ) : 0 ≤ e.creditOn account := by
  refine sum_nonneg fun c hc => ?_
  obtain ⟨x, hx, rfl⟩ := mem_map.mp hc
  exact e.lines.nonneg x (mem_of_mem_filter hx)

theorem creditOn_le (e : GlEntry) (account : ℕ) : e.creditOn account ≤ Ledger.moneyLimit := by
  refine le_trans ?_ e.lines.limit
  refine (filter_sublist.map GlLine.credit).sum_le_sum fun c hc => ?_
  obtain ⟨x, hx, rfl⟩ := mem_map.mp hc
  exact e.lines.nonneg x hx

theorem nominalIn_eq_some :
    e.nominalIn account c = some n ↔ (∀ x ∈ e.linesOn account, x.inCurrency c = true) ∧
      ((e.linesOn account).map GlLine.native).sum = n := by
  simp [nominalIn]

/-- Lines that fund a positive amount are of one currency. -/
theorem nominalIn_unique {n' : ℤ} (hn : 0 < n) (h : e.nominalIn account c = some n)
    (h' : e.nominalIn account c' = some n') : c = c' := by
  obtain ⟨hall, rfl⟩ := nominalIn_eq_some.mp h
  obtain ⟨hall', -⟩ := nominalIn_eq_some.mp h'
  have hne : e.linesOn account ≠ [] := by
    intro hnil
    simp [hnil] at hn
  obtain ⟨x, hx⟩ := exists_mem_of_ne_nil _ hne
  exact GlLine.inCurrency_unique (hall x hx) (hall' x hx)

theorem nominalIn_lira (h : e.nominalIn account .TRY = some n) : n = e.creditOn account := by
  obtain ⟨hall, rfl⟩ := nominalIn_eq_some.mp h
  exact congrArg List.sum (map_congr_left fun x hx => GlLine.native_of_lira (hall x hx))

end GlEntry

/-! ### Shares -/

def cumulativeBase (allocated credit nominal : ℤ) : ℤ :=
  halfUp (digits 28 (digits 28 (allocated * credit) / nominal))

def partBase (amount remainingBase remaining : ℤ) : ℤ :=
  base amount (digits 28 (remainingBase / remaining))

def sourceRate (source amount : ℤ) : ℤ := halfUp (digits 28 (source / amount) * 1000000)

theorem epsilon_small : epsilon 28 ≤ 1 / 10 ^ 27 := by
  norm_num [epsilon]

/-- Below the limit of an entry, 28 digits leave the result within a quarter. -/
theorem three_epsilon_lt {x : ℚ} (hx : x ≤ Ledger.moneyLimit) : 3 * epsilon 28 * x < 1 / 4 := by
  have hlimit : x ≤ 10 ^ 17 := hx.trans (by norm_num [Ledger.moneyLimit])
  have hpos := epsilon_pos 28
  have := epsilon_small
  nlinarith

theorem mul_div_le {a r : ℤ} (ha : a ≤ n) (hn : 0 < n) (hr : 0 ≤ r) : (a : ℚ) * (r / n) ≤ r := by
  have hn' : (0 : ℚ) < n := by exact_mod_cast hn
  have hr' : (0 : ℚ) ≤ r := by exact_mod_cast hr
  have ha' : (a : ℚ) ≤ n := by exact_mod_cast ha
  calc (a : ℚ) * (r / n) ≤ n * (r / n) := by gcongr
    _ = r := mul_div_cancel₀ _ hn'.ne'

section Part

variable {a r n : ℤ}

theorem partBase_error (ha : 0 ≤ a) (han : a ≤ n) (hn : 0 < n) (hr : 0 ≤ r)
    (hlimit : r ≤ Ledger.moneyLimit) :
    |digits 28 (a * digits 28 (r / n)) - a * (r / n)| < 1 / 4 := by
  have ha' : (0 : ℚ) ≤ a := by exact_mod_cast ha
  have hquot : (0 : ℚ) ≤ r / n := by
    have : (0 : ℚ) < n := by exact_mod_cast hn
    have : (0 : ℚ) ≤ r := by exact_mod_cast hr
    positivity
  have hε : epsilon 28 ≤ 1 := epsilon_small.trans (by norm_num)
  refine lt_of_le_of_lt (digits_mul_digits_error hε ha' hquot) (three_epsilon_lt ?_)
  exact (mul_div_le han hn hr).trans (by exact_mod_cast hlimit)

theorem partBase_le (ha : 0 ≤ a) (han : a ≤ n) (hn : 0 < n) (hr : 0 ≤ r)
    (hlimit : r ≤ Ledger.moneyLimit) : partBase a r n ≤ r := by
  have herr := (abs_lt.mp (partBase_error ha han hn hr hlimit)).2
  have := mul_div_le han hn hr
  exact halfUp_le (by linarith)

/-- At a rate of one and more a part takes its own amount at least. -/
theorem le_partBase (ha : 0 ≤ a) (han : a ≤ n) (hn : 0 < n) (hnr : n ≤ r)
    (hlimit : r ≤ Ledger.moneyLimit) : a ≤ partBase a r n := by
  have herr := (abs_lt.mp (partBase_error ha han hn (hn.le.trans hnr) hlimit)).1
  have hle : (a : ℚ) ≤ a * (r / n) := by
    have hn' : (0 : ℚ) < n := by exact_mod_cast hn
    have ha' : (0 : ℚ) ≤ a := by exact_mod_cast ha
    have hnr' : (n : ℚ) ≤ r := by exact_mod_cast hnr
    exact le_mul_of_one_le_right ha' ((one_le_div₀ hn').mpr hnr')
  exact le_halfUp (by linarith)

/-- At a rate of one and more a part leaves the rest its own amount at least. -/
theorem partBase_le_sub (ha : 0 ≤ a) (han : a ≤ n) (hn : 0 < n) (hnr : n ≤ r)
    (hlimit : r ≤ Ledger.moneyLimit) : partBase a r n ≤ r - (n - a) := by
  have herr := (abs_lt.mp (partBase_error ha han hn (hn.le.trans hnr) hlimit)).2
  have hle : (a : ℚ) * (r / n) ≤ r - (n - a) := by
    have hn' : (0 : ℚ) < n := by exact_mod_cast hn
    have han' : (0 : ℚ) ≤ n - a := by exact_mod_cast sub_nonneg.mpr han
    have hnr' : (n : ℚ) ≤ r := by exact_mod_cast hnr
    have hrest : (n - a : ℚ) ≤ (n - a) * (r / n) :=
      le_mul_of_one_le_right han' ((one_le_div₀ hn').mpr hnr')
    have hall : (n : ℚ) * (r / n) = r := mul_div_cancel₀ _ hn'.ne'
    linarith
  exact halfUp_le (by push_cast; linarith)

end Part

section Cumulative

variable {m c n : ℤ}

theorem cumulativeBase_error (hm : 0 ≤ m) (hmn : m ≤ n) (hn : 0 < n) (hc : 0 ≤ c)
    (hlimit : c ≤ Ledger.moneyLimit) :
    |digits 28 (digits 28 (m * c) / n) - m * (c / n)| < 1 / 4 := by
  have hn' : (0 : ℚ) < n := by exact_mod_cast hn
  have hmc : (0 : ℚ) ≤ m * c := by exact_mod_cast mul_nonneg hm hc
  have hinv : (0 : ℚ) ≤ (n : ℚ)⁻¹ := inv_nonneg.mpr hn'.le
  have hε : epsilon 28 ≤ 1 := epsilon_small.trans (by norm_num)
  have hshare : (n : ℚ)⁻¹ * (m * c) = m * (c / n) := by
    field_simp
  have h := digits_mul_digits_error hε hinv hmc
  rw [hshare] at h
  rw [div_eq_inv_mul (digits 28 _)]
  refine lt_of_le_of_lt h (three_epsilon_lt ?_)
  exact (mul_div_le hmn hn hc).trans (by exact_mod_cast hlimit)

theorem cumulativeBase_le (hm : 0 ≤ m) (hmn : m ≤ n) (hn : 0 < n) (hc : 0 ≤ c)
    (hlimit : c ≤ Ledger.moneyLimit) : cumulativeBase m c n ≤ c := by
  have herr := (abs_lt.mp (cumulativeBase_error hm hmn hn hc hlimit)).2
  have := mul_div_le hmn hn hc
  exact halfUp_le (by linarith)

/-- A share that is a whole number is taken exactly. -/
theorem cumulativeBase_exact {k : ℤ} (hk : (m : ℚ) * (c / n) = k) (hm : 0 ≤ m) (hmn : m ≤ n)
    (hn : 0 < n) (hc : 0 ≤ c) (hlimit : c ≤ Ledger.moneyLimit) : cumulativeBase m c n = k := by
  obtain ⟨hlo, hhi⟩ := abs_lt.mp (cumulativeBase_error hm hmn hn hc hlimit)
  exact halfUp_eq (by linarith) (by linarith)

/-- The whole nominal takes the whole credit. -/
theorem cumulativeBase_full (hn : 0 < n) (hc : 0 ≤ c) (hlimit : c ≤ Ledger.moneyLimit) :
    cumulativeBase n c n = c := by
  have hn' : (n : ℚ) ≠ 0 := by exact_mod_cast hn.ne'
  exact cumulativeBase_exact (mul_div_cancel₀ _ hn') hn.le le_rfl hn hc hlimit

/-- A credit that is its own nominal is taken one to one. -/
theorem cumulativeBase_self (hm : 0 ≤ m) (hmn : m ≤ n) (hn : 0 < n)
    (hlimit : n ≤ Ledger.moneyLimit) : cumulativeBase m n n = m := by
  have hn' : (n : ℚ) ≠ 0 := by exact_mod_cast hn.ne'
  exact cumulativeBase_exact (by rw [div_self hn', mul_one]) hm hmn hn hn.le hlimit

end Cumulative

section Rate

variable {a b : ℤ}

theorem digits_error_lt {x : ℚ} (hx : 0 ≤ x) (hlimit : x ≤ Ledger.moneyLimit + 1) :
    |digits 28 x - x| < 1 / 100 := by
  have h := digits_error 28 x
  rw [abs_of_nonneg hx] at h
  have hlimit' : x ≤ 10 ^ 17 := hlimit.trans (by norm_num [Ledger.moneyLimit])
  have := epsilon_small
  have := epsilon_pos 28
  nlinarith

/-- At a rate of one an amount stays as it is. -/
theorem base_one (ha : 0 ≤ a) (hlimit : a ≤ Ledger.moneyLimit) : base a 1 = a := by
  have hlimit' : (a : ℚ) ≤ Ledger.moneyLimit + 1 := by exact_mod_cast hlimit.trans (by omega)
  obtain ⟨hlo, hhi⟩ := abs_lt.mp (digits_error_lt (by exact_mod_cast ha) hlimit')
  rw [base, mul_one]
  exact halfUp_eq (by linarith) (by linarith)

theorem sourceRate_error (ha : 0 < a) (hb : 0 ≤ b) :
    |rateValue (sourceRate b a) - b / a| ≤ 1 / 2000000 + epsilon 28 * (b / a) := by
  have ha' : (0 : ℚ) < a := by exact_mod_cast ha
  have hq : (0 : ℚ) ≤ b / a := by
    have : (0 : ℚ) ≤ b := by exact_mod_cast hb
    positivity
  have hround := halfUp_error (digits 28 (b / a) * 1000000)
  have hdigits := digits_error 28 (b / a : ℚ)
  rw [abs_of_nonneg hq] at hdigits
  rw [rateValue, sourceRate]
  rw [abs_le] at *
  constructor <;> linarith [hround.1, hround.2, hdigits.1, hdigits.2]

theorem sourceRate_pos (ha : 0 < a) (hab : a ≤ b) : 0 < sourceRate b a := by
  have ha' : (0 : ℚ) < a := by exact_mod_cast ha
  have hone : (1 : ℚ) ≤ b / a := (one_le_div₀ ha').mpr (by exact_mod_cast hab)
  have herr := (abs_le.mp (sourceRate_error ha (ha.le.trans hab))).1
  have := epsilon_small
  have hpos : (0 : ℚ) < rateValue (sourceRate b a) := by
    nlinarith
  rw [rateValue] at hpos
  exact_mod_cast (div_pos_iff_of_pos_right (by norm_num)).mp hpos

/-- A rate of six places brings an amount of up to a million units back within one. -/
theorem base_sourceRate (ha : 0 < a) (hsmall : a ≤ 1000000) (hab : a ≤ b)
    (hlimit : b ≤ Ledger.moneyLimit) : |base a (rateValue (sourceRate b a)) - b| ≤ 1 := by
  have ha' : (0 : ℚ) < a := by exact_mod_cast ha
  have hb' : (0 : ℚ) ≤ b := by exact_mod_cast ha.le.trans hab
  have hsmall' : (a : ℚ) ≤ 1000000 := by exact_mod_cast hsmall
  have hlimit' : (b : ℚ) ≤ Ledger.moneyLimit := by exact_mod_cast hlimit
  have hmul : (a : ℚ) * (b / a) = b := mul_div_cancel₀ _ ha'.ne'
  obtain ⟨hlo, hhi⟩ := abs_le.mp (sourceRate_error ha (ha.le.trans hab))
  have htiny : epsilon 28 * b < 1 / 100 := by
    have := three_epsilon_lt hlimit'
    have h17 : (b : ℚ) ≤ 10 ^ 17 := hlimit'.trans (by norm_num [Ledger.moneyLimit])
    have := epsilon_small
    nlinarith [epsilon_pos 28]
  have hdiff : (a : ℚ) * (rateValue (sourceRate b a) - b / a) = a * rateValue (sourceRate b a) - b := by
    rw [mul_sub, hmul]
  have hwidth : (a : ℚ) * (1 / 2000000 + epsilon 28 * (b / a)) = a / 2000000 + epsilon 28 * b := by
    field_simp
  have hupper : (a : ℚ) * rateValue (sourceRate b a) ≤ b + 1 / 2 + 1 / 100 := by
    have := mul_le_mul_of_nonneg_left hhi ha'.le
    linarith
  have hlower : b - 1 / 2 - 1 / 100 ≤ (a : ℚ) * rateValue (sourceRate b a) := by
    have := mul_le_mul_of_nonneg_left hlo ha'.le
    linarith
  have hpos : 0 ≤ (a : ℚ) * rateValue (sourceRate b a) := by
    have : (0 : ℚ) < sourceRate b a := by exact_mod_cast sourceRate_pos ha hab
    unfold rateValue
    positivity
  obtain ⟨hdlo, hdhi⟩ := abs_lt.mp (digits_error_lt hpos (by linarith))
  rw [abs_le]
  constructor
  · have : b - 1 ≤ base a (rateValue (sourceRate b a)) := le_halfUp (by push_cast; linarith)
    linarith
  · have : base a (rateValue (sourceRate b a)) ≤ b + 1 := halfUp_le (by push_cast; linarith)
    linarith

theorem sourceRate_self (ha : 0 < a) : sourceRate a a = 1000000 := by
  have ha' : (a : ℚ) ≠ 0 := by exact_mod_cast ha.ne'
  have herr := digits_error 28 (1 : ℚ)
  rw [abs_one, mul_one] at herr
  have := epsilon_small
  obtain ⟨hlo, hhi⟩ := abs_le.mp herr
  rw [sourceRate, div_self ha']
  exact halfUp_eq (by push_cast; linarith) (by push_cast; linarith)

end Rate

end SyrocePms.Billing
