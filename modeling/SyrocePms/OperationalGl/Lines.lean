import SyrocePms.NightAudit.Pricing

/-! Lines of a journal entry that may be valued from a foreign currency. Amounts are in minor
units, native ones as well as those in TRY; account codes are numbered, and a blank code is
zero. -/

namespace SyrocePms.OperationalGl

open NightAudit (roundHalfUp)

/-- The currencies that a valuation knows, and any other code. `TL` and `TRL` are TRY. -/
inductive Currency
  | chf
  | eur
  | gbp
  | lira
  | usd
  | other (code : ℕ)
  deriving DecidableEq

def Currency.rank : Currency → ℕ
  | .chf => 0
  | .eur => 1
  | .gbp => 2
  | .lira => 3
  | .usd => 4
  | .other n => n + 5

inductive Side
  | debit
  | credit
  deriving DecidableEq

def Side.other : Side → Side
  | .debit => .credit
  | .credit => .debit

/-- `received`, `refund` and `apply` of a security movement. -/
inductive SecurityAction
  | received
  | refund
  | apply
  deriving DecidableEq

inductive LineMemo
  | folioAccrual
  | netRevenue
  | recordedTax
  | accommodationTax
  | collection
  | collectionClosing
  | receiptDifference
  | realisedFx
  | adjustment
  | adjustmentClosing
  | securityLiability
  | security (action : SecurityAction)
  | contra
  | text (n : ℕ)
  deriving DecidableEq

/-- `currency`, `foreign_amount` and `exchange_rate` of a line. -/
structure Foreign where
  currency : Currency
  amount : ℤ
  rate : ℚ
  deriving DecidableEq

structure Line where
  account : ℕ
  debit : ℤ := 0
  credit : ℤ := 0
  memo : LineMemo
  foreign : Option Foreign := none
  deriving DecidableEq

def totalDebit (lines : List Line) : ℤ := (lines.map Line.debit).sum

def totalCredit (lines : List Line) : ℤ := (lines.map Line.credit).sum

inductive PostingError
  | noLines
  | accountRequired (line : ℕ)
  | amountLimit
  | negativeAmount (line : ℕ)
  | debitXorCredit (line : ℕ)
  | foreignLira (line : ℕ)
  | rateNotPositive (line : ℕ)
  | baseMismatch (line : ℕ)
  | zeroTotal
  | unbalanced (debit credit : ℤ)
  | keyReused
  | unknownAccount (code : ℕ)
  | inactiveAccount (code : ℕ)
  | refused

/-- The bound of `_money_to_minor`. -/
def moneyLimit : ℤ := 99999999999999999

def foreignError (index : ℕ) (base : ℤ) (f : Foreign) : Option PostingError :=
  if f.currency = .lira then some (.foreignLira index)
  else if moneyLimit < |f.amount| then some .amountLimit
  else if f.rate ≤ 0 then some (.rateNotPositive index)
  else if 1 < |roundHalfUp (f.amount * f.rate) - base| then some (.baseMismatch index)
  else none

def lineError (index : ℕ) (x : Line) : Option PostingError :=
  if x.account = 0 then some (.accountRequired index)
  else if moneyLimit < |x.debit| ∨ moneyLimit < |x.credit| then some .amountLimit
  else if x.debit < 0 ∨ x.credit < 0 then some (.negativeAmount index)
  else if (0 < x.debit ↔ 0 < x.credit) then some (.debitXorCredit index)
  else x.foreign.bind (foreignError index (if x.debit ≠ 0 then x.debit else x.credit))

/-- `normalize_journal_lines`: the first check that fails. The lines stay as they are. -/
def linesError (lines : List Line) : Option PostingError :=
  if lines = [] then some .noLines
  else
    match lines.zipIdx.findSome? fun x => lineError x.2 x.1 with
    | some e => some e
    | none =>
      if totalDebit lines ≤ 0 then some .zeroTotal
      else if totalDebit lines ≠ totalCredit lines then
        some (.unbalanced (totalDebit lines) (totalCredit lines))
      else none

/-- Lines that `normalize_journal_lines` has accepted. -/
structure JournalLines where
  lines : List Line
  accepted : linesError lines = none
  deriving DecidableEq

def normalizeJournalLines (lines : List Line) : Except PostingError JournalLines :=
  match h : linesError lines with
  | some e => .error e
  | none => .ok ⟨lines, h⟩

theorem normalizeJournalLines_ok {lines : List Line} {x : JournalLines}
    (h : normalizeJournalLines lines = .ok x) : x.lines = lines := by
  unfold normalizeJournalLines at h
  split at h <;> cases h
  rfl

/-! ### What lines move -/

def effect (lines : List Line) (account : ℕ) : ℤ :=
  (lines.map fun x => if x.account = account then x.debit - x.credit else 0).sum

@[simp] theorem effect_nil (account : ℕ) : effect [] account = 0 := rfl

@[simp] theorem effect_append (lines lines' : List Line) (account : ℕ) :
    effect (lines ++ lines') account = effect lines account + effect lines' account := by
  simp [effect]

/-- The line of a contra: debit and credit are swapped, the foreign part is kept. -/
def Line.contra (x : Line) : Line := { x with debit := x.credit, credit := x.debit, memo := .contra }

/-- A contra takes back what its lines have moved. -/
theorem effect_contra (lines : List Line) (account : ℕ) :
    effect (lines.map Line.contra) account = -effect lines account := by
  induction lines with
  | nil => rfl
  | cons x lines ih =>
    simp only [effect, List.map_cons, List.sum_cons] at ih ⊢
    rw [ih, neg_add]
    congr 1
    by_cases h : x.account = account
    · rw [if_pos h, if_pos (show x.contra.account = account from h)]
      simp only [Line.contra]
      omega
    · rw [if_neg h, if_neg (show x.contra.account ≠ account from h), neg_zero]

theorem effect_corrected (lines lines' : List Line) (account : ℕ) :
    effect (lines ++ (lines.map Line.contra ++ lines')) account = effect lines' account := by
  rw [effect_append, effect_append, effect_contra]
  omega

end SyrocePms.OperationalGl
