import SyrocePms.Ledger.Journal

/-! The financial statements: trial balance, income statement and balance sheet, each with
its own reading of the chart of accounts. The chart is a list in the order of insertion, in
which a code may stand twice, as nothing but an index that may be missing forbids it. -/

namespace SyrocePms.Ledger

open List

variable {asOf : Option ℕ}

inductive Side where
  | debit
  | credit
  deriving DecidableEq

def AccountType.normalBalance : AccountType → Side
  | .asset | .expense => .debit
  | .liability | .equity | .revenue => .credit

/-- A row of `gl_accounts` with its `normal_balance`, which older rows may lack. -/
structure ChartRow extends Account where
  normalBalance : Option Side := none

def ChartRow.side (a : ChartRow) : Side := a.normalBalance.getD a.type.normalBalance

/-- A posted row of `gl_journal_entries`. `reverses` is the place of the entry that it
takes back. -/
structure JournalRow where
  date : ℕ
  lines : JournalLines
  reverses : Option ℕ := none

structure GeneralLedger where
  chart : List ChartRow
  journal : List JournalRow

def byCode (rows : List ChartRow) (code : ℕ) : Option ChartRow :=
  (rows.filter fun a => a.code == code).getLast?

inductive ReportError where
  | invalidDate
  | reversedRange

structure DateFilter where
  start : Option ℕ
  finish : Option ℕ

def reportDateFilter (start finish : Option ℕ) : Except ReportError DateFilter :=
  if (start.any fun d => (normalizePostingDate d).isNone) ||
      finish.any fun d => (normalizePostingDate d).isNone then .error .invalidDate
  else if start.any fun d => finish.any fun d' => decide (d' < d) then .error .reversedRange
  else .ok ⟨start, finish⟩

def DateFilter.admits (f : DateFilter) (date : ℕ) : Bool :=
  (f.start.all fun d => decide (d ≤ date)) && f.finish.all fun d => decide (date ≤ d)

def GeneralLedger.linesIn (l : GeneralLedger) (dates : DateFilter) : List Line :=
  (l.journal.filter fun e => dates.admits e.date).flatMap fun e => e.lines.lines

def lineCodes (lines : List Line) : List ℕ :=
  (lines.map Line.account).dedup.insertionSort (· ≤ ·)

def debitOf (lines : List Line) (code : ℕ) : ℤ :=
  totalDebit (lines.filter fun x => x.account == code)

def creditOf (lines : List Line) (code : ℕ) : ℤ :=
  totalCredit (lines.filter fun x => x.account == code)

/-! ### The trial balance -/

structure TrialRow where
  code : ℕ
  type : Option AccountType
  normalBalance : Option Side
  totalDebit : ℤ
  totalCredit : ℤ
  debitBalance : ℤ
  creditBalance : ℤ

structure TrialBalance where
  asOf : Option ℕ
  rows : List TrialRow
  debitTotal : ℤ
  creditTotal : ℤ
  balanced : Bool

def trialRow (chart : List ChartRow) (lines : List Line) (code : ℕ) : TrialRow where
  code := code
  type := (byCode chart code).map fun a => a.type
  normalBalance := (byCode chart code).map ChartRow.side
  totalDebit := debitOf lines code
  totalCredit := creditOf lines code
  debitBalance := max (debitOf lines code - creditOf lines code) 0
  creditBalance := max (-(debitOf lines code - creditOf lines code)) 0

def computeTrialBalance (l : GeneralLedger) (asOf : Option ℕ) : Except ReportError TrialBalance :=
  match reportDateFilter none asOf with
  | .error e => .error e
  | .ok dates =>
    let rows := (lineCodes (l.linesIn dates)).map (trialRow l.chart (l.linesIn dates))
    let debit := (rows.map TrialRow.debitBalance).sum
    let credit := (rows.map TrialRow.creditBalance).sum
    .ok ⟨asOf, rows, debit, credit, debit == credit⟩

/-! ### The income statement -/

/-- A row of the income statement or the balance sheet. -/
structure StatementRow where
  code : ℕ
  amount : ℤ
  normalBalance : Side
  isContra : Bool

structure IncomeStatement where
  start : Option ℕ
  finish : Option ℕ
  revenue : List StatementRow
  expenses : List StatementRow
  totalRevenue : ℤ
  totalExpenses : ℤ
  netIncome : ℤ

/-- The accounts that the income statement asks for. -/
def pnlByCode (chart : List ChartRow) (code : ℕ) : Option ChartRow :=
  byCode (chart.filter fun a => a.type.isPnl) code

def incomeRow (lines : List Line) (code : ℕ) (a : ChartRow) : StatementRow where
  code := code
  amount := if a.type = .revenue then creditOf lines code - debitOf lines code
    else debitOf lines code - creditOf lines code
  normalBalance := a.side
  isContra := a.side != a.type.normalBalance

def incomeRows (chart : List ChartRow) (lines : List Line) (isRevenue : Bool) :
    List StatementRow :=
  (lineCodes lines).filterMap fun code =>
    ((pnlByCode chart code).filter fun a => (a.type == .revenue) == isRevenue).map (incomeRow lines code)

def computeIncomeStatement (l : GeneralLedger) (start finish : Option ℕ) :
    Except ReportError IncomeStatement :=
  match reportDateFilter start finish with
  | .error e => .error e
  | .ok dates =>
    let revenue := incomeRows l.chart (l.linesIn dates) true
    let expenses := incomeRows l.chart (l.linesIn dates) false
    let totalRevenue := (revenue.map StatementRow.amount).sum
    let totalExpenses := (expenses.map StatementRow.amount).sum
    .ok ⟨start, finish, revenue, expenses, totalRevenue, totalExpenses, totalRevenue - totalExpenses⟩

/-! ### The balance sheet -/

structure BalanceSheet where
  asOf : Option ℕ
  assets : List StatementRow
  liabilities : List StatementRow
  equity : List StatementRow
  currentEarnings : ℤ
  totalAssets : ℤ
  totalLiabilities : ℤ
  totalEquity : ℤ
  liabilitiesAndEquity : ℤ
  difference : ℤ
  balanced : Bool

def sectionRows (rows : List TrialRow) (type : AccountType) : List StatementRow :=
  (rows.filter fun r => r.type == some type).map fun r =>
    { code := r.code
      amount := if type = .asset then r.debitBalance - r.creditBalance
        else r.creditBalance - r.debitBalance
      normalBalance := r.normalBalance.getD type.normalBalance
      isContra := r.normalBalance.getD type.normalBalance != type.normalBalance }

def computeBalanceSheet (l : GeneralLedger) (asOf : Option ℕ) : Except ReportError BalanceSheet :=
  match computeTrialBalance l asOf with
  | .error e => .error e
  | .ok trial =>
    match computeIncomeStatement l none asOf with
    | .error e => .error e
    | .ok income =>
      let assets := sectionRows trial.rows .asset
      let liabilities := sectionRows trial.rows .liability
      let equity := sectionRows trial.rows .equity
      let totalAssets := (assets.map StatementRow.amount).sum
      let totalLiabilities := (liabilities.map StatementRow.amount).sum
      let totalEquity := (equity.map StatementRow.amount).sum
      let right := totalLiabilities + totalEquity + income.netIncome
      .ok ⟨asOf, assets, liabilities, equity, income.netIncome, totalAssets, totalLiabilities,
        totalEquity, right, totalAssets - right, totalAssets - right == 0⟩

/-! ### What the lines move -/

theorem debitOf_sub_creditOf (lines : List Line) (code : ℕ) :
    debitOf lines code - creditOf lines code = effect lines code := by
  induction lines with
  | nil => rfl
  | cons x lines ih =>
    simp only [debitOf, creditOf, totalDebit, totalCredit, filter_cons, beq_iff_eq] at ih ⊢
    rw [effect_cons, ← ih]
    split
    · simp only [map_cons, sum_cons]
      omega
    · omega

theorem mem_lineCodes {lines : List Line} {code : ℕ} :
    code ∈ lineCodes lines ↔ ∃ x ∈ lines, x.account = code := by
  rw [lineCodes, (perm_insertionSort _ _).mem_iff, mem_dedup, mem_map]

theorem nodup_lineCodes (lines : List Line) : (lineCodes lines).Nodup := by
  rw [lineCodes, (perm_insertionSort _ _).nodup_iff]
  exact nodup_dedup _

theorem sum_effect_lineCodes (lines : List Line) :
    ((lineCodes lines).map (effect lines)).sum = totalDebit lines - totalCredit lines := by
  rw [← sum_toFinset _ (nodup_lineCodes lines)]
  exact sum_effect lines _ fun x hx => mem_toFinset.mpr (mem_lineCodes.mpr ⟨x, hx, rfl⟩)

/-- The entries that a report reads are in balance. -/
theorem totals_linesIn (l : GeneralLedger) (dates : DateFilter) :
    totalDebit (l.linesIn dates) = totalCredit (l.linesIn dates) :=
  totals_flatMap JournalRow.lines _

theorem sum_effect_linesIn (l : GeneralLedger) (dates : DateFilter) :
    ((lineCodes (l.linesIn dates)).map (effect (l.linesIn dates))).sum = 0 := by
  rw [sum_effect_lineCodes, totals_linesIn, sub_self]

/-! ### The classes of an account -/

def typesOf (chart : List ChartRow) (code : ℕ) : List AccountType :=
  (chart.filter fun a => a.code == code).map fun a => a.type

def trialType (chart : List ChartRow) (code : ℕ) : Option AccountType := (typesOf chart code).getLast?

def pnlType (chart : List ChartRow) (code : ℕ) : Option AccountType :=
  ((typesOf chart code).filter AccountType.isPnl).getLast?

theorem map_type_byCode (chart : List ChartRow) (code : ℕ) :
    ((byCode chart code).map fun a => a.type) = trialType chart code := by
  rw [byCode, trialType, typesOf, getLast?_map]

theorem map_type_pnlByCode (chart : List ChartRow) (code : ℕ) :
    ((pnlByCode chart code).map fun a => a.type) = pnlType chart code := by
  rw [pnlByCode, byCode, pnlType, typesOf, filter_map, getLast?_map, filter_filter,
    filter_filter]
  congr 2
  exact filter_congr fun a _ => Bool.and_comm _ _

/-- How many of the statements count the code: a section of the balance sheet, and the
income statement. -/
def classes (chart : List ChartRow) (code : ℕ) : ℤ :=
  (if (trialType chart code).any fun t => !t.isPnl then 1 else 0) +
    if (pnlType chart code).isSome then 1 else 0

/-! ### The totals -/

theorem sum_sectionRows (chart : List ChartRow) (lines : List Line) (codes : List ℕ)
    (type : AccountType) :
    ((sectionRows (codes.map (trialRow chart lines)) type).map StatementRow.amount).sum =
      (codes.map fun code => if trialType chart code = some type then
        (if type = .asset then effect lines code else -effect lines code) else 0).sum := by
  induction codes with
  | nil => rfl
  | cons code codes ih =>
    have hrow : (trialRow chart lines code).type = trialType chart code := map_type_byCode chart code
    have heffect := debitOf_sub_creditOf lines code
    simp only [sectionRows, map_cons, filter_cons, hrow, beq_iff_eq, sum_cons] at ih ⊢
    by_cases ht : trialType chart code = some type
    · simp only [ht, if_true, map_cons, sum_cons, ih, trialRow]
      split <;> omega
    · simp only [ht, if_false, ih, zero_add]

theorem sum_incomeRows (chart : List ChartRow) (lines : List Line) (isRevenue : Bool) :
    ((incomeRows chart lines isRevenue).map StatementRow.amount).sum =
      ((lineCodes lines).map fun code =>
        if (pnlType chart code).any fun t => (t == .revenue) == isRevenue then
          (if isRevenue then -effect lines code else effect lines code) else 0).sum := by
  rw [incomeRows]
  induction lineCodes lines with
  | nil => rfl
  | cons code codes ih =>
    have heffect := debitOf_sub_creditOf lines code
    rw [filterMap_cons, map_cons, sum_cons, ← ih, ← map_type_pnlByCode]
    cases ha : pnlByCode chart code with
    | none => simp
    | some a =>
      by_cases ht : ((a.type == .revenue) == isRevenue) = true
      · simp only [Option.filter_some, ht, if_true, Option.map_some, map_cons, sum_cons,
          Option.any_some, incomeRow]
        cases isRevenue <;> simp at ht <;> simp [ht] <;> omega
      · simp only [Option.filter_some, ht, Option.map_some, Option.any_some]
        simp

variable {l : GeneralLedger} {dates : DateFilter}

theorem netIncome_eq {start finish : Option ℕ} (hd : reportDateFilter start finish = .ok dates)
    {i : IncomeStatement} (h : computeIncomeStatement l start finish = .ok i) :
    i.netIncome = -((lineCodes (l.linesIn dates)).map fun code =>
      if (pnlType l.chart code).isSome then effect (l.linesIn dates) code else 0).sum := by
  simp only [computeIncomeStatement, hd, Except.ok.injEq] at h
  rw [← h]
  simp only [sum_incomeRows]
  induction lineCodes (l.linesIn dates) with
  | nil => rfl
  | cons code codes ih =>
    simp only [map_cons, sum_cons]
    have hone : ((if (pnlType l.chart code).any fun t => (t == .revenue) == true then
        (if true then -effect (l.linesIn dates) code else effect (l.linesIn dates) code) else 0) -
        if (pnlType l.chart code).any fun t => (t == .revenue) == false then
        (if false then -effect (l.linesIn dates) code else effect (l.linesIn dates) code) else 0) =
        -(if (pnlType l.chart code).isSome then effect (l.linesIn dates) code else 0) := by
      cases pnlType l.chart code with
      | none => simp
      | some t => cases t <;> simp
    simp only [if_true, Bool.false_eq_true, if_false] at hone ih ⊢
    omega

variable {b : BalanceSheet}

theorem difference_eq (hd : reportDateFilter none asOf = .ok dates)
    (h : computeBalanceSheet l asOf = .ok b) :
    b.difference = ((lineCodes (l.linesIn dates)).map fun code =>
      classes l.chart code * effect (l.linesIn dates) code).sum := by
  obtain ⟨i, hi⟩ : ∃ i, computeIncomeStatement l none asOf = .ok i := by
    simp only [computeIncomeStatement, hd]
    exact ⟨_, rfl⟩
  have hnet := netIncome_eq hd hi
  simp only [computeBalanceSheet, computeTrialBalance, hd, hi, Except.ok.injEq] at h
  rw [← h]
  simp only [sum_sectionRows, hnet]
  induction lineCodes (l.linesIn dates) with
  | nil => rfl
  | cons code codes ih =>
    simp only [map_cons, sum_cons, classes] at ih ⊢
    have hp : (if (trialType l.chart code).any fun t => !t.isPnl then (1 : ℤ) else 0) *
        effect (l.linesIn dates) code =
        (if trialType l.chart code = some .asset then effect (l.linesIn dates) code else 0) -
        (if trialType l.chart code = some .liability then -effect (l.linesIn dates) code else 0) -
        if trialType l.chart code = some .equity then -effect (l.linesIn dates) code else 0 := by
      cases trialType l.chart code with
      | none => simp
      | some t => cases t <;> simp [AccountType.isPnl]
    have hq : (if (pnlType l.chart code).isSome then (1 : ℤ) else 0) * effect (l.linesIn dates) code =
        if (pnlType l.chart code).isSome then effect (l.linesIn dates) code else 0 := by
      split <;> simp
    rw [add_mul, hp, hq]
    simp only [reduceCtorEq, if_true, if_false] at ih ⊢
    omega

theorem balanced_of_classes (hd : reportDateFilter none asOf = .ok dates)
    (hc : ∀ x ∈ l.linesIn dates, classes l.chart x.account = 1)
    (h : computeBalanceSheet l asOf = .ok b) : b.difference = 0 := by
  rw [difference_eq hd h, ← sum_effect_linesIn l dates]
  refine congrArg List.sum (map_congr_left fun code hcode => ?_)
  obtain ⟨x, hx, rfl⟩ := mem_lineCodes.mp hcode
  rw [hc x hx, one_mul]

theorem debitTotal_eq {t : TrialBalance} (h : computeTrialBalance l asOf = .ok t) :
    t.debitTotal = t.creditTotal ∧ t.balanced = true := by
  simp only [computeTrialBalance] at h
  split at h
  · cases h
  · rename_i dates hd
    have hsplit (codes : List ℕ) :
        ((codes.map (trialRow l.chart (l.linesIn dates))).map TrialRow.debitBalance).sum =
          ((codes.map (trialRow l.chart (l.linesIn dates))).map TrialRow.creditBalance).sum +
            (codes.map (effect (l.linesIn dates))).sum := by
      induction codes with
      | nil => rfl
      | cons code codes ih =>
        have heffect := debitOf_sub_creditOf (l.linesIn dates) code
        simp only [map_cons, sum_cons, ih, trialRow]
        omega
    have htotal := hsplit (lineCodes (l.linesIn dates))
    rw [sum_effect_linesIn, add_zero] at htotal
    cases h
    exact ⟨htotal, beq_iff_eq.mpr htotal⟩

end SyrocePms.Ledger
