import SyrocePms.Ledger.Journal

/-! `close_fiscal_year` for one attempt after the other: the closing lines, their posting
under the key of the year, the close of December and the record of the closure. -/

namespace SyrocePms.Ledger

open Lib List

variable {code : ℕ}

def yearStart (year : ℕ) : ℕ := day year 1 1

def yearEnd (year : ℕ) : ℕ := day year 12 31

namespace Books

/-! ### The closing lines -/

def activity (b : Books) (year code : ℕ) : ℤ :=
  effect (b.linesWithin (yearStart year) (yearEnd year)) code

/-- The accounts of a type, in the order of their codes. An account without movement has
a zero row, which adds no line. -/
def codesOf (b : Books) (type : AccountType) : List ℕ :=
  ((b.accounts.rows.filter fun a => a.type == type).map Account.code).insertionSort (· ≤ ·)

def netIncome (b : Books) (year : ℕ) : ℤ :=
  ((b.codesOf .revenue).map fun code => -b.activity year code).sum -
    ((b.codesOf .expense).map fun code => b.activity year code).sum

/-- The result of the prior year is carried forward. -/
def carryLines (b : Books) (year : ℕ) : List Line :=
  let profit := -b.balance (yearEnd year) 590
  let loss := b.balance (yearEnd year) 591
  (if 0 < profit then [{ account := 590, debit := profit, memo := .priorProfit },
    { account := 570, credit := profit, memo := .retainedProfit }] else []) ++
  (if 0 < loss then [{ account := 591, credit := loss, memo := .priorLoss },
    { account := 580, debit := loss, memo := .retainedLoss }] else [])

def revenueLine (code : ℕ) (amount : ℤ) : List Line :=
  if 0 < amount then [{ account := code, debit := amount, memo := .revenueClose }]
  else if amount < 0 then [{ account := code, credit := |amount|, memo := .revenueClose }]
  else []

def expenseLine (code : ℕ) (amount : ℤ) : List Line :=
  if 0 < amount then [{ account := code, credit := amount, memo := .expenseClose }]
  else if amount < 0 then [{ account := code, debit := |amount|, memo := .expenseClose }]
  else []

def pnlLines (b : Books) (year : ℕ) : List Line :=
  ((b.codesOf .revenue).flatMap fun code => revenueLine code (-b.activity year code)) ++
    (b.codesOf .expense).flatMap fun code => expenseLine code (b.activity year code)

def resultLines (net : ℤ) : List Line :=
  if 0 < net then [{ account := 690, credit := net, memo := .periodProfit },
    { account := 690, debit := net, memo := .profitTransfer },
    { account := 590, credit := net, memo := .netProfit }]
  else if net < 0 then [{ account := 690, debit := |net|, memo := .periodLoss },
    { account := 690, credit := |net|, memo := .lossTransfer },
    { account := 591, debit := |net|, memo := .netLoss }]
  else []

def closingLines (b : Books) (year : ℕ) : List Line :=
  b.carryLines year ++ b.pnlLines year ++ resultLines (b.netIncome year)

def closingJob (b : Books) (year : ℕ) : Job where
  date := yearEnd year
  source := .yearEndClose year
  lines := b.closingLines year
  key := some (.yearEndClose year)

end Books

/-! ### An attempt -/

/-- What the books do not decide: whether the ordinal before the one of the closing entry
is settled, whether vouchers, closing center and journal integrity let December close, and
whether an exception comes between the close of December and the record of the closure. -/
structure Outside where
  final : Bool := true
  ready : Bool := true
  interrupted : Bool := false

/-- Nothing keeps the attempt from closing December and recording the closure. -/
def Outside.clean (o : Outside) : Prop := o.ready = true ∧ o.interrupted = false

inductive Refusal where
  | invalidYear
  | periodsIncomplete
  | earlierOpen
  | decemberNotOpen
  | missingAccounts (codes : List ℕ)
  | posting (e : PostingError)
  | periodMissing
  | notReady
  | trialUnbalanced
  deriving DecidableEq

inductive Answer where
  | closed
  | alreadyClosed
  | refused (r : Refusal)
  | raised
  deriving DecidableEq

def december : Fin 12 := Fin.last 11

def periodRefusal (c : Periods) (year : ℕ) : Option Refusal :=
  if (List.finRange 12).any fun no => (c.get? (year, no)).isNone then some .periodsIncomplete
  else if (List.finRange 12).any fun no => no < december && (c.get? (year, no)).any Period.isOpen then
    some .earlierOpen
  else if (c.get? (year, december)).any fun p => !p.isOpen then some .decemberNotOpen
  else none

namespace Books

/-- The codes that the close needs and the active accounts that it reads do not have. -/
def missingCodes (b : Books) : List ℕ :=
  [570, 580, 590, 591, 690].filter fun code =>
    !((b.accounts.rows.filter Account.active).take 5000).any fun a => a.code == code

def prepareClose (b : Books) (year : ℕ) : Except Refusal Books :=
  match b.periods.ensureCalendarYear year with
  | none => .error .invalidYear
  | some periods =>
    match periodRefusal periods year with
    | some r => .error r
    | none =>
      if b.missingCodes ≠ [] then .error (.missingAccounts b.missingCodes)
      else .ok { b with periods := periods }

def postClosing (b : Books) (year : ℕ) (o : Outside) : Books × Option PostingError :=
  if b.closingLines year = [] then (b, none)
  else
    match b.postJournalEntry (b.closingJob year) o.final with
    | (b', .ok _) => (b', none)
    | (b', .error e) => (b', some e)

/-- `close_period`. `ready` says that vouchers, closing center and journal integrity do
not hold it up. -/
def closePeriod (b : Books) (key : ℕ × Fin 12) (ready : Bool) : Except Refusal Books :=
  match b.periods.get? key with
  | none => .error .periodMissing
  | some p =>
    if !p.isOpen then .ok b
    else if b.periods.earlierOpen p then .error .earlierOpen
    else if !ready then .error .notReady
    else if !b.trialBalanced p.endDate then .error .trialUnbalanced
    else .ok { b with periods := b.periods.close key }

def closeFiscalYear (b : Books) (year : ℕ) (o : Outside) : Books × Answer :=
  if year < 2000 ∨ 2099 < year then (b, .refused .invalidYear)
  else if year ∈ b.closures then (b, .alreadyClosed)
  else
    match b.prepareClose year with
    | .error r => ({ b with periods := (b.periods.ensureCalendarYear year).getD b.periods }, .refused r)
    | .ok b₁ =>
      match b₁.postClosing year o with
      | (b₂, some e) => (b₂, .refused (.posting e))
      | (b₂, none) =>
        match b₂.closePeriod (year, december) o.ready with
        | .error r => (b₂, .refused r)
        | .ok b₃ =>
          if o.interrupted then (b₃, .raised)
          else
            ({ b₃ with
              periods := (b₃.periods.ensureCalendarYear (year + 1)).getD b₃.periods
              closures := year :: b₃.closures }, .closed)

/-- The reported blockers are cleared: December is open again. -/
def cleared (b : Books) (year : ℕ) : Books :=
  { b with periods := b.periods.reopen (year, december) }

end Books

/-! What the closing lines move: they take every profit-and-loss account to zero, carry
the prior result forward and book the result of the year. -/

namespace Books

variable (b : Books) (year : ℕ)

def isPnl (code : ℕ) : Bool := b.accounts.rows.any fun a => a.code == code && a.type.isPnl

theorem nodup_codesOf (type : AccountType) : (b.codesOf type).Nodup := by
  rw [codesOf, (perm_insertionSort _ _).nodup_iff]
  exact b.accounts.unique.sublist (filter_sublist.map _)

theorem mem_codesOf {type : AccountType} :
    code ∈ b.codesOf type ↔ ∃ a ∈ b.accounts.rows, a.code = code ∧ a.type = type := by
  rw [codesOf, (perm_insertionSort _ _).mem_iff]
  simp only [mem_map, mem_filter, beq_iff_eq]
  constructor
  · rintro ⟨a, ⟨ha, ht⟩, hc⟩
    exact ⟨a, ha, hc, ht⟩
  · rintro ⟨a, ha, hc, ht⟩
    exact ⟨a, ⟨ha, ht⟩, hc⟩

theorem isPnl_iff :
    b.isPnl code = true ↔ code ∈ b.codesOf .revenue ∨ code ∈ b.codesOf .expense := by
  simp only [isPnl, any_eq_true, Bool.and_eq_true, beq_iff_eq, mem_codesOf]
  constructor
  · rintro ⟨a, ha, hc, ht⟩
    cases hta : a.type <;> rw [hta] at ht
    case revenue => exact .inl ⟨a, ha, hc, hta⟩
    case expense => exact .inr ⟨a, ha, hc, hta⟩
    all_goals cases ht
  · rintro (⟨a, ha, hc, ht⟩ | ⟨a, ha, hc, ht⟩)
    · exact ⟨a, ha, hc, by rw [ht]; rfl⟩
    · exact ⟨a, ha, hc, by rw [ht]; rfl⟩

/-- An account has one type. -/
theorem not_mem_expense (h : code ∈ b.codesOf .revenue) : code ∉ b.codesOf .expense := by
  intro h'
  obtain ⟨a, ha, hc, ht⟩ := b.mem_codesOf.mp h
  obtain ⟨a', ha', hc', ht'⟩ := b.mem_codesOf.mp h'
  have heq : a = a' := Collection.eq_of_key (c := b.accounts) ha ha' (hc.trans hc'.symm)
  rw [heq, ht'] at ht
  cases ht

end Books

/-! ### Effects -/

theorem effect_revenueLine (code code' : ℕ) (amount : ℤ) :
    effect (Books.revenueLine code amount) code' = if code = code' then amount else 0 := by
  unfold Books.revenueLine
  by_cases h : 0 < amount
  · simp [h]
  · by_cases h' : amount < 0
    · simp [h, h', abs_of_neg h']
    · have hz : amount = 0 := by omega
      simp [hz]

theorem effect_expenseLine (code code' : ℕ) (amount : ℤ) :
    effect (Books.expenseLine code amount) code' = if code = code' then -amount else 0 := by
  unfold Books.expenseLine
  by_cases h : 0 < amount
  · simp [h]
  · by_cases h' : amount < 0
    · simp [h, h', abs_of_neg h']
    · have hz : amount = 0 := by omega
      simp [hz]

theorem effect_flatMap {f : ℕ → List Line} {g : ℕ → ℤ}
    (hf : ∀ code code', effect (f code) code' = if code = code' then g code else 0)
    {codes : List ℕ} (hn : codes.Nodup) (code : ℕ) :
    effect (codes.flatMap f) code = if code ∈ codes then g code else 0 := by
  induction codes with
  | nil => rfl
  | cons c codes ih =>
    obtain ⟨hc, hn⟩ := nodup_cons.mp hn
    rw [flatMap_cons, effect_append, hf, ih hn]
    by_cases h : c = code
    · subst h
      simp [hc]
    · simp [h, Ne.symm h]

namespace Books

variable (b : Books) (year : ℕ)

/-- The closing lines take the movement of a profit-and-loss account back. -/
theorem effect_pnlLines (code : ℕ) : effect (b.pnlLines year) code =
    if b.isPnl code then -b.activity year code else 0 := by
  have hrevenue := effect_flatMap (fun c c' => effect_revenueLine c c' (-b.activity year c))
    (b.nodup_codesOf .revenue) code
  have hexpense := effect_flatMap (fun c c' => effect_expenseLine c c' (b.activity year c))
    (b.nodup_codesOf .expense) code
  rw [pnlLines, effect_append, hrevenue, hexpense]
  by_cases hr : code ∈ b.codesOf .revenue
  · simp [hr, b.not_mem_expense hr, b.isPnl_iff.mpr (.inl hr)]
  · by_cases he : code ∈ b.codesOf .expense
    · simp [hr, he, b.isPnl_iff.mpr (.inr he)]
    · have hno : b.isPnl code = false := by
        rw [Bool.eq_false_iff, ne_eq, b.isPnl_iff]
        exact fun h => h.elim hr he
      simp [hr, he, hno]

theorem effect_carryLines (code : ℕ) : effect (b.carryLines year) code =
    (if 590 = code then max (-b.balance (yearEnd year) 590) 0 else 0) -
      (if 570 = code then max (-b.balance (yearEnd year) 590) 0 else 0) -
      (if 591 = code then max (b.balance (yearEnd year) 591) 0 else 0) +
      (if 580 = code then max (b.balance (yearEnd year) 591) 0 else 0) := by
  simp only [carryLines, effect_append]
  have hprofit : effect (if 0 < -b.balance (yearEnd year) 590 then
      [{ account := 590, debit := -b.balance (yearEnd year) 590, memo := .priorProfit },
        { account := 570, credit := -b.balance (yearEnd year) 590, memo := .retainedProfit }]
      else []) code = (if 590 = code then max (-b.balance (yearEnd year) 590) 0 else 0) -
      (if 570 = code then max (-b.balance (yearEnd year) 590) 0 else 0) := by
    by_cases h : 0 < -b.balance (yearEnd year) 590
    · rw [if_pos h, max_eq_left h.le]
      simp only [effect_cons, effect_nil]
      split_ifs <;> omega
    · rw [if_neg h, max_eq_right (not_lt.mp h)]
      simp
  have hloss : effect (if 0 < b.balance (yearEnd year) 591 then
      [{ account := 591, credit := b.balance (yearEnd year) 591, memo := .priorLoss },
        { account := 580, debit := b.balance (yearEnd year) 591, memo := .retainedLoss }]
      else []) code = (if 580 = code then max (b.balance (yearEnd year) 591) 0 else 0) -
      (if 591 = code then max (b.balance (yearEnd year) 591) 0 else 0) := by
    by_cases h : 0 < b.balance (yearEnd year) 591
    · rw [if_pos h, max_eq_left h.le]
      simp only [effect_cons, effect_nil]
      split_ifs <;> omega
    · rw [if_neg h, max_eq_right (not_lt.mp h)]
      simp
  rw [hprofit, hloss]
  omega

theorem effect_resultLines (net : ℤ) (code : ℕ) : effect (resultLines net) code =
    (if 591 = code then max (-net) 0 else 0) - (if 590 = code then max net 0 else 0) := by
  unfold resultLines
  by_cases h : 0 < net
  · rw [if_pos h, max_eq_left h.le, max_eq_right (by omega)]
    simp only [effect_cons, effect_nil]
    split_ifs <;> omega
  · by_cases h' : net < 0
    · rw [if_neg h, if_pos h', max_eq_left (show 0 ≤ -net by omega),
        max_eq_right (show net ≤ 0 by omega), abs_of_neg h']
      simp only [effect_cons, effect_nil]
      split_ifs <;> omega
    · have hz : net = 0 := by omega
      simp [hz]

theorem effect_closingLines (code : ℕ) : effect (b.closingLines year) code =
    effect (b.carryLines year) code + (if b.isPnl code then -b.activity year code else 0) +
      effect (resultLines (b.netIncome year)) code := by
  rw [closingLines, effect_append, effect_append, effect_pnlLines]

theorem carryLines_eq_nil :
    b.carryLines year = [] ↔ 0 ≤ b.balance (yearEnd year) 590 ∧ b.balance (yearEnd year) 591 ≤ 0 := by
  simp only [carryLines, append_eq_nil_iff]
  by_cases h : 0 < -b.balance (yearEnd year) 590 <;> by_cases h' : 0 < b.balance (yearEnd year) 591 <;>
    simp only [h, h', if_true, if_false] <;> simp <;> omega

theorem pnlLines_eq_nil :
    b.pnlLines year = [] ↔ ∀ code, b.isPnl code = true → b.activity year code = 0 := by
  have hrevenue (code : ℕ) : revenueLine code (-b.activity year code) = [] ↔ b.activity year code = 0 := by
    unfold revenueLine
    split_ifs <;> simp <;> omega
  have hexpense (code : ℕ) : expenseLine code (b.activity year code) = [] ↔ b.activity year code = 0 := by
    unfold expenseLine
    split_ifs <;> simp <;> omega
  simp only [pnlLines, append_eq_nil_iff, flatMap_eq_nil_iff, hrevenue, hexpense, isPnl_iff]
  constructor
  · rintro ⟨hr, he⟩ code (h | h)
    · exact hr code h
    · exact he code h
  · exact fun h => ⟨fun code hc => h code (.inl hc), fun code hc => h code (.inr hc)⟩

theorem resultLines_eq_nil (net : ℤ) : resultLines net = [] ↔ net = 0 := by
  unfold resultLines
  split_ifs <;> simp <;> omega

/-- A year without movement on profit-and-loss accounts has no result. -/
theorem netIncome_eq_zero (h : ∀ code, b.isPnl code = true → b.activity year code = 0) :
    b.netIncome year = 0 := by
  have hrevenue : (b.codesOf .revenue).map (fun code => -b.activity year code) =
      (b.codesOf .revenue).map fun _ => 0 :=
    map_congr_left fun code hc => by rw [h code (b.isPnl_iff.mpr (.inl hc)), neg_zero]
  have hexpense : (b.codesOf .expense).map (fun code => b.activity year code) =
      (b.codesOf .expense).map fun _ => 0 :=
    map_congr_left fun code hc => h code (b.isPnl_iff.mpr (.inr hc))
  rw [netIncome, hrevenue, hexpense]
  simp

/-- There is nothing to close when the profit-and-loss accounts have not moved and no
prior result is left on 590 and 591. -/
theorem closingLines_eq_nil : b.closingLines year = [] ↔
    (∀ code, b.isPnl code = true → b.activity year code = 0) ∧
      0 ≤ b.balance (yearEnd year) 590 ∧ b.balance (yearEnd year) 591 ≤ 0 := by
  rw [closingLines, append_eq_nil_iff, append_eq_nil_iff, carryLines_eq_nil,
    pnlLines_eq_nil, resultLines_eq_nil]
  constructor
  · rintro ⟨⟨hc, hp⟩, -⟩
    exact ⟨hp, hc⟩
  · rintro ⟨hp, hc⟩
    exact ⟨⟨hc, hp⟩, b.netIncome_eq_zero year hp⟩

theorem pnl_result_eq_nil_of_eq_carry {b' : Books}
    (hl : b.closingLines year = b'.carryLines year) :
    b.pnlLines year = [] ∧ resultLines (b.netIncome year) = [] := by
  have hcarry (x : Line) (hx : x ∈ b'.carryLines year) : x.memo = .priorProfit ∨
      x.memo = .retainedProfit ∨ x.memo = .priorLoss ∨ x.memo = .retainedLoss := by
    simp only [carryLines, mem_append] at hx
    obtain hx | hx := hx <;> split at hx <;> simp at hx
    · obtain rfl | rfl := hx <;> simp
    · obtain rfl | rfl := hx <;> simp
  have hmem (x : Line) (hx : x ∈ b.pnlLines year ∨ x ∈ resultLines (b.netIncome year)) :
      x ∈ b'.carryLines year := by
    rw [← hl, closingLines]
    simp only [mem_append]
    tauto
  constructor
  · rw [eq_nil_iff_forall_not_mem]
    intro x hx
    have hmemo := hcarry x (hmem x (.inl hx))
    simp only [pnlLines, mem_append, mem_flatMap, revenueLine, expenseLine] at hx
    obtain ⟨code, -, hx⟩ | ⟨code, -, hx⟩ := hx <;> split_ifs at hx <;> simp at hx <;> simp [hx] at hmemo
  · rw [eq_nil_iff_forall_not_mem]
    intro x hx
    have hmemo := hcarry x (hmem x (.inr hx))
    unfold resultLines at hx
    split_ifs at hx <;> simp at hx
    · obtain rfl | rfl | rfl := hx <;> simp at hmemo
    · obtain rfl | rfl | rfl := hx <;> simp at hmemo

end Books

end SyrocePms.Ledger
