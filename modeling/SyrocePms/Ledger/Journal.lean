import Mathlib.Algebra.BigOperators.Ring.Finset
import Mathlib.Algebra.Order.Group.Unbundled.Int
import SyrocePms.Lib.Collection

/-! Fiscal periods of the general ledger. Dates are written as the number of their digits,
so that `2026-12-31` is `20261231` and dates compare as their texts do. -/

namespace SyrocePms.Ledger

open Lib List Collection

variable {date year : ℕ} {final : Bool}

def day (year month dayOfMonth : ℕ) : ℕ := year * 10000 + month * 100 + dayOfMonth

def leapYear (year : ℕ) : Bool := year % 4 = 0 ∧ (year % 100 ≠ 0 ∨ year % 400 = 0)

/-- `calendar.monthrange(year, month)[1]`. -/
def lastDay (year month : ℕ) : ℕ :=
  if month = 2 then if leapYear year then 29 else 28
  else if month = 4 ∨ month = 6 ∨ month = 9 ∨ month = 11 then 30
  else 31

def normalizePostingDate (date : ℕ) : Option ℕ :=
  let month := date / 100 % 100
  let dayOfMonth := date % 100
  if 1 ≤ date / 10000 ∧ 1 ≤ month ∧ month ≤ 12 ∧ 1 ≤ dayOfMonth ∧
    dayOfMonth ≤ lastDay (date / 10000) month then some date else none

theorem normalizePostingDate_eq {date' : ℕ} (h : normalizePostingDate date = some date') :
    date' = date := by
  simp only [normalizePostingDate] at h
  split at h <;> cases h
  rfl

/-- A row of `gl_periods`. Periods are the months of a calendar year, counted from zero. -/
structure Period where
  fiscalYear : ℕ
  periodNo : Fin 12
  isOpen : Bool := true
  deriving DecidableEq

namespace Period

def key (p : Period) : ℕ × Fin 12 := (p.fiscalYear, p.periodNo)

def startDate (p : Period) : ℕ := day p.fiscalYear (p.periodNo + 1) 1

def endDate (p : Period) : ℕ :=
  day p.fiscalYear (p.periodNo + 1) (lastDay p.fiscalYear (p.periodNo + 1))

def covers (p : Period) (date : ℕ) : Bool := p.startDate ≤ date ∧ date ≤ p.endDate

def setOpen (p : Period) (b : Bool) : Period := { p with isOpen := b }

@[simp] theorem key_setOpen (p : Period) (b : Bool) : (p.setOpen b).key = p.key := rfl

end Period

abbrev Periods := Collection Period Period.key

variable {c c' : Periods} {p x : Period}

namespace Periods

def ensureYear (c : Periods) (year : ℕ) : Periods :=
  (List.finRange 12).foldl (fun c no => (c.insertOne { fiscalYear := year, periodNo := no }).getD c) c

/-- `ensure_calendar_year_periods`: a year out of bounds raises. -/
def ensureCalendarYear (c : Periods) (year : ℕ) : Option Periods :=
  if 2000 ≤ year ∧ year ≤ 2100 then some (c.ensureYear year) else none

def forDate (c : Periods) (date : ℕ) : Option (Periods × Period) :=
  match c.findOne fun p => p.covers date with
  | some p => some (c, p)
  | none =>
    match c.ensureCalendarYear (date / 10000) with
    | none => none
    | some c' => (c'.findOne fun p => p.covers date).map fun p => (c', p)

def openFor (c : Periods) (date : ℕ) : Option (Periods × Period) :=
  match c.forDate date with
  | none => none
  | some (c', p) => if p.isOpen then some (c', p) else none

def close (c : Periods) (key : ℕ × Fin 12) : Periods :=
  c.update key (·.setOpen false) fun p => p.key_setOpen false

def reopen (c : Periods) (key : ℕ × Fin 12) : Periods :=
  c.update key (·.setOpen true) fun p => p.key_setOpen true

def earlierOpen (c : Periods) (p : Period) : Bool :=
  c.any fun x => x.fiscalYear == p.fiscalYear && decide (x.periodNo < p.periodNo) && x.isOpen

def laterClosed (c : Periods) (p : Period) : Bool :=
  c.any fun x => x.fiscalYear == p.fiscalYear && decide (p.periodNo < x.periodNo) && !x.isOpen

theorem mem_close {key : ℕ × Fin 12} :
    x ∈ c.close key ↔ (x ∈ c ∧ x.key ≠ key) ∨ ∃ p ∈ c, p.key = key ∧ x = p.setOpen false := by
  rw [close, mem_update]

theorem mem_reopen {key : ℕ × Fin 12} :
    x ∈ c.reopen key ↔ (x ∈ c ∧ x.key ≠ key) ∨ ∃ p ∈ c, p.key = key ∧ x = p.setOpen true := by
  rw [reopen, mem_update]

/-! ### What is created -/

theorem mem_insertOne_getD : x ∈ (c.insertOne p).getD c → x ∈ c ∨ x = p := by
  cases h : c.insertOne p with
  | none => exact .inl
  | some d => exact (mem_insertOne h).mp

theorem mem_insertOne_getD_of_mem (hx : x ∈ c) : x ∈ (c.insertOne p).getD c := by
  cases h : c.insertOne p with
  | none => exact hx
  | some d => exact (mem_insertOne h).mpr (.inl hx)

theorem mem_ensureYear (h : x ∈ c.ensureYear year) :
    x ∈ c ∨ (x.fiscalYear = year ∧ x.isOpen = true) := by
  unfold ensureYear at h
  generalize List.finRange 12 = l at h
  induction l generalizing c with
  | nil => exact .inl h
  | cons no l ih =>
    obtain hx | hx := ih h
    · obtain hx | rfl := mem_insertOne_getD hx
      · exact .inl hx
      · exact .inr ⟨rfl, rfl⟩
    · exact .inr hx

/-- A period that is there stays as it is. -/
theorem mem_ensureYear_of_mem (hx : x ∈ c) : x ∈ c.ensureYear year := by
  unfold ensureYear
  generalize List.finRange 12 = l
  induction l generalizing c with
  | nil => exact hx
  | cons no l ih => exact ih (mem_insertOne_getD_of_mem hx)

theorem ensureCalendarYear_some {d : Periods} (h : c.ensureCalendarYear year = some d) :
    (∀ x ∈ c, x ∈ d) ∧ ∀ x ∈ d, x ∈ c ∨ (x.fiscalYear = year ∧ x.isOpen = true) := by
  have hd : c.ensureYear year = d := by
    simp only [ensureCalendarYear] at h
    split at h
    · exact Option.some.inj h
    · cases h
  rw [← hd]
  exact ⟨fun x hx => mem_ensureYear_of_mem hx, fun x hx => mem_ensureYear hx⟩

theorem forDate_some (h : c.forDate date = some (c', p)) :
    p ∈ c' ∧ p.covers date = true ∧ (∀ x ∈ c, x ∈ c') ∧
      ∀ x ∈ c', x ∈ c ∨ (x.fiscalYear = date / 10000 ∧ x.isOpen = true) := by
  simp only [forDate] at h
  split at h
  · rename_i q hq
    cases h
    obtain ⟨hmem, hcov⟩ := mem_of_findOne hq
    exact ⟨hmem, hcov, fun x hx => hx, fun x hx => .inl hx⟩
  · split at h
    · cases h
    · rename_i d hd
      obtain ⟨q, hq, heq⟩ := Option.map_eq_some_iff.mp h
      cases heq
      obtain ⟨hmem, hcov⟩ := mem_of_findOne hq
      exact ⟨hmem, hcov, ensureCalendarYear_some hd⟩

theorem openFor_some (h : c.openFor date = some (c', p)) :
    c.forDate date = some (c', p) ∧ p.isOpen = true := by
  simp only [openFor] at h
  split at h
  · cases h
  · rename_i hd
    split at h <;> cases h
    exact ⟨hd, by assumption⟩

end Periods

/-! The journal of the general ledger: lines, entries and the posting of an entry. Amounts
are in minor units. The fingerprint of an entry is a hash of its content, and stands here
for the content itself. -/

inductive AccountType where
  | asset
  | liability
  | equity
  | revenue
  | expense
  deriving DecidableEq

/-- A row of `gl_accounts`. Codes are numbered in the order of their texts. -/
structure Account where
  code : ℕ
  type : AccountType
  active : Bool := true

def cashAndSales : Collection Account Account.code :=
  ⟨[⟨100, .asset, true⟩, ⟨600, .revenue, true⟩], by decide⟩

def AccountType.isPnl : AccountType → Bool
  | .revenue | .expense => true
  | _ => false

/-- The memo of a line: a text, or one of those that the year-end close writes. -/
inductive Memo where
  | text (n : ℕ)
  | priorProfit
  | retainedProfit
  | priorLoss
  | retainedLoss
  | revenueClose
  | expenseClose
  | periodProfit
  | profitTransfer
  | netProfit
  | periodLoss
  | lossTransfer
  | netLoss
  deriving DecidableEq

/-- A line of an entry. A blank account code is zero. -/
structure Line where
  account : ℕ
  debit : ℤ := 0
  credit : ℤ := 0
  memo : Memo
  deriving DecidableEq

def totalDebit (lines : List Line) : ℤ := (lines.map Line.debit).sum

def totalCredit (lines : List Line) : ℤ := (lines.map Line.credit).sum

inductive PostingError where
  | invalidDate
  | noLines
  | accountRequired (line : ℕ)
  | amountLimit
  | negativeAmount (line : ℕ)
  | debitXorCredit (line : ℕ)
  | zeroTotal
  | unbalanced (debit credit : ℤ)
  | keyReused
  | periodClosed
  | unknownAccount (code : ℕ)
  | inactiveAccount (code : ℕ)
  | predecessor
  deriving DecidableEq

/-- The bound of `_money_to_minor`, in minor units. -/
def moneyLimit : ℤ := 99999999999999999

def lineError (index : ℕ) (x : Line) : Option PostingError :=
  if x.account = 0 then some (.accountRequired index)
  else if moneyLimit < |x.debit| ∨ moneyLimit < |x.credit| then some .amountLimit
  else if x.debit < 0 ∨ x.credit < 0 then some (.negativeAmount index)
  else if (0 < x.debit ↔ 0 < x.credit) then some (.debitXorCredit index)
  else none

/-- Lines that were accepted: debit and credit are equal. -/
structure JournalLines where
  lines : List Line
  balanced : totalDebit lines = totalCredit lines
  deriving DecidableEq

def normalizeJournalLines (lines : List Line) : Except PostingError JournalLines :=
  if lines = [] then .error .noLines
  else
    match lines.zipIdx.findSome? fun x => lineError x.2 x.1 with
    | some e => .error e
    | none =>
      if totalDebit lines ≤ 0 then .error .zeroTotal
      else if h : totalDebit lines = totalCredit lines then .ok ⟨lines, h⟩
      else .error (.unbalanced (totalDebit lines) (totalCredit lines))

theorem normalizeJournalLines_ok {lines : List Line} {x : JournalLines}
    (h : normalizeJournalLines lines = .ok x) : x.lines = lines := by
  simp only [normalizeJournalLines] at h
  split at h
  · cases h
  · split at h
    · cases h
    · split at h
      · cases h
      · split at h <;> cases h
        rfl

inductive Source where
  | yearEndClose (fiscalYear : ℕ)
  | other (n : ℕ)
  deriving DecidableEq

inductive Key where
  | yearEndClose (fiscalYear : ℕ)
  | other (n : ℕ)
  deriving DecidableEq

/-- What the fingerprint of an entry covers. -/
structure Content where
  date : ℕ
  source : Source
  lines : List Line
  deriving DecidableEq

/-- A row of `gl_journal_entries`. -/
structure Entry where
  fiscalYear : ℕ
  date : ℕ
  source : Source
  lines : JournalLines
  key : Option Key
  fingerprint : Option Content
  deriving DecidableEq

/-- The books of one tenant. `closures` has the fiscal years that are closed. -/
structure Books where
  periods : Periods
  accounts : Collection Account Account.code
  journal : List Entry
  closures : List ℕ

/-- The arguments of `post_journal_entry`. -/
structure Job where
  date : ℕ
  source : Source
  lines : List Line
  key : Option Key := none
  deriving DecidableEq

namespace Entry

def repeats (e : Entry) (c : Content) : Bool := e.fingerprint.all (· == c)

end Entry

def Job.entry (j : Job) (date fiscalYear : ℕ) (lines : JournalLines) : Entry where
  fiscalYear := fiscalYear
  date := date
  source := j.source
  lines := lines
  key := j.key
  fingerprint := j.key.map fun _ => ⟨date, j.source, lines.lines⟩

variable {j : Job} {e : Entry}

namespace Books

def stored (b : Books) (key : Option Key) : Option Entry :=
  match key with
  | none => none
  | some k => b.journal.find? fun e => e.key == some k

/-- The first account of the entry that is not in the chart or not active. -/
def accountError (b : Books) (lines : List Line) : Option PostingError :=
  ((lines.map Line.account).dedup.insertionSort (· ≤ ·)).findSome? fun code =>
    match b.accounts.get? code with
    | none => some (.unknownAccount code)
    | some a => if a.active then none else some (.inactiveAccount code)

/-- `post_journal_entry`, one call at a time. `final` says whether the ordinal before the
one that is drawn is settled. -/
def postJournalEntry (b : Books) (j : Job) (final : Bool) : Books × Except PostingError Entry :=
  match normalizePostingDate j.date with
  | none => (b, .error .invalidDate)
  | some date =>
    match normalizeJournalLines j.lines with
    | .error e => (b, .error e)
    | .ok lines =>
      match b.stored j.key with
      | some e =>
        if e.repeats ⟨date, j.source, lines.lines⟩ then (b, .ok e) else (b, .error .keyReused)
      | none =>
        match b.periods.openFor date with
        | none => (b, .error .periodClosed)
        | some (periods, p) =>
          let b' := { b with periods := periods }
          match b'.accountError lines.lines with
          | some e => (b', .error e)
          | none =>
            if moneyLimit < totalDebit lines.lines then (b', .error .amountLimit)
            else if !final then (b', .error .predecessor)
            else
              let e := j.entry date p.fiscalYear lines
              ({ b' with journal := b'.journal ++ [e] }, .ok e)

variable {b b₂ : Books}

theorem postJournalEntry_ok (h : b.postJournalEntry j final = (b₂, .ok e)) :
    (b₂ = b ∧ b.stored j.key = some e ∧ ∃ date, normalizePostingDate j.date = some date ∧
      e.repeats ⟨date, j.source, j.lines⟩ = true) ∨
    (b.stored j.key = none ∧ b₂.journal = b.journal ++ [e] ∧ b₂.accounts = b.accounts ∧
      b₂.closures = b.closures ∧ (∀ x ∈ b.periods, x ∈ b₂.periods) ∧
      ∃ date, normalizePostingDate j.date = some date ∧ e.date = date ∧ e.lines.lines = j.lines ∧
        e.key = j.key ∧ e.fingerprint = j.key.map fun _ => ⟨date, j.source, j.lines⟩) := by
  simp only [postJournalEntry] at h
  cases hdate : normalizePostingDate j.date with
  | none =>
    simp only [hdate] at h
    cases h
  | some date =>
    cases hlines : normalizeJournalLines j.lines with
    | error e =>
      simp only [hdate, hlines] at h
      cases h
    | ok lines =>
      have hl := normalizeJournalLines_ok hlines
      simp only [hdate, hlines] at h
      split at h
      · rename_i x hx
        split at h <;> cases h
        rename_i hrep
        rw [hl] at hrep
        exact .inl ⟨rfl, hx, date, rfl, hrep⟩
      · rename_i hx
        split at h
        · cases h
        · rename_i periods p hp
          obtain ⟨-, -, hkeep, -⟩ := Periods.forDate_some (Periods.openFor_some hp).1
          split at h
          · cases h
          · split at h
            · cases h
            · split at h
              · cases h
              · cases h
                exact .inr ⟨hx, rfl, rfl, rfl, hkeep, date, rfl, rfl, hl, rfl, by rw [← hl]; rfl⟩

theorem postJournalEntry_error {e : PostingError} (h : b.postJournalEntry j final = (b₂, .error e)) :
    b₂.journal = b.journal := by
  simp only [postJournalEntry] at h
  repeat' split at h
  all_goals cases h
  all_goals rfl

end Books

/-! ### Balances -/

/-- What the lines move on an account: debit less credit. -/
def effect (lines : List Line) (code : ℕ) : ℤ :=
  (lines.map fun x => if x.account = code then x.debit - x.credit else 0).sum

@[simp] theorem effect_nil (code : ℕ) : effect [] code = 0 := rfl

@[simp] theorem effect_cons (x : Line) (lines : List Line) (code : ℕ) :
    effect (x :: lines) code =
      (if x.account = code then x.debit - x.credit else 0) + effect lines code := by
  simp [effect]

@[simp] theorem effect_append (lines lines' : List Line) (code : ℕ) :
    effect (lines ++ lines') code = effect lines code + effect lines' code := by
  simp [effect]

variable {b b' : Books}

namespace Books

/-- The lines of the entries between two dates. -/
def linesWithin (b : Books) (start finish : ℕ) : List Line :=
  (b.journal.filter fun e => decide (start ≤ e.date ∧ e.date ≤ finish)).flatMap fun e => e.lines.lines

/-- `net_minor` of an account in the trial balance. -/
def balance (b : Books) (asOf code : ℕ) : ℤ := effect (b.linesWithin 0 asOf) code

def trialBalanced (b : Books) (asOf : ℕ) : Bool :=
  let codes := ((b.linesWithin 0 asOf).map Line.account).toFinset
  codes.sum (fun code => max (b.balance asOf code) 0) ==
    codes.sum (fun code => max (-b.balance asOf code) 0)

theorem linesWithin_append (h : b'.journal = b.journal ++ [e]) {start finish : ℕ}
    (hs : start ≤ e.date) (hf : e.date ≤ finish) :
    b'.linesWithin start finish = b.linesWithin start finish ++ e.lines.lines := by
  simp [linesWithin, h, hs, hf]

theorem balance_append (h : b'.journal = b.journal ++ [e]) {asOf : ℕ} (hf : e.date ≤ asOf)
    (code : ℕ) : b'.balance asOf code = b.balance asOf code + effect e.lines.lines code := by
  rw [balance, linesWithin_append h (Nat.zero_le _) hf, effect_append, balance]

end Books

theorem sum_effect (lines : List Line) (codes : Finset ℕ)
    (h : ∀ x ∈ lines, x.account ∈ codes) :
    codes.sum (effect lines) = totalDebit lines - totalCredit lines := by
  induction lines with
  | nil => exact Finset.sum_eq_zero fun _ _ => rfl
  | cons x lines ih =>
    have hx : x.account ∈ codes := h x mem_cons_self
    have hone : codes.sum (fun code => if x.account = code then x.debit - x.credit else 0) =
        x.debit - x.credit := by
      rw [Finset.sum_ite_eq]
      simp [hx]
    simp only [effect_cons, Finset.sum_add_distrib, hone,
      ih fun y hy => h y (mem_cons_of_mem _ hy)]
    simp only [totalDebit, totalCredit, map_cons, sum_cons]
    omega

theorem totals_flatMap {ε : Type*} (f : ε → JournalLines) (entries : List ε) :
    totalDebit (entries.flatMap fun e => (f e).lines) =
      totalCredit (entries.flatMap fun e => (f e).lines) := by
  induction entries with
  | nil => rfl
  | cons e entries ih =>
    have he := (f e).balanced
    simp only [totalDebit, totalCredit, flatMap_cons, map_append, sum_append] at *
    omega

/-- A journal of accepted entries is in balance on every date. -/
theorem Books.trialBalanced_eq_true (b : Books) (asOf : ℕ) : b.trialBalanced asOf = true := by
  have hsum := sum_effect (b.linesWithin 0 asOf)
    ((b.linesWithin 0 asOf).map Line.account).toFinset
    fun x hx => by simpa using ⟨x, hx, rfl⟩
  rw [Books.linesWithin, totals_flatMap Entry.lines, sub_self, ← Books.linesWithin] at hsum
  have hsplit (code : ℕ) :
      effect (b.linesWithin 0 asOf) code = max (b.balance asOf code) 0 - max (-b.balance asOf code) 0 := by
    rw [Books.balance]
    omega
  simp only [hsplit, Finset.sum_sub_distrib] at hsum
  simp only [Books.trialBalanced, beq_iff_eq]
  omega

end SyrocePms.Ledger
