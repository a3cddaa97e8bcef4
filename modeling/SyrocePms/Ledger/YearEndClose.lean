import SyrocePms.Ledger.YearEnd

/-! The close of a fiscal year is not retryable once its entry is booked: the entry stands
under the key of the year, and a later attempt reads the result that it has booked as a
prior result to carry forward. What an attempt leaves is exact on every ledger. -/

namespace SyrocePms.Ledger

open Lib List

variable {b b' c : Books} {year : ℕ} {e : Entry}

namespace Books

/-! ### What a close is for -/

/-- Every profit-and-loss account has a zero balance for the year. -/
def PnlClosed (b : Books) (year : ℕ) : Prop :=
  ∀ code, b.isPnl code = true → b.activity year code = 0

/-- The result of `b` is in the equity result accounts of `b'`, beside what was not
carried forward. -/
def ResultBooked (b b' : Books) (year : ℕ) : Prop :=
  b'.balance (yearEnd year) 590 = max (b.balance (yearEnd year) 590) 0 - max (b.netIncome year) 0 ∧
    b'.balance (yearEnd year) 591 = min (b.balance (yearEnd year) 591) 0 + max (-b.netIncome year) 0

/-- A close that succeeds leaves the profit-and-loss accounts at zero and the result
booked. One that fails leaves the journal as it was, or a state from which an attempt
succeeds once the blockers are cleared, with the same journal. -/
def AllOrRetryable (b : Books) (year : ℕ) (o : Outside) : Prop :=
  let r := b.closeFiscalYear year o
  match r.2 with
  | .alreadyClosed => True
  | .closed => PnlClosed r.1 year ∧ ResultBooked b r.1 year
  | .refused _ | .raised => r.1.journal = b.journal ∨
    let r' := (r.1.cleared year).closeFiscalYear year {}
    r'.2 = .closed ∧ r'.1.journal = r.1.journal ∧ PnlClosed r'.1 year ∧ ResultBooked b r'.1 year

/-! ### When it does so -/

def booksLines (b : Books) (year : ℕ) (o : Outside) : Prop :=
  2000 ≤ year ∧ year ≤ 2099 ∧ year ∉ b.closures ∧ b.closingLines year ≠ [] ∧
    ∃ b₁, b.prepareClose year = .ok b₁ ∧ (b₁.postClosing year o).2 = none

/-- No profit-and-loss account among 570, 580, 590 and 591 takes part in carry-forward and
result. -/
def OnChart (b : Books) (year : ℕ) : Prop :=
  ∀ code, b.isPnl code = true →
    effect (b.carryLines year) code + effect (resultLines (b.netIncome year)) code = 0 ∧
      (code = 590 ∨ code = 591 → b.activity year code = 0)

/-- The result leaves no credit balance on 590 and no debit balance on 591: it is zero, or
an opposite balance swallows it. -/
def Absorbed (b : Books) (year : ℕ) : Prop :=
  max (b.netIncome year) 0 ≤ max (b.balance (yearEnd year) 590) 0 ∧
    max (-b.netIncome year) 0 ≤ max (-b.balance (yearEnd year) 591) 0

/-- An attempt that books closing lines books them for the first time, on a regular chart,
and goes through or leaves no result behind. -/
def ClosesOnce (b : Books) (year : ℕ) (o : Outside) : Prop :=
  b.booksLines year o →
    if (b.stored (some (.yearEndClose year))).isSome then ¬ o.clean
    else b.OnChart year ∧ (o.clean ∨ b.Absorbed year)

/-! ### The books after an attempt -/

/-- Journal and chart are those of `b`. -/
def SameLedger (b b' : Books) : Prop := b'.journal = b.journal ∧ b'.accounts = b.accounts

theorem SameLedger.closingLines (h : SameLedger b b') (year : ℕ) :
    b'.closingLines year = b.closingLines year := by
  obtain ⟨periods, accounts, journal, closures⟩ := b'
  obtain ⟨rfl, rfl⟩ := h
  rfl

theorem SameLedger.pnlClosed (h : SameLedger b b') (year : ℕ) :
    b'.PnlClosed year ↔ b.PnlClosed year := by
  obtain ⟨periods, accounts, journal, closures⟩ := b'
  obtain ⟨rfl, rfl⟩ := h
  rfl

theorem SameLedger.balance (h : SameLedger b b') (date code : ℕ) :
    b'.balance date code = b.balance date code := by
  obtain ⟨periods, accounts, journal, closures⟩ := b'
  obtain ⟨rfl, rfl⟩ := h
  rfl

theorem SameLedger.stored (h : SameLedger b b') (key : Option Key) :
    b'.stored key = b.stored key := by
  obtain ⟨periods, accounts, journal, closures⟩ := b'
  obtain ⟨rfl, rfl⟩ := h
  rfl

theorem SameLedger.missingCodes (h : SameLedger b b') : b'.missingCodes = b.missingCodes := by
  obtain ⟨periods, accounts, journal, closures⟩ := b'
  obtain ⟨rfl, rfl⟩ := h
  rfl

theorem SameLedger.resultBooked (h : SameLedger b b') (year : ℕ) :
    c.ResultBooked b' year ↔ c.ResultBooked b year := by
  rw [ResultBooked, ResultBooked, h.balance, h.balance]

theorem SameLedger.trans (h : SameLedger b b') (h' : SameLedger b' c) : SameLedger b c := ⟨h'.1.trans h.1, h'.2.trans h.2⟩

/-- The entry with the closing lines is added. -/
structure Booked (b b' : Books) (year : ℕ) (e : Entry) : Prop where
  journal : b'.journal = b.journal ++ [e]
  accounts : b'.accounts = b.accounts
  date : e.date = yearEnd year
  lines : e.lines.lines = b.closingLines year
  key : e.key = some (.yearEndClose year)
  fingerprint : e.fingerprint = some ⟨yearEnd year, .yearEndClose year, b.closingLines year⟩

variable {b b' : Books} {year : ℕ} {e : Entry}

theorem Booked.isPnl (h : Booked b b' year e) (code : ℕ) : b'.isPnl code = b.isPnl code := by
  rw [Books.isPnl, h.accounts, Books.isPnl]

theorem Booked.balance (h : Booked b b' year e) (code : ℕ) : b'.balance (yearEnd year) code =
    b.balance (yearEnd year) code + effect (b.closingLines year) code := by
  rw [balance_append h.journal (Nat.le_of_eq h.date), h.lines]

theorem Booked.activity (h : Booked b b' year e) (code : ℕ) : b'.activity year code =
    b.activity year code + effect (b.closingLines year) code := by
  have hle : yearStart year ≤ e.date := by
    rw [h.date]
    simp [yearStart, yearEnd, day]
  rw [Books.activity, linesWithin_append h.journal hle (Nat.le_of_eq h.date), effect_append, h.lines,
    Books.activity]

theorem Booked.closed_iff (h : Booked b b' year e) :
    b'.PnlClosed year ∧ b.ResultBooked b' year ↔ b.OnChart year := by
  have hactivity (code : ℕ) (hc : b.isPnl code = true) : b'.activity year code =
      effect (b.carryLines year) code + effect (resultLines (b.netIncome year)) code := by
    rw [h.activity, effect_closingLines, if_pos hc]
    omega
  have hprofit : b'.balance (yearEnd year) 590 = max (b.balance (yearEnd year) 590) 0 -
      max (b.netIncome year) 0 ↔ (b.isPnl 590 = true → b.activity year 590 = 0) := by
    rw [h.balance, effect_closingLines, effect_carryLines, effect_resultLines]
    by_cases hp : b.isPnl 590 = true <;> simp [hp] <;> omega
  have hloss : b'.balance (yearEnd year) 591 = min (b.balance (yearEnd year) 591) 0 +
      max (-b.netIncome year) 0 ↔ (b.isPnl 591 = true → b.activity year 591 = 0) := by
    rw [h.balance, effect_closingLines, effect_carryLines, effect_resultLines]
    by_cases hp : b.isPnl 591 = true <;> simp [hp] <;> omega
  rw [ResultBooked, hprofit, hloss]
  constructor
  · rintro ⟨hpnl, h590, h591⟩ code hc
    refine ⟨?_, ?_⟩
    · rw [← hactivity code hc]
      exact hpnl code (h.isPnl code ▸ hc)
    · rintro (rfl | rfl)
      · exact h590 hc
      · exact h591 hc
  · intro hchart
    refine ⟨fun code hc => ?_, fun hc => (hchart 590 hc).2 (.inl rfl),
      fun hc => (hchart 591 hc).2 (.inr rfl)⟩
    rw [h.isPnl] at hc
    rw [hactivity code hc]
    exact (hchart code hc).1

theorem Booked.closingLines_eq_nil (h : Booked b b' year e) (hchart : b.OnChart year) :
    b'.closingLines year = [] ↔ b.Absorbed year := by
  obtain ⟨hpnl, hprofit, hloss⟩ := h.closed_iff.mpr hchart
  rw [Books.closingLines_eq_nil, hprofit, hloss, Absorbed]
  constructor
  · rintro ⟨-, h590, h591⟩
    omega
  · rintro ⟨h590, h591⟩
    exact ⟨hpnl, by omega, by omega⟩

theorem Booked.closingLines_ne (h : Booked b b' year e) (hchart : b.OnChart year)
    (hne : b'.closingLines year ≠ []) : b'.closingLines year ≠ b.closingLines year := by
  intro heq
  obtain ⟨hpnl, hprofit, hloss⟩ := h.closed_iff.mpr hchart
  have hnet : b'.netIncome year = 0 := b'.netIncome_eq_zero year hpnl
  have hcarry : b'.closingLines year = b'.carryLines year := by
    rw [Books.closingLines, (b'.pnlLines_eq_nil year).mpr hpnl, (resultLines_eq_nil _).mpr hnet]
    simp
  obtain ⟨-, hresult⟩ := b.pnl_result_eq_nil_of_eq_carry year (heq.symm.trans hcarry)
  have hzero : b.netIncome year = 0 := (resultLines_eq_nil _).mp hresult
  refine hne ((Books.closingLines_eq_nil b' year).mpr ⟨hpnl, ?_, ?_⟩)
  · rw [hprofit, hzero]
    omega
  · rw [hloss, hzero]
    omega

end Books

/-! ### The periods -/

def YearReady (c : Periods) (year : ℕ) : Prop :=
  ∀ no, ∃ p ∈ c, p.key = (year, no) ∧ (p.isOpen = true ↔ no = december)

theorem periodRefusal_eq_none {c : Periods} : periodRefusal c year = none ↔ YearReady c year := by
  have hfin (no : Fin 12) : no < december ↔ no ≠ december := by
    revert no
    decide
  simp only [periodRefusal]
  constructor
  · intro h no
    split at h
    · cases h
    · rename_i hall
      split at h
      · cases h
      · rename_i hearlier
        split at h
        · cases h
        · rename_i hdec
          simp only [any_eq_true, mem_finRange, true_and, not_exists,
            Option.isNone_iff_eq_none] at hall
          obtain ⟨p, hp⟩ := Option.ne_none_iff_exists'.mp (hall no)
          obtain ⟨hmem, hkey⟩ := Collection.get?_eq_some.mp hp
          refine ⟨p, hmem, hkey, ?_⟩
          by_cases hno : no = december
          · subst hno
            simpa [hp] using hdec
          · simp only [any_eq_true, mem_finRange, true_and, not_exists] at hearlier
            have hclosed := hearlier no
            simp only [hp, (hfin no).mpr hno, Option.any_some, decide_true, Bool.true_and] at hclosed
            simp [hclosed, hno]
  · intro h
    have hget (no : Fin 12) : ∃ p, c.get? (year, no) = some p ∧ (p.isOpen = true ↔ no = december) := by
      obtain ⟨p, hmem, hkey, hopen⟩ := h no
      exact ⟨p, Collection.get?_eq_some.mpr ⟨hmem, hkey⟩, hopen⟩
    rw [if_neg, if_neg, if_neg]
    · obtain ⟨p, hp, hopen⟩ := hget december
      simp [hp, hopen]
    · simp only [any_eq_true, mem_finRange, true_and, not_exists]
      intro no
      obtain ⟨p, hp, hopen⟩ := hget no
      simp only [hp, Option.any_some, Bool.and_eq_true, decide_eq_true_eq, not_and, hfin, hopen]
      exact fun hne => hne
    · simp only [any_eq_true, mem_finRange, true_and, not_exists]
      intro no
      obtain ⟨p, hp, -⟩ := hget no
      simp [hp]

theorem YearReady.mono {c c' : Periods} (h : YearReady c year) (hc : ∀ x ∈ c, x ∈ c') :
    YearReady c' year := fun no =>
  let ⟨p, hp, hkey, hopen⟩ := h no
  ⟨p, hc p hp, hkey, hopen⟩

theorem YearReady.reopen {c : Periods} (h : YearReady c year) :
    YearReady (c.reopen (year, december)) year := by
  intro no
  obtain ⟨p, hp, hkey, hopen⟩ := h no
  by_cases hno : no = december
  · subst hno
    exact ⟨p.setOpen true, Periods.mem_reopen.mpr (.inr ⟨p, hp, hkey, rfl⟩), hkey, ⟨fun _ => rfl, fun _ => rfl⟩⟩
  · refine ⟨p, Periods.mem_reopen.mpr (.inl ⟨hp, ?_⟩), hkey, hopen⟩
    rw [hkey]
    simpa using hno

theorem YearReady.reopen_close {c : Periods} (h : YearReady c year) :
    YearReady ((c.close (year, december)).reopen (year, december)) year := by
  intro no
  obtain ⟨p, hp, hkey, hopen⟩ := h no
  by_cases hno : no = december
  · subst hno
    exact ⟨(p.setOpen false).setOpen true, Periods.mem_reopen.mpr (.inr ⟨p.setOpen false,
      Periods.mem_close.mpr (.inr ⟨p, hp, hkey, rfl⟩), hkey, rfl⟩), hkey,
      ⟨fun _ => rfl, fun _ => rfl⟩⟩
  · have hne : p.key ≠ (year, december) := by
      rw [hkey]
      simpa using hno
    exact ⟨p, Periods.mem_reopen.mpr (.inl ⟨Periods.mem_close.mpr (.inl ⟨hp, hne⟩), hne⟩),
      hkey, hopen⟩

/-! ### The parts of an attempt -/

namespace Books

variable {b b₁ b₂ : Books} {year : ℕ} {o : Outside}

theorem prepareClose_ok (h : b.prepareClose year = .ok b₁) : SameLedger b b₁ ∧
    b₁.closures = b.closures ∧ YearReady b₁.periods year ∧ b.missingCodes = [] := by
  simp only [prepareClose] at h
  split at h
  · cases h
  · split at h
    · cases h
    · rename_i hready
      split at h
      · cases h
      · rename_i hcodes
        cases h
        exact ⟨⟨rfl, rfl⟩, rfl, periodRefusal_eq_none.mp hready, by simpa using hcodes⟩

theorem prepareClose_of_ready (hlo : 2000 ≤ year) (hhi : year ≤ 2099)
    (hr : YearReady b.periods year) (hm : b.missingCodes = []) :
    ∃ b₁, b.prepareClose year = .ok b₁ := by
  have hensure : b.periods.ensureCalendarYear year = some (b.periods.ensureYear year) := by
    rw [Periods.ensureCalendarYear, if_pos ⟨hlo, by omega⟩]
  have hready := periodRefusal_eq_none.mpr (hr.mono (Periods.ensureCalendarYear_some hensure).1)
  refine ⟨{ b with periods := b.periods.ensureYear year }, ?_⟩
  simp only [prepareClose, hensure, hready, hm]
  rfl

theorem postClosing_none (h : b.postClosing year o = (b₂, none)) :
    (b₂ = b ∧ (b.closingLines year = [] ∨ (b.closingLines year ≠ [] ∧
      ∃ e, b.stored (some (.yearEndClose year)) = some e ∧
        e.repeats ⟨yearEnd year, .yearEndClose year, b.closingLines year⟩ = true))) ∨
    (b.closingLines year ≠ [] ∧ b.stored (some (.yearEndClose year)) = none ∧
      b₂.closures = b.closures ∧ (∀ x ∈ b.periods, x ∈ b₂.periods) ∧ ∃ e, Booked b b₂ year e) := by
  simp only [postClosing] at h
  split at h
  · rename_i hnil
    cases h
    exact .inl ⟨rfl, .inl hnil⟩
  · rename_i hne
    split at h
    · rename_i x e hpost
      cases h
      obtain ⟨rfl, hstored, date, hdate, hrep⟩ |
        ⟨hstored, hj, ha, hc, hp, date, hdate, hd, hl, hk, hf⟩ := postJournalEntry_ok hpost
      · have hyear : date = yearEnd year := normalizePostingDate_eq hdate
        subst hyear
        exact .inl ⟨rfl, .inr ⟨hne, e, hstored, hrep⟩⟩
      · have hyear : date = yearEnd year := normalizePostingDate_eq hdate
        subst hyear
        exact .inr ⟨hne, hstored, hc, hp, e, hj, ha, hd, hl, hk, hf⟩
    · cases h

theorem postClosing_some {e : PostingError} (h : b.postClosing year o = (b₂, some e)) :
    b₂.journal = b.journal := by
  simp only [postClosing] at h
  split at h
  · cases h
  · split at h
    · cases h
    · rename_i hpost
      cases h
      exact postJournalEntry_error hpost

theorem closePeriod_december (hr : YearReady b.periods year) (ready : Bool) :
    b.closePeriod (year, december) ready = if ready then
      .ok { b with periods := b.periods.close (year, december) } else .error .notReady := by
  obtain ⟨p, hp, hkey, hopen⟩ := hr december
  have hget : b.periods.get? (year, december) = some p := Collection.get?_eq_some.mpr ⟨hp, hkey⟩
  have hpopen : p.isOpen = true := hopen.mpr rfl
  have hearlier : b.periods.earlierOpen p = false := by
    rw [Periods.earlierOpen, Collection.any_eq_false]
    intro x hx hcond
    simp only [Bool.and_eq_true, beq_iff_eq, decide_eq_true_eq] at hcond
    obtain ⟨⟨hyear, hlt⟩, hxopen⟩ := hcond
    obtain ⟨q, hq, hqkey, hqopen⟩ := hr x.periodNo
    have hpyear : p.fiscalYear = year := congrArg Prod.fst hkey
    have hpno : p.periodNo = december := congrArg Prod.snd hkey
    have hxkey : x.key = q.key := by
      rw [hqkey, Period.key, hyear, hpyear]
    have heq : x = q := Collection.eq_of_key hx hq hxkey
    rw [heq] at hxopen
    have hdec := hqopen.mp hxopen
    rw [hdec, hpno] at hlt
    exact absurd hlt (lt_irrefl _)
  simp only [closePeriod, hget, hpopen, hearlier, b.trialBalanced_eq_true]
  cases ready <;> rfl

/-- The attempt gets to the close of December, with the books that it has then. -/
structure Reaches (b b₁ b₂ : Books) (year : ℕ) (o : Outside) : Prop where
  low : 2000 ≤ year
  high : year ≤ 2099
  notClosed : year ∉ b.closures
  prepare : b.prepareClose year = .ok b₁
  post : b₁.postClosing year o = (b₂, none)

theorem closeFiscalYear_of_reaches (h : Reaches b b₁ b₂ year o) (hr : YearReady b₂.periods year) :
    b.closeFiscalYear year o =
      if o.ready then
        let b₃ := { b₂ with periods := b₂.periods.close (year, december) }
        if o.interrupted then (b₃, .raised)
        else
          ({ b₃ with
            periods := (b₃.periods.ensureCalendarYear (year + 1)).getD b₃.periods
            closures := year :: b₃.closures }, .closed)
      else (b₂, .refused .notReady) := by
  have hyear : ¬ (year < 2000 ∨ 2099 < year) := by
    have hlo := h.low
    have hhi := h.high
    omega
  rw [closeFiscalYear, if_neg hyear, if_neg h.notClosed]
  simp only [h.prepare, h.post, closePeriod_december hr]
  cases o.ready <;> rfl

/-- An attempt that does not get there books nothing. -/
theorem closeFiscalYear_of_not_reaches (h : ∀ b₁ b₂, ¬ Reaches b b₁ b₂ year o) :
    ((b.closeFiscalYear year o).2 = .alreadyClosed ∨ ∃ r, (b.closeFiscalYear year o).2 = .refused r) ∧
      (b.closeFiscalYear year o).1.journal = b.journal := by
  simp only [closeFiscalYear]
  split
  · exact ⟨.inr ⟨_, rfl⟩, rfl⟩
  · rename_i hyear
    split
    · exact ⟨.inl rfl, rfl⟩
    · rename_i hclosed
      split
      · exact ⟨.inr ⟨_, rfl⟩, rfl⟩
      · rename_i b₁ hprep
        split
        · rename_i b₂ e hpost
          exact ⟨.inr ⟨_, rfl⟩, (postClosing_some hpost).trans (prepareClose_ok hprep).1.1⟩
        · rename_i b₂ hpost
          exact absurd ⟨by omega, by omega, hclosed, hprep, hpost⟩ (h b₁ b₂)

theorem booksLines_iff : b.booksLines year o ↔
    b.closingLines year ≠ [] ∧ ∃ b₁ b₂, Reaches b b₁ b₂ year o := by
  constructor
  · rintro ⟨hlo, hhi, hc, hl, b₁, hprep, hpost⟩
    exact ⟨hl, b₁, (b₁.postClosing year o).1, hlo, hhi, hc, hprep, Prod.ext rfl hpost⟩
  · rintro ⟨hl, b₁, b₂, hr⟩
    exact ⟨hr.low, hr.high, hr.notClosed, hl, b₁, hr.prepare, by rw [hr.post]⟩

/-! ### The attempts -/

theorem SameLedger.onChart (h : SameLedger b b₁) (year : ℕ) : b₁.OnChart year ↔ b.OnChart year := by
  obtain ⟨periods, accounts, journal, closures⟩ := b₁
  obtain ⟨rfl, rfl⟩ := h
  rfl

theorem SameLedger.absorbed (h : SameLedger b b₁) (year : ℕ) :
    b₁.Absorbed year ↔ b.Absorbed year := by
  obtain ⟨periods, accounts, journal, closures⟩ := b₁
  obtain ⟨rfl, rfl⟩ := h
  rfl

theorem SameLedger.resultBooked_left (h : SameLedger b b₁) (year : ℕ) :
    b₁.ResultBooked c year ↔ b.ResultBooked c year := by
  obtain ⟨periods, accounts, journal, closures⟩ := b₁
  obtain ⟨rfl, rfl⟩ := h
  rfl

theorem Booked.stored (h : Booked b b₂ year e) (hno : b.stored (some (.yearEndClose year)) = none) :
    b₂.stored (some (.yearEndClose year)) = some e := by
  simp only [Books.stored, h.journal, find?_append] at hno ⊢
  rw [hno]
  simp [h.key]

theorem retry_iff (hbooked : Booked b b₂ year e) (hno : b.stored (some (.yearEndClose year)) = none)
    (hc : SameLedger b₂ c) (hlo : 2000 ≤ year) (hhi : year ≤ 2099) (hclosed : year ∉ c.closures)
    (hready : YearReady c.periods year) (hm : b.missingCodes = []) :
    ((c.closeFiscalYear year {}).2 = .closed ∧
      (c.closeFiscalYear year {}).1.journal = b₂.journal ∧
      PnlClosed (c.closeFiscalYear year {}).1 year ∧
      ResultBooked b (c.closeFiscalYear year {}).1 year) ↔ b.OnChart year ∧ b.Absorbed year := by
  have hcodes : c.missingCodes = [] := by
    rw [hc.missingCodes, ← hm, Books.missingCodes, hbooked.accounts, Books.missingCodes]
  obtain ⟨c₁, hprep⟩ := prepareClose_of_ready hlo hhi hready hcodes
  obtain ⟨hsame, hcl, hready₁, -⟩ := prepareClose_ok hprep
  have hc₁ : SameLedger b₂ c₁ := hc.trans hsame
  have hlines := hc₁.closingLines year
  by_cases hnil : c₁.closingLines year = []
  · -- nothing is left to close, and the attempt goes through with the journal as it is
    have hpost : c₁.postClosing year {} = (c₁, none) := by rw [postClosing, if_pos hnil]
    have hreach : Reaches c c₁ c₁ year {} := ⟨hlo, hhi, hclosed, hprep, hpost⟩
    rw [closeFiscalYear_of_reaches hreach hready₁]
    have habsorbed : b.OnChart year → b.Absorbed year := fun hchart =>
      (hbooked.closingLines_eq_nil hchart).mp (hlines ▸ hnil)
    constructor
    · rintro ⟨-, -, hpnl, hresult⟩
      have hpnl' : b₂.PnlClosed year := (hc₁.pnlClosed year).mp hpnl
      have hchart := hbooked.closed_iff.mp ⟨hpnl', (hc₁.resultBooked year).mp hresult⟩
      exact ⟨hchart, habsorbed hchart⟩
    · rintro ⟨hchart, -⟩
      obtain ⟨hpnl, hresult⟩ := hbooked.closed_iff.mpr hchart
      exact ⟨rfl, hc₁.1, (hc₁.pnlClosed year).mpr hpnl, (hc₁.resultBooked year).mpr hresult⟩
  · have hne : b₂.closingLines year ≠ [] := hlines ▸ hnil
    constructor
    · -- the key finds the closing entry, whose lines are others
      rintro ⟨hans, hj, hpnl, hresult⟩
      exfalso
      by_cases hreach : ∃ d₁ d₂, Reaches c d₁ d₂ year {}
      · obtain ⟨d₁, d₂, hreach⟩ := hreach
        have hd := hreach.prepare
        rw [hprep] at hd
        cases hd
        have hpost := hreach.post
        obtain ⟨rfl, hnil' | ⟨-, e', hstored, hrep⟩⟩ | ⟨-, hstored, -⟩ := postClosing_none hpost
        · exact hnil hnil'
        · rw [hc₁.stored, hbooked.stored hno] at hstored
          cases hstored
          rw [closeFiscalYear_of_reaches hreach hready₁] at hpnl hresult
          have hchart := hbooked.closed_iff.mp
            ⟨(hc₁.pnlClosed year).mp hpnl, (hc₁.resultBooked year).mp hresult⟩
          rw [Entry.repeats, hbooked.fingerprint] at hrep
          simp only [Option.all_some, beq_iff_eq, Content.mk.injEq, true_and] at hrep
          exact hbooked.closingLines_ne hchart hne (by rw [← hlines, ← hrep])
        · rw [hc₁.stored, hbooked.stored hno] at hstored
          cases hstored
      · obtain ⟨h | ⟨r, h⟩, -⟩ := closeFiscalYear_of_not_reaches fun d₁ d₂ hr => hreach ⟨d₁, d₂, hr⟩
        · rw [h] at hans
          cases hans
        · rw [h] at hans
          cases hans
    · rintro ⟨hchart, habs⟩
      exact absurd ((hbooked.closingLines_eq_nil hchart).mpr habs) hne

/-- An attempt that is held up at December keeps what it has booked, and December can be
opened again. -/
theorem closeFiscalYear_of_not_clean (h : Reaches b b₁ b₂ year o) (hr : YearReady b₂.periods year)
    (hclean : ¬ o.clean) :
    ((b.closeFiscalYear year o).2 = .refused .notReady ∨ (b.closeFiscalYear year o).2 = .raised) ∧
      SameLedger b₂ (b.closeFiscalYear year o).1 ∧
      (b.closeFiscalYear year o).1.closures = b₂.closures ∧
      YearReady ((b.closeFiscalYear year o).1.cleared year).periods year := by
  rw [closeFiscalYear_of_reaches h hr]
  cases hready : o.ready with
  | false => exact ⟨.inl rfl, ⟨rfl, rfl⟩, rfl, hr.reopen⟩
  | true =>
    have hint : o.interrupted = true := by simpa [Outside.clean, hready] using hclean
    rw [hint]
    exact ⟨.inr rfl, ⟨rfl, rfl⟩, rfl, hr.reopen_close⟩

/-- Without a fresh booking the attempt keeps the journal, and it closes the year rightly
when there was nothing to book. -/
theorem allOrRetryable_of_kept (h : Reaches b b₁ b₁ year o) :
    AllOrRetryable b year o ↔ (o.clean → b.closingLines year = []) := by
  obtain ⟨hs, -, hready, -⟩ := prepareClose_ok h.prepare
  have heq := closeFiscalYear_of_reaches h hready
  have hself : PnlClosed b year ∧ ResultBooked b b year ↔ b.closingLines year = [] := by
    rw [Books.closingLines_eq_nil, ResultBooked]
    constructor
    · rintro ⟨hpnl, hprofit, hloss⟩
      have hnet := b.netIncome_eq_zero year hpnl
      rw [hnet] at hprofit hloss
      exact ⟨hpnl, by omega, by omega⟩
    · rintro ⟨hpnl, h590, h591⟩
      have hnet := b.netIncome_eq_zero year hpnl
      exact ⟨hpnl, by omega, by omega⟩
  by_cases hclean : o.clean
  · obtain ⟨hr, hi⟩ := hclean
    have hans : (b.closeFiscalYear year o).2 = .closed := by rw [heq, hr, hi]; rfl
    have hsame : SameLedger b (b.closeFiscalYear year o).1 := by rw [heq, hr, hi]; exact hs
    simp only [AllOrRetryable, hans]
    rw [hsame.pnlClosed, hsame.resultBooked, hself]
    simp [Outside.clean, hr, hi]
  · obtain ⟨hans, hkept, -⟩ := closeFiscalYear_of_not_clean h hready hclean
    refine ⟨fun _ hc => absurd hc hclean, fun _ => ?_⟩
    obtain hans | hans := hans <;> simp only [AllOrRetryable, hans] <;>
      exact .inl (hkept.1.trans hs.1)

/-- With a fresh booking the attempt is right on a regular chart when it goes through, or
when it leaves no result behind. -/
theorem allOrRetryable_of_booked (h : Reaches b b₁ b₂ year o) (hbooked : Booked b₁ b₂ year e)
    (hno : b₁.stored (some (.yearEndClose year)) = none) (hready : YearReady b₂.periods year)
    (hcl : b₂.closures = b.closures) :
    AllOrRetryable b year o ↔ b.OnChart year ∧ (o.clean ∨ b.Absorbed year) := by
  obtain ⟨hs, -, -, hm⟩ := prepareClose_ok h.prepare
  by_cases hclean : o.clean
  · obtain ⟨hr, hi⟩ := hclean
    have heq := closeFiscalYear_of_reaches h hready
    have hans : (b.closeFiscalYear year o).2 = .closed := by rw [heq, hr, hi]; rfl
    have hsame : SameLedger b₂ (b.closeFiscalYear year o).1 := by rw [heq, hr, hi]; exact ⟨rfl, rfl⟩
    simp only [AllOrRetryable, hans]
    rw [hsame.pnlClosed, hsame.resultBooked, ← hs.resultBooked_left, hbooked.closed_iff, hs.onChart]
    simp [Outside.clean, hr, hi]
  · obtain ⟨hans, hsame, hclosures, hopen⟩ := closeFiscalYear_of_not_clean h hready hclean
    have hmissing : b₁.missingCodes = [] := by rw [hs.missingCodes, hm]
    have hnew : (b.closeFiscalYear year o).1.journal ≠ b.journal := by
      rw [hsame.1, hbooked.journal, hs.1]
      simp
    have hclosed : year ∉ ((b.closeFiscalYear year o).1.cleared year).closures := by
      rw [cleared, hclosures, hcl]
      exact h.notClosed
    have hretry := retry_iff hbooked hno (c := (b.closeFiscalYear year o).1.cleared year) hsame
      h.low h.high hclosed hopen hmissing
    rw [hs.resultBooked_left, hs.onChart, hs.absorbed, ← hsame.1] at hretry
    simp only [hclean, false_or]
    rw [← hretry]
    obtain hans | hans := hans <;> simp only [AllOrRetryable, hans, hnew, false_or]

/-- An attempt to close a fiscal year is all or retryable exactly when it books its lines
once, on a regular chart, and goes through or leaves no result behind. -/
theorem closeFiscalYear_allOrRetryable (b : Books) (year : ℕ) (o : Outside) :
    AllOrRetryable b year o ↔ ClosesOnce b year o := by
  by_cases hreach : ∃ b₁ b₂, Reaches b b₁ b₂ year o
  · obtain ⟨b₁, b₂, hreach⟩ := hreach
    obtain ⟨hs, hcl₁, hready, -⟩ := prepareClose_ok hreach.prepare
    have hlines := hs.closingLines year
    obtain ⟨rfl, hnil | ⟨hne, e, hstored, -⟩⟩ | ⟨hne, hstored, hcl, hkeep, e, hbooked⟩ :=
      postClosing_none hreach.post
    · have hnil' : b.closingLines year = [] := hlines ▸ hnil
      rw [allOrRetryable_of_kept hreach, ClosesOnce, booksLines_iff]
      simp [hnil']
    · have hne' : b.closingLines year ≠ [] := hlines ▸ hne
      rw [allOrRetryable_of_kept hreach, ClosesOnce, booksLines_iff, ← hs.stored, hstored]
      simp [hne', show ∃ b₁ b₂, Reaches b b₁ b₂ year o from ⟨_, _, hreach⟩]
    · have hne' : b.closingLines year ≠ [] := hlines ▸ hne
      rw [allOrRetryable_of_booked hreach hbooked hstored (hready.mono hkeep) (hcl.trans hcl₁),
        ClosesOnce, booksLines_iff, ← hs.stored, hstored]
      simp [hne', show ∃ b₁ b₂, Reaches b b₁ b₂ year o from ⟨_, _, hreach⟩]
  · obtain ⟨hans, hj⟩ := closeFiscalYear_of_not_reaches fun b₁ b₂ hr => hreach ⟨b₁, b₂, hr⟩
    have hright : ClosesOnce b year o := fun hb => absurd (booksLines_iff.mp hb).2 hreach
    refine ⟨fun _ => hright, fun _ => ?_⟩
    obtain h | ⟨r, h⟩ := hans <;> simp only [AllOrRetryable, h]
    exact .inl hj

/-! ### A year with a profit -/

def smallChart : Collection Account Account.code where
  rows := [⟨100, .asset, true⟩, ⟨570, .equity, true⟩, ⟨580, .equity, true⟩, ⟨590, .equity, true⟩,
    ⟨591, .equity, true⟩, ⟨600, .revenue, true⟩, ⟨690, .equity, true⟩]
  unique := by decide

/-- A sale of 100, with every month but December closed. -/
def profitYear : Books where
  periods := (Periods.ensureYear Collection.empty 2026).updateMany
    (fun p => p.periodNo < december) (fun p => { p with isOpen := false }) fun _ => rfl
  accounts := smallChart
  journal := [{
    fiscalYear := 2026
    date := 20260601
    source := .other 1
    lines := ⟨[{ account := 100, debit := 10000, memo := .text 0 },
      { account := 600, credit := 10000, memo := .text 0 }], rfl⟩
    key := none
    fingerprint := none }]
  closures := []

example : (profitYear.closeFiscalYear 2026 {}).2 = .closed := by decide +kernel

/-- December is held up after the entry was booked, and every later attempt is refused. -/
theorem closeFiscalYear_not_retryable : ¬ profitYear.AllOrRetryable 2026 { ready := false } := by
  have hans : (profitYear.closeFiscalYear 2026 { ready := false }).2 = .refused .notReady := by
    decide +kernel
  have hbooked : (profitYear.closeFiscalYear 2026 { ready := false }).1.journal.length = 2 := by
    decide +kernel
  have hretry : (((profitYear.closeFiscalYear 2026 { ready := false }).1.cleared 2026).closeFiscalYear
      2026 {}).2 = .refused (.posting .keyReused) := by decide +kernel
  simp only [AllOrRetryable, hans, hretry]
  rintro (hj | ⟨h, -⟩)
  · rw [hj] at hbooked
    cases hbooked
  · cases h

end Books

end SyrocePms.Ledger
