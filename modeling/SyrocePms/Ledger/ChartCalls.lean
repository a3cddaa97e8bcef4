import SyrocePms.Ledger.Statements
import SyrocePms.Lib.Threads

/-! The calls that write the chart of accounts and the journal, one operation at a time. A
creation looks its code up before it inserts, and the unique index is made by nothing but
`initialize_chart_of_accounts`. What else can refuse a post (its period, its key, its
ordinal) is the stop of the call. -/

namespace SyrocePms.Ledger.ChartCalls

open Lib List

variable {code : ℕ} {chart : List ChartRow} {a : ChartRow} {lines : JournalLines}

/-- `index` says whether `ux_gl_accounts_tenant_code` is there. -/
structure Store extends GeneralLedger where
  index : Bool := false

structure AccountIn where
  code : ℕ
  type : AccountType
  active : Bool := true
  normalBalance : Option Side := none

/-- The document that `create_account` inserts. -/
def AccountIn.row (a : AccountIn) : ChartRow where
  code := a.code
  type := a.type
  active := a.active
  normalBalance := some (a.normalBalance.getD a.type.normalBalance)

/-- The set fields of `AccountUpdate`. `normalBalance` may be set to null. -/
structure AccountUpdate where
  active : Option Bool := none
  normalBalance : Option (Option Side) := none

/-- The `$set` of `update_account`, for the type that was read. -/
def AccountUpdate.apply (u : AccountUpdate) (type : AccountType) (a : ChartRow) : ChartRow :=
  { a with
    active := u.active.getD a.active
    normalBalance :=
      match u.normalBalance with
      | none => a.normalBalance
      | some side => some (side.getD type.normalBalance) }

def updateOne (code : ℕ) (f : ChartRow → ChartRow) : List ChartRow → List ChartRow
  | [] => []
  | a :: rows => if a.code = code then f a :: rows else a :: updateOne code f rows

def standard (code : ℕ) (type : AccountType) (side : Side := type.normalBalance) : ChartRow where
  code := code
  type := type
  active := true
  normalBalance := some side

def defaultChartOfAccounts : List ChartRow :=
  [standard 100 .asset, standard 102 .asset, standard 108 .asset, standard 120 .asset,
    standard 150 .asset, standard 153 .asset, standard 191 .asset, standard 196 .asset,
    standard 257 .asset .credit, standard 320 .liability, standard 335 .liability,
    standard 336 .liability, standard 360 .liability, standard 361 .liability,
    standard 391 .liability, standard 570 .equity, standard 580 .equity .debit,
    standard 590 .equity, standard 591 .equity .debit, standard 600 .revenue,
    standard 611 .revenue .debit, standard 646 .revenue, standard 656 .expense,
    standard 690 .equity, standard 740 .expense, standard 770 .expense]

def reversedLines (lines : List Line) : List Line :=
  lines.map fun x => { x with debit := x.credit, credit := x.debit }

inductive Call where
  | create (a : AccountIn)
  | update (code : ℕ) (u : AccountUpdate)
  | initializeChart
  | post (date : ℕ) (lines : List Line)
  | reverse (entry : ℕ) (date : ℕ)

inductive Pc where
  | lookup (a : AccountIn)
  | insert (a : AccountIn)
  | before (code : ℕ) (u : AccountUpdate)
  | set (code : ℕ) (u : AccountUpdate) (type : AccountType)
  | ensureIndex
  | upsert (rest : List ChartRow)
  | original (entry : ℕ) (date : ℕ)
  | accounts (date : ℕ) (lines : JournalLines) (reverses : Option ℕ)
  | entry (date : ℕ) (lines : JournalLines) (reverses : Option ℕ)
  | returned

/-- The start of `post_journal_entry`. -/
def beginPost (date : ℕ) (lines : List Line) (reverses : Option ℕ) : Pc :=
  match normalizePostingDate date with
  | none => .returned
  | some date =>
    match normalizeJournalLines lines with
    | .error _ => .returned
    | .ok lines => .accounts date lines reverses

def begin : Call → Pc
  | .create a => .lookup a
  | .update code u => .before code u
  | .initializeChart => .ensureIndex
  | .post date lines => beginPost date lines none
  | .reverse entry date => .original entry date

def Store.has (s : Store) (code : ℕ) : Bool := s.chart.any fun a => a.code == code

def Store.accepts (s : Store) (lines : List Line) : Bool :=
  lines.all fun x => (byCode s.chart x.account).any fun a => a.active

def Store.add (s : Store) (a : ChartRow) : Store := { s with chart := s.chart ++ [a] }

def advance (s : Store) : Pc → Option (Store × Pc)
  | .lookup a => some (s, if s.has a.code then .returned else .insert a)
  | .insert a => some (if s.index && s.has a.code then s else s.add a.row, .returned)
  | .before code u =>
    some (s, match s.chart.find? fun a => a.code == code with
      | none => .returned
      | some a => .set code u a.type)
  | .set code u type =>
    some ({ s with chart := updateOne code (u.apply type) s.chart }, .returned)
  | .ensureIndex =>
    -- the index cannot be made over duplicates, and the call raises
    if s.index ∨ (s.chart.map fun a => a.code).Nodup then
      some ({ s with index := true }, .upsert defaultChartOfAccounts)
    else some (s, .returned)
  | .upsert [] => some (s, .returned)
  | .upsert (a :: rest) => some (if s.has a.code then s else s.add a, .upsert rest)
  | .original entry date =>
    some (s, match s.journal[entry]? with
      | none => .returned
      | some e =>
        if e.reverses.isSome ∨ date < e.date ∨ s.journal.any fun x => x.reverses == some entry then
          .returned
        else beginPost date (reversedLines e.lines.lines) (some entry))
  | .accounts date lines reverses =>
    some (s, if s.accepts lines.lines then .entry date lines reverses else .returned)
  | .entry date lines reverses =>
    some ({ s with journal := s.journal ++ [⟨date, lines, reverses⟩] }, .returned)
  | .returned => none

inductive Move where
  | advance
  | stop

/-- A call that is refused or broken off writes nothing more. -/
def step (s : Store) (pc : Pc) : Move → Option (Store × Pc)
  | .advance => advance s pc
  | .stop => some (s, .returned)

def calls : Program Store Pc Empty Call Move where
  init s := s.chart = [] ∧ s.journal = []
  env _ e := nomatch e
  call _ c := some (begin c)
  step _ s pc m := step s pc m

/-! ### The condition -/

/-- A creation of a balance-sheet account does not insert it beside a profit-and-loss
account of its code, which another creation has inserted since it looked. -/
def Apart (s : Store) : Pc → Prop
  | .insert a => s.index = true ∨ a.type.isPnl = true ∨ ∀ t ∈ typesOf s.chart a.code, t.isPnl = false
  | _ => True

def CreatesApart (p : Pool Store Pc) : Act Empty Call Move → Prop
  | .step k _ => ∀ pc ∈ p.threads[k]?, Apart p.store pc
  | _ => True

/-! ### The types under a code -/

/-- No code stands for a balance-sheet account now and for a profit-and-loss account too. -/
def Single (chart : List ChartRow) : Prop :=
  ∀ code t, trialType chart code = some t → t.isPnl = false →
    ∀ u ∈ typesOf chart code, u.isPnl = false

theorem typesOf_cons (a : ChartRow) (chart : List ChartRow) (code : ℕ) :
    typesOf (a :: chart) code = (if a.code = code then [a.type] else []) ++ typesOf chart code := by
  simp only [typesOf, filter_cons, beq_iff_eq]
  split <;> rfl

theorem typesOf_append (chart : List ChartRow) (a : ChartRow) (code : ℕ) :
    typesOf (chart ++ [a]) code = typesOf chart code ++ if a.code = code then [a.type] else [] := by
  induction chart with
  | nil =>
    rw [nil_append, typesOf_cons]
    exact append_nil _
  | cons b chart ih => rw [cons_append, typesOf_cons, typesOf_cons, ih, append_assoc]

theorem typesOf_updateOne (chart : List ChartRow) (u : AccountUpdate) (type : AccountType)
    (code code' : ℕ) :
    typesOf (updateOne code (u.apply type) chart) code' = typesOf chart code' := by
  induction chart with
  | nil => rfl
  | cons a chart ih =>
    simp only [updateOne]
    split
    · rw [typesOf_cons, typesOf_cons]
      rfl
    · rw [typesOf_cons, typesOf_cons, ih]

variable {s : Store}

theorem has_eq_true : s.has code = true ↔ typesOf s.chart code ≠ [] := by
  simp [Store.has, typesOf]

theorem classes_eq_one (h : Single chart) (hc : typesOf chart code ≠ []) :
    classes chart code = 1 := by
  obtain ⟨t, ht⟩ : ∃ t, trialType chart code = some t :=
    ⟨_, getLast?_eq_some_getLast hc⟩
  have hmem : t ∈ typesOf chart code := mem_of_getLast? ht
  cases hp : t.isPnl with
  | true =>
    have hsome : (pnlType chart code).isSome = true := by
      rw [pnlType, getLast?_isSome]
      exact ne_nil_of_mem (mem_filter.mpr ⟨hmem, hp⟩)
    simp [classes, ht, hp, hsome]
  | false =>
    have hnone : pnlType chart code = none := by
      rw [pnlType, getLast?_eq_none_iff, filter_eq_nil_iff]
      intro u hu
      simp [h code t ht hp u hu]
    simp [classes, ht, hp, hnone]

theorem Single.append (h : Single chart)
    (ha : a.type.isPnl = true ∨ ∀ t ∈ typesOf chart a.code, t.isPnl = false) :
    Single (chart ++ [a]) := by
  intro code t ht hp u hu
  rw [trialType, typesOf_append] at ht
  rw [typesOf_append] at hu
  by_cases hcode : a.code = code
  · rw [if_pos hcode] at ht hu
    obtain rfl : a.type = t := by simpa using ht
    obtain hpnl | hnone := ha
    · rw [hp] at hpnl
      cases hpnl
    · rw [← hcode] at hu
      obtain hu | hu := mem_append.mp hu
      · exact hnone u hu
      · rw [mem_singleton.mp hu]
        exact hp
  · rw [if_neg hcode, append_nil] at ht hu
    exact h code t ht hp u hu

/-! ### The invariant -/

def Known (s : Store) (lines : JournalLines) : Prop :=
  ∀ x ∈ lines.lines, typesOf s.chart x.account ≠ []

structure Sound (s : Store) : Prop where
  single : Single s.chart
  known : ∀ e ∈ s.journal, Known s e.lines

/-- A post that inserts has found its accounts. -/
def Pc.Ok (s : Store) : Pc → Prop
  | .entry _ lines _ => Known s lines
  | _ => True

def Keeps (s s' : Store) : Prop := ∀ code, typesOf s.chart code ≠ [] → typesOf s'.chart code ≠ []

variable {s' : Store}

theorem Known.mono (h : Known s lines) (hk : Keeps s s') : Known s' lines := fun x hx => hk x.account (h x hx)

variable {pc : Pc}

theorem Pc.Ok.mono (h : pc.Ok s) (hk : Keeps s s') : pc.Ok s' := by
  cases pc with
  | entry => exact Known.mono h hk
  | _ => trivial

theorem known_of_accepts (h : s.accepts lines.lines = true) : Known s lines := by
  intro x hx hnil
  have ha := all_eq_true.mp h x hx
  obtain ⟨a, hby, -⟩ := (Option.any_eq_true _ _).mp ha
  have htype := map_type_byCode s.chart x.account
  rw [hby, trialType, hnil] at htype
  cases htype

theorem beginPost_ok {date : ℕ} {lines : List Line} {reverses : Option ℕ} :
    (beginPost date lines reverses).Ok s := by
  unfold beginPost
  split
  · trivial
  · split <;> trivial

theorem keeps_add (s : Store) (a : ChartRow) : Keeps s (s.add a) := by
  intro code hne
  simp only [Store.add, typesOf_append]
  exact fun hnil => hne (append_eq_nil_iff.mp hnil).1

theorem Sound.add (h : Sound s)
    (ha : a.type.isPnl = true ∨ ∀ t ∈ typesOf s.chart a.code, t.isPnl = false) :
    Sound (s.add a) where
  single := h.single.append ha
  known e he := (h.known e he).mono (keeps_add s a)

/-- A code that the chart does not have stands for no other account. -/
theorem Sound.add_of_not_has (h : Sound s) (ha : ¬ s.has a.code = true) : Sound (s.add a) := by
  rw [has_eq_true, not_not] at ha
  exact h.add (.inr (by simp [ha]))

/-- One operation keeps the invariant and the codes of the chart. -/
theorem step_sound {pc' : Pc} {m : Move} (h : Sound s) (hpc : pc.Ok s) (ha : Apart s pc)
    (hs : step s pc m = some (s', pc')) : Sound s' ∧ pc'.Ok s' ∧ Keeps s s' := by
  have hrefl : Keeps s s := fun _ hne => hne
  cases m with
  | stop =>
    cases hs
    exact ⟨h, trivial, hrefl⟩
  | advance =>
    cases pc with
    | lookup a =>
      cases hs
      refine ⟨h, ?_, hrefl⟩
      split <;> trivial
    | insert a =>
      cases hs
      split
      · exact ⟨h, trivial, hrefl⟩
      · rename_i hfree
        refine ⟨?_, trivial, keeps_add s _⟩
        obtain hindex | ha := ha
        · exact h.add_of_not_has fun hhas => hfree (by rw [hindex]; exact hhas)
        · exact h.add ha
    | before code u =>
      cases hs
      refine ⟨h, ?_, hrefl⟩
      split <;> trivial
    | set code u type =>
      cases hs
      have hsame (code' : ℕ) := typesOf_updateOne s.chart u type code code'
      have hkeeps : Keeps s { s with chart := updateOne code (u.apply type) s.chart } :=
        fun code' hne => by rwa [hsame]
      refine ⟨⟨fun code' t ht hp => ?_, fun e he => (h.known e he).mono hkeeps⟩, trivial, hkeeps⟩
      rw [trialType, hsame] at ht
      rw [hsame]
      exact h.single code' t ht hp
    | ensureIndex =>
      simp only [step, advance] at hs
      split at hs <;> cases hs
      · exact ⟨⟨h.single, h.known⟩, trivial, hrefl⟩
      · exact ⟨h, trivial, hrefl⟩
    | upsert rest =>
      cases rest with
      | nil =>
        cases hs
        exact ⟨h, trivial, hrefl⟩
      | cons a rest =>
        cases hs
        split
        · exact ⟨h, trivial, hrefl⟩
        · rename_i hfree
          exact ⟨h.add_of_not_has hfree, trivial, keeps_add s a⟩
    | original entry date =>
      cases hs
      refine ⟨h, ?_, hrefl⟩
      split
      · trivial
      · split
        · trivial
        · exact beginPost_ok
    | accounts date lines reverses =>
      cases hs
      refine ⟨h, ?_, hrefl⟩
      split
      · exact known_of_accepts (by assumption)
      · trivial
    | entry date lines reverses =>
      cases hs
      refine ⟨⟨h.single, fun e he => ?_⟩, trivial, hrefl⟩
      obtain he | he := mem_append.mp he
      · exact h.known e he
      · rw [mem_singleton.mp he]
        exact hpc
    | returned => cases hs

theorem preserves : Program.Preserves calls CreatesApart Sound (fun s _ pc => pc.Ok s)
    (fun _ _ => True) where
  symm _ _ _ := trivial
  init s h₀ := by
    obtain ⟨hchart, hjournal⟩ := h₀
    refine ⟨fun code t ht _ => ?_, by simp [hjournal]⟩
    rw [trialType, hchart] at ht
    cases ht
  env _ e := by cases e
  call p c pc _ _ hc := by
    cases hc
    refine ⟨?_, fun _ _ => trivial⟩
    cases c with
    | post => exact beginPost_ok
    | _ => trivial
  step p k m pc s' pc' hi hc ht hs := by
    obtain ⟨hsound, hok, hkeeps⟩ := step_sound hi.store (hi.thread k pc ht) (hc pc ht) hs
    exact ⟨hsound, hok, fun j u _ hu => ⟨(hi.thread j u hu).mono hkeeps, trivial⟩⟩

theorem Sound.counted_once (h : Sound s) (dates : DateFilter) :
    ∀ x ∈ s.linesIn dates, classes s.chart x.account = 1 := by
  intro x hx
  obtain ⟨e, he, hx⟩ := mem_flatMap.mp hx
  exact classes_eq_one h.single (h.known e (mem_filter.mp he).1 x hx)

/-! ### The statements -/

/-- A date is refused, or the three statements of the date are in balance. -/
def InBalance (l : GeneralLedger) (asOf : Option ℕ) : Prop :=
  (∃ e, reportDateFilter none asOf = .error e) ∨
    ∃ t b i, computeTrialBalance l asOf = .ok t ∧ computeBalanceSheet l asOf = .ok b ∧
      computeIncomeStatement l none asOf = .ok i ∧
      t.debitTotal = t.creditTotal ∧ t.balanced = true ∧
      b.difference = 0 ∧ b.balanced = true ∧ b.currentEarnings = i.netIncome

theorem inBalance_of_classes {l : GeneralLedger} {asOf : Option ℕ}
    (h : ∀ dates, ∀ x ∈ l.linesIn dates, Ledger.classes l.chart x.account = 1) :
    InBalance l asOf := by
  cases hd : reportDateFilter none asOf with
  | error e => exact .inl ⟨e, hd⟩
  | ok dates =>
    obtain ⟨t, ht⟩ : ∃ t, computeTrialBalance l asOf = .ok t := by
      simp only [computeTrialBalance, hd]
      exact ⟨_, rfl⟩
    obtain ⟨i, hi⟩ : ∃ i, computeIncomeStatement l none asOf = .ok i := by
      simp only [computeIncomeStatement, hd]
      exact ⟨_, rfl⟩
    obtain ⟨b, hb⟩ : ∃ b, computeBalanceSheet l asOf = .ok b := by
      simp only [computeBalanceSheet, ht, hi]
      exact ⟨_, rfl⟩
    have hdiff := balanced_of_classes hd (h dates) hb
    have hread := hb
    simp only [computeBalanceSheet, ht, hi, Except.ok.injEq] at hread
    refine .inr ⟨t, b, i, ht, hb, hi, (debitTotal_eq ht).1, (debitTotal_eq ht).2, hdiff, ?_, ?_⟩
    · rw [← hread] at hdiff ⊢
      exact beq_iff_eq.mpr hdiff
    · rw [← hread]

instance (s : Store) (pc : Pc) : Decidable (Apart s pc) :=
  match pc with
  | .insert _ => inferInstanceAs (Decidable (_ ∨ _ ∨ ∀ _ ∈ _, _))
  | .lookup _ | .before .. | .set .. | .ensureIndex | .upsert _ | .original .. | .accounts ..
  | .entry .. | .returned => .isTrue trivial

instance (p : Pool Store Pc) (a : Act Empty Call Move) : Decidable (CreatesApart p a) :=
  match a with
  | .env _ => .isTrue trivial
  | .call _ => .isTrue trivial
  | .step k _ => inferInstanceAs (Decidable (∀ pc ∈ p.threads[k]?, _))

/-- In every run in which no balance-sheet account is inserted beside a profit-and-loss
account of its code, the statements of every date are in balance. -/
theorem statements_balance {p : Pool Store Pc} (h : calls.machine.Reach CreatesApart p)
    (asOf : Option ℕ) : InBalance p.store.toGeneralLedger asOf :=
  inBalance_of_classes (preserves.reach h).store.counted_once

def saleRun : List (Act Empty Call Move) :=
  [.call (.create ⟨100, .asset, true, none⟩), .step 0 .advance, .step 0 .advance,
    .call (.create ⟨300, .revenue, true, none⟩), .step 1 .advance, .step 1 .advance,
    .call (.post 20260105 [⟨100, 50, 0, .text 0⟩, ⟨300, 0, 50, .text 0⟩]),
    .step 2 .advance, .step 2 .advance]

/-- The same sale when a second creation of the code, of another type, has looked before the
first one inserts. -/
def racingRun : List (Act Empty Call Move) :=
  [.call (.create ⟨100, .asset, true, none⟩), .step 0 .advance, .step 0 .advance,
    .call (.create ⟨300, .revenue, true, none⟩), .call (.create ⟨300, .asset, true, none⟩),
    .step 1 .advance, .step 2 .advance, .step 1 .advance, .step 2 .advance,
    .call (.post 20260105 [⟨100, 50, 0, .text 0⟩, ⟨300, 0, 50, .text 0⟩]),
    .step 3 .advance, .step 3 .advance]

theorem statements_balance_sale : ∃ p : Pool Store Pc, p.store.journal.length = 1 ∧
    InBalance p.store.toGeneralLedger (some 20260131) := by
  obtain ⟨p, hp, hlen⟩ := Machine.exists_reach_of_runUnder (M := calls.machine) (C := CreatesApart)
    (s := ⟨{ chart := [], journal := [] }, []⟩) (f := fun p => p.store.journal.length) (v := 1)
    saleRun ⟨⟨rfl, rfl⟩, rfl⟩ (by decide +kernel)
  exact ⟨p, hlen, statements_balance hp (some 20260131)⟩

/-- The code is counted among the assets and in the result. -/
theorem racing_accounts_unbalance : ¬ ∀ p : Pool Store Pc, calls.machine.Reachable p →
    ∀ asOf, InBalance p.store.toGeneralLedger asOf := by
  intro hall
  obtain ⟨p, hp, hv⟩ := Machine.exists_reachable_of_run (M := calls.machine)
    (s := ⟨{ chart := [], journal := [] }, []⟩)
    (f := fun p => (computeBalanceSheet p.store.toGeneralLedger none).toOption.map fun b => b.difference)
    (v := some (-50)) racingRun ⟨⟨rfl, rfl⟩, rfl⟩ (by decide +kernel)
  obtain ⟨e, he⟩ | ⟨t, b, i, -, hb, -, -, -, hzero, -⟩ := hall p hp none
  · cases he
  · rw [hb] at hv
    simp [Except.toOption, hzero] at hv

end SyrocePms.Ledger.ChartCalls
