import SyrocePms.Ledger.Revaluation

/-! The balances behind a revaluation: what the loops count for an account is what the entries
carry for it, and what is posted moves each account by its difference. -/

namespace SyrocePms.Ledger.Foreign

open Lib List

/-! ### The balances of an account -/

def PostedLine.inCurrency (currency : ℕ) (p : PostedLine) : Bool :=
  p.foreign.any (·.currency == currency)

def carriedBy (account currency : ℕ) (whole : Bool) (lines : List PostedLine) : ℤ :=
  (lines.map fun p =>
    if p.accountCode = account ∧ (p.inCurrency currency || whole) = true then p.debit - p.credit
    else 0).sum

def JournalEntry.revalues (e : JournalEntry) (currency : ℕ) : Bool :=
  match e.content.source with
  | .fxRevaluation c _ => c == currency
  | _ => false

def Journal.belongs (j : Journal) (currency : ℕ) (e : JournalEntry) : Bool :=
  e.revalues currency || j.rows.any fun o => e.reverses == some o.id && o.revalues currency

def Journal.carrying (j : Journal) (account currency date : ℕ) : ℤ :=
  ((j.upTo date).map fun e => carriedBy account currency (j.belongs currency e) e.lines).sum

def Journal.foreignBalance (j : Journal) (account currency date : ℕ) : ℤ :=
  ((j.upTo date).map fun e => foreignOn account currency e.lines).sum

def NonzeroAmounts (lines : List PostedLine) : Prop := ∀ p ∈ lines, ∀ f ∈ p.foreign, f.amount ≠ 0

/-! ### What the loops count -/

def positionIn (d : Dict ℕ Position) (account : ℕ) : Position := (d.get? account).getD {}

@[simp] theorem Position.add_zero (x : Position) : x.add {} = x := by
  simp [Position.add]

theorem positionIn_update (d : Dict ℕ Position) (account account' : ℕ) (change : Position) :
    positionIn (d.update account fun o => (o.getD {}).add change) account' =
      (positionIn d account').add (if account' = account then change else {}) := by
  simp only [positionIn, Dict.get?_update]
  split
  · rename_i h
    rw [Option.getD_some, h]
  · rw [Position.add_zero]

def changeOn (account currency : ℕ) (marked : Bool) (p : PostedLine) : Position :=
  if p.accountCode = account then (lineChange currency marked p).getD {} else {}

theorem positionIn_countLines (marked : Bool) (h : account ∈ monetary) (lines : List PostedLine)
    (d : Dict ℕ Position) : positionIn (countLines currency monetary marked d lines) account =
      lines.foldl (fun x p => x.add (changeOn account currency marked p))
        (positionIn d account) := by
  induction lines generalizing d with
  | nil => rfl
  | cons p lines ih =>
    rw [countLines, ih, foldl_cons]
    congr 1
    unfold changeOn
    by_cases ha : p.accountCode = account
    · rw [if_pos (ha ▸ h), if_pos ha]
      cases lineChange currency marked p with
      | none => simp
      | some change => simp only [positionIn_update, ha, if_true, Option.getD_some]
    · rw [if_neg ha, Position.add_zero]
      split
      · cases lineChange currency marked p with
        | none => rfl
        | some change =>
          have hne : account ≠ p.accountCode := fun he => ha he.symm
          simp only [positionIn_update, if_neg hne, Position.add_zero]
      · rfl

theorem changeOn_eq (marked : Bool) {p : PostedLine} (h : ∀ f ∈ p.foreign, f.amount ≠ 0) :
    changeOn account currency marked p =
      ⟨if p.accountCode = account then p.foreignIn currency else 0,
        if p.accountCode = account ∧ (p.inCurrency currency || marked) = true then
          p.debit - p.credit else 0⟩ := by
  unfold changeOn
  by_cases ha : p.accountCode = account
  · simp only [ha, true_and]
    cases hf : p.foreign with
    | none => cases marked <;> simp [lineChange, PostedLine.foreignIn, PostedLine.inCurrency, hf]
    | some f =>
      have hne : f.amount ≠ 0 := h f (by simp [hf])
      by_cases hc : f.currency = currency
      · simp [lineChange, PostedLine.inCurrency, hf, hc, hne]
      · cases marked <;> simp [lineChange, PostedLine.foreignIn, PostedLine.inCurrency, hf, hc]
  · simp [ha]

theorem positionIn_countLines_eq (marked : Bool) (h : account ∈ monetary)
    (hn : NonzeroAmounts lines) (d : Dict ℕ Position) :
    positionIn (countLines currency monetary marked d lines) account =
      (positionIn d account).add
        ⟨foreignOn account currency lines, carriedBy account currency marked lines⟩ := by
  rw [positionIn_countLines marked h]
  generalize positionIn d account = x
  induction lines generalizing x with
  | nil => simp [foreignOn, carriedBy, Position.add]
  | cons p lines ih =>
    have hrest : NonzeroAmounts lines := fun r hr => hn r (mem_cons_of_mem _ hr)
    rw [foldl_cons, ih hrest, changeOn_eq marked (hn p mem_cons_self)]
    simp only [Position.add, foreignOn, carriedBy, map_cons, sum_cons, add_assoc]

theorem positionIn_countEntries (h : account ∈ monetary)
    (hn : ∀ e ∈ entries, NonzeroAmounts e.lines) (d : Dict ℕ Position) :
    positionIn (countEntries currency monetary d entries) account =
      (positionIn d account).add
        ⟨(entries.map fun e => foreignOn account currency e.lines).sum,
          (entries.map fun e =>
            carriedBy account currency (e.marks.revaluation = some currency) e.lines).sum⟩ := by
  induction entries generalizing d with
  | nil => simp [countEntries, Position.add]
  | cons e entries ih =>
    have hrest : ∀ x ∈ entries, NonzeroAmounts x.lines :=
      fun x hx => hn x (mem_cons_of_mem _ hx)
    rw [countEntries, ih hrest, positionIn_countLines_eq _ h (hn e mem_cons_self)]
    simp only [Position.add, map_cons, sum_cons, add_assoc]

theorem mem_of_countLines {marked : Bool} (hd : ∀ e ∈ d.entries, e.1 ∈ monetary) :
    ∀ e ∈ (countLines currency monetary marked d lines).entries, e.1 ∈ monetary := by
  induction lines generalizing d with
  | nil => exact hd
  | cons p lines ih =>
    rw [countLines]
    apply ih
    split
    · rename_i hmem
      cases lineChange currency marked p with
      | none => exact hd
      | some change =>
        intro e he
        obtain he | rfl := Dict.mem_entries_update he
        · exact hd e he
        · exact hmem
    · exact hd

theorem mem_of_countEntries (hd : ∀ e ∈ d.entries, e.1 ∈ monetary) :
    ∀ e ∈ (countEntries currency monetary d entries).entries, e.1 ∈ monetary := by
  induction entries generalizing d with
  | nil => exact hd
  | cons e entries ih =>
    rw [countEntries]
    exact ih (mem_of_countLines hd)

/-! ### Journals that are in order -/

/-- What every run keeps of a journal: the marks are on the revaluations and only there, an
entry that is reversed is there, and no amount in a currency is zero. -/
structure InOrder (j : Journal) : Prop where
  marked : ∀ e ∈ j.rows, ∀ c, e.marks.revaluation = some c ↔ e.revalues c = true
  reversed : ∀ r ∈ j.rows, ∀ i, r.reverses = some i → ∃ o ∈ j.rows, o.id = i
  nonzero : ∀ e ∈ j.rows, NonzeroAmounts e.lines

def Journal.Unreversed (j : Journal) (currency date : ℕ) : Prop :=
  ∀ r ∈ j.upTo date, ∀ o ∈ j.rows, r.reverses = some o.id → o.revalues currency = false

theorem Journal.Unreversed.belongs {j : Journal} (h : j.Unreversed currency date)
    (he : e ∈ j.upTo date) : j.belongs currency e = e.revalues currency := by
  have hnone : (j.rows.any fun o => e.reverses == some o.id && o.revalues currency) = false := by
    rw [any_eq_false]
    intro o ho hboth
    rw [Bool.and_eq_true, beq_iff_eq] at hboth
    rw [h e he o ho hboth.1] at hboth
    cases hboth.2
  rw [Journal.belongs, hnone, Bool.or_false]

theorem mem_upTo {j : Journal} (h : e ∈ j.upTo date) : e ∈ j.rows :=
  mem_of_mem_filter h

variable {s : FxLedger}
variable {account currency date : ℕ} {monetary : List ℕ} {lines : List PostedLine}
  {entries : List JournalEntry} {d : Dict ℕ Position} {e : JournalEntry} {rate : ℚ}
  {positions : List (ℕ × Position)} {rs : List RevaluedPosition} {r : RevaluedPosition}
  {q : RevaluationRequest} {l : RawLine}

/-- A revaluation reads the whole ledger, and no reversal of another one. -/
structure Readable (s : FxLedger) (currency date : ℕ) : Prop where
  accounts : s.monetary.length ≤ 5000
  entries : (s.journal.upTo date).length ≤ 100000
  unreversed : s.journal.Unreversed currency date

theorem positionIn_eq (h : InOrder s.journal) (hread : Readable s currency date)
    (ha : account ∈ s.monetary) :
    positionIn (countEntries currency s.accounts .empty ((s.journal.upTo date).take 100000))
        account =
      ⟨s.journal.foreignBalance account currency date,
        s.journal.carrying account currency date⟩ := by
  have hmem : account ∈ s.accounts := by
    rw [FxLedger.accounts, take_of_length_le hread.accounts]
    exact ha
  rw [take_of_length_le hread.entries,
    positionIn_countEntries hmem (fun e he => h.nonzero e (mem_upTo he))]
  have hstart : positionIn .empty account = {} := rfl
  have hcarried : ((s.journal.upTo date).map fun e =>
      carriedBy account currency (e.marks.revaluation = some currency) e.lines) =
        (s.journal.upTo date).map fun e =>
          carriedBy account currency (s.journal.belongs currency e) e.lines := by
    refine map_congr_left fun e he => ?_
    have hmark := h.marked e (mem_upTo he) currency
    rw [hread.unreversed.belongs he]
    congr 1
    exact Bool.eq_iff_iff.mpr (decide_eq_true_iff.trans hmark)
  rw [hstart, hcarried]
  simp [Position.add, Journal.foreignBalance, Journal.carrying]

/-! ### The positions of a request -/

theorem mem_positions {x : ℕ × Position} : x ∈ s.positions date currency ↔
      (countEntries currency s.accounts .empty
        ((s.journal.upTo date).take 100000)).get? x.1 = some x.2 := by
  rw [FxLedger.positions, mem_insertionSort, Dict.get?_eq_some]

theorem nodup_positions (s : FxLedger) (date currency : ℕ) :
    ((s.positions date currency).map Prod.fst).Nodup := by
  have hperm := (perm_insertionSort (fun x y : ℕ × Position => x.1 ≤ y.1)
    (countEntries currency s.accounts .empty ((s.journal.upTo date).take 100000)).entries).map
      Prod.fst
  exact hperm.nodup_iff.mpr (Dict.nodup _)

theorem positions_balances (h : InOrder s.journal) (hread : Readable s currency date) :
    (∀ x ∈ s.positions date currency, x.1 ∈ s.monetary ∧
      x.2 = ⟨s.journal.foreignBalance x.1 currency date, s.journal.carrying x.1 currency date⟩) ∧
    ∀ account ∈ s.monetary, account ∉ (s.positions date currency).map Prod.fst →
      s.journal.foreignBalance account currency date = 0 ∧
        s.journal.carrying account currency date = 0 := by
  have haccounts : s.accounts = s.monetary := take_of_length_le hread.accounts
  constructor
  · intro x hx
    have hget := mem_positions.mp hx
    have hmem : x.1 ∈ s.monetary := by
      rw [← haccounts]
      exact mem_of_countEntries (by simp) _ (Dict.get?_eq_some.mp hget)
    have hpos := positionIn_eq h hread hmem
    rw [positionIn, hget, Option.getD_some] at hpos
    exact ⟨hmem, hpos⟩
  · intro account ha hnot
    have hpos := positionIn_eq h hread ha
    have hnone : (countEntries currency s.accounts .empty
        ((s.journal.upTo date).take 100000)).get? account = none := by
      cases hget : (countEntries currency s.accounts .empty
          ((s.journal.upTo date).take 100000)).get? account with
      | none => rfl
      | some x =>
        have hx : (account, x) ∈ s.positions date currency := mem_positions.mpr hget
        exact absurd (mem_map.mpr ⟨_, hx, rfl⟩) hnot
    rw [positionIn, hnone, Option.getD_none] at hpos
    have hfields := (Position.mk.injEq ..).mp hpos
    exact ⟨hfields.1.symm, hfields.2.symm⟩

/-- What the loop over the positions makes of each. -/
structure RevaluedAs (rate : ℚ) (x : ℕ × Position) (r : RevaluedPosition) : Prop where
  account : r.account = x.1
  carrying : r.carrying = x.2.carrying
  revalued : expectedBase x.2.foreign rate = some r.revalued

theorem revaluePositions_some (h : revaluePositions rate positions = some rs) :
    List.Forall₂ (RevaluedAs rate) positions rs := by
  induction positions generalizing rs with
  | nil =>
    cases h
    exact .nil
  | cons x positions ih =>
    rw [revaluePositions] at h
    cases hb : expectedBase x.2.foreign rate with
    | none =>
      rw [hb] at h
      cases h
    | some revalued =>
      cases hr : revaluePositions rate positions with
      | none =>
        rw [hb, hr] at h
        cases h
      | some rest =>
        rw [hb, hr] at h
        cases h
        exact .cons ⟨rfl, rfl, hb⟩ (ih hr)

/-- Positions whose products have no more digits than a decimal. -/
theorem exists_revaluePositions (h : ∀ x ∈ positions, (expectedBase x.2.foreign rate).isSome = true) :
    ∃ rs, revaluePositions rate positions = some rs := by
  induction positions with
  | nil => exact ⟨[], rfl⟩
  | cons x positions ih =>
    obtain ⟨rs, hrs⟩ := ih fun y hy => h y (mem_cons_of_mem _ hy)
    obtain ⟨revalued, hb⟩ := Option.isSome_iff_exists.mp (h x mem_cons_self)
    exact ⟨⟨x.1, x.2.foreign, x.2.carrying, revalued⟩ :: rs, by rw [revaluePositions, hb, hrs]⟩

def differenceOf (account : ℕ) (rs : List RevaluedPosition) : ℤ :=
  (rs.map fun r => if r.account = account then r.difference else 0).sum

theorem map_account (h : List.Forall₂ (RevaluedAs rate) positions rs) :
    rs.map RevaluedPosition.account = positions.map Prod.fst := by
  induction h with
  | nil => rfl
  | cons hx _ ih => rw [map_cons, map_cons, ih, hx.account]

theorem differenceOf_of_notMem (h : account ∉ rs.map RevaluedPosition.account) :
    differenceOf account rs = 0 := by
  refine sum_eq_zero fun v hv => ?_
  obtain ⟨r, hr, rfl⟩ := mem_map.mp hv
  rw [if_neg fun he : r.account = account => h (he ▸ mem_map.mpr ⟨r, hr, rfl⟩)]

theorem differenceOf_of_mem (hnodup : (rs.map RevaluedPosition.account).Nodup) (hr : r ∈ rs) :
    differenceOf r.account rs = r.difference := by
  induction rs with
  | nil => cases hr
  | cons x rs ih =>
    rw [map_cons, nodup_cons] at hnodup
    rw [differenceOf, map_cons, sum_cons]
    change _ + differenceOf r.account rs = _
    obtain rfl | hr := mem_cons.mp hr
    · rw [if_pos rfl, differenceOf_of_notMem hnodup.1, add_zero]
    · have hne : x.account ≠ r.account := fun he =>
        hnodup.1 (he ▸ mem_map.mpr ⟨r, hr, rfl⟩)
      rw [if_neg hne, ih hnodup.2 hr, zero_add]

theorem expectedBase_zero (rate : ℚ) : expectedBase 0 rate = some 0 := by
  have hdigits : Decimal.digits 28 0 = 0 := by simp [Decimal.digits, Decimal.roundEven]
  rw [expectedBase, Int.cast_zero, zero_mul, hdigits, quantize, zero_mul]
  have hzero : halfAway 0 = 0 := by exact_mod_cast halfAway_intCast 0
  simp [hzero]

theorem exists_of_forall₂ {α β : Type*} {R : α → β → Prop} {l : List α} {l' : List β}
    (h : List.Forall₂ R l l') {x : α} (hx : x ∈ l) : ∃ y ∈ l', R x y := by
  induction h with
  | nil => cases hx
  | cons hxy _ ih =>
    obtain rfl | hx := mem_cons.mp hx
    · exact ⟨_, mem_cons_self, hxy⟩
    · obtain ⟨y, hy, hr⟩ := ih hx
      exact ⟨y, mem_cons_of_mem _ hy, hr⟩

theorem expectedBase_carrying (h : InOrder s.journal) (hread : Readable s q.currency q.date)
    (hrs : s.revalued q = some rs) (ha : account ∈ s.monetary) :
    expectedBase (s.journal.foreignBalance account q.currency q.date) q.rate =
      some (s.journal.carrying account q.currency q.date + differenceOf account rs) := by
  obtain ⟨hpos, hout⟩ := positions_balances h hread
  have hall := revaluePositions_some hrs
  have haccounts := map_account hall
  by_cases hmem : account ∈ (s.positions q.date q.currency).map Prod.fst
  · obtain ⟨x, hx, rfl⟩ := mem_map.mp hmem
    obtain ⟨r, hr, hrev⟩ := exists_of_forall₂ hall hx
    have hnodup : (rs.map RevaluedPosition.account).Nodup := by
      rw [haccounts]
      exact nodup_positions s q.date q.currency
    have hdiff := differenceOf_of_mem hnodup hr
    have hcarrying : r.carrying = s.journal.carrying x.1 q.currency q.date := by
      rw [hrev.carrying, (hpos x hx).2]
    have hrevalued := hrev.revalued
    rw [(hpos x hx).2] at hrevalued
    rw [hrev.account] at hdiff
    rw [hrevalued, hdiff, RevaluedPosition.difference, ← hcarrying]
    congr 1
    ring
  · obtain ⟨hforeign, hcarrying⟩ := hout account ha hmem
    rw [hforeign, hcarrying, expectedBase_zero, differenceOf_of_notMem (haccounts ▸ hmem)]
    rfl

/-! ### What is posted -/

def Number.minor : Number → ℤ
  | .decimal q => halfAway (q * 100)
  | _ => 0

theorem moneyToMinor_minor {x : Number} {m : ℤ} (h : moneyToMinor x = some m) : m = x.minor := by
  cases x with
  | absent | empty =>
    cases h
    rfl
  | decimal q =>
    simp only [moneyToMinor] at h
    split at h
    · cases h
    · cases h
      rfl
  | nonFinite | unreadable => cases h

@[simp] theorem minor_ofMinor (m : ℤ) : (Number.ofMinor m).minor = m := by
  have hscale : (m / 100 : ℚ) * 100 = m := by ring
  simp only [Number.minor, Number.ofMinor, hscale, halfAway_intCast]

def RawLine.movement (l : RawLine) : ℤ := l.debit.minor - l.credit.minor

theorem readSides_movement {sides : ℤ × ℤ} (h : readSides l = .ok sides) :
    sides.1 - sides.2 = l.movement := by
  unfold readSides at h
  cases hd : moneyToMinor l.debit with
  | none =>
    rw [hd] at h
    cases h
  | some debit =>
    cases hc : moneyToMinor l.credit with
    | none =>
      rw [hd, hc] at h
      cases h
    | some credit =>
      rw [hd, hc] at h
      simp only at h
      split_ifs at h
      cases h
      rw [RawLine.movement, moneyToMinor_minor hd, moneyToMinor_minor hc]

def movedOn (account : ℕ) (lines : List RawLine) : ℤ :=
  (lines.map fun l => if stripped l.accountCode = some account then l.movement else 0).sum

theorem movedOn_append (account : ℕ) (lines lines' : List RawLine) :
    movedOn account (lines ++ lines') = movedOn account lines + movedOn account lines' := by
  rw [movedOn, map_append, sum_append]
  rfl

theorem baseOn_normalizeFrom {index : ℕ} {lines : List RawLine} {out : List PostedLine}
    (h : normalizeFrom index lines = .ok out) (account : ℕ) :
    baseOn account out = movedOn account lines := by
  induction lines generalizing index out with
  | nil =>
    cases h
    rfl
  | cons l lines ih =>
    obtain ⟨p, ps, hp, hps, rfl⟩ := normalizeFrom_cons h
    obtain ⟨-, hcode, hsides, -⟩ := normalizeLine_fields hp
    have hmove : p.debit - p.credit = l.movement := readSides_movement hsides
    have hrest := ih hps
    simp only [baseOn, movedOn, map_cons, sum_cons] at hrest ⊢
    rw [hrest, hcode, hmove]
    simp only [Option.some.injEq]

theorem differenceLine_some (h : differenceLine currency r = some l) :
    stripped l.accountCode = some r.account ∧ l.movement = r.difference := by
  have habsent : Number.absent.minor = 0 := rfl
  unfold differenceLine at h
  split_ifs at h
  · cases h
    exact ⟨rfl, by rw [RawLine.movement, minor_ofMinor, habsent, sub_zero]⟩
  · cases h
    exact ⟨rfl, by rw [RawLine.movement, minor_ofMinor, habsent, zero_sub, neg_neg]⟩

theorem differenceLine_eq_none : differenceLine currency r = none ↔ r.difference = 0 := by
  unfold differenceLine
  split_ifs <;> simp <;> omega

theorem movedOn_cons (account : ℕ) (l : RawLine) (lines : List RawLine) :
    movedOn account (l :: lines) =
      (if stripped l.accountCode = some account then l.movement else 0) +
        movedOn account lines := by
  rw [movedOn, map_cons, sum_cons]
  rfl

theorem movedOn_differences (account currency : ℕ) (rs : List RevaluedPosition) :
    movedOn account (rs.filterMap (differenceLine currency)) = differenceOf account rs := by
  induction rs with
  | nil => rfl
  | cons r rs ih =>
    have hone : differenceOf account (r :: rs) =
        (if r.account = account then r.difference else 0) + differenceOf account rs := by
      rw [differenceOf, map_cons, sum_cons]
      rfl
    rw [hone, filterMap_cons]
    cases hl : differenceLine currency r with
    | none => rw [differenceLine_eq_none.mp hl, ite_self, zero_add, ih]
    | some l =>
      obtain ⟨hcode, hmove⟩ := differenceLine_some hl
      rw [movedOn_cons, hcode, hmove, ih]
      simp only [Option.some.injEq]

def RevaluationRequest.counterAccounts (q : RevaluationRequest) (rs : List RevaluedPosition) :
    List (Option ℕ) :=
  (q.gainLine rs ++ q.lossLine rs).map fun l => stripped l.accountCode

theorem movedOn_of_notMem {lines : List RawLine}
    (h : some account ∉ lines.map fun l => stripped l.accountCode) : movedOn account lines = 0 := by
  refine sum_eq_zero fun v hv => ?_
  obtain ⟨l, hl, rfl⟩ := mem_map.mp hv
  rw [if_neg fun he : stripped l.accountCode = some account =>
    h (he ▸ mem_map.mpr ⟨l, hl, rfl⟩)]

theorem movedOn_lines (h : some account ∉ q.counterAccounts rs) :
    movedOn account (q.lines rs) = differenceOf account rs := by
  rw [RevaluationRequest.lines, append_assoc, movedOn_append, movedOn_differences,
    movedOn_of_notMem h, add_zero]

theorem lines_eq_nil_iff : q.lines rs = [] ↔ ∀ r ∈ rs, r.difference = 0 := by
  have hfilter : rs.filterMap (differenceLine q.currency) = [] ↔ ∀ r ∈ rs, r.difference = 0 := by
    rw [filterMap_eq_nil_iff]
    exact forall₂_congr fun r _ => differenceLine_eq_none
  rw [RevaluationRequest.lines, append_assoc, append_eq_nil_iff, hfilter]
  refine ⟨fun h => h.1, fun h => ⟨h, ?_⟩⟩
  have hgain : totalGain rs = 0 := sum_eq_zero fun v hv => by
    obtain ⟨r, hr, rfl⟩ := mem_map.mp hv
    rw [h r hr, max_self]
  have hloss : totalLoss rs = 0 := sum_eq_zero fun v hv => by
    obtain ⟨r, hr, rfl⟩ := mem_map.mp hv
    rw [h r hr, neg_zero, max_self]
  rw [RevaluationRequest.gainLine, RevaluationRequest.lossLine, if_pos hgain, if_pos hloss,
    append_nil]

end SyrocePms.Ledger.Foreign
