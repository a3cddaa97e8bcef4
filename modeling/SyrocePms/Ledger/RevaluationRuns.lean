import SyrocePms.Ledger.RevaluedBalances

/-! Runs of postings, revaluations and reversals. While every mark is written, a revaluation
that reads no reversal of another finds the balances of the journal, and what it posts takes
each account to its balance at the closing rate. -/

namespace SyrocePms.Ledger.Foreign

open Lib List

variable {e : JournalEntry} {j j' : Journal} {x : RevaluationChance} {f : EntryMarks → EntryMarks}
  {lines out : List PostedLine} {q : RevaluationRequest} {r : Journal × ReversalPc}
  {s s' : FxLedger} {rs : List RevaluedPosition} {account currency : ℕ}

/-! ### The ledger -/

def JournalEntry.isRevaluation (e : JournalEntry) : Bool :=
  match e.content.source with
  | .fxRevaluation _ _ => true
  | _ => false

def ReversalRequest.run (q : ReversalRequest) (x : ReversalChance) :
    ℕ → Journal × ReversalPc → Journal × ReversalPc
  | 0, r => r
  | n + 1, r => q.run x n (q.operate r.1 x r.2)

/-- Another posting, a change of the chart, a reversal, or a revaluation. -/
inductive FxAction where
  | post (e : JournalEntry)
  | chart (monetary : List ℕ)
  | reverse (q : ReversalRequest) (x : ReversalChance)
  | revalue (q : RevaluationRequest) (x : RevaluationChance)

namespace FxLedger

variable (s : FxLedger)

/-- `reverse_journal_entry`. It has at most six operations. -/
def reverse (q : ReversalRequest) (x : ReversalChance) : FxLedger :=
  { s with journal := (q.run x 6 (s.journal, .start)).1 }

def step : FxAction → Option FxLedger
  | .post e =>
    if e.reverses = none ∧ e.isRevaluation = false ∧ e.marks.revaluation = none then
      (s.journal.insertOne e).map fun j => { s with journal := j }
    else none
  | .chart monetary => some { s with monetary := monetary }
  | .reverse q x => some (s.reverse q x)
  | .revalue q x => some (s.revalue q x).1

end FxLedger

def fxLedger : Machine FxLedger FxAction where
  init s := s.journal.rows = []
  step := FxLedger.step

/-- When a revaluation finds the balances and posts its differences: the ledger is within what
is read, no revaluation of the currency is reversed up to the date, the product of a balance and
the rate is rounded once, the accounts for the gain and the loss are not monetary, and the very
lines were not posted before for the currency and the date. -/
structure SoundRevaluation (s : FxLedger) (q : RevaluationRequest) : Prop where
  accounts : s.monetary.length ≤ 5000
  entries : (s.journal.upTo q.date).length < 100000
  unreversed : s.journal.Unreversed q.currency q.date
  rounded : ∀ account ∈ s.monetary, ∀ base,
    expectedBase (s.journal.foreignBalance account q.currency q.date) q.rate = some base →
      base = halfAway (s.journal.foreignBalance account q.currency q.date * q.rate)
  counter : ∀ rs, s.revalued q = some rs → ∀ account ∈ s.monetary,
    some account ∉ q.counterAccounts rs
  fresh : ∀ rs out e, s.revalued q = some rs → normalizeJournalLines (q.lines rs) = .ok out →
    s.journal.underKey q.key = some e → e.repeats (q.content out) = false

def Sound (s : FxLedger) : FxAction → Prop
  | .post e => NonzeroAmounts e.lines
  | .chart _ | .reverse _ _ => True
  | .revalue q x => x.markFails = false ∧ SoundRevaluation s q

/-! ### What the operations keep -/

theorem revalues_of_not_isRevaluation (h : e.isRevaluation = false) (c : ℕ) :
    e.revalues c = false := by
  unfold JournalEntry.isRevaluation at h
  unfold JournalEntry.revalues
  split
  · rename_i hsource
    rw [hsource] at h
    cases h
  · rfl

theorem mem_insertOne_rows {x : JournalEntry} (h : j.insertOne e = some j') :
    x ∈ j'.rows ↔ x ∈ j.rows ∨ x = e := by
  rw [Journal.insertOne_rows h, mem_append, mem_singleton]

theorem InOrder.insert (hj : InOrder j) (h : j.insertOne e = some j') (he : e.isRevaluation = false)
    (hmark : e.marks.revaluation = none) (hn : NonzeroAmounts e.lines)
    (hrev : ∀ i, e.reverses = some i → ∃ o ∈ j.rows, o.id = i) : InOrder j' := by
  constructor
  · intro x hx c
    obtain hx | rfl := (mem_insertOne_rows h).mp hx
    · exact hj.marked x hx c
    · rw [hmark, revalues_of_not_isRevaluation he]
      simp
  · intro r hr i hi
    obtain hr | rfl := (mem_insertOne_rows h).mp hr
    · obtain ⟨o, ho, hid⟩ := hj.reversed r hr i hi
      exact ⟨o, (mem_insertOne_rows h).mpr (.inl ho), hid⟩
    · obtain ⟨o, ho, hid⟩ := hrev i hi
      exact ⟨o, (mem_insertOne_rows h).mpr (.inl ho), hid⟩
  · intro x hx
    obtain hx | rfl := (mem_insertOne_rows h).mp hx
    · exact hj.nonzero x hx
    · exact hn

theorem mem_annotate_iff {id : ℕ} {x : JournalEntry} : x ∈ (j.annotate id f).rows ↔
      ∃ e ∈ j.rows, x = if e.id = id then { e with marks := f e.marks } else e := by
  constructor
  · intro h
    obtain ⟨e, he, rfl⟩ := mem_map.mp h
    exact ⟨e, he, rfl⟩
  · rintro ⟨e, he, rfl⟩
    exact mem_map.mpr ⟨e, he, rfl⟩

theorem InOrder.annotate (hj : InOrder j) (id : ℕ) (hf : ∀ m, (f m).revaluation = m.revaluation) :
    InOrder (j.annotate id f) := by
  have hmem {x : JournalEntry} (hx : x ∈ (j.annotate id f).rows) :
      ∃ e ∈ j.rows, x.id = e.id ∧ x.content = e.content ∧
        x.marks.revaluation = e.marks.revaluation := by
    obtain ⟨e, he, rfl⟩ := mem_annotate_iff.mp hx
    refine ⟨e, he, ?_⟩
    split
    · exact ⟨rfl, rfl, hf e.marks⟩
    · exact ⟨rfl, rfl, rfl⟩
  constructor
  · intro x hx c
    obtain ⟨e, he, -, hcontent, hmark⟩ := hmem hx
    rw [hmark, JournalEntry.revalues, hcontent]
    exact hj.marked e he c
  · intro r hr i hi
    obtain ⟨e, he, -, hcontent, -⟩ := hmem hr
    rw [JournalEntry.reverses, hcontent] at hi
    obtain ⟨o, ho, hid⟩ := hj.reversed e he i hi
    have hkept : ∃ e' ∈ (j.annotate id f).rows, e'.id = o.id ∧ e'.content = o.content :=
      Journal.exists_mem_annotate ho
    obtain ⟨o', ho', hid', -⟩ := hkept
    exact ⟨o', ho', hid'.trans hid⟩
  · intro x hx
    obtain ⟨e, he, -, hcontent, -⟩ := hmem hx
    rw [JournalEntry.lines, hcontent]
    exact hj.nonzero e he

theorem insertOne_fresh (h : j.insertOne e = some j') : e.id ∉ j.rows.map JournalEntry.id := by
  have hids := j'.ids
  rw [Journal.insertOne_rows h, map_append, nodup_append] at hids
  exact fun hmem => hids.2.2 _ hmem _ (mem_singleton.mpr rfl) rfl

theorem mark_rows (h : j.insertOne e = some j') (f : EntryMarks → EntryMarks) :
    (j'.annotate e.id f).rows = j.rows ++ [{ e with marks := f e.marks }] := by
  have hmap : (j'.annotate e.id f).rows =
      j'.rows.map fun x => if x.id = e.id then { x with marks := f x.marks } else x := rfl
  rw [hmap, Journal.insertOne_rows h, map_append, map_singleton, if_pos rfl]
  congr 1
  conv_rhs => rw [← map_id j.rows]
  refine map_congr_left fun x hx => ?_
  rw [if_neg fun hid : x.id = e.id => insertOne_fresh h (hid ▸ mem_map.mpr ⟨x, hx, rfl⟩), id]

theorem InOrder.revalued {c : ℕ} (hj : InOrder j) (h : j.insertOne e = some j')
    (hc : ∀ c', some c = some c' ↔ e.revalues c' = true) (hnone : e.reverses = none)
    (hn : NonzeroAmounts e.lines) :
    InOrder (j'.annotate e.id fun m => { m with revaluation := some c }) := by
  have hrows := mark_rows h fun m => { m with revaluation := some c }
  have hmem {x : JournalEntry} (hx : x ∈ (j'.annotate e.id
      fun m => { m with revaluation := some c }).rows) :
      x ∈ j.rows ∨ x = { e with marks := { e.marks with revaluation := some c } } := by
    rw [hrows] at hx
    simpa using hx
  constructor
  · intro x hx c'
    obtain hx | rfl := hmem hx
    · exact hj.marked x hx c'
    · exact hc c'
  · intro r hr i hi
    obtain hr | rfl := hmem hr
    · obtain ⟨o, ho, hid⟩ := hj.reversed r hr i hi
      exact ⟨o, hrows ▸ mem_append_left _ ho, hid⟩
    · have hi' : e.reverses = some i := hi
      rw [hnone] at hi'
      cases hi'
  · intro x hx
    obtain hx | rfl := hmem hx
    · exact hj.nonzero x hx
    · exact hn

/-! ### Reversals -/

def ReversalPc.Sourced (q : ReversalRequest) : ReversalPc → Prop
  | .stored c | .insert c | .recover c => c.source = .reversal q.entry
  | _ => True

/-- What a reversal in its transaction keeps. -/
structure ReversalOk (q : ReversalRequest) (r : Journal × ReversalPc) : Prop where
  order : InOrder r.1
  call : CallOk r.1 ⟨q, r.2⟩
  source : r.2.Sourced q

theorem nonzero_of_mirrors (h : List.Forall₂ Mirrors lines out) (hn : NonzeroAmounts lines) :
    NonzeroAmounts out := by
  induction h with
  | nil => exact hn
  | @cons p q ps qs hpq _ ih =>
    intro x hx f hf
    obtain rfl | hx := mem_cons.mp hx
    · have hforeign := hpq.foreign
      rw [Option.mem_def.mp hf] at hforeign
      cases hp : p.foreign with
      | none =>
        rw [hp] at hforeign
        cases hforeign
      | some g =>
        rw [hp] at hforeign
        have hamount : f.amount = g.amount :=
          congrArg Prod.snd (Option.some.inj hforeign)
        rw [hamount]
        exact hn p mem_cons_self g hp
    · exact ih (fun y hy => hn y (mem_cons_of_mem _ hy)) x hx f hf

theorem sourced_begin (j : Journal) (q : ReversalRequest) (x : ReversalChance) :
    (beginReversal j q x).Sourced q := by
  unfold beginReversal
  split
  · trivial
  · split <;> trivial

theorem sourced_existing (j : Journal) (q : ReversalRequest) (lines : List RawLine) :
    (existingReversal j q lines).Sourced q := by
  have hnormalize : (normalizeReversal q lines).Sourced q := by
    unfold normalizeReversal
    split
    · trivial
    · rfl
  unfold existingReversal
  split
  · exact hnormalize
  · split
    · exact hnormalize
    · trivial

theorem sourced_answerOf (q : ReversalRequest) (e : JournalEntry) (c : EntryContent) :
    (answerOf e c).Sourced q := by
  unfold answerOf
  split <;> trivial

theorem isRevaluation_of_reversal {i : ℕ} (h : e.content.source = .reversal i) :
    e.isRevaluation = false := by
  simp only [JournalEntry.isRevaluation, h]

theorem operate_ok {q : ReversalRequest} {x : ReversalChance} (h : ReversalOk q r) :
    ReversalOk q (q.operate r.1 x r.2) := by
  obtain ⟨j, pc⟩ := r
  obtain ⟨horder, hcall, hsource⟩ := h
  cases pc with
  | start => exact ⟨horder, callOk_begin j q x, sourced_begin j q x⟩
  | existing lines =>
    refine ⟨horder, ?_, sourced_existing j q lines⟩
    simp only [ReversalRequest.operate, existingReversal]
    split
    · exact callOk_normalize hcall
    · split
      · exact callOk_normalize hcall
      · trivial
  | stored c =>
    simp only [ReversalRequest.operate]
    split
    · exact ⟨horder, callOk_answerOf j q _ c, sourced_answerOf q _ c⟩
    · split
      · exact ⟨horder, hcall, hsource⟩
      · exact ⟨horder, trivial, trivial⟩
  | insert c =>
    have hpending : Pending j q c := hcall
    have hreversal : c.source = .reversal q.entry := hsource
    obtain ⟨o, ho, hid, hmirrors⟩ := hpending.mirrors
    simp only [ReversalRequest.operate]
    cases hins : j.insertOne (q.doc x c) with
    | none => exact ⟨horder, hcall, hsource⟩
    | some j' =>
      have hdoc : (q.doc x c).isRevaluation = false := isRevaluation_of_reversal hreversal
      refine ⟨horder.insert hins hdoc rfl ?_ ?_, trivial, trivial⟩
      · exact nonzero_of_mirrors (mirrors_enrich x.names hmirrors) (horder.nonzero o ho)
      · intro i hi
        have hentry : q.entry = i := Option.some.inj (hpending.reverses.symm.trans hi)
        exact ⟨o, ho, hid.trans hentry⟩
  | recover c =>
    simp only [ReversalRequest.operate]
    split
    · exact ⟨horder, callOk_answerOf j q _ c, sourced_answerOf q _ c⟩
    · exact ⟨horder, trivial, trivial⟩
  | mark reversal =>
    have hkept := InOrder.annotate (f := fun m => { m with reversedBy := some reversal }) horder
      q.entry fun _ => rfl
    exact ⟨hkept, trivial, trivial⟩
  | returned a => exact ⟨horder, trivial, trivial⟩

theorem run_ok {q : ReversalRequest} {x : ReversalChance} (n : ℕ) (h : ReversalOk q r) :
    ReversalOk q (q.run x n r) := by
  induction n generalizing r with
  | zero => exact h
  | succ n ih => exact ih (operate_ok h)

/-! ### Revaluations -/

theorem revalue_cases (hq : Sound s (.revalue q x)) :
    ((s.revalue q x).1 = s ∧ ((s.revalue q x).2.succeeded = true →
        s.accounts ≠ [] ∧ ∃ rs, s.revalued q = some rs ∧ q.lines rs = [])) ∨
      ∃ rs out j, s.revalued q = some rs ∧ normalizeJournalLines (q.lines rs) = .ok out ∧
        s.accounts ≠ [] ∧
        s.journal.insertOne (q.doc x out) = some j ∧
        (s.revalue q x).1 =
          { s with
            journal := j.annotate x.newId fun m => { m with revaluation := some q.currency } } := by
  obtain ⟨hmark, hsound⟩ := hq
  unfold FxLedger.revalue
  by_cases hreads : x.readsFail = true
  · rw [if_pos hreads]
    exact .inl ⟨rfl, fun h => by cases h⟩
  · rw [if_neg hreads]
    by_cases haccounts : s.accounts = []
    · rw [if_pos haccounts]
      exact .inl ⟨rfl, fun h => by cases h⟩
    · rw [if_neg haccounts]
      cases hrs : s.revalued q with
      | none => exact .inl ⟨rfl, fun h => by cases h⟩
      | some rs =>
        dsimp only
        by_cases hlines : q.lines rs = []
        · rw [if_pos hlines]
          exact .inl ⟨rfl, fun _ => ⟨haccounts, rs, rfl, hlines⟩⟩
        · rw [if_neg hlines]
          cases normalizePostingDate q.date with
          | none => exact .inl ⟨rfl, fun h => by cases h⟩
          | some date =>
            dsimp only
            cases hout : normalizeJournalLines (q.lines rs) with
            | error e => exact .inl ⟨rfl, fun h => by cases h⟩
            | ok out =>
              simp only [FxLedger.postRevaluation]
              cases hkey : s.journal.underKey q.key with
              | some e =>
                have hrepeats := hsound.fresh rs out e hrs hout hkey
                simp only [hrepeats, Bool.false_eq_true, if_false]
                exact .inl ⟨trivial, fun h => by cases h⟩
              | none =>
                dsimp only
                split
                · cases hins : s.journal.insertOne (q.doc x out) with
                  | none => exact .inl ⟨rfl, fun h => by cases h⟩
                  | some j =>
                    refine .inr ⟨rs, out, j, rfl, hout, haccounts, hins, ?_⟩
                    simp only [FxLedger.markRevaluation, hmark, Bool.false_eq_true, if_false]
                · exact .inl ⟨rfl, fun h => by cases h⟩

theorem currency_of_lines : ∀ l ∈ q.lines rs, l.currency = none := by
  intro l hl
  rw [RevaluationRequest.lines, mem_append, mem_append, mem_filterMap] at hl
  rcases hl with (⟨r, -, hr⟩ | hl) | hl
  · unfold differenceLine at hr
    split_ifs at hr <;> cases hr <;> rfl
  · unfold RevaluationRequest.gainLine at hl
    split at hl
    · cases hl
    · rw [mem_singleton.mp hl]
  · unfold RevaluationRequest.lossLine at hl
    split at hl
    · cases hl
    · rw [mem_singleton.mp hl]

theorem foreign_of_normalizeFrom {index : ℕ} {lines : List RawLine}
    (h : normalizeFrom index lines = .ok out) (hc : ∀ l ∈ lines, l.currency = none) :
    ∀ p ∈ out, p.foreign = none := by
  induction lines generalizing index out with
  | nil =>
    cases h
    intro p hp
    cases hp
  | cons l lines ih =>
    obtain ⟨p, ps, hp, hps, rfl⟩ := normalizeFrom_cons h
    obtain ⟨-, -, -, hcur⟩ := normalizeLine_fields hp
    intro r hr
    obtain rfl | hr := mem_cons.mp hr
    · cases hf : r.foreign with
      | none => rfl
      | some f =>
        rw [hf] at hcur
        obtain ⟨rate, ⟨spelling, hcode⟩, -⟩ := readCurrency_some hcur
        rw [hc l mem_cons_self] at hcode
        cases hcode
    · exact ih hps (fun x hx => hc x (mem_cons_of_mem _ hx)) r hr

theorem foreign_doc (x : RevaluationChance) (h : normalizeJournalLines (q.lines rs) = .ok out) :
    ∀ p ∈ (q.doc x out).lines, p.foreign = none := by
  intro p hp
  obtain ⟨r, hr, rfl⟩ := mem_map.mp hp
  exact foreign_of_normalizeFrom (normalizeJournalLines_ok.mp h).1 currency_of_lines r hr

theorem revalues_doc (q : RevaluationRequest) (x : RevaluationChance) (out : List PostedLine)
    (c : ℕ) : some q.currency = some c ↔ (q.doc x out).revalues c = true := by
  have hrev : (q.doc x out).revalues c = (q.currency == c) := rfl
  rw [hrev, beq_iff_eq, Option.some.injEq]

theorem inOrder_doc (hj : InOrder j) (hout : normalizeJournalLines (q.lines rs) = .ok out)
    (h : j.insertOne (q.doc x out) = some j') :
    InOrder (j'.annotate x.newId fun m => { m with revaluation := some q.currency }) := by
  refine hj.revalued h (revalues_doc q x out) rfl fun p hp f hf => ?_
  rw [foreign_doc x hout p hp] at hf
  cases hf

theorem inOrder_next {a : FxAction} (h : InOrder s.journal) (hc : Sound s a)
    (hs : s.step a = some s') : InOrder s'.journal := by
  cases a with
  | post e =>
    simp only [FxLedger.step] at hs
    split at hs
    · rename_i hplain
      obtain ⟨j, hins, rfl⟩ := Option.map_eq_some_iff.mp hs
      obtain ⟨hnone, hrev, hmark⟩ := hplain
      refine h.insert hins hrev hmark hc fun i hi => ?_
      rw [hnone] at hi
      cases hi
    · cases hs
  | chart monetary =>
    cases hs
    exact h
  | reverse q x =>
    cases hs
    have hstart : ReversalOk q (s.journal, .start) := ⟨h, trivial, trivial⟩
    exact (run_ok 6 hstart).order
  | revalue q x =>
    cases hs
    obtain ⟨hsame, -⟩ | ⟨rs, out, j, -, hout, -, hins, hnext⟩ := revalue_cases hc
    · rw [hsame]
      exact h
    · rw [hnext]
      exact inOrder_doc h hout hins

theorem reach_inOrder (hs : fxLedger.Reach Sound s) : InOrder s.journal := by
  refine hs.invariant (fun s => InOrder s.journal) (fun s h₀ => ?_)
    fun s a s' hi hc h => inOrder_next hi hc h
  have hrows : s.journal.rows = [] := h₀
  refine ⟨fun e he => ?_, fun r hr => ?_, fun e he => ?_⟩
  · rw [hrows] at he
    cases he
  · rw [hrows] at hr
    cases hr
  · rw [hrows] at he
    cases he

/-! ### The balances after a revaluation -/

theorem Journal.Unreversed.carrying_eq {date : ℕ} (h : j.Unreversed currency date) (account : ℕ) :
    j.carrying account currency date =
      ((j.upTo date).map fun e =>
        carriedBy account currency (e.revalues currency) e.lines).sum := by
  rw [Journal.carrying]
  congr 1
  exact map_congr_left fun e he => by rw [h.belongs he]

theorem carriedBy_whole (account currency : ℕ) (lines : List PostedLine) :
    carriedBy account currency true lines = baseOn account lines := by
  simp [carriedBy, baseOn]

theorem baseOn_enrich (account : ℕ) (names : ℕ → Option ℕ) (lines : List PostedLine) :
    baseOn account (enrich names lines) = baseOn account lines := by
  simp only [baseOn, enrich, map_map]
  rfl

theorem foreignOn_of_none (h : ∀ p ∈ lines, p.foreign = none) :
    foreignOn account currency lines = 0 := by
  refine sum_eq_zero fun v hv => ?_
  obtain ⟨p, hp, rfl⟩ := mem_map.mp hv
  rw [PostedLine.foreignIn, h p hp, ite_self]

theorem upTo_doc (h : j.insertOne (q.doc x out) = some j') :
    (j'.annotate x.newId fun m => { m with revaluation := some q.currency }).upTo q.date =
      j.upTo q.date ++ [{ q.doc x out with marks := { revaluation := some q.currency } }] := by
  have hrows : (j'.annotate x.newId fun m => { m with revaluation := some q.currency }).rows =
      j.rows ++ [{ q.doc x out with marks := { revaluation := some q.currency } }] := mark_rows h _
  rw [Journal.upTo, hrows, filter_append]
  congr 1
  simp [RevaluationRequest.doc, RevaluationRequest.content]

theorem unreversed_doc (hj : InOrder j) (hu : j.Unreversed q.currency q.date)
    (h : j.insertOne (q.doc x out) = some j') :
    (j'.annotate x.newId fun m => { m with revaluation := some q.currency }).Unreversed
      q.currency q.date := by
  intro r hr o ho hrev
  rw [upTo_doc h, mem_append, mem_singleton] at hr
  have hrows : (j'.annotate x.newId fun m => { m with revaluation := some q.currency }).rows =
      j.rows ++ [{ q.doc x out with marks := { revaluation := some q.currency } }] := mark_rows h _
  rw [hrows, mem_append, mem_singleton] at ho
  rcases hr with hr | rfl
  · rcases ho with ho | rfl
    · exact hu r hr o ho hrev
    · -- what an earlier entry reverses was there before
      obtain ⟨o, ho, hid⟩ := hj.reversed r (mem_upTo hr) _ hrev
      have hnew : x.newId ∉ j.rows.map JournalEntry.id := insertOne_fresh h
      exact absurd (mem_map.mpr ⟨o, ho, hid⟩) hnew
  · cases hrev

theorem foreignBalance_doc (hout : normalizeJournalLines (q.lines rs) = .ok out)
    (h : j.insertOne (q.doc x out) = some j') (account : ℕ) :
    (j'.annotate x.newId fun m => { m with revaluation := some q.currency }).foreignBalance
      account q.currency q.date = j.foreignBalance account q.currency q.date := by
  have hnone : foreignOn account q.currency (q.doc x out).lines = 0 :=
    foreignOn_of_none (foreign_doc x hout)
  rw [Journal.foreignBalance, upTo_doc h, map_append, sum_append, map_singleton,
    sum_singleton]
  change _ + foreignOn account q.currency (q.doc x out).lines = _
  rw [hnone, add_zero, Journal.foreignBalance]

theorem carrying_doc (hj : InOrder j) (hu : j.Unreversed q.currency q.date)
    (hout : normalizeJournalLines (q.lines rs) = .ok out) (h : j.insertOne (q.doc x out) = some j')
    (ha : some account ∉ q.counterAccounts rs) :
    (j'.annotate x.newId fun m => { m with revaluation := some q.currency }).carrying
      account q.currency q.date =
        j.carrying account q.currency q.date + differenceOf account rs := by
  have hposted : carriedBy account q.currency ((q.doc x out).revalues q.currency)
      (q.doc x out).lines = differenceOf account rs := by
    rw [(revalues_doc q x out q.currency).mp rfl, carriedBy_whole]
    change baseOn account (enrich x.names out) = _
    rw [baseOn_enrich, baseOn_normalizeFrom (normalizeJournalLines_ok.mp hout).1, movedOn_lines ha]
  rw [(unreversed_doc hj hu h).carrying_eq, upTo_doc h, map_append, sum_append,
    map_singleton, sum_singleton, hu.carrying_eq]
  exact congrArg _ hposted

/-- Every monetary account is carried at its balance at the rate, as a decimal gives it. -/
def AtRate (s : FxLedger) (q : RevaluationRequest) : Prop :=
  ∀ account ∈ s.monetary,
    expectedBase (s.journal.foreignBalance account q.currency q.date) q.rate =
      some (s.journal.carrying account q.currency q.date)

theorem SoundRevaluation.readable (h : SoundRevaluation s q) : Readable s q.currency q.date :=
  ⟨h.accounts, h.entries.le, h.unreversed⟩

theorem differenceOf_of_lines (h : q.lines rs = []) (account : ℕ) : differenceOf account rs = 0 := by
  refine sum_eq_zero fun v hv => ?_
  obtain ⟨r, hr, rfl⟩ := mem_map.mp hv
  rw [lines_eq_nil_iff.mp h r hr, ite_self]

/-- A ledger after a revaluation: it can be read again, and is carried at the rate. -/
structure Revalued (s s' : FxLedger) (q : RevaluationRequest) : Prop where
  accounts : s'.accounts ≠ []
  monetary : s'.monetary = s.monetary
  readable : Readable s' q.currency q.date
  atRate : AtRate s' q
  foreign : ∀ account, s'.journal.foreignBalance account q.currency q.date =
    s.journal.foreignBalance account q.currency q.date

theorem revalued_of_sound (h : InOrder s.journal) (hq : Sound s (.revalue q x))
    (hsucc : (s.revalue q x).2.succeeded = true) : Revalued s (s.revalue q x).1 q := by
  have hsound : SoundRevaluation s q := hq.2
  have hread := hsound.readable
  obtain ⟨hsame, hlines⟩ | ⟨rs, out, j, hrs, hout, haccounts, hins, hnext⟩ := revalue_cases hq
  · rw [hsame]
    obtain ⟨haccounts, rs, hrs, hnil⟩ := hlines hsucc
    refine ⟨haccounts, rfl, hread, fun account ha => ?_, fun account => rfl⟩
    rw [expectedBase_carrying h hread hrs ha, differenceOf_of_lines hnil, add_zero]
  · rw [hnext]
    have hentries : ((j.annotate x.newId fun m =>
        { m with revaluation := some q.currency }).upTo q.date).length ≤ 100000 := by
      have hbefore := hsound.entries
      rw [upTo_doc hins, length_append, length_singleton]
      omega
    refine ⟨haccounts, rfl, ⟨hsound.accounts, hentries, unreversed_doc h hsound.unreversed hins⟩,
      fun account ha => ?_, foreignBalance_doc hout hins⟩
    have hmoved := carrying_doc h hsound.unreversed hout hins (hsound.counter rs hrs account ha)
    rw [foreignBalance_doc hout hins, hmoved]
    exact expectedBase_carrying h hread hrs ha

/-- The carrying amount of every monetary account is its balance in the currency at the rate,
rounded to the cent. -/
def OnTarget (s : FxLedger) (q : RevaluationRequest) : Prop :=
  ∀ account ∈ s.monetary, s.journal.carrying account q.currency q.date =
    halfAway (s.journal.foreignBalance account q.currency q.date * q.rate)

/-- A revaluation at the same date and rate finds no difference and posts nothing. -/
def Settled (s : FxLedger) (q : RevaluationRequest) : Prop :=
  ∀ q' x, q'.currency = q.currency → q'.date = q.date → q'.rate = q.rate →
    (s.revalue q' x).1 = s ∧
      (x.readsFail = false → ∃ rs, (s.revalue q' x).2 = .noDifference rs)

theorem onTarget_of_revalued (hq : SoundRevaluation s q) (h : Revalued s s' q) : OnTarget s' q := by
  intro account ha
  have hat := h.atRate account ha
  rw [h.foreign] at hat
  rw [h.foreign]
  exact hq.rounded account (h.monetary ▸ ha) _ hat

theorem settled_of_atRate (h : InOrder s.journal) (hread : Readable s q.currency q.date)
    (hat : AtRate s q) (haccounts : s.accounts ≠ []) : Settled s q := by
  intro q' x hcurrency hdate hrate
  rw [← hcurrency, ← hdate] at hread
  have hat' : AtRate s q' := by
    rw [AtRate, hcurrency, hdate, hrate]
    exact hat
  obtain ⟨hpos, -⟩ := positions_balances h hread
  obtain ⟨rs, hrs⟩ : ∃ rs, s.revalued q' = some rs := by
    refine exists_revaluePositions fun y hy => ?_
    obtain ⟨hmem, hy⟩ := hpos y hy
    rw [hy]
    exact Option.isSome_iff_exists.mpr ⟨_, hat' y.1 hmem⟩
  have hnil : q'.lines rs = [] := by
    refine lines_eq_nil_iff.mpr fun r hr => ?_
    have hall := revaluePositions_some hrs
    have haccount : r.account ∈ (s.positions q'.date q'.currency).map Prod.fst :=
      map_account hall ▸ mem_map.mpr ⟨r, hr, rfl⟩
    obtain ⟨y, hy, hid⟩ := mem_map.mp haccount
    have hmem : r.account ∈ s.monetary := hid ▸ (hpos y hy).1
    have hnodup : (rs.map RevaluedPosition.account).Nodup := by
      rw [map_account hall]
      exact nodup_positions s q'.date q'.currency
    have hmoved := expectedBase_carrying h hread hrs hmem
    rw [hat' r.account hmem, differenceOf_of_mem hnodup hr, Option.some.injEq] at hmoved
    omega
  unfold FxLedger.revalue
  rw [if_neg haccounts, hrs]
  dsimp only
  rw [if_pos hnil]
  by_cases hreads : x.readsFail = true
  · rw [if_pos hreads]
    refine ⟨rfl, fun hno => ?_⟩
    rw [hreads] at hno
    cases hno
  · rw [if_neg hreads]
    exact ⟨rfl, fun _ => ⟨rs, rfl⟩⟩

/-- A revaluation that succeeds takes every monetary account to its target, and the same
revaluation again has nothing to post. -/
theorem revaluation_on_target {s s' : FxLedger} {q : RevaluationRequest} {x : RevaluationChance}
    {answer : RevaluationAnswer} (hs : fxLedger.Reach Sound s) (hq : Sound s (.revalue q x))
    (h : s.revalue q x = (s', answer)) (hsucc : answer.succeeded = true) :
    OnTarget s' q ∧ Settled s' q := by
  have horder := reach_inOrder hs
  have hfst : (s.revalue q x).1 = s' := congrArg Prod.fst h
  have hsnd : (s.revalue q x).2 = answer := congrArg Prod.snd h
  have hrevalued := revalued_of_sound horder hq (hsnd ▸ hsucc)
  have horder' := inOrder_next horder hq (rfl : s.step (.revalue q x) = some (s.revalue q x).1)
  rw [hfst] at hrevalued horder'
  exact ⟨onTarget_of_revalued hq.2 hrevalued,
    settled_of_atRate horder' hrevalued.readable hrevalued.atRate hrevalued.accounts⟩

/-- Hundred dollars at the rate 30, on the only monetary account. -/
def dollarLedger : FxLedger := ⟨dollarJournal, [100]⟩

def dollarClosing : RevaluationRequest := ⟨20260131, 840, 32, .of 646, .of 656⟩

theorem reach_dollarLedger : fxLedger.Reach Sound dollarLedger := by
  have h₀ : fxLedger.init ⟨⟨[], .nil, .nil, .nil⟩, []⟩ := rfl
  have hchart := Machine.Reach.tail (C := Sound) (.start h₀) ⟨.chart [100], trivial, rfl⟩
  refine hchart.tail ⟨.post dollarEntry, ?_, rfl⟩
  change NonzeroAmounts dollarEntry.lines
  unfold NonzeroAmounts
  decide +kernel

theorem sound_dollarClosing : SoundRevaluation dollarLedger dollarClosing where
  accounts := by decide
  entries := by decide +kernel
  unreversed := by
    unfold Journal.Unreversed
    decide +kernel
  rounded account ha base hbase := by
    rw [mem_singleton.mp ha] at hbase ⊢
    have htarget : expectedBase (dollarLedger.journal.foreignBalance 100 840 20260131) 32 =
        some 320000 := by decide +kernel
    obtain rfl : 320000 = base := Option.some.inj (htarget.symm.trans hbase)
    decide +kernel
  counter rs hrs account ha := by
    have hfound : dollarLedger.revalued dollarClosing = some [⟨100, 10000, 300000, 320000⟩] := by
      decide +kernel
    rw [mem_singleton.mp ha, ← Option.some.inj (hfound.symm.trans hrs)]
    decide +kernel
  fresh rs out e _ _ he := by
    have hnone : dollarLedger.journal.underKey dollarClosing.key = none := by decide +kernel
    rw [hnone] at he
    cases he

/-- The gain of two hundred is posted, and the account is carried at 3200. -/
theorem revaluation_on_target_dollars :
    (dollarLedger.revalue dollarClosing { newId := 2 }).2 =
        .posted 2 [⟨100, 10000, 300000, 320000⟩] ∧
      OnTarget (dollarLedger.revalue dollarClosing { newId := 2 }).1 dollarClosing ∧
      Settled (dollarLedger.revalue dollarClosing { newId := 2 }).1 dollarClosing :=
  ⟨by decide +kernel, revaluation_on_target (x := { newId := 2 }) reach_dollarLedger
    ⟨rfl, sound_dollarClosing⟩ rfl (by decide +kernel)⟩

/-- The revaluation is reversed. The reversal has no mark, so the next revaluation takes the
reversed difference for one that stands, and posts nothing. -/
theorem off_target_reversedRevaluation : ∃ s s' answer, fxLedger.Reachable s ∧
    s.revalue dollarClosing { newId := 4 } = (s', answer) ∧ answer.succeeded = true ∧
      ¬ OnTarget s' dollarClosing := by
  obtain ⟨s, hs, hv⟩ := Machine.exists_reachable_of_run (M := fxLedger)
    (s := ⟨⟨[], .nil, .nil, .nil⟩, []⟩)
    (f := fun s => ((s.revalue dollarClosing { newId := 4 }).1.monetary,
      (s.revalue dollarClosing { newId := 4 }).1.journal.carrying 100 840 20260131,
      (s.revalue dollarClosing { newId := 4 }).1.journal.foreignBalance 100 840 20260131,
      (s.revalue dollarClosing { newId := 4 }).2.succeeded))
    (v := ([100], 300000, 10000, true))
    [.chart [100], .post dollarEntry, .revalue dollarClosing { newId := 2 },
      .reverse ⟨2, 20260131, 5, 1⟩ { newId := 3 }]
    rfl (by decide +kernel)
  simp only [Prod.mk.injEq] at hv
  obtain ⟨hmonetary, hcarrying, hforeign, hsucc⟩ := hv
  refine ⟨s, _, _, hs, rfl, hsucc, fun htarget => ?_⟩
  have ha : 100 ∈ (s.revalue dollarClosing { newId := 4 }).1.monetary := by
    rw [hmonetary]
    exact mem_cons_self
  have heq := htarget 100 ha
  have hdifferent : (300000 : ℤ) ≠ halfAway ((10000 : ℤ) * 32) := by decide +kernel
  exact hdifferent (hcarrying.symm.trans (heq.trans (by rw [← hforeign]; rfl)))

end SyrocePms.Ledger.Foreign
