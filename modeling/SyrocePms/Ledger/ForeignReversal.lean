import Mathlib.Data.Nat.Pairing
import SyrocePms.Ledger.ForeignLines
import SyrocePms.Lib.Threads

/-! Journal entries whose lines may have a foreign currency, and `reverse_journal_entry` on
them: the reversal is built from the lines of its original, normalised again, and stored under
the unique index on the entry that it reverses. -/

namespace SyrocePms.Ledger.Foreign

open Lib List

variable {entryMemo index : ℕ} {p q : PostedLine} {out : List PostedLine}

inductive EntryMemo where
  | text (n : ℕ)
  | reversal (entry reason : ℕ)
  | revaluation (currency date : ℕ)
  deriving DecidableEq

/-- `source` with `source_ref`. -/
inductive EntrySource where
  | other (n : ℕ)
  | billingSettlement (n : ℕ)
  | reversal (entry : ℕ)
  | fxRevaluation (currency date : ℕ)
  deriving DecidableEq

inductive EntryKey where
  | request (n : ℕ)
  | fxRevaluation (currency date : ℕ)
  deriving DecidableEq

/-- What the fingerprint of an entry covers. The hash stands for the content itself. -/
structure EntryContent where
  date : ℕ
  memo : EntryMemo
  lines : List PostedLine
  source : EntrySource
  reverses : Option ℕ := none
  reason : Option ℕ := none
  deriving DecidableEq

/-- The fields of an entry that are set after it was posted. -/
structure EntryMarks where
  reversedBy : Option ℕ := none
  revaluation : Option ℕ := none
  deriving DecidableEq

/-- A row of `gl_journal_entries`. -/
structure JournalEntry where
  id : ℕ
  content : EntryContent
  key : Option EntryKey := none
  fingerprint : Option EntryContent := none
  posted : Bool := true
  marks : EntryMarks := {}
  deriving DecidableEq

namespace JournalEntry

def reverses (e : JournalEntry) : Option ℕ := e.content.reverses

def lines (e : JournalEntry) : List PostedLine := e.content.lines

def repeats (e : JournalEntry) (c : EntryContent) : Bool := e.fingerprint.all (· == c)

end JournalEntry

/-- The entries of a tenant under the unique indexes: on the identifier, on the idempotency key,
and on the entry that is reversed. -/
structure Journal where
  rows : List JournalEntry
  ids : (rows.map JournalEntry.id).Nodup
  keys : (rows.filterMap JournalEntry.key).Nodup
  single : (rows.filterMap JournalEntry.reverses).Nodup

theorem nodup_filterMap_append {α β : Type*} {f : α → Option β} {rows : List α} {e : α}
    (h : (rows.filterMap f).Nodup) (hf : ∀ b ∈ f e, b ∉ rows.filterMap f) :
    ((rows ++ [e]).filterMap f).Nodup := by
  rw [filterMap_append]
  cases hb : f e with
  | none => simpa [hb] using h
  | some b =>
    have hone : [e].filterMap f = [b] := by simp [hb]
    rw [hone]
    exact h.append (nodup_singleton b) (disjoint_singleton.mpr (hf b hb))

variable {j j' : Journal} {e e' : JournalEntry} {f : EntryMarks → EntryMarks}

namespace Journal

def Free (j : Journal) (e : JournalEntry) : Prop :=
  e.id ∉ j.rows.map JournalEntry.id ∧ (∀ k ∈ e.key, k ∉ j.rows.filterMap JournalEntry.key) ∧
    ∀ i ∈ e.reverses, i ∉ j.rows.filterMap JournalEntry.reverses

instance (j : Journal) (e : JournalEntry) : Decidable (j.Free e) :=
  inferInstanceAs (Decidable (_ ∧ _))

def insertOne (j : Journal) (e : JournalEntry) : Option Journal :=
  if h : j.Free e then
    some
      { rows := j.rows ++ [e]
        ids := by
          rw [map_append]
          exact j.ids.append (nodup_singleton _) (disjoint_singleton.mpr h.1)
        keys := nodup_filterMap_append j.keys h.2.1
        single := nodup_filterMap_append j.single h.2.2 }
  else none

theorem insertOne_rows (h : j.insertOne e = some j') : j'.rows = j.rows ++ [e] := by
  unfold insertOne at h
  split at h
  · cases h
    rfl
  · cases h

/-- An update of the fields that are set after the posting. -/
def annotate (j : Journal) (id : ℕ) (f : EntryMarks → EntryMarks) : Journal :=
  let g : JournalEntry → JournalEntry := fun e => if e.id = id then { e with marks := f e.marks } else e
  have hg : ∀ (β : Type) (k : JournalEntry → β), (∀ e m, k { e with marks := m } = k e) →
      ∀ e, k (g e) = k e := by
    intro β k hk e
    simp only [g]
    split
    · exact hk e _
    · rfl
  { rows := j.rows.map g
    ids := by
      have heq : JournalEntry.id ∘ g = JournalEntry.id :=
        funext (hg _ JournalEntry.id fun _ _ => rfl)
      rw [map_map, heq]
      exact j.ids
    keys := by
      have heq : JournalEntry.key ∘ g = JournalEntry.key :=
        funext (hg _ JournalEntry.key fun _ _ => rfl)
      rw [filterMap_map, heq]
      exact j.keys
    single := by
      have heq : JournalEntry.reverses ∘ g = JournalEntry.reverses :=
        funext (hg _ JournalEntry.reverses fun _ _ => rfl)
      rw [filterMap_map, heq]
      exact j.single }

theorem mem_annotate {id : ℕ} (h : e' ∈ (j.annotate id f).rows) :
    ∃ e ∈ j.rows, e'.id = e.id ∧ e'.content = e.content ∧ e'.posted = e.posted := by
  obtain ⟨e, he, rfl⟩ := mem_map.mp h
  refine ⟨e, he, ?_⟩
  split <;> exact ⟨rfl, rfl, rfl⟩

theorem exists_mem_annotate {id : ℕ} (h : e ∈ j.rows) :
    ∃ e' ∈ (j.annotate id f).rows, e'.id = e.id ∧ e'.content = e.content := by
  refine ⟨_, mem_map.mpr ⟨e, h, rfl⟩, ?_⟩
  split <;> exact ⟨rfl, rfl⟩

/-- The identifier determines the entry. -/
theorem eq_of_id (h : e ∈ j.rows) (h' : e' ∈ j.rows) (hid : e.id = e'.id) : e = e' :=
  inj_on_of_nodup_map j.ids h h' hid

def underKey (j : Journal) (key : EntryKey) : Option JournalEntry :=
  j.rows.find? fun e => e.key == some key

end Journal

/-! ### The request -/

/-- The arguments of `reverse_journal_entry`. -/
structure ReversalRequest where
  entry : ℕ
  date : ℕ
  reason : ℕ
  key : ℕ

inductive ReversalRefusal where
  | notFound
  | settlement
  | allocated
  | isReversal
  | badDate
  | beforeOriginal
  | noLines
  | alreadyReversed
  | lines (e : NormalizeError)
  | keyReused
  | notAccepted
  | duplicate

inductive ReversalAnswer where
  | reversed (by_ : ℕ)
  | refused (e : ReversalRefusal)
  | failed

inductive ReversalPc where
  | start
  | existing (lines : List RawLine)
  | stored (c : EntryContent)
  | insert (c : EntryContent)
  | recover (c : EntryContent)
  | mark (reversal : ℕ)
  | returned (a : ReversalAnswer)

structure ReversalCall where
  request : ReversalRequest
  pc : ReversalPc := .start

/-- What a request cannot foresee: the new identifier, whether the entry funds instruments,
whether the period, the accounts and the ordinal let it post, and the names of the chart. -/
structure ReversalChance where
  newId : ℕ
  allocated : Bool := false
  accepted : Bool := true
  names : ℕ → Option ℕ := fun _ => none

/-- The text `Ters kayıt: …` of a memo, by a number of its own. -/
def reversalMemo (memo : ℕ) : ℕ := memo + 1

def reversedLine (entryMemo : ℕ) (p : PostedLine) : RawLine :=
  { p.swap.raw with
    accountName := none
    memo := some (.of (reversalMemo (p.memo.getD entryMemo))) }

def EntryMemo.word : EntryMemo → ℕ
  | .text n => 3 * n
  | .reversal entry reason => 3 * Nat.pair entry reason + 1
  | .revaluation currency date => 3 * Nat.pair currency date + 2

def reversalRefusal (o : JournalEntry) (q : ReversalRequest) (allocated : Bool) :
    Option ReversalRefusal :=
  match o.content.source with
  | .billingSettlement _ => some .settlement
  | _ =>
    if allocated then some .allocated
    else if o.reverses.isSome then some .isReversal
    else
      match normalizePostingDate q.date, normalizePostingDate o.content.date with
      | some date, some original =>
        if date < original then some .beforeOriginal
        else if o.lines = [] then some .noLines
        else none
      | _, _ => some .badDate

def ReversalRequest.content (q : ReversalRequest) (lines : List PostedLine) : EntryContent where
  date := q.date
  memo := .reversal q.entry q.reason
  lines := lines
  source := .reversal q.entry
  reverses := some q.entry
  reason := some q.reason

def enrich (names : ℕ → Option ℕ) (lines : List PostedLine) : List PostedLine :=
  lines.map fun p => { p with accountName := p.accountName.or (names p.accountCode) }

def ReversalRequest.doc (q : ReversalRequest) (x : ReversalChance) (c : EntryContent) :
    JournalEntry where
  id := x.newId
  content := { c with lines := enrich x.names c.lines }
  key := some (.request q.key)
  fingerprint := some c

def answerOf (e : JournalEntry) (c : EntryContent) : ReversalPc :=
  if e.repeats c then .mark e.id else .returned (.refused .keyReused)

/-- The first operation: the original and the checks on it. -/
def beginReversal (j : Journal) (q : ReversalRequest) (x : ReversalChance) : ReversalPc :=
  match j.rows.find? fun e => e.id == q.entry && e.posted with
  | none => .returned (.refused .notFound)
  | some o =>
    match reversalRefusal o q x.allocated with
    | some e => .returned (.refused e)
    | none => .existing (o.lines.map (reversedLine o.content.memo.word))

def normalizeReversal (q : ReversalRequest) (lines : List RawLine) : ReversalPc :=
  match normalizeJournalLines lines with
  | .error e => .returned (.refused (.lines e))
  | .ok out => .stored (q.content out)

def existingReversal (j : Journal) (q : ReversalRequest) (lines : List RawLine) : ReversalPc :=
  match j.rows.find? fun e => e.reverses == some q.entry with
  | none => normalizeReversal q lines
  | some r =>
    if r.key = some (.request q.key) then normalizeReversal q lines
    else .returned (.refused .alreadyReversed)

def ReversalRequest.operate (q : ReversalRequest) (j : Journal) (x : ReversalChance) :
    ReversalPc → Journal × ReversalPc
  | .start => (j, beginReversal j q x)
  | .existing lines => (j, existingReversal j q lines)
  | .stored c =>
    (j, match j.underKey (.request q.key) with
      | some e => answerOf e c
      | none => if x.accepted then .insert c else .returned (.refused .notAccepted))
  | .insert c =>
    match j.insertOne (q.doc x c) with
    | some j' => (j', .mark x.newId)
    | none => (j, .recover c)
  | .recover c =>
    (j, match j.underKey (.request q.key) with
      | some e => answerOf e c
      | none => .returned (.refused .duplicate))
  | .mark r =>
    (j.annotate q.entry fun m => { m with reversedBy := some r }, .returned (.reversed r))
  | .returned a => (j, .returned a)

/-- An operation is answered, its answer is lost, or it fails. -/
inductive ReversalReply where
  | answered
  | lost
  | failed

structure ReversalMove where
  chance : ReversalChance
  reply : ReversalReply := .answered

def ReversalPc.over : ReversalPc → Bool
  | .returned _ => true
  | _ => false

def ReversalCall.step (j : Journal) (t : ReversalCall) (m : ReversalMove) :
    Option (Journal × ReversalCall) :=
  if t.pc.over then none
  else
    let r := t.request.operate j m.chance t.pc
    match m.reply with
    | .answered => some (r.1, { t with pc := r.2 })
    | .lost => some (r.1, { t with pc := .returned .failed })
    | .failed => some (j, { t with pc := .returned .failed })

/-- The requests for reversals beside the other postings, which reverse nothing. A run starts
with entries of which none is reversed. -/
def reversals : Program Journal ReversalCall JournalEntry ReversalRequest ReversalMove where
  init j := ∀ e ∈ j.rows, e.reverses = none
  env j e := if e.reverses = none then j.insertOne e else none
  call _ q := some { request := q }
  step _ j t m := t.step j m

/-! ### Lines that mirror others -/

/-- The line has the amounts of `p` on the other side. -/
structure Mirrors (p q : PostedLine) : Prop where
  account : q.accountCode = p.accountCode
  debit : q.debit = p.credit
  credit : q.credit = p.debit
  oneSide : 0 < q.debit ↔ ¬ 0 < q.credit
  foreign : q.foreign.map (fun f => (f.currency, f.amount)) =
    p.foreign.map fun f => (f.currency, f.amount)

/-- A line that is accepted for the reversal of `p` mirrors it, whatever its rate became. -/
theorem mirrors_of_reversedLine (h : normalizeLine index (reversedLine entryMemo p) = .ok q) :
    Mirrors p q := by
  obtain ⟨-, hcode, hs, hcur⟩ := normalizeLine_fields h
  have hx := (readSides_ok hs).2.2
  unfold readSides at hs
  cases hd : moneyToMinor (reversedLine entryMemo p).debit with
  | none =>
    rw [hd] at hs
    cases hs
  | some debit =>
    cases hc : moneyToMinor (reversedLine entryMemo p).credit with
    | none =>
      rw [hd, hc] at hs
      cases hs
    | some credit =>
      rw [hd, hc] at hs
      simp only at hs
      split_ifs at hs
      obtain ⟨rfl, rfl⟩ := Prod.mk.inj (Except.ok.inj hs)
      have hdebit : q.debit = p.credit := moneyToMinor_ofMinor_eq hd
      have hcredit : q.credit = p.debit := moneyToMinor_ofMinor_eq hc
      refine ⟨(Option.some.inj hcode).symm, hdebit, hcredit, ?_, ?_⟩
      · have hone := hx.2
        tauto
      · cases hf : q.foreign with
        | none =>
          rw [hf] at hcur
          cases hp : p.foreign with
          | none => rfl
          | some f =>
            exact absurd (by simp [reversedLine, PostedLine.raw, PostedLine.swap, hp])
              (readCurrency_none hcur f.currency 0)
        | some g =>
          rw [hf] at hcur
          obtain ⟨rate, ⟨spelling, hcode'⟩, hamount, -, -⟩ := readCurrency_some hcur
          cases hp : p.foreign with
          | none => simp [reversedLine, PostedLine.raw, PostedLine.swap, hp] at hcode'
          | some f =>
            simp only [reversedLine, PostedLine.raw, PostedLine.swap, hp, Option.map_some,
              Option.some.injEq, CurrencyText.foreign.injEq] at hcode'
            simp only [reversedLine, PostedLine.raw, PostedLine.swap, hp, Option.elim_some]
              at hamount
            simp [hcode'.1, moneyToMinor_ofMinor_eq hamount]

theorem mirrors_of_normalizeFrom {lines : List PostedLine}
    (h : normalizeFrom index (lines.map (reversedLine entryMemo)) = .ok out) :
    List.Forall₂ Mirrors lines out := by
  induction lines generalizing index out with
  | nil =>
    cases h
    exact .nil
  | cons p lines ih =>
    obtain ⟨q, qs, hq, hqs, rfl⟩ := normalizeFrom_cons h
    exact .cons (mirrors_of_reversedLine hq) (ih hqs)

theorem mirrors_enrich {lines : List PostedLine} (names : ℕ → Option ℕ)
    (h : List.Forall₂ Mirrors lines out) : List.Forall₂ Mirrors lines (enrich names out) := by
  induction h with
  | nil => exact .nil
  | cons hp _ ih => exact .cons ⟨hp.account, hp.debit, hp.credit, hp.oneSide, hp.foreign⟩ ih

/-! ### What an entry contributes -/

def PostedLine.foreignIn (currency : ℕ) (p : PostedLine) : ℤ :=
  match p.foreign with
  | none => 0
  | some f => if f.currency = currency then if 0 < p.debit then f.amount else -f.amount else 0

def baseOn (account : ℕ) (lines : List PostedLine) : ℤ :=
  (lines.map fun p => if p.accountCode = account then p.debit - p.credit else 0).sum

def foreignOn (account currency : ℕ) (lines : List PostedLine) : ℤ :=
  (lines.map fun p => if p.accountCode = account then p.foreignIn currency else 0).sum

theorem Mirrors.foreignIn (h : Mirrors p q) (currency : ℕ) :
    q.foreignIn currency = -p.foreignIn currency := by
  have hf := h.foreign
  have hside : 0 < q.debit ↔ ¬ 0 < p.debit := by
    rw [h.oneSide, h.credit]
  cases hq : q.foreign with
  | none =>
    cases hp : p.foreign with
    | none => simp [PostedLine.foreignIn, hp, hq]
    | some f => simp [hp, hq] at hf
  | some g =>
    cases hp : p.foreign with
    | none => simp [hp, hq] at hf
    | some f =>
      simp only [hp, hq, Option.map_some, Option.some.injEq, Prod.mk.injEq] at hf
      simp only [PostedLine.foreignIn, hp, hq, hf.1, hf.2, hside]
      split_ifs <;> simp_all

theorem contributions_cancel {lines : List PostedLine} (h : List.Forall₂ Mirrors lines out)
    (account currency : ℕ) : baseOn account lines + baseOn account out = 0 ∧
      foreignOn account currency lines + foreignOn account currency out = 0 := by
  induction h with
  | nil => simp [baseOn, foreignOn]
  | @cons p q ps qs hpq _ ih =>
    obtain ⟨hbase, hforeign⟩ := ih
    simp only [baseOn, foreignOn, map_cons, sum_cons] at hbase hforeign ⊢
    rw [hpq.account, hpq.debit, hpq.credit, hpq.foreignIn]
    constructor <;> split_ifs <;> omega

/-! ### What the requests keep -/

def MirrorsEntry (j : Journal) (id : ℕ) (lines : List PostedLine) : Prop :=
  ∃ o ∈ j.rows, o.id = id ∧ List.Forall₂ Mirrors o.lines lines

/-- Every reversal that is stored mirrors its original. -/
def Exact (j : Journal) : Prop :=
  ∀ r ∈ j.rows, ∀ i, r.reverses = some i → MirrorsEntry j i r.lines

/-- Entries stay, with their contents. -/
def Extends (j j' : Journal) : Prop :=
  ∀ e ∈ j.rows, ∃ e' ∈ j'.rows, e'.id = e.id ∧ e'.content = e.content

theorem Extends.refl (j : Journal) : Extends j j := fun e h => ⟨e, h, rfl, rfl⟩

theorem extends_insertOne (h : j.insertOne e = some j') : Extends j j' := by
  intro x hx
  refine ⟨x, ?_, rfl, rfl⟩
  rw [Journal.insertOne_rows h]
  exact mem_append_left _ hx

theorem MirrorsEntry.extends {id : ℕ} {lines : List PostedLine} (h : MirrorsEntry j id lines)
    (hj : Extends j j') : MirrorsEntry j' id lines := by
  obtain ⟨o, ho, hid, hm⟩ := h
  obtain ⟨o', ho', hid', hc⟩ := hj o ho
  refine ⟨o', ho', hid'.trans hid, ?_⟩
  rw [JournalEntry.lines, hc]
  exact hm

theorem exact_insertOne (hj : Exact j) (h : j.insertOne e = some j')
    (he : ∀ i, e.reverses = some i → MirrorsEntry j i e.lines) : Exact j' := by
  intro r hr i hi
  rw [Journal.insertOne_rows h] at hr
  rcases mem_append.mp hr with hr | hr
  · exact (hj r hr i hi).extends (extends_insertOne h)
  · obtain rfl := mem_singleton.mp hr
    exact (he i hi).extends (extends_insertOne h)

theorem exact_annotate (hj : Exact j) (id : ℕ) (f : EntryMarks → EntryMarks) :
    Exact (j.annotate id f) := by
  intro r hr i hi
  obtain ⟨e, he, -, hc, -⟩ := Journal.mem_annotate hr
  simp only [JournalEntry.reverses, JournalEntry.lines, hc] at hi ⊢
  exact (hj e he i hi).extends fun x hx => Journal.exists_mem_annotate hx

/-- The reversal that a request is about to post mirrors its original. -/
structure Pending (j : Journal) (q : ReversalRequest) (c : EntryContent) : Prop where
  reverses : c.reverses = some q.entry
  mirrors : MirrorsEntry j q.entry c.lines

/-- What a request has read or built. -/
def CallOk (j : Journal) (t : ReversalCall) : Prop :=
  match t.pc with
  | .start | .mark _ | .returned _ => True
  | .existing lines => ∃ o ∈ j.rows, o.id = t.request.entry ∧
      ∃ entryMemo, lines = o.lines.map (reversedLine entryMemo)
  | .stored c | .insert c | .recover c => Pending j t.request c

variable {t : ReversalCall}

theorem CallOk.extends (h : CallOk j t) (hj : Extends j j') : CallOk j' t := by
  unfold CallOk at h ⊢
  cases hpc : t.pc with
  | start | mark | returned => trivial
  | existing lines =>
    simp only [hpc] at h ⊢
    obtain ⟨o, ho, hid, entryMemo, rfl⟩ := h
    obtain ⟨o', ho', hid', hc⟩ := hj o ho
    exact ⟨o', ho', hid'.trans hid, entryMemo, by rw [JournalEntry.lines, JournalEntry.lines, hc]⟩
  | stored | insert | recover =>
    simp only [hpc] at h ⊢
    exact ⟨h.reverses, h.mirrors.extends hj⟩

theorem callOk_answerOf (j : Journal) (q : ReversalRequest) (e : JournalEntry) (c : EntryContent) :
    CallOk j ⟨q, answerOf e c⟩ := by
  unfold answerOf
  split <;> trivial

theorem callOk_normalize {q : ReversalRequest} {lines : List RawLine}
    (h : CallOk j ⟨q, .existing lines⟩) : CallOk j ⟨q, normalizeReversal q lines⟩ := by
  obtain ⟨o, ho, hid, entryMemo, rfl⟩ := h
  unfold normalizeReversal
  cases hn : normalizeJournalLines (o.lines.map (reversedLine entryMemo)) with
  | error e => trivial
  | ok out =>
    exact ⟨rfl, o, ho, hid, mirrors_of_normalizeFrom (normalizeJournalLines_ok.mp hn).1⟩

theorem callOk_begin (j : Journal) (q : ReversalRequest) (x : ReversalChance) :
    CallOk j ⟨q, beginReversal j q x⟩ := by
  unfold beginReversal
  split
  · trivial
  · rename_i o ho
    split
    · trivial
    · have hid : o.id = q.entry := by
        have hfound := find?_some ho
        simp only [Bool.and_eq_true, beq_iff_eq] at hfound
        exact hfound.1
      exact ⟨o, mem_of_find?_eq_some ho, hid, _, rfl⟩

theorem operate_exact (hj : Exact j) (h : CallOk j t) (x : ReversalChance) :
    Exact (t.request.operate j x t.pc).1 ∧ Extends j (t.request.operate j x t.pc).1 ∧
      CallOk (t.request.operate j x t.pc).1 ⟨t.request, (t.request.operate j x t.pc).2⟩ := by
  obtain ⟨q, pc⟩ := t
  cases pc with
  | start => exact ⟨hj, .refl j, callOk_begin j q x⟩
  | existing lines =>
    refine ⟨hj, .refl j, ?_⟩
    simp only [ReversalRequest.operate, existingReversal]
    split
    · exact callOk_normalize h
    · split
      · exact callOk_normalize h
      · trivial
  | stored c =>
    refine ⟨hj, .refl j, ?_⟩
    simp only [ReversalRequest.operate]
    split
    · exact callOk_answerOf j q _ c
    · split
      · exact h
      · trivial
  | insert c =>
    simp only [ReversalRequest.operate]
    cases hi : j.insertOne (q.doc x c) with
    | none => exact ⟨hj, .refl j, h⟩
    | some j' =>
      refine ⟨exact_insertOne hj hi ?_, extends_insertOne hi, trivial⟩
      intro i hr
      have hp : Pending j q c := h
      obtain ⟨o, ho, hid, hm⟩ := hp.mirrors
      have hentry : i = q.entry := Option.some.inj (hr.symm.trans hp.reverses)
      exact ⟨o, ho, hid.trans hentry.symm, mirrors_enrich x.names hm⟩
  | recover c =>
    refine ⟨hj, .refl j, ?_⟩
    simp only [ReversalRequest.operate]
    split
    · exact callOk_answerOf j q _ c
    · trivial
  | mark r =>
    exact ⟨exact_annotate hj _ _, fun e he => Journal.exists_mem_annotate he, trivial⟩
  | returned a => exact ⟨hj, .refl j, trivial⟩

theorem step_exact {t' : ReversalCall} {m : ReversalMove} (hj : Exact j) (h : CallOk j t)
    (hs : t.step j m = some (j', t')) : Exact j' ∧ Extends j j' ∧ CallOk j' t' := by
  obtain ⟨hexact, hext, hok⟩ := operate_exact hj h m.chance
  unfold ReversalCall.step at hs
  split at hs
  · cases hs
  · simp only at hs
    cases hm : m.reply with
    | answered =>
      rw [hm] at hs
      cases hs
      exact ⟨hexact, hext, hok⟩
    | lost =>
      rw [hm] at hs
      cases hs
      exact ⟨hexact, hext, trivial⟩
    | failed =>
      rw [hm] at hs
      cases hs
      exact ⟨hj, .refl j, trivial⟩

theorem reversals_preserve : Program.Preserves reversals (fun _ _ => True) Exact
    (fun j _ t => CallOk j t) (fun _ _ => True) where
  symm _ _ _ := trivial
  init j h := by
    intro r hr i hi
    rw [h r hr] at hi
    cases hi
  env p e j' hi _ h := by
    simp only [reversals] at h
    split at h
    · rename_i hnone
      refine ⟨exact_insertOne hi.store h fun i hr => ?_, fun k t ht =>
        (hi.thread k t ht).extends (extends_insertOne h)⟩
      rw [hnone] at hr
      cases hr
    · cases h
  call p q t _ _ h := by
    cases h
    exact ⟨trivial, fun _ _ => trivial⟩
  step p k m t j' t' hi _ ht h := by
    obtain ⟨hexact, hext, hok⟩ := step_exact hi.store (hi.thread k t ht) h
    exact ⟨hexact, hok, fun i u _ hu => ⟨(hi.thread i u hu).extends hext, trivial⟩⟩

/-- The unique index: no two entries reverse the same one. -/
theorem length_reversals_le (j : Journal) (i : ℕ) :
    (j.rows.filter fun r => r.reverses = some i).length ≤ 1 := by
  have hcount : (j.rows.filterMap JournalEntry.reverses).count i ≤ 1 :=
    nodup_iff_count_le_one.mp j.single i
  have hlen : (j.rows.filterMap JournalEntry.reverses).count i =
      (j.rows.filter fun r => r.reverses = some i).length := by
    rw [count_filterMap, countP_eq_length_filter]
    congr 1
    apply filter_congr
    intro r _
    exact beq_eq_decide _ _
  omega

/-- In every state that requests for reversals reach, an entry has at most one reversal, and the
two contribute nothing together, to any account, in the base currency and in every foreign
currency. -/
theorem reversal_exact_single {p : Pool Journal ReversalCall}
    (hp : reversals.machine.Reachable p) {o : JournalEntry} (ho : o ∈ p.store.rows) :
    (p.store.rows.filter fun r => r.reverses = some o.id).length ≤ 1 ∧
      ∀ r ∈ p.store.rows, r.reverses = some o.id → ∀ account currency,
        baseOn account o.lines + baseOn account r.lines = 0 ∧
          foreignOn account currency o.lines + foreignOn account currency r.lines = 0 := by
  refine ⟨length_reversals_le p.store o.id, ?_⟩
  intro r hr hrev account currency
  obtain ⟨o', ho', hid, hm⟩ := (reversals_preserve.reach hp).store r hr o.id hrev
  rw [Journal.eq_of_id ho ho' hid.symm]
  exact contributions_cancel hm account currency

def dollarEntry : JournalEntry where
  id := 1
  content :=
    { date := 20260105
      memo := .text 1
      lines := [⟨0, 100, none, 300000, 0, none, some ⟨840, 10000, 30⟩⟩,
        ⟨1, 600, none, 0, 300000, none, none⟩]
      source := .other 1 }

def dollarJournal : Journal := ⟨[dollarEntry], by decide, by decide, by decide⟩

def dollarReversal : JournalEntry :=
  ReversalRequest.doc ⟨1, 20260110, 5, 1⟩ ⟨2, false, true, fun _ => none⟩
    (ReversalRequest.content ⟨1, 20260110, 5, 1⟩
      [⟨0, 100, none, 0, 300000, some 4, some ⟨840, 10000, 30⟩⟩,
        ⟨1, 600, none, 300000, 0, some 4, none⟩])

/-- Two requests for one entry run side by side: one of them stores its reversal, and the index
refuses the other. -/
theorem reversal_exact_single_dollars : ∃ p, reversals.machine.Reachable p ∧
    p.store.rows = [dollarEntry, dollarReversal] ∧
    (p.store.rows.filter fun r => r.reverses = some dollarEntry.id).length ≤ 1 ∧
      ∀ r ∈ p.store.rows, r.reverses = some dollarEntry.id → ∀ account currency,
        baseOn account dollarEntry.lines + baseOn account r.lines = 0 ∧
          foreignOn account currency dollarEntry.lines +
            foreignOn account currency r.lines = 0 := by
  obtain ⟨p, hp, hrows⟩ := Machine.exists_reachable_of_run (M := reversals.machine)
    (s := ⟨dollarJournal, []⟩) (f := fun p => p.store.rows) (v := [dollarEntry, dollarReversal])
    [.call ⟨1, 20260110, 5, 1⟩, .call ⟨1, 20260111, 6, 2⟩, .step 0 ⟨{ newId := 2 }, .answered⟩,
      .step 1 ⟨{ newId := 3 }, .answered⟩, .step 0 ⟨{ newId := 2 }, .answered⟩,
      .step 1 ⟨{ newId := 3 }, .answered⟩, .step 0 ⟨{ newId := 2 }, .answered⟩,
      .step 1 ⟨{ newId := 3 }, .answered⟩, .step 0 ⟨{ newId := 2 }, .answered⟩,
      .step 1 ⟨{ newId := 3 }, .answered⟩]
    ⟨by
      intro e he
      rw [mem_singleton.mp he]
      rfl, rfl⟩ (by decide +kernel)
  have ho : dollarEntry ∈ p.store.rows := by
    rw [hrows]
    exact mem_cons_self
  exact ⟨p, hp, hrows, reversal_exact_single hp ho⟩

end SyrocePms.Ledger.Foreign
