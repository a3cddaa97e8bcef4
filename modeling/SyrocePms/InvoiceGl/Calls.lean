import SyrocePms.OperationalGl.Lines
import SyrocePms.Lib.Collection
import SyrocePms.Lib.Threads

/-! Lines that reverse the journal of an invoice: debit and credit are swapped. The reversal of an
outgoing invoice copies the foreign part of a line, that of an incoming one does not. -/

namespace SyrocePms.InvoiceGl

open OperationalGl List

inductive Direction
  | incoming
  | outgoing
  deriving DecidableEq

/-- The number of the memo text of a reversing line, from the memos of the line and of the entry. -/
abbrev Texts := Direction → LineMemo → ℕ → ℕ

/-- Whether exactly one of debit and credit is positive. -/
def isReversible (x : Line) : Bool := decide (0 < x.debit) != decide (0 < x.credit)

def reverseLine (texts : Texts) (d : Direction) (memo : ℕ) (x : Line) : Line where
  account := x.account
  debit := x.credit
  credit := x.debit
  memo := .text (texts d x.memo memo)
  foreign := match d with
    | .incoming => none
    | .outgoing => x.foreign

def reversalLines (texts : Texts) (d : Direction) (memo : ℕ) (lines : List Line) : List Line :=
  lines.map (reverseLine texts d memo)

def foreignPart (currency : Currency) (x : Line) : ℤ :=
  ((x.foreign.filter fun f => f.currency = currency).map fun f => if 0 < x.debit then f.amount else -f.amount).getD 0

def foreignEffect (currency : Currency) (lines : List Line) (account : ℕ) : ℤ :=
  (lines.map fun x => if x.account = account then foreignPart currency x else 0).sum

variable {texts : Texts} {d : Direction} {memo account : ℕ} {currency : Currency} {lines : List Line} {x : Line}

@[simp] theorem effect_cons : effect (x :: lines) account =
    (if x.account = account then x.debit - x.credit else 0) + effect lines account := by
  simp [effect]

@[simp] theorem foreignEffect_cons : foreignEffect currency (x :: lines) account =
    (if x.account = account then foreignPart currency x else 0) + foreignEffect currency lines account := by
  simp [foreignEffect]

@[simp] theorem reverseLine_account : (reverseLine texts d memo x).account = x.account := rfl

theorem effect_reversal : effect lines account + effect (reversalLines texts d memo lines) account = 0 := by
  induction lines with
  | nil => rfl
  | cons x lines ih =>
    simp only [reversalLines, map_cons, effect_cons, reverseLine_account] at ih ⊢
    by_cases h : x.account = account <;> simp [h, reverseLine] <;> omega

theorem foreignPart_reverseLine (h : isReversible x = true) :
    foreignPart currency (reverseLine texts .outgoing memo x) = -foreignPart currency x := by
  simp only [isReversible, bne_iff_ne, ne_eq, decide_eq_decide] at h
  simp only [foreignPart, reverseLine]
  cases x.foreign.filter fun f => f.currency = currency with
  | none => simp
  | some f =>
    by_cases hd : 0 < x.debit
    · have hc : ¬0 < x.credit := fun hc => h (iff_of_true hd hc)
      simp [hd, hc]
    · have hc : 0 < x.credit := by_contra fun hc => h (iff_of_false hd hc)
      simp [hd, hc]

theorem foreignEffect_reversal (h : ∀ x ∈ lines, isReversible x = true) :
    foreignEffect currency lines account +
      foreignEffect currency (reversalLines texts .outgoing memo lines) account = 0 := by
  induction lines with
  | nil => rfl
  | cons x lines ih =>
    have hx : foreignPart currency (reverseLine texts .outgoing memo x) = -foreignPart currency x :=
      foreignPart_reverseLine (h x mem_cons_self)
    have ih := ih fun y hy => h y (mem_cons_of_mem _ hy)
    simp only [reversalLines, map_cons, foreignEffect_cons, reverseLine_account, hx] at ih ⊢
    split <;> omega

theorem foreignEffect_incoming : foreignEffect currency (reversalLines texts .incoming memo lines) account = 0 := by
  induction lines with
  | nil => rfl
  | cons x lines ih =>
    simp only [reversalLines, map_cons, foreignEffect_cons] at ih ⊢
    rw [ih, add_zero]
    exact ite_self 0

/-- The lines move no account in a foreign currency. -/
def isFlat (lines : List Line) : Bool :=
  lines.all fun x => lines.all fun y => y.foreign.all fun f => foreignEffect f.currency lines x.account = 0

theorem foreignEffect_of_not_account (h : ∀ x ∈ lines, x.account ≠ account) : foreignEffect currency lines account = 0 := by
  induction lines with
  | nil => rfl
  | cons x lines ih =>
    simp [h x mem_cons_self, ih fun y hy => h y (mem_cons_of_mem _ hy)]

theorem foreignEffect_of_not_currency (h : ∀ x ∈ lines, ∀ f ∈ x.foreign, f.currency ≠ currency) :
    foreignEffect currency lines account = 0 := by
  induction lines with
  | nil => rfl
  | cons x lines ih =>
    have hx : foreignPart currency x = 0 := by
      cases hf : x.foreign with
      | none => simp [foreignPart, hf]
      | some f => simp [foreignPart, hf, Option.filter, h x mem_cons_self f hf]
    simp [hx, ih fun y hy => h y (mem_cons_of_mem _ hy)]

theorem foreignEffect_of_isFlat (h : isFlat lines = true) : foreignEffect currency lines account = 0 := by
  simp only [isFlat, all_eq_true] at h
  by_cases haccount : ∃ x ∈ lines, x.account = account
  · obtain ⟨x, hx, rfl⟩ := haccount
    by_cases hcurrency : ∃ y ∈ lines, ∃ f ∈ y.foreign, f.currency = currency
    · obtain ⟨y, hy, f, hf, rfl⟩ := hcurrency
      have hall := h x hx y hy
      rw [hf] at hall
      simpa using hall
    · exact foreignEffect_of_not_currency fun y hy f hf heq => hcurrency ⟨y, hy, f, hf, heq⟩
  · exact foreignEffect_of_not_account fun x hx heq => haccount ⟨x, hx, heq⟩

theorem isReversible_of_accepted (h : linesError lines = none) : ∀ x ∈ lines, isReversible x = true := by
  intro x hx
  obtain ⟨i, hi, rfl⟩ := getElem_of_mem hx
  have hmem : (lines[i], i) ∈ lines.zipIdx := mk_mem_zipIdx_iff_getElem?.mpr (getElem?_eq_getElem hi)
  unfold linesError at h
  split at h
  · cases h
  · split at h
    · cases h
    · rename_i hnone
      have hline := findSome?_eq_none_iff.mp hnone _ hmem
      simp only [lineError] at hline
      split at hline
      · cases hline
      · split at hline
        · cases hline
        · split at hline
          · cases hline
          · split at hline
            · cases hline
            · rename_i hxor
              simpa [isReversible, bne_iff_ne, decide_eq_decide] using hxor

end SyrocePms.InvoiceGl

/-! Calls that reverse the journals of invoices, access by access. `post_journal_entry` looks for
the idempotency key, checks the fingerprint of what it finds, and otherwise inserts under the
indexes of the keys and of the reversed entries. A call that crashes takes no further step. -/

namespace SyrocePms.InvoiceGl

open Lib OperationalGl

/-! ### The journal -/

/-- `nilvera-incoming:<invoice>` and `nilvera-outgoing:<invoice>`, `nilvera-return:<action>`,
`nilvera-outgoing-reversal:<invoice>`, or another idempotency key. -/
inductive Key
  | invoice (d : Direction) (invoice : ℕ)
  | incomingReturn (action : ℕ)
  | outgoingReversal (invoice : ℕ)
  | other (n : ℕ)
  deriving DecidableEq

def Key.isReversal : Key → Bool
  | .incomingReturn _ | .outgoingReversal _ => true
  | _ => false

inductive Source
  | invoice (d : Direction)
  | reversal (d : Direction)
  | other (n : ℕ)
  deriving DecidableEq

/-- What the fingerprint of an entry covers. A reversal cites the number of the reversed entry
in its memo. -/
structure Content where
  date : ℕ
  memo : ℕ
  lines : List Line
  source : Source
  sourceRef : ℕ
  reverses : Option ℕ
  reason : Option ℕ
  deriving DecidableEq

/-- A posted row of `gl_journal_entries`. -/
structure Entry where
  id : ℕ
  date : ℕ
  memo : ℕ
  lines : JournalLines
  source : Source
  sourceRef : ℕ
  key : Option Key
  fingerprint : Option Content
  reverses : Option ℕ := none
  reason : Option ℕ := none
  deriving DecidableEq

def Entry.repeats (e : Entry) (c : Content) : Bool := e.fingerprint.all (· == c)

/-- The entries share an idempotency key or the entry that they reverse. -/
def Entry.clashes (e e' : Entry) : Bool :=
  e.key.isSome && e.key = e'.key || e.reverses.isSome && e.reverses = e'.reverses

/-- `gl_journal_entries` under the unique indexes of the keys and of the reversed entries. -/
structure Journal where
  entries : Collection Entry Entry.id
  unique : ∀ e ∈ entries, ∀ e' ∈ entries, e.clashes e' = true → e = e'

variable {e e' : Entry} {k : Key}

namespace Journal

variable (j : Journal)

def empty : Journal := ⟨.empty, fun _ he => absurd he Collection.not_mem_empty⟩

def stored (key : Key) : Option Entry := j.entries.findOne fun e => e.key = some key

def original (d : Direction) (invoice : ℕ) : Option Entry :=
  j.entries.findOne fun e => e.key = some (.invoice d invoice) && e.source = .invoice d

def isReversed (id : ℕ) : Bool := j.entries.any fun e => e.reverses = some id

theorem clashes_comm (e e' : Entry) : e.clashes e' = e'.clashes e := by
  unfold Entry.clashes
  have hkey : (e.key.isSome && decide (e.key = e'.key)) = (e'.key.isSome && decide (e'.key = e.key)) := by
    by_cases h : e.key = e'.key <;> simp [h, eq_comm]
  have hreverses : (e.reverses.isSome && decide (e.reverses = e'.reverses)) =
      (e'.reverses.isSome && decide (e'.reverses = e.reverses)) := by
    by_cases h : e.reverses = e'.reverses <;> simp [h, eq_comm]
  rw [hkey, hreverses]

def insert (e : Entry) : Option Journal :=
  if h : j.entries.any (e.clashes ·) then none
  else
    match hc : j.entries.insertOne e with
    | none => none
    | some entries => some ⟨entries, by
      have hfree : ∀ x ∈ j.entries, e.clashes x ≠ true := fun x hx hclash =>
        h (Collection.any_eq_true.mpr ⟨x, hx, hclash⟩)
      intro x hx y hy hclash
      obtain hx | rfl := (Collection.mem_insertOne hc).mp hx
      · obtain hy | rfl := (Collection.mem_insertOne hc).mp hy
        · exact j.unique x hx y hy hclash
        · exact absurd (clashes_comm x y ▸ hclash) (hfree x hx)
      · obtain hy | rfl := (Collection.mem_insertOne hc).mp hy
        · exact absurd hclash (hfree y hy)
        · rfl⟩

theorem mem_insert {j j' : Journal} {x : Entry} (h : j.insert e = some j') :
    x ∈ j'.entries ↔ x ∈ j.entries ∨ x = e := by
  unfold insert at h
  split at h
  · cases h
  · split at h
    · cases h
    · rename_i entries hc
      cases h
      exact Collection.mem_insertOne hc

theorem eq_of_stored_key {j : Journal} (he : e ∈ j.entries) (he' : e' ∈ j.entries)
    (h : e.key = some k) (h' : e'.key = some k) : e = e' :=
  j.unique e he e' he' (by simp [Entry.clashes, h, h'])

theorem eq_of_reverses {j : Journal} {i : ℕ} (he : e ∈ j.entries) (he' : e' ∈ j.entries)
    (h : e.reverses = some i) (h' : e'.reverses = some i) : e = e' :=
  j.unique e he e' he' (by simp [Entry.clashes, h, h'])

theorem mem_of_stored {j : Journal} (h : j.stored k = some e) : e ∈ j.entries ∧ e.key = some k := by
  obtain ⟨he, hk⟩ := Collection.mem_of_findOne h
  exact ⟨he, by simpa using hk⟩

theorem stored_of_mem {j : Journal} (he : e ∈ j.entries) (hk : e.key = some k) :
    j.stored k = some e := by
  cases h : j.stored k with
  | none => exact absurd (by simpa using hk) (Collection.findOne_eq_none.mp h e he)
  | some x =>
    obtain ⟨hx, hxk⟩ := mem_of_stored h
    rw [eq_of_stored_key hx he hxk hk]

theorem original_eq_some {j : Journal} {d : Direction} {invoice : ℕ} {o : Entry} : j.original d invoice = some o ↔
    o ∈ j.entries ∧ o.key = some (.invoice d invoice) ∧ o.source = .invoice d := by
  constructor
  · intro h
    obtain ⟨ho, hk⟩ := Collection.mem_of_findOne h
    exact ⟨ho, by simpa using hk⟩
  · rintro ⟨ho, hk, hs⟩
    cases h : j.original d invoice with
    | none => exact absurd (by simp [hk, hs]) (Collection.findOne_eq_none.mp h o ho)
    | some x =>
      obtain ⟨hx, hxk⟩ := Collection.mem_of_findOne h
      simp only [Bool.and_eq_true, decide_eq_true_eq] at hxk
      rw [eq_of_stored_key hx ho hxk.1 hk]

theorem isReversed_eq_true {id : ℕ} : j.isReversed id = true ↔ ∃ r ∈ j.entries, r.reverses = some id := by
  simp [isReversed]

end Journal

/-- `marks` has the `reversal_entry_id` of the entries that are marked as reversed. -/
structure Store where
  journal : Journal
  marks : ℕ → Option ℕ

/-! ### Calls -/

/-- `reverse_incoming_invoice_gl_for_return` and `reverse_outgoing_invoice_gl`. -/
inductive Call
  | incoming (invoice action providerUuid : ℕ)
  | outgoing (invoice eventRef reason : ℕ)
  deriving DecidableEq

namespace Call

def direction : Call → Direction
  | .incoming .. => .incoming
  | .outgoing .. => .outgoing

def invoice : Call → ℕ
  | .incoming invoice _ _ | .outgoing invoice _ _ => invoice

def key : Call → Key
  | .incoming _ action _ => .incomingReturn action
  | .outgoing invoice _ _ => .outgoingReversal invoice

def sourceRef : Call → ℕ
  | .incoming _ _ providerUuid => providerUuid
  | .outgoing _ eventRef _ => eventRef

def reason : Call → ℕ
  | .incoming _ _ providerUuid => providerUuid
  | .outgoing _ _ reason => reason

end Call

/-- What the call cannot foresee: the day, the id of a new entry, and whether a check of the
period, the accounts or the ordinals refuses a post. -/
structure Chance where
  day : ℕ := 0
  newId : ℕ := 0
  refused : Bool := false

inductive Pc
  | start
  | lookup (o : Entry)
  | insert (o : Entry) (c : Content) (lines : JournalLines)
  | existing (o : Entry) (c : Content)
  | mark (o : Entry) (reversal : ℕ)
  | returned (reversal : Option ℕ)
  | raised
  deriving DecidableEq

/-- A call. `isLate` says that a reversal of its invoice was stored when it began. -/
structure Thread where
  call : Call
  isLate : Bool
  pc : Pc
  deriving DecidableEq

def Pc.isOver : Pc → Bool
  | .returned _ | .raised => true
  | _ => false

namespace Store

variable (s : Store) (texts : Texts)

def setMark (id reversal : ℕ) : Store := { s with marks := Function.update s.marks id (some reversal) }

theorem setMark_marks (id reversal i : ℕ) :
    (s.setMark id reversal).marks i = if i = id then some reversal else s.marks i := by
  simp [setMark, Function.update_apply]

def original (c : Call) : Option Entry := s.journal.original c.direction c.invoice

def content (c : Call) (o : Entry) (day : ℕ) : Content where
  date := day
  memo := o.id
  lines := reversalLines texts c.direction o.memo o.lines.lines
  source := .reversal c.direction
  sourceRef := c.sourceRef
  reverses := some o.id
  reason := some c.reason

def entry (c : Call) (x : Content) (lines : JournalLines) (id : ℕ) : Entry where
  id := id
  date := x.date
  memo := x.memo
  lines := lines
  source := x.source
  sourceRef := x.sourceRef
  key := some c.key
  fingerprint := some x
  reverses := x.reverses
  reason := x.reason

/-- What follows a post. Only a call for an outgoing invoice marks the original. -/
def afterPost (c : Call) (o : Entry) (id : ℕ) : Pc :=
  match c.direction with
  | .incoming => .returned (some id)
  | .outgoing => .mark o id

def found (c : Call) (o : Entry) (x : Content) (e : Entry) : Pc :=
  if e.repeats x then afterPost c o e.id else .raised

def marked (c : Call) (o : Entry) : Option ℕ :=
  match c.direction with
  | .incoming => none
  | .outgoing => s.marks o.id

def step (c : Call) (chance : Chance) : Pc → Option (Store × Pc)
  | .start =>
    some (s, match s.original c with
      | none => .returned none
      | some o =>
        match s.marked c o with
        | some id => .returned ((s.journal.entries.get? id).map Entry.id)
        | none => if o.lines.lines = [] || o.lines.lines.any fun x => !isReversible x then .raised else .lookup o)
  | .lookup o =>
    let x := content texts c o chance.day
    some (s, match normalizeJournalLines x.lines with
      | .error _ => .raised
      | .ok lines =>
        match s.journal.stored c.key with
        | some e => found c o x e
        | none => .insert o x lines)
  | .insert o x lines =>
    if chance.refused then some (s, .raised)
    else
      match s.journal.insert (entry c x lines chance.newId) with
      | some journal => some ({ s with journal := journal }, afterPost c o chance.newId)
      | none => some (s, .existing o x)
  | .existing o x =>
    some (s, match s.journal.stored c.key with
      | some e => found c o x e
      | none => .raised)
  | .mark o id => some (s.setMark o.id id, .returned (some id))
  | .returned _ | .raised => none

def post (e : Entry) : Option Store :=
  if e.reverses.isSome || e.key.any Key.isReversal then none
  else (s.journal.insert e).map fun journal => { s with journal := journal }

end Store

def reversals (texts : Texts) : Program Store Thread Entry Call Chance where
  init s := (∀ e ∈ s.journal.entries, e.reverses = none ∧ ∀ k ∈ e.key, k.isReversal = false) ∧ ∀ id, s.marks id = none
  env s e := s.post e
  call s c := some ⟨c, (s.original c).any fun o => s.journal.isReversed o.id, .start⟩
  step _ s t chance := (s.step texts t.call chance t.pc).map fun r => (r.1, { t with pc := r.2 })

end SyrocePms.InvoiceGl
