import SyrocePms.Ledger.ForeignReversal
import SyrocePms.Lib.Dict

/-! `revalue_foreign_currency`: the positions of the monetary accounts in a currency are read
off the journal, and the differences to the closing rate are posted. The entry is marked with
its currency afterwards, by an update of its own. -/

namespace SyrocePms.Ledger.Foreign

open Lib

/-! ### Positions -/

/-- What an account holds in a currency, and what it is carried at. -/
@[ext] structure Position where
  foreign : ℤ := 0
  carrying : ℤ := 0
  deriving DecidableEq

/-- What a line adds to its account. Lines without the currency count in entries that are marked
with it, and lines with the amount zero are left out. -/
def lineChange (currency : ℕ) (marked : Bool) (p : PostedLine) : Option Position :=
  if p.foreign.any (·.currency == currency) then
    if p.foreign.any (·.amount == 0) then none
    else some ⟨p.foreignIn currency, p.debit - p.credit⟩
  else if marked then some ⟨0, p.debit - p.credit⟩
  else none

def Position.add (x y : Position) : Position := ⟨x.foreign + y.foreign, x.carrying + y.carrying⟩

def countLines (currency : ℕ) (monetary : List ℕ) (marked : Bool) (d : Dict ℕ Position) :
    List PostedLine → Dict ℕ Position
  | [] => d
  | p :: lines =>
    countLines currency monetary marked
      (if p.accountCode ∈ monetary then
        match lineChange currency marked p with
        | none => d
        | some change => d.update p.accountCode fun o => (o.getD {}).add change
      else d) lines

def countEntries (currency : ℕ) (monetary : List ℕ) (d : Dict ℕ Position) :
    List JournalEntry → Dict ℕ Position
  | [] => d
  | e :: entries =>
    countEntries currency monetary
      (countLines currency monetary (e.marks.revaluation = some currency) d e.lines) entries

def Journal.upTo (j : Journal) (date : ℕ) : List JournalEntry :=
  j.rows.filter fun e => e.posted && e.content.date ≤ date

/-! ### The request -/

/-- The arguments of `revalue_foreign_currency`. The lira is refused and is no currency here. -/
structure RevaluationRequest where
  date : ℕ
  currency : ℕ
  rate : ℚ
  gainAccount : Text
  lossAccount : Text

/-- The journal, and the codes of the active monetary accounts. -/
structure FxLedger where
  journal : Journal
  monetary : List ℕ

structure RevaluedPosition where
  account : ℕ
  foreign : ℤ
  carrying : ℤ
  revalued : ℤ
  deriving DecidableEq

def RevaluedPosition.difference (r : RevaluedPosition) : ℤ := r.revalued - r.carrying

/-- The loop over the sorted positions. A product with too many digits raises. -/
def revaluePositions (rate : ℚ) : List (ℕ × Position) → Option (List RevaluedPosition)
  | [] => some []
  | (account, p) :: positions =>
    match expectedBase p.foreign rate, revaluePositions rate positions with
    | some revalued, some rest => some (⟨account, p.foreign, p.carrying, revalued⟩ :: rest)
    | _, _ => none

def revaluationMemo (currency kind : ℕ) : Text := .of (3 * currency + kind)

def differenceLine (currency : ℕ) (r : RevaluedPosition) : Option RawLine :=
  if 0 < r.difference then
    some { accountCode := some (.of r.account), debit := .ofMinor r.difference,
           memo := some (revaluationMemo currency 0) }
  else if r.difference < 0 then
    some { accountCode := some (.of r.account), credit := .ofMinor (-r.difference),
           memo := some (revaluationMemo currency 0) }
  else none

def totalGain (rs : List RevaluedPosition) : ℤ := (rs.map fun r => max r.difference 0).sum

def totalLoss (rs : List RevaluedPosition) : ℤ := (rs.map fun r => max (-r.difference) 0).sum

namespace RevaluationRequest

variable (q : RevaluationRequest)

def gainLine (rs : List RevaluedPosition) : List RawLine :=
  if totalGain rs = 0 then []
  else [{ accountCode := some q.gainAccount, credit := .ofMinor (totalGain rs),
          memo := some (revaluationMemo q.currency 1) }]

def lossLine (rs : List RevaluedPosition) : List RawLine :=
  if totalLoss rs = 0 then []
  else [{ accountCode := some q.lossAccount, debit := .ofMinor (totalLoss rs),
          memo := some (revaluationMemo q.currency 2) }]

def lines (rs : List RevaluedPosition) : List RawLine :=
  rs.filterMap (differenceLine q.currency) ++ q.gainLine rs ++ q.lossLine rs

def key : EntryKey := .fxRevaluation q.currency q.date

def content (lines : List PostedLine) : EntryContent where
  date := q.date
  memo := .revaluation q.currency q.date
  lines := lines
  source := .fxRevaluation q.currency q.date

end RevaluationRequest

inductive RevaluationRefusal where
  | noMonetaryAccount
  | badDate
  | lines (e : NormalizeError)
  | keyReused
  | notAccepted
  | duplicate
  deriving DecidableEq

inductive RevaluationAnswer where
  | noDifference (positions : List RevaluedPosition)
  | posted (entry : ℕ) (positions : List RevaluedPosition)
  | refused (e : RevaluationRefusal)
  | raised
  deriving DecidableEq

def RevaluationAnswer.succeeded : RevaluationAnswer → Bool
  | .noDifference _ | .posted _ _ => true
  | .refused _ | .raised => false

/-- What a request cannot foresee: the new identifier, whether the period, the accounts and the
ordinal let it post, the names of the chart, and whether the database fails: before the
posting, or between the posting and the mark. -/
structure RevaluationChance where
  newId : ℕ
  accepted : Bool := true
  names : ℕ → Option ℕ := fun _ => none
  readsFail : Bool := false
  markFails : Bool := false

def RevaluationRequest.doc (q : RevaluationRequest) (x : RevaluationChance)
    (out : List PostedLine) : JournalEntry where
  id := x.newId
  content := { q.content out with lines := enrich x.names out }
  key := some q.key
  fingerprint := some (q.content out)

namespace FxLedger

variable (s : FxLedger)

def accounts : List ℕ := s.monetary.take 5000

/-- The positions that the loops over the entries and their lines find, sorted. -/
def positions (date currency : ℕ) : List (ℕ × Position) :=
  (countEntries currency s.accounts .empty
    ((s.journal.upTo date).take 100000)).entries.insertionSort fun x y => x.1 ≤ y.1

def revalued (q : RevaluationRequest) : Option (List RevaluedPosition) :=
  revaluePositions q.rate (s.positions q.date q.currency)

/-- The mark of an entry, unless its update fails. -/
def markRevaluation (q : RevaluationRequest) (x : RevaluationChance) (j : Journal) (entry : ℕ)
    (rs : List RevaluedPosition) : FxLedger × RevaluationAnswer :=
  if x.markFails then ({ s with journal := j }, .raised)
  else
    ({ s with journal := j.annotate entry fun m => { m with revaluation := some q.currency } },
      .posted entry rs)

def postRevaluation (q : RevaluationRequest) (x : RevaluationChance) (rs : List RevaluedPosition)
    (out : List PostedLine) : FxLedger × RevaluationAnswer :=
  match s.journal.underKey q.key with
  | some e =>
    if e.repeats (q.content out) then s.markRevaluation q x s.journal e.id rs
    else (s, .refused .keyReused)
  | none =>
    if x.accepted then
      match s.journal.insertOne (q.doc x out) with
      | some j => s.markRevaluation q x j x.newId rs
      | none => (s, .refused .duplicate)
    else (s, .refused .notAccepted)

/-- `revalue_foreign_currency`. -/
def revalue (q : RevaluationRequest) (x : RevaluationChance) : FxLedger × RevaluationAnswer :=
  if x.readsFail then (s, .raised)
  else if s.accounts = [] then (s, .refused .noMonetaryAccount)
  else
    match s.revalued q with
    | none => (s, .raised)
    | some rs =>
      if q.lines rs = [] then (s, .noDifference rs)
      else
        match normalizePostingDate q.date with
        | none => (s, .refused .badDate)
        | some _ =>
          match normalizeJournalLines (q.lines rs) with
          | .error e => (s, .refused (.lines e))
          | .ok out => s.postRevaluation q x rs out

end FxLedger

end SyrocePms.Ledger.Foreign
