import SyrocePms.Ledger.YearEnd
import SyrocePms.Lib.Threads

/-! The calls on the books side by side: posts, closes and reopens of periods, and the
close of a fiscal year, which posts its entry and closes December. A call goes on one
operation at a time. A post draws its ordinal and reserves it before it inserts, and a
close looks at the ordinals before it flips the period. -/

namespace SyrocePms.Ledger

open Lib

inductive ReservationStatus where
  | reserved
  | posted
  | void
  deriving DecidableEq

/-- A row of `gl_sequence_reservations`. -/
structure Reservation where
  fiscalYear : ℕ
  sequence : ℕ
  status : ReservationStatus := .reserved
  deriving DecidableEq

namespace Reservation

def key (r : Reservation) : ℕ × ℕ := (r.fiscalYear, r.sequence)

/-- The ordinal is posted or void. -/
def isFinal (r : Reservation) : Bool := r.status == .posted || r.status == .void

def setStatus (r : Reservation) (status : ReservationStatus) : Reservation := { r with status := status }

@[simp] theorem key_setStatus (r : Reservation) (status : ReservationStatus) :
    (r.setStatus status).key = r.key := rfl

end Reservation

/-- `counters` has the last ordinal of a year, and `ordinals` has year and ordinal of the
numbered entries. -/
structure Store where
  books : Books
  counters : ℕ → ℕ
  reservations : Collection Reservation Reservation.key
  ordinals : List (ℕ × ℕ)

/-- What a call cannot foresee: whether the sources of a closing are ready, whether the
seals of the journal are sound, whether a post waits on for its predecessor, whether the
insert fails, and whether a mark is lost. -/
structure Chance where
  ready : Bool := true
  sound : Bool := true
  waits : Bool := false
  fails : Bool := false
  lost : Bool := false

/-- A post whose date, lines and period were accepted. -/
structure Accepted where
  job : Job
  date : ℕ
  lines : JournalLines
  period : Period
  deriving DecidableEq

inductive PostPc where
  | start (j : Job)
  | period (j : Job) (date : ℕ) (lines : JournalLines)
  | chart (a : Accepted)
  | draw (a : Accepted)
  | reserve (a : Accepted) (n : ℕ)
  | predecessor (a : Accepted) (n : ℕ)
  | insert (a : Accepted) (n : ℕ)
  | posted (a : Accepted) (n : ℕ)
  | void (a : Accepted) (n : ℕ) (taken : Bool)
  deriving DecidableEq

inductive ClosePc where
  | read (key : ℕ × Fin 12)
  | earlier (p : Period)
  | ready (p : Period)
  | entries (p : Period)
  | reservations (p : Period) (ordinals : List (ℕ × ℕ))
  | counters (p : Period) (ordinals : List (ℕ × ℕ)) (rows : List Reservation)
  | trial (p : Period) (seen : ℕ)
  | flip (p : Period) (seen : ℕ)
  deriving DecidableEq

inductive YearPc where
  | closure (year : ℕ)
  | periods (year : ℕ)
  | chart (year : ℕ)
  | lines (year : ℕ)
  | record (year : ℕ)
  deriving DecidableEq

inductive Pc where
  | post (pc : PostPc)
  | close (pc : ClosePc)
  | reopen (key : ℕ × Fin 12)
  | reopenFlip (key : ℕ × Fin 12)
  | year (pc : YearPc)
  | returned
  deriving DecidableEq

/-- A call. `year` is the fiscal year that the call closes, if it closes one. -/
structure Thread where
  pc : Pc
  year : Option ℕ := none

inductive Call where
  | post (j : Job)
  | close (key : ℕ × Fin 12)
  | reopen (key : ℕ × Fin 12)
  | year (fiscalYear : ℕ)

def Thread.begin : Call → Thread
  | .post j => ⟨.post (.start j), none⟩
  | .close key => ⟨.close (.read key), none⟩
  | .reopen key => ⟨.reopen key, none⟩
  | .year fiscalYear => ⟨.year (.closure fiscalYear), some fiscalYear⟩

namespace Store

def setPeriods (s : Store) (periods : Periods) : Store :=
  { s with books := { s.books with periods := periods } }

def draw (s : Store) (year : ℕ) : Store :=
  { s with counters := Function.update s.counters year (s.counters year + 1) }

def mark (s : Store) (key : ℕ × ℕ) (status : ReservationStatus) : Store :=
  { s with reservations :=
    s.reservations.update key (·.setStatus status) fun r => r.key_setStatus status }

/-- The ordinal before `n` is settled, and its entry is there when it is posted. -/
def predecessorFinal (s : Store) (year n : ℕ) : Bool :=
  n ≤ 1 || (s.reservations.get? (year, n - 1)).any fun r =>
    r.status == .void || (r.status == .posted && s.ordinals.contains (year, n - 1))

end Store

def afterPost : Option ℕ → Pc
  | none => .returned
  | some year => .close (.read (year, december))

def afterClose : Option ℕ → Pc
  | none => .returned
  | some year => .year (.record year)

/-- `post_journal_entry`, one operation at a time. -/
def postStep (s : Store) (o : Chance) (year : Option ℕ) : PostPc → Store × Pc
  | .start j =>
    (s, match normalizePostingDate j.date with
      | none => .returned
      | some date =>
        match normalizeJournalLines j.lines with
        | .error _ => .returned
        | .ok lines =>
          match s.books.stored j.key with
          | some e => if e.repeats ⟨date, j.source, lines.lines⟩ then afterPost year else .returned
          | none => .post (.period j date lines))
  | .period j date lines =>
    match s.books.periods.openFor date with
    | none => (s, .returned)
    | some (periods, p) => (s.setPeriods periods, .post (.chart ⟨j, date, lines, p⟩))
  | .chart a =>
    (s, if (s.books.accountError a.lines.lines).isSome then .returned else .post (.draw a))
  | .draw a =>
    (s.draw a.period.fiscalYear, .post (.reserve a (s.counters a.period.fiscalYear + 1)))
  | .reserve a n =>
    match s.reservations.insertOne { fiscalYear := a.period.fiscalYear, sequence := n } with
    | none => (s, .returned)
    | some reservations =>
      ({ s with reservations := reservations },
        if moneyLimit < totalDebit a.lines.lines then .returned else .post (.predecessor a n))
  | .predecessor a n =>
    (s, if s.predecessorFinal a.period.fiscalYear n then .post (.insert a n)
      else if o.waits then .post (.predecessor a n) else .post (.void a n false))
  | .insert a n =>
    if o.fails then (s, .post (.void a n false))
    else if (s.books.stored a.job.key).isSome then (s, .post (.void a n true))
    else
      let e := a.job.entry a.date a.period.fiscalYear a.lines
      ({ s with
        books := { s.books with journal := s.books.journal ++ [e] }
        ordinals := s.ordinals ++ [(a.period.fiscalYear, n)] }, .post (.posted a n))
  | .posted a n =>
    (if o.lost then s else s.mark (a.period.fiscalYear, n) .posted, afterPost year)
  | .void a n taken =>
    -- a post that lost the race for its key answers the entry that is there
    (if o.lost then s else s.mark (a.period.fiscalYear, n) .void,
      match s.books.stored a.job.key with
      | some e =>
        if taken && e.repeats ⟨a.date, a.job.source, a.lines.lines⟩ then afterPost year
        else .returned
      | none => .returned)

/-- The ordinals that `journal_integrity_audit` goes through: all up to the counter, and
those of later entries and reservations. -/
def maxSequence (year seen : ℕ) (ordinals : List (ℕ × ℕ)) (rows : List Reservation) : ℕ :=
  (((ordinals.filter fun x => x.1 == year).map Prod.snd) ++
    ((rows.filter fun r => r.fiscalYear == year).map Reservation.sequence)).foldl max seen

/-- `journal_integrity_audit` on what it has read: every ordinal is posted with its entry,
or void. -/
def auditHealthy (year seen : ℕ) (ordinals : List (ℕ × ℕ)) (rows : List Reservation) : Bool :=
  (List.range (maxSequence year seen ordinals rows)).all fun i =>
    (rows.find? fun r => r.fiscalYear == year && r.sequence == i + 1).any fun r =>
      r.status == .void || (r.status == .posted && ordinals.contains (year, i + 1))

/-- `close_period`, one operation at a time. -/
def closeStep (s : Store) (o : Chance) (year : Option ℕ) : ClosePc → Store × Pc
  | .read key =>
    (s, match s.books.periods.get? key with
      | none => .returned
      | some p => if p.isOpen then .close (.earlier p) else afterClose year)
  | .earlier p => (s, if s.books.periods.earlierOpen p then .returned else .close (.ready p))
  | .ready p =>
    (s, if o.ready && s.books.trialBalanced p.endDate then .close (.entries p) else .returned)
  | .entries p => (s, .close (.reservations p s.ordinals))
  | .reservations p ordinals => (s, .close (.counters p ordinals s.reservations.rows))
  | .counters p ordinals rows =>
    let seen := s.counters p.fiscalYear
    (s, if o.sound && auditHealthy p.fiscalYear seen ordinals rows then .close (.trial p seen)
      else .returned)
  | .trial p seen => (s, if s.books.trialBalanced p.endDate then .close (.flip p seen) else .returned)
  | .flip p _ =>
    match s.books.periods.get? p.key with
    | none => (s, .returned)
    | some x =>
      if x.isOpen then (s.setPeriods (s.books.periods.close p.key), afterClose year)
      else (s, .returned)

/-- `close_fiscal_year` around its post and its close. -/
def yearStep (s : Store) : YearPc → Store × Pc
  | .closure year =>
    (s, if year < 2000 ∨ 2099 < year ∨ year ∈ s.books.closures then .returned
      else .year (.periods year))
  | .periods year =>
    match s.books.periods.ensureCalendarYear year with
    | none => (s, .returned)
    | some periods =>
      (s.setPeriods periods,
        if (periodRefusal periods year).isSome then .returned else .year (.chart year))
  | .chart year => (s, if s.books.missingCodes ≠ [] then .returned else .year (.lines year))
  | .lines year =>
    (s, if s.books.closingLines year = [] then .close (.read (year, december))
      else .post (.start (s.books.closingJob year)))
  | .record year =>
    ({ s with books := { s.books with
      periods := (s.books.periods.ensureCalendarYear (year + 1)).getD s.books.periods
      closures := if year ∈ s.books.closures then s.books.closures else year :: s.books.closures } },
      .returned)

def advance (s : Store) (o : Chance) (t : Thread) : Option (Store × Thread) :=
  let next (r : Store × Pc) : Option (Store × Thread) := some (r.1, { t with pc := r.2 })
  match t.pc with
  | .post pc => next (postStep s o t.year pc)
  | .close pc => next (closeStep s o t.year pc)
  | .reopen key =>
    next (s, match s.books.periods.get? key with
      | none => .returned
      | some p =>
        if p.isOpen || s.books.periods.laterClosed p then .returned else .reopenFlip key)
  | .reopenFlip key => next (s.setPeriods (s.books.periods.reopen key), .returned)
  | .year pc => next (yearStep s pc)
  | .returned => none

inductive Move where
  | advance (o : Chance)
  | stop

/-- A call that is stopped by an exception or a crash writes nothing more. -/
def Thread.step (s : Store) (t : Thread) : Move → Option (Store × Thread)
  | .advance o => Ledger.advance s o t
  | .stop => some (s, { t with pc := .returned })

/-- The calls of one tenant, on any books whose ordinals are in order. -/
def calls : Program Store Thread Empty Call Move where
  init s := ∀ r ∈ s.reservations, r.sequence ≤ s.counters r.fiscalYear
  env _ e := nomatch e
  call _ c := some (.begin c)
  step _ s t m := t.step s m

end SyrocePms.Ledger
