import SyrocePms.Ledger.Calls

/-! The journal with its ordinals and seals. A post draws an ordinal, reserves it, waits for
the ordinal before it, seals its entry with the hash of that ordinal and inserts it; a post
that fails after the reservation makes its ordinal void. The hash of the ordinal before is
the one of its entry, or of its reservation when it is void. -/

namespace SyrocePms.Ledger.Seal

open Lib

inductive VoidReason where
  | predecessorUnavailable
  | idempotencyRace
  | insertFailed
  deriving DecidableEq

/-- A row of `gl_sequence_reservations`. -/
structure Reservation where
  fiscalYear : ℕ
  sequence : ℕ
  entry : ℕ
  status : ReservationStatus := .reserved
  voidReason : Option VoidReason := none
  deriving DecidableEq

namespace Reservation

def key (r : Reservation) : ℕ × ℕ := (r.fiscalYear, r.sequence)

/-- The ordinal is posted or void. -/
def isFinal (r : Reservation) : Bool := r.status == .posted || r.status == .void

def setStatus (r : Reservation) (status : ReservationStatus) (reason : Option VoidReason) :
    Reservation := { r with status := status, voidReason := reason }

@[simp] theorem key_setStatus (r : Reservation) (status : ReservationStatus)
    (reason : Option VoidReason) : (r.setStatus status reason).key = r.key := rfl

end Reservation

/-- `entry_no`. The numbers of entries that are older than the ordinals have other texts. -/
inductive EntryNo where
  | numbered (fiscalYear sequence : ℕ)
  | legacy (text : ℕ)
  deriving DecidableEq

/-- `_integrity_payload`: what the seal of an entry covers. -/
structure Payload (H : Type) where
  id : ℕ
  entryNo : EntryNo
  sequence : Option ℕ
  entry : Entry
  previousHash : Option H
  deriving DecidableEq

/-- A row of `gl_journal_entries`. -/
structure SealedEntry (H : Type) where
  payload : Payload H
  hash : Option H
  deriving DecidableEq

/-- The hashes of the chain: `INTEGRITY_GENESIS`, `compute_journal_entry_hash` and
`sequence_void_hash`. -/
structure Hashes (H : Type) where
  genesis : H
  journalEntry : Payload H → H
  sequenceVoid : ℕ → ℕ → Option VoidReason → H

namespace SealedEntry

variable {H : Type} (e : SealedEntry H)

def no : EntryNo := e.payload.entryNo

def fiscalYear : ℕ := e.payload.entry.fiscalYear

def sequence : Option ℕ := e.payload.sequence

def key : Option Key := e.payload.entry.key

def isAt (fiscalYear sequence : ℕ) : Bool :=
  e.fiscalYear == fiscalYear && e.sequence == some sequence

/-- `entry_hash`, or what it would be. -/
def sealOf (hashes : Hashes H) : H := e.hash.getD (hashes.journalEntry e.payload)

end SealedEntry

abbrev Entries (H : Type) := Collection (SealedEntry H) SealedEntry.no

/-- A journal counter of `gl_counters`. -/
structure Counter where
  fiscalYear : ℕ
  value : ℕ

structure Store (H : Type) where
  periods : Periods
  accounts : Collection Account Account.code
  entries : Entries H
  counters : Collection Counter Counter.fiscalYear
  reservations : Collection Reservation Reservation.key
  nextId : ℕ

/-- A post that has drawn its ordinal. -/
structure Draft where
  accepted : Accepted
  id : ℕ
  sequence : ℕ
  deriving DecidableEq

namespace Draft

variable (d : Draft)

def year : ℕ := d.accepted.period.fiscalYear

def key : ℕ × ℕ := (d.year, d.sequence)

def doc {H : Type} (hashes : Hashes H) (previous : H) : SealedEntry H :=
  let payload : Payload H :=
    { id := d.id
      entryNo := .numbered d.year d.sequence
      sequence := some d.sequence
      entry := d.accepted.job.entry d.accepted.date d.year d.accepted.lines
      previousHash := some previous }
  ⟨payload, some (hashes.journalEntry payload)⟩

end Draft

inductive Pc (H : Type) where
  | start
  | period (date : ℕ) (lines : JournalLines)
  | chart (a : Accepted)
  | draw (a : Accepted)
  | reserve (d : Draft)
  | predecessor (d : Draft) (polls : ℕ)
  | previous (d : Draft)
  | insert (d : Draft) (previous : H)
  | posted (d : Draft) (e : SealedEntry H)
  | void (d : Draft) (reason : VoidReason)
  | existing (a : Accepted)
  | answered (e : SealedEntry H)
  | raised
  | stopped
  deriving DecidableEq

/-- A call. `drawn` is the ordinal that it has drawn. -/
structure Thread (H : Type) where
  job : Job
  drawn : Option (ℕ × ℕ) := none
  pc : Pc H := .start

namespace Store

variable {H : Type} (s : Store H)

def books : Books := ⟨s.periods, s.accounts, s.entries.rows.map fun e => e.payload.entry, []⟩

def stored (key : Option Key) : Option (SealedEntry H) :=
  match key with
  | none => none
  | some k => s.entries.findOne fun e => e.key == some k

/-- The unique indexes refuse the entry: idempotency key, number, year and ordinal. -/
def taken (e : SealedEntry H) : Bool :=
  s.entries.any fun x => (e.key.isSome && x.key == e.key) || x.no == e.no ||
    (e.sequence.isSome && x.sequence == e.sequence && x.fiscalYear == e.fiscalYear)

def counter (year : ℕ) : ℕ := ((s.counters.get? year).map Counter.value).getD 0

def draw (year : ℕ) : Store H :=
  { s with
    counters := s.counters.upsert ⟨year, s.counter year + 1⟩
    nextId := s.nextId + 1 }

def mark (key : ℕ × ℕ) (status : ReservationStatus) (reason : Option VoidReason) : Store H :=
  { s with reservations :=
    s.reservations.update key (·.setStatus status reason) fun r => r.key_setStatus status reason }

end Store

/-- How often `_previous_integrity_hash` looks for its predecessor. -/
def polls : ℕ := 20

/-- The largest total that passes `moneyLimit`. The total is a double then, and doubles next
to the limit are 12.5 minor units apart, so the totals above it are rounded past the limit. -/
def totalLimit : ℤ := 99999999999999993

variable {H : Type}

/-- What a post answers that finds an entry under its key. -/
def found (a : Accepted) (e : SealedEntry H) : Pc H :=
  if e.payload.entry.repeats ⟨a.date, a.job.source, a.lines.lines⟩ then .answered e else .raised

/-- Where a post goes on after its ordinal is void. -/
def afterVoid (d : Draft) (reason : VoidReason) : Pc H :=
  if reason = .idempotencyRace ∧ d.accepted.job.key.isSome = true then .existing d.accepted
  else .raised

/-- One operation of `post_journal_entry`, without the insert. -/
def advancePc (hashes : Hashes H) (s : Store H) (job : Job) : Pc H → Store H × Pc H
  | .start =>
    (s, match normalizePostingDate job.date with
      | none => .raised
      | some date =>
        match normalizeJournalLines job.lines with
        | .error _ => .raised
        | .ok lines =>
          match s.stored job.key with
          | some e =>
            if e.payload.entry.repeats ⟨date, job.source, lines.lines⟩ then .answered e else .raised
          | none => .period date lines)
  | .period date lines =>
    match s.periods.openFor date with
    | none => (s, .raised)
    | some (periods, p) => ({ s with periods := periods }, .chart ⟨job, date, lines, p⟩)
  | .chart a => (s, if (s.books.accountError a.lines.lines).isSome then .raised else .draw a)
  | .draw a =>
    (s.draw a.period.fiscalYear,
      .reserve ⟨a, s.nextId, s.counter a.period.fiscalYear + 1⟩)
  | .reserve d =>
    match s.reservations.insertOne ⟨d.year, d.sequence, d.id, .reserved, none⟩ with
    | none => (s, .raised)
    | some reservations =>
      -- the total is converted after the reservation, and its limit raises there
      ({ s with reservations := reservations },
        if totalLimit < totalDebit d.accepted.lines.lines then .raised else .predecessor d polls)
  | .predecessor d left =>
    (s, if d.sequence ≤ 1 then .insert d hashes.genesis
      else
        let reservation := s.reservations.get? (d.year, d.sequence - 1)
        match reservation.map Reservation.status with
        | some .void => .insert d
            (hashes.sequenceVoid d.year (d.sequence - 1) (reservation.bind Reservation.voidReason))
        | some .posted => .previous d
        | _ => if left ≤ 1 then .void d .predecessorUnavailable else .predecessor d (left - 1))
  | .previous d =>
    (s, match s.entries.findOne fun e => e.isAt d.year (d.sequence - 1) with
      | none => .void d .predecessorUnavailable
      | some e => .insert d (e.sealOf hashes))
  | .insert d previous =>
    let e := d.doc hashes previous
    if s.taken e then (s, .void d .idempotencyRace)
    else
      match s.entries.insertOne e with
      | none => (s, .void d .idempotencyRace)
      | some entries => ({ s with entries := entries }, .posted d e)
  | .posted d e => (s.mark d.key .posted none, .answered e)
  | .void d reason => (s.mark d.key .void (some reason), afterVoid d reason)
  | .existing a =>
    (s, match s.stored a.job.key with
      | some e => found a e
      | none => .raised)
  | .answered e => (s, .answered e)
  | .raised => (s, .raised)
  | .stopped => (s, .stopped)

/-- Control when the database raises. Before the insert the ordinal becomes void, and a mark
that is lost changes nothing for its call. -/
def Pc.failed : Pc H → Pc H
  | .predecessor d _ | .previous d => .void d .predecessorUnavailable
  | .insert d _ => .void d .insertFailed
  | .posted _ e => .answered e
  | .void d reason => afterVoid d reason
  | .answered e => .answered e
  | .stopped => .stopped
  | _ => .raised

def Pc.over : Pc H → Bool
  | .answered _ | .raised | .stopped => true
  | _ => false

def Pc.draws (s : Store H) : Pc H → Option (ℕ × ℕ)
  | .draw a => some (a.period.fiscalYear, s.counter a.period.fiscalYear + 1)
  | _ => none

/-- An operation goes through, it fails, it goes through and its answer is lost, or the
process stops. -/
inductive Move where
  | advance
  | fail
  | unanswered
  | crash
  deriving DecidableEq

def Thread.step (hashes : Hashes H) (s : Store H) (t : Thread H) (m : Move) :
    Option (Store H × Thread H) :=
  if t.pc.over then none
  else
    let next := advancePc hashes s t.job t.pc
    let drawn := (t.pc.draws s).or t.drawn
    match m with
    | .advance => some (next.1, { t with pc := next.2, drawn := drawn })
    | .fail => some (s, { t with pc := t.pc.failed })
    | .unanswered => some (next.1, { t with pc := t.pc.failed, drawn := drawn })
    | .crash => some (s, { t with pc := .stopped })

/-- Periods and accounts change beside the posts. -/
structure Setup where
  periods : Periods
  accounts : Collection Account Account.code

/-- The posts of one tenant. A run starts with entries that are older than the ordinals, no
two of them under one key. -/
def posts (hashes : Hashes H) : Program (Store H) (Thread H) Setup Job Move where
  init s := s.counters = .empty ∧ s.reservations = .empty ∧
    (∀ e ∈ s.entries, e.sequence = none ∧ e.hash = none) ∧
    ∀ e ∈ s.entries, ∀ e' ∈ s.entries, e.key.isSome = true → e.key = e'.key → e = e'
  env s x := some { s with periods := x.periods, accounts := x.accounts }
  call _ j := some { job := j }
  step _ s t m := t.step hashes s m

end SyrocePms.Ledger.Seal
