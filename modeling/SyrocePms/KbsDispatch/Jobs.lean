import Mathlib.Algebra.Order.Ring.Int
import SyrocePms.Lib.Collection
import SyrocePms.Lib.Threads

/-! The queue of notifications to the authority, for one tenant: the jobs with their open locks,
and the flags of the bookings. Lease times and retry times are left to the schedule: any job in
progress may have an expired lease, any pending job may be due. -/

namespace SyrocePms.KbsDispatch

open Lib

inductive Action
  | checkin
  | checkout
  deriving DecidableEq

/-- A notification: a booking, a guest and an action. -/
structure Key where
  booking : ℕ
  guest : ℕ
  action : Action
  deriving DecidableEq

/-- `{tenant}:{booking}:{guest or 'primary'}:{action}`. -/
structure LockId where
  booking : ℕ
  guest : Option ℕ
  action : Action
  deriving DecidableEq

inductive Status
  | pending
  | inProgress
  | done
  | dead
  deriving DecidableEq

/-- What the writes change of a job. `isClaimed` is `worker_id` being that of the dispatcher,
`alreadyRegistered` a `last_error` that says so. -/
structure JobState where
  status : Status := .pending
  lock : Option LockId
  attempts : ℤ := 0
  isClaimed : Bool := false
  isUncertain : Bool := false
  alreadyRegistered : Bool := false
  isTest : Bool := false

structure Job where
  id : ℕ
  key : Key
  state : JobState

/-- `kbs_reported` and `kbs_test` of a booking. -/
structure Flags where
  isReported : Bool := false
  isTest : Bool := false

namespace JobState

def claim (st : JobState) : JobState := { st with status := .inProgress, isClaimed := true, attempts := st.attempts + 1 }

/-- The claim is undone, without an attempt. -/
def giveBack (st : JobState) : JobState := { st with status := .pending, isClaimed := false, attempts := st.attempts - 1 }

/-- The write of `defer_checkout`. -/
def park (st : JobState) : JobState := { st.giveBack with alreadyRegistered := false }

def complete (isTest : Bool) (st : JobState) : JobState := { st with status := .done, lock := none, isTest }

/-- `DEFAULT_MAX_ATTEMPTS`. -/
def maxAttempts : ℤ := 5

def fail (attempts : ℤ) (st : JobState) : JobState :=
  if attempts < maxAttempts then { st with status := .pending, isClaimed := false, alreadyRegistered := false }
  else { st with status := .dead, lock := none, alreadyRegistered := false }

/-- A job that is not sent: `_handle_missing_data`, and too many attempts. -/
def drop (st : JobState) : JobState := { st with status := .dead, lock := none, alreadyRegistered := false }

/-- The write of `_hold_delivery`. -/
def hold (isUncertain alreadyRegistered : Bool) (st : JobState) : JobState :=
  { st with
    status := .dead, isUncertain, alreadyRegistered
    lock := if isUncertain || alreadyRegistered then st.lock else none }

variable (st : JobState)

/-- The filter of the writes that compare the status. -/
def isOwn : Bool := st.status = .inProgress && st.isClaimed

/-- A real notification was accepted. -/
def IsReceipt : Prop := st.status = .done ∧ st.isTest = false

/-- A worker has the job, or lost it to a sweep. -/
def IsHeld : Prop := st.status = .inProgress ∨ (st.status = .dead ∧ st.isUncertain = true)

/-- The job may be sent, or may have been accepted. -/
def IsLive : Prop := st.status = .pending ∨ st.IsHeld ∨ st.IsReceipt

instance : Decidable st.IsReceipt := inferInstanceAs (Decidable (_ ∧ _))

instance : Decidable st.IsHeld := inferInstanceAs (Decidable (_ ∨ _))

instance : Decidable st.IsLive := inferInstanceAs (Decidable (_ ∨ _))

theorem IsHeld.isLive {st : JobState} (h : st.IsHeld) : st.IsLive := .inr (.inl h)

end JobState

/-! ### The store -/

structure Store where
  jobs : Collection Job Job.id
  bookings : ℕ → Flags

variable {job : Job}

namespace Store

variable (s : Store)

def isLocked (l : LockId) : Bool := s.jobs.any fun j => j.state.lock = some l

def insertJob (job : Job) : Option Store :=
  match job.state.lock with
  | some l => if s.isLocked l then none else (s.jobs.insertOne job).map fun jobs => { s with jobs }
  | none => (s.jobs.insertOne job).map fun jobs => { s with jobs }

theorem write_id (p : JobState → Bool) (f : JobState → JobState) (job : Job) :
    { job with state := if p job.state then f job.state else job.state }.id = job.id := rfl

def write (id : ℕ) (p : JobState → Bool) (f : JobState → JobState) : Store :=
  let jobs := s.jobs.update id (fun job => { job with state := if p job.state then f job.state else job.state })
    (write_id p f)
  { s with jobs }

def isOwn (id : ℕ) : Bool := ((s.jobs.get? id).map fun job => job.state.isOwn).getD false

def setReported (booking : ℕ) (isTest : Bool) : Store :=
  let flags := s.bookings booking
  { s with bookings := Function.update s.bookings booking ⟨true, flags.isTest || isTest⟩ }

variable {s}

theorem mem_write {id : ℕ} {p : JobState → Bool} {f : JobState → JobState} :
    job ∈ (s.write id p f).jobs ↔ (job ∈ s.jobs ∧ job.id ≠ id) ∨
      ∃ e ∈ s.jobs, e.id = id ∧ job = { e with state := if p e.state then f e.state else e.state } := by
  change job ∈ s.jobs.update id _ (write_id p f) ↔ _
  exact Collection.mem_update

theorem insertJob_eq_some {s' : Store} (h : s.insertJob job = some s') :
    s'.bookings = s.bookings ∧ (∀ e, e ∈ s'.jobs ↔ e ∈ s.jobs ∨ e = job) ∧
      ∀ l, job.state.lock = some l → ∀ e ∈ s.jobs, e.state.lock ≠ some l := by
  have hinsert : ∃ jobs, s.jobs.insertOne job = some jobs ∧ s' = { s with jobs } ∧
      ∀ l, job.state.lock = some l → s.isLocked l = false := by
    simp only [insertJob] at h
    split at h
    · rename_i l hl
      split at h
      · cases h
      · rename_i hfree
        obtain ⟨jobs, hjobs, heq⟩ := Option.map_eq_some_iff.mp h
        refine ⟨jobs, hjobs, heq.symm, fun l' hl' => ?_⟩
        cases hl.symm.trans hl'
        simpa using hfree
    · rename_i hnone
      obtain ⟨jobs, hjobs, heq⟩ := Option.map_eq_some_iff.mp h
      refine ⟨jobs, hjobs, heq.symm, fun l hl => ?_⟩
      rw [hnone] at hl
      cases hl
  obtain ⟨jobs, hjobs, rfl, hfree⟩ := hinsert
  refine ⟨rfl, fun e => Collection.mem_insertOne hjobs, fun l hl e he hlock => ?_⟩
  have hnone := Collection.any_eq_false.mp (hfree l hl) e he
  simp [hlock] at hnone

end Store

/-! Enqueues and dispatchers as threads, each access to the database a step of its own, and a
notification two: the request leaves, and its answer arrives. Accesses fail, answers are lost,
and a thread that crashes takes no further step. -/

/-- The primary guest of each booking, and the flags before the run. -/
structure Hotel where
  primary : ℕ → ℕ
  flags : ℕ → Flags

/-! ### Enqueues -/

/-- The arguments of `_enqueue_single_guest`. -/
structure Request where
  booking : ℕ
  guest : Option ℕ
  action : Action

namespace Request

def lock (r : Request) : LockId := ⟨r.booking, r.guest, r.action⟩

/-- The key of the job, which has the primary guest where none is given. -/
def key (hotel : Hotel) (r : Request) : Key := ⟨r.booking, r.guest.getD (hotel.primary r.booking), r.action⟩

/-- The look-ups compare with the guest as it is given. -/
def finds (r : Request) (k : Key) : Bool :=
  k.booking = r.booking && r.guest = some k.guest && k.action = r.action

end Request

inductive Enqueued
  | nothing
  | existing (job : ℕ)
  | reported
  | created (job : ℕ)

inductive EnqueuePc
  | lookOpen
  | lookDone
  | lookHeld
  | snapshot
  | booking
  | validate
  | insert
  | existing
  | returned (r : Enqueued)

/-! ### Dispatchers -/

/-- `dispatch_pending_kbs_jobs` with its test mode, or `dispatch_cloud_jobs`. -/
inductive Transport
  | generic (test : Bool)
  | cloud
  deriving DecidableEq

structure Ticket where
  id : ℕ
  key : Key
  attempts : ℤ

inductive WorkPc
  | sweep
  | suspect (id : ℕ) (sweeping : Bool)
  | claim
  | managed (t : Ticket)
  | askBooking (t : Ticket)
  | askReceipt (t : Ticket) (reported : Bool)
  | park (t : Ticket)
  | limit (t : Ticket)
  | source (t : Ticket)
  | validate (t : Ticket)
  | send (t : Ticket)
  | answer (t : Ticket)
  | complete (t : Ticket) (test : Bool)
  | project (t : Ticket) (test : Bool)
  | fail (t : Ticket)
  | hold (t : Ticket) (alreadyRegistered : Bool)
  | missing (t : Ticket)
  | giveBack (t : Ticket)
  | ended
  | raised

inductive Thread
  | enqueue (r : Request) (pc : EnqueuePc)
  | work (w : Transport) (pc : WorkPc)

/-- The request leaves, or it does not: without credentials, or by another error before it. -/
inductive Sending
  | leaves
  | noCredentials
  | notSent
  deriving DecidableEq

inductive Answer
  | accepted
  | refused (alreadyRegistered : Bool)
  | uncertain

/-- What a thread cannot foresee: the job that a query finds, the data of the guest, the other
side, and faults. -/
structure Chance where
  job : Option ℕ := none
  managed : Bool := false
  present : Bool := true
  valid : Bool := true
  review : Bool := false
  sending : Sending := .leaves
  answer : Answer := .accepted
  fails : Bool := false
  lost : Bool := false

/-! ### The steps of an enqueue -/

def newJob (hotel : Hotel) (k : ℕ) (r : Request) : Job := ⟨k, r.key hotel, { lock := some r.lock }⟩

def found (j : Option Job) (pc : EnqueuePc) : EnqueuePc :=
  match j with
  | some job => .returned (.existing job.id)
  | none => pc

def enqueueStep (hotel : Hotel) (k : ℕ) (s : Store) (r : Request) (o : Chance) : EnqueuePc → Option (Store × EnqueuePc)
  | .lookOpen => some (s, found (s.jobs.findOne fun j => j.state.lock = some r.lock) .lookDone)
  | .lookDone =>
    some (s, found (s.jobs.findOne fun j => r.finds j.key && j.state.status = .done && !j.state.isTest) .lookHeld)
  | .lookHeld =>
    some (s, found (s.jobs.findOne fun j => r.finds j.key && (j.state.isUncertain || j.state.alreadyRegistered)) .snapshot)
  | .snapshot => some (s, if o.present then .booking else .returned .nothing)
  | .booking =>
    let flags := s.bookings r.booking
    some (s, if r.action = .checkin && r.guest = some (hotel.primary r.booking) && flags.isReported && !flags.isTest then
        .returned .reported
      else if o.review then .returned .nothing
      else .validate)
  | .validate => some (s, if o.valid then .insert else .returned .nothing)
  | .insert =>
    some (match s.insertJob (newJob hotel k r) with
      | some s' => (s', .returned (.created k))
      | none => (s, .existing))
  | .existing =>
    some (s, .returned (match s.jobs.findOne fun j => j.state.lock = some r.lock with
      | some job => .existing job.id
      | none => .nothing))
  | .returned _ => none

/-- The whole function catches its exceptions. -/
def enqueueAdvance (hotel : Hotel) (k : ℕ) (s : Store) (r : Request) (o : Chance) (pc : EnqueuePc) :
    Option (Store × EnqueuePc) :=
  (enqueueStep hotel k s r o pc).map fun x =>
    if o.fails then (s, .returned .nothing) else (x.1, if o.lost then .returned .nothing else x.2)

/-! ### The steps of a dispatcher -/

def Transport.afterClaim : Transport → Ticket → WorkPc
  | .generic _, t => .managed t
  | .cloud, t => .source t

/-- The test mode sends checkouts without their check-ins. -/
def Transport.afterManaged : Transport → Ticket → WorkPc
  | .generic true, t => .limit t
  | _, t => .askBooking t

def Transport.afterDefer : Transport → Ticket → WorkPc
  | .generic _, t => .limit t
  | .cloud, t => .validate t

def Transport.afterSource : Transport → Ticket → WorkPc
  | .generic _, t => .validate t
  | .cloud, t => .askBooking t

def Transport.noSource : Transport → Ticket → WorkPc
  | .generic _, t => .missing t
  | .cloud, t => .hold t false

/-- An exception before the request has left. -/
def Transport.notSent : Transport → Ticket → Sending → WorkPc
  | .generic _, t, .noCredentials => .giveBack t
  | .generic _, t, _ => .fail t
  | .cloud, t, _ => .hold t false

def Transport.refused : Transport → Ticket → Bool → WorkPc
  | .generic _, t, _ => .fail t
  | .cloud, t, alreadyRegistered => .hold t alreadyRegistered

/-- The receipt that `checkin_confirmed` looks for. -/
def Store.hasReceipt (s : Store) (k : Key) : Bool :=
  s.jobs.any fun j => j.key = { k with action := .checkin } && j.state.status = .done && !j.state.isTest

def workStep (hotel : Hotel) (w : Transport) (s : Store) (o : Chance) : WorkPc → Option (Store × WorkPc)
  | .sweep =>
    some (s, match o.job with
      | some id => if s.isOwn id then .suspect id true else .claim
      | none => .claim)
  | .suspect id sweeping => some (s.write id JobState.isOwn (JobState.hold true false), if sweeping then .sweep else .claim)
  | .claim =>
    some (match o.job.bind s.jobs.get? with
      | some job =>
        if job.state.status = .pending then
          (s.write job.id (fun _ => true) JobState.claim, w.afterClaim ⟨job.id, job.key, job.state.attempts + 1⟩)
        else (s, .ended)
      | none => (s, .ended))
  | .managed t => some (if o.managed then (s.write t.id JobState.isOwn JobState.giveBack, .ended) else (s, w.afterManaged t))
  | .askBooking t =>
    let flags := s.bookings t.key.booking
    some (s, if t.key.action = .checkin then w.afterDefer t
      else .askReceipt t (t.key.guest = hotel.primary t.key.booking && flags.isReported && !flags.isTest))
  | .askReceipt t reported => some (s, if reported || s.hasReceipt t.key then w.afterDefer t else .park t)
  | .park t => some (s.write t.id JobState.isOwn JobState.park, .claim)
  | .limit t =>
    some (if JobState.maxAttempts < t.attempts then (s.write t.id (fun _ => true) JobState.drop, .claim) else (s, .source t))
  | .source t => some (s, if o.present then w.afterSource t else w.noSource t)
  | .validate t => some (s, if o.valid then .send t else .missing t)
  | .send t =>
    some (s, if w = .generic true then .complete t true
      else if o.sending = .leaves then .answer t
      else w.notSent t o.sending)
  | .answer t =>
    some (s, match o.answer with
      | .accepted => .complete t false
      | .refused alreadyRegistered => w.refused t alreadyRegistered
      | .uncertain => .suspect t.id false)
  | .complete t test =>
    some (s.write t.id JobState.isOwn (JobState.complete test), if s.isOwn t.id then .project t test else .claim)
  | .project t test =>
    some (if t.key.action = .checkin ∧ t.key.guest = hotel.primary t.key.booking then s.setReported t.key.booking test
      else s, .claim)
  | .fail t => some (s.write t.id JobState.isOwn (JobState.fail t.attempts), .claim)
  | .hold t alreadyRegistered => some (s.write t.id JobState.isOwn (JobState.hold false alreadyRegistered), .claim)
  | .missing t => some (s.write t.id JobState.isClaimed JobState.drop, .claim)
  | .giveBack t => some (s.write t.id JobState.isClaimed JobState.giveBack, .ended)
  | .ended | .raised => none

/-- Where a dispatcher goes from an access that raises. -/
def WorkPc.onFault (w : Transport) : WorkPc → WorkPc
  | .source t => if w = .cloud then .suspect t.id false else .missing t
  | .askBooking t | .askReceipt t _ | .park t | .missing t => if w = .cloud then .suspect t.id false else .raised
  | .complete t _ => .suspect t.id false
  | .project _ _ => .claim
  | _ => .raised

def WorkPc.isPure : WorkPc → Bool
  | .validate _ | .send _ | .answer _ => true
  | _ => false

def workAdvance (hotel : Hotel) (w : Transport) (s : Store) (o : Chance) (pc : WorkPc) : Option (Store × WorkPc) :=
  (workStep hotel w s o pc).map fun x =>
    if pc.isPure then x
    else if o.fails then (s, pc.onFault w)
    else (x.1, if o.lost then pc.onFault w else x.2)

/-! ### The program -/

def advance (hotel : Hotel) (k : ℕ) (s : Store) (o : Chance) : Thread → Option (Store × Thread)
  | .enqueue r pc => (enqueueAdvance hotel k s r o pc).map fun x => (x.1, .enqueue r x.2)
  | .work w pc => (workAdvance hotel w s o pc).map fun x => (x.1, .work w x.2)

def start : Request ⊕ Transport → Thread
  | .inl r => .enqueue r .lookOpen
  | .inr w => .work w .sweep

/-- Enqueues and dispatchers from an empty queue. Nothing else acts: an operator never does. -/
def threads (hotel : Hotel) : Program Store Thread Empty (Request ⊕ Transport) Chance where
  init s := s.jobs = .empty ∧ s.bookings = hotel.flags
  env _ e := e.elim
  call _ c := some (start c)
  step k s t o := advance hotel k s o t

inductive Event
  | sent (k : Key)
  | refused (k : Key)
  | accepted (k : Key)
  deriving DecidableEq

def WorkPc.events (w : Transport) (o : Chance) : WorkPc → List Event
  | .send t => if w ≠ .generic true ∧ o.sending = .leaves then [.sent t.key] else []
  | .answer t =>
    match o.answer with
    | .accepted => [.accepted t.key]
    | .refused _ => [.refused t.key]
    | .uncertain => []
  | _ => []

def Thread.events (o : Chance) : Thread → List Event
  | .work w pc => pc.events w o
  | .enqueue _ _ => []

def events (p : Pool Store Thread) : Act Empty (Request ⊕ Transport) Chance → List Event
  | .step k o => ((p.threads[k]?).map fun t => t.events o).getD []
  | _ => []

end SyrocePms.KbsDispatch
