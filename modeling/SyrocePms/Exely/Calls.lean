import SyrocePms.Exely.Process

/-! `acknowledge_durable_version`: the checks of the version, of the row and of the
bookings, the claim of the acknowledgement, the call of the provider, and the marks that
record its result. -/

namespace SyrocePms.Exely

open Reservation Lib

variable {s s' : Store} {k : ℕ} {m : Move}

inductive AckAnswer where
  | pmsNotDurable
  | alreadyAcked
  | ackNotPending
  | ackConfirmationMappingInvalid
  | staleVersion
  | deliveryNotPending
  | pmsReadbackFailed
  | ackAlreadyClaimed
  | recorded (a : AckState)
  | raised
  deriving DecidableEq

/-- `verified` are the expectations read back so far; nothing branches on them. -/
inductive AckPc where
  | read
  | repair
  | markInvalid
  | current (doc : VersionRow)
  | markStale
  | readback (doc : VersionRow) (verified rest : List Expectation)
  | markFailed
  | claim (doc : VersionRow) (verified : List Expectation)
  | markSending (doc : VersionRow) (verified : List Expectation)
  | confirmDelivery (doc : VersionRow) (verified : List Expectation)
  | record (a : AckState)
  | recordRow (a : AckState)
  | returned (a : AckAnswer)
  | crashed

def admitted (v : VersionRow) : AckPc :=
  if v.processing ≠ .pmsDurable then .returned .pmsNotDurable
  else match v.ack with
    | .acked => if v.hasTargets then .repair else .returned .alreadyAcked
    | .pending => if ackConfirmationsMatchVersion v then .current v else .markInvalid
    | _ => .returned .ackNotPending

def repairedRow (r : Row) : Row :=
  if r.delivery = .pending ∨ r.delivery = .sending ∨ r.delivery = .acked then
    { r with delivery := .acked } else r

@[simp] theorem repairedRow_key (r : Row) : (repairedRow r).key = r.key := by
  unfold repairedRow
  split <;> rfl

def confirmed (s : Store) (key : VersionKey) (v : VersionRow) (verified : List Expectation) :
    Confirmed where
  key := key
  current := s.isCurrent key
  expected := v.expectations
  verified := verified

def ackStep (s : Store) (key : VersionKey) (o : Outside) : AckPc → Option (Store × AckPc)
  | .read =>
    match s.versions key with
    | none => some (s, .returned .pmsNotDurable)
    | some v => some (s, admitted v)
  | .repair => some (s.setRow key repairedRow, .returned .alreadyAcked)
  | .markInvalid => some (s.markAck key .notReady, .returned .ackConfirmationMappingInvalid)
  | .current v =>
    match s.row with
    | none => some (s, .markStale)
    | some r =>
      if r.key ≠ key then some (s, .markStale)
      else if r.delivery ≠ .pending then some (s, .returned .deliveryNotPending)
      else if v.expectations.isEmpty then some (s, .markFailed)
      else some (s, .readback v [] v.expectations)
  | .markStale => some (s.markAck key .staleVersion, .returned .staleVersion)
  | .readback v verified [] => some (s, .claim v verified)
  | .readback v verified (e :: rest) =>
    if expectationMet s.bookings key o.archived e then some (s, .readback v (verified ++ [e]) rest)
    else some (s, .markFailed)
  | .markFailed =>
    some (s.markVersion key .pmsFailed .notReady, .returned .pmsReadbackFailed)
  | .claim v verified =>
    match s.versions key with
    | some x =>
      if x.ack = .pending then
        some (s.putVersion key { x with ack := .sending }, .markSending v verified)
      else some (s, .returned .ackAlreadyClaimed)
    | none => some (s, .returned .ackAlreadyClaimed)
  | .markSending v verified =>
    some (s.setDelivery key .sending, .confirmDelivery v verified)
  | .confirmDelivery v verified =>
    some ({ s with sent := confirmed s key v verified :: s.sent }, .record o.result.ackState)
  | .record a => some (s.markAck key a, .recordRow a)
  | .recordRow a => some (s.setDelivery key a, .returned (.recorded a))
  | .returned _ | .crashed => none

/-- Control when the current operation raises: only the call of the provider sits in a
`try`. -/
def AckPc.raised : AckPc → AckPc
  | .confirmDelivery .. => .record .ambiguous
  | _ => .returned .raised

def AckPc.ended : AckPc → Bool
  | .returned _ | .crashed => true
  | _ => false

def AckPc.claims : AckPc → Bool
  | .markSending .. | .confirmDelivery .. | .record _ => true
  | _ => false

/-- The call has seen the version to be the current one and not yet called the provider. -/
def AckPc.awaitsSend : AckPc → Bool
  | .readback .. | .claim .. | .markSending .. | .confirmDelivery .. => true
  | _ => false

def AckPc.marks : AckPc → Bool
  | .markInvalid | .markStale | .markFailed => true
  | _ => false

/-! ### What one operation does -/

/-- No operation of an acknowledgement changes which version is current. -/
theorem ackStep_map_key {key : VersionKey} {o : Outside} {pc pc' : AckPc}
    (h : ackStep s key o pc = some (s', pc')) : s'.row.map Row.key = s.row.map Row.key := by
  cases pc with
  | read =>
    simp only [ackStep] at h
    split at h <;> cases h <;> rfl
  | repair => cases h; exact s.map_key_setRow key _ repairedRow_key
  | markInvalid | markStale | markFailed | record a => cases h; rfl
  | current v =>
    simp only [ackStep] at h
    repeat' split at h
    all_goals cases h; rfl
  | readback v verified rest =>
    cases rest <;> simp only [ackStep] at h
    · cases h; rfl
    · split at h <;> cases h <;> rfl
  | claim v verified =>
    simp only [ackStep] at h
    split at h
    · split at h <;> cases h <;> rfl
    · cases h; rfl
  | markSending v verified => cases h; exact s.map_key_setDelivery key _
  | confirmDelivery v verified => cases h; rfl
  | recordRow a => cases h; exact s.map_key_setDelivery key _
  | returned a => cases h
  | crashed => cases h

/-! The calls of the Exely lifecycle on one reservation, in any number and in any order
of their operations: deliveries, processing and acknowledgement of versions. Any
operation may raise and any process may end; time passes, mappings are set, and the PMS
writes its bookings. -/

/-- A delivered event as the normaliser hands it over. Its key is `fallback_key`. -/
structure Event where
  key : VersionKey
  createdAtParses : Bool := true
  payload : ℕ
  eventCancels : Bool := false
  stateCancelled : Bool := false
  rooms : List RoomStay := []

def Event.delivery? (e : Event) : Option Delivery :=
  match e.key, e.createdAtParses with
  | .stamped instant spelling, true =>
    some ⟨instant, spelling, e.payload, e.eventCancels, e.stateCancelled, e.rooms⟩
  | _, _ => none

inductive Call where
  | persist (e : Event)
  | process (key : VersionKey)
  | acknowledge (key : VersionKey)

inductive Thread where
  | persist (e : Delivery) (pc : PersistPc)
  | malformed (key : VersionKey) (done : Bool)
  | process (key : VersionKey) (lost : Bool) (pc : ProcessPc)
  | acknowledge (key : VersionKey) (pc : AckPc)

def Thread.start : Call → Thread
  | .persist e =>
    match e.delivery? with
    | some d => .persist d .find
    | none => .malformed e.key false
  | .process key => .process key false .read
  | .acknowledge key => .acknowledge key .read

inductive Env where
  | tick
  | map (roomCode ratePlanCode : ℕ) (mapped : Bool)
  | book (b : Booking)

def Store.env (s : Store) : Env → Store
  | .tick => { s with now := s.now + 1 }
  | .map roomCode ratePlanCode mapped =>
    { s with mappings := fun r p =>
        if r = roomCode ∧ p = ratePlanCode then mapped else s.mappings r p }
  | .book b => { s with bookings := s.bookings.upsert b }

@[simp] theorem Store.env_row (s : Store) (v : Env) : (s.env v).row = s.row := by
  cases v <;> rfl

@[simp] theorem Store.env_versions (s : Store) (v : Env) : (s.env v).versions = s.versions := by
  cases v <;> rfl

@[simp] theorem Store.env_sent (s : Store) (v : Env) : (s.env v).sent = s.sent := by
  cases v <;> rfl

def Thread.advance (k : ℕ) (s : Store) (o : Outside) : Thread → Option (Store × Thread)
  | .persist e pc => (persistStep s e o pc).map fun r => (r.1, .persist e r.2)
  | .malformed key done =>
    if done then none
    else some (s.putVersion key (malformedDoc (s.versions key)), .malformed key true)
  | .process key lost pc =>
    (processStep k s key lost o pc).map fun r => (r.1, .process key lost r.2)
  | .acknowledge key pc => (ackStep s key o pc).map fun r => (r.1, .acknowledge key r.2)

namespace Thread

def ended : Thread → Bool
  | .persist _ pc => pc.ended
  | .malformed _ done => done
  | .process _ _ pc => pc.ended
  | .acknowledge _ pc => pc.ended

def raised : Thread → Thread
  | .persist e _ => .persist e (.returned .raised)
  | .malformed key _ => .malformed key true
  | .process key lost pc => .process key lost pc.raised
  | .acknowledge key pc => .acknowledge key pc.raised

def crashed : Thread → Thread
  | .persist e _ => .persist e .crashed
  | .malformed key _ => .malformed key true
  | .process key lost _ => .process key lost .crashed
  | .acknowledge key _ => .acknowledge key .crashed

def step (k : ℕ) (s : Store) (t : Thread) : Move → Option (Store × Thread)
  | .advance o => t.advance k s o
  | .raise => if t.ended then none else some (s, t.raised)
  | .crash => if t.ended then none else some (s, t.crashed)
  | .heartbeat ok =>
    match t with
    | .process key lost pc =>
      (heartbeat k s key lost ok pc).map fun r => (r.1, .process key r.2 pc)
    | _ => none

end Thread

/-- The calls on one reservation. A run starts before its first delivery. -/
def calls : Program Store Thread Env Call Move where
  init s := s.row = none ∧ s.sent = [] ∧ ∀ key, s.versions key = none
  env s e := some (s.env e)
  call _ c := some (Thread.start c)
  step k s t m := t.step k s m

def emptyStore : Store where
  row := none
  versions _ := none
  bookings := .empty
  mappings _ _ := true
  now := 0
  sent := []

theorem emptyStore_init : calls.machine.init ⟨emptyStore, []⟩ :=
  ⟨⟨rfl, rfl, fun _ => rfl⟩, rfl⟩

/-! ### Deliveries and the row -/

def Thread.delivery? : Thread → Option Delivery
  | .persist e _ => some e
  | _ => none

variable {t t' : Thread}

theorem step_cases (h : t.step k s m = some (s', t')) :
    (∃ e pc pc' o, t = .persist e pc ∧ m = .advance o ∧ t' = .persist e pc' ∧
      persistStep s e o pc = some (s', pc')) ∨
    (s'.row.map Row.key = s.row.map Row.key ∧ t'.delivery? = t.delivery? ∧
      ∀ e pc, t' = .persist e pc → pc = .returned .raised ∨ pc = .crashed) := by
  cases m with
  | advance o =>
    cases t with
    | persist e pc =>
      obtain ⟨⟨s₁, pc'⟩, hs, heq⟩ := Option.map_eq_some_iff.mp h
      cases heq
      exact .inl ⟨e, pc, pc', o, rfl, rfl, rfl, hs⟩
    | malformed key done =>
      simp only [Thread.step, Thread.advance] at h
      split at h <;> cases h
      exact .inr ⟨rfl, rfl, fun _ _ h => nomatch h⟩
    | process key lost pc =>
      obtain ⟨⟨s₁, pc'⟩, hs, heq⟩ := Option.map_eq_some_iff.mp h
      cases heq
      exact .inr ⟨(processStep_store hs).map_key, rfl, fun _ _ h => nomatch h⟩
    | acknowledge key pc =>
      obtain ⟨⟨s₁, pc'⟩, hs, heq⟩ := Option.map_eq_some_iff.mp h
      cases heq
      exact .inr ⟨ackStep_map_key hs, rfl, fun _ _ h => nomatch h⟩
  | raise =>
    simp only [Thread.step] at h
    split at h <;> cases h
    refine .inr ⟨rfl, by cases t <;> rfl, fun e pc hpc => .inl ?_⟩
    cases t <;> cases hpc
    rfl
  | crash =>
    simp only [Thread.step] at h
    split at h <;> cases h
    refine .inr ⟨rfl, by cases t <;> rfl, fun e pc hpc => .inr ?_⟩
    cases t <;> cases hpc
    rfl
  | heartbeat ok =>
    simp only [Thread.step] at h
    split at h
    · obtain ⟨⟨s₁, lost'⟩, hs, heq⟩ := Option.map_eq_some_iff.mp h
      cases heq
      exact .inr ⟨(heartbeat_store hs).map_key, rfl, fun _ _ h => nomatch h⟩
    · cases h

theorem delivery?_step (h : t.step k s m = some (s', t')) : t'.delivery? = t.delivery? := by
  obtain ⟨e, pc, pc', o, rfl, rfl, rfl, -⟩ | ⟨-, hd, -⟩ := step_cases h
  · rfl
  · exact hd

theorem row_step (h : t.step k s m = some (s', t')) : s'.row.map Row.key = s.row.map Row.key ∨
      ∃ e, t.delivery? = some e ∧ s'.row.map Row.key = some e.key := by
  obtain ⟨e, pc, pc', o, rfl, rfl, rfl, hs⟩ | ⟨hrow, -, -⟩ := step_cases h
  · obtain ⟨-, status, p, rfl, -⟩ | ⟨-, rfl | ⟨p, -, -, rfl⟩ | ⟨-, -, rfl⟩ | ⟨-, -, rfl⟩⟩ :=
      persistStep_store hs
    · exact .inr ⟨e, rfl, rfl⟩
    all_goals exact .inl rfl
  · exact .inl hrow

/-! ### Events and operations for runs -/

def sampleEvent (instant : ℤ) : Event where
  key := .stamped instant 0
  payload := instant.toNat
  rooms := [{}]

def operations (k n : ℕ) : List (Act Env Call Move) := .replicate n (.step k (.advance {}))

end SyrocePms.Exely
