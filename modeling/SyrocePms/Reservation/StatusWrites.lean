import SyrocePms.Lib.Threads
import SyrocePms.Reservation.Stay

/-! The operations that write the status of a booking, side by side on one booking. Each
reads the status and looks at it, and writes its own status later, by the id of the
booking alone. Only check-in and check-out do both in one transaction. -/

namespace SyrocePms.Reservation

open Lib BookingStatus

/-- An operation on the status: the guard on the status that it reads, and the status
that it writes. -/
structure StatusChange where
  guard : BookingStatus → Bool
  target : BookingStatus

def handleCancellation : StatusChange := ⟨fun st => !st.nonCancellable, .cancelled⟩

def handleNoShow : StatusChange := ⟨noShowable, .noShow⟩

def checkInBookingAtomic : StatusChange :=
  ⟨fun st => [.confirmed, .guaranteed, .pending].contains st, .checkedIn⟩

def checkOutBookingAtomic : StatusChange := ⟨fun st => st == .checkedIn, .checkedOut⟩

/-- `_post_no_show_item`. The guard is that of the query for the candidates. -/
def postNoShowItem : StatusChange := ⟨fun st => [.confirmed, .guaranteed].contains st, .noShow⟩

inductive Operation where
  | cancellation
  | noShow
  | checkIn
  | checkOut
  | auditNoShow
  deriving DecidableEq

namespace Operation

def change : Operation → StatusChange
  | .cancellation => handleCancellation
  | .noShow => handleNoShow
  | .checkIn => checkInBookingAtomic
  | .checkOut => checkOutBookingAtomic
  | .auditNoShow => postNoShowItem

/-- The operation reads and writes the booking in one transaction. -/
def transactional : Operation → Bool
  | .checkIn | .checkOut => true
  | _ => false

end Operation

inductive StatusPc where
  | read
  | write
  | returned

structure StatusThread where
  op : Operation
  pc : StatusPc := .read

/-- The booking: its status, and each status that was replaced with the one that replaced
it. -/
structure StatusStore where
  status : BookingStatus
  writes : List (BookingStatus × BookingStatus) := []
  deriving DecidableEq

def StatusStore.write (s : StatusStore) (st : BookingStatus) : StatusStore where
  status := st
  writes := s.writes ++ [(s.status, st)]

/-- What an operation cannot foresee: whether its other guards pass (the room, the business
date, the folio), and whether transactions are switched on. -/
structure StatusChance where
  admits : Bool := true
  transactions : Bool := true

inductive StatusMove where
  | advance (o : StatusChance)
  | stop

/-- One step of an operation. It is stopped by an exception, a crash or the abort of its
transaction. -/
def StatusThread.step (s : StatusStore) (t : StatusThread) :
    StatusMove → Option (StatusStore × StatusThread)
  | .stop => some (s, { t with pc := .returned })
  | .advance o =>
    match t.pc with
    | .read =>
      if !(t.op.change.guard s.status && o.admits) then some (s, { t with pc := .returned })
      else if t.op.transactional && o.transactions then
        some (s.write t.op.change.target, { t with pc := .returned })
      else some (s, { t with pc := .write })
    | .write => some (s.write t.op.change.target, { t with pc := .returned })
    | .returned => none

def statusWrites : Program StatusStore StatusThread Empty Operation StatusMove where
  init s := s.writes = []
  env _ e := nomatch e
  call _ op := some ⟨op, .read⟩
  step _ s t m := t.step s m

/-! ### The condition -/

def BookingStatus.inTable (st : BookingStatus) : Bool :=
  [.pending, .confirmed, .guaranteed, .checkedIn, .checkedOut, .cancelled, .noShow].contains st

def Operation.fits (op : Operation) (st : BookingStatus) : Bool :=
  op.change.guard st && st.inTable && !(op == .checkIn && st == .pending)

/-- When an operation comes to its write, it still fits the status. -/
def StillFits (s : StatusStore) (t : StatusThread) : Prop :=
  match t.pc with
  | .read => t.op = .checkIn → s.status ≠ .pending
  | .write => t.op.fits s.status = true
  | .returned => True

instance (s : StatusStore) (t : StatusThread) : Decidable (StillFits s t) := by
  unfold StillFits
  split <;> infer_instance

def WritesFit (p : Pool StatusStore StatusThread) : Act Empty Operation StatusMove → Prop
  | .step k (.advance _) => ∀ t ∈ p.threads[k]?, StillFits p.store t
  | _ => True

instance (p : Pool StatusStore StatusThread) (a : Act Empty Operation StatusMove) :
    Decidable (WritesFit p a) := by
  unfold WritesFit
  split <;> infer_instance

/-! ### The table -/

theorem target_mem_iff (op : Operation) (st : BookingStatus) :
    op.change.target ∈ st.validTransitions ↔ op.fits st = true := by
  cases op <;> cases st <;> simp [Operation.fits, Operation.change, handleCancellation, handleNoShow,
    checkInBookingAtomic, checkOutBookingAtomic, postNoShowItem, BookingStatus.inTable, nonCancellable,
    noShowable, validateTransition, validTransitions]

theorem fits_of_transactional {op : Operation} {st : BookingStatus} (ht : op.transactional = true)
    (hg : op.change.guard st = true) (hp : op = .checkIn → st ≠ .pending) : op.fits st = true := by
  cases op <;> cases st <;> simp_all [Operation.transactional, Operation.change, Operation.fits,
    checkInBookingAtomic, checkOutBookingAtomic, BookingStatus.inTable]

variable {s s' : StatusStore} {t t' : StatusThread} {m : StatusMove}

theorem step_writes (hc : ∀ o, m = .advance o → StillFits s t) (h : t.step s m = some (s', t')) :
    s' = s ∨ (t.op.fits s.status = true ∧ s' = s.write t.op.change.target) := by
  obtain ⟨op, pc⟩ := t
  cases m with
  | stop =>
    cases h
    exact .inl rfl
  | advance o =>
    have hfit := hc o rfl
    cases pc with
    | read =>
      simp only [StatusThread.step] at h
      split at h
      · cases h
        exact .inl rfl
      · rename_i hguard
        split at h
        · rename_i htrans
          cases h
          simp only [Bool.not_eq_true', Bool.not_eq_false, Bool.and_eq_true] at hguard htrans
          exact .inr ⟨fits_of_transactional htrans.1 hguard.1 hfit, rfl⟩
        · cases h
          exact .inl rfl
    | write =>
      cases h
      exact .inr ⟨hfit, rfl⟩
    | returned => cases h

def AlongTable (s : StatusStore) : Prop := ∀ w ∈ s.writes, w.2 ∈ w.1.validTransitions

theorem AlongTable.write (h : AlongTable s) {op : Operation} (hfit : op.fits s.status = true) :
    AlongTable (s.write op.change.target) := by
  intro w hw
  obtain hw | hw := List.mem_append.mp hw
  · exact h w hw
  · rw [List.mem_singleton.mp hw]
    exact (target_mem_iff op s.status).mpr hfit

/-- The guest is in the house or has left. -/
def Arrived (s : StatusStore) : Prop := s.status = .checkedIn ∨ s.status = .checkedOut

theorem Arrived.write (h : Arrived s) {op : Operation} (hfit : op.fits s.status = true) :
    Arrived (s.write op.change.target) := by
  have htarget := (target_mem_iff op s.status).mpr hfit
  obtain h | h := h
  · rw [h] at htarget
    exact .inr (List.mem_singleton.mp htarget)
  · rw [h] at htarget
    cases htarget

theorem next_keeps {I : StatusStore → Prop}
    (hw : ∀ s (op : Operation), I s → op.fits s.status = true → I (s.write op.change.target))
    {p p' : Pool StatusStore StatusThread} {a : Act Empty Operation StatusMove} (hi : I p.store)
    (hc : WritesFit p a) (h : statusWrites.machine.step p a = some p') : I p'.store := by
  cases a with
  | env e => exact nomatch e
  | call op =>
    obtain ⟨-, -, hs, -⟩ := Program.next_call h
    rw [hs]
    exact hi
  | step k m =>
    obtain ⟨t, t', ht, hs, -⟩ := Program.next_step h
    have hfit : ∀ o, m = .advance o → StillFits p.store t := fun o ho => by
      subst ho
      exact hc t ht
    obtain heq | ⟨hf, heq⟩ := step_writes hfit hs
    · rw [heq]
      exact hi
    · rw [heq]
      exact hw _ _ hi hf

/-- While every write still fits, each status moves along the table, and a guest who has
arrived is never cancelled and never a no-show. -/
theorem status_along_table {p : Pool StatusStore StatusThread}
    (hp : statusWrites.machine.Reach WritesFit p) : AlongTable p.store ∧
    ∀ p', statusWrites.machine.Path WritesFit p p' → Arrived p.store → Arrived p'.store := by
  refine ⟨?_, fun p' hpath harr => ?_⟩
  · refine hp.invariant (fun q => AlongTable q.store) (fun q hq w hw => ?_)
      fun q a q' hq hc hs => next_keeps (fun _ _ h hf => h.write hf) hq hc hs
    rw [hq.1] at hw
    cases hw
  · exact hpath.invariant (fun q => Arrived q.store)
      (fun q a q' hq hc hs => next_keeps (fun _ _ h hf => h.write hf) hq hc hs) harr

/-! ### Runs -/

def confirmedBooking : StatusStore := { status := .confirmed }

theorem confirmedBooking_init : statusWrites.machine.init ⟨confirmedBooking, []⟩ := ⟨rfl, rfl⟩

/-- A guest arrives and leaves, and a cancellation in between is refused. -/
theorem status_along_table_stay : ∃ p, statusWrites.machine.Reach WritesFit p ∧
    p.store.writes = [(.confirmed, .checkedIn), (.checkedIn, .checkedOut)] ∧ AlongTable p.store := by
  obtain ⟨p, hp, hv⟩ := Machine.exists_reach_of_runUnder (C := WritesFit)
    (f := fun p : Pool StatusStore StatusThread => p.store.writes)
    (v := [(.confirmed, .checkedIn), (.checkedIn, .checkedOut)])
    [.call .checkIn, .call .cancellation, .call .checkOut, .step 0 (.advance {}),
      .step 1 (.advance {}), .step 2 (.advance {})]
    confirmedBooking_init (by decide +kernel)
  exact ⟨p, hp, hv, (status_along_table hp).1⟩

/-- The night audit has listed the booking, the guest arrives, and the item is posted. -/
theorem arrived_guest_no_show : ∃ p, statusWrites.machine.Reachable p ∧
    p.store.status = .noShow ∧ ¬ AlongTable p.store := by
  obtain ⟨p, hp, hv⟩ := Machine.exists_reachable_of_run
    (f := fun p : Pool StatusStore StatusThread => p.store)
    (v := ⟨.noShow, [(.confirmed, .checkedIn), (.checkedIn, .noShow)]⟩)
    [.call .auditNoShow, .step 0 (.advance {}), .call .checkIn, .step 1 (.advance {}),
      .step 0 (.advance {})]
    confirmedBooking_init (by decide +kernel)
  have hlast (h : AlongTable p.store) : BookingStatus.noShow ∈ BookingStatus.checkedIn.validTransitions :=
    h (.checkedIn, .noShow) (by rw [hv]; simp)
  exact ⟨p, hp, by rw [hv], fun h => absurd (hlast h) (by decide)⟩

end SyrocePms.Reservation
