import Mathlib.Data.Fintype.Basic
import SyrocePms.Atomic.Operations

/-! What every run of the atomic booking operations keeps, as long as its steps meet
three conditions: a lock is only inserted for a night that no other live booking of the
room covers by then; a call does not remove the locks that another call in flight relies
on; and a booking write leaves the document with the room and stay whose locks the call
claimed. The invariant says of every call which locks it holds at each point of its
control. -/

namespace SyrocePms.Atomic

open Reservation Lib List

variable {s : State} {b : Booking} {night : ℤ} {rest : List ℤ}

/-! ### The conditions on a step -/

/-- The points of control at which a call relies on the locks of the nights it passed. -/
def Pc.holding : Pc → Bool
  | .rollback | .setStatus | .releaseAll | .done => false
  | _ => true

def Pc.inserts : Pc → Bool
  | .claim | .reclaim _ => true
  | _ => false

def State.liveDoc (s : State) (booking : ℕ) : Bool :=
  s.bookings.any fun b => b.id == booking && b.live

/-- The call is in flight, in time, and for a booking that is not terminal. -/
def State.holds (s : State) (t : Task) : Bool :=
  t.pc.holding && decide (s.now < t.startedAt + staleLockMinAgeSeconds) &&
    (t.op.isCreate || s.liveDoc t.booking)

/-- The next operation of `t` removes the lock on (`room`, `night`): a compensation, the
release of obsolete locks, or a retirement. -/
def State.removes (s : State) (t : Task) (room : ℕ) (night : ℤ) : Bool :=
  (s.locks room night).any fun l =>
    match t.pc with
    | .rollback => ofClaim t.booking t.room t.claimed room night l
    | .release => obsolete t.booking t.room t.nights room night l
    | .retire _ existing _ =>
      room == t.room && t.todo.head? == some night && exactFilter existing l
    | _ => false

/-- The overlap check that the call made at its start still holds for the night whose
lock it inserts now. -/
def OverlapStillExcluded (s : State) (t : Task) : Prop :=
  t.pc.inserts = true → ∀ night ∈ t.todo.head?, s.locks t.room night = none →
    ∀ b ∈ s.bookings.rows, b.live = true → b.id ≠ t.booking → ¬ b.covers t.room night

/-- No lock is removed that another call in flight relies on. A retirement is only asked
to spare the locks that the other call found and accepted as its own. -/
def SparesCallsInFlight (s : State) (t : Task) : Prop :=
  ∀ x ∈ s.tasks.rows, x.id ≠ t.id → s.holds x = true → ∀ night ∈ x.passed,
    s.removes t x.room night = true → t.pc ≠ .rollback ∧ t.pc ≠ .release ∧ night ∈ x.claimed

def WritesWhatItClaimed (s : State) (t : Task) : Prop :=
  t.pc = .write → ∀ b ∈ s.bookings.rows, b.id = t.booking →
    match t.op with
    | .assign ci co _ (some w) =>
      w.admits b = true → (w.apply b).room = some t.room ∧
        (w.apply b).checkIn = some ci ∧ (w.apply b).checkOut = some co
    | _ => True

instance (s : State) (t : Task) : Decidable (OverlapStillExcluded s t) := by
  unfold OverlapStillExcluded
  infer_instance

instance (s : State) (t : Task) : Decidable (SparesCallsInFlight s t) := by
  unfold SparesCallsInFlight
  infer_instance

instance (s : State) (t : Task) : Decidable (WritesWhatItClaimed s t) :=
  if hpc : t.pc = .write then
    match hop : t.op with
    | .assign ci co _ (some w) =>
      decidable_of_iff (∀ b ∈ s.bookings.rows, b.id = t.booking →
          w.admits b = true → (w.apply b).room = some t.room ∧
            (w.apply b).checkIn = some ci ∧ (w.apply b).checkOut = some co)
        (by simp [WritesWhatItClaimed, hpc, hop])
    | .assign _ _ _ none => isTrue (by simp [WritesWhatItClaimed, hop])
    | .create _ => isTrue (by simp [WritesWhatItClaimed, hop])
    | .close _ => isTrue (by simp [WritesWhatItClaimed, hop])
  else isTrue (fun h => absurd h hpc)

/-- The condition on the next operation of a call. -/
def StepKeepsLocks (s : State) (t : Task) : Prop :=
  OverlapStillExcluded s t ∧ SparesCallsInFlight s t ∧ WritesWhatItClaimed s t

instance (s : State) (t : Task) : Decidable (StepKeepsLocks s t) :=
  inferInstanceAs (Decidable (_ ∧ _ ∧ _))

/-- The condition on an action: only the operations of calls can break it. -/
def KeepsLocks (s : State) (a : Action) : Prop :=
  match a with
  | .advance id => ∀ t ∈ s.tasks.get? id, StepKeepsLocks s t
  | _ => True

instance (s : State) (a : Action) : Decidable (KeepsLocks s a) :=
  match a with
  | .advance id => inferInstanceAs (Decidable (∀ t ∈ s.tasks.get? id, StepKeepsLocks s t))
  | .tick | .create _ | .assign .. | .close .. | .raise _ | .crash _ => isTrue trivial

/-! ### What holds of one call -/

/-- The same, under a lock written since the call began. -/
def ClaimedSince (locks : LockTable) (t : Task) (night : ℤ) : Prop :=
  ∃ l time, locks t.room night = some l ∧ l.owner = .booking t.booking ∧
    l.createdAt = .stamped time ∧ t.startedAt ≤ time

/-- The owner's document is terminal, or the row is past the grace period. -/
def Retirable (s : State) (l : Lock) (owner : ℕ) : Prop :=
  (∃ b ∈ s.bookings, b.id = owner ∧ b.status.terminal = true) ∨ lockIsOldEnough l s.now = true

/-- What a call knows at a point of its control. -/
def PcOk (s : State) (t : Task) : Pc → Prop
  | .lookup created | .reclaim created => t.startedAt ≤ created
  | .owner created l owner old =>
    t.startedAt ≤ created ∧ l.owner = .booking owner ∧ owner ≠ t.booking ∧
      (∃ time, l.createdAt = .stamped time) ∧ (old = true → lockIsOldEnough l s.now = true)
  | .retire created l _ =>
    t.startedAt ≤ created ∧ (∃ time, l.createdAt = .stamped time) ∧
      ∃ owner, l.owner = .booking owner ∧ owner ≠ t.booking ∧ Retirable s l owner
  | .insertDoc | .release | .write => t.todo = []
  | .releaseAll => ∃ b ∈ s.bookings, b.id = t.booking ∧ b.status.terminal = true
  | _ => True

structure TaskOk (s : State) (t : Task) : Prop where
  booking_lt : t.booking < s.nextBooking
  started : t.startedAt ≤ s.now
  document : ∀ doc, t.op = .create doc → doc.id = t.booking ∧
    (doc.live = true → ∀ room night, doc.covers room night → room = t.room ∧ night ∈ t.nights)
  stay : ∀ ci co release write, t.op = .assign ci co release write →
    t.nights = nightDates ci.day co.day
  closing : ∀ status, t.op = .close status → status.terminal = true
  stored : t.op.isCreate = false → ∃ b ∈ s.bookings, b.id = t.booking
  progress : ∀ night ∈ t.nights, night ∈ t.passed ∨ night ∈ t.todo
  passed_sub : ∀ night ∈ t.passed, night ∈ t.nights
  todo_sub : ∀ night ∈ t.todo, night ∈ t.nights
  claimed_sub : ∀ night ∈ t.claimed, night ∈ t.passed
  unstored : t.op.isCreate = true → t.pc ≠ .done → ∀ b ∈ s.bookings, b.id ≠ t.booking
  control : PcOk s t t.pc
  held : s.holds t = true → ∀ night ∈ t.passed, Owned s.locks t.booking t.room night
  recent : s.holds t = true → ∀ night ∈ t.claimed, ClaimedSince s.locks t night

structure Inv (s : State) : Prop where
  booking_ids : ∀ b ∈ s.bookings, b.id < s.nextBooking
  task_ids : ∀ t ∈ s.tasks, t.id < s.nextTask
  tasks : ∀ t ∈ s.tasks, TaskOk s t
  sole : ∀ t ∈ s.tasks, ∀ x ∈ s.tasks, t.op.isCreate = true → t.pc ≠ .done →
    x.booking = t.booking → x = t
  safe : NoDoubleBooking s.bookings
  noForeign : NoForeignLock s.bookings s.locks
  stamped : Stamped s.locks

theorem liveDoc_iff {booking : ℕ} :
    s.liveDoc booking = true ↔ ∃ b ∈ s.bookings, b.id = booking ∧ b.live = true := by
  simp [State.liveDoc]

theorem holds_iff {t : Task} :
    s.holds t = true ↔ t.pc.holding = true ∧ s.now < t.startedAt + staleLockMinAgeSeconds ∧
      (t.op.isCreate = true ∨ s.liveDoc t.booking = true) := by
  simp [State.holds, and_assoc]

theorem live_iff : b.live = true ↔ b.status.terminal = false := by
  simp [Booking.live]

theorem not_liveDoc_of_terminal (hb : b ∈ s.bookings) (ht : b.status.terminal = true) :
    ¬ s.liveDoc b.id = true := by
  intro h
  obtain ⟨c, hc, hid, hl⟩ := liveDoc_iff.mp h
  rw [Collection.eq_of_key hc hb hid, live_iff, ht] at hl
  cases hl

/-! ### Moving the control of a call -/

section Control

variable {s : State} {t : Task}

/-- A call that is still running may go to any point whose facts it knows. -/
theorem TaskOk.goto (h : TaskOk s t) (hd : t.pc ≠ .done) {pc : Pc} (hpc : PcOk s t pc)
    (hh : pc.holding = true → t.pc.holding = true) : TaskOk s { t with pc := pc } where
  booking_lt := h.booking_lt
  started := h.started
  document := h.document
  stay := h.stay
  closing := h.closing
  stored := h.stored
  progress := h.progress
  passed_sub := h.passed_sub
  todo_sub := h.todo_sub
  claimed_sub := h.claimed_sub
  unstored hc _ := h.unstored hc hd
  control := by
    cases pc <;> exact hpc
  held hx := h.held (holds_iff.mpr ⟨hh (holds_iff.mp hx).1, (holds_iff.mp hx).2⟩)
  recent hx := h.recent (holds_iff.mpr ⟨hh (holds_iff.mp hx).1, (holds_iff.mp hx).2⟩)

/-- Any call may end. -/
theorem TaskOk.finish (h : TaskOk s t) : TaskOk s { t with pc := .done } where
  booking_lt := h.booking_lt
  started := h.started
  document := h.document
  stay := h.stay
  closing := h.closing
  stored := h.stored
  progress := h.progress
  passed_sub := h.passed_sub
  todo_sub := h.todo_sub
  claimed_sub := h.claimed_sub
  unstored _ hd := absurd rfl hd
  control := trivial
  held hx := by simp [holds_iff, Pc.holding] at hx
  recent hx := by simp [holds_iff, Pc.holding] at hx

theorem TaskOk.loop (h : TaskOk s t) (hd : t.pc ≠ .done) (hh : t.pc.holding = true) :
    TaskOk s t.loop := by
  unfold Task.loop
  split
  · exact h.goto hd trivial fun _ => hh
  · rename_i htodo
    split
    · exact h.goto hd htodo fun _ => hh
    · split
      · exact h.goto hd htodo fun _ => hh
      · split
        · exact h.goto hd htodo fun _ => hh
        · exact h.finish
    · exact h.finish

theorem TaskOk.compensate (h : TaskOk s t) (hd : t.pc ≠ .done) : TaskOk s t.compensate := by
  unfold Task.compensate
  split
  · exact h.finish
  · exact h.goto hd trivial (by simp [Pc.holding])

theorem TaskOk.raised (h : TaskOk s t) (hd : t.pc ≠ .done) : TaskOk s t.raised := by
  unfold Task.raised
  split
  · exact h.finish
  · exact h.finish
  · exact h.compensate hd
  · exact h.finish

theorem TaskOk.pass (h : TaskOk s t) (hd : t.pc ≠ .done) (hh : t.pc.holding = true)
    (htodo : t.todo = night :: rest) (howned : Owned s.locks t.booking t.room night) {fresh : Bool}
    (hfresh : fresh = true → ClaimedSince s.locks t night) : TaskOk s (t.pass fresh) := by
  have hstep : TaskOk s { t with
      todo := rest
      passed := night :: t.passed
      claimed := if fresh then night :: t.claimed else t.claimed } := by
    refine ⟨h.booking_lt, h.started, h.document, h.stay, h.closing, h.stored, ?_, ?_, ?_, ?_,
      h.unstored, ?_, ?_, ?_⟩
    · intro n hn
      rcases h.progress n hn with hp | hp
      · exact .inl (mem_cons_of_mem _ hp)
      · rw [htodo] at hp
        rcases mem_cons.mp hp with rfl | hp
        · exact .inl mem_cons_self
        · exact .inr hp
    · intro n hn
      rcases mem_cons.mp hn with rfl | hn
      · exact h.todo_sub n (htodo ▸ mem_cons_self)
      · exact h.passed_sub n hn
    · intro n hn
      exact h.todo_sub n (htodo ▸ mem_cons_of_mem _ hn)
    · intro n hn
      cases fresh with
      | false => exact mem_cons_of_mem _ (h.claimed_sub n hn)
      | true =>
        rcases mem_cons.mp hn with rfl | hn
        · exact mem_cons_self
        · exact mem_cons_of_mem _ (h.claimed_sub n hn)
    · have hc := h.control
      have hne : t.todo ≠ [] := by simp [htodo]
      revert hc
      cases t.pc <;> intro hc <;> first | exact hc | exact absurd hc hne
    · intro hx n hn
      rcases mem_cons.mp hn with rfl | hn
      · exact howned
      · exact h.held hx n hn
    · intro hx n hn
      cases fresh with
      | false => exact h.recent hx n hn
      | true =>
        rcases mem_cons.mp hn with rfl | hn
        · exact hfresh rfl
        · exact h.recent hx n hn
  unfold Task.pass
  split
  · rename_i n rest' htodo'
    rw [htodo] at htodo'
    cases htodo'
    exact hstep.loop hd hh
  · rename_i htodo'
    rw [htodo] at htodo'
    cases htodo'

theorem TaskOk.refused (h : TaskOk s t) (hd : t.pc ≠ .done) (hh : t.pc.holding = true)
    (htodo : t.todo = night :: rest) {existing : Option Lock}
    (hex : ∀ l, existing = some l → l.owner = .booking t.booking →
      Owned s.locks t.booking t.room night) : TaskOk s (t.refused existing) := by
  unfold Task.refused
  split
  · rename_i l _
    split
    · rename_i howner
      exact h.pass hd hh htodo (hex l rfl howner) (by simp)
    · exact h.compensate hd
  · exact h.compensate hd

end Control

end SyrocePms.Atomic
