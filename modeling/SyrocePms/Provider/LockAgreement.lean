import SyrocePms.Atomic.Agreement
import SyrocePms.Provider.HotelRunner
import SyrocePms.Provider.Exely

/-! Locks and stays across all operations that write bookings, run one after another
without failures: the atomic operations, the HotelRunner pull, the Exely update and
cancellation, and the propagated cancellation. Three of them change what a booking
occupies without the lock table: a creation that is already checked out takes locks, the
pull and the propagation write dates and statuses only, and the Exely update reinstates a
closed booking in its room. -/

namespace SyrocePms.Provider

open Reservation Atomic Lib Collection

inductive Operation where
  | tick
  | create (doc : Booking)
  | assign (booking : ℕ) (write : BookingWrite)
  | close (booking : ℕ) (status : BookingStatus)
  | sync (env : HrEnv) (u : HrUpdate)
  | upsert (stay : ExelyStay) (generation : ℕ)
  | cancel (booking : ℕ) (version : VersionKey) (generation : ℕ)
  | propagate (externalId : ℕ)

def releaseSome (locks : LockTable) : Option ℕ → LockTable
  | some booking => locks.deleteMany (ofBooking booking)
  | none => locks

/-- `_upsert_booking` with the release of the locks of a changed assignment. -/
def upsertStore (s : Store) (stay : ExelyStay) (generation : ℕ) : Option Store :=
  (upsertBooking s.bookings stay generation).map fun bookings =>
    { s with
      bookings := bookings
      locks := releaseSome s.locks (((s.bookings.get? stay.bookingId).filter fun b =>
        releaseNeeded b (bookingFields stay generation)).map Booking.id) }

def cancelStore (s : Store) (booking : ℕ) (version : VersionKey) (generation : ℕ) :
    Option Store :=
  (cancelBooking s.bookings booking version generation).map fun bookings =>
    { s with
      bookings := bookings
      locks := releaseSome s.locks (((s.bookings.get? booking).filter fun b =>
        cancelWrites b version generation && cancelReleases b version).map Booking.id) }

/-- `_propagate_cancellation_to_booking`: only the locks of a hold are released. -/
def propagateStore (s : Store) (externalId : ℕ) : Store :=
  { s with
    bookings := propagateCancellationToBooking s.bookings externalId
    locks := releaseSome s.locks (releaseUnmatchedReservationHold s.bookings externalId).2 }

/-- One operation. A new document comes without a pending release, and a raised error
leaves no step. -/
def operate (s : Store) : Operation → Option Store
  | .tick => some { s with now := s.now + 1 }
  | .create doc => if doc.inventoryReleasePending then none else s.createBookingAtomic doc
  | .assign booking write => s.assignAndWrite booking write
  | .close booking status => s.closeBooking booking status
  | .sync env u => some { s with bookings := (syncReservationUpdate env s.bookings u).1 }
  | .upsert stay generation => upsertStore s stay generation
  | .cancel booking version generation => cancelStore s booking version generation
  | .propagate externalId => some (propagateStore s externalId)

/-- The operations from an empty database, in which rooms may be blocked. -/
def operations : Machine Store Operation where
  init s := s.bookings = .empty ∧ ∀ booking room night, ¬ Owned s.locks booking room night
  step := operate

/-! ### When an operation keeps the agreement -/

/-- The nights that a booking occupies, with its room; none for a terminal booking. -/
def occupiedCells (b : Booking) : List (ℕ × ℤ) :=
  match b.live, b.room with
  | true, some room => b.nights.map fun night => (room, night)
  | _, _ => []

theorem mem_occupiedCells {b : Booking} {room : ℕ} {night : ℤ} :
    (room, night) ∈ occupiedCells b ↔ b.live = true ∧ b.covers room night := by
  unfold occupiedCells Booking.covers
  cases b.live <;> cases hr : b.room <;> simp [eq_comm, and_comm]

/-- The condition on an operation. A creation that is already checked out has no room or
no nights; the pull leaves the nights that the booking occupies as they are; the Exely
update does not find a closed booking with its room and the same stay; the propagated
cancellation finds a booking that occupies no night, or the hold it has just released. -/
def MovesNoNightUnlocked (s : Store) : Operation → Prop
  | .create doc => doc.status = .checkedOut → doc.room = none ∨ doc.nights = []
  | .sync env u => ∀ b ∈ s.bookings.findOne (providerBooking u.externalId),
      occupiedCells (syncedDocument env u b) = occupiedCells b
  | .upsert stay generation => ∀ b ∈ s.bookings.get? stay.bookingId,
      upsertWrites b stay generation = true → b.live = true ∨ b.room = none ∨ b.nights = [] ∨
        assignmentChanged b (bookingFields stay generation) = true
  | .propagate externalId => ∀ b ∈ s.bookings.findOne (providerBooking externalId),
      isHold s.bookings externalId b = true ∨ occupiedCells b = []
  | .tick | .assign .. | .close .. | .cancel .. => True

instance (s : Store) (op : Operation) : Decidable (MovesNoNightUnlocked s op) :=
  match op with
  | .create doc =>
    inferInstanceAs (Decidable (doc.status = .checkedOut → doc.room = none ∨ doc.nights = []))
  | .sync env u =>
    inferInstanceAs (Decidable (∀ b ∈ s.bookings.findOne (providerBooking u.externalId),
      occupiedCells (syncedDocument env u b) = occupiedCells b))
  | .upsert stay generation =>
    inferInstanceAs (Decidable (∀ b ∈ s.bookings.get? stay.bookingId,
      upsertWrites b stay generation = true → b.live = true ∨ b.room = none ∨ b.nights = [] ∨
        assignmentChanged b (bookingFields stay generation) = true))
  | .propagate externalId =>
    inferInstanceAs (Decidable (∀ b ∈ s.bookings.findOne (providerBooking externalId),
      isHold s.bookings externalId b = true ∨ occupiedCells b = []))
  | .tick | .assign .. | .close .. | .cancel .. => isTrue trivial

variable {s s' : Store}
variable {generation : ℕ}

theorem agreement_sync (h : Agreement s.bookings s.locks) {env : HrEnv} {u : HrUpdate}
    (hk : MovesNoNightUnlocked s (.sync env u)) :
    Agreement (syncReservationUpdate env s.bookings u).1 s.locks := by
  unfold syncReservationUpdate
  split
  · exact h
  · rename_i b hb
    split
    · exact h
    · have hmem := (mem_of_findOne hb).1
      have hsole : ∀ c ∈ s.bookings, c.id = b.id → c = b := fun c hc hid =>
        eq_of_key hc hmem hid
      refine h.updateSame _ (syncedDocument_id env u) ?_ fun c hc _ => h.settled c hc
      intro c hc hid room night
      rw [hsole c hc hid, ← mem_occupiedCells, ← mem_occupiedCells, hk b hb]

theorem agreement_upsert (h : Agreement s.bookings s.locks) {stay : ExelyStay}
    (hk : MovesNoNightUnlocked s (.upsert stay generation))
    (hs : upsertStore s stay generation = some s') : Agreement s'.bookings s'.locks := by
  obtain ⟨bookings, hbookings, rfl⟩ := Option.map_eq_some_iff.mp hs
  unfold upsertBooking at hbookings
  split at hbookings
  · rename_i hnone
    -- a new booking has no room and takes no locks
    have hcreate : s.createBookingAtomic (bookingFields stay generation) =
        some { s with bookings := bookings } := by
      unfold Store.createBookingAtomic
      rw [hbookings, if_neg (by simp [bookingFields])]
      rfl
    have := h.create rfl (fun hst => by cases hst) hcreate
    simpa [hnone, releaseSome] using this
  · rename_i b hb
    obtain ⟨hmem, hid⟩ := get?_eq_some.mp hb
    have hsole : ∀ c ∈ s.bookings, c.id = b.id → c = b := fun c hc hcid =>
      eq_of_key hc hmem hcid
    split at hbookings
    · rename_i hw
      cases hbookings
      have hpending := h.settled b hmem
      cases hchanged : assignmentChanged b (bookingFields stay generation) with
      | true =>
        have hrelease : releaseNeeded b (bookingFields stay generation) = true := by
          simp [releaseNeeded, hchanged]
        simp only [hb, Option.filter_some, hrelease, if_true, Option.map_some, releaseSome]
        refine h.updateReleased _ (upsertedBooking_id _) ?_ fun _ _ _ => rfl
        intro c hc hcid _
        rw [hsole c hc hcid, upsertedBooking_room, if_pos hchanged]
      | false =>
        have hrelease : releaseNeeded b (bookingFields stay generation) = false := by
          simp [releaseNeeded, hchanged, hpending]
        simp only [hb, Option.filter_some, hrelease, Bool.false_eq_true, if_false,
          Option.map_none, releaseSome]
        refine h.updateSame _ (upsertedBooking_id _) ?_ fun _ _ _ => rfl
        intro c hc hcid room night
        rw [hsole c hc hcid]
        have hroom : (upsertedBooking b (bookingFields stay generation)).room = b.room := by
          rw [upsertedBooking_room, hchanged]
          rfl
        have hlive : (upsertedBooking b (bookingFields stay generation)).live = true := rfl
        cases hr : b.room with
        | none => simp [Booking.covers, hroom, hr]
        | some r =>
          have hdates : b.checkIn = (bookingFields stay generation).checkIn ∧
              b.checkOut = (bookingFields stay generation).checkOut := by
            simp only [assignmentChanged, hr, Option.isSome_some, Bool.true_and,
              Bool.or_eq_false_iff, bne_eq_false_iff_eq] at hchanged
            exact ⟨hchanged.1.2, hchanged.2⟩
          have hnights : (upsertedBooking b (bookingFields stay generation)).nights = b.nights := by
            unfold Booking.nights
            rw [hdates.1, hdates.2]
            rfl
          have hcov : (upsertedBooking b (bookingFields stay generation)).covers room night ↔
              b.covers room night := by
            unfold Booking.covers
            rw [hroom, hnights]
          rw [hcov, hlive]
          rcases hk b hb hw with hl | hn | hn | hn
          · rw [hl]
          · rw [hr] at hn
            cases hn
          · simp [Booking.covers, hn]
          · rw [hchanged] at hn
            cases hn
    · cases hbookings

theorem agreement_cancel (h : Agreement s.bookings s.locks) {booking : ℕ} {version : VersionKey}
    (hs : cancelStore s booking version generation = some s') : Agreement s'.bookings s'.locks := by
  obtain ⟨bookings, hbookings, rfl⟩ := Option.map_eq_some_iff.mp hs
  unfold cancelBooking at hbookings
  split at hbookings
  · rename_i hnone
    cases hbookings
    simpa [hnone, releaseSome] using h
  · rename_i b hb
    obtain ⟨hmem, hid⟩ := get?_eq_some.mp hb
    split at hbookings
    · rename_i hversion
      split at hbookings
      · rename_i harch
        cases hbookings
        have hw : cancelWrites b version generation = false := by simp [cancelWrites, harch]
        simp only [hb, Option.filter_some, hw, Bool.false_and, Bool.false_eq_true, if_false,
          Option.map_none, releaseSome]
        exact h
      · rename_i harch
        split at hbookings
        · rename_i hfence
          cases hbookings
          have hw : cancelWrites b version generation = true := by
            simp [cancelWrites, hversion, harch, hfence]
          cases hrelease : cancelReleases b version with
          | true =>
            simp only [hb, Option.filter_some, hw, hrelease, Bool.and_self, if_true,
              Option.map_some, releaseSome]
            refine h.updateReleased _ (cancelledBooking_id version generation) ?_ fun _ _ _ => rfl
            intro c _ _ hl
            rw [Booking.live, cancelledBooking_status] at hl
            cases hl
          | false =>
            simp only [hb, Option.filter_some, hw, hrelease, Bool.and_false, Bool.false_eq_true,
              if_false, Option.map_none, releaseSome]
            refine h.updateSame _ (cancelledBooking_id version generation) ?_ fun _ _ _ => rfl
            intro c hc hcid room night
            have hcb : c = b := eq_of_key hc hmem hcid
            subst hcb
            have hstatus : c.status = .cancelled := by
              simp only [cancelReleases, cancellationNeeded, Bool.or_eq_false_iff,
                bne_eq_false_iff_eq] at hrelease
              exact hrelease.2.1
            simp [Booking.live, cancelledBooking_status, hstatus, BookingStatus.terminal]
        · cases hbookings
    · cases hbookings

theorem agreement_propagate (h : Agreement s.bookings s.locks) {externalId : ℕ}
    (hk : MovesNoNightUnlocked s (.propagate externalId)) :
    Agreement (propagateStore s externalId).bookings (propagateStore s externalId).locks := by
  -- the hold first
  have hhold : Agreement (releaseUnmatchedReservationHold s.bookings externalId).1
      (propagateStore s externalId).locks := by
    unfold propagateStore releaseUnmatchedReservationHold
    split
    · exact h
    · exact h.updateReleased (fun b => { b with status := .cancelled, isInventoryHold := false })
        (fun _ => rfl) (fun c _ _ hl => by cases hl) fun c hc _ => h.settled c hc
  have hbookings : (propagateStore s externalId).bookings =
      propagateCancellationToBooking s.bookings externalId := rfl
  rw [hbookings]
  unfold propagateCancellationToBooking
  simp only
  split
  · exact hhold
  · rename_i b hb
    refine hhold.updateSame (fun b => { b with status := .cancelled }) (fun _ => rfl) ?_
      fun c hc _ => hhold.settled c hc
    intro c hc hcid room night
    have hcb : c = b := eq_of_key hc (mem_of_findOne hb).1 hcid
    subst hcb
    refine iff_of_false (fun hl => by cases hl.1) ?_
    rintro ⟨hl, hcov⟩
    obtain ⟨x, hx, rfl⟩ := mem_release.mp hc
    have hfind := findOne_release s.bookings externalId
    rw [hb] at hfind
    obtain ⟨y, hy, hyid⟩ := Option.map_eq_some_iff.mp hfind.symm
    have hyx : y = x := by
      refine eq_of_key (mem_of_findOne hy).1 hx (hyid.trans ?_)
      split <;> rfl
    subst hyx
    split at hl
    · cases hl
    · rename_i hnot
      rw [if_neg hnot] at hcov
      rcases hk y hy with hh | hc0
      · exact hnot hh
      · have := mem_occupiedCells.mpr ⟨hl, hcov⟩
        rw [hc0] at this
        cases this

theorem agreement_step {op : Operation} (h : Agreement s.bookings s.locks)
    (hk : MovesNoNightUnlocked s op) (hs : operate s op = some s') :
    Agreement s'.bookings s'.locks := by
  cases op with
  | tick =>
    cases hs
    exact h
  | create doc =>
    simp only [operate] at hs
    split at hs
    · cases hs
    · rename_i hpending
      exact h.create (by simpa using hpending) hk hs
  | assign booking write => exact h.assign hs
  | close booking status => exact h.close hs
  | sync env u =>
    cases hs
    exact agreement_sync h hk
  | upsert stay generation => exact agreement_upsert h hk hs
  | cancel booking version generation => exact agreement_cancel h hs
  | propagate externalId =>
    cases hs
    exact agreement_propagate h hk

/-- In every run whose operations meet their conditions, each non-terminal booking with a
room owns the lock of each of its nights, and each terminal booking owns none. -/
theorem locksAgree_of_movesNoNightUnlocked (h : operations.Reach MovesNoNightUnlocked s) :
    LocksAgree s.bookings s.locks := by
  refine Agreement.locksAgree (h.invariant (fun s => Agreement s.bookings s.locks) ?_
    fun _ _ _ hi hk hs => agreement_step hi hk hs)
  rintro s ⟨hempty, hfree⟩
  have hnone : ∀ b, b ∉ s.bookings := by
    intro b
    rw [hempty]
    exact not_mem_empty
  exact ⟨fun booking room night => iff_of_false (hfree booking room night)
    fun ⟨b, hb, _⟩ => hnone b hb, fun b hb => absurd hb (hnone b)⟩

/-! ### Runs on an empty database -/

def emptyStore : Store where
  bookings := .empty
  locks := fun _ _ => none
  now := 0

theorem init_emptyStore : operations.init emptyStore :=
  ⟨rfl, fun _ _ _ ⟨_, hl, _⟩ => by cases hl⟩

def importedStay : Booking where
  id := 0
  room := some 1
  checkIn := some ⟨10, none⟩
  checkOut := some ⟨11, none⟩
  externalId := some 5

/-- The propagated cancellation of an imported stay leaves its lock behind. -/
theorem cancelled_booking_owns_lock :
    ¬ ∀ s, operations.Reachable s → LocksAgree s.bookings s.locks := by
  intro hall
  obtain ⟨s, hs, hv⟩ := Machine.exists_reachable_of_run [.create importedStay, .propagate 5]
    (M := operations)
    (f := fun s => (s.bookings.rows.map fun b => (b.id, b.status), (s.locks 1 10).map Lock.owner))
    (v := ([(0, .cancelled)], some (.booking 0))) init_emptyStore (by decide +kernel)
  obtain ⟨hrows, hlock⟩ := Prod.mk.inj hv
  obtain ⟨b, hb, hbv⟩ := List.mem_map.mp (hrows ▸ List.mem_cons_self :
    (0, BookingStatus.cancelled) ∈ s.bookings.rows.map fun b => (b.id, b.status))
  obtain ⟨hid, hstatus⟩ := Prod.mk.inj hbv
  obtain ⟨l, hl, ho⟩ := Option.map_eq_some_iff.mp hlock
  exact (hall s hs b hb).2 (by rw [hstatus]; rfl) 1 10 ⟨l, hl, by rw [hid, ho]⟩

def repeatedPull : HrUpdate where
  externalId := 5
  payload := {}
  state := .modified
  updatedAt := some 1

def exelyStay : ExelyStay where
  bookingId := 1
  versionKey := .stamped 3 0
  externalId := 8
  roomType := 0
  checkIn := ⟨10, none⟩
  checkOut := ⟨12, none⟩

/-- An imported stay is moved, the pull repeats what is stored, and an Exely booking is
written twice and cancelled. -/
theorem locksAgree_routine : ∃ s, operations.Reach MovesNoNightUnlocked s ∧
    s.bookings.rows.map (fun b => (b.id, b.room, b.status)) =
      [(0, some 2, .confirmed), (1, some 1, .cancelled)] ∧
    LocksAgree s.bookings s.locks := by
  obtain ⟨s, hs, hv⟩ := Machine.exists_reach_of_runUnder
    [.create importedStay, .assign 0 { room := some 2 }, .sync ⟨fun _ => none, 9⟩ repeatedPull,
      .upsert exelyStay 1, .assign 1 { room := some 1 }, .upsert exelyStay 2,
      .cancel 1 (.stamped 4 0) 3]
    (M := operations) (C := MovesNoNightUnlocked)
    (f := fun s => s.bookings.rows.map fun b => (b.id, b.room, b.status))
    (v := [(0, some 2, .confirmed), (1, some 1, .cancelled)]) init_emptyStore (by decide +kernel)
  exact ⟨s, hs, hv, locksAgree_of_movesNoNightUnlocked hs⟩

end SyrocePms.Provider
