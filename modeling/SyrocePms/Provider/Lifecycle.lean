import SyrocePms.Provider.HotelRunner
import SyrocePms.Provider.Exely

/-! Provider events against the lifecycle of the PMS: for each of the four paths by which
a provider changes a stored booking, exactly when the change stays on the transition table
and leaves the amount already paid alone. -/

namespace SyrocePms.Provider

open Reservation Lib BookingStatus Collection

variable {b : Booking}

inductive ProviderEvent where
  | sync (u : HrUpdate)
  | upsert (stay : ExelyStay) (generation : ℕ)
  | cancel (booking : ℕ) (version : VersionKey) (generation : ℕ)
  | propagate (externalId : ℕ)

/-- The stored bookings after the event. An event whose path raises changes nothing. -/
def applyEvent (env : HrEnv) (bookings : Bookings) : ProviderEvent → Bookings
  | .sync u => (syncReservationUpdate env bookings u).1
  | .upsert stay generation => (upsertBooking bookings stay generation).getD bookings
  | .cancel booking version generation =>
    (cancelBooking bookings booking version generation).getD bookings
  | .propagate externalId => propagateCancellationToBooking bookings externalId

/-- One booking before and after: its status stays or moves along the table, a checked-in,
checked-out or no-show booking does not become confirmed or cancelled, and the paid amount
stays. -/
def Respects (b c : Booking) : Prop :=
  validateTransition b.status c.status = true ∧
    (b.status = .checkedIn ∨ b.status = .checkedOut ∨ b.status = .noShow →
      c.status ≠ .confirmed ∧ c.status ≠ .cancelled) ∧
    c.paidAmount = b.paidAmount

def RespectsLifecycle (before after : Bookings) : Prop :=
  ∀ b ∈ before, ∀ c ∈ after, c.id = b.id → Respects b c

/-- The table itself keeps an arrived or departed guest from becoming confirmed or
cancelled. -/
theorem respects_iff {c : Booking} :
    Respects b c ↔ validateTransition b.status c.status = true ∧ c.paidAmount = b.paidAmount := by
  constructor
  · exact fun h => ⟨h.1, h.2.2⟩
  · rintro ⟨hv, hp⟩
    refine ⟨hv, ?_, hp⟩
    rcases validateTransition_iff.mp hv with he | hm
    · rw [← he]
      rintro (h | h | h) <;> simp [h]
    · rintro (h | h | h) <;> simp_all [validTransitions]

theorem respects_self (b : Booking) : Respects b b :=
  respects_iff.mpr ⟨validateTransition_self _, rfl⟩

theorem respectsLifecycle_self (bookings : Bookings) : RespectsLifecycle bookings bookings := by
  intro b hb c hc hid
  rw [eq_of_key hc hb hid]
  exact respects_self b

theorem respectsLifecycle_update {bookings : Bookings} (hb : b ∈ bookings) {f : Booking → Booking}
    {hf : ∀ r, (f r).id = r.id} :
    RespectsLifecycle bookings (bookings.update b.id f hf) ↔ Respects b (f b) := by
  constructor
  · intro h
    exact h b hb (f b) (mem_update.mpr (.inr ⟨b, hb, rfl, rfl⟩)) (hf b)
  · intro h x hx c hc hid
    rcases mem_update.mp hc with ⟨hc, -⟩ | ⟨r, hr, hrid, rfl⟩
    · rw [eq_of_key hc hx hid]
      exact respects_self x
    · rw [hf] at hid
      have hxr : r = x := eq_of_key hr hx hid
      have hbr : r = b := eq_of_key hr hb hrid
      subst hxr hbr
      exact h

/-! ### Each path -/

/-- The pull respects the lifecycle unless it writes a status off the table. -/
theorem sync_respects_iff (env : HrEnv) (bookings : Bookings) (u : HrUpdate) :
    RespectsLifecycle bookings (syncReservationUpdate env bookings u).1 ↔
      ∀ b ∈ bookings.findOne (providerBooking u.externalId),
        appliesOperationally env b u = true →
          validateTransition b.status (mappedStatus u.state) = true := by
  unfold syncReservationUpdate
  split
  · rename_i hnone
    simp [hnone, respectsLifecycle_self]
  · rename_i b hb
    have hmem := (mem_of_findOne hb).1
    simp only [hb, Option.mem_some_iff, forall_eq']
    split
    · rename_i hstale
      have hst : updateIsStale b u = true := (Bool.and_eq_true_iff.mp hstale).1
      simp [respectsLifecycle_self, not_appliesOperationally_of_stale hst]
    · rw [respectsLifecycle_update hmem, respects_iff]
      cases happ : appliesOperationally env b u <;> simp [happ]

theorem upsert_respects_iff (bookings : Bookings) (stay : ExelyStay) (g : ℕ) :
    RespectsLifecycle bookings ((upsertBooking bookings stay g).getD bookings) ↔
      ∀ b ∈ bookings.get? stay.bookingId, upsertWrites b stay g = true →
        (b.status = .pending ∨ b.status = .confirmed) ∧ b.paidAmount = 0 := by
  unfold upsertBooking
  split
  · rename_i hnone
    simp only [hnone, Option.mem_def, reduceCtorEq, false_implies, implies_true, iff_true]
    cases hins : bookings.insertOne (bookingFields stay g) with
    | none => exact respectsLifecycle_self bookings
    | some after =>
      intro b hb c hc hid
      rcases (mem_insertOne hins).mp hc with hc | rfl
      · rw [eq_of_key hc hb hid]
        exact respects_self b
      · exact absurd hid.symm (get?_eq_none.mp hnone b hb)
  · rename_i b hb
    obtain ⟨hmem, hid⟩ := get?_eq_some.mp hb
    simp only [hb, Option.mem_some_iff, forall_eq']
    split
    · rename_i hw
      rw [Option.getD_some, respectsLifecycle_update hmem, respects_iff,
        upsertedBooking_status, upsertedBooking_paidAmount]
      simp only [hw, true_implies]
      refine and_congr ?_ eq_comm
      cases b.status <;> simp [validateTransition, validTransitions]
    · rename_i hw
      simp [hw, respectsLifecycle_self]

theorem cancel_respects_iff (bookings : Bookings) (booking : ℕ) (version : VersionKey)
    (g : ℕ) :
    RespectsLifecycle bookings ((cancelBooking bookings booking version g).getD bookings) ↔
      ∀ b ∈ bookings.get? booking, cancelWrites b version g = true →
        validateTransition b.status .cancelled = true := by
  unfold cancelBooking
  split
  · rename_i hnone
    simp [hnone, respectsLifecycle_self]
  · rename_i b hb
    obtain ⟨hmem, hid⟩ := get?_eq_some.mp hb
    simp only [hb, Option.mem_some_iff, forall_eq']
    split
    · rename_i hversion
      split
      · rename_i harch
        simp [respectsLifecycle_self, cancelWrites, harch]
      · rename_i harch
        rw [Bool.not_eq_true] at harch
        split
        · rename_i hfence
          rw [Option.getD_some, respectsLifecycle_update hmem, respects_iff,
            cancelledBooking_status]
          simp [cancelWrites, hversion, harch, hfence, cancelledBooking]
        · rename_i hfence
          simp [respectsLifecycle_self, cancelWrites, hfence]
    · rename_i hversion
      have : cancelWrites b version g = false := by
        simp only [cancelWrites, Bool.and_eq_false_iff]
        exact .inl (.inl (by simpa using hversion))
      simp [respectsLifecycle_self, this]

theorem propagate_respects_iff (bookings : Bookings) (externalId : ℕ) :
    RespectsLifecycle bookings (propagateCancellationToBooking bookings externalId) ↔
      (∀ h ∈ bookings.findOne (activeHold externalId),
        validateTransition h.status .cancelled = true) ∧
      ∀ b ∈ bookings.findOne (providerBooking externalId),
        validateTransition b.status .cancelled = true := by
  have hhold : ∀ h, bookings.findOne (activeHold externalId) = some h →
      isHold bookings externalId h = true := fun h hf => by simp [isHold, hf]
  have htarget : ∀ b, bookings.findOne (providerBooking externalId) = some b →
      isTarget bookings externalId b = true := fun b hf => by simp [isTarget, hf]
  constructor
  · intro h
    constructor
    · intro x hx
      have hmem := (mem_of_findOne hx).1
      have hc := h x hmem _ (mem_propagate.mpr ⟨x, hmem, rfl⟩) (by
        simp only
        split <;> split <;> rfl)
      have := (respects_iff.mp hc).1
      simp only [hhold x hx, if_true] at this
      split at this <;> exact this
    · intro x hx
      have hmem := (mem_of_findOne hx).1
      have hc := h x hmem _ (mem_propagate.mpr ⟨x, hmem, rfl⟩) (by
        simp only
        split <;> split <;> rfl)
      have := (respects_iff.mp hc).1
      simpa only [htarget x hx, if_true] using this
  · rintro ⟨hh, ht⟩ b hb c hc hid
    obtain ⟨x, hx, rfl⟩ := mem_propagate.mp hc
    have hxb : x = b := by
      refine eq_of_key hx hb ?_
      rw [← hid]
      simp only
      split <;> split <;> rfl
    subst hxb
    have hholdOk : isHold bookings externalId x = true →
        validateTransition x.status .cancelled = true := by
      intro hi
      cases hf : bookings.findOne (activeHold externalId) with
      | none => simp [isHold, hf] at hi
      | some h =>
        have hid : x.id = h.id := by simpa [isHold, hf] using hi
        have hhx : h = x := eq_of_key (mem_of_findOne hf).1 hx hid.symm
        exact hhx ▸ hh h hf
    have htargetOk : isTarget bookings externalId x = true →
        validateTransition x.status .cancelled = true := by
      intro hi
      cases hf : bookings.findOne (providerBooking externalId) with
      | none => simp [isTarget, hf] at hi
      | some b =>
        have hid : x.id = b.id := by simpa [isTarget, hf] using hi
        have hbx : b = x := eq_of_key (mem_of_findOne hf).1 hx hid.symm
        exact hbx ▸ ht b hf
    rw [respects_iff]
    simp only
    split
    · rename_i hi
      refine ⟨htargetOk hi, ?_⟩
      split <;> rfl
    · split
      · rename_i hi
        exact ⟨hholdOk hi, rfl⟩
      · exact ⟨validateTransition_self _, rfl⟩

/-! ### All paths -/

def StaysInLifecycle (env : HrEnv) (bookings : Bookings) : ProviderEvent → Prop
  | .sync u => ∀ b ∈ bookings.findOne (providerBooking u.externalId),
      appliesOperationally env b u = true →
        validateTransition b.status (mappedStatus u.state) = true
  | .upsert stay g => ∀ b ∈ bookings.get? stay.bookingId, upsertWrites b stay g = true →
      (b.status = .pending ∨ b.status = .confirmed) ∧ b.paidAmount = 0
  | .cancel booking version g => ∀ b ∈ bookings.get? booking, cancelWrites b version g = true →
      validateTransition b.status .cancelled = true
  | .propagate externalId =>
      (∀ h ∈ bookings.findOne (activeHold externalId),
        validateTransition h.status .cancelled = true) ∧
      ∀ b ∈ bookings.findOne (providerBooking externalId),
        validateTransition b.status .cancelled = true

/-- A provider event respects the lifecycle of every stored booking exactly under the
condition of its path. -/
theorem applyEvent_respects_iff (env : HrEnv) (bookings : Bookings) (event : ProviderEvent) :
    RespectsLifecycle bookings (applyEvent env bookings event) ↔
      StaysInLifecycle env bookings event := by
  cases event with
  | sync u => exact sync_respects_iff env bookings u
  | upsert stay g => exact upsert_respects_iff bookings stay g
  | cancel booking version g => exact cancel_respects_iff bookings booking version g
  | propagate externalId => exact propagate_respects_iff bookings externalId

def guestInHouse : Booking where
  id := 1
  checkIn := some ⟨10, none⟩
  checkOut := some ⟨12, none⟩
  status := .checkedIn
  paidAmount := 250
  bookingSource := .exely
  providerVersionKey := some (.stamped 5 0)

def newerVersion : ExelyStay where
  bookingId := 1
  versionKey := .stamped 6 0
  externalId := 7
  roomType := 0
  checkIn := ⟨10, none⟩
  checkOut := ⟨12, none⟩

/-- A newer Exely version takes a checked-in guest back to confirmed and forgets the
payment. -/
theorem upsert_leaves_lifecycle : ¬ ∀ env bookings event,
    RespectsLifecycle bookings (applyEvent env bookings event) := by
  intro h
  have hc := (upsert_respects_iff _ newerVersion 1).mp
    (h ⟨fun _ => none, 11⟩ ⟨[guestInHouse], List.nodup_singleton _⟩ (.upsert newerVersion 1))
  have := (hc guestInHouse rfl (by decide +kernel)).2
  revert this
  decide +kernel

end SyrocePms.Provider
