import SyrocePms.Provider.HotelRunner

/-! A HotelRunner reservation as it is delivered, and its split into one reservation for each
room. A room is known by its position in the array. -/

namespace SyrocePms.Provider

open List

variable {i j : ℕ} {h h' : String}

/-- A room of a delivered reservation. States are kept without their letter case. -/
structure DeliveredRoom extends HrRoom where
  state : Option HrState := none
  status : Option HrState := none
  cancelReason : Option ℕ := none
  deriving DecidableEq

/-- A delivered reservation, or the part of one that a room becomes. `messageUid` is the first of
`message_uid`, `ruid` and `uid` that is there. The last three fields are the marks of the split:
the number it was split from, the position, and whether the room is cancelled. -/
structure HrReservation where
  hrNumber : String
  messageUid : Option ℕ := none
  rooms : List DeliveredRoom := []
  total : Option ℚ := none
  checkIn : Option ℤ := none
  checkOut : Option ℤ := none
  guestName : ℕ := 0
  state : Option HrState := none
  status : Option HrState := none
  cancelReason : Option ℕ := none
  updatedAt : Option ℕ := none
  explodedFrom : Option String := none
  roomIndex : Option ℕ := none
  roomCancelled : Bool := false
  deriving DecidableEq

def HrState.isCancelWord : HrState → Bool
  | .canceled | .cancelled => true
  | _ => false

/-- The room has a state or a status of cancellation, or a reason for one. -/
def DeliveredRoom.isCancelled (room : DeliveredRoom) : Bool :=
  room.state.any HrState.isCancelWord || room.status.any HrState.isCancelWord ||
    room.cancelReason.isSome

def subNumber (hrNumber : String) (idx : ℕ) : String :=
  if idx = 0 then hrNumber else hrNumber ++ "-" ++ toString idx

/-- The cancel reason of a part. A room that is cancelled by its state or status keeps the reason
of the reservation. -/
def subCancelReason (r : HrReservation) (room : DeliveredRoom) : Option ℕ :=
  if room.state.any HrState.isCancelWord || room.status.any HrState.isCancelWord then r.cancelReason
  else room.cancelReason

def subState (r : HrReservation) (room : DeliveredRoom) : Option HrState :=
  if room.isCancelled then some .cancelled
  else if r.state.any HrState.isCancelWord then some (room.state.getD .confirmed)
  else r.state

def subReservation (r : HrReservation) (idx : ℕ) (room : DeliveredRoom) : HrReservation :=
  { r with
    hrNumber := subNumber r.hrNumber idx
    rooms := [room]
    total := some ((hotelrunnerRoomGuestTotal room.toHrRoom).getD 0)
    checkIn := room.checkIn.or r.checkIn
    checkOut := room.checkOut.or r.checkOut
    state := subState r room
    cancelReason := subCancelReason r room
    explodedFrom := some r.hrNumber
    roomIndex := some idx
    roomCancelled := room.isCancelled }

def explodeMultiRoomReservation (r : HrReservation) : List HrReservation :=
  match r.rooms with
  | [] | [_] => [r]
  | rooms => rooms.mapIdx (subReservation r)

def HrReservation.isCancellation (r : HrReservation) : Bool :=
  r.state.any HrState.isCancelWord || r.roomCancelled || r.cancelReason.isSome

/-- The fields that the update of a booking reads. -/
def HrReservation.payload (r : HrReservation) : HrPayload where
  exploded := r.explodedFrom.any fun number => number != ""
  total := r.total
  rooms := r.rooms.map DeliveredRoom.toHrRoom
  checkIn := r.checkIn
  checkOut := r.checkOut
  guestName := r.guestName

/-! ### Numbers -/

theorem append_cons_inj_of_notMem_right {α : Type*} {xs ys ds es : List α} {a : α} (hd : a ∉ ds)
    (he : a ∉ es) (h : xs ++ a :: ds = ys ++ a :: es) : xs = ys ∧ ds = es := by
  have hnil {as ds es : List α} (hd : a ∉ ds) (h : a :: ds = as ++ a :: es) : as = [] ∧ ds = es := by
    cases as with
    | nil => exact ⟨rfl, (List.cons.inj h).2⟩
    | cons b as =>
      rw [(List.cons.inj h).2] at hd
      exact absurd (mem_append_right _ mem_cons_self) hd
  obtain ⟨as, rfl, htail⟩ | ⟨as, rfl, htail⟩ := append_eq_append_iff.mp h
  · obtain ⟨rfl, hde⟩ := hnil hd htail
    exact ⟨(append_nil _).symm, hde⟩
  · obtain ⟨rfl, hde⟩ := hnil he htail
    exact ⟨append_nil _, hde.symm⟩

theorem toList_toString (i : ℕ) : (toString i).toList = Nat.toDigits 10 i := Nat.toList_repr

theorem dash_notMem_toString (i : ℕ) : '-' ∉ (toString i).toList := by
  rw [toList_toString]
  intro h
  exact absurd (Nat.isDigit_of_mem_toDigits (by decide) (by decide) h) (by decide)

theorem toDigits_injective (h : Nat.toDigits 10 i = Nat.toDigits 10 j) : i = j := by
  have hnumber := congrArg (Nat.ofDigitChars 10 · 0) h
  simpa [Nat.ofDigitChars_toDigits] using hnumber

/-- Behind the last dash stands the position. -/
theorem dashed_inj (heq : h ++ "-" ++ toString i = h' ++ "-" ++ toString j) : h = h' ∧ i = j := by
  have hlist : h.toList ++ '-' :: (toString i).toList = h'.toList ++ '-' :: (toString j).toList := by
    simpa using congrArg String.toList heq
  obtain ⟨hnumber, hdigits⟩ :=
    append_cons_inj_of_notMem_right (dash_notMem_toString i) (dash_notMem_toString j) hlist
  rw [toList_toString, toList_toString] at hdigits
  exact ⟨String.toList_injective hnumber, toDigits_injective hdigits⟩

/-- Two parts have one number only when they are the same part, or one is the first part of a
reservation whose own number is that of another part of the other. -/
theorem subNumber_eq_iff : subNumber h i = subNumber h' j ↔
    (h = h' ∧ i = j) ∨ (i = 0 ∧ j ≠ 0 ∧ h = subNumber h' j) ∨ (j = 0 ∧ i ≠ 0 ∧ h' = subNumber h i) := by
  by_cases hi : i = 0 <;> by_cases hj : j = 0
  · simp [subNumber, hi, hj]
  · simp [subNumber, hi, hj, Ne.symm hj]
  · simp [subNumber, hi, hj, eq_comm]
  · simp only [subNumber, hi, hj, if_false, false_and, or_false]
    exact ⟨dashed_inj, fun ⟨hnumber, hij⟩ => by rw [hnumber, hij]⟩

theorem subNumber_ne_self (hj : j ≠ 0) : subNumber h j ≠ h := by
  intro heq
  have hlength := congrArg (fun x : String => x.toList.length) heq
  simp [subNumber, hj] at hlength

/-- The parts of one reservation have different numbers. -/
theorem subNumber_injective (h : String) : Function.Injective (subNumber h) := by
  intro i j hij
  obtain ⟨-, rfl⟩ | ⟨rfl, hj, hself⟩ | ⟨rfl, hi, hself⟩ := subNumber_eq_iff.mp hij
  · rfl
  · exact absurd hself.symm (subNumber_ne_self hj)
  · exact absurd hself.symm (subNumber_ne_self hi)

/-! ### The parts -/

variable {part r : HrReservation}

theorem hrNumber_explode (h : (explodeMultiRoomReservation r)[i]? = some part) :
    part.hrNumber = subNumber r.hrNumber i := by
  have hself : ∀ {i : ℕ}, [r][i]? = some part → part.hrNumber = subNumber r.hrNumber i := by
    intro i hi
    obtain ⟨hlt, rfl⟩ := List.getElem?_eq_some_iff.mp hi
    have hzero : i = 0 := by simpa using hlt
    subst hzero
    rfl
  unfold explodeMultiRoomReservation at h
  split at h
  · exact hself h
  · exact hself h
  · rw [getElem?_mapIdx] at h
    obtain ⟨room, -, rfl⟩ := Option.map_eq_some_iff.mp h
    rfl

theorem updatedAt_explode (h : part ∈ explodeMultiRoomReservation r) :
    part.updatedAt = r.updatedAt := by
  unfold explodeMultiRoomReservation at h
  split at h
  · rw [mem_singleton.mp h]
  · rw [mem_singleton.mp h]
  · obtain ⟨i, hi, rfl⟩ := mem_mapIdx.mp h
    rfl

end SyrocePms.Provider
