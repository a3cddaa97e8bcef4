import SyrocePms.ChannelCalendar.Ceiling

/-! `prepare_exely_remaining_values`: the remaining values of a request, automatic or entered. The ceiling
of an automatic value is computed from the rooms of the types that the request asks automatically, and
from all bookings. Two requests for one room type are compared. -/

namespace SyrocePms.ChannelCalendar

open Lib List
open Atomic (RoomTypeName)

/-- A row of `exely_room_mappings`. The two API codes count by whether they are blank. -/
structure RoomMapping (δ : Type) where
  roomCode : δ
  ratePlanCode : δ
  pmsRoomType : RoomTypeName
  apiRoom : Bool := false
  apiRate : Bool := false
  syncAvailability : Bool := true

/-- What a request reads. The bookings are those that the query for two dates finds. -/
structure CalendarState (ρ δ : Type) where
  mappings : List (RoomMapping δ)
  rooms : List (PhysicalRoom ρ)
  bookings : ℤ → ℤ → List (ActiveBooking ρ)
  locks : List (RoomNightLock ρ)

/-- `pairs`, `room_values` and `selected_days`. A value of `none` asks for automatic stock. -/
structure RemainingRequest (δ : Type) where
  pairs : List (δ × δ)
  roomValues : Dict δ (Option ℤ)
  start : ℤ
  last : ℤ
  selectedDays : Option (List ℤ) := none

/-- The detail of `_blocked`. -/
structure Blocked (δ : Type) where
  errorCode : String
  message : String
  statusCode : ℕ := 409
  roomTypeCode : Option δ := none

inductive AvailabilityMode where
  | automatic
  | manualRemaining

structure RemainingAvailabilityPlan (δ : Type) where
  baseValues : Dict (δ × ℤ) (Option ℤ)
  remainingValues : Dict (δ × ℤ) ℤ
  modes : Dict δ AvailabilityMode

variable {ρ δ : Type}

def mappingRequired (room : δ) (message : String) : Blocked δ :=
  ⟨"EXELY_REMAINING_MAPPING_REQUIRED", message, 409, some room⟩

def inventoryIncomplete (message : String) : Blocked δ := ⟨"EXELY_REMAINING_INVENTORY_INCOMPLETE", message, 409, none⟩

def syncRequired (message : String) : Blocked δ := ⟨"EXELY_REMAINING_SYNC_REQUIRED", message, 409, none⟩

def lastYear : ℤ := 3651695

def requestedDays (q : RemainingRequest δ) : List ℤ :=
  (daysBetween q.start q.last).filter fun day => q.selectedDays.all fun selected => day % 7 ∈ selected

variable [DecidableEq ρ] [DecidableEq δ]

def mappingOf (mappings : List (RoomMapping δ)) (p : δ × δ) : Option (RoomMapping δ) :=
  match mappings.filter fun m => m.roomCode = p.1 ∧ m.ratePlanCode = p.2 with
  | [m] => some m
  | _ => none

/-- `types` and `availability_owners`. -/
structure Targets (δ : Type) where
  types : Dict δ RoomTypeName
  owners : List δ

def resolvePair (mappings : List (RoomMapping δ)) (inventory : Dict RoomTypeName (CategoryRooms ρ)) (s : Targets δ) (p : δ × δ) :
    Except (Blocked δ) (Targets δ) :=
  match mappingOf mappings p with
  | none => .error (mappingRequired p.1 "Seçili oda/tarife için tek ve açık bir PMS eşleştirmesi gerekli.")
  | some m =>
    if m.pmsRoomType.truthy = false then
      .error (mappingRequired p.1 "Seçili oda/tarife için tek ve açık bir PMS eşleştirmesi gerekli.")
    else if inventory.get? m.pmsRoomType = none ∨ (s.types.get? p.1).any (· ≠ m.pmsRoomType) = true then
      .error (mappingRequired p.1 "Oda eşleştirmesi fiziksel PMS kategorisiyle doğrulanamadı.")
    else if m.apiRoom ≠ m.apiRate then
      .error ⟨"EXELY_PARTIAL_API_PAIR", "Oda ve tarife API kodları birlikte eşleştirilmelidir.", 409, none⟩
    else .ok ⟨s.types.update p.1 fun _ => m.pmsRoomType, if m.syncAvailability then p.1 :: s.owners else s.owners⟩

def checkOwners (mappings : List (RoomMapping δ)) (roomValues : Dict δ (Option ℤ)) (s : Targets δ) : Except (Blocked δ) Unit :=
  if ¬ (s.types.entries.all fun e => e.1 ∈ s.owners && (roomValues.get? e.1).isSome) = true then
    .error (syncRequired "Her oda için müsaitlik eşleştirmesi açık bir tarife seçin.")
  else if ¬ (s.types.entries.all fun e => (mappings.filter fun m => m.roomCode = e.1 ∧ m.syncAvailability = true).length = 1) = true then
    .error (syncRequired "Her oda için yalnız bir müsaitlik tarifesi eşleştirilmelidir.")
  else .ok ()

def checkStay (inventory : Dict RoomTypeName (CategoryRooms ρ)) (types : Dict δ RoomTypeName) (b : ActiveBooking ρ) :
    Except (Blocked δ) Unit :=
  if (bookingRoomType inventory b).all (fun t => t ∉ types.entries.map Prod.snd) = true then .ok ()
  else if b.checkIn.any (fun checkIn => b.checkOut.any (checkIn < ·)) = true then .ok ()
  else .error (inventoryIncomplete "Rezervasyon tarihleri doğrulanamadı; hiçbir kayıt değiştirilmedi.")

def automaticTypes (roomValues : Dict δ (Option ℤ)) (types : Dict δ RoomTypeName) : List RoomTypeName :=
  (types.entries.filter fun e => roomValues.get? e.1 = some none).map Prod.snd

def automaticCapacities (inventory : Dict RoomTypeName (CategoryRooms ρ)) (bookings : List (ActiveBooking ρ))
    (locks : List (RoomNightLock ρ)) (q : RemainingRequest δ) (types : Dict δ RoomTypeName) :
    Except (Blocked δ) (Dict (RoomTypeName × ℤ) ℤ) :=
  if automaticTypes q.roomValues types = [] then .ok .empty
  else
    match lockAdjustedCapacities (inventory.filter fun t => t ∈ automaticTypes q.roomValues types) bookings locks q.start q.last with
    | .ok caps => .ok caps
    | .error _ => .error ⟨"EXELY_REMAINING_INVENTORY_UNAVAILABLE",
        "Otomatik müsaitlik için güncel oda-gece kapasitesi doğrulanamadı; hiçbir kayıt değiştirilmedi.", 503, none⟩

def netOf (q : RemainingRequest δ) (room : δ) : Option ℤ := (q.roomValues.get? room).getD none

def remainingPlan (q : RemainingRequest δ) (types : Dict δ RoomTypeName) (sold : Dict (RoomTypeName × ℤ) ℕ)
    (caps : Dict (RoomTypeName × ℤ) ℤ) : Except (Blocked δ) (RemainingAvailabilityPlan δ) :=
  if (types.entries.any fun e => (netOf q e.1).any fun net => net < 0 ∨ 999 < net) = true then
    .error ⟨"EXELY_REMAINING_VALUE_INVALID", "Net müsaitlik sıfır veya pozitif tam sayı olmalıdır.", 409, none⟩
  else
    .ok
      { baseValues := .ofPairs (types.entries.flatMap fun e => (requestedDays q).map fun day =>
          ((e.1, day), (netOf q e.1).map fun net => net + sold.count (e.2, day)))
        remainingValues := .ofPairs (types.entries.flatMap fun e => (requestedDays q).map fun day =>
          ((e.1, day), (netOf q e.1).getD ((caps.get? (e.2, day)).getD 0)))
        modes := .ofPairs (types.entries.map fun e => (e.1, if netOf q e.1 = none then .automatic else .manualRemaining)) }

def complete (inventory : Dict RoomTypeName (CategoryRooms ρ)) : Bool :=
  (roomTypeById inventory).entries.length = (inventory.entries.map fun e => e.2.total).sum

def prepareExelyRemainingValues (db : CalendarState ρ δ) (q : RemainingRequest δ) : Except (Blocked δ) (RemainingAvailabilityPlan δ) :=
  let inventory := getRoomCounts db.rooms
  let bookings := (db.bookings q.start q.last).take 10000
  let mappings := db.mappings.take 201
  if 730 < q.last - q.start ∨ lastYear ≤ q.last then
    .error ⟨"EXELY_REMAINING_RANGE_INVALID", "Net müsaitlik için tek gönderimde en fazla 731 gece seçin.", 409, none⟩
  else if requestedDays q = [] ∨ q.pairs = [] ∨ ¬ q.pairs.Nodup then
    .error ⟨"EXELY_REMAINING_SELECTION_INVALID", "En az bir hedef gece ve benzersiz oda/tarife seçin.", 409, none⟩
  else if 201 ≤ mappings.length ∨ 500 ≤ (inventory.entries.map fun e => e.2.total).sum ∨ 10000 ≤ bookings.length then
    .error (inventoryIncomplete "Oda ve rezervasyon verileri eksiksiz doğrulanamadı; hiçbir kayıt değiştirilmedi.")
  else do
    let s ← q.pairs.foldlM (resolvePair mappings inventory) ⟨.empty, []⟩
    checkOwners mappings q.roomValues s
    if complete inventory = false then
      .error (inventoryIncomplete "Fiziksel oda listesi tutarlı değil; hiçbir kayıt değiştirilmedi.")
    else do
      bookings.forM (checkStay inventory s.types)
      let caps ← automaticCapacities inventory bookings db.locks q s.types
      remainingPlan q s.types (buildSoldCountIndex inventory bookings q.start q.last) caps

/-! ### What an automatic value depends on -/

def asksAutomatic (db : CalendarState ρ δ) (q : RemainingRequest δ) (room : δ) (t : RoomTypeName) : Bool :=
  q.pairs.any fun p => p.1 = room && (mappingOf (db.mappings.take 201) p).any (fun m => m.pmsRoomType = t) &&
    q.roomValues.get? room = some none

def isAutomatic (db : CalendarState ρ δ) (q : RemainingRequest δ) (t : RoomTypeName) : Bool := q.pairs.any fun p => asksAutomatic db q p.1 t

def roomBookings (inventory : Dict RoomTypeName (CategoryRooms ρ)) (bookings : List (ActiveBooking ρ)) (t : RoomTypeName) (night : ℤ) : ℕ :=
  bookings.countP fun b => assignedType inventory b = some t && b.activeOn night

def strayBookings (inventory : Dict RoomTypeName (CategoryRooms ρ)) (bookings : List (ActiveBooking ρ)) (automatic : RoomTypeName → Bool)
    (t : RoomTypeName) (night : ℤ) : ℕ :=
  bookings.countP fun b => (assignedType inventory b).any (fun t' => !automatic t') && (b.roomType = t && b.activeOn night)

def takenOf (inventory : Dict RoomTypeName (CategoryRooms ρ)) (rooms : CategoryRooms ρ) (bookings : List (ActiveBooking ρ))
    (locks : List (RoomNightLock ρ)) (t : RoomTypeName) (night : ℤ) : ℕ :=
  unassignedBookings inventory bookings t night + max (roomBookings inventory bookings t night) (lockedRooms rooms locks night)

/-- As many stray bookings for both requests, or no room left by what both count. -/
def SameStock (db : CalendarState ρ δ) (q q' : RemainingRequest δ) (rooms : CategoryRooms ρ) (t : RoomTypeName) (night : ℤ) : Prop :=
  let inventory := getRoomCounts db.rooms
  let bookings := (db.bookings q.start q.last).take 10000
  let taken := takenOf inventory rooms bookings db.locks t night
  strayBookings inventory bookings (isAutomatic db q) t night = strayBookings inventory bookings (isAutomatic db q') t night ∨
    (rooms.total ≤ taken + strayBookings inventory bookings (isAutomatic db q) t night ∧
      rooms.total ≤ taken + strayBookings inventory bookings (isAutomatic db q') t night)

variable {inventory : Dict RoomTypeName (CategoryRooms ρ)} {rooms : CategoryRooms ρ} {bookings : List (ActiveBooking ρ)}
  {mappings : List (RoomMapping δ)} {db : CalendarState ρ δ} {q : RemainingRequest δ} {plan : RemainingAvailabilityPlan δ}
  {s s' : Targets δ} {pairs : List (δ × δ)} {caps : Dict (RoomTypeName × ℤ) ℤ} {b : ActiveBooking ρ} {automatic : RoomTypeName → Bool}
  {t : RoomTypeName} {room : δ} {night v : ℤ}

/-! ### The types of the rooms -/

omit [DecidableEq ρ] in
theorem resolvePair_spec {p : δ × δ} (h : resolvePair mappings inventory s p = .ok s') :
    ∃ m, mappingOf mappings p = some m ∧ m.pmsRoomType.truthy = true ∧ (inventory.get? m.pmsRoomType).isSome = true ∧
      (∀ t, s.types.get? p.1 = some t → t = m.pmsRoomType) ∧ s'.types = s.types.update p.1 fun _ => m.pmsRoomType := by
  unfold resolvePair at h
  split at h
  · cases h
  · rename_i m hm
    split at h
    · cases h
    · rename_i htruthy
      split at h
      · cases h
      · rename_i hknown
        split at h
        · cases h
        · cases h
          rw [not_or] at hknown
          refine ⟨m, hm, by simpa using htruthy, Option.isSome_iff_ne_none.mpr hknown.1, fun t ht => ?_, rfl⟩
          simpa [ht] using hknown.2

omit [DecidableEq ρ] in
theorem resolve_spec (h : pairs.foldlM (resolvePair mappings inventory) s = .ok s') :
    (∀ room t, s.types.get? room = some t → s'.types.get? room = some t) ∧
      (∀ p ∈ pairs, ∃ m, mappingOf mappings p = some m ∧ m.pmsRoomType.truthy = true ∧
        (inventory.get? m.pmsRoomType).isSome = true ∧ s'.types.get? p.1 = some m.pmsRoomType) ∧
      ∀ room t, s'.types.get? room = some t → s.types.get? room = some t ∨ ∃ p ∈ pairs, p.1 = room := by
  induction pairs generalizing s with
  | nil =>
    cases h
    exact ⟨fun _ _ h => h, fun p hp => absurd hp not_mem_nil, fun _ _ h => .inl h⟩
  | cons p pairs ih =>
    rw [foldlM_cons] at h
    obtain ⟨s₁, hstep, h⟩ := Transaction.bind_eq_ok h
    obtain ⟨m, hm, htruthy, hknown, hsame, hs₁⟩ := resolvePair_spec hstep
    obtain ⟨hkept, hpairs, hfrom⟩ := ih h
    have hget (room : δ) : s₁.types.get? room = if room = p.1 then some m.pmsRoomType else s.types.get? room := by
      rw [hs₁, Dict.get?_update]
    refine ⟨fun room t ht => hkept room t ?_, fun p' hp' => ?_, fun room t ht => ?_⟩
    · rw [hget]
      split
      · rename_i heq
        rw [hsame t (heq ▸ ht)]
      · exact ht
    · obtain rfl | hp' := mem_cons.mp hp'
      · exact ⟨m, hm, htruthy, hknown, hkept _ _ (by rw [hget, if_pos rfl])⟩
      · exact hpairs p' hp'
    · obtain ht | ⟨p', hp', hroom⟩ := hfrom room t ht
      · rw [hget] at ht
        split at ht
        · rename_i heq
          exact .inr ⟨p, mem_cons_self, heq.symm⟩
        · exact .inl ht
      · exact .inr ⟨p', mem_cons_of_mem _ hp', hroom⟩

/-! ### The inventory of some types -/

omit [DecidableEq ρ] in
theorem categoryOfRooms_filter : categoryOfRooms (inventory.filter automatic) = (categoryOfRooms inventory).filter fun e => automatic e.2 := by
  rw [categoryOfRooms, categoryOfRooms, Dict.entries_filter]
  induction inventory.entries with
  | nil => rfl
  | cons e entries ih =>
    rw [flatMap_cons, filter_append, ← ih, filter_cons]
    split
    · rename_i he
      simp [filter_map, Function.comp_def, he]
    · rename_i he
      simp [filter_map, Function.comp_def, he]

theorem assignedType_filter (hids : ((categoryOfRooms inventory).map Prod.fst).Nodup) (b : ActiveBooking ρ) :
    assignedType (inventory.filter automatic) b = (assignedType inventory b).filter automatic := by
  have hids' : ((categoryOfRooms (inventory.filter automatic)).map Prod.fst).Nodup := by
    rw [categoryOfRooms_filter]
    exact hids.sublist (filter_sublist.map _)
  unfold assignedType
  cases b.room with
  | none => rfl
  | some id =>
    refine Option.ext fun t => ?_
    rw [Option.bind_some, Option.bind_some, Option.filter_eq_some_iff, roomTypeById, roomTypeById, Dict.get?_eq_some,
      Dict.get?_eq_some, Dict.entries_ofPairs hids, Dict.entries_ofPairs hids', categoryOfRooms_filter, mem_filter]

theorem sellsOn_filter (hids : ((categoryOfRooms inventory).map Prod.fst).Nodup) (hnamed : ∀ t, automatic t = true → t.truthy = true)
    (ht : automatic t = true) (hknown : (inventory.get? t).isSome = true) :
    sellsOn (inventory.filter automatic) t night b = (b.activeOn night && (assignedType inventory b = some t ||
      (b.roomType = t && (assignedType inventory b).all fun t' => !automatic t'))) := by
  have hnotabsent : t ≠ .absent := by
    rintro rfl
    cases hnamed _ ht
  have hfilter (t' : RoomTypeName) : (((inventory.filter automatic).get? t').isSome = true) ↔
      automatic t' = true ∧ (inventory.get? t').isSome = true := by
    simp only [Option.isSome_iff_exists, Dict.get?_filter_eq_some, exists_and_left]
  unfold sellsOn bookingRoomType
  rw [assignedType_filter hids, hnamed t ht, Bool.and_true, Bool.and_comm]
  congr 1
  cases hassigned : (assignedType inventory b) with
  | none =>
    by_cases heq : b.roomType = t
    · simp [heq, hnotabsent, hfilter, ht, hknown]
    · simp [heq]
  | some t' =>
    by_cases hauto : automatic t' = true
    · simp [hauto, hnamed t' hauto, ht, hnamed t ht]
    · have hne : t' ≠ t := fun heq => hauto (heq ▸ ht)
      by_cases heq : b.roomType = t
      · simp [Option.filter_some, hauto, heq, hnotabsent, hfilter, ht, hknown]
      · simp [Option.filter_some, hauto, heq, hne]

theorem unassigned_iff (hassigned : assignedType inventory b = none) (hnotabsent : t ≠ .absent)
    (hknown : (inventory.get? t).isSome = true) : bookingRoomType inventory b = some t ↔ b.roomType = t := by
  unfold bookingRoomType
  rw [hassigned]
  by_cases heq : b.roomType = t
  · simp [heq, hnotabsent, hknown]
  · simp [heq]

theorem countP_filter (hids : ((categoryOfRooms inventory).map Prod.fst).Nodup) (hnamed : ∀ t, automatic t = true → t.truthy = true)
    (ht : automatic t = true) (hknown : (inventory.get? t).isSome = true) (bookings : List (ActiveBooking ρ)) (night : ℤ) :
    bookings.countP (sellsOn (inventory.filter automatic) t night) = roomBookings inventory bookings t night +
        (unassignedBookings inventory bookings t night + strayBookings inventory bookings automatic t night) ∧
      (bookings.countP fun b => isUnassigned (inventory.filter automatic) b && sellsOn (inventory.filter automatic) t night b) =
        unassignedBookings inventory bookings t night + strayBookings inventory bookings automatic t night := by
  have hnotabsent : t ≠ .absent := by
    rintro rfl
    cases hnamed _ ht
  unfold roomBookings unassignedBookings strayBookings
  induction bookings with
  | nil => exact ⟨rfl, rfl⟩
  | cons b bookings ih =>
    obtain ⟨hsold, hunassigned⟩ := ih
    simp only [countP_cons, sellsOn_filter hids hnamed ht hknown, isUnassigned, assignedType_filter hids] at hsold hunassigned ⊢
    rw [hsold, hunassigned]
    cases hactive : b.activeOn night with
    | false => simp
    | true =>
      cases hassigned : assignedType inventory b with
      | none =>
        have hiff := unassigned_iff hassigned hnotabsent hknown
        by_cases heq : b.roomType = t
        · simp [heq, hiff.mpr heq]
          omega
        · simp [heq, mt hiff.mp heq]
      | some t' =>
        by_cases hauto : automatic t' = true
        · by_cases heq : t' = t <;> simp [hauto, heq, ht]
          omega
        · have hne : t' ≠ t := fun heq => hauto (heq ▸ ht)
          by_cases heq : b.roomType = t
          · simp [Option.filter_some, hauto, hne, heq]
            omega
          · simp [Option.filter_some, hauto, hne, heq]

/-! ### The plan -/

theorem plan_spec (h : prepareExelyRemainingValues db q = .ok plan) : ∃ (s : Targets δ) (caps : Dict (RoomTypeName × ℤ) ℤ),
    q.pairs.foldlM (resolvePair (db.mappings.take 201) (getRoomCounts db.rooms)) ⟨.empty, []⟩ = .ok s ∧
      ((categoryOfRooms (getRoomCounts db.rooms)).map Prod.fst).Nodup ∧
      automaticCapacities (getRoomCounts db.rooms) ((db.bookings q.start q.last).take 10000) db.locks q s.types = .ok caps ∧
      remainingPlan q s.types (buildSoldCountIndex (getRoomCounts db.rooms) ((db.bookings q.start q.last).take 10000) q.start q.last)
        caps = .ok plan := by
  simp only [prepareExelyRemainingValues] at h
  split at h
  · cases h
  · split at h
    · cases h
    · split at h
      · cases h
      · obtain ⟨s, hs, h⟩ := Transaction.bind_eq_ok h
        obtain ⟨-, -, h⟩ := Transaction.bind_eq_ok h
        split at h
        · cases h
        · rename_i hcomplete
          obtain ⟨-, -, h⟩ := Transaction.bind_eq_ok h
          obtain ⟨caps, hcaps, hplan⟩ := Transaction.bind_eq_ok h
          refine ⟨s, caps, hs, Dict.nodup_of_length_entries ?_, hcaps, hplan⟩
          rw [length_categoryOfRooms]
          exact of_decide_eq_true ((Bool.not_eq_false _).mp hcomplete)

omit [DecidableEq ρ] in
/-- The types that are computed are those that the request asks automatically. -/
theorem mem_automaticTypes
    (hs : q.pairs.foldlM (resolvePair (db.mappings.take 201) inventory) ⟨.empty, []⟩ = .ok s) :
    t ∈ automaticTypes q.roomValues s.types ↔ isAutomatic db q t = true := by
  obtain ⟨-, hpairs, hfrom⟩ := resolve_spec hs
  simp only [automaticTypes, isAutomatic, asksAutomatic, mem_map, mem_filter, any_eq_true, Bool.and_eq_true,
    decide_eq_true_eq]
  constructor
  · rintro ⟨e, ⟨he, hnone⟩, rfl⟩
    have hget : s.types.get? e.1 = some e.2 := Dict.get?_eq_some.mpr he
    obtain hnil | ⟨p, hp, hroom⟩ := hfrom _ _ hget
    · cases hnil
    · obtain ⟨m, hm, -, -, htype⟩ := hpairs p hp
      rw [hroom, hget] at htype
      exact ⟨p, hp, p, hp, ⟨rfl, by simp [hm, Option.some.inj htype]⟩, by rw [hroom, hnone]⟩
  · rintro ⟨p', hp', p, hp, ⟨hroom, htype⟩, hnone⟩
    obtain ⟨m, hm, -, -, hget⟩ := hpairs p hp
    rw [hm, Option.any_some, decide_eq_true_eq] at htype
    rw [htype] at hget
    exact ⟨(p.1, t), ⟨Dict.get?_eq_some.mp hget, by rw [hroom, hnone]⟩, rfl⟩

omit [DecidableEq ρ] in
theorem asked_spec (hs : q.pairs.foldlM (resolvePair (db.mappings.take 201) inventory) ⟨.empty, []⟩ = .ok s)
    (hasks : asksAutomatic db q room t = true) :
    s.types.get? room = some t ∧ netOf q room = none ∧ (inventory.get? t).isSome = true ∧ isAutomatic db q t = true := by
  obtain ⟨-, hpairs, -⟩ := resolve_spec hs
  obtain ⟨p, hp, hask⟩ := any_eq_true.mp hasks
  simp only [Bool.and_eq_true, decide_eq_true_eq] at hask
  obtain ⟨⟨rfl, htype⟩, hnone⟩ := hask
  obtain ⟨m, hm, -, hknown, hget⟩ := hpairs p hp
  rw [hm, Option.any_some, decide_eq_true_eq] at htype
  rw [htype] at hget hknown
  exact ⟨hget, by rw [netOf, hnone, Option.getD_some], hknown, any_eq_true.mpr ⟨p, hp, hasks⟩⟩

omit [DecidableEq ρ] in
theorem truthy_of_isAutomatic (hs : q.pairs.foldlM (resolvePair (db.mappings.take 201) inventory) ⟨.empty, []⟩ = .ok s)
    (hauto : isAutomatic db q t = true) : t.truthy = true := by
  obtain ⟨-, hpairs, -⟩ := resolve_spec hs
  obtain ⟨p', hp', hasks⟩ := any_eq_true.mp hauto
  obtain ⟨p, hp, hask⟩ := any_eq_true.mp hasks
  simp only [Bool.and_eq_true, decide_eq_true_eq] at hask
  obtain ⟨m, hm, htruthy, -, -⟩ := hpairs p hp
  have htype := hask.1.2
  rw [hm, Option.any_some, decide_eq_true_eq] at htype
  rwa [htype] at htruthy

theorem automatic_value (h : prepareExelyRemainingValues db q = .ok plan) (hasks : asksAutomatic db q room t = true)
    (hv : plan.remainingValues.get? (room, night) = some v) (hrooms : (getRoomCounts db.rooms).get? t = some rooms) :
    v = max 0 ((rooms.total : ℤ) - takenOf (getRoomCounts db.rooms) rooms ((db.bookings q.start q.last).take 10000) db.locks t night -
      strayBookings (getRoomCounts db.rooms) ((db.bookings q.start q.last).take 10000) (isAutomatic db q) t night) := by
  obtain ⟨s, caps, hs, hids, hcaps, hplan⟩ := plan_spec h
  obtain ⟨htype, hnone, hknown, hauto⟩ := asked_spec hs hasks
  have hnamed : ∀ t, isAutomatic db q t = true → t.truthy = true := fun t => truthy_of_isAutomatic hs
  have hfilter : (fun t => decide (t ∈ automaticTypes q.roomValues s.types)) = isAutomatic db q := by
    funext t
    rw [Bool.eq_iff_iff, decide_eq_true_eq, mem_automaticTypes hs]
  unfold automaticCapacities at hcaps
  rw [if_neg (ne_nil_of_mem ((mem_automaticTypes hs).mpr hauto)), hfilter] at hcaps
  split at hcaps
  · rename_i caps' hlocks
    cases hcaps
    unfold remainingPlan at hplan
    split at hplan
    · cases hplan
    · cases hplan
      obtain ⟨e, he, hmem⟩ := mem_flatMap.mp (Dict.mem_of_get?_ofPairs hv)
      obtain ⟨day, hday, heq⟩ := mem_map.mp hmem
      have hsame := Dict.get?_eq_some.mpr he
      cases heq
      rw [htype] at hsame
      have hnight := mem_daysBetween.mp (mem_of_mem_filter hday)
      have hrooms' := Dict.get?_filter_eq_some.mpr ⟨hauto, hrooms⟩
      obtain ⟨v, hceiling⟩ := exists_ceiling hlocks hrooms' hnight
      obtain ⟨hsold, hunassigned⟩ := countP_filter hids hnamed hauto hknown ((db.bookings q.start q.last).take 10000) night
      rw [hnone, Option.getD_none, ← Option.some.inj hsame, hceiling, Option.getD_some, ceiling_eq hlocks hceiling hrooms', hsold,
        hunassigned, ceiling, takenOf]
      omega
  · cases hcaps

/-- Two requests for a room type agree on a night exactly when as many stray bookings name it in one as in
the other, or no room is left in either. -/
theorem automatic_values_agree (db : CalendarState ρ δ) (q q' : RemainingRequest δ) (plan plan' : RemainingAvailabilityPlan δ)
    (room room' : δ) (t : RoomTypeName) (rooms : CategoryRooms ρ) (night v v' : ℤ) (hdates : q.start = q'.start ∧ q.last = q'.last)
    (h : prepareExelyRemainingValues db q = .ok plan) (h' : prepareExelyRemainingValues db q' = .ok plan')
    (hasks : asksAutomatic db q room t = true) (hasks' : asksAutomatic db q' room' t = true)
    (hrooms : (getRoomCounts db.rooms).get? t = some rooms) (hv : plan.remainingValues.get? (room, night) = some v)
    (hv' : plan'.remainingValues.get? (room', night) = some v') :
    v = v' ↔ SameStock db q q' rooms t night := by
  rw [automatic_value h hasks hv hrooms, automatic_value h' hasks' hv' hrooms]
  unfold SameStock
  rw [← hdates.1, ← hdates.2]
  omega

def twoTypes (bookings : List (ActiveBooking ℕ)) : CalendarState ℕ ℕ :=
  ⟨[⟨0, 0, .named 0, false, false, true⟩, ⟨1, 1, .named 1, false, false, true⟩], [⟨1, .named 0⟩, ⟨2, .named 1⟩], fun _ _ => bookings, []⟩

def automaticRequest (rooms : List ℕ) : RemainingRequest ℕ :=
  ⟨rooms.map fun room => (room, room), .ofPairs (rooms.map fun room => (room, none)), 5, 5, none⟩

/-- A guest in a room of the type that the booking names. -/
theorem automatic_values_agree_stayed : (0 : ℤ) = 0 ↔ SameStock (twoTypes [⟨some 1, .named 0, some 5, some 6⟩])
    (automaticRequest [0]) (automaticRequest [0, 1]) ⟨1, [1], rfl⟩ (.named 0) 5 :=
  automatic_values_agree (twoTypes [⟨some 1, .named 0, some 5, some 6⟩]) (automaticRequest [0]) (automaticRequest [0, 1]) _ _ 0 0
    (.named 0) ⟨1, [1], rfl⟩ 5 0 0 ⟨rfl, rfl⟩ rfl rfl (by decide) (by decide) rfl rfl rfl

/-- A guest who was moved to a room of the other type takes a room of the first, unless both are asked. -/
theorem stock_depends_on_selection : ¬ ∀ plan plan' v v',
    prepareExelyRemainingValues (twoTypes [⟨some 2, .named 0, some 5, some 6⟩]) (automaticRequest [0]) = .ok plan →
    prepareExelyRemainingValues (twoTypes [⟨some 2, .named 0, some 5, some 6⟩]) (automaticRequest [0, 1]) = .ok plan' →
    plan.remainingValues.get? (0, 5) = some v → plan'.remainingValues.get? (0, 5) = some v' → v = v' := by
  intro h
  have hsame := h _ _ 0 1 rfl rfl rfl rfl
  exact absurd hsame (by decide)

end SyrocePms.ChannelCalendar
