import SyrocePms.Atomic.SellableRooms
import SyrocePms.Lib.Days
import SyrocePms.Lib.Dict
import SyrocePms.Lib.Transaction

/-! The occupancy projection of the channel calendars: the rooms of each category, and the nights that
the active bookings sell. A booking counts under the category of its room, or else under the one it
names. -/

namespace SyrocePms.ChannelCalendar

open Lib List
open Atomic (RoomTypeName LockClass)

/-- The `counts` and `ids` of one category. -/
structure CategoryRooms (ρ : Type) where
  total : ℕ
  ids : List ρ
  total_eq : total = ids.length

/-- A physical room. A missing `room_type` is read as the empty text. -/
structure PhysicalRoom (ρ : Type) where
  id : ρ
  roomType : RoomTypeName

/-- An active booking. A `room_type` that is no text is absent, and so is a date that is none. -/
structure ActiveBooking (ρ : Type) where
  room : Option ρ
  roomType : RoomTypeName
  checkIn : Option ℤ
  checkOut : Option ℤ

variable {ρ : Type}

def addRoom (o : Option (CategoryRooms ρ)) (id : ρ) : CategoryRooms ρ :=
  o.elim ⟨1, [id], rfl⟩ fun c => ⟨c.total + 1, c.ids ++ [id], by simp [c.total_eq]⟩

def getRoomCounts (rooms : List (PhysicalRoom ρ)) : Dict RoomTypeName (CategoryRooms ρ) :=
  (rooms.take 500).foldl (fun d r => d.update r.roomType fun o => addRoom o r.id) .empty

def ActiveBooking.activeOn (b : ActiveBooking ρ) (night : ℤ) : Bool :=
  b.checkIn.any (· ≤ night) && b.checkOut.any (night < ·)

def ActiveBooking.nights (b : ActiveBooking ρ) (start last : ℤ) : List ℤ :=
  match b.checkIn, b.checkOut with
  | some checkIn, some checkOut => daysBetween (max start checkIn) (min last (checkOut - 1))
  | _, _ => []

variable [DecidableEq ρ] {inventory : Dict RoomTypeName (CategoryRooms ρ)} {bookings : List (ActiveBooking ρ)}
  {b : ActiveBooking ρ} {start last night : ℤ} {category : RoomTypeName}

def categoryOfRooms (inventory : Dict RoomTypeName (CategoryRooms ρ)) : List (ρ × RoomTypeName) :=
  inventory.entries.flatMap fun e => e.2.ids.map fun id => (id, e.1)

def roomTypeById (inventory : Dict RoomTypeName (CategoryRooms ρ)) : Dict ρ RoomTypeName := .ofPairs (categoryOfRooms inventory)

def assignedType (inventory : Dict RoomTypeName (CategoryRooms ρ)) (b : ActiveBooking ρ) : Option RoomTypeName :=
  b.room.bind (roomTypeById inventory).get?

def bookingRoomType (inventory : Dict RoomTypeName (CategoryRooms ρ)) (b : ActiveBooking ρ) : Option RoomTypeName :=
  ((assignedType inventory b).filter RoomTypeName.truthy).or
    (if b.roomType ≠ .absent ∧ (inventory.get? b.roomType).isSome = true then some b.roomType else none)

def soldKeys (inventory : Dict RoomTypeName (CategoryRooms ρ)) (start last : ℤ) (b : ActiveBooking ρ) : List (RoomTypeName × ℤ) :=
  match (bookingRoomType inventory b).filter RoomTypeName.truthy with
  | some category => (b.nights start last).map fun night => (category, night)
  | none => []

def buildSoldCountIndex (inventory : Dict RoomTypeName (CategoryRooms ρ)) (bookings : List (ActiveBooking ρ)) (start last : ℤ) :
    Dict (RoomTypeName × ℤ) ℕ :=
  bookings.foldl (fun sold b => (soldKeys inventory start last b).foldl Dict.tally sold) .empty

/-! ### The nights sold -/

def sellsOn (inventory : Dict RoomTypeName (CategoryRooms ρ)) (category : RoomTypeName) (night : ℤ) (b : ActiveBooking ρ) : Bool :=
  bookingRoomType inventory b = some category && category.truthy && b.activeOn night

omit [DecidableEq ρ] in
theorem nights_count (hnight : start ≤ night ∧ night ≤ last) :
    (b.nights start last).count night = if b.activeOn night = true then 1 else 0 := by
  unfold ActiveBooking.nights ActiveBooking.activeOn
  split
  · rename_i checkIn checkOut hin hout
    rw [List.Nodup.count (nodup_daysBetween _ _)]
    refine if_congr ?_ rfl rfl
    rw [mem_daysBetween, hin, hout]
    simp only [Option.any_some, Bool.and_eq_true, decide_eq_true_eq]
    omega
  · rename_i hnone
    cases hin : b.checkIn with
    | none => simp
    | some checkIn =>
      cases hout : b.checkOut with
      | none => simp
      | some checkOut => exact absurd hout (hnone checkIn checkOut hin)

theorem count_soldKeys (hnight : start ≤ night ∧ night ≤ last) :
    (soldKeys inventory start last b).count (category, night) = if sellsOn inventory category night b = true then 1 else 0 := by
  unfold soldKeys sellsOn
  cases htype : (bookingRoomType inventory b).filter RoomTypeName.truthy with
  | none =>
    rw [count_nil, if_neg]
    intro h
    simp only [Bool.and_eq_true, decide_eq_true_eq] at h
    rw [h.1.1, Option.filter_some, if_pos h.1.2] at htype
    cases htype
  | some c =>
    obtain ⟨hc, htruthy⟩ := Option.filter_eq_some_iff.mp htype
    by_cases heq : c = category
    · subst heq
      have hinj : Function.Injective fun night : ℤ => (c, night) := fun n n' h => congrArg Prod.snd h
      simp only
      rw [count_map_of_injective _ _ hinj, nights_count hnight, hc, htruthy]
      simp
    · rw [hc, count_eq_zero.mpr]
      · simp [heq]
      · simp [heq]

theorem count_buildSoldCountIndex (hnight : start ≤ night ∧ night ≤ last) :
    (buildSoldCountIndex inventory bookings start last).count (category, night) =
      bookings.countP (sellsOn inventory category night) := by
  unfold buildSoldCountIndex
  induction bookings using List.reverseRecOn with
  | nil => rfl
  | append_singleton bookings b ih =>
    rw [foldl_append, foldl_cons, foldl_nil, Dict.count_foldl_tally, ih, count_soldKeys hnight,
      countP_append, countP_singleton]

end SyrocePms.ChannelCalendar

/-! `lock_adjusted_capacities`: the ceiling of a category on a night takes the bookings from the rooms, and
the locks with the unassigned bookings, and is the smaller of the two. It is compared with the rooms that
are left when both are taken from them. -/

namespace SyrocePms.ChannelCalendar

open Lib
open Atomic (RoomTypeName LockClass)

variable {ρ : Type}

/-- A row of `room_night_locks`. The night is absent where it is no date of the form of `isoformat`; as
a text, it then lies between the two of the query. -/
structure RoomNightLock (ρ : Type) where
  room : ρ
  night : Option ℤ
  lockType : Option LockClass

def RoomNightLock.within (l : RoomNightLock ρ) (start last : ℤ) : Bool := l.night.all fun night => start ≤ night && night ≤ last

inductive CapacityError where
  | incompletePhysicalInventory
  | unreadableBookingDates
  | invalidBookingDates
  | incompleteRoomNightLocks
  | invalidRoomNightLock
  | invalidRoomNightDate
  | pastLastDay

structure LockScan (ρ : Type) where
  seen : List (ρ × Option ℤ)
  locked : Dict (RoomTypeName × ℤ) ℕ

def ceiling (total sold locked unassigned : ℕ) : ℤ := max 0 (min ((total : ℤ) - sold) (total - locked - unassigned))

variable [DecidableEq ρ]

def checkBooking (inventory : Dict RoomTypeName (CategoryRooms ρ)) (b : ActiveBooking ρ) : Except CapacityError Unit :=
  match bookingRoomType inventory b, b.checkIn, b.checkOut with
  | none, _, _ => .ok ()
  | some _, some checkIn, some checkOut => if checkOut ≤ checkIn then .error .invalidBookingDates else .ok ()
  | some _, _, _ => .error .unreadableBookingDates

def readLocks (inventory : Dict RoomTypeName (CategoryRooms ρ)) (table : List (RoomNightLock ρ)) (start last : ℤ) :
    List (RoomNightLock ρ) :=
  (table.filter fun l => ((roomTypeById inventory).get? l.room).isSome && l.within start last).take 100001

def scanLock (inventory : Dict RoomTypeName (CategoryRooms ρ)) (start last : ℤ) (s : LockScan ρ) (l : RoomNightLock ρ) :
    Except CapacityError (LockScan ρ) :=
  if (l.room, l.night) ∈ s.seen ∨ l.within start last = false ∨ l.lockType = none then .error .invalidRoomNightLock
  else
    match (roomTypeById inventory).get? l.room, l.night with
    | none, _ => .error .invalidRoomNightLock
    | some _, none => .error .invalidRoomNightDate
    | some category, some night => .ok ⟨s.seen ++ [(l.room, l.night)], s.locked.tally (category, night)⟩

def isUnassigned (inventory : Dict RoomTypeName (CategoryRooms ρ)) (b : ActiveBooking ρ) : Bool := (assignedType inventory b).isNone

/-- The two indexes and the ceilings. -/
def capacities (inventory : Dict RoomTypeName (CategoryRooms ρ)) (bookings : List (ActiveBooking ρ)) (start last : ℤ)
    (locked : Dict (RoomTypeName × ℤ) ℕ) : Dict (RoomTypeName × ℤ) ℤ :=
  let sold := buildSoldCountIndex inventory bookings start last
  let unassigned := buildSoldCountIndex inventory (bookings.filter (isUnassigned inventory)) start last
  .ofPairs ((daysBetween start last).flatMap fun day => inventory.entries.map fun e =>
    ((e.1, day), ceiling e.2.total (sold.count (e.1, day)) (locked.count (e.1, day)) (unassigned.count (e.1, day))))

def lockAdjustedCapacities (inventory : Dict RoomTypeName (CategoryRooms ρ)) (bookings : List (ActiveBooking ρ))
    (table : List (RoomNightLock ρ)) (start last : ℤ) : Except CapacityError (Dict (RoomTypeName × ℤ) ℤ) :=
  let size := (roomTypeById inventory).entries.length
  let locks := readLocks inventory table start last
  if size ≠ (inventory.entries.map fun e => e.2.total).sum ∨ 500 ≤ size ∨ 10000 ≤ bookings.length then
    .error .incompletePhysicalInventory
  else do
    bookings.forM (checkBooking inventory)
    if 100001 ≤ locks.length then .error .incompleteRoomNightLocks
    else do
      let scan ← locks.foldlM (scanLock inventory start last) ⟨[], .empty⟩
      if start ≤ last ∧ last = lastDay then .error .pastLastDay
      else .ok (capacities inventory bookings start last scan.locked)

/-! ### What the ceiling stands for -/

def lockedOn (table : List (RoomNightLock ρ)) (night : ℤ) (room : ρ) : Bool := table.any fun l => l.room = room && l.night = some night

def bookedOn (bookings : List (ActiveBooking ρ)) (night : ℤ) (room : ρ) : Bool :=
  bookings.any fun b => b.room = some room && b.activeOn night

def lockedRooms (rooms : CategoryRooms ρ) (table : List (RoomNightLock ρ)) (night : ℤ) : ℕ := rooms.ids.countP (lockedOn table night)

def freeRooms (rooms : CategoryRooms ρ) (bookings : List (ActiveBooking ρ)) (table : List (RoomNightLock ρ)) (night : ℤ) : ℕ :=
  rooms.ids.countP fun room => !(lockedOn table night room || bookedOn bookings night room)

def takenRooms (rooms : CategoryRooms ρ) (bookings : List (ActiveBooking ρ)) (table : List (RoomNightLock ρ)) (night : ℤ) : ℕ :=
  rooms.ids.countP fun room => lockedOn table night room || bookedOn bookings night room

def assignedBookings (inventory : Dict RoomTypeName (CategoryRooms ρ)) (bookings : List (ActiveBooking ρ))
    (category : RoomTypeName) (night : ℤ) : ℕ :=
  bookings.countP fun b => !isUnassigned inventory b && (bookingRoomType inventory b = some category && b.activeOn night)

def unassignedBookings (inventory : Dict RoomTypeName (CategoryRooms ρ)) (bookings : List (ActiveBooking ρ))
    (category : RoomTypeName) (night : ℤ) : ℕ :=
  bookings.countP fun b => isUnassigned inventory b && (bookingRoomType inventory b = some category && b.activeOn night)

def Covered (inventory : Dict RoomTypeName (CategoryRooms ρ)) (rooms : CategoryRooms ρ) (bookings : List (ActiveBooking ρ))
    (table : List (RoomNightLock ρ)) (category : RoomTypeName) (night : ℤ) : Prop :=
  if category.truthy = true then
    takenRooms rooms bookings table night ≤ assignedBookings inventory bookings category night ∨
      takenRooms rooms bookings table night ≤ lockedRooms rooms table night ∨
      rooms.total ≤ assignedBookings inventory bookings category night + unassignedBookings inventory bookings category night ∨
      rooms.total ≤ lockedRooms rooms table night + unassignedBookings inventory bookings category night
  else
    takenRooms rooms bookings table night + unassignedBookings inventory bookings category night ≤ lockedRooms rooms table night ∨
      rooms.total ≤ lockedRooms rooms table night

variable {inventory : Dict RoomTypeName (CategoryRooms ρ)} {rooms : CategoryRooms ρ} {bookings : List (ActiveBooking ρ)}
  {table locks : List (RoomNightLock ρ)} {s s' : LockScan ρ} {caps : Dict (RoomTypeName × ℤ) ℤ} {category : RoomTypeName}
  {start last night v : ℤ} {room : ρ}

/-! ### The rooms of an inventory that is complete -/

omit [DecidableEq ρ] in
theorem length_categoryOfRooms (inventory : Dict RoomTypeName (CategoryRooms ρ)) :
    (categoryOfRooms inventory).length = (inventory.entries.map fun e => e.2.total).sum := by
  rw [categoryOfRooms, List.length_flatMap]
  simp [CategoryRooms.total_eq]

theorem get?_roomTypeById (hids : ((categoryOfRooms inventory).map Prod.fst).Nodup) (hrooms : inventory.get? category = some rooms) :
    (roomTypeById inventory).get? room = some category ↔ room ∈ rooms.ids := by
  rw [roomTypeById, Dict.get?_eq_some, Dict.entries_ofPairs hids, categoryOfRooms, List.mem_flatMap]
  rw [Dict.get?_eq_some] at hrooms
  constructor
  · rintro ⟨e, he, hmem⟩
    obtain ⟨id, hid, heq⟩ := List.mem_map.mp hmem
    cases heq
    rwa [inventory.eq_of_fst he hrooms rfl] at hid
  · exact fun h => ⟨_, hrooms, List.mem_map_of_mem h⟩

omit [DecidableEq ρ] in
theorem nodup_ids (hids : ((categoryOfRooms inventory).map Prod.fst).Nodup) (hrooms : (category, rooms) ∈ inventory.entries) :
    rooms.ids.Nodup := by
  rw [categoryOfRooms, List.map_flatMap, List.nodup_flatMap] at hids
  simpa [Function.comp_def] using hids.1 _ hrooms

/-! ### The locks -/

theorem scan_spec (h : locks.foldlM (scanLock inventory start last) s = .ok s') (hseen : s.seen.Nodup)
    (category : RoomTypeName) (night : ℤ) :
    (s.seen ++ locks.map fun l => (l.room, l.night)).Nodup ∧ s'.locked.count (category, night) = s.locked.count (category, night) +
      locks.countP fun l => (roomTypeById inventory).get? l.room = some category && l.night = some night := by
  induction locks generalizing s with
  | nil =>
    cases h
    simpa using hseen
  | cons l locks ih =>
    rw [List.foldlM_cons] at h
    obtain ⟨s₁, hstep, h⟩ := Transaction.bind_eq_ok h
    unfold scanLock at hstep
    split at hstep
    · cases hstep
    · rename_i hvalid
      split at hstep
      · cases hstep
      · cases hstep
      · rename_i c n hc hn
        cases hstep
        have hnew : (s.seen ++ [(l.room, l.night)]).Nodup := by
          refine List.nodup_append.mpr ⟨hseen, List.nodup_singleton _, fun a ha a' ha' => ?_⟩
          rw [List.mem_singleton.mp ha']
          exact fun heq => hvalid (.inl (heq ▸ ha))
        obtain ⟨hnodup, hcount⟩ := ih h hnew
        constructor
        · simpa using hnodup
        · rw [hcount, Dict.count_tally, List.countP_cons, hc, hn]
          by_cases heq : (category, night) = (c, n)
          · cases heq
            simp
            omega
          · have hne : ¬ (c = category ∧ n = night) := fun h => heq (by rw [h.1, h.2])
            simp [heq, hne]

theorem count_locked (hids : ((categoryOfRooms inventory).map Prod.fst).Nodup) (hrooms : inventory.get? category = some rooms)
    (hnight : start ≤ night ∧ night ≤ last) (hall : (readLocks inventory table start last).length < 100001)
    (hscan : (readLocks inventory table start last).foldlM (scanLock inventory start last) ⟨[], .empty⟩ = .ok s) :
    s.locked.count (category, night) = lockedRooms rooms table night := by
  obtain ⟨hkeys, hcount⟩ := scan_spec hscan List.nodup_nil category night
  have hread : readLocks inventory table start last =
      table.filter fun l => ((roomTypeById inventory).get? l.room).isSome && l.within start last := by
    refine List.take_of_length_le ?_
    rw [readLocks, List.length_take] at hall
    omega
  rw [hcount, lockedRooms, List.countP_eq_length_filter, List.countP_eq_length_filter, ← List.length_map RoomNightLock.room]
  refine (Nat.zero_add _).trans (List.Perm.length_eq ?_)
  rw [List.perm_ext_iff_of_nodup ?_ ((nodup_ids hids (Dict.get?_eq_some.mp hrooms)).filter _)]
  · intro room
    rw [hread, List.mem_filter, ← get?_roomTypeById hids hrooms]
    simp only [List.mem_map, List.mem_filter, lockedOn, List.any_eq_true, Bool.and_eq_true, decide_eq_true_eq]
    constructor
    · rintro ⟨l, ⟨⟨hl, -⟩, hcategory, hn⟩, rfl⟩
      exact ⟨hcategory, l, hl, rfl, hn⟩
    · rintro ⟨hcategory, l, hl, rfl, hn⟩
      exact ⟨l, ⟨⟨hl, by simp [hcategory], by simp [RoomNightLock.within, hn, hnight]⟩, hcategory, hn⟩, rfl⟩
  · -- two locks of one room and one night would be one
    rw [List.nil_append] at hkeys
    have hpairs := (List.pairwise_map.mp hkeys).filter fun l =>
      (roomTypeById inventory).get? l.room = some category && l.night = some night
    refine List.pairwise_map.mpr (hpairs.imp_of_mem fun hl hl' hne heq => hne ?_)
    have hn := (List.mem_filter.mp hl).2
    have hn' := (List.mem_filter.mp hl').2
    simp only [Bool.and_eq_true, decide_eq_true_eq] at hn hn'
    rw [heq, hn.2, hn'.2]

theorem accepted_spec (h : lockAdjustedCapacities inventory bookings table start last = .ok caps) :
    ((categoryOfRooms inventory).map Prod.fst).Nodup ∧ ∃ locked, caps = capacities inventory bookings start last locked ∧
      ∀ category rooms night, inventory.get? category = some rooms → start ≤ night ∧ night ≤ last →
        locked.count (category, night) = lockedRooms rooms table night := by
  simp only [lockAdjustedCapacities] at h
  split at h
  · cases h
  · rename_i hcomplete
    rw [not_or, not_not] at hcomplete
    have hids : ((categoryOfRooms inventory).map Prod.fst).Nodup :=
      Dict.nodup_of_length_entries (hcomplete.1.trans (length_categoryOfRooms inventory).symm)
    obtain ⟨-, -, h⟩ := Transaction.bind_eq_ok h
    split at h
    · cases h
    · rename_i hall
      obtain ⟨s, hscan, h⟩ := Transaction.bind_eq_ok h
      split at h
      · cases h
      · cases h
        exact ⟨hids, s.locked, rfl, fun category rooms night hrooms hnight => count_locked hids hrooms hnight (by omega) hscan⟩

theorem ceiling_eq (h : lockAdjustedCapacities inventory bookings table start last = .ok caps)
    (hv : caps.get? (category, night) = some v) (hrooms : inventory.get? category = some rooms) :
    v = ceiling rooms.total (bookings.countP (sellsOn inventory category night)) (lockedRooms rooms table night)
      (bookings.countP fun b => isUnassigned inventory b && sellsOn inventory category night b) := by
  obtain ⟨-, locked, rfl, hlocked⟩ := accepted_spec h
  obtain ⟨day, hday, hmem⟩ := List.mem_flatMap.mp (Dict.mem_of_get?_ofPairs hv)
  obtain ⟨e, he, heq⟩ := List.mem_map.mp hmem
  cases heq
  have hnight := mem_daysBetween.mp hday
  have hsame := Dict.get?_eq_some.mpr he
  rw [hrooms] at hsame
  cases hsame
  rw [count_buildSoldCountIndex hnight, count_buildSoldCountIndex hnight, List.countP_filter, hlocked _ _ _ hrooms hnight]
  simp only [Bool.and_comm]

theorem exists_ceiling (h : lockAdjustedCapacities inventory bookings table start last = .ok caps)
    (hrooms : inventory.get? category = some rooms) (hnight : start ≤ night ∧ night ≤ last) :
    ∃ v, caps.get? (category, night) = some v := by
  obtain ⟨-, locked, rfl, -⟩ := accepted_spec h
  refine Option.isSome_iff_exists.mp (Dict.isSome_get?_ofPairs ?_)
  rw [List.map_flatMap, List.mem_flatMap]
  refine ⟨night, mem_daysBetween.mpr hnight, ?_⟩
  rw [List.map_map]
  exact List.mem_map.mpr ⟨_, Dict.get?_eq_some.mp hrooms, rfl⟩

/-! ### Rooms, bookings and locks -/

theorem free_add_taken (rooms : CategoryRooms ρ) (bookings : List (ActiveBooking ρ)) (table : List (RoomNightLock ρ)) (night : ℤ) :
    takenRooms rooms bookings table night + freeRooms rooms bookings table night = rooms.total := by
  rw [rooms.total_eq, List.length_eq_countP_add_countP fun room => lockedOn table night room || bookedOn bookings night room]
  simp [takenRooms, freeRooms]

theorem countP_sellsOn (hname : category.truthy = true) :
    bookings.countP (sellsOn inventory category night) =
      assignedBookings inventory bookings category night + unassignedBookings inventory bookings category night := by
  rw [assignedBookings, unassignedBookings]
  induction bookings with
  | nil => rfl
  | cons b bookings ih =>
    simp only [List.countP_cons, ih, sellsOn, hname]
    cases isUnassigned inventory b <;> simp <;> omega

theorem countP_unassigned (hname : category.truthy = true) :
    (bookings.countP fun b => isUnassigned inventory b && sellsOn inventory category night b) =
      unassignedBookings inventory bookings category night := by
  simp [unassignedBookings, sellsOn, hname]

/-- The ceiling leaves the rooms that are free to the unassigned bookings exactly when one of the two
differences covers what is taken. -/
theorem ceiling_never_oversells (inventory : Dict RoomTypeName (CategoryRooms ρ)) (bookings : List (ActiveBooking ρ))
    (table : List (RoomNightLock ρ)) (start last : ℤ) (caps : Dict (RoomTypeName × ℤ) ℤ) (category : RoomTypeName)
    (rooms : CategoryRooms ρ) (night v : ℤ) (h : lockAdjustedCapacities inventory bookings table start last = .ok caps)
    (hrooms : inventory.get? category = some rooms) (hv : caps.get? (category, night) = some v) :
    v ≤ max 0 ((freeRooms rooms bookings table night : ℤ) - unassignedBookings inventory bookings category night) ↔
      Covered inventory rooms bookings table category night := by
  rw [ceiling_eq h hv hrooms]
  have hfree := free_add_taken rooms bookings table night
  unfold Covered ceiling
  by_cases hname : category.truthy = true
  · rw [if_pos hname, countP_sellsOn hname, countP_unassigned hname]
    omega
  · have hnone : sellsOn inventory category night = fun _ => false := by
      funext b
      simp [sellsOn, hname]
    rw [if_neg hname, hnone]
    simp only [Bool.and_false, List.countP_false, Function.const_apply]
    omega

/-- A room that is booked and locked, one that is locked, one that is free, and a booking without a room. -/
theorem ceiling_never_oversells_last : (0 : ℤ) ≤ max 0 ((freeRooms (ρ := ℕ) ⟨3, [1, 2, 3], rfl⟩
    [⟨some 1, .named 0, some 5, some 6⟩, ⟨none, .named 0, some 4, some 7⟩] [⟨1, some 5, some .booking⟩, ⟨2, some 5, some .ooo⟩] 5 : ℤ) -
    unassignedBookings (getRoomCounts [⟨1, .named 0⟩, ⟨2, .named 0⟩, ⟨3, .named 0⟩])
      [⟨some 1, .named 0, some 5, some 6⟩, ⟨none, .named 0, some 4, some 7⟩] (.named 0) 5) :=
  (ceiling_never_oversells (getRoomCounts [⟨1, .named 0⟩, ⟨2, .named 0⟩, ⟨3, .named 0⟩])
    [⟨some 1, .named 0, some 5, some 6⟩, ⟨none, .named 0, some 4, some 7⟩] [⟨1, some 5, some .booking⟩, ⟨2, some 5, some .ooo⟩] 5 5 _
    (.named 0) ⟨3, [1, 2, 3], rfl⟩ 5 0 rfl rfl rfl).mpr (by unfold Covered; decide +kernel)

/-- One room is booked without a lock, another is locked without a booking, and one of the two is still sold. -/
theorem taken_room_sold : ¬ ∀ caps v, lockAdjustedCapacities (ρ := ℕ) (getRoomCounts [⟨1, .named 0⟩, ⟨2, .named 0⟩])
      [⟨some 1, .named 0, some 5, some 6⟩] [⟨2, some 5, some .ooo⟩] 5 5 = .ok caps → caps.get? (.named 0, 5) = some v →
    v ≤ max 0 ((freeRooms (ρ := ℕ) ⟨2, [1, 2], rfl⟩ [⟨some 1, .named 0, some 5, some 6⟩] [⟨2, some 5, some .ooo⟩] 5 : ℤ) -
      unassignedBookings (ρ := ℕ) (getRoomCounts [⟨1, .named 0⟩, ⟨2, .named 0⟩]) [⟨some 1, .named 0, some 5, some 6⟩] (.named 0) 5) := by
  intro h
  have hone := h _ 1 rfl rfl
  exact absurd hone (by decide +kernel)

end SyrocePms.ChannelCalendar
