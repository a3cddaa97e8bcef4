import Mathlib.Algebra.Ring.Nat
import SyrocePms.Atomic.RoomBlocks

/-! `compute_room_type_inventory`: the rooms of a tenant by type against the locks of one
night. The code counts from two aggregations, each cut off at a fixed number of groups, and
it counts a lock under the class of its type. -/

namespace SyrocePms.Atomic

open Lib List

/-- `room_type` of a room document: missing or null, the empty text, or a name. -/
inductive RoomTypeName where
  | absent
  | empty
  | named (text : ℕ)
  deriving DecidableEq

def RoomTypeName.truthy : RoomTypeName → Bool
  | .named _ => true
  | _ => false

structure TypedRoom where
  id : ℕ
  roomType : RoomTypeName
  isActive : Option Bool := none
  isVirtual : Option Bool := none

def TypedRoom.physical (r : TypedRoom) : Bool :=
  r.isActive != some false && r.isVirtual != some true

def roomsOf (rooms : List TypedRoom) (t : RoomTypeName) : List TypedRoom :=
  rooms.filter fun r => r.physical && r.roomType == t

def lockedRoomsOf (rooms : List TypedRoom) (locks : LockTable) (night : ℤ) (t : RoomTypeName) :
    List TypedRoom :=
  (roomsOf rooms t).filter fun r => (locks r.id night).isSome

/-- A group of the aggregation over `rooms`. -/
structure RoomGroup where
  roomType : RoomTypeName
  count : ℕ
  roomIds : List ℕ

def roomGroup (rooms : List TypedRoom) (t : RoomTypeName) : RoomGroup :=
  ⟨t, (roomsOf rooms t).length, (roomsOf rooms t).map TypedRoom.id⟩

def roomGroups (rooms : List TypedRoom) : List RoomGroup :=
  ((rooms.filter TypedRoom.physical).map TypedRoom.roomType).dedup.map (roomGroup rooms)

/-- A group of the aggregation over `room_night_locks`. -/
structure LockGroup where
  room : ℕ
  lockType : Option LockType
  count : ℕ
  deriving DecidableEq

def roomGroupLimit : ℕ := 200

/-- The `to_list` limit of the lock groups. -/
def lockGroupLimit : ℕ := 5000

def enterGroup (typeOf : ℕ → Option RoomTypeName) (g : RoomGroup) : ℕ → Option RoomTypeName :=
  fun id => if g.roomType.truthy && g.roomIds.contains id then some g.roomType else typeOf id

def roomIdToType (groups : List RoomGroup) : ℕ → Option RoomTypeName :=
  groups.foldl enterGroup fun _ => none

abbrev TypeLocks := RoomTypeName → LockClass → ℕ

/-- One round of the loop over the lock groups. A type without a class is passed over. -/
def countGroup (typeOf : ℕ → Option RoomTypeName) (locks : TypeLocks) (g : LockGroup) : TypeLocks :=
  match typeOf g.room, g.lockType.bind LockType.lockClass with
  | some t, some c => fun t' c' => if t' = t ∧ c' = c then locks t' c' + g.count else locks t' c'
  | _, _ => locks

def typeLocks (typeOf : ℕ → Option RoomTypeName) (groups : List LockGroup) : TypeLocks :=
  groups.foldl (countGroup typeOf) fun _ _ => 0

structure InventoryRow where
  roomType : RoomTypeName
  physicalTotal : ℕ
  lockedBooking : ℕ
  lockedHold : ℕ
  lockedOoo : ℕ
  lockedOos : ℕ
  sellable : ℤ

/-- The row of a type. Maintenance counts as out of service. -/
def inventoryRow (locks : TypeLocks) (g : RoomGroup) : InventoryRow :=
  let booking := locks g.roomType .booking
  let hold := locks g.roomType .hold
  let ooo := locks g.roomType .ooo
  let oos := locks g.roomType .oos + locks g.roomType .maintenance
  ⟨g.roomType, g.count, booking, hold, ooo, oos, max 0 ((g.count : ℤ) - booking - hold - ooo - oos)⟩

/-- `compute_room_type_inventory` from what its two aggregations find. The key error of a
lock without a type is `none`. -/
def computeRoomTypeInventory (rooms : List RoomGroup) (locks : List LockGroup) :
    Option (List InventoryRow) :=
  let groups := rooms.take roomGroupLimit
  let totals := groups.filter fun g => g.roomType.truthy
  let found := locks.take lockGroupLimit
  if totals.isEmpty then some []
  else if found.any fun g => g.lockType.isNone then none
  else some (totals.map (inventoryRow (typeLocks (roomIdToType groups) found)))

def sellableOf (inventory : Option (List InventoryRow)) (t : RoomTypeName) : Option ℤ :=
  inventory.bind fun rows => (rows.find? fun row => row.roomType == t).map InventoryRow.sellable

/-- What the two aggregations find, each in an order of the database's own. -/
structure Reading (rooms : Collection TypedRoom TypedRoom.id) (locks : LockTable) (night : ℤ) where
  byType : List RoomGroup
  byRoom : List LockGroup
  byType_perm : byType.Perm (roomGroups rooms.rows)
  byRoom_nodup : byRoom.Nodup
  mem_byRoom : ∀ g, g ∈ byRoom ↔
    ∃ l, locks g.room night = some l ∧ g.lockType = l.lockType ∧ g.count = 1

def Reading.inventory {rooms : Collection TypedRoom TypedRoom.id} {locks : LockTable} {night : ℤ}
    (d : Reading rooms locks night) : Option (List InventoryRow) :=
  computeRoomTypeInventory d.byType d.byRoom

/-! ### The rooms of a type -/

section Rooms

variable {rooms : List TypedRoom} {t : RoomTypeName} {r : TypedRoom}

theorem mem_roomsOf : r ∈ roomsOf rooms t ↔ r ∈ rooms ∧ r.physical = true ∧ r.roomType = t := by
  simp [roomsOf]

theorem mem_lockedRoomsOf {locks : LockTable} {night : ℤ} : r ∈ lockedRoomsOf rooms locks night t ↔
    r ∈ roomsOf rooms t ∧ (locks r.id night).isSome = true := mem_filter

theorem length_lockedRoomsOf_le (rooms : List TypedRoom) (locks : LockTable) (night : ℤ)
    (t : RoomTypeName) : (lockedRoomsOf rooms locks night t).length ≤ (roomsOf rooms t).length :=
  length_filter_le _ _

theorem mem_roomGroups :
    g ∈ roomGroups rooms ↔ g = roomGroup rooms g.roomType ∧ roomsOf rooms g.roomType ≠ [] := by
  simp only [roomGroups, mem_map, mem_dedup, mem_filter, ne_eq,
    eq_nil_iff_forall_not_mem, mem_roomsOf]
  constructor
  · rintro ⟨t, ⟨r, ⟨hr, hp⟩, rfl⟩, rfl⟩
    exact ⟨rfl, fun hnone => hnone r ⟨hr, hp, rfl⟩⟩
  · rintro ⟨hg, hne⟩
    by_contra hnone
    refine hne fun r hr => hnone ⟨g.roomType, ⟨r, ⟨hr.1, hr.2.1⟩, hr.2.2⟩, hg.symm⟩

end Rooms

/-! ### What the loops compute -/

theorem roomIdToType_append (groups : List RoomGroup) (g : RoomGroup) :
    roomIdToType (groups ++ [g]) = enterGroup (roomIdToType groups) g := by
  simp [roomIdToType]

theorem roomIdToType_eq_some {id : ℕ}
    (hone : ∀ g ∈ groups, ∀ g' ∈ groups, id ∈ g.roomIds → id ∈ g'.roomIds →
      g.roomType = g'.roomType) : roomIdToType groups id = some t ↔
      ∃ g ∈ groups, g.roomType = t ∧ t.truthy = true ∧ id ∈ g.roomIds := by
  induction groups using List.reverseRecOn with
  | nil => simp [roomIdToType]
  | append_singleton groups g ih =>
    have ih := ih fun x hx y hy => hone x (mem_append_left _ hx) y (mem_append_left _ hy)
    have hg : g ∈ groups ++ [g] := by simp
    rw [roomIdToType_append]
    simp only [enterGroup, Bool.and_eq_true, contains_eq_mem, decide_eq_true_eq]
    split
    · rename_i hin
      rw [Option.some.injEq]
      constructor
      · rintro rfl
        exact ⟨g, hg, rfl, hin⟩
      · rintro ⟨x, hx, rfl, -, hid⟩
        exact hone g hg x hx hin.2 hid
    · rename_i hout
      rw [ih]
      constructor
      · rintro ⟨x, hx, h⟩
        exact ⟨x, mem_append_left _ hx, h⟩
      · rintro ⟨x, hx, rfl, h⟩
        obtain hx | hx := mem_append.mp hx
        · exact ⟨x, hx, rfl, h⟩
        · cases mem_singleton.mp hx
          exact absurd h hout

def TypeLocks.total (locks : TypeLocks) (t : RoomTypeName) : ℕ :=
  locks t .booking + locks t .hold + locks t .ooo + (locks t .oos + locks t .maintenance)

def LockGroup.counts (typeOf : ℕ → Option RoomTypeName) (t : RoomTypeName) (g : LockGroup) : Bool :=
  typeOf g.room == some t && (g.lockType.bind LockType.lockClass).isSome

theorem total_countGroup (typeOf : ℕ → Option RoomTypeName) (locks : TypeLocks) (g : LockGroup)
    (t : RoomTypeName) : TypeLocks.total (countGroup typeOf locks g) t =
      locks.total t + if g.counts typeOf t then g.count else 0 := by
  unfold countGroup LockGroup.counts
  cases htype : typeOf g.room with
  | none => simp
  | some t' =>
    cases hclass : g.lockType.bind LockType.lockClass with
    | none => simp
    | some c =>
      by_cases ht : t' = t
      · subst ht
        cases c <;> simp [TypeLocks.total] <;> omega
      · simp [TypeLocks.total, ht, Ne.symm ht]

theorem total_typeLocks (typeOf : ℕ → Option RoomTypeName) (groups : List LockGroup)
    (t : RoomTypeName) : TypeLocks.total (typeLocks typeOf groups) t =
      ((groups.filter (LockGroup.counts typeOf t)).map LockGroup.count).sum := by
  induction groups using List.reverseRecOn with
  | nil => rfl
  | append_singleton groups g ih =>
    have hlast : typeLocks typeOf (groups ++ [g]) = countGroup typeOf (typeLocks typeOf groups) g := by
      simp [typeLocks]
    rw [hlast, total_countGroup, ih, filter_append, map_append, sum_append]
    cases hc : g.counts typeOf t <;> simp [hc]

theorem sellable_inventoryRow (locks : TypeLocks) (g : RoomGroup) :
    (inventoryRow locks g).sellable = max 0 ((g.count : ℤ) - locks.total g.roomType) := by
  simp only [inventoryRow, TypeLocks.total]
  omega

theorem sellableOf_compute {locks : List LockGroup} (htyped : ∀ g ∈ locks, g.lockType ≠ none)
    (ht : t.truthy = true) : sellableOf (computeRoomTypeInventory groups locks) t =
      ((groups.take roomGroupLimit).find? fun g => g.roomType == t).map fun g =>
        (inventoryRow (typeLocks (roomIdToType (groups.take roomGroupLimit))
          (locks.take lockGroupLimit)) g).sellable := by
  have hkeep (g : RoomGroup) :
      decide (g.roomType.truthy = true ∧ (g.roomType == t) = true) = (g.roomType == t) := by
    by_cases hg : g.roomType = t
    · simp [hg, ht]
    · simp [hg]
  have hfind : ((groups.take roomGroupLimit).filter fun g => g.roomType.truthy).find?
      (fun g => g.roomType == t) = (groups.take roomGroupLimit).find? fun g => g.roomType == t := by
    rw [find?_filter]
    exact congrArg (List.find? · _) (funext hkeep)
  have hfound : ((locks.take lockGroupLimit).any fun g => g.lockType.isNone) = false := by
    refine any_eq_false.mpr fun g hg => ?_
    simpa using htyped g (mem_of_mem_take hg)
  rw [← hfind]
  simp only [computeRoomTypeInventory]
  split
  · rename_i hnil
    rw [isEmpty_iff.mp hnil]
    rfl
  · rw [hfound]
    simp only [Bool.false_eq_true, if_false, sellableOf, Option.bind_some, find?_map,
      Option.map_map]
    rfl

/-! The inventory identity: the sellable rooms of a type are its physical rooms without those
that are locked. The identity is compared with what the code counts over every reading of the
two aggregations in every state of the writers. -/

variable {rooms : Collection TypedRoom TypedRoom.id} {locks : LockTable} {night : ℤ}
variable {g : RoomGroup} {groups : List RoomGroup} {t : RoomTypeName}

def freeRooms (rooms : List TypedRoom) (locks : LockTable) (night : ℤ) (t : RoomTypeName) : ℤ :=
  (roomsOf rooms t).length - (lockedRoomsOf rooms locks night t).length

def Reading.Identity (d : Reading rooms locks night) (t : RoomTypeName) : Prop :=
  sellableOf d.inventory t = some (freeRooms rooms.rows locks night t)

/-- The group of the type is among those that are read, and so is each lock on its rooms, under
a type that has a class. -/
structure Reading.Counted (d : Reading rooms locks night) (t : RoomTypeName) : Prop where
  read : ∃ g ∈ d.byType.take roomGroupLimit, g.roomType = t
  classed : ∀ r ∈ roomsOf rooms.rows t, ∀ l, locks r.id night = some l →
    ∃ c : LockClass, l.lockType = some c.lockType
  seen : ∀ r ∈ roomsOf rooms.rows t, ∀ l, locks r.id night = some l →
    ⟨r.id, l.lockType, 1⟩ ∈ d.byRoom.take lockGroupLimit

/-! ### The groups of a reading -/

namespace Reading

variable (d : Reading rooms locks night) {t : RoomTypeName}

theorem mem_byType : g ∈ d.byType ↔
    g = roomGroup rooms.rows g.roomType ∧ roomsOf rooms.rows g.roomType ≠ [] :=
  d.byType_perm.mem_iff.trans mem_roomGroups

theorem mem_roomIds (hg : g ∈ d.byType) {id : ℕ} :
    id ∈ g.roomIds ↔ ∃ r ∈ roomsOf rooms.rows g.roomType, r.id = id := by
  rw [(d.mem_byType.mp hg).1]
  exact mem_map

theorem roomType_eq {g' : RoomGroup} (hg : g ∈ d.byType) (hg' : g' ∈ d.byType) {id : ℕ}
    (hid : id ∈ g.roomIds) (hid' : id ∈ g'.roomIds) : g.roomType = g'.roomType := by
  obtain ⟨r, hr, hrid⟩ := (d.mem_roomIds hg).mp hid
  obtain ⟨r', hr', hrid'⟩ := (d.mem_roomIds hg').mp hid'
  rw [mem_roomsOf] at hr hr'
  have heq : r = r' := rooms.eq_of_key hr.1 hr'.1 (hrid.trans hrid'.symm)
  rw [← hr.2.2, ← hr'.2.2, heq]

theorem roomIdToType_iff (ht : t.truthy = true)
    (hread : ∃ g ∈ d.byType.take roomGroupLimit, g.roomType = t) {id : ℕ} :
    roomIdToType (d.byType.take roomGroupLimit) id = some t ↔
      ∃ r ∈ roomsOf rooms.rows t, r.id = id := by
  have hmem {g : RoomGroup} (hg : g ∈ d.byType.take roomGroupLimit) : g ∈ d.byType :=
    mem_of_mem_take hg
  rw [roomIdToType_eq_some fun g hg g' hg' => d.roomType_eq (hmem hg) (hmem hg')]
  constructor
  · rintro ⟨g, hg, rfl, -, hid⟩
    exact (d.mem_roomIds (hmem hg)).mp hid
  · intro hr
    obtain ⟨g, hg, rfl⟩ := hread
    exact ⟨g, hg, rfl, ht, (d.mem_roomIds (hmem hg)).mpr hr⟩

theorem find_read (hread : ∃ g ∈ d.byType.take roomGroupLimit, g.roomType = t) :
    (d.byType.take roomGroupLimit).find? (fun g => g.roomType == t) =
      some (roomGroup rooms.rows t) := by
  obtain ⟨g, hg, ht⟩ := hread
  have hsome : ((d.byType.take roomGroupLimit).find? fun g => g.roomType == t).isSome = true :=
    find?_isSome.mpr ⟨g, hg, beq_iff_eq.mpr ht⟩
  obtain ⟨g', hfind⟩ := Option.isSome_iff_exists.mp hsome
  have ht' : g'.roomType = t := by simpa using find?_some hfind
  have hg' := (d.mem_byType.mp (mem_of_mem_take (mem_of_find?_eq_some hfind))).1
  rw [hfind, ← ht', ← hg']

theorem find_unread (hno : ¬ ∃ g ∈ d.byType.take roomGroupLimit, g.roomType = t) :
    (d.byType.take roomGroupLimit).find? (fun g => g.roomType == t) = none := by
  refine find?_eq_none.mpr fun g hg ht => hno ⟨g, hg, beq_iff_eq.mp ht⟩

theorem byRoom_typed (htyped : ∀ r n l, locks r n = some l → l.lockType ≠ none) :
    ∀ g ∈ d.byRoom, g.lockType ≠ none := by
  intro g hg
  obtain ⟨l, hl, htype, -⟩ := (d.mem_byRoom g).mp hg
  rw [htype]
  exact htyped _ _ l hl

theorem nodup_rooms : (d.byRoom.map LockGroup.room).Nodup := by
  refine d.byRoom_nodup.map_on fun g hg g' hg' hroom => ?_
  obtain ⟨l, hl, htype, hcount⟩ := (d.mem_byRoom g).mp hg
  obtain ⟨l', hl', htype', hcount'⟩ := (d.mem_byRoom g').mp hg'
  rw [hroom, hl'] at hl
  cases hl
  cases g
  cases g'
  simp_all

def countedRooms (t : RoomTypeName) : List ℕ :=
  ((d.byRoom.take lockGroupLimit).filter
    (LockGroup.counts (roomIdToType (d.byType.take roomGroupLimit)) t)).map LockGroup.room

theorem nodup_countedRooms (t : RoomTypeName) : (d.countedRooms t).Nodup :=
  d.nodup_rooms.sublist (((filter_sublist).trans (take_sublist _ _)).map _)

theorem total_eq (t : RoomTypeName) :
    TypeLocks.total (typeLocks (roomIdToType (d.byType.take roomGroupLimit))
      (d.byRoom.take lockGroupLimit)) t = (d.countedRooms t).length := by
  have hone : ∀ g ∈ (d.byRoom.take lockGroupLimit).filter
      (LockGroup.counts (roomIdToType (d.byType.take roomGroupLimit)) t), g.count = 1 := by
    intro g hg
    obtain ⟨l, -, -, hcount⟩ :=
      (d.mem_byRoom g).mp (mem_of_mem_take (mem_filter.mp hg).1)
    exact hcount
  rw [total_typeLocks, countedRooms, length_map, map_congr_left hone,
    map_const', sum_replicate_nat, Nat.mul_one]

theorem mem_countedRooms (ht : t.truthy = true)
    (hread : ∃ g ∈ d.byType.take roomGroupLimit, g.roomType = t) {id : ℕ} :
    id ∈ d.countedRooms t ↔ (∃ r ∈ roomsOf rooms.rows t, r.id = id) ∧
      ∃ l, locks id night = some l ∧ (∃ c : LockClass, l.lockType = some c.lockType) ∧
        ⟨id, l.lockType, 1⟩ ∈ d.byRoom.take lockGroupLimit := by
  simp only [countedRooms, mem_map, mem_filter, LockGroup.counts, Bool.and_eq_true,
    beq_iff_eq, Option.isSome_iff_exists, Option.bind_eq_some_iff, lockClass_eq_some]
  constructor
  · rintro ⟨⟨room, lockType, count⟩, ⟨hg, htype, c, k, hk, rfl⟩, rfl⟩
    obtain ⟨l, hl, rfl, rfl⟩ := (d.mem_byRoom _).mp (mem_of_mem_take hg)
    exact ⟨(d.roomIdToType_iff ht hread).mp htype, l, hl, ⟨c, hk⟩, hg⟩
  · rintro ⟨hroom, l, hl, ⟨c, hc⟩, hg⟩
    exact ⟨_, ⟨hg, (d.roomIdToType_iff ht hread).mpr hroom, c, _, hc, rfl⟩, rfl⟩

theorem countedRooms_subset (ht : t.truthy = true)
    (hread : ∃ g ∈ d.byType.take roomGroupLimit, g.roomType = t) :
    d.countedRooms t ⊆ (lockedRoomsOf rooms.rows locks night t).map TypedRoom.id := by
  intro id hid
  obtain ⟨⟨r, hr, rfl⟩, l, hl, -⟩ := (d.mem_countedRooms ht hread).mp hid
  exact mem_map_of_mem (mem_lockedRoomsOf.mpr ⟨hr, by simp [hl]⟩)

theorem countedRooms_subperm (ht : t.truthy = true)
    (hread : ∃ g ∈ d.byType.take roomGroupLimit, g.roomType = t) :
    List.Subperm (d.countedRooms t)
      ((lockedRoomsOf rooms.rows locks night t).map TypedRoom.id) :=
  (d.nodup_countedRooms t).subperm (d.countedRooms_subset ht hread)

theorem nodup_lockedRoomsOf (rooms : Collection TypedRoom TypedRoom.id) (locks : LockTable)
    (night : ℤ) (t : RoomTypeName) :
    ((lockedRoomsOf rooms.rows locks night t).map TypedRoom.id).Nodup :=
  rooms.unique.sublist ((filter_sublist.trans filter_sublist).map _)

theorem length_countedRooms_iff (ht : t.truthy = true)
    (hread : ∃ g ∈ d.byType.take roomGroupLimit, g.roomType = t) :
    (d.countedRooms t).length = (lockedRoomsOf rooms.rows locks night t).length ↔
      d.Counted t := by
  have hsub := d.countedRooms_subperm ht hread
  constructor
  · intro hlength
    have hperm := hsub.perm_of_length_le (by rw [length_map, hlength])
    have hall (r : TypedRoom) (hr : r ∈ roomsOf rooms.rows t) (l : Lock)
        (hl : locks r.id night = some l) : (∃ c : LockClass, l.lockType = some c.lockType) ∧
          ⟨r.id, l.lockType, 1⟩ ∈ d.byRoom.take lockGroupLimit := by
      have hlocked : r ∈ lockedRoomsOf rooms.rows locks night t :=
        mem_lockedRoomsOf.mpr ⟨hr, by simp [hl]⟩
      have hcounted := hperm.mem_iff.mpr (mem_map_of_mem hlocked)
      obtain ⟨-, l', hl', h⟩ := (d.mem_countedRooms ht hread).mp hcounted
      rw [hl] at hl'
      cases hl'
      exact h
    exact ⟨hread, fun r hr l hl => (hall r hr l hl).1, fun r hr l hl => (hall r hr l hl).2⟩
  · intro h
    have hall : (lockedRoomsOf rooms.rows locks night t).map TypedRoom.id ⊆ d.countedRooms t := by
      intro id hid
      obtain ⟨r, hr, rfl⟩ := mem_map.mp hid
      obtain ⟨hr, hlocked⟩ := mem_lockedRoomsOf.mp hr
      obtain ⟨l, hl⟩ := Option.isSome_iff_exists.mp hlocked
      exact (d.mem_countedRooms ht hread).mpr
        ⟨⟨r, hr, rfl⟩, l, hl, h.classed r hr l hl, h.seen r hr l hl⟩
    have hle := ((nodup_lockedRoomsOf rooms locks night t).subperm hall).length_le
    rw [length_map] at hle
    have hge := hsub.length_le
    rw [length_map] at hge
    exact Nat.le_antisymm hge hle

theorem sellableOf_read (htyped : ∀ r n l, locks r n = some l → l.lockType ≠ none)
    (ht : t.truthy = true) (hread : ∃ g ∈ d.byType.take roomGroupLimit, g.roomType = t) :
    sellableOf d.inventory t =
      some ((roomsOf rooms.rows t).length - (d.countedRooms t).length : ℤ) := by
  have hle := (d.countedRooms_subperm ht hread).length_le
  have hrooms := length_lockedRoomsOf_le rooms.rows locks night t
  rw [length_map] at hle
  have hmax : (0 : ℤ) ≤ (roomsOf rooms.rows t).length - (d.countedRooms t).length := by omega
  rw [inventory, sellableOf_compute (d.byRoom_typed htyped) ht, d.find_read hread,
    Option.map_some, sellable_inventoryRow]
  simp only [roomGroup]
  rw [d.total_eq, max_eq_right hmax]

theorem sellableOf_unread (htyped : ∀ r n l, locks r n = some l → l.lockType ≠ none)
    (ht : t.truthy = true) (hno : ¬ ∃ g ∈ d.byType.take roomGroupLimit, g.roomType = t) :
    sellableOf d.inventory t = none := by
  rw [inventory, sellableOf_compute (d.byRoom_typed htyped) ht, d.find_unread hno, Option.map_none]

theorem identity_iff (htyped : ∀ r n l, locks r n = some l → l.lockType ≠ none)
    (ht : t.truthy = true) : d.Identity t ↔ d.Counted t := by
  by_cases hread : ∃ g ∈ d.byType.take roomGroupLimit, g.roomType = t
  · rw [Identity, d.sellableOf_read htyped ht hread, ← d.length_countedRooms_iff ht hread,
      Option.some.injEq, freeRooms]
    omega
  · refine iff_of_false (fun h => ?_) fun h => hread h.read
    rw [Identity, d.sellableOf_unread htyped ht hread] at h
    cases h

theorem exists_group (hrooms : roomsOf rooms.rows t ≠ []) : ∃ g ∈ d.byType, g.roomType = t :=
  ⟨roomGroup rooms.rows t, d.mem_byType.mpr ⟨rfl, hrooms⟩, rfl⟩

theorem counted_of_le (hrooms : roomsOf rooms.rows t ≠ [])
    (hclass : ∀ r n l, locks r n = some l → ∃ c : LockClass, l.lockType = some c.lockType)
    (htypes : d.byType.length ≤ roomGroupLimit) (hlocks : d.byRoom.length ≤ lockGroupLimit) :
    d.Counted t where
  read := by
    rw [take_of_length_le htypes]
    exact d.exists_group hrooms
  classed r _ l hl := hclass _ _ l hl
  seen r _ l hl := by
    rw [take_of_length_le hlocks]
    exact (d.mem_byRoom _).mpr ⟨l, hl, rfl, rfl⟩

end Reading

/-! ### Runs -/

def Known (k : LockType) : Prop := ∃ c : LockClass, k = c.lockType

instance : DecidablePred Known := fun k =>
  decidable_of_iff (k.lockClass.isSome = true) <| by
    simp only [Known, Option.isSome_iff_exists, lockClass_eq_some]

/-- In every state of the writers and for every reading the inventory identity holds of a type
exactly when its group and the locks of its rooms are read and have a class. After runs that
block rooms under known types it holds of every type with a room in every reading within the
limits. -/
theorem sellable_identity {p : Pool State Writer} (hp : lockWriters.machine.Reachable p)
    (rooms : Collection TypedRoom TypedRoom.id) (night : ℤ)
    (d : Reading rooms p.store.locks night) (t : ℕ) :
    (d.Identity (.named t) ↔ d.Counted (.named t)) ∧
      (lockWriters.machine.Reach (BlockTypesIn Known) p → roomsOf rooms.rows (.named t) ≠ [] →
        d.byType.length ≤ roomGroupLimit → d.byRoom.length ≤ lockGroupLimit →
        d.Identity (.named t)) := by
  have htyped : ∀ r n l, p.store.locks r n = some l → l.lockType ≠ none := by
    intro r n l hl
    obtain ⟨k, hk, -⟩ := (locksIn_of_reachable hp).typed r n l hl
    simp [hk]
  have hiff := d.identity_iff htyped (t := .named t) rfl
  refine ⟨hiff, fun hknown hrooms htypes hgroups => ?_⟩
  refine hiff.mpr (d.counted_of_le hrooms (fun r n l hl => ?_) htypes hgroups)
  have hlocks := locksIn_of_reach ⟨.booking, rfl⟩ ⟨.hold, rfl⟩ hknown
  obtain ⟨k, hk, c, rfl⟩ := hlocks.typed r n l hl
  exact ⟨c, hk⟩

def noLocks : Pool State Writer := ⟨emptyState, []⟩

theorem init_noLocks : lockWriters.machine.init noLocks := ⟨⟨rfl, rfl⟩, rfl⟩

/-- The lock that a writer of the runs below inserts. -/
def lockOf (owner : LockOwner) (k : LockType) : Lock := ⟨owner, some k, .stamped 0⟩

/-- Room 6 is out of order, room 7 is on hold, and booking 0 takes room 5. -/
def mixedRun : List (Act LockEnv WriterCall WriterMove) :=
  [.call (.applyRoomBlock ⟨6, LockClass.ooo.lockType, 0, 1⟩), .step 0 .advance, .step 0 .advance,
   .call (.createBookingHold ⟨3, 7, 0, 1⟩), .step 1 .advance,
   .env (.atomic (.create (nightIn 0))), .env (.atomic (.advance 0)), .env (.atomic (.advance 0))]

def mixedLocks : LockTable :=
  ((LockTable.put (fun _ _ => none) 6 0 (lockOf (blockOwner (.word 1) 6) (.word 1))).put
    7 0 (lockOf (.booking 3) (.word 0))).put 5 0 (lockOf (.booking 0) .booking)

def fourRooms : Collection TypedRoom TypedRoom.id :=
  ⟨[⟨5, .named 1, none, none⟩, ⟨6, .named 1, some true, none⟩, ⟨7, .named 1, none, none⟩,
    ⟨8, .named 1, none, some false⟩], by decide⟩

def mixedReading : Reading fourRooms mixedLocks 0 where
  byType := roomGroups fourRooms.rows
  byRoom := [⟨5, some .booking, 1⟩, ⟨6, some (.word 1), 1⟩, ⟨7, some (.word 0), 1⟩]
  byType_perm := List.Perm.refl _
  byRoom_nodup := by decide
  mem_byRoom g := by
    cases g
    simp only [mixedLocks, LockTable.put_eq_some, mem_cons, not_mem_nil, or_false,
      LockGroup.mk.injEq]
    constructor
    · rintro (⟨rfl, rfl, rfl⟩ | ⟨rfl, rfl, rfl⟩ | ⟨rfl, rfl, rfl⟩) <;> simp [lockOf]
    · rintro ⟨l, h, rfl, rfl⟩
      obtain ⟨rfl, -, rfl⟩ | ⟨-, ⟨rfl, -, rfl⟩ | ⟨-, ⟨rfl, -, rfl⟩ | ⟨-, h⟩⟩⟩ := h
      · simp [lockOf]
      · simp [lockOf]
      · simp [lockOf]
      · cases h

theorem sellable_identity_mixed : ∃ p, lockWriters.machine.Reach (BlockTypesIn Known) p ∧
    ∃ d : Reading fourRooms p.store.locks 0, d.Identity (.named 1) ∧
      freeRooms fourRooms.rows p.store.locks 0 (.named 1) = 1 := by
  obtain ⟨p, hp, hl⟩ := Machine.exists_reach_of_runUnder (M := lockWriters.machine)
    (C := BlockTypesIn Known) (f := fun p => p.store.locks) (v := mixedLocks) mixedRun
    init_noLocks rfl
  have hd : ∃ d : Reading fourRooms p.store.locks 0,
      d.byType.length ≤ roomGroupLimit ∧ d.byRoom.length ≤ lockGroupLimit := by
    rw [hl]
    exact ⟨mixedReading, by decide, by decide⟩
  obtain ⟨d, htypes, hlocks⟩ := hd
  have hall : lockWriters.machine.Reachable p := hp.mono fun _ _ _ => trivial
  refine ⟨p, hp, d, (sellable_identity hall fourRooms 0 d 1).2 hp (by decide) htypes hlocks, ?_⟩
  rw [hl]
  decide

/-- A block under a word of its own. -/
def renovationRun : List (Act LockEnv WriterCall WriterMove) :=
  [.call (.applyRoomBlock ⟨5, .word 4, 0, 1⟩), .step 0 .advance, .step 0 .advance]

def renovationLocks : LockTable :=
  LockTable.put (fun _ _ => none) 5 0 (lockOf (blockOwner (.word 4) 5) (.word 4))

def oneRoom : Collection TypedRoom TypedRoom.id := ⟨[⟨5, .named 1, none, none⟩], by decide⟩

def renovationReading : Reading oneRoom renovationLocks 0 where
  byType := roomGroups oneRoom.rows
  byRoom := [⟨5, some (.word 4), 1⟩]
  byType_perm := List.Perm.refl _
  byRoom_nodup := by decide
  mem_byRoom g := by
    cases g
    simp only [renovationLocks, LockTable.put_eq_some, mem_cons, not_mem_nil, or_false,
      LockGroup.mk.injEq]
    constructor
    · rintro ⟨rfl, rfl, rfl⟩
      simp [lockOf]
    · rintro ⟨l, h, rfl, rfl⟩
      obtain ⟨rfl, -, rfl⟩ | ⟨-, h⟩ := h
      · simp [lockOf]
      · cases h

def manyTypes : Collection TypedRoom TypedRoom.id :=
  ⟨(List.range 201).map fun i => ⟨i, .named i, none, none⟩, by
    rw [map_map]
    exact nodup_range.map fun _ _ h => h⟩

theorem roomGroups_manyTypes : (roomGroups manyTypes.rows).map RoomGroup.roomType =
    (List.range 201).map RoomTypeName.named := by
  have hid : RoomGroup.roomType ∘ roomGroup manyTypes.rows = id := rfl
  have hall : manyTypes.rows.filter TypedRoom.physical = manyTypes.rows :=
    filter_eq_self.mpr fun r hr => by
      obtain ⟨i, -, rfl⟩ := mem_map.mp hr
      rfl
  have hnodup : ((List.range 201).map RoomTypeName.named).Nodup :=
    nodup_range.map fun _ _ h => RoomTypeName.named.inj h
  rw [roomGroups, map_map, hid, map_id, hall, manyTypes, map_map]
  exact hnodup.dedup

def unlockedReading : Reading manyTypes emptyState.locks 0 where
  byType := roomGroups manyTypes.rows
  byRoom := []
  byType_perm := List.Perm.refl _
  byRoom_nodup := nodup_nil
  mem_byRoom g := by simp [emptyState]

theorem unread_manyTypes : ¬ ∃ g ∈ unlockedReading.byType.take roomGroupLimit,
    g.roomType = .named 200 := by
  rintro ⟨g, hg, ht⟩
  have hmem := mem_map_of_mem (f := RoomGroup.roomType) hg
  simp only [unlockedReading] at hmem
  rw [map_take, roomGroups_manyTypes, ← map_take, take_range, ht] at hmem
  simp [roomGroupLimit] at hmem

/-- The only room of its type is blocked under a word without a class, and the inventory has it
for sale. The last of 201 types has a free room and no row. -/
theorem blocked_room_sellable :
    (∃ p, lockWriters.machine.Reachable p ∧ ∃ d : Reading oneRoom p.store.locks 0,
      sellableOf d.inventory (.named 1) = some 1 ∧
        freeRooms oneRoom.rows p.store.locks 0 (.named 1) = 0) ∧
    ∃ p, lockWriters.machine.Reachable p ∧ ∃ d : Reading manyTypes p.store.locks 0,
      sellableOf d.inventory (.named 200) = none ∧
        freeRooms manyTypes.rows p.store.locks 0 (.named 200) = 1 := by
  constructor
  · obtain ⟨p, hp, hl⟩ := Machine.exists_reachable_of_run (M := lockWriters.machine)
      (f := fun p => p.store.locks) (v := renovationLocks) renovationRun init_noLocks rfl
    refine ⟨p, hp, ?_⟩
    rw [hl]
    exact ⟨renovationReading, by decide, by decide⟩
  · exact ⟨noLocks, .start init_noLocks, unlockedReading,
      unlockedReading.sellableOf_unread (fun _ _ _ hl => by cases hl) rfl unread_manyTypes,
      by decide +kernel⟩

end SyrocePms.Atomic
