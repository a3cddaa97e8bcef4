import SyrocePms.Atomic.RoomBlocks

/-! The rows of `room_night_locks` as the collection holds them without its unique index:
those of every tenant, in their order, and any number of them on one night. The release of
a room block deletes some of these rows. -/

namespace SyrocePms.RoomLocks

open Atomic Reservation List

/-- The `booking_id` of a row. -/
inductive Holder where
  | absent
  | empty
  | named (owner : LockOwner)
  deriving DecidableEq

def Holder.truthy : Holder → Bool
  | .named _ => true
  | _ => false

structure NightKey where
  tenant : ℕ
  room : ℕ
  night : ℤ
  deriving DecidableEq

/-- A row. The text of its timestamp stands for its place among the texts; the empty text
is the first of them. -/
structure LockRow where
  key : NightKey
  holder : Holder
  lockType : Option LockType := some .booking
  createdAt : Option ℕ := none
  deriving DecidableEq

abbrev Rows := List LockRow

def group (rows : Rows) (key : NightKey) : Rows := rows.filter fun r => r.key = key

def deleteMany (rows : Rows) (p : LockRow → Bool) : Rows := rows.filter fun r => !p r

variable {rows : Rows} {key : NightKey} {r : LockRow}

@[simp] theorem mem_group : r ∈ group rows key ↔ r ∈ rows ∧ r.key = key := by
  simp [group]

variable {p : LockRow → Bool}

@[simp] theorem mem_deleteMany : r ∈ deleteMany rows p ↔ r ∈ rows ∧ p r = false := by
  simp [deleteMany]

theorem deleteMany_eq_self : deleteMany rows p = rows ↔ ∀ r ∈ rows, p r = false := by
  simp [deleteMany, filter_eq_self]

theorem deleteMany_congr {q : LockRow → Bool} :
    deleteMany rows p = deleteMany rows q ↔ ∀ r ∈ rows, p r = q r := by
  constructor
  · intro h r hr
    have hmem : r ∈ deleteMany rows p ↔ r ∈ deleteMany rows q := by rw [h]
    simp only [mem_deleteMany, hr, true_and] at hmem
    cases hp : p r <;> cases hq : q r <;> simp_all
  · intro h
    apply filter_congr
    intro r hr
    rw [h r hr]

theorem group_deleteMany (rows : Rows) (p : LockRow → Bool) (key : NightKey) :
    group (deleteMany rows p) key = deleteMany (group rows key) p := by
  simp only [group, deleteMany, filter_filter]
  apply filter_congr
  intro r _
  rw [Bool.and_comm]

/-- A deletion on other nights leaves a night as it is. -/
theorem group_deleteMany_of_forall (h : ∀ r, p r = true → r.key ≠ key) :
    group (deleteMany rows p) key = group rows key := by
  rw [group_deleteMany, deleteMany_eq_self]
  intro r hr
  by_contra hp
  exact h r (by simpa using hp) (mem_group.mp hr).2

/-! ### `release_room_block` -/

/-- A date argument: left out or empty, the text of a day, or another text. -/
inductive DateArg where
  | absent
  | day (d : ℤ)
  | unreadable

structure ReleaseArgs where
  tenant : ℕ
  room : ℕ
  blockType : LockType
  startDate : DateArg := .absent
  endDate : DateArg := .absent
  actor : ℕ := 0

def ReleaseArgs.isBlockLock (a : ReleaseArgs) (r : LockRow) : Bool :=
  r.key.tenant == a.tenant && r.key.room == a.room &&
    r.holder == .named (blockOwner a.blockType a.room)

def releaseNights (startDate endDate : DateArg) : Except Unit (List ℤ) :=
  match startDate, endDate with
  | .absent, _ | _, .absent => .ok []
  | .day s, .day e => .ok (nightDates s e)
  | _, _ => .error ()

def releaseQuery (a : ReleaseArgs) (nights : List ℤ) (r : LockRow) : Bool :=
  a.isBlockLock r && (nights.isEmpty || nights.contains r.key.night)

structure ReleaseEvent where
  owner : LockOwner
  room : ℕ
  blockType : LockType
  releasedNights : List ℤ
  actor : ℕ

structure Released where
  rows : Rows
  releasedCount : ℕ
  releasedNights : List ℤ
  event : Option ReleaseEvent

def releaseRows (rows : Rows) (a : ReleaseArgs) (nights : List ℤ) : Released :=
  let locks := rows.filter (releaseQuery a nights)
  let released := (locks.take 365).map fun r => r.key.night
  { rows := deleteMany rows (releaseQuery a nights)
    releasedCount := locks.length
    releasedNights := released
    event :=
      if locks.isEmpty then none
      else some ⟨blockOwner a.blockType a.room, a.room, a.blockType, released, a.actor⟩ }

def releaseRoomBlock (rows : Rows) (a : ReleaseArgs) : Except Unit Released :=
  (releaseNights a.startDate a.endDate).map (releaseRows rows a)

def ReleaseArgs.inRange (a : ReleaseArgs) (start stop : ℤ) (r : LockRow) : Bool :=
  a.isBlockLock r && decide (start ≤ r.key.night ∧ r.key.night < stop)

def ReleasesRange (rows : Rows) (a : ReleaseArgs) (start stop : ℤ) : Prop :=
  ∃ res, releaseRoomBlock rows { a with startDate := .day start, endDate := .day stop } = .ok res ∧
    res.rows = deleteMany rows (a.inRange start stop)

/-- A range without a night is dropped from the filter: then the release of the range is
exact only where the block has no lock at all. -/
theorem releasesRange_iff (rows : Rows) (a : ReleaseArgs) (start stop : ℤ) :
    ReleasesRange rows a start stop ↔
      start < stop ∨ ∀ r ∈ rows, a.isBlockLock r = false := by
  have hrelease : ReleasesRange rows a start stop ↔ ∀ r ∈ rows,
      releaseQuery a (nightDates start stop) r = a.inRange start stop r := by
    rw [← deleteMany_congr]
    constructor
    · rintro ⟨res, h, hrows⟩
      cases h
      exact hrows
    · intro h
      exact ⟨_, rfl, h⟩
  rw [hrelease]
  by_cases hlt : start < stop
  · have hne : (nightDates start stop).isEmpty = false := by
      rw [isEmpty_eq_false_iff_exists_mem]
      exact ⟨start, mem_nightDates.mpr ⟨Int.le_refl _, hlt⟩⟩
    simp only [hlt, true_or, iff_true]
    intro r _
    have hmem : (nightDates start stop).contains r.key.night =
        decide (start ≤ r.key.night ∧ r.key.night < stop) := by
      rw [Bool.eq_iff_iff, contains_iff_mem, mem_nightDates, decide_eq_true_iff]
    rw [releaseQuery, ReleaseArgs.inRange, hne, hmem, Bool.false_or]
  · have hnil : nightDates start stop = [] := by
      rw [eq_nil_iff_forall_not_mem]
      intro n hn
      have hrange := mem_nightDates.mp hn
      omega
    simp only [hlt, false_or]
    apply forall₂_congr
    intro r _
    have hout : ¬ (start ≤ r.key.night ∧ r.key.night < stop) := by omega
    simp [releaseQuery, ReleaseArgs.inRange, hnil, hout]

/-- An empty range on a room that is out of order: the release deletes its lock. -/
theorem not_releasesRange_empty : ¬ ReleasesRange
    [⟨⟨1, 7, 20⟩, .named (blockOwner LockClass.ooo.lockType 7), some LockClass.ooo.lockType, none⟩]
    ⟨1, 7, LockClass.ooo.lockType, .absent, .absent, 0⟩ 5 5 := by
  rintro ⟨res, h, hrows⟩
  cases h
  revert hrows
  decide

end SyrocePms.RoomLocks
