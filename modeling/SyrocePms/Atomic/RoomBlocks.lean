import Mathlib.Data.Set.Finite.Lattice
import SyrocePms.Atomic.Inventory
import SyrocePms.Lib.Threads

/-! The writers of `room_night_locks` side by side: the atomic booking operations,
`create_booking_hold` and `apply_room_block`. One step is one operation on the collection,
and beside the calls the holds are confirmed and locks are released. -/

namespace SyrocePms.Atomic

open Reservation Lib

variable {k : LockType} {booking : ℕ} {K : LockType → Prop}

inductive LockClass where
  | booking
  | hold
  | ooo
  | oos
  | maintenance
  deriving DecidableEq

def LockClass.lockType : LockClass → LockType
  | .booking => .booking
  | .hold => .word 0
  | .ooo => .word 1
  | .oos => .word 2
  | .maintenance => .word 3

def LockType.lockClass : LockType → Option LockClass
  | .booking => some .booking
  | .word 0 => some .hold
  | .word 1 => some .ooo
  | .word 2 => some .oos
  | .word 3 => some .maintenance
  | .word _ => none

@[simp] theorem lockClass_lockType (c : LockClass) : c.lockType.lockClass = some c := by
  cases c <;> rfl

theorem lockClass_eq_some {c : LockClass} : k.lockClass = some c ↔ k = c.lockType := by
  constructor
  · intro h
    unfold LockType.lockClass at h
    split at h <;> cases h <;> rfl
  · rintro rfl
    exact lockClass_lockType c

/-- `prefix_map`, in which every other text counts as `ooo`. -/
def blockPrefixCode (blockType : LockType) : ℕ :=
  match blockType.lockClass with
  | some .oos => 1
  | some .maintenance => 2
  | _ => 0

/-- `lock_booking_id`: one of the three words in front of the room. -/
def blockOwner (blockType : LockType) (room : ℕ) : LockOwner :=
  .block (3 * room + blockPrefixCode blockType)

/-- The arguments of `apply_room_block`. Any text is a block type. -/
structure BlockArgs where
  room : ℕ
  blockType : LockType
  startDate : ℤ
  endDate : ℤ

/-- The arguments of `create_booking_hold`, with the days of its dates. -/
structure HoldArgs where
  booking : ℕ
  room : ℕ
  checkIn : ℤ
  checkOut : ℤ

/-- A night that a block found taken, with what the lookup read of the lock. -/
structure BlockConflict where
  night : ℤ
  heldBy : Option LockOwner
  lockType : Option LockType

inductive WriterAnswer where
  | noNights
  | held (nights : List ℤ)
  | holdConflict (night : ℤ)
  | blocked (success : Bool) (nights : List ℤ) (conflicts : List BlockConflict)
  | failed

/-- A running call of the two writers: `created` is the timestamp of its lock documents. -/
inductive Writer where
  | hold (a : HoldArgs) (created : ℕ) (claimed todo : List ℤ)
  | rollback (a : HoldArgs) (claimed : List ℤ) (night : ℤ)
  | block (a : BlockArgs) (created : ℕ) (blocked : List ℤ) (conflicts : List BlockConflict)
      (todo : List ℤ)
  | inspect (a : BlockArgs) (created : ℕ) (blocked : List ℤ) (conflicts : List BlockConflict)
      (night : ℤ) (todo : List ℤ)
  | returned (answer : WriterAnswer)

namespace Writer

def holdDoc (a : HoldArgs) (created : ℕ) : Lock :=
  ⟨.booking a.booking, some LockClass.hold.lockType, .stamped created⟩

/-- The lock document of `apply_room_block`. -/
def blockDoc (a : BlockArgs) (created : ℕ) : Lock :=
  ⟨blockOwner a.blockType a.room, some a.blockType, .stamped created⟩

def conflictAt (night : ℤ) (existing : Option Lock) : BlockConflict :=
  ⟨night, existing.map Lock.owner, existing.bind Lock.lockType⟩

def holdStep (s : State) (a : HoldArgs) (created : ℕ) (claimed : List ℤ) (night : ℤ)
    (todo : List ℤ) : State × Writer :=
  match s.locks a.room night with
  | none => ({ s with locks := s.locks.put a.room night (holdDoc a created) },
      .hold a created (claimed ++ [night]) todo)
  | some _ => (s, if claimed.isEmpty then .returned (.holdConflict night)
      else .rollback a claimed night)

/-- One insert of `apply_room_block`. -/
def blockStep (s : State) (a : BlockArgs) (created : ℕ) (blocked : List ℤ)
    (conflicts : List BlockConflict) (night : ℤ) (todo : List ℤ) : State × Writer :=
  match s.locks a.room night with
  | none => ({ s with locks := s.locks.put a.room night (blockDoc a created) },
      .block a created (blocked ++ [night]) conflicts todo)
  | some _ => (s, .inspect a created blocked conflicts night todo)

def advance (s : State) : Writer → Option (State × Writer)
  | .hold _ _ claimed [] => some (s, .returned (.held claimed))
  | .hold a created claimed (night :: todo) => some (holdStep s a created claimed night todo)
  | .rollback a claimed night =>
    some ({ s with locks := s.locks.deleteMany (ofClaim a.booking a.room claimed) },
      .returned (.holdConflict night))
  | .block _ _ blocked conflicts [] =>
    some (s, .returned (.blocked (!blocked.isEmpty) blocked conflicts))
  | .block a created blocked conflicts (night :: todo) =>
    some (blockStep s a created blocked conflicts night todo)
  | .inspect a created blocked conflicts night todo =>
    some (s, .block a created blocked
      (conflicts ++ [conflictAt night (s.locks a.room night)]) todo)
  | .returned _ => none

end Writer

inductive WriterCall where
  | createBookingHold (a : HoldArgs)
  | applyRoomBlock (a : BlockArgs)

def WriterCall.start (s : State) : WriterCall → Writer
  | .createBookingHold a =>
    if (nightDates a.checkIn a.checkOut).isEmpty then .returned .noNights
    else .hold a s.now [] (nightDates a.checkIn a.checkOut)
  | .applyRoomBlock a =>
    if (nightDates a.startDate a.endDate).isEmpty then .returned .noNights
    else .block a s.now [] [] (nightDates a.startDate a.endDate)

/-- An operation goes through, its answer is lost, or the call ends before it. -/
inductive WriterMove where
  | advance
  | lost
  | stop

def Writer.move (s : State) (w : Writer) : WriterMove → Option (State × Writer)
  | .advance => w.advance s
  | .lost => (w.advance s).map fun r => (r.1, .returned .failed)
  | .stop => some (s, .returned .failed)

/-- Beside the two writers the atomic operations go on, `confirm_hold` turns one hold after
the other into a lock of its booking, and any lock may be released. -/
inductive LockEnv where
  | atomic (a : Action)
  | confirm (room : ℕ) (night : ℤ)
  | release (room : ℕ) (night : ℤ)

namespace State

def confirmHold (s : State) (room : ℕ) (night : ℤ) : Option State :=
  (s.locks room night).bind fun l =>
    if l.lockType = some LockClass.hold.lockType then
      some { s with locks := s.locks.put room night { l with lockType := some .booking } }
    else none

def outside (s : State) : LockEnv → Option State
  | .atomic a => s.act a
  | .confirm room night => s.confirmHold room night
  | .release room night =>
    some { s with locks := s.locks.deleteMany fun r n _ => r == room && n == night }

end State

def lockWriters : Program State Writer LockEnv WriterCall WriterMove where
  init s := s.locks = (fun _ _ => none) ∧ s.tasks = .empty
  env := State.outside
  call s c := some (c.start s)
  step _ s w o := w.move s o

/-! ### The locks that a step leaves -/

def LeavesLocks (K : LockType → Prop) (locks locks' : LockTable) : Prop :=
  ∃ room, ∀ r n l, locks' r n = some l →
    locks r n = some l ∨ (r = room ∧ ∃ k, l.lockType = some k ∧ K k)

section Steps

variable {K : LockType → Prop} {locks locks' : LockTable} {s s' : State}

theorem leavesLocks_refl : LeavesLocks K locks locks := ⟨0, fun _ _ _ h => .inl h⟩

theorem leavesLocks_deleteMany (p : ℕ → ℤ → Lock → Bool) :
    LeavesLocks K locks (locks.deleteMany p) :=
  ⟨0, fun _ _ _ h => .inl (LockTable.deleteMany_eq_some.mp h).1⟩

theorem leavesLocks_put {room : ℕ} {night : ℤ} {l : Lock} (hl : l.lockType = some k) (hk : K k) :
    LeavesLocks K locks (locks.put room night l) := by
  refine ⟨room, fun r n x hx => ?_⟩
  obtain ⟨hr, -, rfl⟩ | ⟨-, hx⟩ := LockTable.put_eq_some.mp hx
  · exact .inr ⟨hr, k, hl, hk⟩
  · exact .inl hx

theorem leaves_tryClaim (hK : K .booking) (t : Task) (night : ℤ) (created : ℕ) (taken : Pc) :
    LeavesLocks K s.locks (s.tryClaim t night created taken).locks := by
  unfold State.tryClaim
  split
  · exact leavesLocks_put rfl hK
  · exact leavesLocks_refl

theorem leaves_claimStep (hK : K .booking) (t : Task) (night : ℤ) :
    LeavesLocks K s.locks (s.claimStep t night).locks := by
  unfold State.claimStep
  split
  · exact leaves_tryClaim hK ..
  · split
    · exact leavesLocks_refl
    · split <;> exact leavesLocks_refl
  · split <;> exact leavesLocks_refl
  · split
    · exact leavesLocks_deleteMany _
    · exact leavesLocks_refl
  · exact leaves_tryClaim hK ..
  · exact leavesLocks_refl

theorem overlapStep_locks (t : Task) : (s.overlapStep t).locks = s.locks := by
  unfold State.overlapStep
  split
  · split
    · split <;> rfl
    · rfl
  · split <;> rfl
  · rfl

theorem insertDoc_locks (t : Task) : (s.insertDoc t).locks = s.locks := by
  unfold State.insertDoc
  split
  · split <;> rfl
  · rfl

theorem writeStep_locks (t : Task) : (s.writeStep t).locks = s.locks := by
  unfold State.writeStep
  split <;> rfl

theorem statusStep_locks (t : Task) : (s.statusStep t).locks = s.locks := by
  unfold State.statusStep
  split <;> rfl

/-- The atomic operations insert locks of type `booking` alone. -/
theorem leaves_advance (hK : K .booking) (t : Task) :
    LeavesLocks K s.locks (s.advance t).locks := by
  unfold State.advance
  split
  · rw [overlapStep_locks]
    exact leavesLocks_refl
  iterate 6
    · split
      · exact leaves_claimStep hK ..
      · exact leavesLocks_refl
  · exact leavesLocks_deleteMany _
  · rw [insertDoc_locks]
    exact leavesLocks_refl
  · exact leavesLocks_deleteMany _
  · rw [writeStep_locks]
    exact leavesLocks_refl
  · rw [statusStep_locks]
    exact leavesLocks_refl
  · exact leavesLocks_deleteMany _
  · exact leavesLocks_refl

theorem beginCreate_locks (doc : Booking) : (s.beginCreate doc).locks = s.locks := by
  unfold State.beginCreate
  simp only
  split
  · rfl
  · split <;> rfl

theorem beginAssign_locks {target : BookingWrite} {writes releaseObsolete : Bool}
    (h : s.beginAssign booking target writes releaseObsolete = some s') : s'.locks = s.locks := by
  obtain ⟨b, -, h⟩ := Option.bind_eq_some_iff.mp h
  simp only at h
  split at h
  · cases h
    rfl
  · cases h

theorem beginClose_locks {status : BookingStatus} (h : s.beginClose booking status = some s') :
    s'.locks = s.locks := by
  obtain ⟨b, -, h⟩ := Option.bind_eq_some_iff.mp h
  split at h
  · cases h
    rfl
  · cases h

theorem leaves_act (hK : K .booking) {a : Action} (h : s.act a = some s') :
    LeavesLocks K s.locks s'.locks := by
  cases a with
  | tick =>
    cases h
    exact leavesLocks_refl
  | create doc =>
    cases h
    rw [beginCreate_locks]
    exact leavesLocks_refl
  | assign booking target writes releaseObsolete =>
    rw [beginAssign_locks h]
    exact leavesLocks_refl
  | close booking status =>
    rw [beginClose_locks h]
    exact leavesLocks_refl
  | advance id =>
    obtain ⟨t, -, h⟩ := Option.bind_eq_some_iff.mp h
    split at h
    · cases h
    · cases h
      exact leaves_advance hK t
  | raise id =>
    obtain ⟨t, -, h⟩ := Option.bind_eq_some_iff.mp h
    split at h
    · cases h
    · cases h
      exact leavesLocks_refl
  | crash id =>
    obtain ⟨t, -, rfl⟩ := Option.map_eq_some_iff.mp h
    exact leavesLocks_refl

theorem leaves_outside (hK : K .booking) {e : LockEnv} (h : s.outside e = some s') :
    LeavesLocks K s.locks s'.locks := by
  cases e with
  | atomic a => exact leaves_act hK h
  | confirm room night =>
    obtain ⟨l, -, h⟩ := Option.bind_eq_some_iff.mp h
    split at h
    · cases h
      exact leavesLocks_put rfl hK
    · cases h
  | release room night =>
    cases h
    exact leavesLocks_deleteMany _

def Writer.BlocksIn (K : LockType → Prop) : Writer → Prop
  | .block a .. | .inspect a .. => K a.blockType
  | _ => True

theorem leaves_writer (hK : K LockClass.hold.lockType) {w w' : Writer} (hw : w.BlocksIn K)
    (h : w.advance s = some (s', w')) : LeavesLocks K s.locks s'.locks ∧ w'.BlocksIn K := by
  cases w with
  | hold a created claimed todo =>
    cases todo with
    | nil =>
      cases h
      exact ⟨leavesLocks_refl, trivial⟩
    | cons night todo =>
      simp only [Writer.advance, Writer.holdStep] at h
      split at h
      · cases h
        exact ⟨leavesLocks_put rfl hK, trivial⟩
      · cases h
        refine ⟨leavesLocks_refl, ?_⟩
        split <;> trivial
  | rollback a claimed night =>
    cases h
    exact ⟨leavesLocks_deleteMany _, trivial⟩
  | block a created blocked conflicts todo =>
    cases todo with
    | nil =>
      cases h
      exact ⟨leavesLocks_refl, trivial⟩
    | cons night todo =>
      simp only [Writer.advance, Writer.blockStep] at h
      split at h
      · cases h
        exact ⟨leavesLocks_put rfl hw, hw⟩
      · cases h
        exact ⟨leavesLocks_refl, hw⟩
  | inspect a created blocked conflicts night todo =>
    cases h
    exact ⟨leavesLocks_refl, hw⟩
  | returned answer => cases h

end Steps

/-! ### The locks of a run -/

/-- Every lock has a type, in `K`, and a night has finitely many. -/
structure LocksIn (K : LockType → Prop) (locks : LockTable) : Prop where
  typed : ∀ r n l, locks r n = some l → ∃ k, l.lockType = some k ∧ K k
  finite : ∀ n, {r | (locks r n).isSome = true}.Finite

theorem LocksIn.leaves {locks locks' : LockTable} (h : LocksIn K locks)
    (hs : LeavesLocks K locks locks') : LocksIn K locks' := by
  obtain ⟨room, hs⟩ := hs
  constructor
  · intro r n l hl
    obtain hl | ⟨-, hk⟩ := hs r n l hl
    · exact h.typed r n l hl
    · exact hk
  · intro n
    refine ((h.finite n).insert room).subset fun r hr => ?_
    obtain ⟨l, hl⟩ := Option.isSome_iff_exists.mp hr
    obtain hl | ⟨rfl, -⟩ := hs r n l hl
    · exact .inr (by simp [hl])
    · exact .inl rfl

def BlockTypesIn (K : LockType → Prop) (_ : Pool State Writer) :
    Act LockEnv WriterCall WriterMove → Prop
  | .call (.applyRoomBlock a) => K a.blockType
  | _ => True

instance {K : LockType → Prop} [DecidablePred K] (p : Pool State Writer) :
    ∀ a, Decidable (BlockTypesIn K p a)
  | .call (.applyRoomBlock a) => inferInstanceAs (Decidable (K a.blockType))
  | .call (.createBookingHold _) => inferInstanceAs (Decidable True)
  | .env _ => inferInstanceAs (Decidable True)
  | .step _ _ => inferInstanceAs (Decidable True)

theorem preserves_locksIn (hbooking : K .booking) (hhold : K LockClass.hold.lockType) :
    Program.Preserves lockWriters (BlockTypesIn K) (fun s => LocksIn K s.locks)
      (fun _ _ w => w.BlocksIn K) (fun _ _ => True) where
  symm _ _ _ := trivial
  init s h := by
    have hempty (r : ℕ) (n : ℤ) : s.locks r n = none := by rw [h.1]
    exact ⟨fun r n l hl => by simp [hempty] at hl, fun n => by simp [hempty]⟩
  env p e s' hp _ h := ⟨hp.store.leaves (leaves_outside hbooking h), hp.thread⟩
  call p c w _ hc h := by
    cases h
    refine ⟨?_, fun _ _ => trivial⟩
    cases c with
    | createBookingHold a =>
      simp only [WriterCall.start]
      split <;> trivial
    | applyRoomBlock a =>
      simp only [WriterCall.start]
      split
      · trivial
      · exact hc
  step p k o w s' w' hp _ hw h := by
    have hok := hp.thread k w hw
    have hothers (j : ℕ) (u : Writer) (_ : j ≠ k) (hu : p.threads[j]? = some u) :
        u.BlocksIn K ∧ True := ⟨hp.thread j u hu, trivial⟩
    cases o with
    | advance =>
      obtain ⟨hl, hw'⟩ := leaves_writer hhold hok h
      exact ⟨hp.store.leaves hl, hw', hothers⟩
    | lost =>
      obtain ⟨⟨s₁, w₁⟩, hadv, he⟩ := Option.map_eq_some_iff.mp h
      cases he
      exact ⟨hp.store.leaves (leaves_writer hhold hok hadv).1, trivial, hothers⟩
    | stop =>
      cases h
      exact ⟨hp.store, trivial, hothers⟩

variable {p : Pool State Writer}

theorem locksIn_of_reach (hbooking : K .booking) (hhold : K LockClass.hold.lockType)
    (h : lockWriters.machine.Reach (BlockTypesIn K) p) : LocksIn K p.store.locks :=
  ((preserves_locksIn hbooking hhold).reach h).store

theorem locksIn_of_reachable (h : lockWriters.machine.Reachable p) :
    LocksIn (fun _ => True) p.store.locks := by
  refine locksIn_of_reach trivial trivial (h.mono fun _ a _ => ?_)
  cases a with
  | call c => cases c <;> trivial
  | env e => trivial
  | step k o => trivial

end SyrocePms.Atomic
