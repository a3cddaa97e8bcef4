import SyrocePms.Atomic.Operations

/-! The atomic booking operations run one after another without failures: each call is a
function from the stored bookings and locks to the bookings and locks it leaves. -/

namespace SyrocePms.Atomic

open Reservation Lib List Collection

/-- The bookings, the lock table and the clock of one tenant. -/
structure Store where
  bookings : Bookings
  locks : LockTable
  now : ℕ

namespace Store

/-- The answer of `_claim_night_or_get_owner`: claimed, or the row that holds the night. -/
inductive ClaimAnswer where
  | claimed
  | held (existing : Lock)

/-- `_claim_night_or_get_owner` on the lock table. A stale lock is retired and the night
claimed in its place. -/
def claimNightOrGetOwner (s : Store) (locks : LockTable) (booking room : ℕ) (night : ℤ) :
    LockTable × ClaimAnswer :=
  let mine : Lock := ⟨.booking booking, some .booking, .stamped s.now⟩
  match locks room night with
  | none => (locks.put room night mine, .claimed)
  | some existing =>
    match retirableOwner existing booking with
    | none => (locks, .held existing)
    | some owner =>
      match staleReason (lockIsOldEnough existing s.now) room night (s.bookings.get? owner) with
      | none => (locks, .held existing)
      | some _ => (locks.put room night mine, .claimed)

/-- The loop over the nights. With `adopt` a night that the booking already holds counts
as held, as in `assign_room_atomic`. A conflict rolls the claimed nights back and answers
none. -/
def claimNights (s : Store) (adopt : Bool) (booking room : ℕ) :
    List ℤ → List ℤ → LockTable → LockTable × Bool
  | [], _, locks => (locks, true)
  | night :: rest, claimed, locks =>
    match s.claimNightOrGetOwner locks booking room night with
    | (locks, .claimed) => s.claimNights adopt booking room rest (night :: claimed) locks
    | (locks, .held existing) =>
      if adopt && existing.owner == .booking booking then
        s.claimNights adopt booking room rest claimed locks
      else (locks.deleteMany (ofClaim booking room claimed), false)

def overlaps (s : Store) (room : ℕ) (ci co : Stamp) (excluded : ℕ) : Bool :=
  (findOverlappingActiveBooking s.bookings room ci co excluded).isSome

/-- `create_booking_atomic`, undefined on a taken identifier. A conflict stores nothing. -/
def createBookingAtomic (s : Store) (doc : Booking) : Option Store :=
  let stored := (s.bookings.insertOne doc).map fun bookings => { s with bookings := bookings }
  if doc.status = .cancelled ∨ doc.status = .noShow then stored
  else match doc.room, doc.checkIn, doc.checkOut with
    | some room, some ci, some co =>
      if s.overlaps room ci co doc.id then some s
      else match s.claimNights false doc.id room (nightDates ci.day co.day) [] s.locks with
        | (locks, true) => stored.map fun s => { s with locks := locks }
        | (locks, false) => some { s with locks := locks }
    | _, _, _ => stored

def releaseBookingNights (s : Store) (booking : ℕ) : Store :=
  { s with locks := s.locks.deleteMany (ofBooking booking) }

def assignRoomAtomic (s : Store) (booking room : ℕ) (ci co : Stamp) : LockTable × Bool :=
  if s.overlaps room ci co booking then (s.locks, false)
  else
    let nights := nightDates ci.day co.day
    match s.claimNights true booking room nights [] s.locks with
    | (locks, true) => (locks.deleteMany (obsolete booking room nights), true)
    | (locks, false) => (locks, false)

def assignAndWrite (s : Store) (booking : ℕ) (w : BookingWrite) : Option Store :=
  (s.bookings.get? booking).bind fun b =>
    let left := w.apply b
    match left.room, left.checkIn, left.checkOut with
    | some room, some ci, some co =>
      if b.status.terminal then none
      else match s.assignRoomAtomic booking room ci co with
        | (locks, true) =>
          some { s with locks := locks, bookings := s.bookings.update booking w.apply w.apply_id }
        | (locks, false) => some { s with locks := locks }
    | _, _, _ => none

/-- A cancellation or no-show of the front desk: the status write, then the release. -/
def closeBooking (s : Store) (booking : ℕ) (status : BookingStatus) : Option Store :=
  (s.bookings.get? booking).bind fun b =>
    if (status = .cancelled ∧ b.status.nonCancellable = false) ∨
        (status = .noShow ∧ b.status.noShowable = true) then
      some (Store.releaseBookingNights { s with
        bookings := s.bookings.update booking (fun b => { b with status := status })
          (Booking.id_setStatus status) } booking)
    else none

end Store

/-! Locks and stays in agreement: a booking owns the lock of a cell of the table exactly
when it is non-terminal and its stay covers the cell. While this holds no lock is stale,
so the claim loop meets only free nights, its own nights and conflicts, and each atomic
operation carries the agreement to the state it leaves. -/

/-- Each non-terminal booking with a room owns the lock of every night of its stay on that
room, the unique index leaving no room for a second one, and each terminal booking owns
none. -/
def LocksAgree (bookings : Bookings) (locks : LockTable) : Prop :=
  ∀ b ∈ bookings,
    (b.live = true → ∀ room, b.room = some room → ∀ night ∈ b.nights,
      Owned locks b.id room night) ∧
    (b.status.terminal = true → ∀ room night, ¬ Owned locks b.id room night)

/-- The booking is non-terminal and its stay covers the cell. -/
def Occupies (bookings : Bookings) (booking room : ℕ) (night : ℤ) : Prop :=
  ∃ b ∈ bookings, b.id = booking ∧ b.live = true ∧ b.covers room night

/-- The exact agreement, and no release left over. -/
structure Agreement (bookings : Bookings) (locks : LockTable) : Prop where
  owned_iff : ∀ booking room night,
    Owned locks booking room night ↔ Occupies bookings booking room night
  settled : ∀ b ∈ bookings, b.inventoryReleasePending = false

theorem Agreement.locksAgree (h : Agreement bookings locks) : LocksAgree bookings locks := by
  intro b hb
  constructor
  · intro hl room hroom night hn
    exact (h.owned_iff b.id room night).mpr ⟨b, hb, rfl, hl, hroom, hn⟩
  · intro ht room night ho
    obtain ⟨c, hc, hid, hl, -⟩ := (h.owned_iff b.id room night).mp ho
    rw [eq_of_key hc hb hid, Booking.live, ht] at hl
    cases hl

theorem Agreement.replace {bookings' : Bookings} {locks' : LockTable} (h : Agreement bookings locks)
    (booking : ℕ) (hsame : ∀ b, b.id ≠ booking → (b ∈ bookings' ↔ b ∈ bookings))
    (hlocks : ∀ other, other ≠ booking → ∀ room night,
      Owned locks' other room night ↔ Owned locks other room night) (hself : ∀ room night,
      Owned locks' booking room night ↔ Occupies bookings' booking room night)
    (hsettled : ∀ b ∈ bookings', b.id = booking → b.inventoryReleasePending = false) :
    Agreement bookings' locks' where
  owned_iff other room night := by
    by_cases ho : other = booking
    · subst ho
      exact hself room night
    · rw [hlocks other ho, h.owned_iff]
      constructor
      · rintro ⟨b, hb, hid, hrest⟩
        exact ⟨b, (hsame b (hid ▸ ho)).mpr hb, hid, hrest⟩
      · rintro ⟨b, hb, hid, hrest⟩
        exact ⟨b, (hsame b (hid ▸ ho)).mp hb, hid, hrest⟩
  settled b hb := by
    by_cases hid : b.id = booking
    · exact hsettled b hb hid
    · exact h.settled b ((hsame b hid).mp hb)

theorem owned_release {other : ℕ} {night : ℤ} :
    Owned (locks.deleteMany (ofBooking booking)) other room night ↔
      other ≠ booking ∧ Owned locks other room night := by
  constructor
  · rintro ⟨l, hl, ho⟩
    obtain ⟨hl, hp⟩ := LockTable.deleteMany_eq_some.mp hl
    refine ⟨?_, l, hl, ho⟩
    rintro rfl
    simp [ofBooking, ho] at hp
  · rintro ⟨hne, l, hl, ho⟩
    refine ⟨l, LockTable.deleteMany_eq_some.mpr ⟨hl, ?_⟩, ho⟩
    simp [ofBooking, ho, hne]

theorem Agreement.updateReleased (h : Agreement bookings locks) (f : Booking → Booking)
    (hf : ∀ r, (f r).id = r.id)
    (hidle : ∀ b ∈ bookings, b.id = booking → (f b).live = true → (f b).room = none)
    (hsettled : ∀ b ∈ bookings, b.id = booking → (f b).inventoryReleasePending = false) :
    Agreement (bookings.update booking f hf) (locks.deleteMany (ofBooking booking)) := by
  refine h.replace booking (fun _ hne => mem_update_of_ne hne) ?_ ?_ ?_
  · intro other ho room night
    rw [owned_release]
    exact and_iff_right ho
  · intro room night
    rw [owned_release]
    refine iff_of_false (fun hc => hc.1 rfl) ?_
    rintro ⟨b, hb, hid, hl, hroom, -⟩
    obtain ⟨r, hr, hrid, rfl⟩ := exists_of_mem_update hb hid
    rw [hidle r hr hrid hl] at hroom
    cases hroom
  · intro b hb hid
    obtain ⟨r, hr, hrid, rfl⟩ := exists_of_mem_update hb hid
    exact hsettled r hr hrid

theorem Agreement.updateSame (h : Agreement bookings locks) (f : Booking → Booking)
    (hf : ∀ r, (f r).id = r.id) (hcells : ∀ b ∈ bookings, b.id = booking → ∀ room night,
      ((f b).live = true ∧ (f b).covers room night) ↔ (b.live = true ∧ b.covers room night))
    (hsettled : ∀ b ∈ bookings, b.id = booking → (f b).inventoryReleasePending = false) :
    Agreement (bookings.update booking f hf) locks := by
  refine h.replace booking (fun _ hne => mem_update_of_ne hne) (fun _ _ _ _ => Iff.rfl) ?_ ?_
  · intro room night
    rw [h.owned_iff]
    constructor
    · rintro ⟨b, hb, hid, hcov⟩
      exact ⟨f b, mem_update.mpr (.inr ⟨b, hb, hid, rfl⟩), (hf b).trans hid,
        (hcells b hb hid room night).mpr hcov⟩
    · rintro ⟨c, hc, hid, hcov⟩
      obtain ⟨r, hr, hrid, rfl⟩ := exists_of_mem_update hc hid
      exact ⟨r, hr, hrid, (hcells r hr hrid room night).mp hcov⟩
  · intro b hb hid
    obtain ⟨r, hr, hrid, rfl⟩ := exists_of_mem_update hb hid
    exact hsettled r hr hrid

/-! ### The claim loop -/

def overlay (locks : LockTable) (room : ℕ) (nights : List ℤ) (l : Lock) : LockTable :=
  fun r n => if r = room ∧ n ∈ nights then some l else locks r n

def NothingStale (s : Store) (booking : ℕ) (locks : LockTable) : Prop :=
  ∀ room night l owner, locks room night = some l → retirableOwner l booking = some owner →
    staleReason (lockIsOldEnough l s.now) room night (s.bookings.get? owner) = none

variable {s : Store}
variable {bookings : Bookings} {base locks : LockTable} {booking room : ℕ} {doc : Booking}
  {s' : Store}

theorem Agreement.nothingStale (h : Agreement s.bookings s.locks) (booking : ℕ) :
    NothingStale s booking s.locks := by
  intro room night l owner hl hret
  obtain ⟨howner, -⟩ := retirableOwner_some hret
  obtain ⟨b, hb, hid, hlive, hroom, hn⟩ := (h.owned_iff owner room night).mp ⟨l, hl, howner⟩
  obtain ⟨ci, co, hci, hco, h1, h2⟩ := mem_stayNights.mp hn
  have hmem : night ∈ nightDates ci.day co.day := mem_nightDates.mpr ⟨h1, h2⟩
  have hterm : b.status.terminal = false := by simpa [Booking.live] using hlive
  rw [get?_eq_some.mpr ⟨hb, hid⟩]
  simp [staleReason, hterm, hroom, hci, hco, hmem]

def Store.lockDoc (s : Store) (booking : ℕ) : Lock :=
  ⟨.booking booking, some .booking, .stamped s.now⟩

/-- One night of the loop: it is free and gets claimed, or the answer is the row that
holds it. No lock is retired. -/
theorem claimNight_cases (room : ℕ) (hstale : NothingStale s booking base) (claimed : List ℤ)
    (night : ℤ) : (night ∉ claimed ∧ base room night = none ∧
      s.claimNightOrGetOwner (overlay base room claimed (s.lockDoc booking)) booking room night =
        (overlay base room (night :: claimed) (s.lockDoc booking), .claimed)) ∨
    ∃ existing,
      s.claimNightOrGetOwner (overlay base room claimed (s.lockDoc booking)) booking room night =
        (overlay base room claimed (s.lockDoc booking), .held existing) ∧
      (existing.owner = .booking booking → night ∈ claimed ∨ Owned base booking room night) := by
  generalize hlocks : overlay base room claimed (s.lockDoc booking) = locks
  unfold Store.claimNightOrGetOwner
  by_cases hmine : night ∈ claimed
  · have hcell : locks room night = some (s.lockDoc booking) := by simp [← hlocks, overlay, hmine]
    have hret : retirableOwner (s.lockDoc booking) booking = none := by
      simp [retirableOwner, Store.lockDoc]
    simp only [hcell, hret]
    exact .inr ⟨_, rfl, fun _ => .inl hmine⟩
  · have hcell : locks room night = base room night := by simp [← hlocks, overlay, hmine]
    cases hb : base room night with
    | none =>
      simp only [hcell, hb]
      refine .inl ⟨hmine, trivial, ?_⟩
      congr 1
      funext r n
      simp only [LockTable.put, ← hlocks, overlay, mem_cons, Store.lockDoc]
      by_cases hr : r = room <;> by_cases hn : n = night <;> simp [hr, hn]
    | some existing =>
      simp only [hcell, hb]
      refine .inr ⟨existing, ?_, fun ho => .inr ⟨existing, hb, ho⟩⟩
      cases hret : retirableOwner existing booking with
      | none => rfl
      | some owner => simp only [hstale room night existing owner hb hret]

/-- The compensation of a conflict restores the table. -/
theorem rollback_overlay {claimed : List ℤ} (hfree : ∀ n ∈ claimed, base room n = none) :
    (overlay base room claimed (s.lockDoc booking)).deleteMany (ofClaim booking room claimed) =
      base := by
  funext r n
  by_cases hcell : r = room ∧ n ∈ claimed
  · obtain ⟨rfl, hn⟩ := hcell
    simp [LockTable.deleteMany, overlay, hn, ofClaim, Store.lockDoc, hfree n hn]
  · have hp : ∀ l : Lock, ofClaim booking room claimed r n l = false := by
      intro l
      by_contra hp
      simp only [ofClaim, Bool.not_eq_false, Bool.and_eq_true, beq_iff_eq,
        contains_iff_mem] at hp
      exact hcell ⟨hp.1.2, hp.2⟩
    cases hb : base r n <;> simp [LockTable.deleteMany, overlay, hcell, hb, hp]

/-- What a loop that came to its end leaves: a table with further nights claimed, every
one of them free before, and every night of the loop held. -/
structure LoopDone (adopt : Bool) (booking room : ℕ) (base : LockTable)
    (claimed todo nights : List ℤ) : Prop where
  free : ∀ n ∈ nights, base room n = none
  origin : ∀ n ∈ nights, n ∈ claimed ∨ n ∈ todo
  kept : ∀ n ∈ claimed, n ∈ nights
  held : ∀ n ∈ todo, n ∈ nights ∨ (adopt = true ∧ Owned base booking room n)

/-- The loop over the nights, from a table in which `claimed` are claimed already: it
leaves the table as it was, or comes to its end. -/
theorem claimNights_spec (adopt : Bool) (room : ℕ) (hstale : NothingStale s booking base)
    (todo claimed : List ℤ) (hfree : ∀ n ∈ claimed, base room n = none) :
    s.claimNights adopt booking room todo claimed
        (overlay base room claimed (s.lockDoc booking)) = (base, false) ∨
    ∃ nights, LoopDone adopt booking room base claimed todo nights ∧
      s.claimNights adopt booking room todo claimed
        (overlay base room claimed (s.lockDoc booking)) =
          (overlay base room nights (s.lockDoc booking), true) := by
  induction todo generalizing claimed with
  | nil => exact .inr ⟨claimed, ⟨hfree, fun _ hn => .inl hn, fun _ hn => hn, by simp⟩, rfl⟩
  | cons night rest ih =>
    unfold Store.claimNights
    rcases claimNight_cases room hstale claimed night with ⟨-, hb, heq⟩ | ⟨existing, heq, hown⟩
    · simp only [heq]
      have hfree' : ∀ n ∈ night :: claimed, base room n = none := by
        intro n hn
        rcases mem_cons.mp hn with rfl | hn
        · exact hb
        · exact hfree n hn
      refine (ih (night :: claimed) hfree').imp_right ?_
      rintro ⟨nights, hdone, hrun⟩
      refine ⟨nights, ⟨hdone.free, ?_, fun n hn => hdone.kept n (mem_cons_of_mem _ hn), ?_⟩,
        hrun⟩
      · intro n hn
        rcases hdone.origin n hn with h | h
        · rcases mem_cons.mp h with rfl | h
          · exact .inr mem_cons_self
          · exact .inl h
        · exact .inr (mem_cons_of_mem _ h)
      · intro n hn
        rcases mem_cons.mp hn with rfl | hn
        · exact .inl (hdone.kept n mem_cons_self)
        · exact hdone.held n hn
    · simp only [heq]
      split
      · rename_i hadopt
        simp only [Bool.and_eq_true, beq_iff_eq] at hadopt
        refine (ih claimed hfree).imp_right ?_
        rintro ⟨nights, hdone, hrun⟩
        refine ⟨nights, ⟨hdone.free, fun n hn => (hdone.origin n hn).imp_right
          (mem_cons_of_mem _), hdone.kept, ?_⟩, hrun⟩
        intro n hn
        rcases mem_cons.mp hn with rfl | hn
        · exact (hown hadopt.2).imp (hdone.kept n) fun ho => ⟨hadopt.1, ho⟩
        · exact hdone.held n hn
      · exact .inl (by rw [rollback_overlay hfree])

theorem claimNights_run (adopt : Bool) (room : ℕ) (hstale : NothingStale s booking s.locks)
    (todo : List ℤ) : s.claimNights adopt booking room todo [] s.locks = (s.locks, false) ∨
    ∃ nights, LoopDone adopt booking room s.locks [] todo nights ∧
      s.claimNights adopt booking room todo [] s.locks =
        (overlay s.locks room nights (s.lockDoc booking), true) := by
  have hnil : overlay s.locks room [] (s.lockDoc booking) = s.locks := by
    funext r n
    simp [overlay]
  have := claimNights_spec adopt room hstale todo [] (by simp)
  rwa [hnil] at this

theorem owned_overlay {adopt : Bool} {todo nights : List ℤ}
    (h : LoopDone adopt booking room base [] todo nights) (other r : ℕ) (n : ℤ) :
    Owned (overlay base room nights (s.lockDoc booking)) other r n ↔
      Owned base other r n ∨ (other = booking ∧ r = room ∧ n ∈ nights) := by
  unfold Owned overlay
  by_cases hcell : r = room ∧ n ∈ nights
  · obtain ⟨rfl, hn⟩ := hcell
    simp [hn, h.free n hn, Store.lockDoc, eq_comm]
  · simp [hcell]

/-! ### The operations -/

/-- The document is stored, and the table holds what it occupies. -/
theorem Agreement.insertDoc (h : Agreement s.bookings s.locks)
    (hpending : doc.inventoryReleasePending = false)
    (hins : s.bookings.insertOne doc = some bookings)
    (hothers : ∀ other, other ≠ doc.id → ∀ r n, Owned locks other r n ↔ Owned s.locks other r n)
    (hself : ∀ r n, Owned locks doc.id r n ↔ doc.live = true ∧ doc.covers r n) :
    Agreement bookings locks := by
  have hmem : ∀ b, b ∈ bookings ↔ b ∈ s.bookings ∨ b = doc := fun b =>
    mem_insertOne hins
  have hfresh := (insertOne_eq_some hins).1
  refine h.replace doc.id ?_ hothers ?_ ?_
  · intro b hne
    rw [hmem]
    exact ⟨fun hb => hb.resolve_right fun he => hne (congrArg Booking.id he), .inl⟩
  · intro r n
    rw [hself]
    constructor
    · exact fun hcov => ⟨doc, (hmem doc).mpr (.inr rfl), rfl, hcov⟩
    · rintro ⟨b, hb, hid, hcov⟩
      rcases (hmem b).mp hb with hb | rfl
      · exact absurd hid (hfresh b hb)
      · exact hcov
  · intro b hb hid
    rcases (hmem b).mp hb with hb | rfl
    · exact absurd hid (hfresh b hb)
    · exact hpending

theorem Agreement.not_owned_of_insertOne (h : Agreement s.bookings s.locks)
    (hins : s.bookings.insertOne doc = some bookings) (r : ℕ) (n : ℤ) :
    ¬ Owned s.locks doc.id r n := by
  intro ho
  obtain ⟨b, hb, hid, -⟩ := (h.owned_iff doc.id r n).mp ho
  exact (insertOne_eq_some hins).1 b hb hid

theorem Agreement.insertIdle (h : Agreement s.bookings s.locks)
    (hpending : doc.inventoryReleasePending = false)
    (hno : ∀ r n, ¬ (doc.live = true ∧ doc.covers r n))
    (hs : (s.bookings.insertOne doc).map (fun bookings => { s with bookings := bookings }) =
      some s') : Agreement s'.bookings s'.locks := by
  obtain ⟨bookings, hins, rfl⟩ := Option.map_eq_some_iff.mp hs
  exact h.insertDoc hpending hins (fun _ _ _ _ => Iff.rfl) fun r n =>
    iff_of_false (h.not_owned_of_insertOne hins r n) (hno r n)

theorem live_of_night {n : ℤ} (hst : ¬ (doc.status = .cancelled ∨ doc.status = .noShow))
    (hdoc : doc.status = .checkedOut → doc.room = none ∨ doc.nights = [])
    (hroom : doc.room = some room) (hn : n ∈ doc.nights) : doc.live = true := by
  by_contra hl
  have hout : doc.status = .checkedOut := by
    simp only [Booking.live, Bool.not_eq_true, Bool.not_eq_false'] at hl
    revert hl hst
    cases doc.status <;> simp [BookingStatus.terminal]
  rcases hdoc hout with hr | hn0
  · rw [hroom] at hr
    cases hr
  · rw [hn0] at hn
    cases hn

theorem Agreement.create (h : Agreement s.bookings s.locks)
    (hpending : doc.inventoryReleasePending = false)
    (hdoc : doc.status = .checkedOut → doc.room = none ∨ doc.nights = [])
    (hs : s.createBookingAtomic doc = some s') : Agreement s'.bookings s'.locks := by
  unfold Store.createBookingAtomic at hs
  simp only at hs
  split at hs
  · rename_i hst
    refine h.insertIdle hpending ?_ hs
    rintro r n ⟨hl, -⟩
    rcases hst with hst | hst <;> simp [Booking.live, hst, BookingStatus.terminal] at hl
  · rename_i hst
    split at hs
    · rename_i room ci co hroom hci hco
      split at hs
      · cases hs
        exact h
      · rcases claimNights_run false room (h.nothingStale doc.id)
          (nightDates ci.day co.day) with hrun | ⟨nights, hdone, hrun⟩
        · rw [hrun] at hs
          cases hs
          exact h
        · rw [hrun] at hs
          simp only [Option.map_map, Option.map_eq_some_iff, Function.comp] at hs
          obtain ⟨bookings, hins, rfl⟩ := hs
          have hnights : doc.nights = nightDates ci.day co.day := by
            simp [Booking.nights, hci, hco, stayNights]
          refine h.insertDoc hpending hins ?_ ?_
          · intro other hne r n
            rw [owned_overlay hdone]
            simp [hne]
          · intro r n
            rw [owned_overlay hdone]
            simp only [h.not_owned_of_insertOne hins r n, true_and, false_or, Booking.covers, hroom,
              Option.some.injEq, hnights]
            constructor
            · rintro ⟨rfl, hn⟩
              have hn' := (hdone.origin n hn).resolve_left not_mem_nil
              exact ⟨live_of_night hst hdoc hroom (hnights ▸ hn'), rfl, hn'⟩
            · rintro ⟨-, rfl, hn⟩
              exact ⟨rfl, (hdone.held n hn).resolve_right (by simp)⟩
    · rename_i hmissing
      refine h.insertIdle hpending ?_ hs
      rintro r n ⟨-, hroom, hn⟩
      obtain ⟨ci, co, hci, hco, -⟩ := mem_stayNights.mp hn
      exact hmissing r ci co hroom hci hco

theorem assignRoom_owned (h : Agreement s.bookings s.locks) (booking room : ℕ) (ci co : Stamp) :
    s.assignRoomAtomic booking room ci co = (s.locks, false) ∨
    ∃ locks, s.assignRoomAtomic booking room ci co = (locks, true) ∧ ∀ other r n,
      Owned locks other r n ↔
        if other = booking then r = room ∧ n ∈ nightDates ci.day co.day
        else Owned s.locks other r n := by
  unfold Store.assignRoomAtomic
  split
  · exact .inl rfl
  · rcases claimNights_run true room (h.nothingStale booking)
      (nightDates ci.day co.day) with hrun | ⟨nights, hdone, hrun⟩
    · simp only [hrun]
      exact .inl trivial
    · simp only [hrun]
      refine .inr ⟨_, rfl, fun other r n => ?_⟩
      have hdelete : Owned ((overlay s.locks room nights (s.lockDoc booking)).deleteMany
          (obsolete booking room (nightDates ci.day co.day))) other r n ↔
          Owned (overlay s.locks room nights (s.lockDoc booking)) other r n ∧
            (other = booking → r = room ∧ n ∈ nightDates ci.day co.day) := by
        constructor
        · rintro ⟨l, hl, ho⟩
          obtain ⟨hl, hp⟩ := LockTable.deleteMany_eq_some.mp hl
          refine ⟨⟨l, hl, ho⟩, ?_⟩
          rintro rfl
          simpa [obsolete, ho] using hp
        · rintro ⟨⟨l, hl, ho⟩, hcell⟩
          refine ⟨l, LockTable.deleteMany_eq_some.mpr ⟨hl, ?_⟩, ho⟩
          by_cases hob : other = booking
          · obtain ⟨hr, hn⟩ := hcell hob
            simp [obsolete, hr, hn]
          · simp [obsolete, ho, hob]
      rw [hdelete, owned_overlay hdone]
      split
      · rename_i hob
        subst hob
        constructor
        · exact fun hc => hc.2 rfl
        · rintro ⟨rfl, hn⟩
          refine ⟨?_, fun _ => ⟨rfl, hn⟩⟩
          rcases hdone.held n hn with hn' | ⟨-, ho⟩
          · exact .inr ⟨rfl, rfl, hn'⟩
          · exact .inl ho
      · rename_i hob
        simp [hob]

theorem Agreement.assign (h : Agreement s.bookings s.locks) {w : BookingWrite}
    (hs : s.assignAndWrite booking w = some s') : Agreement s'.bookings s'.locks := by
  obtain ⟨b, hb, hs⟩ := Option.bind_eq_some_iff.mp hs
  obtain ⟨hmem, hid⟩ := get?_eq_some.mp hb
  simp only at hs
  split at hs
  · rename_i room ci co hroom hci hco
    split at hs
    · cases hs
    · rename_i hterm
      rcases assignRoom_owned h booking room ci co with heq | ⟨locks, heq, howned⟩
      · simp only [heq] at hs
        cases hs
        exact h
      · simp only [heq] at hs
        cases hs
        have hmem' : ∀ c, c ∈ s.bookings.update booking w.apply w.apply_id ↔
            (c ∈ s.bookings ∧ c.id ≠ booking) ∨
              ∃ r ∈ s.bookings, r.id = booking ∧ c = w.apply r := fun c =>
          mem_update
        have hsole : ∀ r ∈ s.bookings, r.id = booking → r = b := fun r hr hrid =>
          eq_of_key hr hmem (hrid.trans hid.symm)
        refine h.replace booking ?_ ?_ ?_ ?_
        · intro c hne
          rw [hmem']
          constructor
          · rintro (⟨hc, -⟩ | ⟨r, -, hrid, rfl⟩)
            · exact hc
            · exact absurd hrid hne
          · exact fun hc => .inl ⟨hc, hne⟩
        · intro other hne r n
          rw [howned, if_neg hne]
        · intro r n
          rw [howned, if_pos rfl]
          have hcov : (w.apply b).covers r n ↔ r = room ∧ n ∈ nightDates ci.day co.day := by
            simp [Booking.covers, Booking.nights, hroom, hci, hco, stayNights, eq_comm]
          rw [← hcov]
          constructor
          · intro hc
            refine ⟨w.apply b, (hmem' _).mpr (.inr ⟨b, hmem, hid, rfl⟩), hid, ?_, hc⟩
            simpa [Booking.live] using hterm
          · rintro ⟨c, hc, hcid, -, hcc⟩
            rcases (hmem' c).mp hc with ⟨-, hne⟩ | ⟨r', hr', hrid, rfl⟩
            · exact absurd hcid hne
            · rwa [hsole r' hr' hrid] at hcc
        · intro c hc hcid
          rcases (hmem' c).mp hc with ⟨-, hne⟩ | ⟨r, hr, -, rfl⟩
          · exact absurd hcid hne
          · exact h.settled r hr
  · cases hs

theorem Agreement.close (h : Agreement s.bookings s.locks) {status : BookingStatus}
    (hs : s.closeBooking booking status = some s') : Agreement s'.bookings s'.locks := by
  obtain ⟨b, hb, hs⟩ := Option.bind_eq_some_iff.mp hs
  split at hs
  · rename_i hguard
    cases hs
    refine h.updateReleased (fun b => { b with status := status }) (fun _ => rfl) ?_
      fun c hc _ => h.settled c hc
    intro c _ _ hl
    rcases hguard with ⟨rfl, -⟩ | ⟨rfl, -⟩ <;> cases hl
  · cases hs

end SyrocePms.Atomic
