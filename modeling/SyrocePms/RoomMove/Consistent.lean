import SyrocePms.RoomMove.Transaction

/-! Rooms, bookings and night locks in line, over chains of moves. -/

namespace SyrocePms.RoomMove

open Lib Atomic Reservation Store Collection

variable {s s' : Store} {r : Request} {o : Chance} {p : Plan} {folio : Option ℕ} {g g' : Guest} {x y : Room}
  {locks : LockTable} {e : MoveError}
variable {i : ℕ} {u : List Unit}

/-- Locks of a booking are on its room, no two bookings share a night of a room, the current booking
of an occupied room is a checked-in one that is assigned to it, and a checked-in booking is current
in no other room. -/
structure Consistent (s : Store) : Prop where
  locks : ∀ i n l, s.locks i n = some l → ∀ g ∈ s.bookings, l.owner = .booking g.id → g.room = some i
  apart : ∀ g ∈ s.bookings, ∀ g' ∈ s.bookings, g ≠ g' → g.live = true → g'.live = true →
    ∀ i n, g.covers i n → ¬ g'.covers i n
  occupied : ∀ x ∈ s.rooms, x.status = .occupied →
    ∃ g ∈ s.bookings, x.currentBooking = some g.id ∧ g.status = .checkedIn ∧ g.room = some x.id
  current : ∀ g ∈ s.bookings, g.status = .checkedIn → ∀ x ∈ s.rooms, x.currentBooking = some g.id → g.room = some x.id

theorem Consistent.eq_of_current (h : Consistent s) (hg : g ∈ s.bookings) (hin : g.status = .checkedIn)
    (hx : x ∈ s.rooms) (hy : y ∈ s.rooms) (hxc : x.currentBooking = some g.id) (hyc : y.currentBooking = some g.id) :
    x = y := by
  have hid : some x.id = some y.id := (h.current g hg hin x hx hxc).symm.trans (h.current g hg hin y hy hyc)
  exact eq_of_key hx hy (Option.some.inj hid)

/-! ### Rooms and bookings after a move -/

theorem mem_assign : g ∈ (s.assign p).bookings ↔
    (g ∈ s.bookings ∧ g.id ≠ p.guest.id) ∨ ∃ g' ∈ s.bookings, g'.id = p.guest.id ∧ g = g'.assign p.target := by
  change g ∈ s.bookings.update p.guest.id (Guest.assign p.target) (Guest.assign_id p.target) ↔ _
  exact mem_update

theorem mem_bookings (hf : Found s r p) (hm : Moved s s' p locks) :
    g ∈ s'.bookings ↔ (g ∈ s.bookings ∧ g.id ≠ p.guest.id) ∨ g = p.guest.assign p.target := by
  rw [hm.bookings, mem_assign]
  constructor
  · rintro (h | ⟨g', hg', hid, rfl⟩)
    · exact .inl h
    · rw [eq_of_key hg' hf.guest.1 hid]
      exact .inr rfl
  · rintro (h | rfl)
    · exact .inl h
    · exact .inr ⟨p.guest, hf.guest.1, rfl, rfl⟩

theorem mem_claimRoom : x ∈ s.claimRoom p ↔ (x ∈ s.rooms ∧ x.id ≠ p.target.id) ∨
    ∃ y ∈ s.rooms, y.id = p.target.id ∧ x = y.claim p.guest.isInHouse p.guest.id := by
  change x ∈ s.rooms.update p.target.id (Room.claim p.guest.isInHouse p.guest.id) (Room.claim_id _ _) ↔ _
  exact mem_update

theorem mem_vacate {rooms : Collection Room Room.id} :
    x ∈ rooms.update i Room.vacate Room.vacate_id ↔
    (x ∈ rooms ∧ x.id ≠ i) ∨ ∃ y ∈ rooms, y.id = i ∧ x = y.vacate := mem_update

theorem mem_rooms (hf : Found s r p) (hm : Moved s s' p locks) (hx : x ∈ s'.rooms) :
    x = p.target.claim p.guest.isInHouse p.guest.id ∨ (∃ y : Room, x = y.vacate) ∨
      (x ∈ s.rooms ∧ (p.guest.isInHouse = true → p.guest.room ≠ some x.id)) := by
  have htarget (y : Room) (hy : y ∈ s.claimRoom p) (hne : y ≠ p.target.claim p.guest.isInHouse p.guest.id) :
      y ∈ s.rooms := by
    obtain ⟨hy, -⟩ | ⟨z, hz, hid, rfl⟩ := mem_claimRoom.mp hy
    · exact hy
    · rw [eq_of_key hz hf.target.1 hid] at hne
      exact absurd rfl hne
  rw [hm.rooms] at hx
  by_cases hx' : x = p.target.claim p.guest.isInHouse p.guest.id
  · exact .inl hx'
  right
  unfold setRooms at hx
  simp only at hx
  cases hold : p.old with
  | none =>
    rw [hold] at hx
    refine .inr ⟨htarget x hx hx', fun _ hroom => ?_⟩
    have hget := hf.old
    rw [hold, hroom] at hget
    exact absurd rfl (get?_eq_none.mp hget.symm x (htarget x hx hx'))
  | some y =>
    rw [hold] at hx
    simp only at hx
    split at hx
    · obtain ⟨hx, hne⟩ | ⟨z, -, -, rfl⟩ := mem_vacate.mp hx
      · refine .inr ⟨htarget x hx hx', fun _ hroom => hne ?_⟩
        have hget := hf.old
        rw [hold, hroom] at hget
        exact (get?_eq_some.mp hget.symm).2.symm
      · exact .inl ⟨z, rfl⟩
    · rename_i hin
      exact .inr ⟨htarget x hx hx', fun h => absurd h hin⟩

/-! ### A move keeps assignments consistent -/

theorem owned_moved (hc : Consistent s) (hf : Found s r p) (hm : Moved s s' p locks)
    (hl : Transaction.forEach (lockNight p.guest.id p.target.id o.now) p.guest.nights s.locks = .ok (locks, u))
    (i : ℕ) (n : ℤ) : (Owned s'.locks p.guest.id i n ↔ i = p.target.id ∧ n ∈ p.guest.nights) ∧
      ∀ b, b ≠ p.guest.id → (Owned s'.locks b i n ↔ Owned s.locks b i n) := by
  obtain ⟨hown, hkeep, hnew⟩ := lockNights_ok hl
  simp only [Owned, hm.locks, LockTable.deleteMany_eq_some]
  refine ⟨⟨?_, ?_⟩, fun b hb => ⟨?_, ?_⟩⟩
  · rintro ⟨l, ⟨hlock, hpass⟩, howner⟩
    have hi : i = p.target.id := by simpa [elsewhere, howner] using hpass
    obtain hlock | ⟨-, hn, -⟩ := hnew i n l hlock
    · have hroom := hc.locks i n l hlock p.guest hf.guest.1 howner
      exact absurd (hi ▸ hroom) hf.other
    · exact ⟨hi, hn⟩
  · rintro ⟨rfl, hn⟩
    obtain ⟨l, hlock, howner⟩ := hown n hn
    exact ⟨l, ⟨hlock, by simp [elsewhere]⟩, howner⟩
  · rintro ⟨l, ⟨hlock, -⟩, howner⟩
    obtain hlock | ⟨-, -, howner'⟩ := hnew i n l hlock
    · exact ⟨l, hlock, howner⟩
    · rw [howner] at howner'
      exact absurd (LockOwner.booking.inj howner') hb
  · rintro ⟨l, hlock, howner⟩
    exact ⟨l, ⟨hkeep i n l hlock, by simp [elsewhere, howner, hb]⟩, howner⟩

theorem locks_move (hc : Consistent s) (hf : Found s r p) (hm : Moved s s' p locks)
    (hl : Transaction.forEach (lockNight p.guest.id p.target.id o.now) p.guest.nights s.locks = .ok (locks, u)) :
    ∀ i n l, s'.locks i n = some l → ∀ g ∈ s'.bookings, l.owner = .booking g.id → g.room = some i := by
  intro i n l hlock g hg howner
  obtain ⟨hself, hothers⟩ := owned_moved hc hf hm hl i n
  obtain ⟨hg, hne⟩ | rfl := (mem_bookings hf hm).mp hg
  · obtain ⟨l', hlock', howner'⟩ := (hothers g.id hne).mp ⟨l, hlock, howner⟩
    exact hc.locks i n l' hlock' g hg howner'
  · rw [(hself.mp ⟨l, hlock, howner⟩).1]
    rfl

theorem apart_move (hc : Consistent s) (hf : Found s r p) (hm : Moved s s' p locks) :
    ∀ g ∈ s'.bookings, ∀ g' ∈ s'.bookings, g ≠ g' → g.live = true → g'.live = true →
      ∀ i n, g.covers i n → ¬ g'.covers i n := by
  have hone (g : Guest) (hg : g ∈ s.bookings) (hne : g.id ≠ p.guest.id) (hlive : g.live = true) (i : ℕ) (n : ℤ)
      (h : g.covers i n) : ¬ (p.guest.assign p.target).covers i n := by
    rintro ⟨hroom, hn⟩
    obtain rfl := Option.some.inj hroom
    exact hf.apart g hg hne hlive h.1 n hn h.2
  intro g hg g' hg' hne hlive hlive' i n h h'
  obtain ⟨hg, hgid⟩ | rfl := (mem_bookings hf hm).mp hg <;> obtain ⟨hg', hgid'⟩ | rfl := (mem_bookings hf hm).mp hg'
  · exact hc.apart g hg g' hg' hne hlive hlive' i n h h'
  · exact hone g hg hgid hlive i n h h'
  · exact hone g' hg' hgid' hlive' i n h' h
  · exact hne rfl

theorem occupied_move (hc : Consistent s) (hf : Found s r p) (hm : Moved s s' p locks) :
    ∀ x ∈ s'.rooms, x.status = .occupied →
      ∃ g ∈ s'.bookings, x.currentBooking = some g.id ∧ g.status = .checkedIn ∧ g.room = some x.id := by
  -- a room that is occupied before the move, and that no in-house guest leaves in it
  have hbefore (x : Room) (hx : x ∈ s.rooms) (hocc : x.status = .occupied)
      (hleft : p.guest.isInHouse = true → p.guest.room ≠ some x.id) :
      ∃ g ∈ s'.bookings, x.currentBooking = some g.id ∧ g.status = .checkedIn ∧ g.room = some x.id := by
    obtain ⟨g, hg, hcur, hin, hroom⟩ := hc.occupied x hx hocc
    refine ⟨g, (mem_bookings hf hm).mpr (.inl ⟨hg, fun hid => ?_⟩), hcur, hin, hroom⟩
    obtain rfl := eq_of_key hg hf.guest.1 hid
    exact hleft (by simp [Guest.isInHouse, hin]) hroom
  intro x hx hocc
  obtain rfl | ⟨y, rfl⟩ | ⟨hx, hleft⟩ := mem_rooms hf hm hx
  · by_cases hin : p.guest.isInHouse = true
    · refine ⟨p.guest.assign p.target, (mem_bookings hf hm).mpr (.inr rfl), ?_, ?_, rfl⟩
      · simp [Room.claim, hin, Guest.assign]
      · simpa [Guest.isInHouse, Guest.assign] using hin
    · simp only [Room.claim, hin] at hocc ⊢
      exact hbefore p.target hf.target.1 hocc fun h => absurd h hin
  · cases hocc
  · exact hbefore x hx hocc hleft

theorem current_move (hc : Consistent s) (hf : Found s r p) (hm : Moved s s' p locks) :
    ∀ g ∈ s'.bookings, g.status = .checkedIn → ∀ x ∈ s'.rooms, x.currentBooking = some g.id → g.room = some x.id := by
  intro g hg hin x hx hcur
  obtain ⟨hg, hne⟩ | rfl := (mem_bookings hf hm).mp hg
  · obtain rfl | ⟨y, rfl⟩ | ⟨hx, -⟩ := mem_rooms hf hm hx
    · by_cases hinhouse : p.guest.isInHouse = true
      · simp only [Room.claim, hinhouse, if_true, Option.some.injEq] at hcur
        exact absurd hcur.symm hne
      · simp only [Room.claim, hinhouse] at hcur
        exact hc.current g hg hin p.target hf.target.1 hcur
    · cases hcur
    · exact hc.current g hg hin x hx hcur
  · have hinhouse : p.guest.isInHouse = true := by simpa [Guest.isInHouse, Guest.assign] using hin
    obtain rfl | ⟨y, rfl⟩ | ⟨hx, hleft⟩ := mem_rooms hf hm hx
    · rfl
    · cases hcur
    · have hroom := hc.current p.guest hf.guest.1 (by simpa [Guest.isInHouse] using hinhouse) x hx hcur
      exact absurd hroom (hleft hinhouse)

def HoldsStay (s : Store) (g : Guest) : Prop :=
  ∃ room, g.room = some room ∧ ∀ i n, Owned s.locks g.id i n ↔ i = room ∧ n ∈ g.nights

/-- A move that goes through. -/
theorem consistent_move (hc : Consistent s) (h : moveReservationRoom r o s = .ok (s', p, folio)) :
    Consistent s' ∧ (∃ g ∈ s'.bookings, g.id = r.booking ∧ g.room = some r.newRoom ∧ HoldsStay s' g) ∧
      ∀ g ∈ s.bookings, g.id ≠ r.booking → HoldsStay s g → g ∈ s'.bookings ∧ HoldsStay s' g := by
  obtain ⟨hf, locks, u, hl, hm⟩ := moveReservationRoom_ok h
  refine ⟨⟨locks_move hc hf hm hl, apart_move hc hf hm, occupied_move hc hf hm, current_move hc hf hm⟩, ?_, ?_⟩
  · refine ⟨p.guest.assign p.target, (mem_bookings hf hm).mpr (.inr rfl), hf.guest.2, ?_, p.target.id, rfl, ?_⟩
    · rw [← hf.target.2]
      rfl
    · exact fun i n => (owned_moved hc hf hm hl i n).1
  · intro g hg hne hholds
    obtain ⟨room, hroom, hown⟩ := hholds
    rw [← hf.guest.2] at hne
    refine ⟨(mem_bookings hf hm).mpr (.inl ⟨hg, hne⟩), room, hroom, fun i n => ?_⟩
    rw [(owned_moved hc hf hm hl i n).2 g.id hne]
    exact hown i n

/-! ### Chains of moves -/

inductive Action
  | move (r : Request) (o : Chance)
  | day (businessDate : ℤ)

/-- Moves one after the other, on a hotel whose assignments are consistent. The business date
changes in between. -/
def moves : Machine Store Action where
  init := Consistent
  step s
    | .move r o => some ((moveReservationRoom r o).run s).1
    | .day businessDate => some { s with day := businessDate }

variable {a : Action}

theorem consistent_step (hc : Consistent s) (h : moves.step s a = some s') : Consistent s' := by
  cases a with
  | move r o =>
    cases h
    cases hrun : moveReservationRoom r o s with
    | error e =>
      rw [Transaction.run, hrun]
      exact hc
    | ok x =>
      rw [Transaction.run, hrun]
      exact (consistent_move hc hrun).1
  | day d =>
    cases h
    exact { hc with }

theorem holdsStay_step (hc : Consistent s) (h : moves.step s a = some s')
    (hg : ∃ g ∈ s.bookings, g.id = i ∧ HoldsStay s g) :
    ∃ g ∈ s'.bookings, g.id = i ∧ HoldsStay s' g := by
  obtain ⟨g, hg, rfl, hholds⟩ := hg
  cases a with
  | move r o =>
    cases h
    cases hrun : moveReservationRoom r o s with
    | error e =>
      rw [Transaction.run, hrun]
      exact ⟨g, hg, rfl, hholds⟩
    | ok x =>
      rw [Transaction.run, hrun]
      obtain ⟨-, ⟨g', hg', hid, -, hholds'⟩, hothers⟩ := consistent_move hc hrun
      by_cases hne : g.id = r.booking
      · exact ⟨g', hg', hid.trans hne.symm, hholds'⟩
      · obtain ⟨hg, hholds⟩ := hothers g hg hne hholds
        exact ⟨g, hg, rfl, hholds⟩
  | day d =>
    cases h
    exact ⟨g, hg, rfl, hholds⟩

/-- In every state reached, bookings share no night of a room, the current booking of an occupied
room is a checked-in one that is assigned to it, and a checked-in booking is current in one room at
most. A move that goes through leaves its booking in the new room with the night locks of its stay
and no others, and later moves keep it so. A move that is refused changes nothing. -/
theorem room_moves_consistent (hs : moves.Reachable s) :
    Consistent s ∧
    (∀ g ∈ s.bookings, g.status = .checkedIn → ∀ x ∈ s.rooms, ∀ y ∈ s.rooms, x.currentBooking = some g.id →
      y.currentBooking = some g.id → x = y) ∧
    ∀ r o, (∀ s' e, (moveReservationRoom r o).run s = (s', .error e) → s' = s) ∧
      ∀ s' p folio, (moveReservationRoom r o).run s = (s', .ok (p, folio)) →
        (∃ g ∈ s'.bookings, g.id = r.booking ∧ g.room = some r.newRoom ∧ HoldsStay s' g) ∧
        ∀ s'', moves.Path (fun _ _ => True) s' s'' → ∃ g ∈ s''.bookings, g.id = r.booking ∧ HoldsStay s'' g := by
  have hc : Consistent s := hs.invariant Consistent (fun _ h => h) fun _ _ _ hc _ h => consistent_step hc h
  refine ⟨hc, fun g hg hin x hx y hy => hc.eq_of_current hg hin hx hy, fun r o => ⟨fun s' e => ?_, fun s' p folio h => ?_⟩⟩
  · exact Transaction.eq_of_run_error
  · obtain ⟨hc', ⟨g, hg, hid, hroom, hholds⟩, -⟩ := consistent_move hc (Transaction.run_eq_ok.mp h)
    refine ⟨⟨g, hg, hid, hroom, hholds⟩, fun s'' hpath => ?_⟩
    have hboth : Consistent s'' ∧ ∃ g ∈ s''.bookings, g.id = r.booking ∧ HoldsStay s'' g :=
      Machine.Path.invariant (fun s => Consistent s ∧ ∃ g ∈ s.bookings, g.id = r.booking ∧ HoldsStay s g)
        (fun t a t' ht _ hstep => ⟨consistent_step ht.1 hstep, holdsStay_step ht.1 hstep ht.2⟩) hpath
        ⟨hc', g, hg, hid, hholds⟩
    exact hboth.2

/-- Two guests in house, and a third who arrives when the first has left. -/
def sampleStore : Store where
  day := 1
  rooms := ⟨[{ id := 10, status := .occupied, currentBooking := some 1 },
    { id := 20, status := .occupied, currentBooking := some 2 }, { id := 30 }], by decide⟩
  bookings := ⟨[{ id := 1, room := some 10, checkIn := some ⟨1, none⟩, checkOut := some ⟨3, none⟩, status := .checkedIn },
    { id := 2, room := some 20, checkIn := some ⟨1, none⟩, checkOut := some ⟨3, none⟩, status := .checkedIn },
    { id := 3, room := some 10, checkIn := some ⟨3, none⟩, checkOut := some ⟨4, none⟩ }], by decide⟩
  locks := fun _ _ => none

theorem consistent_sampleStore : Consistent sampleStore where
  locks i n l hl := by cases hl
  apart := by
    have h : ∀ g ∈ sampleStore.bookings.rows, ∀ g' ∈ sampleStore.bookings.rows, g ≠ g' → g.room = g'.room →
        ∀ n ∈ g.nights, n ∉ g'.nights := by decide +kernel
    intro g hg g' hg' hne _ _ i n hcov hcov'
    exact h g hg g' hg' hne (hcov.1.trans hcov'.1.symm) n hcov.2 hcov'.2
  occupied := by
    have h : ∀ x ∈ sampleStore.rooms.rows, x.status = .occupied →
      ∃ g ∈ sampleStore.bookings.rows, x.currentBooking = some g.id ∧ g.status = .checkedIn ∧ g.room = some x.id := by
      decide +kernel
    exact h
  current := by
    have h : ∀ g ∈ sampleStore.bookings.rows, g.status = .checkedIn → ∀ x ∈ sampleStore.rooms.rows,
      x.currentBooking = some g.id → g.room = some x.id := by decide +kernel
    exact h

def view (s : Store) : List (ℕ × RoomStatus × Option ℕ) × List (ℕ × Option ℕ) × ℕ :=
  (s.rooms.rows.map fun x => (x.id, x.status, x.currentBooking), s.bookings.rows.map fun g => (g.id, g.room), s.charges.length)

/-- The first guest moves for a fee, the second is refused in the dirty room, and the third moves to
the room that the first has taken. -/
theorem room_moves_consistent_chain : ∃ s, moves.Reachable s ∧
    view s = ([(10, .dirty, none), (20, .occupied, some 2), (30, .occupied, some 1)],
      [(1, some 30), (2, some 20), (3, some 30)], 1) ∧ Consistent s := by
  obtain ⟨s, hs, hv⟩ := Machine.exists_reachable_of_run (M := moves) (s := sampleStore) (f := view)
    (v := ([(10, .dirty, none), (20, .occupied, some 2), (30, .occupied, some 1)],
      [(1, some 30), (2, some 20), (3, some 30)], 1))
    [.move ⟨1, 30, 0, 10, 1⟩ {}, .move ⟨2, 10, 0, 10, 1⟩ {}, .move ⟨3, 30, 0, 0, 1⟩ {}] consistent_sampleStore
    (by decide +kernel)
  exact ⟨s, hs, hv, (room_moves_consistent hs).1⟩

end SyrocePms.RoomMove
