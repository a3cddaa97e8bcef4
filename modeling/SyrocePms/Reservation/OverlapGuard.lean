import SyrocePms.Reservation.Document

/-! `_find_overlapping_active_booking` on bookings whose timestamps are any stored values. The
query narrows the candidates by the order of texts, and the dates decide among the first
hundred of them. -/

namespace SyrocePms.Reservation

open List

/-- A text, by its place among the texts of timestamps, with the date that
`datetime.fromisoformat` reads from it, if it reads one. -/
structure DateText where
  place : Stamp
  day : Option ℤ
  deriving DecidableEq

def DateText.iso (s : Stamp) : DateText := ⟨s, some s.day⟩

/-- The value of a date field: a text, or another value, which no comparison with a text
meets; a missing field is such a value. -/
inductive StoredDate where
  | text (t : DateText)
  | other (day : Option ℤ)
  deriving DecidableEq

def StoredDate.day : StoredDate → Option ℤ
  | .text t => t.day
  | .other day => day

/-- `$lt`. -/
def StoredDate.before (d : StoredDate) (s : Stamp) : Bool :=
  match d with
  | .text t => t.place.textLt s
  | .other _ => false

/-- `$gt`. -/
def StoredDate.after (d : StoredDate) (s : Stamp) : Bool :=
  match d with
  | .text t => s.textLt t.place
  | .other _ => false

/-- The fields of a stored booking that the guard reads. -/
structure StayRow where
  id : ℕ
  room : Option ℕ
  status : BookingStatus
  checkIn : StoredDate
  checkOut : StoredDate
  deriving DecidableEq

/-- A request: the room, the texts of its dates, and the booking that is left out. -/
structure StayRequest where
  room : ℕ
  checkIn : DateText
  checkOut : DateText
  excluded : Option ℕ

namespace StayRequest

/-- The booking is another one, it is not terminal and has the room. -/
def concerns (q : StayRequest) (r : StayRow) : Bool :=
  r.room == some q.room && !r.status.terminal && q.excluded.all fun id => r.id != id

/-- The query, for a request that begins on the day `start`. -/
def candidate (q : StayRequest) (start : ℤ) (r : StayRow) : Bool :=
  q.concerns r && r.checkIn.before q.checkOut.place && r.checkOut.after ⟨start, none⟩

end StayRequest

/-- The test of a candidate against the days of the request. A date that cannot be read
counts as an overlap. -/
def hits (start stop : ℤ) (r : StayRow) : Bool :=
  match r.checkIn.day, r.checkOut.day with
  | some s, some t => s < stop && start < t
  | _, _ => true

def window (rows : List StayRow) (q : StayRequest) (start : ℤ) : List StayRow :=
  (rows.filter (q.candidate start)).take 100

/-- The guard. A request whose dates cannot be read finds nothing. -/
def findOverlap (rows : List StayRow) (q : StayRequest) : Option StayRow :=
  match q.checkIn.day, q.checkOut.day with
  | some start, some stop => (window rows q start).find? (hits start stop)
  | _, _ => none

/-! ### What the guard should find -/

structure IsoRequest where
  room : ℕ
  checkIn : Stamp
  start : ℤ
  checkOut : Stamp
  stop : ℤ
  excluded : Option ℕ

def IsoRequest.request (q : IsoRequest) : StayRequest :=
  ⟨q.room, ⟨q.checkIn, some q.start⟩, ⟨q.checkOut, some q.stop⟩, q.excluded⟩

/-- The nights of a stay. `single` says whether a stay without a night counts with the night
of its day; `_night_dates` gives it none. -/
def nightsOf (single : Bool) (ci co : ℤ) : List ℤ :=
  if single && ci == co then [ci] else nightDates ci co

/-- Another live booking of the room, whose dates cannot be read or share a night with the
request. -/
def due (single : Bool) (q : IsoRequest) (r : StayRow) : Bool :=
  q.request.concerns r &&
    match r.checkIn.day, r.checkOut.day with
    | some s, some t =>
      (nightsOf single q.start q.stop).any fun n => (nightsOf single s t).contains n
    | _, _ => true

/-- The bookings that the guard of a request compares by date. -/
def seen (rows : List StayRow) (q : IsoRequest) : List StayRow := window rows q.request q.start

/-- The guard returns a booking exactly when one is due. -/
def GuardExact (single : Bool) (rows : List StayRow) (q : IsoRequest) : Prop :=
  (findOverlap rows q.request).isSome = true ↔ ∃ r ∈ rows, due single q r = true

/-- A booking is due and the guard does not return one for it: it is not among those that are
compared, or its dates do not cross the request. -/
def Missed (single : Bool) (rows : List StayRow) (q : IsoRequest) : Prop :=
  ∃ r ∈ rows, due single q r = true ∧ (r ∉ seen rows q ∨ hits q.start q.stop r = false)

/-- The dates of a booking that is compared cross the request, though the two share no
night. -/
def Phantom (single : Bool) (rows : List StayRow) (q : IsoRequest) : Prop :=
  ∃ r ∈ seen rows q, hits q.start q.stop r = true ∧ due single q r = false

/-- A booking is due, it is compared, and its dates cross the request. -/
def Found (single : Bool) (rows : List StayRow) (q : IsoRequest) : Prop :=
  ∃ r ∈ seen rows q, hits q.start q.stop r = true ∧ due single q r = true

theorem mem_seen {rows : List StayRow} {q : IsoRequest} {r : StayRow} (h : r ∈ seen rows q) :
    r ∈ rows ∧ q.request.candidate q.start r = true :=
  mem_filter.mp (mem_of_mem_take h)

/-- The guard returns a booking when one that it compares crosses the request. -/
theorem findOverlap_isSome (rows : List StayRow) (q : IsoRequest) :
    (findOverlap rows q.request).isSome = true ↔
      ∃ r ∈ seen rows q, hits q.start q.stop r = true := by
  simp [findOverlap, IsoRequest.request, seen]

theorem crosses_iff (single : Bool) (rows : List StayRow) (q : IsoRequest) :
    (∃ r ∈ seen rows q, hits q.start q.stop r = true) ↔
      Found single rows q ∨ Phantom single rows q := by
  constructor
  · rintro ⟨r, hr, hh⟩
    cases hd : due single q r with
    | true => exact .inl ⟨r, hr, hh, hd⟩
    | false => exact .inr ⟨r, hr, hh, hd⟩
  · rintro (⟨r, hr, hh, -⟩ | ⟨r, hr, hh, -⟩) <;> exact ⟨r, hr, hh⟩

theorem due_iff (single : Bool) (rows : List StayRow) (q : IsoRequest) :
    (∃ r ∈ rows, due single q r = true) ↔ Found single rows q ∨ Missed single rows q := by
  constructor
  · rintro ⟨r, hr, hd⟩
    by_cases hs : r ∈ seen rows q ∧ hits q.start q.stop r = true
    · exact .inl ⟨r, hs.1, hs.2, hd⟩
    · rw [not_and_or, Bool.not_eq_true] at hs
      exact .inr ⟨r, hr, hd, hs⟩
  · rintro (⟨r, hr, -, hd⟩ | ⟨r, hr, hd, -⟩)
    · exact ⟨r, (mem_seen hr).1, hd⟩
    · exact ⟨r, hr, hd⟩

/-- The booking has the timestamps of a stay with nights, written as the system writes them. -/
def StayRow.Plain (r : StayRow) : Prop :=
  ∃ s t : Stamp, r.checkIn = .text (.iso s) ∧ r.checkOut = .text (.iso t) ∧ s.day < t.day

/-- The request is for a stay with nights, in the same spelling. -/
structure IsoRequest.Plain (q : IsoRequest) : Prop where
  checkIn : q.checkIn.day = q.start
  checkOut : q.checkOut.day = q.stop
  nights : q.start < q.stop

theorem nightsOf_of_lt {ci co : ℤ} (single : Bool) (h : ci < co) : nightsOf single ci co = nightDates ci co := by
  simp [nightsOf, h.ne]

theorem candidate_and_hits (single : Bool) {q : IsoRequest} (hq : q.Plain) {r : StayRow}
    (hr : q.request.concerns r = true → r.Plain) :
    q.request.candidate q.start r = true ∧ hits q.start q.stop r = true ↔ due single q r = true := by
  cases hc : q.request.concerns r with
  | false => simp [StayRequest.candidate, due, hc]
  | true =>
  obtain ⟨s, t, hs, ht, hlt⟩ := hr hc
  have hnights : (∃ n, (q.start ≤ n ∧ n < q.stop) ∧ s.day ≤ n ∧ n < t.day) ↔ s.day < q.stop ∧ q.start < t.day := by
    have := hq.nights
    exact ⟨fun ⟨n, h⟩ => by omega, fun h => ⟨max q.start s.day, by omega⟩⟩
  have hbefore (h : s.day < q.stop) : s.textLt q.checkOut = true := by simp [Stamp.textLt, hq.checkOut, h]
  have hafter (h : q.start < t.day) : Stamp.textLt ⟨q.start, none⟩ t = true := by simp [Stamp.textLt, h]
  simp only [StayRequest.candidate, due, hits, hs, ht, StoredDate.day, DateText.iso, StoredDate.before,
    StoredDate.after, Bool.and_eq_true, decide_eq_true_eq, nightsOf_of_lt single hq.nights, nightsOf_of_lt single hlt,
    any_eq_true, contains_iff_mem, mem_nightDates, hnights, hc, true_and]
  exact ⟨fun h => h.2, fun h => ⟨⟨hbefore h.1, hafter h.2⟩, h⟩⟩

/-- Among stays with nights, and up to a hundred candidates, the guard finds what is due. -/
theorem guardExact_of_plain (single : Bool) (rows : List StayRow) (q : IsoRequest) (hq : q.Plain)
    (hrows : ∀ r ∈ rows, q.request.concerns r = true → r.Plain)
    (hfew : (rows.filter (q.request.candidate q.start)).length ≤ 100) :
    GuardExact single rows q := by
  rw [GuardExact, findOverlap_isSome, seen, window, take_of_length_le hfew]
  simp only [mem_filter, and_assoc]
  exact exists_congr fun r => and_congr_right fun hr => candidate_and_hits single hq (hrows r hr)

theorem guardExact_of_plain_next : GuardExact true
    [⟨4, some 7, .confirmed, .text (.iso ⟨2, none⟩), .text (.iso ⟨5, none⟩)⟩] ⟨7, ⟨5, none⟩, 5, ⟨8, none⟩, 8, none⟩ :=
  guardExact_of_plain _ _ _ ⟨rfl, rfl, by decide⟩ (forall_mem_singleton.mpr fun _ => ⟨_, _, rfl, rfl, by decide⟩) (by decide)

/-! ### The guard on booking documents -/

def storedDate : Option Stamp → StoredDate
  | none => .other none
  | some s => .text (.iso s)

def Booking.stayRow (b : Booking) : StayRow :=
  ⟨b.id, b.room, b.status, storedDate b.checkIn, storedDate b.checkOut⟩

/-- On the booking documents of the reservation model the guard is the lookup of that model. -/
theorem findOverlap_stayRow (bookings : Bookings) (room : ℕ) (ci co : Stamp) (excluded : ℕ) :
    findOverlap (bookings.rows.map Booking.stayRow) ⟨room, .iso ci, .iso co, some excluded⟩ =
      (findOverlappingActiveBooking bookings room ci co excluded).map Booking.stayRow := by
  have hcand : (StayRequest.candidate ⟨room, .iso ci, .iso co, some excluded⟩ ci.day) ∘
      Booking.stayRow = overlapCandidate room ci co excluded := by
    funext b
    cases hci : b.checkIn <;> cases hco : b.checkOut <;>
      simp [StayRequest.candidate, StayRequest.concerns, overlapCandidate, Booking.stayRow,
        Booking.live, storedDate, StoredDate.before, StoredDate.after, DateText.iso, hci, hco]
  have hhits : hits ci.day co.day ∘ Booking.stayRow = overlapsByDate ci co := by
    funext b
    cases hci : b.checkIn <;> cases hco : b.checkOut <;>
      simp [hits, overlapsByDate, Booking.stayRow, storedDate, StoredDate.day, DateText.iso, hci, hco]
  show ((((bookings.rows.map Booking.stayRow).filter _).take 100).find? _) = _
  rw [filter_map, hcand, ← map_take, find?_map, hhits]
  rfl

end SyrocePms.Reservation
