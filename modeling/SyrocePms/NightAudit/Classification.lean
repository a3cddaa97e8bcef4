import Mathlib.Data.Char
import Mathlib.Data.List.Lex
import SyrocePms.Lib.Collection
import SyrocePms.NightAudit.Run

/-! The classification of bookings by their dates, in the validation of the night audit and in
the candidate set. The validation normalises the stored dates, and so does the candidate set for
stays; its query for no-shows compares the stored values with the text of the business date. -/

namespace SyrocePms.NightAudit.Classification

open Reservation Lib

/-! ### Dates -/

def isLeap (y : ℕ) : Bool := y % 4 == 0 && (y % 100 != 0 || y % 400 == 0)

def daysInMonth (y m : ℕ) : ℕ :=
  if m = 2 then if isLeap y then 29 else 28
  else if m = 4 ∨ m = 6 ∨ m = 9 ∨ m = 11 then 30 else 31

def daysBeforeYear (y : ℕ) : ℕ := (y - 1) * 365 + (y - 1) / 4 - (y - 1) / 100 + (y - 1) / 400

def ordinal (y m d : ℕ) : ℤ :=
  daysBeforeYear y + ((List.range' 1 (m - 1)).map (daysInMonth y)).sum + d

def weekOneMonday (y : ℕ) : ℤ :=
  let weekday := (ordinal y 1 1 + 6) % 7
  ordinal y 1 1 - weekday + if 3 < weekday then 7 else 0

def lastWeek (y : ℕ) : ℕ :=
  let weekday := (ordinal y 1 1 + 6) % 7
  if weekday = 3 ∨ weekday = 2 ∧ isLeap y then 53 else 52

def readDigits (t : List Char) : Option ℕ :=
  if t.all Char.isDigit then some (t.foldl (fun n c => 10 * n + (c.toNat - 48)) 0) else none

/-- `date.fromisoformat` on ten characters: a calendar date or a week date. -/
def fromIsoFormat : List Char → Option ℤ
  | [y₁, y₂, y₃, y₄, '-', 'W', w₁, w₂, '-', d] =>
    match readDigits [y₁, y₂, y₃, y₄], readDigits [w₁, w₂], readDigits [d] with
    | some y, some w, some d =>
      if 1 ≤ y ∧ 1 ≤ w ∧ w ≤ lastWeek y ∧ 1 ≤ d ∧ d ≤ 7 ∧
          1 ≤ weekOneMonday y + 7 * (w - 1) + (d - 1) ∧
          weekOneMonday y + 7 * (w - 1) + (d - 1) ≤ ordinal 9999 12 31 then
        some (weekOneMonday y + 7 * (w - 1) + (d - 1))
      else none
    | _, _, _ => none
  | [y₁, y₂, y₃, y₄, '-', m₁, m₂, '-', d₁, d₂] =>
    match readDigits [y₁, y₂, y₃, y₄], readDigits [m₁, m₂], readDigits [d₁, d₂] with
    | some y, some m, some d =>
      if 1 ≤ y ∧ 1 ≤ m ∧ m ≤ 12 ∧ 1 ≤ d ∧ d ≤ daysInMonth y m then some (ordinal y m d) else none
    | _, _, _ => none
  | _ => none

/-- The white space of `str.strip`. -/
def isBlank (c : Char) : Bool :=
  [9, 10, 11, 12, 13, 28, 29, 30, 31, 32, 133, 160, 5760, 8232, 8233, 8239, 8287, 12288].contains
    c.toNat || (8192 ≤ c.toNat && c.toNat ≤ 8202)

def strip (t : List Char) : List Char :=
  ((t.dropWhile isBlank).reverse.dropWhile isBlank).reverse

/-- A stored date: a text, a date of the database, or none of these. -/
inductive DateField where
  | text (t : List Char)
  | date (day : ℤ)
  | other
  deriving DecidableEq

def normalizeBookingDate : DateField → Option ℤ
  | .date day => some day
  | .text t => if (strip t).length < 10 then none else fromIsoFormat ((strip t).take 10)
  | .other => none

structure BusinessDate where
  text : List Char
  day : ℤ
  parses : fromIsoFormat text = some day

def DateField.atMost (bd : BusinessDate) : DateField → Bool
  | .text t => t ≤ bd.text
  | _ => false

/-! ### Bookings -/

structure DatedBooking where
  id : ℕ
  status : BookingStatus
  checkIn : DateField
  checkOut : DateField
  deriving DecidableEq

namespace DatedBooking

def isArrival (b : DatedBooking) : Bool := b.status == .confirmed || b.status == .guaranteed

def isCheckedIn (b : DatedBooking) : Bool := b.status == .checkedIn

end DatedBooking

def partitionDueBookings (target : ℤ) : List DatedBooking → List DatedBooking × List DatedBooking
  | [] => ([], [])
  | b :: bookings =>
    let (due, invalid) := partitionDueBookings target bookings
    match normalizeBookingDate b.checkIn with
    | none => (due, b :: invalid)
    | some day => if day < target ∨ day = target then (b :: due, invalid) else (due, invalid)

/-- The lists of `_partition_stays_for_business_date`. -/
structure Stays where
  active : List DatedBooking := []
  future : List DatedBooking := []
  ended : List DatedBooking := []
  invalid : List DatedBooking := []

def partitionStays (target : ℤ) : List DatedBooking → Stays
  | [] => {}
  | b :: bookings =>
    let s := partitionStays target bookings
    match normalizeBookingDate b.checkIn, normalizeBookingDate b.checkOut with
    | some ci, some co =>
      if co ≤ ci then { s with invalid := b :: s.invalid }
      else if target < ci then { s with future := b :: s.future }
      else if co ≤ target then { s with ended := b :: s.ended }
      else { s with active := b :: s.active }
    | _, _ => { s with invalid := b :: s.invalid }

/-! ### Validation and candidates -/

abbrev Bookings := Collection DatedBooking DatedBooking.id

def pendingArrivals (bookings : Bookings) (bd : BusinessDate) : List DatedBooking :=
  (partitionDueBookings bd.day (bookings.rows.filter DatedBooking.isArrival)).1

/-- The stays of `_validate_preconditions`. -/
def validatedStays (bookings : Bookings) (bd : BusinessDate) : Stays :=
  partitionStays bd.day (bookings.rows.filter DatedBooking.isCheckedIn)

def candidates (bookings : Bookings) (bd : BusinessDate) : List (PostingType × ℕ) :=
  (partitionStays bd.day ((bookings.rows.filter DatedBooking.isCheckedIn).take 5000)).active.map
      (fun b => (.roomCharge, b.id)) ++
    (bookings.rows.filter fun b => b.isArrival && b.checkIn.atMost bd).map fun b => (.noShow, b.id)

/-- The lists cover the bookings, and no two of them share one. -/
structure DisjointCover (bookings : List DatedBooking) (s : Stays) : Prop where
  cover : (s.active ++ s.future ++ s.ended ++ s.invalid).Perm bookings
  disjoint : [s.active, s.future, s.ended, s.invalid].Pairwise List.Disjoint

/-- Candidates and validation agree: what is pending becomes a no-show candidate, an active
stay becomes a room-charge candidate, and the stays are classified without gaps or overlaps. -/
structure Agree (bookings : Bookings) (bd : BusinessDate) : Prop where
  noShows : ∀ b ∈ pendingArrivals bookings bd, (.noShow, b.id) ∈ candidates bookings bd
  roomCharges : ∀ b ∈ (validatedStays bookings bd).active, (.roomCharge, b.id) ∈ candidates bookings bd
  cover : DisjointCover (bookings.rows.filter DatedBooking.isCheckedIn) (validatedStays bookings bd)

/-! ### The partitions -/

theorem mem_partitionDue {bookings : List DatedBooking} :
    b ∈ (partitionDueBookings target bookings).1 ↔
      b ∈ bookings ∧ ∃ day, normalizeBookingDate b.checkIn = some day ∧ day ≤ target := by
  induction bookings with
  | nil => simp [partitionDueBookings]
  | cons x bookings ih =>
    simp only [partitionDueBookings]
    cases hday : normalizeBookingDate x.checkIn with
    | none =>
      simp only [ih, List.mem_cons]
      constructor
      · rintro ⟨hb, hdue⟩
        exact ⟨.inr hb, hdue⟩
      · rintro ⟨rfl | hb, day, hd, hle⟩
        · rw [hday] at hd
          cases hd
        · exact ⟨hb, day, hd, hle⟩
    | some day =>
      by_cases hle : day < target ∨ day = target
      · simp only [if_pos hle, List.mem_cons, ih]
        constructor
        · rintro (rfl | ⟨hb, hdue⟩)
          · exact ⟨.inl rfl, day, hday, by omega⟩
          · exact ⟨.inr hb, hdue⟩
        · rintro ⟨rfl | hb, hdue⟩
          · exact .inl rfl
          · exact .inr ⟨hb, hdue⟩
      · simp only [if_neg hle, ih, List.mem_cons]
        constructor
        · rintro ⟨hb, hdue⟩
          exact ⟨.inr hb, hdue⟩
        · rintro ⟨rfl | hb, day', hd, hle'⟩
          · rw [hday] at hd
            cases hd
            omega
          · exact ⟨hb, day', hd, hle'⟩

inductive StayClass where
  | active
  | future
  | ended
  | invalid
  deriving DecidableEq

def stayClass (target : ℤ) (b : DatedBooking) : StayClass :=
  match normalizeBookingDate b.checkIn, normalizeBookingDate b.checkOut with
  | some ci, some co =>
    if co ≤ ci then .invalid
    else if target < ci then .future
    else if co ≤ target then .ended
    else .active
  | _, _ => .invalid

def ofClass (target : ℤ) (c : StayClass) (bookings : List DatedBooking) : List DatedBooking :=
  bookings.filter fun b => stayClass target b = c

theorem ofClass_cons (target : ℤ) (c : StayClass) (b : DatedBooking) (bookings : List DatedBooking) :
    ofClass target c (b :: bookings) =
      if stayClass target b = c then b :: ofClass target c bookings else ofClass target c bookings := by
  rw [ofClass, List.filter_cons]
  simp only [decide_eq_true_eq]
  rfl

/-- The loop sorts the stays by their classes. -/
theorem partitionStays_eq (target : ℤ) (bookings : List DatedBooking) :
    partitionStays target bookings =
      ⟨ofClass target .active bookings, ofClass target .future bookings,
        ofClass target .ended bookings, ofClass target .invalid bookings⟩ := by
  induction bookings with
  | nil => rfl
  | cons b bookings ih =>
    simp only [partitionStays, ofClass_cons, ih]
    cases hci : normalizeBookingDate b.checkIn with
    | none =>
      have hclass : stayClass target b = .invalid := by simp only [stayClass, hci]
      simp [hclass]
    | some ci =>
      cases hco : normalizeBookingDate b.checkOut with
      | none =>
        have hclass : stayClass target b = .invalid := by simp only [stayClass, hci, hco]
        simp [hclass]
      | some co =>
        by_cases hinvalid : co ≤ ci
        · have hclass : stayClass target b = .invalid := by simp [stayClass, hci, hco, hinvalid]
          simp [hclass, hinvalid]
        by_cases hfuture : target < ci
        · have hclass : stayClass target b = .future := by
            simp [stayClass, hci, hco, hinvalid, hfuture]
          simp [hclass, hinvalid, hfuture]
        by_cases hended : co ≤ target
        · have hclass : stayClass target b = .ended := by
            simp [stayClass, hci, hco, hinvalid, hfuture, hended]
          simp [hclass, hinvalid, hfuture, hended]
        · have hclass : stayClass target b = .active := by
            simp [stayClass, hci, hco, hinvalid, hfuture, hended]
          simp [hclass, hinvalid, hfuture, hended]

theorem count_ofClass (target : ℤ) (c : StayClass) (b : DatedBooking) (bookings : List DatedBooking) :
    (ofClass target c bookings).count b =
      if stayClass target b = c then bookings.count b else 0 := by
  split
  · rename_i h
    exact List.count_filter (by simpa using h)
  · rename_i h
    refine List.count_eq_zero.mpr fun hmem => h ?_
    simpa using (List.mem_filter.mp hmem).2

theorem disjoint_ofClass {c c' : StayClass} (h : c ≠ c') (bookings : List DatedBooking) :
    (ofClass target c bookings).Disjoint (ofClass target c' bookings) := by
  intro b hb hb'
  have hc : stayClass target b = c := by simpa using (List.mem_filter.mp hb).2
  have hc' : stayClass target b = c' := by simpa using (List.mem_filter.mp hb').2
  exact h (hc.symm.trans hc')

theorem disjointCover (target : ℤ) (bookings : List DatedBooking) :
    DisjointCover bookings (partitionStays target bookings) := by
  rw [partitionStays_eq]
  constructor
  · refine List.perm_iff_count.mpr fun b => ?_
    simp only [List.count_append, count_ofClass]
    cases stayClass target b <;> simp
  · simp [List.pairwise_cons, disjoint_ofClass]

/-! ### Agreement -/

variable {bookings : Bookings} {bd : BusinessDate}
variable {target : ℤ} {b : DatedBooking}

theorem mem_candidates_noShow (hb : b ∈ bookings) :
    (.noShow, b.id) ∈ candidates bookings bd ↔ b.isArrival = true ∧ b.checkIn.atMost bd = true := by
  simp only [candidates, List.mem_append, List.mem_map, List.mem_filter, Bool.and_eq_true]
  constructor
  · rintro (⟨x, -, h⟩ | ⟨x, ⟨hx, hdue⟩, h⟩)
    · cases h
    · have hid : x.id = b.id := congrArg Prod.snd h
      rwa [← Collection.eq_of_key hx hb hid]
  · intro hdue
    exact .inr ⟨b, ⟨hb, hdue⟩, rfl⟩

theorem mem_candidates_roomCharge (hb : b ∈ bookings) (hactive : stayClass bd.day b = .active) :
    (.roomCharge, b.id) ∈ candidates bookings bd ↔
      b ∈ (bookings.rows.filter DatedBooking.isCheckedIn).take 5000 := by
  simp only [candidates, partitionStays_eq, List.mem_append, List.mem_map]
  constructor
  · rintro (⟨x, hx, h⟩ | ⟨x, -, h⟩)
    · have hid : x.id = b.id := congrArg Prod.snd h
      have hread := (List.mem_filter.mp hx).1
      have hrow : x ∈ bookings := List.mem_of_mem_filter (List.mem_of_mem_take hread)
      rwa [← Collection.eq_of_key hrow hb hid]
    · cases h
  · intro hread
    exact .inl ⟨b, List.mem_filter.mpr ⟨hread, by simpa using hactive⟩, rfl⟩

theorem mem_pendingArrivals : b ∈ pendingArrivals bookings bd ↔ b ∈ bookings ∧ b.isArrival = true ∧
      ∃ day, normalizeBookingDate b.checkIn = some day ∧ day ≤ bd.day := by
  rw [pendingArrivals, mem_partitionDue, List.mem_filter, and_assoc]
  rfl

theorem mem_active : b ∈ (validatedStays bookings bd).active ↔
      b ∈ bookings ∧ b.isCheckedIn = true ∧ stayClass bd.day b = .active := by
  rw [validatedStays, partitionStays_eq]
  change b ∈ ofClass _ _ _ ↔ _
  rw [ofClass, List.mem_filter, List.mem_filter, and_assoc, decide_eq_true_eq]
  rfl

/-- Candidates and validation agree exactly when the stored arrival of what is pending is a text
that is not after the text of the business date, and the active stays are among the first 5000
checked-in bookings. -/
theorem agree_iff (bookings : Bookings) (bd : BusinessDate) :
    Agree bookings bd ↔
      (∀ b ∈ pendingArrivals bookings bd, b.checkIn.atMost bd = true) ∧
        ∀ b ∈ (validatedStays bookings bd).active,
          b ∈ (bookings.rows.filter DatedBooking.isCheckedIn).take 5000 := by
  constructor
  · intro h
    constructor
    · intro b hb
      exact ((mem_candidates_noShow (mem_pendingArrivals.mp hb).1).mp (h.noShows b hb)).2
    · intro b hb
      obtain ⟨hrow, -, hactive⟩ := mem_active.mp hb
      exact (mem_candidates_roomCharge hrow hactive).mp (h.roomCharges b hb)
  · rintro ⟨htexts, hread⟩
    refine ⟨fun b hb => ?_, fun b hb => ?_, disjointCover _ _⟩
    · obtain ⟨hrow, harrival, -⟩ := mem_pendingArrivals.mp hb
      exact (mem_candidates_noShow hrow).mpr ⟨harrival, htexts b hb⟩
    · obtain ⟨hrow, -, hactive⟩ := mem_active.mp hb
      exact (mem_candidates_roomCharge hrow hactive).mpr (hread b hb)

/-! ### Times of day -/

def afternoonArrival : DatedBooking where
  id := 1
  status := .confirmed
  checkIn := .text "2026-01-15T14:00:00".toList
  checkOut := .text "2026-01-17".toList

def january15 : BusinessDate := ⟨"2026-01-15".toList, 739631, by decide +kernel⟩

/-- It is pending, and no candidate. -/
theorem not_agree_afternoonArrival :
    ¬ ∀ (bookings : Bookings) (bd : BusinessDate), Agree bookings bd := by
  intro h
  have hpending : afternoonArrival ∈
      pendingArrivals ⟨[afternoonArrival], List.nodup_singleton _⟩ january15 := by decide +kernel
  have hnone : (PostingType.noShow, afternoonArrival.id) ∉
      candidates ⟨[afternoonArrival], List.nodup_singleton _⟩ january15 := by decide +kernel
  exact hnone ((h _ january15).noShows afternoonArrival hpending)

end SyrocePms.NightAudit.Classification
