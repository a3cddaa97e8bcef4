import SyrocePms.NightAudit.Pricing
import SyrocePms.Reservation.Stay

/-! What the night audit reads of the hotel: checked-in stays, their folios and prices,
the charges that are posted, pending arrivals and open channel mappings. -/

namespace SyrocePms.NightAudit

open Reservation

variable {businessDate : ℤ} {booking : ℕ}

/-- A booking. A date that does not parse is absent. -/
structure Booking where
  id : ℕ
  status : BookingStatus
  checkIn : Option Stamp
  checkOut : Option Stamp
  roomId : Option ℕ := none
  folioId : Option ℕ := none
  complimentary : Bool := false
  noShowFee : ℚ := 0
  price : PriceFields := {}
  deriving DecidableEq

structure Folio where
  id : ℕ
  booking : ℕ
  isOpen : Bool

inductive ChargeType where
  | roomCharge
  | noShowFee
  deriving DecidableEq

/-- A row of `folio_charges` of the night audit. -/
structure Charge where
  booking : ℕ
  businessDate : ℤ
  type : ChargeType
  total : ℚ
  voided : Bool := false
  deriving DecidableEq

/-- The collections of one tenant. `dailyRates` is the latest rate of a booking for a
date, `accommodationTax` the configured rate, and `mappingIssues` has the arrival of each
open channel mapping, absent when it does not parse. -/
structure Hotel where
  bookings : List Booking
  folios : List Folio := []
  charges : List Charge := []
  dailyRates : ℕ → ℤ → Option ℚ := fun _ _ => none
  accommodationTax : ℤ → Option ℚ := fun _ => none
  mappingIssues : List (Option ℤ) := []

namespace Booking

/-- `_normalize_booking_date` of the two dates. -/
def checkInDay (b : Booking) : Option ℤ := b.checkIn.map Stamp.day

def checkOutDay (b : Booking) : Option ℤ := b.checkOut.map Stamp.day

/-- The stay is neither invalid nor future nor ended: the active list of
`_partition_stays_for_business_date`. -/
def activeOn (b : Booking) (businessDate : ℤ) : Bool :=
  match b.checkInDay, b.checkOutDay with
  | some ci, some co => decide (ci < co ∧ ci ≤ businessDate ∧ businessDate < co)
  | _, _ => false

def invalidStay (b : Booking) : Bool :=
  match b.checkInDay, b.checkOutDay with
  | some ci, some co => decide (co ≤ ci)
  | _, _ => true

/-- A no-show candidate. The query compares texts. -/
def noShowDue (b : Booking) (businessDate : ℤ) : Bool :=
  (b.status == .confirmed || b.status == .guaranteed) &&
    b.checkIn.any fun s => !(Stamp.textLt ⟨businessDate, none⟩ s)

end Booking

variable {h : Hotel} {c : Charge}

namespace Hotel

/-- `mapping_close_blocker`: an open mapping whose arrival is due or does not parse. -/
def mappingBlocked (h : Hotel) (businessDate : ℤ) : Bool :=
  h.mappingIssues.any fun arrival => arrival.all (· ≤ businessDate)

/-- `folio_id` of the booking, or the open folio that is found for it. -/
def folioOf (h : Hotel) (b : Booking) : Option ℕ :=
  match b.folioId with
  | some f => some f
  | none => (h.folios.findRev? fun f => f.booking == b.id && f.isOpen).map Folio.id

def priceOf (h : Hotel) (businessDate : ℤ) (b : Booking) : RoomCharge :=
  calculateRoomCharge b.price b.checkInDay b.checkOutDay businessDate
    ((h.accommodationTax businessDate).getD accommodationTaxRate) (h.dailyRates b.id businessDate)

/-- The candidate rules make the booking chargeable for the date: it is checked in, its
stay is active, it is not complimentary, its rate is positive, and it has a folio. -/
def chargeable (h : Hotel) (businessDate : ℤ) (b : Booking) : Bool :=
  b.status == .checkedIn && b.activeOn businessDate && !b.complimentary &&
    decide (0 < (h.priceOf businessDate b).amount) && (h.folioOf b).isSome

def charged (h : Hotel) (businessDate : ℤ) (booking : ℕ) : Bool :=
  h.charges.any fun c =>
    c.booking == booking && c.businessDate == businessDate && c.type == .roomCharge && !c.voided

def alreadyPosted (h : Hotel) (businessDate : ℤ) (booking : ℕ) : Bool :=
  h.charges.any fun c =>
    c.booking == booking && c.businessDate == businessDate && c.type == .roomCharge

/-- The unique index on the charges that are not voided refuses the charge. -/
def duplicateCharge (h : Hotel) (c : Charge) : Bool :=
  h.charges.any fun x =>
    x.booking == c.booking && x.businessDate == c.businessDate && x.type == c.type && !x.voided

def post (h : Hotel) (c : Charge) : Hotel := { h with charges := h.charges ++ [c] }

def markNoShow (h : Hotel) (booking : ℕ) : Hotel :=
  { h with bookings := h.bookings.map fun b =>
    if b.id = booking then { b with status := .noShow } else b }

/-! ### Preconditions -/

def hasOpenFolio (h : Hotel) (b : Booking) : Bool :=
  match b.folioId with
  | some f => h.folios.any fun x => x.id == f && x.isOpen
  | none => h.folios.any fun x => x.booking == b.id && x.isOpen

def blockingErrors (h : Hotel) (businessDate : ℤ) : Bool :=
  let checkedIn := h.bookings.filter fun b => b.status == .checkedIn
  let active := checkedIn.filter fun b => b.activeOn businessDate
  let arrivals := h.bookings.filter fun b => b.status == .confirmed || b.status == .guaranteed
  active.any (fun b => b.roomId.isNone) ||
    (active.take 2000).any (fun b => !h.hasOpenFolio b) ||
    checkedIn.any (fun b => b.checkOutDay.any (· ≤ businessDate)) ||
    checkedIn.any (fun b => b.checkOutDay.isNone) ||
    checkedIn.any (fun b => b.invalidStay) ||
    arrivals.any (fun b => b.checkInDay.any (· ≤ businessDate)) ||
    arrivals.any (fun b => b.checkInDay.isNone) ||
    h.mappingBlocked businessDate

theorem charged_of_duplicate (ht : c.type = .roomCharge) (hd : h.duplicateCharge c = true) :
    h.charged c.businessDate c.booking = true := by
  simpa [duplicateCharge, charged, ht] using hd

theorem charged_post_self (ht : c.type = .roomCharge) (hv : c.voided = false) :
    (h.post c).charged c.businessDate c.booking = true := by
  simp [post, charged, ht, hv]

theorem charged_post (hc : h.charged businessDate booking = true) :
    (h.post c).charged businessDate booking = true := by
  simp only [charged, post, List.any_append, Bool.or_eq_true]
  exact .inl hc

@[simp] theorem chargeable_markNoShow (h : Hotel) (booking : ℕ) (businessDate : ℤ) (b : Booking) :
    (h.markNoShow booking).chargeable businessDate b = h.chargeable businessDate b := rfl

theorem mem_of_mem_markNoShow {b : Booking} (hb : b ∈ (h.markNoShow booking).bookings)
    (hc : h.chargeable businessDate b = true) : b ∈ h.bookings := by
  obtain ⟨x, hx, rfl⟩ := List.mem_map.mp hb
  split at hc
  · simp [chargeable] at hc
  · rename_i hne
    rwa [if_neg hne]

end Hotel

/-! The runs of the night audit and their items: the candidate set, the posting of one
item in its transaction, and the counts of the reconciliation. -/

inductive RunStatus where
  | running
  | blocked
  | failed
  | completed
  | partialRecovery
  | superseded
  | dryRunCompleted
  deriving DecidableEq

/-- A row of `night_audit_runs`. A superseded run has no `property_id`, which takes it out
of the unique index. -/
structure Run where
  id : ℕ
  property : Option ℕ
  businessDate : ℤ
  status : RunStatus := .running
  dryRun : Bool := false
  heartbeat : ℕ := 0

inductive ItemStatus where
  | pending
  | posted
  | skipped
  | failed
  deriving DecidableEq

inductive ItemReason where
  | complimentaryAccommodation
  | zeroOrMissingRate
  | noOpenFolio
  | alreadyPosted
  | duplicateChargePrevented
  | runAborted
  deriving DecidableEq

inductive PostingType where
  | roomCharge
  | noShow
  deriving DecidableEq

/-- A row of `night_audit_run_items`. The items of a run are built once, so an item is
identified by its run and its place in it. -/
structure Item where
  run : ℕ
  index : ℕ := 0
  booking : ℕ
  folio : Option ℕ
  postingType : PostingType
  postingDate : ℤ
  total : ℚ
  status : ItemStatus := .pending
  reason : Option ItemReason := none

namespace Item

def isOpen (x : Item) : Bool := x.status == .pending || x.status == .failed

def same (x y : Item) : Bool := x.run == y.run && x.index == y.index

def charge (x : Item) : Charge where
  booking := x.booking
  businessDate := x.postingDate
  type :=
    match x.postingType with
    | .roomCharge => .roomCharge
    | .noShow => .noShowFee
  total := x.total

end Item

/-! ### The candidate set -/

def skipReason (h : Hotel) (businessDate : ℤ) (b : Booking) : Option ItemReason :=
  if b.complimentary then some .complimentaryAccommodation
  else if (h.priceOf businessDate b).amount ≤ 0 then some .zeroOrMissingRate
  else if (h.folioOf b).isNone then some .noOpenFolio
  else if h.alreadyPosted businessDate b.id then some .alreadyPosted
  else none

def roomItem (h : Hotel) (run : ℕ) (businessDate : ℤ) (b : Booking) : Item where
  run := run
  booking := b.id
  folio := h.folioOf b
  postingType := .roomCharge
  postingDate := businessDate
  total := ((h.priceOf businessDate b).total : ℚ) / 100
  status := if (skipReason h businessDate b).isSome then .skipped else .pending
  reason := skipReason h businessDate b

def noShowItem (run : ℕ) (businessDate : ℤ) (b : Booking) : Item where
  run := run
  booking := b.id
  folio := b.folioId
  postingType := .noShow
  postingDate := businessDate
  total := b.noShowFee

def checkedInRead (h : Hotel) : List Booking :=
  (h.bookings.filter fun b => b.status == .checkedIn).take 5000

def buildCandidateSet (h : Hotel) (run : ℕ) (businessDate : ℤ) : List Item :=
  let rooms := (checkedInRead h).filter fun b => b.activeOn businessDate
  let arrivals := h.bookings.filter fun b => b.noShowDue businessDate
  ((rooms.map (roomItem h run businessDate) ++ arrivals.map (noShowItem run businessDate)).zipIdx).map
    fun x => { x.1 with index := x.2 }

/-! ### The store -/

/-- `rolled` logs the runs that rolled the date and their dates, newest first; nothing
branches on it. -/
structure Store where
  hotel : Hotel
  runs : List Run
  items : List Item
  businessDate : ℤ
  rolled : List (ℕ × ℤ)
  localToday : ℤ
  now : ℕ
  nextId : ℕ

/-- What happens to a transaction: it goes through, it is taken back, it is taken back and
the mark of the failure is lost as well, or it goes through and its answer is lost. -/
inductive Fault where
  | none
  | aborted
  | unmarked
  | unanswered
  deriving DecidableEq

namespace Store

def setRun (s : Store) (run : ℕ) (f : Run → Run) : Store :=
  { s with runs := s.runs.map fun r => if r.id = run then f r else r }

def findRun (s : Store) (run : ℕ) : Option Run := s.runs.find? fun r => r.id == run

def runOf (s : Store) (property : ℕ) (businessDate : ℤ) : Option Run :=
  s.runs.find? fun r => r.property == some property && r.businessDate == businessDate

def setItem (s : Store) (x : Item) (status : ItemStatus) (reason : Option ItemReason) : Store :=
  { s with items := s.items.map fun y =>
    if y.same x then { y with status := status, reason := reason } else y }

/-- `_set_stage`. -/
def beat (s : Store) (run : ℕ) : Store := s.setRun run fun r => { r with heartbeat := s.now }

/-- The claim of the item at the start of its transaction finds it pending. -/
def isPending (s : Store) (x : Item) : Bool := s.items.any fun y => y.same x && y.status == .pending

def transact (s : Store) (x : Item) : Option Store :=
  let done (h : Hotel) := ({ s with hotel := h }).setItem x .posted x.reason
  match x.postingType with
  | .roomCharge =>
    if s.hotel.duplicateCharge x.charge then none else some (done (s.hotel.post x.charge))
  | .noShow =>
    let marked := s.hotel.markNoShow x.booking
    if 0 < x.total ∧ x.folio.isSome = true then
      if s.hotel.duplicateCharge x.charge then none else some (done (marked.post x.charge))
    else some (done marked)

def postItem (s : Store) (x : Item) (fault : Fault) : Store :=
  match fault with
  | .aborted => s.setItem x .failed none
  | .unmarked => s
  | .none | .unanswered =>
    if s.isPending x then
      match s.transact x with
      | some s' => if fault = .unanswered then s'.setItem x .failed none else s'
      | none =>
        match x.postingType with
        | .roomCharge => s.setItem x .skipped (some .duplicateChargePrevented)
        | .noShow => s.setItem x .failed none
    else s

def pendingItems (s : Store) (run : ℕ) : List Item :=
  (s.items.filter fun x => x.run == run && x.status == .pending).take 20000

def hasItem (s : Store) (run : ℕ) (status : ItemStatus) : Bool :=
  s.items.any fun x => x.run == run && x.status == status

def resetFailed (s : Store) (run : ℕ) : Store :=
  { s with items := s.items.map fun x =>
    if x.run = run ∧ x.status = .failed then { x with status := .pending, reason := none } else x }

def cancelPending (s : Store) (run : ℕ) : Store :=
  { s with items := s.items.map fun x =>
    if x.run = run ∧ x.status = .pending then { x with status := .skipped, reason := some .runAborted }
    else x }

/-- Another run that is not over keeps the validation from passing. -/
def otherActive (s : Store) (businessDate : ℤ) : Bool :=
  s.runs.any fun r => (r.status == .running || r.status == .blocked || r.status == .partialRecovery) &&
    r.businessDate != businessDate

/-- `_validate_preconditions` has blocking errors. -/
def validationBlocked (s : Store) (businessDate : ℤ) : Bool :=
  s.otherActive businessDate || s.hotel.blockingErrors businessDate

end Store

/-! ### What a posting does -/

/-- What the transaction of an item writes to the hotel. -/
inductive Posted (h : Hotel) (x : Item) : Hotel → Prop
  | room (ht : x.postingType = .roomCharge) : Posted h x (h.post x.charge)
  | noShow (ht : x.postingType = .noShow) : Posted h x (h.markNoShow x.booking)
  | fee (ht : x.postingType = .noShow) : Posted h x ((h.markNoShow x.booking).post x.charge)

inductive Outcome (s : Store) (x : Item) : Store → Prop
  | untouched : Outcome s x s
  | failed : Outcome s x (s.setItem x .failed none)
  | duplicate (ht : x.postingType = .roomCharge) (hd : s.hotel.duplicateCharge x.charge = true) :
      Outcome s x (s.setItem x .skipped (some .duplicateChargePrevented))
  | posted (h : Hotel) (hp : Posted s.hotel x h) :
      Outcome s x (({ s with hotel := h } : Store).setItem x .posted x.reason)
  | unanswered (h : Hotel) (hp : Posted s.hotel x h) :
      Outcome s x ((({ s with hotel := h } : Store).setItem x .posted x.reason).setItem x .failed none)

variable {s s' : Store} {x : Item}

namespace Store

theorem transact_posted (h : s.transact x = some s') :
    ∃ h', Posted s.hotel x h' ∧ s' = ({ s with hotel := h' } : Store).setItem x .posted x.reason := by
  unfold transact at h
  cases ht : x.postingType with
  | roomCharge =>
    simp only [ht] at h
    split at h <;> cases h
    exact ⟨_, .room ht, rfl⟩
  | noShow =>
    simp only [ht] at h
    split at h
    · split at h <;> cases h
      exact ⟨_, .fee ht, rfl⟩
    · cases h
      exact ⟨_, .noShow ht, rfl⟩

theorem transact_refused (h : s.transact x = none) (ht : x.postingType = .roomCharge) :
    s.hotel.duplicateCharge x.charge = true := by
  by_contra hd
  simp [transact, ht, hd] at h

theorem postItem_outcome (s : Store) (x : Item) (fault : Fault) :
    Outcome s x (s.postItem x fault) := by
  have hrun : Outcome s x (match s.transact x with
      | some s' => if fault = Fault.unanswered then s'.setItem x .failed none else s'
      | none =>
        match x.postingType with
        | .roomCharge => s.setItem x .skipped (some .duplicateChargePrevented)
        | .noShow => s.setItem x .failed none) := by
    cases hx : s.transact x with
    | some s' =>
      obtain ⟨h', hp, rfl⟩ := transact_posted hx
      dsimp only
      split
      · exact .unanswered h' hp
      · exact .posted h' hp
    | none =>
      cases ht : x.postingType with
      | roomCharge => exact .duplicate ht (transact_refused hx ht)
      | noShow => exact .failed
  unfold postItem
  cases fault with
  | aborted => exact .failed
  | unmarked => exact .untouched
  | none | unanswered =>
    dsimp only
    split
    · exact hrun
    · exact .untouched

end Store

/-- The posting of an item is about the hotel and the items. -/
theorem Outcome.frame (h : Outcome s x s') : s'.nextId = s.nextId ∧
    s'.runs = s.runs ∧ s'.businessDate = s.businessDate ∧ s'.rolled = s.rolled := by
  cases h <;> exact ⟨rfl, rfl, rfl, rfl⟩

end SyrocePms.NightAudit
