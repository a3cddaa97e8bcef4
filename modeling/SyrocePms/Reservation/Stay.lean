import Mathlib.Data.Int.Order.Basic
import Mathlib.Data.List.Range

/-! The lifecycle of a reservation: the hospitality states, the table of transitions
that the reservation state machine allows, and the guards of its handlers. -/

namespace SyrocePms.Reservation

variable {n : ℤ}

/-- The `status` of a booking. The last four are not states of the lifecycle table: two
spellings used by single modules, the marker of the demo archive, and any word that a
provider adapter stored as it came. -/
inductive BookingStatus where
  | pending
  | confirmed
  | guaranteed
  | checkedIn
  | checkedOut
  | cancelled
  | noShow
  | inHouse
  | pendingMapping
  | archivedDemo
  | other (word : String)
  deriving DecidableEq

namespace BookingStatus

def terminal : BookingStatus → Bool
  | .cancelled | .noShow | .checkedOut => true
  | _ => false

/-- `VALID_TRANSITIONS`. A status outside the table has no row. -/
def validTransitions : BookingStatus → List BookingStatus
  | .pending => [.confirmed, .guaranteed, .cancelled]
  | .confirmed => [.checkedIn, .cancelled, .noShow, .guaranteed]
  | .guaranteed => [.checkedIn, .cancelled, .noShow]
  | .checkedIn => [.checkedOut]
  | .checkedOut => []
  | .cancelled => []
  | .noShow => []
  | .inHouse | .pendingMapping | .archivedDemo | .other _ => []

def nonCancellable : BookingStatus → Bool
  | .checkedIn | .checkedOut | .cancelled | .noShow => true
  | _ => false

/-- `validate_transition`: the status stays, or moves along the table. -/
def validateTransition (current new : BookingStatus) : Bool :=
  current == new || (validTransitions current).contains new

/-- The guard of `handle_no_show`: not in `NON_NOSHOWABLE_STATES`, which lists the same
states as `NON_CANCELLABLE_STATES`, and a valid transition. -/
def noShowable (st : BookingStatus) : Bool :=
  !st.nonCancellable && validateTransition st .noShow

theorem validateTransition_iff {current new : BookingStatus} :
    validateTransition current new = true ↔ current = new ∨ new ∈ validTransitions current := by
  simp [validateTransition]

@[simp] theorem validateTransition_self (st : BookingStatus) :
    validateTransition st st = true := by
  simp [validateTransition]

end BookingStatus

/-! Stays: the timestamps of a booking, the nights it occupies, and the booking
document. Calendar dates are day numbers. A timestamp is kept as the source keeps it,
an ISO date with or without a time of day, because some queries compare the texts and
others the dates. -/

/-- An ISO timestamp as stored: the date, and the rest of the text where there is one. -/
structure Stamp where
  day : ℤ
  clock : Option ℕ := none
  deriving DecidableEq

namespace Stamp

/-- The order of the texts: the date decides, and a bare date sorts before the same
date with a time of day. -/
def textLt (s t : Stamp) : Bool :=
  s.day < t.day || (s.day == t.day &&
    match s.clock, t.clock with
    | none, some _ => true
    | some a, some b => a < b
    | _, none => false)

end Stamp

def nightsFrom (current : ℤ) : ℕ → List ℤ
  | 0 => []
  | left + 1 => current :: nightsFrom (current + 1) left

/-- `_night_dates` on the two dates: every night from arrival up to the departure date,
which is not included. -/
def nightDates (ci co : ℤ) : List ℤ := nightsFrom ci (co - ci).toNat

theorem mem_nightsFrom {current : ℤ} {left : ℕ} :
    n ∈ nightsFrom current left ↔ current ≤ n ∧ n < current + left := by
  induction left generalizing current with
  | zero => simp [nightsFrom]
  | succ left ih =>
    simp only [nightsFrom, List.mem_cons, ih]
    omega

theorem mem_nightDates {ci co : ℤ} : n ∈ nightDates ci co ↔ ci ≤ n ∧ n < co := by
  rw [nightDates, mem_nightsFrom]
  omega

theorem nodup_nightsFrom (current : ℤ) (left : ℕ) : (nightsFrom current left).Nodup := by
  induction left generalizing current with
  | zero => exact List.nodup_nil
  | succ left ih =>
    refine List.nodup_cons.mpr ⟨fun h => ?_, ih _⟩
    have := mem_nightsFrom.mp h
    omega

/-- `_night_dates` of two stored timestamps, empty where one of them is missing. -/
def stayNights : Option Stamp → Option Stamp → List ℤ
  | some ci, some co => nightDates ci.day co.day
  | _, _ => []

theorem mem_stayNights {ci co : Option Stamp} : n ∈ stayNights ci co ↔
      ∃ a b, ci = some a ∧ co = some b ∧ a.day ≤ n ∧ n < b.day := by
  cases ci <;> cases co <;> simp [stayNights, mem_nightDates]

end SyrocePms.Reservation
