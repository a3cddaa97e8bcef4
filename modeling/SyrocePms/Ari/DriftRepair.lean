import Mathlib.Data.List.Sort
import SyrocePms.Ari.ChangeSet

/-! Drifts of a connection: `check_drift` compares the values of the PMS with those of the
provider and records the cells that differ, and `reconcile_drift` is to send the values of the
PMS again. It takes up what `get_drift_states` returns, which is a pair. -/

namespace SyrocePms.Ari.Drift

/-- What a value is of: a room type and a rate plan, from one date to another. -/
structure Place where
  room : ℕ
  ratePlan : Option ℕ
  dateFrom : ℤ
  dateTo : ℤ
  deriving DecidableEq

/-- A row of `ari_drift_state`. -/
structure DriftState where
  connection : Connection
  place : Place
  pmsHash : Option ℕ
  providerHash : Option ℕ
  detected : Bool
  pmsValue : Option Payload := none
  lastChecked : ℤ

/-! ### Recording -/

def upsertDriftState (rows : List DriftState) (d : DriftState) : List DriftState :=
  if rows.any fun r => r.connection = d.connection && r.place = d.place then
    rows.map fun r =>
      if r.connection = d.connection ∧ r.place = d.place then
        { d with pmsValue := d.pmsValue.or r.pmsValue } else r
  else rows ++ [d]

/-- What `check_drift` records for a place, of which the PMS, the provider or both have a
value. The hashes are there where both have one. -/
def checked (E : Extranet) (con : Connection) (now : ℤ) (p : Place) (pms provider : Option Payload) :
    DriftState :=
  let hash (x : Payload) : ℕ :=
    E.hash ⟨con.provider, con.property, p.room, p.ratePlan, p.dateFrom, p.dateTo, x⟩
  match pms, provider with
  | some x, some y => ⟨con, p, some (hash x), some (hash y), hash x ≠ hash y, none, now⟩
  | _, _ => ⟨con, p, none, none, true, none, now⟩

def checkDrift (E : Extranet) (con : Connection) (now : ℤ) (pms provider : Place → Option Payload)
    (places : List Place) (rows : List DriftState) : List DriftState :=
  places.foldl (fun rows p => upsertDriftState rows (checked E con now p (pms p) (provider p))) rows

/-! ### Repair -/

/-- The coalescing key of a corrective change set. -/
structure CorrectiveKey where
  connection : Connection
  place : Place
  deriving DecidableEq

/-- A change set that `reconcile_drift` passes to `upsert_change_set`. Its scope is always the
availability. -/
structure Corrective where
  key : CorrectiveKey
  payload : Payload
  deltaHash : Option ℕ

def DriftState.key (d : DriftState) : CorrectiveKey := ⟨d.connection, d.place⟩

/-- The corrective change set of a row. A row without a value of the PMS gives the empty
payload. -/
def DriftState.corrective (d : DriftState) : Corrective := ⟨d.key, d.pmsValue.getD {}, d.pmsHash⟩

/-- `get_drift_states` with `drift_only`: the latest rows, and how many there are. -/
def getDriftStates (rows : List DriftState) (con : Connection) (limit : ℕ) : List DriftState × ℕ :=
  let found := rows.filter fun d => d.connection = con && d.detected
  ((found.insertionSort fun d e => e.lastChecked ≤ d.lastChecked).take limit, found.length)

/-- What the loop over the result of `get_drift_states` takes up. -/
inductive Element where
  | row (d : DriftState)
  | rows (ds : List DriftState)
  | count (n : ℕ)

def elements (r : List DriftState × ℕ) : List Element := [.rows r.1, .count r.2]

/-- `ds['room_type_code']` and the other fields: a list and a number have none, and raise a
`TypeError`. -/
def Element.fields : Element → Option DriftState
  | .row d => some d
  | .rows _ | .count _ => none

inductive Outcome where
  | disabled
  | completed (count : ℕ)
  | raised

/-- The change sets that a call creates, and how it ends. -/
structure Repair where
  created : List Corrective
  outcome : Outcome

/-- The loop of `reconcile_drift`. -/
def correct (created : List Corrective) : List Element → Repair
  | [] => ⟨created, .completed created.length⟩
  | e :: rest =>
    match e.fields with
    | none => ⟨created, .raised⟩
    | some d => correct (created ++ [d.corrective]) rest

def reconcileDrift (enabled : Bool) (rows : List DriftState) (con : Connection) : Repair :=
  if enabled then correct [] (elements (getDriftStates rows con 100)) else ⟨[], .disabled⟩

/-- The PMS truth is restored: the call does not raise, an unresolved drift has one corrective
change set, with the value of the PMS, and a resolved drift has none. -/
structure Restores (pms : Place → Payload) (rows : List DriftState) (con : Connection)
    (r : Repair) : Prop where
  completes : r.outcome ≠ .raised
  corrected : ∀ d ∈ rows, d.connection = con → d.detected = true →
    ∃ x, r.created.filter (fun x => x.key = d.key) = [x] ∧ x.payload = pms d.place
  resolved : ∀ d ∈ rows, d.connection = con → d.detected = false →
    r.created.filter (fun x => x.key = d.key) = []

/-- The first element of a pair is a list, at which the loop raises. -/
theorem correct_elements (r : List DriftState × ℕ) : correct [] (elements r) = ⟨[], .raised⟩ := rfl

/-- A repair never restores the truth: where drifts are monitored it raises before it has
created a change set, and where they are not it has nothing to restore, or leaves it. -/
theorem restores_iff (pms : Place → Payload) (enabled : Bool) (rows : List DriftState)
    (con : Connection) :
    Restores pms rows con (reconcileDrift enabled rows con) ↔
      enabled = false ∧ ∀ d ∈ rows, d.connection = con → d.detected = false := by
  cases enabled with
  | true =>
    have hraised : (reconcileDrift true rows con).outcome = .raised := by
      simp only [reconcileDrift, if_true, correct_elements]
    constructor
    · intro h
      exact absurd hraised h.completes
    · rintro ⟨h, -⟩
      cases h
  | false =>
    have hnone : reconcileDrift false rows con = ⟨[], .disabled⟩ := rfl
    rw [hnone]
    constructor
    · intro h
      refine ⟨rfl, fun d hd hcon => ?_⟩
      cases hdet : d.detected with
      | false => rfl
      | true =>
        obtain ⟨x, hx, -⟩ := h.corrected d hd hcon hdet
        cases hx
    · rintro ⟨-, hresolved⟩
      refine ⟨by simp, fun d hd hcon hdet => ?_, fun d _ _ _ => rfl⟩
      rw [hresolved d hd hcon] at hdet
      cases hdet

/-- One room type has another availability at the provider. -/
def driftedRoom : DriftState where
  connection := ⟨1, 1, .hotelrunner⟩
  place := ⟨1, none, 10, 10⟩
  pmsHash := some 1
  providerHash := some 2
  detected := true
  lastChecked := 0

/-- The repair of one drift raises. -/
theorem not_restored_oneDrift :
    ¬ ∀ (pms : Place → Payload) (enabled : Bool) (rows : List DriftState) (con : Connection),
      Restores pms rows con (reconcileDrift enabled rows con) := by
  intro h
  have hcompletes := (h (fun _ => { availability := some 3 }) true [driftedRoom]
    driftedRoom.connection).completes
  exact hcompletes rfl

/-! ### The value of the PMS

It is not recorded, so that a loop over the rows would send empty payloads. -/

end SyrocePms.Ari.Drift
