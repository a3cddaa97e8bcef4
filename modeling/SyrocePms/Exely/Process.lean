import SyrocePms.Exely.Store

/-! `process_reservation_version`: the claim of the version under a lease, the writes to
the bookings, their readback, the write of the row and the end of the claim. The slots
that the rooms are assigned to come from outside; everything that is written under the
claim is written here. The thread number is the owner token. -/

namespace SyrocePms.Exely

open Reservation Lib Provider

variable {v : VersionRow} {k now : ℕ} {s s' : Store} {key : VersionKey} {lost : Bool}

def processingLeaseSeconds : ℕ := 60

/-- A version being worked on: the copy of its row, the generation of the claim, the
writes ahead, and what the writes done so far expect and confirm. -/
structure Work where
  doc : VersionRow
  generation : ℕ
  cancels : Bool
  plan : List Mutation
  expectations : List Expectation := []
  confirmations : List Confirmation := []

inductive ProcessAnswer where
  | versionNotFound
  | alreadyDurable
  | pmsReadbackFailed
  | malformed
  | holdMappingRequired
  | versionNotClaimable
  | processingClaimLost
  | success
  | failed
  | raised

inductive ProcessPc where
  | read
  | reread (doc : VersionRow) (rest : List Expectation)
  | remap (doc : VersionRow)
  | unhold (doc : VersionRow)
  | acquire (doc : VersionRow)
  | readGeneration (doc : VersionRow)
  | load (doc : VersionRow) (generation : ℕ)
  | loaded (doc : VersionRow) (generation : ℕ) (current : Option Row)
  | guard (w : Work)
  | perform (w : Work)
  | readback (w : Work) (rest : List Expectation)
  | guardRow (w : Work)
  | storeRow (w : Work)
  | finish (w : Work)
  | fail (generation : ℕ)
  | returned (a : ProcessAnswer)
  | crashed

namespace ProcessPc

/-- The generation of the claim that the call believes to hold. -/
def generation : ProcessPc → Option ℕ
  | .load _ g | .loaded _ g _ | .fail g => some g
  | .guard w | .perform w | .readback w _ | .guardRow w | .storeRow w | .finish w =>
    some w.generation
  | _ => none

/-- Control when the current operation raises. Under a claim the version is marked as
failed. -/
def raised : ProcessPc → ProcessPc
  | .fail _ => .returned .raised
  | pc => match pc.generation with
    | some g => .fail g
    | none => .returned .raised

def ended : ProcessPc → Bool
  | .returned _ | .crashed => true
  | _ => false

end ProcessPc

/-! ### The claim -/

/-- The filter of `_acquire_processing_claim`. -/
def claimable (v : VersionRow) (now : ℕ) : Bool :=
  v.processing == .received || v.processing == .pmsFailed ||
    (v.processing == .pmsProcessing && v.leaseUntil.any (· < now))

def acquired (v : VersionRow) (owner now : ℕ) : VersionRow :=
  { v with
    processing := .pmsProcessing
    owner := some owner
    leaseUntil := some (now + processingLeaseSeconds)
    generation := v.generation + 1 }

/-- `_owned_claim_query` with a live lease. -/
def owns (v : VersionRow) (owner generation now : ℕ) : Bool :=
  v.processing == .pmsProcessing && v.owner == some owner && v.generation == generation &&
    v.leaseUntil.any (now ≤ ·)

/-- `_finish_processing_claim` with success. -/
def durable (v : VersionRow) (w : Work) (targets : Bool) : VersionRow :=
  { v with
    processing := .pmsDurable
    ack := .pending
    owner := none
    leaseUntil := none
    confirmations := w.confirmations
    expectations := w.expectations
    hasTargets := targets }

/-- `_finish_processing_claim` with a failure. -/
def failedVersion (v : VersionRow) : VersionRow :=
  { v with processing := .pmsFailed, ack := .notReady, owner := none, leaseUntil := none }

namespace Store

def claimIsOwned (s : Store) (key : VersionKey) (owner generation : ℕ) : Bool :=
  (s.versions key).any fun v => owns v owner generation s.now

end Store

/-! ### The work -/

inductive MutationFailure where
  | claimLost
  | error

/-- Why a write was refused: an archive and a version that does not parse are errors, a
write that is fenced off or older than the document loses the claim. -/
def refusal (key : VersionKey) (b : Booking) : MutationFailure :=
  if isArchived b || (versionMayFollow key b).isNone then .error else .claimLost

def applyMutation (bookings : Bookings) (key : VersionKey) (generation : ℕ) :
    Mutation → Except MutationFailure (Bookings × Expectation)
  | .upsert stay _ =>
    let stay := { stay with versionKey := key }
    match upsertBooking bookings stay generation with
    | some bookings => .ok (bookings, ⟨stay.bookingId, .confirmed, some (roomTotal stay)⟩)
    | none => .error (((bookings.get? stay.bookingId).map (refusal key)).getD .error)
  | .cancel booking _ =>
    match bookings.get? booking with
    | none => .error .error
    | some b =>
      match cancelBooking bookings booking key generation with
      | some bookings =>
        .ok (bookings, ⟨booking, if isArchived b then .archivedDemo else .cancelled, none⟩)
      | none => .error (refusal key b)

def begun (s : Store) (doc : VersionRow) (generation : ℕ) (current : Option Row)
    (o : Outside) : ProcessPc :=
  match current with
  | none => .fail generation
  | some r =>
    let cancels := doc.cancellation || r.cancelled
    let usable := if cancels then !o.plan.isEmpty else
      (roomStaysProblem r.rooms).isNone && allMapped s.mappings r.rooms
    if usable && o.ok then .guard { doc, generation, cancels, plan := o.plan }
    else .fail generation

def importedRow (w : Work) (r : Row) : Row :=
  { r with
    pmsStatus := if w.cancels then .cancellationDone else .imported
    bookingIds := w.confirmations.map Confirmation.booking
    delivery := .pending
    generation := w.generation }

@[simp] theorem importedRow_key (w : Work) (r : Row) : (importedRow w r).key = r.key := rfl

/-- One operation of `process_reservation_version` by thread `k`; `lost` is the flag of
the lease keeper. -/
def processStep (k : ℕ) (s : Store) (key : VersionKey) (lost : Bool) (o : Outside) :
    ProcessPc → Option (Store × ProcessPc)
  | .read =>
    match s.versions key with
    | none => some (s, .returned .versionNotFound)
    | some v =>
      match v.processing with
      | .pmsDurable =>
        if v.expectations.isEmpty then some (s, .returned .pmsReadbackFailed)
        else some (s, .reread v v.expectations)
      | .malformed => some (s, .returned .malformed)
      | .holdMappingRequired => some (s, .remap v)
      | .received | .pmsFailed | .pmsProcessing => some (s, .acquire v)
  | .reread _ [] => some (s, .returned .alreadyDurable)
  | .reread v (e :: rest) =>
    if expectationMet s.bookings key o.archived e then some (s, .reread v rest)
    else some (s, .returned .pmsReadbackFailed)
  | .remap v =>
    if allMapped s.mappings v.rooms then some (s, .unhold v)
    else some (s, .returned .holdMappingRequired)
  | .unhold v =>
    match s.versions key with
    | some x =>
      if x.processing = .holdMappingRequired then
        some (s.putVersion key { x with processing := .received, mapping := .mapped }, .acquire v)
      else some (s, .returned .versionNotClaimable)
    | none => some (s, .returned .versionNotClaimable)
  | .acquire v =>
    match s.versions key with
    | some x =>
      if claimable x s.now then
        some (s.putVersion key (acquired x k s.now), .readGeneration v)
      else some (s, .returned .versionNotClaimable)
    | none => some (s, .returned .versionNotClaimable)
  | .readGeneration v =>
    match s.versions key with
    | some x =>
      if x.owner = some k then some (s, .load v x.generation)
      else some (s, .returned .versionNotClaimable)
    | none => some (s, .returned .versionNotClaimable)
  | .load v g => some (s, .loaded v g (s.row.filter fun r => r.key = key))
  | .loaded v g current =>
    if s.claimIsOwned key k g then some (s, begun s v g current o)
    else some (s, .returned .processingClaimLost)
  | .guard w =>
    if lost || !s.claimIsOwned key k w.generation then
      some (s, .returned .processingClaimLost)
    else some (s, .perform w)
  | .perform w =>
    match w.plan with
    | [] => some (s, .readback w w.expectations)
    | m :: rest =>
      match applyMutation s.bookings key w.generation m with
      | .ok (bookings, e) =>
        some ({ s with bookings := bookings }, .guard { w with
          plan := rest
          expectations := w.expectations ++ [e]
          confirmations := w.confirmations ++ m.confirm.toList })
      | .error .claimLost => some (s, .returned .processingClaimLost)
      | .error .error => some (s, .fail w.generation)
  | .readback w [] =>
    if !w.expectations.isEmpty && !w.confirmations.isEmpty &&
        w.confirmations.all (·.createdAt != 0) && o.ok then some (s, .guardRow w)
    else some (s, .fail w.generation)
  | .readback w (e :: rest) =>
    if expectationMet s.bookings key o.archived e then some (s, .readback w rest)
    else some (s, .fail w.generation)
  | .guardRow w =>
    if lost || !s.claimIsOwned key k w.generation then
      some (s, .returned .processingClaimLost)
    else some (s, .storeRow w)
  | .storeRow w =>
    if s.row.any fun r => r.key = key && decide (r.generation ≤ w.generation) then
      some (s.setRow key (importedRow w), .finish w)
    else some (s, .fail w.generation)
  | .finish w =>
    match s.versions key with
    | some x =>
      if !lost && owns x k w.generation s.now then
        some (s.putVersion key (durable x w o.targets), .returned .success)
      else some (s, .returned .processingClaimLost)
    | none => some (s, .returned .processingClaimLost)
  | .fail g =>
    match s.versions key with
    | some x =>
      if owns x k g s.now then some (s.putVersion key (failedVersion x), .returned .failed)
      else some (s, .returned .processingClaimLost)
    | none => some (s, .returned .processingClaimLost)
  | .returned _ | .crashed => none

/-- `_renew_processing_claim` beside the call. -/
def heartbeat (k : ℕ) (s : Store) (key : VersionKey) (lost : Bool) (ok : Bool)
    (pc : ProcessPc) : Option (Store × Bool) :=
  pc.generation.bind fun g =>
    match s.versions key with
    | some v =>
      if !lost && ok && owns v k g s.now then
        some (s.putVersion key { v with leaseUntil := some (s.now + processingLeaseSeconds) },
          false)
      else some (s, true)
    | none => some (s, true)

/-! ### What one operation does -/

/-- How the version row changes under a claim. -/
inductive VersionChange (v : VersionRow) : VersionRow → Prop
  | unhold : v.processing = .holdMappingRequired →
      VersionChange v { v with processing := .received, mapping := .mapped }
  | acquire (owner now : ℕ) : claimable v now = true → VersionChange v (acquired v owner now)
  | finish (w : Work) (targets : Bool) : v.processing = .pmsProcessing →
      VersionChange v (durable v w targets)
  | fail : v.processing = .pmsProcessing → VersionChange v (failedVersion v)
  | renew (until_ : ℕ) : v.processing = .pmsProcessing →
      VersionChange v { v with leaseUntil := some until_ }

theorem owns_processing {owner g : ℕ} (h : owns v owner g now = true) :
    v.processing = .pmsProcessing := by
  simp only [owns, Bool.and_eq_true, beq_iff_eq] at h
  exact h.1.1.1

theorem ne_durable_of_claimable (h : claimable v now = true) : v.processing ≠ .pmsDurable := by
  intro hd
  simp [claimable, hd] at h

def ProcessChange (s : Store) (key : VersionKey) (s' : Store) : Prop :=
  (∃ bookings, s' = { s with bookings := bookings }) ∨
  (∃ w, s' = s.setRow key (importedRow w)) ∨
  (∃ v v', s.versions key = some v ∧ VersionChange v v' ∧ s' = s.putVersion key v')

theorem ProcessChange.same (s : Store) (key : VersionKey) : ProcessChange s key s :=
  .inl ⟨s.bookings, rfl⟩

/-- No operation of the work changes which version is current. -/
theorem ProcessChange.map_key (h : ProcessChange s key s') :
    s'.row.map Row.key = s.row.map Row.key := by
  obtain ⟨bookings, rfl⟩ | ⟨w, rfl⟩ | ⟨v, v', -, -, rfl⟩ := h
  · rfl
  · exact s.map_key_setRow key _ (importedRow_key w)
  · rfl

variable {pc : ProcessPc}

theorem processStep_store {o : Outside} {pc' : ProcessPc}
    (h : processStep k s key lost o pc = some (s', pc')) : ProcessChange s key s' := by
  cases pc with
  | read | remap v | load v g | loaded v g current | guard w | guardRow w =>
    simp only [processStep] at h
    repeat' split at h
    all_goals cases h; exact .same s key
  | reread v rest =>
    cases rest <;> simp only [processStep] at h
    · cases h; exact .same s key
    · split at h <;> cases h <;> exact .same s key
  | readback w rest =>
    cases rest <;> simp only [processStep] at h
    · split at h <;> cases h <;> exact .same s key
    · split at h <;> cases h <;> exact .same s key
  | readGeneration v =>
    simp only [processStep] at h
    split at h
    · split at h <;> cases h <;> exact .same s key
    · cases h; exact .same s key
  | unhold v =>
    simp only [processStep] at h
    split at h
    · rename_i x hx
      split at h
      · rename_i hhold
        cases h
        exact .inr (.inr ⟨x, _, hx, .unhold hhold, rfl⟩)
      · cases h; exact .same s key
    · cases h; exact .same s key
  | acquire v =>
    simp only [processStep] at h
    split at h
    · rename_i x hx
      split at h
      · rename_i hc
        cases h
        exact .inr (.inr ⟨x, _, hx, .acquire k s.now hc, rfl⟩)
      · cases h; exact .same s key
    · cases h; exact .same s key
  | perform w =>
    simp only [processStep] at h
    split at h
    · cases h; exact .same s key
    · split at h <;> cases h
      · exact .inl ⟨_, rfl⟩
      · exact .same s key
      · exact .same s key
  | storeRow w =>
    simp only [processStep] at h
    split at h <;> cases h
    · exact .inr (.inl ⟨w, rfl⟩)
    · exact .same s key
  | finish w =>
    simp only [processStep] at h
    split at h
    · rename_i x hx
      split at h
      · rename_i ho
        cases h
        simp only [Bool.and_eq_true] at ho
        exact .inr (.inr ⟨x, _, hx, .finish w o.targets (owns_processing ho.2), rfl⟩)
      · cases h; exact .same s key
    · cases h; exact .same s key
  | fail g =>
    simp only [processStep] at h
    split at h
    · rename_i x hx
      split at h
      · rename_i ho
        cases h
        exact .inr (.inr ⟨x, _, hx, .fail (owns_processing ho), rfl⟩)
      · cases h; exact .same s key
    · cases h; exact .same s key
  | returned a => cases h
  | crashed => cases h

theorem heartbeat_store {lost' ok : Bool} (h : heartbeat k s key lost ok pc = some (s', lost')) :
    ProcessChange s key s' := by
  obtain ⟨g, -, h⟩ := Option.bind_eq_some_iff.mp h
  split at h
  · rename_i v hv
    split at h
    · rename_i ho
      cases h
      simp only [Bool.and_eq_true] at ho
      exact .inr (.inr ⟨v, _, hv, .renew _ (owns_processing ho.2), rfl⟩)
    · cases h; exact .same s key
  · cases h; exact .same s key

end SyrocePms.Exely
