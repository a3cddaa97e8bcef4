import SyrocePms.Ledger.ForeignLines

/-! The room revenue of a booking at check-out. What the nights have not posted of the confirmed
total becomes one more charge, and the balance of its folio is written. Amounts are in cents. -/

namespace SyrocePms.Folio.RoomRevenue

open Lib Ledger.Foreign List

/-! ### Charges, payments and folios -/

def money : Number → ℤ
  | .decimal q => halfAway (q * 100)
  | _ => 0

inductive ChargeType where
  | roomCharge
  | other (name : ℕ)
  deriving DecidableEq

inductive Category where
  | room
  | other (name : ℕ)
  deriving DecidableEq

/-- An idempotency key: that of the reconciliation of a booking, or another one. -/
inductive ChargeKey where
  | reconciliation (booking : ℕ)
  | other (name : ℕ)
  deriving DecidableEq

/-- A row of `folio_charges`. The total may be left out. -/
structure Charge where
  id : ℕ
  booking : ℕ
  folio : ℕ
  type : ChargeType
  category : Option Category := none
  key : Option ChargeKey := none
  date : ℕ
  amount : Number
  tax : Number := .absent
  total : Option Number := none
  voided : Bool := false

namespace Charge

/-- `charge.get("total", charge.get("amount"))`. -/
def gross (c : Charge) : ℤ := money (c.total.getD c.amount)

def isRoom (c : Charge) : Bool := !c.voided && (c.type == .roomCharge || c.category == some .room)

def isReconciliation (booking : ℕ) (c : Charge) : Bool :=
  c.key == some (.reconciliation booking) && !c.voided

end Charge

/-- A row of `payments`. The flag may be left out. -/
structure Payment where
  booking : ℕ
  folio : ℕ
  amount : Number
  voided : Option Bool := some false

/-- The payment is found by `{"voided": False}`. -/
def Payment.isActive (p : Payment) : Bool := p.voided == some false

/-- A folio. A time that is missing is before every other. -/
structure FolioDoc where
  id : ℕ
  booking : ℕ
  isOpen : Bool
  openingBalance : Number := .absent
  balance : Number := .absent
  closedAt : WithBot ℕ := ⊥
  createdAt : WithBot ℕ := ⊥
  deriving DecidableEq

structure BookingDoc where
  id : ℕ
  totalAmount : Number
  accommodation : Number := .absent
  checkOut : Option ℕ := none

structure Books where
  charges : List Charge := []
  payments : List Payment := []
  folios : Collection FolioDoc FolioDoc.id

structure Result where
  posted : Bool
  idempotent : Bool
  chargeId : Option ℕ
  amount : ℤ

namespace Books

variable (s : Books)

def chargesOf (booking : ℕ) : List Charge := s.charges.filter fun c => c.booking = booking

def readCharges (booking : ℕ) : List Charge := (s.chargesOf booking).take 10000

def paymentsOf (booking : ℕ) : List Payment :=
  s.payments.filter fun p => p.booking = booking && p.isActive

end Books

def grossOf (l : List Charge) : ℤ := (l.map Charge.gross).sum

def paid (l : List Payment) : ℤ := (l.map fun p => money p.amount).sum

/-- What the stay comes to after the migration. -/
def BookingDoc.confirmed (b : BookingDoc) : ℤ := money b.totalAmount - money b.accommodation

/-- The order of `[("closed_at", -1), ("created_at", -1)]`. -/
def Later (f g : FolioDoc) : Prop :=
  g.closedAt < f.closedAt ∨ f.closedAt = g.closedAt ∧ g.createdAt ≤ f.createdAt

instance (f g : FolioDoc) : Decidable (Later f g) := inferInstanceAs (Decidable (_ ∨ _))

def folioFor (s : Books) (booking : ℕ) (allowClosedFolio : Bool) : Option FolioDoc :=
  match s.folios.findOne fun f => f.booking = booking && f.isOpen with
  | some f => some f
  | none =>
    if allowClosedFolio then
      ((s.folios.rows.filter fun f => f.booking = booking).insertionSort Later).head?
    else none

def taxOf (room : List Charge) (missing : ℤ) : ℤ :=
  let rate := if 0 < grossOf room then
      Decimal.digits 28 ((room.map fun c => money c.tax).sum / grossOf room)
    else 0
  halfAway (Decimal.digits 28 (missing / 100 * rate) * 100)

def completion (b : BookingDoc) (f : FolioDoc) (id today : ℕ) (missing tax : ℤ) : Charge where
  id := id
  booking := b.id
  folio := f.id
  type := .roomCharge
  category := some .room
  key := some (.reconciliation b.id)
  date := b.checkOut.getD today
  amount := .ofMinor (missing - tax)
  tax := .ofMinor tax
  total := some (.ofMinor missing)

def complete (s : Books) (b : BookingDoc) (f : FolioDoc) (c : Charge) (missing : ℤ) : Books where
  charges := s.charges ++ [c]
  payments := s.payments
  folios := s.folios.update f.id fun g => { g with
    balance := .ofMinor (money f.openingBalance +
      (grossOf ((s.readCharges b.id).filter fun c => !c.voided) + missing) -
        paid ((s.paymentsOf b.id).take 10000)) }

/-- `reconcile_unposted_room_charge`. It raises without a folio, and when a unique index refuses
the charge. -/
def reconcileUnpostedRoomCharge (refuses : List Charge → Charge → Bool) (s : Books) (b : BookingDoc)
    (allowClosedFolio : Bool) (id today : ℕ) : Option (Books × Result) :=
  if b.confirmed ≤ 1 then some (s, ⟨false, false, none, 0⟩)
  else match (s.readCharges b.id).find? (Charge.isReconciliation b.id) with
    | some c => some (s, ⟨false, true, some c.id, c.gross⟩)
    | none =>
      let room := (s.readCharges b.id).filter Charge.isRoom
      let missing := b.confirmed - grossOf room
      if missing ≤ 1 then some (s, ⟨false, false, none, 0⟩)
      else match folioFor s b.id allowClosedFolio with
        | none => none
        | some f =>
          let c := completion b f id today missing (taxOf room missing)
          if refuses s.charges c then none
          else some (complete s b f c missing, ⟨true, false, some id, missing⟩)

/-! ### What a call leaves -/

def Books.roomRevenue (s : Books) (booking : ℕ) : ℤ := grossOf ((s.chargesOf booking).filter Charge.isRoom)

/-- The active charges of a folio less its active payments. -/
def Books.ownBalance (s : Books) (folio : ℕ) : ℤ :=
  grossOf (s.charges.filter fun c => c.folio = folio && !c.voided) -
    paid (s.payments.filter fun p => p.folio = folio && p.isActive)

/-- The active charges and payments of the booking are those of the folio. -/
structure Sole (s : Books) (f : FolioDoc) : Prop where
  charges : ∀ c ∈ s.charges, c.voided = false → (c.booking = f.booking ↔ c.folio = f.id)
  payments : ∀ p ∈ s.payments, p.isActive = true → (p.booking = f.booking ↔ p.folio = f.id)

variable {refuses : List Charge → Charge → Bool} {s s' : Books} {b : BookingDoc}
variable {allowClosedFolio : Bool}

/-- There is nothing to post. -/
def Settled (s : Books) (b : BookingDoc) : Prop :=
  b.confirmed ≤ 1 ∨ ((s.readCharges b.id).find? (Charge.isReconciliation b.id)).isSome = true ∨
    b.confirmed - grossOf ((s.readCharges b.id).filter Charge.isRoom) ≤ 1

theorem exists_reconcile_of_settled (h : Settled s b) (allowClosedFolio : Bool) (id today : ℕ) :
    ∃ r, reconcileUnpostedRoomCharge refuses s b allowClosedFolio id today = some (s, r) ∧
      r.posted = false := by
  unfold reconcileUnpostedRoomCharge
  split
  · exact ⟨_, rfl, rfl⟩
  · rename_i hconfirmed
    split
    · exact ⟨_, rfl, rfl⟩
    · rename_i hnone
      rcases h with h | h | h
      · exact absurd h hconfirmed
      · rw [hnone] at h
        cases h
      · rw [if_pos h]
        exact ⟨_, rfl, rfl⟩

/-- A call leaves the books as they are, or completes the revenue. -/
theorem reconcile_cases {id today : ℕ} {r : Result}
    (h : reconcileUnpostedRoomCharge refuses s b allowClosedFolio id today = some (s', r)) :
    (s' = s ∧ Settled s b) ∨
      ¬ Settled s b ∧ ∃ f, folioFor s b.id allowClosedFolio = some f ∧
        s' = complete s b f (completion b f id today
          (b.confirmed - grossOf ((s.readCharges b.id).filter Charge.isRoom))
          (taxOf ((s.readCharges b.id).filter Charge.isRoom)
            (b.confirmed - grossOf ((s.readCharges b.id).filter Charge.isRoom))))
          (b.confirmed - grossOf ((s.readCharges b.id).filter Charge.isRoom)) := by
  unfold reconcileUnpostedRoomCharge at h
  split at h
  · rename_i hconfirmed
    cases h
    exact .inl ⟨rfl, .inl hconfirmed⟩
  · rename_i hconfirmed
    split at h
    · rename_i c hc
      cases h
      exact .inl ⟨rfl, .inr (.inl (by rw [hc]; rfl))⟩
    · rename_i hnone
      dsimp only at h
      split at h
      · rename_i hmissing
        cases h
        exact .inl ⟨rfl, .inr (.inr hmissing)⟩
      · rename_i hmissing
        split at h
        · cases h
        · rename_i f hf
          split at h
          · cases h
          · cases h
            refine .inr ⟨fun hsettled => ?_, f, hf, rfl⟩
            rcases hsettled with hs | hs | hs
            · exact hconfirmed hs
            · rw [hnone] at hs
              cases hs
            · exact hmissing hs

/-! ### Sums -/

@[simp] theorem money_ofMinor (n : ℤ) : money (.ofMinor n) = n := by
  have hscale : (n / 100 : ℚ) * 100 = n := by ring
  show halfAway ((n / 100 : ℚ) * 100) = n
  rw [hscale, halfAway_intCast]

theorem grossOf_append (l l' : List Charge) : grossOf (l ++ l') = grossOf l + grossOf l' := by
  rw [grossOf, map_append, sum_append]
  rfl

theorem readCharges_eq (h : (s.chargesOf b.id).length < 10000) : s.readCharges b.id = s.chargesOf b.id :=
  take_of_length_le h.le

theorem booking_of_folioFor {booking : ℕ} {f : FolioDoc}
    (h : folioFor s booking allowClosedFolio = some f) : f ∈ s.folios ∧ f.booking = booking := by
  unfold folioFor at h
  split at h
  · rename_i g hg
    cases h
    obtain ⟨hmem, hfor⟩ := Collection.mem_of_findOne hg
    exact ⟨hmem, by simpa using (Bool.and_eq_true_iff.mp hfor).1⟩
  · split at h
    · have hmem := (mem_insertionSort _).mp (mem_of_head? h)
      obtain ⟨hf, hbooking⟩ := mem_filter.mp hmem
      exact ⟨hf, of_decide_eq_true hbooking⟩
    · cases h

/-! ### The completing charge -/

section Complete

variable {f : FolioDoc} {id today : ℕ} {missing tax : ℤ}

theorem gross_completion : (completion b f id today missing tax).gross = missing := money_ofMinor missing

theorem net_add_tax_completion :
    money (completion b f id today missing tax).amount + money (completion b f id today missing tax).tax =
      (completion b f id today missing tax).gross := by
  rw [gross_completion]
  show money (.ofMinor (missing - tax)) + money (.ofMinor tax) = missing
  rw [money_ofMinor, money_ofMinor]
  ring

theorem chargesOf_complete : (complete s b f (completion b f id today missing tax) missing).chargesOf b.id =
    s.chargesOf b.id ++ [completion b f id today missing tax] := by
  simp [Books.chargesOf, complete, completion]

theorem roomRevenue_complete :
    (complete s b f (completion b f id today missing tax) missing).roomRevenue b.id =
      s.roomRevenue b.id + missing := by
  have hroom : (completion b f id today missing tax).isRoom = true := rfl
  rw [Books.roomRevenue, chargesOf_complete, filter_append, grossOf_append, Books.roomRevenue,
    filter_singleton, hroom]
  simp [grossOf, gross_completion]

/-- The next call finds the charge by its key. -/
theorem settled_complete (hread : (s.chargesOf b.id).length < 10000) :
    Settled (complete s b f (completion b f id today missing tax) missing) b := by
  have hlength : (s.chargesOf b.id ++ [completion b f id today missing tax]).length ≤ 10000 := by
    rw [length_append, length_singleton]
    omega
  have hkey : (completion b f id today missing tax).isReconciliation b.id = true := by
    simp [Charge.isReconciliation, completion]
  refine .inr (.inl ?_)
  rw [Books.readCharges, chargesOf_complete, take_of_length_le hlength, find?_isSome]
  exact ⟨_, mem_append_right _ mem_cons_self, hkey⟩

theorem balance_complete (hread : (s.chargesOf b.id).length < 10000)
    (hpaid : (s.paymentsOf b.id).length ≤ 10000) (hf : f ∈ s.folios) (hbooking : f.booking = b.id)
    {g : FolioDoc} (hg : g ∈ (complete s b f (completion b f id today missing tax) missing).folios)
    (hid : g.id = f.id) (hsole : Sole s g) :
    money g.balance = money g.openingBalance +
      (complete s b f (completion b f id today missing tax) missing).ownBalance g.id := by
  simp only [complete] at hg
  obtain ⟨g', hg', hkey, rfl⟩ := Collection.exists_of_mem_update hg hid
  obtain rfl := Collection.eq_of_key hg' hf hkey
  have hcharges : (s.chargesOf b.id).filter (fun c => !c.voided) =
      s.charges.filter fun c => c.folio = g'.id && !c.voided := by
    rw [Books.chargesOf, filter_filter]
    refine filter_congr fun c hc => ?_
    cases hv : c.voided with
    | true => simp
    | false =>
      have hiff : c.booking = b.id ↔ c.folio = g'.id := hbooking ▸ hsole.charges c hc hv
      simp [hiff]
  have hpayments : s.paymentsOf b.id = s.payments.filter fun p => p.folio = g'.id && p.isActive := by
    refine filter_congr fun p hp => ?_
    cases hv : p.isActive with
    | false => simp
    | true =>
      have hiff : p.booking = b.id ↔ p.folio = g'.id := hbooking ▸ hsole.payments p hp hv
      simp [hiff]
  have hown : (complete s b g' (completion b g' id today missing tax) missing).charges.filter
      (fun c => c.folio = g'.id && !c.voided) =
        (s.charges.filter fun c => c.folio = g'.id && !c.voided) ++ [completion b g' id today missing tax] := by
    simp [complete, completion]
  show money (.ofMinor _) = _
  rw [money_ofMinor, Books.ownBalance, hown, grossOf_append, readCharges_eq hread, hcharges,
    take_of_length_le hpaid, hpayments]
  simp only [grossOf, map_singleton, sum_singleton, gross_completion]
  show _ = _ + (_ - paid (s.payments.filter fun p => p.folio = g'.id && p.isActive))
  ring

end Complete

/-- What a call completes: the revenue of the room, up to a cent, with one charge at most. -/
structure Reconciled (refuses : List Charge → Charge → Bool) (s s' : Books) (b : BookingDoc) : Prop where
  adds : s' = s ∨ ∃ c, s'.charges = s.charges ++ [c] ∧ s'.roomRevenue b.id = b.confirmed ∧
    money c.amount + money c.tax = c.gross ∧
      ∀ f ∈ s'.folios, f.id = c.folio → Sole s f →
        money f.balance = money f.openingBalance + s'.ownBalance f.id
  revenue : 1 < b.confirmed → (∀ c ∈ s.chargesOf b.id, c.isReconciliation b.id = false) →
    b.confirmed ≤ s'.roomRevenue b.id + 1
  again : ∀ allowClosedFolio id today, ∃ r,
    reconcileUnpostedRoomCharge refuses s' b allowClosedFolio id today = some (s', r) ∧ r.posted = false

def migratedStay : BookingDoc where
  id := 1
  totalAmount := .decimal 300
  accommodation := .decimal 100

def migratedFolio : FolioDoc where
  id := 7
  booking := 1
  isOpen := true
  openingBalance := .decimal 100

def migratedBooks : Books where
  folios := ⟨[migratedFolio], nodup_singleton _⟩

end SyrocePms.Folio.RoomRevenue
