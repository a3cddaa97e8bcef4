import SyrocePms.NightAudit.ChargedClose

/-! Eligibility when an item is posted. The items freeze the candidates; the transaction of
an item claims the item and never looks at its booking again. What it relies on is that
nobody has touched the booking since the candidates were built. -/

namespace SyrocePms.NightAudit

open Reservation Lib List

variable {x : Item} {h : Hotel} {booking : ℕ}

/-- `_money`: an amount rounded to cents. -/
def money (x : ℚ) : ℚ := roundHalfUp (x * 100) / 100

namespace Hotel

def roomRevenue (h : Hotel) (booking : ℕ) : ℚ :=
  ((((h.charges.filter fun c => c.booking == booking).take 10000).filter fun c =>
    !c.voided && c.type == .roomCharge).map fun c => money c.total).sum

def statuses (h : Hotel) (booking : ℕ) : List BookingStatus :=
  (h.bookings.filter fun b => b.id == booking).map Booking.status

end Hotel

/-- The night audit beside the check-out reconciliation. `reconciled` has the bookings with
a charge of the reconciliation that is not voided, and `untouched` the items whose booking
nobody has touched since they were built; nothing branches on `untouched`. -/
structure Desk where
  audit : Store
  reconciled : List ℕ := []
  untouched : List Item := []

/-- What happens beside the calls. A check-out reconciles the booking as it read it, with
the accommodation of before the migration. -/
inductive DeskAct where
  | clock (localToday : ℤ) (seconds : ℕ)
  | frontDesk (h : Hotel) (voided : List ℕ)
  | reconcile (b : Booking) (accommodation : ℚ) (allowClosedFolio : Bool)

namespace Desk

/-- The charge that completes the room revenue, dated on the check-out. -/
def lateCharge (s : Desk) (b : Booking) (missing : ℚ) : Charge where
  booking := b.id
  businessDate := b.checkOutDay.getD s.audit.localToday
  type := .roomCharge
  total := missing

/-- `reconcile_unposted_room_charge`: undefined when it raises. -/
def reconcileUnpostedRoomCharge (s : Desk) (b : Booking) (accommodation : ℚ)
    (allowClosedFolio : Bool) : Option Desk :=
  let confirmed := money b.price.totalAmount - money accommodation
  let missing := confirmed - s.audit.hotel.roomRevenue b.id
  if confirmed ≤ 1 / 100 then some s
  else if b.id ∈ s.reconciled then some s
  else if missing ≤ 1 / 100 then some s
  else if s.audit.hotel.folios.any fun f => f.booking == b.id && (f.isOpen || allowClosedFolio) then
    if s.audit.hotel.duplicateCharge (s.lateCharge b missing) then none
    else some { s with
      audit := { s.audit with hotel := s.audit.hotel.post (s.lateCharge b missing) }
      reconciled := b.id :: s.reconciled
      untouched := s.untouched.filter fun x => x.booking != b.id }
  else none

/-- The front desk touches the bookings whose status changes. -/
def env (s : Desk) : DeskAct → Option Desk
  | .clock today n => some { s with audit := s.audit.env (.clock today n) }
  | .frontDesk h voided => some { s with
      audit := s.audit.env (.frontDesk h)
      reconciled := s.reconciled.filter fun booking => !voided.contains booking
      untouched := s.untouched.filter fun x =>
        h.statuses x.booking == s.audit.hotel.statuses x.booking }
  | .reconcile b accommodation allowClosed => s.reconcileUnpostedRoomCharge b accommodation allowClosed

/-- The items that nobody has touched after an operation of a call. A no-show mark touches
its booking. -/
def untouchedAfter (s : Desk) (o : Outside) : Thread → List Item
  | .build _ run date => s.untouched ++ (buildCandidateSet s.audit.hotel run date).filter fun x =>
      x.postingType == .noShow || !s.reconciled.contains x.booking
  | t =>
    match postedItem s.audit o t with
    | some x =>
      if x.postingType = .noShow then s.untouched.filter fun y => y.booking != x.booking
      else s.untouched
    | none => s.untouched

def advance (s : Desk) (o : Outside) (t : Thread) : Option (Desk × Thread) :=
  (NightAudit.advance s.audit o t).map fun r =>
    ({ s with audit := r.1, untouched := s.untouchedAfter o t }, r.2)

def step (s : Desk) (t : Thread) : Move → Option (Desk × Thread)
  | .advance o => s.advance o t
  | .raise => some (s, t.raised)
  | .crash => some (s, .returned)

end Desk

def desk : Program Desk Thread DeskAct Call Move where
  init s := s.audit.runs = [] ∧ s.audit.items = [] ∧ s.audit.rolled = [] ∧ s.reconciled = [] ∧
    s.untouched = []
  env := Desk.env
  call _ c := some (.begin c)
  step _ s t m := s.step t m

def posting (p : Pool Desk Thread) : Act DeskAct Call Move → Option Item
  | .step k (.advance o) => (p.threads[k]?).bind (postedItem p.store.audit o)
  | _ => none

/-- The item may be posted: a no-show is for a pending arrival, and a room charge for a
guest in house whose room revenue no check-out has completed. -/
def Eligible (s : Desk) (x : Item) : Prop :=
  match x.postingType with
  | .noShow => .confirmed ∈ s.audit.hotel.statuses x.booking ∨
      .guaranteed ∈ s.audit.hotel.statuses x.booking
  | .roomCharge => .checkedIn ∈ s.audit.hotel.statuses x.booking ∧ x.booking ∉ s.reconciled

instance (s : Desk) (x : Item) : Decidable (Eligible s x) := by
  unfold Eligible
  split <;> infer_instance

/-- An item is posted only while nobody has touched its booking. -/
def PostsUntouched (p : Pool Desk Thread) (a : Act DeskAct Call Move) : Prop :=
  ∀ x ∈ posting p a, ∃ y ∈ p.store.untouched, y.row = x.row

instance (p : Pool Desk Thread) (a : Act DeskAct Call Move) : Decidable (PostsUntouched p a) := by
  unfold PostsUntouched
  infer_instance

/-! ### Untouched items are eligible -/

variable {s s' : Desk}

theorem Eligible.congr {y : Item} (h : Eligible s x) (hb : y.booking = x.booking)
    (ht : y.postingType = x.postingType)
    (hst : s'.audit.hotel.statuses x.booking = s.audit.hotel.statuses x.booking)
    (hr : x.booking ∈ s'.reconciled → x.booking ∈ s.reconciled) : Eligible s' y := by
  unfold Eligible at h ⊢
  rw [ht]
  cases hx : x.postingType with
  | noShow =>
    simp only [hx] at h ⊢
    rw [hb, hst]
    exact h
  | roomCharge =>
    simp only [hx] at h ⊢
    rw [hb, hst]
    exact ⟨h.1, fun hm => h.2 (hr hm)⟩

theorem mem_statuses {b : Booking} (hb : b ∈ h.bookings) : b.status ∈ h.statuses b.id :=
  mem_map.mpr ⟨b, mem_filter.mpr ⟨hb, by simp⟩, rfl⟩

/-- The build takes in guests in house and pending arrivals. -/
theorem eligible_built {run : ℕ} {date : ℤ} (hx : x ∈ buildCandidateSet s.audit.hotel run date)
    (hr : x.postingType = .noShow ∨ x.booking ∉ s.reconciled) : Eligible s x := by
  simp only [buildCandidateSet, mem_map] at hx
  obtain ⟨⟨y, n⟩, hy, rfl⟩ := hx
  have hmem := fst_mem_of_mem_zipIdx hy
  simp only [mem_append, mem_map] at hmem
  obtain ⟨b, hb, rfl⟩ | ⟨b, hb, rfl⟩ := hmem
  · have hread := mem_of_mem_take (mem_of_mem_filter hb)
    obtain ⟨hin, hst⟩ := mem_filter.mp hread
    have hchecked : b.status = .checkedIn := by simpa using hst
    refine ⟨hchecked ▸ mem_statuses hin, ?_⟩
    obtain ht | hr := hr
    · cases ht
    · exact hr
  · obtain ⟨hin, hdue⟩ := mem_filter.mp hb
    simp only [Booking.noShowDue, Bool.and_eq_true, Bool.or_eq_true, beq_iff_eq] at hdue
    obtain hst | hst := hdue.1
    · exact .inl (hst ▸ mem_statuses hin)
    · exact .inr (hst ▸ mem_statuses hin)

theorem statuses_markNoShow {id : ℕ} (hne : id ≠ booking) :
    (h.markNoShow booking).statuses id = h.statuses id := by
  simp only [Hotel.statuses, Hotel.markNoShow, filter_map, map_map]
  have hid : ((fun b : Booking => b.id == id) ∘ fun b : Booking =>
      if b.id = booking then { b with status := .noShow } else b) = fun b => b.id == id := by
    funext b
    simp only [Function.comp]
    split <;> rfl
  rw [hid]
  refine map_congr_left fun b hb => ?_
  have hbid : b.id = id := by simpa using (mem_filter.mp hb).2
  simp only [Function.comp, if_neg (hbid.trans_ne hne)]

theorem Posted.statuses {h' : Hotel} (hp : Posted h x h')
    (hb : x.postingType = .noShow → booking ≠ x.booking) :
    h'.statuses booking = h.statuses booking := by
  cases hp with
  | room => rfl
  | noShow ht => exact statuses_markNoShow (hb ht)
  | fee ht => exact statuses_markNoShow (h := h) (hb ht)

/-- What holds of every untouched item. -/
def AllEligible (s : Desk) : Prop := ∀ x ∈ s.untouched, Eligible s x

theorem AllEligible.advance {o : Outside} {t t' : Thread} (hs : AllEligible s)
    (h : s.advance o t = some (s', t')) : AllEligible s' := by
  obtain ⟨⟨a, u⟩, hadv, heq⟩ := Option.map_eq_some_iff.mp h
  cases heq
  intro x hx
  have hx : x ∈ s.untouchedAfter o t := hx
  cases hp : postedItem s.audit o t with
  | some y =>
    -- a posting: its own booking is no longer untouched when it is marked
    have hposted := advance_posted hadv hp
    have hafter : s.untouchedAfter o t = if y.postingType = .noShow then
        s.untouched.filter fun z => z.booking != y.booking else s.untouched := by
      unfold Desk.untouchedAfter
      cases t with
      | build => cases hp
      | _ => simp only [hp]
    rw [hafter] at hx
    split at hx
    · obtain ⟨hmem, hne⟩ := mem_filter.mp hx
      exact (hs x hmem).congr rfl rfl (hposted.statuses fun _ => by simpa using hne) id
    · rename_i hroom
      exact (hs x hx).congr rfl rfl (hposted.statuses fun ht => absurd ht hroom) id
  | none =>
    have hhotel := advance_hotel hadv hp
    have hsame {y : Item} (hy : Eligible s y) :
        Eligible { s with audit := a, untouched := s.untouchedAfter o t } y :=
      hy.congr rfl rfl (by simp only [hhotel]) id
    cases t with
    | build c run date =>
      obtain hold | hnew := mem_append.mp hx
      · exact hsame (hs x hold)
      · obtain ⟨hbuilt, hr⟩ := mem_filter.mp hnew
        exact hsame (eligible_built hbuilt (by simpa using hr))
    | _ =>
      simp only [Desk.untouchedAfter, hp] at hx
      exact hsame (hs x hx)

theorem AllEligible.env {a : DeskAct} (hs : AllEligible s) (h : s.env a = some s') :
    AllEligible s' := by
  cases a with
  | clock today n =>
    cases h
    exact hs
  | frontDesk hotel voided =>
    cases h
    intro x hx
    obtain ⟨hmem, hst⟩ := mem_filter.mp hx
    exact (hs x hmem).congr rfl rfl (eq_of_beq hst) fun hm => mem_of_mem_filter hm
  | reconcile b accommodation allowClosed =>
    simp only [Desk.env, Desk.reconcileUnpostedRoomCharge] at h
    split at h
    · cases h
      exact hs
    · split at h
      · cases h
        exact hs
      · split at h
        · cases h
          exact hs
        · split at h
          · split at h
            · cases h
            · cases h
              intro x hx
              obtain ⟨hmem, hne⟩ := mem_filter.mp hx
              have hbooking : x.booking ≠ b.id := by simpa using hne
              refine (hs x hmem).congr rfl rfl rfl fun hm => ?_
              exact (mem_cons.mp hm).resolve_left hbooking
          · cases h

theorem desk_preserves :
    desk.Preserves PostsUntouched AllEligible (fun _ _ _ => True) fun _ _ => True where
  symm _ _ _ := trivial
  init s h := by
    obtain ⟨-, -, -, -, hu⟩ := h
    intro x hx
    rw [hu] at hx
    cases hx
  env p e s' hi _ h := ⟨hi.store.env h, fun _ _ _ => trivial⟩
  call _ _ _ _ _ _ := ⟨trivial, fun _ _ => trivial⟩
  step p k m t s' t' hi _ _ h := by
    refine ⟨?_, trivial, fun _ _ _ _ => ⟨trivial, trivial⟩⟩
    cases m with
    | raise | crash =>
      cases h
      exact hi.store
    | advance o => exact hi.store.advance h

/-- In every run in which each item is posted while nobody has touched its booking since
the build, the audit posts for eligible bookings only. -/
theorem posts_eligible {p : Pool Desk Thread} {a : Act DeskAct Call Move}
    (h : desk.machine.Reach PostsUntouched p) (hc : PostsUntouched p a) :
    ∀ x ∈ posting p a, Eligible p.store x := by
  intro x hx
  obtain ⟨y, hy, hrow⟩ := hc x hx
  obtain ⟨-, -, hb, -, ht⟩ := Item.row_eq hrow
  exact ((desk_preserves.reach h).store y hy).congr hb.symm ht.symm rfl id

/-! ### Runs -/

def arrival (status : BookingStatus) : Booking where
  id := 3
  status := status
  checkIn := some ⟨10, none⟩
  checkOut := some ⟨11, none⟩

/-- A guest in house, and an arrival that has not come. -/
def lobby : Desk where
  audit := firstDay { inHouseHotel with bookings := [inHouse, arrival .confirmed] } 10 40

theorem lobby_init : desk.machine.init ⟨lobby, []⟩ := ⟨⟨rfl, rfl, rfl, rfl, rfl⟩, rfl⟩

def posted (p : Pool Desk Thread) (a : Act DeskAct Call Move) : Option (PostingType × Bool) :=
  (posting p a).map fun x => (x.postingType, decide (Eligible p.store x))

theorem posting_of_posted {p : Pool Desk Thread} {a : Act DeskAct Call Move} {type : PostingType}
    {ok : Bool} (h : posted p a = some (type, ok)) :
    ∃ x, posting p a = some x ∧ x.postingType = type ∧ decide (Eligible p.store x) = ok := by
  obtain ⟨x, hx, heq⟩ := Option.map_eq_some_iff.mp h
  obtain ⟨ht, hok⟩ := Prod.mk.inj heq
  exact ⟨x, hx, ht, hok⟩

/-- The day of an untouched hotel is posted for eligible bookings. -/
theorem posts_eligible_lobby : ∃ p x, desk.machine.Reach PostsUntouched p ∧
    posting p (.step 0 (.advance {})) = some x ∧ x.postingType = .roomCharge ∧
    Eligible p.store x := by
  obtain ⟨p, hp, hv⟩ := Machine.exists_reach_of_runUnder (C := PostsUntouched)
    (f := fun p : Pool Desk Thread => (decide (PostsUntouched p (.step 0 (.advance {}))),
      posted p (.step 0 (.advance {}))))
    (v := (true, some (.roomCharge, true)))
    (.call (.start { skipValidations := true }) :: List.replicate 7 (.step 0 (.advance {})))
    lobby_init (by decide +kernel)
  obtain ⟨hc, hobs⟩ := Prod.mk.inj hv
  obtain ⟨x, hx, ht, -⟩ := posting_of_posted hobs
  exact ⟨p, x, hp, hx, ht, posts_eligible hp (of_decide_eq_true hc) x hx⟩

/-- Between the build and the postings the guest checks out, with the room revenue completed,
and the arrival checks in: the night is charged once more, and the guest in the house is
marked as a no-show. -/
theorem posts_ineligible : ∃ p x y, desk.machine.Reachable p ∧
    posting p (.step 0 (.advance {})) = some x ∧ x.postingType = .roomCharge ∧
    ¬ Eligible p.store x ∧
    posting p (.step 0 (.advance { item := 1 })) = some y ∧ y.postingType = .noShow ∧
    ¬ Eligible p.store y := by
  obtain ⟨p, hp, hv⟩ := Machine.exists_reachable_of_run
    (f := fun p : Pool Desk Thread =>
      (posted p (.step 0 (.advance {})), posted p (.step 0 (.advance { item := 1 }))))
    (v := (some (.roomCharge, false), some (.noShow, false)))
    (List.flatten [[.call (.start { skipValidations := true })],
      List.replicate 7 (.step 0 (.advance {})),
      [.env (.reconcile inHouse 0 false),
       .env (.frontDesk { inHouseHotel with
         bookings := [{ inHouse with status := .checkedOut }, arrival .checkedIn]
         charges := [⟨1, 12, .roomCharge, 300, false⟩] } [])]])
    lobby_init (by decide +kernel)
  obtain ⟨hroom, hshow⟩ := Prod.mk.inj hv
  obtain ⟨x, hx, htx, hnx⟩ := posting_of_posted hroom
  obtain ⟨y, hy, hty, hny⟩ := posting_of_posted hshow
  exact ⟨p, x, y, hp, hx, htx, of_decide_eq_false hnx, hy, hty, of_decide_eq_false hny⟩

end SyrocePms.NightAudit
