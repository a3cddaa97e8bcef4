import Mathlib.Tactic.NormNum
import SyrocePms.Provider.PhaseA

/-! What a confirmed delivery stands for. A part is durable when the booking of its number is read
back, and the read-back follows the update of that booking from the delivery. -/

namespace SyrocePms.Provider

open Reservation Lib List Collection

variable {ω : Type*} {V : Services ω} {s : Pms ω} {r : HrReservation} {b c : Booking} {e : ℕ}
variable {env : HrEnv} {u : HrUpdate} {s' : Pms ω} {replayed : Bool} {result : PipelineResult}
  {turns : List (Turn ω)} {number uid : ℕ} {pull : Pull ω}

/-- The booking has the status, the dates and the guest total of the delivery. A difference of up
to a cent is none. -/
structure Reflects (u : HrUpdate) (b : Booking) : Prop where
  status : b.status = mappedStatus u.state
  arrival : ∀ d ∈ u.payload.arrival, b.checkIn.map Stamp.day = some d
  departure : ∀ d ∈ u.payload.departure, b.checkOut.map Stamp.day = some d
  total : ∀ t ∈ hotelrunnerGuestTotal u.payload, |t - b.totalAmount| ≤ 1 / 100

def hasHoldMark (b : Booking) : Bool :=
  b.bookingSource == .otaUnmatchedHold || b.sourceKindHold || b.isInventoryHold ||
    b.allocationSource == .otaUnmatchedHold

/-- The part is durable after its turn. Its booking is cancelled exactly when the part is a
cancellation, and has what was delivered unless the bookings are read-only, or the booking that
was found has this version or a newer one, is historical, or bears the mark of a hold. -/
def Durable (V : Services ω) (turn : Turn ω) : Prop :=
  ∃ e b s c, V.externalId turn.part.hrNumber = some e ∧ turn.after.findBooking e = some b ∧
    (b.status = .cancelled ↔ turn.part.isCancellation = true) ∧
    turn.found = some (s, c) ∧ s.findBooking e = some c ∧
    (V.reconciliationDisabled = false → appliesOperationally (V.env s) c (turn.part.update e) = true →
      hasHoldMark c = false → Reflects (turn.part.update e) b)

/-! ### The update -/

theorem syncedStamp_day (d : ℤ) (stored : Option Stamp) :
    (syncedStamp (some d) stored).map Stamp.day = some d := by
  unfold syncedStamp
  dsimp only
  split
  · assumption
  · rfl

theorem syncedTotal_near {t : ℚ} (h : appliesTotal env b u = true)
    (ht : hotelrunnerGuestTotal u.payload = some t) : |t - syncedTotal env u b| ≤ 1 / 100 := by
  simp only [syncedTotal, ht, h, Bool.true_and, decide_eq_true_eq]
  split
  · rw [sub_self, abs_zero]
    norm_num
  · rename_i hnear
    exact not_lt.mp hnear

/-- An update that is applied leaves the booking as it was delivered. -/
theorem reflects_syncedDocument (h : appliesOperationally env b u = true) :
    Reflects u (syncedDocument env u b) := by
  have happlies : updateIsStale b u = false ∧ reservationIsHistorical b env.businessDate = false := by
    simpa [appliesOperationally] using h
  have htotal : appliesTotal env b u = true := by
    simp [appliesTotal, happlies.1, happlies.2]
  refine ⟨?_, fun d hd => ?_, fun d hd => ?_, fun t ht => syncedTotal_near htotal ht⟩
  · rw [syncedDocument_status, if_pos h]
  · have hsynced : (syncedDocument env u b).checkIn = syncedStamp u.payload.arrival b.checkIn :=
      if_pos h
    rw [hsynced, hd, syncedStamp_day]
  · have hsynced : (syncedDocument env u b).checkOut = syncedStamp u.payload.departure b.checkOut :=
      if_pos h
    rw [hsynced, hd, syncedStamp_day]

/-- The fields that tell which booking it is, and whether it is a hold. -/
def identifies (b : Booking) : ℕ × Option ℕ × BookingSource × Bool :=
  (b.id, b.externalId, b.bookingSource, hasHoldMark b)

/-- What `Reflects` is about. -/
def content (b : Booking) : BookingStatus × Option Stamp × Option Stamp × ℚ :=
  (b.status, b.checkIn, b.checkOut, b.totalAmount)

theorem Reflects.of_content (h : Reflects u b) (hc : content c = content b) : Reflects u c := by
  simp only [content, Prod.mk.injEq] at hc
  obtain ⟨hstatus, hin, hout, htotal⟩ := hc
  exact ⟨hstatus ▸ h.status, hin ▸ h.arrival, hout ▸ h.departure, htotal ▸ h.total⟩

theorem identifies_syncedDocument (env : HrEnv) (u : HrUpdate) (b : Booking) :
    identifies (syncedDocument env u b) = identifies b := rfl

theorem providerBooking_of_identifies (h : identifies c = identifies b) :
    providerBooking e c = providerBooking e b := by
  simp only [identifies, Prod.mk.injEq] at h
  simp only [providerBooking, h.2.1, h.2.2.1]

theorem not_activeHold (h : hasHoldMark b = false) : activeHold e b = false := by
  simp only [hasHoldMark] at h
  simp only [activeHold, h, Bool.and_false, Bool.false_and]

theorem findBooking_syncFound (hen : V.reconciliationDisabled = false)
    (hc : s.findBooking e = some c)
    (happlies : appliesOperationally (V.env s) c (r.update e) = true) :
    (syncFound V s r e).findBooking e = some (syncedDocument (V.env s) (r.update e) c) := by
  have hstale : updateIsStale c (r.update e) = false := by
    by_contra hst
    rw [not_appliesOperationally_of_stale (Bool.eq_true_of_not_eq_false hst)] at happlies
    cases happlies
  have hfind : s.bookings.findOne (providerBooking e) = some c := hc
  have hexternal : (r.update e).externalId = e := rfl
  simp only [syncFound, hen, Bool.false_eq_true, if_false, Pms.findBooking, syncReservationUpdate,
    hexternal, hfind, hstale, Bool.false_and]
  rw [Collection.update, findOne_updateMany fun b =>
    providerBooking_of_identifies (identifies_syncedDocument _ _ b), hfind]
  simp

/-! ### The hold -/

/-- What is found first is found after a deletion of others. -/
theorem findOne_deleteMany {p q : Booking → Bool} {bookings : Bookings}
    (hb : bookings.findOne q = some b) (hp : p b = false) :
    (bookings.deleteMany p).findOne q = some b := by
  obtain ⟨hq, before, after, hrows, hbefore⟩ := find?_eq_some_iff_append.mp hb
  refine find?_eq_some_iff_append.mpr ⟨hq, before.filter fun x => !p x, after.filter fun x => !p x, ?_, ?_⟩
  · simp [Collection.deleteMany, hrows, filter_append, hp]
  · exact fun x hx => hbefore x (mem_filter.mp hx).1

/-- The booking that is found stays the one that is found, unless it is a hold. -/
theorem findBooking_deleteHold (hb : s.findBooking e = some b) (hmark : hasHoldMark b = false) :
    (deleteHold V s e).1.findBooking e = some b := by
  unfold deleteHold
  split
  · exact hb
  · rename_i hold hfound
    dsimp only
    split
    · refine findOne_deleteMany hb (decide_eq_false fun hid => ?_)
      obtain ⟨hmem, hactive⟩ := mem_of_findOne hfound
      have hsame : b = hold := eq_of_key (mem_of_findOne hb).1 hmem hid
      rw [← hsame, not_activeHold hmark] at hactive
      cases hactive
    · exact hb

/-- The assignment of a room keeps what the delivery has brought. -/
theorem findBooking_assign {preferred : Option ℕ} {o : Option Unit}
    (hs : assignPendingBooking V s c preferred = (s', o)) (hb : s.findBooking e = some b) :
    ∃ d, s'.findBooking e = some d ∧ content d = content b := by
  unfold assignPendingBooking at hs
  split at hs <;> cases hs
  · exact ⟨b, hb, rfl⟩
  · exact ⟨b, hb, rfl⟩
  · rw [Pms.findBooking] at hb ⊢
    rw [findOne_updateMany (f := assignRoom _) fun b => rfl, hb]
    refine ⟨_, rfl, ?_⟩
    dsimp only
    split <;> rfl

theorem findBooking_rebindHold {o : Option Bool} (hs : rebindHold V s c replayed e = (s', o))
    (hb : s.findBooking e = some b) (hmark : hasHoldMark b = false) :
    ∃ d, s'.findBooking e = some d ∧ content d = content b := by
  have hdelete := findBooking_deleteHold (V := V) hb hmark
  unfold rebindHold at hs
  split at hs <;> rename_i hhold <;> rw [hhold] at hdelete
  · cases hs
    exact ⟨b, hdelete, rfl⟩
  · cases hs
    exact ⟨b, hdelete, rfl⟩
  · split at hs
    · obtain ⟨rfl, -⟩ := Prod.mk.inj hs
      exact findBooking_assign rfl hdelete
    · cases hs
      exact ⟨b, hdelete, rfl⟩

/-! ### A turn -/

theorem readBack_durable (h : readBack s r e = .durable) :
    ∃ b, s.findBooking e = some b ∧ (b.status = .cancelled ↔ r.isCancellation = true) := by
  unfold readBack at h
  split at h
  · cases h
  · rename_i b hb
    refine ⟨b, hb, ?_⟩
    split at h <;> split at h <;> simp_all

theorem ensureFound_durable (hc : s.findBooking e = some c)
    (hs : ensureFound V s r c replayed e = (s', some .durable)) :
    ∃ b, s'.findBooking e = some b ∧ (b.status = .cancelled ↔ r.isCancellation = true) ∧
      (V.reconciliationDisabled = false → appliesOperationally (V.env s) c (r.update e) = true →
        hasHoldMark c = false → Reflects (r.update e) b) := by
  have hsynced (hen : V.reconciliationDisabled = false)
      (happlies : appliesOperationally (V.env s) c (r.update e) = true) :=
    findBooking_syncFound hen hc happlies
  unfold ensureFound at hs
  dsimp only at hs
  split at hs
  · obtain ⟨rfl, hback⟩ := Prod.mk.inj hs
    obtain ⟨b, hb, hst⟩ := readBack_durable (Option.some.inj hback)
    refine ⟨b, hb, hst, fun hen happlies _ => ?_⟩
    obtain rfl := Option.some.inj (hb.symm.trans (hsynced hen happlies))
    exact reflects_syncedDocument happlies
  · split at hs <;> rename_i hrebind
    · cases hs
    · cases hs
    · obtain ⟨rfl, hback⟩ := Prod.mk.inj hs
      obtain ⟨b, hb, hst⟩ := readBack_durable (Option.some.inj hback)
      refine ⟨b, hb, hst, fun hen happlies hmark => ?_⟩
      obtain ⟨d, hd, hcontent⟩ := findBooking_rebindHold hrebind (hsynced hen happlies) hmark
      obtain rfl := Option.some.inj (hb.symm.trans hd)
      exact (reflects_syncedDocument happlies).of_content hcontent

theorem locateBooking_found
    (h : locateBooking V s result e = (s', some (.inr (some (c, replayed))))) :
    s'.findBooking e = some c := by
  unfold locateBooking at h
  split at h
  · rename_i hb
    cases h
    exact hb
  · split at h
    · split at h
      · cases h
      · cases h
      · cases h
      · obtain ⟨rfl, hfound⟩ := Prod.mk.inj h
        obtain ⟨b, hb, hbc⟩ := Option.map_eq_some_iff.mp (Sum.inr.inj (Option.some.inj hfound))
        rw [hb, (Prod.mk.inj hbc).1]
    · cases h

theorem partOutcome_durable {d : Option Durability} (h : (partOutcome V s r d).number.isSome) :
    d = some .durable := by
  unfold partOutcome at h
  split at h
  · rfl
  · cases h
  · cases h
  · cases h

theorem importDurability_ne_durable : importDurability s e ≠ .durable := by
  unfold importDurability
  split <;> exact fun h => Durability.noConfusion h

theorem locateBooking_ne_durable : locateBooking V s result e ≠ (s', some (.inl .durable)) := by
  intro h
  unfold locateBooking at h
  split at h
  · cases h
  · split at h
    · split at h <;> cases h
    · cases h

theorem ensureDurable_durable (h : (ensureDurablePmsResult V s r result).2.1 = some .durable) :
    ∃ e c s₁ replayed, V.externalId r.hrNumber = some e ∧ s₁.findBooking e = some c ∧
      (ensureFound V s₁ r c replayed e).2 = some .durable ∧ ensureDurablePmsResult V s r result =
        ((ensureFound V s₁ r c replayed e).1, some .durable, some (s₁, c)) := by
  unfold ensureDurablePmsResult at h ⊢
  split at h
  · cases h
  · rename_i hpending
    rw [if_neg hpending]
    split at h
    · cases h
    · rename_i hfailed
      rw [if_neg hfailed]
      split at h
      · cases h
      · rename_i e he
        rw [he]
        unfold ensureLocated at h ⊢
        split at h
        · cases h
        · rename_i s₁ d hlocated
          obtain rfl := Option.some.inj h
          exact absurd hlocated locateBooking_ne_durable
        · exact absurd (Option.some.inj h) importDurability_ne_durable
        · rename_i s₁ c replayed hlocated
          have hdur : (ensureFound V s₁ r c replayed e).2 = some .durable := h
          exact ⟨e, c, s₁, replayed, rfl, locateBooking_found hlocated, hdur, by rw [← hdur]⟩

theorem durable_of_number (h : (processPart V s r).outcome.number.isSome) :
    Durable V (processPart V s r) := by
  unfold processPart at h ⊢
  split at h
  · cases h
  · rename_i s₁ result hpipe
    dsimp only at h ⊢
    obtain ⟨e, c, s₂, replayed, he, hc, hdur, heq⟩ := ensureDurable_durable (partOutcome_durable h)
    obtain ⟨b, hb, hst, hreflects⟩ := ensureFound_durable hc (Prod.ext rfl hdur)
    rw [heq]
    exact ⟨e, b, s₂, c, he, hb, hst, rfl, hc, hreflects⟩

/-! ### The pull -/

theorem mem_processParts {parts : List HrReservation} {part : HrReservation} (h : part ∈ parts) :
    ∃ s', processPart V s' part ∈ processParts V s parts := by
  induction parts generalizing s with
  | nil => cases h
  | cons r rs ih =>
    obtain rfl | h := mem_cons.mp h
    · exact ⟨s, mem_cons_self⟩
    · obtain ⟨s', hmem⟩ := ih (s := (processPart V s r).after) h
      exact ⟨s', mem_cons_of_mem _ hmem⟩

theorem processPart_part (s : Pms ω) (r : HrReservation) : (processPart V s r).part = r := by
  unfold processPart
  split <;> rfl

def Accounted (V : Services ω) (turns : List (Turn ω)) (uid : ℕ) (r : HrReservation) : Prop :=
  r.messageUid = some uid ∧
    ∀ part ∈ explodeMultiRoomReservation r, ∃ turn ∈ turns, turn.part = part ∧ Durable V turn

theorem Accounted.mono {turns' : List (Turn ω)} (h : Accounted V turns uid r)
    (hsub : ∀ turn ∈ turns, turn ∈ turns') : Accounted V turns' uid r := by
  refine ⟨h.1, fun part hpart => ?_⟩
  obtain ⟨turn, hturn, hdur⟩ := h.2 part hpart
  exact ⟨turn, hsub turn hturn, hdur⟩

theorem accounted_of_number (huid : r.messageUid = some uid)
    (hnumber : deliveryNumber (processParts V s (explodeMultiRoomReservation r)) = some number) :
    Accounted V (processParts V s (explodeMultiRoomReservation r)) uid r := by
  unfold deliveryNumber at hnumber
  split at hnumber
  · rename_i hall
    refine ⟨huid, fun part hpart => ?_⟩
    obtain ⟨s', hturn⟩ := mem_processParts (V := V) (s := s) hpart
    exact ⟨_, hturn, processPart_part s' part, durable_of_number (all_eq_true.mp hall _ hturn)⟩
  · cases hnumber

theorem mem_fireItems_pullOne (h : (uid, number) ∈ (pullOne pull r turns).fireItems) :
    (uid, number) ∈ pull.fireItems ∨
      r.messageUid = some uid ∧ deliveryNumber turns = some number := by
  unfold pullOne at h
  dsimp only at h
  split at h
  · rename_i uid' number' huid hnumber
    split at h
    · exact .inl h
    · obtain h | h := mem_append.mp h
      · exact .inl h
      · obtain ⟨rfl, rfl⟩ := Prod.mk.inj (mem_singleton.mp h)
        exact .inr ⟨huid, hnumber⟩
  · exact .inl h

theorem accounted_pullAll {done rs : List HrReservation}
    (h : ∀ item ∈ pull.fireItems, ∃ r ∈ done, Accounted V pull.turns item.1 r) :
    ∀ item ∈ (pullAll V s pull rs).2.fireItems,
      ∃ r ∈ done ++ rs, Accounted V (pullAll V s pull rs).2.turns item.1 r := by
  induction rs generalizing s pull done with
  | nil =>
    rw [append_nil]
    exact h
  | cons r rs ih =>
    rw [append_cons]
    refine ih fun item hitem => ?_
    obtain hitem | ⟨huid, hnumber⟩ := mem_fireItems_pullOne hitem
    · obtain ⟨r', hr', hacc⟩ := h item hitem
      exact ⟨r', mem_append_left _ hr', hacc.mono fun _ => mem_append_left _⟩
    · exact ⟨r, mem_append_right _ mem_cons_self,
        (accounted_of_number huid hnumber).mono fun _ => mem_append_right _⟩

/-- A delivery is confirmed only when a fetched reservation has its uid, and all the parts of that
reservation were durable at their turns. -/
theorem confirmed_when_durable {answers : List PageAnswer} {a : PhaseA ω}
    (h : runPhaseA V s answers = some (.ok a)) : ∀ c ∈ a.confirmations, ∃ r ∈ a.reservations,
      r.messageUid = some c.1 ∧ ∀ part ∈ explodeMultiRoomReservation r,
        ∃ turn ∈ a.turns, turn.part = part ∧ Durable V turn := by
  obtain ⟨fetched, -, hfetched⟩ := Option.map_eq_some_iff.mp h
  cases fetched with
  | error e => cases hfetched
  | ok reservations =>
    obtain rfl := Except.ok.inj hfetched
    intro c hc
    obtain ⟨item, hitem, rfl⟩ := mem_map.mp hc
    have hnone : ∀ item ∈ (({} : Pull ω)).fireItems, ∃ r ∈ ([] : List HrReservation),
        Accounted V (({} : Pull ω)).turns item.1 r := fun item hitem => absurd hitem not_mem_nil
    exact accounted_pullAll hnone item hitem

/-! ### A modification -/

/-- A system in which the event of the delivery was recorded before. -/
def sampleServices (reconciliationDisabled : Bool) : Services Unit where
  externalId text := if text = "R7" then some 7 else none
  env _ := ⟨fun _ => none, 5⟩
  reconciliationDisabled := reconciliationDisabled
  persistAndProcess s _ _ := (s, some ⟨.duplicate, true⟩)
  replayReviewedMappingImport s _ := (s, some .failed)
  releaseBookingNights rest _ := (rest, true)
  pickRoom s _ _ := (s.rest, some none)
  confirmDelivery _ _ := .success

def sampleBooking : Booking where
  id := 1
  externalId := some 7
  checkIn := some ⟨10, none⟩
  checkOut := some ⟨12, none⟩
  totalAmount := 100
  lastSynced := some 1

def samplePms : Pms Unit where
  bookings := ⟨[sampleBooking], nodup_singleton _⟩
  imports _ := none
  rest := ()

def sampleModification : HrReservation where
  hrNumber := "R7"
  messageUid := some 5
  total := some 100
  checkIn := some 20
  checkOut := some 22
  state := some .confirmed
  updatedAt := some 2

def confirmedArrivals (a : PhaseA Unit) : List (ℕ × ℕ) × List (Option ℤ) :=
  (a.confirmations.map fun c => (c.1, c.2.1), a.pms.bookings.rows.map fun b => b.checkIn.map Stamp.day)

theorem runPhaseA_sample (reconciliationDisabled : Bool) :
    runPhaseA (sampleServices reconciliationDisabled) samplePms [.page [sampleModification] 1] =
      some (.ok (processReservations (sampleServices reconciliationDisabled) samplePms
        [sampleModification])) := rfl

/-- With reconciliation the booking has the new dates when the delivery is confirmed. -/
theorem confirmed_when_durable_modified : ∃ a,
    runPhaseA (sampleServices false) samplePms [.page [sampleModification] 1] = some (.ok a) ∧
      confirmedArrivals a = ([(5, 1)], [some 20]) ∧
      ∀ c ∈ a.confirmations, ∃ r ∈ a.reservations, r.messageUid = some c.1 ∧
        ∀ part ∈ explodeMultiRoomReservation r,
          ∃ turn ∈ a.turns, turn.part = part ∧ Durable (sampleServices false) turn :=
  ⟨_, runPhaseA_sample false, by decide +kernel, confirmed_when_durable (runPhaseA_sample false)⟩

def Applied (V : Services ω) (s : Pms ω) (part : HrReservation) : Prop :=
  ∃ e b, V.externalId part.hrNumber = some e ∧ b ∈ s.bookings ∧ providerBooking e b = true ∧
    if part.isCancellation then b.status = .cancelled else Reflects (part.update e) b

/-- Where the bookings are read-only, the booking keeps its dates and the delivery is confirmed. -/
theorem readOnly_confirmed : ¬ ∀ (V : Services Unit) s answers a, runPhaseA V s answers = some (.ok a) →
    ∀ c ∈ a.confirmations, ∀ r ∈ a.reservations, r.messageUid = some c.1 →
      ∀ part ∈ explodeMultiRoomReservation r, Applied V a.pms part := by
  intro h
  have hrun := h _ _ _ _ (runPhaseA_sample true) (5, 1, .success) (by decide +kernel)
    sampleModification (by decide +kernel) rfl sampleModification (by decide +kernel)
  obtain ⟨e, b, -, hb, -, hreflects⟩ := hrun
  have hrows : b ∈ [sampleBooking] := hb
  rw [mem_singleton.mp hrows] at hreflects
  have harrival := hreflects.arrival 20 rfl
  exact absurd harrival (by decide)

end SyrocePms.Provider
