import SyrocePms.NightAudit.Calls

/-! The items of a run against the bookings that still have to be charged. A booking that
is owing has an open room item in the run, and what the calls do to the items and the
hotel keeps it so. -/

namespace SyrocePms.NightAudit

open Reservation Lib List

variable {h h' : Hotel} {businessDate : ℤ} {booking id run : ℕ} {x y : Item} {cut own : Option ℕ}
  {s s' : Store} {f : Item → Item}

namespace Hotel

def owing (h : Hotel) (businessDate : ℤ) : List ℕ :=
  (h.bookings.filter fun b => h.chargeable businessDate b && !h.charged businessDate b.id).map Booking.id

def FullyCharged (h : Hotel) (businessDate : ℤ) : Prop :=
  ∀ b ∈ h.bookings, h.chargeable businessDate b = true → h.charged businessDate b.id = true

theorem mem_owing :
    id ∈ h.owing businessDate ↔ ∃ b ∈ h.bookings, h.chargeable businessDate b = true ∧
      h.charged businessDate b.id = false ∧ b.id = id := by
  simp [owing, and_assoc]

theorem not_charged_of_owing (hid : id ∈ h.owing businessDate) :
    h.charged businessDate id = false := by
  rw [mem_owing] at hid
  obtain ⟨b, -, -, hc, rfl⟩ := hid
  exact hc

theorem fullyCharged_of_owing (ho : h.owing businessDate = []) : h.FullyCharged businessDate := by
  intro b hb hch
  by_contra hc
  have hmem : b.id ∈ h.owing businessDate := by
    rw [mem_owing]
    exact ⟨b, hb, hch, by simpa using hc, rfl⟩
  rw [ho] at hmem
  cases hmem

theorem not_fullyCharged (hid : id ∈ h.owing businessDate) : ¬ h.FullyCharged businessDate := by
  rw [mem_owing] at hid
  obtain ⟨b, hb, hch, hc, -⟩ := hid
  intro hfull
  rw [hfull b hb hch] at hc
  cases hc

theorem owing_post {c : Charge} (hid : id ∈ (h.post c).owing businessDate) :
    id ∈ h.owing businessDate := by
  rw [mem_owing] at hid ⊢
  obtain ⟨b, hb, hch, hc, rfl⟩ := hid
  refine ⟨b, hb, hch, ?_, rfl⟩
  by_contra hcharged
  rw [charged_post (by simpa using hcharged)] at hc
  cases hc

theorem owing_markNoShow (hid : id ∈ (h.markNoShow booking).owing businessDate) :
    id ∈ h.owing businessDate := by
  rw [mem_owing] at hid ⊢
  obtain ⟨b, hb, hch, hc, rfl⟩ := hid
  rw [chargeable_markNoShow] at hch
  exact ⟨b, mem_of_mem_markNoShow hb hch, hch, hc, rfl⟩

end Hotel

/-- What a transaction writes charges nobody less. -/
theorem Posted.owing (hp : Posted h x h') (hid : id ∈ h'.owing businessDate) :
    id ∈ h.owing businessDate := by
  cases hp with
  | room => exact Hotel.owing_post hid
  | noShow => exact Hotel.owing_markNoShow hid
  | fee => exact Hotel.owing_markNoShow (Hotel.owing_post hid)

theorem Posted.charged (hp : Posted h x h') (ht : x.postingType = .roomCharge) :
    h'.charged x.postingDate x.booking = true := by
  cases hp with
  | room => exact Hotel.charged_post_self (by simp [Item.charge, ht]) rfl
  | noShow h' | fee h' =>
    rw [ht] at h'
    cases h'

/-! ### Items -/

namespace Item

def row (x : Item) : ℕ × ℕ × ℕ × ℤ × PostingType :=
  (x.run, x.index, x.booking, x.postingDate, x.postingType)

/-- The item stands for the room charge of the booking, and is not settled. -/
def owes (x : Item) (run : ℕ) (businessDate : ℤ) (booking : ℕ) : Bool :=
  x.run == run && x.booking == booking && x.postingDate == businessDate &&
    x.postingType == .roomCharge && x.isOpen

theorem owes_iff : x.owes run businessDate booking = true ↔ x.run = run ∧ x.booking = booking ∧
      x.postingDate = businessDate ∧ x.postingType = .roomCharge ∧ x.isOpen = true := by
  simp [owes, and_assoc]

theorem row_eq (h : x.row = y.row) : x.run = y.run ∧ x.index = y.index ∧
    x.booking = y.booking ∧ x.postingDate = y.postingDate ∧ x.postingType = y.postingType := by
  simpa [row] using h

theorem owes_of_row (h : y.row = x.row) (ho : y.isOpen = true)
    (hx : x.owes run businessDate booking = true) : y.owes run businessDate booking = true := by
  obtain ⟨hrun, -, hbooking, hdate, htype⟩ := row_eq h
  obtain ⟨rfl, rfl, rfl, hroom, -⟩ := owes_iff.mp hx
  exact owes_iff.mpr ⟨hrun, hbooking, hdate, htype.trans hroom, ho⟩

theorem same_iff : x.same y = true ↔ x.run = y.run ∧ x.index = y.index := by
  simp [same]

end Item

def Covers (items : List Item) (run : ℕ) (businessDate : ℤ) (owing : List ℕ) : Prop :=
  ∀ id ∈ owing, ∃ x ∈ items, x.owes run businessDate id = true

instance (items : List Item) (run : ℕ) (businessDate : ℤ) (owing : List ℕ) :
    Decidable (Covers items run businessDate owing) := by
  unfold Covers
  infer_instance

def Rows (items : List Item) : Prop := ∀ x ∈ items, ∀ y ∈ items, x.same y = true → x.row = y.row

/-! ### The candidate set -/

theorem mem_buildCandidateSet (hx : x ∈ buildCandidateSet h run businessDate) : x.run = run := by
  simp only [buildCandidateSet, mem_map] at hx
  obtain ⟨⟨y, n⟩, hy, rfl⟩ := hx
  have hmem := fst_mem_of_mem_zipIdx hy
  simp only [mem_append, mem_map] at hmem
  obtain ⟨b, -, rfl⟩ | ⟨b, -, rfl⟩ := hmem <;> rfl

theorem rows_buildCandidateSet (h : Hotel) (run : ℕ) (businessDate : ℤ) :
    Rows (buildCandidateSet h run businessDate) := by
  intro x hx y hy hxy
  simp only [buildCandidateSet, mem_map] at hx hy
  obtain ⟨⟨x, n⟩, hx, rfl⟩ := hx
  obtain ⟨⟨y, m⟩, hy, rfl⟩ := hy
  obtain ⟨-, hnm⟩ := Item.same_iff.mp hxy
  have hx' := mk_mem_zipIdx_iff_getElem?.mp hx
  have hy' := mk_mem_zipIdx_iff_getElem?.mp hy
  simp only at hnm
  rw [hnm, hy'] at hx'
  cases hx'
  rw [hnm]

/-- The bookings that owe the night are read, and have no voided charge. -/
def Billable (h : Hotel) (businessDate : ℤ) : Prop :=
  ∀ b ∈ h.bookings, h.chargeable businessDate b = true → h.charged businessDate b.id = false →
    b ∈ checkedInRead h ∧ h.alreadyPosted businessDate b.id = false

instance (h : Hotel) (businessDate : ℤ) : Decidable (Billable h businessDate) := by
  unfold Billable
  infer_instance

theorem skipReason_none {b : Booking} (hch : h.chargeable businessDate b = true)
    (hp : h.alreadyPosted businessDate b.id = false) : skipReason h businessDate b = none := by
  simp only [Hotel.chargeable, Bool.and_eq_true, Bool.not_eq_true', decide_eq_true_eq] at hch
  obtain ⟨⟨⟨-, hcomp⟩, hrate⟩, hfolio⟩ := hch
  have hrate' : ¬ (h.priceOf businessDate b).amount ≤ 0 := by omega
  have hfolio' : (h.folioOf b).isNone = false := by simpa using hfolio
  simp [skipReason, hcomp, hrate', hfolio', hp]

theorem buildCandidateSet_covers (hb : Billable h businessDate) (run : ℕ) :
    Covers (buildCandidateSet h run businessDate) run businessDate
      (h.owing businessDate) := by
  intro id hid
  obtain ⟨b, hmem, hch, hc, rfl⟩ := Hotel.mem_owing.mp hid
  obtain ⟨hread, hp⟩ := hb b hmem hch hc
  have hactive : b.activeOn businessDate = true := by
    simp only [Hotel.chargeable, Bool.and_eq_true] at hch
    exact hch.1.1.1.2
  have hroom : roomItem h run businessDate b ∈
      ((checkedInRead h).filter fun b => b.activeOn businessDate).map (roomItem h run businessDate) :=
    mem_map_of_mem (mem_filter.mpr ⟨hread, hactive⟩)
  obtain ⟨n, hn⟩ := mem_iff_getElem?.mp (mem_append_left
    ((h.bookings.filter fun b => b.noShowDue businessDate).map (noShowItem run businessDate)) hroom)
  refine ⟨{ roomItem h run businessDate b with index := n }, ?_, ?_⟩
  · exact mem_map.mpr ⟨(_, n), mk_mem_zipIdx_iff_getElem?.mpr hn, rfl⟩
  · have hskip := skipReason_none hch hp
    simp [Item.owes_iff, Item.isOpen, roomItem, hskip]

/-! ### What the calls keep -/

/-- What an operation keeps for the other calls: only the run `own` gets items, and an
open item stays open or its booking is charged, but for the items of the run `cut`. -/
structure Keeps (own cut : Option ℕ) (s s' : Store) : Prop where
  nextId : s.nextId ≤ s'.nextId
  owing : ∀ date, ∀ id ∈ s'.hotel.owing date, id ∈ s.hotel.owing date
  rows : ∀ x ∈ s.items, ∃ y ∈ s'.items, y.row = x.row
  added : ∀ y ∈ s'.items, own = some y.run ∨ ∃ x ∈ s.items, x.row = y.row
  isOpen : ∀ x ∈ s.items, x.isOpen = true → cut ≠ some x.run →
    (∃ y ∈ s'.items, y.row = x.row ∧ y.isOpen = true) ∨
      (x.postingType = .roomCharge → s'.hotel.charged x.postingDate x.booking = true)

theorem Keeps.of_eq (hn : s.nextId ≤ s'.nextId) (hh : s'.hotel = s.hotel) (hi : s'.items = s.items) :
    Keeps own cut s s' where
  nextId := hn
  owing _ _ hid := hh ▸ hid
  rows x hx := ⟨x, hi ▸ hx, rfl⟩
  added y hy := .inr ⟨y, hi ▸ hy, rfl⟩
  isOpen x hx ho _ := .inl ⟨x, hi ▸ hx, rfl, ho⟩

theorem Keeps.refl (own cut : Option ℕ) (s : Store) : Keeps own cut s s :=
  .of_eq (Nat.le_refl _) rfl rfl

theorem Keeps.map (hn : s'.nextId = s.nextId)
    (ho : ∀ date, ∀ id ∈ s'.hotel.owing date, id ∈ s.hotel.owing date)
    (hi : s'.items = s.items.map f) (hf : ∀ x, (f x).row = x.row)
    (hopen : ∀ x ∈ s.items, x.isOpen = true → cut ≠ some x.run → (f x).isOpen = true ∨
      (x.postingType = .roomCharge → s'.hotel.charged x.postingDate x.booking = true)) :
    Keeps own cut s s' where
  nextId := by omega
  owing := ho
  rows x hx := ⟨f x, hi ▸ mem_map_of_mem hx, hf x⟩
  added y hy := by
    rw [hi] at hy
    obtain ⟨x, hx, rfl⟩ := mem_map.mp hy
    exact .inr ⟨x, hx, (hf x).symm⟩
  isOpen x hx hop hcut := (hopen x hx hop hcut).imp_left fun h =>
    ⟨f x, hi ▸ mem_map_of_mem hx, hf x, h⟩

/-- An open item for a booking that owes the night stays. -/
theorem Covers.keeps {date : ℤ} (h : Covers s.items run date (s.hotel.owing date))
    (hk : Keeps own cut s s') (hcut : cut ≠ some run) :
    Covers s'.items run date (s'.hotel.owing date) := by
  intro id hid
  obtain ⟨x, hx, howes⟩ := h id (hk.owing date id hid)
  obtain ⟨hrun, hbooking, hdate, hroom, hop⟩ := Item.owes_iff.mp howes
  obtain ⟨y, hy, hrow, hyo⟩ | hc := hk.isOpen x hx hop (hrun ▸ hcut)
  · exact ⟨y, hy, Item.owes_of_row hrow hyo howes⟩
  · have hno := Hotel.not_charged_of_owing hid
    rw [← hdate, ← hbooking, hc hroom] at hno
    cases hno

theorem Rows.map {items : List Item} (h : Rows items) (hf : ∀ x, (f x).row = x.row) :
    Rows (items.map f) := by
  intro x' hx' y' hy' hxy
  obtain ⟨x, hx, rfl⟩ := mem_map.mp hx'
  obtain ⟨y, hy, rfl⟩ := mem_map.mp hy'
  obtain ⟨hxrun, hxindex, -⟩ := Item.row_eq (hf x)
  obtain ⟨hyrun, hyindex, -⟩ := Item.row_eq (hf y)
  rw [Item.same_iff, hxrun, hxindex, hyrun, hyindex, ← Item.same_iff] at hxy
  rw [hf, hf]
  exact h x hx y hy hxy

/-! ### Writes to the items -/

theorem setItem_items (s : Store) (x : Item) (status : ItemStatus) (reason : Option ItemReason) :
    (s.setItem x status reason).items = s.items.map fun y =>
      if y.same x then { y with status := status, reason := reason } else y := rfl

theorem row_ite {status : ItemStatus} {reason : Option ItemReason} :
    (if y.same x then { y with status := status, reason := reason } else y).row = y.row := by
  split <;> rfl

theorem row_of_same (hr : Rows s.items) (hx : ∃ z ∈ s.items, z.row = x.row) (hy : y ∈ s.items)
    (hxy : y.same x = true) : y.row = x.row := by
  obtain ⟨z, hz, hrow⟩ := hx
  obtain ⟨hrun, hindex, -⟩ := Item.row_eq hrow
  rw [← hrow]
  refine hr y hy z hz ?_
  rw [Item.same_iff] at hxy ⊢
  exact ⟨hxy.1.trans hrun.symm, hxy.2.trans hindex.symm⟩

theorem Rows.outcome (hr : Rows s.items) (h : Outcome s x s') : Rows s'.items := by
  cases h with
  | untouched => exact hr
  | failed | duplicate ht hd => exact hr.map fun _ => row_ite
  | posted h' hp => exact Rows.map (show Rows s.items from hr) fun _ => row_ite
  | unanswered h' hp =>
    exact (Rows.map (show Rows s.items from hr) fun _ => row_ite).map fun _ => row_ite

theorem Outcome.keeps (h : Outcome s x s') (hr : Rows s.items) (hx : ∃ z ∈ s.items, z.row = x.row) :
    Keeps none none s s' := by
  -- the charge of `x` is the charge of every item in its row
  have hcharged (hotel : Hotel) (hc : x.postingType = .roomCharge →
      hotel.charged x.postingDate x.booking = true) (y : Item) (hy : y ∈ s.items)
      (hyx : y.same x = true) (hroom : y.postingType = .roomCharge) :
      hotel.charged y.postingDate y.booking = true := by
    obtain ⟨-, -, hbooking, hdate, htype⟩ := Item.row_eq (row_of_same hr hx hy hyx)
    rw [hbooking, hdate]
    exact hc (htype ▸ hroom)
  cases h with
  | untouched => exact .refl _ _ s
  | failed =>
    refine .map rfl (fun _ _ h => h) (setItem_items ..) (fun _ => row_ite) fun y _ ho _ => .inl ?_
    split
    · rfl
    · exact ho
  | duplicate ht hd =>
    refine .map rfl (fun _ _ h => h) (setItem_items ..) (fun _ => row_ite) fun y hy ho _ => ?_
    split
    · rename_i hyx
      refine .inr (hcharged s.hotel (fun _ => ?_) y hy hyx)
      have hc := Hotel.charged_of_duplicate (by simp [Item.charge, ht]) hd
      exact hc
    · exact .inl ho
  | posted h' hp =>
    refine .map rfl (fun _ _ hid => hp.owing hid) (setItem_items ..) (fun _ => row_ite)
      fun y hy ho _ => ?_
    split
    · rename_i hyx
      exact .inr (hcharged h' hp.charged y hy hyx)
    · exact .inl ho
  | unanswered h' hp =>
    refine .map (f := fun y =>
      if y.same x then { y with status := .failed, reason := none } else y) rfl
      (fun _ _ hid => hp.owing hid) ?_ (fun _ => row_ite) fun y _ ho _ => .inl ?_
    · rw [setItem_items, setItem_items, map_map]
      refine map_congr_left fun y _ => ?_
      by_cases hyx : y.same x = true
      · simp [Function.comp, hyx, show Item.same { y with status := .posted, reason := x.reason } x
          = true from hyx]
      · simp [Function.comp, hyx]
    · split
      · rfl
      · exact ho

theorem resetFailed_keeps (s : Store) (run : ℕ) : Keeps none none s (s.resetFailed run) := by
  refine .map rfl (fun _ _ h => h) rfl (fun x => ?_) fun x _ ho _ => .inl ?_
  · split <;> rfl
  · split
    · rfl
    · exact ho

theorem cancelPending_keeps (s : Store) (run : ℕ) :
    Keeps none (some run) s (s.cancelPending run) := by
  refine .map rfl (fun _ _ h => h) rfl (fun x => ?_) fun x _ ho hcut => .inl ?_
  · split <;> rfl
  · rw [if_neg fun h => hcut (by rw [h.1])]
    exact ho

end SyrocePms.NightAudit
