import Mathlib.Algebra.Order.BigOperators.Group.List
import SyrocePms.AgencyCredit.Exposure

/-! What a passed check says of the exposure after the sale. The check reads rows, statements
and payments one after the other; while the bookings stay and money only comes in, what it has
computed is an upper bound of what is open later. -/

namespace SyrocePms.AgencyCredit

open Lib List

variable {b b' : Books} {scope : Scope} {currency i : ℕ} {e e' e'' : Evidence}
variable {ids : List ℕ} {r : Booking} {rows : List Booking} {d : ℤ}

/-! ### Statements that do not mention a booking -/

theorem sum_map_filter {α : Type*} {f : α → ℤ} {p : α → Bool} {l : List α}
    (h : ∀ x ∈ l, p x = false → f x = 0) : ((l.filter p).map f).sum = (l.map f).sum := by
  induction l with
  | nil => rfl
  | cons x l ih =>
    have ih := ih fun y hy => h y (mem_cons_of_mem _ hy)
    cases hp : p x with
    | true => rw [filter_cons_of_pos hp, map_cons, map_cons, sum_cons, sum_cons, ih]
    | false =>
      rw [filter_cons_of_neg (by simp [hp]), ih, map_cons, sum_cons,
        h x mem_cons_self hp, zero_add]

theorem sum_map_eq_zero {α : Type*} {f : α → ℤ} {l : List α} (h : ∀ x ∈ l, f x = 0) :
    (l.map f).sum = 0 := by
  induction l with
  | nil => rfl
  | cons x l ih =>
    rw [map_cons, sum_cons, h x mem_cons_self, ih fun y hy => h y (mem_cons_of_mem _ hy)]
    rfl

namespace Statement

variable {st : Statement}

theorem clear_eq_zero {lines : List CreditLine} (credit : ℤ) (h : ∀ l ∈ lines, l.booking ≠ some i) :
    clear i credit lines = 0 := by
  induction lines generalizing credit with
  | nil => rfl
  | cons l lines ih =>
    have ih (credit : ℤ) := ih credit fun x hx => h x (mem_cons_of_mem _ hx)
    have hl := h l mem_cons_self
    simp only [clear]
    split
    · exact ih _
    · rw [zero_add]
      exact ih _

theorem not_booking_of_not_mentions (h : st.mentions i = false) : ∀ l ∈ st.creditLines, l.booking ≠ some i := by
  intro l hl
  obtain ⟨x, hx, rfl⟩ := mem_map.mp hl
  simpa using any_eq_false.mp h x hx

theorem settled_eq_zero (h : st.mentions i = false) : st.settled i = 0 :=
  clear_eq_zero _ (not_booking_of_not_mentions h)

theorem adjusted_eq_zero (h : st.mentions i = false) : st.adjusted i = 0 :=
  sum_map_eq_zero fun l hl => if_neg (not_booking_of_not_mentions h l hl)

theorem owed_eq_zero (h : st.mentions i = false) : st.owed i = 0 :=
  sum_map_eq_zero fun l hl => if_neg (not_booking_of_not_mentions h l hl)

end Statement

/-! ### Evidence -/

/-- `e'` has the charges of `e` for a booking, and at least its payments. -/
structure Evidence.LeAt (e e' : Evidence) (i : ℕ) : Prop where
  adjusted : e'.adjusted i = e.adjusted i
  owed : e'.owed i = e.owed i
  settled : e.settled i ≤ e'.settled i
  collected : e.collected i ≤ e'.collected i

theorem Evidence.LeAt.refl (e : Evidence) (i : ℕ) : e.LeAt e i := ⟨rfl, rfl, le_rfl, le_rfl⟩

theorem Evidence.LeAt.trans (h : e.LeAt e' i) (h' : e'.LeAt e'' i) : e.LeAt e'' i :=
  ⟨h'.adjusted.trans h.adjusted, h'.owed.trans h.owed, h.settled.trans h'.settled,
    h.collected.trans h'.collected⟩

theorem Evidence.LeAt.paid (h : e.LeAt e' i) : e.paid i ≤ e'.paid i := max_le_max h.settled h.collected

/-- All that statements and payments say of the bookings of an agency. -/
def Books.evidenceOf (b : Books) (scope : Scope) : Evidence :=
  evidence (b.statementsOf scope) (b.payments.filter fun p => p.tenant = scope.tenant)

/-- The statements of some bookings say of each what all statements say. -/
theorem statementsFor_le (b : Books) (scope : Scope) (hi : i ∈ ids) :
    (evidence (b.statementsFor scope ids) []).LeAt (evidence (b.statementsOf scope) []) i := by
  have hnot (st : Statement) (h : ids.any st.mentions = false) : st.mentions i = false := by
    simpa using any_eq_false.mp h i hi
  refine ⟨?_, ?_, le_of_eq ?_, le_rfl⟩
  · exact (sum_map_filter fun st _ h => Statement.adjusted_eq_zero (hnot st h)).symm
  · exact (sum_map_filter fun st _ h => Statement.owed_eq_zero (hnot st h)).symm
  · exact sum_map_filter fun st _ h => Statement.settled_eq_zero (hnot st h)

theorem statementsFor_ge (b : Books) (scope : Scope) (hi : i ∈ ids) :
    (evidence (b.statementsOf scope) []).LeAt (evidence (b.statementsFor scope ids) []) i := by
  have hnot (st : Statement) (h : ids.any st.mentions = false) : st.mentions i = false := by
    simpa using any_eq_false.mp h i hi
  refine ⟨?_, ?_, le_of_eq ?_, le_rfl⟩
  · exact sum_map_filter fun st _ h => Statement.adjusted_eq_zero (hnot st h)
  · exact sum_map_filter fun st _ h => Statement.owed_eq_zero (hnot st h)
  · exact (sum_map_filter fun st _ h => Statement.settled_eq_zero (hnot st h)).symm

theorem paymentsFor_collected (b : Books) (scope : Scope) (hi : i ∈ ids) :
    (b.paymentsFor scope ids).filter (fun p => p.booking = some i) =
      (b.payments.filter fun p => p.tenant = scope.tenant).filter fun p => p.booking = some i := by
  simp only [Books.paymentsFor, filter_filter]
  refine filter_congr fun p _ => ?_
  by_cases h : p.booking = some i
  · simp [h, hi]
  · simp [h]

theorem evidence_le {sts sts' : List Statement} {pays pays' : List Payment}
    (hs : (evidence sts []).LeAt (evidence sts' []) i)
    (hp : (evidence [] pays).collected i ≤ (evidence [] pays').collected i) :
    (evidence sts pays).LeAt (evidence sts' pays') i := ⟨hs.adjusted, hs.owed, hs.settled, hp⟩

theorem evidenceFor_le (b : Books) (scope : Scope) (hi : i ∈ ids) :
    (evidence (b.statementsFor scope ids) (b.paymentsFor scope ids)).LeAt (b.evidenceOf scope) i :=
  evidence_le (statementsFor_le b scope hi)
    (le_of_eq (congrArg collectedAmount (paymentsFor_collected b scope hi)))

theorem evidenceFor_ge (b : Books) (scope : Scope) (hi : i ∈ ids) :
    (b.evidenceOf scope).LeAt (evidence (b.statementsFor scope ids) (b.paymentsFor scope ids)) i :=
  evidence_le (statementsFor_ge b scope hi)
    (le_of_eq (congrArg collectedAmount (paymentsFor_collected b scope hi).symm))

/-! ### The debt -/

/-- What a booking still owes, zero where that raises. -/
def Booking.rest (r : Booking) (currency : ℕ) (e : Evidence) : ℤ :=
  ((r.remaining currency e).toOption).getD 0

theorem rest_of_ok {x : ℤ} (h : r.remaining currency e = .ok x) : r.rest currency e = x := by
  simp [Booking.rest, h, Except.toOption]

theorem foldlM_remaining {d₀ : ℤ} :
    rows.foldlM (fun debt r => (r.remaining currency e).map (debt + ·)) d₀ = .ok d ↔
      (∀ r ∈ rows, ∃ x, r.remaining currency e = .ok x) ∧
        d = d₀ + (rows.map fun r => r.rest currency e).sum := by
  induction rows generalizing d₀ with
  | nil =>
    simp only [foldlM_nil, not_mem_nil, map_nil, sum_nil, add_zero]
    constructor
    · intro h
      cases h
      exact ⟨fun r hr => hr.elim, rfl⟩
    · rintro ⟨-, rfl⟩
      rfl
  | cons r rows ih =>
    rw [foldlM_cons, map_cons, sum_cons]
    cases hr : r.remaining currency e with
    | error err =>
      constructor
      · intro h
        cases h
      · rintro ⟨h, -⟩
        obtain ⟨x, hx⟩ := h r mem_cons_self
        rw [hr] at hx
        cases hx
    | ok x =>
      refine ih.trans ?_
      rw [rest_of_ok hr, add_assoc]
      refine and_congr_left fun _ => ⟨fun h y hy => ?_, fun h y hy => h y (mem_cons_of_mem _ hy)⟩
      obtain rfl | hy := mem_cons.mp hy
      · exact ⟨x, hr⟩
      · exact h y hy

theorem openDebt_eq_ok : openDebt currency e rows = .ok d ↔
    (∀ r ∈ rows, ∃ x, r.remaining currency e = .ok x) ∧ d = (rows.map fun r => r.rest currency e).sum := by
  rw [openDebt, foldlM_remaining, zero_add]

theorem owes_eq (h : e.LeAt e' r.id) : r.owes currency e' = r.owes currency e := by
  simp only [Booking.owes, h.adjusted, h.owed]

/-- More payments leave less open. -/
theorem remaining_of_le {x : ℤ} (h : e.LeAt e' r.id) (hx : r.remaining currency e = .ok x) :
    ∃ y, r.remaining currency e' = .ok y ∧ y ≤ x := by
  simp only [Booking.remaining, owes_eq h] at hx ⊢
  cases ho : r.owes currency e with
  | error err =>
    rw [ho] at hx
    cases hx
  | ok owed =>
    rw [ho] at hx
    cases hx
    refine ⟨max 0 (owed - e'.paid r.id), rfl, ?_⟩
    exact max_le_max le_rfl (Int.sub_le_sub_left h.paid owed)

theorem openDebt_of_le (h : ∀ r ∈ rows, e.LeAt e' r.id) (hd : openDebt currency e rows = .ok d) :
    (∀ r ∈ rows, ∃ x, r.remaining currency e' = .ok x) ∧ (rows.map fun r => r.rest currency e').sum ≤ d := by
  obtain ⟨hok, rfl⟩ := openDebt_eq_ok.mp hd
  refine ⟨fun r hr => ?_, sum_le_sum fun r hr => ?_⟩
  · obtain ⟨x, hx⟩ := hok r hr
    obtain ⟨y, hy, -⟩ := remaining_of_le (h r hr) hx
    exact ⟨y, hy⟩
  · obtain ⟨x, hx⟩ := hok r hr
    obtain ⟨y, hy, hle⟩ := remaining_of_le (h r hr) hx
    rw [rest_of_ok hx, rest_of_ok hy]
    exact hle

theorem remaining_eq (h : e.LeAt e' r.id) (h' : e'.LeAt e r.id) :
    r.remaining currency e' = r.remaining currency e := by
  have hpaid : e'.paid r.id = e.paid r.id := le_antisymm h'.paid h.paid
  rw [Booking.remaining, Booking.remaining, owes_eq h, hpaid]

/-- The exposure is what the bookings owe after all statements and payments. -/
theorem exposure_eq_ok : b.exposure scope currency = .ok d ↔
    (∀ r ∈ b.openRows scope (b.debtors scope) none, ∃ x, r.remaining currency (b.evidenceOf scope) = .ok x) ∧
      d = ((b.openRows scope (b.debtors scope) none).map fun r => r.rest currency (b.evidenceOf scope)).sum := by
  have heq (r : Booking) (hr : r ∈ b.openRows scope (b.debtors scope) none) :
      r.remaining currency _ = r.remaining currency _ :=
    have hi := mem_map_of_mem (f := Booking.id) hr
    remaining_eq (evidenceFor_ge b scope hi) (evidenceFor_le b scope hi)
  rw [Books.exposure, openDebt_eq_ok]
  refine and_congr ⟨fun h r hr => heq r hr ▸ h r hr, fun h r hr => (heq r hr).symm ▸ h r hr⟩ ?_
  rw [map_congr_left fun r hr => by rw [Booking.rest, heq r hr, ← Booking.rest]]

/-! ### The store of a sale -/

variable {x : Sale} {t : Terms} {newId : ℕ}

/-- The check of the sale has passed on what is still an upper bound. -/
def Admits (b : Books) (scope : Scope) (x : Sale) (t : Terms) : Prop :=
  ∃ e : Evidence, (∀ i ∈ x.ids (b.openRows scope (b.debtors scope) x.modifies), e.LeAt (b.evidenceOf scope) i) ∧
    x.capacity t (b.openRows scope (b.debtors scope) x.modifies) e = .ok ()

theorem money_eq_ok {y z : ℤ} (h : money y = .ok z) : z = y ∧ 0 ≤ y := by
  unfold money at h
  split at h
  · cases h
  · rename_i hneg
    cases h
    exact ⟨rfl, not_lt.mp hneg⟩

theorem parse_eq_ok {c : CurrencyText} (h : c.parse = .ok currency) : c = .code currency := by
  cases c with
  | code n =>
    cases h
    rfl
  | missing => cases h
  | invalid => cases h

theorem bind_eq_ok {α β : Type*} {y : Except CreditError α} {f : α → Except CreditError β} {z : β}
    (h : y.bind f = .ok z) : ∃ a, y = .ok a ∧ f a = .ok z := by
  cases y with
  | error => cases h
  | ok a => exact ⟨a, rfl, h⟩

theorem terms_eq_some (h : x.terms = .ok (some t)) :
    x.contract.limit = some t.limit ∧ x.currency = .code t.currency ∧ 0 ≤ x.net := by
  unfold Sale.terms at h
  cases hl : x.contract.limit with
  | none =>
    rw [hl] at h
    cases h
  | some l =>
    rw [hl] at h
    obtain ⟨limit, hlimit, h⟩ := bind_eq_ok h
    obtain ⟨currency, -, h⟩ := bind_eq_ok h
    obtain ⟨saleCurrency, hsale, h⟩ := bind_eq_ok h
    by_cases hne : saleCurrency ≠ currency
    · rw [if_pos hne] at h
      cases h
    · rw [if_neg hne] at h
      obtain ⟨net, hnet, h⟩ := bind_eq_ok h
      cases h
      rw [not_not.mp hne] at hsale
      exact ⟨by rw [(money_eq_ok hlimit).1], parse_eq_ok hsale, (money_eq_ok hnet).2⟩

theorem newExposure_le (h : ∀ j ∈ x.modifies, e.LeAt e' j) : x.newExposure e' ≤ x.newExposure e := by
  unfold Sale.newExposure
  cases hm : x.modifies with
  | none => exact le_rfl
  | some j =>
    have hj := h j hm
    have hpaid := hj.paid
    have hadj := hj.adjusted
    simp only
    omega

theorem Admits.bound (h : Admits b scope x t) :
    (∀ r ∈ b.openRows scope (b.debtors scope) x.modifies, ∃ y, r.remaining t.currency (b.evidenceOf scope) = .ok y) ∧
      ((b.openRows scope (b.debtors scope) x.modifies).map fun r => r.rest t.currency (b.evidenceOf scope)).sum +
        x.newExposure (b.evidenceOf scope) ≤ t.limit := by
  obtain ⟨e, hle, hcap⟩ := h
  obtain ⟨d, hd, hcap⟩ := bind_eq_ok hcap
  have hfits : d + x.newExposure e ≤ t.limit := by
    by_contra hlt
    rw [if_pos (not_le.mp hlt)] at hcap
    cases hcap
  obtain ⟨hok, hsum⟩ := openDebt_of_le
    (fun r hr => hle r.id (mem_append_left _ (mem_map_of_mem hr))) hd
  have hnew : x.newExposure (b.evidenceOf scope) ≤ x.newExposure e :=
    newExposure_le fun j hj => hle j (mem_append_right _ (Option.mem_toList.mpr hj))
  exact ⟨hok, by omega⟩

/-! ### A new booking -/

theorem evidenceOf_fresh (h : b.isFresh newId = true) :
    (b.evidenceOf scope).adjusted newId = 0 ∧ (b.evidenceOf scope).paid newId = 0 := by
  obtain ⟨hboth, hst⟩ := Bool.and_eq_true_iff.mp h
  have hnot : ∀ st ∈ b.statementsOf scope, st.mentions newId = false := by
    intro st hm
    have hfresh := all_eq_true.mp hst st (mem_of_mem_filter hm)
    simpa using (Bool.and_eq_true_iff.mp hfresh).1
  have hpay : (b.payments.filter fun p => p.tenant = scope.tenant).filter (fun p => p.booking = some newId) = [] := by
    refine filter_eq_nil_iff.mpr fun p hp hb => ?_
    have hp := all_eq_true.mp (Bool.and_eq_true_iff.mp hboth).2 p (mem_of_mem_filter hp)
    exact of_decide_eq_true hp (of_decide_eq_true hb)
  refine ⟨sum_map_eq_zero fun st hm => Statement.adjusted_eq_zero (hnot st hm), ?_⟩
  have hsettled : (b.evidenceOf scope).settled newId = 0 :=
    sum_map_eq_zero fun st hm => Statement.settled_eq_zero (hnot st hm)
  have hcollected : (b.evidenceOf scope).collected newId = 0 := by
    simp only [Books.evidenceOf, evidence, hpay]
    rfl
  rw [Evidence.paid, hsettled, hcollected]
  rfl

theorem remaining_of_sale (hcurrency : r.creditCurrency = .code currency)
    (hexposure : r.creditExposure = some x.net) (hstatus : r.status ≠ .cancelled) (hnet : 0 ≤ x.net) :
    r.remaining currency e = .ok (max 0 (x.net + e.adjusted r.id - e.paid r.id)) := by
  have hmoney : r.netExposure = .ok x.net := by
    simp only [Booking.netExposure, hexposure, money]
    rw [if_neg (not_lt.mpr hnet)]
  have howes : r.owes currency e = .ok (x.net + e.adjusted r.id) := by
    simp only [Booking.owes, hcurrency, CurrencyText.or, CurrencyText.parse, hmoney]
    simp only [bind, Except.bind, ne_eq, not_true_eq_false, if_false, if_neg hstatus]
  rw [Booking.remaining, howes]
  rfl

theorem exposure_of_insert {bookings : Collection Booking Booking.id} (hm : x.modifies = none)
    (ht : x.terms = .ok (some t)) (h : Admits b scope x t) (hfresh : b.isFresh newId = true)
    (hins : b.bookings.insertOne (x.booking scope newId) = some bookings) :
    ∃ d, ({ b with bookings } : Books).exposure scope t.currency = .ok d ∧ d ≤ t.limit := by
  obtain ⟨-, hcurrency, hnet⟩ := terms_eq_some ht
  obtain ⟨hadjusted, hpaid⟩ : (b.evidenceOf scope).adjusted newId = 0 ∧ (b.evidenceOf scope).paid newId = 0 :=
    evidenceOf_fresh hfresh
  obtain ⟨hok, hbound⟩ := h.bound
  rw [hm] at hok hbound
  have hrows : ({ b with bookings } : Books).openRows scope (b.debtors scope) none =
      b.openRows scope (b.debtors scope) none ++ [x.booking scope newId] := by
    simp [Books.openRows, (Collection.insertOne_eq_some hins).2, Sale.booking]
  have hnew : (x.booking scope newId).remaining t.currency (b.evidenceOf scope) = .ok x.net := by
    rw [remaining_of_sale (x := x) hcurrency rfl (by simp [Sale.booking]) hnet]
    simp only [Sale.booking, hadjusted, hpaid]
    rw [add_zero, sub_zero, max_eq_right hnet]
  refine ⟨_, exposure_eq_ok.mpr ⟨fun r hr => ?_, rfl⟩, ?_⟩
  · change r ∈ ({ b with bookings } : Books).openRows scope (b.debtors scope) none at hr
    rw [hrows] at hr
    obtain hr | hr := mem_append.mp hr
    · exact hok r hr
    · rw [mem_singleton.mp hr]
      exact ⟨_, hnew⟩
  · change ((({ b with bookings } : Books).openRows scope (b.debtors scope) none).map
      fun r => r.rest t.currency (b.evidenceOf scope)).sum ≤ t.limit
    rw [hrows, map_append, sum_append, map_singleton, sum_singleton, rest_of_ok hnew]
    simpa [Sale.newExposure, hm] using hbound

/-! ### A modified booking -/

theorem filter_map_eq {α : Type*} {f : α → α} {p q : α → Bool} {l : List α} (hp : ∀ y, p (f y) = q y)
    (hf : ∀ y, q y = true → f y = y) : (l.map f).filter p = l.filter q := by
  induction l with
  | nil => rfl
  | cons y l ih =>
    rw [map_cons]
    cases hq : q y with
    | true => rw [filter_cons_of_pos ((hp y).trans hq), filter_cons_of_pos hq, ih, hf y hq]
    | false =>
      rw [filter_cons_of_neg (by simp [hp, hq]), filter_cons_of_neg (by simp [hq]), ih]

theorem sum_map_filter_add {α : Type*} (f : α → ℤ) (p : α → Bool) (l : List α) :
    (l.map f).sum = ((l.filter p).map f).sum + ((l.filter fun y => !p y).map f).sum := by
  induction l with
  | nil => rfl
  | cons y l ih => cases hp : p y <;> simp [hp, ih] <;> omega

theorem sum_map_le_of_length_le {α : Type*} {f : α → ℤ} {l : List α} {n : ℤ} (hl : l.length ≤ 1)
    (hn : 0 ≤ n) (hf : ∀ y ∈ l, f y ≤ n) : (l.map f).sum ≤ n := by
  match l with
  | [] => simpa using hn
  | [y] => simpa using hf y mem_cons_self
  | _ :: _ :: _ =>
    simp only [length_cons] at hl
    omega

theorem openRows_amended (b : Books) (scope : Scope) (x : Sale) (i : ℕ) (debtors : List ℕ) :
    ((b.amended scope x i).openRows scope debtors none).filter (fun r => !decide (r.id = i)) =
      b.openRows scope debtors (some i) := by
  simp only [Books.openRows, Books.amended, Collection.updateMany, filter_filter]
  refine filter_map_eq (fun y => ?_) fun y hq => ?_
  · by_cases hmod : Books.isModified scope i y = true
    · have hid : y.id = i := (Books.isModified_iff.mp hmod).1
      rw [if_pos hmod]
      simp [hid, Sale.amend]
    · rw [if_neg hmod]
      by_cases hid : y.id = i
      · simp [hid]
      · simp [hid, Ne.symm hid]
  · rw [if_neg]
    intro hmod
    have hid : y.id = i := (Books.isModified_iff.mp hmod).1
    simp [hid] at hq

theorem remaining_amended {debtors : List ℕ} (hm : x.modifies = some i)
    (ht : x.terms = .ok (some t)) (hany : b.bookings.any (Books.isModified scope i) = true)
    (hr : r ∈ (b.amended scope x i).openRows scope debtors none) (hid : r.id = i) :
    r.remaining t.currency (b.evidenceOf scope) = .ok (x.newExposure (b.evidenceOf scope)) := by
  obtain ⟨-, hcurrency, hnet⟩ := terms_eq_some ht
  obtain ⟨y, hy, hmod⟩ := Collection.any_eq_true.mp hany
  obtain ⟨hyid, -, hstatus⟩ := Books.isModified_iff.mp hmod
  obtain ⟨z, hz, rfl⟩ := b.mem_amended.mp (mem_of_mem_filter hr)
  have hzid : z.id = i := by
    split at hid <;> exact hid
  obtain rfl : z = y := Collection.eq_of_key hz hy (hzid.trans hyid.symm)
  rw [if_pos hmod, remaining_of_sale (r := x.amend z) hcurrency rfl (by simp [Sale.amend, hstatus]) hnet]
  simp only [Sale.newExposure, hm, Sale.amend, hzid]
  congr 2
  omega

theorem exposure_of_update (hm : x.modifies = some i) (ht : x.terms = .ok (some t))
    (h : Admits b scope x t) (hany : b.bookings.any (Books.isModified scope i) = true) :
    ∃ d, (b.amended scope x i).exposure scope t.currency = .ok d ∧ d ≤ t.limit := by
  obtain ⟨hok, hbound⟩ := h.bound
  rw [hm] at hok hbound
  have hother := openRows_amended b scope x i (b.debtors scope)
  refine ⟨_, exposure_eq_ok.mpr ⟨fun r hr => ?_, rfl⟩, ?_⟩
  · change r ∈ (b.amended scope x i).openRows scope (b.debtors scope) none at hr
    by_cases hid : r.id = i
    · exact ⟨_, remaining_amended (b := b) hm ht hany hr hid⟩
    · refine hok r ?_
      rw [← hother]
      exact mem_filter.mpr ⟨hr, by simp [hid]⟩
  · change (((b.amended scope x i).openRows scope (b.debtors scope) none).map
      fun r => r.rest t.currency (b.evidenceOf scope)).sum ≤ t.limit
    rw [sum_map_filter_add _ fun r => decide (r.id = i), hother]
    have hself : ((((b.amended scope x i).openRows scope (b.debtors scope) none).filter
        fun r => decide (r.id = i)).map fun r => r.rest t.currency (b.evidenceOf scope)).sum ≤
          x.newExposure (b.evidenceOf scope) := by
      refine sum_map_le_of_length_le ?_ ?_ fun r hr => ?_
      · obtain ⟨y, hy, hmod⟩ := Collection.any_eq_true.mp hany
        have hmem : x.amend y ∈ (b.amended scope x i).bookings :=
          b.mem_amended.mpr ⟨y, hy, by rw [if_pos hmod]⟩
        have hid : (x.amend y).id = i := (Books.isModified_iff.mp hmod).1
        rw [Books.openRows, filter_filter]
        refine Collection.length_filter_le_one (r := x.amend y) fun r hr hp => ?_
        exact Collection.eq_of_key hr hmem ((of_decide_eq_true (Bool.and_eq_true_iff.mp hp).1).trans hid.symm)
      · simp only [Sale.newExposure, hm]
        exact le_max_left _ _
      · obtain ⟨hr, hid⟩ := mem_filter.mp hr
        rw [rest_of_ok (remaining_amended (b := b) hm ht hany hr (of_decide_eq_true hid))]
    omega

end SyrocePms.AgencyCredit
