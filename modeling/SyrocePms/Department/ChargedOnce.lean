import SyrocePms.Department.Posting

/-! Services are charged once. A posting adds one charge, which the source query finds from then
on, and changes of a folio nothing but its balance, so that a later call finds what the first one
found. -/

namespace SyrocePms.Department

open Lib List

variable {s s' : Desk} {src : Source} {c d : Charge} {t : Target} {fails : Bool}
variable {f : Folio} {day : ℤ} {s₁ : Desk} {kind : Kind} {id : ℕ} {src' : Source}

/-! ### What a posting does -/

theorem mem_selectBookingFolio {b : ℕ} {o : Option ℕ} (h : s.selectBookingFolio b o = .ok f) :
    f ∈ s.folios := by
  unfold Desk.selectBookingFolio at h
  split at h
  · split at h
    · cases h
    · rename_i g hg
      split at h <;> cases h
      exact (Collection.mem_of_findOne hg).1
  · split at h <;> cases h
    rename_i hone
    have hmem : f ∈ s.folios.rows.filter fun f => decide (f.bookingId = b) && f.isOpen := by
      rw [hone]
      exact mem_singleton.mpr rfl
    exact (mem_filter.mp hmem).1

theorem target_eq_ok (h : s.target src = .ok t) :
    (∃ f ∈ s.folios, f.id = t.folioId) ∧ t.tax.getD 0 ≤ t.gross := by
  unfold Desk.target at h
  split at h
  · cases h
  · rename_i b hb
    split at h
    · cases h
    · obtain ⟨f, hf, h⟩ := Transaction.bind_eq_ok h
      split at h
      · cases h
      · obtain ⟨gross, -, h⟩ := Transaction.bind_eq_ok h
        obtain ⟨tax, -, h⟩ := Transaction.bind_eq_ok h
        split at h
        · cases h
        · rename_i hle
          cases h
          refine ⟨⟨f, mem_selectBookingFolio hf, rfl⟩, ?_⟩
          unfold Booking.target
          dsimp only
          split
          · cases tax <;> simp
          · exact Nat.le_of_not_lt hle

theorem openDay_eq_ok (h : s.openDay = .ok day) :
    s.businessDate = some day ∧ s.isClosed day = false := by
  unfold Desk.openDay at h
  split at h
  · cases h
  · rename_i hday
    split at h <;> cases h
    rename_i hclosed
    exact ⟨hday, Bool.eq_false_iff.mpr hclosed⟩

/-- What a posting leaves as it is before the balance is written. -/
structure Adds (s : Desk) (c : Charge) (s' : Desk) : Prop where
  bookings : s'.bookings = s.bookings
  folios : s'.folios = s.folios
  payments : s'.payments = s.payments
  charges : s.charges.insertOne c = some s'.charges

theorem adds_insertCharge (h : s.insertCharge c = .ok s') : Adds s c s' := by
  unfold Desk.insertCharge at h
  split at h <;> cases h
  exact ⟨rfl, rfl, rfl, by assumption⟩

theorem Adds.recordMice (h : Adds s c s₁) (hs : s₁.recordMice src t day = .ok s') : Adds s c s' := by
  unfold Desk.recordMice at hs
  split at hs
  · cases hs
    exact ⟨h.bookings, h.folios, h.payments, h.charges⟩
  · obtain ⟨amount, -, hs⟩ := Transaction.bind_eq_ok hs
    split at hs <;> cases hs
    exact ⟨h.bookings, h.folios, h.payments, h.charges⟩

theorem Adds.recordEvent (h : Adds s c s₁) (hs : s₁.recordEvent src t day = .ok s') :
    Adds s c s' := by
  unfold Desk.recordEvent at hs
  split at hs
  · exact h.recordMice hs
  · cases hs
    exact h

theorem postNew_eq_ok {r : Posted} (h : s.postNew src t fails = .ok r) :
    ∃ day s₂, s.openDay = .ok day ∧ Adds s (src.charge t day) s₂ ∧ r = s₂.posted t src day := by
  obtain ⟨-, -, h⟩ := Transaction.bind_eq_ok h
  obtain ⟨day, hday, h⟩ := Transaction.bind_eq_ok h
  obtain ⟨s₁, hs₁, h⟩ := Transaction.bind_eq_ok h
  obtain ⟨s₂, hs₂, h⟩ := Transaction.bind_eq_ok h
  split at h <;> cases h
  exact ⟨day, s₂, hday, (adds_insertCharge hs₁).recordEvent hs₂, rfl⟩

theorem postSourceCharge_new (h : postSourceCharge s src fails = .ok ⟨s', c, false⟩) :
    ∃ t day s₂, s.target src = .ok t ∧ s.prior src = none ∧ s.openDay = .ok day ∧ c = src.charge t day ∧
      Adds s c s₂ ∧ s' = s₂.setBalance t.folioId (s₂.balanceFor t.folioId src.currency) := by
  obtain ⟨t, ht, h⟩ := Transaction.bind_eq_ok h
  split at h
  · split at h <;> cases h
  · rename_i hprior
    obtain ⟨day, s₂, hday, hadds, hr⟩ := postNew_eq_ok h
    cases hr
    exact ⟨t, day, s₂, ht, hprior, hday, rfl, hadds, rfl⟩

theorem postSourceCharge_replayed (h : postSourceCharge s src fails = .ok ⟨s', c, true⟩) :
    s' = s ∧ ∃ t, s.target src = .ok t ∧ s.prior src = some c ∧ c.agrees src t = true := by
  obtain ⟨t, ht, h⟩ := Transaction.bind_eq_ok h
  split at h
  · rename_i hprior
    split at h <;> cases h
    rename_i hagrees
    exact ⟨rfl, t, ht, hprior, hagrees⟩
  · obtain ⟨day, s₂, -, -, hr⟩ := postNew_eq_ok h
    cases hr

theorem postSourceCharge_of_agrees (ht : s.target src = .ok t) (hprior : s.prior src = some c)
    (hagrees : c.agrees src t = true) : postSourceCharge s src fails = .ok ⟨s, c, true⟩ := by
  simp only [postSourceCharge, ht, hprior, bind, Except.bind, hagrees, if_true]

/-! ### What a later call finds -/

def rebalance (folioId : ℕ) (balance : ℤ) (f : Folio) : Folio :=
  if decide (f.id = folioId) = true then { f with balance := balance } else f

theorem id_rebalance (i : ℕ) (n : ℤ) (f : Folio) : (rebalance i n f).id = f.id := by
  unfold rebalance
  split <;> rfl

theorem bookingId_rebalance (i : ℕ) (n : ℤ) (f : Folio) : (rebalance i n f).bookingId = f.bookingId := by
  unfold rebalance
  split <;> rfl

theorem isOpen_rebalance (i : ℕ) (n : ℤ) (f : Folio) : (rebalance i n f).isOpen = f.isOpen := by
  unfold rebalance
  split <;> rfl

theorem currency_rebalance (i : ℕ) (n : ℤ) (f : Folio) : (rebalance i n f).currency = f.currency := by
  unfold rebalance
  split <;> rfl

theorem charges_rebalance (i : ℕ) (n : ℤ) (f : Folio) : (rebalance i n f).charges = f.charges := by
  unfold rebalance
  split <;> rfl

theorem selectBookingFolio_setBalance (i : ℕ) (n : ℤ) (b : ℕ) (o : Option ℕ) :
    (s.setBalance i n).selectBookingFolio b o = (s.selectBookingFolio b o).map (rebalance i n) := by
  cases o with
  | some id =>
    have hfind : ((s.setBalance i n).folios.findOne fun f => decide (f.bookingId = b) && decide (f.id = id)) =
        (s.folios.findOne fun f => decide (f.bookingId = b) && decide (f.id = id)).map (rebalance i n) :=
      @Collection.findOne_updateMany _ _ _ s.folios (fun f => decide (f.id = i))
        (fun f => decide (f.bookingId = b) && decide (f.id = id)) (fun f => { f with balance := n })
        (fun _ => rfl) fun _ => rfl
    simp only [Desk.selectBookingFolio, hfind]
    cases s.folios.findOne fun f => decide (f.bookingId = b) && decide (f.id = id) with
    | none => rfl
    | some f =>
      simp only [Option.map_some, isOpen_rebalance]
      split <;> rfl
  | none =>
    have hpred : (fun f : Folio => decide (f.bookingId = b) && f.isOpen) ∘ rebalance i n =
        fun f => decide (f.bookingId = b) && f.isOpen := by
      funext f
      simp only [Function.comp, bookingId_rebalance, isOpen_rebalance]
    have hfilter : ((s.setBalance i n).folios.rows.filter fun f => decide (f.bookingId = b) && f.isOpen) =
        (s.folios.rows.filter fun f => decide (f.bookingId = b) && f.isOpen).map (rebalance i n) := by
      have hrows : (s.setBalance i n).folios.rows = s.folios.rows.map (rebalance i n) := rfl
      rw [hrows, filter_map, hpred]
    simp only [Desk.selectBookingFolio, hfilter]
    cases s.folios.rows.filter fun f => decide (f.bookingId = b) && f.isOpen with
    | nil => rfl
    | cons f l => cases l <;> rfl

theorem target_setBalance (i : ℕ) (n : ℤ) : (s.setBalance i n).target src = s.target src := by
  have hbooking : (s.setBalance i n).findBooking = s.findBooking := rfl
  unfold Desk.target
  rw [hbooking]
  cases src.bookingId.bind s.findBooking with
  | none => rfl
  | some b =>
    simp only [selectBookingFolio_setBalance]
    cases s.selectBookingFolio b.id src.folioId with
    | error e => rfl
    | ok f =>
      simp only [Except.map, bind, Except.bind, currency_rebalance, Booking.target, id_rebalance,
        charges_rebalance]

theorem target_congr (hb : s'.bookings = s.bookings) (hf : s'.folios = s.folios) :
    s'.target src = s.target src := by
  have hbooking : s'.findBooking = s.findBooking := by
    funext id
    simp only [Desk.findBooking, hb]
  simp only [Desk.target, hbooking, Desk.selectBookingFolio, hf]

/-! ### The charges of a source -/

theorem isOf_charge : (src.charge t day).isOf kind id = true ↔
    src.id = id ∧ ∃ field ∈ kind.fields, field ∈ src.kind.fields := by
  simp only [Charge.isOf, Source.charge, any_eq_true, contains_iff_mem, mem_map, Prod.mk.injEq]
  constructor
  · rintro ⟨field, hfield, field', hfield', rfl, rfl⟩
    exact ⟨rfl, field', hfield, hfield'⟩
  · rintro ⟨rfl, field, hfield, hfield'⟩
    exact ⟨field, hfield, field, hfield', rfl, rfl⟩

theorem fields_eq {k k' : Kind} (h : ∃ field ∈ k.fields, field ∈ k'.fields) : k.fields = k'.fields := by
  revert h
  cases k <;> cases k' <;> simp [Kind.fields, Kind.sourceField]

theorem not_isOf_of_prior (hprior : s.prior src = none)
    (hnew : (src.charge t day).isOf kind id = true) (hd : d ∈ s.charges) :
    d.isOf kind id = false := by
  obtain ⟨rfl, hshared⟩ := isOf_charge.mp hnew
  have hnone := Collection.findOne_eq_none.mp hprior d hd
  have hfields := fields_eq hshared
  rw [Charge.isOf, hfields]
  exact Bool.eq_false_iff.mpr hnone

/-! ### Steps -/

theorem mem_of_adds {s₂ : Desk} (h : Adds s c s₂) : d ∈ s₂.charges ↔ d ∈ s.charges ∨ d = c :=
  Collection.mem_insertOne h.charges

theorem post_of_new (h : postSourceCharge s src fails = .ok ⟨s', c, false⟩) :
    (∀ src, s'.target src = s.target src) ∧ ∀ d, d ∈ s'.charges ↔ d ∈ s.charges ∨ d = c := by
  obtain ⟨t, day, s₂, -, -, -, -, hadds, rfl⟩ := postSourceCharge_new h
  exact ⟨fun src => (target_setBalance _ _).trans (target_congr hadds.bookings hadds.folios),
    fun d => Collection.mem_insertOne hadds.charges⟩

theorem next_cases {a : Act} (h : machine.step s a = some s') :
    (∃ src fails c, a = .post src fails ∧ postSourceCharge s src fails = .ok ⟨s', c, false⟩) ∨
      (s'.charges = s.charges ∧ (∀ src, s'.target src = s.target src) ∧ postings s a = []) := by
  cases a with
  | post src fails =>
    have hpost : s.post src fails = s' := Option.some.inj h
    unfold Desk.post at hpost
    cases hr : postSourceCharge s src fails with
    | error e =>
      rw [hr] at hpost
      subst hpost
      exact .inr ⟨rfl, fun _ => rfl, by simp [postings, hr]⟩
    | ok r =>
      rw [hr] at hpost
      obtain ⟨desk, c, replayed⟩ := r
      obtain rfl : desk = s' := hpost
      cases replayed with
      | false => exact .inl ⟨src, fails, c, rfl, hr⟩
      | true =>
        obtain ⟨rfl, -⟩ := postSourceCharge_replayed hr
        exact .inr ⟨rfl, fun _ => rfl, by simp [postings, hr]⟩
  | startAudit run businessDate =>
    obtain ⟨runs, -, rfl⟩ := Option.map_eq_some_iff.mp h
    exact .inr ⟨rfl, fun _ => target_congr rfl rfl, rfl⟩
  | roll run =>
    obtain ⟨r, -, rfl⟩ := Option.map_eq_some_iff.mp h
    exact .inr ⟨rfl, fun _ => target_congr rfl rfl, rfl⟩
  | complete run =>
    obtain ⟨r, -, rfl⟩ := Option.map_eq_some_iff.mp h
    exact .inr ⟨rfl, fun _ => target_congr rfl rfl, rfl⟩

def Known (s : Desk) (src : Source) (c : Charge) : Prop :=
  ∃ t day, s.target src = .ok t ∧ c = src.charge t day ∧ c ∈ s.charges ∧
    ∀ d ∈ s.charges, d.isOf src.kind src.id = true → d = c

theorem isOf_self : (src.charge t day).isOf src.kind src.id = true := by
  refine isOf_charge.mpr ⟨rfl, src.kind.sourceField, ?_, ?_⟩ <;> cases src.kind <;> simp [Kind.fields]

theorem known_new (h : postSourceCharge s src fails = .ok ⟨s', c, false⟩) : Known s' src c := by
  obtain ⟨htarget, hmem⟩ := post_of_new h
  obtain ⟨t, day, -, ht, hprior, -, rfl, -, -⟩ := postSourceCharge_new h
  have hself : (src.charge t day).isOf src.kind src.id = true := isOf_self
  refine ⟨t, day, (htarget src).trans ht, rfl, (hmem _).mpr (.inr rfl), fun d hd hof => ?_⟩
  obtain hd | rfl := (hmem d).mp hd
  · rw [not_isOf_of_prior hprior hself hd] at hof
    cases hof
  · rfl

theorem Known.new {c' : Charge} (hk : Known s src c)
    (h : postSourceCharge s src' fails = .ok ⟨s', c', false⟩) : Known s' src c := by
  obtain ⟨htarget, hmem⟩ := post_of_new h
  obtain ⟨t', day', -, -, hprior, -, rfl, -, -⟩ := postSourceCharge_new h
  obtain ⟨t, day, ht, hc, hcs, honly⟩ := hk
  refine ⟨t, day, (htarget src).trans ht, hc, (hmem c).mpr (.inl hcs), fun d hd hof => ?_⟩
  obtain hd | rfl := (hmem d).mp hd
  · exact honly d hd hof
  · have hself : c.isOf src.kind src.id = true := by
      rw [hc]
      exact isOf_self
    rw [not_isOf_of_prior hprior hof hcs] at hself
    cases hself

theorem Known.keeps (hk : Known s src c) (hcharges : s'.charges = s.charges)
    (htarget : ∀ src, s'.target src = s.target src) : Known s' src c := by
  obtain ⟨t, day, ht, hc, hcs, honly⟩ := hk
  exact ⟨t, day, (htarget src).trans ht, hc, hcharges ▸ hcs, hcharges ▸ honly⟩

theorem oncePerSource_new (hs : s.OncePerSource) (h : postSourceCharge s src fails = .ok ⟨s', c, false⟩) :
    s'.OncePerSource := by
  obtain ⟨-, hmem⟩ := post_of_new h
  obtain ⟨t, day, -, -, hprior, -, rfl, -, -⟩ := postSourceCharge_new h
  intro kind id x hx y hy hxof hyof hxv hyv
  obtain hx | rfl := (hmem x).mp hx <;> obtain hy | rfl := (hmem y).mp hy
  · exact hs kind id x hx y hy hxof hyof hxv hyv
  · rw [not_isOf_of_prior hprior hyof hx] at hxof
    cases hxof
  · rw [not_isOf_of_prior hprior hxof hy] at hyof
    cases hyof
  · rfl

/-! ### Retries, the day and the balance -/

/-- A source that was posted: its charge is stored, with net and VAT that add up, a retry with the
same content returns it, one with other content is refused, and neither writes anything. -/
structure ChargedAs (s : Desk) (src : Source) (c : Charge) : Prop where
  stored : c ∈ s.charges
  addsUp : ∃ net total, c.amount = some net ∧ c.total = some total ∧ net + c.vatAmount.getD 0 = total
  returns : ∀ fails, postSourceCharge s src fails = .ok ⟨s, c, true⟩
  refuses : ∀ src' fails r, src'.kind = src.kind → src'.id = src.id → postSourceCharge s src' fails = .ok r →
    r = ⟨s, c, true⟩ ∧ ∃ folioId, c.folioId = some folioId ∧ src'.on folioId = src.on folioId
  unchanged : ∀ src' fails, src'.kind = src.kind → src'.id = src.id → s.post src' fails = s

theorem agrees_charge : (src.charge t day).agrees src t = true := by
  simp [Charge.agrees, Source.charge]

theorem addsUp_charge (h : t.tax.getD 0 ≤ t.gross) :
    ∃ net total, (src.charge t day).amount = some net ∧ (src.charge t day).total = some total ∧
      net + (src.charge t day).vatAmount.getD 0 = total := by
  refine ⟨_, _, rfl, rfl, ?_⟩
  have hvat : (src.charge t day).vatAmount.getD 0 = ((t.tax.getD 0 : ℕ) : ℚ) := by
    unfold Source.charge
    cases t.tax <;> simp
  rw [hvat, ← Nat.cast_add, Nat.sub_add_cancel h]

theorem Known.prior (hk : Known s src c) (hkind : src'.kind = src.kind) (hid : src'.id = src.id) :
    s.prior src' = some c := by
  obtain ⟨t, day, -, hc, hcs, honly⟩ := hk
  have hself : c.isOf src.kind src.id = true := by
    rw [hc]
    exact isOf_self
  unfold Desk.prior
  rw [hkind, hid]
  cases hfind : s.charges.findOne fun c => c.isOf src.kind src.id with
  | none => exact absurd hself (Collection.findOne_eq_none.mp hfind c hcs)
  | some d =>
    obtain ⟨hd, hof⟩ := Collection.mem_of_findOne hfind
    rw [honly d hd hof]

theorem Known.chargedAs (hk : Known s src c) : ChargedAs s src c := by
  have hfound {src' : Source} {fails : Bool} {r : Posted} (hkind : src'.kind = src.kind)
      (hid : src'.id = src.id) (hr : postSourceCharge s src' fails = .ok r) :
      r = ⟨s, c, true⟩ ∧ ∃ t, c.agrees src' t = true := by
    have hprior := hk.prior hkind hid
    obtain ⟨s', d, replayed⟩ := r
    cases replayed with
    | false =>
      obtain ⟨t, day, s₂, -, hnone, -⟩ := postSourceCharge_new hr
      rw [hprior] at hnone
      cases hnone
    | true =>
      obtain ⟨rfl, t, -, hsome, hagrees⟩ := postSourceCharge_replayed hr
      rw [hprior] at hsome
      obtain rfl := Option.some.inj hsome
      exact ⟨rfl, t, hagrees⟩
  refine ⟨?_, ?_, fun fails => ?_, fun src' fails r hkind hid hr => ?_, fun src' fails hkind hid => ?_⟩
  · obtain ⟨t, day, -, -, hcs, -⟩ := hk
    exact hcs
  · obtain ⟨t, day, ht, rfl, -, -⟩ := hk
    exact addsUp_charge (target_eq_ok ht).2
  · have hprior := hk.prior rfl rfl
    obtain ⟨t, day, ht, rfl, -, -⟩ := hk
    exact postSourceCharge_of_agrees ht hprior agrees_charge
  · obtain ⟨hreturned, t, hagrees⟩ := hfound hkind hid hr
    refine ⟨hreturned, ?_⟩
    obtain ⟨-, hfingerprint, -, hfolio, -⟩ := of_decide_eq_true hagrees
    obtain ⟨t₀, day, -, rfl, -, -⟩ := hk
    refine ⟨t₀.folioId, rfl, ?_⟩
    have hsame : t₀.folioId = t.folioId := Option.some.inj hfolio
    rw [← hsame] at hfingerprint
    exact (Option.some.inj hfingerprint).symm
  · unfold Desk.post
    cases hr : postSourceCharge s src' fails with
    | error e => rfl
    | ok r =>
      obtain ⟨rfl, -⟩ := hfound hkind hid hr
      rfl

def OnOpenDay (s : Desk) (c : Charge) : Prop :=
  ∃ day, c.businessDate = some day ∧ s.businessDate = some day ∧ s.isClosed day = false

/-- The opening balance and the charges less the payments, in a currency. -/
def Desk.owed (s : Desk) (f : Folio) (code : Code) : ℚ :=
  s.chargesIn f code code - s.paymentsIn f code code + s.openingIn f code code

/-- The balance that is stored at the folio of a charge is what is owed there. -/
def Balanced (s : Desk) (c : Charge) (code : Code) : Prop :=
  ∀ f ∈ s.folios, c.folioId = some f.id → f.balance = rounded (s.owed f code)

theorem mem_setBalance {i : ℕ} {n : ℤ} : f ∈ (s.setBalance i n).folios ↔
    (f ∈ s.folios ∧ f.id ≠ i) ∨ ∃ g ∈ s.folios, g.id = i ∧ f = { g with balance := n } :=
  @Collection.mem_update _ _ _ _ s.folios i (fun f => { f with balance := n }) (fun _ => rfl) f

theorem onOpenDay_new (h : postSourceCharge s src fails = .ok ⟨s', c, false⟩) : OnOpenDay s c := by
  obtain ⟨t, day, -, -, -, hday, rfl, -, -⟩ := postSourceCharge_new h
  exact ⟨day, rfl, openDay_eq_ok hday⟩

theorem balanced_new (h : postSourceCharge s src fails = .ok ⟨s', c, false⟩)
    (hcode : src.currency.ledger = src.currency) : Balanced s' c src.currency := by
  obtain ⟨t, day, s₂, -, -, -, rfl, hadds, rfl⟩ := postSourceCharge_new h
  intro f hf hid
  have hfid : f.id = t.folioId := (Option.some.inj hid).symm
  obtain ⟨-, hne⟩ | ⟨g, hg, hgid, rfl⟩ := mem_setBalance.mp hf
  · exact absurd hfid hne
  have hget : s₂.folios.get? t.folioId = some g := Collection.get?_eq_some.mpr ⟨hg, hgid⟩
  have hrow : src.charge t day ∈ s₂.chargeRows g := by
    refine mem_filter.mpr ⟨(mem_of_adds hadds).mpr (.inr rfl), ?_⟩
    simp [Source.charge, hgid]
  have hin : src.currency ∈ s₂.folioCodes g src.currency := by
    refine mem_append_left _ (mem_append_left _ (mem_map.mpr ⟨_, hrow, ?_⟩))
    exact hcode
  have hbalance : s₂.balanceFor t.folioId src.currency = rounded (s₂.owed g src.currency) := by
    simp only [Desk.balanceFor, hget, Desk.balanceByCurrency, if_pos hin, Option.getD_some, Desk.owed]
  exact hbalance

/-- Department services are charged once. In every run of postings and day closes, no source has
two charges that are not voided; a source that was posted keeps its charge, whose net and VAT add
up, a retry with the same content returns it, and one with other content is refused; a charge is
written on the open day, which no completed audit has closed; and the balance of its folio is then
the opening balance and the charges less the payments in the currency of the posting, if that is
written as the ledger writes it. -/
theorem services_charged_once {log : List (Source × Charge)}
    (h : machine.ReachLogged postings (fun _ _ => True) (s, log)) :
    s.OncePerSource ∧ (∀ x ∈ log, ChargedAs s x.1 x.2) ∧
      ∀ src fails s' c, postSourceCharge s src fails = .ok ⟨s', c, false⟩ →
        OnOpenDay s c ∧ (src.currency.ledger = src.currency → Balanced s' c src.currency) := by
  have hinv : s.OncePerSource ∧ ∀ x ∈ log, Known s x.1 x.2 := by
    refine h.invariant (fun s log => s.OncePerSource ∧ ∀ x ∈ log, Known s x.1 x.2)
      (fun s hs => ⟨hs, by simp⟩) fun s log a s' _ hi _ hn => ?_
    obtain ⟨src, fails, c, rfl, hnew⟩ | ⟨hcharges, htarget, hnote⟩ := next_cases hn
    · have hnote : postings s (.post src fails) = [(src, c)] := by simp only [postings, hnew]
      refine ⟨oncePerSource_new hi.1 hnew, fun x hx => ?_⟩
      rw [hnote] at hx
      obtain rfl | hx := mem_cons.mp hx
      · exact known_new hnew
      · exact (hi.2 x hx).new hnew
    · rw [hnote]
      refine ⟨?_, fun x hx => (hi.2 x hx).keeps hcharges htarget⟩
      have hs := hi.1
      unfold Desk.OncePerSource at hs ⊢
      rwa [hcharges]
  exact ⟨hinv.1, fun x hx => (hinv.2 x hx).chargedAs,
    fun src fails s' c hnew => ⟨onOpenDay_new hnew, balanced_new hnew⟩⟩

/-! ### A stay -/

def sampleFolio (openingBalance : ℚ) (balance : ℤ) : Folio where
  id := 1
  bookingId := 1
  currency := some .TRY
  openingBalance := openingBalance
  balance := balance

/-- One guest in house, on day 5, with a payment of 20.00. -/
def sampleDesk (openingBalance : ℚ) : Desk where
  bookings := [{ id := 1, status := .checkedIn, currency := some .TRY }]
  folios := ⟨[sampleFolio openingBalance 0], nodup_singleton _⟩
  charges := .empty
  payments := [{ identity := 1, folioId := some 1, amount := 2000, currency := some .TRY }]
  micePostings := []
  businessDate := some 5
  runs := .empty

def sampleSource (kind : Kind) : Source where
  kind := kind
  id := 7
  bookingId := some 1
  folioId := none
  currency := .TRY
  gross := some 50
  tax := some (some 5)

theorem init_sampleDesk (openingBalance : ℚ) : machine.init (sampleDesk openingBalance) :=
  fun _ _ _ hc => absurd hc Collection.not_mem_empty

/-- The days of the charges, the last posting first, and the balances. -/
def ledgerView (w : Desk × List (Source × Charge)) : List (Option ℤ) × List ℤ :=
  (w.2.map fun x => x.2.businessDate, w.1.folios.rows.map Folio.balance)

/-- A request to the concierge on day 5, the close of the day, the same request again, and an event
on day 6. -/
theorem services_charged_once_closed : ∃ s log, machine.ReachLogged postings (fun _ _ => True) (s, log) ∧
    ledgerView (s, log) = ([some 6, some 5], [8000]) ∧ s.OncePerSource ∧ ∀ x ∈ log, ChargedAs s x.1 x.2 := by
  obtain ⟨⟨s, log⟩, hreach, hv⟩ := Machine.exists_reachable_of_run (M := machine.logged postings)
    (s := (sampleDesk 0, [])) (f := ledgerView) (v := ([some 6, some 5], [8000]))
    [.post (sampleSource .concierge) false, .startAudit 1 5, .roll 1, .complete 1,
      .post (sampleSource .concierge) false, .post (sampleSource .mice) false]
    ⟨init_sampleDesk 0, rfl⟩ (by decide +kernel)
  obtain ⟨honce, hcharged, -⟩ := services_charged_once hreach
  exact ⟨s, log, hreach, hv, honce, hcharged⟩

def folioView (r : Posted) : Bool × Option ℕ × List Folio × ℤ :=
  (r.replayed, r.charge.folioId, r.desk.folios.rows,
    rounded (r.desk.chargesIn (sampleFolio 10000 0) .TRY .TRY - r.desk.paymentsIn (sampleFolio 10000 0) .TRY .TRY))

/-- A folio that has come with an opening balance of 100.00 keeps it in its balance. -/
theorem balance_keeps_opening : ¬ ∀ s src fails s' c, machine.Reachable s →
    postSourceCharge s src fails = .ok ⟨s', c, false⟩ → ∀ f ∈ s'.folios, c.folioId = some f.id →
      f.balance = rounded (s'.chargesIn f src.currency src.currency - s'.paymentsIn f src.currency src.currency) := by
  intro h
  have hview : (postSourceCharge (sampleDesk 10000) (sampleSource .concierge) false).toOption.map folioView =
      some (false, some 1, [sampleFolio 10000 13000], 3000) := by decide +kernel
  cases hr : postSourceCharge (sampleDesk 10000) (sampleSource .concierge) false with
  | error e =>
    rw [hr] at hview
    cases hview
  | ok r =>
    rw [hr] at hview
    obtain ⟨s', c, replayed⟩ := r
    obtain ⟨hreplayed, hview⟩ := Prod.mk.inj (Option.some.inj hview)
    obtain ⟨hfolio, hview⟩ := Prod.mk.inj hview
    obtain ⟨hrows, hamount⟩ := Prod.mk.inj hview
    obtain rfl : replayed = false := hreplayed
    have hmem : sampleFolio 10000 13000 ∈ s'.folios := by
      have hrows : s'.folios.rows = [sampleFolio 10000 13000] := hrows
      rw [Collection.mem_def, hrows]
      exact mem_singleton.mpr rfl
    have hclaim := h _ _ _ s' c (.start (init_sampleDesk 10000)) hr _ hmem hfolio
    have hsame : (13000 : ℤ) = 3000 := hclaim.trans hamount
    exact absurd hsame (by decide)

end SyrocePms.Department
