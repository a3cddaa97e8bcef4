import SyrocePms.Billing.ValueConservation

/-! What is left on a settlement instrument can be applied: in the hotel of a guest who owes the
amount, an application of it passes every check. An instrument in lira is applied at once, and
one that is carried in a foreign currency a million units at a time, which a rate of six places
is precise enough for. -/

namespace SyrocePms.Billing

open Lib List Collection

namespace Instrument

def UsableOn (i : Instrument) (day : ℕ) : Prop :=
  (∀ d, i.expiresOn = some d → day ≤ d) ∧ ∀ d, i.dueOn = some d → d ≤ day

/-- A foreign currency is carried at one lira a unit at least. -/
def AtPar (i : Instrument) : Prop :=
  i.currency = .TRY ∨ ∀ f, i.funding = some f → i.issued ≤ f.issuedBase

/-- The funding of the instrument has not been reversed. -/
def Stands (i : Instrument) (s : InstrumentStore) : Prop :=
  ∀ f e, i.funding = some f → s.entries.get? f.entryId = some e → s.isReversed e = false

def useAmount (i : Instrument) : ℤ :=
  if i.funding.isSome ∧ i.currency ≠ .TRY then min i.remaining 1000000 else i.remaining

end Instrument

def owingFolio (i : Instrument) (folioId : ℕ) (amount : ℤ) : Folio where
  id := folioId
  bookingId := i.originBookingId
  isOpen := true
  currency := .code i.currency
  postings := [(i.currency, amount)]

def openHotel (i : Instrument) (day folioId : ℕ) (amount : ℤ) : Hotel where
  bookings := [⟨i.originBookingId, .confirmed, .code i.currency, i.ownerGuestId⟩]
  folios := [owingFolio i folioId amount]
  businessDate := some day
  activeShift := some 0
  accounts := ⟨[⟨i.account, i.kind.accountType, true⟩, ⟨i.account + 1, .asset, true⟩,
    ⟨i.account + 2, .revenue, true⟩], by simp⟩
  mapping := some ⟨true, some (i.account + 1), some i.account⟩
  members := i.ownerGuestId.toList.map fun guest => ⟨guest, amount⟩
  postingOpen := true
  altered := []

abbrev InstrumentStore.hosting (s : InstrumentStore) (i : Instrument) (day folioId : ℕ) (amount : ℤ) :
    InstrumentStore :=
  { s with hotel := openHotel i day folioId amount }

def useOf (i : Instrument) (requestId folioId : ℕ) (amount : AmountMinor) : Apply where
  requestId := requestId
  bookingId := i.originBookingId
  folioId := folioId
  amount := amount
  rateToTry := ⟨1000000, by norm_num⟩
  rateReference := "rate"
  fxGainAccount := some (i.account + 2)
  reference := "use"
  reason := "use"

variable {s : InstrumentStore} {i : Instrument}

theorem Accounted.remaining_le (h : Accounted s) (hi : i ∈ s.instruments) :
    i.remaining ≤ 100000000000 := by
  have := h.unreversed_nonneg Application.amount (fun _ _ ht => ht.pos.le) i.id
  have := (h.counted i hi).split
  have := (h.formed i hi).issued_le
  omega

/-! ### The stages of the application -/

section Stages

variable {day requestId folioId : ℕ} {amount : AmountMinor}

theorem account_ok {code : ℕ} {type : Ledger.AccountType}
    (h : (s.hotel.accounts.get? code) = some ⟨code, type, true⟩) : s.account code type = .ok () := by
  simp [InstrumentStore.account, h, refuse]

theorem account_hosting (s : InstrumentStore) (i : Instrument) (day folioId : ℕ) (amount : ℤ) :
    (s.hosting i day folioId amount).account i.account i.kind.accountType = .ok () ∧
      (s.hosting i day folioId amount).account (i.account + 1) .asset = .ok () ∧
      (s.hosting i day folioId amount).account (i.account + 2) .revenue = .ok () := by
  refine ⟨account_ok ?_, account_ok ?_, account_ok ?_⟩ <;>
    simp [openHotel, Collection.get?, Collection.findOne]

theorem admit_hosting (hstatus : i.status = if i.kind = .chequePendingClearance then .pending else .active)
    (hle : amount.val ≤ i.remaining) (hwhole : i.kind = .chequePendingClearance → amount.val = i.remaining)
    (hday : i.UsableOn day) :
    (s.hosting i day folioId amount.val).admitUse i (useOf i requestId folioId amount) =
      .ok (⟨i.originBookingId, .confirmed, .code i.currency, i.ownerGuestId⟩, day) := by
  have hbooking : (s.hosting i day folioId amount.val).booking i.originBookingId =
      .ok ⟨i.originBookingId, .confirmed, .code i.currency, i.ownerGuestId⟩ := by
    simp [InstrumentStore.booking, World.booking?, openHotel, Reservation.BookingStatus.terminal]
  have howned : InstrumentStore.owned i (useOf i requestId folioId amount)
      ⟨i.originBookingId, .confirmed, .code i.currency, i.ownerGuestId⟩ = .ok () := by
    unfold InstrumentStore.owned
    split <;> simp_all [refuse, useOf]
  have hexpired : ¬ (i.expiresOn.any fun d => d < day) = true := by
    cases hd : i.expiresOn with
    | none => simp
    | some d => simpa using hday.1 d hd
  have hdue : ¬ (i.dueOn.any fun d => day < d) = true := by
    cases hd : i.dueOn with
    | none => simp
    | some d => simpa using hday.2 d hd
  refine bind_eq_ok.mpr ⟨_, hbooking, bind_eq_ok.mpr ⟨_, howned, bind_eq_ok.mpr ⟨day, rfl, ?_⟩⟩⟩
  refine refuse_bind_eq_ok.mpr ⟨hexpired, refuse_bind_eq_ok.mpr ⟨?_, refuse_bind_eq_ok.mpr ⟨?_, rfl⟩⟩⟩
  · rintro (hne | hlt)
    · exact hne hstatus
    · exact absurd hle (not_le.mpr hlt)
  · rintro ⟨hcheque, hne | hlate⟩
    · exact hne (hwhole hcheque)
    · exact hdue hlate

theorem folioFor_hosting (hcent : i.currency.isCent = true) (hfolio : ∀ p ∈ s.payments, p.folioId ≠ folioId) :
    (s.hosting i day folioId amount.val).folioFor i (useOf i requestId folioId amount)
      ⟨i.originBookingId, .confirmed, .code i.currency, i.ownerGuestId⟩ =
        .ok (owingFolio i folioId amount.val) := by
  have hselect : (s.hosting i day folioId amount.val).selectFolio i.originBookingId folioId =
      .ok (owingFolio i folioId amount.val) := by
    simp [InstrumentStore.selectFolio, World.folio?, openHotel, owingFolio]
  have hpaid : (s.hosting i day folioId amount.val).paidOn folioId = [] := by
    have : s.payments.rows.filter (fun p => p.folioId == folioId) = [] :=
      filter_eq_nil_iff.mpr fun p hp => by simpa using hfolio p hp
    simp [InstrumentStore.paidOn, this]
  refine bind_eq_ok.mpr ⟨_, hselect, refuse_bind_eq_ok.mpr ⟨?_, refuse_bind_eq_ok.mpr ⟨by simp [owingFolio], ?_⟩⟩⟩
  · simp [owingFolio, CurrencyText.orElse, CurrencyText.currency, hcent, useOf]
  · have hid : (owingFolio i folioId amount.val).id = folioId := rfl
    refine refuse_bind_eq_ok.mpr ⟨?_, rfl⟩
    rw [hid, hpaid]
    simp [owingFolio, Folio.isMixed, Folio.balanceIn, sumIn, useOf]

theorem receivable_hosting : (s.hosting i day folioId amount.val).receivable i = .ok (i.account + 1) := by
  obtain ⟨hsource, har, -⟩ := account_hosting s i day folioId amount.val
  have hmapping : (s.hosting i day folioId amount.val).hotel.mapping =
      some ⟨true, some (i.account + 1), some i.account⟩ := rfl
  unfold InstrumentStore.receivable
  rw [hmapping]
  refine refuse_bind_eq_ok.mpr ⟨by simp, ?_⟩
  refine bind_eq_ok.mpr ⟨_, har, refuse_bind_eq_ok.mpr ⟨by simp, refuse_bind_eq_ok.mpr ⟨by simp, ?_⟩⟩⟩
  exact bind_eq_ok.mpr ⟨_, hsource, rfl⟩

theorem takePoints_hosting (s : InstrumentStore) (day folioId : ℕ) (hformed : Formed i) (hpoints : ∀ v, i.pointValue = some v → v.val ∣ amount.val) :
    ∃ hotel points, (s.hosting i day folioId amount.val).takePoints i amount.val =
      .ok ({ s with hotel := { openHotel i day folioId amount.val with members := hotel } }, points) := by
  unfold InstrumentStore.takePoints
  split
  · exact ⟨_, none, rfl⟩
  · rename_i v hv
    have hkind : i.kind = .loyaltyRedemption := by
      have := hformed.loyalty
      rw [hv] at this
      exact beq_iff_eq.mp this.symm
    obtain ⟨guest, hguest⟩ := hformed.owned hkind
    have hmember : (s.hosting i day folioId amount.val).member i.ownerGuestId = .ok ⟨guest, amount.val⟩ := by
      simp [InstrumentStore.member, openHotel, hguest]
    have hle : amount.val / v.val ≤ amount.val := Int.ediv_le_self _ amount.property.1.le
    refine ⟨_, _, refuse_bind_eq_ok.mpr ⟨?_, bind_eq_ok.mpr ⟨_, hmember, refuse_bind_eq_ok.mpr ⟨?_, rfl⟩⟩⟩⟩
    · exact not_not.mpr (Int.emod_eq_zero_of_dvd (hpoints v hv))
    · exact not_lt.mpr hle

end Stages

/-! ### The base that it takes -/

/-- A base that the entry of the application can carry. -/
structure Carries (i : Instrument) (amount source : ℤ) : Prop where
  le : amount ≤ source
  limit : source ≤ Ledger.moneyLimit
  rate : i.currency ≠ .TRY → 0 < sourceRate source amount ∧
    |base amount (rateValue (sourceRate source amount)) - source| ≤ 1

theorem rateValue_million : rateValue 1000000 = 1 := by
  norm_num [rateValue]

theorem carries_self {amount : ℤ} (hpos : 0 < amount) (hle : amount ≤ 100000000000) :
    Carries i amount amount := by
  have hlimit : amount ≤ Ledger.moneyLimit := hle.trans (by decide)
  refine ⟨le_rfl, hlimit, fun _ => ?_⟩
  rw [sourceRate_self hpos, rateValue_million, base_one hpos.le hlimit, sub_self]
  norm_num

theorem useAmount_pos (h : 0 < i.remaining) : 0 < i.useAmount := by
  unfold Instrument.useAmount
  split
  · exact lt_min h (by norm_num)
  · exact h

theorem useAmount_le (i : Instrument) : i.useAmount ≤ i.remaining := by
  unfold Instrument.useAmount
  split
  · exact min_le_left _ _
  · exact le_rfl

theorem Accounted.sourceBase (h : Accounted s) (hi : i ∈ s.instruments) (hpos : 0 < i.remaining)
    (hpar : i.AtPar) (hstands : i.Stands s) : ∃ source,
      s.sourceBase i i.useAmount i.useAmount = .ok source ∧ Carries i i.useAmount source := by
  have huse := useAmount_pos hpos
  have hle := useAmount_le i
  unfold InstrumentStore.sourceBase
  split
  · exact ⟨_, rfl, carries_self huse (hle.trans (h.remaining_le hi))⟩
  · rename_i f hf
    obtain ⟨e, nominal, hdrawn⟩ := h.drawn i hi f hf
    have hrate : i.issued ≤ f.issuedBase := by
      obtain hlira | hrate := hpar
      · exact (((h.counted i hi).base f hf).lira hlira).ge
      · exact hrate f hf
    have hlimit := h.remainingBase_le hi hf
    obtain ⟨htop, -, hpart⟩ := h.part hi hf huse hle rfl
    obtain ⟨hsource, -⟩ := hpart hrate
    rw [hdrawn.entry]
    refine ⟨_, refuse_bind_eq_ok.mpr ⟨?_, refuse_bind_eq_ok.mpr ⟨?_, refuse_bind_eq_ok.mpr ⟨?_, rfl⟩⟩⟩,
      hsource, htop.trans hlimit, fun hne => ?_⟩
    · simp [hdrawn.lines, hdrawn.isSealed]
    · simp [hstands f e hf hdrawn.entry]
    · exact not_le.mpr (huse.trans_le hsource)
    · have hsmall : i.useAmount ≤ 1000000 := by
        rw [Instrument.useAmount, if_pos ⟨by simp [hf], hne⟩]
        exact min_le_right _ _
      exact ⟨sourceRate_pos huse hsource, base_sourceRate huse hsmall hsource (htop.trans hlimit)⟩

/-! ### Its entry -/

theorem GlLine.lineError_eq_none {x : GlLine} (haccount : x.account ≠ 0)
    (hdebit : 0 ≤ x.debit ∧ x.debit ≤ Ledger.moneyLimit) (hcredit : 0 ≤ x.credit ∧ x.credit ≤ Ledger.moneyLimit)
    (hxor : ¬ (0 < x.debit ↔ 0 < x.credit))
    (hforeign : ∀ f, x.foreign = some f → f.currency ≠ .TRY ∧ 0 < f.rate ∧
      |base f.amount (rateValue f.rate) - (if x.debit ≠ 0 then x.debit else x.credit)| ≤ 1) (n : ℕ) :
    x.lineError n = none := by
  have hplain : Ledger.lineError n x.plain = none := by
    unfold Ledger.lineError GlLine.plain
    dsimp only
    rw [if_neg haccount, abs_of_nonneg hdebit.1, abs_of_nonneg hcredit.1, if_neg, if_neg, if_neg hxor]
    · exact not_or.mpr ⟨not_lt.mpr hdebit.1, not_lt.mpr hcredit.1⟩
    · exact not_or.mpr ⟨not_lt.mpr hdebit.2, not_lt.mpr hcredit.2⟩
  unfold GlLine.lineError
  rw [hplain]
  unfold GlLine.foreignError
  dsimp only
  split
  · rfl
  · rename_i f hf
    obtain ⟨hcurrency, hrate, hbase⟩ := hforeign f hf
    rw [if_neg hcurrency, if_neg (not_le.mpr hrate), if_neg (not_lt.mpr hbase)]

theorem exists_normalizeLines {lines : List GlLine} (hne : lines ≠ [])
    (hlines : ∀ x ∈ lines, ∀ n, x.lineError n = none) (hpos : 0 < (lines.map GlLine.debit).sum)
    (hbalanced : (lines.map GlLine.debit).sum = (lines.map GlLine.credit).sum)
    (hlimit : (lines.map GlLine.credit).sum ≤ Ledger.moneyLimit) :
    ∃ accepted, normalizeLines lines = .ok accepted := by
  have hnone : (lines.zipIdx.findSome? fun x => x.1.lineError x.2) = none := by
    refine findSome?_eq_none_iff.mpr fun x hx => ?_
    exact hlines x.1 (fst_mem_of_mem_zipIdx hx) x.2
  unfold normalizeLines
  rw [if_neg hne]
  split
  · rename_i e he
    cases hnone.symm.trans he
  · dsimp only
    rw [if_neg (not_le.mpr hpos), if_neg (not_not.mpr hbalanced), dif_pos hlimit]
    exact ⟨_, rfl⟩

def nativeOf (i : Instrument) (amount rate : ℤ) : Option Foreign :=
  if i.currency = .TRY then none else some ⟨i.currency, amount, rate⟩

def useLines (i : Instrument) (amount source : ℤ) : List GlLine :=
  [{ account := i.account, debit := source, foreign := nativeOf i amount (sourceRate source amount) },
    { account := i.account + 1, credit := amount, foreign := nativeOf i amount 1000000 }]

def gainLines (i : Instrument) (gain : ℤ) : List GlLine :=
  if gain = 0 then [] else [{ account := i.account + 2, credit := gain }]

section Entry

variable {day requestId folioId : ℕ} {amount : AmountMinor} {source : ℤ}

theorem nativeLines_useOf (h : Carries i amount.val source) :
    InstrumentStore.nativeLines i (i.account + 1) (useOf i requestId folioId amount) source amount.val =
      .ok (useLines i amount.val source) := by
  unfold InstrumentStore.nativeLines useLines nativeOf
  split
  · rfl
  · rename_i hne
    exact refuse_bind_eq_ok.mpr ⟨not_lt.mpr (h.rate hne).2, rfl⟩

theorem exchangeLines_hosting (h : Carries i amount.val source) (members : List Member) :
    ({ s with hotel := { openHotel i day folioId amount.val with members := members } } :
      InstrumentStore).exchangeLines i (i.account + 1) (useOf i requestId folioId amount)
        (source - amount.val) = .ok (gainLines i (source - amount.val)) := by
  obtain ⟨-, -, hgain⟩ := account_hosting s i day folioId amount.val
  unfold InstrumentStore.exchangeLines gainLines
  split
  · rfl
  · rename_i hne
    have hpos : 0 < source - amount.val := by
      have := h.le
      omega
    simp only [if_pos hpos]
    exact refuse_bind_eq_ok.mpr ⟨by simp, bind_eq_ok.mpr ⟨_, hgain, rfl⟩⟩

theorem lineError_useLines (hformed : Formed i) (h : Carries i amount.val source) :
    ∀ x ∈ useLines i amount.val source ++ gainLines i (source - amount.val), ∀ n, x.lineError n = none := by
  have hpos : 0 < amount.val := amount.property.1
  have hle := h.le
  have hlimit := h.limit
  have hlimit₀ : (0 : ℤ) ≤ Ledger.moneyLimit := by decide
  intro x hx
  obtain hx | hx := mem_append.mp hx
  · obtain rfl | hx := mem_cons.mp hx
    · refine GlLine.lineError_eq_none hformed.account ⟨by dsimp only; omega, hlimit⟩ ⟨le_rfl, hlimit₀⟩ ?_ ?_
      · dsimp only
        omega
      · intro f hf
        dsimp only [nativeOf] at hf
        split at hf
        · cases hf
        · rename_i hne
          cases hf
          obtain ⟨hrate, hbase⟩ := h.rate hne
          refine ⟨hne, hrate, ?_⟩
          rwa [if_pos (by dsimp only; omega)]
    · obtain rfl := mem_singleton.mp hx
      refine GlLine.lineError_eq_none (Nat.succ_ne_zero _) ⟨le_rfl, hlimit₀⟩
        ⟨hpos.le, hle.trans hlimit⟩ ?_ ?_
      · dsimp only
        omega
      · intro f hf
        dsimp only [nativeOf] at hf
        split at hf
        · cases hf
        · rename_i hne
          cases hf
          refine ⟨hne, by norm_num, ?_⟩
          rw [rateValue_million, base_one hpos.le (hle.trans hlimit)]
          simp
  · unfold gainLines at hx
    split at hx
    · cases hx
    · rename_i hne
      obtain rfl := mem_singleton.mp hx
      refine GlLine.lineError_eq_none (Nat.succ_ne_zero _) ⟨le_rfl, hlimit₀⟩ ⟨?_, ?_⟩ ?_ ?_
      · dsimp only
        omega
      · dsimp only
        omega
      · dsimp only
        omega
      · intro f hf
        cases hf

theorem exists_useLines (hformed : Formed i) (h : Carries i amount.val source) :
    ∃ accepted, normalizeLines (useLines i amount.val source ++ gainLines i (source - amount.val)) =
      .ok accepted := by
  have hdebit : ((useLines i amount.val source ++ gainLines i (source - amount.val)).map GlLine.debit).sum =
      source := by
    unfold gainLines
    split <;> simp [useLines]
  have hcredit : ((useLines i amount.val source ++ gainLines i (source - amount.val)).map GlLine.credit).sum =
      source := by
    unfold gainLines
    split
    · simp [useLines]
      omega
    · simp [useLines]
  refine exists_normalizeLines (by simp [useLines]) (lineError_useLines hformed h) ?_ ?_ ?_
  · rw [hdebit]
    exact amount.property.1.trans_le h.le
  · rw [hdebit, hcredit]
  · rw [hcredit]
    exact h.limit

theorem post_hosting (day folioId : ℕ) (hformed : Formed i) (h : Carries i amount.val source)
    (members : List Member) (hentries : ∀ e ∈ s.entries, e.id ≠ .settlement requestId) : ∃ entries,
    ({ s with hotel := { openHotel i day folioId amount.val with members := members } } :
      InstrumentStore).post (.settlement requestId)
        (useLines i amount.val source ++ gainLines i (source - amount.val)) none =
      .ok { s with
        hotel := { openHotel i day folioId amount.val with members := members }, entries := entries } := by
  obtain ⟨accepted, haccepted⟩ := exists_useLines hformed h
  have hactive : ∀ x ∈ useLines i amount.val source ++ gainLines i (source - amount.val),
      ((openHotel i day folioId amount.val).accounts.get? x.account).any Ledger.Account.active = true := by
    intro x hx
    have hcode : x.account = i.account ∨ x.account = i.account + 1 ∨ x.account = i.account + 2 := by
      unfold useLines gainLines at hx
      split at hx <;> simp at hx <;> grind
    obtain hx | hx | hx := hcode <;> simp [hx, openHotel, Collection.get?, Collection.findOne]
  obtain ⟨entries, hins⟩ := exists_insertOne
    (r := ({ id := .settlement requestId, lines := accepted } : GlEntry)) hentries
  refine ⟨entries, bind_eq_ok.mpr ⟨accepted, by rw [haccepted]; rfl, ?_⟩⟩
  refine refuse_bind_eq_ok.mpr ⟨by simp [openHotel], refuse_bind_eq_ok.mpr ⟨?_, ?_⟩⟩
  · exact not_not.mpr (all_eq_true.mpr hactive)
  · dsimp only
    rw [hins]

end Entry

def EntryId.number : EntryId → ℕ
  | .posted n => n
  | .settlement n => n

/-- A number that no document has yet. -/
theorem exists_fresh (s : InstrumentStore) : ∃ n : ℕ, (∀ op ∈ s.operations, op.id ≠ n) ∧
    (∀ p ∈ s.payments, p.id ≠ n ∧ p.folioId ≠ n) ∧ ∀ e ∈ s.entries, e.id ≠ .settlement n := by
  obtain ⟨n, hn⟩ := Infinite.exists_notMem_finset (s.operations.rows.map InstrumentOperation.id ++
    s.payments.rows.map InstrumentPayment.id ++ s.payments.rows.map InstrumentPayment.folioId ++
    s.entries.rows.map fun e => e.id.number).toFinset
  simp only [mem_toFinset, mem_append, mem_map, not_or, not_exists, not_and] at hn
  obtain ⟨⟨⟨hops, hpayments⟩, hfolios⟩, hentries⟩ := hn
  exact ⟨n, hops, fun p hp => ⟨hpayments p hp, hfolios p hp⟩,
    fun e he hid => hentries e he (by rw [hid, EntryId.number])⟩

/-! ### The application -/

theorem exists_pay {p : InstrumentPayment} (h : ∀ p' ∈ s.payments, p'.id ≠ p.id) :
    ∃ s', s.pay p = .ok s' := by
  obtain ⟨payments, hins⟩ := exists_insertOne h
  exact ⟨_, by rw [InstrumentStore.pay, hins]⟩

theorem exists_record {op : InstrumentOperation} (h : ∀ op' ∈ s.operations, op'.id ≠ op.id) :
    ∃ s', s.record op = .ok s' := by
  obtain ⟨operations, hins⟩ := exists_insertOne h
  exact ⟨_, by rw [InstrumentStore.record, hins]⟩

theorem exists_bind {ε α β : Type*} {x : Except ε α} {g : α → Except ε β} (hx : ∃ a, x = .ok a)
    (hg : ∀ a, x = .ok a → ∃ b, g a = .ok b) : ∃ b, x.bind g = .ok b :=
  let ⟨a, ha⟩ := hx
  let ⟨b, hb⟩ := hg a ha
  ⟨b, bind_eq_ok.mpr ⟨a, ha, hb⟩⟩

theorem exists_bind_ok {ε α β : Type*} {x : Except ε α} {g : α → Except ε β} {a : α} (hx : x = .ok a)
    (hg : ∃ b, g a = .ok b) : ∃ b, x.bind g = .ok b :=
  let ⟨b, hb⟩ := hg
  ⟨b, bind_eq_ok.mpr ⟨a, hx, hb⟩⟩

theorem exists_refuse_bind_ok {ε β : Type*} {c : Prop} [Decidable c] {e : ε} {g : Unit → Except ε β}
    (hc : ¬ c) (hg : ∃ b, g () = .ok b) : ∃ b, (refuse c e).bind g = .ok b :=
  let ⟨b, hb⟩ := hg
  ⟨b, refuse_bind_eq_ok.mpr ⟨hc, hb⟩⟩

def CanApply (s : InstrumentStore) (i : Instrument) (day : ℕ) : Prop :=
  ∃ hotel b, hotel.businessDate = some day ∧ (∀ op ∈ s.operations, op.id ≠ b.requestId) ∧
    ∃ answer, ({ s with hotel := hotel } : InstrumentStore).apply i.id b = .ok answer

theorem Accounted.canApply (h : Accounted s) (hi : i ∈ s.instruments) (hpos : 0 < i.remaining)
    (hreturned : i.status ≠ .returned) (hpar : i.AtPar) (hstands : i.Stands s) {day : ℕ}
    (hday : i.UsableOn day) : CanApply s i day := by
  have hformed := h.formed i hi
  have hcounted := h.counted i hi
  obtain ⟨n, hops, hpayments, hentries⟩ := exists_fresh s
  let amount : AmountMinor := ⟨i.useAmount, useAmount_pos hpos,
    (useAmount_le i).trans (h.remaining_le hi)⟩
  have hle : amount.val ≤ i.remaining := useAmount_le i
  have hcheque : i.kind = .chequePendingClearance → amount.val = i.remaining := by
    intro hk
    exact if_neg fun hn => hn.2 (hformed.cheque hk)
  have hpoints : ∀ v, i.pointValue = some v → v.val ∣ amount.val := by
    intro v hv
    have hkind : i.kind = .loyaltyRedemption := by
      have := hformed.loyalty
      rw [hv] at this
      exact beq_iff_eq.mp this.symm
    have hunfunded : i.funding.isSome = false := by
      rw [hformed.funded, hkind]
      rfl
    have hwhole : amount.val = i.remaining := if_neg fun hn => by simp [hunfunded] at hn
    rw [hwhole]
    exact hcounted.points v hv
  have hstatus : i.status = if i.kind = .chequePendingClearance then .pending else .active := by
    obtain ⟨hactive, hk⟩ | ⟨hk, hpending | hret⟩ := hcounted.status hpos
    · rw [if_neg hk, hactive]
    · rw [if_pos hk, hpending]
    · exact absurd hret hreturned
  obtain ⟨source, hsource, hcarries⟩ := h.sourceBase hi hpos hpar hstands
  have hpaid : base (useOf i n n amount).amount.val (rateValue (useOf i n n amount).rateToTry.val) =
      amount.val := by
    have hone : rateValue (useOf i n n amount).rateToTry.val = 1 := rateValue_million
    rw [hone]
    exact base_one amount.property.1.le (amount.property.2.trans (by decide))
  obtain ⟨members, points, htake⟩ := takePoints_hosting s day n hformed hpoints
  have hcarries : Carries i amount.val source := hcarries
  obtain ⟨entries, hpost⟩ := post_hosting day n hformed hcarries members hentries
  have hget : s.instruments.get? i.id = some i := get?_eq_some.mpr ⟨hi, rfl⟩
  have hreplay : (s.hosting i day n amount.val).replay n (.apply i.id (useOf i n n amount)) = none :=
    Option.map_eq_none_iff.mpr (get?_eq_none.mpr hops)
  refine ⟨openHotel i day n amount.val, useOf i n n amount, rfl, hops, ?_⟩
  unfold InstrumentStore.apply
  rw [show (useOf i n n amount).requestId = n from rfl, hreplay, hget]
  dsimp only
  refine exists_bind_ok (admit_hosting hstatus hle hcheque hday) ?_
  refine exists_bind_ok (folioFor_hosting hformed.cent fun p hp => (hpayments p hp).2) ?_
  refine exists_bind_ok receivable_hosting ?_
  dsimp only
  rw [hpaid]
  refine exists_refuse_bind_ok (not_le.mpr amount.property.1) ?_
  refine exists_bind_ok hsource (exists_bind_ok htake ?_)
  refine exists_bind_ok (nativeLines_useOf hcarries) ?_
  refine exists_bind_ok (exchangeLines_hosting hcarries members) ?_
  refine exists_bind_ok hpost ?_
  refine exists_refuse_bind_ok (by simp [openHotel]) ?_
  refine exists_bind (exists_pay fun p hp => (hpayments p hp).1) fun t ht => ?_
  obtain ⟨payments, rfl⟩ := pay_ok ht
  exact exists_bind (exists_record hops) fun t _ => ⟨_, rfl⟩

/-! ### Conservation of value -/

structure ValueConserved (s : InstrumentStore) : Prop where
  /-- The issued amount is what remains and what unreversed applications took. -/
  amounts : ∀ i ∈ s.instruments, 0 ≤ i.remaining ∧
    i.issued = i.remaining + s.unreversed Application.amount i.id
  /-- So is the issued base, and no base stays without an amount. -/
  bases : ∀ i ∈ s.instruments, ∀ f, i.funding = some f → 0 ≤ f.remainingBase ∧
    f.issuedBase = f.remainingBase + s.unreversed Application.sourceBase i.id ∧
    (i.remaining = 0 → f.remainingBase = 0)
  /-- The instruments drawn on an entry have no more than its amount and credit, and with the
  amount they have the credit. -/
  fundings : ∀ i ∈ s.instruments, ∀ f, i.funding = some f → ∃ e nominal,
    s.entries.get? f.entryId = some e ∧ e.nominalIn i.account i.currency = some nominal ∧
    s.allocated f.entryId i.account ≤ nominal ∧
    s.baseAllocated f.entryId i.account ≤ e.creditOn i.account ∧
    (s.allocated f.entryId i.account = nominal →
      s.baseAllocated f.entryId i.account = e.creditOn i.account)
  /-- What remains can be applied on every day of use. -/
  usable : ∀ i ∈ s.instruments, 0 < i.remaining → i.status ≠ .returned → i.AtPar → i.Stands s →
    ∀ day, i.UsableOn day → CanApply s i day

theorem instruments_conserve_value (h : settlementInstruments.Reachable s) : ValueConserved s := by
  have hs := reachable_conserved h
  refine ⟨fun i hi => ?_, fun i hi f hf => ?_, fun i hi f hf => ?_, fun i hi hpos hret hpar hstands day hday =>
    hs.canApply hi hpos hret hpar hstands hday⟩
  · exact ⟨(hs.counted i hi).nonneg, (hs.counted i hi).split⟩
  · have hbase := (hs.counted i hi).base f hf
    exact ⟨hbase.nonneg, hbase.split, hbase.exhausted⟩
  · obtain ⟨e, nominal, hdrawn⟩ := hs.drawn i hi f hf
    have hnonneg := hs.allocated_nonneg f.entryId i.account
    have hcredit := e.creditOn_nonneg i.account
    have hlimit := e.creditOn_le i.account
    refine ⟨e, nominal, hdrawn.entry, hdrawn.native, hdrawn.within, ?_, fun hfull => ?_⟩
    · rw [hdrawn.share]
      exact cumulativeBase_le hnonneg hdrawn.within hdrawn.pos hcredit hlimit
    · rw [hdrawn.share, hfull]
      exact cumulativeBase_full hdrawn.pos hcredit hlimit

/-- A returned instrument takes no further application. -/
theorem not_canApply (hi : i ∈ s.instruments) (hreturned : i.status = .returned) (day : ℕ) :
    ¬ CanApply s i day := by
  rintro ⟨hotel, b, -, hops, answer, happly⟩
  have hget : s.instruments.get? i.id = some i := get?_eq_some.mpr ⟨hi, rfl⟩
  have hreplay : ({ s with hotel := hotel } : InstrumentStore).replay b.requestId (.apply i.id b) = none :=
    Option.map_eq_none_iff.mpr (get?_eq_none.mpr hops)
  unfold InstrumentStore.apply at happly
  rw [hreplay, hget] at happly
  obtain ⟨x, hadmit, -⟩ := bind_eq_ok.mp happly
  obtain ⟨hstatus, -⟩ := admitUse_ok hadmit
  rw [hreturned] at hstatus
  split at hstatus <;> cases hstatus

/-! ### A card and a cheque -/

def frontDesk (c : Currency) : Hotel where
  bookings := [⟨1, .confirmed, .code c, none⟩]
  folios := [{ id := 1, bookingId := 1, isOpen := true, currency := .code c, postings := [(c, 5000)] }]
  businessDate := some 10
  activeShift := some 1
  accounts := ⟨[⟨102, .asset, true⟩, ⟨120, .asset, true⟩, ⟨336, .liability, true⟩, ⟨646, .revenue, true⟩],
    by decide⟩
  mapping := some ⟨true, some 120, some 102⟩
  members := []
  postingOpen := true
  altered := []

def noInstruments (c : Currency) : InstrumentStore :=
  ⟨frontDesk c, .empty, .empty, .empty, .empty⟩

def threeUnits : GlEntry where
  id := .posted 1
  lines := ⟨[{ account := 336, credit := 100, foreign := some ⟨.USD, 3, 33333333⟩ }], by decide, by decide⟩

def cardIssue : Issue where
  requestId := 1
  bookingId := 1
  kind := .giftCardRedemption
  currency := .USD
  amount := ⟨3, by decide⟩
  account := 336
  fundingEntryId := some (.posted 1)
  reference := "card"
  reason := "gift"
  valid := by decide

theorem fifty_bounds : (0 : ℤ) < 5000 ∧ (5000 : ℤ) ≤ 100000000000 := by decide

def chequeIssue : Issue where
  requestId := 1
  bookingId := 1
  kind := .chequePendingClearance
  currency := .TRY
  amount := ⟨5000, fifty_bounds⟩
  account := 102
  dueOn := some 10
  reference := "cheque"
  reason := "due"
  valid := by decide

def payment (requestId : ℕ) (amount : AmountMinor) : Apply where
  requestId := requestId
  bookingId := 1
  folioId := 1
  amount := amount
  rateToTry := ⟨1000000, by norm_num⟩
  rateReference := "rate"
  fxGainAccount := some 646
  reference := "slip"
  reason := "pay"

def undo (requestId : ℕ) : Reverse := ⟨requestId, 1, "slip", "undo"⟩

/-- A card of three units, one applied, one applied and given back. -/
def cardRun : List InstrumentStep :=
  [.post threeUnits, .request (.issue cardIssue), .request (.apply 1 (payment 2 ⟨1, by decide⟩)),
    .request (.apply 1 (payment 3 ⟨1, by decide⟩)), .request (.reverse 2 (undo 4))]

def chequeRun : List InstrumentStep :=
  [.request (.issue chequeIssue), .request (.apply 1 (payment 2 ⟨5000, fifty_bounds⟩)), .request (.reverse 2 (undo 3))]

theorem instruments_conserve_value_card : ∃ s, settlementInstruments.Reachable s ∧
    (s.instruments.rows.map fun i => (i.issued, i.remaining, i.issuedBase)) = [(3, 2, 100)] ∧
    ValueConserved s := by
  obtain ⟨s, hs, hv⟩ := Machine.exists_reachable_of_run (M := settlementInstruments)
    (s := noInstruments .USD) (f := fun s => s.instruments.rows.map fun i => (i.issued, i.remaining, i.issuedBase))
    (v := [(3, 2, 100)]) cardRun ⟨rfl, rfl, rfl⟩ (by decide +kernel)
  exact ⟨s, hs, hv, instruments_conserve_value hs⟩

/-- A cheque that was returned has its amount, and is applied on no day. -/
theorem returned_cheque_stays : ¬ ∀ s, settlementInstruments.Reachable s →
    ∀ i ∈ s.instruments, 0 < i.remaining → ∃ day, CanApply s i day := by
  intro hall
  obtain ⟨s, hs, hv⟩ := Machine.exists_reachable_of_run (M := settlementInstruments)
    (s := noInstruments .TRY) (f := fun s => s.instruments.rows.map fun i => (i.remaining, i.status))
    (v := [(5000, .returned)]) chequeRun ⟨rfl, rfl, rfl⟩ (by decide +kernel)
  have hmem : ((5000, .returned) : ℤ × InstrumentStatus) ∈
      s.instruments.rows.map fun i => (i.remaining, i.status) := by
    rw [hv]
    exact mem_singleton_self _
  obtain ⟨i, hi, heq⟩ := mem_map.mp hmem
  obtain ⟨hremaining, hstatus⟩ := Prod.mk.inj heq
  obtain ⟨day, hcan⟩ := hall s hs i hi (by rw [hremaining]; norm_num)
  exact not_canApply hi hstatus day hcan

end SyrocePms.Billing
