import SyrocePms.Billing.SecurityFunds

/-! What the security funds conserve. A request that is accepted either leaves the store as
it is, because it was settled before, or writes its operation, its counters and its cash or
payment together. -/

namespace SyrocePms.Billing

open Lib List Collection

namespace FundStore

def cashOf (s : FundStore) (d : Direction) (id : ℕ) : ℤ :=
  ((s.cash.filter fun c => c.direction == d && c.fundId == some id).map CashMovement.amount).sum

def paidFrom (s : FundStore) (id : ℕ) : ℤ :=
  ((s.payments.rows.filter fun p => p.fundId == id).map FundPayment.amount).sum

end FundStore

/-! ### What an accepted request did -/

variable {s s' : FundStore}
variable {f r : Fund} {key : OperationKey} {amount : ℤ} {d : Direction} {op : Operation}
  {body : Movement} {fundId : ℕ} {c : CashMovement} {q : FundRequest} {a : FundStep} {t : FundStore}

/-- What `_cash` leaves: a movement for a fund of lira cash, unless the shift has its key,
and nothing for other funds. -/
def CashMoved (s : FundStore) (f : Fund) (key : OperationKey) (amount : ℤ) (d : Direction)
    (cash : List CashMovement) : Prop :=
  (f.method ≠ .cash ∧ cash = s.cash) ∨
    (f.method = .cash ∧ f.currency = .TRY ∧
      ((cash = s.cash ∧ ∃ c ∈ s.cash, c.key = .operation key) ∨
        ∃ shift, cash = s.cash ++ [⟨shift, .operation key, d, amount, some f.id⟩]))

theorem moveCash_ok (h : s.moveCash f key amount d = .ok s') :
    s' = { s with cash := s'.cash } ∧ CashMoved s f key amount d s'.cash := by
  unfold FundStore.moveCash at h
  split at h
  · rename_i hm
    split at h
    · cases h
    · rename_i hc
      unfold FundStore.recordCash at h
      split at h
      · cases h
      · rename_i shift hshift
        split at h
        · rename_i hkey
          cases h
          obtain ⟨c, hc', hck⟩ := any_eq_true.mp hkey
          refine ⟨rfl, .inr ⟨hm, not_not.mp hc, .inl ⟨rfl, c, hc', ?_⟩⟩⟩
          simpa using (Bool.and_eq_true_iff.mp hck).2
        · cases h
          exact ⟨rfl, .inr ⟨hm, not_not.mp hc, .inr ⟨shift, rfl⟩⟩⟩
  · rename_i hm
    cases h
    exact ⟨rfl, .inl ⟨by simp [hm], rfl⟩⟩
  · rename_i hm
    cases h
    exact ⟨rfl, .inl ⟨by simp [hm], rfl⟩⟩

theorem insertFund_ok (h : s.insertFund f = .ok s') :
    ∃ funds, s.funds.insertOne f = some funds ∧ s' = { s with funds := funds } := by
  unfold FundStore.insertFund at h
  split at h
  · cases h
  · cases h
    exact ⟨_, by assumption, rfl⟩

theorem evidence_ok (h : s.evidence op = .ok s') :
    ∃ operations, s.operations.insertOne op = some operations ∧
      s' = { s with operations := operations } := by
  unfold FundStore.evidence at h
  split at h
  · cases h
  · cases h
    exact ⟨_, by assumption, rfl⟩

def Settled (s : FundStore) : FundRequest → Prop
  | .receive body => (∃ op ∈ s.operations, op.key = .fund body.requestId) ∨
      ∃ f ∈ s.funds, f.bookingId = body.bookingId ∧ f.method = body.method ∧
        f.currency = body.currency ∧ f.reference = body.reference
  | .move fundId body => (∃ op ∈ s.operations, op.key = .move body.requestId) ∨
      ∃ op ∈ s.operations, op.fundId = fundId ∧ op.action = .moved body.action ∧
        op.reference = body.reference

structure Received (s : FundStore) (body : Receipt) (s' : FundStore) (f : Fund) : Prop where
  unsettled : ¬ Settled s (.receive body)
  new : ∃ day, f = FundStore.newFund body day
  funds : s.funds.insertOne f = some s'.funds
  operations : s.operations.insertOne (FundStore.receiptOperation body f) = some s'.operations
  payments : s'.payments = s.payments
  cash : CashMoved s f (.fund body.requestId) body.amount.val .inn s'.cash

/-- A movement that was recorded, of the fund `f`. -/
structure Moved (s : FundStore) (fundId : ℕ) (body : Movement) (s' : FundStore) (f : Fund) :
    Prop where
  unsettled : ¬ Settled s (.move fundId body)
  found : s.funds.get? fundId = some f
  enough : body.amount.val ≤ f.remaining
  funds : s'.funds = s.funds.update fundId (FundStore.moved · body) fun f => FundStore.moved_id body f
  operations : ∃ day, s.operations.insertOne
    (FundStore.movementOperation fundId body (FundStore.moved f body) day) = some s'.operations
  settled : (body.action = .apply ∧ s'.cash = s.cash ∧ ∃ p : FundPayment, p.fundId = f.id ∧
      p.amount = body.amount.val ∧ s.payments.insertOne p = some s'.payments) ∨
    (body.action = .refund ∧ s'.payments = s.payments ∧
      CashMoved s f (.move body.requestId) body.amount.val .out s'.cash)

theorem receive_ok {body : Receipt} (h : s.receive body = .ok (s', f)) :
    (s' = s ∧ Settled s (.receive body)) ∨ Received s body s' f := by
  unfold FundStore.receive at h
  split at h
  · rename_i answer hr
    obtain ⟨op, hop, rfl⟩ := Option.map_eq_some_iff.mp hr
    have hsame : s' = s := by
      split at h <;> cases h
      rfl
    obtain ⟨hmem, hkey⟩ := get?_eq_some.mp hop
    exact .inl ⟨hsame, .inl ⟨op, hmem, hkey⟩⟩
  · rename_i hr
    have hkey := get?_eq_none.mp (Option.map_eq_none_iff.mp hr)
    split at h
    · rename_i x hx
      split at h
      · cases h
      · cases h
        obtain ⟨hmem, hsame⟩ := mem_of_findOne hx
        exact .inl ⟨rfl, .inr ⟨_, hmem, of_decide_eq_true hsame⟩⟩
    · rename_i hdup
      have hnone := findOne_eq_none.mp hdup
      have hunsettled : ¬ Settled s (.receive body) := by
        rintro (⟨op, hop, hk⟩ | ⟨x, hx, hsame⟩)
        · exact hkey op hop hk
        · exact hnone x hx (decide_eq_true hsame)
      obtain ⟨day, hday, h⟩ := bind_eq_ok.mp h
      obtain ⟨s₁, hcash, h⟩ := bind_eq_ok.mp h
      obtain ⟨s₂, hfund, h⟩ := bind_eq_ok.mp h
      obtain ⟨s₃, hevidence, h⟩ := bind_eq_ok.mp h
      cases h
      obtain ⟨hs₁, hmoved⟩ := moveCash_ok hcash
      obtain ⟨funds, hins, rfl⟩ := insertFund_ok hfund
      obtain ⟨operations, hop, rfl⟩ := evidence_ok hevidence
      rw [hs₁] at hins hop
      exact .inr ⟨hunsettled, ⟨day, rfl⟩, hins, hop, by rw [hs₁], hmoved⟩

theorem applyToFolio_ok {day : ℕ} (h : s.applyToFolio f body day = .ok s') :
    s'.funds = s.funds ∧ s'.operations = s.operations ∧ s'.cash = s.cash ∧
      ∃ p : FundPayment, p.fundId = f.id ∧ p.amount = body.amount.val ∧
        s.payments.insertOne p = some s'.payments := by
  unfold FundStore.applyToFolio at h
  split at h
  · cases h
  · split at h
    · cases h
    · split at h
      · cases h
      · split at h
        · cases h
        · split at h
          · cases h
          · dsimp only at h
            split at h
            · cases h
            · split at h
              · cases h
              · cases h
                exact ⟨rfl, rfl, rfl, _, rfl, rfl, by assumption⟩

theorem move_ok (h : s.move fundId body = .ok (s', r)) : (s' = s ∧ Settled s (.move fundId body)) ∨
      ∃ f, r = FundStore.moved f body ∧ Moved s fundId body s' f := by
  unfold FundStore.move at h
  split at h
  · rename_i answer hr
    obtain ⟨op, hop, rfl⟩ := Option.map_eq_some_iff.mp hr
    have hsame : s' = s := by
      split at h <;> cases h
      rfl
    obtain ⟨hmem, hkey⟩ := get?_eq_some.mp hop
    exact .inl ⟨hsame, .inl ⟨op, hmem, hkey⟩⟩
  · rename_i hr
    have hkey := get?_eq_none.mp (Option.map_eq_none_iff.mp hr)
    split at h
    · cases h
    · rename_i f hf
      split at h
      · rename_i op hop
        split at h
        · cases h
        · cases h
          obtain ⟨hmem, hsame⟩ := mem_of_findOne hop
          exact .inl ⟨rfl, .inr ⟨op, hmem, of_decide_eq_true hsame⟩⟩
      · rename_i hprevious
        have hnone := findOne_eq_none.mp hprevious
        have hunsettled : ¬ Settled s (.move fundId body) := by
          rintro (⟨op, hop, hk⟩ | ⟨op, hop, hsame⟩)
          · exact hkey op hop hk
          · exact hnone op hop (decide_eq_true hsame)
        split at h
        · cases h
        · rename_i henough
          split at h
          · cases h
          · rename_i day hday
            obtain ⟨s₁, hsettle, h⟩ := bind_eq_ok.mp h
            obtain ⟨s₂, hevidence, h⟩ := bind_eq_ok.mp h
            cases h
            obtain ⟨operations, hop, rfl⟩ := evidence_ok hevidence
            refine .inr ⟨f, rfl, ?_⟩
            unfold FundStore.settle at hsettle
            split at hsettle
            · rename_i haction
              obtain ⟨hfunds, hops, hcash, hpay⟩ := applyToFolio_ok hsettle
              rw [hops] at hop
              exact ⟨hunsettled, hf, Int.not_lt.mp henough, by rw [hfunds], ⟨day, hop⟩, .inl ⟨haction, hcash, hpay⟩⟩
            · rename_i haction
              split at hsettle
              · cases hsettle
              · obtain ⟨hs₁, hmoved⟩ := moveCash_ok hsettle
                rw [hs₁] at hop
                exact ⟨hunsettled, hf, Int.not_lt.mp henough, by rw [hs₁], ⟨day, hop⟩,
                  .inr ⟨haction, by rw [hs₁], hmoved⟩⟩

/-! ### Conservation -/

/-- The money of the funds. Cash and payments belong to funds that are there, and cash
movements of an operation come with the operation. -/
structure Conserved (s : FundStore) : Prop where
  split : ∀ f ∈ s.funds, f.received = f.remaining + f.refunded + f.applied ∧ 0 ≤ f.remaining
  cashIn : ∀ f ∈ s.funds, s.cashOf .inn f.id = if f.method = .cash then f.received else 0
  cashOut : ∀ f ∈ s.funds, s.cashOf .out f.id = if f.method = .cash then f.refunded else 0
  paid : ∀ f ∈ s.funds, s.paidFrom f.id = f.applied
  keyed : ∀ c ∈ s.cash, ∀ k, c.key = .operation k → ∃ op ∈ s.operations, op.key = k
  cashed : ∀ c ∈ s.cash, ∀ id, c.fundId = some id → ∃ f ∈ s.funds, f.id = id
  payer : ∀ p ∈ s.payments, ∃ f ∈ s.funds, f.id = p.fundId

theorem cashOf_append (h : s'.cash = s.cash ++ [c]) (d : Direction) (id : ℕ) :
    s'.cashOf d id = s.cashOf d id +
      if c.direction = d ∧ c.fundId = some id then c.amount else 0 := by
  simp only [FundStore.cashOf, h, filter_append, map_append, sum_append,
    filter_cons, filter_nil, Bool.and_eq_true, beq_iff_eq]
  split <;> simp

theorem paidFrom_insert {p : FundPayment} (h : s.payments.insertOne p = some s'.payments) (id : ℕ) :
    s'.paidFrom id = s.paidFrom id + if p.fundId = id then p.amount else 0 := by
  simp only [FundStore.paidFrom, (insertOne_eq_some h).2, filter_append,
    map_append, sum_append, filter_cons, filter_nil, beq_iff_eq]
  split <;> simp

theorem Conserved.none_of_new (h : Conserved s) {id : ℕ} (hnew : ∀ f ∈ s.funds, f.id ≠ id) :
    (∀ d, s.cashOf d id = 0) ∧ s.paidFrom id = 0 := by
  constructor
  · intro d
    have hnil : s.cash.filter (fun c => c.direction == d && c.fundId == some id) = [] := by
      refine filter_eq_nil_iff.mpr fun c hc hd => ?_
      obtain ⟨f, hf, hid⟩ := h.cashed c hc id (by simpa using (Bool.and_eq_true_iff.mp hd).2)
      exact hnew f hf hid
    rw [FundStore.cashOf, hnil]
    rfl
  · have hnil : s.payments.rows.filter (fun p => p.fundId == id) = [] := by
      refine filter_eq_nil_iff.mpr fun p hp hid => ?_
      obtain ⟨f, hf, hfid⟩ := h.payer p hp
      exact hnew f hf (hfid.trans (by simpa using hid))
    rw [FundStore.paidFrom, hnil]
    rfl

theorem CashMoved.pushed (h : CashMoved s f key amount d s'.cash) (hs : Conserved s)
    (hnew : ∀ op ∈ s.operations, op.key ≠ key) : (f.method ≠ .cash ∧ s'.cash = s.cash) ∨
      (f.method = .cash ∧ ∃ shift, s'.cash = s.cash ++ [⟨shift, .operation key, d, amount, some f.id⟩]) := by
  obtain hother | ⟨hm, -, ⟨-, c, hc, hk⟩ | hpush⟩ := h
  · exact .inl hother
  · obtain ⟨op, hop, hkey⟩ := hs.keyed c hc key hk
    exact absurd hkey (hnew op hop)
  · exact .inr ⟨hm, hpush⟩

theorem CashMoved.cashOf (h : CashMoved s f key amount d s'.cash) (hs : Conserved s)
    (hnew : ∀ op ∈ s.operations, op.key ≠ key) (d' : Direction) (id : ℕ) :
    s'.cashOf d' id = s.cashOf d' id +
      if f.method = .cash ∧ d = d' ∧ f.id = id then amount else 0 := by
  obtain ⟨hm, hsame⟩ | ⟨hm, shift, hpush⟩ := h.pushed hs hnew
  · simp [FundStore.cashOf, hsame, hm]
  · rw [cashOf_append hpush]
    simp [hm]

theorem CashMoved.mem (h : CashMoved s f key amount d s'.cash) (hc : c ∈ s'.cash) :
    c ∈ s.cash ∨ (c.key = .operation key ∧ c.fundId = some f.id) := by
  obtain ⟨-, hsame⟩ | ⟨-, -, ⟨hsame, -⟩ | ⟨shift, hpush⟩⟩ := h
  · exact .inl (hsame ▸ hc)
  · exact .inl (hsame ▸ hc)
  · rw [hpush] at hc
    obtain hc | hc := mem_append.mp hc
    · exact .inl hc
    · rw [mem_singleton.mp hc]
      exact .inr ⟨rfl, rfl⟩

theorem Conserved.received {body : Receipt} (hs : Conserved s) (h : Received s body s' f) :
    Conserved s' := by
  obtain ⟨day, rfl⟩ := h.new
  obtain ⟨hfree, -⟩ := insertOne_eq_some h.funds
  obtain ⟨hfresh, -⟩ := insertOne_eq_some h.operations
  obtain ⟨hcash, hpaid⟩ := hs.none_of_new hfree
  have hmem (x : Fund) : x ∈ s'.funds ↔ x ∈ s.funds ∨ x = FundStore.newFund body day :=
    mem_insertOne h.funds
  have hop (x : Operation) (hx : x ∈ s.operations) : x ∈ s'.operations :=
    (mem_insertOne h.operations).mpr (.inl hx)
  have hpos := body.amount.pos
  have hsum (d : Direction) (id : ℕ) := h.cash.cashOf hs hfresh d id
  have hpay (id : ℕ) : s'.paidFrom id = s.paidFrom id := by rw [FundStore.paidFrom, h.payments]; rfl
  have hold (x : Fund) (hx : x ∈ s.funds) : body.requestId ≠ x.id := fun he => hfree x hx he.symm
  refine ⟨fun x hx => ?_, fun x hx => ?_, fun x hx => ?_, fun x hx => ?_, fun c hc k hk => ?_,
    fun c hc id hid => ?_, fun p hp => ?_⟩
  · obtain hx | rfl := (hmem x).mp hx
    · exact hs.split x hx
    · simp only [FundStore.newFund]
      omega
  · rw [hsum]
    obtain hx | rfl := (hmem x).mp hx
    · rw [hs.cashIn x hx]
      simp [FundStore.newFund, hold x hx]
    · rw [hcash]
      by_cases hm : body.method = .cash <;> simp [FundStore.newFund, hm]
  · rw [hsum]
    obtain hx | rfl := (hmem x).mp hx
    · rw [hs.cashOut x hx]
      simp
    · rw [hcash]
      by_cases hm : body.method = .cash <;> simp [FundStore.newFund, hm]
  · rw [hpay]
    obtain hx | rfl := (hmem x).mp hx
    · exact hs.paid x hx
    · rw [hpaid]
      rfl
  · obtain hc | ⟨hkey, -⟩ := h.cash.mem hc
    · obtain ⟨op, hmem', heq⟩ := hs.keyed c hc k hk
      exact ⟨op, hop op hmem', heq⟩
    · rw [hkey, CashKey.operation.injEq] at hk
      exact ⟨_, (mem_insertOne h.operations).mpr (.inr rfl), hk⟩
  · obtain hc | ⟨-, hfund⟩ := h.cash.mem hc
    · obtain ⟨x, hx, heq⟩ := hs.cashed c hc id hid
      exact ⟨x, (hmem x).mpr (.inl hx), heq⟩
    · rw [hfund, Option.some.injEq] at hid
      exact ⟨_, (hmem _).mpr (.inr rfl), hid⟩
  · rw [h.payments] at hp
    obtain ⟨x, hx, heq⟩ := hs.payer p hp
    exact ⟨x, (hmem x).mpr (.inl hx), heq⟩

theorem moved_counters (body : Movement) (f : Fund) :
    (FundStore.moved f body).received = f.received ∧
      (FundStore.moved f body).method = f.method ∧
      (FundStore.moved f body).remaining = f.remaining - body.amount.val ∧
      (FundStore.moved f body).refunded =
        f.refunded + (if body.action = .refund then body.amount.val else 0) ∧
      (FundStore.moved f body).applied =
        f.applied + if body.action = .apply then body.amount.val else 0 :=
  ⟨rfl, rfl, rfl, rfl, rfl⟩

theorem Conserved.moved (hs : Conserved s) (h : Moved s fundId body s' f) : Conserved s' := by
  obtain ⟨day, hoperations⟩ := h.operations
  obtain ⟨hfresh, -⟩ := insertOne_eq_some hoperations
  obtain ⟨hf, hid⟩ := get?_eq_some.mp h.found
  have hop (x : Operation) (hx : x ∈ s.operations) : x ∈ s'.operations :=
    (mem_insertOne hoperations).mpr (.inl hx)
  have hmem (x : Fund) (hx : x ∈ s'.funds) :
      (x ∈ s.funds ∧ x.id ≠ fundId) ∨ x = FundStore.moved f body := by
    rw [h.funds, mem_update] at hx
    obtain hx | ⟨r, hr, hrid, rfl⟩ := hx
    · exact .inl hx
    · rw [eq_of_key hr hf (hrid.trans hid.symm)]
      exact .inr rfl
  have hkept (x : Fund) (hx : x ∈ s.funds) : ∃ y ∈ s'.funds, y.id = x.id := by
    rw [h.funds]
    by_cases hxid : x.id = fundId
    · exact ⟨_, mem_update.mpr (.inr ⟨x, hx, hxid, rfl⟩), rfl⟩
    · exact ⟨x, mem_update.mpr (.inl ⟨hx, hxid⟩), rfl⟩
  -- what the movement adds to the cash that went out and to the payments of each fund
  have hout (id : ℕ) : s'.cashOf .out id = s.cashOf .out id +
      if f.method = .cash ∧ body.action = .refund ∧ f.id = id then body.amount.val else 0 := by
    obtain ⟨haction, hcash, -⟩ | ⟨haction, -, hcash⟩ := h.settled
    · simp [FundStore.cashOf, hcash, haction]
    · rw [hcash.cashOf hs hfresh]
      simp [haction]
  have hin (id : ℕ) : s'.cashOf .inn id = s.cashOf .inn id := by
    obtain ⟨-, hcash, -⟩ | ⟨-, -, hcash⟩ := h.settled
    · simp [FundStore.cashOf, hcash]
    · rw [hcash.cashOf hs hfresh]
      simp
  have hpay (id : ℕ) : s'.paidFrom id = s.paidFrom id +
      if body.action = .apply ∧ f.id = id then body.amount.val else 0 := by
    obtain ⟨haction, -, p, hpf, hpa, hins⟩ | ⟨haction, hsame, -⟩ := h.settled
    · rw [paidFrom_insert hins, hpf, hpa]
      simp [haction]
    · rw [FundStore.paidFrom, hsame, haction]
      simp [FundStore.paidFrom]
  obtain ⟨hreceived, hmethod, hremaining, hrefunded, happlied⟩ := moved_counters body f
  have hmid : (FundStore.moved f body).id = f.id := rfl
  refine ⟨fun x hx => ?_, fun x hx => ?_, fun x hx => ?_, fun x hx => ?_, fun c hc k hk => ?_,
    fun c hc id hcid => ?_, fun p hp => ?_⟩
  · obtain ⟨hx, -⟩ | rfl := hmem x hx
    · exact hs.split x hx
    · obtain ⟨hsplit, -⟩ := hs.split f hf
      have henough := h.enough
      rw [hreceived, hremaining, hrefunded, happlied]
      cases body.action <;> simp <;> omega
  · rw [hin]
    obtain ⟨hx, -⟩ | rfl := hmem x hx
    · exact hs.cashIn x hx
    · rw [hmid, hmethod, hreceived]
      exact hs.cashIn f hf
  · rw [hout]
    obtain ⟨hx, hne⟩ | rfl := hmem x hx
    · have hother : f.id ≠ x.id := fun he => hne (he.symm.trans hid)
      rw [hs.cashOut x hx]
      simp [hother]
    · rw [hmid, hmethod, hrefunded, hs.cashOut f hf]
      by_cases hm : f.method = .cash <;> simp [hm]
  · rw [hpay]
    obtain ⟨hx, hne⟩ | rfl := hmem x hx
    · have hother : f.id ≠ x.id := fun he => hne (he.symm.trans hid)
      rw [hs.paid x hx]
      simp [hother]
    · rw [hmid, happlied, hs.paid f hf]
      simp
  · have hold (hc : c ∈ s.cash) : ∃ op ∈ s'.operations, op.key = k := by
      obtain ⟨op, hmem', heq⟩ := hs.keyed c hc k hk
      exact ⟨op, hop op hmem', heq⟩
    obtain ⟨-, hcash, -⟩ | ⟨-, -, hcash⟩ := h.settled
    · exact hold (hcash ▸ hc)
    · obtain hc | ⟨hkey, -⟩ := hcash.mem hc
      · exact hold hc
      · rw [hkey, CashKey.operation.injEq] at hk
        exact ⟨_, (mem_insertOne hoperations).mpr (.inr rfl), hk⟩
  · have hold (hc : c ∈ s.cash) : ∃ y ∈ s'.funds, y.id = id := by
      obtain ⟨x, hx, rfl⟩ := hs.cashed c hc id hcid
      exact hkept x hx
    obtain ⟨-, hcash, -⟩ | ⟨-, -, hcash⟩ := h.settled
    · exact hold (hcash ▸ hc)
    · obtain hc | ⟨-, hfund⟩ := hcash.mem hc
      · exact hold hc
      · rw [hfund, Option.some.injEq] at hcid
        rw [← hcid]
        exact hkept f hf
  · have hold (hp : p ∈ s.payments) : ∃ y ∈ s'.funds, y.id = p.fundId := by
      obtain ⟨x, hx, hxp⟩ := hs.payer p hp
      rw [← hxp]
      exact hkept x hx
    obtain ⟨-, -, q, hqf, -, hins⟩ | ⟨-, hsame, -⟩ := h.settled
    · obtain hp | rfl := (mem_insertOne hins).mp hp
      · exact hold hp
      · rw [hqf]
        exact hkept f hf
    · exact hold (hsame ▸ hp)

/-! ### Settled requests -/

theorem run_ok (h : q.run s = .ok (s', r)) :
    (s' = s ∧ Settled s q) ∨ (∃ body, q = .receive body ∧ Received s body s' r) ∨
      ∃ fundId body f, q = .move fundId body ∧ r = FundStore.moved f body ∧ Moved s fundId body s' f := by
  cases q with
  | receive body =>
    obtain hsame | hnew := receive_ok h
    · exact .inl hsame
    · exact .inr (.inl ⟨body, rfl, hnew⟩)
  | move fundId body =>
    obtain hsame | ⟨f, hr, hnew⟩ := move_ok h
    · exact .inl hsame
    · exact .inr (.inr ⟨fundId, body, f, rfl, hr, hnew⟩)

theorem Conserved.step (hs : Conserved s) (h : securityFunds.step s a = some s') :
    Conserved s' := by
  cases a with
  | request q =>
    cases h
    unfold FundStore.handle
    split
    · rename_i r hrun
      obtain ⟨rfl, -⟩ | ⟨body, -, hnew⟩ | ⟨fundId, body, f, -, -, hnew⟩ := run_ok hrun
      · exact hs
      · exact hs.received hnew
      · exact hs.moved hnew
    · exact hs
  | world w =>
    cases h
    exact ⟨hs.split, hs.cashIn, hs.cashOut, hs.paid, hs.keyed, hs.cashed, hs.payer⟩
  | cash shift n d amount =>
    cases h
    have hsame (d' : Direction) (id : ℕ) :
        FundStore.cashOf { s with cash := s.cash ++ [⟨shift, .other n, d, amount, none⟩] } d' id =
          s.cashOf d' id := by
      rw [cashOf_append rfl]
      simp
    refine ⟨hs.split, fun f hf => ?_, fun f hf => ?_, hs.paid, fun c hc k hk => ?_,
      fun c hc id hid => ?_, hs.payer⟩
    · rw [hsame]
      exact hs.cashIn f hf
    · rw [hsame]
      exact hs.cashOut f hf
    · obtain hc | hc := mem_append.mp hc
      · exact hs.keyed c hc k hk
      · rw [mem_singleton.mp hc] at hk
        cases hk
    · obtain hc | hc := mem_append.mp hc
      · exact hs.cashed c hc id hid
      · rw [mem_singleton.mp hc] at hid
        cases hid

theorem conserved_of_reachable (h : securityFunds.Reachable s) : Conserved s := by
  refine h.invariant Conserved (fun s h₀ => ?_) fun s a s' hs _ hstep => hs.step hstep
  obtain ⟨hfunds, -, hpayments, hcash⟩ := h₀
  have hno (f : Fund) (hf : f ∈ s.funds) : False := by
    rw [mem_def, hfunds] at hf
    cases hf
  refine ⟨fun f hf => (hno f hf).elim, fun f hf => (hno f hf).elim, fun f hf => (hno f hf).elim,
    fun f hf => (hno f hf).elim, fun c hc => ?_, fun c hc => ?_, fun p hp => ?_⟩
  · rw [hcash] at hc
    cases hc
  · rw [hcash] at hc
    cases hc
  · rw [mem_def, hpayments] at hp
    cases hp

theorem handle_of_settled (h : Settled s q) : s.handle q = s := by
  unfold FundStore.handle
  split
  · rename_i hrun
    obtain ⟨hsame, -⟩ | ⟨body, rfl, hnew⟩ | ⟨fundId, body, f, rfl, -, hnew⟩ := run_ok hrun
    · exact hsame
    · exact absurd h hnew.unsettled
    · exact absurd h hnew.unsettled
  · rfl

def Keeps (s s' : FundStore) : Prop :=
  (∀ op ∈ s.operations, op ∈ s'.operations) ∧
    ∀ f ∈ s.funds, ∃ f' ∈ s'.funds, f'.bookingId = f.bookingId ∧ f'.method = f.method ∧
      f'.currency = f.currency ∧ f'.reference = f.reference

theorem Keeps.refl (s : FundStore) : Keeps s s := ⟨fun _ h => h, fun f h => ⟨f, h, rfl, rfl, rfl, rfl⟩⟩

theorem Keeps.trans {u : FundStore} (h : Keeps s t) (h' : Keeps t u) : Keeps s u := by
  refine ⟨fun op hop => h'.1 op (h.1 op hop), fun f hf => ?_⟩
  obtain ⟨g, hg, hb, hm, hc, hr⟩ := h.2 f hf
  obtain ⟨g', hg', hb', hm', hc', hr'⟩ := h'.2 g hg
  exact ⟨g', hg', hb'.trans hb, hm'.trans hm, hc'.trans hc, hr'.trans hr⟩

theorem Settled.mono (h : Settled s q) (hk : Keeps s s') : Settled s' q := by
  cases q with
  | receive body =>
    obtain ⟨op, hop, hkey⟩ | ⟨f, hf, hb, hm, hc, hr⟩ := h
    · exact .inl ⟨op, hk.1 op hop, hkey⟩
    · obtain ⟨g, hg, hb', hm', hc', hr'⟩ := hk.2 f hf
      exact .inr ⟨g, hg, hb'.trans hb, hm'.trans hm, hc'.trans hc, hr'.trans hr⟩
  | move fundId body =>
    obtain ⟨op, hop, hkey⟩ | ⟨op, hop, hsame⟩ := h
    · exact .inl ⟨op, hk.1 op hop, hkey⟩
    · exact .inr ⟨op, hk.1 op hop, hsame⟩

theorem Received.keeps {body : Receipt} (h : Received s body s' f) : Keeps s s' :=
  ⟨fun _ hop => (mem_insertOne h.operations).mpr (.inl hop),
    fun x hx => ⟨x, (mem_insertOne h.funds).mpr (.inl hx), rfl, rfl, rfl, rfl⟩⟩

theorem Moved.keeps (h : Moved s fundId body s' f) : Keeps s s' := by
  obtain ⟨day, hoperations⟩ := h.operations
  refine ⟨fun op hop => (mem_insertOne hoperations).mpr (.inl hop), fun x hx => ?_⟩
  rw [h.funds]
  by_cases hid : x.id = fundId
  · exact ⟨_, mem_update.mpr (.inr ⟨x, hx, hid, rfl⟩), rfl, rfl, rfl, rfl⟩
  · exact ⟨x, mem_update.mpr (.inl ⟨hx, hid⟩), rfl, rfl, rfl, rfl⟩

theorem step_keeps (h : securityFunds.step s a = some s') : Keeps s s' := by
  cases a with
  | request q =>
    cases h
    unfold FundStore.handle
    split
    · rename_i hrun
      obtain ⟨rfl, -⟩ | ⟨body, -, hnew⟩ | ⟨fundId, body, f, -, -, hnew⟩ := run_ok hrun
      · exact .refl _
      · exact hnew.keeps
      · exact hnew.keeps
    · exact .refl _
  | world w =>
    cases h
    exact .refl _
  | cash shift n d amount =>
    cases h
    exact .refl _

theorem settled_of_ok (h : q.run s = .ok (s', r)) : Settled s' q := by
  obtain ⟨rfl, hset⟩ | ⟨body, rfl, hnew⟩ | ⟨fundId, body, f, rfl, -, hnew⟩ := run_ok h
  · exact hset
  · exact .inl ⟨_, (mem_insertOne hnew.operations).mpr (.inr rfl), rfl⟩
  · obtain ⟨day, hoperations⟩ := hnew.operations
    exact .inl ⟨_, (mem_insertOne hoperations).mpr (.inr rfl), rfl⟩

theorem replay_of_mem (h : op ∈ s.operations) :
    s.replay op.key op.content = some (.ok op.result) := by
  have hget : s.operations.get? op.key = some op := get?_eq_some.mpr ⟨h, rfl⟩
  rw [FundStore.replay, hget, Option.map_some, if_pos rfl]

theorem answer_kept (h : q.run s = .ok (s', r)) (hne : s' ≠ s) (hk : Keeps s' t) :
    q.run t = .ok (t, r) := by
  obtain ⟨rfl, -⟩ | ⟨body, rfl, hnew⟩ | ⟨fundId, body, f, rfl, rfl, hnew⟩ := run_ok h
  · exact absurd rfl hne
  · have hop := hk.1 _ ((mem_insertOne hnew.operations).mpr (.inr rfl))
    have hreplay : t.replay (.fund body.requestId) (.receipt body) = some (.ok r) :=
      replay_of_mem hop
    simp only [FundRequest.run, FundStore.receive, hreplay]
    rfl
  · obtain ⟨day, hoperations⟩ := hnew.operations
    have hop := hk.1 _ ((mem_insertOne hoperations).mpr (.inr rfl))
    have hreplay : t.replay (.move body.requestId) (.movement fundId body) =
        some (.ok (FundStore.moved f body)) := replay_of_mem hop
    simp only [FundRequest.run, FundStore.move, hreplay]
    rfl

/-- In every state that requests lead to, each fund has what it received as what remains,
what was refunded and what was applied; its payments are what was applied, and for a cash
fund the drawer took in what was received and gave out what was refunded. A request that was
accepted changes nothing when it comes again, and is answered as before when it wrote. -/
theorem funds_conserved (h : securityFunds.Reachable s) :
    (∀ f ∈ s.funds, f.received = f.remaining + f.refunded + f.applied ∧ 0 ≤ f.remaining ∧
      s.paidFrom f.id = f.applied ∧
      s.cashOf .inn f.id = (if f.method = .cash then f.received else 0) ∧
      s.cashOf .out f.id = if f.method = .cash then f.refunded else 0) ∧
    ∀ q s₁ r, FundRequest.run s q = .ok (s₁, r) → ∀ s₂, securityFunds.Path (fun _ _ => True) s₁ s₂ →
      s₂.handle q = s₂ ∧ (s₁ ≠ s → q.run s₂ = .ok (s₂, r)) := by
  have hs := conserved_of_reachable h
  refine ⟨fun f hf => ⟨(hs.split f hf).1, (hs.split f hf).2, hs.paid f hf, hs.cashIn f hf,
    hs.cashOut f hf⟩, fun q s₁ r hrun s₂ hpath => ?_⟩
  have hkeeps : Keeps s₁ s₂ := hpath.relation (R := Keeps) (I := fun _ => True) trivial (.refl _)
    fun t a t' _ hst _ hstep => ⟨trivial, hst.trans (step_keeps hstep)⟩
  exact ⟨handle_of_settled ((settled_of_ok hrun).mono hkeeps), fun hne => answer_kept hrun hne hkeeps⟩

def lira (n : ℤ) (h : 0 < n ∧ n ≤ 100000000000 := by decide) : AmountMinor := ⟨n, h⟩

def stay : World where
  bookings := [{ id := 1, status := .checkedIn, currency := .code .TRY }]
  folios := [{ id := 1, bookingId := 1, isOpen := true, currency := .missing, postings := [(.TRY, 9000)] }]
  businessDate := some 20261024
  activeShift := some 1

def noFunds : FundStore := ⟨stay, ⟨[], .nil⟩, ⟨[], .nil⟩, [], ⟨[], .nil⟩⟩

/-- A deposit of 100, of which 30 are refunded and 50 applied, the refund twice. -/
def depositRun (m : Method) : List FundStep :=
  [.request (.receive ⟨1, 1, lira 10000, .TRY, m, "slip 1", "deposit"⟩),
    .request (.move 1 ⟨2, .refund, lira 3000, none, "slip 2", "part back"⟩),
    .request (.move 1 ⟨3, .apply, lira 5000, some 1, "slip 3", "minibar"⟩),
    .request (.move 1 ⟨2, .refund, lira 3000, none, "slip 2", "part back"⟩)]

theorem funds_conserved_cash : ∃ s, securityFunds.Reachable s ∧
    (s.funds.rows.map fun f => (f.remaining, f.refunded, f.applied)) = [(2000, 3000, 5000)] ∧
    ∀ f ∈ s.funds, f.received = f.remaining + f.refunded + f.applied := by
  obtain ⟨s, hs, hv⟩ := Machine.exists_reachable_of_run (M := securityFunds) (s := noFunds)
    (f := fun s => s.funds.rows.map fun f => (f.remaining, f.refunded, f.applied))
    (v := [(2000, 3000, 5000)]) (depositRun .cash) ⟨rfl, rfl, rfl, rfl⟩ (by decide +kernel)
  exact ⟨s, hs, hv, fun f hf => ((funds_conserved hs).1 f hf).1⟩

/-- A refund of a card deposit goes through no drawer. -/
theorem card_refund_without_cash :
    ¬ ∀ s, securityFunds.Reachable s → ∀ f ∈ s.funds, s.cashOf .out f.id = f.refunded := by
  intro hall
  obtain ⟨s, hs, hv⟩ := Machine.exists_reachable_of_run (M := securityFunds) (s := noFunds)
    (f := fun s => s.funds.rows.map fun f => (f.refunded, s.cashOf .out f.id))
    (v := [(3000, 0)]) (depositRun .card) ⟨rfl, rfl, rfl, rfl⟩ (by decide +kernel)
  have hall' : ∀ x ∈ s.funds.rows.map fun f => (f.refunded, s.cashOf .out f.id), x.2 = x.1 := by
    intro x hx
    obtain ⟨f, hf, rfl⟩ := mem_map.mp hx
    exact hall s hs f hf
  rw [hv] at hall'
  have hzero := hall' (3000, 0) mem_cons_self
  cases hzero

end SyrocePms.Billing
