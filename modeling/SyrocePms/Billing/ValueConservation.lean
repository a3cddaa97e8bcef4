import SyrocePms.Billing.InstrumentValue

/-! The invariant of the settlement instruments. An issue, an application and a reversal each
move the counters of one instrument, and leave the others and what they are drawn on. -/

namespace SyrocePms.Billing

open Lib Collection

/-- The fields of an instrument that its request was checked for. -/
structure Formed (i : Instrument) : Prop where
  account : i.account ≠ 0
  cent : i.currency.isCent = true
  cheque : i.kind = .chequePendingClearance → i.currency = .TRY
  funded : i.funding.isSome = i.kind.funded
  loyalty : i.pointValue.isSome = (i.kind == .loyaltyRedemption)
  owned : i.kind = .loyaltyRedemption → ∃ guest, i.ownerGuestId = some guest
  issued_pos : 0 < i.issued
  issued_le : i.issued ≤ 100000000000

structure Took (i : Instrument) (a : Application) : Prop where
  pos : 0 < a.amount
  source_pos : 0 < a.sourceBase
  points : ∀ v, i.pointValue = some v → v.val ∣ a.amount
  covered : ∀ f, i.funding = some f → i.issued ≤ f.issuedBase → a.amount ≤ a.sourceBase

structure Carried (s : InstrumentStore) (i : Instrument) (f : Funding) : Prop where
  issued_pos : 0 < f.issuedBase
  issued_le : f.issuedBase ≤ Ledger.moneyLimit
  split : f.issuedBase = f.remainingBase + s.unreversed Application.sourceBase i.id
  nonneg : 0 ≤ f.remainingBase
  exhausted : i.remaining = 0 → f.remainingBase = 0
  covered : i.issued ≤ f.issuedBase → i.remaining ≤ f.remainingBase
  lira : i.currency = .TRY → f.issuedBase = i.issued

structure Counted (s : InstrumentStore) (i : Instrument) : Prop where
  split : i.issued = i.remaining + s.unreversed Application.amount i.id
  nonneg : 0 ≤ i.remaining
  points : ∀ v, i.pointValue = some v → v.val ∣ i.remaining
  status : 0 < i.remaining → i.status = .active ∧ i.kind ≠ .chequePendingClearance ∨
    i.kind = .chequePendingClearance ∧ (i.status = .pending ∨ i.status = .returned)
  base : ∀ f, i.funding = some f → Carried s i f

structure DrawnOn (s : InstrumentStore) (i : Instrument) (f : Funding) (e : GlEntry) (nominal : ℤ) :
    Prop where
  entry : s.entries.get? f.entryId = some e
  lines : e.lines = f.entryHash
  isSealed : e.sealed = true
  native : e.nominalIn i.account i.currency = some nominal
  pos : 0 < nominal
  within : s.allocated f.entryId i.account ≤ nominal
  share : s.baseAllocated f.entryId i.account =
    cumulativeBase (s.allocated f.entryId i.account) (e.creditOn i.account) nominal

structure Accounted (s : InstrumentStore) : Prop where
  linked : Linked s
  applications : ∀ op ∈ s.operations, ∀ a, op.result = .applied a →
    ∃ i ∈ s.instruments, i.id = op.instrumentId ∧ Took i a
  formed : ∀ i ∈ s.instruments, Formed i
  counted : ∀ i ∈ s.instruments, Counted s i
  drawn : ∀ i ∈ s.instruments, ∀ f, i.funding = some f → ∃ e nominal, DrawnOn s i f e nominal

variable {s s' : InstrumentStore} {i : Instrument} {f : Funding}
variable {id : ℕ} {e : GlEntry} {amount nominal source : ℤ}
  {entries : Collection GlEntry GlEntry.id} {b : Issue} {entryId : EntryId} {j : Instrument}
  {a : Application}

/-! ### Consequences -/

theorem Accounted.unreversed_nonneg (h : Accounted s) (w : Application → ℤ)
    (hw : ∀ i a, Took i a → 0 ≤ w a) (id : ℕ) : 0 ≤ s.unreversed w id := by
  refine sumOf_nonneg fun op hop _ => ?_
  unfold InstrumentOperation.taken
  split
  · rename_i a ha
    obtain ⟨i, -, -, htook⟩ := h.applications op hop a ha
    exact hw i a htook
  · exact le_rfl
  · exact le_rfl

theorem Accounted.unreversed_new (h : Accounted s) (hid : ∀ i ∈ s.instruments, i.id ≠ id)
    (w : Application → ℤ) : s.unreversed w id = 0 := by
  have hzero : s.unreversed w id =
      s.operations.sumOf (fun op => op.instrumentId == id && s.isOpen op) fun _ => 0 := by
    refine sumOf_congr (fun _ _ => rfl) fun op hop hsel => ?_
    unfold InstrumentOperation.taken
    split
    · rename_i a ha
      obtain ⟨i, hi, hii, -⟩ := h.applications op hop a ha
      have hop : op.instrumentId = id := beq_iff_eq.mp (Bool.and_eq_true_iff.mp hsel).1
      exact absurd (hii.trans hop) (hid i hi)
    · rfl
    · rfl
  simpa [Collection.sumOf] using hzero

theorem Accounted.remainingBase_le (h : Accounted s) (hi : i ∈ s.instruments)
    (hf : i.funding = some f) : f.remainingBase ≤ Ledger.moneyLimit := by
  have hbase := (h.counted i hi).base f hf
  have := h.unreversed_nonneg Application.sourceBase (fun _ _ ht => ht.source_pos.le) i.id
  have := hbase.split
  have := hbase.issued_le
  omega

theorem Accounted.allocated_nonneg (h : Accounted s) (entryId : EntryId) (account : ℕ) :
    0 ≤ s.allocated entryId account :=
  sumOf_nonneg fun i hi _ => (h.formed i hi).issued_pos.le

theorem Accounted.baseAllocated_nonneg (h : Accounted s) (entryId : EntryId) (account : ℕ) :
    0 ≤ s.baseAllocated entryId account := by
  refine sumOf_nonneg fun i hi _ => ?_
  cases hf : i.funding with
  | none => simp [Instrument.issuedBase, hf]
  | some f => simpa [Instrument.issuedBase, hf] using ((h.counted i hi).base f hf).issued_pos.le

/-! ### Entries -/

theorem DrawnOn.of_insert {e' : GlEntry} (h : DrawnOn s i f e nominal)
    (hins : s.entries.insertOne e' = some entries) :
    DrawnOn { s with entries := entries } i f e nominal := by
  refine { h with entry := ?_ }
  obtain ⟨hmem, hid⟩ := get?_eq_some.mp h.entry
  exact get?_eq_some.mpr ⟨(mem_insertOne hins).mpr (.inl hmem), hid⟩

theorem Accounted.posted (h : Accounted s) (hins : s.entries.insertOne e = some entries) :
    Accounted { s with entries := entries } where
  linked := h.linked
  applications := h.applications
  formed := h.formed
  counted i hi := { h.counted i hi with base := fun f hf => { (h.counted i hi).base f hf with } }
  drawn i hi f hf := by
    obtain ⟨e, nominal, hdrawn⟩ := h.drawn i hi f hf
    exact ⟨e, nominal, hdrawn.of_insert hins⟩

/-- The annotation of a reversal leaves the lines and the hash. -/
theorem Accounted.annotated {id : EntryId} (h : Accounted s) : Accounted { s with
    entries := s.entries.update id (fun e => { e with reversed := true }) annotate_id } where
  linked := h.linked
  applications := h.applications
  formed := h.formed
  counted i hi := { h.counted i hi with base := fun f hf => { (h.counted i hi).base f hf with } }
  drawn i hi f hf := by
    obtain ⟨e, nominal, hdrawn⟩ := h.drawn i hi f hf
    have hget : (s.entries.update id (fun e => { e with reversed := true }) annotate_id).get? f.entryId =
        some (if f.entryId = id then { e with reversed := true } else e) := by
      rw [get?_update, hdrawn.entry]
      rfl
    split at hget
    · exact ⟨_, nominal, { hdrawn with entry := hget }⟩
    · exact ⟨_, nominal, { hdrawn with entry := hget }⟩

/-! ### Issues -/

/-- What `_funding` found. -/
structure Funds (s : InstrumentStore) (b : Issue) (f : Funding) (e : GlEntry) (nominal : ℤ) : Prop where
  entry : s.entries.get? f.entryId = some e
  lines : e.lines = f.entryHash
  isSealed : e.sealed = true
  native : e.nominalIn b.account b.currency = some nominal
  pos : 0 < nominal
  within : s.allocated f.entryId b.account + b.amount.val ≤ nominal
  share : s.baseAllocated f.entryId b.account + f.issuedBase =
    cumulativeBase (s.allocated f.entryId b.account + b.amount.val) (e.creditOn b.account) nominal
  issued_pos : 0 < f.issuedBase
  fresh : f.remainingBase = f.issuedBase

theorem funding_ok (h : s.funding b entryId = .ok f) : ∃ e nominal, Funds s b f e nominal := by
  unfold InstrumentStore.funding at h
  split at h
  · cases h
  · rename_i e he
    obtain ⟨hsealed, h⟩ := refuse_bind_eq_ok.mp h
    obtain ⟨-, h⟩ := refuse_bind_eq_ok.mp h
    obtain ⟨-, h⟩ := refuse_bind_eq_ok.mp h
    split at h
    · cases h
    · rename_i nominal hnominal
      obtain ⟨hwithin, h⟩ := refuse_bind_eq_ok.mp h
      obtain ⟨hpos, h⟩ := refuse_bind_eq_ok.mp h
      cases h
      push Not at hwithin hpos
      have hsealed : e.posted = true ∧ e.sealed = true := by simpa using hsealed
      exact ⟨e, nominal,
        { entry := he, lines := rfl, isSealed := hsealed.2, native := hnominal, pos := hwithin.1
          within := by linarith [hwithin.2], share := by ring, issued_pos := hpos, fresh := rfl }⟩

theorem fundingFor_ok {g : Option Funding} (h : s.fundingFor b = .ok g) :
    g.isSome = b.fundingEntryId.isSome ∧ ∀ f, g = some f → ∃ e nominal, Funds s b f e nominal := by
  unfold InstrumentStore.fundingFor at h
  split at h
  · rename_i hnone
    cases h
    exact ⟨by simp [hnone], by simp⟩
  · rename_i entryId hsome
    cases hf : s.funding b entryId with
    | error e =>
      rw [hf] at h
      cases h
    | ok f =>
      rw [hf] at h
      cases h
      refine ⟨by simp [hsome], fun f' hf' => ?_⟩
      obtain rfl : f = f' := Option.some.inj hf'
      exact funding_ok hf

/-- The validator of a request holds of its instrument. -/
theorem Issued.formed (h : Issued s b s' i) : Formed i := by
  obtain ⟨guest, day, g, hg, rfl⟩ := h.new
  have hvalid := b.valid
  simp only [IssueFields.shape, Bool.and_eq_true, beq_iff_eq, Bool.or_eq_true, bne_iff_ne] at hvalid
  obtain ⟨⟨⟨⟨⟨⟨⟨haccount, hcent⟩, hfunded⟩, hloyalty⟩, -⟩, hcheque⟩, -⟩, -⟩ := hvalid
  exact
    { account := haccount
      cent := hcent
      cheque := fun hk => hcheque.resolve_left fun hne => hne hk
      funded := (fundingFor_ok hg).1.trans hfunded.symm
      loyalty := hloyalty.symm
      owned := h.owned
      issued_pos := b.amount.property.1
      issued_le := b.amount.property.2 }

theorem Issued.points (h : Issued s b s' i) : ∀ v, i.pointValue = some v → v.val ∣ i.issued := by
  obtain ⟨guest, day, g, -, rfl⟩ := h.new
  intro v hv
  have hvalid := b.valid
  simp only [IssueFields.shape, Bool.and_eq_true] at hvalid
  have hmod := hvalid.1.2
  rw [show b.pointValue = some v from hv] at hmod
  exact Int.dvd_of_emod_eq_zero (beq_iff_eq.mp hmod)

theorem Counted.congr (h : Counted s i) (hsum : ∀ w, s'.unreversed w i.id = s.unreversed w i.id) :
    Counted s' i :=
  { h with
    split := by rw [hsum, ← h.split]
    base := fun f hf => { h.base f hf with split := by rw [hsum, ← (h.base f hf).split] } }

/-- The share of an entry after one more instrument that it funds. -/
theorem DrawnOn.of_issue (hissued : Issued s b s' i) (hj : DrawnOn s j f e nominal) :
    DrawnOn s' j f e nominal := by
  have hget : s'.entries.get? f.entryId = some e := by
    rw [hissued.entries, hj.entry]
  have hsum : s'.allocated f.entryId j.account = s.allocated f.entryId j.account +
      if i.drawnOn f.entryId j.account = true then i.issued else 0 :=
    sumOf_insertOne hissued.instruments
  have hbase : s'.baseAllocated f.entryId j.account = s.baseAllocated f.entryId j.account +
      if i.drawnOn f.entryId j.account = true then i.issuedBase else 0 :=
    sumOf_insertOne hissued.instruments
  by_cases hsame : i.drawnOn f.entryId j.account = true
  · -- the new instrument has the currency, and so the nominal, of those before
    obtain ⟨guest, day, g, hg, rfl⟩ := hissued.new
    obtain ⟨haccount, hfunding⟩ := Bool.and_eq_true_iff.mp hsame
    obtain ⟨f', rfl, hid⟩ := (Option.any_eq_true _ _).mp hfunding
    obtain ⟨e', nominal', hfunds⟩ := (fundingFor_ok hg).2 f' rfl
    have haccount : b.account = j.account := beq_iff_eq.mp haccount
    have hid : f'.entryId = f.entryId := beq_iff_eq.mp hid
    obtain ⟨hentry, -, -, hnative, hpos, hwithin, hshare, -, -⟩ := hfunds
    rw [hid, haccount] at hwithin hshare
    rw [haccount] at hnative
    obtain rfl : e = e' := by
      rw [hid, hj.entry] at hentry
      exact Option.some.inj hentry
    have hcurrency := GlEntry.nominalIn_unique hj.pos hj.native hnative
    rw [← hcurrency, hj.native] at hnative
    obtain rfl : nominal = nominal' := Option.some.inj hnative
    rw [if_pos hsame] at hsum hbase
    refine { hj with entry := hget, within := ?_, share := ?_ }
    · rw [hsum]
      exact hwithin
    · rw [hsum, hbase]
      exact hshare
  · rw [if_neg hsame, add_zero] at hsum hbase
    exact { hj with entry := hget, within := hsum ▸ hj.within, share := by rw [hsum, hbase]; exact hj.share }

/-- The share of the new instrument itself. -/
theorem Issued.drawn (h : Issued s b s' i) (hf : i.funding = some f) :
    ∃ e nominal, DrawnOn s' i f e nominal := by
  obtain ⟨guest, day, g, hg, rfl⟩ := h.new
  obtain ⟨e, nominal, hfunds⟩ := (fundingFor_ok hg).2 f hf
  obtain rfl : g = some f := hf
  have hown : (InstrumentStore.newInstrument b guest day (some f)).drawnOn f.entryId b.account = true := by
    simp [Instrument.drawnOn, InstrumentStore.newInstrument]
  have hsum : s'.allocated f.entryId b.account = s.allocated f.entryId b.account + b.amount.val :=
    (sumOf_insertOne h.instruments).trans (by rw [if_pos hown]; rfl)
  have hbase : s'.baseAllocated f.entryId b.account = s.baseAllocated f.entryId b.account + f.issuedBase :=
    (sumOf_insertOne h.instruments).trans (by rw [if_pos hown]; rfl)
  refine ⟨e, nominal, ?_, hfunds.lines, hfunds.isSealed, hfunds.native, hfunds.pos, ?_, ?_⟩
  · rw [h.entries, hfunds.entry]
  · exact hsum.trans_le hfunds.within
  · exact (hbase.trans hfunds.share).trans (by rw [← hsum]; rfl)

theorem Funds.issued_le (h : Accounted s) (hfunds : Funds s b f e nominal) :
    f.issuedBase ≤ Ledger.moneyLimit := by
  have hbefore := h.baseAllocated_nonneg f.entryId b.account
  have hnonneg := h.allocated_nonneg f.entryId b.account
  have hle := cumulativeBase_le (by have := b.amount.property.1; omega) hfunds.within hfunds.pos
    (e.creditOn_nonneg b.account) (e.creditOn_le b.account)
  have := e.creditOn_le b.account
  have := hfunds.share
  omega

theorem Accounted.baseAllocated_lira (h : Accounted s) {account : ℕ}
    (he : s.entries.get? entryId = some e) (hpos : 0 < nominal)
    (hnative : e.nominalIn account .TRY = some nominal) :
    s.baseAllocated entryId account = s.allocated entryId account := by
  by_cases hnone : ∀ j ∈ s.instruments, j.drawnOn entryId account = false
  · exact (sumOf_eq_zero hnone).trans (sumOf_eq_zero hnone).symm
  push Not at hnone
  obtain ⟨j, hj, hdrawn⟩ := hnone
  obtain ⟨haccount, hfunding⟩ := Bool.and_eq_true_iff.mp (Bool.eq_true_of_not_eq_false hdrawn)
  obtain ⟨f, hf, hid⟩ := (Option.any_eq_true _ _).mp hfunding
  obtain rfl : j.account = account := beq_iff_eq.mp haccount
  obtain rfl : f.entryId = entryId := beq_iff_eq.mp hid
  obtain ⟨e', nominal', hon⟩ := h.drawn j hj f hf
  obtain rfl : e = e' := Option.some.inj (he.symm.trans hon.entry)
  have hcurrency := GlEntry.nominalIn_unique hpos hnative hon.native
  obtain rfl : nominal = nominal' := Option.some.inj (hnative.symm.trans (hcurrency ▸ hon.native))
  have hcredit := GlEntry.nominalIn_lira hnative
  have hlimit := e.creditOn_le j.account
  rw [hon.share, ← hcredit]
  exact cumulativeBase_self (h.allocated_nonneg _ _) hon.within hpos (hcredit ▸ hlimit)

theorem Funds.lira (h : Accounted s) (hfunds : Funds s b f e nominal) (hlira : b.currency = .TRY) :
    f.issuedBase = b.amount.val := by
  have hnative := hfunds.native
  rw [hlira] at hnative
  have hbefore := h.baseAllocated_lira hfunds.entry hfunds.pos hnative
  have hcredit := GlEntry.nominalIn_lira hnative
  have hshare := hfunds.share
  have hnonneg := h.allocated_nonneg f.entryId b.account
  rw [← hcredit, cumulativeBase_self (by have := b.amount.property.1; omega) hfunds.within hfunds.pos
    (hcredit ▸ e.creditOn_le b.account)] at hshare
  linarith

/-- The counters of the new instrument. -/
theorem Issued.counted (h : Accounted s) (hissued : Issued s b s' i)
    (hnone : ∀ w, s'.unreversed w i.id = 0) : Counted s' i := by
  have hpoints := hissued.points
  obtain ⟨guest, day, g, hg, rfl⟩ := hissued.new
  refine ⟨?_, b.amount.property.1.le, hpoints, fun _ => ?_, fun f hf => ?_⟩
  · rw [hnone, add_zero]
    rfl
  · by_cases hk : b.kind = .chequePendingClearance <;> simp [InstrumentStore.newInstrument, hk]
  · obtain ⟨e, nominal, hfunds⟩ := (fundingFor_ok hg).2 f hf
    have hpos : 0 < b.amount.val := b.amount.property.1
    refine ⟨hfunds.issued_pos, hfunds.issued_le h, ?_, ?_, fun h₀ => absurd h₀ hpos.ne', ?_,
      hfunds.lira h⟩
    · rw [hnone, add_zero, hfunds.fresh]
    · rw [hfunds.fresh]
      exact hfunds.issued_pos.le
    · rw [hfunds.fresh]
      exact id

theorem Accounted.issued (h : Accounted s) (hissued : Issued s b s' i) : Accounted s' := by
  obtain ⟨op, hops, hresult, horiginal⟩ := hissued.operations
  have hmem : ∀ x, x ∈ s'.instruments ↔ x ∈ s.instruments ∨ x = i :=
    fun x => mem_insertOne hissued.instruments
  have hops' : ∀ x, x ∈ s'.operations ↔ x ∈ s.operations ∨ x = op := fun x => mem_insertOne hops
  have hsum : ∀ w id, s'.unreversed w id = s.unreversed w id := by
    intro w id
    rw [unreversed_insert h.linked hops horiginal]
    simp [InstrumentOperation.taken, hresult]
  refine ⟨?_, ?_, ?_, ?_, ?_⟩
  · intro x hx k hk
    obtain hx | rfl := (hops' x).mp hx
    · obtain ⟨x', hx', hid⟩ := h.linked x hx k hk
      exact ⟨x', (hops' x').mpr (.inl hx'), hid⟩
    · cases horiginal.symm.trans hk
  · intro x hx a ha
    obtain hx | rfl := (hops' x).mp hx
    · obtain ⟨j, hj, htook⟩ := h.applications x hx a ha
      exact ⟨j, (hmem j).mpr (.inl hj), htook⟩
    · cases hresult.symm.trans ha
  · intro j hj
    obtain hj | rfl := (hmem j).mp hj
    · exact h.formed j hj
    · exact hissued.formed
  · intro j hj
    obtain hj | rfl := (hmem j).mp hj
    · exact (h.counted j hj).congr fun w => hsum w j.id
    · have hnew := (insertOne_eq_some hissued.instruments).1
      exact hissued.counted h fun w => (hsum w j.id).trans (h.unreversed_new hnew w)
  · intro j hj f hf
    obtain hj | rfl := (hmem j).mp hj
    · obtain ⟨e, nominal, hdrawn⟩ := h.drawn j hj f hf
      exact ⟨e, nominal, hdrawn.of_issue hissued⟩
    · exact hissued.drawn hf

/-! ### Applications and reversals -/

structure Recounted (i i' : Instrument) : Prop where
  id : i'.id = i.id
  kind : i'.kind = i.kind
  currency : i'.currency = i.currency
  account : i'.account = i.account
  pointValue : i'.pointValue = i.pointValue
  owner : i'.ownerGuestId = i.ownerGuestId
  issued : i'.issued = i.issued
  funding : ∃ d, i'.funding = i.funding.map fun f => { f with remainingBase := f.remainingBase + d }

namespace Recounted

variable {i' : Instrument}

theorem spent (amount source : ℤ) (i : Instrument) :
    Recounted i (InstrumentStore.spent amount source i) := by
  refine ⟨rfl, rfl, rfl, rfl, rfl, rfl, rfl, -source, ?_⟩
  simp only [InstrumentStore.spent, sub_eq_add_neg]

theorem restored (amount source : ℤ) (i : Instrument) :
    Recounted i (InstrumentStore.restored amount source i) :=
  ⟨rfl, rfl, rfl, rfl, rfl, rfl, rfl, source, rfl⟩

theorem before (h : Recounted i i') (hf : i'.funding = some f) : ∃ f₀, i.funding = some f₀ ∧
    f.entryId = f₀.entryId ∧ f.entryHash = f₀.entryHash ∧ f.issuedBase = f₀.issuedBase := by
  obtain ⟨d, hd⟩ := h.funding
  rw [hd] at hf
  obtain ⟨f₀, hf₀, rfl⟩ := Option.map_eq_some_iff.mp hf
  exact ⟨f₀, hf₀, rfl, rfl, rfl⟩

theorem issuedBase (h : Recounted i i') : i'.issuedBase = i.issuedBase := by
  obtain ⟨d, hd⟩ := h.funding
  unfold Instrument.issuedBase
  rw [hd, Option.map_map]
  rfl

theorem drawnOn (h : Recounted i i') (entryId : EntryId) (account : ℕ) :
    i'.drawnOn entryId account = i.drawnOn entryId account := by
  obtain ⟨d, hd⟩ := h.funding
  unfold Instrument.drawnOn
  rw [h.account, hd, Option.any_map]

theorem formed (h : Recounted i i') (hi : Formed i) : Formed i' := by
  obtain ⟨d, hd⟩ := h.funding
  refine ⟨h.account ▸ hi.account, h.currency ▸ hi.cent, ?_, ?_, ?_, ?_, h.issued ▸ hi.issued_pos, h.issued ▸ hi.issued_le⟩
  · rw [h.kind, h.currency]
    exact hi.cheque
  · rw [hd, Option.isSome_map, h.kind]
    exact hi.funded
  · rw [h.pointValue, h.kind]
    exact hi.loyalty
  · rw [h.kind, h.owner]
    exact hi.owned

theorem took (h : Recounted i i') (ha : Took i a) : Took i' a := by
  refine ⟨ha.pos, ha.source_pos, h.pointValue ▸ ha.points, fun f hf => ?_⟩
  obtain ⟨f₀, hf₀, -, -, hbase⟩ := h.before hf
  rw [h.issued, hbase]
  exact ha.covered f₀ hf₀

end Recounted

/-- An operation that changes the counters of one instrument. -/
structure Touched (s s' : InstrumentStore) (i : Instrument) (g : Instrument → Instrument)
    (op : InstrumentOperation) : Prop where
  mem : i ∈ s.instruments
  recounted : ∀ x, Recounted x (g x)
  instruments : s'.instruments = s.instruments.update i.id g fun x => (recounted x).id
  operations : s.operations.insertOne op = some s'.operations
  entries : ∃ e, s.entries.insertOne e = some s'.entries

namespace Touched

variable {g : Instrument → Instrument} {op : InstrumentOperation}

theorem mem_iff (h : Touched s s' i g op) (x : Instrument) :
    x ∈ s'.instruments ↔ (x ∈ s.instruments ∧ x.id ≠ i.id) ∨ x = g i := by
  rw [h.instruments, mem_update]
  constructor
  · rintro (hx | ⟨r, hr, hid, rfl⟩)
    · exact .inl hx
    · rw [eq_of_key hr h.mem hid]
      exact .inr rfl
  · rintro (hx | rfl)
    · exact .inl hx
    · exact .inr ⟨i, h.mem, rfl, rfl⟩

theorem allocated (h : Touched s s' i g op) (entryId : EntryId) (account : ℕ) :
    s'.allocated entryId account = s.allocated entryId account := by
  unfold InstrumentStore.allocated
  rw [h.instruments]
  exact sumOf_update (fun x => (h.recounted x).drawnOn _ _) fun x => (h.recounted x).issued

theorem baseAllocated (h : Touched s s' i g op) (entryId : EntryId) (account : ℕ) :
    s'.baseAllocated entryId account = s.baseAllocated entryId account := by
  unfold InstrumentStore.baseAllocated
  rw [h.instruments]
  exact sumOf_update (fun x => (h.recounted x).drawnOn _ _) fun x => (h.recounted x).issuedBase

theorem get?_entry (h : Touched s s' i g op) {id : EntryId} (he : s.entries.get? id = some e) :
    s'.entries.get? id = some e := by
  obtain ⟨e', hins⟩ := h.entries
  obtain ⟨hmem, hid⟩ := get?_eq_some.mp he
  exact get?_eq_some.mpr ⟨(mem_insertOne hins).mpr (.inl hmem), hid⟩

theorem drawnOn (h : Touched s s' i g op) (hj : DrawnOn s j f e nominal) :
    DrawnOn s' j f e nominal := by
  refine ⟨h.get?_entry hj.entry, hj.lines, hj.isSealed, hj.native, hj.pos, ?_, ?_⟩
  · rw [h.allocated]
    exact hj.within
  · rw [h.baseAllocated, h.allocated]
    exact hj.share

/-- What is kept when the counters of the instrument are right again. -/
theorem conserved (h : Touched s s' i g op) (hs : Accounted s)
    (hlinked : ∀ k, op.original = some k → ∃ op' ∈ s.operations, op'.id = k)
    (htook : ∀ a, op.result = .applied a → op.instrumentId = i.id ∧ Took i a)
    (hother : ∀ w id, id ≠ i.id → s'.unreversed w id = s.unreversed w id)
    (hcounted : Counted s' (g i)) : Accounted s' := by
  have hops : ∀ x, x ∈ s'.operations ↔ x ∈ s.operations ∨ x = op :=
    fun x => mem_insertOne h.operations
  refine ⟨?_, ?_, ?_, ?_, ?_⟩
  · intro x hx k hk
    have hlink : ∃ op' ∈ s.operations, op'.id = k := by
      obtain hx | rfl := (hops x).mp hx
      · exact hs.linked x hx k hk
      · exact hlinked k hk
    obtain ⟨op', hop', hid⟩ := hlink
    exact ⟨op', (hops op').mpr (.inl hop'), hid⟩
  · intro x hx a ha
    have hbefore : ∃ j ∈ s.instruments, j.id = x.instrumentId ∧ Took j a := by
      obtain hx | rfl := (hops x).mp hx
      · exact hs.applications x hx a ha
      · exact ⟨i, h.mem, (htook a ha).1.symm, (htook a ha).2⟩
    obtain ⟨j, hj, hid, hja⟩ := hbefore
    by_cases hji : j.id = i.id
    · obtain rfl := eq_of_key hj h.mem hji
      exact ⟨g j, (h.mem_iff _).mpr (.inr rfl), (h.recounted j).id.trans hid, (h.recounted j).took hja⟩
    · exact ⟨j, (h.mem_iff j).mpr (.inl ⟨hj, hji⟩), hid, hja⟩
  · intro j hj
    obtain ⟨hj, -⟩ | rfl := (h.mem_iff j).mp hj
    · exact hs.formed j hj
    · exact (h.recounted i).formed (hs.formed i h.mem)
  · intro j hj
    obtain ⟨hj, hne⟩ | rfl := (h.mem_iff j).mp hj
    · exact (hs.counted j hj).congr fun w => hother w j.id hne
    · exact hcounted
  · intro j hj f hf
    obtain ⟨hj, -⟩ | rfl := (h.mem_iff j).mp hj
    · obtain ⟨e, nominal, hdrawn⟩ := hs.drawn j hj f hf
      exact ⟨e, nominal, h.drawnOn hdrawn⟩
    · obtain ⟨f₀, hf₀, hentry, hhash, -⟩ := (h.recounted i).before hf
      obtain ⟨e, nominal, hdrawn⟩ := hs.drawn i h.mem f₀ hf₀
      obtain ⟨hget, hlines, hsealed, hnative, hpos, hwithin, hshare⟩ := h.drawnOn hdrawn
      rw [← hentry] at hget hwithin hshare
      rw [← (h.recounted i).account] at hnative hwithin hshare
      rw [← (h.recounted i).currency] at hnative
      exact ⟨e, nominal, hget, hlines.trans hhash.symm, hsealed, hnative, hpos, hwithin, hshare⟩

end Touched

theorem sourceBase_ok {paid : ℤ} (h : s.sourceBase i amount paid = .ok source) :
    (i.funding = none ∧ source = paid) ∨ ∃ f, i.funding = some f ∧ 0 < source ∧ source =
      if amount = i.remaining then f.remainingBase else partBase amount f.remainingBase i.remaining := by
  unfold InstrumentStore.sourceBase at h
  split at h
  · cases h
    exact .inl ⟨by assumption, rfl⟩
  · rename_i f hf
    split at h
    · cases h
    · obtain ⟨-, h⟩ := refuse_bind_eq_ok.mp h
      obtain ⟨-, h⟩ := refuse_bind_eq_ok.mp h
      obtain ⟨hpos, h⟩ := refuse_bind_eq_ok.mp h
      cases h
      exact .inr ⟨f, hf, not_le.mp hpos, rfl⟩

theorem Accounted.part (h : Accounted s) (hi : i ∈ s.instruments) (hf : i.funding = some f)
    (hpos : 0 < amount) (hle : amount ≤ i.remaining) (hsource : source =
      if amount = i.remaining then f.remainingBase else partBase amount f.remainingBase i.remaining) :
    source ≤ f.remainingBase ∧ (amount = i.remaining → source = f.remainingBase) ∧
      (i.issued ≤ f.issuedBase → amount ≤ source ∧ source ≤ f.remainingBase - (i.remaining - amount)) := by
  have hbase := (h.counted i hi).base f hf
  have hlimit := h.remainingBase_le hi hf
  have hremaining : 0 < i.remaining := hpos.trans_le hle
  split at hsource
  · rename_i hall
    subst hsource
    refine ⟨le_rfl, fun _ => rfl, fun hrate => ⟨?_, ?_⟩⟩
    · exact hle.trans (hbase.covered hrate)
    · omega
  · rename_i hpart
    subst hsource
    refine ⟨partBase_le hpos.le hle hremaining hbase.nonneg hlimit, fun hall => absurd hall hpart,
      fun hrate => ⟨?_, ?_⟩⟩
    · exact le_partBase hpos.le hle hremaining (hbase.covered hrate) hlimit
    · exact partBase_le_sub hpos.le hle hremaining (hbase.covered hrate) hlimit

theorem Accounted.spent (h : Accounted s) (hi : i ∈ s.instruments) (hpos : 0 < a.amount)
    (hle : a.amount ≤ i.remaining) (hpoints : ∀ v, i.pointValue = some v → v.val ∣ a.amount)
    (hsource : ∀ f, i.funding = some f → a.sourceBase =
      if a.amount = i.remaining then f.remainingBase else partBase a.amount f.remainingBase i.remaining)
    (hsum : ∀ w, s'.unreversed w i.id = s.unreversed w i.id + w a) :
    Counted s' (InstrumentStore.spent a.amount a.sourceBase i) := by
  have hcounted := h.counted i hi
  refine ⟨?_, sub_nonneg.mpr hle, ?_, ?_, ?_⟩
  · have hsplit : i.issued = i.remaining - a.amount + s'.unreversed Application.amount i.id := by
      rw [hsum]
      linarith [hcounted.split]
    exact hsplit
  · intro v hv
    exact dvd_sub (hcounted.points v hv) (hpoints v hv)
  · intro hleft
    have hleft : 0 < i.remaining - a.amount := hleft
    have hstatus := hcounted.status (hpos.trans_le hle)
    simpa [InstrumentStore.spent, hleft.ne'] using hstatus
  · intro f hf
    obtain ⟨f₀, hf₀, rfl⟩ := Option.map_eq_some_iff.mp hf
    have hbase := hcounted.base f₀ hf₀
    obtain ⟨htop, hall, hrate⟩ := h.part hi hf₀ hpos hle (hsource f₀ hf₀)
    refine ⟨hbase.issued_pos, hbase.issued_le, ?_, sub_nonneg.mpr htop, ?_, ?_, hbase.lira⟩
    · have hsplit : f₀.issuedBase =
          f₀.remainingBase - a.sourceBase + s'.unreversed Application.sourceBase i.id := by
        rw [hsum]
        linarith [hbase.split]
      exact hsplit
    · intro hzero
      exact sub_eq_zero.mpr (hall (sub_eq_zero.mp hzero).symm).symm
    · intro hissued
      have hleft : i.remaining - a.amount ≤ f₀.remainingBase - a.sourceBase := by
        linarith [(hrate hissued).2]
      exact hleft

theorem Accounted.applied {b : Apply} (h : Accounted s) (happlied : Applied s id b s' i a) :
    Accounted s' := by
  obtain ⟨hi, -⟩ := get?_eq_some.mp happlied.found
  obtain ⟨op, hops, hop, hresult, horiginal⟩ := happlied.operations
  obtain ⟨paid, hpaid, hsource⟩ := happlied.source
  have hpos : 0 < a.amount := by
    rw [happlied.amount]
    exact b.amount.property.1
  have htouched : Touched s s' i (InstrumentStore.spent a.amount a.sourceBase) op :=
    ⟨hi, Recounted.spent _ _, happlied.instruments, hops, happlied.entries⟩
  have hpart : ∀ f, i.funding = some f → 0 < a.sourceBase ∧ a.sourceBase =
      if a.amount = i.remaining then f.remainingBase else partBase a.amount f.remainingBase i.remaining := by
    intro f hf
    obtain ⟨hnone, -⟩ | ⟨f', hf', hsrc⟩ := sourceBase_ok hsource
    · cases hnone.symm.trans hf
    · obtain rfl : f = f' := Option.some.inj (hf.symm.trans hf')
      exact hsrc
  have hsrc_pos : 0 < a.sourceBase := by
    obtain ⟨-, rfl⟩ | ⟨f, -, hsrc, -⟩ := sourceBase_ok hsource
    · exact hpaid
    · exact hsrc
  have htook : Took i a := ⟨hpos, hsrc_pos, happlied.points, fun f hf hrate =>
    ((h.part hi hf hpos happlied.enough (hpart f hf).2).2.2 hrate).1⟩
  have hsum : ∀ w id, s'.unreversed w id = s.unreversed w id + if i.id = id then w a else 0 := by
    intro w id
    rw [unreversed_insert h.linked hops horiginal, hop, InstrumentOperation.taken, hresult]
  refine htouched.conserved h (fun k hk => ?_) (fun a' ha' => ?_) (fun w id hne => ?_) ?_
  · cases horiginal.symm.trans hk
  · cases hresult.symm.trans ha'
    exact ⟨hop, htook⟩
  · rw [hsum, if_neg hne.symm, add_zero]
  · refine h.spent hi hpos happlied.enough happlied.points (fun f hf => (hpart f hf).2) fun w => ?_
    rw [hsum, if_pos rfl]

theorem Accounted.restored (h : Accounted s) (hi : i ∈ s.instruments) (htook : Took i a)
    (hsum : ∀ w, s'.unreversed w i.id = s.unreversed w i.id - w a) :
    Counted s' (InstrumentStore.restored a.amount a.sourceBase i) := by
  have hcounted := h.counted i hi
  have hamount := htook.pos
  have hnonneg := hcounted.nonneg
  refine ⟨?_, add_nonneg hnonneg hamount.le, ?_, ?_, ?_⟩
  · have hsplit : i.issued = i.remaining + a.amount + s'.unreversed Application.amount i.id := by
      rw [hsum]
      linarith [hcounted.split]
    exact hsplit
  · intro v hv
    exact dvd_add (hcounted.points v hv) (htook.points v hv)
  · intro _
    by_cases hk : i.kind = .chequePendingClearance <;> simp [InstrumentStore.restored, hk]
  · intro f hf
    obtain ⟨f₀, hf₀, rfl⟩ := Option.map_eq_some_iff.mp hf
    have hbase := hcounted.base f₀ hf₀
    refine ⟨hbase.issued_pos, hbase.issued_le, ?_, add_nonneg hbase.nonneg htook.source_pos.le, ?_, ?_,
      hbase.lira⟩
    · have hsplit : f₀.issuedBase =
          f₀.remainingBase + a.sourceBase + s'.unreversed Application.sourceBase i.id := by
        rw [hsum]
        linarith [hbase.split]
      exact hsplit
    · intro hzero
      have hzero : i.remaining + a.amount = 0 := hzero
      omega
    · intro hissued
      exact add_le_add (hbase.covered hissued) (htook.covered f₀ hf₀ hissued)

theorem Accounted.reversed {operationId : ℕ} {op : InstrumentOperation} (h : Accounted s)
    (hreversed : Reversed s operationId s' op i a) : Accounted s' := by
  obtain ⟨hi, hid⟩ := get?_eq_some.mp hreversed.instrument
  obtain ⟨hop, rfl⟩ := get?_eq_some.mp hreversed.found
  obtain ⟨op', hops, ⟨m, n, hresult⟩, horiginal⟩ := hreversed.operations
  have htouched : Touched s s' i (InstrumentStore.restored a.amount a.sourceBase) op' :=
    ⟨hi, Recounted.restored _ _, hreversed.instruments, hops, hreversed.entries⟩
  have htook : Took i a := by
    obtain ⟨j, hj, hjid, hja⟩ := h.applications op hop a hreversed.application
    obtain rfl := eq_of_key hj hi (hjid.trans hid.symm)
    exact hja
  have hsum : ∀ w id, s'.unreversed w id = s.unreversed w id - if i.id = id then w a else 0 := by
    intro w id
    rw [unreversed_reverse hop hreversed.first hops (by rw [InstrumentOperation.taken, hresult]) horiginal,
      hid, InstrumentOperation.taken, hreversed.application]
  refine htouched.conserved h (fun k hk => ?_) (fun a' ha' => ?_) (fun w id hne => ?_) ?_
  · exact ⟨op, hop, Option.some.inj (horiginal.symm.trans hk)⟩
  · cases hresult.symm.trans ha'
  · rw [hsum, if_neg hne.symm, sub_zero]
  · refine h.restored hi htook fun w => ?_
    rw [hsum, if_pos rfl]

/-! ### Runs -/

theorem Accounted.handled {q : InstrumentRequest} (h : Accounted s) : Accounted (s.handle q) := by
  unfold InstrumentStore.handle
  split
  · rename_i s' r hrun
    cases q with
    | issue b =>
      obtain rfl | ⟨i, hissued⟩ := issue_ok hrun
      · exact h
      · exact h.issued hissued
    | apply id b =>
      obtain rfl | ⟨i, a, happlied⟩ := apply_ok hrun
      · exact h
      · exact h.applied happlied
    | reverse operationId b =>
      obtain rfl | ⟨op, i, a, hreversed⟩ := reverse_ok hrun
      · exact h
      · exact h.reversed hreversed
  · exact h

/-- The hotel around the instruments is no part of what they conserve. -/
theorem Accounted.elsewhere (h : Accounted s) (hotel : Hotel) : Accounted { s with hotel := hotel } where
  linked := h.linked
  applications := h.applications
  formed := h.formed
  counted i hi := { h.counted i hi with base := fun f hf => { (h.counted i hi).base f hf with } }
  drawn i hi f hf := by
    obtain ⟨e, nominal, hdrawn⟩ := h.drawn i hi f hf
    exact ⟨e, nominal, { hdrawn with }⟩

theorem step_conserved {x : InstrumentStep} (h : Accounted s)
    (hstep : settlementInstruments.step s x = some s') : Accounted s' := by
  cases x with
  | request q =>
    cases hstep
    exact h.handled
  | hotel hotel =>
    cases hstep
    exact h.elsewhere hotel
  | post e =>
    obtain ⟨entries, hins, rfl⟩ := Option.map_eq_some_iff.mp hstep
    exact h.posted hins
  | annotate id =>
    cases hstep
    exact h.annotated

theorem reachable_conserved (h : settlementInstruments.Reachable s) : Accounted s := by
  refine h.invariant Accounted (fun s hs => ?_) fun s x s' hs _ hstep => step_conserved hs hstep
  obtain ⟨hinstruments, hoperations, -⟩ := hs
  have hnone : ∀ i, i ∉ s.instruments := by
    intro i hi
    rw [mem_def, hinstruments] at hi
    cases hi
  have hnoop : ∀ op, op ∉ s.operations := by
    intro op hop
    rw [mem_def, hoperations] at hop
    cases hop
  exact ⟨fun op hop => absurd hop (hnoop op), fun op hop => absurd hop (hnoop op),
    fun i hi => absurd hi (hnone i), fun i hi => absurd hi (hnone i), fun i hi => absurd hi (hnone i)⟩

end SyrocePms.Billing
