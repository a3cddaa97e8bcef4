import SyrocePms.Billing.Instruments

/-! What the settlement instruments conserve: the issued amount and its base are what remains
and what unreversed applications took, and the instruments that are drawn on one funding share
it. -/

namespace SyrocePms.Billing

open Lib Collection

variable {s s' : InstrumentStore}
variable {op : InstrumentOperation} {i : Instrument} {points : Option ℤ} {b : Apply}
  {r : InstrumentResult} {operationId : ℕ}

namespace InstrumentStore

def isOpen (s : InstrumentStore) (op : InstrumentOperation) : Bool :=
  !s.operations.any fun op' => op'.original == some op.id

end InstrumentStore

def InstrumentOperation.taken (w : Application → ℤ) (op : InstrumentOperation) : ℤ :=
  match op.result with
  | .applied a => w a
  | .issued _ | .reversed _ _ => 0

def InstrumentStore.unreversed (s : InstrumentStore) (w : Application → ℤ) (id : ℕ) : ℤ :=
  s.operations.sumOf (fun op => op.instrumentId == id && s.isOpen op) (InstrumentOperation.taken w)

/-! ### What an accepted request did -/

structure Issued (s : InstrumentStore) (b : Issue) (s' : InstrumentStore) (i : Instrument) : Prop where
  new : ∃ guest day f, s.fundingFor b = .ok f ∧ i = InstrumentStore.newInstrument b guest day f
  owned : i.kind = .loyaltyRedemption → ∃ guest, i.ownerGuestId = some guest
  instruments : s.instruments.insertOne i = some s'.instruments
  operations : ∃ op : InstrumentOperation, s.operations.insertOne op = some s'.operations ∧
    op.result = .issued i ∧ op.original = none
  entries : s'.entries = s.entries

structure Applied (s : InstrumentStore) (id : ℕ) (b : Apply) (s' : InstrumentStore) (i : Instrument)
    (a : Application) : Prop where
  operations : ∃ op : InstrumentOperation, s.operations.insertOne op = some s'.operations ∧
    op.instrumentId = i.id ∧ op.result = .applied a ∧ op.original = none
  found : s.instruments.get? id = some i
  status : i.status = if i.kind = .chequePendingClearance then .pending else .active
  enough : a.amount ≤ i.remaining
  whole : i.kind = .chequePendingClearance → a.amount = i.remaining
  points : ∀ v, i.pointValue = some v → v.val ∣ a.amount
  amount : a.amount = b.amount.val
  source : ∃ paid, 0 < paid ∧ s.sourceBase i a.amount paid = .ok a.sourceBase
  instruments : s'.instruments = s.instruments.update i.id (InstrumentStore.spent a.amount a.sourceBase)
    (InstrumentStore.spent_id a.amount a.sourceBase)
  entries : ∃ e, s.entries.insertOne e = some s'.entries

structure Reversed (s : InstrumentStore) (operationId : ℕ) (s' : InstrumentStore)
    (op : InstrumentOperation) (i : Instrument) (a : Application) : Prop where
  found : s.operations.get? operationId = some op
  application : op.result = .applied a
  first : ∀ op' ∈ s.operations, op'.original ≠ some operationId
  instrument : s.instruments.get? op.instrumentId = some i
  enough : i.remaining + a.amount ≤ i.issued
  instruments : s'.instruments = s.instruments.update i.id
    (InstrumentStore.restored a.amount a.sourceBase) (InstrumentStore.restored_id a.amount a.sourceBase)
  operations : ∃ op' : InstrumentOperation, s.operations.insertOne op' = some s'.operations ∧
    (∃ m n, op'.result = .reversed m n) ∧ op'.original = some operationId
  entries : ∃ e, s.entries.insertOne e = some s'.entries

theorem record_ok (h : s.record op = .ok s') :
    ∃ operations, s.operations.insertOne op = some operations ∧
      s' = { s with operations := operations } := by
  unfold InstrumentStore.record at h
  split at h
  · cases h
  · cases h
    exact ⟨_, by assumption, rfl⟩

theorem pay_ok {p : InstrumentPayment} (h : s.pay p = .ok s') :
    ∃ payments, s' = { s with payments := payments } := by
  unfold InstrumentStore.pay at h
  split at h
  · cases h
  · cases h
    exact ⟨_, rfl⟩

theorem insertInstrument_ok (h : s.insertInstrument i = .ok s') :
    ∃ instruments, s.instruments.insertOne i = some instruments ∧
      s' = { s with instruments := instruments } := by
  unfold InstrumentStore.insertInstrument at h
  split at h
  · cases h
  · cases h
    exact ⟨_, by assumption, rfl⟩

theorem post_ok {id : EntryId} {lines : List GlLine} {reverses : Option EntryId}
    (h : s.post id lines reverses = .ok s') :
    ∃ e entries, s.entries.insertOne e = some entries ∧ s' = { s with entries := entries } := by
  unfold InstrumentStore.post at h
  obtain ⟨accepted, -, h⟩ := bind_eq_ok.mp h
  obtain ⟨-, h⟩ := refuse_bind_eq_ok.mp h
  obtain ⟨-, h⟩ := refuse_bind_eq_ok.mp h
  split at h
  · cases h
  · cases h
    exact ⟨_, _, by assumption, rfl⟩

theorem takePoints_ok {amount : ℤ} (h : s.takePoints i amount = .ok (s', points)) :
    (∃ hotel, s' = { s with hotel := hotel }) ∧ ∀ v, i.pointValue = some v → v.val ∣ amount := by
  unfold InstrumentStore.takePoints at h
  split at h
  · cases h
    exact ⟨⟨s.hotel, rfl⟩, by simp_all⟩
  · rename_i v hv
    obtain ⟨hdvd, h⟩ := refuse_bind_eq_ok.mp h
    obtain ⟨m, -, h⟩ := bind_eq_ok.mp h
    obtain ⟨-, h⟩ := refuse_bind_eq_ok.mp h
    cases h
    refine ⟨⟨_, rfl⟩, fun v' hv' => ?_⟩
    obtain rfl : v = v' := by simpa [hv] using hv'
    exact Int.dvd_of_emod_eq_zero (not_not.mp hdvd)

theorem returnPoints_ok (h : s.returnPoints i points = .ok s') :
    ∃ hotel, s' = { s with hotel := hotel } := by
  unfold InstrumentStore.returnPoints at h
  split at h
  · cases h
    exact ⟨s.hotel, rfl⟩
  · split at h
    · cases h
      exact ⟨_, rfl⟩
    · cases h

theorem admitUse_ok {x : Booking × ℕ} (h : s.admitUse i b = .ok x) :
    i.status = (if i.kind = .chequePendingClearance then .pending else .active) ∧
      b.amount.val ≤ i.remaining ∧ (i.kind = .chequePendingClearance → b.amount.val = i.remaining) := by
  unfold InstrumentStore.admitUse at h
  obtain ⟨k, -, h⟩ := bind_eq_ok.mp h
  obtain ⟨-, -, h⟩ := bind_eq_ok.mp h
  obtain ⟨day, -, h⟩ := bind_eq_ok.mp h
  obtain ⟨-, h⟩ := refuse_bind_eq_ok.mp h
  obtain ⟨hlimit, h⟩ := refuse_bind_eq_ok.mp h
  obtain ⟨hterms, h⟩ := refuse_bind_eq_ok.mp h
  push Not at hlimit hterms
  exact ⟨hlimit.1, hlimit.2, fun hc => (hterms hc).1⟩

/-- A request that was settled before changes nothing. -/
theorem replay_ok {answer : Except InstrumentError InstrumentResult}
    (h : (answer.map fun r => (s, r)) = .ok (s', r)) : s' = s := by
  cases answer with
  | error e => cases h
  | ok r' => cases h; rfl

theorem issue_ok {b : Issue} (h : s.issue b = .ok (s', r)) : s' = s ∨ ∃ i, Issued s b s' i := by
  unfold InstrumentStore.issue at h
  split at h
  · exact .inl (replay_ok h)
  · obtain ⟨k, -, h⟩ := bind_eq_ok.mp h
    obtain ⟨day, -, h⟩ := bind_eq_ok.mp h
    obtain ⟨-, h⟩ := refuse_bind_eq_ok.mp h
    obtain ⟨-, h⟩ := refuse_bind_eq_ok.mp h
    obtain ⟨-, -, h⟩ := bind_eq_ok.mp h
    obtain ⟨hguest, h⟩ := refuse_bind_eq_ok.mp h
    obtain ⟨-, h⟩ := refuse_bind_eq_ok.mp h
    obtain ⟨f, hf, h⟩ := bind_eq_ok.mp h
    obtain ⟨s₁, hinsert, h⟩ := bind_eq_ok.mp h
    obtain ⟨s₂, hrecord, h⟩ := bind_eq_ok.mp h
    cases h
    obtain ⟨instruments, hins, rfl⟩ := insertInstrument_ok hinsert
    obtain ⟨operations, hops, rfl⟩ := record_ok hrecord
    exact .inr ⟨_, ⟨_, _, f, hf, rfl⟩,
      fun hk => Option.ne_none_iff_exists'.mp fun hnone => hguest ⟨.inr hk, hnone⟩,
      hins, ⟨_, hops, rfl, rfl⟩, rfl⟩

theorem apply_ok {id : ℕ} (h : s.apply id b = .ok (s', r)) :
    s' = s ∨ ∃ i a, Applied s id b s' i a := by
  unfold InstrumentStore.apply at h
  split at h
  · exact .inl (replay_ok h)
  · split at h
    · cases h
    · rename_i i hfound
      obtain ⟨⟨k, day⟩, hadmit, h⟩ := bind_eq_ok.mp h
      obtain ⟨folio, -, h⟩ := bind_eq_ok.mp h
      obtain ⟨ar, -, h⟩ := bind_eq_ok.mp h
      obtain ⟨hpaid, h⟩ := refuse_bind_eq_ok.mp h
      obtain ⟨source, hsource, h⟩ := bind_eq_ok.mp h
      obtain ⟨⟨s₁, points⟩, hpoints, h⟩ := bind_eq_ok.mp h
      obtain ⟨lines, -, h⟩ := bind_eq_ok.mp h
      obtain ⟨exchange, -, h⟩ := bind_eq_ok.mp h
      obtain ⟨s₂, hpost, h⟩ := bind_eq_ok.mp h
      obtain ⟨-, -, h⟩ := bind_eq_ok.mp h
      obtain ⟨s₃, hpay, h⟩ := bind_eq_ok.mp h
      obtain ⟨s₄, hrecord, h⟩ := bind_eq_ok.mp h
      cases h
      obtain ⟨hstatus, hle, hwhole⟩ := admitUse_ok hadmit
      obtain ⟨⟨hotel, rfl⟩, hdvd⟩ := takePoints_ok hpoints
      obtain ⟨e, entries, hins, rfl⟩ := post_ok hpost
      obtain ⟨payments, rfl⟩ := pay_ok hpay
      obtain ⟨operations, hops, rfl⟩ := record_ok hrecord
      exact .inr ⟨i, _, ⟨_, hops, rfl, rfl, rfl⟩, hfound, hstatus, hle, hwhole, hdvd, rfl,
        ⟨_, not_le.mp hpaid, hsource⟩, rfl, e, hins⟩

theorem applicationOf_eq_some {bookingId : ℕ} {a : Application}
    (h : s.applicationOf operationId bookingId = some (op, a)) :
    s.operations.get? operationId = some op ∧ op.result = .applied a := by
  unfold InstrumentStore.applicationOf at h
  obtain ⟨op', hop, h⟩ := Option.bind_eq_some_iff.mp h
  split at h
  · split at h
    · cases h
      exact ⟨hop, by assumption⟩
    · cases h
  · cases h
  · cases h

theorem reverse_ok {b : Reverse} (h : s.reverse operationId b = .ok (s', r)) :
    s' = s ∨ ∃ op i a, Reversed s operationId s' op i a := by
  unfold InstrumentStore.reverse at h
  split at h
  · exact .inl (replay_ok h)
  · split at h
    · cases h
    · rename_i op a happ
      obtain ⟨-, h⟩ := refuse_bind_eq_ok.mp h
      obtain ⟨hfirst, h⟩ := refuse_bind_eq_ok.mp h
      obtain ⟨k, -, h⟩ := bind_eq_ok.mp h
      obtain ⟨folio, -, h⟩ := bind_eq_ok.mp h
      obtain ⟨-, h⟩ := refuse_bind_eq_ok.mp h
      split at h
      · rename_i i old hinstrument hold
        obtain ⟨-, h⟩ := refuse_bind_eq_ok.mp h
        obtain ⟨henough, h⟩ := refuse_bind_eq_ok.mp h
        obtain ⟨day, -, h⟩ := bind_eq_ok.mp h
        obtain ⟨s₁, hpost, h⟩ := bind_eq_ok.mp h
        obtain ⟨s₂, hpay, h⟩ := bind_eq_ok.mp h
        obtain ⟨s₃, hpoints, h⟩ := bind_eq_ok.mp h
        obtain ⟨-, -, h⟩ := bind_eq_ok.mp h
        obtain ⟨s₄, hrecord, h⟩ := bind_eq_ok.mp h
        cases h
        obtain ⟨e, entries, hins, rfl⟩ := post_ok hpost
        obtain ⟨payments, rfl⟩ := pay_ok hpay
        obtain ⟨hotel, rfl⟩ := returnPoints_ok hpoints
        obtain ⟨operations, hops, rfl⟩ := record_ok hrecord
        obtain ⟨hop, hresult⟩ := applicationOf_eq_some happ
        have hfirst : ∀ op' ∈ s.operations, op'.original ≠ some operationId := by
          intro op' hop' heq
          refine hfirst (any_eq_true.mpr ⟨op', hop', ?_⟩)
          simp [heq]
        exact .inr ⟨op, i, a, hop, hresult, hfirst, hinstrument,
          not_lt.mp henough, rfl, ⟨_, hops, ⟨_, _, rfl⟩, rfl⟩, e, hins⟩
      · cases h

/-! ### Sums over unreversed applications -/

section Unreversed

variable {w : Application → ℤ} {id : ℕ} {op : InstrumentOperation}

/-- What an operation reverses is an earlier one. -/
def Linked (s : InstrumentStore) : Prop :=
  ∀ op ∈ s.operations, ∀ k, op.original = some k → ∃ op' ∈ s.operations, op'.id = k

theorem isOpen_of_insert (hins : s.operations.insertOne op = some s'.operations)
    (x : InstrumentOperation) : s'.isOpen x = (s.isOpen x && op.original != some x.id) := by
  have hrows := (insertOne_eq_some hins).2
  simp only [InstrumentStore.isOpen, Collection.any, hrows, List.any_append, List.any_cons,
    List.any_nil, Bool.or_false, Bool.not_or]
  rfl

theorem isOpen_of_new (hlinked : Linked s) (hins : s.operations.insertOne op = some s'.operations) :
    s.isOpen op = true := by
  rw [InstrumentStore.isOpen, Bool.not_eq_true', any_eq_false]
  intro op' hop' heq
  obtain ⟨x, hx, hid⟩ := hlinked op' hop' op.id (beq_iff_eq.mp heq)
  exact (insertOne_eq_some hins).1 x hx hid

theorem unreversed_insert (hlinked : Linked s) (hins : s.operations.insertOne op = some s'.operations)
    (horiginal : op.original = none) : s'.unreversed w id =
      s.unreversed w id + if op.instrumentId = id then op.taken w else 0 := by
  have hopen : ∀ x, s'.isOpen x = s.isOpen x := by
    intro x
    rw [isOpen_of_insert hins, horiginal]
    simp
  simp only [InstrumentStore.unreversed, hopen, sumOf_insertOne hins,
    isOpen_of_new hlinked hins, Bool.and_true, beq_iff_eq]

theorem unreversed_reverse {op' : InstrumentOperation} (hop : op ∈ s.operations)
    (hfirst : ∀ x ∈ s.operations, x.original ≠ some op.id)
    (hins : s.operations.insertOne op' = some s'.operations) (hnone : op'.taken w = 0)
    (horiginal : op'.original = some op.id) : s'.unreversed w id =
      s.unreversed w id - if op.instrumentId = id then op.taken w else 0 := by
  have hopen : s.isOpen op = true := by
    rw [InstrumentStore.isOpen, Bool.not_eq_true', any_eq_false]
    intro x hx heq
    exact hfirst x hx (beq_iff_eq.mp heq)
  have hrest : ∀ x : InstrumentOperation, (x.instrumentId == id && s'.isOpen x) =
      ((x.instrumentId == id && s.isOpen x) && x.id != op.id) := by
    intro x
    rw [isOpen_of_insert hins, horiginal, ← Bool.and_assoc]
    congr 1
    simp [bne, eq_comm]
  simp only [InstrumentStore.unreversed, sumOf_insertOne hins, hnone, ite_self, add_zero, hrest]
  rw [sumOf_ne hop]
  simp [hopen]

end Unreversed

end SyrocePms.Billing
