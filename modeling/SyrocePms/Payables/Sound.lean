import SyrocePms.Payables.Calls

/-! When supplier invoices stay sound. A call checks what it has read, so the condition on a run
says of each write that what it goes by still holds. -/

namespace SyrocePms.Payables

open Lib List Collection

variable {s s' : Ledger} {k : ℕ} {t : Thread}
variable {i total : ℕ} {f : Invoice → Invoice} {v : Invoice} {o : Posting} {x : Payment} {pc' : Pc}
  {t' : Thread} {m : Move} {q : PaymentIn} {request : Request} {r : Reply} {p : Pool Ledger Thread}

/-! ### The condition -/

/-- The paid amount that is stored is the sum of the payments. -/
def Ledger.isSettled (s : Ledger) (i : ℕ) : Bool :=
  s.invoices.rows.all fun v => decide (v.id = i → v.paid = s.paidSum i)

/-- The invoice is not void, and what its payments leave of its total covers the amount. -/
def Ledger.accepts (s : Ledger) (q : PaymentIn) : Bool :=
  s.invoices.rows.all fun v => decide (v.id = q.invoiceId →
    v.status ≠ .void ∧ 2 * (s.paidSum v.id + q.amount) ≤ 2 * (v.total : ℤ) + 1)

/-- Another call will still recalculate the invoice. -/
def isRecalculated (p : Pool Ledger Thread) (k i : ℕ) : Bool :=
  (List.range p.threads.length).any fun j =>
    j != k && (p.threads[j]?.any fun u => decide (u.pc.recalculates = some i))

/-- What a step goes by still holds. A payment is stored while its invoice is not void and its
balance covers it; a key that is found belongs to a payment of the same invoice; a
recalculation writes the sum of the payments; a void finds no payment; and a call does not stop
before its recalculation. The recalculation may be left to another call. -/
def isSoundMove (p : Pool Ledger Thread) (k : ℕ) (t : Thread) : Move → Bool
  | .stop =>
    match t.pc.recalculates with
    | some i => p.store.isSettled i || isRecalculated p k i
    | none => true
  | .advance _ =>
    match t.pc with
    | .lookup q _ | .duplicate q => (p.store.findKey q.key).all fun x => decide (x.invoiceId = q.invoiceId)
    | .insert q _ => (p.store.insertPayment (q.payment k)).isNone || p.store.accepts q
    | .recalcWrite i _ _ paid => decide (paid = p.store.paidSum i) || isRecalculated p k i
    | .voidWrite v _ => !p.store.hasPayment v.id
    | _ => true

def isSound (p : Pool Ledger Thread) : Act Empty Request Move → Bool
  | .step k m =>
    match p.threads[k]? with
    | some t => isSoundMove p k t m
    | none => true
  | _ => true

/-- The invoices and their payments, and the answers to replays. -/
structure Sound (p : Pool Ledger Thread) : Prop where
  within : ∀ v ∈ p.store.invoices, 2 * p.store.paidSum v.id ≤ 2 * (v.total : ℤ) + 1
  voidUnpaid : ∀ v ∈ p.store.invoices, v.status = .void → ∀ x ∈ p.store.payments, x.invoiceId ≠ v.id
  oncePerKey : ∀ x ∈ p.store.payments, ∀ y ∈ p.store.payments, ∀ key, x.key = some key →
    y.key = some key → x = y
  replays : ∀ (k : ℕ) t q v e, p.threads[k]? = some t → t.request = .applyPayment q →
    t.pc = .returned (.replay v e) → (∀ x ∈ p.store.payments, x.id ≠ k) ∧
      ∃ x, e = some x ∧ x.invoiceId = q.invoiceId ∧ x.key = q.key ∧
        ∃ y ∈ p.store.payments, y.id = x.id ∧ y.amount = x.amount
  settled : (∀ t ∈ p.threads, t.pc.isOver = true) → ∀ v ∈ p.store.invoices,
    v.paid = p.store.paidSum v.id ∧ v.balance = v.total - p.store.paidSum v.id ∧
      (v.status = .void ∨ v.status = statusFor v.total (p.store.paidSum v.id))

/-! ### What a step does to the ledger -/

def Payment.stamp (x : Payment) : ℕ × ℕ × ℕ × Option ℕ := (x.id, x.invoiceId, x.amount, x.key)

/-- Invoices keep their totals, payments stay, and only call `k` stores one under its number. -/
structure Evolves (k : ℕ) (s s' : Ledger) : Prop where
  invoices : ∀ v ∈ s.invoices, ∃ v' ∈ s'.invoices, v'.id = v.id ∧ v'.total = v.total
  payments : ∀ x ∈ s.payments, ∃ x' ∈ s'.payments, x'.stamp = x.stamp
  others : ∀ x' ∈ s'.payments, x'.id ≠ k → ∃ x ∈ s.payments, x.stamp = x'.stamp

theorem Evolves.refl : Evolves k s s :=
  ⟨fun v hv => ⟨v, hv, rfl, rfl⟩, fun x hx => ⟨x, hx, rfl⟩, fun x hx _ => ⟨x, hx, rfl⟩⟩

theorem mem_updateInvoice {hf : ∀ v, (f v).id = v.id} : v ∈ (s.updateInvoice i f hf).invoices ↔
      (v ∈ s.invoices ∧ v.id ≠ i) ∨ ∃ u ∈ s.invoices, u.id = i ∧ v = f u :=
  @mem_update _ _ _ _ s.invoices i f hf v

theorem evolves_updateInvoice {hf : ∀ v, (f v).id = v.id} (htotal : ∀ v, (f v).total = v.total) :
    Evolves k s (s.updateInvoice i f hf) where
  invoices v hv := by
    by_cases hi : v.id = i
    · exact ⟨f v, mem_updateInvoice.mpr (.inr ⟨v, hv, hi, rfl⟩), hf v, htotal v⟩
    · exact ⟨v, mem_updateInvoice.mpr (.inl ⟨hv, hi⟩), rfl, rfl⟩
  payments x hx := ⟨x, hx, rfl⟩
  others x hx _ := ⟨x, hx, rfl⟩

theorem stamp_record (x : Payment) (o : Posting) : (x.record o).stamp = x.stamp := by cases o <;> rfl

theorem mem_recordPayment {j : ℕ} : x ∈ (s.recordPayment j o).payments ↔
    (x ∈ s.payments ∧ x.id ≠ j) ∨ ∃ y ∈ s.payments, y.id = j ∧ x = y.record o :=
  @mem_update _ _ _ _ s.payments j (Payment.record · o) (Payment.id_record · o) x

theorem evolves_recordPayment {j : ℕ} : Evolves k s (s.recordPayment j o) where
  invoices v hv := ⟨v, hv, rfl, rfl⟩
  payments x hx := by
    by_cases hj : x.id = j
    · exact ⟨x.record o, mem_recordPayment.mpr (.inr ⟨x, hx, hj, rfl⟩), stamp_record x o⟩
    · exact ⟨x, mem_recordPayment.mpr (.inl ⟨hx, hj⟩), rfl⟩
  others x hx _ := by
    obtain ⟨hx, -⟩ | ⟨y, hy, -, rfl⟩ := mem_recordPayment.mp hx
    · exact ⟨x, hx, rfl⟩
    · exact ⟨y, hy, (stamp_record y o).symm⟩

theorem insertInvoice_eq_some (h : s.insertInvoice v = some s') :
    s'.payments = s.payments ∧ (∀ u ∈ s.invoices, u.id ≠ v.id) ∧
      ∀ u, u ∈ s'.invoices ↔ u ∈ s.invoices ∨ u = v := by
  obtain ⟨invoices, hinvoices, rfl⟩ := Option.map_eq_some_iff.mp h
  exact ⟨rfl, (insertOne_eq_some hinvoices).1, fun u => mem_insertOne hinvoices⟩

theorem insertPayment_eq_some (h : s.insertPayment x = some s') :
    s'.invoices = s.invoices ∧ s.payments.insertOne x = some s'.payments := by
  unfold Ledger.insertPayment at h
  split at h
  · cases h
  · split at h
    · cases h
    · rename_i payments hpayments
      cases h
      exact ⟨rfl, hpayments⟩

/-- A number that is free leaves the key as the reason why an insertion fails. -/
theorem insertPayment_eq_none (h : s.insertPayment x = none) (hfree : ∀ y ∈ s.payments, y.id ≠ x.id) :
    (s.findKey x.key).isSome = true := by
  unfold Ledger.insertPayment at h
  split at h
  · rename_i hkey
    exact hkey.2
  · split at h
    · rename_i hnone
      obtain ⟨payments, hsome⟩ := exists_insertOne hfree
      rw [hnone] at hsome
      cases hsome
    · cases h

theorem evolves_insertInvoice (h : s.insertInvoice v = some s') : Evolves k s s' := by
  obtain ⟨hpayments, -, hinvoices⟩ := insertInvoice_eq_some h
  refine ⟨fun u hu => ⟨u, (hinvoices u).mpr (.inl hu), rfl, rfl⟩, fun x hx => ⟨x, ?_, rfl⟩,
    fun x hx _ => ⟨x, ?_, rfl⟩⟩
  · rwa [hpayments]
  · rwa [← hpayments]

theorem evolves_insertPayment (h : s.insertPayment x = some s') : Evolves x.id s s' := by
  obtain ⟨hinvoices, hpayments⟩ := insertPayment_eq_some h
  refine ⟨fun v hv => ⟨v, hinvoices ▸ hv, rfl, rfl⟩,
    fun y hy => ⟨y, (mem_insertOne hpayments).mpr (.inl hy), rfl⟩, fun y hy hne => ?_⟩
  obtain hy | rfl := (mem_insertOne hpayments).mp hy
  · exact ⟨y, hy, rfl⟩
  · exact absurd rfl hne

theorem advance_evolves {o : Chance} (h : advance k s t o = some (s', pc')) : Evolves k s s' := by
  obtain ⟨request, pc⟩ := t
  unfold advance at h
  cases pc <;> simp only at h
  case start =>
    unfold firstRead at h
    cases request <;> simp only at h
    case createInvoice total isLira =>
      obtain ⟨s₁, hs₁, heq⟩ := Option.map_eq_some_iff.mp h
      obtain ⟨rfl, -⟩ := Prod.mk.inj heq
      exact evolves_insertInvoice hs₁
    case applyPayment =>
      split at h
      · cases h; exact .refl
      · split at h <;> cases h <;> exact .refl
    all_goals split at h <;> cases h <;> exact .refl
  case insert q v =>
    split at h <;> cases h
    · rename_i hs
      exact evolves_insertPayment hs
    · exact .refl
  case recordPayment => cases h; exact evolves_recordPayment
  case recalcWrite => cases h; exact evolves_updateInvoice fun _ => rfl
  case voidWrite => cases h; exact evolves_updateInvoice fun _ => rfl
  case recordInvoice i y =>
    cases h
    exact evolves_updateInvoice fun v => by cases y <;> rfl
  case lookup => split at h <;> cases h <;> exact .refl
  case recalcRead => split at h <;> cases h <;> exact .refl
  case returned => cases h
  case stopped => cases h
  all_goals cases h; exact .refl

theorem stepOf_cases (h : stepOf k s t m = some (s', t')) :
    (∃ o pc', m = .advance o ∧ advance k s t o = some (s', pc') ∧ t' = { t with pc := pc' }) ∨
      (m = .stop ∧ s' = s ∧ t' = { t with pc := .stopped }) := by
  cases m with
  | advance o =>
    obtain ⟨⟨s₁, pc'⟩, hadv, heq⟩ := Option.map_eq_some_iff.mp h
    obtain ⟨rfl, rfl⟩ := Prod.mk.inj heq
    exact .inl ⟨o, pc', rfl, hadv, rfl⟩
  | stop =>
    obtain ⟨rfl, rfl⟩ := Prod.mk.inj (Option.some.inj h)
    exact .inr ⟨rfl, rfl, rfl⟩

theorem stepOf_evolves (h : stepOf k s t m = some (s', t')) : Evolves k s s' := by
  obtain ⟨o, pc', -, hadv, -⟩ | ⟨-, rfl, -⟩ := stepOf_cases h
  · exact advance_evolves hadv
  · exact .refl

/-! ### Sums -/

theorem paidSum_recordPayment {j : ℕ} (i : ℕ) : (s.recordPayment j o).paidSum i = s.paidSum i := by
  have hinvoice (x : Payment) : (x.record o).invoiceId = x.invoiceId := by cases o <;> rfl
  have hamount (x : Payment) : (x.record o).amount = x.amount := by cases o <;> rfl
  exact @sumOf_update _ _ _ _ s.payments _ _ j (Payment.record · o) (Payment.id_record · o)
    (fun x => by rw [hinvoice]) fun x => by rw [hamount]

theorem paidSum_insertPayment (h : s.insertPayment x = some s') (i : ℕ) :
    s'.paidSum i = s.paidSum i + if x.invoiceId = i then (x.amount : ℤ) else 0 := by
  have hsum := sumOf_insertOne (p := fun x => decide (x.invoiceId = i))
    (f := fun x => (x.amount : ℤ)) (insertPayment_eq_some h).2
  simpa [Ledger.paidSum] using hsum

theorem paidSum_eq_zero (h : ∀ x ∈ s.payments, x.invoiceId ≠ i) : s.paidSum i = 0 :=
  sumOf_eq_zero fun x hx => decide_eq_false (h x hx)

/-! ### The books -/

/-- An invoice as its payments and its own fields say. -/
structure Kept (s : Ledger) (v : Invoice) : Prop where
  balance : v.balance = v.total - v.paid
  status : v.status = .void ∨ v.status = statusFor v.total v.paid
  within : 2 * s.paidSum v.id ≤ 2 * (v.total : ℤ) + 1
  voidUnpaid : v.status = .void → ∀ x ∈ s.payments, x.invoiceId ≠ v.id

structure Books (s : Ledger) : Prop where
  kept : ∀ v ∈ s.invoices, Kept s v
  known : ∀ x ∈ s.payments, ∃ v ∈ s.invoices, v.id = x.invoiceId

theorem statusFor_ne_void (total : ℕ) (paid : ℤ) : statusFor total paid ≠ .void := by
  unfold statusFor
  split
  · nofun
  · split <;> nofun

theorem Books.updateInvoice {hf : ∀ v, (f v).id = v.id} (h : Books s)
    (hkept : ∀ v ∈ s.invoices, v.id = i → Kept s (f v)) : Books (s.updateInvoice i f hf) where
  kept v hv := by
    obtain ⟨hv, -⟩ | ⟨u, hu, hi, rfl⟩ := mem_updateInvoice.mp hv
    · obtain ⟨hbalance, hstatus, hwithin, hvoid⟩ := h.kept v hv
      exact ⟨hbalance, hstatus, hwithin, hvoid⟩
    · obtain ⟨hbalance, hstatus, hwithin, hvoid⟩ := hkept u hu hi
      exact ⟨hbalance, hstatus, hwithin, hvoid⟩
  known x hx := by
    obtain ⟨v, hv, hid⟩ := h.known x hx
    obtain ⟨v', hv', hid'⟩ : ∃ v' ∈ (s.updateInvoice i f hf).invoices, v'.id = v.id := by
      by_cases hi : v.id = i
      · exact ⟨f v, mem_updateInvoice.mpr (.inr ⟨v, hv, hi, rfl⟩), hf v⟩
      · exact ⟨v, mem_updateInvoice.mpr (.inl ⟨hv, hi⟩), rfl⟩
    exact ⟨v', hv', hid'.trans hid⟩

theorem Books.recalculated {paid : ℤ} (h : Books s)
    (htotal : ∃ v ∈ s.invoices, v.id = i ∧ v.total = total) :
    Books (s.updateInvoice i (Invoice.recalculated total paid) fun _ => rfl) := by
  refine h.updateInvoice fun v hv hi => ?_
  obtain ⟨u, hu, hui, rfl⟩ := htotal
  obtain rfl : u = v := eq_of_key hu hv (hui.trans hi.symm)
  exact ⟨rfl, .inr rfl, (h.kept u hu).within, fun hvoid => absurd hvoid (statusFor_ne_void _ _)⟩

theorem Books.voided {read : Invoice} {reversal : Option ℕ} (h : Books s)
    (hnone : ∀ x ∈ s.payments, x.invoiceId ≠ read.id) :
    Books (s.updateInvoice read.id (Invoice.voided read reversal) fun _ => rfl) := by
  refine h.updateInvoice fun v hv hi => ?_
  obtain ⟨hbalance, -, hwithin, -⟩ := h.kept v hv
  exact ⟨hbalance, .inl rfl, hwithin, fun _ x hx => hi ▸ hnone x hx⟩

theorem Books.recordInvoice (h : Books s) :
    Books (s.updateInvoice i (Invoice.record · o) (Invoice.id_record · o)) := by
  refine h.updateInvoice fun v hv _ => ?_
  obtain ⟨hbalance, hstatus, hwithin, hvoid⟩ := h.kept v hv
  cases o <;> exact ⟨hbalance, hstatus, hwithin, hvoid⟩

theorem Books.recordPayment {j : ℕ} (h : Books s) : Books (s.recordPayment j o) := by
  have hsource : ∀ x ∈ (s.recordPayment j o).payments, ∃ y ∈ s.payments, y.invoiceId = x.invoiceId := by
    intro x hx
    obtain ⟨hx, -⟩ | ⟨y, hy, -, rfl⟩ := mem_recordPayment.mp hx
    · exact ⟨x, hx, rfl⟩
    · exact ⟨y, hy, (congrArg (fun z => z.2.1) (stamp_record y o)).symm⟩
  refine ⟨fun v hv => ?_, fun x hx => ?_⟩
  · obtain ⟨hbalance, hstatus, hwithin, hvoid⟩ := h.kept v hv
    refine ⟨hbalance, hstatus, by rwa [paidSum_recordPayment], fun hst x hx => ?_⟩
    obtain ⟨y, hy, hid⟩ := hsource x hx
    exact hid ▸ hvoid hst y hy
  · obtain ⟨y, hy, hid⟩ := hsource x hx
    exact hid ▸ h.known y hy

theorem Books.insertInvoice {isLira : Bool} (h : Books s)
    (hs : s.insertInvoice (newInvoice k total isLira) = some s') : Books s' ∧ s'.paidSum k = 0 := by
  obtain ⟨hpayments, hfree, hinvoices⟩ := insertInvoice_eq_some hs
  have hsum (i : ℕ) : s'.paidSum i = s.paidSum i := by simp only [Ledger.paidSum, hpayments]
  have hnone : ∀ x ∈ s.payments, x.invoiceId ≠ k := by
    intro x hx hk
    obtain ⟨v, hv, hid⟩ := h.known x hx
    exact hfree v hv (hid.trans hk)
  have hzero : s'.paidSum k = 0 := (hsum k).trans (paidSum_eq_zero hnone)
  refine ⟨⟨fun v hv => ?_, fun x hx => ?_⟩, hzero⟩
  · obtain hv | rfl := (hinvoices v).mp hv
    · obtain ⟨hbalance, hstatus, hwithin, hvoid⟩ := h.kept v hv
      exact ⟨hbalance, hstatus, by rwa [hsum], by rwa [hpayments]⟩
    · refine ⟨by simp [newInvoice], .inr ?_, ?_, nofun⟩
      · simp [newInvoice, statusFor]
      · show 2 * s'.paidSum k ≤ 2 * (total : ℤ) + 1
        omega
  · obtain ⟨v, hv, hid⟩ := h.known x (hpayments ▸ hx)
    exact ⟨v, (hinvoices v).mpr (.inl hv), hid⟩

theorem Books.insertPayment (h : Books s) (hs : s.insertPayment (q.payment k) = some s')
    (hknown : ∃ v ∈ s.invoices, v.id = q.invoiceId) (haccepts : s.accepts q = true) : Books s' := by
  obtain ⟨hinvoices, hpayments⟩ := insertPayment_eq_some hs
  refine ⟨fun v hv => ?_, fun x hx => ?_⟩
  · rw [hinvoices] at hv
    obtain ⟨hbalance, hstatus, hwithin, hvoid⟩ := h.kept v hv
    have hsum := paidSum_insertPayment hs v.id
    have haccept := of_decide_eq_true (all_eq_true.mp haccepts v hv)
    by_cases hi : v.id = q.invoiceId
    · obtain ⟨hopen, hfits⟩ := haccept hi
      refine ⟨hbalance, hstatus, ?_, fun hst => absurd hst hopen⟩
      rw [hsum, if_pos (show (q.payment k).invoiceId = v.id from hi.symm)]
      exact hfits
    · have hne : (q.payment k).invoiceId ≠ v.id := Ne.symm hi
      rw [if_neg hne] at hsum
      refine ⟨hbalance, hstatus, by omega, fun hst x hx => ?_⟩
      obtain hx | rfl := (mem_insertOne hpayments).mp hx
      · exact hvoid hst x hx
      · exact hne
  · rw [hinvoices]
    obtain hx | rfl := (mem_insertOne hpayments).mp hx
    · exact h.known x hx
    · exact hknown

/-! ### What a call knows -/

/-- No payment has the number of the call. -/
def New (s : Ledger) (k : ℕ) : Prop := ∀ x ∈ s.payments, x.id ≠ k

def Paid (s : Ledger) (i : ℕ) : Prop := ∃ x ∈ s.payments, x.invoiceId = i

/-- The call has stored nothing, and has found a payment under its key and for its invoice. -/
def Replayed (s : Ledger) (k : ℕ) (q : PaymentIn) (e : Option Payment) : Prop :=
  New s k ∧ ∃ x, e = some x ∧ x.invoiceId = q.invoiceId ∧ x.key = q.key ∧
    ∃ y ∈ s.payments, y.stamp = x.stamp

def Replies (s : Ledger) (k : ℕ) (request : Request) : Reply → Prop
  | .replay e => ∃ q, request = .applyPayment q ∧ Replayed s k q e
  | .stored _ => True

def Totals (s : Ledger) (i total : ℕ) : Prop := ∃ v ∈ s.invoices, v.id = i ∧ v.total = total

def Listed (s : Ledger) (i : ℕ) : Prop := ∃ v ∈ s.invoices, v.id = i

def Stage (s : Ledger) (k : ℕ) (t : Thread) : Prop :=
  match t.pc with
  | .start => New s k
  | .lookup q _ | .insert q _ => New s k ∧ t.request = .applyPayment q ∧ Listed s q.invoiceId
  | .duplicate q => New s k ∧ t.request = .applyPayment q ∧ ∃ x ∈ s.payments, x.key = q.key
  | .postPayment x .applyPayment | .recordPayment x .applyPayment _ => Paid s x.invoiceId
  | .recalcRead i r => Paid s i ∧ Replies s k t.request r
  | .recalcSum i r total | .recalcWrite i r total _ =>
    Paid s i ∧ Replies s k t.request r ∧ Totals s i total
  | .recalcReread _ r => Replies s k t.request r
  | .returned (.replay _ e) => ∃ q, t.request = .applyPayment q ∧ Replayed s k q e
  | _ => True

variable {j : ℕ}

theorem New.of_evolves (h : New s j) (hs : Evolves k s s') (hjk : j ≠ k) : New s' j := by
  intro x hx hid
  obtain ⟨y, hy, hstamp⟩ := hs.others x hx (hid ▸ hjk)
  exact h y hy ((congrArg Prod.fst hstamp).trans hid)

theorem Paid.of_evolves (h : Paid s i) (hs : Evolves k s s') : Paid s' i := by
  obtain ⟨x, hx, hi⟩ := h
  obtain ⟨x', hx', hstamp⟩ := hs.payments x hx
  exact ⟨x', hx', (congrArg (fun z => z.2.1) hstamp).trans hi⟩

theorem Totals.of_evolves (h : Totals s i total) (hs : Evolves k s s') : Totals s' i total := by
  obtain ⟨v, hv, hi, htotal⟩ := h
  obtain ⟨v', hv', hid, htotal'⟩ := hs.invoices v hv
  exact ⟨v', hv', hid.trans hi, htotal'.trans htotal⟩

theorem Listed.of_evolves (h : Listed s i) (hs : Evolves k s s') : Listed s' i := by
  obtain ⟨v, hv, hi⟩ := h
  obtain ⟨v', hv', hid, -⟩ := hs.invoices v hv
  exact ⟨v', hv', hid.trans hi⟩

theorem Replayed.of_evolves {e : Option Payment} (h : Replayed s j q e) (hs : Evolves k s s')
    (hjk : j ≠ k) : Replayed s' j q e := by
  obtain ⟨hnew, x, he, hi, hkey, y, hy, hstamp⟩ := h
  obtain ⟨y', hy', hstamp'⟩ := hs.payments y hy
  exact ⟨hnew.of_evolves hs hjk, x, he, hi, hkey, y', hy', hstamp'.trans hstamp⟩

theorem Replies.of_evolves (h : Replies s j request r) (hs : Evolves k s s') (hjk : j ≠ k) :
    Replies s' j request r := by
  cases r with
  | replay e =>
    obtain ⟨q, hq, h⟩ := h
    exact ⟨q, hq, h.of_evolves hs hjk⟩
  | stored x => trivial

/-- The steps of one call keep what the others know. -/
theorem Stage.of_evolves (h : Stage s j t) (hs : Evolves k s s') (hjk : j ≠ k) : Stage s' j t := by
  obtain ⟨request, pc⟩ := t
  cases pc
  case start => exact New.of_evolves h hs hjk
  case lookup => exact ⟨h.1.of_evolves hs hjk, h.2.1, h.2.2.of_evolves hs⟩
  case insert => exact ⟨h.1.of_evolves hs hjk, h.2.1, h.2.2.of_evolves hs⟩
  case duplicate =>
    obtain ⟨hnew, hq, x, hx, hkey⟩ := h
    obtain ⟨x', hx', hstamp⟩ := hs.payments x hx
    exact ⟨hnew.of_evolves hs hjk, hq, x', hx', (congrArg (fun z => z.2.2.2) hstamp).trans hkey⟩
  case postPayment x b =>
    cases b with
    | applyPayment => exact Paid.of_evolves h hs
    | retry => trivial
  case recordPayment x b o =>
    cases b with
    | applyPayment => exact Paid.of_evolves h hs
    | retry => trivial
  case recalcRead => exact ⟨h.1.of_evolves hs, h.2.of_evolves hs hjk⟩
  case recalcSum => exact ⟨h.1.of_evolves hs, h.2.1.of_evolves hs hjk, h.2.2.of_evolves hs⟩
  case recalcWrite => exact ⟨h.1.of_evolves hs, h.2.1.of_evolves hs hjk, h.2.2.of_evolves hs⟩
  case recalcReread => exact Replies.of_evolves h hs hjk
  case returned a =>
    cases a
    case replay v e =>
      obtain ⟨q, hq, h⟩ := h
      exact ⟨q, hq, h.of_evolves hs hjk⟩
    all_goals trivial
  all_goals trivial

/-! ### The steps -/

theorem findKey_eq_some {key : Option ℕ} (h : s.findKey key = some x) :
    x ∈ s.payments ∧ x.key = key :=
  ⟨(mem_of_findOne h).1, of_decide_eq_true (mem_of_findOne h).2⟩

theorem stage_check (hnew : New s k) (hq : request = .applyPayment q)
    (hlisted : Listed s q.invoiceId) : Stage s k ⟨request, q.check v⟩ := by
  unfold PaymentIn.check
  split
  · trivial
  · exact ⟨hnew, hq, hlisted⟩

theorem stage_replay (hnew : New s k) (hq : request = .applyPayment q)
    (hx : s.findKey q.key = some x) (hi : x.invoiceId = q.invoiceId) :
    Stage s k ⟨request, .recalcRead q.invoiceId (.replay (some x))⟩ := by
  obtain ⟨hmem, hkey⟩ := findKey_eq_some hx
  exact ⟨⟨x, hmem, hi⟩, q, hq, hnew, x, rfl, hi, hkey, x, hmem, rfl⟩

theorem stage_next {v : Option Invoice} (h : Replies s k request r) :
    Stage s k ⟨request, r.next v⟩ := by
  cases r with
  | replay e => exact h
  | stored x => trivial

theorem firstRead_stage (h : Books s) (hnew : New s k)
    (hfirst : firstRead s k request = some (s', pc')) : Books s' ∧ Stage s' k ⟨request, pc'⟩ := by
  unfold firstRead at hfirst
  cases request <;> simp only at hfirst
  case createInvoice total isLira =>
    obtain ⟨s₁, hs₁, heq⟩ := Option.map_eq_some_iff.mp hfirst
    obtain ⟨rfl, rfl⟩ := Prod.mk.inj heq
    exact ⟨(h.insertInvoice hs₁).1, trivial⟩
  case applyPayment q =>
    split at hfirst
    · cases hfirst
      exact ⟨h, trivial⟩
    · rename_i v hv
      have hlisted : Listed s q.invoiceId := ⟨v, get?_eq_some.mp hv⟩
      split at hfirst <;> cases hfirst
      · exact ⟨h, trivial⟩
      · refine ⟨h, ?_⟩
        split
        · exact ⟨hnew, rfl, hlisted⟩
        · exact stage_check hnew rfl hlisted
  all_goals
    split at hfirst
    · cases hfirst
      exact ⟨h, trivial⟩
    · cases hfirst
      refine ⟨h, ?_⟩
      try split
      all_goals trivial

theorem advance_stage {o : Chance} (h : Books p.store) (ht : Stage p.store k t)
    (hsound : isSoundMove p k t (.advance o) = true) (hadv : advance k p.store t o = some (s', pc')) :
    Books s' ∧ Stage s' k { t with pc := pc' } := by
  obtain ⟨request, pc⟩ := t
  unfold advance at hadv
  cases pc <;> simp only at hadv
  case start => exact firstRead_stage h ht hadv
  case lookup q v =>
    obtain ⟨hnew, hq, hlisted⟩ := ht
    simp only [isSoundMove] at hsound
    split at hadv <;> cases hadv
    · rename_i x hx
      rw [hx] at hsound
      exact ⟨h, stage_replay hnew hq hx (of_decide_eq_true hsound)⟩
    · exact ⟨h, stage_check hnew hq hlisted⟩
  case insert q v =>
    obtain ⟨hnew, hq, hlisted⟩ := ht
    simp only [isSoundMove] at hsound
    split at hadv <;> cases hadv
    · rename_i hs
      rw [hs] at hsound
      refine ⟨h.insertPayment hs hlisted hsound, q.payment k, ?_, rfl⟩
      exact (mem_insertOne (insertPayment_eq_some hs).2).mpr (.inr rfl)
    · rename_i hs
      obtain ⟨x, hx⟩ := Option.isSome_iff_exists.mp (insertPayment_eq_none hs hnew)
      exact ⟨h, hnew, hq, x, findKey_eq_some hx⟩
  case duplicate q =>
    obtain ⟨hnew, hq, y, hy, hkey⟩ := ht
    cases hadv
    simp only [isSoundMove] at hsound
    cases hx : p.store.findKey q.key with
    | none => exact absurd (decide_eq_true hkey) (findOne_eq_none.mp hx y hy)
    | some x =>
      rw [hx] at hsound
      exact ⟨h, stage_replay hnew hq hx (of_decide_eq_true hsound)⟩
  case readInvoiceOf x =>
    cases hadv
    refine ⟨h, ?_⟩
    split <;> trivial
  case postPayment x b =>
    cases hadv
    refine ⟨h, ?_⟩
    cases b with
    | applyPayment =>
      split
      · exact ⟨ht, trivial⟩
      · exact ht
    | retry => split <;> trivial
  case recordPayment x b y =>
    cases hadv
    refine ⟨h.recordPayment, ?_⟩
    cases b with
    | applyPayment => exact ⟨Paid.of_evolves (k := k) ht evolves_recordPayment, trivial⟩
    | retry => trivial
  case recalcRead i r =>
    obtain ⟨hpaid, hreplies⟩ := ht
    split at hadv
    · cases hadv
      exact ⟨h, trivial⟩
    · rename_i v hv
      obtain ⟨hv, hi⟩ := get?_eq_some.mp hv
      cases hadv
      refine ⟨h, ?_⟩
      split
      · exact stage_next hreplies
      · exact ⟨hpaid, hreplies, v, hv, hi, rfl⟩
  case recalcSum i r total =>
    cases hadv
    exact ⟨h, ht⟩
  case recalcWrite i r total paid =>
    cases hadv
    exact ⟨h.recalculated ht.2.2, ht.2.1⟩
  case recalcReread i r =>
    cases hadv
    exact ⟨h, stage_next ht⟩
  case voidCheck v =>
    cases hadv
    refine ⟨h, ?_⟩
    split <;> trivial
  case reverse v =>
    cases hadv
    refine ⟨h, ?_⟩
    split
    · trivial
    · split <;> trivial
  case voidWrite v reversal =>
    cases hadv
    refine ⟨h.voided fun x hx hi => ?_, trivial⟩
    have hnone : p.store.hasPayment v.id = false := by simpa [isSoundMove] using hsound
    exact Collection.any_eq_false.mp hnone x hx (decide_eq_true hi)
  case postInvoice v =>
    cases hadv
    refine ⟨h, ?_⟩
    split <;> trivial
  case recordInvoice i y =>
    cases hadv
    exact ⟨h.recordInvoice, trivial⟩
  case rereadPayment => cases hadv; exact ⟨h, trivial⟩
  case rereadInvoice => cases hadv; exact ⟨h, trivial⟩
  case returned => cases hadv
  case stopped => cases hadv

/-! ### Recalculations in flight -/

/-- After a step of call `k` from `pc` to `pc'`: the invoice is settled, a recalculation of it is in
flight, or the step is none of its concern. -/
def StaysCovered (p : Pool Ledger Thread) (k : ℕ) (pc : Pc) (s' : Ledger) (pc' : Pc) (v' : Invoice) : Prop :=
  v'.paid = s'.paidSum v'.id ∨ pc'.recalculates = some v'.id ∨ isRecalculated p k v'.id = true ∨
    ∃ v ∈ p.store.invoices, v.id = v'.id ∧ v.paid = v'.paid ∧ p.store.paidSum v.id = s'.paidSum v.id ∧
      pc.recalculates ≠ some v.id

section

variable {p : Pool Ledger Thread} {pc pc' : Pc} {v' : Invoice}

theorem staysCovered_of_same (hv : v' ∈ p.store.invoices)
    (hpc : pc.recalculates = some v'.id → pc'.recalculates = some v'.id) :
    StaysCovered p k pc p.store pc' v' := by
  by_cases h : pc.recalculates = some v'.id
  · exact .inr (.inl (hpc h))
  · exact .inr (.inr (.inr ⟨v', hv, rfl, rfl, rfl, h⟩))

theorem staysCovered_updateInvoice {hf : ∀ v, (f v).id = v.id}
    (hv : v' ∈ (p.store.updateInvoice i f hf).invoices) (hpaid : ∀ v, (f v).paid = v.paid)
    (hpc : pc.recalculates = none) : StaysCovered p k pc (p.store.updateInvoice i f hf) pc' v' := by
  have hne (j : ℕ) : pc.recalculates ≠ some j := by rw [hpc]; nofun
  obtain ⟨hmem, -⟩ | ⟨v, hmem, -, rfl⟩ := mem_updateInvoice.mp hv
  · exact .inr (.inr (.inr ⟨v', hmem, rfl, rfl, rfl, hne _⟩))
  · exact .inr (.inr (.inr ⟨v, hmem, (hf v).symm, (hpaid v).symm, rfl, hne _⟩))

theorem firstRead_staysCovered (h : Books p.store)
    (hfirst : firstRead p.store k request = some (s', pc')) (hv : v' ∈ s'.invoices) :
    StaysCovered p k .start s' pc' v' := by
  unfold firstRead at hfirst
  cases request <;> simp only at hfirst
  case createInvoice total isLira =>
    obtain ⟨s₁, hs₁, heq⟩ := Option.map_eq_some_iff.mp hfirst
    obtain ⟨rfl, -⟩ := Prod.mk.inj heq
    obtain ⟨hpayments, -, hinvoices⟩ := insertInvoice_eq_some hs₁
    obtain hv | rfl := (hinvoices v').mp hv
    · exact .inr (.inr (.inr ⟨v', hv, rfl, rfl, by simp only [Ledger.paidSum, hpayments], nofun⟩))
    · exact .inl (h.insertInvoice hs₁).2.symm
  case applyPayment q =>
    split at hfirst
    · cases hfirst
      exact staysCovered_of_same hv nofun
    · split at hfirst <;> cases hfirst <;> exact staysCovered_of_same hv nofun
  all_goals split at hfirst <;> cases hfirst <;> exact staysCovered_of_same hv nofun

theorem advance_staysCovered {o : Chance} (h : Books p.store) (ht : Stage p.store k t)
    (hsound : isSoundMove p k t (.advance o) = true) (hadv : advance k p.store t o = some (s', pc'))
    (hv : v' ∈ s'.invoices) : StaysCovered p k t.pc s' pc' v' := by
  obtain ⟨request, pc⟩ := t
  unfold advance at hadv
  cases pc <;> simp only at hadv
  case start => exact firstRead_staysCovered h hadv hv
  case lookup q v => split at hadv <;> cases hadv <;> exact staysCovered_of_same hv nofun
  case insert q v =>
    split at hadv
    · rename_i s₁ hs
      cases hadv
      by_cases hi : v'.id = q.invoiceId
      · exact .inr (.inl (congrArg some hi.symm))
      · have hsum := paidSum_insertPayment hs v'.id
        have hne : (q.payment k).invoiceId ≠ v'.id := Ne.symm hi
        rw [if_neg hne, Int.add_zero] at hsum
        rw [(insertPayment_eq_some hs).1] at hv
        exact .inr (.inr (.inr ⟨v', hv, rfl, rfl, hsum.symm, nofun⟩))
    · cases hadv
      exact staysCovered_of_same hv nofun
  case postPayment x b =>
    cases hadv
    refine staysCovered_of_same hv fun hi => ?_
    cases b with
    | applyPayment => split <;> exact hi
    | retry => cases hi
  case recordPayment x b y =>
    cases hadv
    by_cases hi : Pc.recalculates (.recordPayment x b y) = some v'.id
    · cases b with
      | applyPayment => exact .inr (.inl hi)
      | retry => cases hi
    · exact .inr (.inr (.inr ⟨v', hv, rfl, rfl, (paidSum_recordPayment _).symm, hi⟩))
  case recalcRead i r =>
    by_cases hi : i = v'.id
    · subst hi
      split at hadv
      · rename_i hnone
        cases hadv
        exact absurd rfl (get?_eq_none.mp hnone v' hv)
      · rename_i v hget
        cases hadv
        obtain ⟨hmem, hid⟩ := get?_eq_some.mp hget
        obtain ⟨⟨x, hx, hxi⟩, -⟩ := ht
        have hopen : v.status ≠ .void := by
          intro hvoid
          exact (h.kept v hmem).voidUnpaid hvoid x hx (hxi.trans hid.symm)
        rw [if_neg hopen]
        exact .inr (.inl rfl)
    · have hne : Pc.recalculates (.recalcRead i r) ≠ some v'.id := fun he => hi (Option.some.inj he)
      split at hadv <;> cases hadv <;> exact staysCovered_of_same hv fun he => absurd he hne
  case recalcSum i r total =>
    cases hadv
    exact staysCovered_of_same hv fun hi => hi
  case recalcWrite i r total paid =>
    cases hadv
    obtain ⟨hv, hne⟩ | ⟨v, hv, hi, rfl⟩ := mem_updateInvoice.mp hv
    · exact .inr (.inr (.inr ⟨v', hv, rfl, rfl, rfl, fun he => hne (Option.some.inj he).symm⟩))
    · simp only [isSoundMove, Bool.or_eq_true, decide_eq_true_eq] at hsound
      subst hi
      obtain hpaid | hother := hsound
      · exact .inl hpaid
      · exact .inr (.inr (.inl hother))
  case voidWrite => cases hadv; exact staysCovered_updateInvoice hv (fun _ => rfl) rfl
  case recordInvoice i y =>
    cases hadv
    exact staysCovered_updateInvoice hv (fun v => by cases y <;> rfl) rfl
  case returned => cases hadv
  case stopped => cases hadv
  all_goals cases hadv; exact staysCovered_of_same hv nofun

end

/-- An invoice is settled, or a recalculation of it is in flight. -/
def Covered (p : Pool Ledger Thread) : Prop :=
  ∀ v ∈ p.store.invoices, v.paid = p.store.paidSum v.id ∨
    ∃ (j : ℕ) (u : Thread), p.threads[j]? = some u ∧ u.pc.recalculates = some v.id

theorem isRecalculated_eq_true (h : isRecalculated p k i = true) :
    ∃ (j : ℕ) (u : Thread), j ≠ k ∧ p.threads[j]? = some u ∧ u.pc.recalculates = some i := by
  obtain ⟨j, -, hj⟩ := any_eq_true.mp h
  obtain ⟨hjk, hu⟩ := Bool.and_eq_true_iff.mp hj
  obtain ⟨u, hu, hi⟩ := (Option.any_eq_true _ _).mp hu
  exact ⟨j, u, bne_iff_ne.mp hjk, hu, of_decide_eq_true hi⟩

/-! ### Runs -/

def Numbered (p : Pool Ledger Thread) : Prop := ∀ x ∈ p.store.payments, x.id < p.threads.length

abbrev SoundRun (p : Pool Ledger Thread) : Prop := calls.machine.Reach (fun p a => isSound p a = true) p

theorem isSoundMove_of_isSound (h : isSound p (.step k m) = true) (ht : p.threads[k]? = some t) :
    isSoundMove p k t m = true := by
  simpa only [isSound, ht] using h

theorem preserves_stage : Program.Preserves calls (fun p a => isSound p a = true ∧ Numbered p) Books Stage
    (fun _ _ => True) where
  symm _ _ _ := trivial
  init s hs := by
    rw [hs]
    exact ⟨fun v hv => absurd hv not_mem_empty, fun x hx => absurd hx not_mem_empty⟩
  env _ e := e.elim
  call p q t hp hc ht := by
    obtain rfl := Option.some.inj ht
    exact ⟨fun x hx => Nat.ne_of_lt (hc.2 x hx), fun _ _ => trivial⟩
  step p k m t s' t' hp hc ht hs := by
    have hevolves := stepOf_evolves hs
    suffices hown : Books s' ∧ Stage s' k t' from
      ⟨hown.1, hown.2, fun j u hjk hu => ⟨(hp.thread j u hu).of_evolves hevolves hjk, trivial⟩⟩
    obtain ⟨o, pc', rfl, hadv, rfl⟩ | ⟨-, rfl, rfl⟩ := stepOf_cases hs
    · exact advance_stage hp.store (hp.thread k t ht) (isSoundMove_of_isSound hc.1 ht) hadv
    · exact ⟨hp.store, trivial⟩

theorem numbered_reach (h : SoundRun p) :
    calls.machine.Reach (fun p a => isSound p a = true ∧ Numbered p) p := by
  refine h.strengthen Numbered (fun p h₀ x hx => ?_) fun p a p' hp _ hs => ?_
  · rw [h₀.1] at hx
    exact absurd hx not_mem_empty
  · cases a with
    | env e => exact e.elim
    | call q =>
      obtain ⟨t, -, hstore, hthreads⟩ := Program.next_call hs
      intro x hx
      rw [hstore] at hx
      rw [hthreads, length_append]
      have hlt := hp x hx
      omega
    | step k m =>
      obtain ⟨t, t', ht, hstep, hthreads⟩ := Program.next_step hs
      intro x hx
      rw [hthreads, length_set]
      by_cases hk : x.id = k
      · rw [hk]
        exact (List.getElem?_eq_some_iff.mp ht).1
      · obtain ⟨y, hy, hstamp⟩ := (stepOf_evolves hstep).others x hx hk
        have hid : y.id = x.id := congrArg Prod.fst hstamp
        exact hid ▸ hp y hy

theorem inv_stage (h : SoundRun p) : Program.Inv Books Stage (fun _ _ => True) p :=
  preserves_stage.reach (numbered_reach h)

theorem covered_next {p' : Pool Ledger Thread} {a : Act Empty Request Move}
    (hp : Program.Inv Books Stage (fun _ _ => True) p) (h : Covered p) (hc : isSound p a = true)
    (hs : calls.machine.step p a = some p') : Covered p' := by
  cases a with
  | env e => exact e.elim
  | call q =>
    obtain ⟨t, -, hstore, hthreads⟩ := Program.next_call hs
    intro v hv
    rw [hstore] at hv ⊢
    obtain hpaid | ⟨j, u, hu, hi⟩ := h v hv
    · exact .inl hpaid
    · refine .inr ⟨j, u, ?_, hi⟩
      rw [hthreads, List.getElem?_append_left (List.getElem?_eq_some_iff.mp hu).1, hu]
  | step k m =>
    obtain ⟨t, t', ht, hstep, hthreads⟩ := Program.next_step hs
    have hsound := isSoundMove_of_isSound hc ht
    have hother {i : ℕ} (hi : ∃ (j : ℕ) (u : Thread), j ≠ k ∧ p.threads[j]? = some u ∧
        u.pc.recalculates = some i) :
        ∃ (j : ℕ) (u : Thread), p'.threads[j]? = some u ∧ u.pc.recalculates = some i := by
      obtain ⟨j, u, hjk, hu, hi⟩ := hi
      exact ⟨j, u, by rw [hthreads, getElem?_set_ne (Ne.symm hjk), hu], hi⟩
    intro v' hv'
    obtain ⟨o, pc', rfl, hadv, rfl⟩ | ⟨rfl, hstore, rfl⟩ := stepOf_cases hstep
    · obtain hpaid | hself | hrec | ⟨v, hv, hid, hpaid, hsum, hne⟩ :=
        advance_staysCovered hp.store (hp.thread k t ht) hsound hadv hv'
      · exact .inl hpaid
      · refine .inr ⟨k, { t with pc := pc' }, ?_, hself⟩
        rw [hthreads, List.getElem?_set_self (List.getElem?_eq_some_iff.mp ht).1]
      · exact .inr (hother (isRecalculated_eq_true hrec))
      · obtain hsettled | ⟨j, u, hu, hi⟩ := h v hv
        · rw [hpaid, hsum, hid] at hsettled
          exact .inl hsettled
        · rw [← hid]
          refine .inr (hother ⟨j, u, ?_, hu, hi⟩)
          rintro rfl
          rw [ht] at hu
          obtain rfl := Option.some.inj hu
          exact hne hi
    · rw [hstore] at hv' ⊢
      obtain hpaid | ⟨j, u, hu, hi⟩ := h v' hv'
      · exact .inl hpaid
      · by_cases hjk : j = k
        · subst hjk
          rw [ht] at hu
          obtain rfl := Option.some.inj hu
          simp only [isSoundMove, hi, Bool.or_eq_true] at hsound
          obtain hsettled | hrec := hsound
          · exact .inl (of_decide_eq_true (all_eq_true.mp hsettled v' hv') rfl)
          · exact .inr (hother (isRecalculated_eq_true hrec))
        · exact .inr (hother ⟨j, u, hjk, hu, hi⟩)

theorem covered_of_run (h : SoundRun p) : Covered p := by
  refine preserves_stage.reach_pool (fun p h₀ v hv => ?_)
    (fun p a p' hi hc hs hn => covered_next hi hc hs.1 hn) (numbered_reach h)
  rw [h₀.1] at hv
  exact absurd hv not_mem_empty

theorem not_recalculates_of_isOver {pc : Pc} (h : pc.isOver = true) : pc.recalculates ≠ some i := by
  cases pc <;> cases h <;> nofun

/-- Supplier invoices stay sound in every run in which what each write goes by still holds: no
invoice is overpaid, none is void with a payment, a replay stores nothing and answers with a
payment of its own invoice, and once all calls are over the stored amounts are those of the
payments. -/
theorem invoices_sound {p : Pool Ledger Thread} (h : SoundRun p) : Sound p := by
  have hinv := inv_stage h
  refine ⟨fun v hv => (hinv.store.kept v hv).within, fun v hv => (hinv.store.kept v hv).voidUnpaid,
    p.store.keys, fun k t q v e ht hq hpc => ?_, fun hover v hv => ?_⟩
  · obtain ⟨request, pc⟩ := t
    obtain rfl : pc = .returned (.replay v e) := hpc
    obtain rfl : request = .applyPayment q := hq
    obtain ⟨q', hq', hnew, x, he, hi, hkey, y, hy, hstamp⟩ := hinv.thread k _ ht
    obtain rfl := Request.applyPayment.inj hq'
    exact ⟨hnew, x, he, hi, hkey, y, hy, congrArg Prod.fst hstamp, congrArg (fun z => z.2.2.1) hstamp⟩
  · obtain hpaid | ⟨j, u, hu, hi⟩ := covered_of_run h v hv
    · obtain ⟨hbalance, hstatus, -, -⟩ := hinv.store.kept v hv
      rw [hpaid] at hbalance hstatus
      exact ⟨hpaid, hbalance, hstatus⟩
    · exact absurd hi (not_recalculates_of_isOver (hover u (mem_of_getElem? hu)))

def summary (p : Pool Ledger Thread) : List (ℤ × ℤ × InvoiceStatus) × List (ℕ × ℕ) :=
  (p.store.invoices.rows.map fun v => (v.paid, v.balance, v.status),
    p.store.payments.rows.map fun x => (x.invoiceId, x.amount))

/-- An invoice of 1.00, 0.60 of which is paid once under a key and asked for again, while another
invoice is voided. -/
theorem invoices_sound_partly : ∃ p, SoundRun p ∧
    summary p = ([(60, 40, .partly), (0, 50, .void)], [(0, 60)]) ∧ Sound p := by
  obtain ⟨p, hp, hv⟩ := Machine.exists_reach_of_runUnder (M := calls.machine)
    (C := fun p a => isSound p a = true) (s := ⟨.empty, []⟩) (f := summary)
    (v := ([(60, 40, .partly), (0, 50, .void)], [(0, 60)]))
    (List.flatten [[.call (.createInvoice 100 true), .call (.createInvoice 50 true)],
      List.replicate 3 (.step 0 (.advance {})), List.replicate 3 (.step 1 (.advance {})),
      [.call (.applyPayment ⟨0, 60, some 7⟩), .call (.applyPayment ⟨0, 60, some 7⟩),
      .call (.voidInvoice 1)], List.replicate 4 (.step 2 (.advance { posting := .posted 9 })),
      List.replicate 6 (.step 3 (.advance {})), List.replicate 6 (.step 2 (.advance {})),
      List.replicate 5 (.step 4 (.advance {}))]) ⟨rfl, rfl⟩ (by decide +kernel)
  exact ⟨p, hp, hv, invoices_sound hp⟩

/-- Two payments of the whole total that are both checked before either is stored. -/
theorem invoice_overpaid : ¬ ∀ p : Pool Ledger Thread, calls.machine.Reachable p → Sound p := by
  intro h
  obtain ⟨p, hp, hv⟩ := Machine.exists_reachable_of_run (M := calls.machine) (s := ⟨.empty, []⟩)
    (f := fun p => p.store.invoices.rows.all fun v =>
      decide (2 * p.store.paidSum v.id ≤ 2 * (v.total : ℤ) + 1)) (v := false)
    (List.flatten [[.call (.createInvoice 100 true)], List.replicate 3 (.step 0 (.advance {})),
      [.call (.applyPayment ⟨0, 100, some 1⟩), .call (.applyPayment ⟨0, 100, some 2⟩),
      .step 1 (.advance {}), .step 1 (.advance {}), .step 2 (.advance {}), .step 2 (.advance {}),
      .step 1 (.advance {}), .step 2 (.advance {})]]) ⟨rfl, rfl⟩ (by decide +kernel)
  have hwithin : (p.store.invoices.rows.all fun v =>
      decide (2 * p.store.paidSum v.id ≤ 2 * (v.total : ℤ) + 1)) = true :=
    all_eq_true.mpr fun v hmem => decide_eq_true ((h p hp).within v hmem)
  rw [hwithin] at hv
  cases hv

end SyrocePms.Payables
