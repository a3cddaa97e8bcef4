import SyrocePms.InvoiceReturns.Allocations

/-! What the transactions leave: an entry adds an allocation and reserves its quantity, and a
transition of an open allocation moves its quantity. -/

namespace SyrocePms.InvoiceReturns

open Lib List Collection

def Store.quantityIn (s : Store) (k : ℕ × ℕ) (p : AllocationState → Bool) : ℚ :=
  Documents.sumOf (fun a => a.key = k && p a.state) Allocation.quantity s.allocations

def AllocationState.isConfirmed (state : AllocationState) : Bool := state = .confirmed

/-- Every allocation has a positive quantity and a balance, and the balances agree with the
allocations and with the original quantities. -/
structure Kept (s : Store) : Prop where
  positive : ∀ a ∈ s.allocations, 0 < a.quantity
  owned : ∀ a ∈ s.allocations, ∃ b ∈ s.balances, b.key = a.key
  reserved : ∀ b ∈ s.balances, b.reserved = s.quantityIn b.key AllocationState.isOpen
  confirmed : ∀ b ∈ s.balances, b.confirmed = s.quantityIn b.key AllocationState.isConfirmed
  bounded : ∀ b ∈ s.balances, b.reserved + b.confirmed ≤ b.original

variable {s s' : Store} {b read : Balance} {k : ℕ × ℕ} {p : AllocationState → Bool} {reserved quantity : ℚ}
  {confirmed : Option ℚ} {a : Allocation} {id : AllocationId} {state : AllocationState} {invoice line action stamp : ℕ}
variable {r : Request} {o : Option Allocation}

theorem Kept.quantityIn_nonneg (h : Kept s) : 0 ≤ s.quantityIn k p :=
  Documents.sumOf_nonneg fun a ha _ => (h.positive a ha).le

/-! ### The writes -/

theorem Kept.initializeBalance (h : Kept s) (hquantity : 0 < quantity) :
    Kept (s.initializeBalance invoice line quantity) := by
  cases hins : s.balances.insertOne { invoice := invoice, line := line, original := quantity } with
  | none =>
    simp only [Store.initializeBalance, hins]
    exact h
  | some d =>
    simp only [Store.initializeBalance, hins]
    have hmem (b : Balance) : b ∈ d ↔ b ∈ s.balances ∨ b = { invoice := invoice, line := line, original := quantity } :=
      mem_insertOne hins
    have hnone (p : AllocationState → Bool) : s.quantityIn (invoice, line) p = 0 := by
      refine Documents.sumOf_eq_zero fun a ha => ?_
      obtain ⟨b, hb, hkey⟩ := h.owned a ha
      have hne : b.key ≠ (invoice, line) := (insertOne_eq_some hins).1 b hb
      simp [← hkey, hne]
    refine ⟨h.positive, fun a ha => ?_, fun b hb => ?_, fun b hb => ?_, fun b hb => ?_⟩
    · obtain ⟨b, hb, hkey⟩ := h.owned a ha
      exact ⟨b, (hmem b).mpr (.inl hb), hkey⟩
    · obtain hb | rfl := (hmem b).mp hb
      · exact h.reserved b hb
      · exact (hnone _).symm
    · obtain hb | rfl := (hmem b).mp hb
      · exact h.confirmed b hb
      · exact (hnone _).symm
    · obtain hb | rfl := (hmem b).mp hb
      · exact h.bounded b hb
      · simpa using hquantity.le

theorem updateBalance_eq_some (h : s.updateBalance read reserved confirmed = some s') (hread : read ∈ s.balances) :
    s'.allocations = s.allocations ∧
      ∀ b, b ∈ s'.balances ↔ (b ∈ s.balances ∧ b.key ≠ read.key) ∨ b = read.set reserved confirmed read := by
  simp only [Store.updateBalance] at h
  split at h
  · cases h
    refine ⟨rfl, fun b => ?_⟩
    have hmem : b ∈ s.balances.update read.key (read.set reserved confirmed) (read.key_set reserved confirmed) ↔
        (b ∈ s.balances ∧ b.key ≠ read.key) ∨ ∃ r ∈ s.balances, r.key = read.key ∧ b = read.set reserved confirmed r :=
      mem_update
    refine hmem.trans (or_congr_right ⟨fun hex => ?_, fun heq => ⟨read, hread, rfl, heq⟩⟩)
    obtain ⟨r, hr, hkey, rfl⟩ := hex
    rw [eq_of_key hr hread hkey]
  · cases h

theorem quantityIn_append (hallocations : s'.allocations = s.allocations ++ [a]) :
    s'.quantityIn k p = s.quantityIn k p + if a.key = k && p a.state then a.quantity else 0 := by
  rw [Store.quantityIn, hallocations, Documents.sumOf_append_one]
  rfl

theorem quantityIn_setState (hfind : s.allocation? id = some a)
    (hallocations : s'.allocations = (s.setState id state).allocations) :
    s'.quantityIn k p + (if a.key = k && p a.state then a.quantity else 0) =
      s.quantityIn k p + if a.key = k && p state then a.quantity else 0 := by
  rw [Store.quantityIn, hallocations]
  exact Documents.sumOf_updateOne hfind

theorem mem_setState {x : Allocation} (hx : x ∈ (s.setState id state).allocations) :
    ∃ y ∈ s.allocations, x.key = y.key ∧ x.quantity = y.quantity := by
  obtain hx | ⟨y, hy, -, rfl⟩ := Documents.mem_of_mem_updateOne hx
  · exact ⟨x, hx, rfl, rfl⟩
  · exact ⟨y, hy, rfl, rfl⟩

/-! ### Allocations -/

/-- An entry that goes through. -/
theorem allocateLine_eq_ok (h : allocateLine invoice action stamp r s = .ok (s', a)) :
    ∃ b ∈ s.balances, b.key = (invoice, r.line) ∧ add (add b.reserved b.confirmed) r.quantity ≤ b.original ∧
      a.key = b.key ∧ a.quantity = r.quantity ∧ a.state = .reserved ∧ s'.allocations = s.allocations ++ [a] ∧
      ∀ x, x ∈ s'.balances ↔ (x ∈ s.balances ∧ x.key ≠ b.key) ∨ x = b.set (add b.reserved r.quantity) none b := by
  simp only [allocateLine] at h
  split at h
  · cases h
  · rename_i b hget
    obtain ⟨hb, hkey⟩ := get?_eq_some.mp hget
    split at h
    · cases h
    · rename_i hfits
      split at h
      · cases h
      · rename_i s₁ hset
        cases h
        obtain ⟨hallocations, hbalances⟩ := updateBalance_eq_some hset hb
        exact ⟨b, hb, hkey, not_lt.mp hfits, hkey.symm, rfl, rfl, by rw [hallocations], hbalances⟩

theorem Kept.allocateLine (h : Kept s) (hr : 0 < r.quantity)
    (hexact : ∀ b ∈ s.balances, b.key = (invoice, r.line) → b.addsExactly r.quantity = true)
    (hs : allocateLine invoice action stamp r s = .ok (s', a)) : Kept s' := by
  obtain ⟨b, hb, hkey, hfits, hakey, hquantity, hstate, hallocations, hbalances⟩ := allocateLine_eq_ok hs
  have hb' := hexact b hb hkey
  simp only [Balance.addsExactly, Bool.and_eq_true] at hb'
  obtain ⟨⟨hused, htotal⟩, hreserved⟩ := hb'
  rw [add_eq hused, add_eq htotal] at hfits
  rw [add_eq hreserved] at hbalances
  have hother {x : Balance} (hne : x.key ≠ b.key) (p : AllocationState → Bool) :
      s'.quantityIn x.key p = s.quantityIn x.key p := by
    simp [quantityIn_append hallocations, hakey, Ne.symm hne]
  have hopen : s'.quantityIn b.key AllocationState.isOpen = s.quantityIn b.key AllocationState.isOpen + r.quantity := by
    simp [quantityIn_append hallocations, hakey, hstate, AllocationState.isOpen, hquantity]
  have hconfirmed : s'.quantityIn b.key AllocationState.isConfirmed = s.quantityIn b.key AllocationState.isConfirmed := by
    simp [quantityIn_append hallocations, hstate, AllocationState.isConfirmed]
  refine ⟨fun x hx => ?_, fun x hx => ?_, fun x hx => ?_, fun x hx => ?_, fun x hx => ?_⟩
  · rw [hallocations, mem_append, mem_singleton] at hx
    obtain hx | rfl := hx
    · exact h.positive x hx
    · rwa [hquantity]
  · rw [hallocations, mem_append, mem_singleton] at hx
    have hsome (c : Balance) (hc : c ∈ s.balances) : ∃ d ∈ s'.balances, d.key = c.key := by
      by_cases hck : c.key = b.key
      · exact ⟨_, (hbalances _).mpr (.inr rfl), hck.symm⟩
      · exact ⟨c, (hbalances c).mpr (.inl ⟨hc, hck⟩), rfl⟩
    obtain hx | rfl := hx
    · obtain ⟨c, hc, hck⟩ := h.owned x hx
      exact hck ▸ hsome c hc
    · exact hakey ▸ hsome b hb
  · obtain ⟨hx, hne⟩ | rfl := (hbalances x).mp hx
    · rw [hother hne]
      exact h.reserved x hx
    · change b.reserved + r.quantity = s'.quantityIn b.key _
      rw [hopen, h.reserved b hb]
  · obtain ⟨hx, hne⟩ | rfl := (hbalances x).mp hx
    · rw [hother hne]
      exact h.confirmed x hx
    · change b.confirmed = s'.quantityIn b.key _
      rw [hconfirmed, h.confirmed b hb]
  · obtain ⟨hx, -⟩ | rfl := (hbalances x).mp hx
    · exact h.bounded x hx
    · change b.reserved + r.quantity + b.confirmed ≤ b.original
      linarith

theorem Kept.allocateWithinTransaction {requests : List Request} {l : List Allocation} (h : Kept s)
    (hr : ∀ r ∈ requests, 0 < r.quantity) (hexact : allocatesExactly invoice action stamp requests s = true)
    (hs : allocateWithinTransaction invoice action stamp requests s = .ok (s', l)) : Kept s' := by
  induction requests generalizing s l with
  | nil =>
    cases hs
    exact h
  | cons r requests ih =>
    obtain ⟨s₁, a, l₁, hline, hrest, -⟩ := Transaction.forEach_cons hs
    simp only [allocatesExactly, hline, Except.toOption, Option.all_some, Bool.and_eq_true] at hexact
    have hkept : Kept s₁ := by
      refine h.allocateLine (hr r mem_cons_self) (fun b hb hkey => ?_) hline
      have hget : s.balances.get? (invoice, r.line) = some b := get?_eq_some.mpr ⟨hb, hkey⟩
      simpa [hget] using hexact.1
    exact ih hkept (fun x hx => hr x (mem_cons_of_mem _ hx)) hexact.2 hrest

/-! ### Transitions -/

def held (p : AllocationState → Bool) (state : AllocationState) (quantity : ℚ) : ℚ := if p state then quantity else 0

theorem Kept.move (h : Kept s) (hfind : s.allocation? id = some a) (hopen : a.state.isOpen = true)
    (hallocations : s'.allocations = (s.setState id state).allocations) (hb : b ∈ s.balances) (hkey : b.key = a.key)
    (b' : Balance) (hkey' : b'.key = b.key) (horiginal : b'.original = b.original)
    (hreserved : b'.reserved + a.quantity = b.reserved + held AllocationState.isOpen state a.quantity)
    (hconfirmed : b'.confirmed = b.confirmed + held AllocationState.isConfirmed state a.quantity)
    (hbalances : ∀ x, x ∈ s'.balances ↔ (x ∈ s.balances ∧ x.key ≠ b.key) ∨ x = b') : Kept s' := by
  have ha : a ∈ s.allocations := mem_of_find?_eq_some hfind
  have hnot : a.state.isConfirmed = false := by
    cases hs : a.state <;> simp [hs, AllocationState.isOpen, AllocationState.isConfirmed] at hopen ⊢
  have hother {x : Balance} (hne : x.key ≠ b.key) (p : AllocationState → Bool) :
      s'.quantityIn x.key p = s.quantityIn x.key p := by
    have hmove := quantityIn_setState (k := x.key) (p := p) hfind hallocations
    simpa [← hkey, Ne.symm hne] using hmove
  have hmoved (p : AllocationState → Bool) :
      s'.quantityIn b'.key p + held p a.state a.quantity = s.quantityIn b.key p + held p state a.quantity := by
    have hmove := quantityIn_setState (k := b.key) (p := p) hfind hallocations
    simpa [← hkey, hkey', held] using hmove
  have hone := hmoved AllocationState.isOpen
  have htwo := hmoved AllocationState.isConfirmed
  simp only [held, hopen, hnot, if_true, Bool.false_eq_true, if_false, add_zero] at hone htwo
  have hpos := h.positive a ha
  have hres := h.reserved b hb
  have hconf := h.confirmed b hb
  have hbound := h.bounded b hb
  refine ⟨fun x hx => ?_, fun x hx => ?_, fun x hx => ?_, fun x hx => ?_, fun x hx => ?_⟩
  · rw [hallocations] at hx
    obtain ⟨y, hy, -, hq⟩ := mem_setState hx
    rw [hq]
    exact h.positive y hy
  · rw [hallocations] at hx
    obtain ⟨y, hy, hyk, -⟩ := mem_setState hx
    obtain ⟨c, hc, hck⟩ := h.owned y hy
    by_cases hcb : c.key = b.key
    · exact ⟨b', (hbalances b').mpr (.inr rfl), by rw [hkey', ← hcb, hck, hyk]⟩
    · exact ⟨c, (hbalances c).mpr (.inl ⟨hc, hcb⟩), hck.trans hyk.symm⟩
  · obtain ⟨hx, hne⟩ | rfl := (hbalances x).mp hx
    · rw [hother hne]
      exact h.reserved x hx
    · simp only [held] at hreserved
      linarith
  · obtain ⟨hx, hne⟩ | rfl := (hbalances x).mp hx
    · rw [hother hne]
      exact h.confirmed x hx
    · simp only [held] at hconfirmed
      linarith
  · obtain ⟨hx, -⟩ | rfl := (hbalances x).mp hx
    · exact h.bounded x hx
    · have hle : held AllocationState.isOpen state a.quantity + held AllocationState.isConfirmed state a.quantity ≤ a.quantity := by
        cases state <;> simp [held, AllocationState.isOpen, AllocationState.isConfirmed, hpos.le]
      linarith

theorem adjustBalance_eq_ok (h : s.adjustBalance a state = .ok s') (hb : b ∈ s.balances) (hkey : b.key = a.key) :
    (state.isOpen = true ∧ s' = s) ∨
      (state = .confirmed ∧
        s.updateBalance b (sub b.reserved a.quantity) (some (add b.confirmed a.quantity)) = some s') ∨
      (state = .released ∧ s.updateBalance b (sub b.reserved a.quantity) none = some s') := by
  have hget : s.balances.get? a.key = some b := get?_eq_some.mpr ⟨hb, hkey⟩
  simp only [Store.adjustBalance, hget] at h
  cases state with
  | confirmed =>
    refine .inr (.inl ⟨rfl, ?_⟩)
    cases hx : s.updateBalance b (sub b.reserved a.quantity) (some (add b.confirmed a.quantity)) <;> rw [hx] at h <;> cases h
    rfl
  | released =>
    refine .inr (.inr ⟨rfl, ?_⟩)
    cases hx : s.updateBalance b (sub b.reserved a.quantity) none <;> rw [hx] at h <;> cases h
    rfl
  | reserved | providerPending | reconciliationRequired =>
    cases h
    exact .inl ⟨rfl, rfl⟩

theorem Kept.updateAllocationState (h : Kept s) (hsound : s.isSound id state = true)
    (hs : updateAllocationState id state s = .ok (s', o)) : Kept s' := by
  simp only [InvoiceReturns.updateAllocationState] at hs
  split at hs
  · cases hs
    exact h
  · rename_i a hfind
    split at hs
    · cases hs
      exact h
    · rename_i hne
      have hboth : a.state.isOpen = true ∧ s.adjustsExactly a state = true := by
        simpa [Store.isSound, hfind, hne] using hsound
      obtain ⟨hopen, hexact⟩ := hboth
      rw [if_pos hopen] at hs
      obtain ⟨s₁, hadjust, hs⟩ := Transaction.bind_eq_ok hs
      cases hs
      obtain ⟨b, hb, hkey⟩ := h.owned a (mem_of_find?_eq_some hfind)
      have hget : s.balances.get? a.key = some b := get?_eq_some.mpr ⟨hb, hkey⟩
      simp only [Store.adjustsExactly, hget, Option.all_some, Bool.or_eq_true, Bool.and_eq_true, decide_eq_true_eq] at hexact
      obtain ⟨hnew, rfl⟩ | ⟨rfl, hset⟩ | ⟨rfl, hset⟩ := adjustBalance_eq_ok hadjust hb hkey
      · have hnot : state.isConfirmed = false := by
          cases state <;> simp [AllocationState.isOpen, AllocationState.isConfirmed] at hnew ⊢
        refine h.move hfind hopen rfl hb hkey b rfl rfl (by simp [held, hnew]) (by simp [held, hnot]) fun x => ?_
        by_cases hx : x.key = b.key
        · simp only [hx, ne_eq, not_true_eq_false, and_false, false_or]
          exact ⟨fun hm => eq_of_key hm hb hx, fun heq => heq ▸ hb⟩
        · have hxb : x ≠ b := fun heq => hx (congrArg _ heq)
          simp only [hx, hxb, ne_eq, not_false_eq_true, and_true, or_false]
          rfl
      · obtain ⟨hallocations, hbalances⟩ := updateBalance_eq_some hset hb
        obtain ⟨hsub, hadd⟩ := hexact.resolve_left (by simp [AllocationState.isOpen])
        refine h.move hfind hopen hallocations hb hkey
          (b.set (sub b.reserved a.quantity) (some (add b.confirmed a.quantity)) b) rfl rfl ?_ ?_ hbalances
        · simp [Balance.set, sub_eq hsub, held, AllocationState.isOpen]
        · simp [Balance.set, add_eq (hadd.resolve_left (by simp)), held, AllocationState.isConfirmed]
      · obtain ⟨hallocations, hbalances⟩ := updateBalance_eq_some hset hb
        obtain ⟨hsub, -⟩ := hexact.resolve_left (by simp [AllocationState.isOpen])
        refine h.move hfind hopen hallocations hb hkey (b.set (sub b.reserved a.quantity) none b) rfl rfl ?_ ?_ hbalances
        · simp [Balance.set, sub_eq hsub, held, AllocationState.isOpen]
        · simp [Balance.set, held, AllocationState.isConfirmed]

theorem Kept.exists_gap (h : Kept s) (hfind : s.allocation? id = some a)
    (hclosed : a.state.isOpen = false) (hne : a.state ≠ state)
    (hs : InvoiceReturns.updateAllocationState id state s = .ok (s', o)) :
    ∃ b ∈ s'.balances, b.reserved ≠ s'.quantityIn b.key AllocationState.isOpen ∨
      b.confirmed ≠ s'.quantityIn b.key AllocationState.isConfirmed := by
  have ha : a ∈ s.allocations := mem_of_find?_eq_some hfind
  have hpos := h.positive a ha
  obtain ⟨b, hb, hkey⟩ := h.owned a ha
  have heq : s' = s.setState id state := by
    simp only [InvoiceReturns.updateAllocationState, hfind, if_neg hne, hclosed, Bool.false_eq_true, if_false] at hs
    cases hs
    rfl
  have hallocations : s'.allocations = (s.setState id state).allocations := by rw [heq]
  have hmoved (p : AllocationState → Bool) :
      s'.quantityIn b.key p + held p a.state a.quantity = s.quantityIn b.key p + held p state a.quantity := by
    have hmove := quantityIn_setState (k := b.key) (p := p) hfind hallocations
    simpa [← hkey, held] using hmove
  have hone := hmoved AllocationState.isOpen
  have htwo := hmoved AllocationState.isConfirmed
  rw [← h.reserved b hb] at hone
  rw [← h.confirmed b hb] at htwo
  refine ⟨b, heq ▸ hb, ?_⟩
  by_contra hboth
  rw [not_or, not_not, not_not] at hboth
  rw [← hboth.1] at hone
  rw [← hboth.2] at htwo
  cases hstate : a.state <;> cases state <;>
    simp [hstate, held, AllocationState.isOpen, AllocationState.isConfirmed, hpos.ne'] at hclosed hne hone htwo

end SyrocePms.InvoiceReturns
