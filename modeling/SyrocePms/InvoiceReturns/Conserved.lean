import SyrocePms.InvoiceReturns.Transitions

/-! Return quantities over whole runs: the requests of a call are positive, and every access keeps
what the balances say of the allocations. -/

namespace SyrocePms.InvoiceReturns

open Lib Program Machine List

/-- What the access of a call meets: an allocation that is open, and sums of 28 digits. -/
def Pc.isSound (s : Store) (o : Chance) : Pc → Bool
  | .allocate _ invoice action requests => allocatesExactly invoice action o.stamp requests s
  | .pend _ _ (a :: _) => a.state ≠ .reserved || s.isSound a.id .providerPending
  | .handle h _ (id :: _) _ => s.isSound id h.target
  | _ => true

def isSound (p : Pool Store Pc) : Act Event Call Move → Bool
  | .step k (.advance o) => (p.threads[k]?).all fun pc => pc.isSound p.store o
  | _ => true

/-- The balance of a line agrees with the allocations of the line and with its original quantity. -/
structure Balanced (s : Store) (b : Balance) : Prop where
  reserved : b.reserved = s.quantityIn b.key AllocationState.isOpen
  confirmed : b.confirmed = s.quantityIn b.key AllocationState.isConfirmed
  reserved_nonneg : 0 ≤ b.reserved
  confirmed_nonneg : 0 ≤ b.confirmed
  bounded : b.reserved + b.confirmed ≤ b.original

def Conserved (s : Store) : Prop := ∀ b ∈ s.balances, Balanced s b

theorem Kept.conserved {s : Store} (h : Kept s) : Conserved s := fun b hb =>
  ⟨h.reserved b hb, h.confirmed b hb, h.reserved b hb ▸ h.quantityIn_nonneg, h.confirmed b hb ▸ h.quantityIn_nonneg,
    h.bounded b hb⟩

/-! ### The requests of a call -/

def Pc.Positive : Pc → Prop
  | .calculate _ _ _ found _ => ∀ r ∈ found, 0 < r.quantity
  | .allocate _ _ _ requests => ∀ r ∈ requests, 0 < r.quantity
  | _ => True

variable {s s' : Store} {pc pc' : Pc} {o : Chance} {b : Balance} {r : Request}

theorem positive_of_mem_remaining {invoice : ℕ} (h : r ∈ b.remaining invoice) : 0 < r.quantity := by
  simp only [Balance.remaining] at h
  split at h
  · rename_i hboth
    cases mem_singleton.mp h
    exact hboth.2
  · cases h

theorem validated_positive (invoice action : ℕ) (requests : List Request) : (validated invoice action requests).Positive := by
  unfold validated
  split
  · trivial
  · rename_i hnone
    intro r hr
    simpa using find?_eq_none.mp hnone r hr

theorem afterCalculation_positive {found : List Request} (h : ∀ r ∈ found, 0 < r.quantity) (invoice action : ℕ)
    (service : Service) : (afterCalculation invoice action found service).Positive := by
  unfold afterCalculation
  split
  · trivial
  · cases service with
    | request => exact validated_positive invoice action found
    | reserve => exact h

theorem start_positive (c : Call) : c.start.Positive := by
  cases c with
  | processReturnRequest type invoice action parts =>
    cases type with
    | full => exact fun r hr => absurd hr not_mem_nil
    | part =>
      simp only [Call.start]
      split
      · trivial
      · exact validated_positive invoice action parts
    | other => trivial
  | reserveReturnAction type invoice action =>
    simp only [Call.start]
    split
    · exact fun r hr => absurd hr not_mem_nil
    · trivial
  | _ => trivial

/-! ### The accesses -/

theorem commit_kept {α : Type} {t : Transaction Store Error α} {next : α → Pc} (h : Kept s)
    (hs : some (s.commit o t next) = some (s', pc')) (ht : ∀ s' x, t s = .ok (s', x) → Kept s')
    (hnext : ∀ x, (next x).Positive) : Kept s' ∧ pc'.Positive := by
  have hcommit := Option.some.inj hs
  unfold Store.commit at hcommit
  split at hcommit
  · cases hcommit
    exact ⟨h, trivial⟩
  split at hcommit
  · rename_i s₁ x hrun
    cases hcommit
    exact ⟨ht s' x (Transaction.run_eq_ok.mp hrun), hnext x⟩
  · rename_i s₁ e hrun
    cases hcommit
    exact ⟨Transaction.eq_of_run_error hrun ▸ h, trivial⟩

theorem afterPending_positive (action total : ℕ) (docs : List Allocation) (a : Option Allocation) :
    (Store.afterPending action total docs a).Positive := by
  cases a <;> trivial

theorem access_kept (h : Kept s) (hpos : pc.Positive) (hsound : pc.isSound s o = true)
    (hs : s.step o pc = some (s', pc')) : Kept s' ∧ pc'.Positive := by
  cases pc with
  | calculate service invoice action found n =>
    cases hs
    refine ⟨h, ?_⟩
    split
    · rename_i b hb
      intro r hr
      obtain hr | hr := mem_append.mp hr
      · exact hpos r hr
      · exact positive_of_mem_remaining hr
    · exact afterCalculation_positive hpos invoice action service
  | allocate service invoice action requests =>
    simp only [Store.step] at hs
    split at hs
    · cases hs
      exact ⟨h, trivial⟩
    · exact commit_kept h hs (fun s' l ht => h.allocateWithinTransaction hpos hsound ht) fun _ => trivial
  | count action =>
    cases hs
    refine ⟨h, ?_⟩
    split <;> trivial
  | find action count docs n =>
    cases hs
    refine ⟨h, ?_⟩
    split
    · trivial
    · unfold afterFind
      split <;> trivial
  | pend action total docs =>
    cases docs with
    | nil =>
      cases hs
      exact ⟨h, trivial⟩
    | cons a docs =>
      simp only [Store.step] at hs
      split at hs
      · rename_i hstate
        have hopen : s.isSound a.id .providerPending = true := by simpa [Pc.isSound, hstate] using hsound
        exact commit_kept h hs (fun s' x ht => h.updateAllocationState hopen ht) (afterPending_positive action total docs)
      · cases hs
        refine ⟨h, ?_⟩
        split <;> trivial
  | recount action total =>
    cases hs
    exact ⟨h, trivial⟩
  | handle hd action ids n =>
    cases ids with
    | nil =>
      simp only [Store.step] at hs
      split at hs <;> cases hs
      exact ⟨h, trivial⟩
    | cons id ids =>
      exact commit_kept h hs (fun s' x ht => h.updateAllocationState hsound ht) fun _ => trivial
  | returned | stopped => cases hs

theorem fetch_positive (h : s.fetch pc = some pc') : pc'.Positive := by
  cases pc with
  | handle hd action ids n =>
    obtain ⟨a, -, rfl⟩ := Option.map_eq_some_iff.mp h
    trivial
  | _ => cases h

theorem kept_init (h : returns.init s) : Kept s := by
  obtain ⟨hbalances, hallocations⟩ := h
  refine ⟨fun a ha => ?_, fun a ha => ?_, fun b hb => ?_, fun b hb => ?_, fun b hb => ?_⟩
  · simp [hallocations] at ha
  · simp [hallocations] at ha
  · simp [hbalances] at hb
  · simp [hbalances] at hb
  · simp [hbalances] at hb

theorem preserves : Preserves returns (fun p a => isSound p a = true) Kept (fun _ _ pc => pc.Positive) fun _ _ => True where
  symm _ _ _ := trivial
  init _ h := kept_init h
  env p e s' hp _ hs := by
    cases e with
    | line invoice line quantity =>
      simp only [returns] at hs
      split at hs <;> cases hs
      rename_i hquantity
      exact ⟨hp.store.initializeBalance hquantity, hp.thread⟩
  call p c pc _ _ hs := by
    cases hs
    exact ⟨start_positive c, fun _ _ => trivial⟩
  step p k m pc s' pc' hp hc ht hs := by
    have hstep : Kept s' ∧ pc'.Positive := by
      cases m with
      | advance o =>
        have hsound : pc.isSound p.store o = true := by simpa [isSound, ht] using hc
        exact access_kept hp.store (hp.thread k pc ht) hsound hs
      | fetch =>
        obtain ⟨x, hx, heq⟩ := Option.map_eq_some_iff.mp hs
        cases heq
        exact ⟨hp.store, fetch_positive hx⟩
      | stop =>
        simp only [returns, Pc.move] at hs
        split at hs <;> cases hs
        exact ⟨hp.store, trivial⟩
    exact ⟨hstep.1, hstep.2, fun j u _ hu => ⟨hp.thread j u hu, trivial⟩⟩

/-- In runs whose transitions meet open allocations, and whose sums need no more than 28 digits, the
balances agree with the allocations in every state. A transition that meets a closed allocation
ends that. -/
theorem return_quantities_conserved {p : Pool Store Pc} (hp : returns.machine.Reach (fun p a => isSound p a = true) p) :
    Conserved p.store ∧ ∀ id state a s' o, p.store.allocation? id = some a → a.state.isOpen = false → a.state ≠ state →
      updateAllocationState id state p.store = .ok (s', o) → ¬ Conserved s' := by
  have hkept := (preserves.reach hp).store
  refine ⟨hkept.conserved, fun id state a s' o hfind hclosed hne hs h => ?_⟩
  obtain ⟨b, hb, hgap⟩ := hkept.exists_gap hfind hclosed hne hs
  exact hgap.elim (fun hr => hr (h b hb).reserved) fun hc => hc (h b hb).confirmed

def outcome (p : Pool Store Pc) : List (ℚ × ℚ) × List AllocationState :=
  (p.store.balances.rows.map fun b => (b.reserved, b.confirmed), p.store.allocations.map Allocation.state)

theorem init_empty : returns.machine.init ⟨{}, []⟩ := ⟨⟨rfl, rfl⟩, rfl⟩

def go (k : ℕ) : Act Event Call Move := .step k (.advance {})

/-- A return of all that is left, at time 5. -/
def reserveAll (k action : ℕ) : List (Act Event Call Move) :=
  [.call (.reserveReturnAction .full 1 action), go k, go k, .step k (.advance { stamp := 5 })]

/-- Two entries for one line, and a return of the rest, which is prepared and succeeds. -/
theorem return_quantities_conserved_success :
    ∃ p, returns.machine.Reach (fun p a => isSound p a = true) p ∧
      outcome p = ([(3, 2)], [.reserved, .reserved, .confirmed]) ∧ Conserved p.store := by
  obtain ⟨p, hp, hv⟩ := exists_reach_of_runUnder (M := returns.machine) (C := fun p a => isSound p a = true)
    (s := ⟨{}, []⟩) (f := outcome) (v := ([(3, 2)], [.reserved, .reserved, .confirmed]))
    (List.flatten [[.env (.line 1 1 5), .call (.processReturnRequest .part 1 7 [⟨1, 1⟩, ⟨1, 2⟩]),
      go 0], reserveAll 1 8, [.call (.prepareReturnActionForProvider 8), go 2, go 2, go 2, go 2,
      go 2, go 2, go 2, go 2, .call (.success 8), .step 3 .fetch, .step 3 .fetch, .step 3 .fetch,
      go 3, go 3]]) init_empty (by decide +kernel)
  exact ⟨p, hp, hv, (return_quantities_conserved hp).1⟩

theorem exists_of_any {f : Store → Balance → Bool} (as : List (Act Event Call Move))
    (h : (returns.machine.run ⟨{}, []⟩ as).map (fun p => p.store.balances.any (f p.store)) = some true) :
    ∃ p, returns.machine.Reachable p ∧ ∃ b ∈ p.store.balances, f p.store b = true := by
  obtain ⟨p, hp, hv⟩ := exists_reachable_of_run as init_empty h
  exact ⟨p, hp, Collection.any_eq_true.mp hv⟩

/-- A preparation that has read a reserved allocation makes it pending after its release. Two entries
for one line share an id, so the release of the second one takes a confirmed one back. And a sum that
is rounded to 28 digits hides what is reserved. -/
theorem quantities_not_conserved :
    (∃ p, returns.machine.Reachable p ∧ ¬ Conserved p.store ∧ ∃ b ∈ p.store.balances,
        b.reserved < p.store.quantityIn b.key AllocationState.isOpen) ∧
      (∃ p, returns.machine.Reachable p ∧ ∃ b ∈ p.store.balances,
        p.store.quantityIn b.key AllocationState.isConfirmed < b.confirmed) ∧
      ∃ p, returns.machine.Reachable p ∧ ∃ b ∈ p.store.balances,
        b.original < p.store.quantityIn b.key AllocationState.isOpen := by
  refine ⟨?_, ?_, ?_⟩
  · obtain ⟨p, hp, b, hb, hv⟩ := exists_of_any (f := fun s b => b.reserved < s.quantityIn b.key AllocationState.isOpen)
      (List.flatten [[.env (.line 1 1 3)], reserveAll 0 8,
        [.call (.prepareReturnActionForProvider 8), go 1, go 1, go 1, .call (.validationFailure 8),
        .step 2 .fetch, go 2, go 1]]) (by decide +kernel)
    have hlt := of_decide_eq_true hv
    exact ⟨p, hp, fun h => hlt.ne (h b hb).reserved, b, hb, hlt⟩
  · obtain ⟨p, hp, b, hb, hv⟩ := exists_of_any
      (f := fun s b => s.quantityIn b.key AllocationState.isConfirmed < b.confirmed)
      ([.env (.line 1 1 3), .call (.processReturnRequest .part 1 7 [⟨1, 1⟩, ⟨1, 2⟩]), go 0,
        .call (.prepareReturnActionForProvider 7), go 1, go 1, go 1, go 1, go 1,
        .call (.success 7), .step 2 .fetch, .step 2 .fetch, go 2,
        .call (.validationFailure 7), .step 3 .fetch, .step 3 .fetch, go 3]) (by decide +kernel)
    exact ⟨p, hp, b, hb, of_decide_eq_true hv⟩
  · obtain ⟨p, hp, b, hb, hv⟩ := exists_of_any (f := fun s b => b.original < s.quantityIn b.key AllocationState.isOpen)
      (List.flatten [[.env (.line 1 1 1000), .call (.processReturnRequest .part 1 7 [⟨1,
        1 / 10 ^ 28⟩]), go 0], reserveAll 1 8])
      (by decide +kernel)
    exact ⟨p, hp, b, hb, of_decide_eq_true hv⟩

end SyrocePms.InvoiceReturns
