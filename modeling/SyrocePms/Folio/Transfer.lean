import SyrocePms.Folio.Calls

/-! Transfers between folios. A transfer is whole when both of its entries are stored or
none of them is. The second insert alone decides: by then the first entry stands, and
nothing takes it back. -/

namespace SyrocePms.Folio

open Lib

/-! ### The condition -/

/-- When a transfer comes to its second insert, the indexes let its entry in exactly when
the transfer has stored its first, and it is not stopped there with only the first. -/
def Whole (call : ℕ) (s : Store) (t : Thread) (m : Move) : Prop :=
  match t.pc, m with
  | .transfer a (.insertIn inn x), .advance =>
    a.amount = 0 ∨ (x = .own ↔ s.ledger.admits (a.inEntry call inn) = true)
  | .transfer a (.insertIn _ x), .stop => a.amount = 0 ∨ x ≠ .own
  | _, _ => True

instance (call : ℕ) (s : Store) (t : Thread) (m : Move) : Decidable (Whole call s t m) := by
  rcases t with ⟨c, ⟨a, pc⟩ | ⟨a, pc⟩ | ⟨a, pc⟩ | ⟨a⟩, moved⟩ <;> rcases m with _ | _ <;>
    first | (rcases pc <;> unfold Whole <;> infer_instance) | (unfold Whole; infer_instance)

def TransfersWhole (p : Pool Store Thread) : Act Empty Call Move → Prop
  | .step k m => ∀ t ∈ p.threads[k]?, Whole k p.store t m
  | _ => True

instance (p : Pool Store Thread) (a : Act Empty Call Move) : Decidable (TransfersWhole p a) := by
  rcases a with e | c | ⟨k, m⟩ <;> unfold TransfersWhole <;> infer_instance

/-! ### What a transfer has moved -/

def Transfer.out (a : Transfer) : Inserted → ℤ
  | .own => -a.amount
  | .existing _ => 0

def InHand (s : Store) (a : Transfer) (moved : ℤ) : TransferPc → Prop
  | .requireSource => moved = 0
  | .requireTarget => moved = 0 ∧ (a.tenant, a.source) ∈ s.folios
  | .insertIn _ x => moved = a.out x ∧ (a.tenant, a.target) ∈ s.folios
  | .findIn _ x => moved = 0 ∧ a.out x = 0 ∧ (a.tenant, a.target) ∈ s.folios
  | _ => moved = 0 ∧ (a.tenant, a.source) ∈ s.folios ∧ (a.tenant, a.target) ∈ s.folios

def Moves (s : Store) (t : Thread) : Prop :=
  match t.call, t.pc with
  | .transfer a, .transfer b pc => a = b ∧ InHand s a t.moved pc
  | .transfer _, .returned _ => t.moved = 0
  | .transfer _, _ => False
  | _, .transfer _ _ => False
  | _, _ => True

variable {s s' : Store} {t t' : Thread} {call : ℕ}
variable {c : Call}

/-- Calls do not change which folios there are, so that what a call has moved stays. -/
theorem Moves.of_folios (h : Moves s t) (hf : s'.folios = s.folios) : Moves s' t := by
  obtain ⟨c, pc, moved⟩ := t
  cases c <;> cases pc <;> try exact h
  rename_i a b pc
  obtain ⟨rfl, h⟩ := h
  refine ⟨rfl, ?_⟩
  cases pc <;> simpa only [InHand, hf] using h

theorem mem_of_hasFolio {tenant folio : ℕ} (h : s.hasFolio tenant folio = true) :
    (tenant, folio) ∈ s.folios := List.contains_iff_mem.mp h

theorem transferStep_moves {a : Transfer} {pc : TransferPc} {moved : ℤ}
    (h : InHand s a moved pc) (hc : Whole call s ⟨.transfer a, .transfer a pc, moved⟩ .advance) :
    (transferStep call s a pc).1.folios = s.folios ∧
      Moves (transferStep call s a pc).1 ⟨.transfer a, (transferStep call s a pc).2,
        moved + ((transferStep call s a pc).1.total a.tenant - s.total a.tenant)⟩ := by
  cases pc with
  | requireSource =>
    refine ⟨rfl, ?_⟩
    have h₀ : moved + (s.total a.tenant - s.total a.tenant) = 0 := by rw [h]; omega
    simp only [transferStep]
    split
    · exact ⟨rfl, h₀, mem_of_hasFolio ‹_›⟩
    · exact h₀
  | requireTarget =>
    obtain ⟨hm, hs⟩ := h
    refine ⟨rfl, ?_⟩
    have h₀ : moved + (s.total a.tenant - s.total a.tenant) = 0 := by omega
    simp only [transferStep]
    split
    · exact ⟨rfl, h₀, hs, mem_of_hasFolio ‹_›⟩
    · exact h₀
  | sequenceOut =>
    obtain ⟨hm, hs⟩ := h
    exact ⟨rfl, rfl, by simp [transferStep, hm], hs⟩
  | sequenceIn out =>
    obtain ⟨hm, hs⟩ := h
    exact ⟨rfl, rfl, by simp [transferStep, hm], hs⟩
  | insertOut out inn =>
    obtain ⟨hm, hsrc, htgt⟩ := h
    have h₀ : moved + (s.total a.tenant - s.total a.tenant) = 0 := by omega
    simp only [transferStep]
    cases hins : s.ledger.insertOne (a.outEntry call out) with
    | none => exact ⟨rfl, rfl, h₀, hsrc, htgt⟩
    | some l =>
      have htotal := Store.total_insertOne hins hsrc
      refine ⟨rfl, rfl, ?_, htgt⟩
      change moved + (({ s with ledger := l } : Store).total a.tenant - s.total a.tenant) = -a.amount
      have hout : ({ s with ledger := l } : Store).total a.tenant = s.total a.tenant + -a.amount := htotal
      omega
  | findOut out inn =>
    obtain ⟨hm, hsrc, htgt⟩ := h
    refine ⟨rfl, ?_⟩
    have h₀ : moved + (s.total a.tenant - s.total a.tenant) = 0 := by omega
    simp only [transferStep]
    split
    · exact ⟨rfl, h₀, htgt⟩
    · exact h₀
  | insertIn inn x =>
    obtain ⟨hm, htgt⟩ := h
    simp only [transferStep]
    cases hins : s.ledger.insertOne (a.inEntry call inn) with
    | none =>
      -- the entry is refused, so the transfer has not stored its first
      have hout : a.out x = 0 := by
        obtain hzero | hiff := hc
        · cases x <;> simp [Transfer.out, hzero]
        · have hno := Ledger.insertOne_none hins
          cases x with
          | own => rw [hiff.mp rfl] at hno; cases hno
          | existing id => rfl
      have h₀ : moved + (s.total a.tenant - s.total a.tenant) = 0 := by omega
      exact ⟨rfl, rfl, h₀, hout, htgt⟩
    | some l =>
      -- the entry is stored, and takes back what the first has moved
      have htotal : ({ s with ledger := l } : Store).total a.tenant = s.total a.tenant + a.amount :=
        Store.total_insertOne hins htgt
      refine ⟨rfl, ?_⟩
      have hout : a.out x = -a.amount := by
        obtain hzero | hiff := hc
        · cases x <;> simp [Transfer.out, hzero]
        · rw [hiff.mpr (Ledger.insertOne_some hins).1]
          rfl
      change moved + (({ s with ledger := l } : Store).total a.tenant - s.total a.tenant) = 0
      omega
  | findIn inn x =>
    obtain ⟨hm, hout, htgt⟩ := h
    refine ⟨rfl, ?_⟩
    have h₀ : moved + (s.total a.tenant - s.total a.tenant) = 0 := by omega
    simp only [transferStep]
    split <;> exact h₀

theorem postingStep_folios (p : Posting) (pc : PostingPc) :
    (postingStep call s p pc).1.folios = s.folios := by
  cases pc <;> simp only [postingStep]
  split <;> rfl

theorem voidStep_folios (v : VoidRequest) (pc : VoidPc) :
    (voidStep call s v pc).1.folios = s.folios := by
  cases pc <;> simp only [voidStep]
  split <;> rfl

theorem postingStep_quiet (hc : ∀ a, c ≠ .transfer a) (p : Posting) (pc : PostingPc) (moved : ℤ) :
    Moves s' ⟨c, (postingStep call s p pc).2, moved⟩ := by
  cases c with
  | transfer a => exact absurd rfl (hc a)
  | _ => cases pc <;> simp only [postingStep] <;> (repeat' split) <;> trivial

theorem voidStep_quiet (hc : ∀ a, c ≠ .transfer a) (v : VoidRequest) (pc : VoidPc) (moved : ℤ) :
    Moves s' ⟨c, (voidStep call s v pc).2, moved⟩ := by
  cases c with
  | transfer a => exact absurd rfl (hc a)
  | _ => cases pc <;> simp only [voidStep] <;> (repeat' split) <;> trivial

theorem step_moves {m : Move} (h : Moves s t) (hc : Whole call s t m)
    (hs : t.step call s m = some (s', t')) : s'.folios = s.folios ∧ Moves s' t' := by
  obtain ⟨c, pc, moved⟩ := t
  cases m with
  | advance =>
    obtain ⟨r, hadv, heq⟩ := Option.map_eq_some_iff.mp hs
    cases heq
    cases pc with
    | post p pc =>
      cases hadv
      exact ⟨postingStep_folios p pc, postingStep_quiet (fun a hca => by subst hca; exact h) p pc _⟩
    | void v pc =>
      cases hadv
      exact ⟨voidStep_folios v pc, voidStep_quiet (fun a hca => by subst hca; exact h) v pc _⟩
    | transfer a pc =>
      cases hadv
      cases c with
      | transfer b =>
        obtain ⟨rfl, h⟩ := h
        exact transferStep_moves h hc
      | post p => exact h.elim
      | void v => exact h.elim
    | returned r => cases hadv
  | stop =>
    cases pc with
    | returned r => cases hs
    | post p pc =>
      cases hs
      cases c <;> first | exact ⟨rfl, trivial⟩ | exact h.elim
    | void v pc =>
      cases hs
      cases c <;> first | exact ⟨rfl, trivial⟩ | exact h.elim
    | transfer a pc =>
      cases hs
      cases c with
      | transfer b =>
        obtain ⟨rfl, h⟩ := h
        refine ⟨rfl, ?_⟩
        change moved = 0
        cases pc with
        | insertIn inn x =>
          obtain hzero | hx := hc <;> cases x <;> simp_all [InHand, Transfer.out]
        | requireSource => exact h
        | _ => exact h.1
      | post p => exact h.elim
      | void v => exact h.elim

theorem begin_moves (c : Call) : Moves s (.begin c) := by
  cases c with
  | transfer a => exact ⟨rfl, rfl⟩
  | _ => trivial

theorem preserves : calls.Preserves TransfersWhole (fun _ => True) (fun s _ t => Moves s t)
    (fun _ _ => True) where
  symm _ _ _ := trivial
  init _ _ := trivial
  env _ e := nomatch e
  call p c t _ _ ht := by
    obtain rfl : Thread.begin c = t := Option.some.inj ht
    exact ⟨begin_moves c, fun _ _ => trivial⟩
  step p k m t s' t' hp hc ht hs := by
    obtain ⟨hf, hmoves⟩ := step_moves (hp.thread k t ht) (hc t ht) hs
    exact ⟨trivial, hmoves, fun j u _ hu => ⟨(hp.thread j u hu).of_folios hf, trivial⟩⟩

/-- A transfer that is over has left the sum of the balances of its tenant as it was,
while every transfer is whole. -/
theorem transfer_conserves {p : Pool Store Thread} (hp : calls.machine.Reach TransfersWhole p)
    {k : ℕ} {t : Thread} (ht : p.threads[k]? = some t) {a : Transfer} (ha : t.call = .transfer a)
    {r : Answer} (hr : t.pc = .returned r) : t.moved = 0 := by
  have hmoves : Moves p.store t := (preserves.reach hp).thread k t ht
  simpa only [Moves, ha, hr] using hmoves

/-! ### Runs -/

def twoFolios : Store := ⟨[(1, 1), (1, 2)], .empty⟩

theorem twoFolios_init : calls.machine.init ⟨twoFolios, []⟩ := ⟨trivial, rfl⟩

def fifty (source target : ℕ) : Transfer where
  tenant := 1
  source := source
  target := target
  amount := 5000

/-- A transfer between two folios, with a charge in between. -/
theorem transfer_conserves_charged : ∃ p t, calls.machine.Reach TransfersWhole p ∧
    p.threads[0]? = some t ∧ p.store.total 1 = 3000 ∧ t.moved = 0 := by
  obtain ⟨p, hp, hv⟩ := Machine.exists_reach_of_runUnder (C := TransfersWhole)
    (f := fun p : Pool Store Thread =>
      (p.threads[0]?.map fun t => (t.call, t.pc), p.store.total 1))
    (v := (some (.transfer (fifty 1 2),
      .returned (.transferred (.drawn 0 0) (.drawn 0 1))), 3000))
    (List.flatten [[.call (.transfer (fifty 1 2)), .call (.post ⟨.charge, 1, 1, 3000, none⟩)],
      List.replicate 5 (.step 0 .advance), List.replicate 4 (.step 1 .advance), [.step 0 .advance]])
    twoFolios_init (by decide +kernel)
  obtain ⟨hthread, htotal⟩ := Prod.mk.inj hv
  obtain ⟨t, ht, hcall⟩ := Option.map_eq_some_iff.mp hthread
  obtain ⟨hc, hpc⟩ := Prod.mk.inj hcall
  exact ⟨p, t, hp, ht, htotal, transfer_conserves hp ht hc hpc⟩

/-- A transfer from a folio to itself raises, and its first entry stays. -/
theorem transfer_to_itself : ∃ p t a, calls.machine.Reachable p ∧ p.threads[0]? = some t ∧
    t.call = .transfer a ∧ t.pc = .returned (.raised .duplicateKey) ∧ t.moved = -5000 := by
  obtain ⟨p, hp, hv⟩ := Machine.exists_reachable_of_run
    (f := fun p : Pool Store Thread => p.threads[0]?)
    (v := some ⟨.transfer (fifty 1 1), .returned (.raised .duplicateKey), -5000⟩)
    (.call (.transfer (fifty 1 1)) :: List.replicate 7 (.step 0 .advance))
    twoFolios_init (by decide +kernel)
  exact ⟨p, _, fifty 1 1, hp, hv, rfl, rfl, rfl⟩

end SyrocePms.Folio
