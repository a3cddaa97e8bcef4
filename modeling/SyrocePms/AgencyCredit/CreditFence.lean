import SyrocePms.AgencyCredit.Capacity
import SyrocePms.AgencyCredit.Contexts

/-! The credit check behind the fence. Between the check and the store of a sale no other
context of the agency writes, so the rows that were read are still those that count, and what
the check has computed bounds the exposure with the sale. -/

namespace SyrocePms.AgencyCredit

open Lib Program

variable {b b' : Books} {scope : Scope} {g : Guard} {x : Sale} {o : Chance} {pc pc' : Pc} {k : ℕ}
  {s s' : Store} {t : Thread} {p p' q q' : Pool Store Thread}
variable {id : ℕ} {a : Act Books Call Chance} {limit : ℤ}

/-! ### Writes from elsewhere -/

/-- Bookings and charges of the agency stay, and money comes in. -/
structure Receives (scope : Scope) (b b' : Books) : Prop where
  rows : (b'.bookings.rows.filter fun r => r.scope = scope) = b.bookings.rows.filter fun r => r.scope = scope
  debtors : b'.debtors scope = b.debtors scope
  amounts : ∀ i, (b.evidenceOf scope).LeAt (b'.evidenceOf scope) i

theorem openRows_eq (b : Books) (scope : Scope) (debtors : List ℕ) (exclude : Option ℕ) :
    b.openRows scope debtors exclude = (b.bookings.rows.filter fun r => r.scope = scope).filter fun r =>
      ((r.status ≠ .cancelled && !r.isPaid) || debtors.contains r.id) && exclude ≠ some r.id := by
  rw [Books.openRows, List.filter_filter]
  refine List.filter_congr fun r _ => ?_
  rw [Bool.and_assoc, Bool.and_comm]

theorem Receives.openRows (h : Receives scope b b') (exclude : Option ℕ) :
    b'.openRows scope (b'.debtors scope) exclude = b.openRows scope (b.debtors scope) exclude := by
  rw [openRows_eq, openRows_eq, h.rows, h.debtors]

theorem Receives.statements (h : Receives scope b b') (i : ℕ) :
    (evidence (b.statementsOf scope) []).LeAt (evidence (b'.statementsOf scope) []) i :=
  ⟨(h.amounts i).adjusted, (h.amounts i).owed, (h.amounts i).settled, le_rfl⟩

/-- A sale of another agency. -/
theorem receives_of_store {scope' : Scope} (hne : scope' ≠ scope)
    (h : b.store scope' x id = some b') : Receives scope b b' := by
  unfold Books.store at h
  split at h
  · obtain ⟨bookings, hins, rfl⟩ := Option.map_eq_some_iff.mp h
    refine ⟨?_, rfl, fun _ => .refl _ _⟩
    simp [(Collection.insertOne_eq_some hins).2, Sale.booking, hne]
  · split at h
    · cases h
      refine ⟨filter_map_eq (fun y => ?_) fun y hy => ?_, rfl, fun _ => .refl _ _⟩
      · split <;> rfl
      · rw [if_neg]
        intro hmod
        have hscope : y.scope = scope' := (Books.isModified_iff.mp hmod).2.1
        exact hne (hscope.symm.trans (of_decide_eq_true hy))
    · cases h

/-- Between two steps nothing else is written than receipts of the agency. -/
def Quiet (scope : Scope) (p : Pool Store Thread) : Act Books Call Chance → Prop
  | .env b => Receives scope p.store.books b
  | _ => True

/-! ### What a body has read -/

/-- What has been read is still true, or an upper bound. -/
def Knows (b : Books) (g : Guard) (x : Sale) : Pc → Prop
  | .debtors t => x.terms = .ok (some t)
  | .rows t debtors => x.terms = .ok (some t) ∧ debtors = b.debtors g.scope
  | .statements t rows =>
    x.terms = .ok (some t) ∧ rows = b.openRows g.scope (b.debtors g.scope) x.modifies
  | .payments t rows statements =>
    x.terms = .ok (some t) ∧ rows = b.openRows g.scope (b.debtors g.scope) x.modifies ∧
      ∀ i ∈ x.ids rows, (evidence statements []).LeAt (evidence (b.statementsOf g.scope) []) i
  | .store c => x.terms = .ok c ∧ ∀ t, c = some t → Admits b g.scope x t
  | _ => True

theorem knows_of_not_inBody (h : pc.inBody = false) : Knows b g x pc := by
  cases pc <;> trivial

theorem Admits.of_receives {t : Terms} (h : Admits b scope x t) (hr : Receives scope b b') : Admits b' scope x t := by
  obtain ⟨e, hle, hcap⟩ := h
  rw [Admits, hr.openRows]
  exact ⟨e, fun i hi => (hle i hi).trans (hr.amounts i), hcap⟩

theorem Knows.of_receives (h : Knows b g x pc) (hr : Receives g.scope b b') : Knows b' g x pc := by
  cases pc with
  | debtors t => exact h
  | rows t debtors => exact ⟨h.1, h.2.trans hr.debtors.symm⟩
  | statements t rows => exact ⟨h.1, h.2.trans (hr.openRows _).symm⟩
  | payments t rows statements =>
    exact ⟨h.1, h.2.1.trans (hr.openRows _).symm, fun i hi => (h.2.2 i hi).trans (hr.statements i)⟩
  | store c => exact ⟨h.1, fun t ht => (h.2 t ht).of_receives hr⟩
  | acquire => trivial
  | resume => trivial
  | check => trivial
  | stored => trivial
  | release => trivial
  | retain => trivial
  | left => trivial

theorem knows_orReject {α : Type*} {y : Except CreditError α} {f : α → Pc}
    (h : ∀ z, y = .ok z → Knows b g x (f z)) : Knows b g x (orReject y f) := by
  cases y with
  | error => trivial
  | ok z => exact h z rfl

theorem knows_bodyStep (h : Knows b g x pc) (hs : bodyStep b g x o pc = some (b', pc')) : Knows b' g x pc' := by
  cases pc with
  | check =>
    cases hs
    refine knows_orReject fun c hc => ?_
    cases c with
    | none => exact ⟨hc, fun t ht => by cases ht⟩
    | some t => exact hc
  | debtors t =>
    cases hs
    exact ⟨h, rfl⟩
  | rows t debtors =>
    cases hs
    exact ⟨h.1, by rw [h.2]⟩
  | statements t rows =>
    cases hs
    exact ⟨h.1, h.2, fun i hi => statementsFor_le b g.scope hi⟩
  | payments t rows statements =>
    cases hs
    obtain ⟨hterms, rfl, hle⟩ := h
    refine knows_orReject fun u hu => ⟨hterms, fun t' ht => ?_⟩
    cases ht
    refine ⟨_, fun i hi => evidence_le (hle i hi) ?_, hu⟩
    exact le_of_eq (congrArg collectedAmount (paymentsFor_collected b g.scope hi))
  | store c =>
    simp only [bodyStep] at hs
    split at hs
    · split at hs <;> cases hs
      · trivial
      · cases o.lost <;> trivial
    · cases hs
  | stored =>
    cases hs
    trivial
  | acquire => cases hs
  | resume => cases hs
  | release => cases hs
  | retain => cases hs
  | left => cases hs

/-! ### What a step writes -/

theorem bodyStep_books (hs : bodyStep b g x o pc = some (b', pc')) :
    b' = b ∨ b.store g.scope x o.newId = some b' := by
  cases pc <;> simp only [bodyStep] at hs
  case store =>
    split at hs
    · split at hs <;> cases hs
      · exact .inl rfl
      · rename_i hstore
        exact .inr hstore
    · cases hs
  all_goals first | (cases hs; exact .inl rfl) | cases hs

theorem moved_books (h : Moved k s t o s' pc') : s'.books = s.books ∨
    (t.pc.inBody = true ∧ s.books.store t.guard.scope t.sale o.newId = some s'.books) := by
  cases h with
  | body hpc _ hbody =>
    obtain ⟨rfl, -⟩ | hbody := hbody
    · exact .inl rfl
    · exact (bodyStep_books hbody).imp_right fun h => ⟨hpc, h⟩
  | blocked => exact .inl rfl
  | acquired => exact .inl rfl
  | tookOver => exact .inl rfl
  | kept => exact .inl rfl
  | released => exact .inl rfl
  | retained => exact .inl rfl

/-- The steps of the context itself. -/
theorem knows_move (h : Knows s.books t.guard t.sale t.pc) (hm : Moved k s t o s' pc') :
    Knows s'.books t.guard t.sale pc' := by
  cases hm with
  | body _ _ hbody =>
    obtain ⟨-, e, rfl⟩ | hbody := hbody
    · exact knows_of_not_inBody (by cases e <;> rfl)
    · exact knows_bodyStep h hbody
  | blocked _ hpc' => obtain rfl | ⟨rfl, -⟩ := hpc' <;> trivial
  | acquired _ _ hpc' => obtain rfl | rfl := hpc' <;> trivial
  | tookOver _ _ hpc' => obtain rfl | rfl := hpc' <;> trivial
  | kept => trivial
  | released => trivial
  | retained => trivial

/-! ### From the check to the store -/

/-- Context `k` knows what it has read. -/
def Informed (k : ℕ) (g : Guard) (x : Sale) (p : Pool Store Thread) : Prop :=
  contexts.machine.Reachable p ∧ ∃ pc, p.threads[k]? = some ⟨g, x, pc⟩ ∧ Knows p.store.books g x pc

theorem informed_next (h : Informed k g x p) (hq : Quiet g.scope p a)
    (hs : contexts.machine.step p a = some p') : Informed k g x p' := by
  obtain ⟨hp, pc, ht, hknows⟩ := h
  refine ⟨hp.tail ⟨a, trivial, hs⟩, ?_⟩
  cases a with
  | env b =>
    obtain ⟨henv, hthreads⟩ := next_env hs
    have hst : { p.store with books := b } = p'.store := Option.some.inj henv
    rw [hthreads, ← hst]
    exact ⟨pc, ht, hknows.of_receives hq⟩
  | call c =>
    obtain ⟨u, -, hst, hthreads⟩ := next_call hs
    rw [hthreads, hst, List.getElem?_append_left (List.getElem?_eq_some_iff.mp ht).1]
    exact ⟨pc, ht, hknows⟩
  | step j o =>
    obtain ⟨u, u', hu, hst, hset⟩ := next_step hs
    obtain ⟨pc', rfl, hm⟩ := step_moved hst
    rw [hset]
    by_cases hjk : j = k
    · subst hjk
      obtain rfl := Option.some.inj (ht.symm.trans hu)
      exact ⟨pc', List.getElem?_set_self (List.getElem?_eq_some_iff.mp ht).1, knows_move hknows hm⟩
    · rw [List.getElem?_set_ne hjk]
      refine ⟨pc, ht, ?_⟩
      cases hpc : pc.inBody with
      | false => exact knows_of_not_inBody hpc
      | true =>
        obtain hsame | ⟨hbody, hstore⟩ := moved_books hm
        · rw [hsame]
          exact hknows
        · refine hknows.of_receives (receives_of_store (fun hscope => hjk ?_) hstore)
          exact inBody_unique hp hu ht hbody hpc hscope

theorem terms_eq_none (h : x.terms = .ok none) : x.contract.limit = none := by
  unfold Sale.terms at h
  cases hl : x.contract.limit with
  | none => rfl
  | some l =>
    rw [hl] at h
    obtain ⟨limit, -, h⟩ := bind_eq_ok h
    obtain ⟨currency, -, h⟩ := bind_eq_ok h
    obtain ⟨saleCurrency, -, h⟩ := bind_eq_ok h
    by_cases hne : saleCurrency ≠ currency
    · rw [if_pos hne] at h
      cases h
    · rw [if_neg hne] at h
      obtain ⟨net, -, h⟩ := bind_eq_ok h
      cases h

theorem exposure_of_store {c : Option Terms} (h : Knows b g x (.store c))
    (hfresh : b.isFresh id = true) (hs : b.store g.scope x id = some b')
    (hl : x.contract.limit = some limit) :
    ∃ currency d, x.currency = .code currency ∧ b'.exposure g.scope currency = .ok d ∧ d ≤ limit := by
  obtain ⟨hterms, hadmits⟩ := h
  cases c with
  | none =>
    rw [terms_eq_none hterms] at hl
    cases hl
  | some t =>
    obtain ⟨hlimit, hcurrency, -⟩ := terms_eq_some hterms
    obtain rfl : t.limit = limit := Option.some.inj (hlimit.symm.trans hl)
    unfold Books.store at hs
    split at hs
    · rename_i hm
      obtain ⟨bookings, hins, rfl⟩ := Option.map_eq_some_iff.mp hs
      obtain ⟨d, hd, hle⟩ := exposure_of_insert hm hterms (hadmits t rfl) hfresh hins
      exact ⟨t.currency, d, hcurrency, hd, hle⟩
    · rename_i i hm
      split at hs
      · rename_i hany
        cases hs
        obtain ⟨d, hd, hle⟩ := exposure_of_update hm hterms (hadmits t rfl) hany
        exact ⟨t.currency, d, hcurrency, hd, hle⟩
      · cases hs

/-- A step of context `k` stores its sale. -/
structure Sells (k : ℕ) (o : Chance) (t : Thread) (p p' : Pool Store Thread) : Prop where
  step : contexts.machine.step p (.step k o) = some p'
  thread : p.threads[k]? = some t
  exit : o.exit = none
  pc : ∃ c, t.pc = .store c
  write : p.store.books.store t.guard.scope t.sale o.newId = some p'.store.books

theorem Sells.isFresh (h : Sells k o t p p') : p.store.books.isFresh o.newId = true := by
  obtain ⟨c, hpc⟩ := h.pc
  obtain ⟨u, u', hu, hst, -⟩ := next_step h.step
  obtain rfl : u = t := Option.some.inj (hu.symm.trans h.thread)
  obtain ⟨r, hadv, -⟩ := Option.map_eq_some_iff.mp hst
  simp only [advance, hpc, h.exit] at hadv
  obtain ⟨r, hbody, -⟩ := Option.map_eq_some_iff.mp hadv
  simp only [bodyStep] at hbody
  split at hbody
  · assumption
  · cases hbody

theorem exposure_of_sells (hp : contexts.machine.Reachable p)
    (ht : p.threads[k]? = some ⟨g, x, .check⟩) (hq : contexts.machine.Path (Quiet g.scope) p q)
    (h : Sells k o t q q') (hl : x.contract.limit = some limit) :
    ∃ currency d, x.currency = .code currency ∧ q'.store.books.exposure g.scope currency = .ok d ∧ d ≤ limit := by
  have hstart : Informed k g x p := ⟨hp, .check, ht, trivial⟩
  obtain ⟨-, pc, hpc, hknows⟩ :=
    Machine.Path.invariant (Informed k g x) (fun p a p' h hc hs => informed_next h hc hs) hq hstart
  obtain rfl : t = ⟨g, x, pc⟩ := Option.some.inj (h.thread.symm.trans hpc)
  obtain ⟨c, rfl⟩ := h.pc
  exact exposure_of_store hknows h.isFresh h.write hl

/-- Bodies of one agency exclude each other. A step of a context leaves the fence of another
one, and each fence that is retained, or takes it over for good: then it resumes the same
operation and reference, and the old owner has no fence again. A resumer that tries takes a
retained fence over. After a store of a sale that was checked in its body, the exposure is within
the limit, if meanwhile other writes only bring money in. -/
theorem agency_credit_fence (hp : contexts.machine.Reachable p) :
    (∀ (j k : ℕ) (t u : Thread), p.threads[j]? = some t → p.threads[k]? = some u → t.pc.inBody = true →
      u.pc.inBody = true → t.guard.scope = u.guard.scope → j = k) ∧
    (∀ (k : ℕ) (t : Thread) o p', p.threads[k]? = some t → contexts.machine.step p (.step k o) = some p' →
      ∀ f ∈ p.store.fences, f.owner ≠ .call k ∨ f.retained = true → f ∈ p'.store.fences ∨
        (TakenOver k t p'.store f ∧ t.guard.resume = true ∧
          ∀ q, contexts.machine.Path (fun _ _ => True) p' q →
            ∀ e ∈ q.store.fences, e.key = f.key → e.owner ≠ f.owner)) ∧
    (∀ (k : ℕ) (t : Thread), p.threads[k]? = some t → t.pc = .resume → ∀ f ∈ p.store.fences, f.key = t.guard.scope →
      t.guard.fits f.payload = true → f.retained = true →
        ∃ p', contexts.machine.step p (.step k {}) = some p' ∧
          p'.threads[k]? = some { t with pc := .check } ∧ TakenOver k t p'.store f) ∧
    ∀ (k : ℕ) g x, p.threads[k]? = some ⟨g, x, .check⟩ → ∀ q, contexts.machine.Path (Quiet g.scope) p q →
      ∀ o t q', Sells k o t q q' → ∀ limit, x.contract.limit = some limit →
        ∃ currency d, x.currency = .code currency ∧ q'.store.books.exposure g.scope currency = .ok d ∧ d ≤ limit := by
  refine ⟨fun j k t u ht hu => inBody_unique hp ht hu, fun k t o p' ht hs f hf hown => ?_,
    fun k t ht hpc f hf => exists_takeOver ht hpc hf,
    fun k g x ht q hq o t q' h limit hl => exposure_of_sells hp ht hq h hl⟩
  have hne : f.owner ≠ .call k := by
    intro ho
    have hleft : t.pc = .left := (stage_of_reachable hp ht).left f hf ho (hown.resolve_left (not_not.mpr ho))
    obtain ⟨u, u', hu, hst, -⟩ := next_step hs
    obtain rfl : u = t := Option.some.inj (hu.symm.trans ht)
    obtain ⟨r, hadv, -⟩ := Option.map_eq_some_iff.mp hst
    simp only [advance, hleft] at hadv
    cases hadv
  obtain hkept | ⟨htaken, hresume, hgone⟩ := fence_kept_or_taken hp ht hs hf hne
  · exact .inl hkept
  · exact .inr ⟨htaken, hresume, fun q hq => (hgone q hq).free⟩

/-! ### A run -/

def indebted : Store where
  fences := ⟨[⟨⟨1, 1⟩, .earlier 0, ⟨7, some 3, none⟩, true⟩], by decide⟩
  books := ⟨⟨[{ id := 1, scope := ⟨1, 1⟩, currency := .code 1, creditExposure := some 60 }], by decide⟩, [], []⟩

def resumedSale : Call where
  guard := ⟨⟨1, 1⟩, ⟨7, some 3, none⟩, true⟩
  sale := { contract := ⟨some 100, .code 1⟩, currency := .code 1, total := 50, commission := 10 }

def ofContext : Act Books Call Chance → Bool
  | .env _ => false
  | _ => true

theorem quiet_of_ofContext (h : ofContext a = true) : Quiet scope p a := by
  cases a with
  | env => cases h
  | call => trivial
  | step => trivial

/-- The context, the bookings, and those after its next step. -/
def observed (p : Pool Store Thread) : Option Thread × ℕ × Option ℕ :=
  (p.threads[0]?, p.store.books.bookings.rows.length,
    (contexts.machine.step p (.step 0 { newId := 2 })).map fun p' => p'.store.books.bookings.rows.length)

theorem agency_credit_fence_resumed : ∃ p q q', contexts.machine.Reachable p ∧
    contexts.machine.Path (Quiet ⟨1, 1⟩) p q ∧ contexts.machine.step q (.step 0 { newId := 2 }) = some q' ∧
      q'.store.books.bookings.rows.length = 2 ∧
      ∃ currency d, resumedSale.sale.currency = .code currency ∧
        q'.store.books.exposure ⟨1, 1⟩ currency = .ok d ∧ d ≤ 100 := by
  obtain ⟨p, q, hp, hq, hvp, hvq⟩ := Machine.exists_path_of_runUnder (M := contexts.machine)
    (C := fun _ a => ofContext a = true) (s := ⟨indebted, []⟩) (f := observed)
    (v := (some ⟨resumedSale.guard, resumedSale.sale, .check⟩, 1, some 1))
    (w := (some ⟨resumedSale.guard, resumedSale.sale, .store (some ⟨100, 1⟩)⟩, 1, some 2))
    [.call resumedSale, .step 0 {}, .step 0 {}]
    [.step 0 {}, .step 0 {}, .step 0 {}, .step 0 {}, .step 0 {}]
    ⟨fun f hf => ⟨0, by rw [List.mem_singleton.mp hf]⟩, rfl⟩ (by decide +kernel) (by decide +kernel)
  have hp : contexts.machine.Reachable p := hp.mono fun _ _ _ => trivial
  have hq : contexts.machine.Path (Quiet ⟨1, 1⟩) p q :=
    Relation.ReflTransGen.mono (fun _ _ => Machine.Next.mono fun _ _ => quiet_of_ofContext) _ _ hq
  obtain ⟨ht, -⟩ := Prod.mk.inj hvp
  obtain ⟨hu, hvq⟩ := Prod.mk.inj hvq
  obtain ⟨hlen, hvq⟩ := Prod.mk.inj hvq
  obtain ⟨q', hs, hlen'⟩ := Option.map_eq_some_iff.mp hvq
  have hsells : Sells 0 { newId := 2 } ⟨resumedSale.guard, resumedSale.sale, .store (some ⟨100, 1⟩)⟩ q q' := by
    obtain ⟨u, u', hu', hst, -⟩ := next_step hs
    obtain rfl := Option.some.inj (hu'.symm.trans hu)
    obtain ⟨pc', -, hm⟩ := step_moved hst
    refine ⟨hs, hu, rfl, ⟨_, rfl⟩, ?_⟩
    obtain hsame | ⟨-, hstore⟩ := moved_books hm
    · rw [hsame, hlen] at hlen'
      cases hlen'
    · exact hstore
  obtain ⟨-, -, -, hcredit⟩ := agency_credit_fence hp
  exact ⟨p, q, q', hp, hq, hs, hlen', hcredit 0 _ _ ht q hq _ _ q' hsells 100 rfl⟩

end SyrocePms.AgencyCredit
