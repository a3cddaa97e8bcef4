import SyrocePms.PosFolio.Ledger

/-! What each write does to the store: what it keeps of events, orders and totals, and which
dues it makes or settles. -/

namespace SyrocePms.PosFolio

open Lib List Collection

variable {s s' : Store} {b : Body} {t : Delivery} {d : Due}
variable {f folio g id o : ℕ} {ls : List Line} {state : EventState} {x : LateCharge}
  {touched : ℕ → Prop} {l : Line}

/-- What every write keeps: events under their bodies, intents, carriers of orders, and
folios that take lines. -/
structure Grows (s s' : Store) : Prop where
  events : ∀ e ∈ s.events, ∃ e' ∈ s'.events, e'.id = e.id ∧ e'.body = e.body
  carriers : ∀ o f, f ∈ s.carriers o → f ∈ s'.carriers o
  takes : ∀ g ls, s.takes g ls = true → s'.takes g ls = true

theorem Store.intent_iff :
    s.intent o = true ↔ ∃ e ∈ s.events, e.body.kind = .reversed ∧ e.body.order = o := by
  simp [Store.intent]

theorem Store.mem_carriers :
    f ∈ s.carriers o ↔ ∃ c ∈ s.charges, c.isOf o = true ∧ c.folioId = f := by
  simp only [Store.carriers, mem_map, mem_filter, mem_def]
  constructor
  · rintro ⟨c, ⟨hc, ho⟩, hf⟩
    exact ⟨c, hc, ho, hf⟩
  · rintro ⟨c, hc, ho, hf⟩
    exact ⟨c, ⟨hc, ho⟩, hf⟩

theorem Store.takes_iff : s.takes g ls = true ↔ ∃ f ∈ s.folios, f.id = g ∧ f.takes ls = true := by
  simp [Store.takes]

namespace Grows

theorem refl : Grows s s := ⟨fun e he => ⟨e, he, rfl, rfl⟩, fun _ _ => id, fun _ _ => id⟩

theorem intent (h : Grows s s') (ho : s.intent o = true) : s'.intent o = true := by
  obtain ⟨e, he, hkind, horder⟩ := Store.intent_iff.mp ho
  obtain ⟨e', he', -, hbody⟩ := h.events e he
  exact Store.intent_iff.mpr ⟨e', he', hbody ▸ hkind, hbody ▸ horder⟩

theorem body (h : Grows s s') (hc : b.covers s d) : b.covers s' d := by
  cases d with
  | line o f => exact hc
  | late o => exact hc
  | balance f =>
    simp only [Body.covers] at hc ⊢
    split at hc
    · exact hc.imp (h.carriers _ _) id
    · obtain ⟨g, hposts, hfolio, hdue⟩ := hc
      refine ⟨g, hposts, hfolio.imp (h.carriers _ _) id, hdue.imp h.intent ?_⟩
      rintro ⟨hg, hcar, htakes⟩
      exact ⟨hg, h.carriers _ _ hcar, h.takes _ _ htakes⟩

theorem delivery (h : Grows s s') (hc : t.covers s d) : t.covers s' d := by
  unfold Delivery.covers at hc ⊢
  cases hpc : t.pc <;> rw [hpc] at hc
  case check => exact h.body hc
  case folio => exact h.body hc
  case insert =>
    cases d with
    | balance f =>
      refine ⟨hc.1.imp (h.carriers _ _) id, hc.2.imp h.intent ?_⟩
      exact fun hg => ⟨hg.1, h.carriers _ _ hg.2⟩
    | _ => exact hc
  case posting =>
    cases d with
    | balance f =>
      refine ⟨hc.1.imp (h.carriers _ _) id, hc.2.imp h.intent ?_⟩
      exact fun hg => ⟨hg.1, h.carriers _ _ hg.2⟩
    | _ => exact hc
  case route =>
    cases d with
    | balance f => exact ⟨hc.1.imp (h.carriers _ _) id, h.intent hc.2⟩
    | _ => exact hc
  case recheck =>
    cases d with
    | balance f => exact ⟨hc.1.imp (h.carriers _ _) id, h.intent hc.2⟩
    | _ => exact hc
  case affected =>
    cases d with
    | balance f => exact Or.imp (h.carriers _ _) id hc
    | _ => exact hc
  case void => cases d <;> exact hc
  case late => cases d <;> exact hc
  case balances => cases d <;> exact hc
  case mark => cases d <;> exact hc
  case ended => cases d <;> exact hc

end Grows

/-! ### The lines of a reversed order -/

theorem Body.covers_balance (hi : s.intent o = true) (hf : f ∈ s.carriers o)
    (hc : b.covers s (.line o f)) : b.covers s (.balance f) := by
  obtain ⟨rfl, hkind | ⟨g, hposts⟩⟩ := hc
  · simp only [Body.covers, hkind]
    exact .inl hf
  · simp only [Body.covers, hposts.1]
    exact ⟨g, hposts, .inl hf, .inl hi⟩

theorem Delivery.covers_balance (hi : s.intent o = true) (hf : f ∈ s.carriers o)
    (hc : t.covers s (.line o f)) : t.covers s (.balance f) := by
  unfold Delivery.covers at hc ⊢
  cases hpc : t.pc <;> rw [hpc] at hc
  case check => exact Body.covers_balance hi hf hc
  case folio => exact Body.covers_balance hi hf hc
  case insert => cases hc; exact ⟨.inl hf, .inl hi⟩
  case posting => cases hc; exact ⟨.inl hf, .inl hi⟩
  case route => cases hc; exact ⟨.inl hf, hi⟩
  case recheck => cases hc; exact ⟨.inl hf, hi⟩
  case affected => cases hc; exact .inl hf
  case void => exact hc.2
  case late => exact hc.elim
  case balances => exact hc.elim
  case mark => exact hc.elim
  case ended => exact hc.elim

/-! ### The documents after an update -/

theorem mem_setBalance {balance : ℤ} {x : Folio} : x ∈ (s.setBalance folio balance).folios ↔
      ∃ f ∈ s.folios, x = if f.id = folio then { f with balance } else f := by
  simp [Store.setBalance, mem_updateMany]

theorem mem_setEvent {x : Event} : x ∈ (s.setEvent id state).events ↔
      ∃ e ∈ s.events, x = if e.id = id then { e with state } else e := by
  simp [Store.setEvent, mem_updateMany]

theorem mem_reverseLate : x ∈ (s.reverseLate o).late ↔
      ∃ l ∈ s.late, x = if l.order = o ∧ l.reversed = false then { l with reversed := true } else l := by
  simp [Store.reverseLate, mem_updateMany]

theorem mem_rewritten {f : Folio} :
    x ∈ s.late.updateMany (fun l => l.order = o) (rewritten f ls) (rewritten_order f ls) ↔
      ∃ l ∈ s.late, x = if l.order = o then rewritten f ls l else l := by
  simp [mem_updateMany]

theorem mem_voidOrder {x : Charge} : x ∈ (s.voidOrder o).charges ↔
      ∃ c ∈ s.charges, x = if c.isOf o = true ∧ c.voided = false then { c with voided := true } else c := by
  simp [Store.voidOrder, mem_updateMany]

/-! ### The writes -/

/-- What a write does: it grows the store, and keeps the totals of the folios that it does
not touch. -/
structure Effect (s s' : Store) (touched : ℕ → Prop) : Prop where
  grows : Grows s s'
  charges : ∀ f, ¬ touched f → s'.chargesTotal f = s.chargesTotal f
  payments : s'.payments = s.payments

theorem Effect.refl : Effect s s touched := ⟨.refl, fun _ _ => rfl, rfl⟩

theorem Effect.paymentsTotal (h : Effect s s' touched) (f : ℕ) :
    s'.paymentsTotal f = s.paymentsTotal f := by
  simp only [Store.paymentsTotal, h.payments]

theorem setBalance_effect (folio : ℕ) (balance : ℤ) :
    Effect s (s.setBalance folio balance) fun _ => False where
  grows := by
    refine ⟨fun e he => ⟨e, he, rfl, rfl⟩, fun _ _ h => h, fun g ls h => ?_⟩
    obtain ⟨f, hf, hid, htakes⟩ := Store.takes_iff.mp h
    refine Store.takes_iff.mpr ⟨_, mem_setBalance.mpr ⟨f, hf, rfl⟩, ?_⟩
    split
    · exact ⟨hid, htakes⟩
    · exact ⟨hid, htakes⟩
  charges _ _ := rfl
  payments := rfl

theorem setBalance_due (h : (s.setBalance folio (s.ledger folio)).isDue d) :
    s.isDue d ∧ d ≠ .balance folio := by
  cases d with
  | line o f => exact ⟨h, by simp⟩
  | late o => exact ⟨h, by simp⟩
  | balance f =>
    obtain ⟨x, hx, hid, hne⟩ := h
    obtain ⟨y, hy, rfl⟩ := mem_setBalance.mp hx
    by_cases hy' : y.id = folio
    · rw [if_pos hy'] at hid hne
      have hf : folio = f := hy'.symm.trans hid
      exact absurd (congrArg s.ledger hf) hne
    · rw [if_neg hy'] at hid hne
      refine ⟨⟨y, hy, hid, hne⟩, fun heq => hy' ?_⟩
      cases heq
      exact hid

theorem setEvent_effect (id : ℕ) (state : EventState) :
    Effect s (s.setEvent id state) fun _ => False where
  grows := by
    refine ⟨fun e he => ?_, fun _ _ h => h, fun _ _ h => h⟩
    refine ⟨_, mem_setEvent.mpr ⟨e, he, rfl⟩, ?_⟩
    split <;> exact ⟨rfl, rfl⟩
  charges _ _ := rfl
  payments := rfl

theorem setEvent_intent (id : ℕ) (state : EventState) (o : ℕ) :
    (s.setEvent id state).intent o = s.intent o := by
  rw [Bool.eq_iff_iff, Store.intent_iff, Store.intent_iff]
  constructor
  · rintro ⟨e, he, hkind, horder⟩
    obtain ⟨x, hx, rfl⟩ := mem_setEvent.mp he
    by_cases hid : x.id = id
    · rw [if_pos hid] at hkind horder
      exact ⟨x, hx, hkind, horder⟩
    · rw [if_neg hid] at hkind horder
      exact ⟨x, hx, hkind, horder⟩
  · intro h
    exact Store.intent_iff.mp ((setEvent_effect id state).grows.intent (Store.intent_iff.mpr h))

theorem setEvent_due (h : (s.setEvent id state).isDue d) : s.isDue d := by
  cases d with
  | line o f => exact ⟨setEvent_intent id state o ▸ h.1, h.2⟩
  | late o => exact ⟨setEvent_intent id state o ▸ h.1, h.2⟩
  | balance f => exact h

theorem reverseLate_effect (o : ℕ) : Effect s (s.reverseLate o) fun _ => False :=
  ⟨⟨fun e he => ⟨e, he, rfl, rfl⟩, fun _ _ h => h, fun _ _ h => h⟩, fun _ _ => rfl, rfl⟩

theorem reverseLate_due (h : (s.reverseLate o).isDue d) : s.isDue d ∧ d ≠ .late o := by
  cases d with
  | line o f => exact ⟨h, by simp⟩
  | balance f => exact ⟨h, by simp⟩
  | late o' =>
    obtain ⟨hi, l, hl, horder, hrev⟩ := h
    obtain ⟨l', hl', rfl⟩ := mem_reverseLate.mp hl
    by_cases hne : l'.order = o ∧ l'.reversed = false
    · rw [if_pos hne] at hrev
      cases hrev
    · rw [if_neg hne] at horder hrev
      refine ⟨⟨hi, l', hl', horder, hrev⟩, fun heq => hne ?_⟩
      cases heq
      exact ⟨horder, hrev⟩

theorem routeLateCharge_effect (o : ℕ) (f : Folio) (ls : List Line) :
    Effect s (s.routeLateCharge o f ls) fun _ => False := by
  unfold Store.routeLateCharge
  split <;>
    exact ⟨⟨fun e he => ⟨e, he, rfl, rfl⟩, fun _ _ h => h, fun _ _ h => h⟩, fun _ _ => rfl, rfl⟩

theorem routeLateCharge_due {f : Folio} (h : (s.routeLateCharge o f ls).isDue d) :
    s.isDue d ∨ d = .late o := by
  unfold Store.routeLateCharge at h
  split at h
  · rename_i late hins
    cases d with
    | line o f => exact .inl h
    | balance f => exact .inl h
    | late o' =>
      obtain ⟨hi, l, hl, horder, hrev⟩ := h
      rw [mem_insertOne hins] at hl
      obtain hl | rfl := hl
      · exact .inl ⟨hi, l, hl, horder, hrev⟩
      · exact .inr (congrArg Due.late horder.symm)
  · cases d with
    | line o f => exact .inl h
    | balance f => exact .inl h
    | late o' =>
      obtain ⟨hi, l, hl, horder, hrev⟩ := h
      obtain ⟨l', hl', rfl⟩ := mem_rewritten.mp hl
      by_cases heq : l'.order = o
      · rw [if_pos heq] at horder
        exact .inr (congrArg Due.late (horder.symm.trans heq))
      · rw [if_neg heq] at horder hrev
        exact .inl ⟨hi, l', hl', horder, hrev⟩

theorem insertLine_eq_some (h : s.insertLine o g l = some s') :
    ∃ cs, s.charges.insertOne ⟨.pos o l.lineNo, g, l.terms, false⟩ = some cs ∧
      s' = { s with charges := cs } := by
  obtain ⟨cs, hcs, rfl⟩ := Option.map_eq_some_iff.mp h
  exact ⟨cs, hcs, rfl⟩

theorem insertLine_effect (h : s.insertLine o g l = some s') : Effect s s' (· = g) := by
  obtain ⟨cs, hcs, rfl⟩ := insertLine_eq_some h
  refine ⟨⟨fun e he => ⟨e, he, rfl, rfl⟩, fun o' f hf => ?_, fun _ _ h => h⟩, fun f hf => ?_, rfl⟩
  · rw [Store.mem_carriers] at hf ⊢
    obtain ⟨c, hc, hof⟩ := hf
    exact ⟨c, (mem_insertOne hcs).mpr (.inl hc), hof⟩
  · simp only [Store.chargesTotal, (insertOne_eq_some hcs).2, filter_append]
    simp [Ne.symm hf]

theorem insertLine_carriers (h : s.insertLine o g l = some s') : g ∈ s'.carriers o := by
  obtain ⟨cs, hcs, rfl⟩ := insertLine_eq_some h
  exact Store.mem_carriers.mpr ⟨_, (mem_insertOne hcs).mpr (.inr rfl), by simp [Charge.isOf], rfl⟩

theorem insertLine_due (h : s.insertLine o g l = some s') (hd : s'.isDue d) :
    s.isDue d ∨ d = .line o g ∨ d = .balance g := by
  have heff := insertLine_effect h
  obtain ⟨cs, hcs, rfl⟩ := insertLine_eq_some h
  cases d with
  | late o' => exact .inl hd
  | line o' f =>
    obtain ⟨hi, c, hc, hof, hfolio, hvoid⟩ := hd
    obtain hc | rfl := (mem_insertOne hcs).mp hc
    · exact .inl ⟨hi, c, hc, hof, hfolio, hvoid⟩
    · have ho : o = o' := by simpa [Charge.isOf] using hof
      cases hfolio
      exact .inr (.inl (by rw [ho]))
  | balance f =>
    obtain ⟨x, hx, hid, hne⟩ := hd
    by_cases hf : f = g
    · exact .inr (.inr (by rw [hf]))
    · refine .inl ⟨x, hx, hid, ?_⟩
      rwa [Store.ledger, heff.charges f hf, heff.paymentsTotal] at hne

theorem voidOrder_effect (o : ℕ) :
    Effect s (s.voidOrder o) fun f => ∃ c ∈ s.charges.rows, c.isOf o = true ∧ c.voided = false ∧ c.folioId = f := by
  refine ⟨⟨fun e he => ⟨e, he, rfl, rfl⟩, fun o' f hf => ?_, fun _ _ h => h⟩, fun f hf => ?_, rfl⟩
  · rw [Store.mem_carriers] at hf ⊢
    obtain ⟨c, hc, hof⟩ := hf
    refine ⟨_, mem_voidOrder.mpr ⟨c, hc, rfl⟩, ?_⟩
    split
    · exact hof
    · exact hof
  · have hsame : ∀ c ∈ s.charges.rows, c.folioId = f → (c.isOf o && !c.voided) = false := by
      intro c hc hcf
      rw [Bool.eq_false_iff]
      intro hboth
      simp only [Bool.and_eq_true, Bool.not_eq_true'] at hboth
      exact hf ⟨c, hc, hboth.1, hboth.2, hcf⟩
    simp only [Store.chargesTotal, Store.voidOrder, Collection.updateMany]
    generalize s.charges.rows = rows at hsame
    induction rows with
    | nil => rfl
    | cons c rows ih =>
      have ih' := ih fun x hx => hsame x (mem_cons_of_mem _ hx)
      by_cases hcf : c.folioId = f
      · have hc := hsame c mem_cons_self hcf
        rw [map_cons, if_neg (by rw [hc]; decide)]
        cases hv : c.voided
        · rw [filter_cons_of_pos (by simp [hcf, hv]), filter_cons_of_pos (by simp [hcf, hv]),
            map_cons, map_cons, sum_cons, sum_cons, ih']
        · rw [filter_cons_of_neg (by simp [hv]), filter_cons_of_neg (by simp [hv]), ih']
      · rw [map_cons, filter_cons_of_neg, filter_cons_of_neg (by simp [hcf]), ih']
        split <;> simp [hcf]

theorem voidOrder_due (hi : s.intent o = true) (h : (s.voidOrder o).isDue d) :
    (s.isDue d ∧ ∀ f, d ≠ .line o f) ∨ ∃ f, d = .balance f ∧ s.isDue (.line o f) := by
  have heff : Effect s (s.voidOrder o) _ := voidOrder_effect o
  cases d with
  | late o' => exact .inl ⟨h, by simp⟩
  | line o' f =>
    obtain ⟨hi', c, hc, hof, hfolio, hvoid⟩ := h
    obtain ⟨c', hc', rfl⟩ := mem_voidOrder.mp hc
    by_cases hne : c'.isOf o = true ∧ c'.voided = false
    · rw [if_pos hne] at hvoid
      cases hvoid
    · rw [if_neg hne] at hof hfolio hvoid
      refine .inl ⟨⟨hi', c', hc', hof, hfolio, hvoid⟩, fun f' heq => hne ?_⟩
      cases heq
      exact ⟨hof, hvoid⟩
  | balance f =>
    obtain ⟨x, hx, hid, hne⟩ := h
    by_cases hf : ∃ c ∈ s.charges.rows, c.isOf o = true ∧ c.voided = false ∧ c.folioId = f
    · obtain ⟨c, hc, hof, hvoid, hcf⟩ := hf
      exact .inr ⟨f, rfl, hi, c, hc, hof, hcf, hvoid⟩
    · refine .inl ⟨⟨x, hx, hid, ?_⟩, by simp⟩
      rwa [Store.ledger, heff.charges f hf, heff.paymentsTotal] at hne

end SyrocePms.PosFolio
