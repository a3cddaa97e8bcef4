import SyrocePms.PosFolio.Progress

/-! Once all deliveries have finished nothing is due: a reversed order has no unvoided line and
no open late charge, and the balances of its folios are the ledger. Every due is covered, by a
delivery in flight or by an event that waits for one. -/

namespace SyrocePms.PosFolio

open Lib List Collection

variable {s s' : Store} {t u : Delivery} {d : Due} {p p' : Pool Store Delivery} {k : ℕ}
variable {id : ℕ} {b : Body} {status : FolioStatus} {e : Elsewhere} {m : Move} {t' : Delivery}

/-! ### What deliveries know -/

theorem undisturbed_of_touches {o : Chance} {f : ℕ} (hc : StepOrderly p k t (.advance o))
    (hf : Touches p.store t f) : Undisturbed p k f := by
  obtain ⟨hg, l, rest, inserted, hpc, hins⟩ | ⟨fs, hpc, c, hcm, hof, hvoid, rfl⟩ := hf
  · simp only [StepOrderly, hpc] at hc
    exact (hc f hg).2 hins
  · simp only [StepOrderly, hpc] at hc
    exact hc c hcm hof hvoid

theorem publish_eq_some (h : s.publish id b = some s') :
    (∀ e ∈ s.events, e.id ≠ id) ∧ s' = { s with events := s'.events } ∧
      ∀ e, e ∈ s'.events ↔ e ∈ s.events ∨ e = ⟨id, b, .outstanding⟩ := by
  obtain ⟨events, hins, rfl⟩ := Option.map_eq_some_iff.mp h
  exact ⟨(insertOne_eq_some hins).1, rfl, fun _ => mem_insertOne hins⟩

theorem mem_setStatus {x : Folio} : x ∈ (s.setStatus id status).folios ↔
      ∃ f ∈ s.folios, x = if f.id = id then { f with status } else f := by
  simp [Store.setStatus, mem_updateMany]

/-- What the deliveries know does not depend on the status of folios. -/
theorem Ok.elsewhere (h : elsewhere s e = some s') (ht : Ok s t) : Ok s' t := by
  cases e with
  | publish id b =>
    obtain ⟨-, hs, hmem⟩ := publish_eq_some h
    have heff : Effect s s' fun _ => False := by
      rw [hs]
      exact ⟨⟨fun e he => ⟨e, (hmem e).mpr (.inl he), rfl, rfl⟩, fun _ _ h => h, fun _ _ h => h⟩,
        fun _ _ => rfl, rfl⟩
    exact ht.effect heff fun _ hf => hf.elim
  | redeliver id =>
    cases h
    exact ht.effect (setEvent_effect _ _) fun _ hf => hf.elim
  | folio id status =>
    cases h
    refine ⟨ht.event, ?_⟩
    have hfits := ht.fits
    cases hpc : t.pc <;> rw [hpc] at hfits <;> exact hfits

theorem deliver_eq_some (h : s.deliver id = some t) :
    ∃ e ∈ s.events, t.eventId = e.id ∧ t.body = e.body ∧
      (e.body.kind = .posted ∧ t.pc = .check ∨ e.body.kind = .reversed ∧ t.pc = .affected) := by
  obtain ⟨e, he, rfl⟩ := Option.map_eq_some_iff.mp h
  obtain ⟨he, hid⟩ := get?_eq_some.mp he
  refine ⟨e, he, hid.symm, rfl, ?_⟩
  cases hkind : e.body.kind
  · exact .inl ⟨rfl, rfl⟩
  · exact .inr ⟨rfl, rfl⟩

theorem Ok.deliver (h : s.deliver id = some t) : Ok s t := by
  obtain ⟨e, he, hid, hbody, ⟨hkind, hpc⟩ | ⟨hkind, hpc⟩⟩ := deliver_eq_some h
  · refine ⟨⟨e, he, hid.symm, hbody.symm⟩, ?_⟩
    rw [hpc]
    exact hbody ▸ hkind
  · refine ⟨⟨e, he, hid.symm, hbody.symm⟩, ?_⟩
    rw [hpc, hbody]
    exact ⟨Store.intent_iff.mpr ⟨e, he, hkind, rfl⟩, .inl hkind⟩

theorem step_cases (hok : Ok p.store t) (hc : StepOrderly p k t m)
    (h : deliveries.step k p.store t m = some (s', t')) :
    t.pc ≠ .ended ∧ ∃ pc', t' = { t with pc := pc' } ∧
      ((Progress p.store s' t pc' (Touches p.store t) ∧ ∀ f, Touches p.store t f → Undisturbed p k f) ∨
        (s' = p.store ∧ pc' = .ended ∧ (t.pc.marks = true ∨ FailsAlone p k t))) := by
  cases m with
  | advance o =>
    obtain ⟨⟨s₁, pc'⟩, hstep, heq⟩ := Option.map_eq_some_iff.mp h
    cases heq
    refine ⟨fun hpc => ?_, pc', rfl, ?_⟩
    · rw [advance, hpc] at hstep
      cases hstep
    · obtain hprog | ⟨hs, hend, halone⟩ := advance_progress hok hc hstep
      · exact .inl ⟨hprog, fun f => undisturbed_of_touches hc⟩
      · exact .inr ⟨hs, hend, .inr halone⟩
  | fail =>
    simp only [deliveries] at h
    split at h
    · cases h
    · rename_i hpc
      cases h
      exact ⟨hpc, .ended, rfl, .inr ⟨rfl, rfl, hc⟩⟩

theorem deliveries_known :
    Program.Preserves deliveries Orderly (fun _ => True) (fun s _ t => Ok s t)
      fun _ _ => True where
  symm _ _ _ := trivial
  init _ _ := trivial
  env p e s' hi _ h := ⟨trivial, fun k t ht => (hi.thread k t ht).elsewhere h⟩
  call p id t _ _ h := ⟨.deliver h, fun _ _ => trivial⟩
  step p k m t s' t' hi hc ht h := by
    have hok := hi.thread k t ht
    obtain ⟨-, pc', rfl, ⟨hprog, hund⟩ | ⟨rfl, rfl, -⟩⟩ := step_cases hok (hc t ht) h
    · obtain ⟨e, he, hid, hbody⟩ := hok.event
      obtain ⟨e', he', hid', hbody'⟩ := hprog.effect.grows.events e he
      refine ⟨trivial, ⟨⟨e', he', hid'.trans hid, hbody'.trans hbody⟩, hprog.fits⟩,
        fun j u hne hu => ⟨?_, trivial⟩⟩
      refine (hi.thread j u hu).effect hprog.effect fun f hf => ?_
      exact hund f hf j (List.getElem?_eq_some_iff.mp hu).1 hne u hu
    · exact ⟨trivial, ⟨hok.event, trivial⟩, fun j u _ hu => ⟨hi.thread j u hu, trivial⟩⟩

/-! ### Every due is covered -/

theorem waiting_covers (hok : Ok s t) (hfail : t.pc.isPosting = true → s.intent t.body.order = true ∨
      ∀ g ∈ t.body.folioId, s.takes g t.body.charges = true)
    (hc : t.covers s d) : t.body.covers s d := by
  have hfits := hok.fits
  have hposted : (∃ g, t.body.posts g) → ∀ f, (f ∈ s.carriers t.body.order ∨ t.body.folioId = some f) →
      (s.intent t.body.order = true ∨ (t.body.folioId = some f ∧ f ∈ s.carriers t.body.order ∧
        ∀ g ∈ t.body.folioId, s.takes g t.body.charges = true)) → t.body.covers s (.balance f) := by
    rintro ⟨g, hposts⟩ f hfolio hdue
    simp only [Body.covers, hposts.1]
    refine ⟨g, hposts, hfolio.imp id fun hf => ?_, hdue.imp id fun hf => ?_⟩
    · exact Option.some.inj (hposts.2.1.symm.trans hf)
    · exact ⟨Option.some.inj (hposts.2.1.symm.trans hf.1), hf.2.1, hf.2.2 g hposts.2.1⟩
  have hreversal : t.body.Reverses s → ∀ f, (f ∈ s.carriers t.body.order ∨ t.body.folioId = some f) →
      t.body.covers s (.balance f) := by
    rintro ⟨hi, hkind | hposts⟩ f hfolio
    · simp only [Body.covers, hkind]
      exact hfolio
    · exact hposted hposts f hfolio (.inl hi)
  have hlooks : t.pc.looksAgain = true → ∀ o f, (d = .line o f ∨ d = .late o) → t.body.covers s d := by
    rintro hpc o f (rfl | rfl)
    · exact ⟨(Pc.covers_line hpc (hok.posts hpc)).mp hc, .inr (hok.posts hpc)⟩
    · exact ⟨(Pc.covers_late hpc (hok.posts hpc)).mp hc, .inr (hok.posts hpc)⟩
  unfold Delivery.covers at hc
  cases hpc : t.pc <;> rw [hpc] at hc hfits hfail hlooks
  case check => exact hc
  case folio => exact hc
  case insert =>
    cases d with
    | line o f => exact hlooks rfl o f (.inl rfl)
    | late o => exact hlooks rfl o 0 (.inr rfl)
    | balance f =>
      refine hposted hfits f hc.1 ?_
      obtain hi | hf := hc.2
      · exact .inl hi
      · exact (hfail rfl).imp id fun htakes => ⟨hf.1, hf.2, htakes⟩
  case posting =>
    cases d with
    | line o f => exact hlooks rfl o f (.inl rfl)
    | late o => exact hlooks rfl o 0 (.inr rfl)
    | balance f =>
      refine hposted (hfits.2.imp fun _ => And.left) f hc.1 ?_
      obtain hi | hf := hc.2
      · exact .inl hi
      · exact (hfail rfl).imp id fun htakes => ⟨hf.1, hf.2, htakes⟩
  case route =>
    cases d with
    | line o f => exact hlooks rfl o f (.inl rfl)
    | late o => exact hlooks rfl o 0 (.inr rfl)
    | balance f => exact hposted hfits f hc.1 (.inl hc.2)
  case recheck =>
    cases d with
    | line o f => exact hlooks rfl o f (.inl rfl)
    | late o => exact hlooks rfl o 0 (.inr rfl)
    | balance f => exact hposted hfits f hc.1 (.inl hc.2)
  case affected =>
    cases d with
    | line o f => exact ⟨hc, hfits.2⟩
    | late o => exact ⟨hc, hfits.2⟩
    | balance f => exact hreversal hfits f hc
  case void fs =>
    cases d with
    | line o f => exact ⟨hc.1, hfits.1.2⟩
    | late o => exact ⟨hc, hfits.1.2⟩
    | balance f => exact hreversal hfits.1 f (hfits.2 f hc)
  case late fs =>
    cases d with
    | line o f => exact hc.elim
    | late o => exact ⟨hc, hfits.1.2⟩
    | balance f => exact hreversal hfits.1 f (hfits.2 f hc)
  case balances fs r =>
    cases d with
    | line o f => exact hc.elim
    | late o => exact hc.elim
    | balance f => exact hreversal hfits.1 f (hfits.2.1 f hc)
  case mark => cases d <;> exact hc.elim
  case ended => cases d <;> exact hc.elim

theorem covered_deliver (h : p.store.deliver id = some t) (hs : p'.store = p.store)
    (hthreads : p'.threads = p.threads ++ [t]) (hc : Covered p d) : Covered p' d := by
  obtain ⟨u, hu, hcov⟩ | ⟨e, he, ⟨hstate, hquiet⟩, hcov⟩ := hc
  · exact .inl ⟨u, hthreads ▸ mem_append_left _ hu, hs ▸ hcov⟩
  · obtain ⟨e', he', hid, hbody, hstart⟩ := deliver_eq_some h
    by_cases heq : e.id = e'.id
    · obtain rfl := eq_of_key he he' heq
      refine .inl ⟨t, by rw [hthreads]; exact mem_append_right _ (mem_singleton.mpr rfl), ?_⟩
      rw [hs, Delivery.covers, hbody]
      obtain ⟨-, hpc⟩ | ⟨hkind, hpc⟩ := hstart
      · rw [hpc]
        exact hcov
      · rw [hpc]
        cases d with
        | line o f => exact hcov.1
        | late o => exact hcov.1
        | balance f =>
          simp only [Body.covers, hkind] at hcov
          exact hcov
    · refine .inr ⟨e, hs ▸ he, ⟨hstate, fun u hu huid => ?_⟩, hs ▸ hcov⟩
      rw [hthreads] at hu
      obtain hu | hu := mem_append.mp hu
      · exact hquiet u hu huid
      · cases mem_singleton.mp hu
        exact absurd (huid.symm.trans hid) heq

/-- The witness of another due stays, when the delivery `t` takes a step. -/
theorem covered_other {d₀ : Due} {pc' : Pc} (ht : p.threads[k]? = some t) (hlive : t.pc ≠ .ended)
    (hthreads : p'.threads = p.threads.set k { t with pc := pc' })
    (hgrows : Grows p.store p'.store)
    (hevents : ∀ e ∈ p.store.events, e.id ≠ t.eventId → e ∈ p'.store.events)
    (hleads : Leads p'.store d₀ d) (hnot : ¬ t.covers p.store d₀) (hc : Covered p d₀) :
    Covered p' d := by
  obtain ⟨u, hu, hcov⟩ | ⟨e, he, ⟨hstate, hquiet⟩, hcov⟩ := hc
  · obtain rfl | hu' := Program.eq_or_mem_set ht hu { t with pc := pc' }
    · exact absurd hcov hnot
    · exact .inl ⟨u, hthreads ▸ hu', u.covers_leads hgrows hleads hcov⟩
  · have hne : t.eventId ≠ e.id := fun hid =>
      hlive (hquiet t (mem_of_getElem? ht) hid)
    refine .inr ⟨e, hevents e he hne.symm, ⟨hstate, fun u hu huid => ?_⟩,
      Body.covers_leads hgrows hleads hcov⟩
    rw [hthreads] at hu
    obtain hu | rfl := mem_or_eq_of_mem_set hu
    · exact hquiet u hu huid
    · exact absurd huid hne

theorem covered_step (hok : Ok p.store t) (ht : p.threads[k]? = some t) (hc : StepOrderly p k t m)
    (h : deliveries.step k p.store t m = some (p'.store, t'))
    (hthreads : p'.threads = p.threads.set k t') (hcov : ∀ d, p.store.isDue d → Covered p d)
    (hd : p'.store.isDue d) : Covered p' d := by
  obtain ⟨hlive, pc', rfl, ⟨hprog, -⟩ | ⟨hs, rfl, hfail⟩⟩ := step_cases hok hc h
  · obtain hown | ⟨d₀, hold, hnot, hleads⟩ := hprog.dues d hd
    · exact .inl ⟨{ t with pc := pc' }, hthreads ▸ Program.self_mem_set ht _, hown⟩
    · exact covered_other ht hlive hthreads hprog.effect.grows hprog.events hleads hnot (hcov d₀ hold)
  · have hold : p.store.isDue d := hs ▸ hd
    by_cases hown : t.covers p.store d
    · obtain hmarks | ⟨⟨e, he, hid, hstate⟩, hquiet, htakes⟩ := hfail
      · rw [Delivery.covers] at hown
        cases hpc : t.pc <;> rw [hpc] at hown hmarks
        case mark => cases d <;> exact hown.elim
        all_goals cases hmarks
      · obtain ⟨e', he', hid', hbody⟩ := hok.event
        obtain rfl : e = e' := eq_of_key he he' (hid.trans hid'.symm)
        refine .inr ⟨e, hs ▸ he, ⟨hstate, fun u hu huid => ?_⟩, ?_⟩
        · rw [hthreads] at hu
          obtain ⟨j, hj⟩ := mem_iff_getElem?.mp hu
          obtain ⟨hjk, hj⟩ | ⟨rfl, rfl⟩ := Program.getElem?_set_some hj
          · exact hquiet j (List.getElem?_eq_some_iff.mp hj).1 hjk u hj (huid.trans hid)
          · rfl
        · rw [hs, hbody]
          exact waiting_covers hok htakes hown
    · refine covered_other ht hlive hthreads (hs ▸ .refl) (fun e he _ => hs ▸ he) (.inl rfl) hown
        (hcov d hold)

/-! ### What happens elsewhere -/

theorem setStatus_due (h : (s.setStatus id status).isDue d) : s.isDue d := by
  cases d with
  | line o f => exact h
  | late o => exact h
  | balance f =>
    obtain ⟨x, hx, hid, hne⟩ := h
    obtain ⟨y, hy, rfl⟩ := mem_setStatus.mp hx
    by_cases hy' : y.id = id
    · rw [if_pos hy'] at hid hne
      exact ⟨y, hy, hid, hne⟩
    · rw [if_neg hy'] at hid hne
      exact ⟨y, hy, hid, hne⟩

theorem Body.covers_setStatus (hopen : status = .isOpen ∨ (b.kind = .posted → b.folioId = some id →
      id ∈ s.carriers b.order → s.intent b.order = true)) (hc : b.covers s d) :
    b.covers (s.setStatus id status) d := by
  cases d with
  | line o f => exact hc
  | late o => exact hc
  | balance f =>
    simp only [Body.covers] at hc ⊢
    split at hc
    · exact hc
    · obtain ⟨g, hposts, hfolio, hi | ⟨rfl, hcar, htakes⟩⟩ := hc
      · exact ⟨g, hposts, hfolio, .inl hi⟩
      · obtain ⟨x, hx, hid, hxt⟩ := Store.takes_iff.mp htakes
        refine ⟨g, hposts, hfolio, ?_⟩
        by_cases hg : g = id
        · subst hg
          obtain rfl | hhalf := hopen
          · have hstatus : x.status = .isOpen := by
              simp only [Folio.takes, Bool.and_eq_true, decide_eq_true_eq] at hxt
              exact hxt.1
            refine .inr ⟨rfl, hcar, Store.takes_iff.mpr ⟨x, mem_setStatus.mpr ⟨x, hx, ?_⟩, hid, hxt⟩⟩
            rw [if_pos hid]
            cases x
            cases hstatus
            rfl
          · exact .inl (hhalf hposts.1 hposts.2.1 hcar)
        · refine .inr ⟨rfl, hcar, Store.takes_iff.mpr ⟨x, mem_setStatus.mpr ⟨x, hx, ?_⟩, hid, hxt⟩⟩
          rw [if_neg fun h => hg (hid.symm.trans h)]

theorem Delivery.covers_setStatus
    (hopen : status = .isOpen ∨ (t.body.kind = .posted → t.body.folioId = some id →
      id ∈ s.carriers t.body.order → s.intent t.body.order = true)) (hc : t.covers s d) :
    t.covers (s.setStatus id status) d := by
  unfold Delivery.covers at hc ⊢
  cases hpc : t.pc <;> rw [hpc] at hc
  case check => exact Body.covers_setStatus hopen hc
  case folio => exact Body.covers_setStatus hopen hc
  all_goals cases d <;> exact hc

theorem Delivery.not_ended (hc : t.covers s d) : t.pc ≠ .ended := by
  intro hpc
  rw [Delivery.covers, hpc] at hc
  cases d <;> exact hc.elim

theorem publish_due (h : s.publish id b = some s') (hd : s'.isDue d) :
    s.isDue d ∨ (b.kind = .reversed ∧ b.covers s' d) := by
  obtain ⟨-, hs, hmem⟩ := publish_eq_some h
  have hintent : ∀ o, s'.intent o = true → s.intent o = true ∨ (b.kind = .reversed ∧ b.order = o) := by
    intro o ho
    obtain ⟨e, he, hkind, horder⟩ := Store.intent_iff.mp ho
    obtain he | rfl := (hmem e).mp he
    · exact .inl (Store.intent_iff.mpr ⟨e, he, hkind, horder⟩)
    · exact .inr ⟨hkind, horder⟩
  rw [hs] at hd
  cases d with
  | line o f =>
    obtain hi | ⟨hkind, horder⟩ := hintent o (hs ▸ hd.1)
    · exact .inl ⟨hi, hd.2⟩
    · exact .inr ⟨hkind, horder, .inl hkind⟩
  | late o =>
    obtain hi | ⟨hkind, horder⟩ := hintent o (hs ▸ hd.1)
    · exact .inl ⟨hi, hd.2⟩
    · exact .inr ⟨hkind, horder, .inl hkind⟩
  | balance f => exact .inl hd

theorem covered_elsewhere (hok : ∀ t ∈ p.threads, Ok p.store t) (hc : Orderly p (.env e))
    (h : elsewhere p.store e = some p'.store) (hthreads : p'.threads = p.threads)
    (hcov : ∀ d, p.store.isDue d → Covered p d) (hd : p'.store.isDue d) : Covered p' d := by
  cases e with
  | publish id b =>
    obtain ⟨hfresh, hs, hmem⟩ := publish_eq_some h
    have hgrows : Grows p.store p'.store := by
      refine ⟨fun e he => ⟨e, (hmem e).mpr (.inl he), rfl, rfl⟩, ?_, ?_⟩ <;> rw [hs]
      · exact fun _ _ hf => hf
      · exact fun _ _ hf => hf
    obtain hold | ⟨-, hnew⟩ := publish_due h hd
    · obtain ⟨t, ht, hct⟩ | ⟨e, he, ⟨hstate, hquiet⟩, hce⟩ := hcov d hold
      · exact .inl ⟨t, hthreads ▸ ht, hgrows.delivery hct⟩
      · exact .inr ⟨e, (hmem e).mpr (.inl he), ⟨hstate, hthreads ▸ hquiet⟩, hgrows.body hce⟩
    · refine .inr ⟨_, (hmem _).mpr (.inr rfl), ⟨rfl, fun t ht hid => ?_⟩, hnew⟩
      obtain ⟨e, he, hid', -⟩ := (hok t (hthreads ▸ ht)).event
      exact absurd (hid'.trans hid) (hfresh e he)
  | redeliver id =>
    have hs : p'.store = p.store.setEvent id .outstanding := (Option.some.inj h).symm
    rw [hs] at hd
    have hgrows : Grows p.store p'.store := hs ▸ (setEvent_effect id .outstanding).grows
    obtain ⟨t, ht, hct⟩ | ⟨e, he, ⟨hstate, hquiet⟩, hce⟩ := hcov d (setEvent_due hd)
    · exact .inl ⟨t, hthreads ▸ ht, hgrows.delivery hct⟩
    · refine .inr ⟨_, hs ▸ mem_setEvent.mpr ⟨e, he, rfl⟩, ?_⟩
      split
      · exact ⟨⟨rfl, hthreads ▸ hquiet⟩, hgrows.body hce⟩
      · exact ⟨⟨hstate, hthreads ▸ hquiet⟩, hgrows.body hce⟩
  | folio id status =>
    have hs : p'.store = p.store.setStatus id status := (Option.some.inj h).symm
    rw [hs] at hd
    obtain ⟨t, ht, hct⟩ | ⟨e, he, ⟨hstate, hquiet⟩, hce⟩ := hcov d (setStatus_due hd)
    · refine .inl ⟨t, hthreads ▸ ht, hs ▸ Delivery.covers_setStatus (hc.imp_right fun hhalf => ?_) hct⟩
      obtain ⟨e, he, hid, hbody⟩ := (hok t ht).event
      rw [← hbody]
      exact fun hkind hfolio => hhalf e he hkind hfolio (.inr ⟨t, ht, hid.symm, Delivery.not_ended hct⟩)
    · refine .inr ⟨e, hs ▸ he, ⟨hstate, hthreads ▸ hquiet⟩, ?_⟩
      exact hs ▸ Body.covers_setStatus (hc.imp_right fun hhalf hkind hfolio =>
        hhalf e he hkind hfolio (.inl hstate)) hce

theorem reach_covered (h : deliveries.machine.Reach Orderly p) (hd : p.store.isDue d) :
    Covered p d := by
  have hall : ∀ d, p.store.isDue d → Covered p d := by
    refine deliveries_known.reach_pool (Q := fun p => ∀ d, p.store.isDue d → Covered p d)
      (fun p h₀ d hd => ?_) (fun p a p' hi hcov hc hn d hd => ?_) h
    · obtain ⟨⟨hevents, hbalances⟩, -⟩ := h₀
      have hnone : ∀ o, p.store.intent o ≠ true := by
        intro o ho
        obtain ⟨e, he, -⟩ := Store.intent_iff.mp ho
        rw [hevents] at he
        exact not_mem_empty he
      cases d with
      | line o f => exact absurd hd.1 (hnone o)
      | late o => exact absurd hd.1 (hnone o)
      | balance f =>
        obtain ⟨x, hx, rfl, hne⟩ := hd
        exact absurd (hbalances x hx) hne
    · cases a with
      | env e =>
        obtain ⟨he, hthreads⟩ := Program.next_env hn
        refine covered_elsewhere (fun t ht => ?_) hc he hthreads hcov hd
        obtain ⟨j, hj⟩ := mem_iff_getElem?.mp ht
        exact hi.thread j t hj
      | call id =>
        obtain ⟨t, ht, hs, hthreads⟩ := Program.next_call hn
        exact covered_deliver ht hs hthreads (hcov d (hs ▸ hd))
      | step k m =>
        obtain ⟨t, t', ht, hstep, hthreads⟩ := Program.next_step hn
        exact covered_step (hi.thread k t ht) ht (hc t ht) hstep hthreads hcov hd
  exact hall d hd

def Finished (p : Pool Store Delivery) : Prop :=
  (∀ t ∈ p.threads, t.pc = .ended) ∧ ∀ e ∈ p.store.events.rows, e.state ≠ .outstanding

theorem nothing_due (h : deliveries.machine.Reach Orderly p) (hfin : Finished p) : ¬ p.store.isDue d := by
  intro hd
  obtain ⟨t, ht, hc⟩ | ⟨e, he, ⟨hstate, -⟩, -⟩ := reach_covered h hd
  · exact Delivery.not_ended hc (hfin.1 t ht)
  · exact hfin.2 e he hstate

/-- A source line is charged at most once; and once all deliveries have finished, a reversed
order has no unvoided charge, its late charge is reversed, and the balances of the folios that
carry its lines are their ledger. -/
theorem pos_charges_once (h : deliveries.machine.Reach Orderly p) :
    (∀ o n, (p.store.charges.rows.filter fun c => c.source = .pos o n).length ≤ 1) ∧
      (Finished p → ∀ o, p.store.intent o = true →
        (∀ c ∈ p.store.charges, c.isOf o = true → c.voided = true) ∧
          (∀ l ∈ p.store.late, l.order = o → l.reversed = true) ∧
            ∀ f ∈ p.store.folios, f.id ∈ p.store.carriers o → f.balance = p.store.ledger f.id) := by
  refine ⟨fun o n => ?_, fun hfin o ho => ⟨fun c hc hof => ?_, fun l hl hlo => ?_, fun f hf _ => ?_⟩⟩
  · by_cases hex : ∃ c ∈ p.store.charges, c.source = .pos o n
    · obtain ⟨c, hc, hsource⟩ := hex
      refine length_filter_le_one (r := c) fun x hx hxs => ?_
      exact eq_of_key hx hc ((decide_eq_true_iff.mp hxs).trans hsource.symm)
    · rw [filter_eq_nil_iff.mpr]
      · exact Nat.zero_le 1
      · intro c hc hsource
        exact hex ⟨c, hc, decide_eq_true_iff.mp hsource⟩
  · by_contra hne
    exact nothing_due h hfin (d := .line o c.folioId) ⟨ho, c, hc, hof, rfl, by simpa using hne⟩
  · by_contra hne
    exact nothing_due h hfin (d := .late o) ⟨ho, l, hl, hlo, by simpa using hne⟩
  · by_contra hne
    exact nothing_due h hfin (d := .balance f.id) ⟨f, hf, rfl, hne⟩

/-! ### Runs -/

instance {f : ℕ} : Decidable (Undisturbed p k f) := by
  unfold Undisturbed
  infer_instance

instance : Decidable (FailsAlone p k t) := by
  unfold FailsAlone
  infer_instance

instance {b : Body} {g : ℕ} {l : Line} {o : Chance} : Decidable (Matches s b g l o) := by
  unfold Matches
  infer_instance

instance {m : Move} : Decidable (StepOrderly p k t m) := by
  rcases t with ⟨id, b, pc⟩
  rcases m with o | _ <;> [rcases pc with _ | _ | ⟨_ | _, _⟩ | _ | _ | _ | _ | _ | _ | _ | _ | _; skip] <;>
    unfold StepOrderly <;> infer_instance

theorem noHalfPosted_iff {folio : ℕ} : (∀ e ∈ p.store.events.rows, ¬(e.body.kind = .posted ∧
    e.body.folioId = some folio ∧
    (e.state = .outstanding ∨ ∃ t ∈ p.threads, t.eventId = e.id ∧ t.pc ≠ .ended) ∧
      folio ∈ p.store.carriers e.body.order ∧ p.store.intent e.body.order = false)) ↔ NoHalfPosted p folio := by
  unfold NoHalfPosted
  simp only [not_and, Bool.not_eq_false]

instance {folio : ℕ} : Decidable (NoHalfPosted p folio) := decidable_of_iff _ noHalfPosted_iff

instance {a : Act Elsewhere ℕ Move} : Decidable (Orderly p a) := by
  rcases a with (_ | _ | _) | _ | _ <;> unfold Orderly <;> infer_instance

def newFolio : Pool Store Delivery := ⟨⟨.empty, .empty, [], ⟨[⟨0, .isOpen, none, none, 0⟩], by decide⟩, .empty⟩, []⟩

theorem newFolio_init : deliveries.machine.init newFolio := by
  refine ⟨⟨rfl, fun f hf => ?_⟩, rfl⟩
  cases mem_singleton.mp hf
  rfl

def dinner : Body := ⟨.posted, 7, some 0, [⟨1, ⟨some 1000, none, none, 0⟩⟩]⟩
def refund : Body := ⟨.reversed, 7, some 0, []⟩

/-- Whether all deliveries have finished, whether the order is reversed, and whether the
balances of its folios are the ledger. -/
def books (p : Pool Store Delivery) : Bool × Bool × Bool :=
  (p.threads.all (·.pc = .ended) && p.store.events.rows.all (·.state ≠ .outstanding),
    p.store.intent 7,
    p.store.folios.rows.all fun f => f.id ∈ p.store.carriers 7 → f.balance = p.store.ledger f.id)

def steps (k n : ℕ) : List (Act Elsewhere ℕ Move) := List.replicate n (.step k (.advance {}))

theorem Finished.of_books {b : Bool × Bool} (h : books p = (true, b)) : Finished p := by
  have hall := (Prod.mk.inj h).1
  simp only [Bool.and_eq_true, all_eq_true, decide_eq_true_eq] at hall
  exact hall

/-- The refund is delivered while the dinner is posted, and recalculates the balance last. -/
theorem pos_charges_once_refunded :
    ∃ p, deliveries.machine.Reach Orderly p ∧ Finished p ∧ p.store.intent 7 = true ∧
      ∀ c ∈ p.store.charges, c.isOf 7 = true → c.voided = true := by
  obtain ⟨p, hp, hv⟩ := Machine.exists_reach_of_runUnder (C := Orderly) (f := books)
    (v := (true, true, true))
    (List.flatten [[.env (.publish 1 dinner), .call 1], steps 0 2, [.env (.publish 2 refund),
      .call 2], steps 1 3, steps 0 14, steps 1 5]) newFolio_init (by decide +kernel)
  have hfin := Finished.of_books hv
  have hrev : p.store.intent 7 = true := congrArg (fun x => x.2.1) hv
  exact ⟨p, hp, hfin, hrev, ((pos_charges_once hp).2 hfin 7 hrev).1⟩

/-- The refund reads the charge before the posting voids it, and writes the balance after. -/
theorem stale_balance_written :
    ¬ ∀ p, deliveries.machine.Reachable p → Finished p → ∀ o, p.store.intent o = true →
        ∀ f ∈ p.store.folios, f.id ∈ p.store.carriers o → f.balance = p.store.ledger f.id := by
  intro h
  obtain ⟨p, hp, hv⟩ := Machine.exists_reachable_of_run (f := books) (v := (true, true, false))
    (List.flatten [[.env (.publish 1 dinner), .call 1], steps 0 2, [.env (.publish 2 refund),
      .call 2], steps 1 3, steps 0 1, steps 1 2, steps 0 13, steps 1 3])
      newFolio_init (by decide +kernel)
  have hrev : p.store.intent 7 = true := congrArg (fun x => x.2.1) hv
  have hall := h p hp (Finished.of_books hv) 7 hrev
  have hfalse : p.store.folios.rows.all (fun f => f.id ∈ p.store.carriers 7 → f.balance = p.store.ledger f.id) = false :=
    congrArg (fun x => x.2.2) hv
  rw [all_eq_true.mpr fun f hf => decide_eq_true (hall f hf)] at hfalse
  cases hfalse

end SyrocePms.PosFolio
