import SyrocePms.OperationalGl.Steps

/-! A valued day is posted once and corrected once. The keys are fixed by the run and its day,
so the unique index admits one original and one correction; together they say what the plan
says that was posted last. -/

namespace SyrocePms.OperationalGl

open Lib List Collection

variable {s s' : Store} {o : Chance} {pc pc' : Pc} {run : ℕ}
variable {d : Draft} {id : ℕ} {journal : Journal} {p p' : Pool Store Pc} {x y : Entry}

/-! ### What has been posted -/

def Pc.posts (s : Store) (o : Chance) : Pc → List (ℕ × Plan)
  | .insert d =>
    if (s.journal.insert (d.entry o.newId)).isSome then (d.plan.map fun plan => (d.run, plan)).toList
    else []
  | _ => []

def posts (p : Pool Store Pc) : Act Env Call Chance → List (ℕ × Plan)
  | .step k o => ((p.threads[k]?).map (Pc.posts p.store o)).getD []
  | _ => []

def lastPosted (log : List (ℕ × Plan)) (run : ℕ) : Option Plan :=
  (log.find? fun x => x.1 = run).map Prod.snd

def Says (s : Store) (run : ℕ) (plan : Plan) : Prop :=
  ∃ x ∈ s.journal.entries, x.isOriginal run = true ∧
    ((x.lines.lines = plan.lines ∧ x.manifest = some plan.manifest ∧
        ∀ e ∈ s.journal.entries, e.isCorrection run = false) ∨
      ∃ c ∈ s.journal.entries, c.isCorrection run = true ∧
        c.lines.lines = x.lines.lines.map Line.contra ++ plan.lines)

/-- The books of a run say what was posted last; before that there is no correction. -/
structure Booked (s : Store) (log : List (ℕ × Plan)) (run : ℕ) : Prop where
  unposted : lastPosted log run = none → ∀ e ∈ s.journal.entries, e.isCorrection run = false
  posted : ∀ plan, lastPosted log run = some plan → Says s run plan

variable {log : List (ℕ × Plan)} {plan : Plan}

theorem lastPosted_cons_self : lastPosted ((run, plan) :: log) run = some plan := by
  simp [lastPosted]

theorem lastPosted_cons_of_ne {r : ℕ} (h : r ≠ run) : lastPosted ((r, plan) :: log) run = lastPosted log run := by
  simp [lastPosted, h]

theorem not_correction_mono
    (hnew : ∀ e ∈ s'.journal.entries, e.isCorrection run = true → Held s e)
    (h : ∀ e ∈ s.journal.entries, e.isCorrection run = false) :
    ∀ e ∈ s'.journal.entries, e.isCorrection run = false := by
  intro e he
  by_contra hne
  obtain ⟨x, hx, hcore⟩ := hnew e he (eq_true_of_ne_false hne)
  have hc := (isCorrection_of_core hcore).symm.trans (h x hx)
  exact hne hc

theorem Says.mono (h : Says s run plan) (hev : Evolves s s')
    (hnew : ∀ e ∈ s'.journal.entries, e.isCorrection run = true → Held s e) : Says s' run plan := by
  obtain ⟨x, hx, ho, hcase⟩ := h
  obtain ⟨x', hx', hcore⟩ := hev.entries x hx
  have hl : x'.lines = x.lines := eq_of_core Entry.core_lines hcore
  have hm : x'.manifest = x.manifest := eq_of_core Entry.core_manifest hcore
  refine ⟨x', hx', (isOriginal_of_core hcore).trans ho, ?_⟩
  obtain ⟨hlines, hman, hno⟩ | ⟨c, hc, hof, hlines⟩ := hcase
  · exact .inl ⟨hl ▸ hlines, hm ▸ hman, not_correction_mono hnew hno⟩
  · obtain ⟨c', hc', hcore'⟩ := hev.entries c hc
    have hl' : c'.lines = c.lines := eq_of_core Entry.core_lines hcore'
    exact .inr ⟨c', hc', (isCorrection_of_core hcore').trans hof, by rw [hl, hl', hlines]⟩

theorem Booked.mono (h : Booked s log run) (hev : Evolves s s')
    (hnew : ∀ e ∈ s'.journal.entries, e.isCorrection run = true → Held s e) : Booked s' log run :=
  ⟨fun hnone => not_correction_mono hnew (h.unposted hnone), fun plan hp => (h.posted plan hp).mono hev hnew⟩

theorem no_original_of_insert (hs : Sound s) (hd : Drafted s d) (hc : d.correcting = false)
    (hins : s.journal.insert (d.entry id) = some journal) :
    ∀ e ∈ s.journal.entries, e.isOriginal d.run = false := by
  intro e he
  by_contra hne
  obtain ⟨r, hr, hid, hk⟩ := (hs e he).original d.run (eq_true_of_ne_false hne)
  obtain ⟨r', hr', hid', hdate⟩ := hd.known
  have heq : r = r' := eq_of_key hr hr' (hid.trans hid'.symm)
  refine (Journal.insert_eq_some hins).1 e he (.daily d.date) ?_ ?_
  · simp [Draft.entry, Draft.key, hc]
  · rw [hk, heq, hdate]

theorem no_correction_of_insert (hs : Sound s) (hd : Drafted s d)
    (hins : s.journal.insert (d.entry id) = some journal) :
    ∀ e ∈ s.journal.entries, e.isCorrection d.run = false := by
  intro e he
  by_contra hne
  obtain ⟨hk, x, hx, ho⟩ := (hs e he).correction d.run (eq_true_of_ne_false hne)
  cases hc : d.correcting with
  | true =>
    refine (Journal.insert_eq_some hins).1 e he (.correction d.run) ?_ hk
    simp [Draft.entry, Draft.key, hc]
  | false =>
    rw [no_original_of_insert hs hd hc hins x hx] at ho
    cases ho

theorem entry_isOriginal (d : Draft) (id : ℕ) (h : d.correcting = false) :
    (d.entry id).isOriginal d.run = true := by
  simp [Entry.isOriginal, Draft.entry, Draft.source, h]

theorem entry_isCorrection (d : Draft) (id : ℕ) :
    (d.entry id).isCorrection run = (d.correcting && d.run = run) := by
  cases h : d.correcting <;> simp [Entry.isCorrection, Draft.entry, Draft.source, h]

theorem says_of_insert (hs : Sound s) (hd : Drafted s d) (hplan : d.plan = some plan)
    (hins : s.journal.insert (d.entry id) = some journal) : Says { s with journal } d.run plan := by
  have hmem := (Journal.insert_eq_some hins).2
  have hself : d.entry id ∈ journal.entries := (hmem _).mpr (.inr rfl)
  cases hc : d.correcting with
  | true =>
    obtain ⟨plan', hplan', x, hx, ho, hlines, -⟩ := hd.corrects hc
    obtain rfl : plan' = plan := Option.some.inj (hplan'.symm.trans hplan)
    refine ⟨x, (hmem x).mpr (.inl hx), ho, .inr ⟨d.entry id, hself, ?_, hlines⟩⟩
    rw [entry_isCorrection, hc]
    simp
  | false =>
    refine ⟨d.entry id, hself, entry_isOriginal d id hc, .inl ⟨hd.posts hc plan hplan, ?_, fun e he => ?_⟩⟩
    · simp [Draft.entry, Draft.manifest, hplan]
    · obtain he | rfl := (hmem e).mp he
      · exact no_correction_of_insert hs hd hins e he
      · rw [entry_isCorrection, hc]
        rfl

theorem Booked.insert (hs : Sound s) (hd : Drafted s d) (h : Booked s log run)
    (hins : s.journal.insert (d.entry id) = some journal) :
    Booked { s with journal } ((d.plan.map fun plan => (d.run, plan)).toList ++ log) run := by
  have hmem := (Journal.insert_eq_some hins).2
  have hchange : Changes s ⟨id, .missing, false, false, false⟩ (.insert d) { s with journal } := .insert rfl hins
  have hev : Evolves s { s with journal } := hchange.evolves
  by_cases hrun : d.run = run
  · subst hrun
    cases hplan : d.plan with
    | some plan =>
      refine ⟨fun hnone => ?_, fun plan' hp => ?_⟩
      · rw [Option.map_some, Option.toList_some, singleton_append, lastPosted_cons_self] at hnone
        cases hnone
      · rw [Option.map_some, Option.toList_some, singleton_append, lastPosted_cons_self] at hp
        exact Option.some.inj hp ▸ says_of_insert hs hd hplan hins
    | none =>
      -- an automatic post is no correction, and it is the first entry of its run
      have hc : d.correcting = false := by
        by_contra hne
        obtain ⟨plan, hp, -⟩ := hd.corrects (eq_true_of_ne_false hne)
        rw [hplan] at hp
        cases hp
      refine h.mono hev fun e he hof => ?_
      obtain he | rfl := (hmem e).mp he
      · exact held_of_mem he
      · rw [entry_isCorrection, hc] at hof
        cases hof
  · have hlog : lastPosted ((d.plan.map fun plan => (d.run, plan)).toList ++ log) run = lastPosted log run := by
      cases d.plan with
      | none => rfl
      | some plan => exact lastPosted_cons_of_ne hrun
    have hmono : Booked { s with journal } log run := by
      refine h.mono hev fun e he hof => ?_
      obtain he | rfl := (hmem e).mp he
      · exact held_of_mem he
      · rw [entry_isCorrection] at hof
        simp [hrun] at hof
    exact ⟨fun hnone => hmono.unposted (hlog ▸ hnone), fun plan hp => hmono.posted plan (hlog ▸ hp)⟩

theorem booked_next {a : Act Env Call Chance} (hp : Program.Inv Sound Ok (fun _ _ => True) p)
    (h : Booked p.store log run) (hs : valuations.machine.step p a = some p') :
    Booked p'.store (posts p a ++ log) run := by
  cases a with
  | env x =>
    obtain ⟨hev, hnew⟩ := env_changes (Program.next_env hs).1
    refine h.mono hev fun e he hof => ?_
    obtain hheld | ⟨n, hn⟩ := hnew e he
    · exact hheld
    · rw [(not_of_other hn).2] at hof
      cases hof
  | call c =>
    obtain ⟨t, -, hstore, -⟩ := Program.next_call hs
    rw [hstore]
    exact h
  | step k o =>
    obtain ⟨pc, pc', ht, hstep, -⟩ := Program.next_step hs
    have hposts : posts p (.step k o) = pc.posts p.store o := by simp [posts, ht]
    rw [hposts]
    have hok := hp.thread k pc ht
    have hstep : advance p.store o pc = some (p'.store, pc') := hstep
    have hch := advance_changes hstep
    cases pc with
    | insert d =>
      simp only [advance] at hstep
      cases hins : p.store.journal.insert (d.entry o.newId) with
      | none =>
        rw [hins] at hstep
        have heq := (Prod.mk.inj (Option.some.inj hstep)).1
        rw [← heq, Pc.posts, hins]
        exact h
      | some journal =>
        rw [hins] at hstep
        have heq := (Prod.mk.inj (Option.some.inj hstep)).1
        rw [← heq, Pc.posts, hins]
        exact h.insert hp.store hok hins
    | _ =>
      refine h.mono hch.evolves fun e he _ => ?_
      generalize p'.store = s' at hch he
      cases hch with
      | same => exact held_of_mem he
      | run => exact held_of_mem he
      | insert hpc => cases hpc

theorem reach_booked (h : valuations.machine.ReachLogged posts (fun _ _ => True) (p, log)) (run : ℕ) :
    Booked p.store log run := by
  refine h.invariant (fun p log => Booked p.store log run) (fun p h₀ => ?_) fun p log a p' hp hi _ hs => ?_
  · obtain ⟨hbridged, -⟩ := h₀
    refine ⟨fun _ e he => ?_, fun plan hp => by cases hp⟩
    simp [Entry.isCorrection, (hbridged e he).1]
  · exact booked_next (preserves_ok.reach hp) hi hs

/-! ### The books of a run -/

theorem eq_of_isOriginal (hs : Sound s) (hx : x ∈ s.journal.entries) (hy : y ∈ s.journal.entries)
    (hxo : x.isOriginal run = true) (hyo : y.isOriginal run = true) : x = y := by
  obtain ⟨r, hr, hid, hk⟩ := (hs x hx).original run hxo
  obtain ⟨r', hr', hid', hk'⟩ := (hs y hy).original run hyo
  have heq : r = r' := eq_of_key hr hr' (hid.trans hid'.symm)
  exact s.journal.unique x hx y hy (by simp [hk]) (by rw [hk, hk', heq])

theorem eq_of_isCorrection (hs : Sound s) (hx : x ∈ s.journal.entries) (hy : y ∈ s.journal.entries)
    (hxc : x.isCorrection run = true) (hyc : y.isCorrection run = true) : x = y := by
  have hk := ((hs x hx).correction run hxc).1
  have hk' := ((hs y hy).correction run hyc).1
  exact s.journal.unique x hx y hy (by simp [hk]) (hk.trans hk'.symm)

theorem originals_length (hs : Sound s) (run : ℕ) : (s.journal.originals run).length ≤ 1 := by
  by_cases h : ∃ x ∈ s.journal.entries, x.isOriginal run = true
  · obtain ⟨x, hx, ho⟩ := h
    exact length_filter_le_one fun y hy hyo => eq_of_isOriginal hs hy hx hyo ho
  · have hnil : s.journal.originals run = [] :=
      filter_eq_nil_iff.mpr fun x hx ho => h ⟨x, hx, ho⟩
    simp [hnil]

theorem corrections_length (hs : Sound s) (run : ℕ) : (s.journal.corrections run).length ≤ 1 := by
  by_cases h : ∃ x ∈ s.journal.entries, x.isCorrection run = true
  · obtain ⟨x, hx, hc⟩ := h
    exact length_filter_le_one fun y hy hyc => eq_of_isCorrection hs hy hx hyc hc
  · have hnil : s.journal.corrections run = [] :=
      filter_eq_nil_iff.mpr fun x hx hc => h ⟨x, hx, hc⟩
    simp [hnil]

theorem eq_singleton_of_length_le {α : Type*} {l : List α} {a : α} (h : l.length ≤ 1) (ha : a ∈ l) : l = [a] := by
  obtain ⟨b, rfl⟩ := length_eq_one_iff.mp (Nat.le_antisymm h (length_pos_of_mem ha))
  rw [mem_singleton.mp ha]

theorem Says.effect_eq (h : Says s run plan) (hs : Sound s) (account : ℕ) :
    effect (s.journal.linesOf run) account = effect plan.lines account := by
  obtain ⟨x, hx, ho, hcase⟩ := h
  have horiginal : s.journal.originals run = [x] :=
    eq_singleton_of_length_le (originals_length hs run) (s.journal.mem_originals.mpr ⟨hx, ho⟩)
  obtain ⟨hlines, -, hno⟩ | ⟨c, hc, hof, hlines⟩ := hcase
  · have hnil : s.journal.corrections run = [] :=
      filter_eq_nil_iff.mpr fun e he => by simp [hno e he]
    simp [Journal.linesOf, horiginal, hnil, hlines]
  · have hcorrection : s.journal.corrections run = [c] :=
      eq_singleton_of_length_le (corrections_length hs run) (s.journal.mem_corrections.mpr ⟨hc, hof⟩)
    rw [Journal.linesOf, horiginal, hcorrection, ← effect_corrected x.lines.lines plan.lines, ← hlines]
    simp

/-! ### Replays -/

def Pc.planned : Pc → Option (ℕ × Plan)
  | .byKey _ r plan | .candidates _ r plan _ | .correction _ r plan _ | .decide _ r plan _ _ =>
    some (r.id, plan)
  | .lookup d | .check d | .insert d | .existing d => d.plan.map fun plan => (d.run, plan)
  | _ => none

/-- Call `k` has built the plan of the run anew, from the same sources and the same valuation. -/
def Repeats (p : Pool Store Pc) (k run : ℕ) (plan : Plan) : Prop :=
  ∃ pc plan', p.threads[k]? = some pc ∧ pc.planned = some (run, plan') ∧ plan'.manifest = plan.manifest

/-- A draft of what the books already say is not inserted. -/
theorem Says.not_insert {plan' : Plan} (h : Says s d.run plan) (hs : Sound s) (hd : Drafted s d)
    (hplan : d.plan = some plan') (heq : plan'.manifest = plan.manifest)
    (hins : s.journal.insert (d.entry id) = some journal) : False := by
  obtain ⟨x, hx, ho, hcase⟩ := h
  cases hc : d.correcting with
  | false =>
    rw [no_original_of_insert hs hd hc hins x hx] at ho
    cases ho
  | true =>
    obtain ⟨hlines, hman, -⟩ | ⟨c, hcm, hof, -⟩ := hcase
    · obtain ⟨plan'', hplan'', y, hy, hyo, -, hne⟩ := hd.corrects hc
      obtain rfl : plan'' = plan' := Option.some.inj (hplan''.symm.trans hplan)
      rw [eq_of_isOriginal hs hy hx hyo ho, hman, heq] at hne
      exact hne rfl
    · rw [no_correction_of_insert hs hd hins c hcm] at hof
      cases hof

/-- A replay inserts nothing. -/
theorem journal_eq_of_repeats {k : ℕ} (hp : Program.Inv Sound Ok (fun _ _ => True) p)
    (h : Says p.store run plan) (hr : Repeats p k run plan)
    (hs : valuations.machine.step p (.step k o) = some p') :
    p'.store.journal = p.store.journal := by
  obtain ⟨pc, pc', ht, hstep, -⟩ := Program.next_step hs
  obtain ⟨pc₁, plan', ht', hplanned, heq⟩ := hr
  obtain rfl : pc = pc₁ := Option.some.inj (ht.symm.trans ht')
  have hch : Changes p.store o pc p'.store := advance_changes hstep
  generalize p'.store = s' at hch
  cases hch with
  | same => rfl
  | run => rfl
  | insert hpc hins =>
    subst hpc
    obtain ⟨plan'', hplan, hpair⟩ := Option.map_eq_some_iff.mp hplanned
    obtain ⟨rfl, rfl⟩ := Prod.mk.inj hpair
    exact (h.not_insert hp.store (hp.thread k _ ht) hplan heq hins).elim

/-- A run has one original entry and one correction at most, together they move on every
account what the lines of the plan move that was posted last, and a call that has built that
plan again inserts nothing. -/
theorem valued_day_posted_once {p : Pool Store Pc}
    (h : valuations.machine.ReachLogged posts (fun _ _ => True) (p, log)) (run : ℕ) :
    (p.store.journal.originals run).length ≤ 1 ∧ (p.store.journal.corrections run).length ≤ 1 ∧
      ∀ plan, lastPosted log run = some plan →
        (∀ account, effect (p.store.journal.linesOf run) account = effect plan.lines account) ∧
          ∀ k o p', Repeats p k run plan → valuations.machine.step p (.step k o) = some p' →
            p'.store.journal = p.store.journal := by
  have hp := preserves_ok.reach h.reach
  refine ⟨originals_length hp.store run, corrections_length hp.store run, fun plan hlast => ?_⟩
  have hsaid := (reach_booked h run).posted plan hlast
  exact ⟨hsaid.effect_eq hp.store, fun k o p' hr hs => journal_eq_of_repeats hp hsaid hr hs⟩

/-! ### A day in dollars -/

/-- Day 5 has been audited by run 7, with one charge of 100.00 USD. -/
def sampleStore : Store where
  journal := .empty
  runs := ⟨[{ id := 7, businessDate := 5, completed := true }], by decide⟩
  mapping := ⟨true, true, ⟨120, 600, 391, 100, 108, 102, none, none, none⟩⟩
  chart := ⟨[⟨120, .other, .debit, true⟩, ⟨391, .other, .credit, true⟩, ⟨600, .revenue, .credit, true⟩],
    by decide⟩
  sources := .ok { charges := [⟨some 1, .usd, none, none, 10000, some 1000, none, .none, false, none⟩] }

def sampleValuation (rate : ℚ) : ValuationRequest := ⟨5, true, "kur listesi", [(.usd, some rate)], none⟩

def samplePlan (rate : ℚ) : Option Plan :=
  ((normalizedValuation 5 (sampleValuation rate)).bind fun v =>
    sampleStore.sources.bind fun x => buildPlan x sampleStore.mapping.accounts v).toOption

def samplePost (rate : ℚ) (action : Action) (originalHash : Option ℕ) : Act Env Call Chance :=
  .call (.post 7 (sampleValuation rate) ((samplePlan rate).map fun plan => ⟨7, action, plan.manifest, originalHash⟩))

def steps (k n id : ℕ) : List (Act Env Call Chance) := List.replicate n (.step k { newId := id })

/-- The day is posted at 40, corrected at 42 without an answer, and a replay of the correction
is about to decide. -/
def sampleRun : List (Act Env Call Chance) :=
  samplePost 40 .post none :: steps 0 11 1 ++
    samplePost 42 .correct (some 1) :: steps 1 10 2 ++
    samplePost 42 .correct (some 1) :: steps 2 6 3

/-- What the entries of run 7 move on receivables, tax and revenue, and whether call 2 has built
the plan of its last post. -/
def observed (w : Pool Store Pc × List (ℕ × Plan)) : List ℤ × Option Bool :=
  ([120, 391, 600].map (effect (w.1.store.journal.linesOf 7)),
    (lastPosted w.2 7).bind fun plan =>
      ((w.1.threads[2]?).bind Pc.planned).map fun x => x.1 = 7 && x.2.manifest = plan.manifest)

/-- The corrected day is posted at 42, and the replay inserts nothing. -/
theorem valued_day_posted_once_dollars : ∃ p log plan,
    valuations.machine.ReachLogged posts (fun _ _ => True) (p, log) ∧ lastPosted log 7 = some plan ∧
      [120, 391, 600].map (effect plan.lines) = [420000, -42000, -378000] ∧ Repeats p 2 7 plan ∧
      (p.store.journal.corrections 7).length ≤ 1 ∧
      ∀ o p', valuations.machine.step p (.step 2 o) = some p' → p'.store.journal = p.store.journal := by
  obtain ⟨⟨p, log⟩, hp, hv⟩ := Machine.exists_reachable_of_run
    (M := valuations.machine.logged posts) (s := (⟨sampleStore, []⟩, [])) (f := observed)
    (v := ([420000, -42000, -378000], some true)) sampleRun
    ⟨⟨fun e he => absurd he not_mem_empty, rfl⟩, rfl⟩ (by decide +kernel)
  obtain ⟨heffect, hsame⟩ := Prod.mk.inj hv
  obtain ⟨plan, hlast, hsame⟩ := Option.bind_eq_some_iff.mp hsame
  obtain ⟨⟨run, plan'⟩, hplanned, hsame⟩ := Option.map_eq_some_iff.mp hsame
  obtain ⟨pc, ht, hplanned⟩ := Option.bind_eq_some_iff.mp hplanned
  obtain ⟨hrun, hman⟩ : run = 7 ∧ plan'.manifest = plan.manifest := by simpa using hsame
  have hrepeats : Repeats p 2 7 plan := ⟨pc, plan', ht, hrun ▸ hplanned, hman⟩
  obtain ⟨-, hcorrections, hposted⟩ := valued_day_posted_once hp 7
  obtain ⟨heq, hreplay⟩ := hposted plan hlast
  refine ⟨p, log, plan, hp, hlast, ?_, hrepeats, hcorrections, fun o p' hs => hreplay 2 o p' hrepeats hs⟩
  rw [← heffect]
  exact map_congr_left fun account _ => (heq account).symm

end SyrocePms.OperationalGl
