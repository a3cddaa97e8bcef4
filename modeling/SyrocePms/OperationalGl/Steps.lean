import SyrocePms.OperationalGl.Journal

/-! What a step of a call does to journal and runs, and what a call has read: originals and
corrections have the keys of their run, and the draft of a correction takes back the very
original that it was previewed against. -/

namespace SyrocePms.OperationalGl

open Lib

variable {s s' : Store} {o : Chance} {pc pc' : Pc} {run : ℕ}
variable {e x y : Entry} {d : Draft} {k n : ℕ} {plan : Plan} {correction original : Option Entry}
  {r : Run} {p : Preview}

/-! ### What is kept -/

/-- An original entry has the key of the day of its run, a correction the key of its run, and
what is corrected has been posted. -/
structure Fits (s : Store) (e : Entry) : Prop where
  original : ∀ run, e.isOriginal run = true → ∃ r ∈ s.runs, r.id = run ∧ e.key = some (.daily r.businessDate)
  correction : ∀ run, e.isCorrection run = true →
    e.key = some (.correction run) ∧ ∃ x ∈ s.journal.entries, x.isOriginal run = true

def Sound (s : Store) : Prop := ∀ e ∈ s.journal.entries, Fits s e

/-- Entries keep their core, and runs their day. -/
structure Evolves (s s' : Store) : Prop where
  entries : ∀ e ∈ s.journal.entries, ∃ e' ∈ s'.journal.entries, e'.core = e.core
  runs : ∀ r ∈ s.runs, ∃ r' ∈ s'.runs, r'.id = r.id ∧ r'.businessDate = r.businessDate

def Knows (s : Store) (run date : ℕ) : Prop := ∃ r ∈ s.runs, r.id = run ∧ r.businessDate = date

def Held (s : Store) (e : Entry) : Prop := ∃ x ∈ s.journal.entries, x.core = e.core

/-- The original of the run is stored, and the draft takes it back and posts the lines of a
plan that differs from it. -/
def Corrects (s : Store) (d : Draft) : Prop :=
  ∃ plan, d.plan = some plan ∧ ∃ x ∈ s.journal.entries, x.isOriginal d.run = true ∧
    d.lines.lines = x.lines.lines.map Line.contra ++ plan.lines ∧ x.manifest ≠ some plan.manifest

structure Drafted (s : Store) (d : Draft) : Prop where
  known : Knows s d.run d.date
  corrects : d.correcting = true → Corrects s d
  posts : d.correcting = false → ∀ plan, d.plan = some plan → d.lines.lines = plan.lines

/-- What a call has read is still so. -/
def Ok (s : Store) (_ : ℕ) : Pc → Prop
  | .start _ | .bridge _ _ _ | .mark _ _ _ _ _ | .answered _ => True
  | .mapping _ r | .sources _ r _ _ | .byKey _ r _ => Knows s r.id r.businessDate
  | .candidates _ r _ x | .correction _ r _ x | .decide _ r _ x _ =>
    Knows s r.id r.businessDate ∧ ∀ e, x = some e → Held s e
  | .lookup d | .check d | .insert d | .existing d => Drafted s d

theorem Evolves.of_eq (hj : s'.journal = s.journal) (hr : s'.runs = s.runs) : Evolves s s' :=
  ⟨fun e he => ⟨e, hj ▸ he, rfl⟩, fun r h => ⟨r, hr ▸ h, rfl, rfl⟩⟩

theorem Knows.mono {date : ℕ} (h : Knows s run date) (hs : Evolves s s') : Knows s' run date := by
  obtain ⟨r, hr, hid, hdate⟩ := h
  obtain ⟨r', hr', hid', hdate'⟩ := hs.runs r hr
  exact ⟨r', hr', hid'.trans hid, hdate'.trans hdate⟩

theorem Held.mono (h : Held s e) (hs : Evolves s s') : Held s' e := by
  obtain ⟨x, hx, hcore⟩ := h
  obtain ⟨x', hx', hcore'⟩ := hs.entries x hx
  exact ⟨x', hx', hcore'.trans hcore⟩

/-- What does not look at reversals is the same for entries with one core. -/
theorem eq_of_core {β : Type*} {f : Entry → β} (hf : ∀ e, f e.core = f e) (h : x.core = y.core) :
    f x = f y := by
  rw [← hf x, h, hf y]

theorem isOriginal_of_core (h : x.core = y.core) : x.isOriginal run = y.isOriginal run :=
  eq_of_core (f := fun e => e.isOriginal run) (fun e => e.core_isOriginal run) h

theorem isCorrection_of_core (h : x.core = y.core) : x.isCorrection run = y.isCorrection run :=
  eq_of_core (f := fun e => e.isCorrection run) (fun e => e.core_isCorrection run) h

theorem Fits.mono (h : Fits s x) (hs : Evolves s s') (hcore : x.core = y.core) : Fits s' y := by
  have hkey : x.key = y.key := eq_of_core Entry.core_key hcore
  refine ⟨fun run ho => ?_, fun run hc => ?_⟩
  · obtain ⟨r, hr, hid, hk⟩ := h.original run ((isOriginal_of_core hcore).trans ho)
    obtain ⟨r', hr', hid', hdate⟩ := hs.runs r hr
    exact ⟨r', hr', hid'.trans hid, by rw [← hkey, hk, hdate]⟩
  · obtain ⟨hk, z, hz, ho⟩ := h.correction run ((isCorrection_of_core hcore).trans hc)
    obtain ⟨z', hz', hcore'⟩ := hs.entries z hz
    exact ⟨hkey ▸ hk, z', hz', (isOriginal_of_core hcore').trans ho⟩

theorem Corrects.mono (h : Corrects s d) (hs : Evolves s s') : Corrects s' d := by
  obtain ⟨plan, hplan, x, hx, hof, hlines, hne⟩ := h
  obtain ⟨x', hx', hcore⟩ := hs.entries x hx
  have hl : x'.lines = x.lines := eq_of_core Entry.core_lines hcore
  have hm : x'.manifest = x.manifest := eq_of_core Entry.core_manifest hcore
  exact ⟨plan, hplan, x', hx', (isOriginal_of_core hcore).trans hof, hl ▸ hlines, hm ▸ hne⟩

theorem Drafted.mono (h : Drafted s d) (hs : Evolves s s') : Drafted s' d :=
  ⟨h.known.mono hs, fun hc => (h.corrects hc).mono hs, h.posts⟩

theorem Ok.mono (h : Ok s k pc) (hs : Evolves s s') : Ok s' k pc := by
  cases pc with
  | start | bridge | mark | answered => trivial
  | mapping | sources | byKey => exact Knows.mono h hs
  | candidates | correction | decide => exact ⟨h.1.mono hs, fun e he => (h.2 e he).mono hs⟩
  | lookup | check | insert | existing => exact Drafted.mono h hs

/-! ### The preview -/

theorem actionOf_correct (h : actionOf plan original correction = .correct) :
    ∃ e, original = some e ∧ e.manifest ≠ some plan.manifest := by
  unfold actionOf at h
  split at h
  · cases h
  · rename_i hno
    split at h
    · cases h
    · split at h
      · rename_i hsome
        obtain ⟨e, rfl⟩ := Option.isSome_iff_exists.mp hsome
        exact ⟨e, rfl, by simpa using hno⟩
      · split at h <;> cases h

/-- What a preview says that is to be posted. -/
structure Previewed (r : Run) (original : Option Entry) (p : Preview) : Prop where
  run : p.run = r.id
  date : p.businessDate = r.businessDate
  corrects : p.action = .correct → ∃ e, original = some e ∧ e.isOriginal r.id = true ∧
    p.postingLines = e.lines.lines.map Line.contra ++ p.plan.lines ∧ e.manifest ≠ some p.plan.manifest
  posts : p.action ≠ .correct → p.postingLines = p.plan.lines

theorem exists_of_preview_ok (h : s.preview o r plan original correction = .ok p) :
    original.bind (originalError r) = none ∧ ∃ plan', p = previewOf r plan' original correction := by
  unfold Store.preview at h
  simp only [bind, Except.bind, pure, Except.pure, throw, throwThe, MonadExceptOf.throw] at h
  split at h
  · cases h
  · rename_i hno
    refine ⟨Option.eq_none_iff_forall_ne_some.mpr hno, ?_⟩
    split at h
    · cases h
    · rename_i plan' _
      refine ⟨plan', ?_⟩
      split at h
      · cases h
      · split at h
        · cases h
        · split at h
          · cases h
          · split at h
            · split at h <;> cases h
              rfl
            · cases h
              rfl

theorem preview_ok (h : s.preview o r plan original correction = .ok p) :
    Previewed r original p := by
  obtain ⟨hcheck, plan', rfl⟩ := exists_of_preview_ok h
  refine ⟨rfl, rfl, fun hc => ?_, fun hc => if_neg hc⟩
  obtain ⟨e, rfl, hne⟩ := actionOf_correct hc
  have hof : e.isOriginal r.id = true := by
    simp only [Option.bind_some, originalError] at hcheck
    split at hcheck
    · rename_i hboth
      exact (Bool.and_eq_true_iff.mp hboth).1
    · cases hcheck
  exact ⟨e, rfl, hof, if_pos hc, hne⟩

/-! ### One step -/

/-- What a step does to the store: nothing, an update of a run, or the entry of a draft. -/
inductive Changes (s : Store) (o : Chance) (pc : Pc) : Store → Prop
  | same : Changes s o pc s
  | run {run : ℕ} {f : Run → Run} {hid : ∀ r, (f r).id = r.id}
      (hdate : ∀ r, (f r).businessDate = r.businessDate) : Changes s o pc (s.updateRun run f hid)
  | insert {d : Draft} {journal : Journal} (hpc : pc = .insert d)
      (h : s.journal.insert (d.entry o.newId) = some journal) : Changes s o pc { s with journal }

theorem advance_changes (h : advance s o pc = some (s', pc')) : Changes s o pc s' := by
  cases pc with
  | answered => cases h
  | mark run f hid hdate =>
    cases h
    exact .run hdate
  | insert d =>
    simp only [advance] at h
    split at h
    · cases h
      exact .same
    · rename_i hins
      cases h
      exact .insert rfl hins
  | _ =>
    cases h
    exact .same

theorem updateRun_evolves (s : Store) {f : Run → Run} {hid : ∀ r, (f r).id = r.id}
    (hdate : ∀ r, (f r).businessDate = r.businessDate) : Evolves s (s.updateRun run f hid) := by
  refine ⟨fun e he => ⟨e, he, rfl⟩, fun r hr => ?_⟩
  by_cases hrun : r.id = run
  · exact ⟨f r, s.mem_updateRun.mpr (.inr ⟨r, hr, hrun, rfl⟩), hid r, hdate r⟩
  · exact ⟨r, s.mem_updateRun.mpr (.inl ⟨hr, hrun⟩), rfl, rfl⟩

theorem Changes.evolves (h : Changes s o pc s') : Evolves s s' := by
  cases h with
  | same => exact .of_eq rfl rfl
  | run hdate => exact updateRun_evolves s hdate
  | insert hpc hins =>
    exact ⟨fun e he => ⟨e, ((Journal.insert_eq_some hins).2 e).mpr (.inl he), rfl⟩,
      fun r hr => ⟨r, hr, rfl, rfl⟩⟩

theorem orRaise_ok {α : Type*} {x : Except ValuationError α} {f : α → Pc}
    (h : ∀ y, x = .ok y → Ok s k (f y)) : Ok s k (orRaise x f) := by
  cases hx : x with
  | error => trivial
  | ok y => exact h y hx

theorem found_ok (d : Draft) (e : Entry) : Ok s k (found d e) := by
  unfold found
  split <;> trivial

theorem Previewed.next_ok {a : Ask} (h : Previewed r original p) (hr : Knows s r.id r.businessDate)
    (ho : ∀ e, original = some e → Held s e) : Ok s k (p.next a) := by
  unfold Preview.next
  split
  · trivial
  · split
    · trivial
    · split
      · trivial
      · split
        · trivial
        · cases hlines : normalizeJournalLines p.postingLines with
          | error => trivial
          | ok lines =>
            have heq := normalizeJournalLines_ok hlines
            refine ⟨?_, fun hc => ?_, fun hc plan hplan => ?_⟩
            · obtain ⟨x, hx, hid, hdate⟩ := hr
              exact ⟨x, hx, hid.trans h.run.symm, hdate.trans h.date.symm⟩
            · obtain ⟨e, he, hof, hpost, hne⟩ := h.corrects (of_decide_eq_true hc)
              obtain ⟨x, hx, hcore⟩ := ho e he
              have hl : x.lines = e.lines := eq_of_core Entry.core_lines hcore
              have hm : x.manifest = e.manifest := eq_of_core Entry.core_manifest hcore
              have hxof : x.isOriginal r.id = e.isOriginal r.id := isOriginal_of_core hcore
              refine ⟨p.plan, rfl, x, hx, ?_, ?_, hm ▸ hne⟩
              · rw [show (p.draft lines).run = r.id from h.run, hxof]
                exact hof
              · rw [hl]
                exact heq.trans hpost
            · cases hplan
              exact heq.trans (h.posts (of_decide_eq_false hc))

theorem held_of_mem (h : e ∈ s.journal.entries) : Held s e := ⟨e, h, rfl⟩

theorem originalOf_held {x : Option Entry} (hx : ∀ e, x = some e → Held s e)
    (h : originalOf r x (s.journal.originals run) = .ok original) :
    ∀ e, original = some e → Held s e := by
  intro e he
  have heq : (s.journal.originals run).head?.or x = some e := by
    unfold originalOf at h
    split at h
    · cases h
    · simp only at h
      split at h
      · cases h
      · split at h <;> cases h
        exact he
  obtain hhead | ⟨-, hkey⟩ := Option.or_eq_some_iff.mp heq
  · exact held_of_mem ((s.journal.mem_originals).mp (List.mem_of_head? hhead)).1
  · exact hx e hkey

/-- A step of a call keeps what the call has read. -/
theorem advance_ok (hok : Ok s k pc) (h : advance s o pc = some (s', pc')) : Ok s k pc' := by
  cases pc with
  | answered => cases h
  | mark => cases h; trivial
  | start a =>
    cases h
    cases hr : s.runs.findOne fun r => r.id = a.run && r.completed with
    | none => trivial
    | some r => exact ⟨r, (Collection.mem_of_findOne hr).1, rfl, rfl⟩
  | mapping a r =>
    cases h
    split
    · trivial
    · refine orRaise_ok fun v _ => ?_
      cases s.fxError v s.mapping.accounts with
      | some => trivial
      | none => exact hok
  | sources =>
    cases h
    exact orRaise_ok fun _ _ => hok
  | byKey a r =>
    cases h
    exact ⟨hok, fun e he => held_of_mem (Journal.mem_of_stored he).1⟩
  | candidates a r plan byKey =>
    cases h
    exact orRaise_ok fun original ho => ⟨hok.1, originalOf_held hok.2 ho⟩
  | correction =>
    cases h
    exact hok
  | decide a r plan original correction =>
    cases h
    exact orRaise_ok fun p hp => (preview_ok hp).next_ok hok.1 hok.2
  | bridge run memo lines =>
    cases h
    cases hr : s.runs.get? run with
    | none => trivial
    | some r =>
      cases hlines : normalizeJournalLines lines with
      | error => trivial
      | ok x =>
        refine ⟨⟨r, (Collection.get?_eq_some.mp hr).1, rfl, rfl⟩, fun hc => ?_, fun _ plan hplan => ?_⟩
        · cases hc
        · cases hplan
  | lookup d =>
    cases h
    cases s.journal.stored d.key with
    | none => exact hok
    | some e => exact found_ok d e
  | check d =>
    cases h
    split
    · trivial
    · cases s.accountError d.lines.lines with
      | some => trivial
      | none => exact hok
  | insert d =>
    simp only [advance] at h
    split at h
    · cases h
      exact hok
    · cases h
      split <;> trivial
  | existing d =>
    cases h
    cases s.journal.stored d.key with
    | none => trivial
    | some e => exact found_ok d e

/-! ### The store -/

theorem Sound.of_new (hs : Sound s) (hev : Evolves s s')
    (hnew : ∀ e ∈ s'.journal.entries, Held s e ∨ Fits s' e) : Sound s' := by
  intro e he
  obtain ⟨x, hx, hcore⟩ | hfits := hnew e he
  · exact (hs x hx).mono hev hcore
  · exact hfits

/-- Entries of other origin are neither originals nor corrections. -/
theorem env_changes {x : Env} (h : s.env x = some s') :
    Evolves s s' ∧ ∀ e ∈ s'.journal.entries, Held s e ∨ ∃ n, e.source = .other n := by
  have hsame {s' : Store} (hj : s'.journal = s.journal) :
      ∀ e ∈ s'.journal.entries, Held s e ∨ ∃ n, e.source = .other n :=
    fun e he => .inl (held_of_mem (hj ▸ he))
  cases x with
  | sources | mapping | account =>
    cases h
    exact ⟨.of_eq rfl rfl, hsame rfl⟩
  | startRun run date =>
    obtain ⟨runs, hruns, rfl⟩ := Option.map_eq_some_iff.mp h
    refine ⟨⟨fun e he => ⟨e, he, rfl⟩, fun r hr => ⟨r, ?_, rfl, rfl⟩⟩, hsame rfl⟩
    exact (Collection.mem_insertOne hruns).mpr (.inl hr)
  | completeRun run =>
    cases h
    exact ⟨updateRun_evolves s fun _ => rfl, hsame rfl⟩
  | entry e =>
    simp only [Store.env] at h
    split at h
    · rename_i n hother
      obtain ⟨journal, hins, rfl⟩ := Option.map_eq_some_iff.mp h
      have hmem := (Journal.insert_eq_some hins).2
      refine ⟨⟨fun x hx => ⟨x, (hmem x).mpr (.inl hx), rfl⟩, fun r hr => ⟨r, hr, rfl, rfl⟩⟩, fun x hx => ?_⟩
      obtain hx | rfl := (hmem x).mp hx
      · exact .inl (held_of_mem hx)
      · exact .inr ⟨n, hother⟩
    · cases h
  | reverse id =>
    cases h
    exact ⟨⟨fun e he => s.journal.exists_core_markReversed he, fun r hr => ⟨r, hr, rfl, rfl⟩⟩,
      fun e he => .inl (s.journal.exists_core_of_mem_markReversed he)⟩

theorem not_of_other (h : e.source = .other n) :
    e.isOriginal run = false ∧ e.isCorrection run = false := by
  simp [Entry.isOriginal, Entry.isCorrection, h]

theorem fits_of_other (h : e.source = .other n) : Fits s e := by
  refine ⟨fun run ho => ?_, fun run hc => ?_⟩
  · rw [(not_of_other h).1] at ho
    cases ho
  · rw [(not_of_other h).2] at hc
    cases hc

theorem Drafted.fits (h : Drafted s d) (id : ℕ) : Fits s (d.entry id) := by
  refine ⟨fun run ho => ?_, fun run hc => ?_⟩
  · simp only [Entry.isOriginal, Draft.entry, Draft.source, Bool.and_eq_true, decide_eq_true_eq,
      Option.some.injEq] at ho
    obtain ⟨hsource, rfl⟩ := ho
    split at hsource
    · cases hsource
    · rename_i hno
      obtain ⟨r, hr, hid, hdate⟩ := h.known
      exact ⟨r, hr, hid, by rw [hdate]; simp [Draft.entry, Draft.key, hno]⟩
  · simp only [Entry.isCorrection, Draft.entry, Draft.source, Bool.and_eq_true, decide_eq_true_eq,
      Option.some.injEq] at hc
    obtain ⟨hsource, rfl⟩ := hc
    split at hsource
    · rename_i hyes
      obtain ⟨-, -, x, hx, ho, -⟩ := h.corrects hyes
      exact ⟨by simp [Draft.entry, Draft.key, hyes], x, hx, ho⟩
    · cases hsource

theorem Changes.sound (h : Changes s o pc s') (hs : Sound s) (hok : Ok s k pc) : Sound s' := by
  refine hs.of_new h.evolves fun e he => ?_
  cases h with
  | same => exact .inl (held_of_mem he)
  | run => exact .inl (held_of_mem he)
  | insert hpc hins =>
    subst hpc
    obtain he | rfl := ((Journal.insert_eq_some hins).2 e).mp he
    · exact .inl (held_of_mem he)
    · exact .inr ((Drafted.mono hok (Changes.insert rfl hins).evolves).fits _)

theorem preserves_ok : Program.Preserves valuations (fun _ _ => True) Sound Ok (fun _ _ => True) where
  symm _ _ _ := trivial
  init s h e he := by
    obtain ⟨hnot, hbridged⟩ := h e he
    refine ⟨fun run ho => ?_, fun run hc => ?_⟩
    · obtain ⟨hsource, href⟩ := Bool.and_eq_true_iff.mp ho
      obtain ⟨r, hr, href', hk⟩ := hbridged (of_decide_eq_true hsource)
      exact ⟨r, hr, Option.some.inj (href'.symm.trans (of_decide_eq_true href)), hk⟩
    · exact absurd (of_decide_eq_true (Bool.and_eq_true_iff.mp hc).1) hnot
  env p x s' hp _ h := by
    obtain ⟨hev, hnew⟩ := env_changes h
    refine ⟨hp.store.of_new hev fun e he => ?_, fun k t ht => (hp.thread k t ht).mono hev⟩
    obtain hheld | ⟨n, hn⟩ := hnew e he
    · exact .inl hheld
    · exact .inr (fits_of_other hn)
  call p c t _ _ h := by
    cases h
    refine ⟨?_, fun _ _ => trivial⟩
    cases c <;> trivial
  step p k o t s' t' hp _ ht h := by
    have hok := hp.thread k t ht
    have hch := advance_changes h
    refine ⟨hch.sound hp.store hok, (advance_ok hok h).mono hch.evolves, fun j u _ hu => ?_⟩
    exact ⟨(hp.thread j u hu).mono hch.evolves, trivial⟩

end SyrocePms.OperationalGl
