import SyrocePms.Ledger.IntegrityAudit

/-! Posts under one idempotency key. The key is looked up before the ordinal is drawn, and
the unique index decides between the posts that found none. -/

namespace SyrocePms.Ledger.Seal

open Lib List Collection

variable {H : Type} {hashes : Hashes H}
variable {s s' : Store H} {j job : Job} {e : SealedEntry H} {t t' : Thread H} {d : Draft}
  {previous : H} {drawn drawn' : Option (ℕ × ℕ)} {pc : Pc H}

def KeysUnique (s : Store H) : Prop :=
  ∀ e ∈ s.entries, ∀ e' ∈ s.entries, e.key.isSome = true → e.key = e'.key → e = e'

def Asked (j : Job) (a : Accepted) : Prop :=
  a.job = j ∧ normalizePostingDate j.date = some a.date ∧ a.lines.lines = j.lines

def Returns (s : Store H) (j : Job) (e : SealedEntry H) : Prop :=
  e ∈ s.entries ∧ e.key = j.key ∧ ∃ date, normalizePostingDate j.date = some date ∧
    e.payload.entry.repeats ⟨date, j.source, j.lines⟩ = true

/-- What a call carries from operation to operation. -/
def Carries (s : Store H) (_ : ℕ) (t : Thread H) : Prop :=
  match t.pc with
  | .period date lines => normalizePostingDate t.job.date = some date ∧ lines.lines = t.job.lines
  | .chart a | .draw a | .existing a => Asked t.job a
  | .reserve d | .predecessor d _ | .previous d | .insert d _ | .void d _ => Asked t.job d.accepted
  | .posted d e => Asked t.job d.accepted ∧ Returns s t.job e
  | .answered e => Returns s t.job e
  | .start | .raised | .stopped => True

theorem Returns.mono (h : Returns s j e) (he : ∀ x ∈ s.entries, x ∈ s'.entries) :
    Returns s' j e :=
  ⟨he e h.1, h.2⟩

theorem Carries.mono {k : ℕ} (h : Carries s k t) (he : ∀ x ∈ s.entries, x ∈ s'.entries) :
    Carries s' k t := by
  unfold Carries at h ⊢
  cases hpc : t.pc with
  | posted d e =>
    simp only [hpc] at h ⊢
    exact ⟨h.1, h.2.mono he⟩
  | answered e =>
    simp only [hpc] at h ⊢
    exact h.mono he
  | start | raised | stopped => trivial
  | _ =>
    simp only [hpc] at h ⊢
    exact h

theorem stored_some {key : Option Key} (h : s.stored key = some e) :
    e ∈ s.entries ∧ e.key = key := by
  cases key with
  | none => cases h
  | some k =>
    obtain ⟨he, hk⟩ := mem_of_findOne h
    exact ⟨he, by simpa using hk⟩

/-! ### One operation -/

/-- The store that an operation leaves, and where the call stands. -/
def Carried (s s' : Store H) (t' : Thread H) : Prop :=
  KeysUnique s' ∧ (∀ e ∈ s.entries, e ∈ s'.entries) ∧ Carries s' 0 t'

theorem Carried.same (hs : KeysUnique s) (he : s'.entries = s.entries) (h : Carries s' 0 t') :
    Carried s s' t' := by
  refine ⟨?_, fun e => he ▸ id, h⟩
  unfold KeysUnique
  rw [he]
  exact hs

theorem doc_returns (ha : Asked j d.accepted) (he : d.doc hashes previous ∈ s.entries) :
    Returns s j (d.doc hashes previous) := by
  obtain ⟨rfl, hdate, hlines⟩ := ha
  refine ⟨he, rfl, d.accepted.date, hdate, ?_⟩
  simp only [Draft.doc, Job.entry, Entry.repeats, hlines]
  cases d.accepted.job.key <;> simp

theorem KeysUnique.insert (hs : KeysUnique s) (hfree : s.taken e = false)
    (hins : s.entries.insertOne e = some s'.entries) : KeysUnique s' := by
  have hother (x : SealedEntry H) (hx : x ∈ s.entries) (hk : e.key.isSome = true) :
      x.key ≠ e.key := by
    have hnot := Collection.any_eq_false.mp hfree x hx
    simp only [hk, Bool.true_and, Bool.or_eq_true, beq_iff_eq, not_or] at hnot
    exact hnot.1.1
  intro x hx y hy hk heq
  obtain hx | rfl := (mem_insertOne hins).mp hx
  · obtain hy | rfl := (mem_insertOne hins).mp hy
    · exact hs x hx y hy hk heq
    · exact absurd heq (hother x hx (heq ▸ hk))
  · obtain hy | rfl := (mem_insertOne hins).mp hy
    · exact absurd heq.symm (hother y hy hk)
    · rfl

theorem insert_carried (hs : KeysUnique s) (ha : Asked job d.accepted) :
    Carried s (advancePc hashes s job (.insert d previous)).1
      ⟨job, drawn, (advancePc hashes s job (.insert d previous)).2⟩ := by
  simp only [advancePc]
  cases hfree : s.taken (d.doc hashes previous) with
  | true => exact .same hs rfl ha
  | false =>
    cases hins : s.entries.insertOne (d.doc hashes previous) with
    | none => exact .same hs rfl ha
    | some entries =>
      refine ⟨hs.insert hfree hins, fun e he => (mem_insertOne hins).mpr (.inl he), ha, ?_⟩
      exact doc_returns ha ((mem_insertOne hins).mpr (.inr rfl))

theorem found_carries {a : Accepted} (ha : Asked job a) (he : s.stored a.job.key = some e) :
    Carries s 0 ⟨job, drawn, found a e⟩ := by
  obtain ⟨rfl, hdate, hlines⟩ := ha
  unfold found
  split
  · rename_i hrep
    obtain ⟨hmem, hk⟩ := stored_some he
    exact ⟨hmem, hk, a.date, hdate, hlines ▸ hrep⟩
  · trivial

theorem start_carries : Carries s 0 ⟨job, drawn, (advancePc hashes s job .start).2⟩ := by
  simp only [advancePc]
  cases hdate : normalizePostingDate job.date with
  | none => trivial
  | some date =>
    cases hlines : normalizeJournalLines job.lines with
    | error => trivial
    | ok lines =>
      have heq := normalizeJournalLines_ok hlines
      cases hstored : s.stored job.key with
      | none => exact ⟨hdate, heq⟩
      | some e =>
        simp only
        split
        · rename_i hrep
          obtain ⟨hmem, hk⟩ := stored_some hstored
          exact ⟨hmem, hk, date, hdate, heq ▸ hrep⟩
        · trivial

theorem afterVoid_carries {reason : VoidReason} (ha : Asked job d.accepted) :
    Carries s 0 ⟨job, drawn, afterVoid d reason⟩ := by
  unfold afterVoid
  split
  · exact ha
  · trivial

theorem advance_carried (hs : KeysUnique s) (h : Carries s 0 ⟨job, drawn, pc⟩) :
    Carried s (advancePc hashes s job pc).1 ⟨job, drawn', (advancePc hashes s job pc).2⟩ := by
  cases pc with
  | start => exact .same hs rfl start_carries
  | period date lines =>
    simp only [advancePc]
    split
    · exact .same hs rfl trivial
    · exact .same hs rfl ⟨rfl, h⟩
  | chart a =>
    simp only [advancePc]
    split
    · exact .same hs rfl trivial
    · exact .same hs rfl h
  | draw a => exact .same hs rfl h
  | reserve d =>
    simp only [advancePc]
    split
    · exact .same hs rfl trivial
    · split
      · exact .same hs rfl trivial
      · exact .same hs rfl h
  | predecessor d left =>
    simp only [advancePc]
    split
    · exact .same hs rfl h
    · split
      · exact .same hs rfl h
      · exact .same hs rfl h
      · split <;> exact .same hs rfl h
  | previous d =>
    simp only [advancePc]
    split <;> exact .same hs rfl h
  | insert d previous => exact insert_carried hs h
  | posted d e => exact .same hs rfl h.2
  | void d reason => exact .same hs rfl (afterVoid_carries h)
  | existing a =>
    simp only [advancePc]
    split
    · rename_i e he
      exact .same hs rfl (found_carries h he)
    · exact .same hs rfl trivial
  | answered e => exact .same hs rfl h
  | raised | stopped => exact .same hs rfl trivial

theorem failed_carries (h : Carries s 0 ⟨job, drawn, pc⟩) :
    Carries s 0 ⟨job, drawn', pc.failed⟩ := by
  cases pc with
  | predecessor | previous | insert | answered => exact h
  | posted d e => exact h.2
  | void d reason => exact afterVoid_carries h
  | _ => trivial

theorem step_carried {m : Move} (hs : KeysUnique s) (hok : Carries s 0 t)
    (h : t.step hashes s m = some (s', t')) : Carried s s' t' := by
  obtain ⟨job, drawn, pc⟩ := t
  unfold Thread.step at h
  split at h
  · cases h
  · cases m with
    | advance =>
      cases h
      exact advance_carried hs hok
    | fail =>
      cases h
      exact .same hs rfl (failed_carries hok)
    | unanswered =>
      cases h
      obtain ⟨hs', hmem, -⟩ : Carried s (advancePc hashes s job pc).1
        ⟨job, drawn, (advancePc hashes s job pc).2⟩ := advance_carried hs hok
      exact ⟨hs', hmem, failed_carries (hok.mono hmem)⟩
    | crash =>
      cases h
      exact .same hs rfl trivial

theorem posts_carry : (posts hashes).Preserves (fun _ _ => True) KeysUnique Carries
    (fun _ _ => True) where
  symm _ _ _ := trivial
  init s h := h.2.2.2
  env p x s' hi _ h := by
    cases h
    exact ⟨hi.store, fun k t ht => (hi.thread k t ht).mono fun _ he => he⟩
  call p j t _ _ h := by
    cases h
    exact ⟨trivial, fun _ _ => trivial⟩
  step p k m t s' t' hi _ ht h := by
    obtain ⟨hs', hmem, hok⟩ := step_carried hi.store (hi.thread k t ht) h
    exact ⟨hs', hok, fun j u _ hu => ⟨(hi.thread j u hu).mono hmem, trivial⟩⟩

/-! ### All posts under one key -/

def Thread.content (t : Thread H) : Option Content :=
  (normalizePostingDate t.job.date).map fun date => ⟨date, t.job.source, t.job.lines⟩

/-- The entries under a key are one entry, which every call under the key that succeeds
returns. A call whose content is not that of the entry does not succeed, and a call that is
over and has not stored an entry under its ordinal has left the ordinal void. -/
theorem idempotent_posts {p : Pool (Store H) (Thread H)}
    (hp : (posts hashes).machine.Reachable p) (key : Key) :
    (∀ e ∈ p.store.entries, ∀ e' ∈ p.store.entries, e.key = some key → e'.key = some key → e = e') ∧
      ∀ t ∈ p.threads, t.job.key = some key →
        (∀ e, t.pc = .answered e → e ∈ p.store.entries ∧ e.key = some key) ∧
        (∀ e ∈ p.store.entries, e.key = some key → ∀ c, e.payload.entry.fingerprint = some c →
          t.content ≠ some c → ∀ x, t.pc ≠ .answered x) ∧
        ((posts hashes).machine.Reach Settles p → t.pc.over = true → t.pc ≠ .stopped →
          ∀ year n, t.drawn = some (year, n) →
            (∀ e ∈ p.store.entries, e.isAt year n = false) →
            ∃ r ∈ p.store.reservations, r.key = (year, n) ∧ r.status = .void) := by
  have hi := posts_carry.reach hp
  have hunique : ∀ e ∈ p.store.entries, ∀ e' ∈ p.store.entries, e.key = some key →
      e'.key = some key → e = e' := by
    intro e he e' he' hk hk'
    exact hi.store e he e' he' (by rw [hk]; rfl) (hk.trans hk'.symm)
  refine ⟨hunique, fun t ht hkey => ?_⟩
  obtain ⟨k, hk⟩ := mem_iff_getElem?.mp ht
  have hreturns {e : SealedEntry H} (hpc : t.pc = .answered e) : Returns p.store t.job e := by
    have hok := hi.thread k t hk
    simpa only [Carries, hpc] using hok
  refine ⟨fun e hpc => ?_, fun e he hek c hc hne x hpc => ?_, fun hsettles hover hstop year n hd
    hfree => ?_⟩
  · obtain ⟨he, hek, -⟩ := hreturns hpc
    exact ⟨he, hek.trans hkey⟩
  · obtain ⟨hx, hxk, date, hdate, hrep⟩ := hreturns hpc
    rw [hunique x hx e he (hxk.trans hkey) hek, Entry.repeats, hc] at hrep
    refine hne ?_
    rw [Thread.content, hdate, Option.map_some]
    simpa using (beq_iff_eq.mp hrep).symm
  · have hinv := posts_preserves.reach hsettles
    obtain ⟨r, hr, hrk, hfinal⟩ : Settled p.store (year, n) := by
      have hholds := hinv.thread k t hk
      unfold Holds at hholds
      cases hpc : t.pc <;> simp_all [Pc.over]
    refine ⟨r, hr, hrk, ?_⟩
    have hyear : r.fiscalYear = year := congrArg Prod.fst hrk
    have hseq : r.sequence = n := congrArg Prod.snd hrk
    cases hst : r.status with
    | void => rfl
    | reserved => simp [Reservation.isFinal, hst] at hfinal
    | posted =>
      obtain ⟨e, he, hat⟩ := hinv.store.posted r hr hst
      rw [hyear, hseq, hfree e he] at hat
      cases hat

/-- How a call stands: its key, its ordinal, and the ordinal of the entry that it returned. -/
structure Standing where
  key : Option Key
  drawn : Option (ℕ × ℕ)
  answer : Option (Option ℕ)
  ended : Bool
  deriving DecidableEq

def Thread.standing (t : Thread ℕ) : Standing where
  key := t.job.key
  drawn := t.drawn
  answer :=
    match t.pc with
    | .answered e => some e.sequence
    | _ => none
  ended := t.pc.over

def standings (p : Pool (Store ℕ) (Thread ℕ)) : List Link × List Standing :=
  (p.store.entries.rows.map (·.link), p.threads.map Thread.standing)

theorem keyRace_standings : ∃ p, (posts ordinalHashes).machine.Reach Faultless p ∧
    standings p = ([⟨2026, some 1, some 0, some 3⟩, ⟨2026, some 3, some 4, some 7⟩],
      [⟨some (.other 1), some (2026, 1), some (some 1), true⟩,
        ⟨some (.other 1), some (2026, 2), some (some 1), true⟩,
        ⟨none, some (2026, 3), some (some 3), true⟩]) := by
  refine Machine.exists_reach_of_runUnder (s := ⟨twoAccounts, []⟩) keyRace
    ⟨⟨rfl, rfl, ?_, ?_⟩, rfl⟩ (by decide +kernel)
  · exact fun e he => absurd he not_mem_empty
  · exact fun e he => absurd he not_mem_empty

/-- The second post of the race has the entry of the first, and its ordinal is void. -/
theorem idempotent_posts_keyRace : ∃ p : Pool (Store ℕ) (Thread ℕ),
    (posts ordinalHashes).machine.Reach Settles p ∧
      (∀ e ∈ p.store.entries, ∀ e' ∈ p.store.entries, e.key = some (.other 1) →
        e'.key = some (.other 1) → e = e') ∧
      (∃ t ∈ p.threads, ∃ e ∈ p.store.entries, t.pc = .answered e ∧ e.key = some (.other 1)) ∧
      ∃ r ∈ p.store.reservations, r.key = (2026, 2) ∧ r.status = .void := by
  obtain ⟨p, hp, hobs⟩ := keyRace_standings
  have hsettles := hp.mono fun _ _ h => h.settles
  have hall := idempotent_posts (hp.mono fun _ _ _ => trivial) (.other 1)
  have hmem : (⟨some (.other 1), some (2026, 2), some (some 1), true⟩ : Standing) ∈
      (standings p).2 := by
    rw [hobs]
    decide
  obtain ⟨t, ht, hstanding⟩ := mem_map.mp hmem
  have hover : t.pc.over = true := congrArg Standing.ended hstanding
  have hanswer : t.standing.answer = some (some 1) := congrArg Standing.answer hstanding
  obtain ⟨e, hpc⟩ : ∃ e, t.pc = .answered e := by
    unfold Thread.standing at hanswer
    cases hpc : t.pc with
    | answered e => exact ⟨e, rfl⟩
    | _ =>
      rw [hpc] at hanswer
      cases hanswer
  obtain ⟨hreturned, -, hvoid⟩ := hall.2 t ht (congrArg Standing.key hstanding)
  obtain ⟨he, hek⟩ := hreturned e hpc
  refine ⟨p, hsettles, hall.1, ⟨t, ht, e, he, hpc, hek⟩, ?_⟩
  refine hvoid hsettles hover (by rw [hpc]; exact fun h => nomatch h) 2026 2
    (congrArg Standing.drawn hstanding) fun x hx => ?_
  have hlink : x.link ∈ (standings p).1 := mem_map.mpr ⟨x, hx, rfl⟩
  rw [hobs, mem_cons, mem_singleton] at hlink
  refine Bool.eq_false_iff.mpr fun hat => ?_
  have hseq : x.link.sequence = some 2 := (isAt_iff.mp hat).2
  obtain hlink | hlink := hlink <;> rw [hlink] at hseq <;> cases hseq

def noAccounts : Store ℕ := { twoAccounts with accounts := .empty }

/-- The account of the only post is not in the chart, and no entry is stored. -/
theorem no_entry_under_key : ∃ p : Pool (Store ℕ) (Thread ℕ),
    (posts ordinalHashes).machine.Reach Faultless p ∧
      (∃ t ∈ p.threads, t.job.key = some (.other 1)) ∧ (∀ t ∈ p.threads, t.pc.over = true) ∧
      ¬ ∃ e ∈ p.store.entries, e.key = some (.other 1) := by
  obtain ⟨p, hp, hobs⟩ : ∃ p, (posts ordinalHashes).machine.Reach Faultless p ∧
      standings p = ([], [⟨some (.other 1), none, none, true⟩]) := by
    refine Machine.exists_reach_of_runUnder (s := ⟨noAccounts, []⟩)
      (.call (cashSale (some (.other 1))) :: List.replicate 3 (.step 0 .advance))
      ⟨⟨rfl, rfl, ?_, ?_⟩, rfl⟩ (by decide +kernel)
    · exact fun e he => absurd he not_mem_empty
    · exact fun e he => absurd he not_mem_empty
  have hstanding (t : Thread ℕ) (ht : t ∈ p.threads) :
      t.standing = ⟨some (.other 1), none, none, true⟩ := by
    have hmem : t.standing ∈ (standings p).2 := mem_map.mpr ⟨t, ht, rfl⟩
    rw [hobs] at hmem
    exact mem_singleton.mp hmem
  refine ⟨p, hp, ?_, fun t ht => congrArg Standing.ended (hstanding t ht), ?_⟩
  · have hmem : (⟨some (.other 1), none, none, true⟩ : Standing) ∈ (standings p).2 := by
      rw [hobs]
      decide
    obtain ⟨t, ht, hone⟩ := mem_map.mp hmem
    exact ⟨t, ht, congrArg Standing.key hone⟩
  · rintro ⟨e, he, -⟩
    have hmem : e.link ∈ (standings p).1 := mem_map.mpr ⟨e, he, rfl⟩
    rw [hobs] at hmem
    cases hmem

end SyrocePms.Ledger.Seal
