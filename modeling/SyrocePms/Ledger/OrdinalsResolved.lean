import SyrocePms.Ledger.IntegrityAudit

/-! The ordinals of the posts that raise. A post makes its ordinal void where it fails between
the reservation and the insert, but the total is converted after the reservation and before
the first `try`, and a mark that fails is only logged. -/

namespace SyrocePms.Ledger.Seal

open Lib Collection

variable {H : Type} {hashes : Hashes H}
variable {s s' : Store H} {key : ℕ × ℕ} {drawn own : Option (ℕ × ℕ)} {k : ℕ} {t t' : Thread H}
  {pc : Pc H} {d : Draft} {job : Job} {m : Move}

def Voided (s : Store H) (key : ℕ × ℕ) : Prop :=
  ∃ r ∈ s.reservations, r.key = key ∧ r.status = .void

theorem Voided.settled (h : Voided s key) : Settled s key := by
  obtain ⟨r, hr, hk, hst⟩ := h
  exact ⟨r, hr, hk, by simp [Reservation.isFinal, hst]⟩

theorem Voided.evolves (h : Voided s key) (hev : Evolves own s s') : Voided s' key := by
  obtain ⟨r, hr, hk, hst⟩ := h
  exact ⟨r, hev.final r hr (by simp [Reservation.isFinal, hst]), hk, hst⟩

theorem Reserved.not_voided (h : Reserved s key) : ¬ Voided s key := by
  rintro ⟨r, hr, hk, hst⟩
  obtain ⟨r', hr', hk', hst'⟩ := h
  rw [eq_of_key hr hr' (hk.trans hk'.symm), hst'] at hst
  cases hst

theorem not_voided_of_free (h : ∀ r ∈ s.reservations, r.key ≠ key) : ¬ Voided s key := by
  rintro ⟨r, hr, hk, -⟩
  exact h r hr hk

/-- Every post that has raised left a void ordinal, if it had drawn one. -/
def Resolved (p : Pool (Store H) (Thread H)) : Prop :=
  ∀ t ∈ p.threads, t.pc = .raised → ∀ key, t.drawn = some key → Voided p.store key

/-- The audit that `close_period` asks for finds nothing at the ordinal. -/
def Passes [DecidableEq H] (hashes : Hashes H) (s : Store H) (key : ℕ × ℕ) : Prop :=
  ∀ acc, (scanOrdinal hashes (s.read (some key.1)) key.1 acc key.2).issues = acc.issues

theorem Voided.passes [DecidableEq H] (h : Voided s key) (hcap : s.inCaps) :
    Passes hashes s key := by
  obtain ⟨r, hr, hk, hst⟩ := h
  have hread : (s.read (some key.1)).reservationAt key.1 key.2 = some r :=
    read_reservationAt hcap (by simp) hr hk
  intro acc
  simp only [scanOrdinal, hread, hst]

/-! ### The steps that keep the ordinals -/

def Pc.resolves (m : Move) : Pc H → Prop
  | .draw _ => m ≠ .unanswered
  | .reserve d => m = .crash ∨ m = .advance ∧ totalDebit d.accepted.lines.lines ≤ totalLimit
  | .void _ _ => m ≠ .fail
  | _ => True

instance (m : Move) : (pc : Pc H) → Decidable (pc.resolves m)
  | .draw _ => inferInstanceAs (Decidable (m ≠ .unanswered))
  | .reserve d => inferInstanceAs
      (Decidable (m = .crash ∨ m = .advance ∧ totalDebit d.accepted.lines.lines ≤ totalLimit))
  | .void _ _ => inferInstanceAs (Decidable (m ≠ .fail))
  | .start | .period _ _ | .chart _ | .predecessor _ _ | .previous _ | .insert _ _ | .posted _ _
  | .existing _ | .answered _ | .raised | .stopped => .isTrue trivial

def Resolves (p : Pool (Store H) (Thread H)) : Act Setup Job Move → Prop
  | .step k m => ∀ t ∈ p.threads[k]?, t.pc.resolves m
  | _ => True

instance (p : Pool (Store H) (Thread H)) (a : Act Setup Job Move) : Decidable (Resolves p a) :=
  match a with
  | .step k m => inferInstanceAs (Decidable (∀ t ∈ p.threads[k]?, t.pc.resolves m))
  | .env _ | .call _ => .isTrue trivial

variable (hashes) in
/-- What a call knows of its ordinal. An entry is answered also when the mark of its ordinal
was lost. -/
def Keeps (s : Store H) (k : ℕ) (t : Thread H) : Prop :=
  match t.pc with
  | .answered _ => True
  | .existing _ | .raised => ∀ key, t.drawn = some key → Voided s key
  | _ => Holds hashes s k t

theorem Keeps.holds (h : Keeps hashes s k t) (hover : t.pc.over = false) : Holds hashes s k t := by
  unfold Keeps at h
  unfold Holds
  cases hpc : t.pc with
  | answered e =>
    rw [hpc] at hover
    cases hover
  | existing | raised =>
    simp only [hpc] at h
    exact fun key hk => (h key hk).settled
  | _ =>
    simp only [hpc, Holds] at h
    exact h

theorem Holds.keeps (h : Holds hashes s k t) (hvoid : (t.pc = .raised ∨ ∃ a, t.pc = .existing a) →
      ∀ key, t.drawn = some key → Voided s key) : Keeps hashes s k t := by
  unfold Keeps
  cases hpc : t.pc with
  | answered => trivial
  | raised => exact hvoid (.inl hpc)
  | existing a => exact hvoid (.inr ⟨a, hpc⟩)
  | _ => exact h

theorem Keeps.evolves (h : Keeps hashes s k t) (hev : Evolves own s s')
    (hne : ∀ key, own = some key → t.owns ≠ some key) : Keeps hashes s' k t := by
  unfold Keeps at h ⊢
  cases hpc : t.pc with
  | answered => trivial
  | existing | raised =>
    simp only [hpc] at h ⊢
    exact fun key hk => (h key hk).evolves hev
  | _ =>
    simp only [hpc] at h ⊢
    exact h.evolves hev hne

theorem Keeps.owns_le (hs : Chained hashes s) (h : Keeps hashes s k t) {year n : ℕ}
    (ho : t.owns = some (year, n)) : n ≤ s.counter year := by
  have hover : t.pc.over = false := by
    unfold Thread.owns at ho
    cases hpc : t.pc with
    | answered | raised | stopped =>
      rw [hpc] at ho
      cases ho
    | _ => rfl
  exact (h.holds hover).owns_le hs ho

/-- Between the reservation and the marks a post whose operations go through has its draft. -/
theorem advance_draft (s : Store H) (job : Job) (previous : H) (left : ℕ)
    (h : pc = .predecessor d left ∨ pc = .previous d ∨ pc = .insert d previous) :
    (advancePc hashes s job pc).2.draft = some d := by
  rcases h with rfl | rfl | rfl
  · simp only [advancePc]
    split
    · rfl
    · split
      · rfl
      · rfl
      · split <;> rfl
  · simp only [advancePc]
    split <;> rfl
  · simp only [advancePc]
    split
    · rfl
    · split <;> rfl

/-- A post whose operations go through raises with no ordinal, or after the mark of void. -/
theorem advance_voided (hs : Chained hashes s) (hh : Keeps hashes s 0 ⟨job, drawn, pc⟩)
    (hc : pc.resolves .advance)
    (hp : (advancePc hashes s job pc).2 = .raised ∨ ∃ a, (advancePc hashes s job pc).2 = .existing a)
    (key : ℕ × ℕ) (hk : (pc.draws s).or drawn = some key) :
    Voided (advancePc hashes s job pc).1 key := by
  have hundrawn (hd : drawn = none) (hn : pc.draws s = none) : False := by
    rw [hn, hd] at hk
    cases hk
  have hdraft {d : Draft} (hd : (advancePc hashes s job pc).2.draft = some d) : False := by
    obtain hp | ⟨b, hp⟩ := hp <;> rw [hp] at hd <;> cases hd
  cases pc with
  | start | period | chart => exact (hundrawn hh rfl).elim
  | draw a => obtain hp | ⟨b, hp⟩ := hp <;> cases hp
  | reserve d =>
    cases hins : s.reservations.insertOne ⟨d.year, d.sequence, d.id, .reserved, none⟩ with
    | none =>
      obtain ⟨r, hr, hkey⟩ := mem_of_insertOne_none hins
      exact absurd hkey (hh.2.2 r hr)
    | some reservations =>
      have hle : ¬ totalLimit < totalDebit d.accepted.lines.lines := by
        obtain hc | ⟨-, hc⟩ := hc
        · cases hc
        · omega
      simp only [advancePc, hins, if_neg hle] at hp
      obtain hp | ⟨b, hp⟩ := hp <;> cases hp
  | predecessor d left =>
    exact (hdraft (advance_draft s job hashes.genesis left (.inl rfl))).elim
  | previous d =>
    exact (hdraft (advance_draft s job hashes.genesis 0 (.inr (.inl rfl)))).elim
  | insert d previous =>
    exact (hdraft (advance_draft s job previous 0 (.inr (.inr rfl)))).elim
  | posted d e => obtain hp | ⟨b, hp⟩ := hp <;> cases hp
  | void d reason =>
    obtain ⟨hd, row, hrow, hkey, hreserved⟩ := hh
    have hk' : d.key = key := Option.some.inj (hd.symm.trans hk)
    rw [← hk']
    exact (hs.mark hrow hkey hreserved .void (some reason) fun h => by cases h).2.2
  | existing a => exact hh key hk
  | answered | stopped => obtain hp | ⟨b, hp⟩ := hp <;> cases hp
  | raised => exact hh key hk

theorem failed_voided (hh : Keeps hashes s 0 ⟨job, drawn, pc⟩) (hc : pc.resolves .fail)
    (hp : pc.failed = .raised ∨ ∃ a, pc.failed = .existing a) (key : ℕ × ℕ) (hk : drawn = some key) :
    Voided s key := by
  cases pc with
  | start | period | chart | draw =>
    have hd : drawn = none := hh
    rw [hd] at hk
    cases hk
  | reserve d => obtain h | ⟨h, -⟩ := hc <;> cases h
  | void d reason => exact absurd rfl hc
  | existing | raised => exact hh key hk
  | _ => obtain hp | ⟨b, hp⟩ := hp <;> cases hp

/-- The same when the operation went through and its answer is lost. -/
theorem unanswered_voided (hs : Chained hashes s) (hh : Keeps hashes s 0 ⟨job, drawn, pc⟩)
    (hc : pc.resolves .unanswered) (hp : pc.failed = .raised ∨ ∃ a, pc.failed = .existing a)
    (key : ℕ × ℕ) (hk : (pc.draws s).or drawn = some key) :
    Voided (advancePc hashes s job pc).1 key := by
  cases pc with
  | start | period | chart =>
    have hd : drawn = none := hh
    have hnone : drawn = some key := hk
    rw [hd] at hnone
    cases hnone
  | draw => exact absurd rfl hc
  | reserve d => obtain h | ⟨h, -⟩ := hc <;> cases h
  | void d reason => exact advance_voided hs hh (fun h => by cases h) hp key hk
  | existing | raised => exact hh key hk
  | _ => obtain hp | ⟨b, hp⟩ := hp <;> cases hp

theorem Pc.resolves.settles (h : pc.resolves m) (hm : m ≠ .crash)
    (hp : m = .fail → ∀ d e, pc ≠ .posted d e) : pc.settles m := by
  cases pc with
  | draw | void => exact h
  | reserve d =>
    obtain h | ⟨h, hle⟩ := h
    · exact absurd h hm
    · exact ⟨.inl h, hle⟩
  | posted d e => exact fun h => hp h d e rfl
  | _ => trivial

theorem step_keeps (hs : Chained hashes s) (hh : Keeps hashes s 0 t) (hc : t.pc.resolves m)
    (h : t.step hashes s m = some (s', t')) :
    Chained hashes s' ∧ Evolves t.owns s s' ∧ Keeps hashes s' 0 t' ∧
      (t'.owns = t.owns ∨ t'.owns = none ∨
        t.owns = none ∧ ∃ year, t'.owns = some (year, s.counter year + 1)) := by
  obtain ⟨job, drawn, pc⟩ := t
  have hstep := h
  unfold Thread.step at h
  split at h
  · cases h
  · rename_i hover
    have hholds := hh.holds (by simpa using hover)
    have hstepped (hm : m ≠ .crash) (hp : m = .fail → ∀ d e, pc ≠ .posted d e) :
        Stepped hashes s s' ⟨job, drawn, pc⟩ t' := step_stepped hs hholds (hc.settles hm hp) hstep
    cases m with
    | advance =>
      cases h
      have hst := hstepped (fun h => by cases h) fun h => by cases h
      exact ⟨hst.chained, hst.evolves, hst.holds.keeps (advance_voided hs hh hc), hst.owns⟩
    | fail =>
      cases h
      by_cases hp : ∃ d e, pc = .posted d e
      · -- the mark of a posted ordinal is lost
        obtain ⟨d, e, rfl⟩ := hp
        exact ⟨hs, .of_eq rfl rfl rfl, trivial, .inr (.inl rfl)⟩
      · have hst := hstepped (fun h => by cases h) fun _ d e he => hp ⟨d, e, he⟩
        exact ⟨hst.chained, hst.evolves, hst.holds.keeps (failed_voided hh hc), hst.owns⟩
    | unanswered =>
      cases h
      have hst := hstepped (fun h => by cases h) fun h => by cases h
      exact ⟨hst.chained, hst.evolves, hst.holds.keeps (unanswered_voided hs hh hc), hst.owns⟩
    | crash =>
      cases h
      exact ⟨hs, .of_eq rfl rfl rfl, trivial, .inr (.inl rfl)⟩

theorem posts_preserves_keeps :
    (posts hashes).Preserves Resolves (Chained hashes) (Keeps hashes) Apart where
  symm t u h key hu ht := h key ht hu
  init := posts_preserves.init
  env p x s' hi _ h := by
    cases h
    have hev : Evolves none p.store
        { p.store with periods := x.periods, accounts := x.accounts } := .of_eq rfl rfl rfl
    exact ⟨hi.store.of_eq rfl rfl rfl, fun k t ht =>
      (hi.thread k t ht).evolves hev fun _ h => by cases h⟩
  call p j t _ _ h := by
    cases h
    exact ⟨rfl, fun u _ key hk => by cases hk⟩
  step p k m t s' t' hi hc ht h := by
    obtain ⟨hch, hev, hkeeps, howns⟩ := step_keeps hi.store (hi.thread k t ht) (hc t ht) h
    refine ⟨hch, hkeeps, fun j u hjk hu => ?_⟩
    have hap := hi.apart k j t u hjk.symm ht hu
    refine ⟨(hi.thread j u hu).evolves hev hap, fun key hk hku => ?_⟩
    obtain ho | ho | ⟨-, year, ho⟩ := howns
    · exact hap key (ho ▸ hk) hku
    · rw [ho] at hk
      cases hk
    · -- the ordinal is a new one, and the other call has drawn its own before
      rw [ho] at hk
      cases hk
      have hle := (hi.thread j u hu).owns_le hi.store hku
      omega

/-! ### The steps that leave an ordinal behind -/

theorem reserve_not_voided (job : Job) (hfree : ∀ r ∈ s.reservations, r.key ≠ d.key) :
    ¬ Voided (advancePc hashes s job (.reserve d)).1 d.key := by
  cases hins : s.reservations.insertOne ⟨d.year, d.sequence, d.id, .reserved, none⟩ with
  | none =>
    simp only [advancePc, hins]
    exact not_voided_of_free hfree
  | some reservations =>
    simp only [advancePc, hins]
    exact Reserved.not_voided ⟨_, (mem_insertOne hins).mpr (.inr rfl), rfl, rfl⟩

theorem not_voided_of_step (hs : Chained hashes s) (hh : Keeps hashes s 0 t)
    (hc : ¬ t.pc.resolves m) (h : t.step hashes s m = some (s', t')) :
    (t'.pc = .raised ∨ ∃ a, t'.pc = .existing a) ∧
      ∃ key, t'.drawn = some key ∧ ¬ Voided s' key := by
  obtain ⟨job, drawn, pc⟩ := t
  unfold Thread.step at h
  split at h
  · cases h
  · cases pc with
    | draw a =>
      have hm : m = .unanswered := not_not.mp hc
      rw [hm] at h
      cases h
      refine ⟨.inl rfl, _, rfl, not_voided_of_free fun r hr hk => ?_⟩
      have hle := (hs.counted r hr).2
      have hyear : r.fiscalYear = a.period.fiscalYear := congrArg Prod.fst hk
      have hseq : r.sequence = s.counter a.period.fiscalYear + 1 := congrArg Prod.snd hk
      rw [hyear] at hle
      omega
    | reserve d =>
      obtain ⟨hd, -, hfree⟩ := hh
      have hnot : ¬ Voided (advancePc hashes s job (.reserve d)).1 d.key :=
        reserve_not_voided job hfree
      cases m with
      | advance =>
        have hlimit : totalLimit < totalDebit d.accepted.lines.lines := by
          by_contra hle
          exact hc (.inr ⟨rfl, by omega⟩)
        cases h
        refine ⟨.inl ?_, d.key, hd, hnot⟩
        simp only [advancePc, if_pos hlimit]
        split <;> rfl
      | fail =>
        cases h
        exact ⟨.inl rfl, d.key, hd, not_voided_of_free hfree⟩
      | unanswered =>
        cases h
        exact ⟨.inl rfl, d.key, hd, hnot⟩
      | crash => exact absurd (.inl rfl) hc
    | void d reason =>
      have hm : m = .fail := not_not.mp hc
      rw [hm] at h
      cases h
      obtain ⟨hd, hreserved⟩ := hh
      refine ⟨?_, d.key, hd, hreserved.not_voided⟩
      simp only [Pc.failed, afterVoid]
      split
      · exact .inr ⟨_, rfl⟩
      · exact .inl rfl
    | _ => exact absurd trivial hc

/-! ### Every ordinal of a post that raises -/

/-- In a run whose steps keep the ordinals, every post that has raised left its ordinal void,
where the audit of a close finds nothing; and any other step leaves an ordinal behind that is
not void. -/
theorem ordinals_resolved [DecidableEq H] {p : Pool (Store H) (Thread H)}
    (hp : (posts hashes).machine.Reach Resolves p) :
    Resolved p ∧
      (p.store.inCaps → ∀ t ∈ p.threads, t.pc = .raised → ∀ key, t.drawn = some key →
        Passes hashes p.store key) ∧
      ∀ (k : ℕ) (m : Move) (p' : Pool (Store H) (Thread H)), ¬ Resolves p (.step k m) →
        (posts hashes).machine.step p (.step k m) = some p' →
        ∃ t ∈ p'.threads, (t.pc = .raised ∨ ∃ a, t.pc = .existing a) ∧
          ∃ key, t.drawn = some key ∧ ¬ Voided p'.store key := by
  have hinv := posts_preserves_keeps.reach hp
  have hresolved : Resolved p := by
    intro t ht hpc key hk
    obtain ⟨k, hkt⟩ := List.mem_iff_getElem?.mp ht
    have hkeeps := hinv.thread k t hkt
    simp only [Keeps, hpc] at hkeeps
    exact hkeeps key hk
  refine ⟨hresolved, fun hcap t ht hpc key hk => (hresolved t ht hpc key hk).passes hcap, ?_⟩
  intro k m p' hc h
  obtain ⟨t, t', ht, hs, hset⟩ := Program.next_step h
  have hnot : ¬ t.pc.resolves m := by
    intro hr
    refine hc fun u hu => ?_
    rw [Option.mem_def, ht] at hu
    exact Option.some.inj hu ▸ hr
  obtain ⟨hpc, hvoid⟩ := not_voided_of_step hinv.store (hinv.thread k t ht) hnot hs
  exact ⟨t', hset ▸ Program.self_mem_set ht t', hpc, hvoid⟩

def largeSale : Job where
  date := 20260115
  source := .other 1
  lines := [⟨100, 60000000000000000, 0, .text 1⟩, ⟨100, 60000000000000000, 0, .text 1⟩,
    ⟨600, 0, 60000000000000000, .text 1⟩, ⟨600, 0, 60000000000000000, .text 1⟩]
  key := none

/-- Whether each post has raised and the ordinal that it has drawn, the reservations, and
whether the audit of the year is healthy. -/
def ordinals (p : Pool (Store ℕ) (Thread ℕ)) :
    List (Bool × Option (ℕ × ℕ)) × List Reservation × Bool :=
  (p.threads.map fun t => (t.pc == .raised, t.drawn), p.store.reservations.rows,
    (journalIntegrityAudit ordinalHashes p.store (some 2026) true).healthy)

/-- The total of a post is over the limit. No operation fails, the post raises with its
ordinal reserved, and the year cannot be closed. -/
theorem not_resolved_largeSale : ∃ p : Pool (Store ℕ) (Thread ℕ),
    (posts ordinalHashes).machine.Reachable p ∧ ¬ Resolved p ∧
      (journalIntegrityAudit ordinalHashes p.store (some 2026) true).healthy = false := by
  obtain ⟨p, hp, hobs⟩ : ∃ p, (posts ordinalHashes).machine.Reachable p ∧
      ordinals p = ([(true, some (2026, 1))], [⟨2026, 1, 1, .reserved, none⟩], false) := by
    refine Machine.exists_reachable_of_run (s := ⟨twoAccounts, []⟩)
      (.call largeSale :: List.replicate 5 (.step 0 .advance)) ⟨⟨rfl, rfl, ?_, ?_⟩, rfl⟩
      (by decide +kernel)
    · exact fun e he => absurd he not_mem_empty
    · exact fun e he => absurd he not_mem_empty
  have hthreads := congrArg Prod.fst hobs
  have hrows : p.store.reservations.rows = [⟨2026, 1, 1, .reserved, none⟩] :=
    congrArg (fun x => x.2.1) hobs
  refine ⟨p, hp, fun h => ?_, congrArg (fun x => x.2.2) hobs⟩
  have hmem : (true, some (2026, 1)) ∈ (ordinals p).1 := by
    rw [hthreads]
    decide
  obtain ⟨t, ht, hone⟩ := List.mem_map.mp hmem
  have hpc : t.pc = .raised := beq_iff_eq.mp (congrArg Prod.fst hone)
  obtain ⟨r, hr, -, hst⟩ := h t ht hpc (2026, 1) (congrArg Prod.snd hone)
  have hr' : r ∈ p.store.reservations.rows := hr
  rw [hrows, List.mem_singleton] at hr'
  rw [hr'] at hst
  cases hst

/-- The insert of a post fails, and its ordinal is void. -/
theorem ordinals_resolved_insertFails : ∃ p : Pool (Store ℕ) (Thread ℕ),
    (posts ordinalHashes).machine.Reach Resolves p ∧
      (∃ t ∈ p.threads, t.pc = .raised ∧ t.drawn = some (2026, 1)) ∧ Resolved p := by
  obtain ⟨p, hp, hobs⟩ : ∃ p, (posts ordinalHashes).machine.Reach Resolves p ∧
      ordinals p = ([(true, some (2026, 1))],
        [⟨2026, 1, 1, .void, some .insertFailed⟩], true) := by
    refine Machine.exists_reach_of_runUnder (s := ⟨twoAccounts, []⟩)
      (List.flatten [[.call (cashSale none)], List.replicate 6 (.step 0 .advance), [.step 0 .fail,
        .step 0 .advance]]) ⟨⟨rfl, rfl, ?_, ?_⟩, rfl⟩ (by decide +kernel)
    · exact fun e he => absurd he not_mem_empty
    · exact fun e he => absurd he not_mem_empty
  have hmem : (true, some (2026, 1)) ∈ (ordinals p).1 := by
    rw [hobs]
    decide
  obtain ⟨t, ht, hone⟩ := List.mem_map.mp hmem
  exact ⟨p, hp, ⟨t, ht, beq_iff_eq.mp (congrArg Prod.fst hone), congrArg Prod.snd hone⟩,
    (ordinals_resolved hp).1⟩

end SyrocePms.Ledger.Seal
