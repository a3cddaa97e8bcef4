import SyrocePms.Ledger.Seal

/-! The chain of the journal. Each call owns the ordinal that it has drawn until the ordinal
is posted or void; a settled ordinal never changes, so the hash that an entry was sealed
after is the hash that the audit computes again. -/

namespace SyrocePms.Ledger.Seal

open Lib List Collection

variable {H : Type} (hashes : Hashes H)
variable {drawn own : Option (ℕ × ℕ)} {s s' : Store H} {k n year : ℕ} {h previous : H}
  {e : SealedEntry H} {row : Reservation} {d : Draft} {key : ℕ × ℕ} {t t' : Thread H} {job : Job}
  {pc : Pc H} {p : Pool (Store H) (Thread H)} {a : Act Setup Job Move}

/-- `h` is the hash of the ordinal, when it is settled: of its entry, or of its void
reservation. The ordinal before the first has the hash of the genesis. -/
inductive HashAt (s : Store H) (year : ℕ) : ℕ → H → Prop
  | genesis : HashAt s year 0 hashes.genesis
  | void {n : ℕ} {r : Reservation} (hr : r ∈ s.reservations) (hk : r.key = (year, n))
      (hst : r.status = .void) : HashAt s year n (hashes.sequenceVoid year n r.voidReason)
  | posted {n : ℕ} {r : Reservation} {e : SealedEntry H} (hr : r ∈ s.reservations)
      (hk : r.key = (year, n)) (hst : r.status = .posted) (he : e ∈ s.entries)
      (hat : e.isAt year n = true) : HashAt s year n (e.sealOf hashes)

/-- The journal and its ordinals: reservations are for ordinals that were drawn, an entry is
numbered after its ordinal and sealed after the hash of the ordinal before it. -/
structure Chained (s : Store H) : Prop where
  counted : ∀ r ∈ s.reservations, 1 ≤ r.sequence ∧ r.sequence ≤ s.counter r.fiscalYear
  numbered : ∀ e ∈ s.entries, ∀ n, e.sequence = some n → e.no = .numbered e.fiscalYear n ∧
    ∃ r ∈ s.reservations, r.key = (e.fiscalYear, n)
  sealed : ∀ e ∈ s.entries, ∀ n, e.sequence = some n →
    e.hash = some (hashes.journalEntry e.payload) ∧
      ∃ h, e.payload.previousHash = some h ∧ HashAt hashes s e.fiscalYear (n - 1) h
  legacy : ∀ e ∈ s.entries, e.sequence = none → e.hash = none
  posted : ∀ r ∈ s.reservations, r.status = .posted →
    ∃ e ∈ s.entries, e.isAt r.fiscalYear r.sequence = true

/-- What an operation of a call that owns the ordinal `own` keeps. -/
structure Evolves (own : Option (ℕ × ℕ)) (s s' : Store H) : Prop where
  counter : ∀ year, s.counter year ≤ s'.counter year
  entries : ∀ e ∈ s.entries, e ∈ s'.entries
  keys : ∀ r ∈ s.reservations, ∃ r' ∈ s'.reservations, r'.key = r.key
  rows : ∀ r ∈ s.reservations, own ≠ some r.key → r ∈ s'.reservations
  final : ∀ r ∈ s.reservations, r.isFinal = true → r ∈ s'.reservations
  added : ∀ r ∈ s'.reservations, own ≠ some r.key → r ∈ s.reservations

theorem Evolves.of_eq (hc : s'.counters = s.counters) (he : s'.entries = s.entries)
    (hr : s'.reservations = s.reservations) : Evolves own s s' where
  counter year := by simp only [Store.counter, hc]; exact Nat.le_refl _
  entries _ := he ▸ id
  keys r h := ⟨r, hr ▸ h, rfl⟩
  rows _ h _ := hr ▸ h
  final _ h _ := hr ▸ h
  added _ h _ := hr ▸ h

variable {hashes}

theorem HashAt.evolves (hh : HashAt hashes s year n h) (hev : Evolves own s s') :
    HashAt hashes s' year n h := by
  cases hh with
  | genesis => exact .genesis
  | void hr hk hst => exact .void (hev.final _ hr (by simp [Reservation.isFinal, hst])) hk hst
  | posted hr hk hst he hat =>
    exact .posted (hev.final _ hr (by simp [Reservation.isFinal, hst])) hk hst
      (hev.entries _ he) hat

theorem isAt_iff : e.isAt year n = true ↔ e.fiscalYear = year ∧ e.sequence = some n := by
  simp [SealedEntry.isAt]

theorem Chained.eq_of_isAt (hs : Chained hashes s) {e' : SealedEntry H} (he : e ∈ s.entries)
    (he' : e' ∈ s.entries) (hat : e.isAt year n = true) (hat' : e'.isAt year n = true) : e = e' := by
  obtain ⟨rfl, hseq⟩ := isAt_iff.mp hat
  obtain ⟨hy, hseq'⟩ := isAt_iff.mp hat'
  have hno := (hs.numbered e he n hseq).1
  have hno' := (hs.numbered e' he' n hseq').1
  exact eq_of_key he he' (by rw [hno, hno', hy])

theorem HashAt.unique (hs : Chained hashes s) {h' : H} (hh : HashAt hashes s year n h)
    (hh' : HashAt hashes s year n h') : h = h' := by
  have hpos {r : Reservation} (hr : r ∈ s.reservations) (hk : r.key = (year, n)) : 1 ≤ n := by
    have hle := (hs.counted r hr).1
    have hseq : r.sequence = n := congrArg Prod.snd hk
    omega
  cases hh with
  | genesis =>
    cases hh' with
    | genesis => rfl
    | void hr hk => exact absurd (hpos hr hk) (by omega)
    | posted hr hk => exact absurd (hpos hr hk) (by omega)
  | void hr hk hst =>
    cases hh' with
    | genesis => exact absurd (hpos hr hk) (by omega)
    | void hr' hk' => rw [eq_of_key hr hr' (hk.trans hk'.symm)]
    | posted hr' hk' hst' =>
      rw [eq_of_key hr hr' (hk.trans hk'.symm), hst'] at hst
      cases hst
  | posted hr hk hst he hat =>
    cases hh' with
    | genesis => exact absurd (hpos hr hk) (by omega)
    | void hr' hk' hst' =>
      rw [eq_of_key hr hr' (hk.trans hk'.symm), hst'] at hst
      cases hst
    | posted hr' hk' hst' he' hat' => rw [hs.eq_of_isAt he he' hat hat']

/-! ### What each operation does to the chain -/

theorem Chained.of_eq (hs : Chained hashes s) (hc : s'.counters = s.counters)
    (he : s'.entries = s.entries) (hr : s'.reservations = s.reservations) : Chained hashes s' := by
  have hev : Evolves none s s' := .of_eq hc he hr
  refine ⟨fun r h => ?_, fun e h => ?_, fun e h n hn => ?_, fun e h => ?_, fun r h => ?_⟩
  · rw [hr] at h
    have hcount := hs.counted r h
    have hle := hev.counter r.fiscalYear
    omega
  · rw [he] at h
    rw [hr]
    exact hs.numbered e h
  · rw [he] at h
    obtain ⟨hhash, p, hp, hat⟩ := hs.sealed e h n hn
    exact ⟨hhash, p, hp, hat.evolves hev⟩
  · rw [he] at h
    exact hs.legacy e h
  · rw [hr] at h
    rw [he]
    exact hs.posted r h

theorem counter_draw (s : Store H) (year y : ℕ) :
    (s.draw year).counter y = if y = year then s.counter year + 1 else s.counter y := by
  simp only [Store.counter, Store.draw, get?_upsert]
  split <;> rfl

theorem draw_evolves (s : Store H) (year : ℕ) : Evolves none s (s.draw year) where
  counter y := by
    rw [counter_draw]
    split
    · rename_i h
      rw [h]
      exact Nat.le_succ _
    · exact Nat.le_refl _
  entries _ h := h
  keys r h := ⟨r, h, rfl⟩
  rows _ h _ := h
  final _ h _ := h
  added _ h _ := h

theorem Chained.draw (hs : Chained hashes s) (year : ℕ) : Chained hashes (s.draw year) where
  counted r h := by
    have hcount := hs.counted r h
    have hle := (draw_evolves s year).counter r.fiscalYear
    omega
  numbered := hs.numbered
  sealed e h n hn := by
    obtain ⟨hhash, p, hp, hat⟩ := hs.sealed e h n hn
    exact ⟨hhash, p, hp, hat.evolves (draw_evolves s year)⟩
  legacy := hs.legacy
  posted := hs.posted

theorem Chained.reserve (hs : Chained hashes s) (hst : row.status = .reserved)
    (hcount : 1 ≤ row.sequence ∧ row.sequence ≤ s.counter row.fiscalYear)
    (hc : s'.counters = s.counters) (he : s'.entries = s.entries)
    (hins : s.reservations.insertOne row = some s'.reservations) :
    Chained hashes s' ∧ Evolves (some row.key) s s' := by
  have hmem (x : Reservation) : x ∈ s'.reservations ↔ x ∈ s.reservations ∨ x = row :=
    mem_insertOne hins
  have hcounter (year : ℕ) : s'.counter year = s.counter year := by simp only [Store.counter, hc]
  have hev : Evolves (some row.key) s s' := by
    refine ⟨fun year => (hcounter year).ge, fun e => he ▸ id,
      fun r h => ⟨r, (hmem r).mpr (.inl h), rfl⟩, fun r h _ => (hmem r).mpr (.inl h),
      fun r h _ => (hmem r).mpr (.inl h), fun r h hne => ?_⟩
    obtain h | rfl := (hmem r).mp h
    · exact h
    · exact absurd rfl hne
  refine ⟨⟨fun r h => ?_, fun e h n hn => ?_, fun e h n hn => ?_, fun e h => ?_,
    fun r h hp => ?_⟩, hev⟩
  · rw [hcounter]
    obtain h | rfl := (hmem r).mp h
    · exact hs.counted r h
    · exact hcount
  · rw [he] at h
    obtain ⟨hno, r, hr, hk⟩ := hs.numbered e h n hn
    exact ⟨hno, r, (hmem r).mpr (.inl hr), hk⟩
  · rw [he] at h
    obtain ⟨hhash, p, hp, hat⟩ := hs.sealed e h n hn
    exact ⟨hhash, p, hp, hat.evolves hev⟩
  · rw [he] at h
    exact hs.legacy e h
  · rw [he]
    obtain h | rfl := (hmem r).mp h
    · exact hs.posted r h hp
    · rw [hst] at hp
      cases hp

theorem Chained.insert (hs : Chained hashes s) (hres : ∃ r ∈ s.reservations, r.key = d.key)
    (hprev : HashAt hashes s d.year (d.sequence - 1) previous) (hc : s'.counters = s.counters)
    (hr : s'.reservations = s.reservations)
    (hins : s.entries.insertOne (d.doc hashes previous) = some s'.entries) :
    Chained hashes s' ∧ Evolves (some d.key) s s' := by
  have hmem (x : SealedEntry H) : x ∈ s'.entries ↔ x ∈ s.entries ∨ x = d.doc hashes previous :=
    mem_insertOne hins
  have hcounter (year : ℕ) : s'.counter year = s.counter year := by simp only [Store.counter, hc]
  have hev : Evolves (some d.key) s s' :=
    ⟨fun year => (hcounter year).ge, fun e h => (hmem e).mpr (.inl h), fun r h => ⟨r, hr ▸ h, rfl⟩,
      fun _ h _ => hr ▸ h, fun _ h _ => hr ▸ h, fun _ h _ => hr ▸ h⟩
  refine ⟨⟨fun r h => ?_, fun e h n hn => ?_, fun e h n hn => ?_, fun e h hn => ?_,
    fun r h hp => ?_⟩, hev⟩
  · rw [hr] at h
    rw [hcounter]
    exact hs.counted r h
  · rw [hr]
    obtain h | rfl := (hmem e).mp h
    · exact hs.numbered e h n hn
    · cases hn
      exact ⟨rfl, hres⟩
  · obtain h | rfl := (hmem e).mp h
    · obtain ⟨hhash, p, hp, hat⟩ := hs.sealed e h n hn
      exact ⟨hhash, p, hp, hat.evolves hev⟩
    · cases hn
      exact ⟨rfl, previous, rfl, hprev.evolves hev⟩
  · obtain h | rfl := (hmem e).mp h
    · exact hs.legacy e h hn
    · cases hn
  · rw [hr] at h
    obtain ⟨e, he, hat⟩ := hs.posted r h hp
    exact ⟨e, (hmem e).mpr (.inl he), hat⟩

theorem Chained.mark (hs : Chained hashes s) (hrow : row ∈ s.reservations) (hkey : row.key = key)
    (hst : row.status = .reserved) (status : ReservationStatus) (reason : Option VoidReason)
    (hentry : status = .posted → ∃ e ∈ s.entries, e.isAt key.1 key.2 = true) :
    Chained hashes (s.mark key status reason) ∧ Evolves (some key) s (s.mark key status reason) ∧
      ∃ r ∈ (s.mark key status reason).reservations, r.key = key ∧ r.status = status := by
  have hmem (x : Reservation) : x ∈ (s.mark key status reason).reservations ↔
      (x ∈ s.reservations ∧ x.key ≠ key) ∨ ∃ r ∈ s.reservations, r.key = key ∧
        x = r.setStatus status reason :=
    @mem_update _ _ _ _ s.reservations key _
      (fun r => r.key_setStatus status reason) x
  have hreserved {r : Reservation} (h : r ∈ s.reservations) (hk : r.key = key) :
      r.status = .reserved := by
    rw [eq_of_key h hrow (hk.trans hkey.symm)]
    exact hst
  have hev : Evolves (some key) s (s.mark key status reason) := by
    refine ⟨fun _ => Nat.le_refl _, fun _ h => h, fun r h => ?_, fun r h hne => ?_, fun r h hf => ?_,
      fun r h hne => ?_⟩
    · by_cases hk : r.key = key
      · exact ⟨_, (hmem _).mpr (.inr ⟨r, h, hk, rfl⟩), rfl⟩
      · exact ⟨r, (hmem r).mpr (.inl ⟨h, hk⟩), rfl⟩
    · exact (hmem r).mpr (.inl ⟨h, fun hk => hne (congrArg some hk.symm)⟩)
    · refine (hmem r).mpr (.inl ⟨h, fun hk => ?_⟩)
      simp [Reservation.isFinal, hreserved h hk] at hf
    · obtain ⟨h, -⟩ | ⟨x, -, hk, rfl⟩ := (hmem r).mp h
      · exact h
      · exact absurd (congrArg some hk.symm) hne
  refine ⟨⟨fun r h => ?_, fun e h n hn => ?_, fun e h n hn => ?_, hs.legacy, fun r h hp => ?_⟩, hev,
    _, (hmem _).mpr (.inr ⟨row, hrow, hkey, rfl⟩), hkey, rfl⟩
  · obtain ⟨h, -⟩ | ⟨x, hx, -, rfl⟩ := (hmem r).mp h
    · exact hs.counted r h
    · exact hs.counted x hx
  · obtain ⟨hno, r, hr, hk⟩ := hs.numbered e h n hn
    obtain ⟨r', hr', hk'⟩ := hev.keys r hr
    exact ⟨hno, r', hr', hk'.trans hk⟩
  · obtain ⟨hhash, p, hp, hat⟩ := hs.sealed e h n hn
    exact ⟨hhash, p, hp, hat.evolves hev⟩
  · obtain ⟨h, -⟩ | ⟨x, hx, hk, rfl⟩ := (hmem r).mp h
    · exact hs.posted r h hp
    · rw [← hk] at hentry
      exact hentry hp

/-! ### What each call holds -/

/-- The draft of a call that has drawn its ordinal and not settled it. -/
def Pc.draft : Pc H → Option Draft
  | .reserve d | .predecessor d _ | .previous d | .insert d _ | .posted d _ | .void d _ => some d
  | _ => none

def Thread.owns (t : Thread H) : Option (ℕ × ℕ) := t.pc.draft.map Draft.key

def Reserved (s : Store H) (key : ℕ × ℕ) : Prop :=
  ∃ r ∈ s.reservations, r.key = key ∧ r.status = .reserved

def Settled (s : Store H) (key : ℕ × ℕ) : Prop :=
  ∃ r ∈ s.reservations, r.key = key ∧ r.isFinal = true

variable (hashes) in
/-- What a call knows of its ordinal. -/
def Holds (s : Store H) (_ : ℕ) (t : Thread H) : Prop :=
  match t.pc with
  | .reserve d => t.drawn = some d.key ∧ (1 ≤ d.sequence ∧ d.sequence ≤ s.counter d.year) ∧
      ∀ r ∈ s.reservations, r.key ≠ d.key
  | .predecessor d _ | .void d _ => t.drawn = some d.key ∧ Reserved s d.key
  | .previous d => t.drawn = some d.key ∧ Reserved s d.key ∧
      ∃ r ∈ s.reservations, r.key = (d.year, d.sequence - 1) ∧ r.status = .posted
  | .insert d previous => t.drawn = some d.key ∧ Reserved s d.key ∧
      HashAt hashes s d.year (d.sequence - 1) previous
  | .posted d e => t.drawn = some d.key ∧ Reserved s d.key ∧ e ∈ s.entries ∧
      e.isAt d.year d.sequence = true
  | .existing _ | .answered _ | .raised => ∀ key, t.drawn = some key → Settled s key
  | .stopped => True
  | _ => t.drawn = none

/-- Two calls own different ordinals. -/
def Apart (t u : Thread H) : Prop := ∀ key, t.owns = some key → u.owns ≠ some key

/-- The answer of the counter, the reservation and the marks go through, and the total of a
post that reserves its ordinal is in bounds. -/
def Pc.settles (m : Move) : Pc H → Prop
  | .draw _ => m ≠ .unanswered
  | .reserve d => (m = .advance ∨ m = .crash) ∧ totalDebit d.accepted.lines.lines ≤ totalLimit
  | .posted _ _ | .void _ _ => m ≠ .fail
  | _ => True

def Settles (p : Pool (Store H) (Thread H)) : Act Setup Job Move → Prop
  | .step k m => ∀ t ∈ p.threads[k]?, t.pc.settles m
  | _ => True

theorem Settled.evolves (h : Settled s key) (hev : Evolves own s s') : Settled s' key :=
  let ⟨r, hr, hk, hf⟩ := h
  ⟨r, hev.final r hr hf, hk, hf⟩

theorem Reserved.evolves (h : Reserved s key) (hev : Evolves own s s') (hne : own ≠ some key) :
    Reserved s' key := by
  obtain ⟨r, hr, rfl, hst⟩ := h
  exact ⟨r, hev.rows r hr hne, rfl, hst⟩

/-- A call keeps its ordinal through the operations of the others. -/
theorem Holds.evolves (h : Holds hashes s k t) (hev : Evolves own s s')
    (hne : ∀ key, own = some key → t.owns ≠ some key) : Holds hashes s' k t := by
  have hown {d : Draft} (hd : t.pc.draft = some d) : own ≠ some d.key := fun ho =>
    hne d.key ho (by rw [Thread.owns, hd, Option.map_some])
  unfold Holds at h ⊢
  cases hpc : t.pc with
  | reserve d =>
    simp only [hpc] at h ⊢
    obtain ⟨hd, hle, hfree⟩ := h
    have hcount := hev.counter d.year
    exact ⟨hd, ⟨hle.1, by omega⟩, fun r hr hk =>
      hfree r (hev.added r hr (hk ▸ hown (by simp [hpc, Pc.draft]))) hk⟩
  | predecessor d left | void d reason =>
    simp only [hpc] at h ⊢
    exact ⟨h.1, h.2.evolves hev (hown (by simp [hpc, Pc.draft]))⟩
  | previous d =>
    simp only [hpc] at h ⊢
    obtain ⟨hd, hres, r, hr, hk, hst⟩ := h
    exact ⟨hd, hres.evolves hev (hown (by simp [hpc, Pc.draft])), r,
      hev.final r hr (by simp [Reservation.isFinal, hst]), hk, hst⟩
  | insert d previous =>
    simp only [hpc] at h ⊢
    exact ⟨h.1, h.2.1.evolves hev (hown (by simp [hpc, Pc.draft])), h.2.2.evolves hev⟩
  | posted d e =>
    simp only [hpc] at h ⊢
    exact ⟨h.1, h.2.1.evolves hev (hown (by simp [hpc, Pc.draft])), hev.entries e h.2.2.1, h.2.2.2⟩
  | existing | answered | raised =>
    simp only [hpc] at h ⊢
    exact fun key hk => (h key hk).evolves hev
  | stopped => trivial
  | _ =>
    simp only [hpc] at h ⊢
    exact h

theorem Holds.of_undrawn (hd : t.drawn = none) (hp : t.pc.draft = none) : Holds hashes s k t := by
  unfold Holds
  cases hpc : t.pc with
  | existing | answered | raised =>
    simp only
    intro key hk
    rw [hd] at hk
    cases hk
  | stopped => trivial
  | start | period | chart | draw => exact hd
  | _ =>
    rw [hpc] at hp
    cases hp

theorem Holds.owns_le (hs : Chained hashes s) (h : Holds hashes s k t)
    (ho : t.owns = some (year, n)) : n ≤ s.counter year := by
  have hres {key : ℕ × ℕ} (hr : Reserved s key) : key.2 ≤ s.counter key.1 := by
    obtain ⟨r, hr, rfl, -⟩ := hr
    exact (hs.counted r hr).2
  unfold Holds at h
  unfold Thread.owns at ho
  cases hpc : t.pc with
  | reserve d =>
    simp only [hpc] at h
    rw [hpc] at ho
    cases ho
    exact h.2.1.2
  | predecessor d _ | void d _ =>
    simp only [hpc] at h
    rw [hpc] at ho
    cases ho
    exact hres h.2
  | previous d | insert d _ | posted d _ =>
    simp only [hpc] at h
    rw [hpc] at ho
    cases ho
    exact hres h.2.1
  | _ =>
    rw [hpc] at ho
    cases ho

/-! ### One operation -/

variable (hashes) in
/-- What one operation of a call does to the chain and to its ordinal. -/
structure Stepped (s s' : Store H) (t t' : Thread H) : Prop where
  chained : Chained hashes s'
  evolves : Evolves t.owns s s'
  holds : Holds hashes s' 0 t'
  owns : t'.owns = t.owns ∨ t'.owns = none ∨
    t.owns = none ∧ ∃ year, t'.owns = some (year, s.counter year + 1)
  keeps : ∀ key, t.owns = some key → t'.owns = some key ∨ t'.pc = .stopped ∨ Settled s' key
  drawn : ∀ year n, n ≤ s'.counter year → n ≤ s.counter year ∨ t'.owns = some (year, n)

theorem Stepped.same (hs : Chained hashes s) (hc : s'.counters = s.counters)
    (he : s'.entries = s.entries) (hr : s'.reservations = s.reservations)
    (hh : Holds hashes s' 0 t') (ho : t'.owns = t.owns) : Stepped hashes s s' t t' where
  chained := hs.of_eq hc he hr
  evolves := .of_eq hc he hr
  holds := hh
  owns := .inl ho
  keeps _ hk := .inl (ho.trans hk)
  drawn year n hn := by
    simp only [Store.counter, hc] at hn
    exact .inl hn

/-- The call has no ordinal before and after. -/
theorem Stepped.undrawn (hs : Chained hashes s) (hc : s'.counters = s.counters)
    (he : s'.entries = s.entries) (hr : s'.reservations = s.reservations) (hd : t'.drawn = none)
    (hp : t.pc.draft = none) (hp' : t'.pc.draft = none) : Stepped hashes s s' t t' :=
  .same hs hc he hr (.of_undrawn hd hp') (by rw [Thread.owns, Thread.owns, hp, hp'])

theorem Stepped.settled (t t' : Thread H) (hs : Chained hashes s) (hres : Reserved s d.key)
    (hd : t.drawn = some d.key) (ho : t.owns = some d.key)
    (hp' : (∃ a, t'.pc = .existing a) ∨ (∃ e, t'.pc = .answered e) ∨ t'.pc = .raised)
    (hd' : t'.drawn = t.drawn) {status : ReservationStatus} {reason : Option VoidReason}
    (hst : status = .posted ∨ status = .void)
    (hentry : status = .posted → ∃ e ∈ s.entries, e.isAt d.year d.sequence = true) :
    Stepped hashes s (s.mark d.key status reason) t t' := by
  obtain ⟨row, hrow, hkey, hreserved⟩ := hres
  obtain ⟨hch, hev, r, hr, hk, hrst⟩ := hs.mark hrow hkey hreserved status reason hentry
  have hsettled : Settled (s.mark d.key status reason) d.key := by
    refine ⟨r, hr, hk, ?_⟩
    obtain rfl | rfl := hst <;> simp [Reservation.isFinal, hrst]
  have howns : t'.owns = none := by
    obtain ⟨a, hp⟩ | ⟨e, hp⟩ | hp := hp' <;> simp [Thread.owns, hp, Pc.draft]
  refine ⟨hch, ho ▸ hev, ?_, .inr (.inl howns), fun key hkey => ?_, fun _ _ hn => .inl hn⟩
  · have hall : ∀ key, t'.drawn = some key → Settled (s.mark d.key status reason) key := by
      intro key hkey
      rw [hd', hd] at hkey
      cases hkey
      exact hsettled
    obtain ⟨a, hp⟩ | ⟨e, hp⟩ | hp := hp' <;> simpa only [Holds, hp] using hall
  · rw [ho] at hkey
    cases hkey
    exact .inr (.inr hsettled)

theorem afterVoid_cases (d : Draft) (reason : VoidReason) :
    (∃ a, (afterVoid d reason : Pc H) = .existing a) ∨
      (∃ e, (afterVoid d reason : Pc H) = .answered e) ∨ (afterVoid d reason : Pc H) = .raised := by
  unfold afterVoid
  split
  · exact .inl ⟨_, rfl⟩
  · exact .inr (.inr rfl)

theorem posted_stepped (hs : Chained hashes s) (hh : Holds hashes s 0 ⟨job, drawn, .posted d e⟩) :
    Stepped hashes s (s.mark d.key .posted none) ⟨job, drawn, .posted d e⟩
      ⟨job, drawn, .answered e⟩ := by
  obtain ⟨hd, hres, he⟩ := hh
  exact .settled _ ⟨job, drawn, .answered e⟩ hs hres hd rfl (.inr (.inl ⟨e, rfl⟩)) rfl (.inl rfl)
    fun _ => ⟨e, he⟩

theorem void_stepped {reason : VoidReason} (hs : Chained hashes s)
    (hh : Holds hashes s 0 ⟨job, drawn, .void d reason⟩) :
    Stepped hashes s (s.mark d.key .void (some reason)) ⟨job, drawn, .void d reason⟩
      ⟨job, drawn, afterVoid d reason⟩ := by
  obtain ⟨hd, hres⟩ := hh
  refine .settled _ ⟨job, drawn, afterVoid d reason⟩ hs hres hd rfl (afterVoid_cases d reason) rfl
    (.inr rfl) ?_
  intro h
  cases h

theorem mem_of_insertOne_none {c : Collection Reservation Reservation.key}
    (h : c.insertOne row = none) : ∃ r ∈ c, r.key = row.key := by
  unfold Collection.insertOne at h
  split at h
  · rename_i hmem
    exact mem_map.mp hmem
  · cases h

theorem draw_stepped {a : Accepted} (hs : Chained hashes s) (hp : t.pc.draft = none)
    (hp' : t'.pc = .reserve ⟨a, s.nextId, s.counter a.period.fiscalYear + 1⟩)
    (hd' : t'.drawn = some (a.period.fiscalYear, s.counter a.period.fiscalYear + 1)) :
    Stepped hashes s (s.draw a.period.fiscalYear) t t' := by
  have hnone : t.owns = none := by rw [Thread.owns, hp, Option.map_none]
  have hown : t'.owns = some (a.period.fiscalYear, s.counter a.period.fiscalYear + 1) := by
    rw [Thread.owns, hp']
    rfl
  refine ⟨hs.draw _, hnone ▸ draw_evolves s _, ?_, .inr (.inr ⟨hnone, _, hown⟩), fun key hk => ?_,
    fun year n hn => ?_⟩
  · simp only [Holds, hp']
    refine ⟨hd', ⟨Nat.succ_le_succ (Nat.zero_le _), ?_⟩, fun r hr hk => ?_⟩
    · rw [Draft.year, counter_draw, if_pos rfl]
    · have hle := (hs.counted r hr).2
      have hyear : r.fiscalYear = a.period.fiscalYear := congrArg Prod.fst hk
      have hseq : r.sequence = s.counter a.period.fiscalYear + 1 := congrArg Prod.snd hk
      rw [hyear] at hle
      omega
  · rw [hnone] at hk
    cases hk
  · rw [counter_draw] at hn
    split at hn
    · rename_i hyear
      by_cases hle : n ≤ s.counter a.period.fiscalYear
      · exact .inl (hyear ▸ hle)
      · have heq : n = s.counter a.period.fiscalYear + 1 := by omega
        exact .inr (by rw [hown, hyear, heq])
    · exact .inl hn

theorem reserve_stepped (hs : Chained hashes s) (hh : Holds hashes s 0 t) (hp : t.pc = .reserve d)
    (hp' : t'.pc = .predecessor d polls) (hd' : t'.drawn = t.drawn) (hc : s'.counters = s.counters)
    (he : s'.entries = s.entries)
    (hins : s.reservations.insertOne ⟨d.year, d.sequence, d.id, .reserved, none⟩ =
      some s'.reservations) : Stepped hashes s s' t t' := by
  simp only [Holds, hp] at hh
  obtain ⟨hd, hcount, -⟩ := hh
  have howns : t.owns = some d.key := by rw [Thread.owns, hp]; rfl
  have howns' : t'.owns = some d.key := by rw [Thread.owns, hp']; rfl
  obtain ⟨hch, hev⟩ : Chained hashes s' ∧ Evolves (some d.key) s s' :=
    hs.reserve rfl hcount hc he hins
  refine ⟨hch, howns ▸ hev, ?_, .inl (howns'.trans howns.symm), fun key hk => ?_,
    fun year n hn => ?_⟩
  · simp only [Holds, hp']
    exact ⟨hd'.trans hd, _, (mem_insertOne hins).mpr (.inr rfl), rfl, rfl⟩
  · exact .inl (howns'.trans (howns.symm.trans hk))
  · simp only [Store.counter, hc] at hn
    exact .inl hn

theorem insert_stepped (hs : Chained hashes s) (hh : Holds hashes s 0 t)
    (hp : t.pc = .insert d previous)
    (hp' : t'.pc = .posted d (d.doc hashes previous) ∨ ∃ reason, t'.pc = .void d reason)
    (hd' : t'.drawn = t.drawn) (hc : s'.counters = s.counters)
    (hr : s'.reservations = s.reservations)
    (hins : s.entries.insertOne (d.doc hashes previous) = some s'.entries) :
    Stepped hashes s s' t t' := by
  simp only [Holds, hp] at hh
  obtain ⟨hd, hres, hprev⟩ := hh
  have howns : t.owns = some d.key := by rw [Thread.owns, hp]; rfl
  have howns' : t'.owns = some d.key := by
    obtain hp' | ⟨reason, hp'⟩ := hp' <;> rw [Thread.owns, hp'] <;> rfl
  obtain ⟨r, hmem, hk, hst⟩ := hres
  obtain ⟨hch, hev⟩ : Chained hashes s' ∧ Evolves (some d.key) s s' :=
    hs.insert ⟨r, hmem, hk⟩ hprev hc hr hins
  have hres' : Reserved s' d.key := ⟨r, hr ▸ hmem, hk, hst⟩
  refine ⟨hch, howns ▸ hev, ?_, .inl (howns'.trans howns.symm), fun key hk => ?_,
    fun year n hn => ?_⟩
  · obtain hp' | ⟨reason, hp'⟩ := hp' <;> simp only [Holds, hp']
    · exact ⟨hd'.trans hd, hres', (mem_insertOne hins).mpr (.inr rfl),
        isAt_iff.mpr ⟨rfl, rfl⟩⟩
    · exact ⟨hd'.trans hd, hres'⟩
  · exact .inl (howns'.trans (howns.symm.trans hk))
  · simp only [Store.counter, hc] at hn
    exact .inl hn

theorem predecessor_stepped {left : ℕ} (hs : Chained hashes s)
    (hh : Holds hashes s 0 ⟨job, drawn, .predecessor d left⟩) :
    Stepped hashes s s ⟨job, drawn, .predecessor d left⟩
      ⟨job, drawn, (advancePc hashes s job (.predecessor d left)).2⟩ := by
  obtain ⟨hd, hres⟩ := hh
  simp only [advancePc]
  split
  · rename_i hn
    have hzero : d.sequence - 1 = 0 := by omega
    exact .same hs rfl rfl rfl ⟨hd, hres, hzero ▸ .genesis⟩ rfl
  · cases hr : s.reservations.get? (d.year, d.sequence - 1) with
    | none =>
      simp only [Option.map_none]
      split <;> exact .same hs rfl rfl rfl ⟨hd, hres⟩ rfl
    | some r =>
      obtain ⟨hmem, hk⟩ := get?_eq_some.mp hr
      simp only [Option.map_some, Option.bind_some]
      cases hst : r.status with
      | reserved =>
        simp only
        split <;> exact .same hs rfl rfl rfl ⟨hd, hres⟩ rfl
      | void => exact .same hs rfl rfl rfl ⟨hd, hres, .void hmem hk hst⟩ rfl
      | posted => exact .same hs rfl rfl rfl ⟨hd, hres, r, hmem, hk, hst⟩ rfl

theorem previous_stepped (hs : Chained hashes s) (hh : Holds hashes s 0 ⟨job, drawn, .previous d⟩) :
    Stepped hashes s s ⟨job, drawn, .previous d⟩
      ⟨job, drawn, (advancePc hashes s job (.previous d)).2⟩ := by
  obtain ⟨hd, hres, r, hmem, hk, hst⟩ := hh
  simp only [advancePc]
  cases hf : s.entries.findOne fun e => e.isAt d.year (d.sequence - 1) with
  | none => exact .same hs rfl rfl rfl ⟨hd, hres⟩ rfl
  | some e =>
    obtain ⟨he, hat⟩ := mem_of_findOne hf
    exact .same hs rfl rfl rfl ⟨hd, hres, .posted hmem hk hst he hat⟩ rfl

theorem found_cases (a : Accepted) (e : SealedEntry H) :
    found a e = .answered e ∨ found a e = .raised := by
  unfold found
  split
  · exact .inl rfl
  · exact .inr rfl

theorem start_draft (hashes : Hashes H) (s : Store H) (job : Job) :
    (advancePc hashes s job .start).2.draft = none := by
  simp only [advancePc]
  split
  · rfl
  · split
    · rfl
    · split
      · split <;> rfl
      · rfl

/-- An operation that goes through. -/
theorem advance_stepped (hs : Chained hashes s) (hh : Holds hashes s 0 ⟨job, drawn, pc⟩)
    (hc : pc.settles .advance) : Stepped hashes s (advancePc hashes s job pc).1 ⟨job, drawn, pc⟩
      ⟨job, (pc.draws s).or drawn, (advancePc hashes s job pc).2⟩ := by
  cases pc with
  | start => exact .undrawn hs rfl rfl rfl hh rfl (start_draft hashes s job)
  | period date lines =>
    simp only [advancePc]
    split <;> exact .undrawn hs rfl rfl rfl hh rfl rfl
  | chart a =>
    simp only [advancePc]
    split <;> exact .undrawn hs rfl rfl rfl hh rfl rfl
  | draw a => exact draw_stepped hs rfl rfl rfl
  | reserve d =>
    cases hins : s.reservations.insertOne ⟨d.year, d.sequence, d.id, .reserved, none⟩ with
    | none =>
      obtain ⟨r, hr, hk⟩ := mem_of_insertOne_none hins
      exact absurd hk (hh.2.2 r hr)
    | some reservations =>
      have hle : ¬ totalLimit < totalDebit d.accepted.lines.lines := by
        have hbound := hc.2
        omega
      simp only [advancePc, hins, if_neg hle]
      exact reserve_stepped hs hh rfl rfl rfl rfl rfl hins
  | predecessor d left => exact predecessor_stepped hs hh
  | previous d => exact previous_stepped hs hh
  | insert d previous =>
    have hvoid : Stepped hashes s s ⟨job, drawn, .insert d previous⟩
        ⟨job, drawn, .void d .idempotencyRace⟩ := .same hs rfl rfl rfl ⟨hh.1, hh.2.1⟩ rfl
    simp only [advancePc]
    split
    · exact hvoid
    · cases hins : s.entries.insertOne (d.doc hashes previous) with
      | none => exact hvoid
      | some entries => exact insert_stepped hs hh rfl (.inl rfl) rfl rfl rfl hins
  | posted d e => exact posted_stepped hs hh
  | void d reason => exact void_stepped hs hh
  | existing a =>
    simp only [advancePc]
    split
    · rename_i e _
      obtain hf | hf := found_cases a e <;> rw [hf] <;> exact .same hs rfl rfl rfl hh rfl
    · exact .same hs rfl rfl rfl hh rfl
  | answered e => exact .same hs rfl rfl rfl hh rfl
  | raised => exact .same hs rfl rfl rfl hh rfl
  | stopped => exact .same hs rfl rfl rfl trivial rfl

/-- An operation that fails leaves the store, and the call has still its ordinal or makes it
void. -/
theorem fail_stepped (hs : Chained hashes s) (hh : Holds hashes s 0 ⟨job, drawn, pc⟩)
    (hc : pc.settles .fail) : Stepped hashes s s ⟨job, drawn, pc⟩ ⟨job, drawn, pc.failed⟩ := by
  cases pc with
  | start | period | chart | draw => exact .undrawn hs rfl rfl rfl hh rfl rfl
  | reserve d =>
    obtain h | h := hc.1 <;> cases h
  | predecessor d left => exact .same hs rfl rfl rfl ⟨hh.1, hh.2⟩ rfl
  | previous d => exact .same hs rfl rfl rfl ⟨hh.1, hh.2.1⟩ rfl
  | insert d previous => exact .same hs rfl rfl rfl ⟨hh.1, hh.2.1⟩ rfl
  | posted | void => exact absurd rfl hc
  | existing | answered | raised => exact .same hs rfl rfl rfl hh rfl
  | stopped => exact .same hs rfl rfl rfl trivial rfl

/-- The answer of an operation is lost. -/
theorem unanswered_stepped (hs : Chained hashes s) (hh : Holds hashes s 0 ⟨job, drawn, pc⟩)
    (hc : pc.settles .unanswered) : Stepped hashes s (advancePc hashes s job pc).1 ⟨job, drawn, pc⟩
      ⟨job, (pc.draws s).or drawn, pc.failed⟩ := by
  cases pc with
  | start | chart => exact .undrawn hs rfl rfl rfl hh rfl rfl
  | period date lines =>
    simp only [advancePc]
    split <;> exact .undrawn hs rfl rfl rfl hh rfl rfl
  | draw => exact absurd rfl hc
  | reserve d =>
    obtain h | h := hc.1 <;> cases h
  | predecessor d left => exact .same hs rfl rfl rfl ⟨hh.1, hh.2⟩ rfl
  | previous d => exact .same hs rfl rfl rfl ⟨hh.1, hh.2.1⟩ rfl
  | insert d previous =>
    have hvoid : Stepped hashes s s ⟨job, drawn, .insert d previous⟩
        ⟨job, drawn, .void d .insertFailed⟩ := .same hs rfl rfl rfl ⟨hh.1, hh.2.1⟩ rfl
    simp only [advancePc]
    split
    · exact hvoid
    · cases hins : s.entries.insertOne (d.doc hashes previous) with
      | none => exact hvoid
      | some entries => exact insert_stepped hs hh rfl (.inr ⟨_, rfl⟩) rfl rfl rfl hins
  | posted d e => exact posted_stepped hs hh
  | void d reason => exact void_stepped hs hh
  | existing | answered | raised => exact .same hs rfl rfl rfl hh rfl
  | stopped => exact .same hs rfl rfl rfl trivial rfl

theorem step_stepped {m : Move} (hs : Chained hashes s) (hh : Holds hashes s 0 t)
    (hc : t.pc.settles m) (h : t.step hashes s m = some (s', t')) : Stepped hashes s s' t t' := by
  obtain ⟨job, drawn, pc⟩ := t
  unfold Thread.step at h
  split at h
  · cases h
  · cases m with
    | advance =>
      cases h
      exact advance_stepped hs hh hc
    | fail =>
      cases h
      exact fail_stepped hs hh hc
    | unanswered =>
      cases h
      exact unanswered_stepped hs hh hc
    | crash =>
      cases h
      exact ⟨hs, .of_eq rfl rfl rfl, trivial, .inr (.inl rfl), fun _ _ => .inr (.inl rfl),
        fun _ _ hn => .inl hn⟩

theorem posts_preserves : (posts hashes).Preserves Settles (Chained hashes) (Holds hashes) Apart where
  symm t u h key hu ht := h key ht hu
  init s h := by
    obtain ⟨-, hr, he, -⟩ := h
    refine ⟨fun r hm => ?_, fun e hm n hn => ?_, fun e hm n hn => ?_, fun e hm _ => (he e hm).2,
      fun r hm => ?_⟩
    · rw [hr] at hm
      exact absurd hm not_mem_empty
    · rw [(he e hm).1] at hn
      cases hn
    · rw [(he e hm).1] at hn
      cases hn
    · rw [hr] at hm
      exact absurd hm not_mem_empty
  env p x s' hi _ h := by
    cases h
    have hev : Evolves none p.store
        { p.store with periods := x.periods, accounts := x.accounts } := .of_eq rfl rfl rfl
    exact ⟨hi.store.of_eq rfl rfl rfl, fun k t ht =>
      (hi.thread k t ht).evolves hev fun _ h => nomatch h⟩
  call p j t _ _ h := by
    cases h
    exact ⟨rfl, fun u _ key hk => nomatch hk⟩
  step p k m t s' t' hi hc ht h := by
    have hst := step_stepped hi.store (hi.thread k t ht) (hc t ht) h
    refine ⟨hst.chained, hst.holds, fun j u hjk hu => ?_⟩
    have hap := hi.apart k j t u hjk.symm ht hu
    refine ⟨(hi.thread j u hu).evolves hst.evolves hap, fun key hk hku => ?_⟩
    obtain ho | ho | ⟨-, year, ho⟩ := hst.owns
    · exact hap key (ho ▸ hk) hku
    · rw [ho] at hk
      cases hk
    · -- the ordinal is a new one, and the other call has drawn its own before
      rw [ho] at hk
      cases hk
      have hle := (hi.thread j u hu).owns_le hi.store hku
      omega

/-! ### Every ordinal is accounted for -/

/-- An ordinal that was drawn is settled, a call in flight owns it, or a call has stopped. -/
def Accounted (p : Pool (Store H) (Thread H)) : Prop :=
  ∀ year n, 1 ≤ n → n ≤ p.store.counter year → Settled p.store (year, n) ∨
    ∃ t ∈ p.threads, t.owns = some (year, n) ∨ t.pc = .stopped

theorem Accounted.next {p' : Pool (Store H) (Thread H)}
    (hi : Program.Inv (Chained hashes) (Holds hashes) Apart p) (hacc : Accounted p)
    (hc : Settles p a) (h : (posts hashes).machine.step p a = some p') : Accounted p' := by
  intro year n hn hle
  cases a with
  | env x =>
    obtain ⟨hs, ht⟩ := Program.next_env h
    have hstore : p'.store = { p.store with periods := x.periods, accounts := x.accounts } :=
      (Option.some.inj hs).symm
    rw [hstore] at hle ⊢
    rw [ht]
    exact hacc year n hn hle
  | call j =>
    obtain ⟨t, -, hs, ht⟩ := Program.next_call h
    rw [hs] at hle ⊢
    rw [ht]
    obtain hset | ⟨u, hu, hown⟩ := hacc year n hn hle
    · exact .inl hset
    · exact .inr ⟨u, mem_append_left _ hu, hown⟩
  | step k m =>
    obtain ⟨t, t', ht, hs, hset⟩ := Program.next_step h
    have hst := step_stepped hi.store (hi.thread k t ht) (hc t ht) hs
    have ht' : t' ∈ p'.threads := hset ▸ Program.self_mem_set ht t'
    obtain hle | hown := hst.drawn year n hle
    · obtain hsettled | ⟨u, hu, hown⟩ := hacc year n hn hle
      · exact .inl (hsettled.evolves hst.evolves)
      · obtain rfl | hu := Program.eq_or_mem_set ht hu t'
        · obtain hown | hstop := hown
          · obtain hown | hstop | hsettled := hst.keeps _ hown
            · exact .inr ⟨t', ht', .inl hown⟩
            · exact .inr ⟨t', ht', .inr hstop⟩
            · exact .inl hsettled
          · -- a call that has stopped takes no step
            have hnone : u.step hashes p.store m = none := by simp [Thread.step, hstop, Pc.over]
            have hnot : some (p'.store, t') = none := hs.symm.trans hnone
            cases hnot
        · exact .inr ⟨u, hset ▸ hu, hown⟩
    · exact .inr ⟨t', ht', .inl hown⟩

theorem reach_accounted (hp : (posts hashes).machine.Reach Settles p) : Accounted p := by
  refine posts_preserves.reach_pool (fun p h₀ year n hn hle => ?_)
    (fun p a p' hi hacc hc h => hacc.next hi hc h) hp
  have hzero : p.store.counter year = 0 := by
    rw [Store.counter, h₀.1.1]
    rfl
  omega

/-! ### Posts without faults -/

def Pc.inLimit : Pc H → Bool
  | .reserve d => totalDebit d.accepted.lines.lines ≤ totalLimit
  | _ => true

/-- No operation fails and no process stops, and no post has a total over the limit when it
has drawn its ordinal. -/
def Faultless (p : Pool (Store H) (Thread H)) : Act Setup Job Move → Prop
  | .step k m => m = .advance ∧ ∀ t ∈ p.threads[k]?, t.pc.inLimit = true
  | _ => True

instance (p : Pool (Store H) (Thread H)) (a : Act Setup Job Move) : Decidable (Faultless p a) :=
  match a with
  | .step k m =>
    inferInstanceAs (Decidable (m = .advance ∧ ∀ t ∈ p.threads[k]?, t.pc.inLimit = true))
  | .env _ | .call _ => .isTrue trivial

theorem Faultless.settles (h : Faultless p a) : Settles p a := by
  cases a with
  | step k m =>
    obtain ⟨rfl, hlimit⟩ := h
    intro t ht
    have hin := hlimit t ht
    cases hpc : t.pc with
    | reserve d =>
      rw [hpc] at hin
      exact ⟨.inl rfl, of_decide_eq_true hin⟩
    | draw | posted | void => exact fun h => nomatch h
    | _ => trivial
  | env | call => trivial

theorem advance_ne_stopped (h : pc.over = false) : (advancePc hashes s job pc).2 ≠ .stopped := by
  cases pc with
  | answered | raised | stopped => cases h
  | void d reason =>
    obtain ⟨a, hp⟩ | ⟨e, hp⟩ | hp := afterVoid_cases (H := H) d reason <;>
      simp only [advancePc, hp] <;> intro h <;> cases h
  | existing a =>
    simp only [advancePc]
    split
    · rename_i e _
      obtain hf | hf := found_cases a e <;> rw [hf] <;> intro h <;> cases h
    · intro h
      cases h
  | _ =>
    simp only [advancePc]
    repeat' split
    all_goals
      intro h
      cases h

/-- No call stops in a run without faults. -/
theorem reach_not_stopped (hp : (posts hashes).machine.Reach Faultless p) :
    ∀ t ∈ p.threads, t.pc ≠ .stopped := by
  refine hp.invariant (fun p => ∀ t ∈ p.threads, t.pc ≠ .stopped) (fun p h₀ t ht => ?_) ?_
  · rw [h₀.2] at ht
    cases ht
  · intro p a p' hi hc h t ht
    cases a with
    | env x =>
      obtain ⟨-, hth⟩ := Program.next_env h
      exact hi t (hth ▸ ht)
    | call j =>
      obtain ⟨u, hu, -, hth⟩ := Program.next_call h
      rw [hth, mem_append, mem_singleton] at ht
      obtain ht | rfl := ht
      · exact hi t ht
      · cases hu
        exact fun h => nomatch h
    | step k m =>
      obtain ⟨u, u', hu, hs, hset⟩ := Program.next_step h
      obtain ⟨rfl, -⟩ := hc
      rw [hset] at ht
      obtain ht | rfl := mem_or_eq_of_mem_set ht
      · exact hi t ht
      · have hstep : u.step hashes p.store .advance = some (p'.store, t) := hs
        unfold Thread.step at hstep
        split at hstep
        · cases hstep
        · rename_i hover
          have hpc : t.pc = (advancePc hashes p.store u.job u.pc).2 :=
            (congrArg (fun r => r.2.pc) (Option.some.inj hstep)).symm
          rw [hpc]
          exact advance_ne_stopped (by simpa using hover)

theorem settled_of_over (hp : (posts hashes).machine.Reach Faultless p)
    (hover : ∀ t ∈ p.threads, t.pc.over = true) (hn : 1 ≤ n) (hle : n ≤ p.store.counter year) :
    Settled p.store (year, n) := by
  have hacc := reach_accounted (hp.mono fun _ _ h => h.settles)
  obtain hset | ⟨t, ht, hown | hstop⟩ := hacc year n hn hle
  · exact hset
  · have hov := hover t ht
    rw [Thread.owns] at hown
    cases hpc : t.pc <;> simp_all [Pc.over, Pc.draft]
  · exact absurd hstop (reach_not_stopped hp t ht)

end SyrocePms.Ledger.Seal
