import SyrocePms.Ledger.Calls

/-! Closed periods. A post looks at its period before it draws an ordinal, and a close
looks at the ordinals before it flips the period. A post with an ordinal that the close
has seen is fenced off, since its ordinal is not settled; one without is not. -/

namespace SyrocePms.Ledger

open Lib List

/-! ### Posts in flight -/

namespace Thread

/-- A post that has looked at its period and has not inserted, with its ordinal if it has
drawn one. -/
def inFlight (t : Thread) : Option (Accepted × Option ℕ) :=
  match t.pc with
  | .post (.chart a) | .post (.draw a) => some (a, none)
  | .post (.reserve a n) | .post (.predecessor a n) | .post (.insert a n) => some (a, some n)
  | _ => none

/-- The ordinal that the call has drawn and not settled. -/
def holds (t : Thread) : Option (ℕ × ℕ) :=
  match t.pc with
  | .post (.reserve a n) | .post (.predecessor a n) | .post (.insert a n) | .post (.posted a n)
  | .post (.void a n _) => some (a.period.fiscalYear, n)
  | _ => none

theorem holds_of_inFlight {t : Thread} (h : t.inFlight = some (a, some n)) :
    t.holds = some (a.period.fiscalYear, n) := by
  obtain ⟨pc, year⟩ := t
  cases pc with
  | post pc => cases pc <;> simp_all [inFlight, holds]
  | _ => cases h

end Thread

/-! ### The condition -/

/-- When a period is flipped, every post in flight that the period bears on has drawn an
ordinal that the close has seen. -/
def Fenced (touch : Period → ℕ → Bool) (ts : List Thread) (t : Thread) : Prop :=
  match t.pc with
  | .close (.flip x seen) => ∀ u ∈ ts, ∀ f ∈ u.inFlight, touch x f.1.date = true →
    f.1.period.fiscalYear = x.fiscalYear ∧ ∃ n ∈ f.2, n ≤ seen
  | _ => True

def Later (touch : Period → ℕ → Bool) (s : Store) (t : Thread) : Prop :=
  match t.pc with
  | .post (.period _ date _) => ∀ r ∈ s.books.periods.openFor date, ∀ x ∈ r.1.rows,
    x.isOpen = false → touch x date = false
  | _ => True

instance (touch : Period → ℕ → Bool) (ts : List Thread) (t : Thread) : Decidable (Fenced touch ts t) := by
  unfold Fenced
  split <;> infer_instance

instance (touch : Period → ℕ → Bool) (s : Store) (t : Thread) : Decidable (Later touch s t) := by
  unfold Later
  split <;> infer_instance

def ClosesFence (touch : Period → ℕ → Bool) (p : Pool Store Thread) : Act Empty Call Move → Prop
  | .step k (.advance _) => ∀ t ∈ p.threads[k]?, Fenced touch p.threads t
  | _ => True

/-- Closes fence off the posts in flight, and posts come after what is closed. -/
def InOrder (touch : Period → ℕ → Bool) (p : Pool Store Thread) : Act Empty Call Move → Prop
  | .step k (.advance _) => ∀ t ∈ p.threads[k]?, Fenced touch p.threads t ∧ Later touch p.store t
  | _ => True

instance (touch : Period → ℕ → Bool) (p : Pool Store Thread) (a : Act Empty Call Move) :
    Decidable (ClosesFence touch p a) := by
  unfold ClosesFence
  split <;> infer_instance

instance (touch : Period → ℕ → Bool) (p : Pool Store Thread) (a : Act Empty Call Move) :
    Decidable (InOrder touch p a) := by
  unfold InOrder
  split <;> infer_instance

/-! ### The ordinals -/

def Settled (s : Store) (year seen : ℕ) : Prop :=
  ∀ n, 1 ≤ n → n ≤ seen → ∃ r ∈ s.reservations, r.key = (year, n) ∧ r.isFinal = true

theorem le_foldl_max (l : List ℕ) (m : ℕ) : m ≤ l.foldl max m := by
  induction l generalizing m with
  | nil => exact Nat.le_refl m
  | cons x l ih => exact Nat.le_trans (Nat.le_max_left m x) (ih (max m x))

theorem settled_of_audit {year : ℕ} {ordinals : List (ℕ × ℕ)} {rows : List Reservation}
    (h : auditHealthy year seen ordinals rows = true) (h₁ : 1 ≤ n) (hn : n ≤ seen) :
    ∃ r ∈ rows, r.key = (year, n) ∧ r.isFinal = true := by
  have hmax : seen ≤ maxSequence year seen ordinals rows := le_foldl_max _ seen
  have hall := all_eq_true.mp h (n - 1) (mem_range.mpr (by omega))
  cases hfind : rows.find? fun r => r.fiscalYear == year && r.sequence == n - 1 + 1 with
  | none =>
    rw [hfind] at hall
    cases hall
  | some r =>
    rw [hfind] at hall
    have hkey := find?_some hfind
    simp only [Bool.and_eq_true, beq_iff_eq] at hkey
    refine ⟨r, mem_of_find?_eq_some hfind, ?_, ?_⟩
    · rw [Reservation.key, hkey.1, hkey.2, Nat.sub_add_cancel h₁]
    · simp only [Option.any_some, Bool.or_eq_true, Bool.and_eq_true] at hall
      rw [Reservation.isFinal, Bool.or_eq_true]
      exact hall.elim .inr fun h => .inl h.1

/-! ### What the calls keep -/

variable (touch : Period → ℕ → Bool)
variable {a : Accepted} {n seen : ℕ} {year : Option ℕ} {key : ℕ × ℕ} {status : ReservationStatus}
  {o : Chance} {u : Thread} {x y : Period} {p p' : Pool Store Thread}

/-- What a call knows: no closed period bears on a post in flight, an ordinal in hand is
not settled, and a close knows what it has seen settled. -/
structure Knows (s : Store) (t : Thread) : Prop where
  opened : ∀ f ∈ t.inFlight, ∀ x ∈ s.books.periods, x.isOpen = false → touch x f.1.date = false
  hand : ∀ k ∈ t.holds, 1 ≤ k.2 ∧ k.2 ≤ s.counters k.1 ∧
    ∀ r ∈ s.reservations, r.key = k → r.isFinal = false
  seenRows : ∀ x ordinals rows, t.pc = .close (.counters x ordinals rows) →
    ∀ r ∈ rows, r.isFinal = true → r ∈ s.reservations
  settled : ∀ x seen, t.pc = .close (.trial x seen) ∨ t.pc = .close (.flip x seen) →
    Settled s x.fiscalYear seen

/-- No reservation is ahead of its counter. -/
def Counted (s : Store) : Prop := ∀ r ∈ s.reservations, r.sequence ≤ s.counters r.fiscalYear

/-- Two calls hold different ordinals. -/
def HandsApart (t u : Thread) : Prop := ∀ k, t.holds = some k → u.holds ≠ some k

/-- What an operation keeps for the other calls. `own` is the ordinal in hand, and
`shut` the period that is closed. -/
structure Keeps (own : Option (ℕ × ℕ)) (shut : Option (ℕ × Fin 12)) (s s' : Store) : Prop where
  counters : ∀ year, s.counters year ≤ s'.counters year
  final : ∀ r ∈ s.reservations, r.isFinal = true → r ∈ s'.reservations
  rows : ∀ r ∈ s'.reservations, r ∈ s.reservations ∨ own = some r.key
  closed : ∀ x ∈ s'.books.periods, x.isOpen = false → x ∈ s.books.periods ∨ shut = some x.key

variable {touch} {own : Option (ℕ × ℕ)} {shut : Option (ℕ × Fin 12)} {s s' : Store} {t t' : Thread}

theorem Keeps.of_eq (hc : s'.counters = s.counters) (hr : s'.reservations = s.reservations)
    (hp : ∀ x ∈ s'.books.periods, x.isOpen = false → x ∈ s.books.periods) : Keeps own shut s s' where
  counters year := by rw [hc]
  final r hr' _ := hr ▸ hr'
  rows r hr' := .inl (hr ▸ hr')
  closed x hx hopen := .inl (hp x hx hopen)

theorem Keeps.refl (s : Store) : Keeps own shut s s := .of_eq rfl rfl fun _ hx _ => hx

theorem Settled.keeps {year : ℕ} (h : Settled s year seen) (hk : Keeps own shut s s') :
    Settled s' year seen := fun n h₁ hn =>
  let ⟨r, hr, hkey, hfinal⟩ := h n h₁ hn
  ⟨r, hk.final r hr hfinal, hkey, hfinal⟩

/-- What a call knows outlives the operations of the others. -/
theorem Knows.keeps (h : Knows touch s t) (hk : Keeps own shut s s')
    (hown : ∀ key, own = some key → t.holds ≠ some key)
    (hflip : ∀ f ∈ t.inFlight, ∀ x ∈ s'.books.periods, shut = some x.key → x.isOpen = false →
      touch x f.1.date = false) : Knows touch s' t where
  opened f hf x hx hopen := by
    obtain hold | hnew := hk.closed x hx hopen
    · exact h.opened f hf x hold hopen
    · exact hflip f hf x hx hnew hopen
  hand key hkey := by
    obtain ⟨h₁, hle, hrows⟩ := h.hand key hkey
    refine ⟨h₁, Nat.le_trans hle (hk.counters _), fun r hr hrk => ?_⟩
    obtain hold | hnew := hk.rows r hr
    · exact hrows r hold hrk
    · exact absurd hkey (hown key (hrk ▸ hnew))
  seenRows x ordinals rows hpc r hr hfinal := hk.final r (h.seenRows x ordinals rows hpc r hr hfinal) hfinal
  settled x seen hpc := (h.settled x seen hpc).keeps hk

/-! ### The operations -/

/-- The period that the call is about to flip. -/
def Thread.shuts (t : Thread) : Option (ℕ × Fin 12) :=
  match t.pc with
  | .close (.flip x _) => some x.key
  | _ => none

/-- A call that has nothing in flight, in hand or seen. -/
def Pc.isQuiet : Pc → Bool
  | .post (.start _) | .post (.period _ _ _) => true
  | .post _ | .close (.counters _ _ _) | .close (.trial _ _) | .close (.flip _ _) => false
  | _ => true

theorem quiet_frame (h : t.pc.isQuiet = true) : t.inFlight = none ∧ t.holds = none ∧
    (∀ x ordinals rows, t.pc ≠ .close (.counters x ordinals rows)) ∧
    ∀ x seen, t.pc ≠ .close (.trial x seen) ∧ t.pc ≠ .close (.flip x seen) := by
  obtain ⟨pc, year⟩ := t
  cases pc with
  | post pc => cases pc <;> simp_all [Pc.isQuiet, Thread.inFlight, Thread.holds]
  | close pc => cases pc <;> simp_all [Pc.isQuiet, Thread.inFlight, Thread.holds]
  | _ => simp [Thread.inFlight, Thread.holds]

theorem Knows.of_quiet (h : t.pc.isQuiet = true) : Knows touch s t := by
  obtain ⟨hf, hh, hc, ht⟩ := quiet_frame h
  refine ⟨?_, ?_, fun x ordinals rows hpc => absurd hpc (hc x ordinals rows), fun x seen hpc => ?_⟩
  · simp [hf]
  · simp [hh]
  · exact (hpc.elim (ht x seen).1 (ht x seen).2).elim

/-- What one operation of a call does. -/
structure Advances (touch : Period → ℕ → Bool) (s s' : Store) (t t' : Thread) : Prop where
  counted : Counted s'
  knows : Knows touch s' t'
  keeps : Keeps t.holds t.shuts s s'
  holds : t'.holds = t.holds ∨ t'.holds = none ∨ ∃ year, t'.holds = some (year, s.counters year + 1)

theorem Advances.quiet (hs : Counted s) (hc : s'.counters = s.counters)
    (hr : s'.reservations = s.reservations)
    (hp : ∀ x ∈ s'.books.periods, x.isOpen = false → x ∈ s.books.periods)
    (ht : t'.pc.isQuiet = true) : Advances touch s s' t t' where
  counted r hr' := by
    rw [hc]
    exact hs r (hr ▸ hr')
  knows := .of_quiet ht
  keeps := .of_eq hc hr hp
  holds := .inr (.inl (quiet_frame ht).2.1)

theorem Advances.idle (hs : Counted s) (ht : t'.pc.isQuiet = true) : Advances touch s s t t' :=
  .quiet hs rfl rfl (fun _ hx _ => hx) ht

theorem Advances.goOn (hs : Counted s) (h : Knows touch s t) (hc : s'.counters = s.counters)
    (hr : s'.reservations = s.reservations) (hp : s'.books.periods = s.books.periods)
    (hf : ∀ f ∈ t'.inFlight, f ∈ t.inFlight) (hh : t'.holds = t.holds)
    (hq : ∀ pc, t'.pc ≠ .close pc) : Advances touch s s' t t' where
  counted r hr' := by
    rw [hc]
    exact hs r (hr ▸ hr')
  knows :=
    { opened := fun f hf' x hx => h.opened f (hf f hf') x (hp ▸ hx)
      hand := by
        rw [hh, hc, hr]
        exact h.hand
      seenRows := fun x ordinals rows hpc => absurd hpc (hq _)
      settled := fun x seen hpc => (hpc.elim (hq _) (hq _)).elim }
  keeps := .of_eq hc hr fun x hx _ => hp ▸ hx
  holds := .inl hh

theorem afterPost_isQuiet (year : Option ℕ) : (afterPost year).isQuiet = true := by
  cases year <;> rfl

theorem afterClose_isQuiet (year : Option ℕ) : (afterClose year).isQuiet = true := by
  cases year <;> rfl

theorem mem_mark {r : Reservation} :
    r ∈ (s.mark key status).reservations ↔ (r ∈ s.reservations ∧ r.key ≠ key) ∨
      ∃ x ∈ s.reservations, x.key = key ∧ r = x.setStatus status := by
  simp only [Store.mark, Collection.mem_update]

theorem mark_advances (hs : Counted s) (h : Knows touch s t) (hkey : t.holds = some key)
    (hq : t'.pc.isQuiet = true) : Advances touch s (s.mark key status) t t' where
  counted r hr := by
    obtain ⟨hr, -⟩ | ⟨x, hx, -, rfl⟩ := mem_mark.mp hr
    · exact hs r hr
    · exact hs x hx
  knows := .of_quiet hq
  keeps :=
    { counters := fun _ => Nat.le_refl _
      final := fun r hr hfinal => mem_mark.mpr (.inl ⟨hr, fun hk => by
        have hno := (h.hand key hkey).2.2 r hr hk
        rw [hfinal] at hno
        cases hno⟩)
      rows := fun r hr => by
        obtain ⟨hr, -⟩ | ⟨x, -, hxk, rfl⟩ := mem_mark.mp hr
        · exact .inl hr
        · exact .inr (by rw [hkey, ← hxk]; rfl)
      closed := fun x hx _ => .inl hx }
  holds := .inr (.inl (quiet_frame hq).2.1)

theorem setPeriods_advances {periods : Periods} (hs : Counted s)
    (hp : ∀ x ∈ periods, x ∈ s.books.periods ∨ x.isOpen = true) (hq : t'.pc.isQuiet = true) :
    Advances touch s (s.setPeriods periods) t t' := by
  refine .quiet hs rfl rfl (fun x hx hopen => ?_) hq
  obtain hold | hnew := hp x hx
  · exact hold
  · rw [hopen] at hnew
    cases hnew

theorem draw_advances (hs : Counted s) (h : Knows touch s ⟨.post (.draw a), year⟩) :
    Advances touch s (s.draw a.period.fiscalYear) ⟨.post (.draw a), year⟩
      ⟨.post (.reserve a (s.counters a.period.fiscalYear + 1)), year⟩ := by
  have hle (y : ℕ) : s.counters y ≤ (s.draw a.period.fiscalYear).counters y := by
    by_cases hy : y = a.period.fiscalYear
    · subst hy
      simp [Store.draw]
    · simp [Store.draw, Function.update_of_ne hy]
  refine ⟨fun r hr => Nat.le_trans (hs r hr) (hle _), ⟨fun f hf => ?_, fun k hk => ?_,
    fun _ _ _ hpc => (nomatch hpc), fun _ _ hpc => hpc.elim (fun h => nomatch h) fun h => nomatch h⟩,
    ⟨hle, fun r hr _ => hr, fun r hr => .inl hr, fun x hx _ => .inl hx⟩, .inr (.inr ⟨_, rfl⟩)⟩
  · cases hf
    exact h.opened (a, none) rfl
  · cases hk
    refine ⟨Nat.le_add_left _ _, by simp [Store.draw], fun r hr hkey => ?_⟩
    have hlt := hs r hr
    obtain ⟨hyear, hseq⟩ := Prod.mk.inj hkey
    rw [hyear, hseq] at hlt
    exact absurd hlt (Nat.not_succ_le_self _)

theorem reserve_advances {pc : Pc} {reservations : Collection Reservation Reservation.key}
    (hs : Counted s) (h : Knows touch s ⟨.post (.reserve a n), year⟩)
    (hins : s.reservations.insertOne { fiscalYear := a.period.fiscalYear, sequence := n } =
      some reservations) (hpc : pc = .returned ∨ pc = .post (.predecessor a n)) :
    Advances touch s { s with reservations := reservations } ⟨.post (.reserve a n), year⟩
      ⟨pc, year⟩ := by
  obtain ⟨h₁, hle, hrows⟩ := h.hand _ rfl
  have hmem (r : Reservation) : r ∈ reservations ↔ r ∈ s.reservations ∨
      r = { fiscalYear := a.period.fiscalYear, sequence := n } := Collection.mem_insertOne hins
  refine ⟨fun r hr => ?_, ⟨fun f hf => ?_, fun k hk => ?_, fun _ _ _ hc => ?_, fun _ _ hc => ?_⟩,
    ⟨fun _ => Nat.le_refl _, fun r hr _ => (hmem r).mpr (.inl hr), fun r hr => ?_,
      fun x hx _ => .inl hx⟩, ?_⟩
  · obtain hr | rfl := (hmem r).mp hr
    · exact hs r hr
    · exact hle
  · obtain rfl | rfl := hpc <;> cases hf
    exact h.opened _ rfl
  · obtain rfl | rfl := hpc <;> cases hk
    refine ⟨h₁, hle, fun r hr hkey => ?_⟩
    obtain hr | rfl := (hmem r).mp hr
    · exact hrows r hr hkey
    · rfl
  · obtain rfl | rfl := hpc <;> cases hc
  · obtain rfl | rfl := hpc <;> obtain hc | hc := hc <;> cases hc
  · obtain hr | rfl := (hmem r).mp hr
    · exact .inl hr
    · exact .inr rfl
  · obtain rfl | rfl := hpc
    · exact .inr (.inl rfl)
    · exact .inl rfl

theorem afterVoid_isQuiet (s : Store) (a : Accepted) (taken : Bool) (year : Option ℕ) :
    (match s.books.stored a.job.key with
      | some e =>
        if taken && e.repeats ⟨a.date, a.job.source, a.lines.lines⟩ then afterPost year
        else .returned
      | none => .returned : Pc).isQuiet = true := by
  split
  · split
    · exact afterPost_isQuiet year
    · rfl
  · rfl

theorem postStep_advances {pc : PostPc} (hs : Counted s) (h : Knows touch s ⟨.post pc, year⟩)
    (hc : Later touch s ⟨.post pc, year⟩) :
    Advances touch s (postStep s o year pc).1 ⟨.post pc, year⟩ ⟨(postStep s o year pc).2, year⟩ := by
  cases pc with
  | start j =>
    refine .idle hs ?_
    simp only [postStep]
    repeat' split
    all_goals first | rfl | exact afterPost_isQuiet year
  | period j date lines =>
    simp only [postStep]
    cases hopen : s.books.periods.openFor date with
    | none => exact .idle hs rfl
    | some r =>
      obtain ⟨periods, p⟩ := r
      obtain ⟨-, -, -, hnew⟩ := Periods.forDate_some (Periods.openFor_some hopen).1
      refine ⟨hs, ⟨fun f hf x hx => ?_, fun k hk => (by cases hk), fun _ _ _ hpc => (by cases hpc),
        fun _ _ hpc => hpc.elim (fun h => by cases h) fun h => by cases h⟩, ?_, .inl rfl⟩
      · cases hf
        exact hc _ hopen x hx
      · refine .of_eq rfl rfl fun x hx hclosed => ?_
        obtain hold | ⟨-, hx'⟩ := hnew x hx
        · exact hold
        · rw [hclosed] at hx'
          cases hx'
  | chart a =>
    simp only [postStep]
    split
    · exact .idle hs rfl
    · exact .goOn hs h rfl rfl rfl (fun f hf => hf) rfl (by simp)
  | draw a => exact draw_advances hs h
  | reserve a n =>
    simp only [postStep]
    cases hins : s.reservations.insertOne { fiscalYear := a.period.fiscalYear, sequence := n } with
    | none => exact .idle hs rfl
    | some reservations =>
      refine reserve_advances hs h hins ?_
      by_cases hlimit : moneyLimit < totalDebit a.lines.lines <;> simp [hlimit]
  | predecessor a n =>
    simp only [postStep]
    repeat' split
    · exact .goOn hs h rfl rfl rfl (fun f hf => hf) rfl (by simp)
    · exact .goOn hs h rfl rfl rfl (fun f hf => hf) rfl (by simp)
    · exact .goOn hs h rfl rfl rfl (fun f hf => by cases hf) rfl (by simp)
  | insert a n =>
    simp only [postStep]
    repeat' split
    · exact .goOn hs h rfl rfl rfl (fun f hf => by cases hf) rfl (by simp)
    · exact .goOn hs h rfl rfl rfl (fun f hf => by cases hf) rfl (by simp)
    · exact .goOn hs h rfl rfl rfl (fun f hf => by cases hf) rfl (by simp)
  | posted a n =>
    simp only [postStep]
    split
    · exact .idle hs (afterPost_isQuiet year)
    · exact mark_advances hs h rfl (afterPost_isQuiet year)
  | void a n taken =>
    simp only [postStep]
    split
    · exact .idle hs (afterVoid_isQuiet s a taken year)
    · exact mark_advances hs h rfl (afterVoid_isQuiet s a taken year)

/-- A close goes on: it learns what it sees, and writes nothing. -/
theorem Advances.look (hs : Counted s) (hf : t'.inFlight = none) (hh : t'.holds = none)
    (hrows : ∀ x ordinals rows, t'.pc = .close (.counters x ordinals rows) →
      ∀ r ∈ rows, r.isFinal = true → r ∈ s.reservations)
    (hseen : ∀ x seen, t'.pc = .close (.trial x seen) ∨ t'.pc = .close (.flip x seen) →
      Settled s x.fiscalYear seen) : Advances touch s s t t' where
  counted := hs
  knows := ⟨by simp [hf], by simp [hh], hrows, hseen⟩
  keeps := .refl s
  holds := .inr (.inl hh)

theorem closeStep_advances {pc : ClosePc} (hs : Counted s) (h : Knows touch s ⟨.close pc, year⟩) :
    Advances touch s (closeStep s o year pc).1 ⟨.close pc, year⟩ ⟨(closeStep s o year pc).2, year⟩ := by
  cases pc with
  | read key =>
    refine .idle hs ?_
    simp only [closeStep]
    repeat' split
    all_goals first | rfl | exact afterClose_isQuiet year
  | earlier x =>
    refine .idle hs ?_
    simp only [closeStep]
    split <;> rfl
  | ready x =>
    refine .idle hs ?_
    simp only [closeStep]
    split <;> rfl
  | entries x => exact .idle hs rfl
  | reservations x ordinals =>
    refine .look hs rfl rfl (fun _ _ _ hpc r hr _ => ?_) fun _ _ hpc => ?_
    · cases hpc
      exact hr
    · exact hpc.elim (fun h => nomatch h) fun h => nomatch h
  | counters x ordinals rows =>
    simp only [closeStep]
    split
    · rename_i hok
      have haudit := (Bool.and_eq_true_iff.mp hok).2
      refine .look hs rfl rfl (fun _ _ _ hpc => (nomatch hpc)) fun _ _ hpc n h₁ hn => ?_
      obtain hpc | hpc := hpc <;> cases hpc
      obtain ⟨r, hr, hkey, hfinal⟩ := settled_of_audit haudit h₁ hn
      exact ⟨r, h.seenRows x ordinals rows rfl r hr hfinal, hkey, hfinal⟩
    · exact .idle hs rfl
  | trial x seen =>
    simp only [closeStep]
    split
    · refine .look hs rfl rfl (fun _ _ _ hpc => (nomatch hpc)) fun _ _ hpc => ?_
      obtain hpc | hpc := hpc <;> cases hpc
      exact h.settled x seen (.inl rfl)
    · exact .idle hs rfl
  | flip x seen =>
    simp only [closeStep]
    split
    · exact .idle hs rfl
    · split
      · refine ⟨hs, .of_quiet (afterClose_isQuiet year),
          ⟨fun _ => Nat.le_refl _, fun r hr _ => hr, fun r hr => .inl hr, fun y hy _ => ?_⟩,
          .inr (.inl (quiet_frame (afterClose_isQuiet year)).2.1)⟩
        obtain ⟨hy, -⟩ | ⟨z, -, hk, rfl⟩ := Periods.mem_close.mp hy
        · exact .inl hy
        · exact .inr (congrArg some hk.symm)
      · exact .idle hs rfl

theorem yearStep_advances {pc : YearPc} (hs : Counted s) :
    Advances touch s (yearStep s pc).1 ⟨.year pc, year⟩ ⟨(yearStep s pc).2, year⟩ := by
  cases pc with
  | closure y =>
    refine .idle hs ?_
    simp only [yearStep]
    split <;> rfl
  | periods y =>
    simp only [yearStep]
    split
    · exact .idle hs rfl
    · rename_i periods hens
      refine setPeriods_advances hs (fun x hx => ?_) (by split <;> rfl)
      exact ((Periods.ensureCalendarYear_some hens).2 x hx).imp id And.right
  | chart y =>
    refine .idle hs ?_
    simp only [yearStep]
    split <;> rfl
  | lines y =>
    refine .idle hs ?_
    simp only [yearStep]
    split <;> rfl
  | record y =>
    refine .quiet hs rfl rfl (fun x hx hopen => ?_) rfl
    cases hens : s.books.periods.ensureCalendarYear (y + 1) with
    | none =>
      simp only [yearStep, hens] at hx
      exact hx
    | some periods =>
      simp only [yearStep, hens] at hx
      obtain hold | ⟨-, hnew⟩ := (Periods.ensureCalendarYear_some hens).2 x hx
      · exact hold
      · rw [hopen] at hnew
        cases hnew

theorem advance_advances (hs : Counted s) (h : Knows touch s t) (hc : Later touch s t)
    (ha : advance s o t = some (s', t')) : Advances touch s s' t t' := by
  obtain ⟨pc, year⟩ := t
  cases pc with
  | post pc =>
    cases ha
    exact postStep_advances hs h hc
  | close pc =>
    cases ha
    exact closeStep_advances hs h
  | reopen key =>
    cases ha
    refine .idle hs ?_
    repeat' split
    all_goals rfl
  | reopenFlip key =>
    cases ha
    refine setPeriods_advances hs (fun x hx => ?_) rfl
    obtain ⟨hx, -⟩ | ⟨q, -, -, rfl⟩ := Periods.mem_reopen.mp hx
    · exact .inl hx
    · exact .inr rfl
  | year pc =>
    cases ha
    exact yearStep_advances hs
  | returned => cases ha

theorem step_advances {m : Move} (hs : Counted s) (h : Knows touch s t)
    (hc : ∀ o, m = .advance o → Later touch s t) (ha : t.step s m = some (s', t')) :
    Advances touch s s' t t' := by
  cases m with
  | advance o => exact advance_advances hs h (hc o rfl) ha
  | stop =>
    cases ha
    exact .idle hs rfl

/-! ### Every run -/

/-- A post whose ordinal the close has seen settled is none that is in flight. -/
theorem not_touch_of_fenced (htouch : ∀ x y : Period, x.key = y.key → touch x = touch y)
    {ts : List Thread} (ht : Knows touch s t) (hu : Knows touch s u) (hmem : u ∈ ts)
    (hc : Fenced touch ts t) {f : Accepted × Option ℕ} (hf : f ∈ u.inFlight)
    (hx : t.shuts = some x.key) : touch x f.1.date = false := by
  obtain ⟨pc, year⟩ := t
  obtain ⟨y, seen, rfl⟩ : ∃ y seen, pc = .close (.flip y seen) := by
    cases pc with
    | close pc => cases pc <;> first | exact ⟨_, _, rfl⟩ | cases hx
    | _ => cases hx
  have hkey : y.key = x.key := Option.some.inj hx
  by_contra hne
  rw [← htouch y x hkey] at hne
  obtain ⟨hyear, n, hn, hle⟩ := hc u hmem f hf (by simpa using hne)
  obtain ⟨a, k⟩ := f
  cases hn
  obtain ⟨h₁, -, hno⟩ := hu.hand _ (Thread.holds_of_inFlight hf)
  obtain ⟨r, hr, hrk, hfinal⟩ := ht.settled y seen (.inr rfl) n h₁ hle
  rw [hno r hr (hrk.trans (by rw [← hyear]))] at hfinal
  cases hfinal

theorem HandsApart.symm (h : HandsApart t u) : HandsApart u t :=
  fun k hu ht => h k ht hu

theorem begin_isQuiet (c : Call) : (Thread.begin c).pc.isQuiet = true := by
  cases c <;> rfl

theorem preserves (htouch : ∀ x y : Period, x.key = y.key → touch x = touch y) :
    calls.Preserves (InOrder touch) Counted (fun s _ t => Knows touch s t) HandsApart where
  symm _ _ h := h.symm
  init _ h := h
  env _ e := nomatch e
  call p c t _ _ ht := by
    obtain rfl : Thread.begin c = t := Option.some.inj ht
    have hq := begin_isQuiet c
    exact ⟨.of_quiet hq, fun u _ k hk => by simp [(quiet_frame hq).2.1] at hk⟩
  step p k m t s' t' hp hc ht hs := by
    have hknows := hp.thread k t ht
    have hadv : Advances touch p.store s' t t' := by
      refine step_advances hp.store hknows (fun o ho => ?_) hs
      subst ho
      exact (hc t ht).2
    refine ⟨hadv.counted, hadv.knows, fun j u hne hu => ⟨?_, fun key hkey hu' => ?_⟩⟩
    · have hapart : HandsApart t u := hp.apart k j t u (Ne.symm hne) ht hu
      refine (hp.thread j u hu).keeps hadv.keeps hapart fun f hf x hx hshut hopen => ?_
      cases m with
      | advance o =>
        exact not_touch_of_fenced htouch hknows (hp.thread j u hu) (mem_of_getElem? hu)
          (hc t ht).1 hf hshut
      | stop =>
        cases hs
        exact (hp.thread j u hu).opened f hf x hx hopen
    · obtain hold | hnone | ⟨year, hnew⟩ := hadv.holds
      · exact hp.apart k j t u (Ne.symm hne) ht hu key (hold ▸ hkey) hu'
      · rw [hnone] at hkey
        cases hkey
      · have hle := ((hp.thread j u hu).hand key hu').2.1
        rw [hnew] at hkey
        cases hkey
        exact Nat.not_succ_le_self _ hle

def Store.touched (touch : Period → ℕ → Bool) (s : Store) (x : Period) : List Entry :=
  s.books.journal.filter fun e => touch x e.date

def Reopens (key : ℕ × Fin 12) (p : Pool Store Thread) : Act Empty Call Move → Prop
  | .step k (.advance _) => ∃ t ∈ p.threads[k]?, t.pc = .reopenFlip key
  | _ => False

instance (key : ℕ × Fin 12) (p : Pool Store Thread) (a : Act Empty Call Move) :
    Decidable (Reopens key p a) := by
  unfold Reopens
  split <;> infer_instance

theorem advance_journal (ha : advance s o t = some (s', t')) : s'.books.journal = s.books.journal ∨
      ∃ f ∈ t.inFlight, ∃ e : Entry, e.date = f.1.date ∧ s'.books.journal = s.books.journal ++ [e] := by
  obtain ⟨pc, year⟩ := t
  cases pc with
  | post pc =>
    cases ha
    cases pc with
    | period j date lines =>
      simp only [postStep]
      split <;> exact .inl rfl
    | reserve a n =>
      simp only [postStep]
      split <;> exact .inl rfl
    | insert a n =>
      simp only [postStep]
      repeat' split
      · exact .inl rfl
      · exact .inl rfl
      · exact .inr ⟨(a, some n), rfl, a.job.entry a.date a.period.fiscalYear a.lines, rfl, rfl⟩
    | posted a n =>
      simp only [postStep]
      split <;> exact .inl rfl
    | void a n taken =>
      simp only [postStep]
      split <;> exact .inl rfl
    | _ => exact .inl rfl
  | close pc =>
    cases ha
    cases pc with
    | flip x seen =>
      simp only [closeStep]
      repeat' split
      all_goals exact .inl rfl
    | _ => exact .inl rfl
  | reopen key => cases ha; exact .inl rfl
  | reopenFlip key => cases ha; exact .inl rfl
  | year pc =>
    cases ha
    cases pc with
    | periods y =>
      simp only [yearStep]
      split <;> exact .inl rfl
    | _ => exact .inl rfl
  | returned => cases ha

theorem advance_closed (ha : advance s o t = some (s', t')) (hx : x ∈ s.books.periods)
    (hclosed : x.isOpen = false) (hno : t.pc ≠ .reopenFlip x.key) : x ∈ s'.books.periods := by
  obtain ⟨pc, year⟩ := t
  cases pc with
  | post pc =>
    cases ha
    cases pc with
    | period j date lines =>
      simp only [postStep]
      split
      · exact hx
      · rename_i hopen
        exact (Periods.forDate_some (Periods.openFor_some hopen).1).2.2.1 x hx
    | reserve a n =>
      simp only [postStep]
      split <;> exact hx
    | insert a n =>
      simp only [postStep]
      repeat' split
      all_goals exact hx
    | posted a n =>
      simp only [postStep]
      split <;> exact hx
    | void a n taken =>
      simp only [postStep]
      split <;> exact hx
    | _ => exact hx
  | close pc =>
    cases ha
    cases pc with
    | flip y seen =>
      simp only [closeStep]
      repeat' split
      · exact hx
      · refine Periods.mem_close.mpr ?_
        by_cases hk : x.key = y.key
        · exact .inr ⟨x, hx, hk, by rw [Period.setOpen, ← hclosed]⟩
        · exact .inl ⟨hx, hk⟩
      · exact hx
    | _ => exact hx
  | reopen key => cases ha; exact hx
  | reopenFlip key =>
    cases ha
    exact Periods.mem_reopen.mpr (.inl ⟨hx, fun hk => hno (by rw [hk])⟩)
  | year pc =>
    cases ha
    cases pc with
    | periods y =>
      simp only [yearStep]
      split
      · exact hx
      · rename_i hens
        exact (Periods.ensureCalendarYear_some hens).1 x hx
    | record y =>
      simp only [yearStep]
      cases hens : s.books.periods.ensureCalendarYear (y + 1) with
      | none => exact hx
      | some periods => exact (Periods.ensureCalendarYear_some hens).1 x hx
    | _ => exact hx
  | returned => cases ha

theorem step_touched {a : Act Empty Call Move}
    (hp : Program.Inv Counted (fun s _ t => Knows touch s t) HandsApart p)
    (hx : x ∈ p.store.books.periods) (hclosed : x.isOpen = false) (hno : ¬ Reopens x.key p a)
    (hs : calls.machine.step p a = some p') :
    x ∈ p'.store.books.periods ∧ p'.store.touched touch x = p.store.touched touch x := by
  cases a with
  | env e => exact nomatch e
  | call c =>
    obtain ⟨-, -, hstore, -⟩ := Program.next_call hs
    rw [hstore]
    exact ⟨hx, rfl⟩
  | step k m =>
    obtain ⟨t, t', ht, hstep, -⟩ := Program.next_step hs
    cases m with
    | stop =>
      obtain ⟨hstore, -⟩ := Prod.mk.inj (Option.some.inj hstep)
      rw [← hstore]
      exact ⟨hx, rfl⟩
    | advance o =>
      refine ⟨advance_closed hstep hx hclosed fun hpc => hno ⟨t, ht, hpc⟩, ?_⟩
      obtain hsame | ⟨f, hf, e, hdate, hnew⟩ := advance_journal hstep
      · rw [Store.touched, Store.touched, hsame]
      · have hoff := (hp.thread k t ht).opened f hf x hx hclosed
        simp [Store.touched, hnew, hdate, hoff]

theorem touched_path (htouch : ∀ x y : Period, x.key = y.key → touch x = touch y)
    (hp : calls.machine.Reach (InOrder touch) p) (hx : x ∈ p.store.books.periods)
    (hclosed : x.isOpen = false)
    (hpath : calls.machine.Path (fun q a => InOrder touch q a ∧ ¬ Reopens x.key q a) p p') :
    p'.store.touched touch x = p.store.touched touch x := by
  let I (q : Pool Store Thread) : Prop :=
    Program.Inv Counted (fun s _ t => Knows touch s t) HandsApart q ∧
      x ∈ q.store.books.periods ∧ q.store.touched touch x = p.store.touched touch x
  have hI : I p' := by
    refine Machine.Path.invariant I (fun q a q' hq hc hs => ?_) hpath
      ⟨(preserves htouch).reach hp, hx, rfl⟩
    obtain ⟨hinv, hmem, heq⟩ := hq
    obtain ⟨hmem', heq'⟩ := step_touched hinv hmem hclosed hc.2 hs
    exact ⟨(preserves htouch).next hinv hc.1 hs, hmem', heq'.trans heq⟩
  exact hI.2.2

/-! ### The periods of dates -/

def Period.reaches (x : Period) (date : ℕ) : Bool := decide (date ≤ x.endDate)

theorem lastDay_le (year month : ℕ) : lastDay year month ≤ 31 := by
  simp only [lastDay]
  repeat' split
  all_goals decide

theorem Period.key_of_covers {date : ℕ} (hx : x.covers date = true) (hy : y.covers date = true) :
    x.key = y.key := by
  have hkey {z : Period} (hz : z.covers date = true) :
      z.fiscalYear = date / 10000 ∧ z.periodNo.val + 1 = date / 100 % 100 := by
    have hlast := lastDay_le z.fiscalYear (z.periodNo + 1)
    have hno := z.periodNo.isLt
    have hdate : z.startDate ≤ date ∧ date ≤ z.endDate := of_decide_eq_true hz
    simp only [startDate, endDate, day] at hdate
    omega
  obtain ⟨hxy, hxn⟩ := hkey hx
  obtain ⟨hyy, hyn⟩ := hkey hy
  exact Prod.ext (hxy.trans hyy.symm) (Fin.ext (Nat.succ.inj (hxn.trans hyn.symm)))

theorem Period.covers_of_key (h : x.key = y.key) : x.covers = y.covers := by
  obtain ⟨year, no, b⟩ := x
  obtain ⟨year', no', b'⟩ := y
  obtain ⟨rfl, rfl⟩ := Prod.mk.inj h
  rfl

theorem Period.reaches_of_key (h : x.key = y.key) : x.reaches = y.reaches := by
  obtain ⟨year, no, b⟩ := x
  obtain ⟨year', no', b'⟩ := y
  obtain ⟨rfl, rfl⟩ := Prod.mk.inj h
  rfl

theorem later_covers (s : Store) (t : Thread) : Later Period.covers s t := by
  unfold Later
  split
  · intro r hr x hx hclosed
    obtain ⟨periods, p⟩ := r
    obtain ⟨hfor, hopen⟩ := Periods.openFor_some hr
    obtain ⟨hp, hcov, -⟩ := Periods.forDate_some hfor
    by_contra hne
    have hxp : x = p := Collection.eq_of_key hx hp (Period.key_of_covers (by simpa using hne) hcov)
    rw [hxp, hopen] at hclosed
    cases hclosed
  · trivial

theorem inOrder_of_closesFence {a : Act Empty Call Move} (h : ClosesFence Period.covers p a) :
    InOrder Period.covers p a := by
  cases a with
  | step k m =>
    cases m with
    | advance o => exact fun t ht => ⟨h t ht, later_covers p.store t⟩
    | stop => trivial
  | _ => trivial

/-- While closes fence off the posts in flight, no entry comes to a closed period; and
while posts come after what is closed too, the balances of its trial stay as they are. -/
theorem closed_periods_stay_closed {p p' : Pool Store Thread} {x : Period}
    (hx : x ∈ p.store.books.periods) (hclosed : x.isOpen = false) :
    (calls.machine.Reach (ClosesFence Period.covers) p →
      calls.machine.Path (fun q a => ClosesFence Period.covers q a ∧ ¬ Reopens x.key q a) p p' →
      p'.store.touched Period.covers x = p.store.touched Period.covers x) ∧
    (calls.machine.Reach (InOrder Period.reaches) p →
      calls.machine.Path (fun q a => InOrder Period.reaches q a ∧ ¬ Reopens x.key q a) p p' →
      ∀ code, p'.store.books.balance x.endDate code = p.store.books.balance x.endDate code) := by
  refine ⟨fun hp hpath => ?_, fun hp hpath code => ?_⟩
  · exact touched_path (fun _ _ => Period.covers_of_key)
      (hp.mono fun _ _ => inOrder_of_closesFence) hx hclosed
      (Relation.ReflTransGen.mono (fun _ _ => Machine.Next.mono fun _ _ h =>
        ⟨inOrder_of_closesFence h.1, h.2⟩) _ _ hpath)
  · have htouched := touched_path (fun _ _ => Period.reaches_of_key) hp hx hclosed hpath
    have hlines (s : Store) : s.books.linesWithin 0 x.endDate =
        (s.touched Period.reaches x).flatMap fun e => e.lines.lines := by
      simp [Books.linesWithin, Store.touched, Period.reaches]
    rw [Books.balance, Books.balance, hlines, hlines, htouched]

/-! ### Runs -/

/-- A year that has just been set up, with cash and sales. -/
def newYear : Store where
  books :=
    { periods := Periods.ensureYear Collection.empty 2026
      accounts := cashAndSales
      journal := []
      closures := [] }
  counters _ := 0
  reservations := .empty
  ordinals := []

theorem newYear_init : calls.machine.init ⟨newYear, []⟩ :=
  ⟨fun _ hr => absurd hr Collection.not_mem_empty, rfl⟩

def sale (date : ℕ) : Job where
  date := date
  source := .other date
  lines := [{ account := 100, debit := 5000, memo := .text 0 },
    { account := 600, credit := 5000, memo := .text 0 }]

def january : Period := { fiscalYear := 2026, periodNo := 0, isOpen := false }

def seenJanuary (p : Pool Store Thread) : Bool × ℕ × ℤ :=
  (decide (january ∈ p.store.books.periods.rows), (p.store.touched Period.covers january).length,
    p.store.books.balance january.endDate 100)

/-- January is closed after a sale, and a sale of February is posted. -/
theorem closed_periods_stay_closed_january : ∃ p p' : Pool Store Thread, january ∈ p.store.books.periods ∧
    p'.store.books.journal.length = 2 ∧
    p'.store.touched Period.covers january = p.store.touched Period.covers january ∧
    ∀ code, p'.store.books.balance january.endDate code = p.store.books.balance january.endDate code := by
  obtain ⟨p, p', hp, hpath, hv, hw⟩ := Machine.exists_path_of_runUnder
    (C := fun q a => (ClosesFence Period.covers q a ∧ InOrder Period.reaches q a) ∧
      ¬ Reopens january.key q a)
    (f := fun q : Pool Store Thread => (decide (january ∈ q.store.books.periods.rows),
      q.store.books.journal.length))
    (v := (true, 1)) (w := (true, 2))
    (List.flatten [[.call (.post (sale 20260115))], List.replicate 8 (.step 0 (.advance {})),
      [.call (.close january.key)], List.replicate 8 (.step 1 (.advance {}))])
    (.call (.post (sale 20260210)) :: List.replicate 8 (.step 2 (.advance {})))
    newYear_init (by decide +kernel) (by decide +kernel)
  have hmem : january ∈ p.store.books.periods.rows := of_decide_eq_true (Prod.mk.inj hv).1
  obtain ⟨hcov, hbal⟩ := closed_periods_stay_closed hmem rfl
  have hpath' {C : Pool Store Thread → Act Empty Call Move → Prop}
      (hC : ∀ q a, ClosesFence Period.covers q a ∧ InOrder Period.reaches q a → C q a) :
      calls.machine.Path (fun q a => C q a ∧ ¬ Reopens january.key q a) p p' :=
    Relation.ReflTransGen.mono (fun _ _ => Machine.Next.mono fun q a h => ⟨hC q a h.1, h.2⟩) _ _ hpath
  exact ⟨p, p', hmem, (Prod.mk.inj hw).2,
    hcov (hp.mono fun _ _ h => h.1.1) (hpath' fun _ _ h => h.1),
    hbal (hp.mono fun _ _ h => h.1.2) (hpath' fun _ _ h => h.2)⟩

/-- A sale that has found January open is posted after January is closed. -/
theorem closed_period_written : ∃ p p', calls.machine.Reachable p ∧
    calls.machine.Path (fun q a => ¬ Reopens january.key q a) p p' ∧
    seenJanuary p = (true, 0, 0) ∧ seenJanuary p' = (true, 1, 5000) := by
  obtain ⟨p, p', hp, hpath, hv, hw⟩ := Machine.exists_path_of_runUnder
    (C := fun q a => ¬ Reopens january.key q a) (f := seenJanuary)
    (v := (true, 0, 0)) (w := (true, 1, 5000))
    (List.flatten [[.call (.post (sale 20260115))], List.replicate 3 (.step 0 (.advance {})),
      [.call (.close january.key)], List.replicate 8 (.step 1 (.advance {}))])
    (List.replicate 4 (.step 0 (.advance {})))
    newYear_init (by decide +kernel) (by decide +kernel)
  exact ⟨p, p', hp.mono fun _ _ _ => trivial, hpath, hv, hw⟩

end SyrocePms.Ledger
