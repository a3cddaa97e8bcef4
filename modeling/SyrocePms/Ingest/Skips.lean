import SyrocePms.Ingest.NewestApplied

/-! Events that are skipped for the hash of the stored lineage. The hash covers a part of what an update
would write, and no write of the lineage changes the one without the other. -/

namespace SyrocePms.Ingest

open Lib

variable {l : Lineage} {c : Canonical} {s s' : Store} {k : ℕ}

def Lineage.Hashed (l : Lineage) : Prop := l.hash.2 = l.details

/-- An update with the event would change no field of it. -/
structure Keeps (l : Lineage) (c : Canonical) : Prop where
  details : (updatedLineage l c l).details = l.details
  unhashed : (updatedLineage l c l).unhashed = l.unhashed
  status : (updatedLineage l c l).status = l.status

/-- The last write of the lineage was an update, and the fields that are not hashed are those of the event. -/
def Unskipped (l : Lineage) (c : Canonical) : Prop := l.status = .modified ∧ c.unhashed = l.unhashed

theorem keeps_iff (hl : l.Hashed) (hhash : l.hash = c.hash) : Keeps l c ↔ Unskipped l c := by
  have hdetails : c.details = l.details := by
    rw [← hl, hhash]
    rfl
  constructor
  · intro h
    exact ⟨h.status.symm, h.unhashed⟩
  · intro h
    exact ⟨hdetails, h.2, h.1.symm⟩

theorem decideEvent_skipSameHash {mapped : Bool} (h : decideEvent c (some l) mapped = .skipSameHash) :
    l.hash = c.hash := by
  unfold decideEvent at h
  split_ifs at h with hcancelled hmapped
  simp only at h
  split_ifs at h with hhash
  exact hhash

/-! ### What the writes keep -/

def StoreHashed (s : Store) : Prop := ∀ l, s.lineage = some l → l.Hashed

/-- The copies of the calls. -/
def PcHashed : IngestPc → Prop
  | .decide copy => ∀ l, copy = some l → l.Hashed
  | .acquire copy _ | .write copy _ => copy.Hashed
  | _ => True

theorem pcHashed_raised (pc : IngestPc) : PcHashed pc.raised := by
  unfold IngestPc.raised
  split <;> trivial

theorem pcHashed_decided {copy : Option Lineage} (h : PcHashed (.decide copy)) (d : IngestDecision) : PcHashed (decided copy d) := by
  cases d <;> cases copy <;> first | trivial | exact h _ rfl

theorem StoreHashed.lease (h : StoreHashed s) (f : Lineage → Lineage)
    (hf : ∀ l, (f l).hash = l.hash ∧ (f l).details = l.details) :
    StoreHashed { s with lineage := s.lineage.map f } := by
  intro l hl
  obtain ⟨l₀, hl₀, rfl⟩ := Option.map_eq_some_iff.mp hl
  rw [Lineage.Hashed, (hf l₀).1, (hf l₀).2]
  exact h l₀ hl₀

/-- One operation of a call. -/
theorem ingestStep_hashed {e : RawEvent} {lost : Bool} {o : Outside} {pc pc' : IngestPc}
    (hs : StoreHashed s) (hpc : PcHashed pc) (h : ingestStep k s e lost o pc = some (s', pc')) :
    StoreHashed s' ∧ PcHashed pc' := by
  have created (c : Canonical) (id : ℕ) (l : Lineage) (hl : some (createdLineage id c) = some l) : l.Hashed := by
    rw [← Option.some.inj hl]
    rfl
  cases pc with
  | dedup =>
    simp only [ingestStep] at h
    split_ifs at h <;> cases h <;> exact ⟨hs, trivial⟩
  | read =>
    simp only [ingestStep] at h
    split at h
    · rename_i l hl
      split_ifs at h <;> cases h
      · exact ⟨hs, trivial⟩
      · exact ⟨hs, fun l' hl' => Option.some.inj hl' ▸ hs l hl⟩
    · cases h
      exact ⟨hs, fun l hl => by cases hl⟩
  | decide copy =>
    cases h
    refine ⟨?_, pcHashed_decided hpc _⟩
    split
    · unfold Store.noteSkip
      split <;> exact hs
    · exact hs
  | acquire copy d =>
    simp only [ingestStep] at h
    split at h
    · rename_i l hl
      split_ifs at h <;> cases h
      · refine ⟨fun l' hl' => ?_, hpc⟩
        rw [← Option.some.inj hl']
        exact hs l hl
      · exact ⟨hs, trivial⟩
    · cases h
      exact ⟨hs, trivial⟩
  | write copy d =>
    have hwrite : writeStep k s e lost copy d = (s', pc') := Option.some.inj h
    unfold writeStep at hwrite
    split at hwrite
    · split_ifs at hwrite
      · cases d <;> cases hwrite
        · exact ⟨fun l hl => Option.some.inj hl ▸ rfl, trivial⟩
        · exact ⟨fun l hl => Option.some.inj hl ▸ hpc, trivial⟩
      · cases hwrite
        exact ⟨hs, trivial⟩
    · cases hwrite
      exact ⟨hs, trivial⟩
  | upsert found a =>
    have hupsert : upsertStep s e.canonical found a = (s', pc') := Option.some.inj h
    unfold upsertStep at hupsert
    split at hupsert
    · split_ifs at hupsert <;> cases hupsert
      · exact ⟨created _ _, trivial⟩
      · exact ⟨hs, trivial⟩
    · cases hupsert
      exact ⟨created _ _, trivial⟩
    · cases hupsert
      exact ⟨hs, trivial⟩
    · cases hupsert
      exact ⟨hs, trivial⟩
  | find a =>
    cases h
    exact ⟨hs, trivial⟩
  | after l a =>
    simp only [ingestStep] at h
    split_ifs at h <;> cases h <;> exact ⟨hs, trivial⟩
  | finalize l a =>
    cases h
    exact ⟨hs, trivial⟩
  | release l a =>
    cases l with
    | none =>
      cases h
      exact ⟨hs, trivial⟩
    | some id =>
      cases h
      refine ⟨hs.lease _ fun l => ?_, trivial⟩
      split <;> exact ⟨rfl, rfl⟩
  | returned | crashed => cases h

theorem threadStep_hashed {t t' : Thread} {m : Move} (hs : StoreHashed s) (hpc : PcHashed t.pc)
    (h : t.step k s m = some (s', t')) : StoreHashed s' ∧ PcHashed t'.pc := by
  cases m with
  | advance o =>
    obtain ⟨r, hr, heq⟩ := Option.map_eq_some_iff.mp h
    cases heq
    exact ingestStep_hashed hs hpc hr
  | raise =>
    simp only [Thread.step] at h
    split_ifs at h
    cases h
    exact ⟨hs, pcHashed_raised _⟩
  | crash =>
    simp only [Thread.step] at h
    split_ifs at h
    cases h
    exact ⟨hs, trivial⟩
  | heartbeat ok =>
    obtain ⟨id, -, heq⟩ := Option.map_eq_some_iff.mp h
    split_ifs at heq <;> cases heq
    · refine ⟨hs.lease _ fun l => ?_, hpc⟩
      split <;> exact ⟨rfl, rfl⟩
    · exact ⟨hs, hpc⟩

theorem preserves_hashed : Program.Preserves calls (fun _ _ => True) StoreHashed (fun _ _ t => PcHashed t.pc) fun _ _ => True where
  symm _ _ _ := trivial
  init s hs l hl := by rw [hs.1] at hl; cases hl
  env p _ s' hp _ h := by
    cases h
    exact ⟨hp.store, hp.thread⟩
  call p e t _ _ h := by
    cases h
    exact ⟨trivial, fun _ _ => trivial⟩
  step p k m t s' t' hp _ ht h := by
    obtain ⟨hs, hpc⟩ := threadStep_hashed hp.store (hp.thread k t ht) h
    exact ⟨hs, hpc, fun j u _ hu => ⟨hp.thread j u hu, trivial⟩⟩

/-- A skip for the hash of the lineage leaves out nothing exactly when the lineage was updated last and the
fields that are not hashed are those of the event. -/
theorem skips_lose_nothing (p : Pool Store Thread) (l : Lineage) (c : Canonical) (mapped : Bool) (h : calls.machine.Reachable p)
    (hl : p.store.lineage = some l) (hskip : decideEvent c (some l) mapped = .skipSameHash) : Keeps l c ↔ Unskipped l c :=
  keeps_iff ((preserves_hashed.reach h).store l hl) (decideEvent_skipSameHash hskip)

/-- A change that comes again under a newer version. -/
theorem skips_lose_nothing_again : ∃ p l, calls.machine.Reachable p ∧ p.store.lineage = some l ∧
    (Keeps l { version := 3, status := .state .modified, details := { checkOut := 2 } } ↔
      Unskipped l { version := 3, status := .state .modified, details := { checkOut := 2 } }) := by
  obtain ⟨p, hp, hl⟩ := Machine.exists_reachable_of_run (M := calls.machine) (f := fun p => p.store.lineage)
    (v := some ⟨0, 2, (.state .modified, { checkOut := 2 }), { checkOut := 2 }, {}, .modified, none⟩)
    (List.flatten [[.call (sampleEvent 1 .confirmed)], operations 0 8,
      [.call (sampleEvent 2 .modified)], operations 1 8])
    emptyStore_init (by decide +kernel)
  exact ⟨p, _, hp, hl, skips_lose_nothing p _ { version := 3, status := .state .modified, details := { checkOut := 2 } } true
    hp hl (by decide)⟩

/-- A reservation that is cancelled and then taken back as it was stays cancelled. -/
theorem reinstatement_skipped : ¬ ∀ p l c mapped, calls.machine.Reachable p → p.store.lineage = some l → l.version < c.version →
    decideEvent c (some l) mapped = .skipSameHash → Keeps l c := by
  obtain ⟨p, hp, hl⟩ := Machine.exists_reachable_of_run (M := calls.machine) (f := fun p => p.store.lineage)
    (v := some ⟨0, 1, (.state .confirmed, { checkOut := 1 }), { checkOut := 1 }, {}, .cancelled, none⟩)
    (List.flatten [[.call (sampleEvent 1 .confirmed)], operations 0 8,
      [.call (sampleEvent 2 .cancelled)], operations 1 8])
    emptyStore_init (by decide +kernel)
  intro h
  have hkeeps := h p _ { version := 3, status := .state .confirmed, details := { checkOut := 1 } } true hp hl (by decide) (by decide)
  have hstatus := hkeeps.status
  cases hstatus

end SyrocePms.Ingest
