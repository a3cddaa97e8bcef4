import SyrocePms.Ingest.Pipeline

/-! The pipeline applies the events of a reservation in the order of their versions, as
long as the checks that a call made on its copy of the lineage still hold of the lineage
at the write, and nothing newer was cancelled or skipped for its hash: these two leave
no trace in the version of the lineage. -/

namespace SyrocePms.Ingest

open Lib List

variable {s s' : Store} {c : Canonical} {pc pc' : IngestPc} {k : ℕ} {e : RawEvent}
  {lost mapped : Bool} {o : Outside} {p : Pool Store Thread} {t t' : Thread} {m : Move}

/-! ### The conditions on a step -/

/-- The staleness check, made again on the stored lineage, lets the event pass, and so do
the versions of the cancellations and of the skips for a hash. -/
def StillNewest (s : Store) (c : Canonical) : Prop :=
  (∀ l ∈ s.lineage, l.version ≤ c.version) ∧ ∀ v ∈ s.unversioned, v ≤ c.version

instance (s : Store) (c : Canonical) : Decidable (StillNewest s c) :=
  inferInstanceAs (Decidable (_ ∧ _))

/-- The condition on the next operation of thread `k`. -/
def StepInOrder (k : ℕ) (s : Store) (c : Canonical) (lost mapped : Bool) : IngestPc → Prop
  | .write copy d =>
    lost = false → s.leaseHeld k copy.id = true → StillNewest s c ∧
      (d = .cancel → ∀ l ∈ s.lineage, l.version = copy.version)
  | .upsert (some id) _ =>
    ∀ l ∈ s.lineage, if l.id = id then StillNewest s c
      else s.applied.any (fun x => c.version ≤ x.version) = true
  | .decide copy =>
    decideEvent c copy mapped = .skipSameHash → s.isNewest c = true →
      ∃ l ∈ s.lineage, Carries l c
  | _ => True

instance (k : ℕ) (s : Store) (c : Canonical) (lost mapped : Bool) (pc : IngestPc) :
    Decidable (StepInOrder k s c lost mapped pc) := by
  unfold StepInOrder
  split <;> infer_instance

def AppliesInOrder (p : Pool Store Thread) : Act Unit RawEvent Move → Prop
  | .step k (.advance o) =>
    ∀ t ∈ p.threads[k]?, StepInOrder k p.store t.event.canonical t.lost o.mapped t.pc
  | _ => True

instance (p : Pool Store Thread) (a : Act Unit RawEvent Move) :
    Decidable (AppliesInOrder p a) := by
  unfold AppliesInOrder
  split <;> infer_instance

/-! ### The invariant -/

/-- The logged events are in the order of their versions, the lineage shows the last of
them, and every logged version is one the lineage or the log of unversioned events knows. -/
structure AppliedOk (s : Store) : Prop where
  sorted : s.applied.Pairwise fun a b => b.version ≤ a.version
  absent : s.lineage = none → s.applied = []
  carries : ∀ l, s.lineage = some l →
    ∃ c rest, s.applied = c :: rest ∧ Carries l c ∧ l.version ≤ c.version
  logged : ∀ x ∈ s.applied,
    (∃ l, s.lineage = some l ∧ x.version ≤ l.version) ∨ x.version ∈ s.unversioned

/-- The lineage stays, its version does not decrease, and the log grows. -/
structure Grows (s s' : Store) : Prop where
  version : ∀ l, s.lineage = some l → ∃ l', s'.lineage = some l' ∧ l.version ≤ l'.version
  log : s.applied <:+ s'.applied

theorem Grows.refl (s : Store) : Grows s s := ⟨fun l h => ⟨l, h, le_rfl⟩, suffix_rfl⟩

theorem Grows.trans (s t u : Store) (h : Grows s t) (h' : Grows t u) : Grows s u where
  version l hl := by
    obtain ⟨l₁, hl₁, h₁⟩ := h.version l hl
    obtain ⟨l₂, hl₂, h₂⟩ := h'.version l₁ hl₁
    exact ⟨l₂, hl₂, h₁.trans h₂⟩
  log := h.log.trans h'.log

/-- The lineage has at least the version `v`. -/
def AtLeast (s : Store) (v : ℕ) : Prop := ∃ l, s.lineage = some l ∧ v ≤ l.version

/-- The event is not newer than what was applied. -/
def Settled (s : Store) (c : Canonical) : Prop := ∃ x ∈ s.applied, c.version ≤ x.version

theorem AtLeast.grow {v : ℕ} (h : AtLeast s v) (hg : Grows s s') : AtLeast s' v := by
  obtain ⟨l, hl, hv⟩ := h
  obtain ⟨l', hl', hle⟩ := hg.version l hl
  exact ⟨l', hl', hv.trans hle⟩

theorem Settled.grow (h : Settled s c) (hg : Grows s s') : Settled s' c := by
  obtain ⟨x, hx, hv⟩ := h
  exact ⟨x, hg.log.subset hx, hv⟩

theorem AtLeast.settled (hs : AppliedOk s) (h : AtLeast s c.version) : Settled s c := by
  obtain ⟨l, hl, hv⟩ := h
  obtain ⟨x, rest, hx, -, hle⟩ := hs.carries l hl
  exact ⟨x, by simp [hx], hv.trans hle⟩

/-- What a call knows at each point of its control. -/
def PcOk (s : Store) (c : Canonical) : IngestPc → Prop
  | .decide (some copy) => AtLeast s copy.version
  | .acquire copy d | .write copy d =>
    AtLeast s copy.version ∧ (d = .cancel ↔ c.isCancelled = true)
  | .find a => c.isCancelled = false ∧ (a = .created ∨ a = .pendingMapping)
  | .upsert found a => c.isCancelled = false ∧ (a = .created ∨ a = .pendingMapping) ∧
    (found ≠ none → s.lineage ≠ none)
  | .after _ a | .finalize _ a | .release _ a | .returned a => a.settled = true → Settled s c
  | .dedup | .read | .decide none | .crashed => True

theorem PcOk.grow (h : PcOk s c pc) (hg : Grows s s') : PcOk s' c pc := by
  cases pc with
  | decide copy =>
    cases copy with
    | none => trivial
    | some copy => exact AtLeast.grow h hg
  | acquire copy d => exact ⟨h.1.grow hg, h.2⟩
  | write copy d => exact ⟨h.1.grow hg, h.2⟩
  | upsert found a =>
    refine ⟨h.1, h.2.1, fun hf => ?_⟩
    obtain ⟨l, hl⟩ := Option.ne_none_iff_exists'.mp (h.2.2 hf)
    obtain ⟨l', hl', -⟩ := hg.version l hl
    simp [hl']
  | after l a => exact fun ha => (h ha).grow hg
  | finalize l a => exact fun ha => (h ha).grow hg
  | release l a => exact fun ha => (h ha).grow hg
  | returned a => exact fun ha => (h ha).grow hg
  | dedup | read | find a | crashed => exact h

/-! ### What the writes do -/

theorem AppliedOk.newest (hs : AppliedOk s) (h : StillNewest s c) :
    ∀ x ∈ s.applied, x.version ≤ c.version := by
  intro x hx
  obtain ⟨l, hl, hv⟩ | hu := hs.logged x hx
  · exact hv.trans (h.1 l hl)
  · exact h.2 _ hu

theorem AppliedOk.apply {l : Lineage} (hs : AppliedOk s)
    (hnew : ∀ x ∈ s.applied, x.version ≤ c.version) (hc : Carries l c) (hv : l.version ≤ c.version)
    (hver : c.isCancelled = false → l.version = c.version)
    (hgrow : ∀ l₀, s.lineage = some l₀ → l₀.version ≤ l.version) :
    AppliedOk (s.apply c l) ∧ Grows s (s.apply c l) ∧ Settled (s.apply c l) c := by
  refine ⟨⟨pairwise_cons.mpr ⟨hnew, hs.sorted⟩, fun h => (nomatch h), fun l' hl' => ?_,
    fun x hx => ?_⟩, ⟨fun l₀ hl₀ => ⟨l, rfl, hgrow l₀ hl₀⟩, suffix_cons c _⟩,
    ⟨c, mem_cons_self, le_rfl⟩⟩
  · cases hl'
    exact ⟨c, s.applied, rfl, hc, hv⟩
  · rcases mem_cons.mp hx with rfl | hx
    · by_cases hcan : x.isCancelled = true
      · exact .inr (by simp [Store.apply, hcan])
      · exact .inl ⟨l, rfl, (hver (by simpa using hcan)).ge⟩
    · obtain ⟨l₀, hl₀, hle⟩ | hu := hs.logged x hx
      · exact .inl ⟨l, rfl, hle.trans (hgrow l₀ hl₀)⟩
      · refine .inr ?_
        simp only [Store.apply]
        split
        · exact mem_cons_of_mem _ hu
        · exact hu

/-- A step that changes only the lease, the clock, the counter or the finalized events. -/
theorem AppliedOk.same (hs : AppliedOk s) (ha : s'.applied = s.applied)
    (hu : s'.unversioned = s.unversioned)
    (hl : ∃ f : Lineage → Lineage, s'.lineage = s.lineage.map f ∧
      ∀ l, (f l).version = l.version ∧ ∀ c, Carries l c → Carries (f l) c) :
    AppliedOk s' ∧ Grows s s' := by
  obtain ⟨f, hf, hfv⟩ := hl
  refine ⟨⟨ha ▸ hs.sorted, fun h => ?_, fun l' hl' => ?_, fun x hx => ?_⟩,
    ⟨fun l h => ⟨f l, by rw [hf, h]; rfl, (hfv l).1.ge⟩, ha ▸ suffix_rfl⟩⟩
  · rw [hf, Option.map_eq_none_iff] at h
    rw [ha, hs.absent h]
  · rw [hf] at hl'
    obtain ⟨l, hl, rfl⟩ := Option.map_eq_some_iff.mp hl'
    obtain ⟨c, rest, hc, hcar, hle⟩ := hs.carries l hl
    exact ⟨c, rest, by rw [ha, hc], (hfv l).2 c hcar, (hfv l).1 ▸ hle⟩
  · rw [ha] at hx
    rw [hu]
    obtain ⟨l, hl, hle⟩ | h := hs.logged x hx
    · exact .inl ⟨f l, by rw [hf, hl]; rfl, (hfv l).1 ▸ hle⟩
    · exact .inr h

theorem AppliedOk.same_lineage (hs : AppliedOk s) (s' : Store) (hl : s'.lineage = s.lineage)
    (ha : s'.applied = s.applied) (hu : s'.unversioned = s.unversioned) :
    AppliedOk s' ∧ Grows s s' :=
  hs.same ha hu ⟨id, by simp [hl], fun _ => ⟨rfl, fun _ h => h⟩⟩

/-- The lease does not show. -/
theorem carries_lock (l : Lineage) (x : Option LineageLock) (c : Canonical) (h : Carries l c) :
    Carries { l with lock := x } c := h

theorem AppliedOk.lease (hs : AppliedOk s) (f : Lineage → Lineage)
    (hf : ∀ l, ∃ x, f l = { l with lock := x }) : AppliedOk { s with lineage := s.lineage.map f } ∧
      Grows s { s with lineage := s.lineage.map f } := by
  refine hs.same rfl rfl ⟨f, rfl, fun l => ?_⟩
  obtain ⟨x, hx⟩ := hf l
  rw [hx]
  exact ⟨rfl, fun c => carries_lock l x c⟩

theorem writeStep_inOrder {copy : Lineage} {d : LockedDecision} (hs : AppliedOk s)
    (hok : PcOk s e.canonical (.write copy d))
    (hc : StepInOrder k s e.canonical lost mapped (.write copy d))
    (h : writeStep k s e lost copy d = (s', pc')) :
    AppliedOk s' ∧ Grows s s' ∧ PcOk s' e.canonical pc' := by
  have stay (l : Option ℕ) : AppliedOk s ∧ Grows s s ∧ PcOk s e.canonical (.finalize l .retryLater) :=
    ⟨hs, .refl s, fun h => nomatch h⟩
  obtain ⟨hat, hd⟩ := hok
  unfold writeStep at h
  split at h
  · rename_i l hl
    split at h
    · rename_i hw
      simp only [Bool.and_eq_true, Bool.not_eq_true'] at hw
      obtain ⟨hnew, hsame⟩ := hc hw.1 hw.2
      have hord := hs.newest hnew
      cases d with
      | update =>
        cases h
        have hcan : e.canonical.isCancelled = false :=
          Bool.eq_false_iff.mpr fun hcan => nomatch hd.mpr hcan
        obtain ⟨ha, hg, hset⟩ := hs.apply hord (carries_updated copy l hcan) le_rfl
          (fun _ => rfl) (fun l₀ hl₀ => hnew.1 l₀ hl₀)
        exact ⟨ha, hg, fun _ => hset⟩
      | cancel =>
        cases h
        have hcan := hd.mp rfl
        have hver : l.version = copy.version := hsame rfl l hl
        obtain ⟨ha, hg, hset⟩ := hs.apply (l := cancelledLineage copy l) hord
          (carries_cancelled copy l hcan) (hver ▸ hnew.1 l hl)
          (fun hno => by rw [hcan] at hno; cases hno)
          (fun l₀ hl₀ => by rw [hl] at hl₀; cases hl₀; exact hver.le)
        exact ⟨ha, hg, fun _ => hset⟩
    · cases h
      exact stay _
  · cases h
    exact stay _

/-- The counter is not part of the invariant. -/
theorem AppliedOk.nextId (n : ℕ) (h : AppliedOk s) : AppliedOk { s with nextId := n } :=
  ⟨h.sorted, h.absent, h.carries, h.logged⟩

/-- The upsert of a creation. -/
theorem upsertStep_inOrder {found : Option ℕ} {a : IngestAnswer} (hs : AppliedOk s)
    (hok : PcOk s c (.upsert found a)) (hc : StepInOrder k s c lost mapped (.upsert found a))
    (h : upsertStep s c found a = (s', pc')) : AppliedOk s' ∧ Grows s s' ∧ PcOk s' c pc' := by
  obtain ⟨hcan, -, hfound⟩ := hok
  have written (hord : ∀ x ∈ s.applied, x.version ≤ c.version)
      (hgrow : ∀ l₀, s.lineage = some l₀ → l₀.version ≤ c.version) (l : Option ℕ) :
      AppliedOk { s.apply c (createdLineage s.nextId c) with nextId := s.nextId + 1 } ∧
      Grows s { s.apply c (createdLineage s.nextId c) with nextId := s.nextId + 1 } ∧
      PcOk { s.apply c (createdLineage s.nextId c) with nextId := s.nextId + 1 } c
        (.after l a) := by
    obtain ⟨ha, hg, hset⟩ := hs.apply hord (carries_created s.nextId hcan) le_rfl
      (fun _ => rfl) hgrow
    exact ⟨ha.nextId _, ⟨hg.version, hg.log⟩, fun _ => hset⟩
  unfold upsertStep at h
  split at h
  · rename_i id l hl
    have hc' := hc l hl
    split at h
    · rename_i hid
      rw [if_pos hid] at hc'
      cases h
      exact written (hs.newest hc') (fun l₀ hl₀ => hc'.1 l₀ hl₀) none
    · rename_i hid
      rw [if_neg hid] at hc'
      cases h
      refine ⟨hs, .refl s, fun _ => ?_⟩
      simpa [Settled] using hc'
  · rename_i hl
    cases h
    exact written (by simp [hs.absent hl]) (fun l₀ hl₀ => by rw [hl] at hl₀; cases hl₀) none
  · rename_i hl
    exact absurd hl (hfound (by simp))
  · cases h
    exact ⟨hs, .refl s, fun h => nomatch h⟩

theorem decide_inOrder {copy : Option Lineage} (hs : AppliedOk s) (hok : PcOk s c (.decide copy))
    (hc : StepInOrder k s c lost mapped (.decide copy)) : let s' := if decideEvent c copy mapped = .skipSameHash then s.noteSkip c else s
    AppliedOk s' ∧ Grows s s' ∧ PcOk s' c (decided copy (decideEvent c copy mapped)) := by
  intro s'
  by_cases hskip : decideEvent c copy mapped = .skipSameHash
  · have hs' : s' = s.noteSkip c := if_pos hskip
    rw [hs', hskip]
    simp only [decided]
    unfold Store.noteSkip
    split
    · rename_i hnew
      obtain ⟨l, hl, hcar⟩ := hc hskip hnew
      have hord : ∀ x ∈ s.applied, x.version ≤ c.version := by
        simpa [Store.isNewest] using hnew
      refine ⟨⟨pairwise_cons.mpr ⟨hord, hs.sorted⟩, fun h => ?_, fun l' hl' => ?_,
        fun x hx => ?_⟩, ⟨fun l h => ⟨l, h, le_rfl⟩, suffix_cons c _⟩,
        fun _ => ⟨c, mem_cons_self, le_rfl⟩⟩
      · rw [show s.lineage = none from h] at hl
        cases hl
      · obtain ⟨x, rest, hx, -, hle⟩ := hs.carries l' hl'
        rw [show s.lineage = some l' from hl'] at hl
        cases hl
        exact ⟨c, s.applied, rfl, hcar, hle.trans (hord x (by simp [hx]))⟩
      · rcases mem_cons.mp hx with rfl | hx
        · exact .inr mem_cons_self
        · exact (hs.logged x hx).imp_right (mem_cons_of_mem _)
    · rename_i hnew
      refine ⟨hs, .refl s, fun _ => ?_⟩
      obtain ⟨x, hx, hlt⟩ : ∃ x ∈ s.applied, c.version < x.version := by
        simpa [Store.isNewest] using hnew
      exact ⟨x, hx, hlt.le⟩
  · have hs' : s' = s := if_neg hskip
    rw [hs']
    refine ⟨hs, .refl s, ?_⟩
    cases hdec : decideEvent c copy mapped with
    | create =>
      exact ⟨not_cancelled (by rw [hdec]; simp), .inl rfl⟩
    | update =>
      have hcan : c.isCancelled = false := not_cancelled (by rw [hdec]; simp)
      cases copy with
      | none => exact fun h => nomatch h
      | some l => exact ⟨hok, by simp [hcan]⟩
    | cancel =>
      have hcan := decideEvent_cancel.mp hdec
      cases copy with
      | none => exact fun h => nomatch h
      | some l => exact ⟨hok, by simp [hcan]⟩
    | skipSameHash => exact absurd hdec hskip
    | skipStale =>
      intro _
      obtain ⟨l, rfl, hle⟩ := decideEvent_skipStale hdec
      obtain ⟨l₀, hl₀, hv⟩ := hok
      exact AtLeast.settled hs ⟨l₀, hl₀, hle.trans hv⟩
    | pendingMapping =>
      cases copy with
      | none => exact ⟨not_cancelled (by rw [hdec]; simp), .inr rfl⟩
      | some l => exact fun h => nomatch h
    | manualReview => exact fun h => nomatch h

/-- One operation of a call. -/
theorem ingestStep_inOrder (hs : AppliedOk s) (hok : PcOk s e.canonical pc)
    (hc : StepInOrder k s e.canonical lost o.mapped pc)
    (h : ingestStep k s e lost o pc = some (s', pc')) :
    AppliedOk s' ∧ Grows s s' ∧ PcOk s' e.canonical pc' := by
  cases pc with
  | dedup =>
    simp only [ingestStep] at h
    split at h <;> cases h
    · exact ⟨hs, .refl s, fun h => by cases h⟩
    · exact ⟨hs, .refl s, trivial⟩
  | read =>
    simp only [ingestStep] at h
    split at h
    · rename_i l hl
      split at h <;> cases h
      · rename_i hst
        simp only [staleVersion, Bool.and_eq_true, decide_eq_true_eq] at hst
        exact ⟨hs, .refl s, fun _ => AtLeast.settled hs ⟨l, hl, hst.2.2⟩⟩
      · exact ⟨hs, .refl s, ⟨l, hl, le_rfl⟩⟩
    · cases h
      exact ⟨hs, .refl s, trivial⟩
  | decide copy => cases h; exact decide_inOrder hs hok hc
  | acquire copy d =>
    simp only [ingestStep] at h
    split at h
    · rename_i l hl
      split at h <;> cases h
      · obtain ⟨ha, hg⟩ := hs.lease (fun l => { l with lock := some ⟨k, s.now + lockTtlSeconds⟩ })
          fun l => ⟨_, rfl⟩
        rw [hl] at ha hg
        exact ⟨ha, hg, (show PcOk s e.canonical (.write copy d) from hok).grow hg⟩
      · exact ⟨hs, .refl s, fun h => by cases h⟩
    · cases h
      exact ⟨hs, .refl s, fun h => by cases h⟩
  | write copy d => exact writeStep_inOrder hs hok hc (Option.some.inj h)
  | find a =>
    cases h
    exact ⟨hs, .refl s, hok.1, hok.2, by cases hl : s.lineage <;> simp⟩
  | upsert found a => exact upsertStep_inOrder hs hok hc (Option.some.inj h)
  | after l a =>
    simp only [ingestStep] at h
    split at h
    · cases h
      exact ⟨hs, .refl s, fun h => by cases h⟩
    · split at h <;> cases h
      · exact ⟨hs, .refl s, hok⟩
      · exact ⟨hs, .refl s, fun h => by cases h⟩
  | finalize l a =>
    cases h
    obtain ⟨ha, hg⟩ := hs.same_lineage { s with
      finalized := ⟨e.providerEventId, e.payloadHash, a⟩ :: s.finalized } rfl rfl rfl
    exact ⟨ha, hg, (show PcOk s e.canonical (.release l a) from hok).grow hg⟩
  | release l a =>
    simp only [ingestStep] at h
    split at h <;> cases h
    · exact ⟨hs, .refl s, hok⟩
    · rename_i id
      obtain ⟨ha, hg⟩ := hs.lease (fun x => if x.id = id && x.lock.any (fun y => y.owner == k)
        then { x with lock := none } else x) fun l => by split <;> exact ⟨_, rfl⟩
      exact ⟨ha, hg, (show PcOk s e.canonical (.returned a) from hok).grow hg⟩
  | returned a => cases h
  | crashed => cases h

/-! ### Runs of the pipeline -/

theorem AppliesInOrder.at_step (h : AppliesInOrder p (.step k (.advance o)))
    (ht : p.threads[k]? = some t) :
    StepInOrder k p.store t.event.canonical t.lost o.mapped t.pc := h t (by rw [ht]; rfl)

/-- The lease keeper changes nothing but the lease. -/
theorem extend_inOrder (k id : ℕ) (hs : AppliedOk s) :
    AppliedOk (extendReservationLock k s id) ∧ Grows s (extendReservationLock k s id) :=
  hs.lease _ fun l => by split <;> exact ⟨_, rfl⟩

def ThreadOk (s : Store) (_ : ℕ) (t : Thread) : Prop := PcOk s t.event.canonical t.pc

theorem pcOk_raised (h : PcOk s c pc) : PcOk s c pc.raised := by
  cases pc with
  | finalize l a => cases a <;> exact fun h => nomatch h
  | release l a => exact h
  | _ => exact fun h => nomatch h

theorem threadStep_inOrder (hs : AppliedOk p.store) (hok : ThreadOk p.store k t)
    (ht : p.threads[k]? = some t) (hc : AppliesInOrder p (.step k m))
    (h : t.step k p.store m = some (s', t')) :
    AppliedOk s' ∧ Grows p.store s' ∧ ThreadOk s' k t' := by
  cases m with
  | advance o =>
    obtain ⟨⟨s₁, pc'⟩, hst, heq⟩ := Option.map_eq_some_iff.mp h
    cases heq
    exact ingestStep_inOrder hs hok (hc.at_step ht) hst
  | raise =>
    simp only [Thread.step] at h
    split at h <;> cases h
    exact ⟨hs, .refl _, pcOk_raised hok⟩
  | crash =>
    simp only [Thread.step] at h
    split at h <;> cases h
    exact ⟨hs, .refl _, trivial⟩
  | heartbeat ok =>
    obtain ⟨id, -, h⟩ := Option.map_eq_some_iff.mp h
    split at h <;> cases h
    · obtain ⟨ha, hg⟩ := extend_inOrder k id hs
      exact ⟨ha, hg, PcOk.grow hok hg⟩
    · exact ⟨hs, .refl _, hok⟩

/-- Calls that meet the condition are free of interference. -/
theorem preserves_inOrder :
    calls.Preserves AppliesInOrder AppliedOk ThreadOk (fun _ _ => True) where
  symm _ _ _ := trivial
  init s h := by
    obtain ⟨hl, ha, -⟩ := h
    refine ⟨by simp [ha], fun _ => ha, fun l hl' => ?_, by simp [ha]⟩
    rw [hl] at hl'
    cases hl'
  env p _ s' hi _ h := by
    cases h
    obtain ⟨ha, hg⟩ := hi.store.same_lineage { p.store with now := p.store.now + 1 }
      rfl rfl rfl
    exact ⟨ha, fun k t ht => PcOk.grow (hi.thread k t ht) hg⟩
  call p e t _ _ h := by
    cases h
    exact ⟨trivial, fun _ _ => trivial⟩
  step p k m t s' t' hi hc ht h := by
    obtain ⟨ha, hg, hok⟩ := threadStep_inOrder hi.store (hi.thread k t ht) ht hc h
    exact ⟨ha, hok, fun j u _ hu => ⟨PcOk.grow (hi.thread j u hu) hg, trivial⟩⟩

/-! ### The applied events are events of the calls -/

/-- A call for the event was started. -/
def Delivered (p : Pool Store Thread) (c : Canonical) : Prop :=
  ∃ t ∈ p.threads, t.event.canonical = c

theorem applied_ingestStep (h : ingestStep k s e lost o pc = some (s', pc')) :
    ∀ x ∈ s'.applied, x ∈ s.applied ∨ x = e.canonical := by
  cases pc with
  | dedup | read | acquire copy d | after l a | release l a =>
    simp only [ingestStep] at h
    repeat' split at h
    all_goals cases h; exact fun x hx => .inl hx
  | decide copy =>
    cases h
    intro x hx
    simp only [Store.noteSkip] at hx
    repeat' split at hx
    · exact (mem_cons.mp hx).symm
    · exact .inl hx
    · exact .inl hx
  | write copy d =>
    simp only [ingestStep, writeStep, Option.some.injEq] at h
    repeat' split at h
    all_goals cases h; intro x hx
    · exact (mem_cons.mp hx).symm
    · exact (mem_cons.mp hx).symm
    · exact .inl hx
    · exact .inl hx
  | find a => cases h; exact fun x hx => .inl hx
  | finalize l a => cases h; exact fun x hx => .inl hx
  | upsert found a =>
    simp only [ingestStep, upsertStep, Option.some.injEq] at h
    repeat' split at h
    all_goals cases h; intro x hx
    · exact (mem_cons.mp hx).symm
    · exact .inl hx
    · exact (mem_cons.mp hx).symm
    · exact .inl hx
    · exact .inl hx
  | returned a => cases h
  | crashed => cases h

theorem threadStep_event (h : t.step k s m = some (s', t')) : t'.event = t.event ∧
      ∀ x ∈ s'.applied, x ∈ s.applied ∨ x = t.event.canonical := by
  cases m with
  | advance o =>
    obtain ⟨⟨s₁, pc'⟩, hst, heq⟩ := Option.map_eq_some_iff.mp h
    cases heq
    exact ⟨rfl, applied_ingestStep hst⟩
  | raise | crash =>
    simp only [Thread.step] at h
    split at h <;> cases h
    exact ⟨rfl, fun x hx => .inl hx⟩
  | heartbeat ok =>
    obtain ⟨id, -, h⟩ := Option.map_eq_some_iff.mp h
    split at h <;> cases h <;> exact ⟨rfl, fun x hx => .inl hx⟩

theorem Delivered.next {p' : Pool Store Thread} {a : Act Unit RawEvent Move} (h : Delivered p c)
    (hn : calls.machine.step p a = some p') : Delivered p' c := by
  obtain ⟨t, ht, hc⟩ := h
  cases a with
  | env v => exact ⟨t, (Program.next_env hn).2 ▸ ht, hc⟩
  | call e =>
    obtain ⟨u, -, -, hu⟩ := Program.next_call hn
    exact ⟨t, by simp [hu, ht], hc⟩
  | step k m =>
    obtain ⟨u, u', hu, hs, hset⟩ := Program.next_step hn
    obtain ⟨t', ht', he⟩ := Program.exists_mem_set (f := Thread.event) hu
      (threadStep_event hs).1 ht
    exact ⟨t', hset ▸ ht', he ▸ hc⟩

theorem delivered_of_applied {C : Pool Store Thread → Act Unit RawEvent Move → Prop}
    (h : calls.machine.Reach C p) : ∀ c ∈ p.store.applied, Delivered p c := by
  refine h.invariant (fun p => ∀ c ∈ p.store.applied, Delivered p c) (fun p h₀ c hc => ?_)
    (fun p a p' ih _ hn c hc => ?_)
  · rw [h₀.1.2.1] at hc
    cases hc
  · cases a with
    | env v =>
      have hs := Option.some.inj (Program.next_env hn).1
      exact (ih c (by rw [← hs] at hc; exact hc)).next hn
    | call e =>
      obtain ⟨u, -, hs, -⟩ := Program.next_call hn
      exact (ih c (hs ▸ hc)).next hn
    | step k m =>
      obtain ⟨u, u', hu, hs, -⟩ := Program.next_step hn
      obtain hc | rfl := (threadStep_event hs).2 c hc
      · exact (ih c hc).next hn
      · have hd : Delivered p u.event.canonical := ⟨u, mem_of_getElem? hu, rfl⟩
        exact hd.next hn

/-! ### The newest version is applied -/

def LastApplied (s : Store) (c : Canonical) : Prop := s.applied.head? = some c

theorem LastApplied.max {x : Canonical} (hs : AppliedOk s) (h : LastApplied s c)
    (hx : x ∈ s.applied) : x.version ≤ c.version := by
  obtain ⟨rest, hr⟩ := head?_eq_some_iff.mp h
  have hsort := hs.sorted
  rw [hr] at hx hsort
  rcases mem_cons.mp hx with rfl | hx
  · exact le_rfl
  · exact (pairwise_cons.mp hsort).1 x hx

/-- In every run in order: the version of the lineage never decreases; the event that the
lineage shows is one of the delivered ones, and only gives way to one that is not older,
so that a newer cancellation is not undone by an older event; and no call is settled for
an event newer than the one the lineage shows. -/
theorem newest_version_applied {p : Pool Store Thread}
    (h : calls.machine.Reach AppliesInOrder p) :
    (∀ p', calls.machine.Path AppliesInOrder p p' →
      (∀ l, p.store.lineage = some l →
        ∃ l', p'.store.lineage = some l' ∧ l.version ≤ l'.version) ∧
      ∀ c c', LastApplied p.store c → LastApplied p'.store c' → c.version ≤ c'.version) ∧
    (∀ l, p.store.lineage = some l →
      ∃ c, LastApplied p.store c ∧ Delivered p c ∧ Carries l c) ∧
    ∀ t ∈ p.threads, ∀ a, t.pc = .returned a → a.settled = true →
      ∃ c, LastApplied p.store c ∧ t.event.canonical.version ≤ c.version := by
  have hi := preserves_inOrder.reach h
  refine ⟨fun p' hp => ?_, fun l hl => ?_, fun t ht a hpc ha => ?_⟩
  · have hg : Grows p.store p'.store := by
      refine preserves_inOrder.path Grows.refl Grows.trans (fun q v s' hq _ hs => ?_)
        (fun q k m t s' t' hq hc ht hs => ?_) hi hp
      · cases hs
        exact (hq.store.same_lineage { q.store with now := q.store.now + 1 }
          rfl rfl rfl).2
      · exact (threadStep_inOrder hq.store (hq.thread k t ht) ht hc hs).2.1
    refine ⟨hg.version, fun c c' hc hc' => ?_⟩
    obtain ⟨rest, hr⟩ := head?_eq_some_iff.mp hc
    exact hc'.max (preserves_inOrder.reach (h.trans hp)).store
      (hg.log.subset (by simp [hr]))
  · obtain ⟨c, rest, hc, hcar, -⟩ := hi.store.carries l hl
    exact ⟨c, by simp [LastApplied, hc], delivered_of_applied h c (by simp [hc]), hcar⟩
  · obtain ⟨k, hk⟩ := mem_iff_getElem?.mp ht
    have hok := hi.thread k t hk
    simp only [ThreadOk, hpc] at hok
    obtain ⟨x, hx, hle⟩ := hok ha
    obtain ⟨c, hc⟩ : ∃ c, LastApplied p.store c := by
      cases happ : p.store.applied with
      | nil => rw [happ] at hx; cases hx
      | cons c rest => exact ⟨c, by simp [LastApplied, happ]⟩
    exact ⟨c, hc, hle.trans (hc.max hi.store hx)⟩

/-! ### Examples of runs -/

def sampleEvent (version : ℕ) (status : ReservationState) : RawEvent where
  canonical := { version, status := .state status, details := { checkOut := version } }
  providerEventId := version
  payloadHash := version

def operations (k n : ℕ) : List (Act Unit RawEvent Move) := .replicate n (.step k (.advance {}))

/-- The version and the status of the lineage, and the answers of the calls. -/
def eventsSeen (p : Pool Store Thread) :
    Option (ℕ × ReservationState) × List (ℕ × IngestAnswer) :=
  (p.store.lineage.map fun l => (l.version, l.status), p.threads.filterMap fun t =>
    match t.pc with
    | .returned a => some (t.event.canonical.version, a)
    | _ => none)

/-- A creation, a change and a cancellation, in order. -/
def ingestedInTurn : List (Act Unit RawEvent Move) :=
  .call (sampleEvent 1 .confirmed) :: operations 0 8 ++
    .call (sampleEvent 2 .modified) :: operations 1 8 ++
    .call (sampleEvent 3 .cancelled) :: operations 2 8

/-- Two changes that both read the created lineage; the newer takes the lease first. -/
def ingestedTogether : List (Act Unit RawEvent Move) :=
  .call (sampleEvent 1 .confirmed) :: operations 0 8 ++
    [.call (sampleEvent 2 .modified), .call (sampleEvent 3 .modified)] ++
    operations 1 3 ++ operations 2 8 ++ operations 1 5

/-- A change that arrives after a newer cancellation. -/
def ingestedLate : List (Act Unit RawEvent Move) :=
  .call (sampleEvent 1 .confirmed) :: operations 0 8 ++
    .call (sampleEvent 3 .cancelled) :: operations 1 8 ++
    .call (sampleEvent 2 .confirmed) :: operations 2 8

theorem newest_version_applied_inTurn : ∃ p, calls.machine.Reach AppliesInOrder p ∧
    eventsSeen p = (some (2, .cancelled), [(1, .created), (2, .updated), (3, .cancelled)]) ∧
    ∀ t ∈ p.threads, ∀ a, t.pc = .returned a → a.settled = true →
      ∃ c, LastApplied p.store c ∧ t.event.canonical.version ≤ c.version := by
  obtain ⟨p, hp, hseen⟩ := Machine.exists_reach_of_runUnder (M := calls.machine)
    (C := AppliesInOrder) (f := eventsSeen)
    (v := (some (2, .cancelled), [(1, .created), (2, .updated), (3, .cancelled)]))
    ingestedInTurn emptyStore_init (by decide +kernel)
  exact ⟨p, hp, hseen, (newest_version_applied hp).2.2⟩

/-- An older change is written over a newer one, and a cancelled lineage is turned back
to modified by an event older than the cancellation. -/
theorem older_version_applied :
    (∃ p, calls.machine.Reachable p ∧ eventsSeen p =
      (some (2, .modified), [(1, .created), (2, .updated), (3, .updated)])) ∧
    ∃ p, calls.machine.Reachable p ∧ eventsSeen p =
      (some (2, .modified), [(1, .created), (3, .cancelled), (2, .updated)]) :=
  ⟨Machine.exists_reachable_of_run ingestedTogether emptyStore_init (by decide +kernel),
    Machine.exists_reachable_of_run ingestedLate emptyStore_init (by decide +kernel)⟩

end SyrocePms.Ingest
