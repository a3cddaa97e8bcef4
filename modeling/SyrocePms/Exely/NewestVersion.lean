import SyrocePms.Exely.Calls

/-! The newest version wins, as long as every write of the row meets the row it was
compared with. The write is a compare-and-set on the identity that was read, and a loser
is not compared with the winner; a first delivery does not compare at all with a row that
appeared after its reads. -/

namespace SyrocePms.Exely

open Reservation Lib

variable {s s' : Store} {i : ℤ} {e : Delivery} {pc pc' : PersistPc} {r w : Row} {p : Prepared}
  {k : ℕ} {t t' : Thread} {m : Move}

def Store.newerThan (s : Store) (i : ℤ) : Bool := s.row.any fun r => decide (i < r.instant)

/-- What the write of the row may meet: the compare-and-set finds the row that was read,
or a newer version than its own; the upsert of a first delivery finds no row, a row that
is not newer, or the duplicate-key error. -/
def RowWriteOrdered (s : Store) (e : Delivery) (o : Outside) : PersistPc → Prop
  | .storeRow p =>
    match p.current, s.row with
    | some r, _ => s.isCurrent r.key = true ∨ s.newerThan e.instant = true
    | none, some w => o.raced = true ∨ w.instant ≤ e.instant
    | none, none => True
  | .retry _ w => s.isCurrent w.key = true ∨ s.newerThan e.instant = true
  | _ => True

instance (s : Store) (e : Delivery) (o : Outside) (pc : PersistPc) :
    Decidable (RowWriteOrdered s e o pc) := by
  unfold RowWriteOrdered
  split
  · split <;> infer_instance
  · infer_instance
  · infer_instance

def OrderedWrites (p : Pool Store Thread) : Act Env Call Move → Prop
  | .step k (.advance o) =>
    match p.threads[k]? with
    | some (.persist e pc) => RowWriteOrdered p.store e o pc
    | _ => True
  | _ => True

instance (p : Pool Store Thread) (a : Act Env Call Move) : Decidable (OrderedWrites p a) := by
  rcases a with _ | _ | ⟨k, _ | _⟩ <;> unfold OrderedWrites <;> try infer_instance
  dsimp only
  rcases p.threads[k]? with _ | (_ | _) <;> infer_instance

/-! ### The row grows -/

/-- The row stays, and its version does not become older. -/
def RowGrows (s s' : Store) : Prop :=
  ∀ r, s.row = some r → ∃ r', s'.row = some r' ∧ r.instant ≤ r'.instant

namespace RowGrows

theorem refl (s : Store) : RowGrows s s := fun r h => ⟨r, h, le_rfl⟩

theorem trans (s t u : Store) (h : RowGrows s t) (h' : RowGrows t u) : RowGrows s u := by
  intro r hr
  obtain ⟨r₁, hr₁, h₁⟩ := h r hr
  obtain ⟨r₂, hr₂, h₂⟩ := h' r₁ hr₁
  exact ⟨r₂, hr₂, h₁.trans h₂⟩

theorem of_key (h : s'.row.map Row.key = s.row.map Row.key) : RowGrows s s' := by
  intro r hr
  rw [hr, Option.map_some, Option.map_eq_some_iff] at h
  obtain ⟨r', hr', hk⟩ := h
  simp only [Row.key, VersionKey.stamped.injEq] at hk
  exact ⟨r', hr', hk.1.ge⟩

theorem of_row (h : s'.row = s.row) : RowGrows s s' :=
  of_key (by rw [h])

end RowGrows

/-- The row is at least as new as `i`, or newer. -/
def AtLeast (s : Store) (i : ℤ) : Prop := ∃ r, s.row = some r ∧ i ≤ r.instant

def Above (s : Store) (i : ℤ) : Prop := ∃ r, s.row = some r ∧ i < r.instant

theorem AtLeast.grow (h : AtLeast s i) (hg : RowGrows s s') : AtLeast s' i := by
  obtain ⟨r, hr, hi⟩ := h
  obtain ⟨r', hr', hle⟩ := hg r hr
  exact ⟨r', hr', hi.trans hle⟩

theorem Above.grow (h : Above s i) (hg : RowGrows s s') : Above s' i := by
  obtain ⟨r, hr, hi⟩ := h
  obtain ⟨r', hr', hle⟩ := hg r hr
  exact ⟨r', hr', hi.trans_le hle⟩

theorem Above.atLeast (h : Above s i) : AtLeast s i := by
  obtain ⟨r, hr, hi⟩ := h
  exact ⟨r, hr, hi.le⟩

theorem above_of_newerThan (h : s.newerThan i = true) : Above s i := by
  simpa [Store.newerThan, Above, Option.any_eq_true] using h

/-! ### What a delivery knows -/

def Older (e : Delivery) (current : Option Row) : Prop :=
  ∀ r, current = some r → r.instant < e.instant

def PersistOk (s : Store) (e : Delivery) : PersistPc → Prop
  | .mapping current => Older e current
  | .storeVersion p | .storeRow p => Older e p.current
  | .retry _ w => w.instant < e.instant
  | .markStale | .returned .staleEvent => Above s e.instant
  | .markConflict | .alarm _ => AtLeast s e.instant
  | .find | .refind | .winner _ | .crashed | .returned .raised => True
  | .returned _ => AtLeast s e.instant

theorem PersistOk.grow (h : PersistOk s e pc) (hg : RowGrows s s') : PersistOk s' e pc := by
  cases pc with
  | returned a =>
    cases a with
    | staleEvent => exact Above.grow h hg
    | raised => trivial
    | _ => exact AtLeast.grow h hg
  | markStale => exact Above.grow h hg
  | markConflict | alarm _ => exact AtLeast.grow h hg
  | _ => exact h

theorem persistOk_compared (hr : s.row = some r) : PersistOk s e (.compared e r) := by
  unfold PersistPc.compared
  split
  · rename_i hlt
    exact ⟨r, hr, compare_lt_iff_lt.mp hlt⟩
  · rename_i heq
    have := compare_eq_iff_eq.mp heq
    split <;> exact ⟨r, hr, this.le⟩
  · rename_i hgt
    intro r' hr'
    cases hr'
    exact compare_gt_iff_gt.mp hgt

theorem persistOk_resolve : PersistOk s e (resolve s e p) := by
  unfold resolve
  split
  · trivial
  · rename_i w hw
    have clash (h : e.instant = w.instant) : PersistOk s e
        (if w.payload = e.payload then .returned .duplicatePayload else .markConflict) := by
      split <;> exact ⟨w, hw, h.le⟩
    simp only
    split
    · rename_i hk
      simp only [Row.key, Delivery.key, VersionKey.stamped.injEq] at hk
      exact clash hk.1.symm
    · split
      · rename_i hlt
        exact ⟨w, hw, compare_lt_iff_lt.mp hlt⟩
      · rename_i heq
        exact clash (compare_eq_iff_eq.mp heq)
      · rename_i hgt
        exact compare_gt_iff_gt.mp hgt

theorem atLeast_putRow (s : Store) (e : Delivery) (status : PmsStatus) :
    AtLeast (s.putRow e status) e.instant := ⟨_, rfl, le_rfl⟩

theorem persistOk_stored (h : AtLeast s e.instant) : PersistOk s e (stored e p) := by
  unfold stored
  split
  · exact h
  · split
    · exact h
    · split <;> exact h

/-- A row that is not newer gives way to the delivery. -/
theorem rowGrows_putRow {status : PmsStatus} (h : ∀ r, s.row = some r → r.instant ≤ e.instant) :
    RowGrows s (s.putRow e status) :=
  fun r hr => ⟨_, rfl, h r hr⟩

theorem instant_of_isCurrent (h : s.isCurrent w.key = true) (hr : s.row = some r) :
    r.instant = w.instant := by
  obtain ⟨r', hr', hk⟩ := Store.isCurrent_iff.mp h
  rw [hr] at hr'
  cases hr'
  simp only [Row.key, VersionKey.stamped.injEq] at hk
  exact hk.1

theorem compareAndSet_spec (hw : w.instant < e.instant)
    (hc : s.isCurrent w.key = true ∨ s.newerThan e.instant = true)
    (h : compareAndSet s e p w = (s', pc')) : RowGrows s s' ∧ PersistOk s' e pc' := by
  rw [compareAndSet_eq] at h
  split at h
  · rename_i hcur
    cases h
    refine ⟨rowGrows_putRow fun r hr => ?_, persistOk_stored (atLeast_putRow s e _)⟩
    have := instant_of_isCurrent hcur hr
    omega
  · rename_i hcur
    cases h
    exact ⟨.refl s, above_of_newerThan (hc.resolve_left hcur)⟩

theorem persistStep_ordered {o : Outside} (hok : PersistOk s e pc) (hc : RowWriteOrdered s e o pc)
    (h : persistStep s e o pc = some (s', pc')) : RowGrows s s' ∧ PersistOk s' e pc' := by
  cases pc with
  | find =>
    simp only [persistStep] at h
    split at h <;> cases h
    · exact ⟨.refl s, trivial⟩
    · rename_i r hr
      exact ⟨.refl s, persistOk_compared hr⟩
  | refind =>
    simp only [persistStep] at h
    split at h <;> cases h
    · exact ⟨.refl s, fun r hr => by cases hr⟩
    · rename_i r hr
      exact ⟨.refl s, persistOk_compared hr⟩
  | mapping current => cases h; exact ⟨.refl s, hok⟩
  | storeVersion p => cases h; exact ⟨.of_row rfl, hok⟩
  | storeRow p =>
    simp only [persistStep, storeRow, Option.some.injEq] at h
    simp only [RowWriteOrdered] at hc
    split at h
    · rename_i r hp
      rw [hp] at hc
      exact compareAndSet_spec (hok r hp) hc h
    · rename_i hp hrow
      cases h
      refine ⟨rowGrows_putRow fun r hr => ?_, persistOk_stored (atLeast_putRow s e _)⟩
      rw [hrow] at hr
      cases hr
    · rename_i w hp hrow
      simp only [hp, hrow] at hc
      split at h
      · cases h
        exact ⟨.refl s, trivial⟩
      · rename_i hraced
        cases h
        refine ⟨rowGrows_putRow fun r hr => ?_, persistOk_stored (atLeast_putRow s e _)⟩
        rw [hrow] at hr
        cases hr
        exact hc.resolve_left hraced
  | winner p => cases h; exact ⟨.refl s, persistOk_resolve⟩
  | retry p w =>
    simp only [persistStep, Option.some.injEq] at h
    exact compareAndSet_spec hok hc h
  | markStale => cases h; exact ⟨.of_row rfl, hok⟩
  | markConflict => cases h; exact ⟨.of_row rfl, hok⟩
  | alarm p =>
    simp only [persistStep] at h
    split at h <;> cases h <;> exact ⟨.refl s, hok⟩
  | returned a => cases h
  | crashed => cases h

/-! ### The other calls keep the row -/

theorem rowGrows_step (hc : ∀ e pc o, t = .persist e pc → m = .advance o →
      PersistOk s e pc ∧ RowWriteOrdered s e o pc) (h : t.step k s m = some (s', t')) :
    RowGrows s s' := by
  obtain ⟨e, pc, pc', o, rfl, rfl, rfl, hs⟩ | ⟨hrow, -, -⟩ := step_cases h
  · obtain ⟨hok, hw⟩ := hc e pc o rfl rfl
    exact (persistStep_ordered hok hw hs).1
  · exact .of_key hrow

def DeliveryOk (s : Store) (_ : ℕ) : Thread → Prop
  | .persist e pc => PersistOk s e pc
  | _ => True

theorem DeliveryOk.grow (h : DeliveryOk s k t) (hg : RowGrows s s') : DeliveryOk s' k t := by
  cases t with
  | persist e pc => exact PersistOk.grow h hg
  | _ => trivial

theorem deliveryOk_start (s : Store) (k : ℕ) (c : Call) : DeliveryOk s k (Thread.start c) := by
  cases c with
  | persist e =>
    simp only [Thread.start]
    split <;> trivial
  | process key => trivial
  | acknowledge key => trivial

theorem deliveryOk_step (hok : DeliveryOk s k t)
    (hc : ∀ e pc o, t = .persist e pc → m = .advance o → RowWriteOrdered s e o pc)
    (h : t.step k s m = some (s', t')) : DeliveryOk s' k t' := by
  obtain ⟨e, pc, pc', o, rfl, rfl, rfl, hs⟩ | ⟨-, -, hover⟩ := step_cases h
  · exact (persistStep_ordered hok (hc e pc o rfl rfl) hs).2
  · cases t' with
    | persist e pc => obtain rfl | rfl := hover e pc rfl <;> trivial
    | _ => trivial

theorem OrderedWrites.at_step {p : Pool Store Thread} (h : OrderedWrites p (.step k m))
    (ht : p.threads[k]? = some t) (e : Delivery) (pc : PersistPc) (o : Outside)
    (he : t = .persist e pc) (hm : m = .advance o) : RowWriteOrdered p.store e o pc := by
  subst he hm
  simpa [OrderedWrites, ht] using h

theorem preserves_deliveryOk :
    calls.Preserves OrderedWrites (fun _ => True) DeliveryOk (fun _ _ => True) where
  symm _ _ _ := trivial
  init _ _ := trivial
  env p e s' hi _ h := by
    cases h
    exact ⟨trivial, fun k t ht => (hi.thread k t ht).grow (.of_row (Store.env_row _ e))⟩
  call p i t _ _ h := by
    cases h
    exact ⟨deliveryOk_start _ _ i, fun _ _ => trivial⟩
  step p k m t s' t' hi hc ht h := by
    have hok := hi.thread k t ht
    have hg : RowGrows p.store s' := rowGrows_step (fun e pc o he hm => by
      refine ⟨?_, hc.at_step ht e pc o he hm⟩
      simpa [DeliveryOk, he] using hok) h
    refine ⟨trivial, deliveryOk_step hok (fun e pc o => hc.at_step ht e pc o) h, ?_⟩
    exact fun j u _ hu => ⟨(hi.thread j u hu).grow hg, trivial⟩

/-! ### The stored version was delivered -/

def Delivered (p : Pool Store Thread) (e : Delivery) : Prop :=
  ∃ t ∈ p.threads, t.delivery? = some e

theorem Delivered.next {p p' : Pool Store Thread} {a : Act Env Call Move} (h : Delivered p e)
    (hn : calls.machine.step p a = some p') : Delivered p' e := by
  obtain ⟨t, ht, he⟩ := h
  cases a with
  | env v => exact ⟨t, (Program.next_env hn).2 ▸ ht, he⟩
  | call c =>
    obtain ⟨u, -, -, hu⟩ := Program.next_call hn
    exact ⟨t, by simp [hu, ht], he⟩
  | step k m =>
    obtain ⟨u, u', hu, hs, hset⟩ := Program.next_step hn
    obtain ⟨t', ht', hd⟩ := Program.exists_mem_set (f := Thread.delivery?) hu
      (delivery?_step hs) ht
    exact ⟨t', hset ▸ ht', hd ▸ he⟩

theorem delivered_of_row {p : Pool Store Thread} {C : Pool Store Thread → Act Env Call Move → Prop}
    (h : calls.machine.Reach C p) :
    ∀ r, p.store.row = some r → ∃ e, Delivered p e ∧ e.key = r.key := by
  refine h.invariant (fun p => ∀ r, p.store.row = some r → ∃ e, Delivered p e ∧ e.key = r.key)
    (fun p h₀ r hr => ?_) (fun p a p' ih _ hn r hr => ?_)
  · rw [h₀.1.1] at hr
    cases hr
  · have keep (hk : p'.store.row.map Row.key = p.store.row.map Row.key) :
        ∃ e, Delivered p' e ∧ e.key = r.key := by
      rw [hr, Option.map_some] at hk
      obtain ⟨r₀, hr₀, hk₀⟩ := Option.map_eq_some_iff.mp hk.symm
      obtain ⟨e, he, hek⟩ := ih r₀ hr₀
      exact ⟨e, he.next hn, hek.trans hk₀⟩
    cases a with
    | env v =>
      have hs := (Program.next_env hn).1
      exact keep (by rw [← Option.some.inj hs, Store.env_row])
    | call c =>
      obtain ⟨u, -, hs, -⟩ := Program.next_call hn
      exact keep (by rw [hs])
    | step k m =>
      obtain ⟨u, u', hu, hs, -⟩ := Program.next_step hn
      obtain hk | ⟨e, he, hk⟩ := row_step hs
      · exact keep hk
      · rw [hr, Option.map_some, Option.some.injEq] at hk
        have hd : Delivered p e := ⟨u, List.mem_of_getElem? hu, he⟩
        exact ⟨e, hd.next hn, hk.symm⟩

/-! ### The newest version wins -/

def Thread.answered : Thread → Prop
  | .persist _ (.returned a) => a ≠ .raised
  | _ => False

/-- What an answered call for a delivery knows of the row. -/
theorem atLeast_of_answered (h : DeliveryOk s k t) (he : t.delivery? = some e) (ha : t.answered) :
    AtLeast s e.instant := by
  cases t with
  | persist e' pc =>
    cases he
    cases pc with
    | returned a =>
      cases a with
      | raised => exact absurd rfl ha
      | staleEvent => exact Above.atLeast h
      | _ => exact h
    | _ => exact ha.elim
  | _ => cases he

/-- In every run whose writes are ordered: the version of the row never becomes older;
when all calls for the delivered events have answered, the row carries one of the
delivered versions, and none of them is newer; and a call only answers that its event is
stale when a newer event was delivered. -/
theorem newest_version_wins {p : Pool Store Thread}
    (h : calls.machine.Reach OrderedWrites p) :
    (∀ p', calls.machine.Path OrderedWrites p p' → RowGrows p.store p'.store) ∧
    ((∀ t ∈ p.threads, ∀ e, t.delivery? = some e → t.answered) → ∀ e, Delivered p e →
      ∃ r, p.store.row = some r ∧ (∃ e', Delivered p e' ∧ e'.key = r.key) ∧
        ∀ e', Delivered p e' → e'.instant ≤ r.instant) ∧
    (∀ e, Thread.persist e (.returned .staleEvent) ∈ p.threads →
      ∃ e', Delivered p e' ∧ e.instant < e'.instant) := by
  have hi := preserves_deliveryOk.reach h
  have hrow := delivered_of_row h
  refine ⟨fun p' hp => ?_, fun hall e ⟨t, ht, he⟩ => ?_, fun e hmem => ?_⟩
  · refine preserves_deliveryOk.path RowGrows.refl RowGrows.trans ?_ ?_ hi hp
    · intro q v s' _ _ hs
      cases hs
      exact .of_row (Store.env_row _ v)
    · intro q k m t s' t' hq hc ht hs
      refine rowGrows_step (fun e pc o he hm => ⟨?_, hc.at_step ht e pc o he hm⟩) hs
      simpa [DeliveryOk, he] using hq.thread k t ht
  · have known (e : Delivery) (t : Thread) (ht : t ∈ p.threads) (he : t.delivery? = some e) :
        AtLeast p.store e.instant := by
      obtain ⟨k, hk⟩ := List.mem_iff_getElem?.mp ht
      exact atLeast_of_answered (hi.thread k t hk) he (hall t ht e he)
    obtain ⟨r, hr, -⟩ := known e t ht he
    refine ⟨r, hr, hrow r hr, fun e' ⟨t', ht', he'⟩ => ?_⟩
    obtain ⟨r', hr', hle⟩ := known e' t' ht' he'
    rw [hr] at hr'
    cases hr'
    exact hle
  · obtain ⟨k, hk⟩ := List.mem_iff_getElem?.mp hmem
    obtain ⟨r, hr, hlt⟩ : Above p.store e.instant := hi.thread k _ hk
    obtain ⟨e', he', hkey⟩ := hrow r hr
    simp only [Delivery.key, Row.key, VersionKey.stamped.injEq] at hkey
    exact ⟨e', he', by omega⟩

/-! ### Runs -/

def deliveriesSeen (p : Pool Store Thread) : Option ℤ × List (ℤ × PersistAnswer) :=
  (p.store.row.map Row.instant, p.threads.filterMap fun
    | .persist e (.returned a) => some (e.instant, a)
    | _ => none)

def deliveredInTurn : List (Act Env Call Move) :=
  .call (.persist (sampleEvent 1)) :: operations 0 5 ++
    .call (.persist (sampleEvent 2)) :: operations 1 4

/-- Two first deliveries that both read no row; the newer writes first. -/
def deliveredTogether : List (Act Env Call Move) :=
  [.call (.persist (sampleEvent 1)), .call (.persist (sampleEvent 2))] ++
    operations 0 4 ++ operations 1 5 ++ operations 0 1

/-- Two deliveries that both read the first version; the older writes first. -/
def deliveredOverFirst : List (Act Env Call Move) :=
  .call (.persist (sampleEvent 1)) :: operations 0 5 ++
    [.call (.persist (sampleEvent 2)), .call (.persist (sampleEvent 3))] ++
    operations 2 3 ++ operations 1 4 ++ operations 2 2

theorem newest_version_inTurn : ∃ p, calls.machine.Reach OrderedWrites p ∧
    deliveriesSeen p = (some 2, [(1, .created .pending), (2, .updated .pending)]) ∧
    ∀ p', calls.machine.Path OrderedWrites p p' → RowGrows p.store p'.store := by
  obtain ⟨p, hp, hseen⟩ := Machine.exists_reach_of_runUnder (M := calls.machine)
    (C := OrderedWrites) (f := deliveriesSeen)
    (v := (some 2, [(1, .created .pending), (2, .updated .pending)]))
    deliveredInTurn emptyStore_init (by decide +kernel)
  exact ⟨p, hp, hseen, (newest_version_wins hp).1⟩

/-- The newest version is overwritten by an older one, and is turned away as stale in
favour of an older one. -/
theorem newest_version_lost :
    (∃ p, calls.machine.Reachable p ∧
      deliveriesSeen p = (some 1, [(1, .created .pending), (2, .created .pending)])) ∧
    ∃ p, calls.machine.Reachable p ∧
      deliveriesSeen p =
        (some 2, [(1, .created .pending), (2, .updated .pending), (3, .staleEvent)]) :=
  ⟨Machine.exists_reachable_of_run deliveredTogether emptyStore_init (by decide +kernel),
    Machine.exists_reachable_of_run deliveredOverFirst emptyStore_init (by decide +kernel)⟩

end SyrocePms.Exely
