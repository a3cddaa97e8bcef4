import SyrocePms.Ari.Recorded

/-! Convergence of a provider with what was published. The change sets that are still to be
pushed or in flight are the queue between the two. A cycle that acts on a row that has
moved on acknowledges what it has not sent, and one that sends a row before an older one
of the same cells is overtaken by it. -/

namespace SyrocePms.Ari

open Lib List

variable {E : Extranet} {s s' : Store}
variable {x : ChangeSet}

/-! ### The condition -/

/-- No older set that is still to be pushed or in flight has a cell in common. -/
def First (E : Extranet) (s : Store) (x : ChangeSet) : Prop :=
  ∀ r ∈ s.sets, r.status.outstanding = true → (r.update E).Meets (x.update E) → x.version ≤ r.version

/-- Where no later event is about a cell of the set, the provider has its value already;
and the set is the first. -/
def Settled (E : Extranet) (s : Store) (x : ChangeSet) : Prop :=
  First E s x ∧ ∀ c ∈ (x.update E).cells, (∀ u ∈ s.published, c ∈ u.cells → u.version ≤ x.version) →
    current s.delivered c = (x.update E).valueAt c

instance (s : Store) (x : ChangeSet) : Decidable (First E s x) := by
  unfold First
  infer_instance

instance (s : Store) (x : ChangeSet) : Decidable (Settled E s x) := by
  unfold Settled
  infer_instance

/-- A step acts on rows that are as they were left, pushes a set that is the first, merges
a content that has the cells of the one it replaces, and puts aside a set only when it is
settled. -/
def Orderly (E : Extranet) (s : Store) (t : Thread) (o : Chance) : Prop :=
  Fenced s t.pc o = true ∧ match t.pc with
  | .write (some k) d _ _ =>
    ∀ r ∈ s.sets[k]?, ∀ c ∈ (r.update E).cells, c ∈ (E.writes d.key d.payload).map Prod.fst
  | .gate x _ => o.mapped = true ∨ Settled E s x.set
  | .skip x _ => Settled E s x.set
  | .deliver x _ =>
    if o.adapter then First E s x.set
    else (noAdapterStatus t.call).outstanding = true ∨ Settled E s x.set
  | .answer x r _ =>
    r.isConfirmed = true ∨ (processAck x.set r).1.outstanding = true ∨ Settled E s x.set
  | _ => True

instance (s : Store) (t : Thread) (o : Chance) : Decidable (Orderly E s t o) := by
  unfold Orderly
  have : ∀ pc : Pc, Decidable (match pc with
    | .write (some k) d _ _ =>
      ∀ r ∈ s.sets[k]?, ∀ c ∈ (r.update E).cells, c ∈ (E.writes d.key d.payload).map Prod.fst
    | .gate x _ => o.mapped = true ∨ Settled E s x.set
    | .skip x _ => Settled E s x.set
    | .deliver x _ =>
      if o.adapter then First E s x.set
      else (noAdapterStatus t.call).outstanding = true ∨ Settled E s x.set
    | .answer x r _ =>
      r.isConfirmed = true ∨ (processAck x.set r).1.outstanding = true ∨ Settled E s x.set
    | _ => True) := fun pc => by split <;> infer_instance
  infer_instance

/-- A set is released from quarantine when no later event is about one of its cells. -/
def ReleasedFirst (E : Extranet) (s : Store) (tenant room : ℕ) (plan : Option ℕ)
    (provider : Option Provider) : Prop :=
  ∀ r ∈ s.sets, Store.isReleased tenant room plan provider r = true →
    ∀ u ∈ s.published, u.Meets (r.update E) → u.version ≤ r.version

instance (s : Store) (tenant room : ℕ) (plan : Option ℕ) (provider : Option Provider) :
    Decidable (ReleasedFirst E s tenant room plan provider) := by
  unfold ReleasedFirst
  infer_instance

def PushesInOrder (E : Extranet) (p : Pool Store Thread) : Act Env Call Move → Prop
  | .env (.releaseQuarantine tenant room plan provider) => ReleasedFirst E p.store tenant room plan provider
  | .step k (.advance o) => ∀ t ∈ p.threads[k]?, Orderly E p.store t o
  | _ => True

instance (p : Pool Store Thread) (a : Act Env Call Move) : Decidable (PushesInOrder E p a) := by
  unfold PushesInOrder
  split <;> infer_instance

/-! ### The queue -/

def Store.queue (E : Extranet) (s : Store) : Set (Update Cell Value) :=
  {u | ∃ x ∈ s.sets, x.status.outstanding = true ∧ x.update E = u}

/-- The queue is what stands between what was published and what was delivered. -/
def Fed (E : Extranet) (s : Store) : Prop := Feeds s.published s.delivered (s.queue E)

theorem Recorded.queue_published (hr : Recorded E s) : ∀ u ∈ s.queue E, u ∈ s.published := by
  rintro u ⟨x, hx, -, rfl⟩
  obtain ⟨k, hk⟩ := mem_iff_getElem?.mp hx
  exact hr.rows k x hk

theorem First.queue (h : First E s x) :
    ∀ w ∈ s.queue E, w.Meets (x.update E) → (x.update E).version ≤ w.version := by
  rintro w ⟨r, hmem, hout, rfl⟩ hmeets
  exact h r hmem hout hmeets

theorem Settled.current (h : Settled E s x) (c : Cell) (hlast : IsLast s.published (x.update E) c) :
    current s.delivered c = (x.update E).valueAt c := h.2 c hlast.cell hlast.last

theorem settled_of_isNone (h : (compileDelta x.key.provider x.key.scope x.payload).isNone = true) :
    Settled E s x := by
  rw [Option.isNone_iff_eq_none] at h
  have hno : ∀ c, c ∉ (x.update E).cells := fun c => by
    simp [Update.cells, ChangeSet.update, Extranet.writes, h]
  refine ⟨?_, fun c hxc => absurd hxc (hno c)⟩
  rintro _ _ _ ⟨c, _, hxc⟩
  exact absurd hxc (hno c)

theorem queue_updateStatus (st : SetStatus) (inc : Bool) {k : ℕ} {r : ChangeSet}
    (hget : s.sets[k]? = some r) (hout : r.status.outstanding = true) :
    (∀ u ∈ (s.updateStatus k st inc).queue E, u ∈ s.queue E) ∧
      (∀ u ∈ s.queue E, u ∉ (s.updateStatus k st inc).queue E → u = r.update E) ∧
      (st.outstanding = true → ∀ u ∈ s.queue E, u ∈ (s.updateStatus k st inc).queue E) := by
  have hrow : ∀ (j : ℕ) y, s.sets[j]? = some y → k ≠ j → (s.updateStatus k st inc).sets[j]? = some y := by
    intro j y hy hne
    rw [getElem?_updateStatus, hy, Option.map_some, if_neg hne]
  have hself : (s.updateStatus k st inc).sets[k]? = some (r.setStatus s.clock st inc) := by
    rw [getElem?_updateStatus, hget, Option.map_some, if_pos rfl]
  refine ⟨?_, ?_, ?_⟩
  · rintro u ⟨y, hy, hst, rfl⟩
    obtain ⟨j, hj⟩ := mem_iff_getElem?.mp hy
    rw [getElem?_updateStatus] at hj
    obtain ⟨y₀, hy₀, rfl⟩ := Option.map_eq_some_iff.mp hj
    split at hst
    · subst j
      rw [hget] at hy₀
      obtain rfl := Option.some.inj hy₀
      rw [if_pos rfl]
      exact ⟨r, mem_of_getElem? hget, hout, rfl⟩
    · rw [if_neg (by assumption)]
      exact ⟨y₀, mem_of_getElem? hy₀, hst, rfl⟩
  · rintro u ⟨y, hy, hst, rfl⟩ hnot
    obtain ⟨j, hj⟩ := mem_iff_getElem?.mp hy
    by_cases hkj : k = j
    · subst j
      rw [hget] at hj
      rw [Option.some.inj hj]
    · exact absurd ⟨y, mem_of_getElem? (hrow j y hj hkj), hst, rfl⟩ hnot
  · rintro hout' u ⟨y, hy, hst, rfl⟩
    obtain ⟨j, hj⟩ := mem_iff_getElem?.mp hy
    by_cases hkj : k = j
    · subst j
      rw [hget] at hj
      obtain rfl := Option.some.inj hj
      exact ⟨_, mem_of_getElem? hself, hout', rfl⟩
    · exact ⟨y, mem_of_getElem? (hrow j y hj hkj), hst, rfl⟩

/-! ### The steps -/

section Steps

variable {k : ℕ} {r x : ChangeSet} {st : SetStatus} {inc : Bool}

theorem Fed.outstanding (h : Fed E s) (hget : s.sets[k]? = some r) (hout : r.status.outstanding = true)
    (hst : st.outstanding = true) : Fed E (s.updateStatus k st inc) := by
  obtain ⟨hsub, -, hsup⟩ := queue_updateStatus (E := E) st inc hget hout
  have hqueue : (s.updateStatus k st inc).queue E = s.queue E :=
    Set.Subset.antisymm hsub (hsup hst)
  rw [Fed, hqueue]
  exact h

theorem Fed.settle (h : Fed E s) (hget : s.sets[k]? = some r) (hout : r.status.outstanding = true)
    (hrx : r.update E = x.update E) (hx : Settled E s x) : Fed E (s.updateStatus k st inc) := by
  obtain ⟨hsub, hleave, -⟩ := queue_updateStatus (E := E) st inc hget hout
  exact Feeds.settle (w := x.update E) h hsub (fun u hu hnot => (hleave u hu hnot).trans hrx)
    hx.1.queue hx.current

theorem Fed.confirm (h : Fed E s) (hr : Recorded E s) (hget : s.sets[k]? = some r)
    (hout : r.status.outstanding = true) (hrx : r.update E = x.update E) (hx : Taken E s x) :
    Fed E (s.updateStatus k st inc) := by
  obtain ⟨hsub, hleave, -⟩ := queue_updateStatus (E := E) st inc hget hout
  exact Feeds.confirm (w := x.update E) h hr.versioned hr.taken hsub
    (fun u hu hnot => (hleave u hu hnot).trans hrx) hx

theorem Fed.deliver (h : Fed E s) (hr : Recorded E s) (hget : s.sets[k]? = some r)
    (hout : r.status.outstanding = true) (hrx : r.update E = x.update E) (hx : First E s x)
    (missed : List Cell) : Fed E (s.deliver E x missed) :=
  Feeds.deliver (w := x.update E) h hr.versioned hr.queue_published
    ⟨r, mem_of_getElem? hget, hout, hrx⟩ (Update.without_partOf _ missed) hx.queue

theorem Fed.insertSet (h : Fed E s) (hr : Recorded E s) (d : Draft) (createdAt : ℤ) :
    Fed E (s.insertSet E d createdAt) := by
  refine Feeds.publish h (hr.versioned_publish d).1 hr.taken ?_ ?_ ?_
  · exact ⟨_, mem_append_right _ (mem_singleton.mpr rfl), rfl, rfl⟩
  · rintro w ⟨y, hy, hst, rfl⟩
    obtain hy | hy := mem_append.mp hy
    · exact .inr ⟨y, hy, hst, rfl⟩
    · rw [mem_singleton.mp hy]
      exact .inl rfl
  · rintro w ⟨y, hy, hst, rfl⟩ hnot
    exact absurd ⟨y, mem_append_left _ hy, hst, rfl⟩ hnot

theorem Fed.mergeSet (h : Fed E s) (hr : Recorded E s) {d : Draft} (hget : s.sets[k]? = some r)
    (hkey : r.key = d.key)
    (hcells : ∀ c ∈ (r.update E).cells, c ∈ (E.writes d.key d.payload).map Prod.fst) :
    Fed E (s.mergeSet E k d) := by
  have hself : (s.mergeSet E k d).sets[k]? = some (r.merge d s.published.length) := by
    rw [getElem?_mergeSet, hget, Option.map_some, if_pos rfl]
  have hupdate : (r.merge d s.published.length).update E =
      ⟨s.published.length, E.writes d.key d.payload⟩ := by rw [ChangeSet.update, ChangeSet.merge, hkey]
  refine Feeds.publish h (hr.versioned_publish d).1 hr.taken ?_ ?_ ?_
  · exact ⟨_, mem_of_getElem? hself, rfl, hupdate⟩
  · rintro w ⟨y, hy, hst, rfl⟩
    obtain ⟨j, hj⟩ := mem_iff_getElem?.mp hy
    by_cases hkj : k = j
    · subst j
      rw [hself] at hj
      rw [← Option.some.inj hj]
      exact .inl hupdate
    · rw [getElem?_mergeSet] at hj
      obtain ⟨y₀, hy₀, rfl⟩ := Option.map_eq_some_iff.mp hj
      rw [if_neg hkj] at hst ⊢
      exact .inr ⟨y₀, mem_of_getElem? hy₀, hst, rfl⟩
  · rintro w ⟨y, hy, hst, rfl⟩ hnot
    obtain ⟨j, hj⟩ := mem_iff_getElem?.mp hy
    by_cases hkj : k = j
    · subst j
      rw [hget] at hj
      rw [← Option.some.inj hj]
      exact hcells
    · have hj' : (s.mergeSet E k d).sets[j]? = some y := by
        rw [getElem?_mergeSet, hj, Option.map_some, if_neg hkj]
      exact absurd ⟨y, mem_of_getElem? hj', hst, rfl⟩ hnot

theorem Fed.releaseQuarantine (h : Fed E s) (hr : Recorded E s) {tenant room : ℕ} {plan : Option ℕ}
    {provider : Option Provider} (hc : ReleasedFirst E s tenant room plan provider) :
    Fed E (s.releaseQuarantine tenant room plan provider) := by
  refine Feeds.requeue h hr.taken ?_ ?_
  · rintro w ⟨y, hy, hst, rfl⟩
    by_cases hrel : Store.isReleased tenant room plan provider y = true
    · refine ⟨_, mem_map_of_mem hy, ?_, ?_⟩
      · rw [if_pos hrel]
        rfl
      · rw [if_pos hrel]
        rfl
    · exact ⟨_, mem_map_of_mem hy, by rwa [if_neg hrel], by rw [if_neg hrel]⟩
  · rintro w ⟨y, hy, hst, rfl⟩
    obtain ⟨y₀, hy₀, rfl⟩ := mem_map.mp hy
    by_cases hrel : Store.isReleased tenant room plan provider y₀ = true
    · rw [if_pos hrel]
      exact .inr (hc y₀ hy₀ hrel)
    · rw [if_neg hrel] at hst ⊢
      exact .inl ⟨y₀, hy₀, hst, rfl⟩

end Steps

theorem outstanding_of_inFlight {st : SetStatus} (h : st.inFlight = true) : st.outstanding = true := by
  cases st <;> first | rfl | cases h

/-- One operation keeps the queue between the two logs. -/
theorem advance_fed {t : Thread} {o : Chance} {pc' : Pc} (hr : Recorded E s) (hhand : InHand E s t.pc)
    (h : Fed E s) (hc : Orderly E s t o) (hadv : advance E s t o = some (s', pc')) : Fed E s' := by
  obtain ⟨hfence, hc⟩ := hc
  simp only [advance] at hadv
  cases hpc : t.pc <;> simp only [hpc] at hadv hhand hfence hc
  case find drafts => cases drafts <;> cases hadv <;> exact h
  case write found d createdAt drafts =>
    cases found with
    | none =>
      cases hadv
      exact h.insertSet hr d createdAt
    | some k =>
      cases hadv
      obtain ⟨r, hget, hkey⟩ := hhand
      exact h.mergeSet hr hget hkey (hc r hget)
  case read tenant provider limit =>
    cases hadv
    exact h
  case gate x rest =>
    split at hadv <;> cases hadv
    · exact h
    · rename_i hmapped
      have hstands := waiting_of_unmapped hfence hmapped
      obtain ⟨r, hget, hst, hrx⟩ := row_of_stands hr (hhand x mem_cons_self) hstands
      exact h.settle hget (SetStatus.outstanding_of_waiting hst) hrx (hc.resolve_left hmapped)
  case check x rest =>
    cases hadv
    exact h
  case conflict x since rest =>
    cases hadv
    exact h
  case skip x rest =>
    cases hadv
    obtain ⟨r, hget, hst, hrx⟩ := row_of_stands hr (hhand x mem_cons_self) hfence
    exact h.settle hget (SetStatus.outstanding_of_waiting hst) hrx hc
  case mark x rest =>
    split at hadv
    · cases hadv
      exact h
    · rename_i hallowed
      have hstands := waiting_of_allowed hfence hallowed
      obtain ⟨r, hget, hst, hrx⟩ := row_of_stands hr (hhand x mem_cons_self) hstands
      split at hadv <;> cases hadv
      · rename_i hnone
        exact h.settle hget (SetStatus.outstanding_of_waiting hst) hrx (settled_of_isNone hnone)
      · exact h.outstanding hget (SetStatus.outstanding_of_waiting hst) rfl
  case deliver x rest =>
    obtain ⟨r, hget, hst, hrx⟩ := row_of_stands hr (hhand x mem_cons_self) hfence
    have hout := outstanding_of_inFlight hst
    split at hadv
    · rename_i hadapter
      cases hadv
      rw [Bool.not_eq_true'] at hadapter
      simp only [hadapter, Bool.false_eq_true, if_false] at hc
      obtain hno | hsettled := hc
      · exact h.outstanding hget hout hno
      · exact h.settle hget hout hrx hsettled
    · rename_i hadapter
      split at hadv <;> cases hadv
      rw [Bool.not_eq_true', Bool.not_eq_false] at hadapter
      rw [if_pos hadapter] at hc
      exact h.deliver hr hget hout hrx hc o.missed
  case answer x r rest =>
    cases hadv
    obtain ⟨y, hget, hst, hrx⟩ := row_of_stands hr (hhand.1 x mem_cons_self) hfence
    have hout := outstanding_of_inFlight hst
    obtain hconf | hno | hsettled := hc
    · exact h.confirm hr hget hout hrx (hhand.2 hconf)
    · exact h.outstanding hget hout hno
    · exact h.settle hget hout hrx hsettled
  case returned => cases hadv

/-- The calls keep the queue between what was published and what was delivered. -/
theorem fed_preserves : (calls E).Preserves (PushesInOrder E) (fun s => Recorded E s ∧ Fed E s)
    (fun s _ t => InHand E s t.pc) (fun _ _ => True) where
  symm _ _ _ := trivial
  init s hs := by
    refine ⟨recorded_init hs, ?_⟩
    obtain ⟨hsets, hpub, hdel⟩ := hs
    have hqueue : s.queue E = ∅ := Set.eq_empty_of_forall_notMem fun u ⟨x, hx, _⟩ => by
      rw [hsets] at hx
      cases hx
    rw [Fed, hqueue, hpub, hdel]
    exact Feeds.empty
  env p e s' hp hc hs := by
    have hsame := env_sameContent hs
    refine ⟨⟨hp.store.1.sameContent hsame, ?_⟩, fun k t ht => (hp.thread k t ht).grows hsame.grows⟩
    cases e with
    | tick d =>
      cases hs
      exact hp.store.2
    | releaseQuarantine tenant room plan provider =>
      cases hs
      exact hp.store.2.releaseQuarantine hp.store.1 hc
  call p c t _ _ ht := by
    obtain rfl : Thread.begin c = t := Option.some.inj ht
    exact ⟨inHand_begin c, fun _ _ => trivial⟩
  step p k m t s' t' hp hc ht hs := by
    cases m with
    | advance o =>
      obtain ⟨r, hadv, heq⟩ := Option.map_eq_some_iff.mp hs
      cases heq
      have hhand : InHand E p.store t.pc := hp.thread k t ht
      obtain ⟨hrec, hgrows, hhand'⟩ := advance_recorded hp.store.1 hhand hadv
      have hfed := advance_fed hp.store.1 hhand hp.store.2 (hc t ht) hadv
      exact ⟨⟨hrec, hfed⟩, hhand', fun j u _ hu => ⟨(hp.thread j u hu).grows hgrows, trivial⟩⟩
    | stop =>
      cases hs
      exact ⟨hp.store, trivial, fun j u _ hu => ⟨hp.thread j u hu, trivial⟩⟩

/-! ### Convergence -/

/-- No set of the connection is still to be pushed or in flight. -/
def Store.Quiet (s : Store) (con : Connection) : Prop :=
  ∀ x ∈ s.sets, x.key.connection = con → x.status.outstanding = false

/-- The provider of a connection without outstanding sets has the last value that was
published for each cell, what it has taken of a cell was taken in the order of publishing,
and a value that it does not have is in a set that is still to be pushed or in flight. -/
theorem pushes_converge {p : Pool Store Thread} (hp : (calls E).machine.Reach (PushesInOrder E) p) :
    (∀ con, p.store.Quiet con → ∀ c : Cell, c.connection = con → ∀ v,
      current p.store.published c = some v → current p.store.delivered c = some v) ∧
    InOrder p.store.delivered ∧
    ∀ c v, current p.store.published c = some v → current p.store.delivered c = some v ∨
      ∃ x ∈ p.store.sets, x.status.outstanding = true ∧ (x.update E).valueAt c = some v := by
  obtain ⟨hrec, hfed⟩ := (fed_preserves.reach hp).store
  refine ⟨fun con hquiet c hcon v hv => ?_, hfed.inOrder, fun c v hv => ?_⟩
  · refine Feeds.converged hfed hrec.versioned hv fun w hw hwc => ?_
    obtain ⟨x, hx, hout, rfl⟩ := hw
    have hno := hquiet x hx ((connection_of_mem_cells hwc).symm.trans hcon)
    rw [hout] at hno
    cases hno
  · obtain ⟨w, hw, hwc⟩ := exists_mem_of_current hv
    obtain ⟨u, hu, hcur⟩ := hrec.versioned.exists_isLast hw hwc
    obtain ⟨x, hx, hout, rfl⟩ | ⟨hrep, -⟩ := hfed.owed u c hu
    · exact .inr ⟨x, hx, hout, hcur ▸ hv⟩
    · exact .inl (by rw [hrep, ← hcur, hv])

/-! ### Runs -/

def seen (c : Cell) (p : Pool Store Thread) : List SetStatus × Option Value × Option Value :=
  (p.store.sets.map ChangeSet.status, current p.store.published c, current p.store.delivered c)

/-- A first push that times out, a second event, and a second cycle. -/
theorem pushes_converge_retried : ∃ p, (calls sampleExtranet).machine.Reach (PushesInOrder sampleExtranet) p ∧
    p.store.sets.map ChangeSet.status = [.acked, .acked] ∧
    current p.store.delivered (dayTen .hotelrunner) = some (.number (some 0)) := by
  obtain ⟨p, hp, hv⟩ := Machine.exists_reach_of_runUnder (C := PushesInOrder sampleExtranet)
    (f := seen (dayTen .hotelrunner))
    (v := ([.acked, .acked], some (.number (some 0)), some (.number (some 0))))
    (List.flatten [publishing 0 5 .hotelrunner, [pushing], steps 1 4,
      [.step 1 (.advance { result := ⟨false, 0, some .timeout, .confirmed⟩ }),
      .step 1 (.advance {})], publishing 2 0 .hotelrunner, [pushing], steps 3 11])
    (calls_init (E := sampleExtranet)) (by decide +kernel)
  obtain ⟨hst, hrest⟩ := Prod.mk.inj hv
  refine ⟨p, hp, hst, (pushes_converge hp).1 ⟨1, 1, .hotelrunner⟩ (fun x hx _ => ?_) _ rfl _
    (Prod.mk.inj hrest).1⟩
  have hmem : x.status ∈ p.store.sets.map ChangeSet.status := mem_map_of_mem hx
  rw [hst] at hmem
  have hacked : x.status = .acked := by simpa using hmem
  rw [hacked]
  rfl

/-- A cycle has read the set, an event is merged into it, and the cycle acknowledges it. -/
theorem merged_update_lost : ∃ p, (calls sampleExtranet).machine.Reachable p ∧
    p.store.sets.map ChangeSet.status = [.acked] ∧
    current p.store.published (dayTen .hotelrunner) = some (.number (some 0)) ∧
    current p.store.delivered (dayTen .hotelrunner) = some (.number (some 5)) := by
  obtain ⟨p, hp, hv⟩ := Machine.exists_reachable_of_run
    (f := seen (dayTen .hotelrunner))
    (v := ([.acked], some (.number (some 0)), some (.number (some 5))))
    (publishing 0 5 .hotelrunner ++ [pushing] ++ steps 1 1 ++ publishing 2 0 .hotelrunner ++ steps 1 5)
    (calls_init (E := sampleExtranet)) (by decide +kernel)
  obtain ⟨hst, hrest⟩ := Prod.mk.inj hv
  exact ⟨p, hp, hst, (Prod.mk.inj hrest).1, (Prod.mk.inj hrest).2⟩

end SyrocePms.Ari
