import SyrocePms.Ari.Recorded

/-! The content of acknowledged change sets. An acknowledgement is written by id, after the
answer of the provider, while publishing replaces contents in place; the log has the contents
that providers have accepted. -/

namespace SyrocePms.Ari

open Lib List

variable {E : Extranet} {s s' : Store}
variable {x : Snapshot} {t : Thread} {o : Chance} {pc pc' : Pc} {k : ℕ} {st : SetStatus}
  {inc : Bool} {r : ProviderResult} {p : Pool Store Thread} {rest : List Snapshot}

def accepts (p : Pool Store Thread) : Act Env Call Move → List ChangeSet
  | .step k (.advance o) =>
    match (p.threads[k]?).map Thread.pc with
    | some (.deliver x _) => if o.adapter && o.result.isConfirmed then [x.set] else []
    | _ => []
  | _ => []

/-- The row has the content that a provider accepted. A merge gives a row a version of its
own. -/
def AcceptedAs (E : Extranet) (y x : ChangeSet) : Prop :=
  y.version = x.version ∧ y.key = x.key ∧ y.payload = x.payload ∧ y.deltaHash E = x.deltaHash E

/-- A confirmation is written to a row with the version that the cycle has read. -/
def AckAsRead (s : Store) : Pc → Prop
  | .answer x r _ => r.isConfirmed = true → ∀ y ∈ s.sets[x.id]?, y.version = x.set.version
  | _ => True

instance (s : Store) (pc : Pc) : Decidable (AckAsRead s pc) := by
  rcases pc with _ | _ <;> unfold AckAsRead <;> infer_instance

def AcksAsRead (p : Pool Store Thread) : Act Env Call Move → Prop
  | .step k (.advance _) => ∀ t ∈ p.threads[k]?, AckAsRead p.store t.pc
  | _ => True

instance (p : Pool Store Thread) (a : Act Env Call Move) : Decidable (AcksAsRead p a) := by
  rcases a with _ | _ | ⟨_, _ | _⟩ <;> unfold AcksAsRead <;> infer_instance

/-! ### Contents -/

theorem ChangeSet.acceptedAs_of_content {x y : ChangeSet} (h : y.content = x.content) :
    AcceptedAs E y x := by
  simp only [content, Prod.mk.injEq] at h
  obtain ⟨hkey, hpayload, hversion⟩ := h
  exact ⟨hversion, hkey, hpayload, by rw [deltaHash, deltaHash, hkey, hpayload]⟩

def Agrees (s : Store) (x : ChangeSet) : Prop :=
  ∀ (k : ℕ) y, s.sets[k]? = some y → y.version = x.version → y.content = x.content

def Pc.hand : Pc → List Snapshot
  | .gate x rest | .check x rest | .conflict x _ rest | .skip x rest | .mark x rest
  | .deliver x rest | .answer x _ rest => x :: rest
  | _ => []

theorem hand_nextSet (xs : List Snapshot) : (nextSet xs).hand = xs := by
  cases xs <;> rfl

/-- A row keeps its content, or has a new version. -/
def Renews (s s' : Store) : Prop :=
  ∀ (k : ℕ) y', s'.sets[k]? = some y' →
    (∃ y, s.sets[k]? = some y ∧ y'.content = y.content) ∨ s.published.length ≤ y'.version

theorem SameContent.renews (h : SameContent s s') : Renews s s' := fun _ _ hy => .inl (h.row hy)

theorem insertSet_renews (d : Draft) (createdAt : ℤ) : Renews s (s.insertSet E d createdAt) := by
  intro k y hy
  obtain hy | ⟨-, rfl⟩ := Program.getElem?_append_one hy
  · exact .inl ⟨y, hy, rfl⟩
  · exact .inr le_rfl

theorem mergeSet_renews (k : ℕ) (d : Draft) : Renews s (s.mergeSet E k d) := by
  intro j y hy
  rw [getElem?_mergeSet] at hy
  obtain ⟨z, hz, rfl⟩ := Option.map_eq_some_iff.mp hy
  split
  · exact .inr le_rfl
  · exact .inl ⟨z, hz, rfl⟩

theorem Agrees.renews {x : ChangeSet} (h : Agrees s x) (hs : Renews s s')
    (hx : x.version < s.published.length) : Agrees s' x := by
  intro k y' hy' hver
  obtain ⟨y, hy, hcontent⟩ | hle := hs k y' hy'
  · have hy_ver : y.version = x.version := by
      rw [← hver]
      exact (congrArg (fun c => c.2.2) hcontent).symm
    rw [hcontent]
    exact h k y hy hy_ver
  · omega

theorem agrees_getPendingChangeSets (hr : Recorded E s) {tenant limit : ℕ}
    {provider : Option Provider} (hx : x ∈ s.getPendingChangeSets tenant provider limit) :
    Agrees s x.set := by
  have hmem := mem_of_mem_take hx
  rw [mem_insertionSort] at hmem
  obtain ⟨⟨y, k⟩, hy, rfl⟩ := mem_map.mp hmem
  have hget := mem_zipIdx_iff_getElem?.mp (mem_filter.mp hy).1
  intro j z hz hver
  have hjk := hr.distinct j k z y hz hget hver
  subst hjk
  rw [hget] at hz
  rw [Option.some.inj hz]

/-- The contents that a call has in its hand. -/
def Holds (E : Extranet) (s : Store) (t : Thread) : Prop :=
  InHand E s t.pc ∧ Read E s t.pc.hand ∧ ∀ x ∈ t.pc.hand, Agrees s x.set

theorem Holds.grows (h : Holds E s t) (hr : Recorded E s) (hg : Grows s s') (hs : Renews s s') :
    Holds E s' t :=
  ⟨h.1.grows hg, h.2.1.grows hg, fun x hx => (h.2.2 x hx).renews hs (hr.fresh _ (h.2.1 x hx))⟩

theorem advance_renews (hadv : advance E s t o = some (s', pc')) :
    Renews s s' ∧ (∀ x ∈ pc'.hand, x ∈ t.pc.hand ∨
      s' = s ∧ ∃ tenant provider limit, x ∈ s.getPendingChangeSets tenant provider limit) := by
  have hsame {k : ℕ} {st : SetStatus} {inc : Bool} : Renews s (s.updateStatus k st inc) :=
    (updateStatus_sameContent k st inc).renews
  have hrefl : Renews s s := fun _ y hy => .inl ⟨y, hy, rfl⟩
  have hnext {x y : Snapshot} {rest : List Snapshot} (hy : y ∈ (nextSet rest).hand) : y ∈ x :: rest := by
    rw [hand_nextSet] at hy
    exact mem_cons_of_mem _ hy
  simp only [advance] at hadv
  cases hpc : t.pc <;> simp only [hpc] at hadv
  case find drafts =>
    cases drafts <;> cases hadv <;> exact ⟨hrefl, fun x hx => absurd hx not_mem_nil⟩
  case write found d createdAt drafts =>
    cases found <;> cases hadv
    · exact ⟨insertSet_renews d createdAt, fun x hx => absurd hx not_mem_nil⟩
    · exact ⟨mergeSet_renews _ d, fun x hx => absurd hx not_mem_nil⟩
  case read tenant provider limit =>
    cases hadv
    rw [hand_nextSet]
    exact ⟨hrefl, fun x hx => .inr ⟨rfl, tenant, provider, limit, hx⟩⟩
  case gate x rest =>
    split at hadv <;> cases hadv
    · exact ⟨hrefl, fun y hy => .inl hy⟩
    · exact ⟨hsame, fun y hy => .inl (hnext hy)⟩
  case check x rest =>
    cases hadv
    refine ⟨hrefl, fun y hy => .inl ?_⟩
    simp only [checkOutboundIdempotency] at hy
    (repeat' split at hy) <;> first | exact hy | exact absurd hy not_mem_nil
  case conflict x since rest =>
    cases hadv
    refine ⟨hrefl, fun y hy => .inl ?_⟩
    split at hy <;> exact hy
  case skip x rest =>
    cases hadv
    exact ⟨hsame, fun y hy => .inl (hnext hy)⟩
  case mark x rest =>
    split at hadv
    · cases hadv
      exact ⟨hrefl, fun y hy => .inl (hnext hy)⟩
    · split at hadv <;> cases hadv
      · exact ⟨hsame, fun y hy => .inl (hnext hy)⟩
      · exact ⟨hsame, fun y hy => .inl hy⟩
  case deliver x rest =>
    split at hadv
    · cases hadv
      exact ⟨hsame, fun y hy => .inl (hnext hy)⟩
    · split at hadv <;> cases hadv
      exact ⟨hrefl, fun y hy => .inl hy⟩
  case answer x r rest =>
    cases hadv
    exact ⟨hsame, fun y hy => .inl (hnext hy)⟩
  case returned => cases hadv

theorem Holds.advance (hr : Recorded E s) (h : Holds E s t)
    (hadv : advance E s t o = some (s', pc')) :
    Recorded E s' ∧ Grows s s' ∧ Renews s s' ∧ Holds E s' { t with pc := pc' } := by
  obtain ⟨hr', hg, hhand⟩ := advance_recorded hr h.1 hadv
  obtain ⟨hrenews, hsub⟩ := advance_renews hadv
  refine ⟨hr', hg, hrenews, hhand, fun x hx => ?_, fun x hx => ?_⟩
  · obtain hx | ⟨rfl, tenant, provider, limit, hx⟩ := hsub x hx
    · exact hg.published _ (h.2.1 x hx)
    · exact read_getPendingChangeSets hr tenant provider limit x hx
  · obtain hx | ⟨rfl, tenant, provider, limit, hx⟩ := hsub x hx
    · exact (h.2.2 x hx).renews hrenews (hr.fresh _ (h.2.1 x hx))
    · exact agrees_getPendingChangeSets hr hx

theorem preserves_holds {C : Pool Store Thread → Act Env Call Move → Prop} :
    Program.Preserves (calls E) C (Recorded E) (fun s _ t => Holds E s t) (fun _ _ => True) where
  symm _ _ _ := trivial
  init _ hs := recorded_init hs
  env p e s' hp _ hs := by
    have hsame := env_sameContent hs
    exact ⟨hp.store.sameContent hsame, fun k t ht =>
      (hp.thread k t ht).grows hp.store hsame.grows hsame.renews⟩
  call p c t _ _ ht := by
    obtain rfl := Option.some.inj ht
    refine ⟨⟨inHand_begin c, ?_, ?_⟩, fun _ _ => trivial⟩ <;> intro x hx <;> cases c <;>
      exact absurd hx not_mem_nil
  step p k m t s' t' hp _ ht hs := by
    have hok := hp.thread k t ht
    cases m with
    | advance o =>
      obtain ⟨⟨s₁, pc'⟩, hadv, heq⟩ := Option.map_eq_some_iff.mp hs
      obtain ⟨rfl, rfl⟩ := Prod.mk.inj heq
      obtain ⟨hr', hg, hrenews, hhold⟩ := hok.advance hp.store hadv
      exact ⟨hr', hhold, fun j u _ hu => ⟨(hp.thread j u hu).grows hp.store hg hrenews, trivial⟩⟩
    | stop =>
      cases hs
      refine ⟨hp.store, ⟨trivial, ?_, ?_⟩, fun j u _ hu => ⟨hp.thread j u hu, trivial⟩⟩ <;>
        exact fun x hx => absurd hx not_mem_nil

/-! ### Acknowledged rows -/

/-- Where a row that is acknowledged after a step comes from: it was so before, or the step
writes the confirmation of a push. -/
def AckedFrom (s s' : Store) (pc : Pc) : Prop :=
  ∀ (k : ℕ) y', s'.sets[k]? = some y' → y'.status = .acked →
    ∃ y, s.sets[k]? = some y ∧ y'.content = y.content ∧
      (y.status = .acked ∨ ∃ x r rest, pc = .answer x r rest ∧ r.isConfirmed = true ∧ x.id = k)

theorem ackedFrom_refl : AckedFrom s s pc := fun _ y hy hst => ⟨y, hy, rfl, .inl hst⟩

theorem ackedFrom_updateStatus
    (h : st = .acked → ∃ x r rest, pc = .answer x r rest ∧ r.isConfirmed = true ∧ x.id = k) :
    AckedFrom s (s.updateStatus k st inc) pc := by
  intro j y' hy' hst
  rw [getElem?_updateStatus] at hy'
  obtain ⟨y, hy, rfl⟩ := Option.map_eq_some_iff.mp hy'
  by_cases hkj : k = j
  · subst hkj
    rw [if_pos rfl] at hst ⊢
    exact ⟨y, hy, rfl, .inr (h hst)⟩
  · rw [if_neg hkj] at hst ⊢
    exact ⟨y, hy, rfl, .inl hst⟩

theorem ackedFrom_other (h : st ≠ .acked) : AckedFrom s (s.updateStatus k st inc) pc :=
  ackedFrom_updateStatus fun hst => absurd hst h

theorem noAdapterStatus_ne (c : Call) : noAdapterStatus c ≠ .acked := by
  unfold noAdapterStatus
  split <;> simp

theorem advance_ackedFrom (hadv : advance E s t o = some (s', pc')) : AckedFrom s s' t.pc := by
  simp only [advance] at hadv
  cases hpc : t.pc <;> simp only [hpc] at hadv
  case find drafts => cases drafts <;> cases hadv <;> exact ackedFrom_refl
  case write found d createdAt drafts =>
    cases found <;> cases hadv
    · intro k y hy hst
      obtain hy | ⟨-, rfl⟩ := Program.getElem?_append_one hy
      · exact ⟨y, hy, rfl, .inl hst⟩
      · cases hst
    · intro j y hy hst
      rw [getElem?_mergeSet] at hy
      obtain ⟨z, hz, rfl⟩ := Option.map_eq_some_iff.mp hy
      split at hst
      · cases hst
      · rename_i hne
        exact ⟨z, hz, by rw [if_neg hne], .inl hst⟩
  case read tenant provider limit =>
    cases hadv
    exact ackedFrom_refl
  case gate x rest =>
    split at hadv <;> cases hadv
    · exact ackedFrom_refl
    · exact ackedFrom_other (by simp)
  case check x rest =>
    cases hadv
    exact ackedFrom_refl
  case conflict x since rest =>
    cases hadv
    exact ackedFrom_refl
  case skip x rest =>
    cases hadv
    exact ackedFrom_other (by simp)
  case mark x rest =>
    split at hadv
    · cases hadv
      exact ackedFrom_refl
    · split at hadv <;> cases hadv
      · exact ackedFrom_other (by simp)
      · exact ackedFrom_other (by simp)
  case deliver x rest =>
    split at hadv
    · cases hadv
      exact ackedFrom_other (noAdapterStatus_ne _)
    · split at hadv <;> cases hadv
      exact ackedFrom_refl
  case answer x r rest =>
    cases hadv
    refine ackedFrom_updateStatus fun hst => ⟨x, r, rest, rfl, ?_, rfl⟩
    by_contra hr
    exact processAck_not_acked (Bool.eq_false_iff.mpr hr) hst
  case returned => cases hadv

theorem nextSet_ne_answer {xs ys : List Snapshot} : nextSet xs ≠ .answer x r ys := by
  cases xs <;> exact fun h => by cases h

theorem accepts_of_answer (ht : p.threads[k]? = some t)
    (hadv : advance E p.store t o = some (s', .answer x r rest)) (hr : r.isConfirmed = true) :
    x.set ∈ accepts p (.step k (.advance o)) := by
  simp only [advance] at hadv
  cases hpc : t.pc <;> simp only [hpc] at hadv
  case deliver y ys =>
    split at hadv
    · exact absurd (Prod.mk.inj (Option.some.inj hadv)).2 nextSet_ne_answer
    · rename_i hadapter
      split at hadv <;> cases hadv
      have ha : o.adapter = true := by simpa using hadapter
      simp [accepts, ht, hpc, ha, hr]
  case find drafts => cases drafts <;> cases hadv
  case write found d createdAt drafts => cases found <;> cases hadv
  case read tenant provider limit =>
    exact absurd (Prod.mk.inj (Option.some.inj hadv)).2 nextSet_ne_answer
  case gate y ys =>
    split at hadv
    · cases hadv
    · exact absurd (Prod.mk.inj (Option.some.inj hadv)).2 nextSet_ne_answer
  case check y ys =>
    obtain ⟨-, hnext⟩ := Prod.mk.inj (Option.some.inj hadv)
    simp only [checkOutboundIdempotency] at hnext
    (repeat' split at hnext) <;> cases hnext
  case conflict y since ys =>
    obtain ⟨-, hnext⟩ := Prod.mk.inj (Option.some.inj hadv)
    split at hnext <;> cases hnext
  case skip y ys => exact absurd (Prod.mk.inj (Option.some.inj hadv)).2 nextSet_ne_answer
  case mark y ys =>
    split at hadv
    · exact absurd (Prod.mk.inj (Option.some.inj hadv)).2 nextSet_ne_answer
    · split at hadv
      · exact absurd (Prod.mk.inj (Option.some.inj hadv)).2 nextSet_ne_answer
      · cases hadv
  case answer y r' ys => exact absurd (Prod.mk.inj (Option.some.inj hadv)).2 nextSet_ne_answer
  case returned => cases hadv

/-- Acknowledged rows have an accepted content, and so has what a confirmed answer is about. -/
structure Confirmed (p : Pool Store Thread) (accepted : List ChangeSet) : Prop where
  rows : ∀ x ∈ p.store.sets, x.status = .acked → ∃ y ∈ accepted, y.content = x.content
  answers : ∀ t ∈ p.threads, ∀ x r rest, t.pc = .answer x r rest → r.isConfirmed = true →
    x.set ∈ accepted

theorem content_of_acksAsRead (hok : Holds E p.store t) (hc : AcksAsRead p (.step k (.advance o)))
    (ht : p.threads[k]? = some t) (hpc : t.pc = .answer x r rest) (hr : r.isConfirmed = true) :
    ∀ y ∈ p.store.sets[x.id]?, y.content = x.set.content := by
  intro y hy
  have hver := hc t ht
  rw [hpc] at hver
  have hx : x ∈ t.pc.hand := by
    rw [hpc]
    exact mem_cons_self
  exact hok.2.2 x hx x.id y hy (hver hr y hy)

theorem Confirmed.next {p' : Pool Store Thread} {a : Act Env Call Move} {accepted : List ChangeSet}
    (hp : Program.Inv (Recorded E) (fun s _ t => Holds E s t) (fun _ _ => True) p)
    (h : Confirmed p accepted) (hc : AcksAsRead p a) (hs : (calls E).machine.step p a = some p') :
    Confirmed p' (accepts p a ++ accepted) := by
  cases a with
  | env e =>
    obtain ⟨hstore, hthreads⟩ := Program.next_env hs
    refine ⟨fun x hx hst => ?_, fun t ht => h.answers t (hthreads ▸ ht)⟩
    cases e with
    | tick d =>
      rw [← Option.some.inj hstore] at hx
      exact h.rows x hx hst
    | releaseQuarantine tenant room plan provider =>
      rw [← Option.some.inj hstore] at hx
      obtain ⟨y, hy, rfl⟩ := mem_map.mp hx
      split at hst
      · cases hst
      · rename_i hno
        rw [if_neg hno]
        exact h.rows y hy hst
  | call c =>
    obtain ⟨t, ht, hstore, hthreads⟩ := Program.next_call hs
    refine ⟨hstore ▸ h.rows, fun u hu x r rest hpc => ?_⟩
    rw [hthreads] at hu
    obtain hu | hu := mem_append.mp hu
    · exact h.answers u hu x r rest hpc
    · rw [mem_singleton.mp hu, ← Option.some.inj ht] at hpc
      cases c <;> cases hpc
  | step k m =>
    obtain ⟨t, t', ht, hstep, hthreads⟩ := Program.next_step hs
    cases m with
    | stop =>
      obtain ⟨hstore, ht'⟩ := Prod.mk.inj (Option.some.inj hstep)
      refine ⟨hstore ▸ h.rows, fun u hu x r rest hpc => ?_⟩
      rw [hthreads] at hu
      obtain hu | rfl := mem_or_eq_of_mem_set hu
      · exact h.answers u hu x r rest hpc
      · rw [← ht'] at hpc
        cases hpc
    | advance o =>
      obtain ⟨⟨s₁, pc'⟩, hadv, heq⟩ := Option.map_eq_some_iff.mp hstep
      obtain ⟨rfl, rfl⟩ := Prod.mk.inj heq
      refine ⟨fun x hx hst => ?_, fun u hu x r rest hpc hr => ?_⟩
      · obtain ⟨j, hj⟩ := mem_iff_getElem?.mp hx
        obtain ⟨y, hy, hcontent, hacked | ⟨z, r, rest, hpc, hr, rfl⟩⟩ :=
          advance_ackedFrom hadv j x hj hst
        · obtain ⟨w, hw, hwy⟩ := h.rows y (mem_of_getElem? hy) hacked
          exact ⟨w, mem_append_right _ hw, hwy.trans hcontent.symm⟩
        · have hz := h.answers t (mem_of_getElem? ht) z r rest hpc hr
          have hread := content_of_acksAsRead (hp.thread k t ht) hc ht hpc hr y hy
          exact ⟨z.set, mem_append_right _ hz, (hcontent.trans hread).symm⟩
      · rw [hthreads] at hu
        obtain hu | rfl := mem_or_eq_of_mem_set hu
        · exact mem_append_right _ (h.answers u hu x r rest hpc hr)
        · have hpc : pc' = .answer x r rest := hpc
          rw [hpc] at hadv
          exact mem_append_left _ (accepts_of_answer ht hadv hr)

/-- A change set that is stored as acknowledged has the payload and the hash that the provider
accepted for it, and a push marks no set that was modified since it was read. -/
theorem acked_as_accepted {p : Pool Store Thread} {accepted : List ChangeSet}
    (h : (calls E).machine.ReachLogged accepts AcksAsRead (p, accepted)) :
    (∀ x ∈ p.store.sets, x.status = .acked → ∃ y ∈ accepted, AcceptedAs E y x) ∧
      ∀ (k : ℕ) o t x r rest, AcksAsRead p (.step k (.advance o)) → p.threads[k]? = some t →
        t.pc = .answer x r rest → r.isConfirmed = true →
        ∀ y ∈ p.store.sets[x.id]?, y.content = x.set.content := by
  have hinv := (preserves_holds (E := E)).reach h.reach
  refine ⟨fun x hx hst => ?_, fun k o t x r rest hc ht hpc hr =>
    content_of_acksAsRead (hinv.thread k t ht) hc ht hpc hr⟩
  have hconfirmed : Confirmed p accepted := by
    refine h.invariant (fun p accepted => Confirmed p accepted) (fun p h₀ => ?_)
      fun p accepted a p' hp hi hc hs => ?_
    · obtain ⟨⟨hsets, -, -⟩, hthreads⟩ := h₀
      exact ⟨by simp [hsets], by simp [hthreads]⟩
    · exact hi.next (preserves_holds.reach hp) hc hs
  obtain ⟨y, hy, hcontent⟩ := hconfirmed.rows x hx hst
  exact ⟨y, hy, ChangeSet.acceptedAs_of_content hcontent⟩

/-! ### Runs -/

def ackedAvailability (w : Pool Store Thread × List ChangeSet) :
    List (SetStatus × Option ℤ) × List (Option ℤ) :=
  (w.1.store.sets.map fun x => (x.status, x.payload.availability), w.2.map fun x => x.payload.availability)

theorem logged_init : ((calls E).machine.logged accepts).init (⟨{}, []⟩, []) := ⟨calls_init, rfl⟩

/-- Five rooms are published, pushed and acknowledged. -/
theorem acked_as_accepted_five : ∃ p accepted,
    (calls sampleExtranet).machine.ReachLogged accepts AcksAsRead (p, accepted) ∧
      ackedAvailability (p, accepted) = ([(.acked, some 5)], [some 5]) ∧
      ∀ x ∈ p.store.sets, x.status = .acked → ∃ y ∈ accepted, AcceptedAs sampleExtranet y x := by
  obtain ⟨⟨p, accepted⟩, hp, hv⟩ := Machine.exists_reach_of_runUnder
    (M := (calls sampleExtranet).machine.logged accepts) (C := fun w a => AcksAsRead w.1 a)
    (f := ackedAvailability) (v := ([(.acked, some 5)], [some 5]))
    (publishing 0 5 .hotelrunner ++ [pushing] ++ steps 1 6) logged_init (by decide +kernel)
  exact ⟨p, accepted, hp, hv, (acked_as_accepted hp).1⟩

/-- A cycle has read five rooms, none is merged into the set, and the cycle acknowledges it. -/
theorem merged_set_acked : ∃ p accepted,
    (calls sampleExtranet).machine.ReachLogged accepts (fun _ _ => True) (p, accepted) ∧
      ackedAvailability (p, accepted) = ([(.acked, some 0)], [some 5]) ∧
      ¬ ∀ x ∈ p.store.sets, x.status = .acked → ∃ y ∈ accepted, AcceptedAs sampleExtranet y x := by
  obtain ⟨⟨p, accepted⟩, hp, hv⟩ := Machine.exists_reachable_of_run
    (M := (calls sampleExtranet).machine.logged accepts)
    (f := ackedAvailability) (v := ([(.acked, some 0)], [some 5]))
    (publishing 0 5 .hotelrunner ++ [pushing] ++ steps 1 1 ++ publishing 2 0 .hotelrunner ++ steps 1 5)
    logged_init (by decide +kernel)
  refine ⟨p, accepted, hp, hv, fun hall => ?_⟩
  obtain ⟨hsets, haccepted⟩ := Prod.mk.inj hv
  have hmem : ((.acked, some 0) : SetStatus × Option ℤ) ∈
      p.store.sets.map fun x => (x.status, x.payload.availability) := by
    rw [hsets]
    exact mem_singleton_self _
  obtain ⟨x, hx, heq⟩ := mem_map.mp hmem
  obtain ⟨hst, hzero⟩ := Prod.mk.inj heq
  obtain ⟨y, hy, -, -, hpayload, -⟩ := hall x hx hst
  have hfive : y.payload.availability ∈ accepted.map fun x => x.payload.availability :=
    mem_map_of_mem hy
  rw [haccepted, hpayload, hzero] at hfive
  simp at hfive

end SyrocePms.Ari
