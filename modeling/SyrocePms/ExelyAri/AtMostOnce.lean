import SyrocePms.ExelyAri.Calls

/-! At most one push for an identity. A call owns the document that it has inserted: no other
call writes it, and both unique indexes keep every other document off its identity and, until
its outcome is known, off its payload. -/

namespace SyrocePms.ExelyAri

open Lib List Collection

variable {sha256 : Seed → ℕ} {s s' : Deliveries} {k : ℕ}
variable {st : State} {d : Delivery} {identity j owner : ℕ} {c : Call} {t t' : Thread} {o : Chance}
  {pc' : Pc} {m : Move} {p p' : Pool Deliveries Thread} {a : Act Empty Call Move}

/-- A push as the provider sees it, with the identity under which it is made. -/
structure Sent where
  identity : ℕ
  payload : Payload
  deriving DecidableEq

def sends (sha256 : Seed → ℕ) (p : Pool Deliveries Thread) : Act Empty Call Move → List Sent
  | .step k (.advance _) =>
    match p.threads[k]? with
    | some ⟨c, .push⟩ => [⟨c.identity sha256, c.payload⟩]
    | _ => []
  | _ => []

def State.isOpen : State → Bool
  | .prepared | .sending | .ambiguous => true
  | _ => false

theorem State.not_isTerminal (h : st.isOpen = true) : st.isTerminal = false := by
  cases st <;> first | rfl | cases h

/-! ### The collection -/

namespace Deliveries

theorem insertOne_eq_some {f : ℕ} {hf : d.activeFingerprint = some f}
    (h : s.insertOne d f hf = some s') :
    s'.docs.rows = s.docs.rows ++ [d] ∧ ∀ e ∈ s.docs, e.operationIdentity ≠ d.operationIdentity := by
  unfold insertOne at h
  split at h
  · cases h
  · split at h
    · cases h
    · rename_i docs hdocs
      cases h
      exact ⟨(insertOne_eq_some hdocs).2, (insertOne_eq_some hdocs).1⟩

end Deliveries

/-! ### What a step does to the documents -/

def Delivery.stamp (d : Delivery) : ℕ × ℕ × ℕ := (d.operationIdentity, d.ownerToken, d.payloadFingerprint)

/-- The documents of other owners stay, and documents keep their stamps. -/
structure Changes (k : ℕ) (s s' : Deliveries) : Prop where
  kept : ∀ d ∈ s.docs, ∃ d' ∈ s'.docs, d'.stamp = d.stamp
  others : ∀ d, d.ownerToken ≠ k → (d ∈ s'.docs ↔ d ∈ s.docs)

theorem Changes.refl : Changes k s s := ⟨fun d hd => ⟨d, hd, rfl⟩, fun _ _ => Iff.rfl⟩

theorem isOwn_iff :
    isOwn identity owner d = true ↔ d.operationIdentity = identity ∧ d.ownerToken = owner := by
  simp [isOwn]

theorem changes_updateMany {q : Delivery → Bool} {f : Delivery → Delivery}
    {hid : ∀ d, (f d).operationIdentity = d.operationIdentity}
    {hactive : ∀ d, (f d).activeFingerprint = d.activeFingerprint ∨ (f d).activeFingerprint = none}
    (hq : ∀ d, q d = true → d.ownerToken = k) (hf : ∀ d, (f d).stamp = d.stamp) :
    Changes k s (s.updateMany q f hid hactive) where
  kept d hd := by
    refine ⟨if q d then f d else d, Deliveries.mem_updateMany.mpr ⟨d, hd, rfl⟩, ?_⟩
    split
    · exact hf d
    · rfl
  others d hk := by
    constructor
    · intro hd
      obtain ⟨e, he, rfl⟩ := Deliveries.mem_updateMany.mp hd
      split at hk
      · rename_i hqe
        have hown : (f e).ownerToken = e.ownerToken := congrArg (fun x => x.2.1) (hf e)
        exact absurd (hown.trans (hq e hqe)) hk
      · rename_i hqe
        rwa [if_neg hqe]
    · intro hd
      refine Deliveries.mem_updateMany.mpr ⟨d, hd, ?_⟩
      rw [if_neg fun h => hk (hq d h)]

theorem changes_markSending (identity : ℕ) : Changes k s (s.markSending identity k) :=
  changes_updateMany (fun d hd => by
    simp only [Bool.and_eq_true, isOwn_iff] at hd
    exact hd.1.2) fun _ => rfl

theorem changes_finish (identity : ℕ) (w : Finish) : Changes k s (s.finish identity k w) :=
  changes_updateMany (fun _ hd => (isOwn_iff.mp hd).2) fun _ => rfl

theorem changes_prepareDelivery (h : s.prepareDelivery sha256 c k = some s') : Changes k s s' := by
  have hrows : s'.docs.rows = s.docs.rows ++ [c.document sha256 k] := (Deliveries.insertOne_eq_some h).1
  refine ⟨fun d hd => ⟨d, ?_, rfl⟩, fun d hk => ?_⟩
  · rw [mem_def, hrows]
    exact mem_append_left _ hd
  · rw [mem_def, hrows, mem_append, mem_singleton]
    constructor
    · rintro (hd | rfl)
      · exact hd
      · exact absurd rfl hk
    · exact .inl

theorem advance_changes (h : advance sha256 k s t o = some (s', pc')) : Changes k s s' := by
  unfold advance at h
  cases hpc : t.pc <;> simp only [hpc] at h
  case prepare =>
    split at h <;> cases h
    · rename_i hs
      exact changes_prepareDelivery hs
    · exact .refl
  case markSending =>
    cases h
    exact changes_markSending _
  case finish w persisted unpersisted =>
    cases h
    exact changes_finish _ w
  case gate => cases h; exact .refl
  case existing => cases h; exact .refl
  case provider => cases h; exact .refl
  case push => cases h; exact .refl
  case returned => cases h
  case stopped => cases h

/-! ### What a call knows -/

/-- An open delivery holds its payload. -/
def Held (s : Deliveries) : Prop :=
  ∀ d ∈ s.docs, d.state.isOpen = true → d.activeFingerprint = some d.payloadFingerprint

/-- The document of a call, in the state that its stage has left it in. -/
def Owns (sha256 : Seed → ℕ) (k : ℕ) (c : Call) (st : State) (s : Deliveries) : Prop :=
  ∃ d ∈ s.docs, d.stamp = (c.identity sha256, k, c.fingerprint sha256) ∧ d.state = st

def Stage (sha256 : Seed → ℕ) (s : Deliveries) (k : ℕ) (t : Thread) : Prop :=
  match t.pc with
  | .gate | .prepare => ∀ d ∈ s.docs, d.ownerToken ≠ k
  | .provider | .markSending => Owns sha256 k t.call .prepared s
  | .push => Owns sha256 k t.call .sending s
  | .finish _ _ _ => ∃ st : State, st.isOpen = true ∧ Owns sha256 k t.call st s
  | _ => True

theorem Owns.of_changes (h : Owns sha256 j c st s) (hs : Changes k s s') (hjk : j ≠ k) :
    Owns sha256 j c st s' := by
  obtain ⟨d, hd, hstamp, hst⟩ := h
  have hown : d.ownerToken = j := congrArg (fun x => x.2.1) hstamp
  exact ⟨d, (hs.others d (hown ▸ hjk)).mpr hd, hstamp, hst⟩

/-- The steps of one call keep what the others know. -/
theorem Stage.of_changes (h : Stage sha256 s j t) (hs : Changes k s s') (hjk : j ≠ k) :
    Stage sha256 s' j t := by
  have hfree : (∀ d ∈ s.docs, d.ownerToken ≠ j) → ∀ d ∈ s'.docs, d.ownerToken ≠ j := by
    intro hnone d hd hown
    exact hnone d ((hs.others d (hown ▸ hjk)).mp hd) hown
  unfold Stage at h ⊢
  cases hpc : t.pc <;> simp only [hpc] at h ⊢
  case gate => exact hfree h
  case prepare => exact hfree h
  case provider => exact h.of_changes hs hjk
  case markSending => exact h.of_changes hs hjk
  case push => exact h.of_changes hs hjk
  case finish =>
    obtain ⟨st, hst, hown⟩ := h
    exact ⟨st, hst, hown.of_changes hs hjk⟩

theorem gate_cases (sha256 : Seed → ℕ) (c : Call) (o : Chance) :
    c.gate sha256 o = .prepare ∨ ∃ r, c.gate sha256 o = .returned r := by
  unfold Call.gate
  split
  · exact .inr ⟨_, rfl⟩
  · split
    · exact .inr ⟨_, rfl⟩
    · split
      · exact .inr ⟨_, rfl⟩
      · split
        · exact .inl rfl
        · exact .inr ⟨_, rfl⟩

theorem stage_gate (h : ∀ d ∈ s.docs, d.ownerToken ≠ k) :
    Stage sha256 s k ⟨c, c.gate sha256 o⟩ := by
  obtain hpc | ⟨r, hpc⟩ := gate_cases sha256 c o <;> rw [hpc]
  · exact h
  · trivial

theorem afterPush_eq_finish (sha256 : Seed → ℕ) (c : Call) (a : Answer) : ∃ w r r', c.afterPush sha256 a = .finish w r r' := by
  cases a with
  | raised e => exact ⟨_, _, _, rfl⟩
  | answered r =>
    unfold Call.afterPush Call.afterAnswer
    dsimp only
    split_ifs <;> exact ⟨_, _, _, rfl⟩

theorem held_prepareDelivery (h : Held s) (hs : s.prepareDelivery sha256 c k = some s') :
    Held s' ∧ Owns sha256 k c .prepared s' := by
  have hrows : s'.docs.rows = s.docs.rows ++ [c.document sha256 k] := (Deliveries.insertOne_eq_some hs).1
  have hmem (d : Delivery) : d ∈ s'.docs ↔ d ∈ s.docs ∨ d = c.document sha256 k := by
    rw [mem_def, hrows, mem_append, mem_singleton, mem_def]
  refine ⟨fun d hd hopen => ?_, c.document sha256 k, (hmem _).mpr (.inr rfl), rfl, rfl⟩
  obtain hd | rfl := (hmem d).mp hd
  · exact h d hd hopen
  · rfl

theorem held_markSending (h : Held s) : Held (s.markSending identity owner) := by
  intro d hd hopen
  obtain ⟨e, he, rfl⟩ := Deliveries.mem_markSending.mp hd
  split
  · rename_i hq
    have hprepared : e.state = .prepared := of_decide_eq_true (Bool.and_eq_true_iff.mp hq).2
    exact h e he (by rw [hprepared]; rfl)
  · rename_i hq
    rw [if_neg hq] at hopen
    exact h e he hopen

theorem owns_markSending (h : Owns sha256 k c .prepared s) :
    Owns sha256 k c .sending (s.markSending (c.identity sha256) k) := by
  obtain ⟨d, hd, hstamp, hst⟩ := h
  have hown : isOwn (c.identity sha256) k d = true :=
    isOwn_iff.mpr ⟨congrArg Prod.fst hstamp, congrArg (fun x => x.2.1) hstamp⟩
  refine ⟨markedSending d, Deliveries.mem_markSending.mpr ⟨d, hd, ?_⟩, hstamp, rfl⟩
  rw [if_pos (by simp [hown, hst])]

/-- The write of an outcome finds its document open: an outcome that is unknown keeps the
payload. -/
theorem held_finish {w : Finish} (h : Held s) (hst : st.isOpen = true) (hown : Owns sha256 k c st s) :
    Held (s.finish (c.identity sha256) k w) := by
  obtain ⟨e, he, hstamp, hestate⟩ := hown
  intro f hf hopen
  obtain ⟨d, hd, rfl⟩ := Deliveries.mem_finish.mp hf
  split
  · rename_i hq
    have hde : d = e := eq_of_key hd he
      ((isOwn_iff.mp hq).1.trans (congrArg Prod.fst hstamp).symm)
    subst hde
    rw [if_pos hq] at hopen
    have hkeeps : (w.write d).activeFingerprint = d.activeFingerprint :=
      if_neg (Bool.eq_false_iff.mp (State.not_isTerminal hopen))
    rw [hkeeps]
    exact h d hd (hestate ▸ hst)
  · rename_i hq
    rw [if_neg hq] at hopen
    exact h d hd hopen

theorem advance_stage (h : Held s) (ht : Stage sha256 s k t)
    (hadv : advance sha256 k s t o = some (s', pc')) :
    Held s' ∧ Stage sha256 s' k { t with pc := pc' } := by
  obtain ⟨c, pc⟩ := t
  unfold advance at hadv
  cases pc <;> simp only at hadv
  case gate =>
    cases hadv
    exact ⟨h, stage_gate ht⟩
  case prepare =>
    split at hadv <;> cases hadv
    · rename_i hs
      obtain ⟨hheld, hown⟩ := held_prepareDelivery h hs
      refine ⟨hheld, ?_⟩
      split
      · exact hown
      · exact hown
    · exact ⟨h, trivial⟩
  case existing =>
    cases hadv
    exact ⟨h, trivial⟩
  case provider =>
    cases hadv
    refine ⟨h, ?_⟩
    split
    · exact ht
    · exact ⟨.prepared, rfl, ht⟩
  case markSending =>
    cases hadv
    refine ⟨held_markSending h, ?_⟩
    split
    · exact owns_markSending ht
    · trivial
  case push =>
    cases hadv
    obtain ⟨w, r, r', hpc⟩ := afterPush_eq_finish sha256 c o.answer
    refine ⟨h, ?_⟩
    rw [hpc]
    exact ⟨.sending, rfl, ht⟩
  case finish w r r' =>
    cases hadv
    obtain ⟨st, hst, hown⟩ := ht
    exact ⟨held_finish h hst hown, trivial⟩
  case returned => cases hadv
  case stopped => cases hadv

theorem onError_eq_returned {pc : Pc} (h : onError sha256 c pc = some pc') :
    ∃ r, pc' = .returned r := by
  cases pc <;> cases h <;> exact ⟨_, rfl⟩

/-- A move does to the collection what a step that is carried out does, or nothing. -/
theorem stepOf_cases (h : stepOf sha256 k s t m = some (s', t')) :
    (∃ o pc', m = .advance o ∧ advance sha256 k s t o = some (s', pc') ∧ t' = { t with pc := pc' }) ∨
      ((s' = s ∨ ∃ pc', advance sha256 k s t {} = some (s', pc')) ∧ t'.call = t.call ∧
        (t'.pc = .stopped ∨ ∃ r, t'.pc = .returned r)) := by
  cases m with
  | advance o =>
    obtain ⟨⟨s₁, pc'⟩, hadv, heq⟩ := Option.map_eq_some_iff.mp h
    obtain ⟨rfl, rfl⟩ := Prod.mk.inj heq
    exact .inl ⟨o, pc', rfl, hadv, rfl⟩
  | fail =>
    obtain ⟨pc', herr, heq⟩ := Option.map_eq_some_iff.mp h
    obtain ⟨rfl, rfl⟩ := Prod.mk.inj heq
    exact .inr ⟨.inl rfl, rfl, .inr (onError_eq_returned herr)⟩
  | lost =>
    obtain ⟨pc', herr, h⟩ := Option.bind_eq_some_iff.mp h
    obtain ⟨⟨s₁, pc''⟩, hadv, heq⟩ := Option.map_eq_some_iff.mp h
    obtain ⟨rfl, rfl⟩ := Prod.mk.inj heq
    exact .inr ⟨.inr ⟨pc'', hadv⟩, rfl, .inr (onError_eq_returned herr)⟩
  | stop =>
    cases h
    exact .inr ⟨.inl rfl, rfl, .inl rfl⟩

theorem stepOf_changes (h : stepOf sha256 k s t m = some (s', t')) : Changes k s s' := by
  obtain ⟨o, pc', -, hadv, -⟩ | ⟨rfl | ⟨pc', hadv⟩, -, -⟩ := stepOf_cases h
  · exact advance_changes hadv
  · exact .refl
  · exact advance_changes hadv

def OwnersStarted (p : Pool Deliveries Thread) : Prop :=
  ∀ d ∈ p.store.docs, d.ownerToken < p.threads.length

theorem reach_ownersStarted (hp : (calls sha256).machine.Reachable p) :
    (calls sha256).machine.Reach (fun p _ => OwnersStarted p) p := by
  refine Machine.Reach.mono (fun _ _ h => h.2) (hp.strengthen OwnersStarted (fun p h₀ => ?_) ?_)
  · intro d hd
    rw [h₀.1] at hd
    exact absurd hd not_mem_empty
  · intro p a p' hq _ hs
    cases a with
    | env e => exact e.elim
    | call c =>
      obtain ⟨t, -, hstore, hthreads⟩ := Program.next_call hs
      intro d hd
      rw [hstore] at hd
      rw [hthreads, length_append]
      have hlt := hq d hd
      omega
    | step k m =>
      obtain ⟨t, t', ht, hstep, hthreads⟩ := Program.next_step hs
      intro d hd
      rw [hthreads, length_set]
      by_cases hdk : d.ownerToken = k
      · rw [hdk]
        exact (List.getElem?_eq_some_iff.mp ht).1
      · exact hq d (((stepOf_changes hstep).others d hdk).mp hd)

theorem preserves_stage :
    Program.Preserves (calls sha256) (fun p _ => OwnersStarted p) Held (Stage sha256)
      (fun _ _ => True) where
  symm _ _ _ := trivial
  init _ hs := by
    rintro d hd
    rw [hs] at hd
    exact absurd hd not_mem_empty
  env _ e := e.elim
  call p c t hp hq ht := by
    obtain rfl := Option.some.inj ht
    exact ⟨fun d hd => Nat.ne_of_lt (hq d hd), fun _ _ => trivial⟩
  step p k m t s' t' hp _ ht hs := by
    have hchanges := stepOf_changes hs
    suffices hown : Held s' ∧ Stage sha256 s' k t' from
      ⟨hown.1, hown.2, fun j u hjk hu => ⟨(hp.thread j u hu).of_changes hchanges hjk, trivial⟩⟩
    have hstage := hp.thread k t ht
    obtain ⟨o, pc', -, hadv, rfl⟩ | ⟨hstore, -, hpc⟩ := stepOf_cases hs
    · exact advance_stage hp.store hstage hadv
    · refine ⟨?_, ?_⟩
      · obtain rfl | ⟨pc', hadv⟩ := hstore
        · exact hp.store
        · exact (advance_stage hp.store hstage hadv).1
      · unfold Stage
        obtain hpc | ⟨r, hpc⟩ := hpc <;> rw [hpc] <;> trivial

theorem inv_stage (hp : (calls sha256).machine.Reachable p) :
    Program.Inv Held (Stage sha256) (fun _ _ => True) p :=
  preserves_stage.reach (reach_ownersStarted hp)

/-! ### The log -/

/-- The call is past its push, or will make none. -/
def Pc.isPast : Pc → Bool
  | .finish _ _ _ | .returned _ | .stopped => true
  | _ => false

theorem isPast_of_stepOf (h : stepOf sha256 k s t m = some (s', t')) (ht : t.pc.isPast = true) :
    t'.pc.isPast = true := by
  obtain ⟨o, pc', -, hadv, rfl⟩ | ⟨-, -, hpc⟩ := stepOf_cases h
  · obtain ⟨c, pc⟩ := t
    cases pc <;> cases ht <;> cases hadv
    rfl
  · obtain hpc | ⟨r, hpc⟩ := hpc <;> rw [hpc] <;> rfl

variable {x : Sent}

theorem of_mem_sends (h : x ∈ sends sha256 p a) :
    ∃ k o c, a = .step k (.advance o) ∧ p.threads[k]? = some ⟨c, .push⟩ ∧
      x = ⟨c.identity sha256, c.payload⟩ := by
  cases a with
  | env e => exact e.elim
  | call c => cases h
  | step k m =>
    cases m with
    | advance o =>
      simp only [sends] at h
      split at h
      · rename_i c hc
        exact ⟨k, o, c, rfl, hc, mem_singleton.mp h⟩
      · cases h
    | fail => cases h
    | lost => cases h
    | stop => cases h

theorem owns_of_mem_sends (hp : (calls sha256).machine.Reachable p) (h : x ∈ sends sha256 p a) :
    ∃ k c, p.threads[k]? = some ⟨c, .push⟩ ∧ Owns sha256 k c .sending p.store ∧
      x = ⟨c.identity sha256, c.payload⟩ := by
  obtain ⟨k, o, c, -, hc, hx⟩ := of_mem_sends h
  exact ⟨k, c, hc, (inv_stage hp).thread k _ hc, hx⟩

/-- Every push has its document, and the owner of the document is past the push. -/
structure Recorded (p : Pool Deliveries Thread) (log : List Sent) : Prop where
  distinct : (log.map Sent.identity).Nodup
  docs : ∀ x ∈ log, ∃ d ∈ p.store.docs, d.operationIdentity = x.identity ∧
    ∃ t, p.threads[d.ownerToken]? = some t ∧ t.pc.isPast = true

variable {log : List Sent}

theorem recorded_step (h : Recorded p log)
    (hs : (calls sha256).machine.step p (.step k m) = some p') (x : Sent) (hx : x ∈ log) :
    ∃ d ∈ p'.store.docs, d.operationIdentity = x.identity ∧
      ∃ t, p'.threads[d.ownerToken]? = some t ∧ t.pc.isPast = true := by
  obtain ⟨t, t', ht, hstep, hthreads⟩ := Program.next_step hs
  obtain ⟨d, hd, hid, u, hu, hpast⟩ := h.docs x hx
  obtain ⟨d', hd', hstamp⟩ := (stepOf_changes hstep).kept d hd
  have howner : d'.ownerToken = d.ownerToken := congrArg (fun x => x.2.1) hstamp
  refine ⟨d', hd', (congrArg Prod.fst hstamp).trans hid, ?_⟩
  rw [howner, hthreads]
  by_cases hk : d.ownerToken = k
  · rw [hk] at hu ⊢
    rw [ht] at hu
    obtain rfl := Option.some.inj hu
    exact ⟨t', by rw [List.getElem?_set_self (List.getElem?_eq_some_iff.mp ht).1],
      isPast_of_stepOf hstep hpast⟩
  · exact ⟨u, by rw [List.getElem?_set_ne (Ne.symm hk), hu], hpast⟩

theorem Recorded.next (hp : (calls sha256).machine.Reachable p) (h : Recorded p log)
    (hs : (calls sha256).machine.step p a = some p') : Recorded p' (sends sha256 p a ++ log) := by
  cases a with
  | env e => exact e.elim
  | call c =>
    obtain ⟨t, -, hstore, hthreads⟩ := Program.next_call hs
    refine ⟨h.distinct, fun x hx => ?_⟩
    obtain ⟨d, hd, hid, u, hu, hpast⟩ := h.docs x hx
    refine ⟨d, hstore ▸ hd, hid, u, ?_, hpast⟩
    rw [hthreads, List.getElem?_append_left (List.getElem?_eq_some_iff.mp hu).1, hu]
  | step k m =>
    refine ⟨?_, fun x hx => ?_⟩
    · rw [map_append]
      refine List.Nodup.append ?_ h.distinct ?_
      · unfold sends
        split
        · split <;> simp
        · simp
      · intro i hi hlog
        obtain ⟨x, hx, rfl⟩ := mem_map.mp hi
        obtain ⟨y, hy, hyx⟩ := mem_map.mp hlog
        obtain ⟨d, hd, hid, u, hu, hpast⟩ := h.docs y hy
        obtain ⟨j, c, hc, hown, rfl⟩ := owns_of_mem_sends hp hx
        obtain ⟨e, he, hstamp, -⟩ := hown
        have hde : d = e := eq_of_key hd he
          ((hid.trans hyx).trans (congrArg Prod.fst hstamp).symm)
        have howner : d.ownerToken = j := by
          rw [hde]
          exact congrArg (fun x => x.2.1) hstamp
        rw [howner, hc] at hu
        rw [← Option.some.inj hu] at hpast
        cases hpast
    · obtain hx | hx := mem_append.mp hx
      · obtain ⟨j, o, c, ha, hc, rfl⟩ := of_mem_sends hx
        obtain ⟨hjk, rfl⟩ := Act.step.inj ha
        subst hjk
        obtain ⟨t, t', ht, hstep, hthreads⟩ := Program.next_step hs
        rw [hc] at ht
        obtain rfl := Option.some.inj ht
        have hstep : stepOf sha256 k p.store ⟨c, .push⟩ (.advance o) = some (p'.store, t') := hstep
        obtain ⟨e, he, hstamp, -⟩ := (inv_stage hp).thread k _ hc
        obtain ⟨d, hd, hkept⟩ := (stepOf_changes hstep).kept e he
        have hdstamp := hkept.trans hstamp
        refine ⟨d, hd, congrArg Prod.fst hdstamp, t', ?_, ?_⟩
        · rw [show d.ownerToken = k from congrArg (fun x => x.2.1) hdstamp, hthreads,
            List.getElem?_set_self (List.getElem?_eq_some_iff.mp hc).1]
        · obtain ⟨o', pc', hm, hadv, rfl⟩ | ⟨-, -, hpc⟩ := stepOf_cases hstep
          · obtain ⟨-, rfl⟩ := Prod.mk.inj (Option.some.inj hadv)
            obtain ⟨w, r, r', hpc⟩ := afterPush_eq_finish sha256 c o'.answer
            exact congrArg Pc.isPast hpc
          · obtain hpc | ⟨r, hpc⟩ := hpc <;> rw [hpc] <;> rfl
      · exact recorded_step h hs x hx

/-- Exely writes are at most once. In every run, whatever calls, crashes and exceptions it has,
there is at most one push for an identity, no two payloads are pushed under one, and at a push no
other delivery of the payload is prepared, sending or ambiguous. -/
theorem pushed_at_most_once {p : Pool Deliveries Thread} {log : List Sent}
    (h : (calls sha256).machine.ReachLogged (sends sha256) (fun _ _ => True) (p, log)) :
    (log.map Sent.identity).Nodup ∧
      (∀ x ∈ log, ∀ y ∈ log, x.identity = y.identity → x.payload = y.payload) ∧
      ∀ a, ∀ x ∈ sends sha256 p a, ∀ d ∈ p.store.docs,
        d.payloadFingerprint = payloadFingerprint sha256 x.payload → d.operationIdentity ≠ x.identity →
          d.state.isOpen = false := by
  have hrec : Recorded p log := by
    refine h.invariant (fun p log => Recorded p log) (fun p h₀ => ⟨nodup_nil, by simp⟩)
      fun p log a p' hp hi _ hs => hi.next hp hs
  refine ⟨hrec.distinct, fun x hx y hy hxy => ?_, fun a x hx d hd hfp hne => ?_⟩
  · rw [inj_on_of_nodup_map hrec.distinct hx hy hxy]
  · by_contra hopen
    obtain ⟨k, c, hc, ⟨e, he, hstamp, hst⟩, rfl⟩ := owns_of_mem_sends h.reach hx
    have hheld := (inv_stage h.reach).store
    have hefp : e.payloadFingerprint = c.fingerprint sha256 := congrArg (fun x => x.2.2) hstamp
    have hactive := hheld d hd (Bool.eq_true_of_not_eq_false hopen)
    have hactive' := hheld e he (by rw [hst]; rfl)
    rw [hfp] at hactive
    rw [hefp] at hactive'
    have hde : d = e := p.store.active d hd e he _ hactive hactive'
    exact hne (hde ▸ congrArg Prod.fst hstamp)

/-! ### A run -/

def sampleHash : Seed → ℕ
  | .durable _ identity => 2 * identity
  | .payload x => 2 * x.roomTypeCode.getD 0 + 1

/-- Four rooms of room type 3 for a day, under the identity of an attempt. -/
def sampleCall (identity : ℕ) : Call where
  operation := .availability
  update :=
    { tenantId := some 0
      propertyId := some 0
      roomTypeCode := some 3
      ratePlanCode := some 5
      startDate := .day 20000
      endDate := .day 20000
      value := .scalar (.int 4)
      operationIdentity := some identity }
  writeEnabled := some true
  hasProvider := true

def pushes (w : Pool Deliveries Thread × List Sent) : List ℕ × List (State × ℕ) :=
  (w.2.map Sent.identity, w.1.store.docs.rows.map fun d => (d.state, d.attempts))

/-- A push that times out leaves its delivery ambiguous. The same update under another identity,
and the same call again, are not sent. -/
theorem pushed_at_most_once_timeout : ∃ p log,
    (calls sampleHash).machine.ReachLogged (sends sampleHash) (fun _ _ => True) (p, log) ∧
      pushes (p, log) = ([2], [(.ambiguous, 1)]) ∧ (log.map Sent.identity).Nodup := by
  obtain ⟨⟨p, log⟩, hp, hv⟩ := Machine.exists_reachable_of_run
    (M := (calls sampleHash).machine.logged (sends sampleHash))
    (s := (⟨.empty, []⟩, [])) (f := pushes) (v := ([2], [(.ambiguous, 1)]))
    (List.flatten [[.call (sampleCall 1), .call (sampleCall 2), .call (sampleCall 1)],
      List.replicate 5 (.step 0 (.advance {})), List.replicate 3 (.step 1 (.advance {})),
      List.replicate 3 (.step 2 (.advance {}))]) ⟨⟨rfl, rfl⟩, rfl⟩ (by decide +kernel)
  exact ⟨p, log, hp, hv, (pushed_at_most_once hp).1⟩

end SyrocePms.ExelyAri
