import SyrocePms.CardCollection.Payments

/-! What a call finds at each of its steps. The intent and the payment of a call carry its uuid,
so no other call writes them. -/

namespace SyrocePms.CardCollection

open Lib Program List

variable {s s' : Store} {k j : ℕ} {c : Call} {o : Chance} {pc pc' : Pc} {t : Thread} {opening : Opening}
  {st : IntentStatus} {n : ℕ} {p p' : Pool Store Thread}
variable {g : Intent → Intent} {scope : ℕ} {x : Request} {intents : Collection Intent Intent.id}
  {i : Intent} {a : Act ℕ Call Chance}

/-- The intent of call `k` has a status, and its payment is there `n` times. -/
structure Has (s : Store) (k : ℕ) (st : IntentStatus) (n : ℕ) : Prop where
  intent : ∃ i ∈ s.intents, i.id = .call k ∧ i.status = st
  payments : (s.payments.countP fun p => p.id = .call k) = n

/-- Neither intent nor payment is there. -/
structure Unborn (s : Store) (k : ℕ) : Prop where
  intent : ∀ i ∈ s.intents, i.id ≠ .call k
  payments : (s.payments.countP fun p => p.id = .call k) = 0

/-- What holds where call `k` stands. -/
def Stage (s : Store) (k : ℕ) : Pc → Prop
  | .guard | .payment _ _ | .provider | .claim | .existing | .insertIntent => Unborn s k
  | .charge | .answer | .markUnknown | .markAction _ | .markPending | .markFailed | .stamp | .record =>
    Has s k .pending 0
  | .markUnrecorded committed => if committed then Has s k .completed 1 else Has s k .pending 0
  | .release | .returned _ | .raised => True

/-- What a step of call `k` leaves: intents and payments of others. -/
structure Frame (k : ℕ) (s s' : Store) : Prop where
  intents : ∀ i : Intent, i.id ≠ .call k → (i ∈ s'.intents ↔ i ∈ s.intents)
  payments : ∀ id : Token, id ≠ .call k →
    (s'.payments.countP fun p => p.id = id) = s.payments.countP fun p => p.id = id

theorem Frame.refl (k : ℕ) (s : Store) : Frame k s s := ⟨fun _ _ => Iff.rfl, fun _ _ => rfl⟩

theorem call_ne (h : j ≠ k) : Token.call j ≠ .call k := fun heq => h (Token.call.inj heq)

theorem Frame.has (h : Frame k s s') (hjk : j ≠ k) (hs : Has s j st n) : Has s' j st n := by
  obtain ⟨i, hi, hid, hst⟩ := hs.intent
  refine ⟨⟨i, (h.intents i (hid ▸ call_ne hjk)).mpr hi, hid, hst⟩, ?_⟩
  rw [h.payments _ (call_ne hjk)]
  exact hs.payments

theorem Frame.unborn (h : Frame k s s') (hjk : j ≠ k) (hs : Unborn s j) : Unborn s' j := by
  refine ⟨fun i hi hid => hs.intent i ((h.intents i (hid ▸ call_ne hjk)).mp hi) hid, ?_⟩
  rw [h.payments _ (call_ne hjk)]
  exact hs.payments

theorem Frame.stage (h : Frame k s s') (hjk : j ≠ k) (hs : Stage s j pc) : Stage s' j pc := by
  cases pc <;> simp only [Stage] at hs ⊢
  case markUnrecorded committed =>
    split at hs
    · rw [if_pos ‹_›]
      exact h.has hjk hs
    · rw [if_neg ‹_›]
      exact h.has hjk hs
  all_goals first | exact h.unborn hjk hs | exact h.has hjk hs

/-! ### The writes -/

theorem setIntent_frame (s : Store) (k : ℕ) (g : Intent → Intent) : Frame k s (s.setIntent (.call k) g) where
  intents i hi := by
    rw [Store.mem_setIntent]
    refine ⟨fun h => ?_, fun h => .inl ⟨h, hi⟩⟩
    obtain ⟨h, -⟩ | ⟨e, -, hid, rfl⟩ := h
    · exact h
    · exact absurd hid hi
  payments _ _ := rfl

theorem has_setIntent (h : Has s k st n) (hg : ∀ i, (g i).status = st') :
    Has (s.setIntent (.call k) g) k st' n := by
  obtain ⟨i, hi, hid, -⟩ := h.intent
  exact ⟨⟨_, Store.mem_setIntent.mpr (.inr ⟨i, hi, hid, rfl⟩), hid, hg i⟩, h.payments⟩

theorem record_frame (s : Store) (k : ℕ) (scope : ℕ) (x : Request) :
    Frame k s (s.record scope x (.call k) (.call k)) where
  intents := (setIntent_frame s k _).intents
  payments id hid := by
    simp only [Store.record, countP_append]
    simp [Request.payment, Ne.symm hid]

theorem has_record (h : Has s k st 0) :
    Has (s.record scope x (.call k) (.call k)) k .completed 1 := by
  obtain ⟨i, hi, hid, -⟩ := h.intent
  refine ⟨⟨_, Store.mem_setIntent.mpr (.inr ⟨i, hi, hid, rfl⟩), hid, rfl⟩, ?_⟩
  simp only [Store.record, countP_append, h.payments]
  simp [Request.payment]

theorem insertIntent_frame (hid : i.id = .call k) (h : s.intents.insertOne i = some intents) :
    Frame k s { s with intents } where
  intents e he := by
    rw [Collection.mem_insertOne h]
    refine ⟨fun h => ?_, .inl⟩
    obtain h | rfl := h
    · exact h
    · exact absurd hid he
  payments _ _ := rfl

theorem has_insertIntent (hs : Unborn s k) (hid : i.id = .call k)
    (h : s.intents.insertOne i = some intents) : Has { s with intents } k i.status 0 :=
  ⟨⟨i, (Collection.mem_insertOne h).mpr (.inr rfl), hid, rfl⟩, hs.payments⟩

/-! ### A step -/

theorem perform_frame (h : perform k s c o pc = some (s', pc')) : Frame k s s' := by
  cases pc <;> simp only [perform] at h
  case claim =>
    split at h <;> cases h
    · exact ⟨fun _ _ => Iff.rfl, fun _ _ => rfl⟩
    · exact .refl k s
  case insertIntent =>
    obtain ⟨intents, hins, heq⟩ := Option.map_eq_some_iff.mp h
    cases heq
    exact insertIntent_frame rfl hins
  case record =>
    cases ho : o.commit <;> simp only [ho] at h <;> cases h
    · exact record_frame s k c.scope c.request
    · exact .refl k s
    · exact record_frame s k c.scope c.request
  case release =>
    cases h
    exact ⟨fun _ _ => Iff.rfl, fun _ _ => rfl⟩
  case returned => cases h
  case raised => cases h
  all_goals
    cases h
    first | exact .refl k s | exact setIntent_frame s k _

theorem perform_stage (hs : Stage s k pc) (h : perform k s c o pc = some (s', pc')) : Stage s' k pc' := by
  cases pc <;> simp only [perform] at h
  case guard =>
    cases h
    split
    · exact hs
    · split
      · trivial
      · exact hs
  case provider =>
    cases h
    split
    · exact hs
    · trivial
  case claim =>
    split at h <;> cases h
    · exact ⟨hs.intent, hs.payments⟩
    · exact hs
  case insertIntent =>
    obtain ⟨intents, hins, heq⟩ := Option.map_eq_some_iff.mp h
    cases heq
    exact has_insertIntent hs rfl hins
  case charge =>
    cases h
    exact hs
  case answer =>
    cases h
    cases o.answer <;> exact hs
  case stamp =>
    cases h
    exact hs
  case record =>
    cases ho : o.commit <;> simp only [ho] at h <;> cases h
    · trivial
    · exact hs
    · exact has_record hs
  case returned => cases h
  case raised => cases h
  all_goals
    cases h
    trivial

/-- A step is carried out, or it raises with its write or without. -/
theorem advance_cases (h : advance k s t o = some (s', pc')) :
    perform k s t.call o t.pc = some (s', pc') ∨
      (t.pc.isHandled = false ∧ pc' = .raised ∧
        (s' = s ∨ ∃ pc₁, perform k s t.call o t.pc = some (s', pc₁))) := by
  obtain ⟨⟨s₁, pc₁⟩, hperf, heq⟩ := Option.map_eq_some_iff.mp h
  cases hh : t.pc.isHandled with
  | true =>
    simp only [hh, if_true] at heq
    cases heq
    exact .inl hperf
  | false =>
    simp only [hh, Bool.false_eq_true, if_false] at heq
    cases hf : o.fails with
    | true =>
      simp only [hf, if_true] at heq
      cases heq
      exact .inr ⟨rfl, rfl, .inl rfl⟩
    | false =>
      simp only [hf, Bool.false_eq_true, if_false] at heq
      cases hl : o.lost with
      | true =>
        simp only [hl, if_true] at heq
        cases heq
        exact .inr ⟨rfl, rfl, .inr ⟨pc₁, hperf⟩⟩
      | false =>
        simp only [hl, Bool.false_eq_true, if_false] at heq
        cases heq
        exact .inl hperf

theorem advance_frame (h : advance k s t o = some (s', pc')) : Frame k s s' := by
  obtain h | ⟨-, -, rfl | ⟨pc₁, h⟩⟩ := advance_cases h
  · exact perform_frame h
  · exact .refl k s'
  · exact perform_frame h

theorem advance_stage (hs : Stage s k t.pc) (h : advance k s t o = some (s', pc')) : Stage s' k pc' := by
  obtain h | ⟨-, rfl, -⟩ := advance_cases h
  · exact perform_stage hs h
  · trivial

/-! ### Over a run -/

/-- Only calls that have started have written intents and payments. -/
def Issued (p : Pool Store Thread) : Prop := ∀ j, p.threads.length ≤ j → Unborn p.store j

theorem step_advance {t' : Thread} (h : (collections opening).step k s t o = some (s', t')) :
    ∃ pc', t' = { t with pc := pc' } ∧ advance k s t o = some (s', pc') := by
  obtain ⟨⟨s₁, pc'⟩, hadv, heq⟩ := Option.map_eq_some_iff.mp h
  cases heq
  exact ⟨pc', rfl, hadv⟩

theorem dropLock_frame (s : Store) (scope k : ℕ) : Frame k s (s.dropLock scope) where
  intents _ _ := Iff.rfl
  payments _ _ := rfl

theorem issued_init (h : (collections opening).machine.init p) : Issued p := by
  obtain ⟨⟨-, hintents, hpayments⟩, -⟩ := h
  refine fun j _ => ⟨fun i hi hid => ?_, countP_eq_zero.mpr fun q hq hid => ?_⟩
  · obtain ⟨n, hn⟩ := hintents i hi
    rw [hn] at hid
    cases hid
  · obtain ⟨n, hn⟩ := hpayments q hq
    rw [decide_eq_true_iff, hn] at hid
    cases hid

theorem issued_next (h : Issued p) (hs : (collections opening).machine.step p a = some p') :
    Issued p' := by
  intro j hj
  cases a with
  | env scope =>
    obtain ⟨henv, ht⟩ := next_env hs
    have hst : p.store.dropLock scope = p'.store := Option.some.inj henv
    rw [ht] at hj
    rw [← hst]
    exact ⟨(h j hj).intent, (h j hj).payments⟩
  | call c =>
    obtain ⟨t, -, hst, ht⟩ := next_call hs
    rw [ht, length_append] at hj
    rw [hst]
    exact h j (by omega)
  | step k o =>
    obtain ⟨t, t', ht, hst, hset⟩ := next_step hs
    obtain ⟨pc', -, hadv⟩ := step_advance hst
    rw [hset, length_set] at hj
    have hk : k < p.threads.length := (List.getElem?_eq_some_iff.mp ht).1
    exact (advance_frame hadv).unborn (by omega) (h j hj)

theorem preserves_stage : Preserves (collections opening) (fun p _ => True ∧ Issued p) (fun _ => True)
    (fun s k t => Stage s k t.pc) (fun _ _ => True) where
  symm _ _ _ := trivial
  init _ _ := trivial
  env p scope s' hp _ henv := by
    cases henv
    exact ⟨trivial, fun k t ht =>
      (dropLock_frame p.store scope (k + 1)).stage (Nat.ne_of_lt (Nat.lt_succ_self k)) (hp.thread k t ht)⟩
  call p c t _ hc hcall := by
    cases hcall
    exact ⟨hc.2 _ le_rfl, fun _ _ => trivial⟩
  step p k o t s' t' hp _ ht hs := by
    obtain ⟨pc', rfl, hadv⟩ := step_advance hs
    refine ⟨trivial, advance_stage (hp.thread k t ht) hadv, fun j u hjk hu => ⟨?_, trivial⟩⟩
    exact (advance_frame hadv).stage hjk (hp.thread j u hu)

theorem stage_of_reachable (hp : (collections opening).machine.Reachable p) (ht : p.threads[k]? = some t) :
    Stage p.store k t.pc := by
  have hreach := hp.strengthen Issued (fun p h => issued_init h) fun p a p' h _ hs => issued_next h hs
  exact (preserves_stage.reach hreach).thread k t ht

/-! ### The ledger -/

theorem setIntent_balanced {id : Token} (h : s.Balanced opening) :
    (s.setIntent id g).Balanced opening := ⟨h.folio, h.booking⟩

theorem record_balanced {payment intent : Token} (h : s.Balanced opening) :
    (s.record scope x payment intent).Balanced opening where
  folio f hf := by
    simp only [Store.record, filter_append, map_append, sum_append]
    change f ∈ s.folios.update x.folio _ (Store.charge_id x.amount) at hf
    obtain ⟨hf, hne⟩ | ⟨e, he, hid, rfl⟩ := Collection.mem_update.mp hf
    · rw [h.folio f hf]
      simp [Request.payment, Ne.symm hne]
    · change e.balance - x.amount = _
      rw [h.folio e he]
      simp only [Request.payment, hid, decide_true, filter_cons_of_pos, filter_nil, map_cons,
        map_nil, sum_cons, sum_nil]
      omega
  booking := by
    simp only [Store.record, map_append, sum_append]
    rw [h.booking]
    simp only [Request.payment, map_cons, map_nil, sum_cons, sum_nil]
    omega

theorem perform_balanced (hs : s.Balanced opening) (h : perform k s c o pc = some (s', pc')) :
    s'.Balanced opening := by
  cases pc <;> simp only [perform] at h
  case claim =>
    split at h <;> cases h
    · exact ⟨hs.folio, hs.booking⟩
    · exact hs
  case insertIntent =>
    obtain ⟨intents, -, heq⟩ := Option.map_eq_some_iff.mp h
    cases heq
    exact ⟨hs.folio, hs.booking⟩
  case record =>
    cases ho : o.commit <;> simp only [ho] at h <;> cases h
    · exact record_balanced hs
    · exact hs
    · exact record_balanced hs
  case release =>
    cases h
    exact ⟨hs.folio, hs.booking⟩
  case returned => cases h
  case raised => cases h
  all_goals
    cases h
    first | exact hs | exact setIntent_balanced hs

theorem balanced_next (h : p.store.Balanced opening)
    (hs : (collections opening).machine.step p a = some p') : p'.store.Balanced opening := by
  cases a with
  | env scope =>
    obtain ⟨henv, -⟩ := next_env hs
    have hst : p.store.dropLock scope = p'.store := Option.some.inj henv
    rw [← hst]
    exact ⟨h.folio, h.booking⟩
  | call c =>
    obtain ⟨t, -, hst, -⟩ := next_call hs
    exact hst ▸ h
  | step k o =>
    obtain ⟨t, t', -, hst, -⟩ := next_step hs
    obtain ⟨pc', -, hadv⟩ := step_advance hst
    obtain hperf | ⟨-, -, heq | ⟨pc₁, hperf⟩⟩ := advance_cases hadv
    · exact perform_balanced h hperf
    · rw [heq]
      exact h
    · exact perform_balanced h hperf

theorem balanced_of_reachable (hp : (collections opening).machine.Reachable p) : p.store.Balanced opening :=
  hp.invariant (fun p => p.store.Balanced opening) (fun p (h : (collections opening).machine.init p) => h.1.1)
    fun _ _ _ h _ hs => balanced_next h hs

end SyrocePms.CardCollection
