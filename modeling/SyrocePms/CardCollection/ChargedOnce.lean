import SyrocePms.CardCollection.Recorded

/-! Charges of one key. Every charge has an intent, only a definite refusal makes an intent
failed, and while no call inserts its intent beside an unfailed one, the unfailed intent of a call
is alone. So a charge comes after the refusals of all earlier ones. -/

namespace SyrocePms.CardCollection

open Lib Program Machine List

variable {s s' : Store} {k j : ℕ} {c : Call} {o : Chance} {pc pc' : Pc} {t : Thread} {opening : Opening}
  {p p' : Pool Store Thread} {log es : List Event}
variable {e : Event} {i : Intent}

def Event.call : Event → ℕ
  | .charged k | .refused k | .accepted k | .ambiguous k => k

/-- Each charge comes after the refusals of all earlier ones. The log has its last event first. -/
def OnlyAfterRefusal (log : List Event) : Prop :=
  ∀ k l, (.charged k :: l) <:+ log → ∀ j, .charged j ∈ l → .refused j ∈ l

/-- What an accepted charge leaves: a payment and a completed intent, or no payment and an intent
for the reconciliation. -/
def Settled (s : Store) (k : ℕ) : Prop :=
  Has s k .completed 1 ∨ Has s k .pending 0 ∨ Has s k .completedUnrecorded 0

def InsertsAlone (p : Pool Store Thread) : Act ℕ Call Chance → Prop
  | .step k _ => ∀ t ∈ p.threads[k]?, t.pc ≠ .insertIntent ∨ ∀ i ∈ p.store.intents, i.status = .failed
  | _ => True

def Told (s : Store) (log : List Event) (k : ℕ) : Pc → Prop
  | .guard | .payment _ _ | .provider | .claim | .existing | .insertIntent | .charge =>
    .charged k ∉ log ∧ .accepted k ∉ log
  | .answer | .markUnknown | .markAction _ | .markPending => .accepted k ∉ log
  | .markFailed | .release => .refused k ∈ log ∧ .accepted k ∉ log
  | .stamp | .record => True
  | .markUnrecorded committed => committed = true → .ambiguous k ∈ log
  | .returned _ | .raised => .accepted k ∈ log → .ambiguous k ∈ log ∨ Settled s k

/-! ### The log -/

theorem onlyAfterRefusal_cons (h : OnlyAfterRefusal log)
    (he : ∀ k, e = .charged k → ∀ j, .charged j ∈ log → .refused j ∈ log) :
    OnlyAfterRefusal (e :: log) := by
  intro k l hl
  obtain heq | hl := suffix_cons_iff.mp hl
  · obtain ⟨rfl, rfl⟩ := List.cons.inj heq
    exact he k rfl
  · exact h k l hl

theorem Pc.events_call (h : e ∈ pc.events k o) : e.call = k := by
  cases pc <;> simp only [Pc.events] at h
  case charge =>
    cases mem_singleton.mp h
    rfl
  case answer =>
    split at h
    · cases mem_singleton.mp h
      rfl
    · split at h
      · cases mem_singleton.mp h
        rfl
      · cases h
  case record =>
    split at h
    · cases mem_singleton.mp h
      rfl
    · cases h
  all_goals cases h

theorem Pc.charged_events (h : .charged j ∈ pc.events k o) : pc = .charge := by
  cases pc <;> simp only [Pc.events] at h
  case charge => rfl
  case answer =>
    split at h
    · cases mem_singleton.mp h
    · split at h
      · cases mem_singleton.mp h
      · cases h
  case record =>
    split at h
    · cases mem_singleton.mp h
    · cases h
  all_goals cases h

theorem Pc.events_of_not_handled (h : pc.isHandled = false) : pc.events k o = [] := by
  cases pc <;> first | rfl | cases h

/-! ### The intents -/

/-- What a step of call `k` does to the intents. -/
inductive Wrote (k : ℕ) (s : Store) (pc : Pc) (s' : Store) : Prop
  | same (h : s'.intents = s.intents)
  | inserted {i : Intent} (hpc : pc = .insertIntent) (hid : i.id = .call k) (hst : i.status = .pending)
      (h : s.intents.insertOne i = some s'.intents)
  | set {st st' : IntentStatus} {n : ℕ} {g : Intent → Intent} (hst : Has s k st n) (hne : st ≠ .failed)
      (hg : ∀ i, (g i).status = st') (hfailed : st' = .failed → pc = .markFailed)
      (h : s'.intents = (s.setIntent (.call k) g).intents)

theorem Wrote.of_intents {s₁ : Store} (h : Wrote k s pc s₁) (hs : s'.intents = s₁.intents) : Wrote k s pc s' := by
  cases h with
  | same h => exact .same (hs.trans h)
  | inserted hpc hid hst h => exact .inserted hpc hid hst (hs ▸ h)
  | set hst hne hg hfailed h => exact .set hst hne hg hfailed (hs.trans h)

theorem wrote_set {st : IntentStatus} {n : ℕ} {g : Intent → Intent} (st' : IntentStatus) (hst : Has s k st n)
    (hne : st ≠ .failed) (hg : ∀ i, (g i).status = st') (hfailed : st' = .failed → pc = .markFailed) :
    Wrote k s pc (s.setIntent (.call k) g) := .set hst hne hg hfailed rfl

/-- The transaction of a success writes the intent as a mark does. -/
theorem wrote_record (hs : Has s k .pending 0) :
    Wrote k s pc (s.record c.scope c.request (.call k) (.call k)) := by
  let completed := s.setIntent (.call k) fun i =>
    { i with status := .completed, paymentId := some (.call k), result := some (c.response k) }
  have hw : Wrote k s pc completed := wrote_set .completed hs (by decide) (fun _ => rfl) fun h => absurd h (by decide)
  exact hw.of_intents rfl

theorem perform_wrote (hs : Stage s k pc) (h : perform k s c o pc = some (s', pc')) : Wrote k s pc s' := by
  cases pc <;> simp only [perform] at h
  case claim =>
    split at h <;> cases h
    · exact .same rfl
    · exact .same rfl
  case insertIntent =>
    obtain ⟨intents, hins, heq⟩ := Option.map_eq_some_iff.mp h
    cases heq
    exact .inserted rfl rfl rfl hins
  case markUnknown =>
    cases h
    exact wrote_set .unknown hs (by decide) (fun _ => rfl) fun h => absurd h (by decide)
  case markAction =>
    cases h
    exact wrote_set .requiresAction hs (by decide) (fun _ => rfl) fun h => absurd h (by decide)
  case markPending =>
    cases h
    exact wrote_set .pending hs (by decide) (fun _ => rfl) fun h => absurd h (by decide)
  case markFailed =>
    cases h
    exact wrote_set .failed hs (by decide) (fun _ => rfl) fun _ => rfl
  case record =>
    cases ho : o.commit <;> simp only [ho] at h <;> cases h
    · exact wrote_record hs
    · exact .same rfl
    · exact wrote_record hs
  case markUnrecorded committed =>
    cases h
    cases committed with
    | false => exact wrote_set .completedUnrecorded (hs : Has s k .pending 0) (by decide) (fun _ => rfl) fun h => absurd h (by decide)
    | true => exact wrote_set .completedUnrecorded (hs : Has s k .completed 1) (by decide) (fun _ => rfl) fun h => absurd h (by decide)
  case returned => cases h
  case raised => cases h
  all_goals
    cases h
    exact .same rfl

theorem advance_wrote (hs : Stage s k t.pc) (h : advance k s t o = some (s', pc')) : Wrote k s t.pc s' := by
  obtain h | ⟨-, -, rfl | ⟨pc₁, h⟩⟩ := advance_cases h
  · exact perform_wrote hs h
  · exact .same rfl
  · exact perform_wrote hs h

theorem Wrote.exists_intent {id : Token} (h : Wrote k s pc s') (hi : ∃ i ∈ s.intents, i.id = id) :
    ∃ i ∈ s'.intents, i.id = id := by
  obtain ⟨i, hi, hid⟩ := hi
  cases h with
  | same h =>
    rw [h]
    exact ⟨i, hi, hid⟩
  | inserted _ _ _ h => exact ⟨i, (Collection.mem_insertOne h).mpr (.inl hi), hid⟩
  | set _ _ _ _ h =>
    rw [h]
    by_cases hk : i.id = .call k
    · exact ⟨_, Store.mem_setIntent.mpr (.inr ⟨i, hi, hk, rfl⟩), hid⟩
    · exact ⟨i, Store.mem_setIntent.mpr (.inl ⟨hi, hk⟩), hid⟩

theorem Wrote.failed (h : Wrote k s pc s') (hi : i ∈ s'.intents) (hst : i.status = .failed) :
    i ∈ s.intents ∨ (pc = .markFailed ∧ i.id = .call k) := by
  cases h with
  | same h =>
    rw [h] at hi
    exact .inl hi
  | inserted _ _ hpending h =>
    obtain hi | rfl := (Collection.mem_insertOne h).mp hi
    · exact .inl hi
    · rw [hpending] at hst
      cases hst
  | set _ _ hg hfailed h =>
    rw [h, Store.mem_setIntent] at hi
    obtain ⟨hi, -⟩ | ⟨e, he, hid, rfl⟩ := hi
    · exact .inl hi
    · exact .inr ⟨hfailed ((hg e).symm.trans hst), hid⟩

theorem Wrote.unfailed (h : Wrote k s pc s') (hi : i ∈ s'.intents) (hst : i.status ≠ .failed) :
    (∃ e ∈ s.intents, e.id = i.id ∧ e.status ≠ .failed) ∨ (pc = .insertIntent ∧ i.id = .call k) := by
  cases h with
  | same h =>
    rw [h] at hi
    exact .inl ⟨i, hi, rfl, hst⟩
  | inserted hpc hid _ h =>
    obtain hi | rfl := (Collection.mem_insertOne h).mp hi
    · exact .inl ⟨i, hi, rfl, hst⟩
    · exact .inr ⟨hpc, hid⟩
  | set hhas hne _ _ h =>
    rw [h, Store.mem_setIntent] at hi
    obtain ⟨hi, -⟩ | ⟨e, he, hid, rfl⟩ := hi
    · exact .inl ⟨i, hi, rfl, hst⟩
    · obtain ⟨e', he', hid', hst'⟩ := hhas.intent
      exact .inl ⟨e', he', hid'.trans hid.symm, by rwa [hst']⟩

/-! ### What a call has told -/

theorem settled_of_told (ht : Told s log k pc) (hs : Stage s k pc) (h : .accepted k ∈ log) :
    .ambiguous k ∈ log ∨ Settled s k := by
  cases pc <;> simp only [Told] at ht
  case answer => exact absurd h ht
  case markUnknown => exact absurd h ht
  case markAction => exact absurd h ht
  case markPending => exact absurd h ht
  case stamp => exact .inr (.inr (.inl hs))
  case record => exact .inr (.inr (.inl hs))
  case markUnrecorded committed =>
    cases committed with
    | false => exact .inr (.inr (.inl hs))
    | true => exact .inl (ht rfl)
  case returned => exact ht h
  case raised => exact ht h
  all_goals exact absurd h ht.2

theorem perform_told (ht : Told s log k pc) (hs : Stage s k pc) (h : perform k s c o pc = some (s', pc')) :
    Told s' (pc.events k o ++ log) k pc' := by
  cases pc <;> simp only [perform] at h
  case guard =>
    cases h
    split
    · exact ht
    · split
      · exact fun h => absurd h ht.2
      · exact ht
  case provider =>
    cases h
    split
    · exact ht
    · exact fun h => absurd h ht.2
  case claim =>
    split at h <;> cases h
    · exact ht
    · exact ht
  case insertIntent =>
    obtain ⟨intents, hins, heq⟩ := Option.map_eq_some_iff.mp h
    cases heq
    exact ht
  case charge =>
    cases h
    simpa [Told, Pc.events] using ht.2
  case answer =>
    cases h
    cases ho : o.answer <;> simp [Told, Pc.events, Answer.next, Answer.isRefusal, ho] <;> exact ht
  case stamp =>
    cases h
    trivial
  case record =>
    cases ho : o.commit <;> simp only [ho] at h <;> cases h
    · exact fun _ => .inr (.inl (has_record hs))
    · simp [Told]
    · simp [Told, Pc.events, ho]
  case markUnrecorded committed =>
    cases h
    intro hacc
    cases committed with
    | false => exact .inr (.inr (.inr (has_setIntent (hs : Has s k .pending 0) fun _ => rfl)))
    | true => exact .inl (ht rfl)
  case markUnknown =>
    cases h
    exact fun h => absurd h ht
  case markAction =>
    cases h
    exact fun h => absurd h ht
  case markPending =>
    cases h
    exact fun h => absurd h ht
  case markFailed =>
    cases h
    exact ht
  case returned => cases h
  case raised => cases h
  all_goals
    cases h
    exact fun h => absurd h ht.2

theorem advance_told (ht : Told s log k t.pc) (hs : Stage s k t.pc) (h : advance k s t o = some (s', pc')) :
    Told s' (t.pc.events k o ++ log) k pc' := by
  obtain h | ⟨hh, rfl, hs'⟩ := advance_cases h
  · exact perform_told ht hs h
  · rw [Pc.events_of_not_handled hh, nil_append]
    intro hacc
    obtain rfl | ⟨pc₁, h⟩ := hs'
    · exact settled_of_told ht hs hacc
    · have ht₁ := perform_told ht hs h
      rw [Pc.events_of_not_handled hh, nil_append] at ht₁
      exact settled_of_told ht₁ (perform_stage hs h) hacc

theorem Frame.settled (h : Frame k s s') (hjk : j ≠ k) (hs : Settled s j) : Settled s' j :=
  hs.imp (h.has hjk) (Or.imp (h.has hjk) (h.has hjk))

theorem mem_append_of_ne (hes : ∀ e ∈ es, e.call = k) (hne : e.call ≠ k) :
    e ∈ es ++ log ↔ e ∈ log := by
  rw [mem_append]
  exact ⟨fun h => h.resolve_left fun he => hne (hes e he), .inr⟩

theorem Told.frame (ht : Told s log j pc) (h : Frame k s s') (hjk : j ≠ k) (hes : ∀ e ∈ es, e.call = k) :
    Told s' (es ++ log) j pc := by
  have hcharged : .charged j ∈ es ++ log ↔ .charged j ∈ log := mem_append_of_ne hes hjk
  have haccepted : .accepted j ∈ es ++ log ↔ .accepted j ∈ log := mem_append_of_ne hes hjk
  have hrefused : .refused j ∈ es ++ log ↔ .refused j ∈ log := mem_append_of_ne hes hjk
  have hambiguous : .ambiguous j ∈ es ++ log ↔ .ambiguous j ∈ log := mem_append_of_ne hes hjk
  cases pc <;> simp only [Told, hcharged, haccepted, hrefused, hambiguous] at ht ⊢
  case returned => exact fun hacc => (ht hacc).imp_right (h.settled hjk)
  case raised => exact fun hacc => (ht hacc).imp_right (h.settled hjk)
  all_goals exact ht

/-! ### Runs -/

/-- The log against the intents and the calls. -/
structure Traced (p : Pool Store Thread) (log : List Event) : Prop where
  started : ∀ e ∈ log, e.call < p.threads.length
  charged : ∀ j, .charged j ∈ log → ∃ i ∈ p.store.intents, i.id = .call j
  refused : ∀ j, ∀ i ∈ p.store.intents, i.id = .call j → i.status = .failed → .refused j ∈ log
  alone : ∀ j, ∀ i ∈ p.store.intents, i.id = .call j → i.status ≠ .failed →
    ∀ e ∈ p.store.intents, e.status ≠ .failed → e.id = .call j
  told : ∀ (k : ℕ) t, p.threads[k]? = some t → Told p.store log k t.pc
  after : OnlyAfterRefusal log

theorem traced_init (h : (collections opening).machine.init p) : Traced p [] := by
  obtain ⟨⟨-, hintents, -⟩, hnil⟩ := h
  have hearlier {i : Intent} (hi : i ∈ p.store.intents) {j : ℕ} (hid : i.id = .call j) : False := by
    obtain ⟨n, hn⟩ := hintents i hi
    rw [hn] at hid
    cases hid
  refine ⟨fun _ h => (by cases h), fun _ h => (by cases h), fun j i hi hid => (hearlier hi hid).elim,
    fun j i hi hid => (hearlier hi hid).elim, fun k t ht => ?_, fun k l hl => ?_⟩
  · rw [hnil] at ht
    cases ht
  · cases suffix_nil.mp hl

/-- While a call stands before its charge, its intent is the only one that is not failed. -/
theorem refused_of_charge (h : Traced p log) (hs : Stage p.store k .charge) (ht : Told p.store log k .charge)
    (hj : .charged j ∈ log) : .refused j ∈ log := by
  obtain ⟨i, hi, hid, hst⟩ := hs.intent
  obtain ⟨e, he, hej⟩ := h.charged j hj
  by_cases hf : e.status = .failed
  · exact h.refused j e he hej hf
  · have hkj := h.alone k i hi hid (by rw [hst]; decide) e he hf
    cases hej.symm.trans hkj
    exact absurd hj ht.1

theorem traced_step (h : Traced p log) (hc : InsertsAlone p (.step k o)) (ht : p.threads[k]? = some t)
    (hs : Stage p.store k t.pc) (hadv : advance k p.store t o = some (s', pc')) :
    Traced ⟨s', p.threads.set k { t with pc := pc' }⟩ (t.pc.events k o ++ log) := by
  have hk : k < p.threads.length := (List.getElem?_eq_some_iff.mp ht).1
  have hwrote := advance_wrote hs hadv
  have hfresh (hpc : t.pc = .insertIntent) {i : Intent} (hi : i ∈ p.store.intents) : i.status = .failed :=
    (hc t ht).resolve_left (fun hne => hne hpc) i hi
  refine ⟨fun e he => ?_, fun j hj => ?_, fun j i hi hid hst => ?_, fun j i hi hid hst e he hste => ?_,
    fun j u hu => ?_, ?_⟩
  · rw [length_set]
    obtain he | he := mem_append.mp he
    · rw [Pc.events_call he]
      exact hk
    · exact h.started e he
  · obtain hj | hj := mem_append.mp hj
    · have hjk : j = k := Pc.events_call hj
      rw [Pc.charged_events hj] at hs
      obtain ⟨i, hi, hid, -⟩ := hs.intent
      exact hwrote.exists_intent ⟨i, hi, hjk ▸ hid⟩
    · exact hwrote.exists_intent (h.charged j hj)
  · refine mem_append_right _ ?_
    obtain hi | ⟨hpc, hik⟩ := hwrote.failed hi hst
    · exact h.refused j i hi hid hst
    · have htold := h.told k t ht
      rw [hpc] at htold
      cases hid.symm.trans hik
      exact htold.1
  · obtain ⟨i₀, hi₀, hid₀, hst₀⟩ | ⟨hpc, hik⟩ := hwrote.unfailed hi hst
    · obtain ⟨e₀, he₀, hide₀, hste₀⟩ | ⟨hpc, -⟩ := hwrote.unfailed he hste
      · exact hide₀ ▸ h.alone j i₀ hi₀ (hid₀.trans hid) hst₀ e₀ he₀ hste₀
      · exact absurd (hfresh hpc hi₀) hst₀
    · obtain ⟨e₀, he₀, -, hste₀⟩ | ⟨-, hek⟩ := hwrote.unfailed he hste
      · exact absurd (hfresh hpc he₀) hste₀
      · exact hek.trans (hik.symm.trans hid)
  · obtain ⟨hjk, hu⟩ | ⟨rfl, rfl⟩ := getElem?_set_some hu
    · exact (h.told j u hu).frame (advance_frame hadv) hjk fun e he => Pc.events_call he
    · exact advance_told (h.told j t ht) hs hadv
  · cases hev : t.pc.events k o with
    | nil => exact h.after
    | cons e es =>
      have hnil : es = [] := by
        cases hpc : t.pc <;> simp only [hpc, Pc.events] at hev
        case charge => exact (List.cons.inj hev).2.symm
        case answer =>
          split at hev
          · exact (List.cons.inj hev).2.symm
          · split at hev
            · exact (List.cons.inj hev).2.symm
            · cases hev
        case record =>
          split at hev
          · exact (List.cons.inj hev).2.symm
          · cases hev
        all_goals cases hev
      rw [hnil]
      refine onlyAfterRefusal_cons h.after fun i hi j hj => ?_
      have hmem : Event.charged i ∈ t.pc.events k o := hev ▸ hi ▸ mem_cons_self
      have htold := h.told k t ht
      rw [Pc.charged_events hmem] at hs htold
      exact refused_of_charge h hs htold hj

theorem traced_next {a : Act ℕ Call Chance} (hp : (collections opening).machine.Reachable p) (h : Traced p log)
    (hc : InsertsAlone p a) (hs : (collections opening).machine.step p a = some p') :
    Traced p' (events p a ++ log) := by
  cases a with
  | env scope =>
    cases hs
    refine ⟨h.started, h.charged, h.refused, h.alone, fun k t ht => ?_, h.after⟩
    have hnone : ∀ e ∈ ([] : List Event), e.call = k + 1 := fun e he => by cases he
    exact (h.told k t ht).frame (dropLock_frame p.store scope (k + 1)) (Nat.ne_of_lt (Nat.lt_succ_self k)) hnone
  | call c =>
    cases hs
    refine ⟨fun e he => ?_, h.charged, h.refused, h.alone, fun k t ht => ?_, h.after⟩
    · rw [length_append]
      exact Nat.lt_add_right 1 (h.started e he)
    · obtain ht | ⟨rfl, rfl⟩ := getElem?_append_one ht
      · exact h.told k t ht
      · have hnone {e : Event} (he : e ∈ log) (hcall : e.call = p.threads.length) : False := by
          have hlt := h.started e he
          omega
        exact ⟨fun he => hnone he rfl, fun he => hnone he rfl⟩
  | step k o =>
    obtain ⟨t, t', ht, hst, hset⟩ := next_step hs
    obtain ⟨pc', rfl, hadv⟩ := step_advance hst
    have hev : events p (.step k o) = t.pc.events k o := by simp [events, ht]
    have hp' : p' = ⟨p'.store, p.threads.set k { t with pc := pc' }⟩ := by rw [← hset]
    rw [hev, hp']
    exact traced_step h hc ht (stage_of_reachable hp ht) hadv

theorem traced_of_reachLogged
    (hp : (collections opening).machine.ReachLogged events InsertsAlone (p, log)) : Traced p log :=
  hp.invariant Traced (fun _ h => traced_init h)
    fun _ _ _ _ hr h hc hs => traced_next (hr.mono fun _ _ _ => trivial) h hc hs

/-- While each call inserts its intent alone, no card is charged twice, and what was charged is
recorded once or left for the reconciliation. -/
theorem card_charged_once
    (hp : (collections opening).machine.ReachLogged events InsertsAlone (p, log)) :
    OnlyAfterRefusal log ∧ (∀ k, .accepted k ∈ log → .ambiguous k ∉ log → Settled p.store k) ∧
      p.store.Balanced opening := by
  have htraced := traced_of_reachLogged hp
  have hreach : (collections opening).machine.Reachable p := hp.reach.mono fun _ _ _ => trivial
  refine ⟨htraced.after, fun k hacc hamb => ?_, balanced_of_reachable hreach⟩
  have hk : k < p.threads.length := htraced.started _ hacc
  have ht : p.threads[k]? = some p.threads[k] := getElem?_eq_getElem hk
  exact (settled_of_told (htraced.told k _ ht) (stage_of_reachable hreach ht) hacc).resolve_left hamb

/-! ### Runs -/

instance {a : Act ℕ Call Chance} : Decidable (InsertsAlone p a) := by
  rcases a with _ | _ | _ <;> unfold InsertsAlone <;> infer_instance

def newBooking : Store := ⟨.empty, .empty, [], ⟨[⟨1, 300⟩], by decide⟩, 0⟩

def bookingOpening : Opening := ⟨fun _ => 300, 0⟩

theorem newBooking_init : (collections bookingOpening).machine.init ⟨newBooking, []⟩ := by
  refine ⟨⟨⟨fun f hf => ?_, rfl⟩, fun i hi => ?_, fun q hq => ?_⟩, rfl⟩
  · cases mem_singleton.mp hf
    rfl
  · cases hi
  · cases hq

def payFolio : Call := ⟨0, ⟨1, 300, 0, 5, 0⟩, none⟩

def runs (k n : ℕ) : List (Act ℕ Call Chance) := List.replicate n (.step k {})

/-- A retry read the intents before the first call wrote its own. The lock expires while the
answer to the first charge is still out, and the retry charges again. -/
theorem charged_beside_unknown :
    ∃ w, (collections bookingOpening).machine.ReachLogged events (fun _ _ => True) w ∧
      (w.2, w.1.store.intents.rows.map fun i => (i.id, i.status)) =
        ([.charged 1, .charged 0], [(.call 0, .unknown), (.call 1, .pending)]) ∧ ¬OnlyAfterRefusal w.2 := by
  obtain ⟨w, hw, hv⟩ := exists_reachable_of_run
    (M := (collections bookingOpening).machine.logged events) (s := (⟨newBooking, []⟩, []))
    (f := fun w => (w.2, w.1.store.intents.rows.map fun i => (i.id, i.status)))
    (v := ([.charged 1, .charged 0], [(.call 0, .unknown), (.call 1, .pending)]))
    (List.flatten [[.call payFolio, .call payFolio], runs 0 1, runs 1 1, runs 0 4,
      [.step 0 { answer := .serverError }, .step 0 {}, .env 0], runs 1 4]) ⟨newBooking_init, rfl⟩
    (by decide +kernel)
  refine ⟨w, hw, hv, fun h => ?_⟩
  have hlog : w.2 = [.charged 1, .charged 0] := congrArg Prod.fst hv
  rw [hlog] at h
  exact absurd (h 1 [.charged 0] suffix_rfl 0 mem_cons_self) (by decide)

/-- A retry after a refusal. -/
theorem card_charged_once_retry :
    ∃ w, (collections bookingOpening).machine.ReachLogged events InsertsAlone w ∧
      w.2 = [.accepted 1, .charged 1, .refused 0, .charged 0] ∧ OnlyAfterRefusal w.2 ∧ Settled w.1.store 1 := by
  obtain ⟨⟨p, log⟩, hw, hlog⟩ := exists_reach_of_runUnder
    (M := (collections bookingOpening).machine.logged events) (s := (⟨newBooking, []⟩, []))
    (C := fun w a => InsertsAlone w.1 a) (f := Prod.snd)
    (v := [.accepted 1, .charged 1, .refused 0, .charged 0])
    (List.flatten [[.call payFolio], runs 0 5, [.step 0 { answer := .declined }, .step 0 {},
      .step 0 {}, .call payFolio], runs 1 8]) ⟨newBooking_init, rfl⟩ (by decide +kernel)
  obtain ⟨hafter, hsettled, -⟩ := card_charged_once hw
  have heq : log = [.accepted 1, .charged 1, .refused 0, .charged 0] := hlog
  refine ⟨(p, log), hw, hlog, hafter, hsettled 1 ?_ ?_⟩
  · rw [heq]
    decide
  · rw [heq]
    decide

end SyrocePms.CardCollection
