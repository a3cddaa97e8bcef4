import SyrocePms.Outbox.Worker

/-! Fencing of the outbox. A completion and a failure are written under the id and the
status of the event alone, so what keeps a worker out whose event was recovered is that
the later claim has ended. The attempts that a worker's copy carries tell its claim from
every other one. -/

namespace SyrocePms.Outbox

open Lib Collection

variable {s s' : Store} {p : Event → Bool} {f : Event → Event} {e y : Event} {event k : ℕ}
  {w : Worker} {m : Move} {pc pc' : Pc} {t t' : Thread}

namespace Store

theorem mem_write {hf : ∀ e, (f e).id = e.id} :
    e ∈ (s.write p f hf).events ↔ ∃ x ∈ s.events, e = if p x then f x else x := by
  unfold write
  rw [mem_updateMany]

theorem mem_claim (hy : y ∈ s.events) :
    e ∈ (s.claim k w y).events ↔ (e ∈ s.events ∧ e.id ≠ y.id) ∨ e = s.claimed w y := by
  have hw : (s.claim k w y).events =
      (s.write (fun x => decide (x.id = y.id)) (s.claimed w) (s.claimed_id w)).events := rfl
  rw [hw, mem_write]
  constructor
  · rintro ⟨x, hx, rfl⟩
    by_cases hid : x.id = y.id
    · rw [if_pos (decide_eq_true hid), eq_of_key hx hy hid]
      exact .inr rfl
    · rw [if_neg (by simpa using hid)]
      exact .inl ⟨hx, hid⟩
  · rintro (⟨he, hid⟩ | rfl)
    · exact ⟨e, he, by rw [if_neg (by simpa using hid)]⟩
    · exact ⟨y, hy, by rw [if_pos (decide_eq_true rfl)]⟩

theorem write_eq_self_iff {hf : ∀ e, (f e).id = e.id} (hs : ∀ e, (f e).status ≠ .processing) :
    s.write (inProcess event) f hf = s ↔
      ∀ x ∈ s.events, x.id = event → x.status ≠ .processing := by
  constructor
  · intro h x hx hid hst
    have hp : inProcess event x = true := by simp [inProcess, hid, hst]
    have hfx : f x ∈ (s.write (inProcess event) f hf).events :=
      mem_write.mpr ⟨x, hx, by rw [if_pos hp]⟩
    rw [h] at hfx
    have heq : f x = x := eq_of_key hfx hx (hf x)
    have hne := hs x
    rw [heq] at hne
    exact hne hst
  · intro h
    have hself : s.events.updateMany (inProcess event) f hf = s.events :=
      updateMany_eq_self fun x hx hp =>
        h x hx (inProcess_processing hp).1 (inProcess_processing hp).2
    rw [write, hself]

theorem holder_claim_self (s : Store) (k : ℕ) (w : Worker) (y : Event) :
    (s.claim k w y).holder y.id = some k := by
  simp [holder, claim]

theorem holder_claim_of_ne (h : y.id ≠ event) : (s.claim k w y).holder event = s.holder event := by
  simp [holder, claim, write, h]

theorem mem_enqueue {a : NewEvent} (h : e ∈ s.events) : e ∈ (s.enqueue a).events := by
  unfold enqueue
  split
  · exact h
  · split
    · rename_i es hes
      exact (mem_insertOne hes).mpr (.inl h)
    · exact h

theorem enqueue_claims (s : Store) (a : NewEvent) : (s.enqueue a).claims = s.claims := by
  unfold enqueue
  split
  · rfl
  · split <;> rfl

end Store

/-- The event in the hand of thread `k` is stored with the attempts of its copy at least,
and has them exactly while no other thread claimed it. -/
def InHand (s : Store) (k : ℕ) (e : Event) : Prop :=
  ∃ x ∈ s.events, x.id = e.id ∧ e.attemptCount ≤ x.attemptCount ∧
    (s.holder e.id = some k ↔ x.attemptCount = e.attemptCount)

def ThreadOk (s : Store) (k : ℕ) (t : Thread) : Prop :=
  ∀ e, t.pc.event? = some e → InHand s k e

namespace InHand

variable {s s' : Store} {k j : ℕ} {e : Event}

theorem of_kept (h : InHand s k e) (hc : s'.claims = s.claims)
    (hk : ∀ x ∈ s.events, ∃ x' ∈ s'.events, x'.id = x.id ∧ x'.attemptCount = x.attemptCount) :
    InHand s' k e := by
  obtain ⟨x, hx, hid, hle, hiff⟩ := h
  obtain ⟨x', hx', hid', hatt⟩ := hk x hx
  refine ⟨x', hx', hid'.trans hid, hatt ▸ hle, ?_⟩
  rw [Store.holder, hc, hatt]
  exact hiff

theorem write (h : InHand s k e) {hf : ∀ e, (f e).id = e.id}
    (hc : ∀ e, (f e).attemptCount = e.attemptCount) : InHand (s.write p f hf) k e := by
  refine h.of_kept rfl fun x hx => ⟨_, Store.mem_write.mpr ⟨x, hx, rfl⟩, ?_⟩
  split
  · exact ⟨hf x, hc x⟩
  · exact ⟨rfl, rfl⟩

theorem claim (h : InHand s k e) (hjk : j ≠ k) (hy : y ∈ s.events) :
    InHand (s.claim j w y) k e := by
  obtain ⟨x, hx, hid, hle, hiff⟩ := h
  by_cases hye : y.id = e.id
  · have hxy : x = y := eq_of_key hx hy (hid.trans hye.symm)
    subst hxy
    refine ⟨s.claimed w x, (Store.mem_claim hx).mpr (.inr rfl), hid, ?_, ?_⟩
    · exact hle.trans (Nat.le_succ _)
    · rw [← hye, Store.holder_claim_self]
      constructor
      · exact fun h => absurd (Option.some.inj h) hjk
      · intro h
        have : x.attemptCount + 1 = e.attemptCount := h
        omega
  · have hxy : x.id ≠ y.id := fun h => hye (h.symm.trans hid)
    refine ⟨x, (Store.mem_claim hy).mpr (.inl ⟨hx, hxy⟩), hid, hle, ?_⟩
    rw [Store.holder_claim_of_ne hye]
    exact hiff

theorem claimed (w : Worker) (hy : y ∈ s.events) : InHand (s.claim k w y) k (s.claimed w y) :=
  ⟨s.claimed w y, (Store.mem_claim hy).mpr (.inr rfl), rfl, le_rfl,
    iff_of_true (Store.holder_claim_self s k w y) rfl⟩

end InHand

/-- A step of thread `k` leaves the events in the hands of the others. -/
theorem Stepped.inHand {j : ℕ} (h : Stepped k s w m pc s' pc') (hkj : k ≠ j) (he : InHand s j e) :
    InHand s' j e := by
  cases h with
  | keep => exact he
  | release p f hf _ hc => exact he.write fun x => (hc x).1
  | dispatch => exact he.of_kept rfl fun x hx => ⟨x, hx, rfl, rfl⟩
  | claim y hy => exact he.claim hkj hy

/-- The thread has the event in its own hand after its step. -/
theorem Stepped.threadOk (h : Stepped k s t.worker m t.pc s' t'.pc) (hok : ThreadOk s k t) :
    ThreadOk s' k t' := by
  obtain ⟨w, pc⟩ := t
  obtain ⟨w', pc'⟩ := t'
  intro e he
  have hold (hh : Holds pc pc') : InHand s k e := by
    obtain hnone | hsame := hh.event
    · cases hnone.symm.trans he
    · exact hok e (hsame.symm.trans he)
  cases h with
  | keep _ hh => exact hold hh
  | release p f hf _ hc _ _ _ hh => exact (hold hh).write fun x => (hc x).1
  | dispatch _ _ _ _ hh => exact (hold hh).of_kept rfl fun x hx => ⟨x, hx, rfl, rfl⟩
  | claim y hy _ _ _ hpc =>
    obtain rfl | ⟨left, rfl⟩ := hpc
    · cases he
    · cases he
      exact .claimed w hy

/-- The attempts tell the claims apart, in every run. -/
theorem preserves_inHand (C : Pool Store Thread → Act Env Worker Move → Prop) :
    calls.Preserves C (fun _ => True) ThreadOk fun _ _ => True where
  symm _ _ _ := trivial
  init _ _ := trivial
  env p a s' hi _ h := by
    cases h
    refine ⟨trivial, fun k t ht e he => ?_⟩
    have hin := hi.thread k t ht e he
    cases a with
    | clock n => exact hin.of_kept rfl fun x hx => ⟨x, hx, rfl, rfl⟩
    | enqueue a =>
      exact hin.of_kept (Store.enqueue_claims _ a) fun x hx => ⟨x, Store.mem_enqueue hx, rfl, rfl⟩
  call p w t _ _ h := by
    cases h
    refine ⟨fun e he => ?_, fun _ _ => trivial⟩
    cases he
  step p k m t s' t' hi _ ht h := by
    have hst := step_stepped h
    refine ⟨trivial, hst.threadOk (hi.thread k t ht), fun j u hjk hu => ⟨?_, trivial⟩⟩
    exact fun e he => hst.inHand (Ne.symm hjk) (hi.thread j u hu e he)

/-! ### Outcome writes -/

theorem settle_write (h : t.step k s m = some (s', t')) (he : t.pc.settles? = some e) :
    (m.outside? = none ∧ s' = s) ∨ (m.outside?.isSome = true ∧
      ∃ (f : Event → Event) (hf : ∀ x, (f x).id = x.id), (∀ x, (f x).status ≠ .processing) ∧
        s' = s.write (Store.inProcess e.id) f hf) := by
  have hadv {o : Outside} {pc' : Pc} (hs : advance k s t.worker o t.pc = some (s', pc')) :
      ∃ (f : Event → Event) (hf : ∀ x, (f x).id = x.id), (∀ x, (f x).status ≠ .processing) ∧
        s' = s.write (Store.inProcess e.id) f hf := by
    obtain ⟨w, pc⟩ := t
    cases pc with
    | markProcessed left x message =>
      cases he
      cases hs
      exact ⟨s.completed message, fun _ => rfl, fun _ h => (by cases h), rfl⟩
    | handleFailure left x message guarded =>
      cases he
      cases hs
      unfold Store.handleFailure
      split
      · exact ⟨s.parked message, fun _ => rfl, fun _ h => (by cases h), rfl⟩
      · exact ⟨s.rescheduled message e.attemptCount, fun _ => rfl, fun _ h => (by cases h), rfl⟩
    | _ => cases he
  cases m with
  | advance o =>
    obtain ⟨⟨s₁, pc'⟩, hs, heq⟩ := Option.map_eq_some_iff.mp h
    cases heq
    exact .inr ⟨rfl, hadv hs⟩
  | lost o error =>
    obtain ⟨⟨s₁, pc'⟩, hs, heq⟩ := Option.map_eq_some_iff.mp h
    cases heq
    exact .inr ⟨rfl, hadv hs⟩
  | raise | crash =>
    cases h
    exact .inl ⟨rfl, rfl⟩

def OwnAttempt (p : Pool Store Thread) : Act Env Worker Move → Prop
  | .step k m => m.outside?.isSome = true → ∀ t ∈ p.threads[k]?, ∀ e ∈ t.pc.settles?,
      ∀ x ∈ p.store.events.rows, x.id = e.id → x.status = .processing →
        x.attemptCount = e.attemptCount
  | _ => True

instance (p : Pool Store Thread) (a : Act Env Worker Move) : Decidable (OwnAttempt p a) := by
  cases a <;> unfold OwnAttempt <;> infer_instance

/-- A step leaves the events alone that are processed or parked. -/
theorem Stepped.terminal (h : Stepped k s w m pc s' pc') (he : e ∈ s.events)
    (ht : e.status.terminal = true) : e ∈ s'.events := by
  cases h with
  | keep => exact he
  | release p f hf hp =>
    refine Store.mem_write.mpr ⟨e, he, ?_⟩
    rw [if_neg fun hpe => ?_]
    rw [hp e hpe] at ht
    cases ht
  | dispatch => exact he
  | claim y hy hc =>
    refine (Store.mem_claim hy).mpr (.inl ⟨he, fun hid => ?_⟩)
    have hey : e = y := eq_of_key he hy hid
    rw [hey] at ht
    cases hst : y.status with
    | processed | failed =>
      rw [hst] at hc
      cases hc
    | _ =>
      rw [hst] at ht
      cases ht

theorem terminal_stays {C : Pool Store Thread → Act Env Worker Move → Prop}
    {p p' : Pool Store Thread} (hp : calls.machine.Path C p p') (he : e ∈ p.store.events)
    (ht : e.status.terminal = true) : e ∈ p'.store.events := by
  refine Machine.Path.invariant (fun q => e ∈ q.store.events) (fun q a q' hq _ hs => ?_) hp he
  cases a with
  | env a =>
    have hst : q.store.env a = q'.store := Option.some.inj (Program.next_env hs).1
    rw [← hst]
    cases a with
    | clock n => exact hq
    | enqueue a => exact Store.mem_enqueue hq
  | call w =>
    obtain ⟨t, -, hst, -⟩ := Program.next_call hs
    exact hst ▸ hq
  | step k m =>
    obtain ⟨t, t', -, hst, -⟩ := Program.next_step hs
    exact (step_stepped hst).terminal hq ht

/-- In every run whose steps all write the outcome of their own attempt: the write of a
worker whose event another one has claimed since changes nothing, and it is the condition
that keeps it from doing so; an event that is processed or parked stays as it is. -/
theorem outbox_fencing {p : Pool Store Thread} (h : calls.machine.Reach OwnAttempt p) :
    (∀ k m t e p', p.threads[k]? = some t → t.pc.settles? = some e →
      p.store.holder e.id ≠ some k → calls.machine.step p (.step k m) = some p' →
      (p'.store = p.store ↔ OwnAttempt p (.step k m))) ∧
    ∀ p', calls.machine.Path OwnAttempt p p' → ∀ e ∈ p.store.events,
      e.status.terminal = true → e ∈ p'.store.events := by
  refine ⟨fun k m t e p' ht he hne hs => ?_, fun p' hp e hmem hterm => terminal_stays hp hmem hterm⟩
  have hi := (preserves_inHand OwnAttempt).reach h
  obtain ⟨u, t', hu, hstep, -⟩ := Program.next_step hs
  rw [ht] at hu
  cases hu
  have hhand : InHand p.store k e := by
    refine hi.thread k t ht e ?_
    obtain ⟨w, pc⟩ := t
    cases pc <;> first | exact he | cases he
  obtain ⟨x, hx, hid, -, hiff⟩ := hhand
  have hcond : OwnAttempt p (.step k m) ↔ (m.outside?.isSome = true →
      ∀ x ∈ p.store.events, x.id = e.id → x.status = .processing →
        x.attemptCount = e.attemptCount) := by
    simp only [OwnAttempt, ht, he, Option.mem_def, Option.some.injEq, forall_eq']
    exact Iff.rfl
  rw [hcond]
  obtain ⟨hnone, hst⟩ | ⟨hsome, f, hf, hfs, hst⟩ := settle_write hstep he
  · exact iff_of_true hst (by rw [hnone]; exact fun h => nomatch h)
  · rw [hst, Store.write_eq_self_iff hfs]
    constructor
    · exact fun hno _ y hy hyid hyst => absurd hyst (hno y hy hyid)
    · intro hown y hy hyid hyst
      have hyx : y = x := eq_of_key hy hx (hyid.trans hid.symm)
      have hatt := hown hsome y hy hyid hyst
      exact hne (hiff.mpr (hyx ▸ hatt))

/-! ### Runs -/

def eventsSeen (p : Pool Store Thread) : List (Status × ℕ × Option ℕ) × Option ℕ :=
  (p.store.events.rows.map fun e => (e.status, e.attemptCount, e.worker), p.store.holder 0)

/-- The event whose outcome worker 0 writes next, and whether the write meets the
condition. -/
def nextWrite (p : Pool Store Thread) : Option ℕ × Bool × Bool :=
  ((p.threads[0]?.bind fun t => t.pc.settles?).map Event.id,
    (calls.machine.step p (.step 0 (.advance {}))).isSome,
    decide (OwnAttempt p (.step 0 (.advance {}))))

/-- Worker 0 comes back after worker 1 has processed the event. -/
theorem outbox_fencing_late : ∃ p p', calls.machine.Reach OwnAttempt p ∧
    p.store.holder 0 = some 1 ∧ nextWrite p = (some 0, true, true) ∧
    calls.machine.step p (.step 0 (.advance {})) = some p' ∧ p'.store = p.store := by
  obtain ⟨p, hp, hseen⟩ := Machine.exists_reach_of_runUnder (M := calls.machine)
    (C := OwnAttempt) (f := fun p => (p.store.holder 0, nextWrite p))
    (v := (some 1, some 0, true, true))
    (dispatchedOnce 5 ++ recoveredAndClaimed ++ operations 1 3) emptyOutbox_init (by decide +kernel)
  obtain ⟨hholder, hnext⟩ := Prod.mk.inj hseen
  have hwrite := hnext
  simp only [nextWrite, Prod.mk.injEq, decide_eq_true_eq] at hwrite
  obtain ⟨hset, hstep, hcond⟩ := hwrite
  obtain ⟨p', hp'⟩ := Option.isSome_iff_exists.mp hstep
  obtain ⟨e, he, hid⟩ := Option.map_eq_some_iff.mp hset
  obtain ⟨t, ht, hte⟩ := Option.bind_eq_some_iff.mp he
  have hne : p.store.holder e.id ≠ some 0 := by
    rw [hid, hholder]
    decide
  exact ⟨p, p', hp, hholder, hnext, hp',
    ((outbox_fencing hp).1 0 _ t e p' ht hte hne hp').mpr hcond⟩

/-- Worker 0 completes the event while worker 1 holds it with the second attempt. -/
theorem stale_completion : ∃ p p', calls.machine.Reachable p ∧
    calls.machine.step p (.step 0 (.advance {})) = some p' ∧
    eventsSeen p = ([(.processing, 2, some 20)], some 1) ∧
    eventsSeen p' = ([(.processed, 2, some 20)], some 1) :=
  Machine.exists_step_of_run (dispatchedOnce 5 ++ recoveredAndClaimed) _ emptyOutbox_init
    (by decide +kernel) (by decide +kernel)

end SyrocePms.Outbox
