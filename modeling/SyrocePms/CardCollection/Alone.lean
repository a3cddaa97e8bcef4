import SyrocePms.CardCollection.Recorded

/-! A call that runs alone, with no fault of the database: the steps of `collect_booking_payment`
one after another until it returns. It asks the provider exactly when all intents of the key are
failed and the lock of its scope is free. -/

namespace SyrocePms.CardCollection

open Lib Collection

variable {s s' : Store} {k : ℕ} {c : Call} {o : Chance} {pc pc' : Pc}
variable {n scope : ℕ} {l : Lock} {kind : Option ℕ} {st : IntentStatus} {x : Request}

def drive (k : ℕ) (c : Call) (o : Chance) : ℕ → Store → Pc → Store × Pc × List Event
  | 0, s, pc => (s, pc, [])
  | n + 1, s, pc =>
    match perform k s c o pc with
    | none => (s, pc, [])
    | some (s', pc') =>
      let r := drive k c o n s' pc'
      (r.1, r.2.1, r.2.2 ++ pc.events k o)

/-- The longest call takes nine steps. -/
def callAlone (k : ℕ) (c : Call) (o : Chance) (s : Store) : Store × Pc × List Event := drive k c o 9 s .guard

theorem drive_succ (h : perform k s c o pc = some (s', pc')) : drive k c o (n + 1) s pc =
      ((drive k c o n s' pc').1, (drive k c o n s' pc').2.1, (drive k c o n s' pc').2.2 ++ pc.events k o) := by
  simp only [drive, h]

theorem drive_returned {out : Outcome} :
    drive k c o n s (.returned out) = (s, .returned out, []) := by
  cases n <;> rfl

theorem drive_frame (n : ℕ) : Frame k s (drive k c o n s pc).1 := by
  induction n generalizing s pc with
  | zero => exact .refl k s
  | succ n ih =>
    cases hperf : perform k s c o pc with
    | none =>
      simp only [drive, hperf]
      exact .refl k s
    | some r =>
      rw [drive_succ hperf]
      have hstep := perform_frame hperf
      have hrest : Frame k r.1 (drive k c o n r.1 r.2).1 := ih
      exact ⟨fun i hi => (hrest.intents i hi).trans (hstep.intents i hi),
        fun id hid => (hrest.payments id hid).trans (hstep.payments id hid)⟩

/-! ### What the guard and the lock turn away -/

theorem answerOf_inl_or_payment (x : Request) (i : Intent) :
    (∃ out, x.answerOf i = .inl out) ∨ ∃ p, x.answerOf i = .inr p := by
  cases x.answerOf i with
  | inl out => exact .inl ⟨out, rfl⟩
  | inr p => exact .inr ⟨p, rfl⟩

theorem callAlone_of_prior {i : Intent} (h : s.prior = some i) :
    ∃ out, callAlone k c o s = (s, .returned out, []) := by
  obtain ⟨out, hout⟩ | ⟨p, hp⟩ := answerOf_inl_or_payment c.request i
  · have hguard : perform k s c o .guard = some (s, .returned out) := by simp only [perform, h, hout]
    refine ⟨out, ?_⟩
    rw [callAlone, drive_succ hguard, drive_returned]
    rfl
  · have hguard : perform k s c o .guard = some (s, .payment i p) := by simp only [perform, h, hp]
    obtain ⟨out, hlook⟩ : ∃ out, perform k s c o (.payment i p) = some (s, .returned out) := ⟨_, rfl⟩
    refine ⟨out, ?_⟩
    rw [callAlone, drive_succ hguard, drive_succ hlook, drive_returned]
    rfl

theorem perform_claim_of_held (h : s.locks.get? c.scope = some l) :
    perform k s c o .claim = some (s, .existing) := by
  obtain ⟨hl, hscope⟩ := get?_eq_some.mp h
  simp only [perform]
  split
  · rename_i locks hins
    exact absurd hscope ((insertOne_eq_some hins).1 l hl)
  · rfl

theorem callAlone_of_held (hprior : s.prior = none) (h : s.locks.get? c.scope = some l)
    (hconf : o.configured = true) : ∃ out, callAlone k c o s = (s, .returned out, []) := by
  have hguard : perform k s c o .guard = some (s, .provider) := by simp only [perform, hprior]
  have hprovider : perform k s c o .provider = some (s, .claim) := by simp only [perform, hconf, if_true]
  obtain ⟨out, hlook⟩ : ∃ out, perform k s c o .existing = some (s, .returned out) := ⟨_, rfl⟩
  refine ⟨out, ?_⟩
  rw [callAlone, drive_succ hguard, drive_succ hprovider, drive_succ (perform_claim_of_held h), drive_succ hlook,
    drive_returned]
  rfl

/-! ### A charge -/

/-- What a call that has inserted its intent leaves. -/
structure Charged (k : ℕ) (c : Call) (o : Chance) (s : Store) (r : Store × Pc × List Event) : Prop where
  returns : ∃ out, r.2.1 = .returned out
  charged : ∃ es, r.2.2 = es ++ [.charged k] ∧ ∀ j, .charged j ∉ es
  intent : ∃ i ∈ r.1.intents, i.id = .call k ∧ i.kind = c.kind ∧ (i.status = .failed ↔ o.answer.isRefusal = true)
  locks : ∀ l ∈ r.1.locks, l ∈ s.locks ∨ l.scope = c.scope
  released : o.answer.isRefusal = true → ∀ l ∈ r.1.locks, l.scope ≠ c.scope

def Owns (s : Store) (k : ℕ) (kind : Option ℕ) (st : IntentStatus) : Prop :=
  ∃ i ∈ s.intents, i.id = .call k ∧ i.kind = kind ∧ i.status = st

theorem Owns.setIntent {st' : IntentStatus} {g : Intent → Intent} (h : Owns s k kind st)
    (hkind : ∀ i, (g i).kind = i.kind) (hst : ∀ i, (g i).status = st') :
    Owns (s.setIntent (.call k) g) k kind st' := by
  obtain ⟨i, hi, hid, hik, -⟩ := h
  exact ⟨_, Store.mem_setIntent.mpr (.inr ⟨i, hi, hid, rfl⟩), hid, (hkind i).trans hik, hst i⟩

theorem Owns.record (h : Owns s k kind st) :
    Owns (s.record scope x (.call k) (.call k)) k kind .completed := by
  obtain ⟨i, hi, hid, hik, -⟩ := h
  exact ⟨_, Store.mem_setIntent.mpr (.inr ⟨i, hi, hid, rfl⟩), hid, hik, rfl⟩

theorem mem_record_locks {payment intent : Token} (h : l ∈ (s.record scope x payment intent).locks) :
    l ∈ s.locks ∨ l.scope = scope := by
  change l ∈ s.locks.update scope _ (Store.complete_scope _) at h
  obtain ⟨h, -⟩ | ⟨e, -, hscope, rfl⟩ := mem_update.mp h
  · exact .inl h
  · exact .inr hscope

theorem charged_of_answer (h : Owns s k c.kind .pending) :
    ∃ s' out es, drive k c o 4 s .answer = (s', .returned out, es) ∧ (∀ j, .charged j ∉ es) ∧
      (∃ st, Owns s' k c.kind st ∧ (st = .failed ↔ o.answer.isRefusal = true)) ∧
      (∀ l ∈ s'.locks, l ∈ s.locks ∨ l.scope = c.scope) ∧
      (o.answer.isRefusal = true → ∀ l ∈ s'.locks, l.scope ≠ c.scope) := by
  have hanswer : perform k s c o .answer = some (s, o.answer.next) := rfl
  rw [drive_succ hanswer]
  cases ha : o.answer
  case serverError | exception =>
    simp only [Answer.next]
    rw [drive_succ rfl, drive_returned]
    exact ⟨_, _, _, rfl, by simp [Pc.events, Answer.isRefusal, ha], ⟨.unknown, h.setIntent (fun _ => rfl) fun _ => rfl, by simp [Answer.isRefusal]⟩,
      fun l hl => .inl hl, by simp [Answer.isRefusal]⟩
  case requestError | declined =>
    simp only [Answer.next]
    rw [drive_succ rfl, drive_succ rfl, drive_returned]
    refine ⟨_, _, _, rfl, by simp [Pc.events, Answer.isRefusal, ha], ⟨.failed, h.setIntent (fun _ => rfl) fun _ => rfl, by simp [Answer.isRefusal]⟩,
      fun l hl => .inl (mem_deleteMany.mp hl).1, fun _ l hl => ?_⟩
    simpa using (mem_deleteMany.mp hl).2
  case requiresAction url =>
    simp only [Answer.next]
    rw [drive_succ rfl, drive_returned]
    exact ⟨_, _, _, rfl, by simp [Pc.events, Answer.isRefusal, ha], ⟨.requiresAction, h.setIntent (fun _ => rfl) fun _ => rfl, by simp [Answer.isRefusal]⟩,
      fun l hl => .inl hl, by simp [Answer.isRefusal]⟩
  case pending =>
    simp only [Answer.next]
    rw [drive_succ rfl, drive_returned]
    exact ⟨_, _, _, rfl, by simp [Pc.events, Answer.isRefusal, ha], ⟨.pending, h.setIntent (fun _ => rfl) fun _ => rfl, by simp [Answer.isRefusal]⟩,
      fun l hl => .inl hl, by simp [Answer.isRefusal]⟩
  case ok =>
    simp only [Answer.next]
    rw [drive_succ rfl]
    cases hc : o.commit
    · have hrecord : perform k s c o .record =
          some (s.record c.scope c.request (.call k) (.call k), .returned (.paid (c.response k))) := by
        simp only [perform, hc]
      rw [drive_succ hrecord, drive_returned]
      exact ⟨_, _, _, rfl, by simp [Pc.events, Answer.isRefusal, ha], ⟨.completed, h.record, by simp [Answer.isRefusal]⟩, fun l hl => mem_record_locks hl,
        by simp [Answer.isRefusal]⟩
    · have hrecord : perform k s c o .record = some (s, .markUnrecorded false) := by simp only [perform, hc]
      rw [drive_succ hrecord, drive_succ rfl, drive_returned]
      exact ⟨_, _, _, rfl, by simp [Pc.events, Answer.isRefusal, ha], ⟨.completedUnrecorded, h.setIntent (fun _ => rfl) fun _ => rfl, by simp [Answer.isRefusal]⟩,
        fun l hl => .inl hl, by simp [Answer.isRefusal]⟩
    · have hrecord : perform k s c o .record =
          some (s.record c.scope c.request (.call k) (.call k), .markUnrecorded true) := by simp only [perform, hc]
      rw [drive_succ hrecord, drive_succ rfl, drive_returned]
      exact ⟨_, _, _, rfl, by simp [Pc.events, Answer.isRefusal, ha], ⟨.completedUnrecorded, h.record.setIntent (fun _ => rfl) fun _ => rfl,
        by simp [Answer.isRefusal]⟩, fun l hl => mem_record_locks hl, by simp [Answer.isRefusal]⟩

theorem callAlone_charges (hprior : s.prior = none) (hlock : s.locks.get? c.scope = none)
    (hconf : o.configured = true) (hnew : ∀ i ∈ s.intents, i.id ≠ .call k) :
    Charged k c o s (callAlone k c o s) := by
  have hguard : perform k s c o .guard = some (s, .provider) := by simp only [perform, hprior]
  have hprovider : perform k s c o .provider = some (s, .claim) := by simp only [perform, hconf, if_true]
  obtain ⟨locks, hlocks⟩ := exists_insertOne (r := (⟨c.scope, .processing⟩ : Lock)) (get?_eq_none.mp hlock)
  have hclaim : perform k s c o .claim = some ({ s with locks }, .insertIntent) := by simp only [perform, hlocks]
  obtain ⟨intents, hintents⟩ := exists_insertOne (r := c.request.intent (.call k) c.kind) hnew
  have hinsert : perform k { s with locks } c o .insertIntent = some ({ s with locks, intents }, .charge) := by
    simp only [perform, hintents, Option.map_some]
  have hcharge : perform k { s with locks, intents } c o .charge = some ({ s with locks, intents }, .answer) := rfl
  have howns : Owns { s with locks, intents } k c.kind .pending :=
    ⟨_, (mem_insertOne hintents).mpr (.inr rfl), rfl, rfl, rfl⟩
  obtain ⟨s', out, es, hdrive, hes, ⟨st, ⟨i, hi, hid, hkind, hst⟩, hiff⟩, hin, hreleased⟩ := charged_of_answer (o := o) howns
  have hrun : callAlone k c o s = (s', .returned out, es ++ [.charged k]) := by
    rw [callAlone, drive_succ hguard, drive_succ hprovider, drive_succ hclaim, drive_succ hinsert,
      drive_succ hcharge, hdrive]
    simp [Pc.events]
  rw [hrun]
  refine ⟨⟨out, rfl⟩, ⟨es, rfl, hes⟩, ⟨i, hi, hid, hkind, hst ▸ hiff⟩, fun l hl => ?_,
    hreleased⟩
  obtain hl | hscope := hin l hl
  · obtain hl | rfl := (mem_insertOne hlocks).mp hl
    · exact .inl hl
    · exact .inr rfl
  · exact .inr hscope

theorem callAlone_cases (hnew : ∀ i ∈ s.intents, i.id ≠ .call k) :
    (∃ out, callAlone k c o s = (s, .returned out, [])) ∨ Charged k c o s (callAlone k c o s) := by
  cases hprior : s.prior with
  | some i => exact .inl (callAlone_of_prior hprior)
  | none =>
    cases hconf : o.configured with
    | false =>
      have hguard : perform k s c o .guard = some (s, .provider) := by simp only [perform, hprior]
      have hprovider : perform k s c o .provider = some (s, .returned .notConfigured) := by
        simp only [perform, hconf, Bool.false_eq_true, if_false]
      refine .inl ⟨.notConfigured, ?_⟩
      rw [callAlone, drive_succ hguard, drive_succ hprovider, drive_returned]
      rfl
    | true =>
      cases hlock : s.locks.get? c.scope with
      | some l => exact .inl (callAlone_of_held hprior hlock hconf)
      | none => exact .inr (callAlone_charges hprior hlock hconf hnew)

end SyrocePms.CardCollection
