import SyrocePms.InvoiceActions.Calls

/-! What one access of a call leaves: at most one write for an attempt that is marked, and a success
only after a verification that comes after the write. -/

namespace SyrocePms.InvoiceActions

open Lib List

/-- What a run leaves in no state: writes to the provider, verifications that find what was
expected, and stored successes with whether the source invoice was posted. -/
inductive Note
  | write
  | verified
  | stored (isPosted : Bool)
  deriving DecidableEq

def AnswerLook.isExpected (kind : Kind) : AnswerLook → Bool
  | .state x => some x = expectedAnswer kind
  | _ => false

def Pc.notes (s : Store) (worker : ℕ) (o : Chance) : Pc → List Note
  | .send _ => if o.sending = .unsent then [] else [.write]
  | .verifyAnswer a => if o.answer.isExpected a.kind then [.verified] else []
  | .verifyDraft _ _ => if o.draft = .valid then [.verified] else []
  | .finish _ r _ => if s.action.owner = some worker ∧ r.state = .succeeded then [.stored s.isPosted] else []
  | _ => []

/-- The log has a verification after a write. The last note comes first. -/
def VerifiedAfterWrite (log : List Note) : Prop := ∃ l, (.verified :: l) <:+ log ∧ .write ∈ l

def Pc.action? : Pc → Option Action
  | .process a | .prepare a | .attempt a | .send a | .accept a _ | .verifyAnswer a | .verifyDraft a _
  | .updateInvoice a | .confirm a _ | .release a _ | .reconcile a _ _ | .finish a _ _ => some a
  | .claim | .reverse _ | .returned _ | .stopped => none

def Claimed (kind : Kind) (log : List Note) (a : Action) : Prop :=
  a.kind = kind ∧ (a.generated.isSome = true → .write ∈ log)

/-- What is in the log where a call stands. -/
def Pc.Told (log : List Note) : Pc → Prop
  | .accept _ _ | .verifyDraft _ _ => .write ∈ log
  | .updateInvoice a => VerifiedAfterWrite log ∧ a.kind ≠ .createReturn
  | .confirm _ _ => VerifiedAfterWrite log
  | .finish a r reversal => r.state = .succeeded →
    VerifiedAfterWrite log ∧ (a.kind = .createReturn → reversal.isSome = true)
  | _ => True

/-- What holds of a call. -/
structure Known (kind : Kind) (log : List Note) (pc : Pc) : Prop where
  claimed : ∀ a, pc.action? = some a → Claimed kind log a
  told : pc.Told log

variable {s s' : Store} {kind : Kind} {log es : List Note} {a : Action} {pc pc' : Pc} {o : Chance} {worker : ℕ}
  {r : Result} {code : ErrorCode} {now : ℕ} {generated : ℕ}
variable {reversal : Option ℕ} {x : Sending}

/-! ### Longer logs -/

theorem VerifiedAfterWrite.mono (h : VerifiedAfterWrite log) : VerifiedAfterWrite (es ++ log) := by
  obtain ⟨l, hl, hw⟩ := h
  exact ⟨l, hl.trans (suffix_append es log), hw⟩

theorem Claimed.mono (h : Claimed kind log a) : Claimed kind (es ++ log) a :=
  ⟨h.1, fun hg => mem_append_right _ (h.2 hg)⟩

theorem Pc.Told.mono (h : pc.Told log) : pc.Told (es ++ log) := by
  cases pc with
  | accept | verifyDraft => exact mem_append_right _ h
  | updateInvoice => exact ⟨VerifiedAfterWrite.mono h.1, h.2⟩
  | confirm => exact VerifiedAfterWrite.mono h
  | finish => exact fun hr => ⟨(h hr).1.mono, (h hr).2⟩
  | _ => trivial

theorem Known.mono (h : Known kind log pc) : Known kind (es ++ log) pc :=
  ⟨fun a ha => (h.claimed a ha).mono, h.told.mono⟩

/-! ### What an access leaves -/

def marks (s : Store) : ℕ := if s.action.attempted.isSome then 1 else 0

def due (pc : Pc) : ℕ := if pc.isSending then 1 else 0

/-- What an access of a call leaves. -/
structure Advances (s s' : Store) (log es : List Note) (pc pc' : Pc) : Prop where
  kind : s'.action.kind = s.action.kind
  count : due pc' + es.count .write + marks s ≤ due pc + marks s'
  known : Known s'.action.kind (es ++ log) pc'
  generated : s'.action.generated.isSome = true → .write ∈ es ++ log
  succeeded : s'.action.state = .succeeded → VerifiedAfterWrite (es ++ log)
  posted : s'.isPosted = s.isPosted
  kept : s.isReversed = true → s'.isReversed = true
  stored : .stored true ∈ es → s.isPosted = true ∧ (s.action.kind = .createReturn → pc'.isReversing = true)
  reversing : pc.isReversing = true → s.isPosted = true → s'.isReversed = true

structure ActionOk (s : Store) (log : List Note) : Prop where
  generated : s.action.generated.isSome = true → .write ∈ log
  succeeded : s.action.state = .succeeded → VerifiedAfterWrite log

/-- An access that leaves the store, and notes at most a verification. -/
theorem Advances.same (h : ActionOk s log) (hes : es.count .write = 0) (hstored : .stored true ∉ es)
    (hk : Known s.action.kind (es ++ log) pc') (hdue : due pc' = 0) (hpc : pc.isReversing = false) :
    Advances s s log es pc pc' where
  kind := rfl
  count := by omega
  known := hk
  generated hg := mem_append_right _ (h.generated hg)
  succeeded hs := (h.succeeded hs).mono
  posted := rfl
  kept hr := hr
  stored hm := absurd hm hstored
  reversing hr := by rw [hpc] at hr; cases hr

theorem Advances.setAction {x : Action} (h : ActionOk s log) (hkind : x.kind = s.action.kind)
    (hattempted : x.attempted = s.action.attempted) (hgenerated : x.generated = s.action.generated)
    (hstate : x.state = .succeeded → VerifiedAfterWrite log) (hes : es.count .write = 0)
    (hstored : .stored true ∈ es → s.isPosted = true ∧ (s.action.kind = .createReturn → pc'.isReversing = true))
    (hk : Known s.action.kind (es ++ log) pc') (hdue : due pc' = 0) (hpc : pc.isReversing = false) :
    Advances s (s.setAction x) log es pc pc' where
  kind := hkind
  count := by
    have hmarks : marks (s.setAction x) = marks s := by simp only [marks, Store.setAction, hattempted]
    omega
  known := by
    change Known x.kind _ _
    exact hkind ▸ hk
  generated hg := mem_append_right _ (h.generated (hgenerated ▸ hg))
  succeeded hs := (hstate hs).mono
  posted := rfl
  kept hr := hr
  stored := hstored
  reversing hr := by rw [hpc] at hr; cases hr

/-! ### Where a call goes on -/

theorem known_finish (h : Claimed kind log a) (hr : r.state ≠ .succeeded) :
    Known kind log (.finish a r reversal) :=
  ⟨fun x hx => by cases hx; exact h, fun hs => absurd hs hr⟩

theorem known_of_told (h : Claimed kind log a) (ha : pc.action? = some a) (ht : pc.Told log) : Known kind log pc :=
  ⟨fun x hx => by rw [ha] at hx; cases hx; exact h, ht⟩

theorem known_over {b : Bool} : Known kind log (.returned b) := ⟨fun _ hx => (by cases hx), trivial⟩

theorem known_scheduleVerification (h : Claimed kind log a) : Known kind log (scheduleVerification a now code) := by
  simp only [scheduleVerification]
  split <;> exact known_finish h (by simp)

theorem known_scheduleReturnVerification (h : Claimed kind log a) :
    Known kind log (scheduleReturnVerification a now code) := by
  simp only [scheduleReturnVerification]
  split
  · exact known_of_told h rfl trivial
  · exact known_finish h (by simp)

theorem due_scheduleVerification : due (scheduleVerification a now code) = 0 := by
  simp only [scheduleVerification]
  split <;> rfl

theorem due_scheduleReturnVerification : due (scheduleReturnVerification a now code) = 0 := by
  simp only [scheduleReturnVerification]
  split <;> rfl

theorem afterClaim_known (now : ℕ) (o : Chance) (h : Claimed kind log a) : Known kind log (afterClaim a now o) ∧ due (afterClaim a now o) = 0 := by
  unfold afterClaim
  split
  · exact ⟨known_finish h (by simp), rfl⟩
  split
  · exact ⟨known_finish h (by simp), rfl⟩
  split
  · exact ⟨known_finish h (by simp), rfl⟩
  · exact ⟨known_finish h (by simp), rfl⟩
  split
  · split
    · exact ⟨known_of_told h rfl trivial, rfl⟩
    · split
      · rename_i uuid hg
        exact ⟨known_of_told h rfl (h.2 (by simp [hg])), rfl⟩
      · exact ⟨known_of_told h rfl trivial, rfl⟩
  · split <;> exact ⟨known_of_told h rfl trivial, rfl⟩

theorem afterAnswer_known (h : Claimed kind log a) (hw : x ≠ .unsent → .write ∈ log) :
    Known kind log (afterAnswer a now x) ∧ due (afterAnswer a now x) = 0 := by
  cases x with
  | accepted uuid => exact ⟨known_of_told h rfl (hw (by simp)), rfl⟩
  | apiError status code =>
    simp only [afterAnswer]
    split
    · exact ⟨known_finish h (by simp), rfl⟩
    · exact ⟨known_scheduleVerification h, due_scheduleVerification⟩
  | failed => exact ⟨known_scheduleVerification h, due_scheduleVerification⟩
  | unsent => exact ⟨known_scheduleVerification h, due_scheduleVerification⟩

theorem afterReturn_known (h : Claimed kind log a) (hw : x ≠ .unsent → .write ∈ log) :
    Known kind log (afterReturn a x) ∧ due (afterReturn a x) = 0 := by
  cases x with
  | accepted uuid => exact ⟨known_of_told h rfl (hw (by simp)), rfl⟩
  | apiError status code =>
    simp only [afterReturn]
    split <;> exact ⟨known_of_told h rfl trivial, rfl⟩
  | failed => exact ⟨known_of_told h rfl trivial, rfl⟩
  | unsent => exact ⟨known_of_told h rfl trivial, rfl⟩

theorem afterAnswerLook_known (now : ℕ) (h : Claimed kind log a) {x : AnswerLook}
    (hv : x.isExpected a.kind = true → VerifiedAfterWrite log) :
    Known kind log (afterAnswerLook a now x) ∧ due (afterAnswerLook a now x) = 0 := by
  cases x with
  | state x =>
    simp only [afterAnswerLook]
    split
    · rename_i hx
      refine ⟨known_of_told h rfl ⟨hv (by simpa [AnswerLook.isExpected] using hx), fun hkind => ?_⟩, rfl⟩
      rw [hkind] at hx
      cases hx
    · split
      · exact ⟨known_scheduleVerification h, due_scheduleVerification⟩
      · exact ⟨known_finish h (by simp), rfl⟩
  | apiError status code =>
    simp only [afterAnswerLook]
    split
    · exact ⟨known_finish h (by simp), rfl⟩
    · exact ⟨known_scheduleVerification h, due_scheduleVerification⟩
  | failed => exact ⟨known_scheduleVerification h, due_scheduleVerification⟩

theorem afterDraftLook_known (generated now : ℕ) (h : Claimed kind log a) {x : DraftLook} (hv : x = .valid → VerifiedAfterWrite log) :
    Known kind log (afterDraftLook a generated now x) ∧ due (afterDraftLook a generated now x) = 0 := by
  cases x with
  | valid => exact ⟨known_of_told h rfl (hv rfl), rfl⟩
  | apiError status code =>
    simp only [afterDraftLook]
    split
    · exact ⟨known_of_told h rfl trivial, rfl⟩
    · exact ⟨known_scheduleReturnVerification h, due_scheduleReturnVerification⟩
  | malformed => exact ⟨known_of_told h rfl trivial, rfl⟩
  | failed => exact ⟨known_scheduleReturnVerification h, due_scheduleReturnVerification⟩

/-! ### The accesses -/

/-- The provider shows the decision only when the write has been issued, and the reversal of a posted
journal does not raise. -/
def Pc.isSound (s : Store) (log : List Note) (o : Chance) : Pc → Bool
  | .verifyAnswer a => !o.answer.isExpected a.kind || decide (.write ∈ log)
  | .reverse _ => !(s.isPosted && o.reversalRaises)
  | _ => true

theorem verifiedAfterWrite_cons (h : .write ∈ log) : VerifiedAfterWrite ([.verified] ++ log) :=
  ⟨log, suffix_refl _, h⟩

theorem known_same (h : Known kind log pc) (ha : pc.action? = some a) (ha' : pc'.action? = some a) (ht : pc'.Told log) :
    Known kind log pc' := known_of_told (h.claimed a ha) ha' ht

theorem attempt_advances (h : ActionOk s log) (hk : Known s.action.kind log (.attempt a))
    (hs : s.step worker o (.attempt a) = some (s', pc')) : Advances s s' log [] (.attempt a) pc' := by
  simp only [Store.step, Option.some.injEq] at hs
  cases hx : s.action.startAttempt worker s.clock with
  | none =>
    rw [hx] at hs
    cases hs
    exact .same h rfl not_mem_nil known_over rfl rfl
  | some x =>
    rw [hx] at hs
    cases hs
    simp only [Action.startAttempt] at hx
    split at hx
    · rename_i hfree
      cases hx
      simp only [Bool.and_eq_true, decide_eq_true_eq, Option.isNone_iff_eq_none] at hfree
      exact {
        kind := rfl
        count := by simp [due, marks, Pc.isSending, Store.setAction, hfree.2]
        known := known_same hk rfl rfl trivial
        generated := h.generated
        succeeded := h.succeeded
        posted := rfl
        kept := id
        stored := fun hm => absurd hm not_mem_nil
        reversing := fun hr => (by cases hr) }
    · cases hx

theorem send_advances (h : ActionOk s log) (hk : Known s.action.kind log (.send a))
    (hs : s.step worker o (.send a) = some (s', pc')) :
    Advances s s' log (Pc.notes s worker o (.send a)) (.send a) pc' := by
  cases hs
  have hclaimed : Claimed s.action.kind (Pc.notes s worker o (.send a) ++ log) a := (hk.claimed a rfl).mono
  have hw : o.sending ≠ .unsent → .write ∈ Pc.notes s worker o (.send a) ++ log := fun hne => by simp [Pc.notes, hne]
  have hnext : Known s.action.kind (Pc.notes s worker o (.send a) ++ log)
      (if a.kind = .createReturn then afterReturn a o.sending else afterAnswer a s.clock o.sending) ∧
      due (if a.kind = .createReturn then afterReturn a o.sending else afterAnswer a s.clock o.sending) = 0 := by
    split
    · exact afterReturn_known hclaimed hw
    · exact afterAnswer_known hclaimed hw
  have hone : (Pc.notes s worker o (.send a)).count .write ≤ 1 := by
    simp only [Pc.notes]
    split <;> simp
  refine ⟨rfl, ?_, hnext.1, fun hg => mem_append_right _ (h.generated hg), fun hs => (h.succeeded hs).mono, rfl, id,
    fun hm => ?_, fun hr => (by cases hr)⟩
  · rw [hnext.2]
    simp only [due, Pc.isSending, if_true]
    omega
  · simp only [Pc.notes] at hm
    split at hm <;> simp at hm

theorem accept_advances {g : Option ℕ} (h : ActionOk s log) (hk : Known s.action.kind log (.accept a g))
    (hs : s.step worker o (.accept a g) = some (s', pc')) : Advances s s' log [] (.accept a g) pc' := by
  simp only [Store.step, Option.some.injEq] at hs
  cases hx : s.action.accept worker s.clock g with
  | none =>
    rw [hx] at hs
    cases hs
    exact .same h rfl not_mem_nil known_over rfl rfl
  | some x =>
    rw [hx] at hs
    cases hs
    simp only [Action.accept] at hx
    split at hx
    · cases hx
      have hnext : Known s.action.kind log (afterAccept a g) ∧ due (afterAccept a g) = 0 := by
        cases g with
        | none => exact ⟨known_same hk rfl rfl trivial, rfl⟩
        | some uuid => exact ⟨known_same hk rfl rfl hk.told, rfl⟩
      refine ⟨rfl, ?_, hnext.1, fun _ => hk.told, h.succeeded, rfl, id, fun hm => absurd hm not_mem_nil,
        fun hr => (by cases hr)⟩
      rw [hnext.2]
      change 0 + 0 + marks s ≤ 0 + marks s
      exact Nat.le_refl _
    · cases hx

theorem finish_advances (h : ActionOk s log) (hk : Known s.action.kind log (.finish a r reversal))
    (hs : s.step worker o (.finish a r reversal) = some (s', pc')) :
    Advances s s' log (Pc.notes s worker o (.finish a r reversal)) (.finish a r reversal) pc' := by
  simp only [Store.step, Option.some.injEq] at hs
  have hcount : (Pc.notes s worker o (.finish a r reversal)).count .write = 0 := by
    simp only [Pc.notes]
    split <;> simp
  cases hx : s.action.finish worker (a.attemptCount + 1) r with
  | none =>
    rw [hx] at hs
    cases hs
    simp only [Action.finish] at hx
    split at hx
    · cases hx
    · rename_i howner
      have hnotes : Pc.notes s worker o (.finish a r reversal) = [] := if_neg fun hc => howner hc.1
      rw [hnotes]
      exact .same h rfl not_mem_nil known_over rfl rfl
  | some x =>
    rw [hx] at hs
    cases hs
    simp only [Action.finish] at hx
    split at hx
    · rename_i howner
      cases hx
      have hnext : Known s.action.kind (Pc.notes s worker o (.finish a r reversal) ++ log)
          ((reversal.map Pc.reverse).getD (.returned true)) ∧ due ((reversal.map Pc.reverse).getD (.returned true)) = 0 := by
        cases reversal <;> exact ⟨⟨fun _ hx => (by cases hx), trivial⟩, rfl⟩
      refine .setAction h rfl rfl rfl (fun hs => (hk.told hs).1) hcount (fun hm => ?_) hnext.1 hnext.2 rfl
      simp only [Pc.notes, howner, true_and] at hm
      split at hm
      · rename_i hstate
        simp only [mem_singleton, Note.stored.injEq] at hm
        refine ⟨hm.symm, fun hkind => ?_⟩
        have hrev := (hk.told hstate).2 ((hk.claimed a rfl).1.trans hkind)
        obtain ⟨g, rfl⟩ := Option.isSome_iff_exists.mp hrev
        rfl
      · cases hm
    · cases hx

theorem verifyAnswer_advances (h : ActionOk s log) (hk : Known s.action.kind log (.verifyAnswer a))
    (hsound : (Pc.verifyAnswer a).isSound s log o = true) (hs : s.step worker o (.verifyAnswer a) = some (s', pc')) :
    Advances s s' log (Pc.notes s worker o (.verifyAnswer a)) (.verifyAnswer a) pc' := by
  cases hs
  have hclaimed : Claimed s.action.kind (Pc.notes s worker o (.verifyAnswer a) ++ log) a := (hk.claimed a rfl).mono
  have hverified : o.answer.isExpected a.kind = true →
      VerifiedAfterWrite (Pc.notes s worker o (.verifyAnswer a) ++ log) := by
    intro hx
    simp only [Pc.isSound, hx, Bool.not_true, Bool.false_or, decide_eq_true_eq] at hsound
    simp only [Pc.notes, hx, if_true]
    exact verifiedAfterWrite_cons hsound
  have hnext := afterAnswerLook_known s.clock hclaimed hverified
  refine .same h ?_ ?_ hnext.1 hnext.2 rfl
  · simp only [Pc.notes]
    split <;> simp
  · simp only [Pc.notes]
    split <;> simp

theorem verifyDraft_advances (h : ActionOk s log) (hk : Known s.action.kind log (.verifyDraft a generated))
    (hs : s.step worker o (.verifyDraft a generated) = some (s', pc')) :
    Advances s s' log (Pc.notes s worker o (.verifyDraft a generated)) (.verifyDraft a generated) pc' := by
  cases hs
  have hclaimed : Claimed s.action.kind (Pc.notes s worker o (.verifyDraft a generated) ++ log) a :=
    (hk.claimed a rfl).mono
  have hverified : o.draft = .valid → VerifiedAfterWrite (Pc.notes s worker o (.verifyDraft a generated) ++ log) := by
    intro hx
    simp only [Pc.notes, hx, if_true]
    exact verifiedAfterWrite_cons hk.told
  have hnext := afterDraftLook_known generated s.clock hclaimed hverified
  refine .same h ?_ ?_ hnext.1 hnext.2 rfl
  · simp only [Pc.notes]
    split <;> simp
  · simp only [Pc.notes]
    split <;> simp

theorem claim_advances (h : ActionOk s log) (hs : s.step worker o .claim = some (s', pc')) :
    Advances s s' log [] .claim pc' := by
  simp only [Store.step] at hs
  split at hs
  · cases hs
    have hclaimed : Claimed s.action.kind log (s.action.claim worker s.clock) := ⟨rfl, h.generated⟩
    exact .setAction h rfl rfl rfl (fun hs => by cases hs) rfl (fun hm => absurd hm not_mem_nil)
      (known_of_told hclaimed rfl trivial) rfl rfl
  · cases hs
    exact .same h rfl not_mem_nil known_over rfl rfl

theorem local_advances (h : ActionOk s log) (hk : Known s.action.kind log pc)
    (hpc : pc = .process a ∨ pc = .prepare a ∨ pc = .updateInvoice a ∨ (∃ g, pc = .confirm a g) ∨
      (∃ c, pc = .release a c) ∨ ∃ c n, pc = .reconcile a c n)
    (hs : s.step worker o pc = some (s', pc')) : Advances s s' log [] pc pc' := by
  have hclaimed : Claimed s.action.kind log a := by
    obtain rfl | rfl | rfl | ⟨g, rfl⟩ | ⟨c, rfl⟩ | ⟨c, n, rfl⟩ := hpc <;> exact hk.claimed a rfl
  obtain rfl | rfl | rfl | ⟨g, rfl⟩ | ⟨c, rfl⟩ | ⟨c, n, rfl⟩ := hpc <;> cases hs
  · have hnext := afterClaim_known s.clock o hclaimed
    exact .same h rfl not_mem_nil hnext.1 hnext.2 rfl
  · split
    · exact .same h rfl not_mem_nil (known_of_told hclaimed rfl trivial) rfl rfl
    · exact .same h rfl not_mem_nil (known_finish hclaimed (by simp)) rfl rfl
  · refine .same h rfl not_mem_nil (known_of_told hclaimed rfl fun _ => ?_) rfl rfl
    exact ⟨hk.told.1, fun hkind => absurd hkind hk.told.2⟩
  · split
    · exact .same h rfl not_mem_nil (known_of_told hclaimed rfl fun _ => ⟨hk.told, fun _ => rfl⟩) rfl rfl
    · exact .same h rfl not_mem_nil (known_of_told hclaimed rfl trivial) rfl rfl
  · split
    · exact .same h rfl not_mem_nil (known_finish hclaimed (by simp)) rfl rfl
    · exact .same h rfl not_mem_nil (known_of_told hclaimed rfl trivial) rfl rfl
  · exact .same h rfl not_mem_nil (known_finish hclaimed (by simp)) rfl rfl

theorem reverse_advances (h : ActionOk s log) (hsound : (Pc.reverse generated).isSound s log o = true)
    (hs : s.step worker o (.reverse generated) = some (s', pc')) : Advances s s' log [] (.reverse generated) pc' := by
  cases hs
  refine ⟨rfl, Nat.le_refl _, known_over, h.generated, h.succeeded, rfl, fun hr => ?_,
    fun hm => absurd hm not_mem_nil, fun _ hposted => ?_⟩
  · simp [hr]
  · have hraises : o.reversalRaises = false := by simpa [Pc.isSound, hposted] using hsound
    simp [hposted, hraises]

theorem access_advances (h : ActionOk s log) (hk : Known s.action.kind log pc) (hsound : pc.isSound s log o = true)
    (hs : s.step worker o pc = some (s', pc')) : Advances s s' log (pc.notes s worker o) pc pc' := by
  cases pc with
  | claim => exact claim_advances h hs
  | process a => exact local_advances h hk (.inl rfl) hs
  | prepare a => exact local_advances h hk (.inr (.inl rfl)) hs
  | attempt a => exact attempt_advances h hk hs
  | send a => exact send_advances h hk hs
  | accept a g => exact accept_advances h hk hs
  | verifyAnswer a => exact verifyAnswer_advances h hk hsound hs
  | verifyDraft a g => exact verifyDraft_advances h hk hs
  | updateInvoice a => exact local_advances h hk (.inr (.inr (.inl rfl))) hs
  | confirm a g => exact local_advances h hk (.inr (.inr (.inr (.inl ⟨g, rfl⟩)))) hs
  | release a c => exact local_advances h hk (.inr (.inr (.inr (.inr (.inl ⟨c, rfl⟩))))) hs
  | reconcile a c n => exact local_advances h hk (.inr (.inr (.inr (.inr (.inr ⟨c, n, rfl⟩))))) hs
  | finish a r reversal => exact finish_advances h hk hs
  | reverse g => exact reverse_advances h hsound hs
  | returned => cases hs
  | stopped => cases hs

end SyrocePms.InvoiceActions
