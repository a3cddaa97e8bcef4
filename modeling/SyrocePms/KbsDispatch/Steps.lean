import SyrocePms.KbsDispatch.Jobs

/-! What a step of a dispatcher writes, and what the log has told it where it stands. -/

namespace SyrocePms.KbsDispatch

open Lib List

variable {hotel : Hotel} {w : Transport} {s s' : Store} {o : Chance} {pc pc' : WorkPc} {log es : List Event} {k : Key}
  {t : Ticket}

def WorkPc.ticket? : WorkPc → Option Ticket
  | .managed t | .askBooking t | .askReceipt t _ | .park t | .limit t | .source t | .validate t | .send t | .answer t
  | .complete t _ | .fail t | .hold t _ | .missing t | .giveBack t => some t
  | .sweep | .suspect _ _ | .claim | .project _ _ | .ended | .raised => none

/-- The job was not sent in this attempt, or it was refused. -/
def WorkPc.isUnsent : WorkPc → Bool
  | .managed _ | .askBooking _ | .askReceipt _ _ | .park _ | .limit _ | .source _ | .validate _ | .send _ | .fail _
  | .hold _ _ | .missing _ | .giveBack _ => true
  | _ => false

/-- A real checkout has passed its check here. -/
def WorkPc.isGated (w : Transport) : WorkPc → Bool
  | .limit _ | .source _ => w = .generic false
  | .validate _ | .send _ => w ≠ .generic true
  | _ => false

/-! ### The writes -/

/-- What a step does to the jobs, and to the job in the dispatcher's hands. -/
inductive Moved (hotel : Hotel) (s : Store) (pc : WorkPc) : Store → WorkPc → Prop
  | quiet {pc' : WorkPc} (h : ∀ t ∈ pc'.ticket?, t ∈ pc.ticket?) : Moved hotel s pc s pc'
  | claimed {job : Job} {pc' : WorkPc} (hjob : job ∈ s.jobs) (hst : job.state.status = .pending)
      (hpc : pc.ticket? = none) (h : ∀ t ∈ pc'.ticket?, t.id = job.id ∧ t.key = job.key) :
      Moved hotel s pc (s.write job.id (fun _ => true) JobState.claim) pc'
  | freed {t : Ticket} {f : JobState → Bool} {g : JobState → JobState} {pc' : WorkPc} (ht : pc.ticket? = some t)
      (hunsent : pc.isUnsent = true) (hg : ∀ st, ¬(g st).IsReceipt) (h : pc'.ticket? = none) :
      Moved hotel s pc (s.write t.id f g) pc'
  | suspected {id : ℕ} {pc' : WorkPc} (h : pc'.ticket? = none) :
      Moved hotel s pc (s.write id JobState.isOwn (JobState.hold true false)) pc'
  | completed {t : Ticket} {test : Bool} {pc' : WorkPc} (hpc : pc = .complete t test) (h : pc'.ticket? = none) :
      Moved hotel s pc (s.write t.id JobState.isOwn (JobState.complete test)) pc'
  | reported {t : Ticket} {test : Bool} {pc' : WorkPc} (hpc : pc = .project t test)
      (hkey : t.key.action = .checkin ∧ t.key.guest = hotel.primary t.key.booking) (h : pc'.ticket? = none) :
      Moved hotel s pc (s.setReported t.key.booking test) pc'

section Ticket

variable (w t)

@[simp] theorem afterClaim_ticket : (w.afterClaim t).ticket? = some t := by
  rcases w with _ | _ <;> rfl

@[simp] theorem afterManaged_ticket : (w.afterManaged t).ticket? = some t := by
  rcases w with (_ | _) | _ <;> rfl

@[simp] theorem afterDefer_ticket : (w.afterDefer t).ticket? = some t := by
  rcases w with _ | _ <;> rfl

@[simp] theorem afterSource_ticket : (w.afterSource t).ticket? = some t := by
  rcases w with _ | _ <;> rfl

@[simp] theorem noSource_ticket : (w.noSource t).ticket? = some t := by
  rcases w with _ | _ <;> rfl

@[simp] theorem notSent_ticket (x : Sending) : (w.notSent t x).ticket? = some t := by
  rcases w with _ | _ <;> cases x <;> rfl

@[simp] theorem refused_ticket (b : Bool) : (w.refused t b).ticket? = some t := by
  rcases w with _ | _ <;> rfl

end Ticket

/-- Only the check of the guest's data goes on after a fault. -/
theorem onFault_ticket (pc : WorkPc) (w : Transport) : ∀ t ∈ (pc.onFault w).ticket?, t ∈ pc.ticket? := by
  cases pc <;> simp only [WorkPc.onFault] <;> (try split) <;> simp [WorkPc.ticket?]

theorem not_isReceipt_giveBack (st : JobState) : ¬st.giveBack.IsReceipt := fun h => by cases h.1

theorem not_isReceipt_drop (st : JobState) : ¬st.drop.IsReceipt := fun h => by cases h.1

theorem not_isReceipt_hold (a b : Bool) (st : JobState) : ¬(st.hold a b).IsReceipt := fun h => by cases h.1

theorem not_isReceipt_fail (n : ℤ) (st : JobState) : ¬(st.fail n).IsReceipt := by
  intro h
  simp only [JobState.fail] at h
  split at h <;> cases h.1

theorem workStep_moved {s₁ : Store} {pc₁ : WorkPc} (h : workStep hotel w s o pc = some (s₁, pc₁))
    (hpc' : pc' = pc₁ ∨ pc' = pc.onFault w) : Moved hotel s pc s₁ pc' := by
  have hquiet (hs : s₁ = s) (hpc : pc₁.ticket? = none ∨ pc₁.ticket? = pc.ticket?) : Moved hotel s pc s₁ pc' := by
    rw [hs]
    refine .quiet fun t ht => ?_
    obtain rfl | rfl := hpc'
    · obtain hnone | heq := hpc
      · rw [hnone] at ht
        cases ht
      · exact heq ▸ ht
    · exact onFault_ticket pc w t ht
  have hnone (hpc : pc₁.ticket? = none) (hfault : (pc.onFault w).ticket? = none) : pc'.ticket? = none := by
    obtain rfl | rfl := hpc'
    · exact hpc
    · exact hfault
  cases pc <;> simp only [workStep] at h
  case sweep =>
    cases h
    refine hquiet rfl (.inl ?_)
    split
    · split <;> rfl
    · rfl
  case suspect id sweeping =>
    cases h
    exact .suspected (hnone (by split <;> rfl) rfl)
  case claim =>
    split at h
    · rename_i job hget
      split at h
      · rename_i hst
        cases h
        obtain ⟨id, -, hget⟩ := Option.bind_eq_some_iff.mp hget
        refine .claimed (Collection.get?_eq_some.mp hget).1 hst rfl fun t ht => ?_
        obtain rfl | rfl := hpc'
        · rw [afterClaim_ticket] at ht
          cases ht
          exact ⟨rfl, rfl⟩
        · cases ht
      · cases h
        exact hquiet rfl (.inl rfl)
    · cases h
      exact hquiet rfl (.inl rfl)
  case managed t =>
    split at h <;> cases h
    · exact .freed rfl rfl not_isReceipt_giveBack (hnone rfl rfl)
    · exact hquiet rfl (.inr (afterManaged_ticket w t))
  case askBooking t =>
    cases h
    refine hquiet rfl (.inr ?_)
    split
    · exact afterDefer_ticket w t
    · rfl
  case askReceipt t reported =>
    cases h
    refine hquiet rfl (.inr ?_)
    split
    · exact afterDefer_ticket w t
    · rfl
  case park t =>
    cases h
    exact .freed rfl rfl (fun st h => by cases h.1) (hnone rfl (by simp only [WorkPc.onFault]; split <;> rfl))
  case limit t =>
    split at h <;> cases h
    · exact .freed rfl rfl not_isReceipt_drop (hnone rfl rfl)
    · exact hquiet rfl (.inr rfl)
  case source t =>
    cases h
    refine hquiet rfl (.inr ?_)
    split
    · exact afterSource_ticket w t
    · exact noSource_ticket w t
  case validate t =>
    cases h
    refine hquiet rfl (.inr ?_)
    split <;> rfl
  case send t =>
    cases h
    refine hquiet rfl (.inr ?_)
    split
    · rfl
    · split
      · rfl
      · exact notSent_ticket w t o.sending
  case answer t =>
    cases h
    refine hquiet rfl ?_
    cases o.answer with
    | accepted => exact .inr rfl
    | refused b => exact .inr (refused_ticket w t b)
    | uncertain => exact .inl rfl
  case complete t test =>
    cases h
    exact .completed rfl (hnone (by split <;> rfl) rfl)
  case project t test =>
    split at h <;> cases h
    · rename_i hkey
      exact .reported rfl hkey (hnone rfl rfl)
    · exact hquiet rfl (.inl rfl)
  case fail t =>
    cases h
    exact .freed rfl rfl (not_isReceipt_fail _) (hnone rfl rfl)
  case hold t b =>
    cases h
    exact .freed rfl rfl (not_isReceipt_hold _ _) (hnone rfl rfl)
  case missing t =>
    cases h
    exact .freed rfl rfl not_isReceipt_drop (hnone rfl (by simp only [WorkPc.onFault]; split <;> rfl))
  case giveBack t =>
    cases h
    exact .freed rfl rfl not_isReceipt_giveBack (hnone rfl rfl)
  case ended => cases h
  case raised => cases h

/-- A step is carried out, or it raises with its write or without. -/
theorem workAdvance_cases (h : workAdvance hotel w s o pc = some (s', pc')) :
    workStep hotel w s o pc = some (s', pc') ∨
      (pc.isPure = false ∧ pc' = pc.onFault w ∧
        (s' = s ∨ ∃ pc₁, workStep hotel w s o pc = some (s', pc₁))) := by
  obtain ⟨⟨s₁, pc₁⟩, hstep, heq⟩ := Option.map_eq_some_iff.mp h
  cases hp : pc.isPure with
  | true =>
    simp only [hp, if_true] at heq
    cases heq
    exact .inl hstep
  | false =>
    simp only [hp, Bool.false_eq_true, if_false] at heq
    cases hf : o.fails with
    | true =>
      simp only [hf, if_true] at heq
      cases heq
      exact .inr ⟨rfl, rfl, .inl rfl⟩
    | false =>
      simp only [hf, Bool.false_eq_true, if_false] at heq
      cases hl : o.lost with
      | true =>
        simp only [hl, if_true] at heq
        cases heq
        exact .inr ⟨rfl, rfl, .inr ⟨pc₁, hstep⟩⟩
      | false =>
        simp only [hl, Bool.false_eq_true, if_false] at heq
        cases heq
        exact .inl hstep

theorem workAdvance_moved (h : workAdvance hotel w s o pc = some (s', pc')) : Moved hotel s pc s' pc' := by
  obtain h | ⟨-, rfl, rfl | ⟨pc₁, h⟩⟩ := workAdvance_cases h
  · exact workStep_moved h (.inl rfl)
  · exact .quiet (onFault_ticket pc w)
  · exact workStep_moved h (.inr rfl)

/-! ### What the log has told -/

def Even (log : List Event) (k : Key) : Prop := log.count (.sent k) = log.count (.refused k)

/-- All were refused but the last one. -/
def Outstanding (log : List Event) (k : Key) : Prop := log.count (.sent k) = log.count (.refused k) + 1

/-- The guest's check-in was accepted, or reported before the run. -/
def Confirmed (hotel : Hotel) (log : List Event) (k : Key) : Prop :=
  .accepted { k with action := .checkin } ∈ log ∨
    (k.guest = hotel.primary k.booking ∧ (hotel.flags k.booking).isReported = true ∧
      (hotel.flags k.booking).isTest = false)

theorem Confirmed.append (h : Confirmed hotel log k) (es : List Event) : Confirmed hotel (es ++ log) k :=
  h.imp_left (mem_append_right es)

def Knows (hotel : Hotel) (log : List Event) : WorkPc → Prop
  | .answer t => Outstanding log t.key ∧ .accepted t.key ∉ log
  | .complete t test => if test then Even log t.key else .accepted t.key ∈ log
  | .project t test => test = true ∨ .accepted t.key ∈ log
  | .askReceipt t reported => reported = true → Confirmed hotel log t.key
  | _ => True

/-- What holds of the job in the hands of a dispatcher that stands at `pc`. -/
structure Told (hotel : Hotel) (w : Transport) (log : List Event) (pc : WorkPc) : Prop where
  unsent : pc.isUnsent = true → ∀ t ∈ pc.ticket?, Even log t.key
  gated : pc.isGated w = true → ∀ t ∈ pc.ticket?, t.key.action = .checkout → Confirmed hotel log t.key
  knows : Knows hotel log pc

theorem told_free (h : pc.ticket? = none) (hk : Knows hotel log pc) : Told hotel w log pc where
  unsent _ t ht := by
    rw [h] at ht
    cases ht
  gated _ t ht := by
    rw [h] at ht
    cases ht
  knows := hk

theorem told_ticket (h : pc.ticket? = some t) (he : pc.isUnsent = true → Even log t.key)
    (hg : pc.isGated w = true → t.key.action = .checkout → Confirmed hotel log t.key) (hk : Knows hotel log pc) :
    Told hotel w log pc where
  unsent hu u ht := by
    cases h.symm.trans ht
    exact he hu
  gated hu u ht := by
    cases h.symm.trans ht
    exact hg hu
  knows := hk

structure Agrees (hotel : Hotel) (s : Store) (log : List Event) : Prop where
  receipts : ∀ j ∈ s.jobs, j.state.IsReceipt → .accepted j.key ∈ log
  flags : ∀ b, (s.bookings b).isReported = true → (s.bookings b).isTest = false →
    Confirmed hotel log ⟨b, hotel.primary b, .checkin⟩
  accepted : ∀ k, .accepted k ∈ log → Outstanding log k

theorem Agrees.confirmed (h : Agrees hotel s log) (hr : s.hasReceipt k = true) : Confirmed hotel log k := by
  obtain ⟨j, hj, hp⟩ := Collection.any_eq_true.mp hr
  simp only [Bool.and_eq_true, decide_eq_true_eq, Bool.not_eq_true'] at hp
  exact .inl (hp.1.1 ▸ h.receipts j hj ⟨hp.1.2, hp.2⟩)

theorem not_accepted_of_even (h : Agrees hotel s log) (he : Even log k) : .accepted k ∉ log := by
  intro hacc
  have hout := h.accepted k hacc
  unfold Even at he
  unfold Outstanding at hout
  omega

theorem outstanding_sent (h : Even log k) : Outstanding (.sent k :: log) k := by
  unfold Even at h
  unfold Outstanding
  rw [count_cons_self, count_cons_of_ne (by simp), h]

theorem even_refused (h : Outstanding log k) : Even (.refused k :: log) k := by
  unfold Outstanding at h
  unfold Even
  rw [count_cons_self, count_cons_of_ne (by simp), h]

theorem refused_isGated (w : Transport) (t : Ticket) (b : Bool) : (w.refused t b).isGated w = false := by
  rcases w with _ | _ <;> rfl

theorem refused_knows (w : Transport) (t : Ticket) (b : Bool) : Knows hotel log (w.refused t b) := by
  rcases w with _ | _ <;> trivial

theorem notSent_isGated (w : Transport) (t : Ticket) (x : Sending) : (w.notSent t x).isGated w = false := by
  rcases w with _ | _ <;> cases x <;> rfl

theorem notSent_knows (w : Transport) (t : Ticket) (x : Sending) : Knows hotel log (w.notSent t x) := by
  rcases w with _ | _ <;> cases x <;> trivial

/-- A fault leaves nothing behind that a dispatcher would have to know. -/
theorem onFault_told (h : Told hotel w log pc) : Told hotel w log (pc.onFault w) := by
  cases pc <;> simp only [WorkPc.onFault]
  case source t =>
    split
    · exact told_free rfl trivial
    · exact told_ticket rfl (fun _ => h.unsent rfl t rfl) (fun hg => by cases hg) trivial
  all_goals first
    | exact told_free rfl trivial
    | (split <;> exact told_free rfl trivial)

theorem workStep_told (h : Told hotel w log pc) (ha : Agrees hotel s log) (hs : workStep hotel w s o pc = some (s', pc'))
    (hclaim : pc = .claim → ∀ t ∈ pc'.ticket?, Even log t.key) : Told hotel w (pc.events w o ++ log) pc' := by
  cases pc <;> simp only [workStep] at hs
  case sweep =>
    cases hs
    split
    · split <;> exact told_free rfl trivial
    · exact told_free rfl trivial
  case suspect id sweeping =>
    cases hs
    split <;> exact told_free rfl trivial
  case claim =>
    split at hs
    · split at hs
      · cases hs
        refine ⟨fun _ => hclaim rfl, fun hg => ?_, ?_⟩
        · rcases w with (_ | _) | _ <;> cases hg
        · rcases w with _ | _ <;> trivial
      · cases hs
        exact told_free rfl trivial
    · cases hs
      exact told_free rfl trivial
  case managed t =>
    have heven : Even log t.key := h.unsent rfl t rfl
    split at hs <;> cases hs
    · exact told_free rfl trivial
    · rcases w with (_ | _) | _ <;> exact told_ticket rfl (fun _ => heven) (fun hg => by cases hg) trivial
  case askBooking t =>
    have heven : Even log t.key := h.unsent rfl t rfl
    cases hs
    split
    · rename_i hcheckin
      refine told_ticket (afterDefer_ticket w t) (fun _ => heven) (fun _ hout => ?_) ?_
      · rw [hcheckin] at hout
        cases hout
      · rcases w with _ | _ <;> trivial
    · refine told_ticket rfl (fun _ => heven) (fun hg => by cases hg) fun hflag => ?_
      simp only [Bool.and_eq_true, decide_eq_true_eq, Bool.not_eq_true'] at hflag
      obtain ⟨⟨hguest, hreported⟩, htest⟩ := hflag
      have hconfirmed := ha.flags t.key.booking hreported htest
      rw [← hguest] at hconfirmed
      exact hconfirmed
  case askReceipt t reported =>
    have heven : Even log t.key := h.unsent rfl t rfl
    cases hs
    split
    · rename_i hor
      refine told_ticket (afterDefer_ticket w t) (fun _ => heven) (fun _ _ => ?_) ?_
      · obtain hr | hr := Bool.or_eq_true_iff.mp hor
        · exact h.knows hr
        · exact ha.confirmed hr
      · rcases w with _ | _ <;> trivial
    · exact told_ticket rfl (fun _ => heven) (fun hg => by cases hg) trivial
  case limit t =>
    split at hs <;> cases hs
    · exact told_free rfl trivial
    · exact told_ticket rfl (fun _ => h.unsent rfl t rfl) (fun hg => h.gated hg t rfl) trivial
  case source t =>
    have heven : Even log t.key := h.unsent rfl t rfl
    cases hs
    split
    · rcases w with (_ | _) | _
      · exact told_ticket rfl (fun _ => heven) (fun _ => h.gated rfl t rfl) trivial
      · exact told_ticket rfl (fun _ => heven) (fun hg => by cases hg) trivial
      · exact told_ticket rfl (fun _ => heven) (fun hg => by cases hg) trivial
    · rcases w with _ | _ <;> exact told_ticket rfl (fun _ => heven) (fun hg => by cases hg) trivial
  case validate t =>
    have heven : Even log t.key := h.unsent rfl t rfl
    cases hs
    split
    · exact told_ticket rfl (fun _ => heven) (fun hg => h.gated hg t rfl) trivial
    · exact told_ticket rfl (fun _ => heven) (fun hg => by cases hg) trivial
  case send t =>
    have heven : Even log t.key := h.unsent rfl t rfl
    cases hs
    split
    · rename_i hw
      subst hw
      exact told_ticket rfl (fun hu => by cases hu) (fun hg => by cases hg) heven
    · rename_i hw
      split
      · rename_i hleaves
        have hev : WorkPc.events w o (.send t) = [.sent t.key] := if_pos ⟨hw, hleaves⟩
        rw [hev]
        refine told_ticket rfl (fun hu => by cases hu) (fun hg => by cases hg) ⟨outstanding_sent heven, fun hacc => ?_⟩
        obtain heq | hacc := mem_cons.mp hacc
        · cases heq
        · exact not_accepted_of_even ha heven hacc
      · rename_i hleaves
        have hev : WorkPc.events w o (.send t) = [] := if_neg fun hboth => hleaves hboth.2
        rw [hev]
        refine told_ticket (notSent_ticket w t o.sending) (fun _ => heven) (fun hg => ?_)
          (notSent_knows w t o.sending)
        rw [notSent_isGated] at hg
        cases hg
  case answer t =>
    cases hs
    cases hans : o.answer with
    | accepted =>
      have hev : WorkPc.events w o (.answer t) = [.accepted t.key] := by simp only [WorkPc.events, hans]
      rw [hev]
      exact told_ticket rfl (fun hu => by cases hu) (fun hg => by cases hg) mem_cons_self
    | refused b =>
      have hev : WorkPc.events w o (.answer t) = [.refused t.key] := by simp only [WorkPc.events, hans]
      rw [hev]
      refine told_ticket (refused_ticket w t b) (fun _ => even_refused h.knows.1) (fun hg => ?_)
        (refused_knows w t b)
      rw [refused_isGated] at hg
      cases hg
    | uncertain => exact told_free rfl trivial
  case complete t test =>
    cases hs
    split
    · refine told_free rfl ?_
      have hk := h.knows
      cases test with
      | true => exact .inl rfl
      | false => exact .inr hk
    · exact told_free rfl trivial
  case project t test =>
    split at hs <;> cases hs <;> exact told_free rfl trivial
  case ended => cases hs
  case raised => cases hs
  all_goals
    cases hs
    exact told_free rfl trivial

theorem events_of_not_pure (h : pc.isPure = false) : pc.events w o = [] := by
  cases pc <;> first | rfl | cases h

theorem workAdvance_told (h : Told hotel w log pc) (ha : Agrees hotel s log)
    (hs : workAdvance hotel w s o pc = some (s', pc')) (hclaim : pc = .claim → ∀ t ∈ pc'.ticket?, Even log t.key) :
    Told hotel w (pc.events w o ++ log) pc' := by
  obtain hs | ⟨hp, rfl, -⟩ := workAdvance_cases hs
  · exact workStep_told h ha hs hclaim
  · rw [events_of_not_pure hp]
    exact onFault_told h

end SyrocePms.KbsDispatch
