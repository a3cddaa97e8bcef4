import SyrocePms.KbsDispatch.Steps

/-! One notification of a guest. While no enqueue inserts a job beside one that may be sent or was
accepted, a key has one live job, the job has one holder, and a second request leaves only after
the refusals of all earlier ones. -/

namespace SyrocePms.KbsDispatch

open Lib Program Machine List Collection

variable {hotel : Hotel} {w : Transport} {s s' : Store} {o : Chance} {pc pc' : WorkPc} {log : List Event} {k : Key}
  {t : Ticket} {p p' : Pool Store Thread} {i : ℕ} {e : Event}
variable {st : JobState} {i' : ℕ} {pc₁ : WorkPc} {r : Request} {ts : List Thread}

def Event.key : Event → Key
  | .sent k | .refused k | .accepted k => k

theorem count_cons_of_key (f : Key → Event) (hf : ∀ k, (f k).key = k) (h : e.key ≠ k) :
    (e :: log).count (f k) = log.count (f k) := by
  refine count_cons_of_ne fun heq => h ?_
  rw [heq, hf]

theorem even_cons (h : e.key ≠ k) : Even (e :: log) k ↔ Even log k := by
  unfold Even
  rw [count_cons_of_key .sent (fun _ => rfl) h, count_cons_of_key .refused (fun _ => rfl) h]

theorem outstanding_cons (h : e.key ≠ k) : Outstanding (e :: log) k ↔ Outstanding log k := by
  unfold Outstanding
  rw [count_cons_of_key .sent (fun _ => rfl) h, count_cons_of_key .refused (fun _ => rfl) h]

theorem accepted_cons (h : e.key ≠ k) : .accepted k ∈ e :: log ↔ .accepted k ∈ log := by
  rw [mem_cons]
  refine ⟨fun hor => hor.resolve_left fun heq => h ?_, .inr⟩
  rw [← heq]
  rfl

theorem Told.other (h : Told hotel w log pc) (hne : ∀ t ∈ pc.ticket?, e.key ≠ t.key) :
    Told hotel w (e :: log) pc := by
  refine ⟨fun hu t ht => (even_cons (hne t ht)).mpr (h.unsent hu t ht),
    fun hg t ht hout => (h.gated hg t ht hout).append [e], ?_⟩
  have hk := h.knows
  cases pc <;> simp only [Knows] at hk ⊢
  case answer t => exact ⟨(outstanding_cons (hne t rfl)).mpr hk.1, fun hacc => hk.2 ((accepted_cons (hne t rfl)).mp hacc)⟩
  case complete t test =>
    cases test with
    | true => exact (even_cons (hne t rfl)).mpr hk
    | false => exact mem_cons_of_mem e hk
  case project t test => exact hk.imp_right (mem_cons_of_mem e)
  case askReceipt t reported => exact fun hr => (hk hr).append [e]

/-! ### The invariant -/

/-- The only unrefused notification of a key belongs to its only live job, which one thread at
most has in its hands. -/
structure Traced (hotel : Hotel) (p : Pool Store Thread) (log : List Event) : Prop where
  agrees : Agrees hotel p.store log
  unique : ∀ i ∈ p.store.jobs, ∀ j ∈ p.store.jobs, i.key = j.key → i.state.IsLive → j.state.IsLive → i = j
  held : ∀ (i : ℕ) w pc, p.threads[i]? = some (.work w pc) → ∀ t ∈ pc.ticket?,
    ∃ j ∈ p.store.jobs, j.id = t.id ∧ j.key = t.key ∧ j.state.IsHeld
  apart : ∀ (i i' : ℕ) w w' pc pc', i ≠ i' → p.threads[i]? = some (.work w pc) → p.threads[i']? = some (.work w' pc') →
    ∀ t ∈ pc.ticket?, ∀ t' ∈ pc'.ticket?, t.id ≠ t'.id
  told : ∀ (i : ℕ) w pc, p.threads[i]? = some (.work w pc) → Told hotel w log pc
  pending : ∀ j ∈ p.store.jobs, j.state.status = .pending → Even log j.key
  spent : ∀ k, Even log k ∨
    (Outstanding log k ∧ ∃ j ∈ p.store.jobs, j.key = k ∧ (j.state.IsHeld ∨ j.state.IsReceipt))
  counts : ∀ k, log.count (.accepted k) ≤ 1
  once : ∀ k l, (.sent k :: l) <:+ log → Even l k
  order : ∀ k l, (.sent k :: l) <:+ log → k.action = .checkout → Confirmed hotel l k

theorem not_pending_of_held (h : st.IsHeld) : st.status ≠ .pending := by
  intro hp
  obtain h | ⟨h, -⟩ := h
  · rw [h] at hp
    cases hp
  · rw [h] at hp
    cases hp

theorem live_of_spent (h : st.IsHeld ∨ st.IsReceipt) : st.IsLive := .inr h

theorem not_pending_of_spent (h : st.IsHeld ∨ st.IsReceipt) : st.status ≠ .pending := by
  obtain h | h := h
  · exact not_pending_of_held h
  · rw [h.1]
    decide

/-- Beside a holder no thread holds a job of the key. -/
theorem Traced.other_key (h : Traced hotel p log) (ht : p.threads[i]? = some (.work w pc))
    (htk : t ∈ pc.ticket?) {w' : Transport} {u : Ticket} (hne : i' ≠ i)
    (hu : p.threads[i']? = some (.work w' pc₁)) (huk : u ∈ pc₁.ticket?) : t.key ≠ u.key := by
  intro hkey
  obtain ⟨j, hj, hid, hjk, hheld⟩ := h.held i w pc ht t htk
  obtain ⟨j', hj', hid', hjk', hheld'⟩ := h.held i' w' pc₁ hu u huk
  have heq := h.unique j hj j' hj' (hjk.trans (hkey.trans hjk'.symm)) hheld.isLive hheld'.isLive
  refine h.apart i i' w w' pc pc₁ hne.symm ht hu t htk u huk ?_
  rw [← hid, ← hid', heq]

theorem Traced.pending_key (h : Traced hotel p log) (ht : p.threads[i]? = some (.work w pc)) (htk : t ∈ pc.ticket?)
    {j : Job} (hj : j ∈ p.store.jobs) (hst : j.state.status = .pending) : t.key ≠ j.key := by
  intro hkey
  obtain ⟨j', hj', -, hjk, hheld⟩ := h.held i w pc ht t htk
  have heq := h.unique j' hj' j hj (hjk.trans hkey) hheld.isLive (.inl hst)
  exact not_pending_of_held hheld (heq ▸ hst)

/-! ### Answers -/

/-- A request leaves, or its answer arrives, for the job that thread `i` holds. -/
theorem traced_event (h : Traced hotel p log) (ht : p.threads[i]? = some (.work w pc)) (htk : t ∈ pc.ticket?)
    (hkey : e.key = t.key) (htold : Told hotel w (e :: log) pc') (hpc' : ∀ u ∈ pc'.ticket?, u ∈ pc.ticket?)
    (hacc : .accepted t.key ∈ e :: log → Outstanding (e :: log) t.key)
    (hspent : Even (e :: log) t.key ∨ Outstanding (e :: log) t.key) (hcount : (e :: log).count (.accepted t.key) ≤ 1)
    (hsent : ∀ k, e = .sent k → Even log k ∧ (k.action = .checkout → Confirmed hotel log k)) :
    Traced hotel ⟨p.store, p.threads.set i (.work w pc')⟩ (e :: log) := by
  have hself {i' : ℕ} {w' : Transport} {pc₁ : WorkPc} (hu : (p.threads.set i (.work w pc'))[i']? = some (.work w' pc₁)) :
      (i' ≠ i ∧ p.threads[i']? = some (.work w' pc₁)) ∨ (i' = i ∧ w' = w ∧ pc₁ = pc') := by
    obtain hu | ⟨hi, heq⟩ := getElem?_set_some hu
    · exact .inl hu
    · cases heq
      exact .inr ⟨hi, rfl, rfl⟩
  refine ⟨⟨fun j hj hr => mem_cons_of_mem e (h.agrees.receipts j hj hr),
    fun b hr htest => (h.agrees.flags b hr htest).append [e], fun k hk => ?_⟩, h.unique, fun i' w' pc₁ hu u huk => ?_,
    fun i₁ i₂ w₁ w₂ pc₁ pc₂ hne h₁ h₂ u hu v hv => ?_, fun i' w' pc₁ hu => ?_, fun j hj hst => ?_, fun k => ?_, fun k => ?_,
    fun k l hl => ?_, fun k l hl hout => ?_⟩
  · by_cases hk' : t.key = k
    · exact hk' ▸ hacc (hk' ▸ hk)
    · have hne : e.key ≠ k := fun heq => hk' (hkey.symm.trans heq)
      exact (outstanding_cons hne).mpr (h.agrees.accepted k ((accepted_cons hne).mp hk))
  · obtain ⟨-, hu⟩ | ⟨-, -, rfl⟩ := hself hu
    · exact h.held i' w' pc₁ hu u huk
    · exact h.held i w pc ht u (hpc' u huk)
  · obtain ⟨hi₁, h₁⟩ | ⟨hi₁, -, hpc₁⟩ := hself h₁ <;> obtain ⟨hi₂, h₂⟩ | ⟨hi₂, -, hpc₂⟩ := hself h₂
    · exact h.apart i₁ i₂ w₁ w₂ pc₁ pc₂ hne h₁ h₂ u hu v hv
    · exact h.apart i₁ i w₁ w pc₁ pc hi₁ h₁ ht u hu v (hpc' v (hpc₂ ▸ hv))
    · exact h.apart i i₂ w w₂ pc pc₂ (Ne.symm hi₂) ht h₂ u (hpc' u (hpc₁ ▸ hu)) v hv
    · exact absurd (hi₁.trans hi₂.symm) hne
  · obtain ⟨hne, hu⟩ | ⟨-, rfl, rfl⟩ := hself hu
    · refine (h.told i' w' pc₁ hu).other fun u huk => ?_
      rw [hkey]
      exact h.other_key ht htk hne hu huk
    · exact htold
  · have hne : e.key ≠ j.key := hkey ▸ h.pending_key ht htk hj hst
    exact (even_cons hne).mpr (h.pending j hj hst)
  · by_cases hk : t.key = k
    · subst hk
      obtain ⟨j, hj, -, hjk, hheld⟩ := h.held i w pc ht t htk
      exact hspent.imp_right fun hout => ⟨hout, j, hj, hjk, .inl hheld⟩
    · have hne : e.key ≠ k := fun heq => hk (hkey.symm.trans heq)
      rw [even_cons hne, outstanding_cons hne]
      exact h.spent k
  · by_cases hk : t.key = k
    · exact hk ▸ hcount
    · have hne : e.key ≠ k := fun heq => hk (hkey.symm.trans heq)
      rw [count_cons_of_key .accepted (fun _ => rfl) hne]
      exact h.counts k
  · obtain heq | hl := suffix_cons_iff.mp hl
    · obtain ⟨rfl, rfl⟩ := List.cons.inj heq
      exact (hsent k rfl).1
    · exact h.once k l hl
  · obtain heq | hl := suffix_cons_iff.mp hl
    · obtain ⟨rfl, rfl⟩ := List.cons.inj heq
      exact (hsent k rfl).2 hout
    · exact h.order k l hl hout

/-! ### Writes -/

section Write

variable {id : ℕ} {f : JobState → Bool} {g : JobState → JobState} {j : Job}

theorem of_mem_write (hj : j ∈ (s.write id f g).jobs) :
    j ∈ s.jobs ∨ ∃ e ∈ s.jobs, e.id = id ∧ f e.state = true ∧ j = { e with state := g e.state } := by
  obtain ⟨hj, -⟩ | ⟨e, he, hid, rfl⟩ := Store.mem_write.mp hj
  · exact .inl hj
  · by_cases hf : f e.state = true
    · exact .inr ⟨e, he, hid, hf, by simp only [hf, if_true]⟩
    · refine .inl ?_
      rw [if_neg hf]
      exact he

theorem mem_write_self (hj : j ∈ s.jobs) (hid : j.id = id) :
    ∃ e ∈ (s.write id f g).jobs, e.id = j.id ∧ e.key = j.key ∧ e.state = if f j.state then g j.state else j.state :=
  ⟨_, Store.mem_write.mpr (.inr ⟨j, hj, hid, rfl⟩), rfl, rfl, rfl⟩

theorem mem_write_of_mem (id : ℕ) (f : JobState → Bool) (g : JobState → JobState) (hj : j ∈ s.jobs) :
    (∃ e ∈ (s.write id f g).jobs, e.id = j.id ∧ e.key = j.key ∧ e.state = j.state) ∨
      (j.id = id ∧ f j.state = true ∧
        ∃ e ∈ (s.write id f g).jobs, e.id = j.id ∧ e.key = j.key ∧ e.state = g j.state) := by
  by_cases hid : j.id = id
  · obtain ⟨e, he, heid, hek, hst⟩ := mem_write_self (f := f) (g := g) hj hid
    by_cases hf : f j.state = true
    · exact .inr ⟨hid, hf, e, he, heid, hek, hst.trans (if_pos hf)⟩
    · exact .inl ⟨e, he, heid, hek, hst.trans (if_neg hf)⟩
  · exact .inl ⟨j, Store.mem_write.mpr (.inl ⟨hj, hid⟩), rfl, rfl, rfl⟩

/-- What a write by a thread at `pc` may do to the job that it rewrites. -/
structure Allows (log : List Event) (pc : WorkPc) (id : ℕ) (g : JobState → JobState) (j : Job) : Prop where
  live : (g j.state).IsLive → j.state.IsLive
  held : j.state.IsHeld → (g j.state).IsHeld ∨ ∃ t ∈ pc.ticket?, t.id = id
  pending : (g j.state).status = .pending → Even log j.key
  spent : j.state.IsHeld ∨ j.state.IsReceipt → ((g j.state).IsHeld ∨ (g j.state).IsReceipt) ∨ Even log j.key
  receipt : (g j.state).IsReceipt → .accepted j.key ∈ log

theorem traced_write (h : Traced hotel p log) (ht : p.threads[i]? = some (.work w pc)) (htold : Told hotel w log pc')
    (hallows : ∀ j ∈ p.store.jobs, j.id = id → f j.state = true → Allows log pc id g j)
    (hpc' : ∀ t ∈ pc'.ticket?, ∃ j ∈ p.store.jobs, j.id = t.id ∧ j.key = t.key ∧ j.id = id ∧ f j.state = true ∧
      j.state.status = .pending ∧ (g j.state).IsHeld) :
    Traced hotel ⟨p.store.write id f g, p.threads.set i (.work w pc')⟩ log := by
  have hself {i' : ℕ} {w' : Transport} {pc₁ : WorkPc} (hu : (p.threads.set i (.work w pc'))[i']? = some (.work w' pc₁)) :
      (i' ≠ i ∧ p.threads[i']? = some (.work w' pc₁)) ∨ (i' = i ∧ w' = w ∧ pc₁ = pc') := by
    obtain hu | ⟨hi, heq⟩ := getElem?_set_some hu
    · exact .inl hu
    · cases heq
      exact .inr ⟨hi, rfl, rfl⟩
  -- a job that another thread holds is not the one that thread `i` takes
  have hfresh {i' : ℕ} {w' : Transport} {pc₁ : WorkPc} (hu : p.threads[i']? = some (.work w' pc₁)) {u t : Ticket}
      (huk : u ∈ pc₁.ticket?) (htk : t ∈ pc'.ticket?) : u.id ≠ t.id := by
    intro hid
    obtain ⟨j, hj, hjid, -, -, -, hst, -⟩ := hpc' t htk
    obtain ⟨j', hj', hjid', -, hheld⟩ := h.held i' w' pc₁ hu u huk
    have heq := eq_of_key hj' hj (hjid'.trans (hid.trans hjid.symm))
    exact not_pending_of_held hheld (heq ▸ hst)
  refine ⟨⟨fun j hj hr => ?_, h.agrees.flags, h.agrees.accepted⟩, fun j₁ h₁ j₂ h₂ hkey hl₁ hl₂ => ?_,
    fun i' w' pc₁ hu u huk => ?_, fun i₁ i₂ w₁ w₂ pc₁ pc₂ hne h₁ h₂ u hu v hv => ?_, fun i' w' pc₁ hu => ?_,
    fun j hj hst => ?_, fun k => ?_, h.counts, h.once, h.order⟩
  · obtain hj | ⟨e, he, hid, hf, rfl⟩ := of_mem_write hj
    · exact h.agrees.receipts j hj hr
    · exact (hallows e he hid hf).receipt hr
  · -- both were live before the write, so they are one job
    have hbefore {j : Job} (hj : j ∈ (p.store.write id f g).jobs) (hl : j.state.IsLive) :
        ∃ e ∈ p.store.jobs, e.id = j.id ∧ e.key = j.key ∧ e.state.IsLive := by
      obtain hj | ⟨e, he, hid, hf, rfl⟩ := of_mem_write hj
      · exact ⟨j, hj, rfl, rfl, hl⟩
      · exact ⟨e, he, rfl, rfl, (hallows e he hid hf).live hl⟩
    obtain ⟨e₁, he₁, hid₁, hk₁, hlive₁⟩ := hbefore h₁ hl₁
    obtain ⟨e₂, he₂, hid₂, hk₂, hlive₂⟩ := hbefore h₂ hl₂
    have heq := h.unique e₁ he₁ e₂ he₂ (hk₁.trans (hkey.trans hk₂.symm)) hlive₁ hlive₂
    exact eq_of_key h₁ h₂ (hid₁.symm.trans ((congrArg Job.id heq).trans hid₂))
  · obtain ⟨hne, hu⟩ | ⟨-, -, rfl⟩ := hself hu
    · obtain ⟨j, hj, hid, hkey, hheld⟩ := h.held i' w' pc₁ hu u huk
      obtain ⟨e, he, heid, hek, hst⟩ | ⟨hjid, hf, e, he, heid, hek, hst⟩ := mem_write_of_mem id f g hj
      · exact ⟨e, he, heid.trans hid, hek.trans hkey, hst ▸ hheld⟩
      · obtain hheld | ⟨t, htk, htid⟩ := (hallows j hj hjid hf).held hheld
        · exact ⟨e, he, heid.trans hid, hek.trans hkey, hst ▸ hheld⟩
        · have htu := h.apart i' i w' w pc₁ pc hne hu ht u huk t htk
          exact absurd (hid.symm.trans (hjid.trans htid.symm)) htu
    · obtain ⟨j, hj, hid, hkey, hjid, hf, -, hheld⟩ := hpc' u huk
      obtain ⟨e, he, heid, hek, hst⟩ := mem_write_self (f := f) (g := g) hj hjid
      rw [if_pos hf] at hst
      exact ⟨e, he, heid.trans hid, hek.trans hkey, hst ▸ hheld⟩
  · obtain ⟨hi₁, h₁⟩ | ⟨hi₁, -, hpc₁⟩ := hself h₁ <;> obtain ⟨hi₂, h₂⟩ | ⟨hi₂, -, hpc₂⟩ := hself h₂
    · exact h.apart i₁ i₂ w₁ w₂ pc₁ pc₂ hne h₁ h₂ u hu v hv
    · exact hfresh h₁ hu (hpc₂ ▸ hv)
    · exact (hfresh h₂ hv (hpc₁ ▸ hu)).symm
    · exact absurd (hi₁.trans hi₂.symm) hne
  · obtain ⟨-, hu⟩ | ⟨-, rfl, rfl⟩ := hself hu
    · exact h.told i' w' pc₁ hu
    · exact htold
  · obtain hj | ⟨e, he, hid, hf, rfl⟩ := of_mem_write hj
    · exact h.pending j hj hst
    · exact (hallows e he hid hf).pending hst
  · obtain heven | ⟨hout, j, hj, hjk, hspent⟩ := h.spent k
    · exact .inl heven
    · obtain ⟨e, he, -, hek, hst⟩ | ⟨hjid, hf, e, he, -, hek, hst⟩ := mem_write_of_mem id f g hj
      · exact .inr ⟨hout, e, he, hek.trans hjk, hst ▸ hspent⟩
      · obtain hspent | heven := (hallows j hj hjid hf).spent hspent
        · exact .inr ⟨hout, e, he, hek.trans hjk, hst ▸ hspent⟩
        · exact .inl (hjk ▸ heven)

end Write

theorem isOwn_eq_true (h : st.isOwn = true) : st.status = .inProgress := by
  simp only [JobState.isOwn, Bool.and_eq_true, decide_eq_true_eq] at h
  exact h.1

theorem isHeld_of_own (h : st.isOwn = true) : st.IsHeld := .inl (isOwn_eq_true h)

/-- The thread goes on without a write. -/
theorem traced_quiet (h : Traced hotel p log) (ht : p.threads[i]? = some (.work w pc)) (htold : Told hotel w log pc')
    (hpc' : ∀ t ∈ pc'.ticket?, t ∈ pc.ticket?) (hs : s.jobs = p.store.jobs) (ha : Agrees hotel s log) :
    Traced hotel ⟨s, p.threads.set i (.work w pc')⟩ log := by
  have hself {i' : ℕ} {w' : Transport} {pc₁ : WorkPc} (hu : (p.threads.set i (.work w pc'))[i']? = some (.work w' pc₁)) :
      (i' ≠ i ∧ p.threads[i']? = some (.work w' pc₁)) ∨ (i' = i ∧ w' = w ∧ pc₁ = pc') := by
    obtain hu | ⟨hi, heq⟩ := getElem?_set_some hu
    · exact .inl hu
    · cases heq
      exact .inr ⟨hi, rfl, rfl⟩
  refine ⟨ha, fun j₁ h₁ j₂ h₂ => ?_, fun i' w' pc₁ hu u huk => ?_,
    fun i₁ i₂ w₁ w₂ pc₁ pc₂ hne h₁ h₂ u hu v hv => ?_, fun i' w' pc₁ hu => ?_, fun j hj => ?_, fun k => ?_, h.counts,
    h.once, h.order⟩
  · rw [hs] at h₁ h₂
    exact h.unique j₁ h₁ j₂ h₂
  · rw [hs]
    obtain ⟨-, hu⟩ | ⟨-, -, rfl⟩ := hself hu
    · exact h.held i' w' pc₁ hu u huk
    · exact h.held i w pc ht u (hpc' u huk)
  · obtain ⟨hi₁, h₁⟩ | ⟨hi₁, -, hpc₁⟩ := hself h₁ <;> obtain ⟨hi₂, h₂⟩ | ⟨hi₂, -, hpc₂⟩ := hself h₂
    · exact h.apart i₁ i₂ w₁ w₂ pc₁ pc₂ hne h₁ h₂ u hu v hv
    · exact h.apart i₁ i w₁ w pc₁ pc hi₁ h₁ ht u hu v (hpc' v (hpc₂ ▸ hv))
    · exact h.apart i i₂ w w₂ pc pc₂ (Ne.symm hi₂) ht h₂ u (hpc' u (hpc₁ ▸ hu)) v hv
    · exact absurd (hi₁.trans hi₂.symm) hne
  · obtain ⟨-, hu⟩ | ⟨-, rfl, rfl⟩ := hself hu
    · exact h.told i' w' pc₁ hu
    · exact htold
  · rw [hs] at hj
    exact h.pending j hj
  · rw [hs]
    exact h.spent k

theorem agrees_reported {test : Bool} (h : Agrees hotel s log) (hk : test = true ∨ .accepted t.key ∈ log)
    (hkey : t.key.action = .checkin ∧ t.key.guest = hotel.primary t.key.booking) :
    Agrees hotel (s.setReported t.key.booking test) log := by
  refine ⟨h.receipts, fun b hr htest => ?_, h.accepted⟩
  simp only [Store.setReported] at hr htest
  by_cases hb : b = t.key.booking
  · subst hb
    simp only [Function.update_self, Bool.or_eq_false_iff] at htest
    obtain htrue | hacc := hk
    · rw [htrue] at htest
      cases htest.2
    · have heq : t.key = ⟨t.key.booking, hotel.primary t.key.booking, .checkin⟩ := by
        rw [← hkey.2, ← hkey.1]
      exact .inl (heq ▸ hacc)
  · rw [Function.update_of_ne hb] at hr htest
    exact h.flags b hr htest

theorem traced_moved (h : Traced hotel p log) (ht : p.threads[i]? = some (.work w pc)) (hm : Moved hotel p.store pc s' pc')
    (htold : Told hotel w log pc') : Traced hotel ⟨s', p.threads.set i (.work w pc')⟩ log := by
  have hknows := (h.told i w pc ht).knows
  have hvacuous {id : ℕ} {f : JobState → Bool} {g : JobState → JobState} (hnone : pc'.ticket? = none) :
      ∀ t ∈ pc'.ticket?, ∃ j ∈ p.store.jobs, j.id = t.id ∧ j.key = t.key ∧ j.id = id ∧ f j.state = true ∧
        j.state.status = .pending ∧ (g j.state).IsHeld := by
    intro t htk
    rw [hnone] at htk
    cases htk
  cases hm with
  | quiet hpc' => exact traced_quiet h ht htold hpc' rfl h.agrees
  | @claimed job _ hjob hst hpc hpc' =>
    refine traced_write h ht htold (fun j hj hid _ => ?_) fun t htk => ?_
    · have heq : j = job := eq_of_key hj hjob hid
      subst heq
      exact ⟨fun _ => .inl hst, fun hheld => absurd hst (not_pending_of_held hheld), fun hp => (by cases hp),
        fun hspent => absurd hst (not_pending_of_spent hspent), fun hr => (by cases hr.1)⟩
    · obtain ⟨hid, hkey⟩ := hpc' t htk
      exact ⟨job, hjob, hid.symm, hkey.symm, rfl, rfl, hst, .inl rfl⟩
  | @freed t f g _ htk hunsent hg hnone =>
    refine traced_write h ht htold (fun j hj hid _ => ?_) (hvacuous hnone)
    obtain ⟨j', hj', hid', hkey', hheld⟩ := h.held i w pc ht t htk
    have heq : j = j' := eq_of_key hj hj' (hid.trans hid'.symm)
    have heven : Even log j.key := by
      rw [heq, hkey']
      exact (h.told i w pc ht).unsent hunsent t htk
    exact ⟨fun _ => heq ▸ hheld.isLive, fun _ => .inr ⟨t, htk, rfl⟩, fun _ => heven, fun _ => .inr heven,
      fun hr => absurd hr (hg _)⟩
  | suspected hnone =>
    refine traced_write h ht htold (fun j hj _ hf => ?_) (hvacuous hnone)
    exact ⟨fun _ => (isHeld_of_own hf).isLive, fun _ => .inl (.inr ⟨rfl, rfl⟩), fun hp => (by cases hp),
      fun _ => .inl (.inl (.inr ⟨rfl, rfl⟩)), fun hr => (by cases hr.1)⟩
  | @completed t test _ hpc hnone =>
    subst hpc
    refine traced_write h ht htold (fun j hj hid hf => ?_) (hvacuous hnone)
    obtain ⟨j', hj', hid', hkey', -⟩ := h.held i w _ ht t rfl
    have hkey : j.key = t.key := by
      rw [eq_of_key hj hj' (hid.trans hid'.symm), hkey']
    refine ⟨fun _ => (isHeld_of_own hf).isLive, fun _ => .inr ⟨t, rfl, rfl⟩, fun hp => (by cases hp), fun _ => ?_, fun hr => ?_⟩
    · cases test with
      | true => exact .inr (hkey ▸ hknows)
      | false => exact .inl (.inr ⟨rfl, rfl⟩)
    · cases test with
      | true => cases hr.2
      | false => exact hkey ▸ hknows
  | @reported t test _ hpc hkey hnone =>
    subst hpc
    refine traced_quiet h ht htold (fun u hu => ?_) rfl (agrees_reported h.agrees hknows hkey)
    rw [hnone] at hu
    cases hu

/-! ### Steps -/

theorem even_of_claim (h : Traced hotel p log) (hm : Moved hotel p.store .claim s' pc') :
    ∀ t ∈ pc'.ticket?, Even log t.key := by
  have hnone (hpc' : pc'.ticket? = none) : ∀ t ∈ pc'.ticket?, Even log t.key := by
    intro t ht
    rw [hpc'] at ht
    cases ht
  cases hm with
  | quiet hpc' => exact fun t ht => by cases hpc' t ht
  | claimed hjob hst _ hpc' =>
    intro t ht
    rw [(hpc' t ht).2]
    exact h.pending _ hjob hst
  | freed _ _ _ hpc' => exact hnone hpc'
  | suspected hpc' => exact hnone hpc'
  | completed _ hpc' => exact hnone hpc'
  | reported _ _ hpc' => exact hnone hpc'

theorem traced_send (h : Traced hotel p log) (ht : p.threads[i]? = some (.work w (.send t)))
    (htold : Told hotel w (.sent t.key :: log) pc') (hpc' : ∀ u ∈ pc'.ticket?, u ∈ (WorkPc.send t).ticket?)
    (hw : w ≠ .generic true) :
    Traced hotel ⟨p.store, p.threads.set i (.work w pc')⟩ (.sent t.key :: log) := by
  have hbefore := h.told i w _ ht
  have heven : Even log t.key := hbefore.unsent rfl t rfl
  refine traced_event h ht (t := t) rfl rfl htold hpc' (fun hacc => ?_) (.inr (outstanding_sent heven)) ?_ fun k hk => ?_
  · obtain heq | hacc := mem_cons.mp hacc
    · cases heq
    · exact absurd hacc (not_accepted_of_even h.agrees heven)
  · rw [count_cons_of_ne (by simp)]
    exact h.counts t.key
  · cases hk
    exact ⟨heven, hbefore.gated (decide_eq_true hw) t rfl⟩

theorem traced_accepted (h : Traced hotel p log) (ht : p.threads[i]? = some (.work w (.answer t)))
    (htold : Told hotel w (.accepted t.key :: log) pc') (hpc' : ∀ u ∈ pc'.ticket?, u ∈ (WorkPc.answer t).ticket?) :
    Traced hotel ⟨p.store, p.threads.set i (.work w pc')⟩ (.accepted t.key :: log) := by
  obtain ⟨hout, hno⟩ := (h.told i w _ ht).knows
  have hout' : Outstanding (.accepted t.key :: log) t.key := by
    unfold Outstanding
    rw [count_cons_of_ne (by simp), count_cons_of_ne (by simp)]
    exact hout
  refine traced_event h ht (t := t) rfl rfl htold hpc' (fun _ => hout') (.inr hout') ?_ fun k hk => by cases hk
  rw [count_cons_self, count_eq_zero.mpr hno]

theorem traced_refused (h : Traced hotel p log) (ht : p.threads[i]? = some (.work w (.answer t)))
    (htold : Told hotel w (.refused t.key :: log) pc') (hpc' : ∀ u ∈ pc'.ticket?, u ∈ (WorkPc.answer t).ticket?) :
    Traced hotel ⟨p.store, p.threads.set i (.work w pc')⟩ (.refused t.key :: log) := by
  obtain ⟨hout, hno⟩ := (h.told i w _ ht).knows
  refine traced_event h ht (t := t) rfl rfl htold hpc' (fun hacc => ?_) (.inl (even_refused hout)) ?_
    fun k hk => by cases hk
  · obtain heq | hacc := mem_cons.mp hacc
    · cases heq
    · exact absurd hacc hno
  · rw [count_cons_of_ne (by simp)]
    exact h.counts t.key

theorem traced_work (h : Traced hotel p log) (ht : p.threads[i]? = some (.work w pc))
    (hs : workAdvance hotel w p.store o pc = some (s', pc')) :
    Traced hotel ⟨s', p.threads.set i (.work w pc')⟩ (pc.events w o ++ log) := by
  have hm := workAdvance_moved hs
  have htold := workAdvance_told (h.told i w pc ht) h.agrees hs fun hpc => by
    subst hpc
    exact even_of_claim h hm
  cases pc
  case send t =>
    by_cases hsent : w ≠ .generic true ∧ o.sending = .leaves
    · have hev : WorkPc.events w o (.send t) = [.sent t.key] := if_pos hsent
      rw [hev] at htold ⊢
      obtain ⟨hw, hleaves⟩ := hsent
      have hpc' : pc' = .answer t ∧ s' = p.store := by
        simp only [workAdvance, workStep, WorkPc.isPure, Option.map_some, if_true, if_neg hw, hleaves] at hs
        cases hs
        exact ⟨rfl, rfl⟩
      obtain ⟨rfl, rfl⟩ := hpc'
      exact traced_send h ht htold (fun u hu => hu) hw
    · have hev : WorkPc.events w o (.send t) = [] := if_neg hsent
      rw [hev] at htold ⊢
      exact traced_moved h ht hm htold
  case answer t =>
    simp only [workAdvance, workStep, WorkPc.isPure, Option.map_some, if_true] at hs
    cases hans : o.answer with
    | accepted =>
      have hev : WorkPc.events w o (.answer t) = [.accepted t.key] := by simp only [WorkPc.events, hans]
      rw [hans] at hs
      cases hs
      rw [hev] at htold ⊢
      exact traced_accepted h ht htold fun u hu => hu
    | refused b =>
      have hev : WorkPc.events w o (.answer t) = [.refused t.key] := by simp only [WorkPc.events, hans]
      rw [hans] at hs
      cases hs
      rw [hev] at htold ⊢
      exact traced_refused h ht htold fun u hu => by
        rw [refused_ticket] at hu
        exact hu
    | uncertain =>
      have hev : WorkPc.events w o (.answer t) = [] := by simp only [WorkPc.events, hans]
      rw [hev] at htold ⊢
      exact traced_moved h ht hm htold
  all_goals exact traced_moved h ht hm htold

/-! ### Enqueues -/

def Thread.inserts? : Thread → Option Request
  | .enqueue r .insert => some r
  | _ => none

def InsertsFresh (hotel : Hotel) (p : Pool Store Thread) : Act Empty (Request ⊕ Transport) Chance → Prop
  | .step k _ => ∀ t ∈ p.threads[k]?, ∀ r ∈ t.inserts?, (∃ j ∈ p.store.jobs, j.state.lock = some r.lock) ∨
      ∀ j ∈ p.store.jobs, j.key ≠ r.key hotel ∨ ¬j.state.IsLive
  | _ => True

theorem enqueueAdvance_cases {pc pc' : EnqueuePc}
    (h : enqueueAdvance hotel i s r o pc = some (s', pc')) :
    s' = s ∨ (pc = .insert ∧ s.insertJob (newJob hotel i r) = some s') := by
  obtain ⟨⟨s₁, pc₁⟩, hstep, heq⟩ := Option.map_eq_some_iff.mp h
  have hwrite : s₁ = s ∨ (pc = .insert ∧ s.insertJob (newJob hotel i r) = some s₁) := by
    cases pc <;> simp only [enqueueStep] at hstep
    case insert =>
      split at hstep
      · rename_i s₂ hins
        cases hstep
        exact .inr ⟨rfl, hins⟩
      · cases hstep
        exact .inl rfl
    case returned => cases hstep
    all_goals
      cases hstep
      exact .inl rfl
  cases hf : o.fails with
  | true =>
    simp only [hf, if_true] at heq
    cases heq
    exact .inl rfl
  | false =>
    simp only [hf, Bool.false_eq_true, if_false] at heq
    cases heq
    exact hwrite

theorem getElem?_set_enqueue {pc : EnqueuePc}
    (h : (ts.set i (.enqueue r pc))[i']? = some (.work w pc₁)) : ts[i']? = some (.work w pc₁) := by
  obtain ⟨-, h⟩ | ⟨-, heq⟩ := getElem?_set_some h
  · exact h
  · cases heq

theorem traced_insert {pc' : EnqueuePc} (h : Traced hotel p log)
    (hs : p.store.insertJob (newJob hotel i r) = some s')
    (hfresh : (∃ j ∈ p.store.jobs, j.state.lock = some r.lock) ∨
      ∀ j ∈ p.store.jobs, j.key ≠ r.key hotel ∨ ¬j.state.IsLive) :
    Traced hotel ⟨s', p.threads.set i (.enqueue r pc')⟩ log := by
  obtain ⟨hbookings, hmem, hlock⟩ := Store.insertJob_eq_some hs
  have hdead : ∀ j ∈ p.store.jobs, j.key = r.key hotel → ¬j.state.IsLive := by
    obtain ⟨j, hj, htaken⟩ | hdead := hfresh
    · exact absurd htaken (hlock r.lock rfl j hj)
    · exact fun j hj hkey => (hdead j hj).resolve_left fun hne => hne hkey
  have heven : Even log (r.key hotel) := by
    obtain heven | ⟨-, j, hj, hkey, hspent⟩ := h.spent (r.key hotel)
    · exact heven
    · exact absurd (live_of_spent hspent) (hdead j hj hkey)
  refine ⟨⟨fun j hj hr => ?_, fun b => ?_, h.agrees.accepted⟩, fun j₁ h₁ j₂ h₂ hkey hl₁ hl₂ => ?_,
    fun i' w' pc₁ hu u huk => ?_, fun i₁ i₂ w₁ w₂ pc₁ pc₂ hne h₁ h₂ => ?_, fun i' w' pc₁ hu => ?_, fun j hj hst => ?_,
    fun k => ?_, h.counts, h.once, h.order⟩
  · obtain hj | rfl := (hmem j).mp hj
    · exact h.agrees.receipts j hj hr
    · cases hr.1
  · rw [hbookings]
    exact h.agrees.flags b
  · obtain h₁ | rfl := (hmem j₁).mp h₁ <;> obtain h₂ | rfl := (hmem j₂).mp h₂
    · exact h.unique j₁ h₁ j₂ h₂ hkey hl₁ hl₂
    · exact absurd hl₁ (hdead j₁ h₁ hkey)
    · exact absurd hl₂ (hdead j₂ h₂ hkey.symm)
    · rfl
  · obtain ⟨j, hj, hheld⟩ := h.held i' w' pc₁ (getElem?_set_enqueue hu) u huk
    exact ⟨j, (hmem j).mpr (.inl hj), hheld⟩
  · exact h.apart i₁ i₂ w₁ w₂ pc₁ pc₂ hne (getElem?_set_enqueue h₁) (getElem?_set_enqueue h₂)
  · exact h.told i' w' pc₁ (getElem?_set_enqueue hu)
  · obtain hj | rfl := (hmem j).mp hj
    · exact h.pending j hj hst
    · exact heven
  · obtain heven | ⟨hout, j, hj, hspent⟩ := h.spent k
    · exact .inl heven
    · exact .inr ⟨hout, j, (hmem j).mpr (.inl hj), hspent⟩

theorem traced_threads (h : Traced hotel p log)
    (hts : ∀ (i : ℕ) w pc, ts[i]? = some (.work w pc) → p.threads[i]? = some (.work w pc) ∨ pc = .sweep) :
    Traced hotel ⟨p.store, ts⟩ log := by
  refine ⟨h.agrees, h.unique, fun i' w' pc₁ hu u huk => ?_, fun i₁ i₂ w₁ w₂ pc₁ pc₂ hne h₁ h₂ u hu v hv => ?_,
    fun i' w' pc₁ hu => ?_, h.pending, h.spent, h.counts, h.once, h.order⟩
  · obtain hu | rfl := hts i' w' pc₁ hu
    · exact h.held i' w' pc₁ hu u huk
    · cases huk
  · obtain h₁ | rfl := hts i₁ w₁ pc₁ h₁
    · obtain h₂ | rfl := hts i₂ w₂ pc₂ h₂
      · exact h.apart i₁ i₂ w₁ w₂ pc₁ pc₂ hne h₁ h₂ u hu v hv
      · cases hv
    · cases hu
  · obtain hu | rfl := hts i' w' pc₁ hu
    · exact h.told i' w' pc₁ hu
    · exact told_free rfl trivial

/-! ### Runs -/

theorem traced_init (h : (threads hotel).machine.init p) : Traced hotel p [] := by
  obtain ⟨⟨hjobs, hflags⟩, hnil⟩ := h
  have hnone {j : Job} (hj : j ∈ p.store.jobs) : False := by
    rw [hjobs] at hj
    exact not_mem_empty hj
  have hidle {i : ℕ} {t : Thread} (ht : p.threads[i]? = some t) : False := by
    rw [hnil] at ht
    cases ht
  refine ⟨⟨fun j hj => (hnone hj).elim, fun b hr htest => ?_, fun k hk => (by cases hk)⟩,
    fun j hj => (hnone hj).elim, fun i w pc ht => (hidle ht).elim,
    fun i i' w w' pc pc' hne ht => (hidle ht).elim, fun i w pc ht => (hidle ht).elim, fun j hj => (hnone hj).elim,
    fun k => .inl rfl, fun k => Nat.zero_le 1, fun k l hl => ?_, fun k l hl => ?_⟩
  · rw [hflags] at hr htest
    exact .inr ⟨rfl, hr, htest⟩
  · cases suffix_nil.mp hl
  · cases suffix_nil.mp hl

theorem traced_next {a : Act Empty (Request ⊕ Transport) Chance} (h : Traced hotel p log) (hc : InsertsFresh hotel p a)
    (hs : (threads hotel).machine.step p a = some p') : Traced hotel p' (events p a ++ log) := by
  cases a with
  | env e => exact e.elim
  | call c =>
    cases hs
    refine traced_threads h fun i w pc ht => ?_
    obtain ht | ⟨-, heq⟩ := getElem?_append_one ht
    · exact .inl ht
    · rcases c with r | w' <;> cases heq
      exact .inr rfl
  | step i o =>
    obtain ⟨t, t', ht, hst, hset⟩ := next_step hs
    have hev : events p (.step i o) = t.events o := by simp [events, ht]
    have hp' : p' = ⟨p'.store, p.threads.set i t'⟩ := by rw [← hset]
    rw [hev, hp']
    cases t with
    | work w pc =>
      obtain ⟨⟨s₁, pc'⟩, hadv, heq⟩ := Option.map_eq_some_iff.mp hst
      cases heq
      exact traced_work h ht hadv
    | enqueue r pc =>
      obtain ⟨⟨s₁, pc'⟩, hadv, heq⟩ := Option.map_eq_some_iff.mp hst
      have hstore : s₁ = p'.store := congrArg Prod.fst heq
      have ht' : Thread.enqueue r pc' = t' := congrArg Prod.snd heq
      rw [← hstore, ← ht']
      obtain rfl | ⟨rfl, hins⟩ := enqueueAdvance_cases hadv
      · exact traced_threads h fun i' w pc₁ hu => .inl (getElem?_set_enqueue hu)
      · exact traced_insert h hins (hc _ ht r rfl)

theorem traced_of_reachLogged
    (hp : (threads hotel).machine.ReachLogged events (InsertsFresh hotel) (p, log)) : Traced hotel p log :=
  hp.invariant (Traced hotel) (fun _ h => traced_init h) fun _ _ _ _ _ h hc hs => traced_next h hc hs

/-- Each key is accepted once at most, a request follows only refused ones, so that at most one may
have been accepted, and a checkout follows its guest's confirmed check-in. -/
structure NotifiedOnce (hotel : Hotel) (log : List Event) : Prop where
  accepted : ∀ k, log.count (.accepted k) ≤ 1
  unrefused : ∀ k, log.count (.sent k) ≤ log.count (.refused k) + 1
  again : ∀ k l, (.sent k :: l) <:+ log → l.count (.sent k) = l.count (.refused k)
  checkin : ∀ k l, (.sent k :: l) <:+ log → k.action = .checkout → Confirmed hotel l k

/-- While each enqueue inserts a fresh job, every guest is notified once. -/
theorem guest_notified_once (hp : (threads hotel).machine.ReachLogged events (InsertsFresh hotel) (p, log)) :
    NotifiedOnce hotel log := by
  have h := traced_of_reachLogged hp
  refine ⟨h.counts, fun k => ?_, h.once, h.order⟩
  obtain heven | ⟨hout, -⟩ := h.spent k
  · exact Nat.le_succ_of_le heven.le
  · exact hout.le

/-! ### Examples -/

instance {a : Act Empty (Request ⊕ Transport) Chance} : Decidable (InsertsFresh hotel p a) := by
  rcases a with _ | _ | _ <;> unfold InsertsFresh <;> infer_instance

def smallHotel : Hotel := ⟨fun _ => 1, fun _ => {}⟩

theorem smallHotel_init : (threads smallHotel).machine.init ⟨⟨.empty, smallHotel.flags⟩, []⟩ := ⟨⟨rfl, rfl⟩, rfl⟩

/-- The check-in and the checkout of guest 1 with booking 7. -/
def arrival : Request := ⟨7, some 1, .checkin⟩
def departure : Request := ⟨7, some 1, .checkout⟩

/-- Steps of thread `k` without faults. -/
def steps (k n : ℕ) : List (Act Empty (Request ⊕ Transport) Chance) := List.replicate n (.step k {})

def claims (k j : ℕ) : Act Empty (Request ⊕ Transport) Chance := .step k { job := some j }

/-- The first enqueue has looked for jobs and read the booking. Until it inserts its own, another
enqueue's job is sent, accepted and completed, which frees the open lock. -/
theorem notified_twice :
    ∃ w, (threads smallHotel).machine.ReachLogged events (fun _ _ => True) w ∧
      w.2 = [.accepted (arrival.key smallHotel), .sent (arrival.key smallHotel), .accepted (arrival.key smallHotel),
        .sent (arrival.key smallHotel)] ∧ ¬NotifiedOnce smallHotel w.2 := by
  obtain ⟨w, hw, hlog⟩ := exists_reachable_of_run
    (M := (threads smallHotel).machine.logged events) (s := (⟨⟨.empty, smallHotel.flags⟩, []⟩, []))
    (f := Prod.snd) (v := [.accepted (arrival.key smallHotel), .sent (arrival.key smallHotel),
      .accepted (arrival.key smallHotel), .sent (arrival.key smallHotel)])
    (List.flatten [[.call (.inl arrival), .call (.inl arrival), .call (.inr (.generic false))],
      steps 0 6, steps 1 7, steps 2 1, [claims 2 1], steps 2 9, steps 0 1, [claims 2 0], steps 2 7])
      ⟨smallHotel_init, rfl⟩
    (by decide +kernel)
  refine ⟨w, hw, hlog, fun h => ?_⟩
  have hcount := h.accepted (arrival.key smallHotel)
  rw [hlog] at hcount
  exact absurd hcount (by decide)

/-- The departure waits for the arrival, which is refused once. -/
theorem guest_notified_once_refused :
    ∃ w, (threads smallHotel).machine.ReachLogged events (InsertsFresh smallHotel) w ∧
      w.2 = [.accepted (departure.key smallHotel), .sent (departure.key smallHotel), .accepted (arrival.key smallHotel),
        .sent (arrival.key smallHotel), .refused (arrival.key smallHotel), .sent (arrival.key smallHotel)] ∧
      NotifiedOnce smallHotel w.2 := by
  obtain ⟨⟨p, log⟩, hw, hlog⟩ := exists_reach_of_runUnder
    (M := (threads smallHotel).machine.logged events) (s := (⟨⟨.empty, smallHotel.flags⟩, []⟩, []))
    (C := fun w a => InsertsFresh smallHotel w.1 a)
    (f := Prod.snd) (v := [.accepted (departure.key smallHotel), .sent (departure.key smallHotel),
      .accepted (arrival.key smallHotel), .sent (arrival.key smallHotel), .refused (arrival.key smallHotel),
      .sent (arrival.key smallHotel)])
    (List.flatten [[.call (.inl arrival), .call (.inl departure), .call (.inr .cloud),
      .call (.inr (.generic false))], steps 0 7, steps 1 7, steps 2 1, [claims 2 1], steps 2 4,
      steps 3 1, [claims 3 0], steps 3 6, [.step 3 { answer := .refused false }], steps 3 1,
      [claims 2 0], steps 2 7, [claims 2 1], steps 2 7])
    ⟨smallHotel_init, rfl⟩ (by decide +kernel)
  exact ⟨(p, log), hw, hlog, guest_notified_once hw⟩

end SyrocePms.KbsDispatch
