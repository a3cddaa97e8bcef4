import Mathlib.Data.List.Perm.Subperm
import SyrocePms.Outbox.Fencing

/-! The bound on the attempts of an event. Every claim counts one attempt, and every claim
is dispatched once at most, so the bound is kept by what opens an event for one more claim:
a failure looks at the attempts of the worker's copy, and recovery at none. -/

namespace SyrocePms.Outbox

open Lib List Collection

variable {s s' : Store} {t t' : Thread} {k : ℕ} {w : Worker} {m : Move} {pc pc' : Pc} {a : NewEvent}

def Event.attempt (e : Event) : ℕ × ℕ := (e.id, e.attemptCount)

/-- The attempts of an event are within its bound, with one to spare while it can be
claimed. -/
def Event.Bounded (e : Event) : Prop :=
  ∀ m, e.maxAttempts = some m → e.attemptCount ≤ m ∧ (e.status.claimable = true → e.attemptCount < m)

/-- What holds of the store: an attempt is dispatched once, and it was counted. -/
structure AttemptsOk (s : Store) : Prop where
  bounded : ∀ e ∈ s.events, e.Bounded
  once : s.dispatches.Nodup
  counted : ∀ d ∈ s.dispatches, ∃ x ∈ s.events, x.id = d.1 ∧ 1 ≤ d.2 ∧ d.2 ≤ x.attemptCount

/-- An attempt that was claimed and is not dispatched yet. -/
def Undispatched (s : Store) (t : Thread) : Prop :=
  ∀ e, t.pc.undispatched? = some e → e.attempt ∉ s.dispatches ∧
    ∃ x ∈ s.events, x.id = e.id ∧ 1 ≤ e.attemptCount ∧ e.attemptCount ≤ x.attemptCount

/-- No attempt is in the hands of two workers that have still to dispatch it. -/
def AttemptsApart (t u : Thread) : Prop :=
  ∀ e e', t.pc.undispatched? = some e → u.pc.undispatched? = some e' → e.attempt ≠ e'.attempt

/-- The condition: what becomes claimable has an attempt left, whether it is enqueued,
recovered or rescheduled. -/
def LeavesAttempt (p : Pool Store Thread) : Act Env Worker Move → Prop
  | .env (.enqueue a) => 1 ≤ a.maxAttempts
  | .step k m => ∀ t ∈ p.threads[k]?, ∀ o ∈ m.outside?, ∀ x ∈ p.store.events.rows,
      t.pc.reopens t.worker o x = true → ∀ n ∈ x.maxAttempts, x.attemptCount < n
  | _ => True

instance (p : Pool Store Thread) (a : Act Env Worker Move) : Decidable (LeavesAttempt p a) := by
  rcases a with (_ | _) | _ | _ <;> unfold LeavesAttempt <;> infer_instance

/-! ### One step -/

theorem AttemptsOk.of_kept (h : AttemptsOk s) (hb : ∀ e ∈ s'.events, e.Bounded)
    (hd : s'.dispatches = s.dispatches)
    (hk : ∀ x ∈ s.events, ∃ x' ∈ s'.events, x'.id = x.id ∧ x.attemptCount ≤ x'.attemptCount) :
    AttemptsOk s' := by
  refine ⟨hb, hd ▸ h.once, fun d hmem => ?_⟩
  rw [hd] at hmem
  obtain ⟨x, hx, hid, hpos, hle⟩ := h.counted d hmem
  obtain ⟨x', hx', hid', hle'⟩ := hk x hx
  exact ⟨x', hx', hid'.trans hid, hpos, hle.trans hle'⟩

theorem Undispatched.of_kept (h : Undispatched s t) (hd : s'.dispatches = s.dispatches)
    (hk : ∀ x ∈ s.events, ∃ x' ∈ s'.events, x'.id = x.id ∧ x.attemptCount ≤ x'.attemptCount) :
    Undispatched s' t := by
  intro e he
  obtain ⟨hnot, x, hx, hid, hpos, hle⟩ := h e he
  obtain ⟨x', hx', hid', hle'⟩ := hk x hx
  exact ⟨hd ▸ hnot, x', hx', hid'.trans hid, hpos, hle.trans hle'⟩

theorem Stepped.kept (h : Stepped k s w m pc s' pc') : ∀ x ∈ s.events,
      ∃ x' ∈ s'.events, x'.id = x.id ∧ x.attemptCount ≤ x'.attemptCount := by
  intro x hx
  cases h with
  | keep | dispatch => exact ⟨x, hx, rfl, le_rfl⟩
  | release p f hf _ hc =>
    refine ⟨_, Store.mem_write.mpr ⟨x, hx, rfl⟩, ?_⟩
    split
    · exact ⟨hf x, (hc x).1.ge⟩
    · exact ⟨rfl, le_rfl⟩
  | claim y hy =>
    by_cases hid : x.id = y.id
    · have hxy : x = y := eq_of_key hx hy hid
      exact ⟨s.claimed w y, (Store.mem_claim hy).mpr (.inr rfl), hid.symm, hxy ▸ Nat.le_succ _⟩
    · exact ⟨x, (Store.mem_claim hy).mpr (.inl ⟨hx, hid⟩), rfl, le_rfl⟩

theorem Stepped.bounded (h : Stepped k s w m pc s' pc') (hb : ∀ e ∈ s.events, e.Bounded)
    (hc : ∀ o ∈ m.outside?, ∀ x ∈ s.events, pc.reopens w o x = true → ∀ n ∈ x.maxAttempts,
      x.attemptCount < n) : ∀ e ∈ s'.events, e.Bounded := by
  cases h with
  | keep | dispatch => exact hb
  | release p f hf _ hcount _ hre =>
    intro e he n hn
    obtain ⟨x, hx, rfl⟩ := Store.mem_write.mp he
    split at hn
    · rename_i hpx
      rw [if_pos hpx]
      rw [(hcount x).2] at hn
      rw [(hcount x).1]
      refine ⟨(hb x hx n hn).1, fun hcl => ?_⟩
      obtain ⟨o, ho, hreo⟩ := hre x hpx hcl
      exact hc o ho x hx hreo n hn
    · rename_i hpx
      rw [if_neg hpx]
      exact hb x hx n hn
  | claim y hy hcl =>
    intro e he n hn
    obtain ⟨he, -⟩ | rfl := (Store.mem_claim hy).mp he
    · exact hb e he n hn
    · have hlt : y.attemptCount < n := (hb y hy n hn).2 hcl
      exact ⟨hlt, fun h => nomatch h⟩

theorem AttemptsOk.dispatch {left : ℕ} {e : Event} (h : AttemptsOk s) (hu : Undispatched s t)
    (hpc : t.pc = .dispatch left e) :
    AttemptsOk { s with dispatches := (e.id, e.attemptCount) :: s.dispatches } := by
  obtain ⟨hnot, x, hx, hid, hpos, hle⟩ := hu e (by rw [hpc]; rfl)
  refine ⟨h.bounded, nodup_cons.mpr ⟨hnot, h.once⟩, fun d hd => ?_⟩
  obtain rfl | hd := mem_cons.mp hd
  · exact ⟨x, hx, hid, hpos, hle⟩
  · exact h.counted d hd

theorem AttemptsOk.claimed {y : Event} (h : AttemptsOk s) (hy : y ∈ s.events) :
    (s.claimed w y).attempt ∉ s.dispatches ∧
      ∃ x ∈ (s.claim k w y).events, x.id = (s.claimed w y).id ∧
        1 ≤ (s.claimed w y).attemptCount ∧ (s.claimed w y).attemptCount ≤ x.attemptCount := by
  refine ⟨fun hmem => ?_, s.claimed w y, (Store.mem_claim hy).mpr (.inr rfl), rfl,
    Nat.le_add_left 1 _, le_rfl⟩
  obtain ⟨x, hx, hid, -, hle⟩ := h.counted _ hmem
  have hxy : x = y := eq_of_key hx hy hid
  have hlt : y.attemptCount + 1 ≤ x.attemptCount := hle
  rw [hxy] at hlt
  omega

theorem Holds.undispatched_ok (h : Holds pc t.pc) : Undispatched s t := by
  intro e he
  rw [h.undispatched] at he
  cases he

/-- A step of thread `k` keeps the store, and the attempt that the thread has in its hand
after it. -/
theorem Stepped.attemptsOk (h : Stepped k s t.worker m t.pc s' t'.pc) (hj : AttemptsOk s)
    (hu : Undispatched s t) (hb : ∀ e ∈ s'.events, e.Bounded) :
    AttemptsOk s' ∧ Undispatched s' t' := by
  have hkept := h.kept
  cases h with
  | keep _ hh => exact ⟨hj, hh.undispatched_ok⟩
  | release p f hf _ _ _ _ _ hh =>
    exact ⟨hj.of_kept hb rfl hkept, hh.undispatched_ok⟩
  | dispatch left e hpc _ hh => exact ⟨hj.dispatch hu hpc, hh.undispatched_ok⟩
  | claim y hy hc _ _ hpc =>
    refine ⟨hj.of_kept hb rfl hkept, fun e he => ?_⟩
    obtain hpc | ⟨left, hpc⟩ := hpc
    · rw [hpc] at he
      cases he
    · rw [hpc] at he
      cases he
      exact hj.claimed hy

theorem Stepped.others {u : Thread} (h : Stepped k s t.worker m t.pc s' t'.pc)
    (hu : Undispatched s u) (hap : AttemptsApart t u) : Undispatched s' u ∧ AttemptsApart t' u := by
  have hkept := h.kept
  have hgone (hh : Holds t.pc t'.pc) : AttemptsApart t' u := by
    intro e e' he
    rw [hh.undispatched] at he
    cases he
  cases h with
  | keep _ hh => exact ⟨hu, hgone hh⟩
  | release p f hf _ _ _ _ _ hh => exact ⟨hu.of_kept rfl hkept, hgone hh⟩
  | dispatch left e hpc _ hh =>
    refine ⟨fun e' he' => ?_, hgone hh⟩
    obtain ⟨hnot, hx⟩ := hu e' he'
    refine ⟨fun hmem => ?_, hx⟩
    obtain heq | hmem := mem_cons.mp hmem
    · exact hap e e' (by rw [hpc]; rfl) he' heq.symm
    · exact hnot hmem
  | claim y hy hc _ _ hpc =>
    refine ⟨hu.of_kept rfl hkept, fun e e' he he' heq => ?_⟩
    obtain hpc | ⟨left, hpc⟩ := hpc
    · rw [hpc] at he
      cases he
    · rw [hpc] at he
      cases he
      -- the other attempt was counted before the claim
      obtain ⟨-, x, hx, hid, -, hle⟩ := hu e' he'
      have hids : y.id = e'.id := congrArg Prod.fst heq
      have hatt : y.attemptCount + 1 = e'.attemptCount := congrArg Prod.snd heq
      have hxy : x = y := eq_of_key hx hy (hid.trans hids.symm)
      rw [hxy] at hle
      omega

/-! ### Every run -/

theorem Store.enqueue_attemptsOk (h : AttemptsOk s) (ha : 1 ≤ a.maxAttempts) :
    AttemptsOk (s.enqueue a) := by
  have hd : (s.enqueue a).dispatches = s.dispatches := by
    unfold Store.enqueue
    split
    · rfl
    · split <;> rfl
  refine h.of_kept (fun e he => ?_) hd fun x hx => ⟨x, Store.mem_enqueue hx, rfl, le_rfl⟩
  unfold Store.enqueue at he
  split at he
  · exact h.bounded e he
  · split at he
    · rename_i es hes
      obtain he | rfl := (mem_insertOne hes).mp he
      · exact h.bounded e he
      · intro n hn
        cases hn
        exact ⟨Nat.zero_le _, fun _ => ha⟩
    · exact h.bounded e he

theorem Store.enqueue_undispatched (h : Undispatched s t) : Undispatched (s.enqueue a) t := by
  have hd : (s.enqueue a).dispatches = s.dispatches := by
    unfold Store.enqueue
    split
    · rfl
    · split <;> rfl
  exact h.of_kept hd fun x hx => ⟨x, Store.mem_enqueue hx, rfl, le_rfl⟩

theorem preserves_attempts : calls.Preserves LeavesAttempt AttemptsOk
    (fun s _ t => Undispatched s t) AttemptsApart where
  symm t u h e e' he he' heq := h e' e he' he heq.symm
  init s h := by
    obtain ⟨hev, -, hd⟩ := h
    refine ⟨fun e he => ?_, hd ▸ nodup_nil, fun d hmem => ?_⟩
    · rw [hev] at he
      exact absurd he not_mem_empty
    · rw [hd] at hmem
      cases hmem
  env p a s' hi hc h := by
    cases h
    cases a with
    | clock n => exact ⟨⟨hi.store.bounded, hi.store.once, hi.store.counted⟩, hi.thread⟩
    | enqueue a =>
      exact ⟨Store.enqueue_attemptsOk hi.store hc,
        fun k t ht => Store.enqueue_undispatched (hi.thread k t ht)⟩
  call p w t _ _ h := by
    cases h
    refine ⟨fun e he => ?_, fun u _ e e' he => ?_⟩ <;> cases he
  step p k m t s' t' hi hc ht h := by
    have hst := step_stepped h
    have hb := hst.bounded hi.store.bounded fun o ho x hx => hc t ht o ho x hx
    obtain ⟨hj, hu⟩ := hst.attemptsOk hi.store (hi.thread k t ht) hb
    exact ⟨hj, hu, fun j u hjk hju =>
      hst.others (hi.thread j u hju) (hi.apart k j t u (Ne.symm hjk) ht hju)⟩

theorem length_le_of_nodup {l : List (ℕ × ℕ)} {event n : ℕ} (hl : l.Nodup)
    (h : ∀ d ∈ l, d.1 = event ∧ 1 ≤ d.2 ∧ d.2 ≤ n) : l.length ≤ n := by
  have hinj : (l.map Prod.snd).Nodup := by
    refine hl.map_on fun a ha b hb hab => Prod.ext ?_ hab
    rw [(h a ha).1, (h b hb).1]
  have hsub : l.map Prod.snd ⊆ List.range' 1 n := by
    intro a ha
    obtain ⟨d, hd, rfl⟩ := mem_map.mp ha
    obtain ⟨-, hpos, hle⟩ := h d hd
    exact mem_range'_1.mpr ⟨hpos, by omega⟩
  calc l.length = (l.map Prod.snd).length := (length_map _).symm
    _ ≤ (List.range' 1 n).length := (hinj.subperm hsub).length_le
    _ = n := length_range'

/-- In every run whose steps all leave an attempt to what they make claimable, an event is
dispatched as often as it has attempts at most. -/
theorem outbox_attempts {p : Pool Store Thread} (h : calls.machine.Reach LeavesAttempt p) :
    ∀ e ∈ p.store.events, ∀ n, e.maxAttempts = some n → p.store.dispatchCount e.id ≤ n := by
  intro e he n hn
  have hj := (preserves_attempts.reach h).store
  have hown : ∀ d ∈ p.store.dispatches.filter (fun d => d.1 == e.id),
      d.1 = e.id ∧ 1 ≤ d.2 ∧ d.2 ≤ e.attemptCount := by
    intro d hd
    obtain ⟨hmem, hid⟩ := mem_filter.mp hd
    have hid : d.1 = e.id := by simpa using hid
    obtain ⟨x, hx, hxd, hpos, hle⟩ := hj.counted d hmem
    have hxe : x = e := eq_of_key hx he (hxd.trans hid)
    exact ⟨hid, hpos, hxe ▸ hle⟩
  calc p.store.dispatchCount e.id ≤ e.attemptCount := length_le_of_nodup (hj.once.filter _) hown
    _ ≤ n := (hj.bounded e he n hn).1

/-! ### Runs -/

/-- The bound and the status of each event, and how often event 0 was dispatched. -/
def attemptsSeen (p : Pool Store Thread) : List (ℕ × Option ℕ × Status) × ℕ :=
  (p.store.events.rows.map fun e => (e.id, e.maxAttempts, e.status), p.store.dispatchCount 0)

/-- The dispatch of the only attempt fails, and the event is parked. -/
theorem outbox_attempts_parked : ∃ p, calls.machine.Reach LeavesAttempt p ∧
    attemptsSeen p = ([(0, some 1, .failed)], 1) ∧
    ∃ e ∈ p.store.events, e.maxAttempts = some 1 ∧ p.store.dispatchCount e.id ≤ 1 := by
  obtain ⟨p, hp, hseen⟩ := Machine.exists_reach_of_runUnder (M := calls.machine)
    (C := LeavesAttempt) (f := attemptsSeen) (v := ([(0, some 1, .failed)], 1))
    (List.flatten [[.env (.enqueue { tenant := 1, maxAttempts := 1, idempotencyKey := 7 }),
      .call { id := 10 }], operations 0 4, [.step 0 (.advance { outcome := .failure "HTTP 500" })],
      operations 0 1])
    emptyOutbox_init (by decide +kernel)
  have hrow : (0, some 1, Status.failed) ∈
      p.store.events.rows.map fun e => (e.id, e.maxAttempts, e.status) := by
    rw [(Prod.mk.inj hseen).1]
    exact mem_singleton_self _
  obtain ⟨e, he, heq⟩ := mem_map.mp hrow
  have hmax : e.maxAttempts = some 1 := by simpa using congrArg (fun x => x.2.1) heq
  exact ⟨p, hp, hseen, e, he, hmax, outbox_attempts hp e he 1 hmax⟩

/-- An event with one attempt is dispatched, recovered, and dispatched again. -/
theorem dispatched_again : ∃ p, calls.machine.Reachable p ∧
    attemptsSeen p = ([(0, some 1, .processing)], 2) :=
  Machine.exists_reachable_of_run
    (List.flatten [dispatchedOnce 1, [.step 0 .crash], recoveredAndClaimed, operations 1 1])
    emptyOutbox_init (by decide +kernel)

end SyrocePms.Outbox
