import SyrocePms.Lib.Collection
import SyrocePms.Lib.Threads

/-! The edit leases of the reservation detail. One operation of a call is one step, with the
time that the call passes to it; the times of a run do not decrease. The unique index on
(tenant, booking) turns a competing acquisition into a conflict. -/

namespace SyrocePms.EditLock

open Lib Collection

/-- A view: its user, and the lock identifier of the browser. -/
structure View where
  ownerUserId : ℕ
  lockId : ℕ
  deriving DecidableEq

/-- A document of `reservation_edit_locks`. Times are in milliseconds, as they are stored. -/
structure Lease where
  tenant : ℕ
  booking : ℕ
  view : View
  acquiredAt : ℕ
  heartbeatAt : ℕ
  expiresAt : ℕ
  deriving DecidableEq

def Lease.key (l : Lease) : ℕ × ℕ := (l.tenant, l.booking)

abbrev Leases := Collection Lease Lease.key

def leaseTime : ℕ := 60000

/-- The filter of an exact lease that has not expired. -/
def isActive (key : ℕ × ℕ) (view : View) (now : ℕ) (l : Lease) : Bool :=
  l.key = key && l.view = view && now < l.expiresAt

/-- The filter of the acquisition: the lease of the booking, expired or the own one. -/
def isFree (key : ℕ × ℕ) (view : View) (now : ℕ) (l : Lease) : Bool :=
  l.key = key && (decide (l.expiresAt ≤ now) || l.view = view)

def freshLease (key : ℕ × ℕ) (view : View) (now : ℕ) : Lease :=
  ⟨key.1, key.2, view, now, now, now + leaseTime⟩

def Lease.renewed (l : Lease) (now : ℕ) : Lease :=
  { l with heartbeatAt := now, expiresAt := now + leaseTime }

/-- `acquire_reservation_edit_lock`: an upsert, which is undefined when its filter meets
nothing and the key is taken. -/
def acquireLock (c : Leases) (key : ℕ × ℕ) (view : View) (now : ℕ) : Option (Leases × Lease) :=
  match c.findOne (isFree key view now) with
  | some _ => some (c.upsert (freshLease key view now), freshLease key view now)
  | none => (c.insertOne (freshLease key view now)).map fun c' => (c', freshLease key view now)

def renewLock (c : Leases) (key : ℕ × ℕ) (view : View) (now : ℕ) : Option (Leases × Lease) :=
  (c.findOne (isActive key view now)).map fun l => (c.upsert (l.renewed now), l.renewed now)

/-- `assert_reservation_edit_lock`. -/
def assertLock (c : Leases) (key : ℕ × ℕ) (view : View) (now : ℕ) : Option Lease :=
  c.findOne (isActive key view now)

def deleteLock (c : Leases) (key : ℕ × ℕ) (view : View) : Leases :=
  c.deleteMany fun l => l.key = key && l.view = view

/-! ### Calls -/

inductive Answer where
  | leased (l : Lease)
  | valid (l : Lease)
  | released (deleted : Bool)
  | conflict
  | lost
  | failed
  deriving DecidableEq

/-- What a call does next: `unlock` is the read of a release, and `delete` its deletion. -/
inductive Pc where
  | acquire
  | renew
  | check
  | unlock
  | delete
  | returned (a : Answer)
  deriving DecidableEq

structure Call where
  key : ℕ × ℕ
  view : View
  pc : Pc

def Pc.over : Pc → Bool
  | .returned _ => true
  | _ => false

def operate (c : Leases) (key : ℕ × ℕ) (view : View) (now : ℕ) : Pc → Leases × Pc
  | .acquire =>
    match acquireLock c key view now with
    | some (c', l) => (c', .returned (.leased l))
    | none => (c, .returned .conflict)
  | .renew =>
    match renewLock c key view now with
    | some (c', l) => (c', .returned (.leased l))
    | none => (c, .returned .lost)
  | .check =>
    (c, .returned (match assertLock c key view now with
      | some l => .valid l
      | none => .lost))
  | .unlock =>
    (c, match c.get? key with
      | none => .returned (.released false)
      | some l => if l.view = view then .delete else .returned .conflict)
  | .delete =>
    (deleteLock c key view, .returned (.released (c.any fun l => l.key = key && l.view = view)))
  | .returned a => (c, .returned a)

/-- The leases, and the time of the last operation. -/
structure Store where
  leases : Leases
  time : ℕ

/-- An operation is answered, its answer is lost, or it fails. -/
inductive Reply where
  | answered
  | lost
  | failed

structure Move where
  now : ℕ
  reply : Reply := .answered

def Call.step (s : Store) (t : Call) (m : Move) : Option (Store × Call) :=
  if t.pc.over || decide (m.now < s.time) then none
  else
    let r := operate s.leases t.key t.view m.now t.pc
    match m.reply with
    | .answered => some (⟨r.1, m.now⟩, { t with pc := r.2 })
    | .lost => some (⟨r.1, m.now⟩, { t with pc := .returned .failed })
    | .failed => some ({ s with time := m.now }, { t with pc := .returned .failed })

/-- The database removes an expired lease. -/
structure Expiry where
  key : ℕ × ℕ
  now : ℕ

def Store.expire (s : Store) (e : Expiry) : Option Store :=
  if e.now < s.time then none
  else some ⟨s.leases.deleteMany fun l => l.key = e.key && l.expiresAt ≤ e.now, e.now⟩

def calls : Program Store Call Expiry Call Move where
  init _ := True
  env := Store.expire
  call _ t := if t.pc.over || t.pc = .delete then none else some t
  step _ s t m := t.step s m

/-! ### What the operations keep -/

theorem isActive_iff {key : ℕ × ℕ} {view : View} {now : ℕ} {l : Lease} :
    isActive key view now l = true ↔ l.key = key ∧ l.view = view ∧ now < l.expiresAt := by
  simp [isActive, and_assoc]

theorem isFree_iff {key : ℕ × ℕ} {view : View} {now : ℕ} {l : Lease} :
    isFree key view now l = true ↔ l.key = key ∧ (l.expiresAt ≤ now ∨ l.view = view) := by
  simp [isFree]

/-- The lease that was returned still protects its view: it has expired, or it is stored with
this expiry or a later one. No acquisition up to now expires before it. -/
structure Kept (l : Lease) (c : Leases) (time : ℕ) : Prop where
  bound : l.expiresAt ≤ time + leaseTime
  stored : l.expiresAt ≤ time ∨ ∃ d ∈ c, d.key = l.key ∧ d.view = l.view ∧ l.expiresAt ≤ d.expiresAt

variable {l : Lease} {c : Leases} {time now : ℕ} {key : ℕ × ℕ} {view : View}
variable {r : Leases × Lease} {pc : Pc} {s : Store} {p p' : Pool Store Call}

theorem Kept.later (h : Kept l c time) (hn : time ≤ now) : Kept l c now where
  bound := by
    have hb := h.bound
    omega
  stored := h.stored.imp (fun hexp => by omega) id

theorem Kept.replace (h : Kept l c time) (hn : time ≤ now) {old new : Lease} (hold : old ∈ c)
    (hkey : new.key = old.key) (hexp : new.expiresAt = now + leaseTime)
    (hmay : old.expiresAt ≤ now ∨ new.view = old.view) : Kept l (c.upsert new) now := by
  have hb := h.bound
  refine ⟨by omega, ?_⟩
  rcases h.stored with hpast | ⟨d, hd, hk, hv, he⟩
  · exact .inl (by omega)
  · by_cases hsame : d.key = new.key
    · have hdo : d = old := eq_of_key hd hold (hsame.trans hkey)
      subst hdo
      rcases hmay with hpast | hview
      · exact .inl (by omega)
      · refine .inr ⟨new, mem_upsert.mpr (.inl rfl), hkey.trans hk, hview.trans hv, ?_⟩
        omega
    · exact .inr ⟨d, mem_upsert.mpr (.inr ⟨hd, hsame⟩), hk, hv, he⟩

theorem Kept.delete (h : Kept l c time) (hn : time ≤ now) {p : Lease → Bool}
    (hp : ∀ d ∈ c, d.key = l.key → d.view = l.view → l.expiresAt ≤ d.expiresAt →
      now < l.expiresAt → p d = false) : Kept l (c.deleteMany p) now := by
  have hb := h.bound
  refine ⟨by omega, ?_⟩
  by_cases hlt : now < l.expiresAt
  · rcases h.stored with hpast | ⟨d, hd, hk, hv, he⟩
    · exact .inl (by omega)
    · refine .inr ⟨d, ?_, hk, hv, he⟩
      rw [mem_deleteMany]
      exact ⟨hd, by simp [hp d hd hk hv he hlt]⟩
  · exact .inl (by omega)

theorem Kept.acquire (h : Kept l c time) (hn : time ≤ now)
    (hr : acquireLock c key view now = some r) : Kept l r.1 now := by
  unfold acquireLock at hr
  cases hf : c.findOne (isFree key view now) with
  | some old =>
    rw [hf] at hr
    cases hr
    obtain ⟨hold, hfree⟩ := mem_of_findOne hf
    obtain ⟨hk, hmay⟩ := isFree_iff.mp hfree
    exact h.replace hn hold hk.symm rfl (hmay.imp id Eq.symm)
  | none =>
    rw [hf] at hr
    obtain ⟨c', hins, rfl⟩ := Option.map_eq_some_iff.mp hr
    have hlater := h.later hn
    refine ⟨hlater.bound, hlater.stored.imp id ?_⟩
    rintro ⟨d, hd, hrest⟩
    exact ⟨d, (mem_insertOne hins).mpr (.inl hd), hrest⟩

theorem Kept.renew (h : Kept l c time) (hn : time ≤ now) (hr : renewLock c key view now = some r) :
    Kept l r.1 now := by
  obtain ⟨old, hf, rfl⟩ := Option.map_eq_some_iff.mp hr
  exact h.replace hn (mem_of_findOne hf).1 rfl rfl (.inr rfl)

/-- An operation keeps the lease, unless it is the deletion of a release by its own view. -/
theorem Kept.operate (h : Kept l c time) (hn : time ≤ now)
    (hpc : ¬ (pc = .delete ∧ key = l.key ∧ view = l.view)) :
    Kept l (operate c key view now pc).1 now := by
  cases pc with
  | acquire =>
    unfold EditLock.operate
    cases hr : acquireLock c key view now with
    | none => exact h.later hn
    | some r => exact h.acquire hn hr
  | renew =>
    unfold EditLock.operate
    cases hr : renewLock c key view now with
    | none => exact h.later hn
    | some r => exact h.renew hn hr
  | check | unlock | returned => exact h.later hn
  | delete =>
    apply h.delete hn
    intro d _ hk hv _ _
    rw [Bool.eq_false_iff]
    intro hdel
    simp only [Bool.and_eq_true, decide_eq_true_eq] at hdel
    exact hpc ⟨rfl, hdel.1.symm.trans hk, hdel.2.symm.trans hv⟩

theorem operate_leased (hpc : pc.over = false)
    (h : (operate c key view now pc).2 = .returned (.leased l)) :
    Kept l (operate c key view now pc).1 now := by
  cases pc with
  | acquire =>
    unfold operate at h ⊢
    cases hr : acquireLock c key view now with
    | none =>
      rw [hr] at h
      cases h
    | some r =>
      rw [hr] at h
      cases h
      unfold acquireLock at hr
      cases hf : c.findOne (isFree key view now) with
      | some old =>
        rw [hf] at hr
        cases hr
        exact ⟨Nat.le_refl _, .inr ⟨_, mem_upsert.mpr (.inl rfl), rfl, rfl, Nat.le_refl _⟩⟩
      | none =>
        rw [hf] at hr
        obtain ⟨c', hins, rfl⟩ := Option.map_eq_some_iff.mp hr
        exact ⟨Nat.le_refl _, .inr ⟨_, (mem_insertOne hins).mpr (.inr rfl), rfl, rfl,
          Nat.le_refl _⟩⟩
  | renew =>
    unfold operate at h ⊢
    cases hr : renewLock c key view now with
    | none =>
      rw [hr] at h
      cases h
    | some r =>
      rw [hr] at h
      cases h
      obtain ⟨old, hf, rfl⟩ := Option.map_eq_some_iff.mp hr
      exact ⟨Nat.le_refl _, .inr ⟨_, mem_upsert.mpr (.inl rfl), rfl, rfl, Nat.le_refl _⟩⟩
  | check =>
    unfold operate at h
    cases hr : assertLock c key view now <;> simp [hr] at h
  | unlock =>
    unfold operate at h
    cases hr : c.get? key with
    | none => simp [hr] at h
    | some d =>
      simp only [hr] at h
      split at h <;> cases h
  | delete => cases h
  | returned a => cases hpc

/-! ### Exclusive leases -/

/-- The view passes `assert_reservation_edit_lock`. -/
def Passes (s : Store) (key : ℕ × ℕ) (view : View) (now : ℕ) : Prop :=
  (assertLock s.leases key view now).isSome = true

theorem passes_iff : Passes s key view now ↔
    ∃ d ∈ s.leases, d.key = key ∧ d.view = view ∧ now < d.expiresAt := by
  unfold Passes assertLock
  rw [Option.isSome_iff_exists]
  constructor
  · rintro ⟨d, hd⟩
    obtain ⟨hmem, hact⟩ := mem_of_findOne hd
    exact ⟨d, hmem, isActive_iff.mp hact⟩
  · rintro ⟨d, hmem, hact⟩
    by_contra hnone
    have hnot := findOne_eq_none.mp
      (Option.eq_none_iff_forall_not_mem.mpr fun x hx => hnone ⟨x, hx⟩)
    exact hnot d hmem (isActive_iff.mpr hact)

def Releases (l : Lease) (p : Pool Store Call) (a : Act Expiry Call Move) : Prop :=
  ∃ k m t, a = .step k m ∧ p.threads[k]? = some t ∧ t.pc = .delete ∧ t.key = l.key ∧ t.view = l.view

def Leased (l : Lease) (p p' : Pool Store Call) : Prop :=
  ∃ k m t, calls.machine.step p (.step k m) = some p' ∧ p'.threads[k]? = some t ∧
    t.pc = .returned (.leased l)

/-- At most one view passes the assertion for a booking. -/
def Exclusive (s : Store) : Prop :=
  ∀ key view view' now, Passes s key view now → Passes s key view' now → view = view'

/-- A lease that is given to a caller passes the assertion until it expires, in every run in
which its view does not release it. -/
def Durable (p : Pool Store Call) : Prop :=
  ∀ l p₁ p₂, Leased l p p₁ → calls.machine.Path (fun q a => ¬ Releases l q a) p₁ p₂ →
    ∀ now, p₂.store.time ≤ now → now < l.expiresAt → Passes p₂.store l.key l.view now

theorem exclusive_store (s : Store) : Exclusive s := by
  intro key view view' now h h'
  obtain ⟨d, hd, hk, hv, -⟩ := passes_iff.mp h
  obtain ⟨d', hd', hk', hv', -⟩ := passes_iff.mp h'
  rw [← hv, ← hv', eq_of_key hd hd' (hk.trans hk'.symm)]

theorem step_cases {s' : Store} {t t' : Call} {m : Move} (h : t.step s m = some (s', t')) :
    t.pc.over = false ∧ s.time ≤ m.now ∧ s'.time = m.now ∧
      ((s'.leases = (operate s.leases t.key t.view m.now t.pc).1 ∧
        (t'.pc = (operate s.leases t.key t.view m.now t.pc).2 ∨ t'.pc = .returned .failed)) ∨
      (s'.leases = s.leases ∧ t'.pc = .returned .failed)) := by
  unfold Call.step at h
  split at h
  · cases h
  · rename_i hg
    simp only [Bool.or_eq_true, decide_eq_true_eq, not_or, Bool.not_eq_true, Nat.not_lt] at hg
    simp only at h
    cases hm : m.reply with
    | answered =>
      rw [hm] at h
      cases h
      exact ⟨hg.1, hg.2, rfl, .inl ⟨rfl, .inl rfl⟩⟩
    | lost =>
      rw [hm] at h
      cases h
      exact ⟨hg.1, hg.2, rfl, .inl ⟨rfl, .inr rfl⟩⟩
    | failed =>
      rw [hm] at h
      cases h
      exact ⟨hg.1, hg.2, rfl, .inr ⟨rfl, rfl⟩⟩

theorem Leased.kept (h : Leased l p p') : Kept l p'.store.leases p'.store.time := by
  obtain ⟨k, m, u, hstep, hu, hpc⟩ := h
  obtain ⟨t, t', ht, hs, hset⟩ := Program.next_step hstep
  have hlt := (List.getElem?_eq_some_iff.mp ht).1
  rw [hset, List.getElem?_set_self hlt] at hu
  obtain rfl := Option.some.inj hu
  obtain ⟨hover, -, htime, ⟨hl, hans | hans⟩ | ⟨-, hans⟩⟩ := step_cases hs
  · rw [hl, htime]
    exact operate_leased hover (hans.symm.trans hpc)
  · rw [hpc] at hans
    cases hans
  · rw [hpc] at hans
    cases hans

/-- One action keeps the lease, unless its view releases it. -/
theorem Kept.next {a : Act Expiry Call Move} (h : Kept l p.store.leases p.store.time)
    (ha : ¬ Releases l p a) (hs : calls.machine.step p a = some p') :
    Kept l p'.store.leases p'.store.time := by
  cases a with
  | env e =>
    obtain ⟨henv, -⟩ := Program.next_env hs
    simp only [calls, Store.expire] at henv
    split at henv
    · cases henv
    · rename_i hn
      rw [← Option.some.inj henv]
      show Kept l _ e.now
      apply h.delete (by omega)
      intro d _ _ _ he hlt
      rw [Bool.eq_false_iff]
      intro hdel
      simp only [Bool.and_eq_true, decide_eq_true_eq] at hdel
      omega
  | call i =>
    obtain ⟨t, -, hst, -⟩ := Program.next_call hs
    rw [hst]
    exact h
  | step k m =>
    obtain ⟨t, t', ht, hstep, -⟩ := Program.next_step hs
    obtain ⟨-, hn, htime, ⟨hl, -⟩ | ⟨hl, -⟩⟩ := step_cases hstep
    · rw [hl, htime]
      apply h.operate hn
      rintro ⟨hpc, hk, hv⟩
      exact ha ⟨k, m, t, rfl, ht, hpc, hk, hv⟩
    · rw [hl, htime]
      exact h.later hn

theorem durable_pool (p : Pool Store Call) : Durable p := by
  intro l p₁ p₂ hl hpath now hn hlt
  have hkept : Kept l p₂.store.leases p₂.store.time :=
    hpath.invariant (fun q => Kept l q.store.leases q.store.time)
      (fun q a q' hq ha hs => hq.next ha hs) hl.kept
  rcases hkept.stored with hpast | ⟨d, hd, hk, hv, he⟩
  · omega
  · exact passes_iff.mpr ⟨d, hd, hk, hv, by omega⟩

/-- In every state at most one view passes the assertion for a booking, and from every state on
a lease that is given passes until it expires, however calls, expiries and faults follow, if
only its own view does not release it. -/
theorem leases_exclusive (p : Pool Store Call) : Exclusive p.store ∧ Durable p :=
  ⟨exclusive_store p.store, durable_pool p⟩

/-- Another view takes the lease over at the instant in which it expires. -/
example : (operate ⟨[freshLease (1, 4) ⟨2, 9⟩ 0], by decide⟩ (1, 4) ⟨3, 8⟩ 60000 .acquire).2 =
    .returned (.leased (freshLease (1, 4) ⟨3, 8⟩ 60000)) := by decide

end SyrocePms.EditLock
