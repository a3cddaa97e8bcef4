import SyrocePms.Lib.Collection
import SyrocePms.Lib.Threads

/-! `claim_idempotency`, `complete_idempotency` and `release_idempotency` as the guard of a
request calls them. A claim is a row of `idempotency_keys` under a key that is computed from
the request, and the monitor of the store removes it when its time is over. -/

namespace SyrocePms.Idempotency

open Lib Collection

inductive Status where
  | processing
  | completed
  deriving DecidableEq

def processingGrace : ℕ := 300

/-- `IDEMPOTENCY_RETENTION_SECONDS`. -/
def retention : ℕ := 24 * 60 * 60

/-- A row of `idempotency_keys`. `holder` is the request that inserted it, if one of the run
did; nothing branches on it. -/
structure Row where
  lockId : String
  tenantId : String
  scope : String
  idempotencyKey : String
  status : Status
  createdAt : ℕ
  expiresAt : ℕ
  requestHash : Option String := none
  completedAt : Option ℕ := none
  responseEnc : Option String := none
  responseBody : Option String := none
  holder : Option ℕ := none

structure Store where
  rows : Collection Row Row.lockId
  now : ℕ

/-- The arguments of `claim_idempotency`. -/
structure ClaimArgs where
  tenantId : String
  scope : String
  idempotencyKey : String
  requestHash : Option String := none

def ClaimArgs.lockId (digest : String → String) (a : ClaimArgs) : String :=
  digest (a.tenantId ++ ":" ++ a.scope ++ ":" ++ a.idempotencyKey)

/-! ### Responses -/

def envelopePrefixes : List String := ["SYR1:", "aes256gcm:"]

/-- `seal_response_body`: what the crypto service gave, if it is an envelope. -/
def sealResponseBody (cipher : Option String) : Option String :=
  cipher.filter fun c => envelopePrefixes.any fun p => p.isPrefixOf c

def unsealResponseBody (r : Row) (plain : Option String) : String :=
  match r.responseEnc.filter fun c => c ≠ "" with
  | some _ => plain.getD "{}"
  | none => r.responseBody.getD "{}"

/-! ### The calls -/

/-- Where a request stands: before its insert, at the read after a duplicate key, with the
claim acquired, after a release whose answer was lost, with its guard closed, or sent back. -/
inductive Phase where
  | claiming
  | reading
  | holding
  | released
  | closed
  | replay (response : String)
  | inFlight
  | mismatch
  deriving DecidableEq

structure Thread where
  args : ClaimArgs
  startedAt : ℕ
  phase : Phase

def Thread.expiresAt (t : Thread) : ℕ := t.startedAt + processingGrace

/-- What a request does next. `answered` says whether the answer of the write arrives;
a request whose answer is lost raises and keeps its guard open. -/
inductive Move where
  | claim
  | read (plain : Option String)
  | complete (isDict : Bool) (cipher : Option String) (readAt : ℕ) (answered : Bool)
  | release (answered : Bool)

def claimDoc (digest : String → String) (k : ℕ) (t : Thread) : Row where
  lockId := t.args.lockId digest
  tenantId := t.args.tenantId
  scope := t.args.scope
  idempotencyKey := t.args.idempotencyKey
  status := .processing
  createdAt := t.startedAt
  expiresAt := t.expiresAt
  requestHash := t.args.requestHash
  holder := some k

/-- The branch of `claim_idempotency` after a duplicate key. -/
def answer (a : ClaimArgs) (existing : Option Row) (plain : Option String) : Phase :=
  match existing with
  | none => .inFlight
  | some r =>
    if a.requestHash.isSome && r.requestHash.isSome && r.requestHash != a.requestHash then .mismatch
    else if r.status == .completed then .replay (unsealResponseBody r plain)
    else .inFlight

/-- The update of `complete_idempotency`. A response that is not sealed leaves the field. -/
def completed (cipher : Option String) (readAt : ℕ) (r : Row) : Row :=
  { r with
    status := .completed
    completedAt := some readAt
    expiresAt := readAt + retention
    responseEnc := (sealResponseBody cipher).or r.responseEnc }

theorem completed_lockId (cipher : Option String) (readAt : ℕ) (r : Row) :
    (completed cipher readAt r).lockId = r.lockId := rfl

namespace Store

/-- `complete_idempotency`: the filter is the key alone. -/
def complete (s : Store) (lockId : String) (cipher : Option String) (readAt : ℕ) : Store :=
  { s with rows := s.rows.update lockId (completed cipher readAt) (completed_lockId cipher readAt) }

/-- `release_idempotency`: the filter is the key alone. -/
def release (s : Store) (lockId : String) : Store :=
  { s with rows := s.rows.deleteMany fun r => decide (r.lockId = lockId) }

/-- The monitor removes a row whose time is over. -/
def sweep (s : Store) (lockId : String) : Store :=
  { s with rows := s.rows.deleteMany fun r => decide (r.lockId = lockId) && decide (r.expiresAt ≤ s.now) }

end Store

/-- One operation of request `k`. -/
def Thread.step (digest : String → String) (k : ℕ) (s : Store) (t : Thread) :
    Move → Option (Store × Thread)
  | .claim =>
    if t.phase = .claiming then
      match s.rows.insertOne (claimDoc digest k t) with
      | some rows => some ({ s with rows := rows }, { t with phase := .holding })
      | none => some (s, { t with phase := .reading })
    else none
  | .read plain =>
    if t.phase = .reading then
      some (s, { t with phase := answer t.args (s.rows.get? (t.args.lockId digest)) plain })
    else none
  | .complete isDict cipher readAt answered =>
    if t.phase = .holding ∧ t.startedAt ≤ readAt ∧ readAt ≤ s.now then
      if isDict then
        some (s.complete (t.args.lockId digest) cipher readAt,
          if answered then { t with phase := .closed } else t)
      else some (s, t)
    else none
  | .release answered =>
    if t.phase = .holding ∨ t.phase = .released then
      some (s.release (t.args.lockId digest),
        { t with phase := if answered then .closed else .released })
    else none

/-- Beside the requests the clock goes on and the monitor sweeps. -/
inductive Env where
  | clock (seconds : ℕ)
  | sweep (lockId : String)

def Store.env (s : Store) : Env → Store
  | .clock n => { s with now := s.now + n }
  | .sweep lockId => s.sweep lockId

/-- The requests that share the collection, in which there may be rows of earlier runs. -/
def requests (digest : String → String) : Program Store Thread Env ClaimArgs Move where
  init s := ∀ r ∈ s.rows, r.holder = none
  env s e := some (s.env e)
  call s a := some ⟨a, s.now, .claiming⟩
  step k s t m := t.step digest k s m

/-! Who owns a claim. As long as a request completes or releases either before its claim
expires, or while no later claim stands under its key, it touches no claim but its own, and
of the claims that have not expired each key has one. -/

variable {digest : String → String}
variable {r : Row} {p : Pool Store Thread}

/-- The request has acquired its claim, has not let it go, and the claim has not expired. -/
def Thread.Live (now : ℕ) (t : Thread) : Prop := t.phase = .holding ∧ now < t.expiresAt

instance (now : ℕ) (t : Thread) : Decidable (t.Live now) :=
  inferInstanceAs (Decidable (_ ∧ _))

/-- No claim of another stands under the key of request `k`. -/
def Store.Unclaimed (digest : String → String) (s : Store) (k : ℕ) (t : Thread) : Prop :=
  ∀ r ∈ s.rows.rows, r.lockId = t.args.lockId digest → r.holder = some k

instance (s : Store) (k : ℕ) (t : Thread) : Decidable (s.Unclaimed digest k t) :=
  inferInstanceAs (Decidable (∀ _ ∈ _, _))

/-- A move that writes to the row under the key. -/
def Move.closes : Move → Bool
  | .claim | .read _ => false
  | .complete .. | .release _ => true

/-- When request `k` completes or releases, its claim has not expired or no claim of another
stands under its key. -/
def InTime (digest : String → String) (p : Pool Store Thread) : Act Env ClaimArgs Move → Prop
  | .step k m => m.closes = true → ∀ t ∈ p.threads[k]?,
      t.Live p.store.now ∨ p.store.Unclaimed digest k t
  | _ => True

instance (p : Pool Store Thread) (a : Act Env ClaimArgs Move) : Decidable (InTime digest p a) :=
  match a with
  | .env _ => .isTrue trivial
  | .call _ => .isTrue trivial
  | .step k m => inferInstanceAs (Decidable (m.closes = true → ∀ t ∈ p.threads[k]?, _))

/-! ### What a move does -/

variable {k : ℕ} {s s' : Store} {t t' : Thread} {m : Move}

/-- A move of request `k` leaves the store as it is, adds the claim of `k`, or writes to the
rows under its key alone. -/
inductive Wrote (digest : String → String) (k : ℕ) (s : Store) (t : Thread) : Store → Prop
  | same : Wrote digest k s t s
  | insert {rows} (h : s.rows.insertOne (claimDoc digest k t) = some rows) :
      Wrote digest k s t { s with rows := rows }
  | complete (cipher : Option String) (readAt : ℕ) :
      Wrote digest k s t (s.complete (t.args.lockId digest) cipher readAt)
  | release : Wrote digest k s t (s.release (t.args.lockId digest))

/-- What a move of request `k` does to the store and to the request. -/
theorem step_cases (h : t.step digest k s m = some (s', t')) :
    t'.args = t.args ∧ t'.startedAt = t.startedAt ∧ s'.now = s.now ∧ Wrote digest k s t s' ∧
    (s' = s ∨ m.closes = true ∨ m = .claim) ∧
    (t'.phase = .holding →
      (t.phase = .holding ∧ s' = s) ∨
      (m = .claim ∧ ∃ rows, s.rows.insertOne (claimDoc digest k t) = some rows ∧
        s' = { s with rows := rows }) ∨
      (t.phase = .holding ∧ ∃ cipher readAt, t.startedAt ≤ readAt ∧
        s' = s.complete (t.args.lockId digest) cipher readAt)) := by
  cases m with
  | claim =>
    simp only [Thread.step] at h
    split at h
    · split at h
      · rename_i rows hrows
        cases h
        exact ⟨rfl, rfl, rfl, .insert hrows, .inr (.inr rfl),
          fun _ => .inr (.inl ⟨rfl, rows, hrows, rfl⟩)⟩
      · cases h
        exact ⟨rfl, rfl, rfl, .same, .inl rfl, fun hp => by cases hp⟩
    · cases h
  | read plain =>
    simp only [Thread.step] at h
    split at h
    · cases h
      refine ⟨rfl, rfl, rfl, .same, .inl rfl, fun hp => ?_⟩
      simp only [answer] at hp
      split at hp
      · cases hp
      · split at hp
        · cases hp
        · split at hp <;> cases hp
    · cases h
  | complete isDict cipher readAt answered =>
    simp only [Thread.step] at h
    split at h
    · rename_i hg
      split at h
      · cases h
        cases answered with
        | true => exact ⟨rfl, rfl, rfl, .complete .., .inr (.inl rfl), fun hp => by cases hp⟩
        | false =>
          exact ⟨rfl, rfl, rfl, .complete .., .inr (.inl rfl),
            fun _ => .inr (.inr ⟨hg.1, cipher, readAt, hg.2.1, rfl⟩)⟩
      · cases h
        exact ⟨rfl, rfl, rfl, .same, .inl rfl, fun hp => .inl ⟨hp, rfl⟩⟩
    · cases h
  | release answered =>
    simp only [Thread.step] at h
    split at h
    · cases h
      refine ⟨rfl, rfl, rfl, .release, .inr (.inl rfl), fun hp => ?_⟩
      cases answered <;> cases hp
    · cases h

/-- What a move of request `k` does to the rows of others, when no row of another stands
under its key. -/
theorem mem_of_wrote (hw : Wrote digest k s t s') (hu : s.Unclaimed digest k t)
    (hr : r.holder ≠ some k) : r ∈ s'.rows ↔ r ∈ s.rows := by
  cases hw with
  | same => exact Iff.rfl
  | insert h =>
    rw [mem_insertOne h]
    constructor
    · rintro (hmem | rfl)
      · exact hmem
      · exact absurd rfl hr
    · exact .inl
  | complete cipher readAt =>
    simp only [Store.complete, mem_update]
    constructor
    · rintro (⟨hmem, -⟩ | ⟨x, hx, hk, rfl⟩)
      · exact hmem
      · exact absurd (hu x hx hk) hr
    · exact fun hmem => .inl ⟨hmem, fun hk => hr (hu r hmem hk)⟩
  | release =>
    simp only [Store.release, mem_deleteMany, decide_eq_true_eq]
    exact ⟨fun h => h.1, fun hmem => ⟨hmem, fun hk => hr (hu r hmem hk)⟩⟩

/-! ### The invariant -/

/-- The row of a claim that has not expired stands under its key, and not for less time. -/
def ThreadOk (digest : String → String) (s : Store) (k : ℕ) (t : Thread) : Prop :=
  t.Live s.now → ∃ r ∈ s.rows, r.lockId = t.args.lockId digest ∧ r.holder = some k ∧
    t.expiresAt ≤ r.expiresAt

/-- The key of a live claim is under no other. -/
theorem ThreadOk.unclaimed (h : ThreadOk digest s k t) (hl : t.Live s.now) :
    s.Unclaimed digest k t := by
  obtain ⟨r, hr, hkey, hk, -⟩ := h hl
  intro x hx hxk
  rw [eq_of_key hx hr (hxk.trans hkey.symm)]
  exact hk

theorem unclaimed_of_inTime (hok : ThreadOk digest p.store k t) (ht : p.threads[k]? = some t)
    (hc : InTime digest p (.step k m)) (hm : m.closes = true) : p.store.Unclaimed digest k t := by
  obtain hl | hu := hc hm t ht
  · exact hok.unclaimed hl
  · exact hu

theorem foreign_rows (hok : ThreadOk digest p.store k t) (ht : p.threads[k]? = some t)
    (hc : InTime digest p (.step k m)) (hs : t.step digest k p.store m = some (s', t'))
    (hr : r.holder ≠ some k) : r ∈ s'.rows ↔ r ∈ p.store.rows := by
  obtain ⟨-, -, -, hw, rfl | hm | rfl, -⟩ := step_cases hs
  · exact Iff.rfl
  · exact mem_of_wrote hw (unclaimed_of_inTime hok ht hc hm) hr
  · -- An insert takes no row away.
    simp only [Thread.step] at hs
    split at hs
    · split at hs
      · rename_i rows hrows
        cases hs
        rw [mem_insertOne hrows]
        exact ⟨fun h => h.resolve_right fun he => hr (he ▸ rfl), .inl⟩
      · cases hs
        exact Iff.rfl
    · cases hs

/-- A live claim keeps its row through the moves of others. -/
theorem ThreadOk.of_foreign (h : ThreadOk digest s k t) (hnow : s.now ≤ s'.now)
    (hrows : ∀ r ∈ s.rows, r.holder = some k → s'.now < r.expiresAt → r ∈ s'.rows) :
    ThreadOk digest s' k t := by
  intro hl
  obtain ⟨r, hr, hkey, hk, hexp⟩ := h ⟨hl.1, Nat.lt_of_le_of_lt hnow hl.2⟩
  exact ⟨r, hrows r hr hk (Nat.lt_of_lt_of_le hl.2 hexp), hkey, hk, hexp⟩

/-- A request keeps its own invariant. -/
theorem ThreadOk.step (h : ThreadOk digest s k t) (hs : t.step digest k s m = some (s', t')) :
    ThreadOk digest s' k t' := by
  obtain ⟨hargs, hstart, hnow, -, -, hphase⟩ := step_cases hs
  have hexp' : t'.expiresAt = t.expiresAt := congrArg (· + processingGrace) hstart
  rintro ⟨hp, hexp⟩
  rw [hargs, hexp']
  rw [hnow, hexp'] at hexp
  obtain ⟨hold, rfl⟩ | ⟨-, rows, hrows, rfl⟩ | ⟨hold, cipher, readAt, hread, rfl⟩ := hphase hp
  · exact h ⟨hold, hexp⟩
  · exact ⟨claimDoc digest k t, (mem_insertOne hrows).mpr (.inr rfl), rfl, rfl, Nat.le_refl _⟩
  · obtain ⟨r, hr, hkey, hk, -⟩ := h ⟨hold, hexp⟩
    have hmem : completed cipher readAt r ∈
        (s.complete (t.args.lockId digest) cipher readAt).rows := by
      rw [Store.complete, mem_update]
      exact .inr ⟨r, hr, hkey, rfl⟩
    refine ⟨completed cipher readAt r, hmem, hkey, hk, ?_⟩
    simp only [Thread.expiresAt, completed, processingGrace, retention]
    omega

theorem preserves : Program.Preserves (requests digest) (InTime digest) (fun _ => True)
    (ThreadOk digest) (fun _ _ => True) where
  symm := fun _ _ _ => trivial
  init := fun _ _ => trivial
  env := by
    intro p e s' hi _ hs
    refine ⟨trivial, fun k t ht => ?_⟩
    cases hs
    cases e with
    | clock n =>
      exact (hi.thread k t ht).of_foreign (Nat.le_add_right _ n) fun r hr _ _ => hr
    | sweep lockId =>
      refine (hi.thread k t ht).of_foreign (Nat.le_refl _) fun r hr _ hlt => ?_
      refine mem_deleteMany.mpr ⟨hr, fun hdel => ?_⟩
      have hle : r.expiresAt ≤ p.store.now := by
        simpa using (Bool.and_eq_true_iff.mp hdel).2
      exact absurd hlt (Nat.not_lt.mpr hle)
  call := by
    intro p a t _ _ hs
    cases hs
    exact ⟨fun hl => absurd hl.1 (fun h => Phase.noConfusion h), fun _ _ => trivial⟩
  step := by
    intro p k m t s' t' hi hc ht hs
    have hok := hi.thread k t ht
    refine ⟨trivial, hok.step hs, fun j u hjk hu => ⟨?_, trivial⟩⟩
    have hnow : s'.now = p.store.now := (step_cases hs).2.2.1
    refine (hi.thread j u hu).of_foreign (Nat.le_of_eq hnow.symm) fun r hr hj _ => ?_
    exact (foreign_rows hok ht hc hs fun hk => hjk (Option.some.inj (hj.symm.trans hk))).mpr hr

/-- Claims have one owner: in a run whose completions and releases are in time, two requests
whose claims have not expired never hold one key, and no request inserts, changes or removes
the claim of another. -/
theorem claims_have_one_owner {p : Pool Store Thread}
    (hp : (requests digest).machine.Reach (InTime digest) p) :
    (∀ (j k : ℕ) t u, p.threads[j]? = some t → p.threads[k]? = some u → t.Live p.store.now →
      u.Live p.store.now → t.args.lockId digest = u.args.lockId digest → j = k) ∧
    ∀ (k : ℕ) m p', InTime digest p (.step k m) →
      (requests digest).machine.step p (.step k m) = some p' →
      ∀ r : Row, r.holder ≠ some k → (r ∈ p'.store.rows ↔ r ∈ p.store.rows) := by
  have hi := preserves.reach hp
  constructor
  · intro j k t u ht hu hlt hlu hkey
    obtain ⟨r, hr, hrkey, hrj, -⟩ := hi.thread j t ht hlt
    have hrk := (hi.thread k u hu).unclaimed hlu r hr (hrkey.trans hkey)
    exact Option.some.inj (hrj.symm.trans hrk)
  · intro k m p' hc hs r hr
    obtain ⟨t, t', ht, hst, -⟩ := Program.next_step hs
    exact foreign_rows (hi.thread k t ht) ht hc hst hr

def noClaims : Store := ⟨.empty, 0⟩

def sampleRequest : ClaimArgs := ⟨"hotel", "folio_payment:f", "k", none⟩

/-- The claims in the collection, and the requests whose claims have not expired. -/
def owners (p : Pool Store Thread) : List (Option ℕ × Status) × List Bool :=
  (p.store.rows.rows.map fun r => (r.holder, r.status),
    p.threads.map fun t => decide (t.Live p.store.now))

/-- The first claim expires and is swept, and a second request acquires the key and completes
it. -/
theorem claims_have_one_owner_takeover :
    ∃ p, (requests id).machine.Reach (InTime id) p ∧
      owners p = ([(some 1, .completed)], [false, false]) ∧
    (∀ (j k : ℕ) t u, p.threads[j]? = some t → p.threads[k]? = some u → t.Live p.store.now →
      u.Live p.store.now → t.args.lockId id = u.args.lockId id → j = k) ∧
    ∀ (k : ℕ) m p', InTime id p (.step k m) →
      (requests id).machine.step p (.step k m) = some p' →
      ∀ r : Row, r.holder ≠ some k → (r ∈ p'.store.rows ↔ r ∈ p.store.rows) := by
  obtain ⟨p, hp, hv⟩ := Machine.exists_reach_of_runUnder (M := (requests id).machine)
    (C := InTime id) (f := owners) (s := ⟨noClaims, []⟩)
    (v := ([(some 1, .completed)], [false, false]))
    [.call sampleRequest, .step 0 .claim, .env (.clock 300), .env (.sweep "hotel:folio_payment:f:k"),
      .call sampleRequest, .step 1 .claim, .step 1 (.complete true none 300 true)]
    ⟨fun _ hr => absurd hr not_mem_empty, rfl⟩ (by decide +kernel)
  exact ⟨p, hp, hv, claims_have_one_owner hp⟩

/-- The keys of the requests, and which of their claims have not expired. -/
def holders (p : Pool Store Thread) : List (String × Bool) :=
  p.threads.map fun t => (t.args.lockId id, decide (t.Live p.store.now))

/-- The claim of request 0 expires, request 1 acquires the key, request 0 fails at last and
releases, and request 2 acquires the key while the claim of request 1 has not expired. -/
theorem late_release_frees_the_key :
    ¬ ∀ (digest : String → String) (p : Pool Store Thread), (requests digest).machine.Reachable p →
      (∀ (j k : ℕ) t u, p.threads[j]? = some t → p.threads[k]? = some u → t.Live p.store.now →
        u.Live p.store.now → t.args.lockId digest = u.args.lockId digest → j = k) ∧
      ∀ (k : ℕ) m p', (requests digest).machine.step p (.step k m) = some p' →
        ∀ r : Row, r.holder ≠ some k → (r ∈ p'.store.rows ↔ r ∈ p.store.rows) := by
  intro h
  obtain ⟨p, hp, hv⟩ := Machine.exists_reachable_of_run (M := (requests id).machine)
    (f := holders) (s := ⟨noClaims, []⟩)
    (v := [("hotel:folio_payment:f:k", false), ("hotel:folio_payment:f:k", true),
      ("hotel:folio_payment:f:k", true)])
    [.call sampleRequest, .step 0 .claim, .env (.clock 300), .env (.sweep "hotel:folio_payment:f:k"),
      .call sampleRequest, .step 1 .claim, .step 0 (.release true), .call sampleRequest,
      .step 2 .claim]
    ⟨fun _ hr => absurd hr not_mem_empty, rfl⟩ (by decide +kernel)
  have hget : ∀ k : ℕ, (p.threads[k]?).map (fun t => (t.args.lockId id, decide (t.Live p.store.now)))
      = [("hotel:folio_payment:f:k", false), ("hotel:folio_payment:f:k", true),
          ("hotel:folio_payment:f:k", true)][k]? := by
    intro k
    rw [← List.getElem?_map, ← hv]
    rfl
  obtain ⟨t, ht, htv⟩ := Option.map_eq_some_iff.mp (hget 1)
  obtain ⟨u, hu, huv⟩ := Option.map_eq_some_iff.mp (hget 2)
  have hkey : t.args.lockId id = u.args.lockId id :=
    (congrArg Prod.fst htv).trans (congrArg Prod.fst huv).symm
  have hone := (h id p hp).1 1 2 t u ht hu (of_decide_eq_true (congrArg Prod.snd htv))
    (of_decide_eq_true (congrArg Prod.snd huv)) hkey
  exact absurd hone (by decide)

end SyrocePms.Idempotency
