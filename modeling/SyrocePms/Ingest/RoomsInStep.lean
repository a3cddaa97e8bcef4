import SyrocePms.Ingest.Pipeline
import SyrocePms.Provider.Explode

/-! The parts of a HotelRunner reservation in the ingest pipeline. Each part is an event of the
reservation with its number; the parts of a version are processed one after the other. -/

namespace SyrocePms.Ingest

open Provider (HrReservation HrState explodeMultiRoomReservation)

/-! ### One event alone -/

/-- The operations of a call that no other call interferes with, up to a number of them. -/
def runAlone (e : RawEvent) (o : Outside) : ℕ → Store → IngestPc → Store × IngestPc
  | 0, s, pc => (s, pc)
  | n + 1, s, pc =>
    match ingestStep 0 s e false o pc with
    | some r => runAlone e o n r.1 r.2
    | none => (s, pc)

def processEvent (s : Store) (e : RawEvent) (o : Outside) : Store := (runAlone e o 8 s .dedup).1

/-! ### The parts -/

/-- `normalize_hotelrunner` on the state: a cancelled room, else the word of the state, else that
of the status. A stay that was not shown up for counts as cancelled. -/
def normalizedStatus (r : HrReservation) : ProviderStatus :=
  if r.roomCancelled then .state .cancelled
  else match r.state.or r.status with
    | some .canceled | some .cancelled | some .noShow => .state .cancelled
    | some .modified => .state .modified
    | some (.word .pending) => .state .pending
    | some .confirmed | some (.word _) | none => .state .confirmed

/-- What is taken of a part beside its state: the texts of the identifiers as numbers, the other
normalised fields, and what the services answer when the part is processed. -/
structure Reading where
  providerEventId : String → ℕ → ℕ
  providerEventId_version : ∀ h v w, providerEventId h v = providerEventId h w → v = w
  payloadHash : HrReservation → ℕ
  payloadHash_version : ∀ r r' : HrReservation, payloadHash r = payloadHash r' → r.updatedAt = r'.updatedAt
  details : HrReservation → Details
  unhashed : HrReservation → Unhashed
  outside : HrReservation → Outside

def version (r : HrReservation) : ℕ := r.updatedAt.getD 0

variable (R : Reading)

def canonical (r : HrReservation) : Canonical where
  version := version r
  status := normalizedStatus r
  details := R.details r
  unhashed := R.unhashed r

def rawEvent (r : HrReservation) : RawEvent where
  canonical := canonical R r
  providerEventId := R.providerEventId r.hrNumber (version r)
  payloadHash := R.payloadHash r

/-- The stores of the reservations by their numbers. -/
abbrev Inbox := String → Store

/-- The newest event with the same identifier that is on record, where the event has a version. -/
def record? (s : Store) (e : RawEvent) : Option Finalized :=
  if e.canonical.version = 0 then none
  else s.finalized.find? fun f => f.providerEventId == e.providerEventId

/-- A failed event may be replayed, unless it waits for a mapping. -/
def IngestAnswer.replayable : IngestAnswer → Bool
  | .failed | .manualReview | .cancelledUnknown => true
  | _ => false

/-- `_persist_and_process`: an event that is on record is replayed or left alone. -/
def persistAndProcess (s : Store) (e : RawEvent) (o : Outside) : Store :=
  match record? s e with
  | some f => if f.answer.replayable then processEvent s { e with replayOfFailed := true } o else s
  | none => processEvent s e o

def processPart (inbox : Inbox) (r : HrReservation) : Inbox :=
  Function.update inbox r.hrNumber
    (persistAndProcess (inbox r.hrNumber) (rawEvent R r) (R.outside r))

def processParts (inbox : Inbox) (parts : List HrReservation) : Inbox :=
  parts.foldl (processPart R) inbox

def processVersions (inbox : Inbox) (versions : List HrReservation) : Inbox :=
  processParts R inbox (versions.flatMap explodeMultiRoomReservation)

/-- There is a reservation, and it is not cancelled. -/
def Store.Active (s : Store) : Prop := ∃ l, s.lineage = some l ∧ l.status ≠ .cancelled

instance (s : Store) : Decidable s.Active :=
  match h : s.lineage with
  | none => .isFalse fun ⟨_, hl, _⟩ => by simp [h] at hl
  | some l =>
    if hl : l.status = .cancelled then
      .isFalse fun ⟨_, hsome, hne⟩ => hne (Option.some.inj (h.symm.trans hsome) ▸ hl)
    else .isTrue ⟨l, h, hl⟩

end SyrocePms.Ingest

/-! Which parts of a reservation are active after a sequence of versions. -/

namespace SyrocePms.Ingest

open Provider (HrReservation explodeMultiRoomReservation subNumber)

variable {R : Reading} {s : Store}
variable {c : Canonical} {l : Lineage} {mapped : Bool} {e : RawEvent} {o : Outside}
  {versions : List HrReservation}

/-! ### One event -/

def nextLineage (s : Store) (c : Canonical) (mapped : Bool) : Option Lineage :=
  match decideEvent c s.lineage mapped with
  | .create => some (createdLineage s.nextId c)
  | .pendingMapping => s.lineage.or (some (createdLineage s.nextId c))
  | .update => s.lineage.map fun l => updatedLineage l c l
  | .cancel => s.lineage.map fun l => cancelledLineage l l
  | .skipSameHash | .skipStale | .manualReview => s.lineage

/-- The event is news to the store, and nobody holds the lineage. -/
structure News (s : Store) (e : RawEvent) : Prop where
  unseen : s.seen e = false
  current : ∀ l ∈ s.lineage, staleVersion e.canonical.version l = false
  free : ∀ l ∈ s.lineage, l.lock = none

theorem decideEvent_ne_create : decideEvent c (some l) mapped ≠ .create := by
  unfold decideEvent
  dsimp only
  split_ifs <;> simp

theorem decideEvent_ne_update : decideEvent c none mapped ≠ .update := by
  unfold decideEvent
  dsimp only
  split_ifs <;> simp

theorem runAlone_step {n : ℕ} {s' : Store} {pc pc' : IngestPc}
    (h : ingestStep 0 s e false o pc = some (s', pc')) :
    runAlone e o (n + 1) s pc = runAlone e o n s' pc' := by
  simp only [runAlone, h]

/-- The lease of the call is given back. -/
def released (l : Option ℕ) (lineage : Option Lineage) : Option Lineage :=
  match l with
  | none => lineage
  | some id => lineage.map fun x =>
      if x.id = id && x.lock.any (fun y => y.owner == 0) then { x with lock := none } else x

/-- The end of a call, from its writes on. -/
theorem runAlone_after (e : RawEvent) (o : Outside) (n : ℕ) (s : Store) (l : Option ℕ) (a : IngestAnswer) :
    (runAlone e o (n + 3) s (.after l a)).1.lineage = released l s.lineage ∧
      ∃ a', (runAlone e o (n + 3) s (.after l a)).1.finalized =
        ⟨e.providerEventId, e.payloadHash, a'⟩ :: s.finalized := by
  have hafter : ∃ a', ingestStep 0 s e false o (.after l a) = some (s, .finalize l a') := by
    cases hok : o.ok <;> simp [ingestStep, hok]
  obtain ⟨a', hafter⟩ := hafter
  rw [runAlone_step hafter, runAlone_step rfl]
  cases l with
  | none =>
    rw [runAlone_step rfl]
    cases n <;> exact ⟨rfl, a', rfl⟩
  | some id =>
    rw [runAlone_step rfl]
    cases n <;> exact ⟨rfl, a', rfl⟩

theorem runAlone_find (a : IngestAnswer) (hl : s.lineage = none) :
    (runAlone e o 5 s (.find a)).1.lineage = some (createdLineage s.nextId e.canonical) ∧
      ∃ a', (runAlone e o 5 s (.find a)).1.finalized =
        ⟨e.providerEventId, e.payloadHash, a'⟩ :: s.finalized := by
  have hfind : ingestStep 0 s e false o (.find a) = some (s, .upsert none a) := by
    simp [ingestStep, hl]
  have hupsert : ingestStep 0 s e false o (.upsert none a) =
      some ({ s.apply e.canonical (createdLineage s.nextId e.canonical) with nextId := s.nextId + 1 },
        .after none a) := by
    simp [ingestStep, upsertStep, hl]
  rw [runAlone_step hfind, runAlone_step hupsert]
  exact runAlone_after e o 0 _ none a

def LockedDecision.apply (d : LockedDecision) (c : Canonical) (l : Lineage) : Lineage :=
  match d with
  | .update => updatedLineage l c l
  | .cancel => cancelledLineage l l

/-- The write under the lease of a lineage that nobody holds. -/
theorem runAlone_acquire (d : LockedDecision) (hl : s.lineage = some l) (hlock : l.lock = none) :
    (runAlone e o 5 s (.acquire l d)).1.lineage = some (d.apply e.canonical l) ∧
      ∃ a, (runAlone e o 5 s (.acquire l d)).1.finalized =
        ⟨e.providerEventId, e.payloadHash, a⟩ :: s.finalized := by
  have hacquire : ingestStep 0 s e false o (.acquire l d) =
      some ({ s with lineage := some { l with lock := some ⟨0, s.now + lockTtlSeconds⟩ } },
        .write l d) := by
    simp [ingestStep, hl, hlock]
  rw [runAlone_step hacquire]
  cases d with
  | update =>
    rw [runAlone_step (by simp [ingestStep, writeStep, Store.leaseHeld]; exact ⟨rfl, rfl⟩)]
    obtain ⟨hlineage, hfinalized⟩ := runAlone_after e o 0 _ (some l.id) .updated
    refine ⟨hlineage.trans ?_, hfinalized⟩
    simp [released, Store.apply, updatedLineage, LockedDecision.apply, hlock]
  | cancel =>
    rw [runAlone_step (by simp [ingestStep, writeStep, Store.leaseHeld]; exact ⟨rfl, rfl⟩)]
    obtain ⟨hlineage, hfinalized⟩ := runAlone_after e o 0 _ (some l.id) .cancelled
    refine ⟨hlineage.trans ?_, hfinalized⟩
    simp [released, Store.apply, cancelledLineage, LockedDecision.apply, hlock]

theorem runAlone_idle {copy : Option Lineage} {d : IngestDecision} {a : IngestAnswer}
    (hd : decideEvent e.canonical copy o.mapped = d) (hidle : decided copy d = .after none a) :
    (runAlone e o 6 s (.decide copy)).1.lineage = s.lineage ∧
      ∃ a', (runAlone e o 6 s (.decide copy)).1.finalized =
        ⟨e.providerEventId, e.payloadHash, a'⟩ :: s.finalized := by
  have hstep : ingestStep 0 s e false o (.decide copy) =
      some (if d = .skipSameHash then s.noteSkip e.canonical else s, .after none a) := by
    simp [ingestStep, hd, hidle]
  have hnote : (s.noteSkip e.canonical).lineage = s.lineage ∧
      (s.noteSkip e.canonical).finalized = s.finalized := by
    unfold Store.noteSkip
    split <;> exact ⟨rfl, rfl⟩
  obtain ⟨hlineage, hfinalized⟩ := runAlone_after e o 2 (if d = .skipSameHash then s.noteSkip e.canonical else s)
    none a
  rw [runAlone_step hstep]
  split at hlineage <;> rename_i hskip
  · rw [if_pos hskip] at hfinalized ⊢
    rw [hnote.2] at hfinalized
    exact ⟨hlineage.trans hnote.1, hfinalized⟩
  · rw [if_neg hskip] at hfinalized ⊢
    exact ⟨hlineage, hfinalized⟩

theorem processEvent_news (h : News s e) :
    (processEvent s e o).lineage = nextLineage s e.canonical o.mapped ∧
      ∃ a, (processEvent s e o).finalized = ⟨e.providerEventId, e.payloadHash, a⟩ :: s.finalized := by
  obtain ⟨hunseen, hcurrent, hfree⟩ := h
  have hdedup : ingestStep 0 s e false o .dedup = some (s, .read) := by
    simp [ingestStep, hunseen]
  have hread : ingestStep 0 s e false o .read = some (s, .decide s.lineage) := by
    cases hl : s.lineage with
    | none => simp [ingestStep, hl]
    | some l => simp [ingestStep, hl, hcurrent l hl]
  have hdecide {d : IngestDecision} (hd : decideEvent e.canonical s.lineage o.mapped = d)
      (hskip : d ≠ .skipSameHash) :
      ingestStep 0 s e false o (.decide s.lineage) = some (s, decided s.lineage d) := by
    simp [ingestStep, hd, hskip]
  unfold processEvent nextLineage
  rw [runAlone_step hdedup, runAlone_step hread]
  cases hd : decideEvent e.canonical s.lineage o.mapped <;> cases hl : s.lineage <;>
    simp only [hl] at hd hdecide
  case create.none =>
    rw [runAlone_step (hdecide hd (by simp))]
    exact runAlone_find .created hl
  case pendingMapping.none =>
    rw [runAlone_step (hdecide hd (by simp))]
    exact runAlone_find .pendingMapping hl
  case update.some l =>
    rw [runAlone_step (hdecide hd (by simp))]
    exact runAlone_acquire .update hl (hfree l hl)
  case cancel.some l =>
    rw [runAlone_step (hdecide hd (by simp))]
    exact runAlone_acquire .cancel hl (hfree l hl)
  case create.some l => exact absurd hd decideEvent_ne_create
  case update.none => exact absurd hd decideEvent_ne_update
  all_goals
    have hidle := runAlone_idle (s := s) hd rfl
    rw [hl] at hidle
    exact hidle

/-! ### One number -/

/-- A part that comes back after a cancellation is taken as an update. -/
def ComebackAccepted (R : Reading) (s : Store) (p : HrReservation) : Prop :=
  ∀ l ∈ s.lineage, l.status = .cancelled → (canonical R p).isCancelled = false →
    decideEvent (canonical R p) (some l) (R.outside p).mapped = .update

/-- The store of a number after the parts `done`. -/
structure Tracks (R : Reading) (n : String) (done : List HrReservation) (s : Store) : Prop where
  events : ∀ f ∈ s.finalized, ∃ p ∈ done, f.providerEventId = R.providerEventId n (version p) ∧
    f.payloadHash = R.payloadHash p
  lineage : ∀ l ∈ s.lineage, l.lock = none ∧ ∃ p ∈ done, l.version = version p
  active : s.Active ↔ ∃ p, done.getLast? = some p ∧ (canonical R p).isCancelled = false

variable {n : String} {done : List HrReservation} {p : HrReservation}

theorem Tracks.news (h : Tracks R n done s) (hp : p.hrNumber = n)
    (hnew : ∀ q ∈ done, version q < version p) :
    record? s (rawEvent R p) = none ∧ News s (rawEvent R p) := by
  have hid : ∀ f ∈ s.finalized, f.providerEventId ≠ (rawEvent R p).providerEventId := by
    intro f hf heq
    obtain ⟨q, hq, hfid, -⟩ := h.events f hf
    rw [hfid, rawEvent, hp] at heq
    have hversion := R.providerEventId_version n _ _ heq
    have hlt := hnew q hq
    omega
  have hhash : ∀ f ∈ s.finalized, f.payloadHash ≠ (rawEvent R p).payloadHash := by
    intro f hf heq
    obtain ⟨q, hq, -, hfhash⟩ := h.events f hf
    have hupdated : q.updatedAt = p.updatedAt := R.payloadHash_version q p (hfhash.symm.trans heq)
    have hlt := hnew q hq
    rw [version, version, hupdated] at hlt
    omega
  refine ⟨?_, ?_, fun l hl => ?_, fun l hl => (h.lineage l hl).1⟩
  · unfold record?
    split
    · rfl
    · exact List.find?_eq_none.mpr fun f hf => by simpa using hid f hf
  · refine List.any_eq_false.mpr fun f hf => ?_
    simp [hid f hf, hhash f hf]
  · obtain ⟨q, hq, hlversion⟩ := (h.lineage l hl).2
    have hlt : version q < (rawEvent R p).canonical.version := hnew q hq
    have hle : ¬ (rawEvent R p).canonical.version ≤ l.version := by omega
    simp [staleVersion, hle]

theorem active_nextLineage (hback : ComebackAccepted R s p) :
    (∃ l, nextLineage s (canonical R p) (R.outside p).mapped = some l ∧ l.status ≠ .cancelled) ↔
      (canonical R p).isCancelled = false := by
  cases hc : (canonical R p).isCancelled with
  | true =>
    rw [nextLineage, decideEvent_cancel.mpr hc]
    cases s.lineage <;> simp [cancelledLineage]
  | false =>
    simp only [iff_true]
    have hd : decideEvent (canonical R p) s.lineage (R.outside p).mapped ≠ .cancel := fun h => by
      rw [decideEvent_cancel.mp h] at hc
      cases hc
    cases hl : s.lineage with
    | none =>
      rw [nextLineage, hl]
      cases hd' : decideEvent (canonical R p) none (R.outside p).mapped with
      | create => exact ⟨_, rfl, by simp [createdLineage]⟩
      | pendingMapping => exact ⟨_, rfl, by simp [createdLineage]⟩
      | update => exact absurd hd' decideEvent_ne_update
      | cancel => exact absurd (hl ▸ hd') hd
      | skipSameHash | skipStale | manualReview =>
        unfold decideEvent at hd'
        rw [hc] at hd'
        dsimp only at hd'
        split_ifs at hd'
    | some l =>
      rw [nextLineage, hl]
      by_cases hst : l.status = .cancelled
      · rw [hback l hl hst hc]
        exact ⟨_, rfl, by simp [updatedLineage]⟩
      · cases hd' : decideEvent (canonical R p) (some l) (R.outside p).mapped with
        | create => exact absurd hd' decideEvent_ne_create
        | update => exact ⟨_, rfl, by simp [updatedLineage]⟩
        | cancel => exact absurd (hl ▸ hd') hd
        | pendingMapping | skipSameHash | skipStale | manualReview => exact ⟨l, rfl, hst⟩

theorem version_nextLineage (h : Tracks R n done s)
    (hl : nextLineage s (canonical R p) (R.outside p).mapped = some l) :
    l.lock = none ∧ ∃ q ∈ done ++ [p], l.version = version q := by
  have hnew : ∃ q ∈ done ++ [p], version p = version q :=
    ⟨p, List.mem_append_right _ List.mem_cons_self, rfl⟩
  have hold {k : Lineage} (hk : s.lineage = some k) :
      k.lock = none ∧ ∃ q ∈ done ++ [p], k.version = version q := by
    obtain ⟨hlock, q, hq, hver⟩ := h.lineage k hk
    exact ⟨hlock, q, List.mem_append_left _ hq, hver⟩
  unfold nextLineage at hl
  split at hl
  · cases hl
    exact ⟨rfl, hnew⟩
  · cases hk : s.lineage with
    | none =>
      rw [hk] at hl
      cases hl
      exact ⟨rfl, hnew⟩
    | some k =>
      rw [hk] at hl
      cases hl
      exact hold hk
  · obtain ⟨k, hk, rfl⟩ := Option.map_eq_some_iff.mp hl
    exact ⟨(hold hk).1, hnew⟩
  · obtain ⟨k, hk, rfl⟩ := Option.map_eq_some_iff.mp hl
    exact ⟨(hold hk).1, (hold hk).2⟩
  all_goals exact hold hl

theorem Tracks.step (h : Tracks R n done s) (hp : p.hrNumber = n)
    (hnew : ∀ q ∈ done, version q < version p) (hback : ComebackAccepted R s p) :
    Tracks R n (done ++ [p]) (persistAndProcess s (rawEvent R p) (R.outside p)) := by
  obtain ⟨hrecord, hnews⟩ := h.news hp hnew
  obtain ⟨hlineage, a, hfinalized⟩ := processEvent_news (o := R.outside p) hnews
  rw [persistAndProcess, hrecord]
  refine ⟨fun f hf => ?_, fun l hl => ?_, ?_⟩
  · rw [hfinalized] at hf
    obtain rfl | hf := List.mem_cons.mp hf
    · exact ⟨p, List.mem_append_right _ List.mem_cons_self, by rw [rawEvent, hp], rfl⟩
    · obtain ⟨q, hq, hids⟩ := h.events f hf
      exact ⟨q, List.mem_append_left _ hq, hids⟩
  · exact version_nextLineage h (hlineage ▸ hl)
  · rw [Store.Active, hlineage]
    refine (active_nextLineage hback).trans ?_
    simp

/-! ### All numbers -/

def ComebacksAccepted (R : Reading) : Inbox → List HrReservation → Prop
  | _, [] => True
  | inbox, p :: ps => ComebackAccepted R (inbox p.hrNumber) p ∧ ComebacksAccepted R (processPart R inbox p) ps

/-- By induction on the parts to come: the store of a number tracks the parts of that number. -/
theorem tracks_processParts {inbox : Inbox} {parts : List HrReservation} (h : Tracks R n done (inbox n))
    (hinc : (done ++ parts.filter fun p => p.hrNumber = n).Pairwise fun p q => version p < version q)
    (hback : ComebacksAccepted R inbox parts) :
    Tracks R n (done ++ parts.filter fun p => p.hrNumber = n) (processParts R inbox parts n) := by
  induction parts generalizing inbox done with
  | nil => simpa [processParts] using h
  | cons p ps ih =>
    obtain ⟨hp, hps⟩ := hback
    by_cases hpn : p.hrNumber = n
    · have hfilter : (p :: ps).filter (fun p => p.hrNumber = n) = p :: ps.filter fun p => p.hrNumber = n :=
        List.filter_cons_of_pos (by simpa using hpn)
      rw [hfilter] at hinc ⊢
      rw [List.append_cons] at hinc ⊢
      refine ih ?_ hinc hps
      have hnew : ∀ q ∈ done, version q < version p := by
        intro q hq
        have hpair := (List.pairwise_append.mp hinc).1
        exact (List.pairwise_append.mp hpair).2.2 q hq p (List.mem_singleton_self p)
      rw [processPart, hpn, Function.update_self]
      exact h.step hpn hnew (hpn ▸ hp)
    · have hfilter : (p :: ps).filter (fun p => p.hrNumber = n) = ps.filter fun p => p.hrNumber = n :=
        List.filter_cons_of_neg (by simpa using hpn)
      rw [hfilter] at hinc ⊢
      refine ih ?_ hinc hps
      rw [processPart, Function.update_of_ne (Ne.symm hpn)]
      exact h

/-! ### The parts of a version -/

def partAt (i : ℕ) (r : HrReservation) : Option HrReservation := (explodeMultiRoomReservation r)[i]?

/-- Where the names of the elements are told apart by their positions, the elements with a name are
the one at its position. -/
theorem filter_eq_getElem? {α β : Type*} [DecidableEq β] {f : α → β} {g : ℕ → β} (hg : Function.Injective g)
    {xs : List α} {k : ℕ} (h : ∀ j x, xs[j]? = some x → f x = g (k + j)) (i : ℕ) :
    xs.filter (fun x => f x = g (k + i)) = xs[i]?.toList := by
  induction xs generalizing k i with
  | nil => rfl
  | cons x xs ih =>
    have hx : f x = g k := h 0 x rfl
    have htail : ∀ j y, xs[j]? = some y → f y = g (k + 1 + j) := by
      intro j y hy
      rw [Nat.add_assoc, Nat.add_comm 1 j]
      exact h (j + 1) y hy
    cases i with
    | zero =>
      rw [List.filter_cons_of_pos (by simpa using hx), List.filter_eq_nil_iff.mpr]
      · rfl
      · intro y hy
        obtain ⟨j, hj⟩ := List.mem_iff_getElem?.mp hy
        rw [htail j y hj, decide_eq_true_eq]
        intro heq
        have hkj := hg heq
        omega
    | succ i =>
      have hne : f x ≠ g (k + (i + 1)) := by
        rw [hx]
        intro heq
        have hk := hg heq
        omega
      rw [List.filter_cons_of_neg (by simpa using hne), Nat.add_comm i 1, ← Nat.add_assoc, ih htail i]
      rw [Nat.add_comm 1 i]
      rfl

theorem filter_explode {r : HrReservation} (i : ℕ) :
    (explodeMultiRoomReservation r).filter (fun p => p.hrNumber = subNumber r.hrNumber i) =
      (partAt i r).toList := by
  have hall : ∀ j x, (explodeMultiRoomReservation r)[j]? = some x →
      x.hrNumber = subNumber r.hrNumber (0 + j) := by
    intro j x hx
    rw [Nat.zero_add]
    exact Provider.hrNumber_explode hx
  simpa [partAt] using filter_eq_getElem? (Provider.subNumber_injective r.hrNumber) hall i

theorem filter_versions {h : String} (hnumber : ∀ v ∈ versions, v.hrNumber = h) (i : ℕ) :
    (versions.flatMap explodeMultiRoomReservation).filter (fun p => p.hrNumber = subNumber h i) =
      versions.filterMap (partAt i) := by
  induction versions with
  | nil => rfl
  | cons v vs ih =>
    have hv := hnumber v List.mem_cons_self
    have hvs := ih fun w hw => hnumber w (List.mem_cons_of_mem _ hw)
    rw [List.flatMap_cons, List.filter_append, hvs, ← hv, filter_explode, List.filterMap_cons]
    cases partAt i v <;> rfl

theorem version_partAt {i : ℕ} {v : HrReservation} (h : partAt i v = some p) :
    version p = version v := by
  rw [version, Provider.updatedAt_explode (List.mem_of_getElem? h), version]

theorem pairwise_partAt (i : ℕ) (h : versions.Pairwise fun v w => version v < version w) :
    (versions.filterMap (partAt i)).Pairwise fun p q => version p < version q := by
  refine List.Pairwise.filterMap _ (fun v w hvw p hp q hq => ?_) h
  rw [version_partAt hp, version_partAt hq]
  exact hvw

/-- Nothing is known under the number. -/
def Fresh (s : Store) : Prop := s.lineage = none ∧ s.finalized = []

theorem Fresh.tracks (h : Fresh s) : Tracks R n [] s := by
  refine ⟨?_, ?_, ?_⟩
  · simp [h.2]
  · simp [h.1]
  · simp [Store.Active, h.1]

/-- After the versions of a reservation, each newer than the one before, the part at a position is
active exactly when the latest version that lists the position does not cancel it; rooms that come
back are those that the pipeline takes as an update. A reservation with another number has a part
in common only when one of the two numbers is that of a part of the other. -/
theorem active_iff_latest_listing {inbox : Inbox} {h : String} {versions : List HrReservation}
    (hnumber : ∀ v ∈ versions, v.hrNumber = h)
    (hnewer : versions.Pairwise fun v w => version v < version w)
    (hfresh : ∀ i, Fresh (inbox (subNumber h i)))
    (hback : ComebacksAccepted R inbox (versions.flatMap explodeMultiRoomReservation)) :
    (∀ i, (processVersions R inbox versions (subNumber h i)).Active ↔
      ∃ p, (versions.filterMap (partAt i)).getLast? = some p ∧ (canonical R p).isCancelled = false) ∧
      ∀ h' i j, h' ≠ h → subNumber h' j = subNumber h i →
        (j = 0 ∧ i ≠ 0 ∧ h' = subNumber h i) ∨ (i = 0 ∧ j ≠ 0 ∧ h = subNumber h' j) := by
  refine ⟨fun i => ?_, fun h' i j hne heq => ?_⟩
  · have htracks := tracks_processParts (n := subNumber h i) ((hfresh i).tracks (R := R))
      (by rw [List.nil_append, filter_versions hnumber]; exact pairwise_partAt i hnewer) hback
    rw [List.nil_append, filter_versions hnumber] at htracks
    exact htracks.active
  · obtain ⟨rfl, -⟩ | hj | ⟨hi, hj, hself⟩ := Provider.subNumber_eq_iff.mp heq
    · exact absurd rfl hne
    · exact .inl hj
    · exact .inr ⟨hi, hj, hself⟩

/-! ### Two rooms -/

instance (R : Reading) (s : Store) (p : HrReservation) : Decidable (ComebackAccepted R s p) := by
  unfold ComebackAccepted
  infer_instance

instance decidableComebacksAccepted (R : Reading) :
    (inbox : Inbox) → (parts : List HrReservation) → Decidable (ComebacksAccepted R inbox parts)
  | _, [] => .isTrue trivial
  | inbox, p :: ps =>
    have := decidableComebacksAccepted R (processPart R inbox p) ps
    inferInstanceAs (Decidable (_ ∧ _))

/-- Identifiers by the time of modification, and no further fields. -/
def sampleReading : Reading where
  providerEventId _ v := v
  providerEventId_version _ _ _ h := h
  payloadHash r := match r.updatedAt with
    | none => 0
    | some t => t + 1
  payloadHash_version r r' h := by
    cases hr : r.updatedAt <;> cases hr' : r'.updatedAt <;> simp_all
  details _ := {}
  unhashed _ := {}
  outside _ := {}

def sampleVersion (updatedAt : ℕ) (rooms : List Provider.DeliveredRoom) : HrReservation where
  hrNumber := "R7"
  rooms := rooms
  state := some .confirmed
  updatedAt := some updatedAt

def cancelledLater : List HrReservation :=
  [sampleVersion 1 [{}, {}], sampleVersion 2 [{}, { state := some .cancelled }]]

theorem active_iff_latest_listing_cancelled :
    ((processVersions sampleReading (fun _ => emptyStore) cancelledLater (subNumber "R7" 0)).Active ∧
      ¬ (processVersions sampleReading (fun _ => emptyStore) cancelledLater (subNumber "R7" 1)).Active) ∧
      ∀ i, (processVersions sampleReading (fun _ => emptyStore) cancelledLater (subNumber "R7" i)).Active ↔
        ∃ p, (cancelledLater.filterMap (partAt i)).getLast? = some p ∧
          (canonical sampleReading p).isCancelled = false :=
  ⟨by decide +kernel, (active_iff_latest_listing (by decide +kernel) (by decide +kernel)
    (fun _ => ⟨rfl, rfl⟩) (by decide +kernel)).1⟩

/-- A room that the next version does not list stays active, and the number of a part may be that
of another reservation. -/
theorem dropped_room_active :
    (¬ ∀ (R : Reading) inbox h versions v, (∀ w ∈ versions ++ [v], w.hrNumber = h) →
      (versions ++ [v]).Pairwise (fun v w => version v < version w) →
      (∀ i, Fresh (inbox (subNumber h i))) → ∀ i, (processVersions R inbox (versions ++ [v])
        (subNumber h i)).Active ↔ ∃ p ∈ explodeMultiRoomReservation v, p.hrNumber = subNumber h i ∧
          (canonical R p).isCancelled = false) ∧
      ¬ ∀ h h' i j, h ≠ h' → subNumber h i ≠ subNumber h' j := by
  constructor
  · intro hall
    have hdropped := (hall sampleReading (fun _ => emptyStore) "R7" [sampleVersion 1 [{}, {}]]
      (sampleVersion 2 [{}]) (by decide +kernel) (by decide +kernel) (fun _ => ⟨rfl, rfl⟩) 1).mp
        (by decide +kernel)
    exact absurd hdropped (by decide +kernel)
  · intro hall
    exact hall "R7" "R7-1" 1 0 (by decide +kernel) (by decide +kernel)

end SyrocePms.Ingest
