import SyrocePms.Import.Record

/-! What one operation of a call changes, and where control is afterwards. Every
invariant of the calls is read off this list. -/

namespace SyrocePms.Import

open Reservation Lib

variable {t t' : Thread} {s s' : Store} {o : Outside}

namespace Thread

/-- The record whose import status the call may still write. -/
def holds : Thread → Option ℕ
  | .attempt pc => pc.holds
  | _ => none

/-- The call is past the duplicate check of its attempt and has not created the booking. -/
def checked : Thread → Bool
  | .attempt pc => pc.checked
  | _ => false

def booking : Thread → Option ℕ
  | .attempt pc => pc.booking
  | _ => none

def created : Thread → Option (ℕ × Option ℕ)
  | .attempt (.after _ b room _) => some (b, room)
  | _ => none

/-- The class of the record that the call is about to insert. -/
def inserts : Thread → Option (ImportStatus × Option ReviewReason)
  | .ingest _ x (.insert m) => some (classifyForImport m false x)
  | .replay (.insert l m) => some (classifyForImport m l.cancelled l.snapshot)
  | _ => none

theorem holds_of_checked (h : t.checked = true) : t.holds ≠ none := by
  cases t with
  | attempt pc => cases pc <;> simp_all [checked, AttemptPc.checked, holds, AttemptPc.holds]
  | _ => cases h

/-- Control moves on: no record is taken up, and a duplicate check is passed only while
there is no booking. -/
structure Follows (s : Store) (t t' : Thread) : Prop where
  holds : t'.holds = t.holds ∨ t'.holds = none
  checked : t'.checked = true → t.checked = true ∨ s.bookings = []
  booking : ∀ b, t'.booking = some b → t.booking = some b ∨ ∃ x ∈ s.bookings, x.id = b
  created : t'.created = t.created ∨ t'.created = none

theorem Follows.of_idle (hh : t'.holds = none) (hc : t'.checked = false) (hb : t'.booking = none)
    (hr : t'.created = none) : Follows s t t' where
  holds := .inr hh
  checked h := by rw [hc] at h; cases h
  booking b h := by rw [hb] at h; cases h
  created := .inr hr

theorem Follows.of_same (hh : t'.holds = t.holds) (hc : t'.checked = true → t.checked = true)
    (hb : t'.booking = t.booking) (hr : t'.created = t.created) : Follows s t t' where
  holds := .inl hh
  checked h := .inl (hc h)
  booking _ h := .inl (hb ▸ h)
  created := .inl hr

end Thread

/-- What the attempt writes to the record it holds. -/
structure Written (t t' : Thread) (f : Record → Record) : Prop where
  id : ∀ x, (f x).id = x.id
  connector : ∀ x, (f x).connector = x.connector
  claimed : t'.holds ≠ none → ∀ x, (f x).claimed = true
  resolved : ∀ x, (f x).resolved = true → ∃ b, t.booking = some b ∧ (f x).bookingId = some b

/-- What an operation of a call changes. -/
inductive Change (s : Store) (t t' : Thread) : Store → Prop
  /-- Nothing but the lineage, which is not cancelled in this way. -/
  | control (l : Option Lineage) (hl : ∀ x ∈ l, x.cancelled = true → ∃ y ∈ s.lineage, y.cancelled = true)
      (hf : t.Follows s t') (hk : ∀ b x, t.created = some (b, some x) → t'.created = t.created) :
      Change s t t' { s with lineage := l }
  | cancelled (copy : Lineage) (ht : t = .cancel (.write copy)) (ht' : t' = .cancel .releaseHold) :
      Change s t t' { s with lineage := some { copy with cancelled := true }, cancelApplied := true }
  | bookingCancelled (ht : t = .cancel .booking) (ht' : t' = .cancel .record) : Change s t t' s.cancelBooking
  | recordNoted (id : ℕ) (ht : t = .cancel .record) (ht' : t' = .cancel .durable) :
      Change s t t' (s.setRecord id fun x => { x with cancelled := true, updatedAt := s.now })
  | inserted (r : Record) (records : Collection Record Record.connector)
      (h : s.records.insertOne r = some records) (hr : t.inserts = some (r.importStatus, r.reviewReason))
      (hres : r.resolved = false) (hf : t.Follows s t') :
      Change s t t' { s with records := records, nextId := s.nextId + 1 }
  | claimed (c : Claim) (r : Record) (hr : r ∈ s.records) (hc : c.admits s.now r = true)
      (ht : t = .claim c) (ht' : t' = .attempt (.start (c.takeUp s.now r))) :
      Change s t t' (s.takeUp c r)
  | written (id : ℕ) (f : Record → Record) (hw : Written t t' f) (hh : t.holds = some id)
      (hf : t.Follows s t') (hk : ∀ b x, t.created = some (b, some x) → t'.created = t.created) :
      Change s t t' (s.setRecord id f hw.connector)
  | booked (r : Record) (room : Option ℕ) (ht : t = .attempt (.create r))
      (ht' : t' = .attempt (.after r s.nextId room .note)) :
      Change s t t' { s with
        bookings := s.bookings ++ [{ id := s.nextId, room := room }]
        nextId := s.nextId + 1 }
  | assigned (r : Record) (b x : ℕ) (room : Option ℕ) (ht : t = .attempt (.after r b room .assign))
      (ht' : t' = .attempt (.after r b (some x) .markImported)) : Change s t t' (s.setRoom b x)
  | enqueued (r : Record) (b x : ℕ) (ht : t = .attempt (.after r b (some x) .enqueue))
      (ht' : t' = .attempt (.returned true)) : Change s t t' { s with outbox := b :: s.outbox }

theorem env_frame (s : Store) (e : Env) :
    (s.env e).cancelApplied = s.cancelApplied ∧ (s.env e).bookings = s.bookings := by
  cases e <;> exact ⟨rfl, rfl⟩

/-! ### The operations -/

/-- Nothing changes, and the call goes on without a record of its own. -/
theorem Change.quiet (hf : t.Follows s t')
    (hk : ∀ b x, t.created = some (b, some x) → t'.created = t.created) : Change s t t' s :=
  .control s.lineage (fun x hx hc => ⟨x, hx, hc⟩) hf hk

theorem Change.idle (ht : t.created = none) (hh : t'.holds = none) (hc : t'.checked = false)
    (hb : t'.booking = none) (hr : t'.created = none) : Change s t t' s :=
  .quiet (.of_idle hh hc hb hr) fun b x h => by rw [ht] at h; cases h

theorem insertRecord_change {connector : ℕ} {x : Snapshot} {m : Mapped} {cancelled : Bool}
    (ht : t.inserts = some (classifyForImport m cancelled x)) (hf : t.Follows s t')
    (h : s.insertRecord connector x (classifyForImport m cancelled x) = some s') :
    Change s t t' s' := by
  obtain ⟨records, hr, rfl⟩ := Option.map_eq_some_iff.mp h
  refine .inserted _ records hr ht ?_ hf
  obtain hc | hc := classifyForImport_fst m cancelled x <;> simp [Record.resolved, hc]

theorem ingestStep_change (s : Store) (o : Outside) (connector : ℕ) (x : Snapshot) (pc : IngestPc) :
    Change s (.ingest connector x pc) (ingestStep s o connector x pc).2
      (ingestStep s o connector x pc).1 := by
  cases pc with
  | read =>
    simp only [ingestStep]
    split
    · exact .idle rfl rfl rfl rfl rfl
    · split <;> exact .idle rfl rfl rfl rfl rfl
  | find m => exact .idle rfl rfl rfl rfl rfl
  | upsert found m =>
    simp only [ingestStep]
    split
    · exact .idle rfl rfl rfl rfl rfl
    · refine .control _ (fun y hy hc => ?_) (.of_idle rfl rfl rfl rfl) (fun _ _ h => nomatch h)
      cases hy
      cases hc
  | check m =>
    simp only [ingestStep]
    split <;> exact .idle rfl rfl rfl rfl rfl
  | insert m =>
    simp only [ingestStep]
    cases h : s.insertRecord connector x (classifyForImport m false x) with
    | none => exact .idle rfl rfl rfl rfl rfl
    | some s' =>
      exact insertRecord_change rfl (.of_idle rfl rfl rfl rfl) h

theorem cancelStep_change (s : Store) (o : Outside) (pc : CancelPc) :
    Change s (.cancel pc) (cancelStep s o pc).2 (cancelStep s o pc).1 := by
  cases pc with
  | read =>
    simp only [cancelStep]
    split <;> exact .idle rfl rfl rfl rfl rfl
  | write copy =>
    simp only [cancelStep]
    split
    · exact .cancelled copy rfl rfl
    · exact .idle rfl rfl rfl rfl rfl
  | releaseHold | durable => exact .idle rfl rfl rfl rfl rfl
  | booking => exact .bookingCancelled rfl rfl
  | record =>
    simp only [cancelStep]
    split
    · exact .recordNoted _ rfl rfl
    · exact .idle rfl rfl rfl rfl rfl

theorem follows_replayFound (s : Store) (r : Record) : t.Follows s (replayFound r) := by
  unfold replayFound
  split <;> exact .of_idle rfl rfl rfl rfl

theorem replayStep_change (s : Store) (o : Outside) (pc : ReplayPc) :
    Change s (.replay pc) (replayStep s o pc).2 (replayStep s o pc).1 := by
  cases pc with
  | find | refind =>
    simp only [replayStep]
    split
    · exact .quiet (follows_replayFound s _) fun _ _ h => nomatch h
    · exact .idle rfl rfl rfl rfl rfl
  | check | hold r | mapping r =>
    simp only [replayStep]
    split <;> exact .idle rfl rfl rfl rfl rfl
  | lineage =>
    simp only [replayStep]
    split <;> exact .idle rfl rfl rfl rfl rfl
  | classify l => exact .idle rfl rfl rfl rfl rfl
  | insert l m =>
    simp only [replayStep]
    cases h : s.insertRecord 0 l.snapshot (classifyForImport m l.cancelled l.snapshot) with
    | none => exact .idle rfl rfl rfl rfl rfl
    | some s' =>
      refine insertRecord_change rfl ?_ h
      dsimp only
      cases s'.records.get? 0 with
      | none => exact .of_idle rfl rfl rfl rfl
      | some y => exact follows_replayFound s y

theorem claimStep_change (s : Store) (c : Claim) :
    Change s (.claim c) (claimStep s c).2 (claimStep s c).1 := by
  unfold claimStep
  cases h : s.records.findOne fun r => c.admits s.now r with
  | none => cases c <;> exact .idle rfl rfl rfl rfl rfl
  | some r =>
    obtain ⟨hr, hc⟩ := Collection.mem_of_findOne h
    exact .claimed c r hr hc rfl rfl

theorem bookingSource_mem {b : ℕ} (h : s.bookingSource = some b) : ∃ x ∈ s.bookings, x.id = b := by
  obtain ⟨x, hx, rfl⟩ := Option.map_eq_some_iff.mp h
  exact ⟨x, List.mem_of_mem_head? hx, rfl⟩

theorem bookingSource_none (h : s.bookingSource = none) : s.bookings = [] := by
  simpa [Store.bookingSource] using h

/-- The operations on the created booking. -/
theorem afterStep_change (s : Store) (o : Outside) (r : Record) (b : ℕ) (room : Option ℕ)
    (stage : Stage) : Change s (.attempt (.after r b room stage))
      (.attempt (afterStep s o r b room stage).2) (afterStep s o r b room stage).1 := by
  have hf (stage' : Stage) : Thread.Follows s (.attempt (.after r b room stage))
      (.attempt (.after r b room stage')) := .of_same rfl (fun h => h) rfl rfl
  cases stage with
  | note | releaseHold | timeline | audit | notify | publish => exact .quiet (hf _) fun _ _ _ => rfl
  | assign =>
    simp only [afterStep]
    split
    · exact .assigned r b _ room rfl rfl
    · exact .quiet (hf _) fun _ _ _ => rfl
  | markImported =>
    refine .written r.id _ ?_ rfl (hf _) fun _ _ _ => rfl
    exact ⟨fun _ => rfl, fun _ => rfl, fun _ _ => rfl, fun _ _ => ⟨b, rfl, rfl⟩⟩
  | link =>
    refine .control _ (fun y hy hc => ?_) (hf _) fun _ _ _ => rfl
    obtain ⟨l, hl, rfl⟩ := Option.map_eq_some_iff.mp hy
    exact ⟨l, hl, hc⟩
  | enqueue =>
    cases room with
    | none => exact .quiet (.of_idle rfl rfl rfl rfl) fun _ _ h => nomatch h
    | some x => exact .enqueued r b x rfl rfl

theorem attemptStep_change {pc pc' : AttemptPc} (h : attemptStep s o pc = some (s', pc')) :
    Change s (.attempt pc) (.attempt pc') s' := by
  cases pc with
  | start r =>
    cases h
    exact .quiet (.of_same rfl (fun h => h) rfl rfl) fun _ _ h => nomatch h
  | dupCheck r =>
    simp only [attemptStep] at h
    split at h <;> rename_i hb <;> cases h
    · refine .quiet ⟨.inl rfl, fun h => (nomatch h), fun b h => ?_, .inl rfl⟩ fun _ _ h => nomatch h
      cases h
      exact .inr (bookingSource_mem hb)
    · exact .quiet ⟨.inl rfl, fun _ => .inr (bookingSource_none hb), fun _ h => (nomatch h), .inl rfl⟩
        fun _ _ h => nomatch h
  | dupNote r b =>
    cases h
    exact .quiet (.of_same rfl (fun h => h) rfl rfl) fun _ _ h => nomatch h
  | dupMark r b =>
    cases h
    refine .written r.id _ ?_ rfl (.of_same rfl (fun h => h) rfl rfl) fun _ _ h => nomatch h
    exact ⟨fun _ => rfl, fun _ => rfl, fun _ _ => rfl, fun _ _ => ⟨b, rfl, rfl⟩⟩
  | dupLink r b =>
    cases h
    refine .control _ (fun y hy hc => ?_) (.of_idle rfl rfl rfl rfl) fun _ _ h => nomatch h
    obtain ⟨l, hl, rfl⟩ := Option.map_eq_some_iff.mp hy
    exact ⟨l, hl, hc⟩
  | roomMapping r | rateMapping r =>
    simp only [attemptStep] at h
    split at h <;> cases h <;>
      exact .quiet (.of_same rfl (fun _ => rfl) rfl rfl) fun _ _ h => nomatch h
  | park r reason =>
    cases h
    refine .written r.id _ ?_ rfl (.of_idle rfl rfl rfl rfl) fun _ _ h => nomatch h
    exact ⟨fun _ => rfl, fun _ => rfl, fun h => absurd rfl h, fun _ h => nomatch h⟩
  | parkHold r =>
    cases h
    exact .idle rfl rfl rfl rfl rfl
  | guest r =>
    cases h
    exact .quiet (.of_same rfl (fun _ => rfl) rfl rfl) fun _ _ h => nomatch h
  | create r =>
    cases h
    exact .booked r o.room rfl rfl
  | after r b room stage =>
    simp only [attemptStep, Option.some.injEq] at h
    have := afterStep_change s o r b room stage
    rwa [h] at this
  | failRead r retryable =>
    cases h
    exact .quiet (.of_same rfl (fun h => h) rfl rfl) fun _ _ h => nomatch h
  | failWrite r n m retryable =>
    cases h
    refine .written r.id _ ?_ rfl (.of_idle rfl rfl rfl rfl) fun _ _ h => nomatch h
    refine ⟨fun _ => rfl, fun _ => rfl, fun h => absurd rfl h, fun x h => ?_⟩
    simp only [Record.resolved, failureStatus] at h
    split at h <;> cases h
  | returned b | crashed => cases h

theorem advance_change (h : t.step s (.advance o) = some (s', t')) : Change s t t' s' := by
  cases t with
  | attempt pc =>
    obtain ⟨⟨s₁, pc'⟩, hs, heq⟩ := Option.map_eq_some_iff.mp h
    cases heq
    exact attemptStep_change hs
  | done => cases h
  | ingest connector x pc =>
    have hc := ingestStep_change s o connector x pc
    rwa [show ingestStep s o connector x pc = (s', t') from Option.some.inj h] at hc
  | cancel pc =>
    have hc := cancelStep_change s o pc
    rwa [show cancelStep s o pc = (s', t') by cases pc <;> exact Option.some.inj h] at hc
  | replay pc =>
    have hc := replayStep_change s o pc
    rwa [show replayStep s o pc = (s', t') from Option.some.inj h] at hc
  | claim c =>
    have hc := claimStep_change s c
    rwa [show claimStep s c = (s', t') from Option.some.inj h] at hc

theorem follows_raised (s : Store) (pc : AttemptPc) (retryable : Bool) :
    Thread.Follows s (.attempt pc) (.attempt (pc.raised retryable)) := by
  have hfail (r : Record) (hh : pc.holds = some r.id) :
      Thread.Follows s (.attempt pc) (.attempt (.failRead r retryable)) :=
    ⟨.inl hh.symm, fun h => (nomatch h), fun _ h => (nomatch h), .inr rfl⟩
  cases pc with
  | after r b room stage =>
    cases stage with
    | releaseHold | notify => exact .of_same rfl (fun h => h) rfl rfl
    | enqueue => exact .of_idle rfl rfl rfl rfl
    | _ => exact hfail r rfl
  | dupCheck r | dupNote r | dupMark r | dupLink r | roomMapping r | rateMapping r | park r | guest r
  | create r => exact hfail r rfl
  | _ => exact .of_idle rfl rfl rfl rfl

/-- An exception or a crash writes nothing. -/
theorem stop_follows {m : Move} (hm : ∀ o, m ≠ .advance o) (h : t.step s m = some (s', t')) :
    s' = s ∧ t.Follows s t' := by
  have hidle : t.Follows s .done := .of_idle rfl rfl rfl rfl
  cases m with
  | advance o => exact absurd rfl (hm o)
  | raise retryable =>
    cases t with
    | attempt pc =>
      obtain ⟨⟨s₁, pc'⟩, hs, heq⟩ := Option.map_eq_some_iff.mp h
      cases heq
      simp only [AttemptPc.step] at hs
      split at hs <;> cases hs
      exact ⟨rfl, follows_raised s pc retryable⟩
    | done => cases h
    | cancel pc =>
      cases pc with
      | releaseHold =>
        cases h
        exact ⟨rfl, .of_idle rfl rfl rfl rfl⟩
      | _ =>
        cases h
        exact ⟨rfl, hidle⟩
    | _ =>
      cases h
      exact ⟨rfl, hidle⟩
  | crash =>
    cases t with
    | attempt pc =>
      obtain ⟨⟨s₁, pc'⟩, hs, heq⟩ := Option.map_eq_some_iff.mp h
      cases heq
      simp only [AttemptPc.step] at hs
      split at hs <;> cases hs
      exact ⟨rfl, .of_idle rfl rfl rfl rfl⟩
    | done => cases h
    | cancel pc => cases pc <;> cases h <;> exact ⟨rfl, hidle⟩
    | _ =>
      cases h
      exact ⟨rfl, hidle⟩

end SyrocePms.Import
