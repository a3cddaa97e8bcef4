import SyrocePms.Import.Changes

/-! No imported booking without its event. The event is the last operation of the attempt
that creates the booking, and a later attempt takes the short-cut for duplicates. So a
room that was sold has its event, or the attempt that sold it is still under way, as long
as no such attempt is stopped. -/

namespace SyrocePms.Import

open Reservation Lib List

variable {s s' : Store} {t t' : Thread} {b k x : ℕ} {m : Move} {p p' : Pool Store Thread}

def Thread.loses : Thread → Move → Bool
  | .attempt (.after _ _ (some _) stage), .raise _ => stage != .releaseHold && stage != .notify
  | .attempt (.after _ _ (some _) _), .crash => true
  | _, _ => false

/-- No attempt is stopped between the sale of a room and its event. -/
def KeepsEvents (p : Pool Store Thread) : Act Env Call Move → Prop
  | .step k m => ∀ t ∈ p.threads[k]?, t.loses m = false
  | _ => True

instance (p : Pool Store Thread) (a : Act Env Call Move) : Decidable (KeepsEvents p a) := by
  rcases a with _ | _ | _ <;> unfold KeepsEvents <;> infer_instance

/-! ### Who created a booking -/

def BookingsOld (s : Store) : Prop := ∀ b ∈ s.bookings, b.id < s.nextId

def KnowsRoom (s : Store) (_ : ℕ) (t : Thread) : Prop :=
  ∀ b room, t.created = some (b, room) → b < s.nextId ∧ ∀ x ∈ s.bookings, x.id = b → x.room = room

/-- Two attempts created two bookings. -/
def CreatedApart (t u : Thread) : Prop :=
  ∀ b room room', t.created = some (b, room) → u.created ≠ some (b, room')

/-- What an operation does to the rooms that are sold, and to what its attempt created. -/
structure Sells (s : Store) (t : Thread) (s' : Store) (t' : Thread) : Prop where
  nextId : s.nextId ≤ s'.nextId
  outbox : ∀ b ∈ s.outbox, b ∈ s'.outbox
  bookings : ∀ x' ∈ s'.bookings, (∃ x ∈ s.bookings, x.id = x'.id ∧ x.room = x'.room) ∨
    (t'.created = some (x'.id, x'.room) ∧ x'.id < s'.nextId)
  created : ∀ b room, t'.created = some (b, room) → t.created = some (b, room) ∨
    (((∃ room₀, t.created = some (b, room₀)) ∨ s.nextId ≤ b) ∧ b < s'.nextId ∧
      ∀ x ∈ s'.bookings, x.id = b → x.room = room)

theorem Thread.Follows.keepsCreated (hf : t.Follows s t') :
    ∀ b room, t'.created = some (b, room) → t.created = some (b, room) := by
  intro b room h
  obtain he | he := hf.created
  · rwa [he] at h
  · rw [he] at h
    cases h

theorem Sells.of_same (hn : s.nextId ≤ s'.nextId) (ho : s'.outbox = s.outbox)
    (hb : s'.bookings = s.bookings)
    (hc : ∀ b room, t'.created = some (b, room) → t.created = some (b, room)) :
    Sells s t s' t' where
  nextId := hn
  outbox b h := by rwa [ho]
  bookings x h := .inl ⟨x, hb ▸ h, rfl, rfl⟩
  created b room h := .inl (hc b room h)

theorem change_sells (hj : BookingsOld s) (hok : KnowsRoom s k t) (h : Change s t t' s') :
    Sells s t s' t' := by
  cases h with
  | control l hl hf hk => exact .of_same (Nat.le_refl _) rfl rfl hf.keepsCreated
  | written id f hw hh hf hk => exact .of_same (Nat.le_refl _) rfl rfl hf.keepsCreated
  | inserted r records h hr hnew hf => exact .of_same (Nat.le_succ _) rfl rfl hf.keepsCreated
  | cancelled copy ht ht' | recordNoted id ht ht' | claimed c r hr hc ht ht' =>
    subst ht'
    exact .of_same (Nat.le_refl _) rfl rfl fun _ _ h => nomatch h
  | enqueued r b x ht ht' =>
    subst ht'
    exact ⟨(Nat.le_refl _), fun _ h => mem_cons_of_mem _ h, fun x h => .inl ⟨x, h, rfl, rfl⟩,
      fun _ _ h => nomatch h⟩
  | bookingCancelled ht ht' =>
    subst ht'
    refine ⟨(Nat.le_refl _), fun _ h => h, fun x hx => .inl ?_, fun _ _ h => nomatch h⟩
    cases hb : s.bookings with
    | nil => simp [Store.cancelBooking, hb] at hx
    | cons b bs =>
      simp only [Store.cancelBooking, hb, mem_cons] at hx
      obtain rfl | hx := hx
      · exact ⟨b, mem_cons_self, rfl, rfl⟩
      · exact ⟨x, mem_cons_of_mem _ hx, rfl, rfl⟩
  | booked r room ht ht' =>
    subst ht'
    refine ⟨Nat.le_succ _, fun _ h => h, fun x hx => ?_, fun b room' h => ?_⟩
    · obtain hx | hx := mem_append.mp hx
      · exact .inl ⟨x, hx, rfl, rfl⟩
      · rw [mem_singleton.mp hx]
        exact .inr ⟨rfl, Nat.lt_succ_self _⟩
    · cases h
      refine .inr ⟨.inr (Nat.le_refl _), Nat.lt_succ_self _, fun x hx hid => ?_⟩
      obtain hx | hx := mem_append.mp hx
      · exact absurd hid (Nat.ne_of_lt (hj x hx))
      · rw [mem_singleton.mp hx]
  | assigned r b x room ht ht' =>
    subst ht ht'
    have hroom : ∀ y ∈ (s.setRoom b x).bookings, y.id = b → y.room = some x := by
      intro y hy hid
      obtain ⟨z, hz, rfl⟩ := mem_map.mp hy
      split at hid <;> rename_i hzb
      · rw [if_pos hzb]
      · exact absurd hid hzb
    have hlt : b < s.nextId := (hok b room rfl).1
    refine ⟨(Nat.le_refl _), fun _ h => h, fun y hy => ?_, fun b' room' h => ?_⟩
    · by_cases hyb : y.id = b
      · exact .inr ⟨by rw [hroom y hy hyb, hyb]; rfl, hyb ▸ hlt⟩
      · obtain ⟨z, hz, rfl⟩ := mem_map.mp hy
        refine .inl ⟨z, hz, ?_⟩
        split <;> rename_i hzb
        · exact absurd (by rw [if_pos hzb]; exact hzb) hyb
        · exact ⟨rfl, rfl⟩
    · cases h
      exact .inr ⟨.inl ⟨room, rfl⟩, hlt, hroom⟩

theorem step_sells (hj : BookingsOld s) (hok : KnowsRoom s k t) (h : t.step s m = some (s', t')) :
    Sells s t s' t' := by
  cases m with
  | advance o => exact change_sells hj hok (advance_change h)
  | raise b | crash =>
    obtain ⟨rfl, hf⟩ := stop_follows (by simp) h
    exact .of_same (Nat.le_refl _) rfl rfl hf.keepsCreated

theorem preserves_created :
    calls.Preserves (fun _ _ => True) BookingsOld KnowsRoom CreatedApart where
  symm t u h b room room' hu ht := h b room' room ht hu
  init s h b hb := by
    rw [h.2.2.2.1] at hb
    cases hb
  env p e s' hi _ h := by
    cases h
    cases e <;> exact ⟨hi.store, hi.thread⟩
  call p c t _ _ h := by
    cases h
    have hn : (Thread.start c).created = none := by cases c <;> rfl
    refine ⟨fun b room h => ?_, fun u _ b room room' h => ?_⟩ <;> rw [hn] at h <;> cases h
  step p k m t s' t' hi _ ht h := by
    have hok := hi.thread k t ht
    have hs := step_sells hi.store hok h
    have hapart (j : ℕ) (u : Thread) (hjk : j ≠ k) (hu : p.threads[j]? = some u) :
        CreatedApart t' u := fun b room room' hb hub => by
      obtain hb | ⟨⟨room₀, hb⟩ | hb, -⟩ := hs.created b room hb
      · exact hi.apart k j t u hjk.symm ht hu b room room' hb hub
      · exact hi.apart k j t u hjk.symm ht hu b room₀ room' hb hub
      · exact absurd (hi.thread j u hu b room' hub).1 (Nat.not_lt.mpr hb)
    refine ⟨fun x hx => ?_, fun b room hb => ?_, fun j u hjk hu => ⟨fun b room hb => ?_, hapart j u hjk hu⟩⟩
    · obtain ⟨y, hy, hid, -⟩ | ⟨-, hlt⟩ := hs.bookings x hx
      · exact hid ▸ Nat.lt_of_lt_of_le (hi.store y hy) hs.nextId
      · exact hlt
    · obtain hb' | ⟨-, hlt, hroom⟩ := hs.created b room hb
      · obtain ⟨hlt, hroom⟩ := hok b room hb'
        refine ⟨Nat.lt_of_lt_of_le hlt hs.nextId, fun x hx hid => ?_⟩
        obtain ⟨y, hy, hid', hroom'⟩ | ⟨hc, -⟩ := hs.bookings x hx
        · rw [← hroom', hroom y hy (hid'.trans hid)]
        · rw [hb] at hc
          simp only [Option.some.injEq, Prod.mk.injEq] at hc
          exact hc.2.symm
      · exact ⟨hlt, hroom⟩
    · obtain ⟨hlt, hroom⟩ := hi.thread j u hu b room hb
      refine ⟨Nat.lt_of_lt_of_le hlt hs.nextId, fun x hx hid => ?_⟩
      obtain ⟨y, hy, hid', hroom'⟩ | ⟨hc, -⟩ := hs.bookings x hx
      · rw [← hroom', hroom y hy (hid'.trans hid)]
      · exact absurd hb (hapart j u hjk hu x.id x.room room hc ∘ (hid ▸ ·))

/-! ### The event -/

/-- The attempt that created the booking is still under way. -/
def InFlight (p : Pool Store Thread) (b : ℕ) : Prop :=
  ∃ t ∈ p.threads, t.created.map Prod.fst = some b

/-- A booking with a room has its event, or its attempt is under way. -/
def Announced (p : Pool Store Thread) : Prop :=
  ∀ b ∈ p.store.bookings, b.room ≠ none → b.id ∈ p.store.outbox ∨ InFlight p b.id

theorem inFlight_congr (ht : ∀ t ∈ p.threads, t ∈ p'.threads) (h : InFlight p b) :
    InFlight p' b :=
  let ⟨t, hmem, hb⟩ := h
  ⟨t, ht t hmem, hb⟩

theorem raised_keepsCreated {pc : AttemptPc} {retryable : Bool}
    (hl : (Thread.attempt pc).loses (.raise retryable) = false)
    (hc : (Thread.attempt pc).created = some (b, some x)) :
    (Thread.attempt (pc.raised retryable)).created = some (b, some x) := by
  cases pc with
  | after r b' room stage =>
    cases hc
    cases stage <;> first | rfl | cases hl
  | _ => cases hc

/-- An attempt that sold a room keeps to its booking until it enqueued the event. -/
theorem step_keepsCreated (hl : t.loses m = false) (hc : t.created = some (b, some x))
    (h : t.step s m = some (s', t')) : b ∈ s'.outbox ∨ t'.created.map Prod.fst = some b := by
  cases m with
  | advance o =>
    cases advance_change h with
    | control l hl hf hk => exact .inr (by rw [hk b x hc, hc]; rfl)
    | written id f hw hh hf hk => exact .inr (by rw [hk b x hc, hc]; rfl)
    | enqueued r b' x' ht ht' =>
      rw [ht] at hc
      cases hc
      exact .inl mem_cons_self
    | assigned r b' x' room ht ht' =>
      rw [ht] at hc
      cases hc
      exact .inr (by rw [ht']; rfl)
    | inserted r records hr hs hnew hf =>
      cases t with
      | attempt pc => cases hs
      | _ => cases hc
    | bookingCancelled ht ht' | recordNoted id ht ht' | cancelled copy ht ht'
    | claimed c r hr hcl ht ht' | booked r room ht ht' =>
      rw [ht] at hc
      cases hc
  | raise retryable =>
    cases t with
    | attempt pc =>
      obtain ⟨⟨s₁, pc'⟩, hs, heq⟩ := Option.map_eq_some_iff.mp h
      cases heq
      simp only [AttemptPc.step] at hs
      split at hs <;> cases hs
      exact .inr (by rw [raised_keepsCreated hl hc]; rfl)
    | _ => cases hc
  | crash =>
    cases t with
    | attempt pc =>
      cases pc with
      | after r b' room stage =>
        cases hc
        cases hl
      | _ => cases hc
    | _ => cases hc

theorem Announced.next {a : Act Env Call Move}
    (hi : Program.Inv BookingsOld KnowsRoom CreatedApart p) (h : Announced p) (hc : KeepsEvents p a)
    (hn : calls.machine.step p a = some p') : Announced p' := by
  cases a with
  | env e =>
    obtain ⟨hs, ht⟩ := Program.next_env hn
    have hs : p.store.env e = p'.store := Option.some.inj hs
    have ho : (p.store.env e).outbox = p.store.outbox := by cases e <;> rfl
    intro b hb hroom
    rw [← hs, (env_frame _ e).2] at hb
    rw [← hs, ho]
    exact (h b hb hroom).imp_right (inFlight_congr fun t hmem => ht ▸ hmem)
  | call c =>
    obtain ⟨t, -, hs, ht⟩ := Program.next_call hn
    intro b hb hroom
    rw [hs] at hb ⊢
    refine (h b hb hroom).imp_right (inFlight_congr fun u hmem => ?_)
    rw [ht]
    exact mem_append_left _ hmem
  | step k m =>
    obtain ⟨t, t', ht, hs, hset⟩ := Program.next_step hn
    have hok := hi.thread k t ht
    have hsells := step_sells hi.store hok hs
    have ht' : t' ∈ p'.threads := hset ▸ Program.self_mem_set ht t'
    intro x hx hroom
    obtain ⟨y, hy, hid, hroom'⟩ | ⟨hcr, -⟩ := hsells.bookings x hx
    · obtain hout | ⟨u, hu, hub⟩ := h y hy (hroom' ▸ hroom)
      · exact .inl (hid ▸ hsells.outbox _ hout)
      · obtain rfl | hu := Program.eq_or_mem_set ht hu t'
        · -- the attempt itself takes the step, and it knows that the room is sold
          obtain ⟨⟨b, room⟩, hcr, hb⟩ := Option.map_eq_some_iff.mp hub
          obtain rfl : b = y.id := hb
          obtain ⟨r, hr⟩ := Option.ne_none_iff_exists'.mp (hroom' ▸ hroom : y.room ≠ none)
          have hroomt : room = some r := by rw [← (hok _ _ hcr).2 y hy rfl, hr]
          rw [hroomt] at hcr
          have hl := hc u (by rw [ht]; rfl)
          exact hid ▸ (step_keepsCreated hl hcr hs).imp_right fun he => ⟨t', ht', he⟩
        · exact .inr ⟨u, hset ▸ hu, hid ▸ hub⟩
    · exact .inr ⟨t', ht', by rw [hcr]; rfl⟩

/-- In every run in which no attempt is stopped between the sale of a room and its event:
when a record is imported or a duplicate and its booking has a room, the event is in the
outbox, or the attempt that created the booking is still under way. -/
theorem imported_announced {p : Pool Store Thread} (h : calls.machine.Reach KeepsEvents p) :
    ∀ r ∈ p.store.records, r.resolved = true → ∀ b ∈ p.store.bookings, r.bookingId = some b.id →
      b.room ≠ none → b.id ∈ p.store.outbox ∨ InFlight p b.id := by
  have ha : Program.Inv BookingsOld KnowsRoom CreatedApart p ∧ Announced p := by
    refine h.invariant (fun p => _ ∧ Announced p) (fun p h₀ => ?_) fun p a p' hp hc hn =>
      ⟨preserves_created.next hp.1 trivial hn, hp.2.next hp.1 hc hn⟩
    refine ⟨preserves_created.reach (.start h₀), fun b hb => ?_⟩
    rw [h₀.1.2.2.2.1] at hb
    cases hb
  exact fun r _ _ b hb _ hroom => ha.2 b hb hroom

/-! ### Runs -/

/-- The rooms of the bookings, the import status of the records, the outbox, and whether
an attempt is under way. -/
def eventsSeen (p : Pool Store Thread) : List (Option ℕ) × List ImportStatus × List ℕ × Bool :=
  (p.store.bookings.map ImportedBooking.room, p.store.records.rows.map Record.importStatus,
    p.store.outbox, p.threads.any fun t => t.holds.isSome)

/-- The reservation comes in, and worker 1 takes `n` operations to import it. -/
def importedUpTo (n : ℕ) : List (Act Env Call Move) :=
  .call (.ingest 1 {}) :: operations 0 5 ++
    .call .work :: .replicate n (.step 1 (.advance { room := some 1 }))

theorem imported_announced_room : ∃ p, calls.machine.Reach KeepsEvents p ∧
    eventsSeen p = ([some 1], [.imported], [1], false) ∧
    ∀ r ∈ p.store.records, r.resolved = true → ∀ b ∈ p.store.bookings, r.bookingId = some b.id →
      b.room ≠ none → b.id ∈ p.store.outbox ∨ InFlight p b.id := by
  obtain ⟨p, hp, hseen⟩ := Machine.exists_reach_of_runUnder (M := calls.machine)
    (C := KeepsEvents) (f := eventsSeen) (v := ([some 1], [.imported], [1], false))
    (importedUpTo 16) emptyStore_init (by decide +kernel)
  exact ⟨p, hp, hseen, imported_announced hp⟩

/-- A room is sold without an event: the enqueue raises and is only logged, or the worker
crashes after the insert and the retry takes the short-cut for duplicates. -/
theorem imported_without_event :
    (∃ p, calls.machine.Reachable p ∧ eventsSeen p = ([some 1], [.imported], [], false)) ∧
    ∃ p, calls.machine.Reachable p ∧ eventsSeen p = ([some 1], [.duplicate], [], false) :=
  ⟨Machine.exists_reachable_of_run (List.flatten [importedUpTo 15, [.step 1 (.raise true)]])
    emptyStore_init
      (by decide +kernel),
    Machine.exists_reachable_of_run (List.flatten [importedUpTo 7, [.step 1 .crash,
      .env (.tick 120), .env .recoverStuck, .call .work], operations 2 6])
      emptyStore_init (by decide +kernel)⟩

end SyrocePms.Import
