import SyrocePms.Import.Changes

/-! One booking for a reservation. The duplicate check and the insert are two operations,
so it is the claim that keeps a second attempt out: while there is no booking, one record
exists and at most one attempt holds it. Once the booking is there, no duplicate check is
passed again. -/

namespace SyrocePms.Import

open Reservation Lib List Collection

variable {s s' : Store} {t t' : Thread} {m : Move} {k : ℕ} {p p' : Pool Store Thread}

/-- While the reservation has no booking, the recovery takes back no record that an
attempt still holds, and a record is inserted only as the first one. -/
def ClaimsHold (p : Pool Store Thread) : Act Env Call Move → Prop
  | .env .recoverStuck => p.store.bookings = [] → ∀ t ∈ p.threads, ∀ id ∈ t.holds,
    ∀ r ∈ p.store.records.rows, r.id = id → r.stuck processingTimeout p.store.now = false
  | .step k (.advance _) => p.store.bookings = [] → ∀ t ∈ p.threads[k]?,
    t.inserts ≠ none → p.store.records.rows = []
  | _ => True

instance (p : Pool Store Thread) (a : Act Env Call Move) : Decidable (ClaimsHold p a) := by
  rcases a with (_ | _) | _ | ⟨_, _ | _⟩ <;> unfold ClaimsHold <;> infer_instance

/-! ### The bookings -/

theorem Change.bookings (h : Change s t t' s') :
    (s'.bookings.map ImportedBooking.id = s.bookings.map ImportedBooking.id ∧
      (t'.checked = true → t.checked = true ∨ s.bookings = [])) ∨
    (t.checked = true ∧ t'.checked = false ∧ ∃ b, s'.bookings = s.bookings ++ [b]) := by
  cases h with
  | control l hl hf hk => exact .inl ⟨rfl, hf.checked⟩
  | inserted r records h hr hnew hf => exact .inl ⟨rfl, hf.checked⟩
  | written id f hw hh hf hk => exact .inl ⟨rfl, hf.checked⟩
  | cancelled copy ht ht' | recordNoted id ht ht' | claimed c r hr hc ht ht' | enqueued r b x ht ht' =>
    subst ht'
    exact .inl ⟨rfl, fun h => nomatch h⟩
  | bookingCancelled ht ht' =>
    subst ht'
    exact .inl ⟨Store.map_id_cancelBooking s, fun h => nomatch h⟩
  | assigned r b x room ht ht' =>
    subst ht'
    exact .inl ⟨Store.map_id_setRoom s b x, fun h => nomatch h⟩
  | booked r room ht ht' =>
    subst ht ht'
    exact .inr ⟨rfl, rfl, _, rfl⟩

theorem step_bookings (h : t.step s m = some (s', t')) :
    (s'.bookings.map ImportedBooking.id = s.bookings.map ImportedBooking.id ∧
      (t'.checked = true → t.checked = true ∨ s.bookings = [])) ∨
    (t.checked = true ∧ t'.checked = false ∧ ∃ b, s'.bookings = s.bookings ++ [b]) := by
  cases m with
  | advance o => exact (advance_change h).bookings
  | raise b =>
    obtain ⟨rfl, hf⟩ := stop_follows (by simp) h
    exact .inl ⟨rfl, hf.checked⟩
  | crash =>
    obtain ⟨rfl, hf⟩ := stop_follows (by simp) h
    exact .inl ⟨rfl, hf.checked⟩

theorem step_mem_bookings {b : ℕ} (h : t.step s m = some (s', t'))
    (hb : b ∈ s.bookings.map ImportedBooking.id) : b ∈ s'.bookings.map ImportedBooking.id := by
  obtain ⟨he, -⟩ | ⟨-, -, x, he⟩ := step_bookings h
  · rwa [he]
  · rw [he, map_append]
    exact mem_append_left _ hb

/-! ### Records point to a booking -/

/-- A record at its end points to a booking. -/
def Linked (s : Store) : Prop :=
  ∀ r ∈ s.records, r.resolved = true → ∃ b ∈ s.bookings.map ImportedBooking.id, r.bookingId = some b

/-- The booking that an attempt found or created is there. -/
def BookingThere (s : Store) (_ : ℕ) (t : Thread) : Prop :=
  ∀ b, t.booking = some b → b ∈ s.bookings.map ImportedBooking.id

theorem BookingThere.follows (h : BookingThere s k t) (hf : t.Follows s t') :
    BookingThere s k t' := fun b hb => by
  obtain hb | ⟨x, hx, rfl⟩ := hf.booking b hb
  · exact h b hb
  · exact mem_map_of_mem hx

theorem change_linked (hj : Linked s) (hok : BookingThere s k t) (h : Change s t t' s') :
    Linked s' ∧ BookingThere s' k t' := by
  have hnone {t' : Thread} (ht : t'.booking = none) : BookingThere s' k t' := fun b hb => by
    rw [ht] at hb
    cases hb
  cases h with
  | control l hl hf hk => exact ⟨hj, hok.follows hf⟩
  | cancelled copy ht ht' =>
    subst ht'
    exact ⟨hj, hnone rfl⟩
  | bookingCancelled ht ht' =>
    subst ht'
    refine ⟨fun r hr hres => ?_, hnone rfl⟩
    rw [Store.map_id_cancelBooking]
    exact hj r hr hres
  | recordNoted id ht ht' =>
    subst ht'
    refine ⟨fun r hr hres => ?_, hnone rfl⟩
    obtain ⟨x, hx, rfl⟩ := Store.mem_setRecord.mp hr
    split at hres <;> split <;> exact hj x hx hres
  | inserted r records h hr hnew hf =>
    refine ⟨fun x hx hres => ?_, hok.follows hf⟩
    obtain hx | rfl := (mem_insertOne h).mp hx
    · exact hj x hx hres
    · rw [hnew] at hres
      cases hres
  | claimed c r hr hc ht ht' =>
    subst ht'
    refine ⟨fun x hx hres => ?_, hnone rfl⟩
    obtain ⟨hx, -⟩ | rfl := (Store.mem_takeUp hr).mp hx
    · exact hj x hx hres
    · cases hres
  | written id f hw hh hf hk =>
    refine ⟨fun x hx hres => ?_, hok.follows hf⟩
    obtain ⟨y, hy, rfl⟩ := Store.mem_setRecord.mp hx
    split at hres
    · obtain ⟨b, hb, hbid⟩ := hw.resolved y hres
      rename_i he
      rw [if_pos he]
      exact ⟨b, hok b hb, hbid⟩
    · rename_i he
      rw [if_neg he]
      exact hj y hy hres
  | booked r room ht ht' =>
    subst ht'
    refine ⟨fun x hx hres => ?_, fun b hb => ?_⟩
    · obtain ⟨b, hb, he⟩ := hj x hx hres
      exact ⟨b, by simpa using .inl (by simpa using hb), he⟩
    · cases hb
      simp
  | assigned r b x room ht ht' =>
    subst ht ht'
    refine ⟨fun y hy hres => ?_, fun b' hb => ?_⟩
    · rw [Store.map_id_setRoom]
      exact hj y hy hres
    · rw [Store.map_id_setRoom]
      exact hok b' hb
  | enqueued r b x ht ht' =>
    subst ht'
    exact ⟨hj, hnone rfl⟩

theorem preserves_linked :
    calls.Preserves (fun _ _ => True) Linked BookingThere fun _ _ => True where
  symm _ _ _ := trivial
  init s h r hr := by
    rw [mem_def, h.2.2.1] at hr
    cases hr
  env p e s' hi _ h := by
    cases h
    refine ⟨fun r hr hres => ?_, fun k t ht b hb => ?_⟩
    · rw [(env_frame _ e).2]
      cases e with
      | tick n | update x => exact hi.store r hr hres
      | recoverStuck =>
        obtain ⟨x, hx, rfl⟩ := Store.mem_recoverStuck.mp hr
        split at hres
        · cases hres
        · rename_i hs
          rw [if_neg hs]
          exact hi.store x hx hres
    · rw [(env_frame _ e).2]
      exact hi.thread k t ht b hb
  call p c t _ _ h := by
    cases h
    exact ⟨fun b hb => (by cases c <;> cases hb), fun _ _ => trivial⟩
  step p k m t s' t' hi _ ht h := by
    have hlinked : Linked s' ∧ BookingThere s' k t' := by
      cases m with
      | advance o => exact change_linked hi.store (hi.thread k t ht) (advance_change h)
      | raise b =>
        obtain ⟨rfl, hf⟩ := stop_follows (by simp) h
        exact ⟨hi.store, (hi.thread k t ht).follows hf⟩
      | crash =>
        obtain ⟨rfl, hf⟩ := stop_follows (by simp) h
        exact ⟨hi.store, (hi.thread k t ht).follows hf⟩
    refine ⟨hlinked.1, hlinked.2, fun j u _ hu => ⟨fun b hb => ?_, trivial⟩⟩
    exact step_mem_bookings h (hi.thread j u hu b hb)

/-! ### While there is no booking -/

def OneRecord (s : Store) : Prop := ∀ r ∈ s.records, ∀ x ∈ s.records, r = x

/-- The record of an attempt is in its hands. -/
def HoldsClaimed (s : Store) (_ : ℕ) (t : Thread) : Prop :=
  ∀ id, t.holds = some id → ∃ r ∈ s.records, r.id = id ∧ r.claimed = true

/-- One of two calls holds no record. -/
def HoldApart (t u : Thread) : Prop := t.holds = none ∨ u.holds = none

theorem Claim.not_claimed_of_admits {now : ℕ} {c : Claim} {r : Record}
    (h : c.admits now r = true) : r.claimed = false := by
  cases c <;>
    simp only [Claim.admits, Record.mappingReview, Bool.and_eq_true, Bool.or_eq_true, beq_iff_eq] at h
  case pending => simp [Record.claimed, Record.resolved, h.2]
  case retry => simp [Record.claimed, Record.resolved, h.1.2]
  case next => obtain ⟨h | h, -⟩ := h <;> simp [Record.claimed, Record.resolved, h]
  case review => simp [Record.claimed, Record.resolved, h.2.1]

theorem HoldsClaimed.of_none (h : t.holds = none) : HoldsClaimed s k t := fun id hid => by
  rw [h] at hid
  cases hid

theorem HoldsClaimed.follows (h : HoldsClaimed s k t) (hf : t.Follows s t') :
    HoldsClaimed s k t' := by
  obtain he | he := hf.holds
  · exact fun id hid => h id (he ▸ hid)
  · exact .of_none he

theorem HoldApart.follows {u : Thread} (h : HoldApart t u) (hf : t.Follows s t') :
    HoldApart t' u := by
  obtain he | he := hf.holds
  · exact h.imp_left (he ▸ ·)
  · exact .inl he

/-- An update of records that keeps what the calls hold. -/
theorem HoldsClaimed.map {g : Record → Record} (h : HoldsClaimed s k t)
    (hmem : ∀ r ∈ s.records, g r ∈ s'.records)
    (hg : ∀ r, t.holds = some r.id → r.claimed = true → (g r).id = r.id ∧ (g r).claimed = true) :
    HoldsClaimed s' k t := fun id hid => by
  obtain ⟨r, hr, rfl, hcl⟩ := h id hid
  obtain ⟨hid', hcl'⟩ := hg r hid hcl
  exact ⟨g r, hmem r hr, hid', hcl'⟩

/-- What an operation of a call does while there is no booking. -/
theorem change_exclusive (hi : Program.Inv OneRecord HoldsClaimed HoldApart p)
    (ht : p.threads[k]? = some t) (hins : t.inserts ≠ none → p.store.records.rows = [])
    (h : Change p.store t t' s') : OneRecord s' ∧ HoldsClaimed s' k t' ∧
      ∀ (j : ℕ) u, j ≠ k → p.threads[j]? = some u → HoldsClaimed s' j u ∧ HoldApart t' u := by
  have hj := hi.store
  have hok := hi.thread k t ht
  have hap (j : ℕ) (u : Thread) (hjk : j ≠ k) (hu : p.threads[j]? = some u) : HoldApart t u :=
    hi.apart k j t u hjk.symm ht hu
  cases h with
  | control l hl hf hk =>
    exact ⟨hj, hok.follows hf, fun j u hjk hu => ⟨hi.thread j u hu, (hap j u hjk hu).follows hf⟩⟩
  | cancelled copy ht₀ ht' | enqueued r b x ht₀ ht' =>
    subst ht'
    exact ⟨hj, .of_none rfl, fun j u _ hu => ⟨hi.thread j u hu, .inl rfl⟩⟩
  | bookingCancelled ht₀ ht' =>
    subst ht'
    exact ⟨hj, .of_none rfl, fun j u _ hu => ⟨hi.thread j u hu, .inl rfl⟩⟩
  | recordNoted id ht₀ ht' =>
    subst ht'
    refine ⟨fun r hr x hx => ?_, .of_none rfl, fun j u _ hu => ⟨?_, .inl rfl⟩⟩
    · obtain ⟨r₀, hr₀, rfl⟩ := Store.mem_setRecord.mp hr
      obtain ⟨x₀, hx₀, rfl⟩ := Store.mem_setRecord.mp hx
      rw [hj r₀ hr₀ x₀ hx₀]
    · refine (hi.thread j u hu).map (fun r hr => Store.mem_setRecord.mpr ⟨r, hr, rfl⟩)
        fun r _ hcl => ?_
      split
      · exact ⟨rfl, hcl⟩
      · exact ⟨rfl, hcl⟩
  | inserted r records hr hs hnew hf =>
    have hnil : p.store.records.rows = [] := hins (by rw [hs]; exact Option.some_ne_none _)
    have hfree (j : ℕ) (u : Thread) (hu : p.threads[j]? = some u) : u.holds = none := by
      by_contra hne
      obtain ⟨id, hid⟩ := Option.ne_none_iff_exists'.mp hne
      obtain ⟨x, hx, -⟩ := hi.thread j u hu id hid
      rw [mem_def, hnil] at hx
      cases hx
    have ht'n : t'.holds = none := by
      obtain he | he := hf.holds
      · rw [he, hfree k t ht]
      · exact he
    have honly : ∀ x ∈ records, x = r := fun x hx => by
      obtain hx | rfl := (mem_insertOne hr).mp hx
      · rw [mem_def, hnil] at hx
        cases hx
      · rfl
    exact ⟨fun x hx y hy => by rw [honly x hx, honly y hy], .of_none ht'n,
      fun j u _ hu => ⟨.of_none (hfree j u hu), .inl ht'n⟩⟩
  | claimed c r hr hc ht₀ ht' =>
    subst ht'
    -- a call that held the record would have it claimed
    have hfree (j : ℕ) (u : Thread) (hu : p.threads[j]? = some u) : u.holds = none := by
      by_contra hne
      obtain ⟨id, hid⟩ := Option.ne_none_iff_exists'.mp hne
      obtain ⟨x, hx, -, hcl⟩ := hi.thread j u hu id hid
      rw [hj x hx r hr, Claim.not_claimed_of_admits hc] at hcl
      cases hcl
    have honly : ∀ x ∈ (p.store.takeUp c r).records, x = c.takeUp p.store.now r := fun x hx => by
      obtain ⟨hx, hne⟩ | rfl := (Store.mem_takeUp hr).mp hx
      · exact absurd (congrArg Record.connector (hj x hx r hr)) hne
      · rfl
    refine ⟨fun x hx y hy => by rw [honly x hx, honly y hy], fun id hid => ?_,
      fun j u _ hu => ⟨.of_none (hfree j u hu), .inr (hfree j u hu)⟩⟩
    exact ⟨_, (Store.mem_takeUp hr).mpr (.inr rfl), Option.some.inj hid, rfl⟩
  | written id f hw hh hf hk =>
    refine ⟨fun r hr x hx => ?_, fun id' hid => ?_, fun j u hjk hu => ?_⟩
    · obtain ⟨r₀, hr₀, rfl⟩ := Store.mem_setRecord.mp hr
      obtain ⟨x₀, hx₀, rfl⟩ := Store.mem_setRecord.mp hx
      rw [hj r₀ hr₀ x₀ hx₀]
    · obtain ⟨r, hr, hrid, hcl⟩ := (hok.follows hf) id' hid
      refine ⟨_, Store.mem_setRecord.mpr ⟨r, hr, rfl⟩, ?_⟩
      split
      · exact ⟨(hw.id r).trans hrid, hw.claimed (by rw [hid]; exact Option.some_ne_none _) r⟩
      · exact ⟨hrid, hcl⟩
    · obtain he | he := hap j u hjk hu
      · rw [hh] at he
        cases he
      · exact ⟨.of_none he, .inr he⟩
  | booked r room ht₀ ht' | assigned r b x room ht₀ ht' =>
    subst ht₀ ht'
    exact ⟨hj, hok, fun j u hjk hu => ⟨hi.thread j u hu, hap j u hjk hu⟩⟩

theorem preserves_exclusive : calls.Preserves
    (fun p a => p.store.bookings = [] ∧ ClaimsHold p a) OneRecord HoldsClaimed HoldApart where
  symm _ _ h := h.symm
  init s h r hr := by
    rw [mem_def, h.2.2.1] at hr
    cases hr
  env p e s' hi hc h := by
    cases h
    cases e with
    | tick n | update x => exact ⟨hi.store, hi.thread⟩
    | recoverStuck =>
      refine ⟨fun r hr x hx => ?_, fun k t ht => ?_⟩
      · obtain ⟨r₀, hr₀, rfl⟩ := Store.mem_recoverStuck.mp hr
        obtain ⟨x₀, hx₀, rfl⟩ := Store.mem_recoverStuck.mp hx
        rw [hi.store r₀ hr₀ x₀ hx₀]
      · refine fun id hid => ?_
        obtain ⟨r, hr, hrid, hcl⟩ := hi.thread k t ht id hid
        have hfresh := hc.2 hc.1 t (mem_of_getElem? ht) id hid r hr hrid
        refine ⟨r, Store.mem_recoverStuck.mpr ⟨r, hr, ?_⟩, hrid, hcl⟩
        rw [if_neg (by simp [hfresh])]
  call p c t _ _ h := by
    cases h
    have hn : (Thread.start c).holds = none := by cases c <;> rfl
    exact ⟨.of_none hn, fun _ _ => .inl hn⟩
  step p k m t s' t' hi hc ht h := by
    cases m with
    | advance o =>
      exact change_exclusive hi ht (fun hne => hc.2 hc.1 t (by rw [ht]; rfl) hne) (advance_change h)
    | raise b | crash =>
      obtain ⟨rfl, hf⟩ := stop_follows (by simp) h
      exact ⟨hi.store, (hi.thread k t ht).follows hf, fun j u hjk hu =>
        ⟨hi.thread j u hu, (hi.apart k j t u hjk.symm ht hu).follows hf⟩⟩

/-! ### One booking -/

/-- The calls exclude each other until the booking is there, and then none of them is
about to create another. -/
structure OneBooking (p : Pool Store Thread) : Prop where
  exclusive : p.store.bookings = [] → Program.Inv OneRecord HoldsClaimed HoldApart p
  unchecked : p.store.bookings ≠ [] → ∀ t ∈ p.threads, t.checked = false
  one : p.store.bookings.length ≤ 1

theorem eq_nil_of_map_id
    (h : s'.bookings.map ImportedBooking.id = s.bookings.map ImportedBooking.id) :
    (s'.bookings = [] ↔ s.bookings = []) ∧ s'.bookings.length = s.bookings.length := by
  have hl : s'.bookings.length = s.bookings.length := by simpa using congrArg List.length h
  refine ⟨?_, hl⟩
  rw [← length_eq_zero_iff, ← length_eq_zero_iff, hl]

theorem OneBooking.env {e : Env} (h : OneBooking p) (hc : ClaimsHold p (.env e))
    (hn : calls.machine.step p (.env e) = some p') : OneBooking p' := by
  obtain ⟨hs, ht⟩ := Program.next_env hn
  have hb : p'.store.bookings = p.store.bookings := by
    rw [← Option.some.inj hs]
    exact (env_frame p.store e).2
  exact ⟨fun hnil => preserves_exclusive.next (h.exclusive (hb ▸ hnil)) ⟨hb ▸ hnil, hc⟩ hn,
    by rw [hb, ht]; exact h.unchecked, hb ▸ h.one⟩

theorem OneBooking.call {c : Call} (h : OneBooking p)
    (hn : calls.machine.step p (.call c) = some p') : OneBooking p' := by
  obtain ⟨t, hcall, hs, ht⟩ := Program.next_call hn
  refine ⟨fun hnil => ?_, fun hne u hu => ?_, hs ▸ h.one⟩
  · rw [hs] at hnil
    exact preserves_exclusive.next (h.exclusive hnil) ⟨hnil, show ClaimsHold p (.call c) from trivial⟩ hn
  · rw [ht, mem_append, mem_singleton] at hu
    obtain hu | rfl := hu
    · exact h.unchecked (hs ▸ hne) u hu
    · cases hcall
      cases c <;> rfl

theorem OneBooking.step (h : OneBooking p) (hc : ClaimsHold p (.step k m))
    (hn : calls.machine.step p (.step k m) = some p') : OneBooking p' := by
  obtain ⟨t, t', ht, hs, hset⟩ := Program.next_step hn
  have hmem := mem_of_getElem? ht
  obtain ⟨hids, hch⟩ | ⟨htc, htc', b, hb⟩ := step_bookings hs
  · obtain ⟨hnil, hlen⟩ := eq_nil_of_map_id hids
    refine ⟨fun h' => ?_, fun hne u hu => ?_, hlen ▸ h.one⟩
    · exact preserves_exclusive.next (h.exclusive (hnil.mp h')) ⟨hnil.mp h', hc⟩ hn
    · have hne' : p.store.bookings ≠ [] := fun h' => hne (hnil.mpr h')
      rw [hset] at hu
      obtain hu | rfl := mem_or_eq_of_mem_set hu
      · exact h.unchecked hne' u hu
      · by_contra hcu
        obtain htc | h' := hch (by simpa using hcu)
        · rw [h.unchecked hne' t hmem] at htc
          cases htc
        · exact hne' h'
  · -- the call creates the booking, and no other call is past its duplicate check
    have hnil : p.store.bookings = [] := by
      by_contra hne
      rw [h.unchecked hne t hmem] at htc
      cases htc
    refine ⟨fun h' => by simp [hb] at h', fun _ u hu => ?_, by simp [hb, hnil]⟩
    rw [hset] at hu
    obtain ⟨j, hj⟩ := mem_iff_getElem?.mp hu
    obtain ⟨hjk, hj⟩ | ⟨-, rfl⟩ := Program.getElem?_set_some hj
    · obtain he | he := (h.exclusive hnil).apart k j t u hjk.symm ht hj
      · exact absurd he (Thread.holds_of_checked htc)
      · by_contra hcu
        exact Thread.holds_of_checked (by simpa using hcu) he
    · exact htc'

theorem oneBooking_of_claimsHold (h : calls.machine.Reach ClaimsHold p) : OneBooking p := by
  refine h.invariant OneBooking (fun p h₀ => ?_) fun p a p' hp hc hn => ?_
  · obtain ⟨⟨hl, ha, hr, hb, ho⟩, hts⟩ := h₀
    refine ⟨fun _ => preserves_exclusive.reach (.start ⟨⟨hl, ha, hr, hb, ho⟩, hts⟩),
      fun hne => absurd hb hne, by simp [hb]⟩
  · cases a with
    | env e => exact hp.env hc hn
    | call c => exact hp.call hn
    | step k m => exact hp.step hc hn

/-- In every run whose steps leave the claims alone while there is no booking: at most one
booking is created, and every record that is imported or a duplicate points to it. -/
theorem imported_once {p : Pool Store Thread} (h : calls.machine.Reach ClaimsHold p) :
    p.store.bookings.length ≤ 1 ∧ ∀ r ∈ p.store.records, r.resolved = true →
      ∃ b ∈ p.store.bookings, r.bookingId = some b.id := by
  refine ⟨(oneBooking_of_claimsHold h).one, fun r hr hres => ?_⟩
  have hlinked := (preserves_linked.reach (h.mono fun _ _ _ => trivial)).store
  obtain ⟨_, hmem, hid⟩ := hlinked r hr hres
  obtain ⟨b, hb, rfl⟩ := mem_map.mp hmem
  exact ⟨b, hb, hid⟩

/-! ### Runs -/

def importsSeen (p : Pool Store Thread) : List ℕ × List (ImportStatus × Option ℕ) :=
  (p.store.bookings.map ImportedBooking.id,
    p.store.records.rows.map fun r => (r.importStatus, r.bookingId))

/-- The first worker crashes after its claim; the record is recovered and imported by the
second, and another event of the reservation finds it imported. -/
def importedAfterCrash : List (Act Env Call Move) :=
  .call (.ingest 1 {}) :: operations 0 5 ++ .call .work :: operations 1 3 ++
    [.step 1 .crash, .env (.tick 120), .env .recoverStuck, .call .work] ++ operations 2 16

/-- The first worker is slow: its record is recovered while it is about to create the
booking, and the second worker imports it as well. -/
def importedBySlowWorker : List (Act Env Call Move) :=
  .call (.ingest 1 {}) :: operations 0 5 ++ .call .work :: operations 1 6 ++
    [.env (.tick 120), .env .recoverStuck, .call .work] ++ operations 2 16 ++ operations 1 10

theorem imported_once_after_crash : ∃ p, calls.machine.Reach ClaimsHold p ∧
    importsSeen p = ([1], [(.imported, some 1)]) ∧ p.store.bookings.length ≤ 1 ∧
    ∀ r ∈ p.store.records, r.resolved = true → ∃ b ∈ p.store.bookings, r.bookingId = some b.id := by
  obtain ⟨p, hp, hseen⟩ := Machine.exists_reach_of_runUnder (M := calls.machine)
    (C := ClaimsHold) (f := importsSeen) (v := ([1], [(.imported, some 1)]))
    importedAfterCrash emptyStore_init (by decide +kernel)
  exact ⟨p, hp, hseen, imported_once hp⟩

/-- Two bookings of one reservation. -/
theorem imported_twice : ∃ p, calls.machine.Reachable p ∧
    importsSeen p = ([1, 2], [(.imported, some 2)]) :=
  Machine.exists_reachable_of_run importedBySlowWorker emptyStore_init (by decide +kernel)

end SyrocePms.Import
