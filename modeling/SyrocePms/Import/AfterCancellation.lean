import SyrocePms.Import.Changes

/-! No import after a cancellation. Neither an attempt nor a claim looks at the
cancellation, so it holds back an import only through what it meets: a booking that the
duplicate check finds, or no record that a claim admits. -/

namespace SyrocePms.Import

open Reservation Lib

variable {s s' : Store} {k : ℕ} {t t' : Thread} {p : Pool Store Thread} {m : Move}

/-! ### The condition -/

/-- The call is about to write the cancellation to the lineage. -/
def Thread.cancels : Thread → Bool
  | .cancel (.write _) => true
  | _ => false

/-- Nothing is left to import: no record may be taken up, and no attempt holds one. -/
def nothingToImport (p : Pool Store Thread) : Prop :=
  (∀ r ∈ p.store.records.rows, r.importable = false) ∧ ∀ t ∈ p.threads, t.holds = none

instance (p : Pool Store Thread) : Decidable (nothingToImport p) := by
  unfold nothingToImport
  infer_instance

def CancellationSpared (p : Pool Store Thread) : Act Env Call Move → Prop
  | .step k (.advance o) => ∀ t ∈ p.threads[k]?,
    (t.cancels = true → o.ok = true →
      (∀ u ∈ p.threads, u.checked = false) ∧ (p.store.bookings ≠ [] ∨ nothingToImport p)) ∧
    ∀ c ∈ t.inserts, p.store.cancelApplied = true →
      p.store.bookings ≠ [] ∨ importableClass c = false
  | _ => True

instance (p : Pool Store Thread) (a : Act Env Call Move) : Decidable (CancellationSpared p a) := by
  unfold CancellationSpared
  split <;> infer_instance

/-! ### The invariant -/

/-- A cancelled lineage was cancelled at some time, and from then on nothing is importable
unless the booking is there. -/
def CancelOk (s : Store) : Prop :=
  (∀ l ∈ s.lineage, l.cancelled = true → s.cancelApplied = true) ∧
  (s.cancelApplied = true → s.bookings = [] → ∀ r ∈ s.records, r.importable = false)

/-- After a cancellation no call is about to create a booking, and none will be. -/
def CancelThreadOk (s : Store) (_ : ℕ) (t : Thread) : Prop :=
  s.cancelApplied = true → t.checked = false ∧ (s.bookings = [] → t.holds = none)

theorem Claim.importable_of_admits {now : ℕ} {c : Claim} {r : Record}
    (h : c.admits now r = true) : r.importable = true := by
  cases c <;>
    simp only [Claim.admits, Record.mappingReview, Bool.and_eq_true, Bool.or_eq_true, beq_iff_eq] at h
  case pending => simp [Record.importable, importableClass, h.2]
  case retry => simp [Record.importable, importableClass, h.1.2]
  case next => obtain ⟨h | h, -⟩ := h <;> simp [Record.importable, importableClass, h]
  case review => simp [Record.importable, importableClass, h.2.1, h.2.2]

theorem CancelThreadOk.mono (h : CancelThreadOk s k t) (ha : s'.cancelApplied = s.cancelApplied)
    (hb : s'.bookings = [] → s.bookings = []) : CancelThreadOk s' k t := fun h' => by
  obtain ⟨hc, hh⟩ := h (ha ▸ h')
  exact ⟨hc, fun h => hh (hb h)⟩

theorem CancelThreadOk.follows (h : CancelThreadOk s k t) (hf : t.Follows s t') :
    CancelThreadOk s k t' := fun ha => by
  obtain ⟨hc, hh⟩ := h ha
  have hh' : s.bookings = [] → t'.holds = none := fun hb => by
    obtain he | he := hf.holds
    · rw [he, hh hb]
    · exact he
  refine ⟨?_, hh'⟩
  by_contra hne
  have hc' : t'.checked = true := by simpa using hne
  obtain hc'' | hb := hf.checked hc'
  · rw [hc] at hc''
    cases hc''
  · exact Thread.holds_of_checked hc' (hh' hb)

/-- What an operation of a call does to the invariant. -/
theorem change_cancelOk {o : Outside} (hj : CancelOk p.store) (hok : CancelThreadOk p.store k t)
    (ht : p.threads[k]? = some t) (hc : CancellationSpared p (.step k (.advance o)))
    (ho : t.cancels = true → o.ok = true) (h : Change p.store t t' s') :
    CancelOk s' ∧ CancelThreadOk s' k t' ∧
      ∀ u ∈ p.threads, CancelThreadOk p.store k u → CancelThreadOk s' k u := by
  obtain ⟨hcancel, hinsert⟩ := hc t (by rw [ht]; rfl)
  cases h with
  | control l hl hf hk =>
    refine ⟨⟨fun x hx hxc => ?_, hj.2⟩, hok.follows hf, fun u _ hu => hu⟩
    obtain ⟨y, hy, hyc⟩ := hl x hx hxc
    exact hj.1 y hy hyc
  | cancelled copy ht₀ ht' =>
    subst ht₀ ht'
    obtain ⟨hch, hb⟩ := hcancel rfl (ho rfl)
    refine ⟨⟨fun _ _ _ => rfl, fun _ hnil => ?_⟩, fun _ => ⟨rfl, fun _ => rfl⟩, fun u hu _ _ => ?_⟩
    · obtain hb | hn := hb
      · exact absurd hnil hb
      · exact hn.1
    · refine ⟨hch u hu, fun hnil => ?_⟩
      obtain hb | hn := hb
      · exact absurd hnil hb
      · exact hn.2 u hu
  | bookingCancelled ht₀ ht' =>
    subst ht'
    exact ⟨⟨hj.1, fun ha hb => hj.2 ha (Store.cancelBooking_eq_nil.mp hb)⟩, fun _ => ⟨rfl, fun _ => rfl⟩,
      fun u _ hu => hu.mono rfl Store.cancelBooking_eq_nil.mp⟩
  | recordNoted id ht₀ ht' =>
    subst ht'
    refine ⟨⟨hj.1, fun ha hb r hr => ?_⟩, fun _ => ⟨rfl, fun _ => rfl⟩, fun u _ hu => hu⟩
    obtain ⟨x, hx, rfl⟩ := Store.mem_setRecord.mp hr
    have := hj.2 ha hb x hx
    split <;> exact this
  | inserted r records hi hr hres hf =>
    refine ⟨⟨hj.1, fun ha hnil x hx => ?_⟩, hok.follows hf, fun u _ hu => hu⟩
    obtain hx | rfl := (Collection.mem_insertOne hi).mp hx
    · exact hj.2 ha hnil x hx
    · obtain hb | hcl := hinsert _ (by rw [hr]; rfl) ha
      · exact absurd hnil hb
      · exact hcl
  | claimed c r hr hcl ht₀ ht' =>
    subst ht'
    have hne : p.store.cancelApplied = true → p.store.bookings ≠ [] := fun ha hb => by
      have := hj.2 ha hb r hr
      rw [Claim.importable_of_admits hcl] at this
      cases this
    exact ⟨⟨hj.1, fun ha hb => absurd hb (hne ha)⟩,
      fun ha => ⟨rfl, fun hb => absurd hb (hne ha)⟩, fun u _ hu => hu⟩
  | written id f hw hh hf hk =>
    refine ⟨⟨hj.1, fun ha hb => ?_⟩, hok.follows hf, fun u _ hu => hu⟩
    have := (hok ha).2 hb
    rw [hh] at this
    cases this
  | booked r room ht₀ ht' =>
    subst ht₀ ht'
    have hna : p.store.cancelApplied ≠ true := fun ha => by
      have := (hok ha).1
      cases this
    exact ⟨⟨hj.1, fun ha => absurd ha hna⟩, fun ha => absurd ha hna, fun u _ _ ha => absurd ha hna⟩
  | assigned r b x room ht₀ ht' =>
    subst ht'
    refine ⟨⟨hj.1, fun ha hb => hj.2 ha (Store.setRoom_eq_nil.mp hb)⟩, fun ha => ⟨rfl, fun hb => ?_⟩,
      fun u _ hu => hu.mono rfl Store.setRoom_eq_nil.mp⟩
    have := (hok ha).2 (Store.setRoom_eq_nil.mp hb)
    subst ht₀
    cases this
  | enqueued r b x ht₀ ht' =>
    subst ht'
    exact ⟨hj, fun _ => ⟨rfl, fun _ => rfl⟩, fun u _ hu => hu⟩

theorem step_cancelOk (hj : CancelOk p.store) (hok : CancelThreadOk p.store k t)
    (ht : p.threads[k]? = some t) (hc : CancellationSpared p (.step k m))
    (h : t.step p.store m = some (s', t')) : CancelOk s' ∧ CancelThreadOk s' k t' ∧
      ∀ u ∈ p.threads, CancelThreadOk p.store k u → CancelThreadOk s' k u := by
  cases m with
  | advance o =>
    by_cases ho : t.cancels = true → o.ok = true
    · exact change_cancelOk hj hok ht hc ho (advance_change h)
    · -- the lease was not there, so nothing is written
      obtain ⟨hw, hlost⟩ := Classical.not_imp.mp ho
      cases t with
      | cancel pc =>
        cases pc with
        | write copy =>
          have hs : cancelStep p.store o (.write copy) = (p.store, .done) := if_neg hlost
          obtain ⟨rfl, rfl⟩ := Prod.mk.inj (hs.symm.trans (Option.some.inj h))
          exact ⟨hj, fun _ => ⟨rfl, fun _ => rfl⟩, fun u _ hu => hu⟩
        | _ => cases hw
      | _ => cases hw
  | raise b =>
    obtain ⟨rfl, hf⟩ := stop_follows (by simp) h
    exact ⟨hj, hok.follows hf, fun u _ hu => hu⟩
  | crash =>
    obtain ⟨rfl, hf⟩ := stop_follows (by simp) h
    exact ⟨hj, hok.follows hf, fun u _ hu => hu⟩

theorem env_cancelOk (hj : CancelOk s) (e : Env) : CancelOk (s.env e) := by
  cases e with
  | tick n => exact hj
  | recoverStuck =>
    refine ⟨hj.1, fun ha hb r hr => ?_⟩
    obtain ⟨x, hx, rfl⟩ := Store.mem_recoverStuck.mp hr
    have hx' := hj.2 ha hb x hx
    split
    · rename_i hs
      simp only [Record.stuck, Bool.and_eq_true, beq_iff_eq] at hs
      simp [Record.importable, importableClass, hs.1] at hx'
    · exact hx'
  | update x =>
    refine ⟨fun l hl hc => ?_, hj.2⟩
    obtain ⟨y, -, rfl⟩ := Option.map_eq_some_iff.mp hl
    cases hc

theorem preserves_cancelOk :
    calls.Preserves CancellationSpared CancelOk CancelThreadOk fun _ _ => True where
  symm _ _ _ := trivial
  init s h := by
    obtain ⟨hl, hn, -⟩ := h
    refine ⟨fun l h => ?_, fun h => ?_⟩
    · rw [hl] at h
      cases h
    · rw [hn] at h
      cases h
  env p e s' hi _ h := by
    cases h
    refine ⟨env_cancelOk hi.store e, fun k t ht => ?_⟩
    exact (hi.thread k t ht).mono (env_frame _ e).1 (by rw [(env_frame _ e).2]; exact id)
  call p c t _ _ h := by
    cases h
    exact ⟨fun _ => by cases c <;> exact ⟨rfl, fun _ => rfl⟩, fun _ _ => trivial⟩
  step p k m t s' t' hi hc ht h := by
    obtain ⟨hj, hok, hoth⟩ := step_cancelOk hi.store (hi.thread k t ht) ht hc h
    exact ⟨hj, hok, fun j u _ hu => ⟨hoth u (List.mem_of_getElem? hu) (hi.thread j u hu), trivial⟩⟩

/-! ### After a cancellation -/

/-- Once the cancellation is applied, the bookings of the reservation are those there
were. -/
def CreatesNone (s s' : Store) : Prop :=
  s.cancelApplied = true → s'.cancelApplied = true ∧
    s'.bookings.map ImportedBooking.id = s.bookings.map ImportedBooking.id

theorem CreatesNone.trans {t u : Store} (h : CreatesNone s t) (h' : CreatesNone t u) :
    CreatesNone s u := fun ha => by
  obtain ⟨ha', hb⟩ := h ha
  obtain ⟨ha'', hb'⟩ := h' ha'
  exact ⟨ha'', hb'.trans hb⟩

theorem step_createsNone (hok : CancelThreadOk s k t) (h : t.step s m = some (s', t')) :
    CreatesNone s s' := fun ha => by
  cases m with
  | advance o =>
    cases advance_change h with
    | bookingCancelled ht ht' => exact ⟨ha, Store.map_id_cancelBooking s⟩
    | cancelled copy ht ht' => exact ⟨rfl, rfl⟩
    | booked r room ht ht' =>
      have hch := (hok ha).1
      rw [ht] at hch
      cases hch
    | assigned r b x room ht ht' => exact ⟨ha, Store.map_id_setRoom s b x⟩
    | _ => exact ⟨ha, rfl⟩
  | raise b =>
    obtain ⟨rfl, -⟩ := stop_follows (by simp) h
    exact ⟨ha, rfl⟩
  | crash =>
    obtain ⟨rfl, -⟩ := stop_follows (by simp) h
    exact ⟨ha, rfl⟩

/-- In every run whose steps spare the cancellation: from a state in which the lineage is
cancelled, no booking of the reservation is created. -/
theorem none_created_after_cancellation {p p' : Pool Store Thread} {l : Lineage}
    (h : calls.machine.Reach CancellationSpared p) (hl : p.store.lineage = some l)
    (hcancelled : l.cancelled = true) (hp : calls.machine.Path CancellationSpared p p') :
    ∀ b ∈ p'.store.bookings, ∃ b₀ ∈ p.store.bookings, b₀.id = b.id := by
  have hi := preserves_cancelOk.reach h
  have hnone : CreatesNone p.store p'.store := by
    refine preserves_cancelOk.path (fun _ ha => ⟨ha, rfl⟩) (fun _ _ _ => CreatesNone.trans)
      (fun q e s' _ _ hs ha => ?_) (fun q k m t s' t' hq _ ht hs => ?_) hi hp
    · cases hs
      rw [(env_frame _ e).1, (env_frame _ e).2]
      exact ⟨ha, rfl⟩
    · exact step_createsNone (hq.thread k t ht) hs
  obtain ⟨-, hids⟩ := hnone (hi.store.1 l hl hcancelled)
  intro b hb
  have : b.id ∈ p'.store.bookings.map ImportedBooking.id := List.mem_map_of_mem hb
  rw [hids] at this
  obtain ⟨b₀, hb₀, he⟩ := List.mem_map.mp this
  exact ⟨b₀, hb₀, he⟩

/-! ### Runs -/

def reserved : List (Act Env Call Move) := .call (.ingest 1 {}) :: operations 0 5

def workerImports (k : ℕ) : List (Act Env Call Move) :=
  .call .work :: .replicate 16 (.step k (.advance { room := some 1 }))

/-- Thread `k` cancels the reservation. -/
def cancels (k : ℕ) : List (Act Env Call Move) := .call .cancel :: operations k 6

def bookingsSeen (p : Pool Store Thread) : Option Bool × List (Option ℕ × BookingStatus) :=
  (p.store.lineage.map Lineage.cancelled, p.store.bookings.map fun b => (b.room, b.status))

theorem none_created_after_import : ∃ p p', calls.machine.Reach CancellationSpared p ∧
    bookingsSeen p = (some true, [(some 1, .confirmed)]) ∧
    bookingsSeen p' = (some true, [(some 1, .cancelled)]) ∧
    ∀ b ∈ p'.store.bookings, ∃ b₀ ∈ p.store.bookings, b₀.id = b.id := by
  obtain ⟨p, p', hp, hpath, hseen, hseen'⟩ := Machine.exists_path_of_runUnder
    (M := calls.machine) (C := CancellationSpared) (f := bookingsSeen)
    (v := (some true, [(some 1, .confirmed)])) (w := (some true, [(some 1, .cancelled)]))
    (List.flatten [reserved, workerImports 1, [.call .cancel], operations 2 2])
    (List.flatten [operations 2 4, [.call (.ingest 1 {})], operations 3 2])
      emptyStore_init (by decide +kernel)
    (by decide +kernel)
  obtain ⟨l, hl, hlc⟩ := Option.map_eq_some_iff.mp (congrArg Prod.fst hseen)
  exact ⟨p, p', hp, hseen, hseen', none_created_after_cancellation hp hl hlc hpath⟩

/-- A reservation that was cancelled before its import is imported as confirmed. -/
theorem cancelled_reservation_imported : ∃ p p', calls.machine.Reachable p ∧
    calls.machine.Path (fun _ _ => True) p p' ∧ bookingsSeen p = (some true, []) ∧
    bookingsSeen p' = (some true, [(some 1, .confirmed)]) :=
  Machine.exists_path_of_runUnder (reserved ++ cancels 1) (workerImports 2) emptyStore_init
    (by decide +kernel) (by decide +kernel)

end SyrocePms.Import
