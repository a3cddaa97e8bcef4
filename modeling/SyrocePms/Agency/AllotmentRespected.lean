import SyrocePms.Agency.Allotment

/-! No allotment is exceeded once the sales have finished, if every sale recounts what counts
its booking. A booking is settled for a cap when its sale has recounted the cap or has no
need to: the settled bookings of a cap never exceed it, since a recount that passes has
counted them all together. -/

namespace SyrocePms.Agency

open Lib List

variable {hotel : Hotel} {s s' : Bookings} {c : Cap}
variable {p p' : Pool Bookings Thread} {b : Booking} {t : Thread} {f : Booking → Booking}
  {o : Chance} {pc' : Pc} {q : Sale}

/-! ### The condition -/

def CoversNight (hotel : Hotel) (q : Sale) (daysUntil : ℤ) (a : Allotment) : Prop :=
  ∃ cap ∈ getB2bAllotment hotel q.booking.toTerms daysUntil, cap ≤ a.allotmentCount ∧
    ∀ x ∈ hotel.rooms, x.tenantId = a.tenantId → x.roomType = a.roomTypeId → x.id ∈ q.roomIds

/-- What the step `o` of a sale in the state `pc` must not skip. -/
def Sale.Rechecks (hotel : Hotel) (s : Bookings) (q : Sale) (o : Chance) : Pc → Prop
  | .insert => q.channel = .marketplace →
    ∀ a ∈ hotel.allotments, ∀ date ∈ a.dates,
      (Cap.night a date).counts hotel q.booking.toTerms = false
  | .legacy =>
    ∀ a ∈ hotel.allotments, ∀ date ∈ a.dates,
      (Cap.night a date).counts hotel q.booking.toTerms = true → CoversNight hotel q o.daysUntil a
  | .find =>
    ∀ r ∈ hotel.calendar, r.availability ≠ none →
      (Cap.row r).counts hotel q.booking.toTerms = true →
        r ∈ calendarRows hotel q.booking.toTerms
  | .rows (r :: _) =>
    ∀ b ∈ s.rows, (Cap.row r).consumes hotel b = true →
      planCounted q.booking.ratePlanCode.get? b.toTerms = true
  | _ => True

def Rechecked (hotel : Hotel) (p : Pool Bookings Thread) : Act StatusChange Sale Chance → Prop
  | .step k o => ∀ t ∈ p.threads[k]?, t.sale.Rechecks hotel p.store o t.pc
  | _ => True

/-! ### Settled bookings -/

/-- A cap that the sale still has to recount, or has found exceeded. -/
def Pc.awaits : Pc → Cap → Bool
  | .legacy, _ | .rollback, _ => true
  | .find, .row _ => true
  | .rows rest, .row r => rest.contains r
  | _, _ => false

def unsettled (p : Pool Bookings Thread) (c : Cap) (b : Booking) : Bool :=
  p.threads.any fun t => t.sale.booking.id = b.id && t.pc.awaits c

def settled (hotel : Hotel) (p : Pool Bookings Thread) (c : Cap) (b : Booking) : Bool :=
  c.consumes hotel b && !unsettled p c b

def Within (hotel : Hotel) (p : Pool Bookings Thread) : Prop :=
  ∀ c n, hotel.sets c → c.bound = some n →
    (p.store.rows.countP (settled hotel p c) : ℤ) ≤ n

theorem settled_iff : settled hotel p c b = true ↔ c.consumes hotel b = true ∧
      ∀ t ∈ p.threads, t.sale.booking.id = b.id → t.pc.awaits c = false := by
  simp [settled, unsettled]

def Pc.stored : Pc → Bool
  | .legacy | .find | .rows _ | .rollback => true
  | _ => false

def Kept (s : Bookings) (t : Thread) : Prop :=
  t.pc.stored = true →
    ∃ b ∈ s, b.id = t.sale.booking.id ∧ b.toTerms = t.sale.booking.toTerms

theorem Pc.stored_of_awaits {pc : Pc} (h : pc.awaits c = true) : pc.stored = true := by
  cases pc <;> first | rfl | cases c <;> cases h

theorem Kept.terms (h : Kept s t) (hpc : t.pc.stored = true) (hb : b ∈ s)
    (hid : b.id = t.sale.booking.id) : b.toTerms = t.sale.booking.toTerms := by
  obtain ⟨b', hb', hid', hterms⟩ := h hpc
  have heq : b = b' := Collection.eq_of_key hb hb' (hid.trans hid'.symm)
  rw [heq, hterms]

/-! ### What a step does to the bookings -/

/-- Bookings stay under their terms, and none is revived. -/
structure Retains (s s' : Bookings) (f : Booking → Booking) : Prop where
  rows : s'.rows = s.rows.map f
  key : ∀ b, (f b).id = b.id
  terms : ∀ b, (f b).toTerms = b.toTerms
  active : ∀ b, (f b).status.isActive = true → b.status.isActive = true

theorem Retains.refl : Retains s s id :=
  ⟨(map_id _).symm, fun _ => rfl, fun _ => rfl, fun _ h => h⟩

theorem Retains.consumes (h : Retains s s' f) (hb : c.consumes hotel (f b) = true) :
    c.consumes hotel b = true := by
  simp only [Cap.consumes, Bool.and_eq_true] at hb ⊢
  rw [h.terms] at hb
  exact ⟨h.active b hb.1, hb.2⟩

theorem Retains.kept (h : Retains s s' f) (ht : Kept s t) : Kept s' t := by
  intro hpc
  obtain ⟨b, hb, hid, hterms⟩ := ht hpc
  refine ⟨f b, ?_, ?_, ?_⟩
  · rw [Collection.mem_def, h.rows]
    exact mem_map_of_mem hb
  · rw [h.key, hid]
  · rw [h.terms, hterms]

theorem StatusChange.retains (e : StatusChange) :
    Retains s (s.updateMany (fun b => b.id = e.id) e.apply e.apply_id)
      fun b => if b.id = e.id then e.apply b else b where
  rows := by simp [Collection.updateMany]
  key b := by
    split
    · exact e.apply_id b
    · rfl
  terms b := by
    split
    · unfold apply
      split <;> rfl
    · rfl
  active b := by
    split
    · unfold apply
      split
      · intro h
        exact h
      · rename_i h
        simp only [Bool.and_eq_true, Bool.not_eq_true', not_and, Bool.not_eq_false] at h
        exact h
    · intro h
      exact h

theorem rollback_retains (tenantId bookingId : ℕ) :
    Retains s (rollbackOversoldBooking s tenantId bookingId)
      fun b => if b.id = bookingId ∧ b.tenantId = tenantId then oversold b else b where
  rows := by simp [rollbackOversoldBooking, Collection.updateMany]
  key b := by
    split <;> rfl
  terms b := by
    split <;> rfl
  active b := by
    split
    · intro h
      cases h
    · intro h
      exact h

theorem countP_settled_le (h : Retains p.store p'.store f)
    (hset : ∀ b ∈ p.store, settled hotel p' c (f b) = true → settled hotel p c b = true) :
    p'.store.rows.countP (settled hotel p' c) ≤ p.store.rows.countP (settled hotel p c) := by
  rw [h.rows, countP_map]
  exact countP_mono_left hset

/-- Settled bookings are among those that consume the cap. -/
theorem countP_settled_le_sold :
    p.store.rows.countP (settled hotel p c) ≤ sold hotel c p.store :=
  countP_mono_left fun _ _ h => (settled_iff.mp h).1

/-- What an insert does. -/
theorem insertOne_rows (h : s.insertOne b = some s') :
    s'.rows = s.rows ++ [b] ∧ ∀ x ∈ s, x.id ≠ b.id :=
  ⟨(Collection.insertOne_eq_some h).2, (Collection.insertOne_eq_some h).1⟩

theorem Kept.insert {u : Thread} (h : s.insertOne b = some s') (hu : Kept s u) : Kept s' u := by
  intro hpc
  obtain ⟨x, hx, hid, hterms⟩ := hu hpc
  refine ⟨x, ?_, hid, hterms⟩
  rw [Collection.mem_insertOne h]
  exact .inl hx

/-- A step keeps the stored booking of its own sale and those of the others. -/
theorem advance_kept (h : advance hotel s t o = some (s', pc')) (ht : Kept s t) :
    Kept s' { t with pc := pc' } ∧ ∀ u, Kept s u → Kept s' u := by
  have hsame : t.pc.stored = true → ∀ pc, Kept s { t with pc := pc } := fun hpc _ _ => ht hpc
  unfold advance at h
  cases hpc : t.pc <;> simp only [hpc] at h hsame
  case insert =>
    split at h
    · cases h
      exact ⟨fun h => (by cases h), fun _ h => h⟩
    · split at h <;> cases h
      · exact ⟨fun h => (by cases h), fun _ h => h⟩
      · rename_i hins
        refine ⟨fun _ => ⟨t.sale.booking, ?_, rfl, rfl⟩, fun u => Kept.insert hins⟩
        rw [Collection.mem_insertOne hins]
        exact .inr rfl
  case legacy =>
    split at h <;> cases h <;> exact ⟨hsame rfl _, fun _ h => h⟩
  case find =>
    cases h
    exact ⟨hsame rfl _, fun _ h => h⟩
  case rows rest =>
    cases rest <;> cases h <;> exact ⟨hsame rfl _, fun _ h => h⟩
  case rollback =>
    cases h
    exact ⟨fun h => (by cases h), fun u => (rollback_retains _ _).kept⟩
  case returned => cases h

theorem sales_kept {C : Pool Bookings Thread → Act StatusChange Sale Chance → Prop} :
    Program.Preserves (sales hotel) C (fun _ => True) (fun s _ t => Kept s t)
      fun _ _ => True where
  symm _ _ _ := trivial
  init _ _ := trivial
  env p e s' hi _ h := by
    cases h
    exact ⟨trivial, fun k t ht => e.retains.kept (hi.thread k t ht)⟩
  call p i t _ _ h := by
    cases h
    exact ⟨fun h => (by cases h), fun _ _ => trivial⟩
  step p k o t s' t' hi _ ht h := by
    obtain ⟨⟨s₁, pc'⟩, hs, heq⟩ := Option.map_eq_some_iff.mp h
    cases heq
    obtain ⟨hown, hoth⟩ := advance_kept hs (hi.thread k t ht)
    exact ⟨trivial, hown, fun j u _ hu => ⟨hoth u (hi.thread j u hu), trivial⟩⟩

/-! ### Recounts that pass -/

theorem sold_night_le {a : Allotment} {cap : ℤ} {night : ℕ}
    (hcounts : (Cap.night a night).counts hotel q.booking.toTerms = true)
    (hrooms : ∀ x ∈ hotel.rooms, x.tenantId = a.tenantId → x.roomType = a.roomTypeId →
      x.id ∈ q.roomIds) (hle : cap ≤ a.allotmentCount)
    (hpass : legacyAllotmentOverrun s q.booking.toTerms q.roomIds cap = false) :
    (sold hotel (.night a night) s : ℤ) ≤ a.allotmentCount := by
  have hsub : sold hotel (.night a night) s ≤
      s.rows.countP (legacyCounted q.booking.toTerms q.roomIds) := by
    refine countP_mono_left fun b _ hb => ?_
    simp only [Cap.consumes, Cap.counts, Bool.and_eq_true, decide_eq_true_eq, any_eq_true]
      at hb hcounts
    obtain ⟨hactive, ⟨⟨htenant, hagency⟩, x, hx, ⟨hid, hxt⟩, htype⟩, hnight⟩ := hb
    obtain ⟨⟨⟨hqt, hqa⟩, -⟩, hqnight⟩ := hcounts
    simp only [legacyCounted, Bool.and_eq_true, decide_eq_true_eq, contains_iff_mem]
    refine ⟨⟨⟨⟨htenant.trans hqt.symm, hagency.trans hqa.symm⟩, ?_⟩, hactive⟩, ?_⟩
    · exact hid ▸ hrooms x hx hxt htype
    · exact stayOverlapFilter_of_night hnight hqnight
  simp only [legacyAllotmentOverrun, decide_eq_false_iff_not, not_lt] at hpass
  omega

theorem legacy_recount (hpc : t.pc = .legacy) (hc : t.sale.Rechecks hotel s o .legacy)
    (h : advance hotel s t o = some (s', pc')) : s' = s ∧ (pc' = .find ∨ pc' = .rollback) ∧
      ∀ a ∈ hotel.allotments, ∀ date ∈ a.dates, pc' = .find →
        (Cap.night a date).counts hotel t.sale.booking.toTerms = true →
          (sold hotel (.night a date) s : ℤ) ≤ a.allotmentCount := by
  simp only [advance, hpc] at h
  split at h
  · rename_i hnone
    cases h
    refine ⟨rfl, .inl rfl, fun a ha date hd _ hcounts => ?_⟩
    obtain ⟨cap, hcap, -⟩ := hc a ha date hd hcounts
    rw [hnone] at hcap
    cases hcap
  · rename_i cap hsome
    obtain ⟨rfl, hpc'⟩ := Prod.mk.inj (Option.some.inj h)
    refine ⟨rfl, ?_, fun a ha date hd hfind hcounts => ?_⟩
    · rw [← hpc']
      split
      · exact .inr rfl
      · exact .inl rfl
    · obtain ⟨cap', hcap, hle, hrooms⟩ := hc a ha date hd hcounts
      rw [hsome] at hcap
      cases hcap
      refine sold_night_le hcounts hrooms hle ?_
      rw [hfind] at hpc'
      split at hpc'
      · cases hpc'
      · rename_i hover
        simpa using hover

theorem sold_row_le {r : CalendarRow} {n : ℤ}
    (hcounts : (Cap.row r).counts hotel q.booking.toTerms = true) (hn : r.availability = some n)
    (hseen : ∀ b ∈ s.rows, (Cap.row r).consumes hotel b = true →
      planCounted q.booking.ratePlanCode.get? b.toTerms = true)
    (hpass : rowOverrun s q.booking.toTerms r = false) : (sold hotel (.row r) s : ℤ) ≤ n := by
  have hsub : sold hotel (.row r) s ≤ s.rows.countP (rowCounted q.booking.toTerms r.date) := by
    refine countP_mono_left fun b hb hc => ?_
    have hplan := hseen b hb hc
    simp only [Cap.consumes, Cap.counts, Bool.and_eq_true, decide_eq_true_eq] at hc hcounts
    obtain ⟨hactive, ⟨⟨⟨htenant, hagency⟩, htype⟩, -⟩, hnight⟩ := hc
    obtain ⟨⟨⟨⟨hqt, hqa⟩, hqtype⟩, -⟩, -⟩ := hcounts
    simp only [rowCounted, Bool.and_eq_true, decide_eq_true_eq]
    exact ⟨⟨⟨⟨⟨htenant.trans hqt.symm, hagency.trans hqa.symm⟩, htype.trans hqtype.symm⟩, hplan⟩,
      hactive⟩, hnight⟩
  simp only [rowOverrun, hn, decide_eq_false_iff_not, not_lt] at hpass
  omega

/-! ### What a step does to the caps -/

section Step

variable {p p' : Pool Bookings Thread} {k : ℕ} {t t' : Thread}

theorem settled_before (ht : p.threads[k]? = some t) (hset : p'.threads = p.threads.set k t')
    {b' : Booking} (hid : b'.id = b.id) (hb : settled hotel p' c b' = true)
    (hcons : c.consumes hotel b = true) (hown : t.sale.booking.id = b.id → t.pc.awaits c = false) :
    settled hotel p c b = true := by
  rw [settled_iff] at hb ⊢
  refine ⟨hcons, fun u hu huid => ?_⟩
  obtain rfl | hu' := Program.eq_or_mem_set ht hu t'
  · exact hown huid
  · exact hb.2 u (hset ▸ hu') (huid.trans hid.symm)

theorem Within.step (hw : Within hotel p) (hret : Retains p.store p'.store f)
    (ht : p.threads[k]? = some t) (hset : p'.threads = p.threads.set k t')
    (hsale : t'.sale = t.sale)
    (hpass : ∀ c n, hotel.sets c → c.bound = some n → t.pc.awaits c = true →
      t'.pc.awaits c = true ∨ (sold hotel c p'.store : ℤ) ≤ n ∨
        ∀ b ∈ p.store, b.id = t.sale.booking.id → c.consumes hotel (f b) = false) :
    Within hotel p' := by
  intro c n hc hn
  have hmono : (∀ b ∈ p.store, settled hotel p' c (f b) = true → t.sale.booking.id = b.id →
      t.pc.awaits c = false) → (p'.store.rows.countP (settled hotel p' c) : ℤ) ≤ n := by
    intro hown
    have hle := countP_settled_le hret fun b hb hs =>
      settled_before ht hset (hret.key b) hs (hret.consumes (settled_iff.mp hs).1) (hown b hb hs)
    have hbound := hw c n hc hn
    omega
  by_cases ha : t.pc.awaits c = true
  · obtain hstays | hle | hnone := hpass c n hc hn ha
    · -- the sale still has to recount the cap
      refine hmono fun b hb hs hid => ?_
      have hmem : t' ∈ p'.threads := hset ▸ Program.self_mem_set ht t'
      have hfalse := (settled_iff.mp hs).2 t' hmem (by rw [hsale, hret.key, hid])
      rw [hstays] at hfalse
      cases hfalse
    · have hsold : p'.store.rows.countP (settled hotel p' c) ≤ sold hotel c p'.store :=
        countP_settled_le_sold
      omega
    · refine hmono fun b hb hs hid => ?_
      have hcons := (settled_iff.mp hs).1
      rw [hnone b hb hid.symm] at hcons
      cases hcons
  · exact hmono fun _ _ _ _ => by simpa using ha

theorem Kept.not_consumes (h : Kept p.store t) (hpc : t.pc.stored = true)
    (hc : c.counts hotel t.sale.booking.toTerms = false) :
    ∀ b ∈ p.store, b.id = t.sale.booking.id → c.consumes hotel b = false := by
  intro b hb hid
  simp only [Cap.consumes, h.terms hpc hb hid, hc, Bool.and_false]

/-- A step that only counts keeps the caps, if it passes a cap only when the cap is respected
or does not count the booking of the sale. -/
theorem Within.recount (hw : Within hotel p) (hk : Kept p.store t) (hs : p'.store = p.store)
    (ht : p.threads[k]? = some t) (hset : p'.threads = p.threads.set k t')
    (hsale : t'.sale = t.sale)
    (hpass : ∀ c n, hotel.sets c → c.bound = some n → t.pc.awaits c = true →
      t'.pc.awaits c = true ∨ (sold hotel c p.store : ℤ) ≤ n ∨
        c.counts hotel t.sale.booking.toTerms = false) : Within hotel p' := by
  have hret : Retains p.store p'.store id := by
    rw [hs]
    exact .refl
  refine hw.step hret ht hset hsale fun c n hc hn ha => ?_
  obtain hstays | hle | hfalse := hpass c n hc hn ha
  · exact .inl hstays
  · exact .inr (.inl (hs ▸ hle))
  · exact .inr (.inr (hk.not_consumes (Pc.stored_of_awaits ha) hfalse))

theorem Within.insert (hw : Within hotel p) (ht : p.threads[k]? = some t) (hpc : t.pc = .insert)
    (hset : p'.threads = p.threads.set k t') (hsale : t'.sale = t.sale)
    (hins : p.store.insertOne t.sale.booking = some p'.store)
    (hnew : ∀ c, hotel.sets c → t'.pc.awaits c = false →
      c.counts hotel t.sale.booking.toTerms = false) : Within hotel p' := by
  intro c n hc hn
  obtain ⟨hrows, hfresh⟩ := insertOne_rows hins
  have hnone : settled hotel p' c t.sale.booking = false := by
    rw [Bool.eq_false_iff]
    intro hs
    obtain ⟨hcons, hthreads⟩ := settled_iff.mp hs
    have hfalse := hthreads t' (hset ▸ Program.self_mem_set ht t') (by rw [hsale])
    simp only [Cap.consumes, hnew c hc hfalse, Bool.and_false] at hcons
    cases hcons
  have hold : p.store.rows.countP (settled hotel p' c) ≤ p.store.rows.countP (settled hotel p c) :=
    countP_mono_left fun b _ hs =>
      settled_before ht hset rfl hs (settled_iff.mp hs).1 fun _ => by rw [hpc]; rfl
  have hbound := hw c n hc hn
  rw [hrows, countP_append, countP_singleton, hnone]
  simp only [Bool.false_eq_true, if_false]
  omega

end Step

/-- One step keeps the caps. -/
theorem within_advance {k : ℕ} (hw : Within hotel p) (hk : Kept p.store t)
    (ht : p.threads[k]? = some t) (hset : p'.threads = p.threads.set k { t with pc := pc' })
    (hc : t.sale.Rechecks hotel p.store o t.pc)
    (h : advance hotel p.store t o = some (p'.store, pc')) : Within hotel p' := by
  have hfails : t.pc = .insert → p.store = p'.store → Within hotel p' := by
    intro hpc hs
    refine hw.recount hk hs.symm ht hset rfl fun c n _ _ ha => ?_
    rw [hpc] at ha
    cases ha
  have hadv := h
  unfold advance at h
  cases hpc : t.pc <;> simp only [hpc] at h hc
  case insert =>
    split at h
    · exact hfails hpc (Prod.mk.inj (Option.some.inj h)).1
    · split at h
      · exact hfails hpc (Prod.mk.inj (Option.some.inj h)).1
      · rename_i s₁ hins
        obtain ⟨rfl, rfl⟩ := Prod.mk.inj (Option.some.inj h)
        refine hw.insert ht hpc hset rfl hins fun c hsets ha => ?_
        cases hch : t.sale.channel with
        | portal =>
          rw [if_pos hch] at ha
          cases ha
        | marketplace =>
          cases c with
          | row r =>
            rw [if_neg (by rw [hch]; decide)] at ha
            cases ha
          | night a date => exact hc hch a hsets.1 date hsets.2
  case legacy =>
    -- the nights of allotments are passed here, the rows are still to be found
    obtain ⟨hs, hfind | hroll, hnights⟩ := legacy_recount hpc hc hadv
    · refine hw.recount hk hs ht hset rfl fun c n hsets hn _ => ?_
      cases c with
      | row r => exact .inl (by rw [hfind]; rfl)
      | night a date =>
        cases hn
        cases hcounts : (Cap.night a date).counts hotel t.sale.booking.toTerms
        · exact .inr (.inr rfl)
        · exact .inr (.inl (hnights a hsets.1 date hsets.2 hfind hcounts))
    · exact hw.recount hk hs ht hset rfl fun c n _ _ _ => .inl (by rw [hroll]; rfl)
  case find =>
    obtain ⟨hs, rfl⟩ := Prod.mk.inj (Option.some.inj h)
    refine hw.recount hk hs.symm ht hset rfl fun c n hsets hn ha => ?_
    cases c with
    | night a date => rw [hpc] at ha; cases ha
    | row r =>
      cases hcounts : (Cap.row r).counts hotel t.sale.booking.toTerms
      · exact .inr (.inr rfl)
      · refine .inl (contains_iff_mem.mpr (hc r hsets ?_ hcounts))
        intro hnone
        cases hn.symm.trans hnone
  case rows rest =>
    cases rest with
    | nil =>
      obtain ⟨hs, rfl⟩ := Prod.mk.inj (Option.some.inj h)
      refine hw.recount hk hs.symm ht hset rfl fun c n _ _ ha => ?_
      rw [hpc] at ha
      cases c <;> cases ha
    | cons r rest =>
      obtain ⟨hs, hpc'⟩ := Prod.mk.inj (Option.some.inj h)
      refine hw.recount hk hs.symm ht hset rfl fun c n hsets hn ha => ?_
      cases hover : rowOverrun p.store t.sale.booking.toTerms r
      · rw [if_neg (by rw [hover]; decide)] at hpc'
        subst hpc'
        cases c with
        | night a date => rw [hpc] at ha; cases ha
        | row r' =>
          rw [hpc] at ha
          simp only [Pc.awaits, contains_iff_mem, mem_cons] at ha
          obtain rfl | hrest := ha
          · cases hcounts : (Cap.row r').counts hotel t.sale.booking.toTerms
            · exact .inr (.inr rfl)
            · exact .inr (.inl (sold_row_le hcounts hn hc hover))
          · exact .inl (contains_iff_mem.mpr hrest)
      · rw [if_pos hover] at hpc'
        subst hpc'
        exact .inl rfl
  case rollback =>
    obtain ⟨hs, rfl⟩ := Prod.mk.inj (Option.some.inj h)
    refine hw.step (hs ▸ rollback_retains _ _) ht hset rfl fun c n _ _ _ => .inr (.inr ?_)
    intro b hb hid
    have hterms := hk.terms (by rw [hpc]; rfl) hb hid
    have htenant : b.tenantId = t.sale.booking.tenantId := congrArg Terms.tenantId hterms
    rw [if_pos ⟨hid, htenant⟩]
    rfl
  case returned => cases h

/-- Every state of a run whose sales recount what counts their bookings is within the caps,
the unsettled bookings apart. -/
theorem reach_within (h : (sales hotel).machine.Reach (Rechecked hotel) p) : Within hotel p := by
  refine sales_kept.reach_pool (fun p h₀ c n hc hn => ?_) (fun p a p' hi hw hc hn => ?_) h
  · have hinit := h₀.1 c n hc hn
    have hle : p.store.rows.countP (settled hotel p c) ≤ sold hotel c p.store :=
      countP_settled_le_sold
    omega
  · cases a with
    | env e =>
      obtain ⟨he, hthreads⟩ := Program.next_env hn
      have hret : Retains p.store p'.store _ := Option.some.inj he ▸ e.retains
      intro c n hsets hbound
      have hle : p'.store.rows.countP (settled hotel p' c) ≤
          p.store.rows.countP (settled hotel p c) := by
        refine countP_settled_le hret fun b _ hb => ?_
        rw [settled_iff] at hb ⊢
        rw [hthreads, hret.key] at hb
        exact ⟨hret.consumes hb.1, hb.2⟩
      have := hw c n hsets hbound
      omega
    | call q =>
      obtain ⟨t, ht, hs, hthreads⟩ := Program.next_call hn
      cases ht
      intro c n hsets hbound
      have hle : p'.store.rows.countP (settled hotel p' c) ≤
          p.store.rows.countP (settled hotel p c) := by
        rw [hs]
        refine countP_mono_left fun b _ hb => ?_
        rw [settled_iff] at hb ⊢
        rw [hthreads] at hb
        exact ⟨hb.1, fun u hu => hb.2 u (mem_append_left _ hu)⟩
      have := hw c n hsets hbound
      omega
    | step k o =>
      obtain ⟨t, t', ht, hstep, hthreads⟩ := Program.next_step hn
      obtain ⟨⟨s₁, pc'⟩, hadv, heq⟩ := Option.map_eq_some_iff.mp hstep
      cases heq
      exact within_advance hw (hi.thread k t ht) ht hthreads (hc t ht) hadv

/-- Once all sales have finished, no cap is exceeded. -/
theorem allotments_respected {p : Pool Bookings Thread}
    (h : (sales hotel).machine.Reach (Rechecked hotel) p)
    (hdone : ∀ t ∈ p.threads, t.finished = true) (hc : hotel.sets c) {n : ℤ}
    (hn : c.bound = some n) : (sold hotel c p.store : ℤ) ≤ n := by
  have hsettled : sold hotel c p.store ≤ p.store.rows.countP (settled hotel p c) := by
    refine countP_mono_left fun b _ hb => settled_iff.mpr ⟨hb, fun t ht _ => ?_⟩
    have hfin := hdone t ht
    simp only [Thread.finished] at hfin
    split at hfin
    · rename_i hpc
      rw [hpc]
      rfl
    · cases hfin
  have := reach_within h c n hc hn
  omega

/-! ### Two sales -/

instance {q : Sale} {daysUntil : ℤ} {a : Allotment} : Decidable (CoversNight hotel q daysUntil a) := by
  unfold CoversNight
  infer_instance

instance {q : Sale} {o : Chance} {pc : Pc} : Decidable (q.Rechecks hotel s o pc) := by
  rcases pc with _ | _ | _ | (_ | _) | _ | _ <;> unfold Sale.Rechecks <;> infer_instance

instance {p : Pool Bookings Thread} {a : Act StatusChange Sale Chance} :
    Decidable (Rechecked hotel p a) := by
  rcases a with _ | _ | _ <;> unfold Rechecked <;> infer_instance

def oneRoomLeft : Hotel where
  calendar := [⟨0, 0, 0, .value (.code 1), 20, some 1⟩]
  allotments := [⟨0, 0, 0, 19, 22, 0, 1⟩]
  rooms := [⟨0, 0, 0⟩, ⟨1, 0, 0⟩]

def sellRoom (room : ℕ) (plan : Field Plan) (channel : Channel) : Sale where
  booking :=
    { tenantId := 0, agencyId := some 0, roomId := room, roomType := 0, ratePlanCode := plan
      checkIn := ⟨20, "T14:00:00"⟩, checkOut := ⟨21, "T11:00:00"⟩, id := room, status := .confirmed }
  channel := channel
  roomIds := [0, 1]

/-- Two sales meet between their inserts and their recounts: the first is rolled back. -/
def bothInserted : List (Act StatusChange Sale Chance) :=
  [.call (sellRoom 0 (.value (.code 1)) .portal), .call (sellRoom 1 (.value (.code 1)) .portal),
    .step 0 {}, .step 1 {}, .step 0 {}, .step 0 {}, .step 1 {}, .step 1 {}, .step 1 {}, .step 1 {}]

/-- An empty hotel of that kind is within its caps. -/
theorem oneRoomLeft_init (allotments : List Allotment)
    (h : ∀ a ∈ allotments, a.allotmentCount = 1) :
    (sales { oneRoomLeft with allotments := allotments }).machine.init ⟨.empty, []⟩ := by
  refine ⟨fun c n hc hn => ?_, rfl⟩
  have hone : c.bound = some 1 := by
    cases c with
    | row r =>
      obtain rfl := mem_singleton.mp hc
      rfl
    | night a date => exact congrArg some (h a hc.1)
  rw [hn] at hone
  cases hone
  exact Int.zero_le_ofNat 1

def soldOnRow (hotel : Hotel) (p : Pool Bookings Thread) : Bool × ℕ :=
  (p.threads.all Thread.finished, sold hotel (.row ⟨0, 0, 0, .value (.code 1), 20, some 1⟩) p.store)

theorem allotments_respected_race :
    ∃ p, (sales oneRoomLeft).machine.Reach (Rechecked oneRoomLeft) p ∧
      sold oneRoomLeft (.row ⟨0, 0, 0, .value (.code 1), 20, some 1⟩) p.store = 1 ∧
      (sold oneRoomLeft (.row ⟨0, 0, 0, .value (.code 1), 20, some 1⟩) p.store : ℤ) ≤ 1 := by
  have hinit := oneRoomLeft_init oneRoomLeft.allotments
    fun a ha => mem_singleton.mp ha ▸ rfl
  obtain ⟨p, hp, hv⟩ := Machine.exists_reach_of_runUnder (C := Rechecked oneRoomLeft)
    (f := soldOnRow oneRoomLeft) (v := (true, 1)) bothInserted hinit (by decide +kernel)
  obtain ⟨hdone, hsold⟩ := Prod.mk.inj hv
  have hfin : ∀ t ∈ p.threads, t.finished = true := all_eq_true.mp hdone
  exact ⟨p, hp, hsold, allotments_respected hp hfin mem_cons_self rfl⟩

/-- A booking without a plan is counted by the row of every plan and rechecks none of them. -/
theorem oversold_without_plan :
    ¬ ∀ (hotel : Hotel) (p : Pool Bookings Thread) (c : Cap) (n : ℤ),
        (sales hotel).machine.Reachable p → (∀ t ∈ p.threads, t.finished = true) →
          hotel.sets c → c.bound = some n → (sold hotel c p.store : ℤ) ≤ n := by
  intro h
  obtain ⟨p, hp, hv⟩ := Machine.exists_reachable_of_run
    (f := soldOnRow { oneRoomLeft with allotments := [] }) (v := (true, 2))
    [.call (sellRoom 0 (.value (.code 1)) .portal), .step 0 {}, .step 0 {}, .step 0 {}, .step 0 {},
      .step 0 {}, .call (sellRoom 1 .missing .portal), .step 1 {}, .step 1 {}, .step 1 {},
      .step 1 {}]
    (oneRoomLeft_init [] fun _ ha => absurd ha not_mem_nil)
    (by decide +kernel)
  obtain ⟨hdone, hsold⟩ := Prod.mk.inj hv
  have hle := h _ p (.row _) 1 hp (all_eq_true.mp hdone) mem_cons_self rfl
  rw [hsold] at hle
  exact absurd hle (by decide)

end SyrocePms.Agency
