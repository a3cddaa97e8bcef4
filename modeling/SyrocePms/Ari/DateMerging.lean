import SyrocePms.Ari.DurableBuffer

/-! What a coalesced batch assigns to the days, beside what its events ask for in the order of
their arrival. -/

namespace SyrocePms.Ari.Coalescer

open Lib List

/-- What a value is for, apart from the day and the provider. -/
structure Place where
  tenant : ℕ
  property : ℕ
  room : ℕ
  ratePlan : Option ℕ
  scope : Scope
  deriving DecidableEq

def Event.place (e : Event) : Place := ⟨e.tenant, e.property, e.room, e.ratePlan, e.type⟩

def ChangeSet.place (c : ChangeSet) : Place := ⟨c.tenant, c.property, c.room, c.ratePlan, c.scope⟩

/-- What the events ask for, the later ones over the earlier ones. -/
def requested (events : List Event) (place : Place) (d : ℤ) : Option (String → Option Json) :=
  Span.valueAt Dict.get? ((events.filter fun e => e.place = place).map Event.span) d

def assigned (sets : List ChangeSet) (provider : Provider) (place : Place) (d : ℤ) :
    Option (String → Option Json) :=
  Span.valueAt Dict.get? ((sets.filter fun c => c.provider = provider ∧ c.place = place).map ChangeSet.span) d

variable {P : Python}
variable {events rest : List Event} {d : ℤ} {key : Key} {ref : Event} {active : List Provider}
  {sets : List ChangeSet} {c : ChangeSet}

/-! ### Ranges -/

theorem pairwise_sortedEvents (events : List Event) :
    ((events.insertionSort fun e e' => e.dateFrom ≤ e'.dateFrom).map Event.span).Pairwise
      fun s t => s.first ≤ t.first := by
  have htotal : Std.Total fun e e' : Event => e.dateFrom ≤ e'.dateFrom := ⟨fun e e' => le_total _ _⟩
  have htrans : IsTrans Event fun e e' => e.dateFrom ≤ e'.dateFrom := ⟨fun _ _ _ => le_trans⟩
  exact pairwise_map.mpr (pairwise_insertionSort _ _)

theorem valueAt_mergeDateRanges {γ : Type*} {f : Payload → γ} (hhash : ∀ e ∈ events, ∀ e' ∈ events,
      P.deltaHash e.payload = P.deltaHash e'.payload → f e.payload = f e'.payload) (d : ℤ) :
    Span.valueAt f (mergeDateRanges P events) d =
      Span.valueAt f (((deduplicateByDateRange events).insertionSort fun e e' =>
        e.dateFrom ≤ e'.dateFrom).map Event.span) d := by
  have hsorted := pairwise_sortedEvents (deduplicateByDateRange events)
  have hmem : ∀ e ∈ (deduplicateByDateRange events).insertionSort fun e e' => e.dateFrom ≤ e'.dateFrom,
      e ∈ events := fun e he => Dict.mem_of_mem_lastPerKey ((mem_insertionSort _).mp he)
  unfold mergeDateRanges
  split
  · rename_i hnil
    rw [hnil]
    rfl
  · rename_i e rest hcons
    rw [hcons] at hsorted hmem ⊢
    refine Span.valueAt_join (fun t ht u hu heq => ?_) hsorted d
    rw [← map_cons] at ht hu
    obtain ⟨x, hx, rfl⟩ := mem_map.mp ht
    obtain ⟨y, hy, rfl⟩ := mem_map.mp hu
    exact hhash x (hmem x hx) y (hmem y hy) (of_decide_eq_true heq)

theorem exists_event_of_covers {s : Span Payload} (hs : s ∈ mergeDateRanges P events)
    (hd : s.covers d = true) : ∃ e ∈ events, e.span.covers d = true := by
  by_contra hnone
  have hdates : Span.valueAt (fun _ => ()) (mergeDateRanges P events) d = none := by
    rw [valueAt_mergeDateRanges (fun _ _ _ _ _ => rfl), Span.valueAt_eq_none]
    intro t ht
    obtain ⟨e, he, rfl⟩ := mem_map.mp ht
    have hevent : e ∈ events := Dict.mem_of_mem_lastPerKey ((mem_insertionSort _).mp he)
    cases hcov : e.span.covers d with
    | false => rfl
    | true => exact absurd ⟨e, hevent, hcov⟩ hnone
  have hfalse := Span.valueAt_eq_none.mp hdates s hs
  rw [hd] at hfalse
  cases hfalse

theorem valueAt_mergeDateRanges_of_ordered {γ : Type*} {f : Payload → γ}
    (hhash : ∀ e ∈ events, ∀ e' ∈ events,
      P.deltaHash e.payload = P.deltaHash e'.payload → f e.payload = f e'.payload)
    (hordered : Span.Ordered f (events.map Event.span)) (d : ℤ) :
    Span.valueAt f (mergeDateRanges P events) d = Span.valueAt f (events.map Event.span) d := by
  rw [valueAt_mergeDateRanges hhash]
  refine Span.valueAt_sorted ?_ ?_ ?_ (pairwise_sortedEvents _) hordered d
  · intro s hs
    obtain ⟨e, he, rfl⟩ := mem_map.mp hs
    exact mem_map_of_mem (Dict.mem_of_mem_lastPerKey ((mem_insertionSort _).mp he))
  · intro l₁ s l₂ hsplit hlater
    obtain ⟨before, after, rfl, rfl, hafter⟩ := map_eq_append_iff.mp hsplit
    obtain ⟨e, rest, rfl, rfl, rfl⟩ := map_eq_cons_iff.mp hafter
    refine mem_map_of_mem ((mem_insertionSort _).mpr (Dict.mem_lastPerKey_of_last ?_))
    exact fun e' he' => hlater e'.span (mem_map_of_mem he')
  · intro s hs t ht hrange
    obtain ⟨e, he, rfl⟩ := mem_map.mp hs
    obtain ⟨e', he', rfl⟩ := mem_map.mp ht
    have heq := Dict.eq_of_mem_lastPerKey ((mem_insertionSort _).mp he) ((mem_insertionSort _).mp he') hrange
    rw [heq]

/-! ### Change sets -/

theorem valueAt_flatMap_providers {γ : Type*} {f : Payload → γ} {ranges : List (Span Payload)}
    {providers : List Provider} {provider : Provider} (h : provider ∈ providers) (d : ℤ) :
    Span.valueAt f (((providers.flatMap fun q => ranges.map (changeSet P key ref q)).filter fun c =>
      c.provider = provider ∧ c.place = ref.place).map ChangeSet.span) d = Span.valueAt f ranges d := by
  have hone : ∀ q, ((ranges.map (changeSet P key ref q)).filter fun c =>
      c.provider = provider ∧ c.place = ref.place).map ChangeSet.span = if q = provider then ranges else [] := by
    intro q
    rw [filter_map, map_map]
    by_cases hq : q = provider
    · rw [if_pos hq, filter_eq_self.mpr]
      · exact map_id ranges
      · intro s _
        simp [hq, changeSet, ChangeSet.place, Event.place]
    · rw [if_neg hq, filter_eq_nil_iff.mpr]
      · rfl
      · intro s _
        simp [hq, changeSet]
  induction providers with
  | nil => cases h
  | cons q providers ih =>
    rw [flatMap_cons, filter_append, map_append, Span.valueAt_append, hone]
    by_cases hmem : provider ∈ providers
    · rw [ih hmem]
      split
      · rw [Option.or_self]
      · rw [Span.valueAt_nil, Option.or_none]
    · have hq : q = provider := ((mem_cons.mp h).resolve_right hmem).symm
      have hnone : Span.valueAt f (((providers.flatMap fun q => ranges.map (changeSet P key ref q)).filter
          fun c => c.provider = provider ∧ c.place = ref.place).map ChangeSet.span) d = none := by
        rw [Span.valueAt_eq_none]
        intro s hs
        obtain ⟨c, hc, rfl⟩ := mem_map.mp hs
        obtain ⟨hc, hfor⟩ := mem_filter.mp hc
        obtain ⟨q', hq', hc⟩ := mem_flatMap.mp hc
        obtain ⟨s, -, rfl⟩ := mem_map.mp hc
        have hprovider : q' = provider := (of_decide_eq_true hfor).1
        rw [hprovider] at hq'
        exact absurd hq' hmem
      rw [hnone, Option.none_or, if_pos hq]

theorem place_of_mem (h : coalesceEvents P key (ref :: rest) active = some sets) (hc : c ∈ sets) :
    c.place = ref.place ∧ ∃ ranges, mergedRanges P ref (ref :: rest) = some ranges ∧
      c.span ∈ ranges := by
  rw [coalesceEvents, Option.map_eq_some_iff] at h
  obtain ⟨ranges, hranges, rfl⟩ := h
  obtain ⟨q, -, hc⟩ := mem_flatMap.mp hc
  obtain ⟨s, hs, rfl⟩ := mem_map.mp hc
  exact ⟨rfl, ranges, hranges, hs⟩

theorem exists_event_of_set (h : coalesceEvents P key events active = some sets) (hc : c ∈ sets)
    (hd : c.span.covers d = true) : ∃ e ∈ events, e.span.covers d = true := by
  cases events with
  | nil =>
    cases h
    cases hc
  | cons ref rest =>
    obtain ⟨-, ranges, hranges, hmem⟩ := place_of_mem h hc
    unfold mergedRanges at hranges
    split at hranges
    · obtain ⟨p, -, rfl⟩ := Option.map_eq_some_iff.mp hranges
      rw [mem_singleton.mp hmem] at hd
      exact ⟨ref, mem_cons_self, hd⟩
    · cases hranges
      exact exists_event_of_covers hmem hd

theorem assigned_eq_none (h : coalesceEvents P key (ref :: rest) active = some sets) {place : Place}
    (hplace : place ≠ ref.place) (provider : Provider) (d : ℤ) :
    assigned sets provider place d = none := by
  rw [assigned, Span.valueAt_eq_none]
  intro s hs
  obtain ⟨c, hc, rfl⟩ := mem_map.mp hs
  obtain ⟨hmem, hfor⟩ := mem_filter.mp hc
  exact absurd ((of_decide_eq_true hfor).2.symm.trans (place_of_mem h hmem).1) hplace

/-- Events of one place, without collisions of the hash, of which a later one begins later than
those that it overlaps, or has their days or their payload. -/
structure Aligned (P : Python) (ref : Event) (rest : List Event) : Prop where
  place : ∀ e ∈ rest, e.place = ref.place
  hash : ∀ e ∈ ref :: rest, ∀ e' ∈ ref :: rest,
    P.deltaHash e.payload = P.deltaHash e'.payload → e.payload.get? = e'.payload.get?
  ordered : Span.Ordered Dict.get? ((ref :: rest).map Event.span)

theorem assigned_of_aligned (hscope : ref.type ≠ .restriction) (h : Aligned P ref rest) :
    ∃ sets, coalesceEvents P key (ref :: rest) active = some sets ∧
      ∀ provider ∈ providersFor ref.target active, ∀ place d,
        assigned sets provider place d = requested (ref :: rest) place d := by
  have hplaces : ∀ e ∈ ref :: rest, e.place = ref.place := forall_mem_cons.mpr ⟨rfl, h.place⟩
  have hsets : coalesceEvents P key (ref :: rest) active = some ((providersFor ref.target active).flatMap
      fun q => (mergeDateRanges P (ref :: rest)).map (changeSet P key ref q)) := by
    rw [coalesceEvents, mergedRanges, if_neg hscope]
    rfl
  refine ⟨_, hsets, fun provider hprovider place d => ?_⟩
  by_cases hplace : place = ref.place
  · subst hplace
    have hall : ((ref :: rest).filter fun e => e.place = ref.place) = ref :: rest :=
      filter_eq_self.mpr fun e he => decide_eq_true (hplaces e he)
    rw [assigned, valueAt_flatMap_providers hprovider, requested, hall]
    exact valueAt_mergeDateRanges_of_ordered h.hash h.ordered d
  · have hnone : ((ref :: rest).filter fun e => e.place = place) = [] := by
      refine filter_eq_nil_iff.mpr fun e he hfor => hplace ?_
      rw [← of_decide_eq_true hfor, hplaces e he]
    rw [requested, hnone, assigned_eq_none hsets hplace]
    rfl

theorem assigned_of_restrictions (hscope : ref.type = .restriction)
    (h : ∀ e ∈ rest, coalescingKey P e = coalescingKey P ref) :
    ∃ sets value, coalesceEvents P key (ref :: rest) active = some sets ∧
      (∀ provider ∈ providersFor ref.target active, ∀ place d, assigned sets provider place d =
        if place = ref.place ∧ ref.span.covers d = true then some value else none) ∧
      value "stop_sell" = stopSell ((ref :: rest).map Event.payload) ∧
        ∀ k ∈ latestKeys, value k = lastValue (fun e : Event => e.payload.get? k) (ref :: rest) := by
  have hsplit := dropLast_append_getLast (cons_ne_nil ref rest)
  have hkeyed : ∀ e ∈ (ref :: rest).dropLast ++ [(ref :: rest).getLast (cons_ne_nil ref rest)],
      coalescingKey P e = coalescingKey P ref := by
    rw [hsplit]
    exact forall_mem_cons.mpr ⟨rfl, h⟩
  have htype : ((ref :: rest).getLast (cons_ne_nil ref rest)).type = .restriction := by
    rw [← hscope]
    exact congrArg Key.scope (hkeyed _ (by simp))
  obtain ⟨s, hranges, hfirst, hlast, hvalue⟩ := mergedRanges_of_keyed hkeyed rfl
  rw [hsplit] at hranges hvalue
  rw [settled, if_pos htype] at hvalue
  have hsets : coalesceEvents P key (ref :: rest) active = some ((providersFor ref.target active).flatMap
      fun q => [s].map (changeSet P key ref q)) := by
    rw [coalesceEvents, hranges]
    rfl
  refine ⟨_, s.value.get?, hsets, fun provider hprovider place d => ?_, ?_, fun k hk => ?_⟩
  · by_cases hplace : place = ref.place
    · subst hplace
      rw [assigned, valueAt_flatMap_providers hprovider, Span.valueAt_cons, Span.valueAt_nil, Option.none_or,
        Span.covers_eq_of_range (Prod.ext hfirst hlast : s.range = ref.span.range)]
      simp
    · rw [assigned_eq_none hsets hplace, if_neg fun hand => hplace hand.1]
  · rw [hvalue, merged, if_pos rfl]
  · rw [hvalue, merged, if_neg, if_pos hk, lastValue, lastValue, filterMap_map]
    · rfl
    · rintro rfl
      exact absurd hk (by decide)

/-- A batch assigns nothing to foreign days. Availability and rates have the values of the last
events, and restrictions are merged. -/
theorem coalesced_values (P : Python) (key : Key) (active : List Provider) (ref : Event) (rest : List Event) :
    (∀ sets, coalesceEvents P key (ref :: rest) active = some sets → ∀ c ∈ sets, ∀ d,
      c.span.covers d = true → ∃ e ∈ ref :: rest, e.span.covers d = true) ∧
    (ref.type ≠ .restriction → Aligned P ref rest →
      ∃ sets, coalesceEvents P key (ref :: rest) active = some sets ∧
        ∀ provider ∈ providersFor ref.target active, ∀ place d,
          assigned sets provider place d = requested (ref :: rest) place d) ∧
    (ref.type = .restriction → (∀ e ∈ rest, coalescingKey P e = coalescingKey P ref) →
      ∃ sets value, coalesceEvents P key (ref :: rest) active = some sets ∧
        (∀ provider ∈ providersFor ref.target active, ∀ place d, assigned sets provider place d =
          if place = ref.place ∧ ref.span.covers d = true then some value else none) ∧
        value "stop_sell" = stopSell ((ref :: rest).map Event.payload) ∧
          ∀ k ∈ latestKeys, value k = lastValue (fun e : Event => e.payload.get? k) (ref :: rest)) :=
  ⟨fun _ hsets _ hc _ hd => exists_event_of_set hsets hc hd, assigned_of_aligned, assigned_of_restrictions⟩

def closedThenOpened : List Event :=
  [restrictionOf (Dict.empty.update "stop_sell" fun _ => .bool true),
    restrictionOf (Dict.empty.update "stop_sell" fun _ => .bool false)]

/-- They are still closed after coalescing. -/
theorem not_requested_closedThenOpened :
    ¬ ∀ (P : Python) (key : Key) (active : List Provider) (events : List Event) (sets : List ChangeSet),
      coalesceEvents P key events active = some sets → ∀ provider ∈ active, ∀ place d,
        assigned sets provider place d = requested events place d := by
  intro h
  have hclosed : (coalesceEvents plainRuntime closedThenMinimum.key closedThenOpened [.hotelrunner]).any
      (fun sets => closing (assigned sets .hotelrunner (restrictionOf Dict.empty).place 10)) = true := by
    decide +kernel
  have hopened : closing (requested closedThenOpened (restrictionOf Dict.empty).place 10) = false := by
    decide +kernel
  cases hsets : coalesceEvents plainRuntime closedThenMinimum.key closedThenOpened [.hotelrunner] with
  | none =>
    rw [hsets] at hclosed
    cases hclosed
  | some sets =>
    rw [hsets, Option.any_some, h plainRuntime _ _ _ sets hsets .hotelrunner mem_cons_self, hopened] at hclosed
    cases hclosed

end SyrocePms.Ari.Coalescer
