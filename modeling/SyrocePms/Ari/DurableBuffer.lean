import SyrocePms.Ari.Coalescer

/-! Publishing events one by one, each into the stored change set of its key, beside coalescing
them in one batch. A stored payload is replaced, and the payloads of a batch of restrictions are
merged. -/

namespace SyrocePms.Ari.Coalescer

open Lib List

/-! ### Stored change sets -/

structure Row where
  set : ChangeSet
  status : SetStatus := .pending

namespace Row

/-- The row is found by `upsert_change_set` under a key. -/
def isFor (provider : Provider) (key : Key) (r : Row) : Bool :=
  r.set.provider = provider && r.set.key = key && r.status.mergeable

/-- The update of `upsert_change_set`. -/
def merge (c : ChangeSet) (r : Row) : Row where
  set := { r.set with
    payload := c.payload
    deltaHash := c.deltaHash
    dateFrom := c.dateFrom
    dateTo := c.dateTo }
  status := .pending

end Row

def upsertChangeSet (c : ChangeSet) : List Row → List Row
  | [] => [{ set := c }]
  | r :: rows =>
    if r.isFor c.provider c.key then r.merge c :: rows else r :: upsertChangeSet c rows

def effective (rows : List Row) (provider : Provider) (key : Key) (d : ℤ) : Option (String → Option Json) :=
  (rows.find? (Row.isFor provider key)).bind fun r =>
    if r.set.span.covers d then some r.set.payload.get? else none

def compacted (sets : List ChangeSet) (provider : Provider) (d : ℤ) : Option (String → Option Json) :=
  Span.valueAt Dict.get? ((sets.filter fun c => c.provider = provider).map ChangeSet.span) d

variable (P : Python)
variable {provider : Provider} {key : Key} {providers : List Provider} {op : String}
  {payloads : List Payload} {ref : Event} {events : List Event}

def publishAriEvent (active : List Provider) (rows : List Row) (e : Event) : Option (List Row) :=
  (coalesceEvents P (coalescingKey P e) [e] (providersFor e.target active)).map fun sets =>
    sets.foldl (fun rows c => upsertChangeSet c rows) rows

def publishAll (active : List Provider) (events : List Event) (rows : List Row) : Option (List Row) :=
  events.foldlM (publishAriEvent P active) rows

/-- Events of one coalescing key. -/
structure Batch where
  key : Key
  events : List Event
  nonempty : events ≠ []
  keyed : ∀ e ∈ events, coalescingKey P e = key

def Batch.last (b : Batch P) : Event := b.events.getLast b.nonempty

/-- Publishing a batch event by event leaves what coalescing it makes. -/
def Agrees (active : List Provider) (rows : List Row) (b : Batch P) : Prop :=
  ∃ sets rows', coalesceEvents P b.key b.events active = some sets ∧
    publishAll P active b.events rows = some rows' ∧
      ∀ provider ∈ providersFor b.key.target active, ∀ d,
        effective rows' provider b.key d = compacted sets provider d

/-- The last payload has what an earlier one sets: the keys of the restrictions, the closing of
sales and the resend token. -/
structure Kept (p last : Payload) : Prop where
  keys : ∀ k ∈ "stop_sell" :: latestKeys, states p k = true → states last k = true
  closed : closes p = true → closes last = true
  token : (given p "force_resend_token").isSome = true → (given last "force_resend_token").isSome = true

/-! ### The rows -/

theorem find?_upsertChangeSet (c : ChangeSet) (rows : List Row) :
    ∃ r, (upsertChangeSet c rows).find? (Row.isFor c.provider c.key) = some r ∧ r.set.span = c.span := by
  induction rows with
  | nil => exact ⟨{ set := c }, by simp [upsertChangeSet, Row.isFor, SetStatus.mergeable], rfl⟩
  | cons r rows ih =>
    rw [upsertChangeSet]
    cases hr : r.isFor c.provider c.key with
    | true =>
      refine ⟨r.merge c, ?_, rfl⟩
      have hmerge : (r.merge c).isFor c.provider c.key = true := by
        simp only [Row.isFor, Bool.and_eq_true] at hr ⊢
        exact ⟨hr.1, rfl⟩
      rw [if_pos rfl, find?_cons, hmerge]
    | false => simpa [find?_cons, hr] using ih

theorem find?_upsertChangeSet_of_ne {c : ChangeSet} (h : c.provider ≠ provider) (rows : List Row) :
    (upsertChangeSet c rows).find? (Row.isFor provider key) = rows.find? (Row.isFor provider key) := by
  induction rows with
  | nil => simp [upsertChangeSet, Row.isFor, h]
  | cons r rows ih =>
    rw [upsertChangeSet]
    cases hr : r.isFor c.provider c.key with
    | true =>
      have hprovider : r.set.provider = c.provider := by
        simp only [Row.isFor, Bool.and_eq_true, decide_eq_true_eq] at hr
        exact hr.1.1
      have hold : r.isFor provider key = false := by simp [Row.isFor, hprovider, h]
      have hnew : (r.merge c).isFor provider key = false := by simp [Row.isFor, Row.merge, hprovider, h]
      rw [if_pos rfl, find?_cons, find?_cons, hold, hnew]
    | false => simp [find?_cons, ih]

theorem find?_foldl_upsert (key : Key) (ref : Event) (s : Span Payload) (h : provider ∈ providers)
    (rows : List Row) :
    ∃ r, ((providers.map fun q => changeSet P key ref q s).foldl (fun rows c => upsertChangeSet c rows)
      rows).find? (Row.isFor provider key) = some r ∧ r.set.span = s := by
  induction providers using List.reverseRecOn with
  | nil => cases h
  | append_singleton providers q ih =>
    rw [map_append, foldl_append, map_singleton, foldl_cons, foldl_nil]
    by_cases hq : q = provider
    · subst hq
      exact find?_upsertChangeSet (changeSet P key ref q s) _
    · rw [find?_upsertChangeSet_of_ne hq]
      refine ih ?_
      rcases mem_append.mp h with h | h
      · exact h
      · exact absurd (mem_singleton.mp h).symm hq

/-! ### Batches of one key -/

variable {P}

theorem operations_eq (h : ∀ p ∈ payloads, ((given p "operation").map P.str).getD "" = op) :
    (payloads.filterMap (given · "operation")).map P.str =
      if op = "" then [] else List.replicate payloads.length op := by
  induction payloads with
  | nil => simp
  | cons p payloads ih =>
    have hp := h p mem_cons_self
    have hrest := ih fun q hq => h q (mem_cons_of_mem p hq)
    cases hgiven : given p "operation" with
    | none =>
      have hop : op = "" := by simpa [hgiven] using hp.symm
      simpa [hgiven, hop] using hrest
    | some v =>
      have hstr : P.str v = op := by simpa [hgiven] using hp
      have hne : op ≠ "" := by
        rw [← hstr]
        exact P.str_ne v (Option.filter_eq_some_iff.mp hgiven).2
      rw [if_neg hne] at hrest ⊢
      simp only [filterMap_cons, hgiven, map_cons, hrest, hstr, length_cons, replicate_succ]

theorem dedup_operations_eq (hne : payloads ≠ [])
    (h : ∀ p ∈ payloads, ((given p "operation").map P.str).getD "" = op) :
    ((payloads.filterMap (given · "operation")).map P.str).dedup = if op = "" then [] else [op] := by
  rw [operations_eq h]
  split
  · rfl
  · exact replicate_dedup (by simpa using hne)

theorem exists_applyRestrictionPrecedence (hne : payloads ≠ [])
    (h : ∀ p ∈ payloads, ((given p "operation").map P.str).getD "" = op) :
    ∃ result, applyRestrictionPrecedence P payloads = some result := by
  simp only [applyRestrictionPrecedence, dedup_operations_eq hne h]
  refine ⟨_, if_neg ?_⟩
  split <;> simp

theorem states_of_closes {p : Payload} (h : closes p = true) : states p "stop_sell" = true := by
  unfold closes at h
  unfold states
  cases hp : p.get? "stop_sell" with
  | none => simp [hp] at h
  | some v => rfl

theorem stopSell_append_singleton_eq {last : Payload} :
    stopSell [last] = stopSell (payloads ++ [last]) ↔
      ∀ p ∈ payloads, (closes p = true → closes last = true) ∧
        (states p "stop_sell" = true → states last "stop_sell" = true) := by
  simp only [stopSell, any_append, any_cons, any_nil, Bool.or_false]
  cases hcloses : closes last with
  | true => simp [states_of_closes hcloses]
  | false =>
    cases hstates : states last "stop_sell" with
    | true =>
      cases hany : payloads.any closes with
      | true => simpa using hany
      | false => simpa using hany
    | false =>
      constructor
      · intro h p hp
        have hnone : payloads.any (states · "stop_sell") = false := by
          cases hany : payloads.any (states · "stop_sell") with
          | false => rfl
          | true =>
            cases hc : payloads.any closes <;> simp [hany, hc] at h
        have hp' := any_eq_false.mp hnone p hp
        exact ⟨fun hc => absurd (states_of_closes hc) hp', fun hs => absurd hs hp'⟩
      · intro h
        have hnone : payloads.any (states · "stop_sell") = false :=
          any_eq_false.mpr fun p hp hs => by simpa using (h p hp).2 hs
        have hopen : payloads.any closes = false :=
          any_eq_false.mpr fun p hp hc => by simpa using (h p hp).1 hc
        simp [hnone, hopen]

theorem merged_append_singleton_iff {last : Payload}
    (h : ∀ p ∈ payloads ++ [last], ((given p "operation").map P.str).getD "" = op) :
    merged P [last] = merged P (payloads ++ [last]) ↔ ∀ p ∈ payloads, Kept p last := by
  have hkey : ∀ k, k ≠ "stop_sell" → k ∈ latestKeys →
      (merged P [last] k = merged P (payloads ++ [last]) k ↔
        ∀ p ∈ payloads, states p k = true → states last k = true) := by
    intro k hk hmem
    rw [merged, merged, if_neg hk, if_neg hk, if_pos hmem, if_pos hmem, eq_comm, lastValue_append_singleton_eq]
    rfl
  have htoken : merged P [last] "force_resend_token" = merged P (payloads ++ [last]) "force_resend_token" ↔
      ∀ p ∈ payloads, (given p "force_resend_token").isSome = true →
        (given last "force_resend_token").isSome = true := by
    rw [← lastValue_append_singleton_eq, eq_comm]
    rfl
  constructor
  · intro heq p hp
    have hstop := stopSell_append_singleton_eq.mp (congrFun heq "stop_sell") p hp
    refine ⟨fun k hk => ?_, hstop.1, htoken.mp (congrFun heq _) p hp⟩
    rcases mem_cons.mp hk with rfl | hk
    · exact hstop.2
    · exact (hkey k (by rintro rfl; exact absurd hk (by decide)) hk).mp (congrFun heq k) p hp
  · intro hkept
    funext k
    by_cases hk : k = "stop_sell"
    · subst hk
      exact stopSell_append_singleton_eq.mpr fun p hp =>
        ⟨(hkept p hp).closed, (hkept p hp).keys _ mem_cons_self⟩
    · by_cases hmem : k ∈ latestKeys
      · exact (hkey k hk hmem).mpr fun p hp => (hkept p hp).keys k (mem_cons_of_mem _ hmem)
      · by_cases hforce : k = "force_resend_token"
        · subst hforce
          exact htoken.mpr fun p hp => (hkept p hp).token
        · simp only [merged, if_neg hk, if_neg hmem, if_neg hforce]
          split
          · rename_i hop
            subst hop
            rw [dedup_operations_eq (by simp) h,
              dedup_operations_eq (by simp) fun p hp => h p (mem_append_right _ hp)]
          · rfl

def settled (P : Python) (events : List Event) (last : Event) : String → Option Json :=
  if last.type = .restriction then merged P (events.map Event.payload) else last.payload.get?

theorem providersFor_providersFor (target : Option Provider) (active : List Provider) :
    providersFor target (providersFor target active) = providersFor target active := by
  cases target <;> rfl

theorem mergedRanges_of_keyed {last : Event} (h : ∀ e ∈ events ++ [last], coalescingKey P e = key)
    (href : coalescingKey P ref = key) :
    ∃ s, mergedRanges P ref (events ++ [last]) = some [s] ∧ s.first = key.dateFrom ∧
      s.last = key.dateTo ∧ s.value.get? = settled P (events ++ [last]) last := by
  have hlast := h last (by simp)
  have htype : ref.type = last.type := by
    rw [← hlast] at href
    exact congrArg Key.scope href
  simp only [mergedRanges, settled, htype]
  split
  · have hops : ∀ p ∈ (events ++ [last]).map Event.payload,
        ((given p "operation").map P.str).getD "" = key.operation := by
      intro p hp
      obtain ⟨e, he, rfl⟩ := mem_map.mp hp
      exact congrArg Key.operation (h e he)
    obtain ⟨result, hresult⟩ := exists_applyRestrictionPrecedence (by simp) hops
    refine ⟨⟨ref.dateFrom, ref.dateTo, result⟩, by rw [hresult]; rfl, ?_, ?_, ?_⟩
    · exact congrArg Key.dateFrom href
    · exact congrArg Key.dateTo href
    · funext k
      exact get?_of_applyRestrictionPrecedence P hresult k
  · have hdates : ∀ e ∈ events ++ [last], (e.dateFrom, e.dateTo) = (key.dateFrom, key.dateTo) := by
      intro e he
      rw [← h e he]
      rfl
    refine ⟨last.span, ?_, congrArg Key.dateFrom hlast, congrArg Key.dateTo hlast, rfl⟩
    rw [mergeDateRanges, deduplicateByDateRange, Dict.lastPerKey_of_same hdates, getLast?_concat]
    rfl

theorem coalesceEvents_of_keyed {last : Event} (h : ∀ e ∈ events ++ [last], coalescingKey P e = key)
    (active : List Provider) : ∃ ref s, coalesceEvents P key (events ++ [last]) active =
        some ((providersFor key.target active).map fun q => changeSet P key ref q s) ∧
      s.first = key.dateFrom ∧ s.last = key.dateTo ∧
        s.value.get? = settled P (events ++ [last]) last := by
  obtain ⟨ref, rest, hcons⟩ := exists_cons_of_ne_nil (l := events ++ [last]) (by simp)
  have href : coalescingKey P ref = key := h ref (by simp [hcons])
  obtain ⟨s, hranges, hs⟩ := mergedRanges_of_keyed h href
  refine ⟨ref, s, ?_, hs⟩
  have htarget : ref.target = key.target := congrArg Key.target href
  rw [hcons] at hranges ⊢
  rw [coalesceEvents, hranges, htarget]
  simp only [Option.map_some, map_singleton]
  rw [map_eq_flatMap]

theorem publishAriEvent_of_keyed {e : Event} (h : coalescingKey P e = key) (active : List Provider)
    (rows : List Row) : ∃ rows', publishAriEvent P active rows e = some rows' ∧
      ∀ provider ∈ providersFor key.target active, ∃ r, rows'.find? (Row.isFor provider key) = some r ∧
        r.set.dateFrom = key.dateFrom ∧ r.set.dateTo = key.dateTo ∧
          r.set.payload.get? = settled P [e] e := by
  have htarget : e.target = key.target := congrArg Key.target h
  have hsingle : ∀ e' ∈ [] ++ [e], coalescingKey P e' = key := by
    intro e' he'
    rw [nil_append, mem_singleton] at he'
    rw [he', h]
  obtain ⟨ref, s, hsets, hfirst, hlast, hvalue⟩ := coalesceEvents_of_keyed hsingle (providersFor e.target active)
  rw [nil_append, htarget, providersFor_providersFor] at hsets
  refine ⟨_, by rw [publishAriEvent, h, htarget, hsets]; rfl, fun provider hprovider => ?_⟩
  obtain ⟨r, hr, hspan⟩ := find?_foldl_upsert P key ref s hprovider rows
  refine ⟨r, hr, ?_, ?_, ?_⟩
  · rw [← hfirst, ← hspan]
    rfl
  · rw [← hlast, ← hspan]
    rfl
  · rw [← nil_append [e], ← hvalue, ← hspan]
    rfl

theorem exists_publishAll (h : ∀ e ∈ events, coalescingKey P e = key) (active : List Provider)
    (rows : List Row) : ∃ rows', publishAll P active events rows = some rows' := by
  induction events generalizing rows with
  | nil => exact ⟨rows, rfl⟩
  | cons e events ih =>
    obtain ⟨rows₁, hrows₁, -⟩ := publishAriEvent_of_keyed (h e mem_cons_self) active rows
    obtain ⟨rows₂, hrows₂⟩ := ih (fun e' he' => h e' (mem_cons_of_mem e he')) rows₁
    refine ⟨rows₂, ?_⟩
    rw [publishAll, foldlM_cons, hrows₁]
    exact hrows₂

theorem effective_publishAll {last : Event} (h : ∀ e ∈ events ++ [last], coalescingKey P e = key)
    (active : List Provider) (rows : List Row) :
    ∃ rows', publishAll P active (events ++ [last]) rows = some rows' ∧
      ∀ provider ∈ providersFor key.target active, ∀ d, effective rows' provider key d =
        if key.dateFrom ≤ d ∧ d ≤ key.dateTo then some (settled P [last] last) else none := by
  obtain ⟨rows₁, hrows₁⟩ := exists_publishAll (fun e he => h e (mem_append_left _ he)) active rows
  obtain ⟨rows₂, hrows₂, hstored⟩ := publishAriEvent_of_keyed (h last (by simp)) active rows₁
  refine ⟨rows₂, ?_, fun provider hprovider d => ?_⟩
  · rw [publishAll] at hrows₁
    rw [publishAll, foldlM_append, hrows₁]
    simp [hrows₂]
  · obtain ⟨r, hr, hfrom, hto, hpayload⟩ := hstored provider hprovider
    simp only [effective, hr, Option.bind_some, Span.covers_iff, ChangeSet.span, hfrom, hto, hpayload]

theorem compacted_of_keyed {s : Span Payload} (h : provider ∈ providers) (d : ℤ) :
    compacted (providers.map fun q => changeSet P key ref q s) provider d =
      if s.first ≤ d ∧ d ≤ s.last then some s.value.get? else none := by
  have hsame : ∀ t ∈ ((providers.map fun q => changeSet P key ref q s).filter fun c =>
      c.provider = provider).map ChangeSet.span, t = s := by
    intro t ht
    obtain ⟨c, hc, rfl⟩ := mem_map.mp ht
    obtain ⟨q, -, rfl⟩ := mem_map.mp (mem_filter.mp hc).1
    rfl
  have hne : ((providers.map fun q => changeSet P key ref q s).filter fun c =>
      c.provider = provider).map ChangeSet.span ≠ [] := by
    refine ne_nil_of_mem (mem_map_of_mem (a := changeSet P key ref provider s) ?_)
    exact mem_filter.mpr ⟨mem_map_of_mem h, by simp [changeSet]⟩
  rw [compacted, Span.valueAt_of_same hne hsame]
  simp only [Span.covers_iff]

/-- The two agree on a batch of restrictions exactly when the last event has what the earlier ones
set. On availability and rates they agree. -/
theorem agrees_iff (P : Python) (active : List Provider) (rows : List Row) (b : Batch P) :
    Agrees P active rows b ↔
      (b.key.scope = .restriction → providersFor b.key.target active ≠ [] →
        b.key.dateFrom ≤ b.key.dateTo → ∀ e ∈ b.events, Kept e.payload b.last.payload) := by
  have hevents : b.events.dropLast ++ [b.last] = b.events := dropLast_append_getLast b.nonempty
  have hkeyed : ∀ e ∈ b.events.dropLast ++ [b.last], coalescingKey P e = b.key := by
    rw [hevents]
    exact b.keyed
  have hscope : b.last.type = b.key.scope := congrArg Key.scope (hkeyed b.last (by simp))
  obtain ⟨ref, s, hsets, hfirst, hlast, hvalue⟩ := coalesceEvents_of_keyed hkeyed active
  obtain ⟨rows', hrows', heffective⟩ := effective_publishAll hkeyed active rows
  rw [hevents] at hsets hvalue hrows'
  have hcompacted : ∀ provider ∈ providersFor b.key.target active, ∀ d,
      compacted ((providersFor b.key.target active).map fun q => changeSet P b.key ref q s) provider d =
        if b.key.dateFrom ≤ d ∧ d ≤ b.key.dateTo then some (settled P b.events b.last) else none := by
    intro provider hprovider d
    rw [compacted_of_keyed hprovider, hfirst, hlast, hvalue]
  have hops : ∀ p ∈ (b.events.dropLast ++ [b.last]).map Event.payload,
      ((given p "operation").map P.str).getD "" = b.key.operation := by
    intro p hp
    obtain ⟨e, he, rfl⟩ := mem_map.mp hp
    exact congrArg Key.operation (hkeyed e he)
  rw [map_append, map_singleton] at hops
  have hmerged : b.key.scope = .restriction →
      (settled P [b.last] b.last = settled P b.events b.last ↔
        ∀ e ∈ b.events.dropLast, Kept e.payload b.last.payload) := by
    intro hr
    rw [settled, settled, if_pos (hscope.trans hr), if_pos (hscope.trans hr), ← hevents,
      map_append, map_singleton, merged_append_singleton_iff hops,
      dropLast_concat, forall_mem_map]
  constructor
  · rintro ⟨sets, stored, hs, hstored, hagree⟩ hr hproviders hdays e he
    cases hs.symm.trans hsets
    cases hstored.symm.trans hrows'
    obtain ⟨provider, hprovider⟩ := exists_mem_of_ne_nil _ hproviders
    have hday := hagree provider hprovider b.key.dateFrom
    rw [heffective provider hprovider, hcompacted provider hprovider, if_pos ⟨le_refl _, hdays⟩,
      if_pos ⟨le_refl _, hdays⟩] at hday
    rw [← hevents] at he
    rcases mem_append.mp he with he | he
    · exact (hmerged hr).mp (Option.some.inj hday) e he
    · rw [mem_singleton.mp he]
      exact ⟨fun _ _ h => h, id, id⟩
  · intro hkept
    refine ⟨_, rows', hsets, hrows', fun provider hprovider d => ?_⟩
    rw [heffective provider hprovider, hcompacted provider hprovider]
    split
    · rename_i hd
      by_cases hr : b.key.scope = .restriction
      · have hall := hkept hr (ne_nil_of_mem hprovider) (hd.1.trans hd.2)
        rw [(hmerged hr).mpr fun e he => hall e (dropLast_subset _ he)]
      · have hother : b.last.type ≠ .restriction := fun h => hr (hscope.symm.trans h)
        rw [settled, settled, if_neg hother, if_neg hother]
    · rfl

def restrictionOf (payload : Payload) : Event where
  tenant := 0
  property := 0
  type := .restriction
  room := 1
  dateFrom := 10
  dateTo := 12
  payload := payload

def plainRuntime : Python where
  str
    | .text t => t
    | _ => "other"
  deltaHash p := p.entries.length
  outboundDeltaHash _ _ _ _ _ _ p := p.entries.length
  str_ne v h := by
    cases v with
    | text t => simpa [Json.truthy] using h
    | _ => exact of_decide_eq_true rfl

def closedThenMinimum : Batch plainRuntime where
  key := coalescingKey plainRuntime (restrictionOf Dict.empty)
  events := [restrictionOf (Dict.empty.update "stop_sell" fun _ => .bool true),
    restrictionOf (Dict.empty.update "min_los" fun _ => .number 2)]
  nonempty := cons_ne_nil _ _
  keyed e he := by
    rcases mem_cons.mp he with rfl | he
    · rfl
    · rw [mem_singleton.mp he]
      rfl

def closing (o : Option (String → Option Json)) : Bool := ((o.bind (· "stop_sell")).any Json.isTrue)

/-- The closing is lost. -/
theorem not_agrees_closedThenMinimum :
    ¬ ∀ (P : Python) (active : List Provider) (rows : List Row) (b : Batch P), Agrees P active rows b := by
  intro h
  obtain ⟨sets, rows, hsets, hrows, hday⟩ := h plainRuntime [.hotelrunner] [] closedThenMinimum
  have hopen : (publishAll plainRuntime [.hotelrunner] closedThenMinimum.events []).any (fun rows =>
      closing (effective rows .hotelrunner closedThenMinimum.key 10)) = false := by decide +kernel
  have hclosed : (coalesceEvents plainRuntime closedThenMinimum.key closedThenMinimum.events
      [.hotelrunner]).any (fun sets => closing (compacted sets .hotelrunner 10)) = true := by decide +kernel
  rw [hrows, Option.any_some, hday .hotelrunner mem_cons_self] at hopen
  rw [hsets, Option.any_some, hopen] at hclosed
  cases hclosed

end SyrocePms.Ari.Coalescer
