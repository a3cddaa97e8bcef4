import SyrocePms.Outbox.Worker

/-! The documents of `enqueue_outbox_event`: the key under which an event is deduplicated,
what a call stores and what it returns. The digest of a payload is a parameter. -/

namespace SyrocePms.Outbox

open Lib List Collection

variable {π : Type*}

/-- The arguments of a call, and its clock. -/
structure EventArgs (π : Type*) where
  tenantId : String
  eventType : String
  entityType : String
  entityId : String
  payload : π
  provider : Option String := none
  connectorId : Option String := none
  propertyId : Option String := none
  correlationId : Option String := none
  maxAttempts : ℕ := 5
  idempotencyKey : Option String := none
  now : ℕ

/-- An id of the caller, or one that the call made up. -/
inductive Correlation where
  | given (id : String)
  | made (uuid : ℕ)

/-- A row of `outbox_events`, as it is when it is enqueued. -/
structure EventDoc (π : Type*) where
  id : ℕ
  tenantId : String
  propertyId : String
  eventType : String
  entityType : String
  entityId : String
  provider : Option String
  connectorId : Option String
  payload : π
  status : Status
  attemptCount : ℕ
  maxAttempts : ℕ
  availableAt : ℕ
  lastError : Option String
  lastAttemptAt : Option ℕ
  processedAt : Option ℕ
  idempotencyKey : String
  correlationId : Correlation
  createdAt : ℕ
  updatedAt : ℕ

structure Entity where
  tenantId : String
  entityType : String
  entityId : String
  deriving DecidableEq

def EventArgs.entity (a : EventArgs π) : Entity := ⟨a.tenantId, a.entityType, a.entityId⟩

def EventDoc.entity (d : EventDoc π) : Entity := ⟨d.tenantId, d.entityType, d.entityId⟩

def given (text : Option String) : Option String := text.filter fun t => t ≠ ""

def buildIdempotencyKey (digest : π → String) (a : EventArgs π) : String :=
  a.tenantId ++ ":" ++ a.eventType ++ ":" ++ a.entityId ++ ":" ++ digest a.payload

/-- The key of a call: its own, or the one built from the payload. -/
def EventArgs.key (digest : π → String) (a : EventArgs π) : String :=
  (given a.idempotencyKey).getD (buildIdempotencyKey digest a)

/-- The collection under its unique index, where no id has been handed out twice. -/
structure OutboxEvents (π : Type*) where
  events : Collection (EventDoc π) EventDoc.idempotencyKey
  nextId : ℕ
  issued : ∀ d ∈ events, d.id < nextId

variable {d : EventDoc π}

namespace OutboxEvents

variable (digest : π → String)

/-- The document of a call. Its two ids are the next two that are handed out. -/
def document (o : OutboxEvents π) (a : EventArgs π) : EventDoc π where
  id := o.nextId
  tenantId := a.tenantId
  propertyId := (given a.propertyId).getD a.tenantId
  eventType := a.eventType
  entityType := a.entityType
  entityId := a.entityId
  provider := a.provider
  connectorId := a.connectorId
  payload := a.payload
  status := .pending
  attemptCount := 0
  maxAttempts := a.maxAttempts
  availableAt := a.now
  lastError := none
  lastAttemptAt := none
  processedAt := none
  idempotencyKey := a.key digest
  correlationId := (given a.correlationId).elim (.made (o.nextId + 1)) .given
  createdAt := a.now
  updatedAt := a.now

/-- `enqueue_outbox_event`: a duplicate key is logged, and the document is returned as if it
had been stored. -/
def enqueueOutboxEvent (o : OutboxEvents π) (a : EventArgs π) : OutboxEvents π × EventDoc π :=
  match h : o.events.insertOne (o.document digest a) with
  | some es =>
    ({ events := es
       nextId := o.nextId + 2
       issued := fun d hd => by
        obtain hd | rfl := (mem_insertOne h).mp hd
        · exact Nat.lt_add_right 2 (o.issued d hd)
        · exact Nat.lt_add_of_pos_right Nat.two_pos }, o.document digest a)
  | none =>
    ({ o with
        nextId := o.nextId + 2
        issued := fun d hd => Nat.lt_add_right 2 (o.issued d hd) }, o.document digest a)

def enqueueAll (o : OutboxEvents π) : List (EventArgs π) → OutboxEvents π × List (EventDoc π)
  | [] => (o, [])
  | a :: as =>
    let r := o.enqueueOutboxEvent digest a
    let rest := r.1.enqueueAll as
    (rest.1, r.2 :: rest.2)

def deliveries (o : OutboxEvents π) (e : Entity) : List π :=
  (o.events.rows.filter fun d => d.entity == e).map EventDoc.payload

/-! ### One call -/

variable {digest} {o : OutboxEvents π} {a : EventArgs π} {as : List (EventArgs π)}

def Free (digest : π → String) (o : OutboxEvents π) (a : EventArgs π) : Prop :=
  ∀ d ∈ o.events, d.idempotencyKey ≠ a.key digest

@[simp] theorem enqueueOutboxEvent_snd :
    (o.enqueueOutboxEvent digest a).2 = o.document digest a := by
  unfold enqueueOutboxEvent
  split <;> rfl

@[simp] theorem enqueueOutboxEvent_nextId :
    (o.enqueueOutboxEvent digest a).1.nextId = o.nextId + 2 := by
  unfold enqueueOutboxEvent
  split <;> rfl

/-- A call under a free key stores its document behind the others. -/
theorem rows_of_free (h : o.Free digest a) :
    (o.enqueueOutboxEvent digest a).1.events.rows
      = o.events.rows ++ [o.document digest a] := by
  unfold enqueueOutboxEvent
  split
  · rename_i es hes
    exact (insertOne_eq_some hes).2
  · rename_i hes
    simp only [Collection.insertOne] at hes
    split at hes
    · rename_i hk
      obtain ⟨d, hd, hk⟩ := mem_map.mp hk
      exact absurd hk (h d hd)
    · cases hes

/-- A call under a taken key stores nothing. -/
theorem rows_of_not_free (h : ¬ o.Free digest a) :
    (o.enqueueOutboxEvent digest a).1.events.rows = o.events.rows := by
  unfold enqueueOutboxEvent
  split
  · rename_i es hes
    exact absurd (insertOne_eq_some hes).1 h
  · rfl

/-- What a call leaves in the collection was there or has a new id. -/
theorem mem_enqueueOutboxEvent (h : d ∈ (o.enqueueOutboxEvent digest a).1.events) :
    d ∈ o.events ∨ d.id = o.nextId := by
  rw [mem_def] at h
  by_cases hf : o.Free digest a
  · rw [rows_of_free hf, mem_append, mem_singleton] at h
    obtain h | rfl := h
    · exact .inl h
    · exact .inr rfl
  · rw [rows_of_not_free hf] at h
    exact .inl h

/-! ### All calls -/

theorem mem_enqueueAll (h : d ∈ (o.enqueueAll digest as).1.events) :
    d ∈ o.events ∨ o.nextId ≤ d.id := by
  induction as generalizing o with
  | nil => exact .inl h
  | cons a as ih =>
    obtain h | h := ih h
    · obtain h | h := mem_enqueueOutboxEvent h
      · exact .inl h
      · exact .inr h.ge
    · rw [enqueueOutboxEvent_nextId] at h
      exact .inr (by omega)

/-- The keys of the calls are free at the start and pairwise different. -/
def AllFree (digest : π → String) (o : OutboxEvents π) (as : List (EventArgs π)) : Prop :=
  (∀ a ∈ as, o.Free digest a) ∧ (as.map (EventArgs.key digest)).Nodup

theorem allFree_cons : o.AllFree digest (a :: as) ↔
    o.Free digest a ∧ (o.enqueueOutboxEvent digest a).1.AllFree digest as := by
  constructor
  · rintro ⟨hfree, hnodup⟩
    have ha : o.Free digest a := hfree a mem_cons_self
    obtain ⟨hne, hnodup⟩ := nodup_cons.mp hnodup
    refine ⟨ha, fun b hb d hd hk => ?_, hnodup⟩
    rw [mem_def, rows_of_free ha, mem_append, mem_singleton] at hd
    obtain hd | rfl := hd
    · exact hfree b (mem_cons_of_mem a hb) d hd hk
    · refine hne (mem_map.mpr ⟨b, hb, ?_⟩)
      exact hk.symm
  · rintro ⟨ha, hfree, hnodup⟩
    have hrows := rows_of_free ha
    refine ⟨fun b hb => ?_, nodup_cons.mpr ⟨fun hk => ?_, hnodup⟩⟩
    · obtain rfl | hb := mem_cons.mp hb
      · exact ha
      · intro d hd
        refine hfree b hb d ?_
        rw [mem_def, hrows]
        exact mem_append_left _ hd
    · obtain ⟨b, hb, hk⟩ := mem_map.mp hk
      refine hfree b hb (o.document digest a) ?_ hk.symm
      rw [mem_def, hrows]
      exact mem_append_right _ mem_cons_self

/-- Calls under free keys store what they return. -/
theorem rows_enqueueAll (h : o.AllFree digest as) :
    (o.enqueueAll digest as).1.events.rows
      = o.events.rows ++ (o.enqueueAll digest as).2 := by
  induction as generalizing o with
  | nil => exact (append_nil _).symm
  | cons a as ih =>
    obtain ⟨ha, has⟩ := allFree_cons.mp h
    simp only [enqueueAll, ih has, rows_of_free ha, enqueueOutboxEvent_snd, append_assoc,
      singleton_append]

/-- The documents returned carry the payloads of the calls, and their entities. -/
theorem enqueueAll_snd_map :
    (o.enqueueAll digest as).2.map (fun d => (d.entity, d.payload))
      = as.map fun a => (a.entity, a.payload) := by
  induction as generalizing o with
  | nil => rfl
  | cons a as ih =>
    simp only [enqueueAll, map_cons, ih, enqueueOutboxEvent_snd]
    rfl

theorem allFree_of_stored
    (h : ∀ d ∈ (o.enqueueAll digest as).2, d ∈ (o.enqueueAll digest as).1.events) :
    o.AllFree digest as := by
  induction as generalizing o with
  | nil => exact ⟨fun a ha => absurd ha not_mem_nil, nodup_nil⟩
  | cons a as ih =>
    refine allFree_cons.mpr ⟨?_, ih fun d hd => h d (mem_cons_of_mem _ hd)⟩
    by_contra hf
    have hmem : o.document digest a ∈ (o.enqueueAll digest (a :: as)).1.events := by
      refine h _ ?_
      simp only [enqueueAll, enqueueOutboxEvent_snd]
      exact mem_cons_self
    -- A later call does not store it either: the ids it hands out are greater.
    simp only [enqueueAll] at hmem
    obtain hmem | hid := mem_enqueueAll hmem
    · rw [mem_def, rows_of_not_free hf] at hmem
      exact absurd (o.issued _ hmem) (Nat.lt_irrefl o.nextId)
    · rw [enqueueOutboxEvent_nextId] at hid
      exact absurd hid (by simp [document])

/-! ### No change is hidden -/

/-- The payload delivered last for the entity is the one enqueued last, and what the calls
return is stored. -/
structure HidesNothing (digest : π → String) (o : OutboxEvents π) (e : Entity)
    (as : List (EventArgs π)) : Prop where
  last : ∀ a ∈ as.getLast?,
    ((o.enqueueAll digest as).1.deliveries e).getLast? = some a.payload
  stored : ∀ d ∈ (o.enqueueAll digest as).2, d ∈ (o.enqueueAll digest as).1.events

theorem deliveries_enqueueAll {e : Entity} (h : o.AllFree digest as)
    (he : ∀ a ∈ as, a.entity = e) :
    (o.enqueueAll digest as).1.deliveries e = o.deliveries e ++ as.map EventArgs.payload := by
  have hmap : (o.enqueueAll digest as).2.map (fun d => (d.entity, d.payload)) =
      as.map fun a => (a.entity, a.payload) := enqueueAll_snd_map
  have hent : ∀ d ∈ (o.enqueueAll digest as).2, d.entity = e := by
    intro d hd
    have hmem := mem_map_of_mem (f := fun d : EventDoc π => (d.entity, d.payload)) hd
    rw [hmap] at hmem
    obtain ⟨a, ha, hae⟩ := mem_map.mp hmem
    exact (congrArg Prod.fst hae).symm.trans (he a ha)
  have hpay : (o.enqueueAll digest as).2.map EventDoc.payload = as.map EventArgs.payload := by
    have hsnd := congrArg (List.map Prod.snd) hmap
    simpa only [map_map, Function.comp_def] using hsnd
  have hall : (o.enqueueAll digest as).2.filter (fun d => d.entity == e)
      = (o.enqueueAll digest as).2 := by
    refine filter_eq_self.mpr fun d hd => ?_
    simpa using hent d hd
  simp only [deliveries, rows_enqueueAll h, filter_append, map_append, hall, hpay]

/-- The states of one entity are delivered up to the last, and every document returned is
stored, exactly when the key of no call is taken before it. -/
theorem hidesNothing_iff_allFree (e : Entity) (he : ∀ a ∈ as, a.entity = e) :
    o.HidesNothing digest e as ↔ o.AllFree digest as := by
  constructor
  · exact fun h => allFree_of_stored h.stored
  · intro h
    refine ⟨fun a ha => ?_, fun d hd => ?_⟩
    · rw [deliveries_enqueueAll h he, getLast?_append, getLast?_map,
        Option.mem_def.mp ha]
      rfl
    · rw [mem_def, rows_enqueueAll h]
      exact mem_append_right _ hd

def rateChanges : List (EventArgs ℕ) :=
  [100, 120, 100].map fun rate =>
    { tenantId := "hotel"
      eventType := "rate.updated.v1"
      entityType := "ai_pricing_publication"
      entityId := "d"
      payload := rate
      now := rate }

def rateDigest (rate : ℕ) : String := if rate = 100 then "8f331828bb1d1345" else "c37805ee03568927"

def noEvents : OutboxEvents ℕ := ⟨.empty, 0, fun _ hd => absurd hd not_mem_empty⟩

theorem rate_changes_delivered :
    (noEvents.enqueueAll rateDigest (rateChanges.take 2)).1.deliveries
      ⟨"hotel", "ai_pricing_publication", "d"⟩ = [100, 120] ∧
    noEvents.HidesNothing rateDigest ⟨"hotel", "ai_pricing_publication", "d"⟩
      (rateChanges.take 2) := by
  refine ⟨by decide, (hidesNothing_iff_allFree _ (by decide)).mpr ⟨?_, by decide⟩⟩
  exact fun a _ d hd => absurd hd not_mem_empty

/-- The rate returns to 100, the one delivered last is 120, and the third document returned is
nowhere stored. -/
theorem returned_rate_hidden :
    ¬ (∀ (digest : ℕ → String) (o : OutboxEvents ℕ) (e : Entity) (as : List (EventArgs ℕ)),
      (∀ a ∈ as, a.entity = e) → o.HidesNothing digest e as) ∧
    (noEvents.enqueueAll rateDigest rateChanges).1.deliveries
      ⟨"hotel", "ai_pricing_publication", "d"⟩ = [100, 120] ∧
    ¬ ∀ d ∈ (noEvents.enqueueAll rateDigest rateChanges).2,
      d.id ∈ (noEvents.enqueueAll rateDigest rateChanges).1.events.rows.map EventDoc.id := by
  refine ⟨fun h => ?_, by decide, by decide⟩
  have hlast := (h rateDigest noEvents ⟨"hotel", "ai_pricing_publication", "d"⟩ rateChanges
    (by decide)).last rateChanges[2] rfl
  exact absurd hlast (by decide)

end OutboxEvents

end SyrocePms.Outbox
