import Mathlib.Data.List.Range
import SyrocePms.Lib.Replica

/-! ARI events (availability, rates, restrictions), the change sets that they are coalesced
into for each provider, and the deltas that change sets are compiled to. What a delta sets
at the provider are cells: a room type and a rate plan of a connection, a day and a field. -/

namespace SyrocePms.Ari

open Lib

inductive Provider where
  | hotelrunner
  | exely
  | other (name : ℕ)
  deriving DecidableEq

inductive Scope where
  | availability
  | rate
  | restriction
  deriving DecidableEq

/-- The operation of a payload. The six restrictions of Exely have a name. -/
inductive Operation where
  | stopSell
  | minLos
  | minLosArrival
  | maxLos
  | cta
  | ctd
  | other (name : ℕ)
  deriving DecidableEq

def Operation.isRestriction : Operation → Bool
  | .other _ => false
  | _ => true

/-- The payload of an event or a change set. Keys that are not read are `rest`. -/
structure Payload where
  operation : Option Operation := none
  availability : Option ℤ := none
  stopSell : Option Bool := none
  baseRate : Option ℤ := none
  currency : Option ℕ := none
  numberOfGuests : Option ℕ := none
  minLos : Option ℤ := none
  minLosArrival : Option ℤ := none
  maxLos : Option ℤ := none
  cta : Option Bool := none
  ctd : Option Bool := none
  forceResendToken : Option ℕ := none
  rest : ℕ := 0
  deriving DecidableEq

/-- `ARIChangeEvent`. A missing rate plan is none. -/
structure Event where
  tenant : ℕ
  property : ℕ
  type : Scope
  room : ℕ
  ratePlan : Option ℕ := none
  dateFrom : ℤ
  dateTo : ℤ
  payload : Payload
  target : Option Provider := none

/-! ### Coalescing -/

/-- The coalescing key of a change set. Its fields of the same name are those of the set. -/
structure Key where
  tenant : ℕ
  property : ℕ
  provider : Provider
  target : Option Provider
  room : ℕ
  ratePlan : Option ℕ
  dateFrom : ℤ
  dateTo : ℤ
  scope : Scope
  operation : Option Operation
  guests : Option ℕ
  deriving DecidableEq

/-- What is coalesced from events: the key and the compacted payload of a change set. -/
structure Draft where
  key : Key
  payload : Payload
  deriving DecidableEq

def coalescingKey (e : Event) (provider : Provider) : Key where
  tenant := e.tenant
  property := e.property
  provider := provider
  target := e.target
  room := e.room
  ratePlan := e.ratePlan
  dateFrom := e.dateFrom
  dateTo := e.dateTo
  scope := e.type
  operation := e.payload.operation
  guests := if e.type = .rate then e.payload.numberOfGuests else none

def applyRestrictionPrecedence (p : Payload) : Payload :=
  { p with availability := none, baseRate := none, currency := none, numberOfGuests := none, rest := 0 }

/-- `coalesce_events` on one event. -/
def coalesceEvents (e : Event) (providers : List Provider) : List Draft :=
  let providers := match e.target with
    | some provider => [provider]
    | none => providers
  let payload := if e.type = .restriction then applyRestrictionPrecedence e.payload else e.payload
  providers.map fun provider => ⟨coalescingKey e provider, payload⟩

/-! ### Compiling -/

inductive Field where
  | availability
  | rate (guests : Option ℕ)
  | stopSell
  | minLos
  | minLosArrival
  | maxLos
  | cta
  | ctd
  deriving DecidableEq

inductive Value where
  | number (value : Option ℤ)
  | price (value : Option ℤ) (currency : ℕ)
  | flag (value : Option Bool)
  deriving DecidableEq

/-- The currency of a payload without one: TRY. -/
def turkishLira : ℕ := 949

def compileDeltaHotelrunner (scope : Scope) (p : Payload) : List (Field × Value) :=
  let stopSale := match p.stopSell with
    | some b => [(.stopSell, .flag (some b))]
    | none => []
  match scope with
  | .availability => (.availability, .number p.availability) :: stopSale
  | .rate => [(.rate none, .price p.baseRate (p.currency.getD turkishLira))]
  | .restriction =>
    (match p.minLos with
      | some n => [(.minLos, .number (some n))]
      | none => []) ++
    (match p.cta with
      | some b => [(.cta, .flag (some b))]
      | none => []) ++
    (match p.ctd with
      | some b => [(.ctd, .flag (some b))]
      | none => []) ++ stopSale

def restrictionValue (p : Payload) : Operation → Option (Field × Value)
  | .stopSell => some (.stopSell, .flag p.stopSell)
  | .minLos => some (.minLos, .number p.minLos)
  | .minLosArrival => some (.minLosArrival, .number p.minLosArrival)
  | .maxLos => some (.maxLos, .number p.maxLos)
  | .cta => some (.cta, .flag p.cta)
  | .ctd => some (.ctd, .flag p.ctd)
  | .other _ => none

/-- `compile_delta_exely`: a restriction without an operation of the six raises. -/
def compileDeltaExely (scope : Scope) (p : Payload) : Option (List (Field × Value)) :=
  match scope with
  | .availability => some [(.availability, .number p.availability)]
  | .rate => some [(.rate p.numberOfGuests, .price p.baseRate (p.currency.getD turkishLira))]
  | .restriction => (p.operation.bind (restrictionValue p)).map fun x => [x]

/-- `compile_delta`: a provider without a compiler raises. -/
def compileDelta (provider : Provider) (scope : Scope) (p : Payload) : Option (List (Field × Value)) :=
  match provider with
  | .hotelrunner => some (compileDeltaHotelrunner scope p)
  | .exely => compileDeltaExely scope p
  | .other _ => none

/-! ### Cells -/

/-- What `compute_outbound_delta_hash` hashes. -/
structure Digest where
  provider : Provider
  property : ℕ
  room : ℕ
  ratePlan : Option ℕ
  dateFrom : ℤ
  dateTo : ℤ
  payload : Payload
  deriving DecidableEq

/-- What is not in the repository: the hash, and what the providers keep apart. Exely has
its prices and restrictions by rate plan. A price without an occupancy is that of some
occupancies. -/
structure Extranet where
  hash : Digest → ℕ
  perPlan : Provider → Scope → Bool
  occupancies : Provider → List ℕ
  exely_perPlan : ∀ scope, scope ≠ .availability → perPlan .exely scope = true

structure Connection where
  tenant : ℕ
  property : ℕ
  provider : Provider
  deriving DecidableEq

structure Cell where
  connection : Connection
  room : ℕ
  ratePlan : Option ℕ
  day : ℤ
  field : Field
  deriving DecidableEq

variable {k : Key}

namespace Key

def connection (k : Key) : Connection := ⟨k.tenant, k.property, k.provider⟩

def days (k : Key) : List ℤ :=
  (List.range (k.dateTo - k.dateFrom + 1).toNat).map fun n : ℕ => k.dateFrom + n

theorem mem_days {d : ℤ} : d ∈ k.days ↔ k.dateFrom ≤ d ∧ d ≤ k.dateTo := by
  simp only [days, List.mem_map, List.mem_range]
  constructor
  · rintro ⟨n, hn, rfl⟩
    omega
  · rintro ⟨hfrom, hto⟩
    exact ⟨(d - k.dateFrom).toNat, by omega, by omega⟩

end Key

variable {p : Payload}

namespace Extranet

variable (E : Extranet)

def places (provider : Provider) : Field → List Field
  | .rate none => (E.occupancies provider).map fun n => .rate (some n)
  | f => [f]

/-- The rate plan of a cell: none where a provider has one value for the room. -/
def planOf (k : Key) : Option ℕ := if E.perPlan k.provider k.scope then k.ratePlan else none

/-- What a change set sets at its provider: nothing when it does not compile. -/
def writes (k : Key) (p : Payload) : List (Cell × Value) :=
  ((compileDelta k.provider k.scope p).getD []).flatMap fun x =>
    k.days.flatMap fun d => (E.places k.provider x.1).map fun f =>
      (⟨k.connection, k.room, E.planOf k, d, f⟩, x.2)

def digest (k : Key) (p : Payload) : Digest where
  provider := k.provider
  property := k.property
  room := k.room
  ratePlan := k.ratePlan
  dateFrom := k.dateFrom
  dateTo := k.dateTo
  payload := p

theorem mem_writes {c : Cell} {v : Value} :
    (c, v) ∈ E.writes k p ↔ ∃ fields, compileDelta k.provider k.scope p = some fields ∧
      ∃ x ∈ fields, x.2 = v ∧ c.connection = k.connection ∧ c.room = k.room ∧
        c.ratePlan = E.planOf k ∧ c.day ∈ k.days ∧ c.field ∈ E.places k.provider x.1 := by
  obtain ⟨connection, room, plan, day, field⟩ := c
  cases hcomp : compileDelta k.provider k.scope p with
  | none => simp [writes, hcomp]
  | some fields =>
    simp only [writes, hcomp, Option.getD_some, List.mem_flatMap, List.mem_map, Prod.mk.injEq,
      Cell.mk.injEq, Option.some.injEq, exists_eq_left']
    constructor
    · rintro ⟨x, hx, d, hd, f, hf, ⟨rfl, rfl, rfl, rfl, rfl⟩, rfl⟩
      exact ⟨x, hx, rfl, rfl, rfl, rfl, hd, hf⟩
    · rintro ⟨x, hx, rfl, rfl, rfl, rfl, hd, hf⟩
      exact ⟨x, hx, day, hd, field, hf, ⟨rfl, rfl, rfl, rfl, rfl⟩, rfl⟩

theorem writes_eq_of_digest {k' : Key} {p' : Payload} (htenant : k.tenant = k'.tenant)
    (hscope : k.scope = k'.scope) (h : digest k p = digest k' p') :
    E.writes k p = E.writes k' p' := by
  simp only [digest, Digest.mk.injEq] at h
  obtain ⟨hprov, hprop, hroom, hplan, hfrom, hto, hpay⟩ := h
  simp only [writes, planOf, Key.connection, Key.days, htenant, hscope, hprov, hprop, hroom, hplan,
    hfrom, hto, hpay]

end Extranet

end SyrocePms.Ari
