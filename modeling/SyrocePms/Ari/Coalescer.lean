import Mathlib.Algebra.Order.Ring.Rat
import Mathlib.Data.List.Dedup
import SyrocePms.Ari.Repository
import SyrocePms.Lib.Dict
import SyrocePms.Lib.Spans

/-! The coalescer on batches of events. A payload is a dictionary here, as restrictions are merged
key by key. -/

namespace SyrocePms.Ari.Coalescer

open Lib List

/-! ### Events -/

inductive Json where
  | null
  | bool (b : Bool)
  | number (q : ℚ)
  | text (t : String)
  | array (items : List Json)
  | object (fields : List (String × Json))

def Json.truthy : Json → Bool
  | .null => false
  | .bool b => b
  | .number q => q ≠ 0
  | .text t => t ≠ ""
  | .array items => !items.isEmpty
  | .object fields => !fields.isEmpty

def Json.isTrue : Json → Bool
  | .bool true => true
  | _ => false

abbrev Payload := Dict String Json

/-- The value under a key, unless it is empty: `p.get(k)` as a condition. -/
def given (p : Payload) (k : String) : Option Json := (p.get? k).filter Json.truthy

/-- What is not in the repository: `str`, and the hashes of a payload and of a change set. -/
structure Python where
  str : Json → String
  deltaHash : Payload → ℕ
  outboundDeltaHash : Provider → ℕ → ℕ → Option ℕ → ℤ → ℤ → Payload → ℕ
  str_ne : ∀ v : Json, v.truthy = true → str v ≠ ""

/-- `ARIChangeEvent`. -/
structure Event where
  tenant : ℕ
  property : ℕ
  type : Scope
  room : ℕ
  ratePlan : Option ℕ := none
  dateFrom : ℤ
  dateTo : ℤ
  payload : Payload
  target : Option Provider := none

structure Key where
  tenant : ℕ
  property : ℕ
  target : Option Provider
  room : ℕ
  ratePlan : Option ℕ
  dateFrom : ℤ
  dateTo : ℤ
  scope : Scope
  operation : String
  guests : Option String
  deriving DecidableEq

/-- A change set, under the key of its provider. -/
structure ChangeSet where
  tenant : ℕ
  property : ℕ
  provider : Provider
  key : Key
  room : ℕ
  ratePlan : Option ℕ
  dateFrom : ℤ
  dateTo : ℤ
  scope : Scope
  payload : Payload
  deltaHash : ℕ

def Event.span (e : Event) : Span Payload := ⟨e.dateFrom, e.dateTo, e.payload⟩

def ChangeSet.span (c : ChangeSet) : Span Payload := ⟨c.dateFrom, c.dateTo, c.payload⟩

variable (P : Python)
variable {p result : Payload} {k : String} {payloads : List Payload}

def coalescingKey (e : Event) : Key where
  tenant := e.tenant
  property := e.property
  target := e.target
  room := e.room
  ratePlan := e.ratePlan
  dateFrom := e.dateFrom
  dateTo := e.dateTo
  scope := e.type
  operation := ((given e.payload "operation").map P.str).getD ""
  guests :=
    match e.type, e.payload.get? "number_of_guests" with
    | .rate, some .null => none
    | .rate, some v => some (P.str v)
    | _, _ => none

/-! ### Restrictions -/

def latestKeys : List String := ["min_los", "min_los_arrival", "max_los", "cta", "ctd"]

/-- Closing holds against opening. -/
def mergeStopSell (result p : Payload) : Payload :=
  match p.get? "stop_sell" with
  | none => result
  | some v =>
    if v.isTrue then result.update "stop_sell" fun _ => .bool true
    else if (result.get? "stop_sell").isNone then result.update "stop_sell" fun _ => .bool false
    else result

def copyKeys (p : Payload) : List String → Payload → Payload
  | [], result => result
  | k :: ks, result =>
    copyKeys p ks <| match p.get? k with
      | none => result
      | some v => result.update k fun _ => v

def carried (operations : List String) (token : Option Json) : Payload :=
  let result := match operations with
    | [] => Dict.empty
    | op :: _ => Dict.empty.update "operation" fun _ => .text op
  match token with
  | none => result
  | some token => result.update "force_resend_token" fun _ => token

/-- `_apply_restriction_precedence`. It raises on two operations. -/
def applyRestrictionPrecedence (payloads : List Payload) : Option Payload :=
  let operations := ((payloads.filterMap (given · "operation")).map P.str).dedup
  let token := (payloads.filterMap (given · "force_resend_token")).getLast?
  if 1 < operations.length then none
  else some (payloads.foldl (fun result p => copyKeys p latestKeys (mergeStopSell result p))
    (carried operations token))

/-! ### What is merged -/

def closes (p : Payload) : Bool := (p.get? "stop_sell").any Json.isTrue

def states (p : Payload) (k : String) : Bool := (p.get? k).isSome

/-- Closed if any payload closes, and open if any has the key otherwise. -/
def stopSell (payloads : List Payload) : Option Json :=
  if payloads.any closes then some (.bool true)
  else if payloads.any (states · "stop_sell") then some (.bool false)
  else none

def merged (payloads : List Payload) (k : String) : Option Json :=
  if k = "stop_sell" then stopSell payloads
  else if k ∈ latestKeys then lastValue (fun p : Payload => p.get? k) payloads
  else if k = "force_resend_token" then lastValue (given · k) payloads
  else if k = "operation" then ((payloads.filterMap (given · k)).map P.str).dedup.head?.map .text
  else none

theorem get?_copyKeys {ks : List String} : (copyKeys p ks result).get? k =
      if k ∈ ks then (p.get? k).or (result.get? k) else result.get? k := by
  induction ks generalizing result with
  | nil => rfl
  | cons k' ks ih =>
    rw [copyKeys, ih]
    cases hp : p.get? k' with
    | none =>
      by_cases hk : k = k'
      · subst hk
        simp [hp]
      · simp [hk]
    | some v =>
      by_cases hk : k = k'
      · subst hk
        simp [hp, Dict.get?_update]
      · simp [hk, Dict.get?_update]

theorem get?_mergeStopSell_of_ne (hk : k ≠ "stop_sell") :
    (mergeStopSell result p).get? k = result.get? k := by
  unfold mergeStopSell
  split
  · rfl
  · split
    · rw [Dict.get?_update, if_neg hk]
    · split
      · rw [Dict.get?_update, if_neg hk]
      · rfl

theorem get?_mergeStopSell (h : result.get? "stop_sell" = stopSell payloads) :
    (mergeStopSell result p).get? "stop_sell" = stopSell (payloads ++ [p]) := by
  simp only [stopSell, any_append, any_cons, any_nil, Bool.or_false] at h ⊢
  cases hp : p.get? "stop_sell" with
  | none => simp [mergeStopSell, closes, states, hp, h]
  | some v =>
    cases hv : v.isTrue with
    | true => simp [mergeStopSell, closes, hp, hv, Dict.get?_update]
    | false =>
      cases hclosed : payloads.any closes with
      | true => simp [mergeStopSell, closes, hp, hv, h, hclosed]
      | false =>
        cases hstated : payloads.any (states · "stop_sell") with
        | true =>
          have hopen : result.get? "stop_sell" = some (.bool false) := by simpa [hclosed, hstated] using h
          simp [mergeStopSell, closes, states, hp, hv, hopen]
        | false =>
          have hnone : result.get? "stop_sell" = none := by simpa [hclosed, hstated] using h
          simp [mergeStopSell, closes, states, hp, hv, hnone, Dict.get?_update]

theorem get?_foldl_merge (hstop : result.get? "stop_sell" = none)
    (hlatest : ∀ k ∈ latestKeys, result.get? k = none) (k : String) :
    (payloads.foldl (fun result p => copyKeys p latestKeys (mergeStopSell result p)) result).get? k =
      if k = "stop_sell" then stopSell payloads
      else if k ∈ latestKeys then lastValue (fun p : Payload => p.get? k) payloads
      else result.get? k := by
  induction payloads using List.reverseRecOn with
  | nil =>
    split
    · rename_i hk
      rw [hk, foldl_nil, hstop]
      rfl
    · split
      · rename_i hk
        rw [foldl_nil, hlatest k hk, lastValue_nil]
      · rfl
  | append_singleton payloads p ih =>
    rw [foldl_append, foldl_cons, foldl_nil, get?_copyKeys]
    by_cases hk : k = "stop_sell"
    · subst hk
      rw [if_pos rfl] at ih
      rw [if_neg (by decide), if_pos rfl, get?_mergeStopSell ih]
    · rw [if_neg hk, get?_mergeStopSell_of_ne hk, ih, if_neg hk, lastValue_append, lastValue_cons,
        lastValue_nil, Option.none_or]
      split <;> rfl

theorem get?_carried {operations : List String} {token : Option Json} :
    (carried operations token).get? k =
      if k = "force_resend_token" then token
      else if k = "operation" then operations.head?.map .text
      else none := by
  by_cases htoken : k = "force_resend_token"
  · subst htoken
    cases operations <;> cases token <;> simp [carried, Dict.get?_update]
  · cases operations <;> cases token <;> simp [carried, Dict.get?_update, htoken]

theorem get?_of_applyRestrictionPrecedence (h : applyRestrictionPrecedence P payloads = some result)
    (k : String) : result.get? k = merged P payloads k := by
  simp only [applyRestrictionPrecedence] at h
  split at h
  · cases h
  · rw [← Option.some.inj h, get?_foldl_merge, merged, get?_carried]
    · split
      · rfl
      · split
        · rfl
        · by_cases htoken : k = "force_resend_token"
          · subst htoken
            rfl
          · simp only [if_neg htoken]
            split
            · rename_i hop
              rw [hop]
            · rfl
    · rw [get?_carried, if_neg (by decide), if_neg (by decide)]
    · intro k hk
      rw [get?_carried, if_neg, if_neg]
      · rintro rfl
        exact absurd hk (by decide)
      · rintro rfl
        exact absurd hk (by decide)

/-! ### Ranges -/

def deduplicateByDateRange (events : List Event) : List Event :=
  Dict.lastPerKey (fun e : Event => (e.dateFrom, e.dateTo)) events

def mergeDateRanges (events : List Event) : List (Span Payload) :=
  match (deduplicateByDateRange events).insertionSort fun e e' => e.dateFrom ≤ e'.dateFrom with
  | [] => []
  | e :: events =>
    Span.join (fun p p' => P.deltaHash p = P.deltaHash p') e.span (events.map Event.span)

def mergedRanges (ref : Event) (events : List Event) : Option (List (Span Payload)) :=
  if ref.type = .restriction then
    (applyRestrictionPrecedence P (events.map Event.payload)).map fun p => [⟨ref.dateFrom, ref.dateTo, p⟩]
  else some (mergeDateRanges P events)

def providersFor (target : Option Provider) (providers : List Provider) : List Provider :=
  match target with
  | some provider => [provider]
  | none => providers

def changeSet (key : Key) (ref : Event) (provider : Provider) (s : Span Payload) : ChangeSet where
  tenant := ref.tenant
  property := ref.property
  provider := provider
  key := key
  room := ref.room
  ratePlan := ref.ratePlan
  dateFrom := s.first
  dateTo := s.last
  scope := ref.type
  payload := s.value
  deltaHash := P.outboundDeltaHash provider ref.property ref.room ref.ratePlan s.first s.last s.value

def coalesceEvents (key : Key) (events : List Event) (providers : List Provider) :
    Option (List ChangeSet) :=
  match events with
  | [] => some []
  | ref :: _ =>
    (mergedRanges P ref events).map fun ranges =>
      (providersFor ref.target providers).flatMap fun provider => ranges.map (changeSet P key ref provider)

end SyrocePms.Ari.Coalescer
