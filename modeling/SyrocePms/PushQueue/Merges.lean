import Mathlib.Data.List.Induction
import Mathlib.Data.Rat.Defs
import SyrocePms.Lib.LastValue

/-! The queue of failed pushes to the channel manager. A push is merged into a pending item for the same
room and dates, if there is one, and else put at the end. The items are delivered in the order in which they
were created, and each writes its fields into the cells that it covers. -/

namespace SyrocePms.PushQueue

open Lib List

variable {ρ χ : Type*}

/-- The fields of a push. A field that is absent is not sent. -/
structure PushFields where
  rate : Option ℚ := none
  avail : Option ℤ := none
  stop : Option Bool := none
  minstay : Option ℤ := none
  maxstay : Option ℤ := none
  cta : Option Bool := none
  ctd : Option Bool := none

/-- A push, and a pending item of the queue. -/
structure Push (ρ χ : Type*) where
  room : ρ
  start : ℤ
  last : ℤ
  fields : PushFields := {}
  days : Option (List ℕ) := none
  channelCodes : Option (List χ) := none

inductive WireField where
  | price
  | availability
  | stopSale
  | minStay
  | maxStay
  | cta
  | ctd

/-- What the provider keeps a value for. -/
structure Cell (ρ χ : Type*) where
  room : ρ
  day : ℤ
  channel : χ
  field : WireField

def flag (b : Bool) : ℚ := if b then 1 else 0

/-- The fields of `update_data`. -/
def PushFields.wire (f : PushFields) : WireField → Option ℚ
  | .price => f.rate
  | .availability => f.avail.map fun n : ℤ => (n : ℚ)
  | .stopSale => f.stop.map flag
  | .minStay => f.minstay.map fun n : ℤ => (n : ℚ)
  | .maxStay => f.maxstay.map fun n : ℤ => (n : ℚ)
  | .cta => f.cta.map flag
  | .ctd => f.ctd.map flag

/-! ### The queue -/

def PushFields.over (f f' : PushFields) : PushFields where
  rate := f.rate.or f'.rate
  avail := f.avail.or f'.avail
  stop := f.stop.or f'.stop
  minstay := f.minstay.or f'.minstay
  maxstay := f.maxstay.or f'.maxstay
  cta := f.cta.or f'.cta
  ctd := f.ctd.or f'.ctd

/-- `update_fields` on an item. -/
def Push.merge (item p : Push ρ χ) : Push ρ χ :=
  { item with fields := p.fields.over item.fields, channelCodes := p.channelCodes.or item.channelCodes }

section

variable [DecidableEq ρ]

def Push.isMatch (p item : Push ρ χ) : Bool :=
  item.room = p.room && item.start = p.start && item.last = p.last && (p.days.isNone || item.days = p.days)

/-- One of the items that match, with its place. The query has no order, so `pick` says which. -/
def existing (queue : List (Push ρ χ)) (pick : ℕ) (p : Push ρ χ) : Option (Push ρ χ × ℕ) :=
  let found := queue.zipIdx.filter fun e => p.isMatch e.1
  found[pick % found.length]?

def enqueueFailedPush (queue : List (Push ρ χ)) (pick : ℕ) (p : Push ρ χ) : List (Push ρ χ) :=
  match existing queue pick p with
  | some (item, k) => queue.set k (item.merge p)
  | none => queue ++ [p]

def queueOf (calls : List (ℕ × Push ρ χ)) : List (Push ρ χ) := calls.foldl (fun queue c => enqueueFailedPush queue c.1 c.2) []

/-! ### The delivery -/

variable [DecidableEq χ] (weekday : ℤ → ℕ)

/-- The cells of a push. Without a weekday list it is for every day of its range, and without channels, or
with none in the list, for every channel. -/
def Push.covers (p : Push ρ χ) (x : Cell ρ χ) : Bool :=
  p.room = x.room && (p.start ≤ x.day && x.day ≤ p.last) && p.days.all (fun days => weekday x.day ∈ days) &&
    (p.channelCodes.filter (· ≠ [])).all fun codes => x.channel ∈ codes

def Push.valueAt (x : Cell ρ χ) (p : Push ρ χ) : Option ℚ := if p.covers weekday x then p.fields.wire x.field else none

def deliver (board : Cell ρ χ → Option ℚ) (p : Push ρ χ) : Cell ρ χ → Option ℚ := fun x => (p.valueAt weekday x).or (board x)

def delivered (queue : List (Push ρ χ)) : Cell ρ χ → Option ℚ := queue.foldl (deliver weekday) fun _ => none

def KeepsLast (calls : List (ℕ × Push ρ χ)) : Prop :=
  ∀ x, delivered weekday (queueOf calls) x = lastValue (fun c => c.2.valueAt weekday x) calls

/-- A push that is merged without a loss. Where it has a value, the items created later give the same or none;
and if none, the merged item reaches the cell, or the earlier items give that value. Where it has none, an
item created later has one, or the item reaches the cell as before, or has no value for it, or the earlier
items give the same. -/
def MergesAt (queue : List (Push ρ χ)) (item : Push ρ χ) (k : ℕ) (p : Push ρ χ) (x : Cell ρ χ) : Prop :=
  match p.valueAt weekday x with
  | some v => delivered weekday (queue.drop (k + 1)) x = some v ∨ (delivered weekday (queue.drop (k + 1)) x = none ∧
      ((item.merge p).covers weekday x = true ∨ delivered weekday (queue.take k) x = some v))
  | none => delivered weekday (queue.drop (k + 1)) x ≠ none ∨ (item.merge p).covers weekday x = item.covers weekday x ∨
      item.fields.wire x.field = none ∨ delivered weekday (queue.take k) x = item.fields.wire x.field

/-- A call that finds no item, or merges without a loss. -/
def CallOk (queue : List (Push ρ χ)) (c : ℕ × Push ρ χ) : Prop :=
  ∀ item k, existing queue c.1 c.2 = some (item, k) → ∀ x, MergesAt weekday queue item k c.2 x

end

/-! ### Merging -/

@[simp] theorem wire_over (f f' : PushFields) (x : WireField) : (f.over f').wire x = (f.wire x).or (f'.wire x) := by
  cases x <;> simp only [PushFields.wire, PushFields.over, Option.map_or]

section

variable [DecidableEq ρ] [DecidableEq χ] {weekday : ℤ → ℕ} {queue : List (Push ρ χ)} {p item : Push ρ χ} {k pick : ℕ}
  {calls : List (ℕ × Push ρ χ)} {x : Cell ρ χ}

theorem delivered_eq_lastValue (queue : List (Push ρ χ)) (x : Cell ρ χ) :
    delivered weekday queue x = lastValue (Push.valueAt weekday x) queue := by
  have hfold (board : Cell ρ χ → Option ℚ) : queue.foldl (deliver weekday) board x =
      queue.foldl (fun o p => (p.valueAt weekday x).or o) (board x) := by
    induction queue generalizing board with
    | nil => rfl
    | cons p queue ih => exact ih _
  rw [delivered, hfold, foldl_or_eq_lastValue, Option.or_none]

omit [DecidableEq χ] in
theorem existing_spec (h : existing queue pick p = some (item, k)) :
    queue[k]? = some item ∧ p.isMatch item = true := by
  have hmem := mem_of_getElem? h
  obtain ⟨hmem, hmatch⟩ := mem_filter.mp hmem
  exact ⟨mem_zipIdx_iff_getElem?.mp hmem, hmatch⟩

theorem covers_iff : p.covers weekday x = true ↔ p.room = x.room ∧ (p.start ≤ x.day ∧ x.day ≤ p.last) ∧
    p.days.all (fun days => weekday x.day ∈ days) = true ∧ (p.channelCodes.filter (· ≠ [])).all (fun codes => x.channel ∈ codes) = true := by
  simp only [Push.covers, Bool.and_eq_true, decide_eq_true_eq, and_assoc]

theorem covers_of_merge (hmatch : p.isMatch item = true) (h : (item.merge p).covers weekday x = true) : p.covers weekday x = true := by
  simp only [Push.isMatch, Bool.and_eq_true, Bool.or_eq_true, decide_eq_true_eq] at hmatch
  obtain ⟨⟨⟨hroom, hstart⟩, hlast⟩, hdays⟩ := hmatch
  obtain ⟨hr, hin, hd, hch⟩ := covers_iff.mp h
  refine covers_iff.mpr ⟨hroom ▸ hr, hstart ▸ hlast ▸ hin, ?_, ?_⟩
  · obtain hnone | hsame := hdays
    · rw [Option.isNone_iff_eq_none.mp hnone]
      rfl
    · exact hsame ▸ hd
  · rw [Push.merge] at hch
    cases hcodes : p.channelCodes with
    | none => rfl
    | some codes => rwa [hcodes, Option.some_or] at hch

theorem valueAt_merge_of_none (hmatch : p.isMatch item = true) (hp : p.valueAt weekday x = none) :
    (item.merge p).valueAt weekday x = if (item.merge p).covers weekday x = true then item.fields.wire x.field else none := by
  unfold Push.valueAt at hp ⊢
  by_cases hcovers : (item.merge p).covers weekday x = true
  · rw [if_pos (covers_of_merge hmatch hcovers)] at hp
    rw [if_pos hcovers, if_pos hcovers, Push.merge]
    simp [hp]
  · rw [if_neg hcovers, if_neg hcovers]

theorem valueAt_merge_of_some {v : ℚ} (hp : p.valueAt weekday x = some v) :
    (item.merge p).valueAt weekday x = if (item.merge p).covers weekday x = true then some v else none := by
  unfold Push.valueAt at hp ⊢
  split at hp
  · split
    · simp [Push.merge, hp]
    · rfl
  · cases hp

theorem mergesAt_iff (hitem : queue[k]? = some item) (hmatch : p.isMatch item = true) :
    delivered weekday (queue.set k (item.merge p)) x = (p.valueAt weekday x).or (delivered weekday queue x) ↔
      MergesAt weekday queue item k p x := by
  unfold MergesAt
  rw [delivered_eq_lastValue, delivered_eq_lastValue, delivered_eq_lastValue, delivered_eq_lastValue, lastValue_set hitem,
    lastValue_eq_of_getElem? hitem]
  cases hp : p.valueAt weekday x with
  | some v =>
    rw [valueAt_merge_of_some hp]
    cases hnewer : lastValue (Push.valueAt weekday x) (queue.drop (k + 1)) with
    | some w => simp
    | none =>
      by_cases hcovers : (item.merge p).covers weekday x = true
      · simp [hcovers]
      · simp [hcovers]
  | none =>
    rw [valueAt_merge_of_none hmatch hp]
    cases hnewer : lastValue (Push.valueAt weekday x) (queue.drop (k + 1)) with
    | some w => simp
    | none =>
      cases hfield : item.fields.wire x.field with
      | none => simp [Push.valueAt, hfield]
      | some w =>
        cases hold : item.covers weekday x <;> cases hcovers : (item.merge p).covers weekday x <;> simp [Push.valueAt, hold, hfield, eq_comm]

theorem keepsLast_append_one {c : ℕ × Push ρ χ} (h : KeepsLast weekday calls) :
    KeepsLast weekday (calls ++ [c]) ↔ CallOk weekday (queueOf calls) c := by
  have hqueue : queueOf (calls ++ [c]) = enqueueFailedPush (queueOf calls) c.1 c.2 := by
    rw [queueOf, foldl_append]
    rfl
  have hlast (x : Cell ρ χ) : lastValue (fun c => c.2.valueAt weekday x) (calls ++ [c]) =
      (c.2.valueAt weekday x).or (delivered weekday (queueOf calls) x) := by
    rw [lastValue_append, h x, lastValue_cons, lastValue_nil, Option.none_or]
  unfold KeepsLast CallOk
  rw [hqueue, enqueueFailedPush]
  simp only [hlast]
  cases hexisting : existing (queueOf calls) c.1 c.2 with
  | none =>
    refine iff_of_true (fun x => ?_) fun item k hsome => nomatch hsome
    rw [delivered_eq_lastValue, delivered_eq_lastValue, lastValue_append, lastValue_cons, lastValue_nil, Option.none_or]
  | some found =>
    obtain ⟨item, k⟩ := found
    obtain ⟨hitem, hmatch⟩ := existing_spec hexisting
    constructor
    · intro hall item' k' heq x
      cases heq
      exact (mergesAt_iff hitem hmatch).mp (hall x)
    · exact fun hall x => (mergesAt_iff hitem hmatch).mpr (hall item k rfl x)

end

/-- The queue is right after every call exactly when every call finds no item or merges without a loss. -/
theorem queued_pushes_keep_last [DecidableEq ρ] [DecidableEq χ] (weekday : ℤ → ℕ) (calls : List (ℕ × Push ρ χ)) :
    (∀ l, l <+: calls → KeepsLast weekday l) ↔ ∀ l c, l ++ [c] <+: calls → CallOk weekday (queueOf l) c := by
  constructor
  · intro h l c hl
    exact (keepsLast_append_one (h l ((prefix_append l [c]).trans hl))).mp (h _ hl)
  · intro h l hl
    induction l using List.reverseRecOn with
    | nil => exact fun x => rfl
    | append_singleton l c ih => exact (keepsLast_append_one (ih ((prefix_append l [c]).trans hl))).mpr (h l c hl)

/-- A push for every day of a week is merged into one for Mondays, and only Monday gets its price. -/
theorem merged_push_loses_days : ¬ KeepsLast (ρ := ℕ) (χ := ℕ) (fun day => (day % 7).toNat)
    [(0, ⟨0, 7, 13, { rate := some 100 }, some [1], none⟩), (0, ⟨0, 7, 13, { rate := some 120 }, none, none⟩)] := by
  intro h
  have hcell := h ⟨0, 9, 0, .price⟩
  exact absurd hcell (by decide +kernel)

end SyrocePms.PushQueue
