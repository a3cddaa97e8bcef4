import Mathlib.Data.List.Nodup

/-! Document collections under one unique index. The key of a document is a function
of the document, two stored documents never share a key, and documents keep the order
in which they were inserted, so that a lookup by an arbitrary predicate answers the
oldest match. -/

namespace SyrocePms.Lib

open List

/-- The stored documents, oldest first, with the unique index as a field. -/
structure Collection (ρ : Type*) {κ : Type*} (key : ρ → κ) where
  rows : List ρ
  unique : (rows.map key).Nodup

namespace Collection

variable {ρ κ : Type*} {key : ρ → κ}

instance : Membership ρ (Collection ρ key) := ⟨fun c r => r ∈ c.rows⟩

theorem mem_def {c : Collection ρ key} {r : ρ} : r ∈ c ↔ r ∈ c.rows := Iff.rfl

@[ext] theorem ext' {c d : Collection ρ key} (h : c.rows = d.rows) : c = d := by
  cases c; cases d; simp_all

def empty : Collection ρ key := ⟨[], nodup_nil⟩

@[simp] theorem not_mem_empty {r : ρ} : r ∉ (empty : Collection ρ key) := not_mem_nil

/-- The unique index: a key determines its document. -/
theorem eq_of_key {c : Collection ρ key} {r r' : ρ} (h : r ∈ c) (h' : r' ∈ c)
    (hk : key r = key r') : r = r' :=
  inj_on_of_nodup_map c.unique h h' hk

/-- A search that only one document can meet finds no second one. -/
theorem length_filter_le_one {c : Collection ρ key} {p : ρ → Bool} {r : ρ}
    (h : ∀ x ∈ c, p x = true → x = r) : (c.rows.filter p).length ≤ 1 := by
  have hall : ∀ x ∈ c.rows.filter p, x = r := by
    intro x hx
    obtain ⟨hx, hp⟩ := mem_filter.mp hx
    exact h x hx hp
  have hnodup : (c.rows.filter p).Nodup := c.unique.of_map.filter p
  rw [eq_replicate_of_mem hall] at hnodup
  exact nodup_replicate.mp hnodup

/-! ### Lookups -/

/-- The oldest document that satisfies `p`. -/
def findOne (c : Collection ρ key) (p : ρ → Bool) : Option ρ := c.rows.find? p

/-- Whether some document satisfies `p`. -/
def any (c : Collection ρ key) (p : ρ → Bool) : Bool := c.rows.any p

theorem mem_of_findOne {c : Collection ρ key} {p : ρ → Bool} {r : ρ}
    (h : c.findOne p = some r) : r ∈ c ∧ p r = true :=
  ⟨mem_of_find?_eq_some h, find?_some h⟩

theorem findOne_eq_none {c : Collection ρ key} {p : ρ → Bool} :
    c.findOne p = none ↔ ∀ r ∈ c, ¬ p r = true := by
  simp [findOne, mem_def]

@[simp] theorem any_eq_true {c : Collection ρ key} {p : ρ → Bool} :
    c.any p = true ↔ ∃ r ∈ c, p r = true := by
  simp [any, mem_def]

theorem any_eq_false {c : Collection ρ key} {p : ρ → Bool} :
    c.any p = false ↔ ∀ r ∈ c, ¬ p r = true := by
  simp [any, mem_def]

section Keyed

variable [DecidableEq κ]

def get? (c : Collection ρ key) (k : κ) : Option ρ := c.findOne fun r => key r = k

theorem get?_eq_some {c : Collection ρ key} {k : κ} {r : ρ} :
    c.get? k = some r ↔ r ∈ c ∧ key r = k := by
  constructor
  · intro h
    have := mem_of_findOne h
    simpa using this
  · rintro ⟨hr, hk⟩
    cases h : c.get? k with
    | none =>
      have := findOne_eq_none.mp h r hr
      simp [hk] at this
    | some r' =>
      have h' := mem_of_findOne h
      rw [eq_of_key h'.1 hr (by simpa [hk] using h'.2)]

theorem get?_eq_none {c : Collection ρ key} {k : κ} :
    c.get? k = none ↔ ∀ r ∈ c, key r ≠ k := by
  simp [get?, findOne_eq_none]

def insertOne (c : Collection ρ key) (r : ρ) : Option (Collection ρ key) :=
  if h : key r ∈ c.rows.map key then none
  else some ⟨c.rows ++ [r], by
    rw [map_append, nodup_append]
    refine ⟨c.unique, by simp, ?_⟩
    rintro k hk k' hk' rfl
    simp only [map_cons, map_nil, mem_singleton] at hk'
    exact h (hk' ▸ hk)⟩

theorem insertOne_eq_some {c d : Collection ρ key} {r : ρ} (h : c.insertOne r = some d) :
    (∀ r' ∈ c, key r' ≠ key r) ∧ d.rows = c.rows ++ [r] := by
  simp only [insertOne] at h
  split at h
  · cases h
  · rename_i hk
    cases h
    refine ⟨fun r' hr' he => hk (mem_map.mpr ⟨r', hr', he⟩), rfl⟩

theorem exists_insertOne {c : Collection ρ key} {r : ρ} (h : ∀ r' ∈ c, key r' ≠ key r) :
    ∃ d, c.insertOne r = some d := by
  have hkey : key r ∉ c.rows.map key := by
    intro hmem
    obtain ⟨r', hr', hk⟩ := mem_map.mp hmem
    exact h r' hr' hk
  exact ⟨_, dif_neg hkey⟩

theorem mem_insertOne {c d : Collection ρ key} {r x : ρ} (h : c.insertOne r = some d) :
    x ∈ d ↔ x ∈ c ∨ x = r := by
  rw [mem_def, (insertOne_eq_some h).2]
  simp [mem_def]

end Keyed

/-! ### Updates -/

def updateMany (c : Collection ρ key) (p : ρ → Bool) (f : ρ → ρ)
    (hf : ∀ r, key (f r) = key r := by intro _; rfl) : Collection ρ key where
  rows := c.rows.map fun r => if p r then f r else r
  unique := by
    have : (c.rows.map fun r => if p r then f r else r).map key = c.rows.map key := by
      rw [map_map]
      refine map_congr_left fun r _ => ?_
      simp only [Function.comp]
      split
      · exact hf r
      · rfl
    rw [this]
    exact c.unique

theorem mem_updateMany {c : Collection ρ key} {p : ρ → Bool} {f : ρ → ρ}
    {hf : ∀ r, key (f r) = key r} {x : ρ} :
    x ∈ c.updateMany p f hf ↔ ∃ r ∈ c, x = if p r then f r else r := by
  simp only [updateMany, mem_def, mem_map]
  constructor
  · rintro ⟨r, hr, rfl⟩
    exact ⟨r, hr, rfl⟩
  · rintro ⟨r, hr, rfl⟩
    exact ⟨r, hr, rfl⟩

theorem updateMany_eq_self {c : Collection ρ key} {p : ρ → Bool} {f : ρ → ρ}
    {hf : ∀ r, key (f r) = key r} (h : ∀ r ∈ c, ¬ p r = true) : c.updateMany p f hf = c := by
  ext1
  have hid : ∀ r ∈ c.rows, (if p r then f r else r) = r := fun r hr => if_neg (h r hr)
  exact (map_congr_left hid).trans (map_id' _)

theorem findOne_updateMany {c : Collection ρ key} {p q : ρ → Bool} {f : ρ → ρ}
    {hf : ∀ r, key (f r) = key r} (hq : ∀ r, q (f r) = q r) :
    (c.updateMany p f hf).findOne q = (c.findOne q).map fun r => if p r then f r else r := by
  have : (q ∘ fun r => if p r then f r else r) = q := by
    funext r
    simp only [Function.comp]
    split
    · exact hq r
    · rfl
  simp only [updateMany, findOne, find?_map, this]

/-- Removes the documents that satisfy `p`. -/
def deleteMany (c : Collection ρ key) (p : ρ → Bool) : Collection ρ key where
  rows := c.rows.filter fun r => !p r
  unique := c.unique.sublist (filter_sublist.map key)

@[simp] theorem mem_deleteMany {c : Collection ρ key} {p : ρ → Bool} {x : ρ} :
    x ∈ c.deleteMany p ↔ x ∈ c ∧ ¬ p x = true := by
  simp [deleteMany, mem_def]

section Keyed

variable [DecidableEq κ]

def update (c : Collection ρ key) (k : κ) (f : ρ → ρ)
    (hf : ∀ r, key (f r) = key r := by intro _; rfl) : Collection ρ key :=
  c.updateMany (fun r => key r = k) f hf

theorem mem_update {c : Collection ρ key} {k : κ} {f : ρ → ρ}
    {hf : ∀ r, key (f r) = key r} {x : ρ} :
    x ∈ c.update k f hf ↔ (x ∈ c ∧ key x ≠ k) ∨ ∃ r ∈ c, key r = k ∧ x = f r := by
  rw [update, mem_updateMany]
  constructor
  · rintro ⟨r, hr, rfl⟩
    by_cases hk : key r = k
    · exact .inr ⟨r, hr, hk, by simp [hk]⟩
    · exact .inl (by simp [hk, hr])
  · rintro (⟨hx, hk⟩ | ⟨r, hr, hk, rfl⟩)
    · exact ⟨x, hx, by simp [hk]⟩
    · exact ⟨r, hr, by simp [hk]⟩

/-- The documents under other keys stay. -/
theorem mem_update_of_ne {c : Collection ρ key} {k : κ} {f : ρ → ρ}
    {hf : ∀ r, key (f r) = key r} {x : ρ} (h : key x ≠ k) : x ∈ c.update k f hf ↔ x ∈ c := by
  rw [mem_update]
  constructor
  · rintro (⟨hx, -⟩ | ⟨r, -, hk, rfl⟩)
    · exact hx
    · exact absurd ((hf r).trans hk) h
  · exact fun hx => .inl ⟨hx, h⟩

theorem exists_of_mem_update {c : Collection ρ key} {k : κ} {f : ρ → ρ}
    {hf : ∀ r, key (f r) = key r} {x : ρ} (hx : x ∈ c.update k f hf) (h : key x = k) :
    ∃ r ∈ c, key r = k ∧ x = f r := by
  obtain ⟨-, hne⟩ | hr := mem_update.mp hx
  · exact absurd h hne
  · exact hr

theorem get?_update {c : Collection ρ key} {k k' : κ} {f : ρ → ρ}
    {hf : ∀ r, key (f r) = key r} :
    (c.update k f hf).get? k' = (c.get? k').map fun r => if k' = k then f r else r := by
  unfold update get?
  rw [findOne_updateMany fun r => by rw [hf]]
  cases hr : c.findOne fun r => decide (key r = k') with
  | none => rfl
  | some r =>
    have hk : key r = k' := by simpa using (mem_of_findOne hr).2
    simp [hk]

/-- Stores `r` under its key, over the document that was there. -/
def upsert (c : Collection ρ key) (r : ρ) : Collection ρ key :=
  if h : key r ∈ c.rows.map key then
    { rows := c.rows.map fun x => if key x = key r then r else x
      unique := by
        have : (c.rows.map fun x => if key x = key r then r else x).map key
            = c.rows.map key := by
          rw [map_map]
          refine map_congr_left fun x _ => ?_
          simp only [Function.comp]
          split
          · exact (by assumption : key x = key r).symm
          · rfl
        rw [this]
        exact c.unique }
  else
    { rows := c.rows ++ [r]
      unique := by
        rw [map_append, nodup_append]
        refine ⟨c.unique, by simp, ?_⟩
        rintro k hk k' hk' rfl
        simp only [map_cons, map_nil, mem_singleton] at hk'
        exact h (hk' ▸ hk) }

theorem mem_upsert {c : Collection ρ key} {r x : ρ} :
    x ∈ c.upsert r ↔ x = r ∨ (x ∈ c ∧ key x ≠ key r) := by
  unfold upsert
  split
  · rename_i h
    obtain ⟨r', hr', hk⟩ := mem_map.mp h
    simp only [mem_def, mem_map]
    constructor
    · rintro ⟨y, hy, rfl⟩
      by_cases hyk : key y = key r
      · simp [hyk]
      · simp [hyk, hy]
    · rintro (rfl | ⟨hx, hxk⟩)
      · exact ⟨r', hr', by simp [hk]⟩
      · exact ⟨x, hx, by simp [hxk]⟩
  · rename_i h
    simp only [mem_def, mem_append, mem_singleton]
    constructor
    · rintro (hx | rfl)
      · exact .inr ⟨hx, fun he => h (mem_map.mpr ⟨x, hx, he⟩)⟩
      · exact .inl rfl
    · rintro (rfl | ⟨hx, -⟩)
      · exact .inr rfl
      · exact .inl hx

theorem get?_upsert {c : Collection ρ key} {r : ρ} {k : κ} :
    (c.upsert r).get? k = if k = key r then some r else c.get? k := by
  by_cases hk : k = key r
  · rw [if_pos hk]
    exact get?_eq_some.mpr ⟨mem_upsert.mpr (.inl rfl), hk.symm⟩
  · rw [if_neg hk]
    cases hc : c.get? k with
    | none =>
      refine get?_eq_none.mpr fun x hx => ?_
      obtain rfl | ⟨hx, -⟩ := mem_upsert.mp hx
      · exact Ne.symm hk
      · exact get?_eq_none.mp hc x hx
    | some x =>
      obtain ⟨hx, hxk⟩ := get?_eq_some.mp hc
      exact get?_eq_some.mpr ⟨mem_upsert.mpr (.inr ⟨hx, by rwa [hxk]⟩), hxk⟩

end Keyed

end Collection

end SyrocePms.Lib
