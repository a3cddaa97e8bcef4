import Mathlib.Algebra.Order.BigOperators.Group.List
import Mathlib.Algebra.Order.Ring.Int
import Mathlib.Tactic.Abel
import SyrocePms.Lib.Collection

/-! Sums over the documents of a collection that satisfy a predicate. -/

namespace SyrocePms.Lib.Collection

open List

variable {ρ κ : Type*} {key : ρ → κ} [DecidableEq κ] {c d : Collection ρ key} {p : ρ → Bool}
  {f : ρ → ℤ} {r : ρ}

def sumOf (c : Collection ρ key) (p : ρ → Bool) (f : ρ → ℤ) : ℤ := ((c.rows.filter p).map f).sum

omit [DecidableEq κ] in
theorem sumOf_congr {p' : ρ → Bool} {f' : ρ → ℤ} (hp : ∀ x ∈ c, p x = p' x)
    (hf : ∀ x ∈ c, p x = true → f x = f' x) : c.sumOf p f = c.sumOf p' f' := by
  have hfilter : c.rows.filter p = c.rows.filter p' := filter_congr hp
  rw [sumOf, sumOf, ← hfilter]
  refine congrArg List.sum (List.map_congr_left fun x hx => ?_)
  obtain ⟨hmem, hx⟩ := mem_filter.mp hx
  exact hf x hmem hx

omit [DecidableEq κ] in
theorem sumOf_eq_zero (h : ∀ x ∈ c, p x = false) : c.sumOf p f = 0 := by
  have hnil : c.rows.filter p = [] := by
    refine filter_eq_nil_iff.mpr fun x hx => ?_
    rw [h x hx]
    exact Bool.false_ne_true
  rw [sumOf, hnil, map_nil, sum_nil]

omit [DecidableEq κ] in
theorem sumOf_nonneg (h : ∀ x ∈ c, p x = true → 0 ≤ f x) : 0 ≤ c.sumOf p f := by
  refine sum_nonneg fun v hv => ?_
  obtain ⟨x, hx, rfl⟩ := List.mem_map.mp hv
  obtain ⟨hmem, hp⟩ := mem_filter.mp hx
  exact h x hmem hp

theorem sumOf_insertOne (h : c.insertOne r = some d) :
    d.sumOf p f = c.sumOf p f + if p r then f r else 0 := by
  simp only [sumOf, (insertOne_eq_some h).2, filter_append, map_append, sum_append]
  cases hp : p r <;> simp [hp]

theorem sumOf_update {k : κ} {g : ρ → ρ} {hg : ∀ x, key (g x) = key x} (hp : ∀ x, p (g x) = p x)
    (hf : ∀ x, f (g x) = f x) : (c.update k g hg).sumOf p f = c.sumOf p f := by
  simp only [sumOf, update, updateMany, filter_map, List.map_map]
  have hpred : (p ∘ fun x => if decide (key x = k) = true then g x else x) = p := by
    funext x
    simp only [Function.comp]
    split
    · exact hp x
    · rfl
  rw [hpred]
  refine congrArg List.sum (List.map_congr_left fun x _ => ?_)
  simp only [Function.comp]
  split
  · exact hf x
  · rfl

theorem sumOf_ne (h : r ∈ c) : c.sumOf (fun x => p x && key x != key r) f =
    c.sumOf p f - if p r then f r else 0 := by
  obtain ⟨rows, unique⟩ := c
  rw [mem_def] at h
  simp only [sumOf] at h ⊢
  induction rows with
  | nil => cases h
  | cons x rows ih =>
    rw [List.map_cons, List.nodup_cons] at unique
    obtain ⟨hx, unique⟩ := unique
    by_cases hr : r ∈ rows
    · have hne : key x ≠ key r := fun he => hx (he ▸ List.mem_map_of_mem hr)
      have ih := ih unique hr
      cases hp : p x with
      | false => simpa [hp] using ih
      | true =>
        simp only [filter_cons, hp, bne_iff_ne.mpr hne, Bool.and_self, if_true, List.map_cons,
          List.sum_cons]
        omega
    · obtain rfl : r = x := by simpa [hr] using h
      have htail : (rows.filter fun y => p y && key y != key r) = rows.filter p := by
        refine filter_congr fun y hy => ?_
        have hne : key y ≠ key r := fun he => hx (he ▸ List.mem_map_of_mem hy)
        simp [hne]
      cases hp : p r <;> simp [hp, htail]

end SyrocePms.Lib.Collection

/-! The total of a weight over the documents of a collection. -/

namespace SyrocePms.Lib.Collection

variable {ρ κ M : Type*} {key : ρ → κ} [AddCommGroup M] {c d : Collection ρ key} {f : ρ → M} {r : ρ}

def total (c : Collection ρ key) (f : ρ → M) : M := (c.rows.map f).sum

theorem total_eq_zero (h : ∀ x ∈ c, f x = 0) : c.total f = 0 := by
  refine List.sum_eq_zero fun v hv => ?_
  obtain ⟨x, hx, rfl⟩ := List.mem_map.mp hv
  exact h x hx

variable [DecidableEq κ]

theorem total_insertOne (h : c.insertOne r = some d) : d.total f = c.total f + f r := by
  simp [total, (insertOne_eq_some h).2]

theorem total_update {g : ρ → ρ} {hg : ∀ x, key (g x) = key x} (h : r ∈ c) :
    (c.update (key r) g hg).total f = c.total f - f r + f (g r) := by
  obtain ⟨rows, unique⟩ := c
  rw [mem_def] at h
  simp only [total, update, updateMany, List.map_map, Function.comp_def, decide_eq_true_eq] at h ⊢
  induction rows with
  | nil => cases h
  | cons x rows ih =>
    rw [List.map_cons, List.nodup_cons] at unique
    obtain ⟨hx, unique⟩ := unique
    simp only [List.map_cons, List.sum_cons]
    by_cases hr : r ∈ rows
    · have hne : key x ≠ key r := fun he => hx (he ▸ List.mem_map_of_mem hr)
      rw [ih unique hr, if_neg hne]
      abel
    · obtain rfl : r = x := by simpa [hr] using h
      have htail : (rows.map fun y => f (if key y = key r then g y else y)) = rows.map f := by
        refine List.map_congr_left fun y hy => ?_
        have hne : key y ≠ key r := fun he => hx (he ▸ List.mem_map_of_mem hy)
        rw [if_neg hne]
      rw [if_pos rfl, htail]
      abel

end SyrocePms.Lib.Collection
