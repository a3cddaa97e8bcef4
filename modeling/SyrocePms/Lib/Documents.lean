import Mathlib.Algebra.Order.BigOperators.Group.List
import Mathlib.Tactic.Abel

/-! Documents under no unique index, in the order of their insertion. An update of one document
reaches the oldest that is found, and changes a sum by what it changes there. -/

namespace SyrocePms.Lib.Documents

open List

variable {ρ M : Type*} {l : List ρ} {r x : ρ} {p q : ρ → Bool} {g : ρ → ρ} {f : ρ → M}

/-- Applies `g` to the oldest document that satisfies `p`. -/
def updateOne (p : ρ → Bool) (g : ρ → ρ) : List ρ → List ρ
  | [] => []
  | r :: l => if p r then g r :: l else r :: updateOne p g l

theorem mem_of_mem_updateOne (h : x ∈ updateOne p g l) : x ∈ l ∨ ∃ r ∈ l, l.find? p = some r ∧ x = g r := by
  induction l with
  | nil => cases h
  | cons r l ih =>
    rw [updateOne] at h
    split at h
    · rename_i hp
      obtain rfl | h := mem_cons.mp h
      · exact .inr ⟨r, mem_cons_self, by simp [hp], rfl⟩
      · exact .inl (mem_cons_of_mem _ h)
    · rename_i hp
      obtain rfl | h := mem_cons.mp h
      · exact .inl mem_cons_self
      · obtain h | ⟨y, hy, hfind, rfl⟩ := ih h
        · exact .inl (mem_cons_of_mem _ h)
        · exact .inr ⟨y, mem_cons_of_mem _ hy, by simp [hp, hfind], rfl⟩

theorem filter_updateOne (h : l.find? p = some r) (hr : q r = false) (hg : q (g r) = false) :
    (updateOne p g l).filter q = l.filter q := by
  induction l with
  | nil => cases h
  | cons x l ih =>
    rw [updateOne]
    split
    · rename_i hp
      have heq : x = r := by simpa [hp] using h
      subst heq
      simp [hr, hg]
    · rename_i hp
      have hfind : l.find? p = some r := by simpa [hp] using h
      rw [filter_cons, filter_cons, ih hfind]

/-! ### Sums -/

section

variable [AddMonoid M]

def sumOf (q : ρ → Bool) (f : ρ → M) (l : List ρ) : M := ((l.filter q).map f).sum

@[simp] theorem sumOf_nil : sumOf q f [] = 0 := rfl

theorem sumOf_cons : sumOf q f (r :: l) = (if q r then f r else 0) + sumOf q f l := by
  cases hq : q r <;> simp [sumOf, hq]

theorem sumOf_append_one : sumOf q f (l ++ [r]) = sumOf q f l + if q r then f r else 0 := by
  cases hq : q r <;> simp [sumOf, hq]

theorem sumOf_eq_zero (h : ∀ x ∈ l, q x = false) : sumOf q f l = 0 := by
  have hnil : l.filter q = [] := filter_eq_nil_iff.mpr fun x hx => by simp [h x hx]
  rw [sumOf, hnil, map_nil, sum_nil]

end

theorem sumOf_nonneg [AddCommMonoid M] [PartialOrder M] [IsOrderedAddMonoid M] (h : ∀ x ∈ l, q x = true → 0 ≤ f x) :
    0 ≤ sumOf q f l := by
  refine sum_nonneg fun v hv => ?_
  obtain ⟨x, hx, rfl⟩ := mem_map.mp hv
  obtain ⟨hmem, hq⟩ := mem_filter.mp hx
  exact h x hmem hq

theorem sumOf_updateOne [AddCommGroup M] (h : l.find? p = some r) :
    sumOf q f (updateOne p g l) + (if q r then f r else 0) = sumOf q f l + if q (g r) then f (g r) else 0 := by
  induction l with
  | nil => cases h
  | cons x l ih =>
    rw [updateOne]
    split
    · rename_i hp
      have heq : x = r := by simpa [hp] using h
      rw [sumOf_cons, sumOf_cons, heq]
      abel
    · rename_i hp
      have hfind : l.find? p = some r := by simpa [hp] using h
      rw [sumOf_cons, sumOf_cons, add_assoc, ih hfind, add_assoc]

end SyrocePms.Lib.Documents
