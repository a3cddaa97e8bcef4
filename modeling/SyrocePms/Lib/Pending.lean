import Mathlib.Algebra.BigOperators.Group.List.Basic
import Mathlib.Tactic.Abel
import SyrocePms.Lib.Threads

/-! What the threads of a pool have in flight: the sum of their weights, or the things that
they hold one after the other. A step changes it by what its own thread changes. -/

namespace SyrocePms.Lib.Pool

open List

variable {σ τ M : Type*} [AddCommGroup M] {w : τ → M} {ts : List τ} {t t' : τ} {k : ℕ}

def inFlight (w : τ → M) (ts : List τ) : M := (ts.map w).sum

@[simp] theorem inFlight_nil : inFlight w [] = 0 := rfl

theorem inFlight_append_one : inFlight w (ts ++ [t]) = inFlight w ts + w t := by
  simp [inFlight]

theorem inFlight_set (ht : ts[k]? = some t) : inFlight w (ts.set k t') = inFlight w ts - w t + w t' := by
  induction ts generalizing k with
  | nil => simp at ht
  | cons u ts ih =>
    cases k with
    | zero =>
      obtain rfl : u = t := by simpa using ht
      simp only [inFlight, set_cons_zero, map_cons, sum_cons]
      abel
    | succ k =>
      have ih := ih (by simpa using ht)
      simp only [inFlight, set_cons_succ, map_cons, sum_cons] at ih ⊢
      rw [ih]
      abel

theorem inFlight_eq_zero (h : ∀ t ∈ ts, w t = 0) : inFlight w ts = 0 := by
  refine sum_eq_zero fun v hv => ?_
  obtain ⟨t, ht, rfl⟩ := mem_map.mp hv
  exact h t ht

variable {α : Type*} {f : τ → List α}

def held (f : τ → List α) (ts : List τ) : List α := ts.flatMap f

@[simp] theorem held_nil : held f [] = [] := rfl

theorem mem_held {a : α} : a ∈ held f ts ↔ ∃ t ∈ ts, a ∈ f t := mem_flatMap

theorem held_append_one : held f (ts ++ [t]) = held f ts ++ f t := by
  simp [held]

/-- A thread holds its things beside those of the others, which it can change for other ones. -/
theorem held_set_perm (ht : ts[k]? = some t) :
    ∃ others, (held f ts).Perm (f t ++ others) ∧ ∀ t', (held f (ts.set k t')).Perm (f t' ++ others) := by
  obtain ⟨hk, rfl⟩ := List.getElem?_eq_some_iff.mp ht
  refine ⟨held f (ts.eraseIdx k), ?_, fun t' => ?_⟩
  · exact ((List.getElem_cons_eraseIdx_perm hk).flatMap_right f).symm
  · exact (set_perm_cons_eraseIdx hk t').flatMap_right f

end SyrocePms.Lib.Pool
