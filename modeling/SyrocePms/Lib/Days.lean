import Mathlib.Algebra.Order.Ring.Int
import Mathlib.Data.List.Nodup

/-! Days by their ordinals in the calendar, of which the last is 9999-12-31. -/

namespace SyrocePms.Lib

open List

def lastDay : ℤ := 3652059

def daysBetween (first last : ℤ) : List ℤ := (List.range (last + 1 - first).toNat).map fun k : ℕ => first + k

variable {first last d : ℤ}

theorem mem_daysBetween : d ∈ daysBetween first last ↔ first ≤ d ∧ d ≤ last := by
  simp only [daysBetween, mem_map, mem_range]
  constructor
  · rintro ⟨k, hk, rfl⟩
    omega
  · intro h
    exact ⟨(d - first).toNat, by omega, by omega⟩

theorem nodup_daysBetween (first last : ℤ) : (daysBetween first last).Nodup :=
  nodup_range.map fun k k' h => by simpa using h

theorem daysBetween_of_lt (h : last < first) : daysBetween first last = [] := by
  have hzero : (last + 1 - first).toNat = 0 := by omega
  rw [daysBetween, hzero]
  rfl

theorem daysBetween_append (first middle last : ℤ) (h : first ≤ middle + 1) (h' : middle ≤ last) :
    daysBetween first middle ++ daysBetween (middle + 1) last = daysBetween first last := by
  have hsplit : (last + 1 - first).toNat = (middle + 1 - first).toNat + (last + 1 - (middle + 1)).toNat := by omega
  have hcast : ((middle + 1 - first).toNat : ℤ) = middle + 1 - first := by omega
  simp only [daysBetween]
  rw [hsplit, range_add, map_append, map_map]
  congr 1
  refine map_congr_left fun k _ => ?_
  rw [Function.comp_apply, Nat.cast_add, hcast]
  omega

end SyrocePms.Lib
