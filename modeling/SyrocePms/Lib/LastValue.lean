import Mathlib.Data.List.Basic

/-! The last value that the elements of a list give: what a sequence of writes leaves. -/

namespace SyrocePms.Lib

open List

variable {α β : Type*} {f : α → Option β} {l : List α} {a a' : α} {k : ℕ}

def lastValue (f : α → Option β) (l : List α) : Option β := (l.filterMap f).getLast?

@[simp] theorem lastValue_nil : lastValue f [] = none := rfl

theorem lastValue_append (l l' : List α) : lastValue f (l ++ l') = (lastValue f l').or (lastValue f l) := by
  rw [lastValue, filterMap_append, getLast?_append]
  rfl

theorem lastValue_cons : lastValue f (a :: l) = (lastValue f l).or (f a) := by
  rw [← singleton_append, lastValue_append, lastValue, lastValue]
  cases hf : f a <;> simp [hf]

theorem lastValue_eq_none : lastValue f l = none ↔ ∀ a ∈ l, f a = none := by
  rw [lastValue, getLast?_eq_none_iff, filterMap_eq_nil_iff]

/-- The last element alone gives the last value, unless another one gives a value and it does
not. -/
theorem lastValue_append_singleton_eq : lastValue f (l ++ [a]) = lastValue f [a] ↔
    ∀ a' ∈ l, (f a').isSome = true → (f a).isSome = true := by
  rw [lastValue_append]
  cases ha : f a with
  | some b => simp [lastValue_cons, ha]
  | none =>
    rw [lastValue_cons, lastValue_nil, Option.none_or, ha, Option.none_or, lastValue_eq_none]
    simp

theorem foldl_or_eq_lastValue (o : Option β) : l.foldl (fun o a => (f a).or o) o = (lastValue f l).or o := by
  induction l generalizing o with
  | nil => rfl
  | cons a l ih => rw [foldl_cons, ih, lastValue_cons, Option.or_assoc]

/-- One element with what comes after it and what comes before. -/
theorem lastValue_eq_of_getElem? (h : l[k]? = some a) :
    lastValue f l = (lastValue f (l.drop (k + 1))).or ((f a).or (lastValue f (l.take k))) := by
  obtain ⟨hk, rfl⟩ := List.getElem?_eq_some_iff.mp h
  conv_lhs => rw [← List.take_append_drop k l, List.drop_eq_getElem_cons hk]
  rw [lastValue_append, lastValue_cons, Option.or_assoc]

theorem lastValue_set (h : l[k]? = some a) :
    lastValue f (l.set k a') = (lastValue f (l.drop (k + 1))).or ((f a').or (lastValue f (l.take k))) := by
  obtain ⟨hk, -⟩ := List.getElem?_eq_some_iff.mp h
  have hset : (l.set k a')[k]? = some a' := List.getElem?_set_self hk
  rw [lastValue_eq_of_getElem? hset, List.drop_set_of_lt (by omega), List.take_set_of_le (Nat.le_refl k)]

end SyrocePms.Lib
