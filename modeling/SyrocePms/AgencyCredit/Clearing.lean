import Mathlib.Algebra.BigOperators.Group.Finset.Piecewise
import Mathlib.Algebra.Order.BigOperators.Group.List
import SyrocePms.AgencyCredit.Exposure

/-! What a statement clears of its bookings: the credit goes to its lines one after the other. -/

namespace SyrocePms.AgencyCredit.Statement

open List

variable {b : ℕ} {c : ℤ} {cs : List CreditLine}

/-- What the agency owes on the line of a booking. -/
def due (l : CreditLine) : ℤ := if l.booking = none then 0 else max 0 l.owes.agency

def dueOf (b : ℕ) (cs : List CreditLine) : ℤ := (cs.map fun l => if l.booking = some b then due l else 0).sum

/-- One line takes its due, or what is left. -/
theorem clear_cons (l : CreditLine) (b : ℕ) (c : ℤ) (cs : List CreditLine) :
    clear b c (l :: cs) = (if l.booking = some b then min (due l) (max 0 c) else 0) +
      clear b (c - min (due l) (max 0 c)) cs := by
  rw [clear, due]
  grind

theorem due_nonneg (l : CreditLine) : 0 ≤ due l := by
  unfold due
  split_ifs <;> omega

theorem sum_due_nonneg (cs : List CreditLine) : 0 ≤ (cs.map due).sum :=
  sum_nonneg (forall_mem_map.mpr fun l _ => due_nonneg l)

theorem sum_clear {S : Finset ℕ} (h : ∀ l ∈ cs, ∀ b, l.booking = some b → b ∈ S) (c : ℤ) :
    ∑ b ∈ S, clear b c cs = min (max 0 c) (cs.map due).sum := by
  induction cs generalizing c with
  | nil => simp [clear]
  | cons l cs ih =>
    obtain ⟨hl, h⟩ := forall_mem_cons.mp h
    have hone : ∑ b ∈ S, (if l.booking = some b then min (due l) (max 0 c) else 0) = min (due l) (max 0 c) := by
      cases hb : l.booking with
      | none => simp [due, hb]
      | some b => simp [hl b hb]
    have hrest := sum_due_nonneg cs
    have hdue := due_nonneg l
    simp only [clear_cons, Finset.sum_add_distrib, hone, ih h, map_cons, sum_cons]
    omega

theorem clear_le (cs : List CreditLine) (b : ℕ) (c : ℤ) :
    clear b c cs ≤ dueOf b cs ∧ ((cs.map due).sum ≤ c → clear b c cs = dueOf b cs) := by
  induction cs generalizing c with
  | nil => exact ⟨le_rfl, fun _ => rfl⟩
  | cons l cs ih =>
    obtain ⟨hle, heq⟩ := ih (c - min (due l) (max 0 c))
    have hrest := sum_due_nonneg cs
    have hdue := due_nonneg l
    simp only [clear_cons, dueOf, map_cons, sum_cons] at hle heq ⊢
    refine ⟨by split_ifs <;> omega, fun hc => ?_⟩
    rw [heq (by omega)]
    split_ifs <;> omega

/-- No booking is cleared beyond its lines, the credit is used up as far as it goes, and one that
covers the statement clears every booking. -/
theorem settled_exact (st : Statement) :
    (∀ b, st.settled b ≤ dueOf b st.creditLines) ∧
      ∑ b ∈ (st.creditLines.filterMap CreditLine.booking).toFinset, st.settled b =
        min (max 0 st.credit) (st.creditLines.map due).sum ∧
      ((st.creditLines.map due).sum ≤ st.credit → ∀ b, st.settled b = dueOf b st.creditLines) := by
  refine ⟨fun b => (clear_le _ b _).1, sum_clear (fun l hl b hb => ?_) _, fun h b => (clear_le _ b _).2 h⟩
  exact mem_toFinset.mpr (mem_filterMap.mpr ⟨l, hl, hb⟩)

end SyrocePms.AgencyCredit.Statement
