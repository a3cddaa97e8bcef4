import Mathlib.Algebra.Order.Field.Power
import Mathlib.Data.Int.Log
import Mathlib.Data.Rat.Floor
import Mathlib.Tactic.Positivity

/-! Decimal arithmetic of a fixed number of significant digits. Every product and quotient
is rounded to `p` digits, ties to even, and a result is taken to an integer with ties up. -/

namespace SyrocePms.Lib.Decimal

def roundEven (x : ℚ) : ℤ :=
  let k := ⌊x⌋
  if x - k < 1 / 2 then k else if 1 / 2 < x - k then k + 1 else k + k % 2

/-- The nearest integer, a tie to the upper one. -/
def halfUp (x : ℚ) : ℤ := ⌊x + 1 / 2⌋

/-- The unit of the last of `p` digits of `x`. -/
def unit (p : ℕ) (x : ℚ) : ℚ := 10 ^ (Int.log 10 |x| + 1 - p)

def digits (p : ℕ) (x : ℚ) : ℚ := roundEven (x / unit p x) * unit p x

theorem roundEven_error (x : ℚ) : |(roundEven x : ℚ) - x| ≤ 1 / 2 := by
  have hlo := Int.floor_le x
  have hhi := Int.lt_floor_add_one x
  have hm₀ : (0 : ℚ) ≤ (⌊x⌋ % 2 : ℤ) := by
    exact_mod_cast Int.emod_nonneg ⌊x⌋ (by norm_num : (2 : ℤ) ≠ 0)
  have hm₁ : ((⌊x⌋ % 2 : ℤ) : ℚ) ≤ 1 := by
    exact_mod_cast (show ⌊x⌋ % 2 ≤ 1 by omega)
  unfold roundEven
  dsimp only
  split_ifs <;> push_cast <;> rw [abs_le] <;> constructor <;> linarith

theorem le_roundEven {n : ℤ} {x : ℚ} (h : n ≤ x) : n ≤ roundEven x := by
  have hfloor : n ≤ ⌊x⌋ := Int.le_floor.mpr h
  unfold roundEven
  dsimp only
  split_ifs <;> omega

theorem unit_pos (p : ℕ) (x : ℚ) : 0 < unit p x := by
  unfold unit
  positivity

/-- The relative error of `p` digits. -/
def epsilon (p : ℕ) : ℚ := 10 ^ (1 - p : ℤ) / 2

theorem epsilon_pos (p : ℕ) : 0 < epsilon p := by
  unfold epsilon
  positivity

theorem unit_le (p : ℕ) {x : ℚ} (hx : x ≠ 0) : unit p x / 2 ≤ epsilon p * |x| := by
  have hlog : (10 : ℚ) ^ Int.log 10 |x| ≤ |x| := by
    simpa using Int.zpow_log_le_self (b := 10) (by norm_num) (abs_pos.mpr hx)
  have hunit : unit p x = 10 ^ (1 - p : ℤ) * 10 ^ Int.log 10 |x| := by
    rw [unit, ← zpow_add₀ (by norm_num : (10 : ℚ) ≠ 0)]
    congr 1
    ring
  have hpos : (0 : ℚ) < 10 ^ (1 - p : ℤ) := by positivity
  rw [hunit, epsilon]
  nlinarith [mul_le_mul_of_nonneg_left hlog hpos.le]

theorem digits_error (p : ℕ) (x : ℚ) : |digits p x - x| ≤ epsilon p * |x| := by
  by_cases hx : x = 0
  · subst hx
    simp [digits, roundEven]
  have hu := unit_pos p x
  have hscaled : digits p x - x = (roundEven (x / unit p x) - x / unit p x) * unit p x := by
    rw [digits, sub_mul, div_mul_cancel₀ x hu.ne']
  rw [hscaled, abs_mul, abs_of_pos hu]
  calc |(roundEven (x / unit p x) : ℚ) - x / unit p x| * unit p x
      ≤ 1 / 2 * unit p x := by gcongr; exact roundEven_error _
    _ = unit p x / 2 := by ring
    _ ≤ epsilon p * |x| := unit_le p hx

/-! ### Bounds of nonnegative values -/

variable {p : ℕ} {x y : ℚ}

theorem digits_le (hx : 0 ≤ x) : digits p x ≤ (1 + epsilon p) * x := by
  have h := (abs_le.mp (digits_error p x)).2
  rw [abs_of_nonneg hx] at h
  linarith

theorem le_digits (hx : 0 ≤ x) : (1 - epsilon p) * x ≤ digits p x := by
  have h := (abs_le.mp (digits_error p x)).1
  rw [abs_of_nonneg hx] at h
  linarith

theorem digits_nonneg (hp : epsilon p ≤ 1) (hx : 0 ≤ x) : 0 ≤ digits p x :=
  le_trans (mul_nonneg (sub_nonneg.mpr hp) hx) (le_digits hx)

/-- Two roundings in a row, with an exact factor between them. -/
theorem digits_mul_digits_error (hp : epsilon p ≤ 1) (hx : 0 ≤ x) (hy : 0 ≤ y) :
    |digits p (x * digits p y) - x * y| ≤ 3 * epsilon p * (x * y) := by
  have hε := (epsilon_pos p).le
  have hd := digits_nonneg hp hy
  have hxy : 0 ≤ x * y := mul_nonneg hx hy
  have hupper : digits p (x * digits p y) ≤ (1 + epsilon p) * ((1 + epsilon p) * (x * y)) := by
    calc digits p (x * digits p y)
        ≤ (1 + epsilon p) * (x * digits p y) := digits_le (mul_nonneg hx hd)
      _ ≤ (1 + epsilon p) * (x * ((1 + epsilon p) * y)) := by gcongr; exact digits_le hy
      _ = (1 + epsilon p) * ((1 + epsilon p) * (x * y)) := by ring
  have hlower : (1 - epsilon p) * ((1 - epsilon p) * (x * y)) ≤ digits p (x * digits p y) := by
    calc (1 - epsilon p) * ((1 - epsilon p) * (x * y))
        = (1 - epsilon p) * (x * ((1 - epsilon p) * y)) := by ring
      _ ≤ (1 - epsilon p) * (x * digits p y) := by
        have := sub_nonneg.mpr hp
        gcongr
        exact le_digits hy
      _ ≤ digits p (x * digits p y) := le_digits (mul_nonneg hx hd)
  have hsq : epsilon p * epsilon p * (x * y) ≤ epsilon p * (x * y) := by
    have := mul_le_mul_of_nonneg_left hp hε
    rw [mul_one] at this
    gcongr
  have hsq₀ : 0 ≤ epsilon p * epsilon p * (x * y) := by positivity
  rw [abs_le]
  constructor <;> nlinarith

/-! ### Whole values -/

theorem roundEven_le {n : ℤ} (h : x ≤ n) : roundEven x ≤ n := by
  have hfloor : ⌊x⌋ ≤ n := Int.floor_le_iff.mpr (by linarith)
  unfold roundEven
  dsimp only
  rcases hfloor.lt_or_eq with hlt | rfl
  · split_ifs <;> omega
  · rw [if_pos (by linarith)]

/-- An integer is a whole number of units of what is below `10 ^ p`. -/
theorem natCast_div_unit (n : ℕ) (h0 : 0 < x) (h : x < 10 ^ p) : ∃ k : ℕ, (n : ℚ) / unit p x = k := by
  have hlog : Int.log 10 |x| < p := by
    refine (Int.lt_zpow_iff_log_lt (by norm_num) (abs_pos.mpr h0.ne')).mp ?_
    rwa [abs_of_pos h0, zpow_natCast]
  obtain ⟨k, hk⟩ : ∃ k : ℕ, -(Int.log 10 |x| + 1 - p) = k := ⟨_, (Int.toNat_of_nonneg (by omega)).symm⟩
  refine ⟨n * 10 ^ k, ?_⟩
  rw [unit, div_eq_mul_inv, ← zpow_neg, hk, zpow_natCast]
  push_cast
  rfl

theorem digits_le_natCast {n : ℕ} (h0 : 0 ≤ x) (h : x ≤ n) (hn : (n : ℚ) < 10 ^ p) : digits p x ≤ n := by
  rcases h0.eq_or_lt with rfl | hpos
  · simp [digits, roundEven]
  · obtain ⟨k, hk⟩ := natCast_div_unit n hpos (h.trans_lt hn)
    have hu := unit_pos p x
    have hround : roundEven (x / unit p x) ≤ (k : ℤ) := by
      refine roundEven_le ?_
      rw [Int.cast_natCast, ← hk]
      gcongr
    have hcast : (roundEven (x / unit p x) : ℚ) ≤ n / unit p x := by
      rw [hk]
      exact_mod_cast hround
    exact (le_div_iff₀ hu).mp hcast

theorem digits_natCast {n : ℕ} (hn : (n : ℚ) < 10 ^ p) : digits p n = n := by
  refine le_antisymm (digits_le_natCast (Nat.cast_nonneg n) le_rfl hn) ?_
  rcases Nat.eq_zero_or_pos n with rfl | hpos
  · simp [digits, roundEven]
  · obtain ⟨k, hk⟩ := natCast_div_unit n (Nat.cast_pos.mpr hpos) hn
    have hround : (k : ℤ) ≤ roundEven (n / unit p n) := le_roundEven (by rw [hk, Int.cast_natCast])
    have hcast : (n : ℚ) / unit p n ≤ roundEven (n / unit p n) :=
      hk.le.trans (by exact_mod_cast hround)
    rwa [div_le_iff₀ (unit_pos p _), ← digits] at hcast
/-! ### Integers -/

theorem halfUp_le {n : ℤ} (h : x < n + 1 / 2) : halfUp x ≤ n := by
  have : halfUp x < n + 1 := by
    rw [halfUp, Int.floor_lt]
    push_cast
    linarith
  omega

theorem le_halfUp {n : ℤ} (h : n - 1 / 2 ≤ x) : n ≤ halfUp x := by
  rw [halfUp, Int.le_floor]
  linarith

theorem halfUp_eq {n : ℤ} (h₁ : (n : ℚ) - 1 / 2 ≤ x) (h₂ : x < n + 1 / 2) : halfUp x = n :=
  le_antisymm (halfUp_le h₂) (le_halfUp h₁)

@[simp] theorem halfUp_intCast (n : ℤ) : halfUp n = n :=
  halfUp_eq (by linarith) (by linarith)

theorem halfUp_error (x : ℚ) : |(halfUp x : ℚ) - x| ≤ 1 / 2 := by
  have hlo := Int.floor_le (x + 1 / 2)
  have hhi := Int.lt_floor_add_one (x + 1 / 2)
  unfold halfUp
  rw [abs_le]
  constructor <;> linarith

end SyrocePms.Lib.Decimal
