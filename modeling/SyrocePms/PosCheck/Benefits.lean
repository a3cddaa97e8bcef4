import SyrocePms.Lib.Decimal

/-! The loyalty benefits of a sale that is refunded in parts. Every refund takes back the share of the
points that the cumulative refund asks for, less what the refunds before it took. -/

namespace SyrocePms.PosCheck.Benefits

open Lib.Decimal List

/-- `checkout_quote`. Points without a guest are refused, and what is stored fits in 64 bits. -/
structure Quote where
  guestId : Option ℕ
  pointsEarned : ℕ
  loyaltyPoints : ℕ
  withoutGuest : guestId = none → pointsEarned = 0 ∧ loyaltyPoints = 0
  stored : pointsEarned < 9223372036854775808 ∧ loyaltyPoints < 9223372036854775808

/-- Amounts are in cents. -/
structure Sale where
  paid : ℕ
  quote : Option Quote
  refundedAmount : ℕ := 0
  loyaltyEarnedReversed : ℤ := 0
  loyaltyRedeemedRestored : ℤ := 0

def Sale.earned (s : Sale) : ℕ := (s.quote.map Quote.pointsEarned).getD 0

def Sale.redeemed (s : Sale) : ℕ := (s.quote.map Quote.loyaltyPoints).getD 0

structure Account where
  balance : ℤ
  lifetimeEarned : ℤ
  lifetimeRedeemed : ℤ

/-- `ledger` has the points of the rows of kind `refund`. -/
structure State where
  sale : Sale
  account : Account
  ledger : List ℤ := []

def target (points paid cumulative : ℕ) : ℤ :=
  ⌊digits 28 (points * min 1 (digits 28 (cumulative / paid)))⌋

def reverseBenefits (s : State) (paid cumulative : ℕ) : State :=
  match s.sale.quote with
  | none => s
  | some q =>
    if q.guestId = none ∨ paid = 0 then s
    else
      let earnTarget := target q.pointsEarned paid cumulative
      let redeemTarget := target q.loyaltyPoints paid cumulative
      let earnDelta := earnTarget - s.sale.loyaltyEarnedReversed
      let redeemDelta := redeemTarget - s.sale.loyaltyRedeemedRestored
      { sale := { s.sale with loyaltyEarnedReversed := earnTarget, loyaltyRedeemedRestored := redeemTarget }
        account :=
          { balance := s.account.balance + (redeemDelta - earnDelta)
            lifetimeEarned := s.account.lifetimeEarned - earnDelta
            lifetimeRedeemed := s.account.lifetimeRedeemed - redeemDelta }
        ledger := s.ledger ++ [redeemDelta - earnDelta] }

def reserve (s : State) (refunded : ℕ) : State := { s with sale := { s.sale with refundedAmount := refunded } }

/-- A refund of nothing, or of more than is left, is refused. -/
def refund (s : State) (amount : ℕ) : State :=
  if amount = 0 ∨ s.sale.paid < s.sale.refundedAmount + amount then s
  else
    let refunded := s.sale.refundedAmount + amount
    reverseBenefits (reserve s refunded) s.sale.paid refunded

def opened (paid : ℕ) (quote : Option Quote) (account : Account) : State := { sale := { paid, quote }, account }

def refunds (s : State) (amounts : List ℕ) : State := amounts.foldl refund s

/-! ### Targets -/

variable {paid points refunded : ℕ} {quote : Option Quote} {a : Account} {s s' : State} {q : Quote}

theorem ratio_nonneg (paid refunded : ℕ) : 0 ≤ min 1 (digits 28 ((refunded : ℚ) / paid)) :=
  le_min zero_le_one (digits_nonneg (by norm_num [epsilon]) (by positivity))

theorem target_nonneg (points paid refunded : ℕ) : 0 ≤ target points paid refunded :=
  Int.floor_nonneg.mpr (digits_nonneg (by norm_num [epsilon]) (mul_nonneg (Nat.cast_nonneg _) (ratio_nonneg _ _)))

theorem target_le (h : points < 9223372036854775808) (paid refunded : ℕ) :
    target points paid refunded ≤ points := by
  have hpoints : (points : ℚ) < 10 ^ 28 := lt_trans (Nat.cast_lt.mpr h) (by norm_num)
  have hprod : points * min 1 (digits 28 ((refunded : ℚ) / paid)) ≤ points :=
    mul_le_of_le_one_right (Nat.cast_nonneg _) (min_le_left _ _)
  have hdigits := digits_le_natCast (mul_nonneg (Nat.cast_nonneg _) (ratio_nonneg paid refunded)) hprod hpoints
  exact Int.floor_le_iff.mpr (by push_cast; linarith)

theorem target_zero (points paid : ℕ) : target points paid 0 = 0 := by
  simp [target, digits, roundEven]

theorem target_paid (h : points < 9223372036854775808) (hpaid : paid ≠ 0) :
    target points paid paid = points := by
  have hpoints : (points : ℚ) < 10 ^ 28 := lt_trans (Nat.cast_lt.mpr h) (by norm_num)
  have hone : digits 28 ((paid : ℚ) / paid) = 1 := by
    rw [div_self (Nat.cast_ne_zero.mpr hpaid)]
    exact_mod_cast digits_natCast (p := 28) (n := 1) (by norm_num)
  rw [target, hone, min_self, mul_one, digits_natCast hpoints, Int.floor_natCast]

/-! ### Refunds -/

/-- What the account had back and what was taken back from it. -/
structure Reversed (a : Account) (s : State) : Prop where
  earned : s.account.lifetimeEarned = a.lifetimeEarned - s.sale.loyaltyEarnedReversed
  redeemed : s.account.lifetimeRedeemed = a.lifetimeRedeemed - s.sale.loyaltyRedeemedRestored
  balance : s.account.balance = a.balance + (s.sale.loyaltyRedeemedRestored - s.sale.loyaltyEarnedReversed)
  ledger : s.ledger.sum = s.sale.loyaltyRedeemedRestored - s.sale.loyaltyEarnedReversed

/-- The sale is that of the checkout, and the shares are those of what is refunded. -/
structure OnTarget (paid : ℕ) (quote : Option Quote) (a : Account) (s : State) : Prop
    extends Reversed a s where
  samePaid : s.sale.paid = paid
  sameQuote : s.sale.quote = quote
  refunded : s.sale.refundedAmount ≤ paid
  earnTarget : s.sale.loyaltyEarnedReversed = target s.sale.earned paid s.sale.refundedAmount
  redeemTarget : s.sale.loyaltyRedeemedRestored = target s.sale.redeemed paid s.sale.refundedAmount

theorem onTarget_opened (paid : ℕ) (quote : Option Quote) (a : Account) :
    OnTarget paid quote a (opened paid quote a) := by
  constructor
  · constructor <;> simp [opened]
  all_goals simp [opened, target_zero]

theorem target_none (paid refunded : ℕ) : target 0 paid refunded = 0 :=
  le_antisymm (target_le (by norm_num) _ _) (target_nonneg _ _ _)

/-- A sale without points, or without a guest to have them, has nothing to reverse. -/
theorem OnTarget.unreversed (h : OnTarget paid quote a s) (he : s.sale.earned = 0) (hr : s.sale.redeemed = 0)
    (hle : refunded ≤ paid) : OnTarget paid quote a (reserve s refunded) := by
  obtain ⟨hreversed, hpaid, hquote, -, hearn, hredeem⟩ := h
  rw [he, target_none] at hearn
  rw [hr, target_none] at hredeem
  refine ⟨⟨hreversed.earned, hreversed.redeemed, hreversed.balance, hreversed.ledger⟩, hpaid, hquote, hle, ?_, ?_⟩
  · exact hearn.trans (by rw [← target_none paid refunded, ← he]; rfl)
  · exact hredeem.trans (by rw [← target_none paid refunded, ← hr]; rfl)

theorem reverseBenefits_of_none (h : s.sale.quote = none) :
    reverseBenefits (reserve s refunded) paid refunded = reserve s refunded := by
  simp [reverseBenefits, reserve, h]

theorem reverseBenefits_of_guestless (h : s.sale.quote = some q) (hg : q.guestId = none ∨ paid = 0) :
    reverseBenefits (reserve s refunded) paid refunded = reserve s refunded := by
  simp [reverseBenefits, reserve, h, hg]

/-- The shares of a cumulative refund, whatever the refunds before it have reversed. -/
theorem OnTarget.reverse (h : OnTarget paid quote a s) (hq : s.sale.quote = some q)
    (hg : ¬(q.guestId = none ∨ paid = 0)) (hle : refunded ≤ paid) :
    OnTarget paid quote a (reverseBenefits (reserve s refunded) paid refunded) := by
  obtain ⟨hreversed, hpaid, hquote, -, -, -⟩ := h
  have hearned := hreversed.earned
  have hredeemed := hreversed.redeemed
  have hbalance := hreversed.balance
  have hledger := hreversed.ledger
  simp only [reverseBenefits, reserve, hq, if_neg hg]
  refine ⟨⟨?_, ?_, ?_, ?_⟩, hpaid, hq.symm.trans hquote, hle, ?_, ?_⟩
  · simp only
    omega
  · simp only
    omega
  · simp only
    omega
  · simp only [sum_append, sum_cons, sum_nil]
    omega
  · simp [Sale.earned]
  · simp [Sale.redeemed]

theorem OnTarget.refund (h : OnTarget paid quote a s) (amount : ℕ) :
    OnTarget paid quote a (refund s amount) := by
  have hpaid := h.samePaid
  unfold Benefits.refund
  split
  · exact h
  · have hle : s.sale.refundedAmount + amount ≤ paid := by omega
    simp only [hpaid]
    cases hquote : s.sale.quote with
    | none =>
      rw [reverseBenefits_of_none hquote]
      exact h.unreversed (by simp [Sale.earned, hquote]) (by simp [Sale.redeemed, hquote]) hle
    | some q =>
      by_cases hg : q.guestId = none ∨ paid = 0
      · rw [reverseBenefits_of_guestless hquote hg]
        have hnone := q.withoutGuest (hg.resolve_right (by omega))
        exact h.unreversed (by simp [Sale.earned, hquote, hnone]) (by simp [Sale.redeemed, hquote, hnone]) hle
      · exact h.reverse hquote hg hle

theorem OnTarget.refunds (h : OnTarget paid quote a s) (amounts : List ℕ) :
    OnTarget paid quote a (refunds s amounts) := by
  induction amounts generalizing s with
  | nil => exact h
  | cons amount amounts ih => exact ih (h.refund amount)

theorem earned_lt (s : Sale) : s.earned < 9223372036854775808 ∧ s.redeemed < 9223372036854775808 := by
  cases h : s.quote with
  | none => simp [Sale.earned, Sale.redeemed, h]
  | some q => simpa [Sale.earned, Sale.redeemed, h] using q.stored

/-- What is reversed is within what was earned and redeemed, and it is all of it after a total refund. -/
structure Exact (a : Account) (s : State) : Prop extends Reversed a s where
  earnedBounds : 0 ≤ s.sale.loyaltyEarnedReversed ∧ s.sale.loyaltyEarnedReversed ≤ s.sale.earned
  redeemedBounds : 0 ≤ s.sale.loyaltyRedeemedRestored ∧ s.sale.loyaltyRedeemedRestored ≤ s.sale.redeemed
  total : s.sale.refundedAmount = s.sale.paid → s.sale.paid ≠ 0 →
    s.sale.loyaltyEarnedReversed = s.sale.earned ∧ s.sale.loyaltyRedeemedRestored = s.sale.redeemed

theorem OnTarget.exact (h : OnTarget paid quote a s) : Exact a s := by
  have hearned := h.earnTarget
  have hredeemed := h.redeemTarget
  have hlt := earned_lt s.sale
  refine ⟨h.toReversed, ?_, ?_, fun htotal hpaid => ?_⟩
  · rw [hearned]
    exact ⟨target_nonneg _ _ _, target_le hlt.1 _ _⟩
  · rw [hredeemed]
    exact ⟨target_nonneg _ _ _, target_le hlt.2 _ _⟩
  · rw [htotal, h.samePaid] at hearned hredeemed
    rw [h.samePaid] at hpaid
    exact ⟨hearned.trans (target_paid hlt.1 hpaid), hredeemed.trans (target_paid hlt.2 hpaid)⟩

/-- Of two states that have refunded the same, both have reversed the same. -/
theorem OnTarget.unique (h : OnTarget paid quote a s) (h' : OnTarget paid quote a s')
    (heq : s.sale.refundedAmount = s'.sale.refundedAmount) :
    s.sale = s'.sale ∧ s.account = s'.account ∧ s.ledger.sum = s'.ledger.sum := by
  have hquote : s.sale.quote = s'.sale.quote := h.sameQuote.trans h'.sameQuote.symm
  have hearn : s.sale.loyaltyEarnedReversed = s'.sale.loyaltyEarnedReversed := by
    rw [h.earnTarget, h'.earnTarget, heq, Sale.earned, Sale.earned, hquote]
  have hredeem : s.sale.loyaltyRedeemedRestored = s'.sale.loyaltyRedeemedRestored := by
    rw [h.redeemTarget, h'.redeemTarget, heq, Sale.redeemed, Sale.redeemed, hquote]
  refine ⟨?_, ?_, by rw [h.ledger, h'.ledger, hearn, hredeem]⟩
  · calc s.sale = ⟨s.sale.paid, s.sale.quote, s.sale.refundedAmount, s.sale.loyaltyEarnedReversed,
          s.sale.loyaltyRedeemedRestored⟩ := rfl
      _ = s'.sale := by rw [h.samePaid, ← h'.samePaid, hquote, heq, hearn, hredeem]
  · calc s.account = ⟨s.account.balance, s.account.lifetimeEarned, s.account.lifetimeRedeemed⟩ := rfl
      _ = s'.account := by
        rw [h.balance, h.earned, h.redeemed, hearn, hredeem, ← h'.balance, ← h'.earned, ← h'.redeemed]

/-- The reversal of a sale depends on what is refunded in total, not on the parts. -/
theorem reversal_path_independent (paid : ℕ) (quote : Option Quote) (a : Account) (amounts amounts' : List ℕ)
    (h : (refunds (opened paid quote a) amounts).sale.refundedAmount =
      (refunds (opened paid quote a) amounts').sale.refundedAmount) :
    (refunds (opened paid quote a) amounts).sale = (refunds (opened paid quote a) amounts').sale ∧
      (refunds (opened paid quote a) amounts).account = (refunds (opened paid quote a) amounts').account ∧
      (refunds (opened paid quote a) amounts).ledger.sum =
        (refunds (opened paid quote a) amounts').ledger.sum ∧
      Exact a (refunds (opened paid quote a) amounts) := by
  have hrun := (onTarget_opened paid quote a).refunds amounts
  have hrun' := (onTarget_opened paid quote a).refunds amounts'
  obtain ⟨hsale, haccount, hledger⟩ := hrun.unique hrun' h
  exact ⟨hsale, haccount, hledger, hrun.exact⟩

theorem sevenPoints_withoutGuest (h : some 1 = (none : Option ℕ)) : 7 = 0 ∧ 0 = 0 := absurd h (Option.some_ne_none 1)

theorem sevenPoints_stored : 7 < 9223372036854775808 ∧ 0 < 9223372036854775808 := by omega

/-- Seven points for ten cents, refunded at once or in three parts. -/
theorem reversal_path_independent_seven :
    (refunds (opened 10 (some ⟨some 1, 7, 0, sevenPoints_withoutGuest, sevenPoints_stored⟩) ⟨7, 7, 0⟩) [10]).account =
      (refunds (opened 10 (some ⟨some 1, 7, 0, sevenPoints_withoutGuest, sevenPoints_stored⟩) ⟨7, 7, 0⟩) [3, 3, 4]).account :=
  (reversal_path_independent 10 _ _ [10] [3, 3, 4] rfl).2.1

end SyrocePms.PosCheck.Benefits
