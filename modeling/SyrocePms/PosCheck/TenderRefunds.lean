import Mathlib.Algebra.BigOperators.Ring.Finset
import Mathlib.Data.List.GetD
import SyrocePms.Lib.Apportion
import SyrocePms.PosCheck.Pricing

/-! The tenders of a sale that is refunded in parts: every refund is allocated over what the refunds
before it left of the tenders. -/

namespace SyrocePms.PosCheck

open List Lib

/-- `none` is the error 409. Without any capacity every share is zero. -/
def allocateParts (remaining : List ℚ) (amount : ℚ) : Option (List ℚ) :=
  let capacities := remaining.map fun value => rounded (value * 100)
  let cents := rounded (amount * 100)
  if (∃ value ∈ capacities, value < 0) ∨ cents < 0 ∨ capacities.sum < cents then none
  else
    let indexed := capacities.zipIdx.map fun e => (e.2, e.1.toNat)
    some (indexed.map fun e => (Apportion.part indexed cents.toNat e : ℚ) / 100)

/-- The shares of one refund after the other. -/
def refundTenders (tenders : List ℚ) : List ℚ → Option (List (List ℚ))
  | [] => some []
  | amount :: amounts =>
    (allocateParts tenders amount).bind fun shares =>
      (refundTenders (zipWith (· - ·) tenders shares) amounts).map fun later => shares :: later

/-- What the tender at a place had back. -/
def backOf (shares : List (List ℚ)) (i : ℕ) : ℚ := (shares.map fun s => s.getD i 0).sum

def inCents (n : ℕ) : ℚ := n / 100

/-! ### Whole cents -/

variable {tenders amounts : List ℕ} {r : ℕ}

@[simp] theorem rounded_inCents (n : ℕ) : rounded (inCents n * 100) = n := by
  have hn : inCents n * 100 = ((n : ℤ) : ℚ) := by simp [inCents]
  rw [hn, rounded, if_neg (by simp), Lib.Decimal.halfUp_intCast]

/-- The tenders by their places. -/
def places (tenders : List ℕ) : List (ℕ × ℕ) := tenders.zipIdx.map fun e => (e.2, e.1)

def split (tenders : List ℕ) (r : ℕ) : List ℕ := (places tenders).map (Apportion.part (places tenders) r)

theorem map_snd_places (tenders : List ℕ) : (places tenders).map Prod.snd = tenders := by
  simp [places, Function.comp_def]

theorem nodup_places (tenders : List ℕ) : ((places tenders).map Prod.fst).Nodup := by
  have hfst : (places tenders).map Prod.fst = range' 0 tenders.length := by
    simp [places, Function.comp_def, zipIdx_map_snd]
  rw [hfst]
  exact nodup_range'

theorem total_places (tenders : List ℕ) : Apportion.total (places tenders) = tenders.sum := by
  rw [Apportion.total, map_snd_places]

theorem length_split (tenders : List ℕ) (r : ℕ) : (split tenders r).length = tenders.length := by
  simp [split, places]

theorem sum_split (h : r ≤ tenders.sum) : (split tenders r).sum = r :=
  Apportion.sum_part (nodup_places tenders) (by rwa [total_places])

theorem split_le (h : r ≤ tenders.sum) (i : ℕ) : (split tenders r).getD i 0 ≤ tenders.getD i 0 := by
  rcases Nat.lt_or_ge i tenders.length with hi | hi
  · have hplace : i < (places tenders).length := by simpa [places] using hi
    have hle : Apportion.part (places tenders) r (places tenders)[i] ≤ (places tenders)[i].2 :=
      Apportion.part_le (nodup_places tenders) (by rwa [total_places]) (getElem_mem hplace)
    simpa [split, getD_eq_getElem?_getD, hi, places] using hle
  · simp [getD_eq_getElem?_getD, length_split, hi]

/-- What a refund leaves of the tenders. -/
def leaves (tenders : List ℕ) (r : ℕ) : List ℕ := zipWith (· - ·) tenders (split tenders r)

theorem getD_leaves (tenders : List ℕ) (r i : ℕ) :
    (leaves tenders r).getD i 0 = tenders.getD i 0 - (split tenders r).getD i 0 := by
  rcases Nat.lt_or_ge i tenders.length with hi | hi
  · have hsplit : i < (split tenders r).length := by rwa [length_split]
    simp [leaves, getD_eq_getElem?_getD, hi, hsplit]
  · simp [leaves, getD_eq_getElem?_getD, hi]

theorem sum_leaves (h : r ≤ tenders.sum) : (leaves tenders r).sum = tenders.sum - r := by
  have hleaves : leaves tenders r =
      (places tenders).map fun e => e.2 - Apportion.part (places tenders) r e := by
    calc leaves tenders r
        = zipWith (· - ·) ((places tenders).map Prod.snd) (split tenders r) := by rw [map_snd_places]; rfl
      _ = _ := by rw [split, zipWith_map, zipWith_self]
  rw [hleaves, Apportion.sum_sub_part (nodup_places tenders) (by rwa [total_places]), total_places]

theorem zipWith_inCents (h : r ≤ tenders.sum) :
    zipWith (· - ·) (tenders.map inCents) ((split tenders r).map inCents) = (leaves tenders r).map inCents := by
  refine ext_getElem (by simp [leaves]) fun i hi hi' => ?_
  simp only [length_zipWith, length_map, length_split, Nat.min_self] at hi
  have hle := split_le h i
  have hsplit : i < (split tenders r).length := by rwa [length_split]
  rw [getD_eq_getElem _ _ hi, getD_eq_getElem _ _ hsplit] at hle
  simp only [leaves, getElem_zipWith, getElem_map, inCents]
  push_cast [hle]
  ring

theorem allocateParts_inCents (tenders : List ℕ) (r : ℕ) :
    allocateParts (tenders.map inCents) (inCents r) =
      if tenders.sum < r then none else some ((split tenders r).map inCents) := by
  have hcapacities : (tenders.map inCents).map (fun value => rounded (value * 100)) = tenders.map Nat.cast := by
    simp [Function.comp_def]
  have hzip : (tenders.map (Nat.cast : ℕ → ℤ)).zipIdx.map (fun e => (e.2, e.1.toNat)) = places tenders := by
    simp [places, zipIdx_map, Function.comp_def]
  have hguard : ((∃ value ∈ tenders.map (Nat.cast : ℕ → ℤ), value < 0) ∨ (r : ℤ) < 0 ∨
      (tenders.map (Nat.cast : ℕ → ℤ)).sum < r) ↔ tenders.sum < r := by
    rw [← Nat.cast_list_sum, Nat.cast_lt]
    refine ⟨fun h => ?_, fun h => .inr (.inr h)⟩
    rcases h with ⟨value, hvalue, hneg⟩ | h | h
    · obtain ⟨a, -, rfl⟩ := mem_map.mp hvalue
      omega
    · omega
    · exact h
  have hshares : (places tenders).map (fun e => (Apportion.part (places tenders) r e : ℚ) / 100) =
      (split tenders r).map inCents := by
    rw [split, map_map]
    rfl
  unfold allocateParts
  simp only [hcapacities, rounded_inCents, Int.toNat_natCast]
  rw [hzip, hshares]
  exact if_congr hguard rfl rfl

/-! ### A run of refunds -/

/-- What one refund gives and what it leaves for the next ones. -/
theorem refundTenders_cons (tenders : List ℕ) (r : ℕ) (amounts : List ℕ) :
    refundTenders (tenders.map inCents) ((r :: amounts).map inCents) =
      if tenders.sum < r then none
      else (refundTenders ((leaves tenders r).map inCents) (amounts.map inCents)).map
        fun later => (split tenders r).map inCents :: later := by
  rw [map_cons, refundTenders, allocateParts_inCents]
  split
  · rfl
  · rename_i hle
    rw [Option.bind_some, zipWith_inCents (by omega)]

theorem sum_map_inCents (l : List ℕ) : (l.map inCents).sum = inCents l.sum := by
  induction l with
  | nil => simp [inCents]
  | cons n l ih =>
    rw [map_cons, sum_cons, ih, sum_cons, inCents, inCents, inCents]
    push_cast
    ring

theorem getD_map_inCents (l : List ℕ) (i : ℕ) : (l.map inCents).getD i 0 = inCents (l.getD i 0) := by
  have hzero : inCents 0 = 0 := by simp [inCents]
  rw [← hzero, getD_map]

theorem inCents_le {m n : ℕ} : inCents m ≤ inCents n ↔ m ≤ n := by
  rw [inCents, inCents, div_le_div_iff_of_pos_right (by norm_num), Nat.cast_le]

/-- The refunds are all accepted when they come to no more than the tenders. -/
theorem refundTenders_isSome (tenders amounts : List ℕ) :
    (refundTenders (tenders.map inCents) (amounts.map inCents)).isSome ↔ amounts.sum ≤ tenders.sum := by
  induction amounts generalizing tenders with
  | nil => simp [refundTenders]
  | cons r amounts ih =>
    rw [refundTenders_cons, sum_cons]
    split
    · simp
      omega
    · rename_i hle
      rw [Option.isSome_map, ih, sum_leaves (by omega)]
      omega

variable {shares : List (List ℚ)}

/-- What a tender had back is what its share of each refund comes to. -/
theorem backOf_refundTenders (h : refundTenders (tenders.map inCents) (amounts.map inCents) = some shares)
    (i : ℕ) : backOf shares i ≤ inCents (tenders.getD i 0) ∧
      (amounts.sum = tenders.sum → backOf shares i = inCents (tenders.getD i 0)) := by
  induction amounts generalizing tenders shares with
  | nil =>
    cases h
    have hzero : inCents 0 = 0 := by simp [inCents]
    have hback : backOf [] i = inCents 0 := hzero.symm
    rw [hback]
    refine ⟨inCents_le.mpr (Nat.zero_le _), fun hsum => ?_⟩
    have hall : ∀ n ∈ tenders, n = 0 := sum_eq_zero_iff.mp hsum.symm
    have hi : tenders.getD i 0 = 0 := by
      rcases Nat.lt_or_ge i tenders.length with hlt | hge
      · rw [getD_eq_getElem _ _ hlt]
        exact hall _ (getElem_mem hlt)
      · exact getD_eq_default _ _ hge
    rw [hi]
  | cons r amounts ih =>
    rw [refundTenders_cons] at h
    split at h
    · cases h
    · rename_i hle
      obtain ⟨later, hlater, rfl⟩ := Option.map_eq_some_iff.mp h
      have hback : backOf ((split tenders r).map inCents :: later) i =
          inCents ((split tenders r).getD i 0) + backOf later i := by
        rw [backOf, map_cons, sum_cons, getD_map_inCents]
        rfl
      have hsplit := split_le (Nat.le_of_not_lt hle) i
      have hleft : inCents ((leaves tenders r).getD i 0) =
          inCents (tenders.getD i 0) - inCents ((split tenders r).getD i 0) := by
        rw [getD_leaves, inCents, inCents, inCents]
        push_cast [hsplit]
        ring
      have hrest := ih hlater
      rw [hleft] at hrest
      rw [hback]
      refine ⟨by linarith [hrest.1], fun hsum => ?_⟩
      have hlast := hrest.2 (by rw [sum_leaves (by omega)]; rw [sum_cons] at hsum; omega)
      linarith

theorem sums_refundTenders (h : refundTenders (tenders.map inCents) (amounts.map inCents) = some shares) :
    shares.map sum = amounts.map inCents := by
  induction amounts generalizing tenders shares with
  | nil =>
    cases h
    rfl
  | cons r amounts ih =>
    rw [refundTenders_cons] at h
    split at h
    · cases h
    · rename_i hle
      obtain ⟨later, hlater, rfl⟩ := Option.map_eq_some_iff.mp h
      rw [map_cons, map_cons, ih hlater, sum_map_inCents, sum_split (by omega)]

/-- Every refund that is accepted is allocated in full, no tender has more back than it paid, and the
refund of everything, in whatever parts, exhausts every tender. -/
theorem tender_refunds_exact (tenders amounts : List ℕ) :
    ((refundTenders (tenders.map inCents) (amounts.map inCents)).isSome ↔ amounts.sum ≤ tenders.sum) ∧
      ∀ shares, refundTenders (tenders.map inCents) (amounts.map inCents) = some shares →
        shares.map sum = amounts.map inCents ∧
        ∀ i, backOf shares i ≤ inCents (tenders.getD i 0) ∧
          (amounts.sum = tenders.sum → backOf shares i = inCents (tenders.getD i 0)) :=
  ⟨refundTenders_isSome tenders amounts,
    fun _ h => ⟨sums_refundTenders h, backOf_refundTenders h⟩⟩

theorem tender_refunds_exact_two : ∃ shares,
    refundTenders ([3, 7].map inCents) ([4, 6].map inCents) = some shares ∧
      ∀ i, backOf shares i = inCents ([3, 7].getD i 0) := by
  obtain ⟨shares, h⟩ :=
    Option.isSome_iff_exists.mp ((tender_refunds_exact [3, 7] [4, 6]).1.mpr (by decide))
  exact ⟨shares, h, fun i => (((tender_refunds_exact [3, 7] [4, 6]).2 shares h).2 i).2 rfl⟩

end SyrocePms.PosCheck
