import Mathlib.Algebra.Order.BigOperators.Group.List
import Mathlib.Data.List.Sort
import Mathlib.Tactic.Linarith

/-! Apportioning a whole number by weights, the largest remainders first. Each weight has the whole
part of its share, and what is left goes to the largest remainders, by one each. -/

namespace SyrocePms.Lib.Apportion

open List

variable {κ : Type*}
variable {e : κ × ℕ}

def total (l : List (κ × ℕ)) : ℕ := (l.map Prod.snd).sum

def quota (l : List (κ × ℕ)) (wanted weight : ℕ) : ℕ := weight * wanted / total l

def remainder (l : List (κ × ℕ)) (wanted weight : ℕ) : ℕ := weight * wanted % total l

def rest (l : List (κ × ℕ)) (wanted : ℕ) : ℕ := wanted - (l.map fun e => quota l wanted e.2).sum

/-- Larger remainders are first, and smaller keys among equal ones. -/
def Before [LinearOrder κ] (l : List (κ × ℕ)) (wanted : ℕ) (e e' : κ × ℕ) : Prop :=
  remainder l wanted e'.2 < remainder l wanted e.2 ∨
    remainder l wanted e.2 = remainder l wanted e'.2 ∧ e.1 ≤ e'.1

instance [LinearOrder κ] (l : List (κ × ℕ)) (wanted : ℕ) (e e' : κ × ℕ) :
    Decidable (Before l wanted e e') :=
  inferInstanceAs (Decidable (_ ∨ _))

/-- The entries that have one more than their quota. -/
def raised [LinearOrder κ] (l : List (κ × ℕ)) (wanted : ℕ) : List (κ × ℕ) :=
  (l.insertionSort (Before l wanted)).take (rest l wanted)

def part [LinearOrder κ] (l : List (κ × ℕ)) (wanted : ℕ) (e : κ × ℕ) : ℕ :=
  quota l wanted e.2 + if e.1 ∈ (raised l wanted).map Prod.fst then 1 else 0

/-! ### Quotas and remainders -/

variable {l : List (κ × ℕ)} {wanted : ℕ}

theorem total_mul_sum_quota (l : List (κ × ℕ)) (wanted : ℕ) :
    total l * (l.map fun e => quota l wanted e.2).sum + (l.map fun e => remainder l wanted e.2).sum =
      total l * wanted := by
  have hall : ∀ m : List (κ × ℕ),
      total l * (m.map fun e => quota l wanted e.2).sum + (m.map fun e => remainder l wanted e.2).sum =
        total m * wanted := by
    intro m
    induction m with
    | nil => simp [total]
    | cons e m ih =>
      have hdiv := Nat.div_add_mod (e.2 * wanted) (total l)
      simp only [map_cons, sum_cons, total, Nat.mul_add, Nat.add_mul] at ih ⊢
      simp only [quota, remainder, total] at hdiv ih ⊢
      omega
  exact hall l

theorem sum_quota_le (h : 0 < total l) (wanted : ℕ) : (l.map fun e => quota l wanted e.2).sum ≤ wanted := by
  have hsum := total_mul_sum_quota l wanted
  exact Nat.le_of_mul_le_mul_left (by omega) h

theorem total_mul_rest (l : List (κ × ℕ)) (wanted : ℕ) :
    total l * rest l wanted = (l.map fun e => remainder l wanted e.2).sum := by
  have hsum := total_mul_sum_quota l wanted
  rw [rest, Nat.mul_sub]
  omega

theorem sum_remainder_le (h : 0 < total l) (wanted : ℕ) (m : List (κ × ℕ)) :
    (m.map fun e => remainder l wanted e.2).sum ≤ m.length * (total l - 1) := by
  induction m with
  | nil => simp
  | cons e m ih =>
    have hlt : remainder l wanted e.2 < total l := Nat.mod_lt _ h
    simp only [map_cons, sum_cons, length_cons, Nat.add_mul, one_mul]
    omega

theorem rest_le_length (h : 0 < total l) : rest l wanted ≤ l.length := by
  have hrest := total_mul_rest l wanted
  have hle := sum_remainder_le h wanted l
  by_contra hlt
  have hmul : total l * (l.length + 1) ≤ total l * rest l wanted := Nat.mul_le_mul_left _ (by omega)
  have hbound : l.length * (total l - 1) ≤ l.length * total l := Nat.mul_le_mul_left _ (Nat.sub_le _ _)
  rw [Nat.mul_succ, Nat.mul_comm (total l) l.length] at hmul
  omega

theorem weight_le_total (he : e ∈ l) : e.2 ≤ total l :=
  single_le_sum (fun _ _ => Nat.zero_le _) _ (mem_map_of_mem he)

theorem quota_le (hle : wanted ≤ total l) (he : e ∈ l) : quota l wanted e.2 ≤ e.2 := by
  have hweight := weight_le_total he
  rcases Nat.eq_zero_or_pos (total l) with hzero | hpos
  · rw [quota, hzero, Nat.div_zero]
    exact Nat.zero_le _
  · exact Nat.div_le_of_le_mul (by rw [Nat.mul_comm (total l)]; exact Nat.mul_le_mul_left _ hle)

theorem quota_lt (hle : wanted ≤ total l) (hrem : 0 < remainder l wanted e.2) :
    quota l wanted e.2 < e.2 := by
  have hdiv := Nat.div_add_mod (e.2 * wanted) (total l)
  have hmul : e.2 * wanted ≤ total l * e.2 := by
    rw [Nat.mul_comm (total l)]
    exact Nat.mul_le_mul_left _ hle
  rcases Nat.lt_or_ge (quota l wanted e.2) e.2 with hlt | hge
  · exact hlt
  · have hquota : total l * e.2 ≤ total l * quota l wanted e.2 := Nat.mul_le_mul_left _ hge
    rw [quota] at hquota
    rw [remainder] at hrem
    omega

/-! ### The largest remainders -/

section Sorted

variable [LinearOrder κ]

theorem pairwise_before (l : List (κ × ℕ)) (wanted : ℕ) :
    (l.insertionSort (Before l wanted)).Pairwise (Before l wanted) := by
  have htotal : Std.Total (Before l wanted) := ⟨fun e e' => by
    unfold Before
    rcases lt_trichotomy (remainder l wanted e.2) (remainder l wanted e'.2) with h | h | h
    · exact .inr (.inl h)
    · rcases le_total e.1 e'.1 with hk | hk
      · exact .inl (.inr ⟨h, hk⟩)
      · exact .inr (.inr ⟨h.symm, hk⟩)
    · exact .inl (.inl h)⟩
  have htrans : IsTrans (κ × ℕ) (Before l wanted) := ⟨fun e e' e'' h h' => by
    unfold Before at h h' ⊢
    rcases h with h | ⟨h, hk⟩
    · rcases h' with h' | ⟨h', -⟩
      · exact .inl (h'.trans h)
      · exact .inl (h' ▸ h)
    · rcases h' with h' | ⟨h', hk'⟩
      · exact .inl (h.symm ▸ h')
      · exact .inr ⟨h.trans h', hk.trans hk'⟩⟩
  exact pairwise_insertionSort _ _

theorem mem_of_mem_raised (h : e ∈ raised l wanted) : e ∈ l :=
  (mem_insertionSort _).mp (mem_of_mem_take h)

/-- What is raised has a remainder: otherwise the remainders before it would not suffice. -/
theorem remainder_pos (hpos : 0 < total l) (h : e ∈ raised l wanted) :
    0 < remainder l wanted e.2 := by
  by_contra hzero
  have hsplit := take_append_drop (rest l wanted) (l.insertionSort (Before l wanted))
  have hpair := pairwise_before l wanted
  rw [← hsplit] at hpair
  have hdrop : ∀ x ∈ (l.insertionSort (Before l wanted)).drop (rest l wanted), remainder l wanted x.2 = 0 := by
    intro x hx
    rcases (pairwise_append.mp hpair).2.2 e h x hx with hlt | ⟨heq, -⟩
    · omega
    · omega
  have hdropSum : (((l.insertionSort (Before l wanted)).drop (rest l wanted)).map
      fun x => remainder l wanted x.2).sum = 0 := by
    rw [sum_eq_zero_iff]
    intro n hn
    obtain ⟨x, hx, rfl⟩ := mem_map.mp hn
    exact hdrop x hx
  have htake := sum_remainder_le hpos wanted
    ((l.insertionSort (Before l wanted)).take (rest l wanted))
  have hlength : ((l.insertionSort (Before l wanted)).take (rest l wanted)).length ≤ rest l wanted :=
    length_take_le _ _
  have hperm : ((l.insertionSort (Before l wanted)).map fun x => remainder l wanted x.2).sum =
      (l.map fun x => remainder l wanted x.2).sum :=
    ((perm_insertionSort (Before l wanted) l).map _).sum_eq
  rw [← hsplit, map_append, sum_append, hdropSum, ← total_mul_rest l wanted] at hperm
  have hrest : 0 < rest l wanted := by
    rcases Nat.eq_zero_or_pos (rest l wanted) with hr | hr
    · rw [raised, hr, take_zero] at h
      cases h
    · exact hr
  have hmul : ((l.insertionSort (Before l wanted)).take (rest l wanted)).length * (total l - 1) ≤
      rest l wanted * (total l - 1) := Nat.mul_le_mul_right _ hlength
  have hlt : rest l wanted * (total l - 1) < rest l wanted * total l :=
    Nat.mul_lt_mul_of_pos_left (by omega) hrest
  rw [Nat.mul_comm (total l)] at hperm
  omega

/-! ### The parts -/

theorem nodup_raised (h : (l.map Prod.fst).Nodup) (wanted : ℕ) : ((raised l wanted).map Prod.fst).Nodup := by
  have hperm := (perm_insertionSort (Before l wanted) l).map Prod.fst
  exact (hperm.nodup_iff.mpr h).sublist ((take_sublist _ _).map _)

theorem sum_map_ite_mem (keys : List κ) :
    (l.map fun e => if e.1 ∈ keys then 1 else 0).sum = ((l.map Prod.fst).filter (· ∈ keys)).length := by
  induction l with
  | nil => rfl
  | cons e l ih =>
    rw [map_cons, sum_cons, ih, map_cons, filter_cons]
    by_cases he : e.1 ∈ keys
    · simp [he, Nat.add_comm]
    · simp [he]

theorem length_filter_raised (h : (l.map Prod.fst).Nodup) (hpos : 0 < total l) :
    ((l.map Prod.fst).filter (· ∈ (raised l wanted).map Prod.fst)).length = rest l wanted := by
  have hperm : ((l.map Prod.fst).filter (· ∈ (raised l wanted).map Prod.fst)).Perm
      ((raised l wanted).map Prod.fst) := by
    refine (perm_ext_iff_of_nodup (h.filter _) (nodup_raised h wanted)).mpr fun k => ?_
    rw [mem_filter, decide_eq_true_eq, and_iff_right_iff_imp]
    intro hk
    obtain ⟨e, he, rfl⟩ := mem_map.mp hk
    exact mem_map_of_mem (mem_of_mem_raised he)
  rw [hperm.length_eq, length_map, raised, length_take_of_le]
  rw [length_insertionSort]
  exact rest_le_length hpos

theorem sum_part (h : (l.map Prod.fst).Nodup) (hle : wanted ≤ total l) :
    (l.map (part l wanted)).sum = wanted := by
  have hsplit : (l.map (part l wanted)).sum = (l.map fun e => quota l wanted e.2).sum +
      (l.map fun e => if e.1 ∈ (raised l wanted).map Prod.fst then 1 else 0).sum := sum_map_add
  rcases Nat.eq_zero_or_pos (total l) with hzero | hpos
  · have hraised : raised l wanted = [] := by
      rw [raised, rest, Nat.sub_eq_zero_of_le (by omega), take_zero]
    rw [hsplit, hraised]
    simp [quota, hzero]
    omega
  · rw [hsplit, sum_map_ite_mem, length_filter_raised h hpos, rest]
    have hquota := sum_quota_le hpos wanted
    omega

theorem part_le (h : (l.map Prod.fst).Nodup) (hle : wanted ≤ total l) (he : e ∈ l) :
    part l wanted e ≤ e.2 := by
  unfold part
  split
  · rename_i hraised
    obtain ⟨x, hx, hkey⟩ := mem_map.mp hraised
    have hxe : x = e := inj_on_of_nodup_map h (mem_of_mem_raised hx) he hkey
    subst hxe
    rcases Nat.eq_zero_or_pos (total l) with hzero | hpos
    · rw [raised, rest, Nat.sub_eq_zero_of_le (by omega), take_zero] at hx
      cases hx
    · exact quota_lt hle (remainder_pos hpos hx)
  · exact quota_le hle he

theorem part_eq (l : List (κ × ℕ)) (wanted : ℕ) (e : κ × ℕ) : ∃ up ≤ 1, part l wanted e = quota l wanted e.2 + up :=
  ⟨_, by split_ifs <;> omega, rfl⟩

theorem sum_sub_part (h : (l.map Prod.fst).Nodup) (hle : wanted ≤ total l) :
    (l.map fun e => e.2 - part l wanted e).sum = total l - wanted := by
  have hadd : (l.map fun e => e.2 - part l wanted e).sum + (l.map (part l wanted)).sum = total l := by
    rw [← sum_map_add, total]
    refine congrArg List.sum (map_congr_left fun e he => ?_)
    exact Nat.sub_add_cancel (part_le h hle he)
  rw [sum_part h hle] at hadd
  omega

end Sorted

end SyrocePms.Lib.Apportion
