import Mathlib.Data.Int.Order.Basic
import Mathlib.Data.List.Induction
import SyrocePms.Lib.LastValue

/-! Spans of consecutive integers with a value. A list of spans is written in its order, so
that the last one over a point gives its value. Of two neighbours with equal values that overlap
or touch, one is made. -/

namespace SyrocePms.Lib

open List

/-- The points from `first` to `last`, with a value. There are none if `last` is before `first`. -/
structure Span (β : Type*) where
  first : ℤ
  last : ℤ
  value : β

namespace Span

variable {β γ : Type*}

def covers (s : Span β) (d : ℤ) : Bool := s.first ≤ d && d ≤ s.last

theorem covers_iff {s : Span β} {d : ℤ} : s.covers d = true ↔ s.first ≤ d ∧ d ≤ s.last := by
  simp only [covers, Bool.and_eq_true, decide_eq_true_eq]

/-- What the last of the spans over a point has in view of `f`. -/
def valueAt (f : β → γ) (l : List (Span β)) (d : ℤ) : Option γ :=
  lastValue (fun s : Span β => if s.covers d then some (f s.value) else none) l

section ValueAt

variable {f : β → γ} {s : Span β} {l : List (Span β)} {d : ℤ}

@[simp] theorem valueAt_nil : valueAt f [] d = none := rfl

theorem valueAt_cons :
    valueAt f (s :: l) d = (valueAt f l d).or (if s.covers d then some (f s.value) else none) :=
  lastValue_cons

theorem valueAt_append {l' : List (Span β)} :
    valueAt f (l ++ l') d = (valueAt f l' d).or (valueAt f l d) :=
  lastValue_append l l'

theorem valueAt_eq_none : valueAt f l d = none ↔ ∀ s ∈ l, s.covers d = false := by
  induction l with
  | nil => simp
  | cons s l ih =>
    rw [valueAt_cons, Option.or_eq_none_iff, ih, forall_mem_cons, and_comm]
    cases s.covers d <;> simp

/-- The last span over a point, with those before and after it. -/
theorem exists_last_of_covers (hs : s ∈ l) (hd : s.covers d = true) :
    ∃ l₁ t l₂, l = l₁ ++ t :: l₂ ∧ t.covers d = true ∧ ∀ u ∈ l₂, u.covers d = false := by
  induction l using List.reverseRecOn with
  | nil => cases hs
  | append_singleton l x ih =>
    cases hx : x.covers d with
    | true => exact ⟨l, x, [], rfl, hx, by simp⟩
    | false =>
      have hmem : s ∈ l := by
        rcases mem_append.mp hs with hs | hs
        · exact hs
        · rw [mem_singleton.mp hs, hx] at hd
          cases hd
      obtain ⟨l₁, t, l₂, rfl, ht, hrest⟩ := ih hmem
      refine ⟨l₁, t, l₂ ++ [x], by simp, ht, fun u hu => ?_⟩
      rcases mem_append.mp hu with hu | hu
      · exact hrest u hu
      · rw [mem_singleton.mp hu, hx]

theorem valueAt_of_last {l₁ l₂ : List (Span β)} (hs : s.covers d = true)
    (hrest : ∀ u ∈ l₂, u.covers d = false) : valueAt f (l₁ ++ s :: l₂) d = some (f s.value) := by
  rw [valueAt_append, valueAt_cons, valueAt_eq_none.mpr hrest, if_pos hs]
  rfl

theorem valueAt_of_same (hne : l ≠ []) (h : ∀ t ∈ l, t = s) :
    valueAt f l d = if s.covers d then some (f s.value) else none := by
  induction l with
  | nil => exact absurd rfl hne
  | cons t l ih =>
    rw [valueAt_cons, h t mem_cons_self]
    cases l with
    | nil => simp
    | cons u l =>
      rw [ih (by simp) fun v hv => h v (mem_cons_of_mem t hv)]
      split <;> rfl

end ValueAt

/-! ### The order of the first points -/

def range (s : Span β) : ℤ × ℤ := (s.first, s.last)

theorem covers_eq_of_range {s t : Span β} (h : s.range = t.range) (d : ℤ) : s.covers d = t.covers d := by
  obtain ⟨hfirst, hlast⟩ := Prod.mk.inj h
  rw [covers, covers, hfirst, hlast]

/-- Of two spans over one point, the one that is written later is over the same points, begins
later or looks the same. -/
def Ordered (f : β → γ) (l : List (Span β)) : Prop :=
  l.Pairwise fun s t => ∀ d, s.covers d = true → t.covers d = true →
    s.range = t.range ∨ s.first < t.first ∨ f s.value = f t.value

/-- The last spans of their ranges, in the order of their first points, have the values of all. -/
theorem valueAt_sorted {f : β → γ} {l m : List (Span β)} (hsub : ∀ s ∈ m, s ∈ l)
    (hkept : ∀ l₁ s l₂, l = l₁ ++ s :: l₂ → (∀ t ∈ l₂, t.range ≠ s.range) → s ∈ m)
    (hranges : ∀ s ∈ m, ∀ t ∈ m, s.range = t.range → s = t)
    (hsorted : m.Pairwise fun s t => s.first ≤ t.first) (h : Ordered f l) (d : ℤ) :
    valueAt f m d = valueAt f l d := by
  by_cases hcov : ∃ s ∈ l, s.covers d = true
  · obtain ⟨s, hs, hsd⟩ := hcov
    obtain ⟨l₁, latest, l₂, hl, hlatest, hafter⟩ := exists_last_of_covers hs hsd
    have hkeep : latest ∈ m := by
      refine hkept l₁ latest l₂ hl fun t ht hrange => ?_
      have hnot := hafter t ht
      rw [covers_eq_of_range hrange, hlatest] at hnot
      cases hnot
    obtain ⟨m₁, final, m₂, hm, hfinal, hrest⟩ := exists_last_of_covers hkeep hlatest
    have hmem : final ∈ m := by simp [hm]
    have hle : latest.first ≤ final.first := by
      rw [hm] at hkeep hsorted
      rcases mem_append.mp hkeep with hk | hk
      · exact (pairwise_append.mp hsorted).2.2 latest hk final mem_cons_self
      · rcases mem_cons.mp hk with rfl | hk
        · exact le_refl _
        · have hnot := hrest latest hk
          rw [hlatest] at hnot
          cases hnot
    have hlook : f final.value = f latest.value := by
      have hin := hsub final hmem
      rw [hl] at hin h
      rcases mem_append.mp hin with hin | hin
      · have hpair := (pairwise_append.mp h).2.2 final hin latest mem_cons_self
        rcases hpair d hfinal hlatest with hrange | hlt | hlook
        · rw [hranges final hmem latest hkeep hrange]
        · omega
        · exact hlook
      · rcases mem_cons.mp hin with rfl | hin
        · rfl
        · have hnot := hafter final hin
          rw [hfinal] at hnot
          cases hnot
    rw [hm, hl, valueAt_of_last hfinal hrest, valueAt_of_last hlatest hafter, hlook]
  · have hnone : ∀ s ∈ l, s.covers d = false := by simpa using hcov
    rw [valueAt_eq_none.mpr hnone, valueAt_eq_none]
    exact fun s hs => hnone s (hsub s hs)

/-! ### Joining -/

def join (same : β → β → Bool) (s : Span β) : List (Span β) → List (Span β)
  | [] => [s]
  | t :: l =>
    if same s.value t.value && t.first ≤ s.last + 1 then
      join same { s with last := max s.last t.last } l
    else s :: join same t l

theorem covers_joined {s t : Span β} {d : ℤ} (hst : s.first ≤ t.first) (hgap : t.first ≤ s.last + 1) :
    Span.covers { s with last := max s.last t.last } d = (t.covers d || s.covers d) := by
  rw [Bool.eq_iff_iff, Bool.or_eq_true, covers_iff, covers_iff, covers_iff]
  show s.first ≤ d ∧ d ≤ max s.last t.last ↔ _
  omega

theorem valueAt_join {same : β → β → Bool} {f : β → γ} {s : Span β} {l : List (Span β)}
    (hsame : ∀ t ∈ s :: l, ∀ u ∈ s :: l, same t.value u.value = true → f t.value = f u.value)
    (hsorted : (s :: l).Pairwise fun t u => t.first ≤ u.first) (d : ℤ) :
    valueAt f (join same s l) d = valueAt f (s :: l) d := by
  induction l generalizing s with
  | nil => rfl
  | cons t l ih =>
    obtain ⟨hfirst, hrest⟩ := pairwise_cons.mp hsorted
    rw [join]
    split
    · rename_i hjoin
      simp only [Bool.and_eq_true, decide_eq_true_eq] at hjoin
      have hvalue := hsame s (by simp) t (by simp) hjoin.1
      have hst := hfirst t (by simp)
      rw [ih, valueAt_cons, valueAt_cons, valueAt_cons, Option.or_assoc, hvalue]
      · congr 1
        rw [covers_joined hst hjoin.2]
        cases t.covers d <;> simp
      · intro u hu w hw
        have hback : ∀ x ∈ Span.mk s.first (max s.last t.last) s.value :: l,
            ∃ y ∈ s :: t :: l, y.value = x.value := by
          intro x hx
          rcases mem_cons.mp hx with rfl | hx
          · exact ⟨s, by simp, rfl⟩
          · exact ⟨x, by simp [hx], rfl⟩
        obtain ⟨u', hu', hueq⟩ := hback u hu
        obtain ⟨w', hw', hweq⟩ := hback w hw
        rw [← hueq, ← hweq]
        exact hsame u' hu' w' hw'
      · refine pairwise_cons.mpr ⟨fun u hu => ?_, (pairwise_cons.mp hrest).2⟩
        exact hfirst u (mem_cons_of_mem t hu)
    · rw [valueAt_cons, ih, valueAt_cons (s := s)]
      · exact fun u hu w hw => hsame u (mem_cons_of_mem s hu) w (mem_cons_of_mem s hw)
      · exact hrest

end Span

end SyrocePms.Lib
