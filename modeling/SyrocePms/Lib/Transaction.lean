import Mathlib.Data.List.Nodup

/-! Transactions on a store. A transaction works on a copy, which is kept when it ends with a
value and dropped when it ends with an error. A loop of a transaction over items that have keys
of their own is judged item by item. -/

namespace SyrocePms.Lib

open List

/-- The copy that is left and a value, or the error that aborts. -/
abbrev Transaction (σ ε α : Type*) := σ → Except ε (σ × α)

namespace Transaction

variable {σ ε α β κ : Type*} {s s' : σ} {e : ε}

theorem bind_eq_ok {x : Except ε α} {f : α → Except ε β} {z : β} (h : x.bind f = .ok z) :
    ∃ a, x = .ok a ∧ f a = .ok z := by
  cases x with
  | error => cases h
  | ok a => exact ⟨a, rfl, h⟩

def run (t : Transaction σ ε α) (s : σ) : σ × Except ε α :=
  match t s with
  | .ok (s', a) => (s', .ok a)
  | .error e => (s, .error e)

variable {t : Transaction σ ε α} {a : α}

@[simp] theorem run_eq_ok : t.run s = (s', .ok a) ↔ t s = .ok (s', a) := by
  unfold run
  split <;> simp_all

theorem eq_of_run_error (h : t.run s = (s', .error e)) : s' = s := by
  unfold run at h
  split at h <;> cases h
  rfl

/-! ### Loops -/

def forEach (f : α → Transaction σ ε β) : List α → Transaction σ ε (List β)
  | [], s => .ok (s, [])
  | x :: l, s => do
    let (s₁, y) ← f x s
    let (s₂, r) ← forEach f l s₁
    .ok (s₂, y :: r)

variable {f : α → Transaction σ ε β} {l : List α} {r : List β} {x : α}

theorem forEach_cons (h : forEach f (x :: l) s = .ok (s', r)) :
    ∃ s₁ y r₁, f x s = .ok (s₁, y) ∧ forEach f l s₁ = .ok (s', r₁) ∧ r = y :: r₁ := by
  obtain ⟨⟨s₁, y⟩, hx, h⟩ := bind_eq_ok h
  obtain ⟨⟨s₂, r₁⟩, hl, h⟩ := bind_eq_ok h
  cases h
  exact ⟨s₁, y, r₁, hx, hl, rfl⟩

/-- What every item keeps, the loop keeps. -/
theorem forEach_invariant {J : σ → Prop} (hstep : ∀ s, ∀ x ∈ l, ∀ s' y, J s → f x s = .ok (s', y) → J s')
    (hs : J s) (h : forEach f l s = .ok (s', r)) : J s' := by
  induction l generalizing s r with
  | nil =>
    cases h
    exact hs
  | cons x l ih =>
    obtain ⟨s₁, y, r₁, hx, hl, -⟩ := forEach_cons h
    exact ih (fun s y hy => hstep s y (mem_cons_of_mem _ hy)) (hstep s x mem_cons_self s₁ y hs hx) hl

/-- The results of a loop, one by one. -/
theorem forEach_forall₂ {R : α → β → Prop} (hstep : ∀ s x s' y, f x s = .ok (s', y) → R x y)
    (h : forEach f l s = .ok (s', r)) : List.Forall₂ R l r := by
  induction l generalizing s r with
  | nil =>
    cases h
    exact .nil
  | cons x l ih =>
    obtain ⟨s₁, y, r₁, hx, hl, rfl⟩ := forEach_cons h
    exact .cons (hstep s x s₁ y hx) (ih hl)

/-- Items with different keys are apart: each turns what holds of it before into what holds of
its result, and keeps what holds of the others. -/
theorem forEach_keyed {key : α → κ} {key' : β → κ} {J : σ → Prop} {L : σ → α → Prop} {L' : σ → β → Prop}
    (hstep : ∀ s x s' y, J s → L s x → f x s = .ok (s', y) → J s' ∧ L' s' y ∧ key' y = key x ∧
      (∀ z, key z ≠ key x → L s z → L s' z) ∧ ∀ z, key' z ≠ key x → L' s z → L' s' z)
    (hn : (l.map key).Nodup) (hs : J s) (hl : ∀ x ∈ l, L s x) (h : forEach f l s = .ok (s', r)) :
    J s' ∧ (∀ y ∈ r, L' s' y) ∧ r.map key' = l.map key ∧
      ∀ z, key' z ∉ l.map key → L' s z → L' s' z := by
  induction l generalizing s r with
  | nil =>
    cases h
    exact ⟨hs, fun y hy => absurd hy not_mem_nil, rfl, fun z _ hz => hz⟩
  | cons x l ih =>
    obtain ⟨s₁, y, r₁, hx, htail, rfl⟩ := forEach_cons h
    rw [map_cons, nodup_cons] at hn
    obtain ⟨hs₁, hy, hkey, hkeep, hkeep'⟩ := hstep s x s₁ y hs (hl x mem_cons_self) hx
    have hl₁ : ∀ z ∈ l, L s₁ z := by
      intro z hz
      refine hkeep z (fun heq => hn.1 ?_) (hl z (mem_cons_of_mem _ hz))
      rw [← heq]
      exact mem_map_of_mem hz
    obtain ⟨hs', hr, hmap, hrest⟩ := ih hn.2 hs₁ hl₁ htail
    refine ⟨hs', fun z hz => ?_, by rw [map_cons, map_cons, hkey, hmap], fun z hz hL => ?_⟩
    · obtain rfl | hz := mem_cons.mp hz
      · exact hrest z (hkey ▸ hn.1) hy
      · exact hr z hz
    · rw [map_cons, mem_cons, not_or] at hz
      exact hrest z hz.2 (hkeep' z hz.1 hL)

end Transaction

end SyrocePms.Lib
