import SyrocePms.Lib.Collection

/-! Fences. A key has one row at most, with the token of its owner. The owner removes its row,
or retains it for one later owner that takes it over in a single step. Every operation names
the token that it acts for, so it touches no row of another owner that is not retained. -/

namespace SyrocePms.Lib

open Lib.Collection

structure Fence (κ ω τ : Type*) where
  key : κ
  owner : ω
  payload : τ
  retained : Bool := false

abbrev Fences (κ ω τ : Type*) := Collection (Fence κ ω τ) Fence.key

namespace Fences

variable {κ ω τ : Type*} {c c' : Fences κ ω τ} {key k : κ} {owner o : ω}

def Holds (c : Fences κ ω τ) (key : κ) (owner : ω) : Prop :=
  ∃ f ∈ c, f.key = key ∧ f.owner = owner ∧ f.retained = false

/-- What an operation for `owner` does to the rows of others: nothing, or it takes one over. -/
structure Frame (c : Fences κ ω τ) (owner : ω) (c' : Fences κ ω τ) : Prop where
  kept : ∀ f ∈ c, f.owner ≠ owner →
    f ∈ c' ∨ (f.retained = true ∧ { f with owner, retained := false } ∈ c')
  old : ∀ f ∈ c', f.owner ≠ owner → f ∈ c

theorem Holds.unique (h : c.Holds key owner) (h' : c.Holds key o) : owner = o := by
  obtain ⟨f, hf, hk, rfl, -⟩ := h
  obtain ⟨g, hg, hk', rfl, -⟩ := h'
  rw [eq_of_key hf hg (hk.trans hk'.symm)]

theorem Frame.holds (h : c.Frame owner c') (ho : o ≠ owner) (hh : c.Holds k o) : c'.Holds k o := by
  obtain ⟨f, hf, hk, rfl, hr⟩ := hh
  obtain hf' | ⟨hret, -⟩ := h.kept f hf ho
  · exact ⟨f, hf', hk, rfl, hr⟩
  · rw [hr] at hret
    cases hret

theorem Frame.refl (c : Fences κ ω τ) (owner : ω) : c.Frame owner c :=
  ⟨fun _ hf _ => .inl hf, fun _ hf _ => hf⟩

/-! ### A new owner -/

variable [DecidableEq κ]

def acquire (c : Fences κ ω τ) (key : κ) (owner : ω) (payload : τ) : Option (Fences κ ω τ) :=
  c.insertOne ⟨key, owner, payload, false⟩

theorem acquire_holds {payload : τ} (h : c.acquire key owner payload = some c') : c'.Holds key owner :=
  ⟨_, (mem_insertOne h).mpr (.inr rfl), rfl, rfl, rfl⟩

theorem acquire_frame {payload : τ} (h : c.acquire key owner payload = some c') : c.Frame owner c' where
  kept _ hf _ := .inl ((mem_insertOne h).mpr (.inl hf))
  old f hf hne := by
    obtain hf | rfl := (mem_insertOne h).mp hf
    · exact hf
    · exact absurd rfl hne

def takeOver (c : Fences κ ω τ) (key : κ) (owner : ω) (fits : τ → Bool) : Option (Fences κ ω τ) :=
  if c.any fun f => f.key = key && fits f.payload && f.retained then
    some (c.updateMany (fun f => f.key = key && fits f.payload && f.retained)
      (fun f => { f with owner, retained := false }) fun _ => rfl)
  else none

variable {fits : τ → Bool}

theorem takeOver_eq_some (h : c.takeOver key owner fits = some c') :
    (∃ f ∈ c, f.key = key ∧ fits f.payload = true ∧ f.retained = true) ∧ ∀ x, x ∈ c' ↔ ∃ f ∈ c,
      x = if f.key = key && fits f.payload && f.retained then { f with owner, retained := false } else f := by
  unfold takeOver at h
  split at h
  · rename_i hany
    cases h
    obtain ⟨f, hf, hp⟩ := any_eq_true.mp hany
    refine ⟨⟨f, hf, ?_⟩, fun x => mem_updateMany⟩
    simpa [Bool.and_eq_true, and_assoc] using hp
  · cases h

theorem exists_takeOver {f : Fence κ ω τ} (owner : ω) (hf : f ∈ c) (hk : f.key = key)
    (hp : fits f.payload = true) (hr : f.retained = true) :
    ∃ c', c.takeOver key owner fits = some c' ∧ { f with owner, retained := false } ∈ c' := by
  have hfits : (f.key = key && fits f.payload && f.retained) = true := by simp [hk, hp, hr]
  exact ⟨_, if_pos (any_eq_true.mpr ⟨f, hf, hfits⟩),
    mem_updateMany.mpr ⟨f, hf, by rw [if_pos hfits]⟩⟩

theorem takeOver_holds (h : c.takeOver key owner fits = some c') : c'.Holds key owner := by
  obtain ⟨⟨f, hf, hk, hp, hr⟩, hmem⟩ := takeOver_eq_some h
  refine ⟨{ f with owner, retained := false }, (hmem _).mpr ⟨f, hf, ?_⟩, hk, rfl, rfl⟩
  rw [if_pos]
  simp [hk, hp, hr]

theorem takeOver_kept (h : c.takeOver key owner fits = some c') {f : Fence κ ω τ} (hf : f ∈ c) :
    f ∈ c' ∨ (f.key = key ∧ fits f.payload = true ∧ f.retained = true ∧
      { f with owner, retained := false } ∈ c') := by
  obtain ⟨-, hmem⟩ := takeOver_eq_some h
  by_cases hp : (f.key = key && fits f.payload && f.retained) = true
  · have hin : { f with owner, retained := false } ∈ c' := (hmem _).mpr ⟨f, hf, by rw [if_pos hp]⟩
    have hparts : f.key = key ∧ fits f.payload = true ∧ f.retained = true := by
      simpa [Bool.and_eq_true, and_assoc] using hp
    exact .inr ⟨hparts.1, hparts.2.1, hparts.2.2, hin⟩
  · exact .inl ((hmem _).mpr ⟨f, hf, by rw [if_neg hp]⟩)

theorem takeOver_frame (h : c.takeOver key owner fits = some c') : c.Frame owner c' where
  kept f hf _ := (takeOver_kept h hf).imp_right fun hf => hf.2.2
  old f hf hne := by
    obtain ⟨g, hg, rfl⟩ := ((takeOver_eq_some h).2 f).mp hf
    split at hne
    · exact absurd rfl hne
    · rename_i hp
      rw [if_neg hp]
      exact hg

/-! ### The end of an owner -/

variable [DecidableEq ω]

def release (c : Fences κ ω τ) (key : κ) (owner : ω) : Fences κ ω τ :=
  c.deleteMany fun f => f.key = key && f.owner = owner

def retain (c : Fences κ ω τ) (key : κ) (owner : ω) : Fences κ ω τ :=
  c.updateMany (fun f => f.key = key && f.owner = owner && !f.retained)
    (fun f => { f with retained := true }) fun _ => rfl

/-- The end of an owner leaves the rows of others. -/
theorem mem_release_of_ne {f : Fence κ ω τ} (hf : f ∈ c) (hne : f.owner ≠ owner) : f ∈ c.release key owner :=
  mem_deleteMany.mpr ⟨hf, by simp [hne]⟩

theorem release_frame (c : Fences κ ω τ) (key : κ) (owner : ω) : c.Frame owner (c.release key owner) where
  kept _ hf hne := .inl (mem_release_of_ne hf hne)
  old _ hf _ := (mem_deleteMany.mp hf).1

theorem mem_retain {x : Fence κ ω τ} : x ∈ c.retain key owner ↔ ∃ f ∈ c,
    x = if f.key = key && f.owner = owner && !f.retained then { f with retained := true } else f :=
  mem_updateMany

theorem mem_retain_of_ne {f : Fence κ ω τ} (hf : f ∈ c) (hne : f.owner ≠ owner) : f ∈ c.retain key owner := by
  refine mem_retain.mpr ⟨f, hf, ?_⟩
  rw [if_neg]
  simp [hne]

theorem retain_frame (c : Fences κ ω τ) (key : κ) (owner : ω) : c.Frame owner (c.retain key owner) where
  kept _ hf hne := .inl (mem_retain_of_ne hf hne)
  old f hf hne := by
    obtain ⟨g, hg, rfl⟩ := mem_retain.mp hf
    split at hne
    · rename_i hp
      rw [Bool.and_eq_true, Bool.and_eq_true] at hp
      exact absurd (of_decide_eq_true hp.1.2) hne
    · rename_i hp
      rw [if_neg hp]
      exact hg

end Fences

end SyrocePms.Lib
