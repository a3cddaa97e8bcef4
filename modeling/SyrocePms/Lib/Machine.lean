import Mathlib.Logic.Relation

/-! Transition systems whose steps are partial functions of an action. A run is
judged by a condition on each of its steps, so that one induction rule serves both
the runs of the whole system and the runs that avoid a named kind of step. -/

namespace SyrocePms.Lib

/-- Where runs start, and what an action does in the states where it is enabled. -/
structure Machine (σ α : Type*) where
  init : σ → Prop
  step : σ → α → Option σ

namespace Machine

variable {σ α : Type*} (M : Machine σ α) {C C' : σ → α → Prop} {s s' t : σ}

/-- One step taken in a state where it meets `C`. -/
def Next (C : σ → α → Prop) (s s' : σ) : Prop :=
  ∃ a, C s a ∧ M.step s a = some s'

/-- `s'` follows `s` after steps that all meet `C`. -/
abbrev Path (C : σ → α → Prop) : σ → σ → Prop := Relation.ReflTransGen (M.Next C)

/-- The states of the runs whose steps all meet `C`. -/
def Reach (C : σ → α → Prop) (s : σ) : Prop := ∃ s₀, M.init s₀ ∧ M.Path C s₀ s

/-- The states of all runs. -/
abbrev Reachable (s : σ) : Prop := M.Reach (fun _ _ => True) s

variable {M}

theorem Reach.start (h : M.init s) : M.Reach C s := ⟨s, h, .refl⟩

theorem Reach.tail (h : M.Reach C s) (hn : M.Next C s s') : M.Reach C s' :=
  let ⟨s₀, h₀, hp⟩ := h
  ⟨s₀, h₀, hp.tail hn⟩

theorem Reach.trans (h : M.Reach C s) (hp : M.Path C s s') : M.Reach C s' :=
  let ⟨s₀, h₀, hq⟩ := h
  ⟨s₀, h₀, hq.trans hp⟩

theorem Next.mono (hC : ∀ s a, C s a → C' s a) (h : M.Next C s s') : M.Next C' s s' :=
  let ⟨a, hc, hs⟩ := h
  ⟨a, hC s a hc, hs⟩

theorem Reach.mono (hC : ∀ s a, C s a → C' s a) (h : M.Reach C s) : M.Reach C' s :=
  let ⟨s₀, h₀, hp⟩ := h
  ⟨s₀, h₀, Relation.ReflTransGen.mono (fun _ _ hn => Next.mono hC hn) _ _ hp⟩

/-- The invariant rule: what holds at the start and survives every step that meets
`C` holds in every state reached. -/
theorem Reach.invariant (I : σ → Prop) (h₀ : ∀ s, M.init s → I s)
    (hstep : ∀ s a s', I s → C s a → M.step s a = some s' → I s')
    (h : M.Reach C s) : I s := by
  obtain ⟨s₀, hs₀, hp⟩ := h
  induction hp with
  | refl => exact h₀ _ hs₀
  | tail _ hn ih =>
    obtain ⟨a, hc, hs⟩ := hn
    exact hstep _ a _ ih hc hs

theorem Reach.strengthen (Q : σ → Prop) (h₀ : ∀ s, M.init s → Q s)
    (hstep : ∀ s a s', Q s → C s a → M.step s a = some s' → Q s') (h : M.Reach C s) :
    M.Reach (fun s a => C s a ∧ Q s) s := by
  suffices hboth : M.Reach (fun s a => C s a ∧ Q s) s ∧ Q s from hboth.1
  obtain ⟨s₀, hs₀, hp⟩ := h
  induction hp with
  | refl => exact ⟨.start hs₀, h₀ _ hs₀⟩
  | tail _ hn ih =>
    obtain ⟨a, hc, hs⟩ := hn
    exact ⟨ih.1.tail ⟨a, ⟨hc, ih.2⟩, hs⟩, hstep _ a _ ih.2 hc hs⟩

/-- A property kept by every step that meets `C` is kept along paths. -/
theorem Path.invariant (I : σ → Prop)
    (hstep : ∀ s a s', I s → C s a → M.step s a = some s' → I s')
    (hp : M.Path C s s') (h : I s) : I s' := by
  induction hp with
  | refl => exact h
  | tail _ hn ih =>
    obtain ⟨a, hc, hs⟩ := hn
    exact hstep _ a _ ih hc hs

theorem Path.relation {R : σ → σ → Prop} {I : σ → Prop} (hI : I s) (hR : R s s)
    (hstep : ∀ t a t', I t → R s t → C t a → M.step t a = some t' → I t' ∧ R s t')
    (hp : M.Path C s s') : R s s' := by
  suffices h : I s' ∧ R s s' from h.2
  induction hp with
  | refl => exact ⟨hI, hR⟩
  | tail _ hn ih =>
    obtain ⟨a, hc, hs⟩ := hn
    exact hstep _ a _ ih.1 ih.2 hc hs

variable (M)

/-- Runs a list of actions, stopping at the first that is not enabled or does not
meet `C`. -/
def runUnder (C : σ → α → Prop) [∀ s a, Decidable (C s a)] : σ → List α → Option σ
  | s, [] => some s
  | s, a :: as => if C s a then (M.step s a).bind fun s' => runUnder C s' as else none

def run (s : σ) (as : List α) : Option σ := M.runUnder (fun _ _ => True) s as

variable {M}

theorem path_of_runUnder [∀ s a, Decidable (C s a)] {as : List α}
    (h : M.runUnder C s as = some s') : M.Path C s s' := by
  induction as generalizing s with
  | nil => cases h; exact .refl
  | cons a as ih =>
    simp only [runUnder] at h
    split at h
    · rename_i hc
      obtain ⟨t, hs, ht⟩ := Option.bind_eq_some_iff.mp h
      exact .head ⟨a, hc, hs⟩ (ih ht)
    · cases h

theorem reach_of_runUnder [∀ s a, Decidable (C s a)] {as : List α} (h₀ : M.init s)
    (h : M.runUnder C s as = some s') : M.Reach C s' :=
  ⟨s, h₀, path_of_runUnder h⟩

theorem exists_reach_of_runUnder {β : Type*} {f : σ → β} {v : β}
    [∀ s a, Decidable (C s a)] (as : List α) (h₀ : M.init s)
    (h : (M.runUnder C s as).map f = some v) : ∃ t, M.Reach C t ∧ f t = v := by
  obtain ⟨t, ht, hv⟩ := Option.map_eq_some_iff.mp h
  exact ⟨t, reach_of_runUnder h₀ ht, hv⟩

/-- A computed run in two parts shows a state that is reached and one that follows it. -/
theorem exists_path_of_runUnder {β : Type*} {f : σ → β} {v w : β}
    [∀ s a, Decidable (C s a)] (as bs : List α) (h₀ : M.init s)
    (h : (M.runUnder C s as).map f = some v)
    (h' : ((M.runUnder C s as).bind fun t => M.runUnder C t bs).map f = some w) :
    ∃ t u, M.Reach C t ∧ M.Path C t u ∧ f t = v ∧ f u = w := by
  obtain ⟨t, ht, hv⟩ := Option.map_eq_some_iff.mp h
  rw [ht] at h'
  obtain ⟨u, hu, hw⟩ := Option.map_eq_some_iff.mp h'
  exact ⟨t, u, reach_of_runUnder h₀ ht, path_of_runUnder hu, hv, hw⟩

/-- A computed run shows a state that is reached and the state after one more step. -/
theorem exists_step_of_run {β : Type*} {f : σ → β} {v w : β} (as : List α) (a : α)
    (h₀ : M.init s) (h : (M.run s as).map f = some v)
    (h' : ((M.run s as).bind fun t => M.step t a).map f = some w) :
    ∃ t u, M.Reachable t ∧ M.step t a = some u ∧ f t = v ∧ f u = w := by
  obtain ⟨t, ht, hv⟩ := Option.map_eq_some_iff.mp h
  rw [ht] at h'
  obtain ⟨u, hu, hw⟩ := Option.map_eq_some_iff.mp h'
  exact ⟨t, u, reach_of_runUnder h₀ ht, hu, hv, hw⟩

/-- A computed run shows that a state with the observed value follows its start. -/
theorem exists_path_of_run {β : Type*} {f : σ → β} {v : β} (as : List α)
    (h : (M.run s as).map f = some v) : ∃ t, M.Path (fun _ _ => True) s t ∧ f t = v := by
  obtain ⟨t, ht, hv⟩ := Option.map_eq_some_iff.mp h
  exact ⟨t, path_of_runUnder ht, hv⟩

theorem exists_reachable_of_run {β : Type*} {f : σ → β} {v : β} (as : List α)
    (h₀ : M.init s) (h : (M.run s as).map f = some v) : ∃ t, M.Reachable t ∧ f t = v :=
  exists_reach_of_runUnder as h₀ h

end Machine

/-! Runs with a log. What the steps of a run leave in no state, such as the calls to a system
outside, is noted beside the state. The log only watches: it changes no run, and every run has
one. -/

namespace Machine

variable {σ α β : Type*} (M : Machine σ α) (note : σ → α → List β)

/-- The machine with the notes of its steps, the last first. -/
def logged : Machine (σ × List β) α where
  init w := M.init w.1 ∧ w.2 = []
  step w a := (M.step w.1 a).map fun s => (s, note w.1 a ++ w.2)

/-- A state and its log are reached by steps that all meet `C`. -/
abbrev ReachLogged (C : σ → α → Prop) (w : σ × List β) : Prop :=
  (M.logged note).Reach (fun w a => C w.1 a) w

variable {M note} {C : σ → α → Prop} {w w' : σ × List β} {s : σ}

theorem logged_step {a : α} (h : (M.logged note).step w a = some w') :
    M.step w.1 a = some w'.1 ∧ w'.2 = note w.1 a ++ w.2 := by
  obtain ⟨s, hs, rfl⟩ := Option.map_eq_some_iff.mp h
  exact ⟨hs, rfl⟩

/-- Without its log the run is a run of the machine. -/
theorem ReachLogged.reach (h : M.ReachLogged note C w) : M.Reach C w.1 := by
  refine Reach.invariant (M := M.logged note) (fun w => M.Reach C w.1) (fun w hw => .start hw.1) ?_ h
  intro w a w' hw hc hs
  exact hw.tail ⟨a, hc, (logged_step hs).1⟩

theorem ReachLogged.invariant (I : σ → List β → Prop) (h₀ : ∀ s, M.init s → I s [])
    (hstep : ∀ s log a s', M.Reach C s → I s log → C s a → M.step s a = some s' →
      I s' (note s a ++ log)) (h : M.ReachLogged note C w) : I w.1 w.2 := by
  suffices hboth : M.Reach C w.1 ∧ I w.1 w.2 from hboth.2
  refine Reach.invariant (M := M.logged note) (fun w => M.Reach C w.1 ∧ I w.1 w.2) (fun w hw => ?_) ?_ h
  · obtain ⟨hinit, hlog⟩ := hw
    rw [hlog]
    exact ⟨.start hinit, h₀ _ hinit⟩
  · intro w a w' hw hc hs
    obtain ⟨hs, hlog⟩ := logged_step hs
    rw [hlog]
    exact ⟨hw.1.tail ⟨a, hc, hs⟩, hstep w.1 w.2 a w'.1 hw.1 hw.2 hc hs⟩

end Machine

end SyrocePms.Lib
