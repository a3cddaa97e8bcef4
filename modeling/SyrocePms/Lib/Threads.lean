import Mathlib.Data.List.Basic
import SyrocePms.Lib.Machine

/-! Calls that share a store. A call is a thread with a control state of its own; a step
of a thread is one operation on the store, so every schedule of the calls is a run.
Invariants are shown by the rule of assertions that are free of interference: what holds
of the store, what holds of each thread, and what holds between any two of them. -/

namespace SyrocePms.Lib

open List

/-- The store, and the threads in the order in which they were started. A thread that
has returned stays in the list. -/
structure Pool (σ τ : Type*) where
  store : σ
  threads : List τ

/-- An action: the environment acts, a call starts, or a thread takes a step. -/
inductive Act (ε ι ω : Type*) where
  | env (e : ε)
  | call (i : ι)
  | step (thread : ℕ) (o : ω)

/-- The calls of a component: what the environment does to the store, how a call starts,
and what a step of thread `k` does, where `o` says what the code cannot foresee. -/
structure Program (σ τ ε ι ω : Type*) where
  init : σ → Prop
  env : σ → ε → Option σ
  call : σ → ι → Option τ
  step : ℕ → σ → τ → ω → Option (σ × τ)

namespace Program

variable {σ τ ε ι ω : Type*} (P : Program σ τ ε ι ω)

def next (p : Pool σ τ) : Act ε ι ω → Option (Pool σ τ)
  | .env e => (P.env p.store e).map fun s => { p with store := s }
  | .call i => (P.call p.store i).map fun t => { p with threads := p.threads ++ [t] }
  | .step k o =>
    (p.threads[k]?).bind fun t =>
      (P.step k p.store t o).map fun r => ⟨r.1, p.threads.set k r.2⟩

/-- Runs start with no call in flight. -/
def machine : Machine (Pool σ τ) (Act ε ι ω) where
  init p := P.init p.store ∧ p.threads = []
  step := P.next

variable {P}

/-! ### What an action does -/

theorem next_env {p p' : Pool σ τ} {e : ε} (h : P.machine.step p (.env e) = some p') :
    P.env p.store e = some p'.store ∧ p'.threads = p.threads := by
  obtain ⟨s, hs, rfl⟩ := Option.map_eq_some_iff.mp h
  exact ⟨hs, rfl⟩

theorem next_call {p p' : Pool σ τ} {i : ι} (h : P.machine.step p (.call i) = some p') :
    ∃ t, P.call p.store i = some t ∧ p'.store = p.store ∧ p'.threads = p.threads ++ [t] := by
  obtain ⟨t, ht, rfl⟩ := Option.map_eq_some_iff.mp h
  exact ⟨t, ht, rfl, rfl⟩

theorem next_step {p p' : Pool σ τ} {k : ℕ} {o : ω}
    (h : P.machine.step p (.step k o) = some p') :
    ∃ t t', p.threads[k]? = some t ∧ P.step k p.store t o = some (p'.store, t') ∧
      p'.threads = p.threads.set k t' := by
  obtain ⟨t, ht, h⟩ := Option.bind_eq_some_iff.mp h
  obtain ⟨⟨s, t'⟩, hs, rfl⟩ := Option.map_eq_some_iff.mp h
  exact ⟨t, t', ht, hs, rfl⟩

theorem getElem?_append_one {ts : List τ} {t u : τ} {j : ℕ}
    (h : (ts ++ [t])[j]? = some u) : ts[j]? = some u ∨ (j = ts.length ∧ u = t) := by
  rcases Nat.lt_or_ge j ts.length with hj | hj
  · rw [getElem?_append_left hj] at h
    exact .inl h
  · rw [getElem?_append_right hj] at h
    have hj' : j - ts.length = 0 := by
      by_contra hne
      rw [getElem?_eq_none (by simp; omega)] at h
      cases h
    rw [hj'] at h
    cases h
    exact .inr ⟨by omega, rfl⟩

theorem getElem?_set_some {ts : List τ} {t u : τ} {j k : ℕ}
    (h : (ts.set k t)[j]? = some u) : (j ≠ k ∧ ts[j]? = some u) ∨ (j = k ∧ u = t) := by
  by_cases hjk : j = k
  · subst hjk
    rw [getElem?_set] at h
    simp only [if_true] at h
    split at h
    · cases h
      exact .inr ⟨rfl, rfl⟩
    · cases h
  · rw [getElem?_set_ne (Ne.symm hjk)] at h
    exact .inl ⟨hjk, h⟩

/-- A thread of the pool is the one that takes the step, or still there after it. -/
theorem eq_or_mem_set {ts : List τ} {t u : τ} {k : ℕ} (ht : ts[k]? = some t) (hu : u ∈ ts)
    (t' : τ) : u = t ∨ u ∈ ts.set k t' := by
  obtain ⟨j, hj⟩ := mem_iff_getElem?.mp hu
  by_cases hjk : j = k
  · rw [hjk, ht] at hj
    exact .inl (Option.some.inj hj).symm
  · rw [← getElem?_set_ne (Ne.symm hjk)] at hj
    exact .inr (mem_of_getElem? hj)

/-- The thread that takes the step is in the pool after it. -/
theorem self_mem_set {ts : List τ} {t : τ} {k : ℕ} (ht : ts[k]? = some t) (t' : τ) :
    t' ∈ ts.set k t' := List.mem_set (List.getElem?_eq_some_iff.mp ht).1 t'

/-- What a thread keeps in its step, some thread of the pool has after the step. -/
theorem exists_mem_set {β : Type*} {f : τ → β} {ts : List τ} {t t' u : τ} {k : ℕ}
    (ht : ts[k]? = some t) (hf : f t' = f t) (hu : u ∈ ts) :
    ∃ u' ∈ ts.set k t', f u' = f u := by
  obtain rfl | hu' := eq_or_mem_set ht hu t'
  · exact ⟨t', self_mem_set ht t', hf⟩
  · exact ⟨u, hu', rfl⟩

/-! ### The rule -/

/-- What holds of the store, of each thread by its number, and between two threads. -/
structure Inv (J : σ → Prop) (Ok : σ → ℕ → τ → Prop) (Apart : τ → τ → Prop)
    (p : Pool σ τ) : Prop where
  store : J p.store
  thread : ∀ (k : ℕ) t, p.threads[k]? = some t → Ok p.store k t
  apart : ∀ (j k : ℕ) t u, j ≠ k → p.threads[j]? = some t → p.threads[k]? = some u → Apart t u

/-- The obligations of the rule, for the actions that meet `C`. -/
structure Preserves (P : Program σ τ ε ι ω) (C : Pool σ τ → Act ε ι ω → Prop)
    (J : σ → Prop) (Ok : σ → ℕ → τ → Prop) (Apart : τ → τ → Prop) : Prop where
  symm : ∀ t u, Apart t u → Apart u t
  init : ∀ s, P.init s → J s
  env : ∀ p e s', Inv J Ok Apart p → C p (.env e) → P.env p.store e = some s' →
    J s' ∧ ∀ (k : ℕ) t, p.threads[k]? = some t → Ok s' k t
  call : ∀ p i t, Inv J Ok Apart p → C p (.call i) → P.call p.store i = some t →
    Ok p.store p.threads.length t ∧ ∀ u ∈ p.threads, Apart t u
  step : ∀ p k o t s' t', Inv J Ok Apart p → C p (.step k o) → p.threads[k]? = some t →
    P.step k p.store t o = some (s', t') →
    J s' ∧ Ok s' k t' ∧ ∀ (j : ℕ) u, j ≠ k → p.threads[j]? = some u → Ok s' j u ∧ Apart t' u

variable {C : Pool σ τ → Act ε ι ω → Prop} {J : σ → Prop} {Ok : σ → ℕ → τ → Prop}
  {Apart : τ → τ → Prop} {p p' : Pool σ τ}

theorem Preserves.next (h : Preserves P C J Ok Apart) {a : Act ε ι ω} (hp : Inv J Ok Apart p)
    (hc : C p a) (hn : P.machine.step p a = some p') : Inv J Ok Apart p' := by
  cases a with
  | env e =>
    obtain ⟨hs, ht⟩ := next_env hn
    obtain ⟨hj, hok⟩ := h.env p e _ hp hc hs
    exact ⟨hj, ht ▸ hok, ht ▸ hp.apart⟩
  | call i =>
    obtain ⟨t, hcall, hs, ht⟩ := next_call hn
    obtain ⟨hok, hap⟩ := h.call p i t hp hc hcall
    refine ⟨hs ▸ hp.store, fun k u hu => ?_, fun j k u v hne hu hv => ?_⟩
    · rw [ht] at hu
      rw [hs]
      obtain hu | ⟨rfl, rfl⟩ := getElem?_append_one hu
      · exact hp.thread k u hu
      · exact hok
    · rw [ht] at hu hv
      obtain hu | ⟨hj, hut⟩ := getElem?_append_one hu <;>
        obtain hv | ⟨hk, hvt⟩ := getElem?_append_one hv
      · exact hp.apart j k u v hne hu hv
      · exact hvt ▸ h.symm _ _ (hap u (mem_of_getElem? hu))
      · exact hut ▸ hap v (mem_of_getElem? hv)
      · omega
  | step k o =>
    obtain ⟨t, t', ht, hs, hset⟩ := next_step hn
    obtain ⟨hj, hok, hoth⟩ := h.step p k o t _ t' hp hc ht hs
    refine ⟨hj, fun i u hu => ?_, fun i j u v hne hu hv => ?_⟩
    · rw [hset] at hu
      obtain ⟨hik, hu⟩ | ⟨rfl, rfl⟩ := getElem?_set_some hu
      · exact (hoth i u hik hu).1
      · exact hok
    · rw [hset] at hu hv
      obtain ⟨hik, hu⟩ | ⟨hik, hut⟩ := getElem?_set_some hu <;>
        obtain ⟨hjk, hv⟩ | ⟨hjk, hvt⟩ := getElem?_set_some hv
      · exact hp.apart i j u v hne hu hv
      · exact hvt ▸ h.symm _ _ (hoth i u hik hu).2
      · exact hut ▸ (hoth j v hjk hv).2
      · omega

/-- The invariant holds in every state reached. -/
theorem Preserves.reach (h : Preserves P C J Ok Apart) (hp : P.machine.Reach C p) :
    Inv J Ok Apart p := by
  refine hp.invariant (Inv J Ok Apart) (fun p h₀ => ?_)
    (fun p a p' hi hc hs => h.next hi hc hs)
  obtain ⟨h₀, hnil⟩ := h₀
  exact ⟨h.init _ h₀, fun k t ht => by simp [hnil] at ht, fun j k t u _ ht _ => by
    simp [hnil] at ht⟩

/-- What holds of the pool at the start, and is kept by every action beside the invariant,
holds in every state reached. -/
theorem Preserves.reach_pool (h : Preserves P C J Ok Apart) {Q : Pool σ τ → Prop}
    (h₀ : ∀ p, P.machine.init p → Q p)
    (hnext : ∀ p a p', Inv J Ok Apart p → Q p → C p a → P.machine.step p a = some p' → Q p')
    (hp : P.machine.Reach C p) : Q p := by
  have hboth : Inv J Ok Apart p ∧ Q p := by
    refine hp.invariant (fun p => Inv J Ok Apart p ∧ Q p) (fun p hi => ?_) fun p a p' hi hc hs => ?_
    · exact ⟨h.reach (.start hi), h₀ p hi⟩
    · exact ⟨h.next hi.1 hc hs, hnext p a p' hi.1 hi.2 hc hs⟩
  exact hboth.2

theorem Preserves.path (h : Preserves P C J Ok Apart) {R : σ → σ → Prop} (hR : ∀ s, R s s)
    (htrans : ∀ s t u, R s t → R t u → R s u)
    (henv : ∀ p e s', Inv J Ok Apart p → C p (.env e) → P.env p.store e = some s' → R p.store s')
    (hstep : ∀ p k o t s' t', Inv J Ok Apart p → C p (.step k o) → p.threads[k]? = some t →
      P.step k p.store t o = some (s', t') → R p.store s')
    (hi : Inv J Ok Apart p) (hp : P.machine.Path C p p') : R p.store p'.store := by
  refine Machine.Path.relation (I := Inv J Ok Apart) (R := fun p p' => R p.store p'.store) hi
    (hR _) (fun q a q' hq hpq hc hs => ⟨h.next hq hc hs, ?_⟩) hp
  refine htrans _ _ _ hpq ?_
  cases a with
  | env e => exact henv q e _ hq hc (next_env hs).1
  | call i =>
    obtain ⟨t, -, hst, -⟩ := next_call hs
    exact hst ▸ hR _
  | step k o =>
    obtain ⟨t, t', ht, hst, -⟩ := next_step hs
    exact hstep q k o t _ t' hq hc ht hst

end Program

end SyrocePms.Lib
