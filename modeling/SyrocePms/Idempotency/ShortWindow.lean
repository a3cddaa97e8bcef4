import SyrocePms.Lib.Threads

/-! The short-window guard of payments without a key, `claim_short_window_dedup`, on the slot of
one fingerprint. One operation of a call is one step. The clock is that of all workers, in
microseconds, and a call reads it once, when it starts. Nothing releases the slot. -/

namespace SyrocePms.Idempotency.ShortWindow

open Lib List

/-- The row of the slot. A time of creation that does not parse is left out. -/
structure Slot where
  createdAt : Option ℕ
  expiresAt : ℕ

structure Store where
  slot : Option Slot
  time : ℕ

/-- Where a call stands: at its first insert, at the read after a duplicate key, at the retry
after nothing was found, at the deletion of the stale row that it observed, at the insert in
its place, or at an end. -/
inductive Pc where
  | insert
  | read
  | retry
  | reclaim (observed : ℕ)
  | replace
  | acquired
  | duplicate
  | raised
  deriving DecidableEq

structure Call where
  now : ℕ
  pc : Pc
  deriving DecidableEq

def Pc.mayInsert : Pc → Bool
  | .insert | .read | .retry | .replace => true
  | .reclaim _ | .acquired | .duplicate | .raised => false

def Pc.over : Pc → Bool
  | .acquired | .duplicate | .raised => true
  | _ => false

variable (window grace : ℕ)
variable {slot : Option Slot} {c now : ℕ} {pc : Pc}

def freshDoc (now : ℕ) : Slot where
  createdAt := some now
  expiresAt := now + max window grace

def judge (now : ℕ) : Option Slot → Pc
  | none => .retry
  | some r =>
    match r.createdAt with
    | none => .duplicate
    | some c => if now ≤ c + window then .duplicate else .reclaim c

/-- The filter of the deletion meets the row. -/
def isObserved (observed : ℕ) (slot : Option Slot) : Bool := slot.any fun r => decide (r.createdAt = some observed)

def operate (slot : Option Slot) (now : ℕ) : Pc → Option Slot × Pc
  | .insert =>
    match slot with
    | none => (some (freshDoc window grace now), .acquired)
    | some r => (some r, .read)
  | .read => (slot, judge window now slot)
  | .retry | .replace =>
    match slot with
    | none => (some (freshDoc window grace now), .acquired)
    | some r => (some r, .duplicate)
  | .reclaim observed => if isObserved observed slot then (none, .replace) else (slot, .duplicate)
  | pc => (slot, pc)

/-- An operation is answered, its answer is lost, or it fails. -/
inductive Reply where
  | answered
  | lost
  | failed
  deriving DecidableEq

def Call.step (s : Store) (t : Call) (m : Reply) : Option (Store × Call) :=
  if t.pc.over then none
  else match m with
    | .answered => some ({ s with slot := (operate window grace s.slot t.now t.pc).1 },
        { t with pc := (operate window grace s.slot t.now t.pc).2 })
    | .lost => some ({ s with slot := (operate window grace s.slot t.now t.pc).1 }, { t with pc := .raised })
    | .failed => some (s, { t with pc := .raised })

/-- Beside the calls the clock goes on, and the monitor of the store sweeps an expired row. -/
inductive Env where
  | clock (n : ℕ)
  | sweep

def Store.env (s : Store) : Env → Option Store
  | .clock n => some { s with time := s.time + n }
  | .sweep => if s.slot.any fun r => decide (r.expiresAt ≤ s.time) then some { s with slot := none } else none

/-- Calls with one fingerprint. At the start there may be a row of an earlier one. -/
def calls : Program Store Call Env Unit Reply where
  init _ := True
  env := Store.env
  call s _ := some ⟨s.time, .insert⟩
  step _ s t m := t.step window grace s m

/-! ### When the slot is freed -/

variable {window grace}

def Past (window : ℕ) (p : Pool Store Call) (n : ℕ) : Prop :=
  ∀ t ∈ p.threads, t.pc = .acquired → t.now + window < n

def Settled (window : ℕ) (p : Pool Store Call) : Prop :=
  ∀ u ∈ p.threads, u.pc.mayInsert = true → Past window p u.now

def Call.reclaims (s : Store) (t : Call) : Bool :=
  match t.pc with
  | .reclaim observed => isObserved observed s.slot
  | _ => false

def FreesLate (window : ℕ) (p : Pool Store Call) : Act Env Unit Reply → Prop
  | .env .sweep => Settled window p ∧ Past window p p.store.time
  | .step k m => ∀ t ∈ p.threads[k]?, t.reclaims p.store = true → m ≠ .failed → Settled window p
  | _ => True

instance (p : Pool Store Call) (n : ℕ) : Decidable (Past window p n) := inferInstanceAs (Decidable (∀ _ ∈ _, _))

instance (p : Pool Store Call) : Decidable (Settled window p) := inferInstanceAs (Decidable (∀ _ ∈ _, _))

instance (p : Pool Store Call) (a : Act Env Unit Reply) : Decidable (FreesLate window p a) :=
  match a with
  | .env .sweep => inferInstanceAs (Decidable (_ ∧ _))
  | .env (.clock _) => .isTrue trivial
  | .call _ => .isTrue trivial
  | .step k m => inferInstanceAs (Decidable (∀ t ∈ p.threads[k]?, t.reclaims p.store = true → m ≠ .failed → _))

/-- More than the window lies between two claims. -/
def Apart (window n n' : ℕ) : Prop := n + window < n' ∨ n' + window < n

instance (n n' : ℕ) : Decidable (Apart window n n') := inferInstanceAs (Decidable (_ ∨ _))

/-! ### What a step does -/

variable {s s' : Store} {t t' : Call} {m : Reply} {p p' : Pool Store Call} {k : ℕ}

/-- What an operation does to the slot and to its call: it leaves the row and acquires nothing,
inserts the row of its call where there is none, or deletes the row that its call observed. -/
inductive Did (window grace : ℕ) (slot : Option Slot) (now : ℕ) (pc : Pc) : Option Slot → Pc → Prop
  | kept {pc'} (hpc : pc' ≠ .acquired) (hmay : pc'.mayInsert = true → pc.mayInsert = true)
      (hstale : ∀ c, pc' = .reclaim c → c + window < now) : Did window grace slot now pc slot pc'
  | inserted {pc'} (hnone : slot = none) (hmay : pc.mayInsert = true) (hmay' : pc'.mayInsert = false)
      (hpc : ∀ c, pc' ≠ .reclaim c) : Did window grace slot now pc (some (freshDoc window grace now)) pc'
  | deleted {c pc'} (hpc : pc = .reclaim c) (hrow : isObserved c slot = true) (hpc' : pc' = .replace ∨ pc' = .raised) :
      Did window grace slot now pc none pc'

theorem judge_did : Did window grace slot now .read slot (judge window now slot) := by
  cases slot with
  | none => exact .kept (by simp [judge]) (fun _ => rfl) (by simp [judge])
  | some r =>
    cases hc : r.createdAt with
    | none =>
      have hjudge : judge window now (some r) = .duplicate := by simp only [judge, hc]
      rw [hjudge]
      exact .kept (by simp) (fun _ => rfl) (by simp)
    | some c =>
      have hjudge : judge window now (some r) = if now ≤ c + window then .duplicate else .reclaim c := by
        simp only [judge, hc]
      rw [hjudge]
      split
      · exact .kept (by simp) (fun _ => rfl) (by simp)
      · refine .kept (by simp) (fun _ => rfl) fun d hd => ?_
        cases hd
        omega

theorem operate_did (hpc : pc.over = false) :
    Did window grace slot now pc (operate window grace slot now pc).1 (operate window grace slot now pc).2 := by
  cases pc with
  | insert =>
    cases slot with
    | none => exact .inserted rfl rfl rfl (by simp [operate])
    | some r => exact .kept (by simp [operate]) (fun _ => rfl) (by simp [operate])
  | read => exact judge_did
  | retry =>
    cases slot with
    | none => exact .inserted rfl rfl rfl (by simp [operate])
    | some r => exact .kept (by simp [operate]) (fun _ => rfl) (by simp [operate])
  | replace =>
    cases slot with
    | none => exact .inserted rfl rfl rfl (by simp [operate])
    | some r => exact .kept (by simp [operate]) (fun _ => rfl) (by simp [operate])
  | reclaim c =>
    unfold operate
    simp only
    split
    · rename_i hrow
      exact .deleted rfl hrow (.inl rfl)
    · exact .kept (by simp) (by simp [Pc.mayInsert]) (by simp)
  | acquired => cases hpc
  | duplicate => cases hpc
  | raised => cases hpc

/-- A call that raises after its operation has acquired nothing. -/
theorem Did.raised {slot' : Option Slot} {pc' : Pc} (h : Did window grace slot now pc slot' pc') :
    Did window grace slot now pc slot' .raised := by
  cases h with
  | kept => exact .kept (by simp) (by simp [Pc.mayInsert]) (by simp)
  | inserted hnone hmay => exact .inserted hnone hmay rfl (by simp)
  | deleted hpc hrow => exact .deleted hpc hrow (.inr rfl)

theorem step_did (h : t.step window grace s m = some (s', t')) :
    t'.now = t.now ∧ s'.time = s.time ∧ Did window grace s.slot t.now t.pc s'.slot t'.pc ∧
      (m = .failed → s'.slot = s.slot) := by
  unfold Call.step at h
  split at h
  · cases h
  · rename_i hover
    have hdid : Did window grace s.slot t.now t.pc (operate window grace s.slot t.now t.pc).1
        (operate window grace s.slot t.now t.pc).2 := operate_did (by simpa using hover)
    cases m with
    | answered =>
      cases h
      exact ⟨rfl, rfl, hdid, fun hm => by cases hm⟩
    | lost =>
      cases h
      exact ⟨rfl, rfl, hdid.raised, fun hm => by cases hm⟩
    | failed =>
      cases h
      exact ⟨rfl, rfl, .kept (by simp) (by simp [Pc.mayInsert]) (by simp), fun _ => rfl⟩

/-! ### The invariant -/

/-- What holds in every state. The row is not older than any claim; without a row, every call
that may insert, and every later one, is past the windows of all claims. -/
structure Sound (window : ℕ) (p : Pool Store Call) : Prop where
  apart : ∀ (j k : ℕ) t u, j ≠ k → p.threads[j]? = some t → p.threads[k]? = some u → t.pc = .acquired →
    u.pc = .acquired → Apart window t.now u.now
  held : ∀ r, p.store.slot = some r → ∀ t ∈ p.threads, t.pc = .acquired → ∃ c, r.createdAt = some c ∧ t.now ≤ c
  free : p.store.slot = none → Settled window p ∧ Past window p p.store.time
  stale : ∀ t ∈ p.threads, ∀ c, t.pc = .reclaim c → c + window < t.now
  read_le : ∀ t ∈ p.threads, t.now ≤ p.store.time

theorem sound_init (h : (calls window grace).machine.init p) : Sound window p := by
  obtain ⟨-, hnil⟩ := h
  refine ⟨fun j k t u _ ht => ?_, fun r _ t ht => ?_, fun _ => ⟨fun u hu => ?_, fun t ht => ?_⟩,
    fun t ht => ?_, fun t ht => ?_⟩
  · simp [hnil] at ht
  all_goals simp_all

/-- The clock goes on. -/
theorem Sound.later (h : Sound window p) {n : ℕ} (hn : p.store.time ≤ n) :
    Sound window { p with store := { p.store with time := n } } where
  apart := h.apart
  held := h.held
  free hnone := ⟨(h.free hnone).1, fun t ht ha => Nat.lt_of_lt_of_le ((h.free hnone).2 t ht ha) hn⟩
  stale := h.stale
  read_le t ht := Nat.le_trans (h.read_le t ht) hn

/-- The row is removed when no call is left that read the clock too early. -/
theorem Sound.freed (h : Sound window p) (hsettled : Settled window p) (hpast : Past window p p.store.time) :
    Sound window { p with store := { p.store with slot := none } } where
  apart := h.apart
  held r hr := by cases hr
  free _ := ⟨hsettled, hpast⟩
  stale := h.stale
  read_le := h.read_le

theorem Sound.env {e : Env} (h : Sound window p) (hc : FreesLate window p (.env e))
    (he : p.store.env e = some s') : Sound window { p with store := s' } := by
  cases e with
  | clock n =>
    cases he
    exact h.later (Nat.le_add_right _ _)
  | sweep =>
    simp only [Store.env] at he
    split at he
    · cases he
      exact h.freed hc.1 hc.2
    · cases he

/-- A call that starts has read the clock now. -/
theorem Sound.call (h : Sound window p) :
    Sound window { p with threads := p.threads ++ [⟨p.store.time, .insert⟩] } := by
  have hacquired : ∀ t ∈ p.threads ++ [⟨p.store.time, .insert⟩], t.pc = .acquired → t ∈ p.threads := by
    intro t ht ha
    obtain ht | ht := mem_append.mp ht
    · exact ht
    · rw [mem_singleton.mp ht] at ha
      cases ha
  refine ⟨fun j k t u hne ht hu ha hb => ?_, fun r hr t ht ha => h.held r hr t (hacquired t ht ha) ha,
    fun hnone => ⟨fun u hu hmay t ht ha => ?_, fun t ht ha => (h.free hnone).2 t (hacquired t ht ha) ha⟩,
    fun t ht c hpc => ?_, fun t ht => ?_⟩
  · obtain ht | ⟨-, rfl⟩ := Program.getElem?_append_one ht
    · obtain hu | ⟨-, rfl⟩ := Program.getElem?_append_one hu
      · exact h.apart j k t u hne ht hu ha hb
      · cases hb
    · cases ha
  · have hold := hacquired t ht ha
    obtain hu | hu := mem_append.mp hu
    · exact (h.free hnone).1 u hu hmay t hold ha
    · rw [mem_singleton.mp hu]
      exact (h.free hnone).2 t hold ha
  · obtain ht | ht := mem_append.mp ht
    · exact h.stale t ht c hpc
    · rw [mem_singleton.mp ht] at hpc
      cases hpc
  · obtain ht | ht := mem_append.mp ht
    · exact h.read_le t ht
    · obtain rfl := mem_singleton.mp ht
      exact Nat.le_refl _

section

variable {ts : List Call} (h : Sound window p) (ht : p.threads[k]? = some t) (hnow : t'.now = t.now)

include h ht hnow

theorem Sound.goesOn (hpc : t'.pc ≠ .acquired) (hmay : t'.pc.mayInsert = true → t.pc.mayInsert = true)
    (hstale : ∀ c, t'.pc = .reclaim c → c + window < t.now) :
    Sound window { p with threads := p.threads.set k t' } := by
  have hmem := mem_of_getElem? ht
  have hold : ∀ u ∈ p.threads.set k t', u.pc = .acquired → u ∈ p.threads := by
    intro u hu ha
    obtain hu | rfl := mem_or_eq_of_mem_set hu
    · exact hu
    · exact absurd ha hpc
  refine ⟨fun i j u v hne hu hv ha hb => ?_, fun r hr u hu ha => h.held r hr u (hold u hu ha) ha,
    fun hnone => ⟨fun u hu hu' v hv ha => ?_, fun u hu ha => (h.free hnone).2 u (hold u hu ha) ha⟩,
    fun u hu c hc => ?_, fun u hu => ?_⟩
  · obtain ⟨-, hu⟩ | ⟨-, rfl⟩ := Program.getElem?_set_some hu
    · obtain ⟨-, hv⟩ | ⟨-, rfl⟩ := Program.getElem?_set_some hv
      · exact h.apart i j u v hne hu hv ha hb
      · exact absurd hb hpc
    · exact absurd ha hpc
  · obtain hu | rfl := mem_or_eq_of_mem_set hu
    · exact (h.free hnone).1 u hu hu' v (hold v hv ha) ha
    · rw [hnow]
      exact (h.free hnone).1 t hmem (hmay hu') v (hold v hv ha) ha
  · obtain hu | rfl := mem_or_eq_of_mem_set hu
    · exact h.stale u hu c hc
    · rw [hnow]
      exact hstale c hc
  · obtain hu | rfl := mem_or_eq_of_mem_set hu
    · exact h.read_le u hu
    · rw [hnow]
      exact h.read_le t hmem

/-- A call that finds no row is past the windows of all claims, and its row is the latest. -/
theorem Sound.insert (hnone : p.store.slot = none) (hmay : t.pc.mayInsert = true) (hpc : ∀ c, t'.pc ≠ .reclaim c) :
    Sound window ⟨{ p.store with slot := some (freshDoc window grace t.now) }, p.threads.set k t'⟩ := by
  have hmem := mem_of_getElem? ht
  have hpast : Past window p t.now := (h.free hnone).1 t hmem hmay
  refine ⟨fun i j u v hne hu hv ha hb => ?_, fun r hr u hu ha => ?_, fun hr => (by cases hr),
    fun u hu c hc => ?_, fun u hu => ?_⟩
  · obtain ⟨-, hu'⟩ | ⟨rfl, rfl⟩ := Program.getElem?_set_some hu
    · obtain ⟨-, hv'⟩ | ⟨-, rfl⟩ := Program.getElem?_set_some hv
      · exact h.apart i j u v hne hu' hv' ha hb
      · rw [hnow]
        exact .inl (hpast u (mem_of_getElem? hu') ha)
    · obtain ⟨-, hv'⟩ | ⟨rfl, -⟩ := Program.getElem?_set_some hv
      · rw [hnow]
        exact .inr (hpast v (mem_of_getElem? hv') hb)
      · exact absurd rfl hne
  · cases hr
    refine ⟨t.now, rfl, ?_⟩
    obtain hu | rfl := mem_or_eq_of_mem_set hu
    · exact Nat.le_of_lt (Nat.lt_of_le_of_lt (Nat.le_add_right _ _) (hpast u hu ha))
    · exact Nat.le_of_eq hnow
  · obtain hu | rfl := mem_or_eq_of_mem_set hu
    · exact h.stale u hu c hc
    · exact absurd hc (hpc c)
  · obtain hu | rfl := mem_or_eq_of_mem_set hu
    · exact h.read_le u hu
    · rw [hnow]
      exact h.read_le t hmem

end

theorem Sound.past_of_reclaim (h : Sound window p) (ht : t ∈ p.threads) (hpc : t.pc = .reclaim c)
    (hrow : isObserved c p.store.slot = true) : Past window p t.now := by
  intro u hu ha
  unfold isObserved at hrow
  cases hslot : p.store.slot with
  | none => simp [hslot] at hrow
  | some r =>
    obtain ⟨d, hd, hle⟩ := h.held r hslot u hu ha
    have hdc : d = c := by simpa [hslot, hd] using hrow
    have hstale := h.stale t ht c hpc
    omega

theorem Sound.delete (h : Sound window p) (ht : p.threads[k]? = some t) (hnow : t'.now = t.now)
    (hpc : t.pc = .reclaim c) (hrow : isObserved c p.store.slot = true)
    (hsettled : Settled window p) (hpc' : t'.pc = .replace ∨ t'.pc = .raised) :
    Sound window ⟨{ p.store with slot := none }, p.threads.set k t'⟩ := by
  have hmem := mem_of_getElem? ht
  have hpast := h.past_of_reclaim hmem hpc hrow
  have hold : ∀ u ∈ p.threads.set k t', u.pc = .acquired → u ∈ p.threads := by
    intro u hu ha
    obtain hu | rfl := mem_or_eq_of_mem_set hu
    · exact hu
    · rcases hpc' with hpc' | hpc' <;> rw [hpc'] at ha <;> cases ha
  have hnot : ∀ d, t'.pc ≠ .reclaim d := by
    intro d hd
    rcases hpc' with hpc' | hpc' <;> rw [hpc'] at hd <;> cases hd
  refine ⟨fun i j u v hne hu hv ha hb => ?_, fun r hr => (by cases hr), fun _ => ⟨fun u hu hmay v hv ha => ?_,
    fun u hu ha => ?_⟩, fun u hu d hd => ?_, fun u hu => ?_⟩
  · obtain ⟨-, hu'⟩ | ⟨hik, rfl⟩ := Program.getElem?_set_some hu
    · obtain ⟨-, hv'⟩ | ⟨hjk, rfl⟩ := Program.getElem?_set_some hv
      · exact h.apart i j u v hne hu' hv' ha hb
      · rcases hpc' with hpc' | hpc' <;> rw [hpc'] at hb <;> cases hb
    · rcases hpc' with hpc' | hpc' <;> rw [hpc'] at ha <;> cases ha
  · obtain hu | rfl := mem_or_eq_of_mem_set hu
    · exact hsettled u hu hmay v (hold v hv ha) ha
    · rw [hnow]
      exact hpast v (hold v hv ha) ha
  · exact Nat.lt_of_lt_of_le (hpast u (hold u hu ha) ha) (h.read_le t hmem)
  · obtain hu | rfl := mem_or_eq_of_mem_set hu
    · exact h.stale u hu d hd
    · exact absurd hd (hnot d)
  · obtain hu | rfl := mem_or_eq_of_mem_set hu
    · exact h.read_le u hu
    · rw [hnow]
      exact h.read_le t hmem

theorem Sound.next {a : Act Env Unit Reply} (h : Sound window p) (hc : FreesLate window p a)
    (hs : (calls window grace).machine.step p a = some p') : Sound window p' := by
  cases a with
  | env e =>
    obtain ⟨he, hts⟩ := Program.next_env hs
    have hnext := h.env hc he
    rwa [← hts] at hnext
  | call i =>
    obtain ⟨t, ht, hst, hts⟩ := Program.next_call hs
    cases ht
    have hnext := h.call
    rwa [← hts, ← hst] at hnext
  | step k m =>
    obtain ⟨t, t', ht, hstep, hts⟩ := Program.next_step hs
    obtain ⟨hnow, htime, hdid, hfailed⟩ := step_did hstep
    obtain ⟨⟨slot', time'⟩, ts⟩ := p'
    simp only at hts htime hdid hfailed
    subst hts htime
    cases hdid with
    | kept hpc hmay hstale => exact h.goesOn ht hnow hpc hmay hstale
    | inserted hnone hmay _ hpc => exact h.insert ht hnow hnone hmay hpc
    | deleted hpc hrow hpc' =>
      refine h.delete ht hnow hpc hrow (hc t ht ?_ fun hm => ?_) hpc'
      · simp only [Call.reclaims, hpc, hrow]
      · rw [← hfailed hm] at hrow
        simp [isObserved] at hrow

/-- In runs in which the slot is only freed when no call that has still to insert read the clock
within the window of a claim, any two claims are more than the window apart. -/
theorem claims_apart (hp : (calls window grace).machine.Reach (FreesLate window) p) {j k : ℕ} {t u : Call}
    (hne : j ≠ k) (ht : p.threads[j]? = some t) (hu : p.threads[k]? = some u) (ha : t.pc = .acquired)
    (hb : u.pc = .acquired) : Apart window t.now u.now :=
  (hp.invariant (Sound window) (fun _ h => sound_init h) fun _ _ _ h hc hs => h.next hc hs).apart j k t u hne ht hu ha hb

def defaultWindow : ℕ := 10000000

/-- `IDEMPOTENCY_PROCESSING_GRACE_SECONDS`. -/
def processingGrace : ℕ := 300000000

/-- A claim, and a call that finds it stale after eleven seconds and takes its place. -/
def takeover : List (Act Env Unit Reply) :=
  [.call (), .step 0 .answered, .env (.clock 11000000), .call (), .step 1 .answered, .step 1 .answered,
    .step 1 .answered, .step 1 .answered]

theorem claims_apart_takeover : ∃ p, (calls defaultWindow processingGrace).machine.Reach (FreesLate defaultWindow) p ∧
    p.threads = [⟨0, .acquired⟩, ⟨11000000, .acquired⟩] ∧ Apart defaultWindow 0 11000000 := by
  obtain ⟨p, hp, hv⟩ := Machine.exists_reach_of_runUnder (M := (calls defaultWindow processingGrace).machine)
    (C := FreesLate defaultWindow) (s := ⟨⟨none, 0⟩, []⟩) (f := Pool.threads)
    (v := [⟨0, .acquired⟩, ⟨11000000, .acquired⟩]) takeover ⟨trivial, rfl⟩ (by decide +kernel)
  refine ⟨p, hp, hv, ?_⟩
  have hfirst : p.threads[0]? = some ⟨0, .acquired⟩ := by rw [hv]; rfl
  have hsecond : p.threads[1]? = some ⟨11000000, .acquired⟩ := by rw [hv]; rfl
  exact claims_apart hp (by decide) hfirst hsecond rfl rfl

/-- A call reads the clock at five seconds and meets the claim of another. Before it looks for
the row, a third call takes the row away as stale. -/
def overtaken : List (Act Env Unit Reply) :=
  [.call (), .step 0 .answered, .env (.clock 5000000), .call (), .step 1 .answered, .env (.clock 6000000), .call (),
    .step 2 .answered, .step 2 .answered, .step 2 .answered, .step 1 .answered, .step 1 .answered]

/-- Two calls acquire the claim five seconds apart. -/
theorem not_apart_overtaken : ∃ p, (calls defaultWindow processingGrace).machine.Reachable p ∧
    ∃ t u : Call, p.threads[0]? = some t ∧ p.threads[1]? = some u ∧ t.pc = .acquired ∧ u.pc = .acquired ∧
      ¬Apart defaultWindow t.now u.now := by
  obtain ⟨p, hp, hv⟩ := Machine.exists_reachable_of_run (M := (calls defaultWindow processingGrace).machine)
    (s := ⟨⟨none, 0⟩, []⟩) (f := Pool.threads)
    (v := [⟨0, .acquired⟩, ⟨5000000, .acquired⟩, ⟨11000000, .replace⟩]) overtaken ⟨trivial, rfl⟩ (by decide +kernel)
  exact ⟨p, hp, ⟨0, .acquired⟩, ⟨5000000, .acquired⟩, by rw [hv]; rfl, by rw [hv]; rfl, rfl, rfl,
    by decide⟩

end SyrocePms.Idempotency.ShortWindow
