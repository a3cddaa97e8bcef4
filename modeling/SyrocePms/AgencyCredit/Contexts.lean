import SyrocePms.AgencyCredit.Exposure

/-! The fences in a run. A context in its body, or before its clean-up, holds the fence of its
agency, so bodies of one agency exclude each other. The tokens of contexts differ, so no
clean-up touches the fence of another context, and an owner whose fence is taken over has
left for good. -/

namespace SyrocePms.AgencyCredit

open Lib Program

variable {k j : ℕ} {s s' : Store} {t u : Thread} {o : Chance} {pc' : Pc} {p p' q : Pool Store Thread}
variable {pc : Pc} {f : Fence Scope Owner Purpose} {scope : Scope}
  {fences : Fences Scope Owner Purpose} {a : Act Books Call Chance}

def Pc.waits : Pc → Bool
  | .acquire | .resume => true
  | _ => false

def Pc.hasFence : Pc → Bool
  | .release | .retain => true
  | pc => pc.inBody

theorem Pc.hasFence_of_inBody (h : pc.inBody = true) : pc.hasFence = true := by
  cases pc <;> first | rfl | cases h

theorem Pc.not_waits_of_hasFence (h : pc.hasFence = true) : pc.waits = false := by
  cases pc <;> first | rfl | cases h

/-- What a step of context `k` does. -/
inductive Moved (k : ℕ) (s : Store) (t : Thread) (o : Chance) : Store → Pc → Prop
  | blocked {pc' : Pc} (hpc : t.pc.waits = true)
      (hpc' : pc' = .left ∨ (pc' = .resume ∧ t.guard.resume = true)) : Moved k s t o s pc'
  | acquired {fences : Fences Scope Owner Purpose} {pc' : Pc} (hpc : t.pc.waits = true)
      (hf : s.fences.acquire t.guard.scope (.call k) t.guard.purpose = some fences)
      (hpc' : pc' = .left ∨ pc' = .check) : Moved k s t o { s with fences } pc'
  | tookOver {fences : Fences Scope Owner Purpose} {pc' : Pc} (hpc : t.pc = .resume)
      (hf : s.fences.takeOver t.guard.scope (.call k) t.guard.fits = some fences)
      (hpc' : pc' = .left ∨ pc' = .check) : Moved k s t o { s with fences } pc'
  | body {books : Books} {pc' : Pc} (hpc : t.pc.inBody = true) (hpc' : pc'.hasFence = true)
      (hbody : (books = s.books ∧ ∃ e : Exit, pc' = e.cleanUp) ∨
        bodyStep s.books t.guard t.sale o t.pc = some (books, pc')) : Moved k s t o { s with books } pc'
  | kept (hpc : t.pc.hasFence = true) : Moved k s t o s .left
  | released (hpc : t.pc = .release) :
      Moved k s t o { s with fences := s.fences.release t.guard.scope (.call k) } .left
  | retained (hpc : t.pc = .retain) :
      Moved k s t o { s with fences := s.fences.retain t.guard.scope (.call k) } .left

theorem orReject_hasFence {α : Type*} {x : Except CreditError α} {f : α → Pc}
    (hf : ∀ y, (f y).hasFence = true) : (orReject x f).hasFence = true := by
  cases x with
  | error => rfl
  | ok y => exact hf y

theorem bodyStep_hasFence {b b' : Books} {g : Guard} {x : Sale}
    (h : bodyStep b g x o pc = some (b', pc')) : pc'.hasFence = true := by
  cases pc <;> simp only [bodyStep] at h
  case check =>
    cases h
    exact orReject_hasFence fun t => by cases t <;> rfl
  case payments =>
    cases h
    exact orReject_hasFence fun _ => rfl
  case store =>
    split at h
    · split at h
      · cases h
        rfl
      · cases h
        cases o.lost <;> rfl
    · cases h
  case acquire => cases h
  case resume => cases h
  case release => cases h
  case retain => cases h
  case left => cases h
  all_goals
    cases h
    rfl

theorem body_moved (hpc : t.pc.inBody = true)
    (h : (match o.exit with
      | some e => some (s, e.cleanUp)
      | none => (bodyStep s.books t.guard t.sale o t.pc).map fun r => ({ s with books := r.1 }, r.2)) =
        some (s', pc')) : Moved k s t o s' pc' := by
  split at h
  · rename_i e _
    cases h
    exact .body hpc (by cases e <;> rfl) (.inl ⟨rfl, e, rfl⟩)
  · obtain ⟨⟨books, pc''⟩, hb, heq⟩ := Option.map_eq_some_iff.mp h
    cases heq
    exact .body hpc (bodyStep_hasFence hb) (.inr hb)

theorem left_or_check (b : Bool) : (if b then Pc.left else .check) = .left ∨ (if b then Pc.left else .check) = .check := by
  cases b <;> simp

theorem advance_moved (h : advance k s t o = some (s', pc')) : Moved k s t o s' pc' := by
  unfold advance at h
  split at h
  case h_1 hpc =>
    have hwaits : t.pc.waits = true := by rw [hpc]; rfl
    split at h
    · cases h
      exact .blocked hwaits (.inl rfl)
    · split at h
      · rename_i fences hf
        cases h
        exact .acquired hwaits hf (left_or_check o.lost)
      · cases h
        refine .blocked hwaits ?_
        split
        · rename_i hresume
          exact .inr ⟨rfl, (Bool.and_eq_true_iff.mp hresume).1⟩
        · exact .inl rfl
  case h_2 hpc =>
    have hwaits : t.pc.waits = true := by rw [hpc]; rfl
    split at h
    · cases h
      exact .blocked hwaits (.inl rfl)
    · split at h
      · rename_i fences hf
        cases h
        exact .tookOver hpc hf (left_or_check o.lost)
      · cases h
        exact .blocked hwaits (.inl rfl)
  case h_3 hpc =>
    cases h
    split
    · exact .kept (by rw [hpc]; rfl)
    · exact .released hpc
  case h_4 hpc =>
    cases h
    split
    · exact .kept (by rw [hpc]; rfl)
    · exact .retained hpc
  case h_5 => cases h
  case h_6 h₁ h₂ h₃ h₄ h₅ =>
    refine body_moved ?_ h
    cases hpc : t.pc <;> first | rfl | (exfalso; simp_all)

/-! ### The fences of others -/

theorem advance_frame (h : Moved k s t o s' pc') : s.fences.Frame (.call k) s'.fences := by
  cases h with
  | blocked => exact .refl _ _
  | acquired _ hf => exact Fences.acquire_frame hf
  | tookOver _ hf => exact Fences.takeOver_frame hf
  | body => exact .refl _ _
  | kept => exact .refl _ _
  | released => exact Fences.release_frame _ _ _
  | retained => exact Fences.retain_frame _ _ _

/-- The fence is taken over by context `k`, a resumer of the same operation and reference. -/
structure TakenOver (k : ℕ) (t : Thread) (s' : Store) (f : Fence Scope Owner Purpose) : Prop where
  resumes : t.pc = .resume
  key : f.key = t.guard.scope
  fits : t.guard.fits f.payload = true
  retained : f.retained = true
  taken : { f with owner := .call k, retained := false } ∈ s'.fences

theorem fence_kept (h : Moved k s t o s' pc') (hf : f ∈ s.fences) (hne : f.owner ≠ .call k) :
    f ∈ s'.fences ∨ TakenOver k t s' f := by
  cases h with
  | blocked => exact .inl hf
  | acquired _ ha => exact .inl ((Collection.mem_insertOne ha).mpr (.inl hf))
  | tookOver hpc ht =>
    refine (Fences.takeOver_kept ht hf).imp_right fun h => ?_
    exact ⟨hpc, h.1, h.2.1, h.2.2.1, h.2.2.2⟩
  | body => exact .inl hf
  | kept => exact .inl hf
  | released => exact .inl (Fences.mem_release_of_ne hf hne)
  | retained => exact .inl (Fences.mem_retain_of_ne hf hne)

/-! ### What a context has -/

structure Stage (s : Store) (k : ℕ) (t : Thread) : Prop where
  waits : t.pc.waits = true → ∀ f ∈ s.fences, f.owner ≠ .call k
  holds : t.pc.hasFence = true → s.fences.Holds t.guard.scope (.call k)
  left : ∀ f ∈ s.fences, f.owner = .call k → f.retained = true → t.pc = .left
  resumes : t.pc = .resume → t.guard.resume = true

/-- The tokens on the fences are those of contexts that have started, or of earlier runs. -/
def Issued (p : Pool Store Thread) : Prop :=
  ∀ f ∈ p.store.fences, ∀ w, f.owner = .call w → w < p.threads.length

/-- A new fence of its own is not retained, and others are there before. -/
theorem not_retained_of_acquire {x : Purpose} (hnone : ∀ f ∈ s.fences, f.owner ≠ .call k)
    (h : s.fences.acquire scope (.call k) x = some fences) :
    ∀ f ∈ fences, f.owner = .call k → f.retained = false := by
  intro f hf hown
  obtain hf | rfl := (Collection.mem_insertOne h).mp hf
  · exact absurd hown (hnone f hf)
  · rfl

theorem not_retained_of_takeOver {fits : Purpose → Bool} (hnone : ∀ f ∈ s.fences, f.owner ≠ .call k)
    (h : s.fences.takeOver scope (.call k) fits = some fences) :
    ∀ f ∈ fences, f.owner = .call k → f.retained = false := by
  intro f hf hown
  obtain ⟨g, hg, rfl⟩ := ((Fences.takeOver_eq_some h).2 f).mp hf
  split
  · rfl
  · rename_i hp
    rw [if_neg hp] at hown
    exact absurd hown (hnone g hg)

theorem stage_left (s : Store) (t : Thread) : Stage s k { t with pc := .left } where
  waits h := by cases h
  holds h := by cases h
  left _ _ _ _ := rfl
  resumes h := by cases h

theorem stage_check (hh : fences.Holds t.guard.scope (.call k))
    (hnot : ∀ f ∈ fences, f.owner = .call k → f.retained = false) :
    Stage { s with fences } k { t with pc := .check } where
  waits h := by cases h
  holds _ := hh
  left f hf ho hr := by
    rw [hnot f hf ho] at hr
    cases hr
  resumes h := by cases h

theorem stage_waiting (hnone : ∀ f ∈ s.fences, f.owner ≠ .call k) (hpc : t.pc.waits = true)
    (hresume : t.pc = .resume → t.guard.resume = true) : Stage s k t where
  waits _ := hnone
  holds h := by
    rw [Pc.not_waits_of_hasFence h] at hpc
    cases hpc
  left f hf ho _ := absurd ho (hnone f hf)
  resumes := hresume

theorem stage_move (hst : Stage s k t) (h : Moved k s t o s' pc') : Stage s' k { t with pc := pc' } := by
  cases h with
  | blocked hpc hpc' =>
    obtain rfl | ⟨rfl, hresume⟩ := hpc'
    · exact stage_left _ _
    · exact stage_waiting (hst.waits hpc) rfl fun _ => hresume
  | acquired hpc hf hpc' =>
    obtain rfl | rfl := hpc'
    · exact stage_left _ _
    · exact stage_check (Fences.acquire_holds hf) (not_retained_of_acquire (hst.waits hpc) hf)
  | tookOver hpc hf hpc' =>
    obtain rfl | rfl := hpc'
    · exact stage_left _ _
    · have hwaits : t.pc.waits = true := by rw [hpc]; rfl
      exact stage_check (Fences.takeOver_holds hf) (not_retained_of_takeOver (hst.waits hwaits) hf)
  | body hpc hpc' =>
    have hholds := hst.holds (Pc.hasFence_of_inBody hpc)
    refine ⟨fun h => ?_, fun _ => hholds, fun f hf ho hr => ?_, fun h => ?_⟩
    · rw [Pc.not_waits_of_hasFence hpc'] at h
      cases h
    · rw [hst.left f hf ho hr] at hpc
      cases hpc
    · change pc' = .resume at h
      rw [h] at hpc'
      cases hpc'
  | kept => exact stage_left _ _
  | released => exact stage_left _ _
  | retained => exact stage_left _ _

/-- The steps of another context. -/
theorem Stage.of_frame (h : Stage s j u) (hs : s.fences.Frame (.call k) s'.fences) (hjk : j ≠ k) :
    Stage s' j u := by
  have hne : Owner.call j ≠ .call k := fun h => hjk (Owner.call.inj h)
  have hold {f : Fence Scope Owner Purpose} (hf : f ∈ s'.fences) (ho : f.owner = .call j) : f ∈ s.fences :=
    hs.old f hf (ho ▸ hne)
  exact ⟨fun hw f hf ho => h.waits hw f (hold hf ho) ho, fun hh => hs.holds hne (h.holds hh),
    fun f hf ho => h.left f (hold hf ho) ho, h.resumes⟩

/-! ### Over a run -/

theorem step_moved {t' : Thread} (h : contexts.step k s t o = some (s', t')) :
    ∃ pc', t' = { t with pc := pc' } ∧ Moved k s t o s' pc' := by
  obtain ⟨⟨s₁, pc'⟩, hadv, heq⟩ := Option.map_eq_some_iff.mp h
  obtain ⟨rfl, rfl⟩ := Prod.mk.inj heq
  exact ⟨pc', rfl, advance_moved hadv⟩

theorem issued_next (h : Issued p) (hs : contexts.machine.step p a = some p') : Issued p' := by
  cases a with
  | env b =>
    obtain ⟨henv, ht⟩ := next_env hs
    have hst : { p.store with books := b } = p'.store := Option.some.inj henv
    intro f hf w hw
    rw [← hst] at hf
    rw [ht]
    exact h f hf w hw
  | call c =>
    obtain ⟨t, -, hst, ht⟩ := next_call hs
    intro f hf w hw
    rw [hst] at hf
    rw [ht, List.length_append]
    exact Nat.lt_add_right 1 (h f hf w hw)
  | step k o =>
    obtain ⟨t, t', ht, hst, hset⟩ := next_step hs
    obtain ⟨pc', -, hm⟩ := step_moved hst
    intro f hf w hw
    rw [hset, List.length_set]
    by_cases hwk : w = k
    · rw [hwk]
      exact (List.getElem?_eq_some_iff.mp ht).1
    · refine h f ((advance_frame hm).old f hf ?_) w hw
      rw [hw]
      exact fun h => hwk (Owner.call.inj h)

theorem preserves_stage : Preserves contexts (fun p _ => True ∧ Issued p) (fun _ => True) Stage (fun _ _ => True) where
  symm _ _ _ := trivial
  init _ _ := trivial
  env p b s' hp _ henv := by
    cases henv
    exact ⟨trivial, fun k t ht => ⟨(hp.thread k t ht).waits, (hp.thread k t ht).holds,
      (hp.thread k t ht).left, (hp.thread k t ht).resumes⟩⟩
  call p c t hp hc hcall := by
    cases hcall
    have hnone : ∀ f ∈ p.store.fences, f.owner ≠ .call p.threads.length := fun f hf ho =>
      absurd (hc.2 f hf _ ho) (lt_irrefl _)
    exact ⟨stage_waiting hnone rfl (fun h => by cases h), fun _ _ => trivial⟩
  step p k o t s' t' hp _ ht hs := by
    obtain ⟨pc', rfl, hm⟩ := step_moved hs
    refine ⟨trivial, stage_move (hp.thread k t ht) hm, fun j u hjk hu => ⟨?_, trivial⟩⟩
    exact (hp.thread j u hu).of_frame (advance_frame hm) hjk

theorem reach_issued (hp : contexts.machine.Reachable p) :
    contexts.machine.Reach (fun p _ => True ∧ Issued p) p := by
  refine hp.strengthen Issued (fun p h₀ f hf w hw => ?_) fun p a p' h _ hs => issued_next h hs
  obtain ⟨n, hn⟩ := h₀.1 f hf
  rw [hn] at hw
  cases hw

theorem issued_of_reachable (hp : contexts.machine.Reachable p) : Issued p := by
  refine hp.invariant Issued (fun p h₀ f hf w hw => ?_) fun p a p' h _ hs => issued_next h hs
  obtain ⟨n, hn⟩ := h₀.1 f hf
  rw [hn] at hw
  cases hw

theorem stage_of_reachable (hp : contexts.machine.Reachable p) (ht : p.threads[k]? = some t) :
    Stage p.store k t := (preserves_stage.reach (reach_issued hp)).thread k t ht

/-- Bodies of one agency exclude each other. -/
theorem inBody_unique (hp : contexts.machine.Reachable p) (ht : p.threads[j]? = some t)
    (hu : p.threads[k]? = some u) (hbt : t.pc.inBody = true) (hbu : u.pc.inBody = true)
    (hscope : t.guard.scope = u.guard.scope) : j = k := by
  have hj := (stage_of_reachable hp ht).holds (Pc.hasFence_of_inBody hbt)
  have hk := (stage_of_reachable hp hu).holds (Pc.hasFence_of_inBody hbu)
  rw [hscope] at hj
  exact Owner.call.inj (hj.unique hk)

/-! ### Takeovers -/

/-- The owner has no fence of the agency, and gets none: it has left, or stands past its start. -/
structure Gone (scope : Scope) (owner : Owner) (p : Pool Store Thread) : Prop where
  free : ∀ f ∈ p.store.fences, f.key = scope → f.owner ≠ owner
  started : ∀ j, owner = .call j → ∃ t, p.threads[j]? = some t ∧ t.pc.waits = false

theorem not_waits_of_moved (h : Moved k s t o s' pc') (hpc : t.pc.waits = false) : pc'.waits = false := by
  cases h with
  | blocked hw => exact absurd (hw.symm.trans hpc) (by decide)
  | acquired hw => exact absurd (hw.symm.trans hpc) (by decide)
  | tookOver hw =>
    rw [hw] at hpc
    cases hpc
  | body _ hpc' => exact Pc.not_waits_of_hasFence hpc'
  | kept => rfl
  | released => rfl
  | retained => rfl

/-- A context that is past its start gets no new fence. -/
theorem exists_of_moved (h : Moved k s t o s' pc') (hpc : t.pc.waits = false) (hf : f ∈ s'.fences) :
    ∃ g ∈ s.fences, g.key = f.key ∧ g.owner = f.owner := by
  cases h with
  | blocked => exact ⟨f, hf, rfl, rfl⟩
  | acquired hw => exact absurd (hw.symm.trans hpc) (by decide)
  | tookOver hw =>
    rw [hw] at hpc
    cases hpc
  | body => exact ⟨f, hf, rfl, rfl⟩
  | kept => exact ⟨f, hf, rfl, rfl⟩
  | released => exact ⟨f, (Collection.mem_deleteMany.mp hf).1, rfl, rfl⟩
  | retained =>
    obtain ⟨g, hg, rfl⟩ := Fences.mem_retain.mp hf
    refine ⟨g, hg, ?_, ?_⟩ <;> split <;> rfl

theorem gone_next {owner : Owner} (h : Gone scope owner p)
    (hs : contexts.machine.step p a = some p') : Gone scope owner p' := by
  cases a with
  | env b =>
    obtain ⟨henv, ht⟩ := next_env hs
    have hst : { p.store with books := b } = p'.store := Option.some.inj henv
    refine ⟨fun f hf => h.free f ?_, fun j hj => ?_⟩
    · rw [← hst] at hf
      exact hf
    · rw [ht]
      exact h.started j hj
  | call c =>
    obtain ⟨t, -, hst, ht⟩ := next_call hs
    refine ⟨hst ▸ h.free, fun j hj => ?_⟩
    obtain ⟨u, hu, hpc⟩ := h.started j hj
    rw [ht, List.getElem?_append_left (List.getElem?_eq_some_iff.mp hu).1]
    exact ⟨u, hu, hpc⟩
  | step k o =>
    obtain ⟨t, t', ht, hst, hset⟩ := next_step hs
    obtain ⟨pc', rfl, hm⟩ := step_moved hst
    refine ⟨fun f hf hkey ho => ?_, fun j hj => ?_⟩
    · by_cases hk : f.owner = .call k
      · obtain ⟨u, hu, hpc⟩ := h.started k (ho.symm.trans hk)
        obtain rfl : u = t := Option.some.inj (hu.symm.trans ht)
        obtain ⟨g, hg, hgk, hgo⟩ := exists_of_moved hm hpc hf
        exact h.free g hg (hgk.trans hkey) (hgo.trans ho)
      · exact h.free f ((advance_frame hm).old f hf hk) hkey ho
    · obtain ⟨u, hu, hpc⟩ := h.started j hj
      rw [hset]
      by_cases hjk : j = k
      · subst hjk
        obtain rfl : u = t := Option.some.inj (hu.symm.trans ht)
        exact ⟨_, List.getElem?_set_self (List.getElem?_eq_some_iff.mp ht).1, not_waits_of_moved hm hpc⟩
      · rw [List.getElem?_set_ne (Ne.symm hjk)]
        exact ⟨u, hu, hpc⟩

theorem TakenOver.gone (hp : contexts.machine.Reachable p)
    (hs : contexts.machine.step p (.step k o) = some p') (hf : f ∈ p.store.fences)
    (hne : f.owner ≠ .call k) (h : TakenOver k t p'.store f)
    (hq : contexts.machine.Path (fun _ _ => True) p' q) : Gone f.key f.owner q := by
  refine Machine.Path.invariant (Gone f.key f.owner) (fun p a p' h _ hs => gone_next h hs) hq ?_
  obtain ⟨u, u', hu, -, hset⟩ := next_step hs
  refine ⟨fun g hg hkey ho => ?_, fun j hj => ?_⟩
  · rw [Collection.eq_of_key hg h.taken hkey] at ho
    exact hne ho.symm
  · have hjk : j ≠ k := fun h => hne (by rw [hj, h])
    obtain ⟨v, hv⟩ : ∃ v, p.threads[j]? = some v :=
      ⟨_, List.getElem?_eq_getElem (issued_of_reachable hp f hf j hj)⟩
    have hleft : v.pc = .left := (stage_of_reachable hp hv).left f hf hj h.retained
    rw [hset, List.getElem?_set_ne (Ne.symm hjk)]
    exact ⟨v, hv, by rw [hleft]; rfl⟩

theorem fence_kept_or_taken (hp : contexts.machine.Reachable p) (ht : p.threads[k]? = some t)
    (hs : contexts.machine.step p (.step k o) = some p') (hf : f ∈ p.store.fences)
    (hne : f.owner ≠ .call k) : f ∈ p'.store.fences ∨
      (TakenOver k t p'.store f ∧ t.guard.resume = true ∧
        ∀ q, contexts.machine.Path (fun _ _ => True) p' q → Gone f.key f.owner q) := by
  obtain ⟨u, u', hu, hst, -⟩ := next_step hs
  obtain rfl : u = t := Option.some.inj (hu.symm.trans ht)
  obtain ⟨pc', -, hm⟩ := step_moved hst
  refine (fence_kept hm hf hne).imp_right fun h => ⟨h, ?_, fun q hq => h.gone hp hs hf hne hq⟩
  exact (stage_of_reachable hp ht).resumes h.resumes

theorem exists_takeOver (ht : p.threads[k]? = some t) (hpc : t.pc = .resume)
    (hf : f ∈ p.store.fences) (hkey : f.key = t.guard.scope) (hfits : t.guard.fits f.payload = true)
    (hret : f.retained = true) : ∃ p', contexts.machine.step p (.step k {}) = some p' ∧
      p'.threads[k]? = some { t with pc := .check } ∧ TakenOver k t p'.store f := by
  obtain ⟨fences, htake, hmem⟩ := Fences.exists_takeOver (.call k) hf hkey hfits hret
  have hadv : advance k p.store t {} = some ({ p.store with fences }, .check) := by
    simp only [advance, hpc, htake]
    rfl
  refine ⟨⟨{ p.store with fences }, p.threads.set k { t with pc := .check }⟩, ?_, ?_, hpc, hkey, hfits, hret, hmem⟩
  · simp only [Program.machine, Program.next, ht, contexts, Option.bind_some, hadv]
    rfl
  · exact List.getElem?_set_self (List.getElem?_eq_some_iff.mp ht).1

end SyrocePms.AgencyCredit
