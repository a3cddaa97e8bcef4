import SyrocePms.InvoiceActions.Steps

/-! One action over whole runs: one write at most, which is counted against the mark of the attempt,
a success only after a verification, and the reversal of the journal after a successful return. -/

namespace SyrocePms.InvoiceActions

open Lib Program Machine List

variable {p p' : Pool Store Thread} {log : List Note} {a : Act Event ℕ Move}
variable {k : ℕ} {t : Thread}

def notes (p : Pool Store Thread) : Act Event ℕ Move → List Note
  | .step k (.advance o) => ((p.threads[k]?).map fun t => t.pc.notes p.store t.worker o).getD []
  | _ => []

/-- A call is not stopped before the reversal of a posted journal, the provider shows the decision
only when the write has been issued, and the reversal of a posted journal does not raise. -/
def isSound (w : Pool Store Thread × List Note) : Act Event ℕ Move → Bool
  | .step k (.advance o) => (w.1.threads[k]?).all fun t => t.pc.isSound w.1.store w.2 o
  | .step k .stop => (w.1.threads[k]?).all fun t => !(t.pc.isReversing && w.1.store.isPosted)
  | _ => true

def dueWrites (threads : List Thread) : ℕ := threads.countP fun t => t.pc.isSending

structure Kept (p : Pool Store Thread) (log : List Note) : Prop where
  count : dueWrites p.threads + log.count .write ≤ marks p.store
  known : ∀ t ∈ p.threads, Known p.store.action.kind log t.pc
  action : ActionOk p.store log
  reversed : .stored true ∈ log → p.store.isPosted = true ∧ (p.store.action.kind = .createReturn →
    p.store.isReversed = true ∨ ∃ t ∈ p.threads, t.pc.isReversing = true)

theorem dueWrites_set {threads : List Thread} (h : threads[k]? = some t) (t' : Thread) :
    dueWrites (threads.set k t') + due t.pc = dueWrites threads + due t'.pc := by
  obtain ⟨hk, heq⟩ := List.getElem?_eq_some_iff.mp h
  have hpos : due t.pc ≤ dueWrites threads := by
    unfold due
    split
    · rename_i hs
      exact countP_pos_iff.mpr ⟨t, heq ▸ getElem_mem hk, hs⟩
    · exact Nat.zero_le _
  have hset := countP_set (p := fun t : Thread => t.pc.isSending) (a := t') hk
  rw [heq] at hset
  unfold dueWrites due at *
  rw [hset]
  omega

/-- A call that is stopped. -/
theorem kept_stop (h : Kept p log) (ht : p.threads[k]? = some t)
    (hsound : (t.pc.isReversing && p.store.isPosted) = false) :
    Kept ⟨p.store, p.threads.set k { t with pc := .stopped }⟩ log := by
  have hdue := dueWrites_set ht { t with pc := .stopped }
  refine ⟨?_, fun u hu => ?_, h.action, fun hm => ?_⟩
  · have hzero : due Pc.stopped = 0 := rfl
    have hcount := h.count
    simp only at hdue ⊢
    omega
  · obtain hu | rfl := mem_or_eq_of_mem_set hu
    · exact h.known u hu
    · exact ⟨fun _ hx => (by cases hx), trivial⟩
  · obtain ⟨hposted, hrev⟩ := h.reversed hm
    refine ⟨hposted, fun hkind => ?_⟩
    obtain hr | ⟨u, hu, hur⟩ := hrev hkind
    · exact .inl hr
    · obtain rfl | hu := eq_or_mem_set ht hu { t with pc := .stopped }
      · rw [hur, hposted] at hsound
        cases hsound
      · exact .inr ⟨u, hu, hur⟩

/-- A call that goes on. -/
theorem kept_advance {s' : Store} {pc' : Pc} {es : List Note} (h : Kept p log)
    (ht : p.threads[k]? = some t) (hadv : Advances p.store s' log es t.pc pc') :
    Kept ⟨s', p.threads.set k { t with pc := pc' }⟩ (es ++ log) := by
  have hdue := dueWrites_set ht { t with pc := pc' }
  refine ⟨?_, fun u hu => ?_, ⟨hadv.generated, hadv.succeeded⟩, fun hm => ?_⟩
  · have hcount := h.count
    have hstep := hadv.count
    simp only [count_append] at hdue ⊢
    omega
  · obtain hu | rfl := mem_or_eq_of_mem_set hu
    · change Known s'.action.kind _ _
      rw [hadv.kind]
      exact (h.known u hu).mono
    · exact hadv.known
  · simp only [hadv.posted, hadv.kind]
    obtain hm | hm := mem_append.mp hm
    · obtain ⟨hposted, hnext⟩ := hadv.stored hm
      exact ⟨hposted, fun hkind => .inr ⟨_, self_mem_set ht _, hnext hkind⟩⟩
    · obtain ⟨hposted, hrev⟩ := h.reversed hm
      refine ⟨hposted, fun hkind => ?_⟩
      obtain hr | ⟨u, hu, hur⟩ := hrev hkind
      · exact .inl (hadv.kept hr)
      · obtain rfl | hu := eq_or_mem_set ht hu { t with pc := pc' }
        · exact .inl (hadv.reversing hur hposted)
        · exact .inr ⟨u, hu, hur⟩

theorem kept_next (h : Kept p log) (hsound : isSound (p, log) a = true) (hs : lifecycle.machine.step p a = some p') :
    Kept p' (notes p a ++ log) := by
  obtain ⟨store', threads'⟩ := p'
  cases a with
  | env e =>
    obtain ⟨hstore, hthreads⟩ := next_env hs
    simp only at hstore hthreads
    subst hthreads
    cases e with
    | wait d =>
      cases hstore
      exact ⟨h.count, h.known, ⟨h.action.generated, h.action.succeeded⟩, h.reversed⟩
    | post =>
      cases hstore
      exact ⟨h.count, h.known, ⟨h.action.generated, h.action.succeeded⟩, fun hm => ⟨rfl, (h.reversed hm).2⟩⟩
  | call worker =>
    obtain ⟨t, hcall, hstore, hthreads⟩ := next_call hs
    cases hcall
    simp only at hstore hthreads
    subst hstore hthreads
    change Kept _ log
    refine ⟨?_, fun u hu => ?_, h.action, fun hm => ?_⟩
    · simpa [dueWrites, Pc.isSending] using h.count
    · obtain hu | hu := mem_append.mp hu
      · exact h.known u hu
      · cases mem_singleton.mp hu
        exact ⟨fun _ hx => (by cases hx), trivial⟩
    · obtain ⟨hposted, hrev⟩ := h.reversed hm
      exact ⟨hposted, fun hkind => (hrev hkind).imp_right fun hex =>
        hex.imp fun u hu => ⟨mem_append_left _ hu.1, hu.2⟩⟩
  | step k m =>
    obtain ⟨t, t', ht, hstep, hthreads⟩ := next_step hs
    simp only at hstep hthreads
    subst hthreads
    cases m with
    | stop =>
      simp only [lifecycle, Thread.step] at hstep
      split at hstep
      · cases hstep
      · cases hstep
        simp only [isSound, ht, Option.all_some, Bool.not_eq_true'] at hsound
        exact kept_stop h ht hsound
    | advance o =>
      obtain ⟨⟨s', pc'⟩, hx, heq⟩ := Option.map_eq_some_iff.mp hstep
      cases heq
      have hpc : t.pc.isSound p.store log o = true := by simpa [isSound, ht] using hsound
      have hnotes : notes p (.step k (.advance o)) = t.pc.notes p.store t.worker o := by simp [notes, ht]
      rw [hnotes]
      exact kept_advance h ht (access_advances h.action (h.known t (mem_of_getElem? ht)) hpc hx)

/-! ### Whole runs -/

abbrev LoggedState := Pool Store Thread × List Note

/-- The write is issued once at most, a success comes after a verification that comes after the
write, an action whose write has been issued is marked and no call is about to write, and a return
that succeeds with a posted source invoice ends with that posting reversed. -/
structure Correct (w : LoggedState) : Prop where
  once : w.2.count .write ≤ 1
  verified : w.1.store.action.state = .succeeded → VerifiedAfterWrite w.2
  unrepeated : .write ∈ w.2 → w.1.store.action.attempted.isSome = true ∧ ∀ t ∈ w.1.threads, t.pc.isSending = false
  reversed : .stored true ∈ w.2 → w.1.store.action.kind = .createReturn → (∀ t ∈ w.1.threads, t.pc.isOver = true) →
    w.1.store.isReversed = true

variable {C : LoggedState → Act Event ℕ Move → Prop} {w : LoggedState}

theorem kept_reach (hC : ∀ w a, C w a → isSound w a = true)
    (hw : (lifecycle.machine.logged notes).Reach C w) : Kept w.1 w.2 := by
  refine Reach.invariant (fun w : LoggedState => Kept w.1 w.2) (fun w hinit => ?_) (fun w a w' h hc hs => ?_) hw
  · obtain ⟨⟨⟨hattempted, hgenerated, hstate, -⟩, hthreads⟩, hlog⟩ := hinit
    rw [hlog]
    refine ⟨?_, fun t ht => ?_, ⟨fun hg => ?_, fun hs => ?_⟩, fun hm => ?_⟩
    · simp [hthreads, dueWrites]
    · simp [hthreads] at ht
    · simp [hgenerated] at hg
    · simp [hstate] at hs
    · simp at hm
  · obtain ⟨hs, hlog⟩ := logged_step hs
    rw [hlog]
    exact kept_next h (hC w a hc) hs

theorem not_isOver_of_isReversing {pc : Pc} (h : pc.isReversing = true) : pc.isOver = false := by
  cases pc <;> first | rfl | cases h

theorem Kept.correct (h : Kept w.1 w.2) : Correct w := by
  have hcount := h.count
  have hone : marks w.1.store ≤ 1 := by
    unfold marks
    split <;> omega
  refine ⟨by omega, h.action.succeeded, fun hm => ?_, fun hm hkind hover => ?_⟩
  · have hpos : 0 < w.2.count .write := count_pos_iff.mpr hm
    have hdue : dueWrites w.1.threads = 0 := by omega
    refine ⟨?_, fun t ht => ?_⟩
    · by_contra hnone
      have hzero : marks w.1.store = 0 := if_neg hnone
      omega
    · exact Bool.eq_false_iff.mpr (countP_eq_zero.mp hdue t ht)
  · obtain hr | ⟨t, ht, hrev⟩ := (h.reversed hm).2 hkind
    · exact hr
    · exact absurd (hover t ht) (by simp [not_isOver_of_isReversing hrev])

theorem log_suffix {w' : LoggedState} (h : (lifecycle.machine.logged notes).Path C w w') :
    w.2 <:+ w'.2 := by
  refine Path.relation (I := fun _ => True) (R := fun v v' : LoggedState => v.2 <:+ v'.2) trivial
    (suffix_refl _) (fun v a v' _ hv _ hs => ⟨trivial, ?_⟩) h
  rw [(logged_step hs).2]
  exact hv.trans (suffix_append _ _)

/-- In runs that meet the condition, an action is right at the provider and in the books in every
state, and what follows a write has no other write. -/
theorem actions_once_at_provider {w : LoggedState}
    (hw : (lifecycle.machine.logged notes).Reach (fun w a => isSound w a = true) w) :
    Correct w ∧ ∀ w', (lifecycle.machine.logged notes).Path (fun w a => isSound w a = true) w w' → .write ∈ w.2 →
      w'.2.count .write = w.2.count .write := by
  refine ⟨(kept_reach (fun _ _ h => h) hw).correct, fun w' hpath hm => ?_⟩
  have hle : w'.2.count .write ≤ 1 := (kept_reach (fun _ _ h => h) (hw.trans hpath)).correct.once
  have hgrows : w.2.count .write ≤ w'.2.count .write := (log_suffix hpath).sublist.count_le _
  have hpos : 0 < w.2.count .write := count_pos_iff.mpr hm
  omega

/-- The log, the state of the action, whether the posting is reversed, and whether all calls are over. -/
def outcome (w : LoggedState) : List Note × ActionState × Bool × Bool :=
  (w.2, w.1.store.action.state, w.1.store.isReversed, w.1.threads.all fun t => t.pc.isOver)

def startOf (kind : Kind) : LoggedState := (⟨{ action := { kind := kind } }, []⟩, [])

theorem init_startOf (kind : Kind) : (lifecycle.machine.logged notes).init (startOf kind) :=
  ⟨⟨⟨rfl, rfl, rfl, rfl⟩, rfl⟩, rfl⟩

def go (k : ℕ) (o : Chance) : Act Event ℕ Move := .step k (.advance o)

/-- The source invoice is posted, a first worker creates the return and loses its lease, and a second
one verifies the return and stores the success. -/
def takenOver : List (Act Event ℕ Move) :=
  [.env .post, .call 1, go 0 {}, go 0 {}, go 0 {}, go 0 {}, go 0 { sending := .accepted 9 }, go 0 {}, .env (.wait 60), .call 2,
    go 1 {}, go 1 {}, go 1 { draft := .valid }, go 1 {}, go 1 {}]

theorem actions_once_at_provider_taken_over :
    ∃ w, (lifecycle.machine.logged notes).Reach (fun w a => isSound w a = true) w ∧
      outcome w = ([.stored true, .verified, .write], .succeeded, true, true) ∧ Correct w := by
  obtain ⟨w, hw, hv⟩ := exists_reach_of_runUnder (M := lifecycle.machine.logged notes)
    (C := fun w a => isSound w a = true) (s := startOf .createReturn) (f := outcome)
    (v := ([.stored true, .verified, .write], .succeeded, true, true))
    (takenOver ++ [go 1 {}, go 0 {}, go 0 {}]) (init_startOf _) (by decide +kernel)
  exact ⟨w, hw, hv, (actions_once_at_provider hw).1⟩

/-- The worker stops before the reversal. And a second worker finds the approval that somebody else
has given, before the first one writes. -/
theorem reversal_lost :
    (∃ w, (lifecycle.machine.logged notes).Reachable w ∧ w.1.store.action.kind = .createReturn ∧ .stored true ∈ w.2 ∧
      (∀ t ∈ w.1.threads, t.pc.isOver = true) ∧ w.1.store.isReversed = false) ∧
    ∃ w, (lifecycle.machine.logged notes).Reachable w ∧ w.1.store.action.state = .succeeded ∧ ¬ VerifiedAfterWrite w.2 := by
  constructor
  · obtain ⟨w, hw, hv⟩ := exists_reachable_of_run (M := lifecycle.machine.logged notes) (s := startOf .createReturn)
      (f := fun w => (w.1.store.action.kind, outcome w))
      (v := (.createReturn, [.stored true, .verified, .write], .succeeded, false, true))
      (List.flatten [takenOver, [.step 1 .stop, .step 0 .stop]])
        (init_startOf _) (by decide +kernel)
    simp only [outcome, Prod.mk.injEq] at hv
    obtain ⟨hkind, hlog, -, hreversed, hover⟩ := hv
    exact ⟨w, hw, hkind, by rw [hlog]; decide, all_eq_true.mp hover, hreversed⟩
  · obtain ⟨w, hw, hv⟩ := exists_reachable_of_run (M := lifecycle.machine.logged notes) (s := startOf .acceptIncoming)
      (f := outcome) (v := ([.write, .stored false, .verified], .succeeded, false, false))
      [.call 1, go 0 {}, go 0 {}, go 0 {}, .env (.wait 60), .call 2, go 1 {}, go 1 {}, go 1 { answer := .state .approved },
        go 1 {}, go 1 {}, go 0 {}] (init_startOf _) (by decide +kernel)
    simp only [outcome, Prod.mk.injEq] at hv
    obtain ⟨hlog, hstate, -⟩ := hv
    refine ⟨w, hw, hstate, ?_⟩
    rw [hlog]
    rintro ⟨l, hl, hwrite⟩
    simp [suffix_cons_iff] at hl
    simp [hl] at hwrite

end SyrocePms.InvoiceActions
