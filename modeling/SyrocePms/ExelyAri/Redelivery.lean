import SyrocePms.ExelyAri.AtMostOnce

/-! What a later call does. A call that has passed the checks and is carried out to its end makes
its push exactly when no document stands in the way of its own: none with its identity, in
whatever state, and none of another identity that still holds its payload. -/

namespace SyrocePms.ExelyAri

open Lib

variable {sha256 : Seed → ℕ} {s s' : Deliveries} {p p' : Pool Deliveries Thread} {k : ℕ} {c : Call}
variable {pc pc' : Pc} {o : Chance} {log : List Sent}

def ownSends (sha256 : Seed → ℕ) (k : ℕ) (p : Pool Deliveries Thread) :
    Act Empty Call Move → List Sent
  | .step j m => if j = k then sends sha256 p (.step j m) else []
  | _ => []

/-- Call `k` is carried out: none of its accesses raises, and the provider can be resolved. The
other calls do what they like. -/
def Carried (k : ℕ) (a : Act Empty Call Move) : Prop :=
  ∀ m, a = .step k m → ∃ o : Chance, m = .advance o ∧ o.factory = true

/-- Call `k`, which is about to insert its document, is carried out to its end, among any steps of
other calls, and these are its pushes. -/
def Ends (sha256 : Seed → ℕ) (p : Pool Deliveries Thread) (k : ℕ) (c : Call) (log : List Sent) : Prop :=
  ∃ o p₁ p' r, (calls sha256).machine.step p (.step k (.advance o)) = some p₁ ∧
    ((calls sha256).machine.logged (ownSends sha256 k)).Path (fun _ a => Carried k a)
      (p₁, []) (p', log) ∧ p'.threads[k]? = some ⟨c, .returned r⟩

/-- The call can be carried out to its end, and however it is, it performs the write. -/
def Delivers (sha256 : Seed → ℕ) (p : Pool Deliveries Thread) (k : ℕ) (c : Call) : Prop :=
  (∃ log, Ends sha256 p k c log) ∧
    ∀ log, Ends sha256 p k c log → log = [⟨c.identity sha256, c.payload⟩]

/-- No document has the identity of the call, and none holds its payload. -/
def Free (sha256 : Seed → ℕ) (s : Deliveries) (c : Call) : Prop :=
  ∀ d ∈ s.docs, d.operationIdentity ≠ c.identity sha256 ∧
    d.activeFingerprint ≠ some (c.fingerprint sha256)

/-! ### The insertion -/

theorem Free.prepareDelivery (h : Free sha256 s c) : ∃ s', s.prepareDelivery sha256 c k = some s' := by
  have hactive : ¬ s.isActive (c.fingerprint sha256) = true := by
    intro hactive
    obtain ⟨d, hd, hf⟩ := Collection.any_eq_true.mp hactive
    exact (h d hd).2 (of_decide_eq_true hf)
  obtain ⟨docs, hdocs⟩ := Collection.exists_insertOne (c := s.docs) (r := c.document sha256 k)
    fun d hd => (h d hd).1
  unfold Deliveries.prepareDelivery Deliveries.insertOne
  rw [dif_neg hactive]
  split
  · rename_i hnone
    rw [hdocs] at hnone
    cases hnone
  · exact ⟨_, rfl⟩

theorem free_of_prepareDelivery (h : s.prepareDelivery sha256 c k = some s') : Free sha256 s c := by
  intro d hd
  refine ⟨(Deliveries.insertOne_eq_some h).2 d hd, fun hf => ?_⟩
  have hactive : s.isActive (c.fingerprint sha256) = true :=
    Collection.any_eq_true.mpr ⟨d, hd, decide_eq_true hf⟩
  unfold Deliveries.prepareDelivery Deliveries.insertOne at h
  rw [dif_pos hactive] at h
  cases h

/-! ### The steps of one call -/

theorem sends_advance (ht : p.threads[k]? = some ⟨c, pc⟩) : sends sha256 p (.step k (.advance o)) =
      if pc = .push then [⟨c.identity sha256, c.payload⟩] else [] := by
  simp only [sends, ht]
  cases pc <;> rfl

theorem path_course {I : Pc → List Sent → Prop} {log' : List Sent}
    (hstep : ∀ s s' pc o pc' log, Stage sha256 s k ⟨c, pc⟩ → I pc log → o.factory = true →
      advance sha256 k s ⟨c, pc⟩ o = some (s', pc') →
        I pc' ((if pc = .push then [⟨c.identity sha256, c.payload⟩] else []) ++ log))
    (hp : (calls sha256).machine.Reachable p) (ht : p.threads[k]? = some ⟨c, pc⟩) (h : I pc log)
    (hpath : ((calls sha256).machine.logged (ownSends sha256 k)).Path (fun _ a => Carried k a)
      (p, log) (p', log')) : ∃ pc', p'.threads[k]? = some ⟨c, pc'⟩ ∧ I pc' log' := by
  refine (Machine.Path.invariant (fun w : Pool Deliveries Thread × List Sent =>
    (calls sha256).machine.Reachable w.1 ∧ ∃ pc, w.1.threads[k]? = some ⟨c, pc⟩ ∧ I pc w.2)
    ?_ hpath ⟨hp, pc, ht, h⟩).2
  rintro w a w' ⟨hw, pc, ht, h⟩ ha hs
  obtain ⟨hs, hlog⟩ := Machine.logged_step hs
  refine ⟨hw.tail ⟨a, trivial, hs⟩, ?_⟩
  rw [hlog]
  cases a with
  | env e => exact e.elim
  | call d =>
    obtain ⟨t, -, -, hthreads⟩ := Program.next_call hs
    refine ⟨pc, ?_, h⟩
    rw [hthreads, List.getElem?_append_left (List.getElem?_eq_some_iff.mp ht).1, ht]
  | step j m =>
    obtain ⟨t, t', ht', hmove, hthreads⟩ := Program.next_step hs
    by_cases hjk : j = k
    · subst hjk
      obtain ⟨o, rfl, ho⟩ := ha m rfl
      rw [ht] at ht'
      obtain rfl := Option.some.inj ht'
      obtain ⟨⟨s₁, pc'⟩, hadv, heq⟩ := Option.map_eq_some_iff.mp hmove
      obtain rfl := (Prod.mk.inj heq).2
      refine ⟨pc', ?_, ?_⟩
      · rw [hthreads, List.getElem?_set_self (List.getElem?_eq_some_iff.mp ht).1]
      · rw [ownSends, if_pos rfl, sends_advance ht]
        exact hstep _ _ _ _ _ _ ((inv_stage hw).thread _ _ ht) h ho hadv
    · refine ⟨pc, ?_, ?_⟩
      · rw [hthreads, List.getElem?_set_ne hjk, ht]
      · rw [ownSends, if_neg hjk]
        exact h

def Pushing (sha256 : Seed → ℕ) (c : Call) : Pc → List Sent → Prop
  | .provider, log | .markSending, log | .push, log => log = []
  | .finish _ _ _, log | .returned _, log => log = [⟨c.identity sha256, c.payload⟩]
  | _, _ => False

/-- A call whose insertion found a document in its way. -/
def Refusing : Pc → List Sent → Prop
  | .existing, log | .returned _, log => log = []
  | _, _ => False

theorem Owns.canMark (h : Owns sha256 k c .prepared s) : s.canMark (c.identity sha256) k = true := by
  obtain ⟨d, hd, hstamp, hst⟩ := h
  have hown : isOwn (c.identity sha256) k d = true :=
    isOwn_iff.mpr ⟨congrArg Prod.fst hstamp, congrArg (fun x => x.2.1) hstamp⟩
  exact Collection.any_eq_true.mpr ⟨d, hd, by simp [hown, hst]⟩

theorem pushing_advance (ht : Stage sha256 s k ⟨c, pc⟩) (h : Pushing sha256 c pc log)
    (ho : o.factory = true) (hadv : advance sha256 k s ⟨c, pc⟩ o = some (s', pc')) :
    Pushing sha256 c pc' ((if pc = .push then [⟨c.identity sha256, c.payload⟩] else []) ++ log) := by
  unfold advance at hadv
  cases pc <;> simp only at hadv
  case provider =>
    cases hadv
    rw [if_pos ho]
    exact h
  case markSending =>
    have hmark : s.canMark (c.identity sha256) k = true := Owns.canMark ht
    cases hadv
    rw [if_pos hmark]
    exact h
  case push =>
    cases hadv
    obtain ⟨w, r, r', hpc⟩ := afterPush_eq_finish sha256 c o.answer
    have hlog : log = [] := h
    rw [hpc, hlog]
    rfl
  case finish =>
    cases hadv
    exact h
  case returned => cases hadv
  case gate => exact h.elim
  case prepare => exact h.elim
  case existing => exact h.elim
  case stopped => exact h.elim

theorem refusing_advance (h : Refusing pc log)
    (hadv : advance sha256 k s ⟨c, pc⟩ o = some (s', pc')) :
    Refusing pc' ((if pc = .push then [⟨c.identity sha256, c.payload⟩] else []) ++ log) := by
  unfold advance at hadv
  cases pc <;> simp only at hadv
  case existing =>
    cases hadv
    exact h
  case returned => cases hadv
  case gate => exact h.elim
  case prepare => exact h.elim
  case provider => exact h.elim
  case markSending => exact h.elim
  case push => exact h.elim
  case finish => exact h.elim
  case stopped => exact h.elim

/-! ### To the end -/

/-- How many steps a call has left at most. -/
def Pc.rank : Pc → ℕ
  | .gate => 7
  | .prepare => 6
  | .existing => 1
  | .provider => 4
  | .markSending => 3
  | .push => 2
  | .finish _ _ _ => 1
  | .returned _ | .stopped => 0

theorem rank_gate (c : Call) (o : Chance) :
    (c.gate sha256 o).rank < Pc.gate.rank ∧ c.gate sha256 o ≠ .stopped := by
  obtain hpc | ⟨r, hpc⟩ := gate_cases sha256 c o <;> rw [hpc]
  · exact ⟨by simp [Pc.rank], nofun⟩
  · exact ⟨by simp [Pc.rank], nofun⟩

theorem returned_of_rank (h : pc.rank ≤ 0) (hpc : pc ≠ .stopped) : ∃ r, pc = .returned r := by
  cases pc
  case returned r => exact ⟨r, rfl⟩
  case stopped => exact absurd rfl hpc
  all_goals cases h

/-- Until a call has returned it has a next step, and that step brings it nearer to its end. -/
theorem exists_advance (sha256 : Seed → ℕ) (s : Deliveries) (k : ℕ) (c : Call) (h : 0 < pc.rank) :
    ∃ s' pc', advance sha256 k s ⟨c, pc⟩ {} = some (s', pc') ∧
      pc'.rank < pc.rank ∧ pc' ≠ .stopped := by
  unfold advance
  cases pc
  case gate => exact ⟨_, _, rfl, (rank_gate c {}).1, (rank_gate c {}).2⟩
  case prepare =>
    dsimp only
    split
    · refine ⟨_, _, rfl, ?_, ?_⟩ <;> split <;> simp [Pc.rank]
    · exact ⟨_, _, rfl, by simp [Pc.rank], nofun⟩
  case existing => exact ⟨_, _, rfl, by simp [Pc.rank], nofun⟩
  case provider => exact ⟨_, _, rfl, by simp [Pc.rank], nofun⟩
  case markSending =>
    refine ⟨_, _, rfl, ?_, ?_⟩ <;> dsimp only <;> split <;> simp [Pc.rank]
  case push =>
    obtain ⟨w, r, r', hpc⟩ := afterPush_eq_finish sha256 c ({} : Chance).answer
    refine ⟨_, _, rfl, ?_, ?_⟩ <;> rw [hpc] <;> simp [Pc.rank]
  case finish => exact ⟨_, _, rfl, by simp [Pc.rank], nofun⟩
  case returned => exact absurd h (Nat.lt_irrefl 0)
  case stopped => exact absurd h (Nat.lt_irrefl 0)

theorem exists_returned (n : ℕ) (p : Pool Deliveries Thread) (log : List Sent) (hn : pc.rank ≤ n)
    (hpc : pc ≠ .stopped) (ht : p.threads[k]? = some ⟨c, pc⟩) :
    ∃ p' log' r, ((calls sha256).machine.logged (ownSends sha256 k)).Path (fun _ a => Carried k a)
      (p, log) (p', log') ∧ p'.threads[k]? = some ⟨c, .returned r⟩ := by
  induction n generalizing p log pc with
  | zero =>
    obtain ⟨r, rfl⟩ := returned_of_rank hn hpc
    exact ⟨p, log, r, .refl, ht⟩
  | succ n ih =>
    obtain hzero | hpos := Nat.eq_zero_or_pos pc.rank
    · exact ih p log (by omega) hpc ht
    · obtain ⟨s', pc', hadv, hlt, hpc'⟩ := exists_advance sha256 p.store k c hpos
      have hs : (calls sha256).machine.step p (.step k (.advance {})) =
          some ⟨s', p.threads.set k ⟨c, pc'⟩⟩ := by
        simp [Program.machine, Program.next, ht, calls, stepOf, hadv]
      obtain ⟨p', log', r, hpath, hr⟩ := ih ⟨s', p.threads.set k ⟨c, pc'⟩⟩
        (ownSends sha256 k p (.step k (.advance {})) ++ log) (by omega) hpc'
        (List.getElem?_set_self (List.getElem?_eq_some_iff.mp ht).1)
      refine ⟨p', log', r, .head ⟨.step k (.advance {}), ?_, ?_⟩ hpath, hr⟩
      · rintro m hm
        cases hm
        exact ⟨{}, rfl, rfl⟩
      · simp [Machine.logged, hs]

/-! ### The later call -/

theorem next_prepare {p₁ : Pool Deliveries Thread} (ht : p.threads[k]? = some ⟨c, .prepare⟩)
    (hs : (calls sha256).machine.step p (.step k (.advance o)) = some p₁) :
    ∃ pc, p₁.threads[k]? = some ⟨c, pc⟩ ∧ pc ≠ .stopped ∧
      (Free sha256 p.store c → Pushing sha256 c pc []) ∧ (¬ Free sha256 p.store c → Refusing pc []) := by
  obtain ⟨t, t', ht', hmove, hthreads⟩ := Program.next_step hs
  rw [ht] at ht'
  obtain rfl := Option.some.inj ht'
  obtain ⟨⟨s₁, pc⟩, hadv, heq⟩ := Option.map_eq_some_iff.mp hmove
  obtain rfl := (Prod.mk.inj heq).2
  refine ⟨pc, ?_, ?_⟩
  · rw [hthreads, List.getElem?_set_self (List.getElem?_eq_some_iff.mp ht).1]
  · unfold advance at hadv
    dsimp only at hadv
    split at hadv <;> cases hadv
    · rename_i hprepare
      refine ⟨?_, fun _ => ?_, fun h => absurd (free_of_prepareDelivery hprepare) h⟩
      · split <;> nofun
      · split <;> rfl
    · rename_i hprepare
      refine ⟨nofun, fun h => ?_, fun _ => rfl⟩
      obtain ⟨s₂, hs₂⟩ := Free.prepareDelivery (k := k) h
      rw [hprepare] at hs₂
      cases hs₂

theorem exists_ends (ht : p.threads[k]? = some ⟨c, .prepare⟩) : ∃ log, Ends sha256 p k c log := by
  have hpos : 0 < Pc.prepare.rank := by simp [Pc.rank]
  obtain ⟨s', pc, hadv, -, -⟩ := exists_advance sha256 p.store k c hpos
  have hs : (calls sha256).machine.step p (.step k (.advance {})) =
      some ⟨s', p.threads.set k ⟨c, pc⟩⟩ := by
    simp [Program.machine, Program.next, ht, calls, stepOf, hadv]
  obtain ⟨pc', ht₁, hpc, -, -⟩ := next_prepare ht hs
  obtain ⟨p', log, r, hpath, hr⟩ := exists_returned pc'.rank _ [] (Nat.le_refl _) hpc ht₁
  exact ⟨log, _, _, p', r, hs, hpath, hr⟩

theorem Ends.of_free (h : Ends sha256 p k c log) (hp : (calls sha256).machine.Reachable p)
    (ht : p.threads[k]? = some ⟨c, .prepare⟩) (hfree : Free sha256 p.store c) :
    log = [⟨c.identity sha256, c.payload⟩] := by
  obtain ⟨o, p₁, p', r, hs, hpath, hr⟩ := h
  obtain ⟨pc, ht₁, -, hpushing, -⟩ := next_prepare ht hs
  obtain ⟨pc', ht', hlog⟩ := path_course (I := Pushing sha256 c)
    (fun _ _ _ _ _ _ hstage h ho hadv => pushing_advance hstage h ho hadv)
    (hp.tail ⟨_, trivial, hs⟩) ht₁ (hpushing hfree) hpath
  rw [hr] at ht'
  cases ht'
  exact hlog

theorem Ends.of_not_free (h : Ends sha256 p k c log) (hp : (calls sha256).machine.Reachable p)
    (ht : p.threads[k]? = some ⟨c, .prepare⟩) (hfree : ¬ Free sha256 p.store c) : log = [] := by
  obtain ⟨o, p₁, p', r, hs, hpath, hr⟩ := h
  obtain ⟨pc, ht₁, -, -, hrefusing⟩ := next_prepare ht hs
  obtain ⟨pc', ht', hlog⟩ := path_course (I := Refusing)
    (fun _ _ _ _ _ _ _ h _ hadv => refusing_advance h hadv)
    (hp.tail ⟨_, trivial, hs⟩) ht₁ (hrefusing hfree) hpath
  rw [hr] at ht'
  cases ht'
  exact hlog

/-- Zero-write outcomes stay deliverable exactly as long as nothing is stored. A call that is
about to insert its document (it is valid and writes are enabled) performs the write, with every
access carried out and the provider resolved, if and only if no document has its identity, in
whatever state it was left, and no delivery of another identity still holds its payload. -/
theorem later_call_writes (hp : (calls sha256).machine.Reachable p)
    (ht : p.threads[k]? = some ⟨c, .prepare⟩) : Delivers sha256 p k c ↔ Free sha256 p.store c := by
  constructor
  · intro h
    by_contra hfree
    obtain ⟨log, hlog⟩ := h.1
    have hnone := hlog.of_not_free hp ht hfree
    have hone := h.2 log hlog
    rw [hnone] at hone
    cases hone
  · intro hfree
    exact ⟨exists_ends ht, fun log hlog => hlog.of_free hp ht hfree⟩

/-- The first call under an identity. -/
theorem later_call_writes_first : ∃ p, (calls sampleHash).machine.Reachable p ∧
    p.threads[0]? = some ⟨sampleCall 1, .prepare⟩ ∧
      (Delivers sampleHash p 0 (sampleCall 1) ↔ Free sampleHash p.store (sampleCall 1)) := by
  obtain ⟨p, hp, ht⟩ := Machine.exists_reachable_of_run (M := (calls sampleHash).machine)
    (s := ⟨.empty, []⟩) (f := fun p => p.threads[0]?) (v := some ⟨sampleCall 1, .prepare⟩)
    [.call (sampleCall 1), .step 0 (.advance {})] ⟨rfl, rfl⟩ (by decide +kernel)
  exact ⟨p, hp, ht, later_call_writes hp ht⟩

/-- A call of the sample update without a provider at hand. -/
def unresolvedCall : Call := { sampleCall 1 with hasProvider := false }

/-- What the first call answers when its provider cannot be resolved. -/
def unresolved : DeliveryResult := unresolvedCall.blocked sampleHash .providerUnavailable

/-- The first call, which ended without a write, the one that repeats it, what is stored and what
was pushed. -/
def redelivery (w : Pool Deliveries Thread × List Sent) : List Thread × List ℕ × List Sent :=
  (w.1.threads, w.1.store.docs.rows.map Delivery.operationIdentity, w.2)

/-- The provider of the first call cannot be resolved, and nothing is written. The same call with a
provider is answered that a delivery is in progress. -/
theorem blocked_identity_stays : ¬ ∀ (p : Pool Deliveries Thread) (log : List Sent) (k : ℕ) (c : Call),
    (calls sampleHash).machine.ReachLogged (sends sampleHash) (fun _ _ => True) (p, log) →
      (∀ x ∈ log, x.identity ≠ c.identity sampleHash) →
        (∀ j t, j ≠ k → p.threads[j]? = some t → t.call.identity sampleHash = c.identity sampleHash →
          ∃ r, t.pc = .returned r ∧ r.providerWriteCount = 0) →
          p.threads[k]? = some ⟨c, .prepare⟩ → Delivers sampleHash p k c := by
  intro hclaim
  obtain ⟨⟨p, log⟩, hp, hv⟩ := Machine.exists_reachable_of_run
    (M := (calls sampleHash).machine.logged (sends sampleHash))
    (s := (⟨.empty, []⟩, [])) (f := redelivery)
    (v := ([⟨unresolvedCall, .returned unresolved⟩, ⟨sampleCall 1, .prepare⟩], [2], []))
    [.call unresolvedCall, .step 0 (.advance {}), .step 0 (.advance {}),
      .step 0 (.advance { factory := false }), .step 0 (.advance {}), .call (sampleCall 1),
      .step 1 (.advance {})] ⟨⟨rfl, rfl⟩, rfl⟩ (by decide +kernel)
  obtain ⟨hthreads, hdocs⟩ := Prod.mk.inj hv
  obtain ⟨hdocs, hlog⟩ := Prod.mk.inj hdocs
  obtain rfl : log = [] := hlog
  have hp : (calls sampleHash).machine.ReachLogged (sends sampleHash) (fun _ _ => True) (p, []) := hp
  have ht : p.threads[1]? = some ⟨sampleCall 1, .prepare⟩ := by rw [hthreads]; rfl
  have hdelivers := hclaim p [] 1 (sampleCall 1) hp (fun x hx => absurd hx List.not_mem_nil) ?_ ht
  · obtain ⟨log', hends⟩ := hdelivers.1
    have hstored : ¬ Free sampleHash p.store (sampleCall 1) := by
      intro hfree
      have hids : p.store.docs.rows.map Delivery.operationIdentity = [2] := hdocs
      have htwo : 2 ∈ p.store.docs.rows.map Delivery.operationIdentity := by simp [hids]
      obtain ⟨d, hd, hid⟩ := List.mem_map.mp htwo
      exact (hfree d hd).1 hid
    have hnone := hends.of_not_free hp.reach ht hstored
    have hone := hdelivers.2 log' hends
    rw [hnone] at hone
    cases hone
  · intro j t hj ht' _
    rw [hthreads] at ht'
    obtain rfl | rfl | hge : j = 0 ∨ j = 1 ∨ 2 ≤ j := by omega
    · obtain rfl := Option.some.inj ht'
      exact ⟨unresolved, rfl, rfl⟩
    · exact absurd rfl hj
    · rw [List.getElem?_eq_none hge] at ht'
      cases ht'

end SyrocePms.ExelyAri
