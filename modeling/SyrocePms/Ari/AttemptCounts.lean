import SyrocePms.Lib.Pending
import SyrocePms.Ari.Recorded

/-! When the attempts of a change set are its sends. A cycle counts an attempt before it sends,
and an acknowledgement may count it again; no step claims a set, so two cycles can have read the
same attempt. The log has the attempts that are sent. -/

namespace SyrocePms.Ari

open Lib List

structure Attempt where
  set : ℕ
  number : ℕ
  deriving DecidableEq

variable {E : Extranet} {s s' : Store}
variable {k : ℕ} {x : ChangeSet} {t : Thread} {o : Chance} {pc' : Pc} {p : Pool Store Thread}

/-- The attempt that a call has counted and not yet sent. -/
def Pc.marked : Pc → List Attempt
  | .deliver x _ => [⟨x.id, x.set.attempts⟩]
  | _ => []

def Thread.marked (t : Thread) : List Attempt := t.pc.marked

def sends (p : Pool Store Thread) : Act Env Call Move → List Attempt
  | .step k (.advance o) =>
    match p.threads[k]? with
    | some t => if o.adapter then t.marked else []
    | none => []
  | _ => []

def sendsOf (k : ℕ) (log : List Attempt) : ℕ := log.countP fun a => a.set = k

/-- The operation counts one attempt for each send. A row is marked while it has the attempts
that the cycle has read, fewer than the most; there is an adapter; the acknowledgement counts
nothing. -/
def Pc.countsOnce (s : Store) (o : Chance) : Pc → Bool
  | .mark x _ =>
    !o.allowed || (compileDelta x.set.key.provider x.set.key.scope x.set.payload).isNone ||
      (((s.sets[x.id]?).any fun r => r.attempts = x.set.attempts) && shouldRetry x.set.attempts)
  | .deliver _ _ => o.adapter
  | .answer x r _ => !(processAck x.set r).2
  | _ => true

def CountsOnce (p : Pool Store Thread) : Act Env Call Move → Bool
  | .step k (.advance o) => p.threads[k]?.all fun t => t.pc.countsOnce p.store o
  | .step k .stop => p.threads[k]?.all fun t => t.marked.isEmpty
  | _ => true

/-! ### The attempts that are stored -/

def Store.attemptsAt (s : Store) (k : ℕ) : ℕ := ((s.sets[k]?).map ChangeSet.attempts).getD 0

theorem attemptsAt_eq (hx : s.sets[k]? = some x) : s.attemptsAt k = x.attempts := by
  rw [Store.attemptsAt, hx]
  rfl

theorem attemptsAt_updateStatus (k : ℕ) (st : SetStatus) : (s.updateStatus k st).attemptsAt = s.attemptsAt := by
  funext j
  rw [Store.attemptsAt, getElem?_updateStatus, Option.map_map, Store.attemptsAt]
  congr 2
  funext x
  simp only [Function.comp]
  split <;> rfl

theorem attemptsAt_inc {st : SetStatus} (hx : s.sets[k]? = some x) (j : ℕ) :
    (s.updateStatus k st true).attemptsAt j = if k = j then s.attemptsAt j + 1 else s.attemptsAt j := by
  rw [Store.attemptsAt, getElem?_updateStatus, Option.map_map, Store.attemptsAt]
  by_cases h : k = j
  · subst h
    simp [hx, ChangeSet.setStatus]
  · simp only [if_neg h]
    rfl

theorem attemptsAt_insertSet (d : Draft) (createdAt : ℤ) : (s.insertSet E d createdAt).attemptsAt = s.attemptsAt := by
  funext j
  simp only [Store.attemptsAt, Store.insertSet]
  rcases Nat.lt_trichotomy j s.sets.length with h | rfl | h
  · rw [getElem?_append_left h]
  · simp
  · rw [getElem?_eq_none (by simp; omega), getElem?_eq_none h.le]

theorem attemptsAt_mergeSet (k : ℕ) (d : Draft) : (s.mergeSet E k d).attemptsAt = s.attemptsAt := by
  funext j
  rw [Store.attemptsAt, getElem?_mergeSet, Option.map_map, Store.attemptsAt]
  congr 2
  funext x
  simp only [Function.comp]
  split <;> rfl

theorem attemptsAt_releaseQuarantine (tenant room : ℕ) (plan : Option ℕ) (provider : Option Provider) :
    (s.releaseQuarantine tenant room plan provider).attemptsAt = s.attemptsAt := by
  funext j
  rw [Store.attemptsAt, Store.releaseQuarantine, getElem?_map, Option.map_map, Store.attemptsAt]
  congr 2
  funext x
  simp only [Function.comp]
  split <;> rfl

theorem attemptsAt_env {e : Env} (h : (calls E).env s e = some s') : s'.attemptsAt = s.attemptsAt := by
  cases e with
  | tick d =>
    cases h
    rfl
  | releaseQuarantine tenant room plan provider =>
    cases h
    exact attemptsAt_releaseQuarantine tenant room plan provider

/-! ### What a step counts -/

theorem marked_nextSet (xs : List Snapshot) : (nextSet xs).marked = [] := by
  cases xs <;> rfl

theorem marked_check (x : Snapshot) (rest : List Snapshot) :
    (checkOutboundIdempotency E s x rest).marked = [] := by
  simp only [checkOutboundIdempotency]
  (repeat' split) <;> rfl

theorem marked_begin (c : Call) : (Thread.begin c).marked = [] := by
  cases c <;> rfl

/-- The step goes on to send an attempt that it has counted. -/
structure Marks (s s' : Store) (pc' : Pc) (x : Snapshot) : Prop where
  store : s' = s.updateStatus x.id .pushed true
  marked : pc'.marked = [⟨x.id, x.set.attempts⟩]
  row : ∃ r, s.sets[x.id]? = some r ∧ r.attempts = x.set.attempts
  retried : x.set.attempts < maxRetryAttempts

theorem advance_attempts (hadv : advance E s t o = some (s', pc')) (hc : t.pc.countsOnce s o = true) :
    (s'.attemptsAt = s.attemptsAt ∧ pc'.marked = []) ∨ ∃ x, Marks s s' pc' x := by
  simp only [advance] at hadv
  cases hpc : t.pc <;> simp only [hpc] at hadv hc
  case find drafts => cases drafts <;> cases hadv <;> exact .inl ⟨rfl, rfl⟩
  case write found d createdAt drafts =>
    cases found with
    | none =>
      cases hadv
      exact .inl ⟨attemptsAt_insertSet d createdAt, rfl⟩
    | some k =>
      cases hadv
      exact .inl ⟨attemptsAt_mergeSet k d, rfl⟩
  case read tenant provider limit =>
    cases hadv
    exact .inl ⟨rfl, marked_nextSet _⟩
  case gate x rest =>
    split at hadv <;> cases hadv
    · exact .inl ⟨rfl, rfl⟩
    · exact .inl ⟨attemptsAt_updateStatus _ _, marked_nextSet rest⟩
  case check x rest =>
    cases hadv
    exact .inl ⟨rfl, marked_check x rest⟩
  case conflict x since rest =>
    cases hadv
    refine .inl ⟨rfl, ?_⟩
    split <;> rfl
  case skip x rest =>
    cases hadv
    exact .inl ⟨attemptsAt_updateStatus _ _, marked_nextSet rest⟩
  case mark x rest =>
    split at hadv
    · cases hadv
      exact .inl ⟨rfl, marked_nextSet rest⟩
    · rename_i hallowed
      split at hadv
      · cases hadv
        exact .inl ⟨attemptsAt_updateStatus _ _, marked_nextSet rest⟩
      · rename_i hcompiled
        cases hadv
        simp only [Pc.countsOnce, hallowed, hcompiled, Bool.or_false, Bool.false_or, Bool.and_eq_true,
          Option.any_eq_true, decide_eq_true_eq, shouldRetry] at hc
        exact .inr ⟨x, rfl, rfl, hc.1, hc.2⟩
  case deliver x rest =>
    rw [if_neg (by simpa [Pc.countsOnce] using hc)] at hadv
    split at hadv <;> cases hadv
    exact .inl ⟨rfl, rfl⟩
  case answer x r rest =>
    cases hadv
    have hcount : (processAck x.set r).2 = false := by simpa [Pc.countsOnce] using hc
    rw [hcount]
    exact .inl ⟨attemptsAt_updateStatus _ _, marked_nextSet rest⟩
  case returned => cases hadv

theorem sends_eq_marked (ht : p.threads[k]? = some t) (hc : t.pc.countsOnce p.store o = true) :
    sends p (.step k (.advance o)) = t.marked := by
  simp only [sends, ht]
  split
  · rfl
  · rename_i hadapter
    rw [Thread.marked]
    cases hpc : t.pc <;> try rfl
    rw [hpc] at hc
    exact absurd hc hadapter

/-! ### Runs -/

/-- The attempts that are sent or about to be, each once, and counted. -/
structure Counted (s : Store) (l : List Attempt) : Prop where
  count : ∀ k, s.attemptsAt k = sendsOf k l
  number : ∀ a ∈ l, a.number < s.attemptsAt a.set
  nodup : l.Nodup
  most : ∀ k, s.attemptsAt k ≤ maxRetryAttempts

namespace Counted

variable {l l' : List Attempt}

theorem of_perm (h : Counted s l) (hl : l'.Perm l) : Counted s l' where
  count k := (h.count k).trans (hl.countP_eq _).symm
  number a ha := h.number a (hl.mem_iff.mp ha)
  nodup := hl.nodup_iff.mpr h.nodup
  most := h.most

theorem of_attemptsAt (h : Counted s l) (hs : s'.attemptsAt = s.attemptsAt) : Counted s' l where
  count k := by rw [hs, h.count]
  number a ha := by
    rw [hs]
    exact h.number a ha
  nodup := h.nodup
  most k := by
    rw [hs]
    exact h.most k

theorem marks {x : Snapshot} (h : Counted s l) (hm : Marks s s' pc' x) :
    Counted s' (⟨x.id, x.set.attempts⟩ :: l) := by
  obtain ⟨r, hr, hread⟩ := hm.row
  have hat : s.attemptsAt x.id = x.set.attempts := by rw [attemptsAt_eq hr, hread]
  have hinc : ∀ j, s'.attemptsAt j = if x.id = j then s.attemptsAt j + 1 else s.attemptsAt j := by
    rw [hm.store]
    exact attemptsAt_inc hr
  refine ⟨fun k => ?_, fun a ha => ?_, nodup_cons.mpr ⟨fun hmem => ?_, h.nodup⟩, fun k => ?_⟩
  · rw [hinc, h.count, sendsOf, sendsOf, countP_cons]
    by_cases hk : x.id = k <;> simp [hk]
  · rw [hinc]
    rcases mem_cons.mp ha with rfl | ha
    · rw [if_pos rfl, hat]
      exact Nat.lt_succ_self _
    · have hlt := h.number a ha
      split <;> omega
  · have hlt : x.set.attempts < s.attemptsAt x.id := h.number _ hmem
    omega
  · rw [hinc]
    have hmost := h.most k
    split
    · rename_i hk
      have hlt := hm.retried
      rw [← hk, hat]
      omega
    · exact hmost

theorem next {p' : Pool Store Thread} {a : Act Env Call Move} {log : List Attempt}
    (h : Counted p.store (Pool.held Thread.marked p.threads ++ log)) (hc : CountsOnce p a = true)
    (hs : (calls E).machine.step p a = some p') :
    Counted p'.store (Pool.held Thread.marked p'.threads ++ (sends p a ++ log)) := by
  cases a with
  | env e =>
    obtain ⟨hstore, hthreads⟩ := Program.next_env hs
    rw [hthreads]
    exact h.of_attemptsAt (attemptsAt_env hstore)
  | call c =>
    obtain ⟨t, ht, hstore, hthreads⟩ := Program.next_call hs
    cases ht
    rw [hstore, hthreads, Pool.held_append_one, marked_begin, append_nil]
    exact h
  | step k m =>
    obtain ⟨t, t', ht, hstep, hthreads⟩ := Program.next_step hs
    obtain ⟨others, hheld, hset⟩ := Pool.held_set_perm (f := Thread.marked) ht
    rw [hthreads]
    cases m with
    | stop =>
      obtain ⟨hstore, rfl⟩ := Prod.mk.inj (Option.some.inj hstep)
      have hnone : t.marked = [] := by simpa [CountsOnce, ht] using hc
      rw [hnone] at hheld
      rw [← hstore]
      exact h.of_perm (((hset { t with pc := .returned }).trans hheld.symm).append_right log)
    | advance o =>
      obtain ⟨⟨s₁, pc'⟩, hadv, heq⟩ := Option.map_eq_some_iff.mp hstep
      obtain ⟨rfl, rfl⟩ := Prod.mk.inj heq
      have hcount : t.pc.countsOnce p.store o = true := by simpa [CountsOnce, ht] using hc
      -- what the thread has marked goes from the pool to the log
      have hperm : (Pool.held Thread.marked (p.threads.set k { t with pc := pc' }) ++
          (sends p (.step k (.advance o)) ++ log)).Perm
          (pc'.marked ++ (Pool.held Thread.marked p.threads ++ log)) := by
        have hpool : (Pool.held Thread.marked (p.threads.set k { t with pc := pc' }) ++ t.marked).Perm
            (pc'.marked ++ Pool.held Thread.marked p.threads) := by
          refine ((hset { t with pc := pc' }).append_right t.marked).trans ?_
          rw [append_assoc]
          exact (perm_append_comm.trans hheld.symm).append_left pc'.marked
        rw [sends_eq_marked ht hcount, ← append_assoc, ← append_assoc]
        exact hpool.append_right log
      rcases advance_attempts hadv hcount with ⟨hsame, hnone⟩ | ⟨x, hm⟩
      · rw [hnone] at hperm
        exact (h.of_attemptsAt hsame).of_perm hperm
      · rw [hm.marked] at hperm
        exact (h.marks hm).of_perm hperm

end Counted

/-- In a run that counts each attempt once, no attempt of a set is sent twice, a set is sent at
most as often as the policy allows, and when no call is about to send it, its attempts are its
sends. -/
theorem attempts_eq_sends {p : Pool Store Thread} {log : List Attempt}
    (h : (calls E).machine.ReachLogged sends (fun p a => CountsOnce p a = true) (p, log)) :
    log.Nodup ∧ (∀ k, sendsOf k log ≤ maxRetryAttempts) ∧
      ∀ (k : ℕ) x, p.store.sets[k]? = some x → (∀ t ∈ p.threads, ∀ a ∈ t.marked, a.set ≠ k) →
        x.attempts = sendsOf k log := by
  have hi : Counted p.store (Pool.held Thread.marked p.threads ++ log) := by
    refine h.invariant
      (fun p log => Counted p.store (Pool.held Thread.marked p.threads ++ log))
      (fun p h₀ => ?_) fun p log a p' _ hi hc hs => hi.next hc hs
    obtain ⟨⟨hsets, -, -⟩, hthreads⟩ := h₀
    rw [hthreads]
    refine ⟨fun k => ?_, fun a ha => absurd ha not_mem_nil, nodup_nil, fun k => ?_⟩ <;>
      simp [Store.attemptsAt, hsets, sendsOf]
  have hsplit : ∀ k, p.store.attemptsAt k =
      sendsOf k (Pool.held Thread.marked p.threads) + sendsOf k log := by
    intro k
    rw [hi.count, sendsOf, countP_append]
    rfl
  refine ⟨hi.nodup.of_append_right, fun k => ?_, fun k x hx hnone => ?_⟩
  · have hmost := hi.most k
    rw [hsplit] at hmost
    omega
  · have hzero : sendsOf k (Pool.held Thread.marked p.threads) = 0 := by
      refine countP_eq_zero.mpr fun a ha => ?_
      obtain ⟨t, ht, ha⟩ := Pool.mem_held.mp ha
      simpa using hnone t ht a ha
    rw [← attemptsAt_eq hx, hsplit, hzero, Nat.zero_add]

/-! ### Cycles of the push loop -/

def attemptsSent (w : Pool Store Thread × List Attempt) : List ℕ × List Attempt × Bool :=
  (w.1.store.sets.map ChangeSet.attempts, w.2, w.1.threads.all fun t => t.pc = .returned)

theorem sends_init : ((calls E).machine.logged sends).init (⟨{}, []⟩, []) := ⟨calls_init, rfl⟩

/-- One push that is confirmed. -/
theorem attempts_eq_sends_confirmed : ∃ p log,
    (calls sampleExtranet).machine.ReachLogged sends (fun p a => CountsOnce p a = true) (p, log) ∧
      attemptsSent (p, log) = ([1], [⟨0, 0⟩], true) ∧ log.Nodup ∧ sendsOf 0 log ≤ maxRetryAttempts ∧
      ∀ x, p.store.sets[0]? = some x → x.attempts = sendsOf 0 log := by
  obtain ⟨⟨p, log⟩, hp, hv⟩ := Machine.exists_reach_of_runUnder
    (M := (calls sampleExtranet).machine.logged sends) (C := fun w a => CountsOnce w.1 a = true)
    (f := attemptsSent) (v := ([1], [⟨0, 0⟩], true))
    (List.flatten [publishing 0 5 .hotelrunner, [pushing], steps 1 6]) sends_init (by decide +kernel)
  obtain ⟨hnodup, hmost, hcount⟩ := attempts_eq_sends hp
  refine ⟨p, log, hp, hv, hnodup, hmost 0, fun x hx => hcount 0 x hx fun t ht a ha => ?_⟩
  have hall : (p.threads.all fun t => t.pc = .returned) = true := congrArg (fun v => v.2.2) hv
  have hret : t.pc = .returned := by simpa using all_eq_true.mp hall t ht
  rw [Thread.marked, hret] at ha
  cases ha

def tooMany : Chance where
  result := { success := false, statusCode := 429 }

/-- A cycle to which the provider answers that there are too many requests. -/
def limited (k : ℕ) : List (Act Env Call Move) :=
  List.flatten [[pushing], steps k 4, [.step k (.advance tooMany)], steps k 1]

/-- Six such cycles send the set six times and count twelve attempts; two cycles side by side
send the same attempt. -/
theorem attempts_ne_sends_limited :
    (∃ p log, (calls sampleExtranet).machine.ReachLogged sends (fun _ _ => True) (p, log) ∧
      (∀ t ∈ p.threads, t.pc = .returned) ∧ maxRetryAttempts < sendsOf 0 log ∧
      ∃ x, p.store.sets[0]? = some x ∧ x.attempts ≠ sendsOf 0 log) ∧
    ∃ p log, (calls sampleExtranet).machine.ReachLogged sends (fun _ _ => True) (p, log) ∧
      log = [⟨0, 0⟩, ⟨0, 0⟩] := by
  constructor
  · obtain ⟨⟨p, log⟩, hp, hv⟩ := Machine.exists_reachable_of_run
      (M := (calls sampleExtranet).machine.logged sends) (f := attemptsSent)
      (v := ([12], [⟨0, 10⟩, ⟨0, 8⟩, ⟨0, 6⟩, ⟨0, 4⟩, ⟨0, 2⟩, ⟨0, 0⟩], true))
      (List.flatten [publishing 0 5 .hotelrunner, limited 1, limited 2, limited 3, limited 4, limited 5, limited 6])
      sends_init (by decide +kernel)
    obtain ⟨hsets, hrest⟩ := Prod.mk.inj hv
    obtain ⟨hlog, hall⟩ := Prod.mk.inj hrest
    refine ⟨p, log, hp, fun t ht => by simpa using all_eq_true.mp hall t ht, ?_, ?_⟩
    · rw [show log = _ from hlog]
      decide
    · have hrow : (p.store.sets.map ChangeSet.attempts)[0]? = some 12 := by
        rw [hsets]
        rfl
      rw [getElem?_map] at hrow
      obtain ⟨x, hx, hx'⟩ := Option.map_eq_some_iff.mp hrow
      refine ⟨x, hx, ?_⟩
      rw [hx', show log = _ from hlog]
      decide
  · obtain ⟨⟨p, log⟩, hp, hv⟩ := Machine.exists_reachable_of_run
      (M := (calls sampleExtranet).machine.logged sends) (f := fun w => w.2) (v := [⟨0, 0⟩, ⟨0, 0⟩])
      (List.flatten [publishing 0 5 .hotelrunner, [pushing, pushing], steps 1 3, steps 2 3, steps 1 3, steps 2 3])
      sends_init (by decide +kernel)
    exact ⟨p, log, hp, hv⟩

end SyrocePms.Ari
