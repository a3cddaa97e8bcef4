import SyrocePms.Audit.WholeChain
import SyrocePms.Lib.Threads

/-! `append_audit_log` one operation at a time: a read of the chain state, the
compare-and-set, and the insert of the row, of any number of calls side by side. The state
that the calls leave is the one of appends that are made one after the other, in the order in
which the numbers were drawn. -/

namespace SyrocePms.Audit.Appends

open Lib List

variable {C R H T : Type*}
variable {r : Record C R H}

/-- `drawn` has what the drawn numbers were drawn for; nothing branches on it. -/
structure Store (C R H : Type*) extends Trail C R H where
  drawn : List (C × R) := []

/-- What a call is about: a read with the tries that are left, the upsert of the genesis, the
compare-and-set against the state that was read, the insert of the row with or without a
link, or the link and the insert of a transaction, which take effect together. -/
inductive Pc (C R H : Type*) where
  | read (tries : ℕ)
  | genesis (tries : ℕ)
  | cas (tries : ℕ) (state : ChainState H)
  | insert (record : Record C R H)
  | insertPlain
  | transaction
  | returned
  deriving DecidableEq

/-- `required` is `require_chain`. -/
structure Thread (C R H : Type*) where
  content : C
  rest : R
  required : Bool
  pc : Pc C R H

structure Call (C R : Type*) where
  content : C
  rest : R
  required : Bool := false
  session : Bool := false

/-- The tries of `_link_chain`. -/
def maxTries : ℕ := 8

def begin (c : Call C R) : Thread C R H :=
  ⟨c.content, c.rest, c.required, if c.session then .transaction else .read maxTries⟩

namespace Store

def draw (s : Store C R H) (r : Record C R H) : Store C R H :=
  { s with state := some ⟨r.seq.getD 0, r.hash⟩, drawn := s.drawn ++ [(r.content, r.rest)] }

def insert (s : Store C R H) (r : Record C R H) : Store C R H :=
  { s with hot := { s.hot with chained := s.hot.chained ++ [r] } }

def insertPlain (s : Store C R H) (c : C) : Store C R H :=
  { s with hot := { s.hot with plain := s.hot.plain ++ [c] } }

end Store

namespace Thread

def goto (t : Thread C R H) (pc : Pc C R H) : Thread C R H := { t with pc := pc }

/-- After a link that raised the row goes unchained, unless the chain is required. -/
def unlinked (t : Thread C R H) : Thread C R H := t.goto (if t.required then .returned else .insertPlain)

def raised (t : Thread C R H) : Thread C R H :=
  match t.pc with
  | .read _ | .genesis _ | .cas .. => t.unlinked
  | _ => t.goto .returned

end Thread

/-- One operation of `append_audit_log`. -/
def advance (S : Scheme C H T) (s : Store C R H) (t : Thread C R H) :
    Option (Store C R H × Thread C R H) :=
  match t.pc with
  | .read 0 => some (s, t.unlinked)
  | .read (n + 1) =>
    some (s, t.goto (match s.state with
      | none => .genesis n
      | some st => .cas n st))
  | .genesis _ =>
    match s.state with
    | none =>
      let r := linkChain S none t.content t.rest
      some (s.draw r, t.goto (.insert r))
    -- the filter misses, the upsert inserts, and the duplicate key raises
    | some _ => some (s, t.unlinked)
  | .cas n st =>
    if s.state.map ChainState.seq = some st.seq then
      let r := linkChain S (some st) t.content t.rest
      some (s.draw r, t.goto (.insert r))
    else some (s, t.goto (.read n))
  | .insert r => some (s.insert r, t.goto .returned)
  | .insertPlain => some (s.insertPlain t.content, t.goto .returned)
  | .transaction =>
    let r := linkChain S s.state t.content t.rest
    some ((s.draw r).insert r, t.goto .returned)
  | .returned => none

/-- A call goes on, or its operation raises, with what it has written or without. -/
inductive Move where
  | advance
  | raise (written : Bool)

def step (S : Scheme C H T) (s : Store C R H) (t : Thread C R H) :
    Move → Option (Store C R H × Thread C R H)
  | .advance => advance S s t
  | .raise written => (advance S s t).map fun r => (if written then r.1 else s, t.raised)

/-- The calls on a trail that has no chain yet, but may have rows of an earlier time. -/
def appends (S : Scheme C H T) : Program (Store C R H) (Thread C R H) Empty (Call C R) Move where
  init s := s.state = none ∧ s.hot.chained = [] ∧ s.archive.chained = [] ∧ s.drawn = []
  env _ e := nomatch e
  call _ c := some (begin c)
  step _ s t m := step S s t m

/-- An operation that raises has drawn no number, and has not kept the row of a drawn number
out. -/
def Kept (t : Thread C R H) : Move → Prop
  | .advance => True
  | .raise written =>
    match t.pc with
    | .genesis _ | .cas .. => written = false
    | .insert _ => written = true
    | _ => True

def RowsFollow (p : Pool (Store C R H) (Thread C R H)) : Act Empty (Call C R) Move → Prop
  | .step k m => ∀ t ∈ p.threads[k]?, Kept t m
  | _ => True

/-! ### The invariant -/

variable {S : Scheme C H T} {s s' : Store C R H} {t t' : Thread C R H} {m : Move}

/-- Chain state and rows come from the appends that the numbers were drawn for. -/
structure Sound (S : Scheme C H T) (s : Store C R H) : Prop where
  state : s.state = (trailOf S s.drawn).state
  mem : ∀ r ∈ s.hot.chained, r ∈ logOf S s.drawn
  distinct : (s.hot.chained.map Record.seq).Nodup
  archive : s.archive.chained = []

/-- A state that was read is one of the states that were, and a row that is about to be
inserted has a number of its own. -/
def Ok (S : Scheme C H T) (s : Store C R H) (t : Thread C R H) : Prop :=
  (∀ n st, t.pc = .cas n st → ∃ k ≤ s.drawn.length, (trailOf S (s.drawn.take k)).state = some st) ∧
    ∀ r, t.pc = .insert r → r ∈ logOf S s.drawn ∧ ∀ x ∈ s.hot.chained, x.seq ≠ r.seq

def Apart (t u : Thread C R H) : Prop :=
  ∀ r x, t.pc = .insert r → u.pc = .insert x → r.seq ≠ x.seq

def Store.next (S : Scheme C H T) (s : Store C R H) (t : Thread C R H) : Record C R H :=
  linkChain S s.state t.content t.rest

/-- Neither a state that was read nor a drawn number is left to be used. -/
def Pc.Free (pc : Pc C R H) : Prop := (∀ n st, pc ≠ .cas n st) ∧ ∀ r, pc ≠ .insert r

/-- The operation writes the chain state. -/
def Pc.Links (pc : Pc C R H) : Prop := (∃ n, pc = .genesis n) ∨ ∃ n st, pc = .cas n st

/-- What an operation does: nothing but a read, the draw of the next number, an insert, or
the draw and the insert. `kept` is the condition on the move. -/
inductive Effect (S : Scheme C H T) (s : Store C R H) (t : Thread C R H) (kept : Prop) :
    Store C R H → Thread C R H → Prop
  | same {u : Thread C R H} (hpc : u.pc.Free ∨ ∃ n st, u.pc = .cas n st ∧ s.state = some st)
      (ht : kept → ∀ r, t.pc ≠ .insert r) : Effect S s t kept s u
  | draw {u : Thread C R H} (ht : t.pc.Links)
      (hpc : u.pc = .insert (s.next S t) ∨ (u.pc.Free ∧ ¬ kept)) :
      Effect S s t kept (s.draw (s.next S t)) u
  | insert {u : Thread C R H} {r : Record C R H} (ht : t.pc = .insert r) (hpc : u.pc.Free) :
      Effect S s t kept (s.insert r) u
  | plain {u : Thread C R H} (ht : t.pc = .insertPlain) (hpc : u.pc.Free) :
      Effect S s t kept (s.insertPlain t.content) u
  | both {u : Thread C R H} (ht : t.pc = .transaction) (hpc : u.pc.Free) :
      Effect S s t kept ((s.draw (s.next S t)).insert (s.next S t)) u

theorem free_unlinked (t : Thread C R H) : t.unlinked.pc.Free := by
  unfold Thread.unlinked Thread.goto Pc.Free
  split <;> simp

theorem free_returned : (Pc.returned : Pc C R H).Free := by simp [Pc.Free]

theorem eq_state_of_seq (hs : Sound S s) {n : ℕ} {st : ChainState H} (ht : Ok S s t)
    (hpc : t.pc = .cas n st) (hseq : s.state.map ChainState.seq = some st.seq) :
    s.state = some st := by
  obtain ⟨k, hk, hst⟩ := ht.1 n st hpc
  rw [hs.state] at hseq ⊢
  have hread := sequenceBound_trailOf (S := S) (s.drawn.take k)
  obtain ⟨hnil, hnone⟩ | ⟨-, h, hsome⟩ := state_of_entries (S := S) (s.drawn.take k)
  · rw [hnone] at hst
    cases hst
  · obtain ⟨hnil', hnone'⟩ | ⟨-, h', hsome'⟩ := state_of_entries (S := S) s.drawn
    · rw [hnone'] at hseq
      cases hseq
    · rw [hsome, Option.some.injEq] at hst
      rw [hsome', ← hst] at hseq
      have hlen : (s.drawn.length : ℤ) = (s.drawn.take k).length := by simpa using hseq
      rw [length_take] at hlen
      rw [← hst, ← hsome, take_of_length_le (by omega)]

theorem free_raised (t : Thread C R H) : t.raised.pc.Free := by
  unfold Thread.raised
  split
  · exact free_unlinked t
  · exact free_unlinked t
  · exact free_unlinked t
  · exact free_returned

theorem advance_effect (hs : Sound S s) (ht : Ok S s t) (h : advance S s t = some (s', t')) :
    Effect S s t True s' t' := by
  unfold advance at h
  split at h
  case h_1 hpc =>
    cases h
    exact .same (.inl (free_unlinked t)) fun _ r hr => by rw [hpc] at hr; cases hr
  case h_2 n hpc =>
    cases h
    refine .same ?_ fun _ r hr => by rw [hpc] at hr; cases hr
    cases hst : s.state with
    | none => exact .inl (by simp [Thread.goto, Pc.Free])
    | some st => exact .inr ⟨n, st, rfl, rfl⟩
  case h_3 n hpc =>
    split at h
    · rename_i hst
      cases h
      have hnext : s.next S t = linkChain S none t.content t.rest := by rw [Store.next, hst]
      rw [← hnext]
      exact .draw (.inl ⟨n, hpc⟩) (.inl rfl)
    · cases h
      exact .same (.inl (free_unlinked t)) fun _ r hr => by rw [hpc] at hr; cases hr
  case h_4 n st hpc =>
    split at h
    · rename_i hseq
      cases h
      have hnext : s.next S t = linkChain S (some st) t.content t.rest := by
        rw [Store.next, eq_state_of_seq hs ht hpc hseq]
      rw [← hnext]
      exact .draw (.inr ⟨n, st, hpc⟩) (.inl rfl)
    · cases h
      exact .same (.inl (by simp [Thread.goto, Pc.Free])) fun _ r hr => by rw [hpc] at hr; cases hr
  case h_5 r hpc =>
    cases h
    exact .insert hpc free_returned
  case h_6 hpc =>
    cases h
    exact .plain hpc free_returned
  case h_7 hpc =>
    cases h
    exact .both hpc free_returned
  case h_8 => cases h

/-- An operation has one of the effects. One that raises leaves nothing to be used. -/
theorem step_effect (hs : Sound S s) (ht : Ok S s t) (h : step S s t m = some (s', t')) :
    Effect S s t (Kept t m) s' t' := by
  cases m with
  | advance => exact advance_effect hs ht h
  | raise written =>
    obtain ⟨⟨s₁, t₁⟩, hadv, heq⟩ := Option.map_eq_some_iff.mp h
    cases heq
    have hfree := free_raised t
    cases written with
    | false =>
      refine .same (.inl hfree) fun hk r hr => ?_
      simp [Kept, hr] at hk
    | true =>
      cases advance_effect hs ht hadv with
      | same _ hno => exact .same (.inl hfree) fun _ => hno trivial
      | draw hlinks _ =>
        refine .draw hlinks (.inr ⟨hfree, fun hk => ?_⟩)
        obtain ⟨n, hpc⟩ | ⟨n, st, hpc⟩ := hlinks <;> simp [Kept, hpc] at hk
      | insert hpc _ => exact .insert hpc hfree
      | plain hpc _ => exact .plain hpc hfree
      | both hpc _ => exact .both hpc hfree

/-! ### What the effects keep -/

@[simp] theorem drawn_insert (s : Store C R H) (r : Record C R H) : (s.insert r).drawn = s.drawn := rfl

@[simp] theorem drawn_draw (s : Store C R H) (r : Record C R H) :
    (s.draw r).drawn = s.drawn ++ [(r.content, r.rest)] := rfl

theorem logOf_draw (hs : Sound S s) (t : Thread C R H) :
    logOf S (s.draw (s.next S t)).drawn = logOf S s.drawn ++ [s.next S t] := by
  have hcontent : (s.next S t).content = t.content := by
    unfold Store.next linkChain
    split <;> rfl
  have hrest : (s.next S t).rest = t.rest := by
    unfold Store.next linkChain
    split <;> rfl
  rw [drawn_draw, hcontent, hrest, logOf_append_one, Store.next, hs.state]

theorem seq_next (hs : Sound S s) (t : Thread C R H) (hr : r ∈ logOf S s.drawn) :
    r.seq ≠ (s.next S t).seq := by
  obtain ⟨n, hn, -, hle⟩ := seq_le_of_mem hr
  rw [Store.next, hs.state, linkChain_seq s.drawn (t.content, t.rest), hn]
  intro heq
  have hval : n = s.drawn.length + 1 := Option.some.inj heq
  omega

theorem Sound.draw (hs : Sound S s) (t : Thread C R H) : Sound S (s.draw (s.next S t)) where
  state := by
    have hlast := getLast?_logOf (S := S) (s.draw (s.next S t)).drawn
    rw [logOf_draw hs, getLast?_concat] at hlast
    exact hlast
  mem r hr := by
    rw [logOf_draw hs]
    exact mem_append_left _ (hs.mem r hr)
  distinct := hs.distinct
  archive := hs.archive

theorem Sound.insert (hs : Sound S s) (hr : r ∈ logOf S s.drawn)
    (hnew : ∀ x ∈ s.hot.chained, x.seq ≠ r.seq) : Sound S (s.insert r) where
  state := hs.state
  mem x hx := by
    obtain hx | hx := mem_append.mp hx
    · exact hs.mem x hx
    · rw [mem_singleton.mp hx]
      exact hr
  distinct := by
    have hmap : (s.insert r).hot.chained.map Record.seq = s.hot.chained.map Record.seq ++ [r.seq] := by
      simp [Store.insert]
    rw [hmap, nodup_append]
    refine ⟨hs.distinct, nodup_singleton _, fun n hn n' hn' => ?_⟩
    obtain ⟨x, hx, rfl⟩ := mem_map.mp hn
    rw [mem_singleton.mp hn']
    exact hnew x hx
  archive := hs.archive

theorem Sound.insertPlain (hs : Sound S s) (c : C) : Sound S (s.insertPlain c) :=
  ⟨hs.state, hs.mem, hs.distinct, hs.archive⟩

theorem Ok.of_free (h : t.pc.Free) : Ok S s t :=
  ⟨fun n st hpc => absurd hpc (h.1 n st), fun r hpc => absurd hpc (h.2 r)⟩

variable {u : Thread C R H}

theorem Apart.of_free (h : t.pc.Free) : Apart t u :=
  fun r _ hr _ => absurd hr (h.2 r)

theorem Ok.draw (hs : Sound S s) (t : Thread C R H) (h : Ok S s u) :
    Ok S (s.draw (s.next S t)) u := by
  refine ⟨fun n st hpc => ?_, fun r hr => ?_⟩
  · obtain ⟨k, hk, hst⟩ := h.1 n st hpc
    refine ⟨k, by simp; omega, ?_⟩
    rwa [drawn_draw, take_append_of_le_length hk]
  · obtain ⟨hmem, hnew⟩ := h.2 r hr
    rw [logOf_draw hs]
    exact ⟨mem_append_left _ hmem, hnew⟩

theorem Ok.insert (h : Ok S s u) (hne : ∀ x, u.pc = .insert x → r.seq ≠ x.seq) :
    Ok S (s.insert r) u := by
  refine ⟨h.1, fun x hx => ⟨(h.2 x hx).1, fun y hy => ?_⟩⟩
  obtain hy | hy := mem_append.mp hy
  · exact (h.2 x hx).2 y hy
  · rw [mem_singleton.mp hy]
    exact hne x hx

/-- One operation keeps the invariant of the store, of its call and of the others. -/
theorem step_keeps (hs : Sound S s) (ht : Ok S s t) (h : step S s t m = some (s', t')) :
    Sound S s' ∧ Ok S s' t' ∧ ∀ u, Ok S s u → Apart t u → Ok S s' u ∧ Apart t' u := by
  have hnext := logOf_draw hs t
  have hfresh (hpc : t'.pc = .insert (s.next S t)) (u : Thread C R H) (hu : Ok S s u) :
      Ok S (s.draw (s.next S t)) u ∧ Apart t' u := by
    refine ⟨hu.draw hs t, fun r x hr hx => ?_⟩
    rw [hpc, Pc.insert.injEq] at hr
    rw [← hr]
    exact (seq_next hs t (hu.2 x hx).1).symm
  cases step_effect hs ht h with
  | same hpc _ =>
    obtain hfree | ⟨n, st, hpc, hst⟩ := hpc
    · exact ⟨hs, .of_free hfree, fun u hu _ => ⟨hu, .of_free hfree⟩⟩
    · refine ⟨hs, ⟨fun n' st' hpc' => ?_, fun r hr => ?_⟩, fun u hu _ => ⟨hu, fun r x hr => ?_⟩⟩
      · rw [hpc, Pc.cas.injEq] at hpc'
        refine ⟨s.drawn.length, Nat.le_refl _, ?_⟩
        rw [take_length, ← hs.state, hst, hpc'.2]
      · rw [hpc] at hr
        cases hr
      · rw [hpc] at hr
        cases hr
  | draw _ hpc =>
    obtain hpc | ⟨hfree, -⟩ := hpc
    · have hok : Ok S (s.draw (s.next S t)) t' := by
        refine ⟨fun n st hn => ?_, fun r hr => ?_⟩
        · rw [hpc] at hn
          cases hn
        · rw [hpc, Pc.insert.injEq] at hr
          rw [← hr, hnext]
          exact ⟨mem_append_right _ mem_cons_self,
            fun x hx => seq_next hs t (hs.mem x hx)⟩
      exact ⟨hs.draw t, hok, fun u hu _ => hfresh hpc u hu⟩
    · exact ⟨hs.draw t, .of_free hfree, fun u hu _ => ⟨hu.draw hs t, .of_free hfree⟩⟩
  | insert hr hfree =>
    obtain ⟨hmem, hnew⟩ := ht.2 _ hr
    exact ⟨hs.insert hmem hnew, .of_free hfree,
      fun u hu hap => ⟨hu.insert fun x hx => hap _ x hr hx, .of_free hfree⟩⟩
  | plain _ hfree =>
    exact ⟨hs.insertPlain _, .of_free hfree, fun u hu _ => ⟨hu, .of_free hfree⟩⟩
  | both _ hfree =>
    have hdraw := hs.draw t
    have hmem : s.next S t ∈ logOf S (s.draw (s.next S t)).drawn := by
      rw [hnext]
      exact mem_append_right _ mem_cons_self
    refine ⟨hdraw.insert hmem fun x hx => seq_next hs t (hs.mem x hx), .of_free hfree,
      fun u hu _ => ⟨(hu.draw hs t).insert fun x hx => ?_, .of_free hfree⟩⟩
    exact (seq_next hs t (hu.2 x hx).1).symm

theorem Apart.symm (h : Apart t u) : Apart u t :=
  fun r x hr hx => (h x r hx hr).symm

theorem preserves (C' : Pool (Store C R H) (Thread C R H) → Act Empty (Call C R) Move → Prop) :
    Program.Preserves (appends S) C' (Sound S) (fun s _ t => Ok S s t) Apart where
  symm _ _ h := h.symm
  init s h₀ := by
    obtain ⟨hstate, hhot, harchive, hdrawn⟩ := h₀
    refine ⟨by rw [hstate, hdrawn]; rfl, ?_, ?_, harchive⟩
    · rw [hhot]
      exact fun r hr => by cases hr
    · rw [hhot]
      exact .nil
  env _ e := by cases e
  call p c t _ _ hc := by
    cases hc
    have hfree : (begin c : Thread C R H).pc.Free := by
      unfold begin
      split <;> simp [Pc.Free]
    exact ⟨.of_free hfree, fun u _ => .of_free hfree⟩
  step p k m t s' t' hi _ ht hs := by
    obtain ⟨hsound, hok, hoth⟩ := step_keeps hi.store (hi.thread k t ht) hs
    exact ⟨hsound, hok,
      fun j u hne hu => hoth u (hi.thread j u hu) (hi.apart k j t u (Ne.symm hne) ht hu)⟩

/-! ### The rows -/

/-- Every drawn number has its row, or the call that is about to insert it. -/
def Rowed (S : Scheme C H T) (p : Pool (Store C R H) (Thread C R H)) : Prop :=
  ∀ r ∈ logOf S p.store.drawn, r ∈ p.store.hot.chained ∨ ∃ u ∈ p.threads, u.pc = .insert r

variable {p : Pool (Store C R H) (Thread C R H)}

theorem rowed_next {p' : Pool (Store C R H) (Thread C R H)} {a : Act Empty (Call C R) Move}
    (hi : Program.Inv (Sound S) (fun s _ t => Ok S s t) Apart p) (hq : Rowed S p)
    (hc : RowsFollow p a) (hs : (appends S).machine.step p a = some p') : Rowed S p' := by
  cases a with
  | env e => cases e
  | call c =>
    obtain ⟨t, -, hstore, hthreads⟩ := Program.next_call hs
    intro r hr
    rw [hstore] at hr ⊢
    rw [hthreads]
    obtain hrow | ⟨u, hu, hpc⟩ := hq r hr
    · exact .inl hrow
    · exact .inr ⟨u, mem_append_left _ hu, hpc⟩
  | step k m =>
    obtain ⟨t, t', ht, hst, hthreads⟩ := Program.next_step hs
    have hkept := hc t ht
    have hok := hi.thread k t ht
    have hold (hother : ∀ r, t.pc ≠ .insert r) (r : Record C R H) (hr : r ∈ logOf S p.store.drawn) :
        r ∈ p.store.hot.chained ∨ ∃ u ∈ p'.threads, u.pc = .insert r := by
      obtain hrow | ⟨u, hu, hpc⟩ := hq r hr
      · exact .inl hrow
      · rw [hthreads]
        obtain rfl | hu' := Program.eq_or_mem_set ht hu t'
        · exact absurd hpc (hother r)
        · exact .inr ⟨u, hu', hpc⟩
    have hnext := logOf_draw hi.store t
    intro r hr
    generalize hs' : p'.store = s' at hst hr ⊢
    cases step_effect hi.store hok hst with
    | same _ hno => exact hold (hno hkept) r hr
    | draw hlinks hpc =>
      have hother (r : Record C R H) : t.pc ≠ .insert r := by
        obtain ⟨n, hpc⟩ | ⟨n, st, hpc⟩ := hlinks <;> simp [hpc]
      rw [hnext] at hr
      obtain hr | hr := mem_append.mp hr
      · exact hold hother r hr
      · rw [mem_singleton.mp hr, hthreads]
        exact .inr ⟨t', Program.self_mem_set ht t', hpc.resolve_right fun h => h.2 hkept⟩
    | @insert _ x hpc _ =>
      obtain hrow | ⟨u, hu, hupc⟩ := hq r hr
      · exact .inl (mem_append_left _ hrow)
      · obtain rfl | hu' := Program.eq_or_mem_set ht hu t'
        · rw [hpc, Pc.insert.injEq] at hupc
          rw [hupc]
          exact .inl (mem_append_right _ mem_cons_self)
        · rw [hthreads]
          exact .inr ⟨u, hu', hupc⟩
    | plain hpc _ => exact hold (by simp [hpc]) r hr
    | both hpc _ =>
      rw [drawn_insert, hnext] at hr
      obtain hr | hr := mem_append.mp hr
      · obtain hrow | hu := hold (by simp [hpc]) r hr
        · exact .inl (mem_append_left _ hrow)
        · exact .inr hu
      · rw [mem_singleton.mp hr]
        exact .inl (mem_append_right _ mem_cons_self)

/-- The rows do not fork: numbers are distinct, and each row is sealed after the row of the
number before, the first one after the empty text. -/
structure Linked (S : Scheme C H T) (rows : List (Record C R H)) : Prop where
  distinct : (rows.map Record.seq).Nodup
  sealed : ∀ r ∈ rows, ∃ n : ℤ, 1 ≤ n ∧ r.seq = some n ∧ r.hash = S.hash r.content n r.prev
  first : ∀ r ∈ rows, r.seq = some 1 → r.prev = S.empty
  next : ∀ r ∈ rows, ∀ x ∈ rows, ∀ n, r.seq = some n → x.seq = some (n + 1) → x.prev = r.hash

def Consecutive (rows : List (Record C R H)) : Prop :=
  ∀ n : ℤ, (∃ r ∈ rows, r.seq = some n) ↔ 1 ≤ n ∧ n ≤ rows.length

theorem Sound.linked (hs : Sound S s) : Linked S s.hot.chained where
  distinct := hs.distinct
  sealed r hr := by
    have hmem := hs.mem r hr
    obtain ⟨n, hn, hpos, -⟩ := seq_le_of_mem hmem
    refine ⟨n, hpos, hn, ?_⟩
    have hhash := hash_of_mem hmem
    rwa [hn] at hhash
  first r hr hone := by
    obtain ⟨-, hprev⟩ | ⟨x, hx, n, hn, hseq, -⟩ := prev_of_mem (hs.mem r hr)
    · exact hprev
    · obtain ⟨n', hn', hpos, -⟩ := seq_le_of_mem hx
      rw [hn, Option.some.injEq] at hn'
      rw [hone, Option.some.injEq] at hseq
      omega
  next r hr x hx n hn hseq := by
    obtain ⟨hone, -⟩ | ⟨y, hy, n', hn', hseq', hprev⟩ := prev_of_mem (hs.mem x hx)
    · obtain ⟨n', hn', hpos, -⟩ := seq_le_of_mem (hs.mem r hr)
      rw [hn, Option.some.injEq] at hn'
      rw [hone, Option.some.injEq] at hseq
      omega
    · rw [hseq, Option.some.injEq] at hseq'
      have hyr : y = r := eq_of_seq hy (hs.mem r hr) (by rw [hn', hn]; congr 1; omega)
      rw [hprev, hyr]

theorem perm_logOf (hs : Sound S p.store) (hq : Rowed S p)
    (hdone : ∀ t ∈ p.threads, t.pc = .returned) :
    p.store.hot.chained.Perm (logOf S p.store.drawn) := by
  refine (perm_ext_iff_of_nodup hs.distinct.of_map (nodup_seq_logOf _).of_map).mpr fun r => ?_
  refine ⟨hs.mem r, fun hr => ?_⟩
  obtain hrow | ⟨u, hu, hpc⟩ := hq r hr
  · exact hrow
  · rw [hdone u hu] at hpc
    cases hpc

theorem consecutive_of_perm {rows : List (Record C R H)} {entries : List (C × R)}
    (h : rows.Perm (logOf S entries)) : Consecutive rows := by
  intro n
  have hlen := h.length_eq
  rw [length_logOf] at hlen
  constructor
  · rintro ⟨r, hr, hn⟩
    obtain ⟨n', hn', hpos, hle⟩ := seq_le_of_mem (h.mem_iff.mp hr)
    rw [hn, Option.some.injEq] at hn'
    omega
  · rintro ⟨hpos, hle⟩
    have hmem : some n ∈ (logOf S entries).map Record.seq := by
      rw [map_seq_logOf]
      exact mem_map.mpr ⟨(n - 1).toNat, mem_range.mpr (by omega), by congr 1; omega⟩
    obtain ⟨r, hr, hn⟩ := mem_map.mp hmem
    exact ⟨r, h.mem_iff.mpr hr, hn⟩

variable [DecidableEq H] [LinearOrder T]

instance (t : Thread C R H) (m : Move) : Decidable (Kept t m) := by
  rcases t with ⟨c, r, q, pc⟩
  rcases m with _ | written <;> rcases pc <;> unfold Kept <;> infer_instance

instance (p : Pool (Store C R H) (Thread C R H)) (a : Act Empty (Call C R) Move) :
    Decidable (RowsFollow p a) :=
  match a with
  | .env _ => .isTrue trivial
  | .call _ => .isTrue trivial
  | .step k m => inferInstanceAs (Decidable (∀ t ∈ p.threads[k]?, Kept t m))

/-- An append whose compare-and-set loses to another one, and that links at its second try. -/
def retryRun : List (Act Empty (Call ℕ ℕ) Move) :=
  [.call ⟨5, 0, false, false⟩, .step 0 .advance, .step 0 .advance, .step 0 .advance,
    .call ⟨6, 0, false, false⟩, .call ⟨7, 0, false, false⟩, .step 1 .advance, .step 2 .advance,
    .step 2 .advance, .step 1 .advance, .step 1 .advance, .step 1 .advance, .step 1 .advance,
    .step 2 .advance]

/-- An append that loses all of its tries, each to another append. -/
def exhaustedRun : List (Act Empty (Call ℕ ℕ) Move) :=
  [.call ⟨5, 0, false, false⟩, .step 0 .advance, .step 0 .advance, .step 0 .advance,
    .call ⟨6, 0, false, false⟩] ++
  (List.range maxTries).flatMap (fun i => [.step 1 .advance, .call ⟨7, i, false, false⟩,
    .step (i + 2) .advance, .step (i + 2) .advance, .step (i + 2) .advance, .step 1 .advance]) ++
  [.step 1 .advance, .step 1 .advance]

end SyrocePms.Audit.Appends
