import SyrocePms.InvoiceGl.Calls

/-! What one step of a call keeps. Entries are only added and marks keep what they say, so what a
call has read stays true, and what it writes is known from the call. -/

namespace SyrocePms.InvoiceGl

open Lib OperationalGl

variable {texts : Texts} {s s' : Store} {t : Thread} {c : Call} {o r e : Entry} {x : Content} {lines : JournalLines}
  {chance : Chance} {k : ℕ} {pc pc' : Pc}
variable {j : Journal} {day : ℕ}

/-! ### The invariant -/

/-- The entry `r` reverses the journal `o` of the invoice of `c`. -/
structure Reverses (texts : Texts) (s : Store) (r o : Entry) (c : Call) : Prop where
  original : s.original c = some o
  key : r.key = some c.key
  reverses : r.reverses = some o.id
  lines : r.lines.lines = reversalLines texts c.direction o.memo o.lines.lines
  fingerprint : ∃ y, r.fingerprint = some y ∧ y.reverses = some o.id
  flat : c.direction = .incoming → isFlat o.lines.lines = true

/-- Entries that reverse another or have the key of a reversal are reversals, and marks name them. -/
structure Sound (texts : Texts) (s : Store) : Prop where
  reversal : ∀ r ∈ s.journal.entries, (r.reverses.isSome = true ∨ ∃ k ∈ r.key, k.isReversal = true) →
    ∃ o c, Reverses texts s r o c
  marked : ∀ id i, s.marks id = some i → ∃ r ∈ s.journal.entries, r.id = i ∧ r.reverses = some id

def HasReversal (s : Store) (c : Call) : Prop :=
  ∃ o r, s.original c = some o ∧ r ∈ s.journal.entries ∧ r.reverses = some o.id

/-- The call has answered the reversal, and the original is marked. -/
def Done (s : Store) (c : Call) (pc : Pc) : Prop :=
  ∃ o r, s.original c = some o ∧ r ∈ s.journal.entries ∧ r.reverses = some o.id ∧ pc = .returned (some r.id) ∧
    s.marks o.id = some r.id

def Carries (texts : Texts) (s : Store) (c : Call) : Pc → Prop
  | .start | .returned _ | .raised => True
  | .lookup o => s.original c = some o
  | .insert o x lines => s.original c = some o ∧ (∃ day, x = Store.content texts c o day) ∧ lines.lines = x.lines
  | .existing o x => s.original c = some o ∧ ∃ day, x = Store.content texts c o day
  | .mark o i => s.original c = some o ∧ c.direction = .outgoing ∧
    ∃ r ∈ s.journal.entries, r.id = i ∧ r.reverses = some o.id

def Pc.LateOk (s : Store) (c : Call) : Pc → Prop
  | .start | .lookup _ | .mark .. => True
  | .insert .. | .existing .. => False
  | pc => Done s c pc

structure Ok (texts : Texts) (s : Store) (t : Thread) : Prop where
  carries : Carries texts s t.call t.pc
  late : t.isLate = true → HasReversal s t.call ∧ t.call.direction = .outgoing ∧ t.pc.LateOk s t.call

/-- What every step keeps: entries, and marks. -/
structure Evolves (s s' : Store) : Prop where
  entries : ∀ e ∈ s.journal.entries, e ∈ s'.journal.entries
  marks : ∀ id i, s.marks id = some i → s'.marks id = some i

theorem Evolves.refl (s : Store) : Evolves s s := ⟨fun _ h => h, fun _ _ h => h⟩

namespace Evolves

variable (h : Evolves s s')

include h

theorem original (ho : s.original c = some o) : s'.original c = some o := by
  obtain ⟨hmem, hk, hs⟩ := Journal.original_eq_some.mp ho
  exact Journal.original_eq_some.mpr ⟨h.entries o hmem, hk, hs⟩

theorem reverses (hr : Reverses texts s r o c) : Reverses texts s' r o c :=
  { hr with original := h.original hr.original }

theorem hasReversal (hr : HasReversal s c) : HasReversal s' c := by
  obtain ⟨o, r, ho, hr, hrev⟩ := hr
  exact ⟨o, r, h.original ho, h.entries r hr, hrev⟩

theorem done (hd : Done s c pc) : Done s' c pc := by
  obtain ⟨o, r, ho, hr, hrev, hpc, hm⟩ := hd
  exact ⟨o, r, h.original ho, h.entries r hr, hrev, hpc, h.marks _ _ hm⟩

theorem carries (hc : Carries texts s c pc) : Carries texts s' c pc := by
  cases pc with
  | start | returned | raised => trivial
  | lookup o => exact h.original hc
  | insert o x lines => exact ⟨h.original hc.1, hc.2⟩
  | existing o x => exact ⟨h.original hc.1, hc.2⟩
  | mark o i =>
    obtain ⟨ho, hd, r, hr, hid⟩ := hc
    exact ⟨h.original ho, hd, r, h.entries r hr, hid⟩

theorem lateOk (hl : pc.LateOk s c) : pc.LateOk s' c := by
  cases pc with
  | start | lookup | mark => trivial
  | insert | existing => exact hl
  | returned | raised => exact h.done hl

theorem ok (ht : Ok texts s t) : Ok texts s' t where
  carries := h.carries ht.carries
  late hl :=
    have ⟨hr, hd, hpc⟩ := ht.late hl
    ⟨h.hasReversal hr, hd, h.lateOk hpc⟩

end Evolves

/-! ### What the writes keep -/

theorem evolves_insert (hj : s.journal.insert e = some j) : Evolves s { s with journal := j } :=
  ⟨fun _ he => (Journal.mem_insert hj).mpr (.inl he), fun _ _ hm => hm⟩

theorem Sound.insert (hs : Sound texts s) (hj : s.journal.insert e = some j)
    (he : (e.reverses.isSome = true ∨ ∃ k ∈ e.key, k.isReversal = true) → ∃ o c, Reverses texts s e o c) :
    Sound texts { s with journal := j } := by
  have hev := evolves_insert hj
  refine ⟨fun r hr hrev => ?_, fun id i hm => ?_⟩
  · obtain hr | rfl := (Journal.mem_insert hj).mp hr
    · obtain ⟨o, c, hr⟩ := hs.reversal r hr hrev
      exact ⟨o, c, hev.reverses hr⟩
    · obtain ⟨o, c, hr⟩ := he hrev
      exact ⟨o, c, hev.reverses hr⟩
  · obtain ⟨r, hr, hid⟩ := hs.marked id i hm
    exact ⟨r, hev.entries r hr, hid⟩

theorem evolves_mark (hs : Sound texts s) (hr : r ∈ s.journal.entries) (hrev : r.reverses = some o.id) :
    Evolves s (s.setMark o.id r.id) := by
  refine ⟨fun _ he => he, fun id i hm => ?_⟩
  rw [Store.setMark_marks]
  split
  · subst id
    obtain ⟨r', hr', rfl, hrev'⟩ := hs.marked _ _ hm
    rw [Journal.eq_of_reverses hr hr' hrev hrev']
  · exact hm

theorem Sound.mark (hs : Sound texts s) (hr : r ∈ s.journal.entries) (hrev : r.reverses = some o.id) :
    Sound texts (s.setMark o.id r.id) := by
  refine ⟨fun e he hrev => ?_, fun id i hm => ?_⟩
  · obtain ⟨o', c, he⟩ := hs.reversal e he hrev
    exact ⟨o', c, { he with }⟩
  · rw [Store.setMark_marks] at hm
    split at hm
    · subst id
      cases hm
      exact ⟨r, hr, rfl, hrev⟩
    · exact hs.marked id i hm

/-! ### Steps of a call -/

theorem reverses_of_found (hs : Sound texts s) (he : s.journal.stored c.key = some e)
    (hrep : e.repeats (Store.content texts c o day) = true) :
    e ∈ s.journal.entries ∧ e.reverses = some o.id := by
  obtain ⟨hmem, hk⟩ := Journal.mem_of_stored he
  have hkey : c.key.isReversal = true := by cases c <;> rfl
  obtain ⟨o', c', hr⟩ := hs.reversal e hmem (.inr ⟨_, hk, hkey⟩)
  obtain ⟨y, hy, hyo⟩ := hr.fingerprint
  have hcontent : y = Store.content texts c o day := by simpa [Entry.repeats, hy] using hrep
  rw [hcontent] at hyo
  exact ⟨hmem, hr.reverses.trans hyo.symm ▸ rfl⟩

/-- A step that writes nothing. -/
theorem Ok.same (ht : Ok texts s t) (hc : Carries texts s t.call pc)
    (hl : t.isLate = true → pc.LateOk s t.call) : Ok texts s { t with pc := pc } :=
  ⟨hc, fun h => ⟨(ht.late h).1, (ht.late h).2.1, hl h⟩⟩

theorem carries_afterPost (ho : s.original c = some o) (hr : r ∈ s.journal.entries) (hrev : r.reverses = some o.id) :
    Carries texts s c (Store.afterPost c o r.id) := by
  unfold Store.afterPost
  split
  · trivial
  · rename_i hd
    exact ⟨ho, hd, r, hr, rfl, hrev⟩

theorem carries_found (hs : Sound texts s) (ho : s.original c = some o)
    (he : s.journal.stored c.key = some e) :
    Carries texts s c (Store.found c o (Store.content texts c o day) e) := by
  unfold Store.found
  split
  · rename_i hrep
    obtain ⟨hmem, hrev⟩ := reverses_of_found hs he hrep
    exact carries_afterPost ho hmem hrev
  · trivial

theorem exists_stored_of_late (hs : Sound texts s) (hr : HasReversal s c) (hd : c.direction = .outgoing)
    (ho : s.original c = some o) :
    ∃ e, s.journal.stored c.key = some e ∧ e.lines.lines = reversalLines texts c.direction o.memo o.lines.lines := by
  obtain ⟨o', r, ho', hr, hrev⟩ := hr
  obtain rfl := Option.some.inj (ho.symm.trans ho')
  obtain ⟨o', c', hr'⟩ := hs.reversal r hr (.inl (by simp [hrev]))
  have hid : o.id = o'.id := Option.some.inj (hrev.symm.trans hr'.reverses)
  obtain ⟨ho, hk, -⟩ := Journal.original_eq_some.mp ho
  obtain ⟨ho', hk', -⟩ := Journal.original_eq_some.mp hr'.original
  obtain rfl := Collection.eq_of_key ho ho' hid
  have hcall : Key.invoice c.direction c.invoice = Key.invoice c'.direction c'.invoice :=
    Option.some.inj (hk.symm.trans hk')
  have hdirection : c'.direction = c.direction := (Key.invoice.inj hcall).1.symm
  have hkey : c.key = c'.key := by
    cases c <;> cases c' <;> simp_all [Call.direction, Call.invoice, Call.key]
  exact ⟨r, Journal.stored_of_mem hr (hkey ▸ hr'.key), hdirection ▸ hr'.lines⟩

def Store.inserts (s : Store) (c : Call) (x : Content) (lines : JournalLines) (chance : Chance) : Bool :=
  !chance.refused && (s.journal.insert (Store.entry c x lines chance.newId)).isSome

/-- A late call that finds a stored reversal has its content, and what is inserted for an incoming
invoice reverses a journal that moves no account in a foreign currency. -/
def Thread.isSound (texts : Texts) (s : Store) (t : Thread) (chance : Chance) : Bool :=
  match t.pc with
  | .lookup o =>
    !t.isLate || (s.journal.stored t.call.key).all fun e => e.repeats (Store.content texts t.call o chance.day)
  | .insert o x lines =>
    t.call.direction = .outgoing || isFlat o.lines.lines || !s.inserts t.call x lines chance
  | _ => true

/-- The step leaves the invariant and what has been written. -/
structure Keeps (texts : Texts) (s s' : Store) (t' : Thread) : Prop where
  sound : Sound texts s'
  evolves : Evolves s s'
  ok : Ok texts s' t'

theorem Keeps.same (hs : Sound texts s) (ht : Ok texts s t) (hc : Carries texts s t.call pc)
    (hl : t.isLate = true → pc.LateOk s t.call) : Keeps texts s s { t with pc := pc } :=
  ⟨hs, .refl s, ht.same hc hl⟩

theorem start_keeps (hs : Sound texts s) (ht : Ok texts s t) (hstep : s.step texts t.call chance .start = some (s', pc')) :
    Keeps texts s s' { t with pc := pc' } := by
  cases hstep
  cases ho : s.original t.call with
  | none =>
    refine .same hs ht trivial fun hl => ?_
    obtain ⟨o, r, ho', -⟩ := (ht.late hl).1
    cases ho.symm.trans ho'
  | some o =>
    simp only
    cases hm : s.marked t.call o with
    | some id =>
      refine .same hs ht trivial fun hl => ?_
      obtain ⟨-, hd, -⟩ := ht.late hl
      have hmark : s.marks o.id = some id := by simpa [Store.marked, hd] using hm
      obtain ⟨r, hr, rfl, hrev⟩ := hs.marked _ _ hmark
      have hget : s.journal.entries.get? r.id = some r := Collection.get?_eq_some.mpr ⟨hr, rfl⟩
      exact ⟨o, r, ho, hr, hrev, congrArg (fun e => Pc.returned (e.map Entry.id)) hget, hmark⟩
    | none =>
      have hreversible := isReversible_of_accepted o.lines.accepted
      have hnonempty : o.lines.lines ≠ [] := fun h => by
        have haccepted := o.lines.accepted
        simp [linesError, h] at haccepted
      have hgo : (o.lines.lines = [] || o.lines.lines.any fun x => !isReversible x) = false := by
        simpa [hnonempty] using hreversible
      simp only [hgo]
      exact .same hs ht ho fun _ => trivial

theorem exists_normalized {l : List Line} (h : linesError l = none) : ∃ y, normalizeJournalLines l = .ok y := by
  unfold normalizeJournalLines
  split
  · rename_i heq
    rw [h] at heq
    cases heq
  · exact ⟨_, rfl⟩

theorem lookup_keeps (hs : Sound texts s) (ht : Ok texts s t) (hpc : t.pc = .lookup o)
    (hsound : t.isSound texts s chance = true) (hstep : s.step texts t.call chance (.lookup o) = some (s', pc')) :
    Keeps texts s s' { t with pc := pc' } := by
  cases hstep
  have ho := ht.carries
  simp only [hpc, Carries] at ho
  simp only [Thread.isSound, hpc] at hsound
  by_cases hl : t.isLate = true
  · obtain ⟨hr, hd, -⟩ := ht.late hl
    obtain ⟨e, he, hlines⟩ := exists_stored_of_late hs hr hd ho
    obtain ⟨y, hy⟩ := exists_normalized (hlines ▸ e.lines.accepted)
    have hrep : e.repeats (Store.content texts t.call o chance.day) = true := by simpa [hl, he] using hsound
    obtain ⟨hmem, hrev⟩ := reverses_of_found hs he hrep
    have hlate : (Store.afterPost t.call o e.id).LateOk s t.call := by simp [Store.afterPost, hd, Pc.LateOk]
    simp only [Store.content] at hrep ⊢
    simp only [hy, he, Store.found, hrep, if_true]
    exact .same hs ht (carries_afterPost ho hmem hrev) fun _ => hlate
  · have hnot (pc : Pc) (h : t.isLate = true) : pc.LateOk s t.call := absurd h hl
    cases hy : normalizeJournalLines (Store.content texts t.call o chance.day).lines with
    | error => exact .same hs ht trivial (hnot _)
    | ok y =>
      cases he : s.journal.stored t.call.key with
      | some e => exact .same hs ht (carries_found hs ho he) (hnot _)
      | none => exact .same hs ht ⟨ho, ⟨_, rfl⟩, normalizeJournalLines_ok hy⟩ (hnot _)

theorem entry_reverses (ho : s.original c = some o) (hx : ∃ day, x = Store.content texts c o day)
    (hlines : lines.lines = x.lines) (hflat : c.direction = .incoming → isFlat o.lines.lines = true) :
    Reverses texts s (Store.entry c x lines k) o c := by
  obtain ⟨day, rfl⟩ := hx
  exact ⟨ho, rfl, rfl, hlines, ⟨_, rfl, rfl⟩, hflat⟩

theorem insert_keeps (hs : Sound texts s) (ht : Ok texts s t) (hpc : t.pc = .insert o x lines)
    (hsound : t.isSound texts s chance = true)
    (hstep : s.step texts t.call chance (.insert o x lines) = some (s', pc')) : Keeps texts s s' { t with pc := pc' } := by
  have hc := ht.carries
  simp only [hpc, Carries] at hc
  obtain ⟨ho, hx, hlines⟩ := hc
  have hnot {s : Store} {pc : Pc} (h : t.isLate = true) : pc.LateOk s t.call := by
    have hlate := (ht.late h).2.2
    rw [hpc] at hlate
    exact hlate.elim
  simp only [Store.step] at hstep
  split at hstep
  · cases hstep
    exact .same hs ht trivial hnot
  · rename_i hrefused
    split at hstep
    · rename_i j hj
      cases hstep
      have hflat : t.call.direction = .incoming → isFlat o.lines.lines = true := by
        intro hd
        simpa [Thread.isSound, hpc, Store.inserts, hrefused, hj, hd] using hsound
      have hrev := entry_reverses (k := chance.newId) ho hx hlines hflat
      have hev := evolves_insert hj
      have hmem : Store.entry t.call x lines chance.newId ∈ j.entries := (Journal.mem_insert hj).mpr (.inr rfl)
      refine ⟨hs.insert hj fun _ => ⟨o, t.call, hrev⟩, hev, ?_⟩
      exact (hev.ok ht).same (carries_afterPost (hev.original ho) hmem hrev.reverses) hnot
    · cases hstep
      exact .same hs ht ⟨ho, hx⟩ hnot

theorem existing_keeps (hs : Sound texts s) (ht : Ok texts s t) (hpc : t.pc = .existing o x)
    (hstep : s.step texts t.call chance (.existing o x) = some (s', pc')) : Keeps texts s s' { t with pc := pc' } := by
  cases hstep
  have hc := ht.carries
  simp only [hpc, Carries] at hc
  obtain ⟨ho, day, rfl⟩ := hc
  have hnot {pc : Pc} (h : t.isLate = true) : pc.LateOk s t.call := by
    have hlate := (ht.late h).2.2
    rw [hpc] at hlate
    exact hlate.elim
  split
  · rename_i e he
    exact .same hs ht (carries_found hs ho he) hnot
  · exact .same hs ht trivial hnot

theorem mark_keeps (hs : Sound texts s) (ht : Ok texts s t) (hpc : t.pc = .mark o k)
    (hstep : s.step texts t.call chance (.mark o k) = some (s', pc')) : Keeps texts s s' { t with pc := pc' } := by
  cases hstep
  have hc := ht.carries
  simp only [hpc, Carries] at hc
  obtain ⟨ho, hd, r, hr, rfl, hrev⟩ := hc
  have hev := evolves_mark hs hr hrev
  refine ⟨hs.mark hr hrev, hev, (hev.ok ht).same trivial fun _ => ?_⟩
  exact ⟨o, r, hev.original ho, hr, hrev, rfl, by simp [Store.setMark_marks]⟩

theorem step_keeps (hs : Sound texts s) (ht : Ok texts s t) (hsound : t.isSound texts s chance = true)
    (hstep : s.step texts t.call chance t.pc = some (s', pc')) : Keeps texts s s' { t with pc := pc' } := by
  cases hpc : t.pc with
  | start => exact start_keeps hs ht (hpc ▸ hstep)
  | lookup o => exact lookup_keeps hs ht hpc hsound (hpc ▸ hstep)
  | insert o x lines => exact insert_keeps hs ht hpc hsound (hpc ▸ hstep)
  | existing o x => exact existing_keeps hs ht hpc (hpc ▸ hstep)
  | mark o i => exact mark_keeps hs ht hpc (hpc ▸ hstep)
  | returned i =>
    rw [hpc] at hstep
    cases hstep
  | raised =>
    rw [hpc] at hstep
    cases hstep

end SyrocePms.InvoiceGl

/-! Reversals of invoice journals over whole runs. -/

namespace SyrocePms.InvoiceGl

open Lib OperationalGl Program Machine

variable {texts : Texts} {s : Store} {t : Thread} {p p' : Pool Store Thread}
variable {c : Call}

def isSound (texts : Texts) (p : Pool Store Thread) : Act Entry Call Chance → Bool
  | .env _ => true
  | .call c => c.direction = .outgoing || (p.store.original c).all fun o => !p.store.journal.isReversed o.id
  | .step k chance => (p.threads[k]?).all fun t => t.isSound texts p.store chance

theorem preserves : Preserves (reversals texts) (fun p a => isSound texts p a = true) (Sound texts)
    (fun s _ t => Ok texts s t) (fun _ _ => True) where
  symm _ _ _ := trivial
  init s h := by
    refine ⟨fun r hr hrev => ?_, fun id i hm => ?_⟩
    · obtain ⟨hnone, hkey⟩ := h.1 r hr
      obtain hrev | ⟨k, hk, hkr⟩ := hrev
      · rw [hnone] at hrev
        cases hrev
      · rw [hkey k hk] at hkr
        cases hkr
    · rw [h.2 id] at hm
      cases hm
  env p e s' hp _ hs := by
    simp only [reversals, Store.post] at hs
    split at hs
    · cases hs
    · rename_i hplain
      obtain ⟨j, hj, rfl⟩ := Option.map_eq_some_iff.mp hs
      refine ⟨hp.store.insert hj fun hrev => ?_, fun k t ht => (evolves_insert hj).ok (hp.thread k t ht)⟩
      simp only [Bool.or_eq_true, not_or, Bool.not_eq_true] at hplain
      obtain hrev | ⟨k, hk, hkr⟩ := hrev
      · rw [hplain.1] at hrev
        cases hrev
      · simp [Option.mem_def.mp hk, hkr] at hplain
  call p c t _ hsound hcall := by
    cases hcall
    refine ⟨⟨trivial, fun hl => ?_⟩, fun _ _ => trivial⟩
    simp only [isSound, Bool.or_eq_true, decide_eq_true_eq] at hsound
    cases ho : p.store.original c with
    | none => simp [ho] at hl
    | some o =>
      simp only [ho, Option.any_some] at hl
      obtain ⟨r, hr, hrev⟩ := (Journal.isReversed_eq_true _).mp hl
      exact ⟨⟨o, r, ho, hr, hrev⟩, by simpa [ho, hl] using hsound, trivial⟩
  step p k chance t s' t' hp hsound ht hs := by
    obtain ⟨⟨s'', pc⟩, hstep, heq⟩ := Option.map_eq_some_iff.mp hs
    cases heq
    have hthread : t.isSound texts p.store chance = true := by simpa [isSound, ht] using hsound
    have hkeeps := step_keeps hp.store (hp.thread k t ht) hthread hstep
    exact ⟨hkeeps.sound, hkeeps.ok, fun j u _ hu => ⟨hkeeps.evolves.ok (hp.thread j u hu), trivial⟩⟩

/-- An entry has one reversal at most; a call that began after the reversal of its invoice was stored
and that has come to an end has answered it, and the journal is marked; and a journal and its
reversal cancel on every account, in TRY and in every foreign currency. -/
structure Correct (p : Pool Store Thread) : Prop where
  once : ∀ r ∈ p.store.journal.entries, ∀ r' ∈ p.store.journal.entries, r.reverses.isSome = true →
    r.reverses = r'.reverses → r = r'
  later : ∀ t ∈ p.threads, t.isLate = true → t.pc.isOver = true → Done p.store t.call t.pc
  cancels : ∀ c o r, p.store.original c = some o → r ∈ p.store.journal.entries → r.reverses = some o.id →
    ∀ account, effect o.lines.lines account + effect r.lines.lines account = 0 ∧
      ∀ currency, foreignEffect currency o.lines.lines account + foreignEffect currency r.lines.lines account = 0

theorem Pc.LateOk.done {pc : Pc} (h : pc.LateOk s c) (hover : pc.isOver = true) : Done s c pc := by
  cases pc with
  | returned | raised => exact h
  | start | lookup | insert | existing | mark => cases hover

theorem Reverses.cancels {r o : Entry} (h : Reverses texts s r o c) (account : ℕ) :
    effect o.lines.lines account + effect r.lines.lines account = 0 ∧
      ∀ currency, foreignEffect currency o.lines.lines account + foreignEffect currency r.lines.lines account = 0 := by
  rw [h.lines]
  refine ⟨effect_reversal, fun currency => ?_⟩
  cases hd : c.direction with
  | incoming => rw [foreignEffect_incoming, foreignEffect_of_isFlat (h.flat hd), add_zero]
  | outgoing => exact foreignEffect_reversal (isReversible_of_accepted o.lines.accepted)

/-- In runs that meet the condition, the journals of invoices are reversed once and completely. -/
theorem invoices_reversed_once (hp : (reversals texts).machine.Reach (fun p a => isSound texts p a = true) p) :
    Correct p := by
  have hinv := preserves.reach hp
  refine ⟨fun r hr r' hr' hsome heq => ?_, fun t ht hlate hover => ?_, fun c o r ho hr hrev => ?_⟩
  · obtain ⟨i, hi⟩ := Option.isSome_iff_exists.mp hsome
    exact Journal.eq_of_reverses hr hr' hi (heq ▸ hi)
  · obtain ⟨k, hk⟩ := List.mem_iff_getElem?.mp ht
    exact ((hinv.thread k t hk).late hlate).2.2.done hover
  · obtain ⟨o', c', hr'⟩ := hinv.store.reversal r hr (.inl (by simp [hrev]))
    have hid : o.id = o'.id := Option.some.inj (hrev.symm.trans hr'.reverses)
    have hmem := (Journal.original_eq_some.mp ho).1
    have hmem' := (Journal.original_eq_some.mp hr'.original).1
    obtain rfl := Collection.eq_of_key hmem hmem' hid
    exact hr'.cancels

def dollars : JournalLines where
  lines := [⟨120, 300000, 0, .text 1, some ⟨.usd, 10000, 30⟩⟩, ⟨600, 0, 300000, .text 2, some ⟨.usd, 10000, 30⟩⟩]
  accepted := by decide +kernel

def lira : JournalLines where
  lines := [⟨120, 300000, 0, .text 1, none⟩, ⟨600, 0, 300000, .text 2, none⟩]
  accepted := by decide +kernel

def sampleEntry (d : Direction) (lines : JournalLines) : Entry where
  id := 1
  date := 4
  memo := 1
  lines := lines
  source := .invoice d
  sourceRef := 7
  key := some (.invoice d 7)
  fingerprint := none

def sampleTexts : Texts := fun _ _ n => n

def emptyPool : Pool Store Thread := ⟨⟨.empty, fun _ => none⟩, []⟩

theorem init_emptyPool : (reversals texts).machine.init emptyPool :=
  ⟨⟨fun _ he => absurd he Collection.not_mem_empty, fun _ => rfl⟩, rfl⟩

/-- The journal of the invoice is posted and reversed on day 5, and the call is made again on `day`. -/
def twice (e : Entry) (c : Call) (day : ℕ) : List (Act Entry Call Chance) :=
  [.env e, .call c, .step 0 {}, .step 0 { day := 5 }, .step 0 { newId := 2 }, .call c, .step 1 {}, .step 1 { day := day },
    .step 1 {}]

/-- The first call stops before the mark, and the second sets it on the same day. -/
theorem invoices_reversed_once_same_day :
    ∃ p, (reversals sampleTexts).machine.Reach (fun p a => isSound sampleTexts p a = true) p ∧
      p.threads.map (fun t => (t.isLate, t.pc.isOver)) = [(false, false), (true, true)] ∧ Correct p := by
  obtain ⟨p, hp, hv⟩ := exists_reach_of_runUnder (M := (reversals sampleTexts).machine)
    (C := fun p a => isSound sampleTexts p a = true) (s := emptyPool)
    (f := fun p => p.threads.map fun t => (t.isLate, t.pc.isOver)) (v := [(false, false), (true, true)])
    (twice (sampleEntry .outgoing dollars) (.outgoing 7 1 1) 5) init_emptyPool (by decide +kernel)
  exact ⟨p, hp, hv, invoices_reversed_once hp⟩

/-- A call that is made again on the next day is refused, one for an incoming invoice leaves the
journal without a mark, and the reversal of an incoming invoice in dollars does not cancel them. -/
theorem reversals_not_exact :
    (∃ p, (reversals sampleTexts).machine.Reachable p ∧ ∃ t ∈ p.threads, t.call = .outgoing 7 1 1 ∧
      t.isLate = true ∧ t.pc.isOver = true ∧ ¬ Done p.store t.call t.pc) ∧
    (∃ p, (reversals sampleTexts).machine.Reachable p ∧ ∃ t ∈ p.threads, t.call = .incoming 7 1 1 ∧
      t.isLate = true ∧ t.pc.isOver = true ∧ ¬ Done p.store t.call t.pc) ∧
    ∃ p, (reversals sampleTexts).machine.Reachable p ∧ ∃ o ∈ p.store.journal.entries, ∃ r ∈ p.store.journal.entries,
      r.reverses = some o.id ∧ foreignEffect .usd o.lines.lines 120 + foreignEffect .usd r.lines.lines 120 ≠ 0 := by
  refine ⟨?_, ?_, ?_⟩
  · obtain ⟨p, hp, hv⟩ := exists_reachable_of_run (M := (reversals sampleTexts).machine) (s := emptyPool)
      (f := fun p => p.threads[1]?) (v := some ⟨.outgoing 7 1 1, true, .raised⟩)
      ((twice (sampleEntry .outgoing dollars) (.outgoing 7 1 1) 6).take 8) init_emptyPool (by decide +kernel)
    refine ⟨p, hp, _, List.mem_of_getElem? hv, rfl, rfl, rfl, fun h => ?_⟩
    obtain ⟨o, r, -, -, -, hpc, -⟩ := h
    cases hpc
  · obtain ⟨p, hp, hv⟩ := exists_reachable_of_run (M := (reversals sampleTexts).machine) (s := emptyPool)
      (f := fun p => (p.threads[1]?, (p.store.original (.incoming 7 1 1)).map fun o => p.store.marks o.id))
      (v := (some ⟨.incoming 7 1 1, true, .returned (some 2)⟩, some none))
      ((twice (sampleEntry .incoming lira) (.incoming 7 1 1) 5).take 8) init_emptyPool (by decide +kernel)
    obtain ⟨hthread, hmark⟩ := Prod.mk.inj hv
    refine ⟨p, hp, _, List.mem_of_getElem? hthread, rfl, rfl, rfl, fun h => ?_⟩
    obtain ⟨o, r, ho, -, -, -, hm⟩ := h
    simp only [ho, Option.map_some, hm] at hmark
    cases hmark
  · obtain ⟨p, hp, hv⟩ := exists_reachable_of_run (M := (reversals sampleTexts).machine) (s := emptyPool)
      (f := fun p => p.store.journal.entries.rows.map fun e => (e.id, e.reverses, foreignEffect .usd e.lines.lines 120))
      (v := [(1, none, 10000), (2, some 1, 0)])
      ((twice (sampleEntry .incoming dollars) (.incoming 7 1 1) 5).take 5) init_emptyPool (by decide +kernel)
    have hfirst : ((1 : ℕ), (none : Option ℕ), (10000 : ℤ)) ∈ p.store.journal.entries.rows.map
        fun e => (e.id, e.reverses, foreignEffect .usd e.lines.lines 120) := by rw [hv]; decide
    have hsecond : ((2 : ℕ), some 1, (0 : ℤ)) ∈ p.store.journal.entries.rows.map
        fun e => (e.id, e.reverses, foreignEffect .usd e.lines.lines 120) := by rw [hv]; decide
    obtain ⟨o, ho, heq⟩ := List.mem_map.mp hfirst
    obtain ⟨r, hr, heq'⟩ := List.mem_map.mp hsecond
    simp only [Prod.mk.injEq] at heq heq'
    refine ⟨p, hp, o, ho, r, hr, by rw [heq'.2.1, heq.1], ?_⟩
    rw [heq.2.2, heq'.2.2]
    decide

end SyrocePms.InvoiceGl
