import SyrocePms.AutoCollection.Runs

/-! Charges of a kind. A candidate is charged exactly when all intents under its key are failed:
with an intent of its kind that may have taken money nothing is asked of the provider, and an
intent of the other kind under the same key keeps it from being charged as well. -/

namespace SyrocePms.AutoCollection

open Lib CardCollection List Collection

variable {s : Store} {n : ℕ} {b : Booking} {c : Candidate} {o : Chance} {kind : Kind} {settings : Settings}
  {t t' : Tenant} {log : List Entry}
variable {i : Intent} {id : ℕ} {f : Booking → Booking} {e : Entry} {u : Tenant} {a : Action}

def Taken (s : Store) (kind : Kind) : Prop := ∃ i ∈ s.intents, i.kind = some kind.tag ∧ i.status ≠ .failed

/-- Uuids are those of the calls so far, and a lock of a kind is held with an intent of the kind
that may have taken money. -/
structure Sound (s : Store) (n : ℕ) : Prop where
  issued : ∀ i ∈ s.intents, ∃ j < n, i.id = .call j
  backed : ∀ l ∈ s.locks, ∀ kind : Kind, l.scope = kind.scope → Taken s kind

theorem Sound.new (h : Sound s n) : ∀ i ∈ s.intents, i.id ≠ .call n := by
  intro i hi hid
  obtain ⟨j, hj, hij⟩ := h.issued i hi
  cases hij.symm.trans hid
  exact absurd hj (lt_irrefl _)

/-! ### A call of the core -/

section Call

variable {d : Call}

theorem mem_callAlone (h : Sound s n) (hi : i ∈ s.intents) : i ∈ (callAlone n d o s).1.intents :=
  ((drive_frame 9).intents i (h.new i hi)).mpr hi

theorem Taken.callAlone (h : Sound s n) (ht : Taken s kind) : Taken (callAlone n d o s).1 kind := by
  obtain ⟨i, hi, hk, hst⟩ := ht
  exact ⟨i, mem_callAlone h hi, hk, hst⟩

theorem Sound.callAlone (h : Sound s n) (hscope : ∀ kind : Kind, d.scope = kind.scope → d.kind = some kind.tag) :
    Sound (callAlone n d o s).1 (n + 1) := by
  have hissued : ∀ i ∈ (CardCollection.callAlone n d o s).1.intents, ∃ j < n + 1, i.id = .call j := by
    intro i hi
    by_cases hid : i.id = .call n
    · exact ⟨n, Nat.lt_succ_self n, hid⟩
    · obtain ⟨j, hj, hij⟩ := h.issued i (((drive_frame 9).intents i hid).mp hi)
      exact ⟨j, Nat.lt_succ_of_lt hj, hij⟩
  refine ⟨hissued, fun l hl kind hk => ?_⟩
  obtain ⟨out, hout⟩ | hcharged := callAlone_cases (c := d) (o := o) h.new
  · rw [hout] at hl ⊢
    exact h.backed l hl kind hk
  · by_cases hd : l.scope = d.scope
    · obtain ⟨i, hi, -, hik, hst⟩ := hcharged.intent
      refine ⟨i, hi, hik.trans (hscope kind (hd.symm.trans hk)), fun hfailed => ?_⟩
      exact hcharged.released (hst.mp hfailed) l hl hd
    · exact (h.backed l ((hcharged.locks l hl).resolve_right hd) kind hk).callAlone h

end Call

theorem Candidate.call_scope (c : Candidate) (kind : Kind) (h : c.call.scope = kind.scope) :
    c.call.kind = some kind.tag := congrArg some h

/-! ### A candidate -/

@[simp] theorem applyOutcome_ledger (out : Outcome) : (b.applyOutcome settings kind out).1.ledger = b.ledger := by
  cases out <;> simp only [Booking.applyOutcome, Booking.fail] <;> first | rfl | (split <;> rfl)

@[simp] theorem applyOutcome_calls (out : Outcome) : (b.applyOutcome settings kind out).1.calls = b.calls := by
  cases out <;> simp only [Booking.applyOutcome, Booking.fail] <;> first | rfl | (split <;> rfl)

theorem taken_of_takenIntent (h : b.takenIntent kind = some i) :
    b.ledger.intents.any (fun i => i.kind = some kind.tag && mayHaveTaken i.status) = true := by
  obtain ⟨hi, hp⟩ := mem_of_findOne h
  exact Collection.any_eq_true.mpr ⟨i, hi, hp⟩

theorem processCandidate_of_none (settings : Settings) (o : Chance) (h : b.takenIntent c.kind = none) :
    (processCandidate settings b c o).1.ledger = (c.collect o b).1 ∧
      (processCandidate settings b c o).1.calls = b.calls + 1 ∧
      (processCandidate settings b c o).2.2 = chargesOf c.amount (c.collect o b).2.2 := by
  simp only [processCandidate, h]
  split
  · rename_i out _
    simp only [applyOutcome_ledger, applyOutcome_calls]
    split <;> exact ⟨rfl, rfl, rfl⟩
  · exact ⟨rfl, rfl, rfl⟩

theorem processCandidate_of_some (settings : Settings) (o : Chance)
    (h : b.takenIntent c.kind = some i) :
    (processCandidate settings b c o).1.ledger = b.ledger ∧ (processCandidate settings b c o).1.calls = b.calls ∧
      (processCandidate settings b c o).2.2 = [] := by
  simp only [processCandidate, h, and_true]
  split <;> exact ⟨rfl, rfl⟩

theorem chargesOf_charged {k : ℕ} {es : List Event} {x : ℤ} (h : ∀ j, .charged j ∉ es) :
    chargesOf x (es ++ [.charged k]) = [x] := by
  have hnil : chargesOf x es = [] := by
    refine filterMap_eq_nil_iff.mpr fun e he => ?_
    cases e with
    | charged j => exact absurd he (h j)
    | refused => rfl
    | accepted => rfl
    | ambiguous => rfl
  rw [chargesOf, filterMap_append, ← chargesOf, hnil]
  rfl

theorem entry_charges (settings : Settings) (c : Candidate) (o : Chance) (h : Sound b.ledger b.calls) :
    (entry settings b c o).charges =
      if (entry settings b c o).taken || (entry settings b c o).others then [] else [c.amount] := by
  cases htaken : b.takenIntent c.kind with
  | some i =>
    have ht : (entry settings b c o).taken = true := taken_of_takenIntent htaken
    rw [ht, Bool.true_or, if_pos rfl]
    exact (processCandidate_of_some settings o htaken).2.2
  | none =>
    have hnone := findOne_eq_none.mp htaken
    have ht : (entry settings b c o).taken = false := Collection.any_eq_false.mpr hnone
    rw [ht, Bool.false_or]
    change (processCandidate settings b c o).2.2 = _
    rw [(processCandidate_of_none settings o htaken).2.2]
    cases hothers : (entry settings b c o).others with
    | true =>
      obtain ⟨i, hi, hp⟩ := Collection.any_eq_true.mp hothers
      have hst : i.status ≠ .failed := mayHaveTaken_eq_true.mp (Bool.and_eq_true_iff.mp hp).2
      cases hprior : b.ledger.prior with
      | none =>
        have hfailed := findOne_eq_none.mp hprior i hi
        simp [hst] at hfailed
      | some i' =>
        obtain ⟨out, hout⟩ := callAlone_of_prior (k := b.calls) (c := c.call) (o := { o with configured := true }) hprior
        rw [Candidate.collect, hout]
        rfl
    | false =>
      have hunfailed : ∀ i ∈ b.ledger.intents, i.status = .failed := by
        intro i hi
        by_contra hst
        have h₁ := hnone i hi
        have h₂ := Collection.any_eq_false.mp hothers i hi
        simp only [mayHaveTaken_eq_true.mpr hst, Bool.and_true] at h₁ h₂
        by_cases hk : i.kind = some c.kind.tag
        · simp [hk] at h₁
        · simp [hk] at h₂
      have hprior : b.ledger.prior = none := findOne_eq_none.mpr fun i hi => by simp [hunfailed i hi]
      have hlock : b.ledger.locks.get? c.call.scope = none := by
        refine get?_eq_none.mpr fun l hl hscope => ?_
        obtain ⟨i, hi, -, hst⟩ := h.backed l hl c.kind hscope
        exact hst (hunfailed i hi)
      have hcharged := callAlone_charges (o := { o with configured := true }) hprior hlock rfl h.new
      obtain ⟨es, hes, hno⟩ := hcharged.charged
      rw [Candidate.collect, hes, chargesOf_charged hno]
      rfl

theorem not_taken_of_charges (h : (entry settings b c o).charges ≠ []) : b.takenIntent c.kind = none := by
  cases htaken : b.takenIntent c.kind with
  | none => rfl
  | some i => exact absurd (processCandidate_of_some settings o htaken).2.2 h

theorem taken_of_charges (h : Sound b.ledger b.calls) (hcharges : (entry settings b c o).charges ≠ [])
    (hanswer : o.answer.isRefusal = false) : Taken (processCandidate settings b c o).1.ledger c.kind := by
  obtain ⟨hledger, -, hevents⟩ := processCandidate_of_none settings o (not_taken_of_charges hcharges)
  rw [hledger]
  obtain ⟨out, hout⟩ | hcharged := callAlone_cases (c := c.call) (o := { o with configured := true }) h.new
  · refine absurd ?_ hcharges
    change (processCandidate settings b c o).2.2 = []
    rw [hevents, Candidate.collect, hout]
    rfl
  · obtain ⟨i, hi, -, hk, hst⟩ := hcharged.intent
    refine ⟨i, hi, hk, fun hfailed => ?_⟩
    rw [hanswer] at hst
    exact absurd (hst.mp hfailed) (by decide)

/-! ### The bookings -/

structure Keeps (f : Booking → Booking) : Prop where
  sound : ∀ b, Sound b.ledger b.calls → Sound (f b).ledger (f b).calls
  taken : ∀ b kind, Sound b.ledger b.calls → Taken b.ledger kind → Taken (f b).ledger kind

theorem keeps_edit (front : Front) (folios : Collection Folio Folio.id) (payments : List Payment) (paidAmount : ℤ) :
    Keeps (Booking.edit front folios payments paidAmount) where
  sound _ h := ⟨h.issued, h.backed⟩
  taken _ _ _ ht := ht

theorem keeps_expire (scope : ℕ) : Keeps (Booking.expire scope) where
  sound _ h := ⟨h.issued, fun l hl => h.backed l (mem_deleteMany.mp hl).1⟩
  taken _ _ _ ht := ht

theorem keeps_collect {d : Call} (hd : 2 ≤ d.scope) : Keeps (Booking.collect d o) where
  sound _ h := by
    refine h.callAlone fun kind hk => ?_
    have hlt := kind.scope_lt
    omega
  taken _ _ h ht := ht.callAlone h

theorem keeps_notConfigured (kind : Kind) : Keeps (Booking.notConfigured kind) where
  sound _ h := h
  taken _ _ _ ht := ht

theorem keeps_process (settings : Settings) (c : Candidate) (o : Chance) :
    Keeps fun b => (processCandidate settings b c o).1 where
  sound b h := by
    cases htaken : b.takenIntent c.kind with
    | some i =>
      obtain ⟨hledger, hcalls, -⟩ := processCandidate_of_some settings o htaken
      rw [hledger, hcalls]
      exact h
    | none =>
      obtain ⟨hledger, hcalls, -⟩ := processCandidate_of_none settings o htaken
      rw [hledger, hcalls]
      exact h.callAlone c.call_scope
  taken b kind h ht := by
    cases htaken : b.takenIntent c.kind with
    | some i =>
      rw [(processCandidate_of_some settings o htaken).1]
      exact ht
    | none =>
      rw [(processCandidate_of_none settings o htaken).1]
      exact ht.callAlone h

/-! ### The tenant -/

def Tenant.Good (t : Tenant) : Prop := ∀ b ∈ t.bookings, Sound b.ledger b.calls

/-- The booking of an entry has an intent of its kind that may have taken money. -/
def Marks (t : Tenant) (e : Entry) : Prop := ∃ b ∈ t.bookings, b.id = e.booking ∧ Taken b.ledger e.kind

theorem mem_update : b ∈ (t.update id f).bookings ↔ (b ∈ t.bookings ∧ b.id ≠ id) ∨
      ∃ d ∈ t.bookings, d.id = id ∧ b = { f d with id := d.id } := by
  change b ∈ t.bookings.update id _ (Tenant.keep_id f) ↔ _
  exact Collection.mem_update

theorem Tenant.Good.update (h : t.Good) (hf : Keeps f) : (t.update id f).Good := by
  intro b hb
  obtain ⟨hb, -⟩ | ⟨d, hd, -, rfl⟩ := mem_update.mp hb
  · exact h b hb
  · exact hf.sound d (h d hd)

theorem Marks.update (hm : Marks t e) (h : t.Good) (hf : Keeps f) : Marks (t.update id f) e := by
  obtain ⟨b, hb, hid, ht⟩ := hm
  by_cases hbid : b.id = id
  · exact ⟨_, mem_update.mpr (.inr ⟨b, hb, hbid, rfl⟩), hid, hf.taken b e.kind (h b hb) ht⟩
  · exact ⟨b, mem_update.mpr (.inl ⟨hb, hbid⟩), hid, ht⟩

/-- What holds of the bookings before a step and is kept by it. -/
structure Advances (t t' : Tenant) : Prop where
  good : t.Good → t'.Good
  marks : ∀ e, t.Good → Marks t e → Marks t' e

theorem Advances.refl (t : Tenant) : Advances t t := ⟨id, fun _ _ => id⟩

theorem advances_update (hf : Keeps f) : Advances t (t.update id f) :=
  ⟨fun h => h.update hf, fun _ h hm => hm.update h hf⟩

theorem Advances.trans (h : Advances t t') (h' : Advances t' u) : Advances t u :=
  ⟨fun hg => h'.good (h.good hg), fun e hg hm => h'.marks e (h.good hg) (h.marks e hg hm)⟩

theorem Advances.of_bookings (h : Advances t t') (hb : u.bookings = t'.bookings) : Advances t u := by
  refine ⟨fun hg b hmem => h.good hg b (hb ▸ hmem), fun e hg hm => ?_⟩
  obtain ⟨b, hmem, hid, ht⟩ := h.marks e hg hm
  exact ⟨b, hb ▸ hmem, hid, ht⟩

theorem advances_queue (cs : List Candidate) (t : Tenant) :
    Advances t (cs.foldl (fun t c => t.update c.booking (Booking.notConfigured c.kind)) t) := by
  induction cs generalizing t with
  | nil => exact .refl t
  | cons c cs ih => exact (advances_update (keeps_notConfigured c.kind)).trans (ih _)

theorem advances_start (day : ℤ) (configured : Bool) : Advances t (t.start settings day configured) := by
  cases configured with
  | true => exact (Advances.refl t).of_bookings rfl
  | false =>
    let scanned : Tenant :=
      { t with summary := ⟨(gatherCandidates settings t.bookings.rows day).length, fun _ => 0⟩ }
    have hscanned : Advances t scanned := (Advances.refl t).of_bookings rfl
    have hqueue := advances_queue (gatherCandidates settings t.bookings.rows day) scanned
    exact (hscanned.trans hqueue).of_bookings rfl

theorem step_advances (h : step settings t a = some t') : Advances t t' := by
  cases a with
  | book id front =>
    obtain ⟨bookings, hins, heq⟩ := Option.map_eq_some_iff.mp h
    cases heq
    refine ⟨fun hg b hb => ?_, fun e hg hm => ?_⟩
    · obtain hb | rfl := (mem_insertOne hins).mp hb
      · exact hg b hb
      · exact ⟨fun i hi => (by cases hi), fun l hl => (by cases hl)⟩
    · obtain ⟨b, hb, hid, ht⟩ := hm
      exact ⟨b, (mem_insertOne hins).mpr (.inl hb), hid, ht⟩
  | edit id front folios payments paidAmount =>
    cases h
    exact advances_update (keeps_edit front folios payments paidAmount)
  | expire id scope =>
    cases h
    exact advances_update (keeps_expire scope)
  | collect id d o =>
    simp only [step] at h
    split at h
    · rename_i hd
      cases h
      exact advances_update (keeps_collect hd.2)
    · cases h
  | start day configured =>
    simp only [step] at h
    split at h
    · cases h
      exact advances_start day configured
    · cases h
  | process o =>
    simp only [step] at h
    split at h
    · cases h
    · split at h
      · cases h
        exact (Advances.refl t).of_bookings rfl
      · cases h
        exact (advances_update (keeps_process settings _ o)).of_bookings rfl
  | raise =>
    cases h
    exact (Advances.refl t).of_bookings rfl

/-! ### Runs -/

/-- No candidate is charged beside an intent of its kind that may have taken money, and a booking
is charged again for a kind only after refusals. The log has its last entry first. -/
structure OncePerKind (log : List Entry) : Prop where
  guarded : ∀ e ∈ log, e.taken = true → e.charges = []
  again : ∀ e l, (e :: l) <:+ log → e.charges ≠ [] → ∀ e' ∈ l, e'.booking = e.booking → e'.kind = e.kind →
    e'.charges ≠ [] → e'.answer.isRefusal = true

/-- Each no-show candidate without such an intent is charged its amount when the provider accepts. -/
def Complete (log : List Entry) : Prop :=
  ∀ e ∈ log, e.kind = .noShow → e.taken = false → e.answer = .ok → e.charges = [e.amount]

/-- No intent of another kind or caller under the same key may have taken money. -/
def KeyFree (log : List Entry) : Prop :=
  ∀ e ∈ log, e.kind = .noShow → e.taken = false → e.answer = .ok → e.others = false

structure Traced (settings : Settings) (t : Tenant) (log : List Entry) : Prop where
  good : t.Good
  marked : ∀ e ∈ log, e.charges ≠ [] → e.answer.isRefusal = false → Marks t e
  charges : ∀ e ∈ log, e.charges = if e.taken || e.others then [] else [e.amount]
  once : OncePerKind log

theorem oncePerKind_cons (h : OncePerKind log) (hguard : e.taken = true → e.charges = [])
    (hagain : e.charges ≠ [] → ∀ e' ∈ log, e'.booking = e.booking → e'.kind = e.kind → e'.charges ≠ [] →
      e'.answer.isRefusal = true) : OncePerKind (e :: log) where
  guarded e' he' := by
    obtain rfl | he' := mem_cons.mp he'
    · exact hguard
    · exact h.guarded e' he'
  again e' l hl := by
    obtain heq | hl := suffix_cons_iff.mp hl
    · obtain ⟨rfl, rfl⟩ := List.cons.inj heq
      exact hagain
    · exact h.again e' l hl

theorem traced_entry (h : Traced settings t log) (hb : b ∈ t.bookings) (hadv : Advances t t')
    (hmark : ∀ d, d = (processCandidate settings b c o).1 → { d with id := b.id } ∈ t'.bookings) :
    Traced settings t' (entry settings b c o :: log) := by
  have hsound := h.good b hb
  have hexact := entry_charges settings c o hsound
  refine ⟨hadv.good h.good, fun e he hne hanswer => ?_, fun e he => ?_, oncePerKind_cons h.once (fun htaken => ?_) ?_⟩
  · obtain rfl | he := mem_cons.mp he
    · exact ⟨_, hmark _ rfl, rfl, taken_of_charges hsound hne hanswer⟩
    · exact hadv.marks e h.good (h.marked e he hne hanswer)
  · obtain rfl | he := mem_cons.mp he
    · exact hexact
    · exact h.charges e he
  · rw [hexact, htaken, Bool.true_or, if_pos rfl]
  · intro hne e' he' hbooking hkind hne'
    by_contra hanswer
    obtain ⟨d, hd, hid, i, hi, hk, hst⟩ := h.marked e' he' hne' (by simpa using hanswer)
    have hdb : d = b := eq_of_key hd hb (hid.trans hbooking)
    have hnone := findOne_eq_none.mp (not_taken_of_charges hne) i (hdb ▸ hi)
    rw [hkind] at hk
    change i.kind = some c.kind.tag at hk
    simp [hk, mayHaveTaken_eq_true.mpr hst] at hnone

theorem traced_next (h : Traced settings t log) (hs : step settings t a = some t') :
    Traced settings t' (entries settings t a ++ log) := by
  have hadv := step_advances hs
  have hquiet : Traced settings t' log :=
    ⟨hadv.good h.good, fun e he hne ha => hadv.marks e h.good (h.marked e he hne ha), h.charges, h.once⟩
  cases a with
  | process o =>
    simp only [step] at hs
    cases hpending : t.pending with
    | nil =>
      rw [hpending] at hs
      cases hs
    | cons c rest =>
      cases hget : t.bookings.get? c.booking with
      | none =>
        have hentries : entries settings t (.process o) = [] := by simp [entries, hpending, hget]
        rw [hentries]
        exact hquiet
      | some b =>
        obtain ⟨hb, hid⟩ := get?_eq_some.mp hget
        have hentries : entries settings t (.process o) = [entry settings b c o] := by simp [entries, hpending, hget]
        rw [hentries]
        refine traced_entry h hb hadv fun d hd => ?_
        simp only [hpending, hget] at hs
        cases hs
        rw [hd]
        exact mem_update.mpr (.inr ⟨b, hb, hid, rfl⟩)
  | book => exact hquiet
  | edit => exact hquiet
  | expire => exact hquiet
  | collect => exact hquiet
  | start => exact hquiet
  | raise => exact hquiet

theorem traced_of_reachLogged
    (hp : (collections settings).ReachLogged (entries settings) (fun _ _ => True) (t, log)) :
    Traced settings t log := by
  refine hp.invariant (Traced settings) (fun t h₀ => ?_) fun _ _ _ _ _ h _ hs => traced_next h hs
  obtain ⟨hempty, -⟩ := h₀
  refine ⟨fun b hb => ?_, fun e he => (by cases he), fun e he => (by cases he), fun e he => (by cases he), fun e l hl => ?_⟩
  · rw [hempty] at hb
    exact absurd hb not_mem_empty
  · cases suffix_nil.mp hl

/-- Over every run no booking is charged twice for a kind, and the no-show candidates are all
charged exactly when none of them shares its key with an intent of another kind or caller that
may have taken money. -/
theorem autonomous_collection_once_and_complete
    (hp : (collections settings).ReachLogged (entries settings) (fun _ _ => True) (t, log)) :
    OncePerKind log ∧ (Complete log ↔ KeyFree log) := by
  have htraced := traced_of_reachLogged hp
  refine ⟨htraced.once, fun h e he hk ht ha => ?_, fun h e he hk ht ha => ?_⟩
  · have hcharged := h e he hk ht ha
    rw [htraced.charges e he, ht, Bool.false_or] at hcharged
    cases ho : e.others with
    | false => rfl
    | true =>
      rw [ho] at hcharged
      cases hcharged
  · rw [htraced.charges e he, ht, h e he hk ht ha]
    rfl

/-! ### Examples -/

def threeAttempts : Settings := ⟨3, 3, 0⟩

def folioOf (balance : ℤ) : Collection Folio Folio.id := ⟨[⟨1, balance⟩], nodup_singleton 1⟩

/-- A guest who is expected on day 1, with a card in the vault and an open folio. -/
def expected : Front := ⟨.confirmed, 1, none, some 5, some ⟨1, none⟩, []⟩

/-- The guest has not come, and the night audit has posted the fee. -/
def missing : Front := { expected with status := .noShow, fees := [⟨1, some 300, none, false⟩] }

/-- What the entries of a run and the kind that is done show. -/
def observed (w : Tenant × List Entry) : List Entry × Option (Option MarkerStatus) :=
  (w.2, (w.1.bookings.get? 7).map fun b => b.marker .noShow)

/-- The arrival day's capture waits for the guest's bank. The no-show fee is then given up after
three runs, although the provider would accept it: each time the core finds the other kind's intent
under the key and answers with a payload mismatch. -/
theorem no_show_blocked_by_capture :
    ∃ w, (collections threeAttempts).ReachLogged (entries threeAttempts) (fun _ _ => True) w ∧
      observed w = ([⟨7, .noShow, 300, false, true, .ok, []⟩, ⟨7, .noShow, 300, false, true, .ok, []⟩,
        ⟨7, .noShow, 300, false, true, .ok, []⟩, ⟨7, .vccCheckin, 500, false, false, .requiresAction none, [500]⟩],
        some (some .abandoned)) ∧ ¬Complete w.2 := by
  obtain ⟨w, hw, hv⟩ := Machine.exists_reachable_of_run
    (M := (collections threeAttempts).logged (entries threeAttempts)) (s := (⟨.empty, [], ⟨0, fun _ => 0⟩⟩, []))
    (f := observed) (v := ([⟨7, .noShow, 300, false, true, .ok, []⟩, ⟨7, .noShow, 300, false, true, .ok, []⟩,
        ⟨7, .noShow, 300, false, true, .ok, []⟩, ⟨7, .vccCheckin, 500, false, false, .requiresAction none, [500]⟩],
        some (some .abandoned)))
    [.book 7 expected, .edit 7 expected (folioOf 500) [] 0, .start 1 true, .process { answer := .requiresAction none },
      .edit 7 missing (folioOf 800) [] 0, .start 2 true, .process {}, .start 3 true, .process {}, .start 4 true,
      .process {}] ⟨⟨rfl, rfl⟩, rfl⟩ (by decide +kernel)
  refine ⟨w, hw, hv, fun h => ?_⟩
  have hlog : w.2 = _ := congrArg Prod.fst hv
  rw [hlog] at h
  exact absurd (h _ mem_cons_self rfl rfl rfl) (by decide)

/-- After a refused capture the fee is charged. -/
theorem autonomous_collection_once_and_complete_refused :
    ∃ w, (collections threeAttempts).ReachLogged (entries threeAttempts) (fun _ _ => True) w ∧
      observed w = ([⟨7, .noShow, 300, false, false, .ok, [300]⟩, ⟨7, .vccCheckin, 500, false, false, .declined, [500]⟩],
        some (some .collected)) ∧ OncePerKind w.2 ∧ (Complete w.2 ↔ KeyFree w.2) := by
  obtain ⟨w, hw, hv⟩ := Machine.exists_reachable_of_run
    (M := (collections threeAttempts).logged (entries threeAttempts)) (s := (⟨.empty, [], ⟨0, fun _ => 0⟩⟩, []))
    (f := observed) (v := ([⟨7, .noShow, 300, false, false, .ok, [300]⟩,
        ⟨7, .vccCheckin, 500, false, false, .declined, [500]⟩], some (some .collected)))
    [.book 7 expected, .edit 7 expected (folioOf 500) [] 0, .start 1 true, .process { answer := .declined },
      .edit 7 missing (folioOf 800) [] 0, .start 2 true, .process {}] ⟨⟨rfl, rfl⟩, rfl⟩ (by decide +kernel)
  exact ⟨w, hw, hv, autonomous_collection_once_and_complete hw⟩

end SyrocePms.AutoCollection
