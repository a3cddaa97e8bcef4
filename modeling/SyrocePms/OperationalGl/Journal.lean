import SyrocePms.Lib.Collection
import SyrocePms.OperationalGl.Plan
import SyrocePms.Lib.Threads

/-! The journal and the night-audit runs of one tenant, as the valuation sees them. The
fingerprint of an entry stands for its content, and its hash for the id of the entry that it
was computed from. -/

namespace SyrocePms.OperationalGl

open Lib Collection

variable {id run : ℕ}

inductive Source
  | nightAudit
  | nightAuditCorrection
  | other (n : ℕ)
  deriving DecidableEq

/-- `operational-daily:<date>`, `operational-correction:<run>`, or another idempotency key. -/
inductive Key
  | daily (date : ℕ)
  | correction (run : ℕ)
  | other (n : ℕ)
  deriving DecidableEq

inductive Memo
  | valued (hash : Manifest)
  | correction (originalId : ℕ) (hash : Manifest)
  | text (n : ℕ)
  deriving DecidableEq

/-- What the fingerprint of an entry covers. -/
structure Content where
  date : ℕ
  memo : Memo
  lines : List Line
  source : Source
  sourceRef : Option ℕ
  manifest : Option Manifest
  deriving DecidableEq

/-- A row of `gl_journal_entries`. -/
structure Entry where
  id : ℕ
  date : ℕ
  memo : Memo
  lines : JournalLines
  source : Source
  sourceRef : Option ℕ
  key : Option Key
  fingerprint : Option Content
  manifest : Option Manifest
  reverses : Option ℕ := none
  reversed : Bool := false
  entryHash : Option ℕ

namespace Entry

variable (e : Entry)

/-- `verify_journal_entry_hash`. -/
def isVerified : Bool := e.entryHash = some e.id

/-- The fingerprint is that of the content, or the entry is older than the fingerprints. -/
def repeats (c : Content) : Bool := e.fingerprint.all (· == c)

def isOriginal (run : ℕ) : Bool := e.source = .nightAudit && e.sourceRef = some run

def isCorrection (run : ℕ) : Bool := e.source = .nightAuditCorrection && e.sourceRef = some run

def core : Entry := { e with reversed := false }

@[simp] theorem core_key : e.core.key = e.key := rfl

@[simp] theorem core_lines : e.core.lines = e.lines := rfl

@[simp] theorem core_manifest : e.core.manifest = e.manifest := rfl

@[simp] theorem core_isOriginal (run : ℕ) : e.core.isOriginal run = e.isOriginal run := rfl

@[simp] theorem core_isCorrection (run : ℕ) : e.core.isCorrection run = e.isCorrection run := rfl

end Entry

/-- `gl_journal_entries` under the unique index of the idempotency keys. -/
structure Journal where
  entries : Collection Entry Entry.id
  unique : ∀ e ∈ entries, ∀ e' ∈ entries, e.key.isSome = true → e.key = e'.key → e = e'

variable {e : Entry}

namespace Journal

variable (j : Journal)

def empty : Journal := ⟨.empty, fun _ he => absurd he not_mem_empty⟩

def stored (key : Key) : Option Entry := j.entries.findOne fun e => e.key = some key

def originals (run : ℕ) : List Entry := j.entries.rows.filter (·.isOriginal run)

def corrections (run : ℕ) : List Entry := j.entries.rows.filter (·.isCorrection run)

def linesOf (run : ℕ) : List Line :=
  (j.originals run ++ j.corrections run).flatMap fun e => e.lines.lines

def reverses (id : ℕ) : Bool := j.entries.any fun e => e.reverses = some id

theorem mem_of_stored {j : Journal} {key : Key} (h : j.stored key = some e) :
    e ∈ j.entries ∧ e.key = some key := by
  obtain ⟨he, hk⟩ := mem_of_findOne h
  exact ⟨he, by simpa using hk⟩

theorem mem_originals : e ∈ j.originals run ↔ e ∈ j.entries ∧ e.isOriginal run = true := List.mem_filter

theorem mem_corrections : e ∈ j.corrections run ↔ e ∈ j.entries ∧ e.isCorrection run = true := List.mem_filter

def insert (e : Entry) : Option Journal :=
  if h : j.entries.any fun x => e.key.isSome && x.key = e.key then none
  else
    match hc : j.entries.insertOne e with
    | none => none
    | some entries => some ⟨entries, by
      have hfree : ∀ x ∈ j.entries, e.key.isSome = true → x.key ≠ e.key := fun x hx hk heq =>
        h (any_eq_true.mpr ⟨x, hx, by simp [hk, heq]⟩)
      intro x hx y hy hk heq
      obtain hx | rfl := (mem_insertOne hc).mp hx
      · obtain hy | rfl := (mem_insertOne hc).mp hy
        · exact j.unique x hx y hy hk heq
        · exact absurd heq (hfree x hx (heq ▸ hk))
      · obtain hy | rfl := (mem_insertOne hc).mp hy
        · exact absurd heq.symm (hfree y hy hk)
        · rfl⟩

theorem insert_eq_some {j j' : Journal} (h : j.insert e = some j') :
    (∀ x ∈ j.entries, ∀ k ∈ e.key, x.key ≠ some k) ∧
      ∀ x, x ∈ j'.entries ↔ x ∈ j.entries ∨ x = e := by
  unfold insert at h
  split at h
  · cases h
  · rename_i hany
    split at h
    · cases h
    · rename_i entries hc
      cases h
      refine ⟨fun x hx k hk hx' => hany ?_, fun x => mem_insertOne hc⟩
      have hkey : e.key = some k := hk
      exact any_eq_true.mpr ⟨x, hx, by simp [hkey, hx']⟩

/-- The entry `id` gets the status of a reversal. -/
def markReversed (id : ℕ) : Journal where
  entries := j.entries.updateMany (·.id = id) (fun e => { e with reversed := true }) fun _ => rfl
  unique := by
    intro x hx y hy hk heq
    obtain ⟨x', hx', rfl⟩ := mem_updateMany.mp hx
    obtain ⟨y', hy', rfl⟩ := mem_updateMany.mp hy
    have hkey (z : Entry) : (if decide (z.id = id) then { z with reversed := true } else z).key = z.key := by
      split <;> rfl
    rw [hkey] at hk
    rw [hkey, hkey] at heq
    rw [j.unique x' hx' y' hy' hk heq]

theorem mem_markReversed {x : Entry} : x ∈ (j.markReversed id).entries ↔
    ∃ y ∈ j.entries, x = if decide (y.id = id) then { y with reversed := true } else y := by
  simp only [markReversed, mem_updateMany]

theorem exists_core_markReversed (h : e ∈ j.entries) :
    ∃ e' ∈ (j.markReversed id).entries, e'.core = e.core := by
  refine ⟨_, j.mem_markReversed.mpr ⟨e, h, rfl⟩, ?_⟩
  split <;> rfl

theorem exists_core_of_mem_markReversed (h : e ∈ (j.markReversed id).entries) :
    ∃ e' ∈ j.entries, e'.core = e.core := by
  obtain ⟨y, hy, rfl⟩ := j.mem_markReversed.mp h
  refine ⟨y, hy, ?_⟩
  split <;> rfl

end Journal

/-! ### Runs, accounts and the store -/

inductive BridgeStatus
  | unset
  | posted
  | noActivity

/-- A row of `night_audit_runs`. -/
structure Run where
  id : ℕ
  businessDate : ℕ
  completed : Bool := false
  journalEntryId : Option ℕ := none
  correctionEntryId : Option ℕ := none
  valuedEntryId : Option ℕ := none
  bridgeStatus : BridgeStatus := .unset
  sourceHash : Option Manifest := none

/-- The types of `gl_accounts` that a realised difference is posted to, and the others. -/
inductive AccountType
  | revenue
  | expense
  | other
  deriving DecidableEq

structure Account where
  code : ℕ
  type : AccountType
  normal : Side
  active : Bool := true

structure Store where
  journal : Journal
  runs : Collection Run Run.id
  mapping : Mapping
  chart : Collection Account Account.code
  sources : Except ValuationError Sources

namespace Store

variable (s : Store)

/-- The first of the codes that is not in the chart or not active. -/
def accountError (lines : List Line) : Option PostingError :=
  ((lines.map Line.account).dedup.insertionSort (· ≤ ·)).findSome? fun code =>
    match s.chart.get? code with
    | none => some (.unknownAccount code)
    | some a => if a.active then none else some (.inactiveAccount code)

/-- The checks of the accounts of realised differences, against mapping and chart. -/
def fxError (v : Valuation) (accounts : Accounts) : Option ValuationError :=
  v.realisedFx.bind fun fx =>
    if fx.gain ∈ accounts.codes ∨ fx.loss ∈ accounts.codes then some .fxAccountsNotSeparate
    else
      let fits code type normal := (s.chart.get? code).any fun a => a.active && a.type = type && a.normal = normal
      if !fits fx.gain .revenue .credit then some (.fxAccountType fx.gain)
      else if !fits fx.loss .expense .debit then some (.fxAccountType fx.loss)
      else none

def updateRun (run : ℕ) (f : Run → Run) (hid : ∀ r, (f r).id = r.id) : Store :=
  { s with runs := s.runs.update run f hid }

theorem mem_updateRun {f : Run → Run} {hid : ∀ r, (f r).id = r.id} {x : Run} :
    x ∈ (s.updateRun run f hid).runs ↔
      (x ∈ s.runs ∧ x.id ≠ run) ∨ ∃ r ∈ s.runs, r.id = run ∧ x = f r := by
  simp only [updateRun, mem_update]

end Store

/-! Previews and posts of valued days, each read and each write a step of its own, beside the
automatic night-audit posts of the same runs and the entries of other origin. Sources, mapping
and accounts change at any time, and a call that crashes takes no further step. -/

inductive Action
  | alreadyPosted
  | alreadyCorrected
  | correct
  | post
  | noActivity
  deriving DecidableEq

/-- What `preview_hash` covers. -/
structure PreviewHash where
  run : ℕ
  action : Action
  sourceHash : Manifest
  originalHash : Option ℕ
  deriving DecidableEq

/-- The response of `preview_daily_valuation`. -/
structure Preview where
  plan : Plan
  run : ℕ
  businessDate : ℕ
  action : Action
  originalId : Option ℕ
  correctionId : Option ℕ
  hash : PreviewHash
  postingLines : List Line

/-- What a call asks for: a post has the hash that the client has seen. -/
structure Ask where
  run : ℕ
  valuation : ValuationRequest
  post : Bool
  expected : Option PreviewHash

/-- An entry that `post_journal_entry` is asked for. The plan is that of the preview; an
automatic post has none. -/
structure Draft where
  run : ℕ
  date : ℕ
  correcting : Bool
  memo : Memo
  lines : JournalLines
  plan : Option Plan

namespace Draft

variable (d : Draft)

def key : Key := if d.correcting then .correction d.run else .daily d.date

def source : Source := if d.correcting then .nightAuditCorrection else .nightAudit

def manifest : Option Manifest := d.plan.map Plan.manifest

def content : Content :=
  ⟨d.date, d.memo, d.lines.lines, d.source, some d.run, d.manifest⟩

def entry (id : ℕ) : Entry where
  id := id
  date := d.date
  memo := d.memo
  lines := d.lines
  source := d.source
  sourceRef := some d.run
  key := some d.key
  fingerprint := some d.content
  manifest := d.manifest
  entryHash := some id

end Draft

inductive Answer
  | raised (e : ValuationError)
  | previewed (p : Preview)
  | already (action : Action) (entryId : Option ℕ)
  | noActivity
  | posted (correcting : Bool) (entryId : ℕ)

inductive Pc
  | start (a : Ask)
  | mapping (a : Ask) (r : Run)
  | sources (a : Ask) (r : Run) (accounts : Accounts) (v : Valuation)
  | byKey (a : Ask) (r : Run) (plan : Plan)
  | candidates (a : Ask) (r : Run) (plan : Plan) (byKey : Option Entry)
  | correction (a : Ask) (r : Run) (plan : Plan) (original : Option Entry)
  | decide (a : Ask) (r : Run) (plan : Plan) (original correction : Option Entry)
  | mark (run : ℕ) (f : Run → Run) (hid : ∀ r, (f r).id = r.id) (hdate : ∀ r, (f r).businessDate = r.businessDate)
      (answer : Answer)
  | bridge (run : ℕ) (memo : ℕ) (lines : List Line)
  | lookup (d : Draft)
  | check (d : Draft)
  | insert (d : Draft)
  | existing (d : Draft)
  | answered (x : Answer)

/-- What `reclassification_proof` finds: nothing, a proof, or one that has changed. -/
inductive Evidence
  | missing
  | proof (n : ℕ)
  | changed

/-- What a call cannot foresee: the id of an entry, what the evidence of a demo tenant says,
whether a check of the period or of the ordinals refuses a post, and whether the answer to an
insert is lost. -/
structure Chance where
  newId : ℕ := 0
  evidence : Evidence := .missing
  isReviewed : Bool := false
  refused : Bool := false
  lost : Bool := false

/-! ### The preview -/

def originalOf (r : Run) (byKey : Option Entry) (candidates : List Entry) :
    Except ValuationError (Option Entry) :=
  if 1 < candidates.length then .error .multipleOriginals
  else
    let original := candidates.head?.or byKey
    if byKey.any fun k => original.any fun o => k.id ≠ o.id then .error .keyConflict
    else if r.journalEntryId.any fun id => original.all fun o => o.id ≠ id then .error .danglingLink
    else .ok original

def originalError (r : Run) (original : Entry) : Option ValuationError :=
  if original.isOriginal r.id && original.isVerified then none else some .originalMismatch

/-- The plan with the proof of a reclassification, when there are no other sources. -/
def withEvidence (plan : Plan) (original : Option Entry) (x : Evidence) : Except ValuationError Plan :=
  if original.isNone || plan.manifest.sources ≠ [] then .ok plan
  else
    match x with
    | .missing => .ok plan
    | .proof n => .ok { plan with manifest := { plan.manifest with sources := [.reclassified n] } }
    | .changed => .error .evidenceChanged

def Store.correctionFits (s : Store) (r : Run) (plan : Plan) (original : Option Entry) (c : Entry) : Bool :=
  original.any fun o =>
    c.isCorrection r.id && c.date = r.businessDate && !c.reversed &&
      c.memo = .correction o.id plan.manifest && !s.journal.reverses c.id && c.isVerified &&
      c.manifest = some plan.manifest

def actionOf (plan : Plan) (original correction : Option Entry) : Action :=
  if original.any fun o => o.manifest = some plan.manifest then .alreadyPosted
  else if correction.isSome then .alreadyCorrected
  else if original.isSome then .correct
  else if plan.lines = [] then .noActivity
  else .post

def correctionLines (plan : Plan) (original : Option Entry) : List Line :=
  (original.map fun o => o.lines.lines.map Line.contra).getD [] ++ plan.lines

def previewOf (r : Run) (plan : Plan) (original correction : Option Entry) : Preview :=
  let action := actionOf plan original correction
  { plan, run := r.id, businessDate := r.businessDate, action
    originalId := original.map Entry.id, correctionId := correction.map Entry.id
    hash := ⟨r.id, action, plan.manifest, original.bind Entry.entryHash⟩
    postingLines := if action = .correct then correctionLines plan original else plan.lines }

/-- `preview_daily_valuation` after the reads of the journal. -/
def Store.preview (s : Store) (o : Chance) (r : Run) (plan : Plan) (original correction : Option Entry) :
    Except ValuationError Preview := do
  if let some e := original.bind (originalError r) then throw e
  let plan ← withEvidence plan original o.evidence
  let isNonzero := original.any fun e => e.lines.lines.any fun x => x.debit ≠ 0 || x.credit ≠ 0
  if isNonzero && plan.manifest.sources = [] && !(correction.isSome && o.isReviewed) then
    throw .sourceHistoryMissing
  if original.any fun e => e.reversed || e.reverses.isSome || s.journal.reverses e.id then
    throw .alreadyReversed
  if correction.any fun c => !s.correctionFits r plan original c then throw .correctionDiffers
  let preview := previewOf r plan original correction
  if preview.action = .correct then
    if let some e := linesError preview.postingLines then throw (.posting e)
  return preview

/-! ### The post -/

def Preview.draft (p : Preview) (lines : JournalLines) : Draft where
  run := p.run
  date := p.businessDate
  correcting := p.action = .correct
  memo :=
    if p.action = .correct then .correction (p.originalId.getD 0) p.plan.manifest
    else .valued p.plan.manifest
  lines := lines
  plan := some p.plan

/-- The update of the run for a day that is posted already. -/
def markPosted (p : Preview) : Pc :=
  let entryId := p.correctionId.or p.originalId
  .mark p.run (fun r => { r with bridgeStatus := .posted, valuedEntryId := entryId })
    (fun _ => rfl) (fun _ => rfl) (.already p.action entryId)

def link (d : Draft) (e : Entry) : Pc :=
  .mark d.run
    (fun r => {
      r with
      bridgeStatus := .posted
      valuedEntryId := if d.plan.isSome then some e.id else r.valuedEntryId
      sourceHash := d.manifest.or r.sourceHash
      correctionEntryId := if d.correcting then some e.id else r.correctionEntryId
      journalEntryId := if d.correcting then r.journalEntryId else some e.id })
    (fun _ => rfl) (fun _ => rfl) (.posted d.correcting e.id)

/-- `post_daily_valuation` after its preview. -/
def Preview.next (p : Preview) (a : Ask) : Pc :=
  if !a.post then .answered (.previewed p)
  else if p.action = .alreadyPosted || p.action = .alreadyCorrected then markPosted p
  else if a.expected ≠ some p.hash then .answered (.raised .previewChanged)
  else if p.action = .noActivity then
    .mark p.run (fun r => { r with bridgeStatus := .noActivity }) (fun _ => rfl) (fun _ => rfl) .noActivity
  else
    match normalizeJournalLines p.postingLines with
    | .error e => .answered (.raised (.posting e))
    | .ok lines => .lookup (p.draft lines)

def found (d : Draft) (e : Entry) : Pc :=
  if e.repeats d.content then link d e else .answered (.raised (.posting .keyReused))

def orRaise {α : Type*} (x : Except ValuationError α) (f : α → Pc) : Pc :=
  match x with
  | .error e => .answered (.raised e)
  | .ok y => f y

/-- The step `pc` of a call. -/
def advance (s : Store) (o : Chance) : Pc → Option (Store × Pc)
  | .start a =>
    some (s,
      match s.runs.findOne fun r => r.id = a.run && r.completed with
      | none => .answered (.raised .runNotFound)
      | some r => .mapping a r)
  | .mapping a r =>
    some (s,
      if !s.mapping.enabled || !s.mapping.autoNightAudit then .answered (.raised .mappingDisabled)
      else orRaise (normalizedValuation r.businessDate a.valuation) fun v =>
        match s.fxError v s.mapping.accounts with
        | some e => .answered (.raised e)
        | none => .sources a r s.mapping.accounts v)
  | .sources a r accounts v =>
    some (s, orRaise (s.sources.bind fun x => buildPlan x accounts v) fun plan => .byKey a r plan)
  | .byKey a r plan => some (s, .candidates a r plan (s.journal.stored (.daily r.businessDate)))
  | .candidates a r plan byKey =>
    some (s, orRaise (originalOf r byKey (s.journal.originals r.id)) fun original =>
      .correction a r plan original)
  | .correction a r plan original => some (s, .decide a r plan original (s.journal.stored (.correction r.id)))
  | .decide a r plan original correction =>
    some (s, orRaise (s.preview o r plan original correction) fun p => p.next a)
  | .mark run f hid _ answer => some (s.updateRun run f hid, .answered answer)
  | .bridge run memo lines =>
    some (s,
      match s.runs.get? run, normalizeJournalLines lines with
      | none, _ => .answered (.raised .runNotFound)
      | _, .error e => .answered (.raised (.posting e))
      | some r, .ok lines => .lookup ⟨r.id, r.businessDate, false, .text memo, lines, none⟩)
  | .lookup d =>
    some (s,
      match s.journal.stored d.key with
      | some e => found d e
      | none => .check d)
  | .check d =>
    some (s,
      if o.refused then .answered (.raised (.posting .refused))
      else
        match s.accountError d.lines.lines with
        | some e => .answered (.raised (.posting e))
        | none => .insert d)
  | .insert d =>
    match s.journal.insert (d.entry o.newId) with
    | none => some (s, .existing d)
    | some journal =>
      some ({ s with journal },
        if o.lost then .answered (.raised (.posting .refused)) else link d (d.entry o.newId))
  | .existing d =>
    some (s,
      match s.journal.stored d.key with
      | some e => found d e
      | none => .answered (.raised (.posting .refused)))
  | .answered _ => none

/-! ### The calls -/

inductive Call
  | preview (run : ℕ) (valuation : ValuationRequest)
  | post (run : ℕ) (valuation : ValuationRequest) (expected : Option PreviewHash)
  | bridge (run memo : ℕ) (lines : List Line)

def Call.begin : Call → Pc
  | .preview run valuation => .start ⟨run, valuation, false, none⟩
  | .post run valuation expected => .start ⟨run, valuation, true, expected⟩
  | .bridge run memo lines => .bridge run memo lines

/-- What other code does to the sources, the settings, the runs and the journal. -/
inductive Env
  | sources (x : Except ValuationError Sources)
  | mapping (m : Mapping)
  | account (a : Account)
  | startRun (run businessDate : ℕ)
  | completeRun (run : ℕ)
  | entry (e : Entry)
  | reverse (id : ℕ)

def Store.env (s : Store) : Env → Option Store
  | .sources x => some { s with sources := x }
  | .mapping m => some { s with mapping := m }
  | .account a => some { s with chart := s.chart.upsert a }
  | .startRun run businessDate =>
    (s.runs.insertOne ⟨run, businessDate, false, none, none, none, .unset, none⟩).map fun runs => { s with runs }
  | .completeRun run => some (s.updateRun run (fun r => { r with completed := true }) fun _ => rfl)
  | .entry e =>
    match e.source with
    | .other _ => (s.journal.insert e).map fun journal => { s with journal }
    | _ => none
  | .reverse id => some { s with journal := s.journal.markReversed id }

/-- The entries of night audits that runs start with have been posted automatically. -/
def Store.IsBridged (s : Store) : Prop :=
  ∀ e ∈ s.journal.entries, e.source ≠ .nightAuditCorrection ∧ (e.source = .nightAudit →
    ∃ r ∈ s.runs, e.sourceRef = some r.id ∧ e.key = some (.daily r.businessDate))

def valuations : Program Store Pc Env Call Chance where
  init := Store.IsBridged
  env := Store.env
  call _ c := some c.begin
  step _ s pc o := advance s o pc

end SyrocePms.OperationalGl
