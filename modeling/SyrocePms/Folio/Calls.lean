import Mathlib.Algebra.BigOperators.Ring.Finset
import SyrocePms.Lib.Threads

/-! The append-only ledger of the folios. An entry has a place in its folio, which is its
sequence number, and an idempotency key, and both are unique indexes. Amounts are in minor
units. -/

namespace SyrocePms.Folio

open List

/-- An id: of a stored document, or drawn by a call of the run. -/
inductive Uuid where
  | stored (n : ℕ)
  | drawn (call slot : ℕ)
  deriving DecidableEq

inductive EntryType where
  | charge
  | payment
  | void
  | adjustment
  | transferOut
  | transferIn
  deriving DecidableEq

/-- What an idempotency key starts from: a text of the caller, a drawn id, or the entry
that is voided. -/
inductive KeyText where
  | given (n : ℕ)
  | uuid (u : Uuid)
  | void (entry : Uuid)
  deriving DecidableEq

inductive KeySuffix where
  | out
  | inn
  deriving DecidableEq

/-- An idempotency key. A caller's text may end as the keys of a transfer do. -/
structure Key where
  text : KeyText
  suffixes : List KeySuffix := []
  deriving DecidableEq

/-- `f"{idem_key}:out"` and `f"{idem_key}:in"`. -/
def Key.push (key : Key) (x : KeySuffix) : Key := { key with suffixes := key.suffixes ++ [x] }

/-- A row of `folio_ledger`. -/
structure Entry where
  id : Uuid
  tenant : ℕ
  folio : ℕ
  sequence : ℕ
  type : EntryType
  amount : ℤ
  key : Key
  voidedBy : Option Uuid := none
  deriving DecidableEq

namespace Entry

def place (e : Entry) : ℕ × ℕ × ℕ := (e.tenant, e.folio, e.sequence)

def voided (e : Entry) (entry reversal : Uuid) : Entry :=
  if e.id = entry then { e with voidedBy := some reversal } else e

@[simp] theorem place_voided (e : Entry) (entry reversal : Uuid) : (e.voided entry reversal).place = e.place := by
  simp only [voided]
  split <;> rfl

@[simp] theorem key_voided (e : Entry) (entry reversal : Uuid) : (e.voided entry reversal).key = e.key := by
  simp only [voided]
  split <;> rfl

def moves (e : Entry) (tenant folio : ℕ) : ℤ :=
  if e.tenant = tenant ∧ e.folio = folio then e.amount else 0

end Entry

/-- The stored entries, oldest first, with the two unique indexes as fields. -/
structure Ledger where
  rows : List Entry
  places : (rows.map Entry.place).Nodup
  keys : (rows.map Entry.key).Nodup

variable {l l' : Ledger} {e : Entry}

namespace Ledger

def empty : Ledger := ⟨[], nodup_nil, nodup_nil⟩

def admits (l : Ledger) (e : Entry) : Bool :=
  !l.rows.any fun x => x.place == e.place || x.key == e.key

theorem admits_iff : l.admits e = true ↔
    e.place ∉ l.rows.map Entry.place ∧ e.key ∉ l.rows.map Entry.key := by
  simp only [admits, Bool.not_eq_true', any_eq_false, Bool.or_eq_true, beq_iff_eq, List.mem_map]
  constructor
  · exact fun h => ⟨fun ⟨x, hx, he⟩ => h x hx (.inl he), fun ⟨x, hx, he⟩ => h x hx (.inr he)⟩
  · exact fun h x hx he => he.elim (fun he => h.1 ⟨x, hx, he⟩) fun he => h.2 ⟨x, hx, he⟩

theorem nodup_append_one {α : Type*} {l : List α} {x : α} (h : l.Nodup) (hx : x ∉ l) :
    (l ++ [x]).Nodup := by
  rw [nodup_append]
  refine ⟨h, nodup_singleton x, fun y hy z hz => ?_⟩
  rw [List.mem_singleton.mp hz]
  rintro rfl
  exact hx hy

def insertOne (l : Ledger) (e : Entry) : Option Ledger :=
  if h : l.admits e = true then
    some
      { rows := l.rows ++ [e]
        places := by
          rw [map_append]
          exact nodup_append_one l.places (admits_iff.mp h).1
        keys := by
          rw [map_append]
          exact nodup_append_one l.keys (admits_iff.mp h).2 }
  else none

theorem insertOne_some (h : l.insertOne e = some l') :
    l.admits e = true ∧ l'.rows = l.rows ++ [e] := by
  simp only [insertOne] at h
  split at h <;> cases h
  exact ⟨by assumption, rfl⟩

theorem insertOne_none (h : l.insertOne e = none) : l.admits e = false := by
  simp only [insertOne] at h
  split at h
  · cases h
  · rename_i hno
    exact Bool.eq_false_iff.mpr hno

def findKey (l : Ledger) (key : Key) : Option Entry := l.rows.find? fun e => e.key == key

def nextSequence (l : Ledger) (tenant folio : ℕ) : ℕ :=
  ((l.rows.filter fun e => e.tenant == tenant && e.folio == folio).map Entry.sequence).foldl max 0 + 1

def markVoided (l : Ledger) (entry reversal : Uuid) : Ledger where
  rows := l.rows.map (·.voided entry reversal)
  places := by simpa [map_map, Function.comp_def] using l.places
  keys := by simpa [map_map, Function.comp_def] using l.keys

def balance (l : Ledger) (tenant folio : ℕ) : ℤ := (l.rows.map (·.moves tenant folio)).sum

theorem balance_insertOne (h : l.insertOne e = some l') (tenant folio : ℕ) :
    l'.balance tenant folio = l.balance tenant folio + e.moves tenant folio := by
  simp [balance, (insertOne_some h).2]

end Ledger

/-- The folios that exist, by tenant and id, and the ledger. -/
structure Store where
  folios : List (ℕ × ℕ)
  ledger : Ledger

variable {s : Store}

namespace Store

def foliosOf (s : Store) (tenant : ℕ) : Finset ℕ :=
  ((s.folios.filter fun f => f.1 == tenant).map Prod.snd).toFinset

def total (s : Store) (tenant : ℕ) : ℤ :=
  ∑ folio ∈ s.foliosOf tenant, s.ledger.balance tenant folio

theorem mem_foliosOf {tenant folio : ℕ} :
    folio ∈ s.foliosOf tenant ↔ (tenant, folio) ∈ s.folios := by
  simp [foliosOf]

/-- An entry moves the sum of the balances by its amount. -/
theorem total_insertOne (h : s.ledger.insertOne e = some l)
    (hfolio : (e.tenant, e.folio) ∈ s.folios) :
    ({ s with ledger := l } : Store).total e.tenant = s.total e.tenant + e.amount := by
  have hmoves (folio : ℕ) : e.moves e.tenant folio = if e.folio = folio then e.amount else 0 := by
    simp [Entry.moves]
  have hsum : (s.foliosOf e.tenant).sum (e.moves e.tenant) = e.amount := by
    simp only [Finset.sum_congr rfl fun folio _ => hmoves folio]
    rw [Finset.sum_ite_eq, if_pos (mem_foliosOf.mpr hfolio)]
  have hbal (folio : ℕ) : l.balance e.tenant folio =
      s.ledger.balance e.tenant folio + e.moves e.tenant folio := Ledger.balance_insertOne h _ _
  change (s.foliosOf e.tenant).sum (l.balance e.tenant) = _
  rw [Finset.sum_congr rfl fun folio _ => hbal folio, Finset.sum_add_distrib, hsum]
  rfl

end Store

end SyrocePms.Folio

/-! The postings on the folio ledger side by side: charges, payments, adjustments, voids
and transfers. A posting reads its sequence number before it inserts its entry, and the
two entries of a transfer are two inserts. -/

namespace SyrocePms.Folio

open Lib

/-- A posting is one of three, which differ in the type and the sign of the entry. -/
inductive PostingKind where
  | charge
  | payment
  | adjustment
  deriving DecidableEq

namespace PostingKind

def type : PostingKind → EntryType
  | .charge => .charge
  | .payment => .payment
  | .adjustment => .adjustment

def signed : PostingKind → ℤ → ℤ
  | .payment, amount => -amount
  | _, amount => amount

end PostingKind

/-- The arguments of `post_charge`, `post_payment` and `post_adjustment`. -/
structure Posting where
  kind : PostingKind
  tenant : ℕ
  folio : ℕ
  amount : ℤ
  key : Option Key := none
  deriving DecidableEq

/-- The arguments of `void_entry`. -/
structure VoidRequest where
  tenant : ℕ
  folio : ℕ
  entry : Uuid
  deriving DecidableEq

/-- The arguments of `transfer`. -/
structure Transfer where
  tenant : ℕ
  source : ℕ
  target : ℕ
  amount : ℤ
  key : Option Key := none
  deriving DecidableEq

/-- `idempotency_key or str(uuid.uuid4())`. -/
def keyOr (key : Option Key) (u : Uuid) : Key := key.getD ⟨.uuid u, []⟩

def Posting.entry (p : Posting) (call sequence : ℕ) : Entry where
  id := .drawn call 0
  tenant := p.tenant
  folio := p.folio
  sequence := sequence
  type := p.kind.type
  amount := p.kind.signed p.amount
  key := keyOr p.key (.drawn call 1)

def VoidRequest.voidEntry (v : VoidRequest) (original : Entry) (call sequence : ℕ) : Entry where
  id := .drawn call 0
  tenant := v.tenant
  folio := v.folio
  sequence := sequence
  type := .void
  amount := -original.amount
  key := ⟨.void v.entry, []⟩

namespace Transfer

def idemKey (a : Transfer) (call : ℕ) : Key := keyOr a.key (.drawn call 2)

def outEntry (a : Transfer) (call sequence : ℕ) : Entry where
  id := .drawn call 0
  tenant := a.tenant
  folio := a.source
  sequence := sequence
  type := .transferOut
  amount := -a.amount
  key := (a.idemKey call).push .out

def inEntry (a : Transfer) (call sequence : ℕ) : Entry where
  id := .drawn call 1
  tenant := a.tenant
  folio := a.target
  sequence := sequence
  type := .transferIn
  amount := a.amount
  key := (a.idemKey call).push .inn

end Transfer

inductive LedgerError where
  | folioNotFound
  | entryNotFound
  | alreadyVoided
  | voidOfVoid
  | duplicateKey
  | interrupted
  deriving DecidableEq

inductive Answer where
  | posted (entry : Uuid) (newBalance : ℤ)
  | transferred (out inn : Uuid)
  | raised (e : LedgerError)
  deriving DecidableEq

/-- What `_insert_entry` answers: the entry of the call, or one under its key. -/
inductive Inserted where
  | own
  | existing (id : Uuid)
  deriving DecidableEq

def Inserted.id (own : Uuid) : Inserted → Uuid
  | .own => own
  | .existing id => id

inductive PostingPc where
  | require
  | sequence
  | insert (n : ℕ)
  | find (n : ℕ)
  | balance (entry : Uuid)
  deriving DecidableEq

inductive VoidPc where
  | require
  | read
  | sequence (original : Entry)
  | insert (original : Entry) (n : ℕ)
  | find (original : Entry) (n : ℕ)
  | mark (entry : Uuid)
  | balance (entry : Uuid)
  deriving DecidableEq

inductive TransferPc where
  | requireSource
  | requireTarget
  | sequenceOut
  | sequenceIn (out : ℕ)
  | insertOut (out inn : ℕ)
  | findOut (out inn : ℕ)
  | insertIn (inn : ℕ) (x : Inserted)
  | findIn (inn : ℕ) (x : Inserted)
  deriving DecidableEq

inductive Call where
  | post (p : Posting)
  | void (v : VoidRequest)
  | transfer (a : Transfer)
  deriving DecidableEq

def Call.tenant : Call → ℕ
  | .post p => p.tenant
  | .void v => v.tenant
  | .transfer a => a.tenant

inductive Pc where
  | post (p : Posting) (pc : PostingPc)
  | void (v : VoidRequest) (pc : VoidPc)
  | transfer (a : Transfer) (pc : TransferPc)
  | returned (a : Answer)
  deriving DecidableEq

/-- A call. `moved` is what its steps have changed the sum of its tenant's balances by. -/
structure Thread where
  call : Call
  pc : Pc
  moved : ℤ := 0
  deriving DecidableEq

def Thread.begin (c : Call) : Thread where
  call := c
  pc := match c with
    | .post p => .post p .require
    | .void v => .void v .require
    | .transfer a => .transfer a .requireSource

namespace Store

def hasFolio (s : Store) (tenant folio : ℕ) : Bool := s.folios.contains (tenant, folio)

/-- `compute_balance`: a folio that is missing raises. -/
def computeBalance (s : Store) (tenant folio : ℕ) : Option ℤ :=
  if s.hasFolio tenant folio then some (s.ledger.balance tenant folio) else none

end Store

/-- `post_charge`, `post_payment` and `post_adjustment`, one operation at a time. -/
def postingStep (call : ℕ) (s : Store) (p : Posting) : PostingPc → Store × Pc
  | .require =>
    (s, if s.hasFolio p.tenant p.folio then .post p .sequence else .returned (.raised .folioNotFound))
  | .sequence => (s, .post p (.insert (s.ledger.nextSequence p.tenant p.folio)))
  | .insert n =>
    match s.ledger.insertOne (p.entry call n) with
    | some l => ({ s with ledger := l }, .post p (.balance (.drawn call 0)))
    | none => (s, .post p (.find n))
  | .find n =>
    (s, match s.ledger.findKey (p.entry call n).key with
      | some x => .post p (.balance x.id)
      | none => .returned (.raised .duplicateKey))
  | .balance entry =>
    (s, match s.computeBalance p.tenant p.folio with
      | some b => .returned (.posted entry b)
      | none => .returned (.raised .folioNotFound))

def voidStep (call : ℕ) (s : Store) (v : VoidRequest) : VoidPc → Store × Pc
  | .require =>
    (s, if s.hasFolio v.tenant v.folio then .void v .read else .returned (.raised .folioNotFound))
  | .read =>
    (s, match s.ledger.rows.find? fun e => e.id == v.entry && e.tenant == v.tenant && e.folio == v.folio with
      | none => .returned (.raised .entryNotFound)
      | some e =>
        if e.voidedBy.isSome then .returned (.raised .alreadyVoided)
        else if e.type = .void then .returned (.raised .voidOfVoid)
        else .void v (.sequence e))
  | .sequence original =>
    (s, .void v (.insert original (s.ledger.nextSequence v.tenant v.folio)))
  | .insert original n =>
    match s.ledger.insertOne (v.voidEntry original call n) with
    | some l => ({ s with ledger := l }, .void v (.mark (.drawn call 0)))
    | none => (s, .void v (.find original n))
  | .find original n =>
    (s, match s.ledger.findKey (v.voidEntry original call n).key with
      | some x => .void v (.mark x.id)
      | none => .returned (.raised .duplicateKey))
  | .mark entry => ({ s with ledger := s.ledger.markVoided v.entry entry }, .void v (.balance entry))
  | .balance entry =>
    (s, match s.computeBalance v.tenant v.folio with
      | some b => .returned (.posted entry b)
      | none => .returned (.raised .folioNotFound))

/-- `transfer`, one operation at a time. -/
def transferStep (call : ℕ) (s : Store) (a : Transfer) : TransferPc → Store × Pc
  | .requireSource =>
    (s, if s.hasFolio a.tenant a.source then .transfer a .requireTarget
      else .returned (.raised .folioNotFound))
  | .requireTarget =>
    (s, if s.hasFolio a.tenant a.target then .transfer a .sequenceOut
      else .returned (.raised .folioNotFound))
  | .sequenceOut => (s, .transfer a (.sequenceIn (s.ledger.nextSequence a.tenant a.source)))
  | .sequenceIn out => (s, .transfer a (.insertOut out (s.ledger.nextSequence a.tenant a.target)))
  | .insertOut out inn =>
    match s.ledger.insertOne (a.outEntry call out) with
    | some l => ({ s with ledger := l }, .transfer a (.insertIn inn .own))
    | none => (s, .transfer a (.findOut out inn))
  | .findOut out inn =>
    (s, match s.ledger.findKey (a.outEntry call out).key with
      | some x => .transfer a (.insertIn inn (.existing x.id))
      | none => .returned (.raised .duplicateKey))
  | .insertIn inn x =>
    match s.ledger.insertOne (a.inEntry call inn) with
    | some l =>
      ({ s with ledger := l }, .returned (.transferred (x.id (.drawn call 0)) (.drawn call 1)))
    | none => (s, .transfer a (.findIn inn x))
  | .findIn inn x =>
    (s, match s.ledger.findKey (a.inEntry call inn).key with
      | some y => .returned (.transferred (x.id (.drawn call 0)) y.id)
      | none => .returned (.raised .duplicateKey))

def advance (call : ℕ) (s : Store) : Pc → Option (Store × Pc)
  | .post p pc => some (postingStep call s p pc)
  | .void v pc => some (voidStep call s v pc)
  | .transfer a pc => some (transferStep call s a pc)
  | .returned _ => none

inductive Move where
  | advance
  | stop

/-- A call that is stopped by an exception or a crash writes nothing more. -/
def Thread.step (call : ℕ) (s : Store) (t : Thread) : Move → Option (Store × Thread)
  | .advance => (Folio.advance call s t.pc).map fun r =>
    (r.1, { t with pc := r.2, moved := t.moved + (r.1.total t.call.tenant - s.total t.call.tenant) })
  | .stop =>
    match t.pc with
    | .returned _ => none
    | _ => some (s, { t with pc := .returned (.raised .interrupted) })

def calls : Program Store Thread Empty Call Move where
  init _ := True
  env _ e := nomatch e
  call _ c := some (.begin c)
  step k s t m := t.step k s m

end SyrocePms.Folio

/-! What one operation of a call does to the ledger: nothing, one new entry, or the mark of
a void. What is stored of an entry beside that mark stays for good. -/

namespace SyrocePms.Folio

/-- How many of the ids for its entries a call may have used. -/
def Pc.used : Pc → ℕ
  | .post _ (.balance _) => 2
  | .post _ _ => 0
  | .void _ (.mark _) => 2
  | .void _ (.balance _) => 2
  | .void _ _ => 0
  | .transfer _ (.insertIn _ _) => 1
  | .transfer _ (.findIn _ _) => 1
  | .transfer _ _ => 0
  | .returned _ => 2

/-- What a step of a call does, which goes from `pc` to `pc'`. An entry that is inserted has
an id of the call that was not used yet. -/
inductive Effect (call : ℕ) (s : Store) (pc pc' : Pc) : Store → Prop
  | none : Effect call s pc pc' s
  | insert (e : Entry) (l : Ledger) (slot : ℕ) (stored : s.ledger.insertOne e = some l)
      (id : e.id = .drawn call slot) (unused : pc.used ≤ slot) (used : slot < pc'.used)
      (unmarked : e.voidedBy = Option.none)
      (void : e.type = .void → ∃ v original n, pc = .void v (.insert original n) ∧
        e = v.voidEntry original call n ∧ pc' = .void v (.mark e.id)) :
      Effect call s pc pc' { s with ledger := l }
  | mark (v : VoidRequest) (x : Uuid) (here : pc = .void v (.mark x))
      (next : pc' = .void v (.balance x)) :
      Effect call s pc pc' { s with ledger := s.ledger.markVoided v.entry x }

variable {call : ℕ} {s s' : Store} {t t' : Thread} {m : Move}
variable {e e' x : Entry} {l : Ledger}

theorem postingStep_effect (p : Posting) (pc : PostingPc) :
    Effect call s (.post p pc) (postingStep call s p pc).2 (postingStep call s p pc).1 := by
  cases pc with
  | insert n =>
    simp only [postingStep]
    split
    · rename_i l hl
      refine .insert _ l 0 hl rfl (Nat.le_refl 0) Nat.two_pos rfl fun hv => ?_
      cases hk : p.kind <;> simp [Posting.entry, PostingKind.type, hk] at hv
    · exact .none
  | _ => exact .none

theorem voidStep_effect (v : VoidRequest) (pc : VoidPc) :
    Effect call s (.void v pc) (voidStep call s v pc).2 (voidStep call s v pc).1 := by
  cases pc with
  | insert original n =>
    simp only [voidStep]
    split
    · rename_i l hl
      exact .insert _ l 0 hl rfl (Nat.le_refl 0) Nat.two_pos rfl
        fun _ => ⟨v, original, n, rfl, rfl, rfl⟩
    · exact .none
  | mark x => exact .mark v x rfl rfl
  | _ => exact .none

theorem transferStep_effect (a : Transfer) (pc : TransferPc) :
    Effect call s (.transfer a pc) (transferStep call s a pc).2 (transferStep call s a pc).1 := by
  cases pc with
  | insertOut out inn =>
    simp only [transferStep]
    split
    · rename_i l hl
      exact .insert _ l 0 hl rfl (Nat.le_refl 0) Nat.one_pos rfl (fun hv => by cases hv)
    · exact .none
  | insertIn inn x =>
    simp only [transferStep]
    split
    · rename_i l hl
      exact .insert _ l 1 hl rfl (Nat.le_refl 1) (Nat.lt_succ_self 1) rfl (fun hv => by cases hv)
    · exact .none
  | _ => exact .none

theorem step_effect (h : t.step call s m = some (s', t')) :
    t'.call = t.call ∧ Effect call s t.pc t'.pc s' := by
  obtain ⟨c, pc, moved⟩ := t
  cases m with
  | advance =>
    obtain ⟨r, hadv, heq⟩ := Option.map_eq_some_iff.mp h
    cases heq
    refine ⟨rfl, ?_⟩
    cases pc with
    | post p pc =>
      cases hadv
      exact postingStep_effect p pc
    | void v pc =>
      cases hadv
      exact voidStep_effect v pc
    | transfer a pc =>
      cases hadv
      exact transferStep_effect a pc
    | returned r => cases hadv
  | stop =>
    cases pc with
    | returned r => cases h
    | _ =>
      cases h
      exact ⟨rfl, .none⟩

theorem used_mono (h : t.step call s m = some (s', t')) : t.pc.used ≤ t'.pc.used := by
  obtain ⟨c, pc, moved⟩ := t
  cases m with
  | advance =>
    obtain ⟨r, hadv, heq⟩ := Option.map_eq_some_iff.mp h
    cases heq
    cases pc with
    | post p pc =>
      cases hadv
      cases pc <;> simp only [postingStep] <;> (repeat' split) <;> simp [Pc.used]
    | void v pc =>
      cases hadv
      cases pc <;> simp only [voidStep] <;> (repeat' split) <;> simp [Pc.used]
    | transfer a pc =>
      cases hadv
      cases pc <;> simp only [transferStep] <;> (repeat' split) <;> simp [Pc.used]
    | returned r => cases hadv
  | stop =>
    cases pc with
    | returned r => cases h
    | post p pc => cases h; cases pc <;> simp [Pc.used]
    | void v pc => cases h; cases pc <;> simp [Pc.used]
    | transfer a pc => cases h; cases pc <;> simp [Pc.used]

/-! ### What stays of an entry -/

/-- Two states of one entry, which differ in its mark alone. -/
structure Entry.Same (e e' : Entry) : Prop where
  id : e'.id = e.id
  place : e'.place = e.place
  type : e'.type = e.type
  amount : e'.amount = e.amount
  key : e'.key = e.key
  marked : e.voidedBy.isSome → e'.voidedBy.isSome

theorem Entry.Same.refl (e : Entry) : e.Same e := ⟨rfl, rfl, rfl, rfl, rfl, fun h => h⟩

theorem Entry.same_voided (e : Entry) (entry reversal : Uuid) : e.Same (e.voided entry reversal) := by
  simp only [Entry.voided]
  split
  · exact ⟨rfl, rfl, rfl, rfl, rfl, fun _ => rfl⟩
  · exact .refl e

theorem Entry.Same.tenant (h : e.Same e') : e'.tenant = e.tenant :=
  congrArg Prod.fst h.place

theorem Entry.Same.folio (h : e.Same e') : e'.folio = e.folio :=
  congrArg (fun p => p.2.1) h.place

def Ledger.Grows (l l' : Ledger) : Prop := ∀ e ∈ l.rows, ∃ e' ∈ l'.rows, e.Same e'

theorem Ledger.mem_insertOne {l' : Ledger} (h : l.insertOne e = some l') :
    x ∈ l'.rows ↔ x ∈ l.rows ∨ x = e := by
  rw [(Ledger.insertOne_some h).2, List.mem_append, List.mem_singleton]

theorem Ledger.mem_markVoided {entry reversal : Uuid} :
    x ∈ (l.markVoided entry reversal).rows ↔ ∃ e ∈ l.rows, e.voided entry reversal = x :=
  List.mem_map

theorem Effect.grows {pc pc' : Pc} (h : Effect call s pc pc' s') : s.ledger.Grows s'.ledger := by
  intro e he
  cases h with
  | none => exact ⟨e, he, .refl e⟩
  | insert x l slot hins => exact ⟨e, (Ledger.mem_insertOne hins).mpr (.inl he), .refl e⟩
  | mark v x =>
    exact ⟨e.voided v.entry x, Ledger.mem_markVoided.mpr ⟨e, he, rfl⟩, e.same_voided v.entry x⟩

theorem Ledger.eq_of_key (h : e ∈ l.rows) (h' : e' ∈ l.rows) (hk : e.key = e'.key) : e = e' :=
  List.inj_on_of_nodup_map l.keys h h' hk

theorem Ledger.key_of_findKey {key : Key} (h : l.findKey key = some e) :
    e ∈ l.rows ∧ e.key = key :=
  ⟨List.mem_of_find?_eq_some h, by simpa using List.find?_some h⟩

end SyrocePms.Folio
