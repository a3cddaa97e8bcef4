import Mathlib.Data.List.MinMax
import SyrocePms.Ledger.IntegrityChain

/-! `journal_integrity_audit`: for each fiscal year it goes through the ordinals from the
first to the last, and computes the hashes of the chain again. -/

namespace SyrocePms.Ledger.Seal

open Lib List

variable {H : Type}
variable {s : Store H} {fiscalYear : Option ℕ} {e : SealedEntry H} {r : Reservation} {n year : ℕ}
  {hashes : Hashes H}

inductive Issue where
  | sealedEntrySequenceMissing (entry : ℕ)
  | sequenceReservationMissing (fiscalYear sequence : ℕ)
  | sequenceNotFinal (fiscalYear sequence : ℕ) (status : ReservationStatus)
  | postedEntryMissing (fiscalYear sequence : ℕ)
  | predecessorHashMismatch (no : EntryNo) (fiscalYear sequence : ℕ)
  | entryHashMismatch (no : EntryNo) (fiscalYear sequence : ℕ)
  | duplicateEntryNumber (numbers : List EntryNo)
  | demoLegacyReviewInvalid

structure Rows (H : Type) where
  entries : List (SealedEntry H)
  reservations : List Reservation
  counters : List Counter

def Store.read (s : Store H) (fiscalYear : Option ℕ) : Rows H where
  entries := (s.entries.rows.filter fun e => fiscalYear.all (· == e.fiscalYear)).take 100000
  reservations :=
    (s.reservations.rows.filter fun r => fiscalYear.all (· == r.fiscalYear)).take 100000
  counters := (s.counters.rows.filter fun c => fiscalYear.all (· == c.fiscalYear)).take 1000

namespace SealedEntry

def unnumbered (e : SealedEntry H) : Bool := e.sequence.getD 0 == 0

end SealedEntry

namespace Rows

variable (rows : Rows H)

/-- Of two rows under one key the later counts. -/
def entryAt (year n : ℕ) : Option (SealedEntry H) := rows.entries.reverse.find? (·.isAt year n)

def reservationAt (year n : ℕ) : Option Reservation :=
  rows.reservations.reverse.find? (·.key == (year, n))

def counter (year : ℕ) : ℕ :=
  ((rows.counters.reverse.find? (·.fiscalYear == year)).map Counter.value).getD 0

def years : List ℕ :=
  ((rows.counters.map Counter.fiscalYear ++
    (rows.entries.filter (!·.unnumbered)).map SealedEntry.fiscalYear ++
    rows.reservations.map Reservation.fiscalYear).dedup).insertionSort (· ≤ ·)

def maxSequence (year : ℕ) : ℕ :=
  ([rows.counter year] ++
    (rows.entries.filter (·.fiscalYear == year)).map (·.sequence.getD 0) ++
    (rows.reservations.filter (·.fiscalYear == year)).map Reservation.sequence).foldr max 0

end Rows

/-- What the loop over the ordinals carries. -/
structure Scan (H : Type) where
  last : H
  issues : List Issue
  legacyUnsealed : List EntryNo
  posted : ℕ := 0
  sealedEntries : ℕ := 0
  void : ℕ := 0

namespace Scan

variable (acc : Scan H)

def report (issue : Issue) : Scan H := { acc with issues := acc.issues ++ [issue] }

def reportIf (p : Prop) [Decidable p] (issue : Issue) : Scan H := if p then acc.report issue else acc

end Scan

section Scanning

variable [DecidableEq H] (hashes : Hashes H) (rows : Rows H)

def scanEntry (year n : ℕ) (acc : Scan H) (e : SealedEntry H) : Scan H :=
  match e.hash with
  | none =>
    { acc with
      legacyUnsealed := acc.legacyUnsealed ++ [e.no]
      last := hashes.journalEntry e.payload }
  | some hash =>
    let acc := { acc with sealedEntries := acc.sealedEntries + 1 }
    let acc := acc.reportIf (e.payload.previousHash ≠ some acc.last)
      (.predecessorHashMismatch e.no year n)
    let acc := acc.reportIf (hash ≠ hashes.journalEntry e.payload) (.entryHashMismatch e.no year n)
    { acc with last := hash }

def scanOrdinal (year : ℕ) (acc : Scan H) (n : ℕ) : Scan H :=
  match rows.reservationAt year n with
  | none => acc.report (.sequenceReservationMissing year n)
  | some r =>
    match r.status with
    | .void =>
      { acc with
        void := acc.void + 1
        last := hashes.sequenceVoid r.fiscalYear r.sequence r.voidReason }
    | .reserved => acc.report (.sequenceNotFinal year n r.status)
    | .posted =>
      let acc := { acc with posted := acc.posted + 1 }
      match rows.entryAt year n with
      | none => acc.report (.postedEntryMissing year n)
      | some e => scanEntry hashes year n acc e

def scanYear (acc : Scan H) (year : ℕ) : Scan H :=
  (List.range' 1 (rows.maxSequence year)).foldl (scanOrdinal hashes rows year)
    { acc with last := hashes.genesis }

end Scanning

def repeatedNumbers (seen : List EntryNo) : List EntryNo → List EntryNo
  | [] => []
  | no :: nos =>
    if no ∈ seen then no :: repeatedNumbers seen nos else repeatedNumbers (no :: seen) nos

structure IntegrityReport where
  fiscalYear : Option ℕ
  healthy : Bool
  fullySealed : Bool
  posted : ℕ
  sealedEntries : ℕ
  legacyUnsealed : ℕ
  void : ℕ
  issueCount : ℕ
  legacyUnsealedEntries : List EntryNo
  issues : List Issue

/-- `journal_integrity_audit`. `review` says whether the review of the legacy entries of the
demo tenant is valid; the other tenants have none. -/
def journalIntegrityAudit [DecidableEq H] (hashes : Hashes H) (s : Store H)
    (fiscalYear : Option ℕ) (review : Bool) : IntegrityReport :=
  let rows := s.read fiscalYear
  let start : Scan H :=
    { last := hashes.genesis
      issues := (rows.entries.filter fun e => e.hash.isSome && e.unnumbered).map fun e =>
        .sealedEntrySequenceMissing e.payload.id
      legacyUnsealed := (rows.entries.filter fun e => e.hash.isNone && e.unnumbered).map (·.no) }
  let scan := rows.years.foldl (scanYear hashes rows) start
  let repeated := repeatedNumbers [] (rows.entries.map (·.no))
  let scan := scan.reportIf (repeated ≠ []) (.duplicateEntryNumber (repeated.dedup.take 100))
  let scan := scan.reportIf (fiscalYear.all (· == 2026) = true ∧ review = false)
    .demoLegacyReviewInvalid
  { fiscalYear := fiscalYear
    healthy := scan.issues.isEmpty
    fullySealed := scan.issues.isEmpty && scan.legacyUnsealed.isEmpty
    posted := scan.posted
    sealedEntries := scan.sealedEntries
    legacyUnsealed := scan.legacyUnsealed.length
    void := scan.void
    issueCount := scan.issues.length
    legacyUnsealedEntries := scan.legacyUnsealed.take 100
    issues := scan.issues.take 500 }

/-! ### What the audit reads -/

/-- The audit reads no more rows than it asks for. -/
def Store.inCaps (s : Store H) : Prop :=
  s.entries.rows.length ≤ 100000 ∧ s.reservations.rows.length ≤ 100000

theorem mem_read_entries (h : e ∈ (s.read fiscalYear).entries) : e ∈ s.entries :=
  (mem_filter.mp (mem_of_mem_take h)).1

theorem mem_read_reservations (h : r ∈ (s.read fiscalYear).reservations) : r ∈ s.reservations :=
  (mem_filter.mp (mem_of_mem_take h)).1

theorem mem_read_counters {c : Counter} (h : c ∈ (s.read fiscalYear).counters) : c ∈ s.counters :=
  (mem_filter.mp (mem_of_mem_take h)).1

theorem read_entries (hcap : s.inCaps) (fiscalYear : Option ℕ) :
    (s.read fiscalYear).entries = s.entries.rows.filter fun e => fiscalYear.all (· == e.fiscalYear) :=
  take_of_length_le ((length_filter_le _ _).trans hcap.1)

theorem read_reservations (hcap : s.inCaps) (fiscalYear : Option ℕ) :
    (s.read fiscalYear).reservations =
      s.reservations.rows.filter fun r => fiscalYear.all (· == r.fiscalYear) :=
  take_of_length_le ((length_filter_le _ _).trans hcap.2)

theorem all_of_mem_years (h : year ∈ (s.read fiscalYear).years) :
    fiscalYear.all (· == year) = true := by
  rw [Rows.years, mem_insertionSort, mem_dedup, mem_append, mem_append] at h
  obtain (h | h) | h := h
  · obtain ⟨c, hc, rfl⟩ := mem_map.mp h
    exact (mem_filter.mp (mem_of_mem_take hc)).2
  · obtain ⟨e, he, rfl⟩ := mem_map.mp h
    have hread := (mem_filter.mp he).1
    exact (mem_filter.mp (mem_of_mem_take hread)).2
  · obtain ⟨r, hr, rfl⟩ := mem_map.mp h
    exact (mem_filter.mp (mem_of_mem_take hr)).2

/-- A search that only one row can answer finds the row. -/
theorem find?_reverse {α : Type} {l : List α} {p : α → Bool} {x : α} (hx : x ∈ l)
    (hp : p x = true) (huniq : ∀ y ∈ l, p y = true → y = x) : l.reverse.find? p = some x := by
  cases h : l.reverse.find? p with
  | none => exact absurd hp (find?_eq_none.mp h x (mem_reverse.mpr hx))
  | some y =>
    have hy := mem_reverse.mp (mem_of_find?_eq_some h)
    rw [huniq y hy (find?_some h)]

theorem read_reservationAt (hcap : s.inCaps) (hy : fiscalYear.all (· == year) = true)
    (hr : r ∈ s.reservations) (hk : r.key = (year, n)) :
    (s.read fiscalYear).reservationAt year n = some r := by
  have hyear : r.fiscalYear = year := congrArg Prod.fst hk
  refine find?_reverse ?_ (beq_iff_eq.mpr hk) fun r' hr' hk' =>
    Collection.eq_of_key (mem_read_reservations hr') hr ((beq_iff_eq.mp hk').trans hk.symm)
  rw [read_reservations hcap]
  exact mem_filter.mpr ⟨hr, by rw [hyear]; exact hy⟩

theorem read_entryAt (hs : Chained hashes s) (hcap : s.inCaps)
    (hy : fiscalYear.all (· == year) = true) (he : e ∈ s.entries) (hat : e.isAt year n = true) :
    (s.read fiscalYear).entryAt year n = some e := by
  refine find?_reverse ?_ hat fun e' he' hat' => hs.eq_of_isAt (mem_read_entries he') he hat' hat
  rw [read_entries hcap]
  exact mem_filter.mpr ⟨he, by rw [(isAt_iff.mp hat).1]; exact hy⟩

/-- No ordinal that the audit looks at is above the counter. -/
theorem maxSequence_le (hs : Chained hashes s) (fiscalYear : Option ℕ) (year : ℕ) :
    (s.read fiscalYear).maxSequence year ≤ s.counter year := by
  refine max_le_of_forall_le _ _ fun n hn => ?_
  rw [mem_append, mem_append, mem_singleton] at hn
  obtain (rfl | hn) | hn := hn
  · unfold Rows.counter
    cases hc : (s.read fiscalYear).counters.reverse.find? (·.fiscalYear == year) with
    | none => exact Nat.zero_le _
    | some c =>
      have hmem := mem_read_counters (mem_reverse.mp (mem_of_find?_eq_some hc))
      have hyear : c.fiscalYear = year := by simpa using find?_some hc
      rw [Store.counter, Collection.get?_eq_some.mpr ⟨hmem, hyear⟩]
  · obtain ⟨e, he, rfl⟩ := mem_map.mp hn
    obtain ⟨he, hyear⟩ := mem_filter.mp he
    cases hseq : e.sequence with
    | none => exact Nat.zero_le _
    | some n =>
      obtain ⟨-, r, hr, hk⟩ := hs.numbered e (mem_read_entries he) n hseq
      have hle := (hs.counted r hr).2
      have hfy : r.fiscalYear = e.fiscalYear := congrArg Prod.fst hk
      have hn : r.sequence = n := congrArg Prod.snd hk
      rw [hfy, beq_iff_eq.mp hyear, hn] at hle
      exact hle
  · obtain ⟨r, hr, rfl⟩ := mem_map.mp hn
    obtain ⟨hr, hyear⟩ := mem_filter.mp hr
    have hle := (hs.counted r (mem_read_reservations hr)).2
    rw [beq_iff_eq.mp hyear] at hle
    exact hle

/-! ### The loop over the ordinals -/

variable {acc : Scan H}

section Clean

variable [DecidableEq H] {hashes : Hashes H} {s : Store H}

theorem scanOrdinal_clean (hs : Chained hashes s) (hcap : s.inCaps)
    (hy : fiscalYear.all (· == year) = true) (hlast : HashAt hashes s year (n - 1) acc.last)
    (hset : Settled s (year, n)) :
    (scanOrdinal hashes (s.read fiscalYear) year acc n).issues = acc.issues ∧
      HashAt hashes s year n (scanOrdinal hashes (s.read fiscalYear) year acc n).last := by
  obtain ⟨r, hr, hk, hfinal⟩ := hset
  have hyear : r.fiscalYear = year := congrArg Prod.fst hk
  have hseq : r.sequence = n := congrArg Prod.snd hk
  rw [scanOrdinal, read_reservationAt hcap hy hr hk]
  cases hst : r.status with
  | reserved => simp [Reservation.isFinal, hst] at hfinal
  | void =>
    simp only [hst, hyear, hseq]
    exact ⟨trivial, .void hr hk hst⟩
  | posted =>
    obtain ⟨e, he, hat⟩ := hs.posted r hr hst
    rw [hyear, hseq] at hat
    obtain ⟨hey, hes⟩ := isAt_iff.mp hat
    obtain ⟨hhash, h, hprev, hh⟩ := hs.sealed e he n hes
    rw [hey] at hh
    have hsame : e.payload.previousHash = some acc.last := by rw [hprev, hh.unique hs hlast]
    have hseal : e.sealOf hashes = hashes.journalEntry e.payload := by
      rw [SealedEntry.sealOf, hhash]
      rfl
    simp only [hst, read_entryAt hs hcap hy he hat, scanEntry, hhash, hsame, Scan.reportIf, ne_eq,
      not_true_eq_false, if_false]
    exact ⟨trivial, hseal ▸ .posted hr hk hst he hat⟩

theorem scanOrdinals_clean (hs : Chained hashes s) (hcap : s.inCaps)
    (hy : fiscalYear.all (· == year) = true) (hlast : HashAt hashes s year 0 acc.last)
    (hset : ∀ m, 1 ≤ m → m ≤ n → Settled s (year, m)) :
    ((List.range' 1 n).foldl (scanOrdinal hashes (s.read fiscalYear) year) acc).issues =
        acc.issues ∧
      HashAt hashes s year n
        ((List.range' 1 n).foldl (scanOrdinal hashes (s.read fiscalYear) year) acc).last := by
  induction n with
  | zero => exact ⟨rfl, hlast⟩
  | succ n ih =>
    obtain ⟨hissues, hhash⟩ := ih fun m hm hle => hset m hm (Nat.le_succ_of_le hle)
    rw [range'_concat, foldl_append, Nat.mul_comm, Nat.mul_one, Nat.add_comm]
    have hone := hset (n + 1) (Nat.succ_le_succ (Nat.zero_le _)) (Nat.le_refl _)
    have hlast' : HashAt hashes s year (n + 1 - 1)
        ((List.range' 1 n).foldl (scanOrdinal hashes (s.read fiscalYear) year) acc).last := hhash
    obtain ⟨hstep, hnext⟩ := scanOrdinal_clean hs hcap hy hlast' hone
    exact ⟨hstep.trans hissues, hnext⟩

theorem scanYears_clean (hs : Chained hashes s) (hcap : s.inCaps)
    (hset : ∀ year n, 1 ≤ n → n ≤ s.counter year → Settled s (year, n)) {years : List ℕ}
    (hy : ∀ year ∈ years, fiscalYear.all (· == year) = true) (acc : Scan H) :
    (years.foldl (scanYear hashes (s.read fiscalYear)) acc).issues = acc.issues := by
  induction years generalizing acc with
  | nil => rfl
  | cons year years ih =>
    have hrest := ih (fun y h => hy y (mem_cons_of_mem _ h))
      (scanYear hashes (s.read fiscalYear) acc year)
    have hyear : (scanYear hashes (s.read fiscalYear) acc year).issues = acc.issues :=
      (scanOrdinals_clean hs hcap (hy year mem_cons_self) .genesis fun m hm hle =>
        hset year m hm (hle.trans (maxSequence_le hs fiscalYear year))).1
    exact hrest.trans hyear

end Clean

theorem repeatedNumbers_eq_nil {seen nos : List EntryNo} (hnodup : nos.Nodup)
    (hdisj : ∀ no ∈ nos, no ∉ seen) : repeatedNumbers seen nos = [] := by
  induction nos generalizing seen with
  | nil => rfl
  | cons no nos ih =>
    obtain ⟨hno, hnodup⟩ := nodup_cons.mp hnodup
    rw [repeatedNumbers, if_neg (hdisj no mem_cons_self)]
    refine ih hnodup fun no' hno' hmem => ?_
    obtain rfl | hmem := mem_cons.mp hmem
    · exact hno hno'
    · exact hdisj no' (mem_cons_of_mem _ hno') hmem

theorem Chained.unnumbered (hs : Chained hashes s) (he : e ∈ s.entries) (hun : e.unnumbered = true) :
    e.hash = none := by
  cases hseq : e.sequence with
  | none => exact hs.legacy e he hseq
  | some n =>
    obtain ⟨-, r, hr, hk⟩ := hs.numbered e he n hseq
    have hpos := (hs.counted r hr).1
    have hn : r.sequence = n := congrArg Prod.snd hk
    have hzero : n = 0 := by simpa [SealedEntry.unnumbered, hseq] using hun
    omega

theorem journalIntegrityAudit_clean [DecidableEq H] (hs : Chained hashes s) (hcap : s.inCaps)
    (hset : ∀ year n, 1 ≤ n → n ≤ s.counter year → Settled s (year, n)) (fiscalYear : Option ℕ) :
    (journalIntegrityAudit hashes s fiscalYear true).issues = [] ∧
      (journalIntegrityAudit hashes s fiscalYear true).healthy = true := by
  have hsealed : ((s.read fiscalYear).entries.filter fun e => e.hash.isSome && e.unnumbered) = [] := by
    refine filter_eq_nil_iff.mpr fun e he hun => ?_
    rw [Bool.and_eq_true] at hun
    rw [hs.unnumbered (mem_read_entries he) hun.2] at hun
    exact nomatch hun.1
  have hnodup : ((s.read fiscalYear).entries.map (·.no)).Nodup :=
    s.entries.unique.sublist (((take_sublist _ _).trans filter_sublist).map _)
  have hrepeated := repeatedNumbers_eq_nil hnodup fun no _ => not_mem_nil
  have hscan (acc : Scan H) : ((s.read fiscalYear).years.foldl
      (scanYear hashes (s.read fiscalYear)) acc).issues = acc.issues :=
    scanYears_clean hs hcap hset (fun _ h => all_of_mem_years h) acc
  simp only [journalIntegrityAudit, hsealed, hrepeated, Scan.reportIf, ne_eq, not_true_eq_false,
    if_false, Bool.true_eq_false, and_false, hscan, map_nil, take_nil]
  exact ⟨trivial, rfl⟩

/-- When no post is in flight, the audit reports no issue: an ordinal has one entry at most,
every ordinal that was drawn is posted or void, and an entry was sealed after the hash of the
ordinal before its own. -/
theorem integrity_audit_healthy [DecidableEq H] {hashes : Hashes H}
    {p : Pool (Store H) (Thread H)} (hp : (posts hashes).machine.Reach Faultless p)
    (hover : ∀ t ∈ p.threads, t.pc.over = true) :
    (p.store.inCaps → ∀ fiscalYear,
      (journalIntegrityAudit hashes p.store fiscalYear true).issues = [] ∧
        (journalIntegrityAudit hashes p.store fiscalYear true).healthy = true) ∧
      (∀ e ∈ p.store.entries, ∀ e' ∈ p.store.entries, ∀ year n, e.isAt year n = true →
        e'.isAt year n = true → e = e') ∧
      (∀ year n, 1 ≤ n → n ≤ p.store.counter year → Settled p.store (year, n)) ∧
      ∀ e ∈ p.store.entries, ∀ n, e.sequence = some n → ∃ h, e.payload.previousHash = some h ∧
        HashAt hashes p.store e.fiscalYear (n - 1) h := by
  have hs : Chained hashes p.store :=
    (posts_preserves.reach (hp.mono fun _ _ h => h.settles)).store
  have hset : ∀ year n, 1 ≤ n → n ≤ p.store.counter year → Settled p.store (year, n) :=
    fun _ _ hn hle => settled_of_over hp hover hn hle
  refine ⟨fun hcap year => journalIntegrityAudit_clean hs hcap hset year, ?_, hset, ?_⟩
  · intro e he e' he' year n hat hat'
    exact hs.eq_of_isAt he he' hat hat'
  · intro e he n hn
    exact (hs.sealed e he n hn).2

/-! ### Beyond the caps -/

section Beyond

variable [DecidableEq H] (hashes : Hashes H) (rows : Rows H)

end Beyond

/-! ### A post that loses its key -/

/-- The entry before in the chain is the one of the nearest lower ordinal that has an entry. -/
def FollowsPosted (s : Store H) : Prop :=
  ∀ e ∈ s.entries, ∀ n, e.sequence = some n → ∀ e' ∈ s.entries, ∀ m, m < n →
    e'.isAt e.fiscalYear m = true →
    (∀ x ∈ s.entries, ∀ k, m < k → k < n → x.isAt e.fiscalYear k = false) →
    e.payload.previousHash = e'.hash

def cashSale (key : Option Key) : Job where
  date := 20260115
  source := .other 1
  lines := [⟨100, 50, 0, .text 1⟩, ⟨600, 0, 50, .text 1⟩]
  key := key

def ordinalHashes : Hashes ℕ where
  genesis := 0
  journalEntry x := 2 * x.sequence.getD 0 + 1
  sequenceVoid _ n _ := 2 * n

def twoAccounts : Store ℕ where
  periods := .empty
  accounts := cashAndSales
  entries := .empty
  counters := .empty
  reservations := .empty
  nextId := 1

/-- Two posts under one key look for an entry before either has inserted one, and a third
post follows them. -/
def keyRace : List (Act Setup Job Move) :=
  [.call (cashSale (some (.other 1))), .call (cashSale (some (.other 1))), .call (cashSale none)] ++
    List.replicate 3 (.step 1 .advance) ++ List.replicate 8 (.step 0 .advance) ++
    List.replicate 7 (.step 1 .advance) ++ List.replicate 8 (.step 2 .advance)

/-- Year, ordinal and hashes of an entry. -/
structure Link where
  year : ℕ
  sequence : Option ℕ
  previousHash : Option ℕ
  hash : Option ℕ
  deriving DecidableEq

def SealedEntry.link (e : SealedEntry ℕ) : Link :=
  ⟨e.fiscalYear, e.sequence, e.payload.previousHash, e.hash⟩

/-- The entries, the number of reservations, and whether no post is in flight. -/
def observed (p : Pool (Store ℕ) (Thread ℕ)) : List Link × ℕ × Bool :=
  (p.store.entries.rows.map (·.link), p.store.reservations.rows.length, p.threads.all (·.pc.over))

theorem keyRace_reaches : ∃ p, (posts ordinalHashes).machine.Reach Faultless p ∧
    observed p = ([⟨2026, some 1, some 0, some 3⟩, ⟨2026, some 3, some 4, some 7⟩], 3, true) := by
  refine Machine.exists_reach_of_runUnder (s := ⟨twoAccounts, []⟩) keyRace ⟨⟨rfl, rfl, ?_, ?_⟩, rfl⟩
    (by decide +kernel)
  · exact fun e he => absurd he Collection.not_mem_empty
  · exact fun e he => absurd he Collection.not_mem_empty

/-- The ordinal of the post that lost its key is void, and the third entry was sealed after
the hash of the void. -/
theorem void_breaks_followsPosted : ∃ p : Pool (Store ℕ) (Thread ℕ),
    (posts ordinalHashes).machine.Reach Faultless p ∧ (∀ t ∈ p.threads, t.pc.over = true) ∧
      ¬ FollowsPosted p.store := by
  obtain ⟨p, hp, hobs⟩ := keyRace_reaches
  have hrows := congrArg Prod.fst hobs
  have hover : p.threads.all (·.pc.over) = true := congrArg (fun x => x.2.2) hobs
  refine ⟨p, hp, all_eq_true.mp hover, fun h => ?_⟩
  have hat (x : Link) (hx : x ∈ (observed p).1) : ∃ e ∈ p.store.entries, e.link = x :=
    mem_map.mp hx
  obtain ⟨e, he, hlink⟩ := hat ⟨2026, some 3, some 4, some 7⟩ (by rw [hrows]; decide)
  obtain ⟨e', he', hlink'⟩ := hat ⟨2026, some 1, some 0, some 3⟩ (by rw [hrows]; decide)
  have hyear : e.fiscalYear = 2026 := congrArg Link.year hlink
  have hyear' : e'.fiscalYear = 2026 := congrArg Link.year hlink'
  have hprevious : e.payload.previousHash = some 4 := congrArg Link.previousHash hlink
  have hhash : e'.hash = some 3 := congrArg Link.hash hlink'
  -- between the ordinals of the two entries there is only the void one
  have hgap : ∀ x ∈ p.store.entries, ∀ k, 1 < k → k < 3 → x.isAt e.fiscalYear k = false := by
    intro x hx k hk hk'
    have hmem : x.link ∈ (observed p).1 := mem_map.mpr ⟨x, hx, rfl⟩
    rw [hrows, mem_cons, mem_singleton] at hmem
    refine Bool.eq_false_iff.mpr fun hxk => ?_
    have hseq : x.link.sequence = some k := (isAt_iff.mp hxk).2
    obtain hmem | hmem := hmem <;> rw [hmem] at hseq <;> cases hseq <;> omega
  have hfollows := h e he 3 (congrArg Link.sequence hlink) e' he' 1 (by decide)
    (isAt_iff.mpr ⟨hyear'.trans hyear.symm, congrArg Link.sequence hlink'⟩) hgap
  rw [hprevious, hhash] at hfollows
  cases hfollows

theorem integrity_audit_healthy_keyRace : ∃ p : Pool (Store ℕ) (Thread ℕ),
    (posts ordinalHashes).machine.Reach Faultless p ∧ p.store.entries.rows.length = 2 ∧
      (journalIntegrityAudit ordinalHashes p.store none true).issues = [] := by
  obtain ⟨p, hp, hobs⟩ := keyRace_reaches
  have hover : p.threads.all (·.pc.over) = true := congrArg (fun x => x.2.2) hobs
  have hlength : p.store.entries.rows.length = 2 := by
    have hrows := congrArg (fun x => x.1.length) hobs
    simpa [observed] using hrows
  have hreservations : p.store.reservations.rows.length = 3 := congrArg (fun x => x.2.1) hobs
  have hcap : p.store.inCaps := ⟨by omega, by omega⟩
  exact ⟨p, hp, hlength,
    ((integrity_audit_healthy hp (all_eq_true.mp hover)).1 hcap none).1⟩

end SyrocePms.Ledger.Seal
