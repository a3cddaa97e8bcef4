import Mathlib.Data.List.Sort
import Mathlib.Data.List.Induction

/-! The audit chain of a tenant. Each record seals its content with its sequence number
and the hash of the record before it, and the chain state has number and hash of the last.
The verifier walks the records of both collections in the order of their numbers. -/

namespace SyrocePms.Audit

variable {C R H T : Type*}

/-- What the chain is built with: the hash of `compute_record_hash` on the hashed fields,
the number and the previous hash; the empty text; and the timestamp among the hashed
fields. -/
structure Scheme (C H T : Type*) where
  hash : C → ℤ → H → H
  empty : H
  timestamp : C → Option T

/-- No two inputs have one hash. -/
def Scheme.CollisionFree (S : Scheme C H T) : Prop :=
  ∀ c n h c' n' h', S.hash c n h = S.hash c' n' h' → c = c' ∧ n = n' ∧ h = h'

/-- A row that carries a `record_hash`: its hashed fields, its other fields, and its chain
fields. A number that is no integer is none, and a missing `prev_hash` is empty. -/
structure Record (C R H : Type*) where
  content : C
  rest : R
  seq : Option ℤ
  prev : H
  hash : H
  deriving DecidableEq

def Record.sealed (r : Record C R H) : C × Option ℤ × H × H := (r.content, r.seq, r.prev, r.hash)

/-- The rows of one collection: those with a `record_hash`, and the hashed fields of those
without. -/
structure Rows (C R H : Type*) where
  chained : List (Record C R H) := []
  plain : List C := []

/-- A row of `audit_chain_state`. -/
structure ChainState (H : Type*) where
  seq : ℤ
  lastHash : H
  deriving DecidableEq

/-! ### Appending -/

/-- `_link_chain` that goes through: the record that takes the next place. -/
def linkChain (S : Scheme C H T) (state : Option (ChainState H)) (content : C) (rest : R) : Record C R H :=
  match state with
  | none => ⟨content, rest, some 1, S.empty, S.hash content 1 S.empty⟩
  | some st =>
    ⟨content, rest, some (st.seq + 1), st.lastHash, S.hash content (st.seq + 1) st.lastHash⟩

/-- The chain state and the two collections. -/
structure Trail (C R H : Type*) where
  state : Option (ChainState H) := none
  hot : Rows C R H := {}
  archive : Rows C R H := {}

def appendAuditLog (S : Scheme C H T) (t : Trail C R H) (e : C × R) : Trail C R H :=
  let r := linkChain S t.state e.1 e.2
  { t with
    state := some ⟨r.seq.getD 0, r.hash⟩
    hot := { t.hot with chained := t.hot.chained ++ [r] } }

def trailOf (S : Scheme C H T) (entries : List (C × R)) : Trail C R H :=
  entries.foldl (appendAuditLog S) {}

def logOf (S : Scheme C H T) (entries : List (C × R)) : List (Record C R H) :=
  (trailOf S entries).hot.chained

/-! ### Verifying -/

inductive BreakReason where
  | contentHashMismatch
  | prevHashMismatch
  | chainStateTipMismatch
  | chainStateChangedWithoutAppend
  | invalidSequenceRecords (count : ℕ)
  | unverifiableUnchainedRecords (count : ℕ)

structure Break where
  seq : Option ℤ
  reason : BreakReason

/-- What `verify_chain` reports. -/
structure Report where
  ok : Bool
  checked : ℕ
  breaks : List Break
  lastSeq : Option ℤ
  unverifiable : ℕ
  legacySkipped : ℕ
  truncated : Bool
  asOfSeq : Option ℤ
  observedLatestSeq : Option ℤ
  concurrentAppends : Bool
  degraded : Bool

/-- The order of the walk. -/
def bySeq (r r' : Record C R H) : Prop := r.seq.getD 0 ≤ r'.seq.getD 0

instance : DecidableRel (bySeq : Record C R H → Record C R H → Prop) := fun r r' =>
  inferInstanceAs (Decidable (r.seq.getD 0 ≤ r'.seq.getD 0))

def readPart (rows : Rows C R H) (horizon : ℤ) (limit : ℕ) : List (Record C R H) :=
  ((rows.chained.filter fun r => r.seq.any (· ≤ horizon)).insertionSort bySeq).take limit

def firstOfEach : List (Record C R H) → List (Record C R H)
  | [] => []
  | r :: rows => r :: (firstOfEach rows).filter fun x => x.seq ≠ r.seq

def walkedRows (hot archive : Rows C R H) (horizon : ℤ) (limit : ℕ) : List (Record C R H) :=
  firstOfEach ((readPart hot horizon limit ++ readPart archive horizon limit).insertionSort bySeq)

variable [DecidableEq H]

def walkBreaks (S : Scheme C H T) : Option H → List (Record C R H) → List Break
  | _, [] => []
  | before, r :: rows =>
    (if S.hash r.content (r.seq.getD 0) r.prev ≠ r.hash then [⟨r.seq, .contentHashMismatch⟩] else []) ++
      (if before.any (· ≠ r.prev) then [⟨r.seq, .prevHashMismatch⟩] else []) ++
      walkBreaks S (some r.hash) rows

/-- Records whose number is no integer from one on. -/
def invalidSequences (rows : Rows C R H) : ℕ :=
  (rows.chained.filter fun r => !r.seq.any (1 ≤ ·)).length

variable [LinearOrder T]

/-- Rows without a hash from the first walked timestamp on. -/
def unverifiableRows (S : Scheme C H T) (genesis : Option T) (rows : Rows C R H) : ℕ :=
  match genesis with
  | none => 0
  | some g => (rows.plain.filter fun c => (S.timestamp c).any (g ≤ ·)).length

def legacyRows (S : Scheme C H T) (genesis : Option T) (rows : Rows C R H) : ℕ :=
  match genesis with
  | none => rows.plain.length
  | some g => (rows.plain.filter fun c => (S.timestamp c).any (· < g)).length

def validHorizon (state : Option (ChainState H)) : Bool := state.any fun st => decide (0 ≤ st.seq)

/-- The number up to which the rows are read. -/
def sequenceBound (state : Option (ChainState H)) : ℤ :=
  if validHorizon state then (state.map ChainState.seq).getD 0 else 0

/-- Whether the walk does not end in the record that the captured state has. -/
def tipMismatch (state : Option (ChainState H)) (rows : List (Record C R H)) : Bool :=
  match state with
  | none => false
  | some st =>
    decide (rows.getLast?.bind Record.seq ≠ some st.seq) ||
      decide (rows.getLast?.map Record.hash ≠ some st.lastHash)

def stateChanged (state latest : Option (ChainState H)) : Bool :=
  match state, latest with
  | none, _ => false
  | some _, none => true
  | some st, some l => !validHorizon state || decide (l.seq < st.seq) ||
      (decide (l.seq = st.seq) && decide (l.lastHash ≠ st.lastHash))

def verifyChain (S : Scheme C H T) (state latest : Option (ChainState H)) (hot archive : Rows C R H)
    (limit : ℕ) : Report :=
  let asOf := state.map ChainState.seq
  let horizon := sequenceBound state
  let rows := walkedRows hot archive horizon limit
  let truncated := decide (limit ≤ (readPart hot horizon limit).length) ||
    decide (limit ≤ (readPart archive horizon limit).length)
  let lastSeq := rows.getLast?.bind Record.seq
  let genesis := rows.findSome? fun r => S.timestamp r.content
  let invalid := invalidSequences hot + invalidSequences archive
  let unverifiable := unverifiableRows S genesis hot + unverifiableRows S genesis archive
  let latestSeq := latest.map ChainState.seq
  let degraded := !validHorizon state && (state.isSome || latest.isSome || !rows.isEmpty ||
    decide (0 < hot.chained.length + archive.chained.length))
  let breaks := walkBreaks S none rows ++
    (if !truncated && tipMismatch state rows then [⟨lastSeq, .chainStateTipMismatch⟩] else []) ++
    (if stateChanged state latest then [⟨asOf, .chainStateChangedWithoutAppend⟩] else []) ++
    (if 0 < invalid then [⟨none, .invalidSequenceRecords invalid⟩] else []) ++
    (if 0 < unverifiable then [⟨none, .unverifiableUnchainedRecords unverifiable⟩] else [])
  { ok := breaks.isEmpty && !degraded
    checked := rows.length
    breaks := breaks
    lastSeq := lastSeq
    unverifiable := unverifiable
    legacySkipped := legacyRows S genesis hot + legacyRows S genesis archive
    truncated := truncated
    asOfSeq := asOf
    observedLatestSeq := latestSeq
    concurrentAppends := validHorizon state && latestSeq.any (asOf.getD 0 < ·)
    degraded := degraded }

end SyrocePms.Audit

/-! What a clean report says about the records that are stored. The verifier takes the
first record in the walk as the start of the chain, so that a prefix that is gone is not
missed; it takes the first of the records with one number; and it leaves out the records
beyond the chain state. Between the start and the tip nothing can differ in what is
hashed. -/

namespace SyrocePms.Audit

variable {C R H T : Type*} {S : Scheme C H T}
variable {entries : List (C × R)} {r x : Record C R H} {rows : List (Record C R H)}
  {st : ChainState H} {horizon : ℤ} {limit : ℕ} {archive hot : Rows C R H}

/-! ### The log -/

theorem trailOf_append_one (entries : List (C × R)) (e : C × R) :
    trailOf S (entries ++ [e]) = appendAuditLog S (trailOf S entries) e := by
  simp [trailOf, List.foldl_append]

theorem logOf_append_one (entries : List (C × R)) (e : C × R) :
    logOf S (entries ++ [e]) = logOf S entries ++ [linkChain S (trailOf S entries).state e.1 e.2] := by
  simp [logOf, trailOf_append_one, appendAuditLog]

theorem state_append_one (entries : List (C × R)) (e : C × R) :
    (trailOf S (entries ++ [e])).state =
      some ⟨(linkChain S (trailOf S entries).state e.1 e.2).seq.getD 0,
        (linkChain S (trailOf S entries).state e.1 e.2).hash⟩ := by
  simp [trailOf_append_one, appendAuditLog]

theorem state_of_entries (entries : List (C × R)) :
    (entries = [] ∧ (trailOf S entries).state = none) ∨
      (entries ≠ [] ∧ ∃ h, (trailOf S entries).state = some ⟨entries.length, h⟩) := by
  induction entries using List.reverseRecOn with
  | nil => exact .inl ⟨rfl, rfl⟩
  | append_singleton entries e ih =>
    refine .inr ⟨by simp, (linkChain S (trailOf S entries).state e.1 e.2).hash, ?_⟩
    rw [state_append_one]
    obtain ⟨rfl, hst⟩ | ⟨-, h, hst⟩ := ih <;> simp [hst, linkChain]

/-- What the next record seals. -/
theorem linkChain_seq (entries : List (C × R)) (e : C × R) :
    (linkChain S (trailOf S entries).state e.1 e.2).seq = some (entries.length + 1 : ℤ) := by
  obtain ⟨rfl, hst⟩ | ⟨-, h, hst⟩ := state_of_entries (S := S) entries <;> simp [hst, linkChain]

theorem linkChain_hash (state : Option (ChainState H)) (c : C) (x : R) :
    (linkChain S state c x).hash =
      S.hash c ((linkChain S state c x).seq.getD 0) (linkChain S state c x).prev := by
  cases state <;> rfl

theorem length_logOf (entries : List (C × R)) : (logOf S entries).length = entries.length := by
  induction entries using List.reverseRecOn with
  | nil => rfl
  | append_singleton entries e ih => simp [logOf_append_one, ih]

theorem seq_of_mem_drop {k : ℕ} (h : r ∈ (logOf S entries).drop k) :
    ∃ n : ℤ, r.seq = some n ∧ k < n := by
  induction entries using List.reverseRecOn with
  | nil => simp [logOf, trailOf] at h
  | append_singleton entries e ih =>
    rw [logOf_append_one, List.drop_append, List.mem_append] at h
    obtain h | h := h
    · exact ih h
    · rw [length_logOf] at h
      by_cases hk : k ≤ entries.length
      · rw [Nat.sub_eq_zero_of_le hk, List.drop_zero] at h
        rw [List.mem_singleton.mp h]
        exact ⟨_, linkChain_seq entries e, by omega⟩
      · rw [List.drop_eq_nil_of_le (by simp; omega)] at h
        cases h

/-! ### The walk -/

def Numbered (rows : List (Record C R H)) : Prop :=
  rows.Pairwise (fun r r' => r.seq.getD 0 < r'.seq.getD 0) ∧ ∀ r ∈ rows, ∃ n, r.seq = some n ∧ 1 ≤ n

theorem Numbered.init (h : Numbered (rows ++ [x])) : Numbered rows :=
  ⟨(List.pairwise_append.mp h.1).1, fun r hr => h.2 r (List.mem_append_left _ hr)⟩

section Walk

variable [DecidableEq H]

theorem walkBreaks_append_one {before : Option H} (h : walkBreaks S before (rows ++ [x]) = []) :
    walkBreaks S before rows = [] ∧
      S.hash x.content (x.seq.getD 0) x.prev = x.hash ∧ ∀ y ∈ rows.getLast?, x.prev = y.hash := by
  induction rows generalizing before with
  | nil =>
    simp only [List.nil_append, walkBreaks, List.append_nil, List.append_eq_nil_iff] at h
    refine ⟨rfl, ?_, by simp⟩
    by_contra hne
    simp [hne] at h
  | cons r rows ih =>
    simp only [List.cons_append, walkBreaks, List.append_eq_nil_iff] at h
    obtain ⟨hrow, hrest⟩ := h
    obtain ⟨hwalk, hhash, hlast⟩ := ih hrest
    refine ⟨?_, hhash, fun y hy => ?_⟩
    · simp only [walkBreaks, List.append_eq_nil_iff]
      exact ⟨hrow, hwalk⟩
    · cases rows with
      | nil =>
        have hy' : r = y := by simpa using hy
        subst hy'
        simp only [List.nil_append, walkBreaks, List.append_nil, List.append_eq_nil_iff,
          Option.any_some] at hrest
        by_contra hne
        simp [Ne.symm hne] at hrest
      | cons r' rows => exact hlast y (by simpa using hy)

theorem walk_suffix (hS : S.CollisionFree) (hwalk : walkBreaks S none rows = [])
    (hnum : Numbered rows) (hlast : rows.getLast? = some x)
    (hst : (trailOf S entries).state = some st) (hx : x.hash = st.lastHash) : ∃ k < entries.length,
      rows.map Record.sealed = ((logOf S entries).drop k).map Record.sealed := by
  induction entries using List.reverseRecOn generalizing rows st x with
  | nil => cases hst
  | append_singleton entries e ih =>
    obtain ⟨rows, rfl⟩ : ∃ rows', rows = rows' ++ [x] :=
      ⟨_, (List.dropLast_append_getLast? x hlast).symm⟩
    obtain ⟨hwalk', hhash, hprev⟩ := walkBreaks_append_one hwalk
    let r := linkChain S (trailOf S entries).state e.1 e.2
    -- the last record is the last of the log: the two have one hash
    have hr : S.hash x.content (x.seq.getD 0) x.prev = S.hash e.1 (r.seq.getD 0) r.prev := by
      rw [state_append_one] at hst
      rw [hhash, hx, ← Option.some.inj hst]
      exact linkChain_hash _ e.1 e.2
    obtain ⟨hcontent, hseq, hprevr⟩ := hS _ _ _ _ _ _ hr
    obtain ⟨n, hn, hpos⟩ := hnum.2 x (by simp)
    have hrseq : r.seq = some (entries.length + 1 : ℤ) := linkChain_seq entries e
    have hnum' : n = entries.length + 1 := by
      rw [hn, hrseq] at hseq
      exact hseq
    have hrcontent : r.content = e.1 := by
      simp only [r, linkChain]
      split <;> rfl
    have hsealed : x.sealed = r.sealed := by
      have hhash' : x.hash = r.hash := by
        rw [← hhash, hr]
        exact (linkChain_hash _ e.1 e.2).symm
      simp only [Record.sealed, hcontent, hrcontent, hn, hnum', hrseq, hprevr, hhash']
    rw [logOf_append_one]
    cases hrows : rows.getLast? with
    | none =>
      have hnil : rows = [] := List.getLast?_eq_none_iff.mp hrows
      refine ⟨entries.length, by simp, ?_⟩
      rw [List.drop_append, length_logOf, Nat.sub_self, List.drop_zero,
        List.drop_eq_nil_of_le (by rw [length_logOf])]
      simp [hnil, hsealed, r]
    | some y =>
      -- the record before it has the hash that it names
      have hy : x.prev = y.hash := hprev y hrows
      have hymem : y ∈ rows := List.mem_of_getLast? hrows
      obtain ⟨m, hm, hmpos⟩ := hnum.2 y (List.mem_append_left _ hymem)
      have hlt : m < n := by
        have h := (List.pairwise_append.mp hnum.1).2.2 y hymem x (by simp)
        rw [hm, hn] at h
        exact h
      obtain ⟨hnil, -⟩ | ⟨hne, h, hstate⟩ := state_of_entries (S := S) entries
      · subst hnil
        simp at hnum'
        omega
      · have hyst : y.hash = h := by
          rw [← hy, hprevr]
          simp only [r, hstate, linkChain]
        obtain ⟨k, hk, hmap⟩ := ih hwalk' hnum.init hrows hstate hyst
        refine ⟨k, by simp; omega, ?_⟩
        rw [List.drop_append_of_le_length (by rw [length_logOf]; omega), List.map_append,
          List.map_append, hmap]
        simp [hsealed, r]

end Walk

/-! ### The rows that are walked -/

instance : Std.Total (bySeq : Record C R H → Record C R H → Prop) :=
  ⟨fun r r' => le_total (r.seq.getD 0) (r'.seq.getD 0)⟩

instance : IsTrans (Record C R H) bySeq := ⟨fun _ _ _ h h' => le_trans h h'⟩

theorem firstOfEach_sublist (rows : List (Record C R H)) : (firstOfEach rows).Sublist rows := by
  induction rows with
  | nil => exact .slnil
  | cons r rows ih => exact (List.filter_sublist.trans ih).cons_cons r

theorem firstOfEach_pairwise (rows : List (Record C R H)) :
    (firstOfEach rows).Pairwise fun r r' => r.seq ≠ r'.seq := by
  induction rows with
  | nil => exact .nil
  | cons r rows ih =>
    refine List.pairwise_cons.mpr ⟨fun x hx => ?_, ih.filter _⟩
    have hne : x.seq ≠ r.seq := by simpa using (List.mem_filter.mp hx).2
    exact hne.symm

theorem exists_mem_firstOfEach (hr : r ∈ rows) : ∃ x ∈ firstOfEach rows, x.seq = r.seq := by
  induction rows with
  | nil => cases hr
  | cons y rows ih =>
    by_cases hy : r.seq = y.seq
    · exact ⟨y, List.mem_cons_self, hy.symm⟩
    · have hmem : r ∈ rows := (List.mem_cons.mp hr).resolve_left fun h => hy (congrArg _ h)
      obtain ⟨x, hx, hseq⟩ := ih hmem
      exact ⟨x, List.mem_cons_of_mem _ (List.mem_filter.mpr ⟨hx, by simpa [hseq] using hy⟩), hseq⟩

theorem mem_readPart {rows : Rows C R H} (hcut : (readPart rows horizon limit).length < limit) :
    r ∈ readPart rows horizon limit ↔ r ∈ rows.chained ∧ ∃ n, r.seq = some n ∧ n ≤ horizon := by
  have hall : readPart rows horizon limit =
      (rows.chained.filter fun r => r.seq.any (· ≤ horizon)).insertionSort bySeq := by
    refine List.take_of_length_le ?_
    rw [readPart, List.length_take] at hcut
    omega
  rw [hall, List.mem_insertionSort, List.mem_filter]
  cases r.seq <;> simp

theorem mem_walkedRows (h : r ∈ walkedRows hot archive horizon limit) :
    r ∈ readPart hot horizon limit ∨ r ∈ readPart archive horizon limit := by
  have hmem := (firstOfEach_sublist _).mem h
  rwa [List.mem_insertionSort, List.mem_append] at hmem

theorem numbered_walkedRows
    (hvalid : ∀ r ∈ hot.chained ++ archive.chained, ∃ n, r.seq = some n ∧ 1 ≤ n)
    (hhot : (readPart hot horizon limit).length < limit)
    (harchive : (readPart archive horizon limit).length < limit) :
    Numbered (walkedRows hot archive horizon limit) := by
  have hmem : ∀ r ∈ walkedRows hot archive horizon limit, ∃ n, r.seq = some n ∧ 1 ≤ n := by
    intro r hr
    refine hvalid r (List.mem_append.mpr ?_)
    obtain h | h := mem_walkedRows hr
    · exact .inl ((mem_readPart hhot).mp h).1
    · exact .inr ((mem_readPart harchive).mp h).1
  refine ⟨?_, hmem⟩
  have hsorted : (walkedRows hot archive horizon limit).Pairwise bySeq :=
    (List.pairwise_insertionSort bySeq _).sublist (firstOfEach_sublist _)
  refine (hsorted.and (firstOfEach_pairwise _)).imp_of_mem fun {r r'} hr hr' ⟨hle, hne⟩ => ?_
  obtain ⟨n, hn, -⟩ := hmem r hr
  obtain ⟨n', hn', -⟩ := hmem r' hr'
  rw [bySeq, hn, hn'] at hle
  rw [hn, hn'] at hne ⊢
  exact lt_of_le_of_ne hle fun h => hne (congrArg some h)

theorem exists_walked {n : ℤ} (hhot : (readPart hot horizon limit).length < limit)
    (harchive : (readPart archive horizon limit).length < limit)
    (hr : r ∈ hot.chained ++ archive.chained) (hn : r.seq = some n) (hle : n ≤ horizon) :
    ∃ x ∈ walkedRows hot archive horizon limit, x.seq = some n := by
  rw [← hn]
  refine exists_mem_firstOfEach ?_
  rw [List.mem_insertionSort, List.mem_append, mem_readPart hhot, mem_readPart harchive]
  exact (List.mem_append.mp hr).imp (fun h => ⟨h, n, hn, hle⟩) fun h => ⟨h, n, hn, hle⟩

theorem valid_of_invalidSequences {rows : Rows C R H} (h : invalidSequences rows = 0) :
    ∀ r ∈ rows.chained, ∃ n, r.seq = some n ∧ 1 ≤ n := by
  intro r hr
  rw [invalidSequences, List.length_eq_zero_iff, List.filter_eq_nil_iff] at h
  have hany := h r hr
  cases hseq : r.seq with
  | none => simp [hseq] at hany
  | some n => exact ⟨n, rfl, by simpa [hseq] using hany⟩

/-! ### A clean report -/

theorem sequenceBound_some (hpos : 0 ≤ st.seq) : sequenceBound (some st) = st.seq := by
  simp [sequenceBound, validHorizon, hpos]

section Report

variable [DecidableEq H] [LinearOrder T] {latest : Option (ChainState H)} {hot archive : Rows C R H}
  {limit : ℕ} {st : ChainState H}

theorem empty_of_ok (hok : (verifyChain S none latest hot archive limit).ok = true) :
    hot.chained = [] ∧ archive.chained = [] := by
  simp only [verifyChain, Bool.and_eq_true, Bool.not_eq_true'] at hok
  have hlen := hok.2
  simp only [validHorizon, Option.any_none, Bool.not_false, Bool.true_and, Option.isSome_none,
    Bool.false_or, Bool.or_eq_false_iff, decide_eq_false_iff_not, not_lt] at hlen
  have hzero := hlen.2
  exact ⟨List.length_eq_zero_iff.mp (by omega), List.length_eq_zero_iff.mp (by omega)⟩

theorem whole_of_untruncated (hpos : 0 ≤ st.seq)
    (hcut : (verifyChain S (some st) latest hot archive limit).truncated = false) :
    (readPart hot st.seq limit).length < limit ∧ (readPart archive st.seq limit).length < limit := by
  simpa [verifyChain, sequenceBound_some hpos] using hcut

theorem clean_of_ok (hpos : 0 ≤ st.seq)
    (hok : (verifyChain S (some st) latest hot archive limit).ok = true) :
    walkBreaks S none (walkedRows hot archive st.seq limit) = [] ∧
      ∀ r ∈ hot.chained ++ archive.chained, ∃ n, r.seq = some n ∧ 1 ≤ n := by
  simp only [verifyChain, Bool.and_eq_true, List.isEmpty_iff, List.append_eq_nil_iff] at hok
  obtain ⟨⟨⟨⟨⟨hwalk, -⟩, -⟩, hinvalid⟩, -⟩, -⟩ := hok
  refine ⟨by rwa [sequenceBound_some hpos] at hwalk, fun r hr => ?_⟩
  have hzero : invalidSequences hot + invalidSequences archive = 0 := by
    by_contra hne
    rw [if_pos (by omega)] at hinvalid
    cases hinvalid
  obtain h | h := List.mem_append.mp hr
  · exact valid_of_invalidSequences (by omega) r h
  · exact valid_of_invalidSequences (by omega) r h

theorem tip_of_ok (hpos : 0 ≤ st.seq)
    (hok : (verifyChain S (some st) latest hot archive limit).ok = true)
    (hcut : (verifyChain S (some st) latest hot archive limit).truncated = false) :
    ∃ x, (walkedRows hot archive st.seq limit).getLast? = some x ∧ x.seq = some st.seq ∧
      x.hash = st.lastHash := by
  obtain ⟨hhot, harchive⟩ := whole_of_untruncated hpos hcut
  simp only [verifyChain, Bool.and_eq_true, List.isEmpty_iff, List.append_eq_nil_iff] at hok
  obtain ⟨⟨⟨⟨⟨-, htip⟩, -⟩, -⟩, -⟩, -⟩ := hok
  have hwhole : ¬ limit ≤ (readPart hot st.seq limit).length ∧
      ¬ limit ≤ (readPart archive st.seq limit).length := by omega
  have hends : (walkedRows hot archive st.seq limit).getLast?.bind Record.seq = some st.seq ∧
      (walkedRows hot archive st.seq limit).getLast?.map Record.hash = some st.lastHash := by
    simpa [tipMismatch, sequenceBound_some hpos, hwhole.1, hwhole.2] using htip
  cases hx : (walkedRows hot archive st.seq limit).getLast? with
  | none => simp [hx] at hends
  | some x => exact ⟨x, rfl, by simpa [hx] using hends.1, by simpa [hx] using hends.2⟩

/-- When the chain state is the one that the appends left, whatever was done to the
records: a clean report that is not truncated says that the records that were walked are
those that were appended from one of them on, in what is sealed, and that no record with
a number before it is stored. -/
theorem verifyChain_suffix (hS : S.CollisionFree) {entries : List (C × R)}
    (hok : (verifyChain S (trailOf S entries).state latest hot archive limit).ok = true)
    (hcut : (verifyChain S (trailOf S entries).state latest hot archive limit).truncated = false) :
    ∃ k ≤ entries.length, (entries ≠ [] → k < entries.length) ∧
      (walkedRows hot archive entries.length limit).map Record.sealed =
        ((logOf S entries).drop k).map Record.sealed ∧
      ∀ r ∈ hot.chained ++ archive.chained, ∀ n, r.seq = some n → (k : ℤ) < n := by
  obtain ⟨rfl, hst⟩ | ⟨hne, h, hst⟩ := state_of_entries (S := S) entries
  · rw [hst] at hok
    obtain ⟨hhot, harchive⟩ := empty_of_ok hok
    refine ⟨0, le_rfl, fun hne => absurd rfl hne, ?_, by simp [hhot, harchive]⟩
    simp [walkedRows, readPart, hhot, harchive, firstOfEach, logOf, trailOf]
  · have hpos : (0 : ℤ) ≤ entries.length := by omega
    rw [hst] at hok hcut
    obtain ⟨hhot, harchive⟩ := whole_of_untruncated hpos hcut
    obtain ⟨hwalk, hvalid⟩ := clean_of_ok hpos hok
    obtain ⟨x, hlast, -, hx⟩ := tip_of_ok hpos hok hcut
    have hnum := numbered_walkedRows hvalid hhot harchive
    obtain ⟨k, hk, hmap⟩ := walk_suffix hS hwalk hnum hlast hst hx
    refine ⟨k, hk.le, fun _ => hk, hmap, fun r hr n hn => ?_⟩
    by_contra hle
    -- a record with a number before the first of the walk would be in the walk
    obtain ⟨y, hy, hyn⟩ := exists_walked hhot harchive hr hn
      (show n ≤ (entries.length : ℤ) by omega)
    have hsealed : y.sealed ∈ ((logOf S entries).drop k).map Record.sealed :=
      hmap ▸ List.mem_map_of_mem hy
    obtain ⟨z, hz, hzy⟩ := List.mem_map.mp hsealed
    obtain ⟨m, hm, hkm⟩ := seq_of_mem_drop hz
    have hseq : z.seq = y.seq := congrArg (fun q => q.2.1) hzy
    rw [hm, hyn] at hseq
    have hmn : m = n := Option.some.inj hseq
    omega

/-- A clean report that is not truncated, on records that are not those that were
appended. -/
structure Unnoticed (S : Scheme C H T) (entries : List (C × R)) (hot archive : Rows C R H) (limit : ℕ) :
    Prop where
  clean : (verifyChain S (trailOf S entries).state (trailOf S entries).state hot archive limit).ok = true
  whole :
    (verifyChain S (trailOf S entries).state (trailOf S entries).state hot archive limit).truncated = false
  other : ¬ (hot.chained ++ archive.chained).Perm (logOf S entries)

end Report

/-! ### Three records -/

def textScheme : Scheme ℕ (List ℤ) ℕ where
  hash c n h := c :: n :: h
  empty := []
  timestamp c := some c

theorem textScheme_collisionFree : textScheme.CollisionFree := by
  intro c n h c' n' h' heq
  simp only [textScheme, List.cons.injEq] at heq
  exact ⟨by omega, heq.2.1, heq.2.2⟩

def threeEntries : List (ℕ × ℕ) := [(7, 0), (8, 0), (9, 0)]

def withoutFirst : Rows ℕ ℕ (List ℤ) := ⟨(logOf textScheme threeEntries).drop 1, []⟩

theorem verifyChain_suffix_withoutFirst :
    ∃ k ≤ threeEntries.length, (threeEntries ≠ [] → k < threeEntries.length) ∧
      (walkedRows withoutFirst {} threeEntries.length 10).map Record.sealed =
        ((logOf textScheme threeEntries).drop k).map Record.sealed ∧
      ∀ r ∈ withoutFirst.chained ++ [], ∀ n, r.seq = some n → (k : ℤ) < n := by
  have hok : (verifyChain textScheme (trailOf textScheme threeEntries).state
      (trailOf textScheme threeEntries).state withoutFirst {} 10).ok = true := by decide
  have hcut : (verifyChain textScheme (trailOf textScheme threeEntries).state
      (trailOf textScheme threeEntries).state withoutFirst {} 10).truncated = false := by decide
  exact verifyChain_suffix textScheme_collisionFree hok hcut

/-- The first record deleted; a record with the number of another added to the archive; a
record beyond the chain state added; a field edited that is not hashed. -/
theorem unnoticed_tampering :
    Unnoticed textScheme threeEntries withoutFirst {} 10 ∧
      Unnoticed textScheme threeEntries ⟨logOf textScheme threeEntries, []⟩
        ⟨[⟨1, 1, some 2, [], []⟩], []⟩ 10 ∧
      Unnoticed textScheme threeEntries
        ⟨logOf textScheme threeEntries ++ [⟨1, 1, some 4, [], []⟩], []⟩ {} 10 ∧
      Unnoticed textScheme threeEntries
        ⟨(logOf textScheme threeEntries).map fun r => { r with rest := 1 }, []⟩ {} 10 := by
  refine ⟨⟨?_, ?_, ?_⟩, ⟨?_, ?_, ?_⟩, ⟨?_, ?_, ?_⟩, ⟨?_, ?_, ?_⟩⟩ <;> decide

end SyrocePms.Audit
