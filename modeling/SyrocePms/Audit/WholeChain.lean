import SyrocePms.Audit.Chain

/-! The report on a log of which every record is stored, in any order: the walk is clean, and
what can spoil the report is a row without a hash from after the start of the chain. -/

namespace SyrocePms.Audit

open List

variable {C R H T : Type*} {S : Scheme C H T}
variable {entries : List (C × R)} {r : Record C R H} {rows : List (Record C R H)} {horizon : ℤ}
  {archive hot : Rows C R H}

/-! ### The records of the log -/

/-- The numbers are consecutive from one on. -/
theorem map_seq_logOf (entries : List (C × R)) :
    (logOf S entries).map Record.seq =
      (List.range entries.length).map fun i : ℕ => some ((i : ℤ) + 1) := by
  induction entries using List.reverseRecOn with
  | nil => rfl
  | append_singleton entries e ih =>
    rw [logOf_append_one, map_append, ih, length_append, length_singleton,
      range_succ, map_append]
    simp [linkChain_seq]

theorem logOf_take (entries : List (C × R)) (k : ℕ) :
    (logOf S entries).take k = logOf S (entries.take k) := by
  induction entries using List.reverseRecOn with
  | nil => simp [logOf, trailOf]
  | append_singleton entries e ih =>
    obtain hk | hk := Nat.lt_or_ge entries.length k
    · rw [take_of_length_le (by rw [length_logOf, length_append, length_singleton]; omega),
        take_of_length_le (by simp; omega)]
    · rw [logOf_append_one, take_append_of_le_length (by rw [length_logOf]; omega), ih,
        take_append_of_le_length hk]

theorem numbered_logOf (entries : List (C × R)) : Numbered (logOf S entries) := by
  have hmap := map_seq_logOf (S := S) entries
  constructor
  · have hrange : ((logOf S entries).map Record.seq).Pairwise fun n n' => n.getD 0 < n'.getD 0 := by
      rw [hmap, pairwise_map]
      exact pairwise_lt_range.imp fun h => by simpa using h
    rwa [pairwise_map] at hrange
  · intro r hr
    have hseq : r.seq ∈ (logOf S entries).map Record.seq := mem_map_of_mem hr
    rw [hmap] at hseq
    obtain ⟨i, -, hi⟩ := mem_map.mp hseq
    exact ⟨_, hi.symm, by omega⟩

theorem nodup_seq_logOf (entries : List (C × R)) : ((logOf S entries).map Record.seq).Nodup := by
  rw [map_seq_logOf]
  refine nodup_range.map fun i j h => ?_
  have hij : (i : ℤ) + 1 = j + 1 := Option.some.inj h
  omega

theorem eq_of_seq {r' : Record C R H} (hr : r ∈ logOf S entries) (hr' : r' ∈ logOf S entries)
    (h : r.seq = r'.seq) : r = r' :=
  inj_on_of_nodup_map (nodup_seq_logOf entries) hr hr' h

theorem seq_le_of_mem (hr : r ∈ logOf S entries) :
    ∃ n : ℤ, r.seq = some n ∧ 1 ≤ n ∧ n ≤ entries.length := by
  have hseq : r.seq ∈ (logOf S entries).map Record.seq := mem_map_of_mem hr
  rw [map_seq_logOf] at hseq
  obtain ⟨i, hi, heq⟩ := mem_map.mp hseq
  have hlt := mem_range.mp hi
  exact ⟨_, heq.symm, by omega, by omega⟩

theorem getLast?_logOf (entries : List (C × R)) :
    (logOf S entries).getLast?.map (fun r => (⟨r.seq.getD 0, r.hash⟩ : ChainState H)) =
      (trailOf S entries).state := by
  induction entries using List.reverseRecOn with
  | nil => rfl
  | append_singleton entries e ih =>
    rw [logOf_append_one, getLast?_append, state_append_one]
    rfl

theorem prev_of_mem (hr : r ∈ logOf S entries) : (r.seq = some 1 ∧ r.prev = S.empty) ∨
      ∃ x ∈ logOf S entries, ∃ n, x.seq = some n ∧ r.seq = some (n + 1) ∧ r.prev = x.hash := by
  induction entries using List.reverseRecOn with
  | nil => cases hr
  | append_singleton entries e ih =>
    rw [logOf_append_one] at hr ⊢
    obtain hr | hr := mem_append.mp hr
    · obtain hfirst | ⟨x, hx, hnext⟩ := ih hr
      · exact .inl hfirst
      · exact .inr ⟨x, mem_append_left _ hx, hnext⟩
    · rw [mem_singleton.mp hr]
      have htip := getLast?_logOf (S := S) entries
      cases hlast : (logOf S entries).getLast? with
      | none =>
        rw [hlast] at htip
        rw [← htip]
        exact .inl ⟨rfl, rfl⟩
      | some x =>
        have hx := mem_of_getLast? hlast
        obtain ⟨n, hn, -⟩ := seq_le_of_mem hx
        rw [hlast] at htip
        rw [← htip]
        exact .inr ⟨x, mem_append_left _ hx, n, hn, by simp [linkChain, hn], by
          simp [linkChain]⟩

theorem linkChain_sealed (state : Option (ChainState H)) (c : C) (x : R) :
    (linkChain S state c x).hash = S.hash (linkChain S state c x).content
      ((linkChain S state c x).seq.getD 0) (linkChain S state c x).prev := by
  cases state <;> rfl

theorem hash_of_mem (hr : r ∈ logOf S entries) :
    r.hash = S.hash r.content (r.seq.getD 0) r.prev := by
  induction entries using List.reverseRecOn with
  | nil => cases hr
  | append_singleton entries e ih =>
    rw [logOf_append_one] at hr
    obtain hr | hr := mem_append.mp hr
    · exact ih hr
    · rw [mem_singleton.mp hr]
      exact linkChain_sealed ..

/-! ### The walk -/

theorem sorted_logOf (entries : List (C × R)) : (logOf S entries).Pairwise bySeq :=
  (numbered_logOf entries).1.imp fun h => h.le

theorem insertionSort_of_perm (h : rows.Perm (logOf S entries)) :
    rows.insertionSort bySeq = logOf S entries := by
  refine ((perm_insertionSort bySeq rows).trans h).eq_of_pairwise ?_
    (pairwise_insertionSort bySeq rows) (sorted_logOf entries)
  intro a b ha hb hab hba
  rw [mem_insertionSort] at ha
  have ha' := h.mem_iff.mp ha
  obtain ⟨n, hn, -⟩ := seq_le_of_mem ha'
  obtain ⟨n', hn', -⟩ := seq_le_of_mem hb
  rw [bySeq, hn, hn'] at hab hba
  have heq : n = n' := le_antisymm hab hba
  exact eq_of_seq ha' hb (by rw [hn, hn', heq])

theorem firstOfEach_of_nodup (h : (rows.map Record.seq).Nodup) : firstOfEach rows = rows := by
  induction rows with
  | nil => rfl
  | cons r rows ih =>
    rw [map_cons, nodup_cons] at h
    rw [firstOfEach, ih h.2, filter_eq_self.mpr]
    intro x hx
    have hne : x.seq ≠ r.seq := fun he => h.1 (he ▸ mem_map_of_mem hx)
    simpa using hne

theorem readPart_of_perm {rows : Rows C R H} (hp : rows.chained.Perm (logOf S entries))
    (hh : (entries.length : ℤ) ≤ horizon) (limit : ℕ) :
    readPart rows horizon limit = logOf S (entries.take limit) := by
  have hall : rows.chained.filter (fun r => r.seq.any (· ≤ horizon)) = rows.chained := by
    refine filter_eq_self.mpr fun r hr => ?_
    obtain ⟨n, hn, -, hle⟩ := seq_le_of_mem (hp.mem_iff.mp hr)
    rw [hn]
    exact decide_eq_true (by omega)
  rw [readPart, hall, insertionSort_of_perm hp, logOf_take]

theorem readPart_nil {rows : Rows C R H} (h : rows.chained = []) (horizon : ℤ) (limit : ℕ) :
    readPart rows horizon limit = [] := by
  rw [readPart, h]
  simp

theorem walkedRows_of_perm (hp : hot.chained.Perm (logOf S entries)) (ha : archive.chained = [])
    (hh : (entries.length : ℤ) ≤ horizon) (limit : ℕ) :
    walkedRows hot archive horizon limit = logOf S (entries.take limit) := by
  rw [walkedRows, readPart_of_perm hp hh, readPart_nil ha, append_nil,
    (sorted_logOf _).insertionSort_eq, firstOfEach_of_nodup (nodup_seq_logOf _)]

section Report

variable [DecidableEq H]

theorem walkBreaks_append {before : Option H} {x : Record C R H}
    (hwalk : walkBreaks S before rows = [])
    (hhash : S.hash x.content (x.seq.getD 0) x.prev = x.hash)
    (hprev : ∀ h ∈ (rows.getLast?.map Record.hash).or before, h = x.prev) :
    walkBreaks S before (rows ++ [x]) = [] := by
  induction rows generalizing before with
  | nil =>
    cases before with
    | none => simp [walkBreaks, hhash]
    | some h => simp [walkBreaks, hhash, hprev h rfl]
  | cons r rows ih =>
    simp only [walkBreaks, append_eq_nil_iff] at hwalk
    obtain ⟨⟨hself, hlink⟩, hrest⟩ := hwalk
    have hlast : (((r :: rows).getLast?.map Record.hash).or before) =
        (rows.getLast?.map Record.hash).or (some r.hash) := by
      rw [getLast?_cons]
      cases rows.getLast? <;> rfl
    have htail := ih hrest fun h hh => hprev h (by rwa [hlast])
    rw [cons_append, walkBreaks, htail, hself, hlink]
    rfl

theorem walkBreaks_logOf (entries : List (C × R)) : walkBreaks S none (logOf S entries) = [] := by
  induction entries using List.reverseRecOn with
  | nil => rfl
  | append_singleton entries e ih =>
    rw [logOf_append_one]
    refine walkBreaks_append ih (linkChain_sealed ..).symm fun h hh => ?_
    have htip := getLast?_logOf (S := S) entries
    cases hlast : (logOf S entries).getLast? with
    | none => simp [hlast] at hh
    | some x =>
      rw [hlast] at htip
      rw [← htip]
      simpa [hlast, linkChain, eq_comm] using hh

variable [LinearOrder T]

/-- The timestamp with which the chain starts, as the walk up to the limit finds it. -/
def genesisOf (S : Scheme C H T) (rows : List (Record C R H)) (limit : ℕ) : Option T :=
  ((rows.insertionSort bySeq).take limit).findSome? fun r => S.timestamp r.content

/-- No row without a hash is from after the start of the chain. -/
def NoGap (S : Scheme C H T) (hot archive : Rows C R H) (limit : ℕ) : Prop :=
  ∀ c ∈ hot.plain ++ archive.plain, ∀ g ∈ genesisOf S hot.chained limit,
    ∀ t ∈ S.timestamp c, t < g

omit [DecidableEq H] in
theorem unverifiableRows_eq_zero {genesis : Option T} {rows : Rows C R H} :
    unverifiableRows S genesis rows = 0 ↔
      ∀ c ∈ rows.plain, ∀ g ∈ genesis, ∀ t ∈ S.timestamp c, t < g := by
  cases genesis with
  | none => simp [unverifiableRows]
  | some g =>
    rw [unverifiableRows, length_eq_zero_iff, filter_eq_nil_iff]
    refine forall₂_congr fun c _ => ?_
    cases S.timestamp c <;> simp

omit [DecidableEq H] [LinearOrder T] in
/-- The rows are read up to the last record. -/
theorem sequenceBound_trailOf (entries : List (C × R)) :
    sequenceBound (trailOf S entries).state = entries.length := by
  obtain ⟨rfl, hst⟩ | ⟨-, h, hst⟩ := state_of_entries (S := S) entries
  · rw [hst]
    rfl
  · rw [hst]
    exact sequenceBound_some (Int.natCast_nonneg _)

omit [LinearOrder T] in
theorem stateChanged_self (entries : List (C × R)) :
    stateChanged (trailOf S entries).state (trailOf S entries).state = false := by
  obtain ⟨rfl, hst⟩ | ⟨-, h, hst⟩ := state_of_entries (S := S) entries
  · rw [hst]
    rfl
  · rw [hst]
    simp [stateChanged, validHorizon]

omit [LinearOrder T] in
/-- A walk that is not cut ends in the record that the chain state has. -/
theorem tipMismatch_logOf (entries : List (C × R)) :
    tipMismatch (trailOf S entries).state (logOf S entries) = false := by
  have htip := getLast?_logOf (S := S) entries
  cases hlast : (logOf S entries).getLast? with
  | none =>
    rw [hlast] at htip
    rw [← htip]
    rfl
  | some x =>
    obtain ⟨n, hn, -⟩ := seq_le_of_mem (mem_of_getLast? hlast)
    rw [hlast] at htip
    rw [← htip]
    simp [tipMismatch, hlast, hn]

/-- The report on a whole log is clean but for rows without a hash. -/
theorem verifyChain_ok_iff (hp : hot.chained.Perm (logOf S entries)) (ha : archive.chained = [])
    (limit : ℕ) :
    (verifyChain S (trailOf S entries).state (trailOf S entries).state hot archive limit).ok = true ↔
      NoGap S hot archive limit := by
  have hgenesis : genesisOf S hot.chained limit =
      (logOf S (entries.take limit)).findSome? fun r => S.timestamp r.content := by
    rw [genesisOf, insertionSort_of_perm hp, logOf_take]
  have hvalid : invalidSequences hot + invalidSequences archive = 0 := by
    have hhot : invalidSequences hot = 0 := by
      rw [invalidSequences, length_eq_zero_iff, filter_eq_nil_iff]
      intro r hr
      obtain ⟨n, hn, hle, -⟩ := seq_le_of_mem (hp.mem_iff.mp hr)
      simpa [hn] using hle
    rw [hhot, invalidSequences, ha]
    rfl
  have hgap : unverifiableRows S (genesisOf S hot.chained limit) hot +
      unverifiableRows S (genesisOf S hot.chained limit) archive = 0 ↔ NoGap S hot archive limit := by
    rw [Nat.add_eq_zero_iff, unverifiableRows_eq_zero, unverifiableRows_eq_zero, NoGap]
    simp only [mem_append, or_imp, forall_and]
  have hbound := sequenceBound_trailOf (S := S) entries
  have hread := readPart_of_perm hp hbound.ge limit
  have htip : (!(decide (limit ≤ (readPart hot (sequenceBound (trailOf S entries).state) limit).length) ||
      decide (limit ≤ (readPart archive (sequenceBound (trailOf S entries).state) limit).length)) &&
      tipMismatch (trailOf S entries).state (logOf S (entries.take limit))) = false := by
    rw [hread, length_logOf, length_take]
    obtain hcut | hwhole := Nat.lt_or_ge entries.length limit
    · rw [take_of_length_le hcut.le, tipMismatch_logOf, Bool.and_false]
    · simp [hwhole]
  have hdegraded : (!validHorizon (trailOf S entries).state &&
      ((trailOf S entries).state.isSome || (trailOf S entries).state.isSome ||
        !(logOf S (entries.take limit)).isEmpty ||
        decide (0 < hot.chained.length + archive.chained.length))) = false := by
    obtain ⟨rfl, hst⟩ | ⟨-, h, hst⟩ := state_of_entries (S := S) entries
    · have hnil : hot.chained = [] := hp.eq_nil
      rw [hst, hnil, ha]
      simp [logOf, trailOf]
    · rw [hst]
      simp [validHorizon]
  simp only [verifyChain, walkedRows_of_perm hp ha hbound.ge, walkBreaks_logOf, htip, hdegraded,
    stateChanged_self, hvalid, ← hgenesis, nil_append, Bool.not_false, Bool.and_true,
    Bool.false_eq_true, if_false, Nat.lt_irrefl]
  rw [← hgap]
  split <;> simp <;> omega

end Report

end SyrocePms.Audit
