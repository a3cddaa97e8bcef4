import Mathlib.Algebra.Order.Ring.Nat
import Mathlib.Data.List.Induction
import Mathlib.Data.List.Sort

/-! Dictionaries in the order of insertion: a key that is there keeps its place, and a new one goes
to the end. -/

namespace SyrocePms.Lib

open List

structure Dict (κ ν : Type*) where
  entries : List (κ × ν)
  nodup : (entries.map Prod.fst).Nodup

namespace Dict

variable {κ ν : Type*}

def empty : Dict κ ν := ⟨[], nodup_nil⟩

@[simp] theorem entries_empty : (empty : Dict κ ν).entries = [] := rfl

theorem eq_of_fst {d : Dict κ ν} {e e' : κ × ν} (h : e ∈ d.entries) (h' : e' ∈ d.entries) (hk : e.1 = e'.1) : e = e' :=
  inj_on_of_nodup_map d.nodup h h' hk

section

variable [DecidableEq κ]

def get? (d : Dict κ ν) (k : κ) : Option ν := (d.entries.find? fun e => e.1 = k).map Prod.snd

theorem get?_eq_some {d : Dict κ ν} {k : κ} {v : ν} : d.get? k = some v ↔ (k, v) ∈ d.entries := by
  rw [get?, Option.map_eq_some_iff]
  constructor
  · rintro ⟨e, he, rfl⟩
    have hk : e.1 = k := by simpa using find?_some he
    rw [← hk]
    exact mem_of_find?_eq_some he
  · intro hm
    cases hf : d.entries.find? fun e => e.1 = k with
    | none =>
      have hne := find?_eq_none.mp hf _ hm
      simp at hne
    | some e =>
      have hk : e.1 = k := by simpa using find?_some hf
      exact ⟨e, rfl, congrArg Prod.snd (eq_of_fst (mem_of_find?_eq_some hf) hm hk)⟩

@[simp] theorem get?_empty (k : κ) : (empty : Dict κ ν).get? k = none := rfl

/-! ### Updates -/

def change (k : κ) (f : Option ν → ν) : List (κ × ν) → List (κ × ν)
  | [] => [(k, f none)]
  | e :: l => if e.1 = k then (e.1, f (some e.2)) :: l else e :: change k f l

theorem map_fst_change (k : κ) (f : Option ν → ν) (l : List (κ × ν)) :
    (change k f l).map Prod.fst = if k ∈ l.map Prod.fst then l.map Prod.fst else l.map Prod.fst ++ [k] := by
  induction l with
  | nil => rfl
  | cons e l ih =>
    rw [change]
    by_cases he : e.1 = k
    · simp [he]
    · rw [if_neg he, map_cons, ih]
      by_cases hk : k ∈ l.map Prod.fst
      · simp [hk]
      · rw [if_neg hk, if_neg]
        · rfl
        · simpa [Ne.symm he] using hk

/-- Changes the value under a key, which is put at the end if it is new. -/
def update (d : Dict κ ν) (k : κ) (f : Option ν → ν) : Dict κ ν where
  entries := change k f d.entries
  nodup := by
    rw [map_fst_change]
    split
    · exact d.nodup
    · rename_i hk
      exact nodup_append.mpr ⟨d.nodup, nodup_singleton k, fun x hx y hy => by
        rw [mem_singleton.mp hy]
        exact fun heq => hk (heq ▸ hx)⟩

theorem entries_update (d : Dict κ ν) (k : κ) (f : Option ν → ν) : (d.update k f).entries = change k f d.entries := rfl

theorem find?_change (k k' : κ) (f : Option ν → ν) (l : List (κ × ν)) :
    ((change k f l).find? fun e => e.1 = k').map Prod.snd =
      if k' = k then some (f ((l.find? fun e => e.1 = k).map Prod.snd)) else (l.find? fun e => e.1 = k').map Prod.snd := by
  induction l with
  | nil =>
    by_cases hk : k' = k
    · simp [change, hk]
    · simp [change, hk, Ne.symm hk]
  | cons e l ih =>
    rw [change]
    by_cases he : e.1 = k
    · by_cases hk : k' = k
      · simp [he, hk]
      · simp [he, hk, Ne.symm hk]
    · rw [if_neg he]
      by_cases hk : e.1 = k'
      · have hne : k' ≠ k := hk ▸ he
        simp [hk, hne]
      · simp [hk, he, ih]

theorem get?_update (d : Dict κ ν) (k k' : κ) (f : Option ν → ν) :
    (d.update k f).get? k' = if k' = k then some (f (d.get? k)) else d.get? k' := find?_change k k' f d.entries

theorem mem_entries_update {d : Dict κ ν} {k : κ} {f : Option ν → ν} {e : κ × ν} (h : e ∈ (d.update k f).entries) :
    e ∈ d.entries ∨ e = (k, f (d.get? k)) := by
  have hget := get?_eq_some.mpr h
  rw [get?_update] at hget
  split at hget
  · rename_i hk
    exact .inr (Prod.ext hk (Option.some.inj hget).symm)
  · exact .inl (get?_eq_some.mp hget)

/-! ### Groups -/

/-- `d.setdefault(k, []).append(v)`. -/
def push (d : Dict κ (List ν)) (k : κ) (v : ν) : Dict κ (List ν) := d.update k fun o => o.getD [] ++ [v]

theorem flatMap_change_perm (k : κ) (v : ν) (l : List (κ × List ν)) :
    ((change k (fun o => o.getD [] ++ [v]) l).flatMap Prod.snd).Perm (l.flatMap Prod.snd ++ [v]) := by
  induction l with
  | nil => rfl
  | cons e l ih =>
    rw [change]
    split
    · simp only [flatMap_cons, Option.getD_some, append_assoc]
      exact perm_append_comm.append_left e.2
    · simp only [flatMap_cons, append_assoc]
      exact ih.append_left e.2

theorem flatMap_push_perm (d : Dict κ (List ν)) (k : κ) (v : ν) :
    ((d.push k v).entries.flatMap Prod.snd).Perm (d.entries.flatMap Prod.snd ++ [v]) := flatMap_change_perm k v d.entries

/-! ### Dictionaries of some pairs -/

/-- The later of two pairs with one key wins. -/
def ofPairs (l : List (κ × ν)) : Dict κ ν := l.foldl (fun d e => d.update e.1 fun _ => e.2) .empty

theorem ofPairs_append_one (l : List (κ × ν)) (e : κ × ν) : ofPairs (l ++ [e]) = (ofPairs l).update e.1 fun _ => e.2 := by
  rw [ofPairs, foldl_append]
  rfl

theorem mem_of_get?_ofPairs {l : List (κ × ν)} {k : κ} {v : ν} (h : (ofPairs l).get? k = some v) : (k, v) ∈ l := by
  induction l using List.reverseRecOn with
  | nil => cases h
  | append_singleton l e ih =>
    rw [ofPairs_append_one, get?_update] at h
    split at h
    · rename_i hk
      cases h
      simp [hk]
    · exact mem_append_left _ (ih h)

theorem isSome_get?_ofPairs {l : List (κ × ν)} {k : κ} (h : k ∈ l.map Prod.fst) : ((ofPairs l).get? k).isSome = true := by
  induction l using List.reverseRecOn with
  | nil => cases h
  | append_singleton l e ih =>
    rw [map_append, mem_append, map_singleton, mem_singleton] at h
    rw [ofPairs_append_one, get?_update]
    split
    · rfl
    · rename_i hne
      exact ih (h.resolve_right hne)

theorem change_of_notMem {k : κ} {f : Option ν → ν} {l : List (κ × ν)} (h : k ∉ l.map Prod.fst) : change k f l = l ++ [(k, f none)] := by
  induction l with
  | nil => rfl
  | cons e l ih =>
    rw [map_cons, mem_cons, not_or] at h
    rw [change, if_neg (Ne.symm h.1), ih h.2]
    rfl

theorem entries_ofPairs {l : List (κ × ν)} (h : (l.map Prod.fst).Nodup) : (ofPairs l).entries = l := by
  induction l using List.reverseRecOn with
  | nil => rfl
  | append_singleton l e ih =>
    rw [map_append, nodup_append] at h
    have hnew : e.1 ∉ l.map Prod.fst := fun hmem => h.2.2 _ hmem _ mem_cons_self rfl
    rw [ofPairs_append_one, entries_update, ih h.1]
    exact change_of_notMem hnew

theorem length_entries_update (d : Dict κ ν) (k : κ) (f : Option ν → ν) :
    (d.update k f).entries.length = if k ∈ d.entries.map Prod.fst then d.entries.length else d.entries.length + 1 := by
  have h := congrArg List.length (map_fst_change k f d.entries)
  rw [length_map] at h
  rw [entries_update, h]
  split <;> simp

theorem length_entries_ofPairs (l : List (κ × ν)) : (ofPairs l).entries.length ≤ l.length := by
  induction l using List.reverseRecOn with
  | nil => rfl
  | append_singleton l e ih =>
    rw [ofPairs_append_one, length_entries_update, length_append]
    split <;> simp <;> omega

theorem nodup_of_length_entries {l : List (κ × ν)} (h : (ofPairs l).entries.length = l.length) : (l.map Prod.fst).Nodup := by
  induction l using List.reverseRecOn with
  | nil => exact nodup_nil
  | append_singleton l e ih =>
    have hle := length_entries_ofPairs l
    rw [ofPairs_append_one, length_entries_update, length_append, length_singleton] at h
    split at h
    · omega
    · rename_i hnew
      have hl := ih (by omega)
      rw [entries_ofPairs hl] at hnew
      rw [map_append]
      refine nodup_append.mpr ⟨hl, nodup_singleton _, fun k hk k' hk' => ?_⟩
      rw [mem_singleton.mp hk']
      exact fun heq => hnew (heq ▸ hk)

/-! ### The last of each key -/

section

variable {α : Type*}

/-- `d[key(a)] = a` for each element in turn. -/
def lastPerKey (key : α → κ) (l : List α) : List α :=
  (ofPairs (l.map fun a => (key a, a))).entries.map Prod.snd

theorem get?_ofPairs_append_of_notMem {l l' : List (κ × ν)} {k : κ} (h : k ∉ l'.map Prod.fst) :
    (ofPairs (l ++ l')).get? k = (ofPairs l).get? k := by
  induction l' using List.reverseRecOn with
  | nil => rw [append_nil]
  | append_singleton l' e ih =>
    rw [map_append, mem_append, not_or, map_singleton, mem_singleton] at h
    rw [← append_assoc, ofPairs_append_one, get?_update, if_neg h.2, ih h.1]

theorem mem_lastPerKey {key : α → κ} {l : List α} {a : α} :
    a ∈ lastPerKey key l ↔ (ofPairs (l.map fun a => (key a, a))).get? (key a) = some a := by
  rw [lastPerKey, mem_map, get?_eq_some]
  constructor
  · rintro ⟨⟨k, b⟩, he, rfl⟩
    obtain ⟨c, -, hc⟩ := mem_map.mp (mem_of_get?_ofPairs (get?_eq_some.mpr he))
    cases hc
    exact he
  · intro h
    exact ⟨(key a, a), h, rfl⟩

theorem mem_of_mem_lastPerKey {key : α → κ} {l : List α} {a : α} (h : a ∈ lastPerKey key l) : a ∈ l := by
  obtain ⟨b, hb, heq⟩ := mem_map.mp (mem_of_get?_ofPairs (mem_lastPerKey.mp h))
  rwa [← (Prod.mk.inj heq).2]

theorem mem_lastPerKey_of_last {key : α → κ} {l l' : List α} {a : α} (h : ∀ b ∈ l', key b ≠ key a) :
    a ∈ lastPerKey key (l ++ a :: l') := by
  have hnot : key a ∉ (l'.map fun b => (key b, b)).map Prod.fst := by
    rw [map_map]
    intro hmem
    obtain ⟨b, hb, heq⟩ := mem_map.mp hmem
    exact h b hb heq
  rw [mem_lastPerKey, append_cons, map_append, get?_ofPairs_append_of_notMem hnot,
    map_append, map_singleton, ofPairs_append_one, get?_update, if_pos rfl]

theorem entries_ofPairs_of_same {l : List (κ × ν)} {k : κ} (h : ∀ e ∈ l, e.1 = k) :
    (ofPairs l).entries = l.getLast?.toList := by
  induction l using List.reverseRecOn with
  | nil => rfl
  | append_singleton l e ih =>
    have hl := ih fun e' he' => h e' (mem_append_left _ he')
    rw [ofPairs_append_one, entries_update, hl, getLast?_concat]
    cases hlast : l.getLast? with
    | none => rfl
    | some e' =>
      have he' : e'.1 = e.1 := by
        rw [h e' (mem_append_left _ (mem_of_getLast? hlast)), h e (by simp)]
      simp [change, he']

theorem lastPerKey_of_same {key : α → κ} {l : List α} {k : κ} (h : ∀ a ∈ l, key a = k) :
    lastPerKey key l = l.getLast?.toList := by
  have hpairs : ∀ e ∈ l.map fun a => (key a, a), e.1 = k := by
    intro e he
    obtain ⟨a, ha, rfl⟩ := mem_map.mp he
    exact h a ha
  rw [lastPerKey, entries_ofPairs_of_same hpairs, getLast?_map]
  cases l.getLast? <;> rfl

theorem eq_of_mem_lastPerKey {key : α → κ} {l : List α} {a b : α} (ha : a ∈ lastPerKey key l)
    (hb : b ∈ lastPerKey key l) (h : key a = key b) : a = b := by
  rw [mem_lastPerKey] at ha hb
  rw [h, hb] at ha
  exact (Option.some.inj ha).symm

end

/-! ### Restrictions -/

def filter (d : Dict κ ν) (p : κ → Bool) : Dict κ ν where
  entries := d.entries.filter fun e => p e.1
  nodup := d.nodup.sublist (filter_sublist.map _)

omit [DecidableEq κ] in
theorem entries_filter (d : Dict κ ν) (p : κ → Bool) : (d.filter p).entries = d.entries.filter fun e => p e.1 := rfl

theorem get?_filter_eq_some {d : Dict κ ν} {p : κ → Bool} {k : κ} {v : ν} :
    (d.filter p).get? k = some v ↔ p k = true ∧ d.get? k = some v := by
  simp [get?_eq_some, filter, and_comm]

/-! ### Values -/

section

variable {μ : Type*}

omit [DecidableEq κ] in
theorem map_fst_map (d : Dict κ ν) (f : κ → ν → μ) :
    (d.entries.map fun e => (e.1, f e.1 e.2)).map Prod.fst = d.entries.map Prod.fst := by
  rw [map_map]
  rfl

def mapValues (d : Dict κ ν) (f : κ → ν → μ) : Dict κ μ where
  entries := d.entries.map fun e => (e.1, f e.1 e.2)
  nodup := by
    rw [map_fst_map]
    exact d.nodup

omit [DecidableEq κ] in
@[simp] theorem map_fst_mapValues (d : Dict κ ν) (f : κ → ν → μ) :
    (d.mapValues f).entries.map Prod.fst = d.entries.map Prod.fst := map_fst_map d f

omit [DecidableEq κ] in
theorem mapValues_mapValues {ρ : Type*} (d : Dict κ ν) (f : κ → ν → μ) (g : κ → μ → ρ) :
    (d.mapValues f).mapValues g = d.mapValues fun k v => g k (f k v) := by
  simp only [mapValues, map_map]
  rfl

omit [DecidableEq κ] in
theorem mapValues_eq_self {d : Dict κ ν} {f : κ → ν → ν} (h : ∀ e ∈ d.entries, f e.1 e.2 = e.2) : d.mapValues f = d := by
  have hentries : (d.entries.map fun e => (e.1, f e.1 e.2)) = d.entries := by
    calc (d.entries.map fun e => (e.1, f e.1 e.2)) = d.entries.map id :=
          map_congr_left fun e he => Prod.ext rfl (h e he)
      _ = d.entries := map_id _
  cases d
  simp only [mapValues]
  congr 1

theorem get?_mapValues (d : Dict κ ν) (f : κ → ν → μ) (k : κ) :
    (d.mapValues f).get? k = (d.get? k).map (f k) := by
  rw [get?, get?, mapValues, find?_map, Option.map_map, Option.map_map]
  show Option.map _ (d.entries.find? fun e => e.1 = k) = _
  cases he : d.entries.find? fun e => e.1 = k with
  | none => rfl
  | some e =>
    have hk : e.1 = k := by simpa using find?_some he
    simp [hk]

end

/-! ### Counters -/

def count (d : Dict κ ℕ) (k : κ) : ℕ := (d.get? k).getD 0

def add (d : Dict κ ℕ) (k : κ) (n : ℕ) : Dict κ ℕ := d.update k fun o => o.getD 0 + n

def tally (d : Dict κ ℕ) (k : κ) : Dict κ ℕ := d.add k 1

theorem count_add (d : Dict κ ℕ) (k k' : κ) (n : ℕ) : (d.add k n).count k' = d.count k' + if k' = k then n else 0 := by
  rw [count, add, get?_update]
  by_cases hk : k' = k
  · simp [hk, count]
  · simp [hk, count]

theorem count_tally (d : Dict κ ℕ) (k k' : κ) : (d.tally k).count k' = d.count k' + if k' = k then 1 else 0 := count_add d k k' 1

theorem count_foldl_tally [BEq κ] [LawfulBEq κ] (d : Dict κ ℕ) (l : List κ) (k : κ) : (l.foldl tally d).count k = d.count k + l.count k := by
  induction l generalizing d with
  | nil => rfl
  | cons k' l ih =>
    rw [foldl_cons, ih, count_tally, count_cons]
    by_cases hk : k = k'
    · simp [hk]
      omega
    · simp [hk, Ne.symm hk]

end

/-! ### The entries in the order of the keys -/

variable [LinearOrder κ] (d : Dict κ ν)

def sorted : List (κ × ν) := d.entries.insertionSort fun e e' => e.1 ≤ e'.1

theorem perm_sorted : d.sorted.Perm d.entries := perm_insertionSort _ _

theorem mem_sorted {e : κ × ν} : e ∈ d.sorted ↔ e ∈ d.entries := d.perm_sorted.mem_iff

theorem pairwise_sorted : d.sorted.Pairwise fun e e' => e.1 < e'.1 := by
  have hle : d.sorted.Pairwise fun e e' => e.1 ≤ e'.1 := by
    have htotal : Std.Total fun e e' : κ × ν => e.1 ≤ e'.1 := ⟨fun e e' => le_total e.1 e'.1⟩
    have htrans : IsTrans (κ × ν) fun e e' => e.1 ≤ e'.1 := ⟨fun _ _ _ => le_trans⟩
    exact pairwise_insertionSort _ _
  have hne : d.sorted.Pairwise fun e e' => e.1 ≠ e'.1 := by
    have hnodup : (d.sorted.map Prod.fst).Nodup := (d.perm_sorted.map Prod.fst).nodup_iff.mpr d.nodup
    exact pairwise_map.mp hnodup
  exact (hle.and hne).imp fun h => lt_of_le_of_ne h.1 h.2

end Dict

end SyrocePms.Lib
