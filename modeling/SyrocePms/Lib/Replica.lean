import Mathlib.Data.List.Pairwise
import Mathlib.Data.Set.Basic
import Mathlib.Order.Nat

/-! Registers that are kept in two places. A log of updates says what the cells hold: the
newest update that has a cell decides. The source gives each of its updates a version of
its own, and the replica takes the updates, whole or in part, in some order. When it never
takes an older update of a cell after a newer one, a cell whose last update it has taken
holds what it holds at the source. -/

namespace SyrocePms.Lib

open List

variable {κ ν : Type*}
variable {v : ν}

/-- New values of some cells, of which the first counts. -/
structure Update (κ ν : Type*) where
  version : ℕ
  writes : List (κ × ν)

namespace Update

variable [DecidableEq κ]

def cells (u : Update κ ν) : List κ := u.writes.map Prod.fst

def valueAt (u : Update κ ν) (c : κ) : Option ν :=
  (u.writes.find? fun w => w.1 = c).map Prod.snd

def without (u : Update κ ν) (missed : List κ) : Update κ ν where
  version := u.version
  writes := u.writes.filter fun w => w.1 ∉ missed

/-- The two have a cell in common. -/
def Meets (u w : Update κ ν) : Prop := ∃ c ∈ u.cells, c ∈ w.cells

instance (u w : Update κ ν) : Decidable (u.Meets w) :=
  inferInstanceAs (Decidable (∃ c ∈ u.cells, c ∈ w.cells))

def PartOf (w u : Update κ ν) : Prop :=
  w.version = u.version ∧ ∀ c ∈ w.cells, c ∈ u.cells ∧ w.valueAt c = u.valueAt c

variable {u w : Update κ ν} {c : κ}

theorem mem_cells : c ∈ u.cells ↔ ∃ v, u.valueAt c = some v := by
  simp only [cells, valueAt, mem_map, Option.map_eq_some_iff]
  constructor
  · rintro ⟨x, hx, rfl⟩
    cases hfind : u.writes.find? fun w => w.1 = x.1 with
    | none =>
      have hno := find?_eq_none.mp hfind x hx
      simp at hno
    | some y => exact ⟨y.2, y, rfl, rfl⟩
  · rintro ⟨v, x, hx, -⟩
    exact ⟨x, mem_of_find?_eq_some hx, by simpa using find?_some hx⟩

theorem valueAt_eq_none : u.valueAt c = none ↔ c ∉ u.cells := by
  rw [mem_cells]
  cases u.valueAt c <;> simp

theorem mem_cells_without {missed : List κ} :
    c ∈ (u.without missed).cells ↔ c ∈ u.cells ∧ c ∉ missed := by
  simp only [cells, without, mem_map, mem_filter, decide_eq_true_eq]
  constructor
  · rintro ⟨x, ⟨hx, hm⟩, rfl⟩
    exact ⟨⟨x, hx, rfl⟩, hm⟩
  · rintro ⟨⟨x, hx, rfl⟩, hm⟩
    exact ⟨x, ⟨hx, hm⟩, rfl⟩

theorem without_partOf (u : Update κ ν) (missed : List κ) : (u.without missed).PartOf u := by
  refine ⟨rfl, fun c hc => ?_⟩
  obtain ⟨hu, hm⟩ := mem_cells_without.mp hc
  refine ⟨hu, ?_⟩
  simp only [valueAt, without, find?_filter]
  congr 2
  funext x
  by_cases hx : x.1 = c
  · subst hx; simp [hm]
  · simp [hx]

end Update

variable [DecidableEq κ] {log src rep : List (Update κ ν)} {u w : Update κ ν} {c : κ}

def current (log : List (Update κ ν)) (c : κ) : Option ν := log.findSome? fun u => u.valueAt c

def newest (log : List (Update κ ν)) (c : κ) : Option (Update κ ν) := log.find? fun u => c ∈ u.cells

/-- No update of a cell comes after a newer one. -/
def InOrder (log : List (Update κ ν)) : Prop :=
  log.Pairwise fun later earlier => later.Meets earlier → earlier.version ≤ later.version

def Versioned (log : List (Update κ ν)) : Prop :=
  log.Pairwise fun later earlier => earlier.version < later.version

structure IsLast (log : List (Update κ ν)) (u : Update κ ν) (c : κ) : Prop where
  mem : u ∈ log
  cell : c ∈ u.cells
  last : ∀ w ∈ log, c ∈ w.cells → w.version ≤ u.version

theorem current_cons : current (u :: log) c = (u.valueAt c).or (current log c) := by
  simp only [current, findSome?_cons]
  cases u.valueAt c <;> rfl

theorem current_cons_of_mem (h : c ∈ u.cells) : current (u :: log) c = u.valueAt c := by
  obtain ⟨v, hv⟩ := Update.mem_cells.mp h
  rw [current_cons, hv, Option.some_or]

theorem current_cons_of_not_mem (h : c ∉ u.cells) : current (u :: log) c = current log c := by
  rw [current_cons, Update.valueAt_eq_none.mpr h, Option.none_or]

theorem exists_mem_of_current (h : current log c = some v) : ∃ u ∈ log, c ∈ u.cells := by
  obtain ⟨u, hu, hv⟩ := exists_of_findSome?_eq_some h
  exact ⟨u, hu, Update.mem_cells.mpr ⟨v, hv⟩⟩

theorem newest_cons_of_mem (h : c ∈ u.cells) : newest (u :: log) c = some u :=
  find?_cons_of_pos (by simpa using h)

theorem newest_cons_of_not_mem (h : c ∉ u.cells) : newest (u :: log) c = newest log c :=
  find?_cons_of_neg (by simpa using h)

theorem exists_newest (hw : w ∈ log) (hc : c ∈ w.cells) :
    ∃ u ∈ log, c ∈ u.cells ∧ newest log c = some u := by
  cases hnewest : newest log c with
  | none => exact absurd hc (by simpa using find?_eq_none.mp hnewest w hw)
  | some u =>
    exact ⟨u, mem_of_find?_eq_some hnewest, by simpa using find?_some hnewest, rfl⟩

theorem rel_of_newest {R : Update κ ν → Update κ ν → Prop} (hR : log.Pairwise R)
    (h : newest log c = some u) (hw : w ∈ log) (hc : c ∈ w.cells) : w = u ∨ R u w := by
  induction log with
  | nil => cases hw
  | cons y log ih =>
    rw [pairwise_cons] at hR
    by_cases hy : c ∈ y.cells
    · rw [newest_cons_of_mem hy] at h
      obtain rfl := Option.some.inj h
      exact (mem_cons.mp hw).imp_right (hR.1 w)
    · rw [newest_cons_of_not_mem hy] at h
      exact ih hR.2 h ((mem_cons.mp hw).resolve_left fun hwy => hy (hwy ▸ hc))

/-- The newest update of a cell says what it holds. -/
theorem current_of_newest (h : newest log c = some u) : current log c = u.valueAt c := by
  induction log with
  | nil => cases h
  | cons y log ih =>
    by_cases hy : c ∈ y.cells
    · rw [newest_cons_of_mem hy] at h
      rw [current_cons_of_mem hy, Option.some.inj h]
    · rw [newest_cons_of_not_mem hy] at h
      rw [current_cons_of_not_mem hy, ih h]

theorem InOrder.exists_newest (h : InOrder log) (hw : w ∈ log) (hc : c ∈ w.cells) :
    ∃ u, IsLast log u c ∧ current log c = u.valueAt c := by
  obtain ⟨u, hu, huc, hnewest⟩ := Lib.exists_newest hw hc
  refine ⟨u, ⟨hu, huc, fun x hx hxc => ?_⟩, current_of_newest hnewest⟩
  obtain rfl | hle := rel_of_newest h hnewest hx hxc
  · exact le_rfl
  · exact hle ⟨c, huc, hxc⟩

omit [DecidableEq κ] in
theorem Versioned.inOrder (h : Versioned log) : InOrder log := h.imp fun hlt _ => hlt.le

omit [DecidableEq κ] in
theorem Versioned.eq_of_version (h : Versioned log) (hu : u ∈ log) (hw : w ∈ log)
    (hv : u.version = w.version) : u = w := by
  have hpair : log.Pairwise fun x y => x.version = y.version → x = y :=
    h.imp fun hlt heq => absurd heq hlt.ne'
  have hflip : log.Pairwise (flip fun x y : Update κ ν => x.version = y.version → x = y) :=
    h.imp fun hlt heq => absurd heq hlt.ne
  exact hpair.forall_of_forall_of_flip (fun _ _ _ => rfl) hflip hu hw hv

theorem Versioned.exists_isLast (h : Versioned src) (hw : w ∈ src) (hc : c ∈ w.cells) :
    ∃ u, IsLast src u c ∧ current src c = u.valueAt c :=
  h.inOrder.exists_newest hw hc

/-- A replica in order that has taken the last update of a cell agrees with the source. -/
theorem current_of_taken (hsrc : Versioned src) (hrep : InOrder rep)
    (hpart : ∀ x ∈ rep, ∃ y ∈ src, x.PartOf y) (hu : IsLast src u c) (hw : w ∈ rep)
    (hc : c ∈ w.cells) (hv : w.version = u.version) : current rep c = u.valueAt c := by
  obtain ⟨x, hx, hcur⟩ := hrep.exists_newest hw hc
  obtain ⟨y, hy, hver, hval⟩ := hpart x hx.mem
  obtain ⟨hyc, heq⟩ := hval c hx.cell
  -- the newest at the replica is not older than `w` and not newer than the last
  have hyu : y.version = u.version := by
    have hle := hu.last y hy hyc
    have hge := hx.last w hw hc
    omega
  rw [hcur, heq, hsrc.eq_of_version hy hu.mem hyu]

/-! ### The queue between the two -/

/-- The updates in `queue` are still to be taken. Whatever else has come last at the source
the replica has, and the replica has taken nothing that is newer than what is queued. -/
structure Feeds (src rep : List (Update κ ν)) (queue : Set (Update κ ν)) : Prop where
  inOrder : InOrder rep
  ahead : ∀ d ∈ rep, ∀ w ∈ queue, d.Meets w → d.version ≤ w.version
  owed : ∀ u c, IsLast src u c → u ∈ queue ∨
    current rep c = u.valueAt c ∧ ∀ w ∈ queue, c ∈ w.cells → u.version ≤ w.version

namespace Feeds

variable {queue queue' : Set (Update κ ν)} {d : Update κ ν}

theorem converged (h : Feeds src rep queue) (hsrc : Versioned src) (hc : current src c = some v)
    (hq : ∀ w ∈ queue, c ∉ w.cells) : current rep c = some v := by
  obtain ⟨w, hw, hwc⟩ := exists_mem_of_current hc
  obtain ⟨u, hu, hcur⟩ := hsrc.exists_isLast hw hwc
  obtain hmem | ⟨hrep, -⟩ := h.owed u c hu
  · exact absurd hu.cell (hq u hmem)
  · rw [hrep, ← hcur, hc]

theorem empty : Feeds ([] : List (Update κ ν)) [] ∅ where
  inOrder := .nil
  ahead _ hd := by cases hd
  owed _ _ hu := by cases hu.mem

theorem publish (h : Feeds src rep queue) (hsrc : Versioned (u :: src))
    (hpart : ∀ x ∈ rep, ∃ y ∈ src, x.PartOf y) (hu : u ∈ queue')
    (hq : ∀ w ∈ queue', w = u ∨ w ∈ queue)
    (hout : ∀ w ∈ queue, w ∉ queue' → ∀ c ∈ w.cells, c ∈ u.cells) : Feeds (u :: src) rep queue' where
  inOrder := h.inOrder
  ahead d hd w hw hmeets := by
    obtain rfl | hw := hq w hw
    · obtain ⟨y, hy, hver, -⟩ := hpart d hd
      have hlt := (pairwise_cons.mp hsrc).1 y hy
      omega
    · exact h.ahead d hd w hw hmeets
  owed x c hx := by
    obtain rfl | hmem := mem_cons.mp hx.mem
    · exact .inl hu
    · have hnot : c ∉ u.cells := fun hc => by
        have hlt := (pairwise_cons.mp hsrc).1 x hmem
        have hle := hx.last u mem_cons_self hc
        omega
      have hlast : IsLast src x c :=
        ⟨hmem, hx.cell, fun w hw => hx.last w (mem_cons_of_mem _ hw)⟩
      obtain hin | ⟨hcur, hno⟩ := h.owed x c hlast
      · by_cases hin' : x ∈ queue'
        · exact .inl hin'
        · exact absurd (hout x hin hin' c hx.cell) hnot
      · refine .inr ⟨hcur, fun w hw hwc => ?_⟩
        obtain rfl | hw := hq w hw
        · exact absurd hwc hnot
        · exact hno w hw hwc

theorem deliver (h : Feeds src rep queue) (hsrc : Versioned src) (hsub : ∀ x ∈ queue, x ∈ src)
    (hw : w ∈ queue) (hd : d.PartOf w) (hfirst : ∀ x ∈ queue, x.Meets w → w.version ≤ x.version) :
    Feeds src (d :: rep) queue where
  inOrder := by
    refine pairwise_cons.mpr ⟨fun e he ⟨c, hdc, hec⟩ => ?_, h.inOrder⟩
    rw [hd.1]
    exact h.ahead e he w hw ⟨c, hec, (hd.2 c hdc).1⟩
  ahead e he x hx hmeets := by
    obtain rfl | he := mem_cons.mp he
    · obtain ⟨c, hec, hxc⟩ := hmeets
      rw [hd.1]
      exact hfirst x hx ⟨c, hxc, (hd.2 c hec).1⟩
    · exact h.ahead e he x hx hmeets
  owed u c hu := by
    obtain hin | ⟨hcur, hno⟩ := h.owed u c hu
    · exact .inl hin
    · by_cases hc : c ∈ d.cells
      · -- the queued update has the cell, so that it is the last itself
        have hwc := (hd.2 c hc).1
        have hge := hno w hw hwc
        have hle := hu.last w (hsub w hw) hwc
        have heq : w = u := hsrc.eq_of_version (hsub w hw) hu.mem (by omega)
        exact .inl (heq ▸ hw)
      · exact .inr ⟨(current_cons_of_not_mem hc).trans hcur, hno⟩

theorem settle (h : Feeds src rep queue) (hq : ∀ x ∈ queue', x ∈ queue)
    (hout : ∀ x ∈ queue, x ∉ queue' → x = w)
    (hfirst : ∀ x ∈ queue, x.Meets w → w.version ≤ x.version)
    (hcur : ∀ c, IsLast src w c → current rep c = w.valueAt c) : Feeds src rep queue' where
  inOrder := h.inOrder
  ahead d hd x hx := h.ahead d hd x (hq x hx)
  owed u c hu := by
    obtain hin | ⟨hrep, hno⟩ := h.owed u c hu
    · by_cases hin' : u ∈ queue'
      · exact .inl hin'
      · obtain rfl := hout u hin hin'
        exact .inr ⟨hcur c hu, fun x hx hxc => hfirst x (hq x hx) ⟨c, hxc, hu.cell⟩⟩
    · exact .inr ⟨hrep, fun x hx => hno x (hq x hx)⟩

theorem confirm (h : Feeds src rep queue) (hsrc : Versioned src)
    (hpart : ∀ x ∈ rep, ∃ y ∈ src, x.PartOf y) (hq : ∀ x ∈ queue', x ∈ queue) (hout : ∀ x ∈ queue, x ∉ queue' → x = w)
    (hall : ∀ c ∈ w.cells, ∃ d ∈ rep, d.version = w.version ∧ c ∈ d.cells) :
    Feeds src rep queue' := by
  refine h.settle hq hout (fun x hx ⟨c, hxc, hwc⟩ => ?_) fun c hlast => ?_
  · obtain ⟨d, hd, hver, hdc⟩ := hall c hwc
    rw [← hver]
    exact h.ahead d hd x hx ⟨c, hdc, hxc⟩
  · obtain ⟨d, hd, hver, hdc⟩ := hall c hlast.cell
    exact current_of_taken hsrc h.inOrder hpart hlast hd hdc hver

theorem requeue (h : Feeds src rep queue) (hpart : ∀ x ∈ rep, ∃ y ∈ src, x.PartOf y)
    (hsub : ∀ x ∈ queue, x ∈ queue')
    (hnew : ∀ x ∈ queue', x ∈ queue ∨ ∀ y ∈ src, y.Meets x → y.version ≤ x.version) :
    Feeds src rep queue' where
  inOrder := h.inOrder
  ahead d hd x hx hmeets := by
    obtain hx | hx := hnew x hx
    · exact h.ahead d hd x hx hmeets
    · obtain ⟨y, hy, hver, hval⟩ := hpart d hd
      obtain ⟨c, hdc, hxc⟩ := hmeets
      rw [hver]
      exact hx y hy ⟨c, (hval c hdc).1, hxc⟩
  owed u c hu := by
    obtain hin | ⟨hcur, hno⟩ := h.owed u c hu
    · exact .inl (hsub u hin)
    · refine .inr ⟨hcur, fun x hx hxc => ?_⟩
      obtain hx | hx := hnew x hx
      · exact hno x hx hxc
      · exact hx u hu.mem ⟨c, hu.cell, hxc⟩

end Feeds

end SyrocePms.Lib
