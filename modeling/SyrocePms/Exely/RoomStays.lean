import Mathlib.Algebra.Order.Ring.Int
import Mathlib.Data.List.Perm.Subperm
import Mathlib.Data.List.Pairwise
import SyrocePms.Lib.Dict

/-! The room stays of a reservation version on the slots of the one before. A room stay takes the slot
of its index number if that is free, else the lowest free slot of an active row, else a new one. -/

namespace SyrocePms.Exely

open Lib List

variable {ι β : Type*}
variable {i : ι}

/-- A row of `room_stay_lineage`. -/
structure LineageRow (ι : Type*) where
  slot : ℤ
  index : Option ι
  active : Bool := true
  booking : Option ℕ := none
  deriving DecidableEq

/-- An incoming room stay, which may have no index number. -/
structure IncomingStay (ι β : Type*) where
  index : Option ι
  content : β
  deriving DecidableEq

structure AssignedStay (ι β : Type*) where
  slot : ℤ
  booking : Option ℕ
  room : IncomingStay ι β
  deriving DecidableEq

/-- The room stays that have a slot, and the next new one. -/
structure Assignment (ι β : Type*) where
  assigned : List (AssignedStay ι β)
  next : ℤ

def Assignment.used (s : Assignment ι β) : List ℤ := s.assigned.map AssignedStay.slot

variable {d : Dict ι (LineageRow ι)} {r : LineageRow ι}

section

variable [DecidableEq ι]

/-! ### The assignment -/

def addIndex (d : Dict ι (LineageRow ι)) (row : LineageRow ι) : Dict ι (LineageRow ι) :=
  row.index.elim d fun i => d.update i fun _ => row

def byIndex (rows : List (LineageRow ι)) : Dict ι (LineageRow ι) := rows.foldl addIndex .empty

def bySlot (rows : List (LineageRow ι)) : List (LineageRow ι) := rows.insertionSort fun row row' => row.slot ≤ row'.slot

def assignSlot (active : List (LineageRow ι)) (s : Assignment ι β) (room : IncomingStay ι β) : Assignment ι β :=
  let own := (room.index.bind (byIndex active).get?).filter fun row => row.slot ∉ s.used
  match own.or ((bySlot active).find? fun row => row.slot ∉ s.used) with
  | some row => { s with assigned := s.assigned ++ [⟨row.slot, row.booking, room⟩] }
  | none => ⟨s.assigned ++ [⟨s.next, none, room⟩], s.next + 1⟩

def activeRows (previous : List (LineageRow ι)) : List (LineageRow ι) := previous.filter LineageRow.active

def firstNewSlot (previous : List (LineageRow ι)) : ℤ := (previous.map LineageRow.slot).max?.getD (-1) + 1

def assignment (previous : List (LineageRow ι)) (rooms : List (IncomingStay ι β)) : Assignment ι β :=
  rooms.foldl (assignSlot (activeRows previous)) ⟨[], firstNewSlot previous⟩

def assignSlots (previous : List (LineageRow ι)) (rooms : List (IncomingStay ι β)) :
    List (AssignedStay ι β) × List (LineageRow ι) :=
  ((assignment previous rooms).assigned,
    (activeRows previous).filter fun row => row.slot ∉ (assignment previous rooms).used)

/-! ### What it should keep -/

def LineageRow.isOf (row : LineageRow ι) (room : IncomingStay ι β) : Bool := row.index.isSome && room.index = row.index

def isNew (active : List (LineageRow ι)) (room : IncomingStay ι β) : Bool := !active.any fun row => row.isOf room

/-- Active rows whose index number does not come again. -/
def freeRows (previous : List (LineageRow ι)) (rooms : List (IncomingStay ι β)) : List (LineageRow ι) :=
  (activeRows previous).filter fun row => !rooms.any fun room => row.isOf room

structure KeepsBookings (previous : List (LineageRow ι)) (rooms : List (IncomingStay ι β)) : Prop where
  placed : (assignSlots previous rooms).1.map AssignedStay.room = rooms
  kept : ∀ x ∈ (assignSlots previous rooms).1, ∀ row ∈ activeRows previous, row.isOf x.room = true →
    x.slot = row.slot ∧ x.booking = row.booking
  distinct : ((assignSlots previous rooms).1.map AssignedStay.slot).Nodup
  removed : ∀ row, row ∈ (assignSlots previous rooms).2 ↔
    row ∈ activeRows previous ∧ ∀ x ∈ (assignSlots previous rooms).1, x.slot ≠ row.slot
  unused : ∀ x ∈ (assignSlots previous rooms).1, ∀ row ∈ previous, row.slot = x.slot → row.active = true

def LeavesSlots (previous : List (LineageRow ι)) (rooms : List (IncomingStay ι β)) : Prop :=
  ∀ k < rooms.length, ∀ row ∈ activeRows previous, (rooms[k]?).any (fun room => row.isOf room) = true →
    (rooms.take k).countP (isNew (activeRows previous)) ≤ (freeRows previous rooms).countP fun r => r.slot < row.slot

instance (previous : List (LineageRow ι)) (rooms : List (IncomingStay ι β)) : Decidable (LeavesSlots previous rooms) :=
  inferInstanceAs (Decidable (∀ k < rooms.length, ∀ row ∈ activeRows previous, (rooms[k]?).any (fun room => row.isOf room) = true →
    (rooms.take k).countP (isNew (activeRows previous)) ≤ (freeRows previous rooms).countP fun r => r.slot < row.slot))

variable {previous active rows : List (LineageRow ι)} {rooms : List (IncomingStay ι β)} {s : Assignment ι β}
  {room : IncomingStay ι β} {row : LineageRow ι} {x : AssignedStay ι β}

omit [DecidableEq ι] in
theorem slot_lt_firstNewSlot (h : row ∈ previous) : row.slot < firstNewSlot previous := by
  unfold firstNewSlot
  cases hmax : (previous.map LineageRow.slot).max? with
  | none =>
    rw [max?_eq_none_iff, map_eq_nil_iff] at hmax
    simp [hmax] at h
  | some m =>
    have hle := (max?_eq_some_iff.mp hmax).2 row.slot (mem_map_of_mem h)
    simp only [Option.getD_some]
    omega

/-! ### One room stay -/

theorem get?_addIndex (d : Dict ι (LineageRow ι)) (r : LineageRow ι) (i : ι) :
    (addIndex d r).get? i = if r.index = some i then some r else d.get? i := by
  unfold addIndex
  cases hindex : r.index with
  | none => simp
  | some j => simp [Dict.get?_update, eq_comm]

theorem byIndex_sound (h : (rows.foldl addIndex d).get? i = some row) :
    (row ∈ rows ∧ row.index = some i) ∨ d.get? i = some row := by
  induction rows generalizing d with
  | nil => exact .inr h
  | cons r rows ih =>
    obtain ⟨hr, hi⟩ | h := ih h
    · exact .inl ⟨mem_cons_of_mem _ hr, hi⟩
    · rw [get?_addIndex] at h
      split at h
      · rename_i hri
        cases h
        exact .inl ⟨mem_cons_self, hri⟩
      · exact .inr h

theorem byIndex_complete (h : (∃ row ∈ rows, row.index = some i) ∨ (d.get? i).isSome = true) :
    ((rows.foldl addIndex d).get? i).isSome = true := by
  induction rows generalizing d with
  | nil =>
    obtain ⟨row, hrow, -⟩ | h := h
    · cases hrow
    · exact h
  | cons r rows ih =>
    refine ih ?_
    rw [get?_addIndex]
    obtain ⟨row, hrow, hi⟩ | h := h
    · obtain rfl | hrow := mem_cons.mp hrow
      · exact .inr (by simp [hi])
      · exact .inl ⟨row, hrow, hi⟩
    · right
      split <;> simp [h]

omit [DecidableEq ι] in
theorem eq_of_index (hindexes : (rows.filterMap LineageRow.index).Nodup) (hr : r ∈ rows)
    (hrow : row ∈ rows) (hi : r.index = some i) (hi' : row.index = some i) : r = row := by
  have hpairs := pairwise_filterMap.mp hindexes
  by_contra hne
  have hsymm : Std.Symm fun a a' : LineageRow ι => ∀ b, a.index = some b → ∀ b', a'.index = some b' → b ≠ b' :=
    ⟨fun a a' h b hb b' hb' => (h b' hb' b hb).symm⟩
  exact hpairs.forall hr hrow hne i hi i hi' rfl

theorem isOf_iff : row.isOf room = true ↔ ∃ i, row.index = some i ∧ room.index = some i := by
  simp only [LineageRow.isOf, Bool.and_eq_true, decide_eq_true_eq, Option.isSome_iff_exists]
  constructor
  · rintro ⟨⟨i, hi⟩, heq⟩
    exact ⟨i, hi, heq.trans hi⟩
  · rintro ⟨i, hi, hi'⟩
    exact ⟨⟨i, hi⟩, hi'.trans hi.symm⟩

theorem byIndex_eq_some (hindexes : (rows.filterMap LineageRow.index).Nodup) :
    room.index.bind (byIndex rows).get? = some row ↔ row ∈ rows ∧ row.isOf room = true := by
  rw [Option.bind_eq_some_iff, isOf_iff]
  constructor
  · rintro ⟨i, hi, hget⟩
    obtain ⟨hmem, hri⟩ | hnone := byIndex_sound hget
    · exact ⟨hmem, i, hri, hi⟩
    · cases hnone
  · rintro ⟨hrow, i, hri, hi⟩
    obtain ⟨r, hr⟩ := Option.isSome_iff_exists.mp (byIndex_complete (d := .empty) (.inl ⟨row, hrow, hri⟩))
    obtain ⟨hmem, hri'⟩ | hnone := byIndex_sound hr
    · rw [eq_of_index hindexes hmem hrow hri' hri] at hr
      exact ⟨i, hi, hr⟩
    · cases hnone

omit [DecidableEq ι] in
theorem bySlot_find {used : List ℤ} (h : (bySlot active).find? (fun row => decide (row.slot ∉ used)) = some row) :
    row ∈ active ∧ row.slot ∉ used ∧ ∀ r ∈ active, r.slot ∉ used → row.slot ≤ r.slot := by
  have hmem : row ∈ bySlot active := mem_of_find?_eq_some h
  have hsorted : (bySlot active).Pairwise fun r r' => r.slot ≤ r'.slot := by
    have htotal : Std.Total fun r r' : LineageRow ι => r.slot ≤ r'.slot := ⟨fun r r' => le_total r.slot r'.slot⟩
    have htrans : IsTrans (LineageRow ι) fun r r' => r.slot ≤ r'.slot := ⟨fun _ _ _ => le_trans⟩
    exact pairwise_insertionSort _ _
  obtain ⟨hfree, l₁, l₂, hsplit, hbefore⟩ := find?_eq_some_iff_append.mp h
  refine ⟨(mem_insertionSort _).mp hmem, by simpa using hfree, fun r hr hunused => ?_⟩
  have hr' : r ∈ bySlot active := (mem_insertionSort _).mpr hr
  rw [hsplit] at hr' hsorted
  obtain hr' | hr' := mem_append.mp hr'
  · have hused := hbefore r hr'
    simp [hunused] at hused
  · obtain rfl | hr' := mem_cons.mp hr'
    · exact le_rfl
    · exact (pairwise_cons.mp (pairwise_append.mp hsorted).2.1).1 r hr'

theorem assignSlot_spec (hindexes : (active.filterMap LineageRow.index).Nodup) (s : Assignment ι β) (room : IncomingStay ι β) :
    ∃ x : AssignedStay ι β, (assignSlot active s room).assigned = s.assigned ++ [x] ∧ x.room = room ∧
      (∀ row ∈ active, row.isOf room = true → row.slot ∉ s.used → x.slot = row.slot ∧ x.booking = row.booking) ∧
      ((∃ row ∈ active, row.slot = x.slot ∧ x.slot ∉ s.used ∧ (assignSlot active s room).next = s.next ∧
          (row.isOf room = true ∨ ∀ r ∈ active, r.slot ∉ s.used → x.slot ≤ r.slot)) ∨
        ((∀ row ∈ active, row.slot ∈ s.used) ∧ x.slot = s.next ∧ (assignSlot active s room).next = s.next + 1)) := by
  simp only [assignSlot]
  cases hown : (room.index.bind (byIndex active).get?).filter fun row => decide (row.slot ∉ s.used) with
  | some row =>
    obtain ⟨hrow, hfree⟩ := Option.filter_eq_some_iff.mp hown
    obtain ⟨hmem, hof⟩ := (byIndex_eq_some hindexes).mp hrow
    refine ⟨⟨row.slot, row.booking, room⟩, rfl, rfl, fun r hr hrof _ => ?_,
      .inl ⟨row, hmem, rfl, by simpa using hfree, rfl, .inl hof⟩⟩
    have hsame := (byIndex_eq_some hindexes).mpr ⟨hr, hrof⟩
    rw [hrow] at hsame
    cases hsame
    exact ⟨rfl, rfl⟩
  | none =>
    have hnone : ∀ r ∈ active, r.isOf room = true → r.slot ∈ s.used := by
      intro r hr hrof
      rw [(byIndex_eq_some hindexes).mpr ⟨hr, hrof⟩] at hown
      by_contra hunused
      simp [Option.filter, hunused] at hown
    rw [Option.none_or]
    cases hlow : (bySlot active).find? fun row => decide (row.slot ∉ s.used) with
    | some row =>
      obtain ⟨hmem, hfree, hleast⟩ := bySlot_find hlow
      exact ⟨⟨row.slot, row.booking, room⟩, rfl, rfl, fun r hr hrof hunused => absurd (hnone r hr hrof) hunused,
        .inl ⟨row, hmem, rfl, hfree, rfl, .inr hleast⟩⟩
    | none =>
      refine ⟨⟨s.next, none, room⟩, rfl, rfl, fun r hr hrof hunused => absurd (hnone r hr hrof) hunused, .inr ⟨fun r hr => ?_, rfl, rfl⟩⟩
      have hused := find?_eq_none.mp hlow r ((mem_insertionSort _).mpr hr)
      simpa using hused

/-! ### All room stays -/

theorem assignment_append_one : assignment previous (rooms ++ [room]) =
    assignSlot (activeRows previous) (assignment previous rooms) room := by
  rw [assignment, foldl_append]
  rfl

structure Placed (previous : List (LineageRow ι)) (rooms : List (IncomingStay ι β)) (s : Assignment ι β) : Prop where
  placed : s.assigned.map AssignedStay.room = rooms
  distinct : s.used.Nodup
  slots : ∀ x ∈ s.assigned, (∃ row ∈ activeRows previous, row.slot = x.slot) ∨ (firstNewSlot previous ≤ x.slot ∧ x.slot < s.next)
  next : firstNewSlot previous ≤ s.next

/-- A room stay of the assignment took its slot when those before it had theirs. -/
structure Took (previous : List (LineageRow ι)) (before : List (IncomingStay ι β)) (x : AssignedStay ι β) : Prop where
  own : ∀ row ∈ activeRows previous, row.isOf x.room = true → row.slot ∉ (assignment previous before).used →
    x.slot = row.slot ∧ x.booking = row.booking
  lowest : ∀ row ∈ activeRows previous, row.slot ∉ (assignment previous before).used →
    (∃ row' ∈ activeRows previous, row'.slot = x.slot) ∧
      (isNew (activeRows previous) x.room = true → x.slot ≤ row.slot)

omit [DecidableEq ι] in
theorem active_indexes (hindexes : (previous.filterMap LineageRow.index).Nodup) :
    ((activeRows previous).filterMap LineageRow.index).Nodup :=
  hindexes.sublist (filter_sublist.filterMap _)

theorem placed_step (hindexes : (previous.filterMap LineageRow.index).Nodup)
    (h : Placed previous rooms (assignment previous rooms)) (room : IncomingStay ι β) :
    Placed previous (rooms ++ [room]) (assignment previous (rooms ++ [room])) ∧
      ∃ x, (assignment previous (rooms ++ [room])).assigned = (assignment previous rooms).assigned ++ [x] ∧
        x.room = room ∧ Took previous rooms x := by
  rw [assignment_append_one]
  obtain ⟨x, hx, hroom, hown, hslot⟩ :=
    assignSlot_spec (active_indexes hindexes) (assignment previous rooms) room
  have hunused : x.slot ∉ (assignment previous rooms).used := by
    obtain ⟨row, -, hrow, hfree, -⟩ | ⟨-, hnext, -⟩ := hslot
    · exact hfree
    · -- a new slot is above all rows, and above the new ones before it
      intro hmem
      obtain ⟨y, hy, heq⟩ := mem_map.mp hmem
      obtain ⟨row, hrow, hys⟩ | ⟨-, hlt⟩ := h.slots y hy
      · have hlow := slot_lt_firstNewSlot (mem_of_mem_filter hrow)
        have hbase := h.next
        omega
      · omega
  have hnext : (assignment previous rooms).next ≤ (assignSlot (activeRows previous) (assignment previous rooms) room).next := by
    obtain ⟨row, -, -, -, hn, -⟩ | ⟨-, -, hn⟩ := hslot <;> omega
  refine ⟨⟨?_, ?_, fun y hy => ?_, h.next.trans hnext⟩, x, hx, hroom, ⟨?_, ?_⟩⟩
  · rw [hx, map_append, h.placed, map_singleton, hroom]
  · rw [Assignment.used, hx, map_append, map_singleton]
    refine nodup_append.mpr ⟨h.distinct, nodup_singleton _, fun a ha b hb => ?_⟩
    rw [mem_singleton.mp hb]
    exact fun heq => hunused (heq ▸ ha)
  · rw [hx, mem_append, mem_singleton] at hy
    obtain hy | rfl := hy
    · exact (h.slots y hy).imp_right fun hb => ⟨hb.1, hb.2.trans_le hnext⟩
    · obtain ⟨row, hrow, heq, -⟩ | ⟨-, hs, hn⟩ := hslot
      · exact .inl ⟨row, hrow, heq⟩
      · refine .inr ⟨hs ▸ h.next, ?_⟩
        omega
  · intro row hrow hof hfree
    exact hown row hrow (hroom ▸ hof) hfree
  · intro row hrow hfree
    obtain ⟨row', hrow', heq, -, -, hleast⟩ | ⟨hall, -⟩ := hslot
    · refine ⟨⟨row', hrow', heq⟩, fun hnew => ?_⟩
      obtain hof | hleast := hleast
      · have hno : row'.isOf x.room = false := by simpa using any_eq_false.mp (by simpa [isNew] using hnew) row' hrow'
        rw [hroom, hof] at hno
        cases hno
      · exact hleast row hrow hfree
    · exact absurd (hall row hrow) hfree

theorem placed_assignment (hindexes : (previous.filterMap LineageRow.index).Nodup) (rooms : List (IncomingStay ι β)) :
    Placed previous rooms (assignment previous rooms) := by
  induction rooms using List.reverseRecOn with
  | nil => exact ⟨rfl, nodup_nil, fun x hx => absurd hx not_mem_nil, le_rfl⟩
  | append_singleton rooms room ih => exact (placed_step hindexes ih room).1

theorem assignment_prefix (hindexes : (previous.filterMap LineageRow.index).Nodup) (l l' : List (IncomingStay ι β)) :
    (assignment previous l).assigned <+: (assignment previous (l ++ l')).assigned := by
  induction l' using List.reverseRecOn with
  | nil => simp
  | append_singleton l' room ih =>
    obtain ⟨-, x, hx, -⟩ := placed_step hindexes (placed_assignment hindexes (l ++ l')) room
    rw [← append_assoc, hx]
    exact ih.trans (prefix_append _ _)

theorem exists_took (hindexes : (previous.filterMap LineageRow.index).Nodup)
    (hx : x ∈ (assignment previous rooms).assigned) :
    ∃ l l', rooms = l ++ x.room :: l' ∧ Took previous l x ∧
      ∃ m, (assignment previous rooms).assigned = (assignment previous l).assigned ++ x :: m := by
  induction rooms using List.reverseRecOn with
  | nil => cases hx
  | append_singleton rooms room ih =>
    obtain ⟨-, y, hy, hroom, htook⟩ := placed_step hindexes (placed_assignment hindexes rooms) room
    rw [hy] at hx ⊢
    obtain hx | hx := mem_append.mp hx
    · obtain ⟨l, l', hl, ht, m, hm⟩ := ih hx
      exact ⟨l, l' ++ [room], by simp [hl], ht, m ++ [y], by simp [hm]⟩
    · rw [mem_singleton.mp hx]
      exact ⟨rooms, [], by rw [hroom], htook, [], rfl⟩

/-! ### Who keeps the booking -/

omit [DecidableEq ι] in
theorem eq_of_slot (hslots : (previous.map LineageRow.slot).Nodup) (hr : r ∈ previous)
    (hrow : row ∈ previous) (h : r.slot = row.slot) : r = row := inj_on_of_nodup_map hslots hr hrow h

omit [DecidableEq ι] in
theorem Placed.eq_of_slot {y : AssignedStay ι β} (h : Placed previous rooms s) (hx : x ∈ s.assigned) (hy : y ∈ s.assigned)
    (heq : x.slot = y.slot) : x = y := inj_on_of_nodup_map h.distinct hx hy heq

theorem Placed.countP_isNew (h : Placed previous rooms s) :
    rooms.countP (isNew active) = ((s.assigned.filter fun x => isNew active x.room).map AssignedStay.slot).length := by
  rw [← h.placed, countP_map, length_map, ← countP_eq_length_filter]
  rfl

theorem isNew_eq_false : isNew active room = false ↔ ∃ row ∈ active, row.isOf room = true := by
  simp [isNew]

theorem mem_freeRows : row ∈ freeRows previous rooms ↔
    row ∈ activeRows previous ∧ ∀ room ∈ rooms, row.isOf room = false := by
  simp [freeRows, mem_filter]

theorem leavesSlots_of_kept (hindexes : (previous.filterMap LineageRow.index).Nodup)
    (hkept : ∀ x ∈ (assignment previous rooms).assigned, ∀ row ∈ activeRows previous, row.isOf x.room = true → x.slot = row.slot) :
    LeavesSlots previous rooms := by
  intro k hk row hrow hof
  have hplaced := placed_assignment hindexes rooms
  have hsplit : rooms = rooms.take k ++ rooms[k] :: rooms.drop (k + 1) := by simp
  rw [getElem?_eq_getElem hk, Option.any_some] at hof
  generalize rooms.take k = l at hsplit ⊢
  obtain ⟨hlast, z, hz, hroom, -⟩ := placed_step hindexes (placed_assignment hindexes l) rooms[k]
  have hbegin : (assignment previous (l ++ [rooms[k]])).assigned <+: (assignment previous rooms).assigned := by
    have h := assignment_prefix hindexes (l ++ [rooms[k]]) (rooms.drop (k + 1))
    rwa [append_assoc, singleton_append, ← hsplit] at h
  have hmem (y : AssignedStay ι β) (hy : y ∈ (assignment previous l).assigned) : y ∈ (assignment previous rooms).assigned :=
    hbegin.subset (hz ▸ mem_append_left _ hy)
  have hzslot : z.slot = row.slot :=
    hkept z (hbegin.subset (hz ▸ mem_append_right _ (mem_singleton.mpr rfl))) row hrow (hroom ▸ hof)
  have hunused : row.slot ∉ (assignment previous l).used := by
    have hnodup := hlast.distinct
    rw [Assignment.used, hz, map_append, nodup_append] at hnodup
    exact fun h => hnodup.2.2 _ h _ (mem_singleton.mpr rfl) hzslot.symm
  rw [(placed_assignment hindexes l).countP_isNew, countP_eq_length_filter,
    ← length_map LineageRow.slot]
  have hnodup : (((assignment previous l).assigned.filter fun x => isNew (activeRows previous) x.room).map
      AssignedStay.slot).Nodup := (placed_assignment hindexes l).distinct.sublist (filter_sublist.map _)
  refine (List.Nodup.subperm hnodup fun c hc => ?_).length_le
  obtain ⟨y, hy, rfl⟩ := mem_map.mp hc
  obtain ⟨hy, hnew⟩ := mem_filter.mp hy
  obtain ⟨m, m', -, htook, n, hn⟩ := exists_took hindexes hy
  have hunused' : row.slot ∉ (assignment previous m).used := fun h => hunused (by
    rw [Assignment.used, hn, map_append]
    exact mem_append_left _ h)
  obtain ⟨⟨r, hr, hrslot⟩, hle⟩ := htook.lowest row hrow hunused'
  have hne : y.slot ≠ row.slot := fun h => hunused (h ▸ mem_map_of_mem hy)
  refine mem_map.mpr ⟨r, mem_filter.mpr ⟨mem_freeRows.mpr ⟨hr, fun room' hroom' => ?_⟩, ?_⟩, hrslot⟩
  · -- a room stay of the row would be on its slot, and so be the new one
    by_contra hof'
    rw [Bool.not_eq_false] at hof'
    have hplaced' : room' ∈ (assignment previous rooms).assigned.map AssignedStay.room := by rwa [hplaced.placed]
    obtain ⟨w, hw, rfl⟩ := mem_map.mp hplaced'
    have hwy : w = y := hplaced.eq_of_slot hw (hmem y hy) ((hkept w hw r hr hof').trans hrslot)
    rw [← hwy, isNew_eq_false.mpr ⟨r, hr, hof'⟩] at hnew
    cases hnew
  · rw [hrslot]
    exact decide_eq_true (lt_of_le_of_ne (hle hnew) hne)

theorem kept_of_leavesSlots (hslots : (previous.map LineageRow.slot).Nodup)
    (hindexes : (previous.filterMap LineageRow.index).Nodup) (hrooms : (rooms.filterMap IncomingStay.index).Nodup)
    (hleaves : LeavesSlots previous rooms) (l l' : List (IncomingStay ι β)) (hl : rooms = l ++ l') :
    ∀ x ∈ (assignment previous l).assigned, ∀ row ∈ activeRows previous, row.isOf x.room = true →
      x.slot = row.slot ∧ x.booking = row.booking := by
  induction l using List.reverseRecOn generalizing l' with
  | nil => exact fun x hx => absurd hx not_mem_nil
  | append_singleton l room ih =>
    have hl' : rooms = l ++ room :: l' := by rw [hl, append_assoc, singleton_append]
    have hkept := ih (room :: l') hl'
    have hplaced := placed_assignment hindexes l
    have hactive (r : LineageRow ι) (hr : r ∈ activeRows previous) : r ∈ previous := mem_of_mem_filter hr
    obtain ⟨-, z, hz, hroom, htook⟩ := placed_step hindexes hplaced room
    intro x hx row hrow hof
    rw [hz, mem_append, mem_singleton] at hx
    obtain hx | rfl := hx
    · exact hkept x hx row hrow hof
    refine htook.own row hrow hof fun hused => ?_
    obtain ⟨y, hy, hyslot⟩ := mem_map.mp hused
    have hynew : isNew (activeRows previous) y.room = true := by
      -- a second room stay of this row would have its index number
      by_contra hnot
      obtain ⟨r, hr, hrof⟩ := isNew_eq_false.mp (Bool.not_eq_true _ ▸ hnot)
      have hsame : r = row := eq_of_slot hslots (hactive r hr) (hactive row hrow) ((hkept y hy r hr hrof).1.symm.trans hyslot)
      obtain ⟨i, hi, hyi⟩ := isOf_iff.mp hrof
      obtain ⟨j, hj, hxj⟩ := isOf_iff.mp hof
      rw [hsame, hj] at hi
      cases hi
      have hyl : y.room ∈ l := hplaced.placed ▸ mem_map_of_mem hy
      rw [hl', filterMap_append, nodup_append] at hrooms
      refine hrooms.2.2 i (mem_filterMap.mpr ⟨_, hyl, hyi⟩) i (mem_filterMap.mpr ⟨room, mem_cons_self, ?_⟩) rfl
      rw [← hroom, hxj]
    obtain ⟨m, m', hm, hytook, n, hn⟩ := exists_took hindexes hy
    have hyunused : y.slot ∉ (assignment previous m).used := by
      have hnodup := hplaced.distinct
      rw [Assignment.used, hn, map_append, nodup_append] at hnodup
      exact fun h => hnodup.2.2 _ h _ mem_cons_self rfl
    have hfew : ((freeRows previous rooms).countP fun r => r.slot < row.slot) ≤ m.countP (isNew (activeRows previous)) := by
      rw [(placed_assignment hindexes m).countP_isNew, countP_eq_length_filter,
        ← length_map LineageRow.slot]
      have hnodup : (((freeRows previous rooms).filter fun r => r.slot < row.slot).map LineageRow.slot).Nodup :=
        hslots.sublist (((filter_sublist.trans filter_sublist).trans filter_sublist).map _)
      refine (List.Nodup.subperm hnodup fun c hc => ?_).length_le
      obtain ⟨f, hf, rfl⟩ := mem_map.mp hc
      obtain ⟨hf, hlow⟩ := mem_filter.mp hf
      obtain ⟨hfactive, hffree⟩ := mem_freeRows.mp hf
      have hfused : f.slot ∈ (assignment previous m).used := by
        by_contra hfree
        have hle := (hytook.lowest f hfactive hfree).2 hynew
        rw [hyslot] at hle
        exact absurd (of_decide_eq_true hlow) (not_lt.mpr hle)
      obtain ⟨u, hu, huslot⟩ := mem_map.mp hfused
      refine mem_map.mpr ⟨u, mem_filter.mpr ⟨hu, ?_⟩, huslot⟩
      by_contra hnot
      obtain ⟨r, hr, hrof⟩ := isNew_eq_false.mp (Bool.not_eq_true _ ▸ hnot)
      have hul : u ∈ (assignment previous l).assigned := hn ▸ mem_append_left _ hu
      have hsame : r = f := eq_of_slot hslots (hactive r hr) (hactive f hfactive) ((hkept u hul r hr hrof).1.symm.trans huslot)
      have huroom : u.room ∈ rooms := by
        rw [hl']
        exact mem_append_left _ (hplaced.placed ▸ mem_map_of_mem hul)
      rw [hsame, hffree u.room huroom] at hrof
      cases hrof
    have hmore : m.countP (isNew (activeRows previous)) < l.countP (isNew (activeRows previous)) := by
      rw [hm, countP_append, countP_cons_of_pos hynew]
      omega
    have hlt : l.length < rooms.length := by simp [hl']
    have hat : (rooms[l.length]?).any (fun room => row.isOf room) = true := by
      rw [hl', getElem?_append_right le_rfl, Nat.sub_self, getElem?_cons_zero, Option.any_some, ← hroom]
      exact hof
    have hmany := hleaves l.length hlt row hrow hat
    rw [hl', take_left] at hmany
    rw [hl'] at hfew
    omega

/-- Every room stay that continues keeps its booking exactly when those before it leave its slot. The
rest always holds. -/
theorem room_stays_keep_bookings (previous : List (LineageRow ι)) (rooms : List (IncomingStay ι β))
    (hslots : (previous.map LineageRow.slot).Nodup) (hindexes : (previous.filterMap LineageRow.index).Nodup)
    (hrooms : (rooms.filterMap IncomingStay.index).Nodup) : KeepsBookings previous rooms ↔ LeavesSlots previous rooms := by
  constructor
  · exact fun h => leavesSlots_of_kept hindexes fun x hx row hrow hof => (h.kept x hx row hrow hof).1
  · intro h
    have hplaced := placed_assignment hindexes rooms
    refine ⟨hplaced.placed, kept_of_leavesSlots hslots hindexes hrooms h rooms [] (by simp), hplaced.distinct, fun row => ?_,
      fun x hx row hrow hslot => ?_⟩
    · simp [assignSlots, Assignment.used, mem_filter]
    · obtain ⟨r, hr, hrslot⟩ | hnew := hplaced.slots x hx
      · obtain ⟨hmem, hactive⟩ := mem_filter.mp hr
        rwa [← eq_of_slot hslots hmem hrow (hrslot.trans hslot.symm)]
      · have hlow := slot_lt_firstNewSlot hrow
        omega

/-- Two room stays that continue, and a new one between them, for which a lower slot is free. -/
theorem room_stays_keep_bookings_lower :
    KeepsBookings (ι := ℕ) (β := ℕ) [⟨0, some 1, true, some 10⟩, ⟨1, some 2, true, some 11⟩, ⟨2, some 3, true, some 12⟩]
      [⟨some 3, 7⟩, ⟨some 9, 8⟩, ⟨some 2, 9⟩] :=
  (room_stays_keep_bookings [⟨0, some 1, true, some 10⟩, ⟨1, some 2, true, some 11⟩, ⟨2, some 3, true, some 12⟩]
    [⟨some 3, 7⟩, ⟨some 9, 8⟩, ⟨some 2, 9⟩] (by decide) (by decide) (by decide)).mpr (by decide)

/-- A new room stay before the one that continues takes its slot, and with it its booking. -/
theorem bookings_swapped : ¬ KeepsBookings (ι := ℕ) (β := ℕ) [⟨0, some 1, true, some 10⟩] [⟨some 2, 7⟩, ⟨some 1, 8⟩] := by
  intro h
  have hkept := h.kept ⟨1, none, ⟨some 1, 8⟩⟩ (by decide) ⟨0, some 1, true, some 10⟩ (by decide) (by decide)
  exact absurd hkept.1 (by decide)

end

end SyrocePms.Exely
