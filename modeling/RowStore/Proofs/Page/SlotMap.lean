import RowStore.Proofs.Page.Rows

/-!
# What insertions and deletions do to a page

Whatever bytes a page has, its bitmap and its slots lie in it side by side, so it can be read as a
partial map from slots to bytes. `Page.IsSlotMap` says that all operations on rows go by this map:
an insertion sets its least empty slot, a deletion clears an occupied one, and either changes no bit
of the page beyond what that takes. `Page.slotMap` says it of every page that a series of changes
leads to, and that the map is what the same changes make of the first map.
-/

namespace RowStore.Page

variable {p q : Page} {row : Row} {place : RowId} {slot i : Nat}

/-! ## One slot -/

/-- The content of one slot is what the second page differs in from the first. -/
structure Sets (p : Page) (slot : Nat) (content : Option Bytes) (q : Page) : Prop where
  /-- Nothing but bytes has changed. -/
  alike : p.Alike q
  /-- The map has changed in the slot. -/
  slot? : q.slot? = Function.update p.slot? slot content
  /-- The slot's bit tells whether the slot is occupied. -/
  bit : q.bit slot = content.isSome
  /-- No other bit has changed, but for those of the slot's bytes if it is occupied now. -/
  others : ∀ {i}, i ≠ slot →
    content = none ∨ i < 8 * p.slotStart slot ∨ 8 * (p.slotStart slot + p.schema.rowSize) ≤ i →
    q.bit i = p.bit i

theorem sets_of_insert (h : p.insert row = .ok (place, q)) :
    p.Sets place.slot (some row.encode) q := by
  obtain ⟨ha, -, -, hslot⟩ := slot?_of_insert h
  obtain ⟨hb, -, hs, -, rfl⟩ := eq_of_insert h
  have hs' : place.slot < (p.fill place.slot row.encode).slots := (alike_fill hs hb).slots ▸ hs
  refine ⟨ha, hslot, ?_, fun {i} hi ho => ?_⟩
  · rw [bit_setUsed hs', if_pos rfl]
    rfl
  · rw [bit_setUsed hs', if_neg hi, bit_fill hs hb (ho.resolve_left nofun)]

theorem sets_of_delete (h : p.delete (some place) = .ok q) : p.Sets place.slot none q := by
  obtain ⟨ha, -, -, hslot⟩ := slot?_of_delete h
  obtain ⟨-, hu, rfl⟩ := eq_of_delete h
  have hs := lt_slots_of_isUsed hu
  refine ⟨ha, hslot, ?_, fun {i} hi _ => ?_⟩
  · rw [bit_setUsed hs, if_pos rfl]
    rfl
  · rw [bit_setUsed hs, if_neg hi]

/-! ## All operations -/

/-- What can be done with the rows of a page is told by its map from slots to bytes. -/
structure IsSlotMap (p : Page) : Prop where
  /-- No number on the way to the slots is out of range. -/
  sized : Layout.checkedSlots p.size p.schema.rowSize = .ok p.slots ∧
    Layout.checkedHeaderSize p.slots = .ok (Layout.headerSize p.slots)
  /-- The bits and the bytes of all slots lie in the page. -/
  inside : ∀ slot < p.slots,
    slot / 8 < p.data.length ∧ p.slotStart slot + p.schema.rowSize ≤ p.data.length
  /-- A slot with its bit set has its bytes in the map, and no other slot is there. -/
  slot?_iff : ∀ {slot bytes}, p.slot? slot = some bytes ↔
    slot < p.slots ∧ p.bit slot = true ∧
      bytes = Bytes.slice (p.slotStart slot) p.schema.rowSize p.data
  /-- A row of the page's types can be inserted if there is an empty slot. -/
  insert_iff : ∀ {row}, (∃ place q, p.insert row = .ok (place, q)) ↔
    row.types = p.schema.types ∧ ∃ slot < p.slots, p.slot? slot = none
  /-- It comes to stand in the least empty slot. -/
  inserted : ∀ {row place q}, p.insert row = .ok (place, q) →
    place.page = p.id ∧ p.FirstVacancy place.slot ∧ p.Sets place.slot (some row.encode) q
  /-- A row can be deleted if its place is an occupied slot of the page. -/
  delete_iff : ∀ {place}, (∃ q, p.delete place = .ok q) ↔
    ∃ slot bytes, place = some ⟨p.id, slot⟩ ∧ p.slot? slot = some bytes
  /-- Its slot is empty then. -/
  deleted : ∀ {place q}, p.delete (some place) = .ok q → p.Sets place.slot none q
  /-- Every slot is empty or in the map. -/
  count : p.emptySlots + p.occupied.length = p.slots
  /-- The rows are listed in the order of their slots. -/
  rows_iff : ∀ {rows}, p.rows = .ok rows ↔ p.Lists rows
  /-- They cannot be listed if there is one that does not decode. -/
  not_rows_iff : (∃ err, p.rows = .error err) ↔ ∃ slot bytes err,
    p.slot? slot = some bytes ∧ Value.decodeAll p.schema.types bytes = .error err

theorem slot?_eq_some_iff {bytes : Bytes} : p.slot? slot = some bytes ↔
    slot < p.slots ∧ p.bit slot = true ∧
      bytes = Bytes.slice (p.slotStart slot) p.schema.rowSize p.data := by
  rw [slot?, isUsed_eq]
  by_cases hs : slot < p.slots <;> by_cases hb : p.bit slot = true <;>
    simp [hs, hb, slotBytes, eq_comm]

theorem insert_iff : (∃ place q, p.insert row = .ok (place, q)) ↔
    row.types = p.schema.types ∧ ∃ slot < p.slots, p.slot? slot = none := by
  constructor
  · rintro ⟨place, q, h⟩
    obtain ⟨ht, hv⟩ := firstVacancy_of_insert h
    exact ⟨ht, place.slot, hv.lt, hv.empty⟩
  · rintro ⟨ht, slot, hs, he⟩
    exact (insert_cases (fun hf => hf slot hs he) row).resolve_left fun h => h.1 ht

theorem delete_iff {place : Option RowId} : (∃ q, p.delete place = .ok q) ↔
    ∃ slot bytes, place = some ⟨p.id, slot⟩ ∧ p.slot? slot = some bytes := by
  cases place with
  | none =>
    constructor
    · rintro ⟨q, h⟩
      cases h
    · rintro ⟨slot, bytes, h, -⟩
      cases h
  | some place =>
    constructor
    · rintro ⟨q, h⟩
      obtain ⟨-, hpage, hslot, -⟩ := slot?_of_delete h
      obtain ⟨bytes, hb⟩ := Option.ne_none_iff_exists'.1 hslot
      exact ⟨place.slot, bytes, by rw [← hpage], hb⟩
    · rintro ⟨slot, bytes, h, hb⟩
      cases h
      have hu : p.isUsed slot = true := by rw [← isSome_slot?, hb]; rfl
      exact ⟨p.setUsed slot false, if_neg (by simp [hu])⟩

/-- What a page makes of its rows goes by its map, if its size and that of its rows leave the
numbers on the way to the slots in range. -/
theorem isSlotMap (hp : p.size * 8 < sizeLimit) (hr : p.schema.rowSize * 8 + 1 < sizeLimit) :
    p.IsSlotMap where
  sized := ⟨if_pos ⟨hp, hr⟩, Layout.checkedHeaderSize_slots hp _⟩
  inside _ hs := ⟨div_lt_size hs, Layout.slotStart_add_le hs⟩
  slot?_iff := slot?_eq_some_iff
  insert_iff := insert_iff
  inserted h := ⟨(slot?_of_insert h).2.1, (firstVacancy_of_insert h).2, sets_of_insert h⟩
  delete_iff := delete_iff
  deleted h := sets_of_delete h
  count := p.emptySlots_add_length_occupied
  rows_iff := rows_eq_ok_iff
  not_rows_iff := rows_eq_error_iff

/-! ## Series of changes -/

/-- A change of the rows of a page. -/
inductive Change
  /-- A row is put into the page. -/
  | insert (row : Row)
  /-- The row at a place is taken away. -/
  | delete (place : Option RowId)

/-- The page after a change. A change that is refused leaves it as it is. -/
def change (p : Page) : Change → Page
  | .insert row => ((p.insert row).map (·.2)).toOption.getD p
  | .delete place => (p.delete place).toOption.getD p

/-- The page after a series of changes. -/
def changeAll (p : Page) (changes : List Change) : Page := changes.foldl change p

/-- The least slot, of so many, at which a map is not defined. -/
def leastEmpty? (slots : Nat) (m : Nat → Option Bytes) : Option Nat :=
  (List.range slots).find? fun slot => (m slot).isNone

/-- What the change makes of a map from the slots of a page to bytes: a row of the types goes to the
least empty slot, if there is one, and a row of the page is taken away. -/
def Change.onMap (id : PageId) (types : List ColumnType) (slots : Nat) (m : Nat → Option Bytes) :
    Change → Nat → Option Bytes
  | insert row =>
    match leastEmpty? slots m with
    | some slot => if row.types = types then Function.update m slot (some row.encode) else m
    | none => m
  | delete none => m
  | delete (some place) => if place.page = id then Function.update m place.slot none else m

theorem leastEmpty?_eq_some_iff :
    leastEmpty? p.slots p.slot? = some slot ↔ p.FirstVacancy slot := by
  have hsome : ∀ i, (!(p.slot? i).isNone) = true ↔ p.slot? i ≠ none := fun i => by
    simp [Option.isSome_iff_ne_none]
  simp only [leastEmpty?, List.find?_range_eq_some, hsome, Option.isNone_iff_eq_none,
    List.mem_range]
  exact ⟨fun ⟨he, hs, hf⟩ => ⟨hs, he, hf⟩, fun ⟨hs, he, hf⟩ => ⟨he, hs, hf⟩⟩

theorem slot?_change_insert (p : Page) (row : Row) : (p.change (.insert row)).slot? =
    (Change.insert row).onMap p.id p.schema.types p.slots p.slot? := by
  cases hi : p.insert row with
  | error err =>
    have hn : ¬ (row.types = p.schema.types ∧ ¬ p.Full) := by
      rintro ⟨ht, hf⟩
      obtain ⟨place, q, h⟩ := (insert_cases hf row).resolve_left fun h => h.1 ht
      cases hi.symm.trans h
    rw [change, hi]
    simp only [Change.onMap]
    split
    · next slot hv =>
      have hf := (leastEmpty?_eq_some_iff.1 hv).not_full
      rw [if_neg fun ht => hn ⟨ht, hf⟩]
      rfl
    · rfl
  | ok x =>
    obtain ⟨place, q⟩ := x
    obtain ⟨ht, hv⟩ := firstVacancy_of_insert hi
    rw [change, hi]
    simp only [Change.onMap, leastEmpty?_eq_some_iff.2 hv, if_pos ht]
    exact (slot?_of_insert hi).2.2.2

theorem slot?_change_delete (p : Page) (place : Option RowId) : (p.change (.delete place)).slot? =
    (Change.delete place).onMap p.id p.schema.types p.slots p.slot? := by
  cases place with
  | none => rfl
  | some place =>
    cases hd : p.delete (some place) with
    | error err =>
      have hn : place.page = p.id → p.slot? place.slot = none := fun hpage => by
        by_contra hs
        obtain ⟨bytes, hb⟩ := Option.ne_none_iff_exists'.1 hs
        obtain ⟨q, hq⟩ := delete_iff.2 ⟨place.slot, bytes, by rw [← hpage], hb⟩
        cases hd.symm.trans hq
      rw [change, hd]
      simp only [Change.onMap]
      split
      · next hpage => exact (Function.update_eq_self_iff.2 (hn hpage).symm).symm
      · rfl
    | ok q =>
      obtain ⟨-, hpage, -, hslot⟩ := slot?_of_delete hd
      rw [change, hd]
      simp only [Change.onMap, if_pos hpage]
      exact hslot

theorem alike_change (p : Page) (c : Change) : p.Alike (p.change c) := by
  cases c with
  | insert row =>
    cases hi : p.insert row with
    | error err =>
      rw [change, hi]
      exact .refl p
    | ok x =>
      rw [change, hi]
      exact (slot?_of_insert hi).1
  | delete place =>
    cases hd : p.delete place with
    | error err =>
      rw [change, hd]
      exact .refl p
    | ok q =>
      rw [change, hd]
      exact Edited.alike (.delete .refl hd)

/-- A change acts on the page as it acts on the map. -/
theorem slot?_change (p : Page) (c : Change) :
    (p.change c).slot? = c.onMap p.id p.schema.types p.slots p.slot? := by
  cases c with
  | insert row => exact slot?_change_insert p row
  | delete place => exact slot?_change_delete p place

theorem alike_changeAll (p : Page) (changes : List Change) : p.Alike (p.changeAll changes) := by
  induction changes generalizing p with
  | nil => exact .refl p
  | cons c cs ih => exact (alike_change p c).trans (ih (p.change c))

/-- A series of changes acts on the page as it acts on the map. -/
theorem slot?_changeAll (p : Page) (changes : List Change) : (p.changeAll changes).slot? =
    changes.foldl (Change.onMap p.id p.schema.types p.slots) p.slot? := by
  induction changes generalizing p with
  | nil => rfl
  | cons c cs ih =>
    have ha := alike_change p c
    have h := ih (p.change c)
    rw [slot?_change, ha.id, ha.schema, ha.slots] at h
    exact h

/-- Whatever bytes a page has, and whatever rows are inserted and deleted, it is a partial map from
slots to bytes: the one that the changes make of the first map. Nothing else about the page has
changed. -/
theorem slotMap (p : Page) (hp : p.size * 8 < sizeLimit)
    (hr : p.schema.rowSize * 8 + 1 < sizeLimit) (changes : List Change) :
    p.Alike (p.changeAll changes) ∧ (p.changeAll changes).IsSlotMap ∧
      (p.changeAll changes).slot? =
        changes.foldl (Change.onMap p.id p.schema.types p.slots) p.slot? := by
  have ha := alike_changeAll p changes
  exact ⟨ha, isSlotMap (ha.size.symm ▸ hp) (ha.schema.symm ▸ hr), slot?_changeAll p changes⟩

end RowStore.Page

namespace RowStore.Sample

/-- A page of numbers with room for two, of bytes that nobody has written: the first slot is empty,
and all bits behind those of the slots are set. -/
def foreign : Page :=
  .ofBytes ⟨1, 0⟩ (.ofTypes [.int]) [254, 255, 255, 255, 255, 0, 0, 0, 7]

/-- A row is inserted, then one for which there is no room, and the row that was there is deleted
once, and once more from another page. -/
def scribbling : List Page.Change :=
  [.insert ⟨[.int 5], none⟩, .insert ⟨[.int 6], none⟩, .delete (some ⟨⟨1, 0⟩, 1⟩),
    .delete (some ⟨⟨1, 1⟩, 0⟩)]

/-- The first slot has the row then and the second is empty, and the other bits are still set. -/
theorem slotMap_foreign :
    foreign.size * 8 < sizeLimit ∧ foreign.schema.rowSize * 8 + 1 < sizeLimit ∧
      (foreign.Alike (foreign.changeAll scribbling) ∧ (foreign.changeAll scribbling).IsSlotMap ∧
        (foreign.changeAll scribbling).slot? = scribbling.foldl (Page.Change.onMap foreign.id
          foreign.schema.types foreign.slots) foreign.slot?) ∧
      (foreign.changeAll scribbling).data = [253, 0, 0, 0, 5, 0, 0, 0, 7] := by
  have hp : foreign.size * 8 < sizeLimit := by decide
  have hr : foreign.schema.rowSize * 8 + 1 < sizeLimit := by decide
  exact ⟨hp, hr, Page.slotMap foreign hp hr scribbling, by decide⟩

end RowStore.Sample
