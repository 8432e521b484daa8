import RowStore.Proofs.Page.Slots
import RowStore.Proofs.Row.Codec

/-!
# Empty slots

A page is full if every slot that it has is occupied, and its first vacancy is its lowest empty
slot. The count of empty slots decides which of the two it is, whatever stands in the bitmap, and an
insertion goes by the same bitmap: it takes the first vacancy, unless the row does not fit the
schema or the page is full.
-/

namespace RowStore.Page

variable {p q : Page} {row : Row} {place : RowId} {slot i : Nat} {err : Error}

/-- Every slot is occupied. -/
def Full (p : Page) : Prop := ∀ slot < p.slots, p.slot? slot ≠ none

/-- The lowest empty slot. -/
structure FirstVacancy (p : Page) (slot : Nat) : Prop where
  /-- It is a slot of the page. -/
  lt : slot < p.slots
  /-- It is empty. -/
  empty : p.slot? slot = none
  /-- The slots before it are occupied. -/
  first : ∀ i < slot, p.slot? i ≠ none

theorem FirstVacancy.not_full (h : p.FirstVacancy slot) : ¬ p.Full := fun hf => hf slot h.lt h.empty

theorem full_congr (hs : q.schema = p.schema) (hd : q.data = p.data) : q.Full ↔ p.Full := by
  rw [Full, Full, slot?_congr hs hd, slots, slots, size, size, hs, hd]

theorem firstVacancy_congr (hs : q.schema = p.schema) (hd : q.data = p.data) :
    q.FirstVacancy slot ↔ p.FirstVacancy slot := by
  have hslots : q.slots = p.slots := by
    rw [slots, slots, size, size, hs, hd]
  have hslot := slot?_congr hs hd
  constructor
  · rintro ⟨hl, he, hf⟩
    exact ⟨hslots ▸ hl, hslot ▸ he, hslot ▸ hf⟩
  · rintro ⟨hl, he, hf⟩
    exact ⟨hslots ▸ hl, hslot ▸ he, hslot ▸ hf⟩

/-! ## The bitmap -/

theorem length_flatMap_bits (b : Bytes) : (b.flatMap bits).length = b.length * 8 := by
  induction b with
  | nil => rfl
  | cons x xs ih =>
    rw [List.flatMap_cons, List.length_append, length_bits, ih, List.length_cons]
    omega

/-- The bitmap has a bit for every slot. -/
theorem length_occupancy (p : Page) : p.occupancy.length = p.slots := by
  have hl : Layout.headerSize p.slots + p.slots * p.schema.rowSize ≤ p.data.length :=
    Layout.headerSize_add_le p.size p.schema.rowSize
  rw [occupancy, List.length_take, length_flatMap_bits, List.length_take]
  unfold Layout.headerSize at hl ⊢
  omega

theorem getElem_occupancy (h : slot < p.occupancy.length) : p.occupancy[slot] = p.isUsed slot := by
  rw [← getD_occupancy, List.getD_eq_getElem?_getD, List.getElem?_eq_getElem h, Option.getD_some]

theorem emptySlots_eq_zero_iff : p.emptySlots = 0 ↔ p.Full := by
  rw [emptySlots, List.count_eq_zero, List.mem_iff_getElem]
  constructor
  · intro h slot hs he
    have hl : slot < p.occupancy.length := by rwa [length_occupancy]
    exact h ⟨slot, hl, (getElem_occupancy hl).trans (slot?_eq_none_iff.1 he)⟩
  · rintro h ⟨slot, hl, hu⟩
    have hs : slot < p.slots := by rwa [← length_occupancy]
    exact h slot hs (slot?_eq_none_iff.2 ((getElem_occupancy hl).symm.trans hu))

theorem findIdx?_occupancy (h : p.occupancy.findIdx? (· = false) = some slot) :
    p.FirstVacancy slot := by
  obtain ⟨hl, he, hf⟩ := List.findIdx?_eq_some_iff_getElem.1 h
  have hs : slot < p.slots := by rwa [← length_occupancy]
  refine ⟨hs, ?_, fun i hi hn => ?_⟩
  · rw [slot?_eq_none_iff, ← getElem_occupancy hl]
    simpa using he
  · have hli := Nat.lt_trans hi hl
    rw [slot?_eq_none_iff, ← getElem_occupancy hli] at hn
    exact hf i hi (by simpa using hn)

/-! ## Insertions -/

/-- An insertion that succeeds takes the first vacancy of a page of the row's types. -/
theorem firstVacancy_of_insert (h : p.insert row = .ok (place, q)) :
    row.types = p.schema.types ∧ p.FirstVacancy place.slot := by
  unfold insert at h
  split at h
  · cases h
  · next ht =>
    split at h
    · cases h
    · next slot hf =>
      cases h
      exact ⟨not_not.1 ht, findIdx?_occupancy hf⟩

/-- Into a page that is not full every row of its types can be inserted, and no other. -/
theorem insert_cases (hn : ¬ p.Full) (row : Row) :
    (row.types ≠ p.schema.types ∧ p.insert row = .error .schemaMismatch) ∨
      ∃ place q, p.insert row = .ok (place, q) := by
  unfold insert
  split
  · next ht => exact .inl ⟨ht, rfl⟩
  · right
    split
    · next hf =>
      refine absurd (fun slot hs he => ?_) hn
      have hl : slot < p.occupancy.length := by rwa [length_occupancy]
      have hu := List.findIdx?_eq_none_iff.1 hf _ (List.getElem_mem hl)
      rw [getElem_occupancy hl, slot?_eq_none_iff.1 he] at hu
      cases hu
    · exact ⟨_, _, rfl⟩

/-- What is in a slot is read as a row of the page's types. -/
theorem row?_of_slot? (h : p.slot? slot = some row.encode) (ht : row.types = p.schema.types) :
    ∃ values, p.row? slot = .ok (some ⟨values, some ⟨p.id, slot⟩⟩) ∧
      List.Forall₂ Value.ReadsAs row.values values := by
  obtain ⟨values, hd, hr⟩ := row.decodeAll_encode
  refine ⟨values, ?_, hr⟩
  unfold slot? at h
  split at h
  · next hu =>
    rw [row?, if_pos hu, decodeSlot, Option.some.inj h, decodeAs, ← ht, hd]
    rfl
  · cases h

/-- A row that has been inserted is read at its place, as far as it fits. -/
theorem row?_of_insert (h : p.insert row = .ok (place, q)) :
    ∃ values, q.row? place.slot = .ok (some ⟨values, some place⟩) ∧
      List.Forall₂ Value.ReadsAs row.values values := by
  obtain ⟨ha, hplace, -, hslot⟩ := slot?_of_insert h
  have hs : q.slot? place.slot = some row.encode := by
    rw [hslot, Function.update_self]
  have ht : row.types = q.schema.types := by
    rw [ha.schema]
    exact (firstVacancy_of_insert h).1
  have hid : q.id = place.page := ha.id.trans hplace.symm
  have hr := row?_of_slot? hs ht
  rwa [hid] at hr

/-! ## Pages without rows -/

/-- A page without rows is empty from its first slot on. -/
theorem firstVacancy_of_zeros {n : Nat} (h : p.data = Bytes.zeros n) (hs : 0 < p.slots) :
    p.FirstVacancy 0 :=
  ⟨hs, slot?_eq_none_of_zeros h, fun _ hi => absurd hi (Nat.not_lt_zero _)⟩

end RowStore.Page
