import RowStore.Error

/-!
# The layout of a page

A page starts with a bitmap that has one bit for each slot, padded to whole bytes; the slots follow
it without gaps, and what is left over stays unused. With one bit more than its bytes, a slot takes
eight times its bytes plus one bit of the page.
-/

namespace RowStore.Layout

/-- How many slots a page has for rows of the given size. -/
def slots (pageSize rowSize : Nat) : Nat := pageSize * 8 / (rowSize * 8 + 1)

/-- The bytes of a bitmap with one bit for each slot. -/
def headerSize (slots : Nat) : Nat := (slots + 7) / 8

/-- Where the bytes of a slot start. -/
def slotStart (pageSize rowSize slot : Nat) : Nat :=
  headerSize (slots pageSize rowSize) + slot * rowSize

/-- The number of slots, if every number on the way to it fits 64 bits. -/
def checkedSlots (pageSize rowSize : Nat) : Except Error Nat :=
  if pageSize * 8 < sizeLimit ∧ rowSize * 8 + 1 < sizeLimit then .ok (slots pageSize rowSize)
  else .error .overflow

/-- The size of the bitmap, if every number on the way to it fits 64 bits. -/
def checkedHeaderSize (slots : Nat) : Except Error Nat :=
  if slots + 7 < sizeLimit then .ok (headerSize slots) else .error .overflow

/-- A slot's bit lies in the bitmap. -/
theorem div_lt_headerSize {slot slots : Nat} (h : slot < slots) : slot / 8 < headerSize slots := by
  unfold headerSize
  omega

/-- As many slots and their bitmap fit the page as are counted, and no more. -/
theorem headerSize_add_le_iff {pageSize rowSize n : Nat} :
    headerSize n + n * rowSize ≤ pageSize ↔ n ≤ slots pageSize rowSize := by
  have e : n * (rowSize * 8 + 1) = 8 * (n * rowSize) + n := by
    rw [Nat.mul_add, Nat.mul_one, ← Nat.mul_assoc, Nat.mul_comm _ 8]
  rw [slots, Nat.le_div_iff_mul_le (Nat.succ_pos _), e]
  unfold headerSize
  omega

/-- The bitmap and the slots fit the page. -/
theorem headerSize_add_le (pageSize rowSize : Nat) :
    headerSize (slots pageSize rowSize) + slots pageSize rowSize * rowSize ≤ pageSize :=
  headerSize_add_le_iff.2 (Nat.le_refl _)

/-- The size of a page whose bits can be counted leaves room for rounding the bitmap up. -/
theorem checkedHeaderSize_slots {pageSize : Nat} (h : pageSize * 8 < sizeLimit) (rowSize : Nat) :
    checkedHeaderSize (slots pageSize rowSize) = .ok (headerSize (slots pageSize rowSize)) := by
  have hle : slots pageSize rowSize ≤ pageSize * 8 := Nat.div_le_self ..
  have hlimit : sizeLimit = 2 ^ 61 * 8 := rfl
  rw [checkedHeaderSize, if_pos (by omega)]

/-- A slot ends in the page. -/
theorem slotStart_add_le {pageSize rowSize slot : Nat} (h : slot < slots pageSize rowSize) :
    slotStart pageSize rowSize slot + rowSize ≤ pageSize := by
  have := headerSize_add_le pageSize rowSize
  have := Nat.mul_le_mul_right rowSize (Nat.succ_le_of_lt h)
  rw [Nat.succ_mul] at this
  unfold slotStart
  omega

/-- A slot ends before a later one starts. -/
theorem slotStart_add_le_slotStart (pageSize : Nat) {rowSize slot other : Nat} (h : slot < other) :
    slotStart pageSize rowSize slot + rowSize ≤ slotStart pageSize rowSize other := by
  have := Nat.mul_le_mul_right rowSize (Nat.succ_le_of_lt h)
  rw [Nat.succ_mul] at this
  unfold slotStart
  omega

/-- Of two slots one ends before the other starts. -/
theorem slotStart_disjoint (pageSize rowSize : Nat) {slot other : Nat} (h : slot ≠ other) :
    slotStart pageSize rowSize slot + rowSize ≤ slotStart pageSize rowSize other ∨
      slotStart pageSize rowSize other + rowSize ≤ slotStart pageSize rowSize slot := by
  rcases Nat.lt_or_gt_of_ne h with h | h
  · exact .inl (slotStart_add_le_slotStart pageSize h)
  · exact .inr (slotStart_add_le_slotStart pageSize h)

end RowStore.Layout
