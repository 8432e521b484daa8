import RowStore.Page.Layout

/-!
# Pages are laid out without waste

The number of slots of a page is a quotient of bits, while the bitmap takes whole bytes. Rounding
the bitmap up costs no slot: as many slots are counted as fit beside their bitmap, and one more
would not fit. This is `Layout.Packed`, together with what the reading and writing of slots rests
on: all bits and bytes of the slots lie in the page, apart from each other.
-/

namespace RowStore.Layout

variable {pageSize rowSize : Nat}

/-- So many slots for rows of the given size fill a page as far as whole slots can. -/
structure Packed (pageSize rowSize slots : Nat) : Prop where
  /-- The slots can be counted in 64 bits. -/
  counted : checkedSlots pageSize rowSize = .ok slots
  /-- So can the bytes of the bitmap. -/
  header : checkedHeaderSize slots = .ok (headerSize slots)
  /-- And so can the bytes up to the start and up to the end of a slot. -/
  reached : ∀ slot < slots, slot * rowSize < sizeLimit ∧
    slotStart pageSize rowSize slot + rowSize < sizeLimit
  /-- The page has room for these slots and their bitmap, and for no larger number of them. -/
  fits_iff : ∀ n, headerSize n + n * rowSize ≤ pageSize ↔ n ≤ slots
  /-- There is no slot at all only if one row and one byte for its bit do not fit. -/
  eq_zero_iff : slots = 0 ↔ pageSize < rowSize + 1
  /-- The bit of a slot lies in the bitmap. -/
  bit_lt : ∀ slot < slots, slot / 8 < headerSize slots
  /-- A slot starts behind the bitmap. -/
  header_le : ∀ slot < slots, headerSize slots ≤ slotStart pageSize rowSize slot
  /-- It ends in the page. -/
  end_le : ∀ slot < slots, slotStart pageSize rowSize slot + rowSize ≤ pageSize
  /-- It ends before the next one starts. -/
  apart : ∀ other < slots, ∀ slot < other,
    slotStart pageSize rowSize slot + rowSize ≤ slotStart pageSize rowSize other

/-- A page has a slot just if a row fits it together with a byte for the bitmap. -/
theorem slots_eq_zero_iff : slots pageSize rowSize = 0 ↔ pageSize < rowSize + 1 := by
  have h : headerSize 1 + 1 * rowSize ≤ pageSize ↔ 1 ≤ slots pageSize rowSize :=
    headerSize_add_le_iff
  have hone : headerSize 1 = 1 := rfl
  omega

/-- If the bits of a page can be counted in 64 bits, so can the bytes up to any place in it. -/
theorem lt_sizeLimit_of_le {n : Nat} (hp : pageSize * 8 < sizeLimit) (h : n ≤ pageSize) :
    n < sizeLimit := by
  omega

/-- A page whose bits can be counted in 64 bits, for rows whose bits can, has as many slots as fit
beside their bitmap. -/
theorem packed_slots (hp : pageSize * 8 < sizeLimit) (hr : rowSize * 8 + 1 < sizeLimit) :
    Packed pageSize rowSize (slots pageSize rowSize) where
  counted := if_pos ⟨hp, hr⟩
  header := checkedHeaderSize_slots hp rowSize
  reached slot hs := by
    have hend := slotStart_add_le hs
    refine ⟨lt_sizeLimit_of_le hp (Nat.le_trans ?_ hend), lt_sizeLimit_of_le hp hend⟩
    exact Nat.le_trans (Nat.le_add_left ..) (Nat.le_add_right ..)
  fits_iff _ := headerSize_add_le_iff
  eq_zero_iff := slots_eq_zero_iff
  bit_lt _ hs := div_lt_headerSize hs
  header_le _ _ := Nat.le_add_right ..
  end_le _ hs := slotStart_add_le hs
  apart _ _ _ h := slotStart_add_le_slotStart pageSize h

/-- A page of 4096 bytes has 30 slots of 136 bytes. The bitmap takes four bytes for them, and twelve
are left over. -/
theorem packed_wide : 4096 * 8 < sizeLimit ∧ 136 * 8 + 1 < sizeLimit ∧ Packed 4096 136 30 := by
  have hp : 4096 * 8 < sizeLimit := by decide
  have hr : 136 * 8 + 1 < sizeLimit := by decide
  exact ⟨hp, hr, packed_slots hp hr⟩

/-- Rows without bytes fill a page with their bits. -/
example : slots 2 0 = 16 := rfl

end RowStore.Layout
