import Mathlib.Data.Nat.Bitwise
import Mathlib.Logic.Function.Basic
import RowStore.Page.Basic

/-!
# A page as a map from slots to rows

`Page.slot?` reads a page as a partial map: an occupied slot has its bytes, any other slot nothing.
To insert a row is to set one empty slot of this map, and to delete a row is to clear one slot.
Neither changes anything else about a page, which is what `Page.Alike` says.
-/

namespace RowStore.Page

variable {p q r : Page} {slot i j : Nat} {used : Bool}

/-- The bytes in a slot, if it holds a row. -/
def slot? (p : Page) (slot : Nat) : Option Bytes :=
  if p.isUsed slot then some (p.slotBytes slot) else none

/-- The pages differ at most in their bytes, and not in how many they have. -/
structure Alike (p q : Page) : Prop where
  /-- They are the same page. -/
  id : q.id = p.id
  /-- They hold rows of the same schema. -/
  schema : q.schema = p.schema
  /-- They had the same bytes when they were last durable. -/
  before : q.before = p.before
  /-- They have been changed by the same transaction. -/
  dirtiedBy : q.dirtiedBy = p.dirtiedBy
  /-- They are of the same size. -/
  size : q.size = p.size

namespace Alike

theorem refl (p : Page) : p.Alike p := ⟨rfl, rfl, rfl, rfl, rfl⟩

theorem trans (h : p.Alike q) (k : q.Alike r) : p.Alike r where
  id := k.id.trans h.id
  schema := k.schema.trans h.schema
  before := k.before.trans h.before
  dirtiedBy := k.dirtiedBy.trans h.dirtiedBy
  size := k.size.trans h.size

theorem slots (h : p.Alike q) : q.slots = p.slots := by
  rw [Page.slots, Page.slots, h.size, h.schema]

theorem slotStart (h : p.Alike q) (slot : Nat) : q.slotStart slot = p.slotStart slot := by
  rw [Page.slotStart, Page.slotStart, h.size, h.schema]

end Alike

/-- The slots depend on the schema and the bytes of a page only. -/
theorem slot?_congr (hs : q.schema = p.schema) (hd : q.data = p.data) : q.slot? = p.slot? := by
  obtain ⟨_, _, _, _, _⟩ := p
  obtain ⟨_, _, _, _, _⟩ := q
  obtain rfl := hs
  obtain rfl := hd
  rfl

theorem isUsed_eq_false_of_le (h : p.slots ≤ slot) : p.isUsed slot = false := by
  simp [isUsed, Nat.not_lt.2 h]

theorem lt_slots_of_isUsed (h : p.isUsed slot = true) : slot < p.slots := by
  by_contra hn
  rw [isUsed_eq_false_of_le (Nat.not_lt.1 hn)] at h
  cases h

theorem slot?_eq_none_iff : p.slot? slot = none ↔ p.isUsed slot = false := by
  simp [slot?]

/-! ## Bits

A slot's bit is set and cleared with a mask of one bit.
-/

theorem toNat_mask (h : i < 8) : (UInt8.ofNat (1 <<< i)).toNat = 2 ^ i := by
  have := Nat.pow_lt_pow_right (a := 2) (by decide) h
  rw [UInt8.toNat_ofNat', Nat.one_shiftLeft, Nat.mod_eq_of_lt this]

theorem testBit_mask (b : UInt8) (hi : i < 8) (hj : j < 8) (used : Bool) :
    (if used then b ||| UInt8.ofNat (1 <<< i) else b &&& ~~~UInt8.ofNat (1 <<< i)).toNat.testBit j =
      if j = i then used else b.toNat.testBit j := by
  cases used with
  | true =>
    rw [if_pos rfl, UInt8.toNat_or, toNat_mask hi, Nat.testBit_or, Nat.testBit_two_pow]
    by_cases h : j = i
    · simp [h]
    · simp [h, Ne.symm h]
  | false =>
    have hp : 2 ^ i < 2 ^ 8 := Nat.pow_lt_pow_right (by decide) hi
    have hn : (~~~UInt8.ofNat (1 <<< i)).toNat = 2 ^ 8 - (2 ^ i + 1) := by
      rw [UInt8.toNat_not, toNat_mask hi]
      simp only [UInt8.size]
      omega
    rw [if_neg (by decide), UInt8.toNat_and, hn, Nat.testBit_and,
      Nat.testBit_two_pow_sub_succ hp, Nat.testBit_two_pow]
    by_cases h : j = i
    · simp [h]
    · simp [h, Ne.symm h, hj]

/-- Every slot's bit lies in the page. -/
theorem div_lt_size (h : slot < p.slots) : slot / 8 < p.size :=
  Nat.lt_of_lt_of_le (Layout.div_lt_headerSize h)
    (Nat.le_trans (Nat.le_add_right _ _) (Layout.headerSize_add_le p.size p.schema.rowSize))

theorem alike_setUsed (p : Page) (slot : Nat) (used : Bool) : p.Alike (p.setUsed slot used) where
  id := rfl
  schema := rfl
  before := rfl
  dirtiedBy := rfl
  size := List.length_modify ..

/-- A bit of the page's bytes. A slot's own bit is the one with the slot's number. -/
def bit (p : Page) (i : Nat) : Bool := (p.data.getD (i / 8) 0).toNat.testBit (i % 8)

theorem isUsed_eq (p : Page) (slot : Nat) :
    p.isUsed slot = (decide (slot < p.slots) && p.bit slot) := rfl

/-- Only the bit of the slot changes. -/
theorem bit_setUsed (h : slot < p.slots) (used : Bool) (i : Nat) :
    (p.setUsed slot used).bit i = if i = slot then used else p.bit i := by
  have hl : slot / 8 < p.data.length := div_lt_size h
  have hd : (p.setUsed slot used).data = p.data.modify (slot / 8) fun b =>
      if used then b ||| UInt8.ofNat (1 <<< (slot % 8))
      else b &&& ~~~UInt8.ofNat (1 <<< (slot % 8)) :=
    rfl
  simp only [bit, hd, List.getD_eq_getElem?_getD, List.getElem?_modify]
  by_cases hb : slot / 8 = i / 8
  · rw [hb] at hl
    simp only [hb, if_true, List.getElem?_eq_getElem hl, Option.map_eq_map, Option.map_some,
      Option.getD_some]
    rw [testBit_mask _ (Nat.mod_lt _ (by decide)) (Nat.mod_lt _ (by decide))]
    by_cases he : i = slot
    · simp [he]
    · rw [if_neg he, if_neg (by omega)]
  · have he : i ≠ slot := fun he => hb (by rw [he])
    simp [hb, he]

theorem isUsed_setUsed (h : slot < p.slots) (used : Bool) (i : Nat) :
    (p.setUsed slot used).isUsed i = if i = slot then used else p.isUsed i := by
  rw [isUsed_eq, isUsed_eq, (alike_setUsed p slot used).slots, bit_setUsed h]
  by_cases hi : i = slot
  · simp [hi, h]
  · simp [hi]

/-- Slots start behind the bitmap. -/
theorem slotBytes_setUsed (h : slot < p.slots) (used : Bool) (i : Nat) :
    (p.setUsed slot used).slotBytes i = p.slotBytes i := by
  have hs := Layout.div_lt_headerSize h
  rw [slotBytes, (alike_setUsed p slot used).slotStart]
  refine Bytes.slice_modify_of_lt _ (Nat.lt_of_lt_of_le hs ?_)
  rw [slotStart, Layout.slotStart]
  exact Nat.le_add_right _ _

theorem slot?_setUsed (h : slot < p.slots) (used : Bool) :
    (p.setUsed slot used).slot? =
      Function.update p.slot? slot (if used then some (p.slotBytes slot) else none) := by
  funext i
  rw [slot?, isUsed_setUsed h, slotBytes_setUsed h, Function.update_apply]
  by_cases hi : i = slot
  · rw [if_pos hi, if_pos hi, hi]
  · rw [if_neg hi, if_neg hi, slot?]

/-! ## Rows -/

/-- The page with the bytes of a slot replaced. -/
def fill (p : Page) (slot : Nat) (bytes : Bytes) : Page :=
  { p with data := Bytes.overwrite (p.slotStart slot) bytes p.data }

theorem alike_fill {bytes : Bytes} (h : slot < p.slots) (hb : bytes.length = p.schema.rowSize) :
    p.Alike (p.fill slot bytes) where
  id := rfl
  schema := rfl
  before := rfl
  dirtiedBy := rfl
  size := by
    have : p.slotStart slot + p.schema.rowSize ≤ p.size := Layout.slotStart_add_le h
    rw [size, fill, Bytes.length_overwrite, hb]
    exact Nat.max_eq_left this

theorem slotBytes_fill_self {bytes : Bytes} (h : slot < p.slots)
    (hb : bytes.length = p.schema.rowSize) : (p.fill slot bytes).slotBytes slot = bytes := by
  rw [slotBytes, (alike_fill h hb).slotStart]
  have := Bytes.slice_overwrite_self (p.slotStart slot) bytes p.data
  rwa [hb] at this

/-- Only bits of the slot's bytes change. -/
theorem bit_fill {bytes : Bytes} (h : slot < p.slots) (hb : bytes.length = p.schema.rowSize)
    (hi : i < 8 * p.slotStart slot ∨ 8 * (p.slotStart slot + p.schema.rowSize) ≤ i) :
    (p.fill slot bytes).bit i = p.bit i := by
  have hl : p.slotStart slot ≤ p.data.length :=
    Nat.le_trans (Nat.le_add_right _ _) (Layout.slotStart_add_le h)
  simp only [bit, fill, List.getD_eq_getElem?_getD]
  rw [Bytes.getElem?_overwrite (.inl hl), if_neg (by omega)]

/-- The bytes of a slot are no part of the bitmap and of no other slot. -/
theorem slot?_fill_of_ne {bytes : Bytes} (h : slot < p.slots)
    (hb : bytes.length = p.schema.rowSize) (hi : i ≠ slot) :
    (p.fill slot bytes).slot? i = p.slot? i := by
  have ha := alike_fill h hb
  have hl : p.slotStart slot ≤ p.data.length :=
    Nat.le_trans (Nat.le_add_right _ _) (Layout.slotStart_add_le h)
  have hu : (p.fill slot bytes).isUsed i = p.isUsed i := by
    rw [isUsed_eq, isUsed_eq, ha.slots]
    by_cases hs : i < p.slots
    · have : i / 8 < p.slotStart slot :=
        Nat.lt_of_lt_of_le (Layout.div_lt_headerSize hs) (Nat.le_add_right _ _)
      rw [bit_fill h hb (.inl (by omega))]
    · simp [hs]
  have hd : (p.fill slot bytes).slotBytes i = p.slotBytes i := by
    rw [slotBytes, ha.slotStart]
    refine Bytes.slice_overwrite_of_disjoint (.inl hl) ?_
    rw [hb]
    exact Layout.slotStart_disjoint _ _ hi
  rw [slot?, slot?, hu, hd]

/-- An insertion fills an empty slot of the page with the row and sets the slot's bit. -/
theorem eq_of_insert {row : Row} {place : RowId} (h : p.insert row = .ok (place, q)) :
    row.encode.length = p.schema.rowSize ∧ place.page = p.id ∧ place.slot < p.slots ∧
      p.isUsed place.slot = false ∧
        q = (p.fill place.slot row.encode).setUsed place.slot true := by
  unfold insert at h
  split at h
  · cases h
  · next ht =>
    have hb : row.encode.length = p.schema.rowSize := by
      rw [Row.length_encode, Row.size, Decidable.not_not.1 ht]
      rfl
    split at h
    · cases h
    · next slot hf =>
      cases h
      obtain ⟨hl, he, -⟩ := List.findIdx?_eq_some_iff_getElem.1 hf
      refine ⟨hb, rfl, Nat.lt_of_lt_of_le hl (List.length_take_le _ _), ?_, rfl⟩
      rw [← getD_occupancy, List.getD_eq_getElem?_getD, List.getElem?_eq_getElem hl]
      simpa using he

/-- An insertion puts the row into an empty slot of the page and changes no other slot. -/
theorem slot?_of_insert {row : Row} {place : RowId} (h : p.insert row = .ok (place, q)) :
    p.Alike q ∧ place.page = p.id ∧ p.slot? place.slot = none ∧
      q.slot? = Function.update p.slot? place.slot (some row.encode) := by
  obtain ⟨hb, hpage, hs, hu, rfl⟩ := eq_of_insert h
  have ha := alike_fill hs hb
  have hs' : place.slot < (p.fill place.slot row.encode).slots := ha.slots ▸ hs
  refine ⟨ha.trans (alike_setUsed _ place.slot true), hpage, slot?_eq_none_iff.2 hu, ?_⟩
  rw [slot?_setUsed hs', if_pos rfl, slotBytes_fill_self hs hb]
  funext i
  by_cases hi : i = place.slot
  · rw [hi, Function.update_self, Function.update_self]
  · rw [Function.update_of_ne hi, Function.update_of_ne hi, slot?_fill_of_ne hs hb hi]

/-- A deletion clears the bit of an occupied slot of the page. -/
theorem eq_of_delete {place : RowId} (h : p.delete (some place) = .ok q) :
    place.page = p.id ∧ p.isUsed place.slot = true ∧ q = p.setUsed place.slot false := by
  simp only [delete] at h
  split at h
  · cases h
  · next hn =>
    cases h
    obtain ⟨hp, hu⟩ := not_or.1 hn
    exact ⟨not_not.1 hp, Bool.not_eq_false _ ▸ hu, rfl⟩

/-- A deletion empties an occupied slot of the page and changes no other slot. -/
theorem slot?_of_delete {place : RowId} (h : p.delete (some place) = .ok q) :
    p.Alike q ∧ place.page = p.id ∧ p.slot? place.slot ≠ none ∧
      q.slot? = Function.update p.slot? place.slot none := by
  obtain ⟨hpage, hu, rfl⟩ := eq_of_delete h
  refine ⟨alike_setUsed p _ _, hpage, fun he => ?_, ?_⟩
  · rw [slot?_eq_none_iff.1 he] at hu
    cases hu
  · rw [slot?_setUsed (lt_slots_of_isUsed hu)]
    rfl

theorem delete_none (p : Page) : p.delete none = .error .missingRowId := rfl

/-! ## Series of changes -/

/-- `q` is what some insertions and deletions that succeed make of the page. -/
inductive Edited (p : Page) : Page → Prop
  /-- Nothing has been done. -/
  | refl : Edited p p
  /-- A row has been inserted. -/
  | insert {q q' : Page} {row : Row} {place : RowId} (h : Edited p q)
    (hq : q.insert row = .ok (place, q')) : Edited p q'
  /-- A row has been deleted. -/
  | delete {q q' : Page} {place : Option RowId} (h : Edited p q) (hq : q.delete place = .ok q') :
    Edited p q'

theorem Edited.alike (h : p.Edited q) : p.Alike q := by
  induction h with
  | refl => exact .refl p
  | insert _ hq ih => exact ih.trans (slot?_of_insert hq).1
  | @delete _ _ place _ hq ih =>
    cases place with
    | none =>
      rw [delete_none] at hq
      cases hq
    | some place => exact ih.trans (slot?_of_delete hq).1

/-! ## Pages without rows -/

/-- A page of zeros holds no row. -/
theorem slot?_eq_none_of_zeros {n : Nat} (h : p.data = Bytes.zeros n) : p.slot? slot = none := by
  rw [slot?_eq_none_iff, isUsed, h]
  simp [Bytes.zeros, List.getD_eq_getElem?_getD, List.getElem?_replicate]
  intro _
  split <;> simp

end RowStore.Page
