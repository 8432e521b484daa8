import RowStore.Page.Layout
import RowStore.Row

/-!
# Pages

A page holds rows of one schema in slots, of which a bitmap tells the occupied ones. It remembers
the bytes it had when it was last known to be durable, and which transaction has changed it since.

`Page.occupancy` is the bitmap as a list with one entry for each slot, and `Page.isUsed` the same
for a single slot; `getD_occupancy` says that the two agree.
-/

namespace RowStore

/-- A page of a table in memory. -/
structure Page where
  /-- Which page it is. -/
  id : PageId
  /-- The columns of the rows in it. -/
  schema : Schema
  /-- Its bytes. -/
  data : Bytes
  /-- Its bytes when it was last known to be durable. -/
  before : Bytes
  /-- The transaction that has changed it since, if one has. -/
  dirtiedBy : Option TxnId
deriving DecidableEq

namespace Page

/-- A clean page of the given bytes. -/
def ofBytes (id : PageId) (schema : Schema) (data : Bytes) : Page := ⟨id, schema, data, data, none⟩

/-- A clean page without rows. -/
def empty (id : PageId) (schema : Schema) (pageSize : Nat) : Page :=
  ofBytes id schema (Bytes.zeros pageSize)

/-- The page, changed by the transaction or by none. -/
def markDirty (txn : Option TxnId) (p : Page) : Page := { p with dirtiedBy := txn }

/-- The page, with its present bytes as the durable ones. -/
def rebase (p : Page) : Page := { p with before := p.data }

/-- The number of its bytes. -/
def size (p : Page) : Nat := p.data.length

/-- The number of its slots. -/
def slots (p : Page) : Nat := Layout.slots p.size p.schema.rowSize

/-! ## The bitmap -/

/-- The bits of a byte, the least significant first. -/
def bits (b : UInt8) : List Bool := (List.range 8).map b.toNat.testBit

@[simp] theorem length_bits (b : UInt8) : (bits b).length = 8 := by simp [bits]

/-- Whether the slot exists and its bit is set. -/
def isUsed (p : Page) (slot : Nat) : Bool :=
  slot < p.slots && (p.data.getD (slot / 8) 0).toNat.testBit (slot % 8)

/-- For each slot whether its bit is set. -/
def occupancy (p : Page) : List Bool :=
  ((p.data.take (Layout.headerSize p.slots)).flatMap bits).take p.slots

/-- A bit of a run of bytes is a bit of one of them. -/
theorem getD_flatMap_bits (b : Bytes) (i : Nat) :
    (b.flatMap bits).getD i false = (b.getD (i / 8) 0).toNat.testBit (i % 8) := by
  induction b generalizing i with
  | nil => simp
  | cons x xs ih =>
    rw [List.flatMap_cons]
    by_cases h : i < 8
    · have h0 : i / 8 = 0 := by omega
      simp [List.getD_eq_getElem?_getD, List.getElem?_append, h, h0, bits, Nat.mod_eq_of_lt h]
    · have h1 : i / 8 = (i - 8) / 8 + 1 := by omega
      have h2 : i % 8 = (i - 8) % 8 := by omega
      rw [h1, h2, List.getD_cons_succ, ← ih]
      simp [List.getD_eq_getElem?_getD, List.getElem?_append, h]

/-- The bitmap read as a list is the bitmap read slot by slot. -/
theorem getD_occupancy (p : Page) (slot : Nat) : p.occupancy.getD slot false = p.isUsed slot := by
  unfold occupancy isUsed
  by_cases h : slot < p.slots
  · have hb := Layout.div_lt_headerSize h
    have e := getD_flatMap_bits (p.data.take (Layout.headerSize p.slots)) slot
    simp only [List.getD_eq_getElem?_getD, List.getElem?_take, h, if_true, hb, decide_true,
      Bool.true_and] at e ⊢
    exact e
  · rw [List.getD_eq_getElem?_getD, List.getElem?_take, if_neg h]
    simp [h]

/-- How many slots hold no row. -/
def emptySlots (p : Page) : Nat := p.occupancy.count false

/-- The slots that hold a row, in order. -/
def usedSlots (p : Page) : List Nat := p.occupancy.zipIdx.filterMap fun (used, slot) =>
  if used then some slot else none

/-- The page with the bit of a slot set or cleared. -/
def setUsed (slot : Nat) (used : Bool) (p : Page) : Page :=
  let mask := UInt8.ofNat (1 <<< (slot % 8))
  { p with data := p.data.modify (slot / 8) fun b => if used then b ||| mask else b &&& ~~~mask }

/-! ## Rows -/

/-- Where the bytes of a slot start. -/
def slotStart (p : Page) (slot : Nat) : Nat := Layout.slotStart p.size p.schema.rowSize slot

/-- The bytes of a slot. -/
def slotBytes (p : Page) (slot : Nat) : Bytes :=
  Bytes.slice (p.slotStart slot) p.schema.rowSize p.data

/-- The row that bytes decode to, as the one in a slot. -/
def decodeAs (p : Page) (slot : Nat) (bytes : Bytes) : Except Error Row := do
  let values ← Value.decodeAll p.schema.types bytes
  return ⟨values, some ⟨p.id, slot⟩⟩

/-- The row that the bytes of a slot decode to. -/
def decodeSlot (p : Page) (slot : Nat) : Except Error Row := p.decodeAs slot (p.slotBytes slot)

/-- The row in a slot, if there is one. -/
def row? (p : Page) (slot : Nat) : Except Error (Option Row) :=
  if p.isUsed slot then (p.decodeSlot slot).map some else .ok none

/-- The rows in slot order. The page's bytes are laid out once for all slots. -/
def rows (p : Page) : Except Error (List Row) :=
  let bytes := p.data.toArray
  let first := p.slotStart 0
  let width := p.schema.rowSize
  p.usedSlots.mapM fun slot =>
    p.decodeAs slot (bytes.extract (first + slot * width) (first + slot * width + width)).toList

/-- The rows are what the used slots decode to. -/
theorem rows_eq_mapM_decodeSlot (p : Page) : p.rows = p.usedSlots.mapM p.decodeSlot := by
  refine congrArg (p.usedSlots.mapM ·) (funext fun slot => ?_)
  simp [decodeSlot, slotBytes, slotStart, Layout.slotStart, Bytes.slice]

/-- The page with a row in its first empty slot, and the place of that row. -/
def insert (p : Page) (r : Row) : Except Error (RowId × Page) :=
  if r.types ≠ p.schema.types then .error .schemaMismatch
  else match p.occupancy.findIdx? (· = false) with
    | none => .error (.pageFull p.id)
    | some slot =>
      let data := Bytes.overwrite (p.slotStart slot) r.encode p.data
      .ok (⟨p.id, slot⟩, { p with data }.setUsed slot true)

/-- The page without the row at a place. Only the bit of its slot changes. -/
def delete (p : Page) (place : Option RowId) : Except Error Page :=
  match place with
  | none => .error .missingRowId
  | some id =>
    if id.page ≠ p.id ∨ p.isUsed id.slot = false then .error (.slotEmpty id.page id.slot)
    else .ok (p.setUsed id.slot false)

end Page

end RowStore
