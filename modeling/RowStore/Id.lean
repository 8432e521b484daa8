/-!
# Names of tables, pages, rows and transactions

Transaction numbers range over 64 bits, page numbers over 32. A table may have any number.
-/

namespace RowStore

/-- One more than the largest size that a 64-bit machine can count. -/
def sizeLimit : Nat := UInt64.size

/-- One more than the largest page number. -/
def pageLimit : Nat := UInt32.size

/-- The number that names a table. -/
abbrev TableId := Nat

/-- The number that names a transaction. -/
abbrev TxnId := Nat

/-- How a transaction is named in messages. -/
def TxnId.display (txn : TxnId) : String := s!"tx{txn}"

/-- A page: the table that owns it and its position in that table's file. -/
structure PageId where
  /-- The owning table. -/
  table : TableId
  /-- The position in the file, from zero. -/
  number : Nat
deriving DecidableEq

/-- How a page is named in messages. -/
def PageId.display (page : PageId) : String := s!"{page.table}:{page.number}"

/-- The place of a stored row: a page and a slot of it. -/
structure RowId where
  /-- The page that holds the row. -/
  page : PageId
  /-- The slot within the page, from zero. -/
  slot : Nat
deriving DecidableEq

end RowStore
