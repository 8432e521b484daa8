import RowStore.Pool.Engine

/-!
# Cursors

A cursor reads a table page by page, for a transaction, and hands out the rows of one page before
it asks for the next. How many pages there are is looked up once, when the cursor is opened.
-/

namespace RowStore

/-- A scan of a table in progress. -/
structure Cursor where
  /-- The table scanned. -/
  table : Table
  /-- The transaction that scans. -/
  txn : TxnId
  /-- How many pages the scan covers. -/
  pages : Nat
  /-- The next page to read. -/
  next : Nat
  /-- The rows of the last page read that have not been handed out. -/
  buffered : List Row
  /-- Whether rows can be asked for. -/
  isOpen : Bool
deriving DecidableEq

namespace Cursor

/-- A cursor that has not been opened. -/
def new (table : Table) (txn : TxnId) : Cursor := ⟨table, txn, 0, 0, [], false⟩

/-- The page to read next. -/
def page (c : Cursor) : PageId := ⟨c.table.id, c.next⟩

/-- The cursor before the first row of a table with the given number of pages. -/
def openAt (c : Cursor) (pages : Nat) : Cursor :=
  { c with pages, next := 0, buffered := [], isOpen := true }

/-- The cursor closed. -/
def close (c : Cursor) : Cursor := { c with next := 0, buffered := [], isOpen := false }

end Cursor

/-- The cursor before the first row of its table as it is now. Opening an open cursor starts it
again. -/
def Engine.openCursor (e : Engine) (c : Cursor) : Except Error Cursor :=
  (e.disk.pageCount c.table).map c.openAt

/-- The rows of the next page of a cursor, whose lock its transaction holds. -/
def Engine.nextRows (e : Engine) (c : Cursor) : Except Error (List Row) × Engine :=
  match e.reach c.txn c.page .read with
  | .error err => (.error err, e)
  | .ok (h, e) => (e.cache.read h >>= Page.rows, e)

end RowStore
