import RowStore.Cursor

/-!
# Calls

A call is a request of a transaction that has come to the point where it needs a page lock. It says
which lock, and it holds all that is needed to go on once the lock is there. A call may need several
locks, one after the other; its *work* bounds how many more it can ask for.
-/

namespace RowStore

/-- What a cursor answers when asked for a row: a row, the end, or why there is none. -/
abbrev Item := Except Error (Option Row)

/-- What a request that succeeds answers. -/
inductive Reply
  /-- Nothing but that it is done. -/
  | done
  /-- A handle to a page, and the page. -/
  | handle (h : Handle) (p : Page)
  /-- The pages changed. -/
  | pages (ps : List Page)
  /-- The rows of a table. -/
  | rows (rs : List Row)
  /-- What a cursor answered, and the cursor after it. -/
  | items (xs : List Item) (c : Cursor)
deriving DecidableEq

/-- How a request ends. -/
abbrev Outcome := Except Error Reply

/-- An insertion that tries one page after the other. -/
structure Insertion where
  /-- Who inserts. -/
  txn : TxnId
  /-- Where. -/
  table : Table
  /-- What. -/
  row : Row
  /-- The number of the page that is tried now. -/
  number : Nat
  /-- How many pages the table had at the start. -/
  count : Nat
  /-- How strongly the transaction held the page before it tried it. -/
  heldBefore : LockMode
  /-- Whether the page was appended for this row. -/
  grown : Bool
  /-- Whether the changed page is to be made the cached copy. -/
  install : Bool

namespace Insertion

/-- The page that is tried now. -/
def page (i : Insertion) : PageId := ⟨i.table.id, i.number⟩

/-- A bound for the pages that may be tried after this one. -/
def work (i : Insertion) : Nat := if i.grown then 0 else i.count - i.number + 1

end Insertion

/-- A request that needs a page lock to go on. -/
inductive Call
  /-- Wants a handle to a page, and keeps it or not. -/
  | fetch (txn : TxnId) (page : PageId) (access : Access) (keep : Bool)
  /-- Wants to put a row into a page. -/
  | insert (i : Insertion)
  /-- Wants to take a row out of its page, and to make the changed page the cached copy or not. -/
  | delete (txn : TxnId) (place : RowId) (install : Bool)
  /-- Wants all rows that are left, after those already seen, of which the last comes first. -/
  | collect (c : Cursor) (seen : List Row)
  /-- Wants a row and then some more, after the answers already given, of which the last comes
  first. -/
  | take (c : Cursor) (more : Nat) (given : List Item)

namespace Call

/-- The transaction that the call is of. -/
def txn : Call → TxnId
  | fetch txn .. => txn
  | insert i => i.txn
  | delete txn .. => txn
  | collect c _ => c.txn
  | take c .. => c.txn

/-- The page whose lock the call needs. -/
def page : Call → PageId
  | fetch _ page .. => page
  | insert i => i.page
  | delete _ place _ => place.page
  | collect c _ => c.page
  | take c .. => c.page

/-- What the call wants to do with the page. -/
def access : Call → Access
  | fetch _ _ access _ => access
  | insert _ => .write
  | delete .. => .write
  | collect .. => .read
  | take .. => .read

/-- The lock that the call needs. -/
def mode (c : Call) : LockMode := c.access.mode

/-- A bound for the locks that the call may need after this one. -/
def work : Call → Nat
  | fetch .. => 0
  | insert i => i.work
  | delete .. => 0
  | collect c _ => c.pages - c.next
  | take c more _ => (more + 1) * (c.pages + 2) + (c.pages - c.next)

end Call

/-- How far a request has come: it has ended, or waits for a lock with a call that has the
property. -/
inductive Step (p : Call → Prop)
  /-- The request has ended. -/
  | finished (outcome : Outcome)
  /-- The request needs a lock. -/
  | waits (next : Call) (h : p next)

end RowStore
