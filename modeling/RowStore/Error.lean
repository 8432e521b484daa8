import RowStore.Lock.Mode
import RowStore.Text.Quoted

/-!
# Refusals

Every reason for which the store refuses a request, and the message that states it.
-/

namespace RowStore

/-- Why a request was refused. -/
inductive Error
  /-- The page lies beyond the end of the table's file. -/
  | pageOutOfRange (page : PageId) (pages : Nat)
  /-- The row's column types are not those of the table. -/
  | schemaMismatch
  /-- Not even one row fits a page. -/
  | rowTooWide (rowSize pageSize : Nat)
  /-- Every slot of the page is taken. -/
  | pageFull (page : PageId)
  /-- The slot holds no row. -/
  | slotEmpty (page : PageId) (slot : Nat)
  /-- The row is not known to be stored anywhere. -/
  | missingRowId
  /-- The row is stored in another table. -/
  | wrongTable (expected found : TableId)
  /-- The cursor has not been opened, or was closed. -/
  | cursorNotOpen
  /-- A stored text does not decode. -/
  | invalidText
  /-- No cached page may leave the cache. -/
  | allPagesDirty (cached : Nat)
  /-- The page behind the handle has left the cache. -/
  | staleHandle (page : PageId)
  /-- The handle does not allow changes. -/
  | readOnlyHandle (page : PageId)
  /-- The transaction does not hold the page for itself alone. -/
  | lockNotHeld (txn : TxnId) (page : PageId)
  /-- No table has the number. -/
  | noSuchTable (table : TableId)
  /-- No table has the name. -/
  | noSuchName (name : String)
  /-- Waiting for the lock would close a circle of waiting transactions. -/
  | deadlock (txn : TxnId) (page : PageId) (mode : LockMode)
  /-- The bytes are not as many as a page has. -/
  | pageLength (number actual expected : Nat)
  /-- The file ends before the page does. -/
  | pastEnd (number : Nat) (file : String) (size : Nat)
  /-- The body of a log record ends at the position, before all its parts have been read. -/
  | truncatedRecord (position : Nat)
  /-- The log failed, for the stated reason. -/
  | logFailed (reason : String)
  /-- No file can be opened under the path. -/
  | unusablePath
  /-- No file can have as many bytes. -/
  | fileTooLong
  /-- The file is too long to be read as a whole. -/
  | outOfMemory
  /-- A size, a position or a count is too large for its width. -/
  | overflow
  /-- Pages of no bytes cannot be counted. -/
  | zeroPageSize
  /-- The buffer is shorter than a page. -/
  | shortBuffer
deriving DecidableEq

/-- The text of a refusal. -/
def Error.message : Error → String
  | pageOutOfRange page pages =>
    s!"page {page.display} is beyond the end of a {pages}-page file"
  | schemaMismatch => "tuple does not match the table schema"
  | rowTooWide rowSize pageSize => s!"tuple of {rowSize} bytes cannot fit a {pageSize}-byte page"
  | pageFull page => s!"page {page.display} has no empty slot"
  | slotEmpty page slot => s!"slot {slot} of page {page.display} is empty"
  | missingRowId => "tuple has no record id"
  | wrongTable expected found => s!"tuple belongs to table {found}, not {expected}"
  | cursorNotOpen => "iterator is not open"
  | invalidText => "string field is not valid utf-8"
  | allPagesDirty cached => s!"all {cached} cached pages are dirty; nothing can be evicted"
  | staleHandle page => s!"handle to page {page.display} outlived its cache entry"
  | readOnlyHandle page => s!"page {page.display} was fetched read-only"
  | lockNotHeld txn page =>
    s!"{TxnId.display txn} does not hold an exclusive lock on page {page.display}"
  | noSuchTable table => s!"no table with id {table}"
  | noSuchName name => "no table named " ++ Text.quote name
  | deadlock txn page mode =>
    s!"transaction {TxnId.display txn} aborted: deadlock while waiting for {mode.display} " ++
      s!"lock on page {page.display}"
  | pageLength number actual expected =>
    s!"page {number} has {actual} bytes, expected {expected}"
  | pastEnd number file size =>
    s!"I/O error reading page {number} past end of {Text.quote file} ({size} bytes)"
  | truncatedRecord position => s!"log record truncated at byte {position}"
  | logFailed reason => reason
  | unusablePath => "no file can be opened under the path"
  | fileTooLong => "no file can be as long"
  | outOfMemory => "the file is too long to be read as a whole"
  | overflow => "a size, a position or a count is too large"
  | zeroPageSize => "pages have no bytes"
  | shortBuffer => "the buffer is shorter than a page"

/-- Whether the refusal ends the transaction's work: only a deadlock does. -/
def Error.isAbort : Error → Bool
  | deadlock .. => true
  | _ => false

instance decidableEqResult {α : Type} [DecidableEq α] : DecidableEq (Except Error α)
  | .ok a, .ok b => decidable_of_iff (a = b) ⟨congrArg _, Except.ok.inj⟩
  | .error a, .error b => decidable_of_iff (a = b) ⟨congrArg _, Except.error.inj⟩
  | .ok _, .error _ => isFalse nofun
  | .error _, .ok _ => isFalse nofun

/-- Two steps in a row succeed just if both do. -/
theorem bind_eq_ok {α β : Type} {x : Except Error α} {f : α → Except Error β} {b : β} :
    x >>= f = .ok b ↔ ∃ a, x = .ok a ∧ f a = .ok b := by
  cases x with
  | error err => exact ⟨nofun, fun ⟨a, h, _⟩ => nomatch h⟩
  | ok a => exact ⟨fun h => ⟨a, rfl, h⟩, fun ⟨_, rfl, h⟩ => h⟩

theorem map_eq_ok {α β : Type} {x : Except Error α} {f : α → β} {b : β} :
    x.map f = .ok b ↔ ∃ a, x = .ok a ∧ f a = b := by
  cases x with
  | error err => exact ⟨nofun, fun ⟨a, h, _⟩ => nomatch h⟩
  | ok a => exact ⟨fun h => ⟨a, rfl, Except.ok.inj h⟩, fun ⟨_, rfl, h⟩ => congrArg Except.ok h⟩

end RowStore
