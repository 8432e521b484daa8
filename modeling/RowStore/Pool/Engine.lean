import RowStore.Disk
import RowStore.Host
import RowStore.Lock.Table
import RowStore.Log.Journal
import RowStore.Pool.Cache

/-!
# The engine

The engine is everything that transactions work on: the catalog, the table files, the log, the
cached pages and the page locks, and the machine that all this is on. Its operations here need no
lock, or are given one: how a transaction comes by its locks is told in `RowStore.Call`.

A changed page stays in the cache until its transaction ends. A commit logs each changed page,
makes the log durable, and only then writes the page to its file; an abort forgets the changed
pages. Either gives all locks back.

The write of a page can break off when some of its bytes are in the file. Which writes do is left to
`Faults`; in what is said of a commit or of writing back without them, none does.
-/

namespace RowStore

/-- What all users of the files share. -/
structure Backing where
  /-- The tables. -/
  catalog : Catalog
  /-- The table files. -/
  disk : Disk
  /-- The log. -/
  journal : Journal
  /-- The machine. -/
  host : Host

/-- What transactions work on. -/
structure Engine extends Backing where
  /-- The cached pages. -/
  cache : Cache
  /-- The page locks. -/
  locks : LockTable

namespace Engine

/-! ## Pages -/

/-- A page as its table's file has it. -/
def load (e : Engine) (page : PageId) : Except Error Page := do
  e.disk.readPage (← e.catalog.table page.table) page

/-- A handle to a page for a transaction that holds its lock. A page that is not cached is read
from its file first. -/
def reach (e : Engine) (txn : TxnId) (page : PageId) (access : Access) :
    Except Error (Handle × Engine) :=
  match e.cache.frame? page with
  | some f => .ok (⟨page, txn, access, f.serial⟩, e)
  | none => do
    let cache ← e.cache.add (← e.load page)
    return (⟨page, txn, access, e.cache.nextSerial⟩, { e with cache })

/-- Makes this copy of a page the cached one, changed by a transaction that holds it for itself
alone. -/
def install (e : Engine) (txn : TxnId) (p : Page) : Except Error Engine :=
  if e.locks.modeOf txn p.id = .exclusive then do
    let cache ← e.cache.put (p.markDirty (some txn))
    return { e with cache }
  else .error (.lockNotHeld txn p.id)

/-- Evicts one clean page. -/
def evict (e : Engine) : Except Error (PageId × Engine) := do
  let (page, cache) ← e.cache.evict
  return (page, { e with cache })

/-- Forgets the cached copy of a page. -/
def discard (e : Engine) (page : PageId) : Engine := { e with cache := e.cache.discard page }

/-- Gives one lock back before the transaction ends. -/
def release (e : Engine) (txn : TxnId) (page : PageId) : Engine :=
  { e with locks := e.locks.release txn page }

/-! ## Writing back -/

/-- Which writes of pages break off, and how. -/
abbrev Faults := PageId → Option PageFile.Fault

/-- No write breaks off. -/
def Faults.none : Faults := fun _ => Option.none

/-- Logs the change of a page, of which this is the cached copy. -/
def logChange (e : Engine) (page : PageId) (txn : TxnId) (p : Page) : Except Error Unit × Engine :=
  match e.journal.append ⟨txn, page, p.before, p.data⟩ with
  | (.error err, journal) => (.error err, { e with journal })
  | (.ok (), journal) =>
    let (result, journal) := journal.force
    (result, { e with journal })

/-- Writes a page, of which this is the cached copy, to its table's file. It gets to the place that
the copy says it has. If the write breaks off the page keeps its mark. -/
def writeBack (faults : Faults) (e : Engine) (page : PageId) (p : Page) :
    Except Error Unit × Engine :=
  match e.catalog.table page.table with
  | .error err => (.error err, e)
  | .ok t =>
    match e.disk.writePage t p, faults page with
    | .error err, _ => (.error err, e)
    | .ok _, some fault => (.error fault.err, { e with disk := e.disk.tearPage t p fault.bytes })
    | .ok disk, none => (.ok (), { e with disk, cache := e.cache.update page (·.markDirty none) })

/-- Logs the change of a page and then writes the page to its file. A page that is clean or not
cached is left alone. -/
def flushUnder (faults : Faults) (e : Engine) (page : PageId) : Except Error Unit × Engine :=
  match e.cache.page? page with
  | none => (.ok (), e)
  | some p =>
    match p.dirtiedBy with
    | none => (.ok (), e)
    | some txn =>
      match e.logChange page txn p with
      | (.error err, e) => (.error err, e)
      | (.ok (), e) => e.writeBack faults page p

/-- Writes pages to their files up to the first failure, and after each of them does what `andThen`
says. -/
def flushEach (faults : Faults) (andThen : PageId → Engine → Engine) :
    (pages : List PageId) → (e : Engine) → Except Error Unit × Engine
  | [], e => (.ok (), e)
  | page :: rest, e =>
    match e.flushUnder faults page with
    | (.error err, e) => (.error err, e)
    | (.ok (), e) => flushEach faults andThen rest (andThen page e)

/-- Pages in the order in which one goes through them. -/
def inOrder (e : Engine) (pages : List PageId) : List PageId :=
  e.host.order e.journal.appendCalls pages

/-- The pages that a transaction holds for itself alone. -/
def held (e : Engine) (txn : TxnId) : List PageId := e.inOrder (e.locks.pagesHeld txn .exclusive)

/-- Writes all changed pages to their files, those of running transactions too. -/
def flushAllUnder (faults : Faults) (e : Engine) : Except Error Unit × Engine :=
  flushEach faults (fun _ e => e) (e.inOrder e.cache.pages) e

/-- Writes the changed pages that a transaction holds for itself alone. -/
def flushHeldUnder (faults : Faults) (e : Engine) (txn : TxnId) : Except Error Unit × Engine :=
  flushEach faults (fun _ e => e) (e.held txn) e

/-! ## The end of a transaction -/

/-- The present bytes of a cached page become its durable ones. -/
def rebase (page : PageId) (e : Engine) : Engine :=
  { e with cache := e.cache.update page Page.rebase }

/-- Gives all locks of a transaction back. -/
def releaseAll (e : Engine) (txn : TxnId) : Engine :=
  { e with locks := e.locks.releaseAll txn }

/-- Ends a transaction and makes its changes durable. If a page cannot be written the transaction
goes on, with all its locks. -/
def commitUnder (faults : Faults) (e : Engine) (txn : TxnId) : Except Error Unit × Engine :=
  match flushEach faults rebase (e.held txn) e with
  | (.error err, e) => (.error err, e)
  | (.ok (), e) => (.ok (), e.releaseAll txn)

/-- Ends a transaction and forgets its changes. -/
def abort (e : Engine) (txn : TxnId) : Engine :=
  ((e.held txn).foldl discard e).releaseAll txn

/-! ## Files that take every write -/

/-- Logs the change of a page and then writes the page to its file. -/
def flush (e : Engine) (page : PageId) : Except Error Unit × Engine := e.flushUnder .none page

/-- Writes all changed pages to their files. -/
def flushAll (e : Engine) : Except Error Unit × Engine := e.flushAllUnder .none

/-- Writes the changed pages that a transaction holds for itself alone. -/
def flushHeld (e : Engine) (txn : TxnId) : Except Error Unit × Engine := e.flushHeldUnder .none txn

/-- Ends a transaction and makes its changes durable. -/
def commit (e : Engine) (txn : TxnId) : Except Error Unit × Engine := e.commitUnder .none txn

end Engine

end RowStore
