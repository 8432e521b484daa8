import RowStore.Call.Schedule
import RowStore.Config

/-!
# Databases

A database has one catalog, one set of table files and one log, and a pool: the cached pages with
their locks and the calls that wait for them. The pool can be replaced by a fresh one; who still
uses an old pool goes on with it, apart from the others.
-/

namespace RowStore

/-- Cached pages with their locks, and the calls that wait for locks. -/
structure Pool where
  /-- The cached pages. -/
  cache : Cache
  /-- The page locks. -/
  locks : LockTable
  /-- The waiting calls. -/
  blocked : List Call

/-- The pool without pages and locks. -/
def Pool.empty (capacity : Nat) (choices : Nat → Nat) : Pool :=
  ⟨.empty capacity choices, .empty, []⟩

/-- A database. -/
structure Database where
  /-- Its sizes. -/
  config : Config
  /-- Its tables, files and log. -/
  backing : Backing
  /-- Its pools, the oldest first. The last one is the present one. -/
  pools : List Pool
  /-- Decides which pages its pools evict. -/
  choices : Nat → Nat
  /-- How many transactions have begun. -/
  begun : Nat

namespace Database

/-- The database without tables. -/
def new (config : Config) (choices : Nat → Nat) (host : Host := .plain) : Database where
  config
  backing := ⟨.empty, .empty, .empty, host⟩
  pools := [.empty config.poolPages choices]
  choices
  begun := 0

/-- Begins a transaction. Transactions are numbered from one. -/
def beginTxn (db : Database) : TxnId × Database := (db.begun + 1, { db with begun := db.begun + 1 })

/-- Opens the table in the file at a path under a name of its own, and makes the file if there is
none. At least one row has to fit a page. -/
def openTable (db : Database) (path : String) (schema : Schema) (name : String) :
    Except Error (Table × Database) := do
  let slots ← Layout.checkedSlots db.config.pageSize schema.rowSize
  if slots = 0 then .error (.rowTooWide schema.rowSize db.config.pageSize)
  else
    let (file, disk) ← db.backing.disk.openFile path db.config.pageSize
    let table : Table := ⟨db.backing.host.tableId file, file, schema⟩
    let backing := { db.backing with disk, catalog := db.backing.catalog.add table name }
    return (table, { db with backing })

/-- Replaces the pool by one without pages and locks. -/
def resetPool (db : Database) : Database :=
  { db with pools := db.pools ++ [.empty db.config.poolPages db.choices] }

/-- The number of the present pool. -/
def presentPool (db : Database) : Nat := db.pools.length - 1

/-- A pool and what it works on. -/
def service? (db : Database) (pool : Nat) : Option Service :=
  db.pools[pool]?.map fun p => ⟨⟨db.backing, p.cache, p.locks⟩, p.blocked⟩

/-- The database after one of its pools was at work. -/
def withService (db : Database) (pool : Nat) (s : Service) : Database :=
  { db with
    backing := s.engine.toBacking
    pools := db.pools.set pool ⟨s.engine.cache, s.engine.locks, s.blocked⟩ }

end Database

end RowStore
