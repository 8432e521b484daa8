import RowStore.Error
import RowStore.Lookup
import RowStore.Row.Schema

/-!
# The catalog

The catalog knows the tables by number and by name. It keeps one index for each, and both say the
same: a table that takes over a name or a number drives out what had it, under both keys.
-/

namespace RowStore

/-- A table: its number, the file that holds its pages, and its columns. -/
structure Table where
  /-- The number of the table. -/
  id : TableId
  /-- The name of its file. -/
  file : String
  /-- Its columns. -/
  schema : Schema
deriving DecidableEq

/-- The tables by number and by name. -/
structure Catalog where
  /-- Each number with its table and the table's name. -/
  byId : List (TableId × Table × String)
  /-- Each name with its table's number. -/
  byName : List (String × TableId)
deriving DecidableEq

namespace Catalog

/-- The catalog without tables. -/
def empty : Catalog := ⟨[], []⟩

/-- The entry of a number. -/
def find? (c : Catalog) (id : TableId) : Option (Table × String) := c.byId.lookup id

/-- The number of the table with a name. -/
def idOf (c : Catalog) (name : String) : Except Error TableId :=
  match c.byName.lookup name with
  | some id => .ok id
  | none => .error (.noSuchName name)

/-- The table with a number. -/
def table (c : Catalog) (id : TableId) : Except Error Table :=
  match c.find? id with
  | some (t, _) => .ok t
  | none => .error (.noSuchTable id)

/-- The name of the table with a number. -/
def nameOf (c : Catalog) (id : TableId) : Except Error String :=
  match c.find? id with
  | some (_, name) => .ok name
  | none => .error (.noSuchTable id)

/-- The columns of the table with a number. -/
def schemaOf (c : Catalog) (id : TableId) : Except Error Schema := (c.table id).map (·.schema)

/-- The numbers of all tables. -/
def ids (c : Catalog) : List TableId := c.byId.map (·.1)

/-- The catalog without the number, in its index by number. -/
def dropId (c : Catalog) (id : TableId) : Catalog := { c with byId := c.byId.filter (·.1 ≠ id) }

/-- The catalog without the name, in its index by name. -/
def dropName (c : Catalog) (name : String) : Catalog :=
  { c with byName := c.byName.filter (·.1 ≠ name) }

theorem find?_dropId (c : Catalog) (id a : TableId) :
    (c.dropId id).find? a = if a = id then none else c.find? a := by
  split
  · next h => rw [h]; exact lookup_filter_self c.byId id
  · next h => exact lookup_filter_of_ne c.byId h

theorem lookup_dropName (c : Catalog) (name a : String) :
    (c.dropName name).byName.lookup a = if a = name then none else c.byName.lookup a := by
  split
  · next h => rw [h]; exact lookup_filter_self c.byName name
  · next h => exact lookup_filter_of_ne c.byName h

/-- The catalog without the table of a name. -/
def removeName (c : Catalog) (name : String) : Catalog :=
  match c.byName.lookup name with
  | some id => (c.dropName name).dropId id
  | none => c

/-- The catalog without the table of a number. -/
def removeId (c : Catalog) (id : TableId) : Catalog :=
  match c.find? id with
  | some (_, name) => (c.dropId id).dropName name
  | none => c

/-- The catalog with a table under a name. The tables that had the name or the number go. -/
def add (c : Catalog) (t : Table) (name : String) : Catalog :=
  let rest := (c.removeName name).removeId t.id
  ⟨(t.id, t, name) :: rest.byId, (name, t.id) :: rest.byName⟩

/-- The catalog after all its tables have been taken out. -/
def clear (_ : Catalog) : Catalog := empty

end Catalog

end RowStore
