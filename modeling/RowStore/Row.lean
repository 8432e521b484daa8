import RowStore.Row.Value

/-!
# Rows

A row is a list of values, with its place when it is known to be stored. Its column types are those
of its values; a row is built for a schema only when they are the schema's.
-/

namespace RowStore

/-- A row of a table. -/
structure Row where
  /-- The values, one for each column. -/
  values : List Value
  /-- Where the row is stored. -/
  id : Option RowId
deriving DecidableEq

namespace Row

/-- The row of the values for a schema. -/
def make (s : Schema) (values : List Value) : Except Error Row :=
  if values.map Value.type = s.types then .ok ⟨values, none⟩ else .error .schemaMismatch

/-- The types of the columns that may hold the row. -/
def types (r : Row) : List ColumnType := r.values.map Value.type

/-- The bytes that the row takes in a page. -/
def size (r : Row) : Nat := Schema.widthOf r.types

/-- The values as they read, with a tabulator between two. -/
def display (r : Row) : String := "\t".intercalate (r.values.map Value.display)

/-- The stored form. -/
def encode (r : Row) : Bytes := r.values.flatMap Value.encode

/-- A row is stored as wide as the rows of its types. -/
@[simp] theorem length_encode (r : Row) : r.encode.length = r.size := by
  obtain ⟨values, id⟩ := r
  induction values with
  | nil => rfl
  | cons v vs ih =>
    simp only [encode, size, types, List.map_cons, Schema.widthOf, List.foldr_cons,
      List.flatMap_cons, List.length_append, Value.length_encode] at ih ⊢
    rw [ih]

end Row

end RowStore
