/-!
# Schemas

A schema is the list of a table's columns. Two schemas that have the same column types are the same
as far as stored rows go: names play no part in the layout.
-/

namespace RowStore

/-- What a column holds. -/
inductive ColumnType
  /-- A signed 32-bit number. -/
  | int
  /-- A text of bounded length. -/
  | text
deriving DecidableEq

/-- The most bytes of a text that a row stores. -/
def textLimit : Nat := 128

/-- The bytes that a column takes in every row: a text is preceded by its length. -/
def ColumnType.width : ColumnType → Nat
  | .int => 4
  | .text => 4 + textLimit

/-- A column, which need not have a name. -/
structure Column where
  /-- What the column holds. -/
  type : ColumnType
  /-- The column's name. -/
  name : Option String
deriving DecidableEq

/-- The columns of a table, in order. -/
structure Schema where
  /-- The columns. -/
  columns : List Column
deriving DecidableEq

namespace Schema

/-- The schema with the given column types, named from the left as far as the names go. -/
def named (types : List ColumnType) (names : List String) : Schema :=
  ⟨types.zipIdx.map fun (type, i) => ⟨type, names[i]?⟩⟩

/-- The schema with the given column types and no names. -/
def ofTypes (types : List ColumnType) : Schema := named types []

/-- The column types. -/
def types (s : Schema) : List ColumnType := s.columns.map (·.type)

@[simp] theorem types_named (types : List ColumnType) (names : List String) :
    (named types names).types = types := by
  simp [named, Schema.types, Function.comp_def]

/-- The position of the first column with a name. -/
def indexOf? (s : Schema) (name : String) : Option Nat :=
  s.columns.findIdx? (·.name = some name)

/-- The bytes of one row whose columns have the given types. -/
def widthOf (types : List ColumnType) : Nat := types.foldr (·.width + ·) 0

/-- The bytes of one row. -/
def rowSize (s : Schema) : Nat := widthOf s.types

end Schema

end RowStore
