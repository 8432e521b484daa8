import RowStore.Catalog
import RowStore.Lookup
import RowStore.Page.Basic
import RowStore.Page.File

/-!
# The files of the tables

A disk holds files by name, each as pages of one size. A table's pages are those of the file that
it names.
-/

namespace RowStore

/-- Files by name. -/
structure Disk where
  /-- Every file that exists, under its name. -/
  files : List (String × PageFile)

namespace Disk

/-- The disk without files. -/
def empty : Disk := ⟨[]⟩

/-- Whether a file may have the name: no separator, and no name of a directory. -/
def isFileName (name : List Char) : Bool :=
  name ≠ [] && name ≠ ['.'] && name ≠ ['.', '.'] && (String.ofList name).utf8ByteSize ≤ 255 &&
    name.all fun c => c ≠ '/' && c ≠ '\x00'

/-- The name of the file that a path leads to. There is one directory, so a path is a name, after
any number of steps that stay in the directory. -/
def fileName? : (path : List Char) → Option (List Char)
  | '.' :: '/' :: rest => fileName? (rest.dropWhile (· = '/'))
  | path => if isFileName path then some path else none
termination_by path => path.length
decreasing_by
  have := (List.dropWhile_sublist (l := rest) (· = '/')).length_le
  simp only [List.length_cons]
  omega

/-- One more than the most bytes of a path. With the path of the directory it has to stay below
4096. -/
def pathLimit : Nat := 4080

/-- The name of the file that a path leads to. -/
def resolve (path : String) : Except Error String :=
  if path.utf8ByteSize < pathLimit then
    match fileName? path.toList with
    | some name => .ok (String.ofList name)
    | none => .error .unusablePath
  else .error .unusablePath

/-- The file with a name, if it exists. -/
def file? (d : Disk) (name : String) : Option PageFile := d.files.lookup name

/-- The disk with a file in the place of the one that had its name. -/
def put (d : Disk) (f : PageFile) : Disk :=
  ⟨(f.name, f) :: d.files.filter (·.1 ≠ f.name)⟩

@[simp] theorem file?_put_self (d : Disk) (f : PageFile) : (d.put f).file? f.name = some f := by
  simp [put, file?]

theorem file?_put_of_ne (d : Disk) {f : PageFile} {name : String} (h : name ≠ f.name) :
    (d.put f).file? name = d.file? name := by
  have hb : (name == f.name) = false := beq_eq_false_iff_ne.2 h
  simp only [put, file?, List.lookup_cons, hb]
  exact lookup_filter_of_ne d.files h

/-- The file with a name, which a request for it needs to exist. -/
def find (d : Disk) (name : String) : Except Error PageFile :=
  match d.file? name with
  | some f => .ok f
  | none => .error .unusablePath

theorem find_eq_ok {d : Disk} {name : String} {f : PageFile} :
    d.find name = .ok f ↔ d.file? name = some f := by
  unfold find
  split
  · next g hg => rw [hg, Except.ok.injEq, Option.some.injEq]
  · next hn =>
    rw [hn]
    constructor <;> nofun

/-- Opens the file at a path for pages of the given size, and makes an empty one if there is none.
The first part of the answer is the file's name. -/
def openFile (d : Disk) (path : String) (pageSize : Nat) : Except Error (String × Disk) := do
  let name ← resolve path
  let f ← PageFile.open? name pageSize (((d.file? name).map (·.content)).getD [])
  return (name, d.put f)

/-- The content of the file at a path. -/
def contentAt (d : Disk) (path : String) : Except Error SparseBytes := do
  (← d.find (← resolve path)).content.load

/-- Gives the file at a path new content. An open file stays open. -/
def writeFile (d : Disk) (path : String) (pageSize : Nat) (bytes : Bytes) : Except Error Disk := do
  let name ← resolve path
  let content := SparseBytes.ofBytes bytes
  match d.file? name with
  | some f => return d.put { f with content }
  | none => return d.put ⟨name, pageSize, content, 0⟩

/-! ## Pages of tables -/

/-- How many pages a table has. -/
def pageCount (d : Disk) (t : Table) : Except Error Nat := (d.find t.file).map (·.pageCount)

/-- A page of a table, as the file has it. -/
def readPage (d : Disk) (t : Table) (page : PageId) : Except Error Page := do
  let f ← d.find t.file
  if page.table = t.id ∧ page.number < f.pageCount then
    (f.read page.number).map (Page.ofBytes page t.schema)
  else .error (.pageOutOfRange page f.pageCount)

/-- The disk with the bytes of a page in its place in a table's file. -/
def writePage (d : Disk) (t : Table) (p : Page) : Except Error Disk := do
  let f ← d.find t.file
  (f.write p.id.number p.data).map d.put

/-- The disk after the write of a page to a table's file has broken off. -/
def tearPage (d : Disk) (t : Table) (p : Page) (bytes : Nat) : Disk :=
  match d.file? t.file with
  | some f => d.put (f.tear p.id.number p.data bytes)
  | none => d

/-- The disk with one more page without rows in a table's file, and the page's number. -/
def grow (d : Disk) (t : Table) : Except Error (Nat × Disk) := do
  let f ← d.find t.file
  let (number, f) := f.append (Bytes.zeros f.pageSize)
  return (number, d.put f)

end Disk

end RowStore
