import RowStore.Memory

/-!
# Page files

A file of pages of one size: page `n` is the `n`-th run of that many bytes. What is left after the
last whole page belongs to no page.
-/

namespace RowStore

/-- An open file of pages. -/
structure PageFile where
  /-- The file's name. -/
  name : String
  /-- The bytes of a page. -/
  pageSize : Nat
  /-- The file's content, with a hole where a write has left a gap. -/
  content : SparseBytes
  /-- How many pages have been written in place since the file was opened. -/
  writes : Nat
deriving DecidableEq

namespace PageFile

/-- The file opened for pages of the given size, which has to be positive. -/
def open? (name : String) (pageSize : Nat) (content : SparseBytes) : Except Error PageFile :=
  if pageSize = 0 then .error .zeroPageSize else .ok ⟨name, pageSize, content, 0⟩

/-- The bytes that the file reads as. -/
def bytes (f : PageFile) : Bytes := f.content.bytes

/-- How many bytes the file has. -/
def length (f : PageFile) : Nat := f.content.length

@[simp] theorem length_bytes (f : PageFile) : f.bytes.length = f.length :=
  SparseBytes.length_bytes f.content

/-- The number of whole pages, as far as page numbers can count them. -/
def pageCount (f : PageFile) : Nat := f.length / f.pageSize % pageLimit

/-- The bytes of a page, over the start of a buffer. -/
def readInto (f : PageFile) (number : Nat) (buffer : Bytes) : Except Error Bytes :=
  let stop := (number + 1) * f.pageSize
  if sizeLimit ≤ stop then .error .overflow
  else if f.length < stop then .error (.pastEnd number f.name f.length)
  else if buffer.length < f.pageSize then .error .shortBuffer
  else .ok (f.content.slice (number * f.pageSize) f.pageSize ++ buffer.drop f.pageSize)

/-- The bytes of a page. -/
def read (f : PageFile) (number : Nat) : Except Error Bytes :=
  f.readInto number (Bytes.zeros f.pageSize)

/-- The file with the bytes from a position on replaced. -/
def overwrite (f : PageFile) (start : Nat) (data : Bytes) : PageFile :=
  { f with content := f.content.overwrite start data }

/-- The file with the bytes of a page replaced. A file that ends before the page grows up to it. -/
def write (f : PageFile) (number : Nat) (data : Bytes) : Except Error PageFile :=
  if data.length ≠ f.pageSize then .error (.pageLength number data.length f.pageSize)
  else if sizeLimit ≤ number * f.pageSize then .error .overflow
  else .ok { f.overwrite (number * f.pageSize) data with writes := f.writes + 1 }

/-- The file with the data put after its last whole page, and the number of the new page. -/
def append (f : PageFile) (data : Bytes) : Nat × PageFile :=
  (f.pageCount, f.overwrite (f.pageCount * f.pageSize) data)

/-! ## Writes that break off -/

/-- How the write of a page breaks off. -/
structure Fault where
  /-- How many bytes of the page have got to the file by then. -/
  bytes : Nat
  /-- What is reported. -/
  err : Error

/-- The file after the write of a page has broken off: of the page, only the first bytes are new. -/
def tear (f : PageFile) (number : Nat) (data : Bytes) (bytes : Nat) : PageFile :=
  if bytes = 0 then f else f.overwrite (number * f.pageSize) (data.take bytes)

@[simp] theorem bytes_overwrite (f : PageFile) (start : Nat) (data : Bytes) :
    (f.overwrite start data).bytes = Bytes.overwrite start data f.bytes :=
  SparseBytes.bytes_overwrite start data f.content

end PageFile

end RowStore
