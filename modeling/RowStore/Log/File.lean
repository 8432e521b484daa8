import RowStore.Log.Record
import RowStore.Memory

/-!
# Log files

A log file is the stored forms of its records, one after the other. A file that was cut short ends
with a part of a record, which counts as not written.
-/

namespace RowStore

/-- A log file. -/
structure LogFile where
  /-- The file's content, with a hole where its length was set beyond its end. -/
  content : SparseBytes
deriving DecidableEq

namespace LogFile

/-- The file without bytes. -/
def empty : LogFile := ⟨[]⟩

/-- The file with the given bytes. -/
def ofBytes (b : Bytes) : LogFile := ⟨.ofBytes b⟩

/-- The log file over what is found at its path, a file without bytes if there is none. Opening
looks at nothing of what is there. -/
def opened (found : Option SparseBytes) : LogFile := ⟨found.getD []⟩

/-- The bytes that the file reads as. -/
def bytes (f : LogFile) : Bytes := f.content.bytes

/-- The file with a record put at its end. -/
def append (f : LogFile) (r : UpdateRecord) : LogFile := ⟨f.content ++ .ofBytes r.encode⟩

/-- The log file of the records. -/
def ofRecords (rs : List UpdateRecord) : LogFile := rs.foldl append empty

/-- The file with its length set, as the file system does it: cut, or filled up with zeros as long
as a file may be so long. -/
def setLength (f : LogFile) (len : Nat) : Except Error LogFile :=
  if len ≤ f.content.length ∨ len < fileLimit then .ok ⟨f.content.resize len⟩
  else .error .fileTooLong

@[simp] theorem length_bytes (f : LogFile) : f.bytes.length = f.content.length :=
  SparseBytes.length_bytes f.content

@[simp] theorem bytes_empty : empty.bytes = [] := rfl

@[simp] theorem bytes_ofBytes (b : Bytes) : (ofBytes b).bytes = b := SparseBytes.bytes_ofBytes b

/-- A file that is opened again is the file that it was. -/
@[simp] theorem opened_content (f : LogFile) : opened (some f.content) = f := rfl

@[simp] theorem bytes_append (f : LogFile) (r : UpdateRecord) :
    (f.append r).bytes = f.bytes ++ r.encode := by
  simp [append, bytes]

theorem bytes_foldl_append (rs : List UpdateRecord) (f : LogFile) :
    (rs.foldl append f).bytes = f.bytes ++ rs.flatMap UpdateRecord.encode := by
  induction rs generalizing f with
  | nil => simp
  | cons r rs ih => simp [ih]

@[simp] theorem bytes_ofRecords (rs : List UpdateRecord) :
    (ofRecords rs).bytes = rs.flatMap UpdateRecord.encode := by
  simp [ofRecords, bytes_foldl_append]

/-- Appending stores all of the record. -/
@[simp] theorem gap_append (f : LogFile) (r : UpdateRecord) :
    (f.append r).content.gap = f.content.gap := by
  simp [append]

theorem gap_foldl_append (rs : List UpdateRecord) (f : LogFile) :
    (rs.foldl append f).content.gap = f.content.gap := by
  induction rs generalizing f with
  | nil => rfl
  | cons r rs ih => simp [ih]

@[simp] theorem gap_ofRecords (rs : List UpdateRecord) : (ofRecords rs).content.gap = 0 :=
  gap_foldl_append rs empty

/-- A file can always be cut. -/
theorem setLength_of_le {f : LogFile} {len : Nat} (h : len ≤ f.content.length) :
    f.setLength len = .ok ⟨f.content.resize len⟩ :=
  if_pos (.inl h)

/-- Setting the length keeps the bytes before the new end. -/
theorem bytes_of_setLength {f g : LogFile} {len : Nat} (h : f.setLength len = .ok g) :
    g.bytes = Bytes.resize len f.bytes := by
  unfold setLength at h
  split at h
  · cases h
    exact SparseBytes.bytes_resize len f.content
  · cases h

/-! ## Reading -/

/-- The body of the first record, which is as long as the count before it says, and what follows
it; nothing if the content ends before the record does. -/
def splitFirst? (s : SparseBytes) : Option (Bytes × SparseBytes) :=
  let stop := 4 + Bytes.toNat (s.slice 0 4)
  if s.length < stop then none else some (s.slice 4 (stop - 4), s.drop stop)

theorem length_lt_of_splitFirst? {s rest : SparseBytes} {body : Bytes}
    (h : splitFirst? s = some (body, rest)) : rest.length < s.length := by
  simp only [splitFirst?] at h
  split at h
  · cases h
  · cases h
    rw [SparseBytes.length_drop]
    omega

/-- How the first record is split off, in terms of the bytes alone. -/
theorem map_bytes_splitFirst? (s : SparseBytes) :
    (splitFirst? s).map (fun p => (p.1, p.2.bytes)) =
      let stop := 4 + Bytes.toNat (Bytes.slice 0 4 s.bytes)
      if s.bytes.length < stop then none
      else some (Bytes.slice 4 (stop - 4) s.bytes, s.bytes.drop stop) := by
  simp only [splitFirst?, SparseBytes.slice_eq, SparseBytes.length_bytes]
  split <;> simp

/-- The complete records that the content begins with, oldest first. -/
def decodeAll (s : SparseBytes) : Except Error (List UpdateRecord) :=
  match h : splitFirst? s with
  | none => .ok []
  | some (body, rest) => do
    have := length_lt_of_splitFirst? h
    let r ← UpdateRecord.decode body
    return r :: (← decodeAll rest)
termination_by s.length

/-- Where the holes are makes no difference to the records. -/
theorem decodeAll_congr {s t : SparseBytes} (h : s.bytes = t.bytes) :
    decodeAll s = decodeAll t := by
  have key : (splitFirst? s).map (fun p => (p.1, p.2.bytes)) =
      (splitFirst? t).map (fun p => (p.1, p.2.bytes)) := by
    rw [map_bytes_splitFirst?, map_bytes_splitFirst?, h]
  rw [decodeAll, decodeAll]
  split <;> split
  · rfl
  · simp_all
  · simp_all
  · next body rest hs body' rest' ht =>
    rw [hs, ht] at key
    obtain ⟨rfl, hrest⟩ : body = body' ∧ rest.bytes = rest'.bytes := by simpa using key
    have := length_lt_of_splitFirst? hs
    rw [decodeAll_congr hrest]
termination_by s.length

/-- The complete records, oldest first. The file is read as a whole. -/
def records (f : LogFile) : Except Error (List UpdateRecord) := f.content.load >>= decodeAll

end LogFile

end RowStore
