import RowStore.Error
import RowStore.SparseBytes

/-!
# Limits of memory and of files

What a buffer, a file and the memory for reading a file can hold. The bytes that a file stores are
in memory already, so that reading a file as a whole takes room for its holes.
-/

namespace RowStore

/-- One more than the largest length of a buffer, half of what 64 bits can count. -/
def bufferLimit : Nat := UInt64.size / 2

/-- One more than the largest length up to which a file can be filled, 2 ^ 32 - 1 blocks of 4096
bytes. -/
def fileLimit : Nat := (UInt32.size - 1) * 4096 + 1

/-- One more than the largest number of bytes in holes for which there is memory. -/
def memoryLimit : Nat := 1 <<< 35

/-- The buffer of `len` bytes that begins with the given ones and ends in copies of `fill`. -/
def Bytes.buffer (len : Nat) (fill : UInt8) (b : Bytes) : Except Error Bytes :=
  if len < bufferLimit then .ok (b.take len ++ List.replicate (len - b.length) fill)
  else .error .overflow

namespace SparseBytes

/-- The byte string for reading as a whole. -/
def load (s : SparseBytes) : Except Error SparseBytes :=
  if s.gap < memoryLimit then .ok s else .error .outOfMemory

theorem load_of_lt {s : SparseBytes} (h : s.gap < memoryLimit) : s.load = .ok s := if_pos h

@[simp] theorem load_ofBytes (b : Bytes) : (ofBytes b).load = .ok (ofBytes b) :=
  load_of_lt (by simp [memoryLimit])

end SparseBytes

end RowStore
